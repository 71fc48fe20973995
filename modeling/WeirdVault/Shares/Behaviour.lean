import WeirdVault.Shares.Listing

/-!
# What the answers of a run say together

Ids and tokens are answered once, a thread puts and inserts once, and every request was one that
its thread was allowed to make.
-/

namespace WeirdVault.Shares

open WeirdVault.Framework Program

def ends : Job → Heard → Except Thrown Reply → Prop
  | .save .. => fun k _ => Settled k
  | .share .. => fun k _ => Settled k
  | .revoke _ user recordingId shareId => revokedEnd user recordingId shareId
  | .remove _ user id => removedEnd user id
  | .view _ token => viewEnd token
  | .sweep bucket dryRun _ _ => sweepEnd bucket dryRun

def behaviour : Behaviour system where
  may := may
  post := ends
  code := by
    intro job
    cases job with
    | save bucket user body => exact asks_save (by trivial) bucket user body
    | share bucket user recordingId body => exact asks_share (by trivial) bucket user recordingId body
    | revoke bucket user recordingId shareId => exact asks_revoke id bucket user recordingId shareId
    | remove bucket user i => exact asks_remove bucket user i
    | view bucket token => exact asks_view bucket token
    | sweep bucket dryRun sharesFirst pages => exact asks_sweep

theorem follows_run (as : List (Act Job Moment)) : behaviour.Follows (system.after fresh as) :=
  behaviour.follows_after (behaviour.follows_init emptyStore) as

def Store.tick (s : Store) (m : Moment) : Store := { s with clock := s.clock + m.elapsed }

theorem exec_cases (m : Moment) (s : Store) (r : Request) :
    exec m s r = (s.tick m,.error (r.trouble m)) ∧ r.cleanup = false ∨
      (exec m s r).1 = (execute m (s.tick m) r).1 ∧
        ((exec m s r).2 = (execute m (s.tick m) r).2 ∨
          (exec m s r).2 = .error (r.trouble m) ∧ m.fate ≠ .answered) ∧
        (m.fate = .refused → r.certain = true ∨ r.cleanup = true) := by
  unfold exec
  simp only
  split
  · rename_i hyes
    refine .inr ⟨rfl,.inl rfl,?_⟩
    intro hrefused
    rcases hyes with hanswered | hcertain
    · rw [hrefused] at hanswered
      cases hanswered
    · exact .inl hcertain
  · rename_i hno
    have hfate : m.fate ≠ .answered := fun h => hno (.inl h)
    split
    · rename_i hyes
      refine .inr ⟨rfl,.inr ⟨rfl,hfate⟩,?_⟩
      intro hrefused
      rcases hyes with hlost | hcleanup
      · rw [hrefused] at hlost
        cases hlost
      · exact .inr hcleanup
    · rename_i hlost
      refine .inl ⟨rfl,?_⟩
      cases hr : r.cleanup with
      | false => rfl
      | true => exact absurd (.inr hr) hlost

def Said (log : Log) (i : ℕ) (r : Request) (x : r.Ans) : Prop := Heard.Has (transcript log i) r x

section

variable {s : Store} {log : Log} {i j : ℕ} {job : Job} {m : Moment} {r r' : Request} {x : r.Ans}

theorem said_cons {x' : r'.Ans} :
    Said (⟨i,job,r',x'⟩ :: log) j r x ↔
      j = i ∧ (⟨r,x⟩ : (r : Request) × r.Ans) = ⟨r',x'⟩ ∨ Said log j r x := by
  unfold Said Heard.Has
  by_cases hij : i = j
  · subst hij
    rw [transcript_cons_self,List.mem_cons]
    simp
  · rw [transcript_cons_of_ne log hij]
    simp [Ne.symm hij]

theorem Said.cons (h : Said log j r x) (x' : r'.Ans) : Said (⟨i,job,r',x'⟩ :: log) j r x :=
  said_cons.mpr (.inr h)

theorem said_self : Said (⟨i,job,r,x⟩ :: log) i r x := said_cons.mpr (.inl ⟨rfl,rfl⟩)

theorem Said.old {x' : r'.Ans} (h : Said (⟨i,job,r',x'⟩ :: log) j r x) (hne : r ≠ r') :
    Said log j r x := by
  rcases said_cons.mp h with ⟨_,he⟩ | h
  · exact absurd (congrArg Sigma.fst he) hne
  · exact h

structure Base (s : Store) (log : Log) : Prop where
  allowed : ∀ i, Allowed asks (transcript log i)
  ids : ∀ i source (id : ℕ), Said log i (.randomUuid source) (.ok id) → s.minted[id]? = some source
  idsOnce : ∀ i j source source' (id : ℕ), Said log i (.randomUuid source) (.ok id) →
    Said log j (.randomUuid source') (.ok id) → i = j
  tokens : ∀ i (token : ℕ), Said log i .newShareToken (.ok token) → token < s.tokens
  tokensOnce : ∀ i j (token : ℕ), Said log i .newShareToken (.ok token) →
    Said log j .newShareToken (.ok token) → i = j

theorem base_empty : Base emptyStore [] := by
  constructor
  · intro i
    trivial
  all_goals
    intros
    rename_i h
    cases h

def Request.writesRows : Request → Bool
  | .insertRecording _ => true
  | .deleteRecording .. => true
  | .insertShare _ => true
  | .revokeShare .. => true
  | .countView _ => true
  | .refundView _ => true
  | _ => false

theorem execute_rows (m : Moment) (s : Store) (hr : r.writesRows = true) :
    ∃ recordings shares, (execute m s r).1 = { s with recordings, shares } := by
  cases r with
  | insertRecording row =>
    simp only [execute]
    split <;> exact ⟨_,_,rfl⟩
  | deleteRecording i userId =>
    simp only [execute]
    split <;> exact ⟨_,_,rfl⟩
  | insertShare row =>
    simp only [execute]
    split <;> exact ⟨_,_,rfl⟩
  | revokeShare i recordingId userId =>
    simp only [execute]
    split <;> exact ⟨_,_,rfl⟩
  | countView token =>
    simp only [execute]
    split <;> exact ⟨_,_,rfl⟩
  | refundView i => exact ⟨_,_,rfl⟩
  | _ => cases hr

theorem execute_minted (m : Moment) (s : Store) (r : Request) :
    (execute m s r).1.minted = match r with
      | .randomUuid source => s.minted ++ [source]
      | _ => s.minted := by
  cases hr : r.writesRows with
  | true =>
    obtain ⟨recordings,shares,he⟩ := execute_rows m s hr
    rw [he]
    cases r <;> first | rfl | cases hr
  | false => cases r <;> first | rfl | cases hr

theorem execute_tokens (m : Moment) (s : Store) (r : Request) :
    (execute m s r).1.tokens = match r with
      | .newShareToken => s.tokens + 1
      | _ => s.tokens := by
  cases hr : r.writesRows with
  | true =>
    obtain ⟨recordings,shares,he⟩ := execute_rows m s hr
    rw [he]
    cases r <;> first | rfl | cases hr
  | false => cases r <;> first | rfl | cases hr

theorem execute_clock (m : Moment) (s : Store) (r : Request) : (execute m s r).1.clock = s.clock := by
  cases hr : r.writesRows with
  | true =>
    obtain ⟨recordings,shares,he⟩ := execute_rows m s hr
    rw [he]
  | false => cases r <;> first | rfl | cases hr

theorem execute_bucket (m : Moment) (s : Store) (r : Request) :
    (execute m s r).1.bucket = match r with
      | .putObject key blob => s.bucket.put ⟨key,blob,s.clock⟩
      | .deleteObject key _ => s.bucket.erase key
      | _ => s.bucket := by
  cases hr : r.writesRows with
  | true =>
    obtain ⟨recordings,shares,he⟩ := execute_rows m s hr
    rw [he]
    cases r <;> first | rfl | cases hr
  | false => cases r <;> first | rfl | cases hr

theorem execute_written (m : Moment) (s : Store) (r : Request) :
    (execute m s r).1.written = match r with
      | .putObject key _ => (key,s.clock) :: s.written
      | _ => s.written := by
  cases hr : r.writesRows with
  | true =>
    obtain ⟨recordings,shares,he⟩ := execute_rows m s hr
    rw [he]
    cases r <;> first | rfl | cases hr
  | false => cases r <;> first | rfl | cases hr

theorem execute_recordings (m : Moment) (s : Store) (r : Request) :
    (execute m s r).1.recordings = match r with
      | .insertRecording row =>
        if (s.recordings.get? row.id).isSome then s.recordings else s.recordings.put row
      | .deleteRecording id userId =>
        if ((s.recordings.get? id).filter (·.userId = userId)).isSome then s.recordings.erase id
        else s.recordings
      | _ => s.recordings := by
  cases r with
  | insertRecording row =>
    simp only [execute]
    split <;> rfl
  | deleteRecording i userId =>
    simp only [execute]
    split <;> rfl
  | insertShare row =>
    simp only [execute]
    split <;> rfl
  | revokeShare i recordingId userId =>
    simp only [execute]
    split <;> rfl
  | countView token =>
    simp only [execute]
    split <;> rfl
  | _ => rfl

theorem minted_exec (m : Moment) (s : Store) (r : Request) :
    ∃ more, (exec m s r).1.minted = s.minted ++ more := by
  rcases exec_cases m s r with ⟨he,_⟩ | ⟨he,_⟩
  · rw [he]
    exact ⟨[],(List.append_nil _).symm⟩
  · rw [he,execute_minted]
    split
    · exact ⟨_,rfl⟩
    · exact ⟨[],(List.append_nil _).symm⟩

theorem tokens_exec (m : Moment) (s : Store) (r : Request) : s.tokens ≤ (exec m s r).1.tokens := by
  rcases exec_cases m s r with ⟨he,_⟩ | ⟨he,_⟩
  · rw [he]
    exact le_refl _
  · rw [he,execute_tokens]
    split
    · exact Nat.le_succ _
    · exact le_refl _

theorem exec_randomUuid (m : Moment) (s : Store) (source : Option ℕ) :
    exec m s (.randomUuid source) =
      ({ s.tick m with minted := s.minted ++ [source] },.ok s.minted.length) := by
  unfold exec
  rw [if_pos (.inr rfl)]
  rfl

theorem exec_newShareToken (m : Moment) (s : Store) :
    exec m s .newShareToken = ({ s.tick m with tokens := s.tokens + 1 },.ok s.tokens) := by
  unfold exec
  rw [if_pos (.inr rfl)]
  rfl

theorem base_step (h : Base s log) (hr : asks (transcript log i) r) :
    Base (exec m s r).1 (⟨i,job,r,(exec m s r).2⟩ :: log) := by
  have hids : ∀ j source (id : ℕ),
      Said (⟨i,job,r,(exec m s r).2⟩ :: log) j (.randomUuid source) (.ok id) →
      Said log j (.randomUuid source) (.ok id) ∨
        j = i ∧ r = .randomUuid source ∧ id = s.minted.length := by
    intro j source id hsaid
    rcases said_cons.mp hsaid with ⟨hj,he⟩ | hold
    · obtain rfl : r = .randomUuid source := (congrArg Sigma.fst he).symm
      rw [exec_randomUuid] at he
      cases he
      exact .inr ⟨hj,rfl,rfl⟩
    · exact .inl hold
  have htokens : ∀ j (token : ℕ),
      Said (⟨i,job,r,(exec m s r).2⟩ :: log) j .newShareToken (.ok token) →
      Said log j .newShareToken (.ok token) ∨ j = i ∧ r = .newShareToken ∧ token = s.tokens := by
    intro j token hsaid
    rcases said_cons.mp hsaid with ⟨hj,he⟩ | hold
    · obtain rfl : r = .newShareToken := (congrArg Sigma.fst he).symm
      rw [exec_newShareToken] at he
      cases he
      exact .inr ⟨hj,rfl,rfl⟩
    · exact .inl hold
  constructor
  · intro j
    by_cases hij : i = j
    · subst hij
      rw [transcript_cons_self]
      exact ⟨hr,h.allowed i⟩
    · rw [transcript_cons_of_ne log hij]
      exact h.allowed j
  · intro j source id hsaid
    rcases hids j source id hsaid with hold | ⟨_,rfl,rfl⟩
    · have hget := h.ids j source id hold
      have hlt := (List.getElem?_eq_some_iff.mp hget).1
      obtain ⟨more,hmore⟩ := minted_exec m s r
      rw [hmore,List.getElem?_append_left hlt,hget]
    · rw [exec_randomUuid]
      exact List.getElem?_concat_length
  · intro j j' source source' id hsaid hsaid'
    rcases hids j source id hsaid with hold | ⟨rfl,_,hnew⟩ <;>
      rcases hids j' source' id hsaid' with hold' | ⟨rfl,_,hnew'⟩
    · exact h.idsOnce j j' source source' id hold hold'
    · have hlt := (List.getElem?_eq_some_iff.mp (h.ids j source id hold)).1
      omega
    · have hlt := (List.getElem?_eq_some_iff.mp (h.ids j' source' id hold')).1
      omega
    · rfl
  · intro j token hsaid
    rcases htokens j token hsaid with hold | ⟨_,rfl,rfl⟩
    · have hlt := h.tokens j token hold
      exact Nat.lt_of_lt_of_le hlt (tokens_exec m s r)
    · rw [exec_newShareToken]
      exact Nat.lt_succ_self _
  · intro j j' token hsaid hsaid'
    rcases htokens j token hsaid with hold | ⟨rfl,_,hnew⟩ <;>
      rcases htokens j' token hsaid' with hold' | ⟨rfl,_,hnew'⟩
    · exact h.tokensOnce j j' token hold hold'
    · have hlt := h.tokens j token hold
      omega
    · have hlt := h.tokens j' token hold'
      omega
    · rfl

theorem Base.asked (h : Base s log) (hsaid : Said log i r x) :
    ∃ older, asks older r ∧ older.Grows (transcript log i) := by
  obtain ⟨newer,older,he,hr⟩ := (h.allowed i).of_mem hsaid
  refine ⟨older,hr,?_⟩
  intro r' x' hx
  rw [he]
  exact List.mem_append_right newer (List.mem_cons_of_mem _ hx)

theorem Base.insertsOnce {x' : r'.Ans} (h : Base s log) (hr : Said log i r x)
    (hr' : Said log i r' x') (hins : Inserts r) (hins' : Inserts r') :
    (⟨r,x⟩ : (r : Request) × r.Ans) = ⟨r',x'⟩ := by
  refine (h.allowed i).once (P := Inserts) ?_ hr hr' hins hins'
  intro k q hq hi
  cases q with
  | insertRecording row => exact hq.2.2
  | insertShare row => exact hq.2.2.2.1
  | _ => exact hi.elim

def Inserted (log : Log) (row : Share) : Prop := ∃ i x, Said log i (.insertShare row) x

theorem Base.heardShare {row : Share} {x : Except Thrown Unit} (h : Base s log)
    (hrow : Said log i (.insertShare row) x) :
    Said log i (.randomUuid (some row.recordingId)) (.ok row.id) ∧
      Said log i .newShareToken (.ok row.token) ∧ row.views = 0 ∧ row.revokedAt = none := by
  obtain ⟨older,hasks,hgrows⟩ := h.asked hrow
  obtain ⟨hid,htoken,_,_,hviews,hrevoked⟩ := hasks
  exact ⟨hgrows _ _ hid,hgrows _ _ htoken,hviews,hrevoked⟩

theorem Base.sameToken {row row' : Share} (h : Base s log) (hrow : Inserted log row)
    (hrow' : Inserted log row') (he : row.token = row'.token) : row = row' := by
  obtain ⟨i,x,hi⟩ := hrow
  obtain ⟨j,x',hj⟩ := hrow'
  have htoken := (h.heardShare hi).2.1
  rw [he] at htoken
  obtain rfl := h.tokensOnce i j row'.token htoken (h.heardShare hj).2.1
  cases h.insertsOnce hi hj trivial trivial
  rfl

theorem Base.sameId {row row' : Share} (h : Base s log) (hrow : Inserted log row)
    (hrow' : Inserted log row') (he : row.id = row'.id) : row = row' := by
  obtain ⟨i,x,hi⟩ := hrow
  obtain ⟨j,x',hj⟩ := hrow'
  have hid := (h.heardShare hi).1
  rw [he] at hid
  obtain rfl := h.idsOnce i j _ _ row'.id hid (h.heardShare hj).1
  cases h.insertsOnce hi hj trivial trivial
  rfl

theorem Inserted.cons {row : Share} {x' : r'.Ans} (h : Inserted log row) :
    Inserted (⟨i,job,r',x'⟩ :: log) row := by
  obtain ⟨j,x,hx⟩ := h
  exact ⟨j,x,hx.cons x'⟩

theorem Base.newToken {row row' : Share} (h : Base s log)
    (hasks : asks (transcript log i) (.insertShare row)) (hrow : Inserted log row')
    (he : row'.token = row.token) : False := by
  obtain ⟨j,x,hj⟩ := hrow
  obtain ⟨_,htoken,_,hnever,_⟩ := hasks
  have hother := (h.heardShare hj).2.1
  rw [he] at hother
  obtain rfl := h.tokensOnce i j row.token htoken hother
  exact hnever _ hj trivial

end

end WeirdVault.Shares
