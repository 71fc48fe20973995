import WeirdVault.Shares.Objects

/-!
# What a reported deletion leaves behind

A recording that was reported deleted has no row, no share and no object left, in every run in which
the deletion of a row takes along no share that it had not read. A share can be made between the two
statements; its object then stays in the bucket.
-/

namespace WeirdVault.Shares

open WeirdVault.Framework

section

variable {s : Store} {log : Log} {i j k : ℕ} {job : Job} {m : Moment} {r : Request} {key : Key}

theorem Base.heardRecording {row : Recording} {x : Except Thrown Unit} (h : Base s log)
    (hrow : Said log i (.insertRecording row) x) : Said log i (.randomUuid none) (.ok row.id) := by
  obtain ⟨older,hasks,hgrows⟩ := h.asked hrow
  exact hgrows _ _ hasks.1

theorem Base.newShare {row row' : Share} (h : Base s log)
    (hasks : asks (transcript log i) (.insertShare row)) (hrow : Inserted log row')
    (he : row'.id = row.id) : False := by
  obtain ⟨j,x,hj⟩ := hrow
  obtain ⟨hid,_,_,hnever,_⟩ := hasks
  have hother := (h.heardShare hj).1
  rw [he] at hother
  obtain rfl := h.idsOnce i j _ _ row.id hid hother
  exact hnever _ hj trivial

theorem Base.newRecording {row row' : Recording} (h : Base s log)
    (hasks : asks (transcript log i) (.insertRecording row)) (hrow : Saved log row')
    (he : row'.id = row.id) : False := by
  obtain ⟨j,x,hj⟩ := hrow
  obtain ⟨hid,_,hnever⟩ := hasks
  have hother := h.heardRecording hj
  rw [he] at hother
  obtain rfl := h.idsOnce i j _ _ row.id hid hother
  exact hnever _ hj trivial

theorem Base.sameRecording {row row' : Recording} (h : Base s log) (hrow : Saved log row)
    (hrow' : Saved log row') (he : row.id = row'.id) : row = row' := by
  obtain ⟨i,x,hi⟩ := hrow
  obtain ⟨j,x',hj⟩ := hrow'
  have hid := h.heardRecording hi
  rw [he] at hid
  obtain rfl := h.idsOnce i j _ _ row'.id hid (h.heardRecording hj)
  cases h.insertsOnce hi hj trivial trivial
  rfl

/-- What was read of a row was so, what was reported deleted or revoked is, and the bytes that a
row has lost are gone. -/
structure Reported (s : Store) (log : Log) : Prop extends Traced s log where
  readRecording : ∀ i k userId body, Said log i (.selectRecording k userId) (.ok (some body)) →
    ∃ row, Saved log row ∧ row.id = k ∧ row.body = body
  readShare : ∀ i k recordingId userId body,
    Said log i (.selectShare k recordingId userId) (.ok (some body)) →
      (∃ row₀, Inserted log row₀ ∧ row₀.id = k) ∧
        ∀ row ∈ s.shares.rows, row.id = k → row.body = body ∨ row.body = .empty
  emptied : ∀ row ∈ s.shares.rows, ∀ row₀, Inserted log row₀ → row₀.id = row.id →
    row.body ≠ row₀.body → ∀ key, row₀.body.storageKey = some key → s.bucket.get? key = none
  revoked : ∀ i k recordingId userId rows,
    Said log i (.revokeShare k recordingId userId) (.ok rows) → rows ≠ [] →
      (∃ row₀, Inserted log row₀ ∧ row₀.id = k ∧
        ∀ key, row₀.body.storageKey = some key → s.bucket.get? key = none) ∧
        ∀ row ∈ s.shares.rows, row.id = k → row.body = .empty
  deleted : ∀ i k userId ids, Said log i (.deleteRecording k userId) (.ok ids) → ids ≠ [] →
    s.recordings.get? k = none ∧ ∃ row, Saved log row ∧ row.id = k

theorem Traced.insertedKey (h : Traced s log) {row : Share} (hrow : Inserted log row)
    (hkey : row.body.storageKey = some key) : key = shareKey row.userId row.id ∧ WasPut log key := by
  obtain ⟨i,x,hx⟩ := hrow
  obtain ⟨he,blob,hput⟩ := (h.insertedBody hx).put key hkey
  exact ⟨he,i,blob,_,hput⟩

private theorem reported_readRecording (h : Reported s log) {userId : String} {body : StoredBody}
    (hx : Said (⟨i,job,r,(exec m s r).2⟩ :: log) j (.selectRecording k userId) (.ok (some body))) :
    ∃ row, Saved (⟨i,job,r,(exec m s r).2⟩ :: log) row ∧ row.id = k ∧ row.body = body := by
  rcases said_exec hx with ⟨_,_,hanswer⟩ | hold
  · obtain ⟨row,hrow,hfacts⟩ := selectRecording_ok hanswer
    exact ⟨row,(h.recordings row hrow).cons,hfacts⟩
  · obtain ⟨row,hrow,hfacts⟩ := h.readRecording j k userId body hold
    exact ⟨row,hrow.cons,hfacts⟩

private theorem row_unique {row row' : Share} (hrow : row ∈ s.shares.rows)
    (hrow' : row' ∈ s.shares.rows) (he : row.id = row'.id) : row = row' := by
  have hget := Table.get?_of_mem hrow
  rw [he,Table.get?_of_mem hrow'] at hget
  exact (Option.some.inj hget).symm

private theorem reported_readShare (h : Reported s log) (hr : asks (transcript log i) r)
    {recordingId : ℕ} {userId : String} {body : StoredBody}
    (hx : Said (⟨i,job,r,(exec m s r).2⟩ :: log) j (.selectShare k recordingId userId)
      (.ok (some body))) :
    (∃ row₀, Inserted (⟨i,job,r,(exec m s r).2⟩ :: log) row₀ ∧ row₀.id = k) ∧
      ∀ row ∈ (exec m s r).1.shares.rows, row.id = k → row.body = body ∨ row.body = .empty := by
  have hknown : (∃ row₀, Inserted log row₀ ∧ row₀.id = k) ∧
      ∀ row ∈ s.shares.rows, row.id = k → row.body = body ∨ row.body = .empty := by
    rcases said_exec hx with ⟨_,_,hanswer⟩ | hold
    · obtain ⟨row,hrow,hid,hbody⟩ := selectShare_ok hanswer
      obtain ⟨row₀,hins,hlater⟩ := h.shares row hrow
      refine ⟨⟨row₀,hins,hlater.id.symm.trans hid⟩,?_⟩
      intro row' hrow' hid'
      rw [row_unique hrow' hrow (hid'.trans hid.symm)]
      exact .inl hbody
    · exact h.readShare j k recordingId userId body hold
  obtain ⟨⟨row₀,hins,hid⟩,hrows⟩ := hknown
  refine ⟨⟨row₀,hins.cons,hid⟩,?_⟩
  intro row hrow hrowid
  rcases rows_exec m s r row hrow with ⟨rfl,_⟩ | ⟨row',hold,hlater,_⟩
  · exact (h.newShare hr hins (hid.trans hrowid.symm)).elim
  · rcases hlater.body with hb | hb
    · rw [hb]
      exact hrows row' hold (hlater.id.symm.trans hrowid)
    · exact .inr hb

private theorem reported_emptied (h : Reported s log) (hr : asks (transcript log i) r)
    {row row₀ : Share} (hrow : row ∈ (exec m s r).1.shares.rows)
    (hins : Inserted (⟨i,job,r,(exec m s r).2⟩ :: log) row₀) (hid : row₀.id = row.id)
    (hne : row.body ≠ row₀.body) (hkey : row₀.body.storageKey = some key) :
    (exec m s r).1.bucket.get? key = none := by
  have hnew : Base (exec m s r).1 (⟨i,job,r,(exec m s r).2⟩ :: log) := base_step h.toBase hr
  rcases rows_exec m s r row hrow with ⟨rfl,_⟩ | ⟨row',hold,hlater,hbody⟩
  · exact absurd (congrArg Share.body (hnew.sameId ⟨i,_,said_self⟩ hins hid.symm)) hne
  · obtain ⟨row₁,hins₁,hlater₁⟩ := h.shares row' hold
    obtain rfl : row₁ = row₀ :=
      hnew.sameId hins₁.cons hins (hlater₁.id.symm.trans (hlater.id.symm.trans hid.symm))
    obtain ⟨_,hput⟩ := h.insertedKey hins₁ hkey
    by_cases hlost : row'.body = row₁.body
    · -- this request has taken the bytes
      rcases hbody with hb | hrevokes
      · exact absurd (hb.trans hlost) hne
      · cases r with
        | revokeShare k recordingId userId =>
          obtain ⟨body,hread,hdestroyed⟩ := hr
          have hcurrent := (h.readShare i k recordingId userId body hread).2 row' hold hrevokes.symm
          have hsome : row'.body ≠ .empty := by
            intro he
            rw [hlost] at he
            rw [he] at hkey
            cases hkey
          have hbody' := hcurrent.resolve_right hsome
          have hgone := hdestroyed body (List.mem_singleton_self body) key
            (by rw [← hbody',hlost,hkey])
          exact h.stays_gone ⟨body,hread,hdestroyed⟩ hput (h.gone key ⟨i,.inr hgone⟩)
        | _ => exact hrevokes.elim
    · exact h.stays_gone hr hput
        (h.emptied row' hold row₁ hins₁ hlater₁.id.symm hlost key hkey)

private theorem reported_revoked (h : Reported s log) (hr : asks (transcript log i) r)
    {recordingId : ℕ} {userId : String} {rows : List Summary}
    (hx : Said (⟨i,job,r,(exec m s r).2⟩ :: log) j (.revokeShare k recordingId userId) (.ok rows))
    (hrows : rows ≠ []) :
    (∃ row₀, Inserted (⟨i,job,r,(exec m s r).2⟩ :: log) row₀ ∧ row₀.id = k ∧
      ∀ key, row₀.body.storageKey = some key → (exec m s r).1.bucket.get? key = none) ∧
      ∀ row ∈ (exec m s r).1.shares.rows, row.id = k → row.body = .empty := by
  rcases said_exec hx with ⟨_,rfl,hanswer⟩ | hold
  · rcases exec_revokeShare m s k recordingId userId with ⟨_,hnone⟩ | ⟨row,hget,he⟩
    · exact absurd (hnone rows hanswer) hrows
    · have hid := Table.key_of_get? hget
      have hall : ∀ row' ∈ (exec m s (.revokeShare k recordingId userId)).1.shares.rows,
          row'.id = k → row'.body = .empty := by
        intro row' hrow' hid'
        rw [he] at hrow'
        rcases Table.mem_rows_put_iff.mp hrow' with rfl | ⟨_,hne⟩
        · rfl
        · exact absurd (hid'.trans hid.symm) hne
      refine ⟨?_,hall⟩
      obtain ⟨row₀,hins,hlater⟩ := h.shares row (Table.mem_of_get? hget)
      refine ⟨row₀,hins.cons,hlater.id.symm.trans hid,?_⟩
      intro key hkey
      have hmem : row.revoked (s.clock + m.elapsed) ∈
          (exec m s (.revokeShare k recordingId userId)).1.shares.rows := by
        rw [he]
        exact Table.mem_rows_put_iff.mpr (.inl rfl)
      have hne : (row.revoked (s.clock + m.elapsed)).body ≠ row₀.body := by
        intro hbody
        rw [← hbody] at hkey
        cases hkey
      have hins' : Inserted (⟨i,job,.revokeShare k recordingId userId,
          (exec m s (.revokeShare k recordingId userId)).2⟩ :: log) row₀ := hins.cons
      exact reported_emptied h hr hmem hins' hlater.id.symm hne hkey
  · obtain ⟨⟨row₀,hins,hid,hgone⟩,hempty⟩ := h.revoked j k recordingId userId rows hold hrows
    refine ⟨⟨row₀,hins.cons,hid,?_⟩,?_⟩
    · intro key hkey
      exact h.stays_gone hr (h.insertedKey hins hkey).2 (hgone key hkey)
    · intro row hrow hrowid
      rcases rows_exec m s r row hrow with ⟨rfl,_⟩ | ⟨row',hrow',hlater,_⟩
      · exact (h.newShare hr hins (hid.trans hrowid.symm)).elim
      · have hbefore := hempty row' hrow' (hlater.id.symm.trans hrowid)
        rcases hlater.body with hb | hb
        · exact hb.trans hbefore
        · exact hb

private theorem reported_deleted (h : Reported s log) (hr : asks (transcript log i) r)
    {userId : String} {ids : List ℕ}
    (hx : Said (⟨i,job,r,(exec m s r).2⟩ :: log) j (.deleteRecording k userId) (.ok ids))
    (hids : ids ≠ []) :
    (exec m s r).1.recordings.get? k = none ∧
      ∃ row, Saved (⟨i,job,r,(exec m s r).2⟩ :: log) row ∧ row.id = k := by
  rcases said_exec hx with ⟨_,rfl,hanswer⟩ | hold
  · rcases exec_deleteRecording m s k userId with ⟨_,_,hnone⟩ | ⟨_,⟨row,hget⟩,he,_⟩
    · exact absurd (hnone ids hanswer) hids
    · refine ⟨by rw [he,Table.get?_erase_self],row,?_,Table.key_of_get? hget⟩
      exact (h.recordings row (Table.mem_of_get? hget)).cons
  · obtain ⟨hnone,row,hsaved,hid⟩ := h.deleted j k userId ids hold hids
    refine ⟨?_,row,hsaved.cons,hid⟩
    rw [Table.get?_eq_none_iff] at hnone ⊢
    intro row' hrow' hid'
    rcases recordings_exec m s r row' hrow' with rfl | hbefore
    · exact h.newRecording hr hsaved (hid.trans hid'.symm)
    · exact hnone row' hbefore hid'

theorem reported_step (h : Reported s log) (hr : asks (transcript log i) r) :
    Reported (exec m s r).1 (⟨i,job,r,(exec m s r).2⟩ :: log) where
  toTraced := traced_step h.toTraced hr
  readRecording := fun _ _ _ _ hx => reported_readRecording h hx
  readShare := fun _ _ _ _ _ hx => reported_readShare h hr hx
  emptied := fun _ hrow _ hins hid hne _ hkey => reported_emptied h hr hrow hins hid hne hkey
  revoked := fun _ _ _ _ _ hx hrows => reported_revoked h hr hx hrows
  deleted := fun _ _ _ _ hx hids => reported_deleted h hr hx hids

theorem reported_empty : Reported emptyStore [] := by
  refine ⟨traced_empty,?_,?_,?_,?_,?_⟩
  · intro i k userId body hx
    cases hx
  · intro i k recordingId userId body hx
    cases hx
  · intro row hrow
    cases hrow
  · intro i k recordingId userId rows hx
    cases hx
  · intro i k userId ids hx
    cases hx

def Pending (log : Log) (key : Key) : Prop :=
  ∃ i blob, Said log i (.putObject key blob) (.ok ()) ∧
    ∀ row x, Said log i (.insertShare row) x → x ≠ .ok ()

def Accounted (s : Store) (log : Log) : Prop :=
  ∀ object ∈ s.bucket.rows, object.key.folder = .shares →
    (∃ row ∈ s.shares.rows, row.body.storageKey = some object.key) ∨ Pending log object.key

/-- The bodies that were read of the shares of the recording name the object. -/
def readsShare (k : ℕ) (userId : String) (key : Key) : (r : Request) × r.Ans → Bool
  | ⟨.selectShares k' userId',.ok bodies⟩ =>
    (k',userId') ≠ (k,userId) || bodies.any (·.storageKey = some key)
  | _ => true

/-- A row that is deleted takes along no share whose object is in the bucket and was not read, and
no object of a share is written by a request that fails. -/
def readsAll (w : Server) : Act Job Moment → Bool
  | .start _ => true
  | .step i m =>
    match w.asks? i with
    | some (.deleteRecording k userId) =>
      m.fate = .refused || w.shared.shares.rows.all fun row =>
        row.recordingId ≠ k || match row.body.storageKey with
          | none => true
          | some key =>
            (w.shared.bucket.get? key).isNone || (transcript w.log i).all (readsShare k userId key)
    | some (.putObject key _) => key.folder = .recordings || m.fate ≠ .lost
    | _ => true

private theorem destroyed_of_readsAll {w : Server} {userId : String} {row : Share}
    (hi : w.asks? i = some (.deleteRecording row.recordingId userId))
    (hok : readsAll w (.step i m) = true)
    (hr : asks (transcript w.log i) (.deleteRecording row.recordingId userId))
    (hfate : m.fate ≠ .refused) (hrow : row ∈ w.shared.shares.rows)
    (hkey : row.body.storageKey = some key) (hthere : (w.shared.bucket.get? key).isSome) :
    WasDeleted w.log key := by
  obtain ⟨body,bodies,_,hbodies,hdestroyed⟩ := hr
  simp only [readsAll,hi,Bool.or_eq_true,decide_eq_true_eq,hfate,false_or,List.all_eq_true] at hok
  have hread := hok row hrow
  rw [hkey] at hread
  simp only [ne_eq,not_true_eq_false,Bool.or_eq_true,List.all_eq_true,false_or] at hread
  rcases hread with hnone | hall
  · rw [Option.isNone_iff_eq_none.mp hnone] at hthere
    cases hthere
  · have hany := hall _ hbodies
    simp only [readsShare,ne_eq,not_true_eq_false,decide_false,Bool.false_or,List.any_eq_true,
      decide_eq_true_eq] at hany
    obtain ⟨body',hbody',hkey'⟩ := hany
    exact ⟨i,.inr (hdestroyed body' (List.mem_cons_of_mem body hbody') key hkey')⟩

private theorem accounted_step {w : Server} (h : Reported w.shared w.log)
    (ha : Accounted w.shared w.log) (hi : w.asks? i = some r) (hok : readsAll w (.step i m) = true)
    (hr : asks (transcript w.log i) r) :
    Accounted (exec m w.shared r).1 (⟨i,job,r,(exec m w.shared r).2⟩ :: w.log) := by
  intro object hobject hfolder
  have hnew : Base (exec m w.shared r).1 (⟨i,job,r,(exec m w.shared r).2⟩ :: w.log) :=
    base_step h.toBase hr
  have hthere : (exec m w.shared r).1.bucket.get? object.key ≠ none := by
    rw [Table.get?_of_mem hobject]
    exact Option.some_ne_none _
  have hold : object ∈ w.shared.bucket.rows →
      (∃ row ∈ (exec m w.shared r).1.shares.rows, row.body.storageKey = some object.key) ∨
        Pending (⟨i,job,r,(exec m w.shared r).2⟩ :: w.log) object.key := by
    intro hmem
    rcases ha object hmem hfolder with ⟨row,hrow,hkey⟩ | ⟨j,blob,hput,hnever⟩
    · rcases shares_stay m w.shared r hrow with ⟨row',hrow',hbody⟩ | hrevoked | ⟨userId,rfl,hfate⟩
      · exact .inl ⟨row',hrow',by rw [hbody,hkey]⟩
      · -- the revoke has destroyed the bytes
        obtain ⟨row₀,hins,hlater⟩ := h.shares row hrow
        have hsame : row.body = row₀.body := by
          rcases hlater.body with hb | hb
          · exact hb
          · rw [hb] at hkey
            cases hkey
        have hne : (row.revoked (w.shared.clock + m.elapsed)).body ≠ row₀.body := by
          intro hb
          rw [← hsame] at hb
          rw [← hb] at hkey
          cases hkey
        have hins' : Inserted (⟨i,job,r,(exec m w.shared r).2⟩ :: w.log) row₀ := hins.cons
        exact absurd (reported_emptied h hr hrevoked hins' hlater.id.symm hne (by rw [← hsame,hkey]))
          hthere
      · have hdeleted := destroyed_of_readsAll hi hok hr hfate hrow hkey
          (by rw [Table.get?_of_mem hmem]; rfl)
        exact absurd (h.stays_gone hr (h.bucket object hmem) (h.gone object.key hdeleted)) hthere
    · by_cases hins : ∃ row, Said (⟨i,job,r,(exec m w.shared r).2⟩ :: w.log) j (.insertShare row)
          (.ok ())
      · obtain ⟨row,hrow⟩ := hins
        rcases said_exec hrow with ⟨rfl,rfl,hanswer⟩ | hbefore
        · left
          rcases exec_insertShare m w.shared row with ⟨_,hno⟩ | ⟨he,_⟩
          · exact absurd hanswer hno
          · refine ⟨row,by rw [he]; exact Table.mem_rows_put_iff.mpr (.inl rfl),?_⟩
            exact (hnew.insertedBody hrow).only object.key blob _ (hput.cons _)
        · exact absurd rfl (hnever row _ hbefore)
      · exact .inr ⟨j,blob,hput.cons _,fun row x hx he => hins ⟨row,he ▸ hx⟩⟩
  rcases bucket_exec m w.shared r object hobject with ⟨rfl,_⟩ | hmem
  · rcases exec_putObject m w.shared object.key object.blob with ⟨he,_⟩ | ⟨_,_,hanswer⟩
    · exact hold (he ▸ hobject)
    · have hok' : (exec m w.shared (.putObject object.key object.blob)).2 = .ok () := by
        simp only [readsAll,hi,hfolder,Bool.or_eq_true,decide_eq_true_eq,reduceCtorEq,false_or] at hok
        exact hanswer.resolve_right hok
      refine .inr ⟨i,object.blob,by rw [← hok']; exact said_self,?_⟩
      intro row x hx _
      exact hr.2.2 _ (hx.old (by simp)) trivial
  · exact hold hmem

end

theorem reported_after (as : List (Act Job Moment)) :
    Reported (system.after fresh as).shared (system.after fresh as).log := by
  have hall : Along system.act (fun _ _ => True) fresh as := along_true system.act fresh as
  apply behaviour.invariant_after (fun _ _ => True) (fun _ _ _ => trivial) Reported _
    (behaviour.follows_init emptyStore) (fun _ _ _ => trivial) reported_empty hall
  intro w i job m r next _ _ _ _ hr h
  exact reported_step h hr.asks

theorem accounted_after {as : List (Act Job Moment)}
    (h : Along system.act (fun w a => readsAll w a) fresh as) :
    Accounted (system.after fresh as).shared (system.after fresh as).log := by
  refine (behaviour.invariant_after (fun _ _ => True) (fun _ _ _ => trivial)
    (fun s log => Reported s log ∧ Accounted s log) ?_ (behaviour.follows_init emptyStore)
    (fun _ _ _ => trivial) ⟨reported_empty,?_⟩ h).2
  · rintro w i job m r next _ hok hi _ hr ⟨hreported,haccounted⟩
    exact ⟨reported_step hreported hr.asks,accounted_step hreported haccounted
      (World.asks?_eq_some.mpr ⟨job,next,hi⟩) hok hr.asks⟩
  · intro object hobject
    cases hobject

theorem settled_of_finished {as : List (Act Job Moment)}
    (hfinished : (system.after fresh as).finished = true) {j : ℕ} {key : Key} {blob : String}
    {x : Except Thrown Unit} (hput : Said (system.after fresh as).log j (.putObject key blob) x) :
    Settled (transcript (system.after fresh as).log j) := by
  have hfollows := follows_run as
  obtain ⟨job,hlog⟩ := mem_transcript.mp hput
  have hlt := hfollows.below _ hlog
  have ht := List.getElem?_eq_getElem hlt
  have hjob : (system.after fresh as).threads[j].job.Writes := by
    obtain ⟨newer,older,_,hmay⟩ := (behaviour.allowed_after emptyStore as ht).of_mem hput
    exact hmay.writes trivial
  have hend := hfollows.threads j _ ht
  have hended := List.all_eq_true.mp hfinished _ (List.getElem_mem hlt)
  generalize (system.after fresh as).threads[j] = t at hjob hend hended
  obtain ⟨job',code⟩ := t
  cases code with
  | ask r next => cases hended
  | done a =>
    cases job' with
    | save bucket user body => exact hend
    | share bucket user recordingId body => exact hend
    | _ => exact hjob.elim
  | fail e =>
    cases job' with
    | save bucket user body => exact hend
    | share bucket user recordingId body => exact hend
    | _ => exact hjob.elim

/-- No row and no object holds an envelope of the recording or of a share made from it. -/
structure Store.Cleared (s : Store) (k : ℕ) : Prop where
  recordings : ∀ row ∈ s.recordings.rows, row.id ≠ k
  shares : ∀ row ∈ s.shares.rows, row.recordingId ≠ k
  objects : ∀ object ∈ s.bucket.rows, object.key.folder = .recordings → object.key.id ≠ k
  copies : ∀ object ∈ s.bucket.rows, object.key.folder = .shares →
    s.minted[object.key.id]? ≠ some (some k)

structure Store.ShareCleared (s : Store) (k : ℕ) : Prop where
  rows : ∀ row ∈ s.shares.rows, row.id = k → row.body = .empty
  copies : ∀ object ∈ s.bucket.rows, object.key.folder = .shares → object.key.id ≠ k

/-- What was reported deleted when all is finished is cleared, and so is what was reported revoked. -/
structure LeavesNothing (w : Server) : Prop where
  deleted : w.finished = true → ∀ i bucket user k,
    (w.threads[i]?).map (·.job) = some (.remove bucket user k) → w.result? i = some (.ok .ok) →
      w.shared.Cleared k
  revoked : ∀ i bucket user recordingId k row,
    (w.threads[i]?).map (·.job) = some (.revoke bucket user recordingId (some k)) →
      w.result? i = some (.ok (.revoked row)) → w.shared.ShareCleared k

section

variable {s : Store} {log : Log} {i k : ℕ} {userId : String}

private theorem objects_cleared (h : Reported s log) {ids : List ℕ}
    (hx : Said log i (.deleteRecording k userId) (.ok ids)) (hids : ids ≠ []) :
    ∀ object ∈ s.bucket.rows, object.key.folder = .recordings → object.key.id ≠ k := by
  intro object hobject hfolder hid
  obtain ⟨_,row,⟨j,x,hins⟩,hrowid⟩ := h.deleted i k userId ids hx hids
  obtain ⟨j',blob,y,hput⟩ := h.bucket object hobject
  -- the thread that put the object has inserted the row
  have hnamed : row.body.storageKey = some object.key := by
    obtain ⟨source,hmint,_⟩ := h.putId hput
    have hmint' := h.heardRecording hins
    rw [hrowid,← hid] at hmint'
    obtain rfl := h.idsOnce j' j source none object.key.id hmint hmint'
    exact (h.savedBody hins).only object.key blob y hput
  obtain ⟨older,⟨body,bodies,hread,_,hdestroyed⟩,hgrows⟩ := h.asked hx
  obtain ⟨row',hsaved,hid',hbody⟩ := h.readRecording i k userId body (hgrows _ _ hread)
  obtain rfl := h.sameRecording hsaved ⟨j,x,hins⟩ (hid'.trans hrowid.symm)
  have hdeleted := hdestroyed body List.mem_cons_self object.key (by rw [← hbody,hnamed])
  have hgone := h.gone object.key ⟨i,.inr (hgrows _ _ hdeleted)⟩
  rw [Table.get?_of_mem hobject] at hgone
  cases hgone

private theorem shares_cleared (h : Reported s log) {ids : List ℕ}
    (hx : Said log i (.deleteRecording k userId) (.ok ids)) (hids : ids ≠ []) :
    ∀ row ∈ s.shares.rows, row.recordingId ≠ k := by
  intro row hrow he
  have hparent := h.parents row hrow
  rw [he,(h.deleted i k userId ids hx hids).1] at hparent
  cases hparent

private theorem recordingId_of_minted (h : Reported s log) {row : Share} {key : Key}
    (hrow : row ∈ s.shares.rows) (hkey : row.body.storageKey = some key)
    (hminted : s.minted[key.id]? = some (some k)) : row.recordingId = k := by
  obtain ⟨row₀,hins,hlater⟩ := h.shares row hrow
  have hkey₀ : row₀.body.storageKey = some key := by
    rcases hlater.body with hb | hb
    · rw [← hb,hkey]
    · rw [hb] at hkey
      cases hkey
  obtain ⟨he,_⟩ := h.insertedKey hins hkey₀
  obtain ⟨j,x,hj⟩ := hins
  have hid := h.ids j _ row₀.id (h.heardShare hj).1
  rw [he] at hminted
  rw [hlater.recordingId]
  exact Option.some.inj (Option.some.inj (hid.symm.trans hminted))

end

private theorem copies_cleared {as : List (Act Job Moment)}
    (hok : Along system.act (fun w a => readsAll w a) fresh as)
    (hfinished : (system.after fresh as).finished = true) {i k : ℕ} {userId : String} {ids : List ℕ}
    (hx : Said (system.after fresh as).log i (.deleteRecording k userId) (.ok ids))
    (hids : ids ≠ []) :
    ∀ object ∈ (system.after fresh as).shared.bucket.rows, object.key.folder = .shares →
      (system.after fresh as).shared.minted[object.key.id]? ≠ some (some k) := by
  intro object hobject hfolder hminted
  have h := reported_after as
  rcases accounted_after hok object hobject hfolder with ⟨row,hrow,hkey⟩ | ⟨j,blob,hput,hnever⟩
  · exact shares_cleared h hx hids row hrow (recordingId_of_minted h hrow hkey hminted)
  · rcases settled_of_finished hfinished hput object.key blob hput with
      (⟨row,hins,hkey⟩ | ⟨row,hins,_⟩) | ⟨x,hdiscard⟩
    · have he := ((h.savedBody hins).put object.key hkey).1
      rw [he] at hfolder
      cases hfolder
    · exact hnever row _ hins rfl
    · have hgone := h.gone object.key ⟨j,.inl ⟨x,hdiscard⟩⟩
      rw [Table.get?_of_mem hobject] at hgone
      cases hgone

private theorem share_cleared (as : List (Act Job Moment)) {i recordingId k : ℕ} {userId : String}
    {rows : List Summary}
    (hx : Said (system.after fresh as).log i (.revokeShare k recordingId userId) (.ok rows))
    (hrows : rows ≠ []) : (system.after fresh as).shared.ShareCleared k := by
  have h := reported_after as
  obtain ⟨⟨row₀,⟨j,x,hins⟩,hid,hgone⟩,hempty⟩ := h.revoked i k recordingId userId rows hx hrows
  refine ⟨hempty,?_⟩
  intro object hobject hfolder hobjectid
  obtain ⟨j',blob,y,hput⟩ := h.bucket object hobject
  obtain ⟨source,hmint,_⟩ := h.putId hput
  have hmint' := (h.heardShare hins).1
  rw [hid,← hobjectid] at hmint'
  obtain rfl := h.idsOnce j' j source _ object.key.id hmint hmint'
  have hnone := hgone object.key ((h.insertedBody hins).only object.key blob y hput)
  rw [Table.get?_of_mem hobject] at hnone
  cases hnone

/-- In every run in which the deletion of a row takes along no share that it had not read, nothing
is left of what was reported deleted or revoked. -/
theorem deleted_leaves_nothing (as : List (Act Job Moment))
    (h : Along system.act (fun w a => readsAll w a) fresh as) :
    LeavesNothing (system.after fresh as) := by
  have hfollows := follows_run as
  constructor
  · intro hfinished i bucket user k hjob hresult
    obtain ⟨t,ht,hpost⟩ := behaviour.post_of_follows hfollows hresult
    have hsame : t.job = .remove bucket user k := by
      rw [ht] at hjob
      exact Option.some.inj hjob
    rw [hsame] at hpost
    obtain ⟨userId,ids,_,hids,hx⟩ := hpost rfl
    have hreported := reported_after as
    refine ⟨?_,shares_cleared hreported hx hids,objects_cleared hreported hx hids,
      copies_cleared h hfinished hx hids⟩
    exact Table.get?_eq_none_iff.mp (hreported.deleted i k userId ids hx hids).1
  · intro i bucket user recordingId k row hjob hresult
    obtain ⟨t,ht,hpost⟩ := behaviour.post_of_follows hfollows hresult
    have hsame : t.job = .revoke bucket user recordingId (some k) := by
      rw [ht] at hjob
      exact Option.some.inj hjob
    rw [hsame] at hpost
    obtain ⟨userId,k',rows,_,hk,hrows,hx⟩ := hpost row rfl
    obtain rfl := Option.some.inj hk
    exact share_cleared as hx hrows

/-- A recording is saved in the bucket, shared and deleted, one after the other. -/
def deletion : List (Act Job Moment) :=
  .start (.save true (some "owner") (.fields ⟨some "blob",some 1000,some 0,.missing,none⟩)) ::
    calmly 0 7 ++
  .start (.share true (some "owner") 0 (.fields ⟨some "copy",some 60000,.missing⟩)) :: calmly 1 10 ++
  .start (.remove true (some "owner") 0) :: calmly 2 5

theorem deletion_leaves_nothing :
    (system.after fresh deletion).finished = true ∧
      (system.after fresh deletion).result? 2 = some (.ok .ok) ∧
      LeavesNothing (system.after fresh deletion) :=
  ⟨by decide +kernel,rfl,deleted_leaves_nothing deletion (by decide +kernel)⟩

/-- The share is written and inserted after the deletion has read the shares. -/
def shareDuringDeletion : List (Act Job Moment) :=
  .start (.save true (some "owner") (.fields ⟨some "blob",some 1000,some 0,.missing,none⟩)) ::
    calmly 0 7 ++
  .start (.share true (some "owner") 0 (.fields ⟨some "copy",some 60000,.missing⟩)) :: calmly 1 8 ++
  .start (.remove true (some "owner") 0) :: calmly 2 2 ++ calmly 1 2 ++ calmly 2 2

/-- The deletion answers ok, and the copy stays in the bucket with no row that names it. -/
theorem share_outlives_deletion : ¬ LeavesNothing (system.after fresh shareDuringDeletion) := by
  intro h
  have hcleared := h.deleted (by decide +kernel) 2 true (some "owner") 0 rfl rfl
  exact hcleared.copies ⟨shareKey "owner" 1,"copy",0⟩ (by decide +kernel) rfl (by decide +kernel)

end WeirdVault.Shares
