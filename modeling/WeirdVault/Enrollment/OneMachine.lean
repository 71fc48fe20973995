import Mathlib.Tactic.Common
import WeirdVault.Enrollment.Route
import WeirdVault.Framework.Calls

/-! # One machine for each enrollment token -/

namespace WeirdVault.Enrollment

open WeirdVault.Framework Program

variable {D : Deployment}

private theorem adjustTokens_eq_self {t : Tables} {f : Token → Token} {hid : ∀ e, (f e).id = e.id}
    {hhash : ∀ e, (f e).tokenHash = e.tokenHash}
    {href : ∀ e ∈ t.tokens.rows, ∀ id, (f e).agentId = some id → ∃ a ∈ t.agents.rows, a.id = id}
    (h : ∀ e ∈ t.tokens.rows, f e = e) : t.adjustTokens f hid hhash href = t := by
  have hrows : t.tokens.rows.map f = t.tokens.rows := by
    rw [List.map_congr_left h,List.map_id']
  simp only [Tables.adjustTokens,Table.adjust,hrows]

theorem tokens_insertAgent {t t' : Tables} {a : Agent} (h : t.insertAgent a = .ok t') :
    t'.tokens = t.tokens := by
  unfold Tables.insertAgent at h
  split at h
  · rw [← Except.ok.inj h]
  · cases h

theorem mem_insertAgent {t t' : Tables} {a x : Agent} (h : t.insertAgent a = .ok t')
    (hx : x ∈ t'.agents.rows) : x = a ∨ x ∈ t.agents.rows := by
  unfold Tables.insertAgent at h
  split at h
  · rw [← Except.ok.inj h] at hx
    exact Table.mem_rows_put hx
  · cases h

theorem agents_link {t t' : Tables} {agentId id : JsString} (h : t.link agentId id = .ok t') :
    t'.agents = t.agents := by
  unfold Tables.link at h
  split at h
  · rw [← Except.ok.inj h]
    rfl
  · cases h

theorem mem_link {t t' : Tables} {agentId id : JsString} {x : Token}
    (h : t.link agentId id = .ok t') (hx : x ∈ t'.tokens.rows) :
    ∃ e ∈ t.tokens.rows, x = if e.id = id then { e with agentId := some agentId } else e := by
  unfold Tables.link at h
  split at h
  · rw [← Except.ok.inj h] at hx
    obtain ⟨e,he,hxe⟩ := List.mem_map.mp hx
    exact ⟨e,he,hxe.symm⟩
  · cases h

/-- What a committed transaction has done: one claimable token is used and refers to the one new
agent. -/
structure Enrolls (D : Deployment) (t : Enrolling) (db db' : Tables) (e : Token) : Prop where
  mem : e ∈ db.tokens.rows
  claimable : e.claimable (hashEnrollmentToken D t.token) t.now = true
  agents : ∀ a ∈ db'.agents.rows, a.id = t.agentId ∨ a ∈ db.agents.rows
  tokens : ∀ x ∈ db'.tokens.rows,
    x = { e with usedAt := some t.now, agentId := some t.agentId } ∨
      x ∈ db.tokens.rows ∧ x.tokenHash ≠ e.tokenHash

private theorem hash_inj {db : Tables} {x e : Token} (hx : x ∈ db.tokens.rows)
    (he : e ∈ db.tokens.rows) (h : x.tokenHash = e.tokenHash) : x = e :=
  List.inj_on_of_nodup_map db.hashes hx he h

private theorem id_inj {db : Tables} {x e : Token} (hx : x ∈ db.tokens.rows)
    (he : e ∈ db.tokens.rows) (h : x.id = e.id) : x = e :=
  List.inj_on_of_nodup_map db.tokens.nodup hx he h

theorem claimable_iff {e : Token} {hash : JsString} {now : Nat} : e.claimable hash now = true ↔
    e.tokenHash = hash ∧ e.usedAt = none ∧ now < e.expiresAt := by
  simp [Token.claimable,and_assoc]

private theorem enrolls_of {t : Enrolling} {db db₁ db₂ : Tables} {e : Token} {a : Agent}
    (he : e ∈ db.tokens.rows) (hclaim : e.claimable (hashEnrollmentToken D t.token) t.now = true)
    (ha : a.id = t.agentId)
    (hinsert : (db.claim (hashEnrollmentToken D t.token) t.now).1.insertAgent a = .ok db₁)
    (hlink : db₁.link t.agentId e.id = .ok db₂) : Enrolls D t db db₂ e where
  mem := he
  claimable := hclaim
  agents := by
    intro x hx
    rw [agents_link hlink] at hx
    rcases mem_insertAgent hinsert hx with rfl | hx
    · exact .inl ha
    · exact .inr hx
  tokens := by
    intro x hx
    obtain ⟨y,hy,hxy⟩ := mem_link hlink hx
    rw [tokens_insertAgent hinsert] at hy
    obtain ⟨z,hz,rfl⟩ := List.mem_map.mp hy
    by_cases hze : z = e
    · left
      rw [hxy,hze]
      simp [hclaim]
    · right
      have hhash : z.tokenHash ≠ e.tokenHash := fun h => hze (hash_inj hz he h)
      have hid : z.id ≠ e.id := fun h => hze (id_inj hz he h)
      have hnot : ¬ z.claimable (hashEnrollmentToken D t.token) t.now = true := by
        intro h
        exact hhash ((claimable_iff.mp h).1.trans (claimable_iff.mp hclaim).1.symm)
      rw [if_neg hnot,if_neg hid] at hxy
      rw [hxy]
      exact ⟨hz,hhash⟩

private theorem of_bind {α β : Type} {x : Except Thrown α} {f : α → Except Thrown β} {b : β}
    (h : x >>= f = .ok b) : ∃ a, x = .ok a ∧ f a = .ok b := by
  cases x with
  | error e => cases h
  | ok a => exact ⟨a,rfl,h⟩

/-- The transaction fails, or it finds no token and changes nothing, or it enrolls one machine. -/
theorem transaction_cases (D : Deployment) (m : Moment) (t : Enrolling) (db : Tables) :
    (∃ e, transaction D m t db = .error e) ∨
      transaction D m t db = .ok (db,.refused 401 "enrollment refused") ∨
      ∃ db' e, transaction D m t db = .ok (db',.ok e.userId) ∧ Enrolls D t db db' e := by
  rcases hresult : transaction D m t db with err | ⟨db',outcome⟩
  · exact .inl ⟨err,rfl⟩
  right
  obtain ⟨-,-,hclaim⟩ := of_bind hresult
  rcases hrows : db.tokens.rows.filter (·.claimable (hashEnrollmentToken D t.token) t.now) with
    _ | ⟨e,rest⟩
  · left
    have hclaimed : (db.claim (hashEnrollmentToken D t.token) t.now).2 = [] := by
      simp only [Tables.claim,hrows,List.map_nil]
    have hself : (db.claim (hashEnrollmentToken D t.token) t.now).1 = db := by
      unfold Tables.claim
      rw [adjustTokens_eq_self]
      intro e he
      exact if_neg (List.filter_eq_nil_iff.mp hrows e he)
    simp only [hclaimed] at hclaim
    obtain ⟨-,-,hcommit⟩ := of_bind hclaim
    rw [← hcommit,hself]
    rfl
  · right
    have hclaimed : (db.claim (hashEnrollmentToken D t.token) t.now).2 =
        (e.userId,e.id) :: rest.map (fun x => (x.userId,x.id)) := by
      simp only [Tables.claim,hrows,List.map_cons]
    simp only [hclaimed] at hclaim
    obtain ⟨-,-,hrest⟩ := of_bind hclaim
    obtain ⟨db₁,hinsert,hrest⟩ := of_bind hrest
    obtain ⟨-,-,hrest⟩ := of_bind hrest
    obtain ⟨db₂,hlink,hrest⟩ := of_bind hrest
    obtain ⟨-,-,hcommit⟩ := of_bind hrest
    have he : e ∈ db.tokens.rows.filter (·.claimable (hashEnrollmentToken D t.token) t.now) := by
      rw [hrows]
      exact List.mem_cons_self
    refine ⟨db₂,e,?_,?_⟩
    · rw [← hcommit]
      rfl
    · apply enrolls_of (List.mem_filter.mp he).1 (List.mem_filter.mp he).2 _ hinsert hlink
      rfl

/-- Every token was handed out once, was spent where a row was created for it, and refers to that
row. -/
structure Kept (s : Db) : Prop where
  minted : ∀ e ∈ s.tables.tokens.rows, ⟨e.tokenHash,e.expiresAt⟩ ∈ s.minted
  mintedOnce : (s.minted.map Minted.hash).Nodup
  known : ∀ c ∈ s.created, c.hash ∈ s.minted.map Minted.hash
  once : (s.created.map Created.hash).Nodup
  used : ∀ e ∈ s.tables.tokens.rows, e.usedAt.isSome →
    ∃ id, e.agentId = some id ∧ ⟨e.tokenHash,id⟩ ∈ s.created
  unused : ∀ e ∈ s.tables.tokens.rows, e.usedAt = none → e.tokenHash ∉ s.created.map Created.hash
  agents : ∀ a ∈ s.tables.agents.rows, ∃ c ∈ s.created, c.agentId = a.id

theorem Kept.fewer {s : Db} (h : Kept s) {t : Tables}
    (htokens : ∀ e ∈ t.tokens.rows, e ∈ s.tables.tokens.rows)
    (hagents : ∀ a ∈ t.agents.rows, ∃ b ∈ s.tables.agents.rows, b.id = a.id) :
    Kept { s with tables := t } where
  minted e he := h.minted e (htokens e he)
  mintedOnce := h.mintedOnce
  known := h.known
  once := h.once
  used e he := h.used e (htokens e he)
  unused e he := h.unused e (htokens e he)
  agents := by
    intro a ha
    obtain ⟨b,hb,hid⟩ := hagents a ha
    rw [← hid]
    exact h.agents b hb

theorem Kept.enrolls {s : Db} (h : Kept s) {t : Enrolling} {tables : Tables} {e : Token}
    (he : Enrolls D t s.tables tables e) :
    Kept { s with
      tables := tables, created := ⟨hashEnrollmentToken D t.token,t.agentId⟩ :: s.created } := by
  obtain ⟨hhash,hunused,-⟩ := claimable_iff.mp he.claimable
  have hfresh : hashEnrollmentToken D t.token ∉ s.created.map Created.hash := by
    rw [← hhash]
    exact h.unused e he.mem hunused
  refine ⟨?_,h.mintedOnce,?_,?_,?_,?_,?_⟩
  · intro x hx
    rcases he.tokens x hx with rfl | ⟨hx,-⟩
    · exact h.minted e he.mem
    · exact h.minted x hx
  · intro c hc
    rcases List.mem_cons.mp hc with rfl | hc
    · rw [← hhash]
      exact List.mem_map_of_mem (h.minted e he.mem)
    · exact h.known c hc
  · exact List.nodup_cons.mpr ⟨hfresh,h.once⟩
  · intro x hx hused
    rcases he.tokens x hx with rfl | ⟨hx,-⟩
    · refine ⟨t.agentId,rfl,?_⟩
      rw [← hhash]
      exact List.mem_cons_self
    · obtain ⟨id,hid,hc⟩ := h.used x hx hused
      exact ⟨id,hid,List.mem_cons_of_mem _ hc⟩
  · intro x hx hnone hmem
    rcases he.tokens x hx with rfl | ⟨hx,hne⟩
    · cases hnone
    · rcases List.mem_cons.mp hmem with heq | hmem
      · exact hne (heq.trans hhash.symm)
      · exact h.unused x hx hnone hmem
  · intro a ha
    rcases he.agents a ha with hid | ha
    · exact ⟨_,List.mem_cons_self,hid.symm⟩
    · obtain ⟨c,hc,hid⟩ := h.agents a ha
      exact ⟨c,List.mem_cons_of_mem _ hc,hid⟩

private theorem mem_insertToken {t : Tables} {e x : Token} (hnone : e.agentId = none)
    (hx : x ∈ (t.insertToken e hnone).tokens.rows) : x = e ∨ x ∈ t.tokens.rows := by
  unfold Tables.insertToken at hx
  split at hx
  · exact Table.mem_rows_put hx
  · exact .inr hx

private theorem agents_insertToken (t : Tables) (e : Token) (hnone : e.agentId = none) :
    (t.insertToken e hnone).agents = t.agents := by
  unfold Tables.insertToken
  split
  · rfl
  · rfl

theorem Kept.mints {s : Db} (h : Kept s) {e : Token} (hnone : e.agentId = none)
    (hused : e.usedAt = none) (hnew : e.tokenHash ∉ s.minted.map Minted.hash) :
    Kept { s with
      tables := s.tables.insertToken e hnone, minted := ⟨e.tokenHash,e.expiresAt⟩ :: s.minted } := by
  refine ⟨?_,List.nodup_cons.mpr ⟨hnew,h.mintedOnce⟩,?_,h.once,?_,?_,?_⟩
  · intro x hx
    rcases mem_insertToken hnone hx with rfl | hx
    · exact List.mem_cons_self
    · exact List.mem_cons_of_mem _ (h.minted x hx)
  · intro c hc
    exact List.mem_cons_of_mem _ (h.known c hc)
  · intro x hx hsome
    rcases mem_insertToken hnone hx with rfl | hx
    · rw [hused] at hsome
      cases hsome
    · exact h.used x hx hsome
  · intro x hx hx'
    rcases mem_insertToken hnone hx with rfl | hx
    · intro hmem
      obtain ⟨c,hc,hhash⟩ := List.mem_map.mp hmem
      exact hnew (hhash ▸ h.known c hc)
    · exact h.unused x hx hx'
  · intro a ha
    apply h.agents a
    have hagents := agents_insertToken s.tables e hnone
    rw [hagents] at ha
    exact ha

private theorem Kept.adjusts {s : Db} (h : Kept s) {f : Agent → Agent} {hid : ∀ a, (f a).id = a.id}
    {hkey : ∀ a, (f a).publicKey = a.publicKey} :
    Kept { s with tables := s.tables.adjustAgents f hid hkey } := by
  apply h.fewer
  · exact fun _ he => he
  · intro a ha
    obtain ⟨b,hb,rfl⟩ := List.mem_map.mp ha
    exact ⟨b,hb,(hid b).symm⟩

private theorem Kept.deletes {s : Db} (h : Kept s) (stays : Agent → Bool) (kept : Token → Bool) :
    Kept { s with tables := s.tables.delete stays kept } := by
  apply h.fewer
  · intro e he
    exact (List.mem_filter.mp he).1
  · intro a ha
    exact ⟨a,(List.mem_filter.mp ha).1,rfl⟩

theorem kept_execute (m : Moment) {s : Db} (h : Kept s) (r : Request) :
    Kept (execute D m s r).1 := by
  cases r with
  | enforce => exact h
  | clock => exact h
  | randomUuid => exact h
  | transaction t =>
    rcases transaction_cases D m t s.tables with ⟨e,hresult⟩ | hresult | ⟨db',e,hresult,he⟩
    · simpa only [execute,hresult] using h
    · simpa only [execute,hresult] using h
    · simpa only [execute,hresult] using h.enrolls he
  | mint id userId token expiresAt =>
    simp only [execute]
    split
    · exact h
    · next hany =>
      have hnew : hashEnrollmentToken D token ∉ s.minted.map Minted.hash := by
        simpa using hany
      exact h.mints rfl rfl hnew
  | rename id userId label => exact h.adjusts
  | revoke id userId => exact h.adjusts
  | forget id userId => exact h.deletes _ _
  | deleteUser userId => exact h.deletes _ _

theorem kept_exec (m : Moment) {s : Db} (h : Kept s) (r : Request) : Kept (exec D m s r).1 := by
  apply kept_execute
  exact ⟨h.minted,h.mintedOnce,h.known,h.once,h.used,h.unused,h.agents⟩

theorem kept_empty : Kept emptyDb := by
  constructor
  all_goals simp [emptyDb,noRows,Table.empty]

theorem kept_after (D : Deployment) (as : List (Act Job Moment)) :
    Kept ((system D).after fresh as).shared := by
  apply invariant_runActs (fun w : Enrollments => Kept w.shared) _ kept_empty
    (along_true (system D).act fresh as)
  intro w a h _
  cases a with
  | start job => exact h
  | step i m =>
    rcases (system D).act_step_cases w i m with hact | ⟨job,r,next,-,hact⟩
    · rwa [hact]
    · rw [hact]
      exact kept_exec m h r

abbrev Heard := Transcript Request.Ans

def Job.tokenHash (D : Deployment) : Job → Option JsString
  | .post _ (some body) => (looksLikeEnrollmentToken (field body "token")).map (hashEnrollmentToken D)
  | _ => none

def Job.isPost : Job → Bool
  | .post .. => true
  | _ => false

def commits (D : Deployment) : (r : Request) → r.Ans → Option Created
  | .transaction t,.ok (.ok _) => some ⟨hashEnrollmentToken D t.token,t.agentId⟩
  | _,_ => none

def asks (D : Deployment) (job : Job) (k : Heard) : Request → Prop
  | .transaction t => job.tokenHash D = some (hashEnrollmentToken D t.token) ∧ k.Has .clock t.now
  | .enforce => True
  | .clock => True
  | .randomUuid => True
  | _ => job.isPost = false

def Reply.agentId : Reply → Option JsString
  | .enrolled agentId .. => some agentId
  | _ => none

def enrolled? : Except Thrown Reply → Option JsString
  | .ok reply => reply.agentId
  | .error _ => none

def answers (D : Deployment) (job : Job) (k : Heard) (o : Except Thrown Reply) : Prop :=
  ∀ id, enrolled? o = some id ↔
    ∃ hash, job.tokenHash D = some hash ∧ ∃ a ∈ k, commits D a.1 a.2 = some ⟨hash,id⟩

private theorem answers_nothing {job : Job} {k : Heard} {o : Except Thrown Reply}
    (ho : enrolled? o = none) (hk : ∀ a ∈ k, commits D a.1 a.2 = none) : answers D job k o := by
  intro id
  rw [ho]
  constructor
  · intro h
    cases h
  · rintro ⟨hash,-,a,ha,hcommit⟩
    rw [hk a ha] at hcommit
    cases hcommit

private theorem asks_enroll {origin relayUrl releaseUrl token publicKey : JsString} {body : Json}
    {k : Heard} (htoken : looksLikeEnrollmentToken (field body "token") = some token)
    (hk : ∀ a ∈ k, commits D a.1 a.2 = none) :
    Asks (asks D (.post origin (some body))) (answers D (.post origin (some body))) k
      (enroll D relayUrl releaseUrl token publicKey body) := by
  have hhash : (Job.post origin (some body)).tokenHash D = some (hashEnrollmentToken D token) := by
    simp only [Job.tokenHash,htoken,Option.map_some]
  have hnone : ∀ (t : Enrolling) (now : Nat) (uuid : JsString) (x : (Request.transaction t).Ans),
      commits D (.transaction t) x = none →
      ∀ a ∈ (⟨.transaction t,x⟩ :: ⟨.randomUuid,uuid⟩ :: ⟨.clock,now⟩ :: k : Heard),
        commits D a.1 a.2 = none := by
    intro t now uuid x hx a ha
    simp only [List.mem_cons] at ha
    rcases ha with rfl | rfl | rfl | ha
    · exact hx
    · rfl
    · rfl
    · exact hk a ha
  unfold enroll
  refine ⟨trivial,?_⟩
  rintro now k' rfl
  refine ⟨trivial,?_⟩
  rintro agentId k' rfl
  refine ⟨⟨hhash,(Transcript.has_self k .clock now).cons _⟩,?_⟩
  rintro outcome k' rfl
  rcases outcome with e | ⟨enrolledFor⟩ | ⟨status,error⟩
  · exact answers_nothing rfl (hnone _ now agentId _ rfl)
  · intro id
    simp only [enrolled?,Reply.agentId,Option.some.injEq]
    constructor
    · rintro rfl
      exact ⟨_,hhash,_,List.mem_cons_self,rfl⟩
    · rintro ⟨hash,-,a,ha,hcommit⟩
      simp only [List.mem_cons] at ha
      rcases ha with rfl | rfl | rfl | ha
      · exact congrArg Created.agentId (Option.some.inj hcommit)
      · cases hcommit
      · cases hcommit
      · rw [hk a ha] at hcommit
        cases hcommit
  · exact answers_nothing rfl (hnone _ now agentId _ rfl)

private theorem asks_post (D : Deployment) (origin : JsString) (body : Option Json) :
    Asks (asks D (.post origin body)) (answers D (.post origin body)) [] (post D origin body) := by
  unfold post
  refine ⟨trivial,?_⟩
  rintro limited k' rfl
  have hk : ∀ a ∈ ([⟨.enforce,limited⟩] : Heard), commits D a.1 a.2 = none := by
    intro a ha
    rw [List.mem_singleton.mp ha]
    rfl
  cases limited with
  | true => exact answers_nothing rfl hk
  | false =>
    dsimp only
    split
    · exact answers_nothing rfl hk
    · exact answers_nothing rfl hk
    · exact answers_nothing rfl hk
    · split
      · exact answers_nothing rfl hk
      · exact answers_nothing rfl hk
      · next htoken _ => exact asks_enroll htoken hk

private theorem asks_statement {job : Job} {r : Request} (hr : asks D job [] r)
    (hcommit : ∀ x, commits D r x = none) :
    Asks (asks D job) (answers D job) [] (statement r) := by
  refine ⟨hr,?_⟩
  rintro x k' rfl
  apply answers_nothing rfl
  intro a ha
  rw [List.mem_singleton.mp ha]
  exact hcommit x

def behaviour (D : Deployment) : Behaviour (system D) where
  may := asks D
  post := answers D
  code job := by
    cases job with
    | post origin body => exact asks_post D origin body
    | _ => exact asks_statement rfl (fun _ => rfl)

private theorem commits_exec {m : Moment} {s : Db} {r : Request} {c : Created}
    (hc : commits D r (exec D m s r).2 = some c) : ∃ t e, r = .transaction t ∧
      c = ⟨hashEnrollmentToken D t.token,t.agentId⟩ ∧ Enrolls D t s.tables (exec D m s r).1.tables e ∧
      (exec D m s r).1.created = c :: s.created := by
  cases r with
  | transaction t =>
    rcases transaction_cases D m t s.tables with ⟨e,hresult⟩ | hresult | ⟨db',e,hresult,he⟩
    · simp only [exec,execute,hresult] at hc
      cases hc
    · simp only [exec,execute,hresult] at hc
      cases hc
    · simp only [exec,execute,hresult] at hc ⊢
      obtain rfl := Option.some.inj hc
      exact ⟨t,e,rfl,rfl,he,rfl⟩
  | _ => cases hc

private theorem tables_exec {m : Moment} {s : Db} {r : Request} {origin : JsString}
    {body : Option Json} {k : Heard} (hr : asks D (.post origin body) k r)
    (hc : commits D r (exec D m s r).2 = none) : (exec D m s r).1.tables = s.tables := by
  cases r with
  | enforce => rfl
  | clock => rfl
  | randomUuid => rfl
  | transaction t =>
    rcases transaction_cases D m t s.tables with ⟨e,hresult⟩ | hresult | ⟨db',e,hresult,he⟩
    · simp only [exec,execute,hresult]
    · simp only [exec,execute,hresult]
    · simp only [exec,execute,hresult] at hc
      cases hc
  | _ => cases hr

private theorem created_exec {m : Moment} {s : Db} {r : Request} {c : Created}
    (hc : c ∈ s.created) : c ∈ (exec D m s r).1.created := by
  cases r with
  | transaction t =>
    rcases transaction_cases D m t s.tables with ⟨e,hresult⟩ | hresult | ⟨db',e,hresult,he⟩
    · simpa only [exec,execute,hresult] using hc
    · simpa only [exec,execute,hresult] using hc
    · simpa only [exec,execute,hresult] using List.mem_cons_of_mem _ hc
  | mint id userId token expiresAt =>
    simp only [exec,execute]
    split
    · exact hc
    · exact hc
  | _ => exact hc

private theorem minted_exec {m : Moment} {s : Db} {r : Request} {x : Minted}
    (hx : x ∈ s.minted) : x ∈ (exec D m s r).1.minted := by
  cases r with
  | transaction t =>
    rcases transaction_cases D m t s.tables with ⟨e,hresult⟩ | hresult | ⟨db',e,hresult,he⟩
    · simpa only [exec,execute,hresult] using hx
    · simpa only [exec,execute,hresult] using hx
    · simpa only [exec,execute,hresult] using hx
  | mint id userId token expiresAt =>
    simp only [exec,execute]
    split
    · exact hx
    · exact List.mem_cons_of_mem _ hx
  | _ => exact hx

private theorem now_exec (m : Moment) (s : Db) (r : Request) :
    (exec D m s r).1.now = s.now+m.elapsed := by
  cases r with
  | transaction t =>
    rcases transaction_cases D m t s.tables with ⟨e,hresult⟩ | hresult | ⟨db',e,hresult,he⟩
    · simp only [exec,execute,hresult]
    · simp only [exec,execute,hresult]
    · simp only [exec,execute,hresult]
  | mint id userId token expiresAt =>
    simp only [exec,execute]
    split
    · rfl
    · rfl
  | _ => rfl

abbrev Log := List (Entry Request.Ans Job)

/-- The answers that say so are those for which a row was created, one for each. -/
structure Logged (D : Deployment) (s : Db) (log : Log) : Prop where
  kept : Kept s
  created : ∀ x ∈ log, ∀ c, commits D x.request x.answer = some c → c ∈ s.created
  once : ∀ x ∈ log, ∀ y ∈ log, ∀ c d, commits D x.request x.answer = some c →
    commits D y.request y.answer = some d → c.hash = d.hash → x.thread = y.thread

private theorem Logged.grows {s : Db} {log : Log} (h : Logged D s log) (m : Moment) (i : Nat)
    (job : Job) (r : Request) :
    Logged D (exec D m s r).1 (⟨i,job,r,(exec D m s r).2⟩ :: log) := by
  have hnew : ∀ c, commits D r (exec D m s r).2 = some c → ∀ y ∈ log, ∀ d,
      commits D y.request y.answer = some d → c.hash ≠ d.hash := by
    intro c hc y hy d hd hhash
    obtain ⟨t,e,-,rfl,he,-⟩ := commits_exec hc
    obtain ⟨hclaim,hunused,-⟩ := claimable_iff.mp he.claimable
    apply h.kept.unused e he.mem hunused
    rw [hclaim]
    exact List.mem_map.mpr ⟨d,h.created y hy d hd,hhash.symm⟩
  refine ⟨kept_exec m h.kept r,?_,?_⟩
  · intro x hx c hc
    rcases List.mem_cons.mp hx with rfl | hx
    · obtain ⟨t,e,-,-,-,hcreated⟩ := commits_exec hc
      rw [hcreated]
      exact List.mem_cons_self
    · exact created_exec (h.created x hx c hc)
  · intro x hx y hy c d hc hd hhash
    rcases List.mem_cons.mp hx with rfl | hx <;> rcases List.mem_cons.mp hy with rfl | hy
    · rfl
    · exact absurd hhash (hnew c hc y hy d hd)
    · exact absurd hhash.symm (hnew d hd x hx c hc)
    · exact h.once x hx y hy c d hc hd hhash

theorem logged_after (D : Deployment) (as : List (Act Job Moment)) :
    Logged D ((system D).after fresh as).shared ((system D).after fresh as).log := by
  have hstart : Logged D emptyDb [] := ⟨kept_empty,by simp,by simp⟩
  apply invariant_runActs (fun w : Enrollments => Logged D w.shared w.log) _ hstart
    (along_true (system D).act fresh as)
  intro w a h _
  cases a with
  | start job => exact h
  | step i m =>
    rcases (system D).act_step_cases w i m with hact | ⟨job,r,next,-,hact⟩
    · rwa [hact]
    · rw [hact]
      exact h.grows m i job r

/-- From the expiry of the token on no request that starts then gets a row for it. -/
structure Expired (D : Deployment) (x : Minted) (n : Nat) (w : Enrollments) : Prop where
  minted : x ∈ w.shared.minted
  now : x.expiresAt ≤ w.shared.now
  clock : ∀ e ∈ w.log, n ≤ e.thread → ∀ now, (⟨e.request,e.answer⟩ : (r : Request) × r.Ans) =
    ⟨.clock,now⟩ → x.expiresAt ≤ now
  never : ∀ e ∈ w.log, n ≤ e.thread → ∀ c, commits D e.request e.answer = some c → c.hash ≠ x.hash

private theorem expired_answered {x : Minted} {n : Nat} {w : Enrollments} {i : Nat} {job : Job}
    {m : Moment} {r : Request} {next : r.Ans → Handler Reply} (h : Expired D x n w)
    (hkept : Kept w.shared) (hasks : asks D job (transcript w.log i) r) :
    Expired D x n ((system D).answered w i job m r next) where
  minted := minted_exec h.minted
  now := by
    have hnow := now_exec (D := D) m w.shared r
    have hlater := h.now
    change x.expiresAt ≤ (exec D m w.shared r).1.now
    omega
  clock := by
    intro e he hn now heq
    rcases List.mem_cons.mp he with rfl | he
    · cases heq
      exact h.now.trans (Nat.le_add_right _ _)
    · exact h.clock e he hn now heq
  never := by
    intro e he hn c hc
    rcases List.mem_cons.mp he with rfl | he
    · obtain ⟨t,e,rfl,rfl,henrolls,-⟩ := commits_exec hc
      obtain ⟨hhash,-,hlt⟩ := claimable_iff.mp henrolls.claimable
      obtain ⟨job',hclock⟩ := mem_transcript.mp hasks.2
      have hnow := h.clock _ hclock hn t.now rfl
      intro hsame
      have hminted := hkept.minted e henrolls.mem
      have heq : (⟨e.tokenHash,e.expiresAt⟩ : Minted) = x :=
        List.inj_on_of_nodup_map hkept.mintedOnce hminted h.minted (hhash.trans hsame)
      have hexpiry : e.expiresAt = x.expiresAt := congrArg Minted.expiresAt heq
      omega
    · exact h.never e he hn c hc

private theorem expired_after {x : Minted} {before after : List (Act Job Moment)}
    (hminted : x ∈ ((system D).after fresh before).shared.minted)
    (hnow : x.expiresAt ≤ ((system D).after fresh before).shared.now) :
    Expired D x ((system D).after fresh before).threads.length
      ((system D).after fresh (before ++ after)) := by
  have hfollows := (behaviour D).follows_after ((behaviour D).follows_init emptyDb) before
  have hbelow : ∀ e ∈ ((system D).after fresh before).log,
      ¬ ((system D).after fresh before).threads.length ≤ e.thread :=
    fun e he => Nat.not_le.mpr (hfollows.below e he)
  have hstart : Expired D x ((system D).after fresh before).threads.length
      ((system D).after fresh before) :=
    ⟨hminted,hnow,fun e he hn => absurd hn (hbelow e he),fun e he hn => absurd hn (hbelow e he)⟩
  rw [System.after_append]
  refine (invariant_runActs (fun w => (behaviour D).Follows w ∧ Kept w.shared ∧
    Expired D x ((system D).after fresh before).threads.length w) ?_
    ⟨hfollows,kept_after D before,hstart⟩ (along_true (system D).act _ after)).2.2
  rintro w a ⟨hw,hkept,h⟩ -
  refine ⟨(behaviour D).follows_act hw a,?_⟩
  cases a with
  | start job => exact ⟨hkept,h.minted,h.now,h.clock,h.never⟩
  | step i m =>
    rcases (system D).act_step_cases w i m with hact | ⟨job,r,next,hi,hact⟩
    · rw [hact]
      exact ⟨hkept,h⟩
    · rw [hact]
      exact ⟨kept_exec m hkept r,
        expired_answered h hkept ((behaviour D).may_of_follows hw hi)⟩

/-- The agent with which the request of thread `i` has been answered. -/
def Enrolled (w : Enrollments) (i : Nat) (agentId : JsString) : Prop :=
  ∃ o, w.result? i = some o ∧ enrolled? o = some agentId

private theorem created_of_enrolled {as : List (Act Job Moment)} {i : Nat} {agentId : JsString}
    (h : Enrolled ((system D).after fresh as) i agentId) :
    ∃ t hash job r x, ((system D).after fresh as).threads[i]? = some t ∧
      t.job.tokenHash D = some hash ∧
      (⟨i,job,r,x⟩ : Entry Request.Ans Job) ∈ ((system D).after fresh as).log ∧
      commits D r x = some ⟨hash,agentId⟩ := by
  obtain ⟨o,ho,hid⟩ := h
  have hfollows := (behaviour D).follows_after ((behaviour D).follows_init emptyDb) as
  obtain ⟨t,ht,hpost⟩ := (behaviour D).post_of_follows hfollows ho
  obtain ⟨hash,hhash,a,ha,hcommit⟩ := (hpost agentId).mp hid
  obtain ⟨job,hmem⟩ := mem_transcript.mp ha
  exact ⟨t,hash,job,a.1,a.2,ht,hhash,hmem,hcommit⟩

private theorem enrolled_of_commits {before after : List (Act Job Moment)} {i : Nat} {job : Job}
    {m : Moment} {r : Request} {next : r.Ans → Handler Reply} {c : Created}
    {o : Except Thrown Reply}
    (hi : ((system D).after fresh before).threads[i]? = some ⟨job,.ask r next⟩)
    (hasks : asks D job (transcript ((system D).after fresh before).log i) r)
    (hc : commits D r (exec D m ((system D).after fresh before).shared r).2 = some c)
    (ho : ((system D).after fresh (before ++ .step i m :: after)).result? i = some o) :
    enrolled? o = some c.agentId := by
  have hmem : (⟨i,job,r,(exec D m ((system D).after fresh before).shared r).2⟩ :
      Entry Request.Ans Job) ∈ ((system D).after fresh (before ++ .step i m :: after)).log := by
    rw [System.after_append]
    apply (system D).log_stays ((system D).act _ (.step i m)) after
    rw [(system D).act_step hi]
    exact List.mem_cons_self
  have hfollows := (behaviour D).follows_after ((behaviour D).follows_init emptyDb)
    (before ++ .step i m :: after)
  obtain ⟨u,hu,hjob⟩ := (system D).log_jobs emptyDb _ hmem
  obtain ⟨u',hu',hanswers⟩ := (behaviour D).post_of_follows hfollows ho
  obtain rfl : u = u' := Option.some.inj (hu.symm.trans hu')
  obtain ⟨t,e,rfl,rfl,-,-⟩ := commits_exec hc
  apply (hanswers t.agentId).mpr
  refine ⟨_,by rw [hjob]; exact hasks.1,⟨.transaction t,_⟩,?_,hc⟩
  exact mem_transcript.mpr ⟨_,hmem⟩

structure OneMachine (D : Deployment) (as : List (Act Job Moment)) : Prop where
  /-- Each token yields at most one agent row over its life, and there are no other rows. -/
  once : (((system D).after fresh as).shared.created.map Created.hash).Nodup
  rows : ∀ a ∈ ((system D).after fresh as).shared.tables.agents.rows,
    ∃ c ∈ ((system D).after fresh as).shared.created, c.agentId = a.id
  /-- A token is marked used if and only if an agent row linked to it was created. -/
  used : ∀ e ∈ ((system D).after fresh as).shared.tables.tokens.rows, e.usedAt.isSome ↔
    ∃ a ∈ ((system D).after fresh as).shared.tables.agents.rows, e.agentId = some a.id ∧
      ⟨e.tokenHash,a.id⟩ ∈ ((system D).after fresh as).shared.created
  /-- A request that is answered with an agent has had its row created, and no two requests are
  that present one token. -/
  answered : ∀ i agentId, Enrolled ((system D).after fresh as) i agentId →
    ∃ t hash, ((system D).after fresh as).threads[i]? = some t ∧ t.job.tokenHash D = some hash ∧
      ⟨hash,agentId⟩ ∈ ((system D).after fresh as).shared.created ∧
      ∀ j agentId' t', Enrolled ((system D).after fresh as) j agentId' →
        ((system D).after fresh as).threads[j]? = some t' → t'.job.tokenHash D = some hash → j = i
  /-- No request succeeds that is sent when its token has expired. -/
  expired : ∀ before after, as = before ++ after →
    ∀ x ∈ ((system D).after fresh before).shared.minted,
      x.expiresAt ≤ ((system D).after fresh before).shared.now →
      ∀ i t agentId, ((system D).after fresh before).threads.length ≤ i →
        ((system D).after fresh as).threads[i]? = some t → t.job.tokenHash D = some x.hash →
        ¬ Enrolled ((system D).after fresh as) i agentId
  /-- Nothing that a refused or failed request does changes a row. -/
  untouched : ∀ before i m after, as = before ++ .step i m :: after →
    ∀ t, ((system D).after fresh before).threads[i]? = some t → t.job.isPost = true →
      ∀ o, ((system D).after fresh as).result? i = some o → enrolled? o = none →
        ((system D).act ((system D).after fresh before) (.step i m)).shared.tables =
          ((system D).after fresh before).shared.tables

theorem token_enrolls_one_machine (D : Deployment) (as : List (Act Job Moment)) :
    OneMachine D as := by
  have hlogged := logged_after D as
  refine ⟨hlogged.kept.once,hlogged.kept.agents,?_,?_,?_,?_⟩
  · intro e he
    constructor
    · intro hused
      obtain ⟨id,hid,hcreated⟩ := hlogged.kept.used e he hused
      obtain ⟨a,ha,rfl⟩ := ((system D).after fresh as).shared.tables.references e he id hid
      exact ⟨a,ha,hid,hcreated⟩
    · rintro ⟨a,-,-,hcreated⟩
      rw [Option.isSome_iff_ne_none]
      intro hnone
      exact hlogged.kept.unused e he hnone (List.mem_map.mpr ⟨_,hcreated,rfl⟩)
  · intro i agentId hi
    obtain ⟨t,hash,job,r,x,ht,hhash,hmem,hcommit⟩ := created_of_enrolled hi
    refine ⟨t,hash,ht,hhash,hlogged.created _ hmem _ hcommit,?_⟩
    intro j agentId' t' hj ht' hhash'
    obtain ⟨u,hash',job',r',x',hu,hhash'',hmem',hcommit'⟩ := created_of_enrolled hj
    obtain rfl := Option.some.inj (ht'.symm.trans hu)
    obtain rfl := Option.some.inj (hhash'.symm.trans hhash'')
    exact hlogged.once _ hmem' _ hmem _ _ hcommit' hcommit rfl
  · rintro before after rfl x hx hnow i t agentId hi ht hhash henrolled
    obtain ⟨u,hash,job,r,y,hu,hhash',hmem,hcommit⟩ := created_of_enrolled henrolled
    obtain rfl := Option.some.inj (ht.symm.trans hu)
    obtain rfl := Option.some.inj (hhash.symm.trans hhash')
    exact (expired_after hx hnow).never _ hmem hi _ hcommit rfl
  · rintro before i m after rfl t ht hpost o ho hnone
    rcases (system D).act_step_cases ((system D).after fresh before) i m with
      hact | ⟨job,r,next,hi,hact⟩
    · rw [hact]
    obtain rfl : t = ⟨job,.ask r next⟩ := Option.some.inj (ht.symm.trans hi)
    have hbefore := (behaviour D).follows_after ((behaviour D).follows_init emptyDb) before
    have hasks := (behaviour D).may_of_follows hbefore hi
    rw [hact]
    cases job with
    | post origin body =>
      apply tables_exec hasks
      by_contra hcommit
      obtain ⟨c,hc⟩ := Option.ne_none_iff_exists'.mp hcommit
      rw [enrolled_of_commits hi hasks hc ho] at hnone
      cases hnone
    | _ => cases hpost

private def demoDeployment : Deployment where
  sha256 bytes := bytes
  utf8 s := s.map (·.toUInt8)
  fromBase64 _ := List.replicate 32 0
  hex bytes := bytes.map (·.toUInt16)
  base64 bytes := bytes.map (·.toUInt16)
  base64url bytes := bytes.map (·.toUInt16)
  agentRelayUrl := some (utf16 "wss://relay/agent")
  agentReleaseBaseUrl := none
  agentCommandSecret := none
  commandPublicKey := none

private def demoToken : JsString := utf16 "ENROLL_0123456789abcdefghijklmnop"

private def demoMachine (digit : UInt16) : Job :=
  .post (utf16 "https://app") (some (.object [(utf16 "token",.string demoToken),
    (utf16 "publicKey",.string (List.replicate 43 digit ++ [0x3D]))]))

private def demoMoment (uuid : String) : Moment := ⟨1,false,utf16 uuid,fun _ => false⟩

private def demoRace : List (Act Job Moment) :=
  [.start (.mint (utf16 "t") (utf16 "u") demoToken 600),.start (demoMachine 0x41),
    .start (demoMachine 0x42)] ++
  [0,1,2,1,2,1,2,1,2].map (fun i => .step i (demoMoment (if i = 1 then "a" else "b")))

example : (((system demoDeployment).after fresh demoRace).result? 1).map enrolled? =
      some (some (utf16 "a")) ∧
    ((system demoDeployment).after fresh demoRace).result? 2 =
      some (.ok (.refused 401 "enrollment refused")) := by decide +kernel

end WeirdVault.Enrollment
