import WeirdVault.Devices.Route
import WeirdVault.Framework.Calls
import Mathlib.Tactic.Common

/-! # The sessions of a revoked device -/

namespace WeirdVault.Devices

open WeirdVault.Framework Program

abbrev Heard := Transcript Request.Ans

abbrev Log := List (Entry Request.Ans Job)

/-- The thread has read the device of the user and it was not revoked, or it has made it. -/
def FoundDevice (k : Heard) (userId deviceId : String) : Prop :=
  (∃ signingKey row, row.id = deviceId ∧ row.revokedAt = none ∧
    (⟨.selectByKey userId signingKey,.ok (some row)⟩ : (r : Request) × r.Ans) ∈ k) ∨
  ∃ d, d.id = deviceId ∧ d.userId = userId ∧
    (⟨.insertDevice d,.ok ()⟩ : (r : Request) × r.Ans) ∈ k

/-- What a thread has heard when it binds a session or ends the sessions of a device. -/
def asks (k : Heard) : Request → Prop
  | .bindSession sessionId deviceId => ∃ cookie userId,
    (⟨.getSession cookie,.ok (some ⟨sessionId,userId⟩)⟩ : (r : Request) × r.Ans) ∈ k ∧
      FoundDevice k userId deviceId
  | .deleteSessions userId deviceId => ∃ ids, ids ≠ [] ∧
    (⟨.revoke deviceId userId,.ok ids⟩ : (r : Request) × r.Ans) ∈ k
  | _ => True

def answers (job : Job) (k : Heard) (o : Except Thrown Reply) : Prop :=
  ∀ cookie id ipPrefix, job = .delete cookie (some id) ipPrefix → o = .ok .ok →
    ∃ userId, (⟨.deleteSessions userId id,.ok ()⟩ : (r : Request) × r.Ans) ∈ k

private theorem asks_query {α : Type} {post : Heard → Except Thrown α → Prop} {k : Heard}
    (r : Request) (f : r.Val → Handler α) (hr : asks k r)
    (hok : ∀ x, Asks (fun l => asks l) post (⟨r,.ok x⟩ :: k) (f x))
    (herr : ∀ e l, post l (.error e)) : Asks (fun l => asks l) post k ((query r).bind f) := by
  simp only [query,request_bind,ask_bind,asks_ask]
  refine ⟨hr,?_⟩
  intro x
  cases x with
  | ok x => exact hok x
  | error e => exact herr e _

private theorem asks_bindSession {α : Type} {post : Heard → Except Thrown α → Prop} {k : Heard}
    (sessionId : Nat) (deviceId : String) (f : Unit → Handler α)
    (hr : asks k (.bindSession sessionId deviceId))
    (hok : ∀ x, Asks (fun l => asks l) post (⟨.bindSession sessionId deviceId,x⟩ :: k) (f ())) :
    Asks (fun l => asks l) post k ((bindSessionToDevice sessionId deviceId).bind f) := by
  simp only [bindSessionToDevice,query,request_bind,handle,ask_bind,asks_ask]
  refine ⟨hr,?_⟩
  intro x
  cases x with
  | ok x => exact hok _
  | error e => exact hok _

private abbrev anyEnd {α : Type} : Heard → Except Thrown α → Prop := fun _ _ => True

private theorem asks_register (session : SignedIn) (id label : String) (platform : Option String)
    (signingKey : String) (ipPrefix : Option String) (randomUuid : String) {k : Heard}
    {cookie : Option Nat}
    (hk : (⟨.getSession cookie,.ok (some session)⟩ : (r : Request) × r.Ans) ∈ k) :
    Asks (fun l => asks l) anyEnd k
      (register session id label platform signingKey ipPrefix randomUuid) := by
  unfold register
  refine asks_query _ _ trivial ?_ (fun _ _ => trivial)
  intro existing
  cases existing with
  | some row =>
    simp only
    split
    · trivial
    · next hlive =>
      have hnone : row.revokedAt = none := by simpa using hlive
      refine asks_query _ _ trivial ?_ (fun _ _ => trivial)
      intro _
      apply asks_bindSession
      · exact ⟨cookie,session.userId,by simp [hk],.inl ⟨signingKey,row,rfl,hnone,by simp⟩⟩
      · exact fun _ => trivial
  | none =>
    refine asks_query _ _ trivial ?_ (fun _ _ => trivial)
    intro taken
    refine asks_query _ _ trivial ?_ (fun _ _ => trivial)
    intro _
    refine asks_query _ _ trivial ?_ (fun _ _ => trivial)
    intro _
    apply asks_bindSession
    · refine ⟨cookie,session.userId,by simp [hk],.inr ⟨⟨if taken then randomUuid else id,session.userId,
        label,platform,signingKey,ipPrefix⟩,rfl,rfl,by simp⟩⟩
    · exact fun _ => trivial

private theorem asks_post (cookie : Option Nat) (body : Body) (ipPrefix : Option String)
    (randomUuid : String) :
    Asks (fun l => asks l) anyEnd [] (post cookie body ipPrefix randomUuid) := by
  unfold post
  refine asks_query _ _ trivial ?_ (fun _ _ => trivial)
  intro session
  split
  · trivial
  · trivial
  · trivial
  · split
    · trivial
    · exact asks_register _ _ _ _ _ _ _ List.mem_cons_self
  · trivial

private theorem asks_delete (cookie : Option Nat) (id ipPrefix : Option String) :
    Asks (fun l => asks l) (answers (.delete cookie id ipPrefix)) []
      (delete cookie id ipPrefix) := by
  have herr : ∀ e l, answers (.delete cookie id ipPrefix) l (.error e) := by
    intro e l _ _ _ _ ho
    cases ho
  have hrefused : ∀ l status error,
      answers (.delete cookie id ipPrefix) l (.ok (.refused status error)) := by
    intro l status error _ _ _ _ ho
    cases ho
  unfold delete
  refine asks_query _ _ trivial ?_ herr
  intro session
  split
  · exact hrefused _ _ _
  · exact hrefused _ _ _
  · exact hrefused _ _ _
  · refine asks_query _ _ trivial ?_ herr
    intro ids
    split
    · exact hrefused _ _ _
    · next hids =>
      have hne : ids ≠ [] := fun he => hids (by simp [he])
      refine asks_query _ _ ⟨ids,hne,List.mem_cons_self⟩ ?_ herr
      intro _
      refine asks_query _ _ trivial ?_ herr
      intro _ _ _ _ hjob _
      cases hjob
      exact ⟨_,List.mem_cons_of_mem _ List.mem_cons_self⟩

def behaviour : Behaviour system where
  may _ := asks
  post := answers
  code job := by
    cases job with
    | post cookie body ipPrefix randomUuid =>
      apply (asks_post cookie body ipPrefix randomUuid).mono
      intro _ _ _ _ _ _ hjob
      cases hjob
    | delete cookie id ipPrefix => exact asks_delete cookie id ipPrefix
    | signIn userId =>
      refine asks_query _ _ trivial ?_ ?_
      · intro _ _ _ _ hjob
        cases hjob
      · intro _ _ _ _ _ hjob
        cases hjob
    | signOut id =>
      refine asks_query _ _ trivial ?_ ?_
      · intro _ _ _ _ hjob
        cases hjob
      · intro _ _ _ _ _ hjob
        cases hjob

def Owns (s : Db) (deviceId userId : String) : Prop :=
  ∃ row, s.devices.get? deviceId = some row ∧ row.userId = userId

theorem Owns.unique {s : Db} {deviceId u v : String} (hu : Owns s deviceId u)
    (hv : Owns s deviceId v) : u = v := by
  obtain ⟨row,hrow,rfl⟩ := hu
  obtain ⟨row',hrow',rfl⟩ := hv
  rw [hrow] at hrow'
  rw [Option.some.inj hrow']

def Ended (s : Db) (deviceId : String) : Prop :=
  ∃ row, s.devices.get? deviceId = some row ∧ row.revokedAt.isSome

/-- No device row is dropped, changes hands or is brought back, and no session id is given twice. -/
structure Grows (s s' : Db) : Prop where
  devices : ∀ deviceId userId, Owns s deviceId userId → Owns s' deviceId userId
  ended : ∀ deviceId, Ended s deviceId → Ended s' deviceId
  issued : ∀ (id : Nat) (userId : String),
    s.issued[id]? = some userId → s'.issued[id]? = some userId

theorem Grows.refl (s : Db) : Grows s s := ⟨fun _ _ h => h,fun _ h => h,fun _ _ h => h⟩

private theorem grows_put {s : Db} {row : Device}
    (hsame : ∀ old, s.devices.get? row.id = some old → old.userId = row.userId ∧
      (old.revokedAt.isSome → row.revokedAt.isSome)) :
    Grows s { s with devices := s.devices.put row } := by
  have hstill : ∀ deviceId old, s.devices.get? deviceId = some old → ∃ now,
      (s.devices.put row).get? deviceId = some now ∧ old.userId = now.userId ∧
        (old.revokedAt.isSome → now.revokedAt.isSome) := by
    intro deviceId old hold
    by_cases hid : row.id = deviceId
    · exact ⟨row,by simp [Table.get?_put,hid],hsame old (by rw [hid]; exact hold)⟩
    · exact ⟨old,(Table.get?_put_of_ne _ hid).trans hold,rfl,fun h => h⟩
  refine ⟨?_,?_,fun _ _ h => h⟩
  · intro deviceId userId h
    obtain ⟨old,hold,rfl⟩ := h
    obtain ⟨now,hnow,huser,_⟩ := hstill deviceId old hold
    exact ⟨now,hnow,huser.symm⟩
  · intro deviceId h
    obtain ⟨old,hold,hrevoked⟩ := h
    obtain ⟨now,hnow,_,hkeeps⟩ := hstill deviceId old hold
    exact ⟨now,hnow,hkeeps hrevoked⟩

theorem grows_execute (m : Moment) (s : Db) (r : Request) : Grows s (execute m s r).1 := by
  cases r with
  | updateSeen id ipPrefix =>
    have hstill : ∀ deviceId old, s.devices.get? deviceId = some old → ∃ now,
        (execute m s (.updateSeen id ipPrefix)).1.devices.get? deviceId = some now ∧
          now.userId = old.userId ∧ now.revokedAt = old.revokedAt := by
      intro deviceId old hold
      simp only [execute,Table.get?_update,hold]
      split
      · exact ⟨_,rfl,rfl,rfl⟩
      · exact ⟨_,rfl,rfl,rfl⟩
    refine ⟨?_,?_,fun _ _ h => h⟩
    · intro deviceId userId h
      obtain ⟨old,hold,rfl⟩ := h
      obtain ⟨now,hnow,huser,_⟩ := hstill deviceId old hold
      exact ⟨now,hnow,huser⟩
    · intro deviceId h
      obtain ⟨old,hold,hrevoked⟩ := h
      obtain ⟨now,hnow,_,hsame⟩ := hstill deviceId old hold
      exact ⟨now,hnow,hsame ▸ hrevoked⟩
  | insertDevice d =>
    simp only [execute]
    split
    · exact .refl s
    · next hfree =>
      apply grows_put
      intro old hold
      have hnone : s.devices.get? d.id = none := by
        simpa using (Bool.or_eq_false_iff.mp (Bool.eq_false_iff.mpr hfree)).1
      exact absurd (hold.symm.trans hnone) (by simp)
  | revoke id userId =>
    simp only [execute]
    split
    · next row hrow =>
      split
      · apply grows_put
        intro old hold
        have hkey := Table.key_of_get? hrow
        have hsame : s.devices.get? row.id = some row := by rw [hkey]; exact hrow
        rw [Option.some.inj (hsame.symm.trans hold)]
        exact ⟨rfl,fun _ => rfl⟩
      · exact .refl s
    · exact .refl s
  | createSession userId =>
    refine ⟨fun _ _ h => h,fun _ h => h,?_⟩
    intro id user h
    have hlt : id < s.issued.length := (List.getElem?_eq_some_iff.mp h).1
    simp only [execute]
    rw [List.getElem?_append_left hlt]
    exact h
  | _ => exact ⟨fun _ _ h => h,fun _ h => h,fun _ _ h => h⟩

theorem grows_exec (m : Moment) (s : Db) (r : Request) : Grows s (exec m s r).1 := by
  unfold exec
  split
  · exact grows_execute m s r
  · exact .refl s
  · exact grows_execute m s r

def Known (s : Db) : (r : Request) → r.Ans → Prop
  | .getSession _, .ok (some session) => s.issued[session.id]? = some session.userId
  | .selectByKey userId _, .ok (some row) => Owns s row.id userId
  | .insertDevice d, .ok _ => Owns s d.id d.userId
  | .revoke id userId, .ok (_ :: _) => Owns s id userId ∧ Ended s id
  | _, _ => True

theorem Known.grows {s s' : Db} {r : Request} {x : r.Ans} (h : Known s r x) (hs : Grows s s') :
    Known s' r x := by
  unfold Known at h ⊢
  split
  · exact hs.issued _ _ h
  · exact hs.devices _ _ h
  · exact hs.devices _ _ h
  · exact ⟨hs.devices _ _ h.1,hs.ended _ h.2⟩
  · trivial

theorem known_execute (m : Moment) (s : Db) (r : Request) :
    Known (execute m s r).1 r (execute m s r).2 := by
  cases r with
  | getSession cookie =>
    cases hanswer : s.signedIn m.cached cookie with
    | none =>
      simp only [execute,hanswer]
      trivial
    | some session =>
      simp only [execute,hanswer]
      unfold Db.signedIn at hanswer
      split at hanswer
      · cases hanswer
      · split at hanswer
        · next hissued =>
          split at hanswer
          · obtain rfl := Option.some.inj hanswer
            exact hissued
          · cases hanswer
        · cases hanswer
  | selectByKey userId signingKey =>
    simp only [execute]
    cases hfound : s.devices.rows.find? fun row => row.userId = userId ∧ row.signingKey = signingKey with
    | none => trivial
    | some row =>
      have huser := List.find?_some hfound
      simp only [decide_eq_true_eq] at huser
      exact ⟨row,Table.get?_of_mem (List.mem_of_find?_eq_some hfound),huser.1⟩
  | insertDevice d =>
    simp only [execute]
    split
    · trivial
    · exact ⟨_,Table.get?_put_self s.devices (Device.new d m.now),rfl⟩
  | revoke id userId =>
    simp only [execute]
    split
    · next row hrow =>
      split
      · next hlive =>
        have hkey := Table.key_of_get? hrow
        have hput : (s.devices.put { row with revokedAt := some m.now }).get? id =
            some { row with revokedAt := some m.now } := by simp [hkey]
        exact ⟨⟨_,hput,hlive.1⟩,⟨_,hput,rfl⟩⟩
      · trivial
    · trivial
  | _ => trivial

theorem known_exec (m : Moment) (s : Db) (r : Request) :
    Known (exec m s r).1 r (exec m s r).2 := by
  unfold exec
  split
  · exact known_execute m s r
  · unfold Known
    cases r <;> trivial
  · unfold Known
    cases r <;> trivial

inductive Comes (m : Moment) (s : Db) (x : Session) : Request → Prop
  | stays {r : Request} (h : x ∈ s.sessions.rows)
      (hstays : ∀ userId deviceId, r = .deleteSessions userId deviceId → m.fate ≠ .refused →
        ¬(x.userId = userId ∧ x.deviceId = some deviceId)) : Comes m s x r
  | bound {sessionId : Nat} {deviceId : String} {old : Session} (hfate : m.fate ≠ .refused)
      (hold : s.sessions.get? sessionId = some old)
      (hx : x = { old with deviceId := some deviceId }) :
      Comes m s x (.bindSession sessionId deviceId)
  | created {userId : String} (hfate : m.fate ≠ .refused)
      (hx : x = ⟨s.issued.length,userId,none⟩) : Comes m s x (.createSession userId)

private theorem comes_execute {m : Moment} {s : Db} {r : Request} {x : Session}
    (hfate : m.fate ≠ .refused) (h : x ∈ (execute m s r).1.sessions.rows) : Comes m s x r := by
  cases r with
  | insertDevice d =>
    simp only [execute] at h
    split at h
    · exact .stays h (by simp)
    · exact .stays h (by simp)
  | revoke id userId =>
    simp only [execute] at h
    split at h
    · split at h
      · exact .stays h (by simp)
      · exact .stays h (by simp)
    · exact .stays h (by simp)
  | bindSession sessionId deviceId =>
    have hget := Table.get?_of_mem h
    simp only [execute,Table.get?_update] at hget
    split at hget
    · next hid =>
      obtain ⟨old,hold,hx⟩ := Option.map_eq_some_iff.mp hget
      rw [hid] at hold
      exact .bound hfate hold hx.symm
    · exact .stays (Table.mem_of_get? hget) (by simp)
  | deleteSessions userId deviceId =>
    simp only [execute,Table.keep,List.mem_filter] at h
    refine .stays h.1 ?_
    intro u d hr _
    cases hr
    rintro ⟨hu,hd⟩
    have hpass := h.2
    simp [hu,hd] at hpass
  | createSession userId =>
    rcases Table.mem_rows_put h with rfl | hold
    · exact .created hfate rfl
    · exact .stays hold (by simp)
  | deleteSession id => exact .stays (Table.mem_rows_erase.mp h).1 (by simp)
  | _ => exact .stays h (by simp)

theorem comes_exec {m : Moment} {s : Db} {r : Request} {x : Session}
    (h : x ∈ (exec m s r).1.sessions.rows) : Comes m s x r := by
  unfold exec at h
  split at h
  · next hfate => exact comes_execute (by simp [hfate]) h
  · next hfate => exact .stays h (by simp [hfate])
  · next hfate => exact comes_execute (by simp [hfate]) h

def ends : Entry Request.Ans Job → Option String
  | ⟨_,_,.deleteSessions _ deviceId,.ok _⟩ => some deviceId
  | _ => none

def reads : Entry Request.Ans Job → Option String
  | ⟨_,_,.selectByKey _ _,.ok (some row)⟩ => some row.id
  | ⟨_,_,.insertDevice d,.ok _⟩ => some d.id
  | _ => none

/-- The sessions of the device were deleted after the thread had read the device. -/
def endedSinceRead (i : Nat) (deviceId : String) : Log → Bool
  | [] => false
  | e :: log => endedSinceRead i deviceId log ||
    (ends e = some deviceId && log.any fun f => f.thread = i && reads f = some deviceId)

/-- No revocation deletes the sessions of a device between the read of a `POST` and its bind. -/
def inTime (w : Accounts) : Act Job Moment → Bool
  | .step i m =>
    match w.threads[i]? with
    | some ⟨_,.ask (.bindSession sessionId deviceId) _⟩ =>
      m.fate = .refused || (w.shared.sessions.get? sessionId).isNone ||
        !endedSinceRead i deviceId w.log
    | _ => true
  | .start _ => true

structure Kept (s : Db) (log : Log) : Prop where
  known : ∀ e ∈ log, Known s e.request e.answer
  issued : ∀ x ∈ s.sessions.rows, s.issued[x.id]? = some x.userId
  bound : ∀ x ∈ s.sessions.rows, ∀ d, x.deviceId = some d → Owns s d x.userId
  revoked : ∀ e ∈ log, ∀ d, ends e = some d → Ended s d
  /-- Who has found the device alive found it before its sessions were deleted. -/
  found : ∀ i userId d, FoundDevice (transcript log i) userId d →
    ∀ e ∈ log, ends e = some d → endedSinceRead i d log
  ended : ∀ e ∈ log, ∀ d, ends e = some d → ∀ x ∈ s.sessions.rows, x.deviceId ≠ some d

private theorem ends_of_endedSinceRead {i : Nat} {d : String} {log : Log}
    (h : endedSinceRead i d log) : ∃ e ∈ log, ends e = some d := by
  induction log with
  | nil => cases h
  | cons e log ih =>
    simp only [endedSinceRead,Bool.or_eq_true,Bool.and_eq_true,decide_eq_true_eq] at h
    rcases h with hlog | ⟨hends,_⟩
    · obtain ⟨f,hf,hends⟩ := ih hlog
      exact ⟨f,List.mem_cons_of_mem e hf,hends⟩
    · exact ⟨e,List.mem_cons_self,hends⟩

private theorem reads_of_found {log : Log} {i : Nat} {userId d : String}
    (h : FoundDevice (transcript log i) userId d) :
    log.any fun f => f.thread = i && reads f = some d := by
  simp only [List.any_eq_true,Bool.and_eq_true,decide_eq_true_eq]
  rcases h with ⟨signingKey,row,hid,_,hread⟩ | ⟨device,hid,_,hmade⟩
  · obtain ⟨job,hlog⟩ := mem_transcript.mp hread
    exact ⟨_,hlog,rfl,congrArg some hid⟩
  · obtain ⟨job,hlog⟩ := mem_transcript.mp hmade
    exact ⟨_,hlog,rfl,congrArg some hid⟩

variable {s : Db} {log : Log} {i : Nat} {r : Request}

private theorem kept_heard (h : Kept s log) {x : r.Ans}
    (hx : (⟨r,x⟩ : (r : Request) × r.Ans) ∈ transcript log i) : Known s r x := by
  obtain ⟨job,hmem⟩ := mem_transcript.mp hx
  exact h.known _ hmem

private theorem bind_owns (h : Kept s log) {sessionId : Nat} {deviceId : String} {old : Session}
    (hr : asks (transcript log i) (.bindSession sessionId deviceId))
    (hold : s.sessions.get? sessionId = some old) : Owns s deviceId old.userId := by
  obtain ⟨cookie,userId,hsession,hfound⟩ := hr
  have hissued : s.issued[sessionId]? = some userId := kept_heard h hsession
  have hrow := h.issued old (Table.mem_of_get? hold)
  rw [Table.key_of_get? hold,hissued] at hrow
  obtain rfl := Option.some.inj hrow
  rcases hfound with ⟨signingKey,row,rfl,_,hselect⟩ | ⟨d,rfl,huser,hinsert⟩
  · exact kept_heard h hselect
  · exact huser ▸ kept_heard h hinsert

private theorem revoked_owns (h : Kept s log) {userId deviceId : String}
    (hr : asks (transcript log i) (.deleteSessions userId deviceId)) :
    Owns s deviceId userId ∧ Ended s deviceId := by
  obtain ⟨ids,hne,hrevoke⟩ := hr
  cases ids with
  | nil => exact absurd rfl hne
  | cons id ids => exact kept_heard h hrevoke

private theorem kept_rows (h : Kept s log) (hr : asks (transcript log i) r) (m : Moment)
    {x : Session} (hx : x ∈ (exec m s r).1.sessions.rows) :
    (exec m s r).1.issued[x.id]? = some x.userId ∧
      ∀ d, x.deviceId = some d → Owns (exec m s r).1 d x.userId := by
  have hgrows := grows_exec m s r
  cases comes_exec hx with
  | stays hrow _ =>
    have hissued := h.issued x hrow
    have hbound := h.bound x hrow
    exact ⟨hgrows.issued _ _ hissued,fun d hd => hgrows.devices _ _ (hbound d hd)⟩
  | bound _ hold he =>
    subst he
    have hissued := h.issued _ (Table.mem_of_get? hold)
    refine ⟨hgrows.issued _ _ hissued,?_⟩
    intro d hd
    obtain rfl := Option.some.inj hd
    have howns := bind_owns h hr hold
    exact hgrows.devices _ _ howns
  | created hfate he =>
    subst he
    refine ⟨?_,by simp⟩
    unfold exec
    split
    · simp [execute]
    · next hrefused => exact absurd hrefused hfate
    · simp [execute]

private theorem ends_deleted {m : Moment} {job : Job} {d : String}
    (h : ends ⟨i,job,r,(exec m s r).2⟩ = some d) :
    ∃ userId, r = .deleteSessions userId d ∧ m.fate ≠ .refused := by
  cases r with
  | deleteSessions userId deviceId =>
    cases hfate : m.fate with
    | answered =>
      simp only [exec,hfate,execute,ends,Option.some.injEq] at h
      exact ⟨userId,by rw [h],by simp⟩
    | refused => simp [exec,hfate,ends] at h
    | lost => simp [exec,hfate,ends] at h
  | _ => simp [ends] at h

private theorem alive_of_selected {m : Moment} {userId signingKey : String} {row : Device}
    (hanswer : (exec m s (.selectByKey userId signingKey)).2 = .ok (some row))
    (hlive : row.revokedAt = none) : ¬Ended s row.id := by
  have hfound : s.devices.rows.find? (fun x => x.userId = userId ∧ x.signingKey = signingKey) =
      some row := by
    unfold exec at hanswer
    split at hanswer
    · exact Except.ok.inj hanswer
    · cases hanswer
    · cases hanswer
  rintro ⟨old,hold,hrevoked⟩
  have hrow := Table.get?_of_mem (List.mem_of_find?_eq_some hfound)
  obtain rfl := Option.some.inj (hrow.symm.trans hold)
  simp [hlive] at hrevoked

private theorem new_of_inserted {m : Moment} {d : NewDevice}
    (hanswer : (exec m s (.insertDevice d)).2 = .ok ()) : ¬Ended s d.id := by
  rintro ⟨old,hold,_⟩
  have htaken : s.conflicts d := by simp [Db.conflicts,hold]
  unfold exec at hanswer
  split at hanswer
  · simp [execute,htaken] at hanswer
  · cases hanswer
  · cases hanswer

private theorem alive_of_found {m : Moment} {job : Job} {userId d : String}
    (hold : ¬FoundDevice (transcript log i) userId d)
    (h : FoundDevice (transcript (⟨i,job,r,(exec m s r).2⟩ :: log) i) userId d) : ¬Ended s d := by
  rw [transcript_cons_self] at h
  rcases h with ⟨signingKey,row,rfl,hlive,hread⟩ | ⟨device,rfl,huser,hmade⟩
  · rcases List.mem_cons.mp hread with hhead | hlog
    · obtain ⟨rfl,hanswer⟩ := Sigma.mk.inj_iff.mp hhead
      exact alive_of_selected (eq_of_heq hanswer).symm hlive
    · exact absurd (.inl ⟨signingKey,row,rfl,hlive,hlog⟩) hold
  · rcases List.mem_cons.mp hmade with hhead | hlog
    · obtain ⟨rfl,hanswer⟩ := Sigma.mk.inj_iff.mp hhead
      exact new_of_inserted (eq_of_heq hanswer).symm
    · exact absurd (.inr ⟨device,rfl,huser,hlog⟩) hold

private theorem kept_found (h : Kept s log) (hr : asks (transcript log i) r) {m : Moment} {job : Job}
    {j : Nat} {userId d : String}
    (hfound : FoundDevice (transcript (⟨i,job,r,(exec m s r).2⟩ :: log) j) userId d)
    {e : Entry Request.Ans Job} (he : e ∈ (⟨i,job,r,(exec m s r).2⟩ :: log : Log))
    (hends : ends e = some d) : endedSinceRead j d (⟨i,job,r,(exec m s r).2⟩ :: log) := by
  simp only [endedSinceRead,Bool.or_eq_true,Bool.and_eq_true,decide_eq_true_eq]
  by_cases hold : FoundDevice (transcript log j) userId d
  · rcases List.mem_cons.mp he with rfl | hlog
    · exact .inr ⟨hends,by simpa using reads_of_found hold⟩
    · exact .inl (h.found j userId d hold e hlog hends)
  · by_cases hij : i = j
    · subst hij
      have halive := alive_of_found hold hfound
      rcases List.mem_cons.mp he with rfl | hlog
      · obtain ⟨user,rfl,_⟩ := ends_deleted hends
        exact absurd (revoked_owns h hr).2 halive
      · exact absurd (h.revoked e hlog d hends) halive
    · rw [transcript_cons_of_ne log hij] at hfound
      exact absurd hfound hold

private theorem kept_ended (h : Kept s log) (hr : asks (transcript log i) r) (m : Moment) (job : Job)
    (hok : ∀ sessionId deviceId, r = .bindSession sessionId deviceId → m.fate ≠ .refused →
      (s.sessions.get? sessionId).isSome → ∀ e ∈ log, ends e ≠ some deviceId)
    {e : Entry Request.Ans Job} (he : e ∈ (⟨i,job,r,(exec m s r).2⟩ :: log : Log)) {d : String}
    (hends : ends e = some d) {x : Session} (hx : x ∈ (exec m s r).1.sessions.rows) :
    x.deviceId ≠ some d := by
  have hnew : e ∈ log ∨ ∃ userId, r = .deleteSessions userId d ∧ m.fate ≠ .refused := by
    rcases List.mem_cons.mp he with rfl | he
    · exact .inr (ends_deleted hends)
    · exact .inl he
  rcases comes_exec hx with ⟨hrow,hstays⟩ | ⟨hfate,hold,hfrom⟩ | ⟨_,hfrom⟩
  · rcases hnew with hlog | ⟨userId,hdelete,hfate⟩
    · exact h.ended e hlog d hends x hrow
    · intro hd
      subst hdelete
      have huser := (h.bound x hrow d hd).unique (revoked_owns h hr).1
      exact hstays userId d rfl hfate ⟨huser,hd⟩
  · rcases hnew with hlog | ⟨_,hdelete,_⟩
    · intro hd
      rw [hfrom] at hd
      obtain rfl := Option.some.inj hd
      exact hok _ _ rfl hfate (by simp [hold]) e hlog hends
    · cases hdelete
  · rw [hfrom]
    simp

private theorem kept_step {w : Accounts} {m : Moment} {job : Job} {next : r.Ans → Handler Reply}
    (h : Kept w.shared w.log) (hok : inTime w (.step i m))
    (hi : w.threads[i]? = some ⟨job,.ask r next⟩) (hr : asks (transcript w.log i) r) :
    Kept (system.answered w i job m r next).shared (system.answered w i job m r next).log := by
  have hbind : ∀ sessionId deviceId, r = .bindSession sessionId deviceId → m.fate ≠ .refused →
      (w.shared.sessions.get? sessionId).isSome → ∀ e ∈ w.log, ends e ≠ some deviceId := by
    rintro sessionId deviceId rfl hfate hsome e he hends
    simp only [inTime,hi,Bool.or_eq_true,decide_eq_true_eq,hfate,false_or,Bool.not_eq_true'] at hok
    obtain ⟨_,_,_,hfound⟩ := hr
    have hlate := h.found _ _ _ hfound e he hends
    rcases hok with hnone | hnever
    · simp [Option.isNone_iff_eq_none.mp hnone] at hsome
    · simp [hnever] at hlate
  constructor
  · intro e he
    rcases List.mem_cons.mp he with rfl | he
    · exact known_exec m w.shared r
    · exact (h.known e he).grows (grows_exec m w.shared r)
  · intro x hx
    exact (kept_rows h hr m hx).1
  · intro x hx
    exact (kept_rows h hr m hx).2
  · intro e he d hends
    rcases List.mem_cons.mp he with rfl | hlog
    · obtain ⟨userId,rfl,_⟩ := ends_deleted hends
      exact (grows_exec m w.shared _).ended d (revoked_owns h hr).2
    · exact (grows_exec m w.shared r).ended d (h.revoked e hlog d hends)
  · intro j userId d hfound e he hends
    exact kept_found h hr hfound he hends
  · intro e he d hends x hx
    exact kept_ended h hr m job hbind he hends hx

theorem kept_run {as : List (Act Job Moment)}
    (h : Along system.act (fun w a => inTime w a) fresh as) :
    Kept (system.after fresh as).shared (system.after fresh as).log := by
  apply behaviour.invariant_after (fun _ _ => True) (fun _ _ _ => trivial) Kept _
    (behaviour.follows_init emptyDb) _ _ h
  · intro w i job m r next _ hok hi _ hr hkept
    exact kept_step hkept hok hi hr
  · simp [World.Jobs,World.init]
  · constructor <;> simp [World.init,emptyDb,Table.empty]

def Revoked (w : Accounts) (i : Nat) (deviceId : String) : Prop :=
  w.result? i = some (.ok .ok) ∧ ∃ cookie ipPrefix,
    (w.threads[i]?).map (·.job) = some (.delete cookie (some deviceId) ipPrefix)

/-- From the answer of a revocation on no session is bound to the device, in every run in which no
`POST` binds a session to a device whose sessions were deleted since it read the device. -/
theorem revoked_sessions_end (before after : List (Act Job Moment))
    (h : Along system.act (fun w a => inTime w a) fresh (before ++ after)) {i : Nat}
    {deviceId : String} (hrevoked : Revoked (system.after fresh before) i deviceId) :
    ∀ x ∈ (system.after fresh (before ++ after)).shared.sessions.rows,
      x.deviceId ≠ some deviceId := by
  obtain ⟨hresult,cookie,ipPrefix,hjob⟩ := hrevoked
  have hfollows := behaviour.follows_after (behaviour.follows_init emptyDb) before
  obtain ⟨t,ht,hpost⟩ := behaviour.post_of_follows hfollows hresult
  have hsame : t.job = .delete cookie (some deviceId) ipPrefix := by
    have hmap := congrArg (Option.map (·.job)) ht
    exact Option.some.inj (hmap.symm.trans hjob)
  obtain ⟨userId,hheard⟩ := hpost cookie deviceId ipPrefix hsame rfl
  obtain ⟨job,hlog⟩ := mem_transcript.mp hheard
  have hlater := system.log_stays (system.after fresh before) after hlog
  rw [← System.after_append] at hlater
  exact (kept_run h).ended _ hlater deviceId rfl

def answeredAt (now : Nat) : Moment := ⟨now,false,.answered⟩

def signInAndPost (thread session now : Nat) : List (Act Job Moment) :=
  [.start (.signIn "ada"),.step thread (answeredAt now),
    .start (.post (some session)
      (.fields (some "laptop") (some "Laptop") none (some "key")) none "uuid")]

def revokedLaptop : List (Act Job Moment) :=
  signInAndPost 0 0 1 ++ List.replicate 6 (.step 1 (answeredAt 2)) ++
    [.start (.signIn "ada"),.step 2 (answeredAt 3),.start (.delete (some 1) (some "laptop") none)] ++
    List.replicate 4 (.step 3 (answeredAt 4))

theorem revoked_sessions_end_demo :
    Revoked (system.after fresh revokedLaptop) 3 "laptop" ∧
      ∀ x ∈ (system.after fresh (revokedLaptop ++ (signInAndPost 4 2 5 ++
          List.replicate 2 (.step 5 (answeredAt 6))))).shared.sessions.rows,
        x.deviceId ≠ some "laptop" := by
  have hrevoked : Revoked (system.after fresh revokedLaptop) 3 "laptop" :=
    ⟨by decide +kernel,some 1,none,by decide +kernel⟩
  exact ⟨hrevoked,revoked_sessions_end _ _ (by decide +kernel) hrevoked⟩

/-- The laptop signs in again; its registration has read the device when the revocation starts, and
binds the new session when it has answered. -/
def revokedDuringSignIn : List (Act Job Moment) :=
  signInAndPost 0 0 1 ++ List.replicate 6 (.step 1 (answeredAt 2)) ++
    signInAndPost 2 1 3 ++ List.replicate 3 (.step 3 (answeredAt 4)) ++
    [.start (.signIn "ada"),.step 4 (answeredAt 5),.start (.delete (some 2) (some "laptop") none)] ++
    List.replicate 4 (.step 5 (answeredAt 6)) ++ [.step 3 (answeredAt 7)]

/-- Every request has finished, and a session is bound to the device that was revoked. -/
theorem revoked_laptop_signed_in :
    Revoked (system.after fresh revokedDuringSignIn) 5 "laptop" ∧
      (system.after fresh revokedDuringSignIn).finished ∧
      ∃ x ∈ (system.after fresh revokedDuringSignIn).shared.sessions.rows,
        x.deviceId = some "laptop" :=
  ⟨⟨by decide +kernel,some 2,none,by decide +kernel⟩,by decide +kernel,
    ⟨1,"ada",some "laptop"⟩,by decide +kernel,rfl⟩

private theorem bind_binds {m : Moment} {s : Db} {sessionId : Nat} {deviceId : String}
    {old : Session} (hfate : m.fate ≠ .refused) (hold : s.sessions.get? sessionId = some old) :
    { old with deviceId := some deviceId } ∈
      (exec m s (.bindSession sessionId deviceId)).1.sessions.rows := by
  have hexecute : { old with deviceId := some deviceId } ∈
      (execute m s (.bindSession sessionId deviceId)).1.sessions.rows := by
    apply Table.mem_of_get? (k := sessionId)
    simp only [execute,Table.get?_update,if_true,hold,Option.map_some]
  unfold exec
  split
  · exact hexecute
  · next hrefused => exact absurd hrefused hfate
  · exact hexecute

/-- A late bind does bind: the condition says exactly when the sessions of a device stay ended. -/
theorem sessions_stay_ended_iff (as : List (Act Job Moment)) :
    (∀ before after, as = before ++ after → ∀ e ∈ (system.after fresh before).log, ∀ d,
      ends e = some d → ∀ x ∈ (system.after fresh before).shared.sessions.rows,
        x.deviceId ≠ some d) ↔
    Along system.act (fun w a => inTime w a) fresh as := by
  constructor
  · intro h
    apply along_of_at
    intro before a after has
    by_contra hlate
    cases a with
    | start job => exact hlate rfl
    | step i m =>
      simp only [inTime] at hlate
      split at hlate
      · next job sessionId deviceId next hi =>
        simp only [Bool.or_eq_true,decide_eq_true_eq,Bool.not_eq_true',not_or,
          Bool.not_eq_false,Option.isNone_iff_eq_none] at hlate
        obtain ⟨⟨hfate,hrow⟩,hread⟩ := hlate
        obtain ⟨e,he,hends⟩ := ends_of_endedSinceRead hread
        obtain ⟨old,hold⟩ := Option.ne_none_iff_exists'.mp hrow
        have hact : system.after fresh (before ++ [.step i m]) =
            system.answered (system.after fresh before) i job m _ next := by
          rw [System.after_append]
          exact system.act_step hi m
        apply h (before ++ [.step i m]) after (by simp [has]) e _ deviceId hends
          { old with deviceId := some deviceId } _ rfl
        · rw [hact]
          exact List.mem_cons_of_mem _ he
        · rw [hact]
          exact bind_binds hfate hold
      · exact hlate rfl
  · rintro h before after rfl e he d hends
    exact (kept_run ((along_append _ _ _ _ _).mp h).1).ended e he d hends

end WeirdVault.Devices
