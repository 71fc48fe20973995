import WeirdVault.Framework.Calls
import WeirdVault.Vault.Behaviour
import WeirdVault.Vault.Demo

/-!
# Local writes during a sync

A cycle reads the device once and writes the merge back request by request. The journal is what
local operations have written since that reading; `Kept` says that the device still holds it, and
`Complete` that it is all that the operations are there for. A cycle that writes over the journal
breaks this, and so do two operations on one map; when no write falls between another thread's read
and write of the same thing, everything is kept.
-/

namespace WeirdVault.Vault

open WeirdVault.Framework

inductive Slot
  | record (s : Store) (id : RecordId)
  | snippet (id : RecordId)
  | tombstone (id : RecordId)
  deriving DecidableEq, Repr

inductive LocalWrite
  | put (s : Store) (r : s.Rec)
  | delete (s : Store) (id : RecordId)
  | snippet (s : Snippet)
  | dropSnippet (id : RecordId)
  | tombstone (id : RecordId) (deletedAt : Nat)

def LocalWrite.slot : LocalWrite → Slot
  | .put s r => .record s (s.id r)
  | .delete s id => .record s id
  | .snippet s => .snippet s.id
  | .dropSnippet id => .snippet id
  | .tombstone id _ => .tombstone id

def lastAnswer {τ : Type} (of : (r : Request) → r.Ans → Option τ) (j : Nat) : Log → Option τ
  | [] => none
  | e :: log =>
    if e.thread = j then (of e.request e.answer).or (lastAnswer of j log) else lastAnswer of j log

def Request.draw? : (r : Request) → r.Ans → Option Nat
  | .randomUUID,n => some n
  | _,_ => none

def Request.snippetMap? : (r : Request) → r.Ans → Option SnippetMap
  | .vaultGet .snippets,m => some (m.getD (Table.empty _))
  | _,_ => none

def lastDraw (j : Nat) (log : Log) : Option Nat := lastAnswer Request.draw? j log

def lastMap (j : Nat) (log : Log) : SnippetMap :=
  (lastAnswer Request.snippetMap? j log).getD (Table.empty _)

/-- What the request writes for the operation, which has drawn an id if it was given none. -/
def LocalOp.writes (op : LocalOp) (drawn : Option Nat) : Request → Option LocalWrite
  | .idbPut s r => some (.put s r)
  | .idbDelete s id => some (.delete s id)
  | .vaultPut .snippets m =>
    match op with
    | .saveSnippet draft => do
      let id ← draft.id.or (drawn.map RecordId.uuid)
      return .snippet (← m.get? id)
    | .deleteSnippet id => some (.dropSnippet id)
    | _ => none
  | .vaultPut .tombstones t => do
    let id ← op.buries
    let e ← t.get? id
    return .tombstone e.1 e.2
  | _ => none

def localWrite? (older : Log) (e : Entry Request.Ans Job) : Option LocalWrite :=
  match e.job with
  | .edit _ op => op.writes (lastDraw e.thread older) e.request
  | _ => none

def Request.readsCell (c : Cell) : Request → Bool
  | .vaultGet c' => c' == c
  | _ => false

def Request.writesCell (c : Cell) : Request → Bool
  | .vaultPut c' _ => c' == c
  | _ => false

def Job.isEdit : Job → Bool
  | .edit .. => true
  | _ => false

def endsReading (e : Entry Request.Ans Job) : Bool :=
  e.thread == 0 && e.request.readsCell .tombstones

/-- What local operations have written since the cycle last read the device, newest first. -/
def journal : Log → List LocalWrite
  | [] => []
  | e :: older => if endsReading e then [] else (localWrite? older e).toList ++ journal older

def standing : List LocalWrite → List LocalWrite
  | [] => []
  | v :: vs => v :: (standing vs).filter (fun u => u.slot ≠ v.slot)

def Cell.initial : (c : Cell) → c.Val
  | .snippets => Table.empty _
  | .tombstones => Table.empty _
  | .syncState => ⟨0,0⟩

def LocalWrite.InStores (db : LocalDb) : LocalWrite → Prop
  | .put s r => (db.store s).get? (s.id r) = some r
  | .delete s id => (db.store s).get? id = none
  | _ => True

def LocalWrite.InCell : (c : Cell) → c.Val → LocalWrite → Prop
  | .snippets,m,.snippet s => m.get? s.id = some s
  | .snippets,m,.dropSnippet id => m.get? id = none
  | .tombstones,t,.tombstone id deletedAt => t.get? id = some (id,deletedAt)
  | _,_,_ => True

/-- Every record saved and not deleted since is there with the saved content, every record deleted
and not saved since is gone, and every tombstone is in the map. -/
structure Kept (db : LocalDb) (vs : List LocalWrite) : Prop where
  stores : ∀ v ∈ standing vs, v.InStores db
  cells : ∀ c, ∀ v ∈ standing vs, v.InCell c ((db.cell c).getD c.initial)

instance LocalWrite.decidableInStores (db : LocalDb) : (v : LocalWrite) → Decidable (v.InStores db)
  | .put s r =>
    have : DecidableEq s.Rec := Store.decidableEqRec s
    inferInstanceAs (Decidable ((db.store s).get? (s.id r) = some r))
  | .delete s id =>
    have : DecidableEq s.Rec := Store.decidableEqRec s
    inferInstanceAs (Decidable ((db.store s).get? id = none))
  | .snippet _ => .isTrue trivial
  | .dropSnippet _ => .isTrue trivial
  | .tombstone .. => .isTrue trivial

instance LocalWrite.decidableInCell : (c : Cell) → (x : c.Val) → (v : LocalWrite) →
    Decidable (v.InCell c x)
  | .snippets,m,.snippet s => inferInstanceAs (Decidable (m.get? s.id = some s))
  | .snippets,m,.dropSnippet id => inferInstanceAs (Decidable (m.get? id = none))
  | .snippets,_,.put .. => .isTrue trivial
  | .snippets,_,.delete .. => .isTrue trivial
  | .snippets,_,.tombstone .. => .isTrue trivial
  | .tombstones,t,.tombstone id deletedAt =>
    inferInstanceAs (Decidable (t.get? id = some (id,deletedAt)))
  | .tombstones,_,.put .. => .isTrue trivial
  | .tombstones,_,.delete .. => .isTrue trivial
  | .tombstones,_,.snippet _ => .isTrue trivial
  | .tombstones,_,.dropSnippet _ => .isTrue trivial
  | .syncState,_,_ => .isTrue trivial

instance Kept.decidable (db : LocalDb) (vs : List LocalWrite) : Decidable (Kept db vs) :=
  decidable_of_iff ((∀ v ∈ standing vs, v.InStores db) ∧
      ∀ c ∈ [Cell.snippets,.tombstones,.syncState],
        ∀ v ∈ standing vs, v.InCell c ((db.cell c).getD c.initial))
    ⟨fun h => ⟨h.1,fun c => h.2 c (by cases c <;> simp)⟩,fun h => ⟨h.stores,fun c _ => h.cells c⟩⟩

/-- The thread has asked nothing before the cycle last read the device. -/
def sinceReading (i : Nat) (log : Log) : Bool :=
  (log.dropWhile (fun e => !endsReading e)).all (fun e => e.thread != i)

/-- The writes are what the operation is there for. Of a new key nothing is said. -/
def LocalOp.Wrote (vs : List LocalWrite) : LocalOp → Prop
  | .saveHost draft => ∃ id createdAt updatedAt, LocalWrite.put .hosts (draft.record id createdAt updatedAt) ∈ vs
  | .pin host port info => ∃ now, LocalWrite.put .hostkeys
      ⟨.address host port,info.key,info.fingerprint,info.type,now,now⟩ ∈ vs
  | .saveSnippet draft => ∃ id now, LocalWrite.snippet (draft.record id now) ∈ vs
  | .deleteHost id => LocalWrite.delete .hosts id ∈ vs
  | .deleteKey id => LocalWrite.delete .keys id ∈ vs
  | .unpin host port => LocalWrite.delete .hostkeys (.address host port) ∈ vs
  | .deleteSnippet id => LocalWrite.dropSnippet id ∈ vs
  | .generateKey .. => True
  | .importKey .. => True

def LocalWrite.drops : LocalWrite → Option RecordId
  | .delete _ id => some id
  | .dropSnippet id => some id
  | _ => none

/-- When everything has ended, every operation that was made since the reading is in the journal,
and every deletion of the journal has its tombstone in the stored map. -/
structure Complete (db : LocalDb) (w : World Request.Ans JsError Outcome Job σ) : Prop where
  wrote : ∀ i d op, (w.threads[i]?).map Thread.job = some (.edit d op) → sinceReading i w.log = true →
    op.Wrote (journal w.log)
  buried : ∀ v ∈ standing (journal w.log), ∀ id, v.drops = some id →
    ∃ deletedAt, ((db.cell .tombstones).getD (Table.empty _)).get? id = some (id,deletedAt)

/-- One cycle on the device, started first, and local operations on the same device. -/
def oneCycle (d : DeviceId) (key : CryptoKey) (w : World Request.Ans JsError Outcome Job σ) :
    Job → Bool
  | .sync d' key' => w.threads.isEmpty && d' == d && key' == key
  | .edit d' _ => !w.threads.isEmpty && d' == d
  | _ => false

/-- No local operation has written the map since the thread read it and the cycle read the
device. -/
def mapFree (j : Nat) (c : Cell) : Log → Bool
  | [] => true
  | e :: older =>
    endsReading e || (e.thread == j && e.request.readsCell c) ||
      (!(e.job.isEdit && e.request.writesCell c) && mapFree j c older)

def LocalWrite.saves (slot : Slot) : LocalWrite → Bool
  | .put s r => .record s (s.id r) == slot
  | .snippet s => .snippet s.id == slot
  | _ => false

/-- The snippet that was put into the map, unless it was there already. -/
def putInto (old m : SnippetMap) : List Snippet :=
  m.rows.filter (fun s => m == old.put s && old.get? s.id != some s)

def droppedFrom (old m : SnippetMap) : List RecordId :=
  (old.rows.map Snippet.id).filter (fun id => m == old.erase id)

variable {acc : Account}

/-- Nothing that the cycle writes has been written by a local operation, nothing that it drops has
been saved by one, and nobody's map has been written by one since it was read. -/
def undisturbed (log : Log) (j : Nat) : Request → Bool
  | .idbPut s r => j != 0 || (journal log).all (fun v => v.slot != .record s (s.id r))
  | .idbDelete s id => j != 0 || (standing (journal log)).all (fun v => !v.saves (.record s id))
  | .vaultPut .snippets m =>
    mapFree j .snippets log &&
      (j != 0 ||
        (putInto (lastMap j log) m).all (fun s => (journal log).all (fun v => v.slot != .snippet s.id)) &&
        (droppedFrom (lastMap j log) m).all
          (fun id => (standing (journal log)).all (fun v => !v.saves (.snippet id))))
  | .vaultPut .tombstones _ => mapFree j .tombstones log
  | _ => true

/-- The step starts a job that belongs here or makes an undisturbed request. -/
def isolated (d : DeviceId) (key : CryptoKey) (w : AccountWorld acc) : Step → Bool
  | .start job => oneCycle d key w job
  | .step j _ => (w.asks? j).all (undisturbed w.log j)

theorem mem_standing_cons {u v : LocalWrite} {vs : List LocalWrite} :
    u ∈ standing (v :: vs) ↔ u = v ∨ u ∈ standing vs ∧ u.slot ≠ v.slot := by
  simp [standing]

private theorem mem_of_mem_standing {v : LocalWrite} {vs : List LocalWrite}
    (h : v ∈ standing vs) : v ∈ vs := by
  induction vs with
  | nil => simp [standing] at h
  | cons u vs ih =>
    rcases mem_standing_cons.mp h with rfl | ⟨h,-⟩
    · exact List.mem_cons_self
    · exact List.mem_cons_of_mem u (ih h)

private theorem inStores_put {db : LocalDb} {v : LocalWrite} {s : Store} {r : s.Rec}
    (h : v.InStores db) (hne : v.slot ≠ .record s (s.id r)) :
    v.InStores (db.apply (.idbPut s r)) := by
  cases v with
  | put s' r' =>
    by_cases hs : s' = s
    · subst hs
      have hid : s'.id r ≠ s'.id r' := fun he => hne (by simp [LocalWrite.slot,he])
      simpa [LocalWrite.InStores,LocalDb.apply,Table.get?_put_of_ne _ hid] using h
    · simpa [LocalWrite.InStores,LocalDb.apply,LocalDb.store_setStore_of_ne _ _ hs] using h
  | delete s' id =>
    by_cases hs : s' = s
    · subst hs
      have hid : s'.id r ≠ id := fun he => hne (by simp [LocalWrite.slot,he])
      simpa [LocalWrite.InStores,LocalDb.apply,Table.get?_put_of_ne _ hid] using h
    · simpa [LocalWrite.InStores,LocalDb.apply,LocalDb.store_setStore_of_ne _ _ hs] using h
  | _ => trivial

private theorem inStores_delete {db : LocalDb} {v : LocalWrite} {s : Store} {id : RecordId}
    (h : v.InStores db) (hne : v.saves (.record s id) = false) :
    v.InStores (db.apply (.idbDelete s id)) := by
  cases v with
  | put s' r' =>
    by_cases hs : s' = s
    · subst hs
      have hid : id ≠ s'.id r' := by
        rintro rfl
        simp [LocalWrite.saves] at hne
      simpa [LocalWrite.InStores,LocalDb.apply,Table.get?_erase,hid] using h
    · simpa [LocalWrite.InStores,LocalDb.apply,LocalDb.store_setStore_of_ne _ _ hs] using h
  | delete s' id' =>
    by_cases hs : s' = s
    · subst hs
      simp only [LocalWrite.InStores,LocalDb.apply,LocalDb.store_setStore_self,Table.get?_erase] at h ⊢
      split
      · rfl
      · exact h
    · simpa [LocalWrite.InStores,LocalDb.apply,LocalDb.store_setStore_of_ne _ _ hs] using h
  | _ => trivial

private theorem saves_eq_false {v : LocalWrite} {slot : Slot} (h : v.slot ≠ slot) :
    v.saves slot = false := by
  cases v <;> simp_all [LocalWrite.saves,LocalWrite.slot]

private theorem lastAnswer_of_latest {τ : Type} {of : (r : Request) → r.Ans → Option τ}
    {r : Request} {x : r.Ans} {y : τ} (hx : of r x = some y)
    (hothers : ∀ r', r' ≠ r → ∀ x', of r' x' = none) {log : Log} {j : Nat}
    (h : Latest (transcript log j) r x) : lastAnswer of j log = some y := by
  induction log with
  | nil =>
    obtain ⟨newer,older,he,-⟩ := h
    simp [transcript] at he
  | cons e log ih =>
    obtain ⟨i,job,r',x'⟩ := e
    by_cases hi : i = j
    · subst hi
      rw [transcript_cons_self] at h
      by_cases hr : r' = r
      · subst hr
        obtain rfl := latest_cons_self_iff.mp h
        simp [lastAnswer,hx]
      · simp [lastAnswer,hothers r' hr x',ih ((latest_cons_of_ne hr x').mp h)]
    · rw [transcript_cons_of_ne log hi] at h
      simp only [lastAnswer,hi,if_false,ih h]

private theorem lastDraw_of_latest {log : Log} {j n : Nat}
    (h : Latest (transcript log j) .randomUUID n) : lastDraw j log = some n := by
  apply lastAnswer_of_latest rfl ?_ h
  intro r hr x
  cases r <;> first | rfl | exact absurd rfl hr

private theorem lastMap_of_latest {log : Log} {j : Nat} {m : Option SnippetMap}
    (h : Latest (transcript log j) (.vaultGet .snippets) m) :
    lastMap j log = m.getD (Table.empty _) := by
  have hlast : lastAnswer Request.snippetMap? j log = some (m.getD (Table.empty _)) := by
    apply lastAnswer_of_latest rfl ?_ h
    intro r hr x
    cases r with
    | vaultGet c => cases c <;> first | rfl | exact absurd rfl hr
    | _ => rfl
  simp [lastMap,hlast]

private theorem drawsId_of_transcript {log : Log} {j : Nat} {given : Option RecordId}
    {id : RecordId} (h : DrawsId (transcript log j) given id) :
    given.or ((lastDraw j log).map RecordId.uuid) = some id := by
  rcases h with h | ⟨h,n,rfl,hn⟩
  · simp [h]
  · simp [h,lastDraw_of_latest hn]

private theorem writes_saveSnippet {log : Log} {j now : Nat} {draft : SnippetDraft} {id : RecordId}
    {m : SnippetMap} (hid : DrawsId (transcript log j) draft.id id) :
    (LocalOp.saveSnippet draft).writes (lastDraw j log) (.vaultPut .snippets (m.put (draft.record id now))) =
      some (.snippet (draft.record id now)) := by
  have hput : (m.put (draft.record id now)).get? id = some (draft.record id now) :=
    Table.get?_put_self m (draft.record id now)
  simp [LocalOp.writes,drawsId_of_transcript hid,hput]

private theorem writes_buries {op : LocalOp} {id : RecordId} (hop : op.buries = some id)
    (drawn : Option Nat) (t : Tombstones) (now : Nat) :
    op.writes drawn (.vaultPut .tombstones (t.put (id,now))) = some (.tombstone id now) := by
  simp [LocalOp.writes,hop,Table.get?_put]

/-- The device holds the journal, and so does every map that a thread has read and no local
operation has written since. -/
private structure Kept.Inv (d : DeviceId) (s : State acc) (log : Log) : Prop where
  kept : Kept (s.device d) (journal log)
  read : ∀ c j x, Latest (transcript log j) (.vaultGet c) x → mapFree j c log = true →
    ∀ v ∈ standing (journal log), v.InCell c (x.getD c.initial)

private theorem inCell_of_writes {op : LocalOp} {drawn : Option Nat} {r : Request} {v : LocalWrite}
    (h : op.writes drawn r = some v) {c : Cell} (hc : r.writesCell c = false) (x : c.Val) :
    v.InCell c x := by
  cases r with
  | idbPut s r =>
    obtain rfl := Option.some.inj h
    cases c <;> trivial
  | idbDelete s id =>
    obtain rfl := Option.some.inj h
    cases c <;> trivial
  | vaultPut c' m =>
    have hne : c' ≠ c := by simpa [Request.writesCell] using hc
    cases c' with
    | snippets =>
      cases op with
      | saveSnippet draft =>
        obtain ⟨id,-,sn,-,rfl⟩ : ∃ id, _ ∧ ∃ sn, m.get? id = some sn ∧ LocalWrite.snippet sn = v := by
          simpa [LocalOp.writes,Option.bind_eq_some_iff] using h
        cases c <;> trivial
      | deleteSnippet id =>
        obtain rfl := Option.some.inj h
        cases c <;> trivial
      | _ => simp [LocalOp.writes] at h
    | tombstones =>
      obtain ⟨id,-,at',-,rfl⟩ : ∃ id, _ ∧ ∃ e, m.get? id = some e ∧
          LocalWrite.tombstone e.1 e.2 = v := by
        simpa [LocalOp.writes,Option.bind_eq_some_iff] using h
      cases c <;> trivial
    | syncState => simp [LocalOp.writes] at h
  | _ => simp [LocalOp.writes] at h

section Step

variable {d : DeviceId} {s : State acc} {log : Log} {i : Nat} {job : Job} {env : Env} {r : Request}

private theorem journal_cons (log : Log) (e : Entry Request.Ans Job) (h : endsReading e = false) :
    journal (e :: log) = (localWrite? log e).toList ++ journal log := by
  simp [journal,h]

private theorem read_step (h : Kept.Inv d s log) (hdev : job.device = d)
    (hkept : Kept ((exec job env s r).1.device d)
      (journal (⟨i,job,r,(exec job env s r).2⟩ :: log))) :
    Kept.Inv d (exec job env s r).1 (⟨i,job,r,(exec job env s r).2⟩ :: log) := by
  refine ⟨hkept,?_⟩
  intro c j x hx hfree v hv
  by_cases hend : endsReading (⟨i,job,r,(exec job env s r).2⟩ : Entry Request.Ans Job) = true
  · simp [journal,hend,standing] at hv
  by_cases hread : i = j ∧ r = .vaultGet c
  · obtain ⟨rfl,rfl⟩ := hread
    rw [transcript_cons_self,latest_cons_self_iff] at hx
    subst hx hdev
    exact hkept.cells c v hv
  · have hlatest : Latest (transcript log j) (.vaultGet c) x := by
      by_cases hij : i = j
      · subst hij
        rw [transcript_cons_self] at hx
        exact (latest_cons_of_ne (fun he => hread ⟨rfl,he⟩) _).mp hx
      · rwa [transcript_cons_of_ne log hij] at hx
    have hnoread : (i == j && r.readsCell c) = false := by
      rw [Bool.and_eq_false_iff]
      by_cases hij : i = j
      · apply Or.inr
        cases r <;> simp_all [Request.readsCell]
      · exact Or.inl (by simpa using hij)
    simp only [mapFree,hend,hnoread,Bool.false_or,Bool.and_eq_true,Bool.not_eq_true'] at hfree
    obtain ⟨hnowrite,hfree⟩ := hfree
    rw [journal_cons log _ (by simpa using hend)] at hv
    rcases hw : localWrite? log ⟨i,job,r,(exec job env s r).2⟩ with _ | u
    · rw [hw] at hv
      exact h.read c j x hlatest hfree v hv
    · rw [hw] at hv
      rcases mem_standing_cons.mp hv with rfl | ⟨hv,-⟩
      · cases job with
        | edit device op => exact inCell_of_writes hw (by simpa [Job.isEdit] using hnowrite) _
        | _ => simp [localWrite?] at hw
      · exact h.read c j x hlatest hfree v hv

private theorem kept_nil (db : LocalDb) : Kept db [] := ⟨by simp [standing],by simp [standing]⟩

private theorem kept_congr {db db' : LocalDb} {vs : List LocalWrite} (h : Kept db vs)
    (hs : ∀ s, db'.store s = db.store s) (hc : ∀ c, c ≠ .syncState → db'.cell c = db.cell c) :
    Kept db' vs := by
  constructor
  · intro v hv
    have hold := h.stores v hv
    cases v <;> simp_all [LocalWrite.InStores]
  · intro c v hv
    cases c with
    | syncState => cases v <;> trivial
    | snippets =>
      rw [hc .snippets (by simp)]
      exact h.cells .snippets v hv
    | tombstones =>
      rw [hc .tombstones (by simp)]
      exact h.cells .tombstones v hv

private theorem kept_reads {db : LocalDb} {vs : List LocalWrite} (h : Kept db vs)
    (hr : r.reads) : Kept (db.apply r) vs := by
  cases r with
  | vaultPut c v =>
    obtain rfl : c = .syncState := hr
    exact kept_congr h (fun s => LocalDb.store_setCell db _ v s)
      (fun c hc => LocalDb.cell_setCell_of_ne db v hc)
  | idbPut st x => cases hr
  | idbDelete st id => cases hr
  | _ => exact h

private theorem kept_setCell {db : LocalDb} {vs : List LocalWrite} (h : Kept db vs) {c : Cell}
    {x : c.Val} (hx : ∀ v ∈ standing vs, v.InCell c x) : Kept (db.apply (.vaultPut c x)) vs := by
  constructor
  · intro v hv
    have hold := h.stores v hv
    cases v <;> simp_all [LocalWrite.InStores,LocalDb.apply]
  · intro c' v hv
    by_cases hc : c' = c
    · subst hc
      simpa [LocalDb.apply] using hx v hv
    · simpa [LocalDb.apply,LocalDb.cell_setCell_of_ne db x hc] using h.cells c' v hv

private theorem inCell_of_mapFree {log : Log} (h : mapFree 0 .tombstones log = true)
    {v : LocalWrite} (hv : v ∈ journal log) (t : Tombstones) : v.InCell .tombstones t := by
  induction log with
  | nil => simp [journal] at hv
  | cons e log ih =>
    by_cases hend : endsReading e = true
    · simp [journal,hend] at hv
    · have hsame : (e.thread == 0 && e.request.readsCell .tombstones) = false := by
        simpa [endsReading] using hend
      simp only [mapFree,hend,hsame,Bool.false_or,Bool.and_eq_true,Bool.not_eq_true'] at h
      obtain ⟨hnowrite,hfree⟩ := h
      rw [journal_cons log e (by simpa using hend)] at hv
      rcases List.mem_append.mp hv with hv | hv
      · obtain ⟨j,job,r,x⟩ := e
        have hw : localWrite? log ⟨j,job,r,x⟩ = some v := by simpa using hv
        cases job with
        | edit device op => exact inCell_of_writes hw (by simpa [Job.isEdit] using hnowrite) _
        | _ => simp [localWrite?] at hw
      · exact ih hfree hv

private theorem inSnippets_put {m : SnippetMap} {s : Snippet} {v : LocalWrite}
    (h : v.InCell .snippets m) (hne : v.slot ≠ .snippet s.id) : v.InCell .snippets (m.put s) := by
  cases v with
  | snippet s' =>
    have hid : s.id ≠ s'.id := fun he => hne (by simp [LocalWrite.slot,he])
    exact (Table.get?_put_of_ne m hid).trans h
  | dropSnippet id =>
    have hid : s.id ≠ id := fun he => hne (by simp [LocalWrite.slot,he])
    exact (Table.get?_put_of_ne m hid).trans h
  | _ => trivial

private theorem inSnippets_erase {m : SnippetMap} {id : RecordId} {v : LocalWrite}
    (h : v.InCell .snippets m) (hne : v.saves (.snippet id) = false) :
    v.InCell .snippets (m.erase id) := by
  cases v with
  | snippet s =>
    have hid : id ≠ s.id := by
      rintro rfl
      simp [LocalWrite.saves] at hne
    simpa [LocalWrite.InCell,Table.get?_erase,hid] using h
  | dropSnippet id' =>
    simp only [LocalWrite.InCell,Table.get?_erase] at h ⊢
    split
    · rfl
    · exact h
  | _ => trivial

private theorem inSnippets_putInto {m : SnippetMap} {s : Snippet} {v : LocalWrite}
    (h : v.InCell .snippets m) (hv : ∀ s' ∈ putInto m (m.put s), v.slot ≠ .snippet s'.id) :
    v.InCell .snippets (m.put s) := by
  by_cases hs : m.get? s.id = some s
  · have hsame : ∀ id, (m.put s).get? id = m.get? id := by
      intro id
      by_cases hid : s.id = id
      · rw [← hid,hs]
        exact Table.get?_put_self m s
      · exact Table.get?_put_of_ne m hid
    cases v with
    | snippet s' => exact (hsame s'.id).trans h
    | dropSnippet id => exact (hsame id).trans h
    | _ => trivial
  · have hput : s ∈ putInto m (m.put s) := by
      have hmem : s ∈ (m.put s).rows := Table.mem_of_get? (Table.get?_put_self m s)
      simpa [putInto,hmem] using hs
    exact inSnippets_put h (hv s hput)

private theorem inSnippets_droppedFrom {m : SnippetMap} {id : RecordId} {v : LocalWrite}
    (h : v.InCell .snippets m)
    (hv : ∀ id' ∈ droppedFrom m (m.erase id), v.saves (.snippet id') = false) :
    v.InCell .snippets (m.erase id) := by
  by_cases hid : id ∈ m.rows.map Snippet.id
  · have hdrop : id ∈ droppedFrom m (m.erase id) := by simpa [droppedFrom] using hid
    exact inSnippets_erase h (hv id hdrop)
  · have hnone : m.get? id = none := by
      rw [Table.get?_eq_none_iff]
      intro s hs he
      exact hid (he ▸ List.mem_map_of_mem hs)
    apply inSnippets_erase h
    cases v with
    | snippet s =>
      have hne : s.id ≠ id := by
        rintro rfl
        exact absurd (hnone.symm.trans h) (by simp)
      simpa [LocalWrite.saves] using hne
    | _ => rfl

private theorem kept_applies {merged previous : VaultDocument} (h : Kept.Inv d s log)
    (hr : Applies merged previous (transcript log 0) r) (hok : undisturbed log 0 r = true) :
    Kept ((s.device d).apply r) (journal log) := by
  cases hr with
  | @put st x hx =>
    simp only [undisturbed,bne_self_eq_false,Bool.false_or,List.all_eq_true,bne_iff_ne] at hok
    refine ⟨fun v hv => ?_,fun c v hv => ?_⟩
    · exact inStores_put (h.kept.stores v hv) (hok v (mem_of_mem_standing hv))
    · simpa [LocalDb.apply] using h.kept.cells c v hv
  | @forget st id hid =>
    simp only [undisturbed,bne_self_eq_false,Bool.false_or,List.all_eq_true,
      Bool.not_eq_true'] at hok
    refine ⟨fun v hv => ?_,fun c v hv => ?_⟩
    · exact inStores_delete (h.kept.stores v hv) (hok v hv)
    · simpa [LocalDb.apply] using h.kept.cells c v hv
  | snippet hm hs =>
    simp only [undisturbed,lastMap_of_latest hm,bne_self_eq_false,Bool.false_or,Bool.and_eq_true,
      List.all_eq_true,bne_iff_ne] at hok
    obtain ⟨hfree,hput,-⟩ := hok
    apply kept_setCell h.kept
    intro v hv
    apply inSnippets_putInto (h.read .snippets 0 _ hm hfree v hv)
    exact fun s' hs' => hput s' hs' v (mem_of_mem_standing hv)
  | forgetSnippet hm hs =>
    simp only [undisturbed,lastMap_of_latest hm,bne_self_eq_false,Bool.false_or,Bool.and_eq_true,
      List.all_eq_true,Bool.not_eq_true'] at hok
    obtain ⟨hfree,-,hdrop⟩ := hok
    apply kept_setCell h.kept
    intro v hv
    apply inSnippets_droppedFrom (h.read .snippets 0 _ hm hfree v hv)
    exact fun id' hid' => hdrop id' hid' v hv
  | tombstones =>
    exact kept_setCell h.kept (fun v hv => inCell_of_mapFree hok (mem_of_mem_standing hv) _)
  | readSnippets => exact h.kept

private theorem kept_cycles {key : CryptoKey} (h : Kept.Inv d s log)
    (hr : Cycles key (transcript log 0) r) (hok : undisturbed log 0 r = true) :
    Kept ((s.device d).apply r) (journal log) := by
  cases hr with
  | reads hr => exact kept_reads h.kept hr
  | applies hm hr => exact kept_applies h hr hok
  | pushes hm iv => exact h.kept

private theorem writes_reads {op : LocalOp} {drawn : Option Nat} (hr : r.reads) :
    op.writes drawn r = none := by
  cases r with
  | vaultPut c v =>
    obtain rfl : c = .syncState := hr
    rfl
  | idbPut st x => cases hr
  | idbDelete st id => cases hr
  | _ => rfl

private theorem kept_writeStore {db : LocalDb} {vs : List LocalWrite} (h : Kept db vs)
    {u : LocalWrite} (hcells : ∀ c, (db.apply r).cell c = db.cell c)
    (hmaps : ∀ c y, u.InCell c y) (hu : u.InStores (db.apply r))
    (hothers : ∀ v ∈ standing vs, v.slot ≠ u.slot → v.InStores (db.apply r)) :
    Kept (db.apply r) (u :: vs) := by
  constructor
  · intro v hv
    rcases mem_standing_cons.mp hv with rfl | ⟨hv,hne⟩
    · exact hu
    · exact hothers v hv hne
  · intro c v hv
    rw [hcells c]
    rcases mem_standing_cons.mp hv with rfl | ⟨hv,-⟩
    · exact hmaps c _
    · exact h.cells c v hv

private theorem kept_writeMap {db : LocalDb} {vs : List LocalWrite} (h : Kept db vs) {c : Cell}
    {x : c.Val} {u : LocalWrite} (hstores : ∀ db, u.InStores db)
    (hothers : ∀ c', c' ≠ c → ∀ y, u.InCell c' y) (hu : u.InCell c x)
    (hx : ∀ v ∈ standing vs, v.slot ≠ u.slot → v.InCell c x) :
    Kept (db.apply (.vaultPut c x)) (u :: vs) := by
  constructor
  · intro v hv
    rcases mem_standing_cons.mp hv with rfl | ⟨hv,-⟩
    · exact hstores _
    · have hold := h.stores v hv
      cases v <;> simp_all [LocalWrite.InStores,LocalDb.apply]
  · intro c' v hv
    by_cases hc : c' = c
    · subst hc
      simp only [LocalDb.apply,LocalDb.cell_setCell_self,Option.getD_some]
      rcases mem_standing_cons.mp hv with rfl | ⟨hv,hne⟩
      · exact hu
      · exact hx v hv hne
    · simp only [LocalDb.apply,LocalDb.cell_setCell_of_ne db x hc]
      rcases mem_standing_cons.mp hv with rfl | ⟨hv,-⟩
      · exact hothers c' hc _
      · exact h.cells c' v hv

private theorem inTombstones_put {t : Tombstones} {e : RecordId × Nat} {v : LocalWrite}
    (h : v.InCell .tombstones t) (hne : v.slot ≠ .tombstone e.1) :
    v.InCell .tombstones (t.put e) := by
  cases v with
  | tombstone id at' =>
    have hid : e.1 ≠ id := fun he => hne (by simp [LocalWrite.slot,he])
    exact (Table.get?_put_of_ne t hid).trans h
  | _ => trivial

private theorem kept_edits {op : LocalOp} (h : Kept.Inv d s log) (hr : Edits op (transcript log i) r)
    (hok : undisturbed log i r = true) :
    Kept ((s.device d).apply r)
      ((op.writes (lastDraw i log) r).toList ++ journal log) := by
  have hput : ∀ {st : Store} {x : st.Rec}, r = .idbPut st x →
      Kept ((s.device d).apply r) ((op.writes (lastDraw i log) r).toList ++ journal log) := by
    rintro st x rfl
    apply kept_writeStore (u := .put st x) h.kept
    · intro c
      simp [LocalDb.apply]
    · intro c y
      cases c <;> trivial
    · simp [LocalWrite.InStores,LocalDb.apply]
    · exact fun v hv hne => inStores_put (h.kept.stores v hv) hne
  have hreads : r.reads → Kept ((s.device d).apply r)
      ((op.writes (lastDraw i log) r).toList ++ journal log) := by
    intro hr
    rw [writes_reads hr]
    exact kept_reads h.kept hr
  cases hr with
  | reads hr => exact hreads hr
  | savesHost hop hr =>
    cases hr with
    | reads hr => exact hreads hr
    | puts hid hcreated hnow => exact hput rfl
  | @deletes st id hop hk =>
    apply kept_writeStore (u := .delete st id) h.kept
    · intro c
      simp [LocalDb.apply]
    · intro c y
      cases c <;> trivial
    · simp [LocalWrite.InStores,LocalDb.apply]
    · exact fun v hv hne => inStores_delete (h.kept.stores v hv) (saves_eq_false hne)
  | @buries id t now hop ht hnow =>
    rw [writes_buries hop,Option.toList_some,List.singleton_append]
    apply kept_writeMap (u := .tombstone id now) h.kept (fun _ => trivial)
    · intro c' hc y
      cases c' <;> trivial
    · exact Table.get?_put_self _ (id,now)
    · intro v hv hne
      exact inTombstones_put (h.read .tombstones i t ht hok v hv) hne
  | @savesSnippet draft id now m hop hid hnow hm =>
    rw [hop,writes_saveSnippet hid,Option.toList_some,List.singleton_append]
    have hfree : mapFree i .snippets log = true := by
      simp only [undisturbed,Bool.and_eq_true] at hok
      exact hok.1
    apply kept_writeMap (u := .snippet (draft.record id now)) h.kept (fun _ => trivial)
    · intro c' hc y
      cases c' <;> trivial
    · exact Table.get?_put_self _ (draft.record id now)
    · intro v hv hne
      exact inSnippets_put (h.read .snippets i m hm hfree v hv) hne
  | @deletesSnippet id m hop hm hk =>
    have hw : op.writes (lastDraw i log) (.vaultPut .snippets ((m.getD (Table.empty _)).erase id)) =
        some (.dropSnippet id) := by
      simp [LocalOp.writes,hop]
    rw [hw,Option.toList_some,List.singleton_append]
    have hfree : mapFree i .snippets log = true := by
      simp only [undisturbed,Bool.and_eq_true] at hok
      exact hok.1
    apply kept_writeMap (u := .dropSnippet id) h.kept (fun _ => trivial)
    · intro c' hc y
      cases c' <;> trivial
    · exact Table.get?_erase_self _ id
    · intro v hv hne
      exact inSnippets_erase (h.read .snippets i m hm hfree v hv) (saves_eq_false hne)
  | wraps hop hn hnow => exact hput rfl
  | binds hop hn hnow => exact hput rfl
  | pins hop hnow => exact hput rfl

end Step

private theorem mem_journal {log : Log} {v : LocalWrite} :
    v ∈ journal log ↔ ∃ newer e older, log = newer ++ e :: older ∧
      (∀ x ∈ newer, endsReading x = false) ∧ endsReading e = false ∧ localWrite? older e = some v := by
  induction log with
  | nil => simp [journal]
  | cons e log ih =>
    by_cases hend : endsReading e = true
    · simp only [journal,hend,if_true,List.not_mem_nil,false_iff,not_exists]
      rintro newer e' older ⟨hlog,hnewer,he',-⟩
      cases newer with
      | nil =>
        obtain ⟨rfl,-⟩ := List.cons.inj hlog
        simp [hend] at he'
      | cons x newer =>
        obtain ⟨rfl,-⟩ := List.cons.inj hlog
        simp [hend] at hnewer
    · have hend : endsReading e = false := by simpa using hend
      rw [journal_cons log e hend,List.mem_append,Option.mem_toList,ih]
      constructor
      · rintro (h | ⟨newer,e',older,rfl,hnewer,he',hv⟩)
        · exact ⟨[],e,log,rfl,by simp,hend,h⟩
        · exact ⟨e :: newer,e',older,rfl,by simpa [hend] using hnewer,he',hv⟩
      · rintro ⟨newer,e',older,hlog,hnewer,he',hv⟩
        cases newer with
        | nil =>
          obtain ⟨rfl,rfl⟩ := List.cons.inj hlog
          exact Or.inl hv
        | cons x newer =>
          obtain ⟨rfl,rfl⟩ := List.cons.inj hlog
          exact Or.inr ⟨newer,e',older,rfl,fun y hy => hnewer y (List.mem_cons_of_mem _ hy),he',hv⟩

private theorem not_endsReading_of_sinceReading {i : Nat} {newer older : Log}
    {e : Entry Request.Ans Job} (h : sinceReading i (newer ++ e :: older) = true)
    (he : e.thread = i) : (∀ x ∈ newer, endsReading x = false) ∧ endsReading e = false := by
  induction newer with
  | nil =>
    refine ⟨by simp,?_⟩
    by_contra hend
    simp [sinceReading,hend,he] at h
  | cons x newer ih =>
    by_cases hend : endsReading x = true
    · simp [sinceReading,hend,he] at h
    · have hend : endsReading x = false := by simpa using hend
      obtain ⟨hnewer,hlast⟩ := ih (by simpa [sinceReading,hend] using h)
      exact ⟨by simpa [hend] using hnewer,hlast⟩

private theorem exists_between {newer older newer' older' : Log} {e e' : Entry Request.Ans Job}
    (h : newer ++ e :: older = newer' ++ e' :: older') (hne : e' ≠ e) (hold : e' ∉ older) :
    ∃ between, newer = newer' ++ e' :: between := by
  rcases List.append_eq_append_iff.mp h with ⟨mid,-,hrest⟩ | ⟨mid,hnewer,hrest⟩
  · cases mid with
    | nil => exact absurd (List.cons.inj hrest).1.symm hne
    | cons y mid =>
      obtain ⟨-,rfl⟩ := List.cons.inj hrest
      exact absurd (by simp) hold
  · cases mid with
    | nil => exact absurd (List.cons.inj hrest).1 hne
    | cons y mid =>
      obtain ⟨rfl,-⟩ := List.cons.inj hrest
      exact ⟨mid,hnewer⟩

private theorem exists_standing {v : LocalWrite} {vs : List LocalWrite} (h : v ∈ vs) :
    ∃ u ∈ standing vs, u.slot = v.slot := by
  induction vs with
  | nil => cases h
  | cons w vs ih =>
    by_cases hslot : v.slot = w.slot
    · exact ⟨w,List.mem_cons_self,hslot.symm⟩
    · rcases List.mem_cons.mp h with rfl | h
      · exact absurd rfl hslot
      · obtain ⟨u,hu,hsame⟩ := ih h
        exact ⟨u,mem_standing_cons.mpr (Or.inr ⟨hu,hsame ▸ hslot⟩),hsame⟩

section Run

variable {s : State acc} {as : List Step}

private theorem asked_of_log {newer older : Log} {e : Entry Request.Ans Job}
    (hlog : ((system acc).after (World.init s) as).log = newer ++ e :: older) :
    e.job.Asked acc (transcript older e.thread) e.request := by
  have hmem : e ∈ ((system acc).after (World.init s) as).log := by simp [hlog]
  obtain ⟨t,ht,hjob⟩ := (system acc).log_jobs s as hmem
  have hallowed := (behaviour acc).allowed_after s as ht
  have hsplit : transcript (newer ++ e :: older) e.thread =
      transcript newer e.thread ++ ⟨e.request,e.answer⟩ :: transcript older e.thread := by
    simp [transcript]
  rw [hlog,hsplit,hjob] at hallowed
  exact hallowed.older.1

private theorem log_of_said {d : DeviceId} {op : LocalOp} {r : Request} {i : Nat}
    (hi : (((system acc).after (World.init s) as).threads[i]?).map Thread.job = some (.edit d op))
    (h : Said r (transcript ((system acc).after (World.init s) as).log i)) :
    ∃ newer x older, ((system acc).after (World.init s) as).log =
      newer ++ ⟨i,.edit d op,r,x⟩ :: older ∧ Edits op (transcript older i) r := by
  obtain ⟨x,hx⟩ := h
  obtain ⟨job,hmem⟩ := mem_transcript.mp hx
  obtain ⟨t,ht,hjob⟩ := (system acc).log_jobs s as hmem
  obtain rfl : Job.edit d op = job := by
    rw [ht] at hi
    exact (Option.some.inj hi).symm.trans hjob
  obtain ⟨newer,older,hlog⟩ := List.append_of_mem hmem
  exact ⟨newer,x,older,hlog,asked_of_log hlog⟩

private theorem journal_of_said {d : DeviceId} {op : LocalOp} {r : Request} {i : Nat}
    (hi : (((system acc).after (World.init s) as).threads[i]?).map Thread.job = some (.edit d op))
    (hsince : sinceReading i ((system acc).after (World.init s) as).log = true)
    (h : Said r (transcript ((system acc).after (World.init s) as).log i)) :
    ∃ older, Edits op (transcript older i) r ∧ ∀ v, op.writes (lastDraw i older) r = some v →
      v ∈ journal ((system acc).after (World.init s) as).log := by
  obtain ⟨newer,x,older,hlog,hedits⟩ := log_of_said hi h
  rw [hlog] at hsince ⊢
  obtain ⟨hnewer,hend⟩ := not_endsReading_of_sinceReading hsince rfl
  exact ⟨older,hedits,fun v hv => mem_journal.mpr ⟨newer,_,older,rfl,hnewer,hend,hv⟩⟩

private theorem wrote_of_edited {d : DeviceId} {op : LocalOp} {i : Nat}
    (hi : (((system acc).after (World.init s) as).threads[i]?).map Thread.job = some (.edit d op))
    (hsince : sinceReading i ((system acc).after (World.init s) as).log = true)
    (h : Edited op (transcript ((system acc).after (World.init s) as).log i)) :
    op.Wrote (journal ((system acc).after (World.init s) as).log) := by
  have hdeletes : ∀ st id, op.deletes = some (st,id) →
      LocalWrite.delete st id ∈ journal ((system acc).after (World.init s) as).log := by
    intro st id hop
    obtain ⟨older,-,hv⟩ := journal_of_said hi hsince (h.deleted st id hop)
    exact hv _ rfl
  cases op with
  | saveHost draft =>
    obtain ⟨rec,hsaid⟩ := h.put .hosts rfl
    obtain ⟨older,hedits,hv⟩ := journal_of_said hi hsince hsaid
    cases hedits with
    | reads hr => cases hr
    | savesHost hop hr =>
      obtain rfl := LocalOp.saveHost.inj hop
      cases hr with
      | reads hr => cases hr
      | puts hid hcreated hnow => exact ⟨_,_,_,hv _ rfl⟩
  | pin host port info =>
    obtain ⟨rec,hsaid⟩ := h.put .hostkeys rfl
    obtain ⟨older,hedits,hv⟩ := journal_of_said hi hsince hsaid
    cases hedits with
    | reads hr => cases hr
    | savesHost hop hr => cases hop
    | pins hop hnow =>
      obtain ⟨rfl,rfl,rfl⟩ := LocalOp.pin.inj hop
      exact ⟨_,hv _ rfl⟩
  | saveSnippet draft =>
    obtain ⟨m,hsaid⟩ := h.mapped rfl
    obtain ⟨older,hedits,hv⟩ := journal_of_said hi hsince hsaid
    cases hedits with
    | reads hr => cases hr
    | savesHost hop hr => cases hop
    | savesSnippet hop hid hnow hm =>
      obtain rfl := LocalOp.saveSnippet.inj hop
      exact ⟨_,_,hv _ (writes_saveSnippet hid)⟩
    | deletesSnippet hop hm hk => cases hop
  | deleteSnippet id =>
    obtain ⟨m,hsaid⟩ := h.mapped rfl
    obtain ⟨older,-,hv⟩ := journal_of_said hi hsince hsaid
    exact hv _ rfl
  | deleteHost id => exact hdeletes .hosts id rfl
  | deleteKey id => exact hdeletes .keys id rfl
  | unpin host port => exact hdeletes .hostkeys _ rfl
  | _ => trivial

private theorem unburied_of_drops {op : LocalOp} {k : Heard} {r : Request} {drawn : Option Nat}
    {v : LocalWrite} {id : RecordId} (h : Edits op k r) (hw : op.writes drawn r = some v)
    (hv : v.drops = some id) :
    op.buries = some id ∧ Unburied k ∧ ∀ t, r ≠ .vaultPut .tombstones t := by
  cases h with
  | reads hr =>
    rw [writes_reads hr] at hw
    cases hw
  | savesHost hop hr =>
    cases hr with
    | reads hr =>
      rw [writes_reads hr] at hw
      cases hw
    | puts hid hcreated hnow =>
      obtain rfl := Option.some.inj hw
      cases hv
  | deletes hop hk =>
    obtain rfl := Option.some.inj hw
    obtain rfl := Option.some.inj hv
    refine ⟨?_,hk,?_⟩
    · cases op <;> simp_all [LocalOp.deletes,LocalOp.buries]
    · intro t he
      cases he
  | buries hop ht hnow =>
    rw [writes_buries hop] at hw
    obtain rfl := Option.some.inj hw
    cases hv
  | savesSnippet hop hid hnow hm =>
    subst hop
    obtain ⟨id',-,sn,-,rfl⟩ : ∃ id, _ ∧ ∃ sn, _ ∧ LocalWrite.snippet sn = v := by
      simpa [LocalOp.writes,Option.bind_eq_some_iff] using hw
    cases hv
  | deletesSnippet hop hm hk =>
    subst hop
    obtain rfl := Option.some.inj hw
    obtain rfl := Option.some.inj hv
    refine ⟨rfl,hk,?_⟩
    intro t he
    cases he
  | wraps hop hn hnow =>
    obtain rfl := Option.some.inj hw
    cases hv
  | binds hop hn hnow =>
    obtain rfl := Option.some.inj hw
    cases hv
  | pins hop hnow =>
    obtain rfl := Option.some.inj hw
    cases hv

private theorem kept_after {d : DeviceId} {key : CryptoKey}
    (h : Along (system acc).act (fun w a => isolated d key w a = true) (World.init s) as) :
    Kept (((system acc).after (World.init s) as).shared.device d)
      (journal ((system acc).after (World.init s) as).log) := by
  have hstart : ∀ (w : AccountWorld acc) job, isolated d key w (.start job) = true →
      (w.threads.length = 0 ∧ job = .sync d key) ∨ (w.threads.length ≠ 0 ∧ ∃ op, job = .edit d op) := by
    intro w job hok
    cases job with
    | sync d' key' => exact Or.inl (by simpa [isolated,oneCycle,and_assoc] using hok)
    | edit d' op => exact Or.inr (by simpa [isolated,oneCycle] using hok)
    | _ => simp [isolated,oneCycle] at hok
  have hinit : Kept.Inv d s [] := by
    refine ⟨kept_nil _,?_⟩
    intro c j x hx
    obtain ⟨newer,older,he,-⟩ := hx
    simp [transcript] at he
  have hinv := invariant_after
    (fun i job => (i = 0 ∧ job = .sync d key) ∨ (i ≠ 0 ∧ ∃ op, job = .edit d op)) hstart
    (Kept.Inv d) ?_ hinit h
  · exact hinv.kept
  · intro w i job env r next hok hi hjob hask hinv
    have hdev : job.device = d := by
      rcases hjob with ⟨-,rfl⟩ | ⟨-,op,rfl⟩ <;> rfl
    have hasks : w.asks? i = some r := World.asks?_eq_some.mpr ⟨job,next,hi⟩
    have hok : undisturbed w.log i r = true := by
      simpa [isolated,hasks] using hok
    have hexec : (exec job env w.shared r).1.device d = (w.shared.device d).apply r := by
      rw [← hdev]
      exact device_exec job env w.shared r
    apply read_step hinv hdev
    rw [hexec]
    by_cases hend : endsReading
        (⟨i,job,r,(exec job env w.shared r).2⟩ : Entry Request.Ans Job) = true
    · simp only [journal,hend,if_true]
      exact kept_nil _
    · rw [journal_cons w.log _ (by simpa using hend)]
      rcases hjob with ⟨rfl,rfl⟩ | ⟨hne,op,rfl⟩
      · exact kept_cycles hinv hask hok
      · exact kept_edits hinv hask hok

private theorem edited_of_finished (hfinished : ((system acc).after (World.init s) as).finished = true)
    {i : Nat} {d' : DeviceId} {op : LocalOp}
    (hi : (((system acc).after (World.init s) as).threads[i]?).map Thread.job = some (.edit d' op)) :
    Edited op (transcript ((system acc).after (World.init s) as).log i) := by
  obtain ⟨t,ht,hjob⟩ := Option.map_eq_some_iff.mp hi
  obtain ⟨o,ho⟩ := World.result?_of_finished hfinished ht
  obtain ⟨t',ht',hpost⟩ := (behaviour acc).post_of_follows (follows_after s as) ho
  obtain rfl := Option.some.inj (ht.symm.trans ht')
  rw [hjob] at hpost
  exact hpost

private theorem edit_of_localWrite {older : Log} {e : Entry Request.Ans Job} {v : LocalWrite}
    (h : localWrite? older e = some v) :
    ∃ d op, e.job = .edit d op ∧ op.writes (lastDraw e.thread older) e.request = some v := by
  unfold localWrite? at h
  split at h
  · exact ⟨_,_,by assumption,h⟩
  · cases h

/-- The tombstone of a deletion is written after it, so the journal has it as well. -/
private theorem tombstone_of_drops
    (hfinished : ((system acc).after (World.init s) as).finished = true)
    {v : LocalWrite} (hv : v ∈ journal ((system acc).after (World.init s) as).log) {id : RecordId}
    (hdrops : v.drops = some id) :
    ∃ now, LocalWrite.tombstone id now ∈ journal ((system acc).after (World.init s) as).log := by
  obtain ⟨newer,e,older,hlog,hnewer,-,hw⟩ := mem_journal.mp hv
  obtain ⟨d',op,hjob,hwrites⟩ := edit_of_localWrite hw
  obtain ⟨i,job,r,x⟩ := e
  have hmem : (⟨i,job,r,x⟩ : Entry Request.Ans Job) ∈ ((system acc).after (World.init s) as).log := by
    simp [hlog]
  obtain ⟨t,ht,rfl⟩ := (system acc).log_jobs s as hmem
  have hi : (((system acc).after (World.init s) as).threads[i]?).map Thread.job =
      some (.edit d' op) := by
    rw [ht,Option.map_some]
    exact congrArg some hjob
  have hasked := asked_of_log hlog
  simp only at hjob
  simp only [hjob] at hasked
  obtain ⟨hburies,hunburied,hne⟩ := unburied_of_drops hasked hwrites hdrops
  obtain ⟨m,hsaid⟩ := (edited_of_finished hfinished hi).buried id hburies
  obtain ⟨newer',x',older',hlog',hedits⟩ := log_of_said hi hsaid
  obtain ⟨between,rfl⟩ := exists_between (hlog.symm.trans hlog')
    (fun he => hne m (congrArg Entry.request he).symm)
    (fun hold => hunburied m ⟨x',mem_transcript.mpr ⟨_,hold⟩⟩)
  cases hedits with
  | reads hr => cases hr
  | savesHost hop hr =>
    cases hr with
    | reads hr => cases hr
  | @buries id' t now hop ht hnow =>
    obtain rfl := Option.some.inj (hburies.symm.trans hop)
    exact ⟨now,mem_journal.mpr ⟨newer',_,older',hlog',fun y hy => hnewer y (List.mem_append_left _ hy),
      hnewer _ (by simp),writes_buries hop (lastDraw i older') _ now⟩⟩

private theorem complete_of_kept {d : DeviceId}
    (h : Kept (((system acc).after (World.init s) as).shared.device d)
      (journal ((system acc).after (World.init s) as).log))
    (hfinished : ((system acc).after (World.init s) as).finished = true) :
    Complete (((system acc).after (World.init s) as).shared.device d)
      ((system acc).after (World.init s) as) := by
  constructor
  · exact fun i d' op hi hsince => wrote_of_edited hi hsince (edited_of_finished hfinished hi)
  · intro v hv id hdrops
    obtain ⟨now,hjournal⟩ := tombstone_of_drops hfinished (mem_of_mem_standing hv) hdrops
    obtain ⟨u,hu,hslot⟩ := exists_standing hjournal
    cases u with
    | tombstone id' at' =>
      obtain rfl := Slot.tombstone.inj hslot
      exact ⟨at',h.cells .tombstones _ hu⟩
    | _ => cases hslot

end Run

/-- In every state of every isolated run the device holds what local operations have written since
the cycle last read it, and when everything has ended that is all they are there for. -/
theorem kept_of_isolated (d : DeviceId) (key : CryptoKey) (s : State acc) (as : List Step)
    (h : Along (system acc).act (fun w a => isolated d key w a = true) (World.init s) as) :
    Kept (((system acc).after (World.init s) as).shared.device d)
        (journal ((system acc).after (World.init s) as).log) ∧
      (((system acc).after (World.init s) as).finished = true →
        Complete (((system acc).after (World.init s) as).shared.device d)
          ((system acc).after (World.init s) as)) := by
  have hkept := kept_after h
  exact ⟨hkept,complete_of_kept hkept⟩

def storedHost : Host := demoHost 1 "old" 5

def storedSnippet : Snippet := ⟨.uuid 2,"uptime","uptime -p",none,none,1,5⟩

def keepingState : State demoAccount :=
  demoState (fun _ => { LocalDb.fresh with
    hosts := (Table.empty _).put storedHost, snippets := some ((Table.empty _).put storedSnippet) })
    none

/-- A new snippet is saved when the cycle has read the device and has not yet put the stored one
back; the host is deleted when the cycle has written its tombstones. -/
def apart : List Step :=
  .start (.sync 0 (demoKey "a")) :: turns 0 10 8 ++
    .start (.edit 0 (.saveSnippet ⟨none,"disk","df -h",none,none,none⟩)) :: turns 1 11 4 ++
    turns 0 12 4 ++ .start (.edit 0 (.deleteHost storedHost.id)) :: turns 2 13 4 ++ turns 0 14 5

theorem kept_of_isolated_demo :
    (Along (system demoAccount).act (fun w a => isolated 0 (demoKey "a") w a = true)
        (World.init keepingState) apart ∧
      ((system demoAccount).after (World.init keepingState) apart).finished = true) ∧
    Kept (((system demoAccount).after (World.init keepingState) apart).shared.device 0)
        (journal ((system demoAccount).after (World.init keepingState) apart).log) ∧
      Complete (((system demoAccount).after (World.init keepingState) apart).shared.device 0)
        ((system demoAccount).after (World.init keepingState) apart) :=
  have h : Along (system demoAccount).act (fun w a => isolated 0 (demoKey "a") w a = true)
        (World.init keepingState) apart ∧
      ((system demoAccount).after (World.init keepingState) apart).finished = true := by
    decide +kernel
  have hkept := kept_of_isolated 0 (demoKey "a") keepingState apart h.1
  ⟨h,hkept.1,hkept.2 h.2⟩

def editingState : State demoAccount :=
  demoState (fun _ => { LocalDb.fresh with hosts := (Table.empty _).put storedHost }) none

def relabel : LocalOp :=
  .saveHost ⟨some storedHost.id,"new",storedHost.hostname,storedHost.port,storedHost.username,
    storedHost.auth,none,none,none,none,some storedHost.createdAt,none⟩

/-- The cycle reads the device, the operation runs to its end, the cycle goes on to its own. -/
def during (op : LocalOp) (n : Nat) : List Step :=
  .start (.sync 0 (demoKey "a")) :: turns 0 10 8 ++
    .start (.edit 0 op) :: turns 1 11 n ++ turns 0 12 7

/-- The new label is overwritten with the one that the cycle had read. -/
theorem relabel_lost_during_sync :
    let w := (system demoAccount).after (World.init editingState) (during relabel 2)
    w.finished = true ∧ ¬ Kept (w.shared.device 0) (journal w.log) := by
  decide +kernel

theorem deletion_lost_during_sync :
    let w := (system demoAccount).after (World.init editingState)
      (during (.deleteHost storedHost.id) 4)
    w.finished = true ∧ ¬ Kept (w.shared.device 0) (journal w.log) := by
  decide +kernel

end WeirdVault.Vault
