import WeirdVault.Vault.Account

/-!
# A cycle's local half, run alone

What `readLocalVault` returns and what `applyVaultLocally` writes when nothing else touches the
stores in between. `Browser` says of an executor that it treats the stores as IndexedDB does; what
else it keeps, and what the server answers, is open.
-/

namespace WeirdVault.Vault

open WeirdVault.Framework Program

def Request.isWrite : Request → Bool
  | .idbPut .. => true
  | .idbDelete .. => true
  | .vaultPut .. => true
  | _ => false

def Request.isLocal : Request → Bool
  | .idbGetAll _ => true
  | .vaultGet _ => true
  | .dateNow => true
  | .randomIv => true
  | r => r.isWrite

/-- An executor of requests in one browser: `page` is what local writes change, `rest` what they
leave alone, and `listed` how a store may be listed. -/
structure Browser (σ μ τ : Type) where
  exec : σ → (r : Request) → σ × r.Ans
  page : σ → μ
  rest : σ → τ
  db : μ → LocalDb
  write : μ → Request → μ
  listed : τ → (s : Store) → List s.Rec → List s.Rec → Prop
  page_exec : ∀ s r, r.isLocal → page (exec s r).1 = if r.isWrite then write (page s) r else page s
  rest_exec : ∀ s r, r.isLocal → rest (exec s r).1 = rest s
  getAll : ∀ s st, listed (rest s) st ((db (page s)).store st).rows (exec s (.idbGetAll st)).2
  vaultGet : ∀ s c, (exec s (.vaultGet c)).2 = (db (page s)).cell c
  db_write : ∀ m r, db (write m r) = (db m).apply r

namespace Browser

variable {σ μ τ α β : Type} (B : Browser σ μ τ)

/-- From this page the program ends without throwing, as `post` says, and leaves the rest alone. -/
def Ends (m : μ) (t : τ) (p : Prog α) (post : μ → α → Prop) : Prop :=
  ∀ s, B.page s = m → B.rest s = t →
    ∃ s' a, p.run B.exec s = (s',.ok a) ∧ B.rest s' = t ∧ post (B.page s') a

variable {B} {m : μ} {t : τ}

theorem ends_done {a : α} {post : μ → α → Prop} (h : post m a) :
    B.Ends m t (Program.done a) post := by
  intro s hm ht
  exact ⟨s,a,rfl,ht,hm ▸ h⟩

theorem Ends.bind {p : Prog α} {f : α → Prog β} {mid : μ → α → Prop} {post : μ → β → Prop}
    (h : B.Ends m t p mid) (hf : ∀ m' a, mid m' a → B.Ends m' t (f a) post) :
    B.Ends m t (p.bind f) post := by
  intro s hm ht
  obtain ⟨s',a,hrun,ht',hmid⟩ := h s hm ht
  rw [run_bind_ok B.exec hrun]
  exact hf _ a hmid s' rfl ht'

theorem Ends.mono {p : Prog α} {mid post : μ → α → Prop} (h : B.Ends m t p mid)
    (himp : ∀ m' a, mid m' a → post m' a) : B.Ends m t p post := by
  intro s hm ht
  obtain ⟨s',a,hrun,ht',hmid⟩ := h s hm ht
  exact ⟨s',a,hrun,ht',himp _ a hmid⟩

private theorem ends_ask {r : Request} (hr : r.isLocal) {next : r.Ans → Prog α}
    {post : μ → α → Prop}
    (h : ∀ s, B.page s = m → B.rest s = t →
      B.Ends (if r.isWrite then B.write m r else m) t (next (B.exec s r).2) post) :
    B.Ends m t (ask r next) post := by
  intro s hm ht
  apply h s hm ht (B.exec s r).1
  · rw [B.page_exec s r hr,hm]
  · rw [B.rest_exec s r hr,ht]

theorem ends_getAll {st : Store} {next : List st.Rec → Prog α} {post : μ → α → Prop}
    (h : ∀ l, B.listed t st ((B.db m).store st).rows l → B.Ends m t (next l) post) :
    B.Ends m t (ask (.idbGetAll st) next) post := by
  apply ends_ask rfl
  intro s hm ht
  apply h
  rw [← hm,← ht]
  exact B.getAll s st

theorem ends_vaultGet {c : Cell} {next : Option c.Val → Prog α} {post : μ → α → Prop}
    (h : B.Ends m t (next ((B.db m).cell c)) post) : B.Ends m t (ask (.vaultGet c) next) post := by
  apply ends_ask rfl
  intro s hm ht
  rw [B.vaultGet,hm]
  exact h

theorem ends_dateNow {next : Nat → Prog α} {post : μ → α → Prop}
    (h : ∀ now, B.Ends m t (next now) post) : B.Ends m t (ask .dateNow next) post := by
  apply ends_ask rfl
  intro s hm ht
  exact h _

theorem ends_write {r : Request} (hr : r.isWrite) {next : r.Ans → Prog α} {post : μ → α → Prop}
    (h : ∀ x, B.Ends (B.write m r) t (next x) post) : B.Ends m t (ask r next) post := by
  have hlocal : r.isLocal := by cases r <;> simp_all [Request.isLocal,Request.isWrite]
  apply ends_ask hlocal
  intro s hm ht
  rw [if_pos hr]
  exact h _

end Browser

def LocalDb.document (db : LocalDb) (hosts : List Host) (keys : List StoredKey)
    (pins : List PinnedHostKey) (updatedAt : Nat) : VaultDocument where
  hosts := hosts.insertionSort (fun a b => b.createdAt ≤ a.createdAt)
  keys := (keys.insertionSort (fun a b => a.createdAt ≤ b.createdAt)).filterMap toSyncedKey
  hostKeys := pins
  snippets := (db.snippets.getD (Table.empty _)).rows.insertionSort
    (fun a b => b.updatedAt ≤ a.updatedAt)
  tombstones := db.tombstones.getD (Table.empty _)
  updatedAt := updatedAt

variable {σ μ τ : Type} {B : Browser σ μ τ} {m : μ} {t : τ}

theorem ends_readLocalVault : B.Ends m t readLocalVault (fun m' ours => m' = m ∧
    ∃ hosts keys pins now, ours = (B.db m).document hosts keys pins now ∧
      B.listed t .hosts (B.db m).hosts.rows hosts ∧ B.listed t .keys (B.db m).keys.rows keys ∧
      B.listed t .hostkeys (B.db m).hostkeys.rows pins) := by
  simp only [readLocalVault,listHosts,listStoredKeys,listPins,listSnippets,readMap,getTombstones,
    query,bind_eq,pure_eq,request_bind,ask_bind,done_bind]
  apply Browser.ends_getAll
  intro hosts hhosts
  apply Browser.ends_getAll
  intro keys hkeys
  apply Browser.ends_getAll
  intro pins hpins
  apply Browser.ends_vaultGet
  apply Browser.ends_vaultGet
  apply Browser.ends_dateNow
  intro now
  apply Browser.ends_done
  exact ⟨rfl,hosts,keys,pins,now,rfl,hhosts,hkeys,hpins⟩

inductive WriteBack
  | put (s : Store) (r : s.Rec)
  | snippet (s : Snippet)
  | tombstones (t : Tombstones)
  | forget (s : Store) (id : RecordId)
  | forgetSnippet (id : RecordId)

namespace WriteBack

def code : WriteBack → Prog Unit
  | .put s r => query (.idbPut s r)
  | .snippet s => putSnippet s
  | .tombstones t => setTombstones t
  | .forget s id => query (.idbDelete s id)
  | .forgetSnippet id => Vault.forgetSnippet id

/-- The request that it comes down to; a snippet that is not there is not dropped. -/
def request (db : LocalDb) : WriteBack → Option Request
  | .put s r => some (.idbPut s r)
  | .snippet s => some (.vaultPut .snippets ((db.snippets.getD (Table.empty _)).put s))
  | .tombstones t => some (.vaultPut .tombstones t)
  | .forget s id => some (.idbDelete s id)
  | .forgetSnippet id =>
    if ((db.snippets.getD (Table.empty _)).get? id).isNone then none
    else some (.vaultPut .snippets ((db.snippets.getD (Table.empty _)).erase id))

end WriteBack

namespace Browser

variable (B)

def wrote (m : μ) (w : WriteBack) : μ :=
  match w.request (B.db m) with
  | some r => B.write m r
  | none => m

variable {B}

theorem ends_writeBack (w : WriteBack) :
    B.Ends m t w.code (fun m' _ => m' = B.wrote m w) := by
  cases w with
  | put s r => exact ends_write rfl (fun _ => ends_done rfl)
  | snippet s =>
    simp only [WriteBack.code,putSnippet,readMap,writeMap,query,bind_eq,pure_eq,request_bind,
      ask_bind,done_bind]
    apply ends_vaultGet
    exact ends_write rfl (fun _ => ends_done rfl)
  | tombstones t => exact ends_write rfl (fun _ => ends_done rfl)
  | forget s id => exact ends_write rfl (fun _ => ends_done rfl)
  | forgetSnippet id =>
    simp only [WriteBack.code,forgetSnippet,readMap,writeMap,query,bind_eq,pure_eq,request_bind,
      ask_bind,done_bind]
    apply ends_vaultGet
    by_cases h : (((B.db m).snippets.getD (Table.empty _)).get? id).isNone = true
    · have hskip : B.wrote m (.forgetSnippet id) = m := by
        simp only [wrote,WriteBack.request,h,if_true]
      simp only [LocalDb.cell,h,if_true]
      exact ends_done hskip.symm
    · have hdrop : B.wrote m (.forgetSnippet id) = B.write m
          (.vaultPut .snippets (((B.db m).snippets.getD (Table.empty _)).erase id)) := by
        simp only [wrote,WriteBack.request,h]
        rfl
      simp only [LocalDb.cell,h]
      exact ends_write rfl (fun _ => ends_done hdrop.symm)

theorem ends_writeBacks (ws : List WriteBack) :
    B.Ends m t (forEach WriteBack.code ws) (fun m' _ => m' = ws.foldl B.wrote m) := by
  induction ws generalizing m with
  | nil => exact ends_done rfl
  | cons w ws ih =>
    apply (ends_writeBack w).bind
    rintro m' - rfl
    exact ih

end Browser

def writesBack (merged previous : VaultDocument) : List WriteBack :=
  merged.hosts.map (.put .hosts) ++ merged.keys.map (fun key => .put .keys (fromSyncedKey key)) ++
  merged.hostKeys.map (.put .hostkeys) ++ merged.snippets.map .snippet ++
  [.tombstones merged.tombstones] ++
  (deletedIds Host.id previous.hosts merged.hosts).map (.forget .hosts) ++
  (deletedIds SyncedKey.id previous.keys merged.keys).map (.forget .keys) ++
  (deletedIds PinnedHostKey.id previous.hostKeys merged.hostKeys).map (.forget .hostkeys) ++
  (deletedIds Snippet.id previous.snippets merged.snippets).map .forgetSnippet

theorem applyVaultLocally_eq (merged previous : VaultDocument) :
    applyVaultLocally merged previous = forEach WriteBack.code (writesBack merged previous) := by
  have hone : forEach WriteBack.code [.tombstones merged.tombstones] =
      (setTombstones merged.tombstones).bind (fun _ => done ()) := rfl
  have hunit : ∀ p : Prog Unit, p.bind (fun _ => done ()) = p := by
    intro p
    induction p with
    | done a => rfl
    | fail e => rfl
    | ask r next ih => simp only [ask_bind,ih]
  simp only [applyVaultLocally,writesBack,removeDeleted,forEach_append,forEach_map,hone,hunit,
    bind_eq,Program.bind_assoc]
  rfl

end WeirdVault.Vault
