import Mathlib.Data.List.Count
import WeirdVault.Vault.Alone
import WeirdVault.Vault.Demo

/-! # What a restore does to a device, and what it says of it -/

namespace WeirdVault.Vault

open WeirdVault.Framework Program

def WriteBack.store? : WriteBack → Option Store
  | .put s _ => some s
  | .forget s _ => some s
  | _ => none

def WriteBack.ofSnippets : WriteBack → Bool
  | .snippet _ => true
  | .forgetSnippet _ => true
  | _ => false

namespace LocalDb

def snippetMap (db : LocalDb) : SnippetMap := db.snippets.getD (Table.empty _)

def wrote (db : LocalDb) (w : WriteBack) : LocalDb :=
  match w.request db with
  | some r => db.apply r
  | none => db

variable (db : LocalDb)

@[simp] theorem setStore_store (s : Store) : db.setStore s (db.store s) = db := by
  cases s <;> rfl

@[simp] theorem setStore_setStore (s : Store) (t u : Table s.id) :
    (db.setStore s t).setStore s u = db.setStore s u := by
  cases s <;> rfl

@[simp] theorem snippetMap_setStore (s : Store) (t : Table s.id) :
    (db.setStore s t).snippetMap = db.snippetMap := by
  cases s <;> rfl

private theorem wrote_puts (s : Store) (rs : List s.Rec) :
    (rs.map (WriteBack.put s)).foldl wrote db = db.setStore s ((db.store s).putAll rs) := by
  induction rs generalizing db with
  | nil => simp
  | cons r rs ih =>
    rw [List.map_cons,List.foldl_cons,ih]
    simp [wrote,WriteBack.request,apply]

private theorem wrote_forgets (s : Store) (ids : List RecordId) :
    (ids.map (WriteBack.forget s)).foldl wrote db = db.setStore s ((db.store s).eraseAll ids) := by
  induction ids generalizing db with
  | nil => simp
  | cons i ids ih =>
    rw [List.map_cons,List.foldl_cons,ih]
    simp [wrote,WriteBack.request,apply]

private theorem wrote_snippets (rs : List Snippet) :
    ((rs.map WriteBack.snippet).foldl wrote db).snippetMap = db.snippetMap.putAll rs := by
  induction rs generalizing db with
  | nil => rfl
  | cons r rs ih => exact ih (db.wrote (.snippet r))

private theorem wrote_forgetSnippet (i : RecordId) :
    (db.wrote (.forgetSnippet i)).snippetMap = db.snippetMap.erase i := by
  by_cases hnone : (db.snippetMap.get? i).isNone = true
  · have hget : ((db.snippets.getD (Table.empty _)).get? i).isNone = true := hnone
    rw [Table.erase_eq_self (Option.isNone_iff_eq_none.mp hnone)]
    simp only [wrote,WriteBack.request,hget,if_true]
  · have hget : ¬ ((db.snippets.getD (Table.empty _)).get? i).isNone = true := hnone
    simp only [wrote,WriteBack.request,hget]
    rfl

private theorem wrote_forgetSnippets (ids : List RecordId) :
    ((ids.map WriteBack.forgetSnippet).foldl wrote db).snippetMap = db.snippetMap.eraseAll ids := by
  induction ids generalizing db with
  | nil => rfl
  | cons i ids ih => rw [List.map_cons,List.foldl_cons,ih,wrote_forgetSnippet,Table.eraseAll_cons]

private theorem store_wrote {s : Store} {w : WriteBack} (h : w.store? ≠ some s) :
    (db.wrote w).store s = db.store s := by
  cases w with
  | put s' r => exact store_setStore_of_ne db _ (fun he => h (by rw [he]; rfl))
  | forget s' i => exact store_setStore_of_ne db _ (fun he => h (by rw [he]; rfl))
  | snippet r => exact store_setCell db .snippets _ s
  | tombstones t => exact store_setCell db .tombstones _ s
  | forgetSnippet i =>
    simp only [wrote,WriteBack.request]
    split
    · next r hr =>
      split at hr
      · cases hr
      · rw [← Option.some.inj hr]
        exact store_setCell db .snippets _ s
    · rfl

private theorem store_congr {db db' : LocalDb} {s : Store} (h : db.store s = db'.store s)
    (w : WriteBack) : (db.wrote w).store s = (db'.wrote w).store s := by
  by_cases hw : w.store? = some s
  · cases w with
    | put s' r =>
      obtain rfl := Option.some.inj hw
      simp only [wrote,WriteBack.request,apply,store_setStore_self,h]
    | forget s' i =>
      obtain rfl := Option.some.inj hw
      simp only [wrote,WriteBack.request,apply,store_setStore_self,h]
    | _ => cases hw
  · rw [store_wrote db hw,store_wrote db' hw,h]

private theorem store_filter {db db' : LocalDb} {s : Store} (h : db.store s = db'.store s)
    (ws : List WriteBack) : (ws.foldl wrote db).store s =
      ((ws.filter (fun w => w.store? = some s)).foldl wrote db').store s := by
  induction ws generalizing db db' with
  | nil => exact h
  | cons w ws ih =>
    by_cases hw : w.store? = some s
    · rw [List.filter_cons_of_pos (by simpa using hw),List.foldl_cons,List.foldl_cons]
      exact ih (store_congr h w)
    · rw [List.filter_cons_of_neg (by simpa using hw),List.foldl_cons]
      exact ih ((store_wrote db hw).trans h)

private theorem store_puts_forgets (s : Store) (rs : List s.Rec) (ids : List RecordId) :
    ((rs.map (WriteBack.put s) ++ ids.map (WriteBack.forget s)).foldl wrote db).store s =
      ((db.store s).putAll rs).eraseAll ids := by
  rw [List.foldl_append,wrote_forgets,store_setStore_self,wrote_puts,store_setStore_self]

private theorem snippetMap_wrote {w : WriteBack} (h : w.ofSnippets = false) :
    (db.wrote w).snippetMap = db.snippetMap := by
  cases w with
  | put s r => exact snippetMap_setStore db s _
  | forget s i => exact snippetMap_setStore db s _
  | tombstones t => rfl
  | snippet r => cases h
  | forgetSnippet i => cases h

private theorem snippetMap_congr {db db' : LocalDb} (h : db.snippetMap = db'.snippetMap)
    (w : WriteBack) : (db.wrote w).snippetMap = (db'.wrote w).snippetMap := by
  cases w with
  | snippet r => exact congrArg (fun m => Table.put m r) h
  | forgetSnippet i => rw [wrote_forgetSnippet,wrote_forgetSnippet,h]
  | _ => rw [snippetMap_wrote db rfl,snippetMap_wrote db' rfl,h]

private theorem snippetMap_filter {db db' : LocalDb} (h : db.snippetMap = db'.snippetMap)
    (ws : List WriteBack) : (ws.foldl wrote db).snippetMap =
      ((ws.filter WriteBack.ofSnippets).foldl wrote db').snippetMap := by
  induction ws generalizing db db' with
  | nil => exact h
  | cons w ws ih =>
    by_cases hw : w.ofSnippets = true
    · rw [List.filter_cons_of_pos hw,List.foldl_cons,List.foldl_cons]
      exact ih (snippetMap_congr h w)
    · rw [List.filter_cons_of_neg hw,List.foldl_cons]
      exact ih ((snippetMap_wrote db (by simpa using hw)).trans h)

def mergedBack (merged previous : VaultDocument) : LocalDb :=
  (writesBack merged previous).foldl wrote db

variable (merged previous : VaultDocument)

private theorem store_mergedBack (s : Store) {rs : List s.Rec} {ids : List RecordId}
    (h : (writesBack merged previous).filter (fun w => w.store? = some s) =
      rs.map (.put s) ++ ids.map (.forget s)) :
    (db.mergedBack merged previous).store s = ((db.store s).putAll rs).eraseAll ids := by
  have hfilter : (db.mergedBack merged previous).store s = _ := store_filter rfl _
  rw [hfilter,h]
  exact store_puts_forgets db s rs ids

private theorem hosts_mergedBack : (db.mergedBack merged previous).hosts =
    (db.hosts.putAll merged.hosts).eraseAll (deletedIds Host.id previous.hosts merged.hosts) := by
  apply db.store_mergedBack merged previous .hosts
  simp [writesBack,List.filter_map,Function.comp_def,WriteBack.store?]

private theorem keys_mergedBack : (db.mergedBack merged previous).keys =
    (db.keys.putAll (merged.keys.map fromSyncedKey)).eraseAll
      (deletedIds SyncedKey.id previous.keys merged.keys) := by
  apply db.store_mergedBack merged previous .keys
  simp [writesBack,List.filter_map,Function.comp_def,WriteBack.store?]

private theorem hostkeys_mergedBack : (db.mergedBack merged previous).hostkeys =
    (db.hostkeys.putAll merged.hostKeys).eraseAll
      (deletedIds PinnedHostKey.id previous.hostKeys merged.hostKeys) := by
  apply db.store_mergedBack merged previous .hostkeys
  simp [writesBack,List.filter_map,Function.comp_def,WriteBack.store?]

private theorem snippetMap_mergedBack : (db.mergedBack merged previous).snippetMap =
    (db.snippetMap.putAll merged.snippets).eraseAll
      (deletedIds Snippet.id previous.snippets merged.snippets) := by
  have hfilter : (db.mergedBack merged previous).snippetMap = _ := snippetMap_filter rfl _
  have hwrites : (writesBack merged previous).filter WriteBack.ofSnippets =
      merged.snippets.map .snippet ++
        (deletedIds Snippet.id previous.snippets merged.snippets).map .forgetSnippet := by
    simp [writesBack,List.filter_map,Function.comp_def,WriteBack.ofSnippets]
  rw [hfilter,hwrites,List.foldl_append,wrote_forgetSnippets,wrote_snippets]

end LocalDb

/-- The record of a kind that the device holds; a device-bound key is none. -/
def LocalDb.stored (db : LocalDb) : (k : Kind) → RecordId → Option k.Rec
  | .hosts,i => db.hosts.get? i
  | .keys,i => (db.keys.get? i).bind toSyncedKey
  | .hostKeys,i => db.hostkeys.get? i
  | .snippets,i => db.snippetMap.get? i

section View

variable {τ ρ : Type} {key : ρ → RecordId} {id : τ → RecordId} {t : Table key} {ours merged : List τ}

private theorem view_mergedBack (view : ρ → Option τ) (back : τ → ρ)
    (hview : ∀ r x, view r = some x → key r = id x) (hback : ∀ x, view (back x) = some x)
    (hours : ∀ x, x ∈ ours ↔ ∃ r ∈ t.rows, view r = some x)
    (hn : (merged.map id).Nodup) (i : RecordId) (x : τ) :
    (((t.putAll (merged.map back)).eraseAll (deletedIds id ours merged)).get? i).bind view = some x ↔
      x ∈ merged ∧ id x = i := by
  have hkeys : ∀ y, key (back y) = id y := fun y => hview _ _ (hback y)
  have hdeleted : ∀ j, j ∈ deletedIds id ours merged ↔ j ∈ ours.map id ∧ j ∉ merged.map id := by
    simp [deletedIds]
  rw [Table.get?_eraseAll]
  by_cases hmem : i ∈ merged.map id
  · obtain ⟨y,hy,rfl⟩ := List.mem_map.mp hmem
    have hback' : ((merged.map back).map key).Nodup := by
      simpa [Function.comp_def,hkeys] using hn
    have hget := Table.get?_putAll_of_mem t (merged.map back) hback' (List.mem_map_of_mem hy)
    rw [hkeys] at hget
    rw [if_neg (fun h => ((hdeleted _).mp h).2 hmem),hget,Option.bind_some,hback]
    constructor
    · intro h
      obtain rfl := Option.some.inj h
      exact ⟨hy,rfl⟩
    · rintro ⟨hx,hid⟩
      rw [List.inj_on_of_nodup_map hn hx hy hid]
  · have hnone : ¬ (x ∈ merged ∧ id x = i) := by
      rintro ⟨hx,rfl⟩
      exact hmem (List.mem_map_of_mem hx)
    refine iff_of_false ?_ hnone
    intro h
    split at h
    · cases h
    · next hkept =>
      have hput : (t.putAll (merged.map back)).get? i = t.get? i := by
        apply Table.get?_putAll_of_notMem
        intro r hr hri
        obtain ⟨y,hy,rfl⟩ := List.mem_map.mp hr
        exact hmem (by rw [← hri,hkeys]; exact List.mem_map_of_mem hy)
      rw [hput] at h
      obtain ⟨r,hr,hrx⟩ := Option.bind_eq_some_iff.mp h
      apply hkept
      rw [hdeleted]
      refine ⟨?_,hmem⟩
      rw [← Table.key_of_get? hr,hview r x hrx]
      exact List.mem_map_of_mem ((hours x).mpr ⟨r,Table.mem_of_get? hr,hrx⟩)

private theorem table_mergedBack {t : Table id} (hours : ours.Perm t.rows) (hn : (merged.map id).Nodup)
    (i : RecordId) (x : τ) :
    ((t.putAll merged).eraseAll (deletedIds id ours merged)).get? i = some x ↔
      x ∈ merged ∧ id x = i := by
  have hmem : ∀ x, x ∈ ours ↔ ∃ r ∈ t.rows, some r = some x := by
    simp [hours.mem_iff]
  have hview : ∀ r x, some r = some x → id r = id x := by
    intro r x hx
    rw [Option.some.inj hx]
  simpa using view_mergedBack some (fun x => x) hview (fun _ => rfl) hmem hn i x

end View

structure LocalDb.ReadsAs (db : LocalDb) (ours : VaultDocument) : Prop where
  hosts : ours.hosts.Perm db.hosts.rows
  keys : ∀ x, x ∈ ours.keys ↔ ∃ r ∈ db.keys.rows, toSyncedKey r = some x
  hostKeys : ours.hostKeys.Perm db.hostkeys.rows
  snippets : ours.snippets.Perm db.snippetMap.rows
  tombstones : ours.tombstones = db.tombstones.getD (Table.empty _)

private theorem readsAs_document {db : LocalDb} {hosts : List Host} {keys : List StoredKey}
    {pins : List PinnedHostKey} {now : Nat} (hhosts : hosts.Perm db.hosts.rows)
    (hkeys : keys.Perm db.keys.rows) (hpins : pins.Perm db.hostkeys.rows) :
    db.ReadsAs (db.document hosts keys pins now) where
  hosts := (List.perm_insertionSort _ _).trans hhosts
  keys := by
    intro x
    simp only [LocalDb.document,List.mem_filterMap,List.mem_insertionSort,hkeys.mem_iff]
  hostKeys := hpins
  snippets := List.perm_insertionSort _ _
  tombstones := rfl

private theorem toSyncedKey_id {r : StoredKey} {x : SyncedKey} (h : toSyncedKey r = some x) :
    r.id = x.id := by
  unfold toSyncedKey at h
  split at h
  · rw [← Option.some.inj h]
  · cases h

private theorem nodup_merged (ours file : VaultDocument) (k : Kind) :
    (((mergeVault ours file).records k).map k.id).Nodup := by
  rw [records_mergeVault]
  exact nodup_mergeById

theorem stored_mergedBack {db : LocalDb} {ours file : VaultDocument} (h : db.ReadsAs ours) (k : Kind)
    (i : RecordId) (x : k.Rec) :
    (db.mergedBack (mergeVault ours file) ours).stored k i = some x ↔
      x ∈ (mergeVault ours file).records k ∧ k.id x = i := by
  have hn := nodup_merged ours file k
  cases k with
  | hosts =>
    rw [LocalDb.stored,LocalDb.hosts_mergedBack]
    exact table_mergedBack h.hosts hn i x
  | keys =>
    rw [LocalDb.stored,LocalDb.keys_mergedBack]
    exact view_mergedBack toSyncedKey fromSyncedKey (fun r x => toSyncedKey_id)
      toSyncedKey_fromSyncedKey h.keys hn i x
  | hostKeys =>
    rw [LocalDb.stored,LocalDb.hostkeys_mergedBack]
    exact table_mergedBack h.hostKeys hn i x
  | snippets =>
    rw [LocalDb.stored,LocalDb.snippetMap_mergedBack]
    exact table_mergedBack h.snippets hn i x

private theorem stored_iff {db : LocalDb} {ours : VaultDocument} (h : db.ReadsAs ours) (k : Kind)
    (i : RecordId) (x : k.Rec) :
    db.stored k i = some x ↔ x ∈ ours.records k ∧ k.id x = i := by
  cases k with
  | hosts => exact Table.get?_eq_some_iff.trans (and_congr_left' h.hosts.mem_iff.symm)
  | keys =>
    simp only [LocalDb.stored,Option.bind_eq_some_iff,Table.get?_eq_some_iff]
    constructor
    · rintro ⟨r,⟨hr,hid⟩,hx⟩
      exact ⟨(h.keys x).mpr ⟨r,hr,hx⟩,(toSyncedKey_id hx).symm.trans hid⟩
    · rintro ⟨hx,hid⟩
      obtain ⟨r,hr,hrx⟩ := (h.keys x).mp hx
      exact ⟨r,⟨hr,(toSyncedKey_id hrx).trans hid⟩,hrx⟩
  | hostKeys => exact Table.get?_eq_some_iff.trans (and_congr_left' h.hostKeys.mem_iff.symm)
  | snippets => exact Table.get?_eq_some_iff.trans (and_congr_left' h.snippets.mem_iff.symm)

section Counting

variable {τ : Type} {id : τ → RecordId} {stamp : τ → Nat} {ours merged : List τ}

private theorem lookup_eq {items : List τ} {i : RecordId} {found : Option τ}
    (h : ∀ x, found = some x ↔ x ∈ items ∧ id x = i) : lookup id items i = found := by
  have hmem : ∀ x ∈ ((Table.empty id).putAll items).rows, x ∈ items := by
    intro x hx
    rcases Table.mem_rows_putAll hx with hx | ⟨hx,-⟩
    · exact hx
    · cases hx
  cases hlookup : lookup id items i with
  | some x =>
    exact ((h x).mpr ⟨hmem x (Table.mem_of_get? hlookup),Table.key_of_get? hlookup⟩).symm
  | none =>
    cases found with
    | none => rfl
    | some x =>
      obtain ⟨hx,hid⟩ := (h x).mp rfl
      have hkey := (Table.mem_keys_putAll (Table.empty id) items i).mpr
        (.inr (hid ▸ List.mem_map_of_mem hx))
      obtain ⟨y,hy,hyi⟩ := List.mem_map.mp hkey
      exact absurd hyi (Table.get?_eq_none_iff.mp hlookup y hy)

def newer (stamp : τ → Nat) : Option τ → Option τ → Bool
  | some here,some now => stamp here < stamp now
  | _,_ => false

def RestoreCount.of (id : τ → RecordId) (stamp : τ → Nat) (before after : RecordId → Option τ)
    (imported : List τ) : RestoreCount where
  inFile := imported.length
  added := imported.countP (fun r => (before (id r)).isNone && (after (id r)).isSome)
  updated := imported.countP (fun r => newer stamp (before (id r)) (after (id r)))
  blockedByDelete := imported.countP (fun r => (after (id r)).isNone)

private theorem countAgainst_eq (imported : List τ) : countAgainst id stamp ours merged imported =
    .of id stamp (lookup id ours) (lookup id merged) imported := by
  have hfold : ∀ (l : List τ) (c : RestoreCount),
      l.foldl (fun c item => countOne id stamp ours merged item c) c =
        { inFile := c.inFile
          added := c.added+(RestoreCount.of id stamp (lookup id ours) (lookup id merged) l).added
          updated := c.updated+(RestoreCount.of id stamp (lookup id ours) (lookup id merged) l).updated
          blockedByDelete := c.blockedByDelete+
            (RestoreCount.of id stamp (lookup id ours) (lookup id merged) l).blockedByDelete } := by
    intro l
    induction l with
    | nil => exact fun c => rfl
    | cons x l ih =>
      intro c
      rw [List.foldl_cons,ih]
      simp only [RestoreCount.of,List.countP_cons,countOne]
      cases hafter : lookup id merged (id x) with
      | none => simp [newer]; omega
      | some winner =>
        cases hbefore : lookup id ours (id x) with
        | none => simp [newer]; omega
        | some here =>
          by_cases hlt : stamp here < stamp winner
          · simp [newer,hlt]; omega
          · simp [newer,hlt]
  rw [countAgainst,hfold]
  simp [RestoreCount.of]

end Counting

def RestoreResult.count (r : RestoreResult) : Kind → RestoreCount
  | .hosts => r.hosts
  | .keys => r.keys
  | .hostKeys => r.hostKeys
  | .snippets => r.snippets

def Covers (t : Tombstones) (i : RecordId) (stamp : Nat) : Prop :=
  ∃ at', (i,at') ∈ t.rows ∧ stamp ≤ at'

/-- What the result of a restore says of one kind, and what it does not say. -/
structure Reports (k : Kind) (before after : LocalDb) (file : VaultDocument) (c : RestoreCount) :
    Prop where
  inFile : c.inFile = (file.records k).length
  added : c.added = (file.records k).countP (fun r =>
    (before.stored k (k.id r)).isNone && (after.stored k (k.id r)).isSome)
  updated : c.updated = (file.records k).countP (fun r =>
    newer k.stamp (before.stored k (k.id r)) (after.stored k (k.id r)))
  blockedByDelete : c.blockedByDelete = (file.records k).countP (fun r =>
    (after.stored k (k.id r)).isNone)
  /-- Only a record of the file that is not older replaces a record. -/
  replaced : ∀ i here now, before.stored k i = some here → after.stored k i = some now →
    now = here ∨ now ∈ file.records k ∧ k.stamp here ≤ k.stamp now
  /-- Whatever the file does not have stays, unless it was deleted. -/
  others : ∀ i here, before.stored k i = some here → (∀ r ∈ file.records k, k.id r ≠ i) →
    after.stored k i = some here ∨ after.stored k i = none ∧
      (Covers file.tombstones i (k.stamp here) ∨
        Covers (before.tombstones.getD (Table.empty _)) i (k.stamp here))

private theorem merge_accounts {ours file : VaultDocument} {k : Kind} {here : k.Rec}
    (h : here ∈ ours.records k) :
    (∃ x ∈ (mergeVault ours file).records k, k.id x = k.id here ∧ k.stamp here ≤ k.stamp x) ∨
      Covers (mergeTombstones ours.tombstones file.tombstones) (k.id here) (k.stamp here) := by
  rw [records_mergeVault]
  exact (mergeById_accounts (.inl h)).imp_right fun hdead => ⟨_,hdead⟩

private theorem stamp_le_merged {ours file : VaultDocument} {k : Kind} {here now : k.Rec}
    (hn : (((mergeVault ours file).records k).map k.id).Nodup) (hhere : here ∈ ours.records k)
    (hnow : now ∈ (mergeVault ours file).records k) (hid : k.id now = k.id here) :
    k.stamp here ≤ k.stamp now := by
  have hmem := hnow
  rw [records_mergeVault] at hnow
  have hsurvives := (mem_mergeById hnow).2
  rcases merge_accounts hhere with ⟨x,hx,hxid,hle⟩ | ⟨at',hat,hle⟩
  · rwa [List.inj_on_of_nodup_map hn hmem hx (hid.trans hxid.symm)]
  · have hdeleted := deletedAt_of_mem hat
    simp only [survives,hid,hdeleted,Bool.or_eq_true,beq_iff_eq,decide_eq_true_eq] at hsurvives
    omega

private theorem reports_merge {db : LocalDb} {ours file : VaultDocument} (h : db.ReadsAs ours)
    (k : Kind) : Reports k db (db.mergedBack (mergeVault ours file) ours) file
      (countAgainst k.id k.stamp (ours.records k) ((mergeVault ours file).records k)
        (file.records k)) := by
  have hbefore : lookup k.id (ours.records k) = db.stored k :=
    funext fun i => lookup_eq (stored_iff h k i)
  have hafter : lookup k.id ((mergeVault ours file).records k) =
      (db.mergedBack (mergeVault ours file) ours).stored k :=
    funext fun i => lookup_eq (stored_mergedBack h k i)
  have hn := nodup_merged ours file k
  have hunique : ∀ x ∈ ours.records k, ∀ y ∈ ours.records k, k.id x = k.id y → x = y := by
    intro x hx y hy hid
    have hx' := (stored_iff h k (k.id x) x).mpr ⟨hx,rfl⟩
    have hy' := (stored_iff h k (k.id x) y).mpr ⟨hy,hid.symm⟩
    exact Option.some.inj (hx'.symm.trans hy')
  have hours : ∀ x ∈ (mergeVault ours file).records k, x ∈ ours.records k ∨ x ∈ file.records k := by
    intro x hx
    rw [records_mergeVault] at hx
    exact (mem_mergeById hx).1
  rw [countAgainst_eq,hbefore,hafter]
  refine ⟨rfl,rfl,rfl,rfl,?_,?_⟩
  · intro i here now hhere hnow
    obtain ⟨hour,rfl⟩ := (stored_iff h k i here).mp hhere
    obtain ⟨hmerged,hid⟩ := (stored_mergedBack h k _ now).mp hnow
    rcases hours now hmerged with hnow' | hfile
    · exact .inl (hunique now hnow' here hour hid)
    · exact .inr ⟨hfile,stamp_le_merged hn hour hmerged hid⟩
  · intro i here hhere hfile
    obtain ⟨hour,rfl⟩ := (stored_iff h k i here).mp hhere
    have hsame : ∀ x ∈ (mergeVault ours file).records k, k.id x = k.id here → x = here := by
      intro x hx hid
      rcases hours x hx with hx' | hx'
      · exact hunique x hx' here hour hid
      · exact absurd hid (hfile x hx')
    cases hstored : (db.mergedBack (mergeVault ours file) ours).stored k (k.id here) with
    | some x =>
      obtain ⟨hx,hid⟩ := (stored_mergedBack h k _ x).mp hstored
      exact .inl (congrArg some (hsame x hx hid))
    | none =>
      refine .inr ⟨rfl,?_⟩
      rcases merge_accounts hour with ⟨x,hx,hid,-⟩ | ⟨at',hat,hle⟩
      · have hsome := (stored_mergedBack h k (k.id here) x).mpr ⟨hx,hid⟩
        rw [hstored] at hsome
        cases hsome
      · rcases mem_mergeTombstones hat with hat | hat
        · exact .inr ⟨at',h.tombstones ▸ hat,hle⟩
        · exact .inl ⟨at',hat,hle⟩

private theorem deviceBound_stays {db : LocalDb} {ours file : VaultDocument} (h : db.ReadsAs ours)
    {row : StoredKey} (hrow : row ∈ db.keys.rows) (hbound : toSyncedKey row = none)
    (hfile : ∀ r ∈ file.keys, r.id ≠ row.id) :
    row ∈ (db.mergedBack (mergeVault ours file) ours).keys.rows := by
  have hours : ∀ x ∈ ours.keys, x.id ≠ row.id := by
    intro x hx hid
    obtain ⟨r,hr,hrx⟩ := (h.keys x).mp hx
    have hget := Table.get?_of_mem hr
    rw [toSyncedKey_id hrx,hid,Table.get?_of_mem hrow] at hget
    obtain rfl := Option.some.inj hget
    rw [hbound] at hrx
    cases hrx
  have hmerged : ∀ x ∈ (mergeVault ours file).keys, x.id ≠ row.id := by
    intro x hx
    rcases (mem_mergeById hx).1 with hx | hx
    · exact hours x hx
    · exact hfile x hx
  rw [LocalDb.keys_mergedBack,Table.mem_rows_iff,Table.get?_eraseAll,if_neg,
    Table.get?_putAll_of_notMem,Table.get?_of_mem hrow]
  · intro r hr
    obtain ⟨x,hx,rfl⟩ := List.mem_map.mp hr
    exact hmerged x hx
  · intro hmem
    obtain ⟨x,hx,hid⟩ := List.mem_map.mp (List.mem_filter.mp hmem).1
    exact hours x hx hid

section Run

variable {acc : Account}

private theorem ends_restoreLocally {job : Job} {env : Nat → Env} {db : LocalDb} {t : Server acc} (file : VaultDocument) :
    (deviceBrowser job env).Ends db t (restoreLocally file) (fun db' result => ∃ ours,
      db.ReadsAs ours ∧ db' = db.mergedBack (mergeVault ours file) ours ∧
      ∀ k, result.count k = countAgainst k.id k.stamp (ours.records k)
        ((mergeVault ours file).records k) (file.records k)) := by
  simp only [restoreLocally,bind_eq]
  apply ends_readLocalVault.bind
  rintro db' ours ⟨rfl,hosts,keys,pins,now,rfl,hhosts,hkeys,hpins⟩
  rw [applyVaultLocally_eq]
  apply (Browser.ends_writeBacks _).bind
  rintro db'' - rfl
  apply Browser.ends_done
  refine ⟨_,readsAs_document hhosts hkeys hpins,rfl,?_⟩
  intro k
  cases k with
  | _ => rfl

private theorem restoreVault_eq (key : CryptoKey) (iv : Nat) (file : WireDocument) :
    restoreVault ⟨1,⟨key,iv,file⟩⟩ key = (restoreLocally file.filled).bind fun result =>
      ((syncVault key).bind fun sync => done { result with sync := some sync }).handle fun e =>
        done { result with syncError := some e } := by
  have hopen : VaultEnvelope.open? ⟨1,⟨key,iv,file⟩⟩ key = some file :=
    open?_eq_some.mpr ⟨rfl,rfl,rfl⟩
  simp only [restoreVault,hopen]
  rfl

private theorem run_push (job : Job) (env : Nat → Env) (a : Alone acc) (key : CryptoKey) (result : RestoreResult) :
    ∃ a' final, (((syncVault key).bind fun sync => done { result with sync := some sync }).handle
      fun e => done { result with syncError := some e }).run (Alone.exec job env) a =
        (a',.ok final) ∧ ∀ k, final.count k = result.count k := by
  rw [run_handle,run_bind]
  rcases (syncVault key).run (Alone.exec job env) a with ⟨a',e | sync⟩
  · exact ⟨a',{ result with syncError := some e },rfl,fun k => by cases k <;> rfl⟩
  · exact ⟨a',{ result with sync := some sync },rfl,fun k => by cases k <;> rfl⟩

/-- The counts of a restore describe what its local step did to the device. -/
theorem restore_reports (job : Job) (env : Nat → Env) (a : Alone acc) (key : CryptoKey) (iv : Nat)
    (file : WireDocument) :
    ∃ a' result, (restoreLocally file.filled).run (Alone.exec job env) a = (a',.ok result) ∧
      (∀ k, Reports k (a.state.device job.device) (a'.state.device job.device) file.filled
        (result.count k)) ∧
      (∀ row ∈ (a.state.device job.device).keys.rows, toSyncedKey row = none →
        (∀ r ∈ file.filled.keys, r.id ≠ row.id) →
        row ∈ (a'.state.device job.device).keys.rows) ∧
      ∃ a'' final, (restoreVault ⟨1,⟨key,iv,file⟩⟩ key).run (Alone.exec job env) a =
        (a'',.ok final) ∧ ∀ k, final.count k = result.count k := by
  have hends : (deviceBrowser job env).Ends (a.state.device job.device) a.state.server
      (restoreLocally file.filled) _ := ends_restoreLocally file.filled
  obtain ⟨a',result,hrun,-,ours,hours,hdevice,hcount⟩ := hends a rfl rfl
  have hlocal : (restoreLocally file.filled).run (Alone.exec job env) a = (a',.ok result) := hrun
  have hafter : a'.state.device job.device =
      (a.state.device job.device).mergedBack (mergeVault ours file.filled) ours := hdevice
  obtain ⟨a'',final,hpush,hsame⟩ := run_push job env a' key result
  refine ⟨a',result,hlocal,?_,?_,a'',final,?_,hsame⟩
  · intro k
    rw [hcount k,hafter]
    exact reports_merge hours k
  · intro row hrow hbound hfile
    rw [hafter]
    exact deviceBound_stays hours hrow hbound hfile
  · rw [restoreVault_eq,run_bind_ok _ hlocal]
    exact hpush

end Run

instance Kind.decEq : (k : Kind) → DecidableEq k.Rec
  | .hosts => inferInstanceAs (DecidableEq Host)
  | .keys => inferInstanceAs (DecidableEq SyncedKey)
  | .hostKeys => inferInstanceAs (DecidableEq PinnedHostKey)
  | .snippets => inferInstanceAs (DecidableEq Snippet)

/-- The same with every replacement counted, and with no deletion but those of the file. -/
structure CountsEveryChange (k : Kind) (before after : LocalDb) (file : VaultDocument)
    (c : RestoreCount) : Prop where
  inFile : c.inFile = (file.records k).length
  added : c.added = ((file.records k).map k.id).dedup.countP (fun i =>
    (before.stored k i).isNone && (after.stored k i).isSome)
  updated : c.updated = ((file.records k).map k.id).dedup.countP (fun i =>
    (before.stored k i).isSome && (after.stored k i).isSome && before.stored k i ≠ after.stored k i)
  blockedByDelete : c.blockedByDelete = ((file.records k).map k.id).dedup.countP (fun i =>
    (after.stored k i).isNone)
  others : ∀ i here, before.stored k i = some here → (∀ r ∈ file.records k, k.id r ≠ i) →
    after.stored k i = some here ∨ Covers file.tombstones i (k.stamp here)

private def tied : Alone demoAccount :=
  ⟨demoState (fun _ => { LocalDb.fresh with hosts := (Table.empty _).put (demoHost 1 "old" 5) }) none,0⟩

private def tiedFile : WireDocument :=
  ({ emptyDoc with hosts := [demoHost 1 "new" 5] } : VaultDocument).toWire

private def tiedExec : Alone demoAccount → (r : Request) → Alone demoAccount × r.Ans :=
  Alone.exec (.sync 0 (demoKey "a")) (fun _ => demoEnv)

/-- Of two copies with one stamp the file's replaces the device's, and nothing counts it. -/
theorem tied_host_uncounted :
    ¬ ∀ (a : Alone demoAccount) (file : WireDocument) (a' : Alone demoAccount)
      (result : RestoreResult),
      (restoreLocally file.filled).run tiedExec a = (a',.ok result) →
      ∀ k, CountsEveryChange k (a.state.device 0) (a'.state.device 0) file.filled
        (result.count k) := by
  intro h
  have hrun : (restoreLocally tiedFile.filled).run tiedExec tied =
      (((restoreLocally tiedFile.filled).run tiedExec tied).1,
        .ok ⟨⟨1,0,0,0⟩,⟨0,0,0,0⟩,⟨0,0,0,0⟩,⟨0,0,0,0⟩,none,none⟩) := rfl
  have hcount := (h tied tiedFile _ _ hrun .hosts).updated
  revert hcount
  decide +kernel

end WeirdVault.Vault
