import Mathlib.Data.Nat.Basic
import WeirdVault.Framework.Newest
import WeirdVault.Vault.Records

/-!
# Merging

`mergeById` and `mergeVault`, what a cycle publishes of a merge, and the comparison that decides
whether it publishes at all.
-/

namespace WeirdVault.Vault

open WeirdVault.Framework

section MergeById

variable {τ : Type} (id : τ → RecordId) (stamp : τ → Nat)

def survives (tombstones : Tombstones) (item : τ) : Bool :=
  deletedAt tombstones (id item) == 0 || deletedAt tombstones (id item) < stamp item

def mergeById (ours remote : List τ) (tombstones : Tombstones) : List τ :=
  ((Table.empty id).keepAll stamp (remote ++ ours)).rows.filter (survives id stamp tombstones)

end MergeById

def mergeTombstones (ours remote : Tombstones) : Tombstones :=
  ours.rows.foldl (fun t e => t.put (e.1,max (deletedAt t e.1) e.2)) remote

def mergeVault (ours remote : VaultDocument) : VaultDocument :=
  let tombstones := mergeTombstones ours.tombstones remote.tombstones
  { hosts := mergeById Host.id hostStamp ours.hosts remote.hosts tombstones
    keys := mergeById SyncedKey.id SyncedKey.createdAt ours.keys remote.keys tombstones
    hostKeys := mergeById PinnedHostKey.id PinnedHostKey.pinnedAt ours.hostKeys remote.hostKeys
      tombstones
    snippets := mergeById Snippet.id Snippet.updatedAt ours.snippets remote.snippets tombstones
    tombstones := tombstones
    updatedAt := max ours.updatedAt remote.updatedAt }

def toSyncedKey (rec : StoredKey) : Option SyncedKey :=
  match rec.mode,rec.wrapped with
  | .portable,some wrapped => some ⟨rec.id,rec.label,rec.publicKeyRaw,wrapped,rec.createdAt⟩
  | _,_ => none

def fromSyncedKey (k : SyncedKey) : StoredKey :=
  ⟨k.id,k.label,.portable,k.publicKeyRaw,some k.wrapped,none,k.createdAt⟩

def opensWith (key : SyncedKey) (vaultKey : CryptoKey) : Bool :=
  (key.wrapped.decrypt? vaultKey).isSome

/-- A key is published when the server holds it already or when it opens. -/
def publishes (vaultKey : CryptoKey) (remote : VaultDocument) (key : SyncedKey) : Bool :=
  remote.keys.any (fun k => k.id == key.id) || opensWith key vaultKey

def outgoing (vaultKey : CryptoKey) (merged remote : VaultDocument) : VaultDocument :=
  { merged with keys := merged.keys.filter (publishes vaultKey remote) }

def keysWithheld (vaultKey : CryptoKey) (merged remote : VaultDocument) : Nat :=
  (merged.keys.filter (fun k => !publishes vaultKey remote k)).length

def sameRecords (a b : VaultDocument) : Bool :=
  a.hosts == b.hosts && a.keys == b.keys && a.hostKeys == b.hostKeys && a.snippets == b.snippets &&
    a.tombstones == b.tombstones

theorem sameRecords_iff {a b : VaultDocument} :
    sameRecords a b = true ↔ (∀ k, a.records k = b.records k) ∧ a.tombstones = b.tombstones := by
  simp only [sameRecords,Bool.and_eq_true,beq_iff_eq]
  constructor
  · intro h
    refine ⟨?_,h.2⟩
    intro k
    cases k with
    | hosts => exact h.1.1.1.1
    | keys => exact h.1.1.1.2
    | hostKeys => exact h.1.1.2
    | snippets => exact h.1.2
  · intro h
    exact ⟨⟨⟨⟨h.1 .hosts,h.1 .keys⟩,h.1 .hostKeys⟩,h.1 .snippets⟩,h.2⟩

@[simp] theorem toSyncedKey_fromSyncedKey (k : SyncedKey) : toSyncedKey (fromSyncedKey k) = some k :=
  rfl

theorem records_mergeVault (ours remote : VaultDocument) (k : Kind) :
    (mergeVault ours remote).records k = mergeById k.id k.stamp (ours.records k) (remote.records k)
      (mergeTombstones ours.tombstones remote.tombstones) := by
  cases k <;> rfl

@[simp] theorem tombstones_mergeVault (ours remote : VaultDocument) :
    (mergeVault ours remote).tombstones = mergeTombstones ours.tombstones remote.tombstones := rfl

theorem records_outgoing_of_ne (vaultKey : CryptoKey) (merged remote : VaultDocument) {k : Kind}
    (h : k ≠ .keys) : (outgoing vaultKey merged remote).records k = merged.records k := by
  cases k <;> first | rfl | exact absurd rfl h

@[simp] theorem tombstones_outgoing (vaultKey : CryptoKey) (merged remote : VaultDocument) :
    (outgoing vaultKey merged remote).tombstones = merged.tombstones := rfl

private theorem put_max_eq_keepNewest (t : Tombstones) (e : RecordId × Nat) :
    t.put (e.1,max (deletedAt t e.1) e.2) = t.keepNewest Prod.snd e := by
  rcases hget : t.get? e.1 with _ | old
  · have hzero : deletedAt t e.1 = 0 := by simp [deletedAt,hget]
    simp [Table.keepNewest,hget,hzero]
  · have hold : deletedAt t e.1 = old.2 := by simp [deletedAt,hget]
    have hkey : old.1 = e.1 := Table.key_of_get? hget
    by_cases hlt : old.2 < e.2
    · have hmax : max (deletedAt t e.1) e.2 = e.2 := by omega
      simp only [Table.keepNewest,hget,hlt,if_true,hmax]
    · have hmax : max (deletedAt t e.1) e.2 = old.2 := by omega
      have hrow : (e.1,old.2) = old := by rw [← hkey]
      rw [hmax,hrow,Table.put_eq_self (by rw [hkey,hget])]
      simp only [Table.keepNewest,hget,hlt,if_false]

theorem mergeTombstones_eq_keepAll (ours remote : Tombstones) :
    mergeTombstones ours remote = remote.keepAll Prod.snd ours.rows := by
  have hstep : (fun (t : Tombstones) (e : RecordId × Nat) =>
      t.put (e.1,max (deletedAt t e.1) e.2)) = Table.keepNewest Prod.snd := by
    funext t e
    exact put_max_eq_keepNewest t e
  rw [mergeTombstones,hstep]
  rfl

theorem mem_mergeTombstones {ours remote : Tombstones} {e : RecordId × Nat}
    (h : e ∈ (mergeTombstones ours remote).rows) : e ∈ ours.rows ∨ e ∈ remote.rows := by
  rw [mergeTombstones_eq_keepAll] at h
  exact (Table.mem_rows_keepAll Prod.snd h).symm

theorem mergeTombstones_ge {ours remote : Tombstones} {e : RecordId × Nat}
    (h : e ∈ ours.rows ∨ e ∈ remote.rows) :
    ∃ at', (e.1,at') ∈ (mergeTombstones ours remote).rows ∧ e.2 ≤ at' := by
  have hge : ∃ r, (mergeTombstones ours remote).get? e.1 = some r ∧ e.2 ≤ r.2 := by
    rw [mergeTombstones_eq_keepAll]
    rcases h with h | h
    · exact Table.get?_keepAll_ge_of_mem Prod.snd remote ours.rows h
    · exact Table.get?_keepAll_ge_of_get? Prod.snd remote ours.rows (Table.get?_of_mem h)
  obtain ⟨r,hr,hle⟩ := hge
  have hkey : r.1 = e.1 := Table.key_of_get? hr
  exact ⟨r.2,by rw [← hkey]; exact Table.mem_of_get? hr,hle⟩

theorem mem_of_deletedAt {t : Tombstones} {id : RecordId} (h : deletedAt t id ≠ 0) :
    (id,deletedAt t id) ∈ t.rows := by
  unfold deletedAt at h ⊢
  rcases hget : t.get? id with _ | e
  · simp [hget] at h
  · have hkey : e.1 = id := Table.key_of_get? hget
    have hrow : (id,e.2) = e := by rw [← hkey]
    simpa [hrow] using Table.mem_of_get? hget

theorem deletedAt_of_mem {t : Tombstones} {e : RecordId × Nat} (h : e ∈ t.rows) :
    deletedAt t e.1 = e.2 := by
  simp [deletedAt,Table.get?_of_mem h]

section MergeById

variable {τ : Type} {id : τ → RecordId} {stamp : τ → Nat} {ours remote : List τ}
  {tombstones : Tombstones}

theorem mem_mergeById {r : τ} (h : r ∈ mergeById id stamp ours remote tombstones) :
    (r ∈ ours ∨ r ∈ remote) ∧ survives id stamp tombstones r = true := by
  have hr := List.mem_filter.mp h
  refine ⟨?_,hr.2⟩
  rcases Table.mem_rows_keepAll stamp hr.1 with h | h
  · simp [Table.empty] at h
  · exact (List.mem_append.mp h).symm

theorem nodup_mergeById : ((mergeById id stamp ours remote tombstones).map id).Nodup :=
  ((Table.empty id).keepAll stamp (remote ++ ours)).nodup.sublist (List.filter_sublist.map id)

/-- A record that does not come out, nor a newer one of its id, was deleted after its stamp. -/
theorem mergeById_accounts {r : τ} (h : r ∈ ours ∨ r ∈ remote) :
    (∃ r' ∈ mergeById id stamp ours remote tombstones, id r' = id r ∧ stamp r ≤ stamp r') ∨
      ((id r,deletedAt tombstones (id r)) ∈ tombstones.rows ∧
        stamp r ≤ deletedAt tombstones (id r)) := by
  have hmem : r ∈ remote ++ ours := List.mem_append.mpr h.symm
  obtain ⟨r',hr',hle⟩ := Table.get?_keepAll_ge_of_mem stamp (Table.empty id) (remote ++ ours) hmem
  have hid : id r' = id r := Table.key_of_get? hr'
  by_cases hs : survives id stamp tombstones r' = true
  · exact Or.inl ⟨r',List.mem_filter.mpr ⟨Table.mem_of_get? hr',hs⟩,hid,hle⟩
  · simp only [survives,hid,Bool.or_eq_true,beq_iff_eq,decide_eq_true_eq,not_or] at hs
    exact Or.inr ⟨mem_of_deletedAt hs.1,by omega⟩

theorem mem_mergeById_perm {ours' : List τ} (hn : (ours.map id).Nodup) (h : ours.Perm ours') (r : τ) :
    r ∈ mergeById id stamp ours remote tombstones ↔
      r ∈ mergeById id stamp ours' remote tombstones := by
  have hsame : ∀ r, r ∈ ((Table.empty id).keepAll stamp (remote ++ ours)).rows ↔
      r ∈ ((Table.empty id).keepAll stamp (remote ++ ours')).rows := by
    intro r
    rw [Table.mem_rows_iff,Table.mem_rows_iff,Table.keepAll_append,Table.keepAll_append,
      Table.get?_keepAll_perm stamp _ hn h]
  simp only [mergeById,List.mem_filter,hsame]

end MergeById

theorem replica_eq_of_sameRecords {a b : VaultDocument} (h : sameRecords a b = true) :
    a.replica = b.replica := by
  obtain ⟨hrecords,htombstones⟩ := sameRecords_iff.mp h
  simp only [VaultDocument.replica,hrecords,htombstones]

private theorem replica_le_mergeVault {d ours remote : VaultDocument} (h : d = ours ∨ d = remote) :
    d.replica ≤ (mergeVault ours remote).replica := by
  refine ⟨?_,?_⟩
  · rintro ⟨k,i⟩ t hlive
    obtain ⟨r,hr,rfl,rfl⟩ := live_iff.mp hlive
    have hmem : r ∈ ours.records k ∨ r ∈ remote.records k := by
      rcases h with rfl | rfl
      · exact Or.inl hr
      · exact Or.inr hr
    rcases mergeById_accounts hmem with ⟨r',hr',hid',hle⟩ | ⟨hdead,hle⟩
    · apply Or.inl
      refine ⟨k.stamp r',⟨r',?_,hid',rfl⟩,hle⟩
      rw [records_mergeVault]
      exact hr'
    · apply Or.inr
      exact ⟨_,hdead,hle⟩
  · rintro ⟨k,i⟩ t hdead
    have hmem : (i,t) ∈ ours.tombstones.rows ∨ (i,t) ∈ remote.tombstones.rows := by
      rcases h with rfl | rfl
      · exact Or.inl hdead
      · exact Or.inr hdead
    exact mergeTombstones_ge hmem

theorem ours_le_mergeVault (ours remote : VaultDocument) :
    ours.replica ≤ (mergeVault ours remote).replica :=
  replica_le_mergeVault (Or.inl rfl)

theorem remote_le_mergeVault (ours remote : VaultDocument) :
    remote.replica ≤ (mergeVault ours remote).replica :=
  replica_le_mergeVault (Or.inr rfl)

theorem remote_le_outgoing (vaultKey : CryptoKey) (ours remote : VaultDocument) :
    remote.replica ≤ (outgoing vaultKey (mergeVault ours remote) remote).replica := by
  have hle := remote_le_mergeVault ours remote
  refine ⟨?_,hle.2⟩
  rintro ⟨k,i⟩ t ⟨r,hr,hid,ht⟩
  rcases hle.1 (k,i) t ⟨r,hr,hid,ht⟩ with ⟨u,⟨r',hr',hid',hu⟩,htu⟩ | hdead
  · apply Or.inl
    refine ⟨u,⟨r',?_,hid',hu⟩,htu⟩
    by_cases hk : k = .keys
    · subst hk
      have hknown : publishes vaultKey remote r' = true := by
        simp only [publishes,Bool.or_eq_true,List.any_eq_true,beq_iff_eq]
        exact Or.inl ⟨r,hr,hid.trans hid'.symm⟩
      exact List.mem_filter.mpr ⟨hr',hknown⟩
    · rw [records_outgoing_of_ne vaultKey _ remote hk]
      exact hr'
  · exact Or.inr hdead

end WeirdVault.Vault
