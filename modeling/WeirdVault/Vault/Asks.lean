import WeirdVault.Vault.Account

/-!
# What each job asks

`Asked` lists, job by job, the requests that matter to anybody else and what a job has been answered
when it makes them. `behaviour` says that the programs ask nothing else; everything that is later
proved of runs uses this list and not the programs.
-/

namespace WeirdVault.Vault

open WeirdVault.Framework Program

abbrev Heard := Transcript Request.Ans

/-- Requests that leave the records, the vault row and the credential alone. -/
def Request.reads : Request → Prop
  | .idbPut .. => False
  | .idbDelete .. => False
  | .vaultPut c _ => c = .syncState
  | .putVault .. => False
  | .changePassword .. => False
  | .deleteRecovery => False
  | .connect _ => False
  | .installKey => False
  | _ => True

/-- The records of a document in the form in which a store holds them. -/
def VaultDocument.inStore (d : VaultDocument) : (s : Store) → List s.Rec
  | .hosts => d.hosts
  | .keys => d.keys.map fromSyncedKey
  | .hostkeys => d.hostKeys

/-- The document that `readLocalVault` has made of what the thread was last answered. -/
structure Reading (k : Heard) (ours : VaultDocument) : Prop where
  hosts : ∃ l, Latest k (.idbGetAll .hosts) l ∧ ours.hosts.Perm l
  keys : ∃ l, Latest k (.idbGetAll .keys) l ∧
    ∀ key, key ∈ ours.keys ↔ ∃ rec ∈ l, toSyncedKey rec = some key
  hostKeys : Latest k (.idbGetAll .hostkeys) ours.hostKeys
  snippets : ∃ m, (⟨.vaultGet .snippets,m⟩ : (r : Request) × r.Ans) ∈ k ∧
    ours.snippets.Perm (m.getD (Table.empty _)).rows
  tombstones : ∃ t, Latest k (.vaultGet .tombstones) t ∧ ours.tombstones = t.getD (Table.empty _)

/-- Requests after which a reading and the last pull are still the latest. -/
def Request.keepsReading : Request → Prop
  | .idbGetAll _ => False
  | .vaultGet c => c = .snippets
  | .getVault => False
  | _ => True

theorem Reading.grown {k k' : Heard} {ours : VaultDocument} (h : Reading k ours)
    (hk : Grown Request.keepsReading k k') : Reading k' ours := by
  obtain ⟨hosts,hh,hhp⟩ := h.hosts
  obtain ⟨keys,hkeys,hkp⟩ := h.keys
  obtain ⟨m,hm,hmp⟩ := h.snippets
  obtain ⟨t,ht,htp⟩ := h.tombstones
  exact
    { hosts := ⟨hosts,hh.grown hk (by simp [Request.keepsReading]),hhp⟩
      keys := ⟨keys,hkeys.grown hk (by simp [Request.keepsReading]),hkp⟩
      hostKeys := h.hostKeys.grown hk (by simp [Request.keepsReading])
      snippets := ⟨m,hk.mem hm,hmp⟩
      tombstones := ⟨t,ht.grown hk (by simp [Request.keepsReading]),htp⟩ }

def Request.readsLocally : Request → Prop
  | .idbGetAll _ => True
  | .vaultGet _ => True
  | .dateNow => True
  | _ => False

private theorem mem_filterMap_toSyncedKey (l : List StoredKey) (key : SyncedKey) :
    key ∈ (l.insertionSort (fun a b => a.createdAt ≤ b.createdAt)).filterMap toSyncedKey ↔
      ∃ rec ∈ l, toSyncedKey rec = some key := by
  simp only [List.mem_filterMap,List.mem_insertionSort]

theorem asks_readLocalVault {may : Heard → Request → Prop} {k : Heard}
    (hmay : ∀ k' r, r.readsLocally → may k' r) :
    Asks may (fun k' o => ∃ ours, o = .ok ours ∧ Reading k' ours ∧
      Grown Request.readsLocally k k') k readLocalVault := by
  simp only [readLocalVault,listHosts,listStoredKeys,listPins,listSnippets,readMap,getTombstones,
    query,bind_eq,pure_eq,request_bind,ask_bind,done_bind,asks_ask,
    asks_done]
  refine ⟨hmay _ _ trivial,fun hosts => ⟨hmay _ _ trivial,fun keys => ⟨hmay _ _ trivial,
    fun pins => ⟨hmay _ _ trivial,fun m => ⟨hmay _ _ trivial,fun t => ⟨hmay _ _ trivial,
    fun now => ?_⟩⟩⟩⟩⟩⟩
  refine ⟨_,rfl,?_,⟨[_,_,_,_,_,_],rfl,by simp [Request.readsLocally]⟩⟩
  exact
    { hosts := ⟨hosts,by simp,List.perm_insertionSort _ hosts⟩
      keys := ⟨keys,by simp,mem_filterMap_toSyncedKey keys⟩
      hostKeys := by simp
      snippets := ⟨m,by simp,List.perm_insertionSort _ _⟩
      tombstones := ⟨t,by simp,rfl⟩ }

/-- The writes of `applyVaultLocally`. -/
inductive Applies (merged previous : VaultDocument) (k : Heard) : Request → Prop
  | put {s : Store} {r : s.Rec} (h : r ∈ merged.inStore s) : Applies merged previous k (.idbPut s r)
  | snippet {s : Snippet} {m : Option SnippetMap} (hm : Latest k (.vaultGet .snippets) m)
      (h : s ∈ merged.snippets) :
      Applies merged previous k (.vaultPut .snippets ((m.getD (Table.empty _)).put s))
  | tombstones : Applies merged previous k (.vaultPut .tombstones merged.tombstones)
  | forget {s : Store} {id : RecordId}
      (h : id ∈ deletedIds s.id (previous.inStore s) (merged.inStore s)) :
      Applies merged previous k (.idbDelete s id)
  | readSnippets : Applies merged previous k (.vaultGet .snippets)
  | forgetSnippet {id : RecordId} {m : Option SnippetMap} (hm : Latest k (.vaultGet .snippets) m)
      (h : id ∈ deletedIds Snippet.id previous.snippets merged.snippets) :
      Applies merged previous k (.vaultPut .snippets ((m.getD (Table.empty _)).erase id))

def Request.writesLocally : Request → Prop
  | .idbPut .. => True
  | .idbDelete .. => True
  | .vaultPut .. => True
  | .vaultGet c => c = .snippets
  | _ => False

theorem keepsReading_of_writesLocally {k k' : Heard} (h : Grown Request.writesLocally k k') :
    Grown Request.keepsReading k k' := by
  obtain ⟨newer,hk,hnewer⟩ := h
  refine ⟨newer,hk,?_⟩
  intro a ha
  have hwrite := hnewer a ha
  revert hwrite
  cases a.1 <;> simp [Request.writesLocally,Request.keepsReading]

section Apply

variable {may : Heard → Request → Prop} {merged previous : VaultDocument} {k : Heard}

/-- Run from any transcript that local writes have made of `k`, the part makes local writes. -/
private abbrev Writes (may : Heard → Request → Prop) (k : Heard) (p : Prog Unit) : Prop :=
  ∀ k', Grown Request.writesLocally k k' →
    Asks may (fun l o => o = .ok () ∧ Grown Request.writesLocally k' l) k' p

private theorem Writes.bind {p q : Prog Unit} (hp : Writes may k p) (hq : Writes may k q) :
    Writes may k (p.bind (fun _ => q)) := by
  intro k' hk'
  apply (hp k' hk').bind
  · rintro l _ ⟨-,hl⟩
    apply (hq l (hk'.trans hl)).mono
    rintro l' o ⟨ho,hl'⟩
    exact ⟨ho,hl.trans hl'⟩
  · rintro l e ⟨he,-⟩
    cases he

private theorem Writes.forEach {τ : Type} {f : τ → Prog Unit} {xs : List τ}
    (h : ∀ x ∈ xs, Writes may k (f x)) : Writes may k (forEach f xs) := by
  induction xs with
  | nil => exact fun k' _ => ⟨rfl,Grown.refl k'⟩
  | cons x xs ih =>
    have hrest := ih (fun y hy => h y (List.mem_cons_of_mem x hy))
    exact Writes.bind (h x List.mem_cons_self) hrest

private theorem writes_ask {r : Request} (hr : r.writesLocally)
    (hmay : ∀ k', Grown Request.writesLocally k k' → may k' r) :
    Writes may k (ask r fun _ => done ()) := by
  intro k' hk'
  refine (asks_ask _ _).mpr ⟨hmay k' hk',fun x => ⟨rfl,[_],rfl,?_⟩⟩
  simpa using hr

variable (hmay : ∀ k' r, Grown Request.writesLocally k k' → Applies merged previous k' r →
  may k' r)

include hmay

private theorem writes_put {s : Store} {r : s.Rec} (h : r ∈ merged.inStore s) :
    Writes may k (query (.idbPut s r)) :=
  writes_ask trivial (fun k' hk' => hmay k' _ hk' (.put h))

private theorem writes_forget {s : Store} {id : RecordId}
    (h : id ∈ deletedIds s.id (previous.inStore s) (merged.inStore s)) :
    Writes may k (query (.idbDelete s id)) :=
  writes_ask trivial (fun k' hk' => hmay k' _ hk' (.forget h))

private theorem writes_tombstones : Writes may k (setTombstones merged.tombstones) :=
  writes_ask trivial (fun k' hk' => hmay k' _ hk' .tombstones)

private theorem writes_putSnippet {s : Snippet} (h : s ∈ merged.snippets) :
    Writes may k (putSnippet s) := by
  intro k' hk'
  simp only [putSnippet,readMap,writeMap,query,bind_eq,pure_eq,request_bind,ask_bind,done_bind,
    asks_ask]
  refine ⟨hmay k' _ hk' .readSnippets,fun m => ?_⟩
  have hread : Grown Request.writesLocally k' (⟨.vaultGet .snippets,m⟩ :: k') :=
    ⟨[_],rfl,by simp [Request.writesLocally]⟩
  have hput := hmay _ _ (hk'.trans hread) (.snippet (latest_cons_self k' _ m) h)
  refine (asks_request _).mpr ⟨hput,fun x => ⟨rfl,[_,_],rfl,?_⟩⟩
  simp [Request.writesLocally]

private theorem writes_forgetSnippet {id : RecordId}
    (h : id ∈ deletedIds Snippet.id previous.snippets merged.snippets) :
    Writes may k (forgetSnippet id) := by
  intro k' hk'
  simp only [forgetSnippet,readMap,writeMap,query,bind_eq,pure_eq,request_bind,ask_bind,done_bind,
    asks_ask]
  refine ⟨hmay k' _ hk' .readSnippets,fun m => ?_⟩
  have hread : Grown Request.writesLocally k' (⟨.vaultGet .snippets,m⟩ :: k') :=
    ⟨[_],rfl,by simp [Request.writesLocally]⟩
  split
  · exact ⟨rfl,hread⟩
  · have herase := hmay _ _ (hk'.trans hread) (.forgetSnippet (latest_cons_self k' _ m) h)
    refine (asks_request _).mpr ⟨herase,fun x => ⟨rfl,[_,_],rfl,?_⟩⟩
    simp [Request.writesLocally]

theorem asks_applyVaultLocally :
    Asks may (fun l o => o = .ok () ∧ Grown Request.writesLocally k l) k
      (applyVaultLocally merged previous) := by
  have hkeys : deletedIds SyncedKey.id previous.keys merged.keys =
      deletedIds StoredKey.id (previous.inStore .keys) (merged.inStore .keys) := by
    simp [deletedIds,VaultDocument.inStore,Function.comp_def,fromSyncedKey]
  have hhosts : Writes may k (Program.forEach putHost merged.hosts) :=
    Writes.forEach (fun h hh => writes_put hmay (s := .hosts) hh)
  have hpins : Writes may k (Program.forEach putPin merged.hostKeys) :=
    Writes.forEach (fun p hp => writes_put hmay (s := .hostkeys) hp)
  have hputs : Writes may k
      (Program.forEach (fun key => putStoredKey (fromSyncedKey key)) merged.keys) :=
    Writes.forEach (fun key hkey => writes_put hmay (s := .keys) (List.mem_map_of_mem hkey))
  have hsnippets : Writes may k (Program.forEach putSnippet merged.snippets) :=
    Writes.forEach (fun s hs => writes_putSnippet hmay hs)
  have hforgets : ∀ {s : Store} {ids : List RecordId},
      ids = deletedIds s.id (previous.inStore s) (merged.inStore s) →
      Writes may k (Program.forEach (fun id => query (.idbDelete s id)) ids) := by
    rintro s ids rfl
    exact Writes.forEach (fun id hid => writes_forget hmay hid)
  have hforgetSnippets : Writes may k
      (removeDeleted Snippet.id previous.snippets merged.snippets forgetSnippet) :=
    Writes.forEach (fun id hid => writes_forgetSnippet hmay hid)
  have hremove := Writes.bind (hforgets (s := .hosts) rfl) (Writes.bind (hforgets (s := .keys) hkeys)
    (Writes.bind (hforgets (s := .hostkeys) rfl) hforgetSnippets))
  exact Writes.bind hhosts (Writes.bind hputs (Writes.bind hpins
    (Writes.bind hsnippets (Writes.bind (writes_tombstones hmay) hremove)))) k (Grown.refl k)

end Apply

def PulledVault.holds (p : PulledVault) (key : CryptoKey) (remote : VaultDocument) : Prop :=
  match p.blob with
  | none => remote = emptyDoc
  | some env => ∃ doc, env.open? key = some doc ∧ remote = doc.filled

/-- The two documents of a cycle. -/
structure MergedUnder (key : CryptoKey) (k : Heard) (p : PulledVault) (ours remote : VaultDocument) :
    Prop where
  reading : Reading k ours
  pull : Latest k .getVault (.ok p)
  remote : p.holds key remote

theorem MergedUnder.grown {key : CryptoKey} {k k' : Heard} {p : PulledVault}
    {ours remote : VaultDocument} (h : MergedUnder key k p ours remote)
    (hk : Grown Request.keepsReading k k') : MergedUnder key k' p ours remote :=
  ⟨h.reading.grown hk,h.pull.grown hk (by simp [Request.keepsReading]),h.remote⟩

def published (key : CryptoKey) (ours remote : VaultDocument) (iv : Nat) : VaultEnvelope :=
  ⟨1,⟨key,iv,(outgoing key (mergeVault ours remote) remote).toWire⟩⟩

inductive Cycles (key : CryptoKey) (k : Heard) : Request → Prop
  | reads {r : Request} (h : r.reads) : Cycles key k r
  | applies {p : PulledVault} {ours remote : VaultDocument} {r : Request}
      (h : MergedUnder key k p ours remote) (hr : Applies (mergeVault ours remote) ours k r) :
      Cycles key k r
  | pushes {p : PulledVault} {ours remote : VaultDocument} (h : MergedUnder key k p ours remote)
      (iv : Nat) : Cycles key k (.putVault (published key ours remote iv) p.version)

section Cycle

variable {may : Heard → Request → Prop} {key : CryptoKey}

private theorem asks_decryptPulled {k : Heard} (p : PulledVault) :
    Asks may (fun l o => l = k ∧ ∀ remote, o = .ok remote → p.holds key remote) k
      (decryptPulled key p) := by
  rcases hp : p.blob with _ | env
  · simp [decryptPulled,PulledVault.holds,hp]
  · rcases hopen : env.open? key with _ | doc
    · by_cases hv : env.v = 1
      · simp [decryptPulled,decryptVault,hp,hopen,hv]
      · simp [decryptPulled,decryptVault,hp,hopen,hv]
    · simp [decryptPulled,decryptVault,PulledVault.holds,hp,hopen]

variable (hmay : ∀ k r, Cycles key k r → may k r)

include hmay

private theorem asks_mergeLocally {k : Heard} {p : PulledVault} (hp : Latest k .getVault (.ok p)) :
    Asks may (fun l o => ∀ m remote, o = .ok (m,remote) → ∃ ours, m = mergeVault ours remote ∧
      MergedUnder key l p ours remote) k (mergeLocally key p) := by
  unfold mergeLocally
  apply (asks_decryptPulled p).bind
  · rintro k1 remote ⟨rfl,hremote⟩
    have hreads : ∀ l (r : Request), r.readsLocally → may l r := by
      intro l r hr
      apply hmay l r
      apply Cycles.reads
      cases r <;> simp_all [Request.readsLocally,Request.reads]
    apply (asks_readLocalVault hreads).bind
    · rintro k2 ours ⟨ours',ho,hours,hk2⟩
      obtain rfl := Except.ok.inj ho
      have hm : MergedUnder key k2 p ours remote :=
        ⟨hours,hp.grown hk2 (by simp [Request.readsLocally]),hremote _ rfl⟩
      apply (asks_applyVaultLocally (fun l r hl hr =>
        hmay l r (.applies (hm.grown (keepsReading_of_writesLocally hl)) hr))).bind
      · rintro k3 _ ⟨-,hk3⟩
        intro m remote' hmr
        obtain ⟨rfl,rfl⟩ := Prod.mk.inj (Except.ok.inj hmr)
        exact ⟨ours,rfl,hm.grown (keepsReading_of_writesLocally hk3)⟩
      · rintro k3 e ⟨he,-⟩
        cases he
    · rintro k2 e ⟨ours,he,-⟩
      cases he
  · intro k1 e _ m remote he
    cases he

private theorem asks_push {k : Heard} {p : PulledVault} {ours remote : VaultDocument}
    {afterConflict : Bool} {onConflict : Prog SyncResult} (hm : MergedUnder key k p ours remote)
    (hconflict : ∀ l, Asks may (fun _ _ => True) l onConflict) :
    Asks may (fun _ _ => True) k
      (push key p (mergeVault ours remote) remote afterConflict onConflict) := by
  simp only [push,encryptVault,query,bind_eq,pure_eq,request_bind,ask_bind,done_bind,asks_ask]
  refine ⟨hmay _ _ (.reads trivial),fun iv => ?_⟩
  have hk : Grown Request.keepsReading k (⟨.randomIv,iv⟩ :: k) := ⟨[_],rfl,by simp [Request.keepsReading]⟩
  refine ⟨hmay _ _ (.pushes (hm.grown hk) iv),fun reply => ?_⟩
  cases reply with
  | unreachable => simp
  | failed status =>
    by_cases h : status = 409
    · simpa [h] using hconflict _
    · simp [h]
  | unreadable => simp
  | ok version =>
    simp only [setState,query,request_bind,asks_ask,asks_done,implies_true,and_true]
    exact ⟨hmay _ _ (.reads trivial),fun now => hmay _ _ (.reads rfl)⟩

private theorem asks_attempt {k : Heard} {afterConflict : Bool} {onConflict : Prog SyncResult}
    (hconflict : ∀ l, Asks may (fun _ _ => True) l onConflict) :
    Asks may (fun _ _ => True) k (attempt key afterConflict onConflict) := by
  simp only [attempt,getState,query,bind_eq,pure_eq,request_bind,ask_bind,done_bind,asks_ask]
  refine ⟨hmay _ _ (.reads trivial),fun state => ⟨hmay _ _ (.reads trivial),fun reply => ?_⟩⟩
  cases reply with
  | unreachable => simp
  | failed status => by_cases h : status = 401 <;> simp [h]
  | unreadable => simp
  | ok p =>
    apply (asks_mergeLocally hmay (latest_cons_self _ _ _)).bind
    · rintro l ⟨m,remote⟩ hl
      obtain ⟨ours,rfl,hm⟩ := hl m remote rfl
      by_cases hq : quiet key p (mergeVault ours remote) remote = true
      · simp only [hq,setState,query,if_true,request_bind,asks_ask,asks_done,implies_true,and_true]
        exact ⟨hmay _ _ (.reads trivial),fun now => hmay _ _ (.reads rfl)⟩
      · simp only [hq]
        exact asks_push hmay hm hconflict
    · intro l e _
      trivial

private theorem asks_runSync (retries : Nat) (afterConflict : Bool) (k : Heard) :
    Asks may (fun _ _ => True) k (runSync key retries afterConflict) := by
  induction retries generalizing afterConflict k with
  | zero => exact asks_attempt hmay (fun l => trivial)
  | succ retries ih => exact asks_attempt hmay (fun l => ih true l)

theorem asks_syncVault (k : Heard) : Asks may (fun _ _ => True) k (syncVault key) :=
  asks_runSync hmay 2 false k

end Cycle

end WeirdVault.Vault
