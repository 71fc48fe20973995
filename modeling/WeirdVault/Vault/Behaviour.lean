import WeirdVault.Vault.Asks

/-!
# The behaviour of every job

The requests of re-keying, restoring, connecting and local edits, and with those of the cycle the
`behaviour` of the whole system.
-/

namespace WeirdVault.Vault

open WeirdVault.Framework Program

def rewrapped (oldKey newKey : CryptoKey) (iv : Nat) (key : SyncedKey) : SyncedKey :=
  match key.wrapped.decrypt? oldKey with
  | none => key
  | some pkcs8 => { key with wrapped := ⟨newKey,iv,pkcs8⟩ }

def Rewraps (oldKey newKey : CryptoKey) (key key' : SyncedKey) : Prop :=
  ∃ iv, key' = rewrapped oldKey newKey iv key

/-- The key is in a document that the run has read and, unless that was under the new key already,
rewrapped. -/
def Installs (old new : DerivedSecrets) (k : Heard) (key : SyncedKey) : Prop :=
  ∃ p env doc, (⟨.getVault,.ok p⟩ : (r : Request) × r.Ans) ∈ k ∧ p.blob = some env ∧
    (env.open? new.vaultKey = some doc ∧ key ∈ doc.filled.keys ∨
      env.open? old.vaultKey = some doc ∧
        ∃ key₀ ∈ doc.filled.keys, Rewraps old.vaultKey new.vaultKey key₀ key)

inductive Rekeys (old new : DerivedSecrets) (k : Heard) : Request → Prop
  | cycles {r : Request} (h : Cycles old.vaultKey k r) : Rekeys old new k r
  | reencrypts {p : PulledVault} {env : VaultEnvelope} {doc : WireDocument} {keys : List SyncedKey}
      (hp : (⟨.getVault,.ok p⟩ : (r : Request) × r.Ans) ∈ k) (hblob : p.blob = some env)
      (hdoc : env.open? old.vaultKey = some doc)
      (hkeys : List.Forall₂ (Rewraps old.vaultKey new.vaultKey) doc.filled.keys keys) (iv : Nat) :
      Rekeys old new k
        (.putVault ⟨1,⟨new.vaultKey,iv,{ doc.filled with keys := keys }.toWire⟩⟩ p.version)
  | credential : Rekeys old new k (.changePassword old.authToken new.authToken)
  | installs {key : SyncedKey} (h : Installs old new k key) :
      Rekeys old new k (.idbPut .keys (fromSyncedKey key))
  | clears : Rekeys old new k .deleteRecovery

theorem exists_of_mem_right {τ υ : Type} {R : τ → υ → Prop} {xs : List τ} {ys : List υ}
    (h : List.Forall₂ R xs ys) {y : υ} (hy : y ∈ ys) : ∃ x ∈ xs, R x y := by
  induction h with
  | nil => simp at hy
  | cons hxy _ ih =>
    rcases List.mem_cons.mp hy with rfl | hy
    · exact ⟨_,List.mem_cons_self,hxy⟩
    · obtain ⟨x,hx,hr⟩ := ih hy
      exact ⟨x,List.mem_cons_of_mem _ hx,hr⟩

section Rekey

variable {may : Heard → Request → Prop} {old new : DerivedSecrets}
  (hmay : ∀ k r, Rekeys old new k r → may k r)

include hmay

private theorem asks_rewrapKeys (keys : List SyncedKey) (k : Heard) :
    Asks may (fun l o => ∃ res, o = .ok res ∧ Grown Request.reads k l ∧
      List.Forall₂ (Rewraps old.vaultKey new.vaultKey) keys res.keys) k
      (rewrapKeys old.vaultKey new.vaultKey keys) := by
  induction keys generalizing k with
  | nil => exact ⟨_,rfl,Grown.refl k,.nil⟩
  | cons key keys ih =>
    simp only [rewrapKeys,bind_eq]
    have hone : Asks may (fun l o => ∃ next, o = .ok next ∧ Grown Request.reads k l ∧
        Rewraps old.vaultKey new.vaultKey key (next.getD key)) k
        (rewrapKey key old.vaultKey new.vaultKey) := by
      rcases hd : key.wrapped.decrypt? old.vaultKey with _ | pkcs8
      · simp only [rewrapKey,hd,pure_eq,asks_done]
        exact ⟨none,rfl,Grown.refl k,0,by simp [rewrapped,hd]⟩
      · simp only [rewrapKey,hd,query,bind_eq,request_bind,asks_ask,pure_eq,asks_done]
        refine ⟨hmay _ _ (.cycles (.reads trivial)),fun iv => ⟨_,rfl,?_,iv,?_⟩⟩
        · exact ⟨[_],rfl,by simp [Request.reads]⟩
        · simp [rewrapped,hd]
    apply hone.bind_ok
    rintro l next ⟨hl,hrewraps⟩
    apply (ih l).bind_ok
    rintro l' rest ⟨hl',hrest⟩
    refine ⟨_,rfl,hl.trans hl',?_⟩
    cases next with
    | none => exact .cons hrewraps hrest
    | some next => exact .cons hrewraps hrest

private theorem asks_pullVault (k : Heard) :
    Asks may (fun l o => ∀ p, o = .ok p → (⟨.getVault,.ok p⟩ : (r : Request) × r.Ans) ∈ l) k
      pullVault := by
  simp only [pullVault,query,bind_eq,request_bind,asks_ask]
  refine ⟨hmay _ _ (.cycles (.reads trivial)),fun reply => ?_⟩
  cases reply with
  | unreachable => simp
  | failed status => by_cases h : status = 401 <;> simp [h]
  | unreadable => simp
  | ok p => simp

omit hmay in
private theorem asks_pushVault {k : Heard} {blob : VaultEnvelope} {base : Nat}
    (h : may k (.putVault blob base)) :
    Asks may (fun l o => ∀ v, o = .ok v → Grown (fun _ => True) k l) k (pushVault blob base) := by
  simp only [pushVault,query,bind_eq,request_bind,asks_ask]
  refine ⟨h,fun reply => ?_⟩
  cases reply with
  | unreachable => simp
  | failed status => by_cases h : status = 409 <;> simp [h]
  | unreadable => simp
  | ok v => exact fun _ _ => ⟨[_],rfl,by simp⟩

omit hmay in
private theorem Installs.grown {k l : Heard} {key : SyncedKey} {P : Request → Prop}
    (h : Installs old new k key) (hl : Grown P k l) : Installs old new l key := by
  obtain ⟨p,env,doc,hp,hrest⟩ := h
  exact ⟨p,env,doc,hl.mem hp,hrest⟩

private abbrev Ready (old new : DerivedSecrets) (k : Heard) (prepared : Prepared) : Prop :=
  ∀ doc, prepared.document = some doc → ∀ key ∈ doc.keys, Installs old new k key

private theorem asks_reencrypt {k : Heard} {p : PulledVault} {env : VaultEnvelope}
    {doc : WireDocument} (hp : (⟨.getVault,.ok p⟩ : (r : Request) × r.Ans) ∈ k)
    (hblob : p.blob = some env) (hdoc : env.open? old.vaultKey = some doc) :
    Asks may (fun l o => ∀ prepared, o = .ok prepared → Ready old new l prepared) k
      (reencrypt old new p doc.filled) := by
  simp only [reencrypt,bind_eq]
  apply (asks_rewrapKeys hmay doc.filled.keys k).bind_ok
  rintro l res ⟨hl,hkeys⟩
  simp only [encryptVault,query,bind_eq,pure_eq,request_bind,ask_bind,done_bind,asks_ask]
  refine ⟨hmay _ _ (.cycles (.reads trivial)),fun iv => ?_⟩
  have hiv : Grown Request.reads l (⟨.randomIv,iv⟩ :: l) := ⟨[_],rfl,by simp [Request.reads]⟩
  have hmem := hiv.mem (hl.mem hp)
  apply (asks_pushVault (hmay _ _ (.reencrypts hmem hblob hdoc hkeys iv))).bind_any
  · intro l' version hl' prepared he doc' hdoc' key hkey
    obtain rfl := Except.ok.inj he
    obtain rfl := Option.some.inj hdoc'
    obtain ⟨key₀,hkey₀,hrewraps⟩ := exists_of_mem_right hkeys hkey
    exact ⟨p,env,doc,hl'.mem hmem,hblob,Or.inr ⟨hdoc,key₀,hkey₀,hrewraps⟩⟩
  · intro l' e prepared he
    cases he

private theorem asks_syncAndReencrypt (via : String) (k : Heard) :
    Asks may (fun l o => ∀ prepared, o = .ok prepared → Ready old new l prepared) k
      (syncAndReencrypt old new via) := by
  simp only [syncAndReencrypt,bind_eq]
  have hcycle := asks_syncVault (fun l r hr => hmay l r (.cycles hr)) k
  apply hcycle.bind
  · intro l result _
    by_cases hoff : result.status = .offline
    · simp [hoff]
    · simp only [hoff,if_false,pure_eq]
      apply (asks_pullVault hmay l).bind_any
      · intro l' p hp
        rcases hblob : p.blob with _ | env
        · simp [Ready]
        · rcases hdoc : env.open? old.vaultKey with _ | doc
          · simp [tryDecrypt,hdoc]
          · simpa [tryDecrypt,hdoc] using asks_reencrypt hmay hp hblob hdoc
      · intro l' e prepared he
        cases he
  · intro l e _ prepared he
    cases he

private theorem asks_prepare (via : String) (k : Heard) :
    Asks may (fun l o => ∀ prepared, o = .ok prepared → Ready old new l prepared) k
      (prepare old new via) := by
  simp only [prepare,bind_eq]
  apply (asks_pullVault hmay k).bind_any
  · intro l p hp
    rcases hblob : p.blob with _ | env
    · simpa using asks_syncAndReencrypt hmay via l
    · rcases hdoc : env.open? old.vaultKey with _ | doc
      · rcases hnew : env.open? new.vaultKey with _ | doc
        · simp [tryDecrypt,hdoc,hnew]
        · simp only [tryDecrypt,hdoc,hnew,Option.map_none,Option.map_some,pure_eq,asks_done]
          intro prepared he doc' hdoc' key hkey
          obtain rfl := Except.ok.inj he
          obtain rfl := Option.some.inj hdoc'
          exact ⟨p,env,doc,hp,hblob,Or.inl ⟨hnew,hkey⟩⟩
      · simpa [tryDecrypt,hdoc] using asks_syncAndReencrypt hmay via l
  · intro l e prepared he
    cases he

private theorem asks_installs {k l : Heard} {prepared : Prepared}
    (h : Ready old new l prepared) {a : (r : Request) × r.Ans} (hk : k = a :: l) :
    Asks may (fun _ o => o = .ok ()) k
      (forEach (fun key => putStoredKey (fromSyncedKey key))
        ((prepared.document.map VaultDocument.keys).getD [])) := by
  have hstep : ∀ key ∈ (prepared.document.map VaultDocument.keys).getD [], ∀ k',
      Grown (fun _ => True) l k' →
      Asks may (fun l' o => o = .ok () ∧ Grown (fun _ => True) k' l' ∧ True) k'
        (putStoredKey (fromSyncedKey key)) := by
    intro key hkey k' hk'
    rcases hdoc : prepared.document with _ | doc
    · simp [hdoc] at hkey
    · have hinst := (h doc hdoc key (by simpa [hdoc] using hkey)).grown hk'
      exact (asks_request _).mpr ⟨hmay _ _ (.installs hinst),fun _ => ⟨rfl,⟨[_],rfl,by simp⟩,trivial⟩⟩
  apply (asks_forEach (Q := fun _ _ => True) (fun _ _ _ _ _ => trivial) _ _ hstep
    ⟨[a],hk,by simp⟩).mono
  intro l' o ho
  exact ho.1

theorem asks_rekey (via : String) (k : Heard) :
    Asks may (fun _ _ => True) k (rekey old new via) := by
  simp only [rekey,bind_eq]
  apply (asks_prepare hmay via k).bind_any
  · intro l prepared hready
    simp only [changeCredential,query,bind_eq,request_bind,ask_bind,asks_ask]
    refine ⟨hmay _ _ .credential,fun reply => ?_⟩
    cases reply with
    | unreachable => simp
    | failed status => simp
    | unreadable => simp
    | ok _ =>
      simp only [pure_eq,done_bind]
      apply (asks_installs hmay hready rfl).bind
      · intro l' _ _
        exact (asks_ask _ _).mpr ⟨hmay _ _ .clears,fun _ => trivial⟩
      · intro l' e _
        trivial
  · intro l e
    trivial

end Rekey

inductive Restores (env : VaultEnvelope) (key : CryptoKey) (k : Heard) : Request → Prop
  | cycles {r : Request} (h : Cycles key k r) : Restores env key k r
  | applies {doc : WireDocument} {ours : VaultDocument} {r : Request}
      (hdoc : env.open? key = some doc) (hours : Reading k ours)
      (hr : Applies (mergeVault ours doc.filled) ours k r) : Restores env key k r

theorem asks_restoreVault {may : Heard → Request → Prop} {env : VaultEnvelope} {key : CryptoKey}
    (hmay : ∀ k r, Restores env key k r → may k r) (k : Heard) :
    Asks may (fun _ _ => True) k (restoreVault env key) := by
  have hcycle : ∀ l, Asks may (fun _ _ => True) l (syncVault key) :=
    asks_syncVault (fun l r hr => hmay l r (.cycles hr))
  have hreads : ∀ l (r : Request), r.readsLocally → may l r := by
    intro l r hr
    apply hmay l r
    apply Restores.cycles
    apply Cycles.reads
    cases r <;> simp_all [Request.readsLocally,Request.reads]
  by_cases hv : env.v = 1
  · rcases hdoc : env.open? key with _ | doc
    · simp [restoreVault,hv,hdoc]
    · simp only [restoreVault,hv,hdoc,restoreLocally,bind_eq,pure_eq,ne_eq,not_true_eq_false,if_false,
        done_bind,bind_assoc]
      apply (asks_readLocalVault hreads).bind_ok
      rintro l ours ⟨hours,-⟩
      have hkeep : ∀ {l'}, Grown Request.writesLocally l l' → Reading l' ours :=
        fun hl => hours.grown (keepsReading_of_writesLocally hl)
      apply (asks_applyVaultLocally
        (fun l' r hl hr => hmay l' r (.applies hdoc (hkeep hl) hr))).bind
      · intro l' _ _
        apply Asks.handle (fun _ _ => True)
        · apply (hcycle l').bind
          · intro l'' sync _
            trivial
          · intro l'' e _
            trivial
        · intro l'' a _
          trivial
        · intro l'' e _
          trivial
      · intro l' e _
        trivial
  · simp [restoreVault,hv]

def HostDraft.record (draft : HostDraft) (id : RecordId) (createdAt updatedAt : Nat) : Host :=
  ⟨id,draft.label,draft.hostname,draft.port,draft.username,draft.auth,draft.keyId,draft.agentId,
    draft.folder,draft.tags,createdAt,draft.lastUsedAt,some updatedAt⟩

def DrawsId (k : Heard) (given : Option RecordId) (id : RecordId) : Prop :=
  given = some id ∨ given = none ∧ ∃ n, id = .uuid n ∧ Latest k .randomUUID n

theorem DrawsId.cons {k : Heard} {given : Option RecordId} {id : RecordId} (h : DrawsId k given id)
    {r : Request} (hr : r ≠ .randomUUID) (x : r.Ans) : DrawsId (⟨r,x⟩ :: k) given id := by
  rcases h with h | ⟨h,n,hid,hn⟩
  · exact Or.inl h
  · exact Or.inr ⟨h,n,hid,hn.cons hr x⟩

inductive Saves (draft : HostDraft) (k : Heard) : Request → Prop
  | reads {r : Request} (h : r.reads) : Saves draft k r
  | puts {id : RecordId} {created now : Nat} (hid : DrawsId k draft.id id)
      (hcreated : draft.createdAt = some created ∨ draft.createdAt = none)
      (hnow : Latest k .dateNow now) : Saves draft k (.idbPut .hosts (draft.record id created now))

def Request.draws : Request → Prop
  | .dateNow => True
  | .randomUUID => True
  | .randomIv => True
  | _ => False

private theorem asks_orElse {α : Type} {may : Heard → Request → Prop} {k : Heard} {x : Option α}
    {p : Prog α} {mid : Heard → α → Prop} (hsome : ∀ a, x = some a → mid k a)
    (hnone : x = none → Asks may (fun l o => ∃ a, o = .ok a ∧ mid l a) k p) :
    Asks may (fun l o => ∃ a, o = .ok a ∧ mid l a) k (orElse x p) := by
  cases x with
  | none => exact hnone rfl
  | some a => exact ⟨a,rfl,hsome a rfl⟩

def Said (r : Request) (k : Heard) : Prop := ∃ x, (⟨r,x⟩ : (r : Request) × r.Ans) ∈ k

theorem asks_saveHost {may : Heard → Request → Prop} {draft : HostDraft} {k : Heard}
    (hmay : ∀ k' r, Grown Request.draws k k' → Saves draft k' r → may k' r) :
    Asks may (fun l _ => ∃ r, Said (.idbPut .hosts r) l) k (saveHost draft) := by
  have hreads : ∀ k' r, Grown Request.draws k k' → r.reads → may k' r :=
    fun k' r hk' hr => hmay k' r hk' (.reads hr)
  have hid : Asks may (fun l o => ∃ id, o = .ok id ∧ Grown Request.draws k l ∧
      DrawsId l draft.id id) k (orElse draft.id freshId) := by
    apply asks_orElse
    · intro id he
      exact ⟨Grown.refl k,Or.inl he⟩
    · intro he
      simp only [freshId,query,bind_eq,request_bind,asks_ask,pure_eq,asks_done]
      refine ⟨hreads k _ (Grown.refl k) trivial,fun n => ⟨_,rfl,?_,?_⟩⟩
      · exact (Grown.refl k).cons (r := .randomUUID) trivial n
      · exact Or.inr ⟨he,n,rfl,latest_cons_self _ _ _⟩
  simp only [saveHost,query,bind_eq,pure_eq]
  apply hid.bind_ok
  rintro l id ⟨hl,hid⟩
  have hcreated : Asks may (fun l' o => ∃ created, o = .ok created ∧ Grown Request.draws k l' ∧
      DrawsId l' draft.id id ∧ (draft.createdAt = some created ∨ draft.createdAt = none)) l
      (orElse draft.createdAt (query .dateNow)) := by
    apply asks_orElse
    · intro created he
      exact ⟨hl,hid,Or.inl he⟩
    · intro he
      refine (asks_request _).mpr ⟨hreads l _ hl trivial,fun created => ⟨_,rfl,?_,?_,Or.inr he⟩⟩
      · exact hl.cons (r := .dateNow) trivial created
      · exact hid.cons (by simp) created
  apply hcreated.bind_ok
  rintro l' created ⟨hl',hid',hcreated⟩
  simp only [request_bind,asks_ask,asks_done]
  refine ⟨hreads l' _ hl' trivial,fun now => ?_⟩
  have hnow : Grown Request.draws k (⟨.dateNow,now⟩ :: l') := hl'.cons (r := .dateNow) trivial now
  refine ⟨hmay _ _ hnow ?_,fun x => ⟨_,x,List.mem_cons_self⟩⟩
  exact .puts (hid'.cons (by simp) now) hcreated (latest_cons_self _ _ _)

def HostFields.over (f : HostFields) (h : Host) (lastUsedAt updatedAt : Nat) : Host :=
  { h with
    hostname := f.hostname, port := f.port, username := f.username, auth := f.auth
    keyId := f.keyId, agentId := f.agentId, lastUsedAt := some lastUsedAt
    updatedAt := some updatedAt }

def HostFields.fresh (f : HostFields) (id : RecordId) (lastUsedAt createdAt updatedAt : Nat) :
    Host :=
  ⟨id,f.username ++ "@" ++ f.hostname,f.hostname,f.port,f.username,f.auth,f.keyId,f.agentId,none,
    none,createdAt,some lastUsedAt,some updatedAt⟩

inductive Remembers (f : HostFields) (k : Heard) : Request → Prop
  | reads {r : Request} (h : r.reads) : Remembers f k r
  | saves {l : List Host} {e : Host} {used now : Nat} (hl : Latest k (.idbGetAll .hosts) l)
      (he : e ∈ l) (hnames : f.names e = true) (hnow : Latest k .dateNow now) :
      Remembers f k (.idbPut .hosts (f.over e used now))
  | creates {l : List Host} {n used created now : Nat} (hl : Latest k (.idbGetAll .hosts) l)
      (hnone : ∀ e ∈ l, f.names e = false) (hn : Latest k .randomUUID n)
      (hnow : Latest k .dateNow now) :
      Remembers f k (.idbPut .hosts (f.fresh (.uuid n) used created now))

inductive Connects (opts : ConnectOptions) (k : Heard) : Request → Prop
  | reads {r : Request} (h : r.reads) : Connects opts k r
  | connects {known : Option PinnedHostKey}
      (hknown : Latest k (.idbGet .hostkeys opts.pinId) known) :
      Connects opts k (.connect (known.map PinnedHostKey.key))
  | pins {known : Option PinnedHostKey} {info : HostKeyInfo} {now : Nat}
      (hknown : Latest k (.idbGet .hostkeys opts.pinId) known)
      (hshake : Latest k (.connect (known.map PinnedHostKey.key)) ⟨some info,none⟩)
      (hunknown : info.status = .unknown) (hnow : Latest k .dateNow now) :
      Connects opts k
        (.idbPut .hostkeys ⟨opts.pinId,info.key,info.fingerprint,info.type,now,now⟩)
  | touches {pin : PinnedHostKey} {now : Nat}
      (hpin : Latest k (.idbGet .hostkeys opts.pinId) (some pin)) :
      Connects opts k (.idbPut .hostkeys { pin with lastSeenAt := now })
  | remembers {f : HostFields} {r : Request} (h : Remembers f k r) : Connects opts k r
  | installs : Connects opts k .installKey

section Connect

variable {may : Heard → Request → Prop}

private theorem names_of_find? {f : HostFields} {l : List Host} {e : Host}
    (h : (l.insertionSort (fun a b => b.createdAt ≤ a.createdAt)).find? f.names = some e) :
    e ∈ l ∧ f.names e = true := by
  refine ⟨?_,List.find?_some h⟩
  have hmem := List.mem_of_find?_eq_some h
  rwa [List.mem_insertionSort] at hmem

private theorem names_of_find?_none {f : HostFields} {l : List Host}
    (h : (l.insertionSort (fun a b => b.createdAt ≤ a.createdAt)).find? f.names = none) :
    ∀ e ∈ l, f.names e = false := by
  intro e he
  have hall := List.find?_eq_none.mp h e ((List.mem_insertionSort _).mpr he)
  simpa using hall

theorem asks_rememberHost {f : HostFields} (hmay : ∀ k r, Remembers f k r → may k r)
    (create : Bool) (k : Heard) : Asks may (fun _ _ => True) k (rememberHost f create) := by
  simp only [rememberHost,listHosts,query,bind_eq,pure_eq,request_bind,ask_bind,done_bind,asks_ask]
  refine ⟨hmay _ _ (.reads trivial),fun l => ?_⟩
  have hl : ∀ {used : Nat} {k' : Heard}, Grown Request.draws (⟨.dateNow,used⟩ ::
      (⟨.idbGetAll .hosts,l⟩ : (r : Request) × r.Ans) :: k) k' → Latest k' (.idbGetAll .hosts) l := by
    intro used k' hk'
    exact Latest.grown (by simp) hk' (by simp [Request.draws])
  rcases hfind : (l.insertionSort (fun a b => b.createdAt ≤ a.createdAt)).find? f.names with _ | e
  · cases create with
    | false =>
      simp only [hfind,Option.isNone_none,Bool.not_false,Bool.and_true,if_true,asks_done]
    | true =>
      simp only [hfind,Bool.not_true,Bool.and_false,Bool.false_eq_true,if_false,asks_ask]
      refine ⟨hmay _ _ (.reads trivial),fun used => ?_⟩
      have hsave : Asks may (fun _ _ => True) (⟨.dateNow,used⟩ :: ⟨.idbGetAll .hosts,l⟩ :: k)
          (saveHost (f.draft none used)) := by
        apply (asks_saveHost ?_).mono (fun _ _ _ => trivial)
        intro k' r hk' hr
        apply hmay
        cases hr with
        | reads h => exact .reads h
        | puts hid hcreated hnow =>
          obtain ⟨n,rfl,hn⟩ : ∃ n, _ = RecordId.uuid n ∧ Latest k' .randomUUID n := by
            simpa [DrawsId,HostFields.draft] using hid
          exact .creates (hl hk') (names_of_find?_none hfind) hn hnow
      exact hsave.bind (fun _ _ _ => trivial) (fun _ _ _ => trivial)
  · simp only [hfind,Option.isNone_some,Bool.false_and,Bool.false_eq_true,if_false,asks_ask]
    refine ⟨hmay _ _ (.reads trivial),fun used => ?_⟩
    obtain ⟨he,hnames⟩ := names_of_find? hfind
    have hsave : Asks may (fun _ _ => True) (⟨.dateNow,used⟩ :: ⟨.idbGetAll .hosts,l⟩ :: k)
        (saveHost (f.draft (some e) used)) := by
      apply (asks_saveHost ?_).mono (fun _ _ _ => trivial)
      intro k' r hk' hr
      apply hmay
      cases hr with
      | reads h => exact .reads h
      | @puts id created now hid hcreated hnow =>
        have hid : e.id = id := by simpa [DrawsId,HostFields.draft] using hid
        have hcreated : e.createdAt = created := by simpa [HostFields.draft] using hcreated
        subst hid hcreated
        exact .saves (hl hk') he hnames hnow
    exact hsave.bind (fun _ _ _ => trivial) (fun _ _ _ => trivial)

variable {opts : ConnectOptions}

private theorem asks_recordHostKey (hmay : ∀ k r, Connects opts k r → may k r) {k : Heard}
    {known : Option PinnedHostKey} {seen : Option HostKeyInfo}
    (hknown : Latest k (.idbGet .hostkeys opts.pinId) known)
    (hshake : Latest k (.connect (known.map PinnedHostKey.key)) ⟨seen,none⟩) :
    Asks may (fun _ _ => True) k (recordHostKey opts seen) := by
  have htouch : Asks may (fun _ _ => True) k (touchPin opts.pinKey opts.port) := by
    simp only [touchPin,getPin,query,bind_eq,request_bind,asks_ask]
    refine ⟨hmay _ _ (.reads trivial),fun found => ?_⟩
    cases found with
    | none => trivial
    | some pin =>
      simp only [asks_ask]
      refine ⟨hmay _ _ (.reads trivial),fun now => ?_⟩
      have hpin : Latest (⟨.dateNow,now⟩ :: (⟨.idbGet .hostkeys opts.pinId,some pin⟩ :
          (r : Request) × r.Ans) :: k) (.idbGet .hostkeys opts.pinId) (some pin) := by simp
      exact (asks_request _).mpr ⟨hmay _ _ (.touches hpin),fun _ => trivial⟩
  cases seen with
  | none => exact htouch
  | some info =>
    by_cases hu : info.status = .unknown
    · simp only [recordHostKey,hu,if_true,Vault.pin,query,bind_eq,pure_eq,request_bind,ask_bind,
        done_bind,asks_ask,asks_done,implies_true,and_true]
      refine ⟨hmay _ _ (.reads trivial),fun now => hmay _ _ ?_⟩
      exact .pins (hknown.cons (by simp) now) (hshake.cons (by simp) now) hu
        (latest_cons_self _ _ _)
    · simpa only [recordHostKey,hu,if_false] using htouch

theorem asks_openSession (hmay : ∀ k r, Connects opts k r → may k r) (k : Heard) :
    Asks may (fun _ _ => True) k (openSession opts) := by
  by_cases hauth : (opts.keyId.isNone && (opts.password.getD "" == "")) = true
  · simp [openSession,hauth]
  · simp only [openSession,hauth,Bool.false_eq_true,if_false,getPin,query,bind_eq,pure_eq,request_bind,asks_ask]
    refine ⟨hmay _ _ (.reads trivial),fun known => ?_⟩
    refine ⟨hmay _ _ (.connects (latest_cons_self _ _ _)),fun shake => ?_⟩
    rcases hfail : shake.failure with _ | message
    · have hknown : Latest (⟨.connect (known.map PinnedHostKey.key),shake⟩ ::
          (⟨.idbGet .hostkeys opts.pinId,known⟩ : (r : Request) × r.Ans) :: k)
          (.idbGet .hostkeys opts.pinId) known := by simp
      obtain ⟨seen,failure⟩ := shake
      obtain rfl : failure = none := hfail
      apply (asks_recordHostKey hmay hknown (latest_cons_self _ _ _)).bind
      · intro l _ _
        have hremember := asks_rememberHost (f := opts.fields)
          (fun k r hr => hmay k r (.remembers hr)) opts.save l
        exact hremember.bind (fun _ _ _ => trivial) (fun _ _ _ => trivial)
      · intro l e _
        trivial
    · simp

theorem asks_connectAndInstallKey {keyId : RecordId}
    (hmay : ∀ k r, Connects { opts with keyId := none } k r → may k r) (k : Heard) :
    Asks may (fun _ _ => True) k (Vault.connectAndInstallKey opts keyId) := by
  simp only [Vault.connectAndInstallKey,bind_eq]
  apply (asks_openSession hmay k).bind
  · intro l _ _
    simp only [query,request_bind,asks_ask]
    refine ⟨hmay _ _ .installs,fun failure => ?_⟩
    cases failure with
    | some message => simp
    | none =>
      have hremember := asks_rememberHost
        (f := { opts.fields with keyId := some keyId, auth := some .key })
        (fun k r hr => hmay k r (.remembers hr)) false (⟨.installKey,none⟩ :: l)
      exact hremember.bind (fun _ _ _ => trivial) (fun _ _ _ => trivial)
  · intro l e _
    trivial

end Connect

def LocalOp.deletes : LocalOp → Option (Store × RecordId)
  | .deleteHost id => some (.hosts,id)
  | .deleteKey id => some (.keys,id)
  | .unpin host port => some (.hostkeys,.address host port)
  | _ => none

def LocalOp.buries : LocalOp → Option RecordId
  | .deleteHost id => some id
  | .deleteKey id => some id
  | .unpin host port => some (.address host port)
  | .deleteSnippet id => some id
  | _ => none

def LocalOp.saves : LocalOp → Option Store
  | .saveHost _ => some .hosts
  | .pin .. => some .hostkeys
  | _ => none

def LocalOp.maps : LocalOp → Bool
  | .saveSnippet _ => true
  | .deleteSnippet _ => true
  | _ => false

/-- The key that the operation makes, apart from its id, time and randomness. -/
def LocalOp.makesKey : LocalOp → Option (String × KeyMode × KeyMaterial × Option CryptoKey)
  | .generateKey label mode pair vaultKey => some (label,mode,pair,vaultKey)
  | .importKey label mode parsed vaultKey => some (label,mode,parsed,vaultKey)
  | _ => none

def SnippetDraft.record (draft : SnippetDraft) (id : RecordId) (now : Nat) : Snippet :=
  ⟨id,draft.name,draft.body,draft.description,draft.tags,draft.createdAt.getD now,now⟩

/-- No tombstone has been written yet. -/
def Unburied (k : Heard) : Prop := ∀ t, ¬ Said (.vaultPut .tombstones t) k

inductive Edits (op : LocalOp) (k : Heard) : Request → Prop
  | reads {r : Request} (h : r.reads) : Edits op k r
  | savesHost {draft : HostDraft} {r : Request} (hop : op = .saveHost draft) (h : Saves draft k r) :
      Edits op k r
  | deletes {s : Store} {id : RecordId} (hop : op.deletes = some (s,id)) (hk : Unburied k) :
      Edits op k (.idbDelete s id)
  | buries {id : RecordId} {t : Option Tombstones} {now : Nat} (hop : op.buries = some id)
      (ht : Latest k (.vaultGet .tombstones) t) (hnow : Latest k .dateNow now) :
      Edits op k (.vaultPut .tombstones ((t.getD (Table.empty _)).put (id,now)))
  | savesSnippet {draft : SnippetDraft} {id : RecordId} {now : Nat} {m : Option SnippetMap}
      (hop : op = .saveSnippet draft) (hid : DrawsId k draft.id id) (hnow : Latest k .dateNow now)
      (hm : Latest k (.vaultGet .snippets) m) :
      Edits op k (.vaultPut .snippets ((m.getD (Table.empty _)).put (draft.record id now)))
  | deletesSnippet {id : RecordId} {m : Option SnippetMap} (hop : op = .deleteSnippet id)
      (hm : Latest k (.vaultGet .snippets) m) (hk : Unburied k) :
      Edits op k (.vaultPut .snippets ((m.getD (Table.empty _)).erase id))
  | wraps {label : String} {material : KeyMaterial} {vaultKey : CryptoKey} {n now iv : Nat}
      (hop : op.makesKey = some (label,.portable,material,some vaultKey))
      (hn : Latest k .randomUUID n) (hnow : Latest k .dateNow now) :
      Edits op k (.idbPut .keys ⟨.uuid n,label,.portable,material.publicKeyRaw,
        some ⟨vaultKey,iv,material.pkcs8⟩,none,now⟩)
  | binds {label : String} {material : KeyMaterial} {vaultKey : Option CryptoKey} {n now : Nat}
      (hop : op.makesKey = some (label,.deviceBound,material,vaultKey))
      (hn : Latest k .randomUUID n) (hnow : Latest k .dateNow now) :
      Edits op k (.idbPut .keys ⟨.uuid n,label,.deviceBound,material.publicKeyRaw,none,
        some material.handle,now⟩)
  | pins {host : String} {port now : Nat} {info : HostKeyInfo} (hop : op = .pin host port info)
      (hnow : Latest k .dateNow now) :
      Edits op k
        (.idbPut .hostkeys ⟨.address host port,info.key,info.fingerprint,info.type,now,now⟩)

/-- An operation that is over has made the writes that it is there for. -/
structure Edited (op : LocalOp) (k : Heard) : Prop where
  put : ∀ s, op.saves = some s → ∃ r, Said (.idbPut s r) k
  deleted : ∀ s id, op.deletes = some (s,id) → Said (.idbDelete s id) k
  mapped : op.maps → ∃ m, Said (.vaultPut .snippets m) k
  buried : ∀ id, op.buries = some id → ∃ t, Said (.vaultPut .tombstones t) k

private theorem said_cons_self (r : Request) (x : r.Ans) (k : Heard) : Said r (⟨r,x⟩ :: k) :=
  ⟨x,List.mem_cons_self⟩

private theorem Said.grown {P : Request → Prop} {r : Request} {k l : Heard} (h : Said r k)
    (hl : Grown P k l) : Said r l := by
  obtain ⟨x,hx⟩ := h
  exact ⟨x,hl.mem hx⟩

private theorem edited_of_makesKey {op : LocalOp} {new : String × KeyMode × KeyMaterial × Option CryptoKey}
    (h : op.makesKey = some new) (k : Heard) : Edited op k := by
  cases op with
  | generateKey => exact ⟨by simp [LocalOp.saves],by simp [LocalOp.deletes],by simp [LocalOp.maps],
      by simp [LocalOp.buries]⟩
  | importKey => exact ⟨by simp [LocalOp.saves],by simp [LocalOp.deletes],by simp [LocalOp.maps],
      by simp [LocalOp.buries]⟩
  | _ => cases h

section Edit

variable {may : Heard → Request → Prop} {op : LocalOp}

private theorem asks_ignore {α : Type} {p : Prog α} {k : Heard}
    (h : Asks may (fun l _ => Edited op l) k p) : Asks may (fun l _ => Edited op l) k (ignore p) :=
  h.bind (fun _ _ hl => hl) (fun _ _ hl => hl)

variable (hmay : ∀ k r, Edits op k r → may k r)

include hmay

private theorem asks_recordDeletion {id : RecordId} (hop : op.buries = some id) (k : Heard) :
    Asks may (fun l _ => Grown (fun _ => True) k l ∧ ∃ t, Said (.vaultPut .tombstones t) l) k
      (recordDeletion id) := by
  simp only [recordDeletion,getTombstones,query,bind_eq,pure_eq,request_bind,ask_bind,done_bind,
    asks_ask]
  refine ⟨hmay _ _ (.reads trivial),fun t => ⟨hmay _ _ (.reads trivial),fun now => ?_⟩⟩
  have ht : Latest (⟨.dateNow,now⟩ :: (⟨.vaultGet .tombstones,t⟩ : (r : Request) × r.Ans) :: k)
      (.vaultGet .tombstones) t := by simp
  refine (asks_request _).mpr ⟨hmay _ _ (.buries hop ht (latest_cons_self _ _ _)),fun _ => ?_⟩
  exact ⟨⟨[_,_,_],rfl,by simp⟩,_,said_cons_self _ _ _⟩

private theorem asks_delete {s : Store} {id : RecordId} (hdel : op.deletes = some (s,id))
    (hbury : op.buries = some id) (hsaves : op.saves = none) (hmaps : op.maps = false) :
    Asks may (fun l _ => Edited op l) []
      ((query (.idbDelete s id)).bind (fun _ => recordDeletion id)) := by
  simp only [query,request_bind,asks_ask]
  refine ⟨hmay _ _ (.deletes hdel (by simp [Unburied,Said])),fun x => ?_⟩
  apply (asks_recordDeletion hmay hbury _).mono
  rintro l o ⟨hl,hburied⟩
  refine ⟨by simp [hsaves],?_,by simp [hmaps],fun _ _ => hburied⟩
  intro s' id' he
  obtain ⟨rfl,rfl⟩ := Prod.mk.inj (Option.some.inj (hdel.symm.trans he))
  exact (said_cons_self _ x _).grown hl

private theorem asks_deleteSnippet {id : RecordId} (hop : op = .deleteSnippet id) :
    Asks may (fun l _ => Edited op l) [] (Vault.deleteSnippet id) := by
  subst hop
  simp only [Vault.deleteSnippet,readMap,writeMap,query,bind_eq,pure_eq,request_bind,ask_bind,
    done_bind,asks_ask]
  refine ⟨hmay _ _ (.reads trivial),fun m => ?_⟩
  refine ⟨hmay _ _ (.deletesSnippet rfl (latest_cons_self _ _ _) (by simp [Unburied,Said])),
    fun x => ?_⟩
  apply (asks_recordDeletion hmay rfl _).mono
  rintro l o ⟨hl,hburied⟩
  refine ⟨by simp [LocalOp.saves],by simp [LocalOp.deletes],?_,fun _ _ => hburied⟩
  intro _
  exact ⟨_,(said_cons_self _ x _).grown hl⟩

private theorem asks_saveSnippet {draft : SnippetDraft} (hop : op = .saveSnippet draft)
    (k : Heard) : Asks may (fun l _ => ∃ m, Said (.vaultPut .snippets m) l) k
      (Vault.saveSnippet draft) := by
  simp only [Vault.saveSnippet,query,bind_eq,pure_eq,request_bind,asks_ask]
  refine ⟨hmay _ _ (.reads trivial),fun now => ?_⟩
  have hid : Asks may (fun l o => ∃ id, o = .ok id ∧ DrawsId l draft.id id ∧
      Latest l .dateNow now) (⟨.dateNow,now⟩ :: k) (orElse draft.id freshId) := by
    apply asks_orElse
    · intro id he
      exact ⟨Or.inl he,latest_cons_self _ _ _⟩
    · intro he
      simp only [freshId,query,bind_eq,request_bind,asks_ask,pure_eq,asks_done]
      refine ⟨hmay _ _ (.reads trivial),fun n => ⟨_,rfl,Or.inr ⟨he,n,rfl,?_⟩,?_⟩⟩
      · exact latest_cons_self _ _ _
      · exact (latest_cons_self _ _ _).cons (by simp) n
  apply hid.bind_ok
  rintro l id ⟨hid,hnow⟩
  simp only [readMap,writeMap,query,bind_eq,pure_eq,request_bind,ask_bind,done_bind,asks_ask]
  refine ⟨hmay _ _ (.reads trivial),fun m => ⟨hmay _ _ ?_,fun x => ⟨_,said_cons_self _ x _⟩⟩⟩
  exact .savesSnippet hop (hid.cons (by simp) m) (hnow.cons (by simp) m) (latest_cons_self _ _ _)

private theorem asks_storeNewKey {refusal label : String} {mode : KeyMode}
    {material : KeyMaterial} {vaultKey : Option CryptoKey}
    (hop : op.makesKey = some (label,mode,material,vaultKey)) (k : Heard) :
    Asks may (fun _ _ => True) k (storeNewKey refusal label mode material vaultKey) := by
  have hread : ∀ l (r : Request), r.reads → may l r := fun l r hr => hmay l r (.reads hr)
  cases mode with
  | portable =>
    cases vaultKey with
    | none => simp [storeNewKey]
    | some vaultKey =>
      simp only [storeNewKey,freshId,query,bind_eq,pure_eq,request_bind,ask_bind,done_bind,asks_ask,
        asks_done,implies_true,and_true]
      refine ⟨hread _ _ trivial,fun n => ⟨hread _ _ trivial,fun now => ⟨hread _ _ trivial,
        fun iv => hmay _ _ ?_⟩⟩⟩
      exact .wraps hop (by simp) (by simp)
  | deviceBound =>
    simp only [storeNewKey,freshId,query,bind_eq,pure_eq,request_bind,ask_bind,done_bind,asks_ask,
      asks_done,implies_true,and_true]
    refine ⟨hread _ _ trivial,fun n => ⟨hread _ _ trivial,fun now => hmay _ _ ?_⟩⟩
    exact .binds hop (by simp) (by simp)

theorem asks_edit : Asks may (fun l _ => Edited op l) [] op.code := by
  cases op with
  | saveHost draft =>
    have hsave := asks_saveHost (k := [])
      (fun l r (_ : Grown Request.draws [] l) hr => hmay l r (.savesHost rfl hr))
    apply asks_ignore
    apply hsave.mono
    intro l _ hput
    refine ⟨?_,by simp [LocalOp.deletes],by simp [LocalOp.maps],by simp [LocalOp.buries]⟩
    rintro s ⟨⟩
    exact hput
  | deleteHost id => exact asks_delete hmay rfl rfl rfl rfl
  | saveSnippet draft =>
    apply asks_ignore
    apply (asks_saveSnippet hmay rfl []).mono
    intro l _ hmapped
    exact ⟨by simp [LocalOp.saves],by simp [LocalOp.deletes],fun _ => hmapped,
      by simp [LocalOp.buries]⟩
  | deleteSnippet id => exact asks_deleteSnippet hmay rfl
  | generateKey label mode pair vaultKey =>
    apply asks_ignore
    exact (asks_storeNewKey hmay rfl []).mono (fun l _ _ => edited_of_makesKey rfl l)
  | importKey label mode parsed vaultKey =>
    apply asks_ignore
    exact (asks_storeNewKey hmay rfl []).mono (fun l _ _ => edited_of_makesKey rfl l)
  | deleteKey id => exact asks_delete hmay rfl rfl rfl rfl
  | pin host port info =>
    apply asks_ignore
    simp only [Vault.pin,query,bind_eq,pure_eq,request_bind,asks_ask,asks_done]
    refine ⟨hmay _ _ (.reads trivial),fun now =>
      ⟨hmay _ _ (.pins rfl (latest_cons_self _ _ _)),fun x => ?_⟩⟩
    refine ⟨?_,by simp [LocalOp.deletes],by simp [LocalOp.maps],by simp [LocalOp.buries]⟩
    rintro s ⟨⟩
    exact ⟨_,said_cons_self _ x _⟩
  | unpin host port => exact asks_delete hmay rfl rfl rfl rfl

end Edit

variable (acc : Account)

/-- What a job may ask after what it has heard. -/
def Job.Asked : Job → Heard → Request → Prop
  | .sync _ key => Cycles key
  | .changePassword _ current new =>
    Rekeys (acc.kdf.deriveSecrets acc.email current) (acc.kdf.deriveSecrets acc.email new)
  | .recover _ old new => Rekeys old (acc.kdf.deriveSecrets acc.email new)
  | .restore _ envelope key => Restores envelope key
  | .connect _ opts => Connects opts
  | .connectAndInstallKey _ opts _ => Connects { opts with keyId := none }
  | .edit _ op => Edits op

/-- What a job that has ended leaves behind. -/
def Job.Ended : Job → Heard → Prop
  | .edit _ op => Edited op
  | _ => fun _ => True

private theorem asks_syncNow {may : Heard → Request → Prop} {key : CryptoKey}
    (hmay : ∀ k r, Cycles key k r → may k r) (k : Heard) :
    Asks may (fun _ _ => True) k (syncNow key) := by
  apply Asks.handle (fun _ _ => True)
  · apply (asks_syncVault hmay k).bind
    · intro l result _
      by_cases hup : result.status = .upToDate
      · simp only [hup,ne_eq,not_true_eq_false,if_false,pure_eq,asks_done]
      · simp only [hup,ne_eq,not_false_eq_true,if_true,query,bind_eq,request_bind,asks_ask,pure_eq,
          asks_done,implies_true,and_true]
        exact hmay _ _ (.reads trivial)
    · intro l e _
      trivial
  · intro l res _
    trivial
  · intro l e _
    trivial

private theorem asks_return {α : Type} {may : Heard → Request → Prop} {post : Heard → Prop}
    {k : Heard} {p : Prog α} {out : α → Outcome} (h : Asks may (fun l _ => post l) k p) :
    Asks may (fun l _ => post l) k (p.bind (fun a => done (out a))) :=
  h.bind (fun _ _ hl => hl) (fun _ _ hl => hl)

theorem asks_code (job : Job) :
    Asks (job.Asked acc) (fun l _ => job.Ended l) [] (job.code acc) := by
  cases job with
  | sync device key => exact asks_return (asks_syncNow (fun _ _ h => h) [])
  | changePassword device current new =>
    apply asks_return
    by_cases h : current = new
    · simp [changePasswordAndRekey,h,Job.Ended]
    · simp only [changePasswordAndRekey,h,if_false]
      exact asks_rekey (fun _ _ h => h) _ []
  | recover device old new =>
    apply asks_return
    by_cases h : (acc.kdf.deriveSecrets acc.email new).authToken = old.authToken
    · simp [rekeyAfterRecovery,h,Job.Ended]
    · simp only [rekeyAfterRecovery,h,if_false]
      exact asks_rekey (fun _ _ h => h) _ []
  | restore device envelope key => exact asks_return (asks_restoreVault (fun _ _ h => h) [])
  | connect device opts => exact asks_return (asks_openSession (fun _ _ h => h) [])
  | connectAndInstallKey device opts keyId =>
    exact asks_return (asks_connectAndInstallKey (fun _ _ h => h) [])
  | edit device op => exact asks_return (asks_edit (fun _ _ h => h))

def behaviour : Behaviour (system acc) where
  may := Job.Asked acc
  post job l _ := job.Ended l
  code job := asks_code acc job

variable {acc} {s : State acc} {as : List Step}

theorem follows_after (s : State acc) (as : List Step) :
    (behaviour acc).Follows ((system acc).after (World.init s) as) :=
  (behaviour acc).follows_after ((behaviour acc).follows_init s) as

theorem asked_of_thread {i : Nat} {job : Job} {r : Request} {next : r.Ans → Prog Outcome}
    (hi : ((system acc).after (World.init s) as).threads[i]? = some ⟨job,.ask r next⟩) :
    job.Asked acc (transcript ((system acc).after (World.init s) as).log i) r :=
  (behaviour acc).may_of_follows (follows_after s as) hi

/-- What every request that a step of an allowed run can make keeps, holds at the end of it. -/
theorem invariant_after {ok : AccountWorld acc → Step → Prop} (jobs : Nat → Job → Prop)
    (hstart : ∀ w job, ok w (.start job) → jobs w.threads.length job)
    (inv : State acc → Log → Prop)
    (hstep : ∀ w i job env r next, ok w (.step i env) →
      w.threads[i]? = some ⟨job,.ask r next⟩ → jobs i job →
      job.Asked acc (transcript w.log i) r → inv w.shared w.log →
      inv (exec job env w.shared r).1 (⟨i,job,r,(exec job env w.shared r).2⟩ :: w.log))
    (h : inv s []) (hok : Along (system acc).act ok (World.init s) as) :
    inv ((system acc).after (World.init s) as).shared
      ((system acc).after (World.init s) as).log :=
  (behaviour acc).invariant_after jobs hstart inv
    (fun w i job env r next _ ha hi hjob hmay hinv =>
      hstep w i job env r next ha hi hjob hmay hinv)
    ((behaviour acc).follows_init s) (fun i t ht => by simp [World.init] at ht) h hok

end WeirdVault.Vault
