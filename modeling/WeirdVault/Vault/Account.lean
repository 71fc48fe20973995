import Mathlib.Data.List.Perm.Basic
import WeirdVault.Framework.Recorded
import WeirdVault.Vault.Connect
import WeirdVault.Vault.Rekey
import WeirdVault.Vault.Restore

/-!
# An account: its devices, its server state and everything that runs on them

Each request is executed on the IndexedDB of the device that asks it, or by the routes of the
server. Any number of jobs run on any number of devices, one request at a time. The codes that
`/api/recovery` holds have a model of their own and are not part of this state.
-/

namespace WeirdVault.Vault

open WeirdVault.Framework

structure LocalDb where
  hosts : Table Host.id
  keys : Table StoredKey.id
  hostkeys : Table PinnedHostKey.id
  snippets : Option SnippetMap
  tombstones : Option Tombstones
  syncState : Option SyncState
  deriving DecidableEq

namespace LocalDb

def fresh : LocalDb := ⟨Table.empty _,Table.empty _,Table.empty _,none,none,none⟩

def store (db : LocalDb) : (s : Store) → Table s.id
  | .hosts => db.hosts
  | .keys => db.keys
  | .hostkeys => db.hostkeys

def setStore (db : LocalDb) : (s : Store) → Table s.id → LocalDb
  | .hosts,t => { db with hosts := t }
  | .keys,t => { db with keys := t }
  | .hostkeys,t => { db with hostkeys := t }

def cell (db : LocalDb) : (c : Cell) → Option c.Val
  | .snippets => db.snippets
  | .tombstones => db.tombstones
  | .syncState => db.syncState

def setCell (db : LocalDb) : (c : Cell) → c.Val → LocalDb
  | .snippets,v => { db with snippets := some v }
  | .tombstones,v => { db with tombstones := some v }
  | .syncState,v => { db with syncState := some v }

variable (db : LocalDb)

@[simp] theorem store_setStore_self (s : Store) (t : Table s.id) :
    (db.setStore s t).store s = t := by
  cases s <;> rfl

theorem store_setStore_of_ne {s s' : Store} (t : Table s.id) (h : s' ≠ s) :
    (db.setStore s t).store s' = db.store s' := by
  cases s <;> cases s' <;> first | rfl | exact absurd rfl h

@[simp] theorem cell_setStore (s : Store) (t : Table s.id) (c : Cell) :
    (db.setStore s t).cell c = db.cell c := by
  cases s <;> cases c <;> rfl

@[simp] theorem cell_setCell_self (c : Cell) (v : c.Val) : (db.setCell c v).cell c = some v := by
  cases c <;> rfl

theorem cell_setCell_of_ne {c c' : Cell} (v : c.Val) (h : c' ≠ c) :
    (db.setCell c v).cell c' = db.cell c' := by
  cases c <;> cases c' <;> first | rfl | exact absurd rfl h

@[simp] theorem store_setCell (c : Cell) (v : c.Val) (s : Store) :
    (db.setCell c v).store s = db.store s := by
  cases c <;> cases s <;> rfl

def apply (db : LocalDb) : Request → LocalDb
  | .idbPut st r => db.setStore st ((db.store st).put r)
  | .idbDelete st id => db.setStore st ((db.store st).erase id)
  | .vaultPut c v => db.setCell c v
  | _ => db

end LocalDb

/-- Better Auth's password: what `verify` accepts, and a change that asks for the current one. -/
structure BetterAuth where
  Credential : Type
  verify : Credential → String → Bool
  change : Credential → String → String → Option Credential
  change_isSome : ∀ c current new, (change c current new).isSome = verify c current
  verify_change : ∀ {c current new c'}, change c current new = some c' →
    ∀ token, verify c' token = (token == new)

/-- The row of `vault_blob`: versions start at one. -/
structure VaultRow where
  version : Nat
  blob : VaultEnvelope
  positive : 0 < version
  deriving DecidableEq

def GET (row : Option VaultRow) : FetchReply PulledVault :=
  match row with
  | none => .ok ⟨0,none⟩
  | some row => .ok ⟨row.version,some row.blob⟩

def PUT (row : Option VaultRow) (blob : VaultEnvelope) (baseVersion : Nat) :
    Option VaultRow × FetchReply Nat :=
  let written : Option VaultRow := some ⟨baseVersion+1,blob,Nat.succ_pos baseVersion⟩
  match row with
  | none => if baseVersion = 0 then (written,.ok (baseVersion+1)) else (none,.failed 409)
  | some row =>
    if baseVersion ≠ 0 ∧ row.version = baseVersion then (written,.ok (baseVersion+1))
    else (some row,.failed 409)

def version (row : Option VaultRow) : Nat := (row.map VaultRow.version).getD 0

def contents (row : Option VaultRow) : VaultDocument :=
  (row.map (fun r => r.blob.ct.plain.filled)).getD emptyDoc

theorem PUT_ok {row : Option VaultRow} {blob : VaultEnvelope} {base v : Nat}
    (h : (PUT row blob base).2 = .ok v) :
    version row = base ∧ v = base+1 ∧
      (PUT row blob base).1 = some ⟨base+1,blob,Nat.succ_pos base⟩ := by
  cases row with
  | none =>
    by_cases hb : base = 0
    · simp_all [PUT,version]
    · simp [PUT,hb] at h
  | some row =>
    by_cases hb : base ≠ 0 ∧ row.version = base
    · simp only [PUT,if_pos hb,FetchReply.ok.injEq] at h
      exact ⟨hb.2,h.symm,by simp only [PUT,if_pos hb]⟩
    · simp [PUT,if_neg hb] at h

theorem PUT_of_version {row : Option VaultRow} {blob : VaultEnvelope} {base : Nat}
    (h : version row = base) : (PUT row blob base).2 = .ok (base+1) := by
  subst h
  cases row with
  | none => simp [PUT,version]
  | some row =>
    have hpos := row.positive
    have hne : row.version ≠ 0 := by omega
    simp [PUT,version,hne]

theorem PUT_conflict {row : Option VaultRow} {blob : VaultEnvelope} {base : Nat}
    (h : ∀ v, (PUT row blob base).2 ≠ .ok v) : (PUT row blob base).1 = row := by
  cases row with
  | none =>
    by_cases hb : base = 0
    · exact absurd (by simp [PUT,hb]) (h (base+1))
    · simp [PUT,hb]
  | some row =>
    by_cases hb : base ≠ 0 ∧ row.version = base
    · exact absurd (by simp only [PUT,if_pos hb]) (h (base+1))
    · simp only [PUT,if_neg hb]

/-- What happens to a request on its way to the server and to the answer on its way back. A refusal
never is a conflict: that answer only the route's comparison of versions gives. -/
inductive Delivery
  | delivered
  | lostRequest
  | lostResponse
  | cutResponse
  | refused (status : Nat) (noConflict : status ≠ 409)
  deriving DecidableEq

/-- The state after the request and what `fetch` makes of the answer, from what the route did. -/
def Delivery.carry {σ α : Type} (d : Delivery) (s : σ) (served : σ × FetchReply α) :
    σ × FetchReply α :=
  match d with
  | .delivered => served
  | .lostRequest => (s,.unreachable)
  | .lostResponse => (served.1,.unreachable)
  | .cutResponse =>
    (served.1,match served.2 with
      | .ok _ => .unreadable
      | reply => reply)
  | .refused status _ => (s,.failed status)

def Delivery.reaches : Delivery → Bool
  | .lostRequest => false
  | .refused .. => false
  | _ => true

theorem carry_fst {σ α : Type} (d : Delivery) (s : σ) (served : σ × FetchReply α) :
    (d.carry s served).1 = if d.reaches then served.1 else s := by
  cases d <;> rfl

theorem carry_ok {σ α : Type} {d : Delivery} {s : σ} {served : σ × FetchReply α} {a : α}
    (h : (d.carry s served).2 = .ok a) : d.carry s served = served := by
  cases d with
  | delivered => rfl
  | lostRequest => simp [Delivery.carry] at h
  | lostResponse => simp [Delivery.carry] at h
  | cutResponse =>
    simp only [Delivery.carry] at h
    split at h
    · simp at h
    · rename_i hne
      exact absurd h (hne a)
  | refused status noConflict => simp [Delivery.carry] at h

theorem carry_conflict {σ α : Type} {d : Delivery} {s : σ} {served : σ × FetchReply α}
    (h : (d.carry s served).2 = .failed 409) : served.2 = .failed 409 := by
  cases d with
  | delivered => exact h
  | lostRequest => simp [Delivery.carry] at h
  | lostResponse => simp [Delivery.carry] at h
  | cutResponse =>
    simp only [Delivery.carry] at h
    split at h
    · simp at h
    · exact h
  | refused status noConflict => exact absurd (FetchReply.failed.inj h) noConflict

abbrev DeviceId := Nat

inductive LocalOp
  | saveHost (draft : HostDraft)
  | deleteHost (id : RecordId)
  | saveSnippet (draft : SnippetDraft)
  | deleteSnippet (id : RecordId)
  | generateKey (label : String) (mode : KeyMode) (pair : KeyMaterial)
      (vaultKey : Option CryptoKey)
  | importKey (label : String) (mode : KeyMode) (parsed : KeyMaterial)
      (vaultKey : Option CryptoKey)
  | deleteKey (id : RecordId)
  | pin (host : String) (port : Nat) (info : HostKeyInfo)
  | unpin (host : String) (port : Nat)
  deriving DecidableEq, Repr

inductive Job
  | sync (device : DeviceId) (vaultKey : CryptoKey)
  | changePassword (device : DeviceId) (currentPassword newPassword : String)
  | recover (device : DeviceId) (oldSecrets : DerivedSecrets) (newPassword : String)
  | restore (device : DeviceId) (envelope : VaultEnvelope) (vaultKey : CryptoKey)
  | connect (device : DeviceId) (opts : ConnectOptions)
  | connectAndInstallKey (device : DeviceId) (opts : ConnectOptions) (keyId : RecordId)
  | edit (device : DeviceId) (op : LocalOp)
  deriving DecidableEq

def Job.device : Job → DeviceId
  | .sync d _ => d
  | .changePassword d _ _ => d
  | .recover d _ _ => d
  | .restore d _ _ => d
  | .connect d _ => d
  | .connectAndInstallKey d _ _ => d
  | .edit d _ => d

inductive Outcome
  | sync (result : Option SyncResult)
  | rekey (result : RekeyResult)
  | restore (result : RestoreResult)
  | done
  deriving DecidableEq, Repr

def ignore {α : Type} (p : Prog α) : Prog Unit := p.bind (fun _ => pure ())

def LocalOp.code : LocalOp → Prog Unit
  | .saveHost draft => ignore (Vault.saveHost draft)
  | .deleteHost id => Vault.deleteHost id
  | .saveSnippet draft => ignore (Vault.saveSnippet draft)
  | .deleteSnippet id => Vault.deleteSnippet id
  | .generateKey label mode pair vaultKey => ignore (Vault.generateKey label mode pair vaultKey)
  | .importKey label mode parsed vaultKey => ignore (Vault.importKey label mode parsed vaultKey)
  | .deleteKey id => Vault.deleteKey id
  | .pin host port info => ignore (Vault.pin host port info)
  | .unpin host port => Vault.unpin host port

/-- One account and the parts of it that are not this repository's. -/
structure Account where
  email : String
  kdf : Kdf
  auth : BetterAuth

variable (acc : Account)

def Job.code : Job → Prog Outcome
  | .sync _ vaultKey => do return .sync (← syncNow vaultKey)
  | .changePassword _ currentPassword newPassword => do
    return .rekey (← changePasswordAndRekey acc.kdf acc.email currentPassword newPassword)
  | .recover _ oldSecrets newPassword => do
    return .rekey (← rekeyAfterRecovery acc.kdf acc.email oldSecrets newPassword)
  | .restore _ envelope vaultKey => do return .restore (← restoreVault envelope vaultKey)
  | .connect _ opts => do
    openSession opts
    return .done
  | .connectAndInstallKey _ opts keyId => do
    Vault.connectAndInstallKey opts keyId
    return .done
  | .edit _ op => do
    op.code
    return .done

structure State where
  device : DeviceId → LocalDb
  row : Option VaultRow
  credential : acc.auth.Credential
  recordings : List (Sealed Bytes)

/-- What is not determined by the state: the clock, random numbers, the order in which `getAll`
lists a store, the network, the server that a connection reaches and whether it accepts it. -/
structure Env where
  now : Nat
  random : Nat
  listing : (s : Store) → List s.Rec
  network : Delivery
  presented : Option PresentedKey
  failure : Option String

namespace State

variable {acc}

def setDb (s : State acc) (d : DeviceId) (db : LocalDb) : State acc :=
  { s with device := Function.update s.device d db }

@[simp] theorem device_setDb_self (s : State acc) (d : DeviceId) (db : LocalDb) :
    (s.setDb d db).device d = db := by
  simp [setDb]

theorem device_setDb_of_ne (s : State acc) {d d' : DeviceId} (db : LocalDb) (h : d' ≠ d) :
    (s.setDb d db).device d' = s.device d' := by
  simp [setDb,h]

@[simp] theorem row_setDb (s : State acc) (d : DeviceId) (db : LocalDb) :
    (s.setDb d db).row = s.row := rfl

@[simp] theorem credential_setDb (s : State acc) (d : DeviceId) (db : LocalDb) :
    (s.setDb d db).credential = s.credential := rfl

@[simp] theorem recordings_setDb (s : State acc) (d : DeviceId) (db : LocalDb) :
    (s.setDb d db).recordings = s.recordings := rfl

end State

def arrange {τ : Type} [DecidableEq τ] (rows listing : List τ) : List τ :=
  if listing.Perm rows then listing else rows

theorem arrange_perm {τ : Type} [DecidableEq τ] (rows listing : List τ) :
    (arrange rows listing).Perm rows := by
  unfold arrange
  split
  · assumption
  · exact List.Perm.refl rows

instance Store.decidableEqRec : (s : Store) → DecidableEq s.Rec
  | .hosts => inferInstanceAs (DecidableEq Host)
  | .keys => inferInstanceAs (DecidableEq StoredKey)
  | .hostkeys => inferInstanceAs (DecidableEq PinnedHostKey)

/-- A connection that gets as far as the host key runs the callback; it fails when that refuses or
when the environment says so. -/
def handshake (env : Env) (knownHostKey : Option HostKey) : Handshake :=
  match env.presented with
  | none => ⟨none,some (env.failure.getD "connection failed")⟩
  | some presented =>
    let (info,refusal) := hostKeyCallback knownHostKey presented
    ⟨some info,refusal <|> env.failure⟩

variable {acc}

def putServed (s : State acc) (blob : VaultEnvelope) (baseVersion : Nat) :
    State acc × FetchReply Nat :=
  ({ s with row := (PUT s.row blob baseVersion).1 },(PUT s.row blob baseVersion).2)

def changeServed (s : State acc) (current new : String) : State acc × FetchReply Unit :=
  match acc.auth.change s.credential current new with
  | some credential => ({ s with credential := credential },.ok ())
  | none => (s,.failed 400)

def exec (job : Job) (env : Env) (s : State acc) : (r : Request) → State acc × r.Ans
  | .idbGetAll st => (s,arrange ((s.device job.device).store st).rows (env.listing st))
  | .idbGet st id => (s,((s.device job.device).store st).get? id)
  | .idbPut st r =>
    let db := s.device job.device
    (s.setDb job.device (db.setStore st ((db.store st).put r)),())
  | .idbDelete st id =>
    let db := s.device job.device
    (s.setDb job.device (db.setStore st ((db.store st).erase id)),())
  | .vaultGet c => (s,(s.device job.device).cell c)
  | .vaultPut c v => (s.setDb job.device ((s.device job.device).setCell c v),())
  | .dateNow => (s,env.now)
  | .randomUUID => (s,env.random)
  | .randomIv => (s,env.random)
  | .getVault => env.network.carry s (s,GET s.row)
  | .putVault blob baseVersion => env.network.carry s (putServed s blob baseVersion)
  | .changePassword current new => env.network.carry s (changeServed s current new)
  | .deleteRecovery => env.network.carry s (s,.ok ())
  | .connect knownHostKey => (s,handshake env knownHostKey)
  | .installKey => (s,env.failure)
  | .bump => (s,())

section Exec

variable (job : Job) (env : Env) (s : State acc)

theorem row_exec_put (blob : VaultEnvelope) (base : Nat) :
    (exec job env s (.putVault blob base)).1.row =
      if env.network.reaches then (PUT s.row blob base).1 else s.row := by
  simp only [exec,carry_fst]
  split <;> rfl

theorem device_exec (r : Request) :
    (exec job env s r).1.device job.device = (s.device job.device).apply r := by
  cases r with
  | getVault =>
    simp only [exec,carry_fst]
    split <;> rfl
  | putVault blob base =>
    simp only [exec,carry_fst]
    split <;> rfl
  | changePassword current new =>
    simp only [exec,carry_fst,changeServed]
    split
    · split <;> rfl
    · rfl
  | deleteRecovery =>
    simp only [exec,carry_fst]
    split <;> rfl
  | idbPut st r => simp [exec,LocalDb.apply]
  | idbDelete st id => simp [exec,LocalDb.apply]
  | vaultPut c v => simp [exec,LocalDb.apply]
  | _ => rfl

theorem device_exec_of_ne {d : DeviceId} (h : d ≠ job.device) (r : Request) :
    (exec job env s r).1.device d = s.device d := by
  cases r with
  | getVault =>
    simp only [exec,carry_fst]
    split <;> rfl
  | putVault blob base =>
    simp only [exec,carry_fst]
    split <;> rfl
  | changePassword current new =>
    simp only [exec,carry_fst,changeServed]
    split
    · split <;> rfl
    · rfl
  | deleteRecovery =>
    simp only [exec,carry_fst]
    split <;> rfl
  | idbPut st r => exact State.device_setDb_of_ne s _ h
  | idbDelete st id => exact State.device_setDb_of_ne s _ h
  | vaultPut c v => exact State.device_setDb_of_ne s _ h
  | _ => rfl

theorem row_exec {r : Request} (h : ∀ blob base, r ≠ .putVault blob base) :
    (exec job env s r).1.row = s.row := by
  cases r with
  | putVault blob base => exact absurd rfl (h blob base)
  | getVault =>
    simp only [exec,carry_fst]
    split <;> rfl
  | changePassword current new =>
    simp only [exec,carry_fst,changeServed]
    split
    · split <;> rfl
    · rfl
  | deleteRecovery =>
    simp only [exec,carry_fst]
    split <;> rfl
  | _ => rfl

theorem row_exec_cases (r : Request) :
    (exec job env s r).1.row = s.row ∨ ∃ blob base v, r = .putVault blob base ∧
      env.network.reaches = true ∧ (PUT s.row blob base).2 = .ok v ∧
        (exec job env s r).1.row = (PUT s.row blob base).1 := by
  by_cases hput : ∃ blob base, r = .putVault blob base
  · obtain ⟨blob,base,rfl⟩ := hput
    rw [row_exec_put]
    cases hreach : env.network.reaches with
    | false => exact Or.inl rfl
    | true =>
      rcases hreply : (PUT s.row blob base).2 with _ | status | _ | v
      · exact Or.inl (PUT_conflict (by simp [hreply]))
      · exact Or.inl (PUT_conflict (by simp [hreply]))
      · exact Or.inl (PUT_conflict (by simp [hreply]))
      · exact Or.inr ⟨blob,base,v,rfl,rfl,hreply,rfl⟩
  · exact Or.inl (row_exec job env s (fun blob base he => hput ⟨blob,base,he⟩))

theorem pulled_of_ok {p : PulledVault} (h : (exec job env s .getVault).2 = .ok p) :
    p.version = version s.row ∧ p.blob = s.row.map VaultRow.blob := by
  have hserved := carry_ok h
  have hget : GET s.row = .ok p := by
    rw [← h]
    exact (congrArg Prod.snd hserved).symm
  cases hrow : s.row with
  | none =>
    simp only [GET,hrow,FetchReply.ok.injEq] at hget
    simp [← hget,version]
  | some row =>
    simp only [GET,hrow,FetchReply.ok.injEq] at hget
    simp [← hget,version]

end Exec

variable (acc)

def system : System Request.Ans JsError Outcome Job Env (State acc) where
  code := Job.code acc
  exec := exec

abbrev AccountWorld := World Request.Ans JsError Outcome Job (State acc)

abbrev Step := Act Job Env

abbrev Log := List (Entry Request.Ans Job)

variable {acc} {w : AccountWorld acc} {i : Nat} {job : Job} {r : Request}
  {next : r.Ans → Prog Outcome}

theorem shared_step (hi : w.threads[i]? = some ⟨job,.ask r next⟩) (env : Env) :
    ((system acc).act w (.step i env)).shared = (exec job env w.shared r).1 := by
  rw [(system acc).act_step hi]
  rfl

end WeirdVault.Vault
