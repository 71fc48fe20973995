import WeirdVault.Vault.Merge
import WeirdVault.Vault.Storage

/-!
# The sync cycle

`runSync` of sync.ts with the local reading and writing it does, and `syncNow` of auto-sync.ts.
-/

namespace WeirdVault.Vault

open WeirdVault.Framework

def encryptVault (key : CryptoKey) (doc : VaultDocument) : Prog VaultEnvelope := do
  let iv ← query .randomIv
  return ⟨1,⟨key,iv,doc.toWire⟩⟩

/-- What `decryptVault` resolves to: nothing when the format is unknown or the key is wrong. -/
def VaultEnvelope.open? (env : VaultEnvelope) (key : CryptoKey) : Option WireDocument :=
  if env.v = 1 then env.ct.decrypt? key else none

def decryptVault (key : CryptoKey) (env : VaultEnvelope) : Prog WireDocument :=
  match env.open? key with
  | some doc => pure doc
  | none =>
    if env.v = 1 then throw (.error "The operation failed for an operation-specific reason")
    else throw (.error s!"unsupported vault format v{env.v}")

theorem open?_eq_some {env : VaultEnvelope} {key : CryptoKey} {doc : WireDocument} :
    env.open? key = some doc ↔ env.v = 1 ∧ env.ct.key = key ∧ env.ct.plain = doc := by
  unfold VaultEnvelope.open?
  split <;> simp_all [decrypt?_eq_some]

def getState : Prog SyncState := do
  return (← query (.vaultGet .syncState)).getD ⟨0,0⟩

def setState (state : SyncState) : Prog Unit := query (.vaultPut .syncState state)

def readLocalVault : Prog VaultDocument := do
  let hosts ← listHosts
  let stored ← listStoredKeys
  let hostKeys ← listPins
  let snippets ← listSnippets
  let tombstones ← getTombstones
  let updatedAt ← query .dateNow
  return ⟨hosts,stored.filterMap toSyncedKey,hostKeys,snippets,tombstones,updatedAt⟩

def deletedIds {τ : Type} (id : τ → RecordId) (before after : List τ) : List RecordId :=
  (before.map id).filter (fun i => !(after.map id).contains i)

def removeDeleted {τ : Type} (id : τ → RecordId) (before after : List τ)
    (forget : RecordId → Prog Unit) : Prog Unit :=
  Program.forEach forget (deletedIds id before after)

def applyVaultLocally (merged previous : VaultDocument) : Prog Unit := do
  Program.forEach putHost merged.hosts
  Program.forEach (fun key => putStoredKey (fromSyncedKey key)) merged.keys
  Program.forEach putPin merged.hostKeys
  Program.forEach putSnippet merged.snippets
  setTombstones merged.tombstones
  removeDeleted Host.id previous.hosts merged.hosts forgetHost
  removeDeleted SyncedKey.id previous.keys merged.keys forgetStoredKey
  removeDeleted PinnedHostKey.id previous.hostKeys merged.hostKeys forgetPin
  removeDeleted Snippet.id previous.snippets merged.snippets forgetSnippet

inductive SyncStatus
  | synced
  | upToDate
  | conflictResolved
  | offline
  deriving DecidableEq, Repr

structure SyncResult where
  status : SyncStatus
  version : Nat
  hosts : Nat
  keys : Nat
  hostKeys : Nat
  snippets : Nat
  keysWithheld : Nat
  deriving DecidableEq, Repr

def SyncResult.of (status : SyncStatus) (version : Nat) (merged : VaultDocument)
    (keysWithheld : Nat) : SyncResult :=
  ⟨status,version,merged.hosts.length,merged.keys.length,merged.hostKeys.length,
    merged.snippets.length,keysWithheld⟩

/-- The remote document of an answer: the empty one where the server holds none. -/
def decryptPulled (vaultKey : CryptoKey) (pulled : PulledVault) : Prog VaultDocument :=
  match pulled.blob with
  | some env => do
    let doc ← decryptVault vaultKey env
    return doc.filled
  | none => pure emptyDoc

/-- From the answer of the server to the decision whether there is anything to push. -/
def mergeLocally (vaultKey : CryptoKey) (pulled : PulledVault) :
    Prog (VaultDocument × VaultDocument) := do
  let remote ← decryptPulled vaultKey pulled
  let ours ← readLocalVault
  let merged := mergeVault ours remote
  applyVaultLocally merged ours
  return (merged,remote)

def quiet (vaultKey : CryptoKey) (pulled : PulledVault) (merged remote : VaultDocument) : Bool :=
  pulled.blob.isSome && sameRecords (outgoing vaultKey merged remote) remote

def push (vaultKey : CryptoKey) (pulled : PulledVault) (merged remote : VaultDocument)
    (afterConflict : Bool) (onConflict : Prog SyncResult) : Prog SyncResult := do
  let envelope ← encryptVault vaultKey (outgoing vaultKey merged remote)
  let put ← query (.putVault envelope pulled.version)
  match put with
  | .unreachable => throw networkError
  | .failed status =>
    if status = 409 then onConflict else throw (.error s!"vault push failed: {status}")
  | .unreadable => throw networkError
  | .ok version =>
    let now ← query .dateNow
    setState ⟨version,now⟩
    return SyncResult.of (if afterConflict then .conflictResolved else .synced) version merged
      (keysWithheld vaultKey merged remote)

def attempt (vaultKey : CryptoKey) (afterConflict : Bool) (onConflict : Prog SyncResult) :
    Prog SyncResult := do
  let state ← getState
  let res ← query .getVault
  match res with
  | .unreachable => return ⟨.offline,state.version,0,0,0,0,0⟩
  | .failed status =>
    if status = 401 then throw (.error "not signed in")
    else throw (.error s!"vault pull failed: {status}")
  | .unreadable => throw networkError
  | .ok pulled =>
    let (merged,remote) ← mergeLocally vaultKey pulled
    if quiet vaultKey pulled merged remote then
      let now ← query .dateNow
      setState ⟨pulled.version,now⟩
      return SyncResult.of .upToDate pulled.version merged (keysWithheld vaultKey merged remote)
    push vaultKey pulled merged remote afterConflict onConflict

def runSync (vaultKey : CryptoKey) : Nat → Bool → Prog SyncResult
  | 0,afterConflict =>
    attempt vaultKey afterConflict (throw (.error "vault sync kept conflicting; try again"))
  | retries+1,afterConflict =>
    attempt vaultKey afterConflict (runSync vaultKey retries true)

def syncVault (vaultKey : CryptoKey) : Prog SyncResult := runSync vaultKey 2 false

/-- `syncNow` with the vault unlocked and no cycle in flight. -/
def syncNow (vaultKey : CryptoKey) : Prog (Option SyncResult) :=
  tryCatch
    (do
      let result ← syncVault vaultKey
      if result.status ≠ .upToDate then
        query .bump
      return some result)
    (fun _ => pure none)

end WeirdVault.Vault
