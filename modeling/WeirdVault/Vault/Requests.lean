import WeirdVault.Framework.Program
import WeirdVault.Vault.Records

/-!
# What the browser code asks of the world

IndexedDB requests, the clock, randomness, the server's routes and the SSH handshake. Everything
between two requests runs without interruption, so these are the points at which anything else can
happen.
-/

namespace WeirdVault.Vault

open WeirdVault.Framework

inductive Store
  | hosts
  | keys
  | hostkeys
  deriving DecidableEq, Repr

@[reducible] def Store.Rec : Store → Type
  | .hosts => Host
  | .keys => StoredKey
  | .hostkeys => PinnedHostKey

def Store.id : (s : Store) → s.Rec → RecordId
  | .hosts => Host.id
  | .keys => StoredKey.id
  | .hostkeys => PinnedHostKey.id

/-- The entries of the `vault` object store, each a whole value under a fixed key. -/
inductive Cell
  | snippets
  | tombstones
  | syncState
  deriving DecidableEq, Repr

abbrev SnippetMap := Table Snippet.id

structure SyncState where
  version : Nat
  lastSyncedAt : Nat
  deriving DecidableEq, Repr

@[reducible] def Cell.Val : Cell → Type
  | .snippets => SnippetMap
  | .tombstones => Tombstones
  | .syncState => SyncState

/-- How a `fetch` ends: it rejects, it answers with a status that is not ok, its body cannot be
read, or it answers. -/
inductive FetchReply (α : Type)
  | unreachable
  | failed (status : Nat)
  | unreadable
  | ok (body : α)
  deriving DecidableEq, Repr

structure PulledVault where
  version : Nat
  blob : Option VaultEnvelope
  deriving DecidableEq

inductive HostKeyStatus
  | unknown
  | matched
  | mismatch
  deriving DecidableEq, Repr

structure HostKeyInfo where
  fingerprint : String
  type : String
  key : HostKey
  status : HostKeyStatus
  deriving DecidableEq, Repr

/-- What `connect` of the WASM core reports of the host key, if it got that far, and whether it
resolves. -/
structure Handshake where
  seen : Option HostKeyInfo
  failure : Option String
  deriving DecidableEq, Repr

inductive Request
  | idbGetAll (s : Store)
  | idbGet (s : Store) (id : RecordId)
  | idbPut (s : Store) (r : s.Rec)
  | idbDelete (s : Store) (id : RecordId)
  | vaultGet (c : Cell)
  | vaultPut (c : Cell) (v : c.Val)
  | dateNow
  | randomUUID
  | randomIv
  | getVault
  | putVault (blob : VaultEnvelope) (baseVersion : Nat)
  | changePassword (currentPassword newPassword : String)
  | deleteRecovery
  | connect (knownHostKey : Option HostKey)
  | installKey
  | bump

@[reducible] def Request.Ans : Request → Type
  | .idbGetAll s => List s.Rec
  | .idbGet s _ => Option s.Rec
  | .idbPut .. => Unit
  | .idbDelete .. => Unit
  | .vaultGet c => Option c.Val
  | .vaultPut .. => Unit
  | .dateNow => Nat
  | .randomUUID => Nat
  | .randomIv => Nat
  | .getVault => FetchReply PulledVault
  | .putVault .. => FetchReply Nat
  | .changePassword .. => FetchReply Unit
  | .deleteRecovery => FetchReply Unit
  | .connect _ => Handshake
  | .installKey => Option String
  | .bump => Unit

inductive JsError
  | error (message : String)
  | wrongCurrentPassword (via : String)
  | vaultConflict
  | rekeyStranded (cause : JsError)
  | vaultFormat (v : Nat)
  | vaultDecryption
  | hostKeyMismatch (host pinKey : String) (port : Nat) (expected : PinnedHostKey)
      (presented : HostKeyInfo)
  deriving DecidableEq, Repr

/-- `fetch` rejecting, and `json()` on a body that does not arrive. -/
def networkError : JsError := .error "Failed to fetch"

abbrev Prog (α : Type) := Program Request.Ans JsError α

abbrev query (r : Request) : Prog r.Ans := Program.request r

end WeirdVault.Vault
