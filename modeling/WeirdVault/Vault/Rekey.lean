import WeirdVault.Vault.Sync

/-!
# Changing the password

`rekey` and its two entry points. Progress reports and what the tab keeps in memory are left out;
everything the run asks of the server and of IndexedDB is here.
-/

namespace WeirdVault.Vault

open WeirdVault.Framework

structure DerivedSecrets where
  authToken : String
  vaultKey : CryptoKey
  auditKey : CryptoKey
  deriving DecidableEq, Repr

/-- Argon2id and HKDF: different passwords of one account derive different branches. -/
structure Kdf where
  deriveSecrets : (email password : String) → DerivedSecrets
  vaultKey_injective : ∀ {email p q},
    (deriveSecrets email p).vaultKey = (deriveSecrets email q).vaultKey → p = q
  authToken_injective : ∀ {email p q},
    (deriveSecrets email p).authToken = (deriveSecrets email q).authToken → p = q

structure RekeyResult where
  version : Option Nat
  keysRewrapped : Nat
  keysUnreadable : Nat
  resumed : Bool
  recoveryCleared : Bool
  recoveryError : Option String
  deriving DecidableEq, Repr

def tryDecrypt (key : CryptoKey) (env : VaultEnvelope) : Option VaultDocument :=
  (env.open? key).map WireDocument.filled

def rewrapKey (key : SyncedKey) (oldKey newKey : CryptoKey) : Prog (Option SyncedKey) :=
  match key.wrapped.decrypt? oldKey with
  | none => pure none
  | some pkcs8 => do
    let iv ← query .randomIv
    return some { key with wrapped := ⟨newKey,iv,pkcs8⟩ }

structure Rewrapped where
  keys : List SyncedKey
  keysRewrapped : Nat
  keysUnreadable : Nat

/-- A key that does not open is kept as it is and counted. -/
def rewrapKeys (oldKey newKey : CryptoKey) : List SyncedKey → Prog Rewrapped
  | [] => pure ⟨[],0,0⟩
  | key :: keys => do
    let next ← rewrapKey key oldKey newKey
    let rest ← rewrapKeys oldKey newKey keys
    return match next with
      | some next => ⟨next :: rest.keys,rest.keysRewrapped+1,rest.keysUnreadable⟩
      | none => ⟨key :: rest.keys,rest.keysRewrapped,rest.keysUnreadable+1⟩

def pullVault : Prog PulledVault := do
  let res ← query .getVault
  match res with
  | .unreachable => throw networkError
  | .failed status =>
    if status = 401 then throw (.error "Session expired. Sign in again.")
    else throw (.error s!"The vault could not be read ({status}).")
  | .unreadable => throw networkError
  | .ok body => return body

def pushVault (envelope : VaultEnvelope) (baseVersion : Nat) : Prog Nat := do
  let res ← query (.putVault envelope baseVersion)
  match res with
  | .unreachable => throw networkError
  | .failed status =>
    if status = 409 then throw .vaultConflict
    else throw (.error s!"The re-encrypted vault was rejected ({status}).")
  | .unreadable => throw networkError
  | .ok version => return version

structure Prepared where
  document : Option VaultDocument
  version : Option Nat
  keysRewrapped : Nat
  keysUnreadable : Nat
  resumed : Bool

/-- The document under the new key, pushed at the version it was read at. -/
def reencrypt (oldSecrets newSecrets : DerivedSecrets) (pulled : PulledVault)
    (document : VaultDocument) : Prog Prepared := do
  let rewrapped ← rewrapKeys oldSecrets.vaultKey newSecrets.vaultKey document.keys
  let document := { document with keys := rewrapped.keys }
  let envelope ← encryptVault newSecrets.vaultKey document
  let version ← pushVault envelope pulled.version
  return ⟨some document,some version,rewrapped.keysRewrapped,rewrapped.keysUnreadable,false⟩

/-- The path that is not a resumption: sync first, then read what that sync left. -/
def syncAndReencrypt (oldSecrets newSecrets : DerivedSecrets) (via : String) : Prog Prepared := do
  let preSync ← syncVault oldSecrets.vaultKey
  if preSync.status = .offline then
    throw (.error ("The server could not be reached, so the vault could not be synced first. " ++
      "A password change needs the network; nothing was changed."))
  let pulled ← pullVault
  match pulled.blob with
  | none => return ⟨none,none,0,0,false⟩
  | some envelope =>
    match tryDecrypt oldSecrets.vaultKey envelope with
    | none => throw (.wrongCurrentPassword via)
    | some document => reencrypt oldSecrets newSecrets pulled document

/-- Which key opens the stored blob decides between the whole run and the rest of an earlier one. -/
def prepare (oldSecrets newSecrets : DerivedSecrets) (via : String) : Prog Prepared := do
  let pulled ← pullVault
  match pulled.blob with
  | none => syncAndReencrypt oldSecrets newSecrets via
  | some envelope =>
    match tryDecrypt oldSecrets.vaultKey envelope with
    | some _ => syncAndReencrypt oldSecrets newSecrets via
    | none =>
      match tryDecrypt newSecrets.vaultKey envelope with
      | none => throw (.wrongCurrentPassword via)
      | some document => return ⟨some document,none,0,0,true⟩

/-- The credential change, whose failure strands the run once the blob has moved. -/
def changeCredential (oldSecrets newSecrets : DerivedSecrets) (prepared : Prepared) :
    Prog Unit := do
  let res ← query (.changePassword oldSecrets.authToken newSecrets.authToken)
  let stranded (cause : JsError) : JsError :=
    if prepared.version.isSome || prepared.resumed then .rekeyStranded cause else cause
  match res with
  | .ok () => return
  | .failed _ => throw (stranded (.error "the server rejected the change"))
  | .unreachable => throw (stranded networkError)
  | .unreadable => throw (stranded networkError)

def rekey (oldSecrets newSecrets : DerivedSecrets) (via : String) : Prog RekeyResult := do
  let prepared ← prepare oldSecrets newSecrets via
  changeCredential oldSecrets newSecrets prepared
  let keys := (prepared.document.map VaultDocument.keys).getD []
  Program.forEach (fun key => putStoredKey (fromSyncedKey key)) keys
  let res ← query .deleteRecovery
  let recoveryError : Option String :=
    match res with
    | .ok () => none
    | .failed status => if status = 404 then none else some s!"the server returned {status}"
    | .unreachable => some "Failed to fetch"
    | .unreadable => none
  return ⟨prepared.version,prepared.keysRewrapped,prepared.keysUnreadable,prepared.resumed,
    recoveryError.isNone,recoveryError⟩

variable (K : Kdf)

def changePasswordAndRekey (email currentPassword newPassword : String) : Prog RekeyResult :=
  if currentPassword = newPassword then
    throw (.error "The new password is the same as the current one.")
  else
    rekey (K.deriveSecrets email currentPassword) (K.deriveSecrets email newPassword) "password"

def rekeyAfterRecovery (email : String) (oldSecrets : DerivedSecrets) (newPassword : String) :
    Prog RekeyResult :=
  let newSecrets := K.deriveSecrets email newPassword
  if newSecrets.authToken = oldSecrets.authToken then
    throw (.error ("That is the password this account already uses, so nothing would change. " ++
      "Choose a different one."))
  else
    rekey oldSecrets newSecrets "recovery-code"

end WeirdVault.Vault
