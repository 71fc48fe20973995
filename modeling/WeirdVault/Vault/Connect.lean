import WeirdVault.Vault.Storage

/-!
# Connecting

`openSession` and `connectAndInstallKey`, and the host key callback of the SSH core that they rely
on. Audit reports and the relay's address are left out; a connection that gets nowhere for their
sake is a handshake that fails without showing a host key.
-/

namespace WeirdVault.Vault

open WeirdVault.Framework

structure PresentedKey where
  key : HostKey
  fingerprint : String
  type : String
  deriving DecidableEq, Repr

/-- `HostKeyCallback`: what it reports, and whether it refuses. -/
def hostKeyCallback (knownHostKey : Option HostKey) (presented : PresentedKey) :
    HostKeyInfo × Option String :=
  let report (status : HostKeyStatus) : HostKeyInfo :=
    ⟨presented.fingerprint,presented.type,presented.key,status⟩
  match knownHostKey with
  | none => (report .unknown,none)
  | some known =>
    if presented.key ≠ known then (report .mismatch,some "HOST KEY MISMATCH")
    else (report .matched,none)

structure ConnectOptions where
  hostname : String
  port : Nat
  username : String
  agentId : Option String
  keyId : Option RecordId
  password : Option String
  save : Bool
  deriving DecidableEq, Repr

def ConnectOptions.pinKey (opts : ConnectOptions) : String := pinKeyFor opts.hostname opts.agentId

def ConnectOptions.pinId (opts : ConnectOptions) : RecordId := .address opts.pinKey opts.port

def ConnectOptions.fields (opts : ConnectOptions) : HostFields :=
  ⟨opts.hostname,opts.port,opts.username,opts.keyId,
    some (if opts.keyId.isSome then .key else .password),opts.agentId⟩

def connectError (opts : ConnectOptions) (known : Option PinnedHostKey) (seen : Option HostKeyInfo)
    (message : String) : JsError :=
  match seen,known with
  | some info,some known =>
    if info.status = .mismatch then
      .hostKeyMismatch opts.hostname opts.pinKey opts.port known info
    else .error message
  | _,_ => .error message

def recordHostKey (opts : ConnectOptions) (seen : Option HostKeyInfo) : Prog Unit :=
  match seen with
  | none => touchPin opts.pinKey opts.port
  | some info =>
    if info.status = .unknown then do
      let _ ← pin opts.pinKey opts.port info
      return
    else touchPin opts.pinKey opts.port

def openSession (opts : ConnectOptions) : Prog Unit := do
  if opts.keyId.isNone && (opts.password.getD "" == "") then
    throw (.error "Provide a key or a password")
  let known ← getPin opts.pinKey opts.port
  let shake ← query (.connect (known.map PinnedHostKey.key))
  match shake.failure with
  | some message => throw (connectError opts known shake.seen message)
  | none =>
    recordHostKey opts shake.seen
    let _ ← rememberHost opts.fields opts.save
    return

def connectAndInstallKey (opts : ConnectOptions) (keyId : RecordId) : Prog Unit := do
  openSession { opts with keyId := none }
  let failure ← query .installKey
  match failure with
  | some message => throw (.error message)
  | none =>
    let _ ← rememberHost { opts.fields with keyId := some keyId, auth := some .key } false
    return

end WeirdVault.Vault
