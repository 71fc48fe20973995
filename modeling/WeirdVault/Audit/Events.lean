import WeirdVault.Framework.PlainObject

/-!
# The audit event catalogue

The closed set of event types and the metadata that each may carry. Both are object literals that
are looked up with a string the caller chose.
-/

namespace WeirdVault.Audit

open WeirdVault.Framework

inductive AuditSource
  | server
  | relay
  | client
  deriving DecidableEq,Repr

inductive AuditEventType
  | authSignin
  | authSignout
  | deviceRegistered
  | deviceRevoked
  | vaultSynced
  | recoveryEnrolled
  | recoveryRedeemed
  | recoveryDisabled
  | totpEnrolled
  | totpDisabled
  | totpVerified
  | totpCodesReissued
  | passkeyRegistered
  | passkeyRemoved
  | passkeyUsed
  | agentCommanded
  | connectionOpened
  | connectionClosed
  | keyInstalled
  | hostkeyPinned
  | hostkeyMismatch
  | hostkeyCleared
  deriving DecidableEq,Repr

namespace AuditEventType

def text : AuditEventType → JsString
  | .authSignin => utf16 "auth.signin"
  | .authSignout => utf16 "auth.signout"
  | .deviceRegistered => utf16 "device.registered"
  | .deviceRevoked => utf16 "device.revoked"
  | .vaultSynced => utf16 "vault.synced"
  | .recoveryEnrolled => utf16 "recovery.enrolled"
  | .recoveryRedeemed => utf16 "recovery.redeemed"
  | .recoveryDisabled => utf16 "recovery.disabled"
  | .totpEnrolled => utf16 "totp.enrolled"
  | .totpDisabled => utf16 "totp.disabled"
  | .totpVerified => utf16 "totp.verified"
  | .totpCodesReissued => utf16 "totp.codes-reissued"
  | .passkeyRegistered => utf16 "passkey.registered"
  | .passkeyRemoved => utf16 "passkey.removed"
  | .passkeyUsed => utf16 "passkey.used"
  | .agentCommanded => utf16 "agent.commanded"
  | .connectionOpened => utf16 "connection.opened"
  | .connectionClosed => utf16 "connection.closed"
  | .keyInstalled => utf16 "key.installed"
  | .hostkeyPinned => utf16 "hostkey.pinned"
  | .hostkeyMismatch => utf16 "hostkey.mismatch"
  | .hostkeyCleared => utf16 "hostkey.cleared"

def source : AuditEventType → AuditSource
  | .connectionOpened => .relay
  | .connectionClosed => .relay
  | .keyInstalled => .client
  | .hostkeyPinned => .client
  | .hostkeyMismatch => .client
  | .hostkeyCleared => .client
  | _ => .server

end AuditEventType

/-- The catalogue; of each definition what decides who may report it. -/
def AUDIT_EVENTS : PlainObject AuditEventType where
  entries :=
    [.authSignin,.authSignout,.deviceRegistered,.deviceRevoked,.vaultSynced,.recoveryEnrolled,
      .recoveryRedeemed,.recoveryDisabled,.totpEnrolled,.totpDisabled,.totpVerified,
      .totpCodesReissued,.passkeyRegistered,.passkeyRemoved,.passkeyUsed,.agentCommanded,
      .connectionOpened,.connectionClosed,.keyInstalled,.hostkeyPinned,.hostkeyMismatch,
      .hostkeyCleared].map (fun type => (AuditEventType.text type,type))

def isAuditEventType (v : JsString) : Bool := AUDIT_EVENTS.has v

def CLIENT_REPORTABLE : List AuditEventType :=
  (AUDIT_EVENTS.entries.filter (fun e => e.2.source == .client)).map Prod.snd

abbrev Validator := Json → Bool

def isBase64Unit (u : UInt16) : Bool :=
  (0x41 ≤ u && u ≤ 0x5A) || (0x61 ≤ u && u ≤ 0x7A) || (0x30 ≤ u && u ≤ 0x39) || u == 0x2B || u == 0x2F

def isHexOrDash (u : UInt16) : Bool :=
  (0x30 ≤ u && u ≤ 0x39) || (0x61 ≤ u && u ≤ 0x66) || (0x41 ≤ u && u ≤ 0x46) || u == 0x2D

def isFingerprint : Validator
  | .string s => s.take 7 == utf16 "SHA256:" && (s.drop 7).length == 43 && (s.drop 7).all isBase64Unit
  | _ => false

def isUuid : Validator
  | .string s => s.length == 36 && s.all isHexOrDash
  | _ => false

def isSmallInt : Validator
  | .number (.finite q) => q.den == 1 && 0 ≤ q && q < 10^12
  | _ => false

def isBoolean : Validator
  | .bool _ => true
  | _ => false

def isEnum (allowed : List String) : Validator
  | .string s => (allowed.map utf16).contains s
  | _ => false

private def shape (entries : List (String × Validator)) : PlainObject Validator :=
  ⟨entries.map (fun e => (utf16 e.1,e.2))⟩

def AUDIT_METADATA : AuditEventType → PlainObject Validator
  | .authSignin => shape [("method",isEnum ["password","passkey","sso"])]
  | .authSignout => shape [("scope",isEnum ["device","all"])]
  | .deviceRegistered =>
    shape [("platform",isEnum ["macos","windows","linux","ios","android","other"])]
  | .deviceRevoked => shape [("revokedDeviceId",isUuid)]
  | .vaultSynced => shape [("version",isSmallInt),("records",isSmallInt)]
  | .recoveryEnrolled => shape [("codes",isSmallInt)]
  | .recoveryRedeemed => shape [("remaining",isSmallInt)]
  | .recoveryDisabled => shape []
  | .totpEnrolled => shape []
  | .totpDisabled => shape []
  | .totpCodesReissued => shape [("backupCodes",isSmallInt)]
  | .totpVerified => shape [("factor",isEnum ["totp","backup-code"])]
  | .passkeyRegistered =>
    shape [("backedUp",isBoolean),("deviceType",isEnum ["singleDevice","multiDevice"])]
  | .passkeyRemoved => shape []
  | .passkeyUsed => shape []
  | .agentCommanded =>
    shape [("command",isEnum ["restart","upgrade","stop","revoke"]),("ok",isBoolean)]
  | .connectionOpened => shape [("port",isSmallInt)]
  | .connectionClosed =>
    shape [("bytesUp",isSmallInt),("bytesDown",isSmallInt),("durationMs",isSmallInt)]
  | .keyInstalled =>
    shape [("keyId",isUuid),("fingerprint",isFingerprint),
      ("result",isEnum ["installed","already-present"])]
  | .hostkeyPinned =>
    shape [("fingerprint",isFingerprint),
      ("keyType",isEnum ["ssh-ed25519","ssh-rsa","ecdsa-sha2-nistp256"])]
  | .hostkeyMismatch => shape [("expected",isFingerprint),("presented",isFingerprint)]
  | .hostkeyCleared => shape [("fingerprint",isFingerprint)]

def MAX_METADATA_BYTES : Nat := 512

inductive MetadataResult
  | refused (error : JsString)
  | accepted (value : Members)

def assign (out : Members) (e : JsString × Json) : Members :=
  if out.any (fun x => x.1 == e.1) then out.map (fun x => if x.1 == e.1 then e else x) else out ++ [e]

section Validate

variable (numberText : ℚ → JsString) (type : AuditEventType)

def validateEntries (out : Members) : Members → Except Inherited.TypeError MetadataResult
  | [] =>
    if MAX_METADATA_BYTES < (Json.stringify numberText (.object out)).length then
      .ok (.refused (utf16 "metadata too large"))
    else .ok (.accepted out)
  | (key,value) :: rest =>
    match (AUDIT_METADATA type).get? key with
    | none =>
      .ok (.refused (utf16 "metadata key \"" ++ key ++ utf16 "\" is not allowed for " ++ type.text))
    | some (.own validator) =>
      if validator value then validateEntries (assign out (key,value)) rest
      else .ok (.refused (utf16 "metadata value for \"" ++ key ++ utf16 "\" failed validation"))
    | some (.inherited m) =>
      match m.call value with
      | .error e => .error e
      | .ok true => validateEntries (assign out (key,value)) rest
      | .ok false =>
        .ok (.refused (utf16 "metadata value for \"" ++ key ++ utf16 "\" failed validation"))

def validateMetadata : Option Json → Except Inherited.TypeError MetadataResult
  | none => .ok (.accepted [])
  | some .null => .ok (.accepted [])
  | some (.object members) => validateEntries numberText type [] members
  | some _ => .ok (.refused (utf16 "metadata must be an object"))

end Validate

end WeirdVault.Audit
