import WeirdVault.Framework.Lines
import WeirdVault.Framework.Runs
import WeirdVault.Framework.Table

/-!
# Signed commands and their replay

`verifyCommand` of the agent, with the nonce map it keeps in memory, and the runs of one identity:
the control plane signs, the relay delivers what it likes as often as it likes, and the process
starts again with an empty map.
-/

namespace WeirdVault.Agent

open WeirdVault.Framework

/-- Instants and durations are counted in nanoseconds. -/
def second : Int := 1000000000

def commandRestart : String := "restart"

def commandUpgrade : String := "upgrade"

def commandStop : String := "stop"

def commandRevoke : String := "revoke"

def commandRotateKey : String := "rotate-key"

def commandClockSkew : Int := 30*second

def nonceMemory : Int := 2*60*second

def publicKeySize : Nat := 32

def errNoCommandKeys : String :=
  "this identity was enrolled before remote control existed, so it cannot verify " ++
    "commands — re-enrol to enable them"

def errReplayed : String := "this command has already been carried out"

/-- What the command path takes from Go's standard library. -/
structure Platform where
  /-- `base64.StdEncoding.DecodeString` -/
  decodeString : String → Option (List UInt8)
  /-- `ed25519.Verify(publicKey, message, sig)` -/
  verify : List UInt8 → String → List UInt8 → Bool
  /-- `UTC().Format(time.RFC3339)` -/
  rfc3339 : Int → String
  /-- `%q` -/
  quote : String → String

structure Config where
  agentID : String
  commandKeys : List String
  deriving DecidableEq

/-- The fields of a control message that `verifyCommand` reads. -/
structure ControlMessage where
  agentID : String
  command : String
  nonce : String
  expiresAt : Int
  signature : String
  deriving DecidableEq

abbrev SeenNonces := Table (Prod.fst : String × Int → String)

def newSeenNonces : SeenNonces := Table.empty _

structure Identity where
  cfg : Config
  nonces : SeenNonces

def messageDomain : String := "weirdvault-command-v1"

def signingMessageFor (agentID command nonce : String) (expiresAt : Int) : String :=
  messageDomain ++ "\n" ++ agentID ++ "\n" ++ command ++ "\n" ++ nonce ++ "\n" ++
    toString expiresAt

def SeenNonces.remember (s : SeenNonces) (nonce : String) (now : Int) : Bool × SeenNonces :=
  let swept := s.keep (fun e => !decide (now - e.2 > nonceMemory))
  match swept.get? nonce with
  | some _ => (false,swept)
  | none => (true,swept.put (nonce,now))

def hasPrefix (s start : String) : Bool := start.toList.isPrefixOf s.toList

def knownCommand (command : String) : Bool :=
  command == commandRestart || command == commandUpgrade || command == commandStop ||
    command == commandRevoke || hasPrefix command (commandRotateKey ++ ":")

def Config.verifyCommandSignature (P : Platform) (c : Config) (message : String)
    (sig : List UInt8) : Bool :=
  c.commandKeys.any fun encoded =>
    match P.decodeString encoded with
    | none => false
    | some raw => raw.length == publicKeySize && P.verify raw message sig

def expiryOf (expiresAt : Int) : Int := expiresAt*second

/-- The command to run or the reason it will not be run, and the identity with its nonces. -/
def Identity.verifyCommand (P : Platform) (id : Identity) (msg : ControlMessage) (now : Int) :
    Except String String × Identity :=
  if id.cfg.commandKeys.length = 0 then (.error errNoCommandKeys,id)
  else if msg.agentID ≠ id.cfg.agentID then
    (.error ("this command names agent " ++ P.quote msg.agentID ++ ", not this one"),id)
  else if msg.command = "" ∨ msg.nonce = "" ∨ msg.signature = "" then
    (.error "command, nonce and signature are all required",id)
  else if !knownCommand msg.command then
    (.error ("this build does not know the command " ++ P.quote msg.command),id)
  else if now > expiryOf msg.expiresAt + commandClockSkew then
    (.error ("this command expired at " ++ P.rfc3339 (expiryOf msg.expiresAt) ++
      "; this machine's clock says " ++ P.rfc3339 now),id)
  else
    match P.decodeString msg.signature with
    | none => (.error "signature is not valid base64",id)
    | some sig =>
      let message := signingMessageFor id.cfg.agentID msg.command msg.nonce msg.expiresAt
      if !id.cfg.verifyCommandSignature P message sig then
        (.error "this command was not signed by this deployment",id)
      else
        -- Last: a command refused for another reason does not burn its nonce.
        match id.nonces.remember msg.nonce now with
        | (false,nonces) => (.error errReplayed,{ id with nonces := nonces })
        | (true,nonces) => (.ok msg.command,{ id with nonces := nonces })

/-- The message carries a signature that one of the identity's keys verifies. -/
def Identity.verifies (P : Platform) (id : Identity) (msg : ControlMessage) : Bool :=
  match P.decodeString msg.signature with
  | none => false
  | some sig => id.cfg.verifyCommandSignature P
      (signingMessageFor id.cfg.agentID msg.command msg.nonce msg.expiresAt) sig

end WeirdVault.Agent
