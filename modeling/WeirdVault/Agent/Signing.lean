import WeirdVault.Agent.Replay
import WeirdVault.Framework.Base64

/-!
# What the control plane signs

`signCommand` and `signRotation`, and why the bytes they sign can be cut into fields in one way only.
-/

namespace WeirdVault.Agent

open WeirdVault.Framework

inductive AgentCommand
  | restart
  | upgrade
  | stop
  | revoke
  deriving DecidableEq

def AgentCommand.text : AgentCommand → String
  | .restart => "restart"
  | .upgrade => "upgrade"
  | .stop => "stop"
  | .revoke => "revoke"

def rotateKeyText : String := "rotate-key"

def commandTtlSeconds : Int := 60

/-- What `commands.ts` takes from Node. A private key is its 32-byte seed. -/
structure NodeCrypto where
  /-- `Buffer.from(seed, "base64")` -/
  fromBase64 : String → List UInt8
  /-- The last 32 bytes of `createPublicKey(key).export(…)`. -/
  publicKey : List UInt8 → List UInt8
  /-- `sign(null, message, key)` -/
  sign : List UInt8 → ByteArray → List UInt8

structure Env where
  secret : Option String
  previous : Option String

structure SignedCommand where
  command : String
  nonce : String
  expiresAt : Int
  signature : String

def toBase64 (bytes : List UInt8) : String := String.ofList (Base64.standard.encode bytes)

def commandMessage (agentId command nonce : String) (expiresAt : Int) : ByteArray :=
  s!"weirdvault-command-v1\n{agentId}\n{command}\n{nonce}\n{expiresAt}".toUTF8

def signingKey (N : NodeCrypto) (seed : Option String) : Option (List UInt8) :=
  match seed with
  | none => none
  | some seed =>
    if seed = "" then none
    else
      let raw := N.fromBase64 seed
      if raw.length ≠ 32 then none else some raw

def commandPublicKey (N : NodeCrypto) (env : Env) : Option String :=
  (signingKey N env.secret).map fun key => toBase64 (N.publicKey key)

/-- A secret that is missing leaves `signingKey` its default, the current one. -/
def previousSigningKey (N : NodeCrypto) (env : Env) : Option (List UInt8) :=
  signingKey N (env.previous.orElse fun _ => env.secret)

/-- `Math.floor(Date.now() / 1000) + COMMAND_TTL_SECONDS` -/
def expiryAfter (now : Int) : Int := now/1000+commandTtlSeconds

def signWith (N : NodeCrypto) (key : List UInt8) (agentId command : String)
    (randomBytes : List UInt8) (now : Int) : SignedCommand :=
  let nonce := toBase64 randomBytes
  let expiresAt := expiryAfter now
  ⟨command,nonce,expiresAt,toBase64 (N.sign key (commandMessage agentId command nonce expiresAt))⟩

def signRotation (N : NodeCrypto) (env : Env) (agentId : String) (randomBytes : List UInt8)
    (now : Int) : Option SignedCommand := do
  let previous ← previousSigningKey N env
  let publicKey ← commandPublicKey N env
  return signWith N previous agentId (rotateKeyText ++ ":" ++ publicKey) randomBytes now

def signCommand (N : NodeCrypto) (env : Env) (agentId : String) (command : AgentCommand)
    (randomBytes : List UInt8) (now : Int) : Option SignedCommand := do
  let key ← signingKey N env.secret
  return signWith N key agentId command.text randomBytes now

def isUuidChar (c : Char) : Bool := c.isDigit || ('a' ≤ c && c ≤ 'f') || c == '-'

def isUuid (s : String) : Bool := s.toList.length == 36 && s.toList.all isUuidChar

/-- A command that was signed, by which key and for which agent. -/
structure Dispatch where
  key : List UInt8
  agentId : String
  signed : SignedCommand

/-- One of the two functions made the dispatch. -/
def Dispatch.Minted (N : NodeCrypto) (d : Dispatch) : Prop :=
  isUuid d.agentId ∧ ∃ env randomBytes now,
    (signingKey N env.secret = some d.key ∧
      ∃ command, signCommand N env d.agentId command randomBytes now = some d.signed) ∨
    (previousSigningKey N env = some d.key ∧
      signRotation N env d.agentId randomBytes now = some d.signed)

def Dispatch.message (d : Dispatch) : ByteArray :=
  commandMessage d.agentId d.signed.command d.signed.nonce d.signed.expiresAt

theorem toUTF8_signingMessageFor (agentId command nonce : String) (expiresAt : Int) :
    (signingMessageFor agentId command nonce expiresAt).toUTF8 =
      commandMessage agentId command nonce expiresAt := by
  have hdomain : messageDomain ++ "\n" = "weirdvault-command-v1\n" := by decide
  unfold signingMessageFor commandMessage
  rw [hdomain]
  rfl

theorem commandMessage_inj {a c n a' c' n' : String} {e e' : Int}
    (h : commandMessage a c n e = commandMessage a' c' n' e') :
    signingMessageFor a c n e = signingMessageFor a' c' n' e' := by
  rw [← toUTF8_signingMessageFor,← toUTF8_signingMessageFor] at h
  exact String.toByteArray_inj.mp h

private theorem base64_plain : ∀ c ∈ Base64.standard.alphabet ++ Base64.standard.pad, c ≠ '\n' := by
  have hall : (Base64.standard.alphabet ++ Base64.standard.pad).all (fun c => c ≠ '\n') = true := by
    decide +kernel
  simpa only [List.all_eq_true,decide_eq_true_eq] using hall

theorem toBase64_line (bytes : List UInt8) : '\n' ∉ (toBase64 bytes).toList := by
  rw [toBase64,String.toList_ofList]
  intro h
  have hmem := Base64.standard.mem_encode h
  exact base64_plain '\n' (List.mem_append.mpr hmem) rfl

private theorem isUuid_line {s : String} (h : isUuid s) : '\n' ∉ s.toList := by
  intro hmem
  rw [isUuid,Bool.and_eq_true,List.all_eq_true] at h
  have hc := h.2 '\n' hmem
  revert hc
  decide

private theorem AgentCommand.text_line (c : AgentCommand) : '\n' ∉ c.text.toList := by
  cases c <;> decide

private theorem rotation_line (bytes : List UInt8) :
    '\n' ∉ (rotateKeyText ++ ":" ++ toBase64 bytes).toList := by
  rw [String.toList_append,List.mem_append]
  rintro (h | h)
  · revert h
    decide
  · exact toBase64_line bytes h

/-- What a signature of the control plane covers: one of the four commands, or its own key. -/
theorem Dispatch.Minted.command_cases {N : NodeCrypto} {d : Dispatch} (h : d.Minted N) :
    (∃ randomBytes, d.signed.nonce = toBase64 randomBytes) ∧
      ((∃ command : AgentCommand, d.signed.command = command.text) ∨
        ∃ (env : Env) (key : List UInt8), signingKey N env.secret = some key ∧
          d.signed.command = rotateKeyText ++ ":" ++ toBase64 (N.publicKey key)) := by
  obtain ⟨-,env,randomBytes,now,⟨hkey,command,hsign⟩ | ⟨hkey,hsign⟩⟩ := h
  · have hs : signWith N d.key d.agentId command.text randomBytes now = d.signed := by
      simpa [signCommand,hkey] using hsign
    rw [← hs]
    exact ⟨⟨randomBytes,rfl⟩,Or.inl ⟨command,rfl⟩⟩
  · rcases hp : signingKey N env.secret with _ | key
    · simp [signRotation,hkey,commandPublicKey,hp] at hsign
    · have hs : signWith N d.key d.agentId (rotateKeyText ++ ":" ++ toBase64 (N.publicKey key))
          randomBytes now = d.signed := by
        simpa [signRotation,hkey,commandPublicKey,hp] using hsign
      rw [← hs]
      exact ⟨⟨randomBytes,rfl⟩,Or.inr ⟨env,key,hp,rfl⟩⟩

theorem Dispatch.Minted.lines {N : NodeCrypto} {d : Dispatch} (h : d.Minted N) :
    ∀ s ∈ [d.agentId,d.signed.command,d.signed.nonce], '\n' ∉ s.toList := by
  obtain ⟨⟨randomBytes,hnonce⟩,hcommand⟩ := h.command_cases
  intro s hs
  simp only [List.mem_cons,List.not_mem_nil,or_false] at hs
  rcases hs with rfl | rfl | rfl
  · exact isUuid_line h.1
  · rcases hcommand with ⟨command,hc⟩ | ⟨env,key,-,hc⟩
    · rw [hc]
      exact command.text_line
    · rw [hc]
      exact rotation_line _
  · rw [hnonce]
    exact toBase64_line randomBytes

def Dispatch.envelope {N : NodeCrypto} (d : Dispatch) (h : d.Minted N) : Envelope :=
  ⟨d.agentId,d.signed.command,d.signed.nonce,d.signed.expiresAt,h.lines⟩

theorem message_unique {N : NodeCrypto} {d : Dispatch} (h : d.Minted N)
    {agentId command nonce : String} {expiresAt : Int}
    (hbytes : commandMessage agentId command nonce expiresAt = d.message) :
    agentId = d.agentId ∧ command = d.signed.command ∧ nonce = d.signed.nonce ∧
      expiresAt = d.signed.expiresAt :=
  signingMessageFor_unique (e := d.envelope h) (commandMessage_inj hbytes)

end WeirdVault.Agent
