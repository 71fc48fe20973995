import WeirdVault.Agent.Signing
import Mathlib.Data.List.Induction
import Mathlib.Data.Set.Insert

/-!
# Which commands are believed, and which keys

`rotateKey` of the agent, and the runs of one enrolled identity: the control plane signs commands
and rotations, the relay delivers any message at all, and the process starts again from the config
on disk.
-/

namespace WeirdVault.Agent.Rotation

open WeirdVault.Framework

def isSpace (c : Char) : Bool :=
  let n := c.toNat
  (9 ≤ n && n ≤ 13) || n == 0x20 || n == 0x85 || n == 0xA0 || n == 0x1680 ||
    (0x2000 ≤ n && n ≤ 0x200A) || n == 0x2028 || n == 0x2029 || n == 0x202F || n == 0x205F ||
    n == 0x3000

def trimSpace (s : String) : String :=
  String.ofList ((s.toList.dropWhile isSpace).reverse.dropWhile isSpace).reverse

def trimPrefix (s start : String) : String :=
  if hasPrefix s start then String.ofList (s.toList.drop start.toList.length) else s

/-- An identity with the file its config is kept in. -/
structure Machine where
  path : String
  identity : Identity
  file : Option Config
  signed : List Dispatch

def Machine.setConfig (m : Machine) (cfg : Config) : Machine :=
  { m with identity.cfg := cfg, file := some cfg }

/-- `failed` is the error `saveConfig` returns, if it returns one. -/
def Machine.rotateKey (P : Platform) (m : Machine) (encoded : String) (failed : Option String) :
    Except String String × Machine :=
  let encoded := trimSpace encoded
  if encoded = "" then (.error "rotate-key carried no key",m)
  else if (P.decodeString encoded).all (fun raw => raw.length != publicKeySize) then
    (.error "rotate-key carried something that is not an Ed25519 public key",m)
  else if encoded ∈ m.identity.cfg.commandKeys then (.ok "already trusted",m)
  else
    let updated := { m.identity.cfg with commandKeys := m.identity.cfg.commandKeys ++ [encoded] }
    match failed with
    | some err => (.error ("could not write " ++ m.path ++ ": " ++ err),m)
    | none => (.ok ("added; " ++ toString updated.commandKeys.length ++ " keys trusted"),
        m.setConfig updated)

def Machine.runCommand (P : Platform) (m : Machine) (command : String) (failed : Option String) :
    Machine :=
  if command = commandStop then m
  else if hasPrefix command (commandRotateKey ++ ":") then
    (m.rotateKey P (trimPrefix command (commandRotateKey ++ ":")) failed).2
  else if command = commandRevoke then
    match failed with
    | some _ => m
    | none => { m with file := none }
  else m

inductive Event
  | signCommand (env : Env) (agentId : String) (command : AgentCommand) (randomBytes : List UInt8)
      (now : Int)
  | signRotation (env : Env) (agentId : String) (randomBytes : List UInt8) (now : Int)
  | deliver (msg : ControlMessage) (now : Int) (failed : Option String)
  | restart

def Machine.log (m : Machine) (agentId : String) :
    Option (List UInt8) → Option SignedCommand → Machine
  | some key, some signed => { m with signed := ⟨key,agentId,signed⟩ :: m.signed }
  | _, _ => m

def step (N : NodeCrypto) (P : Platform) (m : Machine) : Event → Machine
  | .signCommand env agentId command randomBytes now =>
    m.log agentId (signingKey N env.secret) (signCommand N env agentId command randomBytes now)
  | .signRotation env agentId randomBytes now =>
    m.log agentId (previousSigningKey N env) (signRotation N env agentId randomBytes now)
  | .deliver msg now failed =>
    match m.identity.verifyCommand P msg now with
    | (.ok command,id) => { m with identity := id }.runCommand P command failed
    | (.error _,id) => { m with identity := id }
  | .restart =>
    match m.file with
    | none => m
    | some cfg => { m with identity := ⟨cfg,newSeenNonces⟩ }

def enrolled (path : String) (cfg : Config) : Machine := ⟨path,⟨cfg,newSeenNonces⟩,some cfg,[]⟩

def keyVerifies (P : Platform) (agentID encoded : String) (msg : ControlMessage) : Bool :=
  match P.decodeString msg.signature, P.decodeString encoded with
  | some sig, some raw => raw.length == publicKeySize &&
      P.verify raw (signingMessageFor agentID msg.command msg.nonce msg.expiresAt) sig
  | _, _ => false

def Accepts (P : Platform) (id : Identity) (msg : ControlMessage) (now : Int) : Prop :=
  ∃ command id', id.verifyCommand P msg now = (.ok command,id')

def Names (command encoded : String) : Prop :=
  hasPrefix command (commandRotateKey ++ ":") ∧
    trimSpace (trimPrefix command (commandRotateKey ++ ":")) = encoded

/-- During the run a command was accepted that a trusted key had signed and that named this key. -/
def NamedDuring (N : NodeCrypto) (P : Platform) (m : Machine) (es : List Event)
    (encoded : String) : Prop :=
  ∃ before msg now failed after, es = before ++ .deliver msg now failed :: after ∧
    Accepts P (runActs (step N P) m before).identity msg now ∧
    (∃ trusted ∈ (runActs (step N P) m before).identity.cfg.commandKeys,
      keyVerifies P (runActs (step N P) m before).identity.cfg.agentID trusted msg) ∧
    Names msg.command encoded

def IsDeploymentKey (N : NodeCrypto) (deployment : Set (List UInt8)) (encoded : String) : Prop :=
  ∃ key ∈ deployment, encoded = toBase64 (N.publicKey key)

/-- What the holder of a key did not sign, no signature verifies. -/
def Unforgeable (N : NodeCrypto) (P : Platform) (deployment : Set (List UInt8))
    (signed : Set Dispatch) : Prop :=
  ∀ key ∈ deployment, ∀ message sig, P.verify (N.publicKey key) message sig →
    ∃ d ∈ signed, d.key = key ∧ d.message = message.toUTF8

def SameFields (msg : ControlMessage) (d : Dispatch) : Prop :=
  msg.agentID = d.agentId ∧ msg.command = d.signed.command ∧ msg.nonce = d.signed.nonce ∧
    msg.expiresAt = d.signed.expiresAt

theorem verifies_iff {P : Platform} {id : Identity} {msg : ControlMessage} :
    id.verifies P msg ↔
      ∃ trusted ∈ id.cfg.commandKeys, keyVerifies P id.cfg.agentID trusted msg := by
  unfold Identity.verifies Config.verifyCommandSignature keyVerifies
  cases P.decodeString msg.signature with
  | none => simp
  | some sig =>
    simp only [List.any_eq_true]
    refine exists_congr fun k => and_congr_right fun _ => ?_
    cases P.decodeString k <;> simp

theorem verifyCommand_ok_fields {P : Platform} {id id' : Identity} {msg : ControlMessage}
    {now : Int} {command : String} (h : id.verifyCommand P msg now = (.ok command,id')) :
    msg.agentID = id.cfg.agentID ∧ command = msg.command := by
  unfold Identity.verifyCommand at h
  split at h; · simp at h
  split at h; · simp at h
  rename_i hagent
  split at h; · simp at h
  split at h; · simp at h
  split at h; · simp at h
  split at h; · simp at h
  dsimp only at h
  split at h; · simp at h
  split at h
  · simp at h
  · simp only [Prod.mk.injEq,Except.ok.injEq] at h
    exact ⟨not_not.mp hagent,h.1.symm⟩

private theorem decoded_of_keyVerifies {P : Platform} {agentID encoded : String}
    {msg : ControlMessage} {raw : List UInt8} (h : keyVerifies P agentID encoded msg)
    (hraw : P.decodeString encoded = some raw) :
    ∃ sig, P.verify raw (signingMessageFor agentID msg.command msg.nonce msg.expiresAt) sig := by
  unfold keyVerifies at h
  rw [hraw] at h
  cases hs : P.decodeString msg.signature with
  | none => simp [hs] at h
  | some sig =>
    simp only [hs,Bool.and_eq_true] at h
    exact ⟨sig,h.2⟩

theorem accepted_dispatch {N : NodeCrypto} {P : Platform} {deployment : Set (List UInt8)}
    (signed : Set Dispatch) {id : Identity} {msg : ControlMessage} {now : Int}
    (hdecode : ∀ bytes, P.decodeString (toBase64 bytes) = some bytes)
    (hminted : ∀ d ∈ signed, d.Minted N)
    (hsigned : ∀ key ∈ deployment, ∀ sig, P.verify (N.publicKey key)
      (signingMessageFor id.cfg.agentID msg.command msg.nonce msg.expiresAt) sig →
      ∃ d ∈ signed, d.key = key ∧ d.message =
        (signingMessageFor id.cfg.agentID msg.command msg.nonce msg.expiresAt).toUTF8)
    (hkeys : ∀ encoded ∈ id.cfg.commandKeys, IsDeploymentKey N deployment encoded)
    (h : Accepts P id msg now) :
    ∃ d ∈ signed, d.agentId = id.cfg.agentID ∧ SameFields msg d := by
  obtain ⟨command,id',h⟩ := h
  have hagent := (verifyCommand_ok_fields h).1
  have hverifies := (verifyCommand_ok h).1
  obtain ⟨trusted,hmem,hver⟩ := verifies_iff.mp hverifies
  obtain ⟨key,hkey,rfl⟩ := hkeys trusted hmem
  obtain ⟨sig,hsig⟩ := decoded_of_keyVerifies hver (hdecode _)
  obtain ⟨d,hd,-,hmessage⟩ := hsigned key hkey sig hsig
  rw [toUTF8_signingMessageFor] at hmessage
  obtain ⟨ha,hc,hn,he⟩ := message_unique (hminted d hd) hmessage.symm
  exact ⟨d,hd,ha.symm,hagent.trans ha,hc,hn,he⟩

def Machine.Holds (m : Machine) (encoded : String) : Prop :=
  encoded ∈ m.identity.cfg.commandKeys ∨ ∃ cfg, m.file = some cfg ∧ encoded ∈ cfg.commandKeys

private theorem rotateKey_cases (P : Platform) (m : Machine) (named : String)
    (failed : Option String) :
    (m.rotateKey P named failed).2 = m ∨ (m.rotateKey P named failed).2 = m.setConfig
      { m.identity.cfg with commandKeys := m.identity.cfg.commandKeys ++ [trimSpace named] } := by
  unfold Machine.rotateKey
  dsimp only
  split
  · exact Or.inl rfl
  split
  · exact Or.inl rfl
  split
  · exact Or.inl rfl
  cases failed with
  | some err => exact Or.inl rfl
  | none => exact Or.inr rfl

private theorem rotateKey_holds {P : Platform} {m : Machine} {named encoded : String}
    {failed : Option String} (h : (m.rotateKey P named failed).2.Holds encoded) :
    m.Holds encoded ∨ trimSpace named = encoded := by
  rcases rotateKey_cases P m named failed with hsame | hset
  · rw [hsame] at h
    exact Or.inl h
  · rw [hset] at h
    have hmem : encoded ∈ m.identity.cfg.commandKeys ++ [trimSpace named] := by
      rcases h with h | ⟨cfg,hfile,h⟩
      · exact h
      · obtain rfl := Option.some.inj hfile
        exact h
    rcases List.mem_append.mp hmem with hold | hnew
    · exact Or.inl (Or.inl hold)
    · exact Or.inr (List.mem_singleton.mp hnew).symm

private theorem runCommand_holds {P : Platform} {m : Machine} {command encoded : String}
    {failed : Option String} (h : (m.runCommand P command failed).Holds encoded) :
    m.Holds encoded ∨ Names command encoded := by
  unfold Machine.runCommand at h
  split at h; · exact Or.inl h
  split at h
  · rename_i hstarts
    rcases rotateKey_holds h with hold | hnew
    · exact Or.inl hold
    · exact Or.inr ⟨hstarts,hnew⟩
  split at h
  · cases failed with
    | some err => exact Or.inl h
    | none =>
      rcases h with hcfg | ⟨cfg,hfile,-⟩
      · exact Or.inl (Or.inl hcfg)
      · simp at hfile
  · exact Or.inl h

@[simp] private theorem log_holds {m : Machine} {agentId encoded : String}
    {key : Option (List UInt8)} {signed : Option SignedCommand} :
    (m.log agentId key signed).Holds encoded ↔ m.Holds encoded := by
  cases key <;> cases signed <;> rfl

theorem step_holds {N : NodeCrypto} {P : Platform} {m : Machine} {e : Event} {encoded : String}
    (h : (step N P m e).Holds encoded) :
    m.Holds encoded ∨ ∃ msg now failed, e = .deliver msg now failed ∧
      Accepts P m.identity msg now ∧ m.identity.verifies P msg ∧ Names msg.command encoded := by
  cases e with
  | signCommand env agentId command randomBytes now => exact Or.inl (log_holds.mp h)
  | signRotation env agentId randomBytes now => exact Or.inl (log_holds.mp h)
  | deliver msg now failed =>
    rcases hv : m.identity.verifyCommand P msg now with ⟨reason | command,id⟩
    · simp only [step,hv] at h
      have hcfg := (verifyCommand_error hv).1
      refine Or.inl ?_
      simpa only [Machine.Holds,hcfg] using h
    · simp only [step,hv] at h
      obtain ⟨hver,-,-,hcfg⟩ := verifyCommand_ok hv
      obtain ⟨-,rfl⟩ := verifyCommand_ok_fields hv
      rcases runCommand_holds h with hold | hnew
      · refine Or.inl ?_
        simpa only [Machine.Holds,hcfg] using hold
      · exact Or.inr ⟨msg,now,failed,rfl,⟨_,_,hv⟩,hver,hnew⟩
  | restart =>
    refine Or.inl ?_
    cases hfile : m.file with
    | none => simpa only [step,hfile] using h
    | some cfg =>
      simp only [step,hfile] at h
      rcases h with h | ⟨cfg',hcfg',h⟩
      · exact Or.inr ⟨cfg,hfile,h⟩
      · exact Or.inr ⟨cfg',hfile.trans hcfg',h⟩

theorem run_holds {N : NodeCrypto} {P : Platform} {m : Machine} {es : List Event}
    {encoded : String} (h : (runActs (step N P) m es).Holds encoded) :
    m.Holds encoded ∨ NamedDuring N P m es encoded := by
  induction es using List.reverseRec with
  | nil => exact Or.inl h
  | append_singleton es e ih =>
    rw [runActs_append] at h
    rcases step_holds h with hold | ⟨msg,now,failed,rfl,haccepts,hver,hnames⟩
    · rcases ih hold with hold | ⟨before,msg,now,failed,after,rfl,hnamed⟩
      · exact Or.inl hold
      · refine Or.inr ⟨before,msg,now,failed,after ++ [e],?_,hnamed⟩
        rw [List.append_assoc]
        rfl
    · exact Or.inr ⟨es,msg,now,failed,[],rfl,haccepts,verifies_iff.mp hver,hnames⟩

/-- Signed bytes are the same on both sides and name one command each; an identity with the
deployment's keys accepts what was signed for it and nothing else; and each key it trusts was
enrolled or was named in a command that a key it trusted had signed. -/
theorem commands_not_recut (N : NodeCrypto) (P : Platform)
    (hdecode : ∀ bytes, P.decodeString (toBase64 bytes) = some bytes) :
    (∀ agentId command nonce expiresAt,
      (signingMessageFor agentId command nonce expiresAt).toUTF8 =
        commandMessage agentId command nonce expiresAt) ∧
    (∀ d d' : Dispatch, d.Minted N → d'.Minted N → d.message = d'.message →
      d.agentId = d'.agentId ∧ d.signed.command = d'.signed.command ∧
        d.signed.nonce = d'.signed.nonce ∧ d.signed.expiresAt = d'.signed.expiresAt) ∧
    (∀ (deployment : Set (List UInt8)) (signed : Set Dispatch) (id : Identity)
      (msg : ControlMessage) (now : Int), (∀ d ∈ signed, d.Minted N) →
      Unforgeable N P deployment signed →
      (∀ encoded ∈ id.cfg.commandKeys, IsDeploymentKey N deployment encoded) →
      Accepts P id msg now → ∃ d ∈ signed, d.agentId = id.cfg.agentID ∧ SameFields msg d) ∧
    (∀ path cfg es encoded,
      encoded ∈ (runActs (step N P) (enrolled path cfg) es).identity.cfg.commandKeys →
      encoded ∈ cfg.commandKeys ∨ NamedDuring N P (enrolled path cfg) es encoded) := by
  refine ⟨toUTF8_signingMessageFor,?_,?_,?_⟩
  · intro d d' _ hminted hbytes
    exact message_unique hminted hbytes
  · intro deployment signed id msg now hminted hunforgeable hkeys haccepts
    refine accepted_dispatch signed hdecode hminted ?_ hkeys haccepts
    intro key hkey sig hsig
    exact hunforgeable key hkey _ sig hsig
  · intro path cfg es encoded hmem
    rcases run_holds (Or.inl hmem) with hold | hnamed
    · refine Or.inl ?_
      rcases hold with hold | ⟨cfg',hfile,hold⟩
      · exact hold
      · obtain rfl := Option.some.inj hfile
        exact hold
    · exact Or.inr hnamed

/-- The control plane signs for ids it minted and hands out keys of its own, and a signature of one
of its keys that verifies is one it made. -/
def Honest (N : NodeCrypto) (P : Platform) (deployment : Set (List UInt8)) (m : Machine) :
    Event → Prop
  | .signCommand _ agentId _ _ _ => isUuid agentId
  | .signRotation env agentId _ _ => isUuid agentId ∧
      ∀ key, signingKey N env.secret = some key → key ∈ deployment
  | .deliver msg _ _ => ∀ key ∈ deployment, ∀ sig, P.verify (N.publicKey key)
      (signingMessageFor m.identity.cfg.agentID msg.command msg.nonce msg.expiresAt) sig →
      ∃ d ∈ m.signed, d.key = key ∧ d.message = (signingMessageFor m.identity.cfg.agentID
        msg.command msg.nonce msg.expiresAt).toUTF8
  | .restart => True

/-- Every key that is held or that a signed command hands out is the deployment's. -/
structure Deployed (N : NodeCrypto) (deployment : Set (List UInt8)) (m : Machine) : Prop where
  minted : ∀ d ∈ m.signed, d.Minted N
  handed : ∀ d ∈ m.signed, ∀ encoded, Names d.signed.command encoded →
    IsDeploymentKey N deployment encoded
  held : ∀ encoded, m.Holds encoded → IsDeploymentKey N deployment encoded

private theorem dropWhile_none {cs : List Char} (h : ∀ c ∈ cs, isSpace c = false) :
    cs.dropWhile isSpace = cs := by
  cases cs with
  | nil => rfl
  | cons c cs =>
    have hc := h c List.mem_cons_self
    rw [List.dropWhile_cons_of_neg]
    simpa using hc

private theorem base64_noSpace :
    ∀ c ∈ Base64.standard.alphabet ++ Base64.standard.pad, isSpace c = false := by
  have hall : (Base64.standard.alphabet ++ Base64.standard.pad).all (fun c => !isSpace c) = true := by
    decide +kernel
  simpa only [List.all_eq_true,Bool.not_eq_true'] using hall

private theorem trimSpace_toBase64 (bytes : List UInt8) :
    trimSpace (toBase64 bytes) = toBase64 bytes := by
  have hspace : ∀ c ∈ Base64.standard.encode bytes, isSpace c = false := by
    intro c hc
    exact base64_noSpace c (List.mem_append.mpr (Base64.standard.mem_encode hc))
  have hreverse : ∀ c ∈ (Base64.standard.encode bytes).reverse, isSpace c = false := by
    intro c hc
    exact hspace c (List.mem_reverse.mp hc)
  unfold trimSpace toBase64
  rw [String.toList_ofList,dropWhile_none hspace,dropWhile_none hreverse,List.reverse_reverse]

private theorem trimPrefix_append (start rest : String) :
    trimPrefix (start ++ rest) start = rest := by
  have hstarts : hasPrefix (start ++ rest) start = true := by
    rw [hasPrefix,String.toList_append,List.isPrefixOf_iff_prefix]
    exact List.prefix_append _ _
  rw [trimPrefix,if_pos hstarts,String.toList_append,List.drop_left,String.ofList_toList]

private theorem names_rotation {bytes : List UInt8} {encoded : String}
    (h : Names (rotateKeyText ++ ":" ++ toBase64 bytes) encoded) : encoded = toBase64 bytes := by
  have htrim := h.2
  change trimSpace (trimPrefix (rotateKeyText ++ ":" ++ toBase64 bytes) (rotateKeyText ++ ":")) = _
    at htrim
  rw [trimPrefix_append,trimSpace_toBase64] at htrim
  exact htrim.symm

private theorem not_names_text (command : AgentCommand) (encoded : String) :
    ¬ Names command.text encoded := by
  intro h
  have hstarts := h.1
  revert hstarts
  cases command <;> decide

private theorem Deployed.log {N : NodeCrypto} {deployment : Set (List UInt8)} {m : Machine}
    (h : Deployed N deployment m) {agentId : String} {key : Option (List UInt8)}
    {signed : Option SignedCommand}
    (hnew : ∀ k s, key = some k → signed = some s → (Dispatch.mk k agentId s).Minted N ∧
      ∀ encoded, Names s.command encoded → IsDeploymentKey N deployment encoded) :
    Deployed N deployment (m.log agentId key signed) := by
  rcases key with _ | k
  · exact h
  rcases signed with _ | s
  · exact h
  obtain ⟨hminted,hhanded⟩ := hnew k s rfl rfl
  refine ⟨?_,?_,fun encoded hheld => h.held encoded hheld⟩
  · intro d hd
    rcases List.mem_cons.mp hd with rfl | hd
    · exact hminted
    · exact h.minted d hd
  · intro d hd
    rcases List.mem_cons.mp hd with rfl | hd
    · exact hhanded
    · exact h.handed d hd

private theorem deployed_sign {N : NodeCrypto} {deployment : Set (List UInt8)} {m : Machine}
    (h : Deployed N deployment m) (env : Env) {agentId : String} (command : AgentCommand)
    (randomBytes : List UInt8) (now : Int) (hid : isUuid agentId) :
    Deployed N deployment (m.log agentId (signingKey N env.secret)
      (signCommand N env agentId command randomBytes now)) := by
  apply h.log
  intro k s hk hs
  refine ⟨⟨hid,env,randomBytes,now,Or.inl ⟨hk,command,hs⟩⟩,?_⟩
  intro encoded hnames
  have hcommand : s.command = command.text := by
    simp only [signCommand,hk] at hs
    rw [← Option.some.inj hs]
    rfl
  rw [hcommand] at hnames
  exact absurd hnames (not_names_text command encoded)

private theorem deployed_rotate {N : NodeCrypto} {deployment : Set (List UInt8)} {m : Machine}
    (h : Deployed N deployment m) (env : Env) {agentId : String} (randomBytes : List UInt8)
    (now : Int) (hid : isUuid agentId)
    (howned : ∀ key, signingKey N env.secret = some key → key ∈ deployment) :
    Deployed N deployment (m.log agentId (previousSigningKey N env)
      (signRotation N env agentId randomBytes now)) := by
  apply h.log
  intro k s hk hs
  refine ⟨⟨hid,env,randomBytes,now,Or.inr ⟨hk,hs⟩⟩,?_⟩
  intro encoded hnames
  rcases hkey : signingKey N env.secret with _ | key
  · simp [signRotation,hk,commandPublicKey,hkey] at hs
  · have hcommand : s.command = rotateKeyText ++ ":" ++ toBase64 (N.publicKey key) := by
      simp only [signRotation,hk,commandPublicKey,hkey] at hs
      rw [← Option.some.inj hs]
      rfl
    rw [hcommand] at hnames
    exact ⟨key,howned key hkey,names_rotation hnames⟩

private theorem signed_runCommand (P : Platform) (m : Machine) (command : String)
    (failed : Option String) : (m.runCommand P command failed).signed = m.signed := by
  unfold Machine.runCommand
  split
  · rfl
  split
  · rcases rotateKey_cases P m (trimPrefix command (commandRotateKey ++ ":")) failed with h | h
    · rw [h]
    · rw [h]
      rfl
  split
  · cases failed <;> rfl
  · rfl

private theorem signed_deliver (N : NodeCrypto) (P : Platform) (m : Machine) (msg : ControlMessage)
    (now : Int) (failed : Option String) :
    (step N P m (.deliver msg now failed)).signed = m.signed := by
  rcases hv : m.identity.verifyCommand P msg now with ⟨reason | command,id⟩
  · simp only [step,hv]
  · simp only [step,hv]
    exact signed_runCommand P _ command failed

private theorem deployed_step {N : NodeCrypto} {P : Platform} {deployment : Set (List UInt8)}
    {m : Machine} {e : Event} (hdecode : ∀ bytes, P.decodeString (toBase64 bytes) = some bytes)
    (h : Deployed N deployment m) (hok : Honest N P deployment m e) :
    Deployed N deployment (step N P m e) := by
  have hsame : (∀ msg now failed, e = .deliver msg now failed → ∀ encoded,
      Accepts P m.identity msg now → Names msg.command encoded →
      IsDeploymentKey N deployment encoded) := by
    rintro msg now failed rfl encoded haccepts hnames
    obtain ⟨d,hd,-,hfields⟩ := accepted_dispatch {d | d ∈ m.signed} hdecode h.minted hok
      (fun encoded hmem => h.held encoded (Or.inl hmem)) haccepts
    exact h.handed d hd encoded (hfields.2.1 ▸ hnames)
  have hheld : ∀ encoded, (step N P m e).Holds encoded → IsDeploymentKey N deployment encoded := by
    intro encoded hmem
    rcases step_holds hmem with hold | ⟨msg,now,failed,he,haccepts,-,hnames⟩
    · exact h.held encoded hold
    · exact hsame msg now failed he encoded haccepts hnames
  cases e with
  | signCommand env agentId command randomBytes now =>
    exact deployed_sign h env command randomBytes now hok
  | signRotation env agentId randomBytes now =>
    exact deployed_rotate h env randomBytes now hok.1 hok.2
  | deliver msg now failed =>
    have hsigned := signed_deliver N P m msg now failed
    exact ⟨hsigned ▸ h.minted,hsigned ▸ h.handed,hheld⟩
  | restart =>
    have hsigned : (step N P m .restart).signed = m.signed := by
      unfold step
      dsimp only
      split <;> rfl
    exact ⟨hsigned ▸ h.minted,hsigned ▸ h.handed,hheld⟩

/-- Rotations hand on the deployment's keys only: whatever the relay delivers, an identity that was
enrolled with them accepts no message but one that had been signed for it. -/
theorem accepted_during_run {N : NodeCrypto} {P : Platform} {deployment : Set (List UInt8)}
    (hdecode : ∀ bytes, P.decodeString (toBase64 bytes) = some bytes) {path : String} {cfg : Config}
    (hkeys : ∀ encoded ∈ cfg.commandKeys, IsDeploymentKey N deployment encoded)
    {before after : List Event} {msg : ControlMessage} {now : Int} {failed : Option String}
    (hrun : Along (step N P) (Honest N P deployment) (enrolled path cfg)
      (before ++ .deliver msg now failed :: after))
    (haccepts : Accepts P (runActs (step N P) (enrolled path cfg) before).identity msg now) :
    ∃ d ∈ (runActs (step N P) (enrolled path cfg) before).signed,
      d.agentId = (runActs (step N P) (enrolled path cfg) before).identity.cfg.agentID ∧
        SameFields msg d := by
  have hstart : Deployed N deployment (enrolled path cfg) := by
    refine ⟨by simp [enrolled],by simp [enrolled],?_⟩
    intro encoded hheld
    rcases hheld with hmem | ⟨cfg',hfile,hmem⟩
    · exact hkeys encoded hmem
    · obtain rfl := Option.some.inj hfile
      exact hkeys encoded hmem
  have hbefore := ((along_append _ _ _ _ _).mp hrun).1
  have hdeployed := invariant_runActs (Deployed N deployment)
    (fun _ _ h hok => deployed_step hdecode h hok) hstart hbefore
  exact accepted_dispatch {d | d ∈ (runActs (step N P) (enrolled path cfg) before).signed} hdecode
    hdeployed.minted hrun.at (fun encoded hmem => hdeployed.held encoded (Or.inl hmem))
    haccepts

private def demoAgent : String := "0f8fad5b-d9cb-469f-a165-70867728950e"

private def demoNode : NodeCrypto where
  fromBase64 _ := List.replicate 32 7
  publicKey key := key
  sign _ _ := List.replicate 64 1

private def demoSigned : SignedCommand :=
  signWith demoNode (List.replicate 32 7) demoAgent "restart" (List.replicate 32 5) 1600000

/-- Go's decoder without its error cases; the one message that was signed is the one that
verifies. -/
private def demoPlatform : Platform where
  decodeString s := Base64.standard.decode
    (s.toList.filter (fun c => decide (c ∈ Base64.standard.alphabet)))
  verify raw message sig := raw == List.replicate 32 7 && sig == List.replicate 64 1 &&
    message == signingMessageFor demoAgent "restart" demoSigned.nonce demoSigned.expiresAt
  rfc3339 _ := ""
  quote s := "\"" ++ s ++ "\""

private def demoDispatch : Dispatch := ⟨List.replicate 32 7,demoAgent,demoSigned⟩

private def demoMessage : ControlMessage :=
  ⟨demoAgent,"restart",demoSigned.nonce,demoSigned.expiresAt,demoSigned.signature⟩

private def demoIdentity : Identity :=
  ⟨⟨demoAgent,[toBase64 (List.replicate 32 7)]⟩,newSeenNonces⟩

private theorem demo_decode (bytes : List UInt8) :
    demoPlatform.decodeString (toBase64 bytes) = some bytes := by
  have hall : Base64.standard.pad.all (fun c => !Base64.standard.alphabet.contains c) = true := by
    decide +kernel
  have hpad : ∀ c ∈ Base64.standard.pad, c ∉ Base64.standard.alphabet := by simpa using hall
  simp only [demoPlatform,toBase64,String.toList_ofList]
  exact Base64.standard.decode_digits hpad bytes

private theorem demo_minted : demoDispatch.Minted demoNode :=
  ⟨by decide +kernel,⟨some "seed",none⟩,List.replicate 32 5,1600000,
    Or.inl ⟨by decide +kernel,AgentCommand.restart,rfl⟩⟩

private theorem demo_unforgeable :
    Unforgeable demoNode demoPlatform {List.replicate 32 7} {demoDispatch} := by
  intro key hkey message sig hsig
  obtain rfl : key = List.replicate 32 7 := hkey
  refine ⟨demoDispatch,rfl,rfl,?_⟩
  simp only [demoPlatform,Bool.and_eq_true,beq_iff_eq] at hsig
  rw [hsig.2,toUTF8_signingMessageFor]
  rfl

private theorem demo_accepts : Accepts demoPlatform demoIdentity demoMessage (1601*second) := by
  have hok : (demoIdentity.verifyCommand demoPlatform demoMessage (1601*second)).1 =
      .ok "restart" := by decide +kernel
  exact ⟨"restart",_,Prod.ext hok rfl⟩

/-- A restart that was signed at second 1600 and is delivered a second later. -/
theorem commands_not_recut_demo : ∃ d ∈ ({demoDispatch} : Set Dispatch),
    d.agentId = demoIdentity.cfg.agentID ∧ SameFields demoMessage d :=
  (commands_not_recut demoNode demoPlatform demo_decode).2.2.1 {List.replicate 32 7}
    {demoDispatch} demoIdentity demoMessage (1601*second)
    (by rintro d rfl; exact demo_minted) demo_unforgeable
    (by
      intro encoded hmem
      exact ⟨List.replicate 32 7,rfl,List.mem_singleton.mp hmem⟩) demo_accepts

end WeirdVault.Agent.Rotation
