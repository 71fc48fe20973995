import WeirdVault.Framework.Interleaving
import WeirdVault.Framework.Json
import WeirdVault.Framework.Table

/-!
# The enrollment route

`POST` with its transaction as one step, and what the other routes do to the two tables.
-/

namespace WeirdVault.Enrollment

open WeirdVault.Framework

structure Agent where
  id : JsString
  userId : JsString
  label : JsString
  publicKey : JsString
  fingerprint : JsString
  hostname : JsString
  os : Option JsString
  arch : Option JsString
  agentVersion : Option JsString
  machineRef : Option JsString
  revokedAt : Option Nat
  deriving DecidableEq

structure Token where
  id : JsString
  userId : JsString
  tokenHash : JsString
  expiresAt : Nat
  usedAt : Option Nat
  agentId : Option JsString
  deriving DecidableEq

/-- The two tables with their unique indexes and the reference from one to the other. -/
structure Tables where
  agents : Table Agent.id
  tokens : Table Token.id
  keys : (agents.rows.map Agent.publicKey).Nodup
  hashes : (tokens.rows.map Token.tokenHash).Nodup
  references : ∀ e ∈ tokens.rows, ∀ id, e.agentId = some id → ∃ a ∈ agents.rows, a.id = id

def noRows : Tables := ⟨.empty _,.empty _,List.nodup_nil,List.nodup_nil,by simp [Table.empty]⟩

/-- What the route takes from Node. -/
structure Platform where
  sha256 : List UInt8 → List UInt8
  utf8 : JsString → List UInt8
  fromBase64 : JsString → List UInt8
  hex : List UInt8 → JsString
  base64 : List UInt8 → JsString
  base64url : List UInt8 → JsString

structure Deployment extends Platform where
  agentRelayUrl : Option JsString
  agentReleaseBaseUrl : Option JsString
  agentCommandSecret : Option JsString
  commandPublicKey : Option JsString

variable (D : Deployment)

def hashEnrollmentToken (token : JsString) : JsString := D.hex (D.sha256 (D.utf8 token))

def stripPadding (s : JsString) : JsString := (s.reverse.dropWhile (· == 0x3D)).reverse

def fingerprintFor (publicKeyBase64 : JsString) : JsString :=
  utf16 "SHA256:" ++ stripPadding (D.base64 (D.sha256 (D.fromBase64 publicKeyBase64)))

def accountRef (userId : JsString) : JsString :=
  let salt := match D.agentCommandSecret with
    | none => utf16 "weirdvault-account-ref-v1"
    | some secret => if secret = [] then utf16 "weirdvault-account-ref-v1" else secret
  (D.base64url (D.sha256 (D.utf8 (salt ++ utf16 "\n" ++ userId)))).take 22

def stripSlash (s : JsString) : JsString := if s.getLast? = some 0x2F then s.dropLast else s

def agentReleaseUrl (origin : JsString) : JsString :=
  match D.agentReleaseBaseUrl.map stripSlash with
  | some (u :: us) => u :: us
  | _ => origin ++ utf16 "/agent-bin"

def field (body : Json) (name : String) : Option Json :=
  match body with
  | .object members => (members.find? (fun m => m.1 = utf16 name)).map Prod.snd
  | _ => none

def tokenPrefix : JsString := utf16 "ENROLL_"

def looksLikeEnrollmentToken (value : Option Json) : Option JsString :=
  match value with
  | some (.string s) =>
    if tokenPrefix.isPrefixOf s ∧ tokenPrefix.length+20 < s.length ∧ s.length < 200 then some s
    else none
  | _ => none

def isBase64Digit (u : UInt16) : Bool :=
  (0x41 ≤ u && u ≤ 0x5A) || (0x61 ≤ u && u ≤ 0x7A) || (0x30 ≤ u && u ≤ 0x39) || u == 0x2B || u == 0x2F

def isBase64Key (value : Option Json) : Option JsString :=
  match value with
  | some (.string s) =>
    let padding := s.dropWhile isBase64Digit
    if s.length = 44 ∧ s.takeWhile isBase64Digit ≠ [] ∧ padding.length ≤ 2 ∧ padding.all (· == 0x3D) ∧
        (D.fromBase64 s).length = 32 then some s
    else none
  | _ => none

def isControl (u : UInt16) : Bool := u ≤ 0x1F || (0x7F ≤ u && u ≤ 0x9F)

def isSpace (u : UInt16) : Bool :=
  (0x09 ≤ u && u ≤ 0x0D) || u == 0x20 || u == 0xA0 || u == 0x1680 || (0x2000 ≤ u && u ≤ 0x200A) ||
    u == 0x2028 || u == 0x2029 || u == 0x202F || u == 0x205F || u == 0x3000 || u == 0xFEFF

def trim (s : JsString) : JsString := ((s.dropWhile isSpace).reverse.dropWhile isSpace).reverse

def maxField : Nat := 200

def cleanString (value : Option Json) (max : Nat) : Option JsString :=
  match value with
  | some (.string s) =>
    let trimmed := trim (s.filter (fun u => !isControl u))
    if trimmed = [] then none else some (trimmed.take max)
  | _ => none

structure Enrolling where
  token : JsString
  now : Nat
  agentId : JsString
  publicKey : JsString
  hostname : JsString
  os : Option JsString
  arch : Option JsString
  agentVersion : Option JsString
  machineRef : Option JsString

/-- How the transaction ends, with the account it has enrolled for. -/
inductive Outcome
  | ok (enrolledFor : JsString)
  | refused (status : Nat) (error : String)
  deriving DecidableEq

inductive Request
  | enforce
  | clock
  | randomUuid
  | transaction (t : Enrolling)
  | mint (id userId token : JsString) (expiresAt : Nat)
  | rename (id userId label : JsString)
  | revoke (id userId : JsString)
  | forget (id userId : JsString)
  | deleteUser (userId : JsString)

inductive Thrown
  | typeError
  | rolledBack
  deriving DecidableEq

@[reducible] def Request.Ans : Request → Type
  | .enforce => Bool
  | .clock => Nat
  | .randomUuid => JsString
  | .transaction _ => Except Thrown Outcome
  | _ => Unit

inductive Reply
  | refused (status : Nat) (error : String)
  | enrolled (agentId relayUrl releaseUrl : JsString) (commandKeys : List JsString)
      (accountRef : Option JsString)
  | elsewhere
  deriving DecidableEq

abbrev Handler (α : Type) := Program Request.Ans Thrown α

abbrev query (r : Request) : Handler r.Ans := Program.request r

def tooMany : String :=
  "Too many enrollment attempts from this network in the last hour. The token you have is " ++
    "unaffected — wait, then run the installer again."

def alreadyEnrolled : String :=
  "That key is already enrolled here. Delete /etc/weirdvault/agent.json on " ++
    "that machine and run the install command again — enrolment generates a fresh " ++
    "key. If the old machine is listed as revoked, use Forget to remove it entirely."

def enroll (relayUrl releaseUrl token publicKey : JsString) (body : Json) : Handler Reply := do
  let hostname := (cleanString (field body "hostname") maxField).getD (utf16 "unknown")
  let os := cleanString (field body "os") 32
  let arch := cleanString (field body "arch") 32
  let agentVersion := cleanString (field body "version") 32
  let machineRef := cleanString (field body "machineRef") 64
  let now ← query .clock
  let agentId ← query .randomUuid
  let outcome ← query (.transaction
    ⟨token,now,agentId,publicKey,hostname,os,arch,agentVersion,machineRef⟩)
  match outcome with
  | .error _ => return .refused 409 alreadyEnrolled
  | .ok (.refused status error) => return .refused status error
  | .ok (.ok enrolledFor) =>
    return .enrolled agentId relayUrl releaseUrl (D.commandPublicKey.toList.filter (· ≠ []))
      (if enrolledFor = [] then none else some (accountRef D enrolledFor))

/-- `POST`; the body is `none` where it is not JSON. -/
def post (origin : JsString) (body : Option Json) : Handler Reply := do
  let limited ← query .enforce
  if limited then
    return .refused 429 tooMany
  let releaseUrl := agentReleaseUrl D origin
  match D.agentRelayUrl,body with
  | none,_ => return .refused 503 "this deployment has no relay configured"
  | some _,none => return .refused 400 "invalid JSON"
  | some _,some .null => throw .typeError
  | some relayUrl,some body =>
    match looksLikeEnrollmentToken (field body "token"),isBase64Key D (field body "publicKey") with
    | none,_ => return .refused 401 "enrollment refused"
    | some _,none => return .refused 400 "publicKey must be a base64 Ed25519 public key"
    | some token,some publicKey => enroll D relayUrl releaseUrl token publicKey body

inductive Job
  | post (origin : JsString) (body : Option Json)
  | mint (id userId token : JsString) (expiresAt : Nat)
  | rename (id userId label : JsString)
  | revoke (id userId : JsString)
  | forget (id userId : JsString)
  | deleteUser (userId : JsString)

def statement (r : Request) : Handler Reply := (query r).bind fun _ => .done .elsewhere

def code : Job → Handler Reply
  | .post origin body => post D origin body
  | .mint id userId token expiresAt => statement (.mint id userId token expiresAt)
  | .rename id userId label => statement (.rename id userId label)
  | .revoke id userId => statement (.revoke id userId)
  | .forget id userId => statement (.forget id userId)
  | .deleteUser userId => statement (.deleteUser userId)

def Token.claimable (hash : JsString) (now : Nat) (e : Token) : Bool :=
  e.tokenHash = hash && e.usedAt.isNone && now < e.expiresAt

namespace Tables

variable (t : Tables)

private theorem map_adjust {τ κ β : Type} {key : τ → κ} (t : Table key) (f : τ → τ)
    (hf : ∀ x, key (f x) = key x) (g : τ → β) (hg : ∀ x, g (f x) = g x) :
    (t.adjust f hf).rows.map g = t.rows.map g := by
  simp [Table.adjust,hg]

/-- The tables with every token row changed in place; what it refers to must exist. -/
def adjustTokens (f : Token → Token) (hid : ∀ e, (f e).id = e.id)
    (hhash : ∀ e, (f e).tokenHash = e.tokenHash)
    (href : ∀ e ∈ t.tokens.rows, ∀ id, (f e).agentId = some id → ∃ a ∈ t.agents.rows, a.id = id) :
    Tables where
  agents := t.agents
  tokens := t.tokens.adjust f hid
  keys := t.keys
  hashes := by
    rw [map_adjust t.tokens f hid Token.tokenHash hhash]
    exact t.hashes
  references := by
    intro e he id hagent
    obtain ⟨x,hx,rfl⟩ := List.mem_map.mp he
    exact href x hx id hagent

def adjustAgents (f : Agent → Agent) (hid : ∀ a, (f a).id = a.id)
    (hkey : ∀ a, (f a).publicKey = a.publicKey) : Tables where
  agents := t.agents.adjust f hid
  tokens := t.tokens
  keys := by
    rw [map_adjust t.agents f hid Agent.publicKey hkey]
    exact t.keys
  hashes := t.hashes
  references := by
    intro e he id hagent
    obtain ⟨a,ha,rfl⟩ := t.references e he id hagent
    exact ⟨f a,List.mem_map_of_mem ha,hid a⟩

/-- `UPDATE agent_enrollment SET used_at = now WHERE … RETURNING user_id, id` -/
def claim (hash : JsString) (now : Nat) : Tables × List (JsString × JsString) :=
  (t.adjustTokens (fun e => if e.claimable hash now then { e with usedAt := some now } else e)
    (by intro e; split <;> rfl) (by intro e; split <;> rfl)
    (by
      intro e he id hagent
      apply t.references e he id
      split at hagent <;> exact hagent),
   (t.tokens.rows.filter (·.claimable hash now)).map (fun e => (e.userId,e.id)))

/-- `INSERT INTO agent`, if neither the id nor the key is taken. -/
def insertAgent (a : Agent) : Except Thrown Tables :=
  if hfree : (∀ x ∈ t.agents.rows, x.id ≠ a.id) ∧ ∀ x ∈ t.agents.rows, x.publicKey ≠ a.publicKey then
    .ok {
      agents := t.agents.put a
      tokens := t.tokens
      keys := by
        rw [Table.rows_put_new (Table.get?_eq_none_iff.mpr hfree.1),List.map_append]
        apply List.Nodup.append t.keys (by simp)
        intro key hkey hnew
        obtain ⟨x,hx,rfl⟩ := List.mem_map.mp hkey
        exact hfree.2 x hx (by simpa using hnew)
      hashes := t.hashes
      references := by
        intro e he id hagent
        obtain ⟨x,hx,hid⟩ := t.references e he id hagent
        exact ⟨x,Table.mem_rows_put_iff.mpr (.inr ⟨hx,hfree.1 x hx⟩),hid⟩ }
  else .error .rolledBack

/-- `UPDATE agent_enrollment SET agent_id = … WHERE id = …`, if the agent exists. -/
def link (agentId enrollmentId : JsString) : Except Thrown Tables :=
  if hagent : ∃ a ∈ t.agents.rows, a.id = agentId then
    .ok (t.adjustTokens
      (fun e => if e.id = enrollmentId then { e with agentId := some agentId } else e)
      (by intro e; split <;> rfl) (by intro e; split <;> rfl)
      (by
        intro e he id hid
        split at hid
        · rw [← Option.some.inj hid]
          exact hagent
        · exact t.references e he id hid))
  else .error .rolledBack

/-- `INSERT INTO agent_enrollment`, if neither the id nor the hash is taken. -/
def insertToken (e : Token) (hagent : e.agentId = none) : Tables :=
  if hfree : (∀ x ∈ t.tokens.rows, x.id ≠ e.id) ∧ ∀ x ∈ t.tokens.rows, x.tokenHash ≠ e.tokenHash then
    { agents := t.agents
      tokens := t.tokens.put e
      keys := t.keys
      hashes := by
        rw [Table.rows_put_new (Table.get?_eq_none_iff.mpr hfree.1),List.map_append]
        apply List.Nodup.append t.hashes (by simp)
        intro hash hhash hnew
        obtain ⟨x,hx,rfl⟩ := List.mem_map.mp hhash
        exact hfree.2 x hx (by simpa using hnew)
      references := by
        intro x hx id hid
        rcases Table.mem_rows_put hx with rfl | hx
        · rw [hagent] at hid
          cases hid
        · exact t.references x hx id hid }
  else t

/-- The agents that stay; the tokens that stay are among those whose agent does, as `agent_id` is
declared `ON DELETE CASCADE`. -/
def delete (stays : Agent → Bool) (kept : Token → Bool) : Tables where
  agents := t.agents.keep stays
  tokens := t.tokens.keep fun e =>
    kept e && e.agentId.all (fun id => (t.agents.keep stays).rows.any (fun a => a.id = id))
  keys := t.keys.sublist (List.filter_sublist.map Agent.publicKey)
  hashes := t.hashes.sublist (List.filter_sublist.map Token.tokenHash)
  references := by
    intro e he id hid
    have hkeep := (List.mem_filter.mp he).2
    simpa [hid] using (Bool.and_eq_true_iff.mp hkeep).2

end Tables

inductive Statement
  | claim
  | insert
  | link
  | commit
  deriving DecidableEq

/-- What the environment contributes to a request: how much time has passed, what the limiter and
the generator say, and which statements fail. -/
structure Moment where
  elapsed : Nat
  limited : Bool
  uuid : JsString
  fails : Statement → Bool

def Moment.attempt (m : Moment) (s : Statement) : Except Thrown Unit :=
  if m.fails s then .error .rolledBack else .ok ()

def transaction (m : Moment) (t : Enrolling) (db : Tables) : Except Thrown (Tables × Outcome) := do
  m.attempt .claim
  let (claimedDb,claimed) := db.claim (hashEnrollmentToken D t.token) t.now
  match claimed with
  | [] =>
    m.attempt .commit
    return (claimedDb,.refused 401 "enrollment refused")
  | (userId,enrollmentId) :: _ =>
    m.attempt .insert
    let insertedDb ← claimedDb.insertAgent
      { id := t.agentId, userId := userId, label := t.hostname, publicKey := t.publicKey
        fingerprint := fingerprintFor D t.publicKey, hostname := t.hostname, os := t.os, arch := t.arch
        agentVersion := t.agentVersion, machineRef := t.machineRef, revokedAt := none }
    m.attempt .link
    let linkedDb ← insertedDb.link t.agentId enrollmentId
    m.attempt .commit
    return (linkedDb,.ok userId)

namespace Agent

def rename (id userId label : JsString) (a : Agent) : Agent :=
  if a.id = id ∧ a.userId = userId then { a with label } else a

def revoke (id userId : JsString) (now : Nat) (a : Agent) : Agent :=
  if a.id = id ∧ a.userId = userId ∧ a.revokedAt = none then { a with revokedAt := some now } else a

variable (id userId label : JsString) (now : Nat) (a : Agent)

theorem id_rename : (a.rename id userId label).id = a.id := by
  unfold rename
  split <;> rfl

theorem publicKey_rename : (a.rename id userId label).publicKey = a.publicKey := by
  unfold rename
  split <;> rfl

theorem id_revoke : (a.revoke id userId now).id = a.id := by
  unfold revoke
  split <;> rfl

theorem publicKey_revoke : (a.revoke id userId now).publicKey = a.publicKey := by
  unfold revoke
  split <;> rfl

end Agent

structure Minted where
  hash : JsString
  expiresAt : Nat
  deriving DecidableEq

/-- An agent row that was created, and the token that it was created for. -/
structure Created where
  hash : JsString
  agentId : JsString
  deriving DecidableEq

/-- `minted` and `created` are ghosts. -/
structure Db where
  tables : Tables
  now : Nat
  minted : List Minted
  created : List Created

def emptyDb : Db := ⟨noRows,0,[],[]⟩

def execute (m : Moment) (s : Db) : (r : Request) → Db × r.Ans
  | .enforce => (s,m.limited)
  | .clock => (s,s.now)
  | .randomUuid => (s,m.uuid)
  | .transaction t =>
    match transaction D m t s.tables with
    | .error e => (s,.error e)
    | .ok (tables,.refused status error) => ({ s with tables },.ok (.refused status error))
    | .ok (tables,.ok userId) =>
      let created := ⟨hashEnrollmentToken D t.token,t.agentId⟩ :: s.created
      ({ s with tables, created },.ok (.ok userId))
  | .mint id userId token expiresAt =>
    let hash := hashEnrollmentToken D token
    -- `randomBytes` does not draw one token twice.
    if s.minted.any (fun x => x.hash = hash) then (s,())
    else
      let tables := s.tables.insertToken ⟨id,userId,hash,expiresAt,none,none⟩ rfl
      ({ s with tables, minted := ⟨hash,expiresAt⟩ :: s.minted },())
  | .rename id userId label =>
    let tables := s.tables.adjustAgents (Agent.rename id userId label) (Agent.id_rename id userId label)
      (Agent.publicKey_rename id userId label)
    ({ s with tables },())
  | .revoke id userId =>
    let tables := s.tables.adjustAgents (Agent.revoke id userId s.now) (Agent.id_revoke id userId s.now)
      (Agent.publicKey_revoke id userId s.now)
    ({ s with tables },())
  | .forget id userId =>
    let stays := fun a : Agent => !(a.id = id ∧ a.userId = userId ∧ a.revokedAt ≠ none)
    ({ s with tables := s.tables.delete stays (fun _ => true) },())
  | .deleteUser userId =>
    ({ s with tables := s.tables.delete (·.userId ≠ userId) (·.userId ≠ userId) },())

def exec (m : Moment) (s : Db) (r : Request) : Db × r.Ans :=
  execute D m { s with now := s.now+m.elapsed } r

def system : System Request.Ans Thrown Reply Job Moment Db := ⟨code D,fun _ => exec D⟩

abbrev Enrollments := World Request.Ans Thrown Reply Job Db

def fresh : Enrollments := World.init emptyDb

end WeirdVault.Enrollment
