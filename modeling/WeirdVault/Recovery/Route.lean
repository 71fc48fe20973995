import WeirdVault.Framework.Interleaving

/-!
# The recovery route

`redeem`, `enrol` and `DELETE` of one account, cut at every statement they send to the database.
-/

namespace WeirdVault.Recovery

open WeirdVault.Framework

def idHexChars : Nat := 32

def saltBytes : Nat := 16

def ivBytes : Nat := 12

def ciphertextBytes : Nat := 113

def minEnvelopes : Nat := 1

def maxEnvelopes : Nat := 32

structure StoredEnvelope where
  id : String
  salt : String
  iv : String
  ciphertext : String
  deriving DecidableEq

/-- What the route takes from Node: lenient base64, string case and the keyed decoy stream. -/
structure Platform where
  fromBase64 : String → List UInt8
  toBase64 : List UInt8 → String
  trimLower : String → String
  decoyBytes : String → Nat → List UInt8

variable (P : Platform)

def wellFormedId (s : String) : Bool :=
  s.toList.length == idHexChars &&
    s.toList.all (fun c => ('0' ≤ c && c ≤ '9') || ('a' ≤ c && c ≤ 'f'))

def stripPadding (s : String) : List Char := (s.toList.reverse.dropWhile (· == '=')).reverse

def exactBase64 (v : String) (bytes : Nat) : Bool :=
  (P.fromBase64 v).length == bytes && stripPadding (P.toBase64 (P.fromBase64 v)) == stripPadding v

def isStoredEnvelope (e : StoredEnvelope) : Bool :=
  wellFormedId e.id && exactBase64 P e.salt saltBytes && exactBase64 P e.iv ivBytes &&
    exactBase64 P e.ciphertext ciphertextBytes

/-- Shaped like a stored envelope and openable by nobody. -/
def decoyEnvelope (email codeId : String) : StoredEnvelope :=
  let label := email ++ ":" ++ codeId
  { id := codeId
    salt := P.toBase64 (P.decoyBytes (label ++ ":salt") saltBytes)
    iv := P.toBase64 (P.decoyBytes (label ++ ":iv") ivBytes)
    ciphertext := P.toBase64 (P.decoyBytes (label ++ ":ct") ciphertextBytes) }

def idMatches (a b : String) : Bool := a == b

/-- An envelope in the table. `enrolment` is a ghost: which enrolment stored it. -/
structure Stored where
  envelope : StoredEnvelope
  enrolment : Nat
  deriving DecidableEq

structure RecoveryBlob where
  id : Nat
  envelopes : List Stored
  deriving DecidableEq

/-- The account's row. The counters stand for what makes new rows and new enrolments new. -/
structure Db where
  email : String
  row : Option RecoveryBlob
  created : Nat
  enrolments : Nat

/-- `spending` is a ghost: the envelope for whose sake the update is made. -/
inductive Request
  | enforce
  | getSession
  | selectByEmail (email : String)
  | updateById (id : Nat) (envelopes : List Stored) (spending : Stored)
  | upsert (envelopes : List StoredEnvelope)
  | deleteByUser
  | insertAudit (eventType : String) (metadata : Nat)

@[reducible] def Request.Ans : Request → Type
  | .enforce => Bool
  | .getSession => Bool
  | .selectByEmail _ => Option RecoveryBlob
  | .updateById .. => Unit
  | .upsert _ => Unit
  | .deleteByUser => Bool
  | .insertAudit .. => Unit

/-- On the wire a real envelope and a decoy look alike. -/
inductive Reply
  | real (e : Stored)
  | decoy (e : StoredEnvelope)
  | enrolled (remaining : Nat)
  | deleted (removed : Bool)
  | refused (status : Nat) (error : String)
  deriving DecidableEq

abbrev Handler (α : Type) := Program Request.Ans Empty α

abbrev query (r : Request) : Handler r.Ans := Program.request r

def redeem (email codeId : Option String) : Handler Reply := do
  let limited ← query .enforce
  if limited then
    return .refused 429 "Too many recovery attempts. Wait ten minutes and try again."
  match email,codeId with
  | some email,some codeId =>
    let normalisedEmail := P.trimLower email
    if !wellFormedId codeId then
      return .decoy (decoyEnvelope P normalisedEmail codeId)
    let row ← query (.selectByEmail normalisedEmail)
    match row with
    | none => return .decoy (decoyEnvelope P normalisedEmail codeId)
    | some row =>
      match row.envelopes.find? (fun e => idMatches e.envelope.id codeId) with
      | none => return .decoy (decoyEnvelope P normalisedEmail codeId)
      | some found =>
        let remaining := row.envelopes.filter (fun e => !idMatches e.envelope.id codeId)
        query (.updateById row.id remaining found)
        query (.insertAudit "recovery.redeemed" remaining.length)
        return .real found
  | _,_ => return .refused 400 "email and codeId required"

/-- The body's `envelopes`: `none` is no array, an entry `none` no object of four strings. -/
def enrol (envelopes : Option (List (Option StoredEnvelope))) : Handler Reply := do
  let user ← query .getSession
  if !user then
    return .refused 401 "unauthorized"
  match envelopes with
  | none => return .refused 400 "envelopes must be an array"
  | some envelopes =>
    if envelopes.length < minEnvelopes ∨ maxEnvelopes < envelopes.length then
      return .refused 400 "between 1 and 32 envelopes"
    if !envelopes.all (fun e => e.elim false (isStoredEnvelope P)) then
      return .refused 400 "each envelope must be \x7b id, salt, iv, ciphertext \x7d with exact lengths"
    let clean := envelopes.filterMap id
    if ¬ (clean.map (·.id)).Nodup then
      return .refused 400 "duplicate envelope id"
    query (.upsert clean)
    query (.insertAudit "recovery.enrolled" clean.length)
    return .enrolled clean.length

def delete : Handler Reply := do
  let user ← query .getSession
  if !user then
    return .refused 401 "unauthorized"
  let removed ← query .deleteByUser
  if removed then
    query (.insertAudit "recovery.disabled" 0)
  return .deleted removed

inductive Job
  | redeem (email codeId : Option String)
  | enrol (envelopes : Option (List (Option StoredEnvelope)))
  | delete

def code : Job → Handler Reply
  | .redeem email codeId => redeem P email codeId
  | .enrol envelopes => enrol P envelopes
  | .delete => delete

/-- One statement. The environment says what the limiter and the session answer. -/
def exec (env : Bool) (s : Db) : (r : Request) → Db × r.Ans
  | .enforce => (s,env)
  | .getSession => (s,env)
  | .selectByEmail email => (s,if email = s.email then s.row else none)
  | .updateById id envelopes _ =>
    match s.row with
    | some row =>
      if row.id = id then ({ s with row := some { row with envelopes := envelopes } },())
      else (s,())
    | none => (s,())
  | .upsert envelopes =>
    let stored := envelopes.map (fun e => Stored.mk e s.enrolments)
    match s.row with
    -- `onConflictDoUpdate` keeps the row and its id.
    | some row =>
      ({ s with row := some ⟨row.id,stored⟩, enrolments := s.enrolments+1 },())
    | none =>
      ({ s with
        row := some ⟨s.created,stored⟩, created := s.created+1, enrolments := s.enrolments+1 },())
  | .deleteByUser => ({ s with row := none },s.row.isSome)
  | .insertAudit .. => (s,())

def system : System Request.Ans Empty Reply Job Bool Db := ⟨code P,fun _ => exec⟩

def fresh (email : String) : World Request.Ans Empty Reply Job Db := World.init ⟨email,none,0,0⟩

end WeirdVault.Recovery
