import Mathlib.Algebra.Order.Ring.Nat
import WeirdVault.Framework.Base64

/-!
# Relay tokens

The control plane's side (`relay-token/route.ts`, `presence.ts`) and the relay's (`token.rs`). JSON
and HMAC are taken from the libraries that both sides use.
-/

namespace WeirdVault.Relay.Token

open WeirdVault.Framework

/-- A JSON value. A number is an integer, or it is something else. -/
inductive Json
  | null
  | bool (b : Bool)
  | int (n : Int)
  | float (text : String)
  | str (s : String)
  | arr (xs : List Json)
  | obj (fields : List (String × Json))

structure Library where
  hmac : List UInt8 → List UInt8 → List UInt8
  stringify : Json → String
  fromSlice : List UInt8 → Option Json

def utf8 (s : String) : List UInt8 := s.toUTF8.data.toList

def Library.Reads (L : Library) (v : Json) : Prop :=
  L.fromSlice (utf8 (L.stringify v)) = some v

structure Claims where
  sub : String
  host : String
  port : UInt16
  agent : Option String
  scope : Option String
  reference : Option String
  exp : UInt64
  deriving DecidableEq

def Json.string : Json → Option String
  | .str s => some s
  | _ => none

def Json.optionString : Json → Option (Option String)
  | .null => some none
  | .str s => some (some s)
  | _ => none

def Json.u16 : Json → Option UInt16
  | .int n => if 0 ≤ n ∧ n < 65536 then some (UInt16.ofNat n.toNat) else none
  | _ => none

def Json.u64 : Json → Option UInt64
  | .int n => if 0 ≤ n ∧ n < 18446744073709551616 then some (UInt64.ofNat n.toNat) else none
  | _ => none

def required {α : Type} (read : Json → Option α) : Option Json → Option α
  | none => none
  | some v => read v

/-- `#[serde(default)]` -/
def defaulted {α : Type} (d : α) (read : Json → Option α) : Option Json → Option α
  | none => some d
  | some v => read v

def Claims.ofFields (sub host port agent scope reference exp : Option Json) : Option Claims := do
  let sub ← required Json.string sub
  let host ← defaulted "" Json.string host
  let port ← defaulted 0 Json.u16 port
  let agent ← defaulted none Json.optionString agent
  let scope ← defaulted none Json.optionString scope
  let reference ← defaulted none Json.optionString reference
  let exp ← required Json.u64 exp
  return ⟨sub,host,port,agent,scope,reference,exp⟩

/-- A field, if it is there; a field that is there twice is an error. -/
def field (fields : List (String × Json)) (name : String) : Option (Option Json) :=
  match fields.filter (fun f => f.1 = name) with
  | [] => some none
  | [(_,v)] => some (some v)
  | _ => none

/-- What `derive(Deserialize)` makes of a value: of an object by names, of an array by places. -/
def Claims.deserialize : Json → Option Claims
  | .obj fields => do
    let sub ← field fields "sub"
    let host ← field fields "host"
    let port ← field fields "port"
    let agent ← field fields "agent"
    let scope ← field fields "scope"
    let reference ← field fields "ref"
    let exp ← field fields "exp"
    Claims.ofFields sub host port agent scope reference exp
  | .arr [sub,host,port,agent,scope,reference,exp] =>
    Claims.ofFields (some sub) (some host) (some port) (some agent) (some scope) (some reference)
      (some exp)
  | _ => none

inductive TokenError
  | malformed
  | badSignature
  | expired
  | wrongDestination (wantHost : String) (wantPort : UInt16) (gotHost : String) (gotPort : UInt16)
  | wrongAgent
  | agentToken
  | addressToken
  | scopedToken
  | destinationToken
  deriving DecidableEq

def scopePresence : String := "presence"

/-- What comes before the first such character, and what comes after it. -/
def splitOnce (c : Char) : List Char → Option (List Char × List Char)
  | [] => none
  | x :: xs => if x = c then some ([],xs) else (splitOnce c xs).map fun (a,b) => (x :: a,b)

def decode (L : Library) (secret : List UInt8) (token : String) (now : UInt64) :
    Except TokenError Claims :=
  match splitOnce '.' token.toList with
  | none => .error .malformed
  | some (payload,signature) =>
    let expected := L.hmac secret (utf8 (String.ofList payload))
    match Base64.urlSafe.decode signature with
    | none => .error .malformed
    | some provided =>
      if expected ≠ provided then .error .badSignature
      else match (Base64.urlSafe.decode payload).bind L.fromSlice with
        | none => .error .malformed
        | some v => match Claims.deserialize v with
          | none => .error .malformed
          | some claims => if claims.exp ≤ now then .error .expired else .ok claims

def verify (L : Library) (secret : List UInt8) (token host : String) (port : UInt16)
    (now : UInt64) : Except TokenError Claims :=
  match decode L secret token now with
  | .error e => .error e
  | .ok claims =>
    if claims.agent.isSome then .error .agentToken
    else if claims.scope.isSome then .error .scopedToken
    else if claims.host ≠ host ∨ claims.port ≠ port then
      .error (.wrongDestination claims.host claims.port host port)
    else .ok claims

def verifyAgent (L : Library) (secret : List UInt8) (token agentId : String) (now : UInt64) :
    Except TokenError Claims :=
  match decode L secret token now with
  | .error e => .error e
  | .ok claims =>
    if claims.scope.isSome then .error .scopedToken
    else match claims.agent with
      | none => .error .addressToken
      | some want => if want ≠ agentId then .error .wrongAgent else .ok claims

def verifyPresence (L : Library) (secret : List UInt8) (token : String) (now : UInt64) :
    Except TokenError Claims :=
  match decode L secret token now with
  | .error e => .error e
  | .ok claims => if claims.scope = some scopePresence then .ok claims else .error .destinationToken

def ttlSeconds : Nat := 60

def anonTtlSeconds : Nat := 30

def maxPort : Int := 65535

def tokenTtlSeconds : Nat := 30

/-- A time as `Date` has it, which is never past the year 275760. -/
structure Time where
  milliseconds : Nat
  bounded : milliseconds ≤ 8640000000000000

def Time.seconds (t : Time) : Nat := t.milliseconds/1000

def signed (L : Library) (secret : String) (claims : Json) : String :=
  let payload := String.ofList (Base64.urlSafe.encode (utf8 (L.stringify claims)))
  payload ++ "." ++ String.ofList (Base64.urlSafe.encode (L.hmac (utf8 secret) (utf8 payload)))

structure Subject where
  sub : String
  ttl : Nat
  anonymous : Bool
  deriving DecidableEq

def isAnon (s : String) : Bool :=
  s.toList.length == 36 && s.toList.all fun c =>
    c.isDigit || ('a' ≤ c && c ≤ 'f') || ('A' ≤ c && c ≤ 'F') || c == '-'

/-- What a request to mint finds around it. -/
structure Request where
  user : Option String
  cookie : Option String
  randomUUID : String
  limited : Bool
  secret : Option String
  body : Option Json
  /-- The bytes used, the allowance and the time of the reset, if they can be read. -/
  usage : Option (Nat × Nat × String)
  /-- The rows of the agents that are the user's and not revoked. -/
  owned : List String
  now : Time

def Request.subjectFor (r : Request) : Subject :=
  match r.user with
  | some id => ⟨id,ttlSeconds,false⟩
  | none =>
    let anon := match r.cookie with
      | some c => if isAnon c then c else r.randomUUID
      | none => r.randomUUID
    ⟨"anon:" ++ anon,anonTtlSeconds,true⟩

inductive Refused
  | limited
  /-- The body is `null`, and taking its fields throws. -/
  | thrown
  | error (status : Nat) (text : String)
  | overAllowance (usedBytes allowanceBytes : Nat) (resetsAt : String)
  deriving DecidableEq

def Json.get : Json → String → Option Json
  | .obj fields, name => (fields.find? fun f => f.1 = name).map Prod.snd
  | _, _ => none

def utf16Length (s : String) : Nat :=
  (s.toList.map fun c => if 65536 ≤ c.toNat then 2 else 1).sum

def refOf (body : Json) : Option String :=
  match body.get "ref" with
  | some (.str s) => if 0 < utf16Length s ∧ utf16Length s ≤ 64 then some s else none
  | _ => none

def refField : Option String → List (String × Json)
  | some ref => [("ref",.str ref)]
  | none => []

def agentClaims (sub agent : String) (ref : Option String) (exp : Nat) : Json :=
  .obj ([("sub",.str sub),("agent",.str agent)] ++ refField ref ++ [("exp",.int exp)])

def hostClaims (sub host : String) (port : Int) (ref : Option String) (exp : Nat) : Json :=
  .obj ([("sub",.str sub),("host",.str host),("port",.int port)] ++ refField ref ++
    [("exp",.int exp)])

/-- `typeof port === "number"` and what is asked of the number then. -/
def isNumber : Option Json → Bool
  | some (.int _) => true
  | some (.float _) => true
  | _ => false

def portInvalid : Option Json → Bool
  | some (.int n) => n < 1 || n > maxPort
  | some (.float _) => true
  | _ => false

def nonEmpty : Option Json → Option String
  | some (.str s) => if s = "" then none else some s
  | _ => none

def Request.over (r : Request) : Option (Nat × Nat × String) :=
  r.usage.filter fun (used,allowance,_) => ¬used < allowance

def Request.claims (r : Request) (body : Json) : Except Refused Json :=
  let subject := r.subjectFor
  let exp := r.now.seconds+subject.ttl
  if (body.get "agent").isSome ∧ (body.get "host").isSome then
    .error (.error 400 "name a host or an agent, not both")
  else
    let agent := nonEmpty (body.get "agent")
    let host := nonEmpty (body.get "host")
    if agent.isNone ∧ (host.isNone ∨ ¬isNumber (body.get "port")) then
      .error (.error 400 "host (string) and port (number), or agent (string), required")
    else if portInvalid (body.get "port") then .error (.error 400 "invalid port")
    else match if subject.anonymous then none else r.over with
      | some (used,allowance,resetsAt) => .error (.overAllowance used allowance resetsAt)
      | none => match agent, host, body.get "port" with
        | some agent, _, _ =>
          if subject.anonymous then .error (.error 401 "sign in to reach your own machines")
          else if agent ∉ r.owned then .error (.error 404 "no such machine")
          else .ok (agentClaims subject.sub agent (refOf body) exp)
        | none, some host, some (.int port) =>
          .ok (hostClaims subject.sub host port (refOf body) exp)
        | _, _, _ => .error .thrown

structure Minted where
  token : String
  expiresIn : Nat
  anonymous : Bool
  deriving DecidableEq

def post (L : Library) (r : Request) : Except Refused Minted :=
  if r.limited then .error .limited
  else match r.secret with
    | none => .error (.error 503 "relay not configured")
    | some secret =>
      if secret = "" then .error (.error 503 "relay not configured")
      else match r.body with
        | none => .error (.error 400 "invalid JSON")
        | some .null => .error .thrown
        | some body => (r.claims body).map fun claims =>
          ⟨signed L secret claims,r.subjectFor.ttl,r.subjectFor.anonymous⟩

def presenceClaims (sub : String) (exp : Nat) : Json :=
  .obj [("sub",.str sub),("scope",.str scopePresence),("exp",.int exp)]

def mintPresenceToken (L : Library) (secret accountId : String) (nowSeconds : Nat) : String :=
  signed L secret (presenceClaims accountId (nowSeconds+tokenTtlSeconds))

end WeirdVault.Relay.Token
