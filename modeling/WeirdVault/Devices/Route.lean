import WeirdVault.Framework.Recorded
import WeirdVault.Framework.Table
import WeirdVault.Relay.Token

/-!
# The devices route

`POST` and `DELETE`, cut at every statement that they send to the database, and what Better Auth does
to the session rows.
-/

namespace WeirdVault.Devices

open WeirdVault.Framework

structure Device where
  id : String
  userId : String
  label : String
  platform : Option String
  signingKey : String
  lastSeenIpPrefix : Option String
  revokedAt : Option Nat
  lastSeenAt : Nat
  deriving DecidableEq

structure Session where
  id : Nat
  userId : String
  deviceId : Option String
  deriving DecidableEq

structure Db where
  devices : Table Device.id
  sessions : Table Session.id
  /-- A ghost: for whom each session was created. Their ids are counted. -/
  issued : List String

def emptyDb : Db := ⟨Table.empty _,Table.empty _,[]⟩

structure SignedIn where
  id : Nat
  userId : String
  deriving DecidableEq

structure NewDevice where
  id : String
  userId : String
  label : String
  platform : Option String
  signingKey : String
  lastSeenIpPrefix : Option String
  deriving DecidableEq

inductive Metadata
  | platform (platform : Option String)
  | revokedDeviceId (id : String)
  deriving DecidableEq

structure AuditEvent where
  userId : String
  deviceId : Option String
  eventType : String
  source : String
  ipPrefix : Option String
  metadata : Metadata
  deriving DecidableEq

inductive Thrown
  | unavailable
  | duplicateKey
  | typeError
  deriving DecidableEq

inductive Request
  | getSession (cookie : Option Nat)
  | selectByKey (userId signingKey : String)
  | updateSeen (id : String) (ipPrefix : Option String)
  | selectById (id : String)
  | insertDevice (device : NewDevice)
  | insertAudit (event : AuditEvent)
  | bindSession (sessionId : Nat) (deviceId : String)
  | revoke (id userId : String)
  | deleteSessions (userId deviceId : String)
  | createSession (userId : String)
  | deleteSession (id : Nat)
  deriving DecidableEq

@[reducible] def Request.Val : Request → Type
  | .getSession _ => Option SignedIn
  | .selectByKey .. => Option Device
  | .selectById _ => Bool
  | .revoke .. => List String
  | _ => Unit

@[reducible] def Request.Ans (r : Request) : Type := Except Thrown r.Val

inductive Reply
  | refused (status : Nat) (error : String)
  | device (status : Nat) (id : String)
  | ok
  deriving DecidableEq

abbrev Handler (α : Type) := Program Request.Ans Thrown α

def query (r : Request) : Handler r.Val :=
  (Program.request r).bind fun
    | .ok x => .done x
    | .error e => .fail e

def bindSessionToDevice (sessionId : Nat) (deviceId : String) : Handler Unit :=
  (query (.bindSession sessionId deviceId)).handle fun _ => .done ()

/-- The body of a `POST`; a field that is no string is `none`. -/
inductive Body
  | invalid
  | null
  | fields (id label platform signingKey : Option String)
  deriving DecidableEq

def maxIdLength : Nat := 64

def maxLabelLength : Nat := 80

def maxSigningKeyLength : Nat := 128

/-- `POST` for a user who is signed in, with well-formed fields. -/
def register (session : SignedIn) (id label : String) (platform : Option String)
    (signingKey : String) (ipPrefix : Option String) (randomUuid : String) : Handler Reply := do
  let existing ← query (.selectByKey session.userId signingKey)
  match existing with
  | some existing =>
    if existing.revokedAt.isSome then
      return .refused 403 "device revoked"
    query (.updateSeen existing.id ipPrefix)
    bindSessionToDevice session.id existing.id
    return .device 200 existing.id
  | none =>
    let taken ← query (.selectById id)
    let deviceId := if taken then randomUuid else id
    query (.insertDevice ⟨deviceId,session.userId,label,platform,signingKey,ipPrefix⟩)
    query (.insertAudit ⟨session.userId,some deviceId,"device.registered","server",ipPrefix,
      .platform platform⟩)
    bindSessionToDevice session.id deviceId
    return .device 201 deviceId

def post (cookie : Option Nat) (body : Body) (ipPrefix : Option String) (randomUuid : String) :
    Handler Reply := do
  let session ← query (.getSession cookie)
  match session,body with
  | none,_ => return .refused 401 "unauthorized"
  | some _,.invalid => return .refused 400 "invalid JSON"
  | some _,.null => throw .typeError
  | some session,.fields (some id) (some label) platform (some signingKey) =>
    if maxIdLength < Relay.Token.utf16Length id ∨ maxLabelLength < Relay.Token.utf16Length label ∨
        maxSigningKeyLength < Relay.Token.utf16Length signingKey then
      return .refused 400 "field too long"
    register session id label platform signingKey ipPrefix randomUuid
  | some _,.fields .. => return .refused 400 "id, label and signingKey required"

def delete (cookie : Option Nat) (id : Option String) (ipPrefix : Option String) :
    Handler Reply := do
  let session ← query (.getSession cookie)
  match session,id with
  | none,_ => return .refused 401 "unauthorized"
  | some _,none => return .refused 400 "id required"
  | some _,some "" => return .refused 400 "id required"
  | some session,some id =>
    let result ← query (.revoke id session.userId)
    if result.length = 0 then
      return .refused 404 "not found or already revoked"
    query (.deleteSessions session.userId id)
    query (.insertAudit ⟨session.userId,none,"device.revoked","server",ipPrefix,.revokedDeviceId id⟩)
    return .ok

inductive Job
  | post (cookie : Option Nat) (body : Body) (ipPrefix : Option String) (randomUuid : String)
  | delete (cookie : Option Nat) (id : Option String) (ipPrefix : Option String)
  | signIn (userId : String)
  | signOut (id : Nat)
  deriving DecidableEq

def code : Job → Handler Reply
  | .post cookie body ipPrefix randomUuid => post cookie body ipPrefix randomUuid
  | .delete cookie id ipPrefix => delete cookie id ipPrefix
  | .signIn userId => do
    query (.createSession userId)
    return .ok
  | .signOut id => do
    query (.deleteSession id)
    return .ok

/-- How a statement fares; a lost one was executed, but its answer does not arrive. -/
inductive Fate
  | answered
  | refused
  | lost
  deriving DecidableEq

/-- What the environment contributes to a statement: the clock, whether the cookie cache still
stands in for the session row, and the statement's fate. -/
structure Moment where
  now : Nat
  cached : Bool
  fate : Fate
  deriving DecidableEq

def Db.signedIn (s : Db) (cached : Bool) : Option Nat → Option SignedIn
  | none => none
  | some id =>
    match s.issued[id]? with
    | some userId => if cached ∨ (s.sessions.get? id).isSome then some ⟨id,userId⟩ else none
    | none => none

/-- `device_user_signing_key_idx` and the primary key. -/
def Db.conflicts (s : Db) (d : NewDevice) : Bool :=
  (s.devices.get? d.id).isSome ||
    s.devices.rows.any fun row => row.userId = d.userId ∧ row.signingKey = d.signingKey

def Device.new (d : NewDevice) (now : Nat) : Device :=
  ⟨d.id,d.userId,d.label,d.platform,d.signingKey,d.lastSeenIpPrefix,none,now⟩

def execute (m : Moment) (s : Db) : (r : Request) → Db × r.Ans
  | .getSession cookie => (s,.ok (s.signedIn m.cached cookie))
  | .selectByKey userId signingKey =>
    (s,.ok (s.devices.rows.find? fun row => row.userId = userId ∧ row.signingKey = signingKey))
  | .updateSeen id ipPrefix =>
    let seen := fun row : Device => { row with lastSeenAt := m.now, lastSeenIpPrefix := ipPrefix }
    ({ s with devices := s.devices.update id seen (fun _ => rfl) },.ok ())
  | .selectById id => (s,.ok (s.devices.get? id).isSome)
  | .insertDevice d =>
    if s.conflicts d then (s,.error .duplicateKey)
    else ({ s with devices := s.devices.put (Device.new d m.now) },.ok ())
  | .insertAudit _ => (s,.ok ())
  | .bindSession sessionId deviceId =>
    let bound := fun row : Session => { row with deviceId := some deviceId }
    ({ s with sessions := s.sessions.update sessionId bound (fun _ => rfl) },.ok ())
  | .revoke id userId =>
    match s.devices.get? id with
    | some row =>
      if row.userId = userId ∧ row.revokedAt = none then
        ({ s with devices := s.devices.put { row with revokedAt := some m.now } },.ok [id])
      else (s,.ok [])
    | none => (s,.ok [])
  | .deleteSessions userId deviceId =>
    let stays := fun row : Session => !(row.userId = userId ∧ row.deviceId = some deviceId)
    ({ s with sessions := s.sessions.keep stays },.ok ())
  | .createSession userId =>
    ({ s with
        sessions := s.sessions.put ⟨s.issued.length,userId,none⟩
        issued := s.issued ++ [userId] },.ok ())
  | .deleteSession id => ({ s with sessions := s.sessions.erase id },.ok ())

def exec (m : Moment) (s : Db) (r : Request) : Db × r.Ans :=
  match m.fate with
  | .answered => execute m s r
  | .refused => (s,.error .unavailable)
  | .lost => ((execute m s r).1,.error .unavailable)

def system : System Request.Ans Thrown Reply Job Moment Db := ⟨code,fun _ => exec⟩

abbrev Accounts := World Request.Ans Thrown Reply Job Db

def fresh : Accounts := World.init emptyDb

end WeirdVault.Devices
