import WeirdVault.Audit.Events
import WeirdVault.Framework.JsonText
import WeirdVault.Framework.Sums

/-!
# What the control plane records

The checks of `usage.ts` and `POST` of `relay/usage/route.ts`. A text column of the database holds
no zero, and its large integers end at `2^63`; a statement that would break either changes nothing
and throws.
-/

namespace WeirdVault.Relay.Ingest

open WeirdVault.Framework
open WeirdVault.Audit (AuditSource)

def MAX_AUDIT_INT : ℚ := 10^12

def MAX_EVENTS_PER_BATCH : Nat := 500

def MAX_BYTES_PER_ENTRY : ℚ := 1000000000000000

def MAX_ENTRIES_PER_BATCH : Nat := 500

def MAX_SAFE_INTEGER : ℚ := 9007199254740991

def isCount : Option Json → Bool
  | some (.number (.finite q)) => q.den == 1 && 0 ≤ q && q < MAX_AUDIT_INT
  | _ => false

def isPort : Option Json → Bool
  | some (.number (.finite q)) => q.den == 1 && 1 ≤ q && q ≤ 65535
  | _ => false

def isShort (max : Nat) : Option Json → Bool
  | some (.string s) => !s.isEmpty && s.length ≤ max
  | _ => false

def isKind (kind : String) : Option Json → Bool
  | some (.string s) => s == utf16 kind
  | _ => false

def isBytes : Option Json → Bool
  | some (.number (.finite q)) =>
    q.den == 1 && |q| ≤ MAX_SAFE_INTEGER && 0 ≤ q && q ≤ MAX_BYTES_PER_ENTRY
  | _ => false

def property (e : Json) (name : String) : Option Json := e.get? (utf16 name)

def isRelayConnectionEvent (e : Json) : Bool :=
  e.isObject &&
  (isKind "connection.opened" (property e "kind") ||
    isKind "connection.closed" (property e "kind")) &&
  isShort 128 (property e "subject") &&
  isPort (property e "port") &&
  ((property e "targetRef").isNone || isShort 64 (property e "targetRef")) &&
  (!isKind "connection.closed" (property e "kind") ||
    isCount (property e "bytesUp") && isCount (property e "bytesDown") &&
      isCount (property e "durationMs"))

def isRelayUsageEntry (e : Json) : Bool :=
  e.isObject && isShort 256 (property e "subject") && isBytes (property e "bytesUp") &&
    isBytes (property e "bytesDown")

def isAnonymousSubject (subject : JsString) : Bool := (utf16 "anon:").isPrefixOf subject

structure AuditRow where
  userId : JsString
  eventType : JsString
  source : AuditSource
  targetRef : Option JsString
  ipPrefix : Option JsString
  metadata : Members

structure UsageRow where
  userId : JsString
  period : JsString
  bytesUp : Nat
  bytesDown : Nat
  deriving DecidableEq

def UsageRow.key (r : UsageRow) : JsString × JsString := (r.userId,r.period)

structure Database where
  users : List JsString
  auditEvent : List AuditRow
  relayUsage : Table UsageRow.key

def storable (s : JsString) : Bool := !s.contains 0

namespace Database

variable (db : Database)

/-- The ids among these; a text that no column holds is no parameter of a query either. -/
def selectUsers (ids : List JsString) : Option (List JsString) :=
  if ids.all storable then some (db.users.filter (ids.contains ·)) else none

def insertEvents (rows : List AuditRow) : Option Database :=
  if rows.all (fun r => r.targetRef.all storable) then
    some { db with auditEvent := db.auditEvent ++ rows } else none

end Database

/-- What a row of these amounts leaves where there was one, or none. -/
def UsageRow.onto (r : UsageRow) : Option UsageRow → UsageRow
  | none => r
  | some old =>
    { old with bytesUp := old.bytesUp+r.bytesUp, bytesDown := old.bytesDown+r.bytesDown }

def upsertRow (t : Table UsageRow.key) (r : UsageRow) : Option (Table UsageRow.key) :=
  let row := r.onto (t.get? r.key)
  if row.bytesUp < 2^63 ∧ row.bytesDown < 2^63 then some (t.put row) else none

/-- `onConflictDoUpdate` of all rows, or of none. -/
def upsert (t : Table UsageRow.key) (rows : List UsageRow) : Option (Table UsageRow.key) :=
  rows.foldlM upsertRow t

inductive Response
  | error (status : Nat) (text : String)
  | events (recorded dropped : Nat)
  | usage (period : JsString) (recorded anonymous unknownSubjects malformed : Nat)
  deriving DecidableEq

structure Request where
  authorization : Option Text
  body : Text

def authorised (secret : Option Text) (r : Request) : Bool :=
  match secret with
  | none => false
  | some secret =>
    if secret = [] then false
    else
      let header := r.authorization.getD []
      let presented := if "Bearer ".toList.isPrefixOf header then header.drop 7 else []
      presented == secret

def textOf : Option Json → JsString
  | some (.string s) => s
  | _ => []

def amountOf : Option Json → ℚ
  | some (.number (.finite q)) => q
  | _ => 0

def subjectOf (e : Json) : JsString := textOf (property e "subject")

def metadataField (e : Json) (name : String) : Members :=
  (property e name).toList.map fun v => (utf16 name,v)

def auditRow (e : Json) : AuditRow where
  userId := subjectOf e
  eventType := textOf (property e "kind")
  source := .relay
  targetRef := (property e "targetRef").map fun v => textOf (some v)
  ipPrefix := none
  metadata :=
    if isKind "connection.opened" (property e "kind") then metadataField e "port"
    else metadataField e "bytesUp" ++ metadataField e "bytesDown" ++ metadataField e "durationMs"

def Database.known (db : Database) (subjects : List JsString) : Option (List JsString) :=
  if subjects = [] then some [] else db.selectUsers subjects

def tooMany (max : Nat) (what : String) : Response :=
  .error 413 ("at most " ++ toString max ++ " " ++ what ++ " per batch")

def recordConnectionEvents (events : List Json) (db : Database) : Option Response × Database :=
  if MAX_EVENTS_PER_BATCH < events.length then (some (tooMany MAX_EVENTS_PER_BATCH "events"),db)
  else
    let valid := events.filter isRelayConnectionEvent
    let named := valid.filter fun e => !isAnonymousSubject (subjectOf e)
    match db.known (named.map subjectOf).dedup with
    | none => (none,db)
    | some known =>
      let rows := (named.filter fun e => known.contains (subjectOf e)).map auditRow
      match if rows = [] then some db else db.insertEvents rows with
      | none => (none,db)
      | some db' => (some (.events rows.length (events.length-rows.length)),db')

structure Total where
  subject : JsString
  bytesUp : ℚ
  bytesDown : ℚ

abbrev Totals := Table Total.subject

/-- The sums are those of doubles. -/
def addEntry (totals : Totals) (e : Json) : Totals :=
  let running := (totals.get? (subjectOf e)).getD ⟨subjectOf e,0,0⟩
  totals.put ⟨subjectOf e,nearest (running.bytesUp+amountOf (property e "bytesUp")),
    nearest (running.bytesDown+amountOf (property e "bytesDown"))⟩

/-- The row of an account's total; an integer is stored as the integer that it is. -/
def Total.row (t : Total) (period : JsString) : UsageRow :=
  ⟨t.subject,period,t.bytesUp.num.toNat,t.bytesDown.num.toNat⟩

def recordUsage (period : JsString) (entries : List Json) (db : Database) :
    Option Response × Database :=
  if MAX_ENTRIES_PER_BATCH < entries.length then (some (tooMany MAX_ENTRIES_PER_BATCH "entries"),db)
  else
    let valid := entries.filter isRelayUsageEntry
    let named := valid.filter fun e => !isAnonymousSubject (subjectOf e)
    let totals : Totals := named.foldl addEntry (Table.empty _)
    match db.known (totals.rows.map Total.subject) with
    | none => (none,db)
    | some known =>
      let rows := (totals.rows.filter fun t => known.contains t.subject &&
        (0 < t.bytesUp || 0 < t.bytesDown)).map (Total.row · period)
      match upsert db.relayUsage rows with
      | none => (none,db)
      | some usage => (some (.usage period rows.length (valid.length-named.length)
          (totals.rows.length-known.length) (entries.length-valid.length)),
          { db with relayUsage := usage })

/-- `POST` with the period of the server's clock. -/
def POST (secret : Option Text) (period : JsString) (r : Request) (db : Database) :
    Option Response × Database :=
  if !authorised secret r then (some (.error 401 "unauthorized"),db)
  else match Json.parse r.body with
    | none => (some (.error 400 "invalid JSON"),db)
    | some .null => (none,db)
    | some body => match property body "events" with
      | some (.array events) => recordConnectionEvents events db
      | _ => match property body "entries" with
        | some (.array entries) => recordUsage period entries db
        | _ => (some (.error 400 "entries (array) required"),db)

end WeirdVault.Relay.Ingest
