import WeirdVault.Audit.Events
import WeirdVault.Framework.Paging
import WeirdVault.Framework.Table

/-!
# Reading the audit log page by page

`GET /api/audit`, `fetchAuditPage`, `mergePages` and the activity page that follows the cursor.
Postgres keeps microseconds; a `Date` has milliseconds, and so has the cursor, which travels as the
JSON of one.
-/

namespace WeirdVault.Audit

open WeirdVault.Framework

/-- A row of `audit_event`; what is only carried along is `rest`. -/
structure AuditEvent (π : Type) where
  id : String
  userId : Option String
  eventType : JsString
  /-- In microseconds. -/
  createdAt : Nat
  rest : π
  deriving DecidableEq

def toDate (micros : Nat) : Nat := micros / 1000

/-- A `Date` as Postgres compares it. -/
def ofDate (millis : Nat) : Nat := millis * 1000

inductive Tier
  | free
  | pro
  deriving DecidableEq,Repr

def auditRetentionDays : Tier → Nat
  | .free => 30
  | .pro => 365

def DAY_MS : Nat := 24 * 60 * 60 * 1000

def auditRetentionCutoff (tier : Tier) (now : Nat) : Nat := now - auditRetentionDays tier * DAY_MS

def MAX_PAGE : Nat := 200

def DEFAULT_PAGE : Nat := 50

def pageSize : Option ℤ → Nat
  | none => DEFAULT_PAGE
  | some n => if n < 1 then DEFAULT_PAGE else min n.toNat MAX_PAGE

variable {π : Type}

abbrev AuditEvents (π : Type) := Table (AuditEvent.id : AuditEvent π → String)

/-- What a request does not choose: when it is served, what the account pays, and in which order the
database goes through rows. -/
structure Serving (π : Type) where
  now : Nat
  tier : Tier
  order : List (AuditEvent π) → List (AuditEvent π)
  perm : ∀ rows, (order rows).Perm rows

def Serving.cutoff (serving : Serving π) : Nat := auditRetentionCutoff serving.tier serving.now

structure Answer (π : Type) where
  events : List (AuditEvent π)
  nextCursor : Option Nat

/-- The conditions of the query. An unreadable `before` and an unknown `type` are none. -/
def selects (cutoff : Nat) (user : String) (before : Option Nat) (type : Option JsString)
    (row : AuditEvent π) : Bool :=
  row.userId == some user && ofDate cutoff ≤ row.createdAt &&
    before.all (fun cursor => row.createdAt < ofDate cursor) &&
    (type.filter isAuditEventType).all (fun type => row.eventType == type)

def GET (serving : Serving π) (table : AuditEvents π) (user : String)
    (limit : Option ℤ) (before : Option Nat) (type : Option JsString) : Answer π :=
  let limit := pageSize limit
  let rows := ((serving.order (table.rows.filter (selects serving.cutoff user before type))).insertionSort
    (fun a b => b.createdAt ≤ a.createdAt)).take limit
  { events := rows
    nextCursor := if rows.length = limit then rows.getLast?.map (fun row => toDate row.createdAt)
      else none }

def AUDIT_PAGE_SIZE : ℤ := 100

structure AuditRow (π : Type) where
  id : String
  eventType : JsString
  /-- In milliseconds. -/
  at' : Nat
  rest : π

def toRow (event : AuditEvent π) : AuditRow π :=
  ⟨event.id,event.eventType,toDate event.createdAt,event.rest⟩

structure AuditPage (π : Type) where
  rows : List (AuditRow π)
  nextCursor : Option Nat

def fetchAuditPage (serving : Serving π) (table : AuditEvents π) (user : String)
    (before : Option Nat) (limit : Option ℤ) : AuditPage π :=
  let body := GET serving table user (some (limit.getD AUDIT_PAGE_SIZE)) before none
  ⟨body.events.map toRow,body.nextCursor⟩

def mergePages (existing incoming : List (AuditRow π)) : List (AuditRow π) :=
  ((Table.empty AuditRow.id).putAll (existing ++ incoming)).rows.insertionSort
    (fun a b => b.at' ≤ a.at')

variable (serve : Nat → Serving π) (table : AuditEvents π) (user : String)
  (limit : Option ℤ)

/-- As long as there is a cursor; `n` bounds the requests and `i` counts them. -/
def loadOlder : Nat → Nat → Option Nat → List (AuditRow π) → Option (List (AuditRow π))
  | _,_,none,rows => some rows
  | 0,_,some _,_ => none
  | n+1,i,some cursor,rows =>
    let page := fetchAuditPage (serve i) table user (some cursor) limit
    loadOlder n (i+1) page.nextCursor (mergePages rows page.rows)

def readAll (n : Nat) : Option (List (AuditRow π)) :=
  let page := fetchAuditPage (serve 0) table user none limit
  loadOlder serve table user limit n 1 page.nextCursor page.rows

end WeirdVault.Audit
