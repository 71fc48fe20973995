import Mathlib.Data.String.Basic
import WeirdVault.Framework.Calls
import WeirdVault.Framework.Table

/-!
# The subscription mirror and Stripe

The rows that mirror Stripe's subscriptions, the markers of the events that were received, and as
much of Stripe as the routes ask for: what each statement and each request does.
-/

namespace WeirdVault.Billing

open WeirdVault.Framework

inductive Reference where
  | id (id : String)
  | object (id : Option String)
  | null
deriving DecidableEq

def Reference.resolve : Reference → Option String
  | .id x => some x
  | .object x => x
  | .null => none

structure Item where
  currentPeriodEnd : Option ℤ
  price : Option String
deriving DecidableEq

/-- A subscription at Stripe; `userId` is its `metadata.userId`. -/
structure Subscription where
  id : String
  customer : Reference
  status : String
  items : List Item
  cancelAtPeriodEnd : Bool
  userId : Option String
deriving DecidableEq

/-- Times of rows are in milliseconds, those of Stripe in seconds. -/
structure Row where
  userId : String
  stripeCustomerId : String
  stripeSubscriptionId : Option String
  status : String
  stripePriceId : Option String
  currentPeriodEnd : Option ℤ
  cancelAtPeriodEnd : Bool
  lastEventAt : Option ℤ
deriving DecidableEq

/-- A checkout session, with the subscription that it was completed with. -/
structure Session where
  customer : String
  userId : String
  subscription : Option String
deriving DecidableEq

/-- The tables `user`, `subscription` and `stripe_event`, and then Stripe's side. Customers are
counted. -/
structure Store where
  users : List String
  subscription : Table Row.userId
  stripeEvent : List String
  customers : ℕ
  sessions : List Session
  subscriptions : Table Subscription.id

def emptyStore (users : List String) : Store :=
  { users, subscription := .empty _, stripeEvent := [], customers := 0, sessions := []
    subscriptions := .empty _ }

/-- The first two are those of any request; the process that made one that died goes no further. -/
inductive Thrown where
  | refused
  | lost
  | died (executed : Bool)
  | missing
  | foreignKey
  | notConfigured (missing : String)
deriving DecidableEq

inductive Request where
  | claimEvent (id type : String)
  | releaseEvent (id : String)
  | userIdBySubscription (subscriptionId : String)
  | userIdByCustomer (customerId : String)
  | subscriptionFor (userId : String)
  | upsertSubscription (row : Row)
  | insertSubscription (row : Row)
  | deleteUser (userId : String)
  | now
  /-- Marked when it is that of `stillGranting`. -/
  | retrieve (subscriptionId : String) (granting : Bool)
  | createCustomer (userId : String)
  | listSubscriptions (customer : String)
  | createSession (customer userId : String)
  | cancel (subscriptionId : String)
  | complete (session : ℕ) (subscription : Subscription)
  | change (subscription : Subscription)
deriving DecidableEq

@[reducible] def Request.Val : Request → Type
  | .claimEvent .. => List String
  | .userIdBySubscription _ => Option String
  | .userIdByCustomer _ => Option String
  | .subscriptionFor _ => Option Row
  | .now => ℤ
  | .retrieve .. => Subscription
  | .createCustomer _ => String
  | .listSubscriptions _ => List Subscription
  | .createSession .. => Bool
  | _ => Unit

@[reducible] def Request.Ans (r : Request) : Type := Except Thrown r.Val

inductive Fate where
  | answered
  | refused
  | lost
  | died (executed : Bool)
deriving DecidableEq

/-- What the environment contributes to a request: its fate, the reading of the clock, which of
several rows a statement without an order returns, and whether a session has a page. -/
structure Moment where
  fate : Fate
  now : ℤ
  pick : ℕ
  url : Bool
deriving DecidableEq

def ended (status : String) : Bool := status = "canceled" ∨ status = "incomplete_expired"

def Subscription.live (subscription : Subscription) : Bool := !ended subscription.status

def firstOf (m : Moment) (rows : List Row) : Option String :=
  rows[m.pick % rows.length]?.map (·.userId)

def Session.begin (session : Session) (subscription : Subscription) : Subscription :=
  { subscription with customer := .id session.customer, userId := some session.userId }

def execute (m : Moment) (s : Store) : (r : Request) → Store × r.Ans
  | .claimEvent id _ =>
    if id ∈ s.stripeEvent then (s,.ok [])
    else ({ s with stripeEvent := id :: s.stripeEvent },.ok [id])
  | .releaseEvent id => ({ s with stripeEvent := s.stripeEvent.filter (· ≠ id) },.ok ())
  | .userIdBySubscription id =>
    (s,.ok (firstOf m (s.subscription.rows.filter (·.stripeSubscriptionId = some id))))
  | .userIdByCustomer id =>
    (s,.ok (firstOf m (s.subscription.rows.filter (·.stripeCustomerId = id))))
  | .subscriptionFor userId => (s,.ok (s.subscription.get? userId))
  | .upsertSubscription row =>
    if row.userId ∈ s.users then ({ s with subscription := s.subscription.put row },.ok ())
    else (s,.error .foreignKey)
  | .insertSubscription row =>
    if (s.subscription.get? row.userId).isSome then (s,.ok ())
    else if row.userId ∈ s.users then ({ s with subscription := s.subscription.put row },.ok ())
    else (s,.error .foreignKey)
  | .deleteUser userId =>
    ({ s with
        users := s.users.filter (· ≠ userId)
        subscription := s.subscription.erase userId },.ok ())
  | .now => (s,.ok m.now)
  | .retrieve id _ =>
    match s.subscriptions.get? id with
    | some subscription => (s,.ok subscription)
    | none => (s,.error .missing)
  | .createCustomer _ =>
    ({ s with customers := s.customers + 1 },.ok ("cus_" ++ toString s.customers))
  | .listSubscriptions customer =>
    (s,.ok ((s.subscriptions.rows.reverse.filter
      (·.customer.resolve = some customer)).take 20))
  | .createSession customer userId =>
    ({ s with sessions := s.sessions ++ [⟨customer,userId,none⟩] },.ok m.url)
  | .cancel id =>
    match (s.subscriptions.get? id).filter (·.live) with
    | some subscription =>
      ({ s with subscriptions := s.subscriptions.put { subscription with status := "canceled" } },
        .ok ())
    | none => (s,.error .missing)
  | .complete n subscription =>
    match s.sessions[n]? with
    | some session =>
      if session.subscription.isSome ∨ (s.subscriptions.get? subscription.id).isSome then (s,.ok ())
      else
        ({ s with
            sessions := s.sessions.set n { session with subscription := some subscription.id }
            subscriptions := s.subscriptions.put (session.begin subscription) },.ok ())
    | none => (s,.ok ())
  | .change subscription =>
    if (s.subscriptions.get? subscription.id).any (!·.live) then (s,.ok ())
    else ({ s with subscriptions := s.subscriptions.put subscription },.ok ())

/-- What the process asks itself, and what is no request of this server. -/
def Request.certain : Request → Bool
  | .now => true
  | .complete .. => true
  | .change _ => true
  | _ => false

def Fate.hears {α : Type} (certain : Bool) : Fate → Except Thrown α → Except Thrown α
  | .lost,.ok x => if certain then .ok x else .error .lost
  | .died _,.ok _ => .error (.died true)
  | .died _,.error _ => .error (.died false)
  | _,x => x

def exec (m : Moment) (s : Store) (r : Request) : Store × r.Ans :=
  if m.fate = .died false then (s,.error (.died false))
  else if m.fate = .refused ∧ !r.certain then (s,.error .refused)
  else ((execute m s r).1,m.fate.hears r.certain (execute m s r).2)

end WeirdVault.Billing
