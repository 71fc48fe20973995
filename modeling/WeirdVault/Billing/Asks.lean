import WeirdVault.Billing.Routes

/-! # What the routes have heard when they ask -/

namespace WeirdVault.Billing

open WeirdVault.Framework Program

abbrev Heard := Transcript Request.Ans

def Job.Delivers (job : Job) (event : Event) : Prop := ∃ env, job = .webhook env ⟨true,some event⟩

/-- An answer that is thrown on; what `stillGranting` asks of Stripe may fail. -/
def fails : (r : Request) × r.Ans → Bool
  | ⟨_,.ok _⟩ => false
  | ⟨_,.error (.died _)⟩ => true
  | ⟨.retrieve _ true,.error _⟩ => false
  | ⟨_,.error _⟩ => true

def Failed (k : Heard) : Prop := ∃ a ∈ k, fails a = true

def Claimed (k : Heard) (event : Event) : Prop :=
  ∃ ids, ids ≠ [] ∧ k.Has (.claimEvent event.id event.type) (.ok ids)

def Retrieved (k : Heard) (reference : Reference) (subscription : Subscription) : Prop :=
  ∃ id, reference.resolve.filter (· ≠ "") = some id ∧ k.Has (.retrieve id false) (.ok subscription)

def Carried (k : Heard) (event : Event) (subscription : Subscription) : Prop :=
  match event.data with
  | .checkoutSessionCompleted mode reference =>
    mode = "subscription" ∧ Retrieved k reference subscription
  | .subscriptionCreated object => object = subscription
  | .subscriptionUpdated object => object = subscription
  | .subscriptionDeleted object => object = subscription
  | .invoicePaymentFailed parent => Retrieved k parent subscription
  | .other .. => False

inductive Found (k : Heard) (subscription : Subscription) : Option String → Prop
  | bySubscription (userId : String)
      (h : k.Has (.userIdBySubscription subscription.id) (.ok (some userId))) :
      Found k subscription (some userId)
  | byCustomer (customerId userId : String)
      (hs : k.Has (.userIdBySubscription subscription.id) (.ok none))
      (h : k.Has (.userIdByCustomer customerId) (.ok (some userId))) :
      Found k subscription (some userId)
  | byMetadata (hs : k.Has (.userIdBySubscription subscription.id) (.ok none))
      (hc : ∀ customerId, subscription.customer.resolve.filter (· ≠ "") = some customerId →
        k.Has (.userIdByCustomer customerId) (.ok none)) :
      Found k subscription (metadataUserId subscription)

inductive Granting (k : Heard) (subscriptionId : String) : Prop
  | grants (current : Subscription) (now : ℤ)
      (h : k.Has (.retrieve subscriptionId true) (.ok current)) (hn : k.Has .now (.ok now))
      (htier : tierForSubscription (some current.access) now = .pro)
  | unknown (e : Thrown) (h : k.Has (.retrieve subscriptionId true) (.error e))
  | unclocked (e : Thrown) (h : k.Has .now (.error e))

structure OtherGrants (k : Heard) (row : Row) (current : String) (subscription : Subscription) :
    Prop where
  carried : row.stripeSubscriptionId = some current
  other : current ≠ subscription.id
  pro : ∃ now, k.Has .now (.ok now) ∧ tierForSubscription (some row.access) now = .pro
  free : ∃ now, k.Has .now (.ok now) ∧ tierForSubscription (some subscription.access) now ≠ .pro
  granting : Granting k current

/-- There is no subscription to mirror: the event names none, or is no event of one. -/
def Event.Unnamed (event : Event) : Prop :=
  match event.data with
  | .checkoutSessionCompleted mode reference =>
    mode ≠ "subscription" ∨ reference.resolve.filter (· ≠ "") = none
  | .invoicePaymentFailed parent => parent.resolve.filter (· ≠ "") = none
  | .other .. => True
  | _ => False

/-- Nothing was to be written. -/
inductive Skipped (k : Heard) (event : Event) : Prop
  | unnamed (h : event.Unnamed)
  | unattributable (subscription : Subscription) (userId : Option String)
      (hs : Carried k event subscription) (hf : Found k subscription userId)
      (h : userId.filter (· ≠ "") = none ∨ subscription.customer.resolve.filter (· ≠ "") = none)
  | stale (subscription : Subscription) (userId : String) (existing : Option Row)
      (hs : Carried k event subscription) (hread : k.Has (.subscriptionFor userId) (.ok existing))
      (h : stale existing subscription event.at = true)
  | otherSubscription (subscription : Subscription) (userId : String) (row : Row) (current : String)
      (hs : Carried k event subscription) (hread : k.Has (.subscriptionFor userId) (.ok (some row)))
      (h : OtherGrants k row current subscription)

def Dealt (k : Heard) (event : Event) : Prop :=
  (∃ subscription userId customerId, Carried k event subscription ∧
    k.Has (.upsertSubscription (mirrored userId customerId subscription event.at)) (.ok ())) ∨
  Skipped k event

/-- What a delivery writes is the row of its event, and not stale by the row that it read. -/
def Writes (job : Job) (k : Heard) (row : Row) : Prop :=
  ∃ event subscription userId customerId existing, job.Delivers event ∧
    Carried k event subscription ∧ Found k subscription (some userId) ∧
    row = mirrored userId customerId subscription event.at ∧
    Latest k (.subscriptionFor userId) (.ok existing) ∧
    stale existing subscription event.at = false

def may (job : Job) (k : Heard) : Request → Prop
  | .claimEvent id type => k = [] ∧ ∃ event, job.Delivers event ∧ id = event.id ∧ type = event.type
  | .releaseEvent id => Failed k ∧ ∃ event, job.Delivers event ∧ id = event.id ∧ Claimed k event
  | .upsertSubscription row => Writes job k row
  | .insertSubscription row => row.stripeSubscriptionId = none
  | .deleteUser userId => ∃ env row, job = .deleteUser env userId ∧
    k.Has (.subscriptionFor userId) (.ok row) ∧ ∀ id ∈ row.bind Row.toCancel,
      k.Has (.cancel id) (.ok ()) ∨ k.Has (.cancel id) (.error .missing)
  | _ => True

def ends (event : Event) (k : Heard) : Except Thrown Reply → Prop
  | .ok (.processed _) => Claimed k event ∧ Dealt k event
  | .ok .deduplicated => k = [⟨.claimEvent event.id event.type,.ok []⟩]
  | .ok (.ignored _) => event.type ∉ HANDLED
  | .ok (.refused status _ _) => 300 ≤ status ∧ (Claimed k event → Failed k)
  | .ok _ => False
  | .error _ => Claimed k event → Failed k

end WeirdVault.Billing
