import WeirdVault.Billing.Store

/-!
# The routes of billing

Stripe's webhook, starting a checkout, and the cancellation that comes before an account is deleted,
cut at every request that they send to the database and to Stripe.
-/

namespace WeirdVault.Billing

open WeirdVault.Framework

abbrev Handler (α : Type) := Program Request.Ans Thrown α

abbrev query (r : Request) : Handler r.Val := Program.call r

/-- `try … catch`; a process that died catches nothing. -/
def catching {α : Type} (p : Handler α) (f : Thrown → Handler α) : Handler α :=
  p.handle fun
    | .died executed => .fail (.died executed)
    | e => f e

structure Env where
  secretKey : Bool
  pricePro : Bool
  webhookSecret : Bool
deriving DecidableEq

def STRIPE_SECRET_ENV : String := "STRIPE_SECRET_KEY"

def STRIPE_PRICE_ENV : String := "STRIPE_PRICE_PRO"

def STRIPE_WEBHOOK_ENV : String := "STRIPE_WEBHOOK_SECRET"

def required (isSet : Bool) (name : String) : Handler Unit :=
  if isSet then .done () else .fail (.notConfigured name)

inductive Tier where
  | free
  | pro
deriving DecidableEq

structure SubscriptionAccess where
  status : String
  currentPeriodEnd : Option ℤ
  cancelAtPeriodEnd : Bool
deriving DecidableEq

def GRANTS_OUTRIGHT : List String := ["active","trialing"]

def GRANTS_WHILE_RETRYING : List String := ["past_due","unpaid"]

def tierForSubscription (sub : Option SubscriptionAccess) (now : ℤ) : Tier :=
  match sub with
  | none => .free
  | some sub =>
    if sub.status ∈ GRANTS_OUTRIGHT then .pro
    else if sub.status ∈ GRANTS_WHILE_RETRYING then
      if ∀ periodEnd ∈ sub.currentPeriodEnd, now < periodEnd then .pro else .free
    else if sub.status = "canceled" then
      if sub.cancelAtPeriodEnd ∧ ∃ periodEnd ∈ sub.currentPeriodEnd, now < periodEnd then .pro
      else .free
    else .free

def tierNow (sub : Option SubscriptionAccess) : Handler Tier :=
  (query .now).bind fun now => .done (tierForSubscription sub now)

def Row.access (row : Row) : SubscriptionAccess :=
  ⟨row.status,row.currentPeriodEnd,row.cancelAtPeriodEnd⟩

def periodEndOf (subscription : Subscription) : Option ℤ :=
  (subscription.items.foldl (fun latest item =>
    match latest,item.currentPeriodEnd with
    | latest,none => latest
    | none,some periodEnd => some periodEnd
    | some latest,some periodEnd => some (max latest periodEnd)) none).map (· * 1000)

def Subscription.access (subscription : Subscription) : SubscriptionAccess :=
  ⟨subscription.status,periodEndOf subscription,subscription.cancelAtPeriodEnd⟩

def priceIdOf (subscription : Subscription) : Option String :=
  subscription.items.head?.bind (·.price)

inductive MirrorSkip where
  | unattributable
  | staleEvent
  | otherSubscription
deriving DecidableEq

structure MirrorOutcome where
  userId : Option String
  skipped : Option MirrorSkip
deriving DecidableEq

def metadataUserId (subscription : Subscription) : Option String :=
  subscription.userId.filter (· ≠ "")

def userIdFor (subscription : Subscription) : Handler (Option String) :=
  (query (.userIdBySubscription subscription.id)).bind fun
    | some userId => .done (some userId)
    | none =>
      match subscription.customer.resolve.filter (· ≠ "") with
      | some customerId =>
        (query (.userIdByCustomer customerId)).bind fun byCustomer =>
          .done (byCustomer <|> metadataUserId subscription)
      | none => .done (metadataUserId subscription)

def stillGranting (env : Env) (subscriptionId : String) : Handler Bool :=
  catching
    ((required env.secretKey STRIPE_SECRET_ENV).bind fun _ =>
      (query (.retrieve subscriptionId true)).bind fun current =>
        (tierNow (some current.access)).bind fun tier => .done (tier = .pro))
    fun e => .done (e ≠ .missing)

def keepsOther (env : Env) (existing : Option Row) (subscription : Subscription) : Handler Bool :=
  match existing with
  | none => .done false
  | some existing =>
    match existing.stripeSubscriptionId with
    | none => .done false
    | some current =>
      if current = subscription.id then .done false
      else
        (tierNow (some existing.access)).bind fun tier =>
          if tier ≠ .pro then .done false
          else
            (tierNow (some subscription.access)).bind fun tier =>
              if tier = .pro then .done false else stillGranting env current

def mirrored (userId customerId : String) (subscription : Subscription) (eventAt : ℤ) : Row :=
  { userId, stripeCustomerId := customerId, stripeSubscriptionId := some subscription.id
    status := subscription.status, stripePriceId := priceIdOf subscription
    currentPeriodEnd := periodEndOf subscription
    cancelAtPeriodEnd := subscription.cancelAtPeriodEnd, lastEventAt := some eventAt }

/-- `sameSubscription && existing?.lastEventAt && eventAt < existing.lastEventAt` -/
def stale (existing : Option Row) (subscription : Subscription) (eventAt : ℤ) : Bool :=
  existing.any fun row => row.stripeSubscriptionId = some subscription.id ∧
    ∃ lastEventAt ∈ row.lastEventAt, eventAt < lastEventAt

def writeMirror (env : Env) (subscription : Subscription) (eventAt : ℤ)
    (userId customerId : String) : Handler MirrorOutcome :=
  (query (.subscriptionFor userId)).bind fun existing =>
    if stale existing subscription eventAt then .done ⟨some userId,some .staleEvent⟩
    else
      (keepsOther env existing subscription).bind fun keeps =>
        if keeps then .done ⟨some userId,some .otherSubscription⟩
        else
          (query (.upsertSubscription (mirrored userId customerId subscription eventAt))).bind
            fun _ => .done ⟨some userId,none⟩

def mirrorSubscription (env : Env) (subscription : Subscription) (eventAt : ℤ) :
    Handler MirrorOutcome :=
  (userIdFor subscription).bind fun userId =>
    match userId.filter (· ≠ ""),subscription.customer.resolve.filter (· ≠ "") with
    | some userId,some customerId => writeMirror env subscription eventAt userId customerId
    | _,_ => .done ⟨none,some .unattributable⟩

def HANDLED : List String :=
  ["checkout.session.completed","customer.subscription.created","customer.subscription.updated",
    "customer.subscription.deleted","invoice.payment_failed"]

inductive EventData where
  | checkoutSessionCompleted (mode : String) (subscription : Reference)
  | subscriptionCreated (subscription : Subscription)
  | subscriptionUpdated (subscription : Subscription)
  | subscriptionDeleted (subscription : Subscription)
  | invoicePaymentFailed (parent : Reference)
  | other (type : String) (unhandled : type ∉ HANDLED)
deriving DecidableEq

structure Event where
  id : String
  created : ℤ
  data : EventData
deriving DecidableEq

def Event.type (event : Event) : String :=
  match event.data with
  | .checkoutSessionCompleted .. => "checkout.session.completed"
  | .subscriptionCreated _ => "customer.subscription.created"
  | .subscriptionUpdated _ => "customer.subscription.updated"
  | .subscriptionDeleted _ => "customer.subscription.deleted"
  | .invoicePaymentFailed _ => "invoice.payment_failed"
  | .other type _ => type

def Event.at (event : Event) : ℤ := event.created * 1000

inductive Reply where
  | refused (status : ℕ) (error : String) (code : Option String)
  | deduplicated
  | ignored (type : String)
  | processed (type : String)
  | url
  | deleted
  | quiet
deriving DecidableEq

def Reply.status : Reply → ℕ
  | .refused status _ _ => status
  | _ => 200

def refuse (status : ℕ) (error : String) : Reply := .refused status error none

def notConfiguredText (missing : String) : String :=
  "Billing is not configured on this deployment: " ++ missing ++ " is not set. " ++
    "Nothing was charged and nothing was changed."

/-- The three skips are told to the log and not to Stripe. -/
def mirror (env : Env) (subscription : Subscription) (event : Event) : Handler Unit :=
  (mirrorSubscription env subscription event.at).bind fun _ => .done ()

/-- What names no subscription is left alone; what names one is asked of Stripe. -/
def mirrorNamed (env : Env) (subscriptionId : Option String) (event : Event) : Handler Unit :=
  match subscriptionId.filter (· ≠ "") with
  | none => .done ()
  | some subscriptionId =>
    (query (.retrieve subscriptionId false)).bind fun subscription => mirror env subscription event

def handleEvent (env : Env) (event : Event) : Handler Unit :=
  (required env.secretKey STRIPE_SECRET_ENV).bind fun _ =>
    match event.data with
    | .checkoutSessionCompleted mode subscription =>
      if mode ≠ "subscription" then .done () else mirrorNamed env subscription.resolve event
    | .subscriptionCreated subscription => mirror env subscription event
    | .subscriptionUpdated subscription => mirror env subscription event
    | .subscriptionDeleted subscription => mirror env subscription event
    | .invoicePaymentFailed parent => mirrorNamed env parent.resolve event
    | .other .. => .done ()

/-- The claim is released, and whether that succeeds is only logged. -/
def releaseClaim (event : Event) : Handler Reply :=
  (catching (query (.releaseEvent event.id)) fun _ => .done ()).bind fun _ =>
    .done (refuse 500 "processing failed")

def process (env : Env) (event : Event) : Handler Reply :=
  if event.type ∉ HANDLED then .done (.ignored event.type)
  else
    catching ((handleEvent env event).bind fun _ => .done (.processed event.type))
      fun _ => releaseClaim event

def receive (env : Env) (event : Event) : Handler Reply :=
  (catching ((query (.claimEvent event.id event.type)).bind fun claimed => .done (some claimed))
    fun _ => .done none).bind fun
    | none => .done (refuse 500 "could not record event")
    | some [] => .done .deduplicated
    | some (_ :: _) => process env event

/-- A request as it arrives: whether it has a signature, and the event if the signature is good. -/
structure Delivery where
  signed : Bool
  event : Option Event
deriving DecidableEq

def webhook (env : Env) (delivery : Delivery) : Handler Reply :=
  if !env.webhookSecret then .done (refuse 503 (notConfiguredText STRIPE_WEBHOOK_ENV))
  else if !env.secretKey then .done (refuse 503 (notConfiguredText STRIPE_SECRET_ENV))
  else if !delivery.signed then .done (refuse 400 "missing stripe-signature")
  else
    match delivery.event with
    | none => .done (refuse 400 "signature verification failed")
    | some event => receive env event

structure BillingState where
  tier : Tier
  status : Option String
  currentPeriodEnd : Option ℤ
  cancelAtPeriodEnd : Bool
  hasCustomer : Bool
  degraded : Bool
deriving DecidableEq

def billingStateFor (userId : String) : Handler BillingState :=
  catching
    ((query (.subscriptionFor userId)).bind fun row =>
      (tierNow (row.map (·.access))).bind fun tier => .done
        { tier, status := row.map (·.status)
          currentPeriodEnd := row.bind (·.currentPeriodEnd)
          cancelAtPeriodEnd := row.any (·.cancelAtPeriodEnd)
          hasCustomer := row.isSome, degraded := false })
    fun _ => .done
      { tier := .pro, status := none, currentPeriodEnd := none, cancelAtPeriodEnd := false
        hasCustomer := false, degraded := true }

def NO_SUBSCRIPTION : String := "none"

def customerRow (userId customer : String) : Row :=
  { userId, stripeCustomerId := customer, stripeSubscriptionId := none, status := NO_SUBSCRIPTION
    stripePriceId := none, currentPeriodEnd := none, cancelAtPeriodEnd := false
    lastEventAt := none }

def customerIdFor (env : Env) (userId : String) : Handler String :=
  (query (.subscriptionFor userId)).bind fun
    | some existing => .done existing.stripeCustomerId
    | none =>
      (required env.secretKey STRIPE_SECRET_ENV).bind fun _ =>
        (query (.createCustomer userId)).bind fun customer =>
          (query (.insertSubscription (customerRow userId customer))).bind fun _ =>
            (query (.subscriptionFor userId)).bind fun settled =>
              .done ((settled.map (·.stripeCustomerId)).getD customer)

def anyPro : List Subscription → Handler Bool
  | [] => .done false
  | subscription :: rest =>
    (tierNow (some subscription.access)).bind fun tier =>
      if tier = .pro then .done true else anyPro rest

def alreadySubscribed : Reply :=
  .refused 409 ("This account is already on Pro. Manage the subscription from the billing portal " ++
    "rather than starting a second one.") (some "already-subscribed")

def createCheckout (env : Env) (userId customer : String) : Handler Reply :=
  (required env.secretKey STRIPE_SECRET_ENV).bind fun _ =>
    (query (.listSubscriptions customer)).bind fun live =>
      (anyPro live).bind fun existing =>
        if existing then .done alreadySubscribed
        else
          (required env.pricePro STRIPE_PRICE_ENV).bind fun _ =>
            (query (.createSession customer userId)).bind fun url =>
              if url then .done .url
              else .done (refuse 502
                "Stripe created a checkout session with no URL to send you to.")

def startCheckout (env : Env) (userId : String) : Handler Reply :=
  (billingStateFor userId).bind fun state =>
    if state.tier = .pro ∧ !state.degraded then .done alreadySubscribed
    else (customerIdFor env userId).bind fun customer => createCheckout env userId customer

def checkout (env : Env) (user : Option String) : Handler Reply :=
  match user with
  | none => .done (refuse 401 "unauthorized")
  | some userId =>
    catching (startCheckout env userId) fun
      | .notConfigured missing =>
        .done (.refused 503 (notConfiguredText missing) (some "billing-not-configured"))
      | _ => .done (refuse 502
          ("Stripe would not start a checkout. Nothing was charged. If this persists, check that " ++
            STRIPE_PRICE_ENV ++ " names a live recurring price."))

def TERMINAL_STATUSES : List String := [NO_SUBSCRIPTION,"canceled","incomplete_expired"]

def Row.toCancel (row : Row) : Option String :=
  if row.status ∈ TERMINAL_STATUSES then none else row.stripeSubscriptionId.filter (· ≠ "")

def cancelSubscriptionForDeletion (env : Env) (userId : String) : Handler (Option String) :=
  (query (.subscriptionFor userId)).bind fun row =>
    match row.bind Row.toCancel with
    | none => .done none
    | some subscriptionId =>
      catching
        ((required env.secretKey STRIPE_SECRET_ENV).bind fun _ =>
          (query (.cancel subscriptionId)).bind fun _ => .done (some subscriptionId))
        fun e => if e = .missing then .done none else .fail e

def beforeDelete (env : Env) (userId : String) : Handler (Option Reply) :=
  catching ((cancelSubscriptionForDeletion env userId).bind fun _ => .done none) fun
    | .notConfigured _ => .done (some (refuse 503
        ("This account has a subscription and this deployment is not configured to cancel it, " ++
          "so the account was not deleted — deleting it would leave the subscription charging " ++
          "with no way to reach it. The operator has to set the Stripe variables, or cancel it " ++
          "in the Stripe dashboard, first.")))
    | _ => .done (some (refuse 503
        ("Your subscription could not be cancelled at Stripe, so the account was not deleted — " ++
          "deleting it now would leave the subscription charging with no way to reach it. " ++
          "Nothing was changed. Try again, or cancel in the billing portal first.")))

/-- The deletion of an account, as far as billing goes. -/
def deleteUser (env : Env) (userId : String) : Handler Reply :=
  (beforeDelete env userId).bind fun
    | some refusal => .done refusal
    | none => (query (.deleteUser userId)).bind fun _ => .done .deleted

inductive Job where
  | webhook (env : Env) (delivery : Delivery)
  | checkout (env : Env) (user : Option String)
  | deleteUser (env : Env) (userId : String)
  | complete (session : ℕ) (subscription : Subscription)
  | change (subscription : Subscription)
deriving DecidableEq

def code : Job → Handler Reply
  | .webhook env delivery => webhook env delivery
  | .checkout env user => checkout env user
  | .deleteUser env userId => deleteUser env userId
  | .complete session subscription =>
    (query (.complete session subscription)).bind fun _ => .done .quiet
  | .change subscription => (query (.change subscription)).bind fun _ => .done .quiet

def system : System Request.Ans Thrown Reply Job Moment Store := ⟨code,fun _ => exec⟩

abbrev Server := World Request.Ans Thrown Reply Job Store

def fresh (users : List String) : Server := World.init (emptyStore users)

abbrev Log := List (Entry Request.Ans Job)

end WeirdVault.Billing
