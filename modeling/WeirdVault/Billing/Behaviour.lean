import WeirdVault.Billing.Asks

/-!
# What every job asks

What a delivery asks is allowed by what it has heard, and it ends in a report, a throw or a release
according to what has failed.
-/

namespace WeirdVault.Billing

open WeirdVault.Framework Program

variable {job : Job} {k l : Heard} {event : Event} {subscription : Subscription} {α β : Type}

abbrev Later (k l : Heard) : Prop := Grown (fun _ => True) k l

theorem later_cons (k : Heard) (r : Request) (x : r.Ans) : Later k (⟨r,x⟩ :: k) :=
  (Grown.refl k).cons trivial x

theorem Failed.later (h : Failed k) (hl : Later k l) : Failed l := by
  obtain ⟨a,ha,hfails⟩ := h
  exact ⟨a,hl.mem ha,hfails⟩

theorem Claimed.later (h : Claimed k event) (hl : Later k l) : Claimed l event := by
  obtain ⟨ids,hids,hclaim⟩ := h
  exact ⟨ids,hids,hclaim.grown hl⟩

theorem Retrieved.later {reference : Reference} (h : Retrieved k reference subscription)
    (hl : Later k l) : Retrieved l reference subscription := by
  obtain ⟨id,hid,hget⟩ := h
  exact ⟨id,hid,hget.grown hl⟩

theorem Carried.later (h : Carried k event subscription) (hl : Later k l) :
    Carried l event subscription := by
  obtain ⟨id,created,data⟩ := event
  cases data with
  | checkoutSessionCompleted mode reference => exact ⟨h.1,h.2.later hl⟩
  | invoicePaymentFailed parent => exact Retrieved.later h hl
  | _ => exact h

theorem Found.later {userId : Option String} (h : Found k subscription userId) (hl : Later k l) :
    Found l subscription userId := by
  cases h with
  | bySubscription userId h => exact .bySubscription userId (h.grown hl)
  | byCustomer customerId userId hs h =>
    exact .byCustomer customerId userId (hs.grown hl) (h.grown hl)
  | byMetadata hs hc => exact .byMetadata (hs.grown hl) fun c hcustomer => (hc c hcustomer).grown hl

/-- What was heard by then is still heard; a value comes with what `Q` says, and what was thrown
is something that has failed. -/
def Through (k : Heard) (Q : Heard → α → Prop) (l : Heard) (o : Except Thrown α) : Prop :=
  Later k l ∧ match o with
    | .ok a => Q l a
    | .error _ => Failed l

theorem Through.since {Q : Heard → α → Prop} {k' : Heard} {o : Except Thrown α}
    (h : Through k' Q l o) (hk : Later k k') : Through k Q l o := ⟨hk.trans h.1,h.2⟩

theorem through_done {Q : Heard → α → Prop} {a : α} (h : Q k a) :
    Asks (may job) (Through k Q) k (done a) := ⟨.refl k,h⟩

theorem through_bind {Q : Heard → α → Prop} {R : Heard → β → Prop} {p : Handler α}
    {f : α → Handler β} (h : Asks (may job) (Through k Q) k p)
    (hf : ∀ l a, Later k l → Q l a → Asks (may job) (Through l R) l (f a)) :
    Asks (may job) (Through k R) k (p.bind f) := by
  apply h.bind
  · intro l a ha
    exact (hf l a ha.1 ha.2).mono fun _ _ h => h.since ha.1
  · intro l e he
    exact he

theorem through_query {R : Heard → β → Prop} {r : Request} {f : r.Val → Handler β}
    (hr : may job k r) (hloud : ∀ e, fails ⟨r,.error e⟩ = true)
    (hf : ∀ x, Asks (may job) (Through (⟨r,.ok x⟩ :: k) R) (⟨r,.ok x⟩ :: k) (f x)) :
    Asks (may job) (Through k R) k ((query r).bind f) := by
  apply asks_call_bind hr
  · intro x
    exact (hf x).mono fun _ _ h => h.since (later_cons k r _)
  · intro e
    exact ⟨later_cons k r _,_,List.mem_cons_self,hloud e⟩

private theorem asks_catching {mid post : Heard → Except Thrown α → Prop} {p : Handler α}
    {f : Thrown → Handler α} (h : Asks (may job) mid k p) (hok : ∀ l a, mid l (.ok a) → post l (.ok a))
    (hdied : ∀ l b, mid l (.error (.died b)) → post l (.error (.died b)))
    (herr : ∀ l e, mid l (.error e) → (∀ b, e ≠ .died b) → Asks (may job) post l (f e)) :
    Asks (may job) post k (catching p f) := by
  apply Asks.handle mid h hok
  intro l e he
  cases e with
  | died b => exact hdied l b he
  | _ => exact herr l _ he (fun _ hb => by cases hb)

def Checks : Request → Prop
  | .now => True
  | .retrieve _ true => True
  | _ => False

private theorem asks_tierNow {access : Option SubscriptionAccess} :
    Asks (may job) (Through k fun l tier => Grown Checks k l ∧
      ∃ now, l.Has .now (.ok now) ∧ tierForSubscription access now = tier) k (tierNow access) := by
  refine through_query trivial (fun e => by cases e <;> rfl) ?_
  intro now
  exact through_done ⟨(Grown.refl k).cons trivial _,now,Transcript.has_self _ _ _,rfl⟩

private theorem asks_userIdFor :
    Asks (may job) (Through k fun l userId => Found l subscription userId) k
      (userIdFor subscription) := by
  refine through_query trivial (fun e => by cases e <;> rfl) ?_
  intro bySubscription
  cases bySubscription with
  | some userId => exact through_done (.bySubscription userId (Transcript.has_self _ _ _))
  | none =>
    dsimp only
    cases hcustomer : subscription.customer.resolve.filter (· ≠ "") with
    | none =>
      refine through_done (.byMetadata (Transcript.has_self _ _ _) ?_)
      intro customerId h
      rw [hcustomer] at h
      cases h
    | some customerId =>
      refine through_query trivial (fun e => by cases e <;> rfl) ?_
      intro byCustomer
      cases byCustomer with
      | some userId =>
        exact through_done (.byCustomer customerId userId ((Transcript.has_self _ _ _).cons _)
          (Transcript.has_self _ _ _))
      | none =>
        refine through_done (.byMetadata ((Transcript.has_self _ _ _).cons _) ?_)
        intro customerId' h
        rw [hcustomer] at h
        cases h
        exact Transcript.has_self _ _ _

private theorem asks_stillGranting {env : Env} (henv : env.secretKey = true) {current : String} :
    Asks (may job) (Through k fun l granting => Grown Checks k l ∧
      (granting = true → Granting l current)) k (stillGranting env current) := by
  have hclock : ∀ s : Subscription, Asks (may job)
      (Through k fun l granting => Grown Checks k l ∧ (granting = true → Granting l current))
      (⟨.retrieve current true,.ok s⟩ :: k)
      (catching ((tierNow (some s.access)).bind fun tier => done (decide (tier = .pro)))
        fun e => done (decide (e ≠ .missing))) := by
    intro s
    have hgrown : Grown Checks k (⟨.retrieve current true,.ok s⟩ :: k) := (Grown.refl k).cons trivial _
    refine (asks_ask _ _).mpr ⟨trivial,?_⟩
    intro x
    have hgrown' := hgrown.cons (r := .now) trivial x
    cases x with
    | ok now =>
      refine ⟨hgrown'.any,hgrown',?_⟩
      intro htier
      exact .grants s now ((Transcript.has_self _ _ _).cons _) (Transcript.has_self _ _ _)
        (of_decide_eq_true htier)
    | error e =>
      have hunclocked : Granting (⟨.now,.error e⟩ :: ⟨.retrieve current true,.ok s⟩ :: k) current :=
        .unclocked e (Transcript.has_self _ _ _)
      cases e with
      | died b => exact ⟨hgrown'.any,_,List.mem_cons_self,rfl⟩
      | _ => exact ⟨hgrown'.any,hgrown',fun _ => hunclocked⟩
  rw [stillGranting,required,if_pos henv]
  refine (asks_ask _ _).mpr ⟨trivial,?_⟩
  intro x
  cases x with
  | ok s => exact hclock s
  | error e =>
    have hgrown : Grown Checks k (⟨.retrieve current true,.error e⟩ :: k) :=
      (Grown.refl k).cons trivial _
    have hunknown : Granting (⟨.retrieve current true,.error e⟩ :: k) current :=
      .unknown e (Transcript.has_self _ _ _)
    cases e with
    | died b => exact ⟨hgrown.any,_,List.mem_cons_self,rfl⟩
    | _ => exact ⟨hgrown.any,hgrown,fun _ => hunknown⟩

private theorem asks_keepsOther {env : Env} (henv : env.secretKey = true) {existing : Option Row} :
    Asks (may job) (Through k fun l keeps => Grown Checks k l ∧ (keeps = true →
      ∃ row current, existing = some row ∧ OtherGrants l row current subscription)) k
      (keepsOther env existing subscription) := by
  have hno : ∀ l, Grown Checks k l → Asks (may job) (Through l fun l keeps => Grown Checks k l ∧
      (keeps = true → ∃ row current, existing = some row ∧
        OtherGrants l row current subscription)) l (done false) :=
    fun l hl => through_done ⟨hl,fun h => by cases h⟩
  cases existing with
  | none => exact hno k (.refl k)
  | some row =>
    rw [keepsOther]
    cases hcurrent : row.stripeSubscriptionId with
    | none => exact hno k (.refl k)
    | some current =>
      dsimp only
      split
      · exact hno k (.refl k)
      · rename_i hother
        apply through_bind asks_tierNow
        rintro l tier _ ⟨hl,now,hnow,htier⟩
        split
        · exact hno l hl
        · rename_i hpro
          apply through_bind asks_tierNow
          rintro l' tier' hl' ⟨hgrown',now',hnow',htier'⟩
          split
          · exact hno l' (hl.trans hgrown')
          · rename_i hfree
            apply (asks_stillGranting henv).mono
            rintro l'' o ⟨hl'',ho⟩
            refine ⟨hl'',?_⟩
            cases o with
            | error e => exact ho
            | ok keeps =>
              refine ⟨(hl.trans hgrown').trans ho.1,fun hkeeps => ⟨row,current,rfl,hcurrent,hother,
                ⟨now,(hnow.grown hl').grown hl'',htier.trans (not_not.mp hpro)⟩,
                ⟨now',hnow'.grown hl'',fun h => hfree (htier'.symm.trans h)⟩,ho.2 hkeeps⟩⟩

private theorem asks_writeMirror {env : Env} (henv : env.secretKey = true)
    (hjob : job.Delivers event) (hs : Carried k event subscription) {userId customerId : String}
    (hf : Found k subscription (some userId)) :
    Asks (may job) (Through k fun l _ => Dealt l event) k
      (writeMirror env subscription event.at userId customerId) := by
  refine through_query trivial (fun e => by cases e <;> rfl) ?_
  intro existing
  have hread := Transcript.has_self k (.subscriptionFor userId) (.ok existing)
  have hlater := later_cons k (.subscriptionFor userId) (.ok existing)
  split
  · rename_i hstale
    exact through_done (.inr (.stale subscription userId existing (hs.later hlater) hread hstale))
  · rename_i hstale
    apply through_bind (asks_keepsOther henv)
    intro l keeps hl hkeeps
    cases keeps with
    | true =>
      obtain ⟨row,current,rfl,hother⟩ := hkeeps.2 rfl
      exact through_done (.inr (.otherSubscription subscription userId row current
        ((hs.later hlater).later hl) (hread.grown hl) hother))
    | false =>
      have hlatest : Latest l (.subscriptionFor userId) (.ok existing) :=
        (latest_cons_self k _ _).grown hkeeps.1 id
      refine through_query ⟨event,subscription,userId,customerId,existing,hjob,
        (hs.later hlater).later hl,(hf.later hlater).later hl,rfl,hlatest,
        Bool.eq_false_iff.mpr hstale⟩ (fun e => by cases e <;> rfl) ?_
      intro x
      exact through_done (.inl ⟨subscription,userId,customerId,
        ((hs.later hlater).later hl).later (later_cons l _ _),Transcript.has_self _ _ _⟩)

private theorem asks_mirror {env : Env} (henv : env.secretKey = true) (hjob : job.Delivers event)
    (hs : Carried k event subscription) :
    Asks (may job) (Through k fun l _ => Dealt l event) k (mirror env subscription event) := by
  have hmirror : Asks (may job) (Through k fun l _ => Dealt l event) k
      (mirrorSubscription env subscription event.at) := by
    apply through_bind asks_userIdFor
    intro l userId hl hfound
    split
    · rename_i u c huser hcustomer
      have hfilter := Option.filter_eq_some_iff.mp huser
      rw [hfilter.1] at hfound
      exact asks_writeMirror henv hjob (hs.later hl) hfound
    · rename_i hnone
      refine through_done (.inr (.unattributable subscription userId (hs.later hl) hfound ?_))
      cases huser : userId.filter (· ≠ "") with
      | none => exact .inl rfl
      | some u =>
        cases hcustomer : subscription.customer.resolve.filter (· ≠ "") with
        | none => exact .inr rfl
        | some c => exact (hnone u c huser hcustomer).elim
  apply through_bind hmirror
  intro l _ _ hdealt
  exact through_done hdealt

private theorem asks_mirrorNamed {env : Env} (henv : env.secretKey = true)
    (hjob : job.Delivers event) {reference : Reference}
    (hcarried : ∀ l s, Carried l event s ↔ Retrieved l reference s)
    (hunnamed : reference.resolve.filter (· ≠ "") = none → event.Unnamed) :
    Asks (may job) (Through k fun l _ => Dealt l event) k
      (mirrorNamed env reference.resolve event) := by
  unfold mirrorNamed
  split
  · rename_i hnone
    exact through_done (.inr (.unnamed (hunnamed hnone)))
  · rename_i id hid
    refine through_query trivial (fun e => by cases e <;> rfl) ?_
    intro s
    exact asks_mirror henv hjob ((hcarried _ s).mpr ⟨id,hid,Transcript.has_self _ _ _⟩)

private theorem asks_handleEvent {env : Env} (henv : env.secretKey = true)
    (hjob : job.Delivers event) :
    Asks (may job) (Through k fun l _ => Dealt l event) k (handleEvent env event) := by
  have hskip : event.Unnamed →
      Asks (may job) (Through k fun l _ => Dealt l event) k (done ()) :=
    fun h => through_done (.inr (.unnamed h))
  obtain ⟨id,created,data⟩ := event
  rw [handleEvent,required,if_pos henv]
  cases data with
  | checkoutSessionCompleted mode reference =>
    dsimp only [done_bind]
    split
    · rename_i hmode
      exact hskip (.inl hmode)
    · rename_i hmode
      refine asks_mirrorNamed henv hjob ?_ .inr
      intro l s
      exact ⟨And.right,fun h => ⟨not_not.mp hmode,h⟩⟩
  | subscriptionCreated s => exact asks_mirror henv hjob rfl
  | subscriptionUpdated s => exact asks_mirror henv hjob rfl
  | subscriptionDeleted s => exact asks_mirror henv hjob rfl
  | invoicePaymentFailed parent => exact asks_mirrorNamed henv hjob (fun _ _ => .rfl) (fun h => h)
  | other type unhandled => exact hskip trivial

private theorem asks_releaseClaim (hjob : job.Delivers event) (hclaimed : Claimed k event)
    (hfailed : Failed k) : Asks (may job) (ends event) k (releaseClaim event) := by
  refine (asks_ask _ _).mpr ⟨⟨hfailed,event,hjob,rfl,hclaimed⟩,?_⟩
  intro x
  have hfailed' : Failed (⟨.releaseEvent event.id,x⟩ :: k) := hfailed.later (later_cons k _ x)
  cases x with
  | ok _ => exact ⟨by decide,fun _ => hfailed'⟩
  | error e =>
    cases e with
    | died b => exact fun _ => hfailed'
    | _ => exact ⟨by decide,fun _ => hfailed'⟩

private theorem asks_process {env : Env} (henv : env.secretKey = true) (hjob : job.Delivers event)
    (hclaimed : Claimed k event) : Asks (may job) (ends event) k (process env event) := by
  unfold process
  split
  · rename_i hunhandled
    exact hunhandled
  · have hbody : Asks (may job) (Through k fun l reply =>
        reply = Reply.processed event.type ∧ Dealt l event) k
        ((handleEvent env event).bind fun _ => done (.processed event.type)) := by
      apply through_bind (asks_handleEvent henv hjob)
      intro l _ _ hdealt
      exact through_done ⟨rfl,hdealt⟩
    apply asks_catching hbody
    · intro l reply h
      obtain ⟨hl,rfl,hdealt⟩ := h
      exact ⟨hclaimed.later hl,hdealt⟩
    · intro l b h _
      exact h.2
    · intro l e h _
      exact asks_releaseClaim hjob (hclaimed.later h.1) h.2

private theorem asks_receive {env : Env} (henv : env.secretKey = true) (hjob : job.Delivers event) :
    Asks (may job) (ends event) [] (receive env event) := by
  refine (asks_ask _ _).mpr ⟨⟨rfl,event,hjob,rfl,rfl⟩,?_⟩
  intro x
  have hunclaimed : ∀ e, ¬ Claimed [⟨.claimEvent event.id event.type,.error e⟩] event := by
    intro e h
    obtain ⟨ids,_,hclaim⟩ := h
    cases List.mem_singleton.mp hclaim
  cases x with
  | error e =>
    cases e with
    | died b => exact fun h => (hunclaimed _ h).elim
    | _ => exact ⟨by decide,fun h => (hunclaimed _ h).elim⟩
  | ok claimed =>
    cases claimed with
    | nil => exact rfl
    | cons id ids =>
      exact asks_process henv hjob ⟨id :: ids,by simp,Transcript.has_self _ _ _⟩

private theorem asks_webhook (env : Env) (signed : Bool) (event : Event) :
    Asks (may (.webhook env ⟨signed,some event⟩)) (ends event) []
      (webhook env ⟨signed,some event⟩) := by
  have hrefused : ∀ status error, 300 ≤ status →
      Asks (may (.webhook env ⟨signed,some event⟩)) (ends event) [] (done (refuse status error)) := by
    intro status error hstatus
    refine ⟨hstatus,?_⟩
    intro h
    obtain ⟨ids,_,hclaim⟩ := h
    cases hclaim
  unfold webhook
  split
  · exact hrefused _ _ (by decide)
  · split
    · exact hrefused _ _ (by decide)
    · rename_i hkey
      split
      · exact hrefused _ _ (by decide)
      · rename_i hsigned
        simp only [Bool.not_eq_true,Bool.not_eq_false'] at hkey hsigned
        exact asks_receive hkey ⟨env,by rw [hsigned]⟩

private theorem asks_query {r : Request} {f : r.Val → Handler α} (hr : may job k r)
    (hf : ∀ x, Asks (may job) (fun _ _ => True) (⟨r,.ok x⟩ :: k) (f x)) :
    Asks (may job) (fun _ _ => True) k ((query r).bind f) :=
  asks_call_bind hr hf fun _ => trivial

private theorem asks_bind {p : Handler α} {f : α → Handler β}
    (h : Asks (may job) (fun _ _ => True) k p)
    (hf : ∀ l a, Asks (may job) (fun _ _ => True) l (f a)) :
    Asks (may job) (fun _ _ => True) k (p.bind f) :=
  h.bind (fun l a _ => hf l a) fun _ _ _ => trivial

private theorem asks_required {isSet : Bool} {name : String} {f : Unit → Handler α}
    (hf : Asks (may job) (fun _ _ => True) k (f ())) :
    Asks (may job) (fun _ _ => True) k ((required isSet name).bind f) := by
  cases isSet with
  | true => exact hf
  | false => exact trivial

private theorem asks_caught {p : Handler α} {f : Thrown → Handler α}
    (h : Asks (may job) (fun _ _ => True) k p)
    (hf : ∀ l e, Asks (may job) (fun _ _ => True) l (f e)) :
    Asks (may job) (fun _ _ => True) k (catching p f) :=
  asks_catching h (fun _ _ _ => trivial) (fun _ _ _ => trivial) fun l e _ _ => hf l e

private theorem asks_now {access : Option SubscriptionAccess} :
    Asks (may job) (fun _ _ => True) k (tierNow access) := asks_query trivial fun _ => trivial

private theorem asks_anyPro (live : List Subscription) :
    Asks (may job) (fun _ _ => True) k (anyPro live) := by
  induction live generalizing k with
  | nil => exact trivial
  | cons subscription rest ih =>
    apply asks_bind asks_now
    intro l tier
    split
    · exact trivial
    · exact ih

private theorem asks_billingStateFor (userId : String) :
    Asks (may job) (fun _ _ => True) k (billingStateFor userId) := by
  apply asks_caught
  · refine asks_query trivial ?_
    intro row
    exact asks_bind asks_now fun _ _ => trivial
  · intro l e
    exact trivial

private theorem asks_customerIdFor (env : Env) (userId : String) :
    Asks (may job) (fun _ _ => True) k (customerIdFor env userId) := by
  refine asks_query trivial ?_
  intro existing
  cases existing with
  | some row => exact trivial
  | none =>
    apply asks_required
    exact asks_query trivial fun _ => asks_query rfl fun _ => asks_query trivial fun _ => trivial

private theorem asks_createCheckout (env : Env) (userId customer : String) :
    Asks (may job) (fun _ _ => True) k (createCheckout env userId customer) := by
  apply asks_required
  refine asks_query trivial ?_
  intro live
  apply asks_bind (asks_anyPro live)
  intro l existing
  split
  · exact trivial
  · apply asks_required
    refine asks_query trivial ?_
    intro url
    split <;> exact trivial

private theorem asks_checkout (env : Env) (user : Option String) :
    Asks (may job) (fun _ _ => True) k (checkout env user) := by
  cases user with
  | none => exact trivial
  | some userId =>
    apply asks_caught
    · apply asks_bind (asks_billingStateFor userId)
      intro l state
      split
      · exact trivial
      · exact asks_bind (asks_customerIdFor env userId) fun l customer =>
          asks_createCheckout env userId customer
    · intro l e
      cases e <;> exact trivial

def Cleared (k : Heard) (userId : String) : Prop :=
  ∃ row, k.Has (.subscriptionFor userId) (.ok row) ∧ ∀ id ∈ row.bind Row.toCancel,
    k.Has (.cancel id) (.ok ()) ∨ k.Has (.cancel id) (.error .missing)

private theorem asks_cancel (env : Env) (userId : String) :
    Asks (may job) (fun l o => ∀ a, o = .ok a → Cleared l userId) k
      (cancelSubscriptionForDeletion env userId) := by
  refine asks_call_bind trivial ?_ (fun e a h => by cases h)
  intro row
  have hread := Transcript.has_self k (.subscriptionFor userId) (.ok row)
  split
  · rename_i hnone
    intro a _
    refine ⟨row,hread,?_⟩
    intro id hid
    rw [hnone] at hid
    cases hid
  · rename_i subscriptionId hsome
    have hcleared : ∀ x, x = .ok () ∨ x = .error .missing →
        Cleared (⟨.cancel subscriptionId,x⟩ :: ⟨.subscriptionFor userId,.ok row⟩ :: k) userId := by
      intro x hx
      refine ⟨row,hread.cons _,?_⟩
      intro id hid
      rw [hsome] at hid
      cases hid
      rcases hx with rfl | rfl
      · exact .inl (Transcript.has_self _ _ _)
      · exact .inr (Transcript.has_self _ _ _)
    cases hkey : env.secretKey with
    | false => exact fun a h => by cases h
    | true =>
      refine (asks_ask _ _).mpr ⟨trivial,?_⟩
      intro x
      cases x with
      | ok u => exact fun _ _ => hcleared _ (.inl rfl)
      | error e =>
        cases e with
        | missing => exact fun _ _ => hcleared _ (.inr rfl)
        | _ => exact fun a h => by cases h

private theorem asks_beforeDelete (env : Env) (userId : String) :
    Asks (may job) (fun l o => o = .ok none → Cleared l userId) k (beforeDelete env userId) := by
  have hbody : Asks (may job) (fun l (o : Except Thrown (Option Reply)) =>
      o = .ok none → Cleared l userId) k
      ((cancelSubscriptionForDeletion env userId).bind fun _ => done none) := by
    apply (asks_cancel env userId).bind_any
    · intro l a h _
      exact h
    · intro l e h
      cases h
  apply asks_catching hbody
  · intro l a h
    exact h
  · intro l b h
    exact h
  · intro l e _ _
    cases e <;> exact fun h => by cases h

private theorem asks_deleteUser (env : Env) (userId : String) :
    Asks (may (.deleteUser env userId)) (fun _ _ => True) k (deleteUser env userId) := by
  apply (asks_beforeDelete env userId).bind
  · intro l refusal h
    cases refusal with
    | some reply => exact trivial
    | none =>
      obtain ⟨row,hread,hcancelled⟩ := h rfl
      exact asks_query ⟨env,row,rfl,hread,hcancelled⟩ fun _ => trivial
  · intro l e _
    exact trivial

def post (job : Job) (k : Heard) (o : Except Thrown Reply) : Prop :=
  ∀ event, job.Delivers event → ends event k o

def behaviour : Behaviour system where
  may := may
  post := post
  code := by
    intro job
    have hother : ∀ {job : Job} {p : Handler Reply}, (∀ event, ¬ job.Delivers event) →
        Asks (may job) (fun _ _ => True) [] p → Asks (may job) (post job) [] p :=
      fun hno h => h.mono fun _ _ _ event he => (hno event he).elim
    cases job with
    | webhook env delivery =>
      obtain ⟨signed,event⟩ := delivery
      cases event with
      | none =>
        apply hother
        · intro event h
          obtain ⟨_,h⟩ := h
          cases h
        · change Asks _ _ _ (webhook env ⟨signed,none⟩)
          unfold webhook
          repeat' split
          all_goals trivial
      | some event =>
        apply (asks_webhook env signed event).mono
        intro l o h event' he
        obtain ⟨_,he⟩ := he
        cases he
        exact h
    | checkout env user =>
      exact hother (fun event h => by obtain ⟨_,h⟩ := h; cases h) (asks_checkout env user)
    | deleteUser env userId =>
      exact hother (fun event h => by obtain ⟨_,h⟩ := h; cases h) (asks_deleteUser env userId)
    | complete n subscription =>
      exact hother (fun event h => by obtain ⟨_,h⟩ := h; cases h) (asks_query trivial fun _ => trivial)
    | change subscription =>
      exact hother (fun event h => by obtain ⟨_,h⟩ := h; cases h) (asks_query trivial fun _ => trivial)

theorem follows_run (users : List String) (as : List (Act Job Moment)) :
    behaviour.Follows (system.after (fresh users) as) :=
  behaviour.follows_after (behaviour.follows_init (emptyStore users)) as

end WeirdVault.Billing
