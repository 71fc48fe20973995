import WeirdVault.Billing.Mirror

/-!
# Subscriptions of a deleted account

A deletion cancels the subscription that its row names. What a checkout was completed with may not
have come into the row.
-/

namespace WeirdVault.Billing

open WeirdVault.Framework Program

def bought (s : Store) (userId id : String) : Bool :=
  s.sessions.any fun session => session.userId = userId ∧ session.subscription = some id

def charges (s : Store) (id : String) : Bool := (s.subscriptions.get? id).any (·.live)

/-- After the deletion of the account nothing charges that a checkout of the user was completed
with before it. -/
def NoCharge (users : List String) (userId : String) (as : List (Act Job Moment)) : Prop :=
  ∀ before a rest, as = before ++ a :: rest →
    userId ∈ (system.after (fresh users) before).shared.users →
    userId ∉ (system.act (system.after (fresh users) before) a).shared.users →
    ∀ id, bought (system.after (fresh users) before).shared userId id →
      charges (system.after (fresh users) as).shared id = false

/-- The row has everything cancelled that checkouts of the user were completed with and that
charges. -/
def covered (s : Store) (userId : String) : Bool :=
  s.sessions.all fun session => session.userId ≠ userId ∨
    session.subscription.all fun id =>
      !charges s id ∨ (s.subscription.get? userId).bind Row.toCancel = some id

def Job.deletes? : Job → Option String
  | .deleteUser _ userId => some userId
  | _ => none

def deleting (w : Server) (userId : String) : Bool :=
  (List.range w.threads.length).any fun i =>
    (w.asks? i).isSome ∧ (w.threads[i]?.bind (·.job.deletes?)) = some userId ∧
      w.log.any (·.thread = i)

/-- A deletion reads a row that covers everything, and no checkout is completed until it has
ended. -/
def heedsDeletion (userId : String) (w : Server) : Act Job Moment → Bool
  | .start _ => true
  | .step i m =>
    match w.threads[i]? with
    | some ⟨job,.ask (.subscriptionFor owner) _⟩ =>
      m.fate ≠ .answered ∨ owner ≠ userId ∨ job.deletes? ≠ some userId ∨ covered w.shared userId
    | some ⟨_,.ask (.complete n _) _⟩ =>
      m.fate = .died false ∨ w.shared.sessions[n]?.all (·.userId ≠ userId) ∨ !deleting w userId
    | _ => true

def Lasting (s t : Store) : Prop :=
  ∀ id, (s.subscriptions.get? id).isSome → (t.subscriptions.get? id).isSome ∧
    (charges s id = false → charges t id = false)

private theorem Lasting.refl (s : Store) : Lasting s s := fun _ h => ⟨h,id⟩

private theorem Lasting.of_same {s t : Store} (h : t.subscriptions = s.subscriptions) :
    Lasting s t := by
  intro id hid
  simp only [charges,h]
  exact ⟨hid,fun hno => hno⟩

private theorem Lasting.trans {s t u : Store} (h : Lasting s t) (h' : Lasting t u) :
    Lasting s u := by
  intro id hid
  obtain ⟨ht,hno⟩ := h id hid
  obtain ⟨hu,hno'⟩ := h' id ht
  exact ⟨hu,fun hs => hno' (hno hs)⟩

private theorem Lasting.put {s t : Store} {subscription : Subscription}
    (h : t.subscriptions = s.subscriptions.put subscription)
    (hput : charges s subscription.id = false → (s.subscriptions.get? subscription.id).isSome →
      subscription.live = false) : Lasting s t := by
  intro id hid
  by_cases hsame : subscription.id = id
  · subst hsame
    simp only [charges,h,Table.get?_put_self,Option.isSome_some,true_and,Option.any_some]
    exact fun hno => hput hno hid
  · simp only [charges,h,Table.get?_put_of_ne _ hsame]
    exact ⟨hid,fun hno => hno⟩

private theorem lasting_execute (m : Moment) (s : Store) (r : Request) :
    Lasting s (execute m s r).1 := by
  cases r with
  | claimEvent id type =>
    rw [execute]
    split
    · exact .refl s
    · exact .of_same rfl
  | upsertSubscription row =>
    rw [execute]
    split
    · exact .of_same rfl
    · exact .refl s
  | insertSubscription row =>
    rw [execute]
    split
    · exact .refl s
    · split
      · exact .of_same rfl
      · exact .refl s
  | retrieve id granting =>
    rw [execute]
    split
    · exact .refl s
    · exact .refl s
  | cancel id =>
    rw [execute]
    split
    · exact .put rfl fun _ _ => rfl
    · exact .refl s
  | complete n subscription =>
    rw [execute]
    split
    · split
      · exact .refl s
      · rename_i session _ hnew
        refine .put rfl ?_
        intro _ hsome
        exact absurd (Or.inr hsome) hnew
    · exact .refl s
  | change subscription =>
    rw [execute]
    split
    · exact .refl s
    · rename_i hlive
      refine .put rfl ?_
      intro hno hsome
      obtain ⟨old,hold⟩ := Option.isSome_iff_exists.mp hsome
      rw [charges,hold,Option.any_some] at hno
      rw [hold,Option.any_some,hno] at hlive
      exact absurd rfl hlive
  | _ => exact .of_same rfl

private theorem lasting_exec (m : Moment) (s : Store) (r : Request) : Lasting s (exec m s r).1 := by
  rcases exec_cases m s r with ⟨_,hsame,_⟩ | ⟨_,hexec,_⟩
  · rw [hsame]
    exact .refl s
  · rw [hexec]
    exact lasting_execute m s r

private theorem cancel_stops {m : Moment} {s : Store} {id : String} {x : Except Thrown Unit}
    (h : (exec m s (.cancel id)).2 = x) (hx : x = .ok () ∨ x = .error .missing) :
    charges (exec m s (.cancel id)).1 id = false := by
  rw [exec] at h ⊢
  split at h
  · subst h
    rcases hx with hx | hx
    · cases hx
    · cases hx
  · rename_i hdied
    rw [if_neg hdied]
    split at h
    · subst h
      rcases hx with hx | hx
      · cases hx
      · cases hx
    · rename_i hrefused
      rw [if_neg hrefused]
      cases hget : (s.subscriptions.get? id).filter (·.live) with
      | none =>
        have hno : charges s id = false := by
          rw [charges]
          cases hsub : s.subscriptions.get? id with
          | none => rfl
          | some subscription =>
            rw [hsub] at hget
            simpa using hget
        simpa only [execute,hget] using hno
      | some subscription =>
        have hid : subscription.id = id := by
          have hsome := (Option.filter_eq_some_iff.mp hget).1
          exact Table.key_of_get? hsome
        subst hid
        simp only [execute,hget,charges,Table.get?_put_self]
        rfl

private theorem lasting_after (w : Server) (as : List (Act Job Moment)) :
    Lasting w.shared (system.after w as).shared := by
  refine invariant_runActs (fun v : Server => Lasting w.shared v.shared) ?_ (.refl _)
    (along_true system.act w as)
  intro v a hv _
  cases a with
  | start job => exact hv
  | step i m =>
    rcases system.act_step_cases v i m with hact | ⟨job,r,next,_,hact⟩
    · rw [hact]
      exact hv
    · rw [hact]
      exact hv.trans (lasting_exec m v.shared r)

private theorem bought_exec {m : Moment} {s : Store} {r : Request} {userId id : String}
    (h : bought (exec m s r).1 userId id) : bought s userId id ∨
      ((exec m s r).1.subscriptions.get? id).isSome ∧ m.fate ≠ .died false ∧
      ∃ n subscription session, r = .complete n subscription ∧ s.sessions[n]? = some session ∧
        session.userId = userId := by
  by_cases hdied : m.fate = .died false
  · rw [exec,if_pos hdied] at h
    exact Or.inl h
  · rcases exec_cases m s r with ⟨_,hsame,_⟩ | ⟨_,hexec,_⟩
    · rw [hsame] at h
      exact Or.inl h
    · rw [hexec] at h ⊢
      cases r with
      | createSession customer owner =>
        rw [execute,bought,List.any_append] at h
        left
        simpa [bought] using h
      | complete n subscription =>
        rw [execute] at h ⊢
        split at h
        · rename_i session hsession
          split at h
          · exact Or.inl h
          · rename_i hnew
            rw [if_neg hnew]
            obtain ⟨one,hone,hthis⟩ := List.any_eq_true.mp h
            rcases List.mem_or_eq_of_mem_set hone with hold | rfl
            · exact Or.inl (List.any_eq_true.mpr ⟨one,hold,hthis⟩)
            · obtain ⟨howner,hid⟩ := of_decide_eq_true hthis
              obtain rfl := Option.some.inj hid
              refine Or.inr ⟨?_,hdied,n,subscription,session,rfl,hsession,howner⟩
              have hbegin : (session.begin subscription).id = subscription.id := rfl
              rw [← hbegin,Table.get?_put_self]
              rfl
        · exact Or.inl h
      | claimEvent id type =>
        rw [execute] at h
        split at h
        · exact Or.inl h
        · exact Or.inl h
      | upsertSubscription row =>
        rw [execute] at h
        split at h
        · exact Or.inl h
        · exact Or.inl h
      | insertSubscription row =>
        rw [execute] at h
        split at h
        · exact Or.inl h
        · split at h
          · exact Or.inl h
          · exact Or.inl h
      | retrieve id granting =>
        rw [execute] at h
        split at h
        · exact Or.inl h
        · exact Or.inl h
      | cancel id =>
        rw [execute] at h
        split at h
        · exact Or.inl h
        · exact Or.inl h
      | change subscription =>
        rw [execute] at h
        split at h
        · exact Or.inl h
        · exact Or.inl h
      | _ => exact Or.inl h

def first (job : Job) (k : Heard) : Request → Prop
  | .subscriptionFor _ => job.deletes? = none ∨ k = []
  | _ => True

private theorem asks_all {α : Type} {may : Heard → Request → Prop} (h : ∀ k r, may k r) {k : Heard}
    (p : Handler α) : Asks may (fun _ _ => True) k p := by
  induction p generalizing k with
  | done a => trivial
  | fail e => trivial
  | ask r next ih => exact (asks_ask r next).mpr ⟨h k r,fun x => ih x⟩

private theorem asks_deletion (env : Env) (userId : String) :
    Asks (first (.deleteUser env userId)) (fun _ _ => True) [] (deleteUser env userId) := by
  have hcancel : Asks (first (.deleteUser env userId)) (fun _ _ => True) []
      (cancelSubscriptionForDeletion env userId) := by
    refine asks_call_bind (Or.inr rfl) ?_ (fun _ => trivial)
    intro row
    split
    · trivial
    · rename_i id _
      refine Asks.handle (fun _ _ => True) ?_ (fun _ _ _ => trivial) ?_
      · cases env.secretKey with
        | false => trivial
        | true => exact asks_call_bind trivial (fun _ => trivial) (fun _ => trivial)
      · intro l e _
        cases e <;> trivial
  have hbefore : Asks (first (.deleteUser env userId)) (fun _ _ => True) []
      (beforeDelete env userId) := by
    refine Asks.handle (fun _ _ => True) ?_ (fun _ _ _ => trivial) ?_
    · exact hcancel.bind (fun _ _ _ => trivial) (fun _ _ _ => trivial)
    · intro l e _
      cases e <;> trivial
  apply hbefore.bind
  · intro l refusal _
    cases refusal with
    | some reply => trivial
    | none => exact asks_call_bind trivial (fun _ => trivial) (fun _ => trivial)
  · intro l e _
    trivial

def readsFirst : Behaviour system where
  may := first
  post := fun _ _ _ => True
  code := by
    intro job
    cases job with
    | deleteUser env userId => exact asks_deletion env userId
    | _ =>
      apply asks_all
      intro k r
      cases r <;> first | trivial | exact Or.inl rfl

/-- What was bought is at Stripe, and of what a deletion has to have cancelled the row tells it. -/
structure Covers (userId : String) (w : Server) : Prop where
  held : ∀ owner id, bought w.shared owner id → (w.shared.subscriptions.get? id).isSome
  cover : ∀ i env r next row, w.threads[i]? = some ⟨.deleteUser env userId,.ask r next⟩ →
    Said w.log i (.subscriptionFor userId) (.ok row) → ∀ id, bought w.shared userId id →
      charges w.shared id = false ∨ row.bind Row.toCancel = some id ∧
        ¬ Said w.log i (.cancel id) (.ok ()) ∧ ¬ Said w.log i (.cancel id) (.error .missing)

private theorem deleting_of_said {w : Server} {userId : String} {i : ℕ} {env : Env} {r : Request}
    {next : r.Ans → Handler Reply} {r' : Request} {x : r'.Ans}
    (hi : w.threads[i]? = some ⟨.deleteUser env userId,.ask r next⟩) (hsaid : Said w.log i r' x) :
    deleting w userId := by
  obtain ⟨job,hmem⟩ := mem_transcript.mp hsaid
  have hlt := (List.getElem?_eq_some_iff.mp hi).1
  apply List.any_eq_true.mpr
  refine ⟨i,List.mem_range.mpr hlt,decide_eq_true ⟨?_,?_,?_⟩⟩
  · rw [World.asks?,hi]
    rfl
  · rw [hi]
    rfl
  · exact List.any_eq_true.mpr ⟨_,hmem,decide_eq_true rfl⟩

private theorem answered_of_ok {m : Moment} {s : Store} {userId : String} {row : Option Row}
    (h : (exec m s (.subscriptionFor userId)).2 = .ok row) : m.fate = .answered := by
  obtain ⟨fate,now,pick,url⟩ := m
  cases fate with
  | answered => rfl
  | refused => cases h
  | lost => cases h
  | died b =>
    cases b with
    | false => cases h
    | true => cases h

private theorem exec_read (m : Moment) (s : Store) (userId : String) :
    (exec m s (.subscriptionFor userId)).1 = s := by
  rcases exec_cases m s (.subscriptionFor userId) with ⟨_,hsame,_⟩ | ⟨_,hexec,_⟩
  · exact hsame
  · exact hexec

private theorem covers_answered {w : Server} {userId : String} {j : ℕ} {job : Job} {m : Moment}
    {r' : Request} {next' : r'.Ans → Handler Reply} (h : Covers userId w)
    (hreads : readsFirst.Follows w) (hj : w.threads[j]? = some ⟨job,.ask r' next'⟩)
    (hok : heedsDeletion userId w (.step j m)) :
    Covers userId (system.answered w j job m r' next') := by
  have hlasting := lasting_exec m w.shared r'
  have hlt : j < w.threads.length := (List.getElem?_eq_some_iff.mp hj).1
  have hfirst := readsFirst.may_of_follows hreads hj
  have hstore : (system.answered w j job m r' next').shared = (exec m w.shared r').1 := rfl
  constructor
  · intro owner id hbought
    rw [hstore] at hbought ⊢
    rcases bought_exec hbought with hold | ⟨hsome,_⟩
    · exact (hlasting id (h.held owner id hold)).1
    · exact hsome
  intro i env r next row hi hsaid id hbought
  rw [hstore] at hbought ⊢
  have hcompleted : ∀ {r₀ : Request} {next₀ : r₀.Ans → Handler Reply},
      w.threads[i]? = some ⟨.deleteUser env userId,.ask r₀ next₀⟩ →
      Said w.log i (.subscriptionFor userId) (.ok row) → bought w.shared userId id := by
    intro r₀ next₀ hi₀ hsaid₀
    have hdeleting := deleting_of_said hi₀ hsaid₀
    rcases bought_exec hbought with hold | ⟨_,hdied,n,subscription,session,rfl,hsession,howner⟩
    · exact hold
    · simp only [heedsDeletion,hj,hsession,Option.all_some,howner,hdeleting,decide_eq_true_eq] at hok
      simp [hdied] at hok
  by_cases hij : j = i
  · subst hij
    simp only [System.answered,List.getElem?_set_self hlt,Option.some.injEq] at hi
    have hjob : job = .deleteUser env userId := congrArg Thread.job hi
    subst hjob
    rw [Said,System.answered,transcript_cons_self] at hsaid
    simp only [Said,System.answered,transcript_cons_self]
    rcases List.mem_cons.mp hsaid with hnew | hold
    · obtain ⟨hr,hx⟩ := Sigma.mk.inj hnew
      subst hr
      have hrow : (exec m w.shared (.subscriptionFor userId)).2 = .ok row := (eq_of_heq hx).symm
      have hfate := answered_of_ok hrow
      have hread := subscriptionFor_ok m w.shared hrow
      rw [exec_read] at hbought ⊢
      have hempty : transcript w.log j = [] := by
        rcases hfirst with hnone | hempty
        · cases hnone
        · exact hempty
      have hcovered : covered w.shared userId := by
        simp only [heedsDeletion,hj,hfate] at hok
        simpa [Job.deletes?] using hok
      obtain ⟨session,hsession,hthis⟩ := List.any_eq_true.mp hbought
      obtain ⟨howner,hid⟩ := of_decide_eq_true hthis
      have hcover := of_decide_eq_true (List.all_eq_true.mp hcovered session hsession)
      rcases hcover with hother | hcover
      · exact absurd howner hother
      · rw [hid,Option.all_some] at hcover
        rcases of_decide_eq_true hcover with hno | hcancel
        · left
          simpa using hno
        · right
          rw [hread,hempty]
          refine ⟨hcancel,?_,?_⟩
          · intro hsaid'
            have := congrArg Sigma.fst (List.mem_singleton.mp hsaid')
            cases this
          · intro hsaid'
            have := congrArg Sigma.fst (List.mem_singleton.mp hsaid')
            cases this
    · have hb := hcompleted hj hold
      rcases h.cover j env r' next' row hj hold id hb with hno | ⟨hcancel,hdone,hmissing⟩
      · exact Or.inl ((hlasting id (h.held userId id hb)).2 hno)
      · by_cases hr : r' = .cancel id
        · subst hr
          by_cases hx : (exec m w.shared (.cancel id)).2 = .ok () ∨
              (exec m w.shared (.cancel id)).2 = .error .missing
          · exact Or.inl (cancel_stops rfl hx)
          · refine Or.inr ⟨hcancel,?_,?_⟩
            · intro hsaid'
              rcases List.mem_cons.mp hsaid' with hnew | hold'
              · exact hx (Or.inl (eq_of_heq (Sigma.mk.inj hnew).2).symm)
              · exact hdone hold'
            · intro hsaid'
              rcases List.mem_cons.mp hsaid' with hnew | hold'
              · exact hx (Or.inr (eq_of_heq (Sigma.mk.inj hnew).2).symm)
              · exact hmissing hold'
        · refine Or.inr ⟨hcancel,?_,?_⟩
          · intro hsaid'
            rcases List.mem_cons.mp hsaid' with hnew | hold'
            · exact hr (congrArg Sigma.fst hnew).symm
            · exact hdone hold'
          · intro hsaid'
            rcases List.mem_cons.mp hsaid' with hnew | hold'
            · exact hr (congrArg Sigma.fst hnew).symm
            · exact hmissing hold'
  · have hsame : transcript (system.answered w j job m r' next').log i = transcript w.log i :=
      transcript_cons_of_ne w.log hij
    simp only [System.answered,List.getElem?_set_ne hij] at hi
    rw [Said,hsame] at hsaid
    simp only [Said,hsame]
    have hb := hcompleted hi hsaid
    rcases h.cover i env r next row hi hsaid id hb with hno | hright
    · exact Or.inl ((hlasting id (h.held userId id hb)).2 hno)
    · exact Or.inr hright

private theorem covers_after {users : List String} {userId : String} {as : List (Act Job Moment)}
    (h : Along system.act (fun w a => heedsDeletion userId w a) (fresh users) as) :
    Covers userId (system.after (fresh users) as) := by
  refine (invariant_runActs (fun w : Server => readsFirst.Follows w ∧ Covers userId w) ?_
    ⟨readsFirst.follows_init (emptyStore users),?_⟩ h).2
  · intro w a hw hok
    obtain ⟨hfollows,hcovers⟩ := hw
    refine ⟨readsFirst.follows_act hfollows a,?_⟩
    cases a with
    | start job =>
      refine ⟨hcovers.held,?_⟩
      intro i env r next row hi hsaid
      have hlt : i < w.threads.length := by
        obtain ⟨job',hmem⟩ := mem_transcript.mp hsaid
        exact hfollows.below _ hmem
      rw [system.act_start,List.getElem?_append_left hlt] at hi
      exact hcovers.cover i env r next row hi hsaid
    | step j m =>
      rcases system.act_step_cases w j m with hact | ⟨job,r,next,hj,hact⟩
      · rw [hact]
        exact hcovers
      · rw [hact]
        exact covers_answered hcovers hfollows hj hok
  · refine ⟨?_,?_⟩
    · intro owner id hbought
      cases hbought
    · intro i env r next row hi
      cases hi

private theorem deletes_of_gone {w : Server} {userId : String} {a : Act Job Moment}
    (hw : behaviour.Follows w) (hin : userId ∈ w.shared.users)
    (hout : userId ∉ (system.act w a).shared.users) :
    ∃ i env next row, w.threads[i]? = some ⟨.deleteUser env userId,.ask (.deleteUser userId) next⟩ ∧
      Said w.log i (.subscriptionFor userId) (.ok row) ∧ ∀ id ∈ row.bind Row.toCancel,
        Said w.log i (.cancel id) (.ok ()) ∨ Said w.log i (.cancel id) (.error .missing) := by
  cases a with
  | start job => exact absurd hin hout
  | step i m =>
    rcases system.act_step_cases w i m with hact | ⟨job,r,next,hi,hact⟩
    · rw [hact] at hout
      exact absurd hin hout
    · rw [hact] at hout
      have hmay : may job (transcript w.log i) r := behaviour.may_of_follows hw hi
      rcases rows_exec m w.shared r with ⟨hsame,_⟩ | ⟨_,_,_,_,hsame,_⟩ | ⟨_,_,_,_,hsame,_⟩ |
        ⟨owner,rfl,hgone,_⟩
      · exact absurd (hsame ▸ hin) hout
      · exact absurd (hsame ▸ hin) hout
      · exact absurd (hsame ▸ hin) hout
      · have howner : userId = owner := by
          by_contra hother
          apply hout
          have hmem : userId ∈ w.shared.users.filter (· ≠ owner) :=
            List.mem_filter.mpr ⟨hin,decide_eq_true hother⟩
          exact hgone ▸ hmem
        subst howner
        obtain ⟨env,row,rfl,hread,hcancelled⟩ := hmay
        exact ⟨i,env,next,row,hi,hread,hcancelled⟩

/-- In every run in which deletions read rows that tell everything, and no checkout is completed
meanwhile, a deleted account leaves nothing that charges. -/
theorem charges_end {users : List String} {userId : String} {as : List (Act Job Moment)}
    (h : Along system.act (fun w a => heedsDeletion userId w a) (fresh users) as) :
    NoCharge users userId as := by
  intro before a rest he hin hout id hbought
  subst he
  have hbefore := ((along_append system.act _ (fresh users) before (a :: rest)).mp h).1
  have hcovers := covers_after hbefore
  obtain ⟨i,env,next,row,hi,hread,hcancelled⟩ :=
    deletes_of_gone (follows_run users before) hin hout
  have hno : charges (system.after (fresh users) before).shared id = false := by
    rcases hcovers.cover i env _ next row hi hread id hbought with hno | ⟨hcancel,hdone,hmissing⟩
    · exact hno
    · rcases hcancelled id hcancel with hsaid | hsaid
      · exact absurd hsaid hdone
      · exact absurd hsaid hmissing
  rw [system.after_append]
  exact ((lasting_after _ (a :: rest)) id (hcovers.held userId id hbought)).2 hno

private def paidFor : List (Act Job Moment) :=
  .start (.checkout configured (some "owner")) :: calmly 0 10 ++
  .start (.complete 0 (paidBy "owner" "active")) :: calmly 1 1

private def told : List (Act Job Moment) :=
  .start (deliver ⟨"create",10,.subscriptionCreated (paidBy "owner" "active")⟩) :: calmly 2 8

/-- A checkout, its webhook, and then the deletion. -/
theorem charges_end_told : NoCharge ["owner"] "owner"
    (paidFor ++ told ++ .start (.deleteUser configured "owner") :: calmly 3 3) :=
  charges_end (by decide +kernel)

/-- The webhook of the checkout has not come when the account is deleted. -/
theorem untold_charges : ¬ ∀ (users : List String) (userId : String) (as : List (Act Job Moment)),
    NoCharge users userId as := by
  intro hall
  have hno := hall ["owner"] "owner" _
    (paidFor ++ .start (.deleteUser configured "owner") :: calmly 2 1) (.step 2 calm) [] rfl
    (by decide +kernel) (by decide +kernel) "sub" (by decide +kernel)
  exact absurd hno (by decide +kernel)

end WeirdVault.Billing
