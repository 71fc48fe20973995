import Mathlib.Data.List.Chain
import WeirdVault.Billing.Rows

/-!
# The order of events in the mirror

A delivery reads the row, refuses an event that is older than the row's, and otherwise overwrites
whatever row is there by then. Where no delivery is overtaken between the two, the mirror never goes
back in time.
-/

namespace WeirdVault.Billing

open WeirdVault.Framework

def Row.NotNewer (row row' : Row) : Prop :=
  ∀ t ∈ row.lastEventAt, ∃ t' ∈ row'.lastEventAt, t ≤ t'

theorem Row.NotNewer.refl (row : Row) : row.NotNewer row := fun t ht => ⟨t,ht,le_rfl⟩

theorem Row.NotNewer.trans {a b c : Row} (h : a.NotNewer b) (h' : b.NotNewer c) : a.NotNewer c := by
  intro t ht
  obtain ⟨t',ht',hle⟩ := h t ht
  obtain ⟨t'',ht'',hle'⟩ := h' t' ht'
  exact ⟨t'',ht'',hle.trans hle'⟩

def written (userId : String) : Entry Request.Ans Job → Option Row
  | ⟨_,_,.upsertSubscription row,x⟩ => if row.userId = userId ∧ executed x then some row else none
  | _ => none

/-- The rows that deliveries have written for the user, newest first. -/
def applied (log : Log) (userId : String) : List Row := log.filterMap (written userId)

def stretch (log : Log) (userId subscriptionId : String) : List Row :=
  (applied log userId).takeWhile (·.stripeSubscriptionId = some subscriptionId)

def sinceRead (log : Log) (i : ℕ) (userId : String) : Log :=
  log.takeWhile fun e => !(e.thread = i ∧ e.request = .subscriptionFor userId)

/-- The entry has written a newer event about the same subscription. -/
def overtakes (row : Row) (e : Entry Request.Ans Job) : Bool :=
  (written row.userId e).any fun other =>
    other.stripeSubscriptionId = row.stripeSubscriptionId ∧
      ∃ t ∈ row.lastEventAt, ∃ t' ∈ other.lastEventAt, t < t'

/-- A delivery writes only if no newer event about the subscription was written since it read the
row. -/
def inOrder (w : Server) : Act Job Moment → Bool
  | .start _ => true
  | .step i m =>
    match w.asks? i with
    | some (.upsertSubscription row) =>
      m.fate = .refused || m.fate = .died false ||
        !(sinceRead w.log i row.userId).any (overtakes row)
    | _ => true

/-- The row is the last one that was written, or has no subscription yet. -/
def Current : List Row → Option Row → Prop
  | [],row => ∀ r ∈ row, r.stripeSubscriptionId = none
  | last :: _,row => row = some last

/-- Newest first, of one subscription no event is older than the one before it. -/
def Rising (rows : List Row) : Prop :=
  rows.IsChain fun row older => row.stripeSubscriptionId = older.stripeSubscriptionId →
    older.NotNewer row

theorem rising_stretch {rows : List Row} {row : Row} (h : Rising (row :: rows)) {id : String}
    (hrow : row.stripeSubscriptionId = some id) :
    ∀ older ∈ (row :: rows).takeWhile (·.stripeSubscriptionId = some id), older.NotNewer row := by
  induction rows generalizing row with
  | nil =>
    intro older holder
    have hmem := (List.takeWhile_sublist _).subset holder
    rw [List.mem_singleton.mp hmem]
    exact .refl row
  | cons next rows ih =>
    intro older holder
    have hnext := List.isChain_cons_cons.mp h
    rw [List.takeWhile_cons_of_pos (by simpa using hrow)] at holder
    rcases List.mem_cons.mp holder with rfl | holder
    · exact .refl older
    · by_cases hid : next.stripeSubscriptionId = some id
      · exact (ih hnext.2 hid older holder).trans (hnext.1 (hrow.trans hid.symm))
      · rw [List.takeWhile_cons_of_neg (by simpa using hid)] at holder
        cases holder

section

variable {s : Store} {log : Log} {i : ℕ} {job : Job} {m : Moment} {r : Request} {userId : String}

/-- The rows are what deliveries have written, and every row that was read was so. -/
structure Mirrors (s : Store) (log : Log) : Prop where
  owned : ∀ row ∈ s.subscription.rows, row.userId ∈ s.users
  current : ∀ userId ∈ s.users, Current (applied log userId) (s.subscription.get? userId)
  reads : ∀ since i job userId row older,
    log = since ++ ⟨i,job,.subscriptionFor userId,.ok row⟩ :: older → userId ∈ s.users →
      Current (applied older userId) row

theorem applied_cons (log : Log) (e : Entry Request.Ans Job) (userId : String) :
    applied (e :: log) userId = (written userId e).toList ++ applied log userId := by
  simp only [applied,List.filterMap_cons]
  cases written userId e <;> rfl

private theorem written_eq_none (hr : ∀ row, r = .upsertSubscription row →
    executed (exec m s r).2 = false) : written userId ⟨i,job,r,(exec m s r).2⟩ = none := by
  cases r with
  | upsertSubscription row =>
    have hno := hr row rfl
    simp only [written,hno,Bool.false_eq_true,and_false,if_false]
  | _ => rfl

private theorem mirrors_current (h : Mirrors s log)
    (hr : ∀ row, r = .insertSubscription row → row.stripeSubscriptionId = none)
    (huser : userId ∈ (exec m s r).1.users) :
    Current (applied (⟨i,job,r,(exec m s r).2⟩ :: log) userId)
      ((exec m s r).1.subscription.get? userId) := by
  have hold := h.current userId (users_exec m s huser)
  rcases rows_exec m s r with ⟨_,hsame,hno⟩ | ⟨row,rfl,hyes,_,_,hput⟩ | ⟨row,rfl,hnone,_,_,hput⟩ |
    ⟨gone,rfl,husers,herase⟩
  · rw [applied_cons,written_eq_none hno,hsame]
    exact hold
  · rw [applied_cons,hput,Table.get?_put]
    by_cases hu : row.userId = userId
    · simp only [written,hu,hyes,and_self,if_true]
      rfl
    · simp only [written,hu,false_and,if_false]
      exact hold
  · rw [applied_cons,written_eq_none (fun _ he => by cases he),hput,Table.get?_put]
    by_cases hu : row.userId = userId
    · rw [hu] at hnone
      rw [hnone] at hold
      cases happlied : applied log userId with
      | nil =>
        rw [if_pos hu]
        intro new hnew
        rw [← Option.some.inj hnew]
        exact hr row rfl
      | cons last rest =>
        rw [happlied] at hold
        cases hold
    · rw [if_neg hu]
      exact hold
  · rw [applied_cons,written_eq_none (fun _ he => by cases he),herase,Table.get?_erase]
    rw [husers] at huser
    have hne := (List.mem_filter.mp huser).2
    rw [if_neg (by intro he; simp [he] at hne)]
    exact hold

private theorem mirrors_owned (h : Mirrors s log) :
    ∀ row ∈ (exec m s r).1.subscription.rows, row.userId ∈ (exec m s r).1.users := by
  intro row hrow
  rcases rows_exec m s r with ⟨husers,hsame,_⟩ | ⟨new,_,_,huser,husers,hput⟩ |
    ⟨new,_,_,huser,husers,hput⟩ | ⟨gone,_,husers,herase⟩
  · rw [hsame] at hrow
    rw [husers]
    exact h.owned row hrow
  · rw [hput] at hrow
    rw [husers]
    rcases Table.mem_rows_put hrow with rfl | hrow
    · exact huser
    · exact h.owned row hrow
  · rw [hput] at hrow
    rw [husers]
    rcases Table.mem_rows_put hrow with rfl | hrow
    · exact huser
    · exact h.owned row hrow
  · rw [herase] at hrow
    obtain ⟨hrow,hne⟩ := Table.mem_rows_erase.mp hrow
    rw [husers]
    exact List.mem_filter.mpr ⟨h.owned row hrow,by simpa using hne⟩

private theorem mirrors_reads (h : Mirrors s log) {since older : Log} {j : ℕ} {job' : Job}
    {row : Option Row}
    (hlog : (⟨i,job,r,(exec m s r).2⟩ :: log : Log) =
      since ++ ⟨j,job',.subscriptionFor userId,.ok row⟩ :: older)
    (huser : userId ∈ (exec m s r).1.users) : Current (applied older userId) row := by
  cases since with
  | nil =>
    obtain ⟨hentry,rfl⟩ := List.cons.inj hlog
    injection hentry with _ _ hr hx
    subst hr
    rw [subscriptionFor_ok m s (eq_of_heq hx)]
    exact h.current userId (users_exec m s huser)
  | cons e since =>
    exact h.reads since j job' userId row older (List.cons.inj hlog).2 (users_exec m s huser)

theorem mirrors_step (h : Mirrors s log)
    (hr : ∀ row, r = .insertSubscription row → row.stripeSubscriptionId = none) :
    Mirrors (exec m s r).1 (⟨i,job,r,(exec m s r).2⟩ :: log) where
  owned := mirrors_owned h
  current := fun _ huser => mirrors_current h hr huser
  reads := fun _ _ _ _ _ _ hlog huser => mirrors_reads h hlog huser

theorem mirrors_empty (users : List String) : Mirrors (emptyStore users) [] := by
  refine ⟨?_,?_,?_⟩
  · intro row hrow
    cases hrow
  · intro userId _ row hrow
    cases hrow
  · intro since i job userId row older hlog
    cases since <;> cases hlog

private theorem read_of_latest {x : Request} {a : x.Ans} (h : Latest (transcript log i) x a) :
    ∃ since job older, log = since ++ ⟨i,job,x,a⟩ :: older ∧
      ∀ e ∈ since, ¬ (e.thread = i ∧ e.request = x) := by
  induction log with
  | nil =>
    obtain ⟨newer,older,hlog,_⟩ := h
    cases newer <;> cases hlog
  | cons e log ih =>
    obtain ⟨j,job,r,y⟩ := e
    by_cases hj : j = i
    · subst hj
      rw [transcript_cons_self] at h
      by_cases hr : r = x
      · subst hr
        rw [latest_cons_self_iff.mp h]
        exact ⟨[],job,log,rfl,fun e he => by cases he⟩
      · obtain ⟨since,job',older,hlog,hsince⟩ := ih ((latest_cons_of_ne hr y).mp h)
        refine ⟨⟨j,job,r,y⟩ :: since,job',older,by rw [hlog]; rfl,?_⟩
        intro e he
        rcases List.mem_cons.mp he with rfl | he
        · exact fun h => hr h.2
        · exact hsince e he
    · rw [transcript_cons_of_ne log hj] at h
      obtain ⟨since,job',older,hlog,hsince⟩ := ih h
      refine ⟨⟨j,job,r,y⟩ :: since,job',older,by rw [hlog]; rfl,?_⟩
      intro e he
      rcases List.mem_cons.mp he with rfl | he
      · exact fun h => hj h.1
      · exact hsince e he

private theorem notNewer_of_inOrder (h : Mirrors s log) {row current : Row}
    (hwrites : Writes job (transcript log i) row)
    (horder : (sinceRead log i row.userId).any (overtakes row) = false)
    (hget : s.subscription.get? row.userId = some current)
    (hsame : current.stripeSubscriptionId = row.stripeSubscriptionId) : current.NotNewer row := by
  obtain ⟨event,subscription,userId,customerId,existing,_,_,_,rfl,hlatest,hstale⟩ := hwrites
  obtain ⟨since,job',older,hlog,hsince⟩ := read_of_latest hlatest
  have huser : userId ∈ s.users := by
    have howned := h.owned current (Table.mem_of_get? hget)
    rwa [Table.key_of_get? hget] at howned
  have hread : Current (applied older userId) existing :=
    h.reads since i job' userId existing older hlog huser
  have hnow : Current (applied log userId) (some current) := hget ▸ h.current userId huser
  have hsplit : applied log userId = applied since userId ++ applied older userId := by
    rw [hlog,applied,List.filterMap_append,List.filterMap_cons]
    rfl
  rw [hsplit] at hnow
  cases hwritten : applied since userId with
  | cons last rest =>
    -- the row was written since, and not by a newer event
    rw [hwritten] at hnow
    obtain rfl := Option.some.inj hnow
    have hmem : current ∈ applied since userId := hwritten ▸ List.mem_cons_self
    obtain ⟨e,he,hwrote⟩ := List.mem_filterMap.mp hmem
    have hsinceRead : e ∈ sinceRead log i userId := by
      rw [hlog,sinceRead,List.takeWhile_append_of_pos]
      · exact List.mem_append_left _ he
      · intro e' he'
        rw [Bool.not_eq_true',decide_eq_false_iff_not]
        exact hsince e' he'
    intro t ht
    refine ⟨event.at,rfl,?_⟩
    by_contra hlt
    have hover : overtakes (mirrored userId customerId subscription event.at) e = true := by
      rw [overtakes,show written (mirrored userId customerId subscription event.at).userId e =
        some current from hwrote,Option.any_some,decide_eq_true_eq]
      exact ⟨hsame,event.at,rfl,t,ht,not_le.mp hlt⟩
    rw [List.any_eq_false] at horder
    exact horder e hsinceRead hover
  | nil =>
    rw [hwritten] at hnow
    cases hold : applied older userId with
    | nil =>
      rw [hold] at hnow
      rw [hnow current rfl] at hsame
      cases hsame
    | cons last rest =>
      -- the row is the one that was read
      rw [hold] at hnow hread
      obtain rfl := Option.some.inj hnow
      intro t ht
      refine ⟨event.at,rfl,?_⟩
      by_contra hlt
      have hstale' : stale existing subscription event.at = true := by
        rw [show existing = some current from hread]
        rw [stale,Option.any_some,decide_eq_true_eq]
        exact ⟨hsame,t,ht,not_le.mp hlt⟩
      rw [hstale'] at hstale
      cases hstale

structure Ordered (s : Store) (log : Log) : Prop extends Mirrors s log where
  rising : ∀ userId, Rising (applied log userId)

private theorem inOrder_upsert {w : Server} {row : Row}
    (hok : inOrder w (.step i m) = true) (hi : w.asks? i = some (.upsertSubscription row))
    (hyes : executed (exec m s (.upsertSubscription row)).2 = true) :
    (sinceRead w.log i row.userId).any (overtakes row) = false := by
  simp only [inOrder,hi,Bool.or_eq_true,decide_eq_true_eq] at hok
  rcases hok with (hfate | hfate) | hover
  · simp [exec,hfate,Request.certain,executed] at hyes
  · simp [exec,hfate,executed] at hyes
  · simpa using hover

theorem ordered_step {w : Server} (h : Ordered w.shared w.log) (hi : w.asks? i = some r)
    (hok : inOrder w (.step i m) = true) (hr : may job (transcript w.log i) r) :
    Ordered (exec m w.shared r).1 (⟨i,job,r,(exec m w.shared r).2⟩ :: w.log) where
  toMirrors := by
    apply mirrors_step h.toMirrors
    intro row he
    subst he
    exact hr
  rising := by
    intro userId
    rw [applied_cons]
    cases hwritten : written userId ⟨i,job,r,(exec m w.shared r).2⟩ with
    | none => exact h.rising userId
    | some row =>
      have hcases : r = .upsertSubscription row ∧ row.userId = userId ∧
          executed (exec m w.shared r).2 = true := by
        cases r with
        | upsertSubscription new =>
          simp only [written] at hwritten
          split at hwritten
          · rename_i hif
            obtain rfl := Option.some.inj hwritten
            exact ⟨rfl,hif.1,hif.2⟩
          · cases hwritten
        | _ => cases hwritten
      obtain ⟨rfl,rfl,hyes⟩ := hcases
      refine List.isChain_cons.mpr ⟨?_,h.rising row.userId⟩
      intro last hlast hsame
      have huser : row.userId ∈ w.shared.users := by
        rcases rows_exec m w.shared (.upsertSubscription row) with ⟨_,_,hno⟩ | ⟨_,he,_,huser,_⟩ |
          ⟨_,he,_⟩ | ⟨_,he,_⟩
        · rw [hno row rfl] at hyes
          cases hyes
        · cases he
          exact huser
        · cases he
        · cases he
      have hget : w.shared.subscription.get? row.userId = some last := by
        have hcurrent := h.current row.userId huser
        cases happlied : applied w.log row.userId with
        | nil =>
          rw [happlied] at hlast
          cases hlast
        | cons first rest =>
          rw [happlied] at hcurrent hlast
          cases hlast
          exact hcurrent
      exact notNewer_of_inOrder h.toMirrors hr (inOrder_upsert hok hi hyes) hget hsame.symm

end

theorem ordered_after {users : List String} {as : List (Act Job Moment)}
    (h : Along system.act (fun w a => inOrder w a) (fresh users) as) :
    Ordered (system.after (fresh users) as).shared (system.after (fresh users) as).log := by
  refine behaviour.invariant_after (fun _ _ => True) (fun _ _ _ => trivial) Ordered ?_
    (behaviour.follows_init (emptyStore users)) (fun _ _ _ => trivial)
    ⟨mirrors_empty users,fun _ => .nil⟩ h
  intro w i job m r next _ hok hi _ hr hordered
  exact ordered_step hordered (World.asks?_eq_some.mpr ⟨job,next,hi⟩) hok hr

/-- Along the run the mirror keeps what the newest event about a subscription said. -/
structure NeverBack (users : List String) (as : List (Act Job Moment)) : Prop where
  rises : ∀ before a after, as = before ++ a :: after → ∀ userId id row row',
    (system.after (fresh users) before).shared.subscription.get? userId = some row →
    (system.after (fresh users) (before ++ [a])).shared.subscription.get? userId = some row' →
    row.stripeSubscriptionId = some id → row'.stripeSubscriptionId = some id → row.NotNewer row'
  newest : ∀ userId id row,
    (system.after (fresh users) as).shared.subscription.get? userId = some row →
    row.stripeSubscriptionId = some id →
      row ∈ stretch (system.after (fresh users) as).log userId id ∧
        ∀ older ∈ stretch (system.after (fresh users) as).log userId id, older.NotNewer row
  events : ∀ userId, ∀ row ∈ applied (system.after (fresh users) as).log userId,
    ∃ i t event subscription customerId,
      (system.after (fresh users) as).threads[i]? = some t ∧ t.job.Delivers event ∧
      Carried (transcript (system.after (fresh users) as).log i) event subscription ∧
      row = mirrored userId customerId subscription event.at

section

variable {users : List String} {as : List (Act Job Moment)}

private theorem rises_act {w : Server} {a : Act Job Moment} (h : Ordered w.shared w.log)
    (hfollows : behaviour.Follows w) (hok : inOrder w a = true) {userId id : String}
    {row row' : Row} (hrow : w.shared.subscription.get? userId = some row)
    (hrow' : (system.act w a).shared.subscription.get? userId = some row')
    (hid : row.stripeSubscriptionId = some id) (hid' : row'.stripeSubscriptionId = some id) :
    row.NotNewer row' := by
  have hsame : (system.act w a).shared.subscription.get? userId =
      w.shared.subscription.get? userId → row.NotNewer row' := by
    intro he
    rw [he,hrow] at hrow'
    obtain rfl := Option.some.inj hrow'
    exact .refl row
  cases a with
  | start job => exact hsame rfl
  | step i m =>
    rcases system.act_step_cases w i m with hact | ⟨job,r,next,hi,hact⟩
    · exact hsame (by rw [hact])
    · have hasks := World.asks?_eq_some.mpr ⟨job,next,hi⟩
      have hmay : may job (transcript w.log i) r := behaviour.may_of_follows hfollows hi
      have hstore : (system.act w (.step i m)).shared = (exec m w.shared r).1 := by
        rw [hact]
        rfl
      rw [hstore] at hrow' hsame
      rcases rows_exec m w.shared r with ⟨_,he,_⟩ | ⟨new,rfl,hyes,_,_,hput⟩ |
        ⟨new,rfl,hnone,_,_,hput⟩ | ⟨gone,rfl,_,herase⟩
      · exact hsame (by rw [he])
      · by_cases hu : new.userId = userId
        · subst hu
          rw [hput,Table.get?_put_self] at hrow'
          obtain rfl := Option.some.inj hrow'
          exact notNewer_of_inOrder h.toMirrors hmay (inOrder_upsert hok hasks hyes) hrow
            (hid.trans hid'.symm)
        · exact hsame (by rw [hput,Table.get?_put_of_ne _ hu])
      · apply hsame
        rw [hput,Table.get?_put]
        split
        · rename_i hu
          rw [hu,hrow] at hnone
          cases hnone
        · rfl
      · rw [herase,Table.get?_erase] at hrow'
        split at hrow'
        · cases hrow'
        · rw [hrow] at hrow'
          obtain rfl := Option.some.inj hrow'
          exact .refl row

private theorem events_run {userId : String} {row : Row}
    (hrow : row ∈ applied (system.after (fresh users) as).log userId) :
    ∃ i t event subscription customerId,
      (system.after (fresh users) as).threads[i]? = some t ∧ t.job.Delivers event ∧
      Carried (transcript (system.after (fresh users) as).log i) event subscription ∧
      row = mirrored userId customerId subscription event.at := by
  obtain ⟨⟨i,job,r,x⟩,he,hwritten⟩ := List.mem_filterMap.mp hrow
  cases r with
  | upsertSubscription new =>
    simp only [written] at hwritten
    split at hwritten
    · rename_i hif
      obtain rfl := Option.some.inj hwritten
      obtain ⟨t,ht,_⟩ := system.log_jobs (emptyStore users) as he
      have hmem : (⟨.upsertSubscription new,x⟩ : (r : Request) × r.Ans) ∈
          transcript (system.after (fresh users) as).log i := mem_transcript.mpr ⟨job,he⟩
      obtain ⟨newer,older,hsplit,hmay⟩ :=
        (behaviour.allowed_after (emptyStore users) as ht).of_mem hmem
      have hlater : Later older (transcript (system.after (fresh users) as).log i) :=
        ⟨newer ++ [⟨.upsertSubscription new,x⟩],by rw [List.append_assoc]; exact hsplit,
          fun _ _ => trivial⟩
      obtain ⟨event,subscription,owner,customerId,existing,hjob,hcarried,_,hnew,_⟩ := hmay
      have howner : owner = userId := (congrArg Row.userId hnew).symm.trans hif.1
      exact ⟨i,t,event,subscription,customerId,ht,hjob,hcarried.later hlater,howner ▸ hnew⟩
    · cases hwritten
  | _ => cases hwritten

/-- In every run in which no newer event about a subscription is written between the read and the
write of a delivery, the mirror never goes back in time. -/
theorem never_back (h : Along system.act (fun w a => inOrder w a) (fresh users) as) :
    NeverBack users as where
  rises := by
    intro before a after he userId id row row' hrow hrow' hid hid'
    subst he
    have hbefore := ((along_append system.act _ (fresh users) before (a :: after)).mp h).1
    rw [system.after_append] at hrow'
    exact rises_act (ordered_after hbefore) (follows_run users before) h.at hrow hrow' hid hid'
  newest := by
    intro userId id row hrow hid
    have hordered := ordered_after h
    have huser := hordered.owned row (Table.mem_of_get? hrow)
    rw [Table.key_of_get? hrow] at huser
    have hcurrent := hordered.current userId huser
    rw [hrow] at hcurrent
    unfold stretch
    cases happlied : applied (system.after (fresh users) as).log userId with
    | nil =>
      rw [happlied] at hcurrent
      rw [hcurrent row rfl] at hid
      cases hid
    | cons last rest =>
      rw [happlied] at hcurrent
      obtain rfl := Option.some.inj hcurrent
      refine ⟨?_,rising_stretch (happlied ▸ hordered.rising userId) hid⟩
      rw [List.takeWhile_cons_of_pos (by simpa using hid)]
      exact List.mem_cons_self
  events := fun _ _ hrow => events_run hrow

end

def calm : Moment := ⟨.answered,0,0,true⟩

def calmly (thread steps : ℕ) : List (Act Job Moment) := List.replicate steps (.step thread calm)

def configured : Env := ⟨true,true,true⟩

def deliver (event : Event) : Job := .webhook configured ⟨true,some event⟩

def paidBy (userId status : String) : Subscription :=
  ⟨"sub",.id "cus",status,[],false,some userId⟩

/-- The update and the deletion of a subscription, one after the other. -/
def inTurn : List (Act Job Moment) :=
  .start (deliver ⟨"update",10,.subscriptionUpdated (paidBy "owner" "active")⟩) :: calmly 0 5 ++
  .start (deliver ⟨"delete",20,.subscriptionDeleted (paidBy "owner" "canceled")⟩) :: calmly 1 4

theorem never_back_inTurn : NeverBack ["owner"] inTurn := never_back (by decide +kernel)

/-- The update reads that there is no row; the deletion is applied before it writes. -/
def overtaken : List (Act Job Moment) :=
  .start (deliver ⟨"update",10,.subscriptionUpdated (paidBy "owner" "active")⟩) :: calmly 0 4 ++
  .start (deliver ⟨"delete",20,.subscriptionDeleted (paidBy "owner" "canceled")⟩) :: calmly 1 5 ++
  calmly 0 1

/-- The older event overwrites the newer one. -/
theorem older_overwrites_newer : ¬ NeverBack ["owner"] overtaken := by
  intro h
  have hnewest := (h.newest "owner" "sub" (mirrored "owner" "cus" (paidBy "owner" "active") 10000)
    (by decide +kernel) rfl).2 (mirrored "owner" "cus" (paidBy "owner" "canceled") 20000)
    (by decide +kernel)
  obtain ⟨t,ht,hle⟩ := hnewest 20000 rfl
  cases ht
  exact absurd hle (by decide)

end WeirdVault.Billing
