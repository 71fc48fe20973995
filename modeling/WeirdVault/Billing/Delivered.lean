import WeirdVault.Billing.Mirror

/-!
# Events that are acknowledged

A delivery that finds the marker of its event is answered as if the event had been dealt with. What
becomes of the event is up to the delivery that wrote the marker.
-/

namespace WeirdVault.Billing

open WeirdVault.Framework

def Job.delivered? : Job → Option Event
  | .webhook _ ⟨true,event⟩ => event
  | _ => none

theorem delivered?_eq_some {job : Job} {event : Event} :
    job.delivered? = some event ↔ job.Delivers event := by
  constructor
  · intro h
    cases job with
    | webhook env delivery =>
      obtain ⟨signed,event'⟩ := delivery
      cases signed with
      | false => cases h
      | true =>
        obtain rfl : event' = some event := h
        exact ⟨env,rfl⟩
    | _ => cases h
  · rintro ⟨env,rfl⟩
    rfl

/-- The delivery of the event that is recorded here wrote the marker. -/
def wrote (event : Event) : Entry Request.Ans Job → Bool
  | ⟨_,job,.claimEvent id type,.ok (_ :: _)⟩ =>
    job.delivered? = some event ∧ id = event.id ∧ type = event.type
  | _ => false

def found (event : Event) : Entry Request.Ans Job → Bool
  | ⟨_,job,.claimEvent _ _,.ok []⟩ => job.delivered? = some event
  | _ => false

/-- The thread wrote the marker, and nothing that it asked has failed. -/
def sound (log : Log) (event : Event) (i : ℕ) : Bool :=
  log.any (fun e => e.thread = i ∧ wrote event e) &&
    log.all (fun e => e.thread ≠ i ∨ fails ⟨e.request,e.answer⟩ = false)

def soundBeside (log : Log) (event : Event) (i : ℕ) : Bool :=
  log.any fun e => e.thread ≠ i ∧ sound log event e.thread

/-- A delivery finds the marker only beside one that wrote it and has not failed, and none of these
fails once a delivery has found the marker, unless there is another. -/
def heeds (event : Event) (w : Server) : Act Job Moment → Bool
  | .start _ => true
  | .step i m =>
    match w.threads[i]? with
    | some ⟨job,.ask r _⟩ =>
      (!found event ⟨i,job,r,(exec m w.shared r).2⟩ || soundBeside w.log event i) &&
        (!(sound w.log event i && w.log.any (found event) && fails ⟨r,(exec m w.shared r).2⟩) ||
          soundBeside w.log event i)
    | _ => true

def DeliveredBy (w : Server) (event : Event) (i : ℕ) : Prop :=
  ∃ t, w.threads[i]? = some t ∧ t.job.Delivers event

/-- A delivery has been answered with a 2xx. -/
def Acknowledged (w : Server) (event : Event) : Prop :=
  ∃ i reply, DeliveredBy w event i ∧ w.result? i = some (.ok reply) ∧ reply.status < 300

/-- A delivery has finished, and the event is applied or was deliberately skipped. -/
def Settled (w : Server) (event : Event) : Prop :=
  ∃ i type, DeliveredBy w event i ∧ w.result? i = some (.ok (.processed type)) ∧
    Dealt (transcript w.log i) event

/-- A delivery that wrote the marker is at work, and nothing that it asked has failed. -/
def AtWork (w : Server) (event : Event) : Prop :=
  ∃ i, DeliveredBy w event i ∧ w.result? i = none ∧ Claimed (transcript w.log i) event ∧
    ¬ Failed (transcript w.log i)

/-- No acknowledged event is lost. -/
def Safe (w : Server) (event : Event) : Prop :=
  Acknowledged w event → Settled w event ∨ AtWork w event

private theorem wrote_iff {event : Event} {e : Entry Request.Ans Job} (h : wrote event e) :
    ∃ i job id ids, job.Delivers event ∧
      e = ⟨i,job,.claimEvent event.id event.type,.ok (id :: ids)⟩ := by
  obtain ⟨i,job,r,x⟩ := e
  cases r with
  | claimEvent id type =>
    cases x with
    | error thrown => cases h
    | ok ids =>
      cases ids with
      | nil => cases h
      | cons first ids =>
        obtain ⟨hjob,rfl,rfl⟩ := of_decide_eq_true h
        exact ⟨i,job,first,ids,delivered?_eq_some.mp hjob,rfl⟩
  | _ => cases h

private theorem sound_claimed {log : Log} {event : Event} {i : ℕ} (h : sound log event i) :
    (∃ job id ids, job.Delivers event ∧
      (⟨i,job,.claimEvent event.id event.type,.ok (id :: ids)⟩ : Entry Request.Ans Job) ∈ log) ∧
    ¬ Failed (transcript log i) := by
  obtain ⟨hwrote,hnone⟩ := Bool.and_eq_true_iff.mp h
  constructor
  · obtain ⟨e,he,hthis⟩ := List.any_eq_true.mp hwrote
    obtain ⟨hthread,hmarker⟩ := of_decide_eq_true hthis
    obtain ⟨j,job,id,ids,hjob,rfl⟩ := wrote_iff hmarker
    obtain rfl : j = i := hthread
    exact ⟨job,id,ids,hjob,he⟩
  · intro hfailed
    obtain ⟨a,ha,hfails⟩ := hfailed
    obtain ⟨job,hmem⟩ := mem_transcript.mp ha
    have hthis := of_decide_eq_true (List.all_eq_true.mp hnone _ hmem)
    rcases hthis with hother | hfine
    · exact hother rfl
    · rw [hfails] at hfine
      cases hfine

private theorem sound_cons_of_ne {log : Log} {event : Event} {e : Entry Request.Ans Job} {i : ℕ}
    (h : e.thread ≠ i) : sound (e :: log) event i = sound log event i := by
  simp [sound,h]

private theorem sound_cons_self {log : Log} {event : Event} {e : Entry Request.Ans Job}
    (h : sound log event e.thread) (hfine : fails ⟨e.request,e.answer⟩ = false) :
    sound (e :: log) event e.thread := by
  obtain ⟨hwrote,hnone⟩ := Bool.and_eq_true_iff.mp h
  refine Bool.and_eq_true_iff.mpr ⟨?_,?_⟩
  · rw [List.any_cons,hwrote,Bool.or_true]
  · rw [List.all_cons,hnone,Bool.and_true]
    exact decide_eq_true (Or.inr hfine)

private theorem any_of_beside {log : Log} {event : Event} {e : Entry Request.Ans Job}
    (h : soundBeside log event e.thread) :
    (e :: log).any fun e' => sound (e :: log) event e'.thread := by
  obtain ⟨e',he',hthis⟩ := List.any_eq_true.mp h
  obtain ⟨hother,hsound⟩ := of_decide_eq_true hthis
  apply List.any_eq_true.mpr
  refine ⟨e',List.mem_cons_of_mem e he',?_⟩
  rw [sound_cons_of_ne (Ne.symm hother)]
  exact hsound

private theorem sound_after {users : List String} {event : Event} {as : List (Act Job Moment)}
    (h : Along system.act (fun w a => heeds event w a) (fresh users) as) :
    (system.after (fresh users) as).log.any (found event) →
      (system.after (fresh users) as).log.any fun e =>
        sound (system.after (fresh users) as).log event e.thread := by
  refine invariant_runActs (fun w : Server => w.log.any (found event) →
    w.log.any fun e => sound w.log event e.thread) ?_ (fun hfound => by cases hfound) h
  intro w a hinv hheeds
  cases a with
  | start job => exact hinv
  | step i m =>
    rcases system.act_step_cases w i m with hact | ⟨job,r,next,hi,hact⟩
    · rw [hact]
      exact hinv
    · rw [hact]
      simp only [heeds,hi] at hheeds
      obtain ⟨hfirst,hsecond⟩ := Bool.and_eq_true_iff.mp hheeds
      intro hfound
      simp only [System.answered] at hfound ⊢
      generalize hanswer : (system.exec job m w.shared r).2 = x at hfound ⊢
      have hsame : (exec m w.shared r).2 = x := hanswer
      rw [hsame] at hfirst hsecond
      by_cases hbeside : soundBeside w.log event i
      · exact any_of_beside (e := ⟨i,job,r,x⟩) hbeside
      · rw [Bool.eq_false_iff.mpr hbeside,Bool.or_false] at hfirst hsecond
        rw [Bool.not_eq_true'] at hfirst hsecond
        rw [List.any_cons,hfirst,Bool.false_or] at hfound
        obtain ⟨e,he,hsound⟩ := List.any_eq_true.mp (hinv hfound)
        have hthread : e.thread = i := by
          by_contra hother
          apply hbeside
          exact List.any_eq_true.mpr ⟨e,he,decide_eq_true ⟨hother,hsound⟩⟩
        rw [hthread] at hsound
        have hfine : fails ⟨r,x⟩ = false := by
          rw [hsound,hfound,Bool.true_and,Bool.true_and] at hsecond
          exact hsecond
        apply List.any_eq_true.mpr
        exact ⟨⟨i,job,r,x⟩,List.mem_cons_self,sound_cons_self hsound hfine⟩

def Ended (w : Server) (event : Event) : Prop :=
  ∀ i, DeliveredBy w event i → w.result? i ≠ none

theorem Safe.settled {w : Server} {event : Event} (h : Safe w event) (hended : Ended w event)
    (hack : Acknowledged w event) : Settled w event := by
  rcases h hack with hsettled | ⟨i,hby,hlive,_⟩
  · exact hsettled
  · exact absurd hlive (hended i hby)

section

variable {users : List String} {event : Event} {as : List (Act Job Moment)} {i : ℕ}

private theorem ends_of_result {o : Except Thrown Reply}
    (hby : DeliveredBy (system.after (fresh users) as) event i)
    (hresult : (system.after (fresh users) as).result? i = some o) :
    ends event (transcript (system.after (fresh users) as).log i) o := by
  obtain ⟨t,ht,hjob⟩ := hby
  obtain ⟨t',ht',hpost⟩ := behaviour.post_of_follows (follows_run users as) hresult
  rw [ht] at ht'
  obtain rfl := Option.some.inj ht'
  exact hpost event hjob

private theorem found_of_deduplicated (hby : DeliveredBy (system.after (fresh users) as) event i)
    (hresult : (system.after (fresh users) as).result? i = some (.ok .deduplicated)) :
    (system.after (fresh users) as).log.any (found event) := by
  have honly : transcript (system.after (fresh users) as).log i =
      [⟨.claimEvent event.id event.type,.ok []⟩] := ends_of_result hby hresult
  have hmem : (⟨.claimEvent event.id event.type,.ok []⟩ : (r : Request) × r.Ans) ∈
      transcript (system.after (fresh users) as).log i := by
    rw [honly]
    exact List.mem_singleton_self _
  obtain ⟨job,he⟩ := mem_transcript.mp hmem
  obtain ⟨t,ht,hjob⟩ := system.log_jobs (emptyStore users) as he
  obtain ⟨t',ht',hdelivers⟩ := hby
  have hsame : t = t' := Option.some.inj (ht.symm.trans ht')
  rw [← hsame,hjob] at hdelivers
  exact List.any_eq_true.mpr ⟨_,he,decide_eq_true (delivered?_eq_some.mpr hdelivers)⟩

/-- A delivery that wrote the marker and has not failed has dealt with the event or is at it. -/
private theorem settled_or_atWork (hhandled : event.type ∈ HANDLED)
    (h : sound (system.after (fresh users) as).log event i) :
    Settled (system.after (fresh users) as) event ∨ AtWork (system.after (fresh users) as) event := by
  obtain ⟨⟨job,id,ids,hdelivers,he⟩,hfine⟩ := sound_claimed h
  obtain ⟨t,ht,hjob⟩ := system.log_jobs (emptyStore users) as he
  have hby : DeliveredBy (system.after (fresh users) as) event i := by
    refine ⟨t,ht,?_⟩
    rw [hjob]
    exact hdelivers
  have hclaimed : Claimed (transcript (system.after (fresh users) as).log i) event :=
    ⟨id :: ids,List.cons_ne_nil _ _,mem_transcript.mpr ⟨job,he⟩⟩
  cases hresult : (system.after (fresh users) as).result? i with
  | none => exact Or.inr ⟨i,hby,hresult,hclaimed,hfine⟩
  | some o =>
    have hend := ends_of_result hby hresult
    cases o with
    | error thrown => exact absurd (hend hclaimed) hfine
    | ok reply =>
      cases reply with
      | processed type => exact Or.inl ⟨i,type,hby,hresult,hend.2⟩
      | ignored type => exact absurd hhandled hend
      | refused status error code => exact absurd (hend.2 hclaimed) hfine
      | deduplicated =>
        obtain ⟨ids',hne,hhas⟩ := hclaimed
        rw [Transcript.Has,hend,List.mem_singleton] at hhas
        have hids := eq_of_heq (Sigma.mk.inj hhas).2
        exact absurd (Except.ok.inj hids) hne
      | _ => exact False.elim hend

private theorem safe_of_heeds (hhandled : event.type ∈ HANDLED)
    (h : Along system.act (fun w a => heeds event w a) (fresh users) as) :
    Safe (system.after (fresh users) as) event := by
  intro hack
  obtain ⟨i,reply,hby,hresult,hstatus⟩ := hack
  have hend := ends_of_result hby hresult
  cases reply with
  | processed type => exact Or.inl ⟨i,type,hby,hresult,hend.2⟩
  | ignored type => exact absurd hhandled hend
  | refused status error code =>
    have := hend.1
    exact absurd hstatus (by simp only [Reply.status]; omega)
  | deduplicated =>
    obtain ⟨e,_,hsound⟩ := List.any_eq_true.mp (sound_after h (found_of_deduplicated hby hresult))
    exact settled_or_atWork hhandled hsound
  | _ => exact False.elim hend

end

/-- In every run in which duplicates come only while the marker stands for something, an event that
was acknowledged is applied or skipped, or a delivery is at it; and it is applied or skipped where
all its deliveries have ended. -/
theorem acknowledged_safe {users : List String} {event : Event} {as : List (Act Job Moment)}
    (hhandled : event.type ∈ HANDLED)
    (h : Along system.act (fun w a => heeds event w a) (fresh users) as) :
    Safe (system.after (fresh users) as) event ∧ (Ended (system.after (fresh users) as) event →
      Acknowledged (system.after (fresh users) as) event →
        Settled (system.after (fresh users) as) event) :=
  ⟨safe_of_heeds hhandled h,(safe_of_heeds hhandled h).settled⟩

private def renewal : Event := ⟨"update",10,.subscriptionUpdated (paidBy "owner" "active")⟩

private def redelivered : List (Act Job Moment) :=
  .start (deliver renewal) :: calmly 0 6 ++ .start (deliver renewal) :: calmly 1 1

theorem acknowledged_twice : Safe (system.after (fresh ["owner"]) redelivered) renewal ∧
    (Ended (system.after (fresh ["owner"]) redelivered) renewal →
      Acknowledged (system.after (fresh ["owner"]) redelivered) renewal →
        Settled (system.after (fresh ["owner"]) redelivered) renewal) :=
  acknowledged_safe (by decide) (by decide +kernel)

/-- The process of the first delivery dies behind its claim, and the second is answered at once. -/
private def abandoned : List (Act Job Moment) :=
  .start (deliver renewal) :: calmly 0 1 ++
    [.step 0 { calm with fate := .died false }] ++
  .start (deliver renewal) :: calmly 1 1

theorem acknowledged_lost : ¬ ∀ (users : List String) (event : Event) (as : List (Act Job Moment)),
    event.type ∈ HANDLED → Safe (system.after (fresh users) as) event := by
  intro hall
  have hsafe := hall ["owner"] renewal abandoned (by decide)
  have hfirst : (system.after (fresh ["owner"]) abandoned).result? 0 =
      some (.error (.died false)) := by decide +kernel
  have hsecond : (system.after (fresh ["owner"]) abandoned).result? 1 =
      some (.ok .deduplicated) := by decide +kernel
  have hlength : (system.after (fresh ["owner"]) abandoned).threads.length = 2 := by decide +kernel
  have hjob : (system.after (fresh ["owner"]) abandoned).threads[1]?.map (·.job) =
      some (deliver renewal) := by decide +kernel
  generalize system.after (fresh ["owner"]) abandoned = w at hsafe hfirst hsecond hlength hjob
  have hended : ∀ i, DeliveredBy w renewal i →
      w.result? i = some (.error (.died false)) ∨ w.result? i = some (.ok .deduplicated) := by
    intro i hby
    obtain ⟨t,ht,_⟩ := hby
    have hlt := (List.getElem?_eq_some_iff.mp ht).1
    have hi : i = 0 ∨ i = 1 := by omega
    rcases hi with rfl | rfl
    · exact Or.inl hfirst
    · exact Or.inr hsecond
  obtain ⟨t,ht,hdelivers⟩ := Option.map_eq_some_iff.mp hjob
  have hack : Acknowledged w renewal :=
    ⟨1,.deduplicated,⟨t,ht,configured,hdelivers⟩,hsecond,by decide⟩
  rcases hsafe hack with ⟨i,type,hby,hresult,_⟩ | ⟨i,hby,hresult,_⟩
  · rcases hended i hby with h | h
    · rw [h] at hresult
      cases hresult
    · rw [h] at hresult
      cases hresult
  · rcases hended i hby with h | h
    · rw [h] at hresult
      cases hresult
    · rw [h] at hresult
      cases hresult

end WeirdVault.Billing
