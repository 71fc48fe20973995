import Mathlib.Data.List.Forall2
import WeirdVault.Framework.Runs
import WeirdVault.Relay.Received

/-!
# The queue under its two locks

A push counts what it drops while it holds the queue, under the lock of the counter, which others may
take before and after. Every region of a lock is a step; a call that finds the queue held waits.
-/

namespace WeirdVault.Relay.Events

open WeirdVault.Framework
open WeirdVault.Relay.Reporter
open WeirdVault.Relay.Reported (Call)

inductive Holder
  | free
  | counting (event : ConnectionEvent)
  | appending (event : ConnectionEvent)
  deriving DecidableEq

structure Shared where
  events : ConnectionEvents
  holder : Holder

/-- `opened` or `closed` takes the queue, and goes on while it has it; the other two are over in one
step. -/
inductive Act
  | call (c : Call)
  | count
  | append
  | drain
  | takeDropped

inductive Observed
  | pushed (event : ConnectionEvent)
  | drained (batch : List ConnectionEvent)
  | returned (count : UInt64)

def Shared.put (s : Shared) (event : ConnectionEvent) : Shared :=
  ⟨{ s.events with queued := s.events.queued ++ [event] },.free⟩

def step (s : Shared) : Act → Shared × Option Observed
  | .call c =>
    match s.holder with
    | .free =>
      if MAX_QUEUED ≤ s.events.queued.length then
        (⟨{ s.events with queued := s.events.queued.tail },.counting c.event⟩,none)
      else (s.put c.event,some (.pushed c.event))
    | _ => (s,none)
  | .count =>
    match s.holder with
    | .counting event =>
      (⟨{ s.events with dropped := s.events.dropped+1 },.appending event⟩,none)
    | _ => (s,none)
  | .append =>
    match s.holder with
    | .appending event => (s.put event,some (.pushed event))
    | _ => (s,none)
  | .drain =>
    match s.holder with
    | .free => ({ s with events := s.events.drain.2 },some (.drained s.events.drain.1))
    | _ => (s,none)
  | .takeDropped =>
    ({ s with events := s.events.takeDropped.2 },some (.returned s.events.takeDropped.1))

structure World where
  shared : Shared
  log : List Observed

def World.act (w : World) (a : Act) : World :=
  ⟨(step w.shared a).1,(step w.shared a).2.toList ++ w.log⟩

def fresh : World := ⟨⟨ConnectionEvents.new,.free⟩,[]⟩

def after (as : List Act) : World := runActs World.act fresh as

def Observed.pushed? : Observed → Option ConnectionEvent
  | .pushed event => some event
  | _ => none

def Observed.drained? : Observed → Option (List ConnectionEvent)
  | .drained batch => some batch
  | _ => none

def Observed.count : Observed → ℕ
  | .returned count => count.toNat
  | _ => 0

def pushed (log : List Observed) : List ConnectionEvent := (log.filterMap Observed.pushed?).reverse

def batches (log : List Observed) : List (List ConnectionEvent) := log.filterMap Observed.drained?

def returned (log : List Observed) : ℕ := (log.map Observed.count).sum

/-- What was pushed since the last drain, before it since the one before, and so on. -/
def sections : List Observed → List (List ConnectionEvent)
  | [] => [[]]
  | .pushed event :: log => (sections log).modifyHead (· ++ [event])
  | .drained _ :: log => [] :: sections log
  | .returned _ :: log => sections log

def kept (w : World) : List ConnectionEvent :=
  (batches w.log).reverse.flatten ++ w.shared.events.queued

def lost (w : World) : ℕ := (pushed w.log).length-(kept w).length

def Holder.uncounted : Holder → ℕ
  | .counting _ => 1
  | _ => 0

/-- What `take_dropped` has returned, and what it will return of what is lost by now. -/
def told (w : World) : ℕ :=
  returned w.log+w.shared.events.dropped.toNat+w.shared.holder.uncounted

/-- The counter is at its end. -/
def overflows (s : Shared) : Act → Bool
  | .count => s.holder.uncounted = 1 ∧ s.events.dropped.toNat+1 = 2^64
  | _ => false

/-- The queue is bounded, only the oldest of what was pushed between two drains is lost, and its
number is told, exactly as long as the counter does not overflow. -/
structure DropsOldest (as : List Act) : Prop where
  bounded : (after as).shared.events.queued.length ≤ MAX_QUEUED
  inOrder : (kept (after as)).Sublist (pushed (after as).log)
  oldest : List.Forall₂ (· <:+ ·) ((after as).shared.events.queued :: batches (after as).log)
    (sections (after as).log)
  counted : lost (after as) % 2^64 = told (after as) % 2^64
  exact : Along World.act (fun w a => overflows w.shared a = false) fresh as →
    lost (after as) = told (after as)

theorem sections_eq_cons (log : List Observed) : ∃ last before, sections log = last :: before := by
  induction log with
  | nil => exact ⟨[],[],rfl⟩
  | cons o log ih =>
    obtain ⟨last,before,hlog⟩ := ih
    cases o with
    | pushed event => exact ⟨last ++ [event],before,by rw [sections,hlog]; rfl⟩
    | drained batch => exact ⟨[],sections log,rfl⟩
    | returned count => exact ⟨last,before,hlog⟩

section

variable (event : ConnectionEvent) (batch : List ConnectionEvent) (count : UInt64)
  (log : List Observed)

@[simp] theorem pushed_pushed : pushed (.pushed event :: log) = pushed log ++ [event] := by
  simp [pushed,Observed.pushed?]

@[simp] theorem pushed_drained : pushed (.drained batch :: log) = pushed log := rfl

@[simp] theorem pushed_returned : pushed (.returned count :: log) = pushed log := rfl

@[simp] theorem batches_pushed : batches (.pushed event :: log) = batches log := rfl

@[simp] theorem batches_drained : batches (.drained batch :: log) = batch :: batches log := rfl

@[simp] theorem batches_returned : batches (.returned count :: log) = batches log := rfl

@[simp] theorem returned_pushed : returned (.pushed event :: log) = returned log := Nat.zero_add _

@[simp] theorem returned_drained : returned (.drained batch :: log) = returned log :=
  Nat.zero_add _

@[simp] theorem returned_returned :
    returned (.returned count :: log) = count.toNat+returned log := rfl

end

theorem pushed_eq (log : List Observed) : pushed log = (sections log).reverse.flatten := by
  induction log with
  | nil => rfl
  | cons o log ih =>
    cases o with
    | pushed event =>
      obtain ⟨last,before,hlog⟩ := sections_eq_cons log
      rw [pushed_pushed,ih,sections,hlog]
      simp
    | drained batch =>
      rw [pushed_drained,ih,sections]
      simp
    | returned count => exact ih

theorem kept_eq (w : World) :
    kept w = (w.shared.events.queued :: batches w.log).reverse.flatten := by
  simp [kept]

private theorem sublist_of_suffixes {xs ys : List (List ConnectionEvent)}
    (h : List.Forall₂ (· <:+ ·) xs ys) : xs.reverse.flatten.Sublist ys.reverse.flatten := by
  induction h with
  | nil => exact List.Sublist.refl _
  | cons hxy _ ih =>
    simp only [List.reverse_cons,List.flatten_append,List.flatten_singleton]
    exact ih.append hxy.sublist

def Holder.held : Holder → ℕ
  | .free => 0
  | _ => 1

structure Inv (w : World) : Prop where
  room : w.shared.events.queued.length+w.shared.holder.held ≤ MAX_QUEUED
  oldest : List.Forall₂ (· <:+ ·) (w.shared.events.queued :: batches w.log) (sections w.log)

private theorem Inv.put {s : Shared} {log : List Observed} (event : ConnectionEvent)
    (hroom : s.events.queued.length+1 ≤ MAX_QUEUED)
    (h : List.Forall₂ (· <:+ ·) (s.events.queued :: batches log) (sections log)) :
    Inv ⟨s.put event,.pushed event :: log⟩ := by
  refine ⟨?_,?_⟩
  · simpa [Shared.put,Holder.held] using hroom
  · obtain ⟨last,before,hlog⟩ := sections_eq_cons log
    rw [hlog] at h
    rw [sections,hlog]
    obtain ⟨hlast,hbefore⟩ := List.forall₂_cons.mp h
    obtain ⟨oldest,hlast⟩ := hlast
    refine List.Forall₂.cons ⟨oldest,?_⟩ hbefore
    rw [← hlast]
    exact (List.append_assoc ..).symm

private theorem act_full {events : ConnectionEvents} (log : List Observed) (c : Call)
    (h : MAX_QUEUED ≤ events.queued.length) : World.act ⟨⟨events,.free⟩,log⟩ (.call c) =
      ⟨⟨{ events with queued := events.queued.tail },.counting c.event⟩,log⟩ := by
  simp [World.act,step,h]

private theorem act_room {events : ConnectionEvents} (log : List Observed) (c : Call)
    (h : ¬ MAX_QUEUED ≤ events.queued.length) : World.act ⟨⟨events,.free⟩,log⟩ (.call c) =
      ⟨Shared.put ⟨events,.free⟩ c.event,.pushed c.event :: log⟩ := by
  simp [World.act,step,h]

theorem inv_act {w : World} (h : Inv w) (a : Act) : Inv (w.act a) := by
  obtain ⟨⟨events,holder⟩,log⟩ := w
  cases a with
  | call c =>
    cases holder with
    | free =>
      by_cases hfull : MAX_QUEUED ≤ events.queued.length
      · rw [act_full log c hfull]
        have hroom := h.room
        refine ⟨?_,?_⟩
        · simp only [List.length_tail,Holder.held] at hroom ⊢
          have hpos : 0 < MAX_QUEUED := by decide
          omega
        · obtain ⟨last,before,hlog⟩ := sections_eq_cons log
          have holdest := h.oldest
          rw [hlog] at holdest ⊢
          obtain ⟨hlast,hbefore⟩ := List.forall₂_cons.mp holdest
          exact List.Forall₂.cons ((List.tail_suffix _).trans hlast) hbefore
      · rw [act_room log c hfull]
        exact Inv.put c.event (Nat.lt_of_not_le hfull) h.oldest
    | counting event => exact h
    | appending event => exact h
  | count =>
    cases holder with
    | counting event => exact ⟨h.room,h.oldest⟩
    | free => exact h
    | appending event => exact h
  | append =>
    cases holder with
    | appending event => exact Inv.put event h.room h.oldest
    | free => exact h
    | counting event => exact h
  | drain =>
    cases holder with
    | free => exact ⟨Nat.zero_le _,List.Forall₂.cons List.suffix_rfl h.oldest⟩
    | counting event => exact h
    | appending event => exact h
  | takeDropped => exact ⟨h.room,h.oldest⟩

theorem balance_act {w : World} (h : Inv w) (a : Act) :
    (pushed (w.act a).log).length+((kept w).length+told w) =
      (pushed w.log).length+((kept (w.act a)).length+told (w.act a)+
        if overflows w.shared a then 2^64 else 0) := by
  obtain ⟨⟨events,holder⟩,log⟩ := w
  cases a with
  | call c =>
    cases holder with
    | free =>
      by_cases hfull : MAX_QUEUED ≤ events.queued.length
      · rw [act_full log c hfull]
        have hpos : 0 < MAX_QUEUED := by decide
        simp only [kept,told,overflows,Holder.uncounted,List.length_append,List.length_tail,
          Bool.false_eq_true,if_false]
        omega
      · rw [act_room log c hfull]
        simp [kept,told,overflows,Holder.uncounted,Shared.put]
        omega
    | counting event => rfl
    | appending event => rfl
  | count =>
    cases holder with
    | counting event =>
      have hadd : (events.dropped+1).toNat+
          (if events.dropped.toNat+1 = 2^64 then 2^64 else 0) = events.dropped.toNat+1 := by
        have hlt := events.dropped.toNat_lt
        rw [UInt64.toNat_add]
        split <;> simp <;> omega
      simp only [World.act,step,kept,told,overflows,Holder.uncounted,Option.toList_none,
        List.nil_append,true_and,decide_eq_true_eq]
      omega
    | free => rfl
    | appending event => rfl
  | append =>
    cases holder with
    | appending event =>
      simp [World.act,step,kept,told,overflows,Holder.uncounted,Shared.put]
      omega
    | free => rfl
    | counting event => rfl
  | drain =>
    cases holder with
    | free =>
      simp [World.act,step,kept,told,overflows,Holder.uncounted,ConnectionEvents.drain]
    | counting event => rfl
    | appending event => rfl
  | takeDropped =>
    simp [World.act,step,kept,told,overflows,ConnectionEvents.takeDropped]
    omega

private theorem inv_fresh : Inv fresh :=
  ⟨Nat.zero_le _,List.Forall₂.cons (List.suffix_refl []) List.Forall₂.nil⟩

private theorem inv_after (as : List Act) : Inv (after as) :=
  invariant_runActs Inv (fun _ a h _ => inv_act h a) inv_fresh (along_true World.act fresh as)

private theorem balance_after (as : List Act) : (pushed (after as).log).length % 2^64 =
    ((kept (after as)).length+told (after as)) % 2^64 := by
  refine (invariant_runActs (fun w => Inv w ∧ (pushed w.log).length % 2^64 =
    ((kept w).length+told w) % 2^64) ?_ ⟨inv_fresh,rfl⟩ (along_true World.act fresh as)).2
  intro w a hw _
  obtain ⟨hinv,hbalance⟩ := hw
  have hstep := balance_act hinv a
  refine ⟨inv_act hinv a,?_⟩
  split at hstep
  · omega
  · omega

private theorem exact_after {as : List Act}
    (h : Along World.act (fun w a => overflows w.shared a = false) fresh as) :
    (pushed (after as).log).length = (kept (after as)).length+told (after as) := by
  refine (invariant_runActs (fun w => Inv w ∧ (pushed w.log).length =
    (kept w).length+told w) ?_ ⟨inv_fresh,rfl⟩ h).2
  intro w a hw hno
  obtain ⟨hinv,hbalance⟩ := hw
  have hstep := balance_act hinv a
  rw [hno,if_neg Bool.false_ne_true] at hstep
  refine ⟨inv_act hinv a,?_⟩
  omega

theorem drops_oldest (as : List Act) : DropsOldest as := by
  have hinv := inv_after as
  have horder : (kept (after as)).Sublist (pushed (after as).log) := by
    rw [kept_eq,pushed_eq]
    exact sublist_of_suffixes hinv.oldest
  have hle := horder.length_le
  refine ⟨(Nat.le_add_right _ _).trans hinv.room,horder,hinv.oldest,?_,?_⟩
  · have hbalance := balance_after as
    rw [lost]
    omega
  · intro hexact
    have hbalance := exact_after hexact
    rw [lost]
    omega

def whole (c : Call) : List Act := [.call c,.count,.append]

theorem whole_eq (events : ConnectionEvents) (log : List Observed) (c : Call) :
    runActs World.act ⟨⟨events,.free⟩,log⟩ (whole c) =
      ⟨⟨c.apply events,.free⟩,.pushed c.event :: log⟩ := by
  rw [Reported.apply_eq_push]
  by_cases hfull : MAX_QUEUED ≤ events.queued.length
  · simp [whole,World.act,step,Shared.put,ConnectionEvents.push,hfull]
  · simp [whole,World.act,step,Shared.put,ConnectionEvents.push,hfull]

private theorem wholes_eq (c : Call) (n : ℕ) :
    ∃ events, after (List.replicate n (whole c)).flatten =
      ⟨⟨events,.free⟩,List.replicate n (.pushed c.event)⟩ := by
  induction n with
  | zero => exact ⟨ConnectionEvents.new,rfl⟩
  | succ n ih =>
    obtain ⟨events,hn⟩ := ih
    refine ⟨c.apply events,?_⟩
    rw [List.replicate_succ',List.flatten_append,List.flatten_singleton,after,runActs_append]
    rw [after] at hn
    rw [hn,whole_eq]
    rfl

private theorem lost_pushed (events : ConnectionEvents) (event : ConnectionEvent) (n : ℕ) :
    lost ⟨⟨events,.free⟩,List.replicate n (.pushed event)⟩ = n-events.queued.length ∧
      told ⟨⟨events,.free⟩,List.replicate n (.pushed event)⟩ = events.dropped.toNat := by
  have hlog : (pushed (List.replicate n (.pushed event))).length = n ∧
      batches (List.replicate n (.pushed event)) = [] ∧
      returned (List.replicate n (.pushed event)) = 0 := by
    induction n with
    | zero => exact ⟨rfl,rfl,rfl⟩
    | succ n ih =>
      rw [List.replicate_succ]
      simpa using ih
  obtain ⟨hpushed,hbatches,hreturned⟩ := hlog
  simp [lost,told,kept,hpushed,hbatches,hreturned,Holder.uncounted]

private def tooMany : ℕ := 2^64+MAX_QUEUED

/-- The number is not told any more after 2^64 events are lost. -/
theorem counter_overflows : ¬ ∀ as, lost (after as) = told (after as) := by
  intro hall
  have hlost := hall (List.replicate tooMany (whole (.opened "user" none 22))).flatten
  have hroom := (drops_oldest (List.replicate tooMany
    (whole (.opened "user" none 22))).flatten).bounded
  obtain ⟨events,hafter⟩ := wholes_eq (.opened "user" none 22) tooMany
  rw [hafter] at hlost hroom
  obtain ⟨hcount,htold⟩ := lost_pushed events (Call.opened "user" none 22).event tooMany
  rw [hcount,htold,tooMany] at hlost
  have hlt := events.dropped.toNat_lt
  have hroom' : events.queued.length ≤ MAX_QUEUED := hroom
  omega

end WeirdVault.Relay.Events
