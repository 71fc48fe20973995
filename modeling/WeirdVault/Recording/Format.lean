import Mathlib.Data.List.Sort
import Mathlib.Order.MinMax
import WeirdVault.Framework.JsString

/-! # The cast format: events and the timing model -/

namespace WeirdVault.Recording

open WeirdVault.Framework

structure CastHeader (N : Type) where
  v : N
  cols : N
  rows : N
  startedAt : N
  durationMs : N
  label : Option JsString
  host : Option JsString
deriving DecidableEq

inductive CastEvent (N : Type) where
  | output (stamp : N) (bytes : List UInt8)
  | resize (stamp : N) (cols rows : N)
deriving DecidableEq

structure Cast (N : Type) where
  header : CastHeader N
  events : List (CastEvent N)
deriving DecidableEq

variable {N : Type}

def CastEvent.at : CastEvent N → N
  | .output stamp _ => stamp
  | .resize stamp _ _ => stamp

def CastEvent.bytes : CastEvent N → List UInt8
  | .output _ bytes => bytes
  | .resize _ _ _ => []

def Cast.Ordered [LE N] (cast : Cast N) : Prop := cast.events.Pairwise (·.at ≤ ·.at)

structure CastFrame (N : Type) where
  cols : N
  rows : N
  data : List UInt8
  next : ℕ
deriving DecidableEq

variable [LinearOrder N]

def frameLoop (atMs : N) (cols rows : N) (i : ℕ) : List (CastEvent N) → N × N × ℕ
  | [] => (cols,rows,i)
  | event :: events =>
    if atMs < event.at then (cols,rows,i)
    else match event with
      | .output _ _ => frameLoop atMs cols rows (i + 1) events
      | .resize _ cols rows => frameLoop atMs cols rows (i + 1) events

def frameAt (cast : Cast N) (atMs : N) : CastFrame N :=
  let (cols,rows,next) := frameLoop atMs cast.header.cols cast.header.rows 0 cast.events
  { cols, rows, data := (cast.events.take next).flatMap CastEvent.bytes, next }

def upToLoop (atMs : N) (next : ℕ) : List (CastEvent N) → ℕ
  | [] => next
  | event :: events => if event.at ≤ atMs then upToLoop atMs (next + 1) events else next

def eventsUpTo (cast : Cast N) (start : ℕ) (atMs : N) : List (CastEvent N) × ℕ :=
  let next := upToLoop atMs start (cast.events.drop start)
  ((cast.events.take next).drop start,next)

def castEnd [Zero N] (cast : Cast N) : N :=
  max cast.header.durationMs ((cast.events.getLast?.map CastEvent.at).getD 0)

def due (t : N) (events : List (CastEvent N)) : List (CastEvent N) :=
  events.filter (·.at ≤ t)

def dueBetween (t u : N) (events : List (CastEvent N)) : List (CastEvent N) :=
  events.filter fun e => t < e.at ∧ e.at ≤ u

theorem mem_dueBetween {t u : N} {e : CastEvent N} {events : List (CastEvent N)} :
    e ∈ dueBetween t u events ↔ e ∈ events ∧ t < e.at ∧ e.at ≤ u := by
  unfold dueBetween
  rw [List.mem_filter,decide_eq_true_iff]

def geometryAfter (cols rows : N) : List (CastEvent N) → N × N
  | [] => (cols,rows)
  | .output _ _ :: events => geometryAfter cols rows events
  | .resize _ cols rows :: events => geometryAfter cols rows events

def frameOf (header : CastHeader N) (events : List (CastEvent N)) : CastFrame N :=
  let (cols,rows) := geometryAfter header.cols header.rows events
  { cols, rows, data := events.flatMap CastEvent.bytes, next := events.length }

private theorem due_of_later {t : N} {e : CastEvent N} {events : List (CastEvent N)}
    (hs : (e :: events).Pairwise (·.at ≤ ·.at)) (he : t < e.at) : due t (e :: events) = [] := by
  apply List.filter_eq_nil_iff.mpr
  intro x hx
  have hle : e.at ≤ x.at := by
    rcases List.mem_cons.mp hx with rfl | hx
    · exact le_rfl
    · exact List.rel_of_pairwise_cons hs hx
  simpa using he.trans_le hle

private theorem due_cons {t : N} {e : CastEvent N} (events : List (CastEvent N)) (he : e.at ≤ t) :
    due t (e :: events) = e :: due t events := by
  unfold due
  rw [List.filter_cons_of_pos]
  simpa using he

theorem take_due {t : N} {events : List (CastEvent N)} (hs : events.Pairwise (·.at ≤ ·.at)) :
    events.take (due t events).length = due t events := by
  induction events with
  | nil => rfl
  | cons e events ih =>
    rcases le_or_gt e.at t with he | he
    · rw [due_cons events he,List.length_cons,List.take_succ_cons,ih hs.of_cons]
    · rw [due_of_later hs he]
      rfl

theorem due_append_dueBetween {t u : N} {events : List (CastEvent N)}
    (hs : events.Pairwise (·.at ≤ ·.at)) (h : t ≤ u) :
    due u events = due t events ++ dueBetween t u events := by
  induction events with
  | nil => rfl
  | cons e events ih =>
    rcases le_or_gt e.at t with he | he
    · have hout : dueBetween t u (e :: events) = dueBetween t u events := by
        unfold dueBetween
        rw [List.filter_cons_of_neg]
        simp [he.not_gt]
      rw [due_cons events (he.trans h),due_cons events he,hout,ih hs.of_cons]
      rfl
    · rw [due_of_later hs he,List.nil_append]
      apply List.filter_congr
      intro x hx
      have hle : e.at ≤ x.at := by
        rcases List.mem_cons.mp hx with rfl | hx
        · exact le_rfl
        · exact List.rel_of_pairwise_cons hs hx
      simp [he.trans_le hle]

theorem dueBetween_self (t : N) (events : List (CastEvent N)) : dueBetween t t events = [] := by
  apply List.filter_eq_nil_iff.mpr
  intro e _
  simp

theorem dueBetween_max (t u : N) (events : List (CastEvent N)) :
    dueBetween t (max t u) events = dueBetween t u events := by
  apply List.filter_congr
  intro e _
  by_cases he : t < e.at
  · simp [he,not_le.mpr he]
  · simp [he]

theorem dueBetween_append {t u v : N} {events : List (CastEvent N)}
    (hs : events.Pairwise (·.at ≤ ·.at)) (htu : t ≤ u) (huv : u ≤ v) :
    dueBetween t v events = dueBetween t u events ++ dueBetween u v events := by
  have h := due_append_dueBetween hs (htu.trans huv)
  rw [due_append_dueBetween hs huv,due_append_dueBetween hs htu,List.append_assoc] at h
  exact (List.append_cancel_left h).symm

private theorem frameLoop_eq (t cols rows : N) (i : ℕ) {events : List (CastEvent N)}
    (hs : events.Pairwise (·.at ≤ ·.at)) :
    frameLoop t cols rows i events =
      ((geometryAfter cols rows (due t events)).1,(geometryAfter cols rows (due t events)).2,
        i + (due t events).length) := by
  induction events generalizing cols rows i with
  | nil => rfl
  | cons e events ih =>
    unfold frameLoop
    rcases le_or_gt e.at t with he | he
    · rw [if_neg he.not_gt,due_cons events he,List.length_cons]
      cases e with
      | output stamp bytes =>
        have hi := ih cols rows (i + 1) hs.of_cons
        rw [Nat.add_right_comm,Nat.add_assoc] at hi
        exact hi
      | resize stamp cols' rows' =>
        have hi := ih cols' rows' (i + 1) hs.of_cons
        rw [Nat.add_right_comm,Nat.add_assoc] at hi
        exact hi
    · rw [if_pos he,due_of_later hs he]
      rfl

theorem frameAt_eq {cast : Cast N} (hs : cast.Ordered) (t : N) :
    frameAt cast t = frameOf cast.header (due t cast.events) := by
  unfold frameAt frameOf
  rw [frameLoop_eq t _ _ 0 hs]
  simp only [Nat.zero_add,take_due hs]

private theorem upToLoop_eq (t : N) (next : ℕ) {events : List (CastEvent N)}
    (hs : events.Pairwise (·.at ≤ ·.at)) :
    upToLoop t next events = next + (due t events).length := by
  induction events generalizing next with
  | nil => rfl
  | cons e events ih =>
    unfold upToLoop
    rcases le_or_gt e.at t with he | he
    · rw [if_pos he,ih _ hs.of_cons,due_cons events he,List.length_cons]
      omega
    · rw [if_neg he.not_ge,due_of_later hs he]
      rfl

private theorem drop_due {t : N} {events : List (CastEvent N)}
    (hs : events.Pairwise (·.at ≤ ·.at)) (u : N) :
    due u (events.drop (due t events).length) = dueBetween t u events := by
  induction events with
  | nil => rfl
  | cons e events ih =>
    rcases le_or_gt e.at t with he | he
    · have hout : dueBetween t u (e :: events) = dueBetween t u events := by
        unfold dueBetween
        rw [List.filter_cons_of_neg]
        simp [he.not_gt]
      rw [due_cons events he,List.length_cons,List.drop_succ_cons,ih hs.of_cons,hout]
    · rw [due_of_later hs he]
      apply List.filter_congr
      intro x hx
      have hle : e.at ≤ x.at := by
        rcases List.mem_cons.mp hx with rfl | hx
        · exact le_rfl
        · exact List.rel_of_pairwise_cons hs hx
      simp [he.trans_le hle]

/-- From where one time left off, the events up to another time are those between the two. -/
theorem eventsUpTo_eq {cast : Cast N} (hs : cast.Ordered) (t u : N) :
    eventsUpTo cast (due t cast.events).length u =
      (dueBetween t u cast.events,(due (max t u) cast.events).length) := by
  have hnext : upToLoop u (due t cast.events).length
      (cast.events.drop (due t cast.events).length) = (due (max t u) cast.events).length := by
    rw [upToLoop_eq u _ (hs.sublist (List.drop_sublist _ _)),drop_due hs,
      due_append_dueBetween hs (le_max_left t u),dueBetween_max,List.length_append]
  unfold eventsUpTo
  rw [hnext]
  simp only [take_due hs,Prod.mk.injEq,and_true]
  rw [due_append_dueBetween hs (le_max_left t u),dueBetween_max,List.drop_left]

end WeirdVault.Recording
