import Mathlib.Data.List.Basic

/-!
# Runs of a step function

A run executes a list of actions. `Along` says that a condition on the state before a step and the
action of the step holds at every step of a run; an invariant that such steps keep holds in every
state the run reaches.
-/

namespace WeirdVault.Framework

variable {S A : Type}

/-- The state after the actions, first action first. -/
def runActs (step : S → A → S) (s : S) (as : List A) : S := as.foldl step s

/-- Every step of the run meets the condition. -/
def Along (step : S → A → S) (ok : S → A → Prop) : S → List A → Prop
  | _, [] => True
  | s, a :: as => ok s a ∧ Along step ok (step s a) as

instance Along.decidable {step : S → A → S} {ok : S → A → Prop} [∀ s a, Decidable (ok s a)] :
    (s : S) → (as : List A) → Decidable (Along step ok s as)
  | _, [] => .isTrue trivial
  | s, a :: as =>
    have : Decidable (Along step ok (step s a) as) := Along.decidable (step s a) as
    inferInstanceAs (Decidable (ok s a ∧ Along step ok (step s a) as))

@[simp] theorem runActs_nil (step : S → A → S) (s : S) : runActs step s [] = s := rfl

@[simp] theorem runActs_cons (step : S → A → S) (s : S) (a : A) (as : List A) :
    runActs step s (a :: as) = runActs step (step s a) as := rfl

theorem runActs_append (step : S → A → S) (s : S) (as bs : List A) :
    runActs step s (as ++ bs) = runActs step (runActs step s as) bs :=
  List.foldl_append

@[simp] theorem along_nil (step : S → A → S) (ok : S → A → Prop) (s : S) : Along step ok s [] :=
  trivial

@[simp] theorem along_cons (step : S → A → S) (ok : S → A → Prop) (s : S) (a : A) (as : List A) :
    Along step ok s (a :: as) ↔ ok s a ∧ Along step ok (step s a) as := Iff.rfl

theorem along_append (step : S → A → S) (ok : S → A → Prop) (s : S) (as bs : List A) :
    Along step ok s (as ++ bs) ↔ Along step ok s as ∧ Along step ok (runActs step s as) bs := by
  induction as generalizing s with
  | nil => simp
  | cons a as ih => simp [ih,and_assoc]

@[simp] theorem along_true (step : S → A → S) (s : S) (as : List A) :
    Along step (fun _ _ => True) s as := by
  induction as generalizing s with
  | nil => trivial
  | cons a as ih => exact ⟨trivial,ih _⟩

theorem invariant_runActs {step : S → A → S} {ok : S → A → Prop} (inv : S → Prop)
    (hstep : ∀ s a, inv s → ok s a → inv (step s a)) {s : S} {as : List A} (h : inv s)
    (hok : Along step ok s as) : inv (runActs step s as) := by
  induction as generalizing s with
  | nil => exact h
  | cons a as ih => exact ih (hstep s a h hok.1) hok.2

theorem Along.at {step : S → A → S} {ok : S → A → Prop} {s : S} {as bs : List A} {a : A}
    (h : Along step ok s (as ++ a :: bs)) : ok (runActs step s as) a :=
  ((along_append step ok s as (a :: bs)).mp h).2.1

theorem along_of_at {step : S → A → S} {ok : S → A → Prop} {s : S} {as : List A}
    (h : ∀ before a after, as = before ++ a :: after → ok (runActs step s before) a) :
    Along step ok s as := by
  induction as generalizing s with
  | nil => trivial
  | cons a as ih =>
    refine ⟨h [] a as rfl,ih ?_⟩
    intro before b after he
    exact h (a :: before) b after (by rw [he]; rfl)

/-- In the states of an invariant one condition can take the place of another along a run. -/
theorem Along.imp {step : S → A → S} {ok ok' : S → A → Prop} (inv : S → Prop)
    (hstep : ∀ s a, inv s → ok s a → inv (step s a)) (himp : ∀ s a, inv s → ok s a → ok' s a)
    {s : S} {as : List A} (h : inv s) (hok : Along step ok s as) : Along step ok' s as := by
  induction as generalizing s with
  | nil => trivial
  | cons a as ih => exact ⟨himp s a h hok.1,ih (hstep s a h hok.1) hok.2⟩

end WeirdVault.Framework
