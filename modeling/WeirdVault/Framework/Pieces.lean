import Mathlib.Data.List.Basic

/-!
# Machines that take data in pieces

A machine is told pieces of data and commands. It does not notice how data is cut, so two tellings
leave every machine in the same state exactly when they agree letter by letter.
-/

namespace WeirdVault.Framework

inductive Told (D C : Type) where
  | data (piece : List D)
  | command (c : C)
deriving DecidableEq

structure Machine (D C : Type) where
  State : Type
  data : State → List D → State
  command : State → C → State
  data_nil : ∀ s, data s [] = s
  data_append : ∀ s xs ys, data s (xs ++ ys) = data (data s xs) ys

variable {D C : Type}

namespace Machine

def hear (m : Machine D C) (s : m.State) : Told D C → m.State
  | .data piece => m.data s piece
  | .command c => m.command s c

def tell (m : Machine D C) (s : m.State) (told : List (Told D C)) : m.State := told.foldl m.hear s

def letter (m : Machine D C) (s : m.State) : D ⊕ C → m.State
  | .inl d => m.data s [d]
  | .inr c => m.command s c

end Machine

def letters (told : List (Told D C)) : List (D ⊕ C) :=
  told.flatMap fun
    | .data piece => piece.map .inl
    | .command c => [.inr c]

@[simp] theorem letters_nil : letters ([] : List (Told D C)) = [] := rfl

@[simp] theorem letters_data (piece : List D) (told : List (Told D C)) :
    letters (.data piece :: told) = piece.map .inl ++ letters told := rfl

@[simp] theorem letters_command (c : C) (told : List (Told D C)) :
    letters (.command c :: told) = .inr c :: letters told := rfl

@[simp] theorem letters_append (told told' : List (Told D C)) :
    letters (told ++ told') = letters told ++ letters told' := List.flatMap_append

private theorem data_eq_foldl (m : Machine D C) (s : m.State) (piece : List D) :
    m.data s piece = (piece.map Sum.inl).foldl m.letter s := by
  induction piece generalizing s with
  | nil => exact m.data_nil s
  | cons d piece ih =>
    rw [List.map_cons,List.foldl_cons,← ih]
    exact m.data_append s [d] piece

theorem Machine.tell_eq_letters (m : Machine D C) (s : m.State) (told : List (Told D C)) :
    m.tell s told = (letters told).foldl m.letter s := by
  induction told generalizing s with
  | nil => rfl
  | cons t told ih =>
    have hstep : m.tell s (t :: told) = m.tell (m.hear s t) told := rfl
    rw [hstep,ih]
    cases t with
    | data piece => rw [letters_data,List.foldl_append,← data_eq_foldl]; rfl
    | command c => rfl

abbrev transcriber (D C : Type) : Machine D C where
  State := List (D ⊕ C)
  data s piece := s ++ piece.map .inl
  command s c := s ++ [.inr c]
  data_nil := by simp
  data_append := by simp

private theorem foldl_snoc (s word : List (D ⊕ C)) :
    word.foldl (fun s x => s ++ [x]) s = s ++ word := by
  induction word generalizing s with
  | nil => exact (List.append_nil s).symm
  | cons x word ih => rw [List.foldl_cons,ih,List.append_assoc]; rfl

private theorem transcriber_tell (told : List (Told D C)) :
    (transcriber D C).tell ([] : List (D ⊕ C)) told = letters told := by
  have hletter : (transcriber D C).letter = fun (s : List (D ⊕ C)) x => s ++ [x] := by
    funext s x
    cases x <;> rfl
  have htell : (transcriber D C).tell ([] : List (D ⊕ C)) told =
      (letters told).foldl (fun (s : List (D ⊕ C)) x => s ++ [x]) ([] : List (D ⊕ C)) := by
    rw [Machine.tell_eq_letters,hletter]
  exact htell.trans (foldl_snoc [] _)

theorem same_state_iff {told told' : List (Told D C)} :
    (∀ (m : Machine D C) (s : m.State), m.tell s told = m.tell s told') ↔
      letters told = letters told' := by
  constructor
  · intro h
    have he := h (transcriber D C) ([] : List (D ⊕ C))
    exact (transcriber_tell told).symm.trans (he.trans (transcriber_tell told'))
  · intro h m s
    rw [m.tell_eq_letters,m.tell_eq_letters,h]

end WeirdVault.Framework
