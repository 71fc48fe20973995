import Mathlib.Algebra.Order.Ring.Nat
import Mathlib.Data.List.Basic

/-!
# Joined parts

A sequence of parts joined by a separator can be cut apart again in one way only, as soon as one
side is known to have no separator inside a part and the number of parts is known.
-/

namespace WeirdVault.Framework

variable {α : Type} [DecidableEq α] {sep : α}

private theorem count_intercalate (x : List α) (xs : List (List α)) :
    ([sep].intercalate (x :: xs)).count sep =
      ((x :: xs).map (List.count sep)).sum + xs.length := by
  induction xs generalizing x with
  | nil => simp
  | cons y ys ih =>
    rw [List.intercalate_cons_cons,List.count_append,ih y]
    simp [List.count_append]
    omega

theorem mem_intercalate {α : Type} {sep a : α} {xs : List (List α)}
    (h : a ∈ [sep].intercalate xs) : a = sep ∨ ∃ x ∈ xs, a ∈ x := by
  induction xs with
  | nil => cases h
  | cons x xs ih =>
    cases xs with
    | nil =>
      rw [List.intercalate_singleton] at h
      exact Or.inr ⟨x,by simp,h⟩
    | cons y ys =>
      rw [List.intercalate_cons_cons,List.mem_append,List.mem_append,List.mem_singleton] at h
      rcases h with (hx | rfl) | hrest
      · exact Or.inr ⟨x,by simp,hx⟩
      · exact Or.inl rfl
      · rcases ih hrest with rfl | ⟨z,hz,ha⟩
        · exact Or.inl rfl
        · exact Or.inr ⟨z,List.mem_cons_of_mem x hz,ha⟩

theorem intercalate_unique {xs ys : List (List α)} (hlen : xs.length = ys.length)
    (hx : ∀ l ∈ xs, sep ∉ l) (h : [sep].intercalate xs = [sep].intercalate ys) : xs = ys := by
  rcases xs with _ | ⟨x,xs⟩
  · exact (List.length_eq_zero_iff.mp hlen.symm).symm
  rcases ys with _ | ⟨y,ys⟩
  · simp at hlen
  have hzero : ((x :: xs).map (List.count sep)).sum = 0 := by
    rw [List.sum_eq_zero_iff_forall_eq_nat]
    intro n hn
    obtain ⟨l,hl,rfl⟩ := List.mem_map.mp hn
    exact List.count_eq_zero.mpr (hx l hl)
  have hcount := congrArg (List.count sep) h
  rw [count_intercalate,count_intercalate,hzero] at hcount
  have hy : ∀ l ∈ y :: ys, sep ∉ l := by
    intro l hl
    have hsum : ((y :: ys).map (List.count sep)).sum = 0 := by
      simp only [List.length_cons] at hlen
      omega
    exact List.count_eq_zero.mp
      (List.sum_eq_zero_iff_forall_eq_nat.mp hsum _ (List.mem_map.mpr ⟨l,hl,rfl⟩))
  rw [← List.splitOn_intercalate sep hx (by simp),h,List.splitOn_intercalate sep hy (by simp)]

end WeirdVault.Framework
