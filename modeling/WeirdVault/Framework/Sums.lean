import Mathlib.Algebra.Order.Ring.Nat
import WeirdVault.Framework.Table

/-!
# Sums over a table

What a write does to the sum of a quantity over the rows: the new row comes in and the row it
replaces goes out.
-/

namespace WeirdVault.Framework.Table

variable {κ τ : Type} {key : τ → κ}

def sum (t : Table key) (f : τ → Nat) : Nat := (t.rows.map f).sum

@[simp] theorem sum_empty (f : τ → Nat) : (empty key).sum f = 0 := rfl

theorem sum_congr {t : Table key} {f g : τ → Nat} (h : ∀ r ∈ t.rows, f r = g r) :
    t.sum f = t.sum g := by
  have hmap : t.rows.map f = t.rows.map g := List.map_congr_left h
  rw [sum,hmap,sum]

theorem sum_eq_zero {t : Table key} {f : τ → Nat} (h : ∀ r ∈ t.rows, f r = 0) : t.sum f = 0 := by
  have hzero := sum_congr (g := fun _ => 0) h
  rw [hzero,sum]
  simp

theorem sum_le_sum {t : Table key} {f g : τ → Nat} (hle : ∀ r ∈ t.rows, f r ≤ g r) :
    t.sum f ≤ t.sum g := by
  obtain ⟨rows,nodup⟩ := t
  simp only [sum]
  have h : ∀ r ∈ rows, f r ≤ g r := hle
  clear hle nodup
  induction rows with
  | nil => exact Nat.le_refl _
  | cons x xs ih =>
    have hx := h x List.mem_cons_self
    have hxs := ih (fun r hr => h r (List.mem_cons_of_mem x hr))
    simp only [List.map_cons,List.sum_cons]
    omega

theorem sum_ite (t : Table key) (p : τ → Bool) :
    t.sum (fun r => if p r then 1 else 0) = t.rows.countP p := by
  obtain ⟨rows,nodup⟩ := t
  simp only [sum]
  clear nodup
  induction rows with
  | nil => rfl
  | cons x xs ih =>
    rw [List.map_cons,List.sum_cons,ih,List.countP_cons]
    omega

theorem sum_one (t : Table key) : t.sum (fun _ => 1) = t.rows.length := by
  have hone := sum_ite t (fun _ => true)
  simpa using hone

variable [DecidableEq κ]

def at? (t : Table key) (k : κ) (f : τ → Nat) : Nat := (t.get? k).elim 0 f

theorem at?_of_some {t : Table key} {k : κ} {r : τ} (h : t.get? k = some r) (f : τ → Nat) :
    t.at? k f = f r := by
  rw [at?,h,Option.elim_some]

theorem at?_of_none {t : Table key} {k : κ} (h : t.get? k = none) (f : τ → Nat) :
    t.at? k f = 0 := by
  rw [at?,h,Option.elim_none]

theorem sum_put (t : Table key) (r : τ) (f : τ → Nat) :
    (t.put r).sum f + t.at? (key r) f = t.sum f + f r := by
  obtain ⟨rows,nodup⟩ := t
  simp only [sum,at?,put,get?]
  clear nodup
  induction rows with
  | nil => simp [putRow]
  | cons x xs ih =>
    by_cases h : key x = key r
    · simp only [putRow,if_pos h,List.map_cons,List.sum_cons,List.find?_cons,decide_eq_true h,
        Option.elim_some]
      omega
    · simp only [putRow,if_neg h,List.map_cons,List.sum_cons,List.find?_cons,decide_eq_false h]
      omega

theorem sum_put_new {t : Table key} {r : τ} (h : t.get? (key r) = none) (f : τ → Nat) :
    (t.put r).sum f = t.sum f + f r := by
  have hput := sum_put t r f
  rw [at?_of_none h] at hput
  omega

theorem sum_put_old {t : Table key} {r old : τ} (h : t.get? (key r) = some old) (f : τ → Nat) :
    (t.put r).sum f + f old = t.sum f + f r := by
  have hput := sum_put t r f
  rwa [at?_of_some h] at hput

private theorem sum_filter_ne (rows : List τ) (k : κ) (f : τ → Nat) (h : (rows.map key).Nodup) :
    ((rows.filter (fun x => key x ≠ k)).map f).sum +
      (rows.find? (fun x => key x = k)).elim 0 f = (rows.map f).sum := by
  induction rows with
  | nil => rfl
  | cons x xs ih =>
    have hx := (List.nodup_cons.mp h).1
    have ih := ih (List.nodup_cons.mp h).2
    by_cases hk : key x = k
    · have hnone : xs.find? (fun y => key y = k) = none := by
        rw [List.find?_eq_none]
        intro y hy he
        apply hx
        rw [hk,← of_decide_eq_true he]
        exact List.mem_map_of_mem hy
      rw [hnone,Option.elim_none] at ih
      simp only [List.filter_cons,hk,ne_eq,not_true_eq_false,decide_false,Bool.false_eq_true,
        if_false,List.find?_cons,decide_true,Option.elim_some,List.map_cons,List.sum_cons]
      simp only [ne_eq] at ih
      omega
    · simp only [List.filter_cons,hk,ne_eq,not_false_eq_true,decide_true,if_true,
        List.find?_cons,decide_false,List.map_cons,List.sum_cons]
      simp only [ne_eq] at ih
      omega

theorem sum_erase (t : Table key) (k : κ) (f : τ → Nat) :
    (t.erase k).sum f + t.at? k f = t.sum f :=
  sum_filter_ne t.rows k f t.nodup

theorem sum_erase_some {t : Table key} {k : κ} {r : τ} (h : t.get? k = some r) (f : τ → Nat) :
    (t.erase k).sum f + f r = t.sum f := by
  have herase := sum_erase t k f
  rwa [at?_of_some h] at herase

theorem le_sum {t : Table key} {k : κ} {r : τ} (h : t.get? k = some r) (f : τ → Nat) :
    f r ≤ t.sum f := by
  have herase := sum_erase_some h f
  omega

end WeirdVault.Framework.Table
