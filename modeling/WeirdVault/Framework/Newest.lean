import Mathlib.Order.Lattice
import WeirdVault.Framework.Table

/-!
# The newest row of each key

Rows are put one after the other into a table that keeps, for each key, the row with the greatest
stamp, and of several such rows the first.
-/

namespace WeirdVault.Framework.Table

variable {κ τ θ : Type} {key : τ → κ} [DecidableEq κ] [LinearOrder θ] (stamp : τ → θ)

def keepNewest (t : Table key) (x : τ) : Table key :=
  match t.get? (key x) with
  | none => t.put x
  | some old => if stamp old < stamp x then t.put x else t

def keepAll (t : Table key) (xs : List τ) : Table key := xs.foldl (keepNewest stamp) t

@[simp] theorem keepAll_nil (t : Table key) : t.keepAll stamp [] = t := rfl

@[simp] theorem keepAll_cons (t : Table key) (x : τ) (xs : List τ) :
    t.keepAll stamp (x :: xs) = (t.keepNewest stamp x).keepAll stamp xs := rfl

theorem keepAll_append (t : Table key) (xs ys : List τ) :
    t.keepAll stamp (xs ++ ys) = (t.keepAll stamp xs).keepAll stamp ys :=
  List.foldl_append

theorem keepNewest_cases (t : Table key) (x : τ) :
    (t.keepNewest stamp x = t.put x ∧ ∀ old, t.get? (key x) = some old → stamp old < stamp x) ∨
      (t.keepNewest stamp x = t ∧ ∃ old, t.get? (key x) = some old ∧ stamp x ≤ stamp old) := by
  rcases h : t.get? (key x) with _ | old
  · exact Or.inl ⟨by simp only [keepNewest,h],by simp⟩
  · by_cases hlt : stamp old < stamp x
    · apply Or.inl
      refine ⟨by simp only [keepNewest,h,hlt,if_true],?_⟩
      intro old' hold'
      obtain rfl := Option.some.inj hold'
      exact hlt
    · exact Or.inr ⟨by simp only [keepNewest,h,hlt,if_false],old,rfl,not_lt.mp hlt⟩

theorem mem_rows_keepAll {t : Table key} {xs : List τ} {r : τ}
    (h : r ∈ (t.keepAll stamp xs).rows) : r ∈ t.rows ∨ r ∈ xs := by
  induction xs generalizing t with
  | nil => exact Or.inl h
  | cons x xs ih =>
    rcases ih h with hr | hr
    · rcases keepNewest_cases stamp t x with ⟨he,-⟩ | ⟨he,-⟩
      · rw [he] at hr
        rcases mem_rows_put hr with rfl | hr
        · exact Or.inr List.mem_cons_self
        · exact Or.inl hr
      · rw [he] at hr
        exact Or.inl hr
    · exact Or.inr (List.mem_cons_of_mem x hr)

private theorem get?_keepNewest_ge (t : Table key) (x : τ) {k : κ} {r : τ}
    (h : t.get? k = some r) : ∃ r', (t.keepNewest stamp x).get? k = some r' ∧ stamp r ≤ stamp r' := by
  rcases keepNewest_cases stamp t x with ⟨he,hlt⟩ | ⟨he,-⟩
  · rw [he]
    by_cases hk : key x = k
    · subst hk
      exact ⟨x,get?_put_self t x,le_of_lt (hlt r h)⟩
    · exact ⟨r,by rw [get?_put_of_ne t hk,h],le_refl _⟩
  · rw [he]
    exact ⟨r,h,le_refl _⟩

private theorem get?_keepNewest_self (t : Table key) (x : τ) :
    ∃ r, (t.keepNewest stamp x).get? (key x) = some r ∧ stamp x ≤ stamp r := by
  rcases keepNewest_cases stamp t x with ⟨he,-⟩ | ⟨he,old,hold,hle⟩
  · rw [he]
    exact ⟨x,get?_put_self t x,le_refl _⟩
  · rw [he]
    exact ⟨old,hold,hle⟩

theorem get?_keepAll_ge_of_get? (t : Table key) (xs : List τ) {k : κ} {r : τ}
    (h : t.get? k = some r) : ∃ r', (t.keepAll stamp xs).get? k = some r' ∧ stamp r ≤ stamp r' := by
  induction xs generalizing t r with
  | nil => exact ⟨r,h,le_refl _⟩
  | cons x xs ih =>
    obtain ⟨r',hr',hle⟩ := get?_keepNewest_ge stamp t x h
    obtain ⟨r'',hr'',hle'⟩ := ih _ hr'
    exact ⟨r'',hr'',le_trans hle hle'⟩

theorem get?_keepAll_ge_of_mem (t : Table key) (xs : List τ) {x : τ} (h : x ∈ xs) :
    ∃ r, (t.keepAll stamp xs).get? (key x) = some r ∧ stamp x ≤ stamp r := by
  induction xs generalizing t with
  | nil => simp at h
  | cons y ys ih =>
    rcases List.mem_cons.mp h with rfl | h
    · obtain ⟨r,hr,hle⟩ := get?_keepNewest_self stamp t x
      obtain ⟨r',hr',hle'⟩ := get?_keepAll_ge_of_get? stamp _ ys hr
      exact ⟨r',hr',le_trans hle hle'⟩
    · exact ih _ h

private theorem get?_keepNewest_of_ne (t : Table key) {x : τ} {k : κ} (h : key x ≠ k) :
    (t.keepNewest stamp x).get? k = t.get? k := by
  rcases keepNewest_cases stamp t x with ⟨he,-⟩ | ⟨he,-⟩
  · rw [he,get?_put_of_ne t h]
  · rw [he]

theorem get?_keepAll_of_notMem (t : Table key) (xs : List τ) {k : κ} (h : ∀ x ∈ xs, key x ≠ k) :
    (t.keepAll stamp xs).get? k = t.get? k := by
  induction xs generalizing t with
  | nil => rfl
  | cons x xs ih =>
    rw [keepAll_cons,ih _ (fun y hy => h y (List.mem_cons_of_mem x hy)),
      get?_keepNewest_of_ne stamp t (h x List.mem_cons_self)]

private theorem get?_keepNewest_congr {t u : Table key} {x : τ} (h : t.get? (key x) = u.get? (key x)) :
    (t.keepNewest stamp x).get? (key x) = (u.keepNewest stamp x).get? (key x) := by
  rcases ht : t.get? (key x) with _ | old
  · have hu := h.symm.trans ht
    simp only [keepNewest,ht,hu,get?_put_self]
  · have hu := h.symm.trans ht
    by_cases hlt : stamp old < stamp x
    · simp only [keepNewest,ht,hu,hlt,if_true,get?_put_self]
    · simp only [keepNewest,ht,hu,hlt,if_false]

theorem get?_keepAll_of_mem (t : Table key) (xs : List τ) (hn : (xs.map key).Nodup) {x : τ}
    (h : x ∈ xs) : (t.keepAll stamp xs).get? (key x) = (t.keepNewest stamp x).get? (key x) := by
  induction xs generalizing t with
  | nil => simp at h
  | cons y ys ih =>
    have hy := (List.nodup_cons.mp hn).1
    rcases List.mem_cons.mp h with rfl | h
    · have hne : ∀ z ∈ ys, key z ≠ key x := fun z hz he => hy (he ▸ List.mem_map_of_mem hz)
      rw [keepAll_cons,get?_keepAll_of_notMem stamp _ ys hne]
    · have hne : key y ≠ key x := fun he => hy (he ▸ List.mem_map_of_mem h)
      have hsame := get?_keepNewest_of_ne stamp t hne
      rw [keepAll_cons,ih _ (List.nodup_cons.mp hn).2 h]
      exact get?_keepNewest_congr stamp hsame

theorem get?_keepAll_perm (t : Table key) {xs ys : List τ} (hn : (xs.map key).Nodup)
    (h : xs.Perm ys) (k : κ) : (t.keepAll stamp xs).get? k = (t.keepAll stamp ys).get? k := by
  by_cases hk : ∃ x ∈ xs, key x = k
  · obtain ⟨x,hx,rfl⟩ := hk
    have hn' : (ys.map key).Nodup := (h.map key).nodup_iff.mp hn
    rw [get?_keepAll_of_mem stamp t xs hn hx,get?_keepAll_of_mem stamp t ys hn' (h.mem_iff.mp hx)]
  · have hxs : ∀ x ∈ xs, key x ≠ k := fun x hx he => hk ⟨x,hx,he⟩
    have hys : ∀ x ∈ ys, key x ≠ k := fun x hx => hxs x (h.mem_iff.mpr hx)
    rw [get?_keepAll_of_notMem stamp t xs hxs,get?_keepAll_of_notMem stamp t ys hys]

end WeirdVault.Framework.Table
