import Mathlib.Data.List.Nodup

/-!
# Keyed tables

A list of rows with pairwise distinct keys, in the order in which the keys were first put.
This is what a JavaScript `Map` or object keyed by strings is, and what a keyed object store is
up to the order of its rows.
-/

namespace WeirdVault.Framework

/-- Rows with pairwise distinct keys, oldest key first. -/
structure Table {κ τ : Type} (key : τ → κ) where
  rows : List τ
  nodup : (rows.map key).Nodup

namespace Table

variable {κ τ : Type} {key : τ → κ}

instance [DecidableEq τ] : DecidableEq (Table key) := fun a b =>
  decidable_of_iff (a.rows = b.rows) (by cases a; cases b; simp)

def empty (key : τ → κ) : Table key := ⟨[],List.nodup_nil⟩

instance : Inhabited (Table key) := ⟨empty key⟩

variable [DecidableEq κ]

def putRow (key : τ → κ) (r : τ) : List τ → List τ
  | [] => [r]
  | x :: xs => if key x = key r then r :: xs else x :: putRow key r xs

theorem mem_keys_putRow (r : τ) (l : List τ) (k : κ) :
    k ∈ (putRow key r l).map key ↔ k = key r ∨ k ∈ l.map key := by
  induction l with
  | nil => simp [putRow]
  | cons x xs ih =>
    by_cases h : key x = key r
    · simp [putRow,h]
    · simp only [putRow,h,if_false,List.map_cons,List.mem_cons,ih]
      tauto

theorem nodup_putRow (r : τ) (l : List τ) (h : (l.map key).Nodup) :
    ((putRow key r l).map key).Nodup := by
  induction l with
  | nil => simp [putRow]
  | cons x xs ih =>
    have hx := (List.nodup_cons.mp h).1
    have hxs := (List.nodup_cons.mp h).2
    by_cases he : key x = key r
    · simpa [putRow,he,he ▸ hx] using hxs
    · simp only [putRow,he,if_false,List.map_cons]
      refine List.nodup_cons.mpr ⟨?_,ih hxs⟩
      rw [mem_keys_putRow]
      rintro (h | h)
      · exact he h
      · exact hx h

theorem find?_putRow (r : τ) (l : List τ) (k : κ) :
    (putRow key r l).find? (fun x => key x = k) =
      if key r = k then some r else l.find? (fun x => key x = k) := by
  induction l with
  | nil => by_cases h : key r = k <;> simp [putRow,h]
  | cons x xs ih =>
    by_cases he : key x = key r <;> by_cases hk : key r = k <;> by_cases hx : key x = k <;>
      simp_all [putRow]

def get? (t : Table key) (k : κ) : Option τ := t.rows.find? (fun x => key x = k)

def put (t : Table key) (r : τ) : Table key := ⟨putRow key r t.rows,nodup_putRow r t.rows t.nodup⟩

def erase (t : Table key) (k : κ) : Table key :=
  ⟨t.rows.filter (fun x => key x ≠ k),t.nodup.sublist (List.filter_sublist.map key)⟩

def keep (t : Table key) (p : τ → Bool) : Table key :=
  ⟨t.rows.filter p,t.nodup.sublist (List.filter_sublist.map key)⟩

def adjust (t : Table key) (f : τ → τ) (hf : ∀ x, key (f x) = key x) : Table key :=
  ⟨t.rows.map f,by
    have hkeys : (t.rows.map f).map key = t.rows.map key := by simp [hf]
    rw [hkeys]
    exact t.nodup⟩

def putAll (t : Table key) (rs : List τ) : Table key := rs.foldl put t

@[simp] theorem get?_empty (k : κ) : (empty key).get? k = none := rfl

theorem key_of_get? {t : Table key} {k : κ} {r : τ} (h : t.get? k = some r) : key r = k := by
  simpa using List.find?_some h

theorem mem_of_get? {t : Table key} {k : κ} {r : τ} (h : t.get? k = some r) : r ∈ t.rows :=
  List.mem_of_find?_eq_some h

theorem get?_of_mem {t : Table key} {r : τ} (h : r ∈ t.rows) : t.get? (key r) = some r := by
  obtain ⟨rows,nodup⟩ := t
  induction rows with
  | nil => simp at h
  | cons x xs ih =>
    have hx := (List.nodup_cons.mp nodup).1
    have hxs := (List.nodup_cons.mp nodup).2
    rcases List.mem_cons.mp h with rfl | h
    · simp [get?]
    · have hne : key x ≠ key r := fun he => hx (he ▸ List.mem_map_of_mem h)
      simpa [get?,hne] using ih hxs h

theorem mem_rows_iff {t : Table key} {r : τ} : r ∈ t.rows ↔ t.get? (key r) = some r :=
  ⟨get?_of_mem,mem_of_get?⟩

theorem get?_eq_some_iff {t : Table key} {k : κ} {r : τ} :
    t.get? k = some r ↔ r ∈ t.rows ∧ key r = k := by
  constructor
  · intro h
    exact ⟨mem_of_get? h,key_of_get? h⟩
  · rintro ⟨h,rfl⟩
    exact get?_of_mem h

theorem get?_eq_none_iff {t : Table key} {k : κ} : t.get? k = none ↔ ∀ r ∈ t.rows, key r ≠ k := by
  simp [get?]

theorem get?_put (t : Table key) (r : τ) (k : κ) :
    (t.put r).get? k = if key r = k then some r else t.get? k :=
  find?_putRow r t.rows k

@[simp] theorem get?_put_self (t : Table key) (r : τ) : (t.put r).get? (key r) = some r := by
  simp [get?_put]

theorem get?_put_of_ne (t : Table key) {r : τ} {k : κ} (h : key r ≠ k) :
    (t.put r).get? k = t.get? k := by
  simp [get?_put,h]

theorem get?_erase (t : Table key) (j k : κ) :
    (t.erase j).get? k = if j = k then none else t.get? k := by
  by_cases h : j = k
  · subst h
    simp [get?,erase]
  · simp only [get?,erase,h,if_false,List.find?_filter]
    congr 1
    funext x
    by_cases hx : key x = k
    · simp [hx,Ne.symm h]
    · simp [hx]

@[simp] theorem get?_erase_self (t : Table key) (k : κ) : (t.erase k).get? k = none := by
  simp [get?_erase]

theorem get?_keep (t : Table key) (p : τ → Bool) (k : κ) :
    (t.keep p).get? k = (t.get? k).filter p := by
  obtain ⟨rows,nodup⟩ := t
  simp only [get?,keep]
  induction rows with
  | nil => rfl
  | cons x xs ih =>
    have hx := (List.nodup_cons.mp nodup).1
    have ih := ih (List.nodup_cons.mp nodup).2
    by_cases hk : key x = k
    · subst hk
      have hnone : xs.find? (fun y => key y = key x) = none := by
        rw [List.find?_eq_none]
        intro y hy he
        exact hx (List.mem_map.mpr ⟨y,hy,by simpa using he⟩)
      by_cases hp : p x
      · simp [hp,Option.filter]
      · simp [hp,ih,hnone,Option.filter]
    · by_cases hp : p x
      · simpa [hp,hk] using ih
      · simpa [hp,hk] using ih

theorem get?_adjust (t : Table key) (f : τ → τ) (hf : ∀ x, key (f x) = key x) (k : κ) :
    (t.adjust f hf).get? k = (t.get? k).map f := by
  have hpred : (fun x => decide (key x = k)) ∘ f = fun x => decide (key x = k) := by
    funext x
    simp [hf]
  rw [get?,adjust,List.find?_map,hpred,get?]

def update (t : Table key) (k : κ) (f : τ → τ) (hf : ∀ x, key (f x) = key x) : Table key :=
  t.adjust (fun x => if key x = k then f x else x) (by
    intro x
    split
    · exact hf x
    · rfl)

theorem get?_update (t : Table key) (j : κ) (f : τ → τ) (hf : ∀ x, key (f x) = key x) (k : κ) :
    (t.update j f hf).get? k = if k = j then (t.get? k).map f else t.get? k := by
  rw [update,get?_adjust]
  cases h : t.get? k with
  | none => simp
  | some x =>
    have hk := key_of_get? h
    simp only [Option.map_some,hk]
    split <;> rfl

theorem mem_rows_put_iff {t : Table key} {r x : τ} :
    x ∈ (t.put r).rows ↔ x = r ∨ x ∈ t.rows ∧ key x ≠ key r := by
  rw [mem_rows_iff,get?_put]
  constructor
  · intro h
    split at h
    · exact Or.inl (Option.some.inj h).symm
    · rename_i hne
      exact Or.inr ⟨mem_of_get? h,Ne.symm hne⟩
  · rintro (rfl | ⟨h,hne⟩)
    · exact if_pos rfl
    · rw [if_neg (Ne.symm hne)]
      exact get?_of_mem h

theorem mem_rows_put {t : Table key} {r x : τ} (h : x ∈ (t.put r).rows) : x = r ∨ x ∈ t.rows :=
  (mem_rows_put_iff.mp h).imp_right And.left

theorem mem_rows_update {t : Table key} {k : κ} {f : τ → τ} {hf : ∀ x, key (f x) = key x} {x : τ} :
    x ∈ (t.update k f hf).rows ↔
      (∃ y ∈ t.rows, key y = k ∧ x = f y) ∨ x ∈ t.rows ∧ key x ≠ k := by
  constructor
  · intro h
    obtain ⟨y,hy,rfl⟩ := List.mem_map.mp h
    by_cases hk : key y = k
    · exact Or.inl ⟨y,hy,hk,if_pos hk⟩
    · rw [if_neg hk]
      exact Or.inr ⟨hy,hk⟩
  · rintro (⟨y,hy,hk,rfl⟩ | ⟨h,hk⟩)
    · exact List.mem_map.mpr ⟨y,hy,if_pos hk⟩
    · exact List.mem_map.mpr ⟨x,h,if_neg hk⟩

theorem mem_rows_erase {t : Table key} {k : κ} {x : τ} :
    x ∈ (t.erase k).rows ↔ x ∈ t.rows ∧ key x ≠ k := by
  simp [erase]

private theorem putRow_eq_self (r : τ) (l : List τ) (hn : (l.map key).Nodup) (h : r ∈ l) :
    putRow key r l = l := by
  induction l with
  | nil => simp at h
  | cons x xs ih =>
    have hx := (List.nodup_cons.mp hn).1
    rcases List.mem_cons.mp h with rfl | h
    · simp [putRow]
    · have hne : key x ≠ key r := fun he => hx (he ▸ List.mem_map_of_mem h)
      simp [putRow,hne,ih (List.nodup_cons.mp hn).2 h]

theorem put_eq_self {t : Table key} {r : τ} (h : t.get? (key r) = some r) : t.put r = t := by
  obtain ⟨rows,nodup⟩ := t
  have he := putRow_eq_self r rows nodup (mem_of_get? h)
  simp only [put,he]

theorem erase_eq_self {t : Table key} {k : κ} (h : t.get? k = none) : t.erase k = t := by
  have hall : t.rows.filter (fun x => key x ≠ k) = t.rows := by
    rw [List.filter_eq_self]
    intro x hx
    simpa using get?_eq_none_iff.mp h x hx
  simp only [erase,hall]

private theorem putRow_append (r : τ) (l : List τ) (h : ∀ x ∈ l, key x ≠ key r) :
    putRow key r l = l ++ [r] := by
  induction l with
  | nil => rfl
  | cons x xs ih =>
    simp [putRow,h x (by simp),ih (fun y hy => h y (by simp [hy]))]

theorem rows_put_new {t : Table key} {r : τ} (h : t.get? (key r) = none) :
    (t.put r).rows = t.rows ++ [r] :=
  putRow_append r t.rows (get?_eq_none_iff.mp h)

@[simp] theorem putAll_nil (t : Table key) : t.putAll [] = t := rfl

@[simp] theorem putAll_cons (t : Table key) (r : τ) (rs : List τ) :
    t.putAll (r :: rs) = (t.put r).putAll rs := rfl

theorem get?_putAll_of_notMem (t : Table key) (rs : List τ) {k : κ} (h : ∀ r ∈ rs, key r ≠ k) :
    (t.putAll rs).get? k = t.get? k := by
  induction rs generalizing t with
  | nil => rfl
  | cons r rs ih =>
    rw [putAll_cons,ih _ (fun x hx => h x (by simp [hx])),get?_put_of_ne _ (h r (by simp))]

theorem get?_putAll_of_mem (t : Table key) (rs : List τ) (hn : (rs.map key).Nodup) {r : τ}
    (h : r ∈ rs) : (t.putAll rs).get? (key r) = some r := by
  induction rs generalizing t with
  | nil => simp at h
  | cons x xs ih =>
    have hx := (List.nodup_cons.mp hn).1
    rcases List.mem_cons.mp h with rfl | h
    · rw [putAll_cons,get?_putAll_of_notMem _ _ (fun y hy he => hx (List.mem_map.mpr ⟨y,hy,he⟩))]
      exact get?_put_self t r
    · rw [putAll_cons]
      exact ih _ (List.nodup_cons.mp hn).2 h

theorem mem_rows_putAll {t : Table key} {rs : List τ} {x : τ} (h : x ∈ (t.putAll rs).rows) :
    x ∈ rs ∨ x ∈ t.rows ∧ ∀ r ∈ rs, key r ≠ key x := by
  by_cases hk : ∀ r ∈ rs, key r ≠ key x
  · have hget := get?_of_mem h
    rw [get?_putAll_of_notMem t rs hk] at hget
    exact Or.inr ⟨mem_of_get? hget,hk⟩
  · apply Or.inl
    induction rs generalizing t with
    | nil => simp at hk
    | cons r rs ih =>
      by_cases hrs : ∀ r ∈ rs, key r ≠ key x
      · have hget := get?_of_mem h
        rw [putAll_cons,get?_putAll_of_notMem _ rs hrs,get?_put] at hget
        have hr : key r = key x := by
          by_contra hne
          apply hk
          intro y hy
          rcases List.mem_cons.mp hy with rfl | hy
          · exact hne
          · exact hrs y hy
        rw [if_pos hr] at hget
        rw [Option.some.inj hget]
        exact List.mem_cons_self
      · exact List.mem_cons_of_mem r (ih h hrs)

theorem mem_keys_putAll (t : Table key) (rs : List τ) (k : κ) :
    k ∈ (t.putAll rs).rows.map key ↔ k ∈ t.rows.map key ∨ k ∈ rs.map key := by
  induction rs generalizing t with
  | nil => simp
  | cons r rs ih =>
    rw [putAll_cons,ih,put,mem_keys_putRow,List.map_cons,List.mem_cons]
    tauto

def eraseAll (t : Table key) (ks : List κ) : Table key := ks.foldl erase t

@[simp] theorem eraseAll_nil (t : Table key) : t.eraseAll [] = t := rfl

@[simp] theorem eraseAll_cons (t : Table key) (k : κ) (ks : List κ) :
    t.eraseAll (k :: ks) = (t.erase k).eraseAll ks := rfl

theorem get?_eraseAll (t : Table key) (ks : List κ) (k : κ) :
    (t.eraseAll ks).get? k = if k ∈ ks then none else t.get? k := by
  induction ks generalizing t with
  | nil => simp
  | cons j js ih =>
    rw [eraseAll_cons,ih,get?_erase]
    by_cases hj : j = k
    · simp [hj]
    · simp [hj,Ne.symm hj]

end Table

end WeirdVault.Framework
