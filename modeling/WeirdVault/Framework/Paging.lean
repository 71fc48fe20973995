import Mathlib.Data.List.Sort
import Mathlib.Data.List.Dedup

/-!
# Paging by a rounded cursor

Items are read newest first, a page at a time. The cursor of a page is the time of its last item,
rounded down, and the next page holds only what is older than the cursor. What is lost is what the
end of a page shares its rounded time with.
-/

namespace WeirdVault.Framework.Paging

variable {τ θ : Type} [LinearOrder θ] (time : τ → θ) (floor : θ → θ) (limit : ℕ)

/-- So many of the newest of the pool. -/
structure IsPage (pool page : List τ) : Prop where
  nodup : page.Nodup
  subset : page ⊆ pool
  sorted : page.Pairwise (fun x y => time y ≤ time x)
  length : page.length = min limit pool.length
  newest : ∀ x ∈ page, ∀ y ∈ pool, y ∉ page → time y ≤ time x

/-- A walk through the pool. Each page may leave out what is older than `since`, and the walk ends
with the first page that is not full. -/
inductive Walk (since : θ) : List τ → List (List τ) → Prop
  | last {pool listed page : List τ} : listed ⊆ pool → listed.Nodup →
      (∀ x ∈ pool, since ≤ time x → x ∈ listed) → IsPage time limit listed page →
      page.length ≠ limit → Walk since pool [page]
  | next {pool listed page : List τ} {pages : List (List τ)} {final : τ} : listed ⊆ pool →
      listed.Nodup → (∀ x ∈ pool, since ≤ time x → x ∈ listed) → IsPage time limit listed page →
      page.length = limit → page.getLast? = some final →
      Walk since (pool.filter (fun x => time x < floor (time final))) pages →
      Walk since pool (page :: pages)

def timesSince (since : θ) (pool : List τ) : List θ :=
  ((pool.filter (fun x => since ≤ time x)).map time).insertionSort (fun a b => b ≤ a)

def Separated (times : List θ) : Prop :=
  ∀ k a b, 0 < k → times[k*limit-1]? = some a → times[k*limit]? = some b → floor a ≠ floor b

section Separated

variable {θ : Type} {floor : θ → θ} {limit : ℕ} {l l' : List θ}

private theorem separated_of_length_le (h : l.length ≤ limit) : Separated floor limit l := by
  intro k a b hk _ hb
  have hlt := (List.getElem?_eq_some_iff.mp hb).1
  have hle : 1*limit ≤ k*limit := Nat.mul_le_mul_right limit hk
  omega

private theorem separated_append {t b : θ} (hlimit : 0 < limit) (hl : l.length = limit)
    (ht : l.getLast? = some t) (hb : l'.head? = some b) (hne : floor t ≠ floor b) :
    Separated floor limit (l ++ l') ↔ Separated floor limit l' := by
  have hright : ∀ {i j : ℕ}, limit ≤ i → i-limit = j → (l ++ l')[i]? = l'[j]? := by
    intro i j hi hj
    rw [List.getElem?_append_right (by omega),hl,hj]
  constructor
  · intro h k a c hk ha hc
    have hmul : (k+1)*limit = k*limit+limit := Nat.succ_mul k limit
    have hle : limit ≤ k*limit := Nat.le_mul_of_pos_left limit hk
    apply h (k+1) a c (Nat.succ_pos k)
    · rw [hright (j := k*limit-1) (by omega) (by omega)]
      exact ha
    · rw [hright (j := k*limit) (by omega) (by omega)]
      exact hc
  · intro h k a c hk ha hc
    by_cases hone : k = 1
    · subst hone
      have hlast : (l ++ l')[1*limit-1]? = some t := by
        rw [List.getElem?_append_left (by omega),← ht,List.getLast?_eq_getElem?]
        congr 1
        omega
      have hhead : (l ++ l')[1*limit]? = some b := by
        rw [hright (j := 0) (by omega) (by omega),← List.head?_eq_getElem?]
        exact hb
      obtain rfl := Option.some.inj (hlast.symm.trans ha)
      obtain rfl := Option.some.inj (hhead.symm.trans hc)
      exact hne
    · obtain ⟨m,rfl⟩ : ∃ m, k = m+1 := ⟨k-1,by omega⟩
      have hm : 0 < m := by omega
      have hmul : (m+1)*limit = m*limit+limit := Nat.succ_mul m limit
      have hle : limit ≤ m*limit := Nat.le_mul_of_pos_left limit hm
      apply h m a c hm
      · rw [← ha]
        exact (hright (by omega) (by omega)).symm
      · rw [← hc]
        exact (hright (by omega) (by omega)).symm

end Separated

section Sorted

variable {l l' : List θ}

private theorem pairwise_sorted (l : List θ) :
    (l.insertionSort (fun a b => b ≤ a)).Pairwise (fun a b => b ≤ a) := by
  have htotal : Std.Total (fun a b : θ => b ≤ a) := ⟨fun a b => le_total b a⟩
  have htrans : IsTrans θ (fun a b => b ≤ a) := ⟨fun _ _ _ hab hbc => le_trans hbc hab⟩
  exact List.pairwise_insertionSort _ l

private theorem sorted_unique (h : l.Perm l') (hl' : l'.Pairwise (fun a b => b ≤ a)) :
    l.insertionSort (fun a b => b ≤ a) = l' := by
  apply ((List.perm_insertionSort _ l).trans h).eq_of_pairwise
  · intro a b _ _ hab hba
    exact le_antisymm hba hab
  · exact pairwise_sorted l
  · exact hl'

end Sorted

variable {time floor limit} {since : θ} {pool : List τ}

theorem isPage_take {listed : List τ} (hn : pool.Nodup) (h : listed.Perm pool) :
    IsPage time limit pool
      ((listed.insertionSort (fun x y => time y ≤ time x)).take limit) := by
  have htotal : Std.Total (fun x y : τ => time y ≤ time x) := ⟨fun x y => le_total (time y) (time x)⟩
  have htrans : IsTrans τ (fun x y => time y ≤ time x) := ⟨fun _ _ _ hxy hyz => le_trans hyz hxy⟩
  have hperm := (List.perm_insertionSort (fun x y => time y ≤ time x) listed).trans h
  have hsorted := List.pairwise_insertionSort (fun x y => time y ≤ time x) listed
  generalize listed.insertionSort (fun x y => time y ≤ time x) = sorted at hperm hsorted
  refine ⟨?_,?_,?_,?_,?_⟩
  · exact (hperm.nodup_iff.mpr hn).sublist (List.take_sublist _ _)
  · intro x hx
    exact hperm.mem_iff.mp (List.mem_of_mem_take hx)
  · exact hsorted.sublist (List.take_sublist _ _)
  · rw [List.length_take,hperm.length_eq]
  · intro x hx y hy hno
    have hsplit : y ∈ sorted.take limit ++ sorted.drop limit := by
      rw [List.take_append_drop]
      exact hperm.mem_iff.mpr hy
    rcases List.mem_append.mp hsplit with hy | hy
    · exact absurd hy hno
    · rw [← List.take_append_drop limit sorted] at hsorted
      exact (List.pairwise_append.mp hsorted).2.2 x hx y hy

theorem walk_subset {pages : List (List τ)}
    (h : Walk time floor limit since pool pages) : pages.flatten ⊆ pool := by
  induction h with
  | last hsub _ _ hpage _ =>
    intro x hx
    simp only [List.flatten_cons,List.flatten_nil,List.append_nil] at hx
    exact hsub (hpage.subset hx)
  | next hsub _ _ hpage _ _ _ ih =>
    intro x hx
    rcases List.mem_append.mp hx with hx | hx
    · exact hsub (hpage.subset hx)
    · exact List.mem_of_mem_filter (ih hx)

section Page

variable [DecidableEq τ] {listed page : List τ}

private theorem mem_of_few (hsub : listed ⊆ pool) (hall : ∀ x ∈ pool, since ≤ time x → x ∈ listed)
    (hpage : IsPage time limit listed page)
    (hfew : (pool.filter (fun x => since ≤ time x)).length ≤ limit) :
    ∀ x ∈ pool, since ≤ time x → x ∈ page := by
  intro y hy hsince
  by_contra hno
  have hnodup : (y :: page).Nodup := List.nodup_cons.mpr ⟨hno,hpage.nodup⟩
  have hlisted := hall y hy hsince
  have hinside : y :: page ⊆ pool.filter (fun x => since ≤ time x) := by
    intro x hx
    rcases List.mem_cons.mp hx with rfl | hx
    · exact List.mem_filter.mpr ⟨hy,by simpa using hsince⟩
    · have hle := hpage.newest x hx y hlisted hno
      exact List.mem_filter.mpr ⟨hsub (hpage.subset hx),by simpa using le_trans hsince hle⟩
  have hcount := (List.subperm_of_subset hnodup hinside).length_le
  have htotal := (List.subperm_of_subset hnodup
    (List.cons_subset.mpr ⟨hlisted,hpage.subset⟩)).length_le
  have hlength := hpage.length
  simp only [List.length_cons] at hcount htotal
  omega

private theorem page_of_many (hn : pool.Nodup)
    (hall : ∀ x ∈ pool, since ≤ time x → x ∈ listed) (hpage : IsPage time limit listed page)
    (hmany : limit < (pool.filter (fun x => since ≤ time x)).length) :
    page.length = limit ∧ ∀ x ∈ page, since ≤ time x := by
  have hinside : pool.filter (fun x => since ≤ time x) ⊆ listed := by
    intro x hx
    obtain ⟨hx,hsince⟩ := List.mem_filter.mp hx
    exact hall x hx (by simpa using hsince)
  have hnodup := hn.filter (fun x => decide (since ≤ time x))
  have hcount := (List.subperm_of_subset hnodup hinside).length_le
  have hlength : page.length = limit := by
    rw [hpage.length]
    omega
  refine ⟨hlength,?_⟩
  intro x hx
  by_contra hno
  have hsub : pool.filter (fun x => since ≤ time x) ⊆ page := by
    intro y hy
    by_contra hmiss
    have hsince : since ≤ time y := by simpa using (List.mem_filter.mp hy).2
    exact hno (le_trans hsince (hpage.newest x hx y (hinside hy) hmiss))
  have hle := (List.subperm_of_subset hnodup hsub).length_le
  omega

private def beyond (time : τ → θ) (since : θ) (pool page : List τ) : List τ :=
  (pool.filter (fun x => since ≤ time x)).filter (fun x => x ∉ page)

private theorem mem_beyond {x : τ} :
    x ∈ beyond time since pool page ↔ x ∈ pool ∧ since ≤ time x ∧ x ∉ page := by
  simp only [beyond,List.mem_filter,decide_eq_true_eq,and_assoc]

private theorem timesSince_split (hn : pool.Nodup) (hsub : listed ⊆ pool)
    (hall : ∀ x ∈ pool, since ≤ time x → x ∈ listed) (hpage : IsPage time limit listed page)
    (hinside : ∀ x ∈ page, since ≤ time x) :
    timesSince time since pool = page.map time ++
      ((beyond time since pool page).map time).insertionSort (fun a b => b ≤ a) := by
  have hshown : ((pool.filter (fun x => since ≤ time x)).filter (fun x => x ∈ page)).Perm page := by
    rw [List.perm_ext_iff_of_nodup ((hn.filter _).filter _) hpage.nodup]
    intro x
    simp only [List.mem_filter,decide_eq_true_eq]
    constructor
    · intro h
      exact h.2
    · intro h
      exact ⟨⟨hsub (hpage.subset h),hinside x h⟩,h⟩
  have hperm : (pool.filter (fun x => since ≤ time x)).Perm
      (page ++ beyond time since pool page) := by
    have hsplit := List.filter_append_perm (fun x => decide (x ∈ page))
      (pool.filter (fun x => since ≤ time x))
    refine hsplit.symm.trans ?_
    apply hshown.append
    apply List.Perm.of_eq
    apply List.filter_congr
    intro x _
    simp
  apply sorted_unique
  · refine (hperm.map time).trans ?_
    rw [List.map_append]
    exact (List.perm_insertionSort _ _).symm.append_left _
  · rw [List.pairwise_append]
    refine ⟨List.pairwise_map.mpr hpage.sorted,pairwise_sorted _,?_⟩
    intro a ha b hb
    obtain ⟨x,hx,rfl⟩ := List.mem_map.mp ha
    obtain ⟨y,hy,rfl⟩ := List.mem_map.mp ((List.mem_insertionSort _).mp hb)
    obtain ⟨hy,hsince,hno⟩ := mem_beyond.mp hy
    exact hpage.newest x hx y (hall y hy hsince) hno

variable (hfloor : ∀ a b, floor a ≤ b ↔ floor a ≤ floor b)

include hfloor

private theorem older_of_ne {a b : θ} (hle : b ≤ a) (hne : floor a ≠ floor b) : b < floor a := by
  have hself : ∀ c, floor c ≤ c := fun c => (hfloor c c).mpr (le_refl _)
  have hmono : floor b ≤ floor a := (hfloor b a).mp ((hself b).trans hle)
  by_contra hno
  exact hne (le_antisymm ((hfloor a b).mp (not_lt.mp hno)) hmono)

theorem walk_complete_iff (hlimit : 0 < limit) {pages : List (List τ)} (hn : pool.Nodup)
    (h : Walk time floor limit since pool pages) :
    (∀ x ∈ pool, since ≤ time x → x ∈ pages.flatten) ↔
      Separated floor limit (timesSince time since pool) := by
  have hself : ∀ c, floor c ≤ c := fun c => (hfloor c c).mpr (le_refl _)
  induction h with
  | @last pool listed page hsub _ hall hpage hshort =>
    have hfew : (pool.filter (fun x => since ≤ time x)).length ≤ limit := by
      by_contra hmany
      exact hshort (page_of_many hn hall hpage (not_le.mp hmany)).1
    constructor
    · intro _
      apply separated_of_length_le
      rw [timesSince,List.length_insertionSort,List.length_map]
      exact hfew
    · intro _ x hx hsince
      simpa using mem_of_few hsub hall hpage hfew x hx hsince
  | @next pool listed page pages final hsub _ hall hpage hfull hfinal hwalk ih =>
    by_cases hfew : (pool.filter (fun x => since ≤ time x)).length ≤ limit
    · constructor
      · intro _
        apply separated_of_length_le
        rw [timesSince,List.length_insertionSort,List.length_map]
        exact hfew
      · intro _ x hx hsince
        exact List.mem_append_left _ (mem_of_few hsub hall hpage hfew x hx hsince)
    · have hinside := (page_of_many hn hall hpage (not_le.mp hfew)).2
      have hsplit := timesSince_split hn hsub hall hpage hinside
      have holdest : ∀ x ∈ page, time final ≤ time x := by
        intro x hx
        obtain ⟨front,rfl⟩ := List.getLast?_eq_some_iff.mp hfinal
        rcases List.mem_append.mp hx with hx | hx
        · exact (List.pairwise_append.mp hpage.sorted).2.2 x hx final (by simp)
        · rw [List.mem_singleton.mp hx]
      have hfinalMem : final ∈ page := List.mem_of_getLast? hfinal
      have hcount := congrArg List.length hsplit
      rw [timesSince,List.length_insertionSort,List.length_map,List.length_append,List.length_map,
        hfull] at hcount
      rcases hrest : ((beyond time since pool page).map time).insertionSort (fun a b => b ≤ a)
        with _ | ⟨b,tail⟩
      · rw [hrest,List.length_nil] at hcount
        omega
      · have hb : ∃ y ∈ beyond time since pool page, time y = b := by
          apply List.mem_map.mp
          rw [← List.mem_insertionSort (fun a b => b ≤ a),hrest]
          exact List.mem_cons_self
        obtain ⟨y,hy,hyb⟩ := hb
        obtain ⟨hypool,hysince,hyno⟩ := mem_beyond.mp hy
        have hyle := hpage.newest final hfinalMem y (hall y hypool hysince) hyno
        have hgreatest : ∀ x ∈ beyond time since pool page, time x ≤ b := by
          intro x hx
          have hsorted := pairwise_sorted ((beyond time since pool page).map time)
          have hmem : time x ∈ b :: tail := by
            rw [← hrest,List.mem_insertionSort]
            exact List.mem_map_of_mem hx
          rw [hrest] at hsorted
          rcases List.mem_cons.mp hmem with he | hmem
          · rw [he]
          · exact (List.pairwise_cons.mp hsorted).1 _ hmem
        have hlast : (page.map time).getLast? = some (time final) := by
          rw [List.getLast?_map,hfinal]
          rfl
        have hlength : (page.map time).length = limit := by rw [List.length_map,hfull]
        by_cases htie : floor (time final) = floor b
        · -- The newest of the rest is below the page and not below the cursor.
          constructor
          · intro hfound
            rcases List.mem_append.mp (hfound y hypool hysince) with hshown | hlater
            · exact absurd hshown hyno
            · have hlt := (List.mem_filter.mp (walk_subset hwalk hlater)).2
              have hge : floor (time final) ≤ time y := by
                rw [htie,← hyb]
                exact hself _
              exact absurd (of_decide_eq_true hlt) (not_lt.mpr hge)
          · intro hsep
            rw [hsplit,hrest] at hsep
            have hone := hsep 1 (time final) b Nat.one_pos ?_ ?_
            · exact absurd htie hone
            · rw [List.getElem?_append_left (by omega),← hlast,List.getLast?_eq_getElem?]
              congr 1
              omega
            · rw [List.getElem?_append_right (by omega),hlength]
              simp
        · have hblt : b < floor (time final) := older_of_ne hfloor (by rw [← hyb]; exact hyle) htie
          have hnext : timesSince time since (pool.filter (fun x => time x < floor (time final))) =
              b :: tail := by
            have hrows : (pool.filter (fun x => time x < floor (time final))).filter
                (fun x => since ≤ time x) = beyond time since pool page := by
              rw [beyond,List.filter_filter,List.filter_filter]
              apply List.filter_congr
              intro x hx
              by_cases hsince : since ≤ time x
              · have hiff : time x < floor (time final) ↔ x ∉ page := by
                  constructor
                  · intro hlt hshown
                    exact absurd hlt (not_lt.mpr ((hself (time final)).trans (holdest x hshown)))
                  · intro hno
                    exact lt_of_le_of_lt (hgreatest x (mem_beyond.mpr ⟨hx,hsince,hno⟩)) hblt
                simp [hsince,hiff]
              · simp [hsince]
            rw [timesSince,hrows,hrest]
          have hsep : Separated floor limit (timesSince time since pool) ↔
              Separated floor limit (b :: tail) := by
            rw [hsplit,hrest]
            exact separated_append hlimit hlength hlast rfl htie
          rw [hsep,← hnext]
          refine Iff.trans ?_ (ih (hn.filter _))
          constructor
          · intro hfound x hx hsince
            obtain ⟨hxpool,hlt⟩ := List.mem_filter.mp hx
            rcases List.mem_append.mp (hfound x hxpool hsince) with hshown | hlater
            · have hge := (hself (time final)).trans (holdest x hshown)
              exact absurd (of_decide_eq_true hlt) (not_lt.mpr hge)
            · exact hlater
          · intro hfound x hx hsince
            by_cases hshown : x ∈ page
            · exact List.mem_append_left _ hshown
            · have hle := hgreatest x (mem_beyond.mpr ⟨hx,hsince,hshown⟩)
              apply List.mem_append_right
              exact hfound x (List.mem_filter.mpr ⟨hx,decide_eq_true (lt_of_le_of_lt hle hblt)⟩) hsince

end Page

end WeirdVault.Framework.Paging
