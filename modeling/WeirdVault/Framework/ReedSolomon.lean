import Mathlib.Algebra.Polynomial.Roots
import Mathlib.Algebra.Polynomial.BigOperators
import Mathlib.Data.List.GetD
import Mathlib.Tactic.LinearCombination

/-!
# Reed-Solomon codes

A word is the list of the coefficients of a polynomial, the highest first. The check symbols come
out of a shift register, and a word that carries them vanishes at every root of the divisor. Where
the roots are successive powers of one element, two such words differ in more places than there are
check symbols.
-/

namespace WeirdVault.Framework.ReedSolomon

section Register

variable {F : Type*} [CommRing F]

/-- The word as a polynomial, at `x`. -/
def value (x : F) (word : List F) : F := word.foldl (fun acc c => acc*x+c) 0

def shift (divisor check : List F) (b : F) : List F :=
  List.zipWith (fun c d => c+d*(b-check.headD 0)) (check.tail ++ [0]) divisor

def remainder (divisor data : List F) : List F :=
  data.foldl (shift divisor) (List.replicate divisor.length 0)

def times (root : F) : List F → List F
  | [] => []
  | [a] => [a*root]
  | a :: b :: p => (a*root+b) :: times root (b :: p)

/-- The product of `x+root` over the roots, as many as there are places, without its leading one. -/
def divisor (roots : List F) : List F :=
  roots.foldl (fun p root => times root p) (List.replicate (roots.length-1) 0 ++ [1])

theorem value_foldl (x acc : F) (word : List F) :
    word.foldl (fun acc c => acc*x+c) acc = acc*x^word.length+value x word := by
  induction word generalizing acc with
  | nil => simp [value]
  | cons c word ih =>
    rw [value,List.foldl_cons,ih,List.foldl_cons,ih,List.length_cons]
    ring

theorem value_cons (x c : F) (word : List F) :
    value x (c :: word) = c*x^word.length+value x word := by
  rw [value,List.foldl_cons,value_foldl]
  ring

theorem value_append (x : F) (u v : List F) :
    value x (u ++ v) = value x u*x^v.length+value x v := by
  rw [value,List.foldl_append,value_foldl]
  rfl

theorem value_concat (x b : F) (u : List F) : value x (u ++ [b]) = value x u*x+b := by
  rw [value,List.foldl_append]
  rfl

theorem value_zeros (x : F) (n : ℕ) : value x (List.replicate n 0) = 0 := by
  induction n with
  | zero => rfl
  | succ n ih => rw [List.replicate_succ,value_cons,ih,zero_mul,zero_add]

theorem value_zipWith (x f : F) {u v : List F} (h : u.length = v.length) :
    value x (List.zipWith (fun c d => c+d*f) u v) = value x u+value x v*f := by
  induction u generalizing v with
  | nil =>
    cases v with
    | nil => simp [value]
    | cons d v => simp at h
  | cons c u ih =>
    cases v with
    | nil => simp at h
    | cons d v =>
      have hlen : u.length = v.length := by simpa using h
      rw [List.zipWith_cons_cons,value_cons,value_cons,value_cons,ih hlen,List.length_zipWith,hlen,
        Nat.min_self]
      ring

@[simp] theorem length_shift (divisor check : List F) (b : F) (h : check.length = divisor.length) :
    (shift divisor check b).length = divisor.length := by
  rw [shift,List.length_zipWith,List.length_append,List.length_tail,h,List.length_singleton]
  omega

private theorem shift_step {divisor check : List F} {x y : F} (b : F)
    (hlen : check.length = divisor.length) (hpos : 0 < divisor.length)
    (hroot : x^divisor.length+value x divisor = 0)
    (hinv : y*x^divisor.length+value x check = 0) :
    (y*x+b)*x^divisor.length+value x (shift divisor check b) = 0 := by
  cases check with
  | nil => simp at hlen; omega
  | cons a rest =>
    have hrest : (rest ++ [(0 : F)]).length = divisor.length := by simpa using hlen
    have hpow : x^divisor.length = x^rest.length*x := by rw [← hlen,List.length_cons,pow_succ]
    have hshift : value x (shift divisor (a :: rest) b) =
        value x rest*x+value x divisor*(b-a) := by
      rw [shift,List.headD_cons,List.tail_cons,value_zipWith x _ hrest,value_concat,add_zero]
    rw [value_cons] at hinv
    rw [hshift]
    linear_combination x*hinv+(b-a)*hroot+a*hpow

theorem value_remainder {divisor : List F} {x : F} (data : List F) (hpos : 0 < divisor.length)
    (hroot : x^divisor.length+value x divisor = 0) :
    (remainder divisor data).length = divisor.length ∧
      value x (data ++ remainder divisor data) = 0 := by
  have hrun : (remainder divisor data).length = divisor.length ∧
      value x data*x^divisor.length+value x (remainder divisor data) = 0 := by
    induction data using List.reverseRecOn with
    | nil =>
      refine ⟨List.length_replicate,?_⟩
      rw [remainder,List.foldl_nil,value_zeros,add_zero]
      exact zero_mul _
    | append_singleton data b ih =>
      have hstep : remainder divisor (data ++ [b]) = shift divisor (remainder divisor data) b := by
        rw [remainder,List.foldl_append]
        rfl
      rw [hstep,value_concat]
      exact ⟨length_shift _ _ _ ih.1,shift_step b ih.1 hpos hroot ih.2⟩
  refine ⟨hrun.1,?_⟩
  rw [value_append,hrun.1]
  exact hrun.2

theorem length_times (root : F) (p : List F) : (times root p).length = p.length := by
  induction p with
  | nil => rfl
  | cons a p ih =>
    cases p with
    | nil => rfl
    | cons b p => rw [times,List.length_cons,ih]; rfl

theorem value_times (x root a : F) (p : List F) :
    value x (times root (a :: p))+a*x^(p.length+1) = value x (a :: p)*(x+root) := by
  induction p generalizing a with
  | nil => simp [times,value]; ring
  | cons b p ih =>
    have hb := ih b
    rw [times,value_cons,length_times,List.length_cons,value_cons x a,List.length_cons]
    linear_combination hb

private theorem times_zeros (root : F) (k : ℕ) (q : List F) :
    times root (List.replicate (k+1) 0 ++ 1 :: q) =
      List.replicate k 0 ++ 1 :: times root (1 :: q) := by
  induction k with
  | zero => simp [times]
  | succ k ih =>
    have hzeros : List.replicate (k+1) (0 : F) ++ 1 :: q =
        0 :: (List.replicate k 0 ++ 1 :: q) := rfl
    rw [List.replicate_succ,List.cons_append,hzeros,times,← hzeros,ih]
    simp [List.replicate_succ]

private theorem foldl_times (k : ℕ) (roots : List F) :
    ∃ q, q.length = roots.length ∧
      roots.foldl (fun p root => times root p) (List.replicate (k+roots.length) 0 ++ [1]) =
        List.replicate k 0 ++ 1 :: q ∧
      ∀ x, value x (1 :: q) = (roots.map fun root => x+root).prod := by
  induction roots using List.reverseRecOn generalizing k with
  | nil => exact ⟨[],rfl,rfl,fun x => by simp [value]⟩
  | append_singleton roots root ih =>
    obtain ⟨q,hlen,hfold,hvalue⟩ := ih (k+1)
    refine ⟨times root (1 :: q),by rw [length_times]; simp [hlen],?_,?_⟩
    · have hcount : k+(roots ++ [root]).length = k+1+roots.length := by simp; omega
      rw [hcount,List.foldl_append,hfold]
      exact times_zeros root k q
    · intro x
      have htimes := value_times x root 1 q
      rw [value_cons,length_times,List.length_cons,List.map_append,List.prod_append,← hvalue]
      simp only [List.map_cons,List.map_nil,List.prod_singleton]
      linear_combination htimes

theorem value_divisor {roots : List F} (hpos : roots ≠ []) (x : F) :
    (divisor roots).length = roots.length ∧
      x^roots.length+value x (divisor roots) = (roots.map fun root => x+root).prod := by
  obtain ⟨front,root,rfl⟩ := (List.eq_nil_or_concat' roots).resolve_left hpos
  obtain ⟨q,hlen,hfold,hvalue⟩ := foldl_times 0 front
  have hdivisor : divisor (front ++ [root]) = times root (1 :: q) := by
    rw [divisor,List.foldl_append,show (front ++ [root]).length-1 = 0+front.length by simp,hfold]
    rfl
  have htimes := value_times x root 1 q
  rw [hdivisor,length_times,List.map_append,List.prod_append,← hvalue]
  refine ⟨by simp [hlen],?_⟩
  simp only [List.length_append,List.length_singleton,List.map_cons,List.map_nil,
    List.prod_singleton]
  rw [hlen] at htimes
  linear_combination htimes

theorem foldl_powers (a : F) (p : List F) (n : ℕ) :
    (List.range n).foldl (fun (s : List F × F) _ => (times s.2 s.1,s.2*a)) (p,1) =
      (((List.range n).map (a^·)).foldl (fun p root => times root p) p,a^n) := by
  induction n with
  | zero => rw [pow_zero]; rfl
  | succ n ih =>
    rw [List.range_succ,List.foldl_append,ih,List.map_append,List.foldl_append,pow_succ]
    rfl

end Register

/-- Equal but for at most `t` places. -/
def Damaged {α : Type*} (t : ℕ) (u v : List α) : Prop :=
  u.length = v.length ∧ ∃ places : Finset ℕ, places.card ≤ t ∧ ∀ k ∉ places, u[k]? = v[k]?

theorem Damaged.trans {α : Type*} {s t : ℕ} {u v w : List α} (huv : Damaged s u v)
    (hvw : Damaged t v w) : Damaged (s+t) u w := by
  obtain ⟨hlen,places,hcard,hsame⟩ := huv
  obtain ⟨hlen',places',hcard',hsame'⟩ := hvw
  refine ⟨hlen.trans hlen',places ∪ places',?_,?_⟩
  · exact (Finset.card_union_le _ _).trans (Nat.add_le_add hcard hcard')
  · intro k hk
    rw [Finset.mem_union,not_or] at hk
    exact (hsame k hk.1).trans (hsame' k hk.2)

theorem Damaged.symm {α : Type*} {t : ℕ} {u v : List α} (h : Damaged t u v) : Damaged t v u := by
  obtain ⟨hlen,places,hcard,hsame⟩ := h
  exact ⟨hlen.symm,places,hcard,fun k hk => (hsame k hk).symm⟩

section Distance

variable {F : Type*} [Field F]

open Polynomial in
private theorem eq_zero_of_sums {ι : Type*} [DecidableEq ι] {places : Finset ι} {at' : ι → F}
    {e : ι → F} {n : ℕ} (hinj : Set.InjOn at' places) (hcard : places.card ≤ n)
    (hsums : ∀ i < n, ∑ k ∈ places, e k*at' k^i = 0) : ∀ k ∈ places, e k = 0 := by
  have hpoly : ∀ p : F[X], p.natDegree < n → ∑ k ∈ places, e k*p.eval (at' k) = 0 := by
    intro p hp
    have hsum : ∀ k, e k*p.eval (at' k) = ∑ i ∈ Finset.range n, p.coeff i*(e k*at' k^i) := by
      intro k
      rw [eval_eq_sum_range' hp,Finset.mul_sum]
      exact Finset.sum_congr rfl fun i _ => by ring
    rw [Finset.sum_congr rfl fun k _ => hsum k,Finset.sum_comm]
    refine Finset.sum_eq_zero fun i hi => ?_
    rw [← Finset.mul_sum,hsums i (Finset.mem_range.mp hi),mul_zero]
  intro k hk
  -- the polynomial that vanishes at the other places singles this one out
  have hone := hpoly (∏ j ∈ places.erase k,(X-C (at' j))) (by
    rw [natDegree_prod_of_monic _ _ fun j _ => monic_X_sub_C _]
    simp only [natDegree_X_sub_C,Finset.sum_const,smul_eq_mul,mul_one]
    have := Finset.card_erase_lt_of_mem hk
    omega)
  have hne : eval (at' k) (∏ j ∈ places.erase k,(X-C (at' j))) ≠ 0 := by
    rw [eval_prod,Finset.prod_ne_zero_iff]
    intro j hj
    rw [eval_sub,eval_X,eval_C,sub_ne_zero]
    exact fun he => (Finset.ne_of_mem_erase hj) (hinj (Finset.mem_of_mem_erase hj) hk he.symm)
  rw [Finset.sum_eq_single_of_mem k hk] at hone
  · exact (mul_eq_zero.mp hone).resolve_right hne
  · intro j hj hjk
    rw [eval_prod,Finset.prod_eq_zero (Finset.mem_erase.mpr ⟨hjk,hj⟩),mul_zero]
    rw [eval_sub,eval_X,eval_C,sub_self]

private theorem value_eq_sum (x : F) (word : List F) :
    value x word = ∑ k ∈ Finset.range word.length, word.getD k 0*x^(word.length-1-k) := by
  induction word with
  | nil => rfl
  | cons c word ih =>
    rw [value_cons,List.length_cons,Finset.sum_range_succ',ih]
    simp only [List.getD_cons_succ,List.getD_cons_zero,Nat.add_sub_cancel,Nat.sub_zero]
    rw [add_comm]
    congr 1
    refine Finset.sum_congr rfl fun k hk => ?_
    rw [show word.length-1-k = word.length-(k+1) by omega]

/-- Two words that vanish at `n` successive powers and differ in at most `n` places are one. -/
theorem eq_of_damaged {a : F} {n : ℕ} {u v : List F} (hinj : Set.InjOn (a^·) (Set.Iio u.length))
    (hu : ∀ i < n, value (a^i) u = 0) (hv : ∀ i < n, value (a^i) v = 0) (h : Damaged n u v) :
    u = v := by
  obtain ⟨hlen,places,hcard,hsame⟩ := h
  have hfew : (places.filter (· < u.length)).card ≤ n := (Finset.card_filter_le _ _).trans hcard
  have hpowers : Set.InjOn (fun k => a^(u.length-1-k)) (places.filter (· < u.length)) := by
    intro j hj k hk he
    have hj' := (Finset.mem_filter.mp hj).2
    have hk' := (Finset.mem_filter.mp hk).2
    have hexp := hinj (show u.length-1-j < u.length by omega) (show u.length-1-k < u.length by omega) he
    omega
  have hsums : ∀ i < n, ∑ k ∈ places.filter (· < u.length),
      (u.getD k 0-v.getD k 0)*(a^(u.length-1-k))^i = 0 := by
    intro i hi
    have hall : ∑ k ∈ Finset.range u.length, (u.getD k 0-v.getD k 0)*(a^(u.length-1-k))^i = 0 := by
      have hdiff := (hu i hi).trans (hv i hi).symm
      rw [value_eq_sum,value_eq_sum,← hlen] at hdiff
      refine Eq.trans ?_ (sub_eq_zero.mpr hdiff)
      rw [← Finset.sum_sub_distrib]
      refine Finset.sum_congr rfl fun k _ => ?_
      rw [← pow_mul,← pow_mul,Nat.mul_comm i]
      ring
    refine Eq.trans (Finset.sum_subset_zero_on_sdiff ?_ ?_ fun _ _ => rfl) hall
    · intro k hk
      exact Finset.mem_range.mpr (Finset.mem_filter.mp hk).2
    · intro k hk
      obtain ⟨hlt,hnot⟩ := Finset.mem_sdiff.mp hk
      have hout : k ∉ places := fun hk =>
        hnot (Finset.mem_filter.mpr ⟨hk,Finset.mem_range.mp hlt⟩)
      rw [List.getD_eq_getElem?_getD,List.getD_eq_getElem?_getD,hsame k hout,sub_self,zero_mul]
  have hrange := eq_zero_of_sums hpowers hfew hsums
  refine List.ext_getElem hlen fun k hk hk' => ?_
  by_cases hmem : k ∈ places
  · have hzero := hrange k (Finset.mem_filter.mpr ⟨hmem,hk⟩)
    rw [List.getD_eq_getElem _ _ hk,List.getD_eq_getElem _ _ hk'] at hzero
    exact sub_eq_zero.mp hzero
  · have hopt := hsame k hmem
    rw [List.getElem?_eq_getElem hk,List.getElem?_eq_getElem hk'] at hopt
    exact Option.some.inj hopt

end Distance

end WeirdVault.Framework.ReedSolomon
