import Mathlib.Algebra.Field.Defs
import Mathlib.Data.Fintype.EquivFin
import Mathlib.Data.List.Iterate
import Mathlib.Data.Nat.Bitwise
import WeirdVault.Framework.ReedSolomon

/-!
# The field the error correction lives in

GF(256) by its exponent and logarithm tables, and the Reed-Solomon check symbols over it. The tables
are filled by a loop that doubles; what is multiplied through them is a field, in which doubling is
multiplication by a generator.
-/

namespace WeirdVault.Qr

open Framework

def doubled (x : ℕ) : ℕ :=
  if (x <<< 1) &&& 0x100 ≠ 0 then (x <<< 1) ^^^ 0x11d else x <<< 1

structure Tables where
  exp : List UInt8
  log : List UInt8
  x : ℕ

def Tables.fill (t : Tables) (i : ℕ) : Tables where
  exp := t.exp.set i (UInt8.ofNat t.x)
  log := t.log.set t.x (UInt8.ofNat i)
  x := doubled t.x

def Tables.filled (n : ℕ) : Tables :=
  (List.range n).foldl Tables.fill ⟨List.replicate 512 0,List.replicate 256 0,1⟩

/-- `EXP[i] = EXP[i - 255]`. -/
def repeated (exp : List UInt8) (i : ℕ) : List UInt8 := exp.set i (exp.getD (i-255) 0)

/-- `EXP`: the powers of the generator, twice over. -/
def expTable : List UInt8 := (List.range' 255 257).foldl repeated (Tables.filled 255).exp

def logTable : List UInt8 := (Tables.filled 255).log

def exp (i : ℕ) : UInt8 := expTable.getD i 0

def log (a : UInt8) : ℕ := (logTable.getD a.toNat 0).toNat

def gfMul (a b : UInt8) : UInt8 := if a = 0 ∨ b = 0 then 0 else exp (log a+log b)

/-- The inner loop of `rsDivisor`: each place times the root, and its neighbour. -/
def timesRoot (root : UInt8) : List UInt8 → List UInt8
  | [] => []
  | [a] => [gfMul a root]
  | a :: b :: p => (gfMul a root ^^^ b) :: timesRoot root (b :: p)

def rsDivisor (degree : ℕ) : List UInt8 :=
  ((List.range degree).foldl (fun s _ => (timesRoot s.2 s.1,gfMul s.2 2))
    (List.replicate (degree-1) 0 ++ [1],1)).1

/-- `result.shift()`, `result.push(0)`, and the divisor times the factor. -/
def rsStep (divisor result : List UInt8) (b : UInt8) : List UInt8 :=
  List.zipWith (fun r d => r ^^^ gfMul d (b ^^^ result.headD 0)) (result.tail ++ [0]) divisor

def rsRemainder (data divisor : List UInt8) : List UInt8 :=
  data.foldl (rsStep divisor) (List.replicate divisor.length 0)

def power (i : ℕ) : ℕ := doubled^[i] 1

theorem power_succ (i : ℕ) : power (i+1) = doubled (power i) := Function.iterate_succ_apply' _ _ _

private theorem doubled_bytes : (∀ n < 256, doubled n < 256 ∧ (n ≠ 0 → doubled n ≠ 0)) ∧
    power 255 = 1 ∧
    (List.iterate doubled 1 255).foldl (fun acc x => acc ||| 1 <<< x) 0 = 2^256-2 := by
  decide +kernel

theorem power_lt (i : ℕ) : power i < 256 := by
  induction i with
  | zero => decide
  | succ i ih => rw [power_succ]; exact (doubled_bytes.1 _ ih).1

theorem power_ne_zero (i : ℕ) : power i ≠ 0 := by
  induction i with
  | zero => decide
  | succ i ih => rw [power_succ]; exact (doubled_bytes.1 _ (power_lt i)).2 ih

theorem power_add_255 (i : ℕ) : power (i+255) = power i := by
  rw [power,Function.iterate_add_apply]
  exact congrArg doubled^[i] doubled_bytes.2.1

private theorem testBit_marks (l : List ℕ) (k acc : ℕ) :
    (l.foldl (fun acc x => acc ||| 1 <<< x) acc).testBit k = (acc.testBit k || decide (k ∈ l)) := by
  induction l generalizing acc with
  | nil => simp
  | cons x l ih =>
    rw [List.foldl_cons,ih,Nat.testBit_or,Nat.one_shiftLeft,Nat.testBit_two_pow,Bool.or_assoc]
    congr 1
    simp only [List.mem_cons,Bool.decide_or,eq_comm]

theorem exists_power {a : ℕ} (hpos : a ≠ 0) (hlt : a < 256) : ∃ i < 255, power i = a := by
  have hbit := testBit_marks (List.iterate doubled 1 255) a 0
  have hall : Nat.testBit (2^256-2) a = true := by
    have hone : Nat.testBit 1 a = false :=
      Nat.testBit_eq_false_of_lt (Nat.one_lt_two_pow hpos)
    rw [Nat.testBit_two_pow_sub_succ (by omega : 1 < 2^256),hone]
    simp only [hlt,decide_true,Bool.not_false,Bool.and_self]
  rw [doubled_bytes.2.2,hall,Nat.zero_testBit,Bool.false_or,eq_comm,decide_eq_true_eq,List.mem_iterate] at hbit
  obtain ⟨i,hi,he⟩ := hbit
  exact ⟨i,hi,he.symm⟩

theorem power_injOn {i j : ℕ} (hi : i < 255) (hj : j < 255) (h : power i = power j) : i = j := by
  have hpred : ∀ k, power k-1 < 255 := fun k => by have := power_lt k; omega
  have hsurj : Function.Surjective fun k : Fin 255 => (⟨power k-1,hpred k⟩ : Fin 255) := by
    intro a
    obtain ⟨k,hk,he⟩ := exists_power (Nat.succ_ne_zero a) (by omega)
    exact ⟨⟨k,hk⟩,Fin.ext (by simp only [he]; rfl)⟩
  have hinj := Finite.injective_iff_surjective.mpr hsurj
  have hfin : (⟨i,hi⟩ : Fin 255) = ⟨j,hj⟩ := hinj (Fin.ext (by simp only [h]))
  exact congrArg Fin.val hfin

private theorem set_zeros (front : List UInt8) (a : UInt8) (n : ℕ) :
    (front ++ List.replicate (n+1) 0).set front.length a = (front ++ [a]) ++ List.replicate n 0 := by
  rw [List.set_append_right _ _ le_rfl,Nat.sub_self,List.replicate_succ,List.set_cons_zero,
    List.append_assoc,List.singleton_append]

private theorem filled_spec {n : ℕ} (h : n ≤ 255) :
    (Tables.filled n).exp = (List.range n).map (fun i => UInt8.ofNat (power i)) ++
      List.replicate (512-n) 0 ∧ (Tables.filled n).log.length = 256 ∧
    (∀ i < n, (Tables.filled n).log.getD (power i) 0 = UInt8.ofNat i) ∧
    (Tables.filled n).x = power n := by
  induction n with
  | zero =>
    refine ⟨?_,List.length_replicate,fun i hi => absurd hi (Nat.not_lt_zero i),rfl⟩
    rw [List.range_zero,List.map_nil,List.nil_append,Nat.sub_zero]
    rfl
  | succ n ih =>
    obtain ⟨hexp,hlen,hlog,hx⟩ := ih (by omega)
    have hstep : Tables.filled (n+1) = (Tables.filled n).fill n := by
      rw [Tables.filled,List.range_succ,List.foldl_append]
      rfl
    rw [hstep,Tables.fill,hx]
    refine ⟨?_,by rw [List.length_set,hlen],?_,(power_succ n).symm⟩
    · have hfront : ((List.range n).map fun i => UInt8.ofNat (power i)).length = n := by simp
      have hset := set_zeros ((List.range n).map fun i => UInt8.ofNat (power i))
        (UInt8.ofNat (power n)) (512-(n+1))
      rw [hfront,show 512-(n+1)+1 = 512-n by omega] at hset
      show (Tables.filled n).exp.set n (UInt8.ofNat (power n)) = _
      rw [hexp,hset,List.range_succ,List.map_append]
      rfl
    · intro i hi
      show ((Tables.filled n).log.set (power n) (UInt8.ofNat n)).getD (power i) 0 = _
      rw [List.getD_eq_getElem?_getD,List.getElem?_set]
      by_cases he : power n = power i
      · have hin : n = i := power_injOn (by omega) (by omega) he
        rw [if_pos he,if_pos (by rw [hlen]; exact power_lt n),hin]
        rfl
      · rw [if_neg he,← List.getD_eq_getElem?_getD]
        have hne : i ≠ n := fun hin => he (by rw [hin])
        exact hlog i (by omega)

private theorem repeated_spec (k : ℕ) (h : k ≤ 257) :
    (List.range' 255 k).foldl repeated (Tables.filled 255).exp =
      (List.range (255+k)).map (fun i => UInt8.ofNat (power i)) ++ List.replicate (257-k) 0 := by
  induction k with
  | zero => exact (filled_spec le_rfl).1
  | succ k ih =>
    rw [List.range'_concat,List.foldl_append,ih (by omega),List.foldl_cons,List.foldl_nil,repeated]
    have hget : ((List.range (255+k)).map (fun i => UInt8.ofNat (power i)) ++
        List.replicate (257-k) 0).getD (255+1*k-255) 0 = UInt8.ofNat (power (255+k)) := by
      rw [List.getD_eq_getElem?_getD,List.getElem?_append_left (by simp)]
      simp only [List.getElem?_map,List.getElem?_range (show 255+1*k-255 < 255+k by omega)]
      rw [show 255+1*k-255 = k by omega,Nat.add_comm 255 k,power_add_255]
      rfl
    have hset := set_zeros ((List.range (255+k)).map fun i => UInt8.ofNat (power i))
      (UInt8.ofNat (power (255+k))) (257-(k+1))
    rw [List.length_map,List.length_range,show 257-(k+1)+1 = 257-k by omega] at hset
    rw [hget,Nat.one_mul,hset,show 255+(k+1) = 255+k+1 by omega,List.range_succ,List.map_append]
    rfl

theorem exp_eq {i : ℕ} (h : i < 512) : exp i = UInt8.ofNat (power i) := by
  rw [exp,expTable,repeated_spec 257 le_rfl,List.getD_eq_getElem?_getD,
    List.getElem?_append_left (by simp; omega)]
  simp [h]

theorem log_power {i : ℕ} (h : i < 255) : log (UInt8.ofNat (power i)) = i := by
  rw [log,UInt8.toNat_ofNat_of_lt' (power_lt i),logTable,(filled_spec le_rfl).2.2.1 i h]
  exact UInt8.toNat_ofNat_of_lt' (show i < 256 by omega)

def twice (a : UInt8) : UInt8 := UInt8.ofNat (doubled a.toNat)

private theorem twice_eq (a : UInt8) :
    twice a = a <<< 1 ^^^ (if a.toBitVec.msb then 0x1d else 0) := by
  have hbyte : ∀ n < 256, twice (UInt8.ofNat n) =
      UInt8.ofNat n <<< 1 ^^^ (if (UInt8.ofNat n).toBitVec.msb then 0x1d else 0) := by
    decide +kernel
  have ha := hbyte a.toNat a.toNat_lt
  rwa [UInt8.ofNat_toNat] at ha

theorem twice_xor (a b : UInt8) : twice (a ^^^ b) = twice a ^^^ twice b := by
  have hmsb : (a ^^^ b).toBitVec.msb = (a.toBitVec.msb ^^ b.toBitVec.msb) := by
    rw [UInt8.toBitVec_xor,BitVec.msb_xor]
  have hshift : (a ^^^ b) <<< 1 = a <<< 1 ^^^ b <<< 1 := UInt8.shiftLeft_xor
  rw [twice_eq,twice_eq,twice_eq,hmsb,hshift]
  cases a.toBitVec.msb <;> cases b.toBitVec.msb <;>
    simp only [Bool.false_xor,Bool.true_xor,Bool.not_false,Bool.not_true,if_true,if_false,
      Bool.false_eq_true,UInt8.xor_zero]
  · rw [UInt8.xor_assoc]
  · rw [UInt8.xor_assoc,UInt8.xor_assoc,UInt8.xor_comm (b <<< 1)]
  · rw [UInt8.xor_assoc,← UInt8.xor_assoc 0x1d,UInt8.xor_comm 0x1d,UInt8.xor_assoc,UInt8.xor_self,
      UInt8.xor_zero]

theorem iterate_twice_xor (k : ℕ) (a b : UInt8) :
    twice^[k] (a ^^^ b) = twice^[k] a ^^^ twice^[k] b := by
  induction k with
  | zero => rfl
  | succ k ih => rw [Function.iterate_succ_apply',ih,twice_xor,← Function.iterate_succ_apply' twice,
      ← Function.iterate_succ_apply' twice]

theorem iterate_twice_zero (k : ℕ) : twice^[k] 0 = 0 := Function.iterate_fixed (by decide) k

theorem iterate_twice_power (k i : ℕ) :
    twice^[k] (UInt8.ofNat (power i)) = UInt8.ofNat (power (i+k)) := by
  induction k with
  | zero => rfl
  | succ k ih =>
    rw [Function.iterate_succ_apply',ih,← Nat.add_assoc,power_succ,twice,
      UInt8.toNat_ofNat_of_lt' (power_lt _)]

theorem exists_log {a : UInt8} (h : a ≠ 0) : log a < 255 ∧ a = UInt8.ofNat (power (log a)) := by
  have hne : a.toNat ≠ 0 := fun h0 => h (UInt8.toNat_inj.mp h0)
  obtain ⟨i,hi,he⟩ := exists_power hne a.toNat_lt
  have ha : a = UInt8.ofNat (power i) := by rw [he,UInt8.ofNat_toNat]
  have hlog : log a = i := by rw [ha,log_power hi]
  exact ⟨hlog ▸ hi,hlog ▸ ha⟩

theorem power_byte_ne_zero (i : ℕ) : UInt8.ofNat (power i) ≠ 0 := by
  intro h
  have hnat := congrArg UInt8.toNat h
  rw [UInt8.toNat_ofNat_of_lt' (power_lt i)] at hnat
  exact power_ne_zero i hnat

theorem gfMul_eq {a : UInt8} (h : a ≠ 0) (b : UInt8) : gfMul a b = twice^[log a] b := by
  by_cases hb : b = 0
  · rw [gfMul,if_pos (Or.inr hb),hb,iterate_twice_zero]
  · obtain ⟨hla,-⟩ := exists_log h
    obtain ⟨hlb,hb'⟩ := exists_log hb
    rw [gfMul,if_neg fun hz => hz.elim h hb,exp_eq (by omega)]
    conv_rhs => rw [hb',iterate_twice_power,Nat.add_comm]

theorem gfMul_zero (a : UInt8) : gfMul a 0 = 0 := by rw [gfMul,if_pos (Or.inr rfl)]

theorem zero_gfMul (a : UInt8) : gfMul 0 a = 0 := by rw [gfMul,if_pos (Or.inl rfl)]

theorem gfMul_comm (a b : UInt8) : gfMul a b = gfMul b a := by
  rw [gfMul,gfMul,Nat.add_comm]
  simp only [or_comm]

theorem gfMul_xor (a b c : UInt8) : gfMul a (b ^^^ c) = gfMul a b ^^^ gfMul a c := by
  by_cases ha : a = 0
  · rw [ha,zero_gfMul,zero_gfMul,zero_gfMul,UInt8.xor_zero]
  · rw [gfMul_eq ha,gfMul_eq ha,gfMul_eq ha,iterate_twice_xor]

theorem xor_gfMul (a b c : UInt8) : gfMul (a ^^^ b) c = gfMul a c ^^^ gfMul b c := by
  rw [gfMul_comm,gfMul_xor,gfMul_comm c,gfMul_comm c]

theorem gfMul_assoc (a b c : UInt8) : gfMul (gfMul a b) c = gfMul a (gfMul b c) := by
  by_cases ha : a = 0
  · rw [ha,zero_gfMul,zero_gfMul,zero_gfMul]
  by_cases hb : b = 0
  · rw [hb,gfMul_zero,zero_gfMul,gfMul_zero]
  by_cases hc : c = 0
  · rw [hc,gfMul_zero,gfMul_zero,gfMul_zero]
  obtain ⟨hlc,hc'⟩ := exists_log hc
  obtain ⟨hlb,hb'⟩ := exists_log hb
  have hab : gfMul a b = UInt8.ofNat (power (log b+log a)) := by
    rw [gfMul_eq ha,← iterate_twice_power,← hb']
  have hne : gfMul a b ≠ 0 := by rw [hab]; exact power_byte_ne_zero _
  have hlog := (exists_log hne).2
  -- both sides are the power of the three logarithms together
  calc gfMul (gfMul a b) c = twice^[log c] (UInt8.ofNat (power (log (gfMul a b)))) := by
        rw [gfMul_eq hne,hc',iterate_twice_power,iterate_twice_power,← hc',Nat.add_comm]
    _ = twice^[log c] (twice^[log a] b) := by rw [← hlog,gfMul_eq ha]
    _ = gfMul a (gfMul b c) := by
        rw [gfMul_comm b c,gfMul_eq hc,gfMul_eq ha,← Function.iterate_add_apply,
          ← Function.iterate_add_apply,Nat.add_comm]

theorem one_gfMul (a : UInt8) : gfMul 1 a = a := by
  have hlog : log 1 = 0 := by
    rw [show (1 : UInt8) = UInt8.ofNat (power 0) from rfl,log_power (by omega)]
  rw [gfMul_eq (by decide),hlog]
  rfl

def inverse (a : UInt8) : UInt8 := if a = 0 then 0 else exp (255-log a)

theorem inverse_zero : inverse 0 = 0 := if_pos rfl

theorem gfMul_inverse {a : UInt8} (h : a ≠ 0) : gfMul a (inverse a) = 1 := by
  obtain ⟨hlog,-⟩ := exists_log h
  rw [gfMul_eq h,inverse,if_neg h,exp_eq (by omega),iterate_twice_power,
    show 255-log a+log a = 0+255 by omega,power_add_255]
  rfl

def Gf : Type := UInt8

namespace Gf

instance : Zero Gf := ⟨(0 : UInt8)⟩

instance : One Gf := ⟨(1 : UInt8)⟩

instance : Add Gf := ⟨UInt8.xor⟩

instance : Mul Gf := ⟨gfMul⟩

instance : Neg Gf := ⟨id⟩

instance : Sub Gf := ⟨UInt8.xor⟩

instance : Inv Gf := ⟨inverse⟩

instance : Field Gf where
  add_assoc := UInt8.xor_assoc
  zero_add _ := UInt8.zero_xor
  add_zero _ := UInt8.xor_zero
  add_comm := UInt8.xor_comm
  neg_add_cancel _ := UInt8.xor_self
  sub_eq_add_neg _ _ := rfl
  mul_assoc := gfMul_assoc
  one_mul := one_gfMul
  mul_one a := (gfMul_comm a 1).trans (one_gfMul a)
  mul_comm := gfMul_comm
  zero_mul := zero_gfMul
  mul_zero := gfMul_zero
  left_distrib := gfMul_xor
  right_distrib := xor_gfMul
  exists_pair_ne := ⟨(0 : UInt8),(1 : UInt8),show (0 : UInt8) ≠ 1 by decide⟩
  mul_inv_cancel _ h := gfMul_inverse h
  inv_zero := inverse_zero
  nsmul := nsmulRec
  zsmul := zsmulRec
  nnqsmul := _
  qsmul := _

def generator : Gf := (2 : UInt8)

theorem generator_pow (i : ℕ) : generator^i = (UInt8.ofNat (power i) : Gf) := by
  have hlog : log 2 = 1 := by
    rw [show (2 : UInt8) = UInt8.ofNat (power 1) from rfl,log_power (by omega)]
  induction i with
  | zero => rfl
  | succ i ih =>
    rw [pow_succ',ih,generator]
    show gfMul 2 (UInt8.ofNat (power i)) = _
    rw [gfMul_eq (by decide),hlog,Function.iterate_one,twice,UInt8.toNat_ofNat_of_lt' (power_lt i),
      ← power_succ]

theorem generator_injOn : Set.InjOn (generator^·) (Set.Iio 255) := by
  intro i hi j hj h
  simp only [generator_pow] at h
  have hnat := congrArg UInt8.toNat h
  rw [UInt8.toNat_ofNat_of_lt' (power_lt i),UInt8.toNat_ofNat_of_lt' (power_lt j)] at hnat
  exact power_injOn hi hj hnat

theorem add_self (a : Gf) : a+a = 0 := UInt8.xor_self

end Gf

/-- The test's syndrome: the block as a polynomial at `x`. -/
def syndrome (x : UInt8) (block : List UInt8) : UInt8 :=
  block.foldl (fun sum c => gfMul sum x ^^^ c) 0

private theorem syndrome_eq (x : UInt8) (block : List UInt8) :
    syndrome x block = @ReedSolomon.value Gf _ x block := rfl

private theorem timesRoot_eq (root : UInt8) (p : List UInt8) :
    timesRoot root p = @ReedSolomon.times Gf _ root p := by
  induction p with
  | nil => rfl
  | cons a p ih =>
    cases p with
    | nil => rfl
    | cons b p =>
      rw [timesRoot,ih]
      rfl

private theorem rsDivisor_eq (degree : ℕ) :
    rsDivisor degree = ReedSolomon.divisor ((List.range degree).map (Gf.generator^·)) := by
  have hstep : (fun (s : List UInt8 × UInt8) (_ : ℕ) => (timesRoot s.2 s.1,gfMul s.2 2)) =
      fun s _ => (@ReedSolomon.times Gf _ s.2 s.1,gfMul s.2 2) :=
    funext₂ fun s _ => congrArg (·,gfMul s.2 2) (timesRoot_eq s.2 s.1)
  have hdivisor : ReedSolomon.divisor ((List.range degree).map (Gf.generator^·)) =
      ((List.range degree).map (Gf.generator^·)).foldl (fun p root => ReedSolomon.times root p)
        (List.replicate (degree-1) 0 ++ [1]) := by
    rw [ReedSolomon.divisor,List.length_map,List.length_range]
  rw [rsDivisor,hstep,hdivisor]
  exact congrArg Prod.fst (ReedSolomon.foldl_powers Gf.generator _ degree)

private theorem divisor_root {degree i : ℕ} (h : i < degree) :
    (rsDivisor degree).length = degree ∧
      (Gf.generator^i)^degree+ReedSolomon.value (Gf.generator^i) (rsDivisor degree) = 0 := by
  have hne : (List.range degree).map (Gf.generator^·) ≠ [] := by
    intro hnil
    rw [List.map_eq_nil_iff,List.range_eq_nil] at hnil
    omega
  obtain ⟨hlen,hvalue⟩ := ReedSolomon.value_divisor hne (Gf.generator^i)
  rw [List.length_map,List.length_range] at hlen hvalue
  rw [rsDivisor_eq,hvalue]
  refine ⟨hlen,List.prod_eq_zero ?_⟩
  rw [List.map_map,List.mem_map]
  exact ⟨i,List.mem_range.mpr h,Gf.add_self _⟩

def IsCodeword (degree : ℕ) (block : List UInt8) : Prop :=
  ∀ i < degree, syndrome (UInt8.ofNat (power i)) block = 0

instance (degree : ℕ) (block : List UInt8) : Decidable (IsCodeword degree block) :=
  inferInstanceAs (Decidable (∀ i < degree, _ = _))

theorem isCodeword_remainder {degree : ℕ} (hpos : 0 < degree) (data : List UInt8) :
    (rsRemainder data (rsDivisor degree)).length = degree ∧
      IsCodeword degree (data ++ rsRemainder data (rsDivisor degree)) := by
  have hlen := (divisor_root hpos).1
  have hrem : ∀ i < degree, (rsRemainder data (rsDivisor degree)).length = degree ∧
      @ReedSolomon.value Gf _ (Gf.generator^i) (data ++ rsRemainder data (rsDivisor degree)) = 0 := by
    intro i hi
    have hroot := (divisor_root hi).2
    have hcode := @ReedSolomon.value_remainder Gf _ (rsDivisor degree) (Gf.generator^i) data
      (hpos.trans_eq hlen.symm) ((congrArg (fun n => (Gf.generator^i)^n+_) hlen).trans hroot)
    exact ⟨hcode.1.trans hlen,hcode.2⟩
  refine ⟨(hrem 0 hpos).1,?_⟩
  intro i hi
  rw [syndrome_eq,← Gf.generator_pow]
  exact (hrem i hi).2

/-- What is left of a codeword after damage in half as many places as it has check symbols is left
of no other. -/
theorem codeword_unique {degree : ℕ} {u v received : List UInt8} (hlen : u.length ≤ 255)
    (hu : IsCodeword degree u) (hv : IsCodeword degree v)
    (hru : ReedSolomon.Damaged (degree/2) u received)
    (hrv : ReedSolomon.Damaged (degree/2) v received) : u = v := by
  have hvalue : ∀ {w : List UInt8}, IsCodeword degree w →
      ∀ i < degree, @ReedSolomon.value Gf _ (Gf.generator^i) w = 0 := by
    intro w hw i hi
    rw [Gf.generator_pow]
    exact hw i hi
  have hdamaged : ReedSolomon.Damaged degree u v := by
    obtain ⟨hsame,places,hcard,hplaces⟩ := hru.trans hrv.symm
    exact ⟨hsame,places,by omega,hplaces⟩
  exact @ReedSolomon.eq_of_damaged Gf _ Gf.generator degree u v
    (Gf.generator_injOn.mono (Set.Iio_subset_Iio hlen)) (hvalue hu) (hvalue hv) hdamaged

end WeirdVault.Qr
