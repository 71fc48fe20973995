import Mathlib.Data.Int.Log
import Mathlib.Data.Rat.Floor
import WeirdVault.Framework.Json

/-!
# Doubles

The double nearest to a number, of two that are as near the one whose last digit is even. The whole
numbers up to `2^53` are doubles themselves.
-/

namespace WeirdVault.Framework

def roundEven (x : ℚ) : ℤ :=
  if x-⌊x⌋ < 1/2 then ⌊x⌋
  else if 1/2 < x-⌊x⌋ then ⌊x⌋+1
  else if ⌊x⌋ % 2 = 0 then ⌊x⌋ else ⌊x⌋+1

/-- What the last of the 53 digits of a double near the number is worth. -/
def unit (q : ℚ) : ℚ := 2^(max (Int.log 2 |q|) (-1022)-52)

def nearest (q : ℚ) : ℚ := roundEven (q/unit q)*unit q

def double (q : ℚ) : JsNumber :=
  if |nearest q| < 2^1024 then .finite (nearest q) else .infinity (q < 0)

theorem roundEven_intCast (z : ℤ) : roundEven z = z := by
  simp [roundEven]

theorem floor_le_roundEven (x : ℚ) : ⌊x⌋ ≤ roundEven x := by
  unfold roundEven
  split
  · exact le_refl _
  · split
    · omega
    · split <;> omega

theorem unit_natCast {n : Nat} : unit n = 2^((Nat.log 2 n : ℤ)-52) := by
  have habs : |(n : ℚ)| = n := abs_of_nonneg (Nat.cast_nonneg n)
  have hlog : Int.log 2 (n : ℚ) = Nat.log 2 n := Int.log_natCast 2 n
  rw [unit,habs,hlog,max_eq_left (by omega)]

private theorem unit_pos (n : Nat) : 0 < unit n := by
  rw [unit_natCast]
  exact zpow_pos two_pos _

private theorem natCast_div_unit {n : Nat} (h : n ≤ 2^53) : ∃ z : ℤ, (n : ℚ)/unit n = z := by
  rw [unit_natCast]
  by_cases hn : n < 2^53
  · have hlog : Nat.log 2 n < 53 := by
      by_cases hzero : n = 0
      · simp [hzero]
      · exact (Nat.log_lt_iff_lt_pow (by omega) hzero).mpr hn
    obtain ⟨k,hk⟩ := Nat.exists_eq_add_of_le (show Nat.log 2 n ≤ 52 by omega)
    refine ⟨n*2^k,?_⟩
    have hexp : (Nat.log 2 n : ℤ)-52 = -(k : ℤ) := by omega
    rw [hexp,zpow_neg,div_inv_eq_mul,zpow_natCast]
    push_cast
    rfl
  · have hn53 : n = 2^53 := by omega
    refine ⟨2^52,?_⟩
    rw [hn53,Nat.log_pow (by omega)]
    norm_num

theorem nearest_natCast {n : Nat} (h : n ≤ 2^53) : nearest n = n := by
  obtain ⟨z,hz⟩ := natCast_div_unit h
  rw [nearest,hz,roundEven_intCast,← hz]
  exact div_mul_cancel₀ _ (unit_pos n).ne'

theorem le_nearest {n : Nat} (h : 2^53 ≤ n) : 2^53 ≤ nearest n := by
  have hne : n ≠ 0 := by omega
  have hlog : 53 ≤ Nat.log 2 n := (Nat.le_log_iff_pow_le (by omega) hne).mpr h
  have hpow : (2 : ℚ)^(Nat.log 2 n) ≤ n := by
    exact_mod_cast Nat.pow_log_le_self 2 hne
  have hunit : unit n*2^52 = 2^(Nat.log 2 n) := by
    rw [unit_natCast,← zpow_natCast,← zpow_natCast,← zpow_add₀ two_ne_zero]
    congr 1
    push_cast
    ring
  have hscaled : ((2^52 : ℤ) : ℚ) ≤ n/unit n := by
    rw [le_div_iff₀ (unit_pos n)]
    push_cast
    linarith
  have hround : (2^52 : ℤ) ≤ roundEven (n/unit n) :=
    (Int.le_floor.mpr hscaled).trans (floor_le_roundEven _)
  have hcast : (2^52 : ℚ) ≤ roundEven (n/unit n) := by exact_mod_cast hround
  calc (2 : ℚ)^53 ≤ 2^(Nat.log 2 n) := pow_le_pow_right₀ (by norm_num) hlog
    _ = 2^52*unit n := by rw [← hunit,mul_comm]
    _ ≤ nearest n := mul_le_mul_of_nonneg_right hcast (unit_pos n).le

theorem double_natCast {n : Nat} (h : n ≤ 2^53) : double n = .finite n := by
  have hlt : |nearest n| < 2^1024 := by
    rw [nearest_natCast h,abs_of_nonneg (Nat.cast_nonneg n)]
    calc (n : ℚ) ≤ 2^53 := by exact_mod_cast h
      _ < 2^1024 := pow_lt_pow_right₀ (by norm_num) (by norm_num)
  rw [double,if_pos hlt,nearest_natCast h]

theorem le_of_double_eq {n : Nat} {q : ℚ} (h : 2^53 ≤ n) (hq : double n = .finite q) :
    2^53 ≤ q := by
  unfold double at hq
  split at hq
  · cases hq
    exact le_nearest h
  · cases hq

end WeirdVault.Framework
