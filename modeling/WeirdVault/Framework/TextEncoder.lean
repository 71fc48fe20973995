import Mathlib.Tactic.Common
import WeirdVault.Framework.JsString

/-! # UTF-8 of a string, as `TextEncoder` writes it -/

namespace WeirdVault.Framework

def isWellFormed : JsString → Bool
  | [] => true
  | [u] => !(isLeadSurrogate u || isTrailSurrogate u)
  | u :: v :: rest =>
    if isLeadSurrogate u then isTrailSurrogate v && isWellFormed rest
    else !isTrailSurrogate u && isWellFormed (v :: rest)

namespace TextEncoder

def continuation (n : Nat) : UInt8 := (0x80 + n % 0x40).toUInt8

def bytes (n : Nat) : List UInt8 :=
  if n < 0x80 then [n.toUInt8]
  else if n < 0x800 then [(0xC0 + n / 0x40).toUInt8,continuation n]
  else if n < 0x10000 then [(0xE0 + n / 0x1000).toUInt8,continuation (n / 0x40),continuation n]
  else [(0xF0 + n / 0x40000).toUInt8,continuation (n / 0x1000),continuation (n / 0x40),
    continuation n]

def paired (u v : UInt16) : Nat :=
  0x10000 + (u.toNat - 0xD800) * 0x400 + (v.toNat - 0xDC00)

/-- A unit on its own; a surrogate without its partner becomes U+FFFD. -/
def unit (u : UInt16) : List UInt8 :=
  if isLeadSurrogate u || isTrailSurrogate u then bytes 0xFFFD else bytes u.toNat

def encode : JsString → List UInt8
  | [] => []
  | [u] => unit u
  | u :: v :: rest =>
    if isLeadSurrogate u && isTrailSurrogate v then bytes (paired u v) ++ encode rest
    else unit u ++ encode (v :: rest)

theorem zero_mem_bytes {n : Nat} (h : n < 0x110000) : 0 ∈ bytes n ↔ n = 0 := by
  have hzero : ∀ m < 256, (0 : UInt8) = m.toUInt8 → m = 0 := by
    intro m hm he
    have hnat : (0 : UInt8).toNat = m.toUInt8.toNat := congrArg UInt8.toNat he
    simp only [Nat.toUInt8_eq,UInt8.toNat_ofNat'] at hnat
    have hmod : m % 256 = m := Nat.mod_eq_of_lt hm
    simpa [hmod] using hnat.symm
  have hrest : ∀ m, (0 : UInt8) ≠ continuation m := by
    intro m he
    have hsmall := Nat.mod_lt m (show 0 < 0x40 by omega)
    have hm := hzero (0x80 + m % 0x40) (by omega) he
    omega
  constructor
  · intro hmem
    unfold bytes at hmem
    split at hmem
    · have he := List.mem_singleton.mp hmem
      exact hzero n (by omega) he
    · split at hmem
      · simp only [List.mem_cons,List.not_mem_nil,or_false,hrest] at hmem
        have hm := hzero (0xC0 + n / 0x40) (by omega) hmem
        omega
      · split at hmem
        · simp only [List.mem_cons,List.not_mem_nil,or_false,hrest] at hmem
          have hm := hzero (0xE0 + n / 0x1000) (by omega) hmem
          omega
        · simp only [List.mem_cons,List.not_mem_nil,or_false,hrest] at hmem
          have hm := hzero (0xF0 + n / 0x40000) (by omega) hmem
          omega
  · rintro rfl
    decide

theorem zero_mem_unit {u : UInt16} : 0 ∈ unit u ↔ u = 0 := by
  have hlt : u.toNat < 0x110000 := by
    have := u.toNat_lt
    omega
  unfold unit
  split
  · rename_i hsurrogate
    rw [zero_mem_bytes (by omega)]
    constructor
    · intro h
      omega
    · rintro rfl
      revert hsurrogate
      decide
  · rw [zero_mem_bytes hlt]
    exact UInt16.toNat_inj (b := 0)

theorem zero_mem_encode (s : JsString) : 0 ∈ encode s ↔ 0 ∈ s := by
  fun_induction encode s with
  | case1 => simp
  | case2 u => simp [zero_mem_unit,eq_comm]
  | case3 u v rest hpair ih =>
    obtain ⟨hlead,htrail⟩ := Bool.and_eq_true_iff.mp hpair
    have hu : u ≠ 0 := by
      rintro rfl
      cases hlead
    have hv : v ≠ 0 := by
      rintro rfl
      cases htrail
    have hu' := u.toNat_lt
    have hv' := v.toNat_lt
    have hlead' : u.toNat ≤ 0xDBFF := by
      simp only [isLeadSurrogate,Bool.and_eq_true,decide_eq_true_eq,UInt16.le_iff_toNat_le] at hlead
      exact hlead.2
    have htrail' : v.toNat ≤ 0xDFFF := by
      simp only [isTrailSurrogate,Bool.and_eq_true,decide_eq_true_eq,
        UInt16.le_iff_toNat_le] at htrail
      exact htrail.2
    have hbytes : 0 ∉ bytes (paired u v) := by
      rw [zero_mem_bytes (by unfold paired; omega)]
      unfold paired
      omega
    simp [hbytes,ih,hu.symm,hv.symm]
  | case4 u v rest hpair ih =>
    rw [List.mem_append,zero_mem_unit,ih]
    simp [eq_comm]

theorem encode_ascii {s : JsString} (h : ∀ u ∈ s, u < 0x80) :
    encode s = s.map UInt16.toUInt8 := by
  have hunit : ∀ u : UInt16, u < 0x80 → isLeadSurrogate u = false ∧ unit u = [u.toUInt8] := by
    intro u hu
    have hlt : u.toNat < 0x80 := UInt16.lt_iff_toNat_lt.mp hu
    have hlead : isLeadSurrogate u = false := by
      simp only [isLeadSurrogate,Bool.and_eq_false_iff,decide_eq_false_iff_not,
        UInt16.le_iff_toNat_le,UInt16.reduceToNat]
      omega
    have htrail : isTrailSurrogate u = false := by
      simp only [isTrailSurrogate,Bool.and_eq_false_iff,decide_eq_false_iff_not,
        UInt16.le_iff_toNat_le,UInt16.reduceToNat]
      omega
    refine ⟨hlead,?_⟩
    simp only [unit,hlead,htrail,Bool.or_false,Bool.false_eq_true,if_false,bytes,hlt,if_true]
    rfl
  fun_induction encode s with
  | case1 => rfl
  | case2 u => exact (hunit u (h u (by simp))).2
  | case3 u v rest hpair ih =>
    have hlead := (hunit u (h u (by simp))).1
    simp [hlead] at hpair
  | case4 u v rest hpair ih =>
    rw [(hunit u (h u (by simp))).2,ih (fun w hw => h w (List.mem_cons_of_mem _ hw))]
    rfl

end TextEncoder

end WeirdVault.Framework
