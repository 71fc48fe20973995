import Mathlib.Data.List.Basic
import WeirdVault.Framework.JsString

/-! # Different strings have different code units -/

namespace WeirdVault.Framework

private theorem charUnits_small {c : Char} (h : c.toNat < 0x10000) :
    charUnits c = [c.toNat.toUInt16] := if_pos h

private theorem charUnits_large {c : Char} (h : ¬ c.toNat < 0x10000) :
    charUnits c = [(0xD800+(c.toNat-0x10000)/0x400).toUInt16,
      (0xDC00+(c.toNat-0x10000)%0x400).toUInt16] := if_neg h

theorem length_charUnits (c : Char) :
    (charUnits c).length = if 0x10000 ≤ c.toNat then 2 else 1 := by
  by_cases h : c.toNat < 0x10000
  · rw [charUnits_small h,if_neg (by omega)]
    rfl
  · rw [charUnits_large h,if_pos (by omega)]
    rfl

private theorem scalar (c : Char) : c.toNat < 0xD800 ∨ 0xDFFF < c.toNat ∧ c.toNat < 0x110000 :=
  c.valid

private theorem toNat_toUInt16 {n : Nat} (h : n < 65536) : n.toUInt16.toNat = n := by
  rw [Nat.toUInt16_eq,UInt16.toNat_ofNat']
  omega

private theorem eq_of_toUInt16 {m n : Nat} (hm : m < 65536) (hn : n < 65536)
    (h : m.toUInt16 = n.toUInt16) : m = n := by
  have hnat := congrArg UInt16.toNat h
  rwa [toNat_toUInt16 hm,toNat_toUInt16 hn] at hnat

/-- A unit of its own is no lead of a pair, so the first units tell where the first character
ends. -/
theorem charUnits_append_inj {c d : Char} {s t : JsString}
    (h : charUnits c ++ s = charUnits d ++ t) : c = d ∧ s = t := by
  have hc := scalar c
  have hd := scalar d
  by_cases hsc : c.toNat < 0x10000 <;> by_cases hsd : d.toNat < 0x10000
  · rw [charUnits_small hsc,charUnits_small hsd] at h
    obtain ⟨hhead,htail⟩ := List.cons.inj h
    have hcode := eq_of_toUInt16 (by omega) (by omega) hhead
    exact ⟨Char.toNat_inj.mp hcode,htail⟩
  · rw [charUnits_small hsc,charUnits_large hsd] at h
    obtain ⟨hhead,-⟩ := List.cons.inj h
    have hcode := eq_of_toUInt16 (by omega) (by omega) hhead
    omega
  · rw [charUnits_large hsc,charUnits_small hsd] at h
    obtain ⟨hhead,-⟩ := List.cons.inj h
    have hcode := eq_of_toUInt16 (by omega) (by omega) hhead
    omega
  · rw [charUnits_large hsc,charUnits_large hsd] at h
    obtain ⟨hhead,hrest⟩ := List.cons.inj h
    obtain ⟨hsecond,htail⟩ := List.cons.inj hrest
    have hlead := eq_of_toUInt16 (by omega) (by omega) hhead
    have htrail := eq_of_toUInt16 (by omega) (by omega) hsecond
    exact ⟨Char.toNat_inj.mp (by omega),htail⟩

theorem charUnits_ne_nil (c : Char) : charUnits c ≠ [] := by
  intro h
  have hlen := length_charUnits c
  rw [h] at hlen
  split at hlen <;> simp at hlen

private theorem flatMap_charUnits_inj {s t : List Char}
    (h : s.flatMap charUnits = t.flatMap charUnits) : s = t := by
  induction s generalizing t with
  | nil =>
    cases t with
    | nil => rfl
    | cons d t => exact absurd (List.append_eq_nil_iff.mp h.symm).1 (charUnits_ne_nil d)
  | cons c s ih =>
    cases t with
    | nil => exact absurd (List.append_eq_nil_iff.mp h).1 (charUnits_ne_nil c)
    | cons d t =>
      obtain ⟨rfl,hrest⟩ := charUnits_append_inj h
      rw [ih hrest]

theorem utf16_injective : Function.Injective utf16 :=
  fun _ _ h => String.toList_inj.mp (flatMap_charUnits_inj h)

@[simp] theorem utf16_inj {s t : String} : utf16 s = utf16 t ↔ s = t := utf16_injective.eq_iff

theorem utf16_eq_nil {s : String} : utf16 s = [] ↔ s = "" :=
  ⟨fun h => utf16_injective h,fun h => by rw [h]; rfl⟩

theorem utf16_append (s t : List Char) :
    utf16 (String.ofList (s ++ t)) = utf16 (String.ofList s) ++ utf16 (String.ofList t) := by
  simp only [utf16,String.toList_ofList,List.flatMap_append]

theorem length_le_utf16 (s : String) : s.toList.length ≤ (utf16 s).length := by
  rw [utf16]
  induction s.toList with
  | nil => exact Nat.zero_le _
  | cons c cs ih =>
    have hpos := List.length_pos_of_ne_nil (charUnits_ne_nil c)
    rw [List.flatMap_cons,List.length_append,List.length_cons]
    omega

def isSurrogate (u : UInt16) : Bool := isLeadSurrogate u || isTrailSurrogate u

/-- Half of a pair becomes U+FFFD. -/
def toWellFormed : JsString → JsString
  | [] => []
  | [u] => [if isSurrogate u then 0xFFFD else u]
  | u :: v :: rest =>
    if isLeadSurrogate u && isTrailSurrogate v then u :: v :: toWellFormed rest
    else (if isSurrogate u then 0xFFFD else u) :: toWellFormed (v :: rest)

@[simp] theorem length_toWellFormed (s : JsString) : (toWellFormed s).length = s.length := by
  fun_induction toWellFormed s with
  | case1 => rfl
  | case2 => rfl
  | case3 u v rest hpair ih => simp [ih]
  | case4 u v rest hpair ih => simp [ih]

private theorem le_toUInt16 {m n : Nat} (hm : m < 65536) (hn : n < 65536) :
    m.toUInt16 ≤ n.toUInt16 ↔ m ≤ n := by
  rw [UInt16.le_iff_toNat_le,toNat_toUInt16 hm,toNat_toUInt16 hn]

private theorem isLeadSurrogate_eq {n : Nat} (h : n < 65536) :
    isLeadSurrogate n.toUInt16 = (decide (0xD800 ≤ n) && decide (n ≤ 0xDBFF)) := by
  have hlow := le_toUInt16 (m := 0xD800) (by omega) h
  have hhigh := le_toUInt16 (n := 0xDBFF) h (by omega)
  simp only [isLeadSurrogate,← hlow,← hhigh]
  rfl

private theorem isTrailSurrogate_eq {n : Nat} (h : n < 65536) :
    isTrailSurrogate n.toUInt16 = (decide (0xDC00 ≤ n) && decide (n ≤ 0xDFFF)) := by
  have hlow := le_toUInt16 (m := 0xDC00) (by omega) h
  have hhigh := le_toUInt16 (n := 0xDFFF) h (by omega)
  simp only [isTrailSurrogate,← hlow,← hhigh]
  rfl

private theorem toWellFormed_charUnits (c : Char) (rest : JsString) :
    toWellFormed (charUnits c ++ rest) = charUnits c ++ toWellFormed rest := by
  have hc := scalar c
  by_cases hsmall : c.toNat < 0x10000
  · have hlead : isLeadSurrogate c.toNat.toUInt16 = false := by
      rw [isLeadSurrogate_eq (by omega),Bool.and_eq_false_iff,decide_eq_false_iff_not,
        decide_eq_false_iff_not]
      omega
    have htrail : isTrailSurrogate c.toNat.toUInt16 = false := by
      rw [isTrailSurrogate_eq (by omega),Bool.and_eq_false_iff,decide_eq_false_iff_not,
        decide_eq_false_iff_not]
      omega
    rw [charUnits_small hsmall]
    cases rest with
    | nil => simp [toWellFormed,isSurrogate,hlead,htrail]
    | cons v rest => simp [toWellFormed,isSurrogate,hlead,htrail]
  · have hlead : isLeadSurrogate (0xD800+(c.toNat-0x10000)/0x400).toUInt16 = true := by
      rw [isLeadSurrogate_eq (by omega),Bool.and_eq_true_iff,decide_eq_true_iff,decide_eq_true_iff]
      omega
    have htrail : isTrailSurrogate (0xDC00+(c.toNat-0x10000)%0x400).toUInt16 = true := by
      rw [isTrailSurrogate_eq (by omega),Bool.and_eq_true_iff,decide_eq_true_iff,decide_eq_true_iff]
      omega
    rw [charUnits_large hsmall]
    simp only [List.cons_append,List.nil_append,toWellFormed,hlead,htrail,Bool.and_self,if_true]

theorem toWellFormed_utf16 (s : String) : toWellFormed (utf16 s) = utf16 s := by
  rw [utf16]
  induction s.toList with
  | nil => rfl
  | cons c cs ih => rw [List.flatMap_cons,toWellFormed_charUnits,ih]

end WeirdVault.Framework
