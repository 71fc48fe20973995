import Mathlib.Data.List.GetD
import Mathlib.Data.List.Nodup
import Mathlib.Tactic.Common

/-!
# Base 64

Three bytes are four digits, and a rest of one or two bytes is two or three. What is encoded is
decoded to itself, and the encoding uses no characters but the digits and the padding.
-/

namespace WeirdVault.Framework

/-- Sixty-four digits, and what fills up the last group. -/
structure Base64 where
  alphabet : List Char
  length : alphabet.length = 64
  nodup : alphabet.Nodup
  pad : List Char

namespace Base64

variable (B : Base64)

def digit (n : Nat) : Char := B.alphabet.getD (n%64) 'A'

def value (c : Char) : Option Nat := if c ∈ B.alphabet then some (B.alphabet.idxOf c) else none

def encode : List UInt8 → List Char
  | [] => []
  | [a] => [B.digit (a.toNat/4),B.digit (a.toNat*16)] ++ B.pad ++ B.pad
  | [a,b] => [B.digit (a.toNat/4),B.digit (a.toNat*16+b.toNat/16),B.digit (b.toNat*4)] ++ B.pad
  | a :: b :: c :: rest =>
    B.digit (a.toNat/4) :: B.digit (a.toNat*16+b.toNat/16) :: B.digit (b.toNat*4+c.toNat/64) ::
      B.digit c.toNat :: encode rest

/-- Digits only; what a last group leaves over must be zero. -/
def decode : List Char → Option (List UInt8)
  | [] => some []
  | [_] => none
  | [x,y] => do
    let u ← B.value x
    let v ← B.value y
    if v%16 = 0 then some [UInt8.ofNat (u*4+v/16)] else none
  | [x,y,z] => do
    let u ← B.value x
    let v ← B.value y
    let w ← B.value z
    if w%4 = 0 then some [UInt8.ofNat (u*4+v/16),UInt8.ofNat (v*16+w/4)] else none
  | x :: y :: z :: t :: rest => do
    let u ← B.value x
    let v ← B.value y
    let w ← B.value z
    let n ← B.value t
    let bytes ← decode rest
    return UInt8.ofNat (u*4+v/16) :: UInt8.ofNat (v*16+w/4) :: UInt8.ofNat (w*64+n) :: bytes

theorem digit_mem (n : Nat) : B.digit n ∈ B.alphabet := by
  have hlt : n%64 < B.alphabet.length := by
    rw [B.length]
    exact Nat.mod_lt n (by decide)
  rw [digit,List.getD_eq_getElem _ _ hlt]
  exact List.getElem_mem hlt

@[simp] theorem value_digit (n : Nat) : B.value (B.digit n) = some (n%64) := by
  have hlt : n%64 < B.alphabet.length := by
    rw [B.length]
    exact Nat.mod_lt n (by decide)
  rw [value,if_pos (B.digit_mem n),digit,List.getD_eq_getElem _ _ hlt,
    B.nodup.idxOf_getElem _ hlt]

theorem mem_encode {bs : List UInt8} {c : Char} (h : c ∈ B.encode bs) :
    c ∈ B.alphabet ∨ c ∈ B.pad := by
  induction bs using encode.induct with
  | case1 => simp [encode] at h
  | case2 a =>
    simp only [encode,List.mem_append,List.mem_cons,List.not_mem_nil,or_false] at h
    rcases h with ((rfl | rfl) | h) | h
    · exact Or.inl (B.digit_mem _)
    · exact Or.inl (B.digit_mem _)
    · exact Or.inr h
    · exact Or.inr h
  | case3 a b =>
    simp only [encode,List.mem_append,List.mem_cons,List.not_mem_nil,or_false] at h
    rcases h with (rfl | rfl | rfl) | h
    · exact Or.inl (B.digit_mem _)
    · exact Or.inl (B.digit_mem _)
    · exact Or.inl (B.digit_mem _)
    · exact Or.inr h
  | case4 a b c rest ih =>
    simp only [encode,List.mem_cons] at h
    rcases h with rfl | rfl | rfl | rfl | h
    · exact Or.inl (B.digit_mem _)
    · exact Or.inl (B.digit_mem _)
    · exact Or.inl (B.digit_mem _)
    · exact Or.inl (B.digit_mem _)
    · exact ih h

private theorem byte_eq {n : Nat} {a : UInt8} (h : n%256 = a.toNat) : UInt8.ofNat n = a := by
  apply UInt8.toNat_inj.mp
  rw [UInt8.toNat_ofNat']
  exact h

theorem decode_encode (hpad : B.pad = []) (bs : List UInt8) : B.decode (B.encode bs) = some bs := by
  induction bs using encode.induct with
  | case1 => rfl
  | case2 a =>
    have ha := a.toNat_lt
    have hrest : a.toNat*16%64%16 = 0 := by omega
    have hbyte := byte_eq (a := a) (n := a.toNat/4%64*4+a.toNat*16%64/16) (by omega)
    simp only [encode,decode,hpad,List.append_nil,value_digit]
    simp only [Option.bind_eq_bind,Option.bind_some,hrest,hbyte,if_true]
  | case3 a b =>
    have ha := a.toNat_lt
    have hb := b.toNat_lt
    have hrest : b.toNat*4%64%4 = 0 := by omega
    have hfirst := byte_eq (a := a) (n := a.toNat/4%64*4+(a.toNat*16+b.toNat/16)%64/16) (by omega)
    have hsecond := byte_eq (a := b) (n := (a.toNat*16+b.toNat/16)%64*16+b.toNat*4%64/4) (by omega)
    simp only [encode,decode,hpad,List.append_nil,value_digit]
    simp only [Option.bind_eq_bind,Option.bind_some,hrest,hfirst,hsecond,if_true]
  | case4 a b c rest ih =>
    have ha := a.toNat_lt
    have hb := b.toNat_lt
    have hc := c.toNat_lt
    have hfirst := byte_eq (a := a) (n := a.toNat/4%64*4+(a.toNat*16+b.toNat/16)%64/16) (by omega)
    have hsecond := byte_eq (a := b)
      (n := (a.toNat*16+b.toNat/16)%64*16+(b.toNat*4+c.toNat/64)%64/4) (by omega)
    have hthird := byte_eq (a := c) (n := (b.toNat*4+c.toNat/64)%64*64+c.toNat%64) (by omega)
    simp only [encode,decode,value_digit,ih]
    simp only [Option.bind_eq_bind,Option.bind_some,hfirst,hsecond,hthird]
    rfl

def unpadded : Base64 := { B with pad := [] }

private theorem filter_pad (hpad : ∀ c ∈ B.pad, c ∉ B.alphabet) :
    B.pad.filter (fun c => decide (c ∈ B.alphabet)) = [] := by
  rw [List.filter_eq_nil_iff]
  intro c hc
  simpa using hpad c hc

theorem filter_encode (hpad : ∀ c ∈ B.pad, c ∉ B.alphabet) (bs : List UInt8) :
    (B.encode bs).filter (fun c => decide (c ∈ B.alphabet)) = B.unpadded.encode bs := by
  have hdigit : ∀ n, decide (B.digit n ∈ B.alphabet) = true := fun n => decide_eq_true (B.digit_mem n)
  induction bs using encode.induct with
  | case1 => rfl
  | case2 a =>
    simp only [encode,List.filter_append,filter_pad B hpad,List.filter_cons,hdigit]
    rfl
  | case3 a b =>
    simp only [encode,List.filter_append,filter_pad B hpad,List.filter_cons,hdigit]
    rfl
  | case4 a b c rest ih =>
    simp only [encode,List.filter_cons,hdigit,ih]
    rfl

theorem decode_digits (hpad : ∀ c ∈ B.pad, c ∉ B.alphabet) (bs : List UInt8) :
    B.decode ((B.encode bs).filter (fun c => decide (c ∈ B.alphabet))) = some bs := by
  rw [B.filter_encode hpad]
  have hdecode : ∀ cs, B.decode cs = B.unpadded.decode cs := by
    intro cs
    induction cs using decode.induct with
    | case1 => rfl
    | case2 => rfl
    | case3 => rfl
    | case4 => rfl
    | case5 x y z t rest ih =>
      simp only [decode,ih]
      rfl
  rw [hdecode]
  exact B.unpadded.decode_encode rfl bs

def standard : Base64 where
  alphabet := "ABCDEFGHIJKLMNOPQRSTUVWXYZabcdefghijklmnopqrstuvwxyz0123456789+/".toList
  length := by decide +kernel
  nodup := by decide +kernel
  pad := ['=']

def urlSafe : Base64 where
  alphabet := "ABCDEFGHIJKLMNOPQRSTUVWXYZabcdefghijklmnopqrstuvwxyz0123456789-_".toList
  length := by decide +kernel
  nodup := by decide +kernel
  pad := []

theorem standard_alphabet : standard.alphabet =
  ['A','B','C','D','E','F','G','H','I','J','K','L','M','N','O','P','Q','R','S','T','U','V','W',
    'X','Y','Z','a','b','c','d','e','f','g','h','i','j','k','l','m','n','o','p','q','r','s','t',
    'u','v','w','x','y','z','0','1','2','3','4','5','6','7','8','9','+','/'] := by
  decide +kernel

theorem urlSafe_alphabet : urlSafe.alphabet =
  ['A','B','C','D','E','F','G','H','I','J','K','L','M','N','O','P','Q','R','S','T','U','V','W',
    'X','Y','Z','a','b','c','d','e','f','g','h','i','j','k','l','m','n','o','p','q','r','s','t',
    'u','v','w','x','y','z','0','1','2','3','4','5','6','7','8','9','-','_'] := by
  decide +kernel

end Base64

end WeirdVault.Framework
