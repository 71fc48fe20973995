import Mathlib.Data.List.Basic

/-!
# Text that is indexed by its bytes

A `String` of Rust is a list of characters whose lengths and indices count bytes of UTF-8. An index
inside a character is no place to cut.
-/

namespace WeirdVault.Framework

abbrev Text := List Char

def byteLen : Text → Nat
  | [] => 0
  | c :: s => c.utf8Size+byteLen s

/-- `split_at_checked`: none past the end and inside a character. -/
def splitBytes : Text → Nat → Option (Text × Text)
  | s, 0 => some ([],s)
  | [], _+1 => none
  | c :: s, n+1 =>
    if c.utf8Size ≤ n+1 then (splitBytes s (n+1-c.utf8Size)).map (fun p => (c :: p.1,p.2)) else none

def isCharBoundary (s : Text) (n : Nat) : Bool := (splitBytes s n).isSome

@[simp] theorem byteLen_nil : byteLen [] = 0 := rfl

@[simp] theorem byteLen_cons (c : Char) (s : Text) :
    byteLen (c :: s) = c.utf8Size+byteLen s := rfl

@[simp] theorem byteLen_append (s t : Text) : byteLen (s ++ t) = byteLen s+byteLen t := by
  induction s with
  | nil => simp
  | cons c s ih =>
    rw [List.cons_append,byteLen_cons,byteLen_cons,ih]
    omega

@[simp] theorem splitBytes_zero (s : Text) : splitBytes s 0 = some ([],s) := by
  cases s <;> rfl

theorem splitBytes_append (s t : Text) : splitBytes (s ++ t) (byteLen s) = some (s,t) := by
  induction s with
  | nil => simp
  | cons c s ih =>
    have hpos := c.utf8Size_pos
    obtain ⟨n,hn⟩ := Nat.exists_eq_add_of_lt (show 0 < byteLen (c :: s) by rw [byteLen_cons]; omega)
    have hsub : n+1-c.utf8Size = byteLen s := by
      rw [byteLen_cons] at hn
      omega
    rw [hn,Nat.zero_add,List.cons_append,splitBytes,hsub,ih,if_pos (by
      rw [byteLen_cons] at hn
      omega)]
    rfl

theorem splitBytes_eq_some {s a b : Text} {n : Nat} :
    splitBytes s n = some (a,b) ↔ s = a ++ b ∧ byteLen a = n := by
  constructor
  · intro h
    induction s generalizing n a with
    | nil =>
      cases n with
      | zero =>
        cases h
        exact ⟨rfl,rfl⟩
      | succ n => cases h
    | cons c s ih =>
      cases n with
      | zero =>
        cases h
        exact ⟨rfl,rfl⟩
      | succ n =>
        rw [splitBytes] at h
        split at h
        · next hle =>
          obtain ⟨⟨a',b'⟩,hsplit,he⟩ := Option.map_eq_some_iff.mp h
          cases he
          obtain ⟨hs,hlen⟩ := ih hsplit
          refine ⟨by rw [hs]; rfl,?_⟩
          rw [byteLen_cons,hlen]
          omega
        · cases h
  · rintro ⟨rfl,rfl⟩
    exact splitBytes_append a b

theorem isCharBoundary_iff {s : Text} {n : Nat} :
    isCharBoundary s n ↔ ∃ a b, s = a ++ b ∧ byteLen a = n := by
  rw [isCharBoundary,Option.isSome_iff_exists]
  constructor
  · rintro ⟨⟨a,b⟩,h⟩
    exact ⟨a,b,splitBytes_eq_some.mp h⟩
  · rintro ⟨a,b,h⟩
    exact ⟨(a,b),splitBytes_eq_some.mpr h⟩

@[simp] theorem isCharBoundary_zero (s : Text) : isCharBoundary s 0 := by
  simp [isCharBoundary]

theorem byteLen_eq_zero {s : Text} : byteLen s = 0 ↔ s = [] := by
  cases s with
  | nil => simp
  | cons c s =>
    have hpos := c.utf8Size_pos
    simp
    omega

theorem isCharBoundary_append (s t : Text) (n : Nat) :
    isCharBoundary (s ++ t) (byteLen s+n) = isCharBoundary t n := by
  rw [Bool.eq_iff_iff,isCharBoundary_iff,isCharBoundary_iff]
  constructor
  · rintro ⟨a,b,he,hlen⟩
    rcases List.append_eq_append_iff.mp he with ⟨c,rfl,rfl⟩ | ⟨c,rfl,rfl⟩
    · rw [byteLen_append] at hlen
      exact ⟨c,b,rfl,by omega⟩
    · rw [byteLen_append] at hlen
      have hc : c = [] := byteLen_eq_zero.mp (by omega)
      subst hc
      exact ⟨[],t,rfl,by simp at hlen ⊢; omega⟩
  · rintro ⟨a,b,rfl,rfl⟩
    exact ⟨s ++ a,b,by rw [List.append_assoc],byteLen_append s a⟩

theorem inside_of_not_boundary {s : Text} {n : Nat} (hle : n ≤ byteLen s)
    (h : isCharBoundary s n = false) :
    ∃ a c b k, s = a ++ c :: b ∧ 0 < k ∧ k < c.utf8Size ∧ n = byteLen a+k := by
  induction s generalizing n with
  | nil =>
    obtain rfl : n = 0 := by simpa using hle
    simp at h
  | cons c s ih =>
    by_cases hlt : n < c.utf8Size
    · have hpos : 0 < n := by
        rcases Nat.eq_zero_or_pos n with rfl | hpos
        · simp at h
        · exact hpos
      exact ⟨[],c,s,n,rfl,hpos,hlt,by simp⟩
    · have hn : n = byteLen [c]+(n-c.utf8Size) := by
        simp
        omega
      rw [hn,show c :: s = [c] ++ s from rfl,isCharBoundary_append] at h
      rw [byteLen_cons] at hle
      obtain ⟨a,d,b,k,rfl,hpos,hk,he⟩ := ih (by omega) h
      exact ⟨c :: a,d,b,k,rfl,hpos,hk,by rw [byteLen_cons]; omega⟩

end WeirdVault.Framework
