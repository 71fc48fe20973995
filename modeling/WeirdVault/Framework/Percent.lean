import Mathlib
import WeirdVault.Framework.Lossy
import WeirdVault.Framework.Numerals

/-!
# Percent-encoding

Bytes that are kept stand as their characters, and every other byte as two digits behind a percent
sign. A percent sign without two digits behind it stands for itself.
-/

namespace WeirdVault.Framework.Percent

def hexDigit (n : ℕ) : Char := (Nat.digitChar n).toUpper

def encodeByte (b : UInt8) : Text := ['%',hexDigit (b.toNat/16),hexDigit (b.toNat%16)]

def encode (keep : Char → Bool) (bs : List UInt8) : Text :=
  bs.flatMap fun b => if keep (Char.ofNat b.toNat) then [Char.ofNat b.toNat] else encodeByte b

def hex? (b : UInt8) : Option ℕ := digit? 16 (Char.ofNat b.toNat)

def decode : List UInt8 → List UInt8
  | [] => []
  | [x] => [x]
  | [x,y] => [x,y]
  | x :: a :: b :: rest =>
    if x = 0x25 then
      match hex? a,hex? b with
      | some m,some n => UInt8.ofNat (16*m+n) :: decode rest
      | _,_ => x :: decode (a :: b :: rest)
    else x :: decode (a :: b :: rest)

def decodeText (s : Text) : List UInt8 := decode (encodeText s)

theorem decode_cons_of_ne {x : UInt8} (h : x ≠ 0x25) (rest : List UInt8) :
    decode (x :: rest) = x :: decode rest := by
  match rest with
  | [] => rfl
  | [_] => rfl
  | _ :: _ :: _ => rw [decode,if_neg h]

theorem decode_digits {a b : UInt8} {m n : ℕ} (ha : hex? a = some m) (hb : hex? b = some n)
    (rest : List UInt8) : decode (0x25 :: a :: b :: rest) = UInt8.ofNat (16*m+n) :: decode rest := by
  rw [decode,if_pos rfl,ha,hb]

theorem length_decode_le (bs : List UInt8) : (decode bs).length ≤ bs.length := by
  fun_induction decode bs with
  | case1 => exact Nat.le_refl _
  | case2 => exact Nat.le_refl _
  | case3 => exact Nat.le_refl _
  | case4 a b rest m n ha hb ih =>
    simp only [List.length_cons]
    omega
  | case5 a b rest hno ih => simpa using ih
  | case6 x a b rest hx ih => simpa using ih

theorem decode_eq_self {bs : List UInt8} (h : (decode bs).length = bs.length) : decode bs = bs := by
  fun_induction decode bs with
  | case1 => rfl
  | case2 => rfl
  | case3 => rfl
  | case4 a b rest m n ha hb ih =>
    have hle := length_decode_le rest
    simp only [List.length_cons] at h
    omega
  | case5 a b rest hno ih => rw [ih (by simpa using h)]
  | case6 x a b rest hx ih => rw [ih (by simpa using h)]

private theorem ascii_of_hex? {b : UInt8} {n : ℕ} (h : hex? b = some n) : b.toNat < 0x80 := by
  have hrange := range_of_digit? (Option.isSome_of_eq_some h)
  have hvalid : b.toNat.isValidChar := Or.inl (b.toNat_lt.trans (by decide))
  have hsame : (Char.ofNat b.toNat).toNat = b.toNat := by
    rw [Char.ofNat,dif_pos hvalid]
    rfl
  omega

theorem mem_decode_of_high {bs : List UInt8} {b : UInt8} (hb : 0x80 ≤ b.toNat) (h : b ∈ bs) :
    b ∈ decode bs := by
  fun_induction decode bs with
  | case1 => exact h
  | case2 => exact h
  | case3 => exact h
  | case4 x y rest m n hx hy ih =>
    have hlow := ascii_of_hex? hx
    have hlow' := ascii_of_hex? hy
    rcases List.mem_cons.mp h with rfl | h
    · exact absurd hb (by decide)
    · rcases List.mem_cons.mp h with rfl | h
      · omega
      · rcases List.mem_cons.mp h with rfl | h
        · omega
        · exact List.mem_cons_of_mem _ (ih h)
  | case5 x y rest hno ih =>
    rcases List.mem_cons.mp h with rfl | h
    · exact List.mem_cons_self
    · exact List.mem_cons_of_mem _ (ih h)
  | case6 z x y rest hz ih =>
    rcases List.mem_cons.mp h with rfl | h
    · exact List.mem_cons_self
    · exact List.mem_cons_of_mem _ (ih h)

private theorem hexDigit_facts : ∀ n < 16, hex? (hexDigit n).toNat.toUInt8 = some n ∧
    (hexDigit n).toNat < 0x80 := by
  decide +kernel

theorem encodeText_ascii {c : Char} (h : c.toNat < 0x80) : encodeText [c] = [c.toNat.toUInt8] := by
  simp [encodeText,TextEncoder.bytes,h]

theorem decode_encodeByte (b : UInt8) (rest : List UInt8) :
    decode (encodeText (encodeByte b) ++ rest) = b :: decode rest := by
  have hb := b.toNat_lt
  obtain ⟨hhigh,hascii⟩ := hexDigit_facts (b.toNat/16) (by omega)
  obtain ⟨hlow,hascii'⟩ := hexDigit_facts (b.toNat%16) (by omega)
  have hbytes : encodeText (encodeByte b) = [0x25,(hexDigit (b.toNat/16)).toNat.toUInt8,
      (hexDigit (b.toNat%16)).toNat.toUInt8] := by
    have hsplit : encodeByte b = ['%'] ++ ([hexDigit (b.toNat/16)] ++ [hexDigit (b.toNat%16)]) := rfl
    rw [hsplit,encodeText_append,encodeText_append,encodeText_ascii hascii,encodeText_ascii hascii']
    rfl
  have hvalue : UInt8.ofNat (16*(b.toNat/16)+b.toNat%16) = b := by
    rw [Nat.div_add_mod]
    exact UInt8.ofNat_toNat
  rw [hbytes,List.cons_append,List.cons_append,List.cons_append,List.nil_append,
    decode_digits hhigh hlow,hvalue]

def Keeps (keep : Char → Bool) : Prop := ∀ c, keep c = true → c.toNat < 0x80 ∧ c ≠ '%'

private theorem toNat_ofByte (b : UInt8) : (Char.ofNat b.toNat).toNat = b.toNat := by
  have hvalid : b.toNat.isValidChar := Or.inl (b.toNat_lt.trans (by decide))
  rw [Char.ofNat,dif_pos hvalid]
  rfl

theorem decode_encode_append {keep : Char → Bool} (h : Keeps keep) (bs rest : List UInt8) :
    decode (encodeText (encode keep bs) ++ rest) = bs ++ decode rest := by
  induction bs with
  | nil => rfl
  | cons b bs ih =>
    rw [encode,List.flatMap_cons,encodeText_append,List.append_assoc]
    split
    · rename_i hkeep
      obtain ⟨hascii,hpercent⟩ := h _ hkeep
      have hbyte : (Char.ofNat b.toNat).toNat.toUInt8 = b := by
        rw [toNat_ofByte]
        exact UInt8.ofNat_toNat
      have hne : b ≠ 0x25 := by
        rintro rfl
        exact hpercent rfl
      rw [encodeText_ascii hascii,hbyte,List.singleton_append,decode_cons_of_ne hne]
      exact congrArg (b :: ·) ih
    · rw [decode_encodeByte]
      exact congrArg (b :: ·) ih

theorem decodeText_encode {keep : Char → Bool} (h : Keeps keep) (bs : List UInt8) :
    decodeText (encode keep bs) = bs := by
  have hdecode := decode_encode_append h bs []
  rw [List.append_nil] at hdecode
  rw [decodeText,hdecode]
  exact List.append_nil bs

theorem encode_kept {keep : Char → Bool} (h : Keeps keep) {s : Text} (hs : ∀ c ∈ s, keep c = true) :
    encode keep (encodeText s) = s := by
  induction s with
  | nil => rfl
  | cons c s ih =>
    obtain ⟨hc,hs⟩ := List.forall_mem_cons.mp hs
    have hascii := (h c hc).1
    have hsplit : encodeText (c :: s) = encodeText [c] ++ encodeText s := encodeText_append [c] s
    have hcode : c.toNat.toUInt8.toNat = c.toNat := by
      simpa using Nat.mod_eq_of_lt (show c.toNat < 256 by omega)
    rw [hsplit,encodeText_ascii hascii,List.singleton_append,encode,List.flatMap_cons,hcode,
      Char.ofNat_toNat,if_pos hc]
    exact congrArg (c :: ·) (ih hs)

theorem encode_append (keep : Char → Bool) (as bs : List UInt8) :
    encode keep (as ++ bs) = encode keep as ++ encode keep bs := List.flatMap_append

private theorem hexDigit_alphanum : ∀ n < 16, (hexDigit n).isAlphanum = true := by decide +kernel

theorem mem_encode {keep : Char → Bool} {bs : List UInt8} {c : Char} (h : c ∈ encode keep bs) :
    keep c = true ∨ c = '%' ∨ c.isAlphanum = true := by
  obtain ⟨b,_,hb⟩ := List.mem_flatMap.mp h
  split at hb
  · rename_i hkept
    rw [← List.mem_singleton.mp hb] at hkept
    exact Or.inl hkept
  · have hlt := b.toNat_lt
    simp only [encodeByte,List.mem_cons,List.not_mem_nil,or_false] at hb
    rcases hb with hb | hb | hb
    · exact Or.inr (Or.inl hb)
    · exact Or.inr (Or.inr (hb ▸ hexDigit_alphanum _ (by omega)))
    · exact Or.inr (Or.inr (hb ▸ hexDigit_alphanum _ (by omega)))

theorem ascii_of_isAlphanum {c : Char} (h : c.isAlphanum = true) : c.toNat < 0x80 := by
  simp only [Char.isAlphanum,Char.isAlpha,Char.isUpper,Char.isLower,Char.isDigit,Bool.or_eq_true,
    Bool.and_eq_true,decide_eq_true_eq,UInt32.le_iff_toNat_le] at h
  show c.val.toNat < 0x80
  rcases h with (h | h) | h
  · exact lt_of_le_of_lt h.2 (by decide)
  · exact lt_of_le_of_lt h.2 (by decide)
  · exact lt_of_le_of_lt h.2 (by decide)

theorem encode_injective {keep : Char → Bool} (h : Keeps keep) :
    Function.Injective (encode keep) := by
  intro as bs he
  rw [← decodeText_encode h as,he,decodeText_encode h]

def escapeChar (c : Char) : Text := encode (fun _ => false) (encodeText [c])

private theorem keeps_nothing : Keeps fun _ => false := fun _ hc => nomatch hc

/-- Each character is written as another one, as it is or encoded. What is a digit or a percent sign
is written as it is. -/
def Partly (one : Char → Text) (read : Char → Char) : Prop :=
  ∀ c, one c = [read c] ∨
    one c = escapeChar (read c) ∧ digit? 16 (read c) = none ∧ read c ≠ '%'

private theorem high_of_bytes {n : ℕ} (h : 0x80 ≤ n) (hn : n < 0x110000) :
    ∀ b ∈ TextEncoder.bytes n, 0x80 ≤ b.toNat := by
  have hbyte : ∀ m, m < 256 → 0x80 ≤ m → 0x80 ≤ m.toUInt8.toNat := by
    intro m hm hlow
    simpa [Nat.mod_eq_of_lt hm] using hlow
  have hcontinuation : ∀ m, 0x80 ≤ (TextEncoder.continuation m).toNat :=
    fun m => hbyte _ (by omega) (by omega)
  unfold TextEncoder.bytes
  rw [if_neg (by omega)]
  split
  · simp only [List.mem_cons,List.not_mem_nil,or_false,forall_eq_or_imp,forall_eq]
    exact ⟨hbyte _ (by omega) (by omega),hcontinuation _⟩
  · split
    · simp only [List.mem_cons,List.not_mem_nil,or_false,forall_eq_or_imp,forall_eq]
      exact ⟨hbyte _ (by omega) (by omega),hcontinuation _,hcontinuation _⟩
    · simp only [List.mem_cons,List.not_mem_nil,or_false,forall_eq_or_imp,forall_eq]
      exact ⟨hbyte _ (by omega) (by omega),hcontinuation _,hcontinuation _,hcontinuation _⟩

theorem high_of_encodeText {c : Char} (h : 0x80 ≤ c.toNat) : ∀ b ∈ encodeText [c], 0x80 ≤ b.toNat := by
  have hlt : c.toNat < 0x110000 := by
    rcases c.valid with h | h
    · exact h.trans (by decide)
    · exact h.2
  simpa [encodeText] using high_of_bytes h hlt

theorem ne_of_mem_encodeText {c d : Char} (hd : d.toNat < 0x80) (h : c ≠ d) :
    ∀ b ∈ encodeText [c], Char.ofNat b.toNat ≠ d := by
  rintro b hb rfl
  rw [toNat_ofByte] at hd
  by_cases hascii : c.toNat < 0x80
  · rw [encodeText_ascii hascii,List.mem_singleton] at hb
    have hcode : c.toNat.toUInt8.toNat = c.toNat := by
      simpa using Nat.mod_eq_of_lt (show c.toNat < 256 by omega)
    rw [hb,hcode,Char.ofNat_toNat] at h
    exact h rfl
  · have hhigh := high_of_encodeText (Nat.le_of_not_lt hascii) b hb
    omega

theorem encodeText_ne_nil (c : Char) : encodeText [c] ≠ [] := by
  have hpos := c.utf8Size_pos
  have hlength := length_encodeText [c]
  intro hnil
  rw [hnil] at hlength
  simp only [List.length_nil,byteLen_cons,byteLen_nil] at hlength
  omega

theorem decode_append_of_ne {as : List UInt8} (h : ∀ a ∈ as, a ≠ 0x25) (bs : List UInt8) :
    decode (as ++ bs) = as ++ decode bs := by
  induction as with
  | nil => rfl
  | cons a as ih =>
    rw [List.cons_append,decode_cons_of_ne (h a List.mem_cons_self),
      ih fun b hb => h b (List.mem_cons_of_mem _ hb)]
    rfl

theorem decode_char_append {c : Char} (h : c ≠ '%') (bs : List UInt8) :
    decode (encodeText [c] ++ bs) = encodeText [c] ++ decode bs := by
  apply decode_append_of_ne
  intro a ha hpercent
  subst hpercent
  by_cases hascii : c.toNat < 0x80
  · rw [encodeText_ascii hascii,List.mem_singleton] at ha
    have hcode := congrArg UInt8.toNat ha
    simp only [Nat.toUInt8_eq,UInt8.toNat_ofNat'] at hcode
    rw [Nat.mod_eq_of_lt (by omega)] at hcode
    exact h (Char.toNat_inj.mp hcode.symm)
  · exact absurd (high_of_encodeText (Nat.le_of_not_lt hascii) _ ha) (by decide)

private def hexHead (bs : List UInt8) : Option ℕ := bs.head?.bind hex?

private theorem hexHead_char (c : Char) (bs : List UInt8) :
    hexHead (encodeText [c] ++ bs) = digit? 16 c := by
  by_cases hascii : c.toNat < 0x80
  · have hbyte : c.toNat.toUInt8.toNat = c.toNat := by
      simpa using Nat.mod_eq_of_lt (show c.toNat < 256 by omega)
    rw [encodeText_ascii hascii,List.singleton_append,hexHead,List.head?_cons,Option.bind_some,hex?,
      hbyte,Char.ofNat_toNat]
  · obtain ⟨b,bs',hb⟩ := List.exists_cons_of_ne_nil (encodeText_ne_nil c)
    have hhigh : 0x80 ≤ b.toNat := high_of_encodeText (Nat.le_of_not_lt hascii) b (by simp [hb])
    have hleft : hex? b = none := by
      by_contra hsome
      obtain ⟨n,hn⟩ := Option.ne_none_iff_exists'.mp hsome
      have hlow := ascii_of_hex? hn
      omega
    have hright : digit? 16 c = none := by
      by_contra hsome
      have hrange := range_of_digit? (Option.isSome_iff_ne_none.mpr hsome)
      omega
    rw [hb,List.cons_append,hexHead,List.head?_cons,Option.bind_some,hleft,hright]

theorem percent_first (c : Char) : ∃ s, escapeChar c = '%' :: s := by
  obtain ⟨b,bs,hb⟩ := List.exists_cons_of_ne_nil (encodeText_ne_nil c)
  rw [escapeChar,hb]
  exact ⟨_,rfl⟩

private theorem hexHead_escapeChar (c : Char) (bs : List UInt8) :
    hexHead (encodeText (escapeChar c) ++ bs) = none := by
  obtain ⟨s,hs⟩ := percent_first c
  rw [hs,← List.singleton_append,encodeText_append]
  rfl

private def hexPair (bs : List UInt8) : Option ℕ := do
  let m ← hexHead bs
  let n ← hexHead (bs.drop 1)
  return 16*m+n

private theorem decode_percent (bs : List UInt8) : decode (0x25 :: bs) =
    match hexPair bs with
    | some n => UInt8.ofNat n :: decode (bs.drop 2)
    | none => 0x25 :: decode bs := by
  match bs with
  | [] => rfl
  | [a] =>
    cases ha : hex? a <;> simp [decode,hexPair,hexHead,ha]
  | a :: b :: rest =>
    cases ha : hex? a <;> cases hb : hex? b <;> simp [decode,hexPair,hexHead,ha,hb]

private theorem decode_of_hexPair {bs : List UInt8} {n : ℕ} (h : hexPair bs = some n) :
    2 ≤ bs.length ∧ decode bs = bs.take 2 ++ decode (bs.drop 2) := by
  have hne : ∀ {b : UInt8} {m : ℕ}, hex? b = some m → b ≠ 0x25 := by
    rintro b m hb rfl
    cases hb
  match bs with
  | [] => cases h
  | [a] =>
    obtain ⟨_,_,h⟩ := Option.bind_eq_some_iff.mp h
    cases h
  | a :: b :: rest =>
    obtain ⟨m,ha,h⟩ := Option.bind_eq_some_iff.mp h
    obtain ⟨n,hb,_⟩ := Option.bind_eq_some_iff.mp h
    refine ⟨Nat.le_add_left _ _,?_⟩
    rw [decode_cons_of_ne (hne ha),decode_cons_of_ne (hne hb)]
    rfl

section Partly

variable {one : Char → Text} {read : Char → Char} (h : Partly one read)

include h

private theorem hexHead_partly (s : Text) :
    hexHead (encodeText (s.flatMap one)) = hexHead (encodeText (s.map read)) := by
  cases s with
  | nil => rfl
  | cons c s =>
    have hread : encodeText ((c :: s).map read) = encodeText [read c] ++ encodeText (s.map read) := by
      rw [← encodeText_append]
      rfl
    rw [List.flatMap_cons,encodeText_append,hread,hexHead_char]
    rcases h c with hone | ⟨hone,hdigit,_⟩
    · rw [hone,hexHead_char]
    · rw [hone,hexHead_escapeChar,hdigit]

private theorem hexPair_partly (s : Text) :
    hexPair (encodeText (s.flatMap one)) = hexPair (encodeText (s.map read)) := by
  cases s with
  | nil => rfl
  | cons c s =>
    have hhead := hexHead_partly h (c :: s)
    cases hdigit : hexHead (encodeText ((c :: s).map read)) with
    | none =>
      rw [hexPair,hexPair,hhead,hdigit]
      rfl
    | some m =>
      have hread : encodeText ((c :: s).map read) = encodeText [read c] ++ encodeText (s.map read) := by
        rw [← encodeText_append]
        rfl
      rw [hread,hexHead_char] at hdigit
      have hrange := range_of_digit? (Option.isSome_of_eq_some hdigit)
      have hone : one c = [read c] := by
        rcases h c with hone | ⟨_,hno,_⟩
        · exact hone
        · rw [hno] at hdigit
          cases hdigit
      have hrest := hexHead_partly h s
      rw [hexPair,hexPair,hhead,hread,List.flatMap_cons,encodeText_append,hone,
        encodeText_ascii (by omega)]
      simp only [List.singleton_append,List.drop_succ_cons,List.drop_zero,hrest]

theorem decodeText_partly (s : Text) : decodeText (s.flatMap one) = decodeText (s.map read) := by
  simp only [decodeText]
  induction s with
  | nil => rfl
  | cons c s ih =>
    have hread : encodeText ((c :: s).map read) = encodeText [read c] ++ encodeText (s.map read) := by
      rw [← encodeText_append]
      rfl
    rw [List.flatMap_cons,encodeText_append,hread]
    by_cases hpercent : read c = '%'
    · have hone : one c = ['%'] := by
        rcases h c with hone | ⟨_,_,hno⟩
        · rw [hone,hpercent]
        · exact absurd hpercent hno
      have hpair := hexPair_partly h s
      have hbyte : encodeText ['%'] = [0x25] := rfl
      rw [hone,hpercent,hbyte,List.singleton_append,List.singleton_append,decode_percent,
        decode_percent,hpair]
      cases hvalue : hexPair (encodeText (s.map read)) with
      | none => exact congrArg (0x25 :: ·) ih
      | some n =>
        obtain ⟨hlength,hdecode⟩ := decode_of_hexPair hvalue
        obtain ⟨hlength',hdecode'⟩ := decode_of_hexPair (hpair.trans hvalue)
        rw [hdecode,hdecode'] at ih
        have hsame : ((encodeText (s.flatMap one)).take 2).length =
            ((encodeText (s.map read)).take 2).length := by
          rw [List.length_take,List.length_take]
          omega
        exact congrArg (UInt8.ofNat n :: ·) (List.append_inj_right ih hsame)
    · rw [decode_char_append hpercent,← ih]
      rcases h c with hone | ⟨hone,_⟩
      · rw [hone,decode_char_append hpercent]
      · rw [hone]
        exact decode_encode_append keeps_nothing _ _

end Partly

end WeirdVault.Framework.Percent
