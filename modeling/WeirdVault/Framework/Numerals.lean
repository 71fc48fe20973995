import Mathlib.Data.Nat.Digits.Lemmas
import WeirdVault.Framework.Utf8

/-!
# Numerals

Numbers written in a base of at most sixteen, in small or capital letters and with any zeros in
front, and the one plain numeral that each number has.
-/

namespace WeirdVault.Framework

def digit? (b : Nat) (c : Char) : Option Nat :=
  (if 48 ≤ c.toNat ∧ c.toNat ≤ 57 then some (c.toNat-48)
    else if 97 ≤ c.toNat ∧ c.toNat ≤ 122 then some (c.toNat-87)
    else if 65 ≤ c.toNat ∧ c.toNat ≤ 90 then some (c.toNat-55)
    else none).filter (· < b)

/-- The number that the digits write, the first digit worth most. -/
def digitsValue (b : Nat) (ds : List Nat) : Nat := ds.foldl (fun n d => n*b+d) 0

/-- At least one digit, and nothing else. -/
def number? (b : Nat) (s : Text) : Option Nat :=
  if s = [] then none else (s.mapM (digit? b)).map (digitsValue b)

def numeral (b n : Nat) : Text :=
  if n = 0 then ['0'] else (Nat.digits b n).reverse.map Nat.digitChar

def isCapital (c : Char) : Bool := 65 ≤ c.toNat && c.toNat ≤ 90

/-- No capital letter, and no zero in front of a digit. -/
def IsPlain (s : Text) : Prop := (∀ c ∈ s, isCapital c = false) ∧ (s.head? = some '0' → s.length = 1)

instance (s : Text) : Decidable (IsPlain s) :=
  decidable_of_iff ((s.all fun c => !isCapital c) = true ∧ (s.head? = some '0' → s.length = 1))
    (by simp [IsPlain])

private theorem digitChar_small : ∀ d < 10, Nat.digitChar d = Char.ofNat (48+d) := by decide

private theorem digitChar_letter : ∀ d < 16, 10 ≤ d → Nat.digitChar d = Char.ofNat (87+d) := by
  decide

private theorem digitChar_facts : ∀ d < 16, (digit? 16 (Nat.digitChar d) = some d) ∧
    isCapital (Nat.digitChar d) = false ∧ (Nat.digitChar d = '0' → d = 0) := by
  decide

theorem range_of_digit? {b : Nat} {c : Char} (h : (digit? b c).isSome) :
    48 ≤ c.toNat ∧ c.toNat ≤ 57 ∨ 65 ≤ c.toNat ∧ c.toNat ≤ 90 ∨ 97 ≤ c.toNat ∧ c.toNat ≤ 122 := by
  obtain ⟨d,hd⟩ := Option.isSome_iff_exists.mp h
  have hany := (Option.filter_eq_some_iff.mp hd).1
  split at hany
  · omega
  · split at hany
    · omega
    · split at hany
      · omega
      · cases hany

theorem digit?_eq_some {b d : Nat} {c : Char} (h : digit? b c = some d) :
    d < b ∧ (c.toNat = 48+d ∧ d < 10 ∨ c.toNat = 87+d ∧ 10 ≤ d ∨ isCapital c = true) := by
  obtain ⟨hd,hlt⟩ := Option.filter_eq_some_iff.mp h
  refine ⟨of_decide_eq_true hlt,?_⟩
  split at hd
  · obtain rfl := Option.some.inj hd
    omega
  · split at hd
    · obtain rfl := Option.some.inj hd
      omega
    · split at hd
      · rename_i hcapital
        right
        right
        simpa [isCapital] using hcapital
      · cases hd

private theorem digit?_digitChar {b d : Nat} (hb : b ≤ 16) (hd : d < b) :
    digit? b (Nat.digitChar d) = some d := by
  have h := (digitChar_facts d (by omega)).1
  obtain ⟨hany,-⟩ := Option.filter_eq_some_iff.mp h
  exact Option.filter_eq_some_iff.mpr ⟨hany,decide_eq_true hd⟩

private theorem eq_digitChar {b d : Nat} {c : Char} (hb : b ≤ 16) (h : digit? b c = some d)
    (hc : isCapital c = false) : c = Nat.digitChar d := by
  obtain ⟨hlt,hcode⟩ := digit?_eq_some h
  rcases hcode with ⟨hn,hd⟩ | ⟨hn,hd⟩ | hcapital
  · rw [digitChar_small d hd,← hn,Char.ofNat_toNat]
  · rw [digitChar_letter d (by omega) hd,← hn,Char.ofNat_toNat]
  · rw [hc] at hcapital
    cases hcapital

theorem digitsValue_eq (b : Nat) (ds : List Nat) :
    digitsValue b ds = Nat.ofDigits b ds.reverse := by
  rw [digitsValue,Nat.ofDigits_eq_foldr,List.foldr_reverse]
  simp [Nat.mul_comm,Nat.add_comm]

private theorem mapM_digitChar {b : Nat} (hb : b ≤ 16) (ds : List Nat) (h : ∀ d ∈ ds, d < b) :
    (ds.map Nat.digitChar).mapM (digit? b) = some ds := by
  induction ds with
  | nil => rfl
  | cons d ds ih =>
    rw [List.map_cons,List.mapM_cons,digit?_digitChar hb (h d (by simp)),
      ih (fun e he => h e (by simp [he]))]
    rfl

private theorem eq_map_digitChar {b : Nat} (hb : b ≤ 16) {s : Text} {ds : List Nat}
    (h : s.mapM (digit? b) = some ds) (hs : ∀ c ∈ s, isCapital c = false) :
    s = ds.map Nat.digitChar ∧ ∀ d ∈ ds, d < b := by
  induction s generalizing ds with
  | nil =>
    obtain rfl := Option.some.inj h
    simp
  | cons c s ih =>
    rw [List.mapM_cons] at h
    obtain ⟨d,hd,hrest⟩ := Option.bind_eq_some_iff.mp h
    obtain ⟨es,hes,he⟩ := Option.bind_eq_some_iff.mp hrest
    obtain rfl := Option.some.inj he
    obtain ⟨hmap,hlt⟩ := ih hes (fun e hmem => hs e (by simp [hmem]))
    refine ⟨?_,?_⟩
    · rw [List.map_cons,← eq_digitChar hb hd (hs c (by simp)),← hmap]
    · intro e hmem
      rcases List.mem_cons.mp hmem with rfl | hmem
      · exact (digit?_eq_some hd).1
      · exact hlt e hmem

theorem digit?_of_number? {b n : Nat} {s : Text} {c : Char} (h : number? b s = some n)
    (hc : c ∈ s) : (digit? b c).isSome := by
  unfold number? at h
  split at h
  · cases h
  · obtain ⟨ds,hds,-⟩ := Option.map_eq_some_iff.mp h
    clear h
    induction s generalizing ds with
    | nil => cases hc
    | cons a s ih =>
      rw [List.mapM_cons] at hds
      obtain ⟨d,hd,hrest⟩ := Option.bind_eq_some_iff.mp hds
      obtain ⟨es,hes,-⟩ := Option.bind_eq_some_iff.mp hrest
      rcases List.mem_cons.mp hc with rfl | hc
      · rw [hd]
        rfl
      · exact ih hc (List.ne_nil_of_mem hc) es hes

theorem ne_nil_of_number? {b n : Nat} {s : Text} (h : number? b s = some n) : s ≠ [] := by
  rintro rfl
  cases h

theorem digitsValue_append (b : Nat) (ds es : List Nat) :
    digitsValue b (ds ++ es) = digitsValue b ds*b^es.length+digitsValue b es := by
  rw [digitsValue_eq,digitsValue_eq,digitsValue_eq,List.reverse_append,Nat.ofDigits_append,
    List.length_reverse]
  ring

variable {b : Nat} (hlow : 2 ≤ b) (hb : b ≤ 16)

private theorem digits_lt {n d : Nat} (hlow : 2 ≤ b) (h : d ∈ (Nat.digits b n).reverse) : d < b :=
  Nat.digits_lt_base (by omega) (List.mem_reverse.mp h)

include hlow hb

theorem number?_numeral (n : Nat) : number? b (numeral b n) = some n := by
  unfold numeral
  split
  · rename_i hzero
    subst hzero
    have hdigit : digit? b '0' = some 0 := digit?_digitChar hb (show 0 < b by omega)
    simp [number?,hdigit,digitsValue]
  · rename_i hn
    have hne : (Nat.digits b n).reverse.map Nat.digitChar ≠ [] := by
      simpa [Nat.digits_eq_nil_iff_eq_zero] using hn
    rw [number?,if_neg hne,mapM_digitChar hb _ (fun d hd => digits_lt hlow hd),Option.map_some,
      digitsValue_eq,List.reverse_reverse,Nat.ofDigits_digits]

theorem isPlain_numeral (n : Nat) : IsPlain (numeral b n) := by
  unfold numeral
  split
  · simp [IsPlain,isCapital]
  · rename_i hn
    refine ⟨?_,?_⟩
    · intro c hc
      obtain ⟨d,hd,rfl⟩ := List.mem_map.mp hc
      have hlt := digits_lt hlow hd
      exact (digitChar_facts d (by omega)).2.1
    · intro hhead
      rw [List.head?_map,List.head?_reverse] at hhead
      obtain ⟨d,hd,hzero⟩ := Option.map_eq_some_iff.mp hhead
      have hne : Nat.digits b n ≠ [] := Nat.digits_ne_nil_iff_ne_zero.mpr hn
      rw [List.getLast?_eq_some_getLast hne] at hd
      obtain rfl := Option.some.inj hd
      have hlt := Nat.digits_lt_base (by omega : 1 < b) (List.getLast_mem hne)
      have hd0 := (digitChar_facts _ (by omega)).2.2 hzero
      exact absurd hd0 (Nat.getLast_digit_ne_zero b hn)

theorem digit?_of_mem_numeral {n : Nat} {c : Char} (h : c ∈ numeral b n) : (digit? b c).isSome :=
  digit?_of_number? (number?_numeral hlow hb n) h

theorem eq_numeral_of_isPlain {s : Text} {n : Nat} (h : number? b s = some n) (hs : IsPlain s) :
    s = numeral b n := by
  unfold number? at h
  split at h
  · cases h
  · rename_i hne
    obtain ⟨ds,hds,hvalue⟩ := Option.map_eq_some_iff.mp h
    obtain ⟨hmap,hlt⟩ := eq_map_digitChar hb hds hs.1
    rw [digitsValue_eq] at hvalue
    cases ds with
    | nil => exact absurd hmap hne
    | cons d ds =>
      by_cases hd : d = 0
      · subst hd
        have hone := hs.2 (by rw [hmap]; rfl)
        have hnil : ds = [] := by
          rw [hmap] at hone
          simpa using hone
        subst hnil
        subst hvalue
        rw [hmap]
        rfl
      · have hdigits : Nat.digits b n = (d :: ds).reverse := by
          rw [← hvalue]
          apply Nat.digits_ofDigits b (by omega)
          · intro e he
            exact hlt e (List.mem_reverse.mp he)
          · intro _
            rw [List.getLast_reverse]
            exact hd
        have hn : n ≠ 0 := by
          rintro rfl
          simp at hdigits
        rw [numeral,if_neg hn,hdigits,List.reverse_reverse,hmap]

theorem isPlain_iff {s : Text} {n : Nat} (h : number? b s = some n) :
    IsPlain s ↔ s = numeral b n := by
  constructor
  · exact eq_numeral_of_isPlain hlow hb h
  · rintro rfl
    exact isPlain_numeral hlow hb n

omit hb in
theorem length_numeral_le {n k : Nat} (hk : 0 < k) (hn : n < b^k) : (numeral b n).length ≤ k := by
  unfold numeral
  split
  · exact hk
  · rw [List.length_map,List.length_reverse]
    exact (Nat.digits_length_le_iff (by omega) n).mpr hn

end WeirdVault.Framework
