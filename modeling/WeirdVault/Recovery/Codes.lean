import Mathlib.Data.List.GetD
import Mathlib.Data.Nat.Digits.Lemmas
import WeirdVault.Framework.CaseMapping

/-!
# Recovery codes as text

A code is fifteen bytes written five bits at a time, so both are the same number, once in base 256
and once in base 32. Typing changes what `normaliseRecoveryCode` undoes and nothing else.
-/

namespace WeirdVault.Recovery

open WeirdVault.Framework

def codeBytes : Nat := 15

def codeChars : Nat := 24

def codeGroup : Nat := 4

def alphabet : JsString := utf16 "0123456789ABCDEFGHJKMNPQRSTVWXYZ"

def unit (c : Char) : UInt16 := c.toNat.toUInt16

/-- The variables of the loop. -/
structure Encoder where
  acc : BitVec 32
  bits : Nat
  out : JsString
  deriving DecidableEq, Repr

def Encoder.drain (e : Encoder) : Encoder :=
  if 5 ≤ e.bits then
    Encoder.drain
      ⟨e.acc,e.bits-5,e.out ++ [alphabet.getD (e.acc.sshiftRight (e.bits-5) &&& 31).toNat 0]⟩
  else e
termination_by e.bits

def Encoder.push (e : Encoder) (byte : UInt8) : Encoder :=
  Encoder.drain ⟨(e.acc <<< 8) ||| byte.toBitVec.setWidth 32,e.bits+8,e.out⟩

def newCode (bytes : Vector UInt8 codeBytes) : JsString :=
  (bytes.toList.foldl Encoder.push ⟨0,0,[]⟩).out

def isLineTerminator (u : UInt16) : Bool := u == 0xA || u == 0xD || u == 0x2028 || u == 0x2029

def groups (n : Nat) (current : JsString) : JsString → List JsString
  | [] => if current.isEmpty then [] else [current]
  | u :: s =>
    if isLineTerminator u then
      if current.isEmpty then groups n [] s else current :: groups n [] s
    else if current.length+1 = n then (current ++ [u]) :: groups n [] s
    else groups n (current ++ [u]) s

def formatRecoveryCode (bare : JsString) : JsString :=
  [unit '-'].intercalate (groups codeGroup [] bare)

def isDigitOrCapital (u : UInt16) : Bool :=
  (unit '0' ≤ u && u ≤ unit '9') || (unit 'A' ≤ u && u ≤ unit 'Z')

def foldConfusable (u : UInt16) : UInt16 :=
  let u := if u == unit 'I' || u == unit 'L' then unit '1' else u
  if u == unit 'O' then unit '0' else u

def normaliseRecoveryCode (U : CaseMapping) (input : JsString) : JsString :=
  ((U.toUpperCase input).map foldConfusable |>.filter isDigitOrCapital).filter alphabet.contains

def Encoder.rest (e : Encoder) : Nat := e.acc.toNat % 2^e.bits

theorem five_bits (acc : BitVec 32) {k : Nat} (hk : k+5 ≤ 32) :
    (acc.sshiftRight k &&& 31).toNat = acc.toNat / 2^k % 2^5 := by
  have hmask : (acc.sshiftRight k &&& 31).toNat = (acc.sshiftRight k).toNat % 2^5 :=
    Nat.and_two_pow_sub_one_eq_mod _ 5
  rw [hmask]
  apply Nat.eq_of_testBit_eq
  intro i
  rw [Nat.testBit_mod_two_pow,Nat.testBit_mod_two_pow,Nat.testBit_div_two_pow]
  by_cases hi : i < 5
  · -- five bits from `k` on stay below the sign bit, which the shift repeats
    have hs : (acc.sshiftRight k).getLsbD i = acc.getLsbD (k+i) := by
      rw [BitVec.getLsbD_sshiftRight]
      simp [show ¬ 32 ≤ i by omega,show k+i < 32 by omega]
    simp only [BitVec.getLsbD] at hs
    rw [hs,Nat.add_comm]
  · simp [hi]

/-- A byte goes in below the bits that are left; what leaves at the top was written long ago. -/
theorem byte_below (acc : BitVec 32) (byte : UInt8) {b : Nat} (hb : b ≤ 24) :
    ((acc <<< 8) ||| byte.toBitVec.setWidth 32).toNat % 2^(b+8) =
      acc.toNat % 2^b * 2^8 + byte.toNat := by
  have hbyte : byte.toNat < 2^8 := byte.toNat_lt
  have hwide : (byte.toBitVec.setWidth 32).toNat = byte.toNat := by
    rw [BitVec.toNat_setWidth]
    exact Nat.mod_eq_of_lt (lt_trans hbyte (by decide))
  have hsplit : (2 : Nat)^32 = 2^24 * 2^8 := by decide
  have hshift : (acc <<< 8).toNat = acc.toNat % 2^24 * 2^8 := by
    rw [BitVec.toNat_shiftLeft,Nat.shiftLeft_eq,hsplit,Nat.mul_mod_mul_right]
  rw [BitVec.toNat_or,hwide,hshift,← Nat.shiftLeft_eq,← Nat.shiftLeft_add_eq_or_of_lt hbyte,
    Nat.shiftLeft_eq,pow_add,Nat.mul_comm (2^b),Nat.mod_mul]
  have hlow : (acc.toNat % 2^24 * 2^8 + byte.toNat) % 2^8 = byte.toNat := by omega
  have hhigh : (acc.toNat % 2^24 * 2^8 + byte.toNat) / 2^8 = acc.toNat % 2^24 := by omega
  rw [hlow,hhigh,Nat.mod_mod_of_dvd _ (pow_dvd_pow 2 hb)]
  omega

def digit (d : Nat) : UInt16 := alphabet.getD d 0

theorem idxOf_digit {d : Nat} (hd : d < 32) : alphabet.idxOf (digit d) = d := by
  have hall : ∀ i : Fin 32, alphabet.idxOf (digit i.val) = i.val := by decide
  exact hall ⟨d,hd⟩

theorem digit_idxOf {u : UInt16} (hu : u ∈ alphabet) : digit (alphabet.idxOf u) = u := by
  have hlt : alphabet.idxOf u < alphabet.length := List.idxOf_lt_length_of_mem hu
  rw [digit,List.getD_eq_getElem _ _ hlt]
  exact List.getElem_idxOf hlt

theorem digit_mem {d : Nat} (hd : d < 32) : digit d ∈ alphabet := by
  have hall : ∀ i : Fin 32, digit i.val ∈ alphabet := by decide
  exact hall ⟨d,hd⟩

theorem map_map_eq_self {α β : Type} {f : α → β} {g : β → α} {l : List α}
    (h : ∀ x ∈ l, g (f x) = x) : (l.map f).map g = l := by
  induction l with
  | nil => rfl
  | cons x l ih =>
    have htail : ∀ y ∈ l, g (f y) = y := fun y hy => h y (List.mem_cons_of_mem x hy)
    rw [List.map_cons,List.map_cons,h x List.mem_cons_self,ih htail]

def number (b : Nat) (ds : List Nat) : Nat := Nat.ofDigits b ds.reverse

theorem number_snoc (b : Nat) (ds : List Nat) (d : Nat) :
    number b (ds ++ [d]) = number b ds * b + d := by
  simp [number,Nat.ofDigits_cons,Nat.mul_comm,Nat.add_comm]

theorem number_inj {b : Nat} (hb : 1 < b) {xs ys : List Nat} (hlen : xs.length = ys.length)
    (hx : ∀ d ∈ xs, d < b) (hy : ∀ d ∈ ys, d < b) (h : number b xs = number b ys) : xs = ys := by
  have hrev : xs.reverse = ys.reverse := by
    apply Nat.ofDigits_inj_of_len_eq hb _ _ _ h
    · simpa using hlen
    · simpa using hx
    · simpa using hy
  exact List.reverse_injective hrev

theorem number_lt {b : Nat} (hb : 1 < b) {ds : List Nat} (h : ∀ d ∈ ds, d < b) :
    number b ds < b^ds.length := by
  have hlt := Nat.ofDigits_lt_base_pow_length hb (show ∀ d ∈ ds.reverse, d < b by simpa using h)
  rwa [List.length_reverse] at hlt

theorem exists_number {b : Nat} (hb : 1 < b) {l n : Nat} (hn : n < b^l) :
    ∃ ds, ds.length = l ∧ (∀ d ∈ ds, d < b) ∧ number b ds = n := by
  refine ⟨(Nat.digitsAppend b l n).reverse,?_,?_,?_⟩
  · rw [List.length_reverse,Nat.length_digitsAppend hb l hn]
  · intro d hd
    exact Nat.lt_of_mem_digitsAppend hb l d (List.mem_reverse.mp hd)
  · rw [number,List.reverse_reverse,Nat.digitsAppend,Nat.ofDigits_append_replicate_zero,
      Nat.ofDigits_digits]

structure Encoder.Spells (e : Encoder) (ds : List Nat) (n : Nat) : Prop where
  out : e.out = ds.map digit
  small : ∀ d ∈ ds, d < 32
  sum : number 32 ds * 2^e.bits + e.rest = n

theorem drain_spells {e : Encoder} {ds : List Nat} {n : Nat} (h : e.Spells ds n)
    (hbits : e.bits ≤ 32) :
    ∃ ds', e.drain.Spells ds' n ∧ e.drain.acc = e.acc ∧ e.drain.bits < 5 ∧
      5*ds'.length+e.drain.bits = 5*ds.length+e.bits := by
  induction e using Encoder.drain.induct generalizing ds with
  | case1 e hfive ih =>
    obtain ⟨k,hk⟩ := Nat.exists_eq_add_of_le' hfive
    let d := e.acc.toNat / 2^k % 2^5
    have hlt : d < 32 := Nat.mod_lt _ (by decide)
    have hstep : Encoder.Spells ⟨e.acc,e.bits-5,e.out ++
        [alphabet.getD (e.acc.sshiftRight (e.bits-5) &&& 31).toNat 0]⟩ (ds ++ [d]) n := by
      have hsub : e.bits-5 = k := by omega
      refine ⟨?_,?_,?_⟩
      · rw [hsub,five_bits e.acc (by omega),h.out,List.map_append]
        rfl
      · intro x hx
        rcases List.mem_append.mp hx with hx | hx
        · exact h.small x hx
        · rw [List.mem_singleton.mp hx]
          exact hlt
      · have hsum := h.sum
        simp only [Encoder.rest] at hsum ⊢
        rw [hk,pow_add,Nat.mod_mul] at hsum
        rw [hsub,number_snoc,← hsum]
        ring
    obtain ⟨ds',hspells,hacc,hlow,hlen⟩ := ih hstep (show e.bits-5 ≤ 32 by omega)
    rw [Encoder.drain,if_pos hfive]
    refine ⟨ds',hspells,hacc,hlow,?_⟩
    simp only [List.length_append,List.length_singleton] at hlen
    omega
  | case2 e hfive =>
    rw [Encoder.drain,if_neg hfive]
    exact ⟨ds,h,rfl,by omega,rfl⟩

theorem push_spells {e : Encoder} {ds : List Nat} {n : Nat} (h : e.Spells ds n)
    (hbits : e.bits < 5) (byte : UInt8) :
    ∃ ds', (e.push byte).Spells ds' (n*2^8+byte.toNat) ∧ (e.push byte).bits < 5 ∧
      5*ds'.length+(e.push byte).bits = 5*ds.length+e.bits+8 := by
  have hstep : Encoder.Spells ⟨(e.acc <<< 8) ||| byte.toBitVec.setWidth 32,e.bits+8,e.out⟩ ds
      (n*2^8+byte.toNat) := by
    refine ⟨h.out,h.small,?_⟩
    have hsum := h.sum
    simp only [Encoder.rest] at hsum ⊢
    rw [byte_below e.acc byte (by omega),← hsum,pow_add]
    ring
  obtain ⟨ds',hspells,-,hlow,hlen⟩ := drain_spells hstep (show e.bits+8 ≤ 32 by omega)
  exact ⟨ds',hspells,hlow,hlen⟩

private theorem run_spells (bytes : List UInt8) :
    ∃ ds, (bytes.foldl Encoder.push ⟨0,0,[]⟩).Spells ds (number 256 (bytes.map UInt8.toNat)) ∧
      (bytes.foldl Encoder.push ⟨0,0,[]⟩).bits < 5 ∧
      5*ds.length+(bytes.foldl Encoder.push ⟨0,0,[]⟩).bits = 8*bytes.length := by
  induction bytes using List.reverseRecOn with
  | nil => exact ⟨[],⟨rfl,by simp,by simp [number,Encoder.rest,Nat.mod_one]⟩,by simp,rfl⟩
  | append_singleton bytes byte ih =>
    obtain ⟨ds,hspells,hbits,hlen⟩ := ih
    obtain ⟨ds',hnext,hlow,hgrown⟩ := push_spells hspells hbits byte
    rw [List.foldl_append,List.foldl_cons,List.foldl_nil,List.map_append,List.map_singleton,
      number_snoc,List.length_append,List.length_singleton]
    exact ⟨ds',hnext,hlow,by omega⟩

theorem newCode_digits (bytes : Vector UInt8 codeBytes) :
    ∃ ds, newCode bytes = ds.map digit ∧ ds.length = codeChars ∧ (∀ d ∈ ds, d < 32) ∧
      number 32 ds = number 256 (bytes.toList.map UInt8.toNat) := by
  obtain ⟨ds,hspells,hbits,hlen⟩ := run_spells bytes.toList
  have hcount : 5*ds.length+(bytes.toList.foldl Encoder.push ⟨0,0,[]⟩).bits = 120 := by
    rw [hlen,Vector.length_toList]
    rfl
  have hzero : (bytes.toList.foldl Encoder.push ⟨0,0,[]⟩).bits = 0 := by omega
  have hsum := hspells.sum
  rw [Encoder.rest,hzero,pow_zero,Nat.mul_one,Nat.mod_one,Nat.add_zero] at hsum
  exact ⟨ds,hspells.out,by rw [codeChars]; omega,hspells.small,hsum⟩

theorem length_newCode (bytes : Vector UInt8 codeBytes) : (newCode bytes).length = codeChars := by
  obtain ⟨ds,hds,hlen,-,-⟩ := newCode_digits bytes
  rw [hds,List.length_map,hlen]

theorem mem_newCode {bytes : Vector UInt8 codeBytes} {u : UInt16} (hu : u ∈ newCode bytes) :
    u ∈ alphabet := by
  obtain ⟨ds,hds,-,hsmall,-⟩ := newCode_digits bytes
  rw [hds] at hu
  obtain ⟨d,hd,rfl⟩ := List.mem_map.mp hu
  exact digit_mem (hsmall d hd)

theorem newCode_injective : Function.Injective newCode := by
  intro a b h
  obtain ⟨ds,hds,-,hsmall,hsum⟩ := newCode_digits a
  obtain ⟨es,hes,-,hsmall',hsum'⟩ := newCode_digits b
  have hdigits : ds = es := by
    have hback : ∀ l : List Nat, (∀ d ∈ l, d < 32) → (l.map digit).map alphabet.idxOf = l :=
      fun l hl => map_map_eq_self (fun d hd => idxOf_digit (hl d hd))
    rw [← hback ds hsmall,← hds,h,hes,hback es hsmall']
  have hbytes : ∀ c : Vector UInt8 codeBytes, ∀ d ∈ c.toList.map UInt8.toNat, d < 256 := by
    intro c d hd
    obtain ⟨byte,-,rfl⟩ := List.mem_map.mp hd
    exact byte.toNat_lt
  have hmap : a.toList.map UInt8.toNat = b.toList.map UInt8.toNat := by
    apply number_inj (by decide) (by simp) (hbytes a) (hbytes b)
    rw [← hsum,← hsum',hdigits]
  have hlist : a.toList = b.toList :=
    List.map_injective_iff.mpr (fun _ _ => UInt8.toNat_inj.mp) hmap
  exact Vector.toList_inj.mp hlist

theorem newCode_surjective {code : JsString} (hlen : code.length = codeChars)
    (hmem : ∀ u ∈ code, u ∈ alphabet) : ∃ bytes, newCode bytes = code := by
  have hdigits : (code.map alphabet.idxOf).map digit = code :=
    map_map_eq_self (fun u hu => digit_idxOf (hmem u hu))
  have hsmall : ∀ d ∈ code.map alphabet.idxOf, d < 32 := by
    intro d hd
    obtain ⟨u,hu,rfl⟩ := List.mem_map.mp hd
    exact List.idxOf_lt_length_of_mem (hmem u hu)
  have hlt := number_lt (by decide) hsmall
  rw [List.length_map,hlen] at hlt
  obtain ⟨ns,hns,hnsmall,hnumber⟩ := exists_number (show 1 < 256 by decide) (l := codeBytes) hlt
  let bytes : Vector UInt8 codeBytes := ⟨(ns.map UInt8.ofNat).toArray,by simp [hns]⟩
  have hback : bytes.toList.map UInt8.toNat = ns :=
    map_map_eq_self (fun d hd => UInt8.toNat_ofNat_of_lt' (hnsmall d hd))
  obtain ⟨ds,hds,hdslen,hdsmall,hsum⟩ := newCode_digits bytes
  have heq : ds = code.map alphabet.idxOf := by
    apply number_inj (by decide) (by simp [hdslen,hlen]) hdsmall hsmall
    rw [hsum,hback,hnumber]
  exact ⟨bytes,by rw [hds,heq,hdigits]⟩

example : formatRecoveryCode (utf16 "0123456789AB") = utf16 "0123-4567-89AB" := by decide

/-- What may be typed for a character: itself in either case, or what it is mistaken for. -/
def typings (u : UInt16) : JsString :=
  [u,if unit 'A' ≤ u && u ≤ unit 'Z' then u+32 else u] ++
    (if u = unit '1' then utf16 "IiLl" else []) ++ (if u = unit '0' then utf16 "Oo" else [])

inductive Typed : JsString → JsString → Prop
  | nil : Typed [] []
  | inserted {shown typed : JsString} {u : UInt16} (h : isSeparator u) :
      Typed shown typed → Typed shown (u :: typed)
  | omitted {shown typed : JsString} {u : UInt16} (h : isSeparator u) :
      Typed shown typed → Typed (u :: shown) typed
  | typed {shown typed : JsString} {u v : UInt16} (h : v ∈ typings u) :
      Typed shown typed → Typed (u :: shown) (v :: typed)

private theorem all_typings : alphabet.all (fun u => (typings u).all (fun v => v < 128 &&
    !isLeadSurrogate v && foldConfusable (asciiUpper v) == u && isDigitOrCapital u)) := by decide

private theorem all_separators : (spaces ++ dashes).all (fun u => !isLeadSurrogate u &&
    (!alphabet.contains u && foldConfusable u == u) && typings u == [u,u]) := by decide

variable (U : CaseMapping)

private theorem normalise_cons {u : UInt16} (hlead : isLeadSurrogate u = false) {v : UInt16}
    (hupper : U.upper u.toNat = [v]) (s : JsString) :
    normaliseRecoveryCode U (u :: s) =
      [foldConfusable v].filter (fun w => isDigitOrCapital w && alphabet.contains w) ++
        normaliseRecoveryCode U s := by
  simp only [normaliseRecoveryCode,List.filter_filter]
  rw [U.toUpperCase_cons hlead,hupper,List.map_append,List.filter_append,List.map_singleton]
  simp only [Bool.and_comm]

theorem normalise_cons_typed {u v : UInt16} (hu : u ∈ alphabet) (hv : v ∈ typings u)
    (s : JsString) : normaliseRecoveryCode U (v :: s) = u :: normaliseRecoveryCode U s := by
  have h := List.all_eq_true.mp (List.all_eq_true.mp all_typings u hu) v hv
  simp only [Bool.and_eq_true,decide_eq_true_eq,beq_iff_eq,Bool.not_eq_true'] at h
  obtain ⟨⟨⟨hlt,hlead⟩,hfold⟩,hcapital⟩ := h
  rw [normalise_cons U hlead (U.ascii v hlt),hfold]
  simp [hcapital,hu]

theorem normalise_cons_separator {u : UInt16} (hu : isSeparator u) (s : JsString) :
    normaliseRecoveryCode U (u :: s) = normaliseRecoveryCode U s := by
  have hmem : u ∈ spaces ++ dashes := by simpa [isSeparator] using hu
  have h := List.all_eq_true.mp all_separators u hmem
  simp only [Bool.and_eq_true,Bool.not_eq_true',beq_iff_eq] at h
  obtain ⟨⟨hlead,hother,hfold⟩,-⟩ := h
  rw [normalise_cons U hlead (U.separator u hu),hfold,List.filter_singleton,hother]
  simp

theorem normalise_typed {shown typed : JsString} (h : Typed shown typed)
    (hshown : ∀ u ∈ shown, u ∈ alphabet ∨ isSeparator u) :
    normaliseRecoveryCode U typed = shown.filter alphabet.contains := by
  have hsep : ∀ u, isSeparator u → alphabet.contains u = false ∧ ∀ v ∈ typings u, v = u := by
    intro u hu
    have hmem : u ∈ spaces ++ dashes := by simpa [isSeparator] using hu
    have hall := List.all_eq_true.mp all_separators u hmem
    simp only [Bool.and_eq_true,Bool.not_eq_true',beq_iff_eq] at hall
    refine ⟨hall.1.2.1,?_⟩
    rw [hall.2]
    simp
  induction h with
  | nil => rfl
  | inserted hu _ ih => rw [normalise_cons_separator U hu,ih hshown]
  | @omitted shown typed u hu _ ih =>
    rw [ih (fun v hv => hshown v (List.mem_cons_of_mem u hv)),List.filter_cons,(hsep u hu).1]
    rfl
  | @typed shown typed u v hv _ ih =>
    have hrest := ih (fun w hw => hshown w (List.mem_cons_of_mem u hw))
    rw [List.filter_cons]
    rcases hshown u List.mem_cons_self with hu | hu
    · have hcontains : alphabet.contains u = true := List.contains_iff_mem.mpr hu
      rw [normalise_cons_typed U hu hv,hrest,if_pos hcontains]
    · rw [(hsep u hu).2 v hv,normalise_cons_separator U hu,hrest,(hsep u hu).1]
      rfl

private theorem flatten_groups {n : Nat} {s : JsString} (h : ∀ u ∈ s, isLineTerminator u = false)
    (current : JsString) : (groups n current s).flatten = current ++ s := by
  induction s generalizing current with
  | nil => cases current <;> simp [groups]
  | cons u s ih =>
    have htail : ∀ v ∈ s, isLineTerminator v = false := fun v hv => h v (List.mem_cons_of_mem u hv)
    rw [groups,h u List.mem_cons_self,if_neg Bool.false_ne_true]
    by_cases hfull : current.length+1 = n
    · rw [if_pos hfull,List.flatten_cons,ih htail]
      simp
    · rw [if_neg hfull,ih htail]
      simp

private theorem intercalate_cons_cons (sep s t : JsString) (l : List JsString) :
    sep.intercalate (s :: t :: l) = s ++ sep ++ sep.intercalate (t :: l) := by
  simp [List.intercalate]

private theorem filter_intercalate {p : UInt16 → Bool} {sep : JsString} (h : sep.filter p = [])
    (l : List JsString) : (sep.intercalate l).filter p = l.flatten.filter p := by
  induction l with
  | nil => rfl
  | cons s l ih =>
    cases l with
    | nil => simp [List.intercalate]
    | cons t l =>
      rw [intercalate_cons_cons,List.filter_append,List.filter_append,h,ih,List.append_nil,
        ← List.filter_append,← List.flatten_cons]

private theorem mem_intercalate {sep : JsString} {l : List JsString} {u : UInt16}
    (hu : u ∈ sep.intercalate l) : u ∈ l.flatten ∨ u ∈ sep := by
  induction l with
  | nil => exact Or.inl hu
  | cons s l ih =>
    cases l with
    | nil => exact Or.inl (by simpa [List.intercalate] using hu)
    | cons t l =>
      rw [intercalate_cons_cons,List.mem_append,List.mem_append] at hu
      rw [List.flatten_cons,List.mem_append]
      rcases hu with (hu | hu) | hu
      · exact Or.inl (Or.inl hu)
      · exact Or.inr hu
      · exact (ih hu).imp Or.inr id

private theorem flatten_code {code : JsString} (h : ∀ u ∈ code, u ∈ alphabet) :
    (groups codeGroup [] code).flatten = code := by
  have hall : alphabet.all (fun u => !isLineTerminator u) := by decide
  apply flatten_groups
  intro u hu
  simpa using List.all_eq_true.mp hall u (h u hu)

theorem filter_format {code : JsString} (h : ∀ u ∈ code, u ∈ alphabet) :
    (formatRecoveryCode code).filter alphabet.contains = code := by
  have hdash : [unit '-'].filter alphabet.contains = [] := by decide
  rw [formatRecoveryCode,filter_intercalate hdash,flatten_code h]
  exact List.filter_eq_self.mpr (fun u hu => List.contains_iff_mem.mpr (h u hu))

theorem mem_format {code : JsString} (h : ∀ u ∈ code, u ∈ alphabet) {u : UInt16}
    (hu : u ∈ formatRecoveryCode code) : u ∈ alphabet ∨ isSeparator u := by
  rcases mem_intercalate hu with hu | hu
  · rw [flatten_code h] at hu
    exact Or.inl (h u hu)
  · rw [List.mem_singleton.mp hu]
    exact Or.inr (by decide)

/-- A recovery code is its bytes, and whatever is typed of its display is the code again. -/
theorem recovery_codes_survive_typing (U : CaseMapping) :
    (∀ bytes, (newCode bytes).length = codeChars ∧ ∀ u ∈ newCode bytes, u ∈ alphabet) ∧
      Function.Injective newCode ∧
      (∀ code : JsString, code.length = codeChars → (∀ u ∈ code, u ∈ alphabet) →
        ∃ bytes, newCode bytes = code) ∧
      ∀ bytes typed, Typed (formatRecoveryCode (newCode bytes)) typed →
        normaliseRecoveryCode U typed = newCode bytes := by
  refine ⟨fun bytes => ⟨length_newCode bytes,fun _ hu => mem_newCode hu⟩,newCode_injective,
    fun _ hlen hmem => newCode_surjective hlen hmem,?_⟩
  intro bytes typed h
  have hcode : ∀ u ∈ newCode bytes, u ∈ alphabet := fun _ hu => mem_newCode hu
  rw [normalise_typed U h (fun _ hu => mem_format hcode hu),filter_format hcode]

end WeirdVault.Recovery
