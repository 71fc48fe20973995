import WeirdVault.Framework.Base64

/-!
# Base 64 that is read forgivingly

What a last group leaves over may be anything. Without padding the strict decoder accepts exactly
what is encoded; the forgiving one takes also what differs from it in the bits that are left over.
-/

namespace WeirdVault.Framework.Base64

variable (B : Base64)

/-- As `decode`, whatever is left over. -/
def loose : List Char → Option (List UInt8)
  | [] => some []
  | [_] => none
  | [x,y] => do
    let u ← B.value x
    let v ← B.value y
    return [UInt8.ofNat (u*4+v/16)]
  | [x,y,z] => do
    let u ← B.value x
    let v ← B.value y
    let w ← B.value z
    return [UInt8.ofNat (u*4+v/16),UInt8.ofNat (v*16+w/4)]
  | x :: y :: z :: t :: rest => do
    let u ← B.value x
    let v ← B.value y
    let w ← B.value z
    let n ← B.value t
    let bytes ← loose rest
    return UInt8.ofNat (u*4+v/16) :: UInt8.ofNat (v*16+w/4) :: UInt8.ofNat (w*64+n) :: bytes

def clearDigit (unit : ℕ) (c : Char) : Char :=
  match B.value c with
  | some v => B.digit (v-v%unit)
  | none => c

def clear : List Char → List Char
  | [x,y] => [x,B.clearDigit 16 y]
  | [x,y,z] => [x,y,B.clearDigit 4 z]
  | x :: y :: z :: t :: rest => x :: y :: z :: t :: clear rest
  | cs => cs

theorem value_eq_some {c : Char} {v : ℕ} (h : B.value c = some v) :
    c ∈ B.alphabet ∧ v < 64 ∧ B.digit v = c := by
  unfold value at h
  split at h
  · rename_i hmem
    obtain rfl := Option.some.inj h
    have hlt := List.idxOf_lt_length_of_mem hmem
    rw [B.length] at hlt
    refine ⟨hmem,hlt,?_⟩
    rw [digit,Nat.mod_eq_of_lt hlt,List.getD_eq_getElem _ _ (by rw [B.length]; exact hlt)]
    exact List.getElem_idxOf _
  · cases h

theorem value_isSome {c : Char} : (B.value c).isSome ↔ c ∈ B.alphabet := by
  unfold value
  split
  · simp_all
  · simp_all

@[simp] theorem length_clear (cs : List Char) : (B.clear cs).length = cs.length := by
  fun_induction clear B cs with
  | case1 => rfl
  | case2 => rfl
  | case3 x y z t rest ih => simp [ih]
  | case4 => rfl

theorem value_clearDigit (unit : ℕ) {v : ℕ} {c : Char} (h : B.value c = some v) :
    B.clearDigit unit c = B.digit (v-v%unit) ∧ B.value (B.clearDigit unit c) = some (v-v%unit) := by
  have hlt := (B.value_eq_some h).2.1
  have hdigit : B.clearDigit unit c = B.digit (v-v%unit) := by
    rw [clearDigit,h]
  refine ⟨hdigit,?_⟩
  rw [hdigit,value_digit,Nat.mod_eq_of_lt (by omega)]

private theorem clearDigit_none {unit : ℕ} {c : Char} (h : B.value c = none) :
    B.clearDigit unit c = c := by
  rw [clearDigit,h]

theorem loose_clear (cs : List Char) : B.loose (B.clear cs) = B.loose cs := by
  fun_induction clear B cs with
  | case1 x y =>
    cases hy : B.value y with
    | none => rw [clearDigit_none B hy]
    | some v =>
      have hvalue := (B.value_clearDigit 16 hy).2
      simp only [loose,hvalue,hy,Option.bind_eq_bind,Option.bind_some]
      rw [show (v-v%16)/16 = v/16 by omega]
  | case2 x y z =>
    cases hz : B.value z with
    | none => rw [clearDigit_none B hz]
    | some w =>
      have hvalue := (B.value_clearDigit 4 hz).2
      simp only [loose,hvalue,hz,Option.bind_eq_bind,Option.bind_some]
      rw [show (w-w%4)/4 = w/4 by omega]
  | case3 x y z t rest ih => simp only [loose,ih]
  | case4 => rfl

theorem loose_of_decode {cs : List Char} {bs : List UInt8} (h : B.decode cs = some bs) :
    B.loose cs = some bs := by
  induction cs using decode.induct generalizing bs with
  | case1 => exact h
  | case2 => exact h
  | case3 x y =>
    simp only [decode,Option.bind_eq_bind,Option.bind_eq_some_iff] at h
    obtain ⟨u,hu,v,hv,h⟩ := h
    split at h
    · simp only [loose,hu,hv,Option.bind_eq_bind,Option.bind_some]
      exact h
    · cases h
  | case4 x y z =>
    simp only [decode,Option.bind_eq_bind,Option.bind_eq_some_iff] at h
    obtain ⟨u,hu,v,hv,w,hw,h⟩ := h
    split at h
    · simp only [loose,hu,hv,hw,Option.bind_eq_bind,Option.bind_some]
      exact h
    · cases h
  | case5 x y z t rest ih =>
    simp only [decode,Option.bind_eq_bind,Option.bind_eq_some_iff] at h
    obtain ⟨u,hu,v,hv,w,hw,n,hn,bytes,hbytes,h⟩ := h
    simp only [loose,hu,hv,hw,hn,ih hbytes,Option.bind_eq_bind,Option.bind_some]
    exact h

private theorem digit_eq {n v : ℕ} {c : Char} (h : B.value c = some v) (hn : n%64 = v) :
    B.digit n = c := by
  rw [← (B.value_eq_some h).2.2,digit,digit,← hn,Nat.mod_mod]

private theorem digit_eq_clear (unit : ℕ) {n v : ℕ} {c : Char} (h : B.value c = some v)
    (hn : n%64 = v-v%unit) : B.digit n = B.clearDigit unit c := by
  rw [(B.value_clearDigit unit h).1,digit,digit,← hn,Nat.mod_mod]

theorem encode_of_loose (hpad : B.pad = []) {cs : List Char} {bs : List UInt8}
    (h : B.loose cs = some bs) : B.encode bs = B.clear cs := by
  fun_induction loose B cs generalizing bs with
  | case1 =>
    obtain rfl := Option.some.inj h
    rfl
  | case2 => cases h
  | case3 x y =>
    simp only [Option.bind_eq_bind,Option.bind_eq_some_iff] at h
    obtain ⟨u,hu,v,hv,h⟩ := h
    obtain rfl := Option.some.inj h
    have hult := (B.value_eq_some hu).2.1
    have hvlt := (B.value_eq_some hv).2.1
    simp only [encode,hpad,List.append_nil,clear,UInt8.toNat_ofNat']
    rw [digit_eq B hu (by omega),digit_eq_clear B 16 hv (by omega)]
  | case4 x y z =>
    simp only [Option.bind_eq_bind,Option.bind_eq_some_iff] at h
    obtain ⟨u,hu,v,hv,w,hw,h⟩ := h
    obtain rfl := Option.some.inj h
    have hult := (B.value_eq_some hu).2.1
    have hvlt := (B.value_eq_some hv).2.1
    have hwlt := (B.value_eq_some hw).2.1
    simp only [encode,hpad,List.append_nil,clear,UInt8.toNat_ofNat']
    rw [digit_eq B hu (by omega),digit_eq B hv (by omega),
      digit_eq_clear B 4 hw (by omega)]
  | case5 x y z t rest ih =>
    simp only [Option.bind_eq_bind,Option.bind_eq_some_iff] at h
    obtain ⟨u,hu,v,hv,w,hw,n,hn,bytes,hbytes,h⟩ := h
    obtain rfl := Option.some.inj h
    have hult := (B.value_eq_some hu).2.1
    have hvlt := (B.value_eq_some hv).2.1
    have hwlt := (B.value_eq_some hw).2.1
    have hnlt := (B.value_eq_some hn).2.1
    simp only [encode,clear,UInt8.toNat_ofNat',ih hbytes]
    rw [digit_eq B hu (by omega),digit_eq B hv (by omega),digit_eq B hw (by omega),
      digit_eq B hn (by omega)]

theorem loose_encode (hpad : B.pad = []) (bs : List UInt8) : B.loose (B.encode bs) = some bs :=
  B.loose_of_decode (B.decode_encode hpad bs)

theorem clear_encode (hpad : B.pad = []) (bs : List UInt8) : B.clear (B.encode bs) = B.encode bs :=
  (B.encode_of_loose hpad (B.loose_encode hpad bs)).symm

theorem loose_isSome_iff (cs : List Char) :
    (B.loose cs).isSome ↔ (∀ c ∈ cs, c ∈ B.alphabet) ∧ cs.length%4 ≠ 1 := by
  fun_induction loose B cs with
  | case1 => simp
  | case2 => simp
  | case3 x y => simp [Option.isSome_bind,Option.any_eq_true,← value_isSome,Option.isSome_iff_exists]
  | case4 x y z => simp [Option.isSome_bind,Option.any_eq_true,← value_isSome,Option.isSome_iff_exists]
  | case5 x y z t rest ih =>
    have hlength : (x :: y :: z :: t :: rest).length%4 = rest.length%4 := by
      simp only [List.length_cons]
      omega
    rw [hlength]
    simp only [Option.isSome_iff_exists,← value_isSome] at ih
    simp [Option.isSome_bind,Option.any_eq_true,← value_isSome,Option.isSome_iff_exists,ih,and_assoc]

theorem loose_map {C : Base64} {f : Char → Char} {cs : List Char}
    (h : ∀ c ∈ cs, C.value (f c) = B.value c) : C.loose (cs.map f) = B.loose cs := by
  fun_induction loose B cs with
  | case1 => rfl
  | case2 => rfl
  | case3 x y => simp [loose,h]
  | case4 x y z => simp [loose,h]
  | case5 x y z t rest ih =>
    have hrest := ih fun c hc => h c (by simp [hc])
    simp [loose,h,hrest]

theorem length_encode (hpad : B.pad = []) (bs : List UInt8) :
    (B.encode bs).length = (4*bs.length+2)/3 := by
  fun_induction encode B bs with
  | case1 => rfl
  | case2 => simp [hpad]
  | case3 => simp [hpad]
  | case4 a b c rest ih =>
    simp only [List.length_cons,ih]
    omega

end WeirdVault.Framework.Base64
