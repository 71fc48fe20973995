import Mathlib.Data.List.DropRight
import WeirdVault.Framework.Percent

/-!
# Addresses as the URL standard reads them

What the parser leaves out, the fragment as it is given back, and the parameters that a text
carries.
-/

namespace WeirdVault.Framework.Url

def isC0OrSpace (c : Char) : Bool := c.toNat ≤ 0x20

def isTabOrNewline (c : Char) : Bool := c = '\t' || c = '\n' || c = '\r'

def cleaned (s : Text) : Text :=
  ((s.dropWhile isC0OrSpace).rdropWhile isC0OrSpace).filter fun c => !isTabOrNewline c

def isControl (c : Char) : Bool := c.toNat < 0x20 || 0x7E < c.toNat

def inFragmentSet (c : Char) : Bool :=
  isControl c || [' ','"','<','>',Char.ofNat 0x60].contains c

def percentEncode (set : Char → Bool) (s : Text) : Text :=
  s.flatMap fun c => if set c then Percent.escapeChar c else [c]

def fromHash (s : Text) : Text := (cleaned s).dropWhile (· ≠ '#')

def hash (s : Text) : Text :=
  match fromHash s with
  | _ :: c :: rest => '#' :: percentEncode inFragmentSet (c :: rest)
  | _ => []

def isUnescaped (c : Char) : Bool :=
  c.isAlphanum || ['-','_','.','!','~','*',Char.ofNat 0x27,'(',')'].contains c

def encodeURIComponent (s : Text) : Text := Percent.encode isUnescaped (encodeText s)

def plusToSpace (c : Char) : Char := if c = '+' then ' ' else c

def formDecode (s : Text) : Text := fromUtf8Lossy (Percent.decodeText (s.map plusToSpace))

def untilFirst (a : Char) (s : Text) : Text := s.takeWhile (· ≠ a)

def afterFirst (a : Char) (s : Text) : Text := (s.dropWhile (· ≠ a)).drop 1

def withoutQuestion : Text → Text
  | '?' :: s => s
  | s => s

def searchParams (s : Text) : List (Text × Text) :=
  (((withoutQuestion s).splitOn '&').filter (· ≠ [])).map fun piece =>
    (formDecode (untilFirst '=' piece),formDecode (afterFirst '=' piece))

def get (params : List (Text × Text)) (name : Text) : Option Text :=
  (params.find? fun p => p.1 = name).map Prod.snd

section Separators

variable {one : Char → Text} {a : Char} (hsame : one a = [a]) (hother : ∀ c, c ≠ a → a ∉ one c)

theorem splitOn_append {w : Text} (hw : a ∉ w) (s : Text) :
    (w ++ s).splitOn a = (s.splitOn a).modifyHead (w ++ ·) := by
  induction w with
  | nil =>
    obtain ⟨p,ps,hsplit⟩ := List.exists_cons_of_ne_nil (List.splitOn_ne_nil a s)
    rw [List.nil_append,hsplit]
    rfl
  | cons c w ih =>
    obtain ⟨hc,hw⟩ := not_or.mp (fun h => hw (List.mem_cons.mpr h))
    obtain ⟨p,ps,hsplit⟩ := List.exists_cons_of_ne_nil (List.splitOn_ne_nil a s)
    rw [List.cons_append,List.splitOn_cons_eq_if_modifyHead,if_neg (by simpa using Ne.symm hc),ih hw,
      hsplit]
    rfl

include hsame hother

theorem splitOn_flatMap (s : Text) :
    (s.flatMap one).splitOn a = (s.splitOn a).map (·.flatMap one) := by
  induction s with
  | nil => rfl
  | cons c s ih =>
    rw [List.flatMap_cons,List.splitOn_cons_eq_if_modifyHead]
    by_cases hc : c = a
    · subst hc
      rw [hsame,List.singleton_append,List.splitOn_cons_eq_if_modifyHead,if_pos (by simp),
        if_pos (by simp),ih]
      rfl
    · obtain ⟨p,ps,hsplit⟩ := List.exists_cons_of_ne_nil (List.splitOn_ne_nil a s)
      rw [splitOn_append (hother c hc),if_neg (by simpa using hc),ih,hsplit]
      rfl

theorem untilFirst_flatMap (s : Text) :
    untilFirst a (s.flatMap one) = (untilFirst a s).flatMap one := by
  induction s with
  | nil => rfl
  | cons c s ih =>
    rw [List.flatMap_cons]
    by_cases hc : c = a
    · subst hc
      simp [untilFirst,hsame]
    · have hone : ∀ x ∈ one c, decide (x ≠ a) = true := by
        intro x hx
        rw [decide_eq_true_eq]
        rintro rfl
        exact hother c hc hx
      rw [untilFirst,List.takeWhile_append_of_pos hone,untilFirst,
        List.takeWhile_cons_of_pos (by simpa using hc),List.flatMap_cons]
      exact congrArg (one c ++ ·) ih

theorem afterFirst_flatMap (s : Text) :
    afterFirst a (s.flatMap one) = (afterFirst a s).flatMap one := by
  induction s with
  | nil => rfl
  | cons c s ih =>
    rw [List.flatMap_cons]
    by_cases hc : c = a
    · subst hc
      simp [afterFirst,hsame]
    · have hone : ∀ x ∈ one c, decide (x ≠ a) = true := by
        intro x hx
        rw [decide_eq_true_eq]
        rintro rfl
        exact hother c hc hx
      rw [afterFirst,List.dropWhile_append_of_pos hone,afterFirst,
        List.dropWhile_cons_of_pos (by simpa using hc)]
      exact ih

end Separators

/-- What is encoded is no digit and means nothing where parameters are read. -/
def Harmless (set : Char → Bool) : Prop :=
  ∀ c, set c = true → digit? 16 c = none ∧ c ∉ ['&','=','?','%','+']

private theorem digits_plain : ∀ c ∈ ['&','=','?','+'], ∀ n < 16, Percent.hexDigit n ≠ c :=
  List.forall_iff_forall_mem.mp (by decide +kernel)

theorem ne_of_mem_escapeChar {c x a : Char} (ha : a ∈ ['&','=','?','+'])
    (hx : x ∈ Percent.escapeChar c) : x ≠ a := by
  obtain ⟨b,_,hb⟩ := List.mem_flatMap.mp hx
  have hlt := b.toNat_lt
  simp only [Bool.false_eq_true,if_false,Percent.encodeByte,List.mem_cons,List.not_mem_nil,
    or_false] at hb
  rcases hb with rfl | rfl | rfl
  · rintro rfl
    revert ha
    decide
  · exact digits_plain a ha _ (by omega)
  · exact digits_plain a ha _ (by omega)

theorem harmless_of_codes {set : Char → Bool} (codes : List ℕ)
    (h : ∀ c, set c = true → isControl c = true ∨ c.toNat ∈ codes)
    (hcodes : ∀ n ∈ codes, digit? 16 (Char.ofNat n) = none ∧
      Char.ofNat n ∉ ['&','=','?','%','+']) : Harmless set := by
  intro c hc
  rcases h c hc with hcontrol | hcode
  · simp only [isControl,Bool.or_eq_true,decide_eq_true_eq] at hcontrol
    constructor
    · by_contra hsome
      have hrange := range_of_digit? (Option.isSome_iff_ne_none.mpr hsome)
      omega
    · intro hmem
      have hcode := List.mem_map_of_mem (f := Char.toNat) hmem
      have hsmall : ∀ n ∈ ['&','=','?','%','+'].map Char.toNat, 0x20 ≤ n ∧ n ≤ 0x7E := by decide
      have hbounds := hsmall _ hcode
      omega
  · have hchar := hcodes _ hcode
    rwa [Char.ofNat_toNat] at hchar

theorem harmless_fragment : Harmless inFragmentSet := by
  apply harmless_of_codes [0x20,0x22,0x3C,0x3E,0x60]
  · intro c hc
    simp only [inFragmentSet,Bool.or_eq_true,List.contains_eq_mem,decide_eq_true_eq] at hc
    rcases hc with hc | hc
    · exact Or.inl hc
    · exact Or.inr (List.mem_map_of_mem (f := Char.toNat) hc)
  · decide

private theorem map_eq_self {f : Char → Char} {s : Text} (h : ∀ c ∈ s, f c = c) : s.map f = s :=
  (List.map_congr_left h).trans (List.map_id s)

theorem percentEncode_eq_self {set : Char → Bool} {s : Text} (h : ∀ c ∈ s, set c = false) :
    percentEncode set s = s := by
  induction s with
  | nil => rfl
  | cons c s ih =>
    obtain ⟨hc,hs⟩ := List.forall_mem_cons.mp h
    rw [percentEncode,List.flatMap_cons,hc]
    exact congrArg (c :: ·) (ih hs)

section Harmless

variable {set : Char → Bool} (h : Harmless set)

private def one (set : Char → Bool) (c : Char) : Text :=
  if set c then Percent.escapeChar c else [c]

private theorem one_ne_nil (c : Char) : one set c ≠ [] := by
  rw [one]
  split
  · obtain ⟨rest,hrest⟩ := Percent.percent_first c
    rw [hrest]
    exact List.cons_ne_nil _ _
  · exact List.cons_ne_nil _ _

private theorem one_other {a c : Char} (ha : a ∈ ['&','=','?','+']) (hc : c ≠ a) :
    a ∉ one set c := by
  rw [one]
  split
  · exact fun hmem => ne_of_mem_escapeChar ha hmem rfl
  · simpa using Ne.symm hc

theorem percentEncode_eq_nil (s : Text) : percentEncode set s = [] ↔ s = [] := by
  cases s with
  | nil => simp [percentEncode]
  | cons c s =>
    constructor
    · intro h
      exact absurd (List.append_eq_nil_iff.mp h).1 (one_ne_nil c)
    · intro h
      cases h

include h

private theorem one_same {a : Char} (ha : a ∈ ['&','=','?','+']) : one set a = [a] := by
  rw [one]
  split
  · rename_i hset
    have hno := (h a hset).2
    simp only [List.mem_cons,List.not_mem_nil,or_false,not_or] at ha hno
    tauto
  · rfl

private theorem one_partly : Percent.Partly (one set) id := by
  intro c
  rw [one]
  split
  · rename_i hset
    obtain ⟨hdigit,hno⟩ := h c hset
    simp only [List.mem_cons,List.not_mem_nil,or_false,not_or] at hno
    exact Or.inr ⟨rfl,hdigit,hno.2.2.2.1⟩
  · exact Or.inl rfl

private theorem one_plus : Percent.Partly (fun c => (one set c).map plusToSpace) plusToSpace := by
  intro c
  show (one set c).map plusToSpace = _ ∨ (one set c).map plusToSpace = _ ∧ _
  rw [one]
  split
  · rename_i hset
    obtain ⟨hdigit,hno⟩ := h c hset
    simp only [List.mem_cons,List.not_mem_nil,or_false,not_or] at hno
    have hsame : plusToSpace c = c := if_neg hno.2.2.2.2
    rw [hsame]
    refine Or.inr ⟨?_,hdigit,hno.2.2.2.1⟩
    exact map_eq_self fun x hx => if_neg (ne_of_mem_escapeChar (by simp) hx)
  · exact Or.inl rfl

theorem decodeText_percentEncode (s : Text) :
    Percent.decodeText (percentEncode set s) = Percent.decodeText s := by
  have hdecode := Percent.decodeText_partly (one_partly h) s
  rwa [List.map_id] at hdecode

theorem formDecode_percentEncode (s : Text) : formDecode (percentEncode set s) = formDecode s := by
  have hone : (percentEncode set s).map plusToSpace =
      s.flatMap fun c => (one set c).map plusToSpace := List.map_flatMap
  rw [formDecode,hone,Percent.decodeText_partly (one_plus h)]
  rfl

theorem pieces_percentEncode (s : Text) : ((percentEncode set s).splitOn '&').filter (· ≠ []) =
    ((s.splitOn '&').filter (· ≠ [])).map (percentEncode set) := by
  have hflat : ∀ t, percentEncode set t = t.flatMap (one set) := fun _ => rfl
  rw [hflat,splitOn_flatMap (one_same h (by simp)) (fun c hc => one_other (by simp) hc),
    List.filter_map]
  have hempty : (fun piece : Text => decide (piece ≠ [])) ∘ (fun piece => piece.flatMap (one set)) =
      fun piece => decide (piece ≠ []) := by
    funext piece
    simp only [Function.comp_apply,← hflat,ne_eq,percentEncode_eq_nil]
  rw [hempty]
  rfl

theorem untilFirst_percentEncode (s : Text) :
    untilFirst '=' (percentEncode set s) = percentEncode set (untilFirst '=' s) :=
  untilFirst_flatMap (one_same h (by simp)) (fun _ hc => one_other (by simp) hc) s

theorem afterFirst_percentEncode (s : Text) :
    afterFirst '=' (percentEncode set s) = percentEncode set (afterFirst '=' s) :=
  afterFirst_flatMap (one_same h (by simp)) (fun _ hc => one_other (by simp) hc) s

private theorem withoutQuestion_percentEncode (s : Text) :
    withoutQuestion (percentEncode set s) = percentEncode set (withoutQuestion s) := by
  cases s with
  | nil => rfl
  | cons c s =>
    have hflat : ∀ t, percentEncode set t = t.flatMap (one set) := fun _ => rfl
    by_cases hc : c = '?'
    · subst hc
      rw [hflat,List.flatMap_cons,one_same h (by simp)]
      rfl
    · have hright : withoutQuestion (c :: s) = c :: s := by
        rw [withoutQuestion]
        rintro _ ⟨⟩
        exact hc rfl
      have hleft : ∀ w : Text, (∀ x ∈ w, x ≠ '?') → w ≠ [] → ∀ rest,
          withoutQuestion (w ++ rest) = w ++ rest := by
        intro w hw hne rest
        cases w with
        | nil => exact absurd rfl hne
        | cons x w =>
          rw [List.cons_append,withoutQuestion]
          rintro _ ⟨⟩
          exact hw '?' List.mem_cons_self rfl
      rw [hright]
      apply hleft (one set c)
      · exact fun x hx hquestion => one_other (by simp) hc (hquestion ▸ hx)
      · exact one_ne_nil c

theorem searchParams_percentEncode (s : Text) :
    searchParams (percentEncode set s) = searchParams s := by
  rw [searchParams,withoutQuestion_percentEncode h,pieces_percentEncode h,List.map_map]
  apply List.map_congr_left
  intro piece _
  rw [Function.comp_apply,untilFirst_percentEncode h,afterFirst_percentEncode h,
    formDecode_percentEncode h,formDecode_percentEncode h]

end Harmless

private theorem encodeText_eq_map {s : Text} (h : ∀ b ∈ encodeText s, b.toNat < 0x80) :
    (∀ c ∈ s, c.toNat < 0x80) ∧ encodeText s = s.map fun c => c.toNat.toUInt8 := by
  induction s with
  | nil => simp [encodeText]
  | cons c s ih =>
    have hsplit : encodeText (c :: s) = encodeText [c] ++ encodeText s := encodeText_append [c] s
    rw [hsplit] at h ⊢
    have hc : c.toNat < 0x80 := by
      by_contra hhigh
      obtain ⟨b,bs,hb⟩ := List.exists_cons_of_ne_nil (Percent.encodeText_ne_nil c)
      have hmem : b ∈ encodeText [c] := by simp [hb]
      have hlow := h b (List.mem_append_left _ hmem)
      have hle := Percent.high_of_encodeText (Nat.le_of_not_lt hhigh) b hmem
      omega
    obtain ⟨hcodes,hbytes⟩ := ih fun b hb => h b (List.mem_append_right _ hb)
    refine ⟨List.forall_mem_cons.mpr ⟨hc,hcodes⟩,?_⟩
    rw [Percent.encodeText_ascii hc,hbytes]
    rfl

private theorem eq_of_map_plusToSpace {s t : Text} (ht : ∀ c ∈ t, c ≠ ' ')
    (h : s.map plusToSpace = t) : s = t := by
  subst h
  symm
  apply map_eq_self
  intro c hc
  have hne := ht _ (List.mem_map_of_mem hc)
  rw [plusToSpace] at hne ⊢
  split
  · rename_i hplus
    rw [if_pos hplus] at hne
    exact absurd rfl hne
  · rfl

theorem formDecode_plain {s t : Text} (ht : ∀ c ∈ t, NonzeroAscii c ∧ c ≠ ' ')
    (h : formDecode s = t) : t.length ≤ s.length ∧ (t.length = s.length → s = t) := by
  obtain ⟨hread,hlow⟩ := @ascii_of_fromUtf8Lossy (Percent.decodeText (s.map plusToSpace))
    (by rw [← formDecode,h]; exact fun c hc => (ht c hc).1)
  have hascii : ∀ b ∈ encodeText (s.map plusToSpace), b.toNat < 0x80 := by
    intro b hb
    by_contra hhigh
    exact hhigh (hlow b (Percent.mem_decode_of_high (Nat.le_of_not_lt hhigh) hb))
  obtain ⟨hcodes,hbytes⟩ := encodeText_eq_map hascii
  have hlength : (encodeText (s.map plusToSpace)).length = s.length := by
    rw [hbytes,List.length_map,List.length_map]
  have ht' : t = (Percent.decodeText (s.map plusToSpace)).map fun b => Char.ofNat b.toNat := by
    rw [← h]
    exact hread
  have hdecoded : t.length = (Percent.decode (encodeText (s.map plusToSpace))).length := by
    rw [ht',List.length_map,Percent.decodeText]
  refine ⟨?_,?_⟩
  · have hle := Percent.length_decode_le (encodeText (s.map plusToSpace))
    omega
  · intro hsame
    have hself := @Percent.decode_eq_self (encodeText (s.map plusToSpace)) (by omega)
    apply eq_of_map_plusToSpace fun c hc => (ht c hc).2
    rw [ht',Percent.decodeText,hself,hbytes,List.map_map]
    symm
    apply map_eq_self
    intro c hc
    have hcode : c.toNat.toUInt8.toNat = c.toNat := by
      simpa using Nat.mod_eq_of_lt ((hcodes c hc).trans (show 0x80 < 256 by decide))
    rw [Function.comp_apply,hcode,Char.ofNat_toNat]

theorem formDecode_self {s : Text} (h : ∀ c ∈ s, c ≠ '%' ∧ c ≠ '+') : formDecode s = s := by
  have hplus : s.map plusToSpace = s := map_eq_self fun c hc => if_neg (h c hc).2
  have hdecode : Percent.decodeText s = encodeText s := by
    rw [Percent.decodeText]
    clear hplus
    induction s with
    | nil => rfl
    | cons c s ih =>
      obtain ⟨hc,hs⟩ := List.forall_mem_cons.mp h
      have hsplit : encodeText (c :: s) = encodeText [c] ++ encodeText s := encodeText_append [c] s
      rw [hsplit,Percent.decode_char_append hc.1,ih hs]
  rw [formDecode,hplus,hdecode,fromUtf8Lossy_encodeText]

private theorem sublist_of_mem_splitOn {a : Char} {s piece : Text} (h : piece ∈ s.splitOn a) :
    piece.Sublist s := by
  induction s generalizing piece with
  | nil =>
    rw [List.splitOn_nil,List.mem_singleton] at h
    subst h
    exact List.Sublist.refl _
  | cons c s ih =>
    obtain ⟨p,ps,hsplit⟩ := List.exists_cons_of_ne_nil (List.splitOn_ne_nil a s)
    rw [List.splitOn_cons_eq_if_modifyHead] at h
    rw [hsplit] at h ih
    split at h
    · rcases List.mem_cons.mp h with rfl | h
      · exact List.nil_sublist _
      · exact (ih h).cons _
    · rcases List.mem_cons.mp h with rfl | h
      · exact (ih List.mem_cons_self).cons_cons _
      · exact (ih (List.mem_cons_of_mem _ h)).cons _

private theorem withoutQuestion_sublist (s : Text) : (withoutQuestion s).Sublist s := by
  unfold withoutQuestion
  split
  · exact List.sublist_cons_self _ _
  · exact List.Sublist.refl _

private theorem split_at {a : Char} {s : Text} (h : afterFirst a s ≠ []) :
    s = untilFirst a s ++ a :: afterFirst a s := by
  induction s with
  | nil => exact absurd rfl h
  | cons c s ih =>
    by_cases hc : c = a
    · subst hc
      simp [untilFirst,afterFirst]
    · have huntil : untilFirst a (c :: s) = c :: untilFirst a s :=
        List.takeWhile_cons_of_pos (by simpa using hc)
      have hafter : afterFirst a (c :: s) = afterFirst a s := by
        rw [afterFirst,List.dropWhile_cons_of_pos (by simpa using hc)]
        rfl
      rw [hafter] at h
      rw [huntil,hafter,List.cons_append,← ih h]

theorem untilFirst_append {a : Char} {s : Text} (h : a ∉ s) (t : Text) :
    untilFirst a (s ++ a :: t) = s ∧ afterFirst a (s ++ a :: t) = t := by
  have hs : ∀ x ∈ s, decide (x ≠ a) = true := by
    intro x hx
    rw [decide_eq_true_eq]
    rintro rfl
    exact h hx
  constructor
  · rw [untilFirst,List.takeWhile_append_of_pos hs]
    simp
  · rw [afterFirst,List.dropWhile_append_of_pos hs]
    simp

theorem get_plain {s name v : Text} (hname : ∀ c ∈ name, NonzeroAscii c ∧ c ≠ ' ')
    (hv : ∀ c ∈ v, NonzeroAscii c ∧ c ≠ ' ') (hne : v ≠ [])
    (h : get (searchParams s) name = some v) :
    name.length+1+v.length ≤ s.length ∧
      (name.length+1+v.length = s.length → s = name ++ '=' :: v) := by
  obtain ⟨p,hp,rfl⟩ := Option.map_eq_some_iff.mp h
  have hfound := List.find?_some hp
  obtain ⟨piece,hpiece,rfl⟩ := List.mem_map.mp (List.mem_of_find?_eq_some hp)
  obtain ⟨huntil,hname'⟩ := formDecode_plain hname (of_decide_eq_true hfound)
  obtain ⟨hafter,hvalue'⟩ := formDecode_plain hv rfl
  have hsublist : piece.Sublist s :=
    (sublist_of_mem_splitOn (List.mem_filter.mp hpiece).1).trans (withoutQuestion_sublist s)
  have hrest : afterFirst '=' piece ≠ [] := by
    intro hnil
    rw [hnil] at hne
    exact hne rfl
  have hsplit := split_at hrest
  have hlength := congrArg List.length hsplit
  rw [List.length_append,List.length_cons] at hlength
  have hle := hsublist.length_le
  refine ⟨by omega,?_⟩
  intro hsame
  rw [← hsublist.eq_of_length (by omega)]
  rw [hname' (by omega),hvalue' (by omega)] at hsplit
  exact hsplit

theorem get_written {name v : Text} (hname : ∀ c ∈ name, c ∉ ['&','=','?','%','+'])
    (hv : ∀ c ∈ v, c ∉ ['&','=','?','%','+']) :
    get (searchParams (name ++ '=' :: v)) name = some v := by
  have hand : '&' ∉ name ++ '=' :: v := by
    intro hmem
    rcases List.mem_append.mp hmem with hmem | hmem
    · exact hname _ hmem (by simp)
    · rcases List.mem_cons.mp hmem with heq | hmem
      · exact absurd heq (by decide)
      · exact hv _ hmem (by simp)
  have hquestion : withoutQuestion (name ++ '=' :: v) = name ++ '=' :: v := by
    cases name with
    | nil => rfl
    | cons c name =>
      rw [List.cons_append,withoutQuestion]
      rintro _ ⟨⟩
      exact hname '?' List.mem_cons_self (by simp)
  have hequals : '=' ∉ name := fun hmem => hname _ hmem (by simp)
  have hfilter : ([name ++ '=' :: v].filter fun piece => decide (piece ≠ [])) = [name ++ '=' :: v] :=
    List.filter_cons_of_pos (by simp)
  have hplain : ∀ {t : Text}, (∀ c ∈ t, c ∉ ['&','=','?','%','+']) → formDecode t = t := by
    intro t ht
    apply formDecode_self
    intro c hc
    have hno := ht c hc
    simp only [List.mem_cons,List.not_mem_nil,or_false,not_or] at hno
    exact hno.2.2.2
  obtain ⟨huntil,hafter⟩ := untilFirst_append hequals v
  rw [searchParams,hquestion,List.splitOn_eq_singleton hand,hfilter,List.map_singleton,huntil,hafter,
    hplain hname,hplain hv]
  simp [get]

theorem head_of_fromHash {s body : Text} {c : Char} (h : fromHash s = c :: body) : c = '#' := by
  have hhead := List.head?_dropWhile_not (fun c => decide (c ≠ '#')) (cleaned s)
  rw [← fromHash,h] at hhead
  simpa using hhead

theorem fromHash_sublist {front : Text} (h : '#' ∉ front) (rest : Text) :
    (fromHash (front ++ rest)).Sublist rest := by
  have hclean : (cleaned (front ++ rest)).Sublist (front ++ rest) := by
    have hrdrop : ∀ s : Text, (s.rdropWhile isC0OrSpace).Sublist s :=
      fun s => (List.rdropWhile_prefix isC0OrSpace s).sublist
    exact List.filter_sublist.trans ((hrdrop _).trans (List.dropWhile_sublist _))
  obtain ⟨as,bs,hsplit,has,hbs⟩ := List.sublist_append_iff.mp hclean
  have hno : ∀ a ∈ as, decide (a ≠ '#') = true := by
    intro a ha
    rw [decide_eq_true_eq]
    rintro rfl
    exact h (has.subset ha)
  rw [fromHash,hsplit,List.dropWhile_append_of_pos hno]
  exact (List.dropWhile_sublist _).trans hbs

private theorem kept_of_inFragmentSet {c : Char} (h : inFragmentSet c = false) :
    isC0OrSpace c = false ∧ isTabOrNewline c = false := by
  simp only [inFragmentSet,isControl,Bool.or_eq_false_iff,decide_eq_false_iff_not] at h
  obtain ⟨⟨hlow,_⟩,hlist⟩ := h
  have hspace : c.toNat ≠ 0x20 := by
    intro heq
    rw [show c = ' ' from Char.toNat_inj.mp heq] at hlist
    cases hlist
  have hlow' : 0x20 < c.toNat := by omega
  refine ⟨decide_eq_false (by omega),?_⟩
  have hne : ∀ d : Char, d.toNat < 0x20 → decide (c = d) = false := by
    intro d hd
    rw [decide_eq_false_iff_not]
    rintro rfl
    omega
  rw [isTabOrNewline,hne _ (by decide),hne _ (by decide),hne _ (by decide)]
  rfl

theorem fromHash_written {front body : Text} (h : '#' ∉ front)
    (hbody : ∀ c ∈ body, inFragmentSet c = false) (hne : body ≠ []) :
    fromHash (front ++ '#' :: body) = '#' :: body := by
  obtain ⟨front',hfront',hdrop⟩ : ∃ front', '#' ∉ front' ∧
      (front ++ '#' :: body).dropWhile isC0OrSpace = front' ++ '#' :: body := by
    rw [List.dropWhile_append]
    split
    · exact ⟨[],List.not_mem_nil,rfl⟩
    · exact ⟨_,fun hmem => h ((List.dropWhile_sublist _).subset hmem),rfl⟩
  have hlast : (front' ++ '#' :: body).rdropWhile isC0OrSpace = front' ++ '#' :: body := by
    obtain ⟨init,x,rfl⟩ := (List.eq_nil_or_concat body).resolve_left hne
    have hx := (kept_of_inFragmentSet (hbody x (by simp))).1
    rw [List.concat_eq_append,← List.cons_append,← List.append_assoc]
    exact List.rdropWhile_concat_neg isC0OrSpace (front' ++ '#' :: init) x (by rw [hx]; exact Bool.false_ne_true)
  have hkept : ('#' :: body).filter (fun c => !isTabOrNewline c) = '#' :: body := by
    rw [List.filter_eq_self]
    intro c hc
    rcases List.mem_cons.mp hc with rfl | hc
    · decide
    · rw [(kept_of_inFragmentSet (hbody c hc)).2]
      rfl
  have hno : ∀ a ∈ front'.filter (fun c => !isTabOrNewline c), decide (a ≠ '#') = true := by
    intro a ha
    rw [decide_eq_true_eq]
    rintro rfl
    exact hfront' (List.mem_of_mem_filter ha)
  rw [fromHash,cleaned,hdrop,hlast,List.filter_append,hkept,List.dropWhile_append_of_pos hno]
  simp

end WeirdVault.Framework.Url
