import WeirdVault.Framework.Base64Loose
import WeirdVault.Framework.Url

/-!
# Share links

The key of a share stands in the fragment of its link, in base 64 for addresses. What is written is
read back; what is read is written so, but for the bits that the last character leaves over.
-/

namespace WeirdVault.Recording.ShareLink

open WeirdVault.Framework

inductive ShareFailure where
  | missingKey | unreadableKey | wrongKey | gone | network | unauthorized | server
deriving DecidableEq

structure ShareError where
  kind : ShareFailure
  message : String
deriving DecidableEq

def isB64Url (text : Text) : Bool :=
  !text.isEmpty && text.all fun c => c.isAlphanum || c = '_' || c = '-'

def btoa (bytes : List UInt8) : Text := Base64.standard.encode bytes

def isAsciiWhitespace (c : Char) : Bool := ['\t','\n',Char.ofNat 0xC,'\r',' '].contains c

def withoutPadding (s : Text) : Text :=
  match s.reverse with
  | '=' :: '=' :: rest => rest.reverse
  | '=' :: rest => rest.reverse
  | _ => s

/-- The last bits may be anything. -/
def atob (s : Text) : Option (List UInt8) :=
  let data := s.filter fun c => !isAsciiWhitespace c
  Base64.standard.loose (if data.length%4 = 0 then withoutPadding data else data)

def replace (a b : Char) (s : Text) : Text := s.map fun c => if c = a then b else c

def toB64Url (bytes : List UInt8) : Text :=
  (replace '/' '_' (replace '+' '-' (btoa bytes))).rdropWhile (· = '=')

def notBase64Url : ShareError := ⟨.unreadableKey,"not base64url"⟩

def fromB64Url (text : Text) : Except ShareError (List UInt8) :=
  if isB64Url text then
    match atob (replace '_' '/' (replace '-' '+' text)) with
    | some binary => .ok binary
    | none => .error notBase64Url
  else .error notBase64Url

def shareKeyBytes : Nat := 32

def shareTokenBytes : Nat := 32

structure ShareKey where
  bytes : List UInt8
  length : bytes.length = shareKeyBytes
deriving DecidableEq

/-- Of what `crypto.getRandomValues` has filled in. -/
def newShareToken (random : {bs : List UInt8 // bs.length = shareTokenBytes}) : Text :=
  toB64Url random.1

def importShareKey (material : Text) : Except ShareError ShareKey := do
  let raw ← fromB64Url material
  if h : raw.length = shareKeyBytes then .ok ⟨raw,h⟩
  else .error ⟨.unreadableKey,
    s!"the key in this link is {raw.length} bytes, and a share key is {shareKeyBytes}"⟩

def buildShareLink (origin token material : Text) : Text :=
  origin ++ "/share/".toList ++ Url.encodeURIComponent token ++ "#k=".toList ++ material

def parseShareFragment (hash : Text) : Option Text :=
  let body := match hash with
    | '#' :: rest => rest
    | _ => hash
  if body = [] then none else (Url.get (Url.searchParams body) ['k']).filter (· ≠ [])

/-- What the page that shows a recording does with the fragment before it asks for anything. -/
def keyOf (hash : Text) : Except ShareError ShareKey :=
  match parseShareFragment hash with
  | none => .error ⟨.missingKey,""⟩
  | some material => importShareKey material

private theorem url_digit : ∀ n < 64, (replace '/' '_' (replace '+' '-' [Base64.standard.digit n])) =
    [Base64.urlSafe.digit n] := by
  simp only [Base64.digit,Base64.standard_alphabet,Base64.urlSafe_alphabet]
  decide +kernel

private theorem replace_append (a b : Char) (s t : Text) :
    replace a b (s ++ t) = replace a b s ++ replace a b t := List.map_append

private theorem replace_digit (n : ℕ) (s : Text) :
    replace '/' '_' (replace '+' '-' (Base64.standard.digit n :: s)) =
      Base64.urlSafe.digit n :: replace '/' '_' (replace '+' '-' s) := by
  have hmod : ∀ B : Base64, B.digit n = B.digit (n%64) := by
    intro B
    rw [Base64.digit,Base64.digit,Nat.mod_mod]
  have hdigit := url_digit (n%64) (Nat.mod_lt n (by decide))
  rw [← List.singleton_append,replace_append,replace_append,hmod,hdigit,← hmod]
  rfl

private theorem replace_encode (bs : List UInt8) :
    ∃ k, replace '/' '_' (replace '+' '-' (btoa bs)) =
      Base64.urlSafe.encode bs ++ List.replicate k '=' := by
  simp only [btoa]
  induction bs using Base64.encode.induct with
  | case1 => exact ⟨0,rfl⟩
  | case2 a =>
    refine ⟨2,?_⟩
    simp only [Base64.encode,List.cons_append,replace_digit]
    rfl
  | case3 a b =>
    refine ⟨1,?_⟩
    simp only [Base64.encode,List.cons_append,replace_digit]
    rfl
  | case4 a b c rest ih =>
    obtain ⟨k,ih⟩ := ih
    refine ⟨k,?_⟩
    simp only [Base64.encode,List.cons_append,replace_digit,ih]

private theorem rdropWhile_padding {s : Text} (h : '=' ∉ s) (k : ℕ) :
    (s ++ List.replicate k '=').rdropWhile (· = '=') = s := by
  induction k with
  | zero =>
    rw [List.replicate_zero,List.append_nil,List.rdropWhile_eq_self_iff]
    intro hne hlast
    exact h (of_decide_eq_true hlast ▸ List.getLast_mem hne)
  | succ k ih =>
    rw [List.replicate_succ',← List.append_assoc,List.rdropWhile_concat_pos _ _ _ (by decide),ih]

private theorem url_char : ∀ n < 128,
    ((Char.ofNat n).isAlphanum || Char.ofNat n = '_' || Char.ofNat n = '-') = true →
      Char.ofNat n ∈ Base64.urlSafe.alphabet := by
  rw [Base64.urlSafe_alphabet]
  decide +kernel

private theorem url_class : ∀ c ∈ Base64.urlSafe.alphabet,
    (c.isAlphanum || c = '_' || c = '-') = true := by
  rw [Base64.urlSafe_alphabet]
  exact List.forall_iff_forall_mem.mp (by decide +kernel)

theorem mem_urlSafe {c : Char} :
    c ∈ Base64.urlSafe.alphabet ↔ (c.isAlphanum || c = '_' || c = '-') = true := by
  refine ⟨url_class c,?_⟩
  intro hclass
  have hascii : c.toNat < 128 := by
    simp only [Bool.or_eq_true,decide_eq_true_eq] at hclass
    rcases hclass with (halphanum | rfl) | rfl
    · exact Percent.ascii_of_isAlphanum halphanum
    · decide
    · decide
  have hchar := url_char c.toNat hascii
  rw [Char.ofNat_toNat] at hchar
  exact hchar hclass

theorem isB64Url_iff {text : Text} :
    isB64Url text = true ↔ text ≠ [] ∧ ∀ c ∈ text, c ∈ Base64.urlSafe.alphabet := by
  simp only [isB64Url,Bool.and_eq_true,Bool.not_eq_true',List.isEmpty_eq_false_iff,List.all_eq_true,
    mem_urlSafe]

theorem toB64Url_eq (bs : List UInt8) : toB64Url bs = Base64.urlSafe.encode bs := by
  obtain ⟨k,hk⟩ := replace_encode bs
  rw [toB64Url,hk]
  apply rdropWhile_padding
  intro hmem
  rcases Base64.urlSafe.mem_encode hmem with hmem | hmem
  · rw [Base64.urlSafe_alphabet] at hmem
    exact absurd hmem (by decide +kernel)
  · cases hmem

private theorem standard_char : ∀ c ∈ Base64.urlSafe.alphabet,
    (if (if c = '-' then '+' else c) = '_' then '/' else if c = '-' then '+' else c)
      ∈ Base64.standard.alphabet ∧
    Base64.standard.value
      (if (if c = '-' then '+' else c) = '_' then '/' else if c = '-' then '+' else c) =
      Base64.urlSafe.value c := by
  simp only [Base64.value,Base64.standard_alphabet,Base64.urlSafe_alphabet]
  exact List.forall_iff_forall_mem.mp (by decide +kernel)

private theorem withoutPadding_eq {s : Text} (h : '=' ∉ s) : withoutPadding s = s := by
  unfold withoutPadding
  split
  · rename_i rest heq
    exact absurd (List.mem_reverse.mp (heq ▸ List.mem_cons_self)) h
  · rename_i rest heq
    exact absurd (List.mem_reverse.mp (heq ▸ List.mem_cons_self)) h
  · rfl

theorem atob_eq {text : Text} (h : ∀ c ∈ text, c ∈ Base64.urlSafe.alphabet) :
    atob (replace '_' '/' (replace '-' '+' text)) = Base64.urlSafe.loose text := by
  have hblank : ∀ c ∈ Base64.standard.alphabet, isAsciiWhitespace c = false ∧ c ≠ '=' := by
    rw [Base64.standard_alphabet]
    exact List.forall_iff_forall_mem.mp (by decide +kernel)
  have hmap : replace '_' '/' (replace '-' '+' text) = text.map fun c =>
      if (if c = '-' then '+' else c) = '_' then '/' else if c = '-' then '+' else c := List.map_map
  have hmem : ∀ c ∈ replace '_' '/' (replace '-' '+' text), c ∈ Base64.standard.alphabet := by
    rw [hmap]
    intro c hc
    obtain ⟨d,hd,rfl⟩ := List.mem_map.mp hc
    exact (standard_char d (h d hd)).1
  have hfilter : (replace '_' '/' (replace '-' '+' text)).filter (fun c => !isAsciiWhitespace c) =
      replace '_' '/' (replace '-' '+' text) := by
    rw [List.filter_eq_self]
    intro c hc
    rw [(hblank c (hmem c hc)).1]
    rfl
  have hpadding := withoutPadding_eq (s := replace '_' '/' (replace '-' '+' text))
    fun hc => (hblank _ (hmem _ hc)).2 rfl
  rw [atob,hfilter,hpadding,ite_self,hmap]
  exact Base64.urlSafe.loose_map fun c hc => (standard_char c (h c hc)).2

theorem fromB64Url_eq_ok {text : Text} {bs : List UInt8} :
    fromB64Url text = .ok bs ↔ text ≠ [] ∧ Base64.urlSafe.loose text = some bs := by
  unfold fromB64Url
  split
  · rename_i hclass
    obtain ⟨hne,hmem⟩ := isB64Url_iff.mp hclass
    rw [atob_eq hmem]
    cases hread : Base64.urlSafe.loose text with
    | none => simp [notBase64Url]
    | some binary => simp [hne]
  · rename_i hclass
    constructor
    · intro h
      cases h
    · rintro ⟨hne,hread⟩
      have hmem := ((Base64.urlSafe.loose_isSome_iff text).mp (Option.isSome_of_eq_some hread)).1
      exact absurd (isB64Url_iff.mpr ⟨hne,hmem⟩) hclass

theorem importShareKey_eq_ok {material : Text} {key : ShareKey} :
    importShareKey material = .ok key ↔ Base64.urlSafe.loose material = some key.bytes := by
  have hlength := key.length
  constructor
  · intro h
    unfold importShareKey at h
    cases hread : fromB64Url material with
    | error e =>
      rw [hread] at h
      cases h
    | ok raw =>
      rw [hread] at h
      change (if h : raw.length = shareKeyBytes then _ else _) = _ at h
      split at h
      · obtain rfl := Except.ok.inj h
        exact (fromB64Url_eq_ok.mp hread).2
      · cases h
  · intro h
    have hne : material ≠ [] := by
      rintro rfl
      rw [← Option.some.inj h] at hlength
      cases hlength
    rw [importShareKey,fromB64Url_eq_ok.mpr ⟨hne,h⟩]
    exact dif_pos hlength

structure Origin where
  text : Text
  noFragment : '#' ∉ text

variable (origin : Origin) (random : {bs : List UInt8 // bs.length = shareTokenBytes}) (key : ShareKey)

def front : Text :=
  origin.text ++ "/share/".toList ++ Url.encodeURIComponent (newShareToken random)

def shareLink : Text := buildShareLink origin.text (newShareToken random) (toB64Url key.bytes)

/-- Texts that differ in nothing but the bits that their last characters leave over. -/
def Alike (v w : Text) : Prop := Base64.urlSafe.clear v = Base64.urlSafe.clear w

instance (v w : Text) : Decidable (Alike v w) :=
  inferInstanceAs (Decidable (Base64.urlSafe.clear v = Base64.urlSafe.clear w))

private theorem front_noFragment : '#' ∉ front origin random := by
  intro hmem
  rcases List.mem_append.mp hmem with hmem | hmem
  · rcases List.mem_append.mp hmem with hmem | hmem
    · exact origin.noFragment hmem
    · exact absurd hmem (by decide)
  · rcases Percent.mem_encode hmem with hkept | hpercent | halphanum
    · exact absurd hkept (by decide)
    · exact absurd hpercent (by decide)
    · exact absurd halphanum (by decide)

private theorem url_plain : ∀ c ∈ Base64.urlSafe.alphabet,
    (0 < c.toNat ∧ c.toNat < 0x80 ∧ c ≠ ' ') ∧ c ∉ ['&','=','?','%','+'] ∧
      Url.inFragmentSet c = false := by
  rw [Base64.urlSafe_alphabet]
  exact List.forall_iff_forall_mem.mp (by decide +kernel)

private theorem loose_key {v : Text} {key : ShareKey}
    (h : Base64.urlSafe.loose v = some key.bytes) : v.length = 43 ∧
      ∀ c ∈ v, c ∈ Base64.urlSafe.alphabet := by
  have hlength := congrArg List.length (Base64.urlSafe.encode_of_loose rfl h)
  rw [Base64.length_clear,Base64.length_encode _ rfl,key.length] at hlength
  exact ⟨hlength.symm,
    ((Base64.urlSafe.loose_isSome_iff v).mp (Option.isSome_of_eq_some h)).1⟩

theorem loose_eq_key {v : Text} {key : ShareKey} :
    Base64.urlSafe.loose v = some key.bytes ↔ Alike v (toB64Url key.bytes) := by
  rw [Alike,toB64Url_eq,Base64.clear_encode _ rfl]
  constructor
  · intro h
    exact (Base64.urlSafe.encode_of_loose rfl h).symm
  · intro h
    rw [← Base64.loose_clear,h,Base64.loose_encode _ rfl]

private theorem keyOf_params {body : Text} (hne : body ≠ []) {key : ShareKey} :
    keyOf ('#' :: body) = .ok key ↔ ∃ v, Url.get (Url.searchParams body) ['k'] = some v ∧
      Base64.urlSafe.loose v = some key.bytes := by
  rw [keyOf,parseShareFragment,if_neg hne]
  cases hget : Url.get (Url.searchParams body) ['k'] with
  | none => simp
  | some v =>
    by_cases hv : v = []
    · subst hv
      have hlength := key.length
      simp only [Option.filter_some,ne_eq,not_true_eq_false,decide_false,Bool.false_eq_true,if_false,
        reduceCtorEq,false_iff,not_exists,not_and]
      rintro _ ⟨⟩ hbytes
      rw [← Option.some.inj hbytes] at hlength
      cases hlength
    · rw [Option.filter_some,if_pos (by simpa using hv)]
      simp [importShareKey_eq_ok]

theorem keyOf_hash {s : Text} {key : ShareKey} : keyOf (Url.hash s) = .ok key ↔
    ∃ c body v, Url.fromHash s = c :: body ∧ Url.get (Url.searchParams body) ['k'] = some v ∧
      Base64.urlSafe.loose v = some key.bytes := by
  rw [Url.hash]
  cases hfrom : Url.fromHash s with
  | nil =>
    constructor
    · intro h
      cases h
    · rintro ⟨_,_,_,⟨⟩,_⟩
  | cons c body =>
    cases body with
    | nil =>
      constructor
      · intro h
        cases h
      · rintro ⟨_,_,_,⟨⟩,hget,_⟩
        cases hget
    | cons d rest =>
      have hne : Url.percentEncode Url.inFragmentSet (d :: rest) ≠ [] :=
        fun hnil => List.cons_ne_nil _ _ ((Url.percentEncode_eq_nil _).mp hnil)
      rw [keyOf_params hne,Url.searchParams_percentEncode Url.harmless_fragment]
      constructor
      · rintro ⟨v,hget,hread⟩
        exact ⟨c,_,v,rfl,hget,hread⟩
      · rintro ⟨_,_,v,⟨⟩,hget,hread⟩
        exact ⟨v,hget,hread⟩

theorem keyOf_altered {rest : Text} (hrest : rest.length = 46) {key : ShareKey} :
    keyOf (Url.hash (front origin random ++ rest)) = .ok key ↔
      ∃ v, rest = "#k=".toList ++ v ∧ Alike v (toB64Url key.bytes) := by
  have hfront := front_noFragment origin random
  rw [keyOf_hash]
  constructor
  · rintro ⟨c,body,v,hfrom,hget,hread⟩
    obtain ⟨hlength,hmem⟩ := loose_key hread
    have hplain : ∀ x ∈ v, NonzeroAscii x ∧ x ≠ ' ' := by
      intro x hx
      obtain ⟨⟨hpos,hlt,hblank⟩,_⟩ := url_plain x (hmem x hx)
      exact ⟨⟨hpos,hlt⟩,hblank⟩
    have hne : v ≠ [] := List.ne_nil_of_length_pos (by omega)
    have hk : ∀ x ∈ ['k'], NonzeroAscii x ∧ x ≠ ' ' := by
      unfold NonzeroAscii
      exact List.forall_iff_forall_mem.mp (by decide)
    obtain ⟨hle,hsame⟩ := Url.get_plain hk hplain hne hget
    have hsublist := Url.fromHash_sublist hfront rest
    rw [hfrom] at hsublist
    have hshort := hsublist.length_le
    simp only [List.length_cons,List.length_nil] at hle hshort hsame
    have hall := hsublist.eq_of_length (by simp only [List.length_cons]; omega)
    refine ⟨v,?_,loose_eq_key.mp hread⟩
    rw [← hall,hsame (by omega),Url.head_of_fromHash hfrom]
    rfl
  · rintro ⟨v,rfl,halike⟩
    have hread := loose_eq_key.mpr halike
    have hmem := (loose_key hread).2
    have hbody : ∀ c ∈ ['k'] ++ '=' :: v, Url.inFragmentSet c = false := by
      intro c hc
      rcases List.mem_cons.mp hc with rfl | hc
      · decide
      · rcases List.mem_cons.mp hc with rfl | hc
        · decide
        · exact (url_plain c (hmem c hc)).2.2
    exact ⟨'#',['k'] ++ '=' :: v,v,Url.fromHash_written hfront hbody (List.cons_ne_nil _ _),
      Url.get_written (List.forall_iff_forall_mem.mp (by decide)) (fun c hc => (url_plain c (hmem c hc)).2.1),hread⟩

def fragment : Text := "#k=".toList ++ toB64Url key.bytes

theorem shareLink_eq : shareLink origin random key = front origin random ++ fragment key := by
  rw [shareLink,buildShareLink,front,fragment,List.append_assoc]

theorem length_fragment : (fragment key).length = 46 := by
  rw [fragment,List.length_append,toB64Url_eq,Base64.length_encode _ rfl,key.length]
  rfl

/-- A text that can be read, with something in the bits that its last character leaves over. -/
def LeavesOver (text : Text) : Prop :=
  isB64Url text = true ∧ text.length%4 ≠ 1 ∧ Base64.urlSafe.clear text ≠ text

theorem read_iff {text : Text} :
    (∃ bs, fromB64Url text = .ok bs) ↔ isB64Url text = true ∧ text.length%4 ≠ 1 := by
  have hsome := Base64.urlSafe.loose_isSome_iff text
  rw [Option.isSome_iff_exists] at hsome
  simp only [fromB64Url_eq_ok,exists_and_left,hsome,isB64Url_iff,and_assoc]

theorem written_iff {text : Text} : (∃ bs, bs ≠ [] ∧ toB64Url bs = text) ↔
    isB64Url text = true ∧ text.length%4 ≠ 1 ∧ Base64.urlSafe.clear text = text := by
  constructor
  · rintro ⟨bs,hne,rfl⟩
    have hread := Base64.urlSafe.loose_encode rfl bs
    rw [toB64Url_eq]
    obtain ⟨hmem,hlength⟩ :=
      (Base64.urlSafe.loose_isSome_iff _).mp (Option.isSome_of_eq_some hread)
    refine ⟨isB64Url_iff.mpr ⟨?_,hmem⟩,hlength,Base64.urlSafe.clear_encode rfl bs⟩
    intro hnil
    rw [hnil] at hread
    exact hne (Option.some.inj hread).symm
  · rintro ⟨hclass,hlength,hclear⟩
    obtain ⟨hne,hmem⟩ := isB64Url_iff.mp hclass
    obtain ⟨bs,hread⟩ := Option.isSome_iff_exists.mp
      ((Base64.urlSafe.loose_isSome_iff text).mpr ⟨hmem,hlength⟩)
    have hwritten := Base64.urlSafe.encode_of_loose rfl hread
    rw [hclear] at hwritten
    refine ⟨bs,?_,(toB64Url_eq bs).trans hwritten⟩
    rintro rfl
    exact hne hwritten.symm

theorem fromB64Url_toB64Url {bs : List UInt8} (h : bs ≠ []) : fromB64Url (toB64Url bs) = .ok bs := by
  rw [fromB64Url_eq_ok,toB64Url_eq]
  refine ⟨?_,Base64.urlSafe.loose_encode rfl bs⟩
  intro hnil
  have hread := Base64.urlSafe.loose_encode rfl bs
  rw [hnil] at hread
  exact h (Option.some.inj hread).symm

/-- Links carry their keys, and nothing but the bits that are left over can be altered so that the
same key is read. -/
theorem key_carried : keyOf (Url.hash (shareLink origin random key)) = .ok key ∧
    (∀ bs, bs ≠ [] → fromB64Url (toB64Url bs) = .ok bs) ∧
    (∀ text, ((∃ bs, fromB64Url text = .ok bs) ↔ ∃ bs, bs ≠ [] ∧ toB64Url bs = text) ↔
      ¬ LeavesOver text) ∧
    ∀ altered, altered.length = (fragment key).length → altered ≠ fragment key →
      (keyOf (Url.hash (front origin random ++ altered)) ≠ .ok key ↔
        ¬ ∃ v, altered = "#k=".toList ++ v ∧ Alike v (toB64Url key.bytes)) := by
  refine ⟨?_,fun bs h => fromB64Url_toB64Url h,?_,?_⟩
  · rw [shareLink_eq,keyOf_altered origin random (length_fragment key)]
    exact ⟨_,rfl,rfl⟩
  · intro text
    rw [read_iff,written_iff,LeavesOver]
    constructor
    · rintro h ⟨hclass,hlength,hclear⟩
      exact hclear (h.mp ⟨hclass,hlength⟩).2.2
    · intro h
      constructor
      · rintro ⟨hclass,hlength⟩
        exact ⟨hclass,hlength,by_contra fun hclear => h ⟨hclass,hlength,hclear⟩⟩
      · rintro ⟨hclass,hlength,_⟩
        exact ⟨hclass,hlength⟩
  · intro altered hlength _
    rw [length_fragment] at hlength
    exact not_congr (keyOf_altered origin random hlength)

private def zeroes : {bs : List UInt8 // bs.length = shareTokenBytes} := ⟨List.replicate 32 0,rfl⟩

private def zeroKey : ShareKey := ⟨List.replicate 32 0,rfl⟩

private def testOrigin : Origin := ⟨"https://weirdvault.test".toList,by decide⟩

/-- The last two bits of a key's text are not looked at. -/
theorem last_character_altered :
    (∃ bs, fromB64Url (List.replicate 42 'A' ++ ['B']) = .ok bs) ∧
    (¬ ∃ bs, bs ≠ [] ∧ toB64Url bs = List.replicate 42 'A' ++ ['B']) ∧
    keyOf (Url.hash (front testOrigin zeroes ++ ("#k=".toList ++ (List.replicate 42 'A' ++ ['B'])))) =
      .ok zeroKey ∧
    front testOrigin zeroes ++ ("#k=".toList ++ (List.replicate 42 'A' ++ ['B'])) ≠
      shareLink testOrigin zeroes zeroKey := by
  refine ⟨?_,?_,?_,?_⟩
  · rw [read_iff]
    decide +kernel
  · rw [written_iff]
    decide +kernel
  · rw [keyOf_altered testOrigin zeroes rfl]
    exact ⟨_,rfl,by decide +kernel⟩
  · rw [shareLink_eq]
    decide +kernel

end WeirdVault.Recording.ShareLink
