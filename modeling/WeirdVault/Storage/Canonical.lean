import WeirdVault.Framework.Lines
import WeirdVault.Storage.Objects

/-!
# What a bucket makes of a request

The service forms the canonical path and query of what reaches it. They are those that were signed,
and the key is the one that was asked for, where no segment of the key is dots.
-/

namespace WeirdVault.Storage

open WeirdVault.Framework

namespace Aws

def uriEncode (encodeSlash : Bool) (bytes : List UInt8) : Text :=
  Percent.encode (fun c => isUnreserved c || (!encodeSlash && c = '/')) bytes

def canonicalUri (path : Text) : Text := uriEncode false (Percent.decodeText path)

def parameters (search : Text) : List (List UInt8 × List UInt8) :=
  (((Url.withoutQuestion search).splitOn '&').filter (· ≠ [])).map fun piece =>
    (Percent.decodeText (Url.untilFirst '=' piece),Percent.decodeText (Url.afterFirst '=' piece))

/-- Sorted by name, and by value where names are the same. -/
def canonicalQueryString (search : Text) : Text :=
  ['&'].intercalate ((((parameters search).map fun p => (uriEncode true p.1,uriEncode true p.2)).mergeSort
    fun a b => a.1 < b.1 || (a.1 = b.1 && a.2 ≤ b.2)).map fun p => p.1 ++ '=' :: p.2)

def canonicalRequest (method path search : Text) (headers : List (Text × Text))
    (payloadHash : Text) : Text :=
  let names := headerNames headers
  ['\n'].intercalate [toUpperCase method,canonicalUri path,canonicalQueryString search,
    names.flatMap fun n => n ++ ':' :: lower headers n ++ ['\n'],[';'].intercalate names,payloadHash]

def keyOf (bucket path : Text) : Option Text :=
  let text := fromUtf8Lossy (Percent.decodeText path)
  if ('/' :: bucket ++ ['/']) <+: text then some (text.drop (bucket.length+2)) else none

end Aws

private def inPath (c : Char) : Bool := isUnreserved c || c = '/'

theorem keeps_unreserved : Percent.Keeps isUnreserved := by
  intro c hc
  simp only [isUnreserved,Bool.or_eq_true,List.contains_eq_mem,decide_eq_true_eq] at hc
  rcases hc with hc | hc
  · refine ⟨Percent.ascii_of_isAlphanum hc,?_⟩
    rintro rfl
    exact absurd hc (by decide)
  · revert c
    exact List.forall_iff_forall_mem.mp (by decide)

private theorem keeps_inPath : Percent.Keeps inPath := by
  intro c hc
  simp only [inPath,Bool.or_eq_true,decide_eq_true_eq] at hc
  rcases hc with hc | rfl
  · exact keeps_unreserved c hc
  · decide

private theorem encode_cons (keep : Char → Bool) (c : Char) (s : Text) :
    Percent.encode keep (encodeText (c :: s)) =
      Percent.encode keep (encodeText [c]) ++ Percent.encode keep (encodeText s) := by
  rw [← Percent.encode_append,← encodeText_append]
  rfl

private theorem encode_char {c : Char} (h : c ≠ '/') :
    Percent.encode inPath (encodeText [c]) = encodeRfc3986 [c] := by
  have hkeep : ∀ b ∈ encodeText [c],
      inPath (Char.ofNat b.toNat) = isUnreserved (Char.ofNat b.toNat) := by
    intro b hb
    have hne := Percent.ne_of_mem_encodeText (d := '/') (by decide) h b hb
    rw [inPath,decide_eq_false hne,Bool.or_false]
  rw [encodeRfc3986,Percent.encode,Percent.encode]
  apply List.flatMap_congr
  intro b hb
  rw [hkeep b hb]

private theorem encode_split (key : Text) :
    ['/'].intercalate ((key.splitOn '/').map encodeRfc3986) =
      Percent.encode inPath (encodeText key) := by
  induction key with
  | nil => rfl
  | cons c s ih =>
    obtain ⟨p,ps,hsplit⟩ := List.exists_cons_of_ne_nil (List.splitOn_ne_nil '/' s)
    rw [encode_cons,← ih,List.splitOn_cons_eq_if_modifyHead,hsplit]
    by_cases hc : c = '/'
    · subst hc
      rw [if_pos (by simp),List.map_cons,List.map_cons,List.intercalate_cons_cons]
      rfl
    · have happend : encodeRfc3986 (c :: p) = encodeRfc3986 [c] ++ encodeRfc3986 p :=
        encode_cons isUnreserved c p
      rw [if_neg (by simpa using hc),encode_char hc,List.modifyHead_cons,List.map_cons,List.map_cons,
        happend]
      cases ps with
      | nil => simp
      | cons q qs =>
        rw [List.map_cons,List.intercalate_cons_cons,List.intercalate_cons_cons]
        simp

theorem encodePath_eq (key : Text) :
    encodePath key = Percent.encode inPath (encodeText ('/' :: key)) := by
  rw [encodePath,encode_split,encode_cons]
  rfl

theorem encodePath_injective : Function.Injective encodePath := by
  intro k k' h
  rw [encodePath_eq,encodePath_eq] at h
  have hbytes := Percent.encode_injective keeps_inPath h
  have htext := congrArg fromUtf8Lossy hbytes
  rw [fromUtf8Lossy_encodeText,fromUtf8Lossy_encodeText] at htext
  exact (List.cons.inj htext).2

def segments (store : ObjectStore) (key : Text) : List Text :=
  store.bucket.name :: (key.splitOn '/').map encodeRfc3986

/-- A segment that addresses leave out, or leave out with the one before it. -/
def HasDots (key : Text) : Prop := ['.'] ∈ key.splitOn '/' ∨ ['.','.'] ∈ key.splitOn '/'

instance (key : Text) : Decidable (HasDots key) :=
  inferInstanceAs (Decidable (_ ∨ _))

theorem serialize_segments (store : ObjectStore) (key : Text) :
    Url.serialize (segments store key) = '/' :: store.bucket.name ++ encodePath key := by
  obtain ⟨p,ps,hsplit⟩ := List.exists_cons_of_ne_nil (List.splitOn_ne_nil '/' key)
  rw [segments,encodePath,hsplit,List.map_cons,← Url.serialize_cons]
  rfl

private theorem bucket_unreserved (bucket : Bucket) : ∀ c ∈ bucket.name, isUnreserved c = true := by
  intro c hc
  have hplain := bucket.plain c hc
  simp only [Bool.or_eq_true,decide_eq_true_eq] at hplain
  rw [isUnreserved,Char.isAlphanum,Char.isAlpha]
  rcases hplain with ((hplain | hplain) | rfl) | rfl
  · simp [hplain]
  · simp [hplain]
  · decide
  · decide

private theorem path_char {c : Char} (h : isUnreserved c = true ∨ c = '%') : Url.IsPathChar c := by
  have hascii : ∀ n < 128, isUnreserved (Char.ofNat n) = true ∨ Char.ofNat n = '%' →
      Url.IsPathChar (Char.ofNat n) := by
    unfold Url.IsPathChar Url.IsVisible
    decide +kernel
  have hlt : c.toNat < 128 := by
    rcases h with h | rfl
    · exact (keeps_unreserved c h).1
    · decide
  have hchar := hascii c.toNat hlt
  rw [Char.ofNat_toNat] at hchar
  exact hchar h

private theorem mem_segments {store : ObjectStore} {key s : Text} (hs : s ∈ segments store key) :
    ∀ c ∈ s, Url.IsPathChar c := by
  intro c hc
  rcases List.mem_cons.mp hs with rfl | hs
  · exact path_char (Or.inl (bucket_unreserved store.bucket c hc))
  · obtain ⟨t,_,rfl⟩ := List.mem_map.mp hs
    rcases Percent.mem_encode hc with hkept | hpercent | halphanum
    · exact path_char (Or.inl hkept)
    · exact path_char (Or.inr hpercent)
    · exact path_char (Or.inl (by rw [isUnreserved,halphanum]; rfl))

theorem encodeText_injective : Function.Injective encodeText := by
  intro s t h
  rw [← fromUtf8Lossy_encodeText s,h,fromUtf8Lossy_encodeText]

private theorem dots_decoded : ∀ t ∈ Url.dots ++ Url.dots.flatMap fun a => Url.dots.map fun b => a ++ b,
    Percent.decodeText t = encodeText ['.'] ∨ Percent.decodeText t = encodeText ['.','.'] := by
  decide +kernel

private theorem dots_encode {s : Text} : Url.IsDots (encodeRfc3986 s) ↔ s = ['.'] ∨ s = ['.','.'] := by
  constructor
  · intro h
    have hdecoded := dots_decoded _ (Url.mem_of_isDots h)
    rw [encodeRfc3986,Percent.decodeText_encode keeps_unreserved] at hdecoded
    exact hdecoded.imp (fun he => encodeText_injective he) (fun he => encodeText_injective he)
  · rintro (rfl | rfl)
    · exact Or.inl (by decide)
    · exact Or.inr (by decide)

private theorem dots_short : ∀ t ∈ Url.dots ++ Url.dots.flatMap fun a => Url.dots.map fun b => a ++ b,
    t.length < 3 ∨ '%' ∈ t := by
  decide +kernel

private theorem dots_bucket (bucket : Bucket) : ¬ Url.IsDots bucket.name := by
  intro h
  have hlength := bucket.length
  rcases dots_short _ (Url.mem_of_isDots h) with hshort | hpercent
  · omega
  · exact absurd (bucket_unreserved bucket _ hpercent) (by decide)

theorem hasDots_iff {store : ObjectStore} {key : Text} :
    HasDots key ↔ ∃ s ∈ segments store key, Url.IsDots s := by
  constructor
  · rintro (h | h)
    · exact ⟨_,List.mem_cons_of_mem _ (List.mem_map_of_mem h),dots_encode.mpr (Or.inl rfl)⟩
    · exact ⟨_,List.mem_cons_of_mem _ (List.mem_map_of_mem h),dots_encode.mpr (Or.inr rfl)⟩
  · rintro ⟨s,hs,hdots⟩
    rcases List.mem_cons.mp hs with rfl | hs
    · exact absurd hdots (dots_bucket store.bucket)
    · obtain ⟨t,ht,rfl⟩ := List.mem_map.mp hs
      rcases dots_encode.mp hdots with rfl | rfl
      · exact Or.inl ht
      · exact Or.inr ht

private def Encoded (path : Text) : Prop := ∃ bytes, path = Percent.encode inPath bytes

private theorem canonicalUri_encoded {path : Text} (h : Encoded path) :
    Aws.canonicalUri path = path := by
  obtain ⟨bytes,rfl⟩ := h
  rw [Aws.canonicalUri,Percent.decodeText_encode keeps_inPath]
  rfl

private theorem Encoded.serialize {segments : List Text} (h : ∀ s ∈ segments, Encoded s) :
    Encoded (Url.serialize segments) := by
  induction segments with
  | nil => exact ⟨[],rfl⟩
  | cons s segments ih =>
    obtain ⟨hs,hrest⟩ := List.forall_mem_cons.mp h
    obtain ⟨bytes,rfl⟩ := hs
    obtain ⟨rest,hrest⟩ := ih hrest
    refine ⟨0x2F :: bytes ++ rest,?_⟩
    rw [Percent.encode_append,← hrest]
    rfl

private theorem not_mem_of_mem_splitOn {key s : Text} (h : s ∈ key.splitOn '/') : '/' ∉ s := by
  induction key generalizing s with
  | nil =>
    rw [List.splitOn_nil,List.mem_singleton] at h
    subst h
    exact List.not_mem_nil
  | cons c key ih =>
    obtain ⟨p,ps,hsplit⟩ := List.exists_cons_of_ne_nil (List.splitOn_ne_nil '/' key)
    rw [hsplit] at ih
    rw [List.splitOn_cons_eq_if_modifyHead,hsplit] at h
    split at h
    · rcases List.mem_cons.mp h with rfl | h
      · exact List.not_mem_nil
      · exact ih h
    · rename_i hc
      rcases List.mem_cons.mp h with rfl | h
      · intro hmem
        rcases List.mem_cons.mp hmem with rfl | hmem
        · exact hc (beq_self_eq_true _)
        · exact ih List.mem_cons_self hmem
      · exact ih (List.mem_cons_of_mem _ h)

private theorem encode_segment {s : Text} (h : '/' ∉ s) :
    encodeRfc3986 s = Percent.encode inPath (encodeText s) := by
  induction s with
  | nil => rfl
  | cons c s ih =>
    have hc : c ≠ '/' := by
      rintro rfl
      exact h List.mem_cons_self
    rw [encode_cons,encode_char hc,← ih fun hs => h (List.mem_cons_of_mem _ hs)]
    exact encode_cons isUnreserved c s

private theorem encode_bucket (bucket : Bucket) :
    Percent.encode inPath (encodeText bucket.name) = bucket.name := by
  apply Percent.encode_kept keeps_inPath
  intro c hc
  rw [inPath,bucket_unreserved bucket c hc]
  rfl

private theorem encoded_segments {store : ObjectStore} {key s : Text} (hs : s ∈ segments store key) :
    Encoded s := by
  rcases List.mem_cons.mp hs with rfl | hs
  · exact ⟨_,(encode_bucket store.bucket).symm⟩
  · obtain ⟨t,ht,rfl⟩ := List.mem_map.mp hs
    exact ⟨_,encode_segment (not_mem_of_mem_splitOn ht)⟩

private theorem path_eq (store : ObjectStore) (key : Text) :
    '/' :: store.bucket.name ++ encodePath key =
      Percent.encode inPath (encodeText ('/' :: store.bucket.name ++ '/' :: key)) := by
  rw [encodePath_eq,encodeText_append,Percent.encode_append,encode_cons inPath '/' store.bucket.name,
    encode_bucket]
  rfl

private theorem walk_segments {store : ObjectStore} {key : Text} (h : ¬ HasDots key) :
    Url.walk [] (segments store key) = segments store key := by
  rw [Url.walk_plain,List.nil_append]
  intro s hs
  refine ⟨fun hdots => h (hasDots_iff.mpr ⟨s,hs,hdots⟩),?_⟩
  exact Url.percentEncode_eq_self fun c hc => (mem_segments hs c hc).2.2.2

private theorem canonicalUri_walk (store : ObjectStore) (key : Text) :
    Aws.canonicalUri (Url.serialize (Url.walk [] (segments store key))) =
      Url.serialize (Url.walk [] (segments store key)) := by
  apply canonicalUri_encoded
  apply Encoded.serialize
  intro s hs
  have hwalk := Url.walk_no_dots [] (fun t ht => nomatch ht)
    (fun t ht => Url.percentEncode_eq_self fun c hc => (mem_segments ht c hc).2.2.2) s hs
  rcases hwalk.2 with hmem | hmem | rfl
  · cases hmem
  · exact encoded_segments hmem
  · exact ⟨[],rfl⟩

private theorem slash_not_mem {s : Text} (h : ∀ c ∈ s, Url.IsPathChar c) : '/' ∉ s :=
  fun hmem => absurd (h '/' hmem).2.1 (by decide)

theorem walk_iff {store : ObjectStore} {key : Text} :
    Url.serialize (Url.walk [] (segments store key)) = '/' :: store.bucket.name ++ encodePath key ↔
      ¬ HasDots key := by
  rw [← serialize_segments]
  constructor
  · intro heq hdots
    have hwalk := Url.walk_no_dots [] (fun t ht => nomatch ht)
      (fun t (ht : t ∈ segments store key) =>
        Url.percentEncode_eq_self fun c hc => (mem_segments ht c hc).2.2.2)
    have hslash : ∀ s ∈ Url.walk [] (segments store key), '/' ∉ s := by
      intro s hs
      rcases (hwalk s hs).2 with hmem | hmem | rfl
      · cases hmem
      · exact slash_not_mem (mem_segments hmem)
      · exact List.not_mem_nil
    have hsame := Url.serialize_inj hslash (fun s hs => slash_not_mem (mem_segments hs)) heq
    obtain ⟨s,hs,hsdots⟩ := hasDots_iff.mp hdots
    rw [← hsame] at hs
    exact (hwalk s hs).1 hsdots
  · intro hdots
    rw [walk_segments hdots]

theorem keyOf_path {store : ObjectStore} {key : Text} :
    Aws.keyOf store.bucket.name ('/' :: store.bucket.name ++ encodePath key) = some key := by
  rw [path_eq,Aws.keyOf,Percent.decodeText_encode keeps_inPath,fromUtf8Lossy_encodeText]
  have hsplit : '/' :: store.bucket.name ++ '/' :: key =
      ('/' :: store.bucket.name ++ ['/']) ++ key := by simp
  have hlength : ('/' :: store.bucket.name ++ ['/']).length = store.bucket.name.length+2 := by simp
  rw [hsplit,if_pos (List.prefix_append _ _),List.drop_left' hlength]

private theorem sort_eq {l : List (Text × Text)} (h : (l.map Prod.fst).Nodup) :
    (l.mergeSort fun a b => a.1 < b.1 || (a.1 = b.1 && a.2 ≤ b.2)) =
      l.mergeSort fun a b => a.1 ≤ b.1 := by
  have hlex : ∀ a b : Text × Text, (a.1 < b.1 || (a.1 = b.1 && a.2 ≤ b.2)) = true ↔
      a.1 < b.1 ∨ a.1 = b.1 ∧ a.2 ≤ b.2 := by
    intro a b
    simp only [Bool.or_eq_true,Bool.and_eq_true,decide_eq_true_eq]
  have hleft := @List.pairwise_mergeSort _
    (fun a b : Text × Text => a.1 < b.1 || (a.1 = b.1 && a.2 ≤ b.2)) (by
      intro a b c hab hbc
      rw [hlex] at *
      rcases hab with hab | ⟨hab,hab'⟩
      · rcases hbc with hbc | ⟨hbc,_⟩
        · exact Or.inl (hab.trans hbc)
        · exact Or.inl (hbc ▸ hab)
      · rcases hbc with hbc | ⟨hbc,hbc'⟩
        · exact Or.inl (hab ▸ hbc)
        · exact Or.inr ⟨hab.trans hbc,hab'.trans hbc'⟩) (by
      intro a b
      rw [Bool.or_eq_true,hlex,hlex]
      rcases lt_trichotomy a.1 b.1 with hlt | heq | hlt
      · exact Or.inl (Or.inl hlt)
      · exact (le_total a.2 b.2).imp (fun h => Or.inr ⟨heq,h⟩) (fun h => Or.inr ⟨heq.symm,h⟩)
      · exact Or.inr (Or.inl hlt)) l
  have hright := @List.pairwise_mergeSort _ (fun a b : Text × Text => decide (a.1 ≤ b.1)) (by
      intro a b c hab hbc
      rw [decide_eq_true_eq] at *
      exact hab.trans hbc) (by
      intro a b
      rw [Bool.or_eq_true,decide_eq_true_eq,decide_eq_true_eq]
      exact le_total a.1 b.1) l
  apply @List.Perm.eq_of_pairwise _ (fun a b : Text × Text => a.1 ≤ b.1)
  · intro a b ha hb hab hba
    exact List.inj_on_of_nodup_map h (List.mem_mergeSort.mp ha) (List.mem_mergeSort.mp hb)
      (le_antisymm hab hba)
  · exact hleft.imp fun hab => ((hlex _ _).mp hab).elim le_of_lt fun heq => heq.1.le
  · exact hright.imp fun hab => of_decide_eq_true hab
  · exact (List.mergeSort_perm _ _).trans (List.mergeSort_perm _ _).symm

theorem keeps_unescaped : Percent.Keeps Url.isUnescaped := by
  intro c hc
  simp only [Url.isUnescaped,Bool.or_eq_true,List.contains_eq_mem,decide_eq_true_eq] at hc
  rcases hc with hc | hc
  · refine ⟨Percent.ascii_of_isAlphanum hc,?_⟩
    rintro rfl
    exact absurd hc (by decide)
  · revert c
    exact List.forall_iff_forall_mem.mp (by decide)

private theorem component_char {s : Text} {c : Char} (h : c ∈ Url.encodeURIComponent s) :
    Url.IsVisible c ∧ c ∉ ['#','&','='] := by
  have hascii : ∀ n < 128, Url.isUnescaped (Char.ofNat n) = true ∨ Char.ofNat n = '%' →
      Url.IsVisible (Char.ofNat n) ∧ Char.ofNat n ∉ ['#','&','='] := by
    unfold Url.IsVisible
    decide +kernel
  have hkept : Url.isUnescaped c = true ∨ c = '%' := by
    rcases Percent.mem_encode h with hkept | hpercent | halphanum
    · exact Or.inl hkept
    · exact Or.inr hpercent
    · exact Or.inl (by rw [Url.isUnescaped,halphanum]; rfl)
  have hlt : c.toNat < 128 := by
    rcases hkept with hkept | rfl
    · exact (keeps_unescaped c hkept).1
    · decide
  have hchar := hascii c.toNat hlt
  rw [Char.ofNat_toNat] at hchar
  exact hchar hkept

private theorem parameter_char {e : Text × Text} {c : Char} (h : c ∈ parameter e) :
    Url.IsVisible c ∧ c ≠ '#' ∧ c ≠ '&' := by
  rcases List.mem_append.mp h with h | h
  · have hchar := component_char h
    simp only [List.mem_cons,List.not_mem_nil,or_false,not_or] at hchar
    exact ⟨hchar.1,hchar.2.1,hchar.2.2.1⟩
  · rcases List.mem_cons.mp h with rfl | h
    · unfold Url.IsVisible
      decide
    · have hchar := component_char h
      simp only [List.mem_cons,List.not_mem_nil,or_false,not_or] at hchar
      exact ⟨hchar.1,hchar.2.1,hchar.2.2.1⟩

private theorem parameter_ne_nil (e : Text × Text) : parameter e ≠ [] :=
  fun h => List.cons_ne_nil _ _ (List.append_eq_nil_iff.mp h).2

private theorem pieces_parameters (es : List (Text × Text)) :
    ((['&'].intercalate (es.map parameter)).splitOn '&').filter (· ≠ []) = es.map parameter := by
  cases es with
  | nil => rfl
  | cons e es =>
    rw [List.splitOn_intercalate]
    · rw [List.filter_eq_self]
      intro piece hpiece
      obtain ⟨e,_,rfl⟩ := List.mem_map.mp hpiece
      exact decide_eq_true (parameter_ne_nil e)
    · intro piece hpiece hmem
      obtain ⟨e,_,rfl⟩ := List.mem_map.mp hpiece
      exact (parameter_char hmem).2.2 rfl
    · exact List.cons_ne_nil _ _

private theorem parameter_split (e : Text × Text) :
    Url.untilFirst '=' (parameter e) = Url.encodeURIComponent e.1 ∧
      Url.afterFirst '=' (parameter e) = Url.encodeURIComponent e.2 :=
  Url.untilFirst_append (fun h => (component_char h).2 (by simp)) _

private theorem parameters_query (es : List (Text × Text)) :
    Aws.parameters ('?' :: Url.percentEncode Url.inQuerySet (['&'].intercalate (es.map parameter))) =
      es.map fun e => (encodeText e.1,encodeText e.2) := by
  have hwithout : ∀ s, Url.withoutQuestion ('?' :: s) = s := fun _ => rfl
  rw [Aws.parameters,hwithout,Url.pieces_percentEncode Url.harmless_query,pieces_parameters,
    List.map_map,List.map_map]
  apply List.map_congr_left
  intro e _
  obtain ⟨huntil,hafter⟩ := parameter_split e
  simp only [Function.comp_apply,Url.untilFirst_percentEncode Url.harmless_query,
    Url.afterFirst_percentEncode Url.harmless_query,
    Url.decodeText_percentEncode Url.harmless_query,huntil,hafter]
  rw [Url.encodeURIComponent,Url.encodeURIComponent,Percent.decodeText_encode keeps_unescaped,
    Percent.decodeText_encode keeps_unescaped]

private theorem uriEncode_value (s : Text) : Aws.uriEncode true (encodeText s) = encodeRfc3986 s := by
  have hkeep : (fun c => isUnreserved c || (!true && decide (c = '/'))) = isUnreserved := by
    funext c
    simp
  rw [Aws.uriEncode,hkeep]
  rfl

theorem canonical_query (query : Entries) :
    Aws.canonicalQueryString ('?' :: Url.percentEncode Url.inQuerySet
      (['&'].intercalate (query.list.map parameter))) = canonicalQuery (some query) := by
  rw [Aws.canonicalQueryString,parameters_query,List.map_map]
  have hencode : (fun p : List UInt8 × List UInt8 => (Aws.uriEncode true p.1,Aws.uriEncode true p.2)) ∘
      (fun e : Text × Text => (encodeText e.1,encodeText e.2)) =
      fun e => (encodeRfc3986 e.1,encodeRfc3986 e.2) := by
    funext e
    simp only [Function.comp_apply,uriEncode_value]
  rw [hencode,sort_eq]
  · rfl
  · rw [List.map_map]
    have hinjective : Function.Injective encodeRfc3986 :=
      (Percent.encode_injective keeps_unreserved).comp encodeText_injective
    have hnodup := query.nodup.map hinjective
    rwa [List.map_map] at hnodup

private theorem search_chars (query : Entries) :
    ∀ c ∈ ['&'].intercalate (query.list.map parameter), Url.IsVisible c ∧ c ≠ '#' := by
  intro c hc
  rcases mem_intercalate hc with rfl | ⟨piece,hpiece,hc⟩
  · unfold Url.IsVisible
    decide
  · obtain ⟨e,_,rfl⟩ := List.mem_map.mp hpiece
    obtain ⟨hvisible,hhash,_⟩ := parameter_char hc
    exact ⟨hvisible,hhash⟩

private theorem segments_ne_nil (store : ObjectStore) (key : Text) : segments store key ≠ [] :=
  List.cons_ne_nil _ _

theorem wire (store : ObjectStore) (key : Text) (query : Option Entries) :
    Url.pathname (urlFor store key query).1 = Url.serialize (Url.walk [] (segments store key)) ∧
      Aws.canonicalQueryString (Url.search (urlFor store key query).1) = canonicalQuery query := by
  have hne := segments_ne_nil store key
  have hchars : ∀ s ∈ segments store key, ∀ c ∈ s, Url.IsPathChar c := fun s hs => mem_segments hs
  cases query with
  | none =>
    have hurl : (urlFor store key none).1 =
        store.endpoint.text ++ (Url.serialize (segments store key) ++ []) := by
      rw [serialize_segments]
      simp [urlFor]
    rw [hurl]
    refine ⟨Url.pathname_written store.endpoint hne hchars (fun c hc => nomatch hc)
      (fun c hc => nomatch hc),?_⟩
    rw [List.append_nil,Url.search_nothing store.endpoint hne hchars]
    simp [Aws.canonicalQueryString,Aws.parameters,Url.withoutQuestion,canonicalQuery]
  | some query =>
    have hurl : (urlFor store key (some query)).1 = store.endpoint.text ++
        (Url.serialize (segments store key) ++ '?' :: ['&'].intercalate (query.list.map parameter)) := by
      rw [serialize_segments]
      simp [urlFor]
    have hquery := search_chars query
    rw [hurl]
    constructor
    · apply Url.pathname_written store.endpoint hne hchars
      · intro c hc
        rcases List.mem_cons.mp hc with rfl | hc
        · unfold Url.IsVisible
          decide
        · exact (hquery c hc).1
      · intro c hc
        obtain rfl := Option.some.inj hc
        decide
    · rw [Url.search_written store.endpoint hne hchars hquery]
      split
      · rename_i hempty
        have hcanonical := canonical_query query
        rw [hempty] at hcanonical
        rw [← hcanonical]
        rfl
      · exact canonical_query query

/-- The bucket signs what was signed, and reads the key that was meant. -/
structure AsSigned (store : ObjectStore) (method key payloadHash : Text) (sent : Sent) : Prop where
  path : Aws.canonicalUri (Url.pathname sent.url) = sent.signed.path
  query : Aws.canonicalQueryString (Url.search sent.url) = canonicalQuery sent.signed.query
  request : Aws.canonicalRequest method (Url.pathname sent.url) (Url.search sent.url)
    sent.signed.headers payloadHash = (canonicalRequest sent.signed payloadHash).request
  key : Aws.keyOf store.bucket.name (Url.pathname sent.url) = some key

/-- What was signed is what is sent where no segment of the key is dots; and no two keys have one
path. -/
theorem sent_as_signed (store : ObjectStore) (method key : Text) (options : SendOptions)
    (amzDate payloadHash : Text) : Function.Injective encodePath ∧
      (AsSigned store method key payloadHash (send store method key options amzDate payloadHash) ↔
        ¬ HasDots key) := by
  obtain ⟨hpath,hquery⟩ := wire store key options.query
  have hurl : (send store method key options amzDate payloadHash).url =
      (urlFor store key options.query).1 := rfl
  have hsigned : (send store method key options amzDate payloadHash).signed.path =
      '/' :: store.bucket.name ++ encodePath key := rfl
  have huri := canonicalUri_walk store key
  refine ⟨encodePath_injective,?_⟩
  constructor
  · intro h
    have hsame := h.path
    rw [hurl,hsigned,hpath,huri] at hsame
    exact walk_iff.mp hsame
  · intro hdots
    have hsame := (@walk_iff store key).mpr hdots
    constructor
    · rw [hurl,hsigned,hpath,huri,hsame]
    · rw [hurl,hquery]
      rfl
    · rw [Aws.canonicalRequest,hurl,hpath,huri,hsame,hquery]
      rfl
    · rw [hurl,hpath,hsame,keyOf_path]

private def testStore : ObjectStore where
  endpoint := {
    scheme := "https".toList
    host := "s3.example".toList
    scheme_mem := by decide
    host_ne_nil := by decide
    host_plain := by
      unfold Url.IsVisible
      exact List.forall_iff_forall_mem.mp (by decide) }
  bucket := {
    name := "vault".toList
    length := by decide
    plain := List.forall_iff_forall_mem.mp (by decide) }

/-- A key with a segment of dots reaches another key, and not as it was signed. -/
theorem dots_left_out :
    (send testStore "GET".toList "rec/a/../b".toList ⟨none,[],none⟩ [] []).signed.path =
      "/vault/rec/a/../b".toList ∧
    Url.pathname (send testStore "GET".toList "rec/a/../b".toList ⟨none,[],none⟩ [] []).url =
      "/vault/rec/b".toList ∧
    ¬ AsSigned testStore "GET".toList "rec/a/../b".toList []
      (send testStore "GET".toList "rec/a/../b".toList ⟨none,[],none⟩ [] []) := by
  have hpath : Url.pathname (send testStore "GET".toList "rec/a/../b".toList ⟨none,[],none⟩ [] []).url =
      "/vault/rec/b".toList := by decide +kernel
  refine ⟨by decide +kernel,hpath,?_⟩
  intro h
  have hkey := h.key
  rw [hpath] at hkey
  revert hkey
  decide +kernel

end WeirdVault.Storage
