import WeirdVault.Qr.Standard

/-!
# The function patterns

What the encoder reserves is what the standard keeps free of data, and it is drawn as the standard
says.
-/

namespace WeirdVault.Qr

open Framework Standard

theorem size_ge {version : ℕ} (hv : version ∈ versions) :
    1 ≤ version ∧ version ≤ 10 ∧ 21 ≤ version*4+17 := by
  have hrange := List.mem_range'.mp hv
  omega

/-- Where the format strings stand, and the module that is always dark. -/
def formatPlaces (size : ℕ) : List (ℕ × ℕ) := formatAt ++ (formatAgain size ++ [(size-8,8)])

/-- The rule of the centres gives the standard's, and their patterns keep clear of each other, of
the finders, of the strings and of the edges. -/
private theorem alignment_tables : ∀ v ∈ versions,
    alignmentPairs (alignmentCentres v (v*4+17)) = alignments v ∧ ∀ p ∈ alignments v,
    (∀ q ∈ alignments v, p = q ∨ 4 < distance p.1 q.1 ∨ 4 < distance p.2 q.2) ∧
    (∀ q ∈ formatPlaces (v*4+17), 2 < distance q.1 p.1 ∨ 2 < distance q.2 p.2) ∧
    (8 ≤ p.1 ∨ p.2+2 < v*4+17-11) ∧ (8 ≤ p.2 ∨ p.1+2 < v*4+17-11) ∧
    (10 ≤ p.1 ∨ (10 ≤ p.2 ∧ p.2+2 < v*4+17-8)) ∧ (10 ≤ p.2 ∨ (10 ≤ p.1 ∧ p.1+2 < v*4+17-8)) ∧
    2 ≤ p.1 ∧ 2 ≤ p.2 := by
  decide +kernel

theorem alignmentPairs_eq {v : ℕ} (hv : v ∈ versions) :
    alignmentPairs (alignmentCentres v (v*4+17)) = alignments v :=
  (alignment_tables v hv).1

theorem alignments_ge {v : ℕ} (hv : v ∈ versions) {p : ℕ × ℕ} (hp : p ∈ alignments v) :
    2 ≤ p.1 ∧ 2 ≤ p.2 :=
  ((alignment_tables v hv).2 p hp).2.2.2.2.2.2

section Parts

variable {size : ℕ} {r c : ℕ}

private theorem on_timing (hr : r < size) (hc : c < size) :
    (∃ d ∈ drawTiming size, d.On r c) ↔ r = 6 ∨ c = 6 := by
  simp only [drawTiming,List.mem_flatMap,List.mem_range,Dot.On]
  constructor
  · rintro ⟨d,⟨i,hi,hd⟩,hrow,hcol⟩
    simp only [List.mem_cons,List.not_mem_nil,or_false] at hd
    rcases hd with rfl | rfl <;> simp only at hrow hcol <;> omega
  · rintro (rfl | rfl)
    · exact ⟨⟨6,c,c%2 = 0⟩,⟨c,hc,List.mem_cons_self⟩,rfl,rfl⟩
    · exact ⟨⟨r,6,r%2 = 0⟩,⟨r,hr,List.mem_cons_of_mem _ List.mem_cons_self⟩,rfl,rfl⟩

private theorem dark_timing {d : Dot} (hd : d ∈ drawTiming size) (hon : d.On r c) :
    (r = 6 → c ≠ 6 → d.dark = decide (c%2 = 0)) ∧ (c = 6 → r ≠ 6 → d.dark = decide (r%2 = 0)) := by
  obtain ⟨i,-,hd⟩ := List.mem_flatMap.mp hd
  obtain ⟨hrow,hcol⟩ := hon
  simp only [List.mem_cons,List.not_mem_nil,or_false] at hd
  rcases hd with rfl | rfl
  · have hr : r = 6 := by simp only at hrow; omega
    have hi : i = c := by simp only at hcol; omega
    exact ⟨fun _ _ => by rw [hi],fun _ h => absurd hr h⟩
  · have hc : c = 6 := by simp only at hcol; omega
    have hi : i = r := by simp only at hrow; omega
    exact ⟨fun _ h => absurd hc h,fun _ _ => by rw [hi]⟩

private theorem mem_around {n : ℕ} {d : ℤ} : d ∈ around n ↔ d.natAbs ≤ n := by
  simp only [around,List.mem_map,List.mem_range]
  constructor
  · rintro ⟨k,hk,rfl⟩
    omega
  · intro h
    exact ⟨(d+n).toNat,by omega,by omega⟩

theorem on_rings {n : ℕ} {light : ℕ → Bool} {row col : ℕ} :
    (∃ d ∈ drawRings n light row col, d.On r c) ↔ distance r row ≤ n ∧ distance c col ≤ n := by
  simp only [drawRings,List.mem_flatMap,List.mem_map,mem_around,Dot.On,distance]
  constructor
  · rintro ⟨d,⟨dr,hdr,dc,hdc,rfl⟩,hrow,hcol⟩
    simp only at hrow hcol
    omega
  · rintro ⟨hrow,hcol⟩
    exact ⟨_,⟨(r : ℤ)-row,by omega,(c : ℤ)-col,by omega,rfl⟩,by simp only; omega,by simp only; omega⟩

theorem dark_rings {n : ℕ} {light : ℕ → Bool} {row col : ℕ} {d : Dot}
    (hd : d ∈ drawRings n light row col) (hon : d.On r c) :
    d.dark = !light (max (distance r row) (distance c col)) := by
  simp only [drawRings,List.mem_flatMap,List.mem_map] at hd
  obtain ⟨dr,-,dc,-,rfl⟩ := hd
  obtain ⟨hrow,hcol⟩ := hon
  simp only [distance] at hrow hcol ⊢
  congr 3 <;> omega

theorem finder_isSome : (finder? size r c).isSome = true ↔
    (r < 8 ∧ c < 8) ∨ (r < 8 ∧ size-8 ≤ c) ∨ (size-8 ≤ r ∧ c < 8) := by
  rw [finder?]
  split
  · simp_all
  · split
    · simp_all
    · split <;> simp_all

private theorem on_finders (hr : r < size) (hc : c < size) (hsize : 21 ≤ size) :
    (∃ d ∈ drawFinders size, d.On r c) ↔ (finder? size r c).isSome = true := by
  have hcentre : ∀ row col : ℕ, (∃ d ∈ drawRings 4 (fun dist => dist = 2 || dist = 4) row col,
      d.On r c) ↔ distance r row ≤ 4 ∧ distance c col ≤ 4 := fun row col => on_rings
  have hcast : (size : ℤ)-4 = ((size-4 : ℕ) : ℤ) := by omega
  have h1 := hcentre 3 3
  have h2 := hcentre 3 (size-4)
  have h3 := hcentre (size-4) 3
  simp only [distance] at h1 h2 h3
  have hiff : (∃ d ∈ drawFinders size, d.On r c) ↔
      (r < 8 ∧ c < 8) ∨ (r < 8 ∧ size-8 ≤ c) ∨ (size-8 ≤ r ∧ c < 8) := by
    simp only [drawFinders,List.flatMap_cons,List.flatMap_nil,List.append_nil,List.mem_append,
      or_and_right,exists_or,hcast]
    rw [show ((3 : ℤ)) = ((3 : ℕ) : ℤ) from rfl,h1,h2,h3]
    omega
  rw [hiff,finder_isSome]

end Parts

def lowBits (value width : ℕ) : List Bool := (List.range width).map (bitAt value)

def dotAt (p : ℕ × ℕ) (dark : Bool) : Dot := ⟨p.1,p.2,dark⟩

private theorem drawFormat_eq {v : ℕ} (hv : v ∈ versions) (mask : ℕ) :
    drawFormat (v*4+17) mask = List.zipWith dotAt (formatPlaces (v*4+17))
      (lowBits (formatBits mask) 15 ++ (lowBits (formatBits mask) 15 ++ [true])) := by
  simp only [versions,List.mem_cons,List.range',List.not_mem_nil,or_false] at hv
  rcases hv with rfl | rfl | rfl | rfl | rfl | rfl | rfl | rfl | rfl | rfl <;> rfl

theorem places_spec : ∀ v ∈ versions, (formatPlaces (v*4+17)).Nodup ∧
    ∀ p ∈ formatPlaces (v*4+17), (p.1 < v*4+17 ∧ p.2 < v*4+17) ∧
      isFunction v (v*4+17) p.1 p.2 = true ∧
      (pattern? v (v*4+17) p.1 p.2 = none ∨
        (p = (v*4+17-8,8) ∧ pattern? v (v*4+17) p.1 p.2 = some true)) := by
  decide +kernel

private theorem on_zip {ps : List (ℕ × ℕ)} {bs : List Bool} (h : ps.length = bs.length) {r c : ℕ} :
    (∃ d ∈ List.zipWith dotAt ps bs, d.On r c) ↔ (r,c) ∈ ps := by
  induction ps generalizing bs with
  | nil => simp
  | cons p ps ih =>
    cases bs with
    | nil => cases h
    | cons b bs =>
      have hhead : (dotAt p b).On r c ↔ (r,c) = p := by
        simp only [Dot.On,dotAt,Nat.cast_inj,Prod.ext_iff]
        constructor <;> intro h <;> exact ⟨h.1.symm,h.2.symm⟩
      rw [List.zipWith_cons_cons,List.mem_cons,← ih (Nat.succ.inj h),← hhead]
      simp only [List.mem_cons,or_and_right,exists_or,exists_eq_left]

private theorem draw_zip {size : ℕ} {ps : List (ℕ × ℕ)} {bs : List Bool} (g : Grid)
    (h : ps.length = bs.length) (hnodup : ps.Nodup) (hin : ∀ p ∈ ps, p.1 < size ∧ p.2 < size) :
    bitsAt (g.draw size (List.zipWith dotAt ps bs)).modules ps = bs := by
  have hpos : ((List.zipWith dotAt ps bs).map fun d => (d.row,d.col)).Nodup := by
    have hmap : (List.zipWith dotAt ps bs).map (fun d => (d.row,d.col)) =
        ps.map fun p => ((p.1 : ℤ),(p.2 : ℤ)) := by
      rw [List.map_zipWith]
      apply List.ext_getElem
      · simp [h]
      · intro i hi hi'
        simp [dotAt]
    rw [hmap]
    refine hnodup.map fun p q he => ?_
    simp only [Prod.mk.injEq,Nat.cast_inj] at he
    exact Prod.ext he.1 he.2
  apply List.ext_getElem
  · rw [bitsAt,List.length_map,h]
  · intro i hi hi'
    simp only [bitsAt,List.length_map] at hi
    obtain ⟨hr,hc⟩ := hin _ (List.getElem_mem hi)
    have hmem : dotAt ps[i] bs[i] ∈ List.zipWith dotAt ps bs := by
      have hi'' : i < (List.zipWith dotAt ps bs).length := by simp [h]; omega
      have hget : (List.zipWith dotAt ps bs)[i] = dotAt ps[i] bs[i] := List.getElem_zipWith
      exact hget ▸ List.getElem_mem hi''
    have hdraw := draw_of_nodup g hr hc hpos hmem ⟨rfl,rfl⟩
    simpa only [bitsAt,List.getElem_map,dotAt] using hdraw

private theorem bitAt_testBit (value i : ℕ) : bitAt value i = value.testBit i := by
  rw [bitAt,Nat.testBit,Nat.land_comm]

private theorem lowBits_eq (value width : ℕ) : lowBits value width = lowFirst value width := by
  rw [lowBits,lowFirst,pushed,← List.map_reverse,List.reverse_reverse]
  exact List.map_congr_left fun i _ => bitAt_testBit value i

private theorem bits_eq : (∀ mask < 8, formatBits mask = formatStrings.getD mask 0) ∧
    ∀ v ∈ versions, 7 ≤ v → versionBits v = versionString v := by
  decide

private theorem length_places (size mask : ℕ) : (formatPlaces size).length =
    (lowBits (formatBits mask) 15 ++ (lowBits (formatBits mask) 15 ++ [true])).length := by
  simp [formatPlaces,formatAt,formatAgain,lowBits]

theorem on_format {version r c mask : ℕ} (hv : version ∈ versions) :
    (∃ d ∈ drawFormat (version*4+17) mask, d.On r c) ↔ (r,c) ∈ formatPlaces (version*4+17) := by
  rw [drawFormat_eq hv]
  exact on_zip (length_places _ _)

section Strings

variable {version : ℕ} (hv : version ∈ versions)
include hv

theorem places_in : ∀ p ∈ formatPlaces (version*4+17),
    p.1 < version*4+17 ∧ p.2 < version*4+17 :=
  fun p hp => ((places_spec version hv).2 p hp).1

theorem draw_format (g : Grid) {mask : ℕ} (hmask : mask < 8) :
    bitsAt (g.draw (version*4+17) (drawFormat (version*4+17) mask)).modules formatAt =
      lowFirst (formatStrings.getD mask 0) 15 ∧
    bitsAt (g.draw (version*4+17) (drawFormat (version*4+17) mask)).modules
      (formatAgain (version*4+17)) = lowFirst (formatStrings.getD mask 0) 15 ∧
    (g.draw (version*4+17) (drawFormat (version*4+17) mask)).modules (version*4+17-8) 8 = true := by
  have hdraw := draw_zip g (length_places (version*4+17) mask) (places_spec version hv).1 (places_in hv)
  rw [← drawFormat_eq hv,formatPlaces,bitsAt,List.map_append,List.map_append] at hdraw
  obtain ⟨hfirst,hrest⟩ := List.append_inj hdraw (by simp [formatAt,lowBits])
  obtain ⟨hagain,hdark⟩ := List.append_inj hrest (by simp [formatAgain,lowBits])
  rw [← bits_eq.1 mask hmask,← lowBits_eq]
  exact ⟨hfirst,hagain,List.singleton_inj.mp hdark⟩

theorem draw_version (g : Grid) (hseven : 7 ≤ version) :
    bitsAt (g.draw (version*4+17) (drawVersion (version*4+17) version)).modules
      (versionAt (version*4+17)) = lowFirst (versionString version) 18 ∧
    bitsAt (g.draw (version*4+17) (drawVersion (version*4+17) version)).modules
      ((versionAt (version*4+17)).map Prod.swap) = lowFirst (versionString version) 18 := by
  have hsize := size_ge hv
  have hcast : ∀ i : ℕ, ((version*4+17-11+i%3 : ℕ) : ℤ) =
      ((version*4+17 : ℕ) : ℤ)-11+((i%3 : ℕ) : ℤ) := by
    intro i
    omega
  have hagree : ∀ i < 18, ∀ d ∈ drawVersion (version*4+17) version,
      d.On (version*4+17-11+i%3) (i/3) ∨ d.On (i/3) (version*4+17-11+i%3) →
        d.dark = bitAt (versionBits version) i := by
    intro i hi d hd hon
    obtain ⟨j,hj,hd⟩ := List.mem_flatMap.mp hd
    have hj' := List.mem_range.mp hj
    simp only [Dot.On,hcast] at hon
    have hij : j = i := by
      simp only [List.mem_cons,List.not_mem_nil,or_false] at hd
      rcases hd with rfl | rfl <;> simp only at hon <;> omega
    simp only [List.mem_cons,List.not_mem_nil,or_false] at hd
    rcases hd with rfl | rfl <;> rw [hij]
  have hmem : ∀ i < 18, ∀ d ∈ [(⟨(i/3 : ℕ),((version*4+17 : ℕ) : ℤ)-11+(i%3 : ℕ),
      bitAt (versionBits version) i⟩ : Dot),⟨((version*4+17 : ℕ) : ℤ)-11+(i%3 : ℕ),(i/3 : ℕ),
      bitAt (versionBits version) i⟩], d ∈ drawVersion (version*4+17) version :=
    fun i hi d hd => List.mem_flatMap.mpr ⟨i,List.mem_range.mpr hi,hd⟩
  rw [← bits_eq.2 version hv hseven,← lowBits_eq,versionAt,bitsAt,bitsAt,List.map_map,
    List.map_map,List.map_map,lowBits]
  constructor <;> refine List.map_congr_left fun i hi => ?_
  · have hi' := List.mem_range.mp hi
    have hd := hmem i hi' _ (List.mem_cons_of_mem _ List.mem_cons_self)
    have hin : version*4+17-11+i%3 < version*4+17 ∧ i/3 < version*4+17 := by omega
    exact (draw_of_agree hin.1 hin.2 g ⟨_,hd,(hcast i).symm,rfl⟩
      fun d hd hon => hagree i hi' d hd (Or.inl hon)).1
  · have hi' := List.mem_range.mp hi
    have hd := hmem i hi' _ List.mem_cons_self
    have hin : i/3 < version*4+17 ∧ version*4+17-11+i%3 < version*4+17 := by omega
    exact (draw_of_agree hin.1 hin.2 g ⟨_,hd,rfl,(hcast i).symm⟩
      fun d hd hon => hagree i hi' d hd (Or.inr hon)).1

end Strings

section Reserved

variable {version r c : ℕ}

private theorem on_alignment (hv : version ∈ versions) :
    (∃ d ∈ drawAlignment (alignmentCentres version (version*4+17)), d.On r c) ↔
      (alignment? version r c).isSome = true := by
  rw [drawAlignment,alignmentPairs_eq hv,alignment?,List.find?_isSome]
  simp only [decide_eq_true_eq]
  constructor
  · rintro ⟨d,hd,hon⟩
    obtain ⟨p,hp,hd⟩ := List.mem_flatMap.mp hd
    exact ⟨p,hp,on_rings.mp ⟨d,hd,hon⟩⟩
  · rintro ⟨p,hp,hnear⟩
    obtain ⟨d,hd,hon⟩ := (@on_rings _ _ _ (fun dist => dist = 1) _ _).mpr hnear
    exact ⟨d,List.mem_flatMap.mpr ⟨p,hp,hd⟩,hon⟩

private theorem mem_formatAt : (r,c) ∈ formatAt ∨ r = 6 ∨ c = 6 ↔
    (r = 8 ∧ c < 9 ∨ c = 8 ∧ r < 9) ∨ r = 6 ∨ c = 6 := by
  have hout : ∀ p ∈ formatAt, p.1 = 8 ∧ p.2 < 9 ∨ p.2 = 8 ∧ p.1 < 9 := by decide
  have hin : ∀ i < 9, i = 6 ∨ (i,8) ∈ formatAt ∧ (8,i) ∈ formatAt := by decide
  constructor
  · exact fun h => h.imp_left (hout (r,c))
  · rintro ((⟨rfl,hc⟩ | ⟨rfl,hr⟩) | h)
    · exact (hin c hc).elim (fun h => Or.inr (Or.inr h)) fun h => Or.inl h.2
    · exact (hin r hr).elim (fun h => Or.inr (Or.inl h)) fun h => Or.inl h.1
    · exact Or.inr h

private theorem mem_formatPlaces {size : ℕ} (hsize : 21 ≤ size) (hr : r < size) (hc : c < size) :
    ((r,c) ∈ formatPlaces size ∨ r = 6 ∨ c = 6) ↔ (inFormat size r c = true ∨ r = 6 ∨ c = 6) := by
  have hagain : (r,c) ∈ formatAgain size ++ [(size-8,8)] ↔
      r = 8 ∧ size-8 ≤ c ∨ c = 8 ∧ size-8 ≤ r := by
    simp only [formatAgain,List.mem_append,List.mem_map,List.mem_range,List.mem_singleton,
      Prod.mk.injEq]
    constructor
    · rintro ((⟨i,hi,hrow,hcol⟩ | ⟨i,hi,hrow,hcol⟩) | ⟨hrow,hcol⟩) <;> omega
    · rintro (⟨hrow,hcol⟩ | ⟨hcol,hrow⟩)
      · exact Or.inl (Or.inl ⟨size-1-c,by omega,by omega,by omega⟩)
      · by_cases hlast : r = size-8
        · exact Or.inr ⟨hlast,hcol⟩
        · exact Or.inl (Or.inr ⟨r-(size-7),by omega,by omega,by omega⟩)
  have hat := @mem_formatAt r c
  simp only [formatPlaces,List.mem_append (s := formatAt),hagain,inFormat,Bool.or_eq_true,
    Bool.and_eq_true,decide_eq_true_eq]
  by_cases hsix : r = 6 ∨ c = 6
  · simp only [hsix,or_true]
  · rw [or_iff_left hsix,or_iff_left hsix] at hat
    rw [or_iff_left hsix,or_iff_left hsix,hat]
    constructor
    · rintro ((h | h) | (h | h)) <;> simp [h]
    · rintro (⟨h,h' | h'⟩ | ⟨h,h' | h'⟩) <;> simp [h,h']

private theorem on_version {size : ℕ} (hsize : 21 ≤ size) (hr : r < size) (hc : c < size) :
    (∃ d ∈ if version ≥ 7 then drawVersion size version else [], d.On r c) ↔
      inVersion version size r c = true := by
  simp only [inVersion,Bool.and_eq_true,Bool.or_eq_true,decide_eq_true_eq]
  split
  · rename_i hseven
    simp only [drawVersion,List.mem_flatMap,List.mem_range,Dot.On]
    constructor
    · rintro ⟨d,⟨i,hi,hd⟩,hrow,hcol⟩
      simp only [List.mem_cons,List.not_mem_nil,or_false] at hd
      rcases hd with rfl | rfl <;> simp only at hrow hcol <;> omega
    · rintro ⟨-,⟨⟨hrow,hlo⟩,hhi⟩ | ⟨⟨hcol,hlo⟩,hhi⟩⟩
      · refine ⟨_,⟨3*r+(c-(size-11)),by omega,List.mem_cons_self⟩,?_,?_⟩ <;> simp only <;> omega
      · refine ⟨_,⟨3*c+(r-(size-11)),by omega,List.mem_cons_of_mem _ List.mem_cons_self⟩,?_,?_⟩ <;>
          simp only <;> omega
  · rename_i hsmall
    simp [Nat.not_le.mp hsmall]

theorem reserved_eq (hv : version ∈ versions) (hr : r < version*4+17) (hc : c < version*4+17) :
    (empty.draw (version*4+17) (functionDots version (version*4+17))).reserved r c =
      isFunction version (version*4+17) r c := by
  obtain ⟨-,-,hsize⟩ := size_ge hv
  have hplaces := mem_formatPlaces hsize hr hc
  rw [Bool.eq_iff_iff,draw_reserved hr hc]
  simp only [functionDots,List.mem_append,or_and_right,exists_or,on_timing hr hc,
    on_finders hr hc hsize,on_alignment hv,on_format hv,on_version hsize hr hc,empty,Bool.false_eq_true,
    false_or,isFunction,Bool.or_eq_true,decide_eq_true_eq]
  by_cases hsix : r = 6 ∨ c = 6
  · simp only [hsix,true_or]
  · rw [or_iff_left hsix,or_iff_left hsix] at hplaces
    rw [hplaces]

private theorem eight_of_mem {size : ℕ} (h : (r,c) ∈ formatPlaces size) : r = 8 ∨ c = 8 := by
  have hout : ∀ p ∈ formatAt, p.1 = 8 ∨ p.2 = 8 := by decide
  simp only [formatPlaces,formatAgain,List.mem_append,List.mem_map,List.mem_range,
    List.mem_singleton,Prod.mk.injEq] at h
  rcases h with h | (⟨i,-,h,-⟩ | ⟨i,-,-,h⟩) | ⟨-,h⟩
  · exact hout (r,c) h
  · exact Or.inl h.symm
  · exact Or.inr h.symm
  · exact Or.inr h

private theorem not_mem_of_six {size : ℕ} (hsize : 21 ≤ size) (h : r = 6 ∨ c = 6) :
    (r,c) ∉ formatPlaces size := by
  have hout : ∀ p ∈ formatAt, p.1 ≠ 6 ∧ p.2 ≠ 6 := by decide
  simp only [formatPlaces,formatAgain,List.mem_append,List.mem_map,List.mem_range,
    List.mem_singleton,Prod.mk.injEq]
  rintro (hmem | (⟨i,hi,hrow,hcol⟩ | ⟨i,hi,hrow,hcol⟩) | ⟨hrow,hcol⟩)
  · have hne := hout (r,c) hmem
    simp only at hne
    omega
  all_goals omega

private theorem finder_some {size : ℕ} {p : ℕ × ℕ} (h : finder? size r c = some p) :
    (p = (3,3) ∧ r < 8 ∧ c < 8) ∨ (p = (3,size-4) ∧ r < 8 ∧ size-8 ≤ c ∧ 8 ≤ c) ∨
      (p = (size-4,3) ∧ size-8 ≤ r ∧ c < 8 ∧ 8 ≤ r) := by
  unfold finder? at h
  split at h
  · rename_i hin
    exact Or.inl ⟨(Option.some.inj h).symm,hin⟩
  · split at h
    · rename_i hin
      exact Or.inr (Or.inl ⟨(Option.some.inj h).symm,hin.1,hin.2,by omega⟩)
    · split at h
      · rename_i hin
        exact Or.inr (Or.inr ⟨(Option.some.inj h).symm,hin.1,hin.2,by omega⟩)
      · cases h

private theorem dark_finders {size : ℕ} (hsize : 21 ≤ size) (hr : r < size) (hc : c < size)
    {p : ℕ × ℕ} (hfinder : finder? size r c = some p) {d : Dot} (hd : d ∈ drawFinders size)
    (hon : d.On r c) : d.dark = (max (distance r p.1) (distance c p.2) ≠ 2 &&
      max (distance r p.1) (distance c p.2) ≠ 4) := by
  have hcast : (size : ℤ)-4 = ((size-4 : ℕ) : ℤ) := by omega
  have hring : ∀ q : ℕ × ℕ, d ∈ drawRings 4 (fun dist => dist = 2 || dist = 4) q.1 q.2 →
      (distance r q.1 ≤ 4 ∧ distance c q.2 ≤ 4) ∧
      d.dark = (max (distance r q.1) (distance c q.2) ≠ 2 &&
        max (distance r q.1) (distance c q.2) ≠ 4) := by
    intro q hq
    refine ⟨on_rings.mp ⟨d,hq,hon⟩,?_⟩
    rw [dark_rings hq hon,Bool.not_or,decide_not,decide_not]
  have hq : ∃ q ∈ [(3,3),(3,size-4),(size-4,3)],
      d ∈ drawRings 4 (fun dist => dist = 2 || dist = 4) (q : ℕ × ℕ).1 q.2 := by
    simp only [drawFinders,hcast,List.mem_flatMap,List.mem_cons,List.not_mem_nil,or_false] at hd
    obtain ⟨centre,rfl | rfl | rfl,hd⟩ := hd
    · exact ⟨(3,3),by simp,hd⟩
    · exact ⟨(3,size-4),by simp,hd⟩
    · exact ⟨(size-4,3),by simp,hd⟩
  obtain ⟨q,hq,hd⟩ := hq
  obtain ⟨hnear,hdark⟩ := hring q hd
  have hpq : q = p := by
    simp only [distance] at hnear
    simp only [List.mem_cons,List.not_mem_nil,or_false] at hq
    rcases finder_some hfinder with ⟨rfl,h⟩ | ⟨rfl,h⟩ | ⟨rfl,h⟩ <;>
      rcases hq with rfl | rfl | rfl <;> simp only at hnear ⊢ <;> first | rfl | omega
  rw [← hpq]
  exact hdark

private theorem alignment_some {p : ℕ × ℕ} (h : alignment? version r c = some p) :
    p ∈ alignments version ∧ distance r p.1 ≤ 2 ∧ distance c p.2 ≤ 2 := by
  have hnear := List.find?_some h
  exact ⟨List.mem_of_find?_eq_some h,of_decide_eq_true hnear⟩

private theorem dark_alignment (hv : version ∈ versions) {p : ℕ × ℕ}
    (halign : alignment? version r c = some p) {d : Dot}
    (hd : d ∈ drawAlignment (alignmentCentres version (version*4+17))) (hon : d.On r c) :
    d.dark = decide (max (distance r p.1) (distance c p.2) ≠ 1) := by
  obtain ⟨hp,hnear⟩ := alignment_some halign
  rw [drawAlignment,alignmentPairs_eq hv] at hd
  obtain ⟨q,hq,hd⟩ := List.mem_flatMap.mp hd
  have hnear' := on_rings.mp ⟨d,hd,hon⟩
  have hpq : p = q := by
    refine (((alignment_tables version hv).2 p hp).1 q hq).resolve_right ?_
    simp only [distance] at hnear hnear' ⊢
    omega
  rw [dark_rings hd hon,← hpq,decide_not]

private theorem finder_none_of_alignment (hv : version ∈ versions) {p : ℕ × ℕ}
    (halign : alignment? version r c = some p) :
    (r,c) ∉ formatPlaces (version*4+17) ∧ inVersion version (version*4+17) r c = false := by
  obtain ⟨hp,hnear⟩ := alignment_some halign
  obtain ⟨-,hplaces,habove,hbeside,-⟩ := (alignment_tables version hv).2 p hp
  constructor
  · intro hmem
    have hfar : 2 < distance r p.1 ∨ 2 < distance c p.2 := hplaces (r,c) hmem
    omega
  · rw [← Bool.not_eq_true,inVersion]
    simp only [Bool.and_eq_true,Bool.or_eq_true,decide_eq_true_eq]
    simp only [distance] at hnear
    omega

private theorem alignment_none_of_finder (hv : version ∈ versions) {p : ℕ × ℕ}
    (hfinder : finder? (version*4+17) r c = some p) (hr : r < version*4+17)
    (hc : c < version*4+17) : alignment? version r c = none := by
  rw [alignment?,List.find?_eq_none]
  intro q hq hdecide
  obtain ⟨-,-,-,-,hone,htwo,-⟩ := (alignment_tables version hv).2 q hq
  have hnear := of_decide_eq_true hdecide
  simp only [distance] at hnear
  rcases finder_some hfinder with ⟨-,h⟩ | ⟨-,h⟩ | ⟨-,h⟩ <;> omega

/-- The finders, the alignment patterns, the timing rows and the dark module are drawn as the
standard says. -/
theorem drawn_pattern (hv : version ∈ versions) (hr : r < version*4+17) (hc : c < version*4+17)
    {b : Bool} (h : pattern? version (version*4+17) r c = some b) :
    (empty.draw (version*4+17) (functionDots version (version*4+17))).modules r c = b := by
  obtain ⟨-,-,hsize⟩ := size_ge hv
  have hfinders := on_finders hr hc hsize
  have halignment := @on_alignment version r c hv
  have hformat := @on_format version r c 0 hv
  have hversion := @on_version version r c _ hsize hr hc
  -- a layer is passed over where none of its dots is on the module
  have hskip : ∀ (g : Grid) (dots : List Dot), ¬ (∃ d ∈ dots, d.On r c) →
      (g.draw (version*4+17) dots).modules r c = g.modules r c :=
    fun g dots hnone => (draw_of_not_on _ g fun d hd hon => hnone ⟨d,hd,hon⟩).1
  simp only [functionDots,draw_append]
  unfold pattern? at h
  split at h
  · rename_i p hfinder
    have hnone := alignment_none_of_finder hv hfinder hr hc
    have hregion := finder_some hfinder
    rw [hskip _ _ (by rw [hversion]; simp [inVersion]; omega),
      hskip _ _ (by rw [hformat]; intro hmem; have := eight_of_mem hmem; omega),
      hskip _ _ (by rw [halignment,hnone]; simp)]
    refine (draw_of_agree hr hc _ (hfinders.mpr (by rw [hfinder]; rfl)) ?_).1
    intro d hd hon
    rw [dark_finders hsize hr hc hfinder hd hon]
    exact Option.some.inj h
  · rename_i hfinder
    split at h
    · rename_i p halign
      obtain ⟨hplaces,hblock⟩ := finder_none_of_alignment hv halign
      rw [hskip _ _ (by rw [hversion,hblock]; simp),hskip _ _ (by rw [hformat]; exact hplaces)]
      refine (draw_of_agree hr hc _ (halignment.mpr (by rw [halign]; rfl)) ?_).1
      intro d hd hon
      rw [dark_alignment hv halign hd hon]
      exact Option.some.inj h
    · rename_i halign
      split at h
      · rename_i hdark
        obtain ⟨rfl,rfl⟩ := hdark
        rw [hskip _ _ (by rw [hversion]; simp [inVersion])]
        have hformats := (draw_format hv
          (((empty.draw (version*4+17) (drawTiming (version*4+17))).draw (version*4+17)
            (drawFinders (version*4+17))).draw (version*4+17)
              (drawAlignment (alignmentCentres version (version*4+17)))) (show 0 < 8 by omega)).2.2
        rw [hformats]
        exact Option.some.inj h
      · rename_i hdark
        have hsix : r = 6 ∨ c = 6 := by
          by_contra hnot
          rw [not_or] at hnot
          rw [if_neg hnot.1,if_neg hnot.2] at h
          cases h
        have hcorner : ¬ (r = 6 ∧ c = 6) := by
          rintro ⟨rfl,rfl⟩
          simp [finder?] at hfinder
        have hplaces : (r,c) ∉ formatPlaces (version*4+17) := not_mem_of_six hsize hsix
        rw [hskip _ _ (by rw [hversion]; simp [inVersion]; omega),hskip _ _ (by rw [hformat]; exact hplaces),
          hskip _ _ (by rw [halignment,halign]; simp),hskip _ _ (by rw [hfinders,hfinder]; simp)]
        refine (draw_of_agree hr hc _ ((on_timing hr hc).mpr hsix) ?_).1
        intro d hd hon
        obtain ⟨hrow,hcol⟩ := dark_timing hd hon
        split at h
        · rename_i hr6
          rw [hrow hr6 fun hc6 => hcorner ⟨hr6,hc6⟩]
          exact Option.some.inj h
        · rename_i hr6
          have hc6 : c = 6 := hsix.resolve_left hr6
          rw [if_pos hc6] at h
          rw [hcol hc6 hr6]
          exact Option.some.inj h

end Reserved

end WeirdVault.Qr
