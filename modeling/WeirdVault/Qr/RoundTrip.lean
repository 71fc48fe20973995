import WeirdVault.Qr.Patterns

/-!
# An encoded symbol reads back

The encoder's zig-zag is the standard's order of the modules, and it has as many modules as the
version's arithmetic says. Trying a mask changes only the modules of the format string once the
mask is taken off again; so the mask that is named in the end is the one that is on, and under it
stand the bits of the message.
-/

namespace WeirdVault.Qr

open Framework Standard

theorem zigzag_eq {version : ℕ} (hv : version ∈ versions) :
    zigzag (version*4+17) = moduleOrder (version*4+17) := by
  have hcolumns : ∀ v ∈ versions,
      (columnsFrom (v*4+17) (v*4+17-1)).map (fun right => (right,decide ((right+1) &&& 2 = 0))) =
        (List.range ((v*4+17-1)/2)).map fun n => (rightColumn (v*4+17) n,decide (n%2 = 0)) := by
    decide +kernel
  have hleft : zigzag (version*4+17) =
      ((columnsFrom (version*4+17) (version*4+17-1)).map
        (fun right => (right,decide ((right+1) &&& 2 = 0)))).flatMap fun p =>
          (List.range (version*4+17)).flatMap fun k =>
            [(if p.2 then version*4+17-1-k else k,p.1),(if p.2 then version*4+17-1-k else k,p.1-1)] := by
    rw [List.flatMap_map,zigzag]
    simp only [decide_eq_true_eq,List.map_cons,List.map_nil,Nat.sub_zero]
  rw [hleft,hcolumns version hv,List.flatMap_map,moduleOrder]
  simp only [decide_eq_true_eq]

private theorem mem_moduleOrder {size : ℕ} {p : ℕ × ℕ} (hsize : 21 ≤ size)
    (hp : p ∈ moduleOrder size) : p.1 < size ∧ p.2 < size := by
  simp only [moduleOrder,List.mem_flatMap,List.mem_range,List.mem_cons,List.not_mem_nil,
    or_false] at hp
  obtain ⟨n,hn,k,hk,hp⟩ := hp
  have hcol : rightColumn size n < size := by
    unfold rightColumn
    split <;> omega
  have hrow : (if n%2 = 0 then size-1-k else k) < size := by split <;> omega
  rcases hp with rfl | rfl
  · exact ⟨hrow,hcol⟩
  · exact ⟨hrow,lt_of_le_of_lt (Nat.sub_le _ _) hcol⟩

private theorem exists_column : ∀ v ∈ versions, ∀ c < v*4+17, c = 6 ∨
    ∃ n < (v*4+17-1)/2, rightColumn (v*4+17) n = c ∨ rightColumn (v*4+17) n = c+1 := by
  decide +kernel

private theorem mem_moduleOrder_of_ne {version r c : ℕ} (hv : version ∈ versions)
    (hr : r < version*4+17) (hc : c < version*4+17) (h : c ≠ 6) :
    (r,c) ∈ moduleOrder (version*4+17) := by
  obtain ⟨n,hn,hcol⟩ := (exists_column version hv c hc).resolve_left h
  have hrow : ∃ k < version*4+17, (if n%2 = 0 then version*4+17-1-k else k) = r := by
    by_cases heven : n%2 = 0
    · exact ⟨version*4+17-1-r,by omega,by rw [if_pos heven]; omega⟩
    · exact ⟨r,hr,if_neg heven⟩
  obtain ⟨k,hk,hrow⟩ := hrow
  refine List.mem_flatMap.mpr ⟨n,List.mem_range.mpr hn,List.mem_flatMap.mpr ⟨k,List.mem_range.mpr hk,?_⟩⟩
  simp only [hrow,List.mem_cons,List.not_mem_nil,or_false,Prod.mk.injEq,true_and]
  omega

-- The function modules of a row are the bits of a number; what is left over is counted bit by bit.
private def ones (a n : ℕ) : ℕ := (2^n-1) <<< a

private def rowMask (version row : ℕ) : ℕ :=
  (if row = 6 then ones 0 (version*4+17) else ones 6 1) |||
  (if row < 9 then ones 0 9 ||| ones (version*4+9) 8 else if version*4+9 ≤ row then ones 0 9 else 0) |||
  (alignments version).foldr (fun p m =>
    (if p.1-2 ≤ row ∧ row ≤ p.1+2 then ones (p.2-2) 5 else 0) ||| m) 0 |||
  if 7 ≤ version then
    (if row < 6 then ones (version*4+6) 3 else 0) |||
      if version*4+6 ≤ row ∧ row < version*4+9 then ones 0 6 else 0
  else 0

private def zeros : ℕ → ℕ → ℕ
  | 0,_ => 0
  | n+1,m => (1-m%2)+zeros n (m/2)

private theorem testBit_ones (a n c : ℕ) :
    (ones a n).testBit c = (decide (a ≤ c) && decide (c < a+n)) := by
  rw [ones,Nat.testBit_shiftLeft,Nat.testBit_two_pow_sub_one]
  by_cases h : a ≤ c
  · simp only [h,decide_true,Bool.true_and]
    congr 1
    rw [eq_iff_iff]
    omega
  · simp [h]

private theorem zeros_eq (n m : ℕ) :
    zeros n m = ((List.range n).filter fun c => !m.testBit c).length := by
  induction n generalizing m with
  | zero => rfl
  | succ n ih =>
    rw [zeros,ih,List.range_succ_eq_map,List.filter_cons,List.filter_map,Nat.testBit_zero]
    have hrest : (fun c => !m.testBit c) ∘ Nat.succ = fun c => !(m/2).testBit c :=
      funext fun c => congrArg not (Nat.testBit_add_one m c)
    rw [hrest]
    rcases Nat.mod_two_eq_zero_or_one m with h | h <;> simp [h]
    omega

private theorem testBit_if (p : Prop) [Decidable p] (m n c : ℕ) :
    (if p then m else n).testBit c = true ↔
      (p ∧ m.testBit c = true) ∨ (¬ p ∧ n.testBit c = true) := by
  split <;> simp_all

private theorem testBit_foldr (ps : List (ℕ × ℕ)) (row c : ℕ) :
    (ps.foldr (fun p m => (if p.1-2 ≤ row ∧ row ≤ p.1+2 then ones (p.2-2) 5 else 0) ||| m)
      0).testBit c = true ↔
      ∃ p ∈ ps, (p.1-2 ≤ row ∧ row ≤ p.1+2) ∧ p.2-2 ≤ c ∧ c < p.2-2+5 := by
  induction ps with
  | nil => simp
  | cons p ps ih =>
    rw [List.foldr_cons,Nat.testBit_or,Bool.or_eq_true,ih,testBit_if,testBit_ones]
    simp only [List.mem_cons,or_and_right,exists_or,exists_eq_left,Nat.zero_testBit,
      Bool.false_eq_true,and_false,or_false,Bool.and_eq_true,decide_eq_true_eq]

private theorem testBit_rowMask {version r c : ℕ} (hv : version ∈ versions)
    (hr : r < version*4+17) (hc : c < version*4+17) :
    (rowMask version r).testBit c = isFunction version (version*4+17) r c := by
  obtain ⟨-,-,hsize⟩ := size_ge hv
  have halign : (∃ p ∈ alignments version, (p.1-2 ≤ r ∧ r ≤ p.1+2) ∧ p.2-2 ≤ c ∧ c < p.2-2+5) ↔
      (alignment? version r c).isSome = true := by
    rw [alignment?,List.find?_isSome]
    simp only [decide_eq_true_eq]
    refine exists_congr fun p => and_congr_right fun hp => ?_
    have hp' := alignments_ge hv hp
    simp only [distance]
    omega
  rw [Bool.eq_iff_iff]
  simp only [rowMask,Nat.testBit_or,Bool.or_eq_true,testBit_if,testBit_ones,testBit_foldr,halign,
    isFunction,finder_isSome,inFormat,inVersion,Bool.and_eq_true,decide_eq_true_eq,
    Nat.zero_testBit,Bool.false_eq_true,and_false,or_false]
  clear halign
  by_cases hsome : (alignment? version r c).isSome = true
  · simp only [hsome,or_true,true_or]
  · simp only [hsome,Bool.false_eq_true,or_false]
    refine or_congr ?_ (and_congr_right fun _ => ?_)
    · by_cases hrow : r < 9 <;> omega
    · omega

private theorem length_cells {version : ℕ} (hv : version ∈ versions) :
    ((moduleOrder (version*4+17)).filter fun p =>
      !isFunction version (version*4+17) p.1 p.2).length = rawDataModules version := by
  have hcount : ∀ v ∈ versions, ((List.range (v*4+17)).map fun r =>
      zeros (v*4+17) (rowMask v r)).sum = rawDataModules v := by
    decide +kernel
  obtain ⟨-,-,hsize⟩ := size_ge hv
  have hrows : ((List.range (version*4+17)).map fun r => zeros (version*4+17) (rowMask version r)) =
      (List.range (version*4+17)).map fun r => ((List.range (version*4+17)).filter fun c =>
        !isFunction version (version*4+17) r c).length := by
    refine List.map_congr_left fun r hr => ?_
    rw [zeros_eq]
    congr 1
    refine List.filter_congr fun c hc => ?_
    rw [testBit_rowMask hv (List.mem_range.mp hr) (List.mem_range.mp hc)]
  have hall : ((List.range (version*4+17)).flatMap fun r =>
      ((List.range (version*4+17)).filter fun c => !isFunction version (version*4+17) r c).map
        fun c => (r,c)).length = rawDataModules version := by
    rw [← hcount version hv,hrows,List.length_flatMap]
    simp only [List.length_map]
  rw [← hall]
  refine List.Perm.length_eq ((List.perm_ext_iff_of_nodup ?_ ?_).mpr fun p => ?_)
  · rw [← zigzag_eq hv]
    exact (nodup_zigzag hv).filter _
  · rw [List.nodup_flatMap]
    refine ⟨fun r _ => (List.nodup_range.filter _).map fun a b h => congrArg Prod.snd h,?_⟩
    refine List.nodup_range.imp ?_
    intro a b hab p ha hb
    obtain ⟨c,-,rfl⟩ := List.mem_map.mp ha
    obtain ⟨d,-,hd⟩ := List.mem_map.mp hb
    exact hab (congrArg Prod.fst hd).symm
  · rw [List.mem_filter]
    constructor
    · rintro ⟨hmem,hfree⟩
      obtain ⟨hr,hc⟩ := mem_moduleOrder hsize hmem
      exact List.mem_flatMap.mpr ⟨p.1,List.mem_range.mpr hr,List.mem_map.mpr
        ⟨p.2,List.mem_filter.mpr ⟨List.mem_range.mpr hc,hfree⟩,rfl⟩⟩
    · intro hmem
      obtain ⟨r,hr,hmem⟩ := List.mem_flatMap.mp hmem
      obtain ⟨c,hc,rfl⟩ := List.mem_map.mp hmem
      obtain ⟨hc,hfree⟩ := List.mem_filter.mp hc
      have hne : c ≠ 6 := by
        rintro rfl
        simp [isFunction] at hfree
      exact ⟨mem_moduleOrder_of_ne hv (List.mem_range.mp hr) (List.mem_range.mp hc) hne,hfree⟩

theorem mem_places_isFunction {version r c : ℕ} (hv : version ∈ versions)
    (h : (r,c) ∈ formatPlaces (version*4+17)) :
    isFunction version (version*4+17) r c = true :=
  ((places_spec version hv).2 (r,c) h).2.1

section Unmasked

variable {version : ℕ} (hv : version ∈ versions)
include hv

def cells (version : ℕ) : List (ℕ × ℕ) :=
  (moduleOrder (version*4+17)).filter fun p => !isFunction version (version*4+17) p.1 p.2

private theorem free_eq : free (empty.draw (version*4+17)
    (functionDots version (version*4+17))).reserved (zigzag (version*4+17)) = cells version := by
  obtain ⟨-,-,hsize⟩ := size_ge hv
  rw [free,zigzag_eq hv,cells]
  refine List.filter_congr fun p hp => ?_
  obtain ⟨hr,hc⟩ := mem_moduleOrder hsize hp
  rw [reserved_eq hv hr hc]

theorem unmasked_reserved (bytes : List UInt8) {r c : ℕ} (hr : r < version*4+17)
    (hc : c < version*4+17) :
    (unmasked bytes version).reserved r c = isFunction version (version*4+17) r c :=
  reserved_eq hv hr hc

theorem unmasked_function (bytes : List UInt8) {r c : ℕ} (hr : r < version*4+17)
    (hc : c < version*4+17) (h : isFunction version (version*4+17) r c = true) :
    (unmasked bytes version).modules r c =
      (empty.draw (version*4+17) (functionDots version (version*4+17))).modules r c := by
  have hreserved := (reserved_eq hv hr hc).trans h
  exact @place_other _ _ _ (r,c) (Or.inr hreserved) _ _

theorem unmasked_cell {bytes : List UInt8} (hfits : Fits version bytes.length)
    (hcount : bytes.length < 2^countBits version) {k : ℕ}
    (hk : k < 8*rawCodewords version) {p : ℕ × ℕ} (hp : (cells version)[k]? = some p) :
    (unmasked bytes version).modules p.1 p.2 =
      (bitsOf (interleave (payloadCodewords bytes version) version)).getD k false := by
  have hlen := length_interleave hv (segment_payloadCodewords hfits hcount).1
  have hplace := @place_free _ (interleave (payloadCodewords bytes version) version) _
    (nodup_zigzag hv) (empty.draw (version*4+17) (functionDots version (version*4+17))).modules 0 k
    (by rw [hlen]; omega) p ((congrArg (·[k]?) (free_eq hv)).trans hp)
  rw [Nat.zero_add] at hplace
  exact hplace

end Unmasked

structure Alike (version : ℕ) (g g' : Grid) : Prop where
  reserved : ∀ r < version*4+17, ∀ c < version*4+17, g'.reserved r c = g.reserved r c
  modules : ∀ r < version*4+17, ∀ c < version*4+17, (r,c) ∉ formatPlaces (version*4+17) →
    g'.modules r c = g.modules r c

def finished (size mask : ℕ) (g : Grid) : Grid :=
  (applyMask size mask g).draw size (drawFormat size mask)

section Masks

variable {version : ℕ} (hv : version ∈ versions)
include hv

private theorem finished_other {g : Grid} {mask r c : ℕ} (hr : r < version*4+17)
    (hc : c < version*4+17) (h : (r,c) ∉ formatPlaces (version*4+17)) :
    (finished (version*4+17) mask g).reserved r c = g.reserved r c ∧
    (finished (version*4+17) mask g).modules r c =
      if g.reserved r c = false then g.modules r c ^^ maskAt mask r c else g.modules r c := by
  have hout : ∀ d ∈ drawFormat (version*4+17) mask, ¬ d.On r c :=
    fun d hd hon => h ((on_format hv).mp ⟨d,hd,hon⟩)
  obtain ⟨hmodules,hreserved⟩ := draw_of_not_on (version*4+17)
    (applyMask (version*4+17) mask g) hout
  rw [finished,hmodules,hreserved]
  refine ⟨rfl,?_⟩
  simp only [applyMask,hr,hc,true_and]
  cases g.reserved r c <;> cases maskAt mask r c <;> simp

private theorem alike_next {g : Grid} {t : Trial} (hg : Alike version g t.grid)
    (hplaces : ∀ p ∈ formatPlaces (version*4+17), g.reserved p.1 p.2 = true) (mask : ℕ) :
    Alike version g (t.next (version*4+17) mask).grid := by
  have hgrid : (t.next (version*4+17) mask).grid =
      applyMask (version*4+17) mask (finished (version*4+17) mask t.grid) := rfl
  constructor
  · intro r hr c hc
    rw [hgrid]
    show (finished (version*4+17) mask t.grid).reserved r c = _
    by_cases hmem : (r,c) ∈ formatPlaces (version*4+17)
    · have hdrawn := (draw_reserved hr hc (applyMask (version*4+17) mask t.grid)
        (drawFormat (version*4+17) mask)).mpr (Or.inr ((on_format hv).mpr hmem))
      exact hdrawn.trans (hplaces (r,c) hmem).symm
    · rw [(finished_other hv hr hc hmem).1,hg.reserved r hr c hc]
  · intro r hr c hc hmem
    obtain ⟨hreserved,hmodules⟩ := @finished_other version hv t.grid mask r c hr hc hmem
    rw [hgrid,← hg.modules r hr c hc hmem]
    simp only [applyMask,hreserved,hmodules,hr,hc,true_and]
    cases t.grid.reserved r c <;> cases maskAt mask r c <;> simp

private theorem alike_tried {g : Grid}
    (hplaces : ∀ p ∈ formatPlaces (version*4+17), g.reserved p.1 p.2 = true) (n : ℕ) :
    Alike version g ((List.range n).foldl (Trial.next (version*4+17)) ⟨g,0,none⟩).grid ∧
      ((List.range n).foldl (Trial.next (version*4+17)) ⟨g,0,none⟩).best ≤ n-1 := by
  induction n with
  | zero => exact ⟨⟨fun _ _ _ _ => rfl,fun _ _ _ _ _ => rfl⟩,le_rfl⟩
  | succ n ih =>
    rw [List.range_succ,List.foldl_append]
    refine ⟨alike_next hv ih.1 hplaces n,?_⟩
    show (if _ then n else _) ≤ n
    split
    · exact le_rfl
    · exact ih.2.trans (Nat.sub_le _ _)

private theorem tried_spec {g g' : Grid} {mask : ℕ}
    (hreserved : ∀ r < version*4+17, ∀ c < version*4+17,
      g.reserved r c = isFunction version (version*4+17) r c)
    (hg : Alike version g g') :
    (∀ r < version*4+17, ∀ c < version*4+17, isFunction version (version*4+17) r c = false →
      (finished (version*4+17) mask g').modules r c = (g.modules r c ^^ maskAt mask r c)) ∧
    ∀ r < version*4+17, ∀ c < version*4+17, isFunction version (version*4+17) r c = true →
      (r,c) ∉ formatPlaces (version*4+17) →
      (finished (version*4+17) mask g').modules r c = g.modules r c := by
  constructor
  · intro r hr c hc hfree
    have hmem : (r,c) ∉ formatPlaces (version*4+17) := by
      intro hmem
      rw [mem_places_isFunction hv hmem] at hfree
      cases hfree
    rw [(finished_other hv hr hc hmem).2,hg.reserved r hr c hc,hreserved r hr c hc,
      hg.modules r hr c hc hmem,if_pos hfree]
  · intro r hr c hc hfunction hmem
    rw [(finished_other hv hr hc hmem).2,hg.reserved r hr c hc,hreserved r hr c hc,
      hg.modules r hr c hc hmem,if_neg (by rw [hfunction]; decide)]

end Masks

section Read

variable {version : ℕ} (hv : version ∈ versions)
include hv

private theorem mem_cells {k : ℕ} {p : ℕ × ℕ} (h : (cells version)[k]? = some p) :
    p.1 < version*4+17 ∧ p.2 < version*4+17 ∧
      isFunction version (version*4+17) p.1 p.2 = false := by
  obtain ⟨-,-,hsize⟩ := size_ge hv
  obtain ⟨hmem,hfree⟩ := List.mem_filter.mp (List.mem_of_getElem? h)
  obtain ⟨hr,hc⟩ := mem_moduleOrder hsize hmem
  exact ⟨hr,hc,by simpa using hfree⟩

private theorem message_eq {modules : ℕ → ℕ → Bool} {mask : ℕ} {codewords : List UInt8}
    (hlen : codewords.length = rawCodewords version)
    (hcells : ∀ k < 8*rawCodewords version, ∀ p, (cells version)[k]? = some p →
      modules p.1 p.2 = ((bitsOf codewords).getD k false ^^ maskAt mask p.1 p.2)) :
    message version (version*4+17) mask modules = codewords := by
  have hcount : (cells version).length = rawDataModules version := length_cells hv
  have hraw : (cells version).length/8 = codewords.length := by rw [hcount,hlen]; rfl
  have hle : 8*codewords.length ≤ (cells version).length := by omega
  have hbits : (cells version).map (fun p => modules p.1 p.2 ^^ maskAt mask p.1 p.2) =
      bitsOf codewords ++ ((cells version).map fun p => modules p.1 p.2 ^^ maskAt mask p.1 p.2).drop
        (8*codewords.length) := by
    conv_lhs => rw [← List.take_append_drop (8*codewords.length)
      ((cells version).map fun p => modules p.1 p.2 ^^ maskAt mask p.1 p.2)]
    congr 1
    apply List.ext_getElem
    · rw [List.length_take,List.length_map,length_bitsOf]
      omega
    · intro k hk hk'
      rw [length_bitsOf] at hk'
      have hget : (cells version)[k]? = some (cells version)[k] := List.getElem?_eq_getElem (by omega)
      have hcell := hcells k (by rw [← hlen]; exact hk') _ hget
      simp only [List.getElem_take,List.getElem_map]
      rw [hcell,List.getD_eq_getElem _ _ (by rw [length_bitsOf]; exact hk'),Bool.xor_assoc,
        Bool.xor_self,Bool.xor_false]
  show (List.range ((cells version).length/8)).map (fun i => UInt8.ofNat (number
    ((((cells version).map fun p => modules p.1 p.2 ^^ maskAt mask p.1 p.2).drop (8*i)).take 8))) = _
  rw [hraw,hbits]
  exact bytes_bitsOf codewords _

omit hv in
private theorem mask_eq {modules : ℕ → ℕ → Bool} {mask : ℕ} (hmask : mask < 8)
    (hat : bitsAt modules formatAt = lowFirst (formatStrings.getD mask 0) 15)
    (hagain : bitsAt modules (formatAgain (version*4+17)) =
      lowFirst (formatStrings.getD mask 0) 15) :
    mask? (version*4+17) modules = some mask := by
  have hdistinct : ∀ m < 8, ∀ n < 8, lowFirst (formatStrings.getD m 0) 15 =
      lowFirst (formatStrings.getD n 0) 15 → m = n := by
    decide
  have hfound : (mask? (version*4+17) modules).isSome = true := by
    rw [mask?,List.find?_isSome]
    exact ⟨mask,List.mem_range.mpr hmask,by simp only [hat,hagain,and_self,decide_true]⟩
  obtain ⟨m,hm⟩ := Option.isSome_iff_exists.mp hfound
  have hm8 : m < 8 := List.mem_range.mp (List.mem_of_find?_eq_some hm)
  have hdecide := List.find?_some hm
  have hstrings := of_decide_eq_true hdecide
  rw [hm,hdistinct mask hmask m hm8 (hat.symm.trans hstrings.1)]

private theorem versionAt_spec (hseven : 7 ≤ version) :
    ∀ p ∈ versionAt (version*4+17) ++ (versionAt (version*4+17)).map Prod.swap,
      (p.1 < version*4+17 ∧ p.2 < version*4+17) ∧
      isFunction version (version*4+17) p.1 p.2 = true ∧ p ∉ formatPlaces (version*4+17) := by
  have hall : ∀ v ∈ versions, 7 ≤ v →
      ∀ p ∈ versionAt (v*4+17) ++ (versionAt (v*4+17)).map Prod.swap,
        (p.1 < v*4+17 ∧ p.2 < v*4+17) ∧
        isFunction v (v*4+17) p.1 p.2 = true ∧ p ∉ formatPlaces (v*4+17) := by
    decide +kernel
  exact hall version hv hseven

omit hv in
private theorem isFunction_of_pattern {size r c : ℕ} {b : Bool}
    (h : pattern? version size r c = some b) : isFunction version size r c = true := by
  unfold pattern? at h
  split at h
  · rename_i p hfinder
    simp [isFunction,hfinder]
  · split at h
    · rename_i p halign
      simp [isFunction,halign]
    · split at h
      · rename_i hdark
        obtain ⟨rfl,rfl⟩ := hdark
        simp [isFunction,inFormat]
      · split at h
        · rename_i hsix
          simp [isFunction,hsix]
        · split at h
          · rename_i hsix
            simp [isFunction,hsix]
          · cases h

private theorem countBits_spec {n : ℕ} (h : Fits version n) : n < 2^countBits version := by
  have hall : ∀ v ∈ versions, dataCodewords v < 2^countBits v := by decide
  have hlt := hall version hv
  have hfits : 4+countBits version+n*8 ≤ dataCodewords version*8 := h
  omega

theorem read_symbol {bytes : List UInt8} (hfits : Fits version bytes.length) :
    let tried := tryMasks (version*4+17) (unmasked bytes version)
    let modules := (finished (version*4+17) tried.best tried.grid).modules
    Standard.read (version*4+17) modules = some bytes ∧
      ∀ r < version*4+17, ∀ c < version*4+17, ∀ b,
        pattern? version (version*4+17) r c = some b → modules r c = b := by
  intro tried modules
  have hsize := size_ge hv
  have hreserved := fun r (hr : r < version*4+17) c (hc : c < version*4+17) =>
    unmasked_reserved hv bytes hr hc
  have hplaces : ∀ p ∈ formatPlaces (version*4+17),
      (unmasked bytes version).reserved p.1 p.2 = true := by
    intro p hp
    obtain ⟨hr,hc⟩ := places_in hv p hp
    rw [hreserved p.1 hr p.2 hc]
    exact mem_places_isFunction hv hp
  obtain ⟨halike,hbest⟩ := alike_tried hv hplaces 8
  have hmask : tried.best < 8 := Nat.lt_succ_of_le hbest
  obtain ⟨hfree,hfunction⟩ := @tried_spec _ hv _ _ tried.best hreserved halike
  obtain ⟨hat,hagain,hdark⟩ := draw_format hv (applyMask (version*4+17) tried.best tried.grid) hmask
  have hcount := countBits_spec hv hfits
  obtain ⟨hdata,hsegment⟩ := segment_payloadCodewords hfits hcount
  have hstands : ∀ r < version*4+17, ∀ c < version*4+17,
      isFunction version (version*4+17) r c = true → (r,c) ∉ formatPlaces (version*4+17) →
      modules r c =
        (empty.draw (version*4+17) (functionDots version (version*4+17))).modules r c :=
    fun r hr c hc h hmem =>
      (hfunction r hr c hc h hmem).trans (unmasked_function hv bytes hr hc h)
  have hversion : versionStands version (version*4+17) modules = true := by
    by_cases hseven : 7 ≤ version
    · have hspec := versionAt_spec hv hseven
      have hdraw := draw_version hv ((((empty.draw (version*4+17)
        (drawTiming (version*4+17))).draw (version*4+17) (drawFinders (version*4+17))).draw
          (version*4+17) (drawAlignment (alignmentCentres version (version*4+17)))).draw
            (version*4+17) (drawFormat (version*4+17) 0)) hseven
      have hlast : empty.draw (version*4+17) (functionDots version (version*4+17)) =
          ((((empty.draw (version*4+17) (drawTiming (version*4+17))).draw (version*4+17)
            (drawFinders (version*4+17))).draw (version*4+17)
              (drawAlignment (alignmentCentres version (version*4+17)))).draw (version*4+17)
                (drawFormat (version*4+17) 0)).draw (version*4+17)
                  (drawVersion (version*4+17) version) := by
        simp only [functionDots,draw_append,if_pos hseven]
      rw [← hlast] at hdraw
      have hbits : ∀ places ⊆ versionAt (version*4+17) ++ (versionAt (version*4+17)).map Prod.swap,
          bitsAt modules places = bitsAt (empty.draw (version*4+17)
            (functionDots version (version*4+17))).modules places := by
        intro places hsub
        refine List.map_congr_left fun p hp => ?_
        obtain ⟨⟨hr,hc⟩,hfun,hmem⟩ := hspec p (hsub hp)
        exact hstands p.1 hr p.2 hc hfun hmem
      rw [versionStands,hbits _ (List.subset_append_left _ _),hbits _ (List.subset_append_right _ _),
        hdraw.1,hdraw.2]
      simp
    · rw [versionStands,decide_eq_true (Nat.not_le.mp hseven)]
      rfl
  have hmessage : message version (version*4+17) tried.best modules =
      interleave (payloadCodewords bytes version) version := by
    refine message_eq hv (length_interleave hv hdata) fun k hk p hp => ?_
    obtain ⟨hr,hc,hopen⟩ := mem_cells hv hp
    rw [← unmasked_cell hv hfits hcount hk hp]
    exact hfree p.1 hr p.2 hc hopen
  have hcodewords : ∀ block ∈ Standard.blocks version
      (interleave (payloadCodewords bytes version) version),
      IsCodeword (checkLen version) block := by
    rw [blocks_interleave hv hdata]
    intro block hblock
    obtain ⟨j,-,rfl⟩ := List.mem_map.mp hblock
    exact isCodeword_plainBlock hv _ j
  constructor
  · have hback : (version*4+17-17)/4 = version := by omega
    have hnamed : mask? (version*4+17) modules = some tried.best := mask_eq hmask hat hagain
    rw [Standard.read,hback]
    simp only
    rw [if_pos ⟨hv,trivial,hversion⟩,hnamed,Option.bind_some,hmessage,if_pos hcodewords,
      payload_blocks hv hdata]
    exact hsegment
  · intro r hr c hc b hb
    by_cases hmem : (r,c) ∈ formatPlaces (version*4+17)
    · rcases ((places_spec version hv).2 (r,c) hmem).2.2 with hnone | ⟨he,htrue⟩
      · simp only at hnone
        rw [hnone] at hb
        cases hb
      · simp only at htrue
        obtain ⟨rfl,rfl⟩ := Prod.mk.inj he
        rw [htrue] at hb
        exact hdark.trans (Option.some.inj hb)
    · rw [hstands r hr c hc (isFunction_of_pattern hb) hmem]
      exact drawn_pattern hv hr hc hb

end Read

private theorem versionFor_none {n : ℕ} : versionFor n = none ↔ 213 < n := by
  have hall : versionFor n = none ↔ ∀ v ∈ versions, ¬ Fits v n := by
    rw [versionFor,List.find?_eq_none]
    simp only [decide_eq_true_eq]
    rfl
  have hmost : ∀ v ∈ versions, dataCodewords v*8 < 4+countBits v+214*8 := by decide
  rw [hall]
  constructor
  · intro h
    have hten := h 10 (by decide)
    have hdata : dataCodewords 10 = 216 := rfl
    rw [Fits,hdata,show countBits 10 = 16 from rfl] at hten
    omega
  · intro h v hv hfits
    have hlt := hmost v hv
    have hle : 4+countBits v+n*8 ≤ dataCodewords v*8 := hfits
    omega

/-- A text is refused exactly if its UTF-8 does not fit version 10; else its symbol is of the
smallest version that holds it, the standard's reader gives back its bytes, and every function
pattern stands as the standard draws it. -/
theorem encodeQr_reads (text : JsString) :
    (encodeQr text = none ↔ 213 < (TextEncoder.encode text).length) ∧
    ∀ code, encodeQr text = some code →
      (code.version ∈ versions ∧ Fits code.version (TextEncoder.encode text).length ∧
        ∀ v ∈ versions, Fits v (TextEncoder.encode text).length → code.version ≤ v) ∧
      code.size = code.version*4+17 ∧
      Standard.read code.size code.modules = some (TextEncoder.encode text) ∧
      ∀ r < code.size, ∀ c < code.size, ∀ b,
        pattern? code.version code.size r c = some b → code.modules r c = b := by
  refine ⟨Option.map_eq_none_iff.trans versionFor_none,fun code hcode => ?_⟩
  obtain ⟨version,hversion,rfl⟩ := Option.map_eq_some_iff.mp hcode
  obtain ⟨hv,hfits,hleast⟩ := versionFor_eq_some.mp hversion
  obtain ⟨hread,hpatterns⟩ := read_symbol hv hfits
  exact ⟨⟨hv,hfits,hleast⟩,rfl,hread,hpatterns⟩

end WeirdVault.Qr
