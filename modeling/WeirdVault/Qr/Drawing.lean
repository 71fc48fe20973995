import WeirdVault.Qr.Matrix

/-!
# What drawing leaves

The last dot on a module decides its colour, and a module is reserved once a dot is on it. The data
goes to the modules that are not reserved, in the order of the zig-zag.
-/

namespace WeirdVault.Qr

open Framework

def Dot.On (d : Dot) (r c : ℕ) : Prop := d.row = r ∧ d.col = c

instance (d : Dot) (r c : ℕ) : Decidable (d.On r c) := inferInstanceAs (Decidable (_ ∧ _))

@[simp] theorem replaceAt_self (f : ℕ → ℕ → Bool) (r c : ℕ) (b : Bool) :
    replaceAt f r c b r c = b := if_pos ⟨rfl,rfl⟩

theorem replaceAt_ne {f : ℕ → ℕ → Bool} {row col r c : ℕ} {b : Bool} (h : (r,c) ≠ (row,col)) :
    replaceAt f row col b r c = f r c := if_neg fun he => h (Prod.ext he.1 he.2)

section Draw

variable {size : ℕ} {r c : ℕ} (hr : r < size) (hc : c < size)
include hr hc

theorem set_of_on {g : Grid} {d : Dot} (h : d.On r c) :
    (g.set size d).modules r c = d.dark ∧ (g.set size d).reserved r c = true := by
  obtain ⟨hrow,hcol⟩ := h
  rw [Grid.set,if_neg (by omega),hrow,hcol]
  exact ⟨replaceAt_self _ r c _,replaceAt_self _ r c _⟩

omit hr hc in
variable (size) in
theorem set_of_not_on {g : Grid} {d : Dot} (h : ¬ d.On r c) :
    (g.set size d).modules r c = g.modules r c ∧
      (g.set size d).reserved r c = g.reserved r c := by
  rw [Grid.set]
  split
  · exact ⟨rfl,rfl⟩
  · have hne : (r,c) ≠ (d.row.toNat,d.col.toNat) := by
      intro he
      have hrow : r = d.row.toNat := congrArg Prod.fst he
      have hcol : c = d.col.toNat := congrArg Prod.snd he
      exact h ⟨by omega,by omega⟩
    exact ⟨replaceAt_ne hne,replaceAt_ne hne⟩

omit hr hc in
variable (size) in
theorem draw_of_not_on {dots : List Dot} (g : Grid) (h : ∀ d ∈ dots, ¬ d.On r c) :
    (g.draw size dots).modules r c = g.modules r c ∧
      (g.draw size dots).reserved r c = g.reserved r c := by
  induction dots generalizing g with
  | nil => exact ⟨rfl,rfl⟩
  | cons d dots ih =>
    have hhead := set_of_not_on size (g := g) (h d List.mem_cons_self)
    have htail := ih (g.set size d) fun d hd => h d (List.mem_cons_of_mem _ hd)
    exact ⟨htail.1.trans hhead.1,htail.2.trans hhead.2⟩

theorem draw_of_agree {dots : List Dot} {b : Bool} (g : Grid) (hsome : ∃ d ∈ dots, d.On r c)
    (hagree : ∀ d ∈ dots, d.On r c → d.dark = b) :
    (g.draw size dots).modules r c = b ∧ (g.draw size dots).reserved r c = true := by
  induction dots generalizing g with
  | nil => exact absurd hsome (by simp)
  | cons d dots ih =>
    have hagree' : ∀ d ∈ dots, d.On r c → d.dark = b :=
      fun d hd => hagree d (List.mem_cons_of_mem _ hd)
    by_cases hrest : ∃ d ∈ dots, d.On r c
    · exact ih (g.set size d) hrest hagree'
    · have hon : d.On r c := by
        obtain ⟨d',hd',hon⟩ := hsome
        rcases List.mem_cons.mp hd' with rfl | hd'
        · exact hon
        · exact absurd ⟨d',hd',hon⟩ hrest
      have hout : ∀ d ∈ dots, ¬ d.On r c := fun d hd hon => hrest ⟨d,hd,hon⟩
      have hlast := draw_of_not_on size (g.set size d) hout
      have hset := set_of_on hr hc (g := g) hon
      exact ⟨hlast.1.trans (hset.1.trans (hagree d List.mem_cons_self hon)),hlast.2.trans hset.2⟩

theorem draw_reserved (g : Grid) (dots : List Dot) :
    (g.draw size dots).reserved r c = true ↔ g.reserved r c = true ∨ ∃ d ∈ dots, d.On r c := by
  induction dots generalizing g with
  | nil => simp [Grid.draw]
  | cons d dots ih =>
    have hstep : (g.draw size (d :: dots)) = (g.set size d).draw size dots := rfl
    rw [hstep,ih]
    by_cases hon : d.On r c
    · simp [(set_of_on hr hc (g := g) hon).2,hon]
    · simp [(set_of_not_on size (g := g) hon).2,hon]

end Draw

theorem draw_append (size : ℕ) (g : Grid) (xs ys : List Dot) :
    g.draw size (xs ++ ys) = (g.draw size xs).draw size ys := List.foldl_append

theorem draw_of_nodup {size : ℕ} {dots : List Dot} {d : Dot} {r c : ℕ} (g : Grid)
    (hr : r < size) (hc : c < size)
    (hnodup : (dots.map fun d => (d.row,d.col)).Nodup) (hd : d ∈ dots) (hon : d.On r c) :
    (g.draw size dots).modules r c = d.dark := by
  refine (draw_of_agree hr hc g ⟨d,hd,hon⟩ ?_).1
  intro d' hd' hon'
  have hsame : d' = d := List.inj_on_of_nodup_map hnodup hd' hd
    (Prod.ext (hon'.1.trans hon.1.symm) (hon'.2.trans hon.2.symm))
  rw [hsame]

private theorem bitAt_eq (value i : ℕ) : bitAt value i = value.testBit i := by
  rw [bitAt,Nat.testBit,Nat.land_comm]

private theorem getD_pushed {value width i : ℕ} (h : i < width) (b : Bool) :
    (pushed value width).getD i b = value.testBit (width-1-i) := by
  rw [List.getD_eq_getElem _ _ (by rw [length_pushed]; exact h)]
  simp [pushed,List.getElem_reverse]

private theorem bit_eq (codewords : List UInt8) (k : ℕ) :
    bitAt (codewords.getD (k >>> 3) 0).toNat (7-(k &&& 7)) = (bitsOf codewords).getD k false := by
  have hmod : k &&& 7 = k%8 := Nat.and_two_pow_sub_one_eq_mod k 3
  rw [bitAt_eq,hmod,Nat.shiftRight_eq_div_pow]
  induction codewords generalizing k with
  | nil => simp [bitsOf]
  | cons b codewords ih =>
    have hbits : bitsOf (b :: codewords) = pushed b.toNat 8 ++ bitsOf codewords := rfl
    rw [hbits]
    by_cases hk : k < 8
    · rw [List.getD_append _ _ _ _ (by rw [length_pushed]; exact hk),getD_pushed hk,
        Nat.div_eq_of_lt hk,Nat.mod_eq_of_lt hk]
      rfl
    · rw [List.getD_append_right _ _ _ _ (by rw [length_pushed]; omega),length_pushed,
        ← ih (k-8) (Nat.and_two_pow_sub_one_eq_mod _ 3)]
      rw [show k/2^3 = (k-8)/2^3+1 by omega,List.getD_cons_succ,show (k-8)%8 = k%8 by omega]

section Place

variable {reserved : ℕ → ℕ → Bool} {codewords : List UInt8}

def free (reserved : ℕ → ℕ → Bool) (cells : List (ℕ × ℕ)) : List (ℕ × ℕ) :=
  cells.filter fun p => !reserved p.1 p.2

theorem place_other {cells : List (ℕ × ℕ)} {p : ℕ × ℕ} (h : p ∉ cells ∨ reserved p.1 p.2 = true)
    (f : ℕ → ℕ → Bool) (b : ℕ) :
    (cells.foldl (place reserved codewords) (f,b)).1 p.1 p.2 = f p.1 p.2 := by
  induction cells generalizing f b with
  | nil => rfl
  | cons q cells ih =>
    have hrest : p ∉ cells ∨ reserved p.1 p.2 = true :=
      h.imp_left fun hp hmem => hp (List.mem_cons_of_mem _ hmem)
    rw [List.foldl_cons,place]
    split
    · exact ih hrest f b
    · rename_i hopen
      rw [ih hrest]
      refine replaceAt_ne fun he => ?_
      have hpq : p = q := he
      rcases h with hnot | hres
      · exact hnot (hpq ▸ List.mem_cons_self)
      · exact hopen (Or.inl (hpq ▸ hres))

theorem place_free {cells : List (ℕ × ℕ)} (hnodup : cells.Nodup) (f : ℕ → ℕ → Bool) (b : ℕ)
    {k : ℕ} (hk : b+k < codewords.length*8) {p : ℕ × ℕ} (hp : (free reserved cells)[k]? = some p) :
    (cells.foldl (place reserved codewords) (f,b)).1 p.1 p.2 =
      (bitsOf codewords).getD (b+k) false := by
  induction cells generalizing f b k with
  | nil => simp [free] at hp
  | cons q cells ih =>
    obtain ⟨hq,hnodup⟩ := List.nodup_cons.mp hnodup
    rw [List.foldl_cons,place]
    by_cases hres : reserved q.1 q.2 = true
    · have hfree : free reserved (q :: cells) = free reserved cells := by simp [free,hres]
      rw [if_pos (Or.inl hres)]
      exact ih hnodup f b hk (hfree ▸ hp)
    · have hfree : free reserved (q :: cells) = q :: free reserved cells := by simp [free,hres]
      rw [hfree] at hp
      have hopen : ¬ (reserved q.1 q.2 = true ∨ b ≥ codewords.length*8) := by
        rintro (h | h)
        · exact hres h
        · omega
      simp only
      rw [if_neg hopen]
      cases k with
      | zero =>
        obtain rfl : q = p := by simpa using hp
        rw [place_other (Or.inl hq),replaceAt_self,bit_eq]
        rfl
      | succ k =>
        rw [ih hnodup _ (b+1) (show b+1+k < codewords.length*8 by omega) (by simpa using hp),
          show b+1+k = b+(k+1) by omega]

end Place

private theorem nodup_cells {columns : List ℕ} {size : ℕ} (h : columns.Pairwise (fun a b => b+2 ≤ a))
    (hpos : ∀ right ∈ columns, 1 ≤ right) (up : ℕ → Bool) :
    (columns.flatMap fun right => (List.range size).flatMap fun vert =>
      [0,1].map fun j => (if up right then size-1-vert else vert,right-j)).Nodup := by
  rw [List.nodup_flatMap]
  constructor
  · intro right hright
    have hle := hpos right hright
    rw [List.nodup_flatMap]
    constructor
    · intro vert _
      simp
      omega
    · refine List.nodup_range.imp_of_mem ?_
      intro a b ha hb hab p hpa hpb
      have ha' := List.mem_range.mp ha
      have hb' := List.mem_range.mp hb
      simp only [List.map_cons,List.map_nil,List.mem_cons,List.not_mem_nil,or_false] at hpa hpb
      have hrow : (if up right then size-1-a else a) = (if up right then size-1-b else b) := by
        rcases hpa with rfl | rfl <;> rcases hpb with he | he <;> exact congrArg Prod.fst he
      split at hrow <;> omega
  · refine h.imp_of_mem ?_
    intro a b ha hb hab p hpa hpb
    have hcol : ∀ {right : ℕ}, 1 ≤ right → p ∈ (List.range size).flatMap (fun vert =>
        [0,1].map fun j => (if up right then size-1-vert else vert,right-j)) →
        p.2 ≤ right ∧ right ≤ p.2+1 := by
      intro right hright hmem
      obtain ⟨vert,-,hmem⟩ := List.mem_flatMap.mp hmem
      simp only [List.map_cons,List.map_nil,List.mem_cons,List.not_mem_nil,or_false] at hmem
      rcases hmem with rfl | rfl <;> simp only <;> omega
    have h1 := hcol (hpos a ha) hpa
    have h2 := hcol (hpos b hb) hpb
    omega

theorem nodup_zigzag {version : ℕ} (hv : version ∈ versions) :
    (zigzag (version*4+17)).Nodup := by
  have hcolumns : ∀ v ∈ versions,
      (columnsFrom (v*4+17) (v*4+17-1)).Pairwise (fun a b => b+2 ≤ a) ∧
      ∀ right ∈ columnsFrom (v*4+17) (v*4+17-1), 1 ≤ right := by
    decide +kernel
  obtain ⟨hpairwise,hpos⟩ := hcolumns version hv
  have hnodup := @nodup_cells _ (version*4+17) hpairwise hpos
    fun right => decide ((right+1) &&& 2 = 0)
  simpa only [zigzag,decide_eq_true_eq] using hnodup

end WeirdVault.Qr
