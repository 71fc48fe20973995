import WeirdVault.Framework.Ustar
import WeirdVault.Transfers.Tar

/-!
# The archive that is written

What a ustar reader makes of the chunks. The headers have eleven octal digits for a size and for a
time, and nothing else for what does not fit.
-/

namespace WeirdVault.Transfers.Tar

open WeirdVault.Framework Program Ustar

def Block.window (buf : Block) (offset len : Nat) : Bytes :=
  (List.range len).map (fun i => buf (offset+i))

@[simp] private theorem length_window (buf : Block) (offset len : Nat) :
    (buf.window offset len).length = len := by
  simp [Block.window]

private theorem slice_bytes (buf : Block) {offset len : Nat} (h : offset+len ≤ BLOCK) :
    slice buf.bytes offset len = buf.window offset len := by
  apply List.ext_getElem
  · simp only [slice,Block.bytes,length_window,List.length_take,List.length_drop,List.length_map,
      List.length_range]
    omega
  · intro i hi hi'
    simp [slice,Block.bytes,Block.window]

private theorem window_append (buf : Block) (offset m n : Nat) :
    buf.window offset m ++ buf.window (offset+m) n = buf.window offset (m+n) := by
  simp only [Block.window,List.range_add,List.map_append,List.map_map]
  congr 1
  apply List.map_congr_left
  intro i _
  rw [Function.comp_apply,Nat.add_assoc]

private theorem window_put_of_disjoint {buf : Block} {offset len : Nat} {value : JsString}
    {offset' len' : Nat} (h : offset'+len' ≤ offset ∨ offset+len ≤ offset') :
    (put buf offset len value).window offset' len' = buf.window offset' len' := by
  apply List.map_congr_left
  intro i hi
  have hlt : i < len' := List.mem_range.mp hi
  unfold put
  by_cases hle : offset ≤ offset'+i
  · have hshort : ((TextEncoder.encode value).take len)[offset'+i-offset]? = none := by
      rw [List.getElem?_eq_none_iff]
      have hlen := List.length_take_le len (TextEncoder.encode value)
      omega
    simp [hle,hshort]
  · simp [hle]

private theorem window_put_self {buf : Block} {offset len : Nat} {value : JsString}
    (h : buf.window offset len = List.replicate len 0) :
    (put buf offset len value).window offset len = (TextEncoder.encode value).take len ++
      List.replicate (len - ((TextEncoder.encode value).take len).length) 0 := by
  have hle := List.length_take_le len (TextEncoder.encode value)
  apply List.ext_getElem
  · simp only [length_window,List.length_append,List.length_replicate]
    omega
  · intro i hi hi'
    have hlt : i < len := by simpa using hi
    have hzero : buf (offset+i) = 0 := by
      have hi := congrArg (fun l => l[i]?) h
      simpa [Block.window,hlt] using hi
    simp only [Block.window,List.getElem_map,List.getElem_range,put]
    rw [if_pos (by omega),Nat.add_sub_cancel_left,hzero,List.getElem_append]
    split
    · rename_i hin
      rw [List.getElem?_eq_getElem hin,Option.getD_some]
    · rename_i hout
      rw [List.getElem?_eq_none_iff.mpr (by omega),List.getElem_replicate]
      rfl

private theorem window_put_full {buf : Block} {offset len : Nat} {value : JsString}
    (h : (TextEncoder.encode value).length = len) :
    (put buf offset len value).window offset len = TextEncoder.encode value := by
  apply List.ext_getElem
  · rw [length_window,h]
  · intro i hi hi'
    have hlt : i < len := by simpa using hi
    simp only [Block.window,List.getElem_map,List.getElem_range,put]
    rw [if_pos (by omega),Nat.add_sub_cancel_left,List.take_of_length_le (by omega),
      List.getElem?_eq_getElem hi',Option.getD_some]

private theorem octal_digit {n : Nat} {c : Char} (h : c ∈ Nat.toDigits 8 n) :
    48 ≤ c.toNat ∧ c.toNat ≤ 55 := by
  induction n using Nat.strongRecOn with
  | _ n ih =>
    have hdigit : ∀ m < 8, 48 ≤ (Nat.digitChar m).toNat ∧ (Nat.digitChar m).toNat ≤ 55 := by
      decide
    rw [Nat.toDigits_eq_if (by omega)] at h
    split at h
    · rename_i hlt
      rw [List.mem_singleton.mp h]
      exact hdigit n hlt
    · rcases List.mem_append.mp h with h | h
      · exact ih (n/8) (by omega) h
      · rw [List.mem_singleton.mp h]
        exact hdigit (n%8) (Nat.mod_lt n (by omega))

private def digitBytes (digits : List Char) : Bytes := digits.map (fun c => c.toNat.toUInt8)

private theorem octalValue_digitBytes {digits : List Char}
    (h : ∀ c ∈ digits, 48 ≤ c.toNat ∧ c.toNat ≤ 55) :
    octalValue (digitBytes digits) = Nat.ofDigitChars 8 digits 0 := by
  have hfold : ∀ n, (digitBytes digits).foldl (fun n b => 8*n + (b.toNat - 48)) n =
      Nat.ofDigitChars 8 digits n := by
    induction digits with
    | nil => exact fun n => rfl
    | cons c digits ih =>
      intro n
      have hc : c.toNat.toUInt8.toNat = c.toNat := by
        have hlt := (h c (by simp)).2
        simp only [Nat.toUInt8_eq,UInt8.toNat_ofNat']
        omega
      rw [Nat.ofDigitChars_cons,← ih (fun d hd => h d (List.mem_cons_of_mem c hd))]
      simp only [digitBytes,List.map_cons,List.foldl_cons,hc]
      rfl
  exact hfold 0

private theorem encode_padded {n w : Nat} (h : n < 8 ^ w) (hw : 0 < w) :
    ∃ digits : Bytes, (∀ b ∈ digits, isOctalDigit b) ∧ octalValue digits = n ∧
      digits.length = w ∧ ∀ tail : JsString, (∀ u ∈ tail, u < 0x80) →
        TextEncoder.encode (sliceLast (padStart (toString8 n) w 48) w ++ tail) =
          digits ++ tail.map UInt16.toUInt8 := by
  have hlen : (Nat.toDigits 8 n).length ≤ w := (Nat.length_toDigits_le_iff (by omega) hw).mpr h
  let chars := List.replicate (w - (Nat.toDigits 8 n).length) '0' ++ Nat.toDigits 8 n
  have hchars : ∀ c ∈ chars, 48 ≤ c.toNat ∧ c.toNat ≤ 55 := by
    intro c hc
    rcases List.mem_append.mp hc with hc | hc
    · rw [List.eq_of_mem_replicate hc]
      decide
    · exact octal_digit hc
  have hunits : sliceLast (padStart (toString8 n) w 48) w =
      chars.map (fun c => c.toNat.toUInt16) := by
    have hnat : toString8 n = (Nat.toDigits 8 n).map (fun c => c.toNat.toUInt16) := by
      have hpos : ¬ (n : Int) < 0 := by omega
      simp only [toString8,hpos,if_false,Int.natAbs_natCast]
    have hpadded : padStart (toString8 n) w 48 = chars.map (fun c => c.toNat.toUInt16) := by
      simp only [hnat,padStart,List.length_map,chars,List.map_append,List.map_replicate]
      rfl
    have hfull : (chars.map (fun c => c.toNat.toUInt16)).length = w := by
      simp only [chars,List.length_map,List.length_append,List.length_replicate]
      omega
    rw [sliceLast,hpadded,hfull,Nat.sub_self,List.drop_zero]
  refine ⟨digitBytes chars,?_,?_,?_,?_⟩
  · intro b hb
    obtain ⟨c,hc,rfl⟩ := List.mem_map.mp hb
    obtain ⟨hlo,hhi⟩ := hchars c hc
    simp only [isOctalDigit,Bool.and_eq_true,decide_eq_true_eq,UInt8.le_iff_toNat_le,
      Nat.toUInt8_eq,UInt8.toNat_ofNat',UInt8.reduceToNat]
    omega
  · rw [octalValue_digitBytes hchars,Nat.ofDigitChars_append,Nat.ofDigitChars_replicate_zero,
      Nat.mul_zero]
    exact Nat.ofDigitChars_toDigits (by omega) (by omega)
  · simp only [digitBytes,chars,List.length_map,List.length_append,List.length_replicate]
    omega
  · intro tail htail
    rw [hunits,TextEncoder.encode_ascii]
    · rw [List.map_append,List.map_map]
      congr 1
      apply List.map_congr_left
      intro c hc
      obtain ⟨-,hhi⟩ := hchars c hc
      apply UInt8.toNat_inj.mp
      simp only [Function.comp_apply,UInt16.toNat_toUInt8,Nat.toUInt16_eq,Nat.toUInt8_eq,
        UInt16.toNat_ofNat',UInt8.toNat_ofNat']
      omega
    · intro u hu
      rcases List.mem_append.mp hu with hu | hu
      · obtain ⟨c,hc,rfl⟩ := List.mem_map.mp hu
        obtain ⟨-,hhi⟩ := hchars c hc
        rw [UInt16.lt_iff_toNat_lt]
        simp only [Nat.toUInt16_eq,UInt16.toNat_ofNat',UInt16.reduceToNat]
        omega
      · exact htail u hu

private theorem octal?_octal {n w : Nat} (h : n < 8 ^ w) (hw : 0 < w) :
    (TextEncoder.encode (octal n (w+1))).length = w+1 ∧
      octal? (TextEncoder.encode (octal n (w+1))) = some n := by
  obtain ⟨digits,hdigits,hvalue,hlen,hencode⟩ := encode_padded h hw
  have hfield : TextEncoder.encode (octal n (w+1)) = digits ++ 0 :: [] :=
    hencode [0] (List.forall_mem_singleton.mpr (by decide))
  rw [hfield,octal?_digits hdigits,hvalue]
  exact ⟨by simp [hlen],rfl⟩

private theorem window_zero (offset len : Nat) :
    Block.window (fun _ => 0) offset len = List.replicate len 0 := by
  simp [Block.window]

private theorem length_bytes (buf : Block) : buf.bytes.length = BLOCK := by
  simp [Block.bytes]

theorem length_header (name : JsString) (size : Nat) (mtimeMs : Int) (type : JsString) :
    (header name size mtimeMs type).length = BLOCK := length_bytes _

private theorem bytes_eq_windows (buf : Block) :
    buf.bytes = buf.window 0 148 ++ (buf.window 148 8 ++ buf.window 156 356) := by
  rw [window_append,window_append]
  simp [Block.bytes,Block.window,BLOCK]

private theorem sum_bytes_lt (buf : Block) : (buf.bytes.map UInt8.toNat).sum < 8 ^ 6 := by
  have hle : ∀ l : Bytes, (l.map UInt8.toNat).sum ≤ l.length*255 := by
    intro l
    induction l with
    | nil => simp
    | cons b l ih =>
      have hb := b.toNat_lt
      rw [List.map_cons,List.sum_cons,List.length_cons]
      omega
  have hsum := hle buf.bytes
  rw [length_bytes] at hsum
  unfold BLOCK at hsum
  omega

section Header

variable (name : JsString) (size : Nat) (mtimeMs : Int) (type : JsString)

private theorem window_spaces : (unsummed name size mtimeMs type).window 148 8 =
    List.replicate 8 32 := by
  simp (disch := omega) only [unsummed,window_put_of_disjoint]
  rw [window_put_full (by decide)]
  decide

private theorem octal?_checksum :
    octal? (slice (header name size mtimeMs type) 148 8) =
      some (checksum (header name size mtimeMs type)) := by
  generalize hbuf : unsummed name size mtimeMs type = buf
  have hspaces : buf.window 148 8 = List.replicate 8 32 := hbuf ▸ window_spaces name size mtimeMs type
  obtain ⟨digits,hdigits,hvalue,hlen,hencode⟩ := encode_padded (sum_bytes_lt buf) (by omega)
  have hfield := hencode [0,32]
    (List.forall_mem_cons.mpr ⟨by decide,List.forall_mem_singleton.mpr (by decide)⟩)
  have hsum : checksum (header name size mtimeMs type) = (buf.bytes.map UInt8.toNat).sum := by
    simp only [checksum,header,hbuf]
    generalize sliceLast _ 6 ++ [0,32] = value
    have hbefore : (put buf 148 8 value).window 0 148 = buf.window 0 148 :=
      window_put_of_disjoint (by omega)
    have hafter : (put buf 148 8 value).window 156 356 = buf.window 156 356 :=
      window_put_of_disjoint (by omega)
    have htake : (put buf 148 8 value).bytes.take 148 = buf.window 0 148 := by
      rw [bytes_eq_windows,hbefore,List.take_left' (length_window _ _ _)]
    have hdrop : (put buf 148 8 value).bytes.drop 156 = buf.window 156 356 := by
      rw [bytes_eq_windows,← List.append_assoc,hafter,List.drop_left' (by simp)]
    rw [htake,hdrop,← hspaces,List.append_assoc,← bytes_eq_windows]
  rw [hsum]
  simp only [header,hbuf]
  rw [slice_bytes _ (by decide),window_put_full,hfield]
  · exact (octal?_digits hdigits [32]).trans (congrArg some hvalue)
  · rw [hfield]
    simp [hlen]

private theorem slice_header {offset len : Nat} (h : offset+len ≤ 148 ∨ 148+8 ≤ offset)
    (hfits : offset+len ≤ BLOCK) :
    slice (header name size mtimeMs type) offset len =
      (unsummed name size mtimeMs type).window offset len := by
  rw [header,slice_bytes _ hfits]
  exact window_put_of_disjoint h

private theorem slice_name : slice (header name size mtimeMs type) 0 100 =
    (TextEncoder.encode name).take 100 ++
      List.replicate (100 - ((TextEncoder.encode name).take 100).length) 0 := by
  rw [slice_header _ _ _ _ (by omega) (by decide)]
  simp (disch := omega) only [unsummed,window_put_of_disjoint]
  exact window_put_self (window_zero 0 100)

private theorem slice_prefixField : slice (header name size mtimeMs type) 345 155 =
    List.replicate 155 0 := by
  rw [slice_header _ _ _ _ (by omega) (by decide)]
  simp (disch := omega) only [unsummed,window_put_of_disjoint,window_zero]

private theorem slice_magic : slice (header name size mtimeMs type) 257 8 = magic := by
  rw [slice_header _ _ _ _ (by omega) (by decide),← window_append _ 257 6 2]
  simp (disch := omega) only [unsummed,window_put_of_disjoint]
  rw [window_put_full (by decide),window_put_full (by decide)]
  decide

private theorem slice_octal :
    slice (header name size mtimeMs type) 100 8 = TextEncoder.encode (octal 0o644 8) ∧
      slice (header name size mtimeMs type) 108 8 = TextEncoder.encode (octal 0 8) ∧
      slice (header name size mtimeMs type) 116 8 = TextEncoder.encode (octal 0 8) := by
  refine ⟨?_,?_,?_⟩
  all_goals
    rw [slice_header _ _ _ _ (by omega) (by decide)]
    simp (disch := omega) only [unsummed,window_put_of_disjoint]
    exact window_put_full (by decide)

theorem fullName_header : fullName (header name size mtimeMs type) =
    cstring ((TextEncoder.encode name).take 100 ++
      List.replicate (100 - ((TextEncoder.encode name).take 100).length) 0) := by
  have hempty : cstring (List.replicate 155 0) = [] := cstring_append (List.not_mem_nil) 155
  simp only [fullName,slice_prefixField,hempty,slice_name,if_true]

theorem header?_header {mtime : Nat} {b : UInt8} (hsize : size < 8 ^ 11)
    (hmtime : mtimeMs / 1000 = mtime) (hfits : mtime < 8 ^ 11)
    (htype : TextEncoder.encode type = [b]) :
    header? (header name size mtimeMs type) =
      some ⟨fullName (header name size mtimeMs type),size,mtime,b⟩ := by
  obtain ⟨hlenSize,hreadSize⟩ := octal?_octal hsize (by omega)
  obtain ⟨hlenTime,hreadTime⟩ := octal?_octal hfits (by omega)
  have hsizeField : slice (header name size mtimeMs type) 124 12 =
      TextEncoder.encode (octal size 12) := by
    rw [slice_header _ _ _ _ (by omega) (by decide)]
    simp (disch := omega) only [unsummed,window_put_of_disjoint]
    exact window_put_full hlenSize
  have htimeField : slice (header name size mtimeMs type) 136 12 =
      TextEncoder.encode (octal mtime 12) := by
    rw [slice_header _ _ _ _ (by omega) (by decide)]
    simp (disch := omega) only [unsummed,window_put_of_disjoint,hmtime]
    exact window_put_full hlenTime
  have htypeField : slice (header name size mtimeMs type) 156 1 = [b] := by
    rw [slice_header _ _ _ _ (by omega) (by decide)]
    simp (disch := omega) only [unsummed,window_put_of_disjoint]
    rw [window_put_full (by rw [htype]; rfl),htype]
  obtain ⟨hmode,huid,hgid⟩ := slice_octal name size mtimeMs type
  have hreadMode : octal? (TextEncoder.encode (octal 0o644 8)) = some 0o644 := by decide
  have hreadZero : octal? (TextEncoder.encode (octal 0 8)) = some 0 := by decide
  simp [header?,slice_magic,octal?_checksum,hmode,huid,hgid,hreadMode,hreadZero,hsizeField,hreadSize,
    htimeField,hreadTime,htypeField]

theorem isZeroBlock_header : isZeroBlock (header name size mtimeMs type) = false := by
  have hmagic : (117 : UInt8) ∈ header name size mtimeMs type := by
    have hmem : (117 : UInt8) ∈ slice (header name size mtimeMs type) 257 8 := by
      rw [slice_magic]
      decide
    exact List.mem_of_mem_drop (List.mem_of_mem_take hmem)
  rw [isZeroBlock,Bool.and_eq_false_iff,List.all_eq_false]
  exact Or.inr ⟨117,hmagic,by decide⟩

end Header

end WeirdVault.Transfers.Tar
