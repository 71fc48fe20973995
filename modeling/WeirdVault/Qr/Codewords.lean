import Mathlib.Data.List.Basic
import WeirdVault.Qr.Field

/-!
# Codewords

The payload of a symbol, its blocks, and the order in which their codewords are interleaved; and
how a reader that goes by the standard's tables takes them apart again.
-/

namespace WeirdVault.Qr

open Framework

def eccPerBlock : List ℕ := [10,16,26,18,24,16,18,22,22,26]

def blockCounts : List ℕ := [1,1,1,2,2,4,4,4,5,5]

def rawDataModules (version : ℕ) : ℕ :=
  let result := (16*version+128)*version+64
  if version ≥ 2 then
    let numAlign := version/7+2
    let result := result-((25*numAlign-10)*numAlign-55)
    if version ≥ 7 then result-36 else result
  else result

def rawCodewords (version : ℕ) : ℕ := rawDataModules version/8

def numBlocks (version : ℕ) : ℕ := blockCounts.getD (version-1) 0

def eccLen (version : ℕ) : ℕ := eccPerBlock.getD (version-1) 0

def dataCodewords (version : ℕ) : ℕ := rawCodewords version-numBlocks version*eccLen version

def countBits (version : ℕ) : ℕ := if version < 10 then 8 else 16

/-- The smallest version that holds `byteLength` bytes; `none` where `QrTooLongError` is thrown. -/
def versionFor (byteLength : ℕ) : Option ℕ :=
  (List.range' 1 10).find? fun v => 4+countBits v+byteLength*8 ≤ dataCodewords v*8

/-- `push`: the bits of a value, the highest first. -/
def pushed (value width : ℕ) : List Bool :=
  (List.range width).reverse.map fun i => value.testBit i

def bitsOf (bytes : List UInt8) : List Bool := bytes.flatMap fun b => pushed b.toNat 8

/-- `byte = (byte << 1) | bit` over eight bits from `i`. -/
def byteAt (bits : List Bool) (i : ℕ) : UInt8 :=
  UInt8.ofNat ((List.range 8).foldl
    (fun byte j => byte <<< 1 ||| (bits.getD (i+j) false).toNat) 0)

/-- The standard's alternating pad. -/
def padsFrom (pad : UInt8) : ℕ → List UInt8
  | 0 => []
  | n+1 => pad :: padsFrom (pad ^^^ (0xec ^^^ 0x11)) n

/-- Mode, length and data, the terminator, and zeros to a byte's end. -/
def payloadBits (bytes : List UInt8) (version : ℕ) : List Bool :=
  let bits := pushed 4 4 ++ pushed bytes.length (countBits version) ++ bitsOf bytes
  let bits := bits ++ pushed 0 (min 4 (dataCodewords version*8-bits.length))
  bits ++ pushed 0 ((8-bits.length%8)%8)

def payloadCodewords (bytes : List UInt8) (version : ℕ) : List UInt8 :=
  let bits := payloadBits bytes version
  let codewords := (List.range ((bits.length+7)/8)).map fun i => byteAt bits (8*i)
  codewords ++ padsFrom 0xec (dataCodewords version-codewords.length)

def shortBlockLen (version : ℕ) : ℕ := rawCodewords version/numBlocks version

def numShortBlocks (version : ℕ) : ℕ := numBlocks version-rawCodewords version%numBlocks version

/-- One more block: its data, the placeholder of a short one, its check symbols. -/
def addBlock (data : List UInt8) (version : ℕ) (s : List (List UInt8) × ℕ) (i : ℕ) :
    List (List UInt8) × ℕ :=
  let len := shortBlockLen version-eccLen version+if i < numShortBlocks version then 0 else 1
  let block := (data.drop s.2).take len
  let ecc := rsRemainder block (rsDivisor (eccLen version))
  let block := if i < numShortBlocks version then block ++ [0] else block
  (s.1 ++ [block ++ ecc],s.2+len)

def paddedBlocks (data : List UInt8) (version : ℕ) : List (List UInt8) :=
  ((List.range (numBlocks version)).foldl (addBlock data version) ([],0)).1

def interleave (data : List UInt8) (version : ℕ) : List UInt8 :=
  let blocks := paddedBlocks data version
  (List.range (blocks.headD []).length).flatMap fun i =>
    ((List.range blocks.length).filter fun j =>
      i ≠ shortBlockLen version-eccLen version ∨ j ≥ numShortBlocks version).map fun j =>
        (blocks.getD j []).getD i 0

namespace Standard

def dataLens : ℕ → List ℕ
  | 1 => [16]
  | 2 => [28]
  | 3 => [44]
  | 4 => [32,32]
  | 5 => [43,43]
  | 6 => [27,27,27,27]
  | 7 => [31,31,31,31]
  | 8 => [38,38,39,39]
  | 9 => [36,36,36,37,37]
  | 10 => [43,43,43,43,44]
  | _ => []

def checkLen : ℕ → ℕ
  | 1 => 10
  | 2 => 16
  | 3 => 26
  | 4 => 18
  | 5 => 24
  | 6 => 16
  | 7 => 18
  | 8 => 22
  | 9 => 22
  | 10 => 26
  | _ => 0

/-- Block and place of every codeword of the message: the first data codeword of each block, the
second of each, and so on, and then the check symbols likewise. -/
def order (lens : List ℕ) (check : ℕ) : List (ℕ × ℕ) :=
  ((List.range (lens.foldl max 0)).flatMap fun i =>
    ((List.range lens.length).filter fun j => i < lens.getD j 0).map fun j => (j,i)) ++
  (List.range check).flatMap fun i =>
    (List.range lens.length).map fun j => (j,lens.getD j 0+i)

def blocks (version : ℕ) (message : List UInt8) : List (List UInt8) :=
  (List.range (dataLens version).length).map fun j =>
    (List.range ((dataLens version).getD j 0+checkLen version)).map fun i =>
      message.getD ((order (dataLens version) (checkLen version)).idxOf (j,i)) 0

def payload (version : ℕ) (blocks : List (List UInt8)) : List UInt8 :=
  (List.zipWith (fun block len => block.take len) blocks (dataLens version)).flatten

def number (bits : List Bool) : ℕ := bits.foldl (fun n b => 2*n+b.toNat) 0

/-- The bytes of a byte-mode segment. -/
def segment (version : ℕ) (data : List UInt8) : Option (List UInt8) :=
  let bits := bitsOf data
  let count := number ((bits.drop 4).take (countBits version))
  let rest := bits.drop (4+countBits version)
  if bits.take 4 = [false,true,false,false] ∧ 8*count ≤ rest.length then
    some ((List.range count).map fun i => UInt8.ofNat (number ((rest.drop (8*i)).take 8)))
  else none

end Standard

theorem length_pushed (value width : ℕ) : (pushed value width).length = width := by
  simp [pushed]

private theorem pushed_succ (value width : ℕ) :
    pushed value (width+1) = pushed (value/2) width ++ [value.testBit 0] := by
  rw [pushed,List.range_succ_eq_map,List.reverse_cons,List.map_append,← List.map_reverse,
    List.map_map]
  congr 1
  exact List.map_congr_left fun i _ => (Nat.testBit_add_one value i)

private theorem number_concat (bits : List Bool) (b : Bool) :
    Standard.number (bits ++ [b]) = 2*Standard.number bits+b.toNat := by
  rw [Standard.number,List.foldl_append]
  rfl

private theorem pushed_number (bits : List Bool) :
    pushed (Standard.number bits) bits.length = bits := by
  induction bits using List.reverseRecOn with
  | nil => rfl
  | append_singleton bits b ih =>
    have hdiv : (2*Standard.number bits+b.toNat)/2 = Standard.number bits := by
      cases b <;> simp only [Bool.toNat_true,Bool.toNat_false] <;> omega
    have hbit : (2*Standard.number bits+b.toNat).testBit 0 = b := by
      cases b <;> simp [Nat.testBit_zero]
    rw [List.length_append,List.length_singleton,number_concat,pushed_succ,hdiv,ih,hbit]

theorem number_pushed {value width : ℕ} (h : value < 2^width) :
    Standard.number (pushed value width) = value := by
  induction width generalizing value with
  | zero => simp at h; subst h; rfl
  | succ width ih =>
    rw [pushed_succ,number_concat,ih (by omega),Nat.testBit_zero]
    rcases Nat.mod_two_eq_zero_or_one value with h2 | h2 <;> simp [h2] <;> omega

theorem number_lt (bits : List Bool) : Standard.number bits < 2^bits.length := by
  induction bits using List.reverseRecOn with
  | nil => decide
  | append_singleton bits b ih =>
    rw [number_concat,List.length_append,List.length_singleton,pow_succ]
    have hb := b.toNat_lt
    omega

private theorem byteAt_eq {bits : List Bool} {i : ℕ} (h : i+8 ≤ bits.length) :
    byteAt bits i = UInt8.ofNat (Standard.number ((bits.drop i).take 8)) := by
  have hbits : (bits.drop i).take 8 = (List.range 8).map fun j => bits.getD (i+j) false := by
    apply List.ext_getElem
    · simp; omega
    · intro j hj hj'
      simp only [List.length_map,List.length_range] at hj'
      simp only [List.getElem_take,List.getElem_drop,List.getElem_map,List.getElem_range]
      rw [List.getD_eq_getElem _ _ (by omega)]
  have hstep : ∀ (n : ℕ) (b : Bool), n <<< 1 ||| b.toNat = 2*n+b.toNat := by
    intro n b
    rw [Nat.shiftLeft_eq,Nat.mul_comm]
    exact (Nat.two_pow_add_eq_or_of_lt (by simpa using b.toNat_lt) n).symm
  rw [byteAt,hbits,Standard.number,List.foldl_map]
  simp only [hstep]

theorem length_bitsOf (bytes : List UInt8) : (bitsOf bytes).length = 8*bytes.length := by
  induction bytes with
  | nil => rfl
  | cons b bytes ih =>
    rw [bitsOf,List.flatMap_cons,List.length_append,length_pushed,← bitsOf,ih,List.length_cons]
    omega

theorem bitsOf_append (xs ys : List UInt8) : bitsOf (xs ++ ys) = bitsOf xs ++ bitsOf ys :=
  List.flatMap_append

private theorem pushed_byte {bits : List Bool} (h : bits.length = 8) :
    pushed (UInt8.ofNat (Standard.number bits)).toNat 8 = bits := by
  have hlt := number_lt bits
  rw [h] at hlt
  rw [UInt8.toNat_ofNat_of_lt' hlt]
  exact h ▸ pushed_number bits

private theorem bitsOf_byteAt {bits : List Bool} {n : ℕ} (h : 8*n ≤ bits.length) :
    bitsOf ((List.range n).map fun i => byteAt bits (8*i)) = bits.take (8*n) := by
  induction n with
  | zero => simp [bitsOf]
  | succ n ih =>
    have hbyte : bitsOf [byteAt bits (8*n)] = (bits.drop (8*n)).take 8 := by
      rw [bitsOf,List.flatMap_singleton,byteAt_eq (by omega)]
      exact pushed_byte (by simp; omega)
    rw [List.range_succ,List.map_append,bitsOf_append,ih (by omega),List.map_singleton,hbyte,
      Nat.mul_succ,List.take_add]

private theorem byte_pushed (b : UInt8) :
    UInt8.ofNat (Standard.number (pushed b.toNat 8)) = b := by
  rw [number_pushed b.toNat_lt,UInt8.ofNat_toNat]

theorem bytes_bitsOf (bytes : List UInt8) (rest : List Bool) :
    ((List.range bytes.length).map fun i =>
      UInt8.ofNat (Standard.number (((bitsOf bytes ++ rest).drop (8*i)).take 8))) = bytes := by
  induction bytes with
  | nil => rfl
  | cons b bytes ih =>
    have hbits : bitsOf (b :: bytes) = pushed b.toNat 8 ++ bitsOf bytes := rfl
    have htail : ∀ i, (bitsOf (b :: bytes) ++ rest).drop (8*(i+1)) =
        (bitsOf bytes ++ rest).drop (8*i) := by
      intro i
      rw [hbits,List.append_assoc,List.drop_append,length_pushed,
        List.drop_of_length_le (by rw [length_pushed]; omega),List.nil_append,
        show 8*(i+1)-8 = 8*i by omega]
    rw [List.length_cons,List.range_succ_eq_map,List.map_cons,List.map_map]
    have hhead : ((bitsOf (b :: bytes) ++ rest).drop (8*0)).take 8 = pushed b.toNat 8 := by
      rw [hbits,List.append_assoc,Nat.mul_zero,List.drop_zero]
      exact List.take_left' (length_pushed _ _)
    rw [hhead,byte_pushed]
    refine congrArg (b :: ·) (Eq.trans (List.map_congr_left fun i _ => ?_) ih)
    rw [Function.comp_apply,Nat.succ_eq_add_one,htail]

def Fits (version byteLength : ℕ) : Prop :=
  4+countBits version+byteLength*8 ≤ dataCodewords version*8

instance (version byteLength : ℕ) : Decidable (Fits version byteLength) :=
  inferInstanceAs (Decidable (_ ≤ _))

theorem versionFor_eq_some {n version : ℕ} : versionFor n = some version ↔
    version ∈ List.range' 1 10 ∧ Fits version n ∧
      ∀ v ∈ List.range' 1 10, Fits v n → version ≤ v := by
  have hfind : ∀ l : List ℕ, l.Pairwise (· < ·) → (l.find? (fun v => Fits v n) = some version ↔
      version ∈ l ∧ Fits version n ∧ ∀ v ∈ l, Fits v n → version ≤ v) := by
    intro l hl
    induction l with
    | nil => simp
    | cons a l ih =>
      obtain ⟨ha,hl⟩ := List.pairwise_cons.mp hl
      by_cases hfits : Fits a n
      · rw [List.find?_cons_of_pos (by simpa using hfits)]
        constructor
        · intro he
          cases he
          refine ⟨List.mem_cons_self,hfits,fun v hv _ => ?_⟩
          rcases List.mem_cons.mp hv with rfl | hv
          · exact le_rfl
          · exact (ha v hv).le
        · rintro ⟨hmem,-,hleast⟩
          rcases List.mem_cons.mp hmem with rfl | hmem
          · rfl
          · exact absurd (hleast a List.mem_cons_self hfits) (Nat.not_le.mpr (ha _ hmem))
      · rw [List.find?_cons_of_neg (by simpa using hfits),ih hl]
        constructor
        · rintro ⟨hmem,hv,hleast⟩
          refine ⟨List.mem_cons_of_mem _ hmem,hv,fun v hv => ?_⟩
          rcases List.mem_cons.mp hv with rfl | hv
          · exact fun h => absurd h hfits
          · exact hleast v hv
        · rintro ⟨hmem,hv,hleast⟩
          rcases List.mem_cons.mp hmem with rfl | hmem
          · exact absurd hv hfits
          · exact ⟨hmem,hv,fun v hv => hleast v (List.mem_cons_of_mem _ hv)⟩
  exact hfind (List.range' 1 10) (by decide)

theorem length_padsFrom (pad : UInt8) (n : ℕ) : (padsFrom pad n).length = n := by
  induction n generalizing pad with
  | zero => rfl
  | succ n ih => rw [padsFrom,List.length_cons,ih]

private theorem payloadBits_spec {bytes : List UInt8} {version : ℕ}
    (h : Fits version bytes.length) : ∃ rest, payloadBits bytes version =
      pushed 4 4 ++ pushed bytes.length (countBits version) ++ bitsOf bytes ++ rest ∧
      8 ∣ (payloadBits bytes version).length ∧
      (payloadBits bytes version).length ≤ 8*dataCodewords version := by
  have hlen : (pushed 4 4 ++ pushed bytes.length (countBits version) ++ bitsOf bytes).length =
      4+countBits version+8*bytes.length := by
    rw [List.length_append,List.length_append,length_pushed,length_pushed,length_bitsOf]
  have hbits : payloadBits bytes version =
      pushed 4 4 ++ pushed bytes.length (countBits version) ++ bitsOf bytes ++
      pushed 0 (min 4 (dataCodewords version*8-(4+countBits version+8*bytes.length))) ++
      pushed 0 ((8-(4+countBits version+8*bytes.length+
        min 4 (dataCodewords version*8-(4+countBits version+8*bytes.length)))%8)%8) := by
    have hmore : ∀ (bits : List Bool) (k : ℕ), (bits ++ pushed 0 k).length = bits.length+k := by
      intro bits k
      rw [List.length_append,length_pushed]
    rw [← hlen,payloadBits]
    simp only [hmore]
  refine ⟨_,by rw [hbits,List.append_assoc],?_⟩
  have hfits : 4+countBits version+bytes.length*8 ≤ dataCodewords version*8 := h
  rw [hbits,List.length_append,List.length_append,hlen,length_pushed,length_pushed]
  omega

theorem segment_payloadCodewords {bytes : List UInt8} {version : ℕ}
    (h : Fits version bytes.length) (hcount : bytes.length < 2^countBits version) :
    (payloadCodewords bytes version).length = dataCodewords version ∧
      Standard.segment version (payloadCodewords bytes version) = some bytes := by
  obtain ⟨rest,hbits,hdvd,hle⟩ := payloadBits_spec h
  have hnum : ((payloadBits bytes version).length+7)/8 = (payloadBits bytes version).length/8 := by
    omega
  have hlen : (payloadCodewords bytes version).length = dataCodewords version := by
    simp only [payloadCodewords,List.length_append,List.length_map,List.length_range,
      length_padsFrom]
    omega
  refine ⟨hlen,?_⟩
  have hall : ∃ rest, bitsOf (payloadCodewords bytes version) = pushed 4 4 ++
      (pushed bytes.length (countBits version) ++ (bitsOf bytes ++ rest)) := by
    refine ⟨rest ++ bitsOf (padsFrom 0xec (dataCodewords version-
      ((payloadBits bytes version).length+7)/8)),?_⟩
    simp only [payloadCodewords,bitsOf_append,List.length_map,List.length_range]
    rw [hnum,bitsOf_byteAt (by omega),List.take_of_length_le (by omega),hbits]
    simp only [List.append_assoc]
  obtain ⟨rest,hall⟩ := hall
  have hmode : (bitsOf (payloadCodewords bytes version)).take 4 = [false,true,false,false] := by
    rw [hall]
    rfl
  have hdrop : (bitsOf (payloadCodewords bytes version)).drop 4 =
      pushed bytes.length (countBits version) ++ (bitsOf bytes ++ rest) := by
    rw [hall]
    exact List.drop_left' (length_pushed 4 4)
  have hnumber : Standard.number (((bitsOf (payloadCodewords bytes version)).drop 4).take
      (countBits version)) = bytes.length := by
    rw [hdrop,List.take_left' (length_pushed _ _),number_pushed hcount]
  have hrest : (bitsOf (payloadCodewords bytes version)).drop (4+countBits version) =
      bitsOf bytes ++ rest := by
    rw [← List.drop_drop,hdrop,List.drop_left' (length_pushed _ _)]
  simp only [Standard.segment,hnumber,hrest]
  rw [if_pos]
  · rw [bytes_bitsOf]
  · refine ⟨hmode,?_⟩
    rw [List.length_append,length_bitsOf]
    omega

def versions : List ℕ := List.range' 1 10

private def unpadded (version : ℕ) (p : ℕ × ℕ) : ℕ × ℕ :=
  (p.1,if p.1 < numShortBlocks version ∧ shortBlockLen version-eccLen version < p.2 then p.2-1
    else p.2)

private def slots (version : ℕ) : List (ℕ × ℕ) :=
  (List.range (shortBlockLen version+1)).flatMap fun i =>
    ((List.range (numBlocks version)).filter fun j =>
      i ≠ shortBlockLen version-eccLen version ∨ j ≥ numShortBlocks version).map fun j => (j,i)

private theorem tables : ∀ v ∈ versions, numBlocks v = (Standard.dataLens v).length ∧
    eccLen v = Standard.checkLen v ∧ 0 < numBlocks v ∧ 0 < eccLen v ∧
    dataCodewords v = (Standard.dataLens v).sum ∧ eccLen v ≤ shortBlockLen v ∧
    (∀ j < numBlocks v, (Standard.dataLens v).getD j 0 =
      shortBlockLen v-eccLen v+if j < numShortBlocks v then 0 else 1) ∧
    (Standard.order (Standard.dataLens v) (Standard.checkLen v)).length = rawCodewords v := by
  decide +kernel

private theorem slots_order : ∀ v ∈ versions, (slots v).map (unpadded v) =
    Standard.order (Standard.dataLens v) (Standard.checkLen v) := by
  decide +kernel

/-- The blocks as the standard has them, with nothing in place of a missing codeword. -/
def plainBlock (data : List UInt8) (version j : ℕ) : List UInt8 :=
  let block := (data.drop ((Standard.dataLens version).take j).sum).take
    ((Standard.dataLens version).getD j 0)
  block ++ rsRemainder block (rsDivisor (eccLen version))

section Blocks

variable {version : ℕ} {data : List UInt8} (hv : version ∈ versions)
include hv

private theorem foldl_addBlock {n : ℕ} (h : n ≤ numBlocks version) :
    ((List.range n).foldl (addBlock data version) ([],0)).1 =
      (List.range n).map (fun j =>
        let block := (data.drop ((Standard.dataLens version).take j).sum).take
          ((Standard.dataLens version).getD j 0)
        (if j < numShortBlocks version then block ++ [0] else block) ++
          rsRemainder block (rsDivisor (eccLen version))) ∧
    ((List.range n).foldl (addBlock data version) ([],0)).2 =
      ((Standard.dataLens version).take n).sum := by
  obtain ⟨hblocks,-,-,-,-,-,hlens,-⟩ := tables version hv
  induction n with
  | zero => exact ⟨rfl,rfl⟩
  | succ n ih =>
    obtain ⟨hfst,hsnd⟩ := ih (by omega)
    have hlen := hlens n (by omega)
    have hget : (Standard.dataLens version)[n]? = some ((Standard.dataLens version).getD n 0) := by
      rw [List.getD_eq_getElem _ _ (by omega),List.getElem?_eq_getElem]
    rw [List.range_succ,List.foldl_append,List.foldl_cons,List.foldl_nil,addBlock,hfst,hsnd,
      List.map_append,← hlen]
    refine ⟨rfl,?_⟩
    rw [List.take_add_one,List.sum_append,hget]
    simp

private theorem length_block {j : ℕ} (hj : j < numBlocks version)
    (hdata : data.length = dataCodewords version) :
    ((data.drop ((Standard.dataLens version).take j).sum).take
      ((Standard.dataLens version).getD j 0)).length = (Standard.dataLens version).getD j 0 := by
  obtain ⟨hblocks,-,-,-,hsum,-,-⟩ := tables version hv
  have hsplit : ((Standard.dataLens version).take (j+1)).sum ≤ (Standard.dataLens version).sum := by
    conv_rhs => rw [← List.take_append_drop (j+1) (Standard.dataLens version)]
    rw [List.sum_append]
    exact Nat.le_add_right _ _
  rw [List.take_add_one,List.getElem?_eq_getElem (by omega),List.sum_append] at hsplit
  rw [List.getD_eq_getElem _ _ (by omega),List.length_take,List.length_drop]
  simp only [Option.toList_some,List.sum_singleton] at hsplit
  omega

theorem length_plainBlock {j : ℕ} (hj : j < numBlocks version)
    (hdata : data.length = dataCodewords version) :
    (plainBlock data version j).length =
      (Standard.dataLens version).getD j 0+Standard.checkLen version := by
  obtain ⟨-,hecc,-,hpos,-⟩ := tables version hv
  rw [plainBlock,List.length_append,length_block hv hj hdata,(isCodeword_remainder hpos _).1,hecc]

theorem isCodeword_plainBlock (data : List UInt8) (j : ℕ) :
    IsCodeword (Standard.checkLen version) (plainBlock data version j) := by
  obtain ⟨-,hecc,-,hpos,-⟩ := tables version hv
  rw [← hecc]
  exact (isCodeword_remainder hpos _).2

private theorem slot_eq (hdata : data.length = dataCodewords version) {p : ℕ × ℕ}
    (hp : p ∈ slots version) :
    ((paddedBlocks data version).getD p.1 []).getD p.2 0 =
      (plainBlock data version (unpadded version p).1).getD (unpadded version p).2 0 := by
  obtain ⟨-,-,-,-,-,-,hlens,-⟩ := tables version hv
  obtain ⟨j,i⟩ := p
  simp only [slots,List.mem_flatMap,List.mem_map,List.mem_filter,List.mem_range,Prod.mk.injEq,
    decide_eq_true_eq] at hp
  obtain ⟨i',-,j',⟨hj,hkept⟩,rfl,rfl⟩ := hp
  have hblock := length_block hv hj hdata
  have hlen := hlens j' hj
  have hget : (paddedBlocks data version).getD j' [] =
      (if j' < numShortBlocks version then
        (data.drop ((Standard.dataLens version).take j').sum).take
          ((Standard.dataLens version).getD j' 0) ++ [0]
      else (data.drop ((Standard.dataLens version).take j').sum).take
        ((Standard.dataLens version).getD j' 0)) ++
        rsRemainder ((data.drop ((Standard.dataLens version).take j').sum).take
          ((Standard.dataLens version).getD j' 0)) (rsDivisor (eccLen version)) := by
    rw [paddedBlocks,(foldl_addBlock hv le_rfl).1,List.getD_eq_getElem _ _ (by simpa using hj)]
    simp only [List.getElem_map,List.getElem_range]
  rw [hget,unpadded,plainBlock]
  generalize (data.drop ((Standard.dataLens version).take j').sum).take
    ((Standard.dataLens version).getD j' 0) = block at hblock ⊢
  rw [hlen] at hblock
  rw [List.getD_eq_getElem?_getD,List.getD_eq_getElem?_getD]
  by_cases hshort : j' < numShortBlocks version
  · rw [if_pos hshort] at hblock ⊢
    by_cases hafter : shortBlockLen version-eccLen version < i'
    · rw [if_pos ⟨hshort,hafter⟩,
        List.getElem?_append_right (by rw [List.length_append,List.length_singleton]; omega),
        List.getElem?_append_right (by omega),List.length_append,List.length_singleton,hblock]
      congr 2
      omega
    · rw [if_neg fun h => hafter h.2,List.append_assoc,List.getElem?_append_left (by omega),
        List.getElem?_append_left (by omega)]
  · rw [if_neg hshort,if_neg fun h => hshort h.1]

theorem interleave_eq (hdata : data.length = dataCodewords version) :
    interleave data version =
      (Standard.order (Standard.dataLens version) (Standard.checkLen version)).map fun p =>
        (plainBlock data version p.1).getD p.2 0 := by
  obtain ⟨-,-,hpos,hecc,-,hle,hlens,-⟩ := tables version hv
  have hpadded := (@foldl_addBlock version data hv _ le_rfl).1
  have hcount : (paddedBlocks data version).length = numBlocks version := by
    rw [paddedBlocks,hpadded,List.length_map,List.length_range]
  have hhead : ((paddedBlocks data version).headD []).length = shortBlockLen version+1 := by
    obtain ⟨n,hn⟩ := Nat.exists_eq_succ_of_ne_zero hpos.ne'
    have hblock := length_block hv hpos hdata
    have hlen := hlens 0 hpos
    rw [paddedBlocks,hpadded,hn,List.range_succ_eq_map,List.map_cons,List.headD_cons]
    simp only
    rw [List.length_append,(isCodeword_remainder hecc _).1]
    split at hlen
    · rename_i hshort
      rw [if_pos hshort,List.length_append,hblock,List.length_singleton]
      omega
    · rename_i hlong
      rw [if_neg hlong,hblock]
      omega
  have hinterleave : interleave data version =
      (slots version).map fun p => ((paddedBlocks data version).getD p.1 []).getD p.2 0 := by
    rw [interleave]
    simp only [hhead,hcount,slots,List.map_flatMap,List.map_map]
    rfl
  rw [hinterleave,← slots_order version hv,List.map_map]
  exact List.map_congr_left fun p hp => slot_eq hv hdata hp

theorem length_interleave (hdata : data.length = dataCodewords version) :
    (interleave data version).length = rawCodewords version := by
  rw [interleave_eq hv hdata,List.length_map]
  exact (tables version hv).2.2.2.2.2.2.2

omit hv in
private theorem mem_order {lens : List ℕ} {check j i : ℕ} (hj : j < lens.length)
    (hi : i < lens.getD j 0+check) : (j,i) ∈ Standard.order lens check := by
  have hmax : ∀ (l : List ℕ) (m : ℕ), m ≤ l.foldl max m ∧ ∀ n ∈ l, n ≤ l.foldl max m := by
    intro l
    induction l with
    | nil => exact fun m => ⟨le_rfl,fun n hn => absurd hn List.not_mem_nil⟩
    | cons a l ih =>
      intro m
      obtain ⟨hm,hl⟩ := ih (max m a)
      rw [List.foldl_cons]
      refine ⟨(le_max_left m a).trans hm,fun n hn => ?_⟩
      rcases List.mem_cons.mp hn with rfl | hn
      · exact (le_max_right m n).trans hm
      · exact hl n hn
  rw [Standard.order,List.mem_append]
  by_cases hdata : i < lens.getD j 0
  · refine Or.inl (List.mem_flatMap.mpr ⟨i,?_,?_⟩)
    · have hle := (hmax lens 0).2 (lens.getD j 0) (by
        rw [List.getD_eq_getElem _ _ hj]
        exact List.getElem_mem hj)
      exact List.mem_range.mpr (by omega)
    · exact List.mem_map.mpr ⟨j,List.mem_filter.mpr ⟨List.mem_range.mpr hj,by simpa using hdata⟩,rfl⟩
  · refine Or.inr (List.mem_flatMap.mpr ⟨i-lens.getD j 0,List.mem_range.mpr (by omega),?_⟩)
    refine List.mem_map.mpr ⟨j,List.mem_range.mpr hj,?_⟩
    rw [Nat.add_sub_cancel' (by omega)]

theorem blocks_interleave (hdata : data.length = dataCodewords version) :
    Standard.blocks version (interleave data version) =
      (List.range (Standard.dataLens version).length).map (plainBlock data version) := by
  obtain ⟨hblocks,-⟩ := tables version hv
  rw [Standard.blocks,interleave_eq hv hdata]
  refine List.map_congr_left fun j hj => ?_
  have hj' := List.mem_range.mp hj
  apply List.ext_getElem
  · rw [List.length_map,List.length_range,length_plainBlock hv (by omega) hdata]
  · intro i hi hi'
    simp only [List.length_map,List.length_range] at hi
    have hmem := mem_order hj' hi
    simp only [List.getElem_map,List.getElem_range]
    rw [List.getD_eq_getElem?_getD,List.getElem?_map,
      List.getElem?_eq_getElem (List.idxOf_lt_length_iff.mpr hmem),List.getElem_idxOf,Option.map_some,
      Option.getD_some,List.getD_eq_getElem _ _ hi']

theorem payload_blocks (hdata : data.length = dataCodewords version) :
    Standard.payload version (Standard.blocks version (interleave data version)) = data := by
  obtain ⟨hblocks,-,-,-,hsum,-,-⟩ := tables version hv
  have hcut : ∀ (lens : List ℕ) (rest : List UInt8), rest.length = lens.sum →
      ((List.range lens.length).map fun j =>
        (rest.drop (lens.take j).sum).take (lens.getD j 0)).flatten = rest := by
    intro lens
    induction lens with
    | nil => exact fun rest hrest => (List.length_eq_zero_iff.mp hrest).symm
    | cons len lens ih =>
      intro rest hrest
      have hih := ih (rest.drop len) (by rw [List.length_drop,hrest,List.sum_cons]; omega)
      rw [List.length_cons,List.range_succ_eq_map,List.map_cons,List.map_map,List.flatten_cons]
      simp only [List.take_zero,List.sum_nil,List.drop_zero,List.getD_cons_zero]
      refine Eq.trans ?_ (List.take_append_drop len rest)
      refine congrArg (rest.take len ++ ·) (Eq.trans ?_ hih)
      congr 1
      refine List.map_congr_left fun j _ => ?_
      rw [Function.comp_apply,Nat.succ_eq_add_one,List.take_succ_cons,List.sum_cons,
        List.getD_cons_succ,List.drop_drop]
  rw [Standard.payload,blocks_interleave hv hdata]
  refine Eq.trans ?_ (hcut (Standard.dataLens version) data (hdata.trans hsum))
  congr 1
  apply List.ext_getElem
  · simp
  · intro j hj hj'
    simp only [List.length_map,List.length_range] at hj'
    simp only [List.getElem_zipWith,List.getElem_map,List.getElem_range,plainBlock]
    rw [← List.getD_eq_getElem _ 0 hj',List.take_left' (length_block hv (by omega) hdata)]

end Blocks

end WeirdVault.Qr
