import Mathlib.Algebra.Order.Ring.Nat
import Mathlib.Data.List.TakeWhile
import Mathlib.Data.Option.Basic
import Mathlib.Tactic.Common

/-!
# Reading a tar archive

The POSIX ustar format with GNU long names: blocks of 512 bytes, numbers in octal with a terminator,
a checksum in every header, and two blocks of zeros at the end. Members other than regular files and
long names are not read.
-/

namespace WeirdVault.Framework.Ustar

def blockSize : Nat := 512

def slice (bs : List UInt8) (offset len : Nat) : List UInt8 := (bs.drop offset).take len

/-- Up to the first NUL. -/
def cstring (bs : List UInt8) : List UInt8 := bs.takeWhile (fun b => b != 0)

def isOctalDigit (b : UInt8) : Bool := 48 ≤ b && b ≤ 55

def octalValue (digits : List UInt8) : Nat := digits.foldl (fun n b => 8*n + (b.toNat - 48)) 0

/-- A field of spaces, octal digits and at least one NUL or space. -/
def octal? (field : List UInt8) : Option Nat :=
  let digits := field.dropWhile (fun b => b == 32)
  match digits.dropWhile isOctalDigit with
  | [] => none
  | b :: _ =>
    if b == 0 || b == 32 then some (octalValue (digits.takeWhile isOctalDigit)) else none

structure Header where
  name : List UInt8
  size : Nat
  mtime : Nat
  type : UInt8
  deriving DecidableEq, Repr

/-- The sum of the bytes, those of the checksum itself taken for spaces. -/
def checksum (block : List UInt8) : Nat :=
  ((block.take 148 ++ List.replicate 8 32 ++ block.drop 156).map UInt8.toNat).sum

def magic : List UInt8 := [117,115,116,97,114,0,48,48]

def fullName (block : List UInt8) : List UInt8 :=
  let before := cstring (slice block 345 155)
  let name := cstring (slice block 0 100)
  if before = [] then name else before ++ 47 :: name

def header? (block : List UInt8) : Option Header := do
  guard (slice block 257 8 = magic)
  let sum ← octal? (slice block 148 8)
  guard (sum = checksum block)
  let _ ← octal? (slice block 100 8)
  let _ ← octal? (slice block 108 8)
  let _ ← octal? (slice block 116 8)
  let size ← octal? (slice block 124 12)
  let mtime ← octal? (slice block 136 12)
  return ⟨fullName block,size,mtime,(slice block 156 1).headD 0⟩

def roundUp (n : Nat) : Nat := (n + (blockSize - 1)) / blockSize * blockSize

structure Entry where
  name : List UInt8
  contents : List UInt8
  mtime : Nat
  deriving DecidableEq, Repr

def isZeroBlock (block : List UInt8) : Bool :=
  block.length == blockSize && block.all (fun b => b == 0)

/-- The entries up to the end of the archive, and what comes after it. The fuel bounds the number of
headers; a long name waits for the next entry. An entry of type 0 is a file, also where its name
ends in a slash. -/
def members : Nat → Option (List UInt8) → List UInt8 → Option (List Entry × List UInt8)
  | 0,_,_ => none
  | fuel+1,longName,bs =>
    let block := bs.take blockSize
    let rest := bs.drop blockSize
    if isZeroBlock block then
      if isZeroBlock (rest.take blockSize) then some ([],rest.drop blockSize) else none
    else do
      guard (block.length = blockSize)
      let h ← header? block
      guard (roundUp h.size ≤ rest.length)
      let contents := rest.take h.size
      let next := rest.drop (roundUp h.size)
      if h.type = 76 then members fuel (some (cstring contents)) next
      else do
        guard (h.type = 48)
        let (entries,after) ← members fuel none next
        return (⟨longName.getD h.name,contents,h.mtime⟩ :: entries,after)

def read (bs : List UInt8) : Option (List Entry × List UInt8) :=
  members (bs.length / blockSize + 1) none bs

private theorem octalValue_lt {digits : List UInt8} (h : ∀ b ∈ digits, isOctalDigit b) :
    octalValue digits < 8 ^ digits.length := by
  have hfold : ∀ n, digits.foldl (fun n b => 8*n + (b.toNat - 48)) n <
      8 ^ digits.length * (n+1) := by
    induction digits with
    | nil => simp
    | cons b digits ih =>
      intro n
      have hb : 48 ≤ b ∧ b ≤ 55 := by simpa [isOctalDigit] using h b (by simp)
      have hhi : b.toNat ≤ 55 := UInt8.le_iff_toNat_le.mp hb.2
      have hrest := ih (fun c hc => h c (List.mem_cons_of_mem b hc)) (8*n + (b.toNat - 48))
      calc (b :: digits).foldl (fun n b => 8*n + (b.toNat - 48)) n
          < 8 ^ digits.length * (8*n + (b.toNat - 48) + 1) := hrest
        _ ≤ 8 ^ digits.length * (8*(n+1)) := Nat.mul_le_mul_left _ (by omega)
        _ = 8 ^ (b :: digits).length * (n+1) := by
          rw [List.length_cons,Nat.pow_succ,Nat.mul_assoc]
  simpa [octalValue] using hfold 0

theorem octal?_lt {field : List UInt8} {n w : Nat} (hlen : field.length ≤ w+1)
    (h : octal? field = some n) : n < 8 ^ w := by
  unfold octal? at h
  simp only at h
  generalize hdigits : field.dropWhile (fun b => b == 32) = digits at h
  have hdrop : digits.length ≤ field.length := by
    rw [← hdigits]
    exact (List.dropWhile_suffix _).length_le
  have hsplit : (digits.takeWhile isOctalDigit).length + (digits.dropWhile isOctalDigit).length =
      digits.length := by
    rw [← List.length_append,List.takeWhile_append_dropWhile]
  cases hrest : digits.dropWhile isOctalDigit with
  | nil =>
    rw [hrest] at h
    cases h
  | cons b rest =>
    rw [hrest] at h hsplit
    simp only at h
    split at h
    · obtain rfl := Option.some.inj h
      have hvalue : octalValue (digits.takeWhile isOctalDigit) <
          8 ^ (digits.takeWhile isOctalDigit).length :=
        octalValue_lt (fun c hc => List.mem_takeWhile_imp hc)
      rw [List.length_cons] at hsplit
      exact Nat.lt_of_lt_of_le hvalue (Nat.pow_le_pow_right (by omega) (by omega))
    · cases h

private theorem zero_not_mem_cstring (bs : List UInt8) : 0 ∉ cstring bs := by
  intro h
  have hne := List.mem_takeWhile_imp h
  cases hne

private theorem length_cstring (bs : List UInt8) : (cstring bs).length ≤ bs.length :=
  (List.takeWhile_prefix _).length_le

private theorem length_slice (bs : List UInt8) (offset len : Nat) :
    (slice bs offset len).length ≤ len := List.length_take_le _ _

structure Sayable (e : Entry) : Prop where
  noNul : 0 ∉ e.name
  name : e.name.length < 8 ^ 11
  contents : e.contents.length < 8 ^ 11
  mtime : e.mtime < 8 ^ 11

private theorem header?_bounds {block : List UInt8} {h : Header} (hh : header? block = some h) :
    (0 ∉ h.name ∧ h.name.length ≤ 256) ∧ h.size < 8 ^ 11 ∧ h.mtime < 8 ^ 11 := by
  simp only [header?,Option.bind_eq_bind,Option.bind_eq_some_iff,Option.pure_def,
    Option.some.injEq] at hh
  obtain ⟨-,-,sum,-,-,-,mode,-,uid,-,gid,-,size,hsize,mtime,hmtime,rfl⟩ := hh
  refine ⟨?_,octal?_lt (length_slice _ _ _) hsize,octal?_lt (length_slice _ _ _) hmtime⟩
  have hname := length_cstring (slice block 0 100)
  have hname' := length_slice block 0 100
  have hbefore := length_cstring (slice block 345 155)
  have hbefore' := length_slice block 345 155
  simp only [fullName]
  split
  · exact ⟨zero_not_mem_cstring _,by omega⟩
  · constructor
    · simp only [List.mem_append,List.mem_cons,not_or]
      exact ⟨zero_not_mem_cstring _,by decide,zero_not_mem_cstring _⟩
    · simp only [List.length_append,List.length_cons]
      omega

/-- Whatever the bytes are, an entry that is read from them has no NUL in its name and keeps to the
bounds of eleven octal digits. -/
theorem sayable_of_members {fuel : Nat} {longName : Option (List UInt8)} {bs after : List UInt8}
    {entries : List Entry} (h : members fuel longName bs = some (entries,after))
    (hlong : ∀ name, longName = some name → 0 ∉ name ∧ name.length < 8 ^ 11) :
    ∀ e ∈ entries, Sayable e := by
  induction fuel generalizing longName bs entries with
  | zero => cases h
  | succ fuel ih =>
    simp only [members] at h
    split at h
    · split at h
      · cases h
        simp
      · cases h
    · simp only [Option.bind_eq_bind,Option.bind_eq_some_iff] at h
      obtain ⟨-,-,hd,hhd,-,-,h⟩ := h
      obtain ⟨⟨hnul,hname⟩,hsize,hmtime⟩ := header?_bounds hhd
      have hcontents : ((bs.drop blockSize).take hd.size).length < 8 ^ 11 :=
        Nat.lt_of_le_of_lt (List.length_take_le _ _) hsize
      split at h
      · apply ih h
        intro name hsome
        obtain rfl := Option.some.inj hsome
        exact ⟨zero_not_mem_cstring _,Nat.lt_of_le_of_lt (length_cstring _) hcontents⟩
      · simp only [Option.bind_eq_some_iff,Option.pure_def,Option.some.injEq] at h
        obtain ⟨-,-,⟨rest,after'⟩,hrest,he⟩ := h
        obtain ⟨rfl,rfl⟩ := Prod.mk.inj he
        intro e hmem
        rcases List.mem_cons.mp hmem with rfl | hmem
        · cases longName with
          | none => exact ⟨hnul,Nat.lt_of_le_of_lt hname (by decide),hcontents,hmtime⟩
          | some name =>
            obtain ⟨hnul',hname'⟩ := hlong name rfl
            exact ⟨hnul',hname',hcontents,hmtime⟩
        · exact ih hrest (fun _ hnone => nomatch hnone) e hmem

theorem sayable_of_read {bs after : List UInt8} {entries : List Entry}
    (h : read bs = some (entries,after)) : ∀ e ∈ entries, Sayable e :=
  sayable_of_members h (fun _ hnone => nomatch hnone)

theorem cstring_append {name : List UInt8} (h : 0 ∉ name) (n : Nat) :
    cstring (name ++ List.replicate n 0) = name := by
  have hname : ∀ b ∈ name, (b != 0) = true := by
    intro b hb
    rw [bne_iff_ne]
    rintro rfl
    exact h hb
  rw [cstring,List.takeWhile_append_of_pos hname]
  cases n with
  | zero => simp
  | succ n => simp [List.replicate_succ]

theorem octal?_digits {digits : List UInt8} (h : ∀ b ∈ digits, isOctalDigit b)
    (rest : List UInt8) : octal? (digits ++ 0 :: rest) = some (octalValue digits) := by
  have hspaces : (digits ++ 0 :: rest).dropWhile (fun b => b == 32) = digits ++ 0 :: rest := by
    cases digits with
    | nil => rfl
    | cons b digits =>
      have hb : (b == 32) = false := by
        rw [beq_eq_false_iff_ne]
        rintro rfl
        cases h 32 (by simp)
      rw [List.cons_append,List.dropWhile_cons,hb]
      rfl
  unfold octal?
  simp only [hspaces]
  rw [List.dropWhile_append_of_pos h,List.takeWhile_append_of_pos h]
  simp [isOctalDigit]

section Members

variable {fuel : Nat} {longName : Option (List UInt8)} {block contents pad rest : List UInt8}
  {h : Header}

theorem roundUp_of_padded {n p : Nat} (hp : p < blockSize) (hmod : blockSize ∣ n + p) :
    roundUp n = n + p := by
  obtain ⟨k,hk⟩ := hmod
  unfold roundUp
  unfold blockSize at hp hk ⊢
  omega

variable (hlen : block.length = blockSize) (hzero : isZeroBlock block = false)
  (hheader : header? block = some h) (hsize : contents.length = h.size)
  (hpad : pad.length < blockSize) (hblocks : blockSize ∣ contents.length + pad.length)

include hlen hzero hheader hsize hpad hblocks

private theorem members_member :
    members (fuel+1) longName (block ++ (contents ++ (pad ++ rest))) =
      if h.type = 76 then members fuel (some (cstring contents)) rest
      else do
        guard (h.type = 48)
        let (entries,after) ← members fuel none rest
        return (⟨longName.getD h.name,contents,h.mtime⟩ :: entries,after) := by
  have hround : roundUp h.size = contents.length + pad.length := by
    rw [← hsize]
    exact roundUp_of_padded hpad hblocks
  have hblock : (block ++ (contents ++ (pad ++ rest))).take blockSize = block := by
    rw [← hlen,List.take_left]
  have hrest : (block ++ (contents ++ (pad ++ rest))).drop blockSize =
      contents ++ (pad ++ rest) := by
    rw [← hlen,List.drop_left]
  have hcontents : (contents ++ (pad ++ rest)).take h.size = contents := by
    rw [← hsize,List.take_left]
  have hnext : (contents ++ (pad ++ rest)).drop (contents.length + pad.length) = rest := by
    rw [← List.append_assoc,← List.length_append,List.drop_left]
  have hfits : roundUp h.size ≤ (contents ++ (pad ++ rest)).length := by
    rw [hround]
    simp only [List.length_append]
    omega
  simp only [members,hblock,hrest,hzero,hlen,hheader,hcontents,hfits,hround ▸ hnext,guard_true,
    Bool.false_eq_true,if_false,Option.bind_eq_bind,Option.bind_some,Option.pure_def]

theorem members_file (htype : h.type = 48) {entries : List Entry} {after : List UInt8}
    (hnext : members fuel none rest = some (entries,after)) :
    members (fuel+1) longName (block ++ (contents ++ (pad ++ rest))) =
      some (⟨longName.getD h.name,contents,h.mtime⟩ :: entries,after) := by
  rw [members_member hlen hzero hheader hsize hpad hblocks]
  simp [htype,hnext]

theorem members_long (htype : h.type = 76) :
    members (fuel+1) longName (block ++ (contents ++ (pad ++ rest))) =
      members fuel (some (cstring contents)) rest := by
  rw [members_member hlen hzero hheader hsize hpad hblocks]
  simp [htype]

end Members

theorem members_end (fuel : Nat) (longName : Option (List UInt8)) :
    members (fuel+1) longName (List.replicate (blockSize*2) 0) = some ([],[]) := by
  have hzero : isZeroBlock (List.replicate blockSize 0) = true := by simp [isZeroBlock]
  have hblock : (List.replicate (blockSize*2) (0 : UInt8)).take blockSize =
      List.replicate blockSize 0 := by
    rw [List.take_replicate]
    rfl
  have hrest : (List.replicate (blockSize*2) (0 : UInt8)).drop blockSize =
      List.replicate blockSize 0 := by
    rw [List.drop_replicate]
    rfl
  have hnext : (List.replicate blockSize (0 : UInt8)).take blockSize =
      List.replicate blockSize 0 := by
    rw [List.take_replicate,min_self]
  have hafter : (List.replicate blockSize (0 : UInt8)).drop blockSize = [] := by
    rw [List.drop_replicate,Nat.sub_self]
    rfl
  simp only [members,hblock,hrest,hzero,hnext,hafter,if_true]

end WeirdVault.Framework.Ustar
