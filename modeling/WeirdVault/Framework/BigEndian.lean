import WeirdVault.Framework.Numerals

/-!
# Numbers as bytes, the highest byte first

The bytes of a number without zeros in front, a number in a fixed number of bytes, and the multiple
precision integers of SSH: two's complement, no byte more than it needs, behind their length.
-/

namespace WeirdVault.Framework.BigEndian

def value (bytes : List UInt8) : ℕ := digitsValue 256 (bytes.map UInt8.toNat)

def toBytes (n : ℕ) : List UInt8 := (Nat.digits 256 n).reverse.map UInt8.ofNat

def fixed : ℕ → ℕ → List UInt8
  | 0, _ => []
  | k+1, n => fixed k (n/256) ++ [UInt8.ofNat n]

def magnitude (n : ℕ) : List UInt8 :=
  match toBytes n with
  | [] => []
  | b :: rest => if 128 ≤ b.toNat then 0 :: b :: rest else b :: rest

/-- `mpint`, of a number that is not negative. -/
def mpint (n : ℕ) : List UInt8 := fixed 4 (magnitude n).length ++ magnitude n

def signed : List UInt8 → ℤ
  | [] => 0
  | b :: rest =>
    if 128 ≤ b.toNat then (value (b :: rest) : ℤ)-256^(rest.length+1) else value (b :: rest)

def readMpint (s : List UInt8) : Option (ℤ × List UInt8) :=
  if s.length < 4 then none
  else
    let length := value (s.take 4)
    let rest := s.drop 4
    if rest.length < length then none else some (signed (rest.take length),rest.drop length)

theorem value_append (as bs : List UInt8) :
    value (as ++ bs) = value as*256^bs.length+value bs := by
  rw [value,List.map_append,digitsValue_append,List.length_map]
  rfl

theorem value_singleton (b : UInt8) : value [b] = b.toNat := by
  simp [value,digitsValue]

theorem value_zeros (k : ℕ) : value (List.replicate k 0) = 0 := by
  induction k with
  | zero => rfl
  | succ k ih =>
    rw [List.replicate_succ',value_append,ih,value_singleton]
    rfl

theorem value_toBytes (n : ℕ) : value (toBytes n) = n := by
  have hsmall : ∀ d ∈ (Nat.digits 256 n).reverse, (UInt8.ofNat d).toNat = d := by
    intro d hd
    have hlt := Nat.digits_lt_base (by omega) (List.mem_reverse.mp hd)
    rw [UInt8.toNat_ofNat']
    exact Nat.mod_eq_of_lt hlt
  have hmap : (toBytes n).map UInt8.toNat = (Nat.digits 256 n).reverse := by
    rw [toBytes,List.map_map]
    conv_rhs => rw [← List.map_id (Nat.digits 256 n).reverse]
    exact List.map_congr_left hsmall
  rw [value,hmap,digitsValue_eq,List.reverse_reverse,Nat.ofDigits_digits]

theorem length_toBytes_le {n k : ℕ} (h : n < 256^k) : (toBytes n).length ≤ k := by
  rw [toBytes,List.length_map,List.length_reverse]
  exact (Nat.digits_length_le_iff (by omega) n).mpr h

@[simp] theorem length_fixed (k n : ℕ) : (fixed k n).length = k := by
  induction k generalizing n with
  | zero => rfl
  | succ k ih => rw [fixed,List.length_append,ih,List.length_singleton]

theorem value_fixed (k n : ℕ) : value (fixed k n) = n % 256^k := by
  induction k generalizing n with
  | zero => exact (Nat.mod_one n).symm
  | succ k ih =>
    have hsplit : n % (256*256^k) = n % 256+256*(n/256 % 256^k) := Nat.mod_mul
    rw [fixed,value_append,ih,value_singleton,List.length_singleton,UInt8.toNat_ofNat',
      pow_succ 256 k,Nat.mul_comm (256^k) 256,hsplit]
    omega

theorem value_lt (bytes : List UInt8) : value bytes < 256^bytes.length := by
  induction bytes using List.reverseRecOn with
  | nil => exact Nat.one_pos
  | append_singleton bytes b ih =>
    have hb := b.toNat_lt
    rw [value_append,value_singleton,List.length_append,List.length_singleton,pow_succ]
    omega

theorem signed_magnitude (n : ℕ) : signed (magnitude n) = n := by
  have hvalue := value_toBytes n
  unfold magnitude
  cases hbytes : toBytes n with
  | nil =>
    rw [hbytes] at hvalue
    rw [← hvalue]
    rfl
  | cons b rest =>
    rw [hbytes] at hvalue
    by_cases hb : 128 ≤ b.toNat
    · have hzero : value (0 :: b :: rest) = value (b :: rest) := by
        have happend := value_append [0] (b :: rest)
        rw [value_singleton] at happend
        simpa using happend
      simp only [if_pos hb,signed]
      rw [if_neg (by decide),hzero,hvalue]
    · simp only [if_neg hb,signed]
      rw [hvalue]

theorem readMpint_mpint {n : ℕ} (h : (magnitude n).length < 256^4) (rest : List UInt8) :
    readMpint (mpint n ++ rest) = some ((n : ℤ),rest) := by
  have htake : (mpint n ++ rest).take 4 = fixed 4 (magnitude n).length := by
    rw [mpint,List.append_assoc]
    exact List.take_left' (length_fixed 4 _)
  have hdrop : (mpint n ++ rest).drop 4 = magnitude n ++ rest := by
    rw [mpint,List.append_assoc]
    exact List.drop_left' (length_fixed 4 _)
  have hlength : value (fixed 4 (magnitude n).length) = (magnitude n).length := by
    rw [value_fixed,Nat.mod_eq_of_lt h]
  have hlong : ¬ (mpint n ++ rest).length < 4 := by
    simp [mpint]
  simp only [readMpint,if_neg hlong,htake,hdrop,hlength]
  rw [if_neg (by simp),List.take_left' rfl,List.drop_left' rfl,signed_magnitude]

theorem length_magnitude_le {n k : ℕ} (h : n < 256^k) : (magnitude n).length ≤ k+1 := by
  have hle := length_toBytes_le h
  unfold magnitude
  split
  · exact Nat.zero_le _
  · rename_i b rest hbytes
    rw [hbytes,List.length_cons] at hle
    split
    · simpa using hle
    · simp only [List.length_cons]
      omega

end WeirdVault.Framework.BigEndian
