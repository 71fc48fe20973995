import WeirdVault.Qr.Drawing

/-!
# Reading a symbol by the standard

What ISO/IEC 18004 says of a symbol of level M, versions 1 to 10: which modules carry no data and
how they are drawn, where the format and version strings stand, and the order of the modules. A
reader that goes by it gives the bytes of the symbol, or nothing.
-/

namespace WeirdVault.Qr.Standard

/-- The format strings of level M, by mask. -/
def formatStrings : List ℕ :=
  [0b101010000010010,0b101000100100101,0b101111001111100,0b101101101001011,
    0b100010111111001,0b100000011001110,0b100111110010111,0b100101010100000]

def versionString : ℕ → ℕ
  | 7 => 0b000111110010010100
  | 8 => 0b001000010110111100
  | 9 => 0b001001101010011001
  | 10 => 0b001010010011010011
  | _ => 0

def centres : ℕ → List ℕ
  | 2 => [6,18]
  | 3 => [6,22]
  | 4 => [6,26]
  | 5 => [6,30]
  | 6 => [6,34]
  | 7 => [6,22,38]
  | 8 => [6,24,42]
  | 9 => [6,26,46]
  | 10 => [6,28,50]
  | _ => []

/-- Row and column of the bits of the format string, from the lowest: around the finder at the top
left, and in two parts beside the others. -/
def formatAt : List (ℕ × ℕ) :=
  [(0,8),(1,8),(2,8),(3,8),(4,8),(5,8),(7,8),(8,8),(8,7),(8,5),(8,4),(8,3),(8,2),(8,1),(8,0)]

def formatAgain (size : ℕ) : List (ℕ × ℕ) :=
  ((List.range 8).map fun i => (8,size-1-i)) ++ (List.range 7).map fun i => (size-7+i,8)

/-- The block of the version string above the finder at the bottom left. -/
def versionAt (size : ℕ) : List (ℕ × ℕ) := (List.range 18).map fun i => (size-11+i%3,i/3)

def distance (a b : ℕ) : ℕ := (a-b)+(b-a)

/-- The corner that `row` and `col` are in, as the centre of its finder. -/
def finder? (size row col : ℕ) : Option (ℕ × ℕ) :=
  if row < 8 ∧ col < 8 then some (3,3)
  else if row < 8 ∧ size-8 ≤ col then some (3,size-4)
  else if size-8 ≤ row ∧ col < 8 then some (size-4,3)
  else none

/-- The alignment patterns: at every pairing of the centres that is not on a finder. -/
def alignments (version : ℕ) : List (ℕ × ℕ) :=
  ((centres version).flatMap fun row => (centres version).map fun col => (row,col)).filter fun p =>
    (finder? (version*4+17) p.1 p.2).isNone

def alignment? (version row col : ℕ) : Option (ℕ × ℕ) :=
  (alignments version).find? fun p => distance row p.1 ≤ 2 ∧ distance col p.2 ≤ 2

def inFormat (size row col : ℕ) : Bool :=
  row = 8 && (col < 9 || size-8 ≤ col) || col = 8 && (row < 9 || size-8 ≤ row)

def inVersion (version size row col : ℕ) : Bool :=
  7 ≤ version && (row < 6 && size-11 ≤ col && col < size-8 ||
    col < 6 && size-11 ≤ row && row < size-8)

def isFunction (version size row col : ℕ) : Bool :=
  row = 6 || col = 6 || (finder? size row col).isSome || (alignment? version row col).isSome ||
    inFormat size row col || inVersion version size row col

/-- How a module of the finders, their separators, the alignment patterns and the timing rows is
drawn, and the module that is always dark. -/
def pattern? (version size row col : ℕ) : Option Bool :=
  match finder? size row col with
  | some p =>
    let ring := max (distance row p.1) (distance col p.2)
    some (ring ≠ 2 && ring ≠ 4)
  | none =>
    match alignment? version row col with
    | some p => some (max (distance row p.1) (distance col p.2) ≠ 1)
    | none =>
      if row = size-8 ∧ col = 8 then some true
      else if row = 6 then some (col%2 = 0)
      else if col = 6 then some (row%2 = 0)
      else none

def rightColumn (size n : ℕ) : ℕ := if 6 < size-1-2*n then size-1-2*n else size-2-2*n

/-- The modules in pairs of columns from the right, upwards and downwards by turns. -/
def moduleOrder (size : ℕ) : List (ℕ × ℕ) :=
  (List.range ((size-1)/2)).flatMap fun n => (List.range size).flatMap fun k =>
    let row := if n%2 = 0 then size-1-k else k
    [(row,rightColumn size n),(row,rightColumn size n-1)]

def bitsAt (modules : ℕ → ℕ → Bool) (places : List (ℕ × ℕ)) : List Bool :=
  places.map fun p => modules p.1 p.2

def lowFirst (value width : ℕ) : List Bool := (pushed value width).reverse

def mask? (size : ℕ) (modules : ℕ → ℕ → Bool) : Option ℕ :=
  (List.range 8).find? fun mask =>
    bitsAt modules formatAt = lowFirst (formatStrings.getD mask 0) 15 ∧
      bitsAt modules (formatAgain size) = lowFirst (formatStrings.getD mask 0) 15

def versionStands (version size : ℕ) (modules : ℕ → ℕ → Bool) : Bool :=
  version < 7 || bitsAt modules (versionAt size) = lowFirst (versionString version) 18 &&
    bitsAt modules ((versionAt size).map Prod.swap) = lowFirst (versionString version) 18

def message (version size mask : ℕ) (modules : ℕ → ℕ → Bool) : List UInt8 :=
  let cells := (moduleOrder size).filter fun p => !isFunction version size p.1 p.2
  let bits := cells.map fun p => modules p.1 p.2 ^^ maskAt mask p.1 p.2
  (List.range (cells.length/8)).map fun i => UInt8.ofNat (number ((bits.drop (8*i)).take 8))

/-- What a reader makes of the modules. -/
def read (size : ℕ) (modules : ℕ → ℕ → Bool) : Option (List UInt8) :=
  let version := (size-17)/4
  if version ∈ versions ∧ size = version*4+17 ∧ versionStands version size modules then
    (mask? size modules).bind fun mask =>
      let blocks := blocks version (message version size mask modules)
      if ∀ block ∈ blocks, IsCodeword (checkLen version) block then
        segment version (payload version blocks)
      else none
  else none

end WeirdVault.Qr.Standard
