import WeirdVault.Framework.TextEncoder
import WeirdVault.Qr.Codewords

/-!
# The matrix

Function patterns, the data in its zig-zag, and the mask of least penalty.
-/

namespace WeirdVault.Qr

open Framework

/-- `15` bits of BCH(15,5) over the level and the mask. -/
def formatBits (mask : ℕ) : ℕ :=
  let data := 0b00 <<< 3 ||| mask
  let rem := (List.range 10).foldl (fun rem _ => rem <<< 1 ^^^ (rem >>> 9)*0x537) data
  (data <<< 10 ||| rem) ^^^ 0x5412

def versionBits (version : ℕ) : ℕ :=
  let rem := (List.range 12).foldl (fun rem _ => rem <<< 1 ^^^ (rem >>> 11)*0x1f25) version
  version <<< 12 ||| rem

def bitAt (value i : ℕ) : Bool := (value >>> i) &&& 1 != 0

/-- `splice(1, 0, pos)` until there are `count` centres. -/
def spliceCentres (step : ℕ) : ℕ → ℕ → List ℕ → List ℕ
  | 0,_,result => result
  | n+1,pos,result => spliceCentres step n (pos-step) (result.take 1 ++ pos :: result.drop 1)

def alignmentCentres (version size : ℕ) : List ℕ :=
  if version = 1 then []
  else
    let count := version/7+2
    let step := (version*4+4+(count*2-2)-1)/(count*2-2)*2
    spliceCentres step (count-1) (size-7) [6]

structure Dot where
  row : ℤ
  col : ℤ
  dark : Bool

structure Grid where
  modules : ℕ → ℕ → Bool
  reserved : ℕ → ℕ → Bool

def replaceAt (f : ℕ → ℕ → Bool) (row col : ℕ) (b : Bool) : ℕ → ℕ → Bool :=
  fun r c => if r = row ∧ c = col then b else f r c

def Grid.set (size : ℕ) (g : Grid) (d : Dot) : Grid :=
  if d.row < 0 ∨ d.row ≥ size ∨ d.col < 0 ∨ d.col ≥ size then g
  else {
    modules := replaceAt g.modules d.row.toNat d.col.toNat d.dark
    reserved := replaceAt g.reserved d.row.toNat d.col.toNat true }

def Grid.draw (size : ℕ) (g : Grid) (dots : List Dot) : Grid := dots.foldl (Grid.set size) g

def drawTiming (size : ℕ) : List Dot :=
  (List.range size).flatMap fun (i : ℕ) => [⟨6,i,i%2 = 0⟩,⟨i,6,i%2 = 0⟩]

def around (n : ℕ) : List ℤ := (List.range (2*n+1)).map fun (k : ℕ) => (k : ℤ)-n

def drawRings (n : ℕ) (light : ℕ → Bool) (row col : ℤ) : List Dot :=
  (around n).flatMap fun dr => (around n).map fun dc =>
    ⟨row+dr,col+dc,!light (max dr.natAbs dc.natAbs)⟩

def drawFinders (size : ℕ) : List Dot :=
  [((3 : ℤ),(3 : ℤ)),(3,(size : ℤ)-4),((size : ℤ)-4,3)].flatMap fun centre =>
    drawRings 4 (fun dist => dist = 2 || dist = 4) centre.1 centre.2

/-- The pairings of the centres but for the three on top of a finder. -/
def alignmentPairs (centres : List ℕ) : List (ℕ × ℕ) :=
  (List.range centres.length).flatMap fun i =>
    ((List.range centres.length).filter fun j =>
      ¬((i = 0 ∧ j = 0) ∨ (i = 0 ∧ j = centres.length-1) ∨ (i = centres.length-1 ∧ j = 0))).map
        fun j => (centres.getD i 0,centres.getD j 0)

def drawAlignment (centres : List ℕ) : List Dot :=
  (alignmentPairs centres).flatMap fun p => drawRings 2 (fun dist => dist = 1) p.1 p.2

def drawFormat (size mask : ℕ) : List Dot :=
  let bits := formatBits mask
  ((List.range 6).map fun (i : ℕ) => ⟨i,8,bitAt bits i⟩) ++
  [⟨7,8,bitAt bits 6⟩,⟨8,8,bitAt bits 7⟩,⟨8,7,bitAt bits 8⟩] ++
  ((List.range' 9 6).map fun (i : ℕ) => ⟨8,14-i,bitAt bits i⟩) ++
  ((List.range 8).map fun (i : ℕ) => ⟨8,size-1-i,bitAt bits i⟩) ++
  ((List.range' 8 7).map fun (i : ℕ) => ⟨size-15+i,8,bitAt bits i⟩) ++
  [⟨size-8,8,true⟩]

def drawVersion (size version : ℕ) : List Dot :=
  let bits := versionBits version
  (List.range 18).flatMap fun (i : ℕ) =>
    [⟨(i/3 : ℕ),size-11+(i%3 : ℕ),bitAt bits i⟩,⟨size-11+(i%3 : ℕ),(i/3 : ℕ),bitAt bits i⟩]

def functionDots (version size : ℕ) : List Dot :=
  drawTiming size ++ drawFinders size ++ drawAlignment (alignmentCentres version size) ++
    drawFormat size 0 ++ if version ≥ 7 then drawVersion size version else []

/-- The right columns of the pairs, over column 6. -/
def columnsFrom : ℕ → ℕ → List ℕ
  | 0,_ => []
  | n+1,right =>
    if right < 1 then []
    else
      let right := if right = 6 then 5 else right
      right :: columnsFrom n (right-2)

def zigzag (size : ℕ) : List (ℕ × ℕ) :=
  (columnsFrom size (size-1)).flatMap fun right => (List.range size).flatMap fun vert =>
    [0,1].map fun j => (if (right+1) &&& 2 = 0 then size-1-vert else vert,right-j)

/-- One module of the zig-zag: the next bit, unless it is reserved or all bits are placed. -/
def place (reserved : ℕ → ℕ → Bool) (codewords : List UInt8) (s : (ℕ → ℕ → Bool) × ℕ)
    (p : ℕ × ℕ) : (ℕ → ℕ → Bool) × ℕ :=
  if reserved p.1 p.2 ∨ s.2 ≥ codewords.length*8 then s
  else (replaceAt s.1 p.1 p.2 (bitAt (codewords.getD (s.2 >>> 3) 0).toNat (7-(s.2 &&& 7))),s.2+1)

def placeAll (size : ℕ) (g : Grid) (codewords : List UInt8) : ℕ → ℕ → Bool :=
  ((zigzag size).foldl (place g.reserved codewords) (g.modules,0)).1

def maskAt (mask row col : ℕ) : Bool :=
  match mask with
  | 0 => (row+col)%2 = 0
  | 1 => row%2 = 0
  | 2 => col%3 = 0
  | 3 => (row+col)%3 = 0
  | 4 => (col/3+row/2)%2 = 0
  | 5 => (row*col)%2+(row*col)%3 = 0
  | 6 => ((row*col)%2+(row*col)%3)%2 = 0
  | _ => ((row+col)%2+(row*col)%3)%2 = 0

def applyMask (size mask : ℕ) (g : Grid) : Grid where
  modules row col :=
    if row < size ∧ col < size ∧ g.reserved row col = false ∧ maskAt mask row col = true then
      !g.modules row col
    else g.modules row col
  reserved := g.reserved

structure Run where
  colour : Bool
  length : ℕ
  history : List ℕ
  score : ℤ

def addRun (history : List ℕ) (runLength size : ℕ) : List ℕ :=
  (if history.headD 0 = 0 then runLength+size else runLength) :: history.dropLast

def countFinderLike (history : List ℕ) : ℕ :=
  let at' := fun i => history.getD i 0
  let n := at' 1
  let core := n > 0 ∧ at' 2 = n ∧ at' 3 = n*3 ∧ at' 4 = n ∧ at' 5 = n
  (if core ∧ at' 0 ≥ n*4 ∧ at' 6 ≥ n then 1 else 0)+
    if core ∧ at' 6 ≥ n*4 ∧ at' 0 ≥ n then 1 else 0

def Run.step (size : ℕ) (run : Run) (dark : Bool) : Run :=
  if dark = run.colour then
    let length := run.length+1
    { run with
      length := length
      score := run.score+if length = 5 then 3 else if length > 5 then 1 else 0 }
  else
    let history := addRun run.history run.length size
    { colour := dark
      length := 1
      history := history
      score := run.score+if run.colour then 0 else countFinderLike history*40 }

def terminateRun (history : List ℕ) (colour : Bool) (runLength size : ℕ) : ℕ :=
  let history' := if colour then addRun history runLength size else history
  let runLength' := if colour then 0 else runLength
  countFinderLike (addRun history' (runLength'+size) size)

def linePenalty (size : ℕ) (line : List Bool) : ℤ :=
  let run := line.foldl (Run.step size) ⟨false,0,[0,0,0,0,0,0,0],0⟩
  run.score+terminateRun run.history run.colour run.length size*40

def penaltyScore (modules : ℕ → ℕ → Bool) (size : ℕ) : ℤ :=
  let rows := (List.range size).map fun a =>
    linePenalty size ((List.range size).map fun b => modules a b)
  let cols := (List.range size).map fun a =>
    linePenalty size ((List.range size).map fun b => modules b a)
  let blocks := (List.range (size-1)).flatMap fun row =>
    (List.range (size-1)).filter fun col =>
      modules row col = modules row (col+1) && modules row col = modules (row+1) col &&
        modules row col = modules (row+1) (col+1)
  let dark := ((List.range size).map fun row =>
    ((List.range size).filter fun col => modules row col).length).sum
  let total := size*size
  rows.sum+cols.sum+blocks.length*3+
    ((((dark*20 : ℤ)-total*10).natAbs+total-1)/total-1 : ℤ)*10

/-- One mask tried: the state, the best so far and its penalty. -/
structure Trial where
  grid : Grid
  best : ℕ
  bestPenalty : Option ℤ

def Trial.next (size : ℕ) (t : Trial) (mask : ℕ) : Trial :=
  let g := (applyMask size mask t.grid).draw size (drawFormat size mask)
  let penalty := penaltyScore g.modules size
  let better := t.bestPenalty.all fun p => penalty < p
  { grid := applyMask size mask g
    best := if better then mask else t.best
    bestPenalty := if better then some penalty else t.bestPenalty }

structure QrCode where
  size : ℕ
  version : ℕ
  modules : ℕ → ℕ → Bool

def empty : Grid := ⟨fun _ _ => false,fun _ _ => false⟩

def unmasked (bytes : List UInt8) (version : ℕ) : Grid :=
  let size := version*4+17
  let g := empty.draw size (functionDots version size)
  { g with modules := placeAll size g (interleave (payloadCodewords bytes version) version) }

def tryMasks (size : ℕ) (g : Grid) : Trial :=
  (List.range 8).foldl (Trial.next size) ⟨g,0,none⟩

/-- The matrix of a text; `none` where `QrTooLongError` is thrown. -/
def encodeQr (text : JsString) : Option QrCode :=
  let bytes := TextEncoder.encode text
  (versionFor bytes.length).map fun version =>
    let size := version*4+17
    let tried := tryMasks size (unmasked bytes version)
    let g := (applyMask size tried.best tried.grid).draw size (drawFormat size tried.best)
    ⟨size,version,g.modules⟩

end WeirdVault.Qr
