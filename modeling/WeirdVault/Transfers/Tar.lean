import Mathlib.Algebra.Order.Ring.Nat
import WeirdVault.Framework.Program
import WeirdVault.Framework.TextEncoder

/-!
# Writing a tar archive

tar.ts: the generator `tarChunks`, whose yields and looks at the abort signal are requests, and the
headers that it writes. What it reports of its progress is left out.
-/

namespace WeirdVault.Transfers.Tar

open WeirdVault.Framework

abbrev Bytes := List UInt8

/-- A `File`: what it declares and what its stream delivers, in chunks and perhaps up to an error. -/
structure File where
  size : Nat
  /-- Milliseconds since the epoch. -/
  lastModified : Int
  stream : List Bytes
  failure : Option JsString
  deriving DecidableEq, Repr

structure UploadItem where
  path : JsString
  file : File
  deriving DecidableEq, Repr

def BLOCK : Nat := 512

def collapseSlashes : (afterSlash : Bool) → JsString → JsString
  | _,[] => []
  | afterSlash,u :: rest =>
    if u = 47 then
      if afterSlash then collapseSlashes true rest else u :: collapseSlashes true rest
    else u :: collapseSlashes false rest

def normalize (path : JsString) : JsString :=
  collapseSlashes false (path.dropWhile (fun u => u == 47))

def padding (size : Nat) : Nat :=
  let rem := size % BLOCK
  if rem = 0 then 0 else BLOCK - rem

def truncate (name : JsString) : JsString := if name.length > 100 then name.take 100 else name

def toString8 (n : Int) : JsString :=
  let digits := (Nat.toDigits 8 n.natAbs).map (fun c => c.toNat.toUInt16)
  if n < 0 then 45 :: digits else digits

def padStart (s : JsString) (length : Nat) (fill : UInt16) : JsString :=
  List.replicate (length - s.length) fill ++ s

def sliceLast (s : JsString) (length : Nat) : JsString := s.drop (s.length - length)

def octal (n : Int) (len : Nat) : JsString :=
  sliceLast (padStart (toString8 n) (len-1) 48) (len-1) ++ [0]

abbrev Block := Nat → UInt8

def Block.bytes (buf : Block) : Bytes := (List.range BLOCK).map buf

def put (buf : Block) (offset len : Nat) (value : JsString) : Block :=
  let b := (TextEncoder.encode value).take len
  fun i => if offset ≤ i then (b[i-offset]?).getD (buf i) else buf i

def unsummed (name : JsString) (size : Nat) (mtimeMs : Int) (type : JsString) : Block :=
  let buf : Block := fun _ => 0
  let buf := put buf 0 100 name
  let buf := put buf 100 8 (octal 0o644 8)
  let buf := put buf 108 8 (octal 0 8)
  let buf := put buf 116 8 (octal 0 8)
  let buf := put buf 124 12 (octal size 12)
  let buf := put buf 136 12 (octal (mtimeMs / 1000) 12)
  let buf := put buf 148 8 (utf16 "        ")
  let buf := put buf 156 1 type
  let buf := put buf 257 6 (utf16 "ustar" ++ [0])
  let buf := put buf 263 2 (utf16 "00")
  let buf := put buf 265 32 (utf16 "weirdvault")
  put buf 297 32 (utf16 "weirdvault")

def header (name : JsString) (size : Nat) (mtimeMs : Int) (type : JsString) : Bytes :=
  let buf := unsummed name size mtimeMs type
  let sum := (buf.bytes.map UInt8.toNat).sum
  Block.bytes (put buf 148 8 (sliceLast (padStart (toString8 sum) 6 48) 6 ++ [0,32]))

def longNameEntry (name : JsString) : Option Bytes :=
  let bytes := TextEncoder.encode name
  if bytes.length ≤ 100 then none
  else
    let head := header (utf16 "././@LongLink") bytes.length 0 (utf16 "L")
    let pad := padding bytes.length
    some (head ++ bytes ++ List.replicate pad 0)

inductive Asked
  | yields (chunk : Bytes)
  | aborted

@[reducible] def Asked.Ans : Asked → Type
  | .yields _ => Unit
  | .aborted => Bool

abbrev TarProg (α : Type) := Program Asked.Ans JsString α

def yields (chunk : Bytes) : TarProg Unit := Program.request (Asked.yields chunk)

def throwIfAborted : TarProg Unit := do
  if ← Program.request Asked.aborted then throw (utf16 "cancelled")

/-- The loop over the stream, which ends with the number of bytes it has passed on. -/
def copy (failure : Option JsString) : List Bytes → (written : Nat) → TarProg Nat
  | [],written =>
    match failure with
    | none => return written
    | some message => throw message
  | value :: rest,written => do
    throwIfAborted
    yields value
    copy failure rest (written + value.length)

def changedWhileRead (item : UploadItem) (written : Nat) : JsString :=
  item.path ++ utf16 s!" changed while being read (declared {item.file.size} bytes, read {written})"

def tarItem (item : UploadItem) : TarProg Unit := do
  throwIfAborted
  let name := normalize item.path
  let size := item.file.size
  match longNameEntry name with
  | some long =>
    yields long
    yields (header (truncate name) size item.file.lastModified (utf16 "0"))
  | none => yields (header name size item.file.lastModified (utf16 "0"))
  let written ← copy item.file.failure item.file.stream 0
  if written ≠ size then throw (changedWhileRead item written)
  let pad := padding size
  if pad > 0 then yields (List.replicate pad 0)

def tarChunks (items : List UploadItem) : TarProg Unit := do
  Program.forEach tarItem items
  yields (List.replicate (BLOCK*2) 0)

/-- What `buildTar` hands out: the chunks, and then `null` or a throw. The signal says how it stands
each time that it is looked at. -/
def consumer (signal : Nat → Bool) : (List Bytes × Nat) → (r : Asked) → (List Bytes × Nat) × r.Ans
  | (chunks,looks),.yields chunk => ((chunks ++ [chunk],looks),())
  | (chunks,looks),.aborted => ((chunks,looks+1),signal looks)

def buildTar (items : List UploadItem) (signal : Nat → Bool) : List Bytes × Except JsString Unit :=
  let (produced,ended) := (tarChunks items).run (consumer signal) ([],0)
  (produced.1,ended)

end WeirdVault.Transfers.Tar
