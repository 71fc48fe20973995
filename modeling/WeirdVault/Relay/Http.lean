import WeirdVault.Framework.Lossy
import WeirdVault.Framework.Numerals
import Mathlib.Data.List.Infix

/-!
# The answer of the control plane

`extract_body` on the decoded text. A slice that ends inside a character panics; that is `none`.
-/

namespace WeirdVault.Relay.Http

open WeirdVault.Framework

def crlf : Text := "\r\n".toList

/-- `split_once`, for a pattern that is not empty -/
def splitOnce (pattern : Text) : Text → Option (Text × Text)
  | [] => none
  | c :: s =>
    if pattern.isPrefixOf (c :: s) then some ([],(c :: s).drop pattern.length)
    else (splitOnce pattern s).map fun p => (c :: p.1,p.2)

def splitInclusive : Text → List Text
  | [] => []
  | c :: s =>
    if c = '\n' then [c] :: splitInclusive s
    else match splitInclusive s with
      | [] => [[c]]
      | line :: rest => (c :: line) :: rest

def stripLineEnd (line : Text) : Text :=
  match line.reverse with
  | '\n' :: '\r' :: rest => rest.reverse
  | '\n' :: rest => rest.reverse
  | _ => line

def lines (s : Text) : List Text := (splitInclusive s).map stripLineEnd

def toAsciiLowercase (s : Text) : Text := s.map Char.toLower

/-- A header line with the name and the value that `extract_body` looks for. -/
def saysChunked (line : Text) : Bool :=
  match splitOnce [':'] line with
  | some (name,value) =>
    toAsciiLowercase name == "transfer-encoding".toList &&
      decide ("chunked".toList <:+: toAsciiLowercase value)
  | none => false

def isChunked (head : Text) : Bool := (lines head).any saysChunked

def isWhitespace (c : Char) : Bool :=
  let n := c.toNat
  (9 ≤ n && n ≤ 13) || n == 0x20 || n == 0x85 || n == 0xA0 || n == 0x1680 ||
    (0x2000 ≤ n && n ≤ 0x200A) || n == 0x2028 || n == 0x2029 || n == 0x202F || n == 0x205F ||
    n == 0x3000

def trim (s : Text) : Text :=
  ((s.dropWhile isWhitespace).reverse.dropWhile isWhitespace).reverse

def stripPlus (s : Text) : Text := if s.head? = some '+' then s.tail else s

def fromStrRadix16 (s : Text) : Option Nat := (number? 16 (stripPlus s)).filter (· < 2^64)

def chunkSize (sizeLine : Text) : Option Nat :=
  fromStrRadix16 (trim (sizeLine.takeWhile (· != ';')))

/-- The size of the next chunk and the text after its line, unless the loop stops here. -/
def nextChunk (rest : Text) : Option (Nat × Text) := do
  let (sizeLine,after) ← splitOnce crlf rest
  let size ← chunkSize sizeLine
  if size = 0 ∨ byteLen after < size then none else some (size,after)

def skipChunk (after : Text) (size : Nat) : Text :=
  ((splitBytes after (size+2)).map Prod.snd).getD []

theorem splitOnce_eq {pattern s a b : Text} (h : splitOnce pattern s = some (a,b)) :
    s = a ++ pattern ++ b := by
  induction s generalizing a with
  | nil => cases h
  | cons c s ih =>
    rw [splitOnce] at h
    split at h
    · rename_i hp
      obtain ⟨rest,hrest⟩ := List.isPrefixOf_iff_prefix.mp hp
      obtain ⟨rfl,rfl⟩ := Prod.mk.inj (Option.some.inj h)
      rw [← hrest,List.drop_left]
      rfl
    · obtain ⟨⟨a',b'⟩,hsplit,he⟩ := Option.map_eq_some_iff.mp h
      obtain ⟨rfl,rfl⟩ := Prod.mk.inj he
      rw [ih hsplit]
      rfl

theorem nextChunk_shorter {rest after : Text} {size : Nat} (h : nextChunk rest = some (size,after)) :
    after.length < rest.length := by
  simp only [nextChunk,Option.bind_eq_bind,Option.bind_eq_some_iff] at h
  obtain ⟨⟨line,tail⟩,hsplit,n,-,hcheck⟩ := h
  have hlen := congrArg List.length (splitOnce_eq hsplit)
  simp only [List.length_append,crlf] at hlen
  split at hcheck
  · cases hcheck
  · obtain ⟨rfl,rfl⟩ := Prod.mk.inj (Option.some.inj hcheck)
    simp at hlen
    dsimp only
    omega

theorem length_skipChunk_le (after : Text) (size : Nat) :
    (skipChunk after size).length ≤ after.length := by
  rw [skipChunk]
  cases h : splitBytes after (size+2) with
  | none => exact Nat.zero_le _
  | some p =>
    obtain ⟨hs,-⟩ := splitBytes_eq_some.mp (show splitBytes after (size+2) = some (p.1,p.2) from h)
    rw [hs]
    simp

def decodeChunks (out rest : Text) : Option Text :=
  match _h : nextChunk rest with
  | none => some out
  | some (size,after) =>
    match splitBytes after size with
    | none => none
    | some (piece,_) => decodeChunks (out ++ piece) (skipChunk after size)
termination_by rest.length
decreasing_by exact (length_skipChunk_le after size).trans_lt (nextChunk_shorter _h)

def extractBody (response : Text) : Option Text :=
  match splitOnce (crlf ++ crlf) response with
  | none => some []
  | some (head,body) => if isChunked head then decodeChunks [] body else some body

end WeirdVault.Relay.Http
