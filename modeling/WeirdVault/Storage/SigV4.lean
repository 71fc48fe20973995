import Mathlib.Data.Char
import Mathlib.Data.List.Lex
import WeirdVault.Framework.Percent

/-!
# Signature Version 4

What of a request is signed: its canonical form, with the path as it is given and the query encoded
and sorted.
-/

namespace WeirdVault.Storage

open WeirdVault.Framework

def isUnreserved (c : Char) : Bool := c.isAlphanum || ['-','_','.','~'].contains c

def encodeRfc3986 (value : Text) : Text := Percent.encode isUnreserved (encodeText value)

def encodePath (key : Text) : Text :=
  '/' :: ['/'].intercalate ((key.splitOn '/').map encodeRfc3986)

structure Entries where
  list : List (Text × Text)
  nodup : (list.map Prod.fst).Nodup

def canonicalQuery : Option Entries → Text
  | none => []
  | some query =>
    ['&'].intercalate (((query.list.map fun e => (encodeRfc3986 e.1,encodeRfc3986 e.2)).mergeSort
      fun a b => a.1 ≤ b.1).map fun e => e.1 ++ '=' :: e.2)

structure SignableRequest where
  method : Text
  path : Text
  query : Option Entries
  headers : List (Text × Text)
  body : List UInt8

structure Canonical where
  request : Text
  signedHeaders : Text

def toLowerCase (s : Text) : Text := s.map Char.toLower

def toUpperCase (s : Text) : Text := s.map Char.toUpper

def isSpace (c : Char) : Bool :=
  let n := c.toNat
  (9 ≤ n && n ≤ 13) || n == 0x20 || n == 0xA0 || n == 0x1680 || (0x2000 ≤ n && n ≤ 0x200A) ||
    n == 0x2028 || n == 0x2029 || n == 0x202F || n == 0x205F || n == 0x3000 || n == 0xFEFF

def trim (s : Text) : Text := ((s.dropWhile isSpace).reverse.dropWhile isSpace).reverse

def lower (headers : List (Text × Text)) (name : Text) : Text :=
  ((headers.reverse.find? fun h => toLowerCase h.1 = name).map fun h => trim h.2).getD []

def headerNames (headers : List (Text × Text)) : List Text :=
  (headers.map fun h => toLowerCase h.1).mergeSort fun a b => a ≤ b

def canonicalRequest (req : SignableRequest) (payloadHash : Text) : Canonical :=
  let names := headerNames req.headers
  let canonicalHeaders := names.flatMap fun n => n ++ ':' :: lower req.headers n ++ ['\n']
  let signedHeaders := [';'].intercalate names
  { request := ['\n'].intercalate [toUpperCase req.method,req.path,canonicalQuery req.query,
      canonicalHeaders,signedHeaders,payloadHash]
    signedHeaders }

end WeirdVault.Storage
