import Mathlib.Data.Rat.Defs
import WeirdVault.Framework.JsString

/-!
# JSON values

What `JSON.parse` returns, and `JSON.stringify` of it. How a number is written is open; an object
is the list of its properties in the order in which they are enumerated.
-/

namespace WeirdVault.Framework

/-- A number that JSON can denote; a literal beyond the doubles is infinite. -/
inductive JsNumber
  | finite (q : ℚ)
  | infinity (negative : Bool)
  deriving DecidableEq

inductive Json
  | null
  | bool (b : Bool)
  | number (n : JsNumber)
  | string (s : JsString)
  | array (items : List Json)
  | object (members : List (JsString × Json))

abbrev Members := List (JsString × Json)

namespace Json

/-- `typeof v === "object"` of what is not null. -/
def isObject : Json → Bool
  | .array _ => true
  | .object _ => true
  | _ => false

def hexDigit (n : Nat) : UInt16 :=
  if n < 10 then (0x30 + n).toUInt16 else (0x57 + n).toUInt16

def unicodeEscape (u : UInt16) : JsString :=
  utf16 "\\u" ++ [hexDigit (u.toNat / 4096),hexDigit (u.toNat / 256 % 16),
    hexDigit (u.toNat / 16 % 16),hexDigit (u.toNat % 16)]

def quoteUnit (u : UInt16) : JsString :=
  if u = 0x22 then utf16 "\\\""
  else if u = 0x5C then utf16 "\\\\"
  else if u = 0x08 then utf16 "\\b"
  else if u = 0x0C then utf16 "\\f"
  else if u = 0x0A then utf16 "\\n"
  else if u = 0x0D then utf16 "\\r"
  else if u = 0x09 then utf16 "\\t"
  else if u < 0x20 || isLeadSurrogate u || isTrailSurrogate u then unicodeEscape u
  else [u]

def quoteUnits : JsString → JsString
  | [] => []
  | [u] => quoteUnit u
  | u :: v :: rest =>
    if isLeadSurrogate u && isTrailSurrogate v then u :: v :: quoteUnits rest
    else quoteUnit u ++ quoteUnits (v :: rest)

def quote (s : JsString) : JsString := utf16 "\"" ++ quoteUnits s ++ utf16 "\""

variable (numberText : ℚ → JsString)

mutual

def stringify : Json → JsString
  | .null => utf16 "null"
  | .bool b => utf16 (if b then "true" else "false")
  | .number (.finite q) => numberText q
  | .number (.infinity _) => utf16 "null"
  | .string s => quote s
  | .array items => utf16 "[" ++ stringifyItems items ++ utf16 "]"
  | .object members => utf16 "\x7b" ++ stringifyMembers members ++ utf16 "\x7d"

def stringifyItems : List Json → JsString
  | [] => []
  | [item] => stringify item
  | item :: next :: rest => stringify item ++ utf16 "," ++ stringifyItems (next :: rest)

def stringifyMembers : Members → JsString
  | [] => []
  | [(key,value)] => quote key ++ utf16 ":" ++ stringify value
  | (key,value) :: next :: rest =>
    quote key ++ utf16 ":" ++ stringify value ++ utf16 "," ++ stringifyMembers (next :: rest)

end

end Json

end WeirdVault.Framework
