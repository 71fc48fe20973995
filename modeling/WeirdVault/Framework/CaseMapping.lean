import WeirdVault.Framework.TextEncoder

/-! # Upper case, one code point after the other -/

namespace WeirdVault.Framework

def spaces : List UInt16 :=
  [0x9,0xA,0xB,0xC,0xD,0x20,0xA0,0x1680,0x2000,0x2001,0x2002,0x2003,0x2004,0x2005,0x2006,0x2007,
    0x2008,0x2009,0x200A,0x2028,0x2029,0x202F,0x205F,0x3000,0xFEFF]

/-- The characters of the Unicode property Dash that are one unit each. -/
def dashes : List UInt16 :=
  [0x2D,0x58A,0x5BE,0x1400,0x1806,0x2010,0x2011,0x2012,0x2013,0x2014,0x2015,0x2053,0x207B,0x208B,
    0x2212,0x2E17,0x2E1A,0x2E3A,0x2E3B,0x2E40,0x2E5D,0x301C,0x3030,0x30A0,0xFE31,0xFE32,0xFE58,
    0xFE63,0xFF0D]

def isSeparator (u : UInt16) : Bool := spaces.contains u || dashes.contains u

def asciiUpper (u : UInt16) : UInt16 := if 97 ≤ u && u ≤ 122 then u-32 else u

/-- The tables of an engine: what a code point becomes, which may be several characters. -/
structure CaseMapping where
  upper : Nat → JsString
  ascii : ∀ u : UInt16, u < 128 → upper u.toNat = [asciiUpper u]
  separator : ∀ u : UInt16, isSeparator u → upper u.toNat = [u]

namespace CaseMapping

def toUpperCase (U : CaseMapping) : JsString → JsString
  | [] => []
  | [u] => U.upper u.toNat
  | u :: v :: rest =>
    if isLeadSurrogate u && isTrailSurrogate v then
      U.upper (TextEncoder.paired u v) ++ toUpperCase U rest
    else U.upper u.toNat ++ toUpperCase U (v :: rest)

theorem toUpperCase_cons (U : CaseMapping) {u : UInt16} (hu : isLeadSurrogate u = false)
    (s : JsString) : U.toUpperCase (u :: s) = U.upper u.toNat ++ U.toUpperCase s := by
  cases s with
  | nil => simp [toUpperCase]
  | cons v rest => simp [toUpperCase,hu]

end CaseMapping

end WeirdVault.Framework
