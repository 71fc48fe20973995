/-! # Strings as sequences of UTF-16 code units -/

namespace WeirdVault.Framework

abbrev JsString := List UInt16

def charUnits (c : Char) : JsString :=
  if c.toNat < 0x10000 then [c.toNat.toUInt16]
  else [(0xD800 + (c.toNat - 0x10000) / 0x400).toUInt16,(0xDC00 + (c.toNat - 0x10000) % 0x400).toUInt16]

def utf16 (s : String) : JsString := s.toList.flatMap charUnits

def isLeadSurrogate (u : UInt16) : Bool := 0xD800 ≤ u && u ≤ 0xDBFF

def isTrailSurrogate (u : UInt16) : Bool := 0xDC00 ≤ u && u ≤ 0xDFFF

end WeirdVault.Framework
