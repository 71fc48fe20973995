import Mathlib.Data.Rat.Floor
import WeirdVault.Recording.Format

/-! # The capture buffer -/

namespace WeirdVault.Recording

open WeirdVault.Framework

def MAX_CAPTURE_BYTES : ℕ := 4 * 1024 * 1024

def CAST_VERSION : ℚ := 1

/-- `Math.round`: the nearest integer, the upper one between two. -/
def mathRound (x : ℚ) : ℚ := ⌊x + 1 / 2⌋

structure CastBuffer where
  startedAt : ℚ
  initialCols : ℚ
  initialRows : ℚ
  events : List (CastEvent ℚ)
  cols : ℚ
  rows : ℚ
  captured : ℕ
  full : Bool
  lastAt : ℚ
deriving DecidableEq

namespace CastBuffer

def make (cols rows startedAt : ℚ) : CastBuffer :=
  { startedAt, initialCols := cols, initialRows := rows, events := [], cols, rows, captured := 0,
    full := false, lastAt := 0 }

/-- `Math.max(0, Math.round(at), this.lastAt)`; the caller keeps it as the last stamp. -/
def stamp (b : CastBuffer) (time : ℚ) : ℚ := max 0 (max (mathRound time) b.lastAt)

def output (b : CastBuffer) (time : ℚ) (bytes : List UInt8) : Bool × CastBuffer :=
  if b.full || bytes.length = 0 then (false,b)
  else if MAX_CAPTURE_BYTES < b.captured + bytes.length then (false,{ b with full := true })
  else
    let stamped := b.stamp time
    (true,{ b with
      captured := b.captured + bytes.length, lastAt := stamped
      events := b.events ++ [.output stamped bytes] })

def resize (b : CastBuffer) (time cols rows : ℚ) : CastBuffer :=
  if b.full then b
  else if cols = b.cols ∧ rows = b.rows then b
  else
    let stamped := b.stamp time
    { b with
      cols, rows, lastAt := stamped
      events := b.events ++ [.resize stamped cols rows] }

def unlessEmpty (text : Option JsString) : Option JsString := text.filter (· ≠ [])

def toCast (b : CastBuffer) (durationMs : ℚ) (label host : Option JsString) : Cast ℚ where
  header :=
    { v := CAST_VERSION, cols := b.initialCols, rows := b.initialRows, startedAt := b.startedAt
      durationMs := max 0 (max (mathRound durationMs) b.lastAt)
      label := unlessEmpty label, host := unlessEmpty host }
  events := b.events

end CastBuffer

end WeirdVault.Recording
