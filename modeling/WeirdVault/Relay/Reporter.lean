import WeirdVault.Framework.JsonText
import WeirdVault.Relay.Quota

/-!
# What the relay reports

The queue of connection events (`events.rs`) and the requests of a flush (`reporter.rs`).
-/

namespace WeirdVault.Relay.Reporter

open WeirdVault.Framework
open WeirdVault.Relay.Quota (AccountBytes)

def MAX_QUEUED : Nat := 10000

def MAX_ENTRIES_PER_BATCH : Nat := 500

structure ConnectionEvent where
  kind : String
  subject : String
  targetRef : Option String
  port : UInt16
  bytesUp : Option UInt64
  bytesDown : Option UInt64
  durationMs : Option UInt64
  deriving DecidableEq

structure ConnectionEvents where
  queued : List ConnectionEvent
  dropped : UInt64

namespace ConnectionEvents

def new : ConnectionEvents := ⟨[],0⟩

/-- A full queue loses its oldest event. -/
def push (q : ConnectionEvents) (event : ConnectionEvent) : ConnectionEvents :=
  if MAX_QUEUED ≤ q.queued.length then ⟨q.queued.tail ++ [event],q.dropped+1⟩
  else ⟨q.queued ++ [event],q.dropped⟩

def opened (q : ConnectionEvents) (subject : String) (targetRef : Option String)
    (port : UInt16) : ConnectionEvents :=
  q.push ⟨"connection.opened",subject,targetRef,port,none,none,none⟩

def closed (q : ConnectionEvents) (subject : String) (targetRef : Option String) (port : UInt16)
    (bytesUp bytesDown durationMs : UInt64) : ConnectionEvents :=
  q.push ⟨"connection.closed",subject,targetRef,port,some bytesUp,some bytesDown,some durationMs⟩

def drain (q : ConnectionEvents) : List ConnectionEvent × ConnectionEvents :=
  (q.queued,{ q with queued := [] })

def takeDropped (q : ConnectionEvents) : UInt64 × ConnectionEvents :=
  (q.dropped,{ q with dropped := 0 })

end ConnectionEvents

/-- `skip_serializing_if = "Option::is_none"` -/
def present (name : String) (v : Option Serde.Scalar) : Serde.Fields :=
  v.toList.map fun s => (name,s)

/-- A value's map keeps its keys sorted. -/
def ConnectionEvent.fields (e : ConnectionEvent) : Serde.Fields :=
  present "bytesDown" (e.bytesDown.map fun n => .number n.toNat) ++
    present "bytesUp" (e.bytesUp.map fun n => .number n.toNat) ++
    present "durationMs" (e.durationMs.map fun n => .number n.toNat) ++
    [("kind",.string e.kind),("port",.number e.port.toNat),("subject",.string e.subject)] ++
    present "targetRef" (e.targetRef.map .string)

def entryFields (e : AccountBytes) : Serde.Fields :=
  [("bytesDown",.number e.bytesDown),("bytesUp",.number e.bytesUp),("subject",.string e.account)]

def encodeBatch (entries : List AccountBytes) : Text :=
  Serde.object [("entries",Serde.array (entries.map fun e => Serde.record (entryFields e)))]

def encodeEvents (events : List ConnectionEvent) : Text :=
  Serde.object [("events",Serde.array (events.map fun e => Serde.record e.fields))]

def chunksOf {α : Type} (size : Nat) : Nat → List α → List (List α)
  | 0, _ => []
  | _+1, [] => []
  | n+1, x :: xs => (x :: xs).take size :: chunksOf size n ((x :: xs).drop size)

def chunks {α : Type} (size : Nat) (xs : List α) : List (List α) := chunksOf size xs.length xs

structure Post where
  /-- The header, of which the endpoint sees what follows its name. -/
  authorization : Text
  body : Text
  deriving DecidableEq

def post (secret body : Text) : Post := ⟨"Bearer ".toList ++ secret,body⟩

/-- The requests in the order in which they are sent; no answer changes the next one. -/
def flush (target : Option Text) (batch : List AccountBytes) (events : List ConnectionEvent) :
    List Post :=
  match target with
  | none => []
  | some secret =>
    (chunks MAX_ENTRIES_PER_BATCH events).map (fun chunk => post secret (encodeEvents chunk)) ++
      (chunks MAX_ENTRIES_PER_BATCH batch).map (fun chunk => post secret (encodeBatch chunk))

section Chunks

variable {α : Type} {size : Nat}

private theorem flatten_chunksOf (hsize : 0 < size) {n : Nat} {xs : List α} (h : xs.length ≤ n) :
    (chunksOf size n xs).flatten = xs := by
  induction n generalizing xs with
  | zero =>
    rw [List.length_eq_zero_iff.mp (Nat.le_zero.mp h)]
    rfl
  | succ n ih =>
    cases xs with
    | nil => rfl
    | cons x xs =>
      have hdrop : ((x :: xs).drop size).length ≤ n := by
        rw [List.length_drop]
        rw [List.length_cons] at h ⊢
        omega
      rw [chunksOf,List.flatten_cons,ih hdrop,List.take_append_drop]

theorem flatten_chunks (hsize : 0 < size) (xs : List α) : (chunks size xs).flatten = xs :=
  flatten_chunksOf hsize (Nat.le_refl _)

private theorem length_of_mem_chunksOf {n : Nat} {xs chunk : List α}
    (h : chunk ∈ chunksOf size n xs) : chunk.length ≤ size := by
  induction n generalizing xs with
  | zero => cases h
  | succ n ih =>
    cases xs with
    | nil => cases h
    | cons x xs =>
      rw [chunksOf] at h
      rcases List.mem_cons.mp h with rfl | h
      · exact List.length_take_le _ _
      · exact ih h

theorem length_of_mem_chunks {xs chunk : List α} (h : chunk ∈ chunks size xs) :
    chunk.length ≤ size := length_of_mem_chunksOf h

end Chunks

end WeirdVault.Relay.Reporter
