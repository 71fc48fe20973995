import WeirdVault.Framework.Runs

/-!
# Copying between two hosts

`ChunkBridge` and `copyBetweenHosts`, with what `download`, `downloadTar`, `upload` and `uploadTar` do
at their two ends. The tab runs one piece of code at a time; a step is what runs between two waits.
-/

namespace WeirdVault.Transfers

open WeirdVault.Framework

abbrev Chunk := List UInt8

def highWaterChunks : Nat := 8

def chunkSize : Nat := 262144

/-- What is copied and how: a directory by `tar` on both hosts, a file by SFTP. -/
structure Copy where
  isDir : Bool
  sourcePath : String
  destinationPath : String
  content : List UInt8
  /-- The bytes that the SSH channel holds until they are read. -/
  window : Nat
  windowPos : 0 < window

inductive Source
  | copying
  /-- In `push`; its resolver is in `wakeWriter` until it is woken. -/
  | pushing (woken : Bool)
  | waiting (copyErr : Option String)
  | returned (result : Except String Unit)
  | settled (result : Except String Unit)
  deriving DecidableEq

inductive Destination
  | pulling
  /-- In `next`; its resolver is in `wakeReader` until it is woken. -/
  | awaiting (woken : Bool)
  | writing (chunk : Chunk)
  | waiting (copyErr : Option String)
  | returned (result : Except String Nat)
  | settled (result : Except String Nat)
  deriving DecidableEq

def Source.woken : Source → Source
  | .pushing _ => .pushing true
  | stage => stage

def Destination.woken : Destination → Destination
  | .awaiting _ => .awaiting true
  | stage => stage

structure State where
  queue : List Chunk
  ended : Bool
  failure : Option String
  source : Source
  destination : Destination
  left : List UInt8
  arrived : List UInt8
  command : Option (Except String Unit)
  sinkCommand : Option (Except String Unit)
  moved : Nat
  written : Nat
  /-- What has gone into the queue, and what has come out of it. -/
  pushed : List Chunk
  pulled : List Chunk
  deriving DecidableEq

def start (c : Copy) : State where
  queue := []
  ended := false
  failure := none
  source := .copying
  destination := .pulling
  left := c.content
  arrived := []
  command := none
  sinkCommand := none
  moved := 0
  written := 0
  pushed := []
  pulled := []

namespace State

def wakeReader (s : State) : State := { s with destination := s.destination.woken }

def wakeWriter (s : State) : State := { s with source := s.source.woken }

def wake (s : State) : State := s.wakeReader.wakeWriter

def finish (s : State) : State := { s with ended := true }.wake

def fail (s : State) (error : String) : State := { s with failure := some error }.wake

def copied (c : Copy) (s : State) (copyErr : Option String) : State :=
  if c.isDir then { s with source := .waiting copyErr }
  else match copyErr with
    | some e => { s with source := .returned (.error ("download " ++ c.sourcePath ++ ": " ++ e)) }
    | none => { s with source := .returned (.ok ()) }

def refused (c : Copy) (s : State) (error : String) : State :=
  s.copied c (some ("sink: Error: " ++ error))

def room (c : Copy) (s : State) : State :=
  if highWaterChunks ≤ s.queue.length ∧ s.failure = none ∧ ¬s.ended then
    { s with source := .pushing false }
  else match s.failure with
    | some e => s.refused c e
    | none => { s with source := .copying }

def push (c : Copy) (s : State) (chunk : Chunk) : State :=
  match s.failure with
  | some e => s.refused c e
  | none => ({ s with
      queue := s.queue ++ [chunk]
      pushed := s.pushed ++ [chunk] }.wakeReader).room c

def fed (c : Copy) (s : State) (copyErr : Option String) : State :=
  if c.isDir then { s with destination := .waiting copyErr }
  else match copyErr with
    | some e => { s with
        destination := .returned (.error ("upload " ++ c.destinationPath ++ ": " ++ e)) }
    | none => { s with destination := .returned (.ok s.written) }

def next (c : Copy) (s : State) : State :=
  match s.failure with
  | some e => s.fed c (some ("source: Error: " ++ e))
  | none => match s.queue with
    | chunk :: rest => { s with
        queue := rest
        pulled := s.pulled ++ [chunk]
        destination := .writing chunk }.wakeWriter
    | [] => if s.ended then s.fed c none else { s with destination := .awaiting false }

end State

inductive Action
  | send (bytes : Nat)
  | exit
  | read (bytes : Nat)
  | eof
  | resumePush
  | waited
  | readSettles
  | pull
  | resumePull
  | write
  | sinkExit
  | sinkWaited
  | writeSettles
  | openFails (error : String)
  | createFails (error : String)
  | commandFails (error : String)
  | sinkFails (result : Except String Unit)
  | abort
  deriving DecidableEq

/-- What comes from outside, and nobody can wait for. -/
def Action.outside : Action → Bool
  | .openFails _ => true
  | .createFails _ => true
  | .commandFails _ => true
  | .sinkFails _ => true
  | .abort => true
  | _ => false

def writeError (c : Copy) : Except String Unit → String
  | .error e => if c.isDir then "EOF" else e
  | .ok () => "EOF"

def tarResult {α : Type} (n : α) (copyErr : Option String) : Except String Unit → Except String α
  | .error e => .error ("remote tar failed: " ++ e)
  | .ok () => match copyErr with
    | some e => .error ("stream tar: " ++ e)
    | none => .ok n

/-- What `eof` says: a file that cannot be read is an error, a command that fails only ends. -/
def eofError (c : Copy) : Except String Unit → Option String
  | .error e => if c.isDir then none else some e
  | .ok () => none

/-- A step that is not enabled changes nothing. -/
def step (c : Copy) (s : State) : Action → State
  | .send n =>
    if s.command = none ∧ 0 < n ∧ n ≤ s.left.length ∧ s.arrived.length+n ≤ c.window then
      { s with left := s.left.drop n, arrived := s.arrived ++ s.left.take n } else s
  | .exit => if s.command = none ∧ s.left = [] then { s with command := some (.ok ()) } else s
  | .read n =>
    if s.source = .copying ∧ 0 < n ∧ n ≤ s.arrived.length ∧ n ≤ chunkSize then
      { s with arrived := s.arrived.drop n, moved := s.moved+n }.push c (s.arrived.take n) else s
  | .eof =>
    match s.command with
    | some result => if s.source = .copying ∧ s.arrived = [] then s.copied c (eofError c result) else s
    | none => s
  | .resumePush => if s.source = .pushing true then s.room c else s
  | .waited =>
    match s.source, s.command with
    | .waiting copyErr, some result => { s with source := .returned (tarResult () copyErr result) }
    | _, _ => s
  | .readSettles =>
    match s.source with
    | .returned (.ok ()) => { s with source := .settled (.ok ()) }.finish
    | .returned (.error e) => { s with source := .settled (.error e) }.fail e
    | _ => s
  | .pull => if s.destination = .pulling then s.next c else s
  | .resumePull => if s.destination = .awaiting true then s.next c else s
  | .write =>
    match s.destination, s.sinkCommand with
    | .writing chunk, none =>
      { s with written := s.written+chunk.length, destination := .pulling }
    | .writing _, some result => s.fed c (some (writeError c result))
    | _, _ => s
  | .sinkExit =>
    match s.destination, s.sinkCommand with
    | .waiting _, none => { s with sinkCommand := some (.ok ()) }
    | _, _ => s
  | .sinkWaited =>
    match s.destination, s.sinkCommand with
    | .waiting copyErr, some result =>
      { s with destination := .returned (tarResult s.written copyErr result) }
    | _, _ => s
  | .writeSettles =>
    match s.destination with
    | .returned (.ok n) => { s with destination := .settled (.ok n) }
    | .returned (.error e) => { s with destination := .settled (.error e) }.fail e
    | _ => s
  | .openFails e =>
    if s.source = .copying ∧ s.pushed = [] ∧ s.arrived = [] ∧ s.left = c.content ∧ s.command = none
      then { s with left := [], command := some (.error e), source := .returned (.error e) } else s
  | .createFails e =>
    if s.destination = .pulling ∧ s.pulled = [] ∧ s.sinkCommand = none then
      { s with sinkCommand := some (.error e), destination := .returned (.error e) } else s
  | .commandFails e =>
    if s.command = none then { s with left := [], command := some (.error e) } else s
  | .sinkFails result => if s.sinkCommand = none then { s with sinkCommand := some result } else s
  | .abort => s.fail "cancelled"

def noTar (message : String) : Bool :=
  ["not found","no such file","127"].any fun text =>
    message.toLower.toList.tails.any fun rest => text.toList.isPrefixOf rest

def asError (c : Copy) (message : String) : String :=
  if c.isDir ∧ noTar message then message ++ " — copying a directory between hosts uses tar on both " ++
    "ends, and one of them does not appear to have it."
  else message

/-- What `copyBetweenHosts` returns, once both halves have settled. -/
def outcome (c : Copy) (s : State) : Option (Except String Nat) :=
  match s.source, s.destination with
  | .settled read, .settled write => some (match read, write with
    | .error e, _ => .error (asError c e)
    | .ok (), .error e => .error (asError c e)
    | .ok (), .ok n => .ok n)
  | _, _ => none

end WeirdVault.Transfers
