import Mathlib.Logic.Function.Basic
import WeirdVault.Recording.Buffer

/-! # The recorders of a tab -/

namespace WeirdVault.Recording

open WeirdVault.Framework

inductive EndReason where
  | user
  | cap
  | sessionClosed
deriving DecidableEq

inductive SessionTapEvent where
  | output (bytes : List UInt8)
  | resize (cols rows : ℚ)
  | closed
deriving DecidableEq

structure ActiveRecorder where
  sessionId : String
  label : JsString
  host : JsString
  targetRef : Option String
  deviceId : Option String
  buffer : CastBuffer
  clockBase : ℚ
  endedAt : Option ℚ
  ended : Option EndReason
  saving : Bool
  error : Option String
  retryable : Bool
deriving DecidableEq

/-- A request to save, sent and not yet answered. The number is that of the recorder, in the
order in which recorders were made. -/
structure Saving where
  recorder : ℕ
  cast : Cast ℚ
  targetRef : Option String
  deviceId : Option String
deriving DecidableEq

structure StartRecordingRequest where
  sessionId : String
  label : JsString
  host : JsString
  targetRef : Option String
  deviceId : Option String
  cols : ℚ
  rows : ℚ
deriving DecidableEq

/-- The readings of `performance.now()` in one task: when a recorder's tap is called, when it ends,
and when a save asks for the time of a recorder without an end. -/
structure Clock where
  tapped : ℕ → ℚ
  ended : ℕ → ℚ
  saving : ℕ → ℚ

structure State where
  heap : ℕ → Option ActiveRecorder
  made : ℕ
  recorders : String → Option ℕ
  /-- The sessions of the provider, and the recorders that tap each. -/
  live : String → Bool
  taps : String → List ℕ
  unlocked : Bool
  inFlight : List Saving
  saved : List Saving

def State.start : State where
  heap _ := none
  made := 0
  recorders _ := none
  live _ := false
  taps _ := []
  unlocked := false
  inFlight := []
  saved := []

def lockedMessage : String :=
  "The vault locked before this recording could be encrypted. It is still here, in this tab " ++
  "only — unlock and save it, or a reload will lose it."

namespace ActiveRecorder

def castOver (recorder : ActiveRecorder) (durationMs : ℚ) : Cast ℚ :=
  recorder.buffer.toCast durationMs (some recorder.label) (some recorder.host)

def cast (recorder : ActiveRecorder) (now : ℚ) : Cast ℚ :=
  recorder.castOver (recorder.endedAt.getD now - recorder.clockBase)

def held (recorder : ActiveRecorder) : Option (Cast ℚ) :=
  recorder.endedAt.map fun endedAt => recorder.castOver (endedAt - recorder.clockBase)

end ActiveRecorder

namespace State

def put (s : State) (r : ℕ) (recorder : ActiveRecorder) : State :=
  { s with heap := Function.update s.heap r (some recorder) }

def untap (s : State) (r : ℕ) (sessionId : String) : State :=
  { s with taps := Function.update s.taps sessionId ((s.taps sessionId).filter (· ≠ r)) }

def persist (clock : Clock) (s : State) (r : ℕ) : State :=
  match s.heap r with
  | none => s
  | some recorder =>
    if recorder.saving then s
    else if !s.unlocked then
      s.put r { recorder with error := some lockedMessage, retryable := true }
    else
      { s.put r { recorder with saving := true, error := none, retryable := true } with
        inFlight := s.inFlight ++
          [⟨r,recorder.cast (clock.saving r),recorder.targetRef,recorder.deviceId⟩] }

def finish (clock : Clock) (reason : EndReason) (s : State) (r : ℕ) : State :=
  match s.heap r with
  | none => s
  | some recorder =>
    if recorder.ended.isSome then s
    else
      let recorder := { recorder with ended := some reason, endedAt := some (clock.ended r) }
      let s := (s.put r recorder).untap r recorder.sessionId
      if reason = .user then s else s.persist clock r

def onTap (clock : Clock) (event : SessionTapEvent) (s : State) (r : ℕ) : State :=
  match s.heap r with
  | none => s
  | some recorder =>
    if recorder.ended.isSome then s
    else
      let time := clock.tapped r - recorder.clockBase
      match event with
      | .output bytes =>
        let (kept,buffer) := recorder.buffer.output time bytes
        let s := s.put r { recorder with buffer }
        if !kept && buffer.full then s.finish clock .cap r else s
      | .resize cols rows =>
        s.put r { recorder with buffer := recorder.buffer.resize time cols rows }
      | .closed => s.finish clock .sessionClosed r

def emit (clock : Clock) (event : SessionTapEvent) (s : State) (sessionId : String) : State :=
  if s.live sessionId then (s.taps sessionId).foldl (onTap clock event) s else s

def close (clock : Clock) (s : State) (sessionId : String) : State :=
  let s := s.emit clock .closed sessionId
  { s with
    taps := Function.update s.taps sessionId []
    live := Function.update s.live sessionId false }

/-- The recorder of an accepted request, tapping its session if that is still there. -/
def register (req : StartRecordingRequest) (date clockBase : ℚ) (s : State) : State :=
  { s with
    heap := Function.update s.heap s.made (some
      { sessionId := req.sessionId, label := req.label, host := req.host
        targetRef := req.targetRef, deviceId := req.deviceId
        buffer := .make req.cols req.rows date, clockBase, endedAt := none, ended := none
        saving := false, error := none, retryable := true })
    made := s.made + 1
    taps := if s.live req.sessionId
      then Function.update s.taps req.sessionId (s.taps req.sessionId ++ [s.made])
      else s.taps
    recorders := Function.update s.recorders req.sessionId (some s.made) }

def startRecording (req : StartRecordingRequest) (canRecordNow : Bool) (date clockBase : ℚ)
    (s : State) : Except String State :=
  if (s.recorders req.sessionId).isSome then
    .error "That session is already being recorded."
  else if !s.unlocked then
    .error "The vault is locked, so a recording could not be encrypted."
  else if !canRecordNow then
    .error ("Saving a session recording is a Pro feature, and this account is on Free. " ++
      "Recordings already saved can still be played and downloaded.")
  else .ok (s.register req date clockBase)

def stopRecording (clock : Clock) (s : State) (sessionId : String) : State :=
  match s.recorders sessionId with
  | none => s
  | some r => (s.finish clock .user r).persist clock r

def retrySave (clock : Clock) (s : State) (sessionId : String) : State :=
  match s.recorders sessionId with
  | none => s
  | some r =>
    match s.heap r with
    | none => s
    | some recorder => if recorder.ended.isNone || recorder.saving then s else s.persist clock r

def discardRecording (s : State) (sessionId : String) : State :=
  match s.recorders sessionId with
  | none => s
  | some r =>
    { s.untap r sessionId with recorders := Function.update s.recorders sessionId none }

/-- The rest of `persist` when the save succeeded: the entry of the session goes. -/
def saveSucceeded (s : State) (i : ℕ) : State :=
  match s.inFlight[i]? with
  | none => s
  | some save =>
    match s.heap save.recorder with
    | none => s
    | some recorder =>
      { s with
        recorders := Function.update s.recorders recorder.sessionId none
        inFlight := s.inFlight.eraseIdx i, saved := s.saved ++ [save] }

/-- The rest of `persist` when the save failed, for the plan or otherwise. -/
def saveFailed (s : State) (i : ℕ) (message : String) (plan : Bool) : State :=
  match s.inFlight[i]? with
  | none => s
  | some save =>
    match s.heap save.recorder with
    | none => s
    | some recorder =>
      { s.put save.recorder
          { recorder with saving := false, error := some message, retryable := !plan } with
        inFlight := s.inFlight.eraseIdx i }

end State

inductive Action where
  | opened (sessionId : String)
  | vault (unlocked : Bool)
  | start (req : StartRecordingRequest) (canRecordNow : Bool) (date clockBase : ℚ)
  | output (clock : Clock) (sessionId : String) (bytes : List UInt8)
  | resize (clock : Clock) (sessionId : String) (cols rows : ℚ)
  | closed (clock : Clock) (sessionId : String)
  | stop (clock : Clock) (sessionId : String)
  | retry (clock : Clock) (sessionId : String)
  | discard (sessionId : String)
  | succeeded (i : ℕ)
  | failed (i : ℕ) (message : String) (plan : Bool)

def State.step (s : State) : Action → State
  | .opened sessionId =>
    { s with
      live := Function.update s.live sessionId true
      taps := Function.update s.taps sessionId [] }
  | .vault unlocked => { s with unlocked }
  | .start req canRecordNow date clockBase =>
    match s.startRecording req canRecordNow date clockBase with
    | .ok s' => s'
    | .error _ => s
  | .output clock sessionId bytes => s.emit clock (.output bytes) sessionId
  | .resize clock sessionId cols rows => s.emit clock (.resize cols rows) sessionId
  | .closed clock sessionId => s.close clock sessionId
  | .stop clock sessionId => s.stopRecording clock sessionId
  | .retry clock sessionId => s.retrySave clock sessionId
  | .discard sessionId => s.discardRecording sessionId
  | .succeeded i => s.saveSucceeded i
  | .failed i message plan => s.saveFailed i message plan

end WeirdVault.Recording
