import WeirdVault.Agent.Supervisor

/-!
# Restarts and upgrades from the dashboard

`busyIdentities`, the two process-wide branches of `runCommand` and `restartProcess`, with the
streams that are spliced to sshd in the meantime.
-/

namespace WeirdVault.Agent.Restart

open WeirdVault.Framework

inductive Kind
  | restart
  | upgrade
  deriving DecidableEq

/-- The fields of an `identitySnapshot` that a refusal reads. -/
structure Snapshot where
  name : String
  sessions : Nat
  deriving DecidableEq

inductive Stage
  /-- `busyIdentities`: the identities whose counters are still to be read, and what was found. -/
  | checking (left : List Nat) (busy : List Snapshot)
  | updating
  /-- `restartProcess` has been called; `reexec` comes `restartGrace` later. -/
  | replacing
  deriving DecidableEq

structure Command where
  id : Nat
  kind : Kind
  stage : Stage
  deriving DecidableEq

inductive Outcome
  | refused (busy : List Snapshot)
  | noReleaseURL
  | upToDate
  | restarting
  deriving DecidableEq

structure Answer where
  kind : Kind
  outcome : Outcome
  /-- The identities with a stream being spliced when the answer was given. -/
  carrying : List String

structure Machine where
  sup : Supervisor
  /-- The identity of each stream between `sessionOpened` and `sessionClosed`. -/
  streams : List Nat
  commands : Table Command.id
  next : Nat
  answers : List Answer
  /-- For each replacement of the process image, the streams that it cut. -/
  replacements : List (List Nat)

def boot : Machine := ⟨newSupervisor,[],Table.empty _,0,[],[]⟩

def describeSessions (n : Nat) : String :=
  if n = 1 then "1 session" else toString n ++ " sessions"

def describe (snap : Snapshot) : String :=
  snap.name ++ " has " ++ describeSessions snap.sessions ++ " open"

def join (parts : List String) : String :=
  String.ofList (", ".toList.intercalate (parts.map String.toList))

def describeBusy (busy : List Snapshot) : String :=
  join (busy.map describe) ++ ". Close them, or wait, and try again"

def Answer.detail (a : Answer) : Except String String :=
  match a.outcome, a.kind with
  | .refused busy, .restart => .error ("not restarting: " ++ describeBusy busy)
  | .refused busy, .upgrade => .error ("not upgrading: " ++ describeBusy busy)
  | .noReleaseURL, _ => .error ("this identity has no release URL, so there is nowhere to " ++
      "upgrade from — re-enrol to enable updates")
  | .upToDate, _ => .ok "already running the published build"
  | .restarting, .restart => .ok "restarting"
  | .restarting, .upgrade => .ok "upgraded, restarting"

def Loop.sessionOpened (l : Loop) : Loop := { l with sessions := l.sessions+1 }

def Loop.sessionClosed (l : Loop) : Loop := { l with sessions := l.sessions-1 }

theorem sessionOpened_id (l : Loop) : (Loop.sessionOpened l).id = l.id := rfl

theorem sessionClosed_id (l : Loop) : (Loop.sessionClosed l).id = l.id := rfl

namespace Machine

def nameOf (m : Machine) (id : Nat) : String :=
  match m.sup.loops.get? id with
  | some l => l.name
  | none => ""

def answer (m : Machine) (c : Command) (outcome : Outcome) : Machine :=
  { m with answers := ⟨c.kind,outcome,m.streams.map m.nameOf⟩ :: m.answers }

def setStage (m : Machine) (c : Command) (stage : Stage) : Machine :=
  { m with commands := m.commands.put { c with stage := stage } }

def endCommand (m : Machine) (c : Command) : Machine :=
  { m with commands := m.commands.erase c.id }

def check (m : Machine) (c : Command) (left : List Nat) (busy : List Snapshot) (id : Nat) :
    Machine :=
  let left := left.filter (· ≠ id)
  match m.sup.loops.get? id with
  | none => m.setStage c (.checking left busy)
  | some l => if l.sessions > 0 then
      m.setStage c (.checking left (busy ++ [⟨l.name,l.sessions⟩]))
    else m.setStage c (.checking left busy)

def checked (m : Machine) (c : Command) (busy : List Snapshot) : Machine :=
  match busy, c.kind with
  | [], .restart => (m.answer c .restarting).setStage c .replacing
  | [], .upgrade => m.setStage c .updating
  | _, _ => (m.answer c (.refused busy)).endCommand c

end Machine

inductive Action
  | supervise (a : Supervisor.Action)
  | opened (id : Nat)
  | closed (id : Nat)
  /-- The command arrives at the loop, and `snapshot` lists the identities in `live`. -/
  | command (id : Nat) (kind : Kind)
  | check (command id : Nat)
  | checked (command : Nat)
  /-- The end of an upgrade's `selfUpdate`, or of what is checked before it. -/
  | updated (command : Nat) (outcome : Outcome)
  | replace (command : Nat) (works : Bool)

def step (m : Machine) : Action → Machine
  | .supervise a => { m with sup := m.sup.step a }
  | .opened id =>
    if (m.sup.loops.get? id).isSome then
      { m with
        sup := m.sup.updateLoop id Loop.sessionOpened sessionOpened_id
        streams := id :: m.streams }
    else m
  | .closed id =>
    if id ∈ m.streams then
      { m with
        sup := m.sup.updateLoop id Loop.sessionClosed sessionClosed_id
        streams := m.streams.erase id }
    else m
  | .command id kind =>
    if (m.sup.loops.get? id).any (fun l => l.phase == .serving) then
      { m with
        commands := m.commands.put ⟨m.next,kind,.checking (m.sup.live.rows.map Prod.snd) []⟩
        next := m.next+1 }
    else m
  | .check command id =>
    match m.commands.get? command with
    | some ⟨i,kind,.checking left busy⟩ => if id ∈ left then
        m.check ⟨i,kind,.checking left busy⟩ left busy id else m
    | _ => m
  | .checked command =>
    match m.commands.get? command with
    | some ⟨i,kind,.checking [] busy⟩ => m.checked ⟨i,kind,.checking [] busy⟩ busy
    | _ => m
  | .updated command outcome =>
    match m.commands.get? command, outcome with
    | some ⟨i,kind,.updating⟩, .restarting =>
      (m.answer ⟨i,kind,.updating⟩ .restarting).setStage ⟨i,kind,.updating⟩ .replacing
    | some ⟨i,kind,.updating⟩, .noReleaseURL =>
      (m.answer ⟨i,kind,.updating⟩ .noReleaseURL).endCommand ⟨i,kind,.updating⟩
    | some ⟨i,kind,.updating⟩, .upToDate =>
      (m.answer ⟨i,kind,.updating⟩ .upToDate).endCommand ⟨i,kind,.updating⟩
    | _, _ => m
  | .replace command works =>
    match m.commands.get? command with
    | some ⟨i,kind,.replacing⟩ =>
      if works then { boot with
        answers := m.answers
        replacements := m.streams :: m.replacements }
      else m.endCommand ⟨i,kind,.replacing⟩
    | _ => m

end WeirdVault.Agent.Restart
