import WeirdVault.Framework.Runs
import WeirdVault.Framework.Table

/-!
# The relay's agents

`Agents`: the registry of control connections, the commands that wait for an answer and the tickets
that wait for a stream. A task of the runtime takes one step between two accesses to a map, a
channel or a socket, and any number of tasks take their steps in any order. `next_conn` is a `u64`
in the source and wraps: a relay is taken to see fewer than 2^64 control connections.
-/

namespace WeirdVault.Relay.Agent

open WeirdVault.Framework

inductive OpenError
  | offline
  | timeout
  deriving DecidableEq

/-- One connected agent. The sender in it is the one of the queue of `conn`. -/
structure Registration where
  agentId : String
  conn : Nat
  account : String
  deriving DecidableEq

structure VerifyResponse where
  ok : Bool
  userId : Option String
  error : Option String
  deriving DecidableEq

inductive Refusal
  | final (message : String)
  | transient (message : String)
  deriving DecidableEq

/-- `Verifier::verify`, from what `post_json` gives and what serde reads in the body. -/
def verify : Except String (Nat × Except String VerifyResponse) → Except Refusal String
  | .error e => .error (.transient ("could not reach the control plane: " ++ e))
  | .ok (status,body) =>
    if ¬(200 ≤ status ∧ status < 300) then
      .error (.transient ("the control plane could not answer (" ++ toString status ++ ")"))
    else match body with
      | .error e => .error (.transient ("unreadable verify response: " ++ e))
      | .ok parsed => match parsed.ok, parsed.userId with
        | true, some user => .ok user
        | _, _ => .error (.final (parsed.error.getD "this agent is not accepted here"))

inductive ControlStage
  | authenticated
  | numbered (conn : Nat)
  | serving (conn : Nat)
  | ended (conn : Nat)
  | returned (conn : Option Nat)
  deriving DecidableEq

def ControlStage.conn? : ControlStage → Option Nat
  | .authenticated => none
  | .numbered conn => some conn
  | .serving conn => some conn
  | .ended conn => some conn
  | .returned conn => conn

structure Connection where
  socket : Nat
  agentId : String
  account : String
  stage : ControlStage
  deriving DecidableEq

structure Registry where
  control : Table Registration.agentId
  nextConn : Nat
  connections : Table Connection.socket
  /-- Every registration so far, newest first. -/
  registered : List Registration

namespace Registry

def setStage (r : Registry) (c : Connection) (stage : ControlStage) : Registry :=
  { r with connections := r.connections.put { c with stage := stage } }

/-- The handshake of a new socket ends with the control plane's answer. -/
def authenticate (r : Registry) (socket : Nat) (agentId : String)
    (answer : Except String (Nat × Except String VerifyResponse)) : Registry :=
  match r.connections.get? socket, verify answer with
  | none, .ok account =>
    { r with connections := r.connections.put ⟨socket,agentId,account,.authenticated⟩ }
  | _, _ => r

def unready (r : Registry) (socket : Nat) : Registry :=
  match r.connections.get? socket with
  | some ⟨t,agentId,account,.authenticated⟩ =>
    r.setStage ⟨t,agentId,account,.authenticated⟩ (.returned none)
  | _ => r

/-- `ready` is sent, and `next_conn.fetch_add`. -/
def number (r : Registry) (socket : Nat) : Registry :=
  match r.connections.get? socket with
  | some ⟨t,agentId,account,.authenticated⟩ =>
    { r with nextConn := r.nextConn+1 }.setStage ⟨t,agentId,account,.authenticated⟩
      (.numbered r.nextConn)
  | _ => r

def register (r : Registry) (socket : Nat) : Registry :=
  match r.connections.get? socket with
  | some ⟨t,agentId,account,.numbered conn⟩ =>
    { r with
      control := r.control.put ⟨agentId,conn,account⟩
      registered := ⟨agentId,conn,account⟩ :: r.registered }.setStage
        ⟨t,agentId,account,.numbered conn⟩ (.serving conn)
  | _ => r

def finish (r : Registry) (socket : Nat) : Registry :=
  match r.connections.get? socket with
  | some ⟨t,agentId,account,.serving conn⟩ =>
    r.setStage ⟨t,agentId,account,.serving conn⟩ (.ended conn)
  | _ => r

def removeIf (r : Registry) (agentId : String) (conn : Nat) : Table Registration.agentId :=
  match r.control.get? agentId with
  | some reg => if reg.conn = conn then r.control.erase agentId else r.control
  | none => r.control

def cleanUp (r : Registry) (socket : Nat) : Registry :=
  match r.connections.get? socket with
  | some ⟨t,agentId,account,.ended conn⟩ =>
    { r with control := r.removeIf agentId conn }.setStage ⟨t,agentId,account,.ended conn⟩
      (.returned (some conn))
  | _ => r

def owner (r : Registry) (agentId : String) : Option String :=
  (r.control.get? agentId).map Registration.account

def commandTx (r : Registry) (account agentId : String) : Except OpenError Nat :=
  match r.control.get? agentId with
  | none => .error .offline
  | some reg => if reg.account ≠ account then .error .offline else .ok reg.conn

def openTx (r : Registry) (agentId : String) : Except OpenError Nat :=
  match r.control.get? agentId with
  | none => .error .offline
  | some reg => .ok reg.conn

def isOnline (r : Registry) (account agentId : String) : Bool :=
  (r.control.get? agentId).any fun reg => reg.account = account

end Registry

/-- `online_for`; each id comes with the registry at the time it is looked up. -/
def onlineFor (account : String) (ids : List (String × Registry)) : List String :=
  (ids.filter fun look => look.2.isOnline account look.1).map Prod.fst

/-- A text for an agent. A command comes with the call that sends it. -/
inductive Message
  | command (call : Nat) (envelope : String)
  | request (ticket : String) (port : Nat)
  deriving DecidableEq

def controlDepth : Nat := 8

structure Queue where
  conn : Nat
  messages : List Message
  writing : Option Message
  closed : Bool
  deriving DecidableEq

inductive Room
  | closed
  | full
  | free
  deriving DecidableEq

def room (queues : Table Queue.conn) (conn : Nat) : Room :=
  match queues.get? conn with
  | none => .closed
  | some q => if q.closed then .closed
    else if q.messages.length < controlDepth then .free else .full

def push (queues : Table Queue.conn) (conn : Nat) (m : Message) : Table Queue.conn :=
  queues.update conn (fun q => { q with messages := q.messages ++ [m] }) (fun _ => rfl)

/-- A frame of a control connection, and its place among all frames the relay has read. -/
structure Reply where
  conn : Nat
  seq : Nat
  text : String
  deriving DecidableEq

inductive CallStage
  | found (conn : Nat)
  | sending (conn : Nat)
  | failing
  | waiting
  /-- The time is over, or the other end of its channel is gone. -/
  | givingUp
  | returned (result : Except OpenError Reply)
  | dropped
  deriving DecidableEq

def CallStage.listening : CallStage → Bool
  | .givingUp => false
  | .returned _ => false
  | .dropped => false
  | _ => true

structure Call where
  task : Nat
  account : String
  agentId : String
  id : String
  envelope : String
  slot : Option Reply
  stage : CallStage
  deriving DecidableEq

structure CommandResult where
  kind : String
  id : String
  deriving DecidableEq

/-- The reader of a connection has taken a waiting sender and not yet used it. -/
structure Held where
  socket : Nat
  call : Nat
  reply : Reply
  deriving DecidableEq

inductive Event
  /-- The envelope of a call is on the socket of a connection. -/
  | handed (call conn : Nat)
  | sent (reply : Reply)
  deriving DecidableEq

structure Commands where
  awaiting : Table (Prod.fst : String × Nat → String)
  calls : Table Call.task
  held : Table Held.socket
  nextSeq : Nat
  /-- What has passed over the control connections, newest first. -/
  log : List Event

namespace Commands

def setStage (s : Commands) (c : Call) (stage : CallStage) : Commands :=
  { s with calls := s.calls.put { c with stage := stage } }

def command (s : Commands) (r : Registry) (task : Nat) (account agentId id envelope : String) :
    Commands :=
  match s.calls.get? task with
  | some _ => s
  | none => match r.commandTx account agentId with
    | .error e => { s with
        calls := s.calls.put ⟨task,account,agentId,id,envelope,none,.returned (.error e)⟩ }
    | .ok conn => { s with
        calls := s.calls.put ⟨task,account,agentId,id,envelope,none,.found conn⟩ }

def insert (s : Commands) (task : Nat) : Commands :=
  match s.calls.get? task with
  | some ⟨t,account,agentId,id,envelope,slot,.found conn⟩ =>
    { s with awaiting := s.awaiting.put (id,t) }.setStage
      ⟨t,account,agentId,id,envelope,slot,.found conn⟩ (.sending conn)
  | _ => s

def withdraw (s : Commands) (task : Nat) : Commands :=
  match s.calls.get? task with
  | some ⟨t,account,agentId,id,envelope,slot,.failing⟩ =>
    { s with awaiting := s.awaiting.erase id }.setStage
      ⟨t,account,agentId,id,envelope,slot,.failing⟩ (.returned (.error .offline))
  | some ⟨t,account,agentId,id,envelope,slot,.givingUp⟩ =>
    { s with awaiting := s.awaiting.erase id }.setStage
      ⟨t,account,agentId,id,envelope,slot,.givingUp⟩ (.returned (.error .timeout))
  | _ => s

def receive (s : Commands) (task : Nat) : Commands :=
  match s.calls.get? task with
  | some ⟨t,account,agentId,id,envelope,some reply,.waiting⟩ =>
    s.setStage ⟨t,account,agentId,id,envelope,some reply,.waiting⟩ (.returned (.ok reply))
  | _ => s

def giveUp (s : Commands) (task : Nat) : Commands :=
  match s.calls.get? task with
  | some ⟨t,account,agentId,id,envelope,slot,.waiting⟩ =>
    s.setStage ⟨t,account,agentId,id,envelope,slot,.waiting⟩ .givingUp
  | _ => s

def cancel (s : Commands) (task : Nat) : Commands :=
  match s.calls.get? task with
  | some ⟨_,_,_,_,_,_,.returned _⟩ => s
  | some c => s.setStage c .dropped
  | none => s

def read (s : Commands) (socket conn : Nat) (text : String) (parsed : Option CommandResult) :
    Commands :=
  let reply : Reply := ⟨conn,s.nextSeq,text⟩
  let seen := { s with nextSeq := s.nextSeq+1, log := .sent reply :: s.log }
  match parsed with
  | none => seen
  | some result =>
    if result.kind = "result" then
      match s.awaiting.get? result.id with
      | some (_,call) => { seen with
          awaiting := s.awaiting.erase result.id
          held := s.held.put ⟨socket,call,reply⟩ }
      | none => seen
    else seen

def deliver (s : Commands) (socket : Nat) : Commands :=
  match s.held.get? socket with
  | none => s
  | some h =>
    let sent := { s with held := s.held.erase socket }
    match s.calls.get? h.call with
    | some c => if c.stage.listening then
        { sent with calls := s.calls.put { c with slot := some h.reply } } else sent
    | none => sent

end Commands

inductive OpenStage
  | found (conn : Nat)
  | requesting (conn : Nat)
  | failing
  | waiting
  | elapsed
  | expired
  | returned (result : Except OpenError Nat)
  deriving DecidableEq

def OpenStage.listening : OpenStage → Bool
  | .expired => false
  | .returned _ => false
  | _ => true

structure Opening where
  task : Nat
  agentId : String
  port : Nat
  ticket : Option String
  slot : Option Nat
  stage : OpenStage
  deriving DecidableEq

inductive StreamStage
  | claimed
  | answered (accepted : Bool)
  deriving DecidableEq

/-- A socket that came with a ticket, and the call whose sender it found. -/
structure Stream where
  socket : Nat
  ticket : String
  call : Option Nat
  stage : StreamStage
  deriving DecidableEq

structure Tickets where
  pending : Table (Prod.fst : String × Nat → String)
  openings : Table Opening.task
  streams : Table Stream.socket
  minted : List String

namespace Tickets

def setStage (s : Tickets) (o : Opening) (stage : OpenStage) : Tickets :=
  { s with openings := s.openings.put { o with stage := stage } }

def begin (s : Tickets) (r : Registry) (task : Nat) (agentId : String) (port : Nat) : Tickets :=
  match s.openings.get? task with
  | some _ => s
  | none => match r.openTx agentId with
    | .error e => { s with
        openings := s.openings.put ⟨task,agentId,port,none,none,.returned (.error e)⟩ }
    | .ok conn => { s with
        openings := s.openings.put ⟨task,agentId,port,none,none,.found conn⟩ }

def mint (s : Tickets) (task : Nat) (ticket : String) : Tickets :=
  match s.openings.get? task with
  | some ⟨t,agentId,port,_,slot,.found conn⟩ => { s with
      pending := s.pending.put (ticket,t)
      openings := s.openings.put ⟨t,agentId,port,some ticket,slot,.requesting conn⟩
      minted := ticket :: s.minted }
  | _ => s

def discard (s : Tickets) (task : Nat) : Tickets :=
  match s.openings.get? task with
  | some ⟨t,agentId,port,some ticket,slot,.failing⟩ =>
    { s with pending := s.pending.erase ticket }.setStage
      ⟨t,agentId,port,some ticket,slot,.failing⟩ (.returned (.error .offline))
  | some ⟨t,agentId,port,some ticket,slot,.expired⟩ =>
    { s with pending := s.pending.erase ticket }.setStage
      ⟨t,agentId,port,some ticket,slot,.expired⟩ (.returned (.error .timeout))
  | _ => s

def collect (s : Tickets) (task : Nat) : Tickets :=
  match s.openings.get? task with
  | some ⟨t,agentId,port,ticket,some socket,.waiting⟩ =>
    s.setStage ⟨t,agentId,port,ticket,some socket,.waiting⟩ (.returned (.ok socket))
  | _ => s

def elapse (s : Tickets) (task : Nat) : Tickets :=
  match s.openings.get? task with
  | some ⟨t,agentId,port,ticket,slot,.waiting⟩ =>
    s.setStage ⟨t,agentId,port,ticket,slot,.waiting⟩ .elapsed
  | _ => s

def expire (s : Tickets) (task : Nat) : Tickets :=
  match s.openings.get? task with
  | some ⟨t,agentId,port,ticket,slot,.elapsed⟩ =>
    s.setStage ⟨t,agentId,port,ticket,slot,.elapsed⟩ .expired
  | _ => s

def hungUp (s : Tickets) (task : Nat) (ticket : String) : Bool :=
  s.pending.get? ticket ≠ some (ticket,task) ∧
    ∀ stream ∈ s.streams.rows, stream.call = some task → stream.stage ≠ .claimed

def hangUp (s : Tickets) (task : Nat) : Tickets :=
  match s.openings.get? task with
  | some ⟨t,agentId,port,some ticket,none,.waiting⟩ =>
    if s.hungUp t ticket then
      s.setStage ⟨t,agentId,port,some ticket,none,.waiting⟩ (.returned (.error .timeout))
    else s
  | _ => s

def acceptStream (s : Tickets) (socket : Nat) (ticket : String) : Tickets :=
  match s.streams.get? socket with
  | some _ => s
  | none => match s.pending.get? ticket with
    | some (_,task) => { s with
        pending := s.pending.erase ticket
        streams := s.streams.put ⟨socket,ticket,some task,.claimed⟩ }
    | none => { s with streams := s.streams.put ⟨socket,ticket,none,.answered false⟩ }

def send (s : Tickets) (socket : Nat) : Tickets :=
  match s.streams.get? socket with
  | some ⟨t,ticket,some task,.claimed⟩ =>
    match s.openings.get? task with
    | some o => if o.stage.listening then { s with
          openings := s.openings.put { o with slot := some t }
          streams := s.streams.put ⟨t,ticket,some task,.answered true⟩ }
        else { s with streams := s.streams.put ⟨t,ticket,some task,.answered false⟩ }
    | none => s
  | _ => s

end Tickets

structure Agents where
  registry : Registry
  queues : Table Queue.conn
  commands : Commands
  tickets : Tickets

def start : Agents where
  registry := ⟨Table.empty _,0,Table.empty _,[]⟩
  queues := Table.empty _
  commands := ⟨Table.empty _,Table.empty _,Table.empty _,0,[]⟩
  tickets := ⟨Table.empty _,Table.empty _,Table.empty _,[]⟩

namespace Agents

def number (s : Agents) (socket : Nat) : Agents :=
  match s.registry.connections.get? socket with
  | some ⟨_,_,_,.authenticated⟩ => { s with
      registry := s.registry.number socket
      queues := s.queues.put ⟨s.registry.nextConn,[],none,false⟩ }
  | _ => s

/-- Its receiver goes with the writer. A reader does not stop while it has a sender in hand. -/
def finish (s : Agents) (socket : Nat) : Agents :=
  match s.registry.connections.get? socket, s.commands.held.get? socket with
  | some ⟨_,_,_,.serving conn⟩, none => { s with
      registry := s.registry.finish socket
      queues := s.queues.put ⟨conn,[],none,true⟩ }
  | _, _ => s

/-- `tx.send(envelope)`, which waits while the queue is full. -/
def send (s : Agents) (task : Nat) : Agents :=
  match s.commands.calls.get? task with
  | some ⟨t,account,agentId,id,envelope,slot,.sending conn⟩ =>
    let c : Call := ⟨t,account,agentId,id,envelope,slot,.sending conn⟩
    match room s.queues conn with
    | .closed => { s with commands := s.commands.setStage c .failing }
    | .full => s
    | .free => { s with
        queues := push s.queues conn (.command t envelope)
        commands := s.commands.setStage c .waiting }
  | _ => s

def request (s : Agents) (task : Nat) : Agents :=
  match s.tickets.openings.get? task with
  | some ⟨t,agentId,port,some ticket,slot,.requesting conn⟩ =>
    let o : Opening := ⟨t,agentId,port,some ticket,slot,.requesting conn⟩
    match room s.queues conn with
    | .free => { s with
        queues := push s.queues conn (.request ticket port)
        tickets := s.tickets.setStage o .waiting }
    | _ => { s with tickets := s.tickets.setStage o .failing }
  | _ => s

def take (s : Agents) (conn : Nat) : Agents :=
  match s.queues.get? conn with
  | some ⟨n,m :: ms,none,closed⟩ => { s with queues := s.queues.put ⟨n,ms,some m,closed⟩ }
  | _ => s

def written (s : Agents) (conn : Nat) : Agents :=
  match s.queues.get? conn with
  | some ⟨n,ms,some (.command call _),closed⟩ => { s with
      queues := s.queues.put ⟨n,ms,none,closed⟩
      commands := { s.commands with log := .handed call n :: s.commands.log } }
  | some ⟨n,ms,some (.request _ _),closed⟩ => { s with queues := s.queues.put ⟨n,ms,none,closed⟩ }
  | _ => s

def read (s : Agents) (socket : Nat) (text : String) (parsed : Option CommandResult) : Agents :=
  match s.registry.connections.get? socket, s.commands.held.get? socket with
  | some ⟨_,_,_,.serving conn⟩, none => { s with
      commands := s.commands.read socket conn text parsed }
  | _, _ => s

variable (s : Agents)

@[simp] theorem number_registry (socket : Nat) :
    (s.number socket).registry = s.registry.number socket := by
  unfold number Registry.number
  split <;> simp_all

@[simp] theorem send_registry (task : Nat) : (s.send task).registry = s.registry := by
  unfold send
  split
  · dsimp only
    split <;> rfl
  · rfl

@[simp] theorem request_registry (task : Nat) : (s.request task).registry = s.registry := by
  unfold request
  split
  · dsimp only
    split <;> rfl
  · rfl

@[simp] theorem take_registry (conn : Nat) : (s.take conn).registry = s.registry := by
  unfold take
  split <;> rfl

@[simp] theorem written_registry (conn : Nat) : (s.written conn).registry = s.registry := by
  unfold written
  split <;> rfl

@[simp] theorem read_registry (socket : Nat) (text : String) (parsed : Option CommandResult) :
    (s.read socket text parsed).registry = s.registry := by
  unfold read
  split <;> rfl

end Agents

inductive Action
  | authenticate (socket : Nat) (agentId : String)
      (answer : Except String (Nat × Except String VerifyResponse))
  | unready (socket : Nat)
  | number (socket : Nat)
  | register (socket : Nat)
  | finish (socket : Nat)
  | cleanUp (socket : Nat)
  | take (conn : Nat)
  | written (conn : Nat)
  | read (socket : Nat) (text : String) (parsed : Option CommandResult)
  | deliver (socket : Nat)
  | command (task : Nat) (account agentId id envelope : String)
  | insert (task : Nat)
  | send (task : Nat)
  | withdraw (task : Nat)
  | receive (task : Nat)
  | giveUp (task : Nat)
  | cancel (task : Nat)
  | openStream (task : Nat) (agentId : String) (port : Nat)
  | mint (task : Nat) (ticket : String)
  | request (task : Nat)
  | discard (task : Nat)
  | collect (task : Nat)
  | elapse (task : Nat)
  | expire (task : Nat)
  | hangUp (task : Nat)
  | acceptStream (socket : Nat) (ticket : String)
  | sendStream (socket : Nat)

/-- A step that is not enabled changes nothing. -/
def step (s : Agents) : Action → Agents
  | .authenticate socket agentId answer =>
    { s with registry := s.registry.authenticate socket agentId answer }
  | .unready socket => { s with registry := s.registry.unready socket }
  | .number socket => s.number socket
  | .register socket => { s with registry := s.registry.register socket }
  | .finish socket => s.finish socket
  | .cleanUp socket => { s with registry := s.registry.cleanUp socket }
  | .take conn => s.take conn
  | .written conn => s.written conn
  | .read socket text parsed => s.read socket text parsed
  | .deliver socket => { s with commands := s.commands.deliver socket }
  | .command task account agentId id envelope =>
    { s with commands := s.commands.command s.registry task account agentId id envelope }
  | .insert task => { s with commands := s.commands.insert task }
  | .send task => s.send task
  | .withdraw task => { s with commands := s.commands.withdraw task }
  | .receive task => { s with commands := s.commands.receive task }
  | .giveUp task => { s with commands := s.commands.giveUp task }
  | .cancel task => { s with commands := s.commands.cancel task }
  | .openStream task agentId port =>
    { s with tickets := s.tickets.begin s.registry task agentId port }
  | .mint task ticket => { s with tickets := s.tickets.mint task ticket }
  | .request task => s.request task
  | .discard task => { s with tickets := s.tickets.discard task }
  | .collect task => { s with tickets := s.tickets.collect task }
  | .elapse task => { s with tickets := s.tickets.elapse task }
  | .expire task => { s with tickets := s.tickets.expire task }
  | .hangUp task => { s with tickets := s.tickets.hangUp task }
  | .acceptStream socket ticket => { s with tickets := s.tickets.acceptStream socket ticket }
  | .sendStream socket => { s with tickets := s.tickets.send socket }

end WeirdVault.Relay.Agent
