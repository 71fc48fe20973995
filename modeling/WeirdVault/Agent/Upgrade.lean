import WeirdVault.Agent.Restart
import WeirdVault.Framework.Recorded

/-!
# Self-update

`selfUpdate` and `replaceSelf`, as the agent calls them when it starts and when it is asked to
upgrade, and the process image with the environment marker that every re-exec leaves in it.
-/

namespace WeirdVault.Agent.Upgrade

open WeirdVault.Framework Program

abbrev Bytes := List UInt8

structure Binary where
  file : String
  sha256 : String
  deriving DecidableEq, Repr

structure ReleaseManifest where
  version : String
  binaries : List (String × Binary)
  deriving DecidableEq, Repr

structure Url where
  scheme : String
  hostname : String
  host : String
  deriving DecidableEq, Repr

/-- What a build is for, and what the standard library computes. -/
structure Platform where
  target : String
  version : Bytes → String
  parse : String → Except String Url
  unmarshal : Bytes → Except String ReleaseManifest
  sha256 : Bytes → String
  dir : String → String

inductive Call
  | get (url : String)
  | executable
  | evalSymlinks (path : String)
  | createTemp (dir : String)
  | write (file : String) (bytes : Bytes)
  | chmod (file : String)
  | close (file : String)
  | preserveOwner (existing replacement : String)
  | rename (file path : String)
  deriving DecidableEq

abbrev Call.Out : Call → Type
  | .get _ => Bytes
  | .executable | .evalSymlinks _ | .createTemp _ => String
  | _ => Unit

inductive Request
  | getenv
  | log (line : String)
  | restartProcess
  | call (c : Call)
  deriving DecidableEq

abbrev Request.Ans : Request → Type
  | .getenv => String
  | .log _ | .restartProcess => Unit
  | .call c => Except String c.Out

abbrev Prog := Program Request.Ans String

abbrev Heard := Transcript Request.Ans

def required (c : Call) : Prog c.Out :=
  (request (Request.call c)).bind (fun answer =>
    match answer with
    | .ok x => done x
    | .error e => fail e)

def getenv : Prog String := request Request.getenv

def log (line : String) : Prog Unit := request (Request.log line)

def get (url : String) : Prog (Except String Bytes) := request (Request.call (.get url))

def restartProcess : Prog Unit := request Request.restartProcess

def attempt {α : Type} (p : Prog α) : Prog (Except String α) :=
  (p.bind (fun x => done (.ok x))).handle (fun e => done (.error e))

def isLoopback (host : String) : Bool :=
  host == "localhost" || host == "127.0.0.1" || host == "::1"

def trimRight (s : String) : String :=
  String.ofList (s.toList.reverse.dropWhile (· == '/')).reverse

def equalFold (a b : String) : Bool := a.toList.map Char.toLower == b.toList.map Char.toLower

variable (P : Platform)

def releaseBase (raw : String) : Except String String :=
  match P.parse raw with
  | .error e => .error ("release URL is unparseable: " ++ e)
  | .ok u =>
    if u.scheme == "http" && !isLoopback u.hostname then
      .error ("refusing to self-update over plaintext http from " ++ u.host)
    else if u.scheme != "http" && u.scheme != "https" then
      .error ("release URL must be http or https, got " ++ u.scheme.quote)
    else .ok (trimRight raw)

def fetchManifest (base : String) : Prog ReleaseManifest :=
  (get (base ++ "/manifest.json")).bind (fun body =>
    match body with
    | .error e => fail ("could not read the release manifest: " ++ e)
    | .ok bytes =>
      match P.unmarshal bytes with
      | .error e => fail ("release manifest is not readable: " ++ e)
      | .ok m => done m)

/-- The part of `replaceSelf` that writes; what `defer os.Remove` removes is not read again. -/
def swap (path : String) (binary : Bytes) : Prog Unit := do
  match ← attempt (required (.createTemp (P.dir path))) with
  | .error e => throw ("cannot write to " ++ P.dir path ++ ": " ++ e)
  | .ok tmp =>
    required (.write tmp binary)
    required (.chmod tmp)
    required (.close tmp)
    required (.preserveOwner path tmp)
    required (.rename tmp path)

def replaceSelf (base file wantSHA : String) : Prog Unit := do
  let exe ← required .executable
  let path ← required (.evalSymlinks exe)
  let binary ← required (.get (base ++ "/" ++ file))
  if !equalFold (P.sha256 binary) wantSHA then
    throw ("checksum mismatch: manifest says " ++ wantSHA ++ ", download is " ++ P.sha256 binary)
  swap P path binary

/-- `version` is the constant of the running build. -/
def selfUpdate (version releaseURL : String) : Prog Bool := do
  let marker ← getenv
  if marker != "" then return false
  if releaseURL == "" then
    log "self-update: not configured for this agent (re-enrol to enable)"
    return false
  match releaseBase P releaseURL with
  | .error e =>
    log ("self-update: " ++ e)
    return false
  | .ok base =>
    match ← attempt (fetchManifest P base) with
    | .error e =>
      log ("self-update: " ++ e)
      return false
    | .ok manifest =>
      if manifest.version == "" || manifest.version == version then return false
      match manifest.binaries.lookup P.target with
      | none =>
        log ("self-update: " ++ base ++ " publishes no build for " ++ P.target)
        return false
      | some entry =>
        log ("self-update: " ++ version ++ " -> " ++ manifest.version)
        match ← attempt (replaceSelf P base entry.file entry.sha256) with
        | .error e =>
          log ("self-update failed, continuing on " ++ version ++ ": " ++ e)
          return false
        | .ok () =>
          log ("self-update: installed " ++ manifest.version ++ ", restarting")
          return true

def runRestart (busy : List Restart.Snapshot) : Prog String := do
  if !busy.isEmpty then throw ("not restarting: " ++ Restart.describeBusy busy)
  restartProcess
  return "restarting"

def alreadyRunning : String := "already running the published build"

def upgraded : String := "upgraded, restarting"

def runUpgrade (busy : List Restart.Snapshot) (version releaseURL : String) : Prog String := do
  if !busy.isEmpty then throw ("not upgrading: " ++ Restart.describeBusy busy)
  if releaseURL == "" then
    throw ("this identity has no release URL, so there is nowhere to upgrade from — re-enrol to " ++
      "enable updates")
  if !(← selfUpdate P version releaseURL) then return alreadyRunning
  restartProcess
  return upgraded

/-- How the release server and the operating system answer during one command. -/
abbrev World := (c : Call) → Except String c.Out

structure Answer where
  releaseURL : String
  running : Bytes
  heard : Heard
  installed : Bytes
  detail : Except String String

/-- The build of the process image, the binary on disk, the temporary file next to it, whether the
environment has the marker, and whether a re-exec is due. -/
structure Machine where
  running : Bytes
  disk : Bytes
  temp : Bytes
  marker : Bool
  due : Bool
  answers : List Answer

def fresh (disk : Bytes) : Machine := ⟨disk,disk,[],false,false,[]⟩

/-- A command under way: the machine, and what has been asked and answered. -/
abbrev Course := Machine × Heard

def Machine.after (m : Machine) (w : World) : Call → Machine
  | .write _ bytes => { m with temp := bytes }
  | .rename file path =>
    match w (.rename file path) with
    | .ok _ => { m with disk := m.temp }
    | .error _ => m
  | _ => m

def exec (w : World) (s : Course) : (r : Request) → Course × r.Ans
  | .getenv =>
    let marker := if s.1.marker then "1" else ""
    ((s.1,⟨.getenv,marker⟩ :: s.2),marker)
  | .log line => ((s.1,⟨.log line,()⟩ :: s.2),())
  | .restartProcess => (({ s.1 with due := true },⟨.restartProcess,()⟩ :: s.2),())
  | .call c => ((s.1.after w c,⟨.call c,w c⟩ :: s.2),w c)

/-- `syscall.Exec`: the environment is kept, with the marker. -/
def Machine.reexec (m : Machine) : Machine :=
  { m with running := m.disk, marker := true, due := false }

inductive Event
  | start (noUpdate : Bool) (source : Option String) (w : World) (execWorks : Bool)
  | restart (busy : List Restart.Snapshot) (w : World)
  | upgrade (busy : List Restart.Snapshot) (releaseURL : String) (w : World)
  | reexec (execWorks : Bool)
  | installed (binary : Bytes)

def Machine.start (m : Machine) (noUpdate : Bool) (source : Option String) (w : World)
    (execWorks : Bool) : Machine :=
  let m := { m with running := m.disk, marker := false, due := false }
  match noUpdate, source with
  | false, some releaseURL =>
    let ((m',_),updated) :=
      (selfUpdate P (P.version m.running) releaseURL).run (exec w) (m,[])
    match updated with
    | .ok true => if execWorks then m'.reexec else m'
    | _ => m'
  | _, _ => m

def Machine.upgrade (m : Machine) (busy : List Restart.Snapshot) (releaseURL : String) (w : World) :
    Machine :=
  let ((m',heard),detail) :=
    (runUpgrade P busy (P.version m.running) releaseURL).run (exec w) (m,[])
  { m' with answers := ⟨releaseURL,m.running,heard,m'.disk,detail⟩ :: m'.answers }

def step (m : Machine) : Event → Machine
  | .start noUpdate source w execWorks => m.start P noUpdate source w execWorks
  | .restart busy w => ((runRestart busy).run (exec w) (m,[])).1.1
  | .upgrade busy releaseURL w => m.upgrade P busy releaseURL w
  | .reexec execWorks =>
    if m.due && execWorks then m.reexec else { m with due := false }
  | .installed binary => { m with disk := binary }

end WeirdVault.Agent.Upgrade
