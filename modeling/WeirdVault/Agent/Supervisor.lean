import WeirdVault.Framework.Runs
import WeirdVault.Framework.Table

/-!
# The supervisor of a machine's identities

`reconcile`, `start`, the clean-up of a loop that has ended and `stopIdentityFile`, each as the
steps between which the lock is released. What a pass reads from the directory, when a loop ends and
when a command arrives is left to the run.
-/

namespace WeirdVault.Agent

open WeirdVault.Framework

inductive Phase
  | serving
  | rejected
  | finished
  | gone
  deriving DecidableEq

structure Loop where
  id : Nat
  name : String
  cancelled : Bool
  /-- A stop has scheduled the cancel for `restartGrace` later. -/
  stopping : Bool
  phase : Phase
  sessions : Nat
  deriving DecidableEq

inductive Pass
  | idle
  | read (want : List String)
  /-- After the lock, with the names that are still to be started. -/
  | starting (starts : List String)
  deriving DecidableEq

/-- A name and the loop whose cancel, or whose identity, the map has under it. -/
abbrev NameMap := Table (Prod.fst : String × Nat → String)

structure Supervisor where
  running : NameMap
  live : NameMap
  rejected : List String
  loops : Table Loop.id
  next : Nat
  pass : Pass

def newSupervisor : Supervisor := ⟨Table.empty _,Table.empty _,[],Table.empty _,0,.idle⟩

/-- What `desired` sees of a directory entry, its `.stopped` marker included. -/
structure Entry where
  fileName : String
  isDir : Bool
  stopped : Bool

inductive Listing
  | single (path : String) (stopped : Bool)
  | unreadable
  | dir (entries : List Entry)

def cutJson (name : String) : Option String :=
  let cs := name.toList
  if ".json".toList.isSuffixOf cs then some (String.ofList (cs.take (cs.length - 5))) else none

def base (path : String) : String :=
  if path = "" then "."
  else
    let last := ((path.toList.reverse.dropWhile (· == '/')).takeWhile (· != '/')).reverse
    if last = [] then "/" else String.ofList last

def identityNameFor (configPath : String) : String :=
  (cutJson (base configPath)).getD (base configPath)

def desired : Listing → Option (List String)
  | .single path stopped => some (if stopped then [] else [identityNameFor path])
  | .unreadable => none
  | .dir entries => some ((entries.filter fun e => !e.isDir && !e.stopped).filterMap
      fun e => cutJson e.fileName)

def Loop.cancel (l : Loop) : Loop := { l with cancelled := true }

def Loop.stop (l : Loop) : Loop := { l with stopping := true }

def Loop.setPhase (phase : Phase) (l : Loop) : Loop := { l with phase := phase }

def Loop.finish (l : Loop) : Loop := { l with phase := .gone, cancelled := true }

namespace Supervisor

def updateLoop (s : Supervisor) (id : Nat) (f : Loop → Loop) (hf : ∀ l, (f l).id = l.id) :
    Supervisor :=
  { s with loops := s.loops.update id f hf }

def sweep (s : Supervisor) (want : List String) : Supervisor :=
  let gone := s.running.rows.filter (fun e => e.1 ∉ want)
  let running := s.running.keep (fun e => e.1 ∈ want)
  let rejected := s.rejected.filter (· ∈ want)
  { s with
    running := running
    live := s.live.keep (fun e => !(gone.any (·.1 == e.1)))
    rejected := rejected
    loops := s.loops.adjust (fun l => if gone.any (·.2 == l.id) then l.cancel else l) (by
      intro l
      split <;> rfl)
    pass := .starting (want.filter fun name => (running.get? name).isNone && name ∉ rejected) }

def start (s : Supervisor) (name : String) (readable : Bool) : Supervisor :=
  if readable then
    { s with
      running := s.running.put (name,s.next)
      live := s.live.put (name,s.next)
      loops := s.loops.put ⟨s.next,name,false,false,.serving,0⟩
      next := s.next+1 }
  else s

/-- The locked part of a loop's end. Whose cancel the map holds is not looked at. -/
def cleanUp (s : Supervisor) (l : Loop) : Supervisor :=
  let rejected := l.phase = .rejected
  { s with
    rejected := if (s.running.get? l.name).isSome ∧ rejected then l.name :: s.rejected
      else s.rejected
    running := s.running.erase l.name
    live := if rejected then s.live else s.live.erase l.name }.updateLoop l.id Loop.finish
      (fun _ => rfl)

/-- The locked part of `stopIdentityFile`; the cancel comes later. -/
def stopIdentityFile (s : Supervisor) (name : String) : Supervisor :=
  let s' := { s with running := s.running.erase name, live := s.live.erase name }
  match s.running.get? name with
  | none => s'
  | some (_,cancel) => s'.updateLoop cancel Loop.stop (fun _ => rfl)

inductive Action
  | desired (listing : Listing)
  | sweep
  | start (name : String) (readable : Bool)
  /-- A dashboard stop or revoke, carried out by this loop. The marker has been written. -/
  | stop (id : Nat)
  /-- The delayed cancel of a stop. -/
  | cancelStopped (id : Nat)
  | reject (id : Nat)
  | finish (id : Nat)
  | cleanUp (id : Nat)

/-- A step that is not enabled changes nothing. -/
def step (s : Supervisor) : Action → Supervisor
  | .desired listing =>
    match s.pass, Agent.desired listing with
    | .idle, some want | .starting [], some want => { s with pass := .read want }
    | _, _ => s
  | .sweep =>
    match s.pass with
    | .read want => s.sweep want
    | _ => s
  | .start name readable =>
    match s.pass with
    | .starting starts =>
      if name ∈ starts then
        { s with pass := .starting (starts.filter (· ≠ name)) }.start name readable
      else s
    | _ => s
  | .stop id =>
    match s.loops.get? id with
    | some l => if l.phase = .serving then s.stopIdentityFile l.name else s
    | none => s
  | .cancelStopped id =>
    match s.loops.get? id with
    | some l => if l.stopping then s.updateLoop id Loop.cancel (fun _ => rfl) else s
    | none => s
  | .reject id =>
    match s.loops.get? id with
    | some l => if l.phase = .serving ∧ !l.cancelled then
        s.updateLoop id (Loop.setPhase .rejected) (fun _ => rfl) else s
    | none => s
  | .finish id =>
    match s.loops.get? id with
    | some l => if l.phase = .serving ∧ l.cancelled then
        s.updateLoop id (Loop.setPhase .finished) (fun _ => rfl) else s
    | none => s
  | .cleanUp id =>
    match s.loops.get? id with
    | some l => if l.phase = .rejected ∨ l.phase = .finished then s.cleanUp l else s
    | none => s

theorem get?_updateLoop (s : Supervisor) (id : Nat) (f : Loop → Loop) (hf : ∀ l, (f l).id = l.id)
    (k : Nat) : (s.updateLoop id f hf).loops.get? k =
      if k = id then (s.loops.get? k).map f else s.loops.get? k :=
  Table.get?_update s.loops id f hf k

def SameLoops (s s' : Supervisor) : Prop :=
  s'.next = s.next ∧ ∀ id, ∃ g : Loop → Loop, (∀ l, (g l).name = l.name ∧
    (g l).sessions = l.sessions) ∧ s'.loops.get? id = (s.loops.get? id).map g

def NewLoop (s s' : Supervisor) : Prop :=
  s'.next = s.next+1 ∧ ∃ name,
    s'.loops = s.loops.put ⟨s.next,name,false,false,.serving,0⟩

private theorem sameLoops_of_eq {s s' : Supervisor} (hnext : s'.next = s.next)
    (hloops : s'.loops = s.loops) : SameLoops s s' := by
  refine ⟨hnext,fun id => ⟨fun l => l,fun l => ⟨rfl,rfl⟩,?_⟩⟩
  rw [hloops,Option.map_id']

private theorem sameLoops_updateLoop {s s' : Supervisor} (hnext : s'.next = s.next)
    (hloops : s'.loops = s.loops) (i : Nat) {f : Loop → Loop} {hf : ∀ l, (f l).id = l.id}
    (hsame : ∀ l, (f l).name = l.name ∧ (f l).sessions = l.sessions) :
    SameLoops s (s'.updateLoop i f hf) := by
  refine ⟨hnext,fun id => ?_⟩
  rw [get?_updateLoop,hloops]
  split
  · exact ⟨f,hsame,rfl⟩
  · exact ⟨fun l => l,fun l => ⟨rfl,rfl⟩,Option.map_id'.symm⟩

private theorem sameLoops_sweep (s : Supervisor) (want : List String) :
    SameLoops s (s.sweep want) := by
  let gone := s.running.rows.filter (fun e => e.1 ∉ want)
  refine ⟨rfl,fun id => ⟨fun l => if gone.any (·.2 == l.id) then l.cancel else l,?_,?_⟩⟩
  · intro l
    dsimp only
    split <;> exact ⟨rfl,rfl⟩
  · rw [sweep,Table.get?_adjust]

theorem step_loops (s : Supervisor) (a : Action) : SameLoops s (s.step a) ∨ NewLoop s (s.step a) := by
  have hrefl : SameLoops s s := sameLoops_of_eq rfl rfl
  cases a with
  | desired listing =>
    dsimp only [step]
    split <;> exact Or.inl (sameLoops_of_eq rfl rfl)
  | sweep =>
    dsimp only [step]
    split
    · exact Or.inl (sameLoops_sweep s _)
    · exact Or.inl hrefl
  | start name readable =>
    dsimp only [step]
    split
    · split
      · cases readable with
        | true => exact Or.inr ⟨rfl,name,rfl⟩
        | false => exact Or.inl (sameLoops_of_eq rfl rfl)
      · exact Or.inl hrefl
    · exact Or.inl hrefl
  | stop id =>
    dsimp only [step]
    split
    · split
      · unfold stopIdentityFile
        dsimp only
        split
        · exact Or.inl (sameLoops_of_eq rfl rfl)
        · exact Or.inl (sameLoops_updateLoop rfl rfl _ fun _ => ⟨rfl,rfl⟩)
      · exact Or.inl hrefl
    · exact Or.inl hrefl
  | cancelStopped id =>
    dsimp only [step]
    split
    · split
      · exact Or.inl (sameLoops_updateLoop rfl rfl _ fun _ => ⟨rfl,rfl⟩)
      · exact Or.inl hrefl
    · exact Or.inl hrefl
  | reject id =>
    dsimp only [step]
    split
    · split
      · exact Or.inl (sameLoops_updateLoop rfl rfl _ fun _ => ⟨rfl,rfl⟩)
      · exact Or.inl hrefl
    · exact Or.inl hrefl
  | finish id =>
    dsimp only [step]
    split
    · split
      · exact Or.inl (sameLoops_updateLoop rfl rfl _ fun _ => ⟨rfl,rfl⟩)
      · exact Or.inl hrefl
    · exact Or.inl hrefl
  | cleanUp id =>
    dsimp only [step]
    split
    · split
      · exact Or.inl (sameLoops_updateLoop rfl rfl _ fun _ => ⟨rfl,rfl⟩)
      · exact Or.inl hrefl
    · exact Or.inl hrefl

end Supervisor

end WeirdVault.Agent
