import WeirdVault.Agent.Supervisor

/-!
# The supervisor and the files it reads

The config directory, which anything may edit between two steps, under the steps of the supervisor.
Two things are remembered that the program does not keep: what a loop's config file held when the
loop was started, and which file contents the relay has rejected.
-/

namespace WeirdVault.Agent

open WeirdVault.Framework

structure ConfigFile where
  entry : Entry
  content : String
  readable : Bool

inductive Directory
  | single (path : String) (stopped : Bool) (content : String) (readable : Bool)
  | unreadable
  | dir (files : List ConfigFile)

namespace Directory

def listing : Directory → Listing
  | .single path stopped _ _ => .single path stopped
  | .unreadable => .unreadable
  | .dir files => .dir (files.map ConfigFile.entry)

def config? (d : Directory) (name : String) : Option (String × Bool) :=
  match d with
  | .single path stopped content readable =>
    if !stopped && identityNameFor path == name then some (content,readable) else none
  | .unreadable => none
  | .dir files => (files.find? fun f => !f.entry.isDir && !f.entry.stopped &&
      cutJson f.entry.fileName == some name).map fun f => (f.content,f.readable)

def readable (d : Directory) (name : String) : Bool := (d.config? name).any Prod.snd

def content (d : Directory) (name : String) : String := ((d.config? name).map Prod.fst).getD ""

theorem readable_of_config {d : Directory} {name content : String}
    (h : d.config? name = some (content,true)) : d.readable name = true := by
  rw [readable,h]
  rfl

theorem wanted_of_config {d : Directory} {name : String} {want : List String}
    (hwant : desired d.listing = some want) {c : String × Bool} (h : d.config? name = some c) :
    name ∈ want := by
  cases d with
  | single path stopped content readable =>
    obtain rfl := Option.some.inj hwant
    simp only [config?] at h
    split at h
    · rename_i hname
      simp only [Bool.and_eq_true,Bool.not_eq_true',beq_iff_eq] at hname
      simp [hname.1,hname.2]
    · cases h
  | unreadable => cases hwant
  | dir files =>
    obtain rfl := Option.some.inj hwant
    obtain ⟨f,hf,-⟩ := Option.map_eq_some_iff.mp h
    have hmem := List.mem_of_find?_eq_some hf
    have htest := List.find?_some hf
    simp only [Bool.and_eq_true,beq_iff_eq] at htest
    refine List.mem_filterMap.mpr ⟨f.entry,List.mem_filter.mpr ⟨?_,?_⟩,htest.2⟩
    · exact List.mem_map_of_mem hmem
    · simpa using htest.1

end Directory

structure World where
  sup : Supervisor
  dir : Directory
  loaded : Nat → String
  /-- Names and file contents whose identities the relay has rejected. -/
  refusals : List (String × String)

def World.new (d : Directory) : World := ⟨newSupervisor,d,fun _ => "",[]⟩

inductive Event
  | edit (d : Directory)
  | desired
  | sweep
  | start (name : String)
  | stop (id : Nat)
  | cancelStopped (id : Nat)
  | reject (id : Nat)
  | finish (id : Nat)
  | cleanUp (id : Nat)

/-- The step of the supervisor, with what the directory answers at that moment. -/
def Event.action (d : Directory) : Event → Option Supervisor.Action
  | .edit _ => none
  | .desired => some (.desired d.listing)
  | .sweep => some .sweep
  | .start name => some (.start name (d.readable name))
  | .stop id => some (.stop id)
  | .cancelStopped id => some (.cancelStopped id)
  | .reject id => some (.reject id)
  | .finish id => some (.finish id)
  | .cleanUp id => some (.cleanUp id)

namespace World

def rejectable? (w : World) (id : Nat) : Option Loop :=
  (w.sup.loops.get? id).filter fun l => l.phase = .serving ∧ !l.cancelled

def step (w : World) (e : Event) : World where
  sup := match e.action w.dir with
    | none => w.sup
    | some a => w.sup.step a
  dir := match e with
    | .edit d => d
    | _ => w.dir
  loaded := match e with
    | .start name => fun id => if id = w.sup.next then w.dir.content name else w.loaded id
    | _ => w.loaded
  refusals := match e with
    | .reject id => ((w.rejectable? id).map fun l => (l.name,w.loaded id)).toList ++ w.refusals
    | _ => w.refusals

/-- A loop runs under the name: the relay has not rejected it and nothing is about to end it. -/
def Serves (w : World) (name : String) : Prop :=
  ∃ l, w.sup.running.get? name = some (name,l.id) ∧ w.sup.loops.get? l.id = some l ∧
    l.phase = .serving ∧ l.cancelled = false ∧ l.stopping = false

instance (w : World) (name : String) : Decidable (w.Serves name) :=
  decidable_of_iff (((w.sup.running.get? name).bind fun e => (w.sup.loops.get? e.2).filter
      fun l => e.1 = name ∧ l.phase = .serving ∧ l.cancelled = false ∧ l.stopping = false).isSome) (by
    rw [Option.isSome_iff_exists]
    constructor
    · rintro ⟨l,hl⟩
      obtain ⟨⟨n,id⟩,hrun,hl⟩ := Option.bind_eq_some_iff.mp hl
      obtain ⟨hloop,hok⟩ := Option.filter_eq_some_iff.mp hl
      obtain ⟨rfl,hserving⟩ := of_decide_eq_true hok
      obtain rfl := Table.key_of_get? hloop
      exact ⟨l,hrun,hloop,hserving⟩
    · rintro ⟨l,hrun,hl,hok⟩
      refine ⟨l,?_⟩
      simpa [hrun,hl,Option.filter] using hok)

/-- What should run does. -/
structure Reconciled (w : World) : Prop where
  /-- A readable config that is present and not marked stopped has a loop, or it is the very content
  that was rejected. -/
  serves : ∀ name content, w.dir.config? name = some (content,true) →
    w.Serves name ∨ (name,content) ∈ w.refusals
  wanted : ∀ want, desired w.dir.listing = some want →
    ∀ name, (w.sup.running.get? name).isSome → name ∈ want
  /-- A config that has taken the place of a rejected one has a loop. -/
  replaced : ∀ name old content, (name,old) ∈ w.refusals → (name,content) ∉ w.refusals →
    w.dir.config? name = some (content,true) → w.Serves name

/-- A pass that could read the directory, with whatever else happens until its last start. No file
changes meanwhile. -/
structure IsPass (w : World) (pass : List Event) : Prop where
  begins : w.sup.pass = .idle ∨ w.sup.pass = .starting []
  reads : (desired w.dir.listing).isSome
  within : ∀ e ∈ pass, (∀ d, e ≠ .edit d) ∧ e ≠ .desired
  ends : (runActs step w (.desired :: pass)).sup.pass = .starting []

end World

end WeirdVault.Agent
