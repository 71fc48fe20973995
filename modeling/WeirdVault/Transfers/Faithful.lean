import WeirdVault.Transfers.Remote
import Mathlib.Tactic.Common

/-! # What a copy between hosts has moved -/

namespace WeirdVault.Transfers

open WeirdVault.Framework

def Source.clean : Source → Bool
  | .waiting (some _) => false
  | .returned (.error _) => false
  | .settled (.error _) => false
  | _ => true

def Source.done : Source → Bool
  | .waiting none => true
  | .returned (.ok _) => true
  | .settled (.ok _) => true
  | _ => false

def Destination.done : Destination → Bool
  | .waiting none => true
  | .returned (.ok _) => true
  | .settled (.ok _) => true
  | _ => false

structure Bridged (s : State) : Prop where
  fifo : s.pushed = s.pulled ++ s.queue
  queued : s.queue.length ≤ highWaterChunks
  room : s.source = .copying → s.queue.length < highWaterChunks
  pushing : s.source = .pushing false →
    highWaterChunks ≤ s.queue.length ∧ s.failure = none ∧ s.ended = false
  awaiting : s.destination = .awaiting false → s.queue = [] ∧ s.failure = none ∧ s.ended = false
  ended : s.ended = true ↔ s.source = .settled (.ok ())
  refused : ∀ e, s.source = .waiting (some e) → s.failure ≠ none
  sourceFailed : ∀ e, s.source = .settled (.error e) → s.failure ≠ none
  sinkFailed : ∀ e, s.destination = .settled (.error e) → s.failure ≠ none
  drained : s.destination.done → s.ended = true ∧ s.queue = []

variable {c : Copy} {s : State}

theorem bridged_start (c : Copy) : Bridged (start c) := by
  constructor <;> simp [start,highWaterChunks,Destination.done]

@[simp] theorem Source.woken_eq {x y : Source} (hy : ∀ b, y ≠ .pushing b) :
    x.woken = y ↔ x = y := by
  cases x <;> grind [Source.woken]

@[simp] theorem Destination.woken_eq {x y : Destination} (hy : ∀ b, y ≠ .awaiting b) :
    x.woken = y ↔ x = y := by
  cases x <;> grind [Destination.woken]

theorem Source.woken_ne (x : Source) : x.woken ≠ .pushing false := by
  cases x <;> simp [Source.woken]

theorem Destination.woken_ne (x : Destination) : x.woken ≠ .awaiting false := by
  cases x <;> simp [Destination.woken]

@[simp] theorem Destination.woken_done (x : Destination) : x.woken.done = x.done := by
  cases x <;> rfl

private theorem Bridged.open (h : Bridged s) (hsource : s.source ≠ .settled (.ok ())) :
    s.ended = false := by
  cases he : s.ended with
  | false => rfl
  | true => exact absurd (h.ended.mp he) hsource

private theorem bridged_source (h : Bridged s) {stage : Source}
    (hroom : stage = .copying → s.queue.length < highWaterChunks)
    (hpushing : stage = .pushing false →
      highWaterChunks ≤ s.queue.length ∧ s.failure = none ∧ s.ended = false)
    (hended : s.ended = true ↔ stage = .settled (.ok ()))
    (hrefused : ∀ e, stage = .waiting (some e) → s.failure ≠ none)
    (hfailed : ∀ e, stage = .settled (.error e) → s.failure ≠ none) :
    Bridged { s with source := stage } where
  fifo := h.fifo
  queued := h.queued
  room := hroom
  pushing := hpushing
  awaiting := h.awaiting
  ended := hended
  refused := hrefused
  sourceFailed := hfailed
  sinkFailed := h.sinkFailed
  drained := h.drained

private theorem bridged_destination (h : Bridged s) {stage : Destination}
    (hawaiting : stage = .awaiting false → s.queue = [] ∧ s.failure = none ∧ s.ended = false)
    (hfailed : ∀ e, stage = .settled (.error e) → s.failure ≠ none)
    (hdrained : stage.done → s.ended = true ∧ s.queue = []) :
    Bridged { s with destination := stage } where
  fifo := h.fifo
  queued := h.queued
  room := h.room
  pushing := h.pushing
  awaiting := hawaiting
  ended := h.ended
  refused := h.refused
  sourceFailed := h.sourceFailed
  sinkFailed := hfailed
  drained := hdrained

private theorem bridged_fail (h : Bridged s) (e : String) : Bridged (s.fail e) where
  fifo := h.fifo
  queued := h.queued
  room := by
    intro hcopying
    exact h.room ((Source.woken_eq (by simp)).mp hcopying)
  pushing := fun hpushing => absurd hpushing (Source.woken_ne _)
  awaiting := fun hawaiting => absurd hawaiting (Destination.woken_ne _)
  ended := h.ended.trans (Source.woken_eq (by simp)).symm
  refused := by simp [State.fail,State.wake,State.wakeReader,State.wakeWriter]
  sourceFailed := by simp [State.fail,State.wake,State.wakeReader,State.wakeWriter]
  sinkFailed := by simp [State.fail,State.wake,State.wakeReader,State.wakeWriter]
  drained := by
    intro hdone
    exact h.drained ((Destination.woken_done _).symm.trans hdone)

private theorem bridged_copied (h : Bridged s) (hended : s.ended = false) {copyErr : Option String}
    (hfailure : copyErr.isSome → c.isDir → s.failure ≠ none) : Bridged (s.copied c copyErr) := by
  unfold State.copied
  split
  · next hdir =>
    apply bridged_source h (by simp) (by simp) (by simp [hended]) _ (by simp)
    intro e he
    have hsome : copyErr = some e := by simpa using he
    exact hfailure (by simp [hsome]) hdir
  · split
    · exact bridged_source h (by simp) (by simp) (by simp [hended]) (by simp) (by simp)
    · exact bridged_source h (by simp) (by simp) (by simp [hended]) (by simp) (by simp)

private theorem room_source (s : State) (stage : Source) :
    { s with source := stage }.room c = s.room c := by
  unfold State.room
  dsimp only
  split
  · rfl
  · split <;> rfl

private theorem bridged_room (h : Bridged s) (hended : s.ended = false) :
    Bridged (s.room c) := by
  unfold State.room
  split
  · next hfull =>
    exact bridged_source h (by simp) (fun _ => ⟨hfull.1,hfull.2.1,hended⟩) (by simp [hended])
      (by simp) (by simp)
  · next hroom =>
    split
    · next e he => exact bridged_copied h hended (fun _ _ => by simp [he])
    · next hfailure =>
      apply bridged_source h _ (by simp) (by simp [hended]) (by simp) (by simp)
      intro _
      by_contra hfull
      exact hroom ⟨Nat.le_of_not_lt hfull,hfailure,by simp [hended]⟩

private theorem bridged_push (h : Bridged s) (hsource : s.source = .copying) (chunk : Chunk) :
    Bridged (s.push c chunk) := by
  have hended := h.open (by simp [hsource])
  unfold State.push
  split
  · next e he => exact bridged_copied h hended (fun _ _ => by simp [he])
  · next hfailure =>
    rw [← room_source _ (.pushing true)]
    refine bridged_room ?_ hended
    constructor
    · simp [State.wakeReader,h.fifo]
    · have hlt := h.room hsource
      simp only [State.wakeReader,List.length_append,List.length_singleton]
      omega
    · simp
    · simp
    · exact fun hawaiting => absurd hawaiting (Destination.woken_ne _)
    · simp [State.wakeReader,hended]
    · simp
    · simp
    · simpa [State.wakeReader] using h.sinkFailed
    · simp only [State.wakeReader,Destination.woken_done]
      intro hdone
      exact absurd ((h.drained hdone).1.symm.trans hended) (by simp)

private theorem bridged_fed (h : Bridged s) {copyErr : Option String}
    (hdone : copyErr = none → s.ended = true ∧ s.queue = []) : Bridged (s.fed c copyErr) := by
  unfold State.fed
  split
  · cases copyErr with
    | none => exact bridged_destination h (by simp) (by simp) (fun _ => hdone rfl)
    | some e => exact bridged_destination h (by simp) (by simp) (by simp [Destination.done])
  · split
    · exact bridged_destination h (by simp) (by simp) (by simp [Destination.done])
    · exact bridged_destination h (by simp) (by simp) (fun _ => hdone rfl)

private theorem bridged_next (h : Bridged s) : Bridged (s.next c) := by
  unfold State.next
  split
  · exact bridged_fed h (by simp)
  · next hfailure =>
    split
    · next chunk rest hqueue =>
      have hlength : s.queue.length = rest.length+1 := by simp [hqueue]
      have hqueued := h.queued
      constructor
      · simp [State.wakeWriter,h.fifo,hqueue]
      · simp only [State.wakeWriter]
        omega
      · simp only [State.wakeWriter]
        omega
      · exact fun hpushing => absurd hpushing (Source.woken_ne _)
      · simp [State.wakeWriter]
      · exact h.ended.trans (Source.woken_eq (by simp)).symm
      · exact fun e he => h.refused e ((Source.woken_eq (by simp)).mp he)
      · exact fun e he => h.sourceFailed e ((Source.woken_eq (by simp)).mp he)
      · simp [State.wakeWriter]
      · simp [State.wakeWriter,Destination.done]
    · next hqueue =>
      split
      · next hended => exact bridged_fed h (fun _ => ⟨hended,hqueue⟩)
      · next hended =>
        have hopen : s.ended = false := by simpa using hended
        exact bridged_destination h (fun _ => ⟨hqueue,hfailure,hopen⟩) (by simp)
          (by simp [Destination.done])

private theorem bridged_finish (h : Bridged s) :
    Bridged ({ s with source := .settled (.ok ()) }.finish) where
  fifo := h.fifo
  queued := h.queued
  room := by simp [State.finish,State.wake,State.wakeReader,State.wakeWriter,Source.woken]
  pushing := by simp [State.finish,State.wake,State.wakeReader,State.wakeWriter,Source.woken]
  awaiting := fun hawaiting => absurd hawaiting (Destination.woken_ne _)
  ended := by simp [State.finish,State.wake,State.wakeReader,State.wakeWriter,Source.woken]
  refused := by simp [State.finish,State.wake,State.wakeReader,State.wakeWriter,Source.woken]
  sourceFailed := by simp [State.finish,State.wake,State.wakeReader,State.wakeWriter,Source.woken]
  sinkFailed := by
    simpa [State.finish,State.wake,State.wakeReader,State.wakeWriter] using h.sinkFailed
  drained := by
    intro hdone
    have hold := h.drained ((Destination.woken_done _).symm.trans hdone)
    exact ⟨rfl,hold.2⟩

private theorem bridged_sourceFailed (h : Bridged s) {e : String}
    (hsource : s.source = .returned (.error e)) :
    Bridged ({ s with source := .settled (.error e) }.fail e) := by
  have hended := h.open (by simp [hsource])
  have hfailed : Bridged { s.fail e with source := .settled (.error e) } := by
    apply bridged_source (bridged_fail h e) (by simp) (by simp) _ (by simp)
    · intro _ _
      simp [State.fail,State.wake,State.wakeReader,State.wakeWriter]
    · simp [State.fail,State.wake,State.wakeReader,State.wakeWriter,hended]
  exact hfailed

private theorem bridged_sinkFailed (h : Bridged s) (e : String) :
    Bridged ({ s with destination := .settled (.error e) }.fail e) := by
  have hfailed : Bridged { s.fail e with destination := .settled (.error e) } := by
    apply bridged_destination (bridged_fail h e) (by simp) _ (by simp [Destination.done])
    intro _ _
    simp [State.fail,State.wake,State.wakeReader,State.wakeWriter]
  exact hfailed

theorem bridged_step (h : Bridged s) (a : Action) : Bridged (step c s a) := by
  cases a with
  | send n =>
    simp only [step]
    split
    · exact { h with }
    · exact h
  | exit =>
    simp only [step]
    split
    · exact { h with }
    · exact h
  | read n =>
    simp only [step]
    split
    · next hread =>
      have hmoved : Bridged { s with arrived := s.arrived.drop n, moved := s.moved+n } := { h with }
      exact bridged_push hmoved hread.1 _
    · exact h
  | eof =>
    simp only [step]
    split
    · split
      · next result _ hread =>
        apply bridged_copied h (h.open (by simp [hread.1]))
        intro hsome hdir
        cases result <;> simp [eofError,hdir] at hsome
      · exact h
    · exact h
  | resumePush =>
    simp only [step]
    split
    · next hsource => exact bridged_room h (h.open (by simp [hsource]))
    · exact h
  | waited =>
    simp only [step]
    split
    · next copyErr result hsource _ =>
      exact bridged_source h (by simp) (by simp) (by simp [h.open (by simp [hsource])]) (by simp)
        (by simp)
    · exact h
  | readSettles =>
    simp only [step]
    split
    · exact bridged_finish h
    · next hsource => exact bridged_sourceFailed h hsource
    · exact h
  | pull =>
    simp only [step]
    split
    · exact bridged_next h
    · exact h
  | resumePull =>
    simp only [step]
    split
    · exact bridged_next h
    · exact h
  | write =>
    simp only [step]
    split
    · next chunk _ _ =>
      have hwritten : Bridged { s with written := s.written+chunk.length } := { h with }
      exact bridged_destination hwritten (by simp) (by simp) (by simp [Destination.done])
    · exact bridged_fed h (by simp)
    · exact h
  | sinkExit =>
    simp only [step]
    split
    · exact { h with }
    · exact h
  | sinkWaited =>
    simp only [step]
    split
    · next copyErr result hdestination _ =>
      apply bridged_destination h (by simp) (by simp)
      intro hdone
      apply h.drained
      cases result with
      | error e => simp [tarResult,Destination.done] at hdone
      | ok _ =>
        cases copyErr with
        | none => simp [hdestination,Destination.done]
        | some e => simp [tarResult,Destination.done] at hdone
    · exact h
  | writeSettles =>
    simp only [step]
    split
    · next n hdestination =>
      apply bridged_destination h (by simp) (by simp)
      intro _
      exact h.drained (by simp [hdestination,Destination.done])
    · exact bridged_sinkFailed h _
    · exact h
  | openFails e =>
    simp only [step]
    split
    · next hopen =>
      have hended := h.open (by simp [hopen.1])
      have hcommand : Bridged { s with left := [], command := some (.error e) } := { h with }
      exact bridged_source hcommand (by simp) (by simp) (by simp [hended]) (by simp) (by simp)
    · exact h
  | createFails e =>
    simp only [step]
    split
    · have hcommand : Bridged { s with sinkCommand := some (.error e) } := { h with }
      exact bridged_destination hcommand (by simp) (by simp) (by simp [Destination.done])
    · exact h
  | commandFails e =>
    simp only [step]
    split
    · exact { h with }
    · exact h
  | sinkFails result =>
    simp only [step]
    split
    · exact { h with }
    · exact h
  | abort => exact bridged_fail h "cancelled"

theorem bridged_run (c : Copy) (as : List Action) : Bridged (runActs (step c) (start c) as) :=
  invariant_runActs Bridged (fun _ a h _ => bridged_step h a) (bridged_start c)
    (along_true (step c) (start c) as)

/-- Where the source's bytes are. -/
structure Carried (c : Copy) (s : State) : Prop where
  exited : s.command.isSome → s.left = []
  content : s.source.clean → (∀ e, s.command ≠ some (.error e)) →
    s.pushed.flatten ++ s.arrived ++ s.left = c.content
  done : s.source.done → s.arrived = [] ∧ s.command.isSome
  finished : s.source = .returned (.ok ()) ∨ s.source = .settled (.ok ()) →
    s.command = some (.ok ())
  tar : ∀ copyErr, s.source = .waiting copyErr → c.isDir

theorem carried_start (c : Copy) : Carried c (start c) := by
  constructor <;> simp [start,Source.done]

private theorem carried_source (h : Carried c s) {stage : Source}
    (hclean : stage.clean → s.source.clean)
    (hdone : stage.done → s.arrived = [] ∧ s.command.isSome)
    (hfinished : stage = .returned (.ok ()) ∨ stage = .settled (.ok ()) →
      s.command = some (.ok ()))
    (htar : ∀ copyErr, stage = .waiting copyErr → c.isDir) : Carried c { s with source := stage } where
  exited := h.exited
  content := fun hstage => h.content (hclean hstage)
  done := hdone
  finished := hfinished
  tar := htar

private theorem carried_woken (h : Carried c s) {s' : State}
    (hsource : s'.source = s.source ∨ s'.source = s.source.woken) (hleft : s'.left = s.left)
    (harrived : s'.arrived = s.arrived) (hcommand : s'.command = s.command)
    (hpushed : s'.pushed = s.pushed) : Carried c s' := by
  have hclean : s'.source.clean = s.source.clean := by
    rcases hsource with hs | hs
    · rw [hs]
    · rw [hs]
      cases s.source <;> rfl
  have hdone : s'.source.done = s.source.done := by
    rcases hsource with hs | hs
    · rw [hs]
    · rw [hs]
      cases s.source <;> rfl
  have hstage : ∀ stage, (∀ b, stage ≠ .pushing b) → (s'.source = stage ↔ s.source = stage) := by
    intro stage hne
    rcases hsource with hs | hs
    · rw [hs]
    · rw [hs]
      exact Source.woken_eq hne
  constructor
  · rw [hcommand,hleft]
    exact h.exited
  · rw [hclean,hcommand,hpushed,harrived,hleft]
    exact h.content
  · rw [hdone,harrived,hcommand]
    exact h.done
  · rw [hstage _ (by simp),hstage _ (by simp),hcommand]
    exact h.finished
  · intro copyErr hs
    exact h.tar copyErr ((hstage _ (by simp)).mp hs)

private theorem carried_failed (hexited : s.command.isSome → s.left = []) (e : String) :
    Carried c (s.copied c (some e)) := by
  unfold State.copied
  split
  · next hdir =>
    exact ⟨hexited,by simp [Source.clean],by simp [Source.done],by simp,fun _ _ => hdir⟩
  · exact ⟨hexited,by simp [Source.clean],by simp [Source.done],by simp,by simp⟩

private theorem carried_room (h : Carried c s) (hclean : s.source.clean) :
    Carried c (s.room c) := by
  unfold State.room
  split
  · exact carried_source h (fun _ => hclean) (by simp [Source.done]) (by simp) (by simp)
  · split
    · exact carried_failed h.exited _
    · exact carried_source h (fun _ => hclean) (by simp [Source.done]) (by simp) (by simp)

private theorem carried_read (h : Carried c s) (hsource : s.source = .copying) (n : Nat) :
    Carried c ({ s with arrived := s.arrived.drop n, moved := s.moved+n }.push c
      (s.arrived.take n)) := by
  have hclean : s.source.clean := by rw [hsource]; rfl
  unfold State.push
  split
  · apply carried_failed
    exact h.exited
  · refine carried_room ?_ hclean
    constructor
    · exact h.exited
    · intro _ hcommand
      have hcontent := h.content hclean hcommand
      have hsplit := List.take_append_drop n s.arrived
      rw [← hcontent]
      simp only [State.wakeReader,List.flatten_append,List.flatten_singleton]
      rw [List.append_assoc s.pushed.flatten,hsplit]
    · simp [State.wakeReader,hsource,Source.done]
    · simp [State.wakeReader,hsource]
    · simp [State.wakeReader,hsource]

private theorem carried_eof (h : Carried c s) (hsource : s.source = .copying)
    (harrived : s.arrived = []) {result : Except String Unit} (hcommand : s.command = some result) :
    Carried c (s.copied c (eofError c result)) := by
  have hclean : s.source.clean := by rw [hsource]; rfl
  cases hcopy : eofError c result with
  | some e => exact carried_failed h.exited e
  | none =>
    unfold State.copied
    split
    · next hdir =>
      exact carried_source h (fun _ => hclean) (fun _ => ⟨harrived,by simp [hcommand]⟩) (by simp)
        (fun _ _ => hdir)
    · next hfile =>
      have hok : result = .ok () := by
        cases result with
        | ok _ => rfl
        | error e => simp [eofError,hfile] at hcopy
      exact carried_source h (fun _ => hclean) (fun _ => ⟨harrived,by simp [hcommand]⟩)
        (fun _ => hok ▸ hcommand) (by simp)

private theorem carried_waited (h : Carried c s) {copyErr : Option String}
    (hsource : s.source = .waiting copyErr) {result : Except String Unit}
    (hcommand : s.command = some result) :
    Carried c { s with source := .returned (tarResult () copyErr result) } := by
  cases result with
  | error e =>
    exact carried_source h (by simp [tarResult,Source.clean]) (by simp [tarResult,Source.done])
      (by simp [tarResult]) (by simp)
  | ok _ =>
    cases copyErr with
    | some e =>
      exact carried_source h (by simp [tarResult,Source.clean]) (by simp [tarResult,Source.done])
        (by simp [tarResult]) (by simp)
    | none =>
      have hdone := h.done (by rw [hsource]; rfl)
      exact carried_source h (fun _ => by rw [hsource]; rfl) (fun _ => hdone) (fun _ => hcommand)
        (by simp)

private theorem carried_next (h : Carried c s) : Carried c (s.next c) := by
  unfold State.next State.fed
  split
  · split
    · exact carried_woken h (.inl rfl) rfl rfl rfl rfl
    · exact carried_woken h (.inl rfl) rfl rfl rfl rfl
  · split
    · exact carried_woken h (.inr rfl) rfl rfl rfl rfl
    · split
      · split
        · exact carried_woken h (.inl rfl) rfl rfl rfl rfl
        · exact carried_woken h (.inl rfl) rfl rfl rfl rfl
      · exact carried_woken h (.inl rfl) rfl rfl rfl rfl

theorem carried_step (h : Carried c s) (a : Action) : Carried c (step c s a) := by
  cases a with
  | send n =>
    simp only [step]
    split
    · next hsend =>
      constructor
      · simp [hsend.1]
      · intro hclean hcommand
        have hcontent := h.content hclean hcommand
        simpa using hcontent
      · intro hdone
        have hsome := (h.done hdone).2
        rw [hsend.1] at hsome
        exact absurd hsome (by simp)
      · exact h.finished
      · exact h.tar
    · exact h
  | exit =>
    simp only [step]
    split
    · next hexit =>
      constructor
      · exact fun _ => hexit.2
      · intro hclean _
        exact h.content hclean (by simp [hexit.1])
      · exact fun hdone => ⟨(h.done hdone).1,rfl⟩
      · exact fun _ => rfl
      · exact h.tar
    · exact h
  | read n =>
    simp only [step]
    split
    · next hread => exact carried_read h hread.1 n
    · exact h
  | eof =>
    simp only [step]
    split
    · next hcommand =>
      split
      · next hread => exact carried_eof h hread.1 hread.2 hcommand
      · exact h
    · exact h
  | resumePush =>
    simp only [step]
    split
    · next hsource => exact carried_room h (by rw [hsource]; rfl)
    · exact h
  | waited =>
    simp only [step]
    split
    · next hsource hcommand => exact carried_waited h hsource hcommand
    · exact h
  | readSettles =>
    simp only [step]
    split
    · next hsource =>
      have hdone := h.done (by rw [hsource]; rfl)
      have hok := h.finished (.inl hsource)
      have hclean : s.source.clean := by rw [hsource]; rfl
      have hsettled : Carried c { s with source := .settled (.ok ()) } :=
        carried_source h (fun _ => hclean) (fun _ => hdone) (fun _ => hok) (by simp)
      exact carried_woken hsettled (.inr rfl) rfl rfl rfl rfl
    · next e hsource =>
      have hsettled : Carried c { s with source := .settled (.error e) } :=
        carried_source h (by simp [Source.clean]) (by simp [Source.done]) (by simp) (by simp)
      exact carried_woken hsettled (.inr rfl) rfl rfl rfl rfl
    · exact h
  | pull =>
    simp only [step]
    split
    · exact carried_next h
    · exact h
  | resumePull =>
    simp only [step]
    split
    · exact carried_next h
    · exact h
  | write =>
    simp only [step,State.fed]
    split
    · exact carried_woken h (.inl rfl) rfl rfl rfl rfl
    · split
      · exact carried_woken h (.inl rfl) rfl rfl rfl rfl
      · exact carried_woken h (.inl rfl) rfl rfl rfl rfl
    · exact h
  | sinkExit =>
    simp only [step]
    split
    · exact carried_woken h (.inl rfl) rfl rfl rfl rfl
    · exact h
  | sinkWaited =>
    simp only [step]
    split
    · exact carried_woken h (.inl rfl) rfl rfl rfl rfl
    · exact h
  | writeSettles =>
    simp only [step]
    split
    · exact carried_woken h (.inl rfl) rfl rfl rfl rfl
    · exact carried_woken h (.inr rfl) rfl rfl rfl rfl
    · exact h
  | openFails e =>
    simp only [step]
    split
    · constructor
      · exact fun _ => rfl
      · simp [Source.clean]
      · simp [Source.done]
      · simp
      · simp
    · exact h
  | createFails e =>
    simp only [step]
    split
    · exact carried_woken h (.inl rfl) rfl rfl rfl rfl
    · exact h
  | commandFails e =>
    simp only [step]
    split
    · next hcommand =>
      constructor
      · exact fun _ => rfl
      · intro _ hok
        exact absurd rfl (hok e)
      · exact fun hdone => ⟨(h.done hdone).1,rfl⟩
      · intro hfinished
        have hok := h.finished hfinished
        rw [hcommand] at hok
        exact absurd hok (by simp)
      · exact h.tar
    · exact h
  | sinkFails result =>
    simp only [step]
    split
    · exact carried_woken h (.inl rfl) rfl rfl rfl rfl
    · exact h
  | abort => exact carried_woken h (.inr rfl) rfl rfl rfl rfl

theorem carried_run (c : Copy) (as : List Action) : Carried c (runActs (step c) (start c) as) :=
  invariant_runActs (Carried c) (fun _ a h _ => carried_step h a) (carried_start c)
    (along_true (step c) (start c) as)

end WeirdVault.Transfers
