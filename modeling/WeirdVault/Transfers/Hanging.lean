import WeirdVault.Transfers.Faithful

/-! # A copy between hosts that does not hang -/

namespace WeirdVault.Transfers

open WeirdVault.Framework

/-- If a push of a directory copy is refused here, the channel can take what the command has left. -/
def fits (c : Copy) (s : State) : Action → Bool
  | .read n => c.isDir ∧ s.source = .copying ∧ s.failure ≠ none ∧ 0 < n ∧ n ≤ s.arrived.length ∧
      n ≤ chunkSize →
    s.left.length+(s.arrived.length-n) ≤ c.window
  | .resumePush => c.isDir ∧ s.source = .pushing true ∧ s.failure ≠ none →
    s.left.length+s.arrived.length ≤ c.window
  | _ => true

/-- After a refused push the command can still send the rest and end. -/
def Draining (c : Copy) (s : State) : Prop :=
  ∀ e, s.source = .waiting (some e) → s.left.length+s.arrived.length ≤ c.window

variable {c : Copy} {s : State}

private theorem draining_less (h : Draining c s) {s' : State}
    (hsource : ∀ e, s'.source = .waiting (some e) → s.source = .waiting (some e))
    (hless : s'.left.length+s'.arrived.length ≤ s.left.length+s.arrived.length) :
    Draining c s' := by
  intro e he
  have hfit := h e (hsource e he)
  omega

private theorem draining_woken (h : Draining c s) {s' : State}
    (hsource : s'.source = s.source ∨ s'.source = s.source.woken) (hleft : s'.left = s.left)
    (harrived : s'.arrived = s.arrived) : Draining c s' := by
  apply draining_less h _ (Nat.le_of_eq (by rw [hleft,harrived]))
  intro e he
  rcases hsource with hs | hs
  · rwa [hs] at he
  · rw [hs] at he
    exact (Source.woken_eq (by simp)).mp he

private theorem draining_free (hsource : ∀ e, s.source ≠ .waiting (some e)) : Draining c s :=
  fun e he => absurd he (hsource e)

private theorem draining_copied (copyErr : Option String)
    (hfit : c.isDir → copyErr.isSome → s.left.length+s.arrived.length ≤ c.window) :
    Draining c (s.copied c copyErr) := by
  unfold State.copied
  split
  · next hdir =>
    intro e he
    have hsome : copyErr = some e := by simpa using he
    exact hfit hdir (by simp [hsome])
  · split <;> exact draining_free (by simp)

private theorem draining_room
    (hfit : c.isDir → s.failure ≠ none → s.left.length+s.arrived.length ≤ c.window) :
    Draining c (s.room c) := by
  unfold State.room
  split
  · exact draining_free (by simp)
  · split
    · next e he => exact draining_copied _ (fun hdir _ => hfit hdir (by simp [he]))
    · exact draining_free (by simp)

private theorem draining_push (chunk : Chunk)
    (hfit : c.isDir → s.failure ≠ none → s.left.length+s.arrived.length ≤ c.window) :
    Draining c (s.push c chunk) := by
  unfold State.push
  split
  · next e he => exact draining_copied _ (fun hdir _ => hfit hdir (by simp [he]))
  · exact draining_room hfit

private theorem draining_next (h : Draining c s) : Draining c (s.next c) := by
  unfold State.next State.fed
  split
  · split <;> exact draining_woken h (.inl rfl) rfl rfl
  · split
    · exact draining_woken h (.inr rfl) rfl rfl
    · split
      · split <;> exact draining_woken h (.inl rfl) rfl rfl
      · exact draining_woken h (.inl rfl) rfl rfl

theorem draining_step (h : Draining c s) {a : Action} (hok : fits c s a) :
    Draining c (step c s a) := by
  cases a with
  | send n =>
    simp only [step]
    split
    · next hsend =>
      have hn := hsend.2.2.1
      refine draining_less h ?_ ?_
      · exact fun _ he => he
      · simp only [List.length_drop,List.length_append,List.length_take]
        omega
    · exact h
  | exit =>
    simp only [step]
    split
    · exact draining_woken h (.inl rfl) rfl rfl
    · exact h
  | read n =>
    simp only [step]
    split
    · next hread =>
      apply draining_push
      intro hdir hfailure
      simp only [fits,decide_eq_true_eq] at hok
      have hfit := hok ⟨hdir,hread.1,hfailure,hread.2⟩
      simpa using hfit
    · exact h
  | eof =>
    simp only [step]
    split
    · next result _ =>
      split
      · apply draining_copied
        intro hdir hsome
        cases result <;> simp [eofError,hdir] at hsome
      · exact h
    · exact h
  | resumePush =>
    simp only [step]
    split
    · next hsource =>
      apply draining_room
      intro hdir hfailure
      simp only [fits,decide_eq_true_eq] at hok
      exact hok ⟨hdir,hsource,hfailure⟩
    · exact h
  | waited =>
    simp only [step]
    split
    · exact draining_free (by simp)
    · exact h
  | readSettles =>
    simp only [step]
    split
    · exact draining_free (by simp [State.finish,State.wake,State.wakeReader,State.wakeWriter])
    · exact draining_free (by simp [State.fail,State.wake,State.wakeReader,State.wakeWriter])
    · exact h
  | pull =>
    simp only [step]
    split
    · exact draining_next h
    · exact h
  | resumePull =>
    simp only [step]
    split
    · exact draining_next h
    · exact h
  | write =>
    simp only [step,State.fed]
    split
    · exact draining_woken h (.inl rfl) rfl rfl
    · split <;> exact draining_woken h (.inl rfl) rfl rfl
    · exact h
  | sinkExit =>
    simp only [step]
    split
    · exact draining_woken h (.inl rfl) rfl rfl
    · exact h
  | sinkWaited =>
    simp only [step]
    split
    · exact draining_woken h (.inl rfl) rfl rfl
    · exact h
  | writeSettles =>
    simp only [step]
    split
    · exact draining_woken h (.inl rfl) rfl rfl
    · exact draining_woken h (.inr rfl) rfl rfl
    · exact h
  | openFails e =>
    simp only [step]
    split
    · exact draining_free (by simp)
    · exact h
  | createFails e =>
    simp only [step]
    split
    · exact draining_woken h (.inl rfl) rfl rfl
    · exact h
  | commandFails e =>
    simp only [step]
    split
    · exact draining_less h (fun _ he => he) (by simp)
    · exact h
  | sinkFails result =>
    simp only [step]
    split
    · exact draining_woken h (.inl rfl) rfl rfl
    · exact h
  | abort => exact draining_woken h (.inr rfl) rfl rfl

def Enabled (c : Copy) (s : State) : Prop := ∃ a : Action, a.outside = false ∧ step c s a ≠ s

private theorem enabled_of {α : Type} {a : Action} (f : State → α) (ha : a.outside = false)
    (h : f (step c s a) ≠ f s) : Enabled c s :=
  ⟨a,ha,fun he => h (congrArg f he)⟩

private theorem next_moves (c : Copy) (s : State) :
    (s.next c).destination ≠ .pulling ∧ (s.next c).destination ≠ .awaiting true := by
  unfold State.next State.fed
  split
  · split <;> simp
  · split
    · simp [State.wakeWriter]
    · split
      · split <;> simp
      · simp

private theorem copied_moves (c : Copy) (s : State) (copyErr : Option String) :
    (s.copied c copyErr).source ≠ .copying ∧ (s.copied c copyErr).source ≠ .pushing true := by
  unfold State.copied
  split
  · simp
  · split <;> simp

private theorem room_moves (c : Copy) (s : State) : (s.room c).source ≠ .pushing true := by
  unfold State.room
  split
  · simp
  · split
    · exact (copied_moves c s _).2
    · simp

private theorem copied_moved (c : Copy) (s : State) (copyErr : Option String) :
    (s.copied c copyErr).moved = s.moved := by
  unfold State.copied
  split
  · rfl
  · split <;> rfl

private theorem push_moved (c : Copy) (s : State) (chunk : Chunk) :
    (s.push c chunk).moved = s.moved := by
  unfold State.push State.room State.refused
  split
  · exact copied_moved c s _
  · split
    · rfl
    · split
      · exact copied_moved c _ _
      · rfl

private theorem fed_moves (c : Copy) (s : State) (copyErr : Option String) (chunk : Chunk) :
    (s.fed c copyErr).destination ≠ .writing chunk := by
  unfold State.fed
  split
  · simp
  · split <;> simp

private theorem destination_enabled (hawake : s.destination ≠ .awaiting false)
    (hwork : ∀ result, s.destination ≠ .settled result) : Enabled c s := by
  cases hd : s.destination with
  | pulling =>
    apply enabled_of (a := .pull) State.destination rfl
    simp only [step,hd,if_true]
    exact (next_moves c s).1
  | awaiting woken =>
    cases woken with
    | false => exact absurd hd hawake
    | true =>
      apply enabled_of (a := .resumePull) State.destination rfl
      simp only [step,hd,if_true]
      exact (next_moves c s).2
  | writing chunk =>
    apply enabled_of (a := .write) State.destination rfl
    cases hk : s.sinkCommand with
    | none => simp [step,hd,hk]
    | some result =>
      simp only [step,hd,hk]
      exact fed_moves c s _ chunk
  | waiting copyErr =>
    cases hk : s.sinkCommand with
    | none =>
      apply enabled_of (a := .sinkExit) State.sinkCommand rfl
      simp [step,hd,hk]
    | some result =>
      apply enabled_of (a := .sinkWaited) State.destination rfl
      simp [step,hd,hk]
  | returned result =>
    apply enabled_of (a := .writeSettles) State.destination rfl
    cases result with
    | ok n => simp [step,hd]
    | error e => simp [step,hd,State.fail,State.wake,State.wakeReader,State.wakeWriter,
        Destination.woken]
  | settled result => exact absurd hd (hwork result)

private theorem command_enabled (hcommand : s.command = none)
    (hroom : s.left ≠ [] → s.arrived.length < c.window) : Enabled c s := by
  cases hl : s.left with
  | nil =>
    apply enabled_of (a := .exit) State.command rfl
    simp [step,hcommand,hl]
  | cons x xs =>
    have hlt := hroom (by simp [hl])
    apply enabled_of (a := .send 1) (fun s => s.left.length) rfl
    have hsend : s.command = none ∧ 0 < 1 ∧ 1 ≤ s.left.length ∧ s.arrived.length+1 ≤ c.window :=
      ⟨hcommand,by decide,by simp [hl],hlt⟩
    simp only [step,if_pos hsend]
    simp [hl]

theorem settled_or_enabled (hb : Bridged s) (hc : Carried c s) (hd : Draining c s) :
    (outcome c s).isSome ∨ Enabled c s := by
  cases hs : s.source with
  | copying =>
    right
    cases ha : s.arrived with
    | cons x xs =>
      apply enabled_of (a := .read 1) State.moved rfl
      have hread : s.source = .copying ∧ 0 < 1 ∧ 1 ≤ s.arrived.length ∧ 1 ≤ chunkSize :=
        ⟨hs,by decide,by simp [ha],by decide⟩
      simp only [step,if_pos hread,push_moved]
      simp
    | nil =>
      cases hk : s.command with
      | none => exact command_enabled hk (fun _ => by simpa [ha] using c.windowPos)
      | some result =>
        apply enabled_of (a := .eof) State.source rfl
        simp only [step,hk,hs,ha,and_self,if_true]
        exact (copied_moves c s _).1
  | pushing woken =>
    right
    cases woken with
    | true =>
      apply enabled_of (a := .resumePush) State.source rfl
      simp only [step,hs,if_true]
      exact room_moves c s
    | false =>
      obtain ⟨hfull,hfailure,hended⟩ := hb.pushing hs
      apply destination_enabled
      · intro hsleep
        have hempty := (hb.awaiting hsleep).1
        rw [hempty] at hfull
        exact absurd hfull (by decide)
      · intro result hsettled
        cases result with
        | ok n =>
          have hdrained := (hb.drained (by rw [hsettled]; rfl)).1
          exact absurd (hdrained.symm.trans hended) (by simp)
        | error e => exact hb.sinkFailed e hsettled hfailure
  | waiting copyErr =>
    right
    cases hk : s.command with
    | some result =>
      apply enabled_of (a := .waited) State.source rfl
      simp [step,hs,hk]
    | none =>
      cases copyErr with
      | none =>
        have hdone := (hc.done (by rw [hs]; rfl)).2
        rw [hk] at hdone
        exact absurd hdone (by simp)
      | some e =>
        apply command_enabled hk
        intro hleft
        have hpos := List.length_pos_of_ne_nil hleft
        have hfit := hd e hs
        omega
  | returned result =>
    right
    apply enabled_of (a := .readSettles) State.source rfl
    cases result with
    | ok _ => simp [step,hs,State.finish,State.wake,State.wakeReader,State.wakeWriter,Source.woken]
    | error e => simp [step,hs,State.fail,State.wake,State.wakeReader,State.wakeWriter,Source.woken]
  | settled result =>
    cases hdest : s.destination with
    | settled written => exact .inl (by simp [outcome,hs,hdest])
    | _ =>
      right
      apply destination_enabled
      · intro hsleep
        obtain ⟨_,hfailure,hended⟩ := hb.awaiting hsleep
        cases result with
        | ok _ => exact absurd ((hb.ended.mpr hs).symm.trans hended) (by simp)
        | error e => exact hb.sourceFailed e hs hfailure
      · simp [hdest]

private theorem next_source (c : Copy) (s : State) :
    (s.next c).source = s.source ∨ (s.next c).source = s.source.woken := by
  unfold State.next State.fed
  split
  · left
    split <;> rfl
  · split
    · exact .inr rfl
    · left
      split
      · split <;> rfl
      · rfl

private theorem fed_source (c : Copy) (s : State) (copyErr : Option String) :
    (s.fed c copyErr).source = s.source := by
  unfold State.fed
  split
  · rfl
  · split <;> rfl

/-- The source's half is at rest: it has settled, or it waits for a command that has not ended. -/
structure Resting (s : State) : Prop where
  read : s.source ≠ .copying
  pushed : ∀ woken, s.source ≠ .pushing woken
  told : ∀ result, s.source ≠ .returned result
  waits : ∀ copyErr, s.source = .waiting copyErr → s.command = none

theorem source_stays (h : Resting s) (a : Action) : (step c s a).source = s.source := by
  have hwoken : s.source.woken = s.source := by
    cases hs : s.source with
    | pushing woken => exact absurd hs (h.pushed woken)
    | _ => rfl
  have hnext : (s.next c).source = s.source := by
    rcases next_source c s with hs | hs
    · exact hs
    · exact hs.trans hwoken
  have hread := h.read
  have hpushed := h.pushed
  cases a with
  | eof =>
    simp only [step]
    split
    · rw [if_neg (by simp [hread])]
    · rfl
  | waited =>
    simp only [step]
    split
    · next hs hcommand => exact absurd ((h.waits _ hs).symm.trans hcommand) (by simp)
    · rfl
  | readSettles =>
    simp only [step]
    split
    · next hs => exact absurd hs (h.told _)
    · next hs => exact absurd hs (h.told _)
    · rfl
  | pull =>
    simp only [step]
    split
    · exact hnext
    · rfl
  | resumePull =>
    simp only [step]
    split
    · exact hnext
    · rfl
  | write =>
    simp only [step]
    split
    · rfl
    · exact fed_source c s _
    · rfl
  | sinkExit =>
    simp only [step]
    split <;> rfl
  | sinkWaited =>
    simp only [step]
    split <;> rfl
  | writeSettles =>
    simp only [step]
    split
    · rfl
    · exact hwoken
    · rfl
  | abort => exact hwoken
  | _ => simp [step,hread,hpushed,apply_ite State.source]

private theorem resting_settled {result : Except String Unit} (h : s.source = .settled result) :
    Resting s := by
  constructor <;> simp [h]

private theorem copied_destination (c : Copy) (s : State) (copyErr : Option String) :
    (s.copied c copyErr).destination = s.destination := by
  unfold State.copied
  split
  · rfl
  · split <;> rfl

private theorem room_destination (c : Copy) (s : State) :
    (s.room c).destination = s.destination := by
  unfold State.room
  split
  · rfl
  · split
    · exact copied_destination c s _
    · rfl

private theorem push_destination (c : Copy) (s : State) (chunk : Chunk) :
    (s.push c chunk).destination = s.destination ∨
      (s.push c chunk).destination = s.destination.woken := by
  unfold State.push
  split
  · exact .inl (copied_destination c s _)
  · exact .inr (room_destination c _)

theorem destination_stays {result : Except String Nat} (h : s.destination = .settled result)
    (a : Action) : (step c s a).destination = .settled result := by
  have hwoken : s.destination.woken = .settled result := by rw [h]; rfl
  cases a with
  | read n =>
    simp only [step]
    split
    · rcases push_destination c { s with arrived := s.arrived.drop n, moved := s.moved+n }
        (s.arrived.take n) with hs | hs
      · exact hs.trans h
      · exact hs.trans hwoken
    · exact h
  | eof =>
    simp only [step]
    split
    · split
      · exact (copied_destination c s _).trans h
      · exact h
    · exact h
  | resumePush =>
    simp only [step]
    split
    · exact (room_destination c s).trans h
    · exact h
  | waited =>
    simp only [step]
    split
    · exact h
    · exact h
  | readSettles =>
    simp only [step]
    split
    · exact hwoken
    · exact hwoken
    · exact h
  | abort => exact hwoken
  | _ => simp [step,h,apply_ite State.destination]

private theorem not_ok (hfailed : ∃ e, s.source = .settled (.error e) ∨
    s.destination = .settled (.error e)) (n : Nat) : outcome c s ≠ some (.ok n) := by
  obtain ⟨e,hs | hd⟩ := hfailed
  · unfold outcome
    rw [hs]
    cases s.destination <;> simp
  · unfold outcome
    rw [hd]
    cases s.source with
    | settled result => cases result <;> simp
    | _ => simp

private theorem succeeded (hb : Bridged s) (hc : Carried c s) {n : Nat}
    (h : outcome c s = some (.ok n)) : s.pulled = s.pushed ∧ s.pulled.flatten = c.content := by
  cases hs : s.source with
  | settled read =>
    cases hd : s.destination with
    | settled written =>
      cases read with
      | error e => exact absurd h (not_ok ⟨e,.inl hs⟩ n)
      | ok _ =>
        cases written with
        | error e => exact absurd h (not_ok ⟨e,.inr hd⟩ n)
        | ok m =>
          have hqueue := (hb.drained (by rw [hd]; rfl)).2
          have hpulled : s.pulled = s.pushed := by rw [hb.fifo,hqueue,List.append_nil]
          have hcommand := hc.finished (.inr hs)
          have harrived := (hc.done (by rw [hs]; rfl)).1
          have hleft := hc.exited (by rw [hcommand]; rfl)
          have hcontent := hc.content (by rw [hs]; rfl) (by simp [hcommand])
          rw [harrived,hleft,List.append_nil,List.append_nil] at hcontent
          exact ⟨hpulled,hpulled ▸ hcontent⟩
    | _ => simp [outcome,hs,hd] at h
  | _ => simp [outcome,hs] at h

/-- What holds of a copy after every run, and that it is never stuck if every refused push of a
directory copy leaves no more than the channel can take. -/
theorem copy_goes_on (c : Copy) (as : List Action)
    (h : Along (step c) (fun s a => fits c s a) (start c) as) :
    let s := runActs (step c) (start c) as
    s.pulled <+: s.pushed ∧ s.queue.length ≤ highWaterChunks ∧
    (∀ n, outcome c s = some (.ok n) → s.pulled = s.pushed ∧ s.pulled.flatten = c.content) ∧
    (∀ before after, as = before ++ after →
      (∃ e, (runActs (step c) (start c) before).source = .settled (.error e) ∨
        (runActs (step c) (start c) before).destination = .settled (.error e)) →
      ∀ n, outcome c s ≠ some (.ok n)) ∧
    ((outcome c s).isSome ∨ Enabled c s) := by
  intro s
  have hb : Bridged s := bridged_run c as
  have hc : Carried c s := carried_run c as
  have hd : Draining c s :=
    invariant_runActs (Draining c) (fun _ _ hd hok => draining_step hd hok)
      (draining_free (by simp [start])) h
  refine ⟨?_,hb.queued,fun n => succeeded hb hc,?_,settled_or_enabled hb hc hd⟩
  · rw [hb.fifo]
    exact List.prefix_append _ _
  · intro before after hparts hfailed
    apply not_ok
    obtain ⟨e,hs | hdest⟩ := hfailed
    · refine ⟨e,.inl ?_⟩
      have hstays := invariant_runActs (fun s => s.source = .settled (.error e))
        (fun _ a hsource _ => (source_stays (resting_settled hsource) a).trans hsource) hs
        (along_true (step c) _ after)
      rwa [← runActs_append,← hparts] at hstays
    · refine ⟨e,.inr ?_⟩
      have hstays := invariant_runActs (fun s => s.destination = .settled (.error e))
        (fun _ a hsettled _ => destination_stays hsettled a) hdest (along_true (step c) _ after)
      rwa [← runActs_append,← hparts] at hstays

def smallTree : Copy where
  isDir := true
  sourcePath := "/srv/data"
  destinationPath := "/backup"
  content := [1,2,3]
  window := 1
  windowPos := by decide

/-- One byte is copied, the other two after a cancel that comes too late. -/
def lateCancel : List Action :=
  [.pull,.send 1,.read 1,.send 1,.resumePull,.read 1,.send 1,.read 1,.exit,.eof,.waited,.readSettles,
    .write,.pull,.write,.pull,.write,.pull,.sinkExit,.sinkWaited,.abort,.writeSettles]

theorem copy_goes_on_demo :
    let s := runActs (step smallTree) (start smallTree) lateCancel
    outcome smallTree s = some (.ok 3) ∧ s.pulled.flatten = [1,2,3] := by
  have hok : Along (step smallTree) (fun s a => fits smallTree s a) (start smallTree) lateCancel := by
    decide +kernel
  have hend : outcome smallTree (runActs (step smallTree) (start smallTree) lateCancel) =
      some (.ok 3) := by
    decide +kernel
  exact ⟨hend,((copy_goes_on smallTree lateCancel hok).2.2.1 3 hend).2⟩

end WeirdVault.Transfers
