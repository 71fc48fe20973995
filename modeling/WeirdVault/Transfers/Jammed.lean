import WeirdVault.Transfers.Hanging

/-! # A copy between hosts that hangs -/

namespace WeirdVault.Transfers

open WeirdVault.Framework

variable {c : Copy} {s : State}

def State.channel (s : State) : List UInt8 × List UInt8 × Option (Except String Unit) :=
  (s.left,s.arrived,s.command)

private theorem copied_channel (c : Copy) (s : State) (copyErr : Option String) :
    (s.copied c copyErr).channel = s.channel := by
  unfold State.copied
  split
  · rfl
  · split <;> rfl

private theorem room_channel (c : Copy) (s : State) : (s.room c).channel = s.channel := by
  unfold State.room
  split
  · rfl
  · split
    · exact copied_channel c s _
    · rfl

private theorem push_channel (c : Copy) (s : State) (chunk : Chunk) :
    (s.push c chunk).channel = s.channel := by
  unfold State.push
  split
  · exact copied_channel c s _
  · exact room_channel c _

private theorem fed_channel (c : Copy) (s : State) (copyErr : Option String) :
    (s.fed c copyErr).channel = s.channel := by
  unfold State.fed
  split
  · rfl
  · split <;> rfl

private theorem next_channel (c : Copy) (s : State) : (s.next c).channel = s.channel := by
  unfold State.next
  split
  · exact fed_channel c s _
  · split
    · rfl
    · split
      · exact fed_channel c s _
      · rfl

theorem step_channel (c : Copy) (s : State) (a : Action) :
    (step c s a).channel = s.channel ∨
    (∃ n, s.command = none ∧ s.arrived.length+n ≤ c.window ∧ n ≤ s.left.length ∧
      (step c s a).channel = (s.left.drop n,s.arrived ++ s.left.take n,none)) ∨
    (∃ n, s.source = .copying ∧
      (step c s a).channel = (s.left,s.arrived.drop n,s.command)) ∨
    (s.left = [] ∧ (step c s a).channel = ([],s.arrived,some (.ok ()))) ∨
    (∃ e, (a = .commandFails e ∨ s.source = .copying) ∧
      (step c s a).channel = ([],s.arrived,some (.error e))) := by
  cases a with
  | send n =>
    simp only [step]
    split
    · next hsend =>
      right; left
      refine ⟨n,hsend.1,hsend.2.2.2,hsend.2.2.1,?_⟩
      simp [State.channel,hsend.1]
    · exact .inl rfl
  | exit =>
    simp only [step]
    split
    · next hexit =>
      right; right; right; left
      exact ⟨hexit.2,by simp [State.channel,hexit.2]⟩
    · exact .inl rfl
  | read n =>
    simp only [step]
    split
    · next hread =>
      right; right; left
      exact ⟨n,hread.1,push_channel c _ _⟩
    · exact .inl rfl
  | eof =>
    simp only [step]
    left
    split
    · split
      · exact copied_channel c s _
      · rfl
    · rfl
  | resumePush =>
    simp only [step]
    left
    split
    · exact room_channel c s
    · rfl
  | pull =>
    simp only [step]
    left
    split
    · exact next_channel c s
    · rfl
  | resumePull =>
    simp only [step]
    left
    split
    · exact next_channel c s
    · rfl
  | write =>
    simp only [step]
    left
    split
    · rfl
    · exact fed_channel c s _
    · rfl
  | openFails e =>
    simp only [step]
    split
    · next hopen => exact .inr (.inr (.inr (.inr ⟨e,.inr hopen.1,rfl⟩)))
    · exact .inl rfl
  | commandFails e =>
    simp only [step]
    split
    · exact .inr (.inr (.inr (.inr ⟨e,.inl rfl,rfl⟩)))
    · exact .inl rfl
  | _ =>
    left
    simp only [step]
    first
      | rfl
      | split <;> rfl

theorem window_run (c : Copy) (as : List Action) :
    (runActs (step c) (start c) as).arrived.length ≤ c.window := by
  refine invariant_runActs (fun s => s.arrived.length ≤ c.window) ?_ (Nat.zero_le _)
    (along_true (step c) (start c) as)
  intro s a hs _
  have hchannel := step_channel c s a
  simp only [State.channel,Prod.mk.injEq] at hchannel
  rcases hchannel with ⟨_,h,_⟩ | ⟨n,_,hroom,_,_,h,_⟩ | ⟨n,_,_,h,_⟩ | ⟨_,_,h,_⟩ | ⟨_,_,_,h,_⟩
  · rwa [h]
  · rw [h,List.length_append,List.length_take]
    omega
  · rw [h,List.length_drop]
    omega
  · rwa [h]
  · rwa [h]

/-- `sess.Wait` waits for a command that has more to send than the channel takes. -/
structure Jammed (c : Copy) (s : State) : Prop where
  waits : ∃ e, s.source = .waiting (some e)
  running : s.command = none
  arrived : s.arrived.length ≤ c.window
  left : c.window < s.left.length+s.arrived.length

theorem jammed_step (h : Jammed c s) {a : Action} (ha : ∀ e, a ≠ .commandFails e) :
    Jammed c (step c s a) := by
  obtain ⟨e,hsource⟩ := h.waits
  have hrest : Resting s := by
    constructor
    · simp [hsource]
    · simp [hsource]
    · simp [hsource]
    · exact fun _ _ => h.running
  have hwaits : ∃ e, (step c s a).source = .waiting (some e) := ⟨e,(source_stays hrest a).trans hsource⟩
  have hleft := h.left
  have harrived := h.arrived
  have hchannel := step_channel c s a
  simp only [State.channel,Prod.mk.injEq] at hchannel
  rcases hchannel with ⟨hl,hr,hk⟩ | ⟨n,_,hroom,hn,hl,hr,hk⟩ | ⟨_,hs,_⟩ | ⟨hl,_⟩ | ⟨x,hx | hs,_⟩
  · refine ⟨hwaits,hk.trans h.running,?_,?_⟩
    · rwa [hr]
    · rwa [hl,hr]
  · refine ⟨hwaits,hk,?_,?_⟩
    · rw [hr,List.length_append,List.length_take]
      omega
    · rw [hl,hr,List.length_append,List.length_take,List.length_drop]
      omega
  · exact absurd hs hrest.read
  · rw [hl,List.length_nil] at hleft
    omega
  · exact absurd hx (ha x)
  · exact absurd hs hrest.read

private theorem refused_jams {e : String} (hdir : c.isDir) (hexited : s.command.isSome → s.left = [])
    (harrived : s.arrived.length ≤ c.window) (hleft : c.window < s.left.length+s.arrived.length) :
    Jammed c (s.refused c e) := by
  have hrunning : s.command = none := by
    cases hk : s.command with
    | none => rfl
    | some _ =>
      rw [hexited (by simp [hk]),List.length_nil] at hleft
      omega
  simp only [State.refused,State.copied,hdir,if_true]
  exact ⟨⟨_,rfl⟩,hrunning,harrived,hleft⟩

theorem unfit_jams (hc : Carried c s) (hwindow : s.arrived.length ≤ c.window) {a : Action}
    (ha : ¬fits c s a) : Jammed c (step c s a) := by
  cases a with
  | read n =>
    simp only [fits,decide_eq_true_eq,not_forall,Nat.not_le] at ha
    obtain ⟨⟨hdir,hsource,hfailure,hread⟩,hleft⟩ := ha
    obtain ⟨e,he⟩ := Option.ne_none_iff_exists'.mp hfailure
    simp only [step,if_pos (And.intro hsource hread),State.push,he]
    refine refused_jams hdir ?_ ?_ ?_
    · exact hc.exited
    · rw [List.length_drop]
      omega
    · rwa [List.length_drop]
  | resumePush =>
    simp only [fits,decide_eq_true_eq,not_forall,Nat.not_le] at ha
    obtain ⟨⟨hdir,hsource,hfailure⟩,hleft⟩ := ha
    obtain ⟨e,he⟩ := Option.ne_none_iff_exists'.mp hfailure
    simp only [step,if_pos hsource,State.room,he,reduceCtorEq,false_and,and_false,if_false]
    exact refused_jams hdir hc.exited hwindow hleft
  | _ => exact absurd rfl ha

theorem unfit_never_settles (c : Copy) (as bs : List Action) {a : Action}
    (ha : ¬fits c (runActs (step c) (start c) as) a)
    (hbs : Along (step c) (fun _ b => ∀ e, b ≠ .commandFails e)
      (step c (runActs (step c) (start c) as) a) bs) :
    outcome c (runActs (step c) (start c) (as ++ a :: bs)) = none := by
  have hjam := unfit_jams (carried_run c as) (window_run c as) ha
  have hend := invariant_runActs (Jammed c) (fun _ _ h hb => jammed_step h hb) hjam hbs
  obtain ⟨e,hsource⟩ := hend.waits
  rw [runActs_append,runActs_cons]
  simp only [outcome,hsource]

/-- The user cancels while `tar` has two bytes to go, and the channel takes one. -/
def cancelledEarly : List Action :=
  [.send 1,.abort,.read 1,.pull,.sinkExit,.sinkWaited,.writeSettles,.send 1]

/-- `sess.Wait` waits for a command that waits for a reader. -/
theorem copy_hangs :
    let s := runActs (step smallTree) (start smallTree) cancelledEarly
    outcome smallTree s = none ∧ ∀ a : Action, a.outside = false → step smallTree s a = s := by
  have hend : runActs (step smallTree) (start smallTree) cancelledEarly =
      { start smallTree with
        failure := some "stream tar: source: Error: cancelled"
        source := .waiting (some "sink: Error: cancelled")
        destination := .settled (.error "stream tar: source: Error: cancelled")
        left := [3]
        arrived := [2]
        moved := 1
        sinkCommand := some (.ok ()) } := by
    decide +kernel
  intro s
  refine ⟨by decide +kernel,?_⟩
  intro a ha
  change step smallTree (runActs (step smallTree) (start smallTree) cancelledEarly) a =
    runActs (step smallTree) (start smallTree) cancelledEarly
  rw [hend]
  cases a with
  | send n =>
    simp only [step]
    apply if_neg
    intro hsend
    have hroom := hsend.2.2.2
    simp only [List.length_singleton,smallTree] at hroom
    omega
  | exit => rfl
  | read n => rfl
  | eof => rfl
  | resumePush => rfl
  | waited => rfl
  | readSettles => rfl
  | pull => rfl
  | resumePull => rfl
  | write => rfl
  | sinkExit => rfl
  | sinkWaited => rfl
  | writeSettles => rfl
  | openFails e => simp [Action.outside] at ha
  | createFails e => simp [Action.outside] at ha
  | commandFails e => simp [Action.outside] at ha
  | sinkFails result => simp [Action.outside] at ha
  | abort => simp [Action.outside] at ha

end WeirdVault.Transfers
