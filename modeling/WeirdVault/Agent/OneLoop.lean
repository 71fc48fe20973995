import WeirdVault.Agent.Supervisor

/-! # One loop per identity -/

namespace WeirdVault.Agent.Supervisor

open WeirdVault.Framework

/-- The context of the loop is not cancelled and its clean-up has not run. -/
def Uncancelled (l : Loop) : Prop := l.cancelled = false ∧ l.phase ≠ .gone

def Current (l : Loop) : Prop := Uncancelled l ∧ l.stopping = false

instance (l : Loop) : Decidable (Uncancelled l) := inferInstanceAs (Decidable (_ ∧ _))

instance (l : Loop) : Decidable (Current l) := inferInstanceAs (Decidable (_ ∧ _))

/-- The cancel in `running` and the identity in `live` are this loop's. -/
def Owns (s : Supervisor) (l : Loop) : Prop :=
  s.running.get? l.name = some (l.name,l.id) ∧ s.live.get? l.name = some (l.name,l.id)

instance (s : Supervisor) (l : Loop) : Decidable (Owns s l) := inferInstanceAs (Decidable (_ ∧ _))

def Rejects (name : String) (s : Supervisor) (a : Action) : Prop :=
  name ∉ s.rejected ∧ name ∈ (step s a).rejected

/-- The step is the clean-up of the loop that `running` has under the name, and the relay had
rejected that loop. -/
def CurrentRejected (name : String) (s : Supervisor) (a : Action) : Prop :=
  ∃ l, s.loops.get? l.id = some l ∧ a = .cleanUp l.id ∧ l.name = name ∧ l.phase = .rejected ∧
    s.running.get? name = some (name,l.id)

/-- A clean-up under this name finds the entry of its own loop, or none. -/
def Owned (name : String) (s : Supervisor) : Action → Prop
  | .cleanUp id => ∀ l, s.loops.get? id = some l → l.name = name →
      s.running.get? name = none ∨ s.running.get? name = some (name,id)
  | _ => True

instance (name : String) (s : Supervisor) : (a : Action) → Decidable (Owned name s a)
  | .cleanUp id => inferInstanceAs (Decidable (∀ l ∈ s.loops.get? id, _ → _))
  | .desired _ => .isTrue trivial
  | .sweep => .isTrue trivial
  | .start _ _ => .isTrue trivial
  | .stop _ => .isTrue trivial
  | .cancelStopped _ => .isTrue trivial
  | .reject _ => .isTrue trivial
  | .finish _ => .isTrue trivial

structure Inv (name : String) (s : Supervisor) : Prop where
  fresh : ∀ id l, s.loops.get? id = some l → id < s.next
  owned : ∀ l, s.loops.get? l.id = some l → l.name = name → Current l → Owns s l
  free : ∀ starts, s.pass = .starting starts → name ∈ starts → s.running.get? name = none

variable {name : String} {s : Supervisor}

private theorem updateLoop_cases {id : Nat} {f : Loop → Loop} {hf : ∀ l, (f l).id = l.id} {k : Nat}
    {l : Loop} (h : (s.updateLoop id f hf).loops.get? k = some l) :
    (k ≠ id ∧ s.loops.get? k = some l) ∨ (k = id ∧ ∃ l', s.loops.get? k = some l' ∧ f l' = l) := by
  rw [get?_updateLoop] at h
  split at h
  · rename_i hk
    obtain ⟨l',hl',hf'⟩ := Option.map_eq_some_iff.mp h
    exact Or.inr ⟨hk,l',hl',hf'⟩
  · rename_i hk
    exact Or.inl ⟨hk,h⟩

private theorem inv_updateLoop (h : Inv name s) {id : Nat} {f : Loop → Loop}
    {hf : ∀ l, (f l).id = l.id} (hname : ∀ l, (f l).name = l.name)
    (hcurrent : ∀ l, s.loops.get? id = some l → Current (f l) → Current l) :
    Inv name (s.updateLoop id f hf) := by
  refine ⟨?_,?_,h.free⟩
  · intro k l hl
    rcases updateLoop_cases hl with ⟨-,hold⟩ | ⟨-,l',hold,-⟩
    · exact h.fresh k l hold
    · exact h.fresh k l' hold
  · intro l hl hn hc
    rcases updateLoop_cases hl with ⟨-,hold⟩ | ⟨hid,l',hold,rfl⟩
    · exact h.owned l hold hn hc
    · have hself : s.loops.get? l'.id = some l' := hf l' ▸ hold
      have hc' := hcurrent l' (hid ▸ hold) hc
      have howns := h.owned l' hself ((hname l').symm.trans hn) hc'
      simpa only [Owns,updateLoop,hname,hf] using howns

private theorem inv_sweep (h : Inv name s) (want : List String) : Inv name (s.sweep want) := by
  have hloops : ∀ k l, (s.sweep want).loops.get? k = some l → ∃ l', s.loops.get? k = some l' ∧
      (l = l' ∨ l = l'.cancel) ∧ (Current l → l = l' ∧ ∀ e ∈ s.running.rows, e.1 ∉ want →
        e.2 ≠ l'.id) := by
    intro k l hl
    rw [sweep,Table.get?_adjust] at hl
    obtain ⟨l',hl',rfl⟩ := Option.map_eq_some_iff.mp hl
    refine ⟨l',hl',?_,?_⟩
    · split
      · exact Or.inr rfl
      · exact Or.inl rfl
    · intro hc
      split at hc
      · exact absurd hc.1.1 (by simp [Loop.cancel])
      · rename_i hany
        rw [if_neg hany]
        refine ⟨rfl,?_⟩
        intro e he hwant heq
        apply hany
        rw [List.any_eq_true]
        exact ⟨e,by simpa using ⟨he,hwant⟩,by simpa using heq⟩
  refine ⟨?_,?_,?_⟩
  · intro k l hl
    obtain ⟨l',hl',-⟩ := hloops k l hl
    exact h.fresh k l' hl'
  · intro l hl hn hc
    obtain ⟨l',hl',-,hkept⟩ := hloops l.id l hl
    obtain ⟨rfl,hout⟩ := hkept hc
    obtain ⟨hrun,hlive⟩ := h.owned l hl' hn hc
    have hwant : l.name ∈ want := by
      by_contra hnot
      exact hout _ (Table.mem_of_get? hrun) hnot rfl
    refine ⟨?_,?_⟩
    · rw [sweep,Table.get?_keep,hrun]
      simp [Option.filter,hwant]
    · rw [sweep,Table.get?_keep,hlive]
      have hnone : ∀ x, (l.name,x) ∈ s.running.rows → l.name ∈ want := fun _ _ => hwant
      simpa [Option.filter] using hnone
  · intro starts hpass hmem
    obtain rfl := Pass.starting.inj hpass
    have hfree := (List.mem_filter.mp hmem).2
    simp only [Bool.and_eq_true,Option.isNone_iff_eq_none] at hfree
    exact hfree.1

private theorem inv_start (h : Inv name s) {started : String} {starts : List String}
    (hpass : s.pass = .starting starts) (hmem : started ∈ starts) (readable : Bool) :
    Inv name ({ s with pass := .starting (starts.filter (· ≠ started)) }.start started readable) := by
  have hfree : ∀ left, Pass.starting (starts.filter (· ≠ started)) = .starting left →
      name ∈ left → started ≠ name ∧ s.running.get? name = none := by
    intro left hleft hin
    obtain rfl := Pass.starting.inj hleft
    have hfilter := List.mem_filter.mp hin
    exact ⟨fun he => by simp [he] at hfilter,h.free starts hpass hfilter.1⟩
  cases readable with
  | false => exact ⟨h.fresh,h.owned,fun left hleft hin => (hfree left hleft hin).2⟩
  | true =>
    refine ⟨?_,?_,?_⟩
    · intro id l hl
      simp only [start,if_true,Table.get?_put] at hl
      split at hl
      · rename_i hid
        simp only [start,if_true]
        omega
      · have hlt := h.fresh id l hl
        simp only [start,if_true]
        omega
    · intro l hl hn hc
      simp only [start,if_true,Table.get?_put] at hl
      split at hl
      · obtain rfl := Option.some.inj hl
        exact ⟨Table.get?_put_self s.running (started,s.next),
          Table.get?_put_self s.live (started,s.next)⟩
      · obtain ⟨hrun,hlive⟩ := h.owned l hl hn hc
        have hne : started ≠ l.name := by
          intro he
          have hnone := h.free starts hpass (by rw [← hn,← he]; exact hmem)
          rw [hn,hnone] at hrun
          simp at hrun
        exact ⟨(Table.get?_put_of_ne _ hne).trans hrun,(Table.get?_put_of_ne _ hne).trans hlive⟩
    · intro left hleft hin
      obtain ⟨hne,hnone⟩ := hfree left hleft hin
      exact (Table.get?_put_of_ne _ hne).trans hnone

private theorem inv_erase_ne (h : Inv name s) {other : String} (hne : name ≠ other) (keepLive : Bool)
    (rejected : List String) : Inv name { s with
      running := s.running.erase other
      live := if keepLive then s.live else s.live.erase other
      rejected := rejected } := by
  refine ⟨h.fresh,?_,?_⟩
  · intro l hl hn hc
    obtain ⟨hrun,hlive⟩ := h.owned l hl hn hc
    have hname : other ≠ l.name := by
      rw [hn]
      exact Ne.symm hne
    refine ⟨?_,?_⟩
    · rw [Table.get?_erase,if_neg hname]
      exact hrun
    · cases keepLive with
      | true => exact hlive
      | false =>
        change (s.live.erase other).get? l.name = _
        rw [Table.get?_erase,if_neg hname]
        exact hlive
  · intro starts hpass hmem
    rw [Table.get?_erase,if_neg (Ne.symm hne)]
    exact h.free starts hpass hmem

private theorem inv_stop (h : Inv name s) (stopped : String) :
    Inv name (s.stopIdentityFile stopped) := by
  unfold stopIdentityFile
  by_cases hne : name = stopped
  · subst hne
    -- The only current loop of the name was the one whose cancel is now scheduled.
    have hcurrent : ∀ l, s.loops.get? l.id = some l → l.name = name → Current l →
        s.running.get? name = some (name,l.id) := by
      intro l hl hn hc
      have hrun := (h.owned l hl hn hc).1
      rwa [hn] at hrun
    cases hrun : s.running.get? name with
    | none =>
      refine ⟨h.fresh,?_,fun _ _ _ => Table.get?_erase_self _ _⟩
      intro l hl hn hc
      have hsome := hcurrent l hl hn hc
      rw [hrun] at hsome
      simp at hsome
    | some e =>
      obtain ⟨n,cancel⟩ := e
      refine ⟨?_,?_,fun _ _ _ => Table.get?_erase_self _ _⟩
      · intro k l hl
        rcases updateLoop_cases hl with ⟨-,hold⟩ | ⟨-,l',hold,-⟩
        · exact h.fresh k l hold
        · exact h.fresh k l' hold
      · intro l hl hn hc
        rcases updateLoop_cases hl with ⟨hid,hold⟩ | ⟨-,l',-,rfl⟩
        · have hsome := hcurrent l hold hn hc
          rw [hrun] at hsome
          simp only [Option.some.injEq,Prod.mk.injEq] at hsome
          exact absurd hsome.2.symm hid
        · exact absurd hc.2 (by simp [Loop.stop])
  · have herased := inv_erase_ne h hne false s.rejected
    cases s.running.get? stopped with
    | none => exact herased
    | some e =>
      apply inv_updateLoop herased
      · intro l
        rfl
      · intro l _ hc
        exact absurd hc.2 (by simp [Loop.stop])

private theorem inv_cleanUp (h : Inv name s) {l : Loop}
    (howned : l.name = name →
      s.running.get? name = none ∨ s.running.get? name = some (name,l.id)) :
    Inv name (s.cleanUp l) := by
  unfold cleanUp
  by_cases hne : name = l.name
  · subst hne
    refine ⟨?_,?_,fun _ _ _ => Table.get?_erase_self _ _⟩
    · intro k l' hl'
      rcases updateLoop_cases hl' with ⟨-,hold⟩ | ⟨-,l₀,hold,-⟩
      · exact h.fresh k l' hold
      · exact h.fresh k l₀ hold
    · intro l' hl' hn hc
      rcases updateLoop_cases hl' with ⟨hid,hold⟩ | ⟨-,l₀,-,rfl⟩
      · have hrun := (h.owned l' hold hn hc).1
        rw [hn] at hrun
        rcases howned rfl with hnone | hself
        · rw [hnone] at hrun
          simp at hrun
        · rw [hself] at hrun
          simp only [Option.some.injEq,Prod.mk.injEq] at hrun
          exact absurd hrun.2.symm hid
      · exact absurd hc.1.1 (by simp [Loop.finish])
  · have herased := inv_erase_ne h hne (decide (l.phase = .rejected))
      (if (s.running.get? l.name).isSome ∧ l.phase = .rejected then l.name :: s.rejected
        else s.rejected)
    simp only [decide_eq_true_eq] at herased
    apply inv_updateLoop herased
    · intro l
      rfl
    · intro l _ hc
      exact absurd hc.1.1 (by simp [Loop.finish])

private theorem inv_setPhase (h : Inv name s) {id : Nat} {l : Loop} (hl : s.loops.get? id = some l)
    (hserving : l.phase = .serving) (phase : Phase) :
    Inv name (s.updateLoop id (Loop.setPhase phase) (fun _ => rfl)) := by
  apply inv_updateLoop h
  · intro l
    rfl
  · intro l' hl' hc
    obtain rfl := Option.some.inj (hl.symm.trans hl')
    exact ⟨⟨hc.1.1,by simp [hserving]⟩,hc.2⟩

private theorem inv_step {a : Action} (h : Inv name s) (hok : Owned name s a) :
    Inv name (step s a) := by
  have hpass : ∀ pass, (∀ starts, pass ≠ .starting starts) → Inv name { s with pass := pass } :=
    fun pass hne => ⟨h.fresh,h.owned,fun starts hp => absurd hp (hne starts)⟩
  cases a with
  | desired listing =>
    dsimp only [step]
    split
    · exact hpass (.read _) (by simp)
    · exact hpass (.read _) (by simp)
    · exact h
  | sweep =>
    dsimp only [step]
    split
    · exact inv_sweep h _
    · exact h
  | start started readable =>
    dsimp only [step]
    split
    · rename_i starts hstarting
      split
      · rename_i hmem
        exact inv_start h hstarting hmem readable
      · exact h
    · exact h
  | stop id =>
    dsimp only [step]
    split
    · split
      · exact inv_stop h _
      · exact h
    · exact h
  | cancelStopped id =>
    dsimp only [step]
    split
    · split
      · apply inv_updateLoop h
        · intro l
          rfl
        · intro l _ hc
          exact absurd hc.1.1 (by simp [Loop.cancel])
      · exact h
    · exact h
  | reject id =>
    dsimp only [step]
    split
    · rename_i l hl
      split
      · rename_i hserving
        exact inv_setPhase h hl hserving.1 _
      · exact h
    · exact h
  | finish id =>
    dsimp only [step]
    split
    · rename_i l hl
      split
      · rename_i hserving
        exact inv_setPhase h hl hserving.1 _
      · exact h
    · exact h
  | cleanUp id =>
    cases hl : s.loops.get? id with
    | none => simpa only [step,hl] using h
    | some l =>
      have hid : l.id = id := Table.key_of_get? hl
      subst hid
      simp only [step,hl]
      split
      · exact inv_cleanUp h (hok l hl)
      · exact h

theorem inv_run {as : List Action} (h : Along step (Owned name) newSupervisor as) :
    Inv name (runActs step newSupervisor as) := by
  have hstart : Inv name newSupervisor := by
    refine ⟨?_,?_,?_⟩
    · intro id l hl
      simp [newSupervisor] at hl
    · intro l hl
      simp [newSupervisor] at hl
    · intro starts hpass
      simp [newSupervisor] at hpass
  exact invariant_runActs (Inv name) (fun _ _ hi hok => inv_step hi hok) hstart h

private theorem rejects_current {a : Action} (hok : Owned name s a) (h : Rejects name s a) :
    CurrentRejected name s a := by
  obtain ⟨hnot,hin⟩ := h
  cases a with
  | desired listing =>
    dsimp only [step] at hin
    split at hin <;> exact absurd hin hnot
  | sweep =>
    dsimp only [step] at hin
    split at hin
    · exact absurd (List.mem_filter.mp hin).1 hnot
    · exact absurd hin hnot
  | start started readable =>
    dsimp only [step] at hin
    split at hin
    · split at hin
      · cases readable <;> exact absurd hin hnot
      · exact absurd hin hnot
    · exact absurd hin hnot
  | stop id =>
    dsimp only [step] at hin
    split at hin
    · split at hin
      · unfold stopIdentityFile at hin
        dsimp only at hin
        split at hin <;> exact absurd hin hnot
      · exact absurd hin hnot
    · exact absurd hin hnot
  | cancelStopped id =>
    dsimp only [step] at hin
    split at hin
    · split at hin <;> exact absurd hin hnot
    · exact absurd hin hnot
  | reject id =>
    dsimp only [step] at hin
    split at hin
    · split at hin <;> exact absurd hin hnot
    · exact absurd hin hnot
  | finish id =>
    dsimp only [step] at hin
    split at hin
    · split at hin <;> exact absurd hin hnot
    · exact absurd hin hnot
  | cleanUp id =>
    cases hl : s.loops.get? id with
    | none =>
      simp only [step,hl] at hin
      exact absurd hin hnot
    | some l =>
      have hid : l.id = id := Table.key_of_get? hl
      subst hid
      simp only [step,hl] at hin
      split at hin
      · simp only [cleanUp,updateLoop] at hin
        split at hin
        · rename_i hrejected
          rcases List.mem_cons.mp hin with rfl | hold
          · refine ⟨l,hl,rfl,rfl,hrejected.2,?_⟩
            rcases hok l hl rfl with hnone | hself
            · simp [hnone] at hrejected
            · exact hself
          · exact absurd hold hnot
        · exact absurd hin hnot
      · exact absurd hin hnot

/-- Until a clean-up finds the entry of a newer loop under the name, at most one loop of the name is
neither cancelled nor about to be, it has its own entries, and only the rejection of the loop that
`running` has puts the name in `rejected`. -/
theorem one_loop_per_name (name : String) (as : List Action)
    (h : Along step (Owned name) newSupervisor as) :
    (∀ l ∈ (runActs step newSupervisor as).loops.rows,
      ∀ l' ∈ (runActs step newSupervisor as).loops.rows, l.name = name → l'.name = name →
        Current l → Current l' → l = l') ∧
    (∀ l ∈ (runActs step newSupervisor as).loops.rows, l.name = name → Current l →
      Owns (runActs step newSupervisor as) l) ∧
    ∀ a, Owned name (runActs step newSupervisor as) a →
      Rejects name (runActs step newSupervisor as) a →
        CurrentRejected name (runActs step newSupervisor as) a := by
  have hinv := inv_run h
  have howns : ∀ l ∈ (runActs step newSupervisor as).loops.rows, l.name = name → Current l →
      Owns (runActs step newSupervisor as) l :=
    fun l hl hn hc => hinv.owned l (Table.get?_of_mem hl) hn hc
  refine ⟨?_,howns,fun a hok hr => rejects_current hok hr⟩
  intro l hl l' hl' hn hn' hc hc'
  have hrun := (howns l hl hn hc).1
  have hrun' := (howns l' hl' hn' hc').1
  have hid : l.id = l'.id := by
    rw [hn] at hrun
    rw [hn',hrun] at hrun'
    simpa using hrun'
  have hsome := Table.get?_of_mem hl
  rw [hid,Table.get?_of_mem hl'] at hsome
  exact (Option.some.inj hsome).symm

private def demoListing : Listing := .dir [⟨"a.json",false,false⟩]

/-- Stopped from the dashboard, ended, and started again once the marker is gone. -/
private def demoRestarted : List Action :=
  [.desired demoListing,.sweep,.start "a" true,.stop 0,.cancelStopped 0,.finish 0,.cleanUp 0,
    .desired demoListing,.sweep,.start "a" true]

theorem one_loop_per_name_demo :
    Owns (runActs step newSupervisor demoRestarted) ⟨1,"a",false,false,.serving,0⟩ :=
  (one_loop_per_name "a" demoRestarted (by decide)).2.1 _ (by decide) rfl (by decide)

/-- A stop takes the entries at once and cancels later: in between an uncancelled loop has none. -/
theorem uncancelled_unowned : ¬ ∀ as : List Action,
    (∀ l ∈ (runActs step newSupervisor as).loops.rows,
      ∀ l' ∈ (runActs step newSupervisor as).loops.rows, l.name = l'.name →
        Uncancelled l → Uncancelled l' → l = l') ∧
    (∀ l ∈ (runActs step newSupervisor as).loops.rows, Uncancelled l →
      Owns (runActs step newSupervisor as) l) ∧
    ∀ name a, Rejects name (runActs step newSupervisor as) a →
      CurrentRejected name (runActs step newSupervisor as) a := by
  intro h
  have howns := (h [.desired demoListing,.sweep,.start "a" true,.stop 0]).2.1
    ⟨0,"a",false,true,.serving,0⟩ (by decide) (by decide)
  revert howns
  decide

/-- A clean-up that finds the entry of a newer loop takes it all the same, and a rejection of the
older loop keeps the name from being started again. -/
theorem stale_cleanUp_disowns {s : Supervisor} {l : Loop} {newer : Nat}
    (h : s.running.get? l.name = some (l.name,newer)) :
    (s.cleanUp l).running.get? l.name = none ∧
      (l.phase = .rejected → l.name ∈ (s.cleanUp l).rejected) ∧
      (l.phase ≠ .rejected → (s.cleanUp l).live.get? l.name = none) := by
  refine ⟨Table.get?_erase_self _ _,?_,?_⟩
  · intro hrejected
    simp [cleanUp,updateLoop,h,hrejected]
  · intro hfinished
    simp [cleanUp,updateLoop,hfinished]

end WeirdVault.Agent.Supervisor
