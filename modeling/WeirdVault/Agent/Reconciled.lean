import WeirdVault.Agent.Directory

/-! # What should run after a reconcile -/

namespace WeirdVault.Agent

open WeirdVault.Framework

structure Supervisor.Named (s : Supervisor) : Prop where
  fresh : ∀ id l, s.loops.get? id = some l → id < s.next
  named : ∀ name id, s.running.get? name = some (name,id) →
    ∃ l, s.loops.get? id = some l ∧ l.name = name

namespace Supervisor

theorem step_running (s : Supervisor) (a : Action) :
    (∀ name e, (s.step a).running.get? name = some e → s.running.get? name = some e) ∨
    ∃ name starts, s.pass = .starting starts ∧ name ∈ starts ∧
      (s.step a).running = s.running.put (name,s.next) ∧
      (s.step a).loops = s.loops.put ⟨s.next,name,false,false,.serving,0⟩ := by
  have herase : ∀ (t : NameMap) (n : String) name e, (t.erase n).get? name = some e →
      t.get? name = some e := by
    intro t n name e h
    rw [Table.get?_erase] at h
    split at h
    · cases h
    · exact h
  cases a with
  | desired listing =>
    left
    dsimp only [step]
    split <;> exact fun _ _ h => h
  | sweep =>
    left
    dsimp only [step]
    split
    · intro name e h
      rw [sweep,Table.get?_keep] at h
      exact (Option.filter_eq_some_iff.mp h).1
    · exact fun _ _ h => h
  | start name readable =>
    dsimp only [step]
    split
    · rename_i starts hpass
      split
      · rename_i hmem
        cases readable with
        | true => exact Or.inr ⟨name,starts,hpass,hmem,rfl,rfl⟩
        | false => exact Or.inl fun _ _ h => h
      · exact Or.inl fun _ _ h => h
    · exact Or.inl fun _ _ h => h
  | stop id =>
    left
    dsimp only [step]
    split
    · split
      · unfold stopIdentityFile
        dsimp only
        split <;> exact herase _ _
      · exact fun _ _ h => h
    · exact fun _ _ h => h
  | cancelStopped id | reject id | finish id =>
    left
    dsimp only [step]
    split
    · split <;> exact fun _ _ h => h
    · exact fun _ _ h => h
  | cleanUp id =>
    left
    dsimp only [step]
    split
    · split
      · exact herase _ _
      · exact fun _ _ h => h
    · exact fun _ _ h => h

theorem Named.step {s : Supervisor} (h : s.Named) (a : Action) : (s.step a).Named := by
  have hfresh : ∀ id l, (s.step a).loops.get? id = some l → id < (s.step a).next := by
    intro id l hl
    rcases step_loops s a with ⟨hnext,hsame⟩ | ⟨hnext,name,hnew⟩
    · obtain ⟨g,-,hg⟩ := hsame id
      rw [hg] at hl
      obtain ⟨l',hl',-⟩ := Option.map_eq_some_iff.mp hl
      exact hnext ▸ h.fresh id l' hl'
    · rw [hnew,Table.get?_put] at hl
      split at hl
      · rename_i hid
        have hlast : s.next = id := hid
        omega
      · have hlt := h.fresh id l hl
        omega
  refine ⟨hfresh,?_⟩
  intro name id hrun
  rcases step_running s a with hold | ⟨started,-,-,-,hput,hloops⟩
  · obtain ⟨l,hl,rfl⟩ := h.named name id (hold name _ hrun)
    rcases step_loops s a with ⟨-,hsame⟩ | ⟨-,n,hnew⟩
    · obtain ⟨g,hg,hget⟩ := hsame id
      exact ⟨g l,by rw [hget,hl]; rfl,(hg l).1⟩
    · have hlt := h.fresh id l hl
      refine ⟨l,?_,rfl⟩
      rw [hnew,Table.get?_put_of_ne _ (by dsimp only; omega),hl]
  · rw [hput,Table.get?_put] at hrun
    split at hrun
    · cases hrun
      exact ⟨_,by rw [hloops]; exact Table.get?_put_self _ _,rfl⟩
    · rename_i hne
      obtain ⟨l,hl,rfl⟩ := h.named name id hrun
      have hlt := h.fresh id l hl
      refine ⟨l,?_,rfl⟩
      rw [hloops,Table.get?_put_of_ne _ (by dsimp only; omega),hl]

end Supervisor

namespace World

variable {w : World} {name : String}

/-- The file behind the name should run: no loop of its content has been rejected. -/
def Due (w : World) (name content : String) : Prop :=
  w.dir.config? name = some (content,true) ∧ (name,content) ∉ w.refusals

/-- The pass in progress is past the name. -/
def Handled (w : World) (name : String) : Prop :=
  ∃ starts, w.sup.pass = .starting starts ∧ name ∉ starts

/-- A pass finds every name that is due served, or neither running nor remembered as rejected. -/
def Ready (w : World) : Prop :=
  ∀ name content, w.Due name content → w.Serves name ∨
    w.sup.running.get? name = none ∧ name ∉ w.sup.rejected

/-- Nothing takes from a name that the pass is past, and that is due, the loop it has. -/
def Meets (w : World) : Event → Prop
  | .sweep => ∀ want, w.sup.pass = .read want → w.Ready
  | .stop id => ∀ l content, w.sup.loops.get? id = some l → l.phase = .serving →
      w.Handled l.name → w.Due l.name content → ¬ w.Serves l.name
  | .cleanUp id => ∀ l content, w.sup.loops.get? id = some l →
      (l.phase = .rejected ∨ l.phase = .finished) → w.Handled l.name → w.Due l.name content →
      ¬ w.Serves l.name
  | .reject id => ∀ l content, w.rejectable? id = some l →
      w.sup.running.get? l.name = some (l.name,id) → w.Handled l.name → w.Due l.name content →
      w.loaded id = content
  | _ => True

def Keeps (w : World) (name : String) : Event → Prop
  | .sweep => ∀ want, w.sup.pass = .read want → name ∈ want
  | .stop id => ∀ l, w.sup.loops.get? id = some l → l.phase = .serving → l.name ≠ name
  | .cleanUp id => ∀ l, w.sup.loops.get? id = some l →
      (l.phase = .rejected ∨ l.phase = .finished) → l.name ≠ name
  | .reject id => ∀ l, w.rejectable? id = some l → w.sup.running.get? name ≠ some (name,id)
  | _ => True

private theorem serves_updateLoop {s : Supervisor} {id : Nat} {f : Loop → Loop}
    {hf : ∀ l, (f l).id = l.id} {l : Loop} (hl : s.loops.get? l.id = some l) (hne : l.id ≠ id) :
    (s.updateLoop id f hf).loops.get? l.id = some l := by
  rw [Supervisor.get?_updateLoop,if_neg hne,hl]

theorem serves_sweep {s : Supervisor} (hs : s.Named) {want : List String} {l : Loop}
    (hrun : s.running.get? name = some (name,l.id)) (hl : s.loops.get? l.id = some l)
    (hname : name ∈ want) : (s.sweep want).running.get? name = some (name,l.id) ∧
      (s.sweep want).loops.get? l.id = some l := by
  have hkept : (s.running.rows.filter (fun e => e.1 ∉ want)).any (·.2 == l.id) = false := by
    rw [List.any_eq_false]
    intro e he
    obtain ⟨hmem,hout⟩ := List.mem_filter.mp he
    intro hid
    have hid' : e.2 = l.id := by simpa using hid
    obtain ⟨l',hl',hn'⟩ := hs.named e.1 e.2 (Table.get?_of_mem hmem)
    obtain ⟨l'',hl'',hn''⟩ := hs.named name l.id hrun
    rw [hid',hl''] at hl'
    obtain rfl := Option.some.inj hl'
    rw [← hn',hn''] at hout
    simp [hname] at hout
  constructor
  · rw [Supervisor.sweep,Table.get?_keep,hrun]
    simp [Option.filter,hname]
  · rw [Supervisor.sweep,Table.get?_adjust,hl]
    simp only [hkept,Option.map_some,Bool.false_eq_true,if_false]

theorem serves_step (hs : w.sup.Named) (h : w.Serves name) {e : Event} (hkeep : w.Keeps name e) :
    (w.step e).Serves name := by
  obtain ⟨l,hrun,hl,hphase,hcancelled,hstopping⟩ := h
  have hlt := hs.fresh l.id l hl
  obtain ⟨l',hl',hname⟩ := hs.named name l.id hrun
  obtain rfl : l = l' := Option.some.inj (hl.symm.trans hl')
  cases e with
  | edit d => exact ⟨l,hrun,hl,hphase,hcancelled,hstopping⟩
  | desired =>
    refine ⟨l,?_,?_,hphase,hcancelled,hstopping⟩ <;>
      · dsimp only [step,Event.action,Supervisor.step]
        split <;> assumption
  | sweep =>
    cases hpass : w.sup.pass with
    | read want =>
      obtain ⟨hrun',hloop'⟩ := serves_sweep hs hrun hl (hkeep want hpass)
      refine ⟨l,?_,?_,hphase,hcancelled,hstopping⟩ <;>
        simpa only [step,Event.action,Supervisor.step,hpass]
    | idle | starting starts =>
      refine ⟨l,?_,?_,hphase,hcancelled,hstopping⟩ <;>
        simpa only [step,Event.action,Supervisor.step,hpass]
  | start started =>
    dsimp only [Serves,step,Event.action,Supervisor.step]
    split
    · split
      · unfold Supervisor.start
        split
        · dsimp only
          by_cases hn : started = name
          · subst hn
            exact ⟨_,Table.get?_put_self _ _,Table.get?_put_self _ _,rfl,rfl,rfl⟩
          · refine ⟨l,?_,?_,hphase,hcancelled,hstopping⟩
            · rw [Table.get?_put_of_ne _ hn,hrun]
            · rw [Table.get?_put_of_ne _ (by dsimp only; omega),hl]
        · exact ⟨l,hrun,hl,hphase,hcancelled,hstopping⟩
      · exact ⟨l,hrun,hl,hphase,hcancelled,hstopping⟩
    · exact ⟨l,hrun,hl,hphase,hcancelled,hstopping⟩
  | stop id =>
    dsimp only [Serves,step,Event.action,Supervisor.step]
    split
    · rename_i stopped hstopped
      split
      · rename_i hserving
        have hne := hkeep stopped hstopped hserving
        unfold Supervisor.stopIdentityFile
        dsimp only
        have hrun' : (w.sup.running.erase stopped.name).get? name = some (name,l.id) := by
          rw [Table.get?_erase,if_neg hne,hrun]
        split
        · exact ⟨l,hrun',hl,hphase,hcancelled,hstopping⟩
        · rename_i n cancel hentry
          refine ⟨l,hrun',serves_updateLoop hl ?_,hphase,hcancelled,hstopping⟩
          rintro rfl
          obtain rfl : n = stopped.name := Table.key_of_get? hentry
          obtain ⟨l',hl',hn'⟩ := hs.named _ _ hentry
          obtain rfl : l = l' := Option.some.inj (hl.symm.trans hl')
          exact hne (hn'.symm.trans hname)
      · exact ⟨l,hrun,hl,hphase,hcancelled,hstopping⟩
    · exact ⟨l,hrun,hl,hphase,hcancelled,hstopping⟩
  | cancelStopped id =>
    dsimp only [Serves,step,Event.action,Supervisor.step]
    split
    · rename_i stopped hstopped
      split
      · rename_i hstop
        refine ⟨l,hrun,serves_updateLoop hl ?_,hphase,hcancelled,hstopping⟩
        rintro rfl
        obtain rfl : l = stopped := Option.some.inj (hl.symm.trans hstopped)
        exact absurd hstop (by simp [hstopping])
      · exact ⟨l,hrun,hl,hphase,hcancelled,hstopping⟩
    · exact ⟨l,hrun,hl,hphase,hcancelled,hstopping⟩
  | reject id =>
    dsimp only [Serves,step,Event.action,Supervisor.step]
    split
    · rename_i rejected hrejected
      split
      · rename_i hserving
        refine ⟨l,hrun,serves_updateLoop hl ?_,hphase,hcancelled,hstopping⟩
        rintro rfl
        apply hkeep rejected _ hrun
        rw [rejectable?,hrejected]
        simpa [Option.filter] using hserving
      · exact ⟨l,hrun,hl,hphase,hcancelled,hstopping⟩
    · exact ⟨l,hrun,hl,hphase,hcancelled,hstopping⟩
  | finish id =>
    dsimp only [Serves,step,Event.action,Supervisor.step]
    split
    · rename_i finished hfinished
      split
      · rename_i hover
        refine ⟨l,hrun,serves_updateLoop hl ?_,hphase,hcancelled,hstopping⟩
        rintro rfl
        obtain rfl : l = finished := Option.some.inj (hl.symm.trans hfinished)
        exact absurd hover.2 (by simp [hcancelled])
      · exact ⟨l,hrun,hl,hphase,hcancelled,hstopping⟩
    · exact ⟨l,hrun,hl,hphase,hcancelled,hstopping⟩
  | cleanUp id =>
    dsimp only [Serves,step,Event.action,Supervisor.step]
    split
    · rename_i ended hended
      split
      · rename_i hphases
        have hne := hkeep ended hended hphases
        refine ⟨l,?_,serves_updateLoop hl ?_,hphase,hcancelled,hstopping⟩
        · exact (Table.get?_erase _ _ _).trans ((if_neg hne).trans hrun)
        · rintro hid
          have hended' : w.sup.loops.get? l.id = some ended := by
            rw [hid,Table.key_of_get? hended,hended]
          obtain rfl : l = ended := Option.some.inj (hl.symm.trans hended')
          exact hne hname
      · exact ⟨l,hrun,hl,hphase,hcancelled,hstopping⟩
    · exact ⟨l,hrun,hl,hphase,hcancelled,hstopping⟩

theorem refusals_step {e : Event} {x : String × String} (h : x ∈ w.refusals) :
    x ∈ (w.step e).refusals := by
  cases e with
  | reject id => exact List.mem_append_right _ h
  | _ => exact h

theorem dir_step {e : Event} (he : ∀ d, e ≠ .edit d) : (w.step e).dir = w.dir := by
  cases e with
  | edit d => exact absurd rfl (he d)
  | _ => rfl

theorem named_step (hs : w.sup.Named) (e : Event) : (w.step e).sup.Named := by
  dsimp only [step]
  split
  · exact hs
  · exact hs.step _

theorem named_runActs (d : Directory) (es : List Event) :
    (runActs step (World.new d) es).sup.Named := by
  apply invariant_runActs (fun w : World => w.sup.Named) (fun w e h _ => named_step h e) ?_
    (along_true _ _ _)
  refine ⟨?_,?_⟩ <;> intro _ _ h <;> cases h

private theorem pass_step {e : Event} (hdesired : e ≠ .desired) (hsweep : e ≠ .sweep)
    (hstart : ∀ name, e ≠ .start name) : (w.step e).sup.pass = w.sup.pass := by
  cases e with
  | edit d => rfl
  | desired => exact absurd rfl hdesired
  | sweep => exact absurd rfl hsweep
  | start started => exact absurd rfl (hstart started)
  | stop id =>
    dsimp only [step,Event.action,Supervisor.step]
    split
    · split
      · unfold Supervisor.stopIdentityFile
        dsimp only
        split <;> rfl
      · rfl
    · rfl
  | cancelStopped id | reject id | finish id | cleanUp id =>
    dsimp only [step,Event.action,Supervisor.step]
    split
    · split <;> rfl
    · rfl

private theorem refused {id : Nat} {l : Loop} (h : w.rejectable? id = some l) :
    (l.name,w.loaded id) ∈ (w.step (.reject id)).refusals := by
  apply List.mem_append_left
  rw [h]
  exact List.mem_singleton_self _

private theorem kept_or_refused (hs : w.sup.Named) {e : Event} (hmeets : w.Meets e)
    (hsweep : e ≠ .sweep) {content : String} (hhandled : w.Handled name)
    (hdue : w.Due name content) (h : w.Serves name) :
    w.Keeps name e ∨ (name,content) ∈ (w.step e).refusals := by
  cases e with
  | sweep => exact absurd rfl hsweep
  | edit | desired | start | cancelStopped | finish => exact Or.inl trivial
  | stop id =>
    left
    rintro l hl hserving rfl
    exact hmeets l content hl hserving hhandled hdue h
  | cleanUp id =>
    left
    rintro l hl hphases rfl
    exact hmeets l content hl hphases hhandled hdue h
  | reject id =>
    by_cases hown : ∃ l, w.rejectable? id = some l ∧ w.sup.running.get? name = some (name,id)
    · obtain ⟨l,hl,hrun⟩ := hown
      obtain ⟨l',hl',rfl⟩ := hs.named name id hrun
      obtain rfl : l' = l := Option.some.inj (hl'.symm.trans (Option.filter_eq_some_iff.mp hl).1)
      right
      rw [← hmeets l' content hl hrun hhandled hdue]
      exact refused hl
    · left
      intro l hl hrun
      exact hown ⟨l,hl,hrun⟩

/-- What the pass has seen to, with the names that are still to be started. -/
structure Covered (w : World) (want starts : List String) : Prop where
  left : ∀ name ∈ starts, name ∈ want
  running : ∀ name, (w.sup.running.get? name).isSome → name ∈ want
  due : ∀ name content, w.dir.config? name = some (content,true) →
    name ∈ starts ∨ w.Serves name ∨ (name,content) ∈ w.refusals

/-- Before or after the lock of a pass that has read the directory as it is. -/
def Passing (w : World) : Prop :=
  ∃ want, desired w.dir.listing = some want ∧ (w.sup.pass = .read want ∨
    ∃ starts, w.sup.pass = .starting starts ∧ w.Covered want starts)

private theorem covered_sweep (hs : w.sup.Named) {want : List String}
    (hwant : desired w.dir.listing = some want) (hpass : w.sup.pass = .read want)
    (hready : w.Ready) :
    ∃ starts, (w.step .sweep).sup.pass = .starting starts ∧
      (w.step .sweep).Covered want starts := by
  have hsup : (w.step .sweep).sup = w.sup.sweep want := by
    simp only [step,Event.action,Supervisor.step,hpass]
  refine ⟨_,by rw [hsup]; rfl,?_,?_,?_⟩
  · intro name h
    exact (List.mem_filter.mp h).1
  · intro name h
    rw [hsup,Supervisor.sweep,Table.get?_keep,Option.isSome_iff_exists] at h
    obtain ⟨e,he⟩ := h
    obtain ⟨hget,hmem⟩ := Option.filter_eq_some_iff.mp he
    obtain rfl := Table.key_of_get? hget
    exact of_decide_eq_true hmem
  · intro name content hconfig
    have hmem := Directory.wanted_of_config hwant hconfig
    by_cases hrefused : (name,content) ∈ w.refusals
    · exact Or.inr (Or.inr hrefused)
    · rcases hready name content ⟨hconfig,hrefused⟩ with hserves | ⟨hrun,hrejected⟩
      · refine Or.inr (Or.inl (serves_step hs hserves ?_))
        intro want' hpass'
        cases hpass.symm.trans hpass'
        exact hmem
      · left
        refine List.mem_filter.mpr ⟨hmem,?_⟩
        simp [Table.get?_keep,hrun,hrejected]

private theorem running_step {e : Event} {want starts : List String}
    (hpass : w.sup.pass = .starting starts) (h : w.Covered want starts)
    (hrun : ((w.step e).sup.running.get? name).isSome) : name ∈ want := by
  dsimp only [step] at hrun
  split at hrun
  · exact h.running name hrun
  · rename_i a _
    rcases Supervisor.step_running w.sup a with hold | ⟨started,starts',hpass',hmem,hput,-⟩
    · obtain ⟨entry,hentry⟩ := Option.isSome_iff_exists.mp hrun
      exact h.running name (Option.isSome_iff_exists.mpr ⟨entry,hold name entry hentry⟩)
    · cases hpass.symm.trans hpass'
      rw [hput,Table.get?_put] at hrun
      split at hrun
      · rename_i hname
        exact hname ▸ h.left started hmem
      · exact h.running name hrun

private theorem covered_start (hs : w.sup.Named) {want starts : List String} {started : String}
    (hpass : w.sup.pass = .starting starts) (h : w.Covered want starts) :
    ∃ starts', (w.step (.start started)).sup.pass = .starting starts' ∧
      (w.step (.start started)).Covered want starts' := by
  have hkept : ∀ name content, w.dir.config? name = some (content,true) → name ∉ starts →
      (w.step (.start started)).Serves name ∨
        (name,content) ∈ (w.step (.start started)).refusals := by
    intro name content hconfig hnot
    rcases h.due name content hconfig with hmem | hserves | hrefused
    · exact absurd hmem hnot
    · exact Or.inl (serves_step hs hserves trivial)
    · exact Or.inr hrefused
  by_cases hmem : started ∈ starts
  · refine ⟨starts.filter (· ≠ started),?_,?_,fun _ => running_step hpass h,?_⟩
    · simp only [step,Event.action,Supervisor.step,hpass,if_pos hmem,Supervisor.start]
      split <;> rfl
    · intro name hname
      exact h.left name (List.mem_filter.mp hname).1
    · intro name content hconfig
      by_cases hname : name = started
      · subst hname
        refine Or.inr (Or.inl ⟨⟨w.sup.next,name,false,false,.serving,0⟩,?_⟩)
        have hreadable : w.dir.readable name = true := Directory.readable_of_config hconfig
        simp only [step,Event.action,Supervisor.step,hpass,if_pos hmem]
        rw [Supervisor.start,if_pos hreadable]
        exact ⟨Table.get?_put_self _ _,Table.get?_put_self _ _,trivial,trivial,trivial⟩
      · by_cases hin : name ∈ starts
        · exact Or.inl (List.mem_filter.mpr ⟨hin,decide_eq_true hname⟩)
        · exact Or.inr (hkept name content hconfig hin)
  · refine ⟨starts,?_,h.left,fun _ => running_step hpass h,?_⟩
    · simp only [step,Event.action,Supervisor.step,hpass,if_neg hmem]
    · intro name content hconfig
      by_cases hin : name ∈ starts
      · exact Or.inl hin
      · exact Or.inr (hkept name content hconfig hin)

private theorem covered_other (hs : w.sup.Named) {want starts : List String} {e : Event}
    (hedit : ∀ d, e ≠ .edit d) (hsweep : e ≠ .sweep) (hmeets : w.Meets e)
    (hpass : w.sup.pass = .starting starts) (h : w.Covered want starts) :
    (w.step e).Covered want starts := by
  refine ⟨h.left,fun _ => running_step hpass h,?_⟩
  intro name content hconfig
  rw [dir_step hedit] at hconfig
  by_cases hin : name ∈ starts
  · exact Or.inl hin
  · right
    by_cases hrefused : (name,content) ∈ w.refusals
    · exact Or.inr (refusals_step hrefused)
    · rcases h.due name content hconfig with hmem | hserves | hold
      · exact absurd hmem hin
      · have hdue : w.Due name content := ⟨hconfig,hrefused⟩
        rcases kept_or_refused hs hmeets hsweep ⟨starts,hpass,hin⟩ hdue hserves with hkeep | hnew
        · exact Or.inl (serves_step hs hserves hkeep)
        · exact Or.inr hnew
      · exact absurd hold hrefused

theorem passing_step (hs : w.sup.Named) (h : w.Passing) {e : Event}
    (hwithin : (∀ d, e ≠ .edit d) ∧ e ≠ .desired) (hmeets : w.Meets e) : (w.step e).Passing := by
  obtain ⟨want,hwant,hcases⟩ := h
  obtain ⟨hedit,hdesired⟩ := hwithin
  refine ⟨want,by rw [dir_step hedit,hwant],?_⟩
  rcases hcases with hread | ⟨starts,hpass,hcovered⟩
  · by_cases hsweep : e = .sweep
    · subst hsweep
      exact Or.inr (covered_sweep hs hwant hread (hmeets want hread))
    · left
      by_cases hstart : ∃ name, e = .start name
      · obtain ⟨started,rfl⟩ := hstart
        simp only [step,Event.action,Supervisor.step,hread]
      · rw [pass_step hdesired hsweep (fun n hn => hstart ⟨n,hn⟩),hread]
  · right
    by_cases hsweep : e = .sweep
    · subst hsweep
      have hsame : w.step .sweep = w := by
        simp only [step,Event.action,Supervisor.step,hpass]
      rw [hsame]
      exact ⟨starts,hpass,hcovered⟩
    · by_cases hstart : ∃ name, e = .start name
      · obtain ⟨started,rfl⟩ := hstart
        exact covered_start hs hpass hcovered
      · refine ⟨starts,?_,covered_other hs hedit hsweep hmeets hpass hcovered⟩
        rw [pass_step hdesired hsweep (fun n hn => hstart ⟨n,hn⟩),hpass]

def Quiet (pass : List Event) : Prop := ∀ e ∈ pass, e = .sweep ∨ ∃ name, e = .start name

structure Stuck (w : World) (name content : String) : Prop where
  due : w.Due name content
  unserved : ¬ w.Serves name
  read : ∀ want, w.sup.pass = .read want → desired w.dir.listing = some want ∧
    ((w.sup.running.get? name).isSome ∨ name ∈ w.sup.rejected)
  passed : ∀ starts, w.sup.pass = .starting starts → name ∉ starts

private theorem stuck_sweep {content : String} (h : w.Stuck name content) :
    (w.step .sweep).Stuck name content := by
  cases hpass : w.sup.pass with
  | idle | starting starts =>
    have hsame : w.step .sweep = w := by
      simp only [step,Event.action,Supervisor.step,hpass]
    rwa [hsame]
  | read want =>
    obtain ⟨hwant,hheld⟩ := h.read want hpass
    have hmem := Directory.wanted_of_config hwant h.due.1
    have hsup : (w.step .sweep).sup = w.sup.sweep want := by
      simp only [step,Event.action,Supervisor.step,hpass]
    have hget : (w.sup.sweep want).running.get? name = w.sup.running.get? name := by
      rw [Supervisor.sweep,Table.get?_keep]
      cases hrun : w.sup.running.get? name with
      | none => rfl
      | some e =>
        obtain rfl := Table.key_of_get? hrun
        simp [Option.filter,hmem]
    refine ⟨h.due,?_,?_,?_⟩
    · rintro ⟨l,hrun,hl,hphase,hcancelled,hstopping⟩
      rw [hsup,hget] at hrun
      rw [hsup,Supervisor.sweep,Table.get?_adjust] at hl
      obtain ⟨l',hl',hadjusted⟩ := Option.map_eq_some_iff.mp hl
      split at hadjusted
      · subst hadjusted
        cases hcancelled
      · subst hadjusted
        exact h.unserved ⟨l',hrun,hl',hphase,hcancelled,hstopping⟩
    · intro want' hread
      rw [hsup] at hread
      cases hread
    · intro starts hstarts hin
      rw [hsup] at hstarts
      cases hstarts
      have hfree := (List.mem_filter.mp hin).2
      simp only [Bool.and_eq_true,decide_eq_true_eq,Option.isNone_iff_eq_none] at hfree
      have hfree' : w.sup.running.get? name = none := hget ▸ hfree.1
      rcases hheld with hsome | hrejected
      · rw [hfree'] at hsome
        cases hsome
      · exact hfree.2 (List.mem_filter.mpr ⟨hrejected,decide_eq_true hmem⟩)

private theorem stuck_start (hs : w.sup.Named) {content started : String}
    (h : w.Stuck name content) : (w.step (.start started)).Stuck name content := by
  cases hpass : w.sup.pass with
  | idle | read want =>
    have hsup : (w.step (.start started)).sup = w.sup := by
      simp only [step,Event.action,Supervisor.step,hpass]
    refine ⟨h.due,?_,?_,?_⟩
    · rw [Serves,hsup]
      exact h.unserved
    · rw [hsup]
      exact h.read
    · rw [hsup]
      exact h.passed
  | starting starts =>
    have hnot := h.passed starts hpass
    by_cases hmem : started ∈ starts
    · have hne : started ≠ name := by
        rintro rfl
        exact hnot hmem
      have hsup : (w.step (.start started)).sup =
          { w.sup with pass := .starting (starts.filter (· ≠ started)) }.start started
            (w.dir.readable started) := by
        simp only [step,Event.action,Supervisor.step,hpass,if_pos hmem]
      refine ⟨h.due,?_,?_,?_⟩
      · rw [Serves,hsup,Supervisor.start]
        split
        · rintro ⟨l,hrun,hl,hserving⟩
          rw [Table.get?_put_of_ne _ hne] at hrun
          obtain ⟨l',hl',-⟩ := hs.named name l.id hrun
          have hlt := hs.fresh l.id l' hl'
          rw [Table.get?_put_of_ne _ (by dsimp only; omega)] at hl
          exact h.unserved ⟨l,hrun,hl,hserving⟩
        · exact h.unserved
      · intro want hread
        rw [hsup,Supervisor.start] at hread
        split at hread <;> cases hread
      · intro starts' hstarts hin
        have hleft : starts' = starts.filter (· ≠ started) := by
          rw [hsup,Supervisor.start] at hstarts
          split at hstarts <;> cases hstarts <;> rfl
        rw [hleft] at hin
        exact hnot (List.mem_filter.mp hin).1
    · have hsup : (w.step (.start started)).sup = w.sup := by
        simp only [step,Event.action,Supervisor.step,hpass,if_neg hmem]
      refine ⟨h.due,?_,?_,?_⟩
      · rw [Serves,hsup]
        exact h.unserved
      · rw [hsup]
        exact h.read
      · rw [hsup]
        exact h.passed

private theorem stuck_runActs {content : String} {pass : List Event} (hquiet : Quiet pass)
    (hs : w.sup.Named) (h : w.Stuck name content) :
    (runActs step w pass).Stuck name content := by
  induction pass generalizing w with
  | nil => exact h
  | cons e es ih =>
    apply ih (fun e' he' => hquiet e' (List.mem_cons_of_mem e he')) (named_step hs e)
    rcases hquiet e List.mem_cons_self with rfl | ⟨started,rfl⟩
    · exact stuck_sweep h
    · exact stuck_start hs h

private theorem quiet_meets {pass : List Event} (hquiet : Quiet pass)
    (hready : ∀ want, w.sup.pass = .read want → w.Ready) : Along step Meets w pass := by
  induction pass generalizing w with
  | nil => trivial
  | cons e es ih =>
    have hrest : Quiet es := fun e' he' => hquiet e' (List.mem_cons_of_mem e he')
    rcases hquiet e List.mem_cons_self with rfl | ⟨started,rfl⟩
    · refine ⟨hready,ih hrest ?_⟩
      intro want hread
      cases hpass : w.sup.pass with
      | idle | starting starts | read want' =>
        simp only [step,Event.action,Supervisor.step,hpass,Supervisor.sweep] at hread
        cases hread
    · refine ⟨trivial,ih hrest ?_⟩
      intro want hread
      cases hpass : w.sup.pass with
      | idle | read want' =>
        have hsup : (w.step (.start started)).sup = w.sup := by
          simp only [step,Event.action,Supervisor.step,hpass]
        rw [hsup] at hread
        have hold := hready want hread
        simp only [Ready,Serves,hsup]
        exact hold
      | starting starts =>
        simp only [step,Event.action,Supervisor.step,hpass,Supervisor.start] at hread
        split at hread
        · split at hread <;> cases hread
        · cases hpass.symm.trans hread

private theorem begun (hbegins : w.sup.pass = .idle ∨ w.sup.pass = .starting []) {want : List String}
    (hwant : desired w.dir.listing = some want) :
    w.step .desired = { w with sup.pass := .read want } := by
  simp only [step,Event.action,Supervisor.step]
  rcases hbegins with hpass | hpass <;> rw [hpass,hwant]

private theorem runs_passing {pass : List Event} (hs : w.sup.Named) (h : w.Passing)
    (hwithin : ∀ e ∈ pass, (∀ d, e ≠ .edit d) ∧ e ≠ .desired) (hmeets : Along step Meets w pass) :
    (runActs step w pass).Passing := by
  induction pass generalizing w with
  | nil => exact h
  | cons e es ih =>
    obtain ⟨hmeet,hrest⟩ := hmeets
    exact ih (named_step hs e) (passing_step hs h (hwithin e List.mem_cons_self) hmeet)
      (fun e' he' => hwithin e' (List.mem_cons_of_mem e he')) hrest

private theorem reconciled_of_passing (h : w.Passing) (hends : w.sup.pass = .starting []) :
    w.Reconciled := by
  obtain ⟨want,hwant,hread | ⟨starts,hpass,hcovered⟩⟩ := h
  · cases hread.symm.trans hends
  · cases hpass.symm.trans hends
    have hserves : ∀ name content, w.dir.config? name = some (content,true) →
        w.Serves name ∨ (name,content) ∈ w.refusals := by
      intro name content hconfig
      rcases hcovered.due name content hconfig with hmem | hdone
      · cases hmem
      · exact hdone
    refine ⟨hserves,?_,?_⟩
    · intro want' hwant' name hrun
      obtain rfl := Option.some.inj (hwant.symm.trans hwant')
      exact hcovered.running name hrun
    · intro name old content _ hfresh hconfig
      exact (hserves name content hconfig).resolve_right hfresh

/-- A pass brings what should run into being when every name that is due is served, or is free to be
started, where the pass takes the lock, and what is served then is not taken away; and a pass with
nothing else in between does so only then. -/
theorem pass_reconciles (d : Directory) (before pass : List Event)
    (h : IsPass (runActs step (World.new d) before) pass) :
    let w := runActs step (World.new d) before
    (Along step Meets (w.step .desired) pass → (runActs step w (.desired :: pass)).Reconciled) ∧
    (Quiet pass → ((runActs step w (.desired :: pass)).Reconciled ↔ w.Ready)) := by
  intro w
  have hs : w.sup.Named := named_runActs d before
  obtain ⟨want,hwant⟩ := Option.isSome_iff_exists.mp h.reads
  have hbegun : w.step .desired = { w with sup.pass := .read want } := begun h.begins hwant
  have hpassing : (w.step .desired).Passing := by
    rw [hbegun]
    exact ⟨want,hwant,Or.inl rfl⟩
  have hnamed : (w.step .desired).sup.Named := named_step hs .desired
  have hmeets : Along step Meets (w.step .desired) pass →
      (runActs step w (.desired :: pass)).Reconciled := by
    intro hmeets
    have hend := runs_passing hnamed hpassing h.within hmeets
    exact reconciled_of_passing hend h.ends
  refine ⟨hmeets,fun hquiet => ⟨?_,?_⟩⟩
  · intro hreconciled name content hdue
    by_contra hstuck
    rw [not_or,not_and_or,not_not] at hstuck
    have hread : (w.step .desired).Stuck name content := by
      rw [hbegun]
      refine ⟨hdue,hstuck.1,?_,?_⟩
      · intro want' hpass
        cases hpass
        refine ⟨hwant,?_⟩
        rcases hstuck.2 with hrun | hrejected
        · exact Or.inl (Option.isSome_iff_ne_none.mpr hrun)
        · exact Or.inr hrejected
      · intro starts hpass
        cases hpass
    have hend := stuck_runActs hquiet hnamed hread
    rcases hreconciled.serves name content hend.due.1 with hserves | hrefused
    · exact hend.unserved hserves
    · exact hend.due.2 hrefused
  · intro hready
    apply hmeets
    apply quiet_meets hquiet
    rw [hbegun]
    exact fun _ _ => hready

private def enrolled (content : String) : Directory :=
  .dir [⟨⟨"a.json",false,false⟩,content,true⟩]

theorem pass_starts_enrolled :
    (runActs step (World.new (enrolled "k1")) [.desired,.sweep,.start "a"]).Reconciled := by
  have hpass : IsPass (World.new (enrolled "k1")) [.sweep,.start "a"] := by
    refine ⟨Or.inl rfl,rfl,?_,by decide⟩
    intro e he
    simp only [List.mem_cons,List.not_mem_nil,or_false] at he
    rcases he with rfl | rfl <;> exact ⟨nofun,nofun⟩
  refine ((pass_reconciles (enrolled "k1") [] _ hpass).2 ?_).mpr ?_
  · intro e he
    simp only [List.mem_cons,List.not_mem_nil,or_false] at he
    rcases he with rfl | rfl
    · exact Or.inl rfl
    · exact Or.inr ⟨"a",rfl⟩
  · exact fun _ _ _ => Or.inr ⟨rfl,List.not_mem_nil⟩

/-- A new enrolment in the file of a rejected one is not started. -/
theorem replaced_not_started : ¬ ∀ (d : Directory) (before pass : List Event),
    IsPass (runActs step (World.new d) before) pass →
      (runActs step (runActs step (World.new d) before) (.desired :: pass)).Reconciled := by
  intro hall
  let before : List Event :=
    [.desired,.sweep,.start "a",.reject 0,.cleanUp 0,.edit (enrolled "k2")]
  have hpass : IsPass (runActs step (World.new (enrolled "k1")) before) [.sweep] := by
    refine ⟨Or.inr (by decide),by decide,?_,by decide⟩
    intro e he
    obtain rfl := List.mem_singleton.mp he
    exact ⟨nofun,nofun⟩
  have hend := hall (enrolled "k1") before [.sweep] hpass
  have hserves := hend.replaced "a" "k1" "k2" (by decide) (by decide) (by decide)
  exact absurd hserves (by decide)

end World

end WeirdVault.Agent
