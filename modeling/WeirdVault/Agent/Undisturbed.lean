import Mathlib.Tactic.Common
import WeirdVault.Agent.Restart

/-! # Restarts that cut no session -/

namespace WeirdVault.Agent.Restart

open WeirdVault.Framework

/-- A stream opens only while every restart in progress has its identity's counter still to read,
and every identity that carries a stream is in `live` when a command lists the map. -/
def Undisturbed (m : Machine) : Action → Prop
  | .opened id => ∀ c ∈ m.commands.rows, ∃ left busy, c.stage = .checking left busy ∧ id ∈ left
  | .command _ _ => ∀ id ∈ m.streams, id ∈ m.sup.live.rows.map Prod.snd
  | _ => True

def NamesAll (a : Answer) : Prop :=
  ∀ busy, a.outcome = .refused busy → ∀ name ∈ a.carrying, ∃ snap ∈ busy, snap.name = name ∧
    (describe snap).toList <:+: (describeBusy busy).toList

def Seen (m : Machine) : Stage → Prop
  | .checking left busy => ∀ id ∈ m.streams, id ∈ left ∨ ∃ snap ∈ busy, snap.name = m.nameOf id
  | .updating => m.streams = []
  | .replacing => m.streams = []

structure Inv (m : Machine) : Prop where
  fresh : ∀ id l, m.sup.loops.get? id = some l → id < m.sup.next
  counted : ∀ id l, m.sup.loops.get? id = some l → l.sessions = m.streams.count id
  known : ∀ id ∈ m.streams, (m.sup.loops.get? id).isSome
  seen : ∀ c ∈ m.commands.rows, Seen m c.stage
  uncut : ∀ cut ∈ m.replacements, cut = []
  named : ∀ a ∈ m.answers, NamesAll a

private theorem infix_intercalate (sep : List Char) {l : List Char} {ls : List (List Char)}
    (h : l ∈ ls) : l <:+: sep.intercalate ls := by
  induction ls with
  | nil => simp at h
  | cons x xs ih =>
    cases xs with
    | nil =>
      obtain rfl := List.mem_singleton.mp h
      exact ⟨[],[],by simp⟩
    | cons y ys =>
      rw [List.intercalate_cons_cons]
      rcases List.mem_cons.mp h with rfl | h
      · exact List.IsInfix.trans (List.prefix_append l sep).isInfix
          (List.prefix_append _ _).isInfix
      · exact (ih h).trans (List.suffix_append _ _).isInfix

theorem describe_within {snap : Snapshot} {busy : List Snapshot} (h : snap ∈ busy) :
    (describe snap).toList <:+: (describeBusy busy).toList := by
  have hmem : (describe snap).toList ∈ (busy.map describe).map String.toList :=
    List.mem_map_of_mem (List.mem_map_of_mem h)
  rw [describeBusy,String.toList_append,join,String.toList_ofList]
  exact (infix_intercalate _ hmem).trans (List.prefix_append _ _).isInfix

section Supervise

variable {m : Machine} {sup : Supervisor}

private theorem nameOf_eq {id : Nat} {l l' : Loop} (hold : m.sup.loops.get? id = some l)
    (hnew : sup.loops.get? id = some l') (hname : l'.name = l.name) :
    { m with sup := sup }.nameOf id = m.nameOf id := by
  simp only [Machine.nameOf,hold,hnew,hname]

private theorem inv_loops (h : Inv m) (hfresh : ∀ id l, sup.loops.get? id = some l → id < sup.next)
    (hcounted : ∀ id l, sup.loops.get? id = some l → l.sessions = m.streams.count id)
    (hkept : ∀ id l, m.sup.loops.get? id = some l → ∃ l', sup.loops.get? id = some l' ∧
      l'.name = l.name) : Inv { m with sup := sup } := by
  refine ⟨hfresh,hcounted,?_,?_,h.uncut,h.named⟩
  · intro id hid
    obtain ⟨l,hl⟩ := Option.isSome_iff_exists.mp (h.known id hid)
    obtain ⟨l',hl',-⟩ := hkept id l hl
    exact Option.isSome_iff_exists.mpr ⟨l',hl'⟩
  · intro c hc
    have hseen := h.seen c hc
    cases hstage : c.stage with
    | checking left busy =>
      rw [hstage] at hseen
      intro id hid
      obtain ⟨l,hl⟩ := Option.isSome_iff_exists.mp (h.known id hid)
      obtain ⟨l',hl',hname⟩ := hkept id l hl
      rw [nameOf_eq hl hl' hname]
      exact hseen id hid
    | updating =>
      rw [hstage] at hseen
      exact hseen
    | replacing =>
      rw [hstage] at hseen
      exact hseen

private theorem inv_supervise (h : Inv m) (a : Supervisor.Action) :
    Inv { m with sup := m.sup.step a } := by
  rcases Supervisor.step_loops m.sup a with ⟨hnext,hsame⟩ | ⟨hnext,name,hloops⟩
  · have hback : ∀ id l, (m.sup.step a).loops.get? id = some l →
        ∃ l', m.sup.loops.get? id = some l' ∧ l.sessions = l'.sessions := by
      intro id l hl
      obtain ⟨g,hg,hget⟩ := hsame id
      rw [hget] at hl
      obtain ⟨l',hl',rfl⟩ := Option.map_eq_some_iff.mp hl
      exact ⟨l',hl',(hg l').2⟩
    apply inv_loops h
    · intro id l hl
      obtain ⟨l',hl',-⟩ := hback id l hl
      rw [hnext]
      exact h.fresh id l' hl'
    · intro id l hl
      obtain ⟨l',hl',hsessions⟩ := hback id l hl
      rw [hsessions]
      exact h.counted id l' hl'
    · intro id l hl
      obtain ⟨g,hg,hget⟩ := hsame id
      exact ⟨g l,by rw [hget,hl]; rfl,(hg l).1⟩
  · have hnone : m.sup.loops.get? m.sup.next = none := by
      cases hl : m.sup.loops.get? m.sup.next with
      | none => rfl
      | some l => exact absurd (h.fresh _ l hl) (Nat.lt_irrefl _)
    have hcount : m.streams.count m.sup.next = 0 := by
      apply List.count_eq_zero.mpr
      intro hmem
      have hsome := h.known _ hmem
      simp [hnone] at hsome
    apply inv_loops h
    · intro id l hl
      rw [hloops,Table.get?_put] at hl
      split at hl
      · rename_i hid
        dsimp only at hid
        omega
      · have hlt := h.fresh id l hl
        omega
    · intro id l hl
      rw [hloops,Table.get?_put] at hl
      split at hl
      · rename_i hid
        obtain rfl := Option.some.inj hl
        rw [← hid]
        exact hcount.symm
      · exact h.counted id l hl
    · intro id l hl
      refine ⟨l,?_,rfl⟩
      have hne : m.sup.next ≠ id := by
        intro he
        rw [← he,hnone] at hl
        simp at hl
      rw [hloops]
      refine (Table.get?_put_of_ne _ ?_).trans hl
      exact hne

end Supervise

variable {m : Machine}

private theorem nameOf_updateLoop (id k : Nat) (f : Loop → Loop) (hf : ∀ l, (f l).id = l.id)
    (hname : ∀ l, (f l).name = l.name) :
    { m with sup := m.sup.updateLoop id f hf }.nameOf k = m.nameOf k := by
  simp only [Machine.nameOf,Supervisor.get?_updateLoop]
  by_cases hk : k = id
  · rw [if_pos hk]
    cases m.sup.loops.get? k with
    | none => rfl
    | some l => exact hname l
  · rw [if_neg hk]

private theorem inv_opened (h : Inv m) (id : Nat) (hid : (m.sup.loops.get? id).isSome)
    (hopen : ∀ c ∈ m.commands.rows, ∃ left busy, c.stage = .checking left busy ∧ id ∈ left) :
    Inv { m with
      sup := m.sup.updateLoop id Loop.sessionOpened sessionOpened_id
      streams := id :: m.streams } := by
  refine ⟨?_,?_,?_,?_,h.uncut,h.named⟩
  · intro k l hl
    simp only [Supervisor.get?_updateLoop] at hl
    split at hl
    · obtain ⟨l',hl',-⟩ := Option.map_eq_some_iff.mp hl
      exact h.fresh k l' hl'
    · exact h.fresh k l hl
  · intro k l hl
    simp only [Supervisor.get?_updateLoop] at hl
    split at hl
    · rename_i hk
      obtain ⟨l',hl',rfl⟩ := Option.map_eq_some_iff.mp hl
      have hcount := h.counted k l' hl'
      subst hk
      rw [List.count_cons_self]
      exact congrArg (· + 1) hcount
    · rename_i hk
      rw [List.count_cons_of_ne (Ne.symm hk)]
      exact h.counted k l hl
  · intro k hk
    simp only [Supervisor.get?_updateLoop]
    have hsome : (m.sup.loops.get? k).isSome := by
      rcases List.mem_cons.mp hk with rfl | hk
      · exact hid
      · exact h.known k hk
    split
    · rw [Option.isSome_map]
      exact hsome
    · exact hsome
  · intro c hc
    obtain ⟨left,busy,hstage,hleft⟩ := hopen c hc
    have hseen := h.seen c hc
    rw [hstage] at hseen ⊢
    intro k hk
    rcases List.mem_cons.mp hk with rfl | hk
    · exact Or.inl hleft
    · have hname := nameOf_updateLoop (m := m) id k Loop.sessionOpened sessionOpened_id
        (fun _ => rfl)
      rcases hseen k hk with hin | ⟨snap,hsnap,hn⟩
      · exact Or.inl hin
      · exact Or.inr ⟨snap,hsnap,hn.trans hname.symm⟩

private theorem inv_closed (h : Inv m) (id : Nat) (hid : id ∈ m.streams) :
    Inv { m with
      sup := m.sup.updateLoop id Loop.sessionClosed sessionClosed_id
      streams := m.streams.erase id } := by
  refine ⟨?_,?_,?_,?_,h.uncut,h.named⟩
  · intro k l hl
    simp only [Supervisor.get?_updateLoop] at hl
    split at hl
    · obtain ⟨l',hl',-⟩ := Option.map_eq_some_iff.mp hl
      exact h.fresh k l' hl'
    · exact h.fresh k l hl
  · intro k l hl
    simp only [Supervisor.get?_updateLoop] at hl
    split at hl
    · rename_i hk
      obtain ⟨l',hl',rfl⟩ := Option.map_eq_some_iff.mp hl
      have hcount := h.counted k l' hl'
      subst hk
      rw [List.count_erase_self]
      exact congrArg (· - 1) hcount
    · rename_i hk
      rw [List.count_erase_of_ne hk]
      exact h.counted k l hl
  · intro k hk
    simp only [Supervisor.get?_updateLoop]
    have hsome := h.known k (List.mem_of_mem_erase hk)
    split
    · rw [Option.isSome_map]
      exact hsome
    · exact hsome
  · intro c hc
    have hseen := h.seen c hc
    cases hstage : c.stage with
    | checking left busy =>
      rw [hstage] at hseen
      intro k hk
      have hname := nameOf_updateLoop (m := m) id k Loop.sessionClosed sessionClosed_id
        (fun _ => rfl)
      rcases hseen k (List.mem_of_mem_erase hk) with hin | ⟨snap,hsnap,hn⟩
      · exact Or.inl hin
      · exact Or.inr ⟨snap,hsnap,hn.trans hname.symm⟩
    | updating =>
      rw [hstage] at hseen
      simp [Seen,show m.streams = [] from hseen]
    | replacing =>
      rw [hstage] at hseen
      simp [Seen,show m.streams = [] from hseen]

private theorem inv_setStage (h : Inv m) (c : Command) (stage : Stage) (hseen : Seen m stage) :
    Inv (m.setStage c stage) := by
  refine ⟨h.fresh,h.counted,h.known,?_,h.uncut,h.named⟩
  intro c' hc'
  rcases Table.mem_rows_put hc' with rfl | hold
  · exact hseen
  · exact h.seen c' hold

private theorem inv_endCommand (h : Inv m) (c : Command) : Inv (m.endCommand c) := by
  refine ⟨h.fresh,h.counted,h.known,?_,h.uncut,h.named⟩
  intro c' hc'
  exact h.seen c' (Table.mem_rows_erase.mp hc').1

private theorem inv_answer (h : Inv m) (c : Command) (outcome : Outcome)
    (hnamed : ∀ busy, outcome = .refused busy → ∀ id ∈ m.streams, ∃ snap ∈ busy,
      snap.name = m.nameOf id) : Inv (m.answer c outcome) := by
  refine ⟨h.fresh,h.counted,h.known,h.seen,h.uncut,?_⟩
  intro a ha
  rcases List.mem_cons.mp ha with rfl | ha
  · intro busy hbusy name hname
    obtain ⟨id,hid,rfl⟩ := List.mem_map.mp hname
    obtain ⟨snap,hsnap,hn⟩ := hnamed busy hbusy id hid
    exact ⟨snap,hsnap,hn,describe_within hsnap⟩
  · exact h.named a ha

private theorem inv_check (h : Inv m) (c : Command) {left : List Nat} {busy : List Snapshot}
    (hseen : Seen m (.checking left busy)) (id : Nat) : Inv (m.check c left busy id) := by
  -- Whoever was left is left still, or is the one whose counter was read.
  have hkeep : ∀ found, (∀ snap ∈ busy, snap ∈ found) →
      (id ∈ m.streams → ∃ snap ∈ found, snap.name = m.nameOf id) →
      Seen m (.checking (left.filter (· ≠ id)) found) := by
    intro found hsub hself k hk
    by_cases hkid : k = id
    · subst hkid
      exact Or.inr (hself hk)
    · rcases hseen k hk with hin | ⟨snap,hsnap,hn⟩
      · exact Or.inl (List.mem_filter.mpr ⟨hin,by simpa using hkid⟩)
      · exact Or.inr ⟨snap,hsub snap hsnap,hn⟩
  unfold Machine.check
  dsimp only
  split
  · rename_i hnone
    apply inv_setStage h
    apply hkeep busy (fun _ hs => hs)
    intro hid
    have hsome := h.known id hid
    simp [hnone] at hsome
  · rename_i l hl
    have hcount := h.counted id l hl
    split
    · apply inv_setStage h
      apply hkeep
      · intro snap hsnap
        exact List.mem_append_left _ hsnap
      · intro _
        refine ⟨⟨l.name,l.sessions⟩,by simp,?_⟩
        simp only [Machine.nameOf,hl]
    · rename_i hzero
      apply inv_setStage h
      apply hkeep busy (fun _ hs => hs)
      intro hid
      have hpos := List.count_pos_iff.mpr hid
      omega

private theorem inv_checked (h : Inv m) (c : Command) {busy : List Snapshot}
    (hseen : Seen m (.checking [] busy)) : Inv (m.checked c busy) := by
  have hfound : ∀ id ∈ m.streams, ∃ snap ∈ busy, snap.name = m.nameOf id := by
    intro id hid
    rcases hseen id hid with hin | hfound
    · exact absurd hin List.not_mem_nil
    · exact hfound
  cases busy with
  | nil =>
    have hnone : m.streams = [] := by
      apply List.eq_nil_iff_forall_not_mem.mpr
      intro id hid
      obtain ⟨snap,hsnap,-⟩ := hfound id hid
      exact absurd hsnap List.not_mem_nil
    unfold Machine.checked
    cases c.kind with
    | restart =>
      apply inv_setStage (inv_answer h c .restarting (by simp))
      exact hnone
    | upgrade =>
      apply inv_setStage h
      exact hnone
  | cons snap rest =>
    apply inv_endCommand
    apply inv_answer h
    intro busy' hbusy
    obtain rfl := Outcome.refused.inj hbusy
    exact hfound

private theorem inv_command (h : Inv m) (kind : Kind)
    (hlive : ∀ id ∈ m.streams, id ∈ m.sup.live.rows.map Prod.snd) : Inv { m with
      commands := m.commands.put ⟨m.next,kind,.checking (m.sup.live.rows.map Prod.snd) []⟩
      next := m.next+1 } := by
  refine ⟨h.fresh,h.counted,h.known,?_,h.uncut,h.named⟩
  intro c hc
  rcases Table.mem_rows_put hc with rfl | hold
  · intro id hid
    exact Or.inl (hlive id hid)
  · exact h.seen c hold

private theorem inv_replace (h : Inv m) (hnone : m.streams = []) : Inv { boot with
    answers := m.answers
    replacements := m.streams :: m.replacements } := by
  refine ⟨?_,?_,?_,?_,?_,h.named⟩
  · intro id l hl
    simp [boot,newSupervisor] at hl
  · intro id l hl
    simp [boot,newSupervisor] at hl
  · intro id hid
    exact absurd hid List.not_mem_nil
  · intro c hc
    exact absurd hc List.not_mem_nil
  · intro cut hcut
    rcases List.mem_cons.mp hcut with rfl | hold
    · exact hnone
    · exact h.uncut cut hold

private theorem inv_updated (h : Inv m) {c : Command} (hc : c ∈ m.commands.rows)
    (hstage : c.stage = .updating) (outcome : Outcome) (hout : ∀ busy, outcome ≠ .refused busy) :
    Inv ((m.answer c outcome).setStage c .replacing) ∧ Inv ((m.answer c outcome).endCommand c) := by
  have hseen := h.seen c hc
  rw [hstage] at hseen
  have hanswer := inv_answer h c outcome (fun busy hbusy => absurd hbusy (hout busy))
  exact ⟨inv_setStage hanswer c .replacing hseen,inv_endCommand hanswer c⟩

private theorem inv_step {a : Action} (h : Inv m) (hok : Undisturbed m a) : Inv (step m a) := by
  have hrow : ∀ {i c}, m.commands.get? i = some c → c ∈ m.commands.rows := Table.mem_of_get?
  cases a with
  | supervise a => exact inv_supervise h a
  | opened id =>
    dsimp only [step]
    split
    · rename_i hid
      exact inv_opened h id hid hok
    · exact h
  | closed id =>
    dsimp only [step]
    split
    · rename_i hid
      exact inv_closed h id hid
    · exact h
  | command id kind =>
    dsimp only [step]
    split
    · exact inv_command h kind hok
    · exact h
  | check command id =>
    dsimp only [step]
    split
    · rename_i hc
      split
      · exact inv_check h _ (h.seen _ (hrow hc)) id
      · exact h
    · exact h
  | checked command =>
    dsimp only [step]
    split
    · rename_i hc
      exact inv_checked h _ (h.seen _ (hrow hc))
    · exact h
  | updated command outcome =>
    dsimp only [step]
    split
    · rename_i hc
      exact (inv_updated h (hrow hc) rfl .restarting (by simp)).1
    · rename_i hc
      exact (inv_updated h (hrow hc) rfl .noReleaseURL (by simp)).2
    · rename_i hc
      exact (inv_updated h (hrow hc) rfl .upToDate (by simp)).2
    · exact h
  | replace command works =>
    dsimp only [step]
    split
    · rename_i hc
      split
      · exact inv_replace h (h.seen _ (hrow hc))
      · exact inv_endCommand h _
    · exact h

/-- In every undisturbed run no replacement of the process cuts a stream, and every refusal names
everybody who is carrying one. -/
theorem restart_cuts_nothing (as : List Action) (h : Along step Undisturbed boot as) :
    (∀ cut ∈ (runActs step boot as).replacements, cut = []) ∧
      ∀ a ∈ (runActs step boot as).answers, NamesAll a := by
  have hboot : Inv boot := by
    refine ⟨?_,?_,?_,?_,?_,?_⟩
    · intro id l hl
      simp [boot,newSupervisor] at hl
    · intro id l hl
      simp [boot,newSupervisor] at hl
    · intro id hid
      exact absurd hid List.not_mem_nil
    · intro c hc
      exact absurd hc List.not_mem_nil
    · intro cut hcut
      exact absurd hcut List.not_mem_nil
    · intro a ha
      exact absurd ha List.not_mem_nil
  have hinv := invariant_runActs Inv (fun _ _ hi hok => inv_step hi hok) hboot h
  exact ⟨hinv.uncut,hinv.named⟩

instance (m : Machine) : (a : Action) → Decidable (Undisturbed m a)
  | .opened id => decidable_of_iff (m.commands.rows.all (fun c => match c.stage with
      | .checking left _ => decide (id ∈ left)
      | _ => false) = true) (by
        rw [List.all_eq_true]
        refine forall₂_congr fun c _ => ?_
        cases c.stage <;> simp)
  | .command _ _ => decidable_of_iff
      (m.streams.all (fun id => decide (id ∈ m.sup.live.rows.map Prod.snd)) = true) (by
        rw [List.all_eq_true]
        exact forall₂_congr fun _ _ => decide_eq_true_iff)
  | .supervise _ => .isTrue trivial
  | .closed _ => .isTrue trivial
  | .check _ _ => .isTrue trivial
  | .checked _ => .isTrue trivial
  | .updated _ _ => .isTrue trivial
  | .replace _ _ => .isTrue trivial

/-- Two identities are up and the second is asked to restart the machine. -/
private def demoUp : List Action :=
  [.supervise (.desired (.dir [⟨"a.json",false,false⟩,⟨"b.json",false,false⟩])),.supervise .sweep,
    .supervise (.start "a" true),.supervise (.start "b" true)]

/-- Refused while the first carries a stream, carried out after it has closed. -/
private def demoWaited : List Action :=
  demoUp ++ [.opened 0,.command 1 .restart,.check 0 0,.check 0 1,.checked 0,.closed 0,
    .command 1 .restart,.check 1 0,.check 1 1,.checked 1,.replace 1 true]

theorem restart_cuts_nothing_demo :
    (∀ cut ∈ (runActs step boot demoWaited).replacements, cut = []) ∧
      ∀ a ∈ (runActs step boot demoWaited).answers, NamesAll a :=
  restart_cuts_nothing demoWaited (by decide +kernel)

/-- A stream that opens in the half second after the check is cut. -/
theorem restart_cuts_stream : ¬ ∀ as : List Action,
    (∀ cut ∈ (runActs step boot as).replacements, cut = []) ∧
      ∀ a ∈ (runActs step boot as).answers, NamesAll a := by
  intro h
  have hcut := (h (demoUp ++ [.command 1 .restart,.check 0 0,.check 0 1,.checked 0,.opened 0,
    .replace 0 true])).1 [0] (by decide +kernel)
  revert hcut
  decide

end WeirdVault.Agent.Restart
