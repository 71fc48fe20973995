import Mathlib.Data.List.Perm.Basic
import WeirdVault.Framework.Runs
import WeirdVault.Recording.Capture

/-! # A recording is dropped only when told to -/

namespace WeirdVault.Recording

open WeirdVault.Framework

namespace State

def Registered (s : State) (r : ℕ) : Prop :=
  ∃ recorder, s.heap r = some recorder ∧ s.recorders recorder.sessionId = some r

def Discards (s : State) (a : Action) (r : ℕ) : Prop :=
  ∃ sessionId, a = .discard sessionId ∧ s.recorders sessionId = some r

def Saves (s : State) (a : Action) (r : ℕ) : Prop :=
  ∃ i save, a = .succeeded i ∧ s.inFlight[i]? = some save ∧ save.recorder = r

/-- The number of saves of a recorder that are in flight. -/
def flights (s : State) (r : ℕ) : ℕ := s.inFlight.countP (·.recorder = r)

end State

/-- What one step may do to the recordings of a tab. -/
structure NothingDropped (s : State) (a : Action) : Prop where
  removed : ∀ r, s.Registered r → ¬ (s.step a).Registered r → s.Discards a r ∨ s.Saves a r
  latest : ∀ sessionId r, (s.step a).recorders sessionId = some r →
    (∃ recorder, (s.step a).heap r = some recorder ∧ recorder.sessionId = sessionId) ∧
      ∀ r' recorder, (s.step a).heap r' = some recorder → recorder.sessionId = sessionId → r' ≤ r
  single : ∀ r, (s.step a).flights r ≤ 1
  held : ∀ r recorder cast, s.heap r = some recorder → recorder.held = some cast →
    ∃ recorder', (s.step a).heap r = some recorder' ∧ recorder'.held = some cast
  saved : ∀ save ∈ (s.step a).saved, ∃ recorder,
    (s.step a).heap save.recorder = some recorder ∧ recorder.held = some save.cast
  notCaptured : ∀ r recorder, s.heap r = some recorder → ¬ s.Registered r →
    ∃ recorder', (s.step a).heap r = some recorder' ∧ recorder'.buffer = recorder.buffer

/-- When a save succeeds, the session has no recorder in the registry or still the saved one. -/
def OwnEntry (s : State) : Action → Prop
  | .succeeded i => ∀ save recorder, s.inFlight[i]? = some save →
      s.heap save.recorder = some recorder → s.recorders recorder.sessionId = none ∨
        s.recorders recorder.sessionId = some save.recorder
  | _ => True

structure Kept (s : State) : Prop where
  entry : ∀ sessionId r, s.recorders sessionId = some r →
    ∃ recorder, s.heap r = some recorder ∧ recorder.sessionId = sessionId
  latest : ∀ sessionId r, s.recorders sessionId = some r → ∀ r' recorder,
    s.heap r' = some recorder → recorder.sessionId = sessionId → r' ≤ r
  fresh : ∀ r recorder, s.heap r = some recorder → r < s.made
  ended : ∀ r recorder, s.heap r = some recorder →
    recorder.ended.isSome = recorder.endedAt.isSome
  flights : ∀ r recorder, s.heap r = some recorder → s.flights r ≤ recorder.saving.toNat
  casts : ∀ save, save ∈ s.inFlight ∨ save ∈ s.saved →
    ∃ recorder, s.heap save.recorder = some recorder ∧ recorder.held = some save.cast

/-- Only the buffers of these recorders changed, no recorder was made, none left the registry or
lost what it held, and one that ended is no longer tapped. -/
structure Moves (rs : List ℕ) (s s' : State) : Prop where
  kept : Kept s'
  recorders : s'.recorders = s.recorders
  saved : s'.saved = s.saved
  sessions : ∀ r, (s'.heap r).map (·.sessionId) = (s.heap r).map (·.sessionId)
  buffers : ∀ r, r ∉ rs → (s'.heap r).map (·.buffer) = (s.heap r).map (·.buffer)
  held : ∀ r recorder cast, s.heap r = some recorder → recorder.held = some cast →
    ∃ recorder', s'.heap r = some recorder' ∧ recorder'.held = some cast
  taps : ∀ sessionId r, r ∈ s'.taps sessionId → r ∈ s.taps sessionId
  untapped : ∀ r recorder', s'.heap r = some recorder' → recorder'.ended.isSome →
    r ∈ s'.taps recorder'.sessionId → ∃ recorder, s.heap r = some recorder ∧ recorder.ended.isSome

namespace Moves

variable {rs rs' : List ℕ} {s t u : State}

theorem refl (h : Kept s) : Moves rs s s where
  kept := h
  recorders := rfl
  saved := rfl
  sessions _ := rfl
  buffers _ _ := rfl
  held _ recorder _ hr hh := ⟨recorder,hr,hh⟩
  taps _ _ hr := hr
  untapped _ recorder hr he _ := ⟨recorder,hr,he⟩

theorem session (h : Moves rs s t) {r : ℕ} {recorder : ActiveRecorder}
    (hr : t.heap r = some recorder) :
    ∃ recorder', s.heap r = some recorder' ∧ recorder'.sessionId = recorder.sessionId := by
  have he := h.sessions r
  rw [hr,Option.map_some] at he
  exact Option.map_eq_some_iff.mp he.symm

theorem session' (h : Moves rs s t) {r : ℕ} {recorder : ActiveRecorder}
    (hr : s.heap r = some recorder) :
    ∃ recorder', t.heap r = some recorder' ∧ recorder'.sessionId = recorder.sessionId := by
  have he := h.sessions r
  rw [hr,Option.map_some] at he
  exact Option.map_eq_some_iff.mp he

theorem trans (h : Moves rs s t) (h' : Moves rs t u) : Moves rs s u where
  kept := h'.kept
  recorders := h'.recorders.trans h.recorders
  saved := h'.saved.trans h.saved
  sessions r := (h'.sessions r).trans (h.sessions r)
  buffers r hr := (h'.buffers r hr).trans (h.buffers r hr)
  held r recorder cast hr hh := by
    obtain ⟨recorder',hr',hh'⟩ := h.held r recorder cast hr hh
    exact h'.held r recorder' cast hr' hh'
  taps sessionId r hr := h.taps sessionId r (h'.taps sessionId r hr)
  untapped r recorder hr he ht := by
    obtain ⟨recorder',hr',he'⟩ := h'.untapped r recorder hr he ht
    obtain ⟨recorder'',hr'',hid⟩ := h'.session hr
    rw [hr'] at hr''
    cases hr''
    refine h.untapped r recorder' hr' he' ?_
    rw [hid]
    exact h'.taps _ _ ht

theorem mono (h : Moves rs s t) (hsub : rs ⊆ rs') : Moves rs' s t :=
  { h with buffers := fun r hr => h.buffers r fun hm => hr (hsub hm) }

end Moves

private theorem held_isSome (recorder : ActiveRecorder) :
    recorder.held.isSome = recorder.endedAt.isSome := Option.isSome_map

private theorem held_eq {recorder : ActiveRecorder} (h : recorder.endedAt.isSome) (now : ℚ) :
    recorder.held = some (recorder.cast now) := by
  obtain ⟨endedAt,he⟩ := Option.isSome_iff_exists.mp h
  simp [ActiveRecorder.held,ActiveRecorder.cast,he]

private theorem heap_put (s : State) (r r' : ℕ) (recorder : ActiveRecorder) :
    (s.put r recorder).heap r' = if r' = r then some recorder else s.heap r' :=
  Function.update_apply s.heap r (some recorder) r'

theorem moves_put {rs : List ℕ} {s : State} (h : Kept s) {r : ℕ} {recorder recorder' : ActiveRecorder}
    {inFlight : List Saving} {taps : String → List ℕ} (hr : s.heap r = some recorder)
    (hid : recorder'.sessionId = recorder.sessionId)
    (hbuffer : r ∈ rs ∨ recorder'.buffer = recorder.buffer)
    (hend : recorder'.ended.isSome = recorder'.endedAt.isSome)
    (hheld : ∀ cast, recorder.held = some cast → recorder'.held = some cast)
    (hown : inFlight.countP (·.recorder = r) ≤ recorder'.saving.toNat)
    (hother : ∀ r', r' ≠ r → inFlight.countP (·.recorder = r') ≤ s.flights r')
    (hcasts : ∀ save ∈ inFlight, save ∈ s.inFlight ∨
      save.recorder = r ∧ recorder'.held = some save.cast)
    (htaps : ∀ sessionId r', r' ∈ taps sessionId → r' ∈ s.taps sessionId)
    (huntap : recorder'.ended.isSome → recorder.ended.isSome ∨
      r ∉ taps recorder'.sessionId) :
    Moves rs s { s.put r recorder' with inFlight, taps } := by
  have hheap : ∀ r' rec', (s.put r recorder').heap r' = some rec' →
      r' = r ∧ rec' = recorder' ∨ r' ≠ r ∧ s.heap r' = some rec' := by
    intro r' rec' hr'
    rw [heap_put] at hr'
    split at hr'
    · exact .inl ⟨‹_›,(Option.some.inj hr').symm⟩
    · exact .inr ⟨‹_›,hr'⟩
  have hself : (s.put r recorder').heap r = some recorder' := by rw [heap_put,if_pos rfl]
  have hkeep : ∀ r' rec' cast, s.heap r' = some rec' → rec'.held = some cast →
      ∃ rec'', (s.put r recorder').heap r' = some rec'' ∧ rec''.held = some cast := by
    intro r' rec' cast hr' hh
    by_cases he : r' = r
    · subst he
      rw [hr] at hr'
      cases hr'
      exact ⟨recorder',hself,hheld cast hh⟩
    · exact ⟨rec',by rw [heap_put,if_neg he]; exact hr',hh⟩
  refine ⟨⟨?_,?_,?_,?_,?_,?_⟩,rfl,rfl,?_,?_,hkeep,htaps,?_⟩
  · intro sessionId r' hr'
    obtain ⟨rec',hrec,hs⟩ := h.entry sessionId r' hr'
    by_cases he : r' = r
    · subst he
      rw [hr] at hrec
      cases hrec
      exact ⟨recorder',hself,hid.trans hs⟩
    · exact ⟨rec',(heap_put s r r' recorder').trans ((if_neg he).trans hrec),hs⟩
  · intro sessionId r' hr' r'' rec'' hrec hs
    rcases hheap r'' rec'' hrec with ⟨rfl,rfl⟩ | ⟨_,hrec⟩
    · exact h.latest sessionId r' hr' _ recorder hr (hid.symm.trans hs)
    · exact h.latest sessionId r' hr' r'' rec'' hrec hs
  · intro r' rec' hrec
    rcases hheap r' rec' hrec with ⟨rfl,rfl⟩ | ⟨_,hrec⟩
    · exact h.fresh _ recorder hr
    · exact h.fresh r' rec' hrec
  · intro r' rec' hrec
    rcases hheap r' rec' hrec with ⟨rfl,rfl⟩ | ⟨_,hrec⟩
    · exact hend
    · exact h.ended r' rec' hrec
  · intro r' rec' hrec
    rcases hheap r' rec' hrec with ⟨rfl,rfl⟩ | ⟨he,hrec⟩
    · exact hown
    · exact (hother r' he).trans (h.flights r' rec' hrec)
  · intro save hsave
    have hcase : (save ∈ s.inFlight ∨ save ∈ s.saved) ∨
        save.recorder = r ∧ recorder'.held = some save.cast := by
      rcases hsave with hsave | hsave
      · exact (hcasts save hsave).imp_left .inl
      · exact .inl (.inr hsave)
    rcases hcase with hsave | ⟨rfl,hh⟩
    · obtain ⟨rec',hrec,hh⟩ := h.casts save hsave
      exact hkeep _ rec' _ hrec hh
    · exact ⟨recorder',hself,hh⟩
  · intro r'
    change ((s.put r recorder').heap r').map _ = _
    rw [heap_put]
    split
    · rename_i he
      rw [he,hr,Option.map_some,Option.map_some,hid]
    · rfl
  · intro r' hr'
    change ((s.put r recorder').heap r').map _ = _
    rw [heap_put]
    split
    · rename_i he
      subst he
      rw [hr,Option.map_some,Option.map_some,hbuffer.resolve_left hr']
    · rfl
  · intro r' rec' hrec he ht
    rcases hheap r' rec' hrec with ⟨rfl,rfl⟩ | ⟨_,hrec⟩
    · rcases huntap he with hw | hw
      · exact ⟨recorder,hr,hw⟩
      · exact absurd ht hw
    · exact ⟨rec',hrec,he⟩

private theorem moves_edit {rs : List ℕ} {s : State} (h : Kept s) {r : ℕ} {recorder recorder' : ActiveRecorder}
    (hr : s.heap r = some recorder) (hid : recorder'.sessionId = recorder.sessionId)
    (hbuffer : r ∈ rs ∨ recorder'.buffer = recorder.buffer)
    (hended : recorder'.ended = recorder.ended) (hat : recorder'.endedAt = recorder.endedAt)
    (hheld : ∀ cast, recorder.held = some cast → recorder'.held = some cast)
    (hsaving : recorder'.saving = recorder.saving) : Moves rs s (s.put r recorder') := by
  refine moves_put h hr hid hbuffer ?_ hheld ?_ ?_ ?_ (fun _ _ h => h) ?_
  · rw [hended,hat]
    exact h.ended r recorder hr
  · rw [hsaving]
    exact h.flights r recorder hr
  · intro r' _
    exact le_rfl
  · intro save hsave
    exact .inl hsave
  · intro he
    rw [hended] at he
    exact .inl he

theorem moves_persist (clock : Clock) {s : State} (h : Kept s) (r : ℕ)
    (hended : ∀ recorder, s.heap r = some recorder → recorder.ended.isSome) :
    Moves [] s (s.persist clock r) := by
  unfold State.persist
  cases hr : s.heap r with
  | none => exact .refl h
  | some recorder =>
    dsimp only
    split
    · exact .refl h
    rename_i hsaving
    have hfree : s.flights r = 0 := by
      have hle := h.flights r recorder hr
      simp only [Bool.not_eq_true] at hsaving
      rw [hsaving] at hle
      exact Nat.le_zero.mp hle
    split
    · exact moves_edit h hr rfl (.inr rfl) rfl rfl (fun _ hh => hh) rfl
    · refine moves_put h hr rfl (.inr rfl) (h.ended r recorder hr) (fun _ hh => hh) ?_ ?_ ?_ (fun _ _ h => h) ?_
      · rw [List.countP_append]
        unfold State.flights at hfree
        rw [hfree]
        simp
      · intro r' hne
        rw [List.countP_append]
        simp [State.flights,Ne.symm hne]
      · intro save hsave
        rcases List.mem_append.mp hsave with hsave | hsave
        · exact .inl hsave
        · have hat : recorder.endedAt.isSome := by
            rw [← h.ended r recorder hr]
            exact hended recorder hr
          rw [List.mem_singleton.mp hsave]
          exact .inr ⟨rfl,held_eq hat _⟩
      · intro he
        exact .inl he

private theorem persist_ended (clock : Clock) {s : State} {r : ℕ}
    (hended : ∀ recorder, s.heap r = some recorder → recorder.ended.isSome)
    {recorder : ActiveRecorder} (hr : (s.persist clock r).heap r = some recorder) :
    recorder.ended.isSome := by
  unfold State.persist at hr
  cases hs : s.heap r with
  | none =>
    rw [hs] at hr
    exact hended recorder hr
  | some before =>
    simp only [hs] at hr
    have hb := hended before hs
    split at hr
    · exact hended recorder hr
    split at hr
    · rw [heap_put,if_pos rfl] at hr
      cases hr
      exact hb
    · rw [show ∀ fl, ({ s.put r { before with saving := true, error := none, retryable := true }
        with inFlight := fl } : State).heap r = _ from fun _ => heap_put s r r _,if_pos rfl] at hr
      cases hr
      exact hb

theorem moves_finish (clock : Clock) (reason : EndReason) {s : State} (h : Kept s) (r : ℕ) :
    Moves [] s (s.finish clock reason r) ∧
      ∀ recorder, (s.finish clock reason r).heap r = some recorder → recorder.ended.isSome := by
  unfold State.finish
  cases hr : s.heap r with
  | none =>
    refine ⟨.refl h,?_⟩
    intro recorder hrec
    rw [hr] at hrec
    cases hrec
  | some recorder =>
    dsimp only
    split
    · rename_i he
      refine ⟨.refl h,?_⟩
      intro recorder' hrec
      rw [hr] at hrec
      cases hrec
      exact he
    rename_i he
    have hopen : recorder.held = none := by
      have hat := h.ended r recorder hr
      simp only [Option.isSome_iff_ne_none,ne_eq,Decidable.not_not] at he
      rw [he] at hat
      exact Option.not_isSome_iff_eq_none.mp (by rw [held_isSome,← hat]; simp)
    have hput : Moves [] s ((s.put r
        { recorder with ended := some reason, endedAt := some (clock.ended r) }).untap r
          recorder.sessionId) := by
      refine moves_put h hr rfl (.inr rfl) rfl ?_ (h.flights r recorder hr) ?_ ?_ ?_ ?_
      · intro cast hh
        rw [hopen] at hh
        cases hh
      · intro r' _
        exact le_rfl
      · intro save hsave
        exact .inl hsave
      · intro sessionId r' hm
        by_cases hs : sessionId = recorder.sessionId
        · subst hs
          rw [Function.update_self] at hm
          exact List.mem_of_mem_filter hm
        · rwa [Function.update_of_ne hs] at hm
      · intro _
        refine .inr ?_
        rw [Function.update_self]
        simp
    have hnow : ∀ rec', ((s.put r
        { recorder with ended := some reason, endedAt := some (clock.ended r) }).untap r
          recorder.sessionId).heap r = some rec' → rec'.ended.isSome := by
      intro rec' hrec
      rw [show ((s.put r { recorder with ended := some reason, endedAt := some (clock.ended r) }).untap
        r recorder.sessionId).heap r = _ from heap_put s r r _,if_pos rfl] at hrec
      cases hrec
      rfl
    split
    · exact ⟨hput,hnow⟩
    · have hp := moves_persist clock hput.kept r hnow
      refine ⟨hput.trans hp,?_⟩
      intro rec' hrec
      exact persist_ended clock hnow hrec

theorem moves_onTap (clock : Clock) (event : SessionTapEvent) {s : State} (h : Kept s) (r : ℕ) :
    Moves [r] s (s.onTap clock event r) := by
  unfold State.onTap
  cases hr : s.heap r with
  | none => exact .refl h
  | some recorder =>
    dsimp only
    split
    · exact .refl h
    rename_i he
    have hopen : recorder.held = none := by
      have hat := h.ended r recorder hr
      rw [← held_isSome] at hat
      exact Option.not_isSome_iff_eq_none.mp (hat ▸ he)
    have hedit : ∀ buffer, Moves [r] s (s.put r { recorder with buffer }) := by
      intro buffer
      refine moves_edit h hr rfl (.inl (List.mem_singleton_self r)) rfl rfl ?_ rfl
      intro cast hh
      rw [hopen] at hh
      cases hh
    cases event with
    | output bytes =>
      dsimp only
      split
      · have hput := hedit (recorder.buffer.output (clock.tapped r - recorder.clockBase) bytes).2
        have hfin := (moves_finish clock .cap hput.kept r).1
        exact hput.trans (hfin.mono (List.nil_subset _))
      · exact hedit _
    | resize cols rows => exact hedit _
    | closed => exact (moves_finish clock .sessionClosed h r).1.mono (List.nil_subset _)

private theorem moves_foldl (clock : Clock) (event : SessionTapEvent) {s : State} (h : Kept s)
    {rs all : List ℕ} (hsub : rs ⊆ all) :
    Moves all s (rs.foldl (State.onTap clock event) s) := by
  induction rs generalizing s with
  | nil => exact .refl h
  | cons r rs ih =>
    have hone := moves_onTap clock event h r
    have hr : [r] ⊆ all := by
      intro x hx
      rw [List.mem_singleton.mp hx]
      exact hsub List.mem_cons_self
    exact (hone.mono hr).trans (ih hone.kept fun x hx => hsub (List.mem_cons_of_mem r hx))

theorem moves_emit (clock : Clock) (event : SessionTapEvent) {s : State} (h : Kept s)
    (sessionId : String) : Moves (s.taps sessionId) s (s.emit clock event sessionId) := by
  unfold State.emit
  split
  · exact moves_foldl clock event h (List.Subset.refl _)
  · exact .refl h

theorem moves_forget {s : State} (h : Kept s) {live : String → Bool} {taps : String → List ℕ}
    {unlocked : Bool} (htaps : ∀ sessionId r, r ∈ taps sessionId → r ∈ s.taps sessionId) :
    Moves [] s { s with live, taps, unlocked } where
  kept := ⟨h.entry,h.latest,h.fresh,h.ended,h.flights,h.casts⟩
  recorders := rfl
  saved := rfl
  sessions _ := rfl
  buffers _ _ := rfl
  held _ recorder _ hr hh := ⟨recorder,hr,hh⟩
  taps := htaps
  untapped _ recorder hr he _ := ⟨recorder,hr,he⟩

private theorem mem_forgotten {s : State} (sessionId sessionId' : String) (r : ℕ)
    (h : r ∈ Function.update s.taps sessionId [] sessionId') : r ∈ s.taps sessionId' := by
  by_cases hs : sessionId' = sessionId
  · subst hs
    rw [Function.update_self] at h
    cases h
  · rwa [Function.update_of_ne hs] at h

theorem moves_close (clock : Clock) {s : State} (h : Kept s) (sessionId : String) :
    Moves (s.taps sessionId) s (s.close clock sessionId) := by
  have hemit := moves_emit clock .closed h sessionId
  have hforget : Moves [] (s.emit clock .closed sessionId) (s.close clock sessionId) :=
    moves_forget hemit.kept (mem_forgotten sessionId)
  exact hemit.trans (hforget.mono (List.nil_subset _))

theorem moves_stop (clock : Clock) {s : State} (h : Kept s) (sessionId : String) :
    Moves [] s (s.stopRecording clock sessionId) := by
  unfold State.stopRecording
  cases hs : s.recorders sessionId with
  | none => exact .refl h
  | some r =>
    have hfin := moves_finish clock .user h r
    exact hfin.1.trans (moves_persist clock hfin.1.kept r hfin.2)

theorem moves_retry (clock : Clock) {s : State} (h : Kept s) (sessionId : String) :
    Moves [] s (s.retrySave clock sessionId) := by
  unfold State.retrySave
  cases hs : s.recorders sessionId with
  | none => exact .refl h
  | some r =>
    dsimp only
    cases hr : s.heap r with
    | none => exact .refl h
    | some recorder =>
      dsimp only
      split
      · exact .refl h
      rename_i hgo
      refine moves_persist clock h r ?_
      intro recorder' hr'
      rw [hr] at hr'
      cases hr'
      cases he : recorder.ended with
      | none => simp [he] at hgo
      | some reason => rfl

private theorem flights_eraseIdx {l : List Saving} {i : ℕ} {save : Saving} (h : l[i]? = some save)
    (r : ℕ) : l.countP (·.recorder = r) =
      (l.eraseIdx i).countP (·.recorder = r) + if save.recorder = r then 1 else 0 := by
  obtain ⟨hi,he⟩ := List.getElem?_eq_some_iff.mp h
  have hperm := (List.getElem_cons_eraseIdx_perm hi).countP_eq (·.recorder = r)
  rw [← hperm,List.countP_cons,he]
  simp

theorem moves_failed {s : State} (h : Kept s) (i : ℕ) (message : String) (plan : Bool) :
    Moves [] s (s.saveFailed i message plan) := by
  unfold State.saveFailed
  cases hi : s.inFlight[i]? with
  | none => exact .refl h
  | some save =>
    dsimp only
    cases hr : s.heap save.recorder with
    | none => exact .refl h
    | some recorder =>
      refine moves_put h hr rfl (.inr rfl) (h.ended _ recorder hr) (fun _ hh => hh) ?_ ?_ ?_
        (fun _ _ h => h) .inl
      · have hle := h.flights _ recorder hr
        have hcount := flights_eraseIdx hi save.recorder
        have hbool := recorder.saving.toNat_le
        rw [if_pos rfl] at hcount
        unfold State.flights at hle
        change _ ≤ 0
        omega
      · intro r' hne
        have hcount := flights_eraseIdx hi r'
        rw [if_neg (Ne.symm hne)] at hcount
        unfold State.flights
        omega
      · intro save' hm
        exact .inl (List.mem_of_mem_eraseIdx hm)

/-- A step moves the recorders that tap a session, enters a new one, or takes one out. -/
inductive StepCase (s : State) (a : Action) : Prop
  | moves (rs : List ℕ) (h : Moves rs s (s.step a)) (hrs : ∀ r ∈ rs, ∃ sid, r ∈ s.taps sid)
  | start (req : StartRecordingRequest) (date clockBase : ℚ)
      (hfree : s.recorders req.sessionId = none) (he : s.step a = s.register req date clockBase)
  | discard (sessionId : String) (r : ℕ) (ha : a = .discard sessionId)
      (hr : s.recorders sessionId = some r)
      (he : s.step a =
        { s.untap r sessionId with recorders := Function.update s.recorders sessionId none })
  | succeeded (i : ℕ) (save : Saving) (recorder : ActiveRecorder) (ha : a = .succeeded i)
      (hi : s.inFlight[i]? = some save) (hr : s.heap save.recorder = some recorder)
      (he : s.step a =
        { s with
          recorders := Function.update s.recorders recorder.sessionId none
          inFlight := s.inFlight.eraseIdx i, saved := s.saved ++ [save] })

private theorem moves_none {s : State} {a : Action} (h : Moves [] s (s.step a)) : StepCase s a :=
  .moves [] h fun _ hr => absurd hr List.not_mem_nil

private theorem moves_stay {s : State} (h : Kept s) {a : Action} (he : s.step a = s) :
    StepCase s a := by
  apply moves_none
  rw [he]
  exact .refl h

theorem step_cases {s : State} (h : Kept s) (a : Action) : StepCase s a := by
  cases a with
  | opened sessionId => exact moves_none (moves_forget h (mem_forgotten sessionId))
  | vault unlocked => exact moves_none (moves_forget h fun _ _ hm => hm)
  | output clock sessionId bytes =>
    exact .moves _ (moves_emit clock (.output bytes) h sessionId) fun _ hr => ⟨sessionId,hr⟩
  | resize clock sessionId cols rows =>
    exact .moves _ (moves_emit clock (.resize cols rows) h sessionId) fun _ hr => ⟨sessionId,hr⟩
  | closed clock sessionId =>
    exact .moves _ (moves_close clock h sessionId) fun _ hr => ⟨sessionId,hr⟩
  | stop clock sessionId => exact moves_none (moves_stop clock h sessionId)
  | retry clock sessionId => exact moves_none (moves_retry clock h sessionId)
  | failed i message plan => exact moves_none (moves_failed h i message plan)
  | start req canRecordNow date clockBase =>
    by_cases hfree : s.recorders req.sessionId = none
    · by_cases hgo : s.unlocked && canRecordNow
      · refine .start req date clockBase hfree ?_
        obtain ⟨hu,hc⟩ := Bool.and_eq_true_iff.mp hgo
        simp [State.step,State.startRecording,hfree,hu,hc]
      · have hstay : s.step (.start req canRecordNow date clockBase) = s := by
          unfold State.step State.startRecording
          by_cases hu : s.unlocked
          · simp_all
          · simp [hfree,hu]
        exact moves_stay h hstay
    · have hstay : s.step (.start req canRecordNow date clockBase) = s := by
        simp [State.step,State.startRecording,Option.isSome_iff_ne_none.mpr hfree]
      exact moves_stay h hstay
  | discard sessionId =>
    cases hr : s.recorders sessionId with
    | none =>
      have hstay : s.step (.discard sessionId) = s := by
        simp [State.step,State.discardRecording,hr]
      exact moves_stay h hstay
    | some r =>
      exact .discard sessionId r rfl hr (by simp [State.step,State.discardRecording,hr])
  | succeeded i =>
    cases hi : s.inFlight[i]? with
    | none => exact moves_stay h (by simp [State.step,State.saveSucceeded,hi])
    | some save =>
      cases hr : s.heap save.recorder with
      | none => exact moves_stay h (by simp [State.step,State.saveSucceeded,hi,hr])
      | some recorder =>
        exact .succeeded i save recorder rfl hi hr
          (by simp [State.step,State.saveSucceeded,hi,hr])

private theorem register_heap {s : State} (h : Kept s) {req : StartRecordingRequest}
    {date clockBase : ℚ} {r : ℕ} {recorder : ActiveRecorder} (hr : s.heap r = some recorder) :
    (s.register req date clockBase).heap r = some recorder := by
  have hne : r ≠ s.made := (h.fresh r recorder hr).ne
  exact (Function.update_of_ne hne _ _).trans hr

private theorem kept_register {s : State} (h : Kept s) (req : StartRecordingRequest)
    (date clockBase : ℚ) : Kept (s.register req date clockBase) := by
  have hcases : ∀ r recorder, (s.register req date clockBase).heap r = some recorder →
      r = s.made ∧ recorder.sessionId = req.sessionId ∧ recorder.ended = none ∧
        recorder.endedAt = none ∨ s.heap r = some recorder := by
    intro r recorder hr
    by_cases he : r = s.made
    · subst he
      have hnew := (Function.update_self ..).symm.trans hr
      cases hnew
      exact .inl ⟨rfl,rfl,rfl,rfl⟩
    · exact .inr ((Function.update_of_ne he _ _).symm.trans hr)
  refine ⟨?_,?_,?_,?_,?_,?_⟩
  · intro sessionId r hr
    by_cases hs : sessionId = req.sessionId
    · subst hs
      cases (Function.update_self ..).symm.trans hr
      exact ⟨_,Function.update_self ..,rfl⟩
    · obtain ⟨recorder,hrec,hid⟩ :=
        h.entry sessionId r ((Function.update_of_ne hs _ _).symm.trans hr)
      exact ⟨recorder,register_heap h hrec,hid⟩
  · intro sessionId r hr r' recorder hrec hid
    by_cases hs : sessionId = req.sessionId
    · subst hs
      cases (Function.update_self ..).symm.trans hr
      rcases hcases r' recorder hrec with ⟨rfl,_⟩ | hold
      · exact le_rfl
      · exact (h.fresh r' recorder hold).le
    · have hold := (Function.update_of_ne hs _ _).symm.trans hr
      rcases hcases r' recorder hrec with ⟨_,hid',_⟩ | hrec
      · exact absurd (hid.symm.trans hid') hs
      · exact h.latest sessionId r hold r' recorder hrec hid
  · intro r recorder hr
    change r < s.made + 1
    rcases hcases r recorder hr with ⟨rfl,_⟩ | hr
    · omega
    · have hlt := h.fresh r recorder hr
      omega
  · intro r recorder hr
    rcases hcases r recorder hr with ⟨_,_,he,hat⟩ | hr
    · rw [he,hat]
      rfl
    · exact h.ended r recorder hr
  · intro r recorder hr
    rcases hcases r recorder hr with ⟨rfl,_⟩ | hr
    · refine le_trans (Nat.le_zero.mpr (List.countP_eq_zero.mpr ?_)) (Nat.zero_le _)
      intro save hm hsave
      obtain ⟨rec',hrec,_⟩ := h.casts save (.inl hm)
      have hlt := h.fresh _ rec' hrec
      simp only [decide_eq_true_eq] at hsave
      omega
    · exact h.flights r recorder hr
  · intro save hm
    obtain ⟨recorder,hr,hh⟩ := h.casts save hm
    exact ⟨recorder,register_heap h hr,hh⟩

private theorem kept_remove {s : State} (h : Kept s) (sessionId : String)
    {taps : String → List ℕ} {inFlight saved : List Saving}
    (hflights : ∀ r, inFlight.countP (·.recorder = r) ≤ s.flights r)
    (hsaves : ∀ save, save ∈ inFlight ∨ save ∈ saved → save ∈ s.inFlight ∨ save ∈ s.saved) :
    Kept { s with
      recorders := Function.update s.recorders sessionId none, taps, inFlight, saved } := by
  have hold : ∀ sid r, Function.update s.recorders sessionId none sid = some r →
      s.recorders sid = some r := by
    intro sid r hr
    by_cases hs : sid = sessionId
    · subst hs
      cases (Function.update_self ..).symm.trans hr
    · exact (Function.update_of_ne hs _ _).symm.trans hr
  refine ⟨?_,?_,h.fresh,h.ended,?_,?_⟩
  · intro sid r hr
    exact h.entry sid r (hold sid r hr)
  · intro sid r hr
    exact h.latest sid r (hold sid r hr)
  · intro r recorder hr
    exact (hflights r).trans (h.flights r recorder hr)
  · intro save hm
    exact h.casts save (hsaves save hm)

private theorem kept_discard {s : State} (h : Kept s) (sessionId : String) (r : ℕ) :
    Kept { s.untap r sessionId with
      recorders := Function.update s.recorders sessionId none } :=
  kept_remove h sessionId (fun _ => le_rfl) fun _ hm => hm

private theorem kept_succeeded {s : State} (h : Kept s) {i : ℕ} {save : Saving}
    (hi : s.inFlight[i]? = some save) (sessionId : String) :
    Kept { s with
      recorders := Function.update s.recorders sessionId none
      inFlight := s.inFlight.eraseIdx i, saved := s.saved ++ [save] } := by
  refine kept_remove h sessionId ?_ ?_
  · intro r
    exact (List.eraseIdx_sublist _ _).countP_le
  · intro save' hm
    rcases hm with hm | hm
    · exact .inl (List.mem_of_mem_eraseIdx hm)
    rcases List.mem_append.mp hm with hm | hm
    · exact .inr hm
    · rw [List.mem_singleton.mp hm]
      exact .inl (List.mem_of_getElem? hi)

theorem kept_step {s : State} (h : Kept s) (a : Action) : Kept (s.step a) := by
  rcases step_cases h a with ⟨rs,hm,_⟩ | ⟨req,date,clockBase,_,he⟩ | ⟨sessionId,r,_,_,he⟩ |
    ⟨i,save,recorder,_,hi,_,he⟩
  · exact hm.kept
  · exact he ▸ kept_register h req date clockBase
  · exact he ▸ kept_discard h sessionId r
  · exact he ▸ kept_succeeded h hi recorder.sessionId

/-- Who taps a session is its registered recorder, still capturing. -/
structure Tapped (s : State) : Prop where
  entry : ∀ sessionId r, r ∈ s.taps sessionId → s.recorders sessionId = some r
  capturing : ∀ sessionId r recorder, r ∈ s.taps sessionId → s.heap r = some recorder →
    recorder.ended = none

private theorem flights_le_one {s : State} (h : Kept s) (r : ℕ) : s.flights r ≤ 1 := by
  cases hr : s.heap r with
  | some recorder => exact (h.flights r recorder hr).trans recorder.saving.toNat_le
  | none =>
    refine le_trans (Nat.le_zero.mpr (List.countP_eq_zero.mpr ?_)) (Nat.zero_le 1)
    intro save hm hsave
    obtain ⟨recorder,hrec,_⟩ := h.casts save (.inl hm)
    rw [decide_eq_true_eq.mp hsave,hr] at hrec
    cases hrec

private theorem nothingDropped_of {s : State} {a : Action} (h : Kept (s.step a))
    (hremoved : ∀ r, s.Registered r → ¬ (s.step a).Registered r → s.Discards a r ∨ s.Saves a r)
    (hheld : ∀ r recorder cast, s.heap r = some recorder → recorder.held = some cast →
      ∃ recorder', (s.step a).heap r = some recorder' ∧ recorder'.held = some cast)
    (hbuffer : ∀ r recorder, s.heap r = some recorder → ¬ s.Registered r →
      ∃ recorder', (s.step a).heap r = some recorder' ∧ recorder'.buffer = recorder.buffer) :
    NothingDropped s a := by
  refine ⟨hremoved,?_,flights_le_one h,hheld,?_,hbuffer⟩
  · intro sessionId r hr
    exact ⟨h.entry sessionId r hr,h.latest sessionId r hr⟩
  · intro save hm
    exact h.casts save (.inr hm)

private theorem tapped_registered {s : State} (h : Kept s) (ht : Tapped s) {sessionId : String}
    {r : ℕ} (hr : r ∈ s.taps sessionId) : s.Registered r := by
  have he := ht.entry sessionId r hr
  obtain ⟨recorder,hrec,hid⟩ := h.entry sessionId r he
  exact ⟨recorder,hrec,hid ▸ he⟩

private theorem moves_nothingDropped {s : State} {a : Action} {rs : List ℕ} (h : Kept s)
    (ht : Tapped s) (hm : Moves rs s (s.step a)) (hrs : ∀ r ∈ rs, ∃ sid, r ∈ s.taps sid) :
    NothingDropped s a := by
  refine nothingDropped_of hm.kept ?_ hm.held ?_
  · rintro r ⟨recorder,hr,he⟩ hgone
    obtain ⟨recorder',hr',hid⟩ := hm.session' hr
    refine absurd ⟨recorder',hr',?_⟩ hgone
    rw [hm.recorders,hid,he]
  · intro r recorder hr hout
    have hnot : r ∉ rs := by
      intro hin
      obtain ⟨sid,hsid⟩ := hrs r hin
      exact hout (tapped_registered h ht hsid)
    have hb := hm.buffers r hnot
    rw [hr,Option.map_some] at hb
    exact Option.map_eq_some_iff.mp hb

private theorem nothingDropped_step {s : State} {a : Action} (h : Kept s) (ht : Tapped s)
    (hok : OwnEntry s a) : NothingDropped s a := by
  have hk := kept_step h a
  rcases step_cases h a with ⟨rs,hm,hrs⟩ | ⟨req,date,clockBase,hfree,he⟩ |
    ⟨sessionId,r,ha,hr,he⟩ | ⟨i,save,recorder,ha,hi,hr,he⟩
  · exact moves_nothingDropped h ht hm hrs
  · have hheap : ∀ r recorder, s.heap r = some recorder →
        (s.step a).heap r = some recorder := by
      intro r recorder hr
      rw [he]
      exact register_heap h hr
    refine nothingDropped_of hk ?_ ?_ ?_
    · rintro r ⟨recorder,hr,hreg⟩ hgone
      refine absurd ⟨recorder,hheap r recorder hr,?_⟩ hgone
      have hne : recorder.sessionId ≠ req.sessionId := by
        intro hs
        rw [hs,hfree] at hreg
        cases hreg
      rw [he]
      exact (Function.update_of_ne hne _ _).trans hreg
    · intro r recorder cast hr hh
      exact ⟨recorder,hheap r recorder hr,hh⟩
    · intro r recorder hr _
      exact ⟨recorder,hheap r recorder hr,rfl⟩
  · have hheap : (s.step a).heap = s.heap := by rw [he]; rfl
    refine nothingDropped_of hk ?_ ?_ ?_
    · rintro r' ⟨recorder,hr',hreg⟩ hgone
      refine .inl ⟨sessionId,ha,?_⟩
      by_cases hs : recorder.sessionId = sessionId
      · exact hs ▸ hreg
      · refine absurd ⟨recorder,hheap ▸ hr',?_⟩ hgone
        rw [he]
        exact (Function.update_of_ne hs _ _).trans hreg
    · intro r' recorder cast hr' hh
      exact ⟨recorder,hheap ▸ hr',hh⟩
    · intro r' recorder hr' _
      exact ⟨recorder,hheap ▸ hr',rfl⟩
  · have hheap : (s.step a).heap = s.heap := by rw [he]
    refine nothingDropped_of hk ?_ ?_ ?_
    · rintro r' ⟨recorder',hr',hreg⟩ hgone
      by_cases hs : recorder'.sessionId = recorder.sessionId
      · subst ha
        refine .inr ⟨i,save,rfl,hi,?_⟩
        rw [hs] at hreg
        rcases hok save recorder hi hr with hnone | hself
        · rw [hnone] at hreg
          cases hreg
        · exact Option.some.inj (hself.symm.trans hreg)
      · refine absurd ⟨recorder',hheap ▸ hr',?_⟩ hgone
        rw [he]
        exact (Function.update_of_ne hs _ _).trans hreg
    · intro r' recorder' cast hr' hh
      exact ⟨recorder',hheap ▸ hr',hh⟩
    · intro r' recorder' hr' _
      exact ⟨recorder',hheap ▸ hr',rfl⟩

private theorem tapped_moves {s s' : State} {rs : List ℕ} (ht : Tapped s) (hm : Moves rs s s') :
    Tapped s' := by
  have hentry : ∀ sessionId r, r ∈ s'.taps sessionId → s'.recorders sessionId = some r := by
    intro sessionId r hr
    rw [hm.recorders]
    exact ht.entry sessionId r (hm.taps sessionId r hr)
  refine ⟨hentry,?_⟩
  intro sessionId r recorder hr hrec
  obtain ⟨recorder',hrec',hid⟩ := hm.kept.entry sessionId r (hentry sessionId r hr)
  cases hrec.symm.trans hrec'
  by_contra he
  obtain ⟨before,hbefore,hended⟩ := hm.untapped r recorder hrec
    (Option.isSome_iff_ne_none.mpr he) (hid ▸ hr)
  have hopen := ht.capturing sessionId r before (hm.taps sessionId r hr) hbefore
  rw [hopen] at hended
  cases hended

private theorem tapped_register {s : State} (h : Kept s) (ht : Tapped s)
    {req : StartRecordingRequest} (hfree : s.recorders req.sessionId = none)
    (date clockBase : ℚ) : Tapped (s.register req date clockBase) := by
  have hnone : ∀ r, r ∉ s.taps req.sessionId := by
    intro r hr
    have he := ht.entry req.sessionId r hr
    rw [hfree] at he
    cases he
  have hcases : ∀ sessionId r, r ∈ (s.register req date clockBase).taps sessionId →
      sessionId = req.sessionId ∧ r = s.made ∨
        sessionId ≠ req.sessionId ∧ r ∈ s.taps sessionId := by
    intro sessionId r hr
    unfold State.register at hr
    dsimp only at hr
    by_cases hs : sessionId = req.sessionId
    · subst hs
      split at hr
      · rw [Function.update_self] at hr
        rcases List.mem_append.mp hr with hr | hr
        · exact absurd hr (hnone r)
        · exact .inl ⟨rfl,List.mem_singleton.mp hr⟩
      · exact absurd hr (hnone r)
    · split at hr
      · rw [Function.update_of_ne hs] at hr
        exact .inr ⟨hs,hr⟩
      · exact .inr ⟨hs,hr⟩
  refine ⟨?_,?_⟩
  · intro sessionId r hr
    rcases hcases sessionId r hr with ⟨rfl,rfl⟩ | ⟨hs,hr⟩
    · exact Function.update_self ..
    · exact (Function.update_of_ne hs _ _).trans (ht.entry sessionId r hr)
  · intro sessionId r recorder hr hrec
    rcases hcases sessionId r hr with ⟨rfl,rfl⟩ | ⟨_,hr⟩
    · cases (Function.update_self ..).symm.trans hrec
      rfl
    · obtain ⟨before,hbefore,_⟩ := tapped_registered h ht hr
      cases (register_heap h hbefore).symm.trans hrec
      exact ht.capturing sessionId r recorder hr hbefore

private theorem tapped_step {s : State} {a : Action} (h : Kept s) (ht : Tapped s)
    (hok : OwnEntry s a) : Tapped (s.step a) := by
  rcases step_cases h a with ⟨rs,hm,_⟩ | ⟨req,date,clockBase,hfree,he⟩ |
    ⟨sessionId,r,_,hr,he⟩ | ⟨i,save,recorder,ha,hi,hr,he⟩
  · exact tapped_moves ht hm
  · exact he ▸ tapped_register h ht hfree date clockBase
  · rw [he]
    have hcases : ∀ sid r', r' ∈ (s.untap r sessionId).taps sid →
        sid ≠ sessionId ∧ r' ∈ s.taps sid := by
      intro sid r' hm
      unfold State.untap at hm
      by_cases hs : sid = sessionId
      · subst hs
        dsimp only at hm
        rw [Function.update_self] at hm
        obtain ⟨hin,hne⟩ := List.mem_filter.mp hm
        have hsame := Option.some.inj (hr.symm.trans (ht.entry sid r' hin))
        exact absurd hsame.symm (decide_eq_true_eq.mp hne)
      · dsimp only at hm
        rw [Function.update_of_ne hs] at hm
        exact ⟨hs,hm⟩
    refine ⟨?_,?_⟩
    · intro sid r' hm
      obtain ⟨hs,hin⟩ := hcases sid r' hm
      exact (Function.update_of_ne hs _ _).trans (ht.entry sid r' hin)
    · intro sid r' recorder hm hrec
      exact ht.capturing sid r' recorder (hcases sid r' hm).2 hrec
  · subst ha
    rw [he]
    refine ⟨?_,ht.capturing⟩
    intro sid r' hm
    have hold := ht.entry sid r' hm
    by_cases hs : sid = recorder.sessionId
    · exfalso
      rw [hs] at hold hm
      rcases hok save recorder hi hr with hnone | hself
      · rw [hnone] at hold
        cases hold
      · cases hself.symm.trans hold
        have hopen := ht.capturing _ _ recorder hm hr
        obtain ⟨rec',hrec,hheld⟩ := h.casts save (.inl (List.mem_of_getElem? hi))
        cases hr.symm.trans hrec
        have hended := h.ended _ recorder hr
        rw [← held_isSome,hheld,hopen] at hended
        cases hended
    · exact (Function.update_of_ne hs _ _).trans hold

private theorem ownEntry_of_nothingDropped {s : State} {a : Action} (h : Kept s)
    (hno : NothingDropped s a) : OwnEntry s a := by
  cases a with
  | succeeded i =>
    intro save recorder hi hr
    cases he : s.recorders recorder.sessionId with
    | none => exact .inl rfl
    | some b =>
      refine .inr ?_
      obtain ⟨other,hother,hid⟩ := h.entry _ b he
      have hgone : ¬ (s.step (.succeeded i)).Registered b := by
        rintro ⟨other',hother',hreg⟩
        simp only [State.step,State.saveSucceeded,hi,hr] at hother' hreg
        cases hother.symm.trans hother'
        rw [hid,Function.update_self] at hreg
        cases hreg
      rcases hno.removed b ⟨other,hother,hid ▸ he⟩ hgone with ⟨sid,ha,_⟩ | ⟨j,save',ha,hj,hb⟩
      · cases ha
      · cases ha
        cases hi.symm.trans hj
        rw [hb]
  | _ => trivial

private theorem kept_start : Kept .start := by
  refine ⟨?_,?_,?_,?_,?_,?_⟩
  · intro _ _ hr
    cases hr
  · intro _ _ hr
    cases hr
  · intro _ _ hr
    cases hr
  · intro _ _ hr
    cases hr
  · intro _ _ hr
    cases hr
  · intro save hm
    rcases hm with hm | hm <;> cases hm

private theorem tapped_start : Tapped .start := by
  refine ⟨?_,?_⟩
  · intro _ _ hr
    cases hr
  · intro _ _ _ hr
    cases hr

/-- In a run a recording is dropped, captured into after it left the registry, or saved twice at
once or as something else than it held, exactly when a save succeeds while the registry holds
another recorder of its session. -/
theorem nothingDropped_iff (actions : List Action) :
    Along State.step NothingDropped .start actions ↔
      Along State.step OwnEntry .start actions := by
  constructor
  · refine Along.imp Kept ?_ ?_ kept_start
    · intro s a h _
      exact kept_step h a
    · intro s a h hno
      exact ownEntry_of_nothingDropped h hno
  · refine Along.imp (fun s => Kept s ∧ Tapped s) ?_ ?_ ⟨kept_start,tapped_start⟩
    · intro s a h hok
      exact ⟨kept_step h.1 a,tapped_step h.1 h.2 hok⟩
    · intro s a h hok
      exact nothingDropped_step h.1 h.2 hok

private def shellRequest : StartRecordingRequest where
  sessionId := "s"
  label := []
  host := []
  targetRef := none
  deviceId := none
  cols := 80
  rows := 24

private def steadyClock : Clock where
  tapped _ := 1
  ended _ := 2
  saving _ := 3

/-- The first recording is discarded while its save is in flight and a second one is started. -/
def discardedWhileSaving : List Action :=
  [.vault true,.opened "s",.start shellRequest true 0 0,.output steadyClock "s" [97],.stop steadyClock "s",
    .discard "s",.start shellRequest true 1 1]

theorem save_drops_other :
    ¬ Along State.step NothingDropped .start (discardedWhileSaving ++ [.succeeded 0]) := by
  intro h
  have hno : NothingDropped (runActs State.step .start discardedWhileSaving) (.succeeded 0) := h.at
  have hid : ((runActs State.step .start discardedWhileSaving).heap 1).map (·.sessionId) =
      some "s" := by decide +kernel
  have hentry : (runActs State.step .start discardedWhileSaving).recorders "s" = some 1 := by
    decide +kernel
  have hflight : (runActs State.step .start discardedWhileSaving).inFlight.map (·.recorder) =
      [0] := by decide +kernel
  have hafter : ((runActs State.step .start discardedWhileSaving).step (.succeeded 0)).heap 1 =
      (runActs State.step .start discardedWhileSaving).heap 1 := by rfl
  have hnone : ((runActs State.step .start discardedWhileSaving).step
      (.succeeded 0)).recorders "s" = none := by decide +kernel
  generalize runActs State.step .start discardedWhileSaving = s at *
  obtain ⟨recorder,hr,hs⟩ := Option.map_eq_some_iff.mp hid
  have hgone : ¬ (s.step (.succeeded 0)).Registered 1 := by
    rintro ⟨recorder',hr',hreg⟩
    cases hr.symm.trans (hafter.symm.trans hr')
    rw [hs,hnone] at hreg
    cases hreg
  rcases hno.removed 1 ⟨recorder,hr,hs ▸ hentry⟩ hgone with ⟨sid,ha,_⟩ | ⟨i,save,ha,hi,hone⟩
  · cases ha
  · have hm : save.recorder ∈ s.inFlight.map (·.recorder) :=
      List.mem_map_of_mem (List.mem_of_getElem? hi)
    rw [hflight,hone] at hm
    exact absurd hm (by decide)

end WeirdVault.Recording
