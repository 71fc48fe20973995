import Mathlib.Algebra.Group.Defs
import Mathlib.Algebra.Order.Ring.Int
import WeirdVault.Framework.Pieces
import WeirdVault.Framework.Runs
import WeirdVault.Recording.Format

/-! # The player: seeking and playing -/

namespace WeirdVault.Recording

open WeirdVault.Framework

variable {N : Type}

/-- An emulator takes bytes in writes and geometries in resizes. -/
abbrev Terminal (N : Type) := Machine UInt8 (N × N)

abbrev Operation (N : Type) := Told UInt8 (N × N)

structure Player (N : Type) where
  playhead : N
  index : ℕ
  /-- What the terminal was told since it was made or last reset. -/
  terminal : List (Operation N)
deriving DecidableEq

def CastFrame.show (frame : CastFrame N) : List (Operation N) :=
  .command (frame.cols,frame.rows) :: if 0 < frame.data.length then [.data frame.data] else []

def CastEvent.operation : CastEvent N → Operation N
  | .output _ bytes => .data bytes
  | .resize _ cols rows => .command (cols,rows)

private theorem letters_show (frame : CastFrame N) :
    letters frame.show = .inr (frame.cols,frame.rows) :: frame.data.map .inl := by
  unfold CastFrame.show
  rw [letters_command]
  split
  · rw [letters_data,letters_nil,List.append_nil]
  · have hd : frame.data = [] := List.length_eq_zero_iff.mp (by omega)
    rw [hd]
    rfl

private theorem letters_outputs {events : List (CastEvent N)}
    (h : ∀ stamp cols rows, .resize stamp cols rows ∉ events) :
    letters (events.map CastEvent.operation) = (events.flatMap CastEvent.bytes).map .inl := by
  induction events with
  | nil => rfl
  | cons e events ih =>
    have ih' := ih fun stamp cols rows hm => h stamp cols rows (List.mem_cons_of_mem _ hm)
    cases e with
    | output stamp bytes =>
      rw [List.map_cons,List.flatMap_cons,List.map_append,← ih']
      rfl
    | resize stamp cols rows => exact absurd List.mem_cons_self (h stamp cols rows)

private theorem geometryAfter_append (cols rows : N) (xs ys : List (CastEvent N)) :
    geometryAfter cols rows (xs ++ ys) =
      geometryAfter (geometryAfter cols rows xs).1 (geometryAfter cols rows xs).2 ys := by
  induction xs generalizing cols rows with
  | nil => rfl
  | cons e xs ih =>
    cases e with
    | output stamp bytes => exact ih cols rows
    | resize stamp cols' rows' => exact ih cols' rows'

private theorem geometryAfter_outputs (cols rows : N) {events : List (CastEvent N)}
    (h : ∀ stamp cols rows, .resize stamp cols rows ∉ events) :
    geometryAfter cols rows events = (cols,rows) := by
  induction events with
  | nil => rfl
  | cons e events ih =>
    cases e with
    | output stamp bytes =>
      exact ih fun stamp cols rows hm => h stamp cols rows (List.mem_cons_of_mem _ hm)
    | resize stamp cols rows => exact absurd List.mem_cons_self (h stamp cols rows)

private def commands (told : List (UInt8 ⊕ N × N)) : ℕ := told.countP Sum.isRight

private theorem commands_show (frame : CastFrame N) : commands (letters frame.show) = 1 := by
  have hb : (frame.data.map (Sum.inl : UInt8 → UInt8 ⊕ N × N)).countP Sum.isRight = 0 := by
    apply List.countP_eq_zero.mpr
    intro x hx
    obtain ⟨b,_,rfl⟩ := List.mem_map.mp hx
    exact Bool.false_ne_true
  rw [letters_show,commands,List.countP_cons_of_pos rfl,hb]

private theorem commands_pos {events : List (CastEvent N)} {stamp cols rows : N}
    (h : .resize stamp cols rows ∈ events) :
    0 < commands (letters (events.map CastEvent.operation)) := by
  apply List.countP_pos_iff.mpr
  refine ⟨.inr (cols,rows),?_,rfl⟩
  have hm : Told.command (cols,rows) ∈ events.map CastEvent.operation :=
    List.mem_map.mpr ⟨_,h,rfl⟩
  exact List.mem_flatMap.mpr ⟨_,hm,List.mem_singleton_self _⟩

variable [LinearOrder N]

private theorem letters_frame_iff {cast : Cast N} (hs : cast.Ordered) {t u : N} (h : t ≤ u) :
    letters (frameOf cast.header (due u cast.events)).show =
        letters ((frameOf cast.header (due t cast.events)).show ++
          (dueBetween t u cast.events).map CastEvent.operation) ↔
      ∀ stamp cols rows, .resize stamp cols rows ∉ dueBetween t u cast.events := by
  constructor
  · intro he stamp cols rows hm
    have hc := congrArg commands he
    rw [commands_show,letters_append] at hc
    unfold commands at hc
    rw [List.countP_append] at hc
    have hone := commands_show (frameOf cast.header (due t cast.events))
    have hpos := commands_pos hm
    unfold commands at hone hpos
    omega
  · intro hno
    rw [letters_append,letters_show,letters_show,letters_outputs hno,
      due_append_dueBetween hs h]
    simp only [frameOf,geometryAfter_append,geometryAfter_outputs _ _ hno,List.flatMap_append,
      List.map_append,List.cons_append]

variable [AddZeroClass N]

def prime (cast : Cast N) : Player N :=
  let first := frameAt cast 0
  { playhead := 0, index := first.next, terminal := first.show }

def seekTarget (cast : Cast N) (dest : N) : N := max 0 (min (castEnd cast) dest)

def seek (cast : Cast N) (dest : N) : Player N :=
  let target := seekTarget cast dest
  let frame := frameAt cast target
  { playhead := target, index := frame.next, terminal := frame.show }

/-- One animation frame; `advance` is the time since the last one by the speed. -/
def step (cast : Cast N) (advance : N) (p : Player N) : Player N :=
  let playhead := min (castEnd cast) (p.playhead + advance)
  let (events,next) := eventsUpTo cast p.index playhead
  { playhead, index := next, terminal := p.terminal ++ events.map CastEvent.operation }

/-- What happens to a player: the bar is let go at a time, or a frame is drawn. -/
inductive Act (N : Type) where
  | seek (dest : N)
  | step (advance : N)
deriving DecidableEq

/-- A player with the time of its last seek and the furthest time it has reached since. -/
structure Viewing (N : Type) where
  player : Player N
  since : N
  reach : N
deriving DecidableEq

def opened (cast : Cast N) : Viewing N := { player := prime cast, since := 0, reach := 0 }

def watch (cast : Cast N) (v : Viewing N) : Act N → Viewing N
  | .seek dest =>
    { player := seek cast dest, since := seekTarget cast dest, reach := seekTarget cast dest }
  | .step advance =>
    let player := step cast advance v.player
    { v with player, reach := max v.reach player.playhead }

/-- Every event up to the furthest time is on the screen, once: up to the last seek in the frame
that was shown then, after it one by one in their order. The next frame goes on from there. -/
structure AppliedOnce (cast : Cast N) (v : Viewing N) : Prop where
  index : v.player.index = (due v.reach cast.events).length
  terminal : v.player.terminal = (frameOf cast.header (due v.since cast.events)).show ++
    (dueBetween v.since v.reach cast.events).map CastEvent.operation
  ordered : v.since ≤ v.reach
  goesOn : ∀ advance, (step cast advance v.player).terminal = v.player.terminal ++
    (dueBetween v.reach (step cast advance v.player).playhead cast.events).map
      CastEvent.operation

/-- A seek leaves every emulator as frames that reach the same time do. -/
def SeekShowsPlay (cast : Cast N) (dest : N) : Prop :=
  ∀ advances : List N,
    (runActs (watch cast) (opened cast) (advances.map .step)).reach = seekTarget cast dest →
    ∀ (emulator : Terminal N) (fresh : emulator.State),
      emulator.tell fresh (seek cast dest).terminal = emulator.tell fresh
        (runActs (watch cast) (opened cast) (advances.map .step)).player.terminal

private theorem step_eq {cast : Cast N} (hs : cast.Ordered) {v : Viewing N}
    (hi : v.player.index = (due v.reach cast.events).length) (advance : N) :
    step cast advance v.player =
      { playhead := min (castEnd cast) (v.player.playhead + advance)
        index := (due (max v.reach (min (castEnd cast) (v.player.playhead + advance)))
          cast.events).length
        terminal := v.player.terminal ++ (dueBetween v.reach
          (min (castEnd cast) (v.player.playhead + advance)) cast.events).map
            CastEvent.operation } := by
  unfold step
  simp only [hi,eventsUpTo_eq hs]

private theorem appliedOnce_of_parts {cast : Cast N} (hs : cast.Ordered) {v : Viewing N}
    (hi : v.player.index = (due v.reach cast.events).length)
    (ht : v.player.terminal = (frameOf cast.header (due v.since cast.events)).show ++
      (dueBetween v.since v.reach cast.events).map CastEvent.operation)
    (ho : v.since ≤ v.reach) : AppliedOnce cast v := by
  refine ⟨hi,ht,ho,?_⟩
  intro advance
  rw [step_eq hs hi]

private theorem appliedOnce_shown {cast : Cast N} (hs : cast.Ordered) (t playhead : N) :
    AppliedOnce cast
      { player := { playhead, index := (frameAt cast t).next, terminal := (frameAt cast t).show }
        since := t, reach := t } := by
  apply appliedOnce_of_parts hs
  · rw [frameAt_eq hs]
    rfl
  · rw [frameAt_eq hs,dueBetween_self,List.map_nil,List.append_nil]
  · exact le_rfl

theorem appliedOnce_watch {cast : Cast N} (hs : cast.Ordered) {v : Viewing N}
    (h : AppliedOnce cast v) (a : Act N) : AppliedOnce cast (watch cast v a) := by
  cases a with
  | seek dest => exact appliedOnce_shown hs _ _
  | step advance =>
    have hstep := step_eq hs h.index advance
    have hle : v.reach ≤ max v.reach (step cast advance v.player).playhead := le_max_left _ _
    apply appliedOnce_of_parts hs
    · change (step cast advance v.player).index = _
      rw [hstep]
      rfl
    · have hmore : dueBetween v.since (max v.reach (step cast advance v.player).playhead)
          cast.events = dueBetween v.since v.reach cast.events ++
            dueBetween v.reach (step cast advance v.player).playhead cast.events := by
        rw [dueBetween_append hs h.ordered hle,dueBetween_max]
      change (step cast advance v.player).terminal =
        (frameOf cast.header (due v.since cast.events)).show ++ (dueBetween v.since
          (max v.reach (step cast advance v.player).playhead) cast.events).map _
      rw [h.goesOn,h.terminal,hmore,List.map_append,List.append_assoc]
    · exact h.ordered.trans hle

theorem appliedOnce_run {cast : Cast N} (hs : cast.Ordered) (acts : List (Act N)) :
    AppliedOnce cast (runActs (watch cast) (opened cast) acts) := by
  have h0 : AppliedOnce cast (opened cast) := appliedOnce_shown hs 0 0
  refine invariant_runActs (AppliedOnce cast) ?_ h0 (along_true _ _ acts)
  intro v a hv _
  exact appliedOnce_watch hs hv a

private theorem since_steps (cast : Cast N) (v : Viewing N) (advances : List N) :
    (runActs (watch cast) v (advances.map .step)).since = v.since := by
  induction advances generalizing v with
  | nil => rfl
  | cons a advances ih => exact ih _

private theorem reach_one_step (cast : Cast N) (dest : N) :
    (runActs (watch cast) (opened cast) ([seekTarget cast dest].map .step)).reach =
      seekTarget cast dest := by
  change max 0 (min (castEnd cast) (0 + seekTarget cast dest)) = seekTarget cast dest
  rw [zero_add]
  unfold seekTarget
  rcases le_total 0 (min (castEnd cast) dest) with h | h
  · rw [max_eq_right h,min_eq_right (min_le_left _ _),max_eq_right h]
  · rw [max_eq_left h]
    exact max_eq_left (min_le_right _ _)

private theorem shows_iff {cast : Cast N} (hs : cast.Ordered) (dest : N) {advances : List N}
    (hr : (runActs (watch cast) (opened cast) (advances.map .step)).reach = seekTarget cast dest) :
    (∀ (emulator : Terminal N) (fresh : emulator.State),
      emulator.tell fresh (seek cast dest).terminal = emulator.tell fresh
        (runActs (watch cast) (opened cast) (advances.map .step)).player.terminal) ↔
      ∀ stamp cols rows,
        .resize stamp cols rows ∉ dueBetween 0 (seekTarget cast dest) cast.events := by
  have hrun := appliedOnce_run hs (advances.map .step)
  have hseek : (seek cast dest).terminal =
      (frameOf cast.header (due (seekTarget cast dest) cast.events)).show := by
    rw [← frameAt_eq hs]
    rfl
  rw [same_state_iff,hseek,hrun.terminal,since_steps,hr]
  exact letters_frame_iff hs (le_max_left _ _)

/-- Whatever mixture of seeks and frames led somewhere, every event up to there has been applied
once and the next frame goes on from there. A seek shows what playing shows exactly when no
resize lies after the start and at or before its target. -/
theorem seekShowsPlay_iff (cast : Cast N) (hs : cast.Ordered) :
    (∀ acts, AppliedOnce cast (runActs (watch cast) (opened cast) acts)) ∧
    ∀ dest, SeekShowsPlay cast dest ↔
      ∀ stamp cols rows, CastEvent.resize stamp cols rows ∈ cast.events → 0 < stamp →
        ¬ stamp ≤ seekTarget cast dest := by
  refine ⟨appliedOnce_run hs,?_⟩
  intro dest
  have hmem : (∀ stamp cols rows,
      CastEvent.resize stamp cols rows ∉ dueBetween 0 (seekTarget cast dest) cast.events) ↔
      ∀ stamp cols rows, CastEvent.resize stamp cols rows ∈ cast.events → 0 < stamp →
        ¬ stamp ≤ seekTarget cast dest := by
    simp only [mem_dueBetween,not_and]
    exact Iff.rfl
  rw [← hmem]
  constructor
  · intro h
    exact (shows_iff hs dest (reach_one_step cast dest)).mp (h _ (reach_one_step cast dest))
  · intro h advances hr
    exact (shows_iff hs dest hr).mpr h

def wrapped : Cast ℤ where
  header :=
    { v := 1, cols := 2, rows := 2, startedAt := 0, durationMs := 20, label := none, host := none }
  events := [.output 5 [97,98,99,100],.resize 10 4 2]

def putByte (screen : ℤ × List (List UInt8)) (byte : UInt8) : ℤ × List (List UInt8) :=
  match screen with
  | (cols,[]) => (cols,[[byte]])
  | (cols,line :: lines) =>
    if line.length < cols then (cols,(line ++ [byte]) :: lines) else (cols,[byte] :: line :: lines)

/-- A terminal that begins a new line where the geometry in force ends. -/
def wrapping : Terminal ℤ where
  State := ℤ × List (List UInt8)
  data screen piece := piece.foldl putByte screen
  command screen geometry := (geometry.1,screen.2)
  data_nil _ := rfl
  data_append _ _ _ := List.foldl_append

private theorem wrapped_ordered : wrapped.Ordered := by
  unfold Cast.Ordered
  decide

/-- Before the resize a seek shows what playing shows. -/
theorem wrapped_seek_before : SeekShowsPlay wrapped 9 := by
  refine ((seekShowsPlay_iff wrapped wrapped_ordered).2 9).mpr ?_
  intro stamp cols rows hm _
  obtain ⟨rfl,-,-⟩ : stamp = 10 ∧ cols = 4 ∧ rows = 2 := by simpa [wrapped] using hm
  decide

/-- Playing leaves two lines on the screen, a seek to the same time leaves one. -/
theorem wrapped_seek_differs : wrapped.Ordered ∧ ¬ SeekShowsPlay wrapped 10 := by
  refine ⟨wrapped_ordered,?_⟩
  intro h
  have hsame := h [10] (by decide +kernel) wrapping ((2,[]) : ℤ × List (List UInt8))
  have hlines : ((4,[[97,98,99,100]]) : ℤ × List (List UInt8)) = (4,[[99,100],[97,98]]) := hsame
  exact absurd hlines (by decide)

end WeirdVault.Recording
