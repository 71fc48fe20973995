import Mathlib.Data.List.Basic

/-!
# Fixed windows

A sequence of timed events is cut into windows. The first event opens one, and so does every event
at least `w` after the opening of the window that is under way. Whatever the clock does, there is
one way to cut.
-/

namespace WeirdVault.Framework

variable {α : Type} (time : α → Int) (w : Int)

/-- The rest of a cut, in the window `current` that opened at `start`. -/
def windowsFrom (start : Int) (current : List α) : List α → List (List α)
  | [] => [current]
  | c :: cs =>
    if start+w ≤ time c then current :: windowsFrom (time c) [c] cs
    else windowsFrom start (current ++ [c]) cs

def windows : List α → List (List α)
  | [] => []
  | c :: cs => windowsFrom time w (time c) [c] cs

/-- The event that opened a window, and those less than `w` after it. -/
def IsWindow (win : List α) : Prop := ∃ c cs, win = c :: cs ∧ ∀ d ∈ cs, time d < time c+w

def Follows (win next : List α) : Prop :=
  ∀ c ∈ win.head?, ∀ d ∈ next.head?, time c+w ≤ time d

structure IsCut (events : List α) (ws : List (List α)) : Prop where
  whole : ws.flatten = events
  opened : ∀ win ∈ ws, IsWindow time w win
  chain : ws.IsChain (Follows time w)

variable {time w}

theorem isCut_windowsFrom {c : α} {cs : List α} (hcs : ∀ d ∈ cs, time d < time c+w)
    (events : List α) :
    IsCut time w (c :: cs ++ events) (windowsFrom time w (time c) (c :: cs) events) ∧
      ∃ rest ws, windowsFrom time w (time c) (c :: cs) events = (c :: rest) :: ws := by
  induction events generalizing c cs with
  | nil => exact ⟨⟨by simp [windowsFrom],by
      intro win hwin
      rw [List.mem_singleton.mp hwin]
      exact ⟨c,cs,rfl,hcs⟩,List.IsChain.singleton _⟩,cs,[],rfl⟩
  | cons d events ih =>
    rw [windowsFrom]
    split
    · next hover =>
      have hnone : ∀ x ∈ ([] : List α), time x < time d+w := by simp
      obtain ⟨hcut,rest,ws,hws⟩ := ih hnone
      refine ⟨⟨?_,?_,?_⟩,cs,_,rfl⟩
      · rw [List.flatten_cons,hcut.whole]
        simp
      · intro win hwin
        rcases List.mem_cons.mp hwin with rfl | hwin
        · exact ⟨c,cs,rfl,hcs⟩
        · exact hcut.opened win hwin
      · have hchain := hcut.chain
        rw [hws] at hchain ⊢
        refine List.isChain_cons_cons.mpr ⟨?_,hchain⟩
        intro a ha b hb
        simp only [List.head?_cons,Option.mem_def,Option.some.injEq] at ha hb
        subst ha hb
        exact hover
    · next hwithin =>
      have hcs' : ∀ x ∈ cs ++ [d], time x < time c+w := by
        intro x hx
        rcases List.mem_append.mp hx with hx | hx
        · exact hcs x hx
        · rw [List.mem_singleton.mp hx]
          omega
      have h := ih hcs'
      simpa using h

theorem isCut_windows (events : List α) : IsCut time w events (windows time w events) := by
  cases events with
  | nil => exact ⟨rfl,by simp [windows],by simp [windows]⟩
  | cons c cs =>
    have hnone : ∀ x ∈ ([] : List α), time x < time c+w := by simp
    exact (isCut_windowsFrom hnone cs).1

theorem windowsFrom_within {start : Int} {l : List α} (h : ∀ d ∈ l, time d < start+w)
    (current events : List α) : windowsFrom time w start current (l ++ events) =
      windowsFrom time w start (current ++ l) events := by
  induction l generalizing current with
  | nil => simp
  | cons d l ih =>
    have hd : ¬ start+w ≤ time d := Int.not_le.mpr (h d List.mem_cons_self)
    have hl : ∀ x ∈ l, time x < start+w := fun x hx => h x (List.mem_cons_of_mem d hx)
    rw [List.cons_append,windowsFrom,if_neg hd,ih hl]
    simp

theorem IsCut.windowsFrom {c : α} {cs events : List α} {ws : List (List α)}
    (h : IsCut time w events ((c :: cs) :: ws)) :
    windowsFrom time w (time c) (c :: cs) ws.flatten = (c :: cs) :: ws := by
  induction ws generalizing c cs events with
  | nil => rfl
  | cons win ws ih =>
    obtain ⟨d,ds,rfl,hds⟩ := h.opened win (by simp)
    have hchain := List.isChain_cons_cons.mp h.chain
    have hover : time c+w ≤ time d := hchain.1 c rfl d rfl
    have hrest : IsCut time w ((d :: ds) :: ws).flatten ((d :: ds) :: ws) :=
      ⟨rfl,fun x hx => h.opened x (List.mem_cons_of_mem _ hx),hchain.2⟩
    rw [List.flatten_cons,List.cons_append,Framework.windowsFrom,if_pos hover,
      windowsFrom_within hds,List.singleton_append,ih hrest]

theorem IsCut.eq_windows {events : List α} {ws : List (List α)} (h : IsCut time w events ws) :
    ws = windows time w events := by
  cases ws with
  | nil =>
    rw [← h.whole]
    rfl
  | cons win ws =>
    obtain ⟨c,cs,rfl,hcs⟩ := h.opened win List.mem_cons_self
    rw [← h.whole,List.flatten_cons,List.cons_append,windows,windowsFrom_within hcs]
    exact h.windowsFrom.symm

theorem windowsFrom_map {β : Type} (f : β → α) (start : Int) (current events : List β) :
    windowsFrom time w start (current.map f) (events.map f) =
      (windowsFrom (fun x => time (f x)) w start current events).map (List.map f) := by
  induction events generalizing start current with
  | nil => rfl
  | cons c cs ih =>
    simp only [List.map_cons,windowsFrom]
    by_cases hover : start+w ≤ time (f c)
    · rw [if_pos hover,if_pos hover,List.map_cons,← ih]
      rfl
    · rw [if_neg hover,if_neg hover,← ih]
      simp

theorem windows_map {β : Type} (f : β → α) (events : List β) :
    windows time w (events.map f) =
      (windows (fun x => time (f x)) w events).map (List.map f) := by
  cases events with
  | nil => rfl
  | cons c cs => exact windowsFrom_map f (time (f c)) [c] cs

end WeirdVault.Framework
