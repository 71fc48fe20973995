import WeirdVault.Framework.Recorded

/-!
# What a run meets and how it fails

`Every` is a condition on all requests of a run. A monitor remembers whether one of them was bad, so
that the end of a run and what was met on the way can be proved together.
-/

namespace WeirdVault.Framework.Program

variable {ρ : Type} {ans : ρ → Type} {ε α β σ : Type}

section Run

variable (exec : σ → (r : ρ) → σ × ans r)

/-- Every request of the run meets the condition where it is made. -/
def Every (ok : σ → ρ → Prop) : σ → Program ans ε α → Prop
  | _, done _ => True
  | _, fail _ => True
  | s, ask r next => ok s r ∧ Every ok (exec s r).1 (next (exec s r).2)

def watch (bad : σ → ρ → Bool) (w : σ × Bool) (r : ρ) : (σ × Bool) × ans r :=
  (((exec w.1 r).1,w.2 || bad w.1 r),(exec w.1 r).2)

variable {exec} {bad : σ → ρ → Bool} {s : σ}

theorem run_watch (b : Bool) (p : Program ans ε α) :
    ((run (watch exec bad) (s,b) p).1.1,(run (watch exec bad) (s,b) p).2) = run exec s p := by
  induction p generalizing s b with
  | done a => rfl
  | fail e => rfl
  | ask r next ih => exact ih _ _

private theorem watched_bad (p : Program ans ε α) :
    (run (watch exec bad) (s,true) p).1.2 = true := by
  induction p generalizing s with
  | done a => rfl
  | fail e => rfl
  | ask r next ih => exact ih _

theorem every_iff_watched (p : Program ans ε α) : Every exec (fun s r => bad s r = false) s p ↔
    (run (watch exec bad) (s,false) p).1.2 = false := by
  induction p generalizing s with
  | done a => exact iff_of_true trivial rfl
  | fail e => exact iff_of_true trivial rfl
  | ask r next ih =>
    simp only [Every,run_ask,watch,Bool.false_or]
    cases hbad : bad s r with
    | false => simpa using ih _
    | true =>
      have hlast : (run (watch exec bad) ((exec s r).1,true) (next (exec s r).2)).1.2 = true :=
        watched_bad _
      simp [hlast]

/-- The run ends well if and only if nothing bad was met. -/
theorem post_iff_every (post : σ → Except ε α → Prop) {p : Program ans ε α}
    (h : Leaves (watch exec bad) (s,false) p (fun w o => post w.1 o ↔ w.2 = false)) :
    post (run exec s p).1 (run exec s p).2 ↔ Every exec (fun s r => bad s r = false) s p := by
  have hsame : ((run (watch exec bad) (s,false) p).1.1,(run (watch exec bad) (s,false) p).2) =
      run exec s p := run_watch false p
  rw [every_iff_watched,← hsame]
  exact h

theorem Asks.leaves {may : Transcript ans → ρ → Prop} {post : Transcript ans → Except ε α → Prop}
    {k : Transcript ans} {p : Program ans ε α} (h : Asks may post k p) (inv : σ → Prop)
    (hstep : ∀ s k r, inv s → may k r → inv (exec s r).1) (hs : inv s) :
    Leaves exec s p (fun t _ => inv t) := by
  induction p generalizing s k with
  | done a => exact hs
  | fail e => exact hs
  | ask r next ih =>
    have hask := (asks_ask r next).mp h
    exact ih _ (hask.2 _) (hstep s k r hs hask.1)

theorem leaves_of_kept {inv : σ → Prop} (hstep : ∀ s r, inv s → inv (exec s r).1)
    (p : Program ans ε α) (hs : inv s) : Leaves exec s p (fun t _ => inv t) := by
  induction p generalizing s with
  | done a => exact hs
  | fail e => exact hs
  | ask r next ih => exact ih _ (hstep s r hs)

theorem leaves_bind_of_run {t : σ} {p : Program ans ε α} {a : α} {f : α → Program ans ε β}
    {post : σ → Except ε β → Prop} (hrun : run exec s p = (t,.ok a))
    (h : Leaves exec t (f a) post) : Leaves exec s (p.bind f) post := by
  rw [Leaves,run_bind_ok exec hrun]
  exact h

theorem Leaves.and {p : Program ans ε α} {post post' : σ → Except ε α → Prop}
    (h : Leaves exec s p post) (h' : Leaves exec s p post') :
    Leaves exec s p (fun t o => post t o ∧ post' t o) := ⟨h,h'⟩

end Run

/-- Whatever is answered, an error that the program throws is one of these. -/
def Throws (Q : ε → Prop) : Program ans ε α → Prop
  | done _ => True
  | fail e => Q e
  | ask _ next => ∀ x, Throws Q (next x)

variable {Q : ε → Prop}

@[simp] theorem throws_done (a : α) : Throws Q (done a : Program ans ε α) := trivial

@[simp] theorem throws_fail {e : ε} : Throws Q (fail e : Program ans ε α) ↔ Q e := Iff.rfl

@[simp] theorem throws_ask {r : ρ} {next : ans r → Program ans ε α} :
    Throws Q (ask r next) ↔ ∀ x, Throws Q (next x) := Iff.rfl

theorem Throws.bind {p : Program ans ε α} {f : α → Program ans ε β} (h : Throws Q p)
    (hf : ∀ a, Throws Q (f a)) : Throws Q (p.bind f) := by
  induction p with
  | done a => exact hf a
  | fail e => exact h
  | ask r next ih => exact fun x => ih x (h x)

theorem Throws.forEach {f : β → Program ans ε Unit} (h : ∀ x, Throws Q (f x)) (xs : List β) :
    Throws Q (forEach f xs) := by
  induction xs with
  | nil => trivial
  | cons x xs ih => exact (h x).bind (fun _ => ih)

theorem Throws.leaves {exec : σ → (r : ρ) → σ × ans r} {s : σ} {p : Program ans ε α}
    (h : Throws Q p) : Leaves exec s p (fun _ o => ∀ e, o = .error e → Q e) := by
  induction p generalizing s with
  | done a =>
    intro e he
    cases he
  | fail e =>
    intro e' he
    rw [← Except.error.inj he]
    exact h
  | ask r next ih => exact ih _ (h _)

end WeirdVault.Framework.Program
