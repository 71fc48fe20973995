import Mathlib.Data.List.Basic

/-!
# Programs that ask the world

A program asks one request at a time and continues with the answer, so that whatever else the
world does can happen between two of its requests. `Program.run` executes one program alone;
`Obeys` is the logic of its requests: what a program that knows `k` may ask, and what an answer
adds to what it knows.
-/

namespace WeirdVault.Framework

/-- A program that ends in a value, throws, or asks a request and goes on with the answer. -/
inductive Program {ρ : Type} (ans : ρ → Type) (ε α : Type) : Type
  | done (a : α)
  | fail (e : ε)
  | ask (r : ρ) (next : ans r → Program ans ε α)

namespace Program

variable {ρ : Type} {ans : ρ → Type} {ε α β γ : Type}

def bind : Program ans ε α → (α → Program ans ε β) → Program ans ε β
  | done a, f => f a
  | fail e, _ => fail e
  | ask r next, f => ask r (fun x => (next x).bind f)

/-- `try … catch`: the handler takes over from the first throw. -/
def handle : Program ans ε α → (ε → Program ans ε α) → Program ans ε α
  | done a, _ => done a
  | fail e, f => f e
  | ask r next, f => ask r (fun x => (next x).handle f)

instance : Monad (Program ans ε) where
  pure := done
  bind := bind

instance : MonadExcept ε (Program ans ε) where
  throw := fail
  tryCatch := handle

def request (r : ρ) : Program ans ε (ans r) := ask r done

def forEach (f : β → Program ans ε Unit) : List β → Program ans ε Unit
  | [] => done ()
  | x :: xs => (f x).bind (fun _ => forEach f xs)

@[simp] theorem forEach_nil (f : β → Program ans ε Unit) : forEach f [] = done () := rfl

@[simp] theorem forEach_cons (f : β → Program ans ε Unit) (x : β) (xs : List β) :
    forEach f (x :: xs) = (f x).bind (fun _ => forEach f xs) := rfl

@[simp] theorem pure_eq (a : α) : (pure a : Program ans ε α) = done a := rfl

@[simp] theorem throw_eq (e : ε) : (throw e : Program ans ε α) = fail e := rfl

@[simp] theorem bind_eq (p : Program ans ε α) (f : α → Program ans ε β) : p >>= f = p.bind f := rfl

@[simp] theorem done_bind (a : α) (f : α → Program ans ε β) : (done a).bind f = f a := rfl

@[simp] theorem fail_bind (e : ε) (f : α → Program ans ε β) : (fail e).bind f = fail e := rfl

@[simp] theorem ask_bind (r : ρ) (next : ans r → Program ans ε α) (f : α → Program ans ε β) :
    (ask r next).bind f = ask r (fun x => (next x).bind f) := rfl

@[simp] theorem request_bind (r : ρ) (f : ans r → Program ans ε β) :
    (request r).bind f = ask r f := rfl

theorem bind_assoc (p : Program ans ε α) (f : α → Program ans ε β) (g : β → Program ans ε γ) :
    (p.bind f).bind g = p.bind (fun a => (f a).bind g) := by
  induction p with
  | done a => rfl
  | fail e => rfl
  | ask r next ih =>
    simp only [ask_bind,ask.injEq,heq_eq_eq,true_and]
    funext x
    exact ih x

theorem forEach_append (f : β → Program ans ε Unit) (xs ys : List β) :
    forEach f (xs ++ ys) = (forEach f xs).bind (fun _ => forEach f ys) := by
  induction xs with
  | nil => rfl
  | cons x xs ih => simp only [List.cons_append,forEach_cons,ih,bind_assoc]

theorem forEach_map (f : β → Program ans ε Unit) (g : γ → β) (xs : List γ) :
    forEach f (xs.map g) = forEach (fun x => f (g x)) xs := by
  induction xs with
  | nil => rfl
  | cons x xs ih => simp only [List.map_cons,forEach_cons,ih]

variable {σ : Type}

def run (exec : σ → (r : ρ) → σ × ans r) : σ → Program ans ε α → σ × Except ε α
  | s, done a => (s,.ok a)
  | s, fail e => (s,.error e)
  | s, ask r next => run exec (exec s r).1 (next (exec s r).2)

variable (exec : σ → (r : ρ) → σ × ans r)

@[simp] theorem run_done (s : σ) (a : α) :
    run exec s (done a : Program ans ε α) = (s,.ok a) := rfl

@[simp] theorem run_fail (s : σ) (e : ε) :
    run exec s (fail e : Program ans ε α) = (s,.error e) := rfl

@[simp] theorem run_ask (s : σ) (r : ρ) (next : ans r → Program ans ε α) :
    run exec s (ask r next) = run exec (exec s r).1 (next (exec s r).2) := rfl

theorem run_bind (s : σ) (p : Program ans ε α) (f : α → Program ans ε β) :
    run exec s (p.bind f) =
      match run exec s p with
      | (t,.ok a) => run exec t (f a)
      | (t,.error e) => (t,.error e) := by
  induction p generalizing s with
  | done a => rfl
  | fail e => rfl
  | ask r next ih => exact ih _ _

theorem run_bind_ok {s t : σ} {p : Program ans ε α} {a : α} (h : run exec s p = (t,.ok a))
    (f : α → Program ans ε β) : run exec s (p.bind f) = run exec t (f a) := by
  rw [run_bind,h]

theorem run_handle (s : σ) (p : Program ans ε α) (f : ε → Program ans ε α) :
    run exec s (p.handle f) =
      match run exec s p with
      | (t,.ok a) => (t,.ok a)
      | (t,.error e) => run exec t (f e) := by
  induction p generalizing s with
  | done a => rfl
  | fail e => rfl
  | ask r next ih => exact ih _ _

/-- Run alone from the state, the program ends as `post` says unless it throws. -/
def Gives (s : σ) (p : Program ans ε α) (post : σ → α → Prop) : Prop :=
  ∀ t a, run exec s p = (t,.ok a) → post t a

variable {exec} {s : σ}

theorem gives_done {a : α} {post : σ → α → Prop} (h : post s a) :
    Gives exec s (done a : Program ans ε α) post := by
  intro t b hrun
  obtain ⟨rfl,hb⟩ := Prod.mk.inj hrun
  exact Except.ok.inj hb ▸ h

theorem gives_fail {e : ε} {post : σ → α → Prop} :
    Gives exec s (fail e : Program ans ε α) post := by
  intro t a hrun
  cases (Prod.mk.inj hrun).2

theorem gives_ask {r : ρ} {next : ans r → Program ans ε α} {post : σ → α → Prop}
    (h : Gives exec (exec s r).1 (next (exec s r).2) post) : Gives exec s (ask r next) post := h

theorem Gives.bind {p : Program ans ε α} {f : α → Program ans ε β} {mid : σ → α → Prop}
    {post : σ → β → Prop} (h : Gives exec s p mid) (hf : ∀ t a, mid t a → Gives exec t (f a) post) :
    Gives exec s (p.bind f) post := by
  intro u b hrun
  rw [run_bind] at hrun
  rcases hp : run exec s p with ⟨t,e | a⟩
  · rw [hp] at hrun
    cases (Prod.mk.inj hrun).2
  · rw [hp] at hrun
    exact hf t a (h t a hp) u b hrun

theorem Gives.mono {p : Program ans ε α} {mid post : σ → α → Prop} (h : Gives exec s p mid)
    (himp : ∀ t a, mid t a → post t a) : Gives exec s p post :=
  fun t a hrun => himp t a (h t a hrun)

variable (exec) (s)

/-- Run alone from the state, the program ends as `post` says, whether or not it throws. -/
def Leaves (p : Program ans ε α) (post : σ → Except ε α → Prop) : Prop :=
  post (run exec s p).1 (run exec s p).2

variable {exec} {s}

@[simp] theorem leaves_done {a : α} {post : σ → Except ε α → Prop} :
    Leaves exec s (done a : Program ans ε α) post ↔ post s (.ok a) := Iff.rfl

@[simp] theorem leaves_fail {e : ε} {post : σ → Except ε α → Prop} :
    Leaves exec s (fail e : Program ans ε α) post ↔ post s (.error e) := Iff.rfl

@[simp] theorem leaves_ask {r : ρ} {next : ans r → Program ans ε α} {post : σ → Except ε α → Prop} :
    Leaves exec s (ask r next) post ↔ Leaves exec (exec s r).1 (next (exec s r).2) post := Iff.rfl

theorem Leaves.bind {p : Program ans ε α} {f : α → Program ans ε β} {mid : σ → Except ε α → Prop}
    {post : σ → Except ε β → Prop} (h : Leaves exec s p mid)
    (hok : ∀ t a, mid t (.ok a) → Leaves exec t (f a) post)
    (herr : ∀ t e, mid t (.error e) → post t (.error e)) : Leaves exec s (p.bind f) post := by
  rw [Leaves] at h ⊢
  rw [run_bind]
  rcases hp : run exec s p with ⟨t,e | a⟩
  · rw [hp] at h
    exact herr t e h
  · rw [hp] at h
    exact hok t a h

theorem Leaves.mono {p : Program ans ε α} {mid post : σ → Except ε α → Prop}
    (h : Leaves exec s p mid) (himp : ∀ t o, mid t o → post t o) : Leaves exec s p post :=
  himp _ _ h

end Program

/-- What a thread that knows `k` may ask, and which answers take its knowledge where. -/
structure Discipline {ρ : Type} (ans : ρ → Type) (κ : Type) where
  may : κ → ρ → Prop
  learns : κ → (r : ρ) → ans r → κ → Prop

namespace Program

variable {ρ : Type} {ans : ρ → Type} {ε α β κ : Type}

/-- From knowledge `k` on, every request is one the discipline allows, and the program ends in
`post`, whatever the answers are. -/
def Obeys (D : Discipline ans κ) (post : κ → Except ε α → Prop) : κ → Program ans ε α → Prop
  | k, done a => post k (.ok a)
  | k, fail e => post k (.error e)
  | k, ask r next => D.may k r ∧ ∀ x k', D.learns k r x k' → Obeys D post k' (next x)

variable {D : Discipline ans κ} {post : κ → Except ε α → Prop}

@[simp] theorem obeys_done (k : κ) (a : α) :
    Obeys D post k (done a : Program ans ε α) ↔ post k (.ok a) := Iff.rfl

@[simp] theorem obeys_fail (k : κ) (e : ε) :
    Obeys D post k (fail e : Program ans ε α) ↔ post k (.error e) := Iff.rfl

@[simp] theorem obeys_ask (k : κ) (r : ρ) (next : ans r → Program ans ε α) :
    Obeys D post k (ask r next) ↔
      D.may k r ∧ ∀ x k', D.learns k r x k' → Obeys D post k' (next x) := Iff.rfl

/-- The end of the first part of a sequence: it threw into `post`, or the rest obeys. -/
def Continues (D : Discipline ans κ) (post : κ → Except ε β → Prop) (f : α → Program ans ε β)
    (k : κ) : Except ε α → Prop
  | .ok a => Obeys D post k (f a)
  | .error e => post k (.error e)

theorem obeys_bind {post : κ → Except ε β → Prop} (k : κ) (p : Program ans ε α)
    (f : α → Program ans ε β) :
    Obeys D post k (p.bind f) ↔ Obeys D (Continues D post f) k p := by
  induction p generalizing k with
  | done a => rfl
  | fail e => rfl
  | ask r next ih =>
    simp only [ask_bind,obeys_ask]
    constructor
    · intro h
      exact ⟨h.1,fun x k' hk => (ih x k').mp (h.2 x k' hk)⟩
    · intro h
      exact ⟨h.1,fun x k' hk => (ih x k').mpr (h.2 x k' hk)⟩

theorem Obeys.mono {post post' : κ → Except ε α → Prop} {k : κ} {p : Program ans ε α}
    (h : Obeys D post k p) (himp : ∀ k o, post k o → post' k o) : Obeys D post' k p := by
  induction p generalizing k with
  | done a => exact himp _ _ h
  | fail e => exact himp _ _ h
  | ask r next ih => exact ⟨h.1,fun x k' hk => ih x (h.2 x k' hk)⟩

/-- Sequencing: the first part may end in any middle condition that the second starts from. -/
theorem Obeys.bind {mid : κ → Except ε α → Prop} {post : κ → Except ε β → Prop} {k : κ}
    {p : Program ans ε α} {f : α → Program ans ε β} (h : Obeys D mid k p)
    (hok : ∀ k' a, mid k' (.ok a) → Obeys D post k' (f a))
    (herr : ∀ k' e, mid k' (.error e) → post k' (.error e)) : Obeys D post k (p.bind f) := by
  rw [obeys_bind]
  refine h.mono fun k' o ho => ?_
  cases o with
  | ok a => exact hok k' a ho
  | error e => exact herr k' e ho

end Program

end WeirdVault.Framework
