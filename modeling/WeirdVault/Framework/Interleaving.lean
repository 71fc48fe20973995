import WeirdVault.Framework.Program
import WeirdVault.Framework.Runs

/-!
# Interleaved programs

Any number of jobs run over one shared state. A step executes one request of one thread; a thread
that is never scheduled again has stopped where it was. The log is a ghost record of every answered
request. An `Outline` proves an invariant of every run from what the program of each job asks.
-/

namespace WeirdVault.Framework

variable {ρ : Type} {ans : ρ → Type} {ε α δ η σ κ : Type}

structure Thread {ρ : Type} (ans : ρ → Type) (ε α δ : Type) where
  job : δ
  code : Program ans ε α

structure Entry {ρ : Type} (ans : ρ → Type) (δ : Type) where
  thread : Nat
  job : δ
  request : ρ
  answer : ans request

structure World {ρ : Type} (ans : ρ → Type) (ε α δ σ : Type) where
  shared : σ
  threads : List (Thread ans ε α δ)
  log : List (Entry ans δ)

def World.init (s : σ) : World ans ε α δ σ := ⟨s,[],[]⟩

def World.Jobs (P : Nat → δ → Prop) (w : World ans ε α δ σ) : Prop :=
  ∀ i t, w.threads[i]? = some t → P i t.job

/-- How the thread has ended, if it has. -/
def World.result? (w : World ans ε α δ σ) (i : Nat) : Option (Except ε α) :=
  match w.threads[i]? with
  | some ⟨_,.done a⟩ => some (.ok a)
  | some ⟨_,.fail e⟩ => some (.error e)
  | _ => none

def World.finished (w : World ans ε α δ σ) : Bool :=
  w.threads.all (fun t => match t.code with
    | .ask .. => false
    | _ => true)

def World.asks? (w : World ans ε α δ σ) (i : Nat) : Option ρ :=
  match w.threads[i]? with
  | some ⟨_,.ask r _⟩ => some r
  | _ => none

theorem World.asks?_eq_some {w : World ans ε α δ σ} {i : Nat} {r : ρ} :
    w.asks? i = some r ↔ ∃ job next, w.threads[i]? = some ⟨job,.ask r next⟩ := by
  unfold World.asks?
  constructor
  · intro h
    split at h
    · rename_i job r' next ht
      obtain rfl := Option.some.inj h
      exact ⟨job,next,ht⟩
    · simp at h
  · rintro ⟨job,next,ht⟩
    simp only [ht]

theorem World.result?_of_finished {w : World ans ε α δ σ} (h : w.finished = true) {i : Nat}
    {t : Thread ans ε α δ} (hi : w.threads[i]? = some t) : ∃ o, w.result? i = some o := by
  have hended := List.all_eq_true.mp h t (List.mem_of_getElem? hi)
  obtain ⟨job,code⟩ := t
  cases code with
  | done a => exact ⟨.ok a,by simp [World.result?,hi]⟩
  | fail e => exact ⟨.error e,by simp [World.result?,hi]⟩
  | ask r next => cases hended

inductive Act (δ η : Type)
  | start (job : δ)
  | step (thread : Nat) (env : η)

/-- The program of each job, and what a request of a job does to the shared state when the
environment contributes `η`. -/
structure System {ρ : Type} (ans : ρ → Type) (ε α δ η σ : Type) where
  code : δ → Program ans ε α
  exec : δ → η → σ → (r : ρ) → σ × ans r

namespace System

variable (S : System ans ε α δ η σ)

/-- The thread's request has been executed and its program goes on with the answer. -/
def answered (w : World ans ε α δ σ) (i : Nat) (job : δ) (env : η) (r : ρ)
    (next : ans r → Program ans ε α) : World ans ε α δ σ where
  shared := (S.exec job env w.shared r).1
  threads := w.threads.set i ⟨job,next (S.exec job env w.shared r).2⟩
  log := ⟨i,job,r,(S.exec job env w.shared r).2⟩ :: w.log

def act (w : World ans ε α δ σ) : Act δ η → World ans ε α δ σ
  | .start job => { w with threads := w.threads ++ [⟨job,S.code job⟩] }
  | .step i env =>
    match w.threads[i]? with
    | some ⟨job,.ask r next⟩ => S.answered w i job env r next
    | _ => w

def after (w : World ans ε α δ σ) (as : List (Act δ η)) : World ans ε α δ σ := runActs S.act w as

theorem after_append (w : World ans ε α δ σ) (as bs : List (Act δ η)) :
    S.after w (as ++ bs) = S.after (S.after w as) bs :=
  runActs_append S.act w as bs

theorem act_start (w : World ans ε α δ σ) (job : δ) :
    S.act w (.start job) = { w with threads := w.threads ++ [⟨job,S.code job⟩] } := rfl

theorem act_step {w : World ans ε α δ σ} {i : Nat} {job : δ} {r : ρ}
    {next : ans r → Program ans ε α} (h : w.threads[i]? = some ⟨job,.ask r next⟩) (env : η) :
    S.act w (.step i env) = S.answered w i job env r next := by
  simp only [act,h]

theorem act_step_cases (w : World ans ε α δ σ) (i : Nat) (env : η) :
    S.act w (.step i env) = w ∨
      ∃ job r next, w.threads[i]? = some ⟨job,.ask r next⟩ ∧
        S.act w (.step i env) = S.answered w i job env r next := by
  rcases h : w.threads[i]? with _ | ⟨job,_ | _ | ⟨r,next⟩⟩
  · exact Or.inl (by simp only [act,h])
  · exact Or.inl (by simp only [act,h])
  · exact Or.inl (by simp only [act,h])
  · exact Or.inr ⟨job,r,next,rfl,S.act_step h env⟩

theorem jobs_act {P : Nat → δ → Prop} {w : World ans ε α δ σ} {a : Act δ η} (h : w.Jobs P)
    (hstart : ∀ job, a = .start job → P w.threads.length job) : (S.act w a).Jobs P := by
  intro i t ht
  cases a with
  | start job =>
    simp only [act_start,List.getElem?_append] at ht
    split at ht
    · exact h i t ht
    · rw [List.getElem?_singleton] at ht
      split at ht
      · have hi : i = w.threads.length := by omega
        obtain rfl := Option.some.inj ht
        rw [hi]
        exact hstart job rfl
      · simp at ht
  | step j env =>
    rcases S.act_step_cases w j env with he | ⟨job,r,next,hj,he⟩
    · rw [he] at ht
      exact h i t ht
    · rw [he] at ht
      by_cases hij : j = i
      · subst hij
        have hlt : j < w.threads.length := (List.getElem?_eq_some_iff.mp hj).1
        simp only [answered,List.getElem?_set_self hlt,Option.some.injEq] at ht
        subst ht
        exact h j ⟨job,.ask r next⟩ hj
      · simp only [answered,List.getElem?_set_ne hij] at ht
        exact h i t ht

end System

/-- A proof of an invariant of every run, thread by thread: `Knows` is what a live thread knows,
which its program must `Obeys` the discipline of its job from, and `Done` what a thread that has
ended leaves behind. Every request keeps the global part, takes the knowledge of its thread
along and leaves alone what the other threads know. -/
structure Outline (S : System ans ε α δ η σ) (ok : World ans ε α δ σ → Act δ η → Prop)
    (κ : Type) where
  discipline : δ → Discipline ans κ
  post : δ → κ → Except ε α → Prop
  Global : σ → List (Entry ans δ) → Prop
  Knows : σ → List (Entry ans δ) → Nat → δ → κ → Prop
  Done : σ → List (Entry ans δ) → Nat → δ → Except ε α → Prop
  start : ∀ w job, ok w (.start job) → Global w.shared w.log →
    ∃ k, Knows w.shared w.log w.threads.length job k ∧
      Program.Obeys (discipline job) (post job) k (S.code job)
  ask : ∀ w i job env r next k, ok w (.step i env) → w.threads[i]? = some ⟨job,.ask r next⟩ →
    Global w.shared w.log → Knows w.shared w.log i job k → (discipline job).may k r →
    Global (S.answered w i job env r next).shared (S.answered w i job env r next).log ∧
      ∃ k', (discipline job).learns k r (S.exec job env w.shared r).2 k' ∧
        Knows (S.answered w i job env r next).shared (S.answered w i job env r next).log i job k'
  frame : ∀ w i job env r next k, ok w (.step i env) → w.threads[i]? = some ⟨job,.ask r next⟩ →
    Global w.shared w.log → Knows w.shared w.log i job k → (discipline job).may k r →
    ∀ j job' r' next' k', j ≠ i → w.threads[j]? = some ⟨job',.ask r' next'⟩ →
      Knows w.shared w.log j job' k' →
      Knows (S.answered w i job env r next).shared (S.answered w i job env r next).log j job' k'
  finish : ∀ s log i job k o, Global s log → Knows s log i job k → post job k o →
    Done s log i job o
  settled : ∀ w i job env r next k, ok w (.step i env) → w.threads[i]? = some ⟨job,.ask r next⟩ →
    Global w.shared w.log → Knows w.shared w.log i job k → (discipline job).may k r →
    ∀ j job' o, j ≠ i → Done w.shared w.log j job' o →
      Done (S.answered w i job env r next).shared (S.answered w i job env r next).log j job' o

namespace Outline

variable {S : System ans ε α δ η σ} {ok : World ans ε α δ σ → Act δ η → Prop}

/-- What holds of a thread: it has ended well, or it is live and obeys its discipline. -/
def Holds (O : Outline S ok κ) (s : σ) (log : List (Entry ans δ)) (i : Nat)
    (t : Thread ans ε α δ) : Prop :=
  match t.code with
  | .done a => O.Done s log i t.job (.ok a)
  | .fail e => O.Done s log i t.job (.error e)
  | .ask r next => ∃ k, O.Knows s log i t.job k ∧
      Program.Obeys (O.discipline t.job) (O.post t.job) k (.ask r next)

structure Inv (O : Outline S ok κ) (w : World ans ε α δ σ) : Prop where
  shared : O.Global w.shared w.log
  threads : ∀ i t, w.threads[i]? = some t → O.Holds w.shared w.log i t

variable (O : Outline S ok κ)

theorem inv_init {s : σ} (h : O.Global s []) : O.Inv (World.init s) where
  shared := h
  threads := by simp [World.init]

private theorem holds_of_obeys {s : σ} {log : List (Entry ans δ)} {i : Nat} {job : δ} {k : κ}
    {p : Program ans ε α} (hg : O.Global s log) (hk : O.Knows s log i job k)
    (hp : Program.Obeys (O.discipline job) (O.post job) k p) : O.Holds s log i ⟨job,p⟩ := by
  cases p with
  | done a => exact O.finish s log i job k _ hg hk hp
  | fail e => exact O.finish s log i job k _ hg hk hp
  | ask r next => exact ⟨k,hk,hp⟩

private theorem inv_start {w : World ans ε α δ σ} {job : δ} (h : O.Inv w)
    (hok : ok w (.start job)) : O.Inv (S.act w (.start job)) := by
  refine ⟨h.shared,?_⟩
  intro i t ht
  simp only [System.act_start,List.getElem?_append] at ht
  split at ht
  · exact h.threads i t ht
  · obtain ⟨k,hk,hp⟩ := O.start w job hok h.shared
    rw [List.getElem?_singleton] at ht
    split at ht
    · have hi : i = w.threads.length := by omega
      obtain rfl := Option.some.inj ht
      subst hi
      exact O.holds_of_obeys h.shared hk hp
    · simp at ht

private theorem inv_answered {w : World ans ε α δ σ} {i : Nat} {job : δ} {env : η} {r : ρ}
    {next : ans r → Program ans ε α} (h : O.Inv w) (hok : ok w (.step i env))
    (hi : w.threads[i]? = some ⟨job,.ask r next⟩) : O.Inv (S.answered w i job env r next) := by
  obtain ⟨k,hk,hmay,hnext⟩ := h.threads i _ hi
  obtain ⟨hg,k',hlearn,hk'⟩ := O.ask w i job env r next k hok hi h.shared hk hmay
  refine ⟨hg,?_⟩
  intro j t ht
  by_cases hj : i = j
  · subst hj
    have hlt : i < w.threads.length := (List.getElem?_eq_some_iff.mp hi).1
    simp only [System.answered,List.getElem?_set_self hlt,Option.some.injEq] at ht
    subst ht
    exact O.holds_of_obeys hg hk' (hnext _ k' hlearn)
  · simp only [System.answered,List.getElem?_set_ne hj] at ht
    have ht' := h.threads j t ht
    obtain ⟨job',a | e | ⟨r',next'⟩⟩ := t
    · exact O.settled w i job env r next k hok hi h.shared hk hmay j job' _ (Ne.symm hj) ht'
    · exact O.settled w i job env r next k hok hi h.shared hk hmay j job' _ (Ne.symm hj) ht'
    · obtain ⟨l,hl,hp⟩ := ht'
      exact ⟨l,O.frame w i job env r next k hok hi h.shared hk hmay j job' r' next' l
        (Ne.symm hj) ht hl,hp⟩

theorem inv_act {w : World ans ε α δ σ} {a : Act δ η} (h : O.Inv w) (hok : ok w a) :
    O.Inv (S.act w a) := by
  cases a with
  | start job => exact O.inv_start h hok
  | step i env =>
    rcases S.act_step_cases w i env with he | ⟨job,r,next,hi,he⟩
    · rwa [he]
    · rw [he]
      exact O.inv_answered h hok hi

theorem inv_after {w : World ans ε α δ σ} {as : List (Act δ η)} (h : O.Inv w)
    (hok : Along S.act ok w as) : O.Inv (S.after w as) :=
  invariant_runActs O.Inv (fun _ _ h hok => O.inv_act h hok) h hok

theorem done_of_inv {w : World ans ε α δ σ} (h : O.Inv w) {i : Nat} {o : Except ε α}
    (hi : w.result? i = some o) : ∃ t, w.threads[i]? = some t ∧ O.Done w.shared w.log i t.job o := by
  unfold World.result? at hi
  split at hi
  · rename_i job a ht
    obtain rfl := Option.some.inj hi
    exact ⟨_,ht,h.threads i _ ht⟩
  · rename_i job e ht
    obtain rfl := Option.some.inj hi
    exact ⟨_,ht,h.threads i _ ht⟩
  · simp at hi

theorem may_of_inv {w : World ans ε α δ σ} (h : O.Inv w) {i : Nat} {job : δ} {r : ρ}
    {next : ans r → Program ans ε α} (hi : w.threads[i]? = some ⟨job,.ask r next⟩) :
    ∃ k, O.Knows w.shared w.log i job k ∧ (O.discipline job).may k r := by
  obtain ⟨k,hk,hmay,-⟩ := h.threads i _ hi
  exact ⟨k,hk,hmay⟩

end Outline

end WeirdVault.Framework
