import WeirdVault.Framework.Recorded

/-!
# Calls that throw

Where every answer is a value or an error, a call throws the error. A call and a call with a
`catch` around it, in terms of what the transcript allows.
-/

namespace WeirdVault.Framework

namespace Program

variable {ρ : Type} {val : ρ → Type} {ε α β : Type}

def call (r : ρ) : Program (fun r => Except ε (val r)) ε (val r) :=
  (request r).bind fun
    | .ok x => done x
    | .error e => fail e

variable {may : Transcript (fun r => Except ε (val r)) → ρ → Prop}
  {post : Transcript (fun r => Except ε (val r)) → Except ε α → Prop}
  {k : Transcript (fun r => Except ε (val r))}

theorem asks_call {r : ρ}
    {post : Transcript (fun r => Except ε (val r)) → Except ε (val r) → Prop} (hr : may k r)
    (hok : ∀ x, post (⟨r,.ok x⟩ :: k) (.ok x))
    (herr : ∀ e, post (⟨r,.error e⟩ :: k) (.error e)) : Asks may post k (call r) := by
  simp only [call,request_bind,asks_ask]
  refine ⟨hr,?_⟩
  intro x
  cases x with
  | ok x => exact hok x
  | error e => exact herr e

theorem asks_call_bind {r : ρ} {f : val r → Program (fun r => Except ε (val r)) ε α} (hr : may k r)
    (hok : ∀ x, Asks may post (⟨r,.ok x⟩ :: k) (f x))
    (herr : ∀ e, post (⟨r,.error e⟩ :: k) (.error e)) : Asks may post k ((call r).bind f) := by
  simp only [call,request_bind,ask_bind,asks_ask]
  refine ⟨hr,?_⟩
  intro x
  cases x with
  | ok x => exact hok x
  | error e => exact herr e

theorem asks_call_handle {r : ρ}
    {post : Transcript (fun r => Except ε (val r)) → Except ε (val r) → Prop}
    {f : ε → Program (fun r => Except ε (val r)) ε (val r)} (hr : may k r)
    (hok : ∀ x, post (⟨r,.ok x⟩ :: k) (.ok x))
    (herr : ∀ e, Asks may post (⟨r,.error e⟩ :: k) (f e)) :
    Asks may post k ((call r).handle f) := by
  simp only [call,request_bind,handle,asks_ask]
  refine ⟨hr,?_⟩
  intro x
  cases x with
  | ok x => exact hok x
  | error e => exact herr e

end Program

theorem System.log_jobs {ρ : Type} {ans : ρ → Type} {ε α δ η σ : Type} (S : System ans ε α δ η σ)
    (s : σ) (as : List (Act δ η)) {e : Entry ans δ} (he : e ∈ (S.after (World.init s) as).log) :
    ∃ t, (S.after (World.init s) as).threads[e.thread]? = some t ∧ t.job = e.job := by
  refine invariant_runActs (fun w => ∀ e ∈ w.log, ∃ t, w.threads[e.thread]? = some t ∧
    t.job = e.job) ?_ ?_ (along_true S.act (World.init s) as) e he
  · intro w a h _ e he
    cases a with
    | start job =>
      obtain ⟨t,ht,hjob⟩ := h e he
      have hlt := (List.getElem?_eq_some_iff.mp ht).1
      exact ⟨t,by rw [S.act_start,List.getElem?_append_left hlt,ht],hjob⟩
    | step i env =>
      rcases S.act_step_cases w i env with hact | ⟨job,r,next,hi,hact⟩
      · rw [hact] at he ⊢
        exact h e he
      · rw [hact] at he ⊢
        have hlt := (List.getElem?_eq_some_iff.mp hi).1
        have hjob : e.thread = i ∧ e.job = job ∨ e ∈ w.log := by
          rcases List.mem_cons.mp he with rfl | he
          · exact .inl ⟨rfl,rfl⟩
          · exact .inr he
        by_cases hthread : i = e.thread
        · refine ⟨_,by rw [← hthread]; exact List.getElem?_set_self hlt,?_⟩
          rcases hjob with ⟨_,hjob⟩ | he
          · exact hjob.symm
          · obtain ⟨t,ht,htjob⟩ := h e he
            rw [← hthread,hi] at ht
            cases ht
            exact htjob
        · rcases hjob with ⟨hthread',_⟩ | he
          · exact absurd hthread'.symm hthread
          · obtain ⟨t,ht,htjob⟩ := h e he
            refine ⟨t,?_,htjob⟩
            exact (List.getElem?_set_ne hthread).trans ht
  · intro e he
    cases he

theorem System.log_stays {ρ : Type} {ans : ρ → Type} {ε α δ η σ : Type} (S : System ans ε α δ η σ)
    (w : World ans ε α δ σ) (as : List (Act δ η)) {e : Entry ans δ} (he : e ∈ w.log) :
    e ∈ (S.after w as).log := by
  refine invariant_runActs (fun w => e ∈ w.log) ?_ he (along_true S.act w as)
  intro w a h _
  cases a with
  | start job => exact h
  | step i env =>
    rcases S.act_step_cases w i env with hact | ⟨job,r,next,_,hact⟩
    · rwa [hact]
    · rw [hact]
      exact List.mem_cons_of_mem _ h

end WeirdVault.Framework
