import WeirdVault.Framework.Interleaving

/-!
# What programs ask, in terms of what they were answered

A thread knows the answers it has had and nothing else. `Asks` describes a program by the requests
that its transcript allows; a `Behaviour` does so for every job of a system. An invariant of the
shared state and the log then needs one argument per request, and none about programs.
-/

namespace WeirdVault.Framework

variable {ρ : Type} {ans : ρ → Type} {ε α β δ η σ : Type}

abbrev Transcript {ρ : Type} (ans : ρ → Type) := List ((r : ρ) × ans r)

def Grown (P : ρ → Prop) (k k' : Transcript ans) : Prop :=
  ∃ newer, k' = newer ++ k ∧ ∀ a ∈ newer, P a.1

theorem Grown.refl {P : ρ → Prop} (k : Transcript ans) : Grown P k k := ⟨[],by simp⟩

theorem Grown.trans {P : ρ → Prop} {k k' k'' : Transcript ans} (h : Grown P k k')
    (h' : Grown P k' k'') : Grown P k k'' := by
  obtain ⟨l,rfl,hl⟩ := h
  obtain ⟨l',rfl,hl'⟩ := h'
  refine ⟨l' ++ l,by simp,?_⟩
  intro a ha
  rcases List.mem_append.mp ha with ha | ha
  · exact hl' a ha
  · exact hl a ha

theorem Grown.cons {P : ρ → Prop} {k k' : Transcript ans} (h : Grown P k k') {r : ρ} (hr : P r)
    (x : ans r) : Grown P k (⟨r,x⟩ :: k') := by
  apply h.trans
  exact ⟨[⟨r,x⟩],rfl,by simpa using hr⟩

theorem Grown.any {P : ρ → Prop} {k k' : Transcript ans} (h : Grown P k k') :
    Grown (fun _ => True) k k' := by
  obtain ⟨l,hk,-⟩ := h
  exact ⟨l,hk,fun _ _ => trivial⟩

theorem Grown.mem {P : ρ → Prop} {k k' : Transcript ans} (h : Grown P k k') {a : (r : ρ) × ans r}
    (ha : a ∈ k) : a ∈ k' := by
  obtain ⟨l,rfl,-⟩ := h
  exact List.mem_append_right l ha

def Transcript.Has (k : Transcript ans) (r : ρ) (x : ans r) : Prop := (⟨r,x⟩ : (r : ρ) × ans r) ∈ k

theorem Transcript.has_self (k : Transcript ans) (r : ρ) (x : ans r) :
    Transcript.Has (⟨r,x⟩ :: k) r x := List.mem_cons_self

theorem Transcript.Has.cons {k : Transcript ans} {r : ρ} {x : ans r} (h : k.Has r x)
    (a : (r : ρ) × ans r) : Transcript.Has (a :: k) r x := List.mem_cons_of_mem a h

theorem Transcript.Has.grown {P : ρ → Prop} {k k' : Transcript ans} {r : ρ} {x : ans r}
    (h : k.Has r x) (hk : Grown P k k') : k'.Has r x := hk.mem h

/-- The last answer to a request. -/
def Latest (k : Transcript ans) (r : ρ) (x : ans r) : Prop :=
  ∃ newer older, k = newer ++ ⟨r,x⟩ :: older ∧ ∀ a ∈ newer, a.1 ≠ r

@[simp] theorem latest_cons_self (k : Transcript ans) (r : ρ) (x : ans r) : Latest (⟨r,x⟩ :: k) r x :=
  ⟨[],k,rfl,by simp⟩

theorem Latest.grown {P : ρ → Prop} {k k' : Transcript ans} {r : ρ} {x : ans r}
    (h : Latest k r x) (hk : Grown P k k') (hr : ¬ P r) : Latest k' r x := by
  obtain ⟨newer,older,rfl,hne⟩ := h
  obtain ⟨l,rfl,hl⟩ := hk
  refine ⟨l ++ newer,older,by simp,?_⟩
  intro a ha he
  rcases List.mem_append.mp ha with ha | ha
  · exact hr (he ▸ hl a ha)
  · exact hne a ha he

theorem Latest.cons {k : Transcript ans} {r r' : ρ} {x : ans r} (h : Latest k r x) (hr : r' ≠ r)
    (x' : ans r') : Latest (⟨r',x'⟩ :: k) r x :=
  h.grown (P := (· = r')) ((Grown.refl k).cons (P := (· = r')) rfl x') (Ne.symm hr)

@[simp] theorem latest_cons_of_ne {k : Transcript ans} {r r' : ρ} {x : ans r} (hr : r' ≠ r)
    (x' : ans r') : Latest (⟨r',x'⟩ :: k) r x ↔ Latest k r x := by
  refine ⟨?_,fun h => h.cons hr x'⟩
  rintro ⟨newer,older,he,hne⟩
  rcases newer with _ | ⟨a,newer⟩
  · have hrow := (List.cons.inj he).1
    exact absurd (congrArg Sigma.fst hrow) hr
  · exact ⟨newer,older,(List.cons.inj he).2,fun b hb => hne b (List.mem_cons_of_mem a hb)⟩

theorem latest_cons_self_iff {k : Transcript ans} {r : ρ} {x y : ans r} :
    Latest (⟨r,y⟩ :: k) r x ↔ x = y := by
  constructor
  · rintro ⟨newer,older,he,hne⟩
    rcases newer with _ | ⟨a,newer⟩
    · have hrow := (List.cons.inj he).1
      exact (eq_of_heq (Sigma.mk.inj hrow).2).symm
    · have hrow := (List.cons.inj he).1
      exact absurd (congrArg Sigma.fst hrow).symm (hne a List.mem_cons_self)
  · rintro rfl
    exact latest_cons_self k r x

theorem Latest.mem {k : Transcript ans} {r : ρ} {x : ans r} (h : Latest k r x) :
    (⟨r,x⟩ : (r : ρ) × ans r) ∈ k := by
  obtain ⟨newer,older,rfl,-⟩ := h
  simp

def recorded (may : Transcript ans → ρ → Prop) : Discipline ans (Transcript ans) where
  may := may
  learns k r x k' := k' = ⟨r,x⟩ :: k

namespace Program

/-- From the transcript on, every request is one that the transcript then allows, and the program
ends in `post`. -/
def Asks (may : Transcript ans → ρ → Prop) (post : Transcript ans → Except ε α → Prop)
    (k : Transcript ans) (p : Program ans ε α) : Prop := Obeys (recorded may) post k p

variable {may : Transcript ans → ρ → Prop} {post : Transcript ans → Except ε α → Prop}
  {k : Transcript ans}

@[simp] theorem asks_done (a : α) :
    Asks may post k (done a : Program ans ε α) ↔ post k (.ok a) := Iff.rfl

@[simp] theorem asks_fail (e : ε) :
    Asks may post k (fail e : Program ans ε α) ↔ post k (.error e) := Iff.rfl

@[simp] theorem asks_ask (r : ρ) (next : ans r → Program ans ε α) :
    Asks may post k (ask r next) ↔ may k r ∧ ∀ x, Asks may post (⟨r,x⟩ :: k) (next x) := by
  constructor
  · intro h
    exact ⟨h.1,fun x => h.2 x _ rfl⟩
  · intro h
    refine ⟨h.1,?_⟩
    intro x k' hk'
    rw [hk']
    exact h.2 x

theorem asks_request (r : ρ) {post : Transcript ans → Except ε (ans r) → Prop} :
    Asks may post k (request r) ↔ may k r ∧ ∀ x, post (⟨r,x⟩ :: k) (.ok x) :=
  asks_ask r done

theorem Asks.mono {post' : Transcript ans → Except ε α → Prop} {p : Program ans ε α}
    (h : Asks may post k p) (himp : ∀ k o, post k o → post' k o) : Asks may post' k p :=
  Obeys.mono h himp

theorem Asks.bind {mid : Transcript ans → Except ε α → Prop}
    {post : Transcript ans → Except ε β → Prop} {p : Program ans ε α} {f : α → Program ans ε β}
    (h : Asks may mid k p) (hok : ∀ k' a, mid k' (.ok a) → Asks may post k' (f a))
    (herr : ∀ k' e, mid k' (.error e) → post k' (.error e)) : Asks may post k (p.bind f) :=
  Obeys.bind h hok herr

theorem Asks.bind_ok {mid : Transcript ans → α → Prop} {post : Transcript ans → Except ε β → Prop}
    {p : Program ans ε α} {f : α → Program ans ε β}
    (h : Asks may (fun l o => ∃ a, o = .ok a ∧ mid l a) k p)
    (hok : ∀ l a, mid l a → Asks may post l (f a)) : Asks may post k (p.bind f) := by
  apply h.bind
  · rintro l a ⟨a',he,ha⟩
    obtain rfl := Except.ok.inj he
    exact hok l a ha
  · rintro l e ⟨a,he,-⟩
    cases he

theorem Asks.bind_any {mid : Transcript ans → α → Prop} {post : Transcript ans → Except ε β → Prop}
    {p : Program ans ε α} {f : α → Program ans ε β}
    (h : Asks may (fun l o => ∀ a, o = .ok a → mid l a) k p)
    (hok : ∀ l a, mid l a → Asks may post l (f a)) (herr : ∀ l e, post l (.error e)) :
    Asks may post k (p.bind f) :=
  h.bind (fun l a ha => hok l a (ha a rfl)) (fun l e _ => herr l e)

theorem Asks.handle (mid : Transcript ans → Except ε α → Prop) {p : Program ans ε α}
    {f : ε → Program ans ε α} (h : Asks may mid k p)
    (hok : ∀ k' a, mid k' (.ok a) → post k' (.ok a))
    (herr : ∀ k' e, mid k' (.error e) → Asks may post k' (f e)) :
    Asks may post k (p.handle f) := by
  induction p generalizing k with
  | done a => exact hok k a h
  | fail e => exact herr k e h
  | ask r next ih =>
    have hask := (asks_ask r next).mp h
    exact (asks_ask r _).mpr ⟨hask.1,fun x => ih x (hask.2 x)⟩

/-- A loop each of whose rounds grows the transcript by requests in `P` only and establishes
something of its item that such growth does not undo. -/
theorem asks_forEach {P : ρ → Prop} {Q : β → Transcript ans → Prop}
    (hQ : ∀ x k k', Grown P k k' → Q x k → Q x k') {k₀ : Transcript ans}
    (f : β → Program ans ε Unit) (xs : List β)
    (hstep : ∀ x ∈ xs, ∀ k', Grown P k₀ k' →
      Asks may (fun l o => o = .ok () ∧ Grown P k' l ∧ Q x l) k' (f x)) (hk : Grown P k₀ k) :
    Asks may (fun l o => o = .ok () ∧ Grown P k l ∧ ∀ x ∈ xs, Q x l) k (forEach f xs) := by
  induction xs generalizing k with
  | nil => exact ⟨rfl,Grown.refl k,by simp⟩
  | cons x xs ih =>
    apply (hstep x List.mem_cons_self k hk).bind
    · rintro k' _ ⟨-,hk',hx⟩
      apply (ih (fun y hy => hstep y (List.mem_cons_of_mem x hy)) (hk.trans hk')).mono
      rintro l o ⟨ho,hl,hxs⟩
      refine ⟨ho,hk'.trans hl,?_⟩
      intro y hy
      rcases List.mem_cons.mp hy with rfl | hy
      · exact hQ y k' l hl hx
      · exact hxs y hy
    · rintro k' e ⟨he,-⟩
      cases he

end Program

def transcript (log : List (Entry ans δ)) (i : Nat) : Transcript ans :=
  (log.filter (fun e => e.thread = i)).map (fun e => ⟨e.request,e.answer⟩)

@[simp] theorem transcript_cons_self (log : List (Entry ans δ)) (i : Nat) (job : δ) (r : ρ)
    (x : ans r) : transcript (⟨i,job,r,x⟩ :: log) i = ⟨r,x⟩ :: transcript log i := by
  simp [transcript]

theorem transcript_cons_of_ne (log : List (Entry ans δ)) {e : Entry ans δ} {i : Nat}
    (h : e.thread ≠ i) : transcript (e :: log) i = transcript log i := by
  simp [transcript,h]

theorem mem_transcript {log : List (Entry ans δ)} {i : Nat} {a : (r : ρ) × ans r} :
    a ∈ transcript log i ↔ ∃ job, (⟨i,job,a.1,a.2⟩ : Entry ans δ) ∈ log := by
  simp only [transcript,List.mem_map,List.mem_filter,decide_eq_true_eq]
  constructor
  · rintro ⟨⟨j,job,r,x⟩,⟨hmem,hj⟩,rfl⟩
    exact ⟨job,by rw [← hj]; exact hmem⟩
  · rintro ⟨job,hmem⟩
    exact ⟨_,⟨hmem,rfl⟩,rfl⟩

/-- Every request of the transcript was one that the answers before it allowed. -/
def Allowed (may : Transcript ans → ρ → Prop) : Transcript ans → Prop
  | [] => True
  | a :: k => may k a.1 ∧ Allowed may k

theorem Allowed.of_mem {may : Transcript ans → ρ → Prop} {k : Transcript ans} (h : Allowed may k)
    {a : (r : ρ) × ans r} (ha : a ∈ k) : ∃ newer older, k = newer ++ a :: older ∧ may older a.1 := by
  induction k with
  | nil => cases ha
  | cons b k ih =>
    rcases List.mem_cons.mp ha with rfl | ha
    · exact ⟨[],k,rfl,h.1⟩
    · obtain ⟨newer,older,rfl,hmay⟩ := ih h.2 ha
      exact ⟨b :: newer,older,rfl,hmay⟩

theorem Allowed.older {may : Transcript ans → ρ → Prop} {newer k : Transcript ans}
    (h : Allowed may (newer ++ k)) : Allowed may k := by
  induction newer with
  | nil => exact h
  | cons a newer ih => exact ih h.2

theorem Allowed.once {may : Transcript ans → ρ → Prop} {k : Transcript ans} (h : Allowed may k)
    {P : ρ → Prop} (hP : ∀ k r, may k r → P r → ∀ b ∈ k, ¬ P b.1) {a b : (r : ρ) × ans r}
    (ha : a ∈ k) (hb : b ∈ k) (hPa : P a.1) (hPb : P b.1) : a = b := by
  induction k with
  | nil => cases ha
  | cons c k ih =>
    rcases List.mem_cons.mp ha with hac | ha <;> rcases List.mem_cons.mp hb with hbc | hb
    · rw [hac,hbc]
    · exact absurd hPb (hP k c.1 h.1 (hac ▸ hPa) b hb)
    · exact absurd hPa (hP k c.1 h.1 (hbc ▸ hPb) a ha)
    · exact ih h.2 ha hb

/-- What the programs of the jobs ask and how they end. -/
structure Behaviour (S : System ans ε α δ η σ) where
  may : δ → Transcript ans → ρ → Prop
  post : δ → Transcript ans → Except ε α → Prop
  code : ∀ job, Program.Asks (may job) (post job) [] (S.code job)

namespace Behaviour

variable {S : System ans ε α δ η σ} (B : Behaviour S)

structure Follows (w : World ans ε α δ σ) : Prop where
  below : ∀ e ∈ w.log, e.thread < w.threads.length
  threads : ∀ i t, w.threads[i]? = some t →
    Program.Asks (B.may t.job) (B.post t.job) (transcript w.log i) t.code

theorem follows_init (s : σ) : B.Follows (World.init s) where
  below := by simp [World.init]
  threads := by simp [World.init]

private theorem transcript_of_below {log : List (Entry ans δ)} {n : Nat}
    (h : ∀ e ∈ log, e.thread < n) : transcript log n = [] := by
  have hnone : log.filter (fun e => e.thread = n) = [] := by
    rw [List.filter_eq_nil_iff]
    intro e he
    have hlt := h e he
    simp only [decide_eq_true_eq]
    omega
  simp [transcript,hnone]

private theorem follows_start {w : World ans ε α δ σ} (h : B.Follows w) (job : δ) :
    B.Follows (S.act w (.start job)) := by
  constructor
  · intro e he
    have hlt := h.below e he
    simp only [System.act_start,List.length_append,List.length_singleton]
    omega
  · intro i t ht
    simp only [System.act_start,List.getElem?_append] at ht ⊢
    split at ht
    · exact h.threads i t ht
    · rw [List.getElem?_singleton] at ht
      split at ht
      · have hi : i = w.threads.length := by omega
        obtain rfl := Option.some.inj ht
        rw [hi,transcript_of_below h.below]
        exact B.code job
      · simp at ht

private theorem follows_answered {w : World ans ε α δ σ} (h : B.Follows w) {i : Nat} {job : δ}
    {r : ρ} {next : ans r → Program ans ε α} (hi : w.threads[i]? = some ⟨job,.ask r next⟩)
    (env : η) : B.Follows (S.answered w i job env r next) := by
  have hlt : i < w.threads.length := (List.getElem?_eq_some_iff.mp hi).1
  constructor
  · intro e he
    simp only [System.answered,List.length_set]
    rcases List.mem_cons.mp he with rfl | he
    · exact hlt
    · exact h.below e he
  · intro j t ht
    by_cases hj : i = j
    · subst hj
      simp only [System.answered,List.getElem?_set_self hlt,Option.some.injEq] at ht
      subst ht
      have hasks := h.threads i _ hi
      simp only [System.answered,transcript_cons_self]
      exact ((Program.asks_ask r next).mp hasks).2 _
    · simp only [System.answered,List.getElem?_set_ne hj] at ht
      have hsame := transcript_cons_of_ne w.log
        (e := ⟨i,job,r,(S.exec job env w.shared r).2⟩) hj
      simpa only [System.answered,hsame] using h.threads j t ht

theorem follows_act {w : World ans ε α δ σ} (h : B.Follows w) (a : Act δ η) :
    B.Follows (S.act w a) := by
  cases a with
  | start job => exact B.follows_start h job
  | step i env =>
    rcases S.act_step_cases w i env with he | ⟨job,r,next,hi,he⟩
    · rwa [he]
    · rw [he]
      exact B.follows_answered h hi env

theorem follows_after {w : World ans ε α δ σ} (h : B.Follows w) (as : List (Act δ η)) :
    B.Follows (S.after w as) :=
  invariant_runActs B.Follows (fun _ a hw _ => B.follows_act hw a) h (along_true S.act w as)

theorem post_of_follows {w : World ans ε α δ σ} (h : B.Follows w) {i : Nat} {o : Except ε α}
    (hi : w.result? i = some o) :
    ∃ t, w.threads[i]? = some t ∧ B.post t.job (transcript w.log i) o := by
  unfold World.result? at hi
  split at hi
  · rename_i job a ht
    obtain rfl := Option.some.inj hi
    exact ⟨_,ht,h.threads i _ ht⟩
  · rename_i job e ht
    obtain rfl := Option.some.inj hi
    exact ⟨_,ht,h.threads i _ ht⟩
  · simp at hi

theorem may_of_follows {w : World ans ε α δ σ} (h : B.Follows w) {i : Nat} {job : δ} {r : ρ}
    {next : ans r → Program ans ε α} (hi : w.threads[i]? = some ⟨job,.ask r next⟩) :
    B.may job (transcript w.log i) r :=
  ((Program.asks_ask r next).mp (h.threads i _ hi)).1

theorem allowed_after (s : σ) (as : List (Act δ η)) {i : Nat} {t : Thread ans ε α δ}
    (hi : (S.after (World.init s) as).threads[i]? = some t) :
    Allowed (B.may t.job) (transcript (S.after (World.init s) as).log i) := by
  refine (invariant_runActs (fun w => B.Follows w ∧ ∀ i t, w.threads[i]? = some t →
    Allowed (B.may t.job) (transcript w.log i)) ?_ ⟨B.follows_init s,by simp [World.init]⟩
    (along_true S.act (World.init s) as)).2 i t hi
  rintro w a ⟨hw,h⟩ -
  refine ⟨B.follows_act hw a,?_⟩
  intro i t ht
  cases a with
  | start job =>
    simp only [System.act_start,List.getElem?_append] at ht ⊢
    split at ht
    · exact h i t ht
    · rw [List.getElem?_singleton] at ht
      split at ht
      · have hi : i = w.threads.length := by omega
        rw [hi,transcript_of_below hw.below]
        trivial
      · cases ht
  | step j env =>
    rcases S.act_step_cases w j env with he | ⟨job,r,next,hj,he⟩
    · rw [he] at ht ⊢
      exact h i t ht
    · rw [he] at ht ⊢
      have hlt : j < w.threads.length := (List.getElem?_eq_some_iff.mp hj).1
      by_cases hij : j = i
      · subst hij
        simp only [System.answered,List.getElem?_set_self hlt,Option.some.injEq] at ht
        subst ht
        rw [System.answered,transcript_cons_self]
        exact ⟨B.may_of_follows hw hj,h j ⟨job,.ask r next⟩ hj⟩
      · simp only [System.answered,List.getElem?_set_ne hij] at ht
        have hsame := transcript_cons_of_ne w.log
          (e := ⟨j,job,r,(S.exec job env w.shared r).2⟩) hij
        rw [System.answered,hsame]
        exact h i t ht

variable {ok : World ans ε α δ σ → Act δ η → Prop}

/-- An invariant of the shared state and the log that every allowed request keeps, in runs whose
threads have the jobs that their starts allow. -/
theorem invariant_after (jobs : Nat → δ → Prop)
    (hstart : ∀ w job, ok w (.start job) → jobs w.threads.length job)
    (inv : σ → List (Entry ans δ) → Prop)
    (hstep : ∀ w i job env r next, B.Follows w → ok w (.step i env) →
      w.threads[i]? = some ⟨job,.ask r next⟩ → jobs i job → B.may job (transcript w.log i) r →
      inv w.shared w.log →
      inv (S.answered w i job env r next).shared (S.answered w i job env r next).log)
    {w : World ans ε α δ σ} (hw : B.Follows w) (hjobs : w.Jobs jobs) (h : inv w.shared w.log)
    {as : List (Act δ η)} (hok : Along S.act ok w as) :
    inv (S.after w as).shared (S.after w as).log := by
  refine (invariant_runActs (fun w => B.Follows w ∧ w.Jobs jobs ∧ inv w.shared w.log) ?_
    ⟨hw,hjobs,h⟩ hok).2.2
  rintro w a ⟨hw,hjobs,hinv⟩ ha
  refine ⟨B.follows_act hw a,S.jobs_act hjobs (fun job he => hstart w job (he ▸ ha)),?_⟩
  cases a with
  | start job => exact hinv
  | step i env =>
    rcases S.act_step_cases w i env with he | ⟨job,r,next,hi,he⟩
    · rwa [he]
    · rw [he]
      exact hstep w i job env r next hw ha hi (hjobs i _ hi) (B.may_of_follows hw hi) hinv

end Behaviour

end WeirdVault.Framework
