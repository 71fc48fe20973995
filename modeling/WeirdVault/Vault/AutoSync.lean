import WeirdVault.Framework.Runs
import WeirdVault.Vault.Sync

/-!
# When the vault syncs

The module state of auto-sync.ts, at the granularity of promise callbacks. `Vault.syncNow` is the
cycle up to its `catch`; here it runs one request at a time, with any answers, among the calls.
-/

namespace WeirdVault.Vault.AutoSync

open WeirdVault.Framework Program

def readsLocal : Request → Bool
  | .idbGetAll _ => true
  | .vaultGet .snippets => true
  | .vaultGet .tombstones => true
  | _ => false

/-- A cycle that this module started, and the promise that it handed out for it. -/
structure Cycle where
  startedAt : Nat
  code : Prog (Option SyncResult)
  reads : List Nat
  cleared : Bool
  resolved : Bool

def Cycle.settled (c : Cycle) : Bool :=
  match c.code with
  | .ask .. => false
  | _ => true

/-- Where a call of `pushLocalChange` is: behind a cycle, with the promise of one, or at its end. -/
inductive Stage
  | waiting (p : Nat)
  | joined (p : Nat)
  | done (result : Option SyncResult)

structure Call where
  calledAt : Nat
  stage : Stage

structure State where
  clock : Nat
  vaultKey : Option CryptoKey
  inFlight : Option Nat
  cycles : List Cycle
  calls : List Call

def State.initial (vaultKey : Option CryptoKey) : State := ⟨0,vaultKey,none,[],[]⟩

namespace State

variable (s : State)

def syncNow : State × Option Nat :=
  match s.inFlight with
  | some p => (s,some p)
  | none =>
    match s.vaultKey with
    | none => (s,none)
    | some vaultKey =>
      ({ s with
          inFlight := some s.cycles.length
          cycles := s.cycles ++ [⟨s.clock,Vault.syncNow vaultKey,[],false,false⟩] },
        some s.cycles.length)

def stageOf : Option Nat → Stage
  | some p => .joined p
  | none => .done none

def pushLocalChange : State :=
  match s.inFlight with
  | some p => { s with calls := s.calls ++ [⟨s.clock,.waiting p⟩] }
  | none => { s.syncNow.1 with calls := s.calls ++ [⟨s.clock,stageOf s.syncNow.2⟩] }

def setCycle (p : Nat) (c : Cycle) : State := { s with cycles := s.cycles.set p c }

def setStage (j : Nat) (call : Call) (stage : Stage) : State :=
  { s with calls := s.calls.set j { call with stage := stage } }

end State

inductive Act
  | setVaultKey (key : Option CryptoKey)
  | syncNow
  | pushLocalChange
  | answer (p : Nat) (reply : (r : Request) → r.Ans)
  | clear (p : Nat)
  | resolve (p : Nat)
  | resume (j : Nat)
  | finish (j : Nat)

def Cycle.answered (c : Cycle) (now : Nat) (reply : (r : Request) → r.Ans) : Cycle :=
  match c.code with
  | .ask r next =>
    { c with code := next (reply r), reads := if readsLocal r then now :: c.reads else c.reads }
  | _ => c

def Cycle.value? (c : Cycle) : Option (Option SyncResult) :=
  match c.resolved,c.code with
  | true,.done result => some result
  | _,_ => none

def effect (s : State) : Act → State
  | .setVaultKey key => { s with vaultKey := key }
  | .syncNow => s.syncNow.1
  | .pushLocalChange => s.pushLocalChange
  | .answer p reply =>
    match s.cycles[p]? with
    | some c => s.setCycle p (c.answered s.clock reply)
    | none => s
  | .clear p =>
    match s.cycles[p]? with
    | some c =>
      if c.settled && !c.cleared then
        { s.setCycle p { c with cleared := true } with inFlight := none }
      else s
    | none => s
  | .resolve p =>
    match s.cycles[p]? with
    | some c => if c.cleared then s.setCycle p { c with resolved := true } else s
    | none => s
  | .resume j =>
    match s.calls[j]? with
    | some call =>
      match call.stage with
      | .waiting p =>
        if (s.cycles[p]?).any Cycle.resolved then
          s.syncNow.1.setStage j call (State.stageOf s.syncNow.2)
        else s
      | _ => s
    | none => s
  | .finish j =>
    match s.calls[j]? with
    | some call =>
      match call.stage with
      | .joined p =>
        match (s.cycles[p]?).bind Cycle.value? with
        | some result => s.setStage j call (.done result)
        | none => s
      | _ => s
    | none => s

def State.tick (s : State) : State := { s with clock := s.clock+1 }

def act (s : State) (a : Act) : State := (effect s a).tick

def State.after (s : State) (as : List Act) : State := runActs act s as

def ReadsFirst {α : Type} (fine : α → Prop) : Prog α → Prop
  | .done a => fine a
  | .fail _ => True
  | .ask r next => readsLocal r = true ∨ ∀ x, ReadsFirst fine (next x)

section ReadsFirst

variable {α β : Type}

private theorem ReadsFirst.bind {fine : α → Prop} {fine' : β → Prop} {p : Prog α} {f : α → Prog β}
    (h : ReadsFirst fine p) (hf : ∀ a, fine a → ReadsFirst fine' (f a)) :
    ReadsFirst fine' (p.bind f) := by
  induction p with
  | done a => exact hf a h
  | fail e => trivial
  | ask r next ih =>
    rcases h with h | h
    · exact Or.inl h
    · exact Or.inr (fun x => ih x (h x))

private theorem ReadsFirst.handle {fine : α → Prop} {p : Prog α} {f : JsError → Prog α}
    (h : ReadsFirst fine p) (hf : ∀ e, ReadsFirst fine (f e)) : ReadsFirst fine (p.handle f) := by
  induction p with
  | done a => exact h
  | fail e => exact hf e
  | ask r next ih =>
    rcases h with h | h
    · exact Or.inl h
    · exact Or.inr (fun x => ih x (h x))

private theorem readsFirst_decryptPulled (vaultKey : CryptoKey) (pulled : PulledVault) :
    ReadsFirst (fun _ => True) (decryptPulled vaultKey pulled) := by
  unfold decryptPulled
  rcases pulled.blob with _ | env
  · trivial
  · simp only [decryptVault,bind_eq]
    rcases env.open? vaultKey with _ | doc
    · by_cases h : env.v = 1 <;> simp only [h,if_true,if_false] <;> trivial
    · trivial

private theorem readsFirst_attempt (vaultKey : CryptoKey) (afterConflict : Bool)
    (onConflict : Prog SyncResult) :
    ReadsFirst (fun result => result.status = .offline) (attempt vaultKey afterConflict onConflict) := by
  simp only [attempt,getState,query,bind_eq,pure_eq,request_bind,ask_bind,done_bind]
  apply Or.inr
  intro state
  apply Or.inr
  intro res
  cases res with
  | unreachable => rfl
  | failed status => by_cases h : status = 401 <;> simp only [h,if_true,if_false] <;> trivial
  | unreadable => trivial
  | ok pulled =>
    have hmerge : ReadsFirst (fun _ => False) (mergeLocally vaultKey pulled) := by
      apply (readsFirst_decryptPulled vaultKey pulled).bind
      intro remote _
      exact Or.inl rfl
    exact hmerge.bind (fun _ h => h.elim)

private theorem readsFirst_syncNow (vaultKey : CryptoKey) :
    ReadsFirst (fun o => ∀ result, o = some result → result.status = .offline)
      (Vault.syncNow vaultKey) := by
  refine ReadsFirst.handle ?_ ?_
  · refine ReadsFirst.bind (readsFirst_attempt vaultKey false _) ?_
    intro result hoffline
    have hchanged : result.status ≠ .upToDate := by simp [hoffline]
    simp only [hchanged,ne_eq,not_false_eq_true,if_true]
    apply Or.inr
    intro _ result' hresult
    rw [← Option.some.inj hresult]
    exact hoffline
  · intro e result hresult
    cases hresult

end ReadsFirst

structure CycleOk (s : State) (p : Nat) (c : Cycle) : Prop where
  current : c.cleared = false → s.inFlight = some p
  settled : c.cleared = true → c.settled = true
  cleared : c.resolved = true → c.cleared = true
  started : c.startedAt < s.clock
  reads : ∀ t ∈ c.reads, c.startedAt < t
  fresh : c.reads ≠ [] ∨
    ReadsFirst (fun o => ∀ result, o = some result → result.status = .offline) c.code

/-- The calls that wait for a cycle or have its promise were made before any later one started. -/
def StageOk (cycles : List Cycle) (calledAt : Nat) : Stage → Prop
  | .waiting p => p < cycles.length ∧
      ∀ (q : Nat) (d : Cycle), p < q → cycles[q]? = some d → calledAt ≤ d.startedAt
  | .joined p => ∃ c : Cycle, cycles[p]? = some c ∧ calledAt ≤ c.startedAt
  | .done (some result) => ∃ (p : Nat) (c : Cycle), cycles[p]? = some c ∧ c.code = .done (some result) ∧
      calledAt ≤ c.startedAt
  | .done none => True

structure CyclesOk (s : State) : Prop where
  each : ∀ p c, s.cycles[p]? = some c → CycleOk s p c
  last : ∀ p, s.inFlight = some p → p+1 = s.cycles.length ∧
    ∃ c, s.cycles[p]? = some c ∧ c.cleared = false

structure Inv (s : State) : Prop where
  cycles : CyclesOk s
  calls : ∀ call ∈ s.calls, call.calledAt < s.clock ∧ StageOk s.cycles call.calledAt call.stage

/-- Cycles stay, with their start and their end, and new ones start now. -/
structure Grows (now : Nat) (cycles cycles' : List Cycle) : Prop where
  keeps : ∀ (p : Nat) (c : Cycle), cycles[p]? = some c → ∃ c' : Cycle, cycles'[p]? = some c' ∧ c'.startedAt = c.startedAt ∧
    ∀ result, c.code = .done result → c'.code = .done result
  new : ∀ (p : Nat) (c' : Cycle), cycles'[p]? = some c' →
    (∃ c : Cycle, cycles[p]? = some c ∧ c'.startedAt = c.startedAt) ∨ c'.startedAt = now

section Grows

variable {now calledAt : Nat} {cycles cycles' : List Cycle}

private theorem grows_refl (now : Nat) (cycles : List Cycle) : Grows now cycles cycles :=
  ⟨fun _ c h => ⟨c,h,rfl,fun _ hr => hr⟩,fun _ c h => Or.inl ⟨c,h,rfl⟩⟩

private theorem grows_set {p : Nat} {c c' : Cycle} (h : cycles[p]? = some c)
    (hstart : c'.startedAt = c.startedAt)
    (hend : ∀ result, c.code = .done result → c'.code = .done result) :
    Grows now cycles (cycles.set p c') := by
  have hlt : p < cycles.length := (List.getElem?_eq_some_iff.mp h).1
  constructor
  · intro q d hd
    by_cases hq : p = q
    · subst hq
      obtain rfl := Option.some.inj (h.symm.trans hd)
      exact ⟨c',List.getElem?_set_self hlt,hstart,hend⟩
    · exact ⟨d,by rw [List.getElem?_set_ne hq,hd],rfl,fun _ hr => hr⟩
  · intro q d hd
    by_cases hq : p = q
    · subst hq
      rw [List.getElem?_set_self hlt] at hd
      obtain rfl := Option.some.inj hd
      exact Or.inl ⟨c,h,hstart⟩
    · rw [List.getElem?_set_ne hq] at hd
      exact Or.inl ⟨d,hd,rfl⟩

private theorem grows_append {c : Cycle} (h : c.startedAt = now) : Grows now cycles (cycles ++ [c]) := by
  constructor
  · intro p d hd
    have hlt : p < cycles.length := (List.getElem?_eq_some_iff.mp hd).1
    exact ⟨d,by rw [List.getElem?_append_left hlt,hd],rfl,fun _ hr => hr⟩
  · intro p d hd
    rcases Nat.lt_or_ge p cycles.length with hlt | hge
    · rw [List.getElem?_append_left hlt] at hd
      exact Or.inl ⟨d,hd,rfl⟩
    · rw [List.getElem?_append_right hge] at hd
      have hmem := List.mem_of_getElem? hd
      rw [List.mem_singleton.mp hmem]
      exact Or.inr h

private theorem stageOk_grows {stage : Stage} (h : StageOk cycles calledAt stage)
    (hg : Grows now cycles cycles') (hle : calledAt ≤ now) : StageOk cycles' calledAt stage := by
  cases stage with
  | waiting p =>
    obtain ⟨hlt,hlater⟩ := h
    constructor
    · obtain ⟨c',hc',-⟩ := hg.keeps p _ (List.getElem?_eq_getElem hlt)
      exact (List.getElem?_eq_some_iff.mp hc').1
    · intro q d hq hd
      rcases hg.new q d hd with ⟨c,hc,hstart⟩ | hstart
      · rw [hstart]
        exact hlater q c hq hc
      · rw [hstart]
        exact hle
  | joined p =>
    obtain ⟨c,hc,hlater⟩ := h
    obtain ⟨c',hc',hstart,-⟩ := hg.keeps p c hc
    exact ⟨c',hc',by rw [hstart]; exact hlater⟩
  | done result =>
    cases result with
    | none => trivial
    | some result =>
      obtain ⟨p,c,hc,hcode,hlater⟩ := h
      obtain ⟨c',hc',hstart,hend⟩ := hg.keeps p c hc
      exact ⟨p,c',hc',hend _ hcode,by rw [hstart]; exact hlater⟩

end Grows

section Steps

variable {s : State}

private theorem cyclesOk_tick (h : CyclesOk s) : CyclesOk s.tick := by
  refine ⟨?_,h.last⟩
  intro p c hc
  have hok := h.each p c hc
  exact ⟨hok.current,hok.settled,hok.cleared,Nat.lt_succ_of_lt hok.started,hok.reads,hok.fresh⟩

private theorem calls_grow (h : Inv s) {cycles : List Cycle} (hg : Grows s.clock s.cycles cycles) :
    ∀ call ∈ s.calls, call.calledAt < s.clock+1 ∧ StageOk cycles call.calledAt call.stage := by
  intro call hcall
  obtain ⟨hlt,hstage⟩ := h.calls call hcall
  exact ⟨by omega,stageOk_grows hstage hg (by omega)⟩

private theorem syncNow_cases (s : State) :
    (∃ p, s.inFlight = some p ∧ s.syncNow = (s,some p)) ∨
    (s.inFlight = none ∧ s.vaultKey = none ∧ s.syncNow = (s,none)) ∨
    ∃ vaultKey, s.inFlight = none ∧ s.vaultKey = some vaultKey ∧
      s.syncNow = ({ s with
        inFlight := some s.cycles.length
        cycles := s.cycles ++ [⟨s.clock,Vault.syncNow vaultKey,[],false,false⟩] },
        some s.cycles.length) := by
  rcases hflight : s.inFlight with _ | p
  · rcases hkey : s.vaultKey with _ | vaultKey
    · exact Or.inr (Or.inl ⟨rfl,rfl,by simp only [State.syncNow,hflight,hkey]⟩)
    · exact Or.inr (Or.inr ⟨vaultKey,rfl,rfl,by simp only [State.syncNow,hflight,hkey]⟩)
  · exact Or.inl ⟨p,rfl,by simp only [State.syncNow,hflight]⟩

private theorem grows_syncNow (s : State) : Grows s.clock s.cycles s.syncNow.1.cycles := by
  rcases syncNow_cases s with ⟨p,-,he⟩ | ⟨-,-,he⟩ | ⟨vaultKey,-,-,he⟩
  · rw [he]
    exact grows_refl _ _
  · rw [he]
    exact grows_refl _ _
  · rw [he]
    exact grows_append rfl

private theorem cyclesOk_syncNow (h : CyclesOk s) : CyclesOk s.syncNow.1.tick := by
  rcases syncNow_cases s with ⟨p,-,he⟩ | ⟨-,-,he⟩ | ⟨vaultKey,hflight,-,he⟩
  · rw [he]
    exact cyclesOk_tick h
  · rw [he]
    exact cyclesOk_tick h
  · rw [he]
    constructor
    · intro p c hc
      rcases Nat.lt_or_ge p s.cycles.length with hlt | hge
      · have hc' : s.cycles[p]? = some c := by
          rw [← hc]
          exact (List.getElem?_append_left hlt).symm
        have hok := h.each p c hc'
        refine ⟨?_,hok.settled,hok.cleared,Nat.lt_succ_of_lt hok.started,hok.reads,hok.fresh⟩
        intro hcleared
        have hcurrent := hok.current hcleared
        rw [hflight] at hcurrent
        cases hcurrent
      · have hlast : (s.cycles ++ [⟨s.clock,Vault.syncNow vaultKey,[],false,false⟩])[p]? = some c := hc
        have hlt := (List.getElem?_eq_some_iff.mp hlast).1
        simp only [List.length_append,List.length_singleton] at hlt
        have hp : p = s.cycles.length := by omega
        subst hp
        rw [List.getElem?_concat_length] at hlast
        obtain rfl := Option.some.inj hlast
        exact ⟨fun _ => rfl,by simp,by simp,Nat.lt_succ_self _,by simp,
          Or.inr (readsFirst_syncNow vaultKey)⟩
    · intro p hp
      obtain rfl := Option.some.inj hp
      exact ⟨by simp [State.tick],_,List.getElem?_concat_length,rfl⟩

private theorem given_syncNow (h : CyclesOk s) {p : Nat} (hp : s.syncNow.2 = some p) :
    ∃ c, s.syncNow.1.cycles[p]? = some c ∧
      (c.startedAt = s.clock ∨ (s.cycles[p]? = some c ∧ c.cleared = false ∧ p+1 = s.cycles.length)) := by
  rcases syncNow_cases s with ⟨q,hflight,he⟩ | ⟨-,-,he⟩ | ⟨vaultKey,-,-,he⟩
  · rw [he] at hp ⊢
    obtain rfl := Option.some.inj hp
    obtain ⟨hlast,c,hc,hcleared⟩ := h.last _ hflight
    exact ⟨c,hc,Or.inr ⟨hc,hcleared,hlast⟩⟩
  · rw [he] at hp
    cases hp
  · rw [he] at hp ⊢
    obtain rfl := Option.some.inj hp
    exact ⟨_,List.getElem?_concat_length,Or.inl rfl⟩

private theorem cyclesOk_set (h : CyclesOk s) {p : Nat} {c c' : Cycle} (hc : s.cycles[p]? = some c)
    (hcleared : c'.cleared = c.cleared) (hok : CycleOk s.tick p c') :
    CyclesOk (s.setCycle p c').tick := by
  have hlt : p < s.cycles.length := (List.getElem?_eq_some_iff.mp hc).1
  constructor
  · intro q d hd
    have hset : (s.cycles.set p c')[q]? = some d := hd
    by_cases hq : p = q
    · subst hq
      rw [List.getElem?_set_self hlt] at hset
      obtain rfl := Option.some.inj hset
      exact ⟨hok.current,hok.settled,hok.cleared,hok.started,hok.reads,hok.fresh⟩
    · rw [List.getElem?_set_ne hq] at hset
      have hold := (cyclesOk_tick h).each q d hset
      exact ⟨hold.current,hold.settled,hold.cleared,hold.started,hold.reads,hold.fresh⟩
  · intro q hq
    obtain ⟨hlast,d,hd,hdc⟩ := h.last q hq
    refine ⟨by rw [hlast]; exact (List.length_set).symm,?_⟩
    by_cases hpq : p = q
    · subst hpq
      obtain rfl := Option.some.inj (hc.symm.trans hd)
      exact ⟨c',List.getElem?_set_self hlt,hcleared.trans hdc⟩
    · exact ⟨d,(List.getElem?_set_ne hpq).trans hd,hdc⟩

private theorem cycleOk_answered {p : Nat} {c : Cycle} (h : CycleOk s p c)
    (reply : (r : Request) → r.Ans) : CycleOk s.tick p (c.answered s.clock reply) := by
  rcases hcode : c.code with a | e | ⟨r,next⟩
  · rw [Cycle.answered,hcode]
    exact ⟨h.current,h.settled,h.cleared,Nat.lt_succ_of_lt h.started,h.reads,h.fresh⟩
  · rw [Cycle.answered,hcode]
    exact ⟨h.current,h.settled,h.cleared,Nat.lt_succ_of_lt h.started,h.reads,h.fresh⟩
  · have hopen : c.cleared = false := by
      rcases hc : c.cleared with _ | _
      · rfl
      · have hsettled := h.settled hc
        simp [Cycle.settled,hcode] at hsettled
    rw [Cycle.answered,hcode]
    refine ⟨h.current,?_,h.cleared,Nat.lt_succ_of_lt h.started,?_,?_⟩
    · intro hc
      have hno : c.cleared = true := hc
      rw [hopen] at hno
      cases hno
    · intro t ht
      by_cases hr : readsLocal r = true
      · simp only [hr,if_true] at ht
        rcases List.mem_cons.mp ht with rfl | ht
        · exact h.started
        · exact h.reads t ht
      · simp only [hr] at ht
        exact h.reads t ht
    · by_cases hr : readsLocal r = true
      · simp only [hr,if_true]
        exact Or.inl (List.cons_ne_nil _ _)
      · simp only [hr]
        rcases h.fresh with hreads | hfirst
        · exact Or.inl hreads
        · rw [hcode] at hfirst
          rcases hfirst with hno | hnext
          · exact absurd hno hr
          · exact Or.inr (hnext _)

private theorem ended_answered {c : Cycle} {now : Nat} {reply : (r : Request) → r.Ans}
    {result : Option SyncResult} (h : c.code = .done result) :
    (c.answered now reply).code = .done result := by
  simp only [Cycle.answered,h]

private theorem started_answered (c : Cycle) (now : Nat) (reply : (r : Request) → r.Ans) :
    (c.answered now reply).startedAt = c.startedAt := by
  unfold Cycle.answered
  split <;> rfl

private theorem cleared_answered (c : Cycle) (now : Nat) (reply : (r : Request) → r.Ans) :
    (c.answered now reply).cleared = c.cleared := by
  unfold Cycle.answered
  split <;> rfl

private theorem cyclesOk_clear (h : CyclesOk s) {p : Nat} {c : Cycle} (hc : s.cycles[p]? = some c)
    (hopen : c.cleared = false) (hsettled : c.settled = true) :
    CyclesOk { s.setCycle p { c with cleared := true } with inFlight := none }.tick := by
  have hlt : p < s.cycles.length := (List.getElem?_eq_some_iff.mp hc).1
  have hflight := (h.each p c hc).current hopen
  constructor
  · intro q d hd
    have hset : (s.cycles.set p { c with cleared := true })[q]? = some d := hd
    by_cases hq : p = q
    · subst hq
      rw [List.getElem?_set_self hlt] at hset
      obtain rfl := Option.some.inj hset
      have hok := h.each p c hc
      exact ⟨by simp,fun _ => hsettled,fun _ => rfl,Nat.lt_succ_of_lt hok.started,hok.reads,hok.fresh⟩
    · rw [List.getElem?_set_ne hq] at hset
      have hok := h.each q d hset
      refine ⟨?_,hok.settled,hok.cleared,Nat.lt_succ_of_lt hok.started,hok.reads,hok.fresh⟩
      intro hd
      have hsame := hok.current hd
      rw [hflight] at hsame
      exact absurd (Option.some.inj hsame) hq
  · intro q hq
    cases hq

end Steps

section Acts

variable {s : State}

private theorem inv_of_cycles (h : Inv s) {t : State} (hclock : t.clock = s.clock)
    (hcalls : t.calls = s.calls) (hg : Grows s.clock s.cycles t.cycles)
    (hok : CyclesOk t.tick) : Inv t.tick := by
  refine ⟨hok,?_⟩
  intro call hcall
  have hmem : call ∈ s.calls := by rw [← hcalls]; exact hcall
  have hold := calls_grow h hg call hmem
  refine ⟨?_,hold.2⟩
  simp only [State.tick,hclock]
  exact hold.1

private theorem inv_of_calls (h : Inv s) {t : State} (hclock : t.clock = s.clock)
    (hcalls : ∀ call ∈ t.calls, call ∈ s.calls ∨
      (call.calledAt ≤ s.clock ∧ StageOk t.cycles call.calledAt call.stage))
    (hg : Grows s.clock s.cycles t.cycles) (hok : CyclesOk t.tick) : Inv t.tick := by
  refine ⟨hok,?_⟩
  intro call hcall
  have hstate : t.tick.clock = s.clock+1 := by simp only [State.tick,hclock]
  rw [hstate]
  rcases hcalls call hcall with hmem | ⟨hle,hstage⟩
  · exact calls_grow h hg call hmem
  · exact ⟨by omega,hstage⟩

private theorem cyclesOk_calls (h : CyclesOk s) (calls : List Call) :
    CyclesOk { s with calls := calls } := by
  refine ⟨?_,h.last⟩
  intro p c hc
  have hok := h.each p c hc
  exact ⟨hok.current,hok.settled,hok.cleared,hok.started,hok.reads,hok.fresh⟩

private theorem clock_syncNow (s : State) : s.syncNow.1.clock = s.clock := by
  rcases syncNow_cases s with ⟨p,-,he⟩ | ⟨-,-,he⟩ | ⟨vaultKey,-,-,he⟩ <;> rw [he]

private theorem calls_syncNow (s : State) : s.syncNow.1.calls = s.calls := by
  rcases syncNow_cases s with ⟨p,-,he⟩ | ⟨-,-,he⟩ | ⟨vaultKey,-,-,he⟩ <;> rw [he]

private theorem inv_syncNow (h : Inv s) : Inv (act s .syncNow) :=
  inv_of_cycles h (clock_syncNow s) (calls_syncNow s) (grows_syncNow s) (cyclesOk_syncNow h.cycles)

/-- A call that goes on to `syncNow`: what it joins started after the call, for any cycle in flight
by then is a later one than that which it waited for. -/
private theorem stageOk_syncNow (h : Inv s) {calledAt : Nat} (hle : calledAt ≤ s.clock)
    (hwaited : ∀ p c, s.cycles[p]? = some c → c.cleared = false → p+1 = s.cycles.length →
      calledAt ≤ c.startedAt) :
    StageOk s.syncNow.1.cycles calledAt (State.stageOf s.syncNow.2) := by
  rcases hgiven : s.syncNow.2 with _ | p
  · trivial
  · obtain ⟨c,hc,hstart | ⟨hold,hopen,hlast⟩⟩ := given_syncNow h.cycles hgiven
    · exact ⟨c,hc,by omega⟩
    · exact ⟨c,hc,hwaited p c hold hopen hlast⟩

private theorem inv_pushLocalChange (h : Inv s) : Inv (act s .pushLocalChange) := by
  rcases hflight : s.inFlight with _ | p
  · have hact : act s .pushLocalChange = { s.syncNow.1 with
        calls := s.calls ++ [Call.mk s.clock (State.stageOf s.syncNow.2)] }.tick := by
      simp only [act,effect,State.pushLocalChange,hflight]
    rw [hact]
    refine inv_of_calls h (clock_syncNow s) ?_ (grows_syncNow s) ?_
    · intro call hcall
      rcases List.mem_append.mp hcall with hcall | hcall
      · exact Or.inl hcall
      · obtain rfl := List.mem_singleton.mp hcall
        refine Or.inr ⟨le_refl _,stageOk_syncNow h (le_refl _) ?_⟩
        intro p c hc hopen _
        have hsome := (h.cycles.each p c hc).current hopen
        rw [hflight] at hsome
        cases hsome
    · exact cyclesOk_calls (cyclesOk_syncNow h.cycles) _
  · have hact : act s .pushLocalChange =
        { s with calls := s.calls ++ [Call.mk s.clock (.waiting p)] }.tick := by
      simp only [act,effect,State.pushLocalChange,hflight]
    rw [hact]
    refine inv_of_calls h rfl ?_ (grows_refl _ _) ?_
    · intro call hcall
      rcases List.mem_append.mp hcall with hcall | hcall
      · exact Or.inl hcall
      · obtain rfl := List.mem_singleton.mp hcall
        refine Or.inr ⟨le_refl _,?_⟩
        obtain ⟨hlast,-⟩ := h.cycles.last p hflight
        refine ⟨by simp only; omega,?_⟩
        intro q d hq hd
        have hlt := (List.getElem?_eq_some_iff.mp hd).1
        simp only at hlt
        omega
    · exact cyclesOk_calls (cyclesOk_tick h.cycles) _

private theorem inv_same (h : Inv s) : Inv s.tick :=
  inv_of_cycles h rfl rfl (grows_refl _ _) (cyclesOk_tick h.cycles)

private theorem inv_set (h : Inv s) {p : Nat} {c c' : Cycle} (hc : s.cycles[p]? = some c)
    (hstart : c'.startedAt = c.startedAt)
    (hend : ∀ result, c.code = .done result → c'.code = .done result)
    (hok : CyclesOk (s.setCycle p c').tick) : Inv (s.setCycle p c').tick :=
  inv_of_cycles (t := s.setCycle p c') h rfl rfl (grows_set hc hstart hend) hok

private theorem inv_answer (h : Inv s) (p : Nat) (reply : (r : Request) → r.Ans) :
    Inv (act s (.answer p reply)) := by
  rcases hc : s.cycles[p]? with _ | c
  · simp only [act,effect,hc]
    exact inv_same h
  · simp only [act,effect,hc]
    apply inv_set h hc (started_answered c _ _) (fun _ hr => ended_answered hr)
    exact cyclesOk_set h.cycles hc (cleared_answered c _ _)
      (cycleOk_answered (h.cycles.each p c hc) reply)

private theorem inv_clear (h : Inv s) (p : Nat) : Inv (act s (.clear p)) := by
  rcases hc : s.cycles[p]? with _ | c
  · simp only [act,effect,hc]
    exact inv_same h
  · by_cases hready : (c.settled && !c.cleared) = true
    · simp only [act,effect,hc,hready,if_true]
      have hfacts := Bool.and_eq_true_iff.mp hready
      have hopen : c.cleared = false := by simpa using hfacts.2
      have hgrows : Grows s.clock s.cycles (s.cycles.set p { c with cleared := true }) :=
        grows_set hc rfl (fun _ hr => hr)
      exact inv_of_cycles h rfl rfl hgrows (cyclesOk_clear h.cycles hc hopen hfacts.1)
    · simp only [act,effect,hc,hready]
      exact inv_same h

private theorem inv_resolve (h : Inv s) (p : Nat) : Inv (act s (.resolve p)) := by
  rcases hc : s.cycles[p]? with _ | c
  · simp only [act,effect,hc]
    exact inv_same h
  · by_cases hcleared : c.cleared = true
    · simp only [act,effect,hc,hcleared,if_true]
      have hok := h.cycles.each p c hc
      refine inv_set h hc ?_ ?_ ?_
      · rfl
      · exact fun _ hr => hr
      · apply cyclesOk_set h.cycles hc hcleared.symm
        exact ⟨by simp,fun _ => hok.settled hcleared,fun _ => rfl,Nat.lt_succ_of_lt hok.started,
          hok.reads,hok.fresh⟩
    · simp only [act,effect,hc,hcleared]
      exact inv_same h

private theorem ended_of_value? {c : Cycle} {result : Option SyncResult}
    (h : c.value? = some result) : c.code = .done result := by
  rcases hcode : c.code with a | e | ⟨r,next⟩ <;> rcases hr : c.resolved with _ | _ <;>
    simp_all [Cycle.value?]

private theorem cyclesOk_key (h : CyclesOk s) (key : Option CryptoKey) :
    CyclesOk { s with vaultKey := key } := by
  refine ⟨?_,h.last⟩
  intro p c hc
  have hok := h.each p c hc
  exact ⟨hok.current,hok.settled,hok.cleared,hok.started,hok.reads,hok.fresh⟩

private theorem mem_setStage {t : State} {j : Nat} {call x : Call} {stage : Stage}
    (h : x ∈ (t.setStage j call stage).calls) : x ∈ t.calls ∨ x = { call with stage := stage } :=
  List.mem_or_eq_of_mem_set h

private theorem inv_resume (h : Inv s) (j : Nat) : Inv (act s (.resume j)) := by
  rcases hj : s.calls[j]? with _ | call
  · simp only [act,effect,hj]
    exact inv_same h
  · obtain ⟨hlt,hstage⟩ := h.calls call (List.mem_of_getElem? hj)
    rcases hs : call.stage with p | p | result
    · by_cases hresolved : (s.cycles[p]?).any Cycle.resolved = true
      · simp only [act,effect,hj,hs,hresolved,if_true]
        refine inv_of_calls h (clock_syncNow s) ?_ (grows_syncNow s) ?_
        · intro x hx
          rcases mem_setStage hx with hx | rfl
          · rw [calls_syncNow] at hx
            exact Or.inl hx
          · refine Or.inr ⟨le_of_lt hlt,stageOk_syncNow h (le_of_lt hlt) ?_⟩
            have hended : ∃ c, s.cycles[p]? = some c ∧ c.resolved = true := by
              rcases hc : s.cycles[p]? with _ | c
              · simp [hc] at hresolved
              · exact ⟨c,rfl,by simpa [hc] using hresolved⟩
            obtain ⟨c,hc,hcr⟩ := hended
            rw [hs] at hstage
            intro q d hd hopen hlast
            have hpq : p ≠ q := by
              intro he
              subst he
              obtain rfl := Option.some.inj (hc.symm.trans hd)
              rw [(h.cycles.each p c hc).cleared hcr] at hopen
              cases hopen
            have hlt := hstage.1
            exact hstage.2 q d (by omega) hd
        · exact cyclesOk_calls (cyclesOk_syncNow h.cycles) _
      · simp only [act,effect,hj,hs,hresolved]
        exact inv_same h
    · simp only [act,effect,hj,hs]
      exact inv_same h
    · simp only [act,effect,hj,hs]
      exact inv_same h

private theorem inv_finish (h : Inv s) (j : Nat) : Inv (act s (.finish j)) := by
  rcases hj : s.calls[j]? with _ | call
  · simp only [act,effect,hj]
    exact inv_same h
  · obtain ⟨hlt,hstage⟩ := h.calls call (List.mem_of_getElem? hj)
    rcases hs : call.stage with p | p | result
    · simp only [act,effect,hj,hs]
      exact inv_same h
    · rcases hvalue : (s.cycles[p]?).bind Cycle.value? with _ | result
      · simp only [act,effect,hj,hs,hvalue]
        exact inv_same h
      · simp only [act,effect,hj,hs,hvalue]
        refine inv_of_calls h rfl ?_ (grows_refl _ _) (cyclesOk_calls (cyclesOk_tick h.cycles) _)
        intro x hx
        rcases mem_setStage hx with hx | rfl
        · exact Or.inl hx
        · refine Or.inr ⟨le_of_lt hlt,?_⟩
          rw [hs] at hstage
          obtain ⟨c,hc,hlater⟩ := hstage
          rw [hc] at hvalue
          cases result with
          | none => trivial
          | some result => exact ⟨p,c,hc,ended_of_value? hvalue,hlater⟩
    · simp only [act,effect,hj,hs]
      exact inv_same h

theorem inv_act (h : Inv s) (a : Act) : Inv (act s a) := by
  cases a with
  | setVaultKey key =>
    exact inv_of_cycles h rfl rfl (grows_refl _ _) (cyclesOk_key (cyclesOk_tick h.cycles) key)
  | syncNow => exact inv_syncNow h
  | pushLocalChange => exact inv_pushLocalChange h
  | answer p reply => exact inv_answer h p reply
  | clear p => exact inv_clear h p
  | resolve p => exact inv_resolve h p
  | resume j => exact inv_resume h j
  | finish j => exact inv_finish h j

end Acts

theorem inv_initial (vaultKey : Option CryptoKey) : Inv (State.initial vaultKey) := by
  refine ⟨⟨?_,?_⟩,?_⟩
  · intro p c hc
    simp [State.initial] at hc
  · intro p hp
    cases hp
  · intro call hcall
    simp [State.initial] at hcall

theorem inv_after (vaultKey : Option CryptoKey) (as : List Act) :
    Inv ((State.initial vaultKey).after as) := by
  apply invariant_runActs Inv (fun s a h _ => inv_act h a) (inv_initial vaultKey)
  exact along_true act _ as

/-- No two cycles of the module are under way at once, and what a call of `pushLocalChange` resolves
with comes from a cycle that started, and read the records of the device, after the call. -/
theorem pushLocalChange_saw_change (vaultKey : Option CryptoKey) (as : List Act) :
    let s := (State.initial vaultKey).after as
    (∀ (p q : Nat) (c d : Cycle), s.cycles[p]? = some c → s.cycles[q]? = some d →
      c.settled = false → d.settled = false → p = q) ∧
    ∀ call ∈ s.calls, ∀ result, call.stage = .done (some result) →
      ∃ (p : Nat) (c : Cycle), s.cycles[p]? = some c ∧ c.code = .done (some result) ∧
        call.calledAt ≤ c.startedAt ∧ (∀ t ∈ c.reads, call.calledAt < t) ∧
        (result.status ≠ .offline → c.reads ≠ []) := by
  intro s
  have h : Inv s := inv_after vaultKey as
  have hopen : ∀ p c, s.cycles[p]? = some c → c.settled = false → s.inFlight = some p := by
    intro p c hc hsettled
    have hok := h.cycles.each p c hc
    apply hok.current
    rcases hcleared : c.cleared with _ | _
    · rfl
    · rw [hok.settled hcleared] at hsettled
      cases hsettled
  constructor
  · intro p q c d hc hd hcs hds
    exact Option.some.inj ((hopen p c hc hcs).symm.trans (hopen q d hd hds))
  · intro call hcall result hstage
    have hcallOk := (h.calls call hcall).2
    rw [hstage] at hcallOk
    obtain ⟨p,c,hc,hcode,hlater⟩ := hcallOk
    have hok := h.cycles.each p c hc
    refine ⟨p,c,hc,hcode,hlater,?_,?_⟩
    · intro t ht
      exact lt_of_le_of_lt hlater (hok.reads t ht)
    · intro hstatus
      rcases hok.fresh with hreads | hfirst
      · exact hreads
      · rw [hcode] at hfirst
        exact absurd (hfirst result rfl) hstatus

end WeirdVault.Vault.AutoSync
