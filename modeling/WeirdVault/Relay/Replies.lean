import WeirdVault.Relay.Registry

/-! # Whose answer a command gets -/

namespace WeirdVault.Relay.Agent

open WeirdVault.Framework

inductive Moved (s : Agents) (a : Action) : Table Call.task → Prop
  | same : Moved s a s.commands.calls
  | began (c : Call) (hnew : s.commands.calls.get? c.task = none) (hslot : c.slot = none)
      (hfound : ∀ conn, c.stage = .found conn → s.registry.commandTx c.account c.agentId = .ok conn)
      (hsending : ∀ conn, c.stage ≠ .sending conn) (hreply : ∀ reply, c.stage ≠ .returned (.ok reply)) :
      Moved s a (s.commands.calls.put c)
  | went (c : Call) (stage : CallStage) (hc : s.commands.calls.get? c.task = some c)
      (hfound : ∀ conn, stage ≠ .found conn)
      (hsending : ∀ conn, stage = .sending conn → c.stage = .found conn)
      (hreply : ∀ reply, stage = .returned (.ok reply) → c.slot = some reply) :
      Moved s a (s.commands.calls.put { c with stage := stage })
  | filled (k : Nat) (h : Held) (c : Call) (ha : a = .deliver k)
      (hheld : s.commands.held.get? k = some h)
      (hc : s.commands.calls.get? h.call = some c) (hstage : c.stage.listening) :
      Moved s a (s.commands.calls.put { c with slot := some h.reply })

private theorem moved_stage {s : Agents} {a : Action} {k : Nat} {c : Call}
    (hc : s.commands.calls.get? k = some c) {stage : CallStage} (hfound : ∀ conn, stage ≠ .found conn)
    (hsending : ∀ conn, stage = .sending conn → c.stage = .found conn)
    (hreply : ∀ reply, stage = .returned (.ok reply) → c.slot = some reply) :
    Moved s a (s.commands.setStage c stage).calls := by
  have hk := Table.key_of_get? hc
  subst hk
  exact .went c stage hc hfound hsending hreply

private theorem moved_command (s : Agents) (a : Action) (task : Nat)
    (account agentId id envelope : String) :
    Moved s a (s.commands.command s.registry task account agentId id envelope).calls := by
  unfold Commands.command
  split
  · exact .same
  · next hnew =>
    split
    · exact .began ⟨task,account,agentId,id,envelope,none,_⟩ hnew rfl (by simp) (by simp) (by simp)
    · next conn htx =>
      refine .began ⟨task,account,agentId,id,envelope,none,_⟩ hnew rfl ?_ (by simp) (by simp)
      rintro n ⟨⟩
      exact htx

private theorem moved_deliver (s : Agents) (socket : Nat) :
    Moved s (.deliver socket) (s.commands.deliver socket).calls := by
  unfold Commands.deliver
  split
  · exact .same
  · next h hheld =>
    dsimp only
    split
    · next c hc =>
      split
      · next hlisten => exact .filled socket h c rfl hheld hc hlisten
      · exact .same
    · exact .same

private theorem read_calls (s : Commands) (socket conn : Nat) (text : String)
    (parsed : Option CommandResult) : (s.read socket conn text parsed).calls = s.calls := by
  unfold Commands.read
  dsimp only
  split
  · rfl
  · split
    · split <;> rfl
    · rfl

theorem moved_step (s : Agents) (a : Action) : Moved s a (step s a).commands.calls := by
  cases a with
  | number socket =>
    simp only [step,Agents.number]
    split <;> exact .same
  | finish socket =>
    simp only [step,Agents.finish]
    split <;> exact .same
  | take conn =>
    simp only [step,Agents.take]
    split <;> exact .same
  | written conn =>
    simp only [step,Agents.written]
    split <;> exact .same
  | read socket text parsed =>
    simp only [step,Agents.read]
    split
    · simp only [read_calls]
      exact .same
    · exact .same
  | deliver socket => exact moved_deliver s socket
  | command task account agentId id envelope => exact moved_command s _ task account agentId id envelope
  | insert task =>
    simp only [step,Commands.insert]
    split
    · next hc => exact moved_stage hc (by simp) (by simp) (by simp)
    · exact .same
  | send task =>
    simp only [step,Agents.send]
    split
    · next hc =>
      split
      · exact moved_stage hc (by simp) (by simp) (by simp)
      · exact .same
      · exact moved_stage hc (by simp) (by simp) (by simp)
    · exact .same
  | withdraw task =>
    simp only [step,Commands.withdraw]
    split
    · next hc => exact moved_stage hc (by simp) (by simp) (by simp)
    · next hc => exact moved_stage hc (by simp) (by simp) (by simp)
    · exact .same
  | receive task =>
    simp only [step,Commands.receive]
    split
    · next hc => exact moved_stage hc (by simp) (by simp) (by simp)
    · exact .same
  | giveUp task =>
    simp only [step,Commands.giveUp]
    split
    · next hc => exact moved_stage hc (by simp) (by simp) (by simp)
    · exact .same
  | cancel task =>
    simp only [step,Commands.cancel]
    split
    · exact .same
    · next c _ hc => exact moved_stage hc (by simp) (by simp) (by simp)
    · exact .same
  | request task =>
    simp only [step,Agents.request]
    split
    · split <;> exact .same
    · exact .same
  | _ => exact .same

theorem Moved.keeps {s : Agents} {a : Action} {t : Table Call.task} (hmoved : Moved s a t) {k : Nat} {c : Call}
    (hc : s.commands.calls.get? k = some c) :
    ∃ d, t.get? k = some d ∧ d.agentId = c.agentId ∧ d.account = c.account := by
  have hput : ∀ d e : Call, s.commands.calls.get? d.task = some d → e.task = d.task →
      e.agentId = d.agentId → e.account = d.account →
        ∃ x, (s.commands.calls.put e).get? k = some x ∧ x.agentId = c.agentId ∧
          x.account = c.account := by
    intro d e hd htask hagent haccount
    rw [Table.get?_put]
    split
    · next hk =>
      rw [htask] at hk
      rw [hk,hc] at hd
      obtain rfl := Option.some.inj hd
      exact ⟨e,rfl,hagent,haccount⟩
    · exact ⟨c,hc,rfl,rfl⟩
  cases hmoved with
  | same => exact ⟨c,hc,rfl,rfl⟩
  | began d hnew =>
    have hne : d.task ≠ k := by
      rintro rfl
      exact absurd (hnew.symm.trans hc) (by simp)
    exact ⟨c,(Table.get?_put_of_ne _ hne).trans hc,rfl,rfl⟩
  | went d stage hd => exact hput d _ hd rfl rfl rfl
  | filled _ h d _ _ hd =>
    have hk := Table.key_of_get? hd
    exact hput d _ (hk.symm ▸ hd) rfl rfl rfl

def Chosen (s : Agents) (call conn : Nat) : Prop :=
  ∃ c, s.commands.calls.get? call = some c ∧ s.registry.Authenticated conn c.agentId c.account

theorem chosen_step {s : Agents} {call conn : Nat} (h : Chosen s call conn) (a : Action) :
    Chosen (step s a) call conn := by
  obtain ⟨c,hc,hauth⟩ := h
  obtain ⟨d,hd,hagent,haccount⟩ := (moved_step s a).keeps hc
  refine ⟨d,hd,?_⟩
  rw [hagent,haccount]
  exact authenticated_step hauth a

def Queued (s : Agents) (conn : Nat) (m : Message) : Prop :=
  ∃ q, s.queues.get? conn = some q ∧ (m ∈ q.messages ∨ q.writing = some m)

/-- Every envelope goes to a connection of its call's agent and account. -/
structure Envelopes (s : Agents) : Prop where
  found : ∀ k c conn, s.commands.calls.get? k = some c →
    c.stage = .found conn ∨ c.stage = .sending conn → Chosen s k conn
  queued : ∀ conn call envelope, Queued s conn (.command call envelope) → Chosen s call conn
  handed : ∀ call conn, .handed call conn ∈ s.commands.log → Chosen s call conn

theorem commandTx_ok {r : Registry} {account id : String} {conn : Nat}
    (h : r.commandTx account id = .ok conn) :
    ∃ reg, r.control.get? id = some reg ∧ reg.account = account ∧ reg.conn = conn := by
  unfold Registry.commandTx at h
  split at h
  · simp at h
  · next reg hreg =>
    split at h
    · simp at h
    · next haccount =>
      have hconn : reg.conn = conn := by simpa using h
      exact ⟨reg,hreg,not_not.mp haccount,hconn⟩

private theorem found_step {s : Agents} (h : Envelopes s) (hsound : s.registry.Sound) (a : Action)
    {k : Nat} {c : Call} {conn : Nat} (hc : (step s a).commands.calls.get? k = some c)
    (hstage : c.stage = .found conn ∨ c.stage = .sending conn) : Chosen (step s a) k conn := by
  have hmoved := moved_step s a
  generalize ht : (step s a).commands.calls = t at hmoved hc
  cases hmoved with
  | same => exact chosen_step (h.found k c conn hc hstage) a
  | began d hnew hslot hfound hsending _ =>
    rw [Table.get?_put] at hc
    split at hc
    · next hk =>
      obtain rfl := Option.some.inj hc
      have hd : d.stage = .found conn := hstage.resolve_right (hsending conn)
      obtain ⟨reg,hreg,haccount,hconn⟩ := commandTx_ok (hfound conn hd)
      have hauth := hsound.authenticated hreg
      rw [hconn,haccount] at hauth
      refine ⟨d,?_,authenticated_step hauth a⟩
      rw [ht,← hk]
      exact Table.get?_put_self _ d
    · exact chosen_step (h.found k c conn hc hstage) a
  | went d stage hd hfound hsending _ =>
    rw [Table.get?_put] at hc
    split at hc
    · next hk =>
      obtain rfl := Option.some.inj hc
      have hsend : stage = .sending conn := hstage.resolve_left (hfound conn)
      have hold := h.found d.task d conn hd (.inl (hsending conn hsend))
      exact hk ▸ chosen_step hold a
    · exact chosen_step (h.found k c conn hc hstage) a
  | filled j held d _ _ hd _ =>
    rw [Table.get?_put] at hc
    split at hc
    · next hk =>
      obtain rfl := Option.some.inj hc
      have hj := Table.key_of_get? hd
      have hold := h.found d.task d conn (hj.symm ▸ hd) hstage
      exact hk ▸ chosen_step hold a
    · exact chosen_step (h.found k c conn hc hstage) a

private theorem queued_put {s : Agents} {conn : Nat} {m : Message} {q : Queue}
    {s' : Agents} (hqueues : s'.queues = s.queues.put q) (h : Queued s' conn m) :
    Queued s conn m ∨ q.conn = conn ∧ (m ∈ q.messages ∨ q.writing = some m) := by
  obtain ⟨x,hx,hm⟩ := h
  rw [hqueues,Table.get?_put] at hx
  split at hx
  · next hconn =>
    obtain rfl := Option.some.inj hx
    exact .inr ⟨hconn,hm⟩
  · exact .inl ⟨x,hx,hm⟩

private theorem queued_push {s : Agents} {conn n : Nat} {m new : Message} {s' : Agents}
    (hqueues : s'.queues = push s.queues n new) (h : Queued s' conn m) :
    Queued s conn m ∨ n = conn ∧ m = new := by
  obtain ⟨x,hx,hm⟩ := h
  rw [hqueues,push,Table.get?_update] at hx
  split at hx
  · next hconn =>
    obtain ⟨q,hq,rfl⟩ := Option.map_eq_some_iff.mp hx
    rcases hm with hm | hm
    · rcases List.mem_append.mp hm with hm | hm
      · exact .inl ⟨q,hq,.inl hm⟩
      · exact .inr ⟨hconn.symm,List.mem_singleton.mp hm⟩
    · exact .inl ⟨q,hq,.inr hm⟩
  · exact .inl ⟨x,hx,hm⟩

private theorem queued_step {s : Agents} (h : Envelopes s) (a : Action) {conn call : Nat}
    {envelope : String} (hq : Queued (step s a) conn (.command call envelope)) :
    Chosen s call conn := by
  cases a with
  | number socket =>
    simp only [step,Agents.number] at hq
    split at hq
    · rcases queued_put rfl hq with hq | ⟨_,hm⟩
      · exact h.queued conn call envelope hq
      · exact absurd hm (by simp)
    · exact h.queued conn call envelope hq
  | finish socket =>
    simp only [step,Agents.finish] at hq
    split at hq
    · rcases queued_put rfl hq with hq | ⟨_,hm⟩
      · exact h.queued conn call envelope hq
      · exact absurd hm (by simp)
    · exact h.queued conn call envelope hq
  | take n =>
    simp only [step,Agents.take] at hq
    split at hq
    · next old m ms closed hold =>
      have hn := Table.key_of_get? hold
      subst hn
      rcases queued_put rfl hq with hq | ⟨rfl,hm⟩
      · exact h.queued conn call envelope hq
      · apply h.queued old call envelope
        refine ⟨_,hold,.inl ?_⟩
        rcases hm with hm | hm
        · exact List.mem_cons_of_mem m hm
        · exact List.mem_cons.mpr (.inl (Option.some.inj hm).symm)
    · exact h.queued conn call envelope hq
  | written n =>
    simp only [step,Agents.written] at hq
    split at hq
    · next old ms _ _ closed hold =>
      have hn := Table.key_of_get? hold
      subst hn
      rcases queued_put rfl hq with hq | ⟨rfl,hm⟩
      · exact h.queued conn call envelope hq
      · exact h.queued old call envelope ⟨_,hold,.inl (hm.resolve_right (by simp))⟩
    · next old ms _ _ closed hold =>
      have hn := Table.key_of_get? hold
      subst hn
      rcases queued_put rfl hq with hq | ⟨rfl,hm⟩
      · exact h.queued conn call envelope hq
      · exact h.queued old call envelope ⟨_,hold,.inl (hm.resolve_right (by simp))⟩
    · exact h.queued conn call envelope hq
  | read socket text parsed =>
    simp only [step,Agents.read] at hq
    split at hq <;> exact h.queued conn call envelope hq
  | send task =>
    simp only [step,Agents.send] at hq
    split at hq
    · next t account agentId id text slot n hc =>
      have ht := Table.key_of_get? hc
      subst ht
      split at hq
      · exact h.queued conn call envelope hq
      · exact h.queued conn call envelope hq
      · rcases queued_push rfl hq with hq | ⟨rfl,hm⟩
        · exact h.queued conn call envelope hq
        · rw [(Message.command.inj hm).1]
          exact h.found t _ n hc (.inr rfl)
    · exact h.queued conn call envelope hq
  | request task =>
    simp only [step,Agents.request] at hq
    split at hq
    · split at hq
      · rcases queued_push rfl hq with hq | ⟨_,hm⟩
        · exact h.queued conn call envelope hq
        · exact absurd hm (by simp)
      · exact h.queued conn call envelope hq
    · exact h.queued conn call envelope hq
  | _ => exact h.queued conn call envelope hq

def Action.quiet : Action → Bool
  | .read _ _ _ => false
  | .written _ => false
  | .deliver _ => false
  | _ => true

private theorem quiet_step (s : Agents) {a : Action} (ha : a.quiet) :
    (step s a).commands.held = s.commands.held ∧ (step s a).commands.nextSeq = s.commands.nextSeq ∧
      (step s a).commands.log = s.commands.log := by
  cases a with
  | read socket text parsed => simp [Action.quiet] at ha
  | written conn => simp [Action.quiet] at ha
  | deliver socket => simp [Action.quiet] at ha
  | number socket =>
    simp only [step,Agents.number]
    split <;> exact ⟨rfl,rfl,rfl⟩
  | finish socket =>
    simp only [step,Agents.finish]
    split <;> exact ⟨rfl,rfl,rfl⟩
  | take conn =>
    simp only [step,Agents.take]
    split <;> exact ⟨rfl,rfl,rfl⟩
  | command task account agentId id envelope =>
    simp only [step,Commands.command]
    split
    · exact ⟨rfl,rfl,rfl⟩
    · split <;> exact ⟨rfl,rfl,rfl⟩
  | insert task =>
    simp only [step,Commands.insert]
    split <;> exact ⟨rfl,rfl,rfl⟩
  | send task =>
    simp only [step,Agents.send]
    split
    · split <;> exact ⟨rfl,rfl,rfl⟩
    · exact ⟨rfl,rfl,rfl⟩
  | withdraw task =>
    simp only [step,Commands.withdraw]
    split <;> exact ⟨rfl,rfl,rfl⟩
  | receive task =>
    simp only [step,Commands.receive]
    split <;> exact ⟨rfl,rfl,rfl⟩
  | giveUp task =>
    simp only [step,Commands.giveUp]
    split <;> exact ⟨rfl,rfl,rfl⟩
  | cancel task =>
    simp only [step,Commands.cancel]
    split <;> exact ⟨rfl,rfl,rfl⟩
  | request task =>
    simp only [step,Agents.request]
    split
    · split <;> exact ⟨rfl,rfl,rfl⟩
    · exact ⟨rfl,rfl,rfl⟩
  | _ => exact ⟨rfl,rfl,rfl⟩

theorem read_cases (s : Commands) (socket conn : Nat) (text : String)
    (parsed : Option CommandResult) :
    s.read socket conn text parsed =
        { s with nextSeq := s.nextSeq+1, log := .sent ⟨conn,s.nextSeq,text⟩ :: s.log } ∨
      ∃ result call, parsed = some result ∧ result.kind = "result" ∧
        s.awaiting.get? result.id = some (result.id,call) ∧
        s.read socket conn text parsed = { s with
          awaiting := s.awaiting.erase result.id
          held := s.held.put ⟨socket,call,⟨conn,s.nextSeq,text⟩⟩
          nextSeq := s.nextSeq+1
          log := .sent ⟨conn,s.nextSeq,text⟩ :: s.log } := by
  unfold Commands.read
  dsimp only
  split
  · exact .inl rfl
  · next result =>
    split
    · next hkind =>
      split
      · next id call hwait =>
        have hid : id = result.id := Table.key_of_get? hwait
        exact .inr ⟨result,call,rfl,hkind,hid ▸ hwait,rfl⟩
      · exact .inl rfl
    · exact .inl rfl

private theorem deliver_log (s : Commands) (socket : Nat) :
    (s.deliver socket).log = s.log ∧ (s.deliver socket).nextSeq = s.nextSeq := by
  unfold Commands.deliver
  split
  · exact ⟨rfl,rfl⟩
  · dsimp only
    split
    · split <;> exact ⟨rfl,rfl⟩
    · exact ⟨rfl,rfl⟩

theorem log_step (s : Agents) (a : Action) :
    (step s a).commands.log = s.commands.log ∨
      (∃ call conn envelope, Queued s conn (.command call envelope) ∧
        (step s a).commands.log = .handed call conn :: s.commands.log) ∨
      ∃ reply, (step s a).commands.log = .sent reply :: s.commands.log := by
  by_cases ha : a.quiet
  · exact .inl (quiet_step s ha).2.2
  · cases a with
    | written conn =>
      simp only [step,Agents.written]
      split
      · next n ms call envelope closed hq =>
        have hn := Table.key_of_get? hq
        subst hn
        exact .inr (.inl ⟨call,n,envelope,⟨_,hq,.inr rfl⟩,rfl⟩)
      · exact .inl rfl
      · exact .inl rfl
    | read socket text parsed =>
      simp only [step,Agents.read]
      split
      · next conn _ _ =>
        rcases read_cases s.commands socket conn text parsed with h | ⟨_,_,_,_,_,h⟩
        · exact .inr (.inr ⟨_,congrArg Commands.log h⟩)
        · exact .inr (.inr ⟨_,congrArg Commands.log h⟩)
      · exact .inl rfl
    | deliver socket => exact .inl (deliver_log s.commands socket).1
    | _ => exact absurd rfl ha

theorem envelopes_step {s : Agents} (h : Envelopes s) (hsound : s.registry.Sound) (a : Action) :
    Envelopes (step s a) := by
  constructor
  · intro k c conn hc hstage
    exact found_step h hsound a hc hstage
  · intro conn call envelope hq
    exact chosen_step (queued_step h a hq) a
  · intro call conn hmem
    rcases log_step s a with hlog | ⟨k,n,envelope,hq,hlog⟩ | ⟨reply,hlog⟩
    · rw [hlog] at hmem
      exact chosen_step (h.handed call conn hmem) a
    · rw [hlog] at hmem
      rcases List.mem_cons.mp hmem with he | hmem
      · obtain ⟨rfl,rfl⟩ := Event.handed.inj he
        exact chosen_step (h.queued conn call envelope hq) a
      · exact chosen_step (h.handed call conn hmem) a
    · rw [hlog] at hmem
      rcases List.mem_cons.mp hmem with he | hmem
      · exact absurd he (by simp)
      · exact chosen_step (h.handed call conn hmem) a

inductive Place
  | held (socket : Nat)
  | slot (call : Nat)
  deriving DecidableEq

def Carries (s : Commands) : Place → Reply → Nat → Prop
  | .held k, reply, call => s.held.get? k = some ⟨k,call,reply⟩
  | .slot k, reply, call => k = call ∧ ∃ c, s.calls.get? k = some c ∧ c.slot = some reply

/-- The frame came over its connection after the call's envelope had gone out on it. -/
def Answers (log : List Event) (call : Nat) (reply : Reply) : Prop :=
  ∃ later earlier, log = later ++ .sent reply :: earlier ∧ .handed call reply.conn ∈ earlier

theorem Answers.cons {log : List Event} {call : Nat} {reply : Reply} (h : Answers log call reply)
    (e : Event) : Answers (e :: log) call reply := by
  obtain ⟨later,earlier,hlog,hmem⟩ := h
  exact ⟨e :: later,earlier,congrArg (e :: ·) hlog,hmem⟩

structure Apart (s : Commands) : Prop where
  bounded : ∀ p x call, Carries s p x call → x.seq < s.nextSeq
  once : ∀ p q x y call other, Carries s p x call → Carries s q y other → x.seq = y.seq → p = q
  returned : ∀ k c reply, s.calls.get? k = some c → c.stage = .returned (.ok reply) →
    c.slot = some reply

theorem answers_step {s : Agents} {call : Nat} {reply : Reply}
    (h : Answers s.commands.log call reply) (a : Action) :
    Answers (step s a).commands.log call reply := by
  rcases log_step s a with hlog | ⟨_,_,_,_,hlog⟩ | ⟨_,hlog⟩
  · rw [hlog]
    exact h
  · rw [hlog]
    exact h.cons _
  · rw [hlog]
    exact h.cons _

private theorem apart_moves {s s' : Commands} (h : Apart s) (f : Place → Place)
    (hf : ∀ p x call, Carries s' p x call → Carries s (f p) x call)
    (hinj : ∀ p q x y call other, Carries s' p x call → Carries s' q y other → f p = f q → p = q)
    (hnext : s.nextSeq ≤ s'.nextSeq)
    (hreturned : ∀ k c reply, s'.calls.get? k = some c → c.stage = .returned (.ok reply) →
      c.slot = some reply) : Apart s' := by
  constructor
  · intro p x call hp
    exact Nat.lt_of_lt_of_le (h.bounded (f p) x call (hf p x call hp)) hnext
  · intro p q x y call other hp hq hseq
    apply hinj p q x y call other hp hq
    exact h.once (f p) (f q) x y call other (hf p x call hp) (hf q y other hq) hseq
  · exact hreturned

private theorem returned_step {s : Agents} (h : Apart s.commands) (a : Action) {k : Nat} {c : Call}
    {reply : Reply} (hc : (step s a).commands.calls.get? k = some c)
    (hstage : c.stage = .returned (.ok reply)) : c.slot = some reply := by
  have hmoved := moved_step s a
  generalize (step s a).commands.calls = t at hmoved hc
  cases hmoved with
  | same => exact h.returned k c reply hc hstage
  | began d _ _ _ _ hreply =>
    rw [Table.get?_put] at hc
    split at hc
    · rw [← Option.some.inj hc] at hstage
      exact absurd hstage (hreply reply)
    · exact h.returned k c reply hc hstage
  | went d stage _ _ _ hreply =>
    rw [Table.get?_put] at hc
    split at hc
    · rw [← Option.some.inj hc] at hstage ⊢
      exact hreply reply hstage
    · exact h.returned k c reply hc hstage
  | filled _ held d _ _ _ hlisten =>
    rw [Table.get?_put] at hc
    split at hc
    · rw [← Option.some.inj hc] at hstage
      have hd : d.stage = .returned (.ok reply) := hstage
      rw [hd] at hlisten
      simp [CallStage.listening] at hlisten
    · exact h.returned k c reply hc hstage

private theorem slot_step {s : Agents} {a : Action} (ha : ∀ k, a ≠ .deliver k) {k : Nat} {x : Reply}
    {call : Nat} (hx : Carries (step s a).commands (.slot k) x call) :
    Carries s.commands (.slot k) x call := by
  obtain ⟨hk,c,hc,hslot⟩ := hx
  have hmoved := moved_step s a
  generalize (step s a).commands.calls = t at hmoved hc
  cases hmoved with
  | same => exact ⟨hk,c,hc,hslot⟩
  | began d _ hnone _ _ _ =>
    rw [Table.get?_put] at hc
    split at hc
    · rw [← Option.some.inj hc,hnone] at hslot
      exact absurd hslot (by simp)
    · exact ⟨hk,c,hc,hslot⟩
  | went d stage hd _ _ _ =>
    rw [Table.get?_put] at hc
    split at hc
    · next he =>
      rw [← Option.some.inj hc] at hslot
      exact ⟨hk,d,he ▸ hd,hslot⟩
    · exact ⟨hk,c,hc,hslot⟩
  | filled j _ _ hj _ _ _ => exact absurd hj (ha j)

private theorem apart_fewer {s s' : Commands} (h : Apart s)
    (hheld : ∀ k x, s'.held.get? k = some x → s.held.get? k = some x)
    (hslots : ∀ k x call, Carries s' (.slot k) x call → Carries s (.slot k) x call)
    (hnext : s.nextSeq ≤ s'.nextSeq)
    (hreturned : ∀ k c reply, s'.calls.get? k = some c → c.stage = .returned (.ok reply) →
      c.slot = some reply) : Apart s' := by
  apply apart_moves h id _ _ hnext hreturned
  · intro p x call hp
    cases p with
    | held k => exact hheld k _ hp
    | slot k => exact hslots k x call hp
  · intro p q x y call other _ _ he
    exact he

private theorem apart_taken {s : Commands} (h : Apart s) {socket call : Nat} {reply : Reply}
    (hseq : reply.seq = s.nextSeq) {s' : Commands} (hheld : s'.held = s.held.put ⟨socket,call,reply⟩)
    (hcalls : s'.calls = s.calls) (hnext : s'.nextSeq = s.nextSeq+1) : Apart s' := by
  have hold : ∀ p x k, Carries s' p x k →
      (p = .held socket ∧ x.seq = s.nextSeq) ∨ Carries s p x k := by
    intro p x k hp
    cases p with
    | held j =>
      rw [Carries,hheld,Table.get?_put] at hp
      split at hp
      · next he =>
        have heq := Held.mk.inj (Option.some.inj hp)
        have hj : socket = j := he
        have hx : reply = x := heq.2.2
        exact .inl ⟨congrArg Place.held hj.symm,hx ▸ hseq⟩
      · exact .inr hp
    | slot j =>
      rw [Carries,hcalls] at hp
      exact .inr hp
  constructor
  · intro p x k hp
    rw [hnext]
    rcases hold p x k hp with ⟨_,hx⟩ | hp
    · omega
    · have hlt := h.bounded p x k hp
      omega
  · intro p q x y k other hp hq hxy
    rcases hold p x k hp with ⟨hpe,hx⟩ | hp
    · rcases hold q y other hq with ⟨hqe,_⟩ | hq
      · rw [hpe,hqe]
      · have hlt := h.bounded q y other hq
        omega
    · rcases hold q y other hq with ⟨_,hy⟩ | hq
      · have hlt := h.bounded p x k hp
        omega
      · exact h.once p q x y k other hp hq hxy
  · rw [hcalls]
    exact h.returned

theorem deliver_cases (s : Commands) (socket : Nat) :
    s.deliver socket = s ∨ ∃ h, s.held.get? socket = some h ∧
      (s.deliver socket = { s with held := s.held.erase socket } ∨
        ∃ c, s.calls.get? h.call = some c ∧ s.deliver socket = { s with
          held := s.held.erase socket
          calls := s.calls.put { c with slot := some h.reply } }) := by
  unfold Commands.deliver
  split
  · exact .inl rfl
  · next h hheld =>
    refine .inr ⟨h,hheld,?_⟩
    dsimp only
    split
    · next c hc =>
      split
      · exact .inr ⟨c,hc,rfl⟩
      · exact .inl rfl
    · exact .inl rfl

private theorem carries_delivered {s : Commands} {socket : Nat} {h : Held} {c : Call} (hc : s.calls.get? h.call = some c)
    {s' : Commands} (hheld' : s'.held = s.held.erase socket)
    (hcalls : s'.calls = s.calls.put { c with slot := some h.reply }) {p : Place} {x : Reply}
    {call : Nat} (hp : Carries s' p x call) :
    (p = .slot h.call ∧ x = h.reply ∧ call = h.call) ∨
      (p ≠ .slot h.call ∧ p ≠ .held socket ∧ Carries s p x call) := by
  have htask : c.task = h.call := Table.key_of_get? hc
  cases p with
  | held k =>
    rw [Carries,hheld',Table.get?_erase] at hp
    split at hp
    · exact absurd hp (by simp)
    · next hne => exact .inr ⟨by simp,fun he => hne (Place.held.inj he).symm,hp⟩
  | slot k =>
    obtain ⟨hk,d,hd,hslot⟩ := hp
    rw [hcalls,Table.get?_put] at hd
    split at hd
    · next he =>
      have hkc : k = h.call := he.symm.trans htask
      rw [← Option.some.inj hd] at hslot
      exact .inl ⟨congrArg Place.slot hkc,(Option.some.inj hslot).symm,hk.symm.trans hkc⟩
    · next hne =>
      refine .inr ⟨fun he => hne ?_,by simp,hk,d,hd,hslot⟩
      exact htask.trans (Place.slot.inj he).symm

private theorem apart_delivered {s : Agents} (h : Apart s.commands) {socket : Nat} {held : Held}
    (hheld : s.commands.held.get? socket = some held) {c : Call}
    (hc : s.commands.calls.get? held.call = some c)
    (hstep : s.commands.deliver socket = { s.commands with
      held := s.commands.held.erase socket
      calls := s.commands.calls.put { c with slot := some held.reply } }) :
    Apart (s.commands.deliver socket) := by
  have hcases : ∀ {p x call}, Carries (s.commands.deliver socket) p x call →
      (p = .slot held.call ∧ x = held.reply ∧ call = held.call) ∨
        (p ≠ .slot held.call ∧ p ≠ .held socket ∧ Carries s.commands p x call) := by
    intro p x call hp
    exact carries_delivered hc (congrArg Commands.held hstep) (congrArg Commands.calls hstep) hp
  have hsocket : held.socket = socket := Table.key_of_get? hheld
  have hhand : Carries s.commands (.held socket) held.reply held.call := by
    rw [Carries,hheld,← hsocket]
  apply apart_moves h (fun p => if p = .slot held.call then .held socket else p)
  · intro p x call hp
    rcases hcases hp with ⟨rfl,rfl,rfl⟩ | ⟨hne,_,hp⟩
    · rw [if_pos rfl]
      exact hhand
    · rw [if_neg hne]
      exact hp
  · intro p q x y call other hp hq he
    rcases hcases hp with ⟨rfl,_,_⟩ | ⟨hpne,hph,_⟩
    · rcases hcases hq with ⟨rfl,_,_⟩ | ⟨hqne,hqh,_⟩
      · rfl
      · rw [if_pos rfl,if_neg hqne] at he
        exact absurd he.symm hqh
    · rcases hcases hq with ⟨rfl,_,_⟩ | ⟨hqne,hqh,_⟩
      · rw [if_neg hpne,if_pos rfl] at he
        exact absurd he hph
      · rwa [if_neg hpne,if_neg hqne] at he
  · exact Nat.le_of_eq (deliver_log s.commands socket).2.symm
  · intro k d reply
    exact returned_step h (.deliver socket)

private theorem apart_read {s : Commands} (h : Apart s) (socket conn : Nat) (text : String)
    (parsed : Option CommandResult) : Apart (s.read socket conn text parsed) := by
  rcases read_cases s socket conn text parsed with he | ⟨_,call,_,_,_,he⟩
  · rw [he]
    exact apart_fewer h (fun _ _ hx => hx) (fun _ _ _ hx => hx) (Nat.le_succ _) h.returned
  · rw [he]
    exact apart_taken h rfl rfl rfl rfl

private theorem apart_lost {s : Commands} (h : Apart s) (socket : Nat) :
    Apart { s with held := s.held.erase socket } := by
  have hkept : ∀ k x, (s.held.erase socket).get? k = some x → s.held.get? k = some x := by
    intro k x hx
    rw [Table.get?_erase] at hx
    split at hx
    · exact absurd hx (by simp)
    · exact hx
  exact apart_fewer h hkept (fun _ _ _ hx => hx) (Nat.le_refl _) h.returned

theorem apart_step {s : Agents} (h : Apart s.commands) (a : Action) :
    Apart (step s a).commands := by
  by_cases ha : a.quiet
  · obtain ⟨hheld,hnext,_⟩ := quiet_step s ha
    have hdeliver : ∀ k, a ≠ .deliver k := by
      rintro k rfl
      simp [Action.quiet] at ha
    apply apart_fewer h _ (fun k x call => slot_step hdeliver) (Nat.le_of_eq hnext.symm)
      (fun k c reply => returned_step h a)
    rw [hheld]
    exact fun k x hx => hx
  · cases a with
    | written conn =>
      simp only [step,Agents.written]
      split
      · exact apart_fewer h (fun _ _ hx => hx) (fun _ _ _ hx => hx) (Nat.le_refl _) h.returned
      · exact h
      · exact h
    | read socket text parsed =>
      simp only [step,Agents.read]
      split
      · exact apart_read h _ _ _ _
      · exact h
    | deliver socket =>
      rcases deliver_cases s.commands socket with he | ⟨held,hheld,he | ⟨c,hc,he⟩⟩
      · simp only [step,he]
        exact h
      · simp only [step,he]
        exact apart_lost h socket
      · exact apart_delivered h hheld hc he
    | _ => exact absurd rfl ha

/-- A result that names a waiting command comes from where its envelope has gone. -/
def answering (s : Agents) : Action → Bool
  | .read socket _ (some ⟨kind,id⟩) =>
    match s.registry.connections.get? socket, s.commands.awaiting.get? id with
    | some ⟨_,_,_,.serving conn⟩, some (_,call) =>
      kind = "result" → .handed call conn ∈ s.commands.log
    | _, _ => true
  | _ => true

def Answered (s : Commands) : Prop := ∀ p x call, Carries s p x call → Answers s.log call x

private theorem answered_taken {s : Commands} (h : Answered s) {socket call : Nat} {reply : Reply}
    (hhanded : .handed call reply.conn ∈ s.log) {s' : Commands}
    (hheld : s'.held = s.held.put ⟨socket,call,reply⟩) (hcalls : s'.calls = s.calls)
    (hlog : s'.log = .sent reply :: s.log) : Answered s' := by
  intro p x k hp
  cases p with
  | held j =>
    rw [Carries,hheld,Table.get?_put] at hp
    split at hp
    · have heq := Held.mk.inj (Option.some.inj hp)
      rw [← heq.2.1,← heq.2.2]
      exact ⟨[],s.log,hlog,hhanded⟩
    · rw [hlog]
      exact (h (.held j) x k hp).cons _
  | slot j =>
    rw [Carries,hcalls] at hp
    rw [hlog]
    exact (h (.slot j) x k hp).cons _

private theorem answered_read {s : Agents} (h : Answered s.commands) (socket : Nat) (text : String)
    (parsed : Option CommandResult) (hok : answering s (.read socket text parsed)) :
    Answered (s.read socket text parsed).commands := by
  unfold Agents.read
  split
  · next t agentId account conn hc _ =>
    rcases read_cases s.commands socket conn text parsed with he | ⟨result,call,rfl,hkind,hwait,he⟩
    · simp only [he]
      exact fun p x call hp => (h p x call hp).cons _
    · simp only [answering,hc,hwait,hkind,true_imp_iff,decide_eq_true_eq] at hok
      simp only [he]
      exact answered_taken h hok rfl rfl rfl
  · exact h

theorem answered_step {s : Agents} (h : Answered s.commands) {a : Action} (hok : answering s a) :
    Answered (step s a).commands := by
  intro p x call hp
  by_cases ha : a.quiet
  · obtain ⟨hheld,_,_⟩ := quiet_step s ha
    have hdeliver : ∀ k, a ≠ .deliver k := by
      rintro k rfl
      simp [Action.quiet] at ha
    apply answers_step
    cases p with
    | held k =>
      rw [Carries,hheld] at hp
      exact h (.held k) x call hp
    | slot k => exact h (.slot k) x call (slot_step hdeliver hp)
  · cases a with
    | written conn =>
      apply answers_step
      simp only [step,Agents.written] at hp
      split at hp <;> exact h p x call hp
    | read socket text parsed => exact answered_read h socket text parsed hok p x call hp
    | deliver socket =>
      apply answers_step
      rcases deliver_cases s.commands socket with he | ⟨held,hheld,he | ⟨c,hc,he⟩⟩
      · simp only [step,he] at hp
        exact h p x call hp
      · simp only [step,he] at hp
        cases p with
        | held k =>
          rw [Carries,Table.get?_erase] at hp
          split at hp
          · exact absurd hp (by simp)
          · exact h (.held k) x call hp
        | slot k => exact h (.slot k) x call hp
      · rcases carries_delivered hc (congrArg Commands.held he) (congrArg Commands.calls he) hp with
          ⟨_,rfl,rfl⟩ | ⟨_,_,hp⟩
        · have hsocket : held.socket = socket := Table.key_of_get? hheld
          apply h (.held socket)
          rw [Carries,hheld,← hsocket]
        · exact h p x call hp
    | _ => exact absurd rfl ha

/-- What holds in every run, whatever the agents say. -/
structure Couriered (s : Agents) : Prop where
  sound : s.registry.Sound
  envelopes : Envelopes s
  apart : Apart s.commands

theorem couriered_run (as : List Action) : Couriered (runActs step start as) := by
  refine invariant_runActs Couriered ?_ ?_ (along_true step start as)
  · intro s a h _
    exact ⟨registry_step h.sound a,envelopes_step h.envelopes h.sound a,apart_step h.apart a⟩
  · refine ⟨registry_run [],⟨?_,?_,?_⟩,⟨?_,?_,?_⟩⟩
    · simp [start]
    · rintro conn call envelope ⟨q,hq,_⟩
      simp [start] at hq
    · simp [start]
    · rintro (k | k) x call hp <;> simp [start,Carries] at hp
    · rintro (k | k) q x y call other hp <;> simp [start,Carries] at hp
    · simp [start]

/-- Among agents that answer only what went out to them, a call gets its own agent's answer. -/
theorem answered_by_agent (as : List Action)
    (h : Along step (fun s a => answering s a) start as) :
    let s := runActs step start as
    (∀ k c reply, s.commands.calls.get? k = some c → c.stage = .returned (.ok reply) →
      s.registry.Authenticated reply.conn c.agentId c.account ∧ Answers s.commands.log k reply) ∧
    (∀ j k c d x y, s.commands.calls.get? j = some c → s.commands.calls.get? k = some d →
      c.stage = .returned (.ok x) → d.stage = .returned (.ok y) → x.seq = y.seq → j = k) := by
  intro s
  have hrun : Couriered s := couriered_run as
  have hstart : Answered start.commands := by
    rintro (k | k) x call hp <;> simp [start,Carries] at hp
  have hanswered : Answered s.commands :=
    invariant_runActs (fun s => Answered s.commands) (fun s a h hok => answered_step h hok) hstart h
  have hslot : ∀ k c reply, s.commands.calls.get? k = some c → c.stage = .returned (.ok reply) →
      Carries s.commands (.slot k) reply k := by
    intro k c reply hc hstage
    exact ⟨rfl,c,hc,hrun.apart.returned k c reply hc hstage⟩
  constructor
  · intro k c reply hc hstage
    have hanswers := hanswered _ _ _ (hslot k c reply hc hstage)
    refine ⟨?_,hanswers⟩
    obtain ⟨later,earlier,hlog,hmem⟩ := hanswers
    have hhanded : .handed k reply.conn ∈ s.commands.log := by
      rw [hlog]
      exact List.mem_append_right later (List.mem_cons_of_mem _ hmem)
    obtain ⟨d,hd,hauth⟩ := hrun.envelopes.handed k reply.conn hhanded
    rw [hc] at hd
    rw [Option.some.inj hd]
    exact hauth
  · intro j k c d x y hc hd hcs hds hseq
    have he := hrun.apart.once _ _ x y j k (hslot j c x hc hcs) (hslot k d y hd hds) hseq
    exact Place.slot.inj he

/-- The machines `m` of `u` and `x` of `v` connect, and `m` is sent a command. -/
def commanded : List Action :=
  [.authenticate 0 "m" (.ok (200,.ok ⟨true,some "u",none⟩)),.number 0,.register 0,
    .authenticate 1 "x" (.ok (200,.ok ⟨true,some "v",none⟩)),.number 1,.register 1,
    .command 7 "u" "m" "c" "e",.insert 7,.send 7,.take 0,.written 0]

def resultText : String := "\x7b\"type\":\"result\",\"id\":\"c\",\"ok\":true\x7d"

def replied (socket : Nat) : List Action :=
  commanded ++ [.read socket resultText (some ⟨"result","c"⟩),.deliver socket,.receive 7]

theorem answered_by_agent_demo : let s := runActs step start (replied 0)
    s.registry.Authenticated 0 "m" "u" ∧ Answers s.commands.log 7 ⟨0,0,resultText⟩ := by
  have h := answered_by_agent (replied 0) (by decide +kernel)
  exact h.1 7 ⟨7,"u","m","c","e",some ⟨0,0,resultText⟩,.returned (.ok ⟨0,0,resultText⟩)⟩ _
    (by decide +kernel) rfl

/-- Another account's machine answers, and the call returns its answer. -/
theorem answered_by_stranger : let s := runActs step start (replied 1)
    (∃ c, s.commands.calls.get? 7 = some c ∧ c.agentId = "m" ∧ c.account = "u" ∧
      c.stage = .returned (.ok ⟨1,0,resultText⟩)) ∧
    ¬s.registry.Authenticated 1 "m" "u" := by
  constructor
  · exact ⟨⟨7,"u","m","c","e",some ⟨1,0,resultText⟩,.returned (.ok ⟨1,0,resultText⟩)⟩,
      by decide +kernel,rfl,rfl,rfl⟩
  · rintro ⟨k,c,hc,hagent,_,hconn⟩
    have hrows : (runActs step start (replied 1)).registry.connections.rows =
        [⟨0,"m","u",.serving 0⟩,⟨1,"x","v",.serving 1⟩] := by decide +kernel
    have hmem := Table.mem_of_get? hc
    rw [hrows] at hmem
    rcases List.mem_cons.mp hmem with rfl | hmem
    · exact absurd hconn (by decide)
    · rw [List.mem_singleton.mp hmem] at hagent
      exact absurd hagent (by decide)

end WeirdVault.Relay.Agent
