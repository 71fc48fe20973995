import WeirdVault.Agent.Command

/-! # Replay of signed commands over the life of an identity -/

namespace WeirdVault.Agent

open WeirdVault.Framework

/-- What the control plane signed. It mints ids, commands and nonces without line breaks. -/
structure Envelope where
  agentID : String
  command : String
  nonce : String
  expiresAt : Int
  lines : ∀ s ∈ [agentID,command,nonce], '\n' ∉ s.toList

structure State where
  identity : Identity
  now : Int
  signed : List Envelope
  /-- Every message `verifyCommand` accepted, newest first. -/
  accepted : List ControlMessage

inductive Action
  | sign (e : Envelope)
  /-- The relay delivers anything, at a reading of the agent's clock. -/
  | deliver (msg : ControlMessage) (now : Int)
  | trust (encoded : String)
  /-- The process starts again: `supervisor.start` reads the config and makes a new nonce map. -/
  | start (commandKeys : List String) (now : Int)

def step (P : Platform) (st : State) : Action → State
  | .sign e => { st with signed := e :: st.signed }
  | .deliver msg now =>
    match st.identity.verifyCommand P msg now with
    | (.ok _,id) => { st with identity := id, now := now, accepted := msg :: st.accepted }
    | (.error _,id) => { st with identity := id, now := now }
  | .trust encoded =>
    let cfg := st.identity.cfg
    { st with identity.cfg := { cfg with commandKeys := cfg.commandKeys ++ [encoded] } }
  | .start commandKeys now =>
    { st with
      identity := ⟨{ st.identity.cfg with commandKeys := commandKeys },newSeenNonces⟩, now := now }

def enrolled (cfg : Config) (now : Int) : State := ⟨⟨cfg,newSeenNonces⟩,now,[],[]⟩

/-- Nonces are drawn fresh, signatures cannot be forged and the agent's clock does not run back. -/
def Genuine (P : Platform) (st : State) : Action → Prop
  | .sign e => ∀ e' ∈ st.signed, e'.nonce ≠ e.nonce
  | .deliver msg now => st.now ≤ now ∧
      (st.identity.verifies P msg → ∃ e ∈ st.signed,
        signingMessageFor st.identity.cfg.agentID msg.command msg.nonce msg.expiresAt =
          signingMessageFor e.agentID e.command e.nonce e.expiresAt)
  | .trust _ => True
  | .start _ now => st.now ≤ now

instance (P : Platform) (st : State) : (a : Action) → Decidable (Genuine P st a)
  | .sign _ => inferInstanceAs (Decidable (∀ e' ∈ st.signed, _))
  | .deliver _ _ => inferInstanceAs (Decidable (_ ∧ (_ → ∃ e ∈ st.signed, _)))
  | .trust _ => .isTrue trivial
  | .start _ now => inferInstanceAs (Decidable (st.now ≤ now))

/-- A signed message is remembered for as long as the expiry check lets it through, and the map is
not lost while it does. -/
def Timely (P : Platform) (st : State) : Action → Prop
  | .deliver msg now => st.identity.verifies P msg →
      expiryOf msg.expiresAt + commandClockSkew ≤ now + nonceMemory
  | .start _ now => ∀ msg ∈ st.accepted, expiryOf msg.expiresAt + commandClockSkew < now
  | _ => True

instance (P : Platform) (st : State) : (a : Action) → Decidable (Timely P st a)
  | .deliver _ _ => inferInstanceAs (Decidable (_ → _))
  | .start _ _ => inferInstanceAs (Decidable (∀ msg ∈ st.accepted, _))
  | .sign _ => .isTrue trivial
  | .trust _ => .isTrue trivial

private theorem digits_line (n : Nat) : '\n' ∉ (Nat.toDigits 10 n) := by
  intro h
  have hd := Nat.isDigit_of_mem_toDigits (by decide) (by decide) h
  revert hd
  decide

private theorem toString_line (x : Int) : '\n' ∉ (toString x).toList := by
  rw [Int.toString_eq_repr,Int.repr_eq_if]
  split
  · rw [Nat.toList_repr]
    exact digits_line _
  · rw [String.toList_append,Nat.toList_repr,List.mem_append]
    rintro (h | h)
    · revert h
      decide
    · exact digits_line _ h

private theorem digits_inj {m n : Nat} (h : Nat.toDigits 10 m = Nat.toDigits 10 n) : m = n := by
  calc m = Nat.ofDigitChars 10 (Nat.toDigits 10 m) 0 := Nat.ofDigitChars_ten_toDigits.symm
    _ = Nat.ofDigitChars 10 (Nat.toDigits 10 n) 0 := by rw [h]
    _ = n := Nat.ofDigitChars_ten_toDigits

private theorem repr_ne_minus (m n : Nat) : m.repr ≠ "-" ++ n.repr := by
  intro h
  have hd := congrArg String.toList h
  rw [String.toList_append,Nat.toList_repr] at hd
  have hmem : '-' ∈ Nat.toDigits 10 m := by
    rw [hd]
    simp
  have hdig := Nat.isDigit_of_mem_toDigits (by decide) (by decide) hmem
  revert hdig
  decide

private theorem toString_inj {x y : Int} (h : toString x = toString y) : x = y := by
  rw [Int.toString_eq_repr,Int.toString_eq_repr,Int.repr_eq_if,Int.repr_eq_if] at h
  split at h <;> split at h
  · have hd := digits_inj (by simpa using congrArg String.toList h)
    omega
  · exact absurd h (repr_ne_minus _ _)
  · exact absurd h.symm (repr_ne_minus _ _)
  · have hd := digits_inj (by simpa [String.toList_append] using congrArg String.toList h)
    omega

theorem toList_signingMessageFor (agentID command nonce : String) (expiresAt : Int) :
    (signingMessageFor agentID command nonce expiresAt).toList =
      ['\n'].intercalate [messageDomain.toList,agentID.toList,command.toList,nonce.toList,
        (toString expiresAt).toList] := by
  have hbreak : "\n".toList = ['\n'] := rfl
  unfold signingMessageFor
  simp only [String.toList_append,List.intercalate_cons_cons,List.intercalate_singleton,
    List.append_assoc]
  rw [hbreak]

theorem signingMessageFor_unique {agentID command nonce : String} {expiresAt : Int} {e : Envelope}
    (h : signingMessageFor agentID command nonce expiresAt =
      signingMessageFor e.agentID e.command e.nonce e.expiresAt) :
    agentID = e.agentID ∧ command = e.command ∧ nonce = e.nonce ∧ expiresAt = e.expiresAt := by
  have hl := congrArg String.toList h.symm
  rw [toList_signingMessageFor,toList_signingMessageFor] at hl
  have hfree : ∀ l ∈ [messageDomain.toList,e.agentID.toList,e.command.toList,
      e.nonce.toList,(toString e.expiresAt).toList], '\n' ∉ l := by
    intro l hl
    simp only [List.mem_cons,List.not_mem_nil,or_false] at hl
    rcases hl with rfl | rfl | rfl | rfl | rfl
    · decide
    · exact e.lines _ (by simp)
    · exact e.lines _ (by simp)
    · exact e.lines _ (by simp)
    · exact toString_line _
  have he := intercalate_unique (by simp) hfree hl
  simp only [List.cons.injEq,String.toList_inj,and_true,true_and] at he
  exact ⟨he.1.symm,he.2.1.symm,he.2.2.1.symm,(toString_inj he.2.2.2).symm⟩

/-- What acceptance means: a genuine signature, a nonce that is not remembered, and a clock that
has not passed the expiry. -/
theorem verifyCommand_ok {P : Platform} {id id' : Identity} {msg : ControlMessage} {now : Int}
    {command : String} (h : id.verifyCommand P msg now = (.ok command,id')) :
    id.verifies P msg ∧ now ≤ expiryOf msg.expiresAt + commandClockSkew ∧
      id.nonces.remember msg.nonce now = (true,id'.nonces) ∧ id'.cfg = id.cfg := by
  unfold Identity.verifyCommand at h
  split at h; · simp at h
  split at h; · simp at h
  split at h; · simp at h
  split at h; · simp at h
  split at h; · simp at h
  rename_i hexp
  split at h; · simp at h
  rename_i sig hsig
  dsimp only at h
  split at h; · simp at h
  rename_i hver
  split at h
  · simp at h
  · rename_i nonces hrem
    simp only [Prod.mk.injEq,Except.ok.injEq] at h
    obtain ⟨-,rfl⟩ := h
    refine ⟨?_,Int.not_lt.mp hexp,hrem,rfl⟩
    simpa [Identity.verifies,hsig] using hver

theorem verifyCommand_error {P : Platform} {id id' : Identity} {msg : ControlMessage} {now : Int}
    {reason : String} (h : id.verifyCommand P msg now = (.error reason,id')) :
    id'.cfg = id.cfg ∧
      (id'.nonces = id.nonces ∨ id.nonces.remember msg.nonce now = (false,id'.nonces)) := by
  unfold Identity.verifyCommand at h
  split at h; · simp at h; simp [← h.2]
  split at h; · simp at h; simp [← h.2]
  split at h; · simp at h; simp [← h.2]
  split at h; · simp at h; simp [← h.2]
  split at h; · simp at h; simp [← h.2]
  split at h; · simp at h; simp [← h.2]
  dsimp only at h
  split at h; · simp at h; simp [← h.2]
  split at h
  · rename_i nonces hrem
    simp only [Prod.mk.injEq,Except.error.injEq] at h
    obtain ⟨-,rfl⟩ := h
    exact ⟨rfl,Or.inr hrem⟩
  · simp at h

theorem remember_true {s t : SeenNonces} {nonce : String} {now : Int}
    (h : s.remember nonce now = (true,t)) :
    (∀ e, s.get? nonce = some e → now - e.2 > nonceMemory) ∧ t.get? nonce = some (nonce,now) ∧
      ∀ k e, k ≠ nonce → s.get? k = some e → now - e.2 ≤ nonceMemory → t.get? k = some e := by
  unfold SeenNonces.remember at h
  dsimp only at h
  split at h
  · simp at h
  · rename_i hnone
    simp only [Prod.mk.injEq,true_and] at h
    subst h
    rw [Table.get?_keep] at hnone
    refine ⟨?_,Table.get?_put_self _ (nonce,now),?_⟩
    · intro e he
      by_contra hle
      have hkept : now - e.2 ≤ nonceMemory := by omega
      simp [he,Option.filter,hkept] at hnone
    · intro k e hk he hle
      rw [Table.get?_put_of_ne _ (Ne.symm hk),Table.get?_keep,he]
      simp [Option.filter,hle]

theorem remember_false {s t : SeenNonces} {nonce : String} {now : Int}
    (h : s.remember nonce now = (false,t)) :
    ∀ k e, s.get? k = some e → now - e.2 ≤ nonceMemory → t.get? k = some e := by
  unfold SeenNonces.remember at h
  dsimp only at h
  split at h
  · simp only [Prod.mk.injEq,true_and] at h
    subst h
    intro k e he hle
    rw [Table.get?_keep,he]
    simp [Option.filter,hle]
  · simp at h

/-- A spent nonce is refused: its command has expired, or the map holds it until it has. -/
def Spent (st : State) (msg : ControlMessage) : Prop :=
  expiryOf msg.expiresAt + commandClockSkew < st.now ∨
    ∃ spentAt, st.identity.nonces.get? msg.nonce = some (msg.nonce,spentAt) ∧
      expiryOf msg.expiresAt + commandClockSkew ≤ spentAt + nonceMemory

structure Inv (st : State) : Prop where
  fresh : ∀ e ∈ st.signed, ∀ e' ∈ st.signed, e.nonce = e'.nonce → e = e'
  signed : ∀ msg ∈ st.accepted, ∃ e ∈ st.signed,
    msg.nonce = e.nonce ∧ msg.expiresAt = e.expiresAt
  spent : ∀ msg ∈ st.accepted, Spent st msg
  once : (st.accepted.map (·.nonce)).Nodup

private theorem inv_enrolled (cfg : Config) (now : Int) : Inv (enrolled cfg now) := by
  refine ⟨?_,?_,?_,List.nodup_nil⟩ <;> simp [enrolled]

private theorem Spent.mono {st st' : State} {msg : ControlMessage} (h : Spent st msg)
    (hnow : st.now ≤ st'.now)
    (hkept : ∀ e, st.identity.nonces.get? msg.nonce = some e → st'.now - e.2 ≤ nonceMemory →
      st'.identity.nonces.get? msg.nonce = some e) : Spent st' msg := by
  rcases h with h | ⟨spentAt,hget,hle⟩
  · exact Or.inl (by omega)
  · by_cases hold : st'.now - spentAt ≤ nonceMemory
    · exact Or.inr ⟨spentAt,hkept _ hget hold,hle⟩
    · exact Or.inl (by omega)

private theorem inv_sign {P : Platform} {st : State} {e : Envelope} (h : Inv st)
    (hg : Genuine P st (.sign e)) : Inv (step P st (.sign e)) := by
  refine ⟨?_,?_,h.spent,h.once⟩
  · intro a ha b hb hab
    rcases List.mem_cons.mp ha with rfl | ha'
    · rcases List.mem_cons.mp hb with rfl | hb'
      · rfl
      · exact absurd hab.symm (hg b hb')
    · rcases List.mem_cons.mp hb with rfl | hb'
      · exact absurd hab (hg a ha')
      · exact h.fresh a ha' b hb' hab
  · intro msg hm
    obtain ⟨e',he',hmsg⟩ := h.signed msg hm
    exact ⟨e',List.mem_cons_of_mem _ he',hmsg⟩

private theorem inv_refused {P : Platform} {st : State} {msg : ControlMessage} {now : Int}
    {reason : String} {id : Identity} (h : Inv st) (hnow : st.now ≤ now)
    (hv : st.identity.verifyCommand P msg now = (.error reason,id)) :
    Inv { st with identity := id, now := now } := by
  refine ⟨h.fresh,h.signed,?_,h.once⟩
  intro a ha
  refine (h.spent a ha).mono hnow ?_
  intro e he hle
  rcases (verifyCommand_error hv).2 with hsame | hswept
  · simpa only [hsame] using he
  · exact remember_false hswept _ e he hle

/-- The step that could break the claim: a message that was accepted before has not been swept,
because the nonce is remembered for as long as the expiry check lets the message through. -/
private theorem inv_accepted {P : Platform} {st : State} {msg : ControlMessage} {now : Int}
    {command : String} {id : Identity} (h : Inv st) (hg : Genuine P st (.deliver msg now))
    (ht : Timely P st (.deliver msg now))
    (hv : st.identity.verifyCommand P msg now = (.ok command,id)) :
    Inv { st with identity := id, now := now, accepted := msg :: st.accepted } := by
  obtain ⟨hver,hexp,hrem,-⟩ := verifyCommand_ok hv
  obtain ⟨hold,hnew,hkept⟩ := remember_true hrem
  obtain ⟨e,he,hbytes⟩ := hg.2 hver
  obtain ⟨-,-,hnonce,hexpires⟩ := signingMessageFor_unique hbytes
  have hfresh : ∀ a ∈ st.accepted, a.nonce ≠ msg.nonce := by
    intro a ha heq
    obtain ⟨e',he',han,hae⟩ := h.signed a ha
    obtain rfl := h.fresh e he e' he' (by rw [← hnonce,← heq,han])
    have hsame : a.expiresAt = msg.expiresAt := by rw [hae,hexpires]
    rcases h.spent a ha with hpast | ⟨spentAt,hget,hle⟩
    · have hnow := hg.1
      rw [hsame] at hpast
      omega
    · have hswept := hold (a.nonce,spentAt) (heq ▸ hget)
      dsimp only at hswept
      rw [hsame] at hle
      omega
  refine ⟨h.fresh,?_,?_,?_⟩
  · intro a ha
    rcases List.mem_cons.mp ha with rfl | ha
    · exact ⟨e,he,hnonce,hexpires⟩
    · exact h.signed a ha
  · intro a ha
    rcases List.mem_cons.mp ha with rfl | ha
    · exact Or.inr ⟨now,hnew,ht hver⟩
    · exact (h.spent a ha).mono hg.1 (fun e' => hkept a.nonce e' (hfresh a ha))
  · refine List.nodup_cons.mpr ⟨?_,h.once⟩
    intro hmem
    obtain ⟨a,ha,heq⟩ := List.mem_map.mp hmem
    exact hfresh a ha heq

private theorem inv_step {P : Platform} {st : State} {a : Action} (h : Inv st)
    (hok : Genuine P st a ∧ Timely P st a) : Inv (step P st a) := by
  cases a with
  | sign e => exact inv_sign h hok.1
  | deliver msg now =>
    rcases hv : st.identity.verifyCommand P msg now with ⟨reason | command,id⟩
    · simpa only [step,hv] using inv_refused h hok.1.1 hv
    · simpa only [step,hv] using inv_accepted h hok.1 hok.2 hv
  | trust encoded => exact ⟨h.fresh,h.signed,h.spent,h.once⟩
  | start commandKeys now =>
    exact ⟨h.fresh,h.signed,fun msg hm => Or.inl (hok.2 msg hm),h.once⟩

/-- In every run whose deliveries come no earlier than the nonce memory covers, and whose restarts
come no earlier than the accepted commands expire, no nonce is accepted twice. -/
theorem accepted_once_of_timely (P : Platform) (cfg : Config) (now : Int) (as : List Action)
    (h : Along (step P) (fun st a => Genuine P st a ∧ Timely P st a) (enrolled cfg now) as) :
    ((runActs (step P) (enrolled cfg now) as).accepted.map (·.nonce)).Nodup :=
  (invariant_runActs Inv (fun _ _ hi hok => inv_step hi hok) (inv_enrolled cfg now) h).once

/-- A deployment whose one key verifies one message, a `stop` that expires at second 1660. -/
private def demoPlatform : Platform where
  decodeString s := if s = "key" then some (List.replicate 32 0) else some []
  verify _ message _ := message = signingMessageFor "a" "stop" "n" 1660
  rfc3339 _ := ""
  quote s := "\"" ++ s ++ "\""

private def demoEnvelope : Envelope := ⟨"a","stop","n",1660,by decide⟩

private def demoMessage : ControlMessage := ⟨"a","stop","n",1660,"sig"⟩

/-- Delivered twice in time and then a restart after it has expired. -/
theorem accepted_once_of_timely_demo :
    ((runActs (step demoPlatform) (enrolled ⟨"a",["key"]⟩ (1600*second))
      [.sign demoEnvelope,.deliver demoMessage (1600*second),.deliver demoMessage (1601*second),
        .start ["key"] (1700*second)]).accepted.map (·.nonce)).Nodup :=
  accepted_once_of_timely demoPlatform ⟨"a",["key"]⟩ (1600*second)
    [.sign demoEnvelope,.deliver demoMessage (1600*second),.deliver demoMessage (1601*second),
      .start ["key"] (1700*second)] (by decide)

/-- The control plane's clock is ten minutes ahead: the envelope of its second 1600 expires at
second 1660, reaches the agent at its own second 1000, and works again at its second 1121. -/
theorem replay_accepted_twice :
    ¬ ∀ (P : Platform) (cfg : Config) (now : Int) (as : List Action),
      Along (step P) (Genuine P) (enrolled cfg now) as →
        ((runActs (step P) (enrolled cfg now) as).accepted.map (·.nonce)).Nodup := by
  intro h
  have htwice := h demoPlatform ⟨"a",["key"]⟩ (1000*second)
    [.sign demoEnvelope,.deliver demoMessage (1000*second),.deliver demoMessage (1121*second)]
    (by decide)
  revert htwice
  decide

end WeirdVault.Agent
