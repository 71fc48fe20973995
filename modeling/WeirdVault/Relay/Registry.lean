import WeirdVault.Relay.Agents
import Mathlib.Tactic.Common

/-! # The newest connection of an agent -/

namespace WeirdVault.Relay.Agent

open WeirdVault.Framework

namespace Registry

structure Numbers (r : Registry) : Prop where
  bounded : ∀ k c n, r.connections.get? k = some c → c.stage.conn? = some n → n < r.nextConn
  unique : ∀ j k c d n, r.connections.get? j = some c → r.connections.get? k = some d →
    c.stage.conn? = some n → d.stage.conn? = some n → j = k

/-- The connection of this number has authenticated as this agent for this account. -/
def Authenticated (r : Registry) (conn : Nat) (agentId account : String) : Prop :=
  ∃ k c, r.connections.get? k = some c ∧ c.agentId = agentId ∧ c.account = account ∧
    c.stage.conn? = some conn

def latest (r : Registry) (agentId : String) : Option Registration :=
  r.registered.find? (fun reg => reg.agentId = agentId)

/-- What an entry of the map says of connections, and they of it. -/
structure Entries (r : Registry) : Prop where
  held : ∀ id reg, r.control.get? id = some reg → ∃ k c, r.connections.get? k = some c ∧
    c.agentId = id ∧ c.account = reg.account ∧
      (c.stage = .serving reg.conn ∨ c.stage = .ended reg.conn)
  known : ∀ reg ∈ r.registered, r.Authenticated reg.conn reg.agentId reg.account
  latest : ∀ id reg k c, r.latest id = some reg → r.connections.get? k = some c →
    c.stage = .serving reg.conn → r.control.get? id = some reg

variable {r : Registry} {c : Connection} {stage : ControlStage}

private theorem moved_row {k : Nat} {d : Connection}
    (h : (r.connections.put { c with stage := stage }).get? k = some d) :
    (k = c.socket ∧ d = { c with stage := stage }) ∨
      (k ≠ c.socket ∧ r.connections.get? k = some d) := by
  rw [Table.get?_put] at h
  split at h
  · next he => exact .inl ⟨he.symm,(Option.some.inj h).symm⟩
  · next he => exact .inr ⟨fun hk => he hk.symm,h⟩

private theorem numbers_moved (h : Numbers r) (hc : r.connections.get? c.socket = some c)
    (hstage : ∀ n, stage.conn? = some n → c.stage.conn? = some n) {r' : Registry}
    (hrows : r'.connections = r.connections.put { c with stage := stage })
    (hnext : r'.nextConn = r.nextConn) : Numbers r' := by
  constructor
  · intro k d n hd hn
    rw [hnext]
    rw [hrows] at hd
    rcases moved_row hd with ⟨rfl,rfl⟩ | ⟨_,hd⟩
    · exact h.bounded _ c n hc (hstage n hn)
    · exact h.bounded k d n hd hn
  · intro j k d e n hd he hdn hen
    rw [hrows] at hd he
    rcases moved_row hd with ⟨rfl,rfl⟩ | ⟨_,hd⟩
    · rcases moved_row he with ⟨rfl,rfl⟩ | ⟨_,he⟩
      · rfl
      · exact h.unique _ k c e n hc he (hstage n hdn) hen
    · rcases moved_row he with ⟨rfl,rfl⟩ | ⟨_,he⟩
      · exact h.unique j _ d c n hd hc hdn (hstage n hen)
      · exact h.unique j k d e n hd he hdn hen

private theorem numbers_numbered (h : Numbers r) {r' : Registry}
    (hrows : r'.connections = r.connections.put { c with stage := .numbered r.nextConn })
    (hnext : r'.nextConn = r.nextConn+1) : Numbers r' := by
  constructor
  · intro k d n hd hn
    rw [hnext]
    rw [hrows] at hd
    rcases moved_row hd with ⟨_,rfl⟩ | ⟨_,hd⟩
    · have he : r.nextConn = n := Option.some.inj hn
      omega
    · have hlt := h.bounded k d n hd hn
      omega
  · intro j k d e n hd he hdn hen
    rw [hrows] at hd he
    rcases moved_row hd with ⟨hj,rfl⟩ | ⟨_,hd⟩
    · rcases moved_row he with ⟨hk,_⟩ | ⟨_,he⟩
      · rw [hj,hk]
      · have hlt := h.bounded k e n he hen
        have hn : r.nextConn = n := Option.some.inj hdn
        omega
    · rcases moved_row he with ⟨_,rfl⟩ | ⟨_,he⟩
      · have hlt := h.bounded j d n hd hdn
        have hn : r.nextConn = n := Option.some.inj hen
        omega
      · exact h.unique j k d e n hd he hdn hen

private theorem authenticated_moved (hc : r.connections.get? c.socket = some c)
    (hstage : ∀ n, c.stage.conn? = some n → stage.conn? = some n) {r' : Registry}
    (hrows : r'.connections = r.connections.put { c with stage := stage }) {conn : Nat}
    {agentId account : String} (h : r.Authenticated conn agentId account) :
    r'.Authenticated conn agentId account := by
  obtain ⟨k,d,hd,hagent,haccount,hn⟩ := h
  by_cases hk : k = c.socket
  · subst hk
    have hdc : d = c := Option.some.inj (hd.symm.trans hc)
    subst hdc
    refine ⟨d.socket,{ d with stage := stage },?_,hagent,haccount,hstage conn hn⟩
    rw [hrows]
    exact Table.get?_put_self r.connections { d with stage := stage }
  · have hne : ({ c with stage := stage } : Connection).socket ≠ k := Ne.symm hk
    refine ⟨k,d,?_,hagent,haccount,hn⟩
    rw [hrows,Table.get?_put_of_ne _ hne]
    exact hd

private theorem entries_moved (h : Entries r) (hc : r.connections.get? c.socket = some c)
    (hstage : ∀ n, c.stage.conn? = some n → stage.conn? = some n)
    (hkeep : ∀ n, c.stage = .serving n ∨ c.stage = .ended n → stage = .ended n)
    (hserve : ∀ n, stage ≠ .serving n) {r' : Registry}
    (hrows : r'.connections = r.connections.put { c with stage := stage })
    (hcontrol : r'.control = r.control) (hreg : r'.registered = r.registered) : Entries r' := by
  constructor
  · intro id reg hid
    rw [hcontrol] at hid
    obtain ⟨k,d,hd,hagent,haccount,hserved⟩ := h.held id reg hid
    by_cases hk : k = c.socket
    · subst hk
      have hdc : d = c := Option.some.inj (hd.symm.trans hc)
      subst hdc
      refine ⟨d.socket,{ d with stage := stage },?_,hagent,haccount,.inr (hkeep _ hserved)⟩
      rw [hrows]
      exact Table.get?_put_self r.connections { d with stage := stage }
    · have hne : ({ c with stage := stage } : Connection).socket ≠ k := Ne.symm hk
      refine ⟨k,d,?_,hagent,haccount,hserved⟩
      rw [hrows,Table.get?_put_of_ne _ hne]
      exact hd
  · intro reg hmem
    rw [hreg] at hmem
    exact authenticated_moved hc hstage hrows (h.known reg hmem)
  · intro id reg k d hlatest hd hserving
    rw [hcontrol]
    rw [hrows] at hd
    rw [latest,hreg] at hlatest
    rcases moved_row hd with ⟨_,rfl⟩ | ⟨_,hd⟩
    · exact absurd hserving (hserve _)
    · exact h.latest id reg k d hlatest hd hserving

private theorem entries_registered (h : Entries r) (hn : Numbers r)
    (hc : r.connections.get? c.socket = some c) {conn : Nat} (hstage : c.stage = .numbered conn)
    {r' : Registry}
    (hrows : r'.connections = r.connections.put { c with stage := .serving conn })
    (hcontrol : r'.control = r.control.put ⟨c.agentId,conn,c.account⟩)
    (hreg : r'.registered = ⟨c.agentId,conn,c.account⟩ :: r.registered) : Entries r' := by
  have hconn : c.stage.conn? = some conn := by rw [hstage]; rfl
  constructor
  · intro id reg hid
    rw [hcontrol,Table.get?_put] at hid
    split at hid
    · next he =>
      obtain rfl := Option.some.inj hid
      refine ⟨c.socket,{ c with stage := .serving conn },?_,he,rfl,.inl rfl⟩
      rw [hrows]
      exact Table.get?_put_self r.connections { c with stage := .serving conn }
    · obtain ⟨k,d,hd,hagent,haccount,hserved⟩ := h.held id reg hid
      have hne : ({ c with stage := .serving conn } : Connection).socket ≠ k := by
        rintro rfl
        have hdc : d = c := Option.some.inj (hd.symm.trans hc)
        rw [hdc,hstage] at hserved
        simp at hserved
      refine ⟨k,d,?_,hagent,haccount,hserved⟩
      rw [hrows,Table.get?_put_of_ne _ hne]
      exact hd
  · intro reg hmem
    rw [hreg] at hmem
    rcases List.mem_cons.mp hmem with rfl | hmem
    · refine ⟨c.socket,{ c with stage := .serving conn },?_,rfl,rfl,rfl⟩
      rw [hrows]
      exact Table.get?_put_self r.connections { c with stage := .serving conn }
    · refine authenticated_moved hc (fun n hn => ?_) hrows (h.known reg hmem)
      exact hconn.symm.trans hn
  · intro id reg k d hlatest hd hserving
    rw [hrows] at hd
    rw [latest,hreg,List.find?_cons] at hlatest
    rw [hcontrol,Table.get?_put]
    by_cases hid : c.agentId = id
    · rw [if_pos hid]
      simpa [hid] using hlatest
    · rw [if_neg hid]
      have hold : r.latest id = some reg := by simpa [latest,hid] using hlatest
      rcases moved_row hd with ⟨_,rfl⟩ | ⟨_,hd⟩
      · have heq : conn = reg.conn := by simpa using hserving
        have hmem : reg ∈ r.registered := List.mem_of_find?_eq_some hold
        have hagent : reg.agentId = id := by simpa using List.find?_some hold
        obtain ⟨j,e,he,hje,_,hen⟩ := h.known reg hmem
        have hj : j = c.socket := hn.unique j _ e c reg.conn he hc hen (heq ▸ hconn)
        subst hj
        have hec : e = c := Option.some.inj (he.symm.trans hc)
        rw [← hec,hje,hagent] at hid
        exact absurd rfl hid
      · exact h.latest id reg k d hold hd hserving

theorem removeIf_keeps {id agentId : String} {conn : Nat} {reg : Registration}
    (h : r.control.get? id = some reg) (hne : reg.conn ≠ conn) :
    (r.removeIf agentId conn).get? id = some reg := by
  rw [removeIf]
  cases ha : r.control.get? agentId with
  | none => exact h
  | some old =>
    dsimp only
    split
    · next he =>
      have hid : agentId ≠ id := by
        rintro rfl
        have hreg : old = reg := Option.some.inj (ha.symm.trans h)
        exact hne (hreg ▸ he)
      rw [Table.get?_erase,if_neg hid]
      exact h
    · exact h

theorem removeIf_some {id agentId : String} {conn : Nat} {reg : Registration}
    (h : (r.removeIf agentId conn).get? id = some reg) :
    r.control.get? id = some reg ∧ (id = agentId → reg.conn ≠ conn) := by
  rw [removeIf] at h
  cases ha : r.control.get? agentId with
  | none =>
    rw [ha] at h
    refine ⟨h,?_⟩
    rintro rfl
    exact absurd (ha.symm.trans h) (by simp)
  | some old =>
    rw [ha] at h
    dsimp only at h
    split at h
    · rw [Table.get?_erase] at h
      split at h
      · exact absurd h (by simp)
      · next hid => exact ⟨h,fun he => absurd he.symm hid⟩
    · next hne =>
      refine ⟨h,?_⟩
      rintro rfl
      have hreg : old = reg := Option.some.inj (ha.symm.trans h)
      exact hreg ▸ hne

private theorem entries_cleaned (h : Entries r) (hn : Numbers r)
    (hc : r.connections.get? c.socket = some c) {conn : Nat} (hstage : c.stage = .ended conn)
    {r' : Registry}
    (hrows : r'.connections = r.connections.put { c with stage := .returned (some conn) })
    (hcontrol : r'.control = r.removeIf c.agentId conn) (hreg : r'.registered = r.registered) :
    Entries r' := by
  have hconn : c.stage.conn? = some conn := by rw [hstage]; rfl
  constructor
  · intro id reg hid
    rw [hcontrol] at hid
    have hold := removeIf_some hid
    obtain ⟨k,d,hd,hagent,haccount,hserved⟩ := h.held id reg hold.1
    have hne : ({ c with stage := .returned (some conn) } : Connection).socket ≠ k := by
      rintro rfl
      have hdc : d = c := Option.some.inj (hd.symm.trans hc)
      subst hdc
      rw [hstage] at hserved
      have he : conn = reg.conn := by simpa using hserved
      exact hold.2 hagent.symm he.symm
    refine ⟨k,d,?_,hagent,haccount,hserved⟩
    rw [hrows,Table.get?_put_of_ne _ hne]
    exact hd
  · intro reg hmem
    rw [hreg] at hmem
    refine authenticated_moved hc (fun n hn => ?_) hrows (h.known reg hmem)
    exact hconn.symm.trans hn
  · intro id reg k d hlatest hd hserving
    rw [hrows] at hd
    rw [latest,hreg] at hlatest
    rw [hcontrol]
    rcases moved_row hd with ⟨_,rfl⟩ | ⟨hk,hd⟩
    · exact absurd hserving (by simp)
    · apply removeIf_keeps (h.latest id reg k d hlatest hd hserving)
      intro he
      have hnum : d.stage.conn? = some conn := by rw [hserving,← he]; rfl
      exact hk (hn.unique k _ d c conn hd hc hnum hconn)

structure Sound (r : Registry) : Prop where
  numbers : Numbers r
  entries : Entries r

private theorem sound_authenticate (h : Sound r) (socket : Nat) (agentId : String)
    (answer : Except String (Nat × Except String VerifyResponse)) :
    Sound (r.authenticate socket agentId answer) := by
  unfold authenticate
  split
  · next account hnone hverify =>
    have hrow : ∀ k d, (r.connections.put ⟨socket,agentId,account,.authenticated⟩).get? k = some d →
        d.stage = .authenticated ∨ r.connections.get? k = some d := by
      intro k d hd
      rw [Table.get?_put] at hd
      split at hd
      · rw [← Option.some.inj hd]
        exact .inl rfl
      · exact .inr hd
    have hkeep : ∀ k d, r.connections.get? k = some d →
        (r.connections.put ⟨socket,agentId,account,.authenticated⟩).get? k = some d := by
      intro k d hd
      have hne : (Connection.mk socket agentId account .authenticated).socket ≠ k := by
        rintro rfl
        exact absurd (hnone.symm.trans hd) (by simp)
      exact (Table.get?_put_of_ne _ hne).trans hd
    refine ⟨⟨?_,?_⟩,⟨?_,?_,?_⟩⟩
    · intro k d n hd hn
      rcases hrow k d hd with hs | hd
      · rw [hs] at hn
        exact absurd hn (by simp [ControlStage.conn?])
      · exact h.numbers.bounded k d n hd hn
    · intro j k d e n hd he hdn hen
      rcases hrow j d hd with hs | hd
      · rw [hs] at hdn
        exact absurd hdn (by simp [ControlStage.conn?])
      · rcases hrow k e he with hs | he
        · rw [hs] at hen
          exact absurd hen (by simp [ControlStage.conn?])
        · exact h.numbers.unique j k d e n hd he hdn hen
    · intro id reg hid
      obtain ⟨k,d,hd,hrest⟩ := h.entries.held id reg hid
      exact ⟨k,d,hkeep k d hd,hrest⟩
    · intro reg hmem
      obtain ⟨k,d,hd,hrest⟩ := h.entries.known reg hmem
      exact ⟨k,d,hkeep k d hd,hrest⟩
    · intro id reg k d hlatest hd hserving
      rcases hrow k d hd with hs | hd
      · rw [hs] at hserving
        exact absurd hserving (by simp)
      · exact h.entries.latest id reg k d hlatest hd hserving
  · exact h

private theorem sound_unready (h : Sound r) (socket : Nat) : Sound (r.unready socket) := by
  unfold unready
  split
  · next t agentId account hc =>
    have ht := Table.key_of_get? hc
    subst ht
    constructor
    · exact numbers_moved h.numbers hc (by simp [ControlStage.conn?]) rfl rfl
    · exact entries_moved h.entries hc (by simp [ControlStage.conn?]) (by simp) (by simp) rfl rfl rfl
  · exact h

private theorem sound_number (h : Sound r) (socket : Nat) : Sound (r.number socket) := by
  unfold number
  split
  · next t agentId account hc =>
    have ht := Table.key_of_get? hc
    subst ht
    constructor
    · exact numbers_numbered h.numbers rfl rfl
    · exact entries_moved h.entries hc (by simp [ControlStage.conn?]) (by simp) (by simp) rfl rfl rfl
  · exact h

private theorem sound_register (h : Sound r) (socket : Nat) : Sound (r.register socket) := by
  unfold register
  split
  · next t agentId account conn hc =>
    have ht := Table.key_of_get? hc
    subst ht
    constructor
    · exact numbers_moved h.numbers hc (by simp [ControlStage.conn?]) rfl rfl
    · exact entries_registered h.entries h.numbers hc rfl rfl rfl rfl
  · exact h

private theorem sound_finish (h : Sound r) (socket : Nat) : Sound (r.finish socket) := by
  unfold finish
  split
  · next t agentId account conn hc =>
    have ht := Table.key_of_get? hc
    subst ht
    constructor
    · exact numbers_moved h.numbers hc (by simp [ControlStage.conn?]) rfl rfl
    · exact entries_moved h.entries hc (by simp [ControlStage.conn?]) (by simp) (by simp) rfl rfl rfl
  · exact h

private theorem sound_cleanUp (h : Sound r) (socket : Nat) : Sound (r.cleanUp socket) := by
  unfold cleanUp
  split
  · next t agentId account conn hc =>
    have ht := Table.key_of_get? hc
    subst ht
    constructor
    · exact numbers_moved h.numbers hc (by simp [ControlStage.conn?]) rfl rfl
    · exact entries_cleaned h.entries h.numbers hc rfl rfl rfl rfl
  · exact h

theorem Sound.returned (h : Sound r) {k : Nat} {conn : Nat} {id : String} {reg : Registration}
    (hc : r.connections.get? k = some c) (hstage : c.stage = .returned (some conn))
    (hid : r.control.get? id = some reg) : reg.conn ≠ conn := by
  intro he
  have hconn : c.stage.conn? = some conn := by rw [hstage]; rfl
  obtain ⟨j,d,hd,_,_,hserved⟩ := h.entries.held id reg hid
  have hnum : d.stage.conn? = some conn := by
    rcases hserved with hs | hs
    · rw [hs,he]; rfl
    · rw [hs,he]; rfl
  have hj := h.numbers.unique j k d c conn hd hc hnum hconn
  subst hj
  have hdc : d = c := Option.some.inj (hd.symm.trans hc)
  subst hdc
  rw [hstage] at hserved
  simp at hserved

theorem Sound.cleanUp_keeps (h : Sound r) {socket k : Nat} {d : Connection} {id : String}
    {reg : Registration} (hd : r.connections.get? k = some d) (hne : k ≠ socket)
    (hnum : d.stage.conn? = some reg.conn) (hid : r.control.get? id = some reg) :
    (r.cleanUp socket).control.get? id = some reg := by
  unfold cleanUp
  split
  · next t agentId account conn hc =>
    apply removeIf_keeps hid
    intro he
    exact hne (h.numbers.unique k socket d _ conn hd hc (he ▸ hnum) rfl)
  · exact hid

theorem Sound.authenticated (h : Sound r) {id : String} {reg : Registration}
    (hid : r.control.get? id = some reg) : r.Authenticated reg.conn id reg.account := by
  obtain ⟨k,d,hd,hagent,haccount,hserved⟩ := h.entries.held id reg hid
  refine ⟨k,d,hd,hagent,haccount,?_⟩
  rcases hserved with hs | hs
  · rw [hs]; rfl
  · rw [hs]; rfl

end Registry

theorem registry_step {s : Agents} (h : s.registry.Sound) (a : Action) :
    (step s a).registry.Sound := by
  cases a with
  | authenticate socket agentId answer => exact Registry.sound_authenticate h socket agentId answer
  | unready socket => exact Registry.sound_unready h socket
  | number socket =>
    simp only [step,Agents.number_registry]
    exact Registry.sound_number h socket
  | register socket => exact Registry.sound_register h socket
  | finish socket =>
    simp only [step,Agents.finish]
    split
    · exact Registry.sound_finish h socket
    · exact h
  | cleanUp socket => exact Registry.sound_cleanUp h socket
  | _ => simpa [step] using h

theorem registry_run (as : List Action) : (runActs step start as).registry.Sound := by
  refine invariant_runActs (fun s => s.registry.Sound) (fun s a h _ => registry_step h a) ?_
    (along_true step start as)
  constructor
  · constructor <;> simp [start]
  · constructor <;> simp [start,Registry.latest]

private theorem authenticated_authenticate {r : Registry} {conn : Nat} {id account : String}
    (h : r.Authenticated conn id account) (socket : Nat) (agentId : String)
    (answer : Except String (Nat × Except String VerifyResponse)) :
    (r.authenticate socket agentId answer).Authenticated conn id account := by
  unfold Registry.authenticate
  split
  · next user hnone _ =>
    obtain ⟨k,d,hd,hrest⟩ := h
    have hne : (Connection.mk socket agentId user .authenticated).socket ≠ k := by
      rintro rfl
      exact absurd (hnone.symm.trans hd) (by simp)
    exact ⟨k,d,(Table.get?_put_of_ne _ hne).trans hd,hrest⟩
  · exact h

theorem authenticated_step {s : Agents} {conn : Nat} {id account : String}
    (h : s.registry.Authenticated conn id account) (a : Action) :
    (step s a).registry.Authenticated conn id account := by
  cases a with
  | authenticate socket agentId answer => exact authenticated_authenticate h socket agentId answer
  | unready socket =>
    simp only [step,Registry.unready]
    split
    · next t agentId user hc =>
      have ht := Table.key_of_get? hc
      subst ht
      exact Registry.authenticated_moved hc (by simp [ControlStage.conn?]) rfl h
    · exact h
  | number socket =>
    simp only [step,Agents.number_registry,Registry.number]
    split
    · next t agentId user hc =>
      have ht := Table.key_of_get? hc
      subst ht
      exact Registry.authenticated_moved hc (by simp [ControlStage.conn?]) rfl h
    · exact h
  | register socket =>
    simp only [step,Registry.register]
    split
    · next t agentId user n hc =>
      have ht := Table.key_of_get? hc
      subst ht
      exact Registry.authenticated_moved hc (by simp [ControlStage.conn?]) rfl h
    · exact h
  | finish socket =>
    simp only [step,Agents.finish,Registry.finish]
    split
    · split
      · next t agentId user n hc =>
        have ht := Table.key_of_get? hc
        subst ht
        exact Registry.authenticated_moved hc (by simp [ControlStage.conn?]) rfl h
      · exact h
    · exact h
  | cleanUp socket =>
    simp only [step,Registry.cleanUp]
    split
    · next t agentId user n hc =>
      have ht := Table.key_of_get? hc
      subst ht
      exact Registry.authenticated_moved hc (by simp [ControlStage.conn?]) rfl h
    · exact h
  | _ => simpa [step] using h

structure Finds (s : Agents) (id : String) (c : Connection) (conn : Nat) : Prop where
  agent : c.agentId = id
  owner : s.registry.owner id = some c.account
  online : s.registry.isOnline c.account id
  opens : ∀ task port, s.tickets.openings.get? task = none →
    (step s (.openStream task id port)).tickets.openings.get? task =
      some ⟨task,id,port,none,none,.found conn⟩
  commands : ∀ task command envelope, s.commands.calls.get? task = none →
    (step s (.command task c.account id command envelope)).commands.calls.get? task =
      some ⟨task,c.account,id,command,envelope,none,.found conn⟩

theorem finds_latest {s : Agents} (h : s.registry.Sound) {id : String} {reg : Registration}
    {k : Nat} {c : Connection} (hlatest : s.registry.latest id = some reg)
    (hc : s.registry.connections.get? k = some c) (hserving : c.stage = .serving reg.conn) :
    Finds s id c reg.conn := by
  have hid := h.entries.latest id reg k c hlatest hc hserving
  have hconn : c.stage.conn? = some reg.conn := by rw [hserving]; rfl
  obtain ⟨j,d,hd,hagent,haccount,hnum⟩ := h.authenticated hid
  have hj := h.numbers.unique j k d c reg.conn hd hc hnum hconn
  subst hj
  have hdc : d = c := Option.some.inj (hd.symm.trans hc)
  subst hdc
  constructor
  · exact hagent
  · rw [Registry.owner,hid,haccount]
    rfl
  · simp [Registry.isOnline,hid,haccount]
  · intro task port hfree
    have htx : s.registry.openTx id = .ok reg.conn := by simp [Registry.openTx,hid]
    simp only [step,Tickets.begin,hfree,htx]
    exact Table.get?_put_self _ (Opening.mk task id port none none (.found reg.conn))
  · intro task command envelope hfree
    have htx : s.registry.commandTx d.account id = .ok reg.conn := by
      simp [Registry.commandTx,hid,haccount]
    simp only [step,Commands.command,hfree,htx]
    exact Table.get?_put_self _
      (Call.mk task d.account id command envelope none (.found reg.conn))

theorem mem_onlineFor {account : String} {ids : List (String × Registry)} {id : String} :
    id ∈ onlineFor account ids ↔ ∃ look ∈ ids, look.1 = id ∧ look.2.isOnline account id := by
  simp only [onlineFor,List.mem_map,List.mem_filter]
  constructor
  · rintro ⟨look,⟨hmem,honline⟩,rfl⟩
    exact ⟨look,hmem,rfl,honline⟩
  · rintro ⟨look,hmem,rfl,honline⟩
    exact ⟨look,⟨hmem,honline⟩,rfl⟩

theorem Registry.isOnline_iff {r : Registry} {account id : String} :
    r.isOnline account id ↔ ∃ reg, r.control.get? id = some reg ∧ reg.account = account := by
  simp [Registry.isOnline,Option.any_eq_true]

/-- The registry follows the newest connection of an agent. -/
theorem newest_connection (as : List Action) :
    let s := runActs step start as
    let r := s.registry
    (∀ socket k d id reg, r.connections.get? k = some d → k ≠ socket →
      d.stage.conn? = some reg.conn → r.control.get? id = some reg →
        (step s (.cleanUp socket)).registry.control.get? id = some reg) ∧
    (∀ k c conn id reg, r.connections.get? k = some c → c.stage = .returned (some conn) →
      r.control.get? id = some reg → reg.conn ≠ conn) ∧
    (∀ id reg k c, r.latest id = some reg → r.connections.get? k = some c →
      c.stage = .serving reg.conn → Finds s id c reg.conn) ∧
    (∀ account ids, (∀ look ∈ ids, ∃ bs, look.2 = (runActs step start bs).registry) →
      (∀ id ∈ onlineFor account ids, ∃ look ∈ ids, look.1 = id ∧ ∃ reg,
        look.2.control.get? id = some reg ∧ reg.account = account ∧
          look.2.Authenticated reg.conn id account) ∧
      (∀ look ∈ ids, ∀ reg k c, look.2.latest look.1 = some reg →
        look.2.connections.get? k = some c → c.stage = .serving reg.conn → c.account = account →
          look.1 ∈ onlineFor account ids)) := by
  intro s r
  have h : r.Sound := registry_run as
  refine ⟨?_,?_,?_,?_⟩
  · intro socket k d id reg hd hne hnum hid
    exact h.cleanUp_keeps hd hne hnum hid
  · intro k c conn id reg hc hstage hid
    exact h.returned hc hstage hid
  · intro id reg k c hlatest hc hserving
    exact finds_latest h hlatest hc hserving
  · intro account ids hlooks
    constructor
    · intro id hid
      obtain ⟨look,hmem,hlook,honline⟩ := mem_onlineFor.mp hid
      obtain ⟨bs,hbs⟩ := hlooks look hmem
      obtain ⟨reg,hreg,haccount⟩ := Registry.isOnline_iff.mp honline
      have hsound : look.2.Sound := hbs ▸ registry_run bs
      exact ⟨look,hmem,hlook,reg,hreg,haccount,haccount ▸ hsound.authenticated hreg⟩
    · intro look hmem reg k c hlatest hc hserving haccount
      obtain ⟨bs,hbs⟩ := hlooks look hmem
      rw [hbs] at hlatest hc
      have hfinds := finds_latest (registry_run bs) hlatest hc hserving
      apply mem_onlineFor.mpr
      refine ⟨look,hmem,rfl,?_⟩
      rw [hbs,← haccount]
      exact hfinds.online

/-- A machine connects again before its old connection is known to be dead. -/
def reconnect : List Action :=
  [.authenticate 0 "m" (.ok (200,.ok ⟨true,some "u",none⟩)),.number 0,.register 0,
    .authenticate 1 "m" (.ok (200,.ok ⟨true,some "u",none⟩)),.number 1,.register 1,
    .finish 0,.cleanUp 0]

theorem newest_connection_demo : let s := runActs step start reconnect
    s.registry.connections.get? 0 = some ⟨0,"m","u",.returned (some 0)⟩ ∧
      Finds s "m" ⟨1,"m","u",.serving 1⟩ 1 ∧ "m" ∈ onlineFor "u" [("m",s.registry)] := by
  have h := newest_connection reconnect
  refine ⟨by decide +kernel,?_,?_⟩
  · exact h.2.2.1 "m" ⟨"m",1,"u"⟩ 1 ⟨1,"m","u",.serving 1⟩ (by decide +kernel) (by decide +kernel) rfl
  · have hlooks : ∀ look ∈ [("m",(runActs step start reconnect).registry)],
        ∃ bs, look.2 = (runActs step start bs).registry := by
      intro look hlook
      rw [List.mem_singleton.mp hlook]
      exact ⟨reconnect,rfl⟩
    exact (h.2.2.2 "u" _ hlooks).2 _ List.mem_cons_self ⟨"m",1,"u"⟩ 1 ⟨1,"m","u",.serving 1⟩
      (by decide +kernel) (by decide +kernel) rfl rfl

end WeirdVault.Relay.Agent
