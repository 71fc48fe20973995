import WeirdVault.Relay.Registry

/-! # One stream for one ticket -/

namespace WeirdVault.Relay.Agent

open WeirdVault.Framework

def OpenStage.out : OpenStage → Bool
  | .found _ => false
  | .returned _ => false
  | _ => true

def OpenStage.failed : OpenStage → Bool
  | .failing => true
  | .elapsed => true
  | .expired => true
  | .returned (.error _) => true
  | _ => false

/-- Tickets, the calls that minted them and the streams that claimed them. -/
structure Rendezvous (s : Tickets) : Prop where
  pending : ∀ t k, s.pending.get? t = some (t,k) →
    ∃ o, s.openings.get? k = some o ∧ o.ticket = some t ∧ o.stage.out
  waits : ∀ k o t, s.openings.get? k = some o → o.ticket = some t → o.stage.out →
    s.pending.get? t = some (t,k) ∨ ∃ j x, s.streams.get? j = some x ∧ x.call = some k
  minted : ∀ k o t, s.openings.get? k = some o → o.ticket = some t → t ∈ s.minted
  fresh : ∀ j k o p t, s.openings.get? j = some o → s.openings.get? k = some p →
    o.ticket = some t → p.ticket = some t → j = k
  found : ∀ k o conn, s.openings.get? k = some o → o.stage = .found conn → o.ticket = none
  claimed : ∀ j x k, s.streams.get? j = some x → x.call = some k →
    s.pending.get? x.ticket = none ∧ ∃ o, s.openings.get? k = some o ∧ o.ticket = some x.ticket ∧
      (x.stage = .answered true → o.slot = some j) ∧
      (x.stage = .answered false → o.stage.listening = false)
  once : ∀ i j x y k, s.streams.get? i = some x → s.streams.get? j = some y → x.call = some k →
    y.call = some k → i = j
  slot : ∀ k o j, s.openings.get? k = some o → o.slot = some j →
    ∃ x, s.streams.get? j = some x ∧ x.call = some k ∧ x.stage = .answered true
  accepted : ∀ j x, s.streams.get? j = some x → x.stage = .answered true → ∃ k, x.call = some k
  returned : ∀ k o j, s.openings.get? k = some o → o.stage = .returned (.ok j) → o.slot = some j

variable {s s' : Tickets} {o : Opening}

private theorem rendezvous_went (o' : Opening) (h : Rendezvous s) (ho : s.openings.get? o.task = some o)
    (htask : o'.task = o.task) (hticket : o'.ticket = o.ticket) (hslot : o'.slot = o.slot)
    (hout : o'.stage.out → o.stage.out) (hlisten : o'.stage.listening → o.stage.listening)
    (hfound : ∀ conn, o'.stage ≠ .found conn)
    (hreturned : ∀ j, o'.stage = .returned (.ok j) → o.slot = some j)
    (hkeep : ∀ t k, s'.pending.get? t = some (t,k) →
      s.pending.get? t = some (t,k) ∧ (k = o.task → o'.stage.out))
    (hback : ∀ t k, s.pending.get? t = some (t,k) → k ≠ o.task ∨ o'.stage.out →
      s'.pending.get? t = some (t,k))
    (hopenings : s'.openings = s.openings.put o') (hstreams : s'.streams = s.streams)
    (hminted : s'.minted = s.minted) : Rendezvous s' := by
  have hself : s'.openings.get? o.task = some o' := by
    rw [hopenings,← htask]
    exact Table.get?_put_self s.openings o'
  have hother : ∀ k, k ≠ o.task → s'.openings.get? k = s.openings.get? k := by
    intro k hk
    rw [hopenings]
    exact Table.get?_put_of_ne _ (fun he => hk (he.symm.trans htask))
  -- every row afterwards has the ticket and the slot of the row before
  have hrow : ∀ k p, s'.openings.get? k = some p → ∃ q, s.openings.get? k = some q ∧
      p.ticket = q.ticket ∧ p.slot = q.slot ∧ (p = q ∨ k = o.task ∧ p = o' ∧ q = o) := by
    intro k p hp
    by_cases hk : k = o.task
    · subst hk
      have hpo : o' = p := Option.some.inj (hself.symm.trans hp)
      subst hpo
      exact ⟨o,ho,hticket,hslot,.inr ⟨rfl,rfl,rfl⟩⟩
    · rw [hother k hk] at hp
      exact ⟨p,hp,rfl,rfl,.inl rfl⟩
  constructor
  · intro t k ht
    obtain ⟨hold,hstill⟩ := hkeep t k ht
    obtain ⟨p,hp,hpt,hpout⟩ := h.pending t k hold
    by_cases hk : k = o.task
    · subst hk
      have hpo : o = p := Option.some.inj (ho.symm.trans hp)
      subst hpo
      exact ⟨o',hself,hticket.trans hpt,hstill rfl⟩
    · exact ⟨p,(hother k hk).trans hp,hpt,hpout⟩
  · intro k p t hp hpt hpout
    obtain ⟨q,hq,hqt,_,hcase⟩ := hrow k p hp
    have hqout : q.stage.out := by
      rcases hcase with rfl | ⟨_,rfl,rfl⟩
      · exact hpout
      · exact hout hpout
    rcases h.waits k q t hq (hqt.symm.trans hpt) hqout with hpend | hclaim
    · apply Or.inl
      apply hback t k hpend
      rcases hcase with rfl | ⟨_,rfl,_⟩
      · by_cases hk : k = o.task
        · right
          subst hk
          have hpo : o' = p := Option.some.inj (hself.symm.trans hp)
          exact hpo ▸ hpout
        · exact .inl hk
      · exact .inr hpout
    · rw [hstreams]
      exact .inr hclaim
  · intro k p t hp hpt
    obtain ⟨q,hq,hqt,_⟩ := hrow k p hp
    rw [hminted]
    exact h.minted k q t hq (hqt.symm.trans hpt)
  · intro j k p q t hp hq hpt hqt
    obtain ⟨p',hp',hpt',_⟩ := hrow j p hp
    obtain ⟨q',hq',hqt',_⟩ := hrow k q hq
    exact h.fresh j k p' q' t hp' hq' (hpt'.symm.trans hpt) (hqt'.symm.trans hqt)
  · intro k p conn hp hstage
    obtain ⟨q,hq,hqt,_,rfl | ⟨_,rfl,_⟩⟩ := hrow k p hp
    · exact h.found k p conn hq hstage
    · exact absurd hstage (hfound conn)
  · intro j x k hx hcall
    rw [hstreams] at hx
    obtain ⟨hnone,q,hq,hqt,hyes,hno⟩ := h.claimed j x k hx hcall
    constructor
    · cases hp : s'.pending.get? x.ticket with
      | none => rfl
      | some row =>
        have hrowt : row.1 = x.ticket := Table.key_of_get? hp
        have hold := (hkeep x.ticket row.2 (by rw [hp,← hrowt])).1
        exact absurd (hnone.symm.trans hold) (by simp)
    · by_cases hk : k = o.task
      · subst hk
        have hqo : o = q := Option.some.inj (ho.symm.trans hq)
        subst hqo
        refine ⟨o',hself,hticket.trans hqt,fun ha => hslot.trans (hyes ha),fun ha => ?_⟩
        have hdeaf := hno ha
        cases hl : o'.stage.listening with
        | false => rfl
        | true => exact absurd ((hlisten hl).symm.trans hdeaf) (by simp)
      · exact ⟨q,(hother k hk).trans hq,hqt,hyes,hno⟩
  · intro i j x y k hx hy
    rw [hstreams] at hx hy
    exact h.once i j x y k hx hy
  · intro k p j hp hpslot
    obtain ⟨q,hq,_,hqslot,_⟩ := hrow k p hp
    rw [hstreams]
    exact h.slot k q j hq (hqslot.symm.trans hpslot)
  · intro j x hx
    rw [hstreams] at hx
    exact h.accepted j x hx
  · intro k p j hp hstage
    obtain ⟨q,hq,_,hqslot,rfl | ⟨_,rfl,rfl⟩⟩ := hrow k p hp
    · exact h.returned k p j hq hstage
    · exact hqslot.trans (hreturned j hstage)

private theorem rendezvous_stage (h : Rendezvous s) {k : Nat} (ho : s.openings.get? k = some o)
    {stage : OpenStage} (hout : o.stage.out) (hout' : stage.out)
    (hlisten : stage.listening → o.stage.listening) : Rendezvous (s.setStage o stage) := by
  have hk := Table.key_of_get? ho
  subst hk
  apply rendezvous_went { o with stage := stage } h ho rfl rfl rfl (fun _ => hout) hlisten
  · rintro conn rfl
    simp [OpenStage.out] at hout'
  · rintro j rfl
    simp [OpenStage.out] at hout'
  · exact fun t k ht => ⟨ht,fun _ => hout'⟩
  · exact fun t k ht _ => ht
  · rfl
  · rfl
  · rfl

private theorem rendezvous_return (h : Rendezvous s) {k : Nat} (ho : s.openings.get? k = some o)
    {result : Except OpenError Nat} (hout : o.stage.out)
    (hgone : ∀ t, s.pending.get? t ≠ some (t,k))
    (hreturned : ∀ j, result = .ok j → o.slot = some j) :
    Rendezvous (s.setStage o (.returned result)) := by
  have hk := Table.key_of_get? ho
  subst hk
  apply rendezvous_went { o with stage := .returned result } h ho rfl rfl rfl (fun _ => hout)
    (by simp [OpenStage.listening]) (by simp)
  · rintro j ⟨⟩
    exact hreturned j rfl
  · intro t k ht
    refine ⟨ht,fun hk => ?_⟩
    rw [hk] at ht
    exact absurd ht (hgone t)
  · exact fun t k ht _ => ht
  · rfl
  · rfl
  · rfl

private theorem rendezvous_discard (h : Rendezvous s) {k : Nat} (ho : s.openings.get? k = some o)
    {ticket : String} (hticket : o.ticket = some ticket) {e : OpenError} (hout : o.stage.out) :
    Rendezvous ({ s with pending := s.pending.erase ticket }.setStage o
      (.returned (.error e))) := by
  have hk := Table.key_of_get? ho
  subst hk
  apply rendezvous_went { o with stage := .returned (.error e) } h ho rfl rfl rfl
    (fun _ => hout) (by simp [OpenStage.listening]) (by simp) (by simp)
  · intro t k ht
    simp only [Tickets.setStage,Table.get?_erase] at ht
    split at ht
    · exact absurd ht (by simp)
    · next hne =>
      refine ⟨ht,fun hk => ?_⟩
      obtain ⟨p,hp,hpt,_⟩ := h.pending t k ht
      rw [hk,ho] at hp
      rw [← Option.some.inj hp,hticket] at hpt
      exact absurd (Option.some.inj hpt) hne
  · intro t k ht hk
    simp only [Tickets.setStage,Table.get?_erase]
    split
    · next he =>
      obtain ⟨p,hp,hpt,_⟩ := h.pending t k ht
      have hko : k = o.task := h.fresh k o.task p o t hp ho hpt (hticket.trans (congrArg some he))
      rcases hk with hk | hk
      · exact absurd hko hk
      · simp [OpenStage.out] at hk
    · exact ht
  · rfl
  · rfl
  · rfl

private theorem rendezvous_began (h : Rendezvous s) (hnew : s.openings.get? o.task = none)
    (hticket : o.ticket = none) (hslot : o.slot = none) (hstage : ∀ j, o.stage ≠ .returned (.ok j)) :
    Rendezvous { s with openings := s.openings.put o } := by
  have hrow : ∀ k p, (s.openings.put o).get? k = some p → p = o ∨ s.openings.get? k = some p := by
    intro k p hp
    rw [Table.get?_put] at hp
    split at hp
    · exact .inl (Option.some.inj hp).symm
    · exact .inr hp
  have hold : ∀ k p, s.openings.get? k = some p → (s.openings.put o).get? k = some p := by
    intro k p hp
    have hne : o.task ≠ k := by
      rintro rfl
      exact absurd (hnew.symm.trans hp) (by simp)
    exact (Table.get?_put_of_ne _ hne).trans hp
  constructor
  · intro t k ht
    obtain ⟨p,hp,hrest⟩ := h.pending t k ht
    exact ⟨p,hold k p hp,hrest⟩
  · intro k p t hp hpt hpout
    rcases hrow k p hp with rfl | hp
    · exact absurd (hticket.symm.trans hpt) (by simp)
    · exact h.waits k p t hp hpt hpout
  · intro k p t hp hpt
    rcases hrow k p hp with rfl | hp
    · exact absurd (hticket.symm.trans hpt) (by simp)
    · exact h.minted k p t hp hpt
  · intro j k p q t hp hq hpt hqt
    rcases hrow j p hp with rfl | hp
    · exact absurd (hticket.symm.trans hpt) (by simp)
    · rcases hrow k q hq with rfl | hq
      · exact absurd (hticket.symm.trans hqt) (by simp)
      · exact h.fresh j k p q t hp hq hpt hqt
  · intro k p conn hp hps
    rcases hrow k p hp with rfl | hp
    · exact hticket
    · exact h.found k p conn hp hps
  · intro j x k hx hcall
    obtain ⟨hnone,q,hq,hrest⟩ := h.claimed j x k hx hcall
    exact ⟨hnone,q,hold k q hq,hrest⟩
  · exact h.once
  · intro k p j hp hps
    rcases hrow k p hp with rfl | hp
    · exact absurd (hslot.symm.trans hps) (by simp)
    · exact h.slot k p j hp hps
  · exact h.accepted
  · intro k p j hp hps
    rcases hrow k p hp with rfl | hp
    · exact absurd hps (hstage j)
    · exact h.returned k p j hp hps

private theorem rendezvous_minted (h : Rendezvous s) (ho : s.openings.get? o.task = some o)
    {conn : Nat} (hstage : o.stage = .found conn) {ticket : String} (hfresh : ticket ∉ s.minted)
    (hpending : s'.pending = s.pending.put (ticket,o.task))
    (hopenings : s'.openings = s.openings.put
      { o with ticket := some ticket, stage := .requesting conn })
    (hstreams : s'.streams = s.streams) (hminted : s'.minted = ticket :: s.minted) :
    Rendezvous s' := by
  have hticket := h.found o.task o conn ho hstage
  have hself : s'.openings.get? o.task =
      some { o with ticket := some ticket, stage := .requesting conn } := by
    rw [hopenings]
    exact Table.get?_put_self s.openings { o with ticket := some ticket, stage := .requesting conn }
  have hother : ∀ k, k ≠ o.task → s'.openings.get? k = s.openings.get? k := by
    intro k hk
    rw [hopenings]
    have hne : ({ o with ticket := some ticket, stage := .requesting conn } : Opening).task ≠ k :=
      Ne.symm hk
    exact Table.get?_put_of_ne _ hne
  have hrow : ∀ k p, s'.openings.get? k = some p →
      (k = o.task ∧ p = { o with ticket := some ticket, stage := .requesting conn }) ∨
        (k ≠ o.task ∧ s.openings.get? k = some p) := by
    intro k p hp
    by_cases hk : k = o.task
    · subst hk
      exact .inl ⟨rfl,Option.some.inj (hp.symm.trans hself)⟩
    · rw [hother k hk] at hp
      exact .inr ⟨hk,hp⟩
  -- no other row has the new ticket, and no stream came with it
  have hunused : ∀ k p, s.openings.get? k = some p → p.ticket ≠ some ticket := by
    intro k p hp hpt
    exact hfresh (h.minted k p ticket hp hpt)
  have hpend : ∀ t, t ≠ ticket → s'.pending.get? t = s.pending.get? t := by
    intro t ht
    rw [hpending]
    exact Table.get?_put_of_ne _ (Ne.symm ht)
  constructor
  · intro t k ht
    by_cases he : t = ticket
    · subst he
      rw [hpending,Table.get?_put,if_pos rfl] at ht
      have hk : o.task = k := (Prod.mk.inj (Option.some.inj ht)).2
      subst hk
      exact ⟨_,hself,rfl,rfl⟩
    · rw [hpend t he] at ht
      obtain ⟨p,hp,hpt,hpout⟩ := h.pending t k ht
      have hk : k ≠ o.task := by
        rintro rfl
        rw [ho] at hp
        rw [← Option.some.inj hp,hticket] at hpt
        exact absurd hpt (by simp)
      exact ⟨p,(hother k hk).trans hp,hpt,hpout⟩
  · intro k p t hp hpt hpout
    rcases hrow k p hp with ⟨rfl,rfl⟩ | ⟨hk,hp⟩
    · obtain rfl := Option.some.inj hpt
      apply Or.inl
      rw [hpending]
      exact Table.get?_put_self s.pending (ticket,o.task)
    · have he : t ≠ ticket := by
        rintro rfl
        exact hunused k p hp hpt
      rw [hpend t he,hstreams]
      exact h.waits k p t hp hpt hpout
  · intro k p t hp hpt
    rw [hminted]
    rcases hrow k p hp with ⟨_,rfl⟩ | ⟨_,hp⟩
    · obtain rfl := Option.some.inj hpt
      exact List.mem_cons_self
    · exact List.mem_cons_of_mem _ (h.minted k p t hp hpt)
  · intro j k p q t hp hq hpt hqt
    rcases hrow j p hp with ⟨hj,rfl⟩ | ⟨_,hp⟩
    · obtain rfl := Option.some.inj hpt
      rcases hrow k q hq with ⟨hk,_⟩ | ⟨_,hq⟩
      · rw [hj,hk]
      · exact absurd hqt (hunused k q hq)
    · rcases hrow k q hq with ⟨_,rfl⟩ | ⟨_,hq⟩
      · obtain rfl := Option.some.inj hqt
        exact absurd hpt (hunused j p hp)
      · exact h.fresh j k p q t hp hq hpt hqt
  · intro k p n hp hps
    rcases hrow k p hp with ⟨_,rfl⟩ | ⟨_,hp⟩
    · exact absurd hps (by simp)
    · exact h.found k p n hp hps
  · intro j x k hx hcall
    rw [hstreams] at hx
    obtain ⟨hnone,q,hq,hqt,hrest⟩ := h.claimed j x k hx hcall
    have he : x.ticket ≠ ticket := by
      intro he
      rw [he] at hqt
      exact hunused k q hq hqt
    have hk : k ≠ o.task := by
      rintro rfl
      rw [ho] at hq
      rw [← Option.some.inj hq,hticket] at hqt
      exact absurd hqt (by simp)
    exact ⟨(hpend _ he).trans hnone,q,(hother k hk).trans hq,hqt,hrest⟩
  · rw [hstreams]
    exact h.once
  · intro k p j hp hps
    rw [hstreams]
    rcases hrow k p hp with ⟨rfl,rfl⟩ | ⟨_,hp⟩
    · exact h.slot o.task o j ho hps
    · exact h.slot k p j hp hps
  · rw [hstreams]
    exact h.accepted
  · intro k p j hp hps
    rcases hrow k p hp with ⟨_,rfl⟩ | ⟨_,hp⟩
    · exact absurd hps (by simp)
    · exact h.returned k p j hp hps

private theorem rendezvous_refused (h : Rendezvous s) {socket : Nat} {ticket : String}
    (hnew : s.streams.get? socket = none) :
    Rendezvous { s with streams := s.streams.put ⟨socket,ticket,none,.answered false⟩ } := by
  have hrow : ∀ j x, (s.streams.put ⟨socket,ticket,none,.answered false⟩).get? j = some x →
      x = ⟨socket,ticket,none,.answered false⟩ ∨ s.streams.get? j = some x := by
    intro j x hx
    rw [Table.get?_put] at hx
    split at hx
    · exact .inl (Option.some.inj hx).symm
    · exact .inr hx
  have hold : ∀ j x, s.streams.get? j = some x →
      (s.streams.put ⟨socket,ticket,none,.answered false⟩).get? j = some x := by
    intro j x hx
    have hne : (Stream.mk socket ticket none (.answered false)).socket ≠ j := by
      rintro rfl
      exact absurd (hnew.symm.trans hx) (by simp)
    exact (Table.get?_put_of_ne _ hne).trans hx
  constructor
  · exact h.pending
  · intro k p t hp hpt hpout
    rcases h.waits k p t hp hpt hpout with hpend | ⟨j,x,hx,hcall⟩
    · exact .inl hpend
    · exact .inr ⟨j,x,hold j x hx,hcall⟩
  · exact h.minted
  · exact h.fresh
  · exact h.found
  · intro j x k hx hcall
    rcases hrow j x hx with rfl | hx
    · exact absurd hcall (by simp)
    · exact h.claimed j x k hx hcall
  · intro i j x y k hx hy hxc hyc
    rcases hrow i x hx with rfl | hx
    · exact absurd hxc (by simp)
    · rcases hrow j y hy with rfl | hy
      · exact absurd hyc (by simp)
      · exact h.once i j x y k hx hy hxc hyc
  · intro k p j hp hps
    obtain ⟨x,hx,hrest⟩ := h.slot k p j hp hps
    exact ⟨x,hold j x hx,hrest⟩
  · intro j x hx hstage
    rcases hrow j x hx with rfl | hx
    · exact absurd hstage (by simp)
    · exact h.accepted j x hx hstage
  · exact h.returned

private theorem rendezvous_claimed (h : Rendezvous s) {socket task : Nat} {ticket : String}
    (hnew : s.streams.get? socket = none) (hpend : s.pending.get? ticket = some (ticket,task)) :
    Rendezvous { s with
      pending := s.pending.erase ticket
      streams := s.streams.put ⟨socket,ticket,some task,.claimed⟩ } := by
  have hself : (s.streams.put ⟨socket,ticket,some task,.claimed⟩).get? socket =
      some ⟨socket,ticket,some task,.claimed⟩ := Table.get?_put_self s.streams _
  have hrow : ∀ j x, (s.streams.put ⟨socket,ticket,some task,.claimed⟩).get? j = some x →
      (j = socket ∧ x = ⟨socket,ticket,some task,.claimed⟩) ∨ s.streams.get? j = some x := by
    intro j x hx
    rw [Table.get?_put] at hx
    split at hx
    · next he => exact .inl ⟨he.symm,(Option.some.inj hx).symm⟩
    · exact .inr hx
  have hold : ∀ j x, s.streams.get? j = some x →
      (s.streams.put ⟨socket,ticket,some task,.claimed⟩).get? j = some x := by
    intro j x hx
    have hne : (Stream.mk socket ticket (some task) .claimed).socket ≠ j := by
      rintro rfl
      exact absurd (hnew.symm.trans hx) (by simp)
    exact (Table.get?_put_of_ne _ hne).trans hx
  obtain ⟨o,ho,hot,hout⟩ := h.pending ticket task hpend
  -- whoever has a stream has no entry in the map
  have hfree : ∀ j x, s.streams.get? j = some x → x.call ≠ some task := by
    intro j x hx hcall
    obtain ⟨hnone,p,hp,hpt,_⟩ := h.claimed j x task hx hcall
    rw [ho] at hp
    rw [← Option.some.inj hp,hot] at hpt
    rw [← Option.some.inj hpt,hpend] at hnone
    exact absurd hnone (by simp)
  constructor
  · intro t k ht
    dsimp only at ht
    rw [Table.get?_erase] at ht
    split at ht
    · exact absurd ht (by simp)
    · exact h.pending t k ht
  · intro k p t hp hpt hpout
    dsimp only
    rw [Table.get?_erase]
    split
    · next he =>
      have hk : task = k := h.fresh task k o p ticket ho hp hot (hpt.trans (congrArg some he.symm))
      exact .inr ⟨socket,_,hself,congrArg some hk⟩
    · rcases h.waits k p t hp hpt hpout with hpend | ⟨j,x,hx,hcall⟩
      · exact .inl hpend
      · exact .inr ⟨j,x,hold j x hx,hcall⟩
  · exact h.minted
  · exact h.fresh
  · exact h.found
  · intro j x k hx hcall
    rcases hrow j x hx with ⟨_,rfl⟩ | hx
    · obtain rfl := Option.some.inj hcall
      exact ⟨Table.get?_erase_self s.pending ticket,o,ho,hot,by simp,by simp⟩
    · obtain ⟨hnone,hrest⟩ := h.claimed j x k hx hcall
      refine ⟨?_,hrest⟩
      dsimp only
      rw [Table.get?_erase,hnone]
      simp
  · intro i j x y k hx hy hxc hyc
    rcases hrow i x hx with ⟨hi,rfl⟩ | hx
    · obtain rfl := Option.some.inj hxc
      rcases hrow j y hy with ⟨hj,_⟩ | hy
      · rw [hi,hj]
      · exact absurd hyc (hfree j y hy)
    · rcases hrow j y hy with ⟨_,rfl⟩ | hy
      · obtain rfl := Option.some.inj hyc
        exact absurd hxc (hfree i x hx)
      · exact h.once i j x y k hx hy hxc hyc
  · intro k p j hp hps
    obtain ⟨x,hx,hrest⟩ := h.slot k p j hp hps
    exact ⟨x,hold j x hx,hrest⟩
  · intro j x hx hstage
    rcases hrow j x hx with ⟨_,rfl⟩ | hx
    · exact absurd hstage (by simp)
    · exact h.accepted j x hx hstage
  · exact h.returned

private theorem rendezvous_sent (h : Rendezvous s) {socket task : Nat} {ticket : String}
    (hx : s.streams.get? socket = some ⟨socket,ticket,some task,.claimed⟩)
    (ho : s.openings.get? task = some o) (accepted : Bool) (hlisten : o.stage.listening = accepted)
    (hopenings : s'.openings = if accepted then s.openings.put { o with slot := some socket }
      else s.openings)
    (hstreams : s'.streams = s.streams.put ⟨socket,ticket,some task,.answered accepted⟩)
    (hpending : s'.pending = s.pending) (hminted : s'.minted = s.minted) : Rendezvous s' := by
  have htask : o.task = task := Table.key_of_get? ho
  have hxself : s'.streams.get? socket = some ⟨socket,ticket,some task,.answered accepted⟩ := by
    rw [hstreams]
    exact Table.get?_put_self s.streams _
  have hxother : ∀ j, j ≠ socket → s'.streams.get? j = s.streams.get? j := by
    intro j hj
    have hne : (Stream.mk socket ticket (some task) (.answered accepted)).socket ≠ j := Ne.symm hj
    rw [hstreams]
    exact Table.get?_put_of_ne _ hne
  -- a row differs from the one before only in the slot of the call
  have hrow : ∀ k p, s'.openings.get? k = some p → ∃ q, s.openings.get? k = some q ∧
      p.ticket = q.ticket ∧ p.stage = q.stage ∧
        (p.slot = q.slot ∨ k = task ∧ accepted ∧ p.slot = some socket) := by
    intro k p hp
    rw [hopenings] at hp
    split at hp
    · next haccept =>
      rw [Table.get?_put] at hp
      split at hp
      · next he =>
        have hk : k = task := he.symm.trans htask
        subst hk
        rw [← Option.some.inj hp]
        exact ⟨o,ho,rfl,rfl,.inr ⟨rfl,haccept,rfl⟩⟩
      · exact ⟨p,hp,rfl,rfl,.inl rfl⟩
    · exact ⟨p,hp,rfl,rfl,.inl rfl⟩
  have hrow' : ∀ k q, s.openings.get? k = some q → ∃ p, s'.openings.get? k = some p ∧
      p.ticket = q.ticket ∧ p.stage = q.stage ∧
        (k ≠ task → p.slot = q.slot) ∧ (k = task → accepted → p.slot = some socket) := by
    intro k q hq
    rw [hopenings]
    split
    · by_cases hk : k = task
      · subst hk
        have hqo : o = q := Option.some.inj (ho.symm.trans hq)
        subst hqo
        refine ⟨{ o with slot := some socket },?_,rfl,rfl,by simp,fun _ _ => rfl⟩
        rw [← htask]
        exact Table.get?_put_self s.openings { o with slot := some socket }
      · have hne : ({ o with slot := some socket } : Opening).task ≠ k := by
          intro he
          exact hk (he.symm.trans htask)
        exact ⟨q,(Table.get?_put_of_ne _ hne).trans hq,rfl,rfl,fun _ => rfl,fun he => absurd he hk⟩
    · next haccept => exact ⟨q,hq,rfl,rfl,fun _ => rfl,fun _ ha => absurd ha haccept⟩
  constructor
  · intro t k ht
    rw [hpending] at ht
    obtain ⟨q,hq,hqt,hqout⟩ := h.pending t k ht
    obtain ⟨p,hp,hpt,hps,_⟩ := hrow' k q hq
    exact ⟨p,hp,hpt.trans hqt,hps ▸ hqout⟩
  · intro k p t hp hpt hpout
    obtain ⟨q,hq,hqt,hqs,_⟩ := hrow k p hp
    rw [hpending]
    rcases h.waits k q t hq (hqt.symm.trans hpt) (hqs ▸ hpout) with hpend | ⟨j,y,hy,hcall⟩
    · exact .inl hpend
    · by_cases hj : j = socket
      · subst hj
        rw [hx] at hy
        rw [← Option.some.inj hy] at hcall
        exact .inr ⟨j,_,hxself,hcall⟩
      · exact .inr ⟨j,y,(hxother j hj).trans hy,hcall⟩
  · intro k p t hp hpt
    obtain ⟨q,hq,hqt,_⟩ := hrow k p hp
    rw [hminted]
    exact h.minted k q t hq (hqt.symm.trans hpt)
  · intro j k p q t hp hq hpt hqt
    obtain ⟨p',hp',hpt',_⟩ := hrow j p hp
    obtain ⟨q',hq',hqt',_⟩ := hrow k q hq
    exact h.fresh j k p' q' t hp' hq' (hpt'.symm.trans hpt) (hqt'.symm.trans hqt)
  · intro k p conn hp hps
    obtain ⟨q,hq,hqt,hqs,_⟩ := hrow k p hp
    exact hqt.trans (h.found k q conn hq (hqs.symm.trans hps))
  · intro j y k hy hcall
    rw [hpending]
    by_cases hj : j = socket
    · subst hj
      obtain rfl := Option.some.inj (hxself.symm.trans hy)
      obtain rfl := Option.some.inj hcall
      obtain ⟨hnone,q,hq,hqt,_⟩ := h.claimed j _ task hx rfl
      have hqo : o = q := Option.some.inj (ho.symm.trans hq)
      subst hqo
      obtain ⟨p,hp,hpt,hps,_,hslot⟩ := hrow' task o ho
      refine ⟨hnone,p,hp,hpt.trans hqt,fun ha => ?_,fun ha => ?_⟩
      · have haccept : accepted = true := by simpa using ha
        exact hslot rfl haccept
      · have hlost : accepted = false := by simpa using ha
        rw [hps,hlisten,hlost]
    · rw [hxother j hj] at hy
      obtain ⟨hnone,q,hq,hqt,hyes,hno⟩ := h.claimed j y k hy hcall
      have hk : k ≠ task := by
        rintro rfl
        exact hj (h.once j socket y _ k hy hx hcall rfl)
      obtain ⟨p,hp,hpt,hps,hslot,_⟩ := hrow' k q hq
      refine ⟨hnone,p,hp,hpt.trans hqt,fun ha => (hslot hk).trans (hyes ha),fun ha => ?_⟩
      rw [hps]
      exact hno ha
  · intro i j x y k hxi hyj hxc hyc
    have hcalls : ∀ j y, s'.streams.get? j = some y → ∃ z, s.streams.get? j = some z ∧
        z.call = y.call := by
      intro j y hy
      by_cases hj : j = socket
      · subst hj
        obtain rfl := Option.some.inj (hxself.symm.trans hy)
        exact ⟨_,hx,rfl⟩
      · rw [hxother j hj] at hy
        exact ⟨y,hy,rfl⟩
    obtain ⟨z,hz,hzc⟩ := hcalls i x hxi
    obtain ⟨w,hw,hwc⟩ := hcalls j y hyj
    exact h.once i j z w k hz hw (hzc.trans hxc) (hwc.trans hyc)
  · intro k p j hp hps
    obtain ⟨q,hq,_,_,hslot | ⟨rfl,haccept,hslot⟩⟩ := hrow k p hp
    · obtain ⟨y,hy,hyc,hystage⟩ := h.slot k q j hq (hslot.symm.trans hps)
      have hj : j ≠ socket := by
        rintro rfl
        rw [hx] at hy
        rw [← Option.some.inj hy] at hystage
        exact absurd hystage (by simp)
      exact ⟨y,(hxother j hj).trans hy,hyc,hystage⟩
    · have hj : socket = j := Option.some.inj (hslot.symm.trans hps)
      subst hj
      exact ⟨_,hxself,rfl,congrArg StreamStage.answered haccept⟩
  · intro j y hy hstage
    by_cases hj : j = socket
    · subst hj
      rw [← Option.some.inj (hxself.symm.trans hy)]
      exact ⟨task,rfl⟩
    · rw [hxother j hj] at hy
      exact h.accepted j y hy hstage
  · intro k p j hp hps
    obtain ⟨q,hq,_,hqs,hslot | ⟨rfl,haccept,_⟩⟩ := hrow k p hp
    · exact hslot.trans (h.returned k q j hq (hqs.symm.trans hps))
    · have hqo : o = q := Option.some.inj (ho.symm.trans hq)
      subst hqo
      rw [← hqs,hps,haccept] at hlisten
      simp [OpenStage.listening] at hlisten

/-- The new ticket is none of those before it. -/
def freshTicket (s : Agents) : Action → Bool
  | .mint _ ticket => ticket ∉ s.tickets.minted
  | _ => true

private theorem rendezvous_begin (h : Rendezvous s) (r : Registry) (task : Nat) (agentId : String)
    (port : Nat) : Rendezvous (s.begin r task agentId port) := by
  unfold Tickets.begin
  split
  · exact h
  · next hnew =>
    split
    · exact rendezvous_began h hnew rfl rfl (by simp)
    · exact rendezvous_began h hnew rfl rfl (by simp)

private theorem rendezvous_mint (h : Rendezvous s) (task : Nat) {ticket : String}
    (hfresh : ticket ∉ s.minted) : Rendezvous (s.mint task ticket) := by
  unfold Tickets.mint
  split
  · next t agentId port old slot conn ho =>
    have ht := Table.key_of_get? ho
    subst ht
    exact rendezvous_minted h ho rfl hfresh rfl rfl rfl rfl
  · exact h

private theorem rendezvous_request {s : Agents} (h : Rendezvous s.tickets) (task : Nat) :
    Rendezvous (s.request task).tickets := by
  unfold Agents.request
  split
  · next ho =>
    dsimp only
    split
    · exact rendezvous_stage h ho rfl rfl (fun _ => rfl)
    · exact rendezvous_stage h ho rfl rfl (fun _ => rfl)
  · exact h

private theorem rendezvous_discards (h : Rendezvous s) (task : Nat) :
    Rendezvous (s.discard task) := by
  unfold Tickets.discard
  split
  · next ho => exact rendezvous_discard h ho rfl rfl
  · next ho => exact rendezvous_discard h ho rfl rfl
  · exact h

private theorem rendezvous_collect (h : Rendezvous s) (task : Nat) :
    Rendezvous (s.collect task) := by
  unfold Tickets.collect
  split
  · next t agentId port ticket socket ho =>
    have ht := Table.key_of_get? ho
    subst ht
    apply rendezvous_return h ho rfl
    · intro name hname
      obtain ⟨x,hx,hcall,_⟩ := h.slot t _ socket ho rfl
      obtain ⟨hnone,p,hp,hpt,_⟩ := h.claimed socket x t hx hcall
      obtain ⟨q,hq,hqt,_⟩ := h.pending name t hname
      rw [hp] at hq
      rw [← Option.some.inj hq,hpt] at hqt
      rw [← Option.some.inj hqt,hnone] at hname
      exact absurd hname (by simp)
    · rintro j ⟨⟩
      rfl
  · exact h

private theorem rendezvous_hangUp (h : Rendezvous s) (task : Nat) :
    Rendezvous (s.hangUp task) := by
  unfold Tickets.hangUp
  split
  · next t agentId port ticket ho =>
    have ht := Table.key_of_get? ho
    subst ht
    split
    · next hgone =>
      apply rendezvous_return h ho rfl
      · intro name hname
        obtain ⟨q,hq,hqt,_⟩ := h.pending name t hname
        rw [ho] at hq
        rw [← Option.some.inj hq] at hqt
        have hne : s.pending.get? ticket ≠ some (ticket,t) := by
          simp only [Tickets.hungUp,decide_eq_true_eq] at hgone
          exact hgone.1
        rw [← Option.some.inj hqt] at hname
        exact hne hname
      · rintro j ⟨⟩
    · exact h
  · exact h

private theorem rendezvous_elapse (h : Rendezvous s) (task : Nat) : Rendezvous (s.elapse task) := by
  unfold Tickets.elapse
  split
  · next ho => exact rendezvous_stage h ho rfl rfl (fun _ => rfl)
  · exact h

private theorem rendezvous_expire (h : Rendezvous s) (task : Nat) : Rendezvous (s.expire task) := by
  unfold Tickets.expire
  split
  · next ho => exact rendezvous_stage h ho rfl rfl (fun _ => rfl)
  · exact h

private theorem rendezvous_accept (h : Rendezvous s) (socket : Nat) (ticket : String) :
    Rendezvous (s.acceptStream socket ticket) := by
  unfold Tickets.acceptStream
  split
  · exact h
  · next hnew =>
    split
    · next name task hpend =>
      have hname : name = ticket := Table.key_of_get? hpend
      subst hname
      exact rendezvous_claimed h hnew hpend
    · exact rendezvous_refused h hnew

private theorem rendezvous_send (h : Rendezvous s) (socket : Nat) : Rendezvous (s.send socket) := by
  unfold Tickets.send
  split
  · next t ticket task hx =>
    have ht := Table.key_of_get? hx
    subst ht
    split
    · next o ho =>
      cases hl : o.stage.listening with
      | true => exact rendezvous_sent h hx ho true hl rfl rfl rfl rfl
      | false => exact rendezvous_sent h hx ho false hl rfl rfl rfl rfl
    · exact h
  · exact h

theorem rendezvous_step {s : Agents} (h : Rendezvous s.tickets) {a : Action}
    (hfresh : freshTicket s a) : Rendezvous (step s a).tickets := by
  cases a with
  | number socket =>
    simp only [step,Agents.number]
    split <;> exact h
  | finish socket =>
    simp only [step,Agents.finish]
    split <;> exact h
  | take conn =>
    simp only [step,Agents.take]
    split <;> exact h
  | written conn =>
    simp only [step,Agents.written]
    split <;> exact h
  | read socket text parsed =>
    simp only [step,Agents.read]
    split <;> exact h
  | send task =>
    simp only [step,Agents.send]
    split
    · split <;> exact h
    · exact h
  | openStream task agentId port => exact rendezvous_begin h s.registry task agentId port
  | mint task ticket =>
    have hnew : ticket ∉ s.tickets.minted := by simpa [freshTicket] using hfresh
    exact rendezvous_mint h task hnew
  | request task => exact rendezvous_request h task
  | discard task => exact rendezvous_discards h task
  | collect task => exact rendezvous_collect h task
  | elapse task => exact rendezvous_elapse h task
  | expire task => exact rendezvous_expire h task
  | hangUp task => exact rendezvous_hangUp h task
  | acceptStream socket ticket => exact rendezvous_accept h socket ticket
  | sendStream socket => exact rendezvous_send h socket
  | _ => exact h

theorem rendezvous_run {as : List Action}
    (h : Along step (fun s a => freshTicket s a) start as) :
    Rendezvous (runActs step start as).tickets := by
  refine invariant_runActs (fun s => Rendezvous s.tickets) (fun s a h hok => rendezvous_step h hok)
    ?_ h
  constructor <;> simp [start]

private theorem returned_put {k : Nat} {p p' : Opening} {result : Except OpenError Nat}
    (ho : s.openings.get? k = some o) (hstage : o.stage = .returned result) {j : Nat}
    (hp : s.openings.get? j = some p) (hne : ∀ r, p.stage ≠ .returned r) (htask : p'.task = p.task) :
    (s.openings.put p').get? k = some o := by
  have hj := Table.key_of_get? hp
  have hk : p'.task ≠ k := by
    intro he
    have hjk : j = k := hj.symm.trans (htask.symm.trans he)
    rw [hjk,ho] at hp
    exact hne result (Option.some.inj hp ▸ hstage)
  exact (Table.get?_put_of_ne _ hk).trans ho

theorem returned_stays {s : Agents} {k : Nat} {result : Except OpenError Nat}
    (ho : s.tickets.openings.get? k = some o) (hstage : o.stage = .returned result) (a : Action) :
    (step s a).tickets.openings.get? k = some o := by
  cases a with
  | number socket =>
    simp only [step,Agents.number]
    split <;> exact ho
  | finish socket =>
    simp only [step,Agents.finish]
    split <;> exact ho
  | take conn =>
    simp only [step,Agents.take]
    split <;> exact ho
  | written conn =>
    simp only [step,Agents.written]
    split <;> exact ho
  | read socket text parsed =>
    simp only [step,Agents.read]
    split <;> exact ho
  | send task =>
    simp only [step,Agents.send]
    split
    · split <;> exact ho
    · exact ho
  | openStream task agentId port =>
    simp only [step,Tickets.begin]
    split
    · exact ho
    · next hnew =>
      have hk : task ≠ k := by
        rintro rfl
        exact absurd (hnew.symm.trans ho) (by simp)
      split
      · next e _ =>
        have hne : (Opening.mk task agentId port none none (.returned (.error e))).task ≠ k := hk
        exact (Table.get?_put_of_ne _ hne).trans ho
      · next conn _ =>
        have hne : (Opening.mk task agentId port none none (.found conn)).task ≠ k := hk
        exact (Table.get?_put_of_ne _ hne).trans ho
  | mint task ticket =>
    simp only [step,Tickets.mint]
    split
    · next hp => exact returned_put ho hstage hp (by simp) rfl
    · exact ho
  | request task =>
    simp only [step,Agents.request]
    split
    · next hp => split <;> exact returned_put ho hstage hp (by simp) rfl
    · exact ho
  | discard task =>
    simp only [step,Tickets.discard]
    split
    · next hp => exact returned_put ho hstage hp (by simp) rfl
    · next hp => exact returned_put ho hstage hp (by simp) rfl
    · exact ho
  | collect task =>
    simp only [step,Tickets.collect]
    split
    · next hp => exact returned_put ho hstage hp (by simp) rfl
    · exact ho
  | elapse task =>
    simp only [step,Tickets.elapse]
    split
    · next hp => exact returned_put ho hstage hp (by simp) rfl
    · exact ho
  | expire task =>
    simp only [step,Tickets.expire]
    split
    · next hp => exact returned_put ho hstage hp (by simp) rfl
    · exact ho
  | hangUp task =>
    simp only [step,Tickets.hangUp]
    split
    · next hp =>
      split
      · exact returned_put ho hstage hp (by simp) rfl
      · exact ho
    · exact ho
  | acceptStream socket ticket =>
    simp only [step,Tickets.acceptStream]
    split
    · exact ho
    · split <;> exact ho
  | sendStream socket =>
    simp only [step,Tickets.send]
    split
    · split
      · next p hp =>
        split
        · next hlisten =>
          have hne : ∀ r, p.stage ≠ .returned r := by
            intro r hr
            rw [hr] at hlisten
            simp [OpenStage.listening] at hlisten
          exact returned_put ho hstage hp hne rfl
        · exact ho
      · exact ho
    · exact ho
  | _ => exact ho

theorem returned_for_good {s : Agents} {k : Nat} {result : Except OpenError Nat}
    (ho : s.tickets.openings.get? k = some o) (hstage : o.stage = .returned result)
    (as : List Action) : (runActs step s as).tickets.openings.get? k = some o :=
  invariant_runActs (fun s => s.tickets.openings.get? k = some o)
    (fun _ a ho _ => returned_stays ho hstage a) ho (along_true step s as)

/-- The stream is with the call that minted its ticket, which has it, will take it or has failed. -/
def Joined (s : Tickets) (j : Nat) (x : Stream) : Prop :=
  ∃ k o, s.openings.get? k = some o ∧ o.ticket = some x.ticket ∧ o.slot = some j ∧
    (∀ i p, s.openings.get? i = some p → p.slot = some j → i = k) ∧
    (o.stage = .returned (.ok j) ∨ o.stage.failed ∨ o.stage = .waiting ∨
      ∃ conn, o.stage = .requesting conn)

theorem Rendezvous.joined (h : Rendezvous s) {j : Nat} {x : Stream}
    (hx : s.streams.get? j = some x) (hstage : x.stage = .answered true) : Joined s j x := by
  obtain ⟨k,hcall⟩ := h.accepted j x hx hstage
  obtain ⟨_,o,ho,hticket,hyes,_⟩ := h.claimed j x k hx hcall
  have hslot := hyes hstage
  refine ⟨k,o,ho,hticket,hslot,?_,?_⟩
  · intro i p hp hps
    obtain ⟨y,hy,hyc,_⟩ := h.slot i p j hp hps
    rw [hx] at hy
    rw [← Option.some.inj hy,hcall] at hyc
    exact (Option.some.inj hyc).symm
  · cases hs : o.stage with
    | found conn => exact absurd ((h.found k o conn ho hs).symm.trans hticket) (by simp)
    | requesting conn => exact .inr (.inr (.inr ⟨conn,rfl⟩))
    | waiting => exact .inr (.inr (.inl rfl))
    | failing => exact .inr (.inl rfl)
    | elapsed => exact .inr (.inl rfl)
    | expired => exact .inr (.inl rfl)
    | returned result =>
      cases result with
      | error e => exact .inr (.inl rfl)
      | ok i =>
        have hi := h.returned k o i ho hs
        rw [hslot] at hi
        rw [Option.some.inj hi]
        exact .inl rfl

theorem Rendezvous.pending_iff (h : Rendezvous s) {t : String} {k : Nat} :
    s.pending.get? t = some (t,k) ↔ ∃ o, s.openings.get? k = some o ∧ o.ticket = some t ∧
      o.stage.out ∧ ∀ j x, s.streams.get? j = some x → x.call ≠ some k := by
  constructor
  · intro ht
    obtain ⟨o,ho,hticket,hout⟩ := h.pending t k ht
    refine ⟨o,ho,hticket,hout,?_⟩
    intro j x hx hcall
    obtain ⟨hnone,p,hp,hpt,_⟩ := h.claimed j x k hx hcall
    rw [ho] at hp
    rw [← Option.some.inj hp,hticket] at hpt
    rw [← Option.some.inj hpt,ht] at hnone
    exact absurd hnone (by simp)
  · rintro ⟨o,ho,hticket,hout,hfree⟩
    rcases h.waits k o t ho hticket hout with hpend | ⟨j,x,hx,hcall⟩
    · exact hpend
    · exact absurd hcall (hfree j x hx)

/-- A ticket joins one call and one stream. -/
theorem one_stream_per_ticket (as : List Action)
    (h : Along step (fun s a => freshTicket s a) start as) :
    let s := (runActs step start as).tickets
    (∀ i j x y, s.streams.get? i = some x → s.streams.get? j = some y → x.call.isSome →
      y.call.isSome → x.ticket = y.ticket → i = j) ∧
    (∀ j x, s.streams.get? j = some x → x.stage = .answered true → Joined s j x) ∧
    (∀ k o j, s.openings.get? k = some o → o.slot = some j ∨ o.stage = .returned (.ok j) →
      ∃ x, s.streams.get? j = some x ∧ x.stage = .answered true ∧ o.ticket = some x.ticket) ∧
    (∀ k o result bs, s.openings.get? k = some o → o.stage = .returned result →
      (runActs step start (as ++ bs)).tickets.openings.get? k = some o) ∧
    (∀ k o t result, s.openings.get? k = some o → o.ticket = some t →
      o.stage = .returned result → s.pending.get? t = none) ∧
    (∀ t k, s.pending.get? t = some (t,k) ↔ ∃ o, s.openings.get? k = some o ∧
      o.ticket = some t ∧ o.stage.out ∧ ∀ j x, s.streams.get? j = some x → x.call ≠ some k) := by
  intro s
  have hs : Rendezvous s := rendezvous_run h
  refine ⟨?_,fun j x hx => hs.joined hx,?_,?_,?_,fun t k => hs.pending_iff⟩
  · intro i j x y hx hy hxc hyc hticket
    obtain ⟨k,hk⟩ := Option.isSome_iff_exists.mp hxc
    obtain ⟨m,hm⟩ := Option.isSome_iff_exists.mp hyc
    obtain ⟨_,o,ho,hot,_⟩ := hs.claimed i x k hx hk
    obtain ⟨_,p,hp,hpt,_⟩ := hs.claimed j y m hy hm
    have hkm : k = m := hs.fresh k m o p x.ticket ho hp hot (hticket.symm ▸ hpt)
    exact hs.once i j x y k hx hy hk (hkm ▸ hm)
  · intro k o j ho hsocket
    have hslot : o.slot = some j := hsocket.elim id (hs.returned k o j ho)
    obtain ⟨x,hx,hcall,hstage⟩ := hs.slot k o j ho hslot
    obtain ⟨_,p,hp,hpt,_⟩ := hs.claimed j x k hx hcall
    rw [ho] at hp
    exact ⟨x,hx,hstage,Option.some.inj hp ▸ hpt⟩
  · intro k o result bs ho hstage
    rw [runActs_append]
    exact returned_for_good ho hstage bs
  · intro k o t result ho hticket hstage
    cases ht : s.pending.get? t with
    | none => rfl
    | some row =>
      have hrow : row.1 = t := Table.key_of_get? ht
      obtain ⟨p,hp,hpt,hout⟩ := hs.pending t row.2 (by rw [ht,← hrow])
      have hk := hs.fresh row.2 k p o t hp ho hpt hticket
      rw [hk,ho] at hp
      rw [← Option.some.inj hp,hstage] at hout
      simp [OpenStage.out] at hout

/-- A browser's call is answered; a second stream with the same ticket finds nothing. -/
def dialledBack : List Action :=
  [.authenticate 0 "m" (.ok (200,.ok ⟨true,some "u",none⟩)),.number 0,.register 0,
    .openStream 5 "m" 22,.mint 5 "t",.request 5,.take 0,.written 0,.acceptStream 8 "t",
    .acceptStream 9 "t",.sendStream 8,.collect 5]

theorem one_stream_per_ticket_demo : let s := (runActs step start dialledBack).tickets
    Joined s 8 ⟨8,"t",some 5,.answered true⟩ ∧ s.pending.get? "t" = none := by
  have h := one_stream_per_ticket dialledBack (by decide +kernel)
  constructor
  · exact h.2.1 8 _ (by decide +kernel) rfl
  · exact h.2.2.2.2.1 5 ⟨5,"m",22,some "t",some 8,.returned (.ok 8)⟩ "t" (.ok 8) (by decide +kernel)
      rfl rfl

end WeirdVault.Relay.Agent
