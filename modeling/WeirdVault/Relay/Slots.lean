import WeirdVault.Relay.Quota
import Mathlib.Tactic.Common

/-! # Slots of accounts and of the relay -/

namespace WeirdVault.Relay.Quota

open WeirdVault.Framework

def one {τ : Type} (_ : τ) : Nat := 1

def passed (a : Attempt) : Nat := if a.stage = .relayFull then 0 else 1

def onUsage (id : Nat) (g : ConnectionGuard) : Nat :=
  if g.usage = id ∧ g.dropping = false then 1 else 0

def owes (id : Nat) (a : Attempt) : Nat := if a.stage = .tooMany id then 1 else 0

structure Totals (s : Quotas) : Prop where
  total : s.totalActive = s.guards.sum one + s.attempts.sum one
  passed : s.guards.sum one + s.attempts.sum passed ≤ s.limits.maxTotalConnections

structure Actives (s : Quotas) : Prop where
  active : ∀ id u, s.heap.get? id = some u →
    u.active = s.guards.sum (onUsage id) + s.attempts.sum (owes id)
  limited : ∀ id, s.guards.sum (onUsage id) ≤ s.limits.maxConnectionsPerAccount

/-- The drain has locked the account's entry and found this usage in it. -/
def Checking (account : String) (usage : Nat) : DrainStage → Prop
  | .checkActive name id | .checkUp name id | .checkDown name id _ | .removing name id _ _ =>
    name = account ∧ id = usage
  | _ => False

def PastActive (account : String) (usage : Nat) : DrainStage → Prop
  | .checkUp name id | .checkDown name id _ | .removing name id _ _ => name = account ∧ id = usage
  | _ => False

theorem PastActive.checking {account : String} {usage : Nat} {stage : DrainStage}
    (h : PastActive account usage stage) : Checking account usage stage := by
  cases stage <;> first | exact h | cases h

/-- What the map, the memory and the locks have to do with guards, attempts and drains. -/
structure Links (s : Quotas) : Prop where
  guardId : ∀ id g, s.guards.get? id = some g → id < s.nextGuard
  usageId : ∀ id u, s.heap.get? id = some u → id < s.nextUsage
  mapped : ∀ account id, s.accounts.get? account = some (account,id) →
    ∃ u, s.heap.get? id = some u ∧ u.account = account
  guarded : ∀ id g, s.guards.get? id = some g → g.dropping = false →
    s.accounts.get? g.account = some (g.account,g.usage)
  owed : ∀ task a usage, s.attempts.get? task = some a → a.stage = .tooMany usage →
    usage < s.nextUsage
  entered : ∀ task a usage, s.attempts.get? task = some a → a.stage = .entered usage →
    s.accounts.get? a.account = some (a.account,usage) ∧
      s.locks.get? a.account = some (a.account,.attempt task)
  checking : ∀ task d account usage, s.drains.get? task = some d →
    Checking account usage d.stage → s.accounts.get? account = some (account,usage) ∧
      s.locks.get? account = some (account,.drain task)
  idle : ∀ task d account usage u, s.drains.get? task = some d →
    PastActive account usage d.stage → s.heap.get? usage = some u → u.active = 0

variable {s : Quotas}

private theorem totals_setStage (h : Totals s) {a : Attempt} {stage : AttemptStage}
    {s' : Quotas} (ha : s.attempts.get? a.task = some a) (hfull : a.stage ≠ .relayFull)
    (hattempts : s'.attempts = s.attempts.put { a with stage := stage })
    (hguards : s'.guards = s.guards) (htotal : s'.totalActive = s.totalActive)
    (hlimits : s'.limits = s.limits) (hstage : stage ≠ .relayFull) : Totals s' := by
  have hone := Table.sum_put_old (r := { a with stage := stage }) ha one
  have hpassed := Table.sum_put_old (r := { a with stage := stage }) ha passed
  simp only [one] at hone
  simp only [passed,if_neg hfull,if_neg hstage] at hpassed
  refine ⟨?_,?_⟩
  · rw [hattempts,hguards,htotal,h.total]
    omega
  · have hle := h.passed
    rw [hattempts,hguards,hlimits]
    omega

private theorem totals_acquire (h : Totals s) {task : Nat} (account : String)
    (hnew : s.attempts.get? task = none) : Totals (s.acquire task account) := by
  have hsum := h.total
  have hle := h.passed
  have hone := fun stage => Table.sum_put_new (r := Attempt.mk task account stage) hnew one
  have hpassed := fun stage => Table.sum_put_new (r := Attempt.mk task account stage) hnew passed
  have hless : s.attempts.sum passed ≤ s.attempts.sum one := by
    apply Table.sum_le_sum
    intro a _
    simp only [passed,one]
    split <;> omega
  simp only [one] at hone
  refine ⟨?_,?_⟩
  · simp only [Quotas.acquire]
    rw [hone]
    omega
  · simp only [Quotas.acquire]
    rw [hpassed]
    split
    · simp only [passed,if_true]
      omega
    · simp only [passed,reduceCtorEq,if_false]
      omega

private theorem totals_refuse (h : Totals s) {a : Attempt} (ha : s.attempts.get? a.task = some a)
    (err : QuotaError) : Totals (s.refuse a err) := by
  have hsum := h.total
  have hle := h.passed
  have hone := Table.sum_erase_some ha one
  have hpassed := Table.sum_erase_some ha passed
  simp only [one] at hone
  refine ⟨?_,?_⟩
  · simp only [Quotas.refuse]
    omega
  · simp only [Quotas.refuse]
    omega

private theorem totals_claim (h : Totals s) {a : Attempt} (ha : s.attempts.get? a.task = some a)
    {usage : Nat} (hentered : a.stage = .entered usage)
    (hnew : s.guards.get? s.nextGuard = none) (u : AccountUsage) : Totals (s.claim a u) := by
  unfold Quotas.claim
  dsimp only
  split
  · exact totals_setStage h ha (by simp [hentered]) rfl rfl rfl rfl (by simp)
  · have hsum := h.total
    have hle := h.passed
    have hone := Table.sum_erase_some ha one
    have hpassed := Table.sum_erase_some ha passed
    have hguard := Table.sum_put_new (r := ConnectionGuard.mk s.nextGuard a.account u.id false) hnew one
    simp only [one] at hone hguard
    simp only [passed,hentered,reduceCtorEq,if_false] at hpassed
    refine ⟨?_,?_⟩
    · dsimp only
      omega
    · dsimp only
      omega

private theorem totals_drop (h : Totals s) {g : ConnectionGuard}
    (hg : s.guards.get? g.id = some g) {g' : ConnectionGuard} (hid : g'.id = g.id) {s' : Quotas}
    (hguards : s'.guards = s.guards.put g') (hattempts : s'.attempts = s.attempts)
    (htotal : s'.totalActive = s.totalActive) (hlimits : s'.limits = s.limits) : Totals s' := by
  have hone := Table.sum_put_old (r := g') (hid ▸ hg) one
  simp only [one] at hone
  have hsum := h.total
  have hle := h.passed
  refine ⟨?_,?_⟩
  · rw [hguards,hattempts,htotal]
    omega
  · rw [hguards,hattempts,hlimits]
    omega

private theorem totals_dropped (h : Totals s) {g : ConnectionGuard}
    (hg : s.guards.get? g.id = some g) :
    Totals { s with totalActive := s.totalActive-1, guards := s.guards.erase g.id } := by
  have hone := Table.sum_erase_some hg one
  simp only [one] at hone
  have hsum := h.total
  have hle := h.passed
  refine ⟨?_,?_⟩
  · dsimp only
    omega
  · dsimp only
    omega

private theorem actives_move (h : Actives s) {s' : Quotas} {u u' : AccountUsage}
    (hu : s.heap.get? u.id = some u) (hid : u'.id = u.id) (hheap : s'.heap = s.heap.put u')
    (hlimits : s'.limits = s.limits)
    (hself : u'.active + (s.guards.sum (onUsage u.id) + s.attempts.sum (owes u.id)) =
      u.active + (s'.guards.sum (onUsage u.id) + s'.attempts.sum (owes u.id)))
    (hother : ∀ id, id ≠ u.id → s'.guards.sum (onUsage id) = s.guards.sum (onUsage id) ∧
      s'.attempts.sum (owes id) = s.attempts.sum (owes id))
    (hlimited : s'.guards.sum (onUsage u.id) ≤ s.limits.maxConnectionsPerAccount) : Actives s' := by
  refine ⟨?_,?_⟩
  · intro id v hv
    rw [hheap,Table.get?_put,hid] at hv
    split at hv
    · rename_i he
      obtain rfl := Option.some.inj hv
      subst he
      have hold := h.active _ u hu
      omega
    · rename_i hne
      obtain ⟨hg,ha⟩ := hother id (Ne.symm hne)
      rw [hg,ha]
      exact h.active id v hv
  · intro id
    rw [hlimits]
    by_cases he : id = u.id
    · subst he
      exact hlimited
    · rw [(hother id he).1]
      exact h.limited id

private theorem actives_same (h : Actives s) {s' : Quotas} (hlimits : s'.limits = s.limits)
    (hheap : ∀ id u', s'.heap.get? id = some u' → ∃ u, s.heap.get? id = some u ∧
      u'.active = u.active)
    (hguards : ∀ id, s'.guards.sum (onUsage id) = s.guards.sum (onUsage id))
    (hattempts : ∀ id, s'.attempts.sum (owes id) = s.attempts.sum (owes id)) : Actives s' := by
  refine ⟨?_,?_⟩
  · intro id u' hu'
    obtain ⟨u,hu,hactive⟩ := hheap id u' hu'
    rw [hguards,hattempts,hactive]
    exact h.active id u hu
  · intro id
    rw [hguards,hlimits]
    exact h.limited id

private theorem heap_self {h : Table AccountUsage.id} : ∀ id u', h.get? id = some u' →
    ∃ u, h.get? id = some u ∧ u'.active = u.active :=
  fun _ u' hu' => ⟨u',hu',rfl⟩

private theorem heap_bytes {h : Table AccountUsage.id} {u : AccountUsage} (hu : h.get? u.id = some u)
    (d : Direction) (n : Nat) : ∀ id u', (h.put (u.setBytes d n)).get? id = some u' →
      ∃ v, h.get? id = some v ∧ u'.active = v.active := by
  intro id u' hu'
  have hid : (u.setBytes d n).id = u.id := by cases d <;> rfl
  have hactive : (u.setBytes d n).active = u.active := by cases d <;> rfl
  rw [Table.get?_put,hid] at hu'
  split at hu'
  · rename_i he
    obtain rfl := Option.some.inj hu'
    exact ⟨u,he ▸ hu,hactive⟩
  · exact ⟨u',hu',rfl⟩

private theorem owes_setStage {a : Attempt} (ha : s.attempts.get? a.task = some a)
    {stage : AttemptStage} {id : Nat} (hold : a.stage ≠ .tooMany id) (hnew : stage ≠ .tooMany id) :
    (s.attempts.put { a with stage := stage }).sum (owes id) = s.attempts.sum (owes id) := by
  have hput := Table.sum_put_old (r := { a with stage := stage }) ha (owes id)
  simp only [owes,if_neg hold,if_neg hnew] at hput
  omega

private theorem actives_acquire (h : Actives s) {task : Nat} (account : String)
    (hnew : s.attempts.get? task = none) : Actives (s.acquire task account) := by
  apply actives_same h
  · rfl
  · exact heap_self
  · intro id
    rfl
  · intro id
    have hput := fun stage => Table.sum_put_new (r := Attempt.mk task account stage) hnew (owes id)
    simp only [Quotas.acquire]
    rw [hput]
    split <;> simp [owes]

private theorem actives_enter (h : Actives s) (hl : Links s) {a : Attempt}
    (ha : s.attempts.get? a.task = some a) (hcounted : a.stage = .counted) :
    Actives (s.enter a) := by
  have howes : ∀ usage id, (s.attempts.put { a with stage := .entered usage }).sum (owes id) =
      s.attempts.sum (owes id) :=
    fun usage id => owes_setStage ha (by simp [hcounted]) (by simp)
  unfold Quotas.enter
  dsimp only
  split
  · apply actives_same h
    · rfl
    · exact heap_self
    · intro id
      rfl
    · exact howes _
  · -- The new usage has no slot: nobody knows its address yet.
    have hguards : s.guards.sum (onUsage s.nextUsage) = 0 := by
      apply Table.sum_eq_zero
      intro g hg
      simp only [onUsage,ite_eq_right_iff,Nat.one_ne_zero]
      rintro ⟨husage,hdropping⟩
      have hmap := hl.guarded g.id g (Table.get?_of_mem hg) hdropping
      obtain ⟨u,hu,-⟩ := hl.mapped _ _ hmap
      have hlt := hl.usageId _ u hu
      omega
    have hattempts : s.attempts.sum (owes s.nextUsage) = 0 := by
      apply Table.sum_eq_zero
      intro b hb
      simp only [owes,ite_eq_right_iff,Nat.one_ne_zero]
      intro hstage
      have hlt := hl.owed b.task b _ (Table.get?_of_mem hb) hstage
      omega
    refine ⟨?_,h.limited⟩
    intro id u hu
    change u.active = s.guards.sum (onUsage id) +
      (s.attempts.put { a with stage := .entered s.nextUsage }).sum (owes id)
    rw [howes]
    simp only [Quotas.setStage,Table.get?_put] at hu
    split at hu
    · rename_i he
      obtain rfl := Option.some.inj hu
      change s.nextUsage = id at he
      subst he
      change 0 = _
      omega
    · exact h.active id u hu

private theorem actives_claim (h : Actives s) {a : Attempt} (ha : s.attempts.get? a.task = some a)
    {usage : Nat} (hentered : a.stage = .entered usage) {u : AccountUsage}
    (hu : s.heap.get? u.id = some u) (hnew : s.guards.get? s.nextGuard = none) :
    Actives (s.claim a u) := by
  have hactive := h.active u.id u hu
  have hid : (u.setActive (u.active+1)).id = u.id := rfl
  unfold Quotas.claim
  dsimp only
  split
  · have hput := fun id =>
      Table.sum_put_old (r := { a with stage := AttemptStage.tooMany u.id }) ha (owes id)
    simp only [owes,hentered,reduceCtorEq,if_false] at hput
    refine actives_move h hu hid rfl rfl ?_ ?_ (h.limited u.id)
    · have hself := hput u.id
      simp only [if_true] at hself
      change u.active+1+_ = u.active+(s.guards.sum (onUsage u.id) +
        (s.attempts.put { a with stage := .tooMany u.id }).sum (owes u.id))
      have hsums : s.attempts.sum (owes u.id) + 1 =
          (s.attempts.put { a with stage := .tooMany u.id }).sum (owes u.id) := hself.symm
      omega
    · intro id hne
      refine ⟨rfl,?_⟩
      have hid := hput id
      rw [if_neg (by simpa using Ne.symm hne)] at hid
      exact hid
  · rename_i hmax
    have hput := fun id => Table.sum_put_new
      (r := ConnectionGuard.mk s.nextGuard a.account u.id false) hnew (onUsage id)
    have herase : ∀ id, (s.attempts.erase a.task).sum (owes id) = s.attempts.sum (owes id) := by
      intro id
      have herased := Table.sum_erase_some ha (owes id)
      simp only [owes,hentered,reduceCtorEq,if_false] at herased
      exact herased
    have hself : (s.guards.put ⟨s.nextGuard,a.account,u.id,false⟩).sum (onUsage u.id) =
        s.guards.sum (onUsage u.id) + 1 := by
      have hone := hput u.id
      rwa [onUsage,if_pos ⟨rfl,rfl⟩] at hone
    refine actives_move h hu hid rfl rfl ?_ ?_ ?_
    · change u.active+1+_ = u.active+((s.guards.put ⟨s.nextGuard,a.account,u.id,false⟩).sum _ +
        (s.attempts.erase a.task).sum _)
      rw [hself,herase]
      omega
    · intro id hne
      refine ⟨?_,herase id⟩
      have hzero := hput id
      rwa [onUsage,if_neg (by simpa using Ne.symm hne)] at hzero
    · change (s.guards.put ⟨s.nextGuard,a.account,u.id,false⟩).sum _ ≤ _
      rw [hself]
      omega

private theorem actives_release (h : Actives s) {a : Attempt} (ha : s.attempts.get? a.task = some a)
    {u : AccountUsage} (hstage : a.stage = .tooMany u.id) (hu : s.heap.get? u.id = some u) :
    Actives ({ s with heap := s.heap.put (u.setActive (u.active-1)) }.setStage a .tooManyTotal) := by
  have hactive := h.active u.id u hu
  have hid : (u.setActive (u.active-1)).id = u.id := rfl
  have hput := fun id =>
    Table.sum_put_old (r := { a with stage := AttemptStage.tooManyTotal }) ha (owes id)
  simp only [owes,hstage,reduceCtorEq,if_false,AttemptStage.tooMany.injEq] at hput
  refine actives_move h hu hid rfl rfl ?_ ?_ (h.limited u.id)
  · have hself := hput u.id
    rw [if_pos rfl] at hself
    have hsums : (s.attempts.put { a with stage := .tooManyTotal }).sum (owes u.id) + 1 =
        s.attempts.sum (owes u.id) := hself
    change u.active-1+_ = u.active+(s.guards.sum (onUsage u.id) +
      (s.attempts.put { a with stage := .tooManyTotal }).sum (owes u.id))
    omega
  · intro id hne
    refine ⟨rfl,?_⟩
    have hother := hput id
    rw [if_neg (Ne.symm hne)] at hother
    exact hother

private theorem actives_refuse (h : Actives s) {a : Attempt} (ha : s.attempts.get? a.task = some a)
    (hstage : ∀ id, a.stage ≠ .tooMany id) (err : QuotaError) : Actives (s.refuse a err) := by
  apply actives_same h
  · rfl
  · exact heap_self
  · intro id
    rfl
  · intro id
    have herase := Table.sum_erase_some ha (owes id)
    simp only [owes,if_neg (hstage id)] at herase
    exact herase

private theorem actives_drop (h : Actives s) {g : ConnectionGuard} (hg : s.guards.get? g.id = some g)
    (hdropping : g.dropping = false) {u : AccountUsage} (hu : s.heap.get? u.id = some u)
    (husage : g.usage = u.id) : Actives { s with
      heap := s.heap.put (u.setActive (u.active-1))
      guards := s.guards.put { g with dropping := true } } := by
  have hactive := h.active u.id u hu
  have hlimited := h.limited u.id
  have hid : (u.setActive (u.active-1)).id = u.id := rfl
  have hput := fun id =>
    Table.sum_put_old (r := { g with dropping := true }) hg (onUsage id)
  simp only [onUsage,hdropping,Bool.true_eq_false,and_false,if_false,and_true] at hput
  have hself : (s.guards.put { g with dropping := true }).sum (onUsage u.id) + 1 =
      s.guards.sum (onUsage u.id) := by
    have hone := hput u.id
    rw [if_pos husage] at hone
    exact hone
  refine actives_move h hu hid rfl rfl ?_ ?_ ?_
  · change u.active-1+_ = u.active+((s.guards.put { g with dropping := true }).sum _ +
      s.attempts.sum (owes u.id))
    omega
  · intro id hne
    refine ⟨?_,rfl⟩
    have hother := hput id
    rw [if_neg (fun he => hne (he.symm.trans husage))] at hother
    exact hother
  · change (s.guards.put { g with dropping := true }).sum _ ≤ _
    omega

private theorem actives_dropped (h : Actives s) {g : ConnectionGuard}
    (hg : s.guards.get? g.id = some g) (hdropping : g.dropping = true) :
    Actives { s with totalActive := s.totalActive-1, guards := s.guards.erase g.id } := by
  apply actives_same h
  · rfl
  · exact heap_self
  · intro id
    have herase := Table.sum_erase_some hg (onUsage id)
    simp only [onUsage,hdropping,Bool.true_eq_false,and_false,if_false] at herase
    exact herase
  · intro id
    rfl

private theorem links_heap (h : Links s) {u u' : AccountUsage} (hu : s.heap.get? u.id = some u)
    (hid : u'.id = u.id) (haccount : u'.account = u.account)
    (hidle : ∀ task d account, s.drains.get? task = some d → PastActive account u.id d.stage →
      u'.active = 0) : Links { s with heap := s.heap.put u' } := by
  have hput : ∀ id v, (s.heap.put u').get? id = some v → (id = u.id ∧ v = u') ∨
      s.heap.get? id = some v := by
    intro id v hv
    rw [Table.get?_put,hid] at hv
    split at hv
    · rename_i he
      exact Or.inl ⟨he.symm,(Option.some.inj hv).symm⟩
    · exact Or.inr hv
  refine ⟨h.guardId,?_,?_,h.guarded,h.owed,h.entered,h.checking,?_⟩
  · intro id v hv
    rcases hput id v hv with ⟨rfl,-⟩ | hold
    · exact h.usageId _ u hu
    · exact h.usageId id v hold
  · intro account id hmap
    obtain ⟨v,hv,hacc⟩ := h.mapped account id hmap
    dsimp only
    rw [Table.get?_put,hid]
    split
    · rename_i he
      subst he
      obtain rfl := Option.some.inj (hu.symm.trans hv)
      exact ⟨u',rfl,haccount.trans hacc⟩
    · exact ⟨v,hv,hacc⟩
  · intro task d account usage v hd hpast hv
    rcases hput usage v hv with ⟨rfl,rfl⟩ | hold
    · exact hidle task d account hd hpast
    · exact h.idle task d account usage v hd hpast hold

private theorem links_setStage (h : Links s) {a : Attempt} (stage : AttemptStage)
    (howed : ∀ usage, stage = .tooMany usage → usage < s.nextUsage)
    (hentered : ∀ usage, stage = .entered usage →
      s.accounts.get? a.account = some (a.account,usage) ∧
        s.locks.get? a.account = some (a.account,.attempt a.task)) : Links (s.setStage a stage) := by
  have hput : ∀ task b, (s.attempts.put { a with stage := stage }).get? task = some b →
      (task = a.task ∧ b = { a with stage := stage }) ∨ s.attempts.get? task = some b := by
    intro task b hb
    rw [Table.get?_put] at hb
    split at hb
    · rename_i he
      exact Or.inl ⟨he.symm,(Option.some.inj hb).symm⟩
    · exact Or.inr hb
  refine ⟨h.guardId,h.usageId,h.mapped,h.guarded,?_,?_,h.checking,h.idle⟩
  · intro task b usage hb hstage
    rcases hput task b hb with ⟨-,rfl⟩ | hold
    · exact howed usage hstage
    · exact h.owed task b usage hold hstage
  · intro task b usage hb hstage
    rcases hput task b hb with ⟨rfl,rfl⟩ | hold
    · exact hentered usage hstage
    · exact h.entered task b usage hold hstage

private theorem links_endAttempt (h : Links s) (task : Nat) :
    Links { s with attempts := s.attempts.erase task } := by
  have herase : ∀ t b, (s.attempts.erase task).get? t = some b → s.attempts.get? t = some b := by
    intro t b hb
    rw [Table.get?_erase] at hb
    split at hb
    · simp at hb
    · exact hb
  refine ⟨h.guardId,h.usageId,h.mapped,h.guarded,?_,?_,h.checking,h.idle⟩
  · intro t b usage hb hstage
    exact h.owed t b usage (herase t b hb) hstage
  · intro t b usage hb hstage
    exact h.entered t b usage (herase t b hb) hstage

private theorem links_drains (h : Links s) {d : Drain}
    (hchecking : ∀ account usage, Checking account usage d.stage →
      s.accounts.get? account = some (account,usage) ∧
        s.locks.get? account = some (account,.drain d.task))
    (hidle : ∀ account usage u, PastActive account usage d.stage → s.heap.get? usage = some u →
      u.active = 0) : Links { s with drains := s.drains.put d } := by
  have hput : ∀ task b, (s.drains.put d).get? task = some b →
      (task = d.task ∧ b = d) ∨ s.drains.get? task = some b := by
    intro task b hb
    rw [Table.get?_put] at hb
    split at hb
    · rename_i he
      exact Or.inl ⟨he.symm,(Option.some.inj hb).symm⟩
    · exact Or.inr hb
  refine ⟨h.guardId,h.usageId,h.mapped,h.guarded,h.owed,h.entered,?_,?_⟩
  · intro task b account usage hb hstage
    rcases hput task b hb with ⟨rfl,rfl⟩ | hold
    · exact hchecking account usage hstage
    · exact h.checking task b account usage hold hstage
  · intro task b account usage u hb hstage hu
    rcases hput task b hb with ⟨-,rfl⟩ | hold
    · exact hidle account usage u hstage hu
    · exact h.idle task b account usage u hold hstage hu

private theorem links_less (h : Links s) {u u' : AccountUsage} (hu : s.heap.get? u.id = some u)
    (hid : u'.id = u.id) (haccount : u'.account = u.account) (hle : u'.active ≤ u.active) :
    Links { s with heap := s.heap.put u' } := by
  apply links_heap h hu hid haccount
  intro task d account hd hpast
  have hzero := h.idle task d account _ u hd hpast hu
  omega

private theorem links_bytes (h : Links s) {u : AccountUsage} (hu : s.heap.get? u.id = some u)
    (d : Direction) (n : Nat) : Links { s with heap := s.heap.put (u.setBytes d n) } := by
  cases d with
  | up => exact links_less h hu rfl rfl (Nat.le_refl _)
  | down => exact links_less h hu rfl rfl (Nat.le_refl _)

private theorem links_lock (h : Links s) {account : String} (owner : Owner)
    (hfree : s.locks.get? account = none) :
    Links { s with locks := s.locks.put (account,owner) } := by
  have hput : ∀ other x, s.locks.get? other = some x →
      (s.locks.put (account,owner)).get? other = some x := by
    intro other x hx
    refine (Table.get?_put_of_ne _ ?_).trans hx
    intro he
    change account = other at he
    rw [← he,hfree] at hx
    simp at hx
  refine ⟨h.guardId,h.usageId,h.mapped,h.guarded,h.owed,?_,?_,h.idle⟩
  · intro task a usage ha hstage
    obtain ⟨hmap,hlock⟩ := h.entered task a usage ha hstage
    exact ⟨hmap,hput _ _ hlock⟩
  · intro task d other usage hd hstage
    obtain ⟨hmap,hlock⟩ := h.checking task d other usage hd hstage
    exact ⟨hmap,hput _ _ hlock⟩

private theorem links_unlock (h : Links s) (account : String)
    (hentered : ∀ task a usage, s.attempts.get? task = some a → a.stage = .entered usage →
      a.account ≠ account)
    (hchecking : ∀ task d other usage, s.drains.get? task = some d →
      Checking other usage d.stage → other ≠ account) :
    Links { s with locks := s.locks.erase account } := by
  have herase : ∀ other, other ≠ account →
      (s.locks.erase account).get? other = s.locks.get? other := by
    intro other hne
    rw [Table.get?_erase,if_neg (Ne.symm hne)]
  refine ⟨h.guardId,h.usageId,h.mapped,h.guarded,h.owed,?_,?_,h.idle⟩
  · intro task a usage ha hstage
    obtain ⟨hmap,hlock⟩ := h.entered task a usage ha hstage
    exact ⟨hmap,(herase _ (hentered task a usage ha hstage)).trans hlock⟩
  · intro task d other usage hd hstage
    obtain ⟨hmap,hlock⟩ := h.checking task d other usage hd hstage
    exact ⟨hmap,(herase _ (hchecking task d other usage hd hstage)).trans hlock⟩

private theorem entered_alone (h : Links s) {a : Attempt} {usage : Nat}
    (ha : s.attempts.get? a.task = some a) (hstage : a.stage = .entered usage) :
    (∀ task b usage', s.attempts.get? task = some b → b.stage = .entered usage' →
      b.account = a.account → task = a.task) ∧
    ∀ task d other usage', s.drains.get? task = some d → Checking other usage' d.stage →
      other ≠ a.account := by
  obtain ⟨-,hlock⟩ := h.entered a.task a usage ha hstage
  refine ⟨?_,?_⟩
  · intro task b usage' hb hstage' he
    obtain ⟨-,hlock'⟩ := h.entered task b usage' hb hstage'
    rw [he,hlock] at hlock'
    simpa using hlock'.symm
  · rintro task d other usage' hd hstage' rfl
    obtain ⟨-,hlock'⟩ := h.checking task d _ usage' hd hstage'
    rw [hlock] at hlock'
    simp at hlock'

private theorem checking_alone (h : Links s) {d : Drain} {account : String} {usage : Nat}
    (hd : s.drains.get? d.task = some d) (hstage : Checking account usage d.stage) :
    (∀ task b usage', s.attempts.get? task = some b → b.stage = .entered usage' →
      b.account ≠ account) ∧
    ∀ task b usage', s.drains.get? task = some b → Checking account usage' b.stage →
      task = d.task := by
  obtain ⟨-,hlock⟩ := h.checking d.task d account usage hd hstage
  refine ⟨?_,?_⟩
  · rintro task b usage' hb hstage' rfl
    obtain ⟨-,hlock'⟩ := h.entered task b usage' hb hstage'
    rw [hlock] at hlock'
    simp at hlock'
  · intro task b usage' hb hstage'
    obtain ⟨-,hlock'⟩ := h.checking task b account usage' hb hstage'
    rw [hlock] at hlock'
    simpa using hlock'.symm

private theorem account_unique (h : Links s) {account other : String} {usage : Nat}
    (ha : s.accounts.get? account = some (account,usage))
    (ho : s.accounts.get? other = some (other,usage)) : account = other := by
  obtain ⟨u,hu,hacc⟩ := h.mapped account usage ha
  obtain ⟨v,hv,hoth⟩ := h.mapped other usage ho
  obtain rfl := Option.some.inj (hu.symm.trans hv)
  exact hacc.symm.trans hoth

private theorem links_new (h : Links s) {account : String} (hnone : s.accounts.get? account = none) :
    Links { s with
      accounts := s.accounts.put (account,s.nextUsage)
      heap := s.heap.put (AccountUsage.default s.nextUsage account)
      nextUsage := s.nextUsage+1 } := by
  have hmap : ∀ other x, s.accounts.get? other = some x →
      (s.accounts.put (account,s.nextUsage)).get? other = some x := by
    intro other x hx
    refine (Table.get?_put_of_ne _ ?_).trans hx
    intro he
    change account = other at he
    rw [← he,hnone] at hx
    simp at hx
  have hheap : ∀ id v, s.heap.get? id = some v →
      (s.heap.put (AccountUsage.default s.nextUsage account)).get? id = some v := by
    intro id v hv
    have hlt := h.usageId id v hv
    refine (Table.get?_put_of_ne _ ?_).trans hv
    change s.nextUsage ≠ id
    omega
  refine ⟨h.guardId,?_,?_,?_,?_,?_,?_,?_⟩
  · intro id u hu
    dsimp only at hu ⊢
    rw [Table.get?_put] at hu
    split at hu
    · rename_i he
      change s.nextUsage = id at he
      omega
    · have hlt := h.usageId id u hu
      omega
  · intro other id hget
    dsimp only at hget ⊢
    rw [Table.get?_put] at hget
    split at hget
    · simp only [Option.some.injEq,Prod.mk.injEq] at hget
      obtain ⟨rfl,rfl⟩ := hget
      exact ⟨_,Table.get?_put_self s.heap (AccountUsage.default s.nextUsage account),rfl⟩
    · obtain ⟨u,hu,hacc⟩ := h.mapped other id hget
      exact ⟨u,hheap id u hu,hacc⟩
  · intro id g hg hdropping
    exact hmap _ _ (h.guarded id g hg hdropping)
  · intro task a usage ha hstage
    have hlt := h.owed task a usage ha hstage
    dsimp only
    omega
  · intro task a usage ha hstage
    obtain ⟨hget,hlock⟩ := h.entered task a usage ha hstage
    exact ⟨hmap _ _ hget,hlock⟩
  · intro task d other usage hd hstage
    obtain ⟨hget,hlock⟩ := h.checking task d other usage hd hstage
    exact ⟨hmap _ _ hget,hlock⟩
  · intro task d other usage u hd hpast hu
    dsimp only at hu
    rw [Table.get?_put] at hu
    split at hu
    · obtain rfl := Option.some.inj hu
      rfl
    · exact h.idle task d other usage u hd hpast hu

private theorem links_enter (h : Links s) {a : Attempt} (hfree : s.locks.get? a.account = none) :
    Links (s.enter a) := by
  unfold Quotas.enter
  dsimp only
  split
  · rename_i account usage hget
    have haccount : account = a.account := Table.key_of_get? hget
    subst haccount
    apply links_setStage (links_lock h (.attempt a.task) hfree)
    · intro usage' hstage
      simp at hstage
    · intro usage' hstage
      obtain rfl := AttemptStage.entered.inj hstage
      exact ⟨hget,Table.get?_put_self s.locks (a.account,Owner.attempt a.task)⟩
  · rename_i hnone
    apply links_setStage (links_lock (links_new h hnone) (.attempt a.task) hfree)
    · intro usage' hstage
      simp at hstage
    · intro usage' hstage
      obtain rfl := AttemptStage.entered.inj hstage
      exact ⟨Table.get?_put_self s.accounts (a.account,s.nextUsage),
        Table.get?_put_self s.locks (a.account,Owner.attempt a.task)⟩

private theorem links_claimed (h : Links s) {a : Attempt} (ha : s.attempts.get? a.task = some a)
    {u : AccountUsage} (hstage : a.stage = .entered u.id) (hu : s.heap.get? u.id = some u) :
    Links { s with heap := s.heap.put (u.setActive (u.active+1)) } := by
  have hid : (u.setActive (u.active+1)).id = u.id := rfl
  apply links_heap h hu hid rfl
  intro task d account hd hpast
  have hchecking : Checking account u.id d.stage := hpast.checking
  have haccount := account_unique h (h.checking task d account u.id hd hchecking).1
    (h.entered a.task a u.id ha hstage).1
  exact absurd haccount ((entered_alone h ha hstage).2 task d account u.id hd hchecking)

private theorem links_guard (h : Links s) {g : ConnectionGuard} (hid : g.id = s.nextGuard)
    (hmap : s.accounts.get? g.account = some (g.account,g.usage)) :
    Links { s with guards := s.guards.put g, nextGuard := s.nextGuard+1 } := by
  refine ⟨?_,h.usageId,h.mapped,?_,h.owed,h.entered,h.checking,h.idle⟩
  · intro id b hb
    dsimp only at hb ⊢
    rw [Table.get?_put] at hb
    split at hb
    · omega
    · have hlt := h.guardId id b hb
      omega
  · intro id b hb hdropping
    dsimp only at hb
    rw [Table.get?_put] at hb
    split at hb
    · obtain rfl := Option.some.inj hb
      exact hmap
    · exact h.guarded id b hb hdropping

private theorem links_claim (h : Links s) {a : Attempt} (ha : s.attempts.get? a.task = some a)
    {u : AccountUsage} (hstage : a.stage = .entered u.id) (hu : s.heap.get? u.id = some u) :
    Links (s.claim a u) := by
  have hclaimed := links_claimed h ha hstage hu
  obtain ⟨hcalls,hdrains⟩ := entered_alone h ha hstage
  have hmap := (h.entered a.task a u.id ha hstage).1
  unfold Quotas.claim
  dsimp only
  split
  · have hstaged := links_setStage hclaimed (a := a) (.tooMany u.id)
      (by
        intro usage husage
        obtain rfl := AttemptStage.tooMany.inj husage
        exact h.usageId u.id u hu)
      (by simp)
    refine links_unlock hstaged a.account ?_ hdrains
    intro task b usage hb hb' he
    simp only [Quotas.setStage,Table.get?_put] at hb
    split at hb
    · obtain rfl := Option.some.inj hb
      simp at hb'
    · rename_i hne
      exact hne (hcalls task b usage hb hb' he).symm
  · have hended := links_endAttempt hclaimed a.task
    have hunlocked := links_unlock hended a.account
      (by
        intro task b usage hb hb' he
        dsimp only at hb
        rw [Table.get?_erase] at hb
        split at hb
        · simp at hb
        · rename_i hne
          exact hne (hcalls task b usage hb hb' he).symm)
      hdrains
    exact links_guard hunlocked rfl hmap

private theorem links_dropping (h : Links s) {g : ConnectionGuard}
    (hg : s.guards.get? g.id = some g) :
    Links { s with guards := s.guards.put { g with dropping := true } } := by
  refine ⟨?_,h.usageId,h.mapped,?_,h.owed,h.entered,h.checking,h.idle⟩
  · intro id b hb
    dsimp only at hb
    rw [Table.get?_put] at hb
    split at hb
    · rename_i he
      exact he ▸ h.guardId g.id g hg
    · exact h.guardId id b hb
  · intro id b hb hdropping
    dsimp only at hb
    rw [Table.get?_put] at hb
    split at hb
    · obtain rfl := Option.some.inj hb
      simp at hdropping
    · exact h.guarded id b hb hdropping

private theorem links_dropped (h : Links s) (guard : Nat) :
    Links { s with guards := s.guards.erase guard } := by
  have herase : ∀ id b, (s.guards.erase guard).get? id = some b → s.guards.get? id = some b := by
    intro id b hb
    rw [Table.get?_erase] at hb
    split at hb
    · simp at hb
    · exact hb
  refine ⟨?_,h.usageId,h.mapped,?_,h.owed,h.entered,h.checking,h.idle⟩
  · intro id b hb
    exact h.guardId id b (herase id b hb)
  · intro id b hb hdropping
    exact h.guarded id b (herase id b hb) hdropping

private theorem links_setDrain (h : Links s) {d : Drain}
    (hstage : ∀ account usage, ¬ Checking account usage d.stage) :
    Links { s with drains := s.drains.put d } := by
  apply links_drains h
  · intro account usage hchecking
    exact absurd hchecking (hstage account usage)
  · intro account usage u hpast
    exact absurd hpast.checking (hstage account usage)

private theorem not_checking_retaining (account : String) (usage : Nat) :
    ¬ Checking account usage .retaining := by
  simp [Checking]

private theorem links_kept (h : Links s) {d : Drain} {account : String} {usage : Nat}
    (hd : s.drains.get? d.task = some d) (hstage : Checking account usage d.stage) :
    Links ({ s with locks := s.locks.erase account }.setDrain d .retaining) := by
  obtain ⟨hcalls,hdrains⟩ := checking_alone h hd hstage
  have hstaged := links_setDrain (d := { d with stage := .retaining }) h not_checking_retaining
  refine links_unlock hstaged account hcalls ?_
  rintro task b other usage' hb hb' rfl
  dsimp only at hb
  rw [Table.get?_put] at hb
  split at hb
  · obtain rfl := Option.some.inj hb
    exact not_checking_retaining _ _ hb'
  · rename_i hne
    exact hne (hdrains task b usage' hb hb').symm

private theorem links_checked (h : Links s) {d : Drain} {account : String} {usage : Nat}
    (hd : s.drains.get? d.task = some d) (hstage : Checking account usage d.stage) {loaded : Nat}
    {next : DrainStage} (hnext : ∀ account' usage', Checking account' usage' next →
      account' = account ∧ usage' = usage)
    (hidle : loaded = 0 → ∀ u, s.heap.get? usage = some u → u.active = 0) :
    Links (s.checked d account loaded next) := by
  unfold Quotas.checked
  split
  · exact links_kept h hd hstage
  · rename_i hzero
    apply links_drains h
    · intro account' usage' hchecking
      obtain ⟨rfl,rfl⟩ := hnext account' usage' hchecking
      exact h.checking d.task d account' usage' hd hstage
    · intro account' usage' u hpast hu
      obtain ⟨-,rfl⟩ := hnext account' usage' hpast.checking
      exact hidle (not_not.mp hzero) u hu

private theorem links_remove (h : Links s) (hactive : Actives s) {d : Drain} {account : String}
    {usage up down : Nat} (hd : s.drains.get? d.task = some d)
    (hstage : d.stage = .removing account usage up down) :
    Links ({ s with
      accounts := s.accounts.erase account
      locks := s.locks.erase account }.setDrain d .retaining) := by
  have hpast : PastActive account usage d.stage := by
    rw [hstage]
    exact ⟨rfl,rfl⟩
  have hchecking := hpast.checking
  have hkept := links_kept h hd hchecking
  have hmap := (h.checking d.task d account usage hd hchecking).1
  obtain ⟨hcalls,hdrains⟩ := checking_alone h hd hchecking
  have herase : ∀ other x, other ≠ account → s.accounts.get? other = x →
      (s.accounts.erase account).get? other = x := by
    intro other x hne hx
    rw [Table.get?_erase,if_neg (Ne.symm hne)]
    exact hx
  refine ⟨hkept.guardId,hkept.usageId,?_,?_,hkept.owed,?_,?_,hkept.idle⟩
  · intro other id hget
    change (s.accounts.erase account).get? other = _ at hget
    rw [Table.get?_erase] at hget
    split at hget
    · simp at hget
    · exact h.mapped other id hget
  · intro id g hg hdropping
    have hguard := h.guarded id g hg hdropping
    apply herase _ _ ?_ hguard
    intro he
    rw [he,hmap] at hguard
    simp only [Option.some.injEq,Prod.mk.injEq,true_and] at hguard
    obtain ⟨u,hu,-⟩ := h.mapped account usage hmap
    have hzero := h.idle d.task d account usage u hd hpast hu
    have hone := Table.le_sum (t := s.guards) hg (onUsage usage)
    have hcount := hactive.active usage u hu
    rw [onUsage,if_pos ⟨hguard.symm,hdropping⟩] at hone
    omega
  · intro task a usage' ha hentered
    obtain ⟨hget,hlock⟩ := hkept.entered task a usage' ha hentered
    exact ⟨herase _ _ (hcalls task a usage' ha hentered) hget,hlock⟩
  · intro task b other usage' hb hb'
    obtain ⟨hget,hlock⟩ := hkept.checking task b other usage' hb hb'
    refine ⟨herase _ _ ?_ hget,hlock⟩
    rintro rfl
    change (s.locks.erase other).get? other = _ at hlock
    simp at hlock

/-- What every step keeps, whatever is added to the counters. -/
structure Slots (s : Quotas) : Prop where
  totals : Totals s
  actives : Actives s
  links : Links s

private theorem slots_drains (h : Slots s) {d : Table Drain.task}
    (hlinks : Links { s with drains := d }) : Slots { s with drains := d } :=
  ⟨⟨h.totals.total,h.totals.passed⟩,⟨h.actives.active,h.actives.limited⟩,hlinks⟩

private theorem slots_bytes (h : Slots s) {u : AccountUsage} (hu : s.heap.get? u.id = some u)
    (d : Direction) (n : Nat) : Slots { s with heap := s.heap.put (u.setBytes d n) } :=
  ⟨⟨h.totals.total,h.totals.passed⟩,
    actives_same h.actives rfl (heap_bytes hu d n) (fun _ => rfl) (fun _ => rfl),
    links_bytes h.links hu d n⟩

private theorem slots_acquire (h : Slots s) {task : Nat} (account : String)
    (hnew : s.attempts.get? task = none) : Slots (s.acquire task account) := by
  refine ⟨totals_acquire h.totals account hnew,actives_acquire h.actives account hnew,?_⟩
  have hstaged := fun stage => links_setStage h.links (a := ⟨task,account,.counted⟩) stage
  unfold Quotas.acquire
  dsimp only
  split
  · have hlinks := hstaged .relayFull (by simp) (by simp)
    exact ⟨hlinks.guardId,hlinks.usageId,hlinks.mapped,hlinks.guarded,hlinks.owed,hlinks.entered,
      hlinks.checking,hlinks.idle⟩
  · have hlinks := hstaged .counted (by simp) (by simp)
    exact ⟨hlinks.guardId,hlinks.usageId,hlinks.mapped,hlinks.guarded,hlinks.owed,hlinks.entered,
      hlinks.checking,hlinks.idle⟩

private theorem slots_enter (h : Slots s) {a : Attempt} (ha : s.attempts.get? a.task = some a)
    (hcounted : a.stage = .counted) (hfree : s.locks.get? a.account = none) :
    Slots (s.enter a) := by
  refine ⟨?_,actives_enter h.actives h.links ha hcounted,links_enter h.links hfree⟩
  unfold Quotas.enter
  dsimp only
  split
  · exact totals_setStage h.totals ha (by simp [hcounted]) rfl rfl rfl rfl (by simp)
  · exact totals_setStage h.totals ha (by simp [hcounted]) rfl rfl rfl rfl (by simp)

private theorem slots_claim (h : Slots s) {a : Attempt} (ha : s.attempts.get? a.task = some a)
    {u : AccountUsage} (hstage : a.stage = .entered u.id) (hu : s.heap.get? u.id = some u) :
    Slots (s.claim a u) := by
  have hnew : s.guards.get? s.nextGuard = none := by
    cases hg : s.guards.get? s.nextGuard with
    | none => rfl
    | some g => exact absurd (h.links.guardId _ g hg) (Nat.lt_irrefl _)
  exact ⟨totals_claim h.totals ha hstage hnew u,actives_claim h.actives ha hstage hu hnew,
    links_claim h.links ha hstage hu⟩

private theorem slots_release (h : Slots s) {a : Attempt} (ha : s.attempts.get? a.task = some a)
    {u : AccountUsage} (hstage : a.stage = .tooMany u.id) (hu : s.heap.get? u.id = some u) :
    Slots ({ s with heap := s.heap.put (u.setActive (u.active-1)) }.setStage a .tooManyTotal) := by
  have hid : (u.setActive (u.active-1)).id = u.id := rfl
  have hless := links_less h.links hu hid rfl (Nat.sub_le _ _)
  exact ⟨totals_setStage h.totals ha (by simp [hstage]) rfl rfl rfl rfl (by simp),
    actives_release h.actives ha hstage hu,links_setStage hless .tooManyTotal (by simp) (by simp)⟩

private theorem slots_refuse (h : Slots s) {a : Attempt} (ha : s.attempts.get? a.task = some a)
    (hstage : ∀ id, a.stage ≠ .tooMany id) (err : QuotaError) : Slots (s.refuse a err) := by
  have hlinks := links_endAttempt h.links a.task
  exact ⟨totals_refuse h.totals ha err,actives_refuse h.actives ha hstage err,
    ⟨hlinks.guardId,hlinks.usageId,hlinks.mapped,hlinks.guarded,hlinks.owed,hlinks.entered,
      hlinks.checking,hlinks.idle⟩⟩

private theorem slots_drop (h : Slots s) {g : ConnectionGuard} (hg : s.guards.get? g.id = some g)
    (hdropping : g.dropping = false) {u : AccountUsage} (hu : s.heap.get? u.id = some u)
    (husage : g.usage = u.id) : Slots { s with
      heap := s.heap.put (u.setActive (u.active-1))
      guards := s.guards.put { g with dropping := true } } := by
  have hid : (u.setActive (u.active-1)).id = u.id := rfl
  have hless := links_less h.links hu hid rfl (Nat.sub_le _ _)
  have hgid : ({ g with dropping := true } : ConnectionGuard).id = g.id := rfl
  exact ⟨totals_drop h.totals hg hgid rfl rfl rfl rfl,
    actives_drop h.actives hg hdropping hu husage,links_dropping hless hg⟩

private theorem slots_dropped (h : Slots s) {g : ConnectionGuard}
    (hg : s.guards.get? g.id = some g) (hdropping : g.dropping = true) :
    Slots { s with totalActive := s.totalActive-1, guards := s.guards.erase g.id } := by
  have hlinks := links_dropped h.links g.id
  exact ⟨totals_dropped h.totals hg,actives_dropped h.actives hg hdropping,
    ⟨hlinks.guardId,hlinks.usageId,hlinks.mapped,hlinks.guarded,hlinks.owed,hlinks.entered,
      hlinks.checking,hlinks.idle⟩⟩

private theorem slots_checked (h : Slots s) {d : Drain} {loaded : Nat} {account : String}
    {next : DrainStage} (hlinks : Links (s.checked d account loaded next)) :
    Slots (s.checked d account loaded next) := by
  unfold Quotas.checked at hlinks ⊢
  split
  · rename_i hloaded
    rw [if_pos hloaded] at hlinks
    exact ⟨⟨h.totals.total,h.totals.passed⟩,⟨h.actives.active,h.actives.limited⟩,hlinks⟩
  · rename_i hloaded
    rw [if_neg hloaded] at hlinks
    exact slots_drains h hlinks

private theorem slots_check (h : Slots s) {task : Nat} : Slots (step s (.check task)) := by
  dsimp only [step]
  split
  · rename_i t batch account usage hd
    obtain rfl : t = task := Table.key_of_get? hd
    have hchecking : Checking account usage (.checkActive account usage) := ⟨rfl,rfl⟩
    split
    · rename_i u hu
      apply slots_checked h
      apply links_checked h.links hd hchecking
      · intro account' usage' hnext
        exact ⟨hnext.1.symm,hnext.2.symm⟩
      · intro hzero v hv
        obtain rfl := Option.some.inj (hu.symm.trans hv)
        exact hzero
    · exact h
  · rename_i t batch account usage hd
    obtain rfl : t = task := Table.key_of_get? hd
    have hchecking : Checking account usage (.checkUp account usage) := ⟨rfl,rfl⟩
    split
    · apply slots_checked h
      apply links_checked h.links hd hchecking
      · intro account' usage' hnext
        exact ⟨hnext.1.symm,hnext.2.symm⟩
      · intro _ v hv
        exact h.links.idle t _ account usage v hd ⟨rfl,rfl⟩ hv
    · exact h
  · rename_i t batch account usage up hd
    obtain rfl : t = task := Table.key_of_get? hd
    have hchecking : Checking account usage (.checkDown account usage up) := ⟨rfl,rfl⟩
    split
    · apply slots_checked h
      apply links_checked h.links hd hchecking
      · intro account' usage' hnext
        exact ⟨hnext.1.symm,hnext.2.symm⟩
      · intro _ v hv
        exact h.links.idle t _ account usage v hd ⟨rfl,rfl⟩ hv
    · exact h
  · exact h

theorem slots_step (a : Action) (h : Slots s) : Slots (step s a) := by
  have hmoves := moves_step s a
  generalize step s a = s' at hmoves ⊢
  cases hmoves with
  | idle => exact h
  | acquires account hnew => exact slots_acquire h account hnew
  | enters ha hfree => exact slots_enter h ha rfl hfree
  | claims ha hu => exact slots_claim h ha rfl hu
  | releases ha hu => exact slots_release h ha rfl hu
  | refuses err ha hstage =>
    rcases hstage with rfl | rfl
    · exact slots_refuse h ha (by simp) err
    · exact slots_refuse h ha (by simp) err
  | @drops guard account u hg hu =>
    exact slots_drop (g := ⟨guard,account,u.id,false⟩) h hg rfl hu rfl
  | @dropped guard usage account hg =>
    exact slots_dropped (g := ⟨guard,account,usage,true⟩) h hg rfl
  | counts hg =>
    exact ⟨⟨h.totals.total,h.totals.passed⟩,⟨h.actives.active,h.actives.limited⟩,
      ⟨h.links.guardId,h.links.usageId,h.links.mapped,h.links.guarded,h.links.owed,
        h.links.entered,h.links.checking,h.links.idle⟩⟩
  | @adds u direction bytes hu =>
    have hbytes := slots_bytes h hu direction (u.bytes direction+bytes)
    exact ⟨⟨hbytes.totals.total,hbytes.totals.passed⟩,
      ⟨hbytes.actives.active,hbytes.actives.limited⟩,
      ⟨hbytes.links.guardId,hbytes.links.usageId,hbytes.links.mapped,hbytes.links.guarded,
        hbytes.links.owed,hbytes.links.entered,hbytes.links.checking,hbytes.links.idle⟩⟩
  | drains hnew =>
    apply slots_drains h
    apply links_setDrain h.links
    simp [Checking]
  | visits hd hget hu =>
    have hbytes := slots_bytes h hu .up 0
    apply slots_drains hbytes
    apply links_setDrain hbytes.links
    simp [Checking]
  | swaps hd hu =>
    have hbytes := slots_bytes h hu .down 0
    apply slots_drains hbytes
    apply links_setDrain hbytes.links
    simp [Checking]
  | retains hd =>
    apply slots_drains h
    apply links_setDrain h.links
    exact not_checking_retaining
  | @locks task usage batch account hd hget hfree =>
    have hlocked := links_lock h.links (.drain task) hfree
    refine ⟨⟨h.totals.total,h.totals.passed⟩,⟨h.actives.active,h.actives.limited⟩,?_⟩
    apply links_drains hlocked
    · intro account' usage' hchecking
      obtain ⟨rfl,rfl⟩ := hchecking
      exact ⟨hget,Table.get?_put_self s.locks (account,Owner.drain task)⟩
    · intro account' usage' u hpast
      simp [PastActive] at hpast
  | checks task => exact slots_check h
  | removes hd =>
    exact ⟨⟨h.totals.total,h.totals.passed⟩,⟨h.actives.active,h.actives.limited⟩,
      links_remove h.links h.actives hd rfl⟩
  | @reports task batch hd =>
    have herase : ∀ id d, (s.drains.erase task).get? id = some d → s.drains.get? id = some d := by
      intro id d hd'
      rw [Table.get?_erase] at hd'
      split at hd'
      · simp at hd'
      · exact hd'
    refine ⟨⟨h.totals.total,h.totals.passed⟩,⟨h.actives.active,h.actives.limited⟩,
      ⟨h.links.guardId,h.links.usageId,h.links.mapped,h.links.guarded,h.links.owed,
        h.links.entered,?_,?_⟩⟩
    · intro id d account usage hd' hchecking
      exact h.links.checking id d account usage (herase id d hd') hchecking
    · intro id d account usage u hd' hpast hu
      exact h.links.idle id d account usage u (herase id d hd') hpast hu

theorem slots_run (limits : Limits) (as : List Action) : Slots (runActs step (new limits) as) := by
  have hstart : Slots (new limits) := by
    refine ⟨⟨rfl,Nat.zero_le _⟩,⟨?_,fun _ => Nat.zero_le _⟩,?_⟩
    · intro id u hu
      simp [new] at hu
    · constructor <;> simp [new]
  exact invariant_runActs Slots (fun _ a h _ => slots_step a h) hstart (along_true step _ as)

end WeirdVault.Relay.Quota
