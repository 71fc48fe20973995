import WeirdVault.Relay.Slots

/-! # Conservation of counted bytes -/

namespace WeirdVault.Relay.Quota

open WeirdVault.Framework

def AccountBytes.bytes (b : AccountBytes) : Direction → Nat
  | .up => b.bytesUp
  | .down => b.bytesDown

def addedTo (log : List (String × Direction × Nat)) (account : String) (d : Direction) : Nat :=
  (log.map fun e => if e.1 = account ∧ e.2.1 = d then e.2.2 else 0).sum

def inBatch (account : String) (d : Direction) (batch : List AccountBytes) : Nat :=
  (batch.map fun b => if b.account = account then b.bytes d else 0).sum

def pending (account : String) (d : Direction) : DrainStage → Nat
  | .swapped name _ bytesUp => if name = account ∧ d = .up then bytesUp else 0
  | _ => 0

def drained (account : String) (d : Direction) (dr : Drain) : Nat :=
  inBatch account d dr.batch + pending account d dr.stage

namespace Quotas

def handed (s : Quotas) (account : String) (d : Direction) : Nat :=
  (s.reports.map (inBatch account d)).sum + s.drains.sum (drained account d)

/-- What the next drain finds in the map. -/
def owed (s : Quotas) (account : String) (d : Direction) : Nat :=
  match s.accounts.get? account with
  | some (_,usage) => (s.heap.get? usage).elim 0 (·.bytes d)
  | none => 0

def Attached (s : Quotas) (u : AccountUsage) : Prop :=
  s.accounts.get? u.account = some (u.account,u.id)

end Quotas

instance (s : Quotas) (u : AccountUsage) : Decidable (s.Attached u) :=
  inferInstanceAs (Decidable (_ = _))

/-- The additions that came when there had been `n`. -/
def addedSince (log : List (String × Direction × Nat)) (n : Nat) : List (String × Direction × Nat) :=
  log.take (log.length-n)

/-- Nothing has been added to the entry that goes since its counters were loaded. -/
def Untouched (added : List (String × Direction × Nat)) : DrainStage → Prop
  | .removing account _ up down => addedTo (addedSince added up) account .up = 0 ∧
      addedTo (addedSince added down) account .down = 0
  | _ => True

/-- Bytes are added to usages that are in the map, and none between the load of a counter and the
removal of its entry. -/
def Kept (s : Quotas) : Action → Prop
  | .add usage _ bytes => bytes = 0 ∨ ∀ u ∈ s.heap.get? usage, s.Attached u
  | .remove task => ∀ dr ∈ s.drains.get? task, Untouched s.added dr.stage
  | _ => True

/-- The drain has loaded this counter of the usage when there had been `n` additions. -/
def Loaded (account : String) (usage n : Nat) : Direction → DrainStage → Prop
  | .up,.checkDown name id up => (name = account ∧ id = usage) ∧ up = n
  | .up,.removing name id up _ => (name = account ∧ id = usage) ∧ up = n
  | .down,.removing name id _ down => (name = account ∧ id = usage) ∧ down = n
  | _,_ => False

/-- A counter that was loaded as zero has no more in it than was added since. -/
def Loads (s : Quotas) : Prop :=
  ∀ task dr account usage n d, s.drains.get? task = some dr → Loaded account usage n d dr.stage →
    n ≤ s.added.length ∧ ∀ u, s.heap.get? usage = some u →
      u.bytes d ≤ addedTo (addedSince s.added n) account d

structure Conserved (s : Quotas) : Prop where
  conserved : ∀ account d, addedTo s.added account d = s.handed account d + s.owed account d
  detached : ∀ id u, s.heap.get? id = some u → ¬ s.Attached u → ∀ d, u.bytes d = 0
  swapping : ∀ task dr account usage bytesUp, s.drains.get? task = some dr →
    dr.stage = .swapped account usage bytesUp →
    ∃ u, s.heap.get? usage = some u ∧ u.account = account

variable {s : Quotas}

private theorem put_cases {t : Table Drain.task} {dr : Drain} {task : Nat} {b : Drain}
    (h : (t.put dr).get? task = some b) : b = dr ∨ t.get? task = some b := by
  rw [Table.get?_put] at h
  split at h
  · exact Or.inl (Option.some.inj h).symm
  · exact Or.inr h

private theorem bytes_setBytes (u : AccountUsage) (d d' : Direction) (n : Nat) :
    (u.setBytes d n).bytes d' = if d' = d then n else u.bytes d' := by
  cases d <;> cases d' <;> rfl

private theorem Loaded.checking {account : String} {usage n : Nat} {d : Direction}
    {stage : DrainStage} (h : Loaded account usage n d stage) : Checking account usage stage := by
  cases d <;> cases stage <;> first | exact h.1 | cases h

private theorem loads_heap (h : Loads s) {u u' : AccountUsage} (hu : s.heap.get? u.id = some u)
    (hid : u'.id = u.id) (hle : ∀ d, u'.bytes d ≤ u.bytes d) :
    Loads { s with heap := s.heap.put u' } := by
  intro task dr account usage n d hdr hloaded
  obtain ⟨hn,hbytes⟩ := h task dr account usage n d hdr hloaded
  refine ⟨hn,fun v hv => ?_⟩
  rw [Table.get?_put,hid] at hv
  split at hv
  · rename_i he
    subst he
    obtain rfl := Option.some.inj hv
    exact Nat.le_trans (hle d) (hbytes u hu)
  · exact hbytes v hv

private theorem loads_setDrain (h : Loads s) (dr : Drain) {stage : DrainStage}
    (hstage : ∀ account usage, ¬ Checking account usage stage) : Loads (s.setDrain dr stage) := by
  intro task b account usage n d hb hloaded
  rcases put_cases hb with rfl | hold
  · exact absurd hloaded.checking (hstage account usage)
  · exact h task b account usage n d hold hloaded

private theorem loads_enter (h : Loads s) (a : Attempt) : Loads (s.enter a) := by
  unfold Quotas.enter
  dsimp only
  split
  · exact h
  · intro task dr account usage n d hdr hloaded
    obtain ⟨hn,hbytes⟩ := h task dr account usage n d hdr hloaded
    refine ⟨hn,fun v hv => ?_⟩
    dsimp only [Quotas.setStage] at hv
    rw [Table.get?_put] at hv
    split at hv
    · obtain rfl := Option.some.inj hv
      cases d <;> exact Nat.zero_le _
    · exact hbytes v hv

private theorem addedTo_since_cons {log : List (String × Direction × Nat)} {n : Nat}
    (h : n ≤ log.length) (e : String × Direction × Nat) (account : String) (d : Direction) :
    addedTo (addedSince (e :: log) n) account d =
      (if e.1 = account ∧ e.2.1 = d then e.2.2 else 0) + addedTo (addedSince log n) account d := by
  have hlength : (e :: log).length-n = (log.length-n)+1 := by
    rw [List.length_cons]
    omega
  rw [addedSince,hlength,List.take_succ_cons,addedTo,List.map_cons,List.sum_cons]
  rfl

private theorem loads_add (h : Loads s) (hl : Links s) {u : AccountUsage}
    (hu : s.heap.get? u.id = some u) (d : Direction) (bytes : Nat) : Loads { s with
      heap := s.heap.put (u.setBytes d (u.bytes d+bytes))
      added := (u.account,d,bytes) :: s.added } := by
  intro task dr account usage n d' hdr hloaded
  obtain ⟨hn,hbytes⟩ := h task dr account usage n d' hdr hloaded
  have hid : (u.setBytes d (u.bytes d+bytes)).id = u.id := by cases d <;> rfl
  refine ⟨Nat.le_succ_of_le hn,fun v hv => ?_⟩
  rw [Table.get?_put,hid] at hv
  rw [addedTo_since_cons hn]
  split at hv
  · rename_i he
    subst he
    obtain rfl := Option.some.inj hv
    obtain ⟨w,hw,hname⟩ := hl.mapped _ _ (hl.checking task dr account u.id hdr hloaded.checking).1
    obtain rfl := Option.some.inj (hu.symm.trans hw)
    have hold := hbytes u hu
    rw [bytes_setBytes]
    by_cases hd : d' = d
    · subst hd
      rw [if_pos rfl,if_pos ⟨hname,rfl⟩]
      dsimp only
      omega
    · rw [if_neg hd]
      omega
  · exact Nat.le_trans (hbytes v hv) (Nat.le_add_left _ _)

private theorem loads_checked (h : Loads s) {dr : Drain} (account : String) {loaded : Nat}
    {next : DrainStage}
    (hnext : loaded = 0 → ∀ name usage n d, Loaded name usage n d next →
      Loaded name usage n d dr.stage ∨
        n = s.added.length ∧ ∀ u, s.heap.get? usage = some u → u.bytes d = 0)
    (hdr : s.drains.get? dr.task = some dr) : Loads (s.checked dr account loaded next) := by
  unfold Quotas.checked
  split
  · exact loads_setDrain h dr (fun _ _ => id)
  · rename_i hzero
    intro task b name usage n d hb hloaded
    rcases put_cases hb with rfl | hold
    · rcases hnext (not_not.mp hzero) name usage n d hloaded with hbefore | ⟨rfl,hnone⟩
      · exact h dr.task dr name usage n d hdr hbefore
      · refine ⟨Nat.le_refl _,fun u hu => ?_⟩
        rw [hnone u hu]
        exact Nat.zero_le _
    · exact h task b name usage n d hold hloaded

private theorem loads_check (h : Loads s) {task : Nat} : Loads (step s (.check task)) := by
  dsimp only [step]
  split
  · rename_i t batch account usage hdr
    obtain rfl : t = task := Table.key_of_get? hdr
    split
    · apply loads_checked h account ?_ hdr
      intro _ name id n d hloaded
      cases d <;> cases hloaded
    · exact h
  · rename_i t batch account usage hdr
    obtain rfl : t = task := Table.key_of_get? hdr
    split
    · rename_i u hu
      apply loads_checked h account ?_ hdr
      intro hzero name id n d hloaded
      cases d with
      | up =>
        obtain ⟨⟨rfl,rfl⟩,rfl⟩ := hloaded
        refine Or.inr ⟨rfl,fun v hv => ?_⟩
        obtain rfl := Option.some.inj (hu.symm.trans hv)
        exact hzero
      | down => cases hloaded
    · exact h
  · rename_i t batch account usage up hdr
    obtain rfl : t = task := Table.key_of_get? hdr
    split
    · rename_i u hu
      apply loads_checked h account ?_ hdr
      intro hzero name id n d hloaded
      cases d with
      | up => exact Or.inl hloaded
      | down =>
        obtain ⟨⟨rfl,rfl⟩,rfl⟩ := hloaded
        refine Or.inr ⟨rfl,fun v hv => ?_⟩
        obtain rfl := Option.some.inj (hu.symm.trans hv)
        exact hzero
    · exact h
  · exact h

private theorem loads_step (a : Action) (hs : Slots s) (h : Loads s) : Loads (step s a) := by
  have hactive : ∀ {u : AccountUsage} (n : Nat), s.heap.get? u.id = some u →
      Loads { s with heap := s.heap.put (u.setActive n) } :=
    fun n hu => loads_heap h hu rfl (fun d => by cases d <;> exact Nat.le_refl _)
  have hswap : ∀ {u : AccountUsage} (d : Direction), s.heap.get? u.id = some u →
      Loads { s with heap := s.heap.put (u.setBytes d 0) } := by
    intro u d hu
    apply loads_heap h hu (by cases d <;> rfl)
    intro d'
    rw [bytes_setBytes]
    split
    · exact Nat.zero_le _
    · exact Nat.le_refl _
  have hmoves := moves_step s a
  generalize step s a = s' at hmoves ⊢
  cases hmoves with
  | idle => exact h
  | acquires | refuses | dropped | counts => exact h
  | enters ha hfree => exact loads_enter h _
  | claims ha hu =>
    unfold Quotas.claim
    dsimp only
    split
    · exact hactive _ hu
    · exact hactive _ hu
  | releases ha hu => exact hactive _ hu
  | drops hg hu => exact hactive _ hu
  | adds direction bytes hu => exact loads_add h hs.links hu direction bytes
  | @drains task hnew => exact loads_setDrain h ⟨task,[],.visiting⟩ (fun _ _ => id)
  | visits hd hget hu => exact loads_setDrain (hswap .up hu) _ (fun _ _ => id)
  | @swaps task bytesUp batch account u hd hu =>
    exact loads_setDrain (hswap .down hu) ⟨task,_,.visiting⟩ (fun _ _ => id)
  | retains hd => exact loads_setDrain h _ (fun _ _ => id)
  | locks hd hget hfree =>
    intro task' b name usage n d hb hloaded
    rcases put_cases hb with rfl | hold
    · cases d <;> cases hloaded
    · exact h task' b name usage n d hold hloaded
  | checks task => exact loads_check h
  | removes hd => exact loads_setDrain h _ (fun _ _ => id)
  | reports hd =>
    intro task' b name usage n d hb hloaded
    dsimp only at hb
    rw [Table.get?_erase] at hb
    split at hb
    · cases hb
    · exact h task' b name usage n d hb hloaded

private theorem owed_put (hl : Links s) {u u' : AccountUsage} (hu : s.heap.get? u.id = some u)
    (hid : u'.id = u.id) (hor : s.Attached u ∨ ∀ d, u'.bytes d = u.bytes d) (account : String)
    (d : Direction) :
    { s with heap := s.heap.put u' }.owed account d + (if u.account = account then u.bytes d else 0)
      = s.owed account d + (if u.account = account then u'.bytes d else 0) := by
  unfold Quotas.owed
  dsimp only
  cases hget : s.accounts.get? account with
  | none =>
    dsimp only
    split
    · rename_i he
      subst he
      rcases hor with hatt | hsame
      · simp [Quotas.Attached,hget] at hatt
      · rw [hsame]
    · rfl
  | some e =>
    obtain ⟨name,usage⟩ := e
    obtain rfl : name = account := Table.key_of_get? hget
    obtain ⟨v,hv,hacc⟩ := hl.mapped name usage hget
    dsimp only
    rw [Table.get?_put,hid]
    by_cases he : u.id = usage
    · subst he
      obtain rfl := Option.some.inj (hu.symm.trans hv)
      rw [if_pos rfl,if_pos hacc,if_pos hacc,hv]
      simp only [Option.elim_some]
      omega
    · rw [if_neg he]
      split
      · rename_i hname
        rcases hor with hatt | hsame
        · rw [Quotas.Attached,hname,hget] at hatt
          simp only [Option.some.injEq,Prod.mk.injEq,true_and] at hatt
          exact absurd hatt.symm he
        · rw [hsame]
      · rfl

private theorem detached_put (h : Conserved s) {u u' : AccountUsage}
    (hu : s.heap.get? u.id = some u) (hid : u'.id = u.id) (haccount : u'.account = u.account)
    (hor : s.Attached u ∨ ∀ d, u'.bytes d = u.bytes d) {s' : Quotas}
    (hheap : s'.heap = s.heap.put u') (haccounts : s'.accounts = s.accounts) :
    ∀ id v, s'.heap.get? id = some v → ¬ s'.Attached v → ∀ d, v.bytes d = 0 := by
  intro id v hv hnot d
  rw [Quotas.Attached,haccounts] at hnot
  rw [hheap,Table.get?_put,hid] at hv
  split at hv
  · obtain rfl := Option.some.inj hv
    rw [haccount,hid] at hnot
    rcases hor with hatt | hsame
    · exact absurd hatt hnot
    · rw [hsame]
      exact h.detached u.id u hu hnot d
  · exact h.detached id v hv hnot d

private theorem swapping_put {u u' : AccountUsage}
    (hu : s.heap.get? u.id = some u) (hid : u'.id = u.id) (haccount : u'.account = u.account)
    {usage : Nat} {account : String} (hold : ∃ v, s.heap.get? usage = some v ∧ v.account = account) :
    ∃ v, (s.heap.put u').get? usage = some v ∧ v.account = account := by
  obtain ⟨v,hv,hacc⟩ := hold
  rw [Table.get?_put,hid]
  split
  · rename_i he
    subst he
    obtain rfl := Option.some.inj (hu.symm.trans hv)
    exact ⟨u',rfl,haccount.trans hacc⟩
  · exact ⟨v,hv,hacc⟩

private theorem conserved_slots (h : Conserved s) (hl : Links s) {u u' : AccountUsage}
    (hu : s.heap.get? u.id = some u) (hid : u'.id = u.id) (haccount : u'.account = u.account)
    (hbytes : ∀ d, u'.bytes d = u.bytes d) : Conserved { s with heap := s.heap.put u' } := by
  refine ⟨?_,detached_put h hu hid haccount (Or.inr hbytes) rfl rfl,?_⟩
  · intro account d
    have howed := owed_put hl hu hid (Or.inr hbytes) account d
    have hold := h.conserved account d
    rw [hbytes] at howed
    change addedTo s.added account d = s.handed account d + _
    omega
  · intro task dr account usage bytesUp hdr hstage
    exact swapping_put hu hid haccount (h.swapping task dr account usage bytesUp hdr hstage)

private theorem conserved_new (h : Conserved s) (hl : Links s) {account : String}
    (hnone : s.accounts.get? account = none) : Conserved { s with
      accounts := s.accounts.put (account,s.nextUsage)
      heap := s.heap.put (AccountUsage.default s.nextUsage account)
      nextUsage := s.nextUsage+1 } := by
  have hheap : ∀ id v, s.heap.get? id = some v →
      (s.heap.put (AccountUsage.default s.nextUsage account)).get? id = some v := by
    intro id v hv
    have hlt := hl.usageId id v hv
    refine (Table.get?_put_of_ne _ ?_).trans hv
    change s.nextUsage ≠ id
    omega
  have hother : ∀ other, other ≠ account →
      (s.accounts.put (account,s.nextUsage)).get? other = s.accounts.get? other :=
    fun other hne => Table.get?_put_of_ne _ (Ne.symm hne)
  refine ⟨?_,?_,?_⟩
  · intro other d
    have hold := h.conserved other d
    change addedTo s.added other d = s.handed other d + _
    by_cases he : other = account
    · subst he
      have hzero : s.owed other d = 0 := by
        rw [Quotas.owed,hnone]
      have hself : (s.accounts.put (other,s.nextUsage)).get? other = some (other,s.nextUsage) :=
        Table.get?_put_self s.accounts (other,s.nextUsage)
      have hnew : (s.heap.put (AccountUsage.default s.nextUsage other)).get? s.nextUsage =
          some (AccountUsage.default s.nextUsage other) :=
        Table.get?_put_self s.heap (AccountUsage.default s.nextUsage other)
      have hbytes : (AccountUsage.default s.nextUsage other).bytes d = 0 := by cases d <;> rfl
      simp only [Quotas.owed,hself,hnew,Option.elim_some,hbytes]
      omega
    · have hsame : Quotas.owed { s with
          accounts := s.accounts.put (account,s.nextUsage)
          heap := s.heap.put (AccountUsage.default s.nextUsage account)
          nextUsage := s.nextUsage+1 } other d = s.owed other d := by
        simp only [Quotas.owed,hother other he]
        cases hget : s.accounts.get? other with
        | none => rfl
        | some e =>
          obtain ⟨name,usage⟩ := e
          obtain rfl : name = other := Table.key_of_get? hget
          obtain ⟨v,hv,-⟩ := hl.mapped name usage hget
          simp only [hheap usage v hv,hv]
      omega
  · intro id v hv hnot d
    dsimp only at hv
    rw [Table.get?_put] at hv
    split at hv
    · obtain rfl := Option.some.inj hv
      cases d <;> rfl
    · have hlt := hl.usageId id v hv
      apply h.detached id v hv _ d
      intro hatt
      apply hnot
      have hne : v.account ≠ account := by
        intro he
        rw [Quotas.Attached,he,hnone] at hatt
        simp at hatt
      exact (hother _ hne).trans hatt
  · intro task dr name usage bytesUp hdr hstage
    obtain ⟨v,hv,hacc⟩ := h.swapping task dr name usage bytesUp hdr hstage
    exact ⟨v,hheap usage v hv,hacc⟩

private theorem conserved_add (h : Conserved s) (hl : Links s) {u : AccountUsage}
    (hu : s.heap.get? u.id = some u) {d : Direction} {n : Nat} (hkept : n = 0 ∨ s.Attached u) :
    Conserved { s with
      heap := s.heap.put (u.setBytes d (u.bytes d+n))
      added := (u.account,d,n) :: s.added } := by
  have hid : (u.setBytes d (u.bytes d+n)).id = u.id := by cases d <;> rfl
  have haccount : (u.setBytes d (u.bytes d+n)).account = u.account := by cases d <;> rfl
  have hor : s.Attached u ∨ ∀ d', (u.setBytes d (u.bytes d+n)).bytes d' = u.bytes d' := by
    rcases hkept with rfl | hatt
    · refine Or.inr fun d' => ?_
      rw [bytes_setBytes]
      split
      · rename_i he
        rw [he,Nat.add_zero]
      · rfl
    · exact Or.inl hatt
  refine ⟨?_,detached_put h hu hid haccount hor rfl rfl,?_⟩
  · intro account d'
    have howed := owed_put hl hu hid hor account d'
    have hold := h.conserved account d'
    have hadded : addedTo ((u.account,d,n) :: s.added) account d' =
        (if u.account = account ∧ d = d' then n else 0) + addedTo s.added account d' := by
      rw [addedTo,List.map_cons,List.sum_cons,addedTo]
    rw [bytes_setBytes] at howed
    change addedTo ((u.account,d,n) :: s.added) account d' = s.handed account d' +
      Quotas.owed { s with heap := s.heap.put (u.setBytes d (u.bytes d+n)) } account d'
    rw [hadded]
    by_cases hname : u.account = account
    · by_cases hd : d' = d
      · subst hd
        simp only [hname,if_true,and_self] at howed ⊢
        omega
      · simp only [hname,if_true,if_neg hd,true_and,if_neg (Ne.symm hd)] at howed ⊢
        omega
    · simp only [hname,if_false,false_and] at howed ⊢
      omega
  · intro task dr account usage bytesUp hdr hstage
    exact swapping_put hu hid haccount (h.swapping task dr account usage bytesUp hdr hstage)

private theorem conserved_drain (h : Conserved s) {dr' : Drain}
    (hsum : ∀ account d, (s.drains.put dr').sum (drained account d) =
      s.drains.sum (drained account d))
    (hstage : ∀ account usage bytesUp, dr'.stage ≠ .swapped account usage bytesUp) :
    Conserved { s with drains := s.drains.put dr' } := by
  refine ⟨?_,h.detached,?_⟩
  · intro account d
    have hold := h.conserved account d
    rw [hold]
    unfold Quotas.handed
    rw [hsum]
    rfl
  · intro task b account usage bytesUp hb hswapped
    rcases put_cases hb with rfl | hold
    · exact absurd hswapped (hstage account usage bytesUp)
    · exact h.swapping task b account usage bytesUp hold hswapped

private theorem drained_setStage {dr : Drain} (hdr : s.drains.get? dr.task = some dr)
    {stage : DrainStage} (hold : ∀ account d, pending account d dr.stage = 0)
    (hnew : ∀ account d, pending account d stage = 0) (account : String) (d : Direction) :
    (s.drains.put { dr with stage := stage }).sum (drained account d) =
      s.drains.sum (drained account d) := by
  have hput := Table.sum_put_old (r := { dr with stage := stage }) hdr (drained account d)
  simp only [drained,hold,hnew] at hput
  omega

private theorem conserved_setDrain (h : Conserved s) (dr : Drain)
    (hdr : s.drains.get? dr.task = some dr) (stage : DrainStage)
    (hold : ∀ account d, pending account d dr.stage = 0)
    (hnew : ∀ account usage bytesUp, stage ≠ .swapped account usage bytesUp) :
    Conserved (s.setDrain dr stage) := by
  have hpending : ∀ account d, pending account d stage = 0 := by
    intro account d
    unfold pending
    split
    · rename_i name usage bytesUp
      exact absurd rfl (hnew name usage bytesUp)
    · rfl
  exact conserved_drain h (drained_setStage hdr hold hpending) hnew

private theorem conserved_visit (h : Conserved s) (hl : Links s) {dr : Drain}
    (hdr : s.drains.get? dr.task = some dr) (hvisiting : dr.stage = .visiting) {u : AccountUsage}
    (hu : s.heap.get? u.id = some u) (hatt : s.Attached u) :
    Conserved ({ s with heap := s.heap.put (u.setBytes .up 0) }.setDrain dr
      (.swapped u.account u.id u.bytesUp)) := by
  have hid : (u.setBytes .up 0).id = u.id := rfl
  refine ⟨?_,detached_put h hu hid rfl (Or.inl hatt) rfl rfl,?_⟩
  · intro account d
    have howed := owed_put hl hu hid (Or.inl hatt) account d
    have hold := h.conserved account d
    have hput := Table.sum_put_old
      (r := { dr with stage := DrainStage.swapped u.account u.id u.bytesUp }) hdr (drained account d)
    simp only [drained,pending,hvisiting] at hput
    rw [bytes_setBytes] at howed
    change addedTo s.added account d = (s.reports.map (inBatch account d)).sum +
      (s.drains.put { dr with stage := .swapped u.account u.id u.bytesUp }).sum (drained account d) +
      Quotas.owed { s with heap := s.heap.put (u.setBytes .up 0) } account d
    unfold Quotas.handed at hold
    by_cases hname : u.account = account
    · cases d with
      | up =>
        simp only [hname,if_true,and_self,AccountUsage.bytes] at howed hput
        simp only [hname] at hput ⊢
        omega
      | down =>
        simp only [hname,if_true,reduceCtorEq,and_false,if_false] at howed hput
        simp only [hname] at hput ⊢
        omega
    · simp only [hname,false_and,if_false] at howed hput
      omega
  · intro task b account usage bytesUp hb hswapped
    rcases put_cases hb with rfl | hold
    · simp only [DrainStage.swapped.injEq] at hswapped
      obtain ⟨rfl,rfl,rfl⟩ := hswapped
      exact swapping_put hu hid rfl ⟨u,hu,rfl⟩
    · exact swapping_put hu hid rfl (h.swapping task b account usage bytesUp hold hswapped)

private theorem inBatch_push (account name : String) (d : Direction) (batch : List AccountBytes)
    (up down : Nat) :
    inBatch account d (if up ≠ 0 ∨ down ≠ 0 then batch ++ [⟨name,up,down⟩] else batch) =
      inBatch account d batch + (if name = account then AccountBytes.bytes ⟨name,up,down⟩ d else 0) := by
  split
  · simp [inBatch]
  · rename_i hzero
    have hup : up = 0 := by omega
    have hdown : down = 0 := by omega
    subst hup
    subst hdown
    have hnone : AccountBytes.bytes ⟨name,0,0⟩ d = 0 := by cases d <;> rfl
    rw [hnone]
    simp

private theorem conserved_swapDown (h : Conserved s) (hl : Links s) {dr : Drain}
    (hdr : s.drains.get? dr.task = some dr) {u : AccountUsage} {bytesUp : Nat}
    (hswapped : dr.stage = .swapped u.account u.id bytesUp) (hu : s.heap.get? u.id = some u) :
    Conserved (s.swapDown dr u.account bytesUp u) := by
  have hid : (u.setBytes .down 0).id = u.id := rfl
  have hor : s.Attached u ∨ ∀ d, (u.setBytes .down 0).bytes d = u.bytes d := by
    by_cases hatt : s.Attached u
    · exact Or.inl hatt
    · have hzero := h.detached u.id u hu hatt
      refine Or.inr fun d => ?_
      rw [bytes_setBytes]
      split
      · exact (hzero d).symm
      · rfl
  refine ⟨?_,detached_put h hu hid rfl hor rfl rfl,?_⟩
  · intro account d
    have howed := owed_put hl hu hid hor account d
    have hold := h.conserved account d
    have hput := Table.sum_put_old (r := Drain.mk dr.task
      (if bytesUp ≠ 0 ∨ u.bytesDown ≠ 0 then dr.batch ++ [⟨u.account,bytesUp,u.bytesDown⟩]
        else dr.batch) .visiting) hdr (drained account d)
    simp only [drained,hswapped,inBatch_push] at hput
    rw [bytes_setBytes] at howed
    change addedTo s.added account d = (s.reports.map (inBatch account d)).sum +
      (s.drains.put ⟨dr.task,if bytesUp ≠ 0 ∨ u.bytesDown ≠ 0 then
        dr.batch ++ [⟨u.account,bytesUp,u.bytesDown⟩] else dr.batch,.visiting⟩).sum
          (drained account d) +
      Quotas.owed { s with heap := s.heap.put (u.setBytes .down 0) } account d
    unfold Quotas.handed at hold
    by_cases hname : u.account = account
    · cases d with
      | up =>
        simp only [pending,hname,if_true,and_self,reduceCtorEq,if_false,AccountBytes.bytes] at howed hput
        simp only [hname] at hput ⊢
        omega
      | down =>
        simp only [pending,hname,if_true,reduceCtorEq,and_false,if_false,AccountBytes.bytes,
          AccountUsage.bytes] at howed hput
        simp only [hname] at hput ⊢
        omega
    · simp only [pending,hname,false_and,if_false] at howed hput
      omega
  · intro task b account usage up hb hstage
    rcases put_cases hb with rfl | hold
    · simp at hstage
    · exact swapping_put hu hid rfl (h.swapping task b account usage up hold hstage)

private theorem conserved_remove (h : Conserved s) {u : AccountUsage}
    (hu : s.heap.get? u.id = some u) (hatt : s.Attached u) (hzero : ∀ d, u.bytes d = 0) :
    Conserved { s with
      accounts := s.accounts.erase u.account
      locks := s.locks.erase u.account } := by
  have herase : ∀ other, other ≠ u.account →
      (s.accounts.erase u.account).get? other = s.accounts.get? other := by
    intro other hne
    rw [Table.get?_erase,if_neg (Ne.symm hne)]
  refine ⟨?_,?_,h.swapping⟩
  · intro account d
    have hold := h.conserved account d
    change addedTo s.added account d = s.handed account d + _
    by_cases he : account = u.account
    · subst he
      have howed : s.owed u.account d = 0 := by
        rw [Quotas.owed,show s.accounts.get? u.account = some (u.account,u.id) from hatt]
        simp only [hu,Option.elim_some]
        exact hzero d
      simp only [Quotas.owed,Table.get?_erase_self]
      omega
    · simp only [Quotas.owed,herase account he]
      exact hold
  · intro id v hv hnot d
    by_cases he : v.account = u.account
    · by_cases hsame : v.id = u.id
      · have hid : v.id = id := Table.key_of_get? hv
        obtain rfl := Option.some.inj (hu.symm.trans (hsame ▸ hid.symm ▸ hv))
        exact hzero d
      · apply h.detached id v hv _ d
        intro hattv
        rw [Quotas.Attached,he,show s.accounts.get? u.account = some (u.account,u.id) from hatt]
          at hattv
        simp only [Option.some.injEq,Prod.mk.injEq,true_and] at hattv
        exact hsame hattv.symm
    · apply h.detached id v hv _ d
      intro hattv
      exact hnot ((herase _ he).trans hattv)

private theorem conserved_report (h : Conserved s) (dr : Drain)
    (hdr : s.drains.get? dr.task = some dr) (hretaining : dr.stage = .retaining) : Conserved { s with
      drains := s.drains.erase dr.task
      reports := dr.batch :: s.reports } := by
  refine ⟨?_,h.detached,?_⟩
  · intro account d
    have hold := h.conserved account d
    have herase := Table.sum_erase_some hdr (drained account d)
    simp only [drained,hretaining,pending] at herase
    unfold Quotas.handed at hold
    change addedTo s.added account d = (inBatch account d dr.batch +
      (s.reports.map (inBatch account d)).sum) + (s.drains.erase dr.task).sum (drained account d) +
        s.owed account d
    omega
  · intro task b account usage bytesUp hb hswapped
    dsimp only at hb
    rw [Table.get?_erase] at hb
    split at hb
    · simp at hb
    · exact h.swapping task b account usage bytesUp hb hswapped

private theorem conserved_enter (h : Conserved s) (hl : Links s) (a : Attempt) :
    Conserved (s.enter a) := by
  unfold Quotas.enter
  dsimp only
  split
  · exact ⟨h.conserved,h.detached,h.swapping⟩
  · rename_i hnone
    have hnew := conserved_new h hl hnone
    exact ⟨hnew.conserved,hnew.detached,hnew.swapping⟩

private theorem conserved_claim (h : Conserved s) (hl : Links s) (a : Attempt) {u : AccountUsage}
    (hu : s.heap.get? u.id = some u) : Conserved (s.claim a u) := by
  have hid : (u.setActive (u.active+1)).id = u.id := rfl
  have hslots := conserved_slots h hl hu hid rfl (by intro d; cases d <;> rfl)
  unfold Quotas.claim
  dsimp only
  split
  · exact ⟨hslots.conserved,hslots.detached,hslots.swapping⟩
  · exact ⟨hslots.conserved,hslots.detached,hslots.swapping⟩

private theorem conserved_checked (h : Conserved s) {dr : Drain}
    (hdr : s.drains.get? dr.task = some dr) (hold : ∀ account d, pending account d dr.stage = 0)
    (account : String) (loaded : Nat) {next : DrainStage}
    (hnext : ∀ account usage bytesUp, next ≠ .swapped account usage bytesUp) :
    Conserved (s.checked dr account loaded next) := by
  unfold Quotas.checked
  split
  · have hdrain := conserved_setDrain h dr hdr .retaining hold (by simp)
    exact ⟨hdrain.conserved,hdrain.detached,hdrain.swapping⟩
  · exact conserved_setDrain h dr hdr next hold hnext

private theorem conserved_check (h : Conserved s) (task : Nat) :
    Conserved (step s (.check task)) := by
  dsimp only [step]
  split
  · rename_i t batch account usage hdr
    obtain rfl : t = task := Table.key_of_get? hdr
    split
    · exact conserved_checked h hdr (by intros; rfl) _ _ (by simp)
    · exact h
  · rename_i t batch account usage hdr
    obtain rfl : t = task := Table.key_of_get? hdr
    split
    · exact conserved_checked h hdr (by intros; rfl) _ _ (by simp)
    · exact h
  · rename_i t batch account usage up hdr
    obtain rfl : t = task := Table.key_of_get? hdr
    split
    · exact conserved_checked h hdr (by intros; rfl) _ _ (by simp)
    · exact h
  · exact h

private theorem conserved_setActive (h : Conserved s) (hl : Links s) {u : AccountUsage}
    (hu : s.heap.get? u.id = some u) (n : Nat) :
    Conserved { s with heap := s.heap.put (u.setActive n) } :=
  conserved_slots h hl hu rfl rfl (by intro d; cases d <;> rfl)

private theorem conserved_step {a : Action} (hs : Slots s) (hloads : Loads s) (h : Conserved s)
    (hok : Kept s a) :
    Conserved (step s a) := by
  have hl := hs.links
  have hmoves := moves_step s a
  generalize step s a = s' at hmoves ⊢
  cases hmoves with
  | idle => exact h
  | acquires | refuses | dropped | counts => exact ⟨h.conserved,h.detached,h.swapping⟩
  | enters ha hfree => exact conserved_enter h hl _
  | claims ha hu => exact conserved_claim h hl _ hu
  | @releases task account u ha hu =>
    have hslots := conserved_setActive h hl hu (u.active-1)
    exact ⟨hslots.conserved,hslots.detached,hslots.swapping⟩
  | @drops guard account u hg hu =>
    have hslots := conserved_setActive h hl hu (u.active-1)
    exact ⟨hslots.conserved,hslots.detached,hslots.swapping⟩
  | @adds u direction bytes hu =>
    apply conserved_add h hl hu
    rcases hok with hzero | hatt
    · exact Or.inl hzero
    · exact Or.inr (hatt u hu)
  | @drains task hnew =>
    apply conserved_drain h
    · intro account d
      exact Table.sum_put_new (r := Drain.mk task [] .visiting) hnew (drained account d)
    · simp
  | @visits task batch account u hd hget hu =>
    obtain ⟨v,hv,hacc⟩ := hl.mapped account u.id hget
    obtain rfl := Option.some.inj (hu.symm.trans hv)
    subst hacc
    exact conserved_visit h hl hd rfl hu hget
  | @swaps task bytesUp batch account u hd hu =>
    obtain ⟨v,hv,hacc⟩ := h.swapping task _ account u.id bytesUp hd rfl
    obtain rfl := Option.some.inj (hu.symm.trans hv)
    subst hacc
    exact conserved_swapDown h hl hd rfl hu
  | @retains task batch hd =>
    exact conserved_setDrain h ⟨task,batch,.visiting⟩ hd .retaining (fun _ _ => rfl) (by simp)
  | @locks task usage batch account hd hget hfree =>
    have hdrain := conserved_setDrain h ⟨task,batch,.retaining⟩ hd (.checkActive account usage)
      (fun _ _ => rfl) (by simp)
    exact ⟨hdrain.conserved,hdrain.detached,hdrain.swapping⟩
  | checks task => exact conserved_check h task
  | @removes task usage up down batch account hd =>
    have hmap := (hl.checking task _ account usage hd ⟨rfl,rfl⟩).1
    obtain ⟨u,hu,hacc⟩ := hl.mapped account usage hmap
    obtain rfl : u.id = usage := Table.key_of_get? hu
    subst hacc
    obtain ⟨hup,hdown⟩ : Untouched s.added (.removing u.account u.id up down) := hok _ hd
    have hzero : ∀ d, u.bytes d = 0 := by
      intro d
      cases d with
      | up =>
        have hle := (hloads task _ u.account u.id up .up hd ⟨⟨rfl,rfl⟩,rfl⟩).2 u hu
        omega
      | down =>
        have hle := (hloads task _ u.account u.id down .down hd ⟨⟨rfl,rfl⟩,rfl⟩).2 u hu
        omega
    have hremoved := conserved_remove h hu hmap hzero
    have hdrain := conserved_setDrain hremoved
      ⟨task,batch,.removing u.account u.id up down⟩ hd .retaining (fun _ _ => rfl) (by simp)
    exact ⟨hdrain.conserved,hdrain.detached,hdrain.swapping⟩
  | @reports task batch hd => exact conserved_report h ⟨task,batch,.retaining⟩ hd rfl

def guardOf (account : String) (g : ConnectionGuard) : Bool := g.account == account && !g.dropping

private theorem guards_le (hl : Links s) (account : String) (bound : Nat)
    (hlimited : ∀ id, s.guards.sum (onUsage id) ≤ bound) :
    s.guards.rows.countP (guardOf account) ≤ bound := by
  rw [← Table.sum_ite]
  have hguard : ∀ g ∈ s.guards.rows, guardOf account g = true →
      s.accounts.get? account = some (account,g.usage) ∧ g.dropping = false := by
    intro g hg hof
    simp only [guardOf,Bool.and_eq_true,beq_iff_eq,Bool.not_eq_true'] at hof
    have hmap := hl.guarded g.id g (Table.get?_of_mem hg) hof.2
    rw [hof.1] at hmap
    exact ⟨hmap,hof.2⟩
  cases hget : s.accounts.get? account with
  | none =>
    have hzero : s.guards.sum (fun g => if guardOf account g then 1 else 0) = 0 := by
      apply Table.sum_eq_zero
      intro g hg
      rw [if_neg]
      intro hof
      have hmap := (hguard g hg hof).1
      simp [hget] at hmap
    omega
  | some e =>
    refine Nat.le_trans (Table.sum_le_sum ?_) (hlimited e.2)
    intro g hg
    split
    · rename_i hof
      obtain ⟨hmap,hdropping⟩ := hguard g hg hof
      rw [hget] at hmap
      have husage : g.usage = e.2 := by rw [Option.some.inj hmap]
      apply Nat.le_of_eq
      rw [onUsage,if_pos ⟨husage,hdropping⟩]
    · omega

/-- The slots are right: neither limit is exceeded, the total counts guards and attempts, and each
usage counts the guards and the refused attempts that have a slot in it. -/
structure Limited (s : Quotas) : Prop where
  total : s.guards.rows.length ≤ s.limits.maxTotalConnections
  perAccount : ∀ account, s.guards.rows.countP (guardOf account) ≤
    s.limits.maxConnectionsPerAccount
  activeTotal : s.totalActive = s.guards.rows.length + s.attempts.rows.length
  active : ∀ u ∈ s.heap.rows, u.active =
    s.guards.rows.countP (fun g => g.usage == u.id && !g.dropping) +
      s.attempts.rows.countP (fun a => a.stage == .tooMany u.id)

theorem limited_of_slots (h : Slots s) : Limited s := by
  have hguards : s.guards.sum one = s.guards.rows.length := Table.sum_one s.guards
  have hattempts : s.attempts.sum one = s.attempts.rows.length := Table.sum_one s.attempts
  refine ⟨?_,?_,?_,?_⟩
  · have hpassed := h.totals.passed
    omega
  · intro account
    exact guards_le h.links account _ h.actives.limited
  · have htotal := h.totals.total
    omega
  · intro u hu
    rw [h.actives.active u.id u (Table.get?_of_mem hu),← Table.sum_ite,← Table.sum_ite]
    congr 1
    · apply Table.sum_congr
      intro g _
      simp [onUsage]
    · apply Table.sum_congr
      intro a _
      simp [owes]

/-- Every byte that was added was handed out once or is still to be handed out. -/
def AllCounted (s : Quotas) : Prop :=
  ∀ account d, addedTo s.added account d = s.handed account d + s.owed account d

/-- The slots are right in every run; no byte is lost in any run that adds to no usage that has left
the map, and to none that `retain` removes between its loads and the removal. -/
theorem quotas_hold (limits : Limits) (as : List Action) :
    Limited (runActs step (new limits) as) ∧
      (Along step Kept (new limits) as → AllCounted (runActs step (new limits) as)) := by
  refine ⟨limited_of_slots (slots_run limits as),fun hkept => ?_⟩
  have hstart : Slots (new limits) ∧ Loads (new limits) ∧ Conserved (new limits) := by
    refine ⟨slots_run limits [],?_,?_,?_,?_⟩
    · intro task dr account usage n d hdr
      simp [new] at hdr
    · intro account d
      rfl
    · intro id u hu
      simp [new] at hu
    · intro task dr account usage bytesUp hdr
      simp [new] at hdr
  have hrun := invariant_runActs (fun s => Slots s ∧ Loads s ∧ Conserved s)
    (fun _ a h hok => ⟨slots_step a h.1,loads_step a h.1 h.2.1,conserved_step h.1 h.2.1 h.2.2 hok⟩)
    hstart hkept
  exact hrun.2.2.conserved

instance (added : List (String × Direction × Nat)) :
    (stage : DrainStage) → Decidable (Untouched added stage)
  | .removing account _ up down => inferInstanceAs (Decidable (addedTo (addedSince added up) account .up = 0 ∧
      addedTo (addedSince added down) account .down = 0))
  | .visiting | .swapped _ _ _ | .retaining | .checkActive _ _ | .checkUp _ _ | .checkDown _ _ _ =>
    .isTrue trivial

instance (s : Quotas) : (a : Action) → Decidable (Kept s a)
  | .add usage _ bytes => inferInstanceAs (Decidable (bytes = 0 ∨ ∀ u ∈ s.heap.get? usage, _))
  | .remove task => inferInstanceAs
      (Decidable (∀ dr ∈ s.drains.get? task, Untouched s.added dr.stage))
  | .acquire _ _ | .enter _ | .claim _ | .release _ | .refuse _ | .drop _ | .dropped _ | .counter _
  | .drain _ | .visit _ _ | .swapDown _ | .retain _ | .lock _ _ | .check _ | .report _ =>
    .isTrue trivial

private def demoEnded : List Action :=
  [.acquire 0 "u1",.enter 0,.claim 0,.counter 0,.drop 0,.dropped 0]

private def demoEvicted : List Action :=
  [.retain 1,.lock 1 "u1",.check 1,.check 1,.check 1,.remove 1,.report 1]

private def demoKept : List Action :=
  demoEnded ++ [.add 0 .down 42,.drain 1,.visit 1 "u1",.swapDown 1] ++ demoEvicted

private theorem demo_kept : Along step Kept (new ⟨1,1⟩) demoKept := by decide +kernel

theorem quotas_hold_demo : AllCounted (runActs step (new ⟨1,1⟩) demoKept) :=
  (quotas_hold ⟨1,1⟩ demoKept).2 demo_kept

/-- The late addition comes after a drain that has found the account idle: 42 bytes that no drain
will hand out. -/
theorem late_bytes_lost : ¬ ∀ (limits : Limits) (as : List Action),
    Limited (runActs step (new limits) as) ∧ AllCounted (runActs step (new limits) as) := by
  intro h
  have hlost := (h ⟨1,1⟩ (demoEnded ++ [.drain 1] ++ demoEvicted ++ [.add 0 .down 42])).2 "u1" .down
  revert hlost
  decide +kernel

end WeirdVault.Relay.Quota
