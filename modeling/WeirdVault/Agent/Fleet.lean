import Mathlib.Data.List.Induction
import Mathlib.Data.List.Perm.Basic
import WeirdVault.Framework.Table

/-!
# Handing the new command key to the fleet

`rotateAgentKeys`, run after run. The query that starts a run names no order, and a run knows
nothing of those before it.
-/

namespace WeirdVault.Agent.Fleet

open WeirdVault.Framework

def MAX_PER_RUN : Nat := 200

def MAX_PRESENCE_IDS : Nat := 200

structure AgentRow where
  id : String
  userId : String
  revokedAt : Option Nat
  deriving DecidableEq

abbrev Agents := Table AgentRow.id

/-- The seeds in the environment, and how many bytes the base64 of one stands for. -/
structure Environment where
  secret : Option String
  previous : Option String
  size : String → Nat

def Environment.signingKey (env : Environment) (seed : Option String) : Bool :=
  seed.any fun seed => seed ≠ "" && env.size seed == 32

/-- A missing argument is the default of the parameter. -/
def Environment.previousSigningKey (env : Environment) : Bool :=
  env.signingKey (env.previous.orElse fun _ => env.secret)

def Environment.rotationInProgress (env : Environment) : Bool :=
  env.previousSigningKey && env.signingKey env.secret

/-- What the relay answers: `none` where the answer is no list of ids, and whether an agent said
that it took the key. -/
structure Relay where
  presence : String → List String → Option (List String)
  command : String → String → Bool

def agentPresence (relay : Relay) (accountId : String) (agentIds : List String) :
    Option (List String) :=
  if agentIds = [] then some [] else relay.presence accountId agentIds

def dispatchRotation (env : Environment) (relay : Relay) (accountId agentId : String) : Bool :=
  env.rotationInProgress && relay.command accountId agentId

structure RotationOutcome where
  rotated : Nat
  failed : Nat
  offline : Nat
  truncated : Bool
  deriving DecidableEq

/-- The counts of a run under way, and the machines that have taken the key in it. -/
structure Sweep where
  rotated : Nat
  failed : Nat
  offline : Nat
  handed : List String

def Sweep.start : Sweep := ⟨0,0,0,[]⟩

/-- `byAccount.set(agent.userId,[...,agent.id])` -/
def group (agent : AgentRow) : List (String × List String) → List (String × List String)
  | [] => [(agent.userId,[agent.id])]
  | g :: groups =>
    if g.1 = agent.userId then (g.1,g.2 ++ [agent.id]) :: groups else g :: group agent groups

def byAccount (batch : List AgentRow) : List (String × List String) :=
  batch.foldl (fun groups agent => group agent groups) []

section

variable (env : Environment) (relay : Relay) (dryRun : Bool)

def visit (accountId : String) (online : List String) (s : Sweep) (id : String) : Sweep :=
  if id ∉ online then { s with offline := s.offline+1 }
  else if dryRun then { s with rotated := s.rotated+1 }
  else if dispatchRotation env relay accountId id then
    { s with rotated := s.rotated+1, handed := s.handed ++ [id] }
  else { s with failed := s.failed+1 }

def visitAccount (s : Sweep) (account : String × List String) : Sweep :=
  match agentPresence relay account.1 account.2 with
  | none => s
  | some online => account.2.foldl (visit env relay dryRun account.1 online) s

def unrevoked (agents : Agents) : List AgentRow := agents.rows.filter (·.revokedAt = none)

/-- With the order in which the query returns rows; what a run reports, and the machines that it
hands the key to. -/
def rotateAgentKeys (order : List AgentRow → List AgentRow) (table : Agents) :
    RotationOutcome × List String :=
  if !env.rotationInProgress then (⟨0,0,0,false⟩,[])
  else
    let agents := (order (unrevoked table)).take (MAX_PER_RUN+1)
    let truncated : Bool := MAX_PER_RUN < agents.length
    let batch := agents.take MAX_PER_RUN
    if batch = [] then (⟨0,0,0,false⟩,[])
    else
      let s := (byAccount batch).foldl (visitAccount env relay dryRun) .start
      (⟨s.rotated,s.failed,s.offline,truncated⟩,s.handed)

end

/-- Every machine is connected under its account and takes what it is handed. -/
structure Willing (relay : Relay) (agents : List AgentRow) : Prop where
  connected : ∀ account ids, ids.length ≤ MAX_PRESENCE_IDS →
    (∀ id ∈ ids, ∃ agent ∈ agents, agent.userId = account ∧ agent.id = id) →
    ∃ online, relay.presence account ids = some online ∧ ∀ id ∈ ids, id ∈ online
  accepts : ∀ agent ∈ agents, relay.command agent.userId agent.id

private theorem mem_group {agent : AgentRow} {groups : List (String × List String)}
    {g : String × List String} (h : g ∈ group agent groups) {id : String} (hid : id ∈ g.2) :
    (g.1 = agent.userId ∧ id = agent.id) ∨ ∃ g' ∈ groups, g'.1 = g.1 ∧ id ∈ g'.2 := by
  induction groups with
  | nil =>
    rw [group,List.mem_singleton] at h
    subst h
    exact Or.inl ⟨rfl,List.mem_singleton.mp hid⟩
  | cons g' groups ih =>
    rw [group] at h
    split at h
    · rename_i hsame
      rcases List.mem_cons.mp h with rfl | hmem
      · rcases List.mem_append.mp hid with hold | hnew
        · exact Or.inr ⟨g',by simp,rfl,hold⟩
        · exact Or.inl ⟨hsame,List.mem_singleton.mp hnew⟩
      · exact Or.inr ⟨g,List.mem_cons_of_mem g' hmem,rfl,hid⟩
    · rcases List.mem_cons.mp h with rfl | hmem
      · exact Or.inr ⟨g,by simp,rfl,hid⟩
      · rcases ih hmem with hnew | ⟨g'',hg'',hsame,hold⟩
        · exact Or.inl hnew
        · exact Or.inr ⟨g'',List.mem_cons_of_mem g' hg'',hsame,hold⟩

private theorem group_perm (agent : AgentRow) (groups : List (String × List String)) :
    ((group agent groups).flatMap (·.2)).Perm (groups.flatMap (·.2) ++ [agent.id]) := by
  induction groups with
  | nil => exact .refl _
  | cons g groups ih =>
    rw [group]
    split
    · simp only [List.flatMap_cons,List.append_assoc]
      exact (List.perm_append_comm).append_left g.2
    · simp only [List.flatMap_cons,List.append_assoc]
      exact ih.append_left g.2

private theorem byAccount_spec (batch : List AgentRow) :
    (∀ g ∈ byAccount batch, ∀ id ∈ g.2, ∃ agent ∈ batch, agent.userId = g.1 ∧ agent.id = id) ∧
    ((byAccount batch).flatMap (·.2)).Perm (batch.map (·.id)) := by
  induction batch using List.reverseRecOn with
  | nil => exact ⟨by simp [byAccount],.refl _⟩
  | append_singleton batch agent ih =>
    have hadd : byAccount (batch ++ [agent]) = group agent (byAccount batch) := by
      simp [byAccount,List.foldl_append]
    rw [hadd,List.map_append]
    refine ⟨?_,(group_perm agent _).trans (ih.2.append_right _)⟩
    intro g hg id hid
    rcases mem_group hg hid with ⟨haccount,rfl⟩ | ⟨g',hg',hsame,hold⟩
    · exact ⟨agent,by simp,haccount.symm,rfl⟩
    · obtain ⟨agent',hmem,huser,hagent⟩ := ih.1 g' hg' id hold
      exact ⟨agent',List.mem_append_left _ hmem,huser.trans hsame,hagent⟩

private theorem length_le_of_group {batch : List AgentRow} {g : String × List String}
    (h : g ∈ byAccount batch) : g.2.length ≤ batch.length := by
  have hperm := (byAccount_spec batch).2.length_eq
  rw [List.length_map] at hperm
  rw [← hperm]
  exact (List.sublist_flatten_of_mem (List.mem_map_of_mem h)).length_le

variable {env : Environment} {relay : Relay}

private theorem visit_all (henv : env.rotationInProgress) {accountId : String}
    {online ids : List String} (honline : ∀ id ∈ ids, id ∈ online)
    (haccepts : ∀ id ∈ ids, relay.command accountId id) (s : Sweep) :
    ids.foldl (visit env relay false accountId online) s =
      { s with rotated := s.rotated+ids.length, handed := s.handed ++ ids } := by
  induction ids generalizing s with
  | nil => simp
  | cons id ids ih =>
    have htaken : dispatchRotation env relay accountId id := by
      simp [dispatchRotation,henv,haccepts id (by simp)]
    rw [List.foldl_cons,visit,if_neg (not_not.mpr (honline id (by simp))),if_neg (by simp),
      if_pos htaken,ih (fun id' h => honline id' (List.mem_cons_of_mem id h))
        (fun id' h => haccepts id' (List.mem_cons_of_mem id h))]
    simp [Nat.add_assoc,Nat.add_comm 1]

private theorem visitAccount_all (henv : env.rotationInProgress)
    {groups : List (String × List String)}
    (h : ∀ g ∈ groups, g.2 ≠ [] → ∃ online, relay.presence g.1 g.2 = some online ∧
      ∀ id ∈ g.2, id ∈ online ∧ relay.command g.1 id) (s : Sweep) :
    groups.foldl (visitAccount env relay false) s =
      { s with rotated := s.rotated+(groups.flatMap (·.2)).length,
               handed := s.handed ++ groups.flatMap (·.2) } := by
  induction groups generalizing s with
  | nil => simp
  | cons g groups ih =>
    have hgroup : visitAccount env relay false s g =
        { s with rotated := s.rotated+g.2.length, handed := s.handed ++ g.2 } := by
      by_cases hempty : g.2 = []
      · simp [visitAccount,agentPresence,hempty]
      · obtain ⟨online,hanswer,hall⟩ := h g (by simp) hempty
        simp only [visitAccount,agentPresence,if_neg hempty,hanswer]
        exact visit_all henv (fun id hid => (hall id hid).1) (fun id hid => (hall id hid).2) s
    rw [List.foldl_cons,hgroup,ih fun g' hg' => h g' (List.mem_cons_of_mem g hg')]
    simp [Nat.add_assoc]

section

variable {order : List AgentRow → List AgentRow} {table : Agents}

theorem rotateAgentKeys_handed (henv : env.rotationInProgress)
    (hperm : ∀ rows, (order rows).Perm rows) (hwilling : Willing relay (unrevoked table)) :
    ((rotateAgentKeys env relay false order table).2).Perm
      (((order (unrevoked table)).take MAX_PER_RUN).map (·.id)) := by
  have hbatch : ((order (unrevoked table)).take (MAX_PER_RUN+1)).take MAX_PER_RUN =
      (order (unrevoked table)).take MAX_PER_RUN := by
    rw [List.take_take]
    rfl
  have hmem : ∀ agent ∈ (order (unrevoked table)).take MAX_PER_RUN, agent ∈ unrevoked table :=
    fun agent h => (hperm _).subset (List.mem_of_mem_take h)
  obtain ⟨hgroups,hall⟩ := byAccount_spec ((order (unrevoked table)).take MAX_PER_RUN)
  have hanswers : ∀ g ∈ byAccount ((order (unrevoked table)).take MAX_PER_RUN), g.2 ≠ [] →
      ∃ online, relay.presence g.1 g.2 = some online ∧
        ∀ id ∈ g.2, id ∈ online ∧ relay.command g.1 id := by
    intro g hg _
    have hfew : g.2.length ≤ MAX_PRESENCE_IDS :=
      Nat.le_trans (length_le_of_group hg) (List.length_take_le _ _)
    have hthere : ∀ id ∈ g.2, ∃ agent ∈ unrevoked table, agent.userId = g.1 ∧ agent.id = id := by
      intro id hid
      obtain ⟨agent,hagent,hsame⟩ := hgroups g hg id hid
      exact ⟨agent,hmem agent hagent,hsame⟩
    obtain ⟨online,hanswer,honline⟩ := hwilling.connected g.1 g.2 hfew hthere
    refine ⟨online,hanswer,?_⟩
    intro id hid
    obtain ⟨agent,hagent,huser,rfl⟩ := hthere id hid
    exact ⟨honline _ hid,huser ▸ hwilling.accepts agent hagent⟩
  rw [rotateAgentKeys,if_neg (by simp [henv])]
  simp only [hbatch]
  split
  · rename_i hempty
    rw [hempty]
    exact .nil
  · simp only [visitAccount_all henv hanswers,Sweep.start,List.nil_append]
    exact hall

theorem rotateAgentKeys_truncated (henv : env.rotationInProgress)
    (hperm : ∀ rows, (order rows).Perm rows) :
    (rotateAgentKeys env relay false order table).1.truncated = true ↔
      MAX_PER_RUN < (unrevoked table).length := by
  have hlength := (hperm (unrevoked table)).length_eq
  rw [rotateAgentKeys,if_neg (by simp [henv])]
  dsimp only
  split
  · rename_i hempty
    have hnone : (unrevoked table).length = 0 := by
      rw [← hlength]
      simp only [List.take_eq_nil_iff,MAX_PER_RUN] at hempty
      rcases hempty with hzero | hzero | hnil
      · cases hzero
      · cases hzero
      · rw [hnil,List.length_nil]
    simp [hnone]
  · simp only [decide_eq_true_eq,List.length_take,hlength,MAX_PER_RUN]
    omega

end

/-- How many runs it takes if each visits machines that no other does. -/
def blocks (n : Nat) : Nat := (n+(MAX_PER_RUN-1))/MAX_PER_RUN

def Reaches (table : Agents) (runs : Nat → RotationOutcome × List String) : Prop :=
  (∀ i, (runs i).1.truncated = true → ∃ id ∈ (runs i).2, ∀ j < i, id ∉ (runs j).2) ∧
  (∀ agent ∈ unrevoked table, ∃ i < blocks (unrevoked table).length, agent.id ∈ (runs i).2) ∧
  (∀ last, blocks (unrevoked table).length = last+1 → (runs last).1.truncated = false)

variable {table : Agents} {relays : Nat → Relay} {orders : Nat → List AgentRow → List AgentRow}

private theorem truncated_of_reaches (henv : env.rotationInProgress)
    (hperm : ∀ i rows, (orders i rows).Perm rows)
    (h : Reaches table fun i => rotateAgentKeys env (relays i) false (orders i) table) :
    (unrevoked table).length ≤ MAX_PER_RUN := by
  by_contra hmany
  obtain ⟨last,hlast⟩ : ∃ last, blocks (unrevoked table).length = last+1 := by
    apply Nat.exists_eq_succ_of_ne_zero
    simp only [blocks,MAX_PER_RUN] at hmany ⊢
    omega
  have hfalse := h.2.2 last hlast
  have htrue : (rotateAgentKeys env (relays last) false (orders last) table).1.truncated = true :=
    (rotateAgentKeys_truncated henv (hperm last)).mpr (by omega)
  rw [hfalse] at htrue
  cases htrue

theorem rotateAgentKeys_unvisited {order : List AgentRow → List AgentRow}
    (henv : env.rotationInProgress) (hperm : ∀ rows, (order rows).Perm rows)
    (hwilling : Willing relay (unrevoked table)) {agent : AgentRow}
    (h : agent ∈ (order (unrevoked table)).drop MAX_PER_RUN) :
    agent.id ∉ (rotateAgentKeys env relay false order table).2 := by
  have hnodup : ((order (unrevoked table)).map (·.id)).Nodup :=
    ((hperm _).map _).nodup_iff.mpr (table.nodup.sublist (List.filter_sublist.map _))
  rw [← List.take_append_drop MAX_PER_RUN (order (unrevoked table)),List.map_append] at hnodup
  rw [(rotateAgentKeys_handed henv hperm hwilling).mem_iff]
  intro hmem
  exact (List.nodup_append.mp hnodup).2.2 _ hmem _ (List.mem_map_of_mem h) rfl

/-- A fleet that one run can visit is reached, and no other; in one order for every run, no run
ever reaches what lies behind the first block. -/
theorem rotateAgentKeys_reaches_iff (henv : env.rotationInProgress)
    (hperm : ∀ i rows, (orders i rows).Perm rows)
    (hwilling : ∀ i, Willing (relays i) (unrevoked table)) :
    (Reaches table (fun i => rotateAgentKeys env (relays i) false (orders i) table) ↔
      (unrevoked table).length ≤ MAX_PER_RUN) ∧
    ((∀ i, orders i = orders 0) →
      ∀ agent ∈ (orders 0 (unrevoked table)).drop MAX_PER_RUN, ∀ i,
        agent.id ∉ (rotateAgentKeys env (relays i) false (orders i) table).2) := by
  refine ⟨⟨truncated_of_reaches henv hperm,?_⟩,?_⟩
  · intro hfew
    have hwhole : ∀ i, (rotateAgentKeys env (relays i) false (orders i) table).1.truncated =
        false := by
      intro i
      rw [← Bool.not_eq_true,rotateAgentKeys_truncated henv (hperm i)]
      omega
    refine ⟨?_,?_,fun last _ => hwhole last⟩
    · intro i htrue
      rw [hwhole i] at htrue
      cases htrue
    · intro agent hagent
      have hsome := List.length_pos_of_mem hagent
      refine ⟨0,?_,?_⟩
      · simp only [blocks,MAX_PER_RUN]
        omega
      · rw [(rotateAgentKeys_handed henv (hperm 0) (hwilling 0)).mem_iff,
          List.take_of_length_le (by rw [(hperm 0 _).length_eq]; exact hfew)]
        exact List.mem_map_of_mem ((hperm 0 _).mem_iff.mpr hagent)
  · intro hsame agent hagent i
    rw [← hsame i] at hagent
    exact rotateAgentKeys_unvisited henv (hperm i) (hwilling i) hagent

private def demoEnv : Environment := ⟨some "new",some "old",fun _ => 32⟩

/-- A relay to which every machine that it is asked about is connected. -/
private def demoRelay : Relay := ⟨fun _ ids => some ids,fun _ _ => true⟩

private theorem willing_demoRelay (agents : List AgentRow) : Willing demoRelay agents :=
  ⟨fun _ ids _ _ => ⟨ids,rfl,fun _ h => h⟩,fun _ _ => rfl⟩

private def machines (n : Nat) : Agents :=
  ⟨(List.range n).map fun i => ⟨String.ofList (List.replicate i 'x'),"ada",none⟩,by
    rw [List.map_map]
    apply List.nodup_range.map
    intro i j h
    have hlists := congrArg String.toList h
    simp only [Function.comp_apply,String.toList_ofList] at hlists
    simpa using congrArg List.length hlists⟩

private theorem length_machines (n : Nat) : (unrevoked (machines n)).length = n := by
  rw [unrevoked,List.filter_eq_self.mpr]
  · simp [machines]
  · intro agent h
    obtain ⟨i,-,rfl⟩ := List.mem_map.mp h
    rfl

theorem rotateAgentKeys_reaches_two : Reaches (machines 2) fun _ =>
    rotateAgentKeys demoEnv demoRelay false id (machines 2) := by
  apply (rotateAgentKeys_reaches_iff rfl (fun _ _ => .refl _) fun _ => willing_demoRelay _).1.mpr
  rw [length_machines]
  decide

/-- 201 machines, returned in the same order every time. -/
theorem rotateAgentKeys_misses : ¬ ∀ (env : Environment) (relays : Nat → Relay)
    (orders : Nat → List AgentRow → List AgentRow) (table : Agents), env.rotationInProgress →
    (∀ i rows, (orders i rows).Perm rows) → (∀ i, Willing (relays i) (unrevoked table)) →
    Reaches table fun i => rotateAgentKeys env (relays i) false (orders i) table := by
  intro hall
  have hreaches := hall demoEnv (fun _ => demoRelay) (fun _ => id) (machines 201) rfl
    (fun _ _ => .refl _) (fun _ => willing_demoRelay _)
  have hfew : (unrevoked (machines 201)).length ≤ MAX_PER_RUN :=
    truncated_of_reaches rfl (fun _ _ => .refl _) hreaches
  rw [length_machines] at hfew
  revert hfew
  decide

end WeirdVault.Agent.Fleet
