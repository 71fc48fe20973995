import WeirdVault.Audit.Pages
import WeirdVault.Billing.Routes

/-!
# Pruning the audit log

`pruneAuditEvents` beside `GET /api/audit`. The pruner asks whether an account has a row in
`subscription`, the reader what that row amounts to when it is asked.
-/

namespace WeirdVault.Audit

open WeirdVault.Framework
open Billing (SubscriptionAccess tierForSubscription)

variable {π : Type}

/-- The rows of `subscription`, of which an account has at most one. -/
abbrev Subscriptions := String → Option SubscriptionAccess

def retentionTier : Billing.Tier → Tier
  | .free => .free
  | .pro => .pro

def tierFor (row : Option (Option SubscriptionAccess)) (now : Nat) : Tier :=
  match row with
  | none => .pro
  | some sub => retentionTier (tierForSubscription sub now)

def BATCH : Nat := 5000

def MAX_BATCHES : Nat := 20

structure AuditPruneResult where
  deleted : Nat
  truncated : Bool
  expired : Nat
  deriving DecidableEq

def cutoffCase (subscriptions : Subscriptions) (freeCutoff proCutoff : Nat) (row : AuditEvent π) :
    Nat :=
  if (row.userId.bind subscriptions).isSome then proCutoff else freeCutoff

/-- The `TimeZone` of a database session: how far its wall clock is ahead of UTC, in microseconds,
when it shows a time. -/
abbrev TimeZone := Nat → ℤ

def utc : TimeZone := fun _ => 0

/-- What the pruner counts and deletes, with the cutoffs that it took at `now`. `created_at` is a
naive timestamp and the cutoffs are `timestamptz`, so Postgres reads `created_at` as the wall clock
of the session. -/
def isExpired (zone : TimeZone) (subscriptions : Subscriptions) (now : Nat) (row : AuditEvent π) :
    Bool :=
  row.createdAt - zone row.createdAt < ofDate (cutoffCase subscriptions
    (auditRetentionCutoff .free now) (auditRetentionCutoff .pro now) row)

structure Scan (π : Type) where
  order : List (AuditEvent π) → List (AuditEvent π)
  perm : ∀ rows, (order rows).Perm rows

def deleteBatch (scan : Scan π) (old : AuditEvent π → Bool) (table : AuditEvents π) :
    AuditEvents π × Nat :=
  let chosen := ((scan.order (table.rows.filter old)).insertionSort
    (fun a b => a.createdAt ≤ b.createdAt)).take BATCH
  let left := table.keep fun row => row.id ∉ chosen.map (·.id)
  (left,table.rows.length-left.rows.length)

/-- The loop with `n` batches before the ceiling: what is left, how many rows went, and how many
batches were counted. -/
def deleteBatches (scan : Nat → Scan π) (old : AuditEvent π → Bool) :
    Nat → Nat → AuditEvents π → AuditEvents π × Nat × Nat
  | 0,batches,table => (table,0,batches)
  | n+1,batches,table =>
    let (left,removed) := deleteBatch (scan batches) old table
    if removed = 0 then (left,0,batches)
    else
      let (left,deleted,batches) := deleteBatches scan old n (batches+1) left
      (left,removed+deleted,batches)

def pruneAuditEvents (scan : Nat → Scan π) (zone : TimeZone) (subscriptions : Subscriptions) (now : Nat)
    (table : AuditEvents π) (dryRun : Bool) : AuditEvents π × AuditPruneResult :=
  let expired := (table.rows.filter (isExpired zone subscriptions now)).length
  if dryRun ∨ expired = 0 then (table,⟨0,false,expired⟩)
  else
    let (left,deleted,batches) :=
      deleteBatches scan (isExpired zone subscriptions now) MAX_BATCHES 0 table
    (left,⟨deleted,batches = MAX_BATCHES,expired⟩)

private theorem eq_of_id {table : AuditEvents π} {row row' : AuditEvent π} (h : row ∈ table.rows)
    (h' : row' ∈ table.rows) (hid : row.id = row'.id) : row = row' := by
  have hget := Table.get?_of_mem h
  have hget' := Table.get?_of_mem h'
  rw [hid] at hget
  exact Option.some.inj (hget.symm.trans hget')

private theorem filter_not_taken {rows : List (AuditEvent π)} (h : (rows.map (·.id)).Nodup)
    (k : Nat) : rows.filter (fun row => row.id ∉ (rows.take k).map (·.id)) = rows.drop k := by
  have hsplit := List.take_append_drop k rows
  have hnodup : ((rows.take k).map (·.id) ++ (rows.drop k).map (·.id)).Nodup := by
    rwa [← List.map_append,hsplit]
  have hdisjoint := (List.nodup_append.mp hnodup).2.2
  conv_lhs => rw [← hsplit,List.filter_append]
  rw [List.filter_eq_nil_iff.mpr,List.nil_append,List.filter_eq_self.mpr]
  · intro row hrow
    have hid := List.mem_map_of_mem (f := (·.id)) hrow
    simp only [hsplit,decide_not,Bool.not_eq_true',decide_eq_false_iff_not]
    intro htaken
    exact hdisjoint _ htaken _ hid rfl
  · intro row hrow
    have hid := List.mem_map_of_mem (f := (·.id)) hrow
    simpa [hsplit] using hid

variable (scan : Scan π) (old : AuditEvent π → Bool) (table : AuditEvents π)

private theorem deleteBatch_filter :
    ((deleteBatch scan old table).1.rows.filter old).length =
      (table.rows.filter old).length-BATCH ∧
    (deleteBatch scan old table).1.rows.filter (fun row => !old row) =
      table.rows.filter (fun row => !old row) := by
  let sorted := (scan.order (table.rows.filter old)).insertionSort
    (fun a b => a.createdAt ≤ b.createdAt)
  have hperm : sorted.Perm (table.rows.filter old) :=
    (List.perm_insertionSort _ _).trans (scan.perm _)
  have hnodup : (sorted.map (·.id)).Nodup :=
    (hperm.map _).nodup_iff.mpr (table.nodup.sublist (List.filter_sublist.map _))
  have hrows : (deleteBatch scan old table).1.rows =
      table.rows.filter (fun row => row.id ∉ (sorted.take BATCH).map (·.id)) := rfl
  rw [hrows]
  constructor
  · rw [List.filter_comm,← (hperm.filter _).length_eq,filter_not_taken hnodup,List.length_drop,
      hperm.length_eq]
  · rw [List.filter_comm,List.filter_eq_self]
    intro row hrow
    obtain ⟨hmem,hfresh⟩ := List.mem_filter.mp hrow
    rw [decide_eq_true_iff]
    intro hid
    obtain ⟨row',htaken,hsame⟩ := List.mem_map.mp hid
    obtain ⟨hmem',hold⟩ := List.mem_filter.mp (hperm.subset (List.mem_of_mem_take htaken))
    obtain rfl := eq_of_id hmem' hmem hsame
    simp [hold] at hfresh

private theorem length_filter_add (rows : List (AuditEvent π)) :
    rows.length = (rows.filter old).length+(rows.filter fun row => !old row).length := by
  induction rows with
  | nil => rfl
  | cons row rows ih =>
    rw [List.filter_cons,List.filter_cons,List.length_cons,ih]
    cases old row <;> simp <;> omega

private theorem deleteBatch_removed :
    (deleteBatch scan old table).2 = min BATCH (table.rows.filter old).length := by
  obtain ⟨hold,hfresh⟩ := deleteBatch_filter scan old table
  have hbefore := length_filter_add old table.rows
  have hafter := length_filter_add old (deleteBatch scan old table).1.rows
  have hremoved : (deleteBatch scan old table).2 =
      table.rows.length-(deleteBatch scan old table).1.rows.length := rfl
  rw [hfresh,hold] at hafter
  omega

private theorem mem_deleteBatch {row : AuditEvent π} (h : row ∈ table.rows)
    (hold : old row = false) : row ∈ (deleteBatch scan old table).1.rows := by
  have hmem : row ∈ table.rows.filter (fun row => !old row) := by simp [h,hold]
  rw [← (deleteBatch_filter scan old table).2] at hmem
  exact (List.mem_filter.mp hmem).1

omit table scan in
private theorem deleteBatches_done {scan : Nat → Scan π} {n batches : Nat} {table : AuditEvents π}
    (h : (deleteBatch (scan batches) old table).2 = 0) :
    deleteBatches scan old (n+1) batches table =
      ((deleteBatch (scan batches) old table).1,0,batches) := by
  simp only [deleteBatches,h,if_true]

omit table scan in
private theorem deleteBatches_more {scan : Nat → Scan π} {n batches : Nat} {table : AuditEvents π}
    (h : (deleteBatch (scan batches) old table).2 ≠ 0) :
    deleteBatches scan old (n+1) batches table =
      let rest := deleteBatches scan old n (batches+1) (deleteBatch (scan batches) old table).1
      (rest.1,(deleteBatch (scan batches) old table).2+rest.2.1,rest.2.2) := by
  simp only [deleteBatches,h,if_false]

omit table scan in
theorem mem_deleteBatches (scan : Nat → Scan π) (n batches : Nat) (table : AuditEvents π)
    {row : AuditEvent π} (h : row ∈ table.rows) (hold : old row = false) :
    row ∈ (deleteBatches scan old n batches table).1.rows := by
  induction n generalizing batches table with
  | zero => exact h
  | succ n ih =>
    have hleft := mem_deleteBatch (scan batches) old table h hold
    by_cases hnone : (deleteBatch (scan batches) old table).2 = 0
    · rw [deleteBatches_done old hnone]
      exact hleft
    · rw [deleteBatches_more old hnone]
      exact ih (batches+1) _ hleft

omit table scan in
theorem deleteBatches_counts (scan : Nat → Scan π) (n batches : Nat) (table : AuditEvents π) :
    ((deleteBatches scan old n batches table).1.rows.filter old).length =
      (table.rows.filter old).length-n*BATCH ∧
    (deleteBatches scan old n batches table).2.1 = min (n*BATCH) (table.rows.filter old).length ∧
    (deleteBatches scan old n batches table).2.2 =
      batches+min n (((table.rows.filter old).length+(BATCH-1))/BATCH) := by
  induction n generalizing batches table with
  | zero => simp [deleteBatches]
  | succ n ih =>
    have hold := (deleteBatch_filter (scan batches) old table).1
    have hremoved := deleteBatch_removed (scan batches) old table
    by_cases hnone : (deleteBatch (scan batches) old table).2 = 0
    · rw [deleteBatches_done old hnone,hold]
      simp only [hnone,BATCH] at hremoved ⊢
      omega
    · rw [deleteBatches_more old hnone]
      obtain ⟨hleft,hdeleted,hbatches⟩ := ih (batches+1) (deleteBatch (scan batches) old table).1
      simp only [hleft,hdeleted,hbatches,hold,hremoved]
      simp only [hremoved,BATCH] at hnone ⊢
      omega

/-- No later request for any account would be answered with the row. -/
def Unread (subscriptions : Subscriptions) (now : Nat) (row : AuditEvent π) : Prop :=
  ∀ (serving : Serving π) (later : AuditEvents π) (user : String) (limit : Option ℤ)
    (before : Option Nat) (type : Option JsString), now ≤ serving.now →
    serving.tier = tierFor (some (subscriptions user)) serving.now →
    row ∉ (GET serving later user limit before type).events

/-- Only rows that nobody will read went, `truncated` is false only if no row that was expired is
left, and true only if one is. -/
def Agrees (subscriptions : Subscriptions) (now : Nat) (table : AuditEvents π)
    (outcome : AuditEvents π × AuditPruneResult) : Prop :=
  (∀ row ∈ table.rows, row ∉ outcome.1.rows → Unread subscriptions now row) ∧
  (outcome.2.truncated = false → ∀ row ∈ table.rows, isExpired utc subscriptions now row →
    row ∉ outcome.1.rows) ∧
  (outcome.2.truncated = true → ∃ row ∈ outcome.1.rows, isExpired utc subscriptions now row)

omit scan old table in
/-- The reader's window lies inside the pruner's at any later time, if both mean the same clock. -/
theorem not_isExpired_of_selects {subscriptions : Subscriptions} {now later : Nat} {user : String}
    {before : Option Nat} {type : Option JsString} {row : AuditEvent π} (hnow : now ≤ later)
    (h : selects (auditRetentionCutoff (tierFor (some (subscriptions user)) later) later) user before
      type row) : isExpired utc subscriptions now row = false := by
  simp only [selects,Bool.and_eq_true,beq_iff_eq,decide_eq_true_eq] at h
  obtain ⟨⟨⟨huser,hcutoff⟩,-⟩,-⟩ := h
  rw [isExpired,utc,decide_eq_false_iff_not,Int.sub_zero,Int.ofNat_lt,Nat.not_lt,cutoffCase,huser,
    Option.bind_some]
  apply le_trans _ hcutoff
  apply Nat.mul_le_mul_right
  cases hrow : subscriptions user with
  | none =>
    have htier : tierFor (some none) later = .free := rfl
    rw [htier,if_neg (by simp)]
    exact Nat.sub_le_sub_right hnow _
  | some sub =>
    rw [if_pos Option.isSome_some]
    have hdays : auditRetentionDays (tierFor (some (some sub)) later) ≤ auditRetentionDays .pro := by
      cases tierFor (some (some sub)) later <;> decide
    have hwindow := Nat.mul_le_mul_right DAY_MS hdays
    rw [auditRetentionCutoff,auditRetentionCutoff]
    omega

omit scan old table in
theorem selects_of_mem_GET {serving : Serving π} {table : AuditEvents π} {user : String}
    {limit : Option ℤ} {before : Option Nat} {type : Option JsString} {row : AuditEvent π}
    (h : row ∈ (GET serving table user limit before type).events) :
    selects serving.cutoff user before type row := by
  have hsorted := List.mem_of_mem_take h
  rw [List.mem_insertionSort,(serving.perm _).mem_iff] at hsorted
  exact (List.mem_filter.mp hsorted).2

variable (zone : TimeZone) (subscriptions : Subscriptions) (now : Nat) (dryRun : Bool)

omit scan old in
private theorem mem_pruned (scan : Nat → Scan π) {row : AuditEvent π} (h : row ∈ table.rows)
    (hold : isExpired zone subscriptions now row = false) :
    row ∈ (pruneAuditEvents scan zone subscriptions now table dryRun).1.rows := by
  rw [pruneAuditEvents]
  split
  · exact h
  · exact mem_deleteBatches (isExpired zone subscriptions now) scan MAX_BATCHES 0 table h hold

omit scan old zone in
theorem pruneAuditEvents_unread (scan : Nat → Scan π) {row : AuditEvent π} (h : row ∈ table.rows)
    (hgone : row ∉ (pruneAuditEvents scan utc subscriptions now table dryRun).1.rows) :
    Unread subscriptions now row := by
  intro serving later user limit before type hnow htier hmem
  have hselects := selects_of_mem_GET hmem
  rw [Serving.cutoff,htier] at hselects
  exact hgone (mem_pruned table utc subscriptions now dryRun scan h
    (not_isExpired_of_selects hnow hselects))

omit scan table in
private theorem none_iff {rows : List (AuditEvent π)} :
    (rows.filter old).length = 0 ↔ ∀ row ∈ rows, old row → False := by
  rw [List.length_eq_zero_iff,List.filter_eq_nil_iff]

omit scan table in
private theorem some_iff {rows : List (AuditEvent π)} :
    0 < (rows.filter old).length ↔ ∃ row ∈ rows, old row := by
  rw [List.length_pos_iff_exists_mem]
  simp only [List.mem_filter]

omit scan old in
private theorem pruned_idle (scan : Nat → Scan π)
    (h : dryRun ∨ (table.rows.filter (isExpired zone subscriptions now)).length = 0) :
    pruneAuditEvents scan zone subscriptions now table dryRun =
      (table,⟨0,false,(table.rows.filter (isExpired zone subscriptions now)).length⟩) := by
  simp only [pruneAuditEvents,if_pos h]

omit scan old in
private theorem pruned_run (scan : Nat → Scan π)
    (h : 0 < (table.rows.filter (isExpired zone subscriptions now)).length) :
    (((pruneAuditEvents scan zone subscriptions now table false).1.rows.filter
      (isExpired zone subscriptions now)).length =
        (table.rows.filter (isExpired zone subscriptions now)).length-100000) ∧
    ((pruneAuditEvents scan zone subscriptions now table false).2.truncated = true ↔
      95000 < (table.rows.filter (isExpired zone subscriptions now)).length) := by
  have hrun : ¬ (false = true ∨ (table.rows.filter (isExpired zone subscriptions now)).length = 0) := by
    simp only [Bool.false_eq_true,false_or]
    omega
  obtain ⟨hleft,-,hbatches⟩ :=
    deleteBatches_counts (isExpired zone subscriptions now) scan MAX_BATCHES 0 table
  simp only [pruneAuditEvents,if_neg hrun]
  refine ⟨hleft,?_⟩
  rw [hbatches,decide_eq_true_iff]
  simp only [MAX_BATCHES,BATCH]
  omega

omit scan old in
/-- A run also reports its ceiling when the last batch takes everything that is left. The session
runs in UTC, as the values that the driver writes do. -/
theorem pruneAuditEvents_agrees_iff (scan : Nat → Scan π) (hutc : zone = utc) :
    Agrees subscriptions now table (pruneAuditEvents scan zone subscriptions now table dryRun) ↔
      if dryRun then (table.rows.filter (isExpired utc subscriptions now)).length = 0
      else ¬ (95000 < (table.rows.filter (isExpired utc subscriptions now)).length ∧
        (table.rows.filter (isExpired utc subscriptions now)).length ≤ 100000) := by
  subst hutc
  have hunread : ∀ row ∈ table.rows,
      row ∉ (pruneAuditEvents scan utc subscriptions now table dryRun).1.rows →
      Unread subscriptions now row :=
    fun row h hgone => pruneAuditEvents_unread table subscriptions now dryRun scan h hgone
  rw [Agrees,and_iff_right hunread]
  by_cases hidle : dryRun ∨ (table.rows.filter (isExpired utc subscriptions now)).length = 0
  · rw [pruned_idle table utc subscriptions now dryRun scan hidle,and_iff_left (by simp)]
    have hkept : (∀ row ∈ table.rows, isExpired utc subscriptions now row → row ∉ table.rows) ↔
        (table.rows.filter (isExpired utc subscriptions now)).length = 0 := by
      rw [none_iff]
      exact forall₂_congr fun row h => imp_congr_right fun _ => iff_false_intro fun hnot => hnot h
    simp only [forall_const,hkept]
    cases dryRun with
    | true => rw [if_pos rfl]
    | false =>
      have hnone := hidle.resolve_left (by simp)
      rw [if_neg (by simp),hnone]
      simp
  · simp only [not_or,Bool.not_eq_true] at hidle
    obtain ⟨rfl,hsome⟩ := hidle
    obtain ⟨hleft,htruncated⟩ := pruned_run table utc subscriptions now scan (by omega)
    rw [if_neg (by simp),← Bool.not_eq_true,htruncated,← some_iff,hleft]
    have hgone : (table.rows.filter (isExpired utc subscriptions now)).length ≤ 95000 →
        ∀ row ∈ table.rows, isExpired utc subscriptions now row →
          row ∉ (pruneAuditEvents scan utc subscriptions now table false).1.rows := by
      intro hfew row _ hold hmem
      exact (none_iff _).mp (hleft.trans (by omega)) row hmem hold
    rw [and_iff_right fun h => hgone (by omega)]
    omega

/-- Sign-ins of one account at the epoch, under ids of every length. -/
private def signIns (n : Nat) : AuditEvents Unit :=
  ⟨(List.range n).map fun i => ⟨String.ofList (List.replicate i 'x'),some "ada",[],0,()⟩,by
    rw [List.map_map]
    apply List.nodup_range.map
    intro i j h
    have hlists := congrArg String.toList h
    simp only [Function.comp_apply,String.toList_ofList] at hlists
    simpa using congrArg List.length hlists⟩

private theorem signIns_expired (n : Nat) :
    ((signIns n).rows.filter (isExpired utc (fun _ => none) (31*DAY_MS))).length = n := by
  rw [List.filter_eq_self.mpr]
  · simp [signIns]
  · intro row hrow
    obtain ⟨i,-,rfl⟩ := List.mem_map.mp hrow
    simp [isExpired,utc,cutoffCase,auditRetentionCutoff,auditRetentionDays,ofDate,DAY_MS]

theorem pruneAuditEvents_agrees_demo : Agrees (fun _ => none) (31*DAY_MS) (signIns 1)
    (pruneAuditEvents (fun _ => ⟨id,fun rows => .refl rows⟩) utc (fun _ => none) (31*DAY_MS)
      (signIns 1) false) := by
  rw [pruneAuditEvents_agrees_iff (signIns 1) utc _ _ _ _ rfl,signIns_expired]
  decide

theorem pruneAuditEvents_false_ceiling : ¬ ∀ (scan : Nat → Scan Unit)
    (subscriptions : Subscriptions) (now : Nat) (table : AuditEvents Unit),
    Agrees subscriptions now table (pruneAuditEvents scan utc subscriptions now table false) := by
  intro hall
  have hrun := hall (fun _ => ⟨id,fun rows => .refl rows⟩) (fun _ => none) (31*DAY_MS)
    (signIns 100000)
  obtain ⟨hleft,htruncated⟩ := pruned_run (signIns 100000) utc (fun _ => none) (31*DAY_MS)
    (fun _ => ⟨id,fun rows => .refl rows⟩) (by rw [signIns_expired]; omega)
  rw [signIns_expired] at hleft htruncated
  have hsome := hrun.2.2 (htruncated.mpr (by omega))
  rw [← some_iff,hleft] at hsome
  omega

end WeirdVault.Audit
