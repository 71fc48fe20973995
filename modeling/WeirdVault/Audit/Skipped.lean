import WeirdVault.Audit.Pages

/-!
# What the cursor skips

The cursor is the last row's time to the millisecond below, and the next page is strictly before it,
so that the rows that share the last row's millisecond are on its page or on none.
-/

namespace WeirdVault.Audit

open WeirdVault.Framework Paging

variable {π : Type}

def cursorTime (micros : Nat) : Nat := ofDate (toDate micros)

private theorem cursorTime_le_iff (a b : Nat) : cursorTime a ≤ b ↔ cursorTime a ≤ cursorTime b := by
  simp only [cursorTime,ofDate,toDate]
  omega

private theorem cursorTime_le {a b : Nat} (h : a ≤ b) : cursorTime a ≤ b :=
  (Nat.div_mul_le_self a 1000).trans h

theorem pageSize_pos (limit : Option ℤ) : 0 < pageSize limit := by
  rcases limit with _ | n
  · simp [pageSize,DEFAULT_PAGE]
  · by_cases h : n < 1
    · simp [pageSize,h,DEFAULT_PAGE]
    · simp only [pageSize,h,if_false,MAX_PAGE]
      omega

def accountRows (table : AuditEvents π) (user : String) (before : Option Nat) : List (AuditEvent π) :=
  table.rows.filter (fun row => row.userId == some user &&
    before.all (fun cursor => row.createdAt < ofDate cursor))

section Page

variable {serving : Serving π} {table : AuditEvents π} {user : String}
  {limit : Option ℤ} {before : Option Nat} {since : Nat}

private theorem nodup_rows (table : AuditEvents π) : table.rows.Nodup := List.Nodup.of_map _ table.nodup

private theorem isPage_GET : IsPage AuditEvent.createdAt (pageSize limit)
    (table.rows.filter (selects serving.cutoff user before none))
    (GET serving table user limit before none).events :=
  isPage_take ((nodup_rows table).filter _) (serving.perm _)

private theorem listed_subset :
    table.rows.filter (selects serving.cutoff user before none) ⊆ accountRows table user before := by
  intro row hrow
  obtain ⟨hrow,hs⟩ := List.mem_filter.mp hrow
  simp only [selects,Bool.and_eq_true] at hs
  exact List.mem_filter.mpr ⟨hrow,by simp [hs.1.1.1,hs.1.2]⟩

private theorem listed_of_since (hsince : serving.cutoff ≤ since) :
    ∀ row ∈ accountRows table user before, ofDate since ≤ row.createdAt →
      row ∈ table.rows.filter (selects serving.cutoff user before none) := by
  intro row hrow hnew
  obtain ⟨hrow,hs⟩ := List.mem_filter.mp hrow
  simp only [Bool.and_eq_true] at hs
  have hcut : ofDate serving.cutoff ≤ row.createdAt := (Nat.mul_le_mul_right 1000 hsince).trans hnew
  exact List.mem_filter.mpr ⟨hrow,by simp [selects,hs.1,hs.2,hcut]⟩

private theorem accountRows_next {last : AuditEvent π} (hlast : last ∈ accountRows table user before) :
    accountRows table user (some (toDate last.createdAt)) =
      (accountRows table user before).filter
        (fun row => row.createdAt < cursorTime last.createdAt) := by
  have hbefore := (List.mem_filter.mp hlast).2
  simp only [Bool.and_eq_true] at hbefore
  rw [accountRows,accountRows,List.filter_filter]
  apply List.filter_congr
  intro row _
  by_cases hlt : row.createdAt < cursorTime last.createdAt
  · have hold : before.all (fun cursor => decide (row.createdAt < ofDate cursor)) = true := by
      rcases before with _ | cursor
      · rfl
      · have hlast' : last.createdAt < ofDate cursor := by simpa using hbefore.2
        have hcursor : row.createdAt < ofDate cursor := hlt.trans_le (cursorTime_le hlast'.le)
        simpa using hcursor
    simp only [hold,cursorTime,Bool.and_true]
    exact Bool.and_comm _ _
  · have hno : ¬ row.createdAt < ofDate (toDate last.createdAt) := hlt
    simp [hno,cursorTime]

private theorem last_mem {last : AuditEvent π}
    (h : (GET serving table user limit before none).events.getLast? = some last) :
    last ∈ accountRows table user before :=
  listed_subset (isPage_GET.subset (List.mem_of_getLast? h))

private theorem nextCursor_eq : (GET serving table user limit before none).nextCursor =
    if (GET serving table user limit before none).events.length = pageSize limit then
      (GET serving table user limit before none).events.getLast?.map
        (fun row => toDate row.createdAt)
    else none := rfl

private theorem nextCursor_none (h : (GET serving table user limit before none).nextCursor = none) :
    (GET serving table user limit before none).events.length ≠ pageSize limit := by
  intro hfull
  have hpos := pageSize_pos limit
  rw [nextCursor_eq,if_pos hfull,Option.map_eq_none_iff,List.getLast?_eq_none_iff] at h
  rw [h,List.length_nil] at hfull
  omega

private theorem nextCursor_some {cursor : Nat}
    (h : (GET serving table user limit before none).nextCursor = some cursor) :
    (GET serving table user limit before none).events.length = pageSize limit ∧
      ∃ last, (GET serving table user limit before none).events.getLast? = some last ∧
        cursor = toDate last.createdAt := by
  rw [nextCursor_eq] at h
  by_cases hfull : (GET serving table user limit before none).events.length = pageSize limit
  · rw [if_pos hfull] at h
    obtain ⟨last,hlast,he⟩ := Option.map_eq_some_iff.mp h
    exact ⟨hfull,last,hlast,he.symm⟩
  · rw [if_neg hfull] at h
    cases h

private theorem walk_last (hsince : serving.cutoff ≤ since)
    (h : (GET serving table user limit before none).nextCursor = none) :
    Walk AuditEvent.createdAt cursorTime (pageSize limit) (ofDate since)
      (accountRows table user before) [(GET serving table user limit before none).events] :=
  .last listed_subset ((nodup_rows table).filter _) (listed_of_since hsince) isPage_GET
    (nextCursor_none h)

private theorem walk_next (hsince : serving.cutoff ≤ since) {cursor : Nat}
    (h : (GET serving table user limit before none).nextCursor = some cursor)
    {pages : List (List (AuditEvent π))}
    (hwalk : Walk AuditEvent.createdAt cursorTime (pageSize limit) (ofDate since)
      (accountRows table user (some cursor)) pages) :
    Walk AuditEvent.createdAt cursorTime (pageSize limit) (ofDate since)
      (accountRows table user before) ((GET serving table user limit before none).events :: pages) := by
  obtain ⟨hfull,last,hlast,rfl⟩ := nextCursor_some h
  rw [accountRows_next (last_mem hlast)] at hwalk
  exact .next listed_subset ((nodup_rows table).filter _) (listed_of_since hsince) isPage_GET hfull
    hlast hwalk

private theorem accountRows_shrink {cursor : Nat}
    (h : (GET serving table user limit before none).nextCursor = some cursor) :
    (accountRows table user (some cursor)).length < (accountRows table user before).length := by
  obtain ⟨-,last,hlast,rfl⟩ := nextCursor_some h
  rw [accountRows_next (last_mem hlast)]
  apply List.length_filter_lt_length_iff_exists.mpr
  refine ⟨last,last_mem hlast,?_⟩
  have hle : cursorTime last.createdAt ≤ last.createdAt := (cursorTime_le_iff _ _).mpr (le_refl _)
  simpa using hle

end Page

section Runs

variable {serve : Nat → Serving π} {table : AuditEvents π} {user : String} {limit : Option ℤ}
  {since : Nat}

def askedLimit (limit : Option ℤ) : Nat := pageSize (some (limit.getD AUDIT_PAGE_SIZE))

def ids (rows : List (AuditRow π)) : List String := rows.map AuditRow.id

private theorem mem_ids_mergePages {existing incoming : List (AuditRow π)} {id : String} :
    id ∈ ids (mergePages existing incoming) ↔ id ∈ ids existing ∨ id ∈ ids incoming := by
  have hperm := (List.perm_insertionSort (fun a b : AuditRow π => b.at' ≤ a.at')
    ((Table.empty AuditRow.id).putAll (existing ++ incoming)).rows).map AuditRow.id
  have hrows : id ∈ ids (mergePages existing incoming) ↔
      id ∈ ((Table.empty AuditRow.id).putAll (existing ++ incoming)).rows.map AuditRow.id :=
    hperm.mem_iff
  rw [hrows,Table.mem_keys_putAll]
  simp [ids,Table.empty]

private theorem nodup_ids_mergePages (existing incoming : List (AuditRow π)) :
    (ids (mergePages existing incoming)).Nodup := by
  have hperm := (List.perm_insertionSort (fun a b : AuditRow π => b.at' ≤ a.at')
    ((Table.empty AuditRow.id).putAll (existing ++ incoming)).rows).map AuditRow.id
  exact hperm.nodup_iff.mpr ((Table.empty AuditRow.id).putAll (existing ++ incoming)).nodup

private theorem ids_toRow (events : List (AuditEvent π)) :
    ids (events.map toRow) = events.map AuditEvent.id := by
  simp [ids,toRow,Function.comp_def]

private theorem walk_loadOlder (hsince : ∀ i, (serve i).cutoff ≤ since) {n i cursor : Nat}
    {rows merged : List (AuditRow π)} (hn : (ids rows).Nodup)
    (h : loadOlder serve table user limit n i (some cursor) rows = some merged) :
    ∃ pages, Walk AuditEvent.createdAt cursorTime (askedLimit limit) (ofDate since)
      (accountRows table user (some cursor)) pages ∧ (ids merged).Nodup ∧
        ∀ id, id ∈ ids merged ↔ id ∈ ids rows ∨ id ∈ pages.flatten.map AuditEvent.id := by
  induction n generalizing i cursor rows with
  | zero => cases h
  | succ n ih =>
    have hstep : loadOlder serve table user limit n (i+1)
        (GET (serve i) table user (some (limit.getD AUDIT_PAGE_SIZE)) (some cursor) none).nextCursor
        (mergePages rows ((GET (serve i) table user (some (limit.getD AUDIT_PAGE_SIZE)) (some cursor)
          none).events.map toRow)) = some merged := h
    have hmem : ∀ id, id ∈ ids (mergePages rows ((GET (serve i) table user
        (some (limit.getD AUDIT_PAGE_SIZE)) (some cursor) none).events.map toRow)) ↔
        id ∈ ids rows ∨ id ∈ (GET (serve i) table user (some (limit.getD AUDIT_PAGE_SIZE))
          (some cursor) none).events.map AuditEvent.id := by
      intro id
      rw [mem_ids_mergePages,ids_toRow]
    rcases hcursor : (GET (serve i) table user (some (limit.getD AUDIT_PAGE_SIZE)) (some cursor)
        none).nextCursor with _ | next
    · rw [hcursor,loadOlder] at hstep
      obtain rfl := Option.some.inj hstep
      refine ⟨_,walk_last (hsince i) hcursor,nodup_ids_mergePages _ _,?_⟩
      intro id
      rw [hmem]
      simp
    · rw [hcursor] at hstep
      obtain ⟨pages,hwalk,hnodup,hids⟩ := ih (nodup_ids_mergePages _ _) hstep
      refine ⟨_,walk_next (hsince i) hcursor hwalk,hnodup,?_⟩
      intro id
      rw [hids,hmem,List.flatten_cons,List.map_append,List.mem_append,or_assoc]

private theorem loadOlder_ends {n i cursor : Nat} {rows : List (AuditRow π)}
    (h : (accountRows table user (some cursor)).length < n) :
    ∃ merged, loadOlder serve table user limit n i (some cursor) rows = some merged := by
  induction n generalizing i cursor rows with
  | zero => omega
  | succ n ih =>
    rw [loadOlder]
    rcases hcursor : (fetchAuditPage (serve i) table user (some cursor) limit).nextCursor with _ | next
    · exact ⟨_,by rw [loadOlder]⟩
    · have hshrink : (accountRows table user (some next)).length <
          (accountRows table user (some cursor)).length := accountRows_shrink hcursor
      exact ih (by omega)

private theorem walk_readAll (hsince : ∀ i, (serve i).cutoff ≤ since) {n : Nat}
    {merged : List (AuditRow π)} (h : readAll serve table user limit n = some merged) :
    ∃ pages, Walk AuditEvent.createdAt cursorTime (askedLimit limit) (ofDate since)
      (accountRows table user none) pages ∧ (ids merged).Nodup ∧
        ∀ id, id ∈ ids merged ↔ id ∈ pages.flatten.map AuditEvent.id := by
  have hstep : loadOlder serve table user limit n 1
      (GET (serve 0) table user (some (limit.getD AUDIT_PAGE_SIZE)) none none).nextCursor
      ((GET (serve 0) table user (some (limit.getD AUDIT_PAGE_SIZE)) none none).events.map toRow) =
        some merged := h
  have hpage : IsPage AuditEvent.createdAt (askedLimit limit)
      (table.rows.filter (selects (serve 0).cutoff user none none))
      (GET (serve 0) table user (some (limit.getD AUDIT_PAGE_SIZE)) none none).events := isPage_GET
  have hfirst : (ids ((GET (serve 0) table user (some (limit.getD AUDIT_PAGE_SIZE)) none
      none).events.map toRow)).Nodup := by
    rw [ids_toRow]
    have hsub : ∀ e ∈ (GET (serve 0) table user (some (limit.getD AUDIT_PAGE_SIZE)) none
        none).events, e ∈ table.rows := fun e he => List.mem_of_mem_filter (hpage.subset he)
    apply hpage.nodup.map_on
    intro x hx y hy he
    exact List.inj_on_of_nodup_map table.nodup (hsub x hx) (hsub y hy) he
  rcases hcursor : (GET (serve 0) table user (some (limit.getD AUDIT_PAGE_SIZE)) none
      none).nextCursor with _ | next
  · rw [hcursor,loadOlder] at hstep
    obtain rfl := Option.some.inj hstep
    refine ⟨_,walk_last (hsince 0) hcursor,hfirst,?_⟩
    intro id
    rw [ids_toRow]
    simp
  · rw [hcursor] at hstep
    obtain ⟨pages,hwalk,hnodup,hids⟩ := walk_loadOlder hsince hfirst hstep
    refine ⟨_,walk_next (hsince 0) hcursor hwalk,hnodup,?_⟩
    intro id
    rw [hids,ids_toRow,List.flatten_cons,List.map_append,List.mem_append]

private theorem readAll_ends : ∃ n merged, readAll serve table user limit n = some merged := by
  rcases hcursor : (fetchAuditPage (serve 0) table user none limit).nextCursor with _ | next
  · exact ⟨0,_,by rw [readAll,hcursor,loadOlder]⟩
  · obtain ⟨merged,hmerged⟩ := loadOlder_ends (Nat.lt_succ_self
      (accountRows table user (some next)).length)
    exact ⟨_,merged,by rw [readAll,hcursor]; exact hmerged⟩

end Runs

/-- Every row of the account that was in the window all the while is there once. -/
def Complete (table : AuditEvents π) (user : String) (since : Nat) (merged : List (AuditRow π)) :
    Prop :=
  ∀ row ∈ table.rows, row.userId = some user → ofDate since ≤ row.createdAt →
    (ids merged).count row.id = 1

private theorem complete_iff {table : AuditEvents π} {user : String} {since : Nat}
    {merged : List (AuditRow π)} {rows : List (AuditEvent π)} (hn : (ids merged).Nodup)
    (hsub : rows ⊆ accountRows table user none)
    (hids : ∀ id, id ∈ ids merged ↔ id ∈ rows.map AuditEvent.id) :
    Complete table user since merged ↔
      ∀ row ∈ accountRows table user none, ofDate since ≤ row.createdAt → row ∈ rows := by
  have hmem : ∀ row ∈ table.rows, row.id ∈ ids merged ↔ row ∈ rows := by
    intro row hrow
    rw [hids]
    constructor
    · intro h
      obtain ⟨other,hother,he⟩ := List.mem_map.mp h
      have htable := List.mem_of_mem_filter (hsub hother)
      rwa [← List.inj_on_of_nodup_map table.nodup htable hrow he]
    · intro h
      exact List.mem_map_of_mem h
  constructor
  · intro h row hrow hsince
    obtain ⟨hrow,huser⟩ := List.mem_filter.mp hrow
    have hone := h row hrow (by simpa using huser) hsince
    exact (hmem row hrow).mp (List.count_pos_iff.mp (by omega))
  · intro h row hrow huser hsince
    apply List.count_eq_one_of_mem hn
    rw [hmem row hrow]
    exact h row (List.mem_filter.mpr ⟨hrow,by simp [huser]⟩) hsince

private theorem complete_readAll_iff [DecidableEq π] {serve : Nat → Serving π}
    {table : AuditEvents π} {user : String} {limit : Option ℤ} {since n : Nat}
    {merged : List (AuditRow π)} (hsince : ∀ i, (serve i).cutoff ≤ since)
    (h : readAll serve table user limit n = some merged) :
    Complete table user since merged ↔ Separated cursorTime (askedLimit limit)
      (timesSince AuditEvent.createdAt (ofDate since) (accountRows table user none)) := by
  obtain ⟨pages,hwalk,hnodup,hids⟩ := walk_readAll hsince h
  rw [complete_iff hnodup (walk_subset hwalk) hids]
  exact walk_complete_iff cursorTime_le_iff (pageSize_pos _) ((nodup_rows table).filter _) hwalk

/-- Following the cursor always ends; what it has read is complete exactly if no page of the rows in
the window, newest first, ends between two rows of one millisecond. -/
theorem audit_pages_complete_iff [DecidableEq π] (serve : Nat → Serving π) (table : AuditEvents π)
    (user : String) (limit : Option ℤ) (since : Nat) (hsince : ∀ i, (serve i).cutoff ≤ since) :
    (∃ n merged, readAll serve table user limit n = some merged ∧ Complete table user since merged) ↔
      Separated cursorTime (askedLimit limit)
        (timesSince AuditEvent.createdAt (ofDate since) (accountRows table user none)) := by
  constructor
  · intro h
    obtain ⟨n,merged,hread,hcomplete⟩ := h
    exact (complete_readAll_iff hsince hread).mp hcomplete
  · intro h
    have hends : ∃ n merged, readAll serve table user limit n = some merged := readAll_ends
    obtain ⟨n,merged,hread⟩ := hends
    exact ⟨n,merged,hread,(complete_readAll_iff hsince hread).mpr h⟩

private def atOnce : Nat → Serving Unit := fun _ => ⟨0,.free,id,fun _ => List.Perm.refl _⟩

private theorem cutoff_atOnce (i : Nat) : (atOnce i).cutoff ≤ 0 := by
  unfold Serving.cutoff auditRetentionCutoff
  exact le_of_eq (Nat.zero_sub _)

private def logged (id : String) (micros : Nat) : AuditEvent Unit :=
  ⟨id,some "ada",utf16 "connection.opened",micros,()⟩

def batch : AuditEvents Unit := ((Table.empty _).put (logged "a" 5000500)).put (logged "b" 5000500)

theorem batch_split_by_page :
    ¬ ∃ n merged, readAll atOnce batch "ada" (some 1) n = some merged ∧
      Complete batch "ada" 0 merged := by
  intro h
  obtain ⟨n,merged,hread,hcomplete⟩ := h
  have hsep := (complete_readAll_iff cutoff_atOnce hread).mp hcomplete
  exact hsep 1 5000500 5000500 Nat.one_pos (by decide +kernel) (by decide +kernel) rfl

theorem audit_pages_complete_iff_apart :
    (∃ n merged, readAll atOnce ((batch.erase "b").put (logged "b" 4999999)) "ada" (some 1) n =
      some merged ∧ Complete ((batch.erase "b").put (logged "b" 4999999)) "ada" 0 merged) ↔
      Separated cursorTime (askedLimit (some 1)) (timesSince AuditEvent.createdAt (ofDate 0)
        (accountRows ((batch.erase "b").put (logged "b" 4999999)) "ada" none)) :=
  audit_pages_complete_iff atOnce _ "ada" (some 1) 0 cutoff_atOnce

end WeirdVault.Audit
