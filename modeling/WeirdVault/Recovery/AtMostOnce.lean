import Mathlib.Data.List.Nodup
import WeirdVault.Recovery.Route

/-! # What concurrent redemptions, enrolments and deletions leave of a set of codes -/

namespace WeirdVault.Recovery

open WeirdVault.Framework

variable {P : Platform}

/-- The row still offers the envelope. -/
def Redeemable (s : Db) (e : Stored) : Prop := ∃ row, s.row = some row ∧ e ∈ row.envelopes

abbrev Log := List (Entry Request.Ans Job)

def spends : Request → Option Stored
  | .updateById _ _ e => some e
  | _ => none

/-- An enrolment or a deletion, which ends the life of the whole set. -/
def replaces : Request → Bool
  | .upsert _ => true
  | .deleteByUser => true
  | _ => false

def Spent (log : Log) (i : Nat) (e : Stored) : Prop :=
  ∃ x ∈ log, x.thread = i ∧ spends x.request = some e

/-- The redemption of thread `i` has answered with the envelope. -/
def HandedOut (w : World Request.Ans Empty Reply Job Db) (i : Nat) (e : Stored) : Prop :=
  w.result? i = some (.ok (.real e))

def without (envelopes : List Stored) (e : Stored) : List Stored :=
  envelopes.filter (fun x => !idMatches x.envelope.id e.envelope.id)

def selects : Request → Bool
  | .selectByEmail _ => true
  | _ => false

def redeems : Job → Option String
  | .redeem _ codeId => codeId
  | _ => none

def selected (i : Nat) : Log → Option RecoveryBlob
  | [] => none
  | ⟨j,_,.selectByEmail _,row⟩ :: log => if j = i then row else selected i log
  | _ :: log => selected i log

def sinceSelect (i : Nat) (log : Log) : Log :=
  log.takeWhile fun x => !(x.thread = i && selects x.request)

/-- The row that a redemption is about to update is the very row it selected. Where that row is gone
the update finds nothing, and then no redemption of the code may have made its update since. -/
def unchangedSinceRead (s : Db) (log : Log) (i : Nat) (job : Job) : Bool :=
  let untouched := !(sinceSelect i log).any fun x =>
    (spends x.request).isSome && redeems x.job = redeems job
  match selected i log,s.row with
  | some read,some row => if row.id = read.id then row = read else untouched
  | _,_ => untouched

def stepUnchanged (w : World Request.Ans Empty Reply Job Db) : Act Job Bool → Bool
  | .step i _ =>
    match w.threads[i]? with
    | some ⟨job,.ask (.updateById ..) _⟩ => unchangedSinceRead w.shared w.log i job
    | _ => true
  | .start _ => true

/-- An update takes one envelope out of the row that it finds. -/
def TakesOut (s : Db) : Request → Prop
  | .updateById id envelopes e => ∀ row, s.row = some row → row.id = id →
    e ∈ row.envelopes ∧ envelopes = without row.envelopes e
  | _ => True

/-- Envelopes of earlier enrolments that a row still offers were offered by that row before. -/
structure Shrinks (s s' : Db) : Prop where
  enrolments : s.enrolments ≤ s'.enrolments
  created : s.created ≤ s'.created
  offered : ∀ row', s'.row = some row' → ∀ e ∈ row'.envelopes, e.enrolment < s.enrolments →
    ∃ row, s.row = some row ∧ row.id = row'.id ∧ e ∈ row.envelopes

private theorem Shrinks.refl (s : Db) : Shrinks s s :=
  ⟨Nat.le_refl _,Nat.le_refl _,fun row h _ he _ => ⟨row,h,rfl,he⟩⟩

theorem shrinks_exec {s : Db} {r : Request} (env : Bool) (h : TakesOut s r) :
    Shrinks s (exec env s r).1 := by
  cases r with
  | enforce => exact .refl s
  | getSession => exact .refl s
  | selectByEmail email => exact .refl s
  | insertAudit eventType metadata => exact .refl s
  | deleteByUser =>
    refine ⟨Nat.le_refl _,Nat.le_refl _,?_⟩
    intro row' hrow'
    simp [exec] at hrow'
  | updateById id envelopes e =>
    rcases hrow : s.row with _ | row
    · simpa [exec,hrow] using Shrinks.refl s
    · by_cases hid : row.id = id
      · have hlist := (h row hrow hid).2
        simp only [exec,hrow,hid,if_true]
        refine ⟨Nat.le_refl _,Nat.le_refl _,?_⟩
        intro row' hrow' x hx _
        obtain rfl := Option.some.inj hrow'
        rw [hlist] at hx
        exact ⟨row,hrow,hid,(List.mem_filter.mp hx).1⟩
      · simpa [exec,hrow,hid] using Shrinks.refl s
  | upsert envelopes =>
    have hnew : ∀ x ∈ envelopes.map (fun e => Stored.mk e s.enrolments),
        ¬ x.enrolment < s.enrolments := by
      intro x hx
      obtain ⟨e,-,rfl⟩ := List.mem_map.mp hx
      exact Nat.lt_irrefl _
    rcases hrow : s.row with _ | row
    · simp only [exec,hrow]
      refine ⟨Nat.le_succ _,Nat.le_succ _,?_⟩
      intro row' hrow' x hx hlt
      obtain rfl := Option.some.inj hrow'
      exact absurd hlt (hnew x hx)
    · simp only [exec,hrow]
      refine ⟨Nat.le_succ _,Nat.le_refl _,?_⟩
      intro row' hrow' x hx hlt
      obtain rfl := Option.some.inj hrow'
      exact absurd hlt (hnew x hx)

structure Gone (s : Db) (e : Stored) : Prop where
  old : e.enrolment < s.enrolments
  notOffered : ¬ Redeemable s e

theorem Gone.mono {s s' : Db} {e : Stored} (h : Gone s e) (hs : Shrinks s s') : Gone s' e := by
  refine ⟨Nat.lt_of_lt_of_le h.old hs.enrolments,?_⟩
  rintro ⟨row',hrow',he⟩
  obtain ⟨row,hrow,-,he'⟩ := hs.offered row' hrow' e he h.old
  exact h.notOffered ⟨row,hrow,he'⟩

structure Memory where
  selected : Option RecoveryBlob
  spent : Option Stored

/-- A redemption spends the envelope of its code out of the set it read; an enrolment has distinct
ids. -/
def routeDiscipline (job : Job) : Discipline Request.Ans Memory where
  may k
    | .updateById id envelopes e => redeems job = some e.envelope.id ∧
      ∃ row, k.selected = some row ∧ row.id = id ∧ e ∈ row.envelopes ∧
        envelopes = without row.envelopes e
    | .upsert envelopes => (envelopes.map (·.id)).Nodup
    | _ => True
  learns k r x k' :=
    match r,x with
    | .selectByEmail _,row => k' = { k with selected := row }
    | .updateById _ _ e,_ => k' = { k with spent := some e }
    | _,_ => k' = k

/-- A real answer was spent by the redemption that gives it. -/
def answersSpent (k : Memory) (o : Except Empty Reply) : Prop :=
  ∀ e, o = .ok (.real e) → k.spent = some e

private theorem obeys_redeem (email codeId : Option String) :
    Program.Obeys (routeDiscipline (.redeem email codeId)) answersSpent ⟨none,none⟩
      (redeem P email codeId) := by
  unfold redeem
  refine ⟨trivial,?_⟩
  rintro limited k' rfl
  cases limited with
  | true => simp [answersSpent]
  | false =>
    rcases email with _ | email
    · simp [answersSpent]
    rcases codeId with _ | codeId
    · simp [answersSpent]
    by_cases hid : wellFormedId codeId
    · simp only [hid]
      refine ⟨trivial,?_⟩
      rintro row k' rfl
      rcases row with _ | row
      · simp [answersSpent]
      rcases hfind : row.envelopes.find? (fun e => idMatches e.envelope.id codeId) with _ | found
      · simp [answersSpent,hfind]
      · have hcode : found.envelope.id = codeId := by
          simpa [idMatches] using List.find?_some hfind
        subst hcode
        simp only [Program.done_bind,hfind]
        refine ⟨⟨rfl,row,rfl,rfl,List.mem_of_find?_eq_some hfind,rfl⟩,?_⟩
        rintro _ k' rfl
        refine ⟨trivial,?_⟩
        rintro _ k' rfl
        intro e he
        obtain rfl : found = e := by simpa using he
        rfl
    · simp [hid,answersSpent]

private theorem obeys_enrol (envelopes : Option (List (Option StoredEnvelope))) :
    Program.Obeys (routeDiscipline (.enrol envelopes)) answersSpent ⟨none,none⟩
      (enrol P envelopes) := by
  unfold enrol
  refine ⟨trivial,?_⟩
  rintro user k' rfl
  cases user with
  | false => simp [answersSpent]
  | true =>
    rcases envelopes with _ | envelopes
    · simp [answersSpent]
    by_cases hlength : envelopes.length < minEnvelopes ∨ maxEnvelopes < envelopes.length
    · simp [hlength,answersSpent]
    by_cases hshape : envelopes.all (fun e => e.elim false (isStoredEnvelope P))
    · by_cases hids : ((envelopes.filterMap id).map (·.id)).Nodup
      · simp only [hlength,hshape,hids]
        refine ⟨hids,?_⟩
        rintro _ k' rfl
        refine ⟨trivial,?_⟩
        rintro _ k' rfl
        simp [answersSpent]
      · simp only [hlength,hshape,hids]
        simp [answersSpent]
    · simp [hlength,hshape,answersSpent]

private theorem obeys_delete :
    Program.Obeys (routeDiscipline .delete) answersSpent ⟨none,none⟩ delete := by
  unfold delete
  refine ⟨trivial,?_⟩
  rintro user k' rfl
  cases user with
  | false => simp [answersSpent]
  | true =>
    refine ⟨trivial,?_⟩
    rintro removed k' rfl
    cases removed with
    | false => simp [answersSpent]
    | true =>
      refine ⟨trivial,?_⟩
      rintro _ k' rfl
      simp [answersSpent]

theorem obeys_code (job : Job) :
    Program.Obeys (routeDiscipline job) answersSpent ⟨none,none⟩ (code P job) := by
  cases job with
  | redeem email codeId => exact obeys_redeem email codeId
  | enrol envelopes => exact obeys_enrol envelopes
  | delete => exact obeys_delete

/-- What every run with unchanged rows keeps of the table and of what has been spent. -/
structure RowInv (s : Db) (log : Log) : Prop where
  id : ∀ row, s.row = some row → row.id < s.created
  old : ∀ e, Redeemable s e → e.enrolment < s.enrolments
  distinct : ∀ row, s.row = some row → (row.envelopes.map (·.envelope.id)).Nodup
  gone : ∀ i e, Spent log i e → Gone s e
  codes : ∀ x ∈ log, ∀ e, spends x.request = some e → redeems x.job = some e.envelope.id
  once : ∀ i j e, Spent log i e → Spent log j e → i = j

/-- What a redemption knows of the set it read, whatever became of it. -/
structure Remembers (s : Db) (log : Log) (i : Nat) (k : Memory) :
    Prop where
  old : ∀ row, k.selected = some row → row.id < s.created ∧
    ∀ e ∈ row.envelopes, e.enrolment < s.enrolments
  place : ∀ row, k.selected = some row → ∀ e ∈ row.envelopes, ∀ cur, s.row = some cur →
    e ∈ cur.envelopes → cur.id = row.id
  selected : ∀ row, k.selected = some row → selected i log = some row
  unspent : ∀ row, k.selected = some row → ∀ e ∈ row.envelopes, ∀ x ∈ log,
    spends x.request = some e → x ∈ sinceSelect i log
  spent : ∀ e, k.spent = some e → Spent log i e

theorem Spent.cons {log : Log} {i : Nat} {e : Stored}
    (h : Spent log i e) (x : Entry Request.Ans Job) : Spent (x :: log) i e := by
  obtain ⟨y,hy,hspent⟩ := h
  exact ⟨y,List.mem_cons_of_mem x hy,hspent⟩

theorem spent_cons {x : Entry Request.Ans Job} {log : Log} {i : Nat}
    {e : Stored} (h : Spent (x :: log) i e) :
    (x.thread = i ∧ spends x.request = some e) ∨ Spent log i e := by
  obtain ⟨y,hy,hspent⟩ := h
  rcases List.mem_cons.mp hy with rfl | hy
  · exact Or.inl hspent
  · exact Or.inr ⟨y,hy,hspent⟩

def Other (i : Nat) (x : Entry Request.Ans Job) : Prop := x.thread = i → selects x.request = false

private theorem selected_cons {i : Nat} {x : Entry Request.Ans Job} (h : Other i x) (log : Log) :
    selected i (x :: log) = selected i log := by
  obtain ⟨j,job,r,answer⟩ := x
  cases r with
  | selectByEmail email =>
    have hne : j ≠ i := fun he => by simpa [selects] using h he
    simp [selected,hne]
  | _ => rfl

private theorem sinceSelect_cons {i : Nat} {x : Entry Request.Ans Job} (h : Other i x) (log : Log) :
    sinceSelect i (x :: log) = x :: sinceSelect i log := by
  refine List.takeWhile_cons_of_pos ?_
  by_cases hi : x.thread = i
  · simp [h hi]
  · simp [hi]

theorem Remembers.mono {s s' : Db} {log : Log} {i : Nat} {k : Memory} (h : Remembers s log i k)
    (hs : Shrinks s s') {x : Entry Request.Ans Job} (hx : Other i x) :
    Remembers s' (x :: log) i k := by
  refine ⟨?_,?_,?_,?_,fun e he => (h.spent e he).cons x⟩
  · intro row hrow
    obtain ⟨hid,hold⟩ := h.old row hrow
    exact ⟨Nat.lt_of_lt_of_le hid hs.created,
      fun e he => Nat.lt_of_lt_of_le (hold e he) hs.enrolments⟩
  · intro row hrow e he cur' hcur' hmem
    obtain ⟨cur,hcur,hid,hmem'⟩ := hs.offered cur' hcur' e hmem ((h.old row hrow).2 e he)
    rw [← hid]
    exact h.place row hrow e he cur hcur hmem'
  · intro row hrow
    rw [selected_cons hx]
    exact h.selected row hrow
  · intro row hrow e he y hy hspends
    rw [sinceSelect_cons hx]
    rcases List.mem_cons.mp hy with rfl | hy
    · exact List.mem_cons_self
    · exact List.mem_cons_of_mem x (h.unspent row hrow e he y hy hspends)

/-- The condition on the step of a request, whatever the request is. -/
def Unchanged (s : Db) (log : Log) (i : Nat) (job : Job) (r : Request) : Prop :=
  ∀ e, spends r = some e → unchangedSinceRead s log i job

private theorem takesOut_of_unchanged {s : Db} {log : Log} {i : Nat} {job : Job} {k : Memory}
    {r : Request} (hk : Remembers s log i k) (hmay : (routeDiscipline job).may k r)
    (hok : Unchanged s log i job r) : TakesOut s r := by
  cases r with
  | updateById id envelopes e =>
    intro row hrow hid
    obtain ⟨-,read,hread,rfl,hmem,hlist⟩ := hmay
    have hsame := hok e rfl
    simp only [unchangedSinceRead,hk.selected read hread,hrow,hid,if_true,decide_eq_true_eq] at hsame
    rw [hsame]
    exact ⟨hmem,hlist⟩
  | _ => trivial

private theorem unspent_of_gone {s : Db} {log : Log} {i : Nat} {job : Job} {k : Memory}
    {id : Nat} {envelopes : List Stored} {e : Stored} (hinv : RowInv s log)
    (hk : Remembers s log i k) (hmay : (routeDiscipline job).may k (.updateById id envelopes e))
    (hok : Unchanged s log i job (.updateById id envelopes e))
    (hgone : ∀ row, s.row = some row → row.id ≠ id) (j : Nat) : ¬ Spent log j e := by
  rintro ⟨x,hx,-,hspends⟩
  obtain ⟨hcode,read,hread,rfl,hmem,-⟩ := hmay
  have huntouched : (!(sinceSelect i log).any fun x =>
      (spends x.request).isSome && redeems x.job = redeems job) = true := by
    have hsame := hok e rfl
    rcases hrow : s.row with _ | row
    · simpa only [unchangedSinceRead,hk.selected read hread,hrow] using hsame
    · simpa only [unchangedSinceRead,hk.selected read hread,hrow,hgone row hrow,if_false] using hsame
  have hlater := hk.unspent read hread e hmem x hx hspends
  simp only [Bool.not_eq_true',List.any_eq_false] at huntouched
  exact huntouched x hlater (by simp [hspends,hinv.codes x hx e hspends,hcode])

/-- The one request that spends: when it is made on an unchanged row the envelope is offered no
longer, and it had not been spent before. -/
private theorem spend_gone {s : Db} {log : Log} {i : Nat} {job : Job} {k : Memory} {r : Request}
    {e : Stored} (env : Bool) (hinv : RowInv s log) (hk : Remembers s log i k)
    (hmay : (routeDiscipline job).may k r) (hok : Unchanged s log i job r)
    (he : spends r = some e) : Gone (exec env s r).1 e ∧ ∀ j, ¬ Spent log j e := by
  cases r with
  | updateById id envelopes x =>
    obtain rfl : x = e := by simpa [spends] using he
    have htakes := takesOut_of_unchanged hk hmay hok
    have hunspent := unspent_of_gone hinv hk hmay hok
    obtain ⟨-,read,hread,rfl,hmem,-⟩ := hmay
    have hold := (hk.old read hread).2 x hmem
    rcases hrow : s.row with _ | row
    · refine ⟨⟨?_,?_⟩,hunspent (by simp [hrow])⟩
      · simpa [exec,hrow] using hold
      · simp [exec,hrow,Redeemable]
    · by_cases hid : row.id = read.id
      · obtain ⟨hoffered,hlist⟩ := htakes row hrow hid
        refine ⟨⟨?_,?_⟩,fun j hj => (hinv.gone j x hj).notOffered ⟨row,hrow,hoffered⟩⟩
        · simpa [exec,hrow,hid] using hold
        · simp [exec,hrow,hid,Redeemable,hlist,without,idMatches]
      · refine ⟨⟨?_,?_⟩,hunspent (by simp [hrow,hid])⟩
        · simpa [exec,hrow,hid] using hold
        · rintro ⟨cur,hcur,hx⟩
          have hcur' : s.row = some cur := by simpa [exec,hrow,hid] using hcur
          obtain rfl := Option.some.inj (hrow.symm.trans hcur')
          exact hid (hk.place read hread x hmem row hrow hx)
  | _ => simp [spends] at he

private theorem distinct_exec {s : Db} {log : Log} {job : Job} {k : Memory} {r : Request}
    (env : Bool) (hinv : RowInv s log) (hmay : (routeDiscipline job).may k r)
    (htakes : TakesOut s r) :
    ∀ row, (exec env s r).1.row = some row → (row.envelopes.map (·.envelope.id)).Nodup ∧
      row.id < (exec env s r).1.created ∧
        ∀ e ∈ row.envelopes, e.enrolment < (exec env s r).1.enrolments := by
  intro row hrow
  have hsame : s.row = some row → (row.envelopes.map (·.envelope.id)).Nodup ∧
      row.id < s.created ∧ ∀ e ∈ row.envelopes, e.enrolment < s.enrolments :=
    fun h => ⟨hinv.distinct row h,hinv.id row h,fun e he => hinv.old e ⟨row,h,he⟩⟩
  cases r with
  | enforce => exact hsame hrow
  | getSession => exact hsame hrow
  | selectByEmail email => exact hsame hrow
  | insertAudit eventType metadata => exact hsame hrow
  | deleteByUser => simp [exec] at hrow
  | updateById id envelopes e =>
    rcases hcur : s.row with _ | cur
    · simp [exec,hcur] at hrow
    · by_cases hid : cur.id = id
      · have hlist := (htakes cur hcur hid).2
        simp only [exec,hcur,hid,if_true,Option.some.injEq] at hrow ⊢
        subst hrow
        rw [hlist]
        refine ⟨(hinv.distinct cur hcur).sublist (List.filter_sublist.map _),?_,?_⟩
        · exact hid ▸ hinv.id cur hcur
        · intro x hx
          exact hinv.old x ⟨cur,hcur,(List.mem_filter.mp hx).1⟩
      · simp only [exec,hcur,hid,if_false] at hrow ⊢
        exact hsame (hcur ▸ hrow)
  | upsert envelopes =>
    have hids : ((envelopes.map (fun e => Stored.mk e s.enrolments)).map (·.envelope.id)).Nodup := by
      have hdistinct : (envelopes.map (·.id)).Nodup := hmay
      simpa [Function.comp_def] using hdistinct
    have hnew : ∀ x ∈ envelopes.map (fun e => Stored.mk e s.enrolments),
        x.enrolment < s.enrolments+1 := by
      intro x hx
      obtain ⟨e,-,rfl⟩ := List.mem_map.mp hx
      exact Nat.lt_succ_self _
    rcases hcur : s.row with _ | cur
    · simp only [exec,hcur,Option.some.injEq] at hrow ⊢
      subst hrow
      exact ⟨hids,Nat.lt_succ_self _,hnew⟩
    · simp only [exec,hcur,Option.some.injEq] at hrow ⊢
      subst hrow
      exact ⟨hids,hinv.id cur hcur,hnew⟩

private theorem rowInv_step {s : Db} {log : Log} {i : Nat} {job : Job} {k : Memory} {r : Request}
    (env : Bool) (hinv : RowInv s log) (hk : Remembers s log i k)
    (hmay : (routeDiscipline job).may k r) (hok : Unchanged s log i job r) :
    RowInv (exec env s r).1 (⟨i,job,r,(exec env s r).2⟩ :: log) := by
  have htakes := takesOut_of_unchanged hk hmay hok
  have hs := shrinks_exec env htakes
  have hrow := distinct_exec env hinv hmay htakes
  refine ⟨fun row h => (hrow row h).2.1,?_,fun row h => (hrow row h).1,?_,?_,?_⟩
  · rintro e ⟨row,h,he⟩
    exact (hrow row h).2.2 e he
  · intro j e hj
    rcases spent_cons hj with ⟨rfl,he⟩ | hj
    · exact (spend_gone env hinv hk hmay hok he).1
    · exact (hinv.gone j e hj).mono hs
  · intro x hx e he
    rcases List.mem_cons.mp hx with rfl | hx
    · cases r with
      | updateById id envelopes found =>
        obtain rfl := Option.some.inj he
        exact hmay.1
      | _ => simp [spends] at he
    · exact hinv.codes x hx e he
  · intro j j' e hj hj'
    rcases spent_cons hj with ⟨rfl,he⟩ | hj
    · rcases spent_cons hj' with ⟨rfl,-⟩ | hj'
      · rfl
      · exact absurd hj' ((spend_gone env hinv hk hmay hok he).2 j')
    · rcases spent_cons hj' with ⟨rfl,he⟩ | hj'
      · exact absurd hj ((spend_gone env hinv hk hmay hok he).2 j)
      · exact hinv.once j j' e hj hj'

private theorem remembers_select {s : Db} {log : Log} {i : Nat} {job : Job} {k : Memory}
    (email : String) (hinv : RowInv s log) (hk : Remembers s log i k) :
    Remembers s (⟨i,job,.selectByEmail email,if email = s.email then s.row else none⟩ :: log) i
      { k with selected := if email = s.email then s.row else none } := by
  have hcur : ∀ row, (if email = s.email then s.row else none) = some row → s.row = some row := by
    intro row hrow
    split at hrow
    · exact hrow
    · cases hrow
  refine ⟨?_,?_,?_,?_,fun e he => (hk.spent e he).cons _⟩
  · intro row hrow
    exact ⟨hinv.id row (hcur row hrow),fun e he => hinv.old e ⟨row,hcur row hrow,he⟩⟩
  · intro row hrow e _ cur hnow _
    rw [Option.some.inj (hnow.symm.trans (hcur row hrow))]
  · intro row hrow
    simpa [selected] using hrow
  · intro row hrow e he x hx hspends
    rcases List.mem_cons.mp hx with rfl | hx
    · simp [spends] at hspends
    · have hgone := hinv.gone x.thread e ⟨x,hx,rfl,hspends⟩
      exact absurd ⟨row,hcur row hrow,he⟩ hgone.notOffered

private theorem remembers_step {s : Db} {log : Log} {i : Nat} {job : Job} {k : Memory} {r : Request}
    (env : Bool) (hinv : RowInv s log) (hk : Remembers s log i k) (htakes : TakesOut s r) :
    ∃ k', (routeDiscipline job).learns k r (exec env s r).2 k' ∧
      Remembers (exec env s r).1 (⟨i,job,r,(exec env s r).2⟩ :: log) i k' := by
  have hmono : selects r = false →
      Remembers (exec env s r).1 (⟨i,job,r,(exec env s r).2⟩ :: log) i k :=
    fun hr => hk.mono (shrinks_exec env htakes) (fun _ => hr)
  cases r with
  | selectByEmail email => exact ⟨_,rfl,remembers_select email hinv hk⟩
  | updateById id envelopes e =>
    have hk' := hmono rfl
    refine ⟨{ k with spent := some e },rfl,hk'.old,hk'.place,hk'.selected,hk'.unspent,?_⟩
    intro x hx
    obtain rfl := Option.some.inj hx
    exact ⟨_,List.mem_cons_self,rfl,rfl⟩
  | enforce => exact ⟨k,rfl,hmono rfl⟩
  | getSession => exact ⟨k,rfl,hmono rfl⟩
  | upsert envelopes => exact ⟨k,rfl,hmono rfl⟩
  | deleteByUser => exact ⟨k,rfl,hmono rfl⟩
  | insertAudit eventType metadata => exact ⟨k,rfl,hmono rfl⟩

private theorem unchanged_of_ok {w : World Request.Ans Empty Reply Job Db} {i : Nat} {job : Job}
    {env : Bool} {r : Request} {next : r.Ans → Handler Reply}
    (hok : stepUnchanged w (.step i env) = true) (hi : w.threads[i]? = some ⟨job,.ask r next⟩) :
    Unchanged w.shared w.log i job r := by
  intro e he
  cases r with
  | updateById id envelopes found => simpa only [stepUnchanged,hi] using hok
  | _ => simp [spends] at he

def outline (P : Platform) :
    Outline (system P) (fun w a => stepUnchanged w a = true) Memory where
  discipline := routeDiscipline
  post _ := answersSpent
  Global := RowInv
  Knows s log i _ k := Remembers s log i k
  Done _ log i _ o := ∀ e, o = .ok (.real e) → Spent log i e
  start w job _ _ := ⟨⟨none,none⟩,⟨by simp,by simp,by simp,by simp,by simp⟩,obeys_code job⟩
  ask w i job env r next k hok hi hg hk hmay :=
    have hr := unchanged_of_ok hok hi
    ⟨rowInv_step env hg hk hmay hr,
      remembers_step env hg hk (takesOut_of_unchanged hk hmay hr)⟩
  frame w i job env r next k hok hi _ hk hmay j job' r' next' k' hj _ hk' :=
    have htakes := takesOut_of_unchanged hk hmay (unchanged_of_ok hok hi)
    hk'.mono (shrinks_exec env htakes) (fun he => absurd he.symm hj)
  finish s log i job k o _ hk hpost e he := hk.spent e (hpost e he)
  settled w i job env r next k _ _ _ _ _ j job' o _ hdone e he := (hdone e he).cons _

private theorem inv_fresh (P : Platform) (email : String) : (outline P).Inv (fresh email) := by
  refine (outline P).inv_init ⟨?_,?_,?_,?_,?_,?_⟩
  · simp
  · rintro e ⟨row,hrow,-⟩
    simp at hrow
  · simp
  · rintro i e ⟨x,hx,-⟩
    simp at hx
  · simp
  · rintro i j e ⟨x,hx,-⟩
    simp at hx

abbrev Accounts := World Request.Ans Empty Reply Job Db

private theorem takesOut_of_inv {w : Accounts} (hw : (outline P).Inv w) {i : Nat} {job : Job}
    {env : Bool} {r : Request} {next : r.Ans → Handler Reply}
    (hok : stepUnchanged w (.step i env) = true) (hi : w.threads[i]? = some ⟨job,.ask r next⟩) :
    TakesOut w.shared r := by
  obtain ⟨k,hk,hmay⟩ := (outline P).may_of_inv hw hi
  exact takesOut_of_unchanged hk hmay (unchanged_of_ok hok hi)

private theorem gone_after {w : Accounts} {as : List (Act Job Bool)} {e : Stored}
    (hinv : (outline P).Inv w) (h : Gone w.shared e)
    (hok : Along (system P).act (fun w a => stepUnchanged w a = true) w as) :
    Gone ((system P).after w as).shared e := by
  refine (invariant_runActs (fun w => (outline P).Inv w ∧ Gone w.shared e) ?_ ⟨hinv,h⟩ hok).2
  rintro w a ⟨hw,hgone⟩ ha
  refine ⟨(outline P).inv_act hw ha,?_⟩
  cases a with
  | start job => exact hgone
  | step i env =>
    rcases (system P).act_step_cases w i env with he | ⟨job,r,next,hi,he⟩
    · rwa [he]
    · rw [he]
      exact hgone.mono (shrinks_exec env (takesOut_of_inv hw ha hi))

private theorem replaced_gone {s : Db} {r : Request} {e : Stored} (env : Bool)
    (hold : e.enrolment < s.enrolments) (hr : replaces r = true) : Gone (exec env s r).1 e := by
  cases r with
  | upsert envelopes =>
    refine ⟨?_,?_⟩
    · rcases hrow : s.row with _ | row <;> simp only [exec,hrow] <;> omega
    · rintro ⟨row',hrow',he⟩
      have hnew : e ∈ envelopes.map (fun x => Stored.mk x s.enrolments) := by
        rcases hrow : s.row with _ | row <;> simp only [exec,hrow,Option.some.injEq] at hrow' <;>
          simpa [← hrow'] using he
      obtain ⟨x,-,rfl⟩ := List.mem_map.mp hnew
      exact absurd hold (Nat.lt_irrefl _)
  | deleteByUser => exact ⟨hold,by simp [exec,Redeemable]⟩
  | _ => simp [replaces] at hr

private theorem redeemable_exec {s : Db} {log : Log} {r : Request} {e : Stored} (env : Bool)
    (hinv : RowInv s log) (htakes : TakesOut s r) (he : Redeemable s e) :
    Redeemable (exec env s r).1 e ∨ spends r = some e ∨ replaces r = true := by
  cases r with
  | updateById id envelopes x =>
    obtain ⟨row,hrow,hmem⟩ := he
    by_cases hid : row.id = id
    · obtain ⟨hoffered,hlist⟩ := htakes row hrow hid
      by_cases hcode : e.envelope.id = x.envelope.id
      · have hsame : e = x := List.inj_on_of_nodup_map (hinv.distinct row hrow) hmem hoffered hcode
        exact Or.inr (Or.inl (by rw [hsame]; rfl))
      · refine Or.inl ⟨{ row with envelopes := envelopes },by simp [exec,hrow,hid],?_⟩
        rw [hlist]
        exact List.mem_filter.mpr ⟨hmem,by simpa [idMatches] using hcode⟩
    · exact Or.inl ⟨row,by simp [exec,hrow,hid],hmem⟩
  | enforce => exact Or.inl he
  | getSession => exact Or.inl he
  | selectByEmail email => exact Or.inl he
  | insertAudit eventType metadata => exact Or.inl he
  | upsert envelopes => exact Or.inr (Or.inr rfl)
  | deleteByUser => exact Or.inr (Or.inr rfl)

/-- Since the log `old` was written: the envelope is offered, or an update has spent it, or an
enrolment or a deletion has replaced it. -/
def OfferedSince (old : Log) (e : Stored) (w : Accounts) : Prop :=
  ∃ new, w.log = new ++ old ∧
    (Redeemable w.shared e ∨ ∃ x ∈ new, spends x.request = some e ∨ replaces x.request = true)

private theorem offered_after {w : Accounts} {as : List (Act Job Bool)} {e : Stored}
    (hinv : (outline P).Inv w) (he : Redeemable w.shared e)
    (hok : Along (system P).act (fun w a => stepUnchanged w a = true) w as) :
    OfferedSince w.log e ((system P).after w as) := by
  refine (invariant_runActs (fun u => (outline P).Inv u ∧ OfferedSince w.log e u) ?_
    ⟨hinv,[],rfl,Or.inl he⟩ hok).2
  rintro u a ⟨hu,new,hlog,hnew⟩ ha
  refine ⟨(outline P).inv_act hu ha,?_⟩
  cases a with
  | start job => exact ⟨new,hlog,hnew⟩
  | step i env =>
    rcases (system P).act_step_cases u i env with hact | ⟨job,r,next,hi,hact⟩
    · rw [hact]
      exact ⟨new,hlog,hnew⟩
    · rw [hact]
      refine ⟨⟨i,job,r,_⟩ :: new,congrArg (List.cons _) hlog,?_⟩
      rcases hnew with hoffer | ⟨x,hx,hend⟩
      · rcases redeemable_exec env hu.shared (takesOut_of_inv hu ha hi) hoffer with h | h
        · exact Or.inl h
        · exact Or.inr ⟨_,List.mem_cons_self,h⟩
      · exact Or.inr ⟨x,List.mem_cons_of_mem _ hx,hend⟩

structure AtMostOnce (P : Platform) (w₀ : Accounts) (as : List (Act Job Bool)) : Prop where
  /-- No two redemptions answer with it. -/
  handedOutOnce : ∀ i j e, HandedOut ((system P).after w₀ as) i e →
    HandedOut ((system P).after w₀ as) j e → i = j
  /-- Once answered it is not offered again. -/
  handedOutForGood : ∀ as₁ as₂, as = as₁ ++ as₂ → ∀ i e, HandedOut ((system P).after w₀ as₁) i e →
    ¬ Redeemable ((system P).after w₀ as).shared e
  /-- Once an enrolment or a deletion has replaced it, it is not offered again. -/
  replacedForGood : ∀ as₁ i env as₂, as = as₁ ++ .step i env :: as₂ → ∀ job r next e,
    ((system P).after w₀ as₁).threads[i]? = some ⟨job,.ask r next⟩ → replaces r = true →
    Redeemable ((system P).after w₀ as₁).shared e →
    ¬ Redeemable ((system P).after w₀ as).shared e
  /-- No redemption of another code takes it away, whatever set that redemption had read. -/
  notUndone : ∀ as₁ as₂, as = as₁ ++ as₂ → ∀ e, Redeemable ((system P).after w₀ as₁).shared e →
    OfferedSince ((system P).after w₀ as₁).log e ((system P).after w₀ as)

/-- In every run in which each redemption's update finds the row that its select returned, codes
are at-most-once. -/
theorem atMostOnce_of_unchanged (P : Platform) (email : String) (as : List (Act Job Bool))
    (h : Along (system P).act (fun w a => stepUnchanged w a = true) (fresh email) as) :
    AtMostOnce P (fresh email) as := by
  have hinv : ∀ {bs}, Along (system P).act (fun w a => stepUnchanged w a = true) (fresh email) bs →
      (outline P).Inv ((system P).after (fresh email) bs) :=
    fun hbs => (outline P).inv_after (inv_fresh P email) hbs
  have hspent : ∀ {w : Accounts}, (outline P).Inv w → ∀ {i e}, HandedOut w i e →
      Spent w.log i e := by
    intro w hw i e hi
    obtain ⟨t,-,hdone⟩ := (outline P).done_of_inv hw hi
    exact hdone e rfl
  refine ⟨?_,?_,?_,?_⟩
  · intro i j e hi hj
    have hend := hinv h
    exact hend.shared.once i j e (hspent hend hi) (hspent hend hj)
  · rintro as₁ as₂ rfl i e hi
    obtain ⟨h₁,h₂⟩ := (along_append _ _ _ as₁ as₂).mp h
    have hmid := hinv h₁
    have hgone := gone_after hmid (hmid.shared.gone i e (hspent hmid hi)) h₂
    rw [System.after_append]
    exact hgone.notOffered
  · rintro as₁ i env as₂ rfl job r next e hi hr he
    obtain ⟨h₁,hstep,h₂⟩ := (along_append _ _ _ as₁ (.step i env :: as₂)).mp h
    have hold := (hinv h₁).shared.old e he
    have hgone : Gone ((system P).act ((system P).after (fresh email) as₁) (.step i env)).shared e := by
      rw [(system P).act_step hi]
      exact replaced_gone env hold hr
    have hend := gone_after ((outline P).inv_act (hinv h₁) hstep) hgone h₂
    rw [System.after_append]
    exact hend.notOffered
  · rintro as₁ as₂ rfl e he
    obtain ⟨h₁,h₂⟩ := (along_append _ _ _ as₁ as₂).mp h
    rw [System.after_append]
    exact offered_after (hinv h₁) he h₂

private def demoPlatform : Platform where
  fromBase64 s :=
    List.replicate (if s = "salt" then saltBytes else if s = "iv" then ivBytes else ciphertextBytes) 0
  toBase64 bytes := if bytes.length = saltBytes then "salt" else if bytes.length = ivBytes then "iv"
    else "ct"
  trimLower s := s
  decoyBytes _ n := List.replicate n 0

private def demoEnvelope : StoredEnvelope := ⟨"00000000000000000000000000000000","salt","iv","ct"⟩

private def demoEnrol : List (Act Job Bool) :=
  [.start (.enrol (some [some demoEnvelope])),.step 0 true,.step 0 true,.step 0 true]

private def demoRedeem : Job := .redeem (some "a@b") (some "00000000000000000000000000000000")

theorem atMostOnce_of_unchanged_demo :
    AtMostOnce demoPlatform (fresh "a@b") (demoEnrol ++
      [.start demoRedeem,.step 1 false,.step 1 false,.step 1 false,.step 1 false]) :=
  atMostOnce_of_unchanged demoPlatform "a@b" _ (by decide)

/-- Two redemptions of one code read the same row, both write it back without the code and both
answer with its envelope. -/
theorem code_redeemed_twice :
    ¬ ∀ (P : Platform) (email : String) (as : List (Act Job Bool)),
      AtMostOnce P (fresh email) as := by
  intro h
  have htwice := (h demoPlatform "a@b" (demoEnrol ++
    [.start demoRedeem,.start demoRedeem,.step 1 false,.step 2 false,.step 1 false,.step 2 false,
      .step 1 false,.step 2 false,.step 1 false,.step 2 false])).handedOutOnce 1 2 ⟨demoEnvelope,0⟩
    (by unfold HandedOut; decide +kernel) (by unfold HandedOut; decide +kernel)
  exact absurd htwice (by decide)

end WeirdVault.Recovery
