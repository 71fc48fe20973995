import Mathlib.Data.Finset.Card
import WeirdVault.Shares.Rows

/-!
# The views of a share link

A thread holds a view from the statement that counted it for as long as it has not refunded it. The
views of a row are never fewer than the threads that hold one.
-/

namespace WeirdVault.Shares

open WeirdVault.Framework

def countsView (token : ℕ) : (r : Request) × r.Ans → Bool
  | ⟨.countView token',.ok (some _)⟩ => token' = token
  | _ => false

def refundsView : (r : Request) × r.Ans → Bool
  | ⟨.refundView _,_⟩ => true
  | _ => false

def holders (log : Log) (token : ℕ) : Finset ℕ :=
  (log.map (·.thread)).toFinset.filter fun i =>
    (transcript log i).any (countsView token) && (transcript log i).all (!refundsView ·)

section

variable {s : Store} {log : Log} {i j token : ℕ} {job : Job} {m : Moment} {r : Request} {x : r.Ans}

private theorem countsView_iff {a : (r : Request) × r.Ans} :
    countsView token a = true ↔ ∃ c, a = ⟨.countView token,.ok (some c)⟩ := by
  constructor
  · intro h
    unfold countsView at h
    split at h
    · obtain rfl := of_decide_eq_true h
      exact ⟨_,rfl⟩
    · cases h
  · rintro ⟨c,rfl⟩
    exact decide_eq_true rfl

private theorem of_countsView {token' : ℕ} {x : Except Thrown (Option Counted)}
    (h : countsView token ⟨.countView token',x⟩ = true) : token' = token ∧ ∃ c, x = .ok (some c) := by
  obtain ⟨c,hc⟩ := countsView_iff.mp h
  cases hc
  exact ⟨rfl,c,rfl⟩

private theorem refundsView_iff {a : (r : Request) × r.Ans} : refundsView a = true ↔ Refunds a.1 := by
  obtain ⟨r,x⟩ := a
  cases r with
  | refundView i => exact ⟨fun _ => trivial,fun _ => rfl⟩
  | _ =>
    constructor
    · intro h
      cases h
    · intro h
      exact h.elim

theorem mem_holders : i ∈ holders log token ↔
    (∃ c, Said log i (.countView token) (.ok (some c))) ∧ Heard.Never (transcript log i) Refunds := by
  have hthread : ∀ a ∈ transcript log i, i ∈ (log.map (·.thread)).toFinset := by
    intro a ha
    obtain ⟨job,hmem⟩ := mem_transcript.mp ha
    exact List.mem_toFinset.mpr (List.mem_map.mpr ⟨_,hmem,rfl⟩)
  unfold holders
  rw [Finset.mem_filter,Bool.and_eq_true,List.any_eq_true,List.all_eq_true]
  constructor
  · rintro ⟨_,⟨a,ha,hcounts⟩,hnever⟩
    obtain ⟨c,rfl⟩ := countsView_iff.mp hcounts
    refine ⟨⟨c,ha⟩,?_⟩
    intro b hb hrefunds
    have hfalse := hnever b hb
    rw [refundsView_iff.mpr hrefunds] at hfalse
    cases hfalse
  · rintro ⟨⟨c,hc⟩,hnever⟩
    refine ⟨hthread _ hc,⟨_,hc,countsView_iff.mpr ⟨c,rfl⟩⟩,?_⟩
    intro b hb
    cases hrefunds : refundsView b with
    | false => rfl
    | true => exact absurd (refundsView_iff.mp hrefunds) (hnever b hb)

private theorem never_of_cons (h : Heard.Never (transcript (⟨i,job,r,x⟩ :: log) j) Refunds) :
    Heard.Never (transcript log j) Refunds := by
  intro a ha
  exact h a (said_cons.mpr (.inr ha))

theorem holders_cons (h : countsView token ⟨r,x⟩ = false) :
    holders (⟨i,job,r,x⟩ :: log) token ⊆ holders log token := by
  intro j hj
  obtain ⟨⟨c,hc⟩,hnever⟩ := mem_holders.mp hj
  refine mem_holders.mpr ⟨⟨c,?_⟩,never_of_cons hnever⟩
  rcases said_cons.mp hc with ⟨_,he⟩ | hold
  · rw [← he,countsView_iff.mpr ⟨c,rfl⟩] at h
    cases h
  · exact hold

theorem holders_cons_insert : holders (⟨i,job,r,x⟩ :: log) token ⊆ insert i (holders log token) := by
  intro j hj
  obtain ⟨⟨c,hc⟩,hnever⟩ := mem_holders.mp hj
  rcases said_cons.mp hc with ⟨he,_⟩ | hold
  · exact Finset.mem_insert.mpr (.inl he)
  · exact Finset.mem_insert_of_mem (mem_holders.mpr ⟨⟨c,hold⟩,never_of_cons hnever⟩)

theorem holders_cons_refund (hr : Refunds r) :
    holders (⟨i,job,r,x⟩ :: log) token ⊆ (holders log token).erase i := by
  intro j hj
  have hnever := (mem_holders.mp hj).2
  have hcounts : countsView token ⟨r,x⟩ = false := by
    cases r with
    | refundView k => rfl
    | _ => exact hr.elim
  refine Finset.mem_erase.mpr ⟨?_,holders_cons hcounts hj⟩
  rintro rfl
  exact hnever _ said_self hr

/-- Every row was inserted, every counted view is one of an inserted row, and no row has more
holders than views or more views than its limit. The limit outlives the row. -/
structure Metered (s : Store) (log : Log) : Prop extends Base s log where
  rows : ∀ row ∈ s.shares.rows, ∃ row₀, Inserted log row₀ ∧ Same row₀ row
  counted : ∀ i token c, Said log i (.countView token) (.ok (some c)) →
    ∃ row₀, Inserted log row₀ ∧ row₀.token = token ∧ row₀.id = c.id ∧ row₀.maxViews = c.maxViews
  views : ∀ row ∈ s.shares.rows, (holders log row.token).card ≤ row.views
  limit : ∀ row ∈ s.shares.rows, ∀ n ∈ row.maxViews, row.views ≤ n
  limited : ∀ row₀, Inserted log row₀ → ∀ n ∈ row₀.maxViews, (holders log row₀.token).card ≤ n

theorem Metered.sameRow (h : Metered s log) {row row₀ : Share} (hrow : row ∈ s.shares.rows)
    (hrow₀ : Inserted log row₀) (he : row.token = row₀.token ∨ row.id = row₀.id) :
    Same row₀ row := by
  obtain ⟨row₁,hins,hsame⟩ := h.rows row hrow
  have hone : row₁ = row₀ := by
    rcases he with he | he
    · exact h.sameToken hins hrow₀ (by rw [← hsame.token,he])
    · exact h.sameId hins hrow₀ (by rw [← hsame.id,he])
  exact hone ▸ hsame

theorem Metered.no_holders (h : Metered s log) {row : Share}
    (hasks : asks (transcript log i) (.insertShare row)) : holders log row.token = ∅ := by
  rw [Finset.eq_empty_iff_forall_notMem]
  intro j hj
  obtain ⟨⟨c,hc⟩,_⟩ := mem_holders.mp hj
  obtain ⟨row₀,hins,htoken,_⟩ := h.counted j row.token c hc
  exact h.newToken hasks hins htoken

private theorem metered_rows (h : Metered s log) :
    ∀ row ∈ (exec m s r).1.shares.rows, ∃ row₀,
      Inserted (⟨i,job,r,(exec m s r).2⟩ :: log) row₀ ∧ Same row₀ row := by
  intro row hrow
  rcases rows_exec m s r row hrow with ⟨rfl,_⟩ | ⟨row',hold,hlater,_⟩
  · exact ⟨row,⟨i,_,said_self⟩,.refl row⟩
  · obtain ⟨row₀,hins,hsame⟩ := h.rows row' hold
    exact ⟨row₀,hins.cons,hsame.trans hlater.toSame⟩

private theorem metered_counted (h : Metered s log) {c : Counted}
    (hc : Said (⟨i,job,r,(exec m s r).2⟩ :: log) j (.countView token) (.ok (some c))) :
    ∃ row₀, Inserted (⟨i,job,r,(exec m s r).2⟩ :: log) row₀ ∧ row₀.token = token ∧
      row₀.id = c.id ∧ row₀.maxViews = c.maxViews := by
  rcases said_cons.mp hc with ⟨_,he⟩ | hold
  · obtain rfl : r = .countView token := (congrArg Sigma.fst he).symm
    have hx : (exec m s (.countView token)).2 = .ok (some c) :=
      (eq_of_heq (Sigma.mk.inj he).2).symm
    rcases exec_countView m s token with ⟨_,hno⟩ | ⟨row,hrow,hcountable,_,hanswer⟩
    · exact absurd hx (hno c)
    · obtain rfl := hanswer c hx
      obtain ⟨row₀,hins,hsame⟩ := h.rows row hrow
      have htoken : row.token = token := (of_decide_eq_true hcountable).1
      exact ⟨row₀,hins.cons,hsame.token.symm.trans htoken,hsame.id.symm,hsame.maxViews.symm⟩
  · obtain ⟨row₀,hins,hfacts⟩ := h.counted j token c hold
    exact ⟨row₀,hins.cons,hfacts⟩

private theorem metered_views (job : Job) (h : Metered s log) (hr : asks (transcript log i) r) :
    ∀ row ∈ (exec m s r).1.shares.rows,
      (holders (⟨i,job,r,(exec m s r).2⟩ :: log) row.token).card ≤ row.views ∧
        ∀ n ∈ row.maxViews, row.views ≤ n := by
  intro row' hrow'
  -- a row that is as it was, unless this request made a new holder of it
  have hsame : ∀ row ∈ s.shares.rows, countsView row.token ⟨r,(exec m s r).2⟩ = false →
      (holders (⟨i,job,r,(exec m s r).2⟩ :: log) row.token).card ≤ row.views ∧
        ∀ n ∈ row.maxViews, row.views ≤ n := fun row hrow hno =>
    ⟨(Finset.card_le_card (holders_cons hno)).trans (h.views row hrow),h.limit row hrow⟩
  cases ht : r.touchesViews with
  | false =>
    obtain ⟨row,hrow,hlater,_,hviews⟩ := shares_exec ht row' hrow'
    have hno : countsView row.token ⟨r,(exec m s r).2⟩ = false := by
      cases r with
      | countView token => cases ht
      | _ => rfl
    rw [hlater.token,hlater.maxViews,hviews]
    exact hsame row hrow hno
  | true =>
    cases r with
    | insertShare row =>
      rcases exec_insertShare m s row with ⟨he,_⟩ | ⟨he,_⟩
      · rw [he] at hrow'
        exact hsame row' hrow' rfl
      · rw [he] at hrow'
        rcases Table.mem_rows_put hrow' with rfl | hold
        · have hnone : holders (⟨i,job,.insertShare row',(exec m s (.insertShare row')).2⟩ :: log)
              row'.token ⊆ holders log row'.token := holders_cons rfl
          rw [h.no_holders hr] at hnone
          rw [Finset.subset_empty.mp hnone,hr.2.2.2.2.1]
          exact ⟨le_refl _,fun n _ => Nat.zero_le n⟩
        · exact hsame row' hold rfl
    | countView token =>
      rcases exec_countView m s token with ⟨he,hno⟩ | ⟨row,hrow,hcountable,he,_⟩
      · rw [he] at hrow'
        refine hsame row' hrow' ?_
        rw [Bool.eq_false_iff]
        intro hcounts
        obtain ⟨_,c,hc⟩ := of_countsView hcounts
        exact hno c hc
      · rw [he] at hrow'
        have htoken : row.token = token := (of_decide_eq_true hcountable).1
        rcases Table.mem_rows_put_iff.mp hrow' with rfl | ⟨hold,hid⟩
        · constructor
          · refine (Finset.card_le_card holders_cons_insert).trans ?_
            refine (Finset.card_insert_le _ _).trans ?_
            exact Nat.succ_le_succ (h.views row hrow)
          · intro n hn
            exact (of_decide_eq_true hcountable).2.2.2 n hn
        · refine hsame row' hold ?_
          rw [Bool.eq_false_iff]
          intro hcounts
          obtain ⟨row₀,hins,hsame₀⟩ := h.rows row hrow
          have htoken' : row'.token = row₀.token :=
            (of_countsView hcounts).1.symm.trans (htoken.symm.trans hsame₀.token)
          exact hid ((h.sameRow hold hins (.inl htoken')).id.trans hsame₀.id.symm)
    | refundView k =>
      obtain ⟨hnever,token,c,hc,hid⟩ := hr
      rcases exec_refundView m s k with he | he
      · rw [he] at hrow'
        exact hsame row' hrow' rfl
      · rw [he] at hrow'
        rcases Table.mem_rows_update.mp hrow' with ⟨row,hrow,hk,rfl⟩ | ⟨hold,_⟩
        · obtain ⟨row₀,hins,htoken,hid₀,_⟩ := h.counted i token c hc
          have hsame₀ := h.sameRow hrow hins (.inr (by rw [hk,hid₀,hid]))
          have hholds : i ∈ holders log row.token :=
            mem_holders.mpr ⟨⟨c,by rw [hsame₀.token,htoken]; exact hc⟩,hnever⟩
          have hfewer : (holders (⟨i,job,.refundView k,(exec m s (.refundView k)).2⟩ :: log)
              row.token).card ≤ ((holders log row.token).erase i).card :=
            Finset.card_le_card (holders_cons_refund trivial)
          rw [Finset.card_erase_of_mem hholds] at hfewer
          have hviews := h.views row hrow
          constructor
          · exact hfewer.trans (Nat.sub_le_sub_right hviews 1)
          · intro n hn
            exact (Nat.sub_le _ _).trans (h.limit row hrow n hn)
        · exact hsame row' hold rfl
    | _ => cases ht

private theorem metered_limited (h : Metered s log) (hr : asks (transcript log i) r) {row₀ : Share}
    (hins : Inserted (⟨i,job,r,(exec m s r).2⟩ :: log) row₀) {n : ℕ} (hn : n ∈ row₀.maxViews) :
    (holders (⟨i,job,r,(exec m s r).2⟩ :: log) row₀.token).card ≤ n := by
  obtain ⟨j,x,hx⟩ := hins
  cases hcounts : countsView row₀.token ⟨r,(exec m s r).2⟩ with
  | false =>
    refine (Finset.card_le_card (holders_cons hcounts)).trans ?_
    rcases said_cons.mp hx with ⟨_,he⟩ | hold
    · obtain rfl : r = .insertShare row₀ := (congrArg Sigma.fst he).symm
      rw [h.no_holders hr]
      exact Nat.zero_le n
    · exact h.limited row₀ ⟨j,x,hold⟩ n hn
  | true =>
    -- the limit of the row that was counted
    obtain ⟨c,hc⟩ := countsView_iff.mp hcounts
    obtain rfl : r = .countView row₀.token := congrArg Sigma.fst hc
    obtain ⟨c,hanswer⟩ := (of_countsView hcounts).2
    rcases exec_countView m s row₀.token with ⟨_,hno⟩ | ⟨row,hrow,hcountable,he,_⟩
    · exact absurd hanswer (hno c)
    · have htoken : row.token = row₀.token := (of_decide_eq_true hcountable).1
      have hsame := h.sameRow hrow ⟨j,x,hx.old (by simp)⟩ (.inl htoken)
      have hnew : row.viewed ∈ (exec m s (.countView row₀.token)).1.shares.rows := by
        rw [he]
        exact Table.mem_rows_put_iff.mpr (.inl rfl)
      obtain ⟨hviews,hlimit⟩ := metered_views job h hr row.viewed hnew
      have hle := hviews.trans (hlimit n (by rw [Share.viewed,hsame.maxViews]; exact hn))
      rwa [Share.viewed,htoken] at hle

theorem metered_step (h : Metered s log) (hr : asks (transcript log i) r) :
    Metered (exec m s r).1 (⟨i,job,r,(exec m s r).2⟩ :: log) where
  toBase := base_step h.toBase hr
  rows := metered_rows h
  counted := fun _ _ _ => metered_counted h
  views := fun row hrow => (metered_views job h hr row hrow).1
  limit := fun row hrow => (metered_views job h hr row hrow).2
  limited := fun _ hins _ => metered_limited h hr hins

end

theorem metered_after (as : List (Act Job Moment)) :
    Metered (system.after fresh as).shared (system.after fresh as).log := by
  have hall : Along system.act (fun _ _ => True) fresh as := along_true system.act fresh as
  apply behaviour.invariant_after (fun _ _ => True) (fun _ _ _ => trivial) Metered _
    (behaviour.follows_init emptyStore) _ _ hall
  · intro w i job m r next _ _ _ _ hr h
    exact metered_step h hr.asks
  · simp [World.Jobs,World.init]
  · refine ⟨base_empty,?_,?_,?_,?_,?_⟩
    · intro row hrow
      cases hrow
    · intro i token c hc
      cases hc
    · intro row hrow
      cases hrow
    · intro row hrow
      cases hrow
    · rintro row ⟨i,x,hx⟩
      cases hx

/-- The thread is the request of a link that has been answered with the envelope. -/
def served (w : Server) (token i : ℕ) : Bool :=
  match w.threads[i]? with
  | some ⟨.view _ token',.done (.envelope ..)⟩ => token' = token
  | _ => false

def envelopes (w : Server) (token : ℕ) : Finset ℕ :=
  (Finset.range w.threads.length).filter (served w token ·)

theorem envelopes_subset (as : List (Act Job Moment)) (token : ℕ) :
    envelopes (system.after fresh as) token ⊆ holders (system.after fresh as).log token := by
  intro i hi
  have hserved := (Finset.mem_filter.mp hi).2
  unfold served at hserved
  split at hserved
  · rename_i bucket token' blob views maxViews expiresAt ht
    obtain rfl := of_decide_eq_true hserved
    have hend := (follows_run as).threads i _ ht
    obtain ⟨⟨row,hcount,_⟩,_,hkept⟩ := hend blob views maxViews expiresAt rfl
    exact mem_holders.mpr ⟨⟨row,hcount⟩,hkept⟩
  · cases hserved

/-- However the run goes on after the step, the thread does not answer with the envelope. -/
def NoEnvelope (before : List (Act Job Moment)) (i : ℕ) (m : Moment) : Prop :=
  ∀ after token, served (system.after fresh (before ++ .step i m :: after)) token i = false

private theorem noEnvelope_of_closed {before : List (Act Job Moment)} {i token : ℕ} {m : Moment}
    (hi : (system.after fresh before).asks? i = some (.countView token))
    (hclosed : ∀ row ∈ (system.after fresh before).shared.shares.rows,
      row.countable token ((system.after fresh before).shared.clock + m.elapsed) = false) :
    NoEnvelope before i m := by
  intro after token'
  obtain ⟨job,next,ht⟩ := World.asks?_eq_some.mp hi
  have hno : ∀ c, (exec m (system.after fresh before).shared (.countView token)).2 ≠
      .ok (some c) := by
    rcases exec_countView m (system.after fresh before).shared token with ⟨_,hno⟩ | ⟨row,hrow,hc,_⟩
    · exact hno
    · rw [hclosed row hrow] at hc
      cases hc
  have hlater := system.log_stays (system.act (system.after fresh before) (.step i m)) after
    (e := ⟨i,job,.countView token,(exec m (system.after fresh before).shared (.countView token)).2⟩)
    (by rw [system.act_step ht]; exact List.mem_cons_self)
  have hsplit : system.after fresh (before ++ .step i m :: after) =
      system.after (system.act (system.after fresh before) (.step i m)) after :=
    system.after_append fresh before (.step i m :: after)
  rw [← hsplit] at hlater
  rw [Bool.eq_false_iff]
  intro hserved
  unfold served at hserved
  split at hserved
  · rename_i bucket token'' blob views maxViews expiresAt ht'
    have hend := (follows_run (before ++ .step i m :: after)).threads i _ ht'
    have hall := (hend blob views maxViews expiresAt rfl).all
    obtain ⟨_,row,hrow⟩ := hall token _ (mem_transcript.mpr ⟨job,hlater⟩)
    exact hno row hrow
  · cases hserved

def Store.Revoked (s : Store) (token : ℕ) : Prop :=
  ∃ row ∈ s.shares.rows, row.token = token ∧ row.revokedAt ≠ none

private theorem revoked_stays {first rest : List (Act Job Moment)} {token : ℕ}
    (h : (system.after fresh first).shared.Revoked token) :
    ∀ row ∈ (system.after fresh (first ++ rest)).shared.shares.rows, row.token = token →
      row.revokedAt ≠ none := by
  have hall : Along system.act (fun _ _ => True) (system.after fresh first) rest :=
    along_true system.act _ rest
  have hmetered := metered_after first
  rw [system.after_append]
  refine (behaviour.invariant_after (fun _ _ => True) (fun _ _ _ => trivial)
    (fun s log => Metered s log ∧ (∃ row₀, Inserted log row₀ ∧ row₀.token = token) ∧
      ∀ row ∈ s.shares.rows, row.token = token → row.revokedAt ≠ none) ?_
    (follows_run first) (fun _ _ _ => trivial) ?_
    hall).2.2
  · rintro w i job m r next _ _ _ _ hr ⟨hm,⟨row₀,hins,htoken⟩,hrevoked⟩
    refine ⟨metered_step hm hr.asks,⟨row₀,hins.cons,htoken⟩,?_⟩
    intro row hrow he
    rcases rows_exec m w.shared r row hrow with ⟨rfl,_⟩ | ⟨row',hold,hlater,_⟩
    · exact absurd (htoken.trans he.symm) (fun h => hm.newToken hr.asks hins h)
    · exact hlater.revoked (hrevoked row' hold (hlater.token.symm.trans he))
  · obtain ⟨row,hrow,htoken,hrevoked⟩ := h
    obtain ⟨row₀,hins,hsame⟩ := hmetered.rows row hrow
    refine ⟨hmetered,⟨row₀,hins,hsame.token.symm.trans htoken⟩,?_⟩
    intro row' hrow' he
    have hid := (hmetered.sameRow hrow' hins (.inl (by rw [he,← htoken,hsame.token]))).id
    have hget : (system.after fresh first).shared.shares.get? row'.id = some row' :=
      Table.get?_of_mem hrow'
    rw [hid,← hsame.id,Table.get?_of_mem hrow] at hget
    obtain rfl := Option.some.inj hget
    exact hrevoked

/-- A share is served at most as often as its limit says, and never more often than its views say.
A request whose counting statement runs after a revoke has committed or after the link has expired
by the clock of the database does not get the envelope. -/
theorem served_within_limit (as : List (Act Job Moment)) :
    (∀ row, Inserted (system.after fresh as).log row → ∀ n ∈ row.maxViews,
      (envelopes (system.after fresh as) row.token).card ≤ n) ∧
    (∀ row ∈ (system.after fresh as).shared.shares.rows,
      (envelopes (system.after fresh as) row.token).card ≤ row.views ∧
        ∀ n ∈ row.maxViews, row.views ≤ n) ∧
    (∀ rest i m token, (system.after fresh as).shared.Revoked token →
      (system.after fresh (as ++ rest)).asks? i = some (.countView token) →
      NoEnvelope (as ++ rest) i m) ∧
    ∀ i m token, (system.after fresh as).asks? i = some (.countView token) →
      (∀ row ∈ (system.after fresh as).shared.shares.rows, row.token = token →
        row.expiresAt ≤ (system.after fresh as).shared.clock + m.elapsed) →
      NoEnvelope as i m := by
  have hm := metered_after as
  refine ⟨?_,?_,?_,?_⟩
  · intro row hins n hn
    exact (Finset.card_le_card (envelopes_subset as row.token)).trans (hm.limited row hins n hn)
  · intro row hrow
    have hle := (Finset.card_le_card (envelopes_subset as row.token)).trans (hm.views row hrow)
    exact ⟨hle,hm.limit row hrow⟩
  · intro rest i m token hrevoked hi
    apply noEnvelope_of_closed hi
    intro row hrow
    rw [Bool.eq_false_iff]
    intro hcountable
    have hparts := of_decide_eq_true hcountable
    exact revoked_stays hrevoked row hrow hparts.1 hparts.2.1
  · intro i m token hi hexpired
    apply noEnvelope_of_closed hi
    intro row hrow
    rw [Bool.eq_false_iff]
    intro hcountable
    have hparts := of_decide_eq_true hcountable
    have hle := hexpired row hrow hparts.1
    have hlt := hparts.2.2.1
    push_cast at hlt
    omega

end WeirdVault.Shares
