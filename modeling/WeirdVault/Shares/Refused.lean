import WeirdVault.Shares.Behaviour

/-!
# What a refused deletion leaves

`DELETE /api/recordings/[id]` alone, with any fate for each of its requests, when it answers that
nothing was deleted.
-/

namespace WeirdVault.Shares

open WeirdVault.Framework Program

/-- The rows and the bucket, and what becomes of the next requests. -/
structure Process where
  store : Store
  moments : ℕ → Moment

def serve (p : Process) (r : Request) : Process × r.Ans :=
  (⟨(exec (p.moments 0) p.store r).1,fun n => p.moments (n+1)⟩,(exec (p.moments 0) p.store r).2)

private theorem run_query (p : Process) (r : Request) :
    run serve p (query r) = ((serve p r).1,(serve p r).2) := by
  rw [query,call,request_bind,run_ask]
  rcases (serve p r).2 with e | x <;> rfl

private theorem leaves_query_bind {α : Type} {p : Process} {r : Request} {f : r.Val → Handler α}
    {post : Process → Except Thrown α → Prop}
    (hok : ∀ x, (serve p r).2 = .ok x → Leaves serve (serve p r).1 (f x) post)
    (herr : ∀ e, (serve p r).2 = .error e → post (serve p r).1 (.error e)) :
    Leaves serve p ((query r).bind f) post := by
  rw [Leaves,run_bind,run_query]
  rcases h : (serve p r).2 with e | x
  · exact herr e h
  · exact hok x h

def nothingDeleted (e : BodyFailure × String) : Reply :=
  refuseBody e fun message =>
    "The stored recording could not be destroyed, so nothing was deleted: " ++ message ++
      " Your recording is exactly as it was. Try again."

private theorem notFound_ne (e : BodyFailure × String) : notFound ≠ nothingDeleted e := by
  obtain ⟨kind,message⟩ := e
  intro h
  have hstatus := (Reply.refused.inj h).1
  cases kind <;> cases hstatus

/-- The recording, its shares and the bytes that they name are all still there. -/
structure Intact (s t : Store) (id : ℕ) : Prop where
  row : t.recordings.get? id = s.recordings.get? id
  shares : ∀ row : Share, row.recordingId = id →
    (t.shares.get? row.id = some row ↔ s.shares.get? row.id = some row)
  bytes : ∀ row key, s.recordings.get? id = some row → row.body.storageKey = some key →
    t.bucket.get? key = s.bucket.get? key
  shareBytes : ∀ (row : Share) key, s.shares.get? row.id = some row → row.recordingId = id →
    row.body.storageKey = some key → t.bucket.get? key = s.bucket.get? key

def bodiesOf (s : Store) (id : ℕ) (userId : String) : List StoredBody :=
  (((s.recordings.get? id).filter (·.userId = userId)).map (·.body)).toList ++
    (s.shares.rows.filter fun row => row.recordingId = id ∧ row.userId = userId).map (·.body)

/-- Where one object is in the bucket and every delete before its own is answered, its own is
refused. -/
def Spared (bucket : Table Object.key) (moments : ℕ → Moment) (keys : List Key) : Prop :=
  ∀ i key, keys[i]? = some key → (∀ j < i, (moments j).fate = .answered) →
    (bucket.get? key).isSome → (moments i).fate = .refused

private theorem spared_answered {s t : Table Object.key} {moments : ℕ → Moment} {key : Key} {keys : List Key}
    (hfate : (moments 0).fate = .answered) (ht : ∀ k, t.get? k = s.get? k) :
    Spared s moments (key :: keys) ↔
      s.get? key = none ∧ Spared t (fun n => moments (n+1)) keys := by
  constructor
  · intro h
    refine ⟨?_,?_⟩
    · by_contra hsome
      have hrefused := h 0 key rfl (by omega) (Option.isSome_iff_ne_none.mpr hsome)
      rw [hfate] at hrefused
      cases hrefused
    · intro i k hk hbefore hsome
      refine h (i+1) k hk ?_ (ht k ▸ hsome)
      intro j hj
      cases j with
      | zero => exact hfate
      | succ j => exact hbefore j (by omega)
  · rintro ⟨hnone,h⟩ i k hk hbefore hsome
    cases i with
    | zero =>
      obtain rfl := Option.some.inj hk
      rw [hnone] at hsome
      cases hsome
    | succ i => exact h i k hk (fun j hj => hbefore (j+1) (by omega)) (ht k ▸ hsome)

private theorem spared_failed {s : Table Object.key} {moments : ℕ → Moment} {key : Key} {keys : List Key}
    (hfate : (moments 0).fate ≠ .answered) : Spared s moments (key :: keys) ↔
      ((s.get? key).isSome → (moments 0).fate = .refused) := by
  constructor
  · intro h hsome
    exact h 0 key rfl (by omega) hsome
  · intro h i k hk hbefore hsome
    cases i with
    | zero =>
      obtain rfl := Option.some.inj hk
      exact h hsome
    | succ i => exact absurd (hbefore 0 (by omega)) hfate

private theorem named_of_bodiesOf {s : Store} {id : ℕ} {userId : String} {key : Key}
    (h : key ∈ (bodiesOf s id userId).filterMap (·.storageKey)) :
    (∃ row, s.recordings.get? id = some row ∧ row.body.storageKey = some key) ∨
      ∃ row : Share, s.shares.get? row.id = some row ∧ row.recordingId = id ∧
        row.body.storageKey = some key := by
  obtain ⟨body,hbody,hkey⟩ := List.mem_filterMap.mp h
  rcases List.mem_append.mp hbody with hrow | hshare
  · obtain ⟨row,hget,rfl⟩ := Option.map_eq_some_iff.mp (Option.mem_toList.mp hrow)
    exact Or.inl ⟨row,(Option.filter_eq_some_iff.mp hget).1,hkey⟩
  · obtain ⟨row,hrow,rfl⟩ := List.mem_map.mp hshare
    obtain ⟨hmem,htest⟩ := List.mem_filter.mp hrow
    exact Or.inr ⟨row,Table.get?_of_mem hmem,(of_decide_eq_true htest).1,hkey⟩

structure Left (p : Process) (bodies : List StoredBody) (t : Store) : Prop where
  recordings : t.recordings = p.store.recordings
  shares : t.shares = p.store.shares
  gone : ∀ key, p.store.bucket.get? key = none → t.bucket.get? key = none
  others : ∀ key ∉ bodies.filterMap (·.storageKey), t.bucket.get? key = p.store.bucket.get? key
  spared : (∀ key ∈ bodies.filterMap (·.storageKey),
    t.bucket.get? key = p.store.bucket.get? key) ↔
      Spared p.store.bucket p.moments (bodies.filterMap (·.storageKey))

private theorem left_answered {p : Process} {body : StoredBody} {bodies : List StoredBody}
    {key : Key} {t : Store} (hkey : body.storageKey = some key)
    (hfate : (p.moments 0).fate = .answered)
    (h : Left (serve p (.deleteObject key false)).1 bodies t) : Left p (body :: bodies) t := by
  have hstore : (serve p (.deleteObject key false)).1.store =
      { p.store with
        clock := p.store.clock + (p.moments 0).elapsed
        bucket := p.store.bucket.erase key } := by
    simp [serve,exec,execute,hfate]
  obtain ⟨hrecordings,hshares,hgone,hothers,hspared⟩ := h
  rw [hstore] at hrecordings hshares hgone hothers hspared
  have herased : t.bucket.get? key = none := hgone key (Table.get?_erase_self _ _)
  refine ⟨hrecordings,hshares,?_,?_,?_⟩
  · intro k hk
    apply hgone
    rw [Table.get?_erase]
    split
    · rfl
    · exact hk
  · intro k hk
    rw [List.filterMap_cons_some hkey,List.mem_cons,not_or] at hk
    rw [hothers k hk.2,Table.get?_erase,if_neg (Ne.symm hk.1)]
  · rw [List.filterMap_cons_some hkey]
    by_cases hnone : p.store.bucket.get? key = none
    · have hsame : ∀ k, (p.store.bucket.erase key).get? k = p.store.bucket.get? k := by
        intro k
        rw [Table.get?_erase]
        split
        · rename_i he
          exact he ▸ hnone.symm
        · rfl
      rw [spared_answered hfate hsame,List.forall_mem_cons]
      simp only [hsame] at hspared
      exact and_congr (iff_of_true (herased.trans hnone.symm) hnone) hspared
    · constructor
      · intro hall
        exact absurd ((hall key List.mem_cons_self).symm.trans herased) hnone
      · intro hall
        have hrefused := hall 0 key rfl (by omega) (Option.isSome_iff_ne_none.mpr hnone)
        rw [hfate] at hrefused
        cases hrefused

private theorem left_failed {p : Process} {body : StoredBody} {bodies : List StoredBody}
    {key : Key} (hkey : body.storageKey = some key) (hfate : (p.moments 0).fate ≠ .answered) :
    Left p (body :: bodies) (serve p (.deleteObject key false)).1.store := by
  cases hlost : (p.moments 0).fate with
  | answered => exact absurd hlost hfate
  | refused =>
    have hstore : (serve p (.deleteObject key false)).1.store =
        { p.store with clock := p.store.clock + (p.moments 0).elapsed } := by
      simp [serve,exec,hlost,Request.certain,Request.cleanup]
    rw [hstore]
    refine ⟨rfl,rfl,fun _ h => h,fun _ _ => rfl,?_⟩
    rw [List.filterMap_cons_some hkey,spared_failed hfate]
    exact iff_of_true (fun _ _ => rfl) fun _ => hlost
  | lost =>
    have hstore : (serve p (.deleteObject key false)).1.store =
        { p.store with
          clock := p.store.clock + (p.moments 0).elapsed
          bucket := p.store.bucket.erase key } := by
      simp [serve,exec,execute,hlost,Request.certain]
    have hget : ∀ k, (p.store.bucket.erase key).get? k =
        if key = k then none else p.store.bucket.get? k := Table.get?_erase _ _
    rw [hstore]
    refine ⟨rfl,rfl,?_,?_,?_⟩
    · intro k hk
      rw [hget]
      split
      · rfl
      · exact hk
    · intro k hk
      rw [List.filterMap_cons_some hkey,List.mem_cons,not_or] at hk
      rw [hget,if_neg (Ne.symm hk.1)]
    · rw [List.filterMap_cons_some hkey,spared_failed hfate,hlost,Option.isSome_iff_ne_none]
      constructor
      · intro hall hsome
        have hkept := hall key List.mem_cons_self
        rw [hget,if_pos rfl] at hkept
        exact absurd hkept.symm hsome
      · intro hnone k _
        rw [hget]
        split
        · rename_i he
          subst he
          by_contra hsome
          cases hnone (Ne.symm hsome)
        · rfl

theorem destroyBodies_left {p : Process} {bodies : List StoredBody} {e : Thrown}
    (h : (run serve p (forEach (destroyBody true) bodies)).2 = .error e) :
    Left p bodies (run serve p (forEach (destroyBody true) bodies)).1.store := by
  induction bodies generalizing p with
  | nil => cases h
  | cons body bodies ih =>
    rw [forEach_cons] at h ⊢
    cases hkey : body.storageKey with
    | none =>
      have hskip : destroyBody true body = .done () := by simp only [destroyBody,hkey]
      rw [hskip,done_bind] at h ⊢
      obtain ⟨hrecordings,hshares,hgone,hothers,hspared⟩ := ih h
      refine ⟨hrecordings,hshares,hgone,?_,?_⟩ <;> rwa [List.filterMap_cons_none hkey]
    | some key =>
      have hdelete : destroyBody true body =
          (query (.deleteObject key false)).handle fun e => .fail (unreachable e) := by
        simp only [destroyBody,hkey]
        rfl
      have hrun : run serve p ((query (.deleteObject key false)).handle fun e =>
          .fail (unreachable e)) = match (serve p (.deleteObject key false)).2 with
            | .ok x => ((serve p (.deleteObject key false)).1,.ok x)
            | .error e => ((serve p (.deleteObject key false)).1,.error (unreachable e)) := by
        rw [run_handle,run_query]
        rcases (serve p (.deleteObject key false)).2 with e | x <;> rfl
      rw [hdelete,run_bind,hrun] at h ⊢
      by_cases hfate : (p.moments 0).fate = .answered
      · have hok : (serve p (.deleteObject key false)).2 = .ok () := by
          simp [serve,exec,execute,hfate]
        rw [hok] at h ⊢
        exact left_answered hkey hfate (ih h)
      · have herr : (serve p (.deleteObject key false)).2 =
            .error (.objectStore (p.moments 0).trouble) := by
          cases hlost : (p.moments 0).fate with
          | answered => exact absurd hlost hfate
          | refused | lost =>
            simp [serve,exec,hlost,Request.certain,Request.cleanup,Request.trouble,
              Request.toBucket]
        rw [herr]
        exact left_failed hkey hfate

private theorem destroyBodies_unconfigured (p : Process) (bodies : List StoredBody) :
    (run serve p (forEach (destroyBody false) bodies)).1 = p := by
  induction bodies with
  | nil => rfl
  | cons body bodies ih =>
    rw [forEach_cons]
    cases hkey : body.storageKey with
    | none =>
      have hskip : destroyBody false body = .done () := by simp only [destroyBody,hkey]
      rw [hskip,done_bind,ih]
    | some key =>
      simp only [destroyBody,hkey,Bool.not_false,if_true,fail_bind,run_fail]

private theorem serve_selectRecording {p : Process} {id : ℕ} {userId : String}
    {x : Option StoredBody} (h : (serve p (.selectRecording id userId)).2 = .ok x) :
    x = ((p.store.recordings.get? id).filter (·.userId = userId)).map (·.body) := by
  cases hfate : (p.moments 0).fate with
  | answered =>
    simp only [serve,exec,execute,hfate,true_or,if_true] at h
    exact (Except.ok.inj h).symm
  | refused | lost => simp [serve,exec,hfate,Request.certain,Request.cleanup] at h

private theorem serve_selectShares {p : Process} {id : ℕ} {userId : String}
    {x : List StoredBody} (h : (serve p (.selectShares id userId)).2 = .ok x) :
    x = (p.store.shares.rows.filter fun row => row.recordingId = id ∧
      row.userId = userId).map (·.body) := by
  cases hfate : (p.moments 0).fate with
  | answered =>
    simp only [serve,exec,execute,hfate,true_or,if_true] at h
    exact (Except.ok.inj h).symm
  | refused | lost => simp [serve,exec,hfate,Request.certain,Request.cleanup] at h

private theorem serve_select {p : Process} {r : Request}
    (h : ∀ m s, (execute m s r).1 = s) :
    (serve p r).1 = ⟨p.store.tick (p.moments 0),fun n => p.moments (n+1)⟩ := by
  simp only [serve,exec,Store.tick]
  split
  · rw [h]
  · split
    · rw [h]
    · rfl

private theorem run_attempt (p : Process) (q : Handler Unit) : run serve p (attempt q) =
    match run serve p q with
    | (t,.ok ()) => (t,.ok (.ok ()))
    | (t,.error (.body kind message)) => (t,.ok (.error (kind,message)))
    | (t,.error e) => (t,.error e) := by
  rw [attempt,run_handle,run_bind]
  rcases run serve p q with ⟨t,e | ⟨⟩⟩
  · cases e <;> rfl
  · rfl

/-- The loop over the bodies of the rows threw, and nothing was done after it. -/
def ThrewUp (p : Process) (bucket : Bool) (id : ℕ) (userId : String) (t : Process) : Prop :=
  ∃ p' : Process, (∃ clock, p'.store = { p.store with clock := clock }) ∧
    (p'.moments = fun n => p.moments (n+2)) ∧ ∃ e,
    run serve p' (forEach (destroyBody bucket) (bodiesOf p.store id userId)) = (t,.error e)

private theorem leaves_remove (p : Process) (bucket : Bool) (userId : String) (id : ℕ) :
    Leaves serve p (remove bucket (some userId) id) fun t o => ∀ e, o = .ok (nothingDeleted e) →
      ThrewUp p bucket id userId t := by
  unfold remove
  refine leaves_query_bind ?_ (fun _ _ _ he => by cases he)
  intro x hx
  have hrow := serve_selectRecording hx
  cases x with
  | none =>
    intro e he
    exact absurd (Except.ok.inj he) (notFound_ne e)
  | some row =>
    refine leaves_query_bind ?_ (fun _ _ _ he => by cases he)
    intro shares hshares
    have hstore : (serve p (.selectRecording id userId)).1 = _ := serve_select fun _ _ => rfl
    rw [hstore] at hshares ⊢
    have hbodies : bodiesOf p.store id userId = row :: shares := by
      rw [bodiesOf,← hrow,serve_selectShares hshares]
      rfl
    have hlast : (serve ⟨p.store.tick (p.moments 0),fun n => p.moments (n+1)⟩
        (.selectShares id userId)).1 = _ := serve_select fun _ _ => rfl
    rw [hlast]
    have hthrew : Leaves serve ⟨(p.store.tick (p.moments 0)).tick (p.moments 1),fun n =>
        p.moments (n+2)⟩ (attempt (forEach (destroyBody bucket) (row :: shares)))
        fun t o => ∀ e, o = .ok (.error e) → ThrewUp p bucket id userId t := by
      rw [Leaves,run_attempt]
      intro e
      split
      · intro he
        cases he
      · rename_i t kind message hrun
        intro _
        rw [← hbodies] at hrun
        exact ⟨⟨(p.store.tick (p.moments 0)).tick (p.moments 1),fun n => p.moments (n+2)⟩,⟨_,rfl⟩,
          rfl,_,hrun⟩
      · intro he
        cases he
    refine hthrew.bind ?_ ?_
    · intro t x hx
      rcases x with e | ⟨⟩
      · intro _ _
        exact hx e rfl
      · refine leaves_query_bind ?_ (fun _ _ _ he => by cases he)
        intro ids _
        cases ids with
        | nil =>
          intro e he
          exact absurd (Except.ok.inj he) (notFound_ne e)
        | cons i ids =>
          intro e he
          cases Except.ok.inj he
    · intro _ _ _ _ he
      cases he

/-- When `DELETE` answers that nothing was deleted, that is so exactly when every object that is in
the bucket and whose delete was reached is one whose delete was refused: the first of them. -/
theorem refused_delete_intact_iff (p : Process) (bucket : Bool) (userId : String) (id : ℕ)
    (e : BodyFailure × String)
    (h : (run serve p (remove bucket (some userId) id)).2 = .ok (nothingDeleted e)) :
    Intact p.store (run serve p (remove bucket (some userId) id)).1.store id ↔
      (bucket = true → Spared p.store.bucket (fun n => p.moments (n+2))
        ((bodiesOf p.store id userId).filterMap (·.storageKey))) := by
  obtain ⟨p',⟨clock,hstore⟩,hmoments,e',hrun⟩ := leaves_remove p bucket userId id e h
  generalize hend : (run serve p (remove bucket (some userId) id)).1 = t at hrun ⊢
  cases bucket with
  | false =>
    have hsame : t = p' := by
      rw [← destroyBodies_unconfigured p' (bodiesOf p.store id userId),hrun]
    subst hsame
    refine iff_of_true ?_ nofun
    rw [hstore]
    exact ⟨rfl,fun _ _ => Iff.rfl,fun _ _ _ _ => rfl,fun _ _ _ _ _ => rfl⟩
  | true =>
    have hleft : Left p' (bodiesOf p.store id userId) t.store := by
      have hthrow := destroyBodies_left (e := e') (p := p') (by rw [hrun])
      rwa [hrun] at hthrow
    obtain ⟨hrecordings,hshares,hgone,hothers,hspared⟩ := hleft
    rw [hstore] at hrecordings hshares hothers hspared
    rw [hmoments] at hspared
    rw [eq_self,true_imp_iff,← hspared]
    constructor
    · intro hintact key hkey
      rcases named_of_bodiesOf hkey with ⟨row,hrow,hname⟩ | ⟨row,hrow,hid,hname⟩
      · exact hintact.bytes row key hrow hname
      · exact hintact.shareBytes row key hrow hid hname
    · intro hnamed
      have hsame : ∀ key, t.store.bucket.get? key = p.store.bucket.get? key := by
        intro key
        by_cases hkey : key ∈ (bodiesOf p.store id userId).filterMap (·.storageKey)
        · exact hnamed key hkey
        · exact hothers key hkey
      refine ⟨by rw [hrecordings],?_,fun _ key _ _ => hsame key,fun _ key _ _ _ => hsame key⟩
      intro row _
      rw [hshares]

private def recordingWithShare : Store :=
  { emptyStore with
    recordings := (Table.empty _).put
      ⟨0,"u",none,none,.object (recordingKey "u" 0),1,0,0⟩
    shares := (Table.empty _).put ⟨1,0,"u",0,.object (shareKey "u" 1),1,0,none,0,none⟩
    bucket := ((Table.empty _).put ⟨recordingKey "u" 0,"a",0⟩).put ⟨shareKey "u" 1,"b",0⟩ }

private def failing (i : ℕ) : ℕ → Moment :=
  fun n => ⟨0,if n = i then .refused else .answered,"",false,false,false,none⟩

theorem first_refused_intact : Intact recordingWithShare
    (run serve ⟨recordingWithShare,failing 2⟩ (remove true (some "u") 0)).1.store 0 := by
  refine (refused_delete_intact_iff ⟨recordingWithShare,failing 2⟩ true "u" 0 (.unreachable,"")
    rfl).mpr ?_
  intro _ i key hkey hbefore hsome
  cases i with
  | zero => rfl
  | succ i => exact absurd (hbefore 0 (by omega)) (by decide)

/-- The share's object cannot be deleted; the recording's is gone already. -/
theorem later_refused_not_intact : ¬ ∀ (p : Process) (bucket : Bool) (userId : String) (id : ℕ)
    (e : BodyFailure × String),
    (run serve p (remove bucket (some userId) id)).2 = .ok (nothingDeleted e) →
      Intact p.store (run serve p (remove bucket (some userId) id)).1.store id := by
  intro hall
  have hintact := hall ⟨recordingWithShare,failing 3⟩ true "u" 0 (.unreachable,"") rfl
  have hbytes := hintact.bytes _ (recordingKey "u" 0) rfl rfl
  exact absurd hbytes (by decide)

end WeirdVault.Shares
