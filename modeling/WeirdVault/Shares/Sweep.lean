import WeirdVault.Shares.Objects

/-!
# What the sweep deletes

The sweep reads the rows, then the clock, then the bucket. An object that no row named when the
clock was read and that is older than the window stays without a row, since a row is inserted within
the window. The rows are read before the clock: an object whose row was inserted in between, and
which is just old enough, is taken for an orphan.
-/

namespace WeirdVault.Shares

open WeirdVault.Framework

section

variable {s : Store} {log : Log} {i j : ℕ} {job : Job} {m : Moment} {r : Request} {key : Key}
  {folder : Folder} {continuation cut : Option Place}

theorem mem_page_objects {object : StoredObject} :
    object ∈ (s.page folder continuation cut).objects ↔
      ∃ stored ∈ s.bucket.rows, object = ⟨stored.key,stored.lastModified⟩ ∧
        stored.key.within folder continuation
          (cut.filter fun p => ∀ c ∈ continuation, c < p) = true := by
  constructor
  · intro ho
    obtain ⟨item,hitem,rfl⟩ := List.mem_map.mp ho
    obtain ⟨stored,hstored,rfl⟩ := List.mem_map.mp hitem
    obtain ⟨hmem,hwithin⟩ := List.mem_filter.mp hstored
    exact ⟨stored,hmem,rfl,hwithin⟩
  · rintro ⟨stored,hmem,rfl,hwithin⟩
    refine List.mem_map.mpr ⟨(stored.key,stored.lastModified),?_,rfl⟩
    exact List.mem_map.mpr ⟨stored,List.mem_filter.mpr ⟨hmem,hwithin⟩,rfl⟩

theorem page_honest (s : Store) (folder : Folder) (continuation cut : Option Place) :
    (s.page folder continuation cut).Honest folder continuation where
  folder := by
    intro object ho
    obtain ⟨stored,_,rfl,hwithin⟩ := mem_page_objects.mp ho
    exact (of_decide_eq_true hwithin).1
  after := by
    intro object ho p hp
    obtain ⟨stored,_,rfl,hwithin⟩ := mem_page_objects.mp ho
    exact (of_decide_eq_true hwithin).2.1 p hp
  upTo := by
    intro object ho p hp
    obtain ⟨stored,_,rfl,hwithin⟩ := mem_page_objects.mp ho
    exact (of_decide_eq_true hwithin).2.2 p hp
  onward := by
    intro p hp n hn
    exact of_decide_eq_true (Option.filter_eq_some_iff.mp hn).2 p hp
  nodup := by
    have hkeys : (s.page folder continuation cut).objects.map (·.key) =
        (s.bucket.rows.filter (·.key.within folder continuation
          (cut.filter fun p => ∀ c ∈ continuation, c < p))).map (·.key) := by
      simp only [Store.page,Page.objects,List.map_map]
      rfl
    rw [hkeys]
    exact s.bucket.nodup.sublist (List.filter_sublist.map _)

theorem mem_page {stored : Object} (hmem : stored ∈ s.bucket.rows)
    (hafter : ∀ p ∈ continuation, p < stored.key.place)
    (hupTo : (s.page stored.key.folder continuation cut).truncated = true →
      ∀ p ∈ (s.page stored.key.folder continuation cut).next, stored.key.place ≤ p) :
    ⟨stored.key,stored.lastModified⟩ ∈ (s.page stored.key.folder continuation cut).objects := by
  refine mem_page_objects.mpr ⟨stored,hmem,rfl,decide_eq_true ⟨rfl,hafter,?_⟩⟩
  intro p hp
  apply hupTo _ p hp
  change (cut.filter _).isSome = true
  rw [hp]
  rfl

def Request.namesObject (key : Key) : Request → Bool
  | .insertRecording row => row.body.storageKey = some key
  | .insertShare row => row.body.storageKey = some key
  | _ => false

theorem names_exec (h : (exec m s r).1.Names key) : s.Names key ∨ r.namesObject key = true := by
  rcases h with ⟨row,hrow,hkey⟩ | ⟨row,hrow,hkey⟩
  · rcases recordings_exec m s r row hrow with rfl | hold
    · exact .inr (decide_eq_true hkey)
    · exact .inl (.inl ⟨row,hold,hkey⟩)
  · rcases rows_exec m s r row hrow with ⟨rfl,_⟩ | ⟨row',hold,hlater,_⟩
    · exact .inr (decide_eq_true hkey)
    · rcases hlater.body with hb | hb
      · exact .inl (.inr ⟨row',hold,hb ▸ hkey⟩)
      · rw [hb] at hkey
        cases hkey

theorem written_exec (m : Moment) (s : Store) (r : Request) {a : Key × ℕ} (ha : a ∈ s.written) :
    a ∈ (exec m s r).1.written := by
  rcases exec_cases m s r with ⟨he,_⟩ | ⟨he,_⟩
  · rw [he]
    exact ha
  · rw [he,execute_written]
    split
    · exact List.mem_cons_of_mem _ ha
    · exact ha

end

def claims (k : Heard) : List (List Key) :=
  (k.filterMap fun
    | ⟨.selectRecordingKeys,.ok recordings⟩ => some recordings
    | _ => none).flatMap fun recordings =>
  (k.filterMap fun
    | ⟨.selectShareKeys,.ok shares⟩ => some shares
    | _ => none).map (recordings ++ ·)

def clockRead : Entry Request.Ans Job → Option ℕ
  | ⟨_,_,.dateNow,.ok now⟩ => some now
  | _ => none

/-- A sweep, which is what reads the keys of the rows, has read the clock since that time. -/
def sweptSince (log : Log) (t : ℕ) : Bool :=
  log.any fun e => !(claims (transcript log e.thread)).isEmpty && (clockRead e).any (t ≤ ·)

/-- A save or share creation that runs during a sweep inserts its row less than the window after its
object was written. -/
def inTime (w : Server) : Act Job Moment → Bool
  | .start _ => true
  | .step i m =>
    match w.asks? i with
    | some r => w.shared.written.all fun a => !r.namesObject a.1 || !sweptSince w.log a.2 ||
      ((w.shared.clock + m.elapsed : ℕ) : ℤ) < a.2 + GRACE_MS
    | none => true

def Store.names (s : Store) (key : Key) : Bool :=
  s.recordings.rows.any (·.body.storageKey = some key) ||
    s.shares.rows.any (·.body.storageKey = some key)

/-- When a sweep reads the clock, it has read every row whose object is older than the window. -/
def readsRows (w : Server) : Act Job Moment → Bool
  | .start _ => true
  | .step i m =>
    match w.asks? i with
    | some .dateNow => w.shared.bucket.rows.all fun object =>
      !w.shared.names object.key ||
        ((w.shared.clock + m.elapsed : ℕ) : ℤ) - GRACE_MS < object.lastModified ||
        (claims (transcript w.log i)).all (object.key ∈ ·)
    | _ => true

/-- Objects have the time of their write, and the clock only goes forward. Every page was honest and
has what it went over. -/
structure Clocked (s : Store) (log : Log) : Prop extends Traced s log where
  times : ∀ object ∈ s.bucket.rows, (object.key,object.lastModified) ∈ s.written
  clock : ∀ i now, Said log i .dateNow (.ok now) → now ≤ s.clock
  honest : ∀ i folder continuation page,
    Said log i (.listPage folder continuation) (.ok page) → page.Honest folder continuation
  listsAll : ∀ i folder continuation page (now : ℕ),
    Said log i (.listPage folder continuation) (.ok page) → Said log i .dateNow (.ok now) →
      ∀ object ∈ s.bucket.rows, (object.lastModified : ℤ) ≤ (now : ℤ) - GRACE_MS →
        object.key.folder = folder → (∀ p ∈ continuation, p < object.key.place) →
          (page.truncated = true → ∀ p ∈ page.next, object.key.place ≤ p) →
            ⟨object.key,object.lastModified⟩ ∈ page.objects

/-- What a sweep takes for an orphan is one, and nothing comes to name it. -/
structure Judged (s : Store) (log : Log) : Prop extends Clocked s log where
  unnamed : ∀ i recordings shares now, Swept (transcript log i) recordings shares now →
    ∀ object ∈ s.bucket.rows, (object.lastModified : ℤ) ≤ (now : ℤ) - GRACE_MS →
      object.key ∉ recordings ++ shares → ¬ s.Names object.key
  judged : ∀ i recordings shares now folder object,
    Swept (transcript log i) recordings shares now → Listed (transcript log i) folder object →
      Abandoned recordings shares now object →
        (object.key,object.lastModified) ∈ s.written ∧ ¬ s.Names object.key

section

variable {w : Server} {i j : ℕ} {job : Job} {m : Moment} {r : Request} {key : Key}

theorem names_iff {s : Store} : s.names key = true ↔ s.Names key := by
  simp only [Store.names,Store.Names,Bool.or_eq_true,List.any_eq_true,decide_eq_true_eq]

theorem mem_claims {k : Heard} {recordings shares : List Key}
    (hrecordings : k.Has .selectRecordingKeys (.ok recordings))
    (hshares : k.Has .selectShareKeys (.ok shares)) : recordings ++ shares ∈ claims k := by
  refine List.mem_flatMap.mpr ⟨recordings,List.mem_filterMap.mpr ⟨_,hrecordings,rfl⟩,?_⟩
  exact List.mem_map.mpr ⟨shares,List.mem_filterMap.mpr ⟨_,hshares,rfl⟩,rfl⟩

private theorem dateNow_ok {s : Store} {now : ℕ} (h : (exec m s .dateNow).2 = .ok now) :
    now = s.clock + m.elapsed := (Except.ok.inj (answer_of_ok h)).symm

private theorem sweptSince_of_swept {log : Log} {recordings shares : List Key} {now t : ℕ}
    (h : Swept (transcript log j) recordings shares now) (ht : t ≤ now) : sweptSince log t = true := by
  obtain ⟨job,hmem⟩ := mem_transcript.mp h.now
  refine List.any_eq_true.mpr ⟨_,hmem,?_⟩
  have hclaims : claims (transcript log j) ≠ [] :=
    List.ne_nil_of_mem (mem_claims h.recordings h.shares)
  simpa [clockRead,ht] using hclaims

private theorem unnamed_stays {now t : ℕ} {recordings shares : List Key} (hi : w.asks? i = some r)
    (hok : inTime w (.step i m) = true) (hwritten : (key,t) ∈ w.shared.written)
    (hswept : Swept (transcript w.log j) recordings shares now)
    (hold : (t : ℤ) ≤ (now : ℤ) - GRACE_MS) (hclock : now ≤ w.shared.clock)
    (hnames : ¬ w.shared.Names key) : ¬ (exec m w.shared r).1.Names key := by
  have hwindow : (0 : ℤ) ≤ GRACE_MS := by decide
  intro h
  rcases names_exec h with hbefore | hnew
  · exact hnames hbefore
  · simp only [inTime,hi] at hok
    have hlt := List.all_eq_true.mp hok _ hwritten
    rw [hnew,sweptSince_of_swept hswept (by omega)] at hlt
    have hlt' : ((w.shared.clock + m.elapsed : ℕ) : ℤ) < (t : ℤ) + GRACE_MS := by
      simpa using hlt
    push_cast at hlt'
    omega

private theorem clocked_times (h : Clocked w.shared w.log) :
    ∀ object ∈ (exec m w.shared r).1.bucket.rows,
      (object.key,object.lastModified) ∈ (exec m w.shared r).1.written := by
  intro object hobject
  rcases bucket_exec m w.shared r object hobject with ⟨rfl,hmodified⟩ | hold
  · rcases exec_putObject m w.shared object.key object.blob with ⟨he,_⟩ | ⟨_,he,_⟩
    · exact written_exec m w.shared _ (h.times object (he ▸ hobject))
    · rw [he,hmodified]
      exact List.mem_cons_self
  · exact written_exec m w.shared r (h.times object hold)

private theorem clocked_clock (h : Clocked w.shared w.log) {now : ℕ}
    (hx : Said (⟨i,job,r,(exec m w.shared r).2⟩ :: w.log) j .dateNow (.ok now)) :
    now ≤ (exec m w.shared r).1.clock := by
  rw [clock_exec]
  rcases said_exec hx with ⟨_,_,hanswer⟩ | hold
  · exact (dateNow_ok hanswer).le
  · exact (h.clock j now hold).trans (Nat.le_add_right _ _)

private theorem clocked_honest (h : Clocked w.shared w.log) {folder : Folder}
    {continuation : Option Place} {page : Page}
    (hx : Said (⟨i,job,r,(exec m w.shared r).2⟩ :: w.log) j (.listPage folder continuation)
      (.ok page)) : page.Honest folder continuation := by
  rcases said_exec hx with ⟨_,_,hanswer⟩ | hold
  · obtain rfl := Except.ok.inj (answer_of_ok hanswer)
    exact page_honest _ folder continuation m.cut
  · exact h.honest j folder continuation page hold

private theorem old_object {now : ℕ} {object : Object}
    (hclock : now ≤ w.shared.clock + m.elapsed)
    (hobject : object ∈ (exec m w.shared r).1.bucket.rows)
    (hold : (object.lastModified : ℤ) ≤ (now : ℤ) - GRACE_MS) :
    object ∈ w.shared.bucket.rows := by
  rcases bucket_exec m w.shared r object hobject with ⟨_,hmodified⟩ | hmem
  · have hpos : (0 : ℤ) < GRACE_MS := by decide
    omega
  · exact hmem

private theorem clocked_listsAll (h : Clocked w.shared w.log)
    (hr : asks (transcript w.log i) r) {folder : Folder}
    {continuation : Option Place} {page : Page} {now : ℕ}
    (hx : Said (⟨i,job,r,(exec m w.shared r).2⟩ :: w.log) j (.listPage folder continuation)
      (.ok page))
    (hnow : Said (⟨i,job,r,(exec m w.shared r).2⟩ :: w.log) j .dateNow (.ok now))
    {object : Object} (hobject : object ∈ (exec m w.shared r).1.bucket.rows)
    (hold : (object.lastModified : ℤ) ≤ (now : ℤ) - GRACE_MS)
    (hfolder : object.key.folder = folder)
    (hafter : ∀ p ∈ continuation, p < object.key.place)
    (hupTo : page.truncated = true → ∀ p ∈ page.next, object.key.place ≤ p) :
    ⟨object.key,object.lastModified⟩ ∈ page.objects := by
  have hclock := clocked_clock h hnow
  rw [clock_exec] at hclock
  have hmem := old_object hclock hobject hold
  rcases said_exec hx with ⟨_,_,hanswer⟩ | hpast
  · obtain rfl := Except.ok.inj (answer_of_ok hanswer)
    subst hfolder
    exact mem_page hmem hafter hupTo
  · rcases said_exec hnow with ⟨rfl,rfl,_⟩ | hnow'
    · exact (hr _ hpast trivial).elim
    · exact h.listsAll j folder continuation page now hpast hnow' object hmem hold hfolder hafter
        hupTo

private theorem swept_cases (hr : asks (transcript w.log i) r)
    {recordings shares : List Key} {now : ℕ}
    (hswept : Swept (transcript (⟨i,job,r,(exec m w.shared r).2⟩ :: w.log) j) recordings shares
      now) :
    Swept (transcript w.log j) recordings shares now ∨
      j = i ∧ r = .dateNow ∧ now = w.shared.clock + m.elapsed ∧
        Said w.log i .selectRecordingKeys (.ok recordings) ∧
        Said w.log i .selectShareKeys (.ok shares) := by
  have hrecordings : Said (⟨i,job,r,(exec m w.shared r).2⟩ :: w.log) j .selectRecordingKeys
    (.ok recordings) := hswept.recordings
  have hshares : Said (⟨i,job,r,(exec m w.shared r).2⟩ :: w.log) j .selectShareKeys (.ok shares) :=
    hswept.shares
  have hnow : Said (⟨i,job,r,(exec m w.shared r).2⟩ :: w.log) j .dateNow (.ok now) := hswept.now
  rcases said_exec hnow with ⟨rfl,rfl,hanswer⟩ | hnow'
  · exact .inr ⟨rfl,rfl,dateNow_ok hanswer,hrecordings.old (by simp),hshares.old (by simp)⟩
  · rcases said_exec hrecordings with ⟨rfl,rfl,_⟩ | hrecordings'
    · exact (hr _ hnow' trivial).elim
    · rcases said_exec hshares with ⟨rfl,rfl,_⟩ | hshares'
      · exact (hr _ hnow' trivial).elim
      · exact .inl ⟨hrecordings',hshares',hnow'⟩

private theorem judged_unnamed (h : Judged w.shared w.log) (hi : w.asks? i = some r)
    (hr : asks (transcript w.log i) r) (htime : inTime w (.step i m) = true)
    (hrows : readsRows w (.step i m) = true) {recordings shares : List Key} {now : ℕ}
    (hswept : Swept (transcript (⟨i,job,r,(exec m w.shared r).2⟩ :: w.log) j) recordings shares now)
    {object : Object} (hobject : object ∈ (exec m w.shared r).1.bucket.rows)
    (hold : (object.lastModified : ℤ) ≤ (now : ℤ) - GRACE_MS)
    (hunclaimed : object.key ∉ recordings ++ shares) : ¬ (exec m w.shared r).1.Names object.key := by
  rcases swept_cases hr hswept with hbefore | ⟨rfl,rfl,rfl,hrecordings,hshares⟩
  · have hclock := h.clock j now hbefore.now
    have hmem := old_object (hclock.trans (Nat.le_add_right _ _)) hobject hold
    exact unnamed_stays hi htime (h.times object hmem) hbefore hold hclock
      (h.unnamed j recordings shares now hbefore object hmem hold hunclaimed)
  · have hmem := old_object (le_refl _) hobject hold
    have hbefore : ¬ w.shared.Names object.key := by
      intro hnames
      simp only [readsRows,hi] at hrows
      have hread := List.all_eq_true.mp hrows object hmem
      rw [names_iff.mpr hnames] at hread
      simp only [Bool.not_true,Bool.false_or,Bool.or_eq_true,decide_eq_true_eq,List.all_eq_true]
        at hread
      rcases hread with hrecent | hall
      · exact absurd hold (not_le.mpr hrecent)
      · exact hunclaimed (hall _ (mem_claims hrecordings hshares))
    intro h'
    rcases names_exec h' with hnames | hnew
    · exact hbefore hnames
    · cases hnew

private theorem judged_judged (h : Judged w.shared w.log) (hi : w.asks? i = some r)
    (hr : asks (transcript w.log i) r) (htime : inTime w (.step i m) = true)
    {recordings shares : List Key} {now : ℕ} {folder : Folder} {object : StoredObject}
    (hswept : Swept (transcript (⟨i,job,r,(exec m w.shared r).2⟩ :: w.log) j) recordings shares now)
    (hlisted : Listed (transcript (⟨i,job,r,(exec m w.shared r).2⟩ :: w.log) j) folder object)
    (habandoned : Abandoned recordings shares now object) :
    (object.key,object.lastModified) ∈ (exec m w.shared r).1.written ∧
      ¬ (exec m w.shared r).1.Names object.key := by
  obtain ⟨continuation,page,hx,ho⟩ := hlisted
  have hpage : Said (⟨i,job,r,(exec m w.shared r).2⟩ :: w.log) j (.listPage folder continuation)
    (.ok page) := hx
  rcases swept_cases hr hswept with hbefore | ⟨rfl,rfl,_,_,_⟩
  · have hknown : (object.key,object.lastModified) ∈ w.shared.written ∧
        ¬ w.shared.Names object.key := by
      rcases said_exec hpage with ⟨_,_,hanswer⟩ | hpast
      · obtain ⟨stored,hstored,hkey,hmodified⟩ := listPage_ok hanswer ho
        rw [← hkey,← hmodified]
        refine ⟨h.times stored hstored,?_⟩
        apply h.unnamed j recordings shares now hbefore stored hstored
        · rw [hmodified]
          exact habandoned.2
        · rw [hkey]
          exact habandoned.1
      · exact h.judged j recordings shares now folder object hbefore ⟨continuation,page,hpast,ho⟩
          habandoned
    exact ⟨written_exec m w.shared r hknown.1,unnamed_stays hi htime hknown.1 hbefore habandoned.2
      (h.clock j now hbefore.now) hknown.2⟩
  · exact (hr _ (hpage.old (by simp)) trivial).elim

theorem clocked_step (h : Clocked w.shared w.log) (hr : asks (transcript w.log i) r) :
    Clocked (exec m w.shared r).1 (⟨i,job,r,(exec m w.shared r).2⟩ :: w.log) where
  toTraced := traced_step h.toTraced hr
  times := clocked_times h
  clock := fun _ _ hx => clocked_clock h hx
  honest := fun _ _ _ _ hx => clocked_honest h hx
  listsAll := fun _ _ _ _ _ hx hnow _ hobject hold hfolder hafter hupTo =>
    clocked_listsAll h hr hx hnow hobject hold hfolder hafter hupTo

theorem judged_step (h : Judged w.shared w.log) (hi : w.asks? i = some r)
    (hr : asks (transcript w.log i) r) (htime : inTime w (.step i m) = true)
    (hrows : readsRows w (.step i m) = true) :
    Judged (exec m w.shared r).1 (⟨i,job,r,(exec m w.shared r).2⟩ :: w.log) where
  toClocked := clocked_step h.toClocked hr
  unnamed := fun _ _ _ _ hswept _ hobject hold hunclaimed =>
    judged_unnamed h hi hr htime hrows hswept hobject hold hunclaimed
  judged := fun _ _ _ _ _ _ hswept hlisted habandoned =>
    judged_judged h hi hr htime hswept hlisted habandoned

end

theorem clocked_empty : Clocked emptyStore [] := by
  refine ⟨traced_empty,?_,?_,?_,?_⟩
  · intro object hobject
    cases hobject
  · intro i now hx
    cases hx
  · intro i folder continuation page hx
    cases hx
  · intro i folder continuation page now hx
    cases hx

theorem clocked_after (as : List (Act Job Moment)) :
    Clocked (system.after fresh as).shared (system.after fresh as).log := by
  have hall : Along system.act (fun _ _ => True) fresh as := along_true system.act fresh as
  apply behaviour.invariant_after (fun _ _ => True) (fun _ _ _ => trivial) Clocked _
    (behaviour.follows_init emptyStore) (fun _ _ _ => trivial) clocked_empty hall
  intro w i job m r next _ _ _ _ hr h
  exact clocked_step h hr.asks

theorem judged_after {as : List (Act Job Moment)}
    (h : Along system.act (fun w a => inTime w a && readsRows w a) fresh as) :
    Judged (system.after fresh as).shared (system.after fresh as).log := by
  refine behaviour.invariant_after (fun _ _ => True) (fun _ _ _ => trivial) Judged ?_
    (behaviour.follows_init emptyStore) (fun _ _ _ => trivial) ⟨clocked_empty,?_,?_⟩ h
  · intro w i job m r next _ hok hi _ hr hjudged
    obtain ⟨htime,hrows⟩ := (Bool.and_eq_true _ _).mp hok
    exact judged_step hjudged (World.asks?_eq_some.mpr ⟨job,next,hi⟩) hr.asks htime hrows
  · intro i recordings shares now hswept
    cases hswept.now
  · intro i recordings shares now folder object hswept
    cases hswept.now

/-- What a sweep has said it did: what it has deleted and failed to delete is counted, every object
that no row claimed and that is older than the window is gone, counted as failed, or left because
the ceiling was reached, and the sweep says so just when it has left one untried. -/
structure Complete (w : Server) (i : ℕ) (result : SweepResult) (recordings shares : List Key)
    (now : ℕ) : Prop where
  swept : Swept (transcript w.log i) recordings shares now
  deleted : result.deleted = (transcript w.log i).countP deletedWell
  failed : result.failed = (transcript w.log i).countP deletedBadly
  remaining : ∀ object ∈ w.shared.bucket.rows, object.key ∉ recordings ++ shares →
    (object.lastModified : ℤ) ≤ (now : ℤ) - GRACE_MS →
      (∃ e, Said w.log i (.deleteObject object.key false) (.error e)) ∨
        result.truncated = true ∧ MAX_DELETES ≤ result.deleted + result.failed
  truncated : result.truncated = true ↔ ∃ folder object,
    Listed (transcript w.log i) folder object ∧ Abandoned recordings shares now object ∧
      ∀ x, ¬ Said w.log i (.deleteObject object.key false) x

section

variable {k : Heard} {key : Key}

theorem mem_tried : key ∈ tried k ↔ ∃ x, k.Has (.deleteObject key false) x := by
  induction k with
  | nil =>
    constructor
    · intro h
      cases h
    · rintro ⟨x,hx⟩
      cases hx
  | cons a k ih =>
    rw [tried,List.mem_append,ih]
    constructor
    · rintro (⟨x,hx⟩ | ha)
      · exact ⟨x,List.mem_cons_of_mem a hx⟩
      · unfold triedOf at ha
        split at ha
        · rw [List.mem_singleton.mp ha]
          exact ⟨_,List.mem_cons_self⟩
        · cases ha
    · rintro ⟨x,hx⟩
      rcases List.mem_cons.mp hx with rfl | hx
      · exact .inr (List.mem_singleton_self key)
      · exact .inl ⟨x,hx⟩

theorem SweptKey.grows {l : Heard} (h : SweptKey k key) (hl : k.Grows l) : SweptKey l key := by
  obtain ⟨recordings,shares,now,folder,object,hswept,habandoned,⟨continuation,page,hpage,ho⟩,he⟩ := h
  exact ⟨recordings,shares,now,folder,object,hswept.grows hl,habandoned,
    ⟨continuation,page,hl _ _ hpage,ho⟩,he⟩

private theorem mem_judged {recordings shares : List Key} {now : ℕ} {object : StoredObject} :
    object ∈ judged recordings shares now (listed k) ↔
      (∃ folder, Listed k folder object) ∧ Abandoned recordings shares now object := by
  rw [judged,List.mem_filter,mem_listed,decide_eq_true_eq]

end

section

variable {as : List (Act Job Moment)} {i : ℕ} {result : SweepResult} {recordings shares : List Key}
  {now : ℕ} {left : List StoredObject}

private theorem remaining_of_completed
    (h : Completed false recordings shares now (transcript (system.after fresh as).log i) result left)
    {object : Object} (hobject : object ∈ (system.after fresh as).shared.bucket.rows)
    (hunclaimed : object.key ∉ recordings ++ shares)
    (hold : (object.lastModified : ℤ) ≤ (now : ℤ) - GRACE_MS) :
    (∃ e, Said (system.after fresh as).log i (.deleteObject object.key false) (.error e)) ∨
      result.truncated = true ∧ MAX_DELETES ≤ result.deleted + result.failed := by
  have hclocked := clocked_after as
  obtain ⟨done,horder,htried,_⟩ := h.progress.order
  cases ht : result.truncated with
  | true => exact .inr ⟨rfl,h.ceiling ht⟩
  | false =>
    left
    have hleft : left = [] := by
      by_contra hne
      rw [h.truncated.mpr hne] at ht
      cases ht
    obtain ⟨continuation,page,hpage,hafter,hupTo⟩ := h.covered ht object.key.folder object.key.place
    have ho := hclocked.listsAll i _ continuation page now hpage h.progress.swept.now object hobject
      hold rfl hafter hupTo
    have hmem : (⟨object.key,object.lastModified⟩ : StoredObject) ∈ done := by
      have hjudged := mem_judged.mpr ⟨⟨object.key.folder,continuation,page,hpage,ho⟩,
        ⟨hunclaimed,hold⟩⟩
      rw [horder,hleft,List.append_nil] at hjudged
      exact hjudged
    have hkey : object.key ∈ tried (transcript (system.after fresh as).log i) := by
      rw [htried]
      exact List.mem_map.mpr ⟨_,hmem,rfl⟩
    obtain ⟨x,hx⟩ := mem_tried.mp hkey
    cases x with
    | error e => exact ⟨e,hx⟩
    | ok x =>
      have hgone := hclocked.gone object.key ⟨i,.inr hx⟩
      rw [Table.get?_of_mem hobject] at hgone
      cases hgone

private theorem truncated_of_completed
    (h : Completed false recordings shares now (transcript (system.after fresh as).log i) result
      left) :
    result.truncated = true ↔ ∃ folder object,
      Listed (transcript (system.after fresh as).log i) folder object ∧
        Abandoned recordings shares now object ∧
        ∀ x, ¬ Said (system.after fresh as).log i (.deleteObject object.key false) x := by
  obtain ⟨done,horder,htried,_⟩ := h.progress.order
  rw [h.truncated]
  constructor
  · intro hne
    obtain ⟨object,rest,rfl⟩ := List.exists_cons_of_ne_nil hne
    have hjudged : object ∈ judged recordings shares now
        (listed (transcript (system.after fresh as).log i)) := by
      rw [horder]
      exact List.mem_append_right done List.mem_cons_self
    obtain ⟨⟨folder,hlisted⟩,habandoned⟩ := mem_judged.mp hjudged
    refine ⟨folder,object,hlisted,habandoned,?_⟩
    intro x hx
    -- every key was listed once
    have hdistinct := h.distinct ((clocked_after as).honest i)
    have hsub : ((done ++ object :: rest).map (·.key)).Nodup := by
      rw [← horder]
      exact hdistinct.sublist (List.filter_sublist.map _)
    rw [List.map_append,← htried,List.map_cons] at hsub
    exact (List.nodup_append.mp hsub).2.2 _ (mem_tried.mpr ⟨x,hx⟩) _ List.mem_cons_self rfl
  · rintro ⟨folder,object,hlisted,habandoned,hnever⟩ hnone
    have hjudged := mem_judged.mpr ⟨⟨folder,hlisted⟩,habandoned⟩
    rw [horder,hnone,List.append_nil] at hjudged
    have hkey : object.key ∈ tried (transcript (system.after fresh as).log i) := by
      rw [htried]
      exact List.mem_map.mpr ⟨object,hjudged,rfl⟩
    obtain ⟨x,hx⟩ := mem_tried.mp hkey
    exact hnever x hx

end

/-- A sweep never deletes an object that a row names or comes to name, and says what it did. -/
structure SweepsWell (w : Server) : Prop where
  spares : ∀ i t key x, w.threads[i]? = some t → t.job.Sweeps →
    Said w.log i (.deleteObject key false) x → ¬ w.shared.Names key
  complete : ∀ i sharesFirst pages result,
    (w.threads[i]?).map (·.job) = some (.sweep true false sharesFirst pages) →
      w.result? i = some (.ok (.swept result)) →
        ∃ recordings shares now, Complete w i result recordings shares now
  dry : ∀ i bucket sharesFirst pages result,
    (w.threads[i]?).map (·.job) = some (.sweep bucket true sharesFirst pages) →
      w.result? i = some (.ok (.swept result)) →
        ∀ key x, ¬ Said w.log i (.deleteObject key false) x

theorem sweep_complete (as : List (Act Job Moment)) {i pages : ℕ} {sharesFirst : Bool}
    {result : SweepResult}
    (hjob : ((system.after fresh as).threads[i]?).map (·.job) =
      some (.sweep true false sharesFirst pages))
    (hresult : (system.after fresh as).result? i = some (.ok (.swept result))) :
    ∃ recordings shares now, Complete (system.after fresh as) i result recordings shares now := by
  obtain ⟨t,ht,hpost⟩ := behaviour.post_of_follows (follows_run as) hresult
  have hsame : t.job = .sweep true false sharesFirst pages := by
    rw [ht] at hjob
    exact Option.some.inj hjob
  rw [hsame] at hpost
  obtain ⟨recordings,shares,now,left,h⟩ := hpost result rfl
  obtain ⟨_,_,_,hdeleted,hfailed⟩ := h.progress.order
  exact ⟨recordings,shares,now,h.progress.swept,hdeleted,hfailed,
    fun _ hobject hunclaimed hold => remaining_of_completed h hobject hunclaimed hold,
    truncated_of_completed h⟩

/-- In every run in which rows are inserted within the window and every row whose object is older
than the window when a sweep reads the clock has been read by it, sweeps spare what rows name and
account for what they did. -/
theorem sweeps_well (as : List (Act Job Moment))
    (h : Along system.act (fun w a => inTime w a && readsRows w a) fresh as) :
    SweepsWell (system.after fresh as) where
  spares := by
    intro i t key x ht hsweeps hx
    obtain ⟨newer,older,he,hmay⟩ := (behaviour.allowed_after emptyStore as ht).of_mem hx
    have hgrows : Heard.Grows older (transcript (system.after fresh as).log i) := by
      intro r y hy
      rw [show transcript (system.after fresh as).log i = newer ++ _ :: older from he]
      exact List.mem_append_right newer (List.mem_cons_of_mem _ hy)
    have hkey : SweptKey older key := hmay.fits hsweeps
    obtain ⟨recordings,shares,now,folder,object,hswept,habandoned,hlisted,rfl⟩ := hkey.grows hgrows
    exact ((judged_after h).judged i recordings shares now folder object hswept hlisted habandoned).2
  complete := fun _ _ _ _ hjob hresult => sweep_complete as hjob hresult
  dry := by
    intro i bucket sharesFirst pages result hjob hresult key x hx
    obtain ⟨t,ht,hpost⟩ := behaviour.post_of_follows (follows_run as) hresult
    have hsame : t.job = .sweep bucket true sharesFirst pages := by
      rw [ht] at hjob
      exact Option.some.inj hjob
    rw [hsame] at hpost
    have hend := hpost result rfl
    cases bucket with
    | true =>
      obtain ⟨recordings,shares,now,left,hcompleted⟩ := hend
      obtain ⟨_,_,htried,_⟩ := hcompleted.progress.order
      have hkey : key ∈ tried (transcript (system.after fresh as).log i) := mem_tried.mpr ⟨x,hx⟩
      have hnone : tried (transcript (system.after fresh as).log i) = [] := htried
      rw [hnone] at hkey
      cases hkey
    | false =>
      have hnone : transcript (system.after fresh as).log i = [] := hend.2
      unfold Said Heard.Has at hx
      rw [hnone] at hx
      cases hx

def later (elapsed : ℕ) : Moment := { calm with elapsed }

/-- An object was written and its request failed; an hour later it is swept. -/
def orphaned : List (Act Job Moment) :=
  .start (.save true (some "owner") (.fields ⟨some "blob",some 1000,some 0,.missing,none⟩)) ::
    calmly 0 5 ++ [.step 0 { calm with fate := .lost }] ++
  .start (.sweep true false false 5) :: .step 1 (later 3600000) :: calmly 1 5

theorem orphaned_swept :
    (system.after fresh orphaned).result? 1 = some (.ok (.swept ⟨true,1,0,0,false⟩)) ∧
      SweepsWell (system.after fresh orphaned) :=
  ⟨rfl,sweeps_well orphaned (by decide +kernel)⟩

/-- The row is inserted just within the window, after the sweep has read the rows; the sweep reads
the clock just after the window has passed. -/
def rowBeforeClock : List (Act Job Moment) :=
  .start (.save true (some "owner") (.fields ⟨some "blob",some 1000,some 0,.missing,none⟩)) ::
    calmly 0 6 ++
  .start (.sweep true false false 5) :: .step 1 (later 3599999) :: calmly 1 1 ++ calmly 0 1 ++
  .step 1 (later 1) :: calmly 1 3

/-- The sweep deletes the object of a recording that has its row. -/
theorem sweep_takes_named :
    Along system.act (fun w a => inTime w a) fresh rowBeforeClock ∧
      ¬ SweepsWell (system.after fresh rowBeforeClock) := by
  refine ⟨by decide +kernel,?_⟩
  intro h
  have hnames : (system.after fresh rowBeforeClock).shared.names (recordingKey "owner" 0) = true := by
    decide +kernel
  have hdeleted : Said (system.after fresh rowBeforeClock).log 1
      (.deleteObject (recordingKey "owner" 0) false) (.ok ()) :=
    List.mem_of_getElem? (i := 1) rfl
  exact h.spares 1 _ (recordingKey "owner" 0) (.ok ()) rfl trivial hdeleted (names_iff.mp hnames)

end WeirdVault.Shares
