import WeirdVault.Shares.Asks

/-!
# What the sweep has heard

The sweep reads every page of its two folders, and tries the abandoned objects on them in the order
in which they are listed.
-/

namespace WeirdVault.Shares

open WeirdVault.Framework Program

def objectsOf : (r : Request) × r.Ans → List StoredObject
  | ⟨.listPage _ _,.ok page⟩ => page.objects
  | _ => []

def listed : Heard → List StoredObject
  | [] => []
  | a :: k => listed k ++ objectsOf a

/-- A page that was read covers the place. -/
def Covered (k : Heard) (folder : Folder) (place : Place) : Prop :=
  ∃ continuation page, k.Has (.listPage folder continuation) (.ok page) ∧
    (∀ p ∈ continuation, p < place) ∧ (page.truncated = true → ∀ p ∈ page.next, place ≤ p)

/-- The page has objects of its folder only, each one once, between where it goes on from and where
it ends. -/
structure Page.Honest (page : Page) (folder : Folder) (continuation : Option Place) : Prop where
  folder : ∀ object ∈ page.objects, object.key.folder = folder
  after : ∀ object ∈ page.objects, ∀ p ∈ continuation, p < object.key.place
  upTo : ∀ object ∈ page.objects, ∀ p ∈ page.next, object.key.place ≤ p
  onward : ∀ p ∈ continuation, ∀ n ∈ page.next, p < n
  nodup : (page.objects.map (·.key)).Nodup

def Honestly (k : Heard) : Prop :=
  ∀ folder continuation page, k.Has (.listPage folder continuation) (.ok page) →
    page.Honest folder continuation

structure Paged (k : Heard) (seen : List Folder) : Prop where
  covered : ∀ folder ∈ seen, ∀ place, Covered k folder place
  distinct : Honestly k → ((listed k).map (·.key)).Nodup
  folders : Honestly k → ∀ object ∈ listed k, object.key.folder ∈ seen

structure Paging (k : Heard) (seen : List Folder) (folder : Folder) (continuation : Option Place) :
    Prop where
  covered : ∀ folder ∈ seen, ∀ place, Covered k folder place
  reached : ∀ place, (∀ p ∈ continuation, p < place) ∨ Covered k folder place
  distinct : Honestly k → ((listed k).map (·.key)).Nodup
  behind : Honestly k → ∀ object ∈ listed k, object.key.folder ∈ seen ∨
    object.key.folder = folder ∧ ∃ p ∈ continuation, object.key.place ≤ p

section

variable {k l : Heard} {seen : List Folder} {folder : Folder} {continuation : Option Place}

theorem mem_listed {object : StoredObject} : object ∈ listed k ↔ ∃ folder, Listed k folder object := by
  induction k with
  | nil =>
    constructor
    · intro h
      cases h
    · rintro ⟨folder,continuation,page,h,_⟩
      cases h
  | cons a k ih =>
    rw [listed,List.mem_append,ih]
    constructor
    · rintro (⟨folder,continuation,page,h,ho⟩ | ho)
      · exact ⟨folder,continuation,page,List.mem_cons_of_mem a h,ho⟩
      · unfold objectsOf at ho
        split at ho
        · exact ⟨_,_,_,has_self _,ho⟩
        · cases ho
    · rintro ⟨folder,continuation,page,h,ho⟩
      rcases List.mem_cons.mp h with rfl | h
      · exact .inr ho
      · exact .inl ⟨folder,continuation,page,h,ho⟩

theorem Covered.grows {place : Place} (h : Covered k folder place) (hl : k.Grows l) :
    Covered l folder place := by
  obtain ⟨continuation,page,hpage,hcovers⟩ := h
  exact ⟨continuation,page,hl _ _ hpage,hcovers⟩

theorem Paging.start (h : Paged k seen) : Paging k seen folder none where
  covered := h.covered
  reached := fun _ => .inl (fun _ hp => by cases hp)
  distinct := h.distinct
  behind := fun hk object ho => .inl (h.folders hk object ho)

private theorem honestly_of_cons {a : (r : Request) × r.Ans} (h : Honestly (a :: k)) : Honestly k :=
  fun folder continuation page hpage => h folder continuation page (List.mem_cons_of_mem a hpage)

private theorem distinct_page {page : Page} (h : Paging k seen folder continuation)
    (hseen : folder ∉ seen)
    (hk : Honestly (⟨.listPage folder continuation,.ok page⟩ :: k)) :
    ((listed (⟨.listPage folder continuation,.ok page⟩ :: k)).map (·.key)).Nodup := by
  have hpage := hk folder continuation page (has_self _)
  rw [listed,List.map_append]
  refine (h.distinct (honestly_of_cons hk)).append hpage.nodup ?_
  intro key hold hnew
  obtain ⟨old,ho,rfl⟩ := List.mem_map.mp hold
  obtain ⟨new,hn,he⟩ := List.mem_map.mp hnew
  have hfolder := hpage.folder new hn
  change new.key = old.key at he
  rw [he] at hfolder
  rcases h.behind (honestly_of_cons hk) old ho with hs | ⟨_,p,hp,hle⟩
  · exact hseen (hfolder ▸ hs)
  · have hlt := hpage.after new hn p hp
    rw [he] at hlt
    exact absurd hlt (not_lt.mpr hle)

theorem Paging.next {page : Page} {n : Place} (h : Paging k seen folder continuation)
    (hseen : folder ∉ seen) (hnext : page.next = some n) :
    Paging (⟨.listPage folder continuation,.ok page⟩ :: k) seen folder (some n) where
  covered := fun f hf place => (h.covered f hf place).grows (grows_cons _ _)
  reached := by
    intro place
    rcases lt_or_ge n place with hlt | hge
    · exact .inl (fun p hp => by cases hp; exact hlt)
    · rcases h.reached place with hafter | hcovered
      · refine .inr ⟨continuation,page,has_self _,hafter,?_⟩
        intro _ p hp
        rw [hnext] at hp
        cases hp
        exact hge
      · exact .inr (hcovered.grows (grows_cons _ _))
  distinct := distinct_page h hseen
  behind := by
    intro hk object ho
    have hpage := hk folder continuation page (has_self _)
    rcases List.mem_append.mp ho with ho | ho
    · rcases h.behind (honestly_of_cons hk) object ho with hs | ⟨hf,p,hp,hle⟩
      · exact .inl hs
      · exact .inr ⟨hf,n,rfl,hle.trans (hpage.onward p hp n hnext).le⟩
    · exact .inr ⟨hpage.folder object ho,n,rfl,hpage.upTo object ho n hnext⟩

theorem Paging.last {page : Page} (h : Paging k seen folder continuation) (hseen : folder ∉ seen)
    (hlast : page.truncated = true → page.next = none) :
    Paged (⟨.listPage folder continuation,.ok page⟩ :: k) (folder :: seen) where
  covered := by
    intro f hf place
    rcases List.mem_cons.mp hf with rfl | hf
    · rcases h.reached place with hafter | hcovered
      · refine ⟨continuation,page,has_self _,hafter,?_⟩
        intro ht p hp
        rw [hlast ht] at hp
        cases hp
      · exact hcovered.grows (grows_cons _ _)
    · exact (h.covered f hf place).grows (grows_cons _ _)
  distinct := distinct_page h hseen
  folders := by
    intro hk object ho
    have hpage := hk folder continuation page (has_self _)
    rcases List.mem_append.mp ho with ho | ho
    · rcases h.behind (honestly_of_cons hk) object ho with hs | ⟨hf,_⟩
      · exact List.mem_cons_of_mem folder hs
      · exact hf ▸ List.mem_cons_self
    · exact hpage.folder object ho ▸ List.mem_cons_self

private theorem listed_cons {r : Request} (hr : ¬ Lists r) (x : r.Ans) :
    listed (⟨r,x⟩ :: k) = listed k := by
  have hnone : objectsOf ⟨r,x⟩ = [] := by
    cases r with
    | listPage folder continuation => exact (hr trivial).elim
    | _ => rfl
  rw [listed,hnone,List.append_nil]

theorem Paged.cons {r : Request} (h : Paged k seen) (hr : ¬ Lists r) (x : r.Ans) :
    Paged (⟨r,x⟩ :: k) seen := by
  have hlisted : listed (⟨r,x⟩ :: k) = listed k := listed_cons hr x
  refine ⟨fun f hf place => (h.covered f hf place).grows (grows_cons _ _),?_,?_⟩
  · intro hk
    rw [hlisted]
    exact h.distinct (honestly_of_cons hk)
  · intro hk
    rw [hlisted]
    exact h.folders (honestly_of_cons hk)

end

def triedOf : (r : Request) × r.Ans → List Key
  | ⟨.deleteObject key false,_⟩ => [key]
  | _ => []

/-- The objects that the thread has tried to delete, first one first. -/
def tried : Heard → List Key
  | [] => []
  | a :: k => tried k ++ triedOf a

def deletedWell : (r : Request) × r.Ans → Bool
  | ⟨.deleteObject _ false,.ok _⟩ => true
  | _ => false

def deletedBadly : (r : Request) × r.Ans → Bool
  | ⟨.deleteObject _ false,.error _⟩ => true
  | _ => false

instance {recordings shares : List Key} {now : ℕ} :
    DecidablePred (Abandoned recordings shares now) := fun object =>
  inferInstanceAs (Decidable (object.key ∉ recordings ++ shares ∧
    (object.lastModified : ℤ) ≤ (now : ℤ) - GRACE_MS))

def judged (recordings shares : List Key) (now : ℕ) (objects : List StoredObject) :
    List StoredObject := objects.filter (Abandoned recordings shares now)

/-- A sweep counts what came of each object; a dry run tries none and counts them all. -/
def Accounts (dryRun : Bool) (k : Heard) (done : List StoredObject) (result : SweepResult) : Prop :=
  if dryRun then tried k = [] ∧ result.deleted = done.length ∧ result.failed = 0
  else tried k = done.map (·.key) ∧ result.deleted = k.countP deletedWell ∧
    result.failed = k.countP deletedBadly

/-- The sweep has dealt with the first of the abandoned objects on its pages; these are left. -/
structure Progress (dryRun : Bool) (recordings shares : List Key) (now : ℕ) (k : Heard)
    (result : SweepResult) (left : List StoredObject) : Prop where
  swept : Swept k recordings shares now
  applicable : result.applicable = true
  order : ∃ done, judged recordings shares now (listed k) = done ++ left ∧
    Accounts dryRun k done result

structure Completed (dryRun : Bool) (recordings shares : List Key) (now : ℕ) (k : Heard)
    (result : SweepResult) (left : List StoredObject) : Prop where
  progress : Progress dryRun recordings shares now k result left
  truncated : result.truncated = true ↔ left ≠ []
  ceiling : result.truncated = true → MAX_DELETES ≤ result.deleted + result.failed
  covered : result.truncated = false → ∀ folder place, Covered k folder place
  distinct : Honestly k → ((listed k).map (·.key)).Nodup

section

variable {dryRun bucket sharesFirst : Bool} {pages : ℕ} {recordings shares : List Key} {now : ℕ}
  {k l : Heard} {result : SweepResult} {object : StoredObject} {left objects : List StoredObject}
  {seen : List Folder}

theorem Swept.grows (h : Swept k recordings shares now) (hl : k.Grows l) :
    Swept l recordings shares now :=
  ⟨hl _ _ h.recordings,hl _ _ h.shares,hl _ _ h.now⟩

theorem Progress.sweptKey (h : Progress dryRun recordings shares now k result (object :: left)) :
    SweptKey k object.key := by
  obtain ⟨done,horder,_⟩ := h.order
  have hmem : object ∈ judged recordings shares now (listed k) := by
    rw [horder]
    exact List.mem_append_right done List.mem_cons_self
  obtain ⟨hlisted,habandoned⟩ := List.mem_filter.mp hmem
  obtain ⟨folder,hlisted⟩ := mem_listed.mp hlisted
  exact ⟨recordings,shares,now,folder,object,h.swept,of_decide_eq_true habandoned,hlisted,rfl⟩

private theorem Progress.well (h : Progress false recordings shares now k result (object :: left)) :
    Progress false recordings shares now (⟨.deleteObject object.key false,.ok ()⟩ :: k)
      { result with deleted := result.deleted + 1 } left := by
  obtain ⟨done,horder,htried,hdeleted,hfailed⟩ := h.order
  refine ⟨h.swept.grows (grows_cons _ _),h.applicable,done ++ [object],?_,?_,?_,?_⟩
  · rw [listed_cons id,horder]
    simp
  · simp [tried,triedOf,htried]
  · rw [List.countP_cons_of_pos rfl,hdeleted]
  · rw [List.countP_cons_of_neg Bool.false_ne_true,hfailed]

private theorem Progress.badly (h : Progress false recordings shares now k result (object :: left))
    (e : Thrown) :
    Progress false recordings shares now (⟨.deleteObject object.key false,.error e⟩ :: k)
      { result with failed := result.failed + 1 } left := by
  obtain ⟨done,horder,htried,hdeleted,hfailed⟩ := h.order
  refine ⟨h.swept.grows (grows_cons _ _),h.applicable,done ++ [object],?_,?_,?_,?_⟩
  · rw [listed_cons id,horder]
    simp
  · simp [tried,triedOf,htried]
  · rw [List.countP_cons_of_neg Bool.false_ne_true,hdeleted]
  · rw [List.countP_cons_of_pos rfl,hfailed]

private theorem Progress.dry (h : Progress true recordings shares now k result (object :: left)) :
    Progress true recordings shares now k { result with deleted := result.deleted + 1 } left := by
  obtain ⟨done,horder,htried,hdeleted,hfailed⟩ := h.order
  refine ⟨h.swept,h.applicable,done ++ [object],?_,htried,?_,hfailed⟩
  · rw [horder]
    simp
  · simp [hdeleted]

private def Stopped (dryRun : Bool) (recordings shares : List Key) (now : ℕ) (seen : List Folder)
    (l : Heard) (o : Except Thrown SweepResult) : Prop :=
  ∃ result left, o = .ok result ∧ Progress dryRun recordings shares now l result left ∧
    Paged l seen ∧ (result.truncated = true ↔ left ≠ []) ∧
    (result.truncated = true → MAX_DELETES ≤ result.deleted + result.failed)

private theorem judged_cons_of_not (h : ¬ Abandoned recordings shares now object) :
    judged recordings shares now (object :: objects) = judged recordings shares now objects :=
  List.filter_cons_of_neg (by simpa using h)

private theorem judged_cons (h : Abandoned recordings shares now object) :
    judged recordings shares now (object :: objects) =
      object :: judged recordings shares now objects :=
  List.filter_cons_of_pos (by simpa using h)

private theorem asks_sweepObjects (hopen : result.truncated = false)
    (h : Progress dryRun recordings shares now k result (judged recordings shares now objects))
    (hpaged : Paged k seen) :
    Asks (may (.sweep bucket dryRun sharesFirst pages)) (Stopped dryRun recordings shares now seen) k
      (sweepObjects dryRun (recordings ++ shares) ((now : ℤ) - GRACE_MS) objects result) := by
  induction objects generalizing k result with
  | nil => exact ⟨result,[],rfl,h,hpaged,by simp [hopen],by simp [hopen]⟩
  | cons object objects ih =>
    unfold sweepObjects
    simp only [pure_eq,bind_eq]
    by_cases hclaimed : object.key ∈ recordings ++ shares
    · rw [if_pos hclaimed]
      rw [judged_cons_of_not fun ha => ha.1 hclaimed] at h
      exact ih hopen h hpaged
    rw [if_neg hclaimed]
    by_cases hrecent : (now : ℤ) - GRACE_MS < object.lastModified
    · rw [if_pos hrecent]
      rw [judged_cons_of_not fun ha => absurd ha.2 (not_le.mpr hrecent)] at h
      exact ih hopen ⟨h.swept,h.applicable,h.order⟩ hpaged
    rw [if_neg hrecent]
    rw [judged_cons ⟨hclaimed,not_lt.mp hrecent⟩] at h
    by_cases hceiling : MAX_DELETES ≤ result.deleted + result.failed
    · rw [if_pos hceiling]
      refine ⟨_,_,rfl,⟨h.swept,h.applicable,h.order⟩,hpaged,?_,fun _ => hceiling⟩
      simp
    rw [if_neg hceiling]
    cases dryRun with
    | true => exact ih hopen h.dry hpaged
    | false =>
      refine (asks_ask _ _).mpr ⟨⟨.inr h.sweptKey,False.elim,fun _ => h.sweptKey⟩,?_⟩
      intro x
      cases x with
      | ok x => exact ih hopen h.well (hpaged.cons id _)
      | error e => exact ih hopen (h.badly e) (hpaged.cons id _)

private theorem Progress.page {folder : Folder} {continuation : Option Place} {page : Page}
    (h : Progress dryRun recordings shares now k result (judged recordings shares now objects)) :
    Progress dryRun recordings shares now (⟨.listPage folder continuation,.ok page⟩ :: k) result
      (judged recordings shares now (objects ++ page.objects)) := by
  obtain ⟨done,horder,haccounts⟩ := h.order
  refine ⟨h.swept.grows (grows_cons _ _),h.applicable,done,?_,?_⟩
  · have happend : ∀ xs ys, judged recordings shares now (xs ++ ys) =
        judged recordings shares now xs ++ judged recordings shares now ys :=
      fun xs ys => List.filter_append xs ys
    rw [listed,happend,happend,horder,List.append_assoc]
    rfl
  · have htried : tried (⟨.listPage folder continuation,.ok page⟩ :: k) = tried k :=
      List.append_nil _
    unfold Accounts at haccounts ⊢
    rw [htried,List.countP_cons_of_neg Bool.false_ne_true,
      List.countP_cons_of_neg Bool.false_ne_true]
    exact haccounts

private theorem asks_listPages {job : Job} {folder : Folder} {continuation : Option Place}
    (hseen : folder ∉ seen) (hpaging : Paging k seen folder continuation)
    (h : Progress dryRun recordings shares now k result (judged recordings shares now objects)) :
    Asks (may job) (fun l o => ∀ objects, o = .ok objects → Paged l (folder :: seen) ∧
      Progress dryRun recordings shares now l result (judged recordings shares now objects)) k
      (listPages folder pages continuation objects) := by
  induction pages generalizing k continuation objects with
  | zero =>
    intro _ he
    cases he
  | succ pages ih =>
    unfold listPages
    simp only [pure_eq,bind_eq]
    refine asks_call_bind ⟨⟨recordings,shares,now,h.swept⟩,False.elim,trivial⟩ ?_
      (fun _ _ he => by cases he)
    intro page
    split
    · rename_i n _ hnext
      exact ih (hpaging.next hseen hnext) h.page
    · rename_i hstop
      intro objects' he
      cases he
      refine ⟨hpaging.last hseen ?_,h.page⟩
      intro ht
      cases hnext : page.next with
      | none => rfl
      | some n => exact absurd hnext (hstop n ht)

private theorem asks_sweepFolders {folders : List Folder} (hopen : result.truncated = false)
    (hnodup : (folders ++ seen).Nodup)
    (hpaged : Paged k seen) (h : Progress dryRun recordings shares now k result []) :
    Asks (may (.sweep bucket dryRun sharesFirst pages)) (fun l o => ∀ result, o = .ok result →
      ∃ left, Progress dryRun recordings shares now l result left ∧
        (result.truncated = true ↔ left ≠ []) ∧
        (result.truncated = true → MAX_DELETES ≤ result.deleted + result.failed) ∧
        (result.truncated = false → ∀ folder ∈ folders ++ seen, ∀ place, Covered l folder place) ∧
        (Honestly l → ((listed l).map (·.key)).Nodup)) k
      (sweepFolders dryRun pages (recordings ++ shares) ((now : ℤ) - GRACE_MS) folders result) := by
  induction folders generalizing k result seen with
  | nil =>
    intro result' he
    cases he
    exact ⟨[],h,by simp [hopen],by simp [hopen],fun _ => hpaged.covered,hpaged.distinct⟩
  | cons folder folders ih =>
    have hseen : folder ∉ seen :=
      fun hf => (List.nodup_cons.mp hnodup).1 (List.mem_append_right folders hf)
    have hperm : (folders ++ folder :: seen).Perm (folder :: folders ++ seen) :=
      List.perm_middle
    unfold sweepFolders
    simp only [pure_eq,bind_eq]
    have hnone : Progress dryRun recordings shares now k result
        (judged recordings shares now []) := h
    refine (asks_listPages hseen (Paging.start hpaged) hnone).bind ?_ ?_
    · intro l objects hl
      obtain ⟨hpaged',hprogress⟩ := hl objects rfl
      refine (asks_sweepObjects hopen hprogress hpaged').bind ?_ ?_
      · rintro l' result' ⟨_,left,he,hprogress',hpaged'',htruncated,hceiling⟩
        cases he
        split
        · rename_i ht
          intro result'' he
          cases he
          exact ⟨left,hprogress',htruncated,hceiling,by simp [ht],hpaged''.distinct⟩
        · rename_i ht
          have hnone : left = [] := by
            by_contra hne
            exact ht (htruncated.mpr hne)
          subst hnone
          refine (ih (by simpa using ht) (hperm.nodup_iff.mpr hnodup) hpaged'' hprogress').mono ?_
          intro l'' o ho result'' he
          obtain ⟨left',hp,ht',hc,hcovered,hdistinct⟩ := ho result'' he
          exact ⟨left',hp,ht',hc,fun hf f hm => hcovered hf f (hperm.mem_iff.mpr hm),hdistinct⟩
      · rintro l' e ⟨_,_,he,_⟩
        cases he
    · intro l e _ _ he
      cases he

private def Claims (l : Heard) (recordings shares : List Key) : Prop :=
  l = [⟨.selectShareKeys,.ok shares⟩,⟨.selectRecordingKeys,.ok recordings⟩] ∨
    l = [⟨.selectRecordingKeys,.ok recordings⟩,⟨.selectShareKeys,.ok shares⟩]

private theorem asks_claimedKeys {job : Job} :
    Asks (may job) (fun l o => ∀ claimed, o = .ok claimed → ∃ recordings shares,
      claimed = recordings ++ shares ∧ Claims l recordings shares) [] (claimedKeys sharesFirst) := by
  cases sharesFirst with
  | true =>
    refine asks_call_bind ⟨never_nil,False.elim,trivial⟩ ?_ (fun _ _ he => by cases he)
    intro shares
    refine asks_call_bind ⟨never_nil.cons id _,False.elim,trivial⟩ ?_ (fun _ _ he => by cases he)
    intro recordings claimed he
    cases he
    exact ⟨recordings,shares,rfl,.inr rfl⟩
  | false =>
    refine asks_call_bind ⟨never_nil,False.elim,trivial⟩ ?_ (fun _ _ he => by cases he)
    intro recordings
    refine asks_call_bind ⟨never_nil.cons id _,False.elim,trivial⟩ ?_ (fun _ _ he => by cases he)
    intro shares claimed he
    cases he
    exact ⟨recordings,shares,rfl,.inl rfl⟩

private theorem paged_of_claims (h : Claims l recordings shares) (now : ℕ) :
    Paged (⟨.dateNow,.ok now⟩ :: l) [] := by
  have hnone : listed (⟨.dateNow,.ok now⟩ :: l) = [] := by
    rcases h with rfl | rfl <;> rfl
  constructor
  · intro f hf
    cases hf
  · intro _
    rw [hnone]
    exact List.nodup_nil
  · intro _ object ho
    rw [hnone] at ho
    cases ho

private theorem progress_of_claims (h : Claims l recordings shares) (now : ℕ) :
    Progress dryRun recordings shares now (⟨.dateNow,.ok now⟩ :: l) ⟨true,0,0,0,false⟩ [] := by
  have hswept : Swept (⟨.dateNow,.ok now⟩ :: l) recordings shares now := by
    rcases h with rfl | rfl
    · exact ⟨((has_self _).cons _).cons _,(has_self _).cons _,has_self _⟩
    · exact ⟨(has_self _).cons _,((has_self _).cons _).cons _,has_self _⟩
  refine ⟨hswept,rfl,[],?_,?_⟩
  · rcases h with rfl | rfl <;> rfl
  · unfold Accounts
    rcases h with rfl | rfl <;> cases dryRun <;> exact ⟨rfl,rfl,rfl⟩

/-- A sweep that answers has come to its end or to the ceiling, or had nothing to sweep. -/
def sweepEnd (bucket dryRun : Bool) (k : Heard) (o : Except Thrown Reply) : Prop :=
  ∀ result, o = .ok (.swept result) →
    if bucket then
      ∃ recordings shares now left, Completed dryRun recordings shares now k result left
    else result = notApplicable ∧ k = []

theorem asks_sweep : Asks (may (.sweep bucket dryRun sharesFirst pages)) (sweepEnd bucket dryRun) []
    (code (.sweep bucket dryRun sharesFirst pages)) := by
  unfold code sweepOrphanedObjects
  cases bucket with
  | false =>
    intro result he
    cases he
    exact ⟨rfl,rfl⟩
  | true =>
    simp only [pure_eq,bind_eq,Bool.not_true,Bool.false_eq_true,if_false,bind_assoc]
    refine asks_claimedKeys.bind ?_ (fun _ _ _ _ he => by cases he)
    intro l claimed hl
    obtain ⟨recordings,shares,rfl,hclaims⟩ := hl claimed rfl
    have hnever : Heard.Never l Lists := by
      rcases hclaims with rfl | rfl
      · exact (never_nil.cons id _).cons id _
      · exact (never_nil.cons id _).cons id _
    refine asks_call_bind ⟨hnever,False.elim,trivial⟩ ?_ (fun _ _ he => by cases he)
    intro now
    refine (asks_sweepFolders rfl (by decide) (paged_of_claims hclaims now)
      (progress_of_claims hclaims now)).bind ?_ (fun _ _ _ _ he => by cases he)
    intro l' result hl' result' he
    cases he
    obtain ⟨left,hprogress,htruncated,hceiling,hcovered,hdistinct⟩ := hl' result rfl
    refine ⟨recordings,shares,now,left,hprogress,htruncated,hceiling,?_,hdistinct⟩
    intro hf folder place
    exact hcovered hf folder (by cases folder <;> simp) place

end

end WeirdVault.Shares
