import WeirdVault.Shares.Routes

/-! # What the routes have heard when they ask -/

namespace WeirdVault.Shares

open WeirdVault.Framework Program

abbrev Heard := Transcript Request.Ans

abbrev Log := List (Entry Request.Ans Job)

def Heard.Has (k : Heard) (r : Request) (x : r.Ans) : Prop := (⟨r,x⟩ : (r : Request) × r.Ans) ∈ k

def Heard.Never (k : Heard) (kind : Request → Prop) : Prop := ∀ a ∈ k, ¬ kind a.1

def Puts : Request → Prop
  | .putObject .. => True
  | _ => False

def Inserts : Request → Prop
  | .insertRecording _ => True
  | .insertShare _ => True
  | _ => False

def Counts : Request → Prop
  | .countView _ => True
  | _ => False

def Refunds : Request → Prop
  | .refundView _ => True
  | _ => False

def Lists : Request → Prop
  | .listPage .. => True
  | _ => False

def ReadsClock : Request → Prop
  | .dateNow => True
  | _ => False

/-- The one object that the thread has put is that of the key. -/
structure Stored (k : Heard) (key : Key) : Prop where
  put : ∃ blob, k.Has (.putObject key blob) (.ok ())
  only : ∀ key' blob x, k.Has (.putObject key' blob) x → key' = key ∧ x = .ok ()

def Holds (k : Heard) (key : Key) (body : StoredBody) : Prop :=
  body.storageKey = some key ∧ Stored k key ∨ body.storageKey = none ∧ k.Never Puts

def ReadRow (k : Heard) (key : Key) : Prop :=
  ∃ body : StoredBody, body.storageKey = some key ∧
    ((∃ id userId, k.Has (.selectRecording id userId) (.ok (some body))) ∨
      (∃ recordingId userId bodies, k.Has (.selectShares recordingId userId) (.ok bodies) ∧
        body ∈ bodies) ∨
      ∃ id recordingId userId, k.Has (.selectShare id recordingId userId) (.ok (some body)))

structure Swept (k : Heard) (recordings shares : List Key) (now : ℕ) : Prop where
  recordings : k.Has .selectRecordingKeys (.ok recordings)
  shares : k.Has .selectShareKeys (.ok shares)
  now : k.Has .dateNow (.ok now)

/-- An object that no row had claimed and that is older than the window. -/
def Abandoned (recordings shares : List Key) (now : ℕ) (object : StoredObject) : Prop :=
  object.key ∉ recordings ++ shares ∧ (object.lastModified : ℤ) ≤ (now : ℤ) - GRACE_MS

def Listed (k : Heard) (folder : Folder) (object : StoredObject) : Prop :=
  ∃ continuation page, k.Has (.listPage folder continuation) (.ok page) ∧ object ∈ page.objects

def SweptKey (k : Heard) (key : Key) : Prop :=
  ∃ recordings shares now folder object, Swept k recordings shares now ∧
    Abandoned recordings shares now object ∧ Listed k folder object ∧ object.key = key

def Destroyed (k : Heard) (bodies : List StoredBody) : Prop :=
  ∀ body ∈ bodies, ∀ key, body.storageKey = some key →
    k.Has (.deleteObject key false) (.ok ())

/-- What a thread has heard when it asks. -/
def asks (k : Heard) : Request → Prop
  | .putObject key _ =>
    (∃ source, k.Has (.randomUuid source) (.ok key.id) ∧
      (key.folder = .recordings ↔ source = none)) ∧ k.Never Puts ∧ k.Never Inserts
  | .insertRecording row =>
    k.Has (.randomUuid none) (.ok row.id) ∧ Holds k (recordingKey row.userId row.id) row.body ∧
      k.Never Inserts
  | .insertShare row =>
    k.Has (.randomUuid (some row.recordingId)) (.ok row.id) ∧
      k.Has .newShareToken (.ok row.token) ∧ Holds k (shareKey row.userId row.id) row.body ∧
      k.Never Inserts ∧ row.views = 0 ∧ row.revokedAt = none
  | .deleteObject key true => ∃ blob, k.Has (.putObject key blob) (.ok ())
  | .deleteObject key false => ReadRow k key ∨ SweptKey k key
  | .deleteRecording id userId => ∃ row shares,
    k.Has (.selectRecording id userId) (.ok (some row)) ∧
      k.Has (.selectShares id userId) (.ok shares) ∧ Destroyed k (row :: shares)
  | .revokeShare id recordingId userId => ∃ body,
    k.Has (.selectShare id recordingId userId) (.ok (some body)) ∧ Destroyed k [body]
  | .countView _ => k.Never Counts ∧ k.Never Refunds
  | .refundView id => k.Never Refunds ∧
    ∃ token row, k.Has (.countView token) (.ok (some row)) ∧ row.id = id
  | .dateNow => k.Never Lists
  | .selectRecordingKeys => k.Never ReadsClock
  | .selectShareKeys => k.Never ReadsClock
  | .listPage _ _ => ∃ recordings shares now, Swept k recordings shares now
  | _ => True

def Job.Writes : Job → Prop
  | .save .. => True
  | .share .. => True
  | _ => False

def Job.Sweeps : Job → Prop
  | .sweep .. => True
  | _ => False

/-- A recording is deleted by the job that was asked to, views are counted by those of links, and a
sweep deletes what it has judged. -/
def Fits (job : Job) (k : Heard) : Request → Prop
  | .deleteRecording id userId => ∃ bucket, job = .remove bucket (some userId) id
  | .countView token => ∃ bucket, job = .view bucket token
  | .deleteObject key false => job.Sweeps → SweptKey k key
  | _ => True

structure may (job : Job) (k : Heard) (r : Request) : Prop where
  asks : asks k r
  writes : Puts r → job.Writes
  fits : Fits job k r

def Named (k : Heard) (key : Key) : Prop :=
  (∃ row, k.Has (.insertRecording row) (.ok ()) ∧ row.body.storageKey = some key) ∨
    ∃ row, k.Has (.insertShare row) (.ok ()) ∧ row.body.storageKey = some key

/-- Every object that was put has its row, or has been cleaned up. -/
def Settled (k : Heard) : Prop :=
  ∀ key blob, k.Has (.putObject key blob) (.ok ()) →
    Named k key ∨ ∃ x, k.Has (.deleteObject key true) x

/-- The envelope comes with the row that was counted, and no view was refunded. -/
structure Served (k : Heard) (token : ℕ) (views : ℕ) (maxViews : Option ℕ) : Prop where
  counted : ∃ row, k.Has (.countView token) (.ok (some row)) ∧ row.views = views ∧
    row.maxViews = maxViews
  all : ∀ token' x, k.Has (.countView token') x → token' = token ∧ ∃ row, x = .ok (some row)
  kept : k.Never Refunds

section

variable {job : Job} {k : Heard} {kind : Request → Prop} {r r' : Request}

theorem never_nil : Heard.Never [] kind := fun _ ha => absurd ha List.not_mem_nil

theorem Heard.Never.cons (h : k.Never kind) (hr : ¬ kind r) (x : r.Ans) :
    Heard.Never (⟨r,x⟩ :: k) kind := by
  intro a ha
  rcases List.mem_cons.mp ha with rfl | ha
  · exact hr
  · exact h a ha

theorem Heard.Has.cons {x : r.Ans} (h : k.Has r x) (x' : r'.Ans) : Heard.Has (⟨r',x'⟩ :: k) r x :=
  List.mem_cons_of_mem _ h

theorem has_self (x : r.Ans) : Heard.Has (⟨r,x⟩ :: k) r x := List.mem_cons_self

theorem settled_of_never (h : k.Never Puts) : Settled k := by
  intro key blob hput
  exact absurd trivial (h _ hput)

theorem stored_put (h : k.Never Puts) (key : Key) (blob : String) :
    Stored (⟨.putObject key blob,.ok ()⟩ :: k) key := by
  refine ⟨⟨blob,has_self _⟩,?_⟩
  intro key' blob' x hx
  rcases List.mem_cons.mp hx with he | hx
  · cases he
    exact ⟨rfl,rfl⟩
  · exact absurd trivial (h _ hx)

theorem settled_of_only {key : Key}
    (honly : ∀ key' blob, k.Has (.putObject key' blob) (.ok ()) → key' = key)
    (h : Named k key ∨ ∃ x, k.Has (.deleteObject key true) x) : Settled k := by
  intro key' blob hput
  rw [honly key' blob hput]
  exact h

private theorem has_of_cons {x : r.Ans} {x' : r'.Ans} (hne : r ≠ r')
    (h : Heard.Has (⟨r',x'⟩ :: k) r x) : k.Has r x := by
  rcases List.mem_cons.mp h with he | h
  · exact absurd (congrArg Sigma.fst he) hne
  · exact h

/-- The insert that follows a write, with what the thread has heard by then. -/
private def InsertAsks (job : Job) (k : Heard) (key : Key) (blob : String)
    (insert : StoredBody → Handler Unit) : Prop :=
  ∀ stored l, (l = k ∨ ∃ x, l = ⟨.putObject key blob,x⟩ :: k) → Holds l key stored →
    Asks (may job) (fun l' o => ∃ r x, l' = ⟨r,x⟩ :: l ∧ ¬ Puts r ∧
      (o = .ok () → ∀ key, stored.storageKey = some key → Named l' key)) l (insert stored)

private theorem asks_insertColumn {key : Key} {blob : String} {insert : StoredBody → Handler Unit}
    {reply : Reply} (hputs : k.Never Puts) (hinsert : InsertAsks job k key blob insert) :
    Asks (may job) (fun l _ => Settled l) k
      (((insert (.column blob)).bind fun _ => done reply).handle fun e =>
        (discardBody false (.column blob)).bind fun _ => fail e) := by
  refine Asks.handle (fun l _ => Heard.Never l Puts) ?_ ?_ ?_
  · refine (hinsert (.column blob) k (.inl rfl) (.inr ⟨rfl,hputs⟩)).bind ?_ ?_
    · rintro l a ⟨r,x,rfl,hr,_⟩
      exact hputs.cons hr x
    · rintro l e ⟨r,x,rfl,hr,_⟩
      exact hputs.cons hr x
  · intro l a h
    exact settled_of_never h
  · intro l e h
    exact settled_of_never h

private theorem asks_insertObject {key : Key} {blob : String} {insert : StoredBody → Handler Unit}
    {reply : Reply} (hputs : k.Never Puts) (hinsert : InsertAsks job k key blob insert) :
    Asks (may job) (fun l _ => Settled l) (⟨.putObject key blob,.ok ()⟩ :: k)
      (((insert (.object key)).bind fun _ => done reply).handle fun e =>
        (discardBody true (.object key)).bind fun _ => fail e) := by
  have honly : ∀ r x, ¬ Puts r → ∀ key' blob', Heard.Has
      (⟨r,x⟩ :: ⟨.putObject key blob,.ok ()⟩ :: k) (.putObject key' blob') (.ok ()) → key' = key := by
    intro r x hr key' blob' hput
    have hold := has_of_cons (by rintro rfl; exact hr trivial) hput
    exact ((stored_put hputs key blob).only key' blob' _ hold).1
  refine Asks.handle (fun l o => ∃ r x, l = ⟨r,x⟩ :: ⟨.putObject key blob,.ok ()⟩ :: k ∧ ¬ Puts r ∧
    (∀ a, o = .ok a → Named l key)) ?_ ?_ ?_
  · refine (hinsert (.object key) _ (.inr ⟨_,rfl⟩) (.inl ⟨rfl,stored_put hputs key blob⟩)).bind
      ?_ ?_
    · rintro l a ⟨r,x,rfl,hr,hnamed⟩
      exact ⟨r,x,rfl,hr,fun _ _ => hnamed rfl key rfl⟩
    · rintro l e ⟨r,x,rfl,hr,_⟩
      exact ⟨r,x,rfl,hr,fun _ he => by cases he⟩
  · rintro l a ⟨r,x,rfl,hr,hnamed⟩
    exact settled_of_only (honly r x hr) (.inl (hnamed a rfl))
  · rintro l e ⟨r,x,rfl,hr,_⟩
    have hmay : may job (⟨r,x⟩ :: ⟨.putObject key blob,.ok ()⟩ :: k) (.deleteObject key true) :=
      ⟨⟨blob,(has_self _).cons x⟩,False.elim,trivial⟩
    have hsettled : ∀ y, Settled (⟨.deleteObject key true,y⟩ :: ⟨r,x⟩ ::
        ⟨.putObject key blob,.ok ()⟩ :: k) := by
      intro y
      refine settled_of_only ?_ (.inr ⟨y,has_self y⟩)
      intro key' blob' hput
      exact honly r x hr key' blob' (has_of_cons (by simp) hput)
    have hdiscard : Asks (may job) (fun l _ => Settled l)
        (⟨r,x⟩ :: ⟨.putObject key blob,.ok ()⟩ :: k) (discardBody true (.object key)) := by
      refine asks_call_handle hmay ?_ ?_
      · intro y
        exact hsettled _
      · intro e'
        exact hsettled _
    exact hdiscard.bind (fun _ _ h => h) fun _ _ h => h

private theorem asks_writeThenInsert {bucket : Bool} {key : Key} {blob : String}
    {refusal : String → String} {insert : StoredBody → Handler Unit} {reply : Reply}
    (hput : may job k (.putObject key blob)) (hputs : k.Never Puts)
    (hinsert : InsertAsks job k key blob insert) :
    Asks (may job) (fun l _ => Settled l) k
      (writeThenInsert bucket key blob refusal insert reply) := by
  cases bucket with
  | false => exact asks_insertColumn hputs hinsert
  | true =>
    refine (asks_ask _ _).mpr ⟨hput,?_⟩
    intro x
    cases x with
    | ok x => exact asks_insertObject hputs hinsert
    | error e =>
      have hnone : Settled (⟨.putObject key blob,.error e⟩ :: k) := by
        intro key' blob' h
        rcases List.mem_cons.mp h with he | h
        · cases he
        · exact absurd trivial (hputs _ h)
      cases e <;> exact hnone

private theorem may_free (hasks : asks k r) (hr : ¬ Puts r) (hfits : Fits job k r) :
    may job k r := ⟨hasks,fun h => absurd h hr,hfits⟩

private structure Fresh (k : Heard) : Prop where
  puts : k.Never Puts
  inserts : k.Never Inserts

private theorem Fresh.cons (h : Fresh k) (hp : ¬ Puts r) (hi : ¬ Inserts r) (x : r.Ans) :
    Fresh (⟨r,x⟩ :: k) := ⟨h.puts.cons hp x,h.inserts.cons hi x⟩

private theorem Fresh.settled (h : Fresh k) : Settled k := settled_of_never h.puts

private theorem asks_fresh {f : r.Val → Handler Reply} (h : Fresh k) (hmay : may job k r)
    (hp : ¬ Puts r) (hi : ¬ Inserts r)
    (hf : ∀ x, Asks (may job) (fun l _ => Settled l) (⟨r,.ok x⟩ :: k) (f x)) :
    Asks (may job) (fun l _ => Settled l) k ((query r).bind f) :=
  asks_call_bind hmay hf fun _ => (h.cons hp hi _).settled

private theorem asks_storeRecording (hjob : job.Writes) (h : Fresh k) (bucket : Bool)
    (userId blob : String) (durationMs : ℚ) (startedAt : ℤ) (targetRef deviceId : Option String) :
    Asks (may job) (fun l _ => Settled l) k
      (storeRecording bucket userId blob durationMs startedAt targetRef deviceId) := by
  refine asks_fresh h (may_free trivial id trivial) id id ?_
  intro i
  have hnext := h.cons (r := .randomUuid none) id id (.ok i)
  have hid : Heard.Has (⟨.randomUuid none,.ok i⟩ :: k) (.randomUuid none) (.ok i) := has_self _
  refine asks_writeThenInsert ⟨⟨⟨none,hid,by simp [recordingKey]⟩,hnext.puts,hnext.inserts⟩,
    fun _ => hjob,trivial⟩ hnext.puts ?_
  intro stored l hl hholds
  have hinserts : Heard.Never l Inserts := by
    rcases hl with rfl | ⟨x,rfl⟩
    · exact hnext.inserts
    · exact hnext.inserts.cons id x
  have hid' : Heard.Has l (.randomUuid none) (.ok i) := by
    rcases hl with rfl | ⟨x,rfl⟩
    · exact hid
    · exact hid.cons x
  refine asks_call ⟨⟨hid',hholds,hinserts⟩,False.elim,trivial⟩ ?_ ?_
  · intro x
    exact ⟨_,_,rfl,id,fun _ key hkey => .inl ⟨_,has_self _,hkey⟩⟩
  · intro e
    exact ⟨_,_,rfl,id,fun he => by cases he⟩

private theorem asks_storeShare (hjob : job.Writes) (h : Fresh k) (bucket : Bool) (userId : String)
    (recordingId : ℕ) (blob : String) (expiresAt : ℤ) (maxViews : Option ℕ) :
    Asks (may job) (fun l _ => Settled l) k
      (storeShare bucket userId recordingId blob expiresAt maxViews) := by
  refine asks_fresh h (may_free trivial id trivial) id id ?_
  intro token
  have htoken := h.cons (r := .newShareToken) id id (.ok token)
  refine asks_fresh htoken (may_free trivial id trivial) id id ?_
  intro i
  have hnext := htoken.cons (r := .randomUuid (some recordingId)) id id (.ok i)
  have hheard : ∀ l, (l = (⟨.randomUuid (some recordingId),.ok i⟩ ::
      ⟨.newShareToken,.ok token⟩ :: k : Heard) ∨
      ∃ x, l = ⟨.putObject (shareKey userId i) blob,x⟩ :: ⟨.randomUuid (some recordingId),.ok i⟩ ::
        ⟨.newShareToken,.ok token⟩ :: k) →
      Heard.Has l (.randomUuid (some recordingId)) (.ok i) ∧ Heard.Has l .newShareToken (.ok token) ∧
        Heard.Never l Inserts := by
    rintro l (rfl | ⟨x,rfl⟩)
    · exact ⟨has_self _,(has_self _).cons _,hnext.inserts⟩
    · exact ⟨(has_self _).cons _,((has_self _).cons _).cons _,hnext.inserts.cons id x⟩
  refine asks_writeThenInsert ⟨⟨⟨some recordingId,has_self _,by simp [shareKey]⟩,hnext.puts,
    hnext.inserts⟩,fun _ => hjob,trivial⟩ hnext.puts ?_
  intro stored l hl hholds
  obtain ⟨hid,htok,hinserts⟩ := hheard l hl
  refine asks_call ⟨⟨hid,htok,hholds,hinserts,rfl,rfl⟩,False.elim,trivial⟩ ?_ ?_
  · intro x
    exact ⟨_,_,rfl,id,fun _ key hkey => .inr ⟨_,has_self _,hkey⟩⟩
  · intro e
    exact ⟨_,_,rfl,id,fun he => by cases he⟩

private theorem asks_storedBytes {f : ℕ → Handler Reply} (h : Fresh k) (userId : String)
    (hf : ∀ l n, Fresh l → Asks (may job) (fun l _ => Settled l) l (f n)) :
    Asks (may job) (fun l _ => Settled l) k ((storedRecordingBytes userId).bind f) := by
  unfold storedRecordingBytes
  simp only [bind_eq,bind_assoc]
  refine asks_fresh h (may_free trivial id trivial) id id ?_
  intro recordings
  have hnext := h.cons (r := .recordingBytes userId) id id (.ok recordings)
  refine asks_fresh hnext (may_free trivial id trivial) id id ?_
  intro shares
  exact hf _ _ (hnext.cons id id _)

private theorem asks_acceptRecording (hjob : job.Writes) (h : Fresh k) (bucket : Bool)
    (userId : String) (body : NewRecording) :
    Asks (may job) (fun l _ => Settled l) k (acceptRecording bucket userId body) := by
  unfold acceptRecording
  split
  · exact h.settled
  simp only [pure_eq,bind_eq]
  split
  · exact h.settled
  split
  · exact h.settled
  split
  · exact h.settled
  split
  · exact h.settled
  split
  · exact h.settled
  · exact h.settled
  split
  · exact h.settled
  apply asks_storedBytes h
  intro l storedBytes hl
  split
  · exact hl.settled
  split
  · exact asks_storeRecording hjob hl ..
  · exact asks_storeRecording hjob hl ..
  · refine asks_fresh hl (may_free trivial id trivial) id id ?_
    intro owned
    exact asks_storeRecording hjob (hl.cons id id _) ..

theorem asks_save (hjob : job.Writes) (bucket : Bool) (user : Option String)
    (body : Parsed NewRecording) :
    Asks (may job) (fun l _ => Settled l) [] (save bucket user body) := by
  have hnil : Fresh [] := ⟨never_nil,never_nil⟩
  unfold save
  split
  · exact hnil.settled
  refine asks_fresh hnil (may_free trivial id trivial) id id ?_
  intro limited
  have hone := hnil.cons (r := .enforce) id id (.ok limited)
  simp only [pure_eq,bind_eq]
  split
  · exact hone.settled
  refine asks_fresh hone (may_free trivial id trivial) id id ?_
  intro pro
  have htwo := hone.cons (r := .tierFor _) id id (.ok pro)
  split
  · exact htwo.settled
  split
  · exact htwo.settled
  · exact htwo.settled
  · exact asks_acceptRecording hjob htwo ..

private theorem asks_acceptShare (hjob : job.Writes) (h : Fresh k) (hlists : k.Never Lists)
    (bucket : Bool) (userId : String) (recordingId : ℕ) (body : NewShare) :
    Asks (may job) (fun l _ => Settled l) k (acceptShare bucket userId recordingId body) := by
  unfold acceptShare
  split
  · exact h.settled
  simp only [pure_eq,bind_eq]
  split
  · exact h.settled
  split
  · exact h.settled
  split
  · exact h.settled
  refine asks_fresh h (may_free hlists id trivial) id id ?_
  intro now
  have hnow := h.cons (r := .dateNow) id id (.ok now)
  split
  · exact hnow.settled
  split
  · exact hnow.settled
  split
  · exact hnow.settled
  refine asks_fresh hnow (may_free trivial id trivial) id id ?_
  intro owned
  have howned := hnow.cons (r := .selectRecording recordingId userId) id id (.ok owned)
  split
  · exact howned.settled
  apply asks_storedBytes howned
  intro l storedBytes hl
  split
  · exact hl.settled
  · exact asks_storeShare hjob hl ..

theorem asks_share (hjob : job.Writes) (bucket : Bool) (user : Option String)
    (recordingId : ℕ) (body : Parsed NewShare) :
    Asks (may job) (fun l _ => Settled l) [] (share bucket user recordingId body) := by
  have hnil : Fresh [] := ⟨never_nil,never_nil⟩
  unfold share
  split
  · exact hnil.settled
  refine asks_fresh hnil (may_free trivial id trivial) id id ?_
  intro limited
  have hone := hnil.cons (r := .enforce) id id (.ok limited)
  simp only [pure_eq,bind_eq]
  split
  · exact hone.settled
  refine asks_fresh hone (may_free trivial id trivial) id id ?_
  intro pro
  have htwo := hone.cons (r := .tierFor _) id id (.ok pro)
  split
  · exact htwo.settled
  split
  · exact htwo.settled
  · exact htwo.settled
  · refine asks_acceptShare hjob htwo ?_ ..
    exact (never_nil.cons (r := .enforce) id _).cons (r := .tierFor _) id _

end

section

variable {job : Job} {k : Heard}

def Heard.Grows (k l : Heard) : Prop := ∀ r x, k.Has r x → l.Has r x

theorem Heard.Grows.refl (k : Heard) : k.Grows k := fun _ _ h => h

theorem Heard.Grows.trans {l l' : Heard} (h : k.Grows l) (h' : l.Grows l') : k.Grows l' :=
  fun r x hx => h' r x (h r x hx)

theorem grows_cons (r : Request) (x : r.Ans) : k.Grows (⟨r,x⟩ :: k) := fun _ _ h => h.cons x

theorem ReadRow.grows {l : Heard} {key : Key} (h : ReadRow k key) (hl : k.Grows l) :
    ReadRow l key := by
  obtain ⟨body,hkey,hread⟩ := h
  refine ⟨body,hkey,?_⟩
  rcases hread with ⟨i,u,h⟩ | ⟨i,u,bodies,h,hm⟩ | ⟨i,j,u,h⟩
  · exact .inl ⟨i,u,hl _ _ h⟩
  · exact .inr (.inl ⟨i,u,bodies,hl _ _ h,hm⟩)
  · exact .inr (.inr ⟨i,j,u,hl _ _ h⟩)

theorem Destroyed.grows {l : Heard} {bodies : List StoredBody} (h : Destroyed k bodies)
    (hl : k.Grows l) : Destroyed l bodies :=
  fun body hm key hkey => hl _ _ (h body hm key hkey)

private theorem asks_destroyBody (hjob : ¬ job.Sweeps) (bucket : Bool) (body : StoredBody)
    (hread : ∀ key, body.storageKey = some key → ReadRow k key) :
    Asks (may job) (fun l o => k.Grows l ∧ (o = .ok () → Destroyed l [body])) k
      (destroyBody bucket body) := by
  unfold destroyBody
  split
  · rename_i hnone
    refine ⟨.refl k,?_⟩
    intro _ b hb key hkey
    rw [List.mem_singleton.mp hb,hnone] at hkey
    cases hkey
  · rename_i key hkey
    split
    · exact ⟨.refl k,fun he => by cases he⟩
    · refine asks_call_handle ⟨.inl (hread key hkey),False.elim,fun h => absurd h hjob⟩ ?_ ?_
      · intro x
        refine ⟨grows_cons _ _,?_⟩
        intro _ b hb key' hkey'
        rw [List.mem_singleton.mp hb,hkey] at hkey'
        cases hkey'
        exact has_self _
      · intro e
        exact ⟨grows_cons _ _,fun he => by cases he⟩

private theorem asks_destroyAll (hjob : ¬ job.Sweeps) (bucket : Bool) (bodies : List StoredBody)
    (hread : ∀ body ∈ bodies, ∀ key, body.storageKey = some key → ReadRow k key) :
    Asks (may job) (fun l o => k.Grows l ∧ (o = .ok () → Destroyed l bodies)) k
      (Program.forEach (destroyBody bucket) bodies) := by
  induction bodies generalizing k with
  | nil => exact ⟨.refl k,fun _ _ hm => absurd hm List.not_mem_nil⟩
  | cons body bodies ih =>
    refine (asks_destroyBody hjob bucket body (hread body List.mem_cons_self)).bind ?_ ?_
    · rintro l a ⟨hl,hdone⟩
      have hrest : ∀ b ∈ bodies, ∀ key, b.storageKey = some key → ReadRow l key := by
        intro b hb key hkey
        exact (hread b (List.mem_cons_of_mem body hb) key hkey).grows hl
      refine (ih hrest).mono ?_
      rintro l' o ⟨hl',hall⟩
      refine ⟨hl.trans hl',?_⟩
      intro ho b hb
      rcases List.mem_cons.mp hb with rfl | hb
      · exact (hdone rfl).grows hl' b (List.mem_singleton_self b)
      · exact hall ho b hb
    · rintro l e ⟨hl,_⟩
      exact ⟨hl,fun he => by cases he⟩

private def plain {α : Type} (mid : Heard → Except Thrown α → Prop) (l : Heard) :
    Except Thrown (Except (BodyFailure × String) α) → Prop
  | .ok (.ok a) => mid l (.ok a)
  | .ok (.error _) => False
  | .error e => mid l (.error e)

theorem asks_attempt {α : Type} {mid : Heard → Except Thrown α → Prop}
    {post : Heard → Except Thrown (Except (BodyFailure × String) α) → Prop} {p : Handler α}
    (h : Asks (may job) mid k p) (hok : ∀ l a, mid l (.ok a) → post l (.ok (.ok a)))
    (hbody : ∀ l kind message, mid l (.error (.body kind message)) →
      post l (.ok (.error (kind,message))))
    (herr : ∀ l e, mid l (.error e) → post l (.error e)) :
    Asks (may job) post k (attempt p) := by
  unfold attempt
  refine Asks.handle (plain mid) (h.bind (fun _ _ ha => ha) fun _ _ he => he) ?_ ?_
  · intro l o ho
    cases o with
    | ok a => exact hok l a ho
    | error e => exact ho.elim
  · intro l e he
    cases e with
    | body kind message => exact hbody l kind message he
    | _ => exact herr l _ he

private theorem asks_attemptDestroy {p : Handler Unit} {bodies : List StoredBody}
    (h : Asks (may job) (fun l o => k.Grows l ∧ (o = .ok () → Destroyed l bodies)) k p) :
    Asks (may job) (fun l o => k.Grows l ∧ (o = .ok (.ok ()) → Destroyed l bodies)) k
      (attempt p) := by
  refine asks_attempt h ?_ ?_ ?_
  · rintro l ⟨⟩ ⟨hl,hall⟩
    exact ⟨hl,fun _ => hall rfl⟩
  · rintro l kind message ⟨hl,_⟩
    exact ⟨hl,fun he => by cases he⟩
  · rintro l e ⟨hl,_⟩
    exact ⟨hl,fun he => by cases he⟩

def removedEnd (user : Option String) (i : ℕ) (k : Heard) (o : Except Thrown Reply) : Prop :=
  o = .ok .ok → ∃ userId ids, user = some userId ∧ ids ≠ [] ∧
    k.Has (.deleteRecording i userId) (.ok ids)

theorem asks_remove (bucket : Bool) (user : Option String) (i : ℕ) :
    Asks (may (.remove bucket user i)) (removedEnd user i) [] (remove bucket user i) := by
  unfold remove
  split
  · intro he
    cases he
  rename_i userId
  simp only [pure_eq,bind_eq]
  refine asks_call_bind ⟨trivial,False.elim,trivial⟩ ?_ (fun _ he => by cases he)
  intro row
  cases row with
  | none =>
    intro he
    cases he
  | some row =>
    refine asks_call_bind ⟨trivial,False.elim,trivial⟩ ?_ (fun _ he => by cases he)
    intro shares
    have hread : ∀ body ∈ row :: shares, ∀ key, body.storageKey = some key →
        ReadRow [⟨.selectShares i userId,.ok shares⟩,
          ⟨.selectRecording i userId,.ok (some row)⟩] key := by
      intro body hm key hkey
      refine ⟨body,hkey,?_⟩
      rcases List.mem_cons.mp hm with rfl | hm
      · exact .inl ⟨i,userId,(has_self _).cons _⟩
      · exact .inr (.inl ⟨i,userId,shares,has_self _,hm⟩)
    refine (asks_attemptDestroy (asks_destroyAll id bucket (row :: shares) hread)).bind ?_ ?_
    · rintro l a ⟨hl,hall⟩
      cases a with
      | error e =>
        intro he
        cases he
      | ok a =>
        have hknown : asks l (.deleteRecording i userId) :=
          ⟨row,shares,hl _ _ ((has_self _).cons _),hl _ _ (has_self _),hall rfl⟩
        refine asks_call_bind ⟨hknown,False.elim,⟨bucket,rfl⟩⟩ ?_ (fun _ he => by cases he)
        intro ids
        cases ids with
        | nil =>
          intro he
          cases he
        | cons i' ids =>
          intro _
          exact ⟨userId,i' :: ids,rfl,List.cons_ne_nil _ _,has_self _⟩
    · rintro l e _ he
      cases he

def revokedEnd (user : Option String) (recordingId : ℕ) (shareId : Option ℕ) (k : Heard)
    (o : Except Thrown Reply) : Prop :=
  ∀ row, o = .ok (.revoked row) → ∃ userId i rows, user = some userId ∧ shareId = some i ∧
    rows ≠ [] ∧ k.Has (.revokeShare i recordingId userId) (.ok rows)

theorem asks_revoke (hjob : ¬ job.Sweeps) (bucket : Bool) (user : Option String) (recordingId : ℕ)
    (shareId : Option ℕ) :
    Asks (may job) (revokedEnd user recordingId shareId) [] (revoke bucket user recordingId shareId) := by
  unfold revoke
  split
  · intro _ he
    cases he
  · intro _ he
    cases he
  rename_i userId i
  simp only [pure_eq,bind_eq]
  refine asks_call_bind ⟨trivial,False.elim,trivial⟩ ?_ (fun _ _ he => by cases he)
  intro body
  cases body with
  | none =>
    intro _ he
    cases he
  | some body =>
    have hread : ∀ key, body.storageKey = some key →
        ReadRow [⟨.selectShare i recordingId userId,.ok (some body)⟩] key :=
      fun key hkey => ⟨body,hkey,.inr (.inr ⟨i,recordingId,userId,has_self _⟩)⟩
    refine (asks_attemptDestroy (asks_destroyBody hjob bucket body hread)).bind ?_ ?_
    · rintro l a ⟨hl,hall⟩
      cases a with
      | error e =>
        intro _ he
        cases he
      | ok a =>
        refine asks_call_bind ⟨⟨body,hl _ _ (has_self _),hall rfl⟩,False.elim,trivial⟩ ?_
          (fun _ _ he => by cases he)
        intro rows
        cases rows with
        | nil =>
          intro _ he
          cases he
        | cons row rows =>
          intro _ _
          exact ⟨userId,i,row :: rows,rfl,rfl,List.cons_ne_nil _ _,has_self _⟩
    · rintro l e _ _ he
      cases he

end

section

variable {job : Job} {k : Heard}

def viewEnd (token : ℕ) (k : Heard) (o : Except Thrown Reply) : Prop :=
  ∀ blob views maxViews expiresAt, o = .ok (.envelope blob views maxViews expiresAt) →
    Served k token views maxViews

private theorem asks_readBody (bucket : Bool) (row : StoredBody) :
    Asks (may job) (fun l _ => l = k ∨ ∃ key x, l = ⟨.getObject key,x⟩ :: k) k
      (readBody bucket row) := by
  unfold readBody
  split
  · exact .inl rfl
  · rename_i key _
    split
    · exact .inl rfl
    · refine (asks_ask _ _).mpr ⟨⟨trivial,False.elim,trivial⟩,?_⟩
      intro x
      rcases x with e | _ | blob
      · exact .inr ⟨key,_,rfl⟩
      · exact .inr ⟨key,_,rfl⟩
      · exact .inr ⟨key,_,rfl⟩

private theorem served_of {token : ℕ} {row : Counted} {l : Heard} {limited : Bool}
    (hl : l = [⟨.countView token,.ok (some row)⟩,⟨.enforce,.ok limited⟩] ∨
      ∃ key x, l = [⟨.getObject key,x⟩,⟨.countView token,.ok (some row)⟩,⟨.enforce,.ok limited⟩]) :
    Served l token row.views row.maxViews := by
  have hmem : ∀ a ∈ l, a = ⟨.countView token,.ok (some row)⟩ ∨
      (∃ x, a = ⟨.enforce,x⟩) ∨ ∃ key x, a = ⟨.getObject key,x⟩ := by
    rcases hl with rfl | ⟨key,x,rfl⟩ <;> simp
  refine ⟨⟨row,?_,rfl,rfl⟩,?_,?_⟩
  · rcases hl with rfl | ⟨key,x,rfl⟩
    · exact has_self _
    · exact (has_self _).cons _
  · intro token' x hx
    rcases hmem _ hx with he | ⟨y,he⟩ | ⟨key,y,he⟩
    · cases he
      exact ⟨rfl,row,rfl⟩
    · cases he
    · cases he
  · intro a ha hr
    rcases hmem a ha with rfl | ⟨y,rfl⟩ | ⟨key,y,rfl⟩ <;> exact hr

theorem asks_view (bucket : Bool) (token : ℕ) :
    Asks (may (.view bucket token)) (viewEnd token) [] (view bucket token) := by
  unfold view
  simp only [pure_eq,bind_eq]
  refine asks_call_bind ⟨trivial,False.elim,trivial⟩ ?_ (fun _ _ _ _ _ he => by cases he)
  intro limited
  split
  · intro _ _ _ _ he
    cases he
  have hcounts : Heard.Never [⟨.enforce,.ok limited⟩] Counts := never_nil.cons id _
  have hrefunds : Heard.Never [⟨.enforce,.ok limited⟩] Refunds := never_nil.cons id _
  refine asks_call_bind ⟨⟨hcounts,hrefunds⟩,False.elim,⟨bucket,rfl⟩⟩ ?_
    (fun _ _ _ _ _ he => by cases he)
  intro row
  cases row with
  | none =>
    intro _ _ _ _ he
    cases he
  | some row =>
    have hread : Asks (may (.view bucket token)) (fun l _ => l = [⟨.countView token,.ok (some row)⟩,
        ⟨.enforce,.ok limited⟩] ∨ ∃ key x, l = [⟨.getObject key,x⟩,
        ⟨.countView token,.ok (some row)⟩,⟨.enforce,.ok limited⟩])
        [⟨.countView token,.ok (some row)⟩,⟨.enforce,.ok limited⟩]
        (attempt (readBody bucket row.body)) :=
      asks_attempt (asks_readBody bucket row.body) (fun _ _ h => h) (fun _ _ _ h => h)
        fun _ _ h => h
    refine hread.bind ?_ (fun _ _ _ _ _ _ _ he => by cases he)
    intro l a hl
    rcases a with e | _ | blob
    · have hknown : asks l (.refundView row.id) := by
        rcases hl with rfl | ⟨key,x,rfl⟩
        · exact ⟨hrefunds.cons id _,token,row,has_self _,rfl⟩
        · exact ⟨(hrefunds.cons id _).cons id _,token,row,(has_self _).cons _,rfl⟩
      refine asks_call_bind ⟨hknown,False.elim,trivial⟩ ?_ (fun _ _ _ _ _ he => by cases he)
      intro _ _ _ _ _ he
      cases he
    · intro _ _ _ _ he
      cases he
    · intro blob' views maxViews expiresAt he
      cases he
      exact served_of hl

end

end WeirdVault.Shares
