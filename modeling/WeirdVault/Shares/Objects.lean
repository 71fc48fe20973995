import WeirdVault.Shares.Rows

/-!
# Rows and objects as the log knows them

Every row was inserted, every object was put, and whatever names an object goes back to the thread
that put it. An object that was deleted does not come back.
-/

namespace WeirdVault.Shares

open WeirdVault.Framework

def Saved (log : Log) (row : Recording) : Prop := ∃ i x, Said log i (.insertRecording row) x

def WasPut (log : Log) (key : Key) : Prop := ∃ i blob x, Said log i (.putObject key blob) x

def Store.Names (s : Store) (key : Key) : Prop :=
  (∃ row ∈ s.recordings.rows, row.body.storageKey = some key) ∨
    ∃ row ∈ s.shares.rows, row.body.storageKey = some key

section

variable {s : Store} {log : Log} {i j : ℕ} {job : Job} {m : Moment} {r r' : Request} {x : r.Ans}
  {key : Key}

theorem Saved.cons {row : Recording} {x' : r'.Ans} (h : Saved log row) :
    Saved (⟨i,job,r',x'⟩ :: log) row := by
  obtain ⟨j,x,hx⟩ := h
  exact ⟨j,x,hx.cons x'⟩

theorem WasPut.cons {x' : r'.Ans} (h : WasPut log key) : WasPut (⟨i,job,r',x'⟩ :: log) key := by
  obtain ⟨j,blob,x,hx⟩ := h
  exact ⟨j,blob,x,hx.cons x'⟩

theorem Base.putId {blob : String} {x : Except Thrown Unit} (h : Base s log)
    (hput : Said log i (.putObject key blob) x) :
    ∃ source, Said log i (.randomUuid source) (.ok key.id) ∧
      (key.folder = .recordings ↔ source = none) := by
  obtain ⟨older,⟨⟨source,hid,hfolder⟩,_⟩,hgrows⟩ := h.asked hput
  exact ⟨source,hgrows _ _ hid,hfolder⟩

theorem Base.insertedAfter (h : Base s log) (hins : Said log i r x) (hr : Inserts r) :
    ∃ older, asks older r ∧ Heard.Grows older (transcript log i) ∧
      ∀ key blob x', Said log i (.putObject key blob) x' → older.Has (.putObject key blob) x' := by
  obtain ⟨newer,older,he,hasks⟩ := (h.allowed i).of_mem hins
  refine ⟨older,hasks,?_,?_⟩
  · intro q y hy
    rw [he]
    exact List.mem_append_right newer (List.mem_cons_of_mem _ hy)
  intro key blob x' hput
  have hmem : (⟨.putObject key blob,x'⟩ : (r : Request) × r.Ans) ∈ newer ++ ⟨r,x⟩ :: older :=
    he ▸ hput
  rcases List.mem_append.mp hmem with hnew | hold
  · -- nothing is put once a row was inserted
    have hall := h.allowed i
    rw [he] at hall
    obtain ⟨before,after,hsplit⟩ := List.append_of_mem hnew
    rw [hsplit,List.append_assoc,List.cons_append] at hall
    obtain ⟨_,_,hnever⟩ := hall.older.1
    exact absurd hr (hnever ⟨r,x⟩ (List.mem_append_right after List.mem_cons_self))
  · rcases List.mem_cons.mp hold with he' | hold
    · cases he'
      exact hr.elim
    · exact hold

structure NamesPut (log : Log) (i : ℕ) (key : Key) (body : StoredBody) : Prop where
  put : ∀ key', body.storageKey = some key' → key' = key ∧
    ∃ blob, Said log i (.putObject key' blob) (.ok ())
  only : ∀ key' blob x, Said log i (.putObject key' blob) x → body.storageKey = some key'

private theorem namesPut_of_holds {older : Heard} {body : StoredBody} (hholds : Holds older key body)
    (hgrows : older.Grows (transcript log i))
    (hbefore : ∀ key' blob x, Said log i (.putObject key' blob) x →
      older.Has (.putObject key' blob) x) : NamesPut log i key body := by
  rcases hholds with ⟨hkey,⟨blob,hput⟩,honly⟩ | ⟨hnone,hnever⟩
  · constructor
    · intro key' he
      rw [hkey] at he
      cases he
      exact ⟨rfl,blob,hgrows _ _ hput⟩
    · intro key' blob' x hx
      rw [hkey,(honly key' blob' x (hbefore key' blob' x hx)).1]
  · constructor
    · intro key' he
      rw [hnone] at he
      cases he
    · intro key' blob' x hx
      exact absurd trivial (hnever _ (hbefore key' blob' x hx))

theorem Base.savedBody {row : Recording} {x : Except Thrown Unit} (h : Base s log)
    (hins : Said log i (.insertRecording row) x) :
    NamesPut log i (recordingKey row.userId row.id) row.body := by
  obtain ⟨older,⟨_,hholds,_⟩,hgrows,hbefore⟩ := h.insertedAfter hins trivial
  exact namesPut_of_holds hholds hgrows hbefore

theorem Base.insertedBody {row : Share} {x : Except Thrown Unit} (h : Base s log)
    (hins : Said log i (.insertShare row) x) :
    NamesPut log i (shareKey row.userId row.id) row.body := by
  obtain ⟨older,⟨_,_,hholds,_⟩,hgrows,hbefore⟩ := h.insertedAfter hins trivial
  exact namesPut_of_holds hholds hgrows hbefore

def WasDeleted (log : Log) (key : Key) : Prop :=
  ∃ i, (∃ x, Said log i (.deleteObject key true) x) ∨ Said log i (.deleteObject key false) (.ok ())

/-- What rows and answers say of rows and objects goes back to what was sent, and what was deleted
is gone. -/
structure Traced (s : Store) (log : Log) : Prop extends Base s log where
  recordings : ∀ row ∈ s.recordings.rows, Saved log row
  shares : ∀ row ∈ s.shares.rows, ∃ row₀, Inserted log row₀ ∧ Later row₀ row
  parents : ∀ row ∈ s.shares.rows, (s.recordings.get? row.recordingId).isSome
  bucket : ∀ object ∈ s.bucket.rows, WasPut log object.key
  read : ∀ i key, ReadRow (transcript log i) key → WasPut log key
  listed : ∀ i folder object, Listed (transcript log i) folder object → WasPut log object.key
  gone : ∀ key, WasDeleted log key → s.bucket.get? key = none

theorem Traced.savedPut (h : Traced s log) {row : Recording} (hrow : row ∈ s.recordings.rows)
    (hkey : row.body.storageKey = some key) : WasPut log key := by
  obtain ⟨i,x,hx⟩ := h.recordings row hrow
  obtain ⟨_,blob,hput⟩ := (h.savedBody hx).put key hkey
  exact ⟨i,blob,_,hput⟩

theorem Traced.insertedPut (h : Traced s log) {row : Share} (hrow : row ∈ s.shares.rows)
    (hkey : row.body.storageKey = some key) : WasPut log key := by
  obtain ⟨row₀,⟨i,x,hx⟩,hlater⟩ := h.shares row hrow
  rcases hlater.body with hb | hb
  · obtain ⟨_,blob,hput⟩ := (h.insertedBody hx).put key (hb ▸ hkey)
    exact ⟨i,blob,_,hput⟩
  · rw [hb] at hkey
    cases hkey

theorem Traced.deletedPut (h : Traced s log) {cleanup : Bool} {x : Except Thrown Unit}
    (hdelete : Said log i (.deleteObject key cleanup) x) : WasPut log key := by
  obtain ⟨older,hasks,hgrows⟩ := h.asked hdelete
  cases cleanup with
  | true =>
    obtain ⟨blob,hput⟩ := hasks
    exact ⟨i,blob,_,hgrows _ _ hput⟩
  | false =>
    rcases hasks with hread | ⟨_,_,_,folder,object,_,_,⟨continuation,page,hpage,ho⟩,rfl⟩
    · exact h.read i key (hread.grows hgrows)
    · exact h.listed i folder object ⟨continuation,page,hgrows _ _ hpage,ho⟩

theorem Traced.stays_gone (h : Traced s log) (hr : asks (transcript log i) r) (hput : WasPut log key)
    (hgone : s.bucket.get? key = none) : (exec m s r).1.bucket.get? key = none := by
  rw [Table.get?_eq_none_iff] at hgone ⊢
  intro object hobject he
  rcases bucket_exec m s r object hobject with ⟨rfl,_⟩ | hold
  · obtain ⟨⟨source,hid,_⟩,hnever,_⟩ := hr
    obtain ⟨j,blob,x,hx⟩ := hput
    obtain ⟨source',hid',_⟩ := h.putId hx
    rw [← he] at hid'
    obtain rfl := h.idsOnce i j source source' object.key.id hid hid'
    exact hnever _ hx trivial
  · exact hgone object hold he

theorem answer_of_ok {v : r.Val} (h : (exec m s r).2 = .ok v) :
    (execute m (s.tick m) r).2 = .ok v := by
  rcases exec_cases m s r with ⟨he,_⟩ | ⟨_,hx | ⟨hx,_⟩,_⟩
  · rw [he] at h
    cases h
  · rw [← hx,h]
  · rw [hx] at h
    cases h

theorem selectRecording_ok {k : ℕ} {userId : String} {body : StoredBody}
    (h : (exec m s (.selectRecording k userId)).2 = .ok (some body)) :
    ∃ row ∈ s.recordings.rows, row.id = k ∧ row.body = body := by
  have hmap : ((s.recordings.get? k).filter (·.userId = userId)).map (·.body) = some body :=
    Except.ok.inj (answer_of_ok h)
  obtain ⟨row,hrow,hbody⟩ := Option.map_eq_some_iff.mp hmap
  have hget := (Option.filter_eq_some_iff.mp hrow).1
  exact ⟨row,Table.mem_of_get? hget,Table.key_of_get? hget,hbody⟩

theorem selectShares_ok {k : ℕ} {userId : String} {bodies : List StoredBody}
    (h : (exec m s (.selectShares k userId)).2 = .ok bodies) :
    ∀ body ∈ bodies, ∃ row ∈ s.shares.rows, row.recordingId = k ∧ row.body = body := by
  intro body hbody
  obtain rfl := Except.ok.inj (answer_of_ok h)
  obtain ⟨row,hrow,rfl⟩ := List.mem_map.mp hbody
  have hparts := List.mem_filter.mp hrow
  exact ⟨row,hparts.1,(of_decide_eq_true hparts.2).1,rfl⟩

theorem selectShare_ok {k recordingId : ℕ} {userId : String} {body : StoredBody}
    (h : (exec m s (.selectShare k recordingId userId)).2 = .ok (some body)) :
    ∃ row ∈ s.shares.rows, row.id = k ∧ row.body = body := by
  have hmap : ((s.shares.get? k).filter fun row => row.recordingId = recordingId ∧
      row.userId = userId).map (·.body) = some body := Except.ok.inj (answer_of_ok h)
  obtain ⟨row,hrow,hbody⟩ := Option.map_eq_some_iff.mp hmap
  have hget := (Option.filter_eq_some_iff.mp hrow).1
  exact ⟨row,Table.mem_of_get? hget,Table.key_of_get? hget,hbody⟩

theorem listPage_ok {folder : Folder} {continuation : Option Place} {page : Page}
    (h : (exec m s (.listPage folder continuation)).2 = .ok page) {object : StoredObject}
    (ho : object ∈ page.objects) :
    ∃ stored ∈ s.bucket.rows, stored.key = object.key ∧ stored.lastModified = object.lastModified := by
  obtain rfl := Except.ok.inj (answer_of_ok h)
  obtain ⟨item,hitem,rfl⟩ := List.mem_map.mp ho
  obtain ⟨stored,hstored,rfl⟩ := List.mem_map.mp hitem
  exact ⟨stored,(List.mem_filter.mp hstored).1,rfl,rfl⟩

theorem recordings_stay {k : ℕ} (hr : ∀ k userId, r ≠ .deleteRecording k userId)
    (h : (s.recordings.get? k).isSome) : ((exec m s r).1.recordings.get? k).isSome := by
  rcases exec_cases m s r with ⟨he,_⟩ | ⟨he,_⟩
  · rw [he]
    exact h
  · rw [he,execute_recordings]
    split
    · split
      · exact h
      · rw [Table.get?_put]
        split
        · rfl
        · exact h
    · exact absurd rfl (hr _ _)
    · exact h

private theorem traced_parents (h : Traced s log) :
    ∀ row ∈ (exec m s r).1.shares.rows, ((exec m s r).1.recordings.get? row.recordingId).isSome := by
  intro row hrow
  by_cases hdelete : ∃ k userId, r = .deleteRecording k userId
  · obtain ⟨k,userId,rfl⟩ := hdelete
    rcases exec_deleteRecording m s k userId with ⟨hrec,hshares,_⟩ | ⟨_,_,hrec,hshares⟩
    · rw [hshares] at hrow
      rw [hrec]
      exact h.parents row hrow
    · rw [hshares] at hrow
      obtain ⟨hold,hne⟩ := List.mem_filter.mp hrow
      rw [hrec,Table.get?_erase,if_neg (Ne.symm (of_decide_eq_true hne))]
      exact h.parents row hold
  · have hno : ∀ k userId, r ≠ .deleteRecording k userId :=
      fun k userId he => hdelete ⟨k,userId,he⟩
    rcases rows_exec m s r row hrow with ⟨_,hparent⟩ | ⟨row',hold,hlater,_⟩
    · exact recordings_stay hno hparent
    · rw [hlater.recordingId]
      exact recordings_stay hno (h.parents row' hold)

theorem said_exec {v : r'.Val} (h : Said (⟨i,job,r,(exec m s r).2⟩ :: log) j r' (.ok v)) :
    (j = i ∧ r = r' ∧ (exec m s r').2 = .ok v) ∨ Said log j r' (.ok v) := by
  rcases said_cons.mp h with ⟨hj,he⟩ | hold
  · obtain rfl : r = r' := (congrArg Sigma.fst he).symm
    exact .inl ⟨hj,rfl,(eq_of_heq (Sigma.mk.inj he).2).symm⟩
  · exact .inr hold

private theorem traced_read (h : Traced s log)
    (hread : ReadRow (transcript (⟨i,job,r,(exec m s r).2⟩ :: log) j) key) : WasPut log key := by
  obtain ⟨body,hkey,⟨k,userId,hx⟩ | ⟨k,userId,bodies,hx,hbody⟩ | ⟨k,recordingId,userId,hx⟩⟩ := hread
  · rcases said_exec hx with ⟨_,_,hanswer⟩ | hold
    · obtain ⟨row,hrow,_,rfl⟩ := selectRecording_ok hanswer
      exact h.savedPut hrow hkey
    · exact h.read j key ⟨body,hkey,.inl ⟨k,userId,hold⟩⟩
  · rcases said_exec hx with ⟨_,_,hanswer⟩ | hold
    · obtain ⟨row,hrow,_,rfl⟩ := selectShares_ok hanswer body hbody
      exact h.insertedPut hrow hkey
    · exact h.read j key ⟨body,hkey,.inr (.inl ⟨k,userId,bodies,hold,hbody⟩)⟩
  · rcases said_exec hx with ⟨_,_,hanswer⟩ | hold
    · obtain ⟨row,hrow,_,rfl⟩ := selectShare_ok hanswer
      exact h.insertedPut hrow hkey
    · exact h.read j key ⟨body,hkey,.inr (.inr ⟨k,recordingId,userId,hold⟩)⟩

private theorem traced_listed (h : Traced s log) {folder : Folder} {object : StoredObject}
    (hlisted : Listed (transcript (⟨i,job,r,(exec m s r).2⟩ :: log) j) folder object) :
    WasPut log object.key := by
  obtain ⟨continuation,page,hx,ho⟩ := hlisted
  rcases said_exec hx with ⟨_,_,hanswer⟩ | hold
  · obtain ⟨stored,hstored,hkey,_⟩ := listPage_ok hanswer ho
    exact hkey ▸ h.bucket stored hstored
  · exact h.listed j folder object ⟨continuation,page,hold,ho⟩

private theorem traced_gone (h : Traced s log) (hr : asks (transcript log i) r)
    (hdeleted : WasDeleted (⟨i,job,r,(exec m s r).2⟩ :: log) key) :
    (exec m s r).1.bucket.get? key = none := by
  have hold : WasDeleted log key → (exec m s r).1.bucket.get? key = none := by
    intro hd
    have hput : WasPut log key := by
      obtain ⟨j,⟨x,hx⟩ | hx⟩ := hd
      · exact h.deletedPut hx
      · exact h.deletedPut hx
    exact h.stays_gone hr hput (h.gone key hd)
  obtain ⟨j,⟨x,hx⟩ | hx⟩ := hdeleted
  · rcases said_cons.mp hx with ⟨_,he⟩ | hx
    · obtain rfl : r = .deleteObject key true := (congrArg Sigma.fst he).symm
      rcases exec_deleteObject m s key true with ⟨_,_,hfalse⟩ | he
      · cases hfalse
      · rw [he,Table.get?_erase_self]
    · exact hold ⟨j,.inl ⟨x,hx⟩⟩
  · rcases said_exec hx with ⟨_,rfl,hanswer⟩ | hx
    · rcases exec_deleteObject m s key false with ⟨_,hno,_⟩ | he
      · exact absurd hanswer hno
      · rw [he,Table.get?_erase_self]
    · exact hold ⟨j,.inr hx⟩

theorem traced_step (h : Traced s log) (hr : asks (transcript log i) r) :
    Traced (exec m s r).1 (⟨i,job,r,(exec m s r).2⟩ :: log) where
  toBase := base_step h.toBase hr
  recordings := by
    intro row hrow
    rcases recordings_exec m s r row hrow with rfl | hold
    · exact ⟨i,_,said_self⟩
    · exact (h.recordings row hold).cons
  shares := by
    intro row hrow
    rcases rows_exec m s r row hrow with ⟨rfl,_⟩ | ⟨row',hold,hlater,_⟩
    · exact ⟨row,⟨i,_,said_self⟩,.refl row⟩
    · obtain ⟨row₀,hins,hlater₀⟩ := h.shares row' hold
      exact ⟨row₀,hins.cons,hlater₀.trans hlater⟩
  parents := traced_parents h
  bucket := by
    intro object hobject
    rcases bucket_exec m s r object hobject with ⟨rfl,_⟩ | hold
    · exact ⟨i,object.blob,_,said_self⟩
    · exact (h.bucket object hold).cons
  read := fun _ _ hread => (traced_read h hread).cons
  listed := fun _ _ _ hlisted => (traced_listed h hlisted).cons
  gone := fun _ hdeleted => traced_gone h hr hdeleted

theorem traced_empty : Traced emptyStore [] := by
  refine ⟨base_empty,?_,?_,?_,?_,?_,?_,?_⟩
  · intro row hrow
    cases hrow
  · intro row hrow
    cases hrow
  · intro row hrow
    cases hrow
  · intro object hobject
    cases hobject
  · rintro i key ⟨body,_,⟨_,_,hx⟩ | ⟨_,_,_,hx,_⟩ | ⟨_,_,_,hx⟩⟩ <;> cases hx
  · rintro i folder object ⟨_,_,hx,_⟩
    cases hx
  · intro key _
    rfl

end

end WeirdVault.Shares
