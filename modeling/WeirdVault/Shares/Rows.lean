import WeirdVault.Shares.Behaviour

/-!
# What a request does to the rows and the objects

One lemma for each statement that writes, and from these what any request does to each table.
-/

namespace WeirdVault.Shares

open WeirdVault.Framework

structure Same (row row' : Share) : Prop where
  id : row'.id = row.id
  recordingId : row'.recordingId = row.recordingId
  userId : row'.userId = row.userId
  token : row'.token = row.token
  maxViews : row'.maxViews = row.maxViews
  expiresAt : row'.expiresAt = row.expiresAt

/-- A later state of a row: a revoked one stays so, and bytes only go. -/
structure Later (row row' : Share) : Prop extends Same row row' where
  revoked : row.revokedAt ≠ none → row'.revokedAt ≠ none
  body : row'.body = row.body ∨ row'.body = .empty

theorem Same.refl (row : Share) : Same row row := ⟨rfl,rfl,rfl,rfl,rfl,rfl⟩

theorem Same.trans {row row' row'' : Share} (h : Same row row') (h' : Same row' row'') :
    Same row row'' :=
  ⟨h'.id.trans h.id,h'.recordingId.trans h.recordingId,h'.userId.trans h.userId,
    h'.token.trans h.token,h'.maxViews.trans h.maxViews,h'.expiresAt.trans h.expiresAt⟩

theorem Later.refl (row : Share) : Later row row := ⟨.refl row,id,.inl rfl⟩

theorem Later.trans {row row' row'' : Share} (h : Later row row') (h' : Later row' row'') :
    Later row row'' := by
  refine ⟨h.toSame.trans h'.toSame,fun hr => h'.revoked (h.revoked hr),?_⟩
  rcases h'.body with hb | hb
  · rw [hb]
    exact h.body
  · exact .inr hb

theorem later_viewed (row : Share) : Later row row.viewed := ⟨⟨rfl,rfl,rfl,rfl,rfl,rfl⟩,id,.inl rfl⟩

theorem later_refunded (row : Share) : Later row row.refunded :=
  ⟨⟨rfl,rfl,rfl,rfl,rfl,rfl⟩,id,.inl rfl⟩

theorem later_revoked (row : Share) (now : ℕ) : Later row (row.revoked now) :=
  ⟨⟨rfl,rfl,rfl,rfl,rfl,rfl⟩,fun _ => Option.some_ne_none _,.inr rfl⟩

section

variable (m : Moment) (s : Store)

theorem exec_countView (token : ℕ) :
    (exec m s (.countView token)).1.shares = s.shares ∧
      (∀ c, (exec m s (.countView token)).2 ≠ .ok (some c)) ∨
    ∃ row ∈ s.shares.rows, row.countable token (s.clock + m.elapsed) ∧
      (exec m s (.countView token)).1.shares = s.shares.put row.viewed ∧
      ∀ c, (exec m s (.countView token)).2 = .ok (some c) → c = row.viewed.counted := by
  rcases exec_cases m s (.countView token) with ⟨he,_⟩ | ⟨hs,hx,_⟩
  · rw [he]
    exact .inl ⟨rfl,fun c hc => by cases hc⟩
  · rw [hs]
    simp only [execute] at hx ⊢
    cases hrow : (s.tick m).shares.rows.find? (·.countable token (s.tick m).clock) with
    | none =>
      rw [hrow] at hx
      refine .inl ⟨rfl,?_⟩
      intro c hc
      rcases hx with hx | ⟨hx,_⟩ <;> rw [hx] at hc <;> cases hc
    | some row =>
      rw [hrow] at hx
      have hcountable := List.find?_some hrow
      refine .inr ⟨row,List.mem_of_find?_eq_some hrow,hcountable,rfl,?_⟩
      intro c hc
      rcases hx with hx | ⟨hx,_⟩ <;> rw [hx] at hc <;> cases hc
      rfl

theorem exec_refundView (k : ℕ) :
    (exec m s (.refundView k)).1.shares = s.shares ∨
      (exec m s (.refundView k)).1.shares =
        s.shares.update k Share.refunded (fun _ => rfl) := by
  rcases exec_cases m s (.refundView k) with ⟨he,_⟩ | ⟨he,_⟩
  · rw [he]
    exact .inl rfl
  · rw [he]
    exact .inr rfl

theorem exec_insertShare (row : Share) :
    (exec m s (.insertShare row)).1.shares = s.shares ∧
      (exec m s (.insertShare row)).2 ≠ .ok () ∨
    (exec m s (.insertShare row)).1.shares = s.shares.put row ∧ s.shares.get? row.id = none ∧
      (s.recordings.get? row.recordingId).isSome := by
  rcases exec_cases m s (.insertShare row) with ⟨he,_⟩ | ⟨he,hx,_⟩
  · rw [he]
    exact .inl ⟨rfl,fun hc => by cases hc⟩
  · rw [he]
    simp only [execute] at hx ⊢
    split
    · rename_i hconflict
      rw [if_pos hconflict] at hx
      refine .inl ⟨rfl,?_⟩
      intro hc
      rcases hx with hx | ⟨hx,_⟩ <;> rw [hx] at hc <;> cases hc
    · rename_i hfree
      simp only [not_or,Bool.not_eq_true,Option.isSome_eq_false_iff,Option.isNone_iff_eq_none]
        at hfree
      exact .inr ⟨rfl,hfree.1,Option.isSome_iff_ne_none.mpr hfree.2.2⟩

theorem exec_deleteRecording (k : ℕ) (userId : String) :
    (exec m s (.deleteRecording k userId)).1.recordings = s.recordings ∧
      (exec m s (.deleteRecording k userId)).1.shares = s.shares ∧
      (∀ ids, (exec m s (.deleteRecording k userId)).2 = .ok ids → ids = []) ∨
    m.fate ≠ .refused ∧ (∃ row, s.recordings.get? k = some row) ∧
      (exec m s (.deleteRecording k userId)).1.recordings = s.recordings.erase k ∧
      (exec m s (.deleteRecording k userId)).1.shares = s.shares.keep (·.recordingId ≠ k) := by
  rcases exec_cases m s (.deleteRecording k userId) with ⟨he,_⟩ | ⟨he,hx,hfate⟩
  · rw [he]
    exact .inl ⟨rfl,rfl,fun ids hc => by cases hc⟩
  · rw [he]
    simp only [execute] at hx ⊢
    split
    · rename_i hfound
      obtain ⟨row,hrow⟩ := Option.isSome_iff_exists.mp hfound
      refine .inr ⟨?_,⟨row,(Option.filter_eq_some_iff.mp hrow).1⟩,rfl,rfl⟩
      intro hrefused
      rcases hfate hrefused with h | h <;> cases h
    · rename_i hnone
      rw [if_neg hnone] at hx
      refine .inl ⟨rfl,rfl,?_⟩
      intro ids hc
      rcases hx with hx | ⟨hx,_⟩ <;> rw [hx] at hc <;> cases hc
      rfl

theorem exec_revokeShare (k recordingId : ℕ) (userId : String) :
    (exec m s (.revokeShare k recordingId userId)).1.shares = s.shares ∧
      (∀ rows, (exec m s (.revokeShare k recordingId userId)).2 = .ok rows → rows = []) ∨
    ∃ row, s.shares.get? k = some row ∧
      (exec m s (.revokeShare k recordingId userId)).1.shares =
        s.shares.put (row.revoked (s.clock + m.elapsed)) := by
  rcases exec_cases m s (.revokeShare k recordingId userId) with ⟨he,_⟩ | ⟨he,hx,_⟩
  · rw [he]
    exact .inl ⟨rfl,fun rows hc => by cases hc⟩
  · rw [he]
    simp only [execute] at hx ⊢
    split
    · rename_i row hget
      exact .inr ⟨row,(Option.filter_eq_some_iff.mp hget).1,rfl⟩
    · rename_i hnone
      rw [hnone] at hx
      refine .inl ⟨rfl,?_⟩
      intro rows hc
      rcases hx with hx | ⟨hx,_⟩ <;> rw [hx] at hc <;> cases hc
      rfl

theorem exec_putObject (key : Key) (blob : String) :
    (exec m s (.putObject key blob)).1.bucket = s.bucket ∧
      (exec m s (.putObject key blob)).1.written = s.written ∧
      (exec m s (.putObject key blob)).2 ≠ .ok () ∨
    (exec m s (.putObject key blob)).1.bucket =
        s.bucket.put ⟨key,blob,s.clock + m.elapsed⟩ ∧
      (exec m s (.putObject key blob)).1.written = (key,s.clock + m.elapsed) :: s.written ∧
      ((exec m s (.putObject key blob)).2 = .ok () ∨ m.fate = .lost) := by
  rcases exec_cases m s (.putObject key blob) with ⟨he,_⟩ | ⟨he,hx,hfate⟩
  · rw [he]
    exact .inl ⟨rfl,rfl,fun hc => by cases hc⟩
  · rw [he]
    refine .inr ⟨rfl,rfl,?_⟩
    rcases hx with hx | ⟨_,hfate'⟩
    · exact .inl hx
    · right
      cases hf : m.fate with
      | answered => exact absurd hf hfate'
      | refused => rcases hfate hf with h | h <;> cases h
      | lost => rfl

theorem exec_deleteObject (key : Key) (cleanup : Bool) :
    (exec m s (.deleteObject key cleanup)).1.bucket = s.bucket ∧
      (exec m s (.deleteObject key cleanup)).2 ≠ .ok () ∧ cleanup = false ∨
    (exec m s (.deleteObject key cleanup)).1.bucket = s.bucket.erase key := by
  rcases exec_cases m s (.deleteObject key cleanup) with ⟨he,hcleanup⟩ | ⟨he,_⟩
  · rw [he]
    exact .inl ⟨rfl,(fun hc => by cases hc),hcleanup⟩
  · rw [he]
    exact .inr rfl

variable {m : Moment} {s : Store} {r : Request}

def Request.touchesViews : Request → Bool
  | .insertShare _ => true
  | .countView _ => true
  | .refundView _ => true
  | _ => false

def Request.revokes (k : ℕ) : Request → Prop
  | .revokeShare k' .. => k' = k
  | _ => False

/-- No other request makes a share or changes the views of one, and only a revoke takes its bytes. -/
theorem shares_exec (hr : r.touchesViews = false) :
    ∀ row' ∈ (exec m s r).1.shares.rows, ∃ row ∈ s.shares.rows, Later row row' ∧
      (row'.body = row.body ∨ r.revokes row.id) ∧ row'.views = row.views := by
  intro row' hrow'
  have hsame : row' ∈ s.shares.rows → ∃ row ∈ s.shares.rows, Later row row' ∧
      (row'.body = row.body ∨ r.revokes row.id) ∧ row'.views = row.views :=
    fun h => ⟨row',h,.refl row',.inl rfl,rfl⟩
  cases r with
  | insertShare row => cases hr
  | countView token => cases hr
  | refundView k => cases hr
  | deleteRecording k userId =>
    rcases exec_deleteRecording m s k userId with ⟨_,he,_⟩ | ⟨_,_,_,he⟩
    · rw [he] at hrow'
      exact hsame hrow'
    · rw [he] at hrow'
      exact hsame (List.mem_filter.mp hrow').1
  | revokeShare k recordingId userId =>
    rcases exec_revokeShare m s k recordingId userId with ⟨he,_⟩ | ⟨row,hget,he⟩
    · rw [he] at hrow'
      exact hsame hrow'
    · rw [he] at hrow'
      rcases Table.mem_rows_put hrow' with rfl | hold
      · exact ⟨row,Table.mem_of_get? hget,later_revoked row _,.inr (Table.key_of_get? hget).symm,rfl⟩
      · exact hsame hold
  | insertRecording row =>
    rcases exec_cases m s (.insertRecording row) with ⟨he,_⟩ | ⟨he,_⟩
    · rw [he] at hrow'
      exact hsame hrow'
    · rw [he] at hrow'
      simp only [execute] at hrow'
      split at hrow' <;> exact hsame hrow'
  | _ =>
    rcases exec_cases m s _ with ⟨he,_⟩ | ⟨he,_⟩
    · rw [he] at hrow'
      exact hsame hrow'
    · rw [he] at hrow'
      exact hsame hrow'

theorem rows_exec (m : Moment) (s : Store) (r : Request) :
    ∀ row' ∈ (exec m s r).1.shares.rows,
      (r = .insertShare row' ∧ (s.recordings.get? row'.recordingId).isSome) ∨
        ∃ row ∈ s.shares.rows, Later row row' ∧ (row'.body = row.body ∨ r.revokes row.id) := by
  intro row' hrow'
  cases ht : r.touchesViews with
  | false =>
    obtain ⟨row,hrow,hlater,hbody,_⟩ := shares_exec ht row' hrow'
    exact .inr ⟨row,hrow,hlater,hbody⟩
  | true =>
    cases r with
    | insertShare row =>
      rcases exec_insertShare m s row with ⟨he,_⟩ | ⟨he,_,hparent⟩
      · rw [he] at hrow'
        exact .inr ⟨row',hrow',.refl row',.inl rfl⟩
      · rw [he] at hrow'
        rcases Table.mem_rows_put hrow' with rfl | hold
        · exact .inl ⟨rfl,hparent⟩
        · exact .inr ⟨row',hold,.refl row',.inl rfl⟩
    | countView token =>
      rcases exec_countView m s token with ⟨he,_⟩ | ⟨row,hrow,_,he,_⟩
      · rw [he] at hrow'
        exact .inr ⟨row',hrow',.refl row',.inl rfl⟩
      · rw [he] at hrow'
        rcases Table.mem_rows_put hrow' with rfl | hold
        · exact .inr ⟨row,hrow,later_viewed row,.inl rfl⟩
        · exact .inr ⟨row',hold,.refl row',.inl rfl⟩
    | refundView k =>
      rcases exec_refundView m s k with he | he
      · rw [he] at hrow'
        exact .inr ⟨row',hrow',.refl row',.inl rfl⟩
      · rw [he] at hrow'
        rcases Table.mem_rows_update.mp hrow' with ⟨row,hrow,_,rfl⟩ | ⟨hold,_⟩
        · exact .inr ⟨row,hrow,later_refunded row,.inl rfl⟩
        · exact .inr ⟨row',hold,.refl row',.inl rfl⟩
    | _ => cases ht

theorem shares_stay (m : Moment) (s : Store) (r : Request) {row : Share}
    (hrow : row ∈ s.shares.rows) :
    (∃ row' ∈ (exec m s r).1.shares.rows, row'.body = row.body) ∨
      row.revoked (s.clock + m.elapsed) ∈ (exec m s r).1.shares.rows ∨
      ∃ userId, r = .deleteRecording row.recordingId userId ∧ m.fate ≠ .refused := by
  have hother : ∀ row' : Share, row.id ≠ row'.id → ∃ x ∈ (s.shares.put row').rows,
      x.body = row.body := fun row' hne =>
    ⟨row,Table.mem_rows_put_iff.mpr (.inr ⟨hrow,hne⟩),rfl⟩
  cases r with
  | insertShare new =>
    left
    rcases exec_insertShare m s new with ⟨he,_⟩ | ⟨he,hnone,_⟩
    · exact ⟨row,he ▸ hrow,rfl⟩
    · rw [he]
      exact hother new (Table.get?_eq_none_iff.mp hnone row hrow)
  | countView token =>
    left
    rcases exec_countView m s token with ⟨he,_⟩ | ⟨seen,hseen,_,he,_⟩
    · exact ⟨row,he ▸ hrow,rfl⟩
    · rw [he]
      by_cases hid : row.id = seen.id
      · have hget := Table.get?_of_mem hrow
        rw [hid,Table.get?_of_mem hseen] at hget
        obtain rfl := Option.some.inj hget
        exact ⟨seen.viewed,Table.mem_rows_put_iff.mpr (.inl rfl),rfl⟩
      · exact hother seen.viewed hid
  | refundView k =>
    left
    rcases exec_refundView m s k with he | he
    · exact ⟨row,he ▸ hrow,rfl⟩
    · rw [he]
      by_cases hid : row.id = k
      · exact ⟨row.refunded,Table.mem_rows_update.mpr (.inl ⟨row,hrow,hid,rfl⟩),rfl⟩
      · exact ⟨row,Table.mem_rows_update.mpr (.inr ⟨hrow,hid⟩),rfl⟩
  | deleteRecording k userId =>
    rcases exec_deleteRecording m s k userId with ⟨_,he,_⟩ | ⟨hfate,_,_,he⟩
    · exact .inl ⟨row,he ▸ hrow,rfl⟩
    · by_cases hk : row.recordingId = k
      · exact .inr (.inr ⟨userId,by rw [hk],hfate⟩)
      · exact .inl ⟨row,by rw [he]; exact List.mem_filter.mpr ⟨hrow,decide_eq_true hk⟩,rfl⟩
  | revokeShare k recordingId userId =>
    rcases exec_revokeShare m s k recordingId userId with ⟨he,_⟩ | ⟨found,hget,he⟩
    · exact .inl ⟨row,he ▸ hrow,rfl⟩
    · have hfound : found.id = k := Table.key_of_get? hget
      by_cases hid : row.id = k
      · rw [← hid,Table.get?_of_mem hrow] at hget
        obtain rfl := Option.some.inj hget
        exact .inr (.inl (by rw [he]; exact Table.mem_rows_put_iff.mpr (.inl rfl)))
      · left
        rw [he]
        exact hother (found.revoked (s.clock + m.elapsed)) (fun h => hid (h.trans hfound))
  | insertRecording new =>
    left
    rcases exec_cases m s (.insertRecording new) with ⟨he,_⟩ | ⟨he,_⟩
    · exact ⟨row,he ▸ hrow,rfl⟩
    · rw [he]
      simp only [execute]
      split <;> exact ⟨row,hrow,rfl⟩
  | _ =>
    left
    rcases exec_cases m s _ with ⟨he,_⟩ | ⟨he,_⟩
    · rw [he]
      exact ⟨row,hrow,rfl⟩
    · rw [he]
      exact ⟨row,hrow,rfl⟩

theorem recordings_exec (m : Moment) (s : Store) (r : Request) :
    ∀ row ∈ (exec m s r).1.recordings.rows, r = .insertRecording row ∨ row ∈ s.recordings.rows := by
  intro row hrow
  rcases exec_cases m s r with ⟨he,_⟩ | ⟨he,_⟩
  · rw [he] at hrow
    exact .inr hrow
  · rw [he,execute_recordings] at hrow
    split at hrow
    · split at hrow
      · exact .inr hrow
      · rcases Table.mem_rows_put hrow with rfl | hold
        · exact .inl rfl
        · exact .inr hold
    · split at hrow
      · exact .inr (Table.mem_rows_erase.mp hrow).1
      · exact .inr hrow
    · exact .inr hrow

theorem bucket_exec (m : Moment) (s : Store) (r : Request) :
    ∀ object ∈ (exec m s r).1.bucket.rows,
      (r = .putObject object.key object.blob ∧ object.lastModified = s.clock + m.elapsed) ∨
        object ∈ s.bucket.rows := by
  intro object hobject
  rcases exec_cases m s r with ⟨he,_⟩ | ⟨he,_⟩
  · rw [he] at hobject
    exact .inr hobject
  · rw [he,execute_bucket] at hobject
    split at hobject
    · rcases Table.mem_rows_put hobject with rfl | hold
      · exact .inl ⟨rfl,rfl⟩
      · exact .inr hold
    · exact .inr (Table.mem_rows_erase.mp hobject).1
    · exact .inr hobject

theorem clock_exec (m : Moment) (s : Store) (r : Request) :
    (exec m s r).1.clock = s.clock + m.elapsed := by
  rcases exec_cases m s r with ⟨he,_⟩ | ⟨he,_⟩
  · rw [he]
    rfl
  · rw [he,execute_clock]
    rfl

end

end WeirdVault.Shares
