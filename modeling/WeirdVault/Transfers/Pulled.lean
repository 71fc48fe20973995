import Mathlib.Data.Nat.Find
import WeirdVault.Transfers.Tar

/-!
# Reading an upload from its source

`jsPullReader.Read`, and the copy loop of an upload or a tar stream, whose buffers may have any
size. What a source hands back is numbered.
-/

namespace WeirdVault.Transfers.Pulled

open Tar (Bytes)

inductive Value where
  | null
  | undefined
  | bytes (b : Bytes)
  deriving DecidableEq

/-- A value, a promise of one, or a promise that is rejected with an error. A rejection with a
primitive, on which `await` panics, is left out. -/
inductive Handed where
  | direct (value : Value)
  | fulfilled (value : Value)
  | rejected (reason : String)
  deriving DecidableEq

def Handed.settled : Handed → Except String Value
  | .direct value => .ok value
  | .fulfilled value => .ok value
  | .rejected reason => .error ("source: " ++ reason)

def Handed.chunk? (h : Handed) : Option Bytes :=
  match h.settled with
  | .ok (.bytes b) => some b
  | _ => none

/-- How often the source was asked, and what is left of its last chunk. -/
structure JsPullReader where
  asked : Nat
  buf : Bytes
  deriving DecidableEq

inductive Stop where
  | eof
  | error (message : String)
  deriving DecidableEq

section

variable (next : Nat → Handed)

/-- The loop of the source does not come round again: an empty chunk ends it. -/
def JsPullReader.read (r : JsPullReader) (size : Nat) : Except Stop Bytes × JsPullReader :=
  if r.buf = [] then
    match (next r.asked).settled with
    | .error message => (.error (.error message),⟨r.asked+1,r.buf⟩)
    | .ok .null => (.error .eof,⟨r.asked+1,r.buf⟩)
    | .ok .undefined => (.error .eof,⟨r.asked+1,r.buf⟩)
    | .ok (.bytes b) =>
      if b = [] then (.error .eof,⟨r.asked+1,b⟩)
      else (.ok (b.take size),⟨r.asked+1,b.drop size⟩)
  else (.ok (r.buf.take size),⟨r.asked,r.buf.drop size⟩)

/-- `io.CopyBuffer` with buffers of those sizes: what the remote side is sent, what ended it, and
the reader behind it. Only an end of file is a success. -/
def copy : List Nat → JsPullReader → Bytes × Option Stop × JsPullReader
  | [],r => ([],none,r)
  | size :: sizes,r =>
    match r.read next size with
    | (.error stop,r) => ([],some stop,r)
    | (.ok b,r) =>
      let (rest,stop,r) := copy sizes r
      (b ++ rest,stop,r)

def chunks (k : Nat) : List Bytes := (List.range k).filterMap fun i => (next i).chunk?

/-- `k` answers were chunks and the one behind them, which was handed out last, satisfies `p`. -/
def EndsWith (p : Except String Value → Prop) (r : JsPullReader) (k : Nat) : Prop :=
  r.asked = k+1 ∧ p (next k).settled ∧ ∀ i < k, (next i).chunk?.isSome

/-- What a copy is to be: everything that the source hands out up to its end and no more, an end of
file only for `null` or `undefined`, an error only for a rejection, and an end of either kind once
more has been read than there is. -/
structure Faithful (sizes : List Nat) (outcome : Bytes × Option Stop × JsPullReader) : Prop where
  sent : outcome.1 <+: (chunks next outcome.2.2.asked).flatten
  eof : outcome.2.1 = some .eof →
    ∃ k, EndsWith next (fun v => v = .ok .null ∨ v = .ok .undefined) outcome.2.2 k ∧
      outcome.1 = (chunks next k).flatten
  error : ∀ message, outcome.2.1 = some (.error message) →
    ∃ k, EndsWith next (fun v => v = .error message) outcome.2.2 k ∧
      outcome.1 = (chunks next k).flatten
  ends : ∀ k, (next k).chunk? = none → (∀ size ∈ sizes, 0 < size) →
    (chunks next k).flatten.length < sizes.length → outcome.2.1 ≠ none

/-- No chunk before the end of the source is empty. -/
def NoEmpty : Prop := ∀ k, (∀ i ≤ k, (next i).chunk?.isSome) → (next k).chunk? ≠ some []

variable {next}

private theorem chunks_succ (k : Nat) :
    chunks next (k+1) = chunks next k ++ (next k).chunk?.toList := by
  rw [chunks,List.range_succ,List.filterMap_append]
  cases h : (next k).chunk? with
  | none => simp [h,chunks]
  | some b => simp [h,chunks]

private theorem chunks_grow {j k : Nat} (h : j ≤ k) :
    (chunks next j).flatten <+: (chunks next k).flatten := by
  induction k with
  | zero =>
    obtain rfl := Nat.le_zero.mp h
    exact List.prefix_refl _
  | succ k ih =>
    by_cases hlast : j = k+1
    · subst hlast
      exact List.prefix_refl _
    · rw [chunks_succ,List.flatten_append]
      exact (ih (by omega)).trans (List.prefix_append _ _)

private theorem chunk?_eq_some {h : Handed} {b : Bytes} :
    h.chunk? = some b ↔ h.settled = .ok (.bytes b) := by
  rw [Handed.chunk?]
  split
  · rename_i b' hsettled
    simp [hsettled]
  · rename_i hother
    simp only [reduceCtorEq,false_iff]
    exact hother b

/-- What was sent and what is left over are the chunks that were taken. -/
structure Kept (next : Nat → Handed) (r : JsPullReader) (done : Bytes) : Prop where
  taken : done ++ r.buf = (chunks next r.asked).flatten
  all : ∀ i < r.asked, (next i).chunk?.isSome

private theorem Kept.take {r : JsPullReader} {done : Bytes} (h : Kept next r done) (size : Nat) :
    Kept next ⟨r.asked,r.buf.drop size⟩ (done ++ r.buf.take size) where
  taken := by rw [List.append_assoc,List.take_append_drop,h.taken]
  all := h.all

private theorem Kept.fetch {r : JsPullReader} {done b : Bytes} (h : Kept next r done)
    (hempty : r.buf = []) (hchunk : (next r.asked).chunk? = some b) :
    Kept next ⟨r.asked+1,b⟩ done where
  taken := by
    have htaken := h.taken
    rw [hempty,List.append_nil] at htaken
    rw [chunks_succ,List.flatten_append,← htaken,hchunk]
    simp
  all := by
    intro i hi
    by_cases hlast : i = r.asked
    · rw [hlast,hchunk]
      rfl
    · exact h.all i (by dsimp only at hi; omega)

private theorem Kept.sent {r : JsPullReader} {done : Bytes} (h : Kept next r done) :
    done <+: (chunks next r.asked).flatten := by
  rw [← h.taken]
  exact List.prefix_append _ _

variable (next) in
private theorem read_cases (r : JsPullReader) (size : Nat) :
    (r.buf ≠ [] ∧ r.read next size = (.ok (r.buf.take size),⟨r.asked,r.buf.drop size⟩)) ∨
    (r.buf = [] ∧ ∃ b, (next r.asked).chunk? = some b ∧ b ≠ [] ∧
      r.read next size = (.ok (b.take size),⟨r.asked+1,b.drop size⟩)) ∨
    (r.buf = [] ∧ (next r.asked).chunk? = some [] ∧
      r.read next size = (.error .eof,⟨r.asked+1,[]⟩)) ∨
    (r.buf = [] ∧ ((next r.asked).settled = .ok .null ∨ (next r.asked).settled = .ok .undefined) ∧
      r.read next size = (.error .eof,⟨r.asked+1,[]⟩)) ∨
    r.buf = [] ∧ ∃ message, (next r.asked).settled = .error message ∧
      r.read next size = (.error (.error message),⟨r.asked+1,[]⟩) := by
  by_cases hbuf : r.buf = []
  · cases hsettled : (next r.asked).settled with
    | error message =>
      refine Or.inr (Or.inr (Or.inr (Or.inr ⟨hbuf,message,rfl,?_⟩)))
      simp only [JsPullReader.read,if_true,hsettled,hbuf]
    | ok value =>
      cases value with
      | null =>
        refine Or.inr (Or.inr (Or.inr (Or.inl ⟨hbuf,Or.inl rfl,?_⟩)))
        simp only [JsPullReader.read,if_true,hsettled,hbuf]
      | undefined =>
        refine Or.inr (Or.inr (Or.inr (Or.inl ⟨hbuf,Or.inr rfl,?_⟩)))
        simp only [JsPullReader.read,if_true,hsettled,hbuf]
      | bytes b =>
        have hchunk := chunk?_eq_some.mpr hsettled
        by_cases hb : b = []
        · subst hb
          refine Or.inr (Or.inr (Or.inl ⟨hbuf,hchunk,?_⟩))
          simp only [JsPullReader.read,hbuf,hsettled,if_true]
        · refine Or.inr (Or.inl ⟨hbuf,b,hchunk,hb,?_⟩)
          simp only [JsPullReader.read,hbuf,if_true,hsettled,if_neg hb]
  · exact Or.inl ⟨hbuf,if_neg hbuf⟩

private theorem Kept.read {r r' : JsPullReader} {done b : Bytes} {size : Nat} (h : Kept next r done)
    (hread : r.read next size = (.ok b,r')) : Kept next r' (done ++ b) ∧ (0 < size → b ≠ []) := by
  have hsome : ∀ {b' : Bytes}, b' ≠ [] → 0 < size → b'.take size ≠ [] := by
    intro b' hb' hsize hnil
    rcases List.take_eq_nil_iff.mp hnil with hzero | hempty
    · omega
    · exact hb' hempty
  rcases read_cases next r size with ⟨hbuf,he⟩ | ⟨hbuf,b',hchunk,hb',he⟩ | ⟨-,-,he⟩ |
    ⟨-,-,he⟩ | ⟨-,message,-,he⟩
  · rw [hread] at he
    obtain ⟨hb,rfl⟩ := Prod.mk.inj he
    obtain rfl := Except.ok.inj hb
    exact ⟨h.take size,hsome hbuf⟩
  · rw [hread] at he
    obtain ⟨hb,rfl⟩ := Prod.mk.inj he
    obtain rfl := Except.ok.inj hb
    exact ⟨(h.fetch hbuf hchunk).take size,hsome hb'⟩
  · rw [hread] at he
    cases (Prod.mk.inj he).1
  · rw [hread] at he
    cases (Prod.mk.inj he).1
  · rw [hread] at he
    cases (Prod.mk.inj he).1

private theorem copy_ok {r r' : JsPullReader} {b : Bytes} {size : Nat}
    (h : r.read next size = (.ok b,r')) (sizes : List Nat) :
    copy next (size :: sizes) r =
      (b ++ (copy next sizes r').1,(copy next sizes r').2.1,(copy next sizes r').2.2) := by
  simp only [copy,h]

private theorem copy_stop {r r' : JsPullReader} {stop : Stop} {size : Nat}
    (h : r.read next size = (.error stop,r')) (sizes : List Nat) :
    copy next (size :: sizes) r = ([],some stop,r') := by
  simp only [copy,h]

private theorem copy_unstopped {sizes : List Nat} {r : JsPullReader} {done : Bytes}
    (h : Kept next r done) (hnone : (copy next sizes r).2.1 = none)
    (hsizes : ∀ size ∈ sizes, 0 < size) :
    Kept next (copy next sizes r).2.2 (done ++ (copy next sizes r).1) ∧
      sizes.length ≤ (copy next sizes r).1.length := by
  induction sizes generalizing r done with
  | nil => exact ⟨by simpa [copy] using h,Nat.le_refl _⟩
  | cons size sizes ih =>
    cases hread : r.read next size with
    | mk got r' =>
      cases got with
      | error stop =>
        rw [copy_stop hread] at hnone
        cases hnone
      | ok b =>
        obtain ⟨hkept,hb⟩ := h.read hread
        rw [copy_ok hread] at hnone ⊢
        obtain ⟨hrest,hlength⟩ := ih hkept hnone fun size' h' =>
          hsizes size' (List.mem_cons_of_mem size h')
        have hone := List.length_pos_of_ne_nil (hb (hsizes size (by simp)))
        rw [List.append_assoc] at hrest
        refine ⟨hrest,?_⟩
        simp only [List.length_append,List.length_cons]
        omega

private structure Sound (next : Nat → Handed) (done : Bytes)
    (outcome : Bytes × Option Stop × JsPullReader) : Prop where
  sent : done ++ outcome.1 <+: (chunks next outcome.2.2.asked).flatten
  eof : outcome.2.1 = some .eof →
    ∃ k, EndsWith next (fun v => v = .ok .null ∨ v = .ok .undefined) outcome.2.2 k ∧
      done ++ outcome.1 = (chunks next k).flatten
  error : ∀ message, outcome.2.1 = some (.error message) →
    ∃ k, EndsWith next (fun v => v = .error message) outcome.2.2 k ∧
      done ++ outcome.1 = (chunks next k).flatten

private theorem copy_sound (hfull : NoEmpty next) {r : JsPullReader} {done : Bytes}
    (h : Kept next r done) (sizes : List Nat) : Sound next done (copy next sizes r) := by
  induction sizes generalizing r done with
  | nil => exact ⟨by simpa [copy] using h.sent,by simp [copy],by simp [copy]⟩
  | cons size sizes ih =>
    have hall := h.all
    have htaken := h.taken
    have hended : (chunks next r.asked).flatten <+: (chunks next (r.asked+1)).flatten :=
      chunks_grow (by omega)
    have hbytes : ∀ {b : Bytes} {r' : JsPullReader}, r.read next size = (.ok b,r') →
        Sound next done (copy next (size :: sizes) r) := by
      intro b r' hread
      have hrest := ih (h.read hread).1
      rw [copy_ok hread]
      constructor
      · simpa using hrest.sent
      · simpa using hrest.eof
      · simpa using hrest.error
    rcases read_cases next r size with ⟨-,he⟩ | ⟨-,b,-,-,he⟩ | ⟨-,hchunk,-⟩ |
      ⟨hbuf,hend,he⟩ | ⟨hbuf,message,hend,he⟩
    · exact hbytes he
    · exact hbytes he
    · refine absurd hchunk (hfull r.asked ?_)
      intro i hi
      by_cases hlast : i = r.asked
      · rw [hlast,hchunk]
        rfl
      · exact hall i (by omega)
    · rw [hbuf,List.append_nil] at htaken
      rw [copy_stop he]
      refine ⟨by simpa [htaken] using hended,?_,by simp⟩
      intro _
      exact ⟨r.asked,⟨rfl,hend,hall⟩,by simpa using htaken⟩
    · rw [hbuf,List.append_nil] at htaken
      rw [copy_stop he]
      refine ⟨by simpa [htaken] using hended,by simp,?_⟩
      intro message' hsame
      obtain rfl := Stop.error.inj (Option.some.inj hsame)
      exact ⟨r.asked,⟨rfl,hend,hall⟩,by simpa using htaken⟩

private theorem kept_start : Kept next ⟨0,[]⟩ [] := ⟨rfl,fun i hi => absurd hi (Nat.not_lt_zero i)⟩

private theorem copy_ends (sizes : List Nat) {k : Nat} (hend : (next k).chunk? = none)
    (hsizes : ∀ size ∈ sizes, 0 < size) (hmany : (chunks next k).flatten.length < sizes.length) :
    (copy next sizes ⟨0,[]⟩).2.1 ≠ none := by
  intro hnone
  obtain ⟨hkept,hlength⟩ := copy_unstopped kept_start hnone hsizes
  have hasked : (copy next sizes ⟨0,[]⟩).2.2.asked ≤ k := by
    by_contra hmore
    have hsome := hkept.all k (by omega)
    rw [hend] at hsome
    cases hsome
  have hfew := (hkept.sent.trans (chunks_grow hasked)).length_le
  rw [List.nil_append] at hfew
  omega

private theorem copy_to_empty {k : Nat} {done : Nat → Bytes}
    (hchunks : ∀ i < k, (next i).chunk? = some (done i) ∧ done i ≠ [])
    (hempty : (next k).chunk? = some []) {i : Nat} (hi : i ≤ k) :
    ∃ sizes, (copy next sizes ⟨i,[]⟩).2.1 = some .eof ∧
      (copy next sizes ⟨i,[]⟩).2.2.asked = k+1 := by
  induction hn : k-i generalizing i with
  | zero =>
    obtain rfl : i = k := by omega
    refine ⟨[1],?_⟩
    have hread : (⟨i,[]⟩ : JsPullReader).read next 1 = (.error .eof,⟨i+1,[]⟩) := by
      simp only [JsPullReader.read,if_true,chunk?_eq_some.mp hempty]
    rw [copy_stop hread]
    exact ⟨rfl,rfl⟩
  | succ n ih =>
    obtain ⟨hchunk,hne⟩ := hchunks i (by omega)
    obtain ⟨sizes,hrest⟩ := @ih (i+1) (by omega) (by omega)
    refine ⟨(done i).length :: sizes,?_⟩
    have hread : (⟨i,[]⟩ : JsPullReader).read next (done i).length = (.ok (done i),⟨i+1,[]⟩) := by
      simp only [JsPullReader.read,if_true,chunk?_eq_some.mp hchunk,if_neg hne,List.take_length,
        List.drop_length]
    rw [copy_ok hread]
    exact hrest

end

/-- Whatever the sizes of the buffers, exactly a source without an empty chunk is sent whole. -/
theorem copy_faithful_iff (next : Nat → Handed) :
    (∀ sizes, Faithful next sizes (copy next sizes ⟨0,[]⟩)) ↔ NoEmpty next := by
  constructor
  · intro hall k hchunks hempty
    have hfirst : ∃ k, (∀ i ≤ k, (next i).chunk?.isSome) ∧ (next k).chunk? = some [] :=
      ⟨k,hchunks,hempty⟩
    classical
    obtain ⟨hbefore,hnil⟩ := Nat.find_spec hfirst
    have hleast := fun i hi => Nat.find_min hfirst (m := i) hi
    generalize Nat.find hfirst = first at hbefore hnil hleast
    have hfull : ∀ i < first, (next i).chunk? = some ((next i).chunk?.getD []) ∧
        (next i).chunk?.getD [] ≠ [] := by
      intro i hi
      obtain ⟨b,hb⟩ := Option.isSome_iff_exists.mp (hbefore i (by omega))
      rw [hb]
      refine ⟨rfl,?_⟩
      rintro rfl
      exact hleast i hi ⟨fun j hj => hbefore j (by omega),hb⟩
    obtain ⟨sizes,heof,hasked⟩ := copy_to_empty hfull hnil (Nat.zero_le first)
    obtain ⟨k',⟨hasked',hend,-⟩,-⟩ := (hall sizes).eof heof
    obtain rfl : k' = first := by omega
    rw [chunk?_eq_some.mp hnil] at hend
    rcases hend with hnull | hundefined
    · cases hnull
    · cases hundefined
  · intro hfull sizes
    have hsound := copy_sound hfull kept_start sizes
    refine ⟨by simpa using hsound.sent,by simpa using hsound.eof,by simpa using hsound.error,?_⟩
    intro k hend hsizes hmany
    exact copy_ends sizes hend hsizes hmany

private def interrupted : Nat → Handed
  | 0 => .direct (.bytes [1,2])
  | 1 => .fulfilled (.bytes [])
  | 2 => .direct (.bytes [3])
  | _ => .fulfilled .null

theorem copy_stops_short : ¬ ∀ (next : Nat → Handed) (sizes : List Nat),
    Faithful next sizes (copy next sizes ⟨0,[]⟩) := by
  intro hall
  obtain ⟨k,⟨hasked,hend,-⟩,-⟩ := (hall interrupted [4,4]).eof rfl
  obtain rfl : k = 1 := by
    have htwo : (copy interrupted [4,4] ⟨0,[]⟩).2.2.asked = 2 := rfl
    omega
  rcases hend with hnull | hundefined
  · cases hnull
  · cases hundefined

end WeirdVault.Transfers.Pulled
