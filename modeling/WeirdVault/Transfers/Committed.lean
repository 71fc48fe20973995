import WeirdVault.Transfers.Tar

/-!
# What a download commits

The three ways in which `downloadFile` saves a file, from the chunks that are read to the state in
which the destination is left.
-/

namespace WeirdVault.Transfers.Committed

open Tar (Bytes)

/-- How far a chunk comes: all the way, or to the read, the check of the signal, or `onProgress`. -/
inductive Fate where
  | served
  | readFails
  | cancelled
  | progressThrows
  deriving DecidableEq

abbrev Chunk := Bytes × Fate

def content (file : List Chunk) : Bytes := (file.map Prod.fst).flatten

inductive Outcome where
  | resolved
  | rejected
  | pending
  deriving DecidableEq

inductive State where
  | writable
  | closed
  | errored
  | cancelled
  deriving DecidableEq

/-- A stream that saves a file, and how many operations it has carried out. -/
structure Destination where
  written : Bytes
  state : State
  uses : Nat
  deriving DecidableEq

def Destination.opened : Destination := ⟨[],.writable,0⟩

/-- What the target holds in the end: a stream is only committed when it is closed. -/
def Destination.saved (d : Destination) (old : Option Bytes) : Option Bytes :=
  if d.state = .closed then some d.written else old

/-- The disk can fail at any operation, which leaves `failure`. A stream that is not writable any
more takes nothing. -/
def Destination.operate (breaks : Option Nat) (failure : State) (f : Destination → Destination)
    (d : Destination) : Destination :=
  if d.state = .writable then
    if breaks = some d.uses then { d with state := failure }
    else { f d with uses := d.uses+1 }
  else d

def Destination.append (chunk : Bytes) (d : Destination) : Destination :=
  { d with written := d.written ++ chunk }

def Destination.end (state : State) (d : Destination) : Destination := { d with state := state }

/-- `sftp.download`: the chunks one after the other, up to the first that fails. The read that finds
the end can fail as well. -/
def download {D : Type} (sink : D → Chunk → Outcome × D) (ends : Bool) :
    List Chunk → D → Outcome × D
  | [],d => (if ends then .resolved else .rejected,d)
  | chunk :: rest,d =>
    if chunk.2 = .readFails then (.rejected,d)
    else
      match sink d chunk with
      | (.resolved,d) => download sink ends rest d
      | (outcome,d) => (outcome,d)

/-- A sink that passes chunks on: `abort` is what it does about the signal, and `refused` how it ends
when the destination does not take the chunk. -/
def sink (abort take : Bytes → Destination → Destination) (refused : Outcome) (d : Destination)
    (chunk : Chunk) : Outcome × Destination :=
  match chunk.2 with
  | .cancelled => (.rejected,abort chunk.1 d)
  | .progressThrows => (.rejected,take chunk.1 d)
  | _ =>
    let d := take chunk.1 d
    (if d.state = .writable then .resolved else refused,d)

section

variable (breaks : Option Nat)

def write (chunk : Bytes) : Destination → Destination :=
  Destination.operate breaks .errored (Destination.append chunk)

def close : Destination → Destination := Destination.operate breaks .errored (Destination.end .closed)

def viaFileSystemAccess (ends : Bool) (file : List Chunk) : Outcome × Destination :=
  let (outcome,d) :=
    download (sink (fun _ d => d) (write breaks) .rejected) ends file .opened
  (outcome,close breaks d)

inductive Message where
  | chunk (b : Bytes)
  | null
  | abort
  deriving DecidableEq

/-- The worker's handler, which is taken away once the stream is not writable any more. A disk that
fails makes the browser cancel the stream. -/
def receive : Message → Destination → Destination
  | .chunk b => Destination.operate breaks .cancelled (Destination.append b)
  | .null => Destination.operate breaks .cancelled (Destination.end .closed)
  | .abort => Destination.operate breaks .cancelled (Destination.end .errored)

/-- A chunk that the worker does not handle is not answered, and `finally` is not reached. -/
def viaServiceWorker (ends : Bool) (file : List Chunk) : Outcome × Destination :=
  let (outcome,d) :=
    download (sink (fun _ => receive breaks .abort) (fun b => receive breaks (.chunk b)) .pending) ends
      file .opened
  (outcome,if outcome = .pending then d else receive breaks .null d)

end

/-- The signal is not looked at, and what `onProgress` throws ends the program that called it. -/
def blobSink (parts : Bytes) (chunk : Chunk) : Outcome × Bytes :=
  (if chunk.2 = .progressThrows then .pending else .resolved,parts ++ chunk.1)

/-- Without the link there is nothing to save. -/
def viaBlob (ends : Bool) (file : List Chunk) : Outcome × Destination :=
  let (outcome,parts) := download blobSink ends file []
  (outcome,if outcome = .resolved then ⟨parts,.closed,0⟩ else ⟨[],.errored,0⟩)

inductive Strategy where
  | fileSystemAccess
  | serviceWorker
  | blob
  deriving DecidableEq

def downloadFile (breaks : Option Nat) (ends : Bool) (file : List Chunk) :
    Strategy → Outcome × Destination
  | .fileSystemAccess => viaFileSystemAccess breaks ends file
  | .serviceWorker => viaServiceWorker breaks ends file
  | .blob => viaBlob ends file

/-- A destination that is closed holds the whole file, and any other is broken off and leaves the
target as it was. -/
structure Honest (file : List Chunk) (d : Destination) : Prop where
  whole : d.state = .closed → d.written = content file
  broken : d.state ≠ .closed →
    (d.state = .errored ∨ d.state = .cancelled) ∧ ∀ old, d.saved old = old

/-- None of the first operations of the destination fails, nor the next one. -/
def Intact (breaks : Option Nat) (uses : Nat) : Prop := ∀ k, breaks = some k → uses < k

/-- The copy stops with bytes left, for a reason that the destination is not told of, and the
destination itself does not fail. -/
def StopsShort (strategy : Strategy) (breaks : Option Nat) : Nat → List Chunk → Prop
  | _,[] => False
  | uses,(b,fate) :: rest =>
    match fate with
    | .served => StopsShort strategy breaks (uses+1) rest
    | .readFails => b ++ content rest ≠ [] ∧ Intact breaks uses
    | .cancelled => strategy = .fileSystemAccess ∧ b ++ content rest ≠ [] ∧ Intact breaks uses
    | .progressThrows => content rest ≠ [] ∧ Intact breaks (uses+1)

/-- The copy stops short in a way that the strategy takes for the end of the file. -/
def Truncates (breaks : Option Nat) (file : List Chunk) (strategy : Strategy) : Prop :=
  strategy ≠ .blob ∧ StopsShort strategy breaks 0 file

private theorem content_append (pre rest : List Chunk) :
    content (pre ++ rest) = content pre ++ content rest := by simp [content]

private theorem content_cons (c : Chunk) (rest : List Chunk) :
    content (c :: rest) = c.1 ++ content rest := by simp [content]

private theorem download_stops {D : Type} {next : D → Chunk → Outcome × D} {ends : Bool} {c : Chunk}
    {rest : List Chunk} {d d' : D} {outcome : Outcome} (hread : c.2 ≠ .readFails)
    (hsink : next d c = (outcome,d')) (hne : outcome ≠ .resolved) :
    download next ends (c :: rest) d = (outcome,d') := by
  rw [download,if_neg hread,hsink]
  cases outcome with
  | resolved => exact absurd rfl hne
  | rejected => rfl
  | pending => rfl

private theorem download_next {D : Type} {next : D → Chunk → Outcome × D} {ends : Bool} {c : Chunk}
    {rest : List Chunk} {d d' : D} (hread : c.2 ≠ .readFails)
    (hsink : next d c = (.resolved,d')) :
    download next ends (c :: rest) d = download next ends rest d' := by
  rw [download,if_neg hread,hsink]

section

variable {breaks : Option Nat} {failure : State} {f : Destination → Destination} {d : Destination}

private theorem operate_ended (h : d.state ≠ .writable) :
    Destination.operate breaks failure f d = d := if_neg h

private theorem operate_fails (h : d.state = .writable) (hbreaks : breaks = some d.uses) :
    Destination.operate breaks failure f d = { d with state := failure } := by
  rw [Destination.operate,if_pos h,if_pos hbreaks]

private theorem operate_works (h : d.state = .writable) (hbreaks : breaks ≠ some d.uses) :
    Destination.operate breaks failure f d = { f d with uses := d.uses+1 } := by
  rw [Destination.operate,if_pos h,if_neg hbreaks]

private theorem append_works {b : Bytes} (h : d.state = .writable) (hbreaks : breaks ≠ some d.uses) :
    Destination.operate breaks failure (Destination.append b) d =
      ⟨d.written ++ b,.writable,d.uses+1⟩ := by
  rw [operate_works h hbreaks,Destination.append,h]

private theorem uses_succ (huses : ∀ k, breaks = some k → d.uses ≤ k)
    (hbreaks : breaks ≠ some d.uses) : ∀ k, breaks = some k → d.uses+1 ≤ k := by
  intro k hk
  have hle := huses k hk
  have hne : d.uses ≠ k := fun he => hbreaks (he ▸ hk)
  omega

private theorem StopsShort.intact {strategy : Strategy} {uses : Nat} {file : List Chunk}
    (h : StopsShort strategy breaks uses file) : Intact breaks uses := by
  have hless : ∀ {uses : Nat}, Intact breaks (uses+1) → Intact breaks uses := by
    intro uses h k hk
    have := h k hk
    omega
  induction file generalizing uses with
  | nil => exact absurd h id
  | cons c rest ih =>
    obtain ⟨b,fate⟩ := c
    cases fate with
    | served => exact hless (ih h)
    | readFails => exact h.2
    | cancelled => exact h.2.2
    | progressThrows => exact hless h.2

private theorem Honest.of_failure {file : List Chunk}
    (h : d.state = .errored ∨ d.state = .cancelled) : Honest file d := by
  have hopen : d.state ≠ .closed := by
    intro hclosed
    rw [hclosed] at h
    rcases h with h | h
    · cases h
    · cases h
  exact ⟨fun hclosed => absurd hclosed hopen,fun _ => ⟨h,fun old => if_neg hopen⟩⟩

private theorem not_writable {state : State} (h : state = .errored ∨ state = .cancelled) :
    state ≠ .writable := by
  intro hwritable
  rw [hwritable] at h
  rcases h with h | h
  · cases h
  · cases h

private theorem closed_honest_iff {file : List Chunk} (hfailure : failure = .errored ∨ failure = .cancelled)
    (hwritable : d.state = .writable) (huses : ∀ k, breaks = some k → d.uses ≤ k) :
    Honest file (Destination.operate breaks failure (Destination.end .closed) d) ↔
      (Intact breaks d.uses → d.written = content file) := by
  by_cases hbreaks : breaks = some d.uses
  · rw [operate_fails hwritable hbreaks]
    refine iff_of_true (Honest.of_failure hfailure) ?_
    intro hintact
    exact absurd (hintact d.uses hbreaks) (Nat.lt_irrefl _)
  · rw [operate_works hwritable hbreaks]
    have hintact : Intact breaks d.uses := uses_succ huses hbreaks
    constructor
    · intro h _
      exact h.whole rfl
    · intro h
      exact ⟨fun _ => h hintact,fun hne => absurd rfl hne⟩

/-- The chunks behind `pre`, of a strategy that closes its stream after everything but a cancel that
it does not ignore. -/
private theorem copy_honest_iff {strategy : Strategy} {refused : Outcome}
    {abort : Bytes → Destination → Destination}
    (hfailure : failure = .errored ∨ failure = .cancelled) (hrefused : refused ≠ .resolved)
    (habort : strategy = .fileSystemAccess ∧ (∀ b d, abort b d = d) ∨
      strategy ≠ .fileSystemAccess ∧ ∀ b d, d.state = .writable →
        (abort b d).state = .errored ∨ (abort b d).state = .cancelled)
    (ends : Bool) {pre file : List Chunk} (hwritable : d.state = .writable)
    (hwritten : d.written = content pre) (huses : ∀ k, breaks = some k → d.uses ≤ k) :
    Honest (pre ++ file) (Destination.operate breaks failure (Destination.end .closed)
      (download (sink abort (fun b => Destination.operate breaks failure (Destination.append b))
        refused) ends file d).2) ↔ ¬ StopsShort strategy breaks d.uses file := by
  induction file generalizing pre d with
  | nil =>
    rw [List.append_nil]
    refine iff_of_true ?_ id
    exact (closed_honest_iff hfailure hwritable huses).mpr fun _ => hwritten
  | cons c rest ih =>
    obtain ⟨b,fate⟩ := c
    cases fate with
    | readFails =>
      rw [download,if_pos rfl,closed_honest_iff hfailure hwritable huses,content_append,content_cons,
        hwritten,List.self_eq_append_right]
      simp only [StopsShort]
      tauto
    | cancelled =>
      have hsink : sink abort (fun b => Destination.operate breaks failure (Destination.append b))
          refused d (b,.cancelled) = (.rejected,abort b d) := rfl
      rw [download_stops (by simp) hsink (by decide)]
      rcases habort with ⟨hstrategy,hsame⟩ | ⟨hstrategy,hended⟩
      · rw [hsame,closed_honest_iff hfailure hwritable huses,content_append,content_cons,hwritten,
          List.self_eq_append_right]
        simp only [StopsShort]
        tauto
      · have hstate := hended b d hwritable
        rw [operate_ended (not_writable hstate)]
        exact iff_of_true (Honest.of_failure hstate) fun h => hstrategy h.1
    | progressThrows =>
      have hsink : sink abort (fun b => Destination.operate breaks failure (Destination.append b))
          refused d (b,.progressThrows) =
            (.rejected,Destination.operate breaks failure (Destination.append b) d) := rfl
      rw [download_stops (by simp) hsink (by decide)]
      by_cases hbreaks : breaks = some d.uses
      · rw [operate_fails hwritable hbreaks,operate_ended (not_writable hfailure)]
        refine iff_of_true (Honest.of_failure hfailure) ?_
        intro h
        have := h.2 d.uses hbreaks
        omega
      · rw [append_works hwritable hbreaks,closed_honest_iff hfailure rfl (uses_succ huses hbreaks),
          content_append,content_cons,hwritten,← List.append_assoc,List.self_eq_append_right]
        simp only [StopsShort]
        tauto
    | served =>
      by_cases hbreaks : breaks = some d.uses
      · have hsink : sink abort (fun b => Destination.operate breaks failure (Destination.append b))
            refused d (b,.served) = (refused,{ d with state := failure }) := by
          simp only [sink,operate_fails hwritable hbreaks,if_neg (not_writable hfailure)]
        rw [download_stops (by simp) hsink hrefused,operate_ended (not_writable hfailure)]
        refine iff_of_true (Honest.of_failure hfailure) ?_
        intro h
        have := StopsShort.intact h d.uses hbreaks
        omega
      · have hsink : sink abort (fun b => Destination.operate breaks failure (Destination.append b))
            refused d (b,.served) = (.resolved,⟨d.written ++ b,.writable,d.uses+1⟩) := by
          simp only [sink,append_works hwritable hbreaks,if_true]
        rw [download_next (by simp) hsink]
        have hpre := @ih ⟨d.written ++ b,.writable,d.uses+1⟩ (pre ++ [(b,.served)]) rfl
          (by simp [content,hwritten]) (uses_succ huses hbreaks)
        rw [List.append_assoc,List.singleton_append] at hpre
        exact hpre

private theorem download_pending {abort take : Bytes → Destination → Destination} {ends : Bool}
    {file : List Chunk} (h : (download (sink abort take .pending) ends file d).1 = .pending) :
    (download (sink abort take .pending) ends file d).2.state ≠ .writable := by
  induction file generalizing d with
  | nil =>
    cases ends with
    | false => cases h
    | true => cases h
  | cons c rest ih =>
    obtain ⟨b,fate⟩ := c
    cases fate with
    | readFails => cases h
    | cancelled => cases h
    | progressThrows => cases h
    | served =>
      by_cases hwritable : (take b d).state = .writable
      · have hsink : sink abort take .pending d (b,.served) = (.resolved,take b d) := by
          simp only [sink,if_pos hwritable]
        rw [download_next (by simp) hsink] at h ⊢
        exact ih h
      · have hsink : sink abort take .pending d (b,.served) = (.pending,take b d) := by
          simp only [sink,if_neg hwritable]
        rw [download_stops (by simp) hsink (by decide)]
        exact hwritable

end

private theorem viaServiceWorker_eq (breaks : Option Nat) (ends : Bool) (file : List Chunk) :
    (viaServiceWorker breaks ends file).2 = receive breaks .null (download (sink
      (fun _ => receive breaks .abort) (fun b => receive breaks (.chunk b)) .pending) ends file
      .opened).2 := by
  rw [viaServiceWorker]
  split
  rename_i outcome d he
  rw [he]
  split
  · rename_i hpending
    have hd : (download (sink (fun _ => receive breaks .abort) (fun b => receive breaks (.chunk b))
        .pending) ends file .opened).2 = d := congrArg Prod.snd he
    have hended : d.state ≠ .writable := by
      rw [← hd]
      exact download_pending (by rw [he,hpending])
    exact (operate_ended hended).symm
  · rfl

private theorem blob_whole {ends : Bool} {file : List Chunk} {parts : Bytes}
    (h : (download blobSink ends file parts).1 = .resolved) :
    (download blobSink ends file parts).2 = parts ++ content file := by
  induction file generalizing parts with
  | nil => simp [download,content]
  | cons c rest ih =>
    by_cases hread : c.2 = .readFails
    · rw [download,if_pos hread] at h
      cases h
    · by_cases hthrows : c.2 = .progressThrows
      · have hsink : blobSink parts c = (.pending,parts ++ c.1) := by rw [blobSink,if_pos hthrows]
        rw [download_stops hread hsink (by decide)] at h
        cases h
      · have hsink : blobSink parts c = (.resolved,parts ++ c.1) := by rw [blobSink,if_neg hthrows]
        rw [download_next hread hsink] at h ⊢
        rw [ih h,content_cons,List.append_assoc]

private theorem blob_honest (ends : Bool) (file : List Chunk) : Honest file (viaBlob ends file).2 := by
  by_cases h : (download blobSink ends file []).1 = .resolved
  · have hwhole := blob_whole h
    simp only [viaBlob,h,if_true]
    exact ⟨fun _ => hwhole,fun hne => absurd rfl hne⟩
  · simp only [viaBlob,h,if_false]
    exact Honest.of_failure (Or.inl rfl)

/-- A download is dishonest exactly when it stops short in a way that passes for the end. -/
theorem honest_iff (breaks : Option Nat) (ends : Bool) (file : List Chunk) (strategy : Strategy) :
    Honest file (downloadFile breaks ends file strategy).2 ↔ ¬ Truncates breaks file strategy := by
  have huses : ∀ k, breaks = some k → Destination.opened.uses ≤ k := fun k _ => Nat.zero_le k
  cases strategy with
  | fileSystemAccess =>
    have h : Honest ([] ++ file) (viaFileSystemAccess breaks ends file).2 ↔
        ¬ StopsShort .fileSystemAccess breaks 0 file :=
      copy_honest_iff (Or.inl rfl) (by decide) (Or.inl ⟨rfl,fun _ _ => rfl⟩) ends rfl rfl huses
    rw [downloadFile]
    simpa [Truncates] using h
  | serviceWorker =>
    have habort : ∀ (b : Bytes) (d : Destination), d.state = .writable →
        (receive breaks .abort d).state = .errored ∨ (receive breaks .abort d).state = .cancelled := by
      intro b d hwritable
      by_cases hbreaks : breaks = some d.uses
      · exact Or.inr (by rw [receive,operate_fails hwritable hbreaks])
      · exact Or.inl (by rw [receive,operate_works hwritable hbreaks]; rfl)
    have h : Honest ([] ++ file) (receive breaks .null (download (sink
        (fun _ => receive breaks .abort) (fun b => receive breaks (.chunk b)) .pending) ends file
        .opened).2) ↔ ¬ StopsShort .serviceWorker breaks 0 file :=
      copy_honest_iff (Or.inr rfl) (by decide) (Or.inr ⟨by decide,habort⟩) ends rfl rfl huses
    rw [downloadFile,viaServiceWorker_eq]
    simpa [Truncates] using h
  | blob => exact iff_of_true (blob_honest ends file) fun h => h.1 rfl

/-- The read of the second chunk fails. -/
theorem failed_read_commits : ¬ ∀ (breaks : Option Nat) (ends : Bool) (file : List Chunk)
    (strategy : Strategy), Honest file (downloadFile breaks ends file strategy).2 := by
  intro hall
  have h := (hall none true [([1,2],.served),([3],.readFails)] .fileSystemAccess).whole rfl
  exact absurd h (by decide)

end WeirdVault.Transfers.Committed
