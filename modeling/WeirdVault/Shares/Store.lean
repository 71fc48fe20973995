import Mathlib.Data.Prod.Lex
import Mathlib.Data.String.Basic
import WeirdVault.Framework.Calls
import WeirdVault.Framework.Table
import WeirdVault.Recording.Buffer

/-!
# Rows and objects

The two tables and the bucket that hold the envelopes of recordings and of their shares, and what
each statement and each request to the bucket does to them.
-/

namespace WeirdVault.Shares

open WeirdVault.Framework

inductive Folder where
  | recordings
  | shares
deriving DecidableEq

/-- `rec/<user_id>/<recording_id>` and `share/<user_id>/<share_id>`. -/
structure Key where
  folder : Folder
  userId : String
  id : ℕ
deriving DecidableEq

def recordingKey (userId : String) (recordingId : ℕ) : Key := ⟨.recordings,userId,recordingId⟩

def shareKey (userId : String) (shareId : ℕ) : Key := ⟨.shares,userId,shareId⟩

abbrev Place := Lex (String × ℕ)

def Key.place (key : Key) : Place := toLex (key.userId,key.id)

/-- The two columns, on either table, with the check that they are not both set. -/
structure StoredBody where
  ciphertext : Option String
  storageKey : Option Key
  oneBody : ciphertext = none ∨ storageKey = none
deriving DecidableEq

def StoredBody.column (blob : String) : StoredBody := ⟨some blob,none,.inr rfl⟩

def StoredBody.object (key : Key) : StoredBody := ⟨none,some key,.inl rfl⟩

def StoredBody.empty : StoredBody := ⟨none,none,.inl rfl⟩

structure Recording where
  id : ℕ
  userId : String
  deviceId : Option String
  targetRef : Option String
  body : StoredBody
  sizeBytes : ℕ
  durationMs : ℚ
  startedAt : ℤ
deriving DecidableEq

structure Share where
  id : ℕ
  recordingId : ℕ
  userId : String
  token : ℕ
  body : StoredBody
  sizeBytes : ℕ
  expiresAt : ℤ
  maxViews : Option ℕ
  views : ℕ
  revokedAt : Option ℕ
deriving DecidableEq

structure Object where
  key : Key
  blob : String
  lastModified : ℕ
deriving DecidableEq

/-- Ids and tokens are random and never met twice; here they are counted. `minted` is a ghost: for
each id, the recording that a share was made from, or `none` for a recording. So is `written`, the
time at which each object was written. -/
structure Store where
  recordings : Table Recording.id
  shares : Table Share.id
  bucket : Table Object.key
  clock : ℕ
  minted : List (Option ℕ)
  tokens : ℕ
  written : List (Key × ℕ)

def emptyStore : Store :=
  { recordings := .empty _, shares := .empty _, bucket := .empty _, clock := 0, minted := []
    tokens := 0, written := [] }

inductive BodyFailure where
  | missing
  | unreachable
  | unconfigured
deriving DecidableEq

inductive Thrown where
  | database
  | conflict
  | objectStore (message : String)
  | body (kind : BodyFailure) (message : String)
  | typeError
  | unlisted
deriving DecidableEq

structure Summary where
  id : ℕ
  sizeBytes : ℕ
  expiresAt : ℤ
  maxViews : Option ℕ
  views : ℕ
  revokedAt : Option ℕ
deriving DecidableEq

def Share.summary (row : Share) : Summary :=
  ⟨row.id,row.sizeBytes,row.expiresAt,row.maxViews,row.views,row.revokedAt⟩

structure Counted where
  id : ℕ
  body : StoredBody
  views : ℕ
  maxViews : Option ℕ
  expiresAt : ℤ
deriving DecidableEq

structure Page where
  contents : List (Key × ℕ)
  truncated : Bool
  next : Option Place
deriving DecidableEq

inductive Request where
  | enforce
  | tierFor (userId : String)
  | selectDevice (deviceId userId : String)
  | randomUuid (source : Option ℕ)
  | newShareToken
  | dateNow
  | putObject (key : Key) (blob : String)
  | getObject (key : Key)
  /-- Marked when it is the cleanup of `discardBody`. -/
  | deleteObject (key : Key) (cleanup : Bool)
  | listPage (folder : Folder) (continuation : Option Place)
  | recordingBytes (userId : String)
  | shareBytes (userId : String)
  | insertRecording (row : Recording)
  | selectRecording (id : ℕ) (userId : String)
  | deleteRecording (id : ℕ) (userId : String)
  | insertShare (row : Share)
  | selectShares (recordingId : ℕ) (userId : String)
  | selectShare (id recordingId : ℕ) (userId : String)
  | revokeShare (id recordingId : ℕ) (userId : String)
  | countView (token : ℕ)
  | refundView (id : ℕ)
  | selectRecordingKeys
  | selectShareKeys
deriving DecidableEq

@[reducible] def Request.Val : Request → Type
  | .enforce => Bool
  | .tierFor _ => Bool
  | .selectDevice .. => Option String
  | .randomUuid _ => ℕ
  | .newShareToken => ℕ
  | .dateNow => ℕ
  | .getObject _ => Option String
  | .listPage .. => Page
  | .recordingBytes _ => ℕ
  | .shareBytes _ => ℕ
  | .selectRecording .. => Option StoredBody
  | .deleteRecording .. => List ℕ
  | .selectShares .. => List StoredBody
  | .selectShare .. => Option StoredBody
  | .revokeShare .. => List Summary
  | .countView _ => Option Counted
  | .selectRecordingKeys => List Key
  | .selectShareKeys => List Key
  | _ => Unit

@[reducible] def Request.Ans (r : Request) : Type := Except Thrown r.Val

/-- How a request fares; a lost one was executed, but its answer does not arrive. -/
inductive Fate where
  | answered
  | refused
  | lost
deriving DecidableEq

/-- What the environment contributes to a request: the time since the last one, its fate with the
bucket's words, what the rate limiter, the subscriptions and the devices say, and how far a page of
a listing goes. -/
structure Moment where
  elapsed : ℕ
  fate : Fate
  trouble : String
  limited : Bool
  pro : Bool
  ownsDevice : Bool
  cut : Option Place
deriving DecidableEq

def Share.countable (row : Share) (token now : ℕ) : Bool :=
  row.token = token ∧ row.revokedAt = none ∧ (now : ℤ) < row.expiresAt ∧
    ∀ m ∈ row.maxViews, row.views < m

def Share.counted (row : Share) : Counted :=
  ⟨row.id,row.body,row.views,row.maxViews,row.expiresAt⟩

def Share.viewed (row : Share) : Share := { row with views := row.views + 1 }

def Share.refunded (row : Share) : Share := { row with views := row.views - 1 }

def Share.revoked (row : Share) (now : ℕ) : Share :=
  { row with revokedAt := some (row.revokedAt.getD now), body := .empty, sizeBytes := 0 }

def Key.within (key : Key) (folder : Folder) (continuation cut : Option Place) : Bool :=
  key.folder = folder ∧ (∀ p ∈ continuation, p < key.place) ∧ ∀ p ∈ cut, key.place ≤ p

/-- A page ends after the place it goes on from, or not before the end. -/
def Store.page (s : Store) (folder : Folder) (continuation cut : Option Place) : Page :=
  let cut := cut.filter fun p => ∀ c ∈ continuation, c < p
  { contents := (s.bucket.rows.filter (·.key.within folder continuation cut)).map fun object =>
      (object.key,object.lastModified)
    truncated := cut.isSome
    next := cut }

def execute (m : Moment) (s : Store) : (r : Request) → Store × r.Ans
  | .enforce => (s,.ok m.limited)
  | .tierFor _ => (s,.ok m.pro)
  | .selectDevice deviceId _ => (s,.ok (if m.ownsDevice then some deviceId else none))
  | .randomUuid source => ({ s with minted := s.minted ++ [source] },.ok s.minted.length)
  | .newShareToken => ({ s with tokens := s.tokens + 1 },.ok s.tokens)
  | .dateNow => (s,.ok s.clock)
  | .putObject key blob =>
    ({ s with
        bucket := s.bucket.put ⟨key,blob,s.clock⟩
        written := (key,s.clock) :: s.written },.ok ())
  | .getObject key => (s,.ok ((s.bucket.get? key).map (·.blob)))
  | .deleteObject key _ => ({ s with bucket := s.bucket.erase key },.ok ())
  | .listPage folder continuation => (s,.ok (s.page folder continuation m.cut))
  | .recordingBytes userId =>
    (s,.ok ((s.recordings.rows.filter (·.userId = userId)).map (·.sizeBytes)).sum)
  | .shareBytes userId =>
    (s,.ok ((s.shares.rows.filter (·.userId = userId)).map (·.sizeBytes)).sum)
  | .insertRecording row =>
    if (s.recordings.get? row.id).isSome then (s,.error .conflict)
    else ({ s with recordings := s.recordings.put row },.ok ())
  | .selectRecording id userId =>
    (s,.ok (((s.recordings.get? id).filter (·.userId = userId)).map (·.body)))
  | .deleteRecording id userId =>
    if ((s.recordings.get? id).filter (·.userId = userId)).isSome then
      ({ s with
          recordings := s.recordings.erase id
          shares := s.shares.keep (·.recordingId ≠ id) },.ok [id])
    else (s,.ok [])
  | .insertShare row =>
    if (s.shares.get? row.id).isSome ∨ s.shares.rows.any (·.token = row.token) ∨
        (s.recordings.get? row.recordingId).isNone then (s,.error .conflict)
    else ({ s with shares := s.shares.put row },.ok ())
  | .selectShares recordingId userId =>
    (s,.ok ((s.shares.rows.filter fun row => row.recordingId = recordingId ∧
      row.userId = userId).map (·.body)))
  | .selectShare id recordingId userId =>
    (s,.ok (((s.shares.get? id).filter fun row => row.recordingId = recordingId ∧
      row.userId = userId).map (·.body)))
  | .revokeShare id recordingId userId =>
    match (s.shares.get? id).filter fun row => row.recordingId = recordingId ∧
        row.userId = userId with
    | some row =>
      ({ s with shares := s.shares.put (row.revoked s.clock) },.ok [(row.revoked s.clock).summary])
    | none => (s,.ok [])
  | .countView token =>
    match s.shares.rows.find? (·.countable token s.clock) with
    | some row => ({ s with shares := s.shares.put row.viewed },.ok (some row.viewed.counted))
    | none => (s,.ok none)
  | .refundView id =>
    ({ s with shares := s.shares.update id Share.refunded (fun _ => rfl) },.ok ())
  | .selectRecordingKeys => (s,.ok (s.recordings.rows.filterMap (·.body.storageKey)))
  | .selectShareKeys => (s,.ok (s.shares.rows.filterMap (·.body.storageKey)))

def Request.toBucket : Request → Bool
  | .putObject .. => true
  | .getObject _ => true
  | .deleteObject .. => true
  | .listPage .. => true
  | _ => false

/-- A request of the process to itself does not fail, and the cleanup of `discardBody` takes effect
whatever its answer. -/
def Request.certain : Request → Bool
  | .randomUuid _ => true
  | .newShareToken => true
  | .dateNow => true
  | _ => false

def Request.trouble (r : Request) (m : Moment) : Thrown :=
  if r.toBucket then .objectStore m.trouble else .database

def Request.cleanup : Request → Bool
  | .deleteObject _ cleanup => cleanup
  | _ => false

def exec (m : Moment) (s : Store) (r : Request) : Store × r.Ans :=
  let s := { s with clock := s.clock + m.elapsed }
  if m.fate = .answered ∨ r.certain then execute m s r
  else if m.fate = .lost ∨ r.cleanup then ((execute m s r).1,.error (r.trouble m))
  else (s,.error (r.trouble m))

end WeirdVault.Shares
