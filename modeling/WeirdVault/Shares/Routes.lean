import WeirdVault.Shares.Store

/-!
# The routes of recordings and shares

Saving and deleting a recording, making and revoking a share, and the public end of a share link,
cut at every request that they send to the database and to the bucket.
-/

namespace WeirdVault.Shares

open WeirdVault.Framework

abbrev Handler (α : Type) := Program Request.Ans Thrown α

abbrev query (r : Request) : Handler r.Val := Program.call r

/-- `e instanceof ObjectStoreError ? e.message : …` -/
def unreachable : Thrown → Thrown
  | .objectStore message => .body .unreachable message
  | _ => .body .unreachable "the storage bucket could not be reached"

/-- `bucket` says whether the process has a bucket configured. -/
def readBody (bucket : Bool) (row : StoredBody) : Handler (Option String) :=
  match row.storageKey with
  | none => .done row.ciphertext
  | some key =>
    if !bucket then
      .fail (.body .unconfigured
        ("This recording is stored in a bucket and this server has no bucket configured. " ++
          "The R2_* variables were set when it was saved and are not set now."))
    else
      ((query (.getObject key)).handle fun e => .fail (unreachable e)).bind fun
        | some blob => .done (some blob)
        | none =>
          .fail (.body .missing
            ("The stored recording is no longer in the bucket, so there is nothing left to " ++
              "play. The row survives; the bytes do not."))

def writeBody (bucket : Bool) (key : Key) (blob : String) : Handler StoredBody :=
  if bucket then
    ((query (.putObject key blob)).handle fun e => .fail (unreachable e)).bind fun _ =>
      .done (.object key)
  else .done (.column blob)

def discardBody (bucket : Bool) (body : StoredBody) : Handler Unit :=
  match body.storageKey with
  | some key => if bucket then (query (.deleteObject key true)).handle fun _ => .done () else .done ()
  | none => .done ()

def destroyBody (bucket : Bool) (row : StoredBody) : Handler Unit :=
  match row.storageKey with
  | none => .done ()
  | some key =>
    if !bucket then
      .fail (.body .unconfigured
        ("This recording's bytes are in a bucket and this server has no bucket configured, so " ++
          "they cannot be destroyed. Deleting the row would leave them there with nothing left " ++
          "that knows whose they were."))
    else (query (.deleteObject key false)).handle fun e => .fail (unreachable e)

def statusForBodyError : BodyFailure → ℕ
  | .missing => 410
  | .unconfigured => 503
  | .unreachable => 502

/-- `catch (e) { if (!(e instanceof BodyError)) throw e; … }` -/
def attempt {α : Type} (p : Handler α) : Handler (Except (BodyFailure × String) α) :=
  (p.bind fun a => .done (.ok a)).handle fun
    | .body kind message => .done (.error (kind,message))
    | e => .fail e

structure SweepResult where
  applicable : Bool
  deleted : ℕ
  failed : ℕ
  tooRecent : ℕ
  truncated : Bool
deriving DecidableEq

inductive Reply where
  | refused (status : ℕ) (error : String) (code : Option String)
  | recording (id : ℕ)
  | share (id token : ℕ)
  | revoked (row : Summary)
  | ok
  | envelope (blob : String) (views : ℕ) (maxViews : Option ℕ) (expiresAt : ℤ)
  | swept (result : SweepResult)
deriving DecidableEq

def refuse (status : ℕ) (error : String) : Reply := .refused status error none

def refuseBody (e : BodyFailure × String) (error : String → String) : Reply :=
  refuse (statusForBodyError e.1) (error e.2)

def unauthorized : Reply := refuse 401 "unauthorized"

def notFound : Reply := refuse 404 "not found"

def RECORDING_REQUIRES_PRO : String := "recording_requires_pro"

def MAX_BLOB_BYTES : ℕ := 12 * 1024 * 1024

def MAX_ACCOUNT_RECORDING_BYTES : ℕ := 1000000000

def MAX_DURATION_MS : ℚ := 2147483647

def MAX_SHARE_TTL_MS : ℤ := 30 * 86400000

def CLOCK_SKEW_MS : ℤ := 5 * 60 * 1000

def MAX_SHARE_VIEWS : ℕ := 1000

def rounded (bytes unit : ℕ) : String := toString ((2 * bytes + unit) / (2 * unit))

inductive Field (α : Type) where
  | missing
  | value (a : α)
  | other
deriving DecidableEq

def Field.get? {α : Type} : Field α → Option α
  | .value a => some a
  | _ => none

inductive Parsed (α : Type) where
  | invalid
  | null
  | fields (a : α)
deriving DecidableEq

structure NewRecording where
  blob : Option String
  durationMs : Option ℚ
  startedAt : Option ℤ
  targetRef : Field String
  deviceId : Option String
deriving DecidableEq

structure NewShare where
  blob : Option String
  expiresAt : Option ℤ
  maxViews : Field ℚ
deriving DecidableEq

def blinded (targetRef : String) : Bool :=
  16 ≤ targetRef.length && targetRef.length ≤ 32 &&
    targetRef.toList.all fun c => c.isAlphanum || c == '_' || c == '-'

def storedRecordingBytes (userId : String) : Handler ℕ := do
  let recordings ← query (.recordingBytes userId)
  let shares ← query (.shareBytes userId)
  return recordings + shares

/-- The object, the row, and the cleanup when the row did not land. -/
def writeThenInsert (bucket : Bool) (key : Key) (blob : String) (refusal : String → String)
    (insert : StoredBody → Handler Unit) (reply : Reply) : Handler Reply := do
  match ← attempt (writeBody bucket key blob) with
  | .error e => return refuseBody e refusal
  | .ok stored =>
    (do
      insert stored
      return reply).handle fun e => do
        discardBody bucket stored
        throw e

def storeRecording (bucket : Bool) (userId blob : String) (durationMs : ℚ) (startedAt : ℤ)
    (targetRef deviceId : Option String) : Handler Reply := do
  let id ← query (.randomUuid none)
  writeThenInsert bucket (recordingKey userId id) blob
    (fun message =>
      "The recording could not be stored: " ++ message ++
        " Nothing was saved, and the transcript is still in the tab that made it — try again " ++
        "before reloading.")
    (fun stored => query (.insertRecording
      { id, userId, deviceId, targetRef, body := stored, sizeBytes := blob.utf8ByteSize
        durationMs := Recording.mathRound durationMs, startedAt }))
    (.recording id)

/-- The fields of a `POST /api/recordings`, as far as the ceiling of the account. -/
def acceptRecording (bucket : Bool) (userId : String) (body : NewRecording) : Handler Reply :=
  match body.blob with
  | none => return refuse 400 "blob (string) required"
  | some blob => do
    if blob = "" then
      return refuse 400 "blob (string) required"
    if MAX_BLOB_BYTES < blob.utf8ByteSize then
      return refuse 413 ("That recording is " ++ rounded blob.utf8ByteSize (1024 * 1024) ++
        " MB encrypted, and the limit is 12 MB.")
    match body.durationMs,body.startedAt with
    | none,_ => return refuse 400 "durationMs must be a duration in milliseconds"
    | some durationMs,startedAt =>
      if durationMs < 0 ∨ MAX_DURATION_MS < durationMs then
        return refuse 400 "durationMs must be a duration in milliseconds"
      match startedAt,body.targetRef with
      | none,_ => return refuse 400 "startedAt must be an ISO timestamp"
      | some _,.other => return refuse 400 "targetRef must be a blinded reference, not a hostname"
      | some startedAt,targetRef =>
        if targetRef.get?.any (!blinded ·) then
          return refuse 400 "targetRef must be a blinded reference, not a hostname"
        let storedBytes ← storedRecordingBytes userId
        if MAX_ACCOUNT_RECORDING_BYTES < storedBytes + blob.utf8ByteSize then
          return refuse 413 ("Your recordings and share links already hold " ++
            rounded storedBytes 1000000 ++ " MB of the 1 GB this account can store, and " ++
            "this one does not fit. Nothing was deleted to make room — delete a recording you " ++
            "no longer need, or revoke a share link, and save again. The recording is still in " ++
            "the tab that made it.")
        let owned ← match body.deviceId with
          | none => pure none
          | some "" => pure none
          | some deviceId => query (.selectDevice deviceId userId)
        storeRecording bucket userId blob durationMs startedAt targetRef.get? owned

def save (bucket : Bool) (user : Option String) (body : Parsed NewRecording) : Handler Reply :=
  match user with
  | none => return unauthorized
  | some userId => do
    if ← query .enforce then
      return refuse 429
        ("That is more recordings than this account can save in an hour. Nothing was stored and " ++
          "the transcript is still in the tab that made it — wait, then save again.")
    if !(← query (.tierFor userId)) then
      return .refused 402
        ("Saving a session recording is a Pro feature, and this account is on Free. Nothing was " ++
          "stored and the transcript is still in the tab that captured it — it will be lost if " ++
          "that tab reloads. Recordings already saved stay listable, playable and downloadable " ++
          "on any plan.") (some RECORDING_REQUIRES_PRO)
    match body with
    | .invalid => return refuse 400 "invalid JSON"
    | .null => throw .typeError
    | .fields body => acceptRecording bucket userId body

/-- `POST /api/recordings/[id]/shares` from the token on. -/
def storeShare (bucket : Bool) (userId : String) (recordingId : ℕ) (blob : String) (expiresAt : ℤ)
    (maxViews : Option ℕ) : Handler Reply := do
  let token ← query .newShareToken
  let shareId ← query (.randomUuid (some recordingId))
  writeThenInsert bucket (shareKey userId shareId) blob
    (fun message =>
      "The share copy could not be stored, so no link was created: " ++ message ++
        " The recording itself is untouched.")
    (fun stored => query (.insertShare
      { id := shareId, recordingId, userId, token, body := stored
        sizeBytes := blob.utf8ByteSize, expiresAt, maxViews, views := 0, revokedAt := none }))
    (.share shareId token)

def viewLimit : Field ℚ → Option (Option ℕ)
  | .missing => some none
  | .other => none
  | .value n => if n.den = 1 ∧ 1 ≤ n ∧ n ≤ MAX_SHARE_VIEWS then some (some n.num.toNat) else none

def acceptShare (bucket : Bool) (userId : String) (recordingId : ℕ) (body : NewShare) :
    Handler Reply :=
  match body.blob with
  | none => return refuse 400 "blob (string) required"
  | some blob => do
    if blob = "" then
      return refuse 400 "blob (string) required"
    if MAX_BLOB_BYTES < blob.utf8ByteSize then
      return refuse 413 ("That share is " ++ rounded blob.utf8ByteSize (1024 * 1024) ++
        " MB encrypted, and the limit is 12 MB.")
    match body.expiresAt with
    | none => return refuse 400 "expiresAt must be an ISO timestamp"
    | some expiresAt =>
      let now ← query .dateNow
      if expiresAt - (now : ℤ) ≤ 0 then
        return refuse 400 "A link that has already expired is not worth creating."
      if MAX_SHARE_TTL_MS + CLOCK_SKEW_MS < expiresAt - (now : ℤ) then
        return refuse 400
          ("A share link can live at most 30 days. The link is the key, so an expiry is the " ++
            "only control that keeps working after the link has been forwarded somewhere you " ++
            "cannot see.")
      match viewLimit body.maxViews with
      | none => return refuse 400 "maxViews must be a whole number between 1 and 1000, or null"
      | some maxViews =>
        if (← query (.selectRecording recordingId userId)).isNone then
          return notFound
        let storedBytes ← storedRecordingBytes userId
        if MAX_ACCOUNT_RECORDING_BYTES < storedBytes + blob.utf8ByteSize then
          return refuse 413 ("Your recordings and share links already hold " ++
            rounded storedBytes 1000000 ++ " MB of the 1 GB this account can store, and a " ++
            "share is a second encrypted copy of the recording rather than a pointer to the " ++
            "first. Nothing was deleted to make room — revoke a share you no longer need, or " ++
            "delete a recording, and try again.")
        storeShare bucket userId recordingId blob expiresAt maxViews

def share (bucket : Bool) (user : Option String) (recordingId : ℕ) (body : Parsed NewShare) :
    Handler Reply :=
  match user with
  | none => return unauthorized
  | some userId => do
    if ← query .enforce then
      return refuse 429
        ("That is more share links than this account can create in an hour. No link was made " ++
          "and the recording is untouched.")
    if !(← query (.tierFor userId)) then
      return .refused 402
        ("Share links are part of session recording, which is a Pro feature, and this account " ++
          "is on Free. Nothing was stored. Links you have already created are unaffected and " ++
          "can still be listed and revoked, and the recording itself can still be played and " ++
          "downloaded — a downloaded cast can be sent to anyone.") (some RECORDING_REQUIRES_PRO)
    match body with
    | .invalid => return refuse 400 "invalid JSON"
    | .null => throw .typeError
    | .fields body => acceptShare bucket userId recordingId body

def revoke (bucket : Bool) (user : Option String) (recordingId : ℕ) (shareId : Option ℕ) :
    Handler Reply :=
  match user,shareId with
  | none,_ => return unauthorized
  | some _,none => return refuse 400 "share (query parameter) required"
  | some userId,some shareId => do
    match ← query (.selectShare shareId recordingId userId) with
    | none => return notFound
    | some existing =>
      match ← attempt (destroyBody bucket existing) with
      | .error e =>
        return refuseBody e fun message =>
          "The shared copy could not be destroyed, so the link was left working: " ++ message ++
            " Nothing was changed. Try again — a link reported as revoked while its bytes are " ++
            "still fetchable would be worse than this refusal."
      | .ok () =>
        match ← query (.revokeShare shareId recordingId userId) with
        | [] => return notFound
        | row :: _ => return .revoked row

def remove (bucket : Bool) (user : Option String) (id : ℕ) : Handler Reply :=
  match user with
  | none => return unauthorized
  | some userId => do
    match ← query (.selectRecording id userId) with
    | none => return notFound
    | some row =>
      let shares ← query (.selectShares id userId)
      match ← attempt (Program.forEach (destroyBody bucket) (row :: shares)) with
      | .error e =>
        return refuseBody e fun message =>
          "The stored recording could not be destroyed, so nothing was deleted: " ++ message ++
            " Your recording is exactly as it was. Try again."
      | .ok () =>
        match ← query (.deleteRecording id userId) with
        | [] => return notFound
        | _ :: _ => return .ok

def view (bucket : Bool) (token : ℕ) : Handler Reply := do
  if ← query .enforce then
    return refuse 429
      ("Too many requests for shared recordings from this network. This is a rate limit rather " ++
        "than anything about the link you have — wait a moment and try it again.")
  match ← query (.countView token) with
  | none => return notFound
  | some row =>
    match ← attempt (readBody bucket row.body) with
    | .error e =>
      query (.refundView row.id)
      return refuseBody e id
    | .ok none => return notFound
    | .ok (some blob) => return .envelope blob row.views row.maxViews row.expiresAt

def GRACE_MS : ℤ := 60 * 60 * 1000

def MAX_DELETES : ℕ := 500

structure StoredObject where
  key : Key
  lastModified : ℕ
deriving DecidableEq

/-- The keys and times of a page, all of which the bucket writes in a form that is read. -/
def Page.objects (page : Page) : List StoredObject :=
  page.contents.map fun item => ⟨item.1,item.2⟩

/-- The loop of `listObjects`, for this many pages at most. -/
def listPages (folder : Folder) : ℕ → Option Place → List StoredObject →
    Handler (List StoredObject)
  | 0,_,_ => throw .unlisted
  | pages + 1,continuation,objects => do
    let page ← query (.listPage folder continuation)
    let objects := objects ++ page.objects
    match page.truncated,page.next with
    | true,some next => listPages folder pages (some next) objects
    | _,_ => return objects

def listObjects (pages : ℕ) (folder : Folder) : Handler (List StoredObject) :=
  listPages folder pages none []

/-- `try { await deleteObject(…); deleted += 1 } catch { failed += 1 }` -/
def tryDelete (key : Key) : Handler Bool :=
  ((query (.deleteObject key false)).bind fun _ => .done true).handle fun _ => .done false

def sweepObjects (dryRun : Bool) (claimed : List Key) (cutoff : ℤ) :
    List StoredObject → SweepResult → Handler SweepResult
  | [],result => return result
  | object :: objects,result => do
    if object.key ∈ claimed then
      sweepObjects dryRun claimed cutoff objects result
    else if cutoff < object.lastModified then
      sweepObjects dryRun claimed cutoff objects { result with tooRecent := result.tooRecent + 1 }
    else if MAX_DELETES ≤ result.deleted + result.failed then
      return { result with truncated := true }
    else if dryRun then
      sweepObjects dryRun claimed cutoff objects { result with deleted := result.deleted + 1 }
    else if ← tryDelete object.key then
      sweepObjects dryRun claimed cutoff objects { result with deleted := result.deleted + 1 }
    else
      sweepObjects dryRun claimed cutoff objects { result with failed := result.failed + 1 }

def sweepFolders (dryRun : Bool) (pages : ℕ) (claimed : List Key) (cutoff : ℤ) :
    List Folder → SweepResult → Handler SweepResult
  | [],result => return result
  | folder :: folders,result => do
    let objects ← listObjects pages folder
    let result ← sweepObjects dryRun claimed cutoff objects result
    if result.truncated then return result
    else sweepFolders dryRun pages claimed cutoff folders result

def notApplicable : SweepResult := ⟨false,0,0,0,false⟩

/-- The two reads of the sweep run at once; `sharesFirst` says which comes first. -/
def claimedKeys (sharesFirst : Bool) : Handler (List Key) :=
  if sharesFirst then do
    let shares ← query .selectShareKeys
    let recordings ← query .selectRecordingKeys
    return recordings ++ shares
  else do
    let recordings ← query .selectRecordingKeys
    let shares ← query .selectShareKeys
    return recordings ++ shares

def sweepOrphanedObjects (bucket dryRun sharesFirst : Bool) (pages : ℕ) :
    Handler SweepResult := do
  if !bucket then
    return notApplicable
  let claimed ← claimedKeys sharesFirst
  let now ← query .dateNow
  sweepFolders dryRun pages claimed ((now : ℤ) - GRACE_MS) [.recordings,.shares]
    ⟨true,0,0,0,false⟩

inductive Job where
  | save (bucket : Bool) (user : Option String) (body : Parsed NewRecording)
  | share (bucket : Bool) (user : Option String) (recordingId : ℕ) (body : Parsed NewShare)
  | revoke (bucket : Bool) (user : Option String) (recordingId : ℕ) (shareId : Option ℕ)
  | remove (bucket : Bool) (user : Option String) (id : ℕ)
  | view (bucket : Bool) (token : ℕ)
  | sweep (bucket dryRun sharesFirst : Bool) (pages : ℕ)
deriving DecidableEq

def code : Job → Handler Reply
  | .save bucket user body => save bucket user body
  | .share bucket user recordingId body => share bucket user recordingId body
  | .revoke bucket user recordingId shareId => revoke bucket user recordingId shareId
  | .remove bucket user id => remove bucket user id
  | .view bucket token => view bucket token
  | .sweep bucket dryRun sharesFirst pages => do
    return .swept (← sweepOrphanedObjects bucket dryRun sharesFirst pages)

def system : System Request.Ans Thrown Reply Job Moment Store := ⟨code,fun _ => exec⟩

abbrev Server := World Request.Ans Thrown Reply Job Store

def fresh : Server := World.init emptyStore

def calm : Moment :=
  { elapsed := 0, fate := .answered, trouble := "", limited := false, pro := true
    ownsDevice := false, cut := none }

def calmly (thread steps : ℕ) : List (Act Job Moment) := List.replicate steps (.step thread calm)

end WeirdVault.Shares
