import WeirdVault.Framework.Entities
import WeirdVault.Framework.JsString
import WeirdVault.Framework.Tags

/-!
# Listing a bucket and deleting what is listed

Answers are read with regular expressions, page after page, until one says that nothing follows.
-/

namespace WeirdVault.Storage

open WeirdVault.Framework
open WeirdVault.Framework.Tags (tagText exec matchAll testFolded)

structure ObjectStoreError where
  message : String
  status : ℕ
deriving DecidableEq

def objectStoreError (operation : String) (status : ℕ) (detail : Text) : ObjectStoreError where
  message := s!"{operation} failed: {status}" ++
    if detail = [] then "" else " " ++ String.ofList detail
  status

/-- What is thrown: an error of the store, or whatever reading a body throws. -/
inductive Thrown where
  | store (e : ObjectStoreError)
  | unread
deriving DecidableEq

structure Reply where
  status : ℕ
  body : Option Text

def Reply.ok (r : Reply) : Bool := 200 ≤ r.status && r.status ≤ 299

/-- `fetch`, which rejects with a message where there is no answer. -/
abbrev Fetched := Except Text Reply

def received (operation : String) : Fetched → Except Thrown Reply
  | .ok reply => .ok reply
  | .error message => .error (.store (objectStoreError operation 0 message))

def codeOf (text : Text) : Option Text :=
  text.tails.findSome? fun s =>
    if tagText "Code".toList <+: s then
      let rest := s.drop (tagText "Code".toList).length
      let code := rest.takeWhile (· ≠ '<')
      if (code.flatMap charUnits).length ≤ 64 ∧ tagText "/Code".toList <+: rest.drop code.length then
        some code
      else none
    else none

def detailOf (reply : Reply) : Text := (reply.body.bind codeOf).getD []

def unescapeXml (value : Text) : Text :=
  Entity.amp.replace (Entity.apos.replace (Entity.quot.replace
    (Entity.gt.replace (Entity.lt.replace value))))

structure StoredObject where
  key : Text
  lastModified : ℤ
deriving DecidableEq

def isBlank (c : Char) : Bool :=
  let n := c.toNat
  (9 ≤ n && n ≤ 13) || n == 0x20 || n == 0xA0 || n == 0x1680 || (0x2000 ≤ n && n ≤ 0x200A) ||
    n == 0x2028 || n == 0x2029 || n == 0x202F || n == 0x205F || n == 0x3000 || n == 0xFEFF

/-- `parse` is `Date.parse`, and none is not a number. -/
def storedObject (parse : Text → Option ℤ) (item : Text) : Option StoredObject :=
  (exec "Key".toList item).map fun key =>
    let parsed := (exec "LastModified".toList item).bind parse
    ⟨unescapeXml key,parsed.getD 0⟩

def objectsOf (parse : Text → Option ℤ) (xml : Text) : List StoredObject :=
  (matchAll "Contents".toList xml).filterMap (storedObject parse)

def following (xml : Text) : Option Text :=
  let truncated := testFolded isBlank "istruncated".toList "true".toList xml
  let next := exec "NextContinuationToken".toList xml
  if truncated then next.map unescapeXml else none

def listQuery (pfx : Text) (token : Option Text) : List (Text × Text) :=
  [("list-type".toList,['2']),("prefix".toList,pfx),("max-keys".toList,"1000".toList)] ++
    match token with
    | some token => if token = [] then [] else [("continuation-token".toList,token)]
    | none => []

variable (parse : Text → Option ℤ) (ask : List (Text × Text) → Fetched) (pfx : Text)

def listLoop : ℕ → Option Text → List StoredObject → Option (Except Thrown (List StoredObject))
  | 0,_,_ => none
  | n+1,token,objects =>
    match received "list" (ask (listQuery pfx token)) with
    | .error e => some (.error e)
    | .ok reply =>
      if reply.ok then
        match reply.body with
        | none => some (.error .unread)
        | some xml =>
          match following xml with
          | some next => listLoop n (some next) (objects ++ objectsOf parse xml)
          | none => some (.ok (objects ++ objectsOf parse xml))
      else some (.error (.store (objectStoreError "list" reply.status (detailOf reply))))

def listObjects (n : ℕ) : Option (Except Thrown (List StoredObject)) :=
  listLoop parse ask pfx n none []

def listPrefix (n : ℕ) : Option (Except Thrown (List Text)) :=
  (listObjects parse ask pfx n).map fun listed => listed.map fun objects => objects.map (·.key)

def deleteObject (fetched : Fetched) : Except Thrown Unit := do
  let response ← received "delete" fetched
  if !response.ok && response.status ≠ 404 then
    .error (.store (objectStoreError "delete" response.status (detailOf response)))
  else if response.body.isNone then .error .unread
  else .ok ()

def DELETE_CONCURRENCY : ℕ := 8

/-- What `deletePrefix` has counted, and the keys it has sent deletes for. -/
structure Deleting where
  attempted : List Text
  deleted : ℕ
  failed : ℕ

def deleteBatch (delete : ℕ → Text → Fetched) (i : ℕ) (batch : List Text) (run : Deleting) :
    Deleting :=
  let results := batch.zipIdx.map fun k => deleteObject (delete (i+k.2) k.1)
  { attempted := run.attempted ++ batch
    deleted := run.deleted+results.countP fun r => r.isOk
    failed := run.failed+results.countP fun r => !r.isOk }

def deleteLoop (delete : ℕ → Text → Fetched) (keys : List Text) (i : ℕ) (run : Deleting) : Deleting :=
  if i < keys.length then
    let batch := (keys.drop i).take DELETE_CONCURRENCY
    deleteLoop delete keys (i+DELETE_CONCURRENCY) (deleteBatch delete i batch run)
  else run
termination_by keys.length-i
decreasing_by
  have hpos : 0 < DELETE_CONCURRENCY := by decide
  omega

def deletePrefix (delete : ℕ → Text → Fetched) (n : ℕ) : Option (Except Thrown Deleting) :=
  (listPrefix parse ask pfx n).map fun listed => listed.map fun keys =>
    deleteLoop delete keys 0 ⟨[],0,0⟩

end WeirdVault.Storage
