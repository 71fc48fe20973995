import Mathlib.Data.List.Sort
import WeirdVault.Vault.Requests

/-! # The local stores: hosts, keys, pinned host keys, snippets and tombstones -/

namespace WeirdVault.Vault

open WeirdVault.Framework

def getTombstones : Prog Tombstones := do
  return (← query (.vaultGet .tombstones)).getD (Table.empty _)

def recordDeletion (id : RecordId) : Prog Unit := do
  let t ← getTombstones
  let now ← query .dateNow
  query (.vaultPut .tombstones (t.put (id,now)))

def setTombstones (t : Tombstones) : Prog Unit := query (.vaultPut .tombstones t)

def listHosts : Prog (List Host) := do
  let all ← query (.idbGetAll .hosts)
  return all.insertionSort (fun a b => b.createdAt ≤ a.createdAt)

/-- What `saveHost` takes: a host whose id and creation may be missing and whose `updatedAt` it
sets. -/
structure HostDraft where
  id : Option RecordId
  label : String
  hostname : String
  port : Nat
  username : String
  auth : Option HostAuth
  keyId : Option RecordId
  agentId : Option String
  folder : Option String
  tags : Option (List String)
  createdAt : Option Nat
  lastUsedAt : Option Nat
  deriving DecidableEq, Repr

/-- `x ?? fallback` for a fallback that asks. -/
def orElse {α : Type} (x : Option α) (fallback : Prog α) : Prog α :=
  match x with
  | some a => pure a
  | none => fallback

def freshId : Prog RecordId := do
  return .uuid (← query .randomUUID)

def saveHost (host : HostDraft) : Prog Host := do
  let id ← orElse host.id freshId
  let createdAt ← orElse host.createdAt (query .dateNow)
  let updatedAt ← query .dateNow
  let record : Host :=
    { id := id, label := host.label, hostname := host.hostname, port := host.port
      username := host.username, auth := host.auth, keyId := host.keyId, agentId := host.agentId
      folder := host.folder, tags := host.tags, createdAt := createdAt
      lastUsedAt := host.lastUsedAt, updatedAt := some updatedAt }
  query (.idbPut .hosts record)
  return record

def putHost (host : Host) : Prog Unit := query (.idbPut .hosts host)

/-- The fields of a connection that `rememberHost` writes over the saved host. -/
structure HostFields where
  hostname : String
  port : Nat
  username : String
  keyId : Option RecordId
  auth : Option HostAuth
  agentId : Option String
  deriving DecidableEq, Repr

def HostFields.names (f : HostFields) (h : Host) : Bool :=
  h.hostname == f.hostname && h.port == f.port && h.username == f.username

/-- `{ ...(existing ?? {}), ...fields, label, lastUsedAt }` -/
def HostFields.draft (f : HostFields) (existing : Option Host) (now : Nat) : HostDraft where
  id := existing.map Host.id
  label := (existing.map Host.label).getD (f.username ++ "@" ++ f.hostname)
  hostname := f.hostname
  port := f.port
  username := f.username
  auth := f.auth
  keyId := f.keyId
  agentId := f.agentId
  folder := existing.bind Host.folder
  tags := existing.bind Host.tags
  createdAt := existing.map Host.createdAt
  lastUsedAt := some now

def rememberHost (fields : HostFields) (create : Bool) : Prog (Option Host) := do
  let existing := (← listHosts).find? fields.names
  if existing.isNone && !create then
    return none
  let now ← query .dateNow
  return some (← saveHost (fields.draft existing now))

def deleteHost (id : RecordId) : Prog Unit := do
  query (.idbDelete .hosts id)
  recordDeletion id

def forgetHost (id : RecordId) : Prog Unit := query (.idbDelete .hosts id)

/-- The bytes and the handle of a key that has just been generated or parsed. -/
structure KeyMaterial where
  publicKeyRaw : Bytes
  pkcs8 : Bytes
  handle : CryptoKey
  deriving DecidableEq, Repr

/-- A new key is stored as its handle or, when it is to travel, wrapped under the vault key. -/
def storeNewKey (refusal label : String) (mode : KeyMode) (material : KeyMaterial)
    (vaultKey : Option CryptoKey) : Prog StoredKey := do
  match mode,vaultKey with
  | .portable,none => throw (.error refusal)
  | .portable,some vaultKey =>
    let id ← freshId
    let createdAt ← query .dateNow
    let iv ← query .randomIv
    let record : StoredKey :=
      ⟨id,label,.portable,material.publicKeyRaw,some ⟨vaultKey,iv,material.pkcs8⟩,none,createdAt⟩
    query (.idbPut .keys record)
    return record
  | .deviceBound,_ =>
    let id ← freshId
    let createdAt ← query .dateNow
    let record : StoredKey :=
      ⟨id,label,.deviceBound,material.publicKeyRaw,none,some material.handle,createdAt⟩
    query (.idbPut .keys record)
    return record

def generateKey (label : String) (mode : KeyMode) (pair : KeyMaterial)
    (vaultKey : Option CryptoKey) : Prog StoredKey :=
  storeNewKey ("A portable key needs the vault unlocked so it can be wrapped. " ++
    "Sign in first, or create a device-bound key.") label mode pair vaultKey

def importKey (label : String) (mode : KeyMode) (parsed : KeyMaterial)
    (vaultKey : Option CryptoKey) : Prog StoredKey :=
  storeNewKey ("A portable key needs the vault unlocked so it can be wrapped. " ++
    "Sign in first, or import it as a device-bound key.") label mode parsed vaultKey

def listStoredKeys : Prog (List StoredKey) := do
  let all ← query (.idbGetAll .keys)
  return all.insertionSort (fun a b => a.createdAt ≤ b.createdAt)

def deleteKey (id : RecordId) : Prog Unit := do
  query (.idbDelete .keys id)
  recordDeletion id

def forgetStoredKey (id : RecordId) : Prog Unit := query (.idbDelete .keys id)

def putStoredKey (rec : StoredKey) : Prog Unit := query (.idbPut .keys rec)

def pinKeyFor (hostname : String) (agentId : Option String) : String :=
  match agentId with
  | none => hostname
  | some agent => if agent = "" then hostname else "agent:" ++ agent

def getPin (host : String) (port : Nat) : Prog (Option PinnedHostKey) :=
  query (.idbGet .hostkeys (.address host port))

def listPins : Prog (List PinnedHostKey) := query (.idbGetAll .hostkeys)

def pin (host : String) (port : Nat) (info : HostKeyInfo) : Prog PinnedHostKey := do
  let now ← query .dateNow
  let record : PinnedHostKey := ⟨.address host port,info.key,info.fingerprint,info.type,now,now⟩
  query (.idbPut .hostkeys record)
  return record

def putPin (record : PinnedHostKey) : Prog Unit := query (.idbPut .hostkeys record)

def touchPin (host : String) (port : Nat) : Prog Unit := do
  let existing ← getPin host port
  match existing with
  | none => return
  | some existing =>
    let now ← query .dateNow
    query (.idbPut .hostkeys { existing with lastSeenAt := now })

def unpin (host : String) (port : Nat) : Prog Unit := do
  query (.idbDelete .hostkeys (.address host port))
  recordDeletion (.address host port)

def forgetPin (id : RecordId) : Prog Unit := query (.idbDelete .hostkeys id)

def readMap : Prog SnippetMap := do
  return (← query (.vaultGet .snippets)).getD (Table.empty _)

def writeMap (map : SnippetMap) : Prog Unit := query (.vaultPut .snippets map)

def listSnippets : Prog (List Snippet) := do
  let map ← readMap
  return map.rows.insertionSort (fun a b => b.updatedAt ≤ a.updatedAt)

structure SnippetDraft where
  id : Option RecordId
  name : String
  body : String
  description : Option String
  tags : Option (List String)
  createdAt : Option Nat
  deriving DecidableEq, Repr

def saveSnippet (snippet : SnippetDraft) : Prog Snippet := do
  let now ← query .dateNow
  let id ← orElse snippet.id freshId
  let record : Snippet :=
    ⟨id,snippet.name,snippet.body,snippet.description,snippet.tags,snippet.createdAt.getD now,now⟩
  let map ← readMap
  writeMap (map.put record)
  return record

def putSnippet (record : Snippet) : Prog Unit := do
  let map ← readMap
  writeMap (map.put record)

def deleteSnippet (id : RecordId) : Prog Unit := do
  let map ← readMap
  writeMap (map.erase id)
  recordDeletion id

def forgetSnippet (id : RecordId) : Prog Unit := do
  let map ← readMap
  if (map.get? id).isNone then
    return
  writeMap (map.erase id)

end WeirdVault.Vault
