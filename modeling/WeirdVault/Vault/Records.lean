import WeirdVault.Framework.Replica
import WeirdVault.Framework.Table

/-!
# Vault records

The four kinds of record, the document that carries them, and its ciphertext.

Record ids are either random UUIDs or the `host:port` of a pin. No such string is the name of a
property of `Object.prototype` or an array index, so an object or a `Map` keyed by ids holds exactly
what was put, in the order in which it was put. Times are the milliseconds of `Date.now()`.
-/

namespace WeirdVault.Vault

open WeirdVault.Framework

abbrev Bytes := List UInt8

inductive RecordId
  | uuid (n : Nat)
  | address (host : String) (port : Nat)
  deriving DecidableEq, Repr

/-- A non-extractable AES-GCM key; the bytes are what the key is, not what the program can read. -/
structure CryptoKey where
  raw : Nat
  deriving DecidableEq, Repr

/-- AES-GCM ciphertext of `plain`: it opens under the key that made it and under no other. -/
structure Sealed (α : Type) where
  key : CryptoKey
  iv : Nat
  plain : α
  deriving DecidableEq, Repr

def Sealed.decrypt? {α : Type} (s : Sealed α) (key : CryptoKey) : Option α :=
  if s.key = key then some s.plain else none

theorem decrypt?_eq_some {α : Type} {s : Sealed α} {key : CryptoKey} {a : α} :
    s.decrypt? key = some a ↔ s.key = key ∧ s.plain = a := by
  unfold Sealed.decrypt?
  split <;> simp_all

inductive HostAuth
  | key
  | password
  deriving DecidableEq, Repr

structure Host where
  id : RecordId
  label : String
  hostname : String
  port : Nat
  username : String
  auth : Option HostAuth
  keyId : Option RecordId
  agentId : Option String
  folder : Option String
  tags : Option (List String)
  createdAt : Nat
  lastUsedAt : Option Nat
  updatedAt : Option Nat
  deriving DecidableEq, Repr

inductive KeyMode
  | portable
  | deviceBound
  deriving DecidableEq, Repr

/-- A key as IndexedDB holds it. Buffers and their base64 are the same bytes. -/
structure StoredKey where
  id : RecordId
  label : String
  mode : KeyMode
  publicKeyRaw : Bytes
  wrapped : Option (Sealed Bytes)
  privateKey : Option CryptoKey
  createdAt : Nat
  deriving DecidableEq, Repr

structure SyncedKey where
  id : RecordId
  label : String
  publicKeyRaw : Bytes
  wrapped : Sealed Bytes
  createdAt : Nat
  deriving DecidableEq, Repr

/-- The base64 of a marshaled SSH public key, which is never empty. -/
structure HostKey where
  base64 : String
  nonempty : base64 ≠ ""
  deriving DecidableEq, Repr

structure PinnedHostKey where
  id : RecordId
  key : HostKey
  fingerprint : String
  type : String
  pinnedAt : Nat
  lastSeenAt : Nat
  deriving DecidableEq, Repr

structure Snippet where
  id : RecordId
  name : String
  body : String
  description : Option String
  tags : Option (List String)
  createdAt : Nat
  updatedAt : Nat
  deriving DecidableEq, Repr

abbrev Tombstones := Table (Prod.fst : RecordId × Nat → RecordId)

def deletedAt (t : Tombstones) (id : RecordId) : Nat := ((t.get? id).map Prod.snd).getD 0

structure VaultDocument where
  hosts : List Host
  keys : List SyncedKey
  hostKeys : List PinnedHostKey
  snippets : List Snippet
  tombstones : Tombstones
  updatedAt : Nat
  deriving DecidableEq

def emptyDoc : VaultDocument := ⟨[],[],[],[],Table.empty _,0⟩

/-- What the JSON of a stored document can be: documents of older clients lack fields. -/
structure WireDocument where
  hosts : Option (List Host)
  keys : Option (List SyncedKey)
  hostKeys : Option (List PinnedHostKey)
  snippets : Option (List Snippet)
  tombstones : Option Tombstones
  updatedAt : Option Nat
  deriving DecidableEq

def WireDocument.filled (d : WireDocument) : VaultDocument where
  hosts := d.hosts.getD []
  keys := d.keys.getD []
  hostKeys := d.hostKeys.getD []
  snippets := d.snippets.getD []
  tombstones := d.tombstones.getD (Table.empty _)
  updatedAt := d.updatedAt.getD 0

def VaultDocument.toWire (d : VaultDocument) : WireDocument :=
  ⟨some d.hosts,some d.keys,some d.hostKeys,some d.snippets,some d.tombstones,some d.updatedAt⟩

@[simp] theorem filled_toWire (d : VaultDocument) : d.toWire.filled = d := rfl

structure VaultEnvelope where
  v : Nat
  ct : Sealed WireDocument
  deriving DecidableEq

def hostStamp (h : Host) : Nat := h.updatedAt.getD (h.lastUsedAt.getD h.createdAt)

/-- The four kinds of record, each merged on a stamp of its own. -/
inductive Kind
  | hosts
  | keys
  | hostKeys
  | snippets
  deriving DecidableEq, Repr

@[reducible] def Kind.Rec : Kind → Type
  | .hosts => Host
  | .keys => SyncedKey
  | .hostKeys => PinnedHostKey
  | .snippets => Snippet

def Kind.id : (k : Kind) → k.Rec → RecordId
  | .hosts => Host.id
  | .keys => SyncedKey.id
  | .hostKeys => PinnedHostKey.id
  | .snippets => Snippet.id

def Kind.stamp : (k : Kind) → k.Rec → Nat
  | .hosts => hostStamp
  | .keys => SyncedKey.createdAt
  | .hostKeys => PinnedHostKey.pinnedAt
  | .snippets => Snippet.updatedAt

def VaultDocument.records (d : VaultDocument) : (k : Kind) → List k.Rec
  | .hosts => d.hosts
  | .keys => d.keys
  | .hostKeys => d.hostKeys
  | .snippets => d.snippets

/-- What a document claims: its records by kind and id, and its deletions, which hold for every
kind. -/
def VaultDocument.replica (d : VaultDocument) : Replica (Kind × RecordId) Nat where
  live i t := ∃ r ∈ d.records i.1, i.1.id r = i.2 ∧ i.1.stamp r = t
  dead i t := (i.2,t) ∈ d.tombstones.rows

theorem live_iff {d : VaultDocument} {k : Kind} {i : RecordId} {t : Nat} :
    d.replica.live (k,i) t ↔ ∃ r ∈ d.records k, k.id r = i ∧ k.stamp r = t := Iff.rfl

theorem live_of_mem {d : VaultDocument} {k : Kind} {r : k.Rec} (h : r ∈ d.records k) :
    d.replica.live (k,k.id r) (k.stamp r) := ⟨r,h,rfl,rfl⟩

end WeirdVault.Vault
