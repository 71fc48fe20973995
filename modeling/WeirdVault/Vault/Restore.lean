import WeirdVault.Vault.Sync

/-! # Restoring an exported vault -/

namespace WeirdVault.Vault

open WeirdVault.Framework

structure RestoreCount where
  inFile : Nat
  added : Nat
  updated : Nat
  blockedByDelete : Nat
  deriving DecidableEq, Repr

structure RestoreResult where
  hosts : RestoreCount
  keys : RestoreCount
  hostKeys : RestoreCount
  snippets : RestoreCount
  sync : Option SyncResult
  syncError : Option JsError
  deriving DecidableEq, Repr

section

variable {τ : Type} (id : τ → RecordId) (stamp : τ → Nat) (ours merged : List τ)

/-- `new Map(items.map((i) => [i.id, i])).get(id)`: of several items the last. -/
def lookup (items : List τ) (i : RecordId) : Option τ :=
  ((Table.empty id).putAll items).get? i

/-- What the loop over the file's records adds for one of them. -/
def countOne (item : τ) (c : RestoreCount) : RestoreCount :=
  match lookup id merged (id item) with
  | none => { c with blockedByDelete := c.blockedByDelete+1 }
  | some winner =>
    match lookup id ours (id item) with
    | none => { c with added := c.added+1 }
    | some here =>
      if stamp here < stamp winner then { c with updated := c.updated+1 } else c

def countAgainst (imported : List τ) : RestoreCount :=
  imported.foldl (fun c item => countOne id stamp ours merged item c) ⟨imported.length,0,0,0⟩

end

def restoreLocally (imported : VaultDocument) : Prog RestoreResult := do
  let ours ← readLocalVault
  let merged := mergeVault ours imported
  applyVaultLocally merged ours
  return {
    hosts := countAgainst Host.id hostStamp ours.hosts merged.hosts imported.hosts
    keys := countAgainst SyncedKey.id SyncedKey.createdAt ours.keys merged.keys imported.keys
    hostKeys := countAgainst PinnedHostKey.id PinnedHostKey.pinnedAt ours.hostKeys merged.hostKeys
      imported.hostKeys
    snippets := countAgainst Snippet.id Snippet.updatedAt ours.snippets merged.snippets
      imported.snippets
    sync := none
    syncError := none }

def restoreVault (envelope : VaultEnvelope) (vaultKey : CryptoKey) : Prog RestoreResult := do
  if envelope.v ≠ 1 then
    throw (.vaultFormat envelope.v)
  match envelope.open? vaultKey with
  | none => throw .vaultDecryption
  | some doc =>
    let result ← restoreLocally doc.filled
    tryCatch
      (do
        let sync ← syncVault vaultKey
        return { result with sync := some sync })
      (fun e => pure { result with syncError := some e })

end WeirdVault.Vault
