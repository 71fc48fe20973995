import Mathlib.Logic.Encodable.Basic
import Mathlib.Logic.Equiv.List
import WeirdVault.Vault.Account

/-!
# A small account

Concrete values of what the model leaves open, on which runs can be evaluated: a key derivation
that encodes the password, a credential that is the token, and a few records.
-/

namespace WeirdVault.Vault

open WeirdVault.Framework

def encodePassword (password : String) : Nat :=
  Encodable.encode (password.toList.map Char.toNat)

theorem encodePassword_injective {p q : String} (h : encodePassword p = encodePassword q) :
    p = q := by
  have hcodes := Encodable.encode_injective h
  have hchars : p.toList = q.toList :=
    List.map_injective_iff.mpr (fun _ _ hab => Char.toNat_inj.mp hab) hcodes
  exact String.toList_inj.mp hchars

def demoKdf : Kdf where
  deriveSecrets _ password := ⟨password,⟨encodePassword password⟩,⟨encodePassword password⟩⟩
  vaultKey_injective h := encodePassword_injective (congrArg CryptoKey.raw h)
  authToken_injective h := h

def demoAuth : BetterAuth where
  Credential := String
  verify credential token := token == credential
  change credential current new := if current == credential then some new else none
  change_isSome c current new := by
    by_cases h : current = c <;> simp [h]
  verify_change := by
    intro c current new c' h token
    by_cases hc : current = c
    · simp only [hc,beq_self_eq_true,if_true,Option.some.injEq] at h
      rw [h]
    · simp [hc] at h

def demoAccount : Account := ⟨"ada@example.org",demoKdf,demoAuth⟩

def demoKey (password : String) : CryptoKey := (demoKdf.deriveSecrets "" password).vaultKey

def demoEnv : Env := ⟨10,7,fun _ => [],.delivered,none,none⟩

def turns (i now n : Nat) : List Step := List.replicate n (.step i { demoEnv with now := now })

def demoHost (n : Nat) (label : String) (updatedAt : Nat) : Host :=
  ⟨.uuid n,label,"example.org",22,"root",some .key,none,none,none,none,1,none,some updatedAt⟩

def demoEnvelope (key : CryptoKey) (doc : VaultDocument) : VaultEnvelope := ⟨1,⟨key,0,doc.toWire⟩⟩

def demoRow (key : CryptoKey) (doc : VaultDocument) : VaultRow :=
  ⟨1,demoEnvelope key doc,Nat.one_pos⟩

/-- All devices as given, the row as given, and `"a"` for the password. -/
def demoState (device : DeviceId → LocalDb) (row : Option VaultRow) : State demoAccount where
  device := device
  row := row
  credential := "a"
  recordings := []

end WeirdVault.Vault
