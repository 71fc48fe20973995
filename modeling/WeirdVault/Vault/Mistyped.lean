import WeirdVault.Vault.Stranded

/-!
# A mistyped current password

A re-key under secrets that are not the account's. A vault that the server holds shields the
account, since the secrets do not open it; where there is none, the run writes one before anybody
has checked the password.
-/

namespace WeirdVault.Vault

open WeirdVault.Framework Program

variable {acc : Account}

structure VaultSession where
  vaultKey : CryptoKey
  auditKey : Option CryptoKey
  deriving DecidableEq, Repr

structure OpenTab where
  current : Option VaultSession
  recovered : Option DerivedSecrets
  unlockOpen : Bool
  deriving DecidableEq, Repr

def OpenTab.setVaultKey (tab : OpenTab) (vaultKey : CryptoKey) (auditKey : Option CryptoKey) : OpenTab :=
  { tab with current := some ⟨vaultKey,auditKey⟩, unlockOpen := false }

def OpenTab.clearRecoveredSecrets (tab : OpenTab) : OpenTab := { tab with recovered := none }

def credentialChange (oldSecrets newSecrets : DerivedSecrets) (via : String) : Prog Prepared := do
  let prepared ← prepare oldSecrets newSecrets via
  changeCredential oldSecrets newSecrets prepared
  return prepared

def installPrepared (prepared : Prepared) : Prog RekeyResult := do
  let keys := (prepared.document.map VaultDocument.keys).getD []
  Program.forEach (fun key => putStoredKey (fromSyncedKey key)) keys
  let res ← query .deleteRecovery
  let recoveryError : Option String :=
    match res with
    | .ok () => none
    | .failed status => if status = 404 then none else some s!"the server returned {status}"
    | .unreachable => some "Failed to fetch"
    | .unreadable => none
  return ⟨prepared.version,prepared.keysRewrapped,prepared.keysUnreadable,prepared.resumed,
    recoveryError.isNone,recoveryError⟩

theorem rekey_eq (old new : DerivedSecrets) (via : String) :
    rekey old new via = (credentialChange old new via).bind installPrepared := by
  simp only [rekey,credentialChange,bind_eq,pure_eq,bind_assoc,done_bind]
  rfl

section

variable (old new : DerivedSecrets) (via : String) (job : Job) (env : Nat → Env) (s : State acc)

def rekeyRun : Alone acc × Except JsError RekeyResult :=
  (rekey old new via).run (Alone.exec job env) ⟨s,0⟩

def tabAfter (tab : OpenTab) : OpenTab :=
  match ((credentialChange old new via).run (Alone.exec job env) ⟨s,0⟩).2 with
  | .ok _ => (tab.setVaultKey new.vaultKey (some new.auditKey)).clearRecoveredSecrets
  | .error _ => tab

/-- The run fails, says nothing of a password that is half changed, and leaves the blob with its
version, the credential, the stored keys and the tab as they were. -/
structure ChangesNothing (tab : OpenTab) : Prop where
  error : ∃ e, (rekeyRun old new via job env s).2 = .error e ∧ e.saysStranded = false
  row : (rekeyRun old new via job env s).1.state.row = s.row
  credential : (rekeyRun old new via job env s).1.state.credential = s.credential
  wrappings : ∀ d, ((rekeyRun old new via job env s).1.state.device d).keys = (s.device d).keys
  session : tabAfter old new via job env s tab = tab

end

section Refused

variable {old new : DerivedSecrets} {job : Job} {env : Nat → Env} {a : Alone acc}

private theorem tryDecrypt_eq_none {key : CryptoKey} {row : VaultRow}
    (h : opens key (some row) = false) : tryDecrypt key row.blob = none := by
  have hclosed : (row.blob.open? key).isSome = false := h
  simpa [tryDecrypt] using hclosed

private theorem run_prepare_refused (via : String) {row : VaultRow} (hrow : a.state.row = some row)
    (hold : opens old.vaultKey a.state.row = false)
    (hnew : opens new.vaultKey a.state.row = false) :
    ∃ e, (prepare old new via).run (Alone.exec job env) a =
      ((Alone.exec job env a .getVault).1,.error e) ∧ e.saysStranded = false := by
  rw [hrow] at hold hnew
  have hpull := fun p => pull_cases job env a (p := p)
  simp only [prepare,pullVault,query,bind_eq,request_bind,ask_bind,run_ask]
  generalize Alone.exec job env a .getVault = served at hpull
  obtain ⟨a1,reply⟩ := served
  cases reply with
  | unreachable => exact ⟨_,rfl,rfl⟩
  | failed status => by_cases h : status = 401 <;> simp [h,JsError.saysStranded]
  | unreadable => exact ⟨_,rfl,rfl⟩
  | ok p =>
    have hblob : p.blob = some row.blob := by rw [(hpull p rfl).2,hrow]; rfl
    simp only [pure_eq,done_bind,hblob,tryDecrypt_eq_none hold,tryDecrypt_eq_none hnew]
    exact ⟨_,rfl,rfl⟩

private theorem changesNothing_of_refused (via : String) {s : State acc} {row : VaultRow}
    (hrow : s.row = some row) (hold : opens old.vaultKey s.row = false)
    (hnew : opens new.vaultKey s.row = false) (tab : OpenTab) :
    ChangesNothing old new via job env s tab := by
  have hprepare : ∃ e, (prepare old new via).run (Alone.exec job env) ⟨s,0⟩ =
      ((Alone.exec job env ⟨s,0⟩ .getVault).1,.error e) ∧ e.saysStranded = false :=
    run_prepare_refused via hrow hold hnew
  obtain ⟨e,hrun,he⟩ := hprepare
  have hchange : (credentialChange old new via).run (Alone.exec job env) ⟨s,0⟩ =
      ((Alone.exec job env ⟨s,0⟩ .getVault).1,.error e) := by
    simp only [credentialChange,bind_eq,run_bind,hrun]
  have hrekey : rekeyRun old new via job env s =
      ((Alone.exec job env ⟨s,0⟩ .getVault).1,.error e) := by
    rw [rekeyRun,rekey_eq,run_bind,hchange]
  have hstate : (rekeyRun old new via job env s).1.state = s := by
    rw [hrekey]
    exact state_getVault job env ⟨s,0⟩
  refine ⟨⟨e,by rw [hrekey],he⟩,by rw [hstate],by rw [hstate],?_,?_⟩
  · intro d
    rw [hstate]
  · simp only [tabAfter,hchange]

end Refused

section Delivered

variable {old new : DerivedSecrets} {job : Job} {env : Nat → Env} {a : Alone acc}

private theorem row_stays {r : Request} (h : a.state.row.isSome) :
    (Alone.exec job env a r).1.state.row.isSome := by
  rcases row_exec_cases job (env a.asked) a.state r with hrow | ⟨blob,base,v,rfl,-,hok,hrow⟩
  · exact hrow.symm ▸ h
  · have hwritten := hrow.trans (PUT_ok hok).2.2
    exact Option.isSome_iff_exists.mpr ⟨_,hwritten⟩

private theorem leaves_row {α : Type} (p : Prog α) (h : a.state.row.isSome) :
    Leaves (Alone.exec job env) a p (fun t _ => t.state.row.isSome) :=
  leaves_of_kept (fun _ _ hs => row_stays hs) p h

private theorem run_mergeLocally_bare {key : CryptoKey} {p : PulledVault} (hblob : p.blob = none) :
    ∃ a' x, (mergeLocally key p).run (Alone.exec job env) a = (a',.ok x) ∧
      a'.state.server = a.state.server := by
  have hends : (deviceBrowser job env).Ends (a.state.device job.device) a.state.server
      (mergeLocally key p) (fun _ _ => True) := by
    simp only [mergeLocally,decryptPulled,hblob,bind_eq,pure_eq,done_bind]
    apply ends_readLocalVault.bind
    intro m ours _
    rw [applyVaultLocally_eq]
    apply (Browser.ends_writeBacks _).bind
    intro m' u _
    exact Browser.ends_done trivial
  obtain ⟨a',x,hrun,hserver,-⟩ := hends a rfl rfl
  exact ⟨a',x,hrun,hserver⟩

variable (hcalm : ∀ n, (env n).network = .delivered)

include hcalm

private theorem exec_getVault :
    Alone.exec job env a .getVault = (⟨a.state,a.asked+1⟩,GET a.state.row) := by
  simp only [Alone.exec,exec,hcalm,Delivery.carry]

private theorem row_put {blob : VaultEnvelope} (hrow : a.state.row = none) :
    (Alone.exec job env a (.putVault blob 0)).1.state.row.isSome := by
  simp only [Alone.exec,exec,hcalm,Delivery.carry,putServed,hrow,PUT]
  rfl

private theorem leaves_syncVault_empty (key : CryptoKey) (hrow : a.state.row = none) :
    Leaves (Alone.exec job env) a (syncVault key) (fun t _ => t.state.row.isSome) := by
  simp only [syncVault,runSync,attempt,getState,query,bind_eq,pure_eq,request_bind,ask_bind,
    done_bind,leaves_ask]
  have hsame : (Alone.exec job env a (.vaultGet .syncState)).1.state = a.state := rfl
  generalize (Alone.exec job env a (.vaultGet .syncState)).1 = a1 at hsame
  rw [exec_getVault hcalm,hsame,hrow]
  simp only [GET]
  have hmerge : ∃ a' x, (mergeLocally key ⟨0,none⟩).run (Alone.exec job env)
      ⟨a.state,a1.asked+1⟩ = (a',.ok x) ∧ a'.state.server = a.state.server := run_mergeLocally_bare rfl
  obtain ⟨a2,⟨merged,remote⟩,hrun,hserver⟩ := hmerge
  apply leaves_bind_of_run hrun
  simp only [quiet,Option.isSome_none,Bool.false_and,Bool.false_eq_true,if_false,push,encryptVault,
    query,bind_eq,pure_eq,request_bind,ask_bind,done_bind,leaves_ask]
  apply leaves_row
  apply row_put hcalm
  exact (congrArg Server.row hserver).trans hrow

private theorem row_written (via : String) {s : State acc} (hrow : s.row = none) :
    (rekeyRun old new via job env s).1.state.row.isSome := by
  have hsync : Leaves (Alone.exec job env) ⟨s,1⟩ (syncAndReencrypt old new via)
      (fun t _ => t.state.row.isSome) := by
    simp only [syncAndReencrypt,bind_eq]
    apply (leaves_syncVault_empty hcalm old.vaultKey hrow).bind
    · intro t result ht
      exact leaves_row _ ht
    · intro t e ht
      exact ht
  have hprepare : Leaves (Alone.exec job env) ⟨s,0⟩ (prepare old new via)
      (fun t _ => t.state.row.isSome) := by
    simp only [prepare,pullVault,query,bind_eq,request_bind,ask_bind,leaves_ask]
    rw [exec_getVault hcalm,hrow]
    exact hsync
  have hrun : Leaves (Alone.exec job env) ⟨s,0⟩ (rekey old new via)
      (fun t _ => t.state.row.isSome) := by
    simp only [rekey,bind_eq]
    apply hprepare.bind
    · intro t prepared ht
      exact leaves_row _ ht
    · intro t e ht
      exact ht
  exact hrun

private theorem strands_of_opens (via : String) {s : State acc}
    (hold : opens old.vaultKey s.row = false) (hnew : opens new.vaultKey s.row = true)
    (hverify : acc.auth.verify s.credential old.authToken = false) :
    ∃ cause, (rekeyRun old new via job env s).2 = .error (.rekeyStranded cause) := by
  obtain ⟨row,document,hrow,hopen⟩ := exists_of_opens hnew
  rw [hrow] at hold
  have hrefuses : acc.auth.change s.credential old.authToken new.authToken = none := by
    have hsome := acc.auth.change_isSome s.credential old.authToken new.authToken
    rw [hverify] at hsome
    simpa using hsome
  simp only [rekeyRun,rekey,prepare,pullVault,query,bind_eq,request_bind,ask_bind,run_ask]
  rw [exec_getVault hcalm,hrow]
  simp only [GET,pure_eq,done_bind,tryDecrypt_eq_none hold,hopen,changeCredential,query,bind_eq,
    request_bind,ask_bind,run_ask,Alone.exec,exec,hcalm,Delivery.carry,changeServed,hrefuses,
    Bool.or_true,if_true]
  exact ⟨_,rfl⟩

end Delivered

/-- Under secrets that are not the account's, a run changes nothing whatever happens to it exactly
if the server holds a vault and the new key does not open it. -/
theorem changesNothing_iff {old new : DerivedSecrets} (job : Job) {s : State acc}
    (hopens : opens old.vaultKey s.row = false)
    (hverify : acc.auth.verify s.credential old.authToken = false) (via : String) (tab : OpenTab) :
    (∀ env, ChangesNothing old new via job env s tab) ↔
      s.row.isSome ∧ opens new.vaultKey s.row = false := by
  constructor
  · intro h
    have hcalm : ∀ n : Nat, ((fun _ => demoEnv : Nat → Env) n).network = .delivered := fun n => rfl
    have hrun := h (fun _ => demoEnv)
    constructor
    · have hwritten : s.row = none → (rekeyRun old new via job (fun _ => demoEnv) s).1.state.row.isSome :=
        row_written hcalm via
      rw [hrun.row] at hwritten
      cases hrow : s.row with
      | none =>
        rw [hrow] at hwritten
        exact hwritten rfl
      | some row => rfl
    · cases hnew : opens new.vaultKey s.row with
      | false => rfl
      | true =>
        obtain ⟨cause,hstrands⟩ := strands_of_opens hcalm via hopens hnew hverify
        obtain ⟨e,he,hsaid⟩ := hrun.error
        rw [hstrands] at he
        cases he
        cases hsaid
  · rintro ⟨hsome,hnew⟩ env
    obtain ⟨row,hrow⟩ := Option.isSome_iff_exists.mp hsome
    exact changesNothing_of_refused via hrow hopens hnew tab

/-- A change to `"b"` with `"x"` for the current password, where the vault is under `"a"`. -/
theorem changesNothing_iff_shielded :
    (∀ env, ChangesNothing (demoKdf.deriveSecrets "" "x") (demoKdf.deriveSecrets "" "b") "password"
        (.sync 0 (demoKey "x")) env emptyVaultState ⟨none,none,false⟩) ↔
      emptyVaultState.row.isSome ∧ opens (demoKey "b") emptyVaultState.row = false :=
  changesNothing_iff _ (by decide +kernel) (by decide) "password" _

/-- A change from the password given to the other one, undisturbed. -/
def mistyped (current new : String) (s : State demoAccount) :
    Alone demoAccount × Except JsError RekeyResult :=
  rekeyRun (demoKdf.deriveSecrets "" current) (demoKdf.deriveSecrets "" new) "password"
    (.sync 0 (demoKey current)) (fun _ => demoEnv) s

/-- An account that has never pushed a vault gets one that its password does not open, and a change
to the password that the account has is taken for the rest of an earlier one. -/
theorem mistyped_changes_something :
    ((demoState (fun _ => .fresh) none).row = none ∧
      opens (demoKey "b") (mistyped "x" "b" (demoState (fun _ => .fresh) none)).1.state.row = true ∧
      (mistyped "x" "b" (demoState (fun _ => .fresh) none)).2 =
        .error (.rekeyStranded (.error "the server rejected the change")) ∧
      ¬ ∀ env, ChangesNothing (demoKdf.deriveSecrets "" "x") (demoKdf.deriveSecrets "" "b")
        "password" (.sync 0 (demoKey "x")) env (demoState (fun _ => .fresh) none)
        ⟨none,none,false⟩) ∧
    (opens (demoKey "x") emptyVaultState.row = false ∧
      (mistyped "x" "a" emptyVaultState).2 =
        .error (.rekeyStranded (.error "the server rejected the change")) ∧
      ¬ ∀ env, ChangesNothing (demoKdf.deriveSecrets "" "x") (demoKdf.deriveSecrets "" "a")
        "password" (.sync 0 (demoKey "x")) env emptyVaultState ⟨none,none,false⟩) := by
  have hopened : opens (demoKey "b")
      (mistyped "x" "b" (demoState (fun _ => .fresh) none)).1.state.row = true := by
    decide +kernel
  have hempty : (mistyped "x" "b" (demoState (fun _ => .fresh) none)).2 =
      .error (.rekeyStranded (.error "the server rejected the change")) := by
    decide +kernel
  have hresumed : (mistyped "x" "a" emptyVaultState).2 =
      .error (.rekeyStranded (.error "the server rejected the change")) := by
    decide +kernel
  refine ⟨⟨rfl,hopened,hempty,?_⟩,by decide +kernel,hresumed,?_⟩
  · intro h
    have hsame : (mistyped "x" "b" (demoState (fun _ => .fresh) none)).1.state.row = none :=
      (h (fun _ => demoEnv)).row
    rw [hsame] at hopened
    cases hopened
  · intro h
    obtain ⟨e,he,hsaid⟩ := (h (fun _ => demoEnv)).error
    have hthrown : Except.error (.rekeyStranded (.error "the server rejected the change")) =
        (Except.error e : Except JsError RekeyResult) := hresumed.symm.trans he
    cases hthrown
    cases hsaid

end WeirdVault.Vault
