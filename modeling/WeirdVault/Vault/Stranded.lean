import WeirdVault.Framework.Monitor
import WeirdVault.Vault.Alone
import WeirdVault.Vault.Behaviour
import WeirdVault.Vault.Demo

/-!
# What a failed password change says

A re-key runs undisturbed, and each of its requests may be refused or lost on either way. The error
it throws says under which key the blob is; which error that is depends on the answers that arrived
and not on what the server did.
-/

namespace WeirdVault.Vault

open WeirdVault.Framework Program

variable {acc : Account}

def opens (key : CryptoKey) (row : Option VaultRow) : Bool :=
  row.any (fun r => (r.blob.open? key).isSome)

/-- The change ended where its error says that it did. -/
def Truthful (old new : DerivedSecrets) (s s' : State acc) : Except JsError RekeyResult → Prop
  | .ok _ => True
  | .error (.rekeyStranded _) => opens new.vaultKey s'.row ∧ s'.credential = s.credential
  | .error _ => opens old.vaultKey s'.row ∧ s'.credential = s.credential

def Delivery.losesAnswer : Delivery → Bool
  | .lostResponse => true
  | .cutResponse => true
  | _ => false

/-- The blob moves under the new key, or the password changes, and the answer is lost. -/
def losesChange (newKey : CryptoKey) (env : Nat → Env) (a : Alone acc) : Request → Bool
  | .putVault blob _ => blob.ct.key == newKey && (env a.asked).network.losesAnswer
  | .changePassword .. => (env a.asked).network.losesAnswer
  | _ => false

def JsError.saysStranded : JsError → Bool
  | .rekeyStranded _ => true
  | _ => false

private theorem truthful_error {old new : DerivedSecrets} {s s' : State acc} {e : JsError}
    (h : e.saysStranded = false) : Truthful old new s s' (.error e) ↔
      opens old.vaultKey s'.row ∧ s'.credential = s.credential := by
  cases e with
  | rekeyStranded cause => cases h
  | _ => exact Iff.rfl

private theorem opens_sealed {key : CryptoKey} {row : Option VaultRow} {r : VaultRow}
    (hrow : row = some r) (hv : r.blob.v = 1) (hkey : r.blob.ct.key = key) :
    opens key row = true := by
  simp [opens,hrow,VaultEnvelope.open?,hv,Sealed.decrypt?,hkey]

private theorem not_opens_sealed {key : CryptoKey} {row : Option VaultRow} {r : VaultRow}
    (hrow : row = some r) (hkey : r.blob.ct.key ≠ key) : opens key row = false := by
  simp [opens,hrow,VaultEnvelope.open?,Sealed.decrypt?,hkey]

theorem exists_of_opens {key : CryptoKey} {row : Option VaultRow}
    (h : opens key row = true) : ∃ r doc, row = some r ∧ tryDecrypt key r.blob = some doc := by
  cases row with
  | none => cases h
  | some r =>
    obtain ⟨wire,hwire⟩ := Option.isSome_iff_exists.mp h
    exact ⟨r,wire.filled,rfl,by simp [tryDecrypt,hwire]⟩

theorem credential_exec (job : Job) (env : Env) (s : State acc) {r : Request}
    (h : ∀ current new, r ≠ .changePassword current new) :
    (exec job env s r).1.credential = s.credential := by
  cases r with
  | changePassword current new => exact absurd rfl (h current new)
  | getVault =>
    simp only [exec,carry_fst]
    split <;> rfl
  | putVault blob base =>
    simp only [exec,carry_fst]
    split <;> rfl
  | deleteRecovery =>
    simp only [exec,carry_fst]
    split <;> rfl
  | _ => rfl

section Errors

/-- Everything up to the credential throws errors of another kind. -/
private abbrev Unstranded {α : Type} (p : Prog α) : Prop := Throws (fun e => e.saysStranded = false) p

private theorem unstranded_pullVault : Unstranded pullVault := by
  intro reply
  cases reply with
  | failed status => by_cases h : status = 401 <;> simp [h,JsError.saysStranded]
  | _ => simp [networkError,JsError.saysStranded]

private theorem unstranded_decryptPulled (key : CryptoKey) (p : PulledVault) :
    Unstranded (decryptPulled key p) := by
  rcases hblob : p.blob with _ | blob
  · simp [decryptPulled,hblob]
  · simp only [decryptPulled,hblob,bind_eq]
    apply Throws.bind
    · simp only [decryptVault]
      split
      · simp
      · split <;> simp [JsError.saysStranded]
    · intro doc
      trivial

private theorem unstranded_readLocalVault : Unstranded readLocalVault := by
  intro hosts keys pins m t now
  trivial

private theorem unstranded_removeDeleted {τ : Type} (id : τ → RecordId) (before after : List τ)
    {forget : RecordId → Prog Unit} (h : ∀ i, Unstranded (forget i)) :
    Unstranded (removeDeleted id before after forget) := Throws.forEach h _

private theorem unstranded_applyVaultLocally (merged previous : VaultDocument) :
    Unstranded (applyVaultLocally merged previous) := by
  simp only [applyVaultLocally,bind_eq]
  have hput : ∀ r : Request, Unstranded (query r) := fun r x => trivial
  have hsnippet : ∀ s, Unstranded (putSnippet s) := fun s m x => trivial
  have hforget : ∀ i, Unstranded (forgetSnippet i) := by
    intro i m
    show Throws _ (if ((m.getD (Table.empty _)).get? i).isNone then done () else writeMap _)
    split
    · trivial
    · exact hput _
  refine (Throws.forEach (fun h => hput _) _).bind fun _ => ?_
  refine (Throws.forEach (fun k => hput _) _).bind fun _ => ?_
  refine (Throws.forEach (fun p => hput _) _).bind fun _ => ?_
  refine (Throws.forEach hsnippet _).bind fun _ => ?_
  refine Throws.bind (hput _) fun _ => ?_
  refine (unstranded_removeDeleted _ _ _ (fun i => hput _)).bind fun _ => ?_
  refine (unstranded_removeDeleted _ _ _ (fun i => hput _)).bind fun _ => ?_
  refine (unstranded_removeDeleted _ _ _ (fun i => hput _)).bind fun _ => ?_
  exact unstranded_removeDeleted _ _ _ hforget

private theorem unstranded_mergeLocally (key : CryptoKey) (p : PulledVault) :
    Unstranded (mergeLocally key p) := by
  simp only [mergeLocally,bind_eq]
  refine (unstranded_decryptPulled key p).bind fun remote => ?_
  refine unstranded_readLocalVault.bind fun ours => ?_
  exact (unstranded_applyVaultLocally _ ours).bind fun _ => trivial

private theorem unstranded_attempt (key : CryptoKey) (afterConflict : Bool)
    {onConflict : Prog SyncResult} (h : Unstranded onConflict) :
    Unstranded (attempt key afterConflict onConflict) := by
  intro state reply
  cases reply with
  | unreachable => trivial
  | failed status => by_cases h : status = 401 <;> simp [h,JsError.saysStranded]
  | unreadable => rfl
  | ok p =>
    refine (unstranded_mergeLocally key p).bind fun ⟨merged,remote⟩ => ?_
    by_cases hq : quiet key p merged remote = true
    · simp only [hq,if_true]
      intro now x
      trivial
    · simp only [hq]
      intro iv put
      cases put with
      | failed status =>
        by_cases h409 : status = 409
        · simp only [h409]
          exact h
        · simp [h409,JsError.saysStranded]
      | ok v =>
        intro now x
        trivial
      | _ => rfl

private theorem unstranded_syncVault (key : CryptoKey) : Unstranded (syncVault key) := by
  have hretries : ∀ n after, Unstranded (runSync key n after) := by
    intro n
    induction n with
    | zero => exact fun after => unstranded_attempt key after rfl
    | succ n ih => exact fun after => unstranded_attempt key after (ih true)
  exact hretries 2 false

end Errors

section Run

variable {job : Job} {env : Nat → Env} {old new : DerivedSecrets} {c : acc.auth.Credential}
  {w : Alone acc × Bool}

private abbrev watched (job : Job) (env : Nat → Env) (new : DerivedSecrets) :
    Alone acc × Bool → (r : Request) → (Alone acc × Bool) × r.Ans :=
  watch (Alone.exec job env) (losesChange new.vaultKey env)

/-- The old password opens everything, and no answer that matters has been lost. -/
private structure Unchanged (old : DerivedSecrets) (c : acc.auth.Credential)
    (w : Alone acc × Bool) : Prop where
  blob : opens old.vaultKey w.1.state.row = true
  credential : w.1.state.credential = c
  heard : w.2 = false

/-- Nothing but a push under the old key, and no change of the password. -/
private structure Harmless (oldKey : CryptoKey) (r : Request) : Prop where
  pushes : ∀ blob base, r = .putVault blob base → blob.v = 1 ∧ blob.ct.key = oldKey
  credential : ∀ current new, r ≠ .changePassword current new

private theorem harmless_reads {oldKey : CryptoKey} {r : Request} (h : r.reads) :
    Harmless oldKey r := by
  constructor
  · rintro blob base rfl
    cases h
  · rintro current new rfl
    cases h

private theorem harmless_cycles {oldKey : CryptoKey} {k : Heard} {r : Request}
    (h : Cycles oldKey k r) : Harmless oldKey r := by
  cases h with
  | reads h => exact harmless_reads h
  | applies hmerging happlies =>
    constructor
    · rintro blob base rfl
      cases happlies
    · rintro current new rfl
      cases happlies
  | pushes hmerging iv =>
    constructor
    · rintro blob base he
      cases he
      exact ⟨rfl,rfl⟩
    · rintro current new he
      cases he

private theorem unchanged_step (hne : old.vaultKey ≠ new.vaultKey) (h : Unchanged old c w)
    {r : Request} (hr : Harmless old.vaultKey r) :
    Unchanged old c (watched job env new w r).1 := by
  have hheard : losesChange new.vaultKey env w.1 r = false := by
    cases r with
    | putVault blob base =>
      have hkey : blob.ct.key ≠ new.vaultKey := (hr.pushes blob base rfl).2.symm ▸ hne
      simp [losesChange,hkey]
    | changePassword current new => exact absurd rfl (hr.credential current new)
    | _ => rfl
  refine ⟨?_,?_,?_⟩
  · rcases row_exec_cases job (env w.1.asked) w.1.state r with hrow | ⟨blob,base,v,rfl,-,hok,hrow⟩
    · exact hrow.symm ▸ h.blob
    · obtain ⟨hv,hkey⟩ := hr.pushes blob base rfl
      exact opens_sealed (hrow.trans (PUT_ok hok).2.2) hv hkey
  · exact (credential_exec job (env w.1.asked) w.1.state hr.credential).trans h.credential
  · show (w.2 || losesChange new.vaultKey env w.1 r) = false
    rw [h.heard,hheard]
    rfl

private theorem leaves_syncVault (hne : old.vaultKey ≠ new.vaultKey) (h : Unchanged old c w) :
    Leaves (watched job env new) w (syncVault old.vaultKey)
      (fun w' o => Unchanged old c w' ∧ ∀ e, o = .error e → e.saysStranded = false) := by
  have hasks : Asks (Cycles old.vaultKey) (fun _ _ => True) [] (syncVault old.vaultKey) :=
    asks_syncVault (fun _ _ hr => hr) []
  have hkept : Leaves (watched job env new) w (syncVault old.vaultKey)
      (fun w' _ => Unchanged old c w') := by
    apply hasks.leaves (Unchanged old c) _ h
    intro s k r hs hr
    exact unchanged_step hne hs (harmless_cycles hr)
  exact hkept.and (unstranded_syncVault old.vaultKey).leaves

private theorem leaves_pullVault (hne : old.vaultKey ≠ new.vaultKey) (h : Unchanged old c w) :
    Leaves (watched job env new) w pullVault (fun w' o => (Unchanged old c w' ∧
      ∀ p, o = .ok p → p.version = version w'.1.state.row ∧
        p.blob = w'.1.state.row.map VaultRow.blob) ∧
      ∀ e, o = .error e → e.saysStranded = false) := by
  refine Leaves.and ?_ unstranded_pullVault.leaves
  simp only [pullVault,query,bind_eq,request_bind,leaves_ask]
  have hkept : Unchanged old c (watched job env new w .getVault).1 :=
    unchanged_step hne h (harmless_reads trivial)
  have hpull : ∀ p, (watched job env new w .getVault).2 = .ok p →
      p.version = version (watched job env new w .getVault).1.1.state.row ∧
        p.blob = (watched job env new w .getVault).1.1.state.row.map VaultRow.blob := by
    intro p hp
    have hsame : (watched job env new w .getVault).1.1.state = w.1.state :=
      state_getVault job env w.1
    rw [hsame]
    exact pull_cases job env w.1 hp
  generalize watched job env new w .getVault = served at hkept hpull
  obtain ⟨w1,reply⟩ := served
  cases reply with
  | ok p =>
    refine ⟨hkept,?_⟩
    intro p' he
    exact hpull p' (by rw [Except.ok.inj he])
  | failed status => by_cases h : status = 401 <;> simp [h,hkept]
  | _ => exact ⟨hkept,fun p he => nomatch he⟩

private theorem leaves_rewrapKeys (hne : old.vaultKey ≠ new.vaultKey) (keys : List SyncedKey)
    (h : Unchanged old c w) :
    Leaves (watched job env new) w (rewrapKeys old.vaultKey new.vaultKey keys) (fun w' o =>
      Unchanged old c w' ∧ w'.1.state.row = w.1.state.row ∧ ∃ res, o = .ok res) := by
  induction keys generalizing w with
  | nil => exact ⟨h,rfl,_,rfl⟩
  | cons key keys ih =>
    simp only [rewrapKeys,bind_eq]
    have hone : Leaves (watched job env new) w (rewrapKey key old.vaultKey new.vaultKey)
        (fun w' o => Unchanged old c w' ∧ w'.1.state.row = w.1.state.row ∧ ∃ next, o = .ok next) := by
      rcases hd : key.wrapped.decrypt? old.vaultKey with _ | pkcs8
      · simp only [rewrapKey,hd]
        exact ⟨h,rfl,_,rfl⟩
      · simp only [rewrapKey,hd]
        exact ⟨unchanged_step hne h (harmless_reads trivial),rfl,_,rfl⟩
    apply hone.bind
    · rintro w1 next ⟨hkept,hrow,-⟩
      apply (ih hkept).bind
      · rintro w2 rest ⟨hkept',hrow',-⟩
        exact ⟨hkept',hrow'.trans hrow,_,rfl⟩
      · rintro w2 e ⟨-,-,res,he⟩
        cases he
    · rintro w1 e ⟨-,-,next,he⟩
      cases he

/-- The blob is under the new key, and the password is the old one; or the run ended before. -/
private def Moved {α : Type} (old new : DerivedSecrets) (c : acc.auth.Credential)
    (w : Alone acc × Bool) : Except JsError α → Prop
  | .ok _ => opens new.vaultKey w.1.state.row = true ∧ w.1.state.credential = c ∧ w.2 = false
  | .error e => e.saysStranded = false ∧
      (opens old.vaultKey w.1.state.row = true ∧ w.1.state.credential = c ↔ w.2 = false)

private theorem moved_error {α : Type} {e : JsError} (h : Unchanged old c w)
    (he : e.saysStranded = false) : Moved old new c w (.error e : Except JsError α) :=
  ⟨he,iff_of_true ⟨h.blob,h.credential⟩ h.heard⟩

private theorem Unchanged.again (h : Unchanged old c w) (n : Nat) :
    Unchanged old c (⟨w.1.state,n⟩,w.2 || false) :=
  ⟨h.blob,h.credential,by rw [h.heard]; rfl⟩

private theorem leaves_pushVault (hne : old.vaultKey ≠ new.vaultKey) {blob : VaultEnvelope}
    {base : Nat} (hv : blob.v = 1) (hkey : blob.ct.key = new.vaultKey) (h : Unchanged old c w)
    (hbase : base = version w.1.state.row) :
    Leaves (watched job env new) w (pushVault blob base) (fun w' o => Moved old new c w' o) := by
  have hok : (putServed w.1.state blob base).2 = .ok (base+1) := PUT_of_version hbase.symm
  have hrow : (putServed w.1.state blob base).1.row = some ⟨base+1,blob,Nat.succ_pos base⟩ :=
    (PUT_ok hok).2.2
  have hopens : opens new.vaultKey (putServed w.1.state blob base).1.row = true :=
    opens_sealed hrow hv hkey
  have hcloses : opens old.vaultKey (putServed w.1.state blob base).1.row = false := by
    apply not_opens_sealed hrow
    rw [hkey]
    exact hne.symm
  have hcredential : (putServed w.1.state blob base).1.credential = c := h.credential
  have hstopped : ∀ e : JsError, e.saysStranded = false → Moved old new c
      (⟨w.1.state,w.1.asked+1⟩,w.2 || false) (.error e : Except JsError Nat) :=
    fun e he => moved_error (h.again _) he
  simp only [pushVault,query,bind_eq,request_bind,leaves_ask,watch,Alone.exec,exec,losesChange,hkey,
    beq_self_eq_true,Bool.true_and]
  cases hnet : (env w.1.asked).network with
  | delivered =>
    simp only [Delivery.carry,Delivery.losesAnswer,hok]
    exact ⟨hopens,hcredential,(h.again 0).heard⟩
  | lostRequest =>
    exact hstopped _ rfl
  | lostResponse => simp [Delivery.carry,Delivery.losesAnswer,Moved,hcloses,networkError,
      JsError.saysStranded]
  | cutResponse => simp [Delivery.carry,Delivery.losesAnswer,Moved,hcloses,hok,networkError,
      JsError.saysStranded]
  | refused status noConflict =>
    simp only [Delivery.carry,Delivery.losesAnswer,noConflict,if_false]
    exact hstopped _ rfl

private def Preparing (old new : DerivedSecrets) (c : acc.auth.Credential) (w : Alone acc × Bool)
    (o : Except JsError Prepared) : Prop :=
  Moved old new c w o ∧ ∀ prepared, o = .ok prepared → prepared.version.isSome

private theorem ready_error {e : JsError} (h : Unchanged old c w) (he : e.saysStranded = false) :
    Preparing old new c w (.error e) := by
  refine ⟨moved_error h he,?_⟩
  intro prepared hok
  cases hok

private theorem leaves_reencrypt (hne : old.vaultKey ≠ new.vaultKey) {p : PulledVault}
    (document : VaultDocument) (h : Unchanged old c w) (hp : p.version = version w.1.state.row) :
    Leaves (watched job env new) w (reencrypt old new p document) (Preparing old new c) := by
  simp only [reencrypt,bind_eq]
  apply (leaves_rewrapKeys hne document.keys h).bind
  · rintro w1 res ⟨hkept,hrow,-⟩
    simp only [encryptVault,query,bind_eq,pure_eq,request_bind,ask_bind,done_bind,leaves_ask]
    have hdrawn : Unchanged old c (watched job env new w1 .randomIv).1 :=
      unchanged_step hne hkept (harmless_reads trivial)
    have hbase : p.version = version (watched job env new w1 .randomIv).1.1.state.row := by
      rw [hp,← hrow]
      rfl
    apply (leaves_pushVault hne rfl rfl hdrawn hbase).bind
    · intro w2 v hmoved
      refine ⟨hmoved,?_⟩
      intro prepared hok
      cases hok
      rfl
    · intro w2 e hmoved
      refine ⟨hmoved,?_⟩
      intro prepared hok
      cases hok
  · rintro w1 e ⟨-,-,res,he⟩
    cases he

private theorem leaves_syncAndReencrypt (hne : old.vaultKey ≠ new.vaultKey) (via : String)
    (h : Unchanged old c w) :
    Leaves (watched job env new) w (syncAndReencrypt old new via) (Preparing old new c) := by
  simp only [syncAndReencrypt,bind_eq]
  apply (leaves_syncVault hne h).bind
  · rintro w1 result ⟨hkept,-⟩
    by_cases hoff : result.status = .offline
    · simp only [hoff,if_true]
      exact ready_error hkept rfl
    · simp only [hoff,if_false,pure_eq]
      apply (leaves_pullVault hne hkept).bind
      · rintro w2 p ⟨⟨hkept',hpull⟩,-⟩
        obtain ⟨hversion,hblob⟩ := hpull p rfl
        obtain ⟨row,document,hrow,hopen⟩ := exists_of_opens hkept'.blob
        have hsome : p.blob = some row.blob := by rw [hblob,hrow]; rfl
        simp only [hsome,hopen]
        exact leaves_reencrypt hne document hkept' hversion
      · rintro w2 e ⟨⟨hkept',-⟩,hthrows⟩
        exact ready_error hkept' (hthrows e rfl)
  · rintro w1 e ⟨hkept,hthrows⟩
    exact ready_error hkept (hthrows e rfl)

private theorem leaves_prepare (hne : old.vaultKey ≠ new.vaultKey) (via : String)
    (h : Unchanged old c w) :
    Leaves (watched job env new) w (prepare old new via) (Preparing old new c) := by
  simp only [prepare,bind_eq]
  apply (leaves_pullVault hne h).bind
  · rintro w1 p ⟨⟨hkept,hpull⟩,-⟩
    obtain ⟨row,document,hrow,hopen⟩ := exists_of_opens hkept.blob
    have hsome : p.blob = some row.blob := by rw [(hpull p rfl).2,hrow]; rfl
    simp only [hsome,hopen]
    exact leaves_syncAndReencrypt hne via hkept
  · rintro w1 e ⟨⟨hkept,-⟩,hthrows⟩
    exact ready_error hkept (hthrows e rfl)

private theorem leaves_changeCredential (hne : old.authToken ≠ new.authToken)
    (hv : acc.auth.verify c old.authToken = true) {prepared : Prepared}
    (hversion : prepared.version.isSome) (hblob : opens new.vaultKey w.1.state.row = true)
    (hc : w.1.state.credential = c) (hheard : w.2 = false) :
    Leaves (watched job env new) w (changeCredential old new prepared) (fun w' o =>
      match o with
      | .ok _ => w'.2 = false
      | .error e => (∃ cause, e = .rekeyStranded cause) ∧
          (opens new.vaultKey w'.1.state.row = true ∧ w'.1.state.credential = c ↔ w'.2 = false)) := by
  subst hc
  have hsome := acc.auth.change_isSome w.1.state.credential old.authToken new.authToken
  rw [hv] at hsome
  obtain ⟨c',hc'⟩ := Option.isSome_iff_exists.mp hsome
  have hchanged : c' ≠ w.1.state.credential := by
    rintro rfl
    have hverify := acc.auth.verify_change hc' old.authToken
    rw [hv] at hverify
    exact hne (beq_iff_eq.mp hverify.symm)
  simp only [changeCredential,query,bind_eq,request_bind,leaves_ask,watch,Alone.exec,exec,
    losesChange,changeServed,hc',hversion,Bool.true_or,if_true]
  cases hnet : (env w.1.asked).network with
  | delivered => simp [Delivery.carry,Delivery.losesAnswer,hheard]
  | lostRequest => simp [Delivery.carry,Delivery.losesAnswer,hheard,hblob]
  | lostResponse => simp [Delivery.carry,Delivery.losesAnswer,hchanged]
  | cutResponse => simp [Delivery.carry,Delivery.losesAnswer,hchanged]
  | refused status noConflict => simp [Delivery.carry,Delivery.losesAnswer,hheard,hblob]

private theorem leaves_installs (keys : List SyncedKey) :
    Leaves (watched job env new) w (forEach (fun key => putStoredKey (fromSyncedKey key)) keys)
      (fun w' o => w'.2 = w.2 ∧ o = .ok ()) := by
  induction keys generalizing w with
  | nil => exact ⟨rfl,rfl⟩
  | cons key keys ih =>
    have hput : (watched job env new w (.idbPut .keys (fromSyncedKey key))).1.2 = w.2 :=
      Bool.or_false w.2
    simp only [forEach_cons,putStoredKey,query,request_bind,leaves_ask]
    apply ih.mono
    rintro w' o ⟨hflag,ho⟩
    exact ⟨hflag.trans hput,ho⟩

private theorem leaves_rekey (hkeys : old.vaultKey ≠ new.vaultKey)
    (htokens : old.authToken ≠ new.authToken)
    (hv : acc.auth.verify c old.authToken = true) (via : String) {s : State acc}
    (hs : s.credential = c) (h : Unchanged old c w) :
    Leaves (watched job env new) w (rekey old new via) (fun w' o =>
      Truthful old new s w'.1.state o ↔ w'.2 = false) := by
  simp only [rekey,bind_eq]
  apply (leaves_prepare hkeys via h).bind
  · rintro w1 prepared ⟨⟨hblob,hc,hheard⟩,hversion⟩
    apply (leaves_changeCredential htokens hv (hversion prepared rfl) hblob hc hheard).bind
    · intro w2 u hheard'
      apply (leaves_installs _).bind
      · rintro w3 u ⟨hflag,-⟩
        have hlast : (watched job env new w3 .deleteRecovery).1.2 = false := by
          show (w3.2 || false) = false
          rw [hflag,hheard']
          rfl
        exact iff_of_true trivial hlast
      · rintro w3 e ⟨-,he⟩
        cases he
    · rintro w2 e ⟨⟨cause,rfl⟩,htruth⟩
      rw [Truthful,hs]
      exact htruth
  · rintro w1 e ⟨⟨he,htruth⟩,-⟩
    rw [truthful_error he,hs]
    exact htruth

end Run

/-- With the right old password, a change says truthfully where it stopped exactly if neither the
answer to its push nor the answer to the change of the password is lost. -/
theorem truthful_iff {p q : String} (hne : p ≠ q) (job : Job) (env : Nat → Env) (s : State acc)
    (hblob : opens (acc.kdf.deriveSecrets acc.email p).vaultKey s.row = true)
    (hpassword : acc.auth.verify s.credential (acc.kdf.deriveSecrets acc.email p).authToken = true)
    (via : String) :
    let old := acc.kdf.deriveSecrets acc.email p
    let new := acc.kdf.deriveSecrets acc.email q
    let ended := (rekey old new via).run (Alone.exec job env) ⟨s,0⟩
    Truthful old new s ended.1.state ended.2 ↔
      Every (Alone.exec job env) (fun a r => losesChange new.vaultKey env a r = false) ⟨s,0⟩
        (rekey old new via) := by
  intro old new
  have hkeys : old.vaultKey ≠ new.vaultKey := fun he => hne (acc.kdf.vaultKey_injective he)
  have htokens : old.authToken ≠ new.authToken := fun he => hne (acc.kdf.authToken_injective he)
  have hstart : Unchanged old s.credential ((⟨s,0⟩ : Alone acc),false) := ⟨hblob,rfl,rfl⟩
  have hrun : Leaves (watched job env new) (⟨s,0⟩,false) (rekey old new via) (fun w o =>
      Truthful old new s w.1.state o ↔ w.2 = false) :=
    leaves_rekey hkeys htokens hpassword via rfl hstart
  exact post_iff_every (fun (a : Alone acc) o => Truthful old new s a.state o) hrun

def emptyVaultState : State demoAccount :=
  demoState (fun _ => .fresh) (some (demoRow (demoKey "a") emptyDoc))

def losingAnswer (n : Nat) : Nat → Env :=
  fun i => if i = n then { demoEnv with network := .lostResponse } else demoEnv

def changeFrom (env : Nat → Env) : Alone demoAccount × Except JsError RekeyResult :=
  (rekey (demoKdf.deriveSecrets "ada@example.org" "a") (demoKdf.deriveSecrets "ada@example.org" "b")
    "password").run (Alone.exec (.sync 0 (demoKey "a")) env) ⟨emptyVaultState,0⟩

/-- The network drops the request that would have changed the password. -/
theorem truthful_iff_dropped :
    let env : Nat → Env := fun i => if i = 15 then { demoEnv with network := .lostRequest } else demoEnv
    Truthful (demoKdf.deriveSecrets "ada@example.org" "a")
        (demoKdf.deriveSecrets "ada@example.org" "b") emptyVaultState (changeFrom env).1.state
        (changeFrom env).2 ↔
      Every (Alone.exec (.sync 0 (demoKey "a")) env)
        (fun a r => losesChange (demoKey "b") env a r = false)
        (⟨emptyVaultState,0⟩ : Alone demoAccount)
        (rekey (demoKdf.deriveSecrets "ada@example.org" "a")
          (demoKdf.deriveSecrets "ada@example.org" "b") "password") :=
  @truthful_iff demoAccount "a" "b" (by decide) _ _ emptyVaultState (by decide +kernel) (by decide)
    "password"

/-- The answer to the push is lost: an ordinary error, and the old password opens nothing. The
answer to the change is lost: the run is said to have stranded, and the password is the new one. -/
theorem lost_answers_mislead :
    ((changeFrom (losingAnswer 14)).2 = .error networkError ∧
      opens (demoKey "a") (changeFrom (losingAnswer 14)).1.state.row = false ∧
      ¬ Truthful (demoKdf.deriveSecrets "ada@example.org" "a")
        (demoKdf.deriveSecrets "ada@example.org" "b") emptyVaultState
        (changeFrom (losingAnswer 14)).1.state (changeFrom (losingAnswer 14)).2) ∧
    ((changeFrom (losingAnswer 15)).2 = .error (.rekeyStranded networkError) ∧
      demoAuth.verify (changeFrom (losingAnswer 15)).1.state.credential "a" = false ∧
      ¬ Truthful (demoKdf.deriveSecrets "ada@example.org" "a")
        (demoKdf.deriveSecrets "ada@example.org" "b") emptyVaultState
        (changeFrom (losingAnswer 15)).1.state (changeFrom (losingAnswer 15)).2) := by
  have hpush : (changeFrom (losingAnswer 14)).2 = .error networkError := by decide +kernel
  have hclosed : opens (demoKey "a") (changeFrom (losingAnswer 14)).1.state.row = false := by
    decide +kernel
  have hchange : (changeFrom (losingAnswer 15)).2 = .error (.rekeyStranded networkError) := by
    decide +kernel
  have hrefused : demoAuth.verify (changeFrom (losingAnswer 15)).1.state.credential "a" = false := by
    decide +kernel
  refine ⟨⟨hpush,hclosed,?_⟩,hchange,hrefused,?_⟩
  · rw [hpush]
    rintro ⟨hopen,-⟩
    exact absurd (hclosed.symm.trans hopen) Bool.false_ne_true
  · rw [hchange]
    rintro ⟨-,hsame⟩
    rw [hsame] at hrefused
    cases hrefused

end WeirdVault.Vault
