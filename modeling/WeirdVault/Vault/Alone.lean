import WeirdVault.Vault.WriteBack

/-!
# One job, undisturbed

A job runs alone: nothing else touches the account between two of its requests. What the cycle and
the parts of a re-key leave behind when they end without throwing.
-/

namespace WeirdVault.Vault

open WeirdVault.Framework Program

variable {acc : Account}

structure Alone (acc : Account) where
  state : State acc
  asked : Nat

def Alone.exec (job : Job) (env : Nat → Env) (a : Alone acc) (r : Request) : Alone acc × r.Ans :=
  (⟨(Vault.exec job (env a.asked) a.state r).1,a.asked+1⟩,
    (Vault.exec job (env a.asked) a.state r).2)

structure Server (acc : Account) where
  row : Option VaultRow
  credential : acc.auth.Credential
  recordings : List (Sealed Bytes)

def State.server (s : State acc) : Server acc := ⟨s.row,s.credential,s.recordings⟩

theorem server_exec_of_local (job : Job) (env : Env) (s : State acc) {r : Request}
    (h : r.isLocal) : (exec job env s r).1.server = s.server := by
  cases r <;> first | rfl | cases h

theorem apply_of_not_isWrite (db : LocalDb) {r : Request} (h : r.isWrite = false) :
    db.apply r = db := by
  cases r <;> first | rfl | cases h

def deviceBrowser (job : Job) (env : Nat → Env) : Browser (Alone acc) LocalDb (Server acc) where
  exec := Alone.exec job env
  page a := a.state.device job.device
  rest a := a.state.server
  db := id
  write := LocalDb.apply
  listed _ _ rows l := l.Perm rows
  page_exec a r h := by
    rw [Alone.exec,device_exec]
    split
    · rfl
    · exact apply_of_not_isWrite _ (by simp_all)
  rest_exec a r h := server_exec_of_local job (env a.asked) a.state h
  getAll a st := arrange_perm _ _
  vaultGet _ _ := rfl
  db_write _ _ := rfl

structure LocalDb.ReadAs (db : LocalDb) (ours : VaultDocument) : Prop where
  keys : ∃ l : List StoredKey, l.Perm db.keys.rows ∧
    ours.keys = (l.insertionSort (fun a b => a.createdAt ≤ b.createdAt)).filterMap toSyncedKey
  tombstones : ours.tombstones = db.tombstones.getD (Table.empty _)

def Pulls (row : Option VaultRow) (key : CryptoKey) (remote : VaultDocument) : Prop :=
  match row with
  | none => remote = emptyDoc
  | some row => ∃ doc, row.blob.open? key = some doc ∧ remote = doc.filled

structure Cycled (key : CryptoKey) (job : Job) (s s' : State acc) (ours remote : VaultDocument) :
    Prop where
  read : (s.device job.device).ReadAs ours
  pulled : Pulls s.row key remote
  row : ∃ row doc, s'.row = some row ∧ row.blob.open? key = some doc ∧
    sameRecords (outgoing key (mergeVault ours remote) remote) doc.filled = true
  recordings : s'.recordings = s.recordings

section

variable (job : Job) (env : Nat → Env) (a : Alone acc)

theorem state_getVault : (Alone.exec job env a .getVault).1.state = a.state := by
  simp only [Alone.exec,exec,carry_fst]
  split <;> rfl

theorem pull_cases {p : PulledVault} (h : (Alone.exec job env a .getVault).2 = .ok p) :
    p.version = version a.state.row ∧ p.blob = a.state.row.map VaultRow.blob :=
  pulled_of_ok job (env a.asked) a.state h

variable {job env a} {key : CryptoKey}

private theorem gives_decryptPulled {p : PulledVault}
    (hp : p.blob = a.state.row.map VaultRow.blob) :
    Gives (Alone.exec job env) a (decryptPulled key p)
      (fun a' remote => a' = a ∧ Pulls a.state.row key remote) := by
  rcases hrow : a.state.row with _ | row
  · have hblob : p.blob = none := by rw [hp,hrow]; rfl
    simp only [decryptPulled,hblob,pure_eq]
    exact gives_done ⟨rfl,rfl⟩
  · have hblob : p.blob = some row.blob := by rw [hp,hrow]; rfl
    rcases hopen : row.blob.open? key with _ | doc
    · simp only [decryptPulled,hblob,decryptVault,hopen,bind_eq]
      split <;> exact gives_fail
    · simp only [decryptPulled,hblob,decryptVault,hopen,bind_eq,pure_eq,done_bind]
      exact gives_done ⟨rfl,doc,hopen,rfl⟩

theorem gives_of_ends {α : Type} {job : Job} {env : Nat → Env} {a : Alone acc} {p : Prog α}
    {post : LocalDb → α → Prop}
    (h : (deviceBrowser job env).Ends (a.state.device job.device) a.state.server p post) :
    Gives (Alone.exec job env) a p
      (fun a' x => a'.state.server = a.state.server ∧ post (a'.state.device job.device) x) := by
  obtain ⟨a',x,hrun,hrest,hpost⟩ := h a rfl rfl
  intro t y hrun'
  obtain ⟨rfl,he⟩ := Prod.mk.inj (hrun.symm.trans hrun')
  obtain rfl := Except.ok.inj he
  exact ⟨hrest,hpost⟩

private theorem gives_mergeLocally {p : PulledVault} (hp : p.blob = a.state.row.map VaultRow.blob) :
    Gives (Alone.exec job env) a (mergeLocally key p) (fun a' x => ∃ ours,
      (a.state.device job.device).ReadAs ours ∧ Pulls a.state.row key x.2 ∧
      x.1 = mergeVault ours x.2 ∧ a'.state.server = a.state.server) := by
  simp only [mergeLocally,bind_eq]
  refine (gives_decryptPulled hp).bind ?_
  rintro a' remote ⟨rfl,hremote⟩
  have hends : (deviceBrowser job env).Ends (a'.state.device job.device) a'.state.server
      (readLocalVault.bind fun ours => (applyVaultLocally (mergeVault ours remote) ours).bind
        fun _ => done (mergeVault ours remote,remote))
      (fun _ x => ∃ ours, (a'.state.device job.device).ReadAs ours ∧
        x = (mergeVault ours remote,remote)) := by
    apply ends_readLocalVault.bind
    rintro m ours ⟨rfl,hosts,keys,pins,now,rfl,hhosts,hkeys,hpins⟩
    rw [applyVaultLocally_eq]
    apply (Browser.ends_writeBacks _).bind
    rintro m - -
    exact Browser.ends_done ⟨_,⟨⟨keys,hkeys,rfl⟩,rfl⟩,rfl⟩
  refine (gives_of_ends hends).mono ?_
  rintro a'' x ⟨hserver,ours,hours,rfl⟩
  exact ⟨ours,hours,hremote,rfl,hserver⟩

/-- A PUT at the version of the row is accepted if its answer arrives, and meets no conflict. -/
theorem put_at_version (job : Job) (env : Nat → Env) (a : Alone acc) (blob : VaultEnvelope)
    {base : Nat} (h : base = version a.state.row) :
    (Alone.exec job env a (.putVault blob base)).2 ≠ .failed 409 ∧
      ∀ v, (Alone.exec job env a (.putVault blob base)).2 = .ok v →
        (∃ row, (Alone.exec job env a (.putVault blob base)).1.state.row = some row ∧
          row.blob = blob) ∧
        (Alone.exec job env a (.putVault blob base)).1.state.recordings = a.state.recordings := by
  have hserved : (putServed a.state blob base).2 = .ok (base+1) := PUT_of_version h.symm
  constructor
  · intro hconflict
    have hroute : (putServed a.state blob base).2 = .failed 409 := carry_conflict (s := a.state) hconflict
    simp [hserved] at hroute
  · intro v hv
    have hcarry : exec job (env a.asked) a.state (.putVault blob base) = putServed a.state blob base :=
      carry_ok (s := a.state) hv
    have hrow := (PUT_ok hserved).2.2
    simp only [Alone.exec,hcarry]
    exact ⟨⟨_,hrow,rfl⟩,rfl⟩

private theorem gives_push {p : PulledVault} {merged remote : VaultDocument} {afterConflict : Bool}
    {onConflict : Prog SyncResult} (hp : p.version = version a.state.row) :
    Gives (Alone.exec job env) a (push key p merged remote afterConflict onConflict)
      (fun a' _ => (∃ row doc, a'.state.row = some row ∧ row.blob.open? key = some doc ∧
        sameRecords (outgoing key merged remote) doc.filled = true) ∧
        a'.state.recordings = a.state.recordings) := by
  simp only [push,encryptVault,query,bind_eq,pure_eq,request_bind,ask_bind,done_bind]
  apply gives_ask
  apply gives_ask
  generalize hblob : (⟨1,⟨key,(Alone.exec job env a .randomIv).2,
    (outgoing key merged remote).toWire⟩⟩ : VaultEnvelope) = blob
  have hput := put_at_version job env (Alone.exec job env a .randomIv).1 blob hp
  generalize Alone.exec job env (Alone.exec job env a .randomIv).1 (.putVault blob p.version) = served
    at hput
  obtain ⟨a1,reply⟩ := served
  cases reply with
  | unreachable => exact gives_fail
  | failed status =>
    by_cases h : status = 409
    · exact absurd (by rw [h]) hput.1
    · simp only [h,if_false]
      exact gives_fail
  | unreadable => exact gives_fail
  | ok v =>
    obtain ⟨⟨row,hrow,hsealed⟩,hrec⟩ := hput.2 v rfl
    simp only [setState,query,request_bind]
    apply gives_ask
    apply gives_ask
    apply gives_done
    refine ⟨⟨row,(outgoing key merged remote).toWire,hrow,?_,?_⟩,hrec⟩
    · rw [hsealed,← hblob]
      simp [VaultEnvelope.open?,Sealed.decrypt?]
    · simp [sameRecords]

private theorem gives_attempt (afterConflict : Bool) (onConflict : Prog SyncResult) :
    Gives (Alone.exec job env) a (attempt key afterConflict onConflict)
      (fun a' result => result.status ≠ .offline →
        ∃ ours remote, Cycled key job a.state a'.state ours remote) := by
  simp only [attempt,getState,query,bind_eq,pure_eq,request_bind,ask_bind,done_bind]
  apply gives_ask
  apply gives_ask
  have hstate := state_getVault job env (Alone.exec job env a (.vaultGet .syncState)).1
  have hpull := fun p => pull_cases job env (Alone.exec job env a (.vaultGet .syncState)).1 (p := p)
  have hsame : (Alone.exec job env a (.vaultGet .syncState)).1.state = a.state := rfl
  rw [hsame] at hstate hpull
  generalize Alone.exec job env (Alone.exec job env a (.vaultGet .syncState)).1 .getVault = served
    at hstate hpull
  obtain ⟨a1,reply⟩ := served
  cases reply with
  | unreachable =>
    apply gives_done
    intro hoff
    exact absurd rfl hoff
  | failed status => by_cases h : status = 401 <;> simp only [h,if_true,if_false] <;> exact gives_fail
  | unreadable => exact gives_fail
  | ok p =>
    obtain ⟨hversion,hblob⟩ := hpull p rfl
    rw [← hstate] at hversion hblob ⊢
    refine (gives_mergeLocally hblob).bind ?_
    rintro a2 ⟨merged,remote⟩ ⟨ours,hours,hremote,hmerged,hserver⟩
    obtain rfl : merged = mergeVault ours remote := hmerged
    have hrow : a2.state.row = a1.state.row := congrArg Server.row hserver
    have hrec : a2.state.recordings = a1.state.recordings := congrArg Server.recordings hserver
    by_cases hq : quiet key p (mergeVault ours remote) remote = true
    · simp only [hq,if_true,setState,query,request_bind]
      apply gives_ask
      apply gives_ask
      refine gives_done (fun _ => ⟨ours,remote,hours,hremote,?_,hrec⟩)
      obtain ⟨hsome,hsame⟩ := Bool.and_eq_true_iff.mp hq
      rcases hheld : a1.state.row with _ | row
      · rw [hblob,hheld] at hsome
        cases hsome
      · obtain ⟨doc,hopen,rfl⟩ : ∃ doc, row.blob.open? key = some doc ∧ remote = doc.filled := by
          simpa [Pulls,hheld] using hremote
        exact ⟨row,doc,hrow.trans hheld,hopen,hsame⟩
    · simp only [hq]
      have hbase : p.version = version a2.state.row := by rw [hversion,hrow]
      refine (gives_push hbase).mono ?_
      rintro a3 result ⟨hpushed,hrec'⟩ -
      exact ⟨ours,remote,hours,hremote,hpushed,hrec'.trans hrec⟩

theorem gives_syncVault : Gives (Alone.exec job env) a (syncVault key)
    (fun a' result => result.status ≠ .offline →
      ∃ ours remote, Cycled key job a.state a'.state ours remote) :=
  gives_attempt false _

end

end WeirdVault.Vault
