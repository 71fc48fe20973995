import WeirdVault.Vault.Behaviour
import WeirdVault.Vault.Demo

/-!
# No lost update at the server

Whatever jobs interleave, an accepted PUT writes a document that accounts for everything the one it
replaces said: the writer read that one, and neither a merge nor a re-key forgets anything.
-/

namespace WeirdVault.Vault

open WeirdVault.Framework

theorem replica_le_rewrapped {oldKey newKey : CryptoKey} {d : VaultDocument}
    {keys : List SyncedKey} (h : List.Forall₂ (Rewraps oldKey newKey) d.keys keys) :
    d.replica ≤ ({ d with keys := keys } : VaultDocument).replica := by
  have hsame : ∀ {key key'}, Rewraps oldKey newKey key key' →
      key'.id = key.id ∧ key'.createdAt = key.createdAt := by
    rintro key key' ⟨iv,rfl⟩
    unfold rewrapped
    split <;> simp
  refine ⟨?_,fun i t hdead => ⟨t,hdead,Nat.le_refl t⟩⟩
  rintro ⟨k,i⟩ t ⟨r,hr,hid,ht⟩
  apply Or.inl
  refine ⟨t,?_,Nat.le_refl t⟩
  cases k with
  | keys =>
    obtain ⟨key',hkey',hrewraps⟩ := exists_of_mem_right h.flip hr
    obtain ⟨hid',ht'⟩ := hsame hrewraps
    exact ⟨key',hkey',hid'.trans hid,ht'.trans ht⟩
  | hosts => exact ⟨r,hr,hid,ht⟩
  | hostKeys => exact ⟨r,hr,hid,ht⟩
  | snippets => exact ⟨r,hr,hid,ht⟩

variable {acc : Account}

/-- No thread has read the row at a version it has not reached yet, nor at the version it has now
with anything else in it. -/
private def PullsArePast (s : State acc) (log : Log) : Prop :=
  ∀ i job p, (⟨i,job,.getVault,.ok p⟩ : Entry Request.Ans Job) ∈ log →
    p.version ≤ version s.row ∧ (p.version = version s.row → p.blob = s.row.map VaultRow.blob)

private theorem pullsArePast_step {s : State acc} {log : Log} (h : PullsArePast s log) (i : Nat)
    (job : Job) (env : Env) (r : Request) :
    PullsArePast (exec job env s r).1 (⟨i,job,r,(exec job env s r).2⟩ :: log) := by
  intro j job' p hmem
  have hpast : p.version ≤ version s.row ∧
      (p.version = version s.row → p.blob = s.row.map VaultRow.blob) := by
    rcases List.mem_cons.mp hmem with he | hmem
    · injection he with _ _ hr hx
      subst hr
      obtain ⟨hversion,hblob⟩ := pulled_of_ok job env s (eq_of_heq hx).symm
      exact ⟨Nat.le_of_eq hversion,fun _ => hblob⟩
    · exact h j job' p hmem
  rcases row_exec_cases job env s r with hrow | ⟨blob,base,v,rfl,-,hv,hrow⟩
  · rwa [hrow]
  · obtain ⟨hbase,-,hrow'⟩ := PUT_ok hv
    have hnew : version (exec job env s (.putVault blob base)).1.row = base+1 := by
      rw [hrow,hrow']
      rfl
    constructor
    · omega
    · intro he
      omega

private theorem contents_of_pulled {row : Option VaultRow} {p : PulledVault} {key : CryptoKey}
    {remote : VaultDocument} (hblob : p.blob = row.map VaultRow.blob) (h : p.holds key remote) :
    contents row = remote := by
  unfold PulledVault.holds at h
  rw [hblob] at h
  cases row with
  | none => exact h.symm
  | some row =>
    obtain ⟨doc,hopen,rfl⟩ := h
    obtain ⟨-,-,rfl⟩ := open?_eq_some.mp hopen
    rfl

private theorem dominates_of_asked {s : State acc} {log : Log} (h : PullsArePast s log) {i : Nat}
    {job : Job} {blob : VaultEnvelope} {base : Nat}
    (hask : job.Asked acc (transcript log i) (.putVault blob base)) (hbase : version s.row = base) :
    (contents s.row).replica ≤ blob.ct.plain.filled.replica := by
  have hpull : ∀ {p : PulledVault}, (⟨.getVault,.ok p⟩ : (r : Request) × r.Ans) ∈ transcript log i →
      base = p.version → p.blob = s.row.map VaultRow.blob := by
    intro p hp he
    obtain ⟨job',hmem⟩ := mem_transcript.mp hp
    exact (h i job' p hmem).2 (by omega)
  have hcycle : ∀ key, Cycles key (transcript log i) (.putVault blob base) →
      (contents s.row).replica ≤ blob.ct.plain.filled.replica := by
    intro key hc
    cases hc with
    | reads h => cases h
    | applies h hr => cases hr
    | pushes h iv =>
      rw [contents_of_pulled (hpull h.pull.mem rfl) h.remote]
      exact remote_le_outgoing key _ _
  have hrekey : ∀ old new, Rekeys old new (transcript log i) (.putVault blob base) →
      (contents s.row).replica ≤ blob.ct.plain.filled.replica := by
    intro old new hr
    cases hr with
    | cycles h => exact hcycle _ h
    | @reencrypts p env doc keys hp hblob hdoc hkeys iv =>
      have hholds : p.holds old.vaultKey doc.filled := by
        simp only [PulledVault.holds,hblob]
        exact ⟨doc,hdoc,rfl⟩
      rw [contents_of_pulled (hpull hp rfl) hholds]
      exact replica_le_rewrapped hkeys
  cases job with
  | sync device key => exact hcycle key hask
  | changePassword device current new => exact hrekey _ _ hask
  | recover device old new => exact hrekey _ _ hask
  | restore device envelope key =>
    cases hask with
    | cycles h => exact hcycle key h
    | applies hdoc hours hr => cases hr
  | connect device opts =>
    cases hask with
    | reads h => cases h
    | remembers h => cases h with | reads h => cases h
  | connectAndInstallKey device opts keyId =>
    cases hask with
    | reads h => cases h
    | remembers h => cases h with | reads h => cases h
  | edit device op =>
    cases hask with
    | reads h => cases h
    | savesHost hop h => cases h with | reads h => cases h

/-- The thread is about to make a PUT that the server will accept. -/
def accepts (w : AccountWorld acc) (i : Nat) (env : Env) : Bool :=
  match w.asks? i with
  | some (.putVault blob base) =>
    env.network.reaches && match (PUT w.shared.row blob base).2 with
      | .ok _ => true
      | _ => false
  | _ => false

theorem accepts_eq_true {w : AccountWorld acc} {i : Nat} {env : Env} (h : accepts w i env = true) :
    ∃ job blob base next v, w.threads[i]? = some ⟨job,.ask (.putVault blob base) next⟩ ∧
      env.network.reaches = true ∧ (PUT w.shared.row blob base).2 = .ok v := by
  unfold accepts at h
  split at h
  · rename_i blob base hask
    obtain ⟨job,next,hi⟩ := World.asks?_eq_some.mp hask
    simp only [Bool.and_eq_true] at h
    obtain ⟨hreach,hok⟩ := h
    split at hok
    · rename_i v hv
      exact ⟨job,blob,base,next,v,hi,hreach,hv⟩
    · simp at hok
  · simp at h

/-- The new document has every deletion of the old one, at the same time or later, and of every
record of the old one a copy that is no older or a deletion at or after its stamp. -/
def Dominates (new old : VaultDocument) : Prop :=
  (∀ e ∈ old.tombstones.rows, ∃ at', (e.1,at') ∈ new.tombstones.rows ∧ e.2 ≤ at') ∧
    ∀ k, ∀ r ∈ old.records k,
      (∃ r' ∈ new.records k, k.id r' = k.id r ∧ k.stamp r ≤ k.stamp r') ∨
        ∃ at', (k.id r,at') ∈ new.tombstones.rows ∧ k.stamp r ≤ at'

theorem dominates_of_replica_le {new old : VaultDocument} (h : old.replica ≤ new.replica) :
    Dominates new old := by
  constructor
  · intro e he
    obtain ⟨at',hdead,hle⟩ := h.2 (.hosts,e.1) e.2 he
    exact ⟨at',hdead,hle⟩
  · intro k r hr
    rcases h.1 (k,k.id r) (k.stamp r) (live_of_mem hr) with ⟨t,⟨r',hr',hid,ht⟩,hle⟩ | hdead
    · exact Or.inl ⟨r',hr',hid,ht ▸ hle⟩
    · exact Or.inr hdead

/-- Every accepted PUT of every run raises the version by one and loses nothing. -/
theorem accepted_put_dominates (s : State acc) (as : List Step) (i : Nat) (env : Env)
    (h : accepts ((system acc).after (World.init s) as) i env = true) :
    let w := (system acc).after (World.init s) as
    let w' := (system acc).act w (.step i env)
    version w'.shared.row = version w.shared.row+1 ∧
      Dominates (contents w'.shared.row) (contents w.shared.row) := by
  intro w w'
  obtain ⟨job,blob,base,next,v,hi,hreach,hv⟩ := accepts_eq_true h
  have hpast : PullsArePast w.shared w.log :=
    invariant_after (fun _ _ => True) (fun _ _ _ => trivial) PullsArePast
      (fun w i job env r next _ _ _ _ hinv => pullsArePast_step hinv i job env r)
      (fun i job p hmem => by simp at hmem) (along_true _ _ as)
  obtain ⟨hbase,-,hrow⟩ := PUT_ok hv
  have hw' : w'.shared.row = some ⟨base+1,blob,Nat.succ_pos base⟩ := by
    rw [← hrow,shared_step hi,row_exec_put,hreach,if_pos rfl]
  have hle := dominates_of_asked hpast (asked_of_thread hi) hbase
  rw [hw']
  refine ⟨?_,dominates_of_replica_le hle⟩
  exact congrArg (· + 1) hbase.symm

/-- A device with a host of its own, about to push to a server that holds another. -/
def pushingRun : List Step := .start (.sync 0 (demoKey "a")) :: turns 0 10 12

def pushingState : State demoAccount :=
  demoState (fun _ => { LocalDb.fresh with hosts := (Table.empty _).put (demoHost 1 "web" 5) })
    (some (demoRow (demoKey "a") { emptyDoc with hosts := [demoHost 2 "db" 4] }))

theorem accepted_put_dominates_demo :
    accepts ((system demoAccount).after (World.init pushingState) pushingRun) 0 demoEnv = true ∧
    let w := (system demoAccount).after (World.init pushingState) pushingRun
    let w' := (system demoAccount).act w (.step 0 demoEnv)
    version w'.shared.row = version w.shared.row+1 ∧
      Dominates (contents w'.shared.row) (contents w.shared.row) :=
  have h : accepts ((system demoAccount).after (World.init pushingState) pushingRun) 0 demoEnv =
      true := by decide +kernel
  ⟨h,accepted_put_dominates pushingState pushingRun 0 demoEnv h⟩

end WeirdVault.Vault
