import WeirdVault.Framework.Monitor
import WeirdVault.Vault.Alone
import WeirdVault.Vault.NoLostUpdate

/-!
# What a password change keeps readable

A re-key runs undisturbed and succeeds. Afterwards the blob opens under the new key and accounts for
everything it said; of the portable keys, those can be read that the run has met under a key it
holds, and not those that wait on another device; the recordings are where they were, under the old
key.
-/

namespace WeirdVault.Vault

open WeirdVault.Framework Program

variable {acc : Account}

/-- What an undisturbed run that succeeds has read and left: the whole of it, or the rest of an
earlier one. -/
inductive Rekeyed (old new : DerivedSecrets) (job : Job) (s s' : State acc) : Prop
  | whole {ours remote doc : VaultDocument} {keys : List SyncedKey} {db : LocalDb}
      (read : (s.device job.device).ReadAs ours) (pulled : Pulls s.row old.vaultKey remote)
      (synced : sameRecords (outgoing old.vaultKey (mergeVault ours remote) remote) doc = true)
      (rewraps : List.Forall₂ (Rewraps old.vaultKey new.vaultKey) doc.keys keys)
      (held : Pulls s'.row new.vaultKey { doc with keys := keys })
      (installed : (s'.device job.device).keys = db.keys.putAll (keys.map fromSyncedKey))
      (recordings : s'.recordings = s.recordings)
  | rest {doc : VaultDocument} (unopened : ∀ remote, ¬ Pulls s.row old.vaultKey remote)
      (pulled : Pulls s.row new.vaultKey doc) (row : s'.row = s.row)
      (installed : (s'.device job.device).keys =
        (s.device job.device).keys.putAll (doc.keys.map fromSyncedKey))
      (recordings : s'.recordings = s.recordings)

section Run

variable {job : Job} {env : Nat → Env} {a : Alone acc} {old new : DerivedSecrets}

private theorem gives_pullVault : Gives (Alone.exec job env) a pullVault (fun a' p =>
    a'.state = a.state ∧ p.version = version a.state.row ∧
      p.blob = a.state.row.map VaultRow.blob) := by
  simp only [pullVault,query,bind_eq,request_bind]
  apply gives_ask
  have hstate := state_getVault job env a
  have hpull := fun p => pull_cases job env a (p := p)
  generalize Alone.exec job env a .getVault = served at hstate hpull
  obtain ⟨a1,reply⟩ := served
  cases reply with
  | unreachable => exact gives_fail
  | failed status => by_cases h : status = 401 <;> simp only [h,if_true,if_false] <;> exact gives_fail
  | unreadable => exact gives_fail
  | ok p =>
    obtain ⟨hversion,hblob⟩ := hpull p rfl
    exact gives_done ⟨hstate,hversion,hblob⟩

private theorem gives_rewrapKeys (oldKey newKey : CryptoKey) (keys : List SyncedKey) :
    Gives (Alone.exec job env) a (rewrapKeys oldKey newKey keys) (fun a' res =>
      a'.state = a.state ∧ List.Forall₂ (Rewraps oldKey newKey) keys res.keys) := by
  induction keys generalizing a with
  | nil => exact gives_done ⟨rfl,.nil⟩
  | cons key keys ih =>
    simp only [rewrapKeys,bind_eq]
    have hone : Gives (Alone.exec job env) a (rewrapKey key oldKey newKey) (fun a' next =>
        a'.state = a.state ∧ Rewraps oldKey newKey key (next.getD key)) := by
      rcases hd : key.wrapped.decrypt? oldKey with _ | pkcs8
      · simp only [rewrapKey,hd,pure_eq]
        exact gives_done ⟨rfl,0,by simp [rewrapped,hd]⟩
      · simp only [rewrapKey,hd,query,bind_eq,request_bind,pure_eq]
        apply gives_ask
        exact gives_done ⟨rfl,(Alone.exec job env a .randomIv).2,by simp [rewrapped,hd]⟩
    refine hone.bind ?_
    rintro a1 next ⟨hstate,hnext⟩
    refine (ih (a := a1)).bind ?_
    rintro a2 rest ⟨hstate',hrest⟩
    apply gives_done
    refine ⟨hstate'.trans hstate,?_⟩
    cases next with
    | none => exact .cons hnext hrest
    | some next => exact .cons hnext hrest

private theorem pulls_of_tryDecrypt {row : VaultRow} {key : CryptoKey} {doc : VaultDocument}
    (h : tryDecrypt key row.blob = some doc) : Pulls (some row) key doc := by
  obtain ⟨wire,hopen,hdoc⟩ := Option.map_eq_some_iff.mp h
  exact ⟨wire,hopen,hdoc.symm⟩

private theorem not_pulls_of_tryDecrypt {row : VaultRow} {key : CryptoKey}
    (h : tryDecrypt key row.blob = none) (doc : VaultDocument) : ¬ Pulls (some row) key doc := by
  rintro ⟨wire,hopen,-⟩
  simp [tryDecrypt,hopen] at h

theorem pulls_unique {row : Option VaultRow} {key : CryptoKey} {doc doc' : VaultDocument}
    (h : Pulls row key doc) (h' : Pulls row key doc') : doc = doc' := by
  cases row with
  | none => exact h.trans h'.symm
  | some row =>
    obtain ⟨wire,hopen,rfl⟩ := h
    obtain ⟨wire',hopen',rfl⟩ := h'
    rw [Option.some.inj (hopen.symm.trans hopen')]

private theorem gives_pushVault {blob : VaultEnvelope} {base : Nat}
    (h : base = version a.state.row) :
    Gives (Alone.exec job env) a (pushVault blob base) (fun a' _ =>
      (∃ row, a'.state.row = some row ∧ row.blob = blob) ∧
        a'.state.recordings = a.state.recordings) := by
  simp only [pushVault,query,bind_eq,request_bind]
  apply gives_ask
  have hput := (put_at_version job env a blob h).2
  generalize Alone.exec job env a (.putVault blob base) = served at hput
  obtain ⟨a1,reply⟩ := served
  cases reply with
  | unreachable => exact gives_fail
  | failed status => by_cases h : status = 409 <;> simp only [h,if_true,if_false] <;> exact gives_fail
  | unreadable => exact gives_fail
  | ok v => exact gives_done (hput v rfl)

private theorem gives_reencrypt {p : PulledVault} {doc : VaultDocument}
    (hp : p.version = version a.state.row) :
    Gives (Alone.exec job env) a (reencrypt old new p doc) (fun a' prepared => ∃ keys,
      prepared.document = some { doc with keys := keys } ∧
      List.Forall₂ (Rewraps old.vaultKey new.vaultKey) doc.keys keys ∧
      Pulls a'.state.row new.vaultKey { doc with keys := keys } ∧
      a'.state.recordings = a.state.recordings) := by
  simp only [reencrypt,bind_eq]
  refine (gives_rewrapKeys _ _ doc.keys).bind ?_
  rintro a1 res ⟨hstate,hkeys⟩
  simp only [encryptVault,query,bind_eq,pure_eq,request_bind,ask_bind,done_bind]
  apply gives_ask
  have hbase : p.version = version (Alone.exec job env a1 .randomIv).1.state.row := by
    have hrow : (Alone.exec job env a1 .randomIv).1.state = a1.state := rfl
    rw [hrow,hstate,hp]
  refine (gives_pushVault hbase).bind ?_
  rintro a2 v ⟨⟨row,hrow,hblob⟩,hrec⟩
  refine gives_done ⟨res.keys,rfl,hkeys,?_,hrec.trans (congrArg State.recordings hstate)⟩
  rw [hrow]
  refine ⟨({ doc with keys := res.keys } : VaultDocument).toWire,?_,rfl⟩
  simp [hblob,VaultEnvelope.open?,Sealed.decrypt?]

private inductive Before (old new : DerivedSecrets) (job : Job) (s s' : State acc)
    (document : VaultDocument) : Prop
  | whole {ours remote doc : VaultDocument} {keys : List SyncedKey}
      (read : (s.device job.device).ReadAs ours) (pulled : Pulls s.row old.vaultKey remote)
      (synced : sameRecords (outgoing old.vaultKey (mergeVault ours remote) remote) doc = true)
      (rewraps : List.Forall₂ (Rewraps old.vaultKey new.vaultKey) doc.keys keys)
      (made : document = { doc with keys := keys })
  | rest (unopened : ∀ remote, ¬ Pulls s.row old.vaultKey remote)
      (pulled : Pulls s.row new.vaultKey document) (same : s' = s)

private theorem gives_syncAndReencrypt (via : String) :
    Gives (Alone.exec job env) a (syncAndReencrypt old new via) (fun a' prepared => ∃ document,
      prepared.document = some document ∧ Before old new job a.state a'.state document ∧
      Pulls a'.state.row new.vaultKey document ∧ a'.state.recordings = a.state.recordings) := by
  simp only [syncAndReencrypt,bind_eq]
  refine gives_syncVault.bind ?_
  intro a1 result hcycled
  by_cases hoff : result.status = .offline
  · simp only [hoff,if_true]
    exact gives_fail
  · obtain ⟨ours,remote,hread,hpulled,⟨row,wire,hrow,hopen,hsame⟩,hrec⟩ := hcycled hoff
    simp only [hoff,if_false,pure_eq]
    refine gives_pullVault.bind ?_
    rintro a2 p ⟨hstate,hversion,hblob⟩
    have hsome : p.blob = some row.blob := by rw [hblob,hrow]; rfl
    have hdoc : tryDecrypt old.vaultKey row.blob = some wire.filled := by simp [tryDecrypt,hopen]
    simp only [hsome,hdoc]
    refine (gives_reencrypt (by rw [hversion,hstate])).mono ?_
    rintro a3 prepared ⟨keys,hprepared,hrewraps,hheld,hrec'⟩
    refine ⟨_,hprepared,.whole hread hpulled hsame hrewraps rfl,hheld,?_⟩
    rw [hrec',hstate,hrec]

private theorem gives_prepare (via : String) :
    Gives (Alone.exec job env) a (prepare old new via) (fun a' prepared => ∃ document,
      prepared.document = some document ∧ Before old new job a.state a'.state document ∧
      Pulls a'.state.row new.vaultKey document ∧ a'.state.recordings = a.state.recordings) := by
  simp only [prepare,bind_eq]
  refine gives_pullVault.bind ?_
  rintro a1 p ⟨hstate,hversion,hblob⟩
  rw [← hstate] at hblob ⊢
  rcases hrow : a1.state.row with _ | row
  · have hnone : p.blob = none := by rw [hblob,hrow]; rfl
    simp only [hnone]
    exact gives_syncAndReencrypt via
  · have hsome : p.blob = some row.blob := by rw [hblob,hrow]; rfl
    simp only [hsome]
    rcases hold : tryDecrypt old.vaultKey row.blob with _ | doc
    · rcases hnew : tryDecrypt new.vaultKey row.blob with _ | doc
      · exact gives_fail
      · have hpulls : Pulls a1.state.row new.vaultKey doc := hrow ▸ pulls_of_tryDecrypt hnew
        refine gives_done ⟨doc,rfl,.rest ?_ hpulls rfl,hpulls,rfl⟩
        rw [hrow]
        exact not_pulls_of_tryDecrypt hold
    · exact gives_syncAndReencrypt via

private theorem gives_changeCredential (prepared : Prepared) :
    Gives (Alone.exec job env) a (changeCredential old new prepared) (fun a' _ =>
      a'.state.device job.device = a.state.device job.device ∧ a'.state.row = a.state.row ∧
        a'.state.recordings = a.state.recordings) := by
  simp only [changeCredential,query,bind_eq,request_bind]
  apply gives_ask
  have hdevice : (Alone.exec job env a (.changePassword old.authToken new.authToken)).1.state.device
      job.device = a.state.device job.device := device_exec job (env a.asked) a.state _
  have hrow : (Alone.exec job env a (.changePassword old.authToken new.authToken)).1.state.row =
      a.state.row := row_exec job (env a.asked) a.state (by simp)
  have hrec : (Alone.exec job env a
      (.changePassword old.authToken new.authToken)).1.state.recordings = a.state.recordings := by
    simp only [Alone.exec,exec,carry_fst,changeServed]
    split
    · split <;> rfl
    · rfl
  generalize Alone.exec job env a (.changePassword old.authToken new.authToken) = served
    at hdevice hrow hrec
  obtain ⟨a1,reply⟩ := served
  cases reply with
  | ok u => exact gives_done ⟨hdevice,hrow,hrec⟩
  | _ => exact gives_fail

private theorem ends_installs {σ μ τ : Type} {B : Browser σ μ τ} {m : μ} {t : τ}
    (keys : List SyncedKey) :
    B.Ends m t (forEach (fun key => putStoredKey (fromSyncedKey key)) keys) (fun m' _ =>
      (B.db m').keys = (B.db m).keys.putAll (keys.map fromSyncedKey)) := by
  induction keys generalizing m with
  | nil => exact Browser.ends_done rfl
  | cons key keys ih =>
    apply Browser.ends_write rfl
    intro x
    refine ih.mono ?_
    intro m' u hkeys
    rw [hkeys,B.db_write]
    rfl

theorem gives_rekey (via : String) :
    Gives (Alone.exec job env) a (rekey old new via)
      (fun a' _ => Rekeyed old new job a.state a'.state) := by
  simp only [rekey,bind_eq]
  refine (gives_prepare via).bind ?_
  rintro a1 prepared ⟨document,hdocument,hbefore,hheld,hrec⟩
  refine (gives_changeCredential prepared).bind ?_
  rintro a2 u ⟨hdevice,hrow,hrec'⟩
  simp only [hdocument,Option.map_some,Option.getD_some]
  refine (gives_of_ends (ends_installs document.keys)).bind ?_
  rintro a3 u ⟨hserver,hkeys⟩
  apply gives_ask
  apply gives_done
  have hclear : (Alone.exec job env a3 .deleteRecovery).1.state = a3.state := by
    simp only [Alone.exec,exec,carry_fst]
    split <;> rfl
  rw [hclear]
  have hrow' : a3.state.row = a1.state.row := (congrArg Server.row hserver).trans hrow
  have hrec'' : a3.state.recordings = a.state.recordings := by
    rw [show a3.state.recordings = a2.state.recordings from congrArg Server.recordings hserver,hrec',
      hrec]
  cases hbefore with
  | whole hread hpulled hsynced hrewraps hmade =>
    subst hmade
    exact .whole hread hpulled hsynced hrewraps (hrow' ▸ hheld) hkeys hrec''
  | rest hunopened hpulled hsame =>
    refine .rest hunopened hpulled (hrow'.trans (congrArg State.row hsame)) ?_ hrec''
    have hdevice' : a2.state.device job.device = a.state.device job.device := by
      rw [hdevice,hsame]
    rw [← hdevice']
    exact hkeys

end Run

/-- A copy of a portable key that device `d` can see: in its store, or in the blob if that opens. -/
def HoldsKey (s : State acc) (d : DeviceId) (key : CryptoKey) (c : SyncedKey) : Prop :=
  (∃ rec ∈ (s.device d).keys.rows, toSyncedKey rec = some c) ∨
    ∃ doc, Pulls s.row key doc ∧ c ∈ doc.keys

/-- The key has been deleted, at or after the creation of this copy. -/
def DeletedIn (doc : VaultDocument) (c : SyncedKey) : Prop :=
  ∃ at', (c.id,at') ∈ doc.tombstones.rows ∧ c.createdAt ≤ at'

/-- Whatever opened under the old key opens under the new one: the records of the blob, the portable
keys of every device and the recordings. What has been deleted need not be there any more. -/
structure KeepsReadable (old new : CryptoKey) (s s' : State acc) : Prop where
  records : ∀ doc, Pulls s.row old doc → ∃ doc', Pulls s'.row new doc' ∧ Dominates doc' doc
  keys : ∀ d c pkcs8, HoldsKey s d old c → c.wrapped.decrypt? old = some pkcs8 →
    (∃ c', HoldsKey s' d new c' ∧ c'.id = c.id ∧ c'.wrapped.decrypt? new = some pkcs8) ∨
      ∃ doc', Pulls s'.row new doc' ∧ DeletedIn doc' c
  recordings : ∀ (n : Nat) (rec : Sealed Bytes) (bytes : Bytes), s.recordings[n]? = some rec →
    rec.decrypt? old = some bytes →
    ∃ rec' : Sealed Bytes, s'.recordings[n]? = some rec' ∧ rec'.decrypt? new = some bytes

/-- The device's records, read in the order in which they are stored. -/
def LocalDb.vault (db : LocalDb) : VaultDocument :=
  db.document db.hosts.rows db.keys.rows db.hostkeys.rows 0

/-- The copy that the document has of the key opens to the same bytes, or the key is deleted. -/
def SurvivesIn (doc : VaultDocument) (opens : SyncedKey → Prop) (c : SyncedKey) : Prop :=
  (∃ w ∈ doc.keys, w.id = c.id ∧ opens w) ∨ DeletedIn doc c

/-- The copy goes into the blob and opens to the bytes under either key. -/
def Carries (old new : CryptoKey) (remote : VaultDocument) (pkcs8 : Bytes) (w : SyncedKey) : Prop :=
  publishes old remote w = true ∧
    (w.wrapped.decrypt? old = some pkcs8 ∨ w.wrapped.decrypt? new = some pkcs8)

/-- Nothing stands in the way of a change on device `d`: there are no recordings under the old key;
where the blob opens under it, the merge of `d` and the blob carries every key that any device has
under the old key; where it does not, the blob has every such key under the new one. -/
structure NothingLeft (d : DeviceId) (old new : CryptoKey) (s : State acc) : Prop where
  recordings : ∀ rec ∈ s.recordings, rec.decrypt? old = none
  whole : ∀ remote, Pulls s.row old remote → ∀ d' c pkcs8, HoldsKey s d' old c →
    c.wrapped.decrypt? old = some pkcs8 →
    SurvivesIn (mergeVault (s.device d).vault remote) (Carries old new remote pkcs8) c
  rest : (∀ remote, ¬ Pulls s.row old remote) → ∀ doc, Pulls s.row new doc → ∀ d' c pkcs8,
    HoldsKey s d' old c → c.wrapped.decrypt? old = some pkcs8 →
    SurvivesIn doc (fun w => w.wrapped.decrypt? new = some pkcs8) c

private theorem keys_perm {db : LocalDb} {ours : VaultDocument} (h : db.ReadAs ours) :
    ours.keys.Perm db.vault.keys := by
  obtain ⟨l,hl,hkeys⟩ := h.keys
  rw [hkeys]
  have hsorted := (List.perm_insertionSort (fun a b : StoredKey => a.createdAt ≤ b.createdAt) l)
  have hsorted' := (List.perm_insertionSort (fun a b : StoredKey => a.createdAt ≤ b.createdAt)
    db.keys.rows)
  exact (hsorted.trans (hl.trans hsorted'.symm)).filterMap toSyncedKey

private theorem id_of_toSyncedKey {rec : StoredKey} {c : SyncedKey} (h : toSyncedKey rec = some c) :
    rec.id = c.id := by
  unfold toSyncedKey at h
  split at h
  · rw [← Option.some.inj h]
  · cases h

private theorem mem_vault_keys {db : LocalDb} {c : SyncedKey} :
    c ∈ db.vault.keys ↔ ∃ rec ∈ db.keys.rows, toSyncedKey rec = some c := by
  simp only [LocalDb.vault,LocalDb.document,List.mem_filterMap,List.mem_insertionSort]

private theorem vault_keys_unique {db : LocalDb} {c c' : SyncedKey} (h : c ∈ db.vault.keys)
    (h' : c' ∈ db.vault.keys) (hid : c.id = c'.id) : c = c' := by
  obtain ⟨rec,hrec,hc⟩ := mem_vault_keys.mp h
  obtain ⟨rec',hrec',hc'⟩ := mem_vault_keys.mp h'
  have hget := Table.get?_of_mem hrec
  have hget' := Table.get?_of_mem hrec'
  have hsame : rec.id = rec'.id := by
    rw [id_of_toSyncedKey hc,id_of_toSyncedKey hc',hid]
  rw [hsame] at hget
  obtain rfl := Option.some.inj (hget.symm.trans hget')
  exact Option.some.inj (hc.symm.trans hc')

private theorem same_key_of_id {db : LocalDb} {old new : CryptoKey} {c c' : SyncedKey}
    {bytes bytes' : Bytes} (h' : c' ∈ db.vault.keys) (h : c ∈ db.vault.keys) (hid : c'.id = c.id)
    (hnew : c'.wrapped.decrypt? new = some bytes') (hold : c.wrapped.decrypt? old = some bytes) :
    old = new := by
  obtain rfl := vault_keys_unique h' h hid
  exact (decrypt?_eq_some.mp hold).1.symm.trans (decrypt?_eq_some.mp hnew).1

private theorem vault_keys_nodup (db : LocalDb) : (db.vault.keys.map SyncedKey.id).Nodup := by
  have hsorted := List.perm_insertionSort (fun a b : StoredKey => a.createdAt ≤ b.createdAt)
    db.keys.rows
  have hrows : ((db.keys.rows.insertionSort (fun a b => a.createdAt ≤ b.createdAt)).map
      StoredKey.id).Nodup := (hsorted.map StoredKey.id).nodup_iff.mpr db.keys.nodup
  rw [List.Nodup,List.pairwise_map] at hrows ⊢
  rw [LocalDb.vault,LocalDb.document,List.pairwise_filterMap]
  apply hrows.imp
  intro rec rec' hne c hc c' hc' hid
  rw [id_of_toSyncedKey hc,id_of_toSyncedKey hc'] at hne
  exact hne hid

private theorem mem_merged_keys {db : LocalDb} {ours remote : VaultDocument} (h : db.ReadAs ours)
    (w : SyncedKey) : w ∈ (mergeVault ours remote).keys ↔ w ∈ (mergeVault db.vault remote).keys := by
  have hn : (ours.keys.map SyncedKey.id).Nodup :=
    ((keys_perm h).map SyncedKey.id).nodup_iff.mpr (vault_keys_nodup db)
  have htombstones : ours.tombstones = db.vault.tombstones := h.tombstones
  simp only [mergeVault,← htombstones]
  exact mem_mergeById_perm hn (keys_perm h) w

private theorem id_rewrapped (oldKey newKey : CryptoKey) (iv : Nat) (key : SyncedKey) :
    (rewrapped oldKey newKey iv key).id = key.id := by
  unfold rewrapped
  split <;> rfl

private theorem opens_rewrapped {oldKey newKey : CryptoKey} (hne : oldKey ≠ newKey) (iv : Nat)
    (key : SyncedKey) (bytes : Bytes) :
    (rewrapped oldKey newKey iv key).wrapped.decrypt? newKey = some bytes ↔
      key.wrapped.decrypt? oldKey = some bytes ∨ key.wrapped.decrypt? newKey = some bytes := by
  rcases hd : key.wrapped.decrypt? oldKey with _ | pkcs8
  · simp [rewrapped,hd]
  · have hold : key.wrapped.key = oldKey := (decrypt?_eq_some.mp hd).1
    have hnew : key.wrapped.decrypt? newKey = none := by
      simp [Sealed.decrypt?,hold,hne]
    simp only [rewrapped,hd,hnew,decrypt?_eq_some,true_and,reduceCtorEq,or_false,Option.some.injEq]

section Whole

variable {s s' : State acc} {d : DeviceId} {old new : CryptoKey} {ours remote doc : VaultDocument}
  {keys : List SyncedKey} {db : LocalDb}

private theorem winner_published (hread : (s.device d).ReadAs ours)
    (hpulled : Pulls s.row old remote) {c w : SyncedKey} {pkcs8 : Bytes}
    (hc : HoldsKey s d old c) (hopen : c.wrapped.decrypt? old = some pkcs8)
    (hw : w ∈ (mergeVault ours remote).keys) (hid : w.id = c.id) :
    w ∈ (outgoing old (mergeVault ours remote) remote).keys := by
  refine List.mem_filter.mpr ⟨hw,?_⟩
  have hremote : ∀ k ∈ remote.keys, k.id = w.id → publishes old remote w = true := by
    intro k hk hkid
    simp only [publishes,Bool.or_eq_true,List.any_eq_true,beq_iff_eq]
    exact Or.inl ⟨k,hk,hkid⟩
  rcases hc with hlocal | ⟨doc,hdoc,hc⟩
  · rcases (mem_mergeById hw).1 with hw | hw
    · have hw' : w ∈ (s.device d).vault.keys := (keys_perm hread).mem_iff.mp hw
      obtain rfl := vault_keys_unique hw' (mem_vault_keys.mpr hlocal) hid
      simp [publishes,opensWith,hopen]
    · exact hremote w hw rfl
  · obtain rfl := pulls_unique hdoc hpulled
    exact hremote c hc hid.symm

private theorem survives_of_made (hne : old ≠ new) (hread : (s.device d).ReadAs ours)
    (hsynced : sameRecords (outgoing old (mergeVault ours remote) remote) doc = true)
    (hrewraps : List.Forall₂ (Rewraps old new) doc.keys keys) {c c' : SyncedKey} {pkcs8 : Bytes}
    (hc' : c' ∈ keys) (hid : c'.id = c.id) (hopen : c'.wrapped.decrypt? new = some pkcs8) :
    SurvivesIn (mergeVault (s.device d).vault remote) (Carries old new remote pkcs8) c := by
  have hkeys : (outgoing old (mergeVault ours remote) remote).keys = doc.keys :=
    (sameRecords_iff.mp hsynced).1 .keys
  obtain ⟨w,hw,iv,rfl⟩ := exists_of_mem_right hrewraps hc'
  rw [← hkeys] at hw
  obtain ⟨hmerged,hpublished⟩ := List.mem_filter.mp hw
  rw [id_rewrapped] at hid
  have hopens := (opens_rewrapped hne iv w pkcs8).mp hopen
  exact Or.inl ⟨w,(mem_merged_keys hread w).mp hmerged,hid,hpublished,hopens⟩

private theorem deleted_iff (hread : (s.device d).ReadAs ours)
    (hsynced : sameRecords (outgoing old (mergeVault ours remote) remote) doc = true)
    (hheld : Pulls s'.row new { doc with keys := keys }) (c : SyncedKey) :
    DeletedIn (mergeVault (s.device d).vault remote) c ↔
      ∃ doc', Pulls s'.row new doc' ∧ DeletedIn doc' c := by
  have hsame : (mergeVault (s.device d).vault remote).tombstones = doc.tombstones := by
    rw [← (sameRecords_iff.mp hsynced).2,tombstones_outgoing,tombstones_mergeVault,
      tombstones_mergeVault,hread.tombstones]
    rfl
  constructor
  · rintro ⟨at',hat,hle⟩
    exact ⟨_,hheld,at',hsame ▸ hat,hle⟩
  · rintro ⟨doc',hdoc',at',hat,hle⟩
    obtain rfl := pulls_unique hdoc' hheld
    exact ⟨at',hsame ▸ hat,hle⟩

private theorem kept_of_survives (hne : old ≠ new) (hread : (s.device d).ReadAs ours)
    (hsynced : sameRecords (outgoing old (mergeVault ours remote) remote) doc = true)
    (hrewraps : List.Forall₂ (Rewraps old new) doc.keys keys)
    (hheld : Pulls s'.row new { doc with keys := keys }) (d' : DeviceId) {c : SyncedKey}
    {pkcs8 : Bytes}
    (h : SurvivesIn (mergeVault (s.device d).vault remote) (Carries old new remote pkcs8) c) :
    (∃ c', HoldsKey s' d' new c' ∧ c'.id = c.id ∧ c'.wrapped.decrypt? new = some pkcs8) ∨
      ∃ doc', Pulls s'.row new doc' ∧ DeletedIn doc' c := by
  rcases h with ⟨w,hw,hid,hpublished,hopens⟩ | hdeleted
  · have hdoc : w ∈ doc.keys := by
      have hkeys : (outgoing old (mergeVault ours remote) remote).keys = doc.keys :=
        (sameRecords_iff.mp hsynced).1 .keys
      rw [← hkeys]
      exact List.mem_filter.mpr ⟨(mem_merged_keys hread w).mpr hw,hpublished⟩
    obtain ⟨c',hc',iv,rfl⟩ := exists_of_mem_right hrewraps.flip hdoc
    refine Or.inl ⟨_,Or.inr ⟨_,hheld,hc'⟩,(id_rewrapped old new iv w).trans hid,?_⟩
    exact (opens_rewrapped hne iv w pkcs8).mpr hopens
  · exact Or.inr ((deleted_iff hread hsynced hheld c).mp hdeleted)

private theorem survives_of_kept (hne : old ≠ new) (hread : (s.device d).ReadAs ours)
    (hpulled : Pulls s.row old remote)
    (hsynced : sameRecords (outgoing old (mergeVault ours remote) remote) doc = true)
    (hrewraps : List.Forall₂ (Rewraps old new) doc.keys keys)
    (hheld : Pulls s'.row new { doc with keys := keys })
    (hinstalled : (s'.device d).keys = db.keys.putAll (keys.map fromSyncedKey))
    {c : SyncedKey} {pkcs8 : Bytes} (hc : HoldsKey s d old c)
    (hopen : c.wrapped.decrypt? old = some pkcs8)
    (h : (∃ c', HoldsKey s' d new c' ∧ c'.id = c.id ∧ c'.wrapped.decrypt? new = some pkcs8) ∨
      ∃ doc', Pulls s'.row new doc' ∧ DeletedIn doc' c) :
    SurvivesIn (mergeVault (s.device d).vault remote) (Carries old new remote pkcs8) c := by
  obtain ⟨hrecords,htombstones⟩ := sameRecords_iff.mp hsynced
  have hkeys : (outgoing old (mergeVault ours remote) remote).keys = doc.keys := hrecords .keys
  have hdead : DeletedIn (mergeVault (s.device d).vault remote) c ↔
      ∃ doc', Pulls s'.row new doc' ∧ DeletedIn doc' c := deleted_iff hread hsynced hheld c
  rcases h with ⟨c',hc',hid,hopen'⟩ | hdeleted
  · rcases hc' with ⟨rec,hrec,hto⟩ | ⟨doc',hdoc',hc'⟩
    · rw [hinstalled] at hrec
      rcases Table.mem_rows_putAll hrec with hput | ⟨-,hnot⟩
      · obtain ⟨k,hk,rfl⟩ := List.mem_map.mp hput
        obtain rfl := Option.some.inj hto
        exact survives_of_made hne hread hsynced hrewraps hk hid hopen'
      · -- the store has nothing of the run under this id, so the merge has nothing either
        have hmem : c ∈ ours.keys ∨ c ∈ remote.keys := by
          rcases hc with hlocal | ⟨doc',hdoc',hc⟩
          · exact Or.inl ((keys_perm hread).mem_iff.mpr (mem_vault_keys.mpr hlocal))
          · obtain rfl := pulls_unique hdoc' hpulled
            exact Or.inr hc
        let dead := mergeTombstones ours.tombstones remote.tombstones
        have haccount : (∃ w ∈ mergeById SyncedKey.id SyncedKey.createdAt ours.keys remote.keys dead,
            w.id = c.id ∧ c.createdAt ≤ w.createdAt) ∨
            (c.id,deletedAt dead c.id) ∈ dead.rows ∧ c.createdAt ≤ deletedAt dead c.id :=
          mergeById_accounts hmem
        rcases haccount with ⟨w,hw,hwid,-⟩ | ⟨hbury,hle⟩
        · have hdoc := winner_published hread hpulled hc hopen hw hwid
          rw [hkeys] at hdoc
          obtain ⟨k,hk,iv,rfl⟩ := exists_of_mem_right hrewraps.flip hdoc
          refine absurd ?_ (hnot _ (List.mem_map_of_mem hk))
          rw [id_of_toSyncedKey hto,hid,← hwid]
          exact id_rewrapped old new iv w
        · refine Or.inr (hdead.mpr ⟨_,hheld,_,?_,hle⟩)
          rw [← htombstones]
          exact hbury
    · obtain rfl := pulls_unique hdoc' hheld
      exact survives_of_made hne hread hsynced hrewraps hc' hid hopen'
  · exact Or.inr (hdead.mpr hdeleted)

private theorem survives_of_kept_elsewhere (hne : old ≠ new) (hread : (s.device d).ReadAs ours)
    (hsynced : sameRecords (outgoing old (mergeVault ours remote) remote) doc = true)
    (hrewraps : List.Forall₂ (Rewraps old new) doc.keys keys)
    (hheld : Pulls s'.row new { doc with keys := keys }) {d' : DeviceId}
    (hsame : s'.device d' = s.device d') {c : SyncedKey} {pkcs8 : Bytes}
    (hc : c ∈ (s.device d').vault.keys) (hopen : c.wrapped.decrypt? old = some pkcs8)
    (h : (∃ c', HoldsKey s' d' new c' ∧ c'.id = c.id ∧ c'.wrapped.decrypt? new = some pkcs8) ∨
      ∃ doc', Pulls s'.row new doc' ∧ DeletedIn doc' c) :
    SurvivesIn (mergeVault (s.device d).vault remote) (Carries old new remote pkcs8) c := by
  rcases h with ⟨c',hc',hid,hopen'⟩ | hdeleted
  · rcases hc' with hlocal | ⟨doc',hdoc',hc'⟩
    · rw [hsame] at hlocal
      exact absurd (same_key_of_id (mem_vault_keys.mpr hlocal) hc hid hopen' hopen) hne
    · obtain rfl := pulls_unique hdoc' hheld
      exact survives_of_made hne hread hsynced hrewraps hc' hid hopen'
  · exact Or.inr ((deleted_iff hread hsynced hheld c).mpr hdeleted)

end Whole

section Rest

variable {s s' : State acc} {d : DeviceId} {old new : CryptoKey} {doc : VaultDocument}

private theorem key_kept_rest (hne : old ≠ new) (hunopened : ∀ remote, ¬ Pulls s.row old remote)
    (hpulled : Pulls s.row new doc) (hrow : s'.row = s.row)
    (hrows : ∀ rec ∈ (s'.device d).keys.rows,
      rec ∈ doc.keys.map fromSyncedKey ∨ rec ∈ (s.device d).keys.rows)
    {c : SyncedKey} {pkcs8 : Bytes} (hc : HoldsKey s d old c)
    (hopen : c.wrapped.decrypt? old = some pkcs8) :
    ((∃ c', HoldsKey s' d new c' ∧ c'.id = c.id ∧ c'.wrapped.decrypt? new = some pkcs8) ∨
      ∃ doc', Pulls s'.row new doc' ∧ DeletedIn doc' c) ↔
    SurvivesIn doc (fun w => w.wrapped.decrypt? new = some pkcs8) c := by
  have hlocal : c ∈ (s.device d).vault.keys := by
    rcases hc with hlocal | ⟨doc',hdoc',-⟩
    · exact mem_vault_keys.mpr hlocal
    · exact absurd hdoc' (hunopened doc')
  rw [hrow]
  constructor
  · rintro (⟨c',hc',hid,hopen'⟩ | ⟨doc',hdoc',hdeleted⟩)
    · rcases hc' with ⟨rec,hrec,hto⟩ | ⟨doc',hdoc',hc'⟩
      · rcases hrows rec hrec with hput | hrec
        · obtain ⟨k,hk,rfl⟩ := List.mem_map.mp hput
          obtain rfl := Option.some.inj hto
          exact Or.inl ⟨k,hk,hid,hopen'⟩
        · have hmem := mem_vault_keys.mpr ⟨rec,hrec,hto⟩
          exact absurd (same_key_of_id hmem hlocal hid hopen' hopen) hne
      · rw [hrow] at hdoc'
        obtain rfl := pulls_unique hdoc' hpulled
        exact Or.inl ⟨c',hc',hid,hopen'⟩
    · obtain rfl := pulls_unique hdoc' hpulled
      exact Or.inr hdeleted
  · rintro (⟨w,hw,hid,hopens⟩ | hdeleted)
    · exact Or.inl ⟨w,Or.inr ⟨doc,hrow ▸ hpulled,hw⟩,hid,hopens⟩
    · exact Or.inr ⟨doc,hpulled,hdeleted⟩

private theorem rows_rest {job : Job}
    (hothers : ∀ d, d ≠ job.device → s'.device d = s.device d)
    (hinstalled : (s'.device job.device).keys =
      (s.device job.device).keys.putAll (doc.keys.map fromSyncedKey)) :
    ∀ rec ∈ (s'.device d).keys.rows,
      rec ∈ doc.keys.map fromSyncedKey ∨ rec ∈ (s.device d).keys.rows := by
  intro rec hrec
  by_cases hd : d = job.device
  · subst hd
    rw [hinstalled] at hrec
    rcases Table.mem_rows_putAll hrec with hput | ⟨hrec,-⟩
    · exact Or.inl hput
    · exact Or.inr hrec
  · rw [hothers d hd] at hrec
    exact Or.inr hrec

end Rest

private theorem records_kept {old new : DerivedSecrets} {job : Job} {s s' : State acc}
    (h : Rekeyed old new job s s') (doc : VaultDocument) (hdoc : Pulls s.row old.vaultKey doc) :
    ∃ doc', Pulls s'.row new.vaultKey doc' ∧ Dominates doc' doc := by
  cases h with
  | @whole ours remote synced keys db hread hpulled hsynced hrewraps hheld hinstalled hrec =>
    obtain rfl := pulls_unique hdoc hpulled
    refine ⟨_,hheld,dominates_of_replica_le ?_⟩
    have hpushed := remote_le_outgoing old.vaultKey ours doc
    rw [replica_eq_of_sameRecords hsynced] at hpushed
    exact le_trans hpushed (replica_le_rewrapped hrewraps)
  | rest hunopened => exact absurd hdoc (hunopened doc)

private theorem recordings_kept_iff {old new : CryptoKey} {s s' : State acc}
    (hne : old ≠ new) (h : s'.recordings = s.recordings) :
    (∀ (n : Nat) (rec : Sealed Bytes) (bytes : Bytes), s.recordings[n]? = some rec →
      rec.decrypt? old = some bytes →
      ∃ rec' : Sealed Bytes, s'.recordings[n]? = some rec' ∧ rec'.decrypt? new = some bytes) ↔
    ∀ rec ∈ s.recordings, rec.decrypt? old = none := by
  rw [h]
  constructor
  · intro hkept rec hrec
    rcases hd : rec.decrypt? old with _ | bytes
    · rfl
    · obtain ⟨n,hn⟩ := List.getElem?_of_mem hrec
      obtain ⟨rec',hrec',hopen⟩ := hkept n rec bytes hn hd
      obtain rfl := Option.some.inj (hn.symm.trans hrec')
      have hsame := (decrypt?_eq_some.mp hd).1.symm.trans (decrypt?_eq_some.mp hopen).1
      exact absurd hsame hne
  · intro hnone n rec bytes hn hopen
    rw [hnone rec (List.mem_of_getElem? hn)] at hopen
    cases hopen

private theorem nothingLeft_of_keeps {old new : DerivedSecrets} {job : Job} {s s' : State acc}
    (hne : old.vaultKey ≠ new.vaultKey) (h : Rekeyed old new job s s')
    (hothers : ∀ d, d ≠ job.device → s'.device d = s.device d)
    (hkeeps : KeepsReadable old.vaultKey new.vaultKey s s') :
    NothingLeft job.device old.vaultKey new.vaultKey s := by
  have hrec : s'.recordings = s.recordings := by cases h <;> assumption
  refine ⟨(recordings_kept_iff hne hrec).mp hkeeps.recordings,?_,?_⟩
  · intro remote hremote d c pkcs8 hc hopen
    cases h with
    | whole hread hpulled hsynced hrewraps hheld hinstalled hrec =>
      obtain rfl := pulls_unique hremote hpulled
      have hhere : HoldsKey s job.device old.vaultKey c → SurvivesIn _ _ c := fun hc =>
        survives_of_kept hne hread hpulled hsynced hrewraps hheld hinstalled hc hopen
          (hkeeps.keys job.device c pkcs8 hc hopen)
      by_cases hd : d = job.device
      · exact hhere (hd ▸ hc)
      · rcases hc with hlocal | hblob
        · exact survives_of_kept_elsewhere hne hread hsynced hrewraps hheld (hothers d hd)
            (mem_vault_keys.mpr hlocal) hopen (hkeeps.keys d c pkcs8 (.inl hlocal) hopen)
        · exact hhere (.inr hblob)
    | rest hunopened => exact absurd hremote (hunopened remote)
  · intro hunopened doc hdoc d c pkcs8 hc hopen
    cases h with
    | whole hread hpulled => exact absurd hpulled (hunopened _)
    | rest _ hpulled hrow hinstalled hrec =>
      obtain rfl := pulls_unique hdoc hpulled
      exact (key_kept_rest hne hunopened hpulled hrow (rows_rest hothers hinstalled) hc hopen).mp
        (hkeeps.keys d c pkcs8 hc hopen)

private theorem keeps_of_nothingLeft {old new : DerivedSecrets} {job : Job} {s s' : State acc}
    (hne : old.vaultKey ≠ new.vaultKey) (h : Rekeyed old new job s s')
    (hothers : ∀ d, d ≠ job.device → s'.device d = s.device d)
    (hleft : NothingLeft job.device old.vaultKey new.vaultKey s) :
    KeepsReadable old.vaultKey new.vaultKey s s' := by
  have hrec : s'.recordings = s.recordings := by cases h <;> assumption
  refine ⟨records_kept h,?_,(recordings_kept_iff hne hrec).mpr hleft.recordings⟩
  intro d c pkcs8 hc hopen
  cases h with
  | whole hread hpulled hsynced hrewraps hheld hinstalled hrec =>
    exact kept_of_survives hne hread hsynced hrewraps hheld d
      (hleft.whole _ hpulled d c pkcs8 hc hopen)
  | rest hunopened hpulled hrow hinstalled hrec =>
    exact (key_kept_rest hne hunopened hpulled hrow (rows_rest hothers hinstalled) hc hopen).mpr
      (hleft.rest hunopened _ hpulled d c pkcs8 hc hopen)

/-- The job changes the password, by the old one typed in or by secrets that were derived from it. -/
inductive Job.Moves (acc : Account) : Job → DerivedSecrets → DerivedSecrets → Prop
  | typed (d : DeviceId) (current new : String) :
    Moves acc (.changePassword d current new) (acc.kdf.deriveSecrets acc.email current)
      (acc.kdf.deriveSecrets acc.email new)
  | recovered (d : DeviceId) (password new : String) :
    Moves acc (.recover d (acc.kdf.deriveSecrets acc.email password) new)
      (acc.kdf.deriveSecrets acc.email password) (acc.kdf.deriveSecrets acc.email new)

def Job.alone (job : Job) (env : Nat → Env) (s : State acc) : Alone acc × Except JsError Outcome :=
  (job.code acc).run (Alone.exec job env) ⟨s,0⟩

private theorem device_alone_of_ne {job : Job} {env : Nat → Env} {s : State acc} {d : DeviceId}
    (h : d ≠ job.device) : (job.alone env s).1.state.device d = s.device d := by
  have hkept : ∀ (a : Alone acc) r, a.state.device d = s.device d →
      (Alone.exec job env a r).1.state.device d = s.device d :=
    fun a r ha => (device_exec_of_ne job (env a.asked) a.state h r).trans ha
  exact leaves_of_kept hkept (p := job.code acc) rfl

private theorem rekeyed_of_alone {job : Job} {old new : DerivedSecrets} (hjob : job.Moves acc old new)
    {env : Nat → Env} {s : State acc} {out : Outcome} (h : (job.alone env s).2 = .ok out) :
    old.vaultKey ≠ new.vaultKey ∧ Rekeyed old new job s (job.alone env s).1.state := by
  have hgives : ∀ via, Gives (Alone.exec job env) ⟨s,0⟩
      ((rekey old new via).bind (fun result => done (Outcome.rekey result)))
      (fun a' _ => Rekeyed old new job s a'.state) :=
    fun via => (gives_rekey via).bind (fun _ _ hrekeyed => gives_done hrekeyed)
  cases hjob with
  | typed d current password =>
    by_cases hsame : current = password
    · simp [Job.alone,Job.code,changePasswordAndRekey,hsame] at h
    · refine ⟨fun he => hsame (acc.kdf.vaultKey_injective he),?_⟩
      refine hgives "password" _ out ?_
      rw [← h]
      simp only [Job.alone,Job.code,changePasswordAndRekey,hsame,if_false]
      rfl
  | recovered d password newPassword =>
    by_cases hsame : (acc.kdf.deriveSecrets acc.email newPassword).authToken =
        (acc.kdf.deriveSecrets acc.email password).authToken
    · simp [Job.alone,Job.code,rekeyAfterRecovery,hsame] at h
    · refine ⟨fun he => hsame (by rw [acc.kdf.vaultKey_injective he]),?_⟩
      refine hgives "recovery-code" _ out ?_
      rw [← h]
      simp only [Job.alone,Job.code,rekeyAfterRecovery,hsame,if_false]
      rfl

/-- A password change that succeeds keeps everything readable exactly if nothing stood in its way
beforehand. -/
theorem keepsReadable_iff {job : Job} {old new : DerivedSecrets} (hjob : job.Moves acc old new)
    (env : Nat → Env) (s : State acc) {out : Outcome} (h : (job.alone env s).2 = .ok out) :
    KeepsReadable old.vaultKey new.vaultKey s (job.alone env s).1.state ↔
      NothingLeft job.device old.vaultKey new.vaultKey s := by
  obtain ⟨hne,hrekeyed⟩ := rekeyed_of_alone hjob h
  have hothers : ∀ d, d ≠ job.device → (job.alone env s).1.state.device d = s.device d :=
    fun d hd => device_alone_of_ne hd
  exact ⟨nothingLeft_of_keeps hne hrekeyed hothers,keeps_of_nothingLeft hne hrekeyed hothers⟩

def recordedState : State demoAccount :=
  { demoState (fun _ => .fresh) (some (demoRow (demoKey "a") { emptyDoc with hosts :=
      [demoHost 1 "web" 5] })) with
    recordings := [⟨demoKey "a",0,[1,2,3]⟩] }

def passwordChange : Job := .changePassword 0 "a" "b"

private theorem passwordChange_succeeds :
    (passwordChange.alone (fun _ => demoEnv) recordedState).2 =
      .ok (.rekey ⟨some 2,0,0,false,true,none⟩) := by
  decide +kernel

theorem keepsReadable_iff_demo :
    (passwordChange.alone (fun _ => demoEnv) recordedState).2 =
        .ok (.rekey ⟨some 2,0,0,false,true,none⟩) ∧
      (KeepsReadable (demoKey "a") (demoKey "b") recordedState
          (passwordChange.alone (fun _ => demoEnv) recordedState).1.state ↔
        NothingLeft 0 (demoKey "a") (demoKey "b") recordedState) :=
  ⟨passwordChange_succeeds,
    keepsReadable_iff (.typed 0 "a" "b") (fun _ => demoEnv) recordedState passwordChange_succeeds⟩

/-- The change succeeds and leaves the recording to a key that nobody derives any more. -/
theorem recording_unreadable_after_change :
    (passwordChange.alone (fun _ => demoEnv) recordedState).2 =
        .ok (.rekey ⟨some 2,0,0,false,true,none⟩) ∧
      ¬ KeepsReadable (demoKey "a") (demoKey "b") recordedState
        (passwordChange.alone (fun _ => demoEnv) recordedState).1.state := by
  refine ⟨passwordChange_succeeds,?_⟩
  intro h
  obtain ⟨rec,hrec,hopen⟩ := h.recordings 0 ⟨demoKey "a",0,[1,2,3]⟩ [1,2,3] rfl (by decide)
  have hsame : (passwordChange.alone (fun _ => demoEnv) recordedState).1.state.recordings =
      recordedState.recordings := by decide +kernel
  rw [hsame] at hrec
  obtain rfl := Option.some.inj hrec
  revert hopen
  decide

end WeirdVault.Vault
