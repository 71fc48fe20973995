import WeirdVault.Vault.Demo
import WeirdVault.Vault.WriteBack

/-!
# What a cycle announces

`syncNow` raises the revision when the cycle reports anything but being up to date. One tab runs it
against a server that answers as it likes; the tab is stale when its stores have changed and no
revision has been announced since.
-/

namespace WeirdVault.Vault

open WeirdVault.Framework Program

/-- The records of the four stores; the order in which a store holds them is not part of it. -/
def LocalDb.sameContents (a b : LocalDb) : Bool :=
  decide (a.hosts.rows.Perm b.hosts.rows) && decide (a.keys.rows.Perm b.keys.rows) &&
  decide (a.hostkeys.rows.Perm b.hostkeys.rows) &&
  decide ((a.snippets.getD (Table.empty _)).rows.Perm (b.snippets.getD (Table.empty _)).rows)

/-- The stores, and whether they have changed since the revision was last raised. -/
structure Page where
  db : LocalDb
  stale : Bool
  deriving DecidableEq

def Page.write (p : Page) (r : Request) : Page :=
  ⟨p.db.apply r,p.stale || !p.db.sameContents (p.db.apply r)⟩

/-- What the rest of the world brings to a cycle: the answer to each pull and to the push after it,
the order in which the stores are listed in between, the clock and randomness. -/
structure Script where
  pull : Nat → FetchReply PulledVault
  push : Nat → FetchReply Nat
  listing : Nat → (s : Store) → List s.Rec
  now : Nat → Nat
  random : Nat → Nat

structure Tab where
  page : Page
  pulls : Nat
  asked : Nat

namespace Tab

def serve (script : Script) (t : Tab) : (r : Request) → Tab × r.Ans
  | .idbGetAll st => (t,arrange (t.page.db.store st).rows (script.listing t.pulls st))
  | .idbGet st id => (t,(t.page.db.store st).get? id)
  | .idbPut st r => ({ t with page := t.page.write (.idbPut st r) },())
  | .idbDelete st id => ({ t with page := t.page.write (.idbDelete st id) },())
  | .vaultGet c => (t,t.page.db.cell c)
  | .vaultPut c v => ({ t with page := t.page.write (.vaultPut c v) },())
  | .dateNow => (t,script.now t.asked)
  | .randomUUID => (t,script.random t.asked)
  | .randomIv => (t,script.random t.asked)
  | .getVault => ({ t with pulls := t.pulls+1 },script.pull t.pulls)
  | .putVault .. => (t,script.push t.pulls)
  | .changePassword .. => (t,.unreachable)
  | .deleteRecovery => (t,.unreachable)
  | .connect _ => (t,⟨none,none⟩)
  | .installKey => (t,none)
  | .bump => ({ t with page := { t.page with stale := false } },())

def exec (script : Script) (t : Tab) (r : Request) : Tab × r.Ans :=
  ({ (t.serve script r).1 with asked := t.asked+1 },(t.serve script r).2)

end Tab

def tabBrowser (script : Script) : Browser Tab Page Nat where
  exec := Tab.exec script
  page := Tab.page
  rest := Tab.pulls
  db := Page.db
  write := Page.write
  listed n s rows l := l = arrange rows (script.listing n s)
  page_exec s r h := by cases r <;> first | rfl | cases h
  rest_exec s r h := by cases r <;> first | rfl | cases h
  getAll _ _ := rfl
  vaultGet _ _ := rfl
  db_write _ _ := rfl

/-- The stores hold what the write puts, or do not hold what it takes away. -/
def WriteBack.done (db : LocalDb) : WriteBack → Bool
  | .put st r =>
    have : DecidableEq st.Rec := Store.decidableEqRec st
    decide ((db.store st).get? (st.id r) = some r)
  | .snippet s => decide ((db.snippets.getD (Table.empty _)).get? s.id = some s)
  | .tombstones _ => true
  | .forget st id => ((db.store st).get? id).isNone
  | .forgetSnippet id => ((db.snippets.getD (Table.empty _)).get? id).isNone

private theorem perm_put_iff {κ ρ : Type} {key : ρ → κ} [DecidableEq κ] {t : Table key} {r : ρ} :
    t.rows.Perm (t.put r).rows ↔ t.get? (key r) = some r := by
  constructor
  · intro h
    have hmem : r ∈ (t.put r).rows := Table.mem_of_get? (Table.get?_put_self t r)
    exact Table.get?_of_mem (h.mem_iff.mpr hmem)
  · intro h
    rw [Table.put_eq_self h]

private theorem perm_erase_iff {κ ρ : Type} {key : ρ → κ} [DecidableEq κ] {t : Table key} {k : κ} :
    t.rows.Perm (t.erase k).rows ↔ t.get? k = none := by
  constructor
  · intro h
    rw [Table.get?_eq_none_iff]
    intro r hr
    exact (Table.mem_rows_erase.mp (h.mem_iff.mp hr)).2
  · intro h
    rw [Table.erase_eq_self h]

private theorem sameContents_setStore (db : LocalDb) (st : Store) (t : Table st.id) :
    db.sameContents (db.setStore st t) = true ↔ (db.store st).rows.Perm t.rows := by
  cases st <;> simp only [LocalDb.sameContents,LocalDb.setStore,LocalDb.store,List.Perm.refl,
    decide_true,Bool.and_true,Bool.true_and] <;> exact decide_eq_true_iff

private theorem setStore_store (db : LocalDb) (st : Store) : db.setStore st (db.store st) = db := by
  cases st <;> rfl

private theorem sameContents_request (db : LocalDb) {w : WriteBack} {r : Request}
    (h : w.request db = some r) : db.sameContents (db.apply r) = w.done db := by
  cases w with
  | put st x =>
    obtain rfl := Option.some.inj h
    rw [Bool.eq_iff_iff,LocalDb.apply,sameContents_setStore,perm_put_iff]
    simp [WriteBack.done]
  | snippet x =>
    obtain rfl := Option.some.inj h
    simp [LocalDb.sameContents,LocalDb.apply,LocalDb.setCell,WriteBack.done,perm_put_iff]
  | tombstones t =>
    obtain rfl := Option.some.inj h
    simp [LocalDb.sameContents,LocalDb.apply,LocalDb.setCell,WriteBack.done]
  | forget st id =>
    obtain rfl := Option.some.inj h
    rw [Bool.eq_iff_iff,LocalDb.apply,sameContents_setStore,perm_erase_iff]
    simp [WriteBack.done]
  | forgetSnippet id =>
    simp only [WriteBack.request] at h
    split at h
    · cases h
    · rename_i hheld
      obtain rfl := Option.some.inj h
      simp [LocalDb.sameContents,LocalDb.apply,LocalDb.setCell,WriteBack.done,perm_erase_iff,
        ← Option.isNone_iff_eq_none,hheld]

private theorem done_apply {db : LocalDb} {w : WriteBack} {r : Request}
    (h : w.request db = some r) (hdone : w.done db = true) (v : WriteBack) :
    v.done (db.apply r) = v.done db := by
  cases w with
  | put st x =>
    obtain rfl := Option.some.inj h
    have hsame : db.apply (.idbPut st x) = db := by
      have hheld : (db.store st).get? (st.id x) = some x := by simpa [WriteBack.done] using hdone
      rw [LocalDb.apply,Table.put_eq_self hheld,setStore_store]
    rw [hsame]
  | snippet x =>
    obtain rfl := Option.some.inj h
    have hsame := Table.put_eq_self (of_decide_eq_true hdone)
    rw [hsame]
    cases v <;> rfl
  | tombstones t =>
    obtain rfl := Option.some.inj h
    cases v <;> rfl
  | forget st id =>
    obtain rfl := Option.some.inj h
    have hsame : db.apply (.idbDelete st id) = db := by
      have hnone : (db.store st).get? id = none := by simpa [WriteBack.done] using hdone
      rw [LocalDb.apply,Table.erase_eq_self hnone,setStore_store]
    rw [hsame]
  | forgetSnippet id =>
    simp only [WriteBack.request,WriteBack.done] at h hdone
    simp [hdone] at h

variable (script : Script)

private theorem stale_wrote (p : Page) (w : WriteBack) :
    ((tabBrowser script).wrote p w).stale = (p.stale || !w.done p.db) := by
  rcases h : w.request p.db with _ | r
  · have hdone : w.done p.db = true := by
      cases w <;> simp_all [WriteBack.request,WriteBack.done]
    simp [Browser.wrote,tabBrowser,h,hdone]
  · simp [Browser.wrote,tabBrowser,h,Page.write,sameContents_request p.db h]

private theorem done_wrote {p : Page} {w : WriteBack} (hdone : w.done p.db = true) (v : WriteBack) :
    v.done ((tabBrowser script).wrote p w).db = v.done p.db := by
  rcases h : w.request p.db with _ | r
  · simp [Browser.wrote,tabBrowser,h]
  · simp [Browser.wrote,tabBrowser,h,Page.write,done_apply h hdone]

/-- A sequence of writes makes the tab stale exactly if one of them is not done beforehand. -/
theorem stale_foldl_wrote (p : Page) (ws : List WriteBack) :
    (ws.foldl (tabBrowser script).wrote p).stale = (p.stale || !ws.all (WriteBack.done p.db)) := by
  induction ws generalizing p with
  | nil => simp
  | cons w ws ih =>
    rw [List.foldl_cons,ih,stale_wrote]
    cases hdone : w.done p.db with
    | false => simp [hdone]
    | true =>
      have hsame : (fun v => WriteBack.done ((tabBrowser script).wrote p w).db v) =
          (fun v => v.done p.db) := funext (done_wrote script hdone)
      simp [hdone,hsame]

def PulledVault.open? (p : PulledVault) (key : CryptoKey) : Option VaultDocument :=
  match p.blob with
  | none => some emptyDoc
  | some env => (env.open? key).map WireDocument.filled

/-- What a cycle merges after a pull: the stores, and the document that the pull brought. -/
structure Round where
  db : LocalDb
  ours : VaultDocument
  remote : VaultDocument

namespace Round

def merged (r : Round) : VaultDocument := mergeVault r.ours r.remote

/-- The stores hold every record of the merge, and no record that the merge leaves out. -/
def bringsNothing (r : Round) : Bool := (writesBack r.merged r.ours).all (WriteBack.done r.db)

def after (r : Round) : LocalDb :=
  (writesBack r.merged r.ours).foldl
    (fun db w => match w.request db with
      | some request => db.apply request
      | none => db) r.db

end Round

/-- The merges that a cycle comes to, and whether it ends in a push that is accepted or at a server
that cannot be reached. -/
structure Course where
  rounds : List Round
  loud : Bool

/-- The document that the stores are read as before the merge with the given pull. -/
def Script.document (script : Script) (pulls : Nat) (db : LocalDb) : VaultDocument :=
  let list (s : Store) : List s.Rec := arrange (db.store s).rows (script.listing pulls s)
  db.document (list .hosts) (list .keys) (list .hostkeys) 0

/-- From the merge on: there is nothing to push, or the answer to the push decides. -/
def Script.decide (script : Script) (key : CryptoKey) (onConflict : LocalDb → Course) (p : PulledVault)
    (n : Nat) (round : Round) : Course :=
  if quiet key p round.merged round.remote then ⟨[round],false⟩
  else
    match script.push n with
    | .ok _ => ⟨[round],true⟩
    | .failed status =>
      if status = 409 then
        ⟨round :: (onConflict round.after).rounds,(onConflict round.after).loud⟩
      else ⟨[round],false⟩
    | .unreachable => ⟨[round],false⟩
    | .unreadable => ⟨[round],false⟩

def Script.attempt (script : Script) (key : CryptoKey) (onConflict : LocalDb → Course) (n : Nat)
    (db : LocalDb) : Course :=
  match script.pull n with
  | .unreachable => ⟨[],true⟩
  | .failed _ => ⟨[],false⟩
  | .unreadable => ⟨[],false⟩
  | .ok p =>
    match p.open? key with
    | none => ⟨[],false⟩
    | some remote =>
      script.decide key onConflict p (n+1) ⟨db,script.document (n+1) db,remote⟩

/-- The course of a cycle that may retry so often, from its `n`-th pull on. -/
def Script.course (script : Script) (key : CryptoKey) : Nat → Nat → LocalDb → Course
  | 0,n => script.attempt key (fun _ => ⟨[],false⟩) n
  | retries+1,n => script.attempt key (script.course key retries (n+1)) n

/-- The run is as the course has it: the tab is stale if a merge has brought it something, and the
cycle reports anything but being up to date if the course is loud. -/
structure Follows (c : Course) (stale : Bool) (o : Tab × Except JsError SyncResult) : Prop where
  stale : o.1.page.stale = (stale || !c.rounds.all Round.bringsNothing)
  loud : (∃ result, o.2 = .ok result ∧ result.status ≠ .upToDate) ↔ c.loud = true

variable {script} {key : CryptoKey}

private theorem db_foldl_wrote (p : Page) (ws : List WriteBack) :
    (ws.foldl (tabBrowser script).wrote p).db = ws.foldl (fun db w => match w.request db with
      | some request => db.apply request
      | none => db) p.db := by
  induction ws generalizing p with
  | nil => rfl
  | cons w ws ih =>
    rw [List.foldl_cons,List.foldl_cons,ih]
    rcases h : w.request p.db with _ | r
    · simp only [Browser.wrote,tabBrowser,h]
    · simp only [Browser.wrote,tabBrowser,h,Page.write]

private theorem decryptPulled_of_open? {p : PulledVault} {remote : VaultDocument}
    (h : p.open? key = some remote) : decryptPulled key p = done remote := by
  rcases hblob : p.blob with _ | env
  · have hremote : emptyDoc = remote := by simpa [PulledVault.open?,hblob] using h
    simp [decryptPulled,hblob,hremote]
  · obtain ⟨doc,hdoc,hremote⟩ : ∃ doc, env.open? key = some doc ∧ doc.filled = remote := by
      simpa [PulledVault.open?,hblob] using h
    simp [decryptPulled,decryptVault,hblob,hdoc,hremote]

private theorem decryptPulled_of_not_open? {p : PulledVault} (h : p.open? key = none) :
    ∃ e, decryptPulled key p = fail e := by
  rcases hblob : p.blob with _ | env
  · simp [PulledVault.open?,hblob] at h
  · have hdoc : env.open? key = none := by simpa [PulledVault.open?,hblob] using h
    by_cases hv : env.v = 1
    · exact ⟨_,by simp [decryptPulled,decryptVault,hblob,hdoc,hv]; rfl⟩
    · exact ⟨_,by simp [decryptPulled,decryptVault,hblob,hdoc,hv]; rfl⟩

private theorem run_mergeLocally (script : Script) (t : Tab) {p : PulledVault} {remote : VaultDocument}
    (hopen : p.open? key = some remote) :
    let round : Round := ⟨t.page.db,script.document t.pulls t.page.db,remote⟩
    ∃ t' updatedAt,
      (mergeLocally key p).run (Tab.exec script) t =
        (t',.ok ({ round.merged with updatedAt := updatedAt },remote)) ∧
      t'.pulls = t.pulls ∧ t'.page.db = round.after ∧
      t'.page.stale = (t.page.stale || !round.bringsNothing) := by
  intro round
  have hends : (tabBrowser script).Ends t.page t.pulls (mergeLocally key p) (fun m a =>
      (∃ updatedAt, a = ({ round.merged with updatedAt := updatedAt },remote)) ∧
      m = (writesBack round.merged round.ours).foldl (tabBrowser script).wrote t.page) := by
    simp only [mergeLocally,decryptPulled_of_open? hopen,bind_eq,pure_eq,done_bind]
    apply ends_readLocalVault.bind
    rintro m ours ⟨rfl,_,_,_,now,rfl,rfl,rfl,rfl⟩
    rw [applyVaultLocally_eq]
    apply (Browser.ends_writeBacks _).bind
    rintro m - rfl
    exact Browser.ends_done ⟨⟨_,rfl⟩,rfl⟩
  obtain ⟨t',a,hrun,hpulls,⟨updatedAt,rfl⟩,hpage⟩ := hends t rfl rfl
  refine ⟨t',updatedAt,hrun,hpulls,?_,?_⟩
  · rw [show t'.page = _ from hpage,db_foldl_wrote]
    rfl
  · rw [show t'.page = _ from hpage,stale_foldl_wrote]
    rfl

private theorem stale_setState (p : Page) (v : SyncState) :
    (p.write (.vaultPut .syncState v)).stale = p.stale := by
  simp [Page.write,LocalDb.apply,LocalDb.setCell,LocalDb.sameContents]

private theorem follows_decide (key : CryptoKey) (onConflict : LocalDb → Course)
    (next : Prog SyncResult) (p : PulledVault) {round : Round} {stale : Bool} {t : Tab}
    (hnext : ∀ t' : Tab, t'.pulls = t.pulls → Follows (onConflict t'.page.db) t'.page.stale
      (next.run (Tab.exec script) t'))
    (hdb : t.page.db = round.after) (hstale : t.page.stale = (stale || !round.bringsNothing))
    (afterConflict : Bool) (updatedAt : Nat) :
    Follows (script.decide key onConflict p t.pulls round) stale
      (Program.run (Tab.exec script) t
        (if quiet key p { round.merged with updatedAt := updatedAt } round.remote = true then do
          let now ← query .dateNow
          setState ⟨p.version,now⟩
          return SyncResult.of .upToDate p.version { round.merged with updatedAt := updatedAt }
            (keysWithheld key { round.merged with updatedAt := updatedAt } round.remote)
        else push key p { round.merged with updatedAt := updatedAt } round.remote afterConflict
          next)) := by
  have hq : quiet key p { round.merged with updatedAt := updatedAt } round.remote =
      quiet key p round.merged round.remote := rfl
  have hset : ∀ (t' : Tab) (v : SyncState), t'.page.stale = t.page.stale →
      (Tab.exec script t' (.vaultPut .syncState v)).1.page.stale =
        (stale || !round.bringsNothing) := by
    intro t' v ht'
    rw [← hstale,← ht']
    exact stale_setState t'.page v
  rw [hq]
  by_cases hquiet : quiet key p round.merged round.remote = true
  · simp only [Script.decide,hquiet,if_true,setState,query,bind_eq,pure_eq,request_bind,run_ask,
      run_done]
    constructor
    · refine (hset _ _ rfl).trans ?_
      simp
    · simp [SyncResult.of]
  · simp only [Script.decide,hquiet,Bool.false_eq_true,if_false,push,encryptVault,query,bind_eq,
      pure_eq,request_bind,ask_bind,done_bind,run_ask]
    have hpage : ∀ blob base, (Tab.exec script (Tab.exec script t .randomIv).1
        (.putVault blob base)).1.page = t.page := fun _ _ => rfl
    have hpulls : ∀ blob base, (Tab.exec script (Tab.exec script t .randomIv).1
        (.putVault blob base)).1.pulls = t.pulls := fun _ _ => rfl
    have hanswer : ∀ blob base, (Tab.exec script (Tab.exec script t .randomIv).1
        (.putVault blob base)).2 = script.push t.pulls := fun _ _ => rfl
    rw [hanswer]
    rcases script.push t.pulls with _ | status | _ | version
    · constructor <;> simp [hpage,hstale]
    · by_cases h : status = 409
      · have hgo := hnext (Tab.exec script (Tab.exec script t .randomIv).1 (.putVault
          ⟨1,⟨key,(Tab.exec script t .randomIv).2,(outgoing key
            { round.merged with updatedAt := updatedAt } round.remote).toWire⟩⟩ p.version)).1 rfl
        simp only [hpage,hdb,hstale] at hgo
        simp only [h,if_true]
        refine ⟨?_,hgo.loud⟩
        rw [hgo.stale,List.all_cons,Bool.or_assoc,Bool.not_and]
      · constructor <;> simp [h,hpage,hstale]
    · constructor <;> simp [hpage,hstale]
    · simp only [setState,query,request_bind,run_ask,run_done]
      constructor
      · refine (hset _ _ rfl).trans ?_
        simp
      · cases afterConflict <;> simp [SyncResult.of]

private theorem follows_attempt {onConflict : LocalDb → Course} {next : Prog SyncResult} {n : Nat}
    (hnext : ∀ t : Tab, t.pulls = n+1 →
      Follows (onConflict t.page.db) t.page.stale (next.run (Tab.exec script) t))
    (afterConflict : Bool) (t : Tab) (ht : t.pulls = n) :
    Follows (script.attempt key onConflict n t.page.db) t.page.stale
      ((attempt key afterConflict next).run (Tab.exec script) t) := by
  subst ht
  simp only [attempt,getState,query,bind_eq,pure_eq,request_bind,ask_bind,done_bind,run_ask]
  have hanswer : (Tab.exec script (Tab.exec script t (.vaultGet .syncState)).1 .getVault).2 =
      script.pull t.pulls := rfl
  have hpage : (Tab.exec script (Tab.exec script t (.vaultGet .syncState)).1 .getVault).1.page =
      t.page := rfl
  have hpulls : (Tab.exec script (Tab.exec script t (.vaultGet .syncState)).1 .getVault).1.pulls =
      t.pulls+1 := rfl
  generalize (Tab.exec script (Tab.exec script t (.vaultGet .syncState)).1 .getVault).1 = t1
    at hpage hpulls
  rw [hanswer]
  rcases hpull : script.pull t.pulls with _ | status | _ | p
  · constructor <;> simp [Script.attempt,hpull,hpage]
  · by_cases h : status = 401 <;> constructor <;> simp [Script.attempt,hpull,h,hpage]
  · constructor <;> simp [Script.attempt,hpull,hpage]
  · rcases hopen : p.open? key with _ | remote
    · obtain ⟨e,he⟩ := decryptPulled_of_not_open? hopen
      constructor <;> simp [Script.attempt,hpull,hopen,mergeLocally,he,hpage]
    · obtain ⟨t2,updatedAt,hrun,hpulls2,hdb,hstale⟩ :=
        run_mergeLocally script t1 hopen
      rw [hpage,hpulls] at hdb hstale hrun
      simp only [run_bind_ok _ hrun,Script.attempt,hpull,hopen]
      have hdecide := follows_decide key onConflict next p
        (fun t' ht' => hnext t' (ht'.trans (hpulls2.trans hpulls))) hdb hstale afterConflict updatedAt
      rwa [hpulls2.trans hpulls] at hdecide

private theorem follows_runSync (retries n : Nat) (afterConflict : Bool) (t : Tab)
    (ht : t.pulls = n) : Follows (script.course key retries n t.page.db) t.page.stale
      ((runSync key retries afterConflict).run (Tab.exec script) t) := by
  induction retries generalizing n afterConflict t with
  | zero =>
    refine follows_attempt (fun t' _ => ?_) afterConflict t ht
    constructor <;> simp
  | succ retries ih =>
    exact follows_attempt (fun t' ht' => ih (n+1) true t' ht') afterConflict t ht

def Tab.opened (db : LocalDb) : Tab := ⟨⟨db,false⟩,0,0⟩

/-- After a run of `syncNow` nothing is unannounced exactly if it ends in an accepted push or at a
server that cannot be reached, or if none of the documents it has merged brings the stores anything
new. `pushLocalChange` runs the same cycle once the one in flight has ended. -/
theorem announced_iff (script : Script) (key : CryptoKey) (db : LocalDb) :
    ((syncNow key).run (Tab.exec script) (Tab.opened db)).1.page.stale = false ↔
      (script.course key 2 0 db).loud = true ∨
        ∀ round ∈ (script.course key 2 0 db).rounds, round.bringsNothing = true := by
  have hfollows : Follows (script.course key 2 0 db) false
      ((runSync key 2 false).run (Tab.exec script) (Tab.opened db)) :=
    follows_runSync 2 0 false (Tab.opened db) rfl
  obtain ⟨hstale,hloud⟩ := hfollows
  have hidle : (!(script.course key 2 0 db).rounds.all Round.bringsNothing) = false ↔
      ∀ round ∈ (script.course key 2 0 db).rounds, round.bringsNothing = true := by
    simp
  have hnow : syncNow key = Program.handle ((runSync key 2 false).bind fun result =>
      if result.status ≠ .upToDate then (query .bump).bind (fun _ => done (some result))
      else done (some result)) (fun _ => done none) := by
    simp only [syncNow,syncVault,bind_eq,pure_eq]
    congr 2
  rw [hnow,run_handle,run_bind]
  rcases hrun : (runSync key 2 false).run (Tab.exec script) (Tab.opened db) with ⟨t,e | result⟩
  · rw [hrun] at hstale hloud
    have hquiet : (script.course key 2 0 db).loud = false := by simpa using hloud
    simp only [run_done,hquiet,Bool.false_eq_true,false_or]
    rw [← hidle]
    exact Eq.congr_left hstale
  · rw [hrun] at hstale hloud
    by_cases hup : result.status = .upToDate
    · have hquiet : (script.course key 2 0 db).loud = false := by simpa [hup] using hloud
      simp only [hup,ne_eq,not_true_eq_false,if_false,run_done,hquiet,Bool.false_eq_true,false_or]
      rw [← hidle]
      exact Eq.congr_left hstale
    · have hsaid : (script.course key 2 0 db).loud = true := hloud.mp ⟨result,rfl,hup⟩
      simp only [hup,ne_eq,not_false_eq_true,if_true,query,request_bind,run_ask,run_done,hsaid,true_or,
        iff_true]
      rfl

def pullingScript : Script where
  pull _ := .ok ⟨1,some (demoEnvelope (demoKey "a") { emptyDoc with hosts := [demoHost 1 "web" 5] })⟩
  push _ := .unreachable
  listing _ _ := []
  now _ := 10
  random _ := 7

/-- The host arrives, the cycle is up to date, and the page goes on showing no hosts. -/
theorem pulled_host_unannounced :
    let t := ((syncNow (demoKey "a")).run (Tab.exec pullingScript) (Tab.opened .fresh)).1
    t.page.db.hosts.rows = [demoHost 1 "web" 5] ∧ t.page.stale = true := by
  decide +kernel

end WeirdVault.Vault
