import WeirdVault.Agent.Upgrade
import WeirdVault.Framework.Runs

/-!
# The answer to an upgrade

`selfUpdate` has one word for everything that is not an update, and the answer takes it for the
best of them.
-/

namespace WeirdVault.Agent.Upgrade

open WeirdVault.Framework Program

variable (P : Platform)

def Answer.Reads (a : Answer) (manifest : ReleaseManifest) : Prop :=
  ∃ base bytes, releaseBase P a.releaseURL = .ok base ∧
    a.heard.Has (.call (.get (base ++ "/manifest.json"))) (.ok bytes) ∧
    P.unmarshal bytes = .ok manifest

def Answer.Truthful (a : Answer) : Prop :=
  ∀ detail, a.detail = .ok detail →
    detail = alreadyRunning ∧ (∃ manifest, a.Reads P manifest ∧
      (manifest.version = "" ∨ manifest.version = P.version a.running)) ∨
    detail = upgraded ∧ ∃ manifest entry, a.Reads P manifest ∧
      manifest.binaries.lookup P.target = some entry ∧
      equalFold (P.sha256 a.installed) entry.sha256

/-- The release server and the machine let the binary be replaced. -/
structure Installs (w : World) (base : String) (entry : Binary) (exe path tmp : String)
    (binary : Bytes) : Prop where
  executable : w .executable = .ok exe
  evalSymlinks : w (.evalSymlinks exe) = .ok path
  get : w (.get (base ++ "/" ++ entry.file)) = .ok binary
  checksum : equalFold (P.sha256 binary) entry.sha256 = true
  createTemp : w (.createTemp (P.dir path)) = .ok tmp
  write : w (.write tmp binary) = .ok ()
  chmod : w (.chmod tmp) = .ok ()
  close : w (.close tmp) = .ok ()
  preserveOwner : w (.preserveOwner path tmp) = .ok ()
  rename : w (.rename tmp path) = .ok ()

def published (w : World) (base : String) : Except String ReleaseManifest :=
  match w (.get (base ++ "/manifest.json")) with
  | .error e => .error ("could not read the release manifest: " ++ e)
  | .ok bytes =>
    match P.unmarshal bytes with
    | .error e => .error ("release manifest is not readable: " ++ e)
    | .ok manifest => .ok manifest

/-- An upgrade is refused, or finds the published build running, or installs it. -/
def Checks (m : Machine) : Event → Prop
  | .upgrade busy releaseURL w => busy ≠ [] ∨ releaseURL = "" ∨ m.marker = false ∧
    ∃ base manifest, releaseBase P releaseURL = .ok base ∧ published P w base = .ok manifest ∧
      (manifest.version = "" ∨ manifest.version = P.version m.running ∨
        ∃ entry exe path tmp binary, manifest.binaries.lookup P.target = some entry ∧
          Installs P w base entry exe path tmp binary)
  | _ => True

variable {P} {w : World}

structure Kept (w : World) (s t : Course) : Prop where
  running : t.1.running = s.1.running
  answers : t.1.answers = s.1.answers
  marker : t.1.marker = s.1.marker
  heard : ∃ newer : Heard, t.2 = newer ++ s.2 ∧
    ∀ c x, (⟨.call c,x⟩ : (r : Request) × r.Ans) ∈ newer → x = w c

theorem kept_exec (s : Course) (r : Request) : Kept w s (exec w s r).1 := by
  cases r with
  | getenv => exact ⟨rfl,rfl,rfl,[_],rfl,by simp⟩
  | log line => exact ⟨rfl,rfl,rfl,[_],rfl,by simp⟩
  | restartProcess => exact ⟨rfl,rfl,rfl,[_],rfl,by simp⟩
  | call c =>
    have hafter : ∀ c, (s.1.after w c).running = s.1.running ∧
        (s.1.after w c).answers = s.1.answers ∧ (s.1.after w c).marker = s.1.marker := by
      intro c
      unfold Machine.after
      split
      · exact ⟨rfl,rfl,rfl⟩
      · split <;> exact ⟨rfl,rfl,rfl⟩
      · exact ⟨rfl,rfl,rfl⟩
    obtain ⟨hrunning,hanswers,hmarker⟩ := hafter c
    refine ⟨hrunning,hanswers,hmarker,[_],rfl,?_⟩
    intro d x hx
    cases List.mem_singleton.mp hx
    rfl

theorem Kept.trans {s t u : Course} (h : Kept w s t) (h' : Kept w t u) : Kept w s u := by
  obtain ⟨newer,hnewer,hall⟩ := h.heard
  obtain ⟨newest,hnewest,hall'⟩ := h'.heard
  refine ⟨h'.running.trans h.running,h'.answers.trans h.answers,h'.marker.trans h.marker,
    newest ++ newer,by rw [hnewest,hnewer,List.append_assoc],?_⟩
  intro c x hx
  rcases List.mem_append.mp hx with hx | hx
  · exact hall' c x hx
  · exact hall c x hx

theorem kept_run {α : Type} (p : Prog α) (s : Course) : Kept w s (p.run (exec w) s).1 := by
  induction p generalizing s with
  | done a => exact ⟨rfl,rfl,rfl,[],rfl,by simp⟩
  | fail e => exact ⟨rfl,rfl,rfl,[],rfl,by simp⟩
  | ask r next ih => exact (kept_exec s r).trans (ih _ _)

theorem run_attempt {α : Type} (p : Prog α) (s : Course) :
    (attempt p).run (exec w) s = ((p.run (exec w) s).1,.ok (p.run (exec w) s).2) := by
  rw [attempt,run_handle,run_bind]
  rcases p.run (exec w) s with ⟨t,e | a⟩ <;> rfl

theorem run_fetchManifest (base : String) (s : Course) :
    (fetchManifest P base).run (exec w) s =
      ((s.1,⟨.call (.get (base ++ "/manifest.json")),w (.get (base ++ "/manifest.json"))⟩ :: s.2),
        published P w base) := by
  simp only [fetchManifest,get,request_bind,run_ask,exec,Machine.after,published]
  cases w (.get (base ++ "/manifest.json")) with
  | error e => rfl
  | ok bytes =>
    simp only
    cases P.unmarshal bytes <;> rfl

theorem run_required (c : Call) (s : Course) :
    (required c).run (exec w) s = ((s.1.after w c,⟨.call c,w c⟩ :: s.2),w c) := by
  simp only [required,request_bind,run_ask,exec]
  cases w c <;> rfl

theorem leaves_required {α : Type} {c : Call} {f : c.Out → Prog α} {s : Course}
    {post : Course → Except String α → Prop}
    (herr : ∀ e, w c = .error e → post (s.1.after w c,⟨.call c,w c⟩ :: s.2) (.error e))
    (hok : ∀ x, w c = .ok x →
      Leaves (exec w) (s.1.after w c,⟨.call c,w c⟩ :: s.2) (f x) post) :
    Leaves (exec w) s ((required c).bind f) post := by
  rw [Leaves,run_bind,run_required]
  cases hc : w c with
  | error e =>
    have h := herr e hc
    rwa [hc] at h
  | ok x =>
    have h := hok x hc
    rwa [hc] at h

variable (P w) in
def Tried (base : String) (entry : Binary) (t : Course) : Except String Unit → Prop
  | .error _ => ∀ exe path tmp binary, ¬ Installs P w base entry exe path tmp binary
  | .ok () => ∃ exe path tmp binary, Installs P w base entry exe path tmp binary ∧
      t.1.disk = binary

private theorem leaves_step {base : String} {entry : Binary} {c : Call} {f : c.Out → Prog Unit}
    {s : Course}
    (hc : ∀ exe path tmp binary, Installs P w base entry exe path tmp binary →
      ∃ x, w c = .ok x)
    (hok : ∀ x, w c = .ok x →
      Leaves (exec w) (s.1.after w c,⟨.call c,w c⟩ :: s.2) (f x) (Tried P w base entry)) :
    Leaves (exec w) s ((required c).bind f) (Tried P w base entry) := by
  apply leaves_required _ hok
  intro e he exe path tmp binary h
  obtain ⟨x,hx⟩ := hc exe path tmp binary h
  rw [hx] at he
  cases he

private theorem leaves_attempt {α β : Type} {p : Prog α} {f : Except String α → Prog β} {s : Course}
    {post : Course → Except String β → Prop}
    (h : Leaves (exec w) (p.run (exec w) s).1 (f (p.run (exec w) s).2) post) :
    Leaves (exec w) s ((attempt p).bind f) post := by
  rw [Leaves,run_bind,run_attempt]
  exact h

private theorem tried_swap {base : String} {entry : Binary} {exe path : String} {binary : Bytes}
    (hexe : w .executable = .ok exe) (hpath : w (.evalSymlinks exe) = .ok path)
    (hget : w (.get (base ++ "/" ++ entry.file)) = .ok binary)
    (hsum : equalFold (P.sha256 binary) entry.sha256 = true) (s : Course) :
    Leaves (exec w) s (swap P path binary) (Tried P w base entry) := by
  have hsame : ∀ exe' path' tmp' binary', Installs P w base entry exe' path' tmp' binary' →
      path = path' ∧ binary = binary' := by
    intro exe' path' tmp' binary' h
    obtain rfl : exe = exe' := Except.ok.inj (hexe.symm.trans h.executable)
    exact ⟨Except.ok.inj (hpath.symm.trans h.evalSymlinks),Except.ok.inj (hget.symm.trans h.get)⟩
  simp only [swap,bind_eq]
  apply leaves_attempt
  rw [run_required]
  cases hcreate : w (.createTemp (P.dir path)) with
  | error e =>
    intro exe' path' tmp' binary' h
    obtain ⟨rfl,rfl⟩ := hsame exe' path' tmp' binary' h
    rw [h.createTemp] at hcreate
    cases hcreate
  | ok tmp =>
    have hall : ∀ exe' path' tmp' binary', Installs P w base entry exe' path' tmp' binary' →
        path = path' ∧ binary = binary' ∧ tmp = tmp' := by
      intro exe' path' tmp' binary' h
      obtain ⟨rfl,rfl⟩ := hsame exe' path' tmp' binary' h
      exact ⟨rfl,rfl,Except.ok.inj (hcreate.symm.trans h.createTemp)⟩
    apply leaves_step
    · intro exe' path' tmp' binary' h
      obtain ⟨rfl,rfl,rfl⟩ := hall exe' path' tmp' binary' h
      exact ⟨(),h.write⟩
    intro u hwrite
    apply leaves_step
    · intro exe' path' tmp' binary' h
      obtain ⟨rfl,rfl,rfl⟩ := hall exe' path' tmp' binary' h
      exact ⟨(),h.chmod⟩
    intro u hchmod
    apply leaves_step
    · intro exe' path' tmp' binary' h
      obtain ⟨rfl,rfl,rfl⟩ := hall exe' path' tmp' binary' h
      exact ⟨(),h.close⟩
    intro u hclose
    apply leaves_step
    · intro exe' path' tmp' binary' h
      obtain ⟨rfl,rfl,rfl⟩ := hall exe' path' tmp' binary' h
      exact ⟨(),h.preserveOwner⟩
    intro u howner
    rw [Leaves,run_required]
    cases hrename : w (.rename tmp path) with
    | error e =>
      intro exe' path' tmp' binary' h
      obtain ⟨rfl,rfl,rfl⟩ := hall exe' path' tmp' binary' h
      rw [h.rename] at hrename
      cases hrename
    | ok u =>
      refine ⟨exe,path,tmp,binary,
        ⟨hexe,hpath,hget,hsum,hcreate,hwrite,hchmod,hclose,howner,hrename⟩,?_⟩
      simp only [Machine.after,hrename]

theorem tried_replaceSelf (base : String) (entry : Binary) (s : Course) :
    Leaves (exec w) s (replaceSelf P base entry.file entry.sha256) (Tried P w base entry) := by
  simp only [replaceSelf,bind_eq]
  apply leaves_step
  · exact fun exe path tmp binary h => ⟨exe,h.executable⟩
  intro exe hexe
  apply leaves_step
  · intro exe' path tmp binary h
    obtain rfl : exe = exe' := Except.ok.inj (hexe.symm.trans h.executable)
    exact ⟨path,h.evalSymlinks⟩
  intro path hpath
  apply leaves_step
  · exact fun exe path tmp binary h => ⟨binary,h.get⟩
  intro binary hget
  cases hsum : equalFold (P.sha256 binary) entry.sha256 with
  | false =>
    intro exe' path' tmp binary' h
    obtain rfl : binary = binary' := Except.ok.inj (hget.symm.trans h.get)
    rw [h.checksum] at hsum
    cases hsum
  | true =>
    simp only [Bool.not_true,Bool.false_eq_true,if_false]
    exact tried_swap hexe hpath hget hsum _

theorem published_iff {base : String} {manifest : ReleaseManifest} :
    published P w base = .ok manifest ↔ ∃ bytes, w (.get (base ++ "/manifest.json")) = .ok bytes ∧
      P.unmarshal bytes = .ok manifest := by
  rw [published]
  cases w (.get (base ++ "/manifest.json")) with
  | error e => simp
  | ok bytes =>
    simp only [Except.ok.injEq,exists_eq_left']
    cases P.unmarshal bytes <;> simp

theorem Answer.Reads.published {a : Answer} {manifest : ReleaseManifest} (h : a.Reads P manifest)
    (hheard : ∀ c x, (⟨.call c,x⟩ : (r : Request) × r.Ans) ∈ a.heard → x = w c) :
    ∃ base, releaseBase P a.releaseURL = .ok base ∧ published P w base = .ok manifest := by
  obtain ⟨base,bytes,hbase,hget,hmanifest⟩ := h
  exact ⟨base,hbase,published_iff.mpr ⟨bytes,(hheard _ _ hget).symm,hmanifest⟩⟩

variable (P w) in
def Saw (releaseURL : String) (s : Course) (manifest : ReleaseManifest) : Prop :=
  ∃ base, releaseBase P releaseURL = .ok base ∧ published P w base = .ok manifest ∧
    ⟨.call (.get (base ++ "/manifest.json")),w (.get (base ++ "/manifest.json"))⟩ ∈ s.2

variable (P w) in
/-- How `selfUpdate` ends: nothing is checked, the check says no, or the binary is replaced. -/
inductive Ends (version releaseURL : String) (s t : Course) : Except String Bool → Prop
  | same {manifest : ReleaseManifest} (hmarker : s.1.marker = false)
      (hsaw : Saw P w releaseURL t manifest)
      (hversion : manifest.version = "" ∨ manifest.version = version) :
      Ends version releaseURL s t (.ok false)
  | skipped (hmarker : s.1.marker = true) (hheard : t.2 = ⟨.getenv,"1"⟩ :: s.2) :
      Ends version releaseURL s t (.ok false)
  | not (h : ∀ base manifest, releaseBase P releaseURL = .ok base →
      published P w base = .ok manifest → manifest.version ≠ "" ∧ manifest.version ≠ version ∧
        ∀ entry exe path tmp binary, manifest.binaries.lookup P.target = some entry →
          ¬ Installs P w base entry exe path tmp binary) :
      Ends version releaseURL s t (.ok false)
  | replaced {base : String} {manifest : ReleaseManifest} {entry : Binary}
      {exe path tmp : String} {binary : Bytes} (hmarker : s.1.marker = false)
      (hbase : releaseBase P releaseURL = .ok base) (hsaw : Saw P w releaseURL t manifest)
      (hpublished : published P w base = .ok manifest)
      (hentry : manifest.binaries.lookup P.target = some entry)
      (hinstalls : Installs P w base entry exe path tmp binary) (hdisk : t.1.disk = binary) :
      Ends version releaseURL s t (.ok true)

private theorem leaves_log {α : Type} {line : String} {a : α} {s : Course}
    {post : Course → Except String α → Prop} :
    Leaves (exec w) s ((log line).bind (fun _ => pure a)) post ↔
      post (s.1,⟨.log line,()⟩ :: s.2) (.ok a) := Iff.rfl

private theorem leaves_replace {base : String} {entry : Binary} {s : Course}
    {f : Except String Unit → Prog Bool} {post : Course → Except String Bool → Prop}
    (h : ∀ t r, Kept w s t → Tried P w base entry t r → Leaves (exec w) t (f r) post) :
    Leaves (exec w) s ((attempt (replaceSelf P base entry.file entry.sha256)).bind f) post :=
  leaves_attempt (h _ _ (kept_run _ s) (tried_replaceSelf base entry s))

theorem ends_selfUpdate (version : String) {releaseURL : String} (hurl : releaseURL ≠ "")
    (s : Course) : Leaves (exec w) s (selfUpdate P version releaseURL)
      (Ends P w version releaseURL s) := by
  simp only [selfUpdate,getenv,bind_eq,request_bind,leaves_ask]
  cases hmarker : s.1.marker with
  | true =>
    have hset : (exec w s .getenv).2 = "1" := by simp only [exec,hmarker,if_true]
    have hne : ("1" != "") = true := by decide
    rw [hset,if_pos hne]
    refine .skipped hmarker ?_
    simp only [exec,hmarker,if_true]
    rfl
  | false =>
    have hunset : (exec w s .getenv).2 = "" := by
      simp only [exec,hmarker,Bool.false_eq_true,if_false]
    have hurl' : (releaseURL == "") = false := by simpa using hurl
    rw [hunset,if_neg (by decide)]
    rw [if_neg (by simp [hurl])]
    cases hbase : releaseBase P releaseURL with
    | error e =>
      refine leaves_log.mpr (.not (fun base manifest hok => ?_))
      rw [hbase] at hok
      cases hok
    | ok base =>
      have hsame : ∀ base', releaseBase P releaseURL = .ok base' → base' = base :=
        fun base' hok => (Except.ok.inj (hbase.symm.trans hok)).symm
      apply leaves_attempt
      rw [run_fetchManifest]
      cases hpublished : published P w base with
      | error e =>
        refine leaves_log.mpr (.not (fun base' manifest hok hp => ?_))
        rw [hsame base' hok,hpublished] at hp
        cases hp
      | ok manifest =>
        have honly : ∀ base' manifest', releaseBase P releaseURL = .ok base' →
            published P w base' = .ok manifest' → base' = base ∧ manifest' = manifest := by
          intro base' manifest' hok hp
          rw [hsame base' hok,hpublished] at hp
          exact ⟨hsame base' hok,(Except.ok.inj hp).symm⟩
        by_cases hversion : manifest.version = "" ∨ manifest.version = version
        · simp only [Bool.or_eq_true,beq_iff_eq,if_pos hversion]
          exact .same hmarker ⟨base,hbase,hpublished,List.mem_cons_self⟩ hversion
        · simp only [Bool.or_eq_true,beq_iff_eq,if_neg hversion]
          have hdiffers := not_or.mp hversion
          cases hentry : manifest.binaries.lookup P.target with
          | none =>
            refine leaves_log.mpr (.not (fun base' manifest' hok hp => ?_))
            obtain ⟨rfl,rfl⟩ := honly base' manifest' hok hp
            refine ⟨hdiffers.1,hdiffers.2,?_⟩
            intro entry exe path tmp binary hsome
            rw [hentry] at hsome
            cases hsome
          | some entry =>
            simp only [log,request_bind,leaves_ask]
            apply leaves_replace
            intro t r hkept htried
            cases r with
            | error e =>
              refine leaves_log.mpr (.not (fun base' manifest' hok hp => ?_))
              obtain ⟨rfl,rfl⟩ := honly base' manifest' hok hp
              refine ⟨hdiffers.1,hdiffers.2,?_⟩
              intro entry' exe path tmp binary hsome
              obtain rfl : entry = entry' := Option.some.inj (hentry.symm.trans hsome)
              exact htried exe path tmp binary
            | ok u =>
              obtain ⟨exe,path,tmp,binary,hinstalls,hdisk⟩ := htried
              obtain ⟨newer,hheard,-⟩ := hkept.heard
              have hsaw : Saw P w releaseURL (t.1,⟨.log ("self-update: installed " ++
                  manifest.version ++ ", restarting"),()⟩ :: t.2) manifest := by
                refine ⟨base,hbase,hpublished,?_⟩
                rw [hheard]
                simp [exec]
              exact leaves_log.mpr (.replaced hmarker hbase hsaw hpublished hentry hinstalls hdisk)

theorem selfUpdate_same {version releaseURL base : String} {manifest : ReleaseManifest} {s : Course}
    (hurl : releaseURL ≠ "") (hmarker : s.1.marker = false)
    (hbase : releaseBase P releaseURL = .ok base) (hpublished : published P w base = .ok manifest)
    (hversion : manifest.version = "" ∨ manifest.version = version) :
    Leaves (exec w) s (selfUpdate P version releaseURL) (fun _ r => r = .ok false) := by
  have hunset : (exec w s .getenv).2 = "" := by
    simp only [exec,hmarker,Bool.false_eq_true,if_false]
  simp only [selfUpdate,getenv,bind_eq,request_bind,leaves_ask]
  rw [hunset,if_neg (by decide),if_neg (by simp [hurl]),hbase]
  apply leaves_attempt
  rw [run_fetchManifest,hpublished]
  simp only [Bool.or_eq_true,beq_iff_eq,if_pos hversion]
  rfl

variable (P w) in
inductive Answered (busy : List Restart.Snapshot) (version releaseURL : String) (s t : Course) :
    Except String String → Prop
  | refused {e : String} (h : busy ≠ [] ∨ releaseURL = "") :
      Answered busy version releaseURL s t (.error e)
  | already (hbusy : busy = []) (hurl : releaseURL ≠ "")
      (h : Ends P w version releaseURL s t (.ok false)) :
      Answered busy version releaseURL s t (.ok alreadyRunning)
  | upgraded {u : Course} (h : Ends P w version releaseURL s u (.ok true))
      (hdisk : t.1.disk = u.1.disk) (hheard : ∀ x ∈ u.2, x ∈ t.2) :
      Answered busy version releaseURL s t (.ok upgraded)

theorem answered_runUpgrade (busy : List Restart.Snapshot) (version releaseURL : String)
    (s : Course) : Leaves (exec w) s (runUpgrade P busy version releaseURL)
      (Answered P w busy version releaseURL s) := by
  simp only [runUpgrade,bind_eq,pure_eq]
  by_cases hbusy : busy = []
  · subst hbusy
    by_cases hurl : releaseURL = ""
    · subst hurl
      exact .refused (Or.inr rfl)
    · simp only [List.isEmpty_nil,Bool.not_true,Bool.false_eq_true,if_false,beq_iff_eq,hurl]
      apply (ends_selfUpdate version hurl s).bind
      · intro u updated hends
        cases updated with
        | false => exact .already rfl hurl hends
        | true => exact .upgraded hends rfl (fun x hx => List.mem_cons_of_mem _ hx)
      · intro u e hends
        cases hends
  · have hne : (!busy.isEmpty) = true := by simpa using hbusy
    rw [if_pos hne]
    exact .refused (Or.inl hbusy)

theorem truthful_already {a : Answer} (h : a.detail = .ok alreadyRunning) :
    a.Truthful P ↔ ∃ manifest, a.Reads P manifest ∧
      (manifest.version = "" ∨ manifest.version = P.version a.running) := by
  constructor
  · intro htruthful
    rcases htruthful alreadyRunning h with ⟨-,hmanifest⟩ | ⟨hdetail,-⟩
    · exact hmanifest
    · exact absurd hdetail (by decide)
  · intro hmanifest detail hdetail
    exact Or.inl ⟨(Except.ok.inj (h.symm.trans hdetail)).symm,hmanifest⟩

theorem Saw.reads {a : Answer} {s : Course} {manifest : ReleaseManifest}
    (h : Saw P w a.releaseURL s manifest) (hheard : ∀ x ∈ s.2, x ∈ a.heard) :
    a.Reads P manifest := by
  obtain ⟨base,hbase,hpublished,hmem⟩ := h
  obtain ⟨bytes,hget,hmanifest⟩ := published_iff.mp hpublished
  rw [hget] at hmem
  exact ⟨base,bytes,hbase,hheard _ hmem,hmanifest⟩

theorem upgrade_answers (m : Machine) (busy : List Restart.Snapshot) (releaseURL : String) :
    ∃ a, (m.upgrade P busy releaseURL w).answers = a :: m.answers ∧
      (a.Truthful P ↔ Checks P m (.upgrade busy releaseURL w)) := by
  have hanswered := answered_runUpgrade (P := P) (w := w) busy (P.version m.running) releaseURL (m,[])
  have hkept := kept_run (w := w) (runUpgrade P busy (P.version m.running) releaseURL) (m,[])
  simp only [Machine.upgrade]
  rw [Leaves] at hanswered
  rcases hrun : (runUpgrade P busy (P.version m.running) releaseURL).run (exec w) (m,[]) with ⟨t,o⟩
  rw [hrun] at hanswered hkept
  obtain ⟨newer,hnewer,hagree⟩ := hkept.heard
  have hheard : ∀ c x, (⟨.call c,x⟩ : (r : Request) × r.Ans) ∈ t.2 → x = w c := by
    intro c x hx
    rw [hnewer,List.append_nil] at hx
    exact hagree c x hx
  refine ⟨_,by rw [hkept.answers],?_⟩
  cases hanswered with
  | refused h =>
    refine iff_of_true ?_ (h.imp id Or.inl)
    intro detail hdetail
    cases hdetail
  | already hbusy hurl h =>
    rw [truthful_already rfl]
    cases h with
    | @same manifest hmarker hsaw hversion =>
      obtain ⟨base,hbase,hpublished,-⟩ := id hsaw
      refine iff_of_true ⟨manifest,hsaw.reads (fun x hx => hx),hversion⟩ ?_
      exact Or.inr (Or.inr ⟨hmarker,base,manifest,hbase,hpublished,hversion.imp id Or.inl⟩)
    | skipped hmarker hnothing =>
      refine iff_of_false ?_ ?_
      · rintro ⟨manifest,⟨base,bytes,-,hget,-⟩,-⟩
        have hmem : (⟨_,_⟩ : (r : Request) × r.Ans) ∈ t.2 := hget
        rw [hnothing] at hmem
        simp at hmem
      · rintro (hne | hempty | ⟨hunset,-⟩)
        · exact hne hbusy
        · exact hurl hempty
        · rw [hmarker] at hunset
          cases hunset
    | not h =>
      refine iff_of_false ?_ ?_
      · rintro ⟨manifest,hreads,hversion⟩
        obtain ⟨base,hbase,hpublished⟩ := hreads.published hheard
        obtain ⟨hset,hother,-⟩ := h base manifest hbase hpublished
        exact hversion.elim hset hother
      · rintro (hne | hempty | ⟨-,base,manifest,hbase,hpublished,hwhich⟩)
        · exact hne hbusy
        · exact hurl hempty
        · obtain ⟨hset,hother,hno⟩ := h base manifest hbase hpublished
          rcases hwhich with hversion | hversion | ⟨entry,exe,path,tmp,binary,hentry,hinstalls⟩
          · exact hset hversion
          · exact hother hversion
          · exact hno entry exe path tmp binary hentry hinstalls
  | upgraded h hdisk hsub =>
    cases h with
    | @replaced base manifest entry exe path tmp binary hmarker hbase hsaw hpublished hentry
        hinstalls hbinary =>
      refine iff_of_true ?_ (Or.inr (Or.inr ⟨hmarker,base,manifest,hbase,hpublished,
        Or.inr (Or.inr ⟨entry,exe,path,tmp,binary,hentry,hinstalls⟩)⟩))
      intro detail hdetail
      refine Or.inr ⟨(Except.ok.inj hdetail).symm,manifest,entry,hsaw.reads hsub,hentry,?_⟩
      rw [hdisk,hbinary]
      exact hinstalls.checksum

theorem step_answers (m : Machine) (e : Event) :
    ∃ newer, (step P m e).answers = newer ++ m.answers ∧
      ((∀ a ∈ newer, a.Truthful P) ↔ Checks P m e) := by
  have hnone : ∀ n : Machine, n.answers = m.answers → Checks P m e →
      ∃ newer, n.answers = newer ++ m.answers ∧ ((∀ a ∈ newer, a.Truthful P) ↔ Checks P m e) :=
    fun n hn hchecks => ⟨[],hn,iff_of_true (by simp) hchecks⟩
  cases e with
  | start noUpdate source w execWorks =>
    refine hnone _ ?_ trivial
    simp only [step,Machine.start]
    cases noUpdate with
    | true => rfl
    | false =>
      cases source with
      | none => rfl
      | some releaseURL =>
        have hkept := kept_run (w := w) (selfUpdate P (P.version m.disk) releaseURL)
          ({ m with running := m.disk, marker := false, due := false },[])
        simp only
        split
        · split
          · exact hkept.answers
          · exact hkept.answers
        · exact hkept.answers
  | restart busy w => exact hnone _ (kept_run (w := w) (runRestart busy) (m,[])).answers trivial
  | upgrade busy releaseURL w =>
    obtain ⟨a,ha,htruthful⟩ := upgrade_answers (P := P) (w := w) m busy releaseURL
    refine ⟨[a],ha,?_⟩
    rw [List.forall_mem_singleton]
    exact htruthful
  | reexec execWorks =>
    refine hnone _ ?_ trivial
    simp only [step]
    split
    · rfl
    · rfl
  | installed binary => exact hnone _ rfl trivial

theorem run_answers (m : Machine) (events : List Event) :
    (∀ a ∈ (runActs (step P) m events).answers, a.Truthful P) ↔
      (∀ a ∈ m.answers, a.Truthful P) ∧ Along (step P) (Checks P) m events := by
  induction events generalizing m with
  | nil => simp
  | cons e events ih =>
    obtain ⟨newer,hnewer,hchecks⟩ := step_answers (P := P) m e
    rw [runActs_cons,ih,along_cons,hnewer,← hchecks,List.forall_mem_append]
    constructor
    · rintro ⟨⟨hn,hm⟩,halong⟩
      exact ⟨hm,hn,halong⟩
    · rintro ⟨hm,hn,halong⟩
      exact ⟨⟨hn,hm⟩,halong⟩

/-- Every answer of a history is true exactly when every upgrade of it checked something. -/
theorem upgrade_answers_true_iff (P : Platform) (disk : Bytes) (events : List Event) :
    (∀ a ∈ (runActs (step P) (fresh disk) events).answers, a.Truthful P) ↔
      Along (step P) (Checks P) (fresh disk) events := by
  rw [run_answers]
  exact and_iff_right (by simp [fresh])

def demoPlatform : Platform where
  target := "linux_amd64"
  version := fun bytes => if bytes = [1] then "v1" else "v2"
  parse := fun _ => .ok ⟨"https","vault.example","vault.example"⟩
  unmarshal := fun _ => .ok ⟨"v2",[("linux_amd64",⟨"agent","02"⟩)]⟩
  sha256 := fun bytes => if bytes = [1] then "01" else "02"
  dir := fun _ => "/usr/local/bin"

def demoWorld : World
  | .get _ => .ok [2]
  | .executable | .evalSymlinks _ => .ok "/usr/local/bin/weirdvault"
  | .createTemp _ => .ok "/usr/local/bin/.weirdvault-1"
  | .write _ _ | .chmod _ | .close _ | .preserveOwner _ _ | .rename _ _ => .ok ()

def restartThenUpgrade : List Event :=
  [.start true none demoWorld true,.restart [] demoWorld,.reexec true,
    .upgrade [] "https://vault.example/releases" demoWorld]

theorem restarted_agent_misanswers :
    (runActs (step demoPlatform) (fresh [1]) restartThenUpgrade).answers =
        [⟨"https://vault.example/releases",[1],[⟨.getenv,"1"⟩],[1],
          .ok "already running the published build"⟩] ∧
      ¬ ∀ a ∈ (runActs (step demoPlatform) (fresh [1]) restartThenUpgrade).answers,
        a.Truthful demoPlatform := by
  have hanswers : (runActs (step demoPlatform) (fresh [1]) restartThenUpgrade).answers =
      [⟨"https://vault.example/releases",[1],[⟨.getenv,"1"⟩],[1],
        .ok "already running the published build"⟩] := rfl
  refine ⟨hanswers,?_⟩
  intro h
  rw [hanswers,List.forall_mem_singleton,truthful_already rfl] at h
  obtain ⟨manifest,⟨base,bytes,-,hget,-⟩,-⟩ := h
  cases List.mem_singleton.mp hget

end WeirdVault.Agent.Upgrade
