import Mathlib.Data.Set.Finite.Basic
import WeirdVault.Vault.Demo
import WeirdVault.Vault.Readable

/-!
# What a connection does to the saved hosts

`rememberHost` writes its fields over the host that bears the name, the port and the user of the
connection, and of several such hosts over the newest.
-/

namespace WeirdVault.Vault

open WeirdVault.Framework Program

abbrev SavedHosts := Table Host.id

/-- What a connection is made to: under an agent the hostname is a label. -/
structure Endpoint where
  hostname : String
  port : Nat
  username : String
  agentId : Option String
  deriving DecidableEq, Repr

def HostFields.endpoint (f : HostFields) : Endpoint := ⟨f.hostname,f.port,f.username,f.agentId⟩

def ConnectOptions.endpoint (opts : ConnectOptions) : Endpoint := opts.fields.endpoint

def Endpoint.pinKey (p : Endpoint) : String := pinKeyFor p.hostname p.agentId

def Endpoint.names (p : Endpoint) (h : Host) : Bool :=
  h.hostname == p.hostname && h.port == p.port && h.username == p.username

def Host.NamesOther (h : Host) (p : Endpoint) : Prop :=
  pinKeyFor h.hostname h.agentId ≠ p.pinKey ∨ h.port ≠ p.port ∨ h.username ≠ p.username

/-- The saved hosts after a connection against those before: all are there, with their agents, and
those that name other machines as they were. -/
def TouchesOwn (p : Endpoint) (before after : SavedHosts) : Prop :=
  ∀ h ∈ before.rows, ∃ h', after.get? h.id = some h' ∧ h'.agentId = h.agentId ∧
    (h.NamesOther p → h' = h)

/-- A host with the connection's name, port and user than which no such host is newer. -/
structure NewestMatch (t : SavedHosts) (p : Endpoint) (h : Host) : Prop where
  mem : h ∈ t.rows
  names : p.names h = true
  newest : ∀ g ∈ t.rows, p.names g = true → g.createdAt ≤ h.createdAt

section Listing

variable {p : Host → Bool}

private theorem find?_insertionSort_some {l : List Host} {h : Host}
    (hfind : (l.insertionSort (fun a b => b.createdAt ≤ a.createdAt)).find? p = some h) :
    h ∈ l ∧ p h = true ∧ ∀ g ∈ l, p g = true → g.createdAt ≤ h.createdAt := by
  have hsorted : (l.insertionSort (fun a b => b.createdAt ≤ a.createdAt)).Pairwise
      (fun a b => b.createdAt ≤ a.createdAt) := by
    have htotal : Std.Total (fun a b : Host => b.createdAt ≤ a.createdAt) := ⟨fun a b => by omega⟩
    have htrans : IsTrans Host (fun a b => b.createdAt ≤ a.createdAt) := ⟨fun a b c => by omega⟩
    exact List.pairwise_insertionSort _ l
  obtain ⟨hp,pre,post,hl,hpre⟩ := List.find?_eq_some_iff_append.mp hfind
  have hmem : ∀ g, g ∈ l ↔ g ∈ pre ++ h :: post := by
    intro g
    rw [← hl,List.mem_insertionSort]
  refine ⟨(hmem h).mpr (by simp),hp,?_⟩
  intro g hg hpg
  rw [hl] at hsorted
  rcases List.mem_append.mp ((hmem g).mp hg) with hg | hg
  · have hno := hpre g hg
    simp [hpg] at hno
  · rcases List.mem_cons.mp hg with rfl | hg
    · exact le_refl _
    · have htail := (List.pairwise_append.mp hsorted).2.1
      exact (List.pairwise_cons.mp htail).1 g hg

private theorem find?_insertionSort_none {l : List Host}
    (hfind : (l.insertionSort (fun a b => b.createdAt ≤ a.createdAt)).find? p = none) :
    ∀ g ∈ l, p g = false := by
  intro g hg
  have hall := List.find?_eq_none.mp hfind g ((List.mem_insertionSort _).mpr hg)
  simpa using hall

private theorem find?_orderedInsert {l : List Host} {h : Host} (hp : p h = true)
    (hle : ∀ g ∈ l, p g = true → g.createdAt ≤ h.createdAt) :
    (l.orderedInsert (fun a b => b.createdAt ≤ a.createdAt) h).find? p = some h := by
  induction l with
  | nil => simp [hp]
  | cons b l ih =>
    by_cases hb : b.createdAt ≤ h.createdAt
    · rw [List.orderedInsert_cons,if_pos hb,List.find?_cons_of_pos hp]
    · have hno : ¬ p b = true := fun hpb => hb (hle b List.mem_cons_self hpb)
      rw [List.orderedInsert_cons,if_neg hb,List.find?_cons_of_neg hno]
      exact ih (fun g hg => hle g (List.mem_cons_of_mem b hg))

private theorem find?_insertionSort_cons {l : List Host} {h : Host} (hp : p h = true)
    (hle : ∀ g ∈ l, p g = true → g.createdAt ≤ h.createdAt) :
    ((h :: l).insertionSort (fun a b => b.createdAt ≤ a.createdAt)).find? p = some h := by
  rw [List.insertionSort_cons]
  apply find?_orderedInsert hp
  intro g hg
  exact hle g ((List.mem_insertionSort _).mp hg)

end Listing

/-- What one call of `rememberHost` can do, from the host that it found. -/
inductive Rewrites (random : Nat → Prop) (p : Endpoint) (t : SavedHosts) :
    Option Host → SavedHosts → Prop
  | skips : Rewrites random p t none t
  | creates {n : Nat} {record : Host} : random n → record.id = .uuid n → p.names record = true →
      record.agentId = p.agentId → Rewrites random p t none (t.put record)
  | saves {e record : Host} : record.id = e.id → record.createdAt = e.createdAt →
      p.names record = true → record.agentId = p.agentId → Rewrites random p t (some e) (t.put record)

section Rewrites

variable {random : Nat → Prop} {p : Endpoint} {t u v : SavedHosts} {l : List Host}

/-- What a connection has done so far, and what the next call of `rememberHost` will find. -/
structure HostsKept (p : Endpoint) (t u : SavedHosts) : Prop where
  touches : TouchesOwn p t u
  own : ∀ h, NewestMatch u p h → h.agentId = p.agentId

private theorem not_namesOther {h : Host} (hnames : p.names h = true) (hagent : h.agentId = p.agentId) :
    ¬ h.NamesOther p := by
  simp only [Endpoint.names,Bool.and_eq_true,beq_iff_eq] at hnames
  simp [Host.NamesOther,Endpoint.pinKey,hnames,hagent]

private theorem kept_creates {n : Nat} {record : Host} (h : HostsKept p t u)
    (hfresh : ∀ g ∈ t.rows, g.id ≠ .uuid n) (hnone : ∀ g ∈ u.rows, p.names g = false)
    (hid : record.id = .uuid n) (hagent : record.agentId = p.agentId) : HostsKept p t (u.put record) := by
  constructor
  · intro g hg
    have hne : record.id ≠ g.id := fun he => hfresh g hg (he.symm.trans hid)
    rw [Table.get?_put_of_ne u hne]
    exact h.touches g hg
  · intro g hg
    rcases Table.mem_rows_put hg.mem with rfl | hmem
    · exact hagent
    · have hno := hnone g hmem
      rw [hg.names] at hno
      cases hno

private theorem kept_saves {e record : Host} (h : HostsKept p t u) (he : NewestMatch u p e)
    (hid : record.id = e.id) (hcreated : record.createdAt = e.createdAt)
    (hnames : p.names record = true) (hagent : record.agentId = p.agentId) :
    HostsKept p t (u.put record) := by
  have hown := h.own e he
  constructor
  · intro g hg
    obtain ⟨g',hg',hsame,hother⟩ := h.touches g hg
    by_cases hne : record.id = g.id
    · have hge : g' = e := by
        have hget := Table.get?_of_mem he.mem
        rw [← hid,hne,hg'] at hget
        exact Option.some.inj hget
      subst hge
      refine ⟨record,?_,?_,?_⟩
      · rw [← hne,Table.get?_put_self]
      · rw [hagent,← hown,hsame]
      · intro hnot
        have heq := hother hnot
        subst heq
        exact absurd hnot (not_namesOther he.names hown)
    · rw [Table.get?_put_of_ne u hne]
      exact ⟨g',hg',hsame,hother⟩
  · intro g hg
    rcases Table.mem_rows_put hg.mem with rfl | hmem
    · exact hagent
    · apply h.own
      refine ⟨hmem,hg.names,?_⟩
      intro k hk hkn
      have hke := he.newest k hk hkn
      have hrg := hg.newest record (Table.mem_of_get? (Table.get?_put_self u record)) hnames
      omega

theorem kept_rewrites (h : HostsKept p t u) (hfresh : ∀ n, random n → ∀ g ∈ t.rows, g.id ≠ .uuid n)
    (hl : l.Perm u.rows)
    (hr : Rewrites random p u
      ((l.insertionSort (fun a b => b.createdAt ≤ a.createdAt)).find? p.names) v) : HostsKept p t v := by
  rcases hfind : (l.insertionSort (fun a b => b.createdAt ≤ a.createdAt)).find? p.names with _ | e
  · have hnone := find?_insertionSort_none hfind
    rw [hfind] at hr
    cases hr with
    | skips => exact h
    | creates hn hid hnames hagent =>
      exact kept_creates h (hfresh _ hn) (fun g hg => hnone g (hl.mem_iff.mpr hg)) hid hagent
  · obtain ⟨hmem,hnames,hnewest⟩ := find?_insertionSort_some hfind
    have he : NewestMatch u p e :=
      ⟨hl.mem_iff.mp hmem,hnames,fun g hg => hnewest g (hl.mem_iff.mpr hg)⟩
    rw [hfind] at hr
    cases hr with
    | saves hid hcreated hnames hagent => exact kept_saves h he hid hcreated hnames hagent

private theorem agent_rewrites {existing : Option Host} {i : RecordId} {h : Host}
    (hget : u.get? i = some h) (hagent : h.agentId = p.agentId) (hr : Rewrites random p u existing v) :
    ∃ h', v.get? i = some h' ∧ h'.agentId = p.agentId := by
  have hput : ∀ record : Host, record.agentId = p.agentId →
      ∃ h', (u.put record).get? i = some h' ∧ h'.agentId = p.agentId := by
    intro record hrecord
    by_cases hi : record.id = i
    · subst hi
      exact ⟨record,Table.get?_put_self u record,hrecord⟩
    · exact ⟨h,by rw [Table.get?_put_of_ne u hi,hget],hagent⟩
  cases hr with
  | skips => exact ⟨h,hget,hagent⟩
  | creates _ _ _ hrecord => exact hput _ hrecord
  | saves _ _ _ hrecord => exact hput _ hrecord

end Rewrites

variable {acc : Account} (job : Job) (env : Nat → Env)

def savedHosts (a : Alone acc) : SavedHosts := (a.state.device job.device).hosts

/-- The numbers that `crypto.randomUUID` can give in this environment. -/
def Drawn (n : Nat) : Prop := ∃ i, n = (env i).random

section Runs

variable {job env} {a : Alone acc}

private def writesNoHost : Request → Bool
  | .idbPut .hosts _ => false
  | .idbDelete .hosts _ => false
  | _ => true

private theorem savedHosts_exec {r : Request} (h : writesNoHost r = true) :
    savedHosts job (Alone.exec job env a r).1 = savedHosts job a := by
  rw [savedHosts,Alone.exec,device_exec]
  cases r with
  | idbPut st x => cases st <;> first | rfl | cases h
  | idbDelete st i => cases st <;> first | rfl | cases h
  | vaultPut c v => cases c <;> rfl
  | _ => rfl

private theorem savedHosts_put (h : Host) :
    savedHosts job (Alone.exec job env a (.idbPut .hosts h)).1 = (savedHosts job a).put h := by
  rw [savedHosts,Alone.exec,device_exec]
  rfl

def found (l : List Host) (p : Endpoint) : Option Host :=
  (l.insertionSort (fun a b => b.createdAt ≤ a.createdAt)).find? p.names

def Rewrote (env : Nat → Env) (p : Endpoint) (t u : SavedHosts) : Prop :=
  ∃ i, Rewrites (Drawn env) p t (found (arrange t.rows ((env i).listing .hosts)) p) u

private theorem leaves_rememberHost (f : HostFields) (create : Bool) :
    Leaves (Alone.exec job env) a (rememberHost f create) (fun a' o => (∃ x, o = .ok x) ∧
      Rewrote env f.endpoint (savedHosts job a) (savedHosts job a')) := by
  suffices h : Leaves (Alone.exec job env) a (rememberHost f create) (fun a' o => (∃ x, o = .ok x) ∧
      Rewrites (Drawn env) f.endpoint (savedHosts job a)
        (found (Alone.exec job env a (.idbGetAll .hosts)).2 f.endpoint) (savedHosts job a')) from
    h.mono (fun _ _ hr => ⟨hr.1,a.asked,hr.2⟩)
  have hnames : f.endpoint.names = f.names := rfl
  simp only [rememberHost,listHosts,query,bind_eq,pure_eq,request_bind,ask_bind,done_bind,leaves_ask,
    found,hnames]
  rcases hfind : ((Alone.exec job env a (.idbGetAll .hosts)).2.insertionSort
      (fun a b => b.createdAt ≤ a.createdAt)).find? f.names with _ | e
  · cases create with
    | false =>
      simp only [hfind,Option.isNone_none,Bool.not_false,Bool.and_true,if_true,leaves_done]
      refine ⟨⟨_,rfl⟩,?_⟩
      rw [savedHosts_exec rfl]
      exact .skips
    | true =>
      simp only [hfind,Option.isNone_none,Bool.not_true,Bool.and_false,Bool.false_eq_true,if_false,
        saveHost,HostFields.draft,Option.map_none,orElse,freshId,query,bind_eq,pure_eq,request_bind,
        ask_bind,done_bind,leaves_ask,leaves_done]
      refine ⟨⟨_,rfl⟩,?_⟩
      rw [savedHosts_put]
      exact .creates ⟨_,rfl⟩ rfl (by simp [Endpoint.names,HostFields.endpoint]) rfl
  · simp only [hfind,Option.isNone_some,Bool.false_and,Bool.false_eq_true,if_false,saveHost,
      HostFields.draft,Option.map_some,orElse,query,bind_eq,pure_eq,request_bind,ask_bind,
      done_bind,leaves_ask,leaves_done]
    refine ⟨⟨_,rfl⟩,?_⟩
    rw [savedHosts_put]
    exact .saves rfl rfl (by simp [Endpoint.names,HostFields.endpoint]) rfl

private theorem leaves_recordHostKey (opts : ConnectOptions) (seen : Option HostKeyInfo) :
    Leaves (Alone.exec job env) a (recordHostKey opts seen) (fun a' o => o = .ok () ∧
      savedHosts job a' = savedHosts job a) := by
  have htouch : Leaves (Alone.exec job env) a (touchPin opts.pinKey opts.port)
      (fun a' o => o = .ok () ∧ savedHosts job a' = savedHosts job a) := by
    simp only [touchPin,getPin,query,bind_eq,request_bind,leaves_ask]
    rcases (Alone.exec job env a (.idbGet .hostkeys (.address opts.pinKey opts.port))).2 with _ | pin
    · exact ⟨rfl,savedHosts_exec rfl⟩
    · exact ⟨rfl,savedHosts_exec rfl⟩
  cases seen with
  | none => exact htouch
  | some info =>
    by_cases hu : info.status = .unknown
    · simp only [recordHostKey,hu,if_true,Vault.pin,query,bind_eq,pure_eq,request_bind,ask_bind,
        done_bind,leaves_ask,leaves_done]
      exact ⟨trivial,savedHosts_exec rfl⟩
    · simpa only [recordHostKey,hu,if_false] using htouch

/-- There is a key or a password to try. -/
def ConnectOptions.authenticates (opts : ConnectOptions) : Bool :=
  !(opts.keyId.isNone && (opts.password.getD "" == ""))

/-- Some handshake of the environment fails against the pin that the device holds. -/
private def HandshakeFails (opts : ConnectOptions) (job : Job) (env : Nat → Env) (a : Alone acc) :
    Prop :=
  ∃ i, (handshake (env i) (((a.state.device job.device).hostkeys.get? opts.pinId).map
    PinnedHostKey.key)).failure ≠ none

private theorem leaves_openSession (opts : ConnectOptions) :
    Leaves (Alone.exec job env) a (openSession opts) (fun a' o =>
      (o = .ok () ∧ opts.authenticates = true ∧
        Rewrote env opts.endpoint (savedHosts job a) (savedHosts job a')) ∨
      ((∃ e, o = .error e) ∧ savedHosts job a' = savedHosts job a ∧
        (opts.authenticates = false ∨ HandshakeFails opts job env a))) := by
  by_cases hauth : (opts.keyId.isNone && (opts.password.getD "" == "")) = true
  · simp only [openSession,hauth,if_true]
    exact Or.inr ⟨⟨_,rfl⟩,rfl,Or.inl (by simp [ConnectOptions.authenticates,hauth])⟩
  · simp only [openSession,hauth,Bool.false_eq_true,if_false,getPin,query,bind_eq,pure_eq,
      request_bind,leaves_ask]
    rcases hfail : (Alone.exec job env
        (Alone.exec job env a (.idbGet .hostkeys (.address opts.pinKey opts.port))).1
        (.connect ((Alone.exec job env a (.idbGet .hostkeys (.address opts.pinKey opts.port))).2.map
          PinnedHostKey.key))).2.failure with _ | message
    · dsimp only
      refine (leaves_recordHostKey opts _).bind ?_ ?_
      · intro b _ hb
        refine (leaves_rememberHost opts.fields opts.save).bind ?_ ?_
        · intro c _ hc
          apply Or.inl
          refine ⟨rfl,by rw [ConnectOptions.authenticates,Bool.eq_false_iff.mpr hauth]; rfl,?_⟩
          have hrewrote := hc.2
          rw [hb.2] at hrewrote
          exact hrewrote
        · intro c e hc
          obtain ⟨x,hx⟩ := hc.1
          cases hx
      · intro b e hb
        cases hb.1
    · dsimp only
      refine Or.inr ⟨⟨_,rfl⟩,rfl,Or.inr ⟨a.asked+1,?_⟩⟩
      intro hnone
      have hsame : (some message : Option String) = none := hfail.symm.trans hnone
      cases hsame

/-- The host was recorded once or twice, or the connection got nowhere. -/
private def Wrote (opts : ConnectOptions) (job : Job) (env : Nat → Env) (a a' : Alone acc) : Prop :=
  (opts.authenticates = true ∧ ∃ t, Rewrote env opts.endpoint (savedHosts job a) t ∧
    (savedHosts job a' = t ∨ Rewrote env opts.endpoint t (savedHosts job a'))) ∨
  (savedHosts job a' = savedHosts job a ∧
    (opts.authenticates = false ∨ HandshakeFails opts job env a))

private theorem leaves_connectAndInstallKey (opts : ConnectOptions) (keyId : RecordId) :
    Leaves (Alone.exec job env) a (Vault.connectAndInstallKey opts keyId)
      (fun a' _ => Wrote { opts with keyId := none } job env a a') := by
  simp only [Vault.connectAndInstallKey,bind_eq]
  refine (leaves_openSession { opts with keyId := none }).bind ?_ ?_
  · intro b _ hb
    rcases hb with ⟨-,hauth,hb⟩ | ⟨⟨e,he⟩,-⟩
    · simp only [query,request_bind,leaves_ask]
      have hsame : savedHosts job (Alone.exec job env b .installKey).1 = savedHosts job b :=
        savedHosts_exec rfl
      rcases (Alone.exec job env b .installKey).2 with _ | message
      · refine (leaves_rememberHost _ false).bind ?_ ?_
        · intro c _ hc
          rw [hsame] at hc
          exact Or.inl ⟨hauth,_,hb,Or.inr hc.2⟩
        · intro c e hc
          obtain ⟨x,hx⟩ := hc.1
          cases hx
      · exact Or.inl ⟨hauth,_,hb,Or.inl hsame⟩
    · cases he
  · intro b e hb
    rcases hb with ⟨he,-⟩ | ⟨-,hsame,hwhy⟩
    · cases he
    · exact Or.inr ⟨hsame,hwhy⟩

end Runs

/-- The options that the job opens its session with, if it connects. -/
def Job.connection? : Job → Option ConnectOptions
  | .connect _ opts => some opts
  | .connectAndInstallKey _ opts _ => some { opts with keyId := none }
  | _ => none

/-- `crypto.randomUUID` gives no id that a saved host has. -/
def FreshIds (env : Nat → Env) (t : SavedHosts) : Prop :=
  ∀ n, Drawn env n → ∀ h ∈ t.rows, h.id ≠ .uuid n

section Connections

variable {job env} {opts : ConnectOptions} {s : State acc}

private theorem alone_wrote (hjob : job.connection? = some opts) :
    Wrote opts job env ⟨s,0⟩ (job.alone env s).1 := by
  cases job with
  | connect d o =>
    obtain rfl := Option.some.inj hjob
    have hleaves : Leaves (Alone.exec (.connect d o) env) ⟨s,0⟩ ((Job.connect d o).code acc)
        (fun a' _ => Wrote o (.connect d o) env ⟨s,0⟩ a') := by
      refine (leaves_openSession o).bind ?_ ?_
      · intro b _ hb
        rcases hb with ⟨-,hauth,hb⟩ | ⟨⟨e,he⟩,-⟩
        · exact Or.inl ⟨hauth,_,hb,Or.inl rfl⟩
        · cases he
      · intro b e hb
        rcases hb with ⟨he,-⟩ | ⟨-,hb⟩
        · cases he
        · exact Or.inr hb
    exact hleaves
  | connectAndInstallKey d o keyId =>
    obtain rfl := Option.some.inj hjob
    have hleaves : Leaves (Alone.exec (.connectAndInstallKey d o keyId) env) ⟨s,0⟩
        ((Job.connectAndInstallKey d o keyId).code acc)
        (fun a' _ => Wrote { o with keyId := none } (.connectAndInstallKey d o keyId) env ⟨s,0⟩ a') := by
      refine (leaves_connectAndInstallKey o keyId).bind ?_ ?_
      · intro b _ hb
        exact hb
      · intro b e hb
        exact hb
    exact hleaves
  | _ => cases hjob

private theorem kept_self {p : Endpoint} {t : SavedHosts}
    (h : ∀ g, NewestMatch t p g → g.agentId = p.agentId) : HostsKept p t t := by
  refine ⟨?_,h⟩
  intro g hg
  exact ⟨g,Table.get?_of_mem hg,rfl,fun _ => rfl⟩

private theorem kept_rewrote {p : Endpoint} {t u v : SavedHosts} (h : HostsKept p t u)
    (hfresh : FreshIds env t) (hr : Rewrote env p u v) : HostsKept p t v := by
  obtain ⟨i,hr⟩ := hr
  exact kept_rewrites h hfresh (arrange_perm _ _) hr

private theorem touchesOwn_of_own (hjob : job.connection? = some opts)
    (hfresh : FreshIds env (s.device job.device).hosts)
    (hown : ∀ h, NewestMatch (s.device job.device).hosts opts.endpoint h → h.agentId = opts.agentId) :
    TouchesOwn opts.endpoint (s.device job.device).hosts (savedHosts job (job.alone env s).1) := by
  have hself := kept_self (p := opts.endpoint) hown
  have hwrote : Wrote opts job env ⟨s,0⟩ (job.alone env s).1 := alone_wrote hjob
  rcases hwrote with ⟨-,u,hu,heq | hv⟩ | ⟨heq,-⟩
  · rw [heq]
    exact (kept_rewrote hself hfresh hu).touches
  · exact (kept_rewrote (kept_rewrote hself hfresh hu) hfresh hv).touches
  · rw [heq]
    exact hself.touches

private theorem exists_unused (t : SavedHosts) : ∃ n, ∀ h ∈ t.rows, h.id ≠ .uuid n := by
  have hinjective : Function.Injective RecordId.uuid := fun _ _ he => RecordId.uuid.inj he
  obtain ⟨i,hi,hnot⟩ := (Set.infinite_range_of_injective hinjective).exists_notMem_finset
    (t.rows.map Host.id).toFinset
  obtain ⟨n,rfl⟩ := hi
  refine ⟨n,?_⟩
  intro h hh he
  exact hnot (List.mem_toFinset.mpr (List.mem_map.mpr ⟨h,hh,he⟩))

/-- An environment in which the host is listed first and the connection succeeds: the server
presents the key that is pinned, if one is. -/
private def listingFirst (h : Host) (t : SavedHosts) (known : Option HostKey) (n : Nat) : Env where
  now := 0
  random := n
  listing
    | .hosts => h :: t.rows.erase h
    | _ => []
  network := .delivered
  presented := some ⟨known.getD ⟨"key",by decide⟩,"",""⟩
  failure := none

private theorem listingFirst_succeeds (h : Host) (t : SavedHosts) (known : Option HostKey) (n : Nat) :
    (handshake (listingFirst h t known n) known).failure = none := by
  cases known with
  | none => rfl
  | some key => simp [handshake,listingFirst,hostKeyCallback]

private theorem found_listingFirst {h : Host} {t : SavedHosts} {p : Endpoint} (hh : NewestMatch t p h)
    (known : Option HostKey) (n : Nat) :
    found (arrange t.rows ((listingFirst h t known n).listing .hosts)) p = some h := by
  have hperm : (h :: t.rows.erase h).Perm t.rows := (List.perm_cons_erase hh.mem).symm
  have harrange : arrange t.rows ((listingFirst h t known n).listing .hosts) = h :: t.rows.erase h :=
    if_pos hperm
  rw [harrange]
  apply find?_insertionSort_cons hh.names
  intro g hg hgn
  exact hh.newest g (List.mem_of_mem_erase hg) hgn

private theorem agent_taken (hjob : job.connection? = some opts)
    (hauth : opts.authenticates = true) {h : Host}
    (hh : NewestMatch (s.device job.device).hosts opts.endpoint h) (n : Nat) :
    let known := ((s.device job.device).hostkeys.get? opts.pinId).map PinnedHostKey.key
    let env := fun _ => listingFirst h (s.device job.device).hosts known n
    ∃ h', (savedHosts job (job.alone env s).1).get? h.id = some h' ∧ h'.agentId = opts.agentId := by
  intro known env
  have hfirst : ∀ u, Rewrote env opts.endpoint (s.device job.device).hosts u →
      ∃ h', u.get? h.id = some h' ∧ h'.agentId = opts.agentId := by
    intro u hu
    obtain ⟨i,hu⟩ := hu
    rw [found_listingFirst hh known n] at hu
    cases hu with
    | saves hid _ _ hagent => exact ⟨_,by rw [← hid,Table.get?_put_self],hagent⟩
  have hwrote : Wrote opts job env ⟨s,0⟩ (job.alone env s).1 := alone_wrote hjob
  rcases hwrote with ⟨-,u,hu,heq | hv⟩ | ⟨-,hno | ⟨i,hno⟩⟩
  · rw [heq]
    exact hfirst u hu
  · obtain ⟨h',hget,hagent⟩ := hfirst u hu
    obtain ⟨i,hv⟩ := hv
    exact agent_rewrites hget hagent hv
  · rw [hauth] at hno
    cases hno
  · exact absurd (listingFirst_succeeds h _ known n) hno

/-- A connection keeps to the record of its own machine exactly if the newest of the saved hosts
that bear its name, port and user are reached through the same agent. -/
theorem touchesOwn_iff (hjob : job.connection? = some opts) (s : State acc) :
    (∀ env, FreshIds env (s.device job.device).hosts →
      TouchesOwn opts.endpoint (s.device job.device).hosts
        ((job.alone env s).1.state.device job.device).hosts) ↔
      opts.authenticates = false ∨
        ∀ h, NewestMatch (s.device job.device).hosts opts.endpoint h → h.agentId = opts.agentId := by
  constructor
  · intro h
    by_cases hauth : opts.authenticates = false
    · exact Or.inl hauth
    · apply Or.inr
      intro g hg
      obtain ⟨n,hn⟩ := exists_unused (s.device job.device).hosts
      obtain ⟨g',hget,hagent⟩ := agent_taken hjob (by simpa using hauth) hg n
      have hfresh : FreshIds (fun _ => listingFirst g (s.device job.device).hosts
          (((s.device job.device).hostkeys.get? opts.pinId).map PinnedHostKey.key) n)
          (s.device job.device).hosts := by
        intro m hm
        obtain ⟨i,rfl⟩ := hm
        exact hn
      obtain ⟨g'',hget',hsame,-⟩ := h _ hfresh g hg.mem
      have heq : g' = g'' := Option.some.inj (hget.symm.trans hget')
      rw [← hsame,← heq,hagent]
  · intro h env hfresh
    rcases h with hauth | hown
    · have hwrote : Wrote opts job env ⟨s,0⟩ (job.alone env s).1 := alone_wrote hjob
      rcases hwrote with ⟨hno,-⟩ | ⟨heq,-⟩
      · rw [hauth] at hno
        cases hno
      · intro g hg
        have hget := (congrArg (fun t => t.get? g.id) heq).trans (Table.get?_of_mem hg)
        exact ⟨g,hget,rfl,fun _ => rfl⟩
    · exact touchesOwn_of_own hjob hfresh hown

end Connections

/-- A machine behind an agent, under a label that is another machine's address. -/
def labelledHost : Host :=
  ⟨.uuid 1,"router","192.168.1.1",22,"root",some .key,none,some "agent-1",none,none,1,none,some 1⟩

def labelledState : State demoAccount :=
  demoState (fun _ => { LocalDb.fresh with hosts := (Table.empty _).put labelledHost }) none

def dialled : ConnectOptions := ⟨"192.168.1.1",22,"root",none,none,some "secret",false⟩

private def firstContact : Nat → Env := fun _ =>
  { demoEnv with presented := some ⟨⟨"key",by decide⟩,"fingerprint","ssh-ed25519"⟩ }

/-- The saved machine is no longer reached through its agent. -/
theorem labelled_host_rewired :
    FreshIds firstContact (labelledState.device 0).hosts ∧
      ((Job.connect 0 dialled).alone firstContact labelledState).2 = .ok .done ∧
      ¬ TouchesOwn dialled.endpoint (labelledState.device 0).hosts
        (((Job.connect 0 dialled).alone firstContact labelledState).1.state.device 0).hosts := by
  have hran : ((Job.connect 0 dialled).alone firstContact labelledState).2 = .ok .done ∧
      ((((Job.connect 0 dialled).alone firstContact labelledState).1.state.device 0).hosts.get?
        (.uuid 1)).map Host.agentId = some none := by
    decide +kernel
  refine ⟨?_,hran.1,?_⟩
  · intro n hn h hh
    obtain ⟨i,rfl⟩ := hn
    obtain rfl : h = labelledHost := List.mem_singleton.mp hh
    exact (by decide : labelledHost.id ≠ .uuid 7)
  intro h
  obtain ⟨h',hget,hagent,-⟩ := h labelledHost (by decide)
  have hlost := hran.2
  rw [show RecordId.uuid 1 = labelledHost.id from rfl,hget] at hlost
  have hnone : h'.agentId = none := Option.some.inj hlost
  rw [hnone] at hagent
  cases hagent

/-- Through its agent, the machine can be dialled. -/
theorem touchesOwn_iff_through_agent :
    (Job.connectAndInstallKey 0 { dialled with agentId := some "agent-1" } (.uuid 5)).connection? =
        some { dialled with agentId := some "agent-1" } ∧
      ∀ env, FreshIds env (labelledState.device 0).hosts →
        TouchesOwn { dialled with agentId := some "agent-1" }.endpoint
          (labelledState.device 0).hosts
          (((Job.connectAndInstallKey 0 { dialled with agentId := some "agent-1" } (.uuid 5)).alone
            env labelledState).1.state.device 0).hosts := by
  have hdials : (Job.connectAndInstallKey 0 { dialled with agentId := some "agent-1" }
      (.uuid 5)).connection? = some { dialled with agentId := some "agent-1" } := rfl
  refine ⟨hdials,(touchesOwn_iff hdials labelledState).mpr (Or.inr ?_)⟩
  intro h hh
  obtain rfl : h = labelledHost := List.mem_singleton.mp hh.mem
  rfl

end WeirdVault.Vault
