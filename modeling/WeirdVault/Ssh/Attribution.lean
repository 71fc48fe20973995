import Mathlib.Data.List.Induction
import WeirdVault.Ssh.Config

/-!
# Whose settings a host is imported with

What the file says, section by section, beside what `parseSSHConfig` makes of it with its one
pointer to the host under way.
-/

namespace WeirdVault.Ssh

open WeirdVault.Framework

abbrev Settings := List (Text × Text)

/-- What settings stand under: nothing yet, `Host *`, a host, a pattern, or `Match`. -/
inductive Header where
  | top
  | every
  | concrete (name : Text)
  | pattern
  | conditional
  deriving DecidableEq

structure Section where
  header : Header
  settings : Settings
  deriving DecidableEq

def headerOf (value : Text) : Header :=
  if value.any isPattern then (if value = star then .every else .pattern)
  else match fields value with
    | [] => .pattern
    | name :: _ => .concrete name

def sections (header : Header) (settings : Settings) : List (Text × Text) → List Section
  | [] => [⟨header,settings⟩]
  | (key,value) :: ds =>
    if equalFold key "host".toList then ⟨header,settings⟩ :: sections (headerOf value) [] ds
    else if key.map toLower = "match".toList then ⟨header,settings⟩ :: sections .conditional [] ds
    else sections header (settings ++ [(key,value)]) ds

def sectionsOf (text : Text) : List Section := sections .top [] (directives text)

def values (key : String) (settings : Settings) : List Text :=
  settings.filterMap fun d => if d.1.map toLower = key.toList then some d.2 else none

def given (key : String) (settings : Settings) : Text := (values key settings).getLast?.getD []

def givenPort (settings : Settings) : Nat :=
  ((values "port" settings).filterMap portOf).getLast?.getD 0

def resolve (name : Text) (own defaults : Settings) : ConfigHost where
  Alias := name
  HostName := orElse (given "hostname" own) name
  User := orElse (given "user" own) (given "user" defaults)
  Port :=
    let port := if givenPort own = 0 then givenPort defaults else givenPort own
    if port = 0 then 22 else port
  IdentityFile := orElse (given "identityfile" own) (given "identityfile" defaults)
  ProxyJump := given "proxyjump" own

/-- The hosts of the file, with the defaults that stand before a section. -/
def expected (defaults : Settings) : List Section → List ConfigHost
  | [] => []
  | s :: ss =>
    match s.header with
    | .top | .every => expected (defaults ++ s.settings) ss
    | .concrete name => resolve name s.settings defaults :: expected defaults ss
    | .pattern | .conditional => expected defaults ss

def startsConditional (ss : List Section) : Bool := ss.head?.any (·.header = .conditional)

def behind : List Section → Settings
  | [] => []
  | s :: ss => if s.header = .conditional then s.settings ++ behind ss else []

/-- `Host *` before the next `Host` line or the end, with nothing in between. -/
def bare : List Section → Nat
  | [] => 0
  | s :: ss =>
    (if s.header = .every ∧ s.settings = [] ∧ startsConditional ss = false then 1 else 0)+bare ss

/-- A host's section, the `Match` sections right behind it, all that was set before outside of any
of these two, and the part of it that makes defaults. -/
structure Block where
  name : Text
  own : Settings
  behind : Settings
  outside : Settings
  defaults : Settings

/-- `inside` says that a `Match` section would stand right behind a host's. -/
def blocks (inside : Bool) (outside defaults : Settings) : List Section → List Block
  | [] => []
  | s :: ss =>
    match s.header with
    | .top | .every => blocks false (outside ++ s.settings) (defaults ++ s.settings) ss
    | .concrete name =>
      ⟨name,s.settings,Ssh.behind ss,outside,defaults⟩ :: blocks true outside defaults ss
    | .pattern => blocks false (outside ++ s.settings) defaults ss
    | .conditional =>
      if inside then blocks true outside defaults ss
      else blocks false (outside ++ s.settings) defaults ss

/-- What is set behind and outside changes nothing of the host. -/
def Block.Unmixed (b : Block) : Prop :=
  resolve b.name (b.own ++ b.behind) b.outside = resolve b.name b.own b.defaults

instance (b : Block) : Decidable b.Unmixed := inferInstanceAs (Decidable (_ = _))

def ConfigHost.setAll (host : ConfigHost) (settings : Settings) : ConfigHost :=
  settings.foldl (fun host d => host.set d.1 d.2) host

private theorem values_append (key : String) (settings : Settings) (d : Text × Text) :
    values key (settings ++ [d]) =
      values key settings ++ if d.1.map toLower = key.toList then [d.2] else [] := by
  rw [values,List.filterMap_append,values]
  congr 1
  by_cases hd : d.1.map toLower = key.toList
  · simp only [List.filterMap_cons,List.filterMap_nil,if_pos hd]
  · simp only [List.filterMap_cons,List.filterMap_nil,if_neg hd]

private theorem given_append (key : String) (settings : Settings) (d : Text × Text) :
    given key (settings ++ [d]) =
      if d.1.map toLower = key.toList then d.2 else given key settings := by
  rw [given,values_append]
  split
  · rw [List.getLast?_append_of_ne_nil _ (by simp)]
    rfl
  · rw [List.append_nil,given]

private theorem givenPort_append (settings : Settings) (d : Text × Text) :
    givenPort (settings ++ [d]) =
      if d.1.map toLower = "port".toList then (portOf d.2).getD (givenPort settings)
      else givenPort settings := by
  rw [givenPort,values_append]
  split
  · rw [List.filterMap_append]
    cases hport : portOf d.2 with
    | none => rw [List.filterMap_cons_none hport,List.filterMap_nil,List.append_nil]; rfl
    | some n =>
      rw [List.filterMap_cons_some hport,List.getLast?_append_of_ne_nil _ (by simp)]
      rfl
  · rw [List.append_nil,givenPort]

private theorem set_fields (host : ConfigHost) (key value : Text) :
    host.set key value = ⟨host.Alias,
      if key.map toLower = "hostname".toList then value else host.HostName,
      if key.map toLower = "user".toList then value else host.User,
      if key.map toLower = "port".toList then (portOf value).getD host.Port else host.Port,
      if key.map toLower = "identityfile".toList then value else host.IdentityFile,
      if key.map toLower = "proxyjump".toList then value else host.ProxyJump⟩ := by
  simp only [ConfigHost.set]
  generalize key.map toLower = k
  by_cases hhostname : k = "hostname".toList
  · subst hhostname
    rfl
  · by_cases huser : k = "user".toList
    · subst huser
      rfl
    · by_cases hport : k = "port".toList
      · subst hport
        rfl
      · by_cases hidentity : k = "identityfile".toList
        · subst hidentity
          rfl
        · by_cases hjump : k = "proxyjump".toList
          · subst hjump
            rfl
          · simp only [if_neg hhostname,if_neg huser,if_neg hport,if_neg hidentity,if_neg hjump]

theorem ConfigHost.setAll_append (host : ConfigHost) (settings : Settings) (d : Text × Text) :
    host.setAll (settings ++ [d]) = (host.setAll settings).set d.1 d.2 := by
  rw [setAll,List.foldl_append]
  rfl

theorem setAll_eq (name : Text) (settings : Settings) :
    (ConfigHost.named name).setAll settings =
      ⟨name,given "hostname" settings,given "user" settings,givenPort settings,
        given "identityfile" settings,given "proxyjump" settings⟩ := by
  induction settings using List.reverseRecOn with
  | nil => rfl
  | append_singleton settings d ih =>
    rw [ConfigHost.setAll_append,ih,set_fields]
    simp only [given_append,givenPort_append]

theorem completed_setAll (name : Text) (own defaults : Settings) :
    ((ConfigHost.named name).setAll own).completed ((ConfigHost.named []).setAll defaults) =
      resolve name own defaults := by
  rw [setAll_eq,setAll_eq]
  rfl

def closed (current : Option (Text × Settings)) (outside : Settings) : List ConfigHost :=
  match current with
  | none => []
  | some (name,own) => [resolve name own outside]

def opened (value : Text) : Option (Text × Settings) :=
  match headerOf value with
  | .every => some (star,[])
  | .concrete name => some (name,[])
  | _ => none

def added (key value : Text) : Settings :=
  if key.map toLower = "match".toList then [] else [(key,value)]

/-- The hosts still to come, with the settings of the host under way and those taken for defaults. -/
def remaining (current : Option (Text × Settings)) (outside : Settings) :
    List (Text × Text) → List ConfigHost
  | [] => closed current outside
  | (key,value) :: ds =>
    if equalFold key "host".toList then closed current outside ++ remaining (opened value) outside ds
    else
      match current with
      | none => remaining none (outside ++ added key value) ds
      | some (name,own) =>
        if name = star then remaining none (outside ++ added key value) ds
        else remaining (some (name,own ++ added key value)) outside ds

private theorem remaining_host {key value : Text} (h : equalFold key "host".toList)
    (current : Option (Text × Settings)) (outside : Settings) (ds : List (Text × Text)) :
    remaining current outside ((key,value) :: ds) =
      closed current outside ++ remaining (opened value) outside ds := by
  cases current with
  | none => rw [remaining,if_pos h]
  | some c => rw [remaining,if_pos h]

def Reader.of (hosts : List ConfigHost) (current : Option (Text × Settings)) (outside : Settings) :
    Reader :=
  ⟨hosts,current.map fun c => (ConfigHost.named c.1).setAll c.2,(ConfigHost.named []).setAll outside⟩

private theorem flush_of (hosts : List ConfigHost) (current : Option (Text × Settings))
    (outside : Settings) :
    (Reader.of hosts current outside).flush = .of (hosts ++ closed current outside) none outside := by
  cases current with
  | none => simp [Reader.of,Reader.flush,closed]
  | some c =>
    simp only [Reader.of,Reader.flush,Option.map_some,closed,completed_setAll]
    rfl

private theorem set_match (host : ConfigHost) {key : Text} (h : key.map toLower = "match".toList)
    (value : Text) : host.set key value = host := by
  rw [set_fields,h]
  rfl

private theorem setAll_added (host : ConfigHost) (settings : Settings) (key value : Text) :
    (host.setAll settings).set key value = host.setAll (settings ++ added key value) := by
  rw [added]
  split
  · rename_i hmatch
    rw [set_match _ hmatch,List.append_nil]
  · rw [ConfigHost.setAll_append]

private theorem step_of {hosts : List ConfigHost} {current : Option (Text × Settings)}
    {outside : Settings} {key value : Text} {r : Reader}
    (h : (Reader.of hosts current outside).step (key,value) = some r) :
    ∃ hosts' current' outside', r = .of hosts' current' outside' ∧ ∀ ds,
      hosts ++ remaining current outside ((key,value) :: ds) =
        hosts' ++ remaining current' outside' ds := by
  rw [Reader.step] at h
  dsimp only at h
  by_cases hhost : equalFold key "host".toList
  · rw [if_pos hhost,flush_of] at h
    refine ⟨hosts ++ closed current outside,opened value,outside,?_,?_⟩
    · rw [opened,headerOf]
      by_cases hpattern : value.any isPattern
      · rw [if_pos hpattern] at h ⊢
        obtain rfl := Option.some.inj h
        by_cases hstar : value = star
        · rw [if_pos hstar,if_pos hstar]
          rfl
        · rw [if_neg hstar,if_neg hstar]
      · rw [if_neg hpattern] at h ⊢
        cases hfields : fields value with
        | nil =>
          rw [hfields] at h
          cases h
        | cons name rest =>
          rw [hfields] at h
          obtain rfl := Option.some.inj h
          rfl
    · intro ds
      rw [remaining_host hhost,List.append_assoc]
  · rw [if_neg hhost] at h
    cases current with
    | none =>
      obtain rfl := Option.some.inj h
      refine ⟨hosts,none,outside ++ added key value,?_,?_⟩
      · exact congrArg (Reader.mk hosts none) (setAll_added _ outside key value)
      · intro ds
        rw [remaining,if_neg hhost]
    | some c =>
      obtain ⟨name,own⟩ := c
      have hname : ((ConfigHost.named name).setAll own).Alias = name := by rw [setAll_eq]
      simp only [Reader.of,Option.map_some,hname] at h
      by_cases hstar : name = star
      · rw [if_pos hstar] at h
        obtain rfl := Option.some.inj h
        refine ⟨hosts,none,outside ++ added key value,?_,?_⟩
        · exact congrArg (Reader.mk hosts none) (setAll_added _ outside key value)
        · intro ds
          rw [remaining,if_neg hhost]
          simp only [if_pos hstar]
      · rw [if_neg hstar] at h
        obtain rfl := Option.some.inj h
        refine ⟨hosts,some (name,own ++ added key value),outside,?_,?_⟩
        · rw [setAll_added (ConfigHost.named name) own key value]
          rfl
        · intro ds
          rw [remaining,if_neg hhost]
          simp only [if_neg hstar]

private theorem foldlM_of {ds : List (Text × Text)} {hosts : List ConfigHost}
    {current : Option (Text × Settings)} {outside : Settings} {r : Reader}
    (h : ds.foldlM Reader.step (.of hosts current outside) = some r) :
    r.flush.hosts = hosts ++ remaining current outside ds := by
  induction ds generalizing hosts current outside with
  | nil =>
    obtain rfl := Option.some.inj h
    rw [flush_of]
    rfl
  | cons d ds ih =>
    rw [List.foldlM_cons] at h
    obtain ⟨r',hstep,hrest⟩ := Option.bind_eq_some_iff.mp h
    obtain ⟨hosts',current',outside',rfl,hsame⟩ := step_of hstep
    rw [ih hrest]
    exact (hsame ds).symm

theorem hosts_eq_remaining {text : Text} {hosts : List ConfigHost}
    (h : parseSSHConfig text = .hosts hosts) : hosts = remaining none [] (directives text) := by
  rw [parseSSHConfig] at h
  cases hrun : (directives text).foldlM Reader.step ⟨[],none,.named []⟩ with
  | none =>
    rw [hrun] at h
    cases h
  | some r =>
    rw [hrun] at h
    dsimp only at h
    split at h
    · cases h
    · cases h
      have hstart : (directives text).foldlM Reader.step (.of [] none []) = some r := hrun
      exact foldlM_of hstart

def imported (inside : Bool) (outside : Settings) : List Section → List ConfigHost
  | [] => []
  | s :: ss =>
    match s.header with
    | .top | .pattern => imported false (outside ++ s.settings) ss
    | .every =>
      if s.settings = [] ∧ startsConditional ss = false then
        resolve star [] outside :: imported false outside ss
      else imported false (outside ++ s.settings) ss
    | .concrete name => resolve name (s.settings ++ behind ss) outside :: imported true outside ss
    | .conditional =>
      if inside then imported true outside ss else imported false (outside ++ s.settings) ss

def Shared (inside : Bool) (header : Header) (settings : Settings) : Prop :=
  header = .top ∨ header = .pattern ∨ header = .every ∧ settings ≠ [] ∨
    header = .conditional ∧ inside = false

private theorem imported_shared {inside : Bool} {header : Header} {settings : Settings}
    (h : Shared inside header settings) (outside : Settings) (ss : List Section) :
    imported inside outside (⟨header,settings⟩ :: ss) = imported false (outside ++ settings) ss := by
  rcases h with rfl | rfl | ⟨rfl,hsome⟩ | ⟨rfl,rfl⟩
  · rfl
  · rfl
  · exact if_neg fun hempty => hsome hempty.1
  · rfl

/-- The reader in each kind of section, with the directives `ds` before it. -/
structure Reads (ds : List (Text × Text)) : Prop where
  shared : ∀ inside header settings outside, Shared inside header settings →
    remaining none (outside ++ settings) ds =
      imported inside outside (sections header settings ds)
  every : ∀ inside outside, remaining (some (star,[])) outside ds =
    imported inside outside (sections .every [] ds)
  concrete : ∀ inside name settings outside, name ≠ star →
    remaining (some (name,settings)) outside ds =
      imported inside outside (sections (.concrete name) settings ds)
  conditional : ∀ name own settings outside, name ≠ star →
    remaining (some (name,own ++ settings)) outside ds =
      resolve name (own ++ behind (sections .conditional settings ds)) outside ::
        imported true outside (sections .conditional settings ds)

private theorem mem_of_mem_splitOnP {p : Char → Bool} {s part : Text} (h : part ∈ s.splitOnP p)
    {c : Char} (hc : c ∈ part) : c ∈ s := by
  induction s generalizing part with
  | nil =>
    rw [List.splitOnP_nil,List.mem_singleton] at h
    subst h
    cases hc
  | cons c' s ih =>
    rw [List.splitOnP_cons_eq_if_modifyHead] at h
    split at h
    · rcases List.mem_cons.mp h with rfl | hrest
      · cases hc
      · exact List.mem_cons_of_mem c' (ih hrest hc)
    · obtain ⟨first,parts,hsplit⟩ := List.exists_cons_of_ne_nil (List.splitOnP_ne_nil p s)
      rw [hsplit,List.modifyHead_cons] at h
      rcases List.mem_cons.mp h with rfl | hrest
      · rcases List.mem_cons.mp hc with rfl | hmem
        · simp
        · exact List.mem_cons_of_mem c' (ih (by simp [hsplit]) hmem)
      · exact List.mem_cons_of_mem c' (ih (by simp [hsplit,hrest]) hc)

private theorem ne_star_of_fields {value name : Text} {rest : List Text}
    (h : fields value = name :: rest) (hplain : ¬ value.any isPattern) : name ≠ star := by
  rintro rfl
  have hmem : star ∈ fields value := by simp [h]
  have hstar := mem_of_mem_splitOnP (List.mem_filter.mp hmem).1 (List.mem_singleton.mpr rfl)
  exact hplain (List.any_eq_true.mpr ⟨'*',hstar,rfl⟩)

private theorem Reads.opened {ds : List (Text × Text)} (h : Reads ds) (inside : Bool)
    (outside : Settings) (value : Text) :
    remaining (opened value) outside ds =
      imported inside outside (sections (headerOf value) [] ds) := by
  have hnone : ∀ header, Shared inside header [] → remaining none outside ds =
      imported inside outside (sections header [] ds) := by
    intro header hshared
    have hreads := h.shared inside header [] outside hshared
    rwa [List.append_nil] at hreads
  rw [Ssh.opened,headerOf]
  by_cases hpattern : value.any isPattern
  · rw [if_pos hpattern]
    by_cases hstar : value = star
    · rw [if_pos hstar]
      exact h.every inside outside
    · rw [if_neg hstar]
      exact hnone .pattern (Or.inr (Or.inl rfl))
  · rw [if_neg hpattern]
    cases hfields : fields value with
    | nil => exact hnone .pattern (Or.inr (Or.inl rfl))
    | cons name rest => exact h.concrete inside name [] outside (ne_star_of_fields hfields hpattern)

private theorem sections_host {key value : Text} (h : equalFold key "host".toList) (header : Header)
    (settings : Settings) (ds : List (Text × Text)) :
    sections header settings ((key,value) :: ds) =
      ⟨header,settings⟩ :: sections (headerOf value) [] ds := by
  rw [sections,if_pos h]

private theorem sections_match {key value : Text} (h : ¬ equalFold key "host".toList)
    (hmatch : key.map toLower = "match".toList) (header : Header) (settings : Settings)
    (ds : List (Text × Text)) :
    sections header settings ((key,value) :: ds) =
      ⟨header,settings⟩ :: sections .conditional [] ds := by
  rw [sections,if_neg h,if_pos hmatch]

private theorem sections_other {key value : Text} (h : ¬ equalFold key "host".toList)
    (hmatch : key.map toLower ≠ "match".toList) (header : Header) (settings : Settings)
    (ds : List (Text × Text)) :
    sections header settings ((key,value) :: ds) =
      sections header (settings ++ [(key,value)]) ds := by
  rw [sections,if_neg h,if_neg hmatch]

private theorem startsConditional_sections (header : Header) (settings : Settings)
    (ds : List (Text × Text)) :
    startsConditional (sections header settings ds) = decide (header = .conditional) := by
  induction ds generalizing settings with
  | nil => simp [sections,startsConditional]
  | cons d ds ih =>
    obtain ⟨key,value⟩ := d
    rw [sections]
    split
    · simp [startsConditional]
    · split
      · simp [startsConditional]
      · exact ih _

private theorem headerOf_ne_conditional (value : Text) : headerOf value ≠ .conditional := by
  rw [headerOf]
  split
  · split
    · simp
    · simp
  · split
    · simp
    · simp

private theorem behind_sections {header : Header} (h : header ≠ .conditional) (settings : Settings)
    (ds : List (Text × Text)) : behind (sections header settings ds) = [] := by
  induction ds generalizing settings with
  | nil => simp [sections,behind,h]
  | cons d ds ih =>
    obtain ⟨key,value⟩ := d
    rw [sections]
    split
    · simp [behind,h]
    · split
      · simp [behind,h]
      · exact ih _

private theorem remaining_none {key value : Text} (h : ¬ equalFold key "host".toList)
    (outside : Settings) (ds : List (Text × Text)) :
    remaining none outside ((key,value) :: ds) =
      remaining none (outside ++ added key value) ds := by
  rw [remaining,if_neg h]

private theorem remaining_star {key value : Text} (h : ¬ equalFold key "host".toList)
    (own outside : Settings) (ds : List (Text × Text)) :
    remaining (some (star,own)) outside ((key,value) :: ds) =
      remaining none (outside ++ added key value) ds := by
  rw [remaining,if_neg h]
  exact if_pos rfl

private theorem remaining_some {key value name : Text} (h : ¬ equalFold key "host".toList)
    (hname : name ≠ star) (own outside : Settings) (ds : List (Text × Text)) :
    remaining (some (name,own)) outside ((key,value) :: ds) =
      remaining (some (name,own ++ added key value)) outside ds := by
  rw [remaining,if_neg h]
  exact if_neg hname

private theorem Shared.append {inside : Bool} {header : Header} {settings : Settings}
    (h : Shared inside header settings) (d : Text × Text) :
    Shared inside header (settings ++ [d]) := by
  rcases h with htop | hpattern | ⟨hevery,-⟩ | hinside
  · exact Or.inl htop
  · exact Or.inr (Or.inl hpattern)
  · exact Or.inr (Or.inr (Or.inl ⟨hevery,by simp⟩))
  · exact Or.inr (Or.inr (Or.inr hinside))

private theorem Reads.host {ds : List (Text × Text)} (ih : Reads ds) {key value : Text}
    (h : equalFold key "host".toList) : Reads ((key,value) :: ds) where
  shared inside header settings outside hshared := by
    rw [remaining_host h,sections_host h,imported_shared hshared]
    exact ih.opened false _ value
  every inside outside := by
    have hstart : startsConditional (sections (headerOf value) [] ds) = false := by
      rw [startsConditional_sections]
      exact decide_eq_false (headerOf_ne_conditional value)
    rw [remaining_host h,sections_host h,ih.opened false]
    exact (if_pos ⟨rfl,hstart⟩).symm
  concrete inside name settings outside _ := by
    rw [remaining_host h,sections_host h,ih.opened true]
    simp only [imported,behind_sections (headerOf_ne_conditional value),List.append_nil]
    rfl
  conditional name own settings outside _ := by
    rw [remaining_host h,sections_host h,ih.opened true]
    simp only [imported,behind,behind_sections (headerOf_ne_conditional value),List.append_nil,
      if_true]
    rfl

private theorem Reads.match' {ds : List (Text × Text)} (ih : Reads ds) {key value : Text}
    (h : ¬ equalFold key "host".toList) (hmatch : key.map toLower = "match".toList) :
    Reads ((key,value) :: ds) := by
  have hadded : added key value = [] := if_pos hmatch
  have hconditional : ∀ outside, remaining none outside ds =
      imported false outside (sections .conditional [] ds) := by
    intro outside
    have hreads := ih.shared false .conditional [] outside (Or.inr (Or.inr (Or.inr ⟨rfl,rfl⟩)))
    rwa [List.append_nil] at hreads
  constructor
  · intro inside header settings outside hshared
    rw [remaining_none h,sections_match h hmatch,imported_shared hshared,hadded,List.append_nil]
    exact hconditional _
  · intro inside outside
    have hstart : startsConditional (sections .conditional [] ds) = true := by
      rw [startsConditional_sections]
      rfl
    rw [remaining_star h,sections_match h hmatch,hadded,hconditional]
    simp only [imported,hstart,Bool.true_eq_false,and_false,if_false]
  · intro inside name settings outside hname
    rw [remaining_some h hname,sections_match h hmatch,hadded]
    exact ih.conditional name settings [] outside hname
  · intro name own settings outside hname
    rw [remaining_some h hname,sections_match h hmatch,hadded,
      ih.conditional name (own ++ settings) [] outside hname]
    simp only [imported,behind,if_true,List.append_assoc]

private theorem Reads.other {ds : List (Text × Text)} (ih : Reads ds) {key value : Text}
    (h : ¬ equalFold key "host".toList) (hmatch : key.map toLower ≠ "match".toList) :
    Reads ((key,value) :: ds) := by
  have hadded : added key value = [(key,value)] := if_neg hmatch
  constructor
  · intro inside header settings outside hshared
    rw [remaining_none h,sections_other h hmatch,hadded,List.append_assoc]
    exact ih.shared inside header _ outside (hshared.append _)
  · intro inside outside
    rw [remaining_star h,sections_other h hmatch,hadded]
    exact ih.shared inside .every _ outside (Or.inr (Or.inr (Or.inl ⟨rfl,by simp⟩)))
  · intro inside name settings outside hname
    rw [remaining_some h hname,sections_other h hmatch,hadded]
    exact ih.concrete inside name _ outside hname
  · intro name own settings outside hname
    rw [remaining_some h hname,sections_other h hmatch,hadded,List.append_assoc]
    exact ih.conditional name own _ outside hname

theorem reads (ds : List (Text × Text)) : Reads ds := by
  induction ds with
  | nil =>
    constructor
    · intro inside header settings outside hshared
      rw [sections,imported_shared hshared]
      rfl
    · intro inside outside
      rfl
    · intro inside name settings outside _
      simp [remaining,closed,sections,imported,behind]
    · intro name own settings outside _
      simp [remaining,closed,sections,imported,behind]
  | cons d ds ih =>
    obtain ⟨key,value⟩ := d
    by_cases hhost : equalFold key "host".toList
    · exact ih.host hhost
    · by_cases hmatch : key.map toLower = "match".toList
      · exact ih.match' hhost hmatch
      · exact ih.other hhost hmatch

theorem expected_eq_blocks (inside : Bool) (outside defaults : Settings) (ss : List Section) :
    expected defaults ss = (blocks inside outside defaults ss).map fun b =>
      resolve b.name b.own b.defaults := by
  induction ss generalizing inside outside defaults with
  | nil => rfl
  | cons s ss ih =>
    rw [expected,blocks]
    cases s.header with
    | top => exact ih _ _ _
    | every => exact ih _ _ _
    | concrete name => exact congrArg (_ :: ·) (ih _ _ _)
    | pattern => exact ih _ _ _
    | conditional =>
      cases inside with
      | true => exact ih _ _ _
      | false => exact ih _ _ _

private theorem bare_cons (s : Section) (ss : List Section) : bare (s :: ss) =
    (if s.header = .every ∧ s.settings = [] ∧ startsConditional ss = false then 1 else 0)+bare ss :=
  rfl

theorem length_imported (inside : Bool) (outside defaults : Settings) (ss : List Section) :
    (imported inside outside ss).length = (expected defaults ss).length+bare ss := by
  induction ss generalizing inside outside defaults with
  | nil => rfl
  | cons s ss ih =>
    obtain ⟨header,settings⟩ := s
    rw [bare_cons]
    cases header with
    | top => simpa [imported,expected] using ih false _ _
    | every =>
      by_cases hbare : settings = [] ∧ startsConditional ss = false
      · have hrest := ih false outside (defaults ++ settings)
        simp only [imported,expected,if_pos hbare,true_and,List.length_cons,hrest]
        omega
      · have hrest := ih false (outside ++ settings) (defaults ++ settings)
        simp only [imported,expected,if_neg hbare,true_and,hrest]
        omega
    | concrete name =>
      have hrest := ih true outside defaults
      simp only [imported,expected,List.length_cons,hrest,reduceCtorEq,false_and,if_false]
      omega
    | pattern => simpa [imported,expected] using ih false _ _
    | conditional =>
      cases inside with
      | true => simpa [imported,expected] using ih true _ _
      | false => simpa [imported,expected] using ih false _ _

theorem imported_eq_blocks {inside : Bool} {outside defaults : Settings} {ss : List Section}
    (h : bare ss = 0) : imported inside outside ss = (blocks inside outside defaults ss).map fun b =>
      resolve b.name (b.own ++ b.behind) b.outside := by
  induction ss generalizing inside outside defaults with
  | nil => rfl
  | cons s ss ih =>
    obtain ⟨header,settings⟩ := s
    rw [bare_cons] at h
    have hrest : bare ss = 0 := by omega
    cases header with
    | top => exact ih hrest
    | every =>
      have hbare : ¬ (settings = [] ∧ startsConditional ss = false) := by
        intro hboth
        rw [if_pos ⟨rfl,hboth⟩] at h
        omega
      simp only [imported,if_neg hbare]
      exact ih hrest
    | concrete name => exact congrArg (_ :: ·) (ih hrest)
    | pattern => exact ih hrest
    | conditional =>
      cases inside with
      | true => exact ih hrest
      | false => exact ih hrest

/-- What is imported is what the file says exactly if no `Host *` stands there with nothing behind
it, and nothing that stands in a wrong place changes a host. -/
theorem parseSSHConfig_expected_iff {text : Text} {hosts : List ConfigHost}
    (h : parseSSHConfig text = .hosts hosts) :
    hosts = expected [] (sectionsOf text) ↔ bare (sectionsOf text) = 0 ∧
      ∀ b ∈ blocks false [] [] (sectionsOf text), b.Unmixed := by
  have himported : hosts = imported false [] (sectionsOf text) := by
    rw [hosts_eq_remaining h]
    exact (reads (directives text)).shared false .top [] [] (Or.inl rfl)
  rw [himported]
  have hlength := length_imported false [] [] (sectionsOf text)
  constructor
  · intro hsame
    have hbare : bare (sectionsOf text) = 0 := by
      rw [hsame] at hlength
      omega
    refine ⟨hbare,?_⟩
    rw [imported_eq_blocks hbare,expected_eq_blocks false [] []] at hsame
    exact List.map_inj_left.mp hsame
  · rintro ⟨hbare,hblocks⟩
    rw [imported_eq_blocks hbare,expected_eq_blocks false [] []]
    exact List.map_inj_left.mpr hblocks

/-- Defaults before the first host. -/
theorem parseSSHConfig_expected_defaults :
    [(⟨"web".toList,"web".toList,"ada".toList,22,[],[]⟩ : ConfigHost)] =
      expected [] (sectionsOf "User ada\nHost web".toList) :=
  (parseSSHConfig_expected_iff (by decide)).mpr ⟨by decide,by decide⟩

/-- What stands under a pattern is taken for a default. -/
theorem parseSSHConfig_mixes : ¬ ∀ (text : Text) (hosts : List ConfigHost),
    parseSSHConfig text = .hosts hosts → hosts = expected [] (sectionsOf text) := by
  intro hall
  have hsame := hall "Host *.lan\nUser ada\nHost web".toList
    [⟨"web".toList,"web".toList,"ada".toList,22,[],[]⟩] (by decide)
  revert hsame
  decide

end WeirdVault.Ssh
