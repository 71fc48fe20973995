import Mathlib.Data.List.DropRight
import WeirdVault.Agent.Published
import WeirdVault.Enrollment.Route
import WeirdVault.Framework.Utf16

/-!
# The update badge

The version of a build on its way from the agent's hello through the relay and the verify route into
the column that the badge compares, and the rule by which the agent updates itself.
-/

namespace WeirdVault.Agent.Badge

open WeirdVault.Framework Program
open Enrollment (isSpace trim)

def unversionedAgent : String := "dev"

def hello (version : String) : Option String := if version = "" then none else some version

def verifyRequest (version : Option String) : Option String :=
  (version.filter (· ≠ "")).map fun v => String.ofList (v.toList.take 64)

def reportedVersion (version : Option JsString) : Option JsString :=
  match version with
  | some v => if trim v ≠ [] then some ((trim v).take 32) else none
  | none => none

/-- The column after the route's update. The driver writes U+FFFD for half of a pair; a zero is
refused by the database, which is only logged. -/
def stamp (column reported : Option JsString) : Option JsString :=
  match reported with
  | some v => if v = [] ∨ 0 ∈ v then column else some (toWellFormed v)
  | none => column

def agentVersion (column : Option JsString) (version : String) : Option JsString :=
  stamp column (reportedVersion ((verifyRequest (hello version)).map utf16))

def versionFrom (version : String) : Option JsString :=
  if version = "" then none else some (utf16 version)

def agentNeedsUpdate (reported published : Option JsString) : Bool :=
  match reported,published with
  | some r,some p => if r = [] ∨ p = [] then false else if p = utf16 unversionedAgent then false else r ≠ p
  | _,_ => false

def goesOn (version published : String) : Bool := !(published == "" || published == version)

/-- What trimming and cutting leave of a text: it begins with no blank, and it has all up to the
blanks at the end, or the most that there can be. -/
def Leaves (t s : JsString) : Prop :=
  ∃ before after, t = before ++ s ++ after ∧ (∀ u ∈ before, isSpace u) ∧
    ∃ h : s ≠ [], ¬ isSpace (s.head h) ∧
      ((∀ u ∈ after, isSpace u) ∧ ¬ isSpace (s.getLast h) ∧ s.length ≤ 32 ∨
        s.length = 32 ∧ ∃ u ∈ after, ¬ isSpace u)

/-- Something without a zero is left of the characters that the relay passes on. -/
def Lands (version : String) (s : JsString) : Prop :=
  Leaves (utf16 (String.ofList (version.toList.take 64))) s ∧ 0 ∉ s

def Plain (version : String) : Prop :=
  (utf16 version).length ≤ 32 ∧ ∃ h : utf16 version ≠ [],
    ¬ isSpace ((utf16 version).head h) ∧ ¬ isSpace ((utf16 version).getLast h)

/-- The badge can be trusted: nothing to install, or a version that comes through when it is the
published one and is not cut down to the published one when it is not, or is not stored and the
column speaks for it. -/
def Trusted (column : Option JsString) (version published : String) : Prop :=
  published = "" ∨ published = unversionedAgent ∧ version = unversionedAgent ∨
    published ≠ unversionedAgent ∧
      ((∃ s, Lands version s) ∧ (version = published → Plain version) ∧
          (version ≠ published → ∀ s, Lands version s → toWellFormed s ≠ utf16 published) ∨
        (¬ ∃ s, Lands version s) ∧ (version = published ↔
          column = none ∨ column = some [] ∨ column = some (utf16 published)))

section

variable {p : UInt16 → Bool}

private theorem head_append_self {s rest : JsString} (h : s ≠ []) (hhead : ¬ p (s.head h)) :
    (s ++ rest).dropWhile p = s ++ rest := by
  cases s with
  | nil => exact absurd rfl h
  | cons u s => exact List.dropWhile_cons_of_neg hhead

private theorem rdropWhile_append_all {s rest : JsString} (h : ∀ u ∈ rest, p u) :
    (s ++ rest).rdropWhile p = s.rdropWhile p := by
  have hrev : ∀ u ∈ rest.reverse, p u := fun u hu => h u (List.mem_reverse.mp hu)
  rw [List.rdropWhile,List.reverse_append,List.dropWhile_append_of_pos hrev]
  rfl

end

private theorem trim_eq (t : JsString) : trim t = (t.dropWhile isSpace).rdropWhile isSpace := rfl

private theorem trim_between {before m after : JsString} (hbefore : ∀ u ∈ before, isSpace u)
    (hafter : ∀ u ∈ after, isSpace u) (hm : m ≠ []) (hhead : ¬ isSpace (m.head hm))
    (hlast : ¬ isSpace (m.getLast hm)) : trim (before ++ m ++ after) = m := by
  rw [trim_eq,List.append_assoc,List.dropWhile_append_of_pos hbefore,head_append_self hm hhead,
    rdropWhile_append_all hafter]
  exact List.rdropWhile_eq_self_iff.mpr fun _ => hlast

private theorem exists_blanks (t : JsString) :
    ∃ after, t = t.rdropWhile isSpace ++ after ∧ ∀ u ∈ after, isSpace u := by
  refine ⟨(t.reverse.takeWhile isSpace).reverse,?_,?_⟩
  · have hrev := congrArg List.reverse (List.takeWhile_append_dropWhile (p := isSpace) (l := t.reverse))
    rw [List.reverse_append,List.reverse_reverse] at hrev
    exact hrev.symm
  · intro u hu
    exact List.mem_takeWhile_imp (List.mem_reverse.mp hu)

private theorem between_trim (t : JsString) : ∃ before after, t = before ++ trim t ++ after ∧
    (∀ u ∈ before, isSpace u) ∧ ∀ u ∈ after, isSpace u := by
  obtain ⟨after,hafter,hblank⟩ := exists_blanks (t.dropWhile isSpace)
  refine ⟨t.takeWhile isSpace,after,?_,fun u hu => List.mem_takeWhile_imp hu,hblank⟩
  rw [List.append_assoc,trim_eq,← hafter,List.takeWhile_append_dropWhile]

private theorem trim_last {t : JsString} (h : trim t ≠ []) : ¬ isSpace ((trim t).getLast h) :=
  List.rdropWhile_last_not isSpace (t.dropWhile isSpace) h

private theorem trim_head {t : JsString} (h : trim t ≠ []) : ¬ isSpace ((trim t).head h) := by
  obtain ⟨rest,hrest⟩ := List.rdropWhile_prefix isSpace (t.dropWhile isSpace)
  rw [← trim_eq] at hrest
  have hne : t.dropWhile isSpace ≠ [] := by
    rw [← hrest]
    exact List.append_ne_nil_of_left_ne_nil h rest
  have hnot := List.head_dropWhile_not isSpace hne
  simp only [← hrest,List.head_append_of_ne_nil h] at hnot
  rw [hnot]
  exact Bool.false_ne_true

theorem leaves_iff {t s : JsString} : Leaves t s ↔ trim t ≠ [] ∧ s = (trim t).take 32 := by
  constructor
  · intro h
    obtain ⟨before,after,ht,hbefore,hne,hhead,⟨hafter,hlast,hlength⟩ | ⟨hlength,u,hu,hnot⟩⟩ := h
    · rw [ht,trim_between hbefore hafter hne hhead hlast]
      exact ⟨hne,(List.take_of_length_le hlength).symm⟩
    · obtain ⟨blanks,hsplit,hblank⟩ := exists_blanks after
      have hkeeps : after.rdropWhile isSpace ≠ [] := by
        intro hnil
        exact hnot (List.rdropWhile_eq_nil_iff.mp hnil u hu)
      have hm : s ++ after.rdropWhile isSpace ≠ [] := List.append_ne_nil_of_left_ne_nil hne _
      have htrim : trim t = s ++ after.rdropWhile isSpace := by
        have hwhole : t = before ++ (s ++ after.rdropWhile isSpace) ++ blanks := by
          rw [ht,List.append_assoc,List.append_assoc,List.append_assoc,← hsplit]
        rw [hwhole]
        apply trim_between hbefore hblank hm
        · rwa [List.head_append_of_ne_nil hne]
        · rw [List.getLast_append_of_ne_nil hm hkeeps]
          exact List.rdropWhile_last_not isSpace after hkeeps
      rw [htrim]
      exact ⟨hm,(List.take_left' hlength).symm⟩
  · intro ⟨hne,hs⟩
    obtain ⟨before,after,ht,hbefore,hafter⟩ := between_trim t
    by_cases hlength : (trim t).length ≤ 32
    · rw [List.take_of_length_le hlength] at hs
      subst hs
      exact ⟨before,after,ht,hbefore,hne,trim_head hne,Or.inl ⟨hafter,trim_last hne,hlength⟩⟩
    · have htake : (trim t).take 32 ≠ [] := by
        intro hnil
        have := congrArg List.length hnil
        rw [List.length_take,List.length_nil] at this
        omega
      have hdrop : (trim t).drop 32 ≠ [] := by
        intro hnil
        have := congrArg List.length hnil
        rw [List.length_drop,List.length_nil] at this
        omega
      subst hs
      refine ⟨before,(trim t).drop 32 ++ after,?_,hbefore,htake,?_,Or.inr ⟨?_,(trim t).getLast hne,?_,
        trim_last hne⟩⟩
      · rw [List.append_assoc,← List.append_assoc ((trim t).take 32),List.take_append_drop,
          ← List.append_assoc]
        exact ht
      · rw [List.head_take]
        exact trim_head hne
      · rw [List.length_take]
        omega
      · rw [← List.getLast_drop hdrop]
        exact List.mem_append_left _ (List.getLast_mem hdrop)

private theorem hello_passed (version : String) :
    (verifyRequest (hello version)).map utf16 =
      if version = "" then none else some (utf16 (String.ofList (version.toList.take 64))) := by
  by_cases h : version = ""
  · simp [hello,verifyRequest,h]
  · simp [hello,verifyRequest,h]

private theorem lands_iff {version : String} {s : JsString} : Lands version s ↔
    reportedVersion ((verifyRequest (hello version)).map utf16) = some s ∧ 0 ∉ s := by
  rw [Lands,leaves_iff,hello_passed]
  by_cases h : version = ""
  · subst h
    simp [reportedVersion,trim,utf16]
  · rw [if_neg h,reportedVersion]
    by_cases htrim : trim (utf16 (String.ofList (version.toList.take 64))) = []
    · simp [htrim]
    · simp [htrim,eq_comm]

private theorem reported_ne_nil {version : Option JsString} {s : JsString}
    (h : reportedVersion version = some s) : s ≠ [] := by
  cases version with
  | none => cases h
  | some v =>
    rw [reportedVersion] at h
    split at h
    · rename_i hne
      obtain rfl := Option.some.inj h
      simpa using hne
    · cases h

private theorem agentVersion_lands {column : Option JsString} {version : String} {s : JsString}
    (h : Lands version s) : agentVersion column version = some (toWellFormed s) := by
  obtain ⟨hreported,hzero⟩ := lands_iff.mp h
  have hne := reported_ne_nil hreported
  rw [agentVersion,hreported,stamp,if_neg (not_or.mpr ⟨hne,hzero⟩)]

private theorem agentVersion_stays {column : Option JsString} {version : String}
    (h : ¬ ∃ s, Lands version s) : agentVersion column version = column := by
  cases hreported : reportedVersion ((verifyRequest (hello version)).map utf16) with
  | none =>
    rw [agentVersion,hreported]
    rfl
  | some v =>
    have hzero : 0 ∈ v := by
      by_contra hnot
      exact h ⟨v,lands_iff.mpr ⟨hreported,hnot⟩⟩
    rw [agentVersion,hreported,stamp]
    exact if_pos (Or.inr hzero)

private theorem comes_through_iff {version : String} {s : JsString} (h : Lands version s) :
    toWellFormed s = utf16 version ↔ Plain version := by
  have hsplit : utf16 version = utf16 (String.ofList (version.toList.take 64)) ++
      utf16 (String.ofList (version.toList.drop 64)) := by
    rw [← utf16_append,List.take_append_drop,String.ofList_toList]
  constructor
  · intro hsame
    have hlength := congrArg List.length hsame
    obtain ⟨⟨before,after,ht,-,hne,hhead,hends⟩,-⟩ := h
    rw [ht] at hsplit
    rw [length_toWellFormed,hsplit] at hlength
    simp only [List.length_append] at hlength
    have hbefore : before = [] := List.length_eq_zero_iff.mp (by omega)
    have hafter : after = [] := List.length_eq_zero_iff.mp (by omega)
    have hrest : utf16 (String.ofList (version.toList.drop 64)) = [] :=
      List.length_eq_zero_iff.mp (by omega)
    have hs : utf16 version = s := by
      rw [hsplit,hbefore,hafter,hrest,List.nil_append,List.append_nil,List.append_nil]
    subst hafter
    obtain ⟨-,hlast,hshort⟩ | ⟨-,u,hu,-⟩ := hends
    · rw [Plain,hs]
      exact ⟨hshort,hne,hhead,hlast⟩
    · cases hu
  · intro ⟨hshort,hne,hhead,hlast⟩
    have hchars := length_le_utf16 version
    have ht : String.ofList (version.toList.take 64) = version := by
      rw [List.take_of_length_le (by omega),String.ofList_toList]
    have hleaves : Leaves (utf16 version) (utf16 version) :=
      ⟨[],[],by simp,by simp,hne,hhead,Or.inl ⟨by simp,hlast,hshort⟩⟩
    have hlands := h.1
    rw [ht] at hlands
    have hs : s = utf16 version :=
      (leaves_iff.mp hlands).2.trans (leaves_iff.mp hleaves).2.symm
    rw [hs,toWellFormed_utf16]

private theorem needsUpdate_dev (reported : Option JsString) :
    agentNeedsUpdate reported (versionFrom unversionedAgent) = false := by
  cases reported with
  | none => rfl
  | some s =>
    by_cases hs : s = []
    · subst hs
      rfl
    · rw [versionFrom,if_neg (by decide),agentNeedsUpdate,if_pos rfl]
      exact ite_self false

private theorem needsUpdate_none (published : String) :
    agentNeedsUpdate none (versionFrom published) = false := by
  cases versionFrom published with
  | none => rfl
  | some p => rfl

private theorem needsUpdate_some {s : JsString} {published : String} (hne : published ≠ "")
    (hdev : published ≠ unversionedAgent) :
    agentNeedsUpdate (some s) (versionFrom published) =
      decide (s ≠ [] ∧ s ≠ utf16 published) := by
  have hunits : utf16 published ≠ [] := fun h => hne (utf16_eq_nil.mp h)
  have hother : utf16 published ≠ utf16 unversionedAgent := fun h => hdev (utf16_injective h)
  rw [versionFrom,if_neg hne,agentNeedsUpdate]
  by_cases hs : s = []
  · simp [hs]
  · rw [if_neg (by simp [hs,hunits]),if_neg hother]
    simp [hs]

private theorem goesOn_eq {version published : String} (h : published ≠ "") :
    goesOn version published = decide (version ≠ published) := by
  have hempty : (published == "") = false := beq_false_of_ne h
  rw [goesOn,hempty,Bool.false_or]
  by_cases hsame : version = published
  · simp [hsame]
  · rw [beq_false_of_ne (Ne.symm hsame),decide_eq_true hsame]
    rfl

/-- The badge says the same as the agent's own rule exactly when it can be trusted. -/
theorem badge_agrees_iff (column : Option JsString) (version published : String) :
    agentNeedsUpdate (agentVersion column version) (versionFrom published) =
      goesOn version published ↔ Trusted column version published := by
  by_cases hne : published = ""
  · subst hne
    refine iff_of_true ?_ (Or.inl rfl)
    cases agentVersion column version with
    | none => rfl
    | some s => rfl
  by_cases hdev : published = unversionedAgent
  · subst hdev
    rw [needsUpdate_dev,goesOn_eq hne]
    constructor
    · intro h
      refine Or.inr (Or.inl ⟨rfl,?_⟩)
      by_contra hv
      rw [decide_eq_true hv] at h
      cases h
    · intro h
      rcases h with h | ⟨-,rfl⟩ | ⟨h,-⟩
      · exact absurd h hne
      · exact (decide_eq_false (fun h => h rfl)).symm
      · exact absurd rfl h
  have htrusted : Trusted column version published ↔
      (∃ s, Lands version s) ∧ (version = published → Plain version) ∧
          (version ≠ published → ∀ s, Lands version s → toWellFormed s ≠ utf16 published) ∨
        (¬ ∃ s, Lands version s) ∧ (version = published ↔
          column = none ∨ column = some [] ∨ column = some (utf16 published)) := by
    simp only [Trusted,hne,hdev,false_and,false_or,ne_eq,not_false_eq_true,true_and]
  rw [goesOn_eq hne,htrusted]
  by_cases hlands : ∃ s, Lands version s
  · obtain ⟨s,hs⟩ := hlands
    have honly : ∀ s', Lands version s' → s' = s := by
      intro s' hs'
      have h := (lands_iff.mp hs').1
      rw [(lands_iff.mp hs).1] at h
      exact (Option.some.inj h).symm
    have hfull : toWellFormed s ≠ [] := by
      intro hnil
      have hlength := congrArg List.length hnil
      rw [length_toWellFormed] at hlength
      exact reported_ne_nil (lands_iff.mp hs).1 (List.length_eq_zero_iff.mp hlength)
    rw [agentVersion_lands hs,needsUpdate_some hne hdev,decide_eq_decide,
      or_iff_left (fun h => h.1 ⟨s,hs⟩),and_iff_right hfull,and_iff_right ⟨s,hs⟩]
    by_cases hsame : version = published
    · subst hsame
      simp only [ne_eq,not_true_eq_false,iff_false,not_not,true_implies,false_implies,and_true]
      exact comes_through_iff hs
    · have hall : (∀ s', Lands version s' → toWellFormed s' ≠ utf16 published) ↔
          toWellFormed s ≠ utf16 published :=
        ⟨fun h => h s hs,fun h s' hs' => by rw [honly s' hs']; exact h⟩
      rw [hall]
      simp only [hsame,ne_eq,not_false_eq_true,iff_true,false_implies,true_implies,true_and]
  · rw [agentVersion_stays hlands,or_iff_right (fun h => hlands h.1),and_iff_right hlands]
    cases column with
    | none =>
      rw [needsUpdate_none]
      simp
    | some s =>
      rw [needsUpdate_some hne hdev,decide_eq_decide,Option.some.injEq,Option.some.injEq]
      have hsplit : (s ≠ [] ∧ s ≠ utf16 published) ↔ ¬ (s = [] ∨ s = utf16 published) :=
        not_or.symm
      rw [hsplit,ne_eq,not_iff_not]
      simp only [reduceCtorEq,false_or]
      exact iff_comm

open Upgrade in
theorem selfUpdate_goesOn {P : Upgrade.Platform} {w : Upgrade.World}
    {version releaseURL base : String} {manifest : Upgrade.ReleaseManifest} {entry : Upgrade.Binary}
    {exe path tmp : String} {binary : Upgrade.Bytes} {s : Upgrade.Course} (hurl : releaseURL ≠ "") (hmarker : s.1.marker = false)
    (hbase : releaseBase P releaseURL = .ok base) (hpublished : Upgrade.published P w base = .ok manifest)
    (hentry : manifest.binaries.lookup P.target = some entry)
    (hinstalls : Installs P w base entry exe path tmp binary) :
    ((selfUpdate P version releaseURL).run (exec w) s).2 = .ok (goesOn version manifest.version) := by
  by_cases hsame : manifest.version = "" ∨ manifest.version = version
  · have hgoes : goesOn version manifest.version = false := by
      rcases hsame with h | h
      · simp [goesOn,h]
      · simp [goesOn,h]
    rw [hgoes]
    exact selfUpdate_same hurl hmarker hbase hpublished hsame
  · obtain ⟨hne,hother⟩ := not_or.mp hsame
    rw [goesOn_eq hne,decide_eq_true (Ne.symm hother)]
    have hends : Ends P w version releaseURL s ((selfUpdate P version releaseURL).run (exec w) s).1
        ((selfUpdate P version releaseURL).run (exec w) s).2 := ends_selfUpdate version hurl s
    generalize ((selfUpdate P version releaseURL).run (exec w) s).1 = t at hends
    generalize ((selfUpdate P version releaseURL).run (exec w) s).2 = r at hends ⊢
    cases hends with
    | same _ hsaw hversion =>
      obtain ⟨base',hbase',hpublished',-⟩ := hsaw
      rw [hbase] at hbase'
      obtain rfl := Except.ok.inj hbase'
      rw [hpublished] at hpublished'
      obtain rfl := Except.ok.inj hpublished'
      exact absurd hversion hsame
    | skipped hset =>
      rw [hmarker] at hset
      cases hset
    | not h =>
      have hfails := (h base manifest hbase hpublished).2.2 entry exe path tmp binary hentry
      exact absurd hinstalls hfails
    | replaced => rfl

/-- A branch name in the version makes it longer than the column. -/
theorem long_version_outdated : ¬ ∀ (column : Option JsString) (version published : String),
    version ≠ "" → agentNeedsUpdate (agentVersion column version) (versionFrom published) =
      goesOn version published := by
  intro hall
  have h := hall none "v1.4.0-27-g0123abc-feature-updates" "v1.4.0-27-g0123abc-feature-updates"
    (by decide)
  revert h
  decide +kernel

end WeirdVault.Agent.Badge
