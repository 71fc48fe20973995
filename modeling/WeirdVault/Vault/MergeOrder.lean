import Mathlib.Tactic.Tauto
import WeirdVault.Vault.Merge

/-!
# Merging in any order

Documents are merged two at a time, in some order and grouping, and some of them more than once.
-/

namespace WeirdVault.Vault

open WeirdVault.Framework

inductive Merging
  | document (d : VaultDocument)
  | merge (ours remote : Merging)

def Merging.merged : Merging → VaultDocument
  | .document d => d
  | .merge ours remote => mergeVault ours.merged remote.merged

def Merging.documents : Merging → List VaultDocument
  | .document d => [d]
  | .merge ours remote => ours.documents ++ remote.documents

/-- No id twice in a kind, and positive stamps and deletion times. -/
structure VaultDocument.WellFormed (d : VaultDocument) : Prop where
  nodup : ∀ k : Kind, ((d.records k).map k.id).Nodup
  stamped : ∀ k : Kind, ∀ r ∈ d.records k, 0 < k.stamp r
  buried : ∀ e ∈ d.tombstones.rows, 0 < e.2

/-- Copies of one id under one stamp have the same contents. -/
def Undisputed (ds : List VaultDocument) : Prop :=
  ∀ a ∈ ds, ∀ b ∈ ds, ∀ k : Kind, ∀ r ∈ a.records k, ∀ s ∈ b.records k,
    k.id r = k.id s → k.stamp r = k.stamp s → r = s

def VaultDocument.Survives (d : VaultDocument) (k : Kind) (i : RecordId) (t : Nat) : Prop :=
  ∃ r ∈ d.records k, k.id r = i ∧ k.stamp r = t

private def replicas (t : Merging) : Set (Replica (Kind × RecordId) Nat) :=
  {r | ∃ d ∈ t.documents, d.replica = r}

theorem mem_merged {t : Merging} {k : Kind} {r : k.Rec} (h : r ∈ t.merged.records k) :
    ∃ d ∈ t.documents, r ∈ d.records k := by
  induction t with
  | document d => exact ⟨d,List.mem_singleton.mpr rfl,h⟩
  | merge ours remote ihours ihremote =>
    rw [Merging.merged,records_mergeVault] at h
    rcases (mem_mergeById h).1 with h | h
    · obtain ⟨d,hd,hr⟩ := ihours h
      exact ⟨d,List.mem_append_left _ hd,hr⟩
    · obtain ⟨d,hd,hr⟩ := ihremote h
      exact ⟨d,List.mem_append_right _ hd,hr⟩

section MergeById

variable {τ : Type} {id : τ → RecordId} {stamp : τ → Nat} {ours remote : List τ}
  {tombstones : Tombstones}

theorem mergeById_newest {r r' : τ} (h : r ∈ mergeById id stamp ours remote tombstones)
    (h' : r' ∈ ours ∨ r' ∈ remote) (hid : id r' = id r) : stamp r' ≤ stamp r := by
  have hrow := (List.mem_filter.mp h).1
  have hmem : r' ∈ remote ++ ours := List.mem_append.mpr h'.symm
  obtain ⟨s,hs,hle⟩ := Table.get?_keepAll_ge_of_mem stamp (Table.empty id) (remote ++ ours) hmem
  have hget := Table.get?_of_mem hrow
  rw [hid,hget] at hs
  obtain rfl := Option.some.inj hs
  exact hle

end MergeById

private theorem latest_deletion {t : Tombstones} {i : RecordId} {u v : Nat} (hu : (i,u) ∈ t.rows)
    (hv : (i,v) ∈ t.rows) : u = v :=
  (deletedAt_of_mem hu).symm.trans (deletedAt_of_mem hv)

private theorem mergeVault_represents (ours remote : VaultDocument) :
    (mergeVault ours remote).replica.Represents {ours.replica,remote.replica} := by
  refine ⟨?_,?_,?_⟩
  · intro r hr
    rcases hr with rfl | rfl
    · exact ours_le_mergeVault ours remote
    · exact remote_le_mergeVault ours remote
  · intro ⟨k,i⟩ t hlive
    obtain ⟨r,hr,rfl,rfl⟩ := live_iff.mp hlive
    rw [records_mergeVault] at hr
    constructor
    · rcases (mem_mergeById hr).1 with h | h
      · exact ⟨_,Or.inl rfl,live_of_mem h⟩
      · exact ⟨_,Or.inr rfl,live_of_mem h⟩
    · intro s hs
      obtain ⟨d,hd,hs⟩ := hs
      rcases hd with rfl | rfl
      · obtain ⟨r',hr',hid,rfl⟩ := live_iff.mp hs
        exact mergeById_newest hr (Or.inl hr') hid
      · obtain ⟨r',hr',hid,rfl⟩ := live_iff.mp hs
        exact mergeById_newest hr (Or.inr hr') hid
  · intro ⟨k,i⟩ t hdead
    have hrow : (i,t) ∈ (mergeTombstones ours.tombstones remote.tombstones).rows := hdead
    constructor
    · rcases mem_mergeTombstones hrow with h | h
      · exact ⟨_,Or.inl rfl,h⟩
      · exact ⟨_,Or.inr rfl,h⟩
    · intro s hs
      obtain ⟨d,hd,hs⟩ := hs
      have hmem : (i,s) ∈ ours.tombstones.rows ∨ (i,s) ∈ remote.tombstones.rows := by
        rcases hd with rfl | rfl
        · exact Or.inl hs
        · exact Or.inr hs
      obtain ⟨u,hu,hle⟩ := mergeTombstones_ge hmem
      have hut : u = t := latest_deletion hu hrow
      omega

private theorem mergeVault_clean {ours remote : VaultDocument}
    (h : ∀ k, ∀ r ∈ (mergeVault ours remote).records k, 0 < k.stamp r) :
    (mergeVault ours remote).replica.Clean := by
  intro ⟨k,i⟩ t u hlive hdead
  obtain ⟨r,hr,rfl,rfl⟩ := live_iff.mp hlive
  have hpos := h k r hr
  rw [records_mergeVault] at hr
  have hs := (mem_mergeById hr).2
  have hat : deletedAt (mergeTombstones ours.tombstones remote.tombstones) (k.id r) = u :=
    deletedAt_of_mem hdead
  simp only [survives,hat,Bool.or_eq_true,beq_iff_eq,decide_eq_true_eq] at hs
  omega

private theorem document_represents {d : VaultDocument} (h : d.WellFormed) :
    d.replica.Represents {d.replica} := by
  refine ⟨?_,?_,?_⟩
  · intro r hr
    rw [Set.mem_singleton_iff.mp hr]
  · intro ⟨k,i⟩ t hlive
    refine ⟨⟨_,rfl,hlive⟩,?_⟩
    intro s hs
    obtain ⟨d',rfl,r',hr',hid',rfl⟩ := hs
    obtain ⟨r,hr,hid,rfl⟩ := live_iff.mp hlive
    have hsame := List.inj_on_of_nodup_map (h.nodup k) hr' hr (hid'.trans hid.symm)
    rw [hsame]
  · intro ⟨k,i⟩ t hdead
    refine ⟨⟨_,rfl,hdead⟩,?_⟩
    intro s hs
    obtain ⟨d',rfl,hs⟩ := hs
    exact le_of_eq (latest_deletion hs hdead)

theorem merged_stamped {t : Merging} (h : ∀ d ∈ t.documents, d.WellFormed) {k : Kind} {r : k.Rec}
    (hr : r ∈ t.merged.records k) : 0 < k.stamp r := by
  obtain ⟨d,hd,hr⟩ := mem_merged hr
  exact (h d hd).stamped k r hr

private theorem merged_clean {ours remote : Merging}
    (h : ∀ d ∈ (Merging.merge ours remote).documents, d.WellFormed) :
    (Merging.merge ours remote).merged.replica.Clean :=
  mergeVault_clean (fun _ _ hr => merged_stamped (t := .merge ours remote) h hr)

private theorem replicas_merge (ours remote : Merging) :
    replicas (.merge ours remote) = replicas ours ∪ replicas remote := by
  ext r
  simp only [replicas,Merging.documents,List.mem_append,Set.mem_ofPred_eq,Set.mem_union]
  constructor
  · intro ⟨d,hd,hr⟩
    rcases hd with hd | hd
    · exact Or.inl ⟨d,hd,hr⟩
    · exact Or.inr ⟨d,hd,hr⟩
  · intro h
    rcases h with ⟨d,hd,hr⟩ | ⟨d,hd,hr⟩
    · exact ⟨d,Or.inl hd,hr⟩
    · exact ⟨d,Or.inr hd,hr⟩

private theorem merged_represents {t : Merging} (h : ∀ d ∈ t.documents, d.WellFormed) :
    t.merged.replica.Represents (replicas t) := by
  induction t with
  | document d =>
    have hself : replicas (.document d) = {d.replica} := by
      ext r
      simp [replicas,Merging.documents,eq_comm]
    rw [hself]
    exact document_represents (h d (List.mem_singleton.mpr rfl))
  | merge ours remote ihours ihremote =>
    have hours := ihours (fun d hd => h d (List.mem_append_left _ hd))
    have hremote := ihremote (fun d hd => h d (List.mem_append_right _ hd))
    rw [replicas_merge]
    exact hours.union hremote (mergeVault_represents ours.merged remote.merged) (merged_clean h)

section SameDocuments

variable {a b c d : Merging}

private theorem merged_replica_eq (h : ∀ x ∈ (Merging.merge a b).documents, x.WellFormed)
    (hsame : ∀ x, x ∈ (Merging.merge a b).documents ↔ x ∈ (Merging.merge c d).documents) :
    (Merging.merge a b).merged.replica = (Merging.merge c d).merged.replica := by
  have h' : ∀ x ∈ (Merging.merge c d).documents, x.WellFormed := fun x hx => h x ((hsame x).mpr hx)
  have hreplicas : replicas (.merge c d) = replicas (.merge a b) := by
    ext r
    constructor
    · intro ⟨x,hx,hr⟩
      exact ⟨x,(hsame x).mpr hx,hr⟩
    · intro ⟨x,hx,hr⟩
      exact ⟨x,(hsame x).mp hx,hr⟩
  have hother := merged_represents h'
  rw [hreplicas] at hother
  exact (merged_represents h).eq hother (merged_clean h) (merged_clean h')

private theorem get?_eq_of_rows {t u : Tombstones} (h : ∀ i v, (i,v) ∈ t.rows ↔ (i,v) ∈ u.rows)
    (i : RecordId) : t.get? i = u.get? i := by
  apply Option.ext
  intro e
  rw [Table.get?_eq_some_iff,Table.get?_eq_some_iff,h e.1 e.2]

theorem le_updatedAt {t : Merging} {x : VaultDocument} (h : x ∈ t.documents) :
    x.updatedAt ≤ t.merged.updatedAt := by
  induction t with
  | document d =>
    rw [List.mem_singleton.mp h]
    exact le_refl _
  | merge ours remote ihours ihremote =>
    have hmax : (Merging.merge ours remote).merged.updatedAt =
        max ours.merged.updatedAt remote.merged.updatedAt := rfl
    rcases List.mem_append.mp h with h | h
    · have hle := ihours h
      omega
    · have hle := ihremote h
      omega

theorem exists_updatedAt (t : Merging) : ∃ x ∈ t.documents, t.merged.updatedAt = x.updatedAt := by
  induction t with
  | document d => exact ⟨d,List.mem_singleton.mpr rfl,rfl⟩
  | merge ours remote ihours ihremote =>
    have hmax : (Merging.merge ours remote).merged.updatedAt =
        max ours.merged.updatedAt remote.merged.updatedAt := rfl
    obtain ⟨x,hx,hxe⟩ := ihours
    obtain ⟨y,hy,hye⟩ := ihremote
    by_cases hle : ours.merged.updatedAt ≤ remote.merged.updatedAt
    · exact ⟨y,List.mem_append_right _ hy,by omega⟩
    · exact ⟨x,List.mem_append_left _ hx,by omega⟩

private theorem updatedAt_le {t u : Merging} (h : ∀ x, x ∈ t.documents → x ∈ u.documents) :
    t.merged.updatedAt ≤ u.merged.updatedAt := by
  obtain ⟨x,hx,he⟩ := exists_updatedAt t
  rw [he]
  exact le_updatedAt (h x hx)

private theorem nodup_records (ours remote : VaultDocument) (k : Kind) :
    ((mergeVault ours remote).records k).Nodup := by
  apply List.Nodup.of_map k.id
  rw [records_mergeVault]
  exact nodup_mergeById

private theorem mem_of_replica_eq {t u : Merging} (h : t.merged.replica = u.merged.replica)
    (hsame : ∀ x, x ∈ u.documents → x ∈ t.documents) (hu : Undisputed t.documents) {k : Kind}
    {r : k.Rec} (hr : r ∈ t.merged.records k) : r ∈ u.merged.records k := by
  have hlive := live_of_mem hr
  rw [h] at hlive
  obtain ⟨s,hs,hid,ht⟩ := live_iff.mp hlive
  obtain ⟨x,hx,hrx⟩ := mem_merged hr
  obtain ⟨y,hy,hsy⟩ := mem_merged hs
  rwa [hu x hx y (hsame y hy) k r hrx s hsy hid.symm ht.symm]

theorem mergeVault_order_independent
    (h : ∀ x ∈ (Merging.merge a b).documents, x.WellFormed)
    (hsame : ∀ x, x ∈ (Merging.merge a b).documents ↔ x ∈ (Merging.merge c d).documents) :
    let one := mergeVault a.merged b.merged
    let other := mergeVault c.merged d.merged
    (∀ k i t, one.Survives k i t ↔ other.Survives k i t) ∧
    (∀ i, one.tombstones.get? i = other.tombstones.get? i) ∧
    one.updatedAt = other.updatedAt ∧
    (Undisputed (Merging.merge a b).documents → ∀ k, (one.records k).Perm (other.records k)) ∧
    ∀ k, ∀ r ∈ one.records k, deletedAt one.tombstones (k.id r) < k.stamp r := by
  have hreplica := merged_replica_eq h hsame
  refine ⟨?_,?_,?_,?_,?_⟩
  · intro k i t
    exact iff_of_eq (congrFun (congrFun (congrArg Replica.live hreplica) (k,i)) t)
  · apply get?_eq_of_rows
    intro i v
    exact iff_of_eq (congrFun (congrFun (congrArg Replica.dead hreplica) (Kind.hosts,i)) v)
  · apply le_antisymm
    · exact updatedAt_le (fun x hx => (hsame x).mp hx)
    · exact updatedAt_le (fun x hx => (hsame x).mpr hx)
  · intro hu k
    have hu' : Undisputed (Merging.merge c d).documents := fun x hx y hy =>
      hu x ((hsame x).mpr hx) y ((hsame y).mpr hy)
    rw [List.perm_ext_iff_of_nodup (nodup_records _ _ k) (nodup_records _ _ k)]
    intro r
    constructor
    · exact mem_of_replica_eq hreplica (fun x hx => (hsame x).mpr hx) hu
    · exact mem_of_replica_eq hreplica.symm (fun x hx => (hsame x).mp hx) hu'
  · intro k r hr
    have hpos : 0 < k.stamp r := merged_stamped (t := .merge a b) h hr
    by_cases hzero : deletedAt (mergeVault a.merged b.merged).tombstones (k.id r) = 0
    · omega
    · exact merged_clean h (k,k.id r) _ _ (live_of_mem hr) (mem_of_deletedAt hzero)

end SameDocuments

private def noted (at' : Nat) (body : String) : VaultDocument :=
  { emptyDoc with snippets := [⟨.uuid 1,"deploy",body,none,none,1,at'⟩] }

private def buried (at' : Nat) : VaultDocument :=
  { emptyDoc with tombstones := (Table.empty _).put (.uuid 1,at') }

private theorem noted_wellFormed {at' : Nat} (body : String) (h : 0 < at') :
    (noted at' body).WellFormed := by
  refine ⟨?_,?_,?_⟩
  · intro k
    cases k <;> simp [noted,VaultDocument.records,emptyDoc]
  · intro k r hr
    cases k with
    | snippets =>
      obtain rfl := List.mem_singleton.mp hr
      exact h
    | _ => exact absurd hr List.not_mem_nil
  · intro e he
    exact absurd he List.not_mem_nil

private theorem buried_wellFormed {at' : Nat} (h : 0 < at') : (buried at').WellFormed := by
  refine ⟨?_,?_,?_⟩
  · intro k
    cases k <;> simp [buried,VaultDocument.records,emptyDoc]
  · intro k r hr
    cases k <;> exact absurd hr List.not_mem_nil
  · intro e he
    obtain rfl := List.mem_singleton.mp he
    exact h

theorem mergeVault_order_independent_deleted :
    let early := Merging.document (noted 3 "make")
    let late := Merging.document (noted 7 "make all")
    let gone := Merging.document (buried 5)
    ∀ k, ((mergeVault (Merging.merge early gone).merged late.merged).records k).Perm
      ((mergeVault late.merged (Merging.merge gone (.merge early late)).merged).records k) := by
  intro early late gone
  refine (mergeVault_order_independent ?_ ?_).2.2.2.1 ?_
  · intro x hx
    rcases List.mem_cons.mp hx with rfl | hx
    · exact noted_wellFormed _ (by decide)
    · rcases List.mem_cons.mp hx with rfl | hx
      · exact buried_wellFormed (by decide)
      · obtain rfl := List.mem_singleton.mp hx
        exact noted_wellFormed _ (by decide)
  · intro x
    simp only [early,late,gone,Merging.documents,List.cons_append,List.nil_append,List.mem_cons,
      List.not_mem_nil,or_false]
    tauto
  · intro x hx y hy k r hr s hs hid hst
    simp only [early,late,gone,Merging.documents,List.cons_append,List.nil_append,List.mem_cons,
      List.not_mem_nil,or_false] at hx hy
    cases k with
    | snippets =>
      rcases hx with rfl | rfl | rfl <;> rcases hy with rfl | rfl | rfl <;>
        simp_all [noted,buried,VaultDocument.records,emptyDoc,Kind.stamp]
    | _ => rcases hx with rfl | rfl | rfl <;> exact absurd hr List.not_mem_nil

end WeirdVault.Vault
