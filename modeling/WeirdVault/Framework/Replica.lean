import Mathlib.Order.Bounds.Basic

/-!
# Replicas of a last-write-wins store

What a copy of such a store claims: which items are live under which stamp, and which were deleted
when. One replica is below another when the other accounts for all of its claims, by a copy that is
at least as new or by a deletion that is at least as late. Nothing that is below is ever lost.

A replica represents a set of replicas when it is above them all and claims only the newest of what
they claim. Of those that hold nothing they know deleted there is one for each set.
-/

namespace WeirdVault.Framework

structure Replica (ι θ : Type) where
  live : ι → θ → Prop
  dead : ι → θ → Prop

namespace Replica

variable {ι θ : Type} [Preorder θ]

def Covers (r : Replica ι θ) (i : ι) (t : θ) : Prop := ∃ u, r.dead i u ∧ t ≤ u

/-- The item is held with a stamp at least as new, or deleted. -/
def Accounts (r : Replica ι θ) (i : ι) (t : θ) : Prop := (∃ u, r.live i u ∧ t ≤ u) ∨ r.Covers i t

theorem Covers.mono {r : Replica ι θ} {i : ι} {s t : θ} (h : r.Covers i t) (hst : s ≤ t) :
    r.Covers i s := by
  obtain ⟨u,hu,htu⟩ := h
  exact ⟨u,hu,le_trans hst htu⟩

theorem Accounts.mono {r : Replica ι θ} {i : ι} {s t : θ} (h : r.Accounts i t) (hst : s ≤ t) :
    r.Accounts i s := by
  rcases h with ⟨u,hu,htu⟩ | h
  · exact Or.inl ⟨u,hu,le_trans hst htu⟩
  · exact Or.inr (h.mono hst)

instance : LE (Replica ι θ) where
  le a b := (∀ i t, a.live i t → b.Accounts i t) ∧ ∀ i t, a.dead i t → b.Covers i t

theorem Covers.of_le {a b : Replica ι θ} {i : ι} {t : θ} (h : a.Covers i t) (hab : a ≤ b) :
    b.Covers i t := by
  obtain ⟨u,hu,htu⟩ := h
  exact (hab.2 i u hu).mono htu

theorem Accounts.of_le {a b : Replica ι θ} {i : ι} {t : θ} (h : a.Accounts i t) (hab : a ≤ b) :
    b.Accounts i t := by
  rcases h with ⟨u,hu,htu⟩ | h
  · exact (hab.1 i u hu).mono htu
  · exact Or.inr (h.of_le hab)

instance : Preorder (Replica ι θ) where
  le_refl a := ⟨fun _ t h => Or.inl ⟨t,h,le_refl t⟩,fun _ t h => ⟨t,h,le_refl t⟩⟩
  le_trans _ _ _ hab hbc :=
    ⟨fun i t h => (hab.1 i t h).of_le hbc,fun i t h => (hab.2 i t h).of_le hbc⟩

section Represents

variable {ι θ : Type} [LinearOrder θ] {a b m : Replica ι θ} {S T : Set (Replica ι θ)}

def stamps (S : Set (Replica ι θ)) (i : ι) : Set θ := {t | ∃ r ∈ S, r.live i t}

def deletions (S : Set (Replica ι θ)) (i : ι) : Set θ := {t | ∃ r ∈ S, r.dead i t}

structure Represents (a : Replica ι θ) (S : Set (Replica ι θ)) : Prop where
  above : ∀ r ∈ S, r ≤ a
  newest : ∀ i t, a.live i t → IsGreatest (stamps S i) t
  latest : ∀ i t, a.dead i t → IsGreatest (deletions S i) t

def Clean (a : Replica ι θ) : Prop := ∀ i t u, a.live i t → a.dead i u → u < t

private theorem live_of_represents (ha : a.Represents S) (hb : b.Represents S) (hc : a.Clean)
    {i : ι} {t : θ} (h : a.live i t) : b.live i t := by
  have hnewest := ha.newest i t h
  obtain ⟨r,hr,hlive⟩ := hnewest.1
  rcases (hb.above r hr).1 i t hlive with ⟨u,hu,htu⟩ | ⟨u,hu,htu⟩
  · have hut : u ≤ t := hnewest.2 (hb.newest i u hu).1
    rwa [le_antisymm htu hut]
  · obtain ⟨r',hr',hdead⟩ := (hb.latest i u hu).1
    obtain ⟨v,hv,huv⟩ := (ha.above r' hr').2 i u hdead
    have hvt := hc i t v h hv
    exact absurd (lt_of_lt_of_le hvt htu) (not_lt.mpr huv)

private theorem dead_of_represents (ha : a.Represents S) (hb : b.Represents S) {i : ι} {t : θ}
    (h : a.dead i t) : b.dead i t := by
  have hlatest := ha.latest i t h
  obtain ⟨r,hr,hdead⟩ := hlatest.1
  obtain ⟨u,hu,htu⟩ := (hb.above r hr).2 i t hdead
  have hut : u ≤ t := hlatest.2 (hb.latest i u hu).1
  rwa [le_antisymm htu hut]

theorem Represents.eq (ha : a.Represents S) (hb : b.Represents S) (hca : a.Clean) (hcb : b.Clean) :
    a = b := by
  have hlive : a.live = b.live := by
    funext i t
    exact propext ⟨live_of_represents ha hb hca,live_of_represents hb ha hcb⟩
  have hdead : a.dead = b.dead := by
    funext i t
    exact propext ⟨dead_of_represents ha hb,dead_of_represents hb ha⟩
  cases a
  cases b
  simp only at hlive hdead
  rw [hlive,hdead]

/-- What a set holds under a newer stamp than a clean replica above its representative is deleted
there, and so is no newer after all. -/
private theorem stamp_le (ha : a.Represents S) (ham : a ≤ m) (hc : m.Clean) {i : ι} {t s : θ}
    (h : m.live i t) (hge : ∀ u, a.live i u → u ≤ t) (hs : s ∈ stamps S i) : s ≤ t := by
  obtain ⟨r,hr,hlive⟩ := hs
  rcases (ha.above r hr).1 i s hlive with ⟨u,hu,hsu⟩ | hcovers
  · exact le_trans hsu (hge u hu)
  · obtain ⟨v,hv,hsv⟩ := hcovers.of_le ham
    exact le_of_lt (lt_of_le_of_lt hsv (hc i t v h hv))

private theorem deletion_le (ha : a.Represents S) {i : ι} {t s : θ} (hge : ∀ u, a.dead i u → u ≤ t)
    (hs : s ∈ deletions S i) : s ≤ t := by
  obtain ⟨r,hr,hdead⟩ := hs
  obtain ⟨u,hu,hsu⟩ := (ha.above r hr).2 i s hdead
  exact le_trans hsu (hge u hu)

theorem Represents.union (ha : a.Represents S) (hb : b.Represents T) (hm : m.Represents {a,b})
    (hc : m.Clean) : m.Represents (S ∪ T) := by
  have ham : a ≤ m := hm.above a (Or.inl rfl)
  have hbm : b ≤ m := hm.above b (Or.inr rfl)
  refine ⟨?_,?_,?_⟩
  · intro r hr
    rcases hr with hr | hr
    · exact le_trans (ha.above r hr) ham
    · exact le_trans (hb.above r hr) hbm
  · intro i t h
    obtain ⟨⟨x,hx,hlive⟩,hge⟩ := hm.newest i t h
    constructor
    · rcases hx with rfl | rfl
      · obtain ⟨r,hr,hr'⟩ := (ha.newest i t hlive).1
        exact ⟨r,Or.inl hr,hr'⟩
      · obtain ⟨r,hr,hr'⟩ := (hb.newest i t hlive).1
        exact ⟨r,Or.inr hr,hr'⟩
    · intro s hs
      obtain ⟨r,hr | hr,hlive'⟩ := hs
      · exact stamp_le ha ham hc h (fun u hu => hge ⟨a,Or.inl rfl,hu⟩) ⟨r,hr,hlive'⟩
      · exact stamp_le hb hbm hc h (fun u hu => hge ⟨b,Or.inr rfl,hu⟩) ⟨r,hr,hlive'⟩
  · intro i t h
    obtain ⟨⟨x,hx,hdead⟩,hge⟩ := hm.latest i t h
    constructor
    · rcases hx with rfl | rfl
      · obtain ⟨r,hr,hr'⟩ := (ha.latest i t hdead).1
        exact ⟨r,Or.inl hr,hr'⟩
      · obtain ⟨r,hr,hr'⟩ := (hb.latest i t hdead).1
        exact ⟨r,Or.inr hr,hr'⟩
    · intro s hs
      obtain ⟨r,hr | hr,hdead'⟩ := hs
      · exact deletion_le ha (fun u hu => hge ⟨a,Or.inl rfl,hu⟩) ⟨r,hr,hdead'⟩
      · exact deletion_le hb (fun u hu => hge ⟨b,Or.inr rfl,hu⟩) ⟨r,hr,hdead'⟩

end Represents

end Replica

end WeirdVault.Framework
