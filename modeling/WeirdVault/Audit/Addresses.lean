import Mathlib.Data.List.Basic
import WeirdVault.Framework.Lines
import WeirdVault.Framework.Numerals

/-!
# Addresses and their texts

Internet addresses of both kinds, the networks that audit events name, and every text that an
address has: zeros in front of a group or not, capital or small letters, one run of zero groups left
out, and an IPv4 tail for the last two groups.
-/

namespace WeirdVault.Audit

open WeirdVault.Framework

structure V4 where
  octets : List Nat
  four : octets.length = 4
  small : ∀ o ∈ octets, o < 256

structure V6 where
  groups : List Nat
  eight : groups.length = 8
  small : ∀ g ∈ groups, g < 65536

inductive Address
  | v4 (a : V4)
  | v6 (a : V6)

def Address.network : Address → Bool × List Nat
  | .v4 a => (false,a.octets.take 3)
  | .v6 a => (true,a.groups.take 3)

def Address.base : Address → Address
  | .v4 a => .v4 ⟨a.octets.take 3 ++ [0],by simp [a.four],by
      intro o ho
      rcases List.mem_append.mp ho with h | h
      · exact a.small o (List.mem_of_mem_take h)
      · simp at h
        omega⟩
  | .v6 a => .v6 ⟨a.groups.take 3 ++ [0,0,0,0,0],by simp [a.eight],by
      intro g hg
      rcases List.mem_append.mp hg with h | h
      · exact a.small g (List.mem_of_mem_take h)
      · simp at h
        omega⟩

def Address.bits : Address → Text
  | .v4 _ => "/24".toList
  | .v6 _ => "/48".toList

def V4.of? (octets : List Nat) : Option V4 :=
  if h : octets.length = 4 ∧ ∀ o ∈ octets, o < 256 then some ⟨octets,h.1,h.2⟩ else none

def V6.of? (groups : List Nat) : Option V6 :=
  if h : groups.length = 8 ∧ ∀ g ∈ groups, g < 65536 then some ⟨groups,h.1,h.2⟩ else none

def octet? (s : Text) : Option Nat := if s.length ≤ 3 then number? 10 s else none

def group? (s : Text) : Option Nat := if s.length ≤ 4 then number? 16 s else none

def v4? (octets : List Text) : Option V4 := (octets.mapM octet?).bind V4.of?

def V4.groups (a : V4) : List Nat :=
  match a.octets with
  | [b,c,d,e] => [b*256+c,d*256+e]
  | _ => []

/-- The groups of a text, of which the last may be an IPv4 address. -/
def groups? : List Text → Option (List Nat)
  | [] => some []
  | [s] => match group? s with
    | some g => some [g]
    | none => (v4? (s.splitOn '.')).map V4.groups
  | s :: t :: ss => do
    let g ← group? s
    let gs ← groups? (t :: ss)
    some (g :: gs)

def join (sep : Char) (parts : List Text) : Text := [sep].intercalate parts

/-- How an address is written. -/
inductive Spelling
  | v4 (octets : List Text)
  | v6 (groups : List Text)
  | compressed (front back : List Text)

def Spelling.text : Spelling → Text
  | .v4 octets => join '.' octets
  | .v6 groups => join ':' groups
  | .compressed front back => join ':' front ++ ':' :: ':' :: join ':' back

/-- The address of a well-formed text. What `::` leaves out is at least one group. -/
def Spelling.address? : Spelling → Option Address
  | .v4 octets => (v4? octets).map .v4
  | .v6 groups => ((groups? groups).bind V6.of?).map .v6
  | .compressed front back => do
    let x ← front.mapM group?
    let y ← groups? back
    if x.length+y.length < 8 then
      (V6.of? (x ++ List.replicate (8-(x.length+y.length)) 0 ++ y)).map .v6
    else none

def Address.plain : Address → Spelling
  | .v4 a => .v4 (a.octets.map (numeral 10))
  | .v6 a => .v6 (a.groups.map (numeral 16))

def IsAddressChar (c : Char) : Prop := (digit? 16 c).isSome ∨ c = '.'

/-- A part of an address: not empty, and without a separator of groups. -/
def IsPart (s : Text) : Prop := s ≠ [] ∧ ∀ c ∈ s, IsAddressChar c

theorem IsPart.colon {s : Text} (h : IsPart s) : ':' ∉ s := by
  intro hmem
  rcases h.2 ':' hmem with hdigit | hdot
  · cases hdigit
  · cases hdot

theorem digit?_mono {b b' : Nat} (h : b ≤ b') {c : Char} (hc : (digit? b c).isSome) :
    (digit? b' c).isSome := by
  obtain ⟨d,hd⟩ := Option.isSome_iff_exists.mp hc
  obtain ⟨hany,hlt⟩ := Option.filter_eq_some_iff.mp hd
  have hd' : digit? b' c = some d :=
    Option.filter_eq_some_iff.mpr ⟨hany,decide_eq_true ((of_decide_eq_true hlt).trans_le h)⟩
  rw [hd']
  rfl

theorem isPart_of_number? {b n : Nat} {s : Text} (hb : b ≤ 16) (h : number? b s = some n) :
    IsPart s :=
  ⟨ne_nil_of_number? h,fun _ hc => Or.inl (digit?_mono hb (digit?_of_number? h hc))⟩

theorem number?_of_group? {s : Text} {g : Nat} (h : group? s = some g) :
    number? 16 s = some g ∧ s.length ≤ 4 := by
  unfold group? at h
  split at h
  · exact ⟨h,by assumption⟩
  · cases h

theorem number?_of_octet? {s : Text} {o : Nat} (h : octet? s = some o) :
    number? 10 s = some o ∧ s.length ≤ 3 := by
  unfold octet? at h
  split at h
  · exact ⟨h,by assumption⟩
  · cases h

theorem v4_of?_eq {octets : List Nat} {a : V4} (h : V4.of? octets = some a) :
    a.octets = octets := by
  unfold V4.of? at h
  split at h
  · obtain rfl := Option.some.inj h
    rfl
  · cases h

theorem v6_of?_eq {groups : List Nat} {a : V6} (h : V6.of? groups = some a) :
    a.groups = groups := by
  unfold V6.of? at h
  split at h
  · obtain rfl := Option.some.inj h
    rfl
  · cases h

theorem v4_of?_octets (a : V4) : V4.of? a.octets = some a := by
  rw [V4.of?,dif_pos ⟨a.four,a.small⟩]

theorem v6_of?_groups (a : V6) : V6.of? a.groups = some a := by
  rw [V6.of?,dif_pos ⟨a.eight,a.small⟩]

theorem getElem?_mapM {α β : Type} {f : α → Option β} {xs : List α} {ys : List β}
    (h : xs.mapM f = some ys) : xs.length = ys.length ∧
      ∀ (i : Nat) x, xs[i]? = some x → ∃ y, f x = some y ∧ ys[i]? = some y := by
  induction xs generalizing ys with
  | nil =>
    obtain rfl := Option.some.inj h
    simp
  | cons x xs ih =>
    rw [List.mapM_cons] at h
    obtain ⟨y,hy,hrest⟩ := Option.bind_eq_some_iff.mp h
    obtain ⟨zs,hzs,he⟩ := Option.bind_eq_some_iff.mp hrest
    obtain rfl := Option.some.inj he
    obtain ⟨hlen,hget⟩ := ih hzs
    refine ⟨by simp [hlen],?_⟩
    intro i a ha
    cases i with
    | zero =>
      obtain rfl := Option.some.inj ha
      exact ⟨y,hy,rfl⟩
    | succ i => exact hget i a ha

theorem isPart_of_mapM_group? {ss : List Text} {gs : List Nat} (h : ss.mapM group? = some gs) :
    ∀ s ∈ ss, IsPart s := by
  intro s hs
  obtain ⟨i,hi⟩ := List.mem_iff_getElem?.mp hs
  obtain ⟨g,hg,-⟩ := (getElem?_mapM h).2 i s hi
  exact isPart_of_number? (by omega) (number?_of_group? hg).1

theorem isPart_of_v4? {s : Text} {a : V4} (h : v4? (s.splitOn '.') = some a) : IsPart s := by
  obtain ⟨octets,hoctets,ha⟩ := Option.bind_eq_some_iff.mp h
  have hlen := (getElem?_mapM hoctets).1
  have hfour : octets.length = 4 := by
    rw [← v4_of?_eq ha]
    exact a.four
  have hpart : ∀ t ∈ s.splitOn '.', ∀ c ∈ t, IsAddressChar c := by
    intro t ht
    obtain ⟨i,hi⟩ := List.mem_iff_getElem?.mp ht
    obtain ⟨o,ho,-⟩ := (getElem?_mapM hoctets).2 i t hi
    exact (isPart_of_number? (by omega) (number?_of_octet? ho).1).2
  refine ⟨?_,?_⟩
  · rintro rfl
    rw [hfour] at hlen
    cases hlen
  · intro c hc
    have hjoin : c ∈ ['.'].intercalate (s.splitOn '.') := by rwa [List.intercalate_splitOn]
    rcases mem_intercalate hjoin with rfl | ⟨t,ht,hct⟩
    · exact Or.inr rfl
    · exact hpart t ht c hct

structure Reads (ss : List Text) (gs : List Nat) : Prop where
  parts : ∀ s ∈ ss, IsPart s
  atLeast : ss.length ≤ gs.length
  atMost : gs.length ≤ ss.length+1
  group : ∀ (i : Nat) s, ss[i]? = some s → i+1 < ss.length → (group? s).isSome
  value : ∀ (i : Nat) s g, ss[i]? = some s → group? s = some g → gs[i]? = some g

theorem reads_of_groups? {ss : List Text} {gs : List Nat} (h : groups? ss = some gs) :
    Reads ss gs := by
  induction ss generalizing gs with
  | nil =>
    obtain rfl := Option.some.inj h
    exact ⟨by simp,by simp,by simp,by simp,by simp⟩
  | cons s ss ih =>
    cases ss with
    | nil =>
      simp only [groups?] at h
      split at h
      · rename_i g hg
        obtain rfl := Option.some.inj h
        refine ⟨?_,by simp,by simp,by simp,?_⟩
        · intro t ht
          obtain rfl := List.mem_singleton.mp ht
          exact isPart_of_number? (by omega) (number?_of_group? hg).1
        · intro i t g' ht hg'
          cases i with
          | zero =>
            obtain rfl := Option.some.inj ht
            exact hg.symm.trans hg'
          | succ i => cases ht
      · rename_i hg
        obtain ⟨a,ha,rfl⟩ := Option.map_eq_some_iff.mp h
        have htwo : a.groups.length = 2 := by
          obtain ⟨octets,hfour,-⟩ := a
          match octets,hfour with
          | [b,c,d,e],_ => rfl
        refine ⟨?_,by simp [htwo],by simp [htwo],by simp,?_⟩
        · intro t ht
          obtain rfl := List.mem_singleton.mp ht
          exact isPart_of_v4? ha
        · intro i t g' ht hg'
          cases i with
          | zero =>
            obtain rfl := Option.some.inj ht
            rw [hg] at hg'
            cases hg'
          | succ i => cases ht
    | cons t ss =>
      simp only [groups?] at h
      obtain ⟨g,hg,hrest⟩ := Option.bind_eq_some_iff.mp h
      obtain ⟨gs',hgs,he⟩ := Option.bind_eq_some_iff.mp hrest
      obtain rfl := Option.some.inj he
      obtain ⟨hparts,hleast,hmost,hgroup,hvalue⟩ := ih hgs
      refine ⟨?_,by simpa using hleast,by simpa using hmost,?_,?_⟩
      · intro u hu
        rcases List.mem_cons.mp hu with rfl | hu
        · exact isPart_of_number? (by omega) (number?_of_group? hg).1
        · exact hparts u hu
      · intro i u hu hlt
        cases i with
        | zero =>
          obtain rfl := Option.some.inj hu
          rw [hg]
          rfl
        | succ i => exact hgroup i u hu (by simpa using hlt)
      · intro i u g' hu hg'
        cases i with
        | zero =>
          obtain rfl := Option.some.inj hu
          exact hg.symm.trans hg'
        | succ i => exact hvalue i u g' hu hg'

theorem group?_numeral {g : Nat} (h : g < 65536) : group? (numeral 16 g) = some g := by
  rw [group?,if_pos (length_numeral_le (by omega) (by omega) (by simpa using h)),
    number?_numeral (by omega) (by omega)]

theorem octet?_numeral {o : Nat} (h : o < 256) : octet? (numeral 10 o) = some o := by
  rw [octet?,if_pos (length_numeral_le (by omega) (by omega) (by norm_num; omega)),
    number?_numeral (by omega) (by omega)]

theorem mapM_numeral {f : Text → Option Nat} {b : Nat} {ns : List Nat}
    (h : ∀ n ∈ ns, f (numeral b n) = some n) : (ns.map (numeral b)).mapM f = some ns := by
  induction ns with
  | nil => rfl
  | cons n ns ih =>
    rw [List.map_cons,List.mapM_cons,h n (by simp),ih (fun m hm => h m (by simp [hm]))]
    rfl

theorem groups?_numeral {gs : List Nat} (h : ∀ g ∈ gs, g < 65536) :
    groups? (gs.map (numeral 16)) = some gs := by
  induction gs with
  | nil => rfl
  | cons g gs ih =>
    have hg := group?_numeral (h g (by simp))
    have hrest := ih (fun k hk => h k (by simp [hk]))
    cases gs with
    | nil => simp only [List.map_cons,List.map_nil,groups?,hg]
    | cons k gs =>
      simp only [List.map_cons] at hrest ⊢
      simp only [groups?,hg,hrest]
      rfl

theorem address?_plain (a : Address) : a.plain.address? = some a := by
  cases a with
  | v4 a =>
    simp only [Address.plain,Spelling.address?,v4?,mapM_numeral (fun o ho => octet?_numeral
      (a.small o ho)),Option.bind_some,v4_of?_octets,Option.map_some]
  | v6 a =>
    simp only [Address.plain,Spelling.address?,groups?_numeral a.small,Option.bind_some,
      v6_of?_groups,Option.map_some]

end WeirdVault.Audit
