import WeirdVault.Framework.Url

/-!
# The path and the query that an address asks for

Of addresses with a host, as the URL standard parses them. Segments of dots are not asked for.
-/

namespace WeirdVault.Framework.Url

def isSlash (c : Char) : Bool := c = '/' || c = Char.ofNat 0x5C

def endsPath (c : Char) : Bool := c = '?' || c = '#'

/-- `'` is among them where the scheme has hosts. -/
def inQuerySet (c : Char) : Bool :=
  isControl c || [' ','"','#','<','>',Char.ofNat 0x27].contains c

def inPathSet (c : Char) : Bool :=
  isControl c || [' ','"','#','<','>','?','^',Char.ofNat 0x60,Char.ofNat 0x7B,
    Char.ofNat 0x7D].contains c

def afterHost (s : Text) : Text :=
  (((s.dropWhile (· ≠ ':')).drop 1).dropWhile isSlash).dropWhile fun c => !(isSlash c || endsPath c)

def dots : List Text := [['.'],"%2e".toList,"%2E".toList]

def isSingleDot (s : Text) : Bool := dots.contains s

def isDoubleDot (s : Text) : Bool := dots.any fun a => dots.any fun b => a ++ b = s

def walk (path : List Text) : List Text → List Text
  | [] => path
  | [s] =>
    if isDoubleDot s then path.dropLast ++ [[]]
    else if isSingleDot s then path ++ [[]]
    else path ++ [percentEncode inPathSet s]
  | s :: t :: rest =>
    if isDoubleDot s then walk path.dropLast (t :: rest)
    else if isSingleDot s then walk path (t :: rest)
    else walk (path ++ [percentEncode inPathSet s]) (t :: rest)

def withoutSlash : Text → Text
  | [] => []
  | c :: s => if isSlash c then s else c :: s

def serialize (segments : List Text) : Text := segments.flatMap ('/' :: ·)

theorem serialize_cons (s : Text) (segments : List Text) :
    serialize (s :: segments) = '/' :: ['/'].intercalate (s :: segments) := by
  induction segments generalizing s with
  | nil => simp [serialize]
  | cons t segments ih =>
    rw [List.intercalate_cons_cons,List.append_assoc,List.singleton_append,← ih t]
    rfl

theorem serialize_inj {ss ts : List Text} (hs : ∀ s ∈ ss, '/' ∉ s) (ht : ∀ t ∈ ts, '/' ∉ t)
    (h : serialize ss = serialize ts) : ss = ts := by
  cases ss with
  | nil =>
    cases ts with
    | nil => rfl
    | cons t ts => cases h
  | cons s ss =>
    cases ts with
    | nil => cases h
    | cons t ts =>
      rw [serialize_cons,serialize_cons] at h
      have hjoin := (List.cons.inj h).2
      rw [← List.splitOn_intercalate '/' hs (List.cons_ne_nil _ _),hjoin,
        List.splitOn_intercalate '/' ht (List.cons_ne_nil _ _)]

def pathname (s : Text) : Text :=
  serialize (walk [] ((withoutSlash ((afterHost (cleaned s)).takeWhile fun c => !endsPath c)).splitOnP
    isSlash))

def search (s : Text) : Text :=
  match (afterHost (cleaned s)).dropWhile (fun c => !endsPath c) with
  | '?' :: rest =>
    let query := rest.takeWhile (· ≠ '#')
    if query = [] then [] else '?' :: percentEncode inQuerySet query
  | _ => []

def IsDots (s : Text) : Prop := isSingleDot s = true ∨ isDoubleDot s = true

theorem mem_of_isDots {s : Text} (h : IsDots s) :
    s ∈ dots ++ dots.flatMap fun a => dots.map fun b => a ++ b := by
  rcases h with h | h
  · exact List.mem_append_left _ (List.contains_iff_mem.mp h)
  · simp only [isDoubleDot,List.any_eq_true,decide_eq_true_eq] at h
    obtain ⟨a,ha,b,hb,rfl⟩ := h
    exact List.mem_append_right _ (List.mem_flatMap.mpr ⟨a,ha,List.mem_map.mpr ⟨b,hb,rfl⟩⟩)

theorem not_dots_nil : ¬ IsDots [] := by
  unfold IsDots
  decide

theorem walk_plain (path : List Text) {segments : List Text}
    (h : ∀ s ∈ segments, ¬ IsDots s ∧ percentEncode inPathSet s = s) :
    walk path segments = path ++ segments := by
  fun_induction walk path segments with
  | case1 => exact (List.append_nil _).symm
  | case2 path s hdouble => exact absurd (Or.inr hdouble) (h s List.mem_cons_self).1
  | case3 path s _ hsingle => exact absurd (Or.inl hsingle) (h s List.mem_cons_self).1
  | case4 path s => rw [(h s List.mem_cons_self).2]
  | case5 path s t rest hdouble => exact absurd (Or.inr hdouble) (h s List.mem_cons_self).1
  | case6 path s t rest _ hsingle => exact absurd (Or.inl hsingle) (h s List.mem_cons_self).1
  | case7 path s t rest _ _ ih =>
    rw [ih fun u hu => h u (List.mem_cons_of_mem _ hu),(h s List.mem_cons_self).2,List.append_assoc]
    rfl

theorem walk_no_dots (path : List Text) {segments : List Text} (hpath : ∀ s ∈ path, ¬ IsDots s)
    (h : ∀ s ∈ segments, percentEncode inPathSet s = s) :
    ∀ s ∈ walk path segments, ¬ IsDots s ∧ (s ∈ path ∨ s ∈ segments ∨ s = []) := by
  fun_induction walk path segments with
  | case1 path => exact fun s hs => ⟨hpath s hs,Or.inl hs⟩
  | case2 path t hdouble =>
    intro s hs
    rcases List.mem_append.mp hs with hs | hs
    · have hmem := List.mem_of_mem_dropLast hs
      exact ⟨hpath s hmem,Or.inl hmem⟩
    · obtain rfl := List.mem_singleton.mp hs
      exact ⟨not_dots_nil,Or.inr (Or.inr rfl)⟩
  | case3 path t _ hsingle =>
    intro s hs
    rcases List.mem_append.mp hs with hs | hs
    · exact ⟨hpath s hs,Or.inl hs⟩
    · obtain rfl := List.mem_singleton.mp hs
      exact ⟨not_dots_nil,Or.inr (Or.inr rfl)⟩
  | case4 path t hdouble hsingle =>
    intro s hs
    rcases List.mem_append.mp hs with hs | hs
    · exact ⟨hpath s hs,Or.inl hs⟩
    · rw [h t List.mem_cons_self,List.mem_singleton] at hs
      subst hs
      exact ⟨fun hdots => hdots.elim hsingle hdouble,Or.inr (Or.inl List.mem_cons_self)⟩
  | case5 path t u rest hdouble ih =>
    intro s hs
    obtain ⟨hdots,hfrom⟩ := ih (fun s hs => hpath s (List.mem_of_mem_dropLast hs))
      (fun s hs => h s (List.mem_cons_of_mem _ hs)) s hs
    refine ⟨hdots,?_⟩
    rcases hfrom with hfrom | hfrom | hfrom
    · exact Or.inl (List.mem_of_mem_dropLast hfrom)
    · exact Or.inr (Or.inl (List.mem_cons_of_mem _ hfrom))
    · exact Or.inr (Or.inr hfrom)
  | case6 path t u rest _ hsingle ih =>
    intro s hs
    obtain ⟨hdots,hfrom⟩ := ih hpath (fun s hs => h s (List.mem_cons_of_mem _ hs)) s hs
    refine ⟨hdots,?_⟩
    rcases hfrom with hfrom | hfrom | hfrom
    · exact Or.inl hfrom
    · exact Or.inr (Or.inl (List.mem_cons_of_mem _ hfrom))
    · exact Or.inr (Or.inr hfrom)
  | case7 path t u rest hdouble hsingle ih =>
    have ht := h t List.mem_cons_self
    have hplain : ¬ IsDots t := fun hdots => hdots.elim hsingle hdouble
    intro s hs
    obtain ⟨hdots,hfrom⟩ := ih (by
      intro v hv
      rcases List.mem_append.mp hv with hv | hv
      · exact hpath v hv
      · rw [ht,List.mem_singleton] at hv
        exact hv ▸ hplain) (fun s hs => h s (List.mem_cons_of_mem _ hs)) s hs
    refine ⟨hdots,?_⟩
    rcases hfrom with hfrom | hfrom | hfrom
    · rcases List.mem_append.mp hfrom with hfrom | hfrom
      · exact Or.inl hfrom
      · rw [ht,List.mem_singleton] at hfrom
        exact Or.inr (Or.inl (hfrom ▸ List.mem_cons_self))
    · exact Or.inr (Or.inl (List.mem_cons_of_mem _ hfrom))
    · exact Or.inr (Or.inr hfrom)

def IsVisible (c : Char) : Prop := 0x20 < c.toNat ∧ c.toNat ≤ 0x7E

theorem cleaned_eq_self {s : Text} (h : ∀ c ∈ s, IsVisible c) : cleaned s = s := by
  have hspace : ∀ c ∈ s, ¬ isC0OrSpace c = true := by
    intro c hc hblank
    have hlow := (h c hc).1
    have hle := of_decide_eq_true hblank
    omega
  have hfront : s.dropWhile isC0OrSpace = s := by
    rw [List.dropWhile_eq_self_iff]
    intro hlength
    exact hspace _ (List.getElem_mem hlength)
  have hback : s.rdropWhile isC0OrSpace = s := by
    rw [List.rdropWhile_eq_self_iff]
    intro hne
    exact hspace _ (List.getLast_mem hne)
  rw [cleaned,hfront,hback,List.filter_eq_self]
  intro c hc
  have hlow := (h c hc).1
  have hne : ∀ d : Char, d.toNat ≤ 0x20 → decide (c = d) = false := by
    intro d hd
    rw [decide_eq_false_iff_not]
    rintro rfl
    omega
  rw [isTabOrNewline,hne _ (by decide),hne _ (by decide),hne _ (by decide)]
  rfl

structure Origin where
  scheme : Text
  host : Text
  scheme_mem : scheme ∈ ["https".toList,"http".toList]
  host_ne_nil : host ≠ []
  host_plain : ∀ c ∈ host, IsVisible c ∧ isSlash c = false ∧ endsPath c = false

def Origin.text (o : Origin) : Text := o.scheme ++ "://".toList ++ o.host

theorem afterHost_text (o : Origin) {rest : Text} (h : ∀ c ∈ rest.head?, isSlash c = true)
    (hvisible : ∀ c ∈ rest, IsVisible c) : afterHost (cleaned (o.text ++ rest)) = rest := by
  have hscheme : ∀ scheme ∈ ["https".toList,"http".toList],
      (∀ c ∈ scheme, IsVisible c ∧ decide (c ≠ ':') = true) := by
    simp only [List.forall_mem_cons,IsVisible]
    exact ⟨List.forall_iff_forall_mem.mp (by decide),List.forall_iff_forall_mem.mp (by decide),
      List.forall_mem_nil _⟩
  have hmarks : ∀ c ∈ "://".toList, IsVisible c := by
    unfold IsVisible
    exact List.forall_iff_forall_mem.mp (by decide)
  have hclean : cleaned (o.text ++ rest) = o.scheme ++ (':' :: '/' :: '/' :: (o.host ++ rest)) := by
    rw [cleaned_eq_self]
    · simp [Origin.text]
    · intro c hc
      simp only [Origin.text,List.mem_append] at hc
      rcases hc with ((hc | hc) | hc) | hc
      · exact (hscheme _ o.scheme_mem c hc).1
      · exact hmarks c hc
      · exact (o.host_plain c hc).1
      · exact hvisible c hc
  have hhost : (o.host ++ rest).dropWhile isSlash = o.host ++ rest := by
    obtain ⟨c,host,hhost⟩ := List.exists_cons_of_ne_nil o.host_ne_nil
    have hc := (o.host_plain c (by rw [hhost]; exact List.mem_cons_self)).2.1
    rw [hhost,List.cons_append,List.dropWhile_cons_of_neg (by rw [hc]; exact Bool.false_ne_true)]
  have hrest : rest.dropWhile (fun c => !(isSlash c || endsPath c)) = rest := by
    cases rest with
    | nil => rfl
    | cons c rest =>
      have hc : isSlash c = true := h c (by simp)
      rw [List.dropWhile_cons_of_neg (by simp [hc])]
  rw [hclean,afterHost,List.dropWhile_append_of_pos fun c hc => (hscheme _ o.scheme_mem c hc).2,
    List.dropWhile_cons_of_neg (by decide),List.drop_succ_cons,List.drop_zero,
    List.dropWhile_cons_of_pos (by decide),List.dropWhile_cons_of_pos (by decide),hhost,
    List.dropWhile_append_of_pos,hrest]
  intro c hc
  obtain ⟨_,hslash,hends⟩ := o.host_plain c hc
  rw [hslash,hends]
  rfl

theorem harmless_query : Harmless inQuerySet := by
  apply harmless_of_codes [0x20,0x22,0x23,0x3C,0x3E,0x27]
  · intro c hc
    simp only [inQuerySet,Bool.or_eq_true,List.contains_eq_mem,decide_eq_true_eq] at hc
    rcases hc with hc | hc
    · exact Or.inl hc
    · exact Or.inr (List.mem_map_of_mem (f := Char.toNat) hc)
  · decide

def IsPathChar (c : Char) : Prop :=
  IsVisible c ∧ isSlash c = false ∧ endsPath c = false ∧ inPathSet c = false

private theorem splitOnP_serialize (s : Text) {segments : List Text}
    (hs : ∀ c ∈ s, IsPathChar c) (h : ∀ t ∈ segments, ∀ c ∈ t, IsPathChar c) :
    (s ++ serialize segments).splitOnP isSlash = s :: segments := by
  have hslash : ∀ {t : Text}, (∀ c ∈ t, IsPathChar c) → ∀ c ∈ t, isSlash c = false :=
    fun ht c hc => (ht c hc).2.1
  induction segments generalizing s with
  | nil =>
    rw [serialize,List.flatMap_nil,List.append_nil]
    exact List.splitOnP_eq_singleton (hslash hs)
  | cons t segments ih =>
    obtain ⟨ht,hrest⟩ := List.forall_mem_cons.mp h
    have hserialize : serialize (t :: segments) = '/' :: (t ++ serialize segments) := rfl
    rw [hserialize,List.splitOnP_append_cons_of_forall_mem (hslash hs) '/' (by decide),ih t ht hrest]

section Written

variable (o : Origin) {segments : List Text} (hne : segments ≠ [])
  (h : ∀ s ∈ segments, ∀ c ∈ s, IsPathChar c)

include h

private theorem mem_serialize {c : Char} (hc : c ∈ serialize segments) :
    IsVisible c ∧ endsPath c = false := by
  obtain ⟨s,hs,hmem⟩ := List.mem_flatMap.mp hc
  rcases List.mem_cons.mp hmem with rfl | hmem
  · unfold IsVisible
    decide
  · obtain ⟨hvisible,_,hends,_⟩ := h s hs c hmem
    exact ⟨hvisible,hends⟩

include hne

private theorem afterHost_serialize {tail : Text} (htail : ∀ c ∈ tail, IsVisible c) :
    afterHost (cleaned (o.text ++ (serialize segments ++ tail))) = serialize segments ++ tail := by
  obtain ⟨s,rest,rfl⟩ := List.exists_cons_of_ne_nil hne
  apply afterHost_text
  · intro c hc
    obtain rfl := Option.some.inj hc
    decide
  · intro c hc
    rcases List.mem_append.mp hc with hc | hc
    · exact (mem_serialize h hc).1
    · exact htail c hc

theorem pathname_written {tail : Text} (htail : ∀ c ∈ tail, IsVisible c)
    (hends : ∀ c ∈ tail.head?, endsPath c = true) :
    pathname (o.text ++ (serialize segments ++ tail)) = serialize (walk [] segments) := by
  have htake : (serialize segments ++ tail).takeWhile (fun c => !endsPath c) =
      serialize segments := by
    rw [List.takeWhile_append_of_pos]
    · cases tail with
      | nil => exact List.append_nil _
      | cons c tail =>
        rw [List.takeWhile_cons_of_neg (by simp [hends c (by simp)]),List.append_nil]
    · intro c hc
      rw [(mem_serialize h hc).2]
      rfl
  rw [pathname,afterHost_serialize o hne h htail,htake]
  obtain ⟨s,rest,rfl⟩ := List.exists_cons_of_ne_nil hne
  obtain ⟨hs,hrest⟩ := List.forall_mem_cons.mp h
  have hwithout : withoutSlash (serialize (s :: rest)) = s ++ serialize rest := rfl
  rw [hwithout,splitOnP_serialize s hs hrest]

theorem search_written {query : Text} (hquery : ∀ c ∈ query, IsVisible c ∧ c ≠ '#') :
    search (o.text ++ (serialize segments ++ '?' :: query)) =
      if query = [] then [] else '?' :: percentEncode inQuerySet query := by
  have hvisible : ∀ c ∈ '?' :: query, IsVisible c := by
    intro c hc
    rcases List.mem_cons.mp hc with rfl | hc
    · unfold IsVisible
      decide
    · exact (hquery c hc).1
  have htake : query.takeWhile (· ≠ '#') = query := by
    rw [List.takeWhile_eq_self_iff]
    intro c hc
    rw [decide_eq_true_eq]
    exact (hquery c hc).2
  rw [search,afterHost_serialize o hne h hvisible,List.dropWhile_append_of_pos,
    List.dropWhile_cons_of_neg (by decide)]
  · simp only [htake]
  · intro c hc
    rw [(mem_serialize h hc).2]
    rfl

theorem search_nothing : search (o.text ++ serialize segments) = [] := by
  have hafter := @afterHost_serialize o _ hne h [] (fun c hc => nomatch hc)
  rw [List.append_nil] at hafter
  have hdrop : (serialize segments).dropWhile (fun c => !endsPath c) = [] := by
    rw [List.dropWhile_eq_nil_iff]
    intro c hc
    rw [(mem_serialize h hc).2]
    rfl
  rw [search,hafter,hdrop]

end Written

end WeirdVault.Framework.Url
