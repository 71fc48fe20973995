import WeirdVault.Audit.IpPrefix
import Mathlib.Data.List.TakeWhile

/-! # The address that the outermost proxy observed -/

namespace WeirdVault.Audit

open WeirdVault.Framework

/-- `Number.parseInt(raw, 10)`, with `none` for `NaN`. What follows the digits is not read. -/
def parseInt (raw : Text) : Option Int :=
  let s := raw.dropWhile isSpace
  let signed := s.head? = some '-' ∨ s.head? = some '+'
  let digits := (if signed then s.tail else s).takeWhile fun c => (digit? 10 c).isSome
  (number? 10 digits).map fun n => if s.head? = some '-' then -n else n

def trustedHops (env : Option Text) : Nat :=
  match env with
  | none => 0
  | some raw =>
    if raw = [] then 0
    else match parseInt raw with
      | some n => if 1 ≤ n ∧ n ≤ 8 then n.toNat else 0
      | none => 0

def proxyConfigured (hops : Nat) : Bool := 0 < hops

/-- `h.get("x-forwarded-for")`: the lines of that name, joined. -/
def forwardedFor (lines : List Text) : Option Text :=
  if lines = [] then none else some ([',',' '].intercalate lines)

def hopsOf (forwarded : Text) : List Text := ((forwarded.splitOn ',').map trim).filter (· ≠ [])

def clientAddress (hops : Nat) (lines : List Text) : Option Text :=
  if hops = 0 then none
  else match forwardedFor lines with
    | none => none
    | some forwarded =>
      if forwarded = [] then none
      else
        let entries := hopsOf forwarded
        if hops ≤ entries.length then entries[entries.length-hops]? else none

def UNRESOLVED : Text := "unresolved".toList

def subjectFor (hops : Nat) (lines : List Text) (userId : Option Text) : Text :=
  match userId.filter (· ≠ []) with
  | some id => "u:".toList ++ id
  | none =>
    if !proxyConfigured hops then UNRESOLVED
    else match (clientAddress hops lines).filter (· ≠ []) with
      | none => UNRESOLVED
      | some address =>
        match ipPrefix (some address) with
        | some network => if network = [] then UNRESOLVED else "n:".toList ++ network
        | none => UNRESOLVED

def IsBlank (s : Text) : Prop := ∀ c ∈ s, isSpace c

instance (s : Text) : Decidable (IsBlank s) :=
  decidable_of_iff (s.all isSpace) List.all_eq_true

def entries (lines : List Text) : List Text :=
  lines.flatMap fun l => (l.splitOn ',').filter fun s => ¬ IsBlank s

structure IsPeer (addr : Text) : Prop where
  nonempty : addr ≠ []
  comma : ',' ∉ addr
  trimmed : trim addr = addr

/-- A proxy adds the address of its peer behind everything that it was sent. -/
inductive Appends (addr : Text) : List Text → List Text → Prop where
  | line (lines : List Text) : Appends addr lines (lines ++ [addr])
  | last (lines : List Text) (l b b' : Text) (hb : IsBlank b) (hb' : IsBlank b') :
      Appends addr (lines ++ [l]) (lines ++ [l ++ b ++ ',' :: (b' ++ addr)])
  | joined (lines : List Text) (b b' : Text) (hb : IsBlank b) (hb' : IsBlank b') :
      Appends addr lines [[',',' '].intercalate lines ++ b ++ ',' :: (b' ++ addr)]
  | only (lines : List Text) (h : entries lines = []) : Appends addr lines [addr]

/-- Proxies one behind the other, the one that the client is connected to first. -/
inductive Chain : List Text → List Text → List Text → Prop where
  | nil (lines : List Text) : Chain [] lines lines
  | cons {addr : Text} {addrs sent lines received : List Text} (h : Appends addr sent lines)
      (hrest : Chain addrs lines received) : Chain (addr :: addrs) sent received

private theorem dropWhile_blank {b : Text} (h : IsBlank b) (s : Text) :
    (b ++ s).dropWhile isSpace = s.dropWhile isSpace := by
  induction b with
  | nil => rfl
  | cons c b ih =>
    rw [List.cons_append,List.dropWhile_cons_of_pos (h c (by simp))]
    exact ih fun c' hc' => h c' (List.mem_cons_of_mem c hc')

private theorem trim_blank_append {b : Text} (h : IsBlank b) (s : Text) :
    trim (b ++ s) = trim s := by
  rw [trim,dropWhile_blank h,trim]

private theorem trim_append_blank {b : Text} (h : IsBlank b) (s : Text) :
    trim (s ++ b) = trim s := by
  have hreverse : IsBlank b.reverse := fun c hc => h c (List.mem_reverse.mp hc)
  induction s with
  | nil =>
    rw [List.nil_append,trim,List.dropWhile_eq_nil_iff.mpr h]
    rfl
  | cons c s ih =>
    by_cases hc : isSpace c
    · simp only [trim,List.cons_append,List.dropWhile_cons_of_pos hc] at ih ⊢
      exact ih
    · simp only [trim,List.cons_append,List.dropWhile_cons_of_neg hc]
      rw [← List.cons_append,List.reverse_append,dropWhile_blank hreverse]

private theorem trim_eq_nil {s : Text} : trim s = [] ↔ IsBlank s := by
  constructor
  · intro h
    induction s with
    | nil => simp [IsBlank]
    | cons c s ih =>
      by_cases hc : isSpace c
      · rw [trim,List.dropWhile_cons_of_pos hc] at h
        intro c' hc'
        rcases List.mem_cons.mp hc' with rfl | hmem
        · exact hc
        · exact ih h c' hmem
      · rw [trim,List.dropWhile_cons_of_neg hc,List.reverse_eq_nil_iff,
          List.dropWhile_eq_nil_iff] at h
        exact absurd (h c (by simp)) hc
  · intro h
    rw [trim,List.dropWhile_eq_nil_iff.mpr h]
    rfl

theorem hopsOf_comma (s t : Text) : hopsOf (s ++ ',' :: t) = hopsOf s ++ hopsOf t := by
  simp only [hopsOf,List.splitOn_append_cons_self,List.map_append,List.filter_append]

private theorem splitOn_cons_other {c : Char} (h : c ≠ ',') (s : Text) :
    (c :: s).splitOn ',' = (s.splitOn ',').modifyHead (c :: ·) := by
  have hsplit := List.splitOnP_cons_eq_if_modifyHead (p := (· == ',')) c s
  rwa [if_neg (by simpa using h)] at hsplit

private theorem comma_of_blank {b : Text} (h : IsBlank b) : ',' ∉ b := by
  intro hc
  have := h ',' hc
  revert this
  decide

private theorem splitOn_blank {b : Text} (h : IsBlank b) (s : Text) :
    (b ++ s).splitOn ',' = (s.splitOn ',').modifyHead (b ++ ·) := by
  have hcomma := comma_of_blank h
  induction b with
  | nil => exact (congrFun List.modifyHead_id _).symm
  | cons c b ih =>
    have hrest := ih (fun c' hc' => h c' (List.mem_cons_of_mem c hc'))
      (fun hc => hcomma (by simp [hc]))
    rw [List.cons_append,splitOn_cons_other (fun hc => hcomma (by simp [hc])),hrest,
      List.modifyHead_modifyHead]
    rfl

private theorem splitOn_append_blank {b : Text} (h : IsBlank b) (s : Text) :
    ∃ parts p, s.splitOn ',' = parts ++ [p] ∧ (s ++ b).splitOn ',' = parts ++ [p ++ b] := by
  induction s with
  | nil =>
    have hsplit := splitOn_blank h []
    rw [List.append_nil] at hsplit
    exact ⟨[],[],rfl,by simp [hsplit]⟩
  | cons c s ih =>
    obtain ⟨parts,p,hs,hsb⟩ := ih
    by_cases hc : c = ','
    · subst hc
      refine ⟨[] :: parts,p,?_,?_⟩
      · have hsplit := List.splitOn_append_cons_self [] s (a := ',')
        simpa [hs] using hsplit
      · have hsplit := List.splitOn_append_cons_self [] (s ++ b) (a := ',')
        simpa [hsb] using hsplit
    · rw [splitOn_cons_other hc,List.cons_append,splitOn_cons_other hc,hs,hsb]
      cases parts with
      | nil => exact ⟨[],c :: p,rfl,rfl⟩
      | cons q parts => exact ⟨(c :: q) :: parts,p,rfl,rfl⟩

private theorem hopsOf_blank_append {b : Text} (h : IsBlank b) (s : Text) :
    hopsOf (b ++ s) = hopsOf s := by
  rw [hopsOf,splitOn_blank h,hopsOf]
  cases s.splitOn ',' with
  | nil => rfl
  | cons p parts => simp [trim_blank_append h]

private theorem hopsOf_append_blank {b : Text} (h : IsBlank b) (s : Text) :
    hopsOf (s ++ b) = hopsOf s := by
  obtain ⟨parts,p,hs,hsb⟩ := splitOn_append_blank h s
  simp only [hopsOf,hs,hsb,List.map_append,List.map_cons,trim_append_blank h,List.map_nil]

private theorem hopsOf_peer {addr : Text} (h : IsPeer addr) : hopsOf addr = [addr] := by
  have hsplit : addr.splitOn ',' = [addr] :=
    List.splitOnP_eq_singleton fun c hc => by
      rw [beq_eq_false_iff_ne]
      rintro rfl
      exact h.comma hc
  simp [hopsOf,hsplit,h.trimmed,h.nonempty]

private theorem hopsOf_join (lines : List Text) :
    hopsOf ([',',' '].intercalate lines) = lines.flatMap hopsOf := by
  induction lines with
  | nil => rfl
  | cons l lines ih =>
    cases lines with
    | nil => simp
    | cons l' lines =>
      have hspace : IsBlank [' '] := by decide
      rw [List.intercalate_cons_cons,List.flatMap_cons,← ih,List.append_assoc]
      exact (hopsOf_comma l _).trans (congrArg (hopsOf l ++ ·) (hopsOf_blank_append hspace _))

private theorem map_trim_entries (lines : List Text) :
    (entries lines).map trim = lines.flatMap hopsOf := by
  rw [entries,List.map_flatMap]
  apply List.flatMap_congr
  intro l _
  rw [hopsOf,List.filter_map]
  apply congrArg (List.map trim)
  apply List.filter_congr
  intro s _
  simp [trim_eq_nil]

theorem Appends.entries {addr : Text} {sent received : List Text} (h : Appends addr sent received)
    (haddr : IsPeer addr) : received.flatMap hopsOf = sent.flatMap hopsOf ++ [addr] := by
  have hadded : ∀ s b b' : Text, IsBlank b → IsBlank b' →
      hopsOf (s ++ b ++ ',' :: (b' ++ addr)) = hopsOf s ++ [addr] := by
    intro s b b' hb hb'
    rw [hopsOf_comma,hopsOf_append_blank hb,hopsOf_blank_append hb',hopsOf_peer haddr]
  cases h with
  | line => simp [hopsOf_peer haddr]
  | last lines l b b' hb hb' =>
    rw [List.flatMap_append,List.flatMap_singleton,hadded l b b' hb hb',List.flatMap_append,
      List.flatMap_singleton,List.append_assoc]
  | joined _ b b' hb hb' =>
    simp only [List.flatMap_singleton,hadded _ b b' hb hb',hopsOf_join]
  | only _ hnone => simp [hopsOf_peer haddr,← map_trim_entries sent,hnone]

theorem Chain.entries {addrs sent received : List Text} (h : Chain addrs sent received)
    (haddrs : ∀ addr ∈ addrs, IsPeer addr) :
    received.flatMap hopsOf = sent.flatMap hopsOf ++ addrs := by
  induction h with
  | nil => simp
  | cons hadd _ ih =>
    rw [ih fun addr haddr => haddrs addr (by simp [haddr]),hadd.entries (haddrs _ (by simp)),
      List.append_assoc]
    rfl

private theorem length_entries (lines : List Text) :
    (entries lines).length = (lines.flatMap hopsOf).length := by
  rw [← map_trim_entries,List.length_map]

theorem clientAddress_eq {hops : Nat} (h : 0 < hops) (lines : List Text) :
    clientAddress hops lines = if hops ≤ (lines.flatMap hopsOf).length then
      (lines.flatMap hopsOf)[(lines.flatMap hopsOf).length-hops]? else none := by
  have hnone : ¬ hops ≤ ([] : List Text).length := by
    rw [List.length_nil]
    omega
  have hempty : hopsOf [] = [] := rfl
  rw [clientAddress,if_neg (by omega),forwardedFor]
  by_cases hlines : lines = []
  · rw [hlines,if_pos rfl,List.flatMap_nil,if_neg hnone]
  · rw [if_neg hlines,← hopsOf_join]
    by_cases hforwarded : [',',' '].intercalate lines = []
    · simp only [hforwarded,if_true,hempty,if_neg hnone]
    · simp only [if_neg hforwarded]

theorem trustedHops_eq {raw : Text} {k : Nat} (hraw : parseInt raw = some (k : Int))
    (hk : 1 ≤ k) : trustedHops (some raw) = if k ≤ 8 then k else 0 := by
  have hne : raw ≠ [] := by
    rintro rfl
    cases hraw
  simp only [trustedHops,if_neg hne,hraw,Int.toNat_natCast]
  apply if_congr _ rfl rfl
  omega

theorem parseInt_numeral (n : Nat) : parseInt (numeral 10 n) = some (n : Int) := by
  have hdigits : ∀ c ∈ numeral 10 n, (digit? 10 c).isSome := fun c hc =>
    digit?_of_mem_numeral (by omega) (by omega) hc
  have hspace : (numeral 10 n).dropWhile isSpace = numeral 10 n := by
    cases hn : numeral 10 n with
    | nil => rfl
    | cons c s =>
      have hrange := range_of_digit? (hdigits c (by simp [hn]))
      rw [List.dropWhile_cons_of_neg]
      simp only [isSpace,Bool.or_eq_true,Bool.and_eq_true,decide_eq_true_eq,beq_iff_eq]
      omega
  have hhead : ∀ c, (digit? 10 c).isSome = false → (numeral 10 n).head? ≠ some c := by
    intro c hc hsome
    rw [hdigits c (List.mem_of_mem_head? hsome)] at hc
    cases hc
  have hminus := hhead '-' rfl
  have hplus := hhead '+' rfl
  simp only [parseInt,hspace,hminus,hplus,or_self,if_false]
  rw [List.takeWhile_eq_self_iff.mpr hdigits,number?_numeral (by omega) (by omega)]
  rfl

theorem clientAddress_chain {hops : Nat} {peer : Text} {proxies sent received : List Text}
    (hlen : (peer :: proxies).length = hops) (haddrs : ∀ addr ∈ peer :: proxies, IsPeer addr)
    (h : Chain (peer :: proxies) sent received) : clientAddress hops received = some peer := by
  have hpositive : 0 < hops := by simp at hlen; omega
  rw [clientAddress_eq hpositive,h.entries haddrs]
  simp only [List.length_append,hlen]
  rw [if_pos (by omega),List.getElem?_append_right (by omega),
    show (sent.flatMap hopsOf).length+hops-hops-(sent.flatMap hopsOf).length = 0 by omega]
  rfl

theorem clientAddress_short {hops : Nat} {lines : List Text} (h : (entries lines).length < hops) :
    clientAddress hops lines = none := by
  rw [clientAddress_eq (by omega),if_neg (by rw [← length_entries]; omega)]

theorem clientAddress_observed {raw : Text} {k : Nat} (hraw : parseInt raw = some (k : Int))
    (hk : 1 ≤ k) :
    (∀ (peer : Text) (proxies sent received : List Text), (peer :: proxies).length = k →
      (∀ addr ∈ peer :: proxies, IsPeer addr) → Chain (peer :: proxies) sent received →
      clientAddress (trustedHops (some raw)) received = if k ≤ 8 then some peer else none) ∧
    (∀ (peer : Text) (proxies proxies' sent sent' received received' : List Text),
      (peer :: proxies).length = k → (peer :: proxies').length = k →
      (∀ addr ∈ peer :: proxies, IsPeer addr) → (∀ addr ∈ peer :: proxies', IsPeer addr) →
      Chain (peer :: proxies) sent received → Chain (peer :: proxies') sent' received' →
      clientAddress (trustedHops (some raw)) received =
        clientAddress (trustedHops (some raw)) received' ∧
      ∀ userId, subjectFor (trustedHops (some raw)) received userId =
        subjectFor (trustedHops (some raw)) received' userId) ∧
    ∀ lines : List Text, (entries lines).length < k →
      clientAddress (trustedHops (some raw)) lines = none := by
  have hobserved : ∀ (peer : Text) (proxies sent received : List Text),
      (peer :: proxies).length = k → (∀ addr ∈ peer :: proxies, IsPeer addr) →
      Chain (peer :: proxies) sent received →
      clientAddress (trustedHops (some raw)) received = if k ≤ 8 then some peer else none := by
    intro peer proxies sent received hlen haddrs h
    rw [trustedHops_eq hraw hk]
    by_cases height : k ≤ 8
    · rw [if_pos height,if_pos height]
      exact clientAddress_chain hlen haddrs h
    · rw [if_neg height,if_neg height]
      rfl
  refine ⟨hobserved,?_,?_⟩
  · intro peer proxies proxies' sent sent' received received' hlen hlen' haddrs haddrs' h h'
    have hsame : clientAddress (trustedHops (some raw)) received =
        clientAddress (trustedHops (some raw)) received' :=
      (hobserved peer proxies sent received hlen haddrs h).trans
        (hobserved peer proxies' sent' received' hlen' haddrs' h').symm
    refine ⟨hsame,?_⟩
    intro userId
    simp only [subjectFor,hsame]
  · intro lines h
    rw [trustedHops_eq hraw hk]
    by_cases height : k ≤ 8
    · rw [if_pos height]
      exact clientAddress_short h
    · rw [if_neg height]
      rfl

private def balancer : Text := "10.0.0.2".toList

private def visitor : Text := "203.0.113.7".toList

private theorem isPeer_balancer : IsPeer balancer := ⟨by decide,by decide,by decide⟩

private theorem isPeer_visitor : IsPeer visitor := ⟨by decide,by decide,by decide⟩

/-- Two proxies, and a client that writes an address of its own and a comma. -/
theorem clientAddress_observed_two :
    clientAddress (trustedHops (some (numeral 10 2)))
      ["198.51.100.1,, 203.0.113.7".toList,balancer] = some visitor := by
  apply (clientAddress_observed (parseInt_numeral 2) (by omega)).1 visitor [balancer]
    ["198.51.100.1,".toList] _ rfl
  · simp [isPeer_balancer,isPeer_visitor]
  · have hfirst : Appends visitor ["198.51.100.1,".toList] _ :=
      .last [] "198.51.100.1,".toList [] [' '] (by decide) (by decide)
    exact .cons hfirst (.cons (.line _) (.nil _))

private theorem chain_lines (addrs lines : List Text) : Chain addrs lines (lines ++ addrs) := by
  induction addrs generalizing lines with
  | nil =>
    rw [List.append_nil]
    exact .nil lines
  | cons addr addrs ih =>
    have hrest := ih (lines ++ [addr])
    rw [List.append_assoc] at hrest
    exact .cons (.line lines) hrest

/-- Nine proxies are more than the setting may name, and are taken for none. -/
theorem clientAddress_nine_proxies : ¬ ∀ (raw : Text) (k : Nat) (peer : Text)
    (proxies sent received : List Text), parseInt raw = some (k : Int) →
    (peer :: proxies).length = k → (∀ addr ∈ peer :: proxies, IsPeer addr) →
    Chain (peer :: proxies) sent received →
    clientAddress (trustedHops (some raw)) received = some peer := by
  intro hall
  have hpeers : ∀ addr ∈ visitor :: List.replicate 8 balancer, IsPeer addr := by
    intro addr haddr
    rcases List.mem_cons.mp haddr with rfl | hmem
    · exact isPeer_visitor
    · obtain rfl := List.eq_of_mem_replicate hmem
      exact isPeer_balancer
  have hresult := hall (numeral 10 9) 9 visitor (List.replicate 8 balancer) [] _
    (parseInt_numeral 9) rfl hpeers (chain_lines _ [])
  have hhops : trustedHops (some (numeral 10 9)) = 0 := trustedHops_eq (parseInt_numeral 9) (by omega)
  rw [hhops] at hresult
  cases hresult

end WeirdVault.Audit
