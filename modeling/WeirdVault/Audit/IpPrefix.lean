import WeirdVault.Audit.Addresses

/-! # The network that an event names -/

namespace WeirdVault.Audit

open WeirdVault.Framework

def isSpace (c : Char) : Bool :=
  let n := c.toNat
  (9 ≤ n && n ≤ 13) || n == 0x20 || n == 0xA0 || n == 0x1680 || (0x2000 ≤ n && n ≤ 0x200A) ||
    n == 0x2028 || n == 0x2029 || n == 0x202F || n == 0x205F || n == 0x3000 || n == 0xFEFF

def trim (s : Text) : Text := ((s.dropWhile isSpace).reverse.dropWhile isSpace).reverse

def isOctetText (o : Text) : Bool :=
  1 ≤ o.length && o.length ≤ 3 && o.all fun c => 48 ≤ c.toNat && c.toNat ≤ 57

def ipPrefix (ip : Option Text) : Option Text :=
  match ip with
  | none => none
  | some ip =>
    if ip = [] then none
    else
      let addr := trim ip
      if ',' ∈ addr then none
      else if ':' ∈ addr then
        let groups := (addr.splitOn ':').filter (· ≠ [])
        if 3 ≤ groups.length then some (join ':' (groups.take 3) ++ "::/48".toList) else none
      else
        let octets := addr.splitOn '.'
        if octets.length ≠ 4 ∨ octets.any (fun o => !isOctetText o) then none
        else some (join '.' (octets.take 3) ++ ".0/24".toList)

/-- The parts as they stand in the text, without the place of `::`. -/
def Spelling.written : Spelling → List Text
  | .v4 octets => octets
  | .v6 groups => groups
  | .compressed front back => front ++ back

/-- The first three parts are plain, and those of them that stand behind `::` are zero. -/
def Spelling.Plain : Spelling → Prop
  | .v4 octets => ∀ o ∈ octets.take 3, IsPlain o
  | .v6 groups => ∀ g ∈ groups.take 3, IsPlain g
  | .compressed front back => (front ++ back).length < 3 ∨
      (∀ g ∈ front.take 3, IsPlain g) ∧ ∀ g ∈ back.take (3-front.length), g = ['0']

def Names (p : Text) (a : Address) : Prop :=
  ∃ t : Spelling, t.address? = some a.base ∧ p = t.text ++ a.bits

private theorem range_of_isAddressChar {c : Char} (h : IsAddressChar c) :
    46 ≤ c.toNat ∧ c.toNat ≤ 122 ∧ c ≠ ':' := by
  rcases h with hdigit | rfl
  · have hrange := range_of_digit? hdigit
    refine ⟨by omega,by omega,?_⟩
    rintro rfl
    cases hdigit
  · decide

private theorem trim_eq {s : Text} (h : ∀ c ∈ s, isSpace c = false) : trim s = s := by
  have hdrop : ∀ t : Text, (∀ c ∈ t, isSpace c = false) → t.dropWhile isSpace = t := by
    intro t ht
    cases t with
    | nil => rfl
    | cons c t => rw [List.dropWhile_cons_of_neg (by simp [ht c (by simp)])]
  rw [trim,hdrop s h,hdrop s.reverse (fun c hc => h c (List.mem_reverse.mp hc)),List.reverse_reverse]

private theorem ipPrefix_colons {s : Text} (hcolon : ':' ∈ s)
    (h : ∀ c ∈ s, IsAddressChar c ∨ c = ':') :
    ipPrefix (some s) = if 3 ≤ ((s.splitOn ':').filter (· ≠ [])).length then
      some (join ':' (((s.splitOn ':').filter (· ≠ [])).take 3) ++ "::/48".toList) else none := by
  have hrange : ∀ c ∈ s, 46 ≤ c.toNat ∧ c.toNat ≤ 122 := by
    intro c hc
    rcases h c hc with hpart | rfl
    · have := range_of_isAddressChar hpart
      omega
    · decide
  have htrim : trim s = s := by
    apply trim_eq
    intro c hc
    have := hrange c hc
    simp only [isSpace,Bool.or_eq_false_iff,Bool.and_eq_false_iff,decide_eq_false_iff_not,
      beq_eq_false_iff_ne]
    omega
  have hcomma : ',' ∉ s := by
    intro hc
    have hrange' := hrange ',' hc
    revert hrange'
    decide
  have hne : s ≠ [] := List.ne_nil_of_mem hcolon
  simp only [ipPrefix,htrim,if_neg hne,if_neg hcomma,if_pos hcolon]

private theorem splitOn_join {ss : List Text} (h : ∀ s ∈ ss, IsPart s) :
    ((join ':' ss).splitOn ':').filter (· ≠ []) = ss := by
  cases ss with
  | nil => rfl
  | cons s ss =>
    rw [join,List.splitOn_intercalate ':' (fun t ht => (h t ht).colon) (by simp)]
    apply List.filter_eq_self.mpr
    intro t ht
    simpa using (h t ht).1

private theorem splitOn_compressed {front back : List Text} (hfront : ∀ s ∈ front, IsPart s)
    (hback : ∀ s ∈ back, IsPart s) :
    ((join ':' front ++ ':' :: ':' :: join ':' back).splitOn ':').filter (· ≠ []) =
      front ++ back := by
  have hempty : (':' :: join ':' back).splitOn ':' = [] :: (join ':' back).splitOn ':' :=
    List.splitOn_append_cons_self [] (join ':' back)
  rw [List.splitOn_append_cons_self,hempty,List.filter_append,splitOn_join hfront,
    List.filter_cons_of_neg (by simp),splitOn_join hback]

/-- The first three parts are the plain numerals of the first three numbers. -/
def Shows (b : Nat) (parts : List Text) (numbers : List Nat) : Prop :=
  ∀ i < 3, parts[i]? = (numbers[i]?).map (numeral b)

private theorem shows_iff {b : Nat} {parts : List Text} {numbers : List Nat} :
    Shows b parts numbers ↔ parts.take 3 = (numbers.take 3).map (numeral b) := by
  rw [List.ext_getElem?_iff]
  constructor
  · intro h i
    rw [List.getElem?_map,List.getElem?_take,List.getElem?_take]
    split
    · exact h i (by assumption)
    · rfl
  · intro h i hi
    have hi' := h i
    rwa [List.getElem?_map,List.getElem?_take_of_lt hi,List.getElem?_take_of_lt hi] at hi'

private theorem plain_iff_shows {b : Nat} (hlow : 2 ≤ b) (hb : b ≤ 16) {parts : List Text}
    {numbers : List Nat} (h : ∀ i < 3, ∃ s n, parts[i]? = some s ∧ numbers[i]? = some n ∧
      number? b s = some n) : (∀ s ∈ parts.take 3, IsPlain s) ↔ Shows b parts numbers := by
  constructor
  · intro hplain i hi
    obtain ⟨s,n,hs,hn,hread⟩ := h i hi
    have hmem : s ∈ parts.take 3 :=
      List.mem_iff_getElem?.mpr ⟨i,by rw [List.getElem?_take_of_lt hi,hs]⟩
    rw [hs,hn,Option.map_some,← (isPlain_iff hlow hb hread).mp (hplain s hmem)]
  · intro hshows s hmem
    obtain ⟨i,hi⟩ := List.mem_iff_getElem?.mp hmem
    rw [List.getElem?_take] at hi
    split at hi
    · rename_i hlt
      obtain ⟨s',n,hs,hn,hread⟩ := h i hlt
      obtain rfl := Option.some.inj (hi.symm.trans hs)
      have hshow := hshows i hlt
      rw [hs,hn] at hshow
      exact (isPlain_iff hlow hb hread).mpr (Option.some.inj hshow)
    · cases hi

private theorem group?_zero : group? ['0'] = some 0 := by decide

private theorem getElem?_behind {x y : List Nat} {z : Nat} (j : Nat) :
    (x ++ List.replicate z 0 ++ y)[x.length+j]? = if j < z then some 0 else y[j-z]? := by
  rw [List.append_assoc,List.getElem?_append_right (by omega),Nat.add_sub_cancel_left]
  split
  · rw [List.getElem?_append_left (by simpa),List.getElem?_replicate_of_lt (by assumption)]
  · rw [List.getElem?_append_right (by simp; omega),List.length_replicate]

private theorem compressed_iff_shows {front back : List Text} {x y : List Nat} {z : Nat}
    (hz : 0 < z) (hx : front.mapM group? = some x) (hy : Reads back y)
    (hlen : 3 ≤ (front ++ back).length) :
    ((∀ g ∈ front.take 3, IsPlain g) ∧ ∀ g ∈ back.take (3-front.length), g = ['0']) ↔
      Shows 16 (front ++ back) (x ++ List.replicate z 0 ++ y) := by
  obtain ⟨hxlen,hxget⟩ := getElem?_mapM hx
  rw [List.length_append] at hlen
  have hahead : ∀ (i : Nat) s, front[i]? = some s → ∃ n, (x ++ List.replicate z 0 ++ y)[i]? = some n ∧
      number? 16 s = some n := by
    intro i s hs
    obtain ⟨n,hn,hget⟩ := hxget i s hs
    refine ⟨n,?_,(number?_of_group? hn).1⟩
    obtain ⟨hi,-⟩ := List.getElem?_eq_some_iff.mp hget
    rw [List.append_assoc,List.getElem?_append_left hi,hget]
  constructor
  · rintro ⟨hfront,hback⟩ i hi
    by_cases hin : i < front.length
    · obtain ⟨s,hs⟩ : ∃ s, front[i]? = some s := ⟨_,List.getElem?_eq_getElem hin⟩
      obtain ⟨n,hn,hread⟩ := hahead i s hs
      have hmem : s ∈ front.take 3 :=
        List.mem_iff_getElem?.mpr ⟨i,by rw [List.getElem?_take_of_lt hi,hs]⟩
      rw [List.getElem?_append_left hin,hs,hn,Option.map_some,
        ← (isPlain_iff (by omega) (by omega) hread).mp (hfront s hmem)]
    · obtain ⟨j,rfl⟩ := Nat.exists_eq_add_of_le (Nat.le_of_not_lt hin)
      have hzero : ∀ k ≤ j, back[k]? = some ['0'] := by
        intro k hk
        have hklt : k < back.length := by omega
        rw [List.getElem?_eq_getElem hklt]
        congr 1
        apply hback
        exact List.mem_iff_getElem?.mpr ⟨k,by
          rw [List.getElem?_take_of_lt (by omega),List.getElem?_eq_getElem hklt]⟩
      have hvalue : (x ++ List.replicate z 0 ++ y)[front.length+j]? = some 0 := by
        rw [hxlen,getElem?_behind]
        split
        · rfl
        · exact hy.value (j-z) ['0'] 0 (hzero (j-z) (by omega)) group?_zero
      rw [List.getElem?_append_right (by omega),Nat.add_sub_cancel_left,hzero j le_rfl,hvalue]
      rfl
  · intro hshows
    have hbehind : ∀ j : Nat, front.length+j < 3 → ∀ g, back[j]? = some g → g = ['0'] := by
      intro j
      induction j using Nat.strong_induction_on with
      | _ j ih =>
        intro hj g hg
        have hshow := hshows (front.length+j) hj
        rw [List.getElem?_append_right (by omega),Nat.add_sub_cancel_left,hg,hxlen,
          getElem?_behind] at hshow
        split at hshow
        · exact Option.some.inj hshow
        · obtain ⟨hjlt,-⟩ := List.getElem?_eq_some_iff.mp hg
          have hbefore : back[j-z]? = some ['0'] := by
            have hlt : j-z < back.length := by omega
            rw [List.getElem?_eq_getElem hlt]
            congr 1
            exact ih (j-z) (by omega) (by omega) _ (List.getElem?_eq_getElem hlt)
          rw [hy.value (j-z) ['0'] 0 hbefore group?_zero] at hshow
          exact Option.some.inj hshow
    refine ⟨?_,?_⟩
    · intro g hg
      obtain ⟨i,hi⟩ := List.mem_iff_getElem?.mp hg
      rw [List.getElem?_take] at hi
      split at hi
      · rename_i hlt
        obtain ⟨n,hn,hread⟩ := hahead i g hi
        obtain ⟨hin,-⟩ := List.getElem?_eq_some_iff.mp hi
        have hshow := hshows i hlt
        rw [List.getElem?_append_left hin,hi,hn] at hshow
        exact (isPlain_iff (by omega) (by omega) hread).mpr (Option.some.inj hshow)
      · cases hi
    · intro g hg
      obtain ⟨j,hj⟩ := List.mem_iff_getElem?.mp hg
      rw [List.getElem?_take] at hj
      split at hj
      · exact hbehind j (by omega) g hj
      · cases hj

/-- Every text of the IPv6 address is cut into its parts, and its parts are plain exactly if the
first three are the numerals of the first three groups. -/
private theorem v6_spelling {t : Spelling} {a : V6} (h : t.address? = some (.v6 a)) :
    (ipPrefix (some t.text) = if 3 ≤ t.written.length then
      some (join ':' (t.written.take 3) ++ "::/48".toList) else none) ∧
    (∀ s ∈ t.written, IsPart s) ∧
    (t.Plain ↔ t.written.length < 3 ∨ Shows 16 t.written a.groups) := by
  cases t with
  | v4 octets =>
    obtain ⟨b,-,hb⟩ := Option.map_eq_some_iff.mp h
    cases hb
  | v6 groups =>
    obtain ⟨b,hb,he⟩ := Option.map_eq_some_iff.mp h
    cases he
    obtain ⟨gs,hgs,ha⟩ := Option.bind_eq_some_iff.mp hb
    have hreads := reads_of_groups? hgs
    have hgroups := v6_of?_eq ha
    have height := a.eight
    rw [hgroups] at height
    have hseven : 7 ≤ groups.length := by
      have := hreads.atMost
      omega
    refine ⟨?_,hreads.parts,?_⟩
    · have hsplit := splitOn_join hreads.parts
      have hcolon : ':' ∈ join ':' groups := by
        match groups,hseven with
        | s :: u :: rest,_ =>
          rw [join,List.intercalate_cons_cons]
          simp
      have hchars : ∀ c ∈ join ':' groups, IsAddressChar c ∨ c = ':' := by
        intro c hc
        rcases mem_intercalate hc with rfl | ⟨s,hs,hcs⟩
        · exact Or.inr rfl
        · exact Or.inl ((hreads.parts s hs).2 c hcs)
      have hcode := ipPrefix_colons hcolon hchars
      rw [hsplit] at hcode
      exact hcode
    · have hread : ∀ i < 3, ∃ s n, groups[i]? = some s ∧ a.groups[i]? = some n ∧
          number? 16 s = some n := by
        intro i hi
        have hlt : i < groups.length := by omega
        have hget := List.getElem?_eq_getElem hlt
        obtain ⟨n,hn⟩ := Option.isSome_iff_exists.mp (hreads.group i _ hget (by omega))
        refine ⟨_,n,hget,?_,(number?_of_group? hn).1⟩
        rw [hgroups]
        exact hreads.value i _ n hget hn
      have hlong : ¬ (Spelling.v6 groups).written.length < 3 := by
        simp only [Spelling.written]
        omega
      rw [or_iff_right hlong]
      exact plain_iff_shows (by omega) (by omega) hread
  | compressed front back =>
    simp only [Spelling.address?,Option.bind_eq_bind,Option.bind_eq_some_iff] at h
    obtain ⟨x,hx,y,hy,hcheck⟩ := h
    split at hcheck
    · rename_i hroom
      obtain ⟨b,hb,he⟩ := Option.map_eq_some_iff.mp hcheck
      cases he
      have hreads := reads_of_groups? hy
      have hgroups := v6_of?_eq hb
      have hfront := isPart_of_mapM_group? hx
      have hparts : ∀ s ∈ front ++ back, IsPart s := by
        intro s hs
        rcases List.mem_append.mp hs with hs | hs
        · exact hfront s hs
        · exact hreads.parts s hs
      refine ⟨?_,hparts,?_⟩
      · have hsplit := splitOn_compressed hfront hreads.parts
        have hchars : ∀ c ∈ join ':' front ++ ':' :: ':' :: join ':' back,
            IsAddressChar c ∨ c = ':' := by
          have hjoin : ∀ ss : List Text, (∀ s ∈ ss, IsPart s) → ∀ c ∈ join ':' ss,
              IsAddressChar c ∨ c = ':' := by
            intro ss hss c hc
            rcases mem_intercalate hc with rfl | ⟨s,hs,hcs⟩
            · exact Or.inr rfl
            · exact Or.inl ((hss s hs).2 c hcs)
          intro c hc
          rcases List.mem_append.mp hc with hc | hc
          · exact hjoin front hfront c hc
          · rcases List.mem_cons.mp hc with rfl | hc
            · exact Or.inr rfl
            · rcases List.mem_cons.mp hc with rfl | hc
              · exact Or.inr rfl
              · exact hjoin back hreads.parts c hc
        have hcode := ipPrefix_colons (by simp) hchars
        rw [hsplit] at hcode
        exact hcode
      · rw [Spelling.Plain,Spelling.written]
        by_cases hshort : (front ++ back).length < 3
        · exact iff_of_true (Or.inl hshort) (Or.inl hshort)
        · rw [or_iff_right hshort,or_iff_right hshort,hgroups]
          exact compressed_iff_shows (by omega) hx hreads (by omega)
    · cases hcheck

private def plainName : Address → Text
  | .v4 a => join '.' ((a.octets.take 3).map (numeral 10)) ++ ".0/24".toList
  | .v6 a => join ':' ((a.groups.take 3).map (numeral 16)) ++ "::/48".toList

private theorem plainName_network {a a' : Address} (h : a'.network = a.network) :
    plainName a' = plainName a := by
  cases a <;> cases a' <;> simp_all [Address.network,plainName]

private theorem ipPrefix_plain_v6 (a : V6) :
    ipPrefix (some (Address.v6 a).plain.text) = some (plainName (.v6 a)) := by
  have hcode := (v6_spelling (address?_plain (.v6 a))).1
  have hwritten : (Address.v6 a).plain.written = a.groups.map (numeral 16) := rfl
  rw [hcode,hwritten,List.length_map,a.eight,if_pos (by omega),← List.map_take]
  rfl

private theorem names_v6 (a : V6) : Names (plainName (.v6 a)) (.v6 a) := by
  refine ⟨.compressed ((a.groups.take 3).map (numeral 16)) [],?_,?_⟩
  · have hsmall : ∀ g ∈ a.groups.take 3, g < 65536 := fun g hg =>
      a.small g (List.mem_of_mem_take hg)
    have hthree : (a.groups.take 3).length = 3 := by simp [a.eight]
    have hbase := v6_of?_groups ⟨a.groups.take 3 ++ [0,0,0,0,0],by simp [a.eight],by
      intro g hg
      rcases List.mem_append.mp hg with h | h
      · exact hsmall g h
      · simp at h
        omega⟩
    simp only [Spelling.address?,mapM_numeral (fun g hg => group?_numeral (hsmall g hg)),groups?,
      Option.bind_eq_bind,Option.bind_some,hthree,List.length_nil]
    simp only [Nat.add_zero,Nat.reduceLT,if_true,Nat.reduceSub,List.append_nil]
    exact congrArg (Option.map Address.v6) hbase
  · simp [plainName,Spelling.text,Address.bits,join]

private theorem digit_of_octet {c : Char} (h : (digit? 10 c).isSome) :
    48 ≤ c.toNat ∧ c.toNat ≤ 57 := by
  have hrange := range_of_digit? h
  obtain ⟨d,hd⟩ := Option.isSome_iff_exists.mp h
  obtain ⟨hany,hlt⟩ := Option.filter_eq_some_iff.mp hd
  have hten := of_decide_eq_true hlt
  split at hany
  · assumption
  · split at hany
    · obtain rfl := Option.some.inj hany
      omega
    · split at hany
      · obtain rfl := Option.some.inj hany
        omega
      · cases hany

/-- Every text of the IPv4 address is cut into its octets, and they are plain exactly if they are
the numerals of the octets. -/
private theorem v4_spelling {t : Spelling} {a : V4} (h : t.address? = some (.v4 a)) :
    ipPrefix (some t.text) = some (join '.' (t.written.take 3) ++ ".0/24".toList) ∧
    t.written.length = 4 ∧ (∀ s ∈ t.written, '.' ∉ s) ∧ (t.Plain ↔ Shows 10 t.written a.octets) := by
  cases t with
  | v6 groups =>
    obtain ⟨b,-,hb⟩ := Option.map_eq_some_iff.mp h
    cases hb
  | compressed front back =>
    simp only [Spelling.address?,Option.bind_eq_bind,Option.bind_eq_some_iff] at h
    obtain ⟨x,-,y,-,hcheck⟩ := h
    split at hcheck
    · obtain ⟨b,-,hb⟩ := Option.map_eq_some_iff.mp hcheck
      cases hb
    · cases hcheck
  | v4 octets =>
    obtain ⟨b,hb,he⟩ := Option.map_eq_some_iff.mp h
    cases he
    obtain ⟨os,hos,ha⟩ := Option.bind_eq_some_iff.mp hb
    obtain ⟨hlen,hget⟩ := getElem?_mapM hos
    have hvalue := v4_of?_eq ha
    have hfour : octets.length = 4 := by
      rw [hlen,← hvalue]
      exact a.four
    have hoctet : ∀ s ∈ octets, ∃ o, number? 10 s = some o ∧ s.length ≤ 3 := by
      intro s hs
      obtain ⟨i,hi⟩ := List.mem_iff_getElem?.mp hs
      obtain ⟨o,ho,-⟩ := hget i s hi
      exact ⟨o,number?_of_octet? ho⟩
    have hdigits : ∀ s ∈ octets, ∀ c ∈ s, 48 ≤ c.toNat ∧ c.toNat ≤ 57 := by
      intro s hs c hc
      obtain ⟨o,ho,-⟩ := hoctet s hs
      exact digit_of_octet (digit?_of_number? ho hc)
    have hdot : ∀ s ∈ octets, '.' ∉ s := by
      intro s hs hc
      have hrange := hdigits s hs '.' hc
      revert hrange
      decide
    have hchars : ∀ c ∈ join '.' octets, 46 ≤ c.toNat ∧ c.toNat ≤ 57 := by
      intro c hc
      rcases mem_intercalate hc with rfl | ⟨s,hs,hcs⟩
      · decide
      · have := hdigits s hs c hcs
        omega
    have htrim : trim (join '.' octets) = join '.' octets := by
      apply trim_eq
      intro c hc
      have := hchars c hc
      simp only [isSpace,Bool.or_eq_false_iff,Bool.and_eq_false_iff,decide_eq_false_iff_not,
        beq_eq_false_iff_ne]
      omega
    have hout : ∀ c : Char, c.toNat < 46 ∨ 57 < c.toNat → c ∉ join '.' octets := by
      intro c hc hmem
      have := hchars c hmem
      omega
    have hne : join '.' octets ≠ [] := by
      obtain ⟨s,rest,hcons⟩ := List.exists_of_length_succ octets hfour
      obtain ⟨u,rest',hcons'⟩ := List.exists_of_length_succ rest (by simpa [hcons] using hfour)
      rw [hcons,hcons',join,List.intercalate_cons_cons]
      simp
    have hsplit : (join '.' octets).splitOn '.' = octets :=
      List.splitOn_intercalate '.' hdot (by
        rintro rfl
        cases hfour)
    have htexts : octets.any (fun o => !isOctetText o) = false := by
      rw [List.any_eq_false]
      intro s hs
      obtain ⟨o,ho,hshort⟩ := hoctet s hs
      have hpos : 1 ≤ s.length := List.length_pos_iff.mpr (ne_nil_of_number? ho)
      have hall : s.all (fun c => 48 ≤ c.toNat && c.toNat ≤ 57) = true := by
        rw [List.all_eq_true]
        intro c hc
        simpa using hdigits s hs c hc
      simp only [isOctetText,hall]
      simp [hpos,hshort]
    refine ⟨?_,hfour,hdot,?_⟩
    · have hcode : ipPrefix (some (join '.' octets)) =
          some (join '.' (octets.take 3) ++ ".0/24".toList) := by
        simp only [ipPrefix,htrim,if_neg hne,if_neg (hout ',' (by decide)),
          if_neg (hout ':' (by decide)),hsplit,htexts,hfour]
        rfl
      exact hcode
    · apply plain_iff_shows (by omega) (by omega)
      intro i hi
      have hi' := List.getElem?_eq_getElem (show i < octets.length by omega)
      obtain ⟨o,ho,hv⟩ := hget i _ hi'
      refine ⟨_,o,hi',?_,(number?_of_octet? ho).1⟩
      rw [hvalue,hv]

private theorem ipPrefix_plain_v4 (a : V4) :
    ipPrefix (some (Address.v4 a).plain.text) = some (plainName (.v4 a)) := by
  have hcode := (v4_spelling (address?_plain (.v4 a))).1
  have hwritten : (Address.v4 a).plain.written = a.octets.map (numeral 10) := rfl
  rw [hcode,hwritten,← List.map_take]
  rfl

private theorem names_v4 (a : V4) : Names (plainName (.v4 a)) (.v4 a) := by
  have hsmall : ∀ o ∈ a.octets.take 3 ++ [0], o < 256 := by
    intro o ho
    rcases List.mem_append.mp ho with h | h
    · exact a.small o (List.mem_of_mem_take h)
    · simp at h
      omega
  refine ⟨.v4 ((a.octets.take 3 ++ [0]).map (numeral 10)),?_,?_⟩
  · exact address?_plain (Address.v4 a).base
  · obtain ⟨octets,hfour,-⟩ := a
    obtain ⟨b,rest,rfl⟩ := List.exists_of_length_succ octets hfour
    obtain ⟨c,d,e,rfl⟩ := List.length_eq_three.mp (Nat.succ.inj hfour)
    simp [plainName,Spelling.text,Address.bits,join,numeral,List.intercalate_cons_cons]

private theorem ipPrefix_plain (a : Address) : ipPrefix (some a.plain.text) = some (plainName a) := by
  cases a with
  | v4 a => exact ipPrefix_plain_v4 a
  | v6 a => exact ipPrefix_plain_v6 a

private theorem names_plainName (a : Address) : Names (plainName a) a := by
  cases a with
  | v4 a => exact names_v4 a
  | v6 a => exact names_v6 a

private theorem join_injective {xs ys : List Text} {tail : Text} (sep : Char)
    (hlen : xs.length = ys.length) (hx : ∀ s ∈ xs, sep ∉ s)
    (h : join sep xs ++ tail = join sep ys ++ tail) : xs = ys :=
  intercalate_unique hlen hx (List.append_cancel_right h)

private theorem result_iff {t : Spelling} {a : Address} (h : t.address? = some a) :
    (∀ p, ipPrefix (some t.text) = some p → p = plainName a) ↔ t.Plain := by
  cases a with
  | v4 a =>
    obtain ⟨hcode,hlen,hdot,hplain⟩ := v4_spelling h
    rw [hplain,shows_iff,hcode]
    constructor
    · intro hall
      refine join_injective '.' ?_ ?_ (hall _ rfl)
      · simp [hlen,a.four]
      · intro s hs
        exact hdot s (List.mem_of_mem_take hs)
    · rintro hshows p hp
      rw [← Option.some.inj hp,hshows]
      rfl
  | v6 a =>
    obtain ⟨hcode,hparts,hplain⟩ := v6_spelling h
    rw [hplain,shows_iff,hcode]
    by_cases hshort : t.written.length < 3
    · rw [if_neg (by omega)]
      exact iff_of_true nofun (Or.inl hshort)
    · rw [if_pos (by omega),or_iff_right hshort]
      constructor
      · intro hall
        refine join_injective ':' ?_ ?_ (hall _ rfl)
        · simp [a.eight]
          omega
        · intro s hs
          exact (hparts s (List.mem_of_mem_take hs)).colon
      · rintro hshows p hp
        rw [← Option.some.inj hp,hshows]
        rfl

/-- The result for a text is the network of the address, and the same as for the plain text of every
address of the network, exactly when the text is plain in front; so texts that are plain in front
never get two names for one network. -/
theorem ipPrefix_names_iff {t : Spelling} {a : Address} (h : t.address? = some a) :
    ((∀ p, ipPrefix (some t.text) = some p → Names p a ∧ ∀ a' : Address,
        a'.network = a.network → ipPrefix (some a'.plain.text) = some p) ↔ t.Plain) ∧
    ∀ (t' : Spelling) (a' : Address), t'.address? = some a' →
      t.Plain → t'.Plain → a.network = a'.network → ∀ p p', ipPrefix (some t.text) = some p →
      ipPrefix (some t'.text) = some p' → p = p' := by
  constructor
  · rw [← result_iff h]
    constructor
    · intro hall p hp
      have hsame := (hall p hp).2 a rfl
      exact Option.some.inj (hsame.symm.trans (ipPrefix_plain a))
    · intro hall p hp
      obtain rfl := hall p hp
      refine ⟨names_plainName a,?_⟩
      intro a' hnetwork
      rw [ipPrefix_plain,plainName_network hnetwork]
  · intro t' a' h' hplain hplain' hnetwork p p' hp hp'
    rw [(result_iff h).mpr hplain p hp,(result_iff h').mpr hplain' p' hp',
      plainName_network hnetwork]

private def documentation : V6 := ⟨[0x2001,0xdb8,1,0,0,0,0,5],rfl,by simp⟩

theorem ipPrefix_names_documentation : Names "2001:db8:1::/48".toList (.v6 documentation) := by
  have hspelling : (Spelling.compressed ["2001".toList,"db8".toList,"1".toList]
      ["5".toList]).address? = some (.v6 documentation) := rfl
  have hfront : ∀ g ∈ ["2001".toList,"db8".toList,"1".toList], IsPlain g := by
    simp only [List.forall_mem_cons]
    exact ⟨by decide,by decide,by decide,by simp⟩
  have hplain := (ipPrefix_names_iff hspelling).1.mpr (Or.inr ⟨hfront,by simp⟩)
  exact (hplain _ rfl).1

/-- With two groups in front of `::` the third is taken from behind it. -/
theorem ipPrefix_two_networks : ¬ ∀ (t t' : Spelling) (a a' : Address) (p p' : Text),
    t.address? = some a → t'.address? = some a' → a.network = a'.network →
    ipPrefix (some t.text) = some p → ipPrefix (some t'.text) = some p' → Names p a ∧ p = p' := by
  intro hall
  have hsame := hall (.compressed ["2001".toList,"db8".toList] ["1".toList,"5".toList])
    (.v6 ["2001".toList,"db8".toList,"0".toList,"0".toList,"0".toList,"0".toList,"1".toList,
      "5".toList]) (.v6 ⟨[0x2001,0xdb8,0,0,0,0,1,5],rfl,by decide⟩)
    (.v6 ⟨[0x2001,0xdb8,0,0,0,0,1,5],rfl,by decide⟩) _ _ rfl rfl rfl rfl rfl
  exact absurd hsame.2 (by decide)

end WeirdVault.Audit
