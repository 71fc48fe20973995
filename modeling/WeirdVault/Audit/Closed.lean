import WeirdVault.Audit.Events

/-!
# What gets past the metadata allowlist

The loop lets an entry through when its key is listed and its validator accepts the value, and also
when its key names an inherited function that happens to answer something truthy. `JSON.stringify`
is total here: that it does not run out of stack on a value nested too deep is assumed.
-/

namespace WeirdVault.Audit

open WeirdVault.Framework

variable (numberText : ℚ → JsString) (type : AuditEventType)

/-- The key is an own entry of the allowlist and its validator accepts the value. -/
def Listed (e : JsString × Json) : Prop :=
  ∃ validator, (AUDIT_METADATA type).own? e.1 = some validator ∧ validator e.2 = true

/-- What the lookup finds for a key that is not listed answers as `x`. -/
def Calls (e : JsString × Json) (x : Except Inherited.TypeError Bool) : Prop :=
  (AUDIT_METADATA type).own? e.1 = none ∧ ∃ m, Inherited.ofName? e.1 = some m ∧ m.call e.2 = x

def Passes (e : JsString × Json) : Prop := Listed type e ∨ Calls type e (.ok true)

def Throws (e : JsString × Json) : Prop := ∃ x, Calls type e (.error x)

/-- Nothing is thrown, and what is accepted is listed. -/
def Holds (x : Except Inherited.TypeError MetadataResult) : Prop :=
  ∃ r, x = .ok r ∧ ∀ value, r = .accepted value → ∀ e ∈ value, Listed type e

def TooLarge (out : Members) : Prop :=
  MAX_METADATA_BYTES < (Json.stringify numberText (.object out)).length

section Entries

variable {numberText type} {out rest members : Members} {e : JsString × Json}

private theorem validateEntries_passes (h : Passes type e) :
    validateEntries numberText type out (e :: rest) =
      validateEntries numberText type (assign out e) rest := by
  obtain ⟨key,value⟩ := e
  rcases h with ⟨validator,hown,hvalid⟩ | ⟨hown,m,hm,hcall⟩
  · simp only at hown hvalid
    simp only [validateEntries,PlainObject.get?,hown,hvalid,if_true]
  · simp only at hown hm hcall
    simp only [validateEntries,PlainObject.get?,hown,hm,hcall,Option.map_some]

private theorem validateEntries_throws (numberText : ℚ → JsString) (out rest : Members)
    (h : Throws type e) :
    ∃ x, validateEntries numberText type out (e :: rest) = .error x := by
  obtain ⟨key,value⟩ := e
  obtain ⟨x,hown,m,hm,hcall⟩ := h
  simp only at hown hm hcall
  exact ⟨x,by simp only [validateEntries,PlainObject.get?,hown,hm,hcall,Option.map_some]⟩

private theorem validateEntries_refuses (numberText : ℚ → JsString) (out rest : Members)
    (hpass : ¬ Passes type e) (hthrow : ¬ Throws type e) :
    ∃ error, validateEntries numberText type out (e :: rest) = .ok (.refused error) := by
  obtain ⟨key,value⟩ := e
  rcases hown : (AUDIT_METADATA type).own? key with _ | validator
  · rcases hm : Inherited.ofName? key with _ | m
    · exact ⟨_,by simp only [validateEntries,PlainObject.get?,hown,hm,Option.map_none]; rfl⟩
    · rcases hcall : m.call value with x | b
      · exact absurd ⟨x,hown,m,hm,hcall⟩ hthrow
      · cases b with
        | false =>
          exact ⟨_,by simp only [validateEntries,PlainObject.get?,hown,hm,hcall,Option.map_some]; rfl⟩
        | true => exact absurd (Or.inr ⟨hown,m,hm,hcall⟩) hpass
  · by_cases hvalid : validator value = true
    · exact absurd (Or.inl ⟨validator,hown,hvalid⟩) hpass
    · exact ⟨_,by simp only [validateEntries,PlainObject.get?,hown,hvalid]; rfl⟩

def NeverThrows (type : AuditEventType) (members : Members) : Prop :=
  ∀ pre e post, members = pre ++ e :: post → (∀ x ∈ pre, Passes type x) → ¬ Throws type e

private theorem neverThrows_cons_of_passes (h : Passes type e) (hn : ¬ Throws type e) :
    NeverThrows type (e :: rest) ↔ NeverThrows type rest := by
  constructor
  · intro hall pre x post hsplit hpre
    refine hall (e :: pre) x post (by rw [hsplit]; rfl) ?_
    intro y hy
    rcases List.mem_cons.mp hy with rfl | hy
    · exact h
    · exact hpre y hy
  · intro hall pre x post hsplit hpre
    cases pre with
    | nil =>
      obtain ⟨rfl,-⟩ := List.cons.inj hsplit
      exact hn
    | cons y pre =>
      obtain ⟨-,htail⟩ := List.cons.inj hsplit
      exact hall pre x post htail (fun z hz => hpre z (List.mem_cons_of_mem y hz))

private theorem not_throws_of_passes (h : Passes type e) : ¬ Throws type e := by
  intro ht
  obtain ⟨x,hown,m,hm,hcall⟩ := ht
  rcases h with ⟨validator,hsome,-⟩ | ⟨-,m',hm',hcall'⟩
  · rw [hown] at hsome
    cases hsome
  · obtain rfl := Option.some.inj (hm.symm.trans hm')
    rw [hcall] at hcall'
    cases hcall'

private theorem holds_validateEntries :
    Holds type (validateEntries numberText type out members) ↔ NeverThrows type members ∧
      ((∀ e ∈ members, Passes type e) →
        (∀ e ∈ members.foldl assign out, Listed type e) ∨
          TooLarge numberText (members.foldl assign out)) := by
  induction members generalizing out with
  | nil =>
    have hnever : NeverThrows type [] := by
      intro pre e post hsplit
      simp at hsplit
    by_cases hlarge : TooLarge numberText out
    · have hrun : validateEntries numberText type out [] = .ok (.refused (utf16 "metadata too large")) :=
        if_pos hlarge
      rw [hrun]
      refine ⟨fun _ => ⟨hnever,fun _ => Or.inr hlarge⟩,?_⟩
      intro _
      exact ⟨_,rfl,fun _ h => by cases h⟩
    · have hrun : validateEntries numberText type out [] = .ok (.accepted out) := if_neg hlarge
      rw [hrun]
      constructor
      · intro h
        obtain ⟨r,hr,hlisted⟩ := h
        exact ⟨hnever,fun _ => Or.inl (hlisted out (Except.ok.inj hr).symm)⟩
      · intro h
        rcases h.2 (by simp) with hlisted | hno
        · refine ⟨_,rfl,?_⟩
          intro value hvalue
          obtain rfl := MetadataResult.accepted.inj hvalue
          exact hlisted
        · exact absurd hno hlarge
  | cons e rest ih =>
    by_cases hpass : Passes type e
    · have hthrow := not_throws_of_passes hpass
      rw [validateEntries_passes hpass,ih,neverThrows_cons_of_passes hpass hthrow,List.foldl_cons]
      simp only [List.forall_mem_cons,hpass,true_and]
    · by_cases hthrow : Throws type e
      · obtain ⟨x,hrun⟩ := validateEntries_throws numberText out rest hthrow
        rw [hrun]
        constructor
        · intro h
          obtain ⟨r,hr,-⟩ := h
          cases hr
        · intro h
          exact absurd hthrow (h.1 [] e rest rfl (by simp))
      · obtain ⟨error,hrun⟩ := validateEntries_refuses numberText out rest hpass hthrow
        rw [hrun]
        constructor
        · intro _
          refine ⟨?_,fun hall => absurd (hall e List.mem_cons_self) hpass⟩
          intro pre x post hsplit hpre
          cases pre with
          | nil =>
            obtain ⟨rfl,-⟩ := List.cons.inj hsplit
            exact hthrow
          | cons y pre =>
            obtain ⟨rfl,-⟩ := List.cons.inj hsplit
            exact absurd (hpre _ List.mem_cons_self) hpass
        · intro _
          exact ⟨_,rfl,fun _ h => by cases h⟩

private theorem mem_assign {x : JsString × Json} (h : x ∈ assign out e) : x = e ∨ x ∈ out := by
  unfold assign at h
  split at h
  · obtain ⟨y,hy,rfl⟩ := List.mem_map.mp h
    split
    · exact Or.inl rfl
    · exact Or.inr hy
  · rcases List.mem_append.mp h with h | h
    · exact Or.inr h
    · exact Or.inl (List.mem_singleton.mp h)

private theorem mem_foldl_assign {x : JsString × Json} (h : x ∈ members.foldl assign out) :
    x ∈ out ∨ x ∈ members := by
  induction members generalizing out with
  | nil => exact Or.inl h
  | cons e rest ih =>
    rcases ih h with hx | hx
    · rcases mem_assign hx with rfl | hx
      · exact Or.inr List.mem_cons_self
      · exact Or.inl hx
    · exact Or.inr (List.mem_cons_of_mem e hx)

private theorem key_assign {key : JsString} (h : key = e.1 ∨ ∃ x ∈ out, x.1 = key) :
    ∃ x ∈ assign out e, x.1 = key := by
  unfold assign
  by_cases hany : out.any (fun x => x.1 == e.1) = true
  · rw [if_pos hany]
    obtain ⟨y,hy,hye⟩ := List.any_eq_true.mp hany
    have hkey : key = e.1 ∨ ∃ x ∈ out, x.1 = key ∧ x.1 ≠ e.1 := by
      rcases h with h | ⟨x,hx,rfl⟩
      · exact Or.inl h
      · by_cases hxe : x.1 = e.1
        · exact Or.inl hxe
        · exact Or.inr ⟨x,hx,rfl,hxe⟩
    rcases hkey with rfl | ⟨x,hx,rfl,hne⟩
    · exact ⟨e,List.mem_map.mpr ⟨y,hy,if_pos hye⟩,rfl⟩
    · exact ⟨x,List.mem_map.mpr ⟨x,hx,if_neg (by simpa using hne)⟩,rfl⟩
  · rw [if_neg hany]
    rcases h with rfl | ⟨x,hx,rfl⟩
    · exact ⟨e,by simp,rfl⟩
    · exact ⟨x,List.mem_append_left _ hx,rfl⟩

private theorem key_foldl_assign {key : JsString}
    (h : (∃ x ∈ out, x.1 = key) ∨ ∃ x ∈ members, x.1 = key) :
    ∃ x ∈ members.foldl assign out, x.1 = key := by
  induction members generalizing out with
  | nil =>
    rcases h with h | ⟨x,hx,-⟩
    · exact h
    · simp at hx
  | cons e rest ih =>
    apply ih
    rcases h with h | ⟨x,hx,rfl⟩
    · exact Or.inl (key_assign (Or.inr h))
    · rcases List.mem_cons.mp hx with rfl | hx
      · exact Or.inl (key_assign (Or.inl rfl))
      · exact Or.inr ⟨x,hx,rfl⟩

private theorem listed_foldl_assign (hpass : ∀ e ∈ members, Passes type e) :
    (∀ e ∈ members.foldl assign [], Listed type e) ↔ ∀ e ∈ members, Listed type e := by
  constructor
  · intro h e he
    rcases hpass e he with hlisted | ⟨hown,-⟩
    · exact hlisted
    · have hassigned : ∃ x ∈ members.foldl assign [], x.1 = e.1 :=
        key_foldl_assign (Or.inr ⟨e,he,rfl⟩)
      obtain ⟨x,hx,hkey⟩ := hassigned
      obtain ⟨validator,hsome,-⟩ := h x hx
      rw [hkey,hown] at hsome
      cases hsome
  · intro h e he
    rcases mem_foldl_assign he with he | he
    · simp at he
    · exact h e he

end Entries

/-- When the metadata of a request is handled as the allowlist says. -/
def Unsurprising (numberText : ℚ → JsString) (type : AuditEventType) : Option Json → Prop
  | some (.object members) => NeverThrows type members ∧
      ((∀ e ∈ members, Passes type e) →
        (∀ e ∈ members, Listed type e) ∨ TooLarge numberText (members.foldl assign []))
  | _ => True

private theorem holds_validateMetadata (metadata : Option Json) :
    Holds type (validateMetadata numberText type metadata) ↔
      Unsurprising numberText type metadata := by
  have hempty : Holds type (.ok (.accepted [])) := by
    refine ⟨_,rfl,?_⟩
    intro value hvalue
    obtain rfl := MetadataResult.accepted.inj hvalue
    simp
  have hrefused : ∀ error, Holds type (.ok (.refused error)) :=
    fun error => ⟨_,rfl,fun _ h => by cases h⟩
  rcases metadata with _ | m
  · exact ⟨fun _ => trivial,fun _ => hempty⟩
  · cases m with
    | null => exact ⟨fun _ => trivial,fun _ => hempty⟩
    | object members =>
      rw [validateMetadata,holds_validateEntries,Unsurprising]
      constructor
      · intro h
        refine ⟨h.1,?_⟩
        intro hpass
        rw [← listed_foldl_assign hpass]
        exact h.2 hpass
      · intro h
        refine ⟨h.1,?_⟩
        intro hpass
        rw [listed_foldl_assign hpass]
        exact h.2 hpass
    | _ => exact ⟨fun _ => trivial,fun _ => hrefused _⟩

private theorem ofName?_of_event {e : JsString × AuditEventType} (h : e ∈ AUDIT_EVENTS.entries) :
    Inherited.ofName? e.1 = none := by
  have hall : ∀ e ∈ AUDIT_EVENTS.entries, Inherited.ofName? e.1 = none := by decide +kernel
  exact hall e h

private theorem isAuditEventType_iff (v : JsString) :
    (isAuditEventType v = true ↔ ∃ t, AUDIT_EVENTS.own? v = some t) ↔
      Inherited.ofName? v = none := by
  rw [isAuditEventType,PlainObject.has_iff,← Inherited.isSome_ofName?]
  constructor
  · intro h
    rcases hname : Inherited.ofName? v with _ | m
    · rfl
    · obtain ⟨t,ht⟩ := h.mp (Or.inr (by rw [hname]; rfl))
      obtain ⟨e,he,-⟩ := Option.map_eq_some_iff.mp ht
      have hkey := List.find?_some he
      have hnone := ofName?_of_event (List.mem_of_find?_eq_some he)
      rw [eq_of_beq hkey,hname] at hnone
      cases hnone
  · intro h
    rw [h]
    simp

/-- Metadata is closed unless an entry under an inherited name comes before whatever is refused,
and an event type unless it is such a name. -/
theorem audit_closed_iff (metadata : Option Json) (v : JsString) :
    (Holds type (validateMetadata numberText type metadata) ↔
      Unsurprising numberText type metadata) ∧
    ((isAuditEventType v = true ↔ ∃ t, AUDIT_EVENTS.own? v = some t) ↔
      Inherited.ofName? v = none) :=
  ⟨holds_validateMetadata numberText type metadata,isAuditEventType_iff v⟩

/-- Free text under a name that every object inherits is accepted, another such name is thrown at,
and the name itself is an event type. -/
theorem inherited_names_let_through :
    AuditEventType.keyInstalled ∈ CLIENT_REPORTABLE ∧
    ¬ Holds .keyInstalled (validateMetadata (fun _ => []) .keyInstalled
      (some (.object [(utf16 "toString",.string (utf16 "cat /etc/shadow"))]))) ∧
    ¬ Holds .keyInstalled (validateMetadata (fun _ => []) .keyInstalled
      (some (.object [(utf16 "hasOwnProperty",.null)]))) ∧
    ¬ (isAuditEventType (utf16 "toString") = true ↔
      ∃ t, AUDIT_EVENTS.own? (utf16 "toString") = some t) := by
  have hown : (AUDIT_METADATA .keyInstalled).own? (utf16 "toString") = none := by rfl
  refine ⟨by decide +kernel,?_,?_,?_⟩
  · have hrun : validateMetadata (fun _ => []) .keyInstalled
        (some (.object [(utf16 "toString",.string (utf16 "cat /etc/shadow"))])) =
        .ok (.accepted [(utf16 "toString",.string (utf16 "cat /etc/shadow"))]) := by rfl
    intro h
    obtain ⟨r,hr,hlisted⟩ := h
    rw [hrun] at hr
    obtain ⟨validator,hsome,-⟩ := hlisted _ (Except.ok.inj hr).symm _ (List.mem_singleton.mpr rfl)
    rw [hown] at hsome
    cases hsome
  · have hrun : validateMetadata (fun _ => []) .keyInstalled
        (some (.object [(utf16 "hasOwnProperty",.null)])) = .error .typeError := by rfl
    intro h
    obtain ⟨r,hr,-⟩ := h
    rw [hrun] at hr
    cases hr
  · rw [isAuditEventType_iff]
    decide +kernel

end WeirdVault.Audit
