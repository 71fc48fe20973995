import WeirdVault.Framework.Doubles
import WeirdVault.Framework.Numerals
import WeirdVault.Framework.Utf16

/-!
# JSON as text

`JSON.parse`, and the text that `serde_json` writes: strings and whole numbers without a sign, and
arrays and objects of what is already written. What is written is read back.
-/

namespace WeirdVault.Framework

namespace Json

def isSpace (c : Char) : Bool := c == ' ' || c == '\t' || c == '\n' || c == '\r'

def skip (s : Text) : Text := s.dropWhile isSpace

def escaped? (c : Char) : Option UInt16 :=
  if c = '"' then some 0x22
  else if c = '\\' then some 0x5C
  else if c = '/' then some 0x2F
  else if c = 'b' then some 0x08
  else if c = 'f' then some 0x0C
  else if c = 'n' then some 0x0A
  else if c = 'r' then some 0x0D
  else if c = 't' then some 0x09
  else none

/-- Where the reader of a string is. -/
inductive Inside
  | plain
  | backslash
  | unicode (digits : Text)

/-- The units of a string after its first quote, and what follows the last one. -/
def stringBody : Inside → Text → Option (JsString × Text)
  | _, [] => none
  | .plain, c :: s =>
    if c = '"' then some ([],s)
    else if c = '\\' then stringBody .backslash s
    else if c.toNat < 0x20 then none
    else (stringBody .plain s).map fun r => (charUnits c ++ r.1,r.2)
  | .backslash, c :: s =>
    if c = 'u' then stringBody (.unicode []) s
    else (escaped? c).bind fun u => (stringBody .plain s).map fun r => (u :: r.1,r.2)
  | .unicode digits, c :: s =>
    if digits.length < 3 then stringBody (.unicode (digits ++ [c])) s
    else (number? 16 (digits ++ [c])).bind fun u =>
      (stringBody .plain s).map fun r => (u.toUInt16 :: r.1,r.2)

def digits? (s : Text) : Option (Text × Text) :=
  let (digits,rest) := s.span Char.isDigit
  if digits = [] then none else some (digits,rest)

def fraction? : Text → Option (Text × Text)
  | '.' :: s => digits? s
  | s => some ([],s)

def exponent? : Text → Option (ℤ × Text)
  | c :: s =>
    if c = 'e' ∨ c = 'E' then
      let (negative,s) := match s with
        | '-' :: s => (true,s)
        | '+' :: s => (false,s)
        | s => (false,s)
      do
        let (digits,s) ← digits? s
        let n ← number? 10 digits
        return (if negative then -(n : ℤ) else n,s)
    else some (0,c :: s)
  | [] => some (0,[])

def unsigned? (s : Text) : Option (ℚ × Text) := do
  let (whole,s) ← digits? s
  if whole.head? = some '0' ∧ whole.length ≠ 1 then none
  else
    let (fraction,s) ← fraction? s
    let (exponent,s) ← exponent? s
    let n ← number? 10 (whole ++ fraction)
    return (n*10^(exponent-fraction.length),s)

def signed? : Text → Option (Json × Text)
  | '-' :: s => (unsigned? s).map fun r => (.number (double (-r.1)),r.2)
  | s => (unsigned? s).map fun r => (.number (double r.1),r.2)

def keyword (s : Text) : Option (Json × Text) :=
  if "null".toList.isPrefixOf s then some (.null,s.drop 4)
  else if "true".toList.isPrefixOf s then some (.bool true,s.drop 4)
  else if "false".toList.isPrefixOf s then some (.bool false,s.drop 5)
  else none

/-- At least one element, commas between them, and the bracket that closes. -/
def separated {α : Type} (close : Char) (element : Text → Option (α × Text)) :
    Nat → Text → Option (List α × Text)
  | 0, _ => none
  | n+1, s => (element s).bind fun (a,rest) =>
    match skip rest with
    | [] => none
    | c :: rest =>
      if c = close then some ([a],rest)
      else if c = ',' then (separated close element n rest).map fun r => (a :: r.1,r.2)
      else none

def member (value : Text → Option (Json × Text)) (s : Text) :
    Option ((JsString × Json) × Text) :=
  match skip s with
  | '"' :: s => (stringBody .plain s).bind fun (key,s) =>
    match skip s with
    | ':' :: s => (value s).map fun r => ((key,r.1),r.2)
    | _ => none
  | _ => none

/-- A name that comes again keeps its place and takes the new value. -/
def setMember (out : Members) (e : JsString × Json) : Members :=
  if out.any (fun x => x.1 == e.1) then out.map (fun x => if x.1 == e.1 then e else x)
  else out ++ [e]

/-- A value in front of the text, nested no deeper than the first argument allows. -/
def value : Nat → Text → Option (Json × Text)
  | 0, _ => none
  | n+1, s =>
    match skip s with
    | [] => none
    | c :: s =>
      if c = '"' then (stringBody .plain s).map fun r => (.string r.1,r.2)
      else if c = '[' then
        if (skip s).head? = some ']' then some (.array [],(skip s).tail)
        else (separated ']' (value n) s.length s).map fun r => (.array r.1,r.2)
      else if c = '\x7b' then
        if (skip s).head? = some '\x7d' then some (.object [],(skip s).tail)
        else (separated '\x7d' (member (value n)) s.length s).map fun r =>
          (.object (r.1.foldl setMember []),r.2)
      else (keyword (c :: s)).or (signed? (c :: s))

/-- `JSON.parse`; names that are indices keep the places that the text gives them. -/
def parse (s : Text) : Option Json :=
  (value (s.length+1) s).bind fun r => if skip r.2 = [] then some r.1 else none

def get? : Json → JsString → Option Json
  | .object members, name => (members.find? fun e => e.1 == name).map Prod.snd
  | _, _ => none

end Json

namespace Serde

def escape (c : Char) : Text :=
  if c = '"' then ['\\','"']
  else if c = '\\' then ['\\','\\']
  else if c.toNat = 0x08 then ['\\','b']
  else if c.toNat = 0x09 then ['\\','t']
  else if c.toNat = 0x0A then ['\\','n']
  else if c.toNat = 0x0C then ['\\','f']
  else if c.toNat = 0x0D then ['\\','r']
  else if c.toNat < 0x20 then
    ['\\','u','0','0',Nat.digitChar (c.toNat/16),Nat.digitChar (c.toNat%16)]
  else [c]

def string (s : String) : Text := '"' :: (s.toList.flatMap escape ++ ['"'])

def separated : List Text → Text
  | [] => []
  | [t] => t
  | t :: u :: rest => t ++ ',' :: separated (u :: rest)

def array (items : List Text) : Text := '[' :: (separated items ++ [']'])

def member (m : String × Text) : Text := string m.1 ++ ':' :: m.2

def object (members : List (String × Text)) : Text :=
  '\x7b' :: (separated (members.map member) ++ ['\x7d'])

inductive Scalar
  | number (n : Nat)
  | string (s : String)

namespace Scalar

def write : Scalar → Text
  | .number n => numeral 10 n
  | .string s => Serde.string s

def read : Scalar → Json
  | .number n => .number (double n)
  | .string s => .string (utf16 s)

end Scalar

abbrev Fields := List (String × Scalar)

def record (fields : Fields) : Text := object (fields.map fun f => (f.1,f.2.write))

def readRecord (fields : Fields) : Json := .object (fields.map fun f => (utf16 f.1,f.2.read))

end Serde

open Serde

def Stops (rest : Text) : Prop :=
  ∀ c ∈ rest.head?, c.isDigit = false ∧ c ≠ '.' ∧ c ≠ 'e' ∧ c ≠ 'E'

/-- In front of any other text the value is read and the other text left. -/
structure Reads (depth : Nat) (text : Text) (v : Json) : Prop where
  begins : ∃ c t, text = c :: t ∧ Json.isSpace c = false ∧ c ≠ ']'
  reads : ∀ n, depth ≤ n → ∀ rest, Stops rest → Json.value n (text ++ rest) = some (v,rest)

@[simp] theorem skip_cons {c : Char} {s : Text} (h : Json.isSpace c = false) :
    Json.skip (c :: s) = c :: s := by
  simp [Json.skip,h]

theorem Stops.cons {c : Char} (hc : c.isDigit = false ∧ c ≠ '.' ∧ c ≠ 'e' ∧ c ≠ 'E') (s : Text) :
    Stops (c :: s) := by
  intro d hd
  obtain rfl := Option.some.inj hd
  exact hc

theorem Stops.nil : Stops [] := by
  intro c hc
  cases hc

private theorem control_read : ∀ n < 32,
    number? 16 ['0','0',Nat.digitChar (n/16),Nat.digitChar (n%16)] = some n := by
  decide

private theorem eq_ofNat {c : Char} {n : Nat} (h : c.toNat = n) : c = Char.ofNat n := by
  rw [← h,Char.ofNat_toNat]

private theorem stringBody_escape (c : Char) (s : Text) :
    Json.stringBody .plain (escape c ++ s) =
      (Json.stringBody .plain s).map fun r => (charUnits c ++ r.1,r.2) := by
  unfold escape
  split
  · rename_i hc
    subst hc
    rfl
  · split
    · rename_i hc
      subst hc
      rfl
    · split
      · rename_i hc
        rw [eq_ofNat hc]
        rfl
      · split
        · rename_i hc
          rw [eq_ofNat hc]
          rfl
        · split
          · rename_i hc
            rw [eq_ofNat hc]
            rfl
          · split
            · rename_i hc
              rw [eq_ofNat hc]
              rfl
            · split
              · rename_i hc
                rw [eq_ofNat hc]
                rfl
              · split
                · rename_i hc
                  have hunits : charUnits c = [c.toNat.toUInt16] := if_pos (by omega)
                  have hread := control_read c.toNat hc
                  rw [hunits]
                  show Option.bind (number? 16
                    ['0','0',Nat.digitChar (c.toNat/16),Nat.digitChar (c.toNat%16)]) _ = _
                  rw [hread]
                  rfl
                · rename_i hquote hslash _ _ _ _ _ hplain
                  simp [Json.stringBody,hquote,hslash,hplain]

private theorem stringBody_flatMap (s : List Char) (rest : Text) :
    Json.stringBody .plain (s.flatMap escape ++ '"' :: rest) =
      some (s.flatMap charUnits,rest) := by
  induction s with
  | nil => rfl
  | cons c s ih =>
    rw [List.flatMap_cons,List.append_assoc,stringBody_escape,ih]
    rfl

theorem stringBody_string (s : String) (rest : Text) :
    Json.stringBody .plain (s.toList.flatMap escape ++ '"' :: rest) = some (utf16 s,rest) :=
  stringBody_flatMap s.toList rest

theorem reads_string (s : String) : Reads 1 (Serde.string s) (.string (utf16 s)) where
  begins := ⟨'"',_,rfl,rfl,by decide⟩
  reads := by
    intro n hn rest _
    obtain ⟨m,rfl⟩ := Nat.exists_eq_add_of_le' hn
    have hquote : Serde.string s ++ rest = '"' :: (s.toList.flatMap escape ++ '"' :: rest) := by
      simp [Serde.string]
    rw [hquote,Json.value,skip_cons rfl]
    simp [stringBody_string]

theorem isDigit_of_mem_numeral {n : Nat} {c : Char} (h : c ∈ numeral 10 n) :
    c.isDigit = true := by
  have hdigit := digit?_of_mem_numeral (by omega) (by omega) h
  obtain ⟨d,hd⟩ := Option.isSome_iff_exists.mp hdigit
  have hplain := (isPlain_numeral (by omega : 2 ≤ 10) (by omega) n).1 c h
  obtain ⟨hlt,hcode | hcode | hcode⟩ := digit?_eq_some hd
  · have hrange : 48 ≤ c.toNat ∧ c.toNat ≤ 57 := by omega
    simpa [Char.isDigit,UInt32.le_iff_toNat_le] using hrange
  · omega
  · rw [hplain] at hcode
    cases hcode

theorem numeral_ne_nil (n : Nat) : numeral 10 n ≠ [] :=
  ne_nil_of_number? (number?_numeral (by omega) (by omega) n)

theorem digits?_append {digits rest : Text} (hdigits : ∀ c ∈ digits, c.isDigit = true)
    (hne : digits ≠ []) (h : ∀ c ∈ rest.head?, c.isDigit = false) :
    Json.digits? (digits ++ rest) = some (digits,rest) := by
  have hrest : rest.takeWhile Char.isDigit = [] ∧ rest.dropWhile Char.isDigit = rest := by
    cases rest with
    | nil => exact ⟨rfl,rfl⟩
    | cons c rest =>
      have hc := h c rfl
      simp [hc]
  rw [Json.digits?,List.span_eq_takeWhile_dropWhile,List.takeWhile_append_of_pos hdigits,
    List.dropWhile_append_of_pos hdigits,hrest.1,hrest.2,List.append_nil]
  simp [hne]

theorem digits?_numeral (n : Nat) {rest : Text} (h : Stops rest) :
    Json.digits? (numeral 10 n ++ rest) = some (numeral 10 n,rest) :=
  digits?_append (fun _ hc => isDigit_of_mem_numeral hc) (numeral_ne_nil n) (fun c hc => (h c hc).1)

theorem fraction?_stops {rest : Text} (h : Stops rest) :
    Json.fraction? rest = some ([],rest) := by
  cases rest with
  | nil => rfl
  | cons c rest =>
    have hc := (h c rfl).2.1
    unfold Json.fraction?
    split
    · rename_i heq
      exact absurd (List.cons.inj heq).1 hc
    · rfl

theorem exponent?_stops {rest : Text} (h : Stops rest) :
    Json.exponent? rest = some (0,rest) := by
  cases rest with
  | nil => rfl
  | cons c rest =>
    obtain ⟨-,-,he,hE⟩ := h c rfl
    simp [Json.exponent?,he,hE]

theorem unsigned?_numeral (n : Nat) {rest : Text} (h : Stops rest) :
    Json.unsigned? (numeral 10 n ++ rest) = some ((n : ℚ),rest) := by
  have hplain := (isPlain_numeral (by omega : 2 ≤ 10) (by omega) n).2
  have hlead : ¬((numeral 10 n).head? = some '0' ∧ (numeral 10 n).length ≠ 1) :=
    fun hzero => hzero.2 (hplain hzero.1)
  simp only [Json.unsigned?,digits?_numeral n h,Option.bind_eq_bind,Option.bind_some,if_neg hlead,
    fraction?_stops h,exponent?_stops h,List.append_nil,number?_numeral (by omega : 2 ≤ 10)
    (by omega) n]
  simp

theorem begins_of_isDigit {c : Char} (h : c.isDigit = true) :
    Json.isSpace c = false ∧ c ≠ ']' ∧ c ≠ '"' ∧ c ≠ '[' ∧ c ≠ '\x7b' ∧ c ≠ '-' ∧ c ≠ 'n' ∧
      c ≠ 't' ∧ c ≠ 'f' := by
  have hspace : Json.isSpace c = false := by
    by_contra hc
    simp only [Json.isSpace,Bool.not_eq_false,Bool.or_eq_true,beq_iff_eq] at hc
    rcases hc with ((rfl | rfl) | rfl) | rfl <;> cases h
  refine ⟨hspace,?_,?_,?_,?_,?_,?_,?_,?_⟩ <;> (rintro rfl; cases h)

theorem reads_number (n : Nat) : Reads 1 (numeral 10 n) (.number (double n)) := by
  obtain ⟨c,t,ht⟩ := List.exists_cons_of_ne_nil (numeral_ne_nil n)
  have hdigit : c.isDigit = true := isDigit_of_mem_numeral (n := n) (by simp [ht])
  obtain ⟨hspace,hclose,hquote,hopen,hbrace,hminus,hnull,htrue,hfalse⟩ := begins_of_isDigit hdigit
  refine ⟨⟨c,t,ht,hspace,hclose⟩,?_⟩
  intro m hm rest hrest
  obtain ⟨m,rfl⟩ := Nat.exists_eq_add_of_le' hm
  have hunsigned := unsigned?_numeral n hrest
  rw [ht,List.cons_append] at hunsigned ⊢
  have hword : Json.keyword (c :: (t ++ rest)) = none := by
    simp [Json.keyword,List.isPrefixOf,hnull.symm,htrue.symm,hfalse.symm]
  have hnumber : Json.signed? (c :: (t ++ rest)) = some (.number (double n),rest) := by
    unfold Json.signed?
    split
    · rename_i heq
      exact absurd (List.cons.inj heq).1 hminus
    · rw [hunsigned]
      rfl
  rw [Json.value,skip_cons hspace]
  simp [hquote,hopen,hbrace,hword,hnumber]

theorem Serde.Scalar.reads_write (s : Serde.Scalar) : Reads 1 s.write s.read := by
  cases s with
  | number n => exact reads_number n
  | string s => exact reads_string s

theorem separated_of_reads {α β : Type} (close : Char) {element : Text → Option (β × Text)}
    {text : α → Text} {v : α → β} (hclose : close.isDigit = false ∧ close ≠ '.' ∧ close ≠ 'e' ∧
      close ≠ 'E') (hspace : Json.isSpace close = false) (hcomma : close ≠ ',') {xs : List α}
    (hne : xs ≠ []) (h : ∀ x ∈ xs, ∀ rest, Stops rest → element (text x ++ rest) = some (v x,rest))
    {n : Nat} (hn : xs.length ≤ n) (rest : Text) :
    Json.separated close element n (Serde.separated (xs.map text) ++ close :: rest) =
      some (xs.map v,rest) := by
  induction xs generalizing n with
  | nil => exact absurd rfl hne
  | cons x xs ih =>
    obtain ⟨n,rfl⟩ := Nat.exists_eq_add_of_le' (Nat.le_trans (by simp) hn : 1 ≤ n)
    have hx := h x (by simp)
    cases xs with
    | nil =>
      have hfirst := hx (close :: rest) (Stops.cons hclose rest)
      simp [Serde.separated,Json.separated,hfirst,skip_cons hspace]
    | cons y xs =>
      have hrest := ih (by simp) (fun z hz => h z (by simp [hz])) (n := n) (by simpa using hn)
      have hfirst := hx (',' :: (Serde.separated ((y :: xs).map text) ++ close :: rest))
        (Stops.cons (by decide) _)
      rw [List.map_cons] at hfirst hrest
      simp only [List.map_cons,Serde.separated,List.append_assoc,List.cons_append,Json.separated,
        hfirst,Option.bind_some,skip_cons (show Json.isSpace ',' = false from rfl)]
      rw [if_neg hcomma.symm,if_pos trivial,hrest]
      rfl

theorem length_le_separated (ts : List Text) (h : ∀ t ∈ ts, t ≠ []) :
    ts.length ≤ (Serde.separated ts).length := by
  induction ts with
  | nil => simp
  | cons t ts ih =>
    have hlen := List.length_pos_iff.mpr (h t (by simp))
    cases ts with
    | nil => exact hlen
    | cons u rest =>
      have hrest := ih (fun s hs => h s (by simp [hs]))
      simp only [Serde.separated,List.length_append,List.length_cons] at hrest ⊢
      omega

theorem reads_array {α : Type} {depth : Nat} {text : α → Text} {v : α → Json} {xs : List α}
    (h : ∀ x ∈ xs, Reads depth (text x) (v x)) :
    Reads (depth+1) (Serde.array (xs.map text)) (.array (xs.map v)) := by
  refine ⟨⟨'[',_,rfl,rfl,by decide⟩,?_⟩
  intro n hn rest _
  obtain ⟨n,rfl⟩ := Nat.exists_eq_add_of_le' (Nat.le_trans (by omega) hn : 1 ≤ n)
  have htext : Serde.array (xs.map text) ++ rest =
      '[' :: (Serde.separated (xs.map text) ++ ']' :: rest) := by
    simp [Serde.array]
  rw [htext,Json.value,skip_cons rfl]
  cases xs with
  | nil => rfl
  | cons x xs =>
    obtain ⟨c,t,ht,hspace,hclose⟩ := (h x (by simp)).begins
    have hhead : (Json.skip (Serde.separated ((x :: xs).map text) ++ ']' :: rest)).head? ≠
        some ']' := by
      have hcons : ∃ s, Serde.separated ((x :: xs).map text) ++ ']' :: rest = c :: s := by
        cases xs <;> simp [Serde.separated,ht]
      obtain ⟨s,hs⟩ := hcons
      rw [hs,skip_cons hspace]
      simpa using hclose
    have hitems := separated_of_reads ']' (by decide) rfl (by decide) (by simp)
      (fun y hy => (h y hy).reads n (by omega)) (n := (Serde.separated ((x :: xs).map text) ++
        ']' :: rest).length) ?_ rest
    · simp only [if_neg (show '[' ≠ '"' by decide),if_pos,if_neg hhead,hitems,Option.map_some]
    · have hle := length_le_separated ((x :: xs).map text) (by
        intro t ht
        obtain ⟨y,hy,rfl⟩ := List.mem_map.mp ht
        obtain ⟨c,t,ht,-⟩ := (h y hy).begins
        simp [ht])
      rw [List.length_map] at hle
      rw [List.length_append]
      omega

private theorem foldl_setMember {ms out : Members} (h : ((out ++ ms).map Prod.fst).Nodup) :
    ms.foldl Json.setMember out = out ++ ms := by
  induction ms generalizing out with
  | nil => simp
  | cons m ms ih =>
    have hnew : out.any (fun x => x.1 == m.1) = false := by
      rw [List.any_eq_false]
      intro x hx heq
      rw [List.map_append,List.nodup_append] at h
      exact h.2.2 x.1 (List.mem_map_of_mem hx) m.1 (by simp) (beq_iff_eq.mp heq)
    have happend : out ++ m :: ms = out ++ [m] ++ ms := by simp
    rw [List.foldl_cons,Json.setMember,hnew,happend]
    exact ih (happend ▸ h)

private theorem foldl_setMember_nil {ms : Members} (h : (ms.map Prod.fst).Nodup) :
    ms.foldl Json.setMember [] = ms := by
  apply foldl_setMember
  simpa using h

theorem reads_object {α : Type} {depth : Nat} (name : α → String) {text : α → Text} {v : α → Json}
    (xs : List α) (hname : (xs.map name).Nodup) (h : ∀ x ∈ xs, Reads depth (text x) (v x)) :
    Reads (depth+1) (Serde.object (xs.map fun x => (name x,text x)))
      (.object (xs.map fun x => (utf16 (name x),v x))) := by
  refine ⟨⟨'\x7b',_,rfl,rfl,by decide⟩,?_⟩
  intro n hn rest _
  obtain ⟨n,rfl⟩ := Nat.exists_eq_add_of_le' (Nat.le_trans (by omega) hn : 1 ≤ n)
  have htext : Serde.object (xs.map fun x => (name x,text x)) ++ rest =
      '\x7b' :: (Serde.separated (xs.map fun x => Serde.member (name x,text x)) ++
        '\x7d' :: rest) := by
    simp [Serde.object,Function.comp_def]
  rw [htext,Json.value,skip_cons rfl]
  cases xs with
  | nil => rfl
  | cons x xs =>
    have hhead : (Json.skip (Serde.separated ((x :: xs).map fun x =>
        Serde.member (name x,text x)) ++ '\x7d' :: rest)).head? ≠ some '\x7d' := by
      have hcons : ∃ s, Serde.separated ((x :: xs).map fun x => Serde.member (name x,text x)) ++
          '\x7d' :: rest = '"' :: s := by
        cases xs <;> simp [Serde.separated,Serde.member,Serde.string]
      obtain ⟨s,hs⟩ := hcons
      rw [hs,skip_cons rfl]
      simp
    have hmember : ∀ y ∈ x :: xs, ∀ rest, Stops rest →
        Json.member (Json.value n) (Serde.member (name y,text y) ++ rest) =
          some ((utf16 (name y),v y),rest) := by
      intro y hy rest hrest
      have hcolon : Serde.member (name y,text y) ++ rest =
          '"' :: ((name y).toList.flatMap Serde.escape ++ '"' :: ':' :: (text y ++ rest)) := by
        simp [Serde.member,Serde.string]
      rw [hcolon,Json.member,skip_cons rfl]
      simp [stringBody_string,skip_cons (show Json.isSpace ':' = false from rfl),
        (h y hy).reads n (by omega) rest hrest]
    have hitems := separated_of_reads '\x7d' (by decide) rfl (by decide) (by simp) hmember
      (n := (Serde.separated ((x :: xs).map fun x => Serde.member (name x,text x)) ++
        '\x7d' :: rest).length) ?_ rest
    · have hkeys : (((x :: xs).map fun x => (utf16 (name x),v x)).map Prod.fst).Nodup := by
        have hmap : ((x :: xs).map fun x => (utf16 (name x),v x)).map Prod.fst =
            ((x :: xs).map name).map utf16 := by
          simp [Function.comp_def]
        rw [hmap]
        exact hname.map utf16_injective
      have hfold := foldl_setMember_nil hkeys
      simp only [if_neg (show '\x7b' ≠ '"' by decide),if_neg (show '\x7b' ≠ '[' by decide),if_pos,
        if_neg hhead,hitems,Option.map_some,hfold]
    · have hle := length_le_separated ((x :: xs).map fun x => Serde.member (name x,text x)) (by
        intro t ht
        obtain ⟨y,hy,rfl⟩ := List.mem_map.mp ht
        simp [Serde.member,Serde.string])
      rw [List.length_map] at hle
      rw [List.length_append]
      omega

theorem reads_record {fields : Serde.Fields} (h : (fields.map Prod.fst).Nodup) :
    Reads 2 (Serde.record fields) (Serde.readRecord fields) :=
  reads_object Prod.fst fields h fun f _ => f.2.reads_write

theorem Reads.parse {depth : Nat} {text : Text} {v : Json} (h : Reads depth text v)
    (hdepth : depth ≤ text.length+1) : Json.parse text = some v := by
  have hreads := h.reads _ hdepth [] Stops.nil
  rw [List.append_nil] at hreads
  rw [Json.parse,hreads]
  rfl

end WeirdVault.Framework
