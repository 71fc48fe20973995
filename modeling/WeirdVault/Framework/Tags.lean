import Mathlib
import WeirdVault.Framework.Utf8

/-!
# Elements that are found with regular expressions

Markup is a sequence of tags and of words between them. The first opening tag of a name, and the
first closing one behind it, enclose what the expression matches.
-/

namespace WeirdVault.Framework.Tags

/-- Before and after the first occurrence of a pattern that is not empty. -/
def splitFirst (pattern : Text) : Text → Option (Text × Text)
  | [] => none
  | c :: s =>
    if pattern <+: c :: s then some ([],(c :: s).drop pattern.length)
    else (splitFirst pattern s).map fun p => (c :: p.1,p.2)

def tagText (name : Text) : Text := '<' :: (name ++ ['>'])

/-- `/<name>([\s\S]*?)<\/name>/`: the group, and what stands behind the match. -/
def between (name s : Text) : Option (Text × Text) :=
  (splitFirst (tagText name) s).bind fun p => splitFirst (tagText ('/' :: name)) p.2

def exec (name s : Text) : Option Text := (between name s).map Prod.fst

def matchesUpTo (name : Text) : ℕ → Text → List Text
  | 0,_ => []
  | n+1,s =>
    match between name s with
    | none => []
    | some (group,rest) => group :: matchesUpTo name n rest

/-- `matchAll`, of which the groups are taken. A match is not empty. -/
def matchAll (name s : Text) : List Text :=
  matchesUpTo name s.length s

/-- Whatever the case of the letters; the pattern is in small ones. -/
def dropFolded : Text → Text → Option Text
  | [],s => some s
  | _ :: _,[] => none
  | a :: pattern,c :: s => if c.toLower = a then dropFolded pattern s else none

def beginsFolded (isSpace : Char → Bool) (name word s : Text) : Bool :=
  ((dropFolded (tagText name) s).bind fun s =>
    (dropFolded word (s.dropWhile isSpace)).bind fun s =>
      dropFolded (tagText ('/' :: name)) (s.dropWhile isSpace)).isSome

def testFolded (isSpace : Char → Bool) (name word s : Text) : Bool :=
  s.tails.any (beginsFolded isSpace name word)

inductive Token where
  | tag (name : Text) (h : '<' ∉ name ∧ '>' ∉ name)
  | words (w : Text) (h : '<' ∉ w)

def Token.write : Token → Text
  | .tag name _ => tagText name
  | .words w _ => w

def Token.name? : Token → Option Text
  | .tag name _ => some name
  | .words _ _ => none

def write (ts : List Token) : Text := ts.flatMap Token.write

def Lacks (name : Text) (ts : List Token) : Prop := ∀ t ∈ ts, t.name? ≠ some name

@[simp] theorem write_nil : write [] = [] := rfl

@[simp] theorem write_cons (t : Token) (ts : List Token) : write (t :: ts) = t.write ++ write ts := rfl

@[simp] theorem write_append (ts us : List Token) : write (ts ++ us) = write ts ++ write us :=
  List.flatMap_append

section

variable {name : Text}

private theorem eq_of_leading {p t s : Text} (hp : '>' ∉ p) (ht : '>' ∉ t)
    (h : p ++ ['>'] <+: t ++ '>' :: s) : p = t := by
  induction p generalizing t with
  | nil =>
    cases t with
    | nil => rfl
    | cons c t =>
      rw [(List.cons_prefix_cons.mp h).1] at ht
      exact absurd List.mem_cons_self ht
  | cons a p ih =>
    cases t with
    | nil =>
      rw [← (List.cons_prefix_cons.mp h).1] at hp
      exact absurd List.mem_cons_self hp
    | cons c t =>
      obtain ⟨rfl,hrest⟩ := List.cons_prefix_cons.mp h
      rw [ih (fun hmem => hp (List.mem_cons_of_mem _ hmem))
        (fun hmem => ht (List.mem_cons_of_mem _ hmem)) hrest]

private theorem splitFirst_cons {pattern s : Text} {c : Char} (h : ¬ pattern <+: c :: s) :
    splitFirst pattern (c :: s) = (splitFirst pattern s).map fun p => (c :: p.1,p.2) := by
  rw [splitFirst,if_neg h]

private theorem splitFirst_words {w : Text} (h : '<' ∉ w) (s : Text) :
    splitFirst (tagText name) (w ++ s) =
      (splitFirst (tagText name) s).map fun p => (w ++ p.1,p.2) := by
  induction w with
  | nil => simp
  | cons c w ih =>
    have hc : ¬ tagText name <+: c :: (w ++ s) := by
      intro hprefix
      rw [← (List.cons_prefix_cons.mp hprefix).1] at h
      exact h List.mem_cons_self
    rw [List.cons_append,splitFirst_cons hc,ih fun hw => h (List.mem_cons_of_mem _ hw),
      Option.map_map]
    rfl

theorem splitFirst_here (s : Text) : splitFirst (tagText name) (tagText name ++ s) = some ([],s) := by
  have hprefix : tagText name <+: '<' :: (name ++ ['>'] ++ s) := List.prefix_append (tagText name) s
  have hsplit : tagText name ++ s = '<' :: (name ++ ['>'] ++ s) := rfl
  rw [hsplit,splitFirst,if_pos hprefix,← hsplit,List.drop_left]

variable (hname : '>' ∉ name)

include hname

theorem splitFirst_write {ts : List Token} (h : Lacks name ts) (s : Text) :
    splitFirst (tagText name) (write ts ++ s) =
      (splitFirst (tagText name) s).map fun p => (write ts ++ p.1,p.2) := by
  induction ts with
  | nil => simp
  | cons t ts ih =>
    obtain ⟨ht,hts⟩ := List.forall_mem_cons.mp h
    rw [write_cons,List.append_assoc]
    cases t with
    | words w hw =>
      rw [Token.write,splitFirst_words hw,ih hts,Option.map_map]
      congr 1
      funext p
      simp
    | tag other hother =>
      have hne : ¬ tagText name <+: '<' :: (other ++ ['>'] ++ (write ts ++ s)) := by
        intro hprefix
        have hrest := (List.cons_prefix_cons.mp hprefix).2
        rw [List.append_assoc] at hrest
        exact ht (congrArg some (eq_of_leading hname hother.2 hrest).symm)
      have hwords : '<' ∉ other ++ ['>'] := by
        intro hmem
        rcases List.mem_append.mp hmem with hmem | hmem
        · exact hother.1 hmem
        · exact absurd hmem (by decide)
      have hwrite : (Token.tag other hother).write ++ (write ts ++ s) =
          '<' :: (other ++ ['>'] ++ (write ts ++ s)) := rfl
      rw [hwrite,splitFirst_cons hne,splitFirst_words hwords,ih hts,Option.map_map,Option.map_map]
      congr 1
      funext p
      simp [Token.write,tagText]

theorem between_skip {ts : List Token} (h : Lacks name ts) (s : Text) :
    between name (write ts ++ s) = between name s := by
  rw [between,splitFirst_write hname h,between]
  cases splitFirst (tagText name) s with
  | none => rfl
  | some p => rfl

theorem between_here {ts : List Token} (h : Lacks ('/' :: name) ts) (s : Text) :
    between name (tagText name ++ (write ts ++ (tagText ('/' :: name) ++ s))) =
      some (write ts,s) := by
  have hclose : '>' ∉ '/' :: name := by
    intro hmem
    rcases List.mem_cons.mp hmem with heq | hmem
    · exact absurd heq (by decide)
    · exact hname hmem
  rw [between,splitFirst_here,Option.bind_some,splitFirst_write hclose h,splitFirst_here]
  simp

theorem exec_here {ts us : List Token} (h : Lacks name ts) (hclose : Lacks ('/' :: name) us)
    (s : Text) :
    exec name (write ts ++ (tagText name ++ (write us ++ (tagText ('/' :: name) ++ s)))) =
      some (write us) := by
  rw [exec,between_skip hname h,between_here hname hclose]
  rfl

theorem matchesUpTo_skip {ts : List Token} (h : Lacks name ts) (n : ℕ) (s : Text) :
    matchesUpTo name n (write ts ++ s) = matchesUpTo name n s := by
  cases n with
  | zero => rfl
  | succ n => rw [matchesUpTo,between_skip hname h,matchesUpTo]

theorem matchesUpTo_here {ts : List Token} (h : Lacks ('/' :: name) ts) (n : ℕ) (s : Text) :
    matchesUpTo name (n+1) (tagText name ++ (write ts ++ (tagText ('/' :: name) ++ s))) =
      write ts :: matchesUpTo name n s := by
  rw [matchesUpTo,between_here hname h]

end

theorem matchesUpTo_nil (name : Text) (n : ℕ) : matchesUpTo name n [] = [] := by
  cases n <;> rfl

section Folded

private theorem small_marks : ∀ a ∈ ['<','>'], ∀ n < 128,
    (Char.ofNat n).toLower = a → Char.ofNat n = a :=
  List.forall_iff_forall_mem.mp (by decide +kernel)

private theorem toLower_eq {a c : Char} (ha : a ∈ ['<','>']) (h : c.toLower = a) : c = a := by
  by_cases hascii : c.toNat < 128
  · have hmark := small_marks a ha c.toNat hascii
    rw [Char.ofNat_toNat] at hmark
    exact hmark h
  · have hupper : ¬ (c.val ≥ 'A'.val ∧ c.val ≤ 'Z'.val) := by
      rintro ⟨_,hle⟩
      have hcode : c.toNat ≤ 90 := UInt32.le_iff_toNat_le.mp hle
      omega
    rwa [Char.toLower,dif_neg hupper] at h

theorem dropFolded_append {pattern t : Text} (h : t.map Char.toLower = pattern) (s : Text) :
    dropFolded pattern (t ++ s) = some s := by
  subst h
  induction t with
  | nil => rfl
  | cons c t ih => simp [dropFolded,ih]

private theorem eq_of_dropFolded {name other s : Text} (hname : '>' ∉ name) (hother : '>' ∉ other)
    (h : (dropFolded (name ++ ['>']) (other ++ '>' :: s)).isSome) : other.map Char.toLower = name := by
  induction name generalizing other with
  | nil =>
    cases other with
    | nil => rfl
    | cons c other =>
      simp only [List.nil_append,List.cons_append,dropFolded] at h
      split at h
      · rename_i hc
        rw [toLower_eq (by simp) hc] at hother
        exact absurd List.mem_cons_self hother
      · cases h
  | cons a name ih =>
    cases other with
    | nil =>
      simp only [List.nil_append,List.cons_append,dropFolded] at h
      split at h
      · rename_i ha
        exact absurd (ha ▸ List.mem_cons_self) hname
      · cases h
    | cons c other =>
      simp only [List.cons_append,dropFolded] at h
      split at h
      · rename_i hc
        rw [List.map_cons,hc,ih (fun hmem => hname (List.mem_cons_of_mem _ hmem))
          (fun hmem => hother (List.mem_cons_of_mem _ hmem)) h]
      · cases h

variable {isSpace : Char → Bool} {name word : Text}

private theorem testFolded_cons (c : Char) (s : Text) : testFolded isSpace name word (c :: s) =
    (beginsFolded isSpace name word (c :: s) || testFolded isSpace name word s) := by
  rw [testFolded,List.tails_cons,List.any_cons]
  rfl

private theorem testFolded_words {w : Text} (h : '<' ∉ w) (s : Text) :
    testFolded isSpace name word (w ++ s) = testFolded isSpace name word s := by
  induction w with
  | nil => rfl
  | cons c w ih =>
    have hc : c.toLower ≠ '<' := by
      intro hlower
      rw [toLower_eq (by simp) hlower] at h
      exact h List.mem_cons_self
    have hbegins : beginsFolded isSpace name word (c :: (w ++ s)) = false := by
      rw [beginsFolded,tagText,dropFolded,if_neg hc]
      rfl
    rw [List.cons_append,testFolded_cons,hbegins,Bool.false_or,
      ih fun hw => h (List.mem_cons_of_mem _ hw)]

private theorem words_of_tag {other : Text} (h : '<' ∉ other) : '<' ∉ other ++ ['>'] := by
  intro hmem
  rcases List.mem_append.mp hmem with hmem | hmem
  · exact h hmem
  · exact absurd hmem (by decide)

private theorem testFolded_tag {other : Text} (h : '<' ∉ other) (s : Text) :
    testFolded isSpace name word (tagText other ++ s) =
      (beginsFolded isSpace name word (tagText other ++ s) || testFolded isSpace name word s) := by
  have hsplit : tagText other ++ s = '<' :: (other ++ ['>'] ++ s) := rfl
  rw [hsplit,testFolded_cons,testFolded_words (words_of_tag h)]

theorem testFolded_write {ts : List Token} (hname : '>' ∉ name)
    (h : ∀ t ∈ ts, t.name?.map (·.map Char.toLower) ≠ some name) (s : Text) :
    testFolded isSpace name word (write ts ++ s) = testFolded isSpace name word s := by
  induction ts with
  | nil => rfl
  | cons t ts ih =>
    obtain ⟨ht,hts⟩ := List.forall_mem_cons.mp h
    rw [write_cons,List.append_assoc]
    cases t with
    | words w hw => rw [Token.write,testFolded_words hw,ih hts]
    | tag other hother =>
      have hbegins : beginsFolded isSpace name word (tagText other ++ (write ts ++ s)) = false := by
        have hsplit : tagText other ++ (write ts ++ s) = '<' :: (other ++ '>' :: (write ts ++ s)) := by
          simp [tagText]
        rw [beginsFolded,hsplit,tagText,dropFolded,if_pos (by decide)]
        cases hdrop : dropFolded (name ++ ['>']) (other ++ '>' :: (write ts ++ s)) with
        | none => rfl
        | some rest =>
          exact absurd (congrArg some
            (eq_of_dropFolded hname hother.2 (Option.isSome_of_eq_some hdrop))) ht
      rw [Token.write,testFolded_tag hother.1,hbegins,Bool.false_or,ih hts]

theorem testFolded_here {other close w : Text} (hother : '<' ∉ other) (hclose : '<' ∉ close)
    (hw : '<' ∉ w) (hclosing : close.map Char.toLower ≠ name) (hname : '>' ∉ name)
    (hclose' : '>' ∉ close) (s : Text) :
    testFolded isSpace name word (tagText other ++ (w ++ (tagText close ++ s))) =
      (beginsFolded isSpace name word (tagText other ++ (w ++ (tagText close ++ s))) ||
        testFolded isSpace name word s) := by
  have hrest : testFolded isSpace name word (tagText close ++ s) = testFolded isSpace name word s := by
    have hwrite := @testFolded_write isSpace name word [Token.tag close ⟨hclose,hclose'⟩] hname (by simpa [Token.name?] using hclosing) s
    simpa [Token.write] using hwrite
  rw [testFolded_tag hother,testFolded_words hw,hrest]

end Folded

end WeirdVault.Framework.Tags
