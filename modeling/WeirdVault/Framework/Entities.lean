import Mathlib.Tactic.Common
import WeirdVault.Framework.Utf8

/-!
# Entities

A text in which the five signs of markup are written as entities. Replacing one entity after the
other reads it, where the ampersand comes last.
-/

namespace WeirdVault.Framework

/-- The text that is left is copied when so many characters were skipped. -/
def replaceFrom (pattern out : Text) : ℕ → Text → Text
  | _,[] => []
  | k+1,_ :: s => replaceFrom pattern out k s
  | 0,c :: s =>
    if pattern <+: c :: s then out ++ replaceFrom pattern out (pattern.length-1) s
    else c :: replaceFrom pattern out 0 s

/-- Every occurrence, from left to right, of a pattern that is not empty. -/
def replaceAll (pattern out s : Text) : Text := replaceFrom pattern out 0 s

section replaceAll

variable {pattern out : Text}

private theorem replaceFrom_skip (w s : Text) :
    replaceFrom pattern out w.length (w ++ s) = replaceAll pattern out s := by
  induction w with
  | nil => rfl
  | cons c w ih => exact ih

theorem replaceAll_match (h : pattern ≠ []) (s : Text) :
    replaceAll pattern out (pattern ++ s) = out ++ replaceAll pattern out s := by
  obtain ⟨c,rest,rfl⟩ := List.exists_cons_of_ne_nil h
  have hprefix : c :: rest <+: c :: (rest ++ s) := List.prefix_append (c :: rest) s
  rw [replaceAll,List.cons_append,replaceFrom,if_pos hprefix]
  exact congrArg (out ++ ·) (replaceFrom_skip rest s)

theorem replaceAll_cons {c : Char} {s : Text} (h : ¬ pattern <+: c :: s) :
    replaceAll pattern out (c :: s) = c :: replaceAll pattern out s := by
  rw [replaceAll,replaceFrom,if_neg h]
  rfl

theorem replaceAll_append {a : Char} {w : Text} (h : a ∉ w) (s : Text) :
    replaceAll (a :: pattern) out (w ++ s) = w ++ replaceAll (a :: pattern) out s := by
  induction w with
  | nil => rfl
  | cons c w ih =>
    have hc : ¬ (a :: pattern) <+: c :: (w ++ s) := by
      intro hprefix
      rw [(List.cons_prefix_cons.mp hprefix).1] at h
      exact h List.mem_cons_self
    rw [List.cons_append,replaceAll_cons hc,ih fun hw => h (List.mem_cons_of_mem _ hw)]
    rfl

end replaceAll

inductive Entity where
  | lt | gt | quot | apos | amp
deriving DecidableEq

namespace Entity

def name : Entity → Text
  | lt => "lt".toList
  | gt => "gt".toList
  | quot => "quot".toList
  | apos => "apos".toList
  | amp => "amp".toList

def char : Entity → Char
  | lt => '<'
  | gt => '>'
  | quot => Char.ofNat 0x22
  | apos => Char.ofNat 0x27
  | amp => '&'

def markup (e : Entity) : Text := '&' :: (e.name ++ [';'])

def replace (e : Entity) (s : Text) : Text := replaceAll e.markup [e.char] s

end Entity

/-- A character as it stands in markup: one that needs no entity, or an entity. -/
inductive Chunk where
  | plain (c : Char) (h : c ≠ '&' ∧ c ≠ '<')
  | entity (e : Entity)

def Chunk.char : Chunk → Char
  | .plain c _ => c
  | .entity e => e.char

def Chunk.partly (replaced : List Entity) : Chunk → Text
  | .plain c _ => [c]
  | .entity e => if e ∈ replaced then [e.char] else e.markup

structure Written where
  chunks : List Chunk

def Written.text (w : Written) : Text := w.chunks.map Chunk.char

def Written.markup (w : Written) : Text := w.chunks.flatMap (Chunk.partly [])

private theorem leads_no_other {e e' : Entity} (h : e' ≠ e) (s : Text) :
    ¬ e.markup <+: e'.markup ++ s := by
  cases e <;> cases e' <;> simp_all [Entity.markup,Entity.name]

private theorem name_plain : ∀ e : Entity, '&' ∉ e.name ++ [';'] := by
  intro e
  cases e <;> decide

theorem replace_partly {replaced : List Entity} {e : Entity} (hamp : Entity.amp ∉ replaced)
    (chunks : List Chunk) : e.replace (chunks.flatMap (Chunk.partly replaced)) =
      chunks.flatMap (Chunk.partly (e :: replaced)) := by
  induction chunks with
  | nil => rfl
  | cons chunk chunks ih =>
    rw [List.flatMap_cons,List.flatMap_cons,← ih]
    cases chunk with
    | plain c h =>
      have hc : '&' ∉ [c] := by simpa using Ne.symm h.1
      exact replaceAll_append hc _
    | entity e' =>
      by_cases hdone : e' ∈ replaced
      · have hchar : '&' ∉ [e'.char] := by
          cases e' with
          | amp => exact absurd hdone hamp
          | lt | gt | quot | apos => decide
        simp only [Chunk.partly,List.mem_cons,hdone,or_true]
        exact replaceAll_append hchar _
      · by_cases hsame : e' = e
        · subst hsame
          simp only [Chunk.partly,hdone,List.mem_cons,true_or,if_true]
          exact replaceAll_match (List.cons_ne_nil _ _) _
        · have hrest := @replaceAll_append (e.name ++ [';']) [e.char] '&' _ (name_plain e')
            (chunks.flatMap (Chunk.partly replaced))
          simp only [Chunk.partly,List.mem_cons,hsame,hdone,or_self,if_false]
          exact (replaceAll_cons (leads_no_other hsame _)).trans (congrArg ('&' :: ·) hrest)

theorem replace_markup (w : Written) : Entity.amp.replace (Entity.apos.replace (Entity.quot.replace
    (Entity.gt.replace (Entity.lt.replace w.markup)))) = w.text := by
  rw [Written.markup,replace_partly (by decide),replace_partly (by decide),
    replace_partly (by decide),replace_partly (by decide),replace_partly (by decide),Written.text]
  induction w.chunks with
  | nil => rfl
  | cons chunk chunks ih =>
    rw [List.flatMap_cons,List.map_cons,ih]
    cases chunk with
    | plain c h => rfl
    | entity e => cases e <;> rfl

theorem not_mem_markup (w : Written) : '<' ∉ w.markup := by
  intro hmem
  obtain ⟨chunk,_,hchunk⟩ := List.mem_flatMap.mp hmem
  cases chunk with
  | plain c h => exact h.2 (List.mem_singleton.mp hchunk).symm
  | entity e =>
    revert hchunk
    cases e <;> decide

end WeirdVault.Framework
