import WeirdVault.Framework.Table

/-!
# The rate limiter

`consume` with the one statement it sends, and the answer a route makes of its decision. Times and
windows are whole milliseconds. The column `count` is an `integer`, so a statement that would take
it past `maxInteger` fails.
-/

namespace WeirdVault.RateLimit

open WeirdVault.Framework

structure Rule where
  max : Nat
  windowSeconds : Nat
  deriving DecidableEq, Repr

def Rule.windowMs (rule : Rule) : Int := rule.windowSeconds*1000

structure Decision where
  allowed : Bool
  retryAfter : Int
  deriving DecidableEq, Repr

def ALLOWED : Decision := ⟨true,0⟩

structure Row where
  key : String
  count : Nat
  windowStart : Int
  deriving DecidableEq, Repr

abbrev RateLimits := Table Row.key

/-- The largest value of an `integer` column. -/
def maxInteger : Nat := 2147483647

def upsert (key : String) (now windowMs : Int) (t : RateLimits) : Option (RateLimits × Row) :=
  match t.get? key with
  | none => some (t.put ⟨key,1,now⟩,⟨key,1,now⟩)
  | some row =>
    let count := if windowMs ≤ now-row.windowStart then 1 else row.count+1
    let windowStart := if windowMs ≤ now-row.windowStart then now else row.windowStart
    if count ≤ maxInteger then some (t.put ⟨key,count,windowStart⟩,⟨key,count,windowStart⟩)
    else none

def ceilSeconds (ms : Int) : Int := (ms+999)/1000

def consume (key : String) (rule : Rule) (now : Int) (t : RateLimits) : RateLimits × Decision :=
  match upsert key now rule.windowMs t with
  | none => (t,ALLOWED)
  | some (t',row) =>
    if row.count ≤ rule.max then (t',ALLOWED)
    else
      let endsAt := row.windowStart+rule.windowMs
      (t',⟨false,max 1 (ceilSeconds (endsAt-now))⟩)

def keyFor (bucket subject : String) : String := bucket ++ ":" ++ subject

structure TooManyRequests where
  error : String
  retryAfter : Int
  status : Nat
  header : String
  deriving DecidableEq, Repr

def tooManyRequests (decision : Decision) (message : Option String) : TooManyRequests :=
  let seconds := max 1 decision.retryAfter
  let plural := if seconds = 1 then "" else "s"
  ⟨message.getD
      s!"That is more requests than this endpoint accepts. Try again in {seconds} second{plural}.",
    seconds,429,toString seconds⟩

def enforce (bucket subject : String) (rule : Rule) (message : Option String) (now : Int)
    (t : RateLimits) : RateLimits × Option TooManyRequests :=
  let (t',decision) := consume (keyFor bucket subject) rule now t
  (t',if decision.allowed then none else some (tooManyRequests decision message))

/-- What the window under way says of call number `i`, counted from zero. -/
def verdict (rule : Rule) (start : Int) (i : Nat) (now : Int) : Decision :=
  if i < rule.max ∨ maxInteger ≤ i then ALLOWED
  else ⟨false,max 1 (ceilSeconds (start+rule.windowMs-now))⟩

/-- The row of `key` after `n` calls of a window that opened at `start`. -/
def Counts (t : RateLimits) (key : String) (start : Int) (n : Nat) : Prop :=
  t.get? key = some ⟨key,min n maxInteger,start⟩

private theorem decision_of_count (rule : Rule) (start now : Int) {i : Nat} (hi : i < maxInteger) :
    (if i+1 ≤ rule.max then ALLOWED
      else ⟨false,max 1 (ceilSeconds (start+rule.windowMs-now))⟩) = verdict rule start i now := by
  by_cases hmax : i < rule.max
  · rw [if_pos (show i+1 ≤ rule.max from hmax),verdict,if_pos (Or.inl hmax)]
  · rw [if_neg (show ¬ i+1 ≤ rule.max from hmax),verdict,if_neg (by omega)]

theorem consume_opens {t : RateLimits} {key : String} {rule : Rule} {now : Int}
    (h : ∀ row, t.get? key = some row → row.windowStart+rule.windowMs ≤ now) :
    Counts (consume key rule now t).1 key now 1 ∧
      (consume key rule now t).2 = verdict rule now 0 now := by
  have hupsert : upsert key now rule.windowMs t = some (t.put ⟨key,1,now⟩,⟨key,1,now⟩) := by
    cases hrow : t.get? key with
    | none => simp only [upsert,hrow]
    | some row =>
      have hover : rule.windowMs ≤ now-row.windowStart := by
        have := h row hrow
        omega
      simp only [upsert,hrow,if_pos hover]
      rw [if_pos (show 1 ≤ maxInteger by decide)]
  have hcounts : Counts (t.put ⟨key,1,now⟩) key now 1 := Table.get?_put_self t ⟨key,1,now⟩
  have hverdict := decision_of_count rule now now (show 0 < maxInteger by decide)
  rw [consume,hupsert]
  by_cases hmax : 1 ≤ rule.max
  · rw [if_pos hmax] at hverdict
    simp only [if_pos hmax]
    exact ⟨hcounts,hverdict⟩
  · rw [if_neg hmax] at hverdict
    simp only [if_neg hmax]
    exact ⟨hcounts,hverdict⟩

theorem consume_counts {t : RateLimits} {key : String} {rule : Rule} {now start : Int} {n : Nat}
    (h : Counts t key start n) (hwithin : now < start+rule.windowMs) :
    Counts (consume key rule now t).1 key start (n+1) ∧
      (consume key rule now t).2 = verdict rule start n now := by
  have hnot : ¬ rule.windowMs ≤ now-start := by omega
  by_cases hfull : maxInteger ≤ n
  · have hn : min n maxInteger = maxInteger := by omega
    have hupsert : upsert key now rule.windowMs t = none := by
      rw [Counts,hn] at h
      simp only [upsert,h,if_neg hnot]
      rw [if_neg (by omega)]
    rw [consume,hupsert,verdict,if_pos (Or.inr hfull)]
    refine ⟨?_,rfl⟩
    rw [Counts,h,hn,show min (n+1) maxInteger = maxInteger by omega]
  · have hn : min n maxInteger = n := by omega
    have hupsert : upsert key now rule.windowMs t =
        some (t.put ⟨key,n+1,start⟩,⟨key,n+1,start⟩) := by
      rw [Counts,hn] at h
      simp only [upsert,h,if_neg hnot]
      rw [if_pos (by omega)]
    have hcounts : Counts (t.put ⟨key,n+1,start⟩) key start (n+1) := by
      rw [Counts,show min (n+1) maxInteger = n+1 by omega]
      exact Table.get?_put_self t ⟨key,n+1,start⟩
    have hverdict := decision_of_count rule start now (show n < maxInteger by omega)
    rw [consume,hupsert]
    by_cases hmax : n+1 ≤ rule.max
    · rw [if_pos hmax] at hverdict
      simp only [if_pos hmax]
      exact ⟨hcounts,hverdict⟩
    · rw [if_neg hmax] at hverdict
      simp only [if_neg hmax]
      exact ⟨hcounts,hverdict⟩

theorem verdict_allowed {rule : Rule} {start now : Int} {i : Nat} :
    (verdict rule start i now).allowed = true ↔ i < rule.max ∨ maxInteger ≤ i := by
  rw [verdict]
  split
  · next h => exact iff_of_true rfl h
  · next h => exact iff_of_false Bool.false_ne_true h

theorem le_ceilSeconds (ms : Int) : ms ≤ ceilSeconds ms * 1000 := by
  rw [ceilSeconds]
  omega

theorem verdict_retry {rule : Rule} {start now : Int} {i : Nat}
    (h : (verdict rule start i now).allowed = false) :
    1 ≤ (verdict rule start i now).retryAfter ∧
      start+rule.windowMs ≤ now+(verdict rule start i now).retryAfter*1000 := by
  have hnot : ¬ (i < rule.max ∨ maxInteger ≤ i) := by
    rw [← @verdict_allowed rule start now i,h]
    exact Bool.false_ne_true
  have hceil := le_ceilSeconds (start+rule.windowMs-now)
  rw [verdict,if_neg hnot]
  exact ⟨Int.le_max_left _ _,by simp only; omega⟩

theorem retryAfter_tooManyRequests {rule : Rule} {start now : Int} {i : Nat}
    (h : (verdict rule start i now).allowed = false) (message : Option String) :
    (tooManyRequests (verdict rule start i now) message).retryAfter =
      (verdict rule start i now).retryAfter :=
  Int.max_eq_right (verdict_retry h).1

theorem consume_congr {t u : RateLimits} {key : String} (h : t.get? key = u.get? key) (rule : Rule)
    (now : Int) : (consume key rule now t).2 = (consume key rule now u).2 ∧
      (consume key rule now t).1.get? key = (consume key rule now u).1.get? key := by
  have hput : ∀ r : Row, r.key = key → (t.put r).get? key = (u.put r).get? key := by
    rintro r rfl
    rw [Table.get?_put_self,Table.get?_put_self]
  simp only [consume,upsert,h]
  cases u.get? key with
  | none =>
    simp only
    split
    · exact ⟨rfl,hput _ rfl⟩
    · exact ⟨rfl,hput _ rfl⟩
  | some row =>
    simp only
    generalize (if rule.windowMs ≤ now-row.windowStart then 1 else row.count+1) = count
    by_cases hfits : count ≤ maxInteger
    · simp only [if_pos hfits]
      split
      · exact ⟨rfl,hput _ rfl⟩
      · exact ⟨rfl,hput _ rfl⟩
    · simp only [if_neg hfits]
      exact ⟨trivial,h⟩

theorem upsert_other {t t' : RateLimits} {key other : String} {now windowMs : Int} {row : Row}
    (hne : other ≠ key) (h : upsert other now windowMs t = some (t',row)) :
    t'.get? key = t.get? key := by
  have hput : ∃ r : Row, r.key = other ∧ t' = t.put r := by
    rw [upsert] at h
    split at h
    · cases h
      exact ⟨_,rfl,rfl⟩
    · obtain ⟨-,h⟩ := Option.ite_none_right_eq_some.mp h
      cases h
      exact ⟨_,rfl,rfl⟩
  obtain ⟨r,rfl,rfl⟩ := hput
  exact Table.get?_put_of_ne t hne

theorem consume_other {t : RateLimits} {key other : String} {rule : Rule} {now : Int}
    (hne : other ≠ key) : (consume other rule now t).1.get? key = t.get? key := by
  rw [consume]
  split
  · rfl
  · next t' row hupsert =>
    split
    · exact upsert_other hne hupsert
    · exact upsert_other hne hupsert

end WeirdVault.RateLimit
