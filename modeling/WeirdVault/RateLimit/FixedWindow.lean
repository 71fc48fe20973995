import WeirdVault.Framework.Windows
import WeirdVault.RateLimit.Limiter

/-!
# A fixed window

The limiter counts by windows as long as the column holds the count. A statement that fails lets
its call through, so a window of more calls than an `integer` counts ends open.
-/

namespace WeirdVault.RateLimit

open WeirdVault.Framework

structure Call where
  key : String
  now : Int
  deriving DecidableEq, Repr

structure Served where
  call : Call
  decision : Decision
  deriving DecidableEq, Repr

def Served.now (x : Served) : Int := x.call.now

variable (rules : String → Rule)

/-- The calls one after the other, as the row lock serialises them. -/
def serve (t : RateLimits) : List Call → List Served
  | [] => []
  | c :: cs =>
    let (t',decision) := consume c.key (rules c.key) c.now t
    ⟨c,decision⟩ :: serve t' cs

def history (key : String) (served : List Served) : List Served :=
  served.filter (fun x => x.call.key = key)

/-- The first `max` calls pass, and whoever waits out a refusal is past the window. -/
structure Counted (rule : Rule) (win : List Served) : Prop where
  allowed : ∀ i (h : i < win.length), win[i].decision.allowed = true ↔ i < rule.max
  retry : ∀ first ∈ win.head?, ∀ x ∈ win, x.decision.allowed = false →
    1 ≤ x.decision.retryAfter ∧
      first.now+rule.windowMs ≤ x.now+x.decision.retryAfter*1000

/-- The law of the limiter for the calls of one key. -/
structure FixedWindow (key : String) (calls : List Call) : Prop where
  windows : ∃ ws, IsCut Served.now (rules key).windowMs
    (history key (serve rules (Table.empty Row.key) calls)) ws ∧ ∀ win ∈ ws, Counted (rules key) win
  alone : history key (serve rules (Table.empty Row.key) calls) =
    serve rules (Table.empty Row.key) (calls.filter (fun c => c.key = key))

variable {rules}

theorem calls_serve (t : RateLimits) (calls : List Call) :
    (serve rules t calls).map Served.call = calls := by
  induction calls generalizing t with
  | nil => rfl
  | cons c cs ih => rw [serve,List.map_cons,ih]

theorem serve_alone {t u : RateLimits} {key : String} (h : t.get? key = u.get? key)
    (calls : List Call) : history key (serve rules t calls) =
      serve rules u (calls.filter (fun c => c.key = key)) := by
  induction calls generalizing t u with
  | nil => rfl
  | cons c cs ih =>
    simp only [serve,history,List.filter_cons]
    by_cases hc : c.key = key
    · subst hc
      obtain ⟨hdecision,hrow⟩ := consume_congr h (rules c.key) c.now
      simp only [decide_true,if_true,serve,hdecision]
      exact congrArg _ (ih hrow)
    · have hrow : (consume c.key (rules c.key) c.now t).1.get? key = u.get? key :=
        (consume_other hc).trans h
      simp only [hc,decide_false,Bool.false_eq_true,if_false]
      exact ih hrow

def Judged (rule : Rule) (win : List Served) : Prop :=
  ∀ first ∈ win.head?, ∀ i (h : i < win.length),
    win[i].decision = verdict rule first.now i win[i].now

theorem counted_iff {rule : Rule} {win : List Served} (h : Judged rule win) :
    Counted rule win ↔ win.length ≤ maxInteger ∨ win.length ≤ rule.max := by
  cases win with
  | nil => exact iff_of_true ⟨by simp,by simp⟩ (Or.inl (Nat.zero_le _))
  | cons first rest =>
    have hjudged := h first rfl
    constructor
    · intro hcounted
      -- the last call of a longer window passes for want of a count
      by_contra hlong
      have hlast : rest.length < (first :: rest).length := Nat.lt_succ_self _
      have hpasses : maxInteger ≤ rest.length ∧ rule.max ≤ rest.length := by
        rw [List.length_cons] at hlong
        omega
      have hallowed := (hcounted.allowed rest.length hlast).mp (by
        rw [hjudged rest.length hlast]
        exact verdict_allowed.mpr (Or.inr hpasses.1))
      omega
    · intro hlen
      refine ⟨?_,?_⟩
      · intro i hi
        rw [hjudged i hi,verdict_allowed]
        omega
      · intro f hf x hx hrefused
        obtain rfl : first = f := Option.some.inj hf
        obtain ⟨i,hi,rfl⟩ := List.getElem_of_mem hx
        rw [hjudged i hi] at hrefused ⊢
        exact verdict_retry hrefused

theorem judged_singleton {rule : Rule} {c : Call} {d : Decision}
    (h : d = verdict rule c.now 0 c.now) : Judged rule [⟨c,d⟩] := by
  intro first hfirst i hi
  obtain rfl : (⟨c,d⟩ : Served) = first := Option.some.inj hfirst
  obtain rfl : i = 0 := by simpa using hi
  exact h

theorem Judged.snoc {rule : Rule} {first : Served} {rest : List Served}
    (h : Judged rule (first :: rest)) {c : Call} {d : Decision}
    (hd : d = verdict rule first.now (rest.length+1) c.now) :
    Judged rule (first :: (rest ++ [⟨c,d⟩])) := by
  intro f hf i hi
  obtain rfl : first = f := Option.some.inj hf
  have hlen : (first :: rest).length = rest.length+1 := rfl
  simp only [← List.cons_append] at hi ⊢
  by_cases hold : i < (first :: rest).length
  · rw [List.getElem_append_left hold]
    exact h first rfl i hold
  · have hi' : i = (first :: rest).length := by
      rw [List.length_append,List.length_singleton] at hi
      omega
    subst hi'
    rw [List.getElem_append_right (Nat.le_refl _)]
    simp only [Nat.sub_self]
    exact hd

theorem judged_from {key : String} {t : RateLimits} {first : Served} {rest : List Served}
    (hcounts : Counts t key first.now (rest.length+1)) (hjudged : Judged (rules key) (first :: rest))
    {calls : List Call} (hkey : ∀ c ∈ calls, c.key = key) :
    ∀ win ∈ windowsFrom Served.now (rules key).windowMs first.now (first :: rest)
      (serve rules t calls), Judged (rules key) win := by
  induction calls generalizing t first rest with
  | nil =>
    intro win hwin
    rw [List.mem_singleton.mp hwin]
    exact hjudged
  | cons c cs ih =>
    obtain rfl : c.key = key := hkey c List.mem_cons_self
    have hcs : ∀ d ∈ cs, d.key = c.key := fun d hd => hkey d (List.mem_cons_of_mem c hd)
    simp only [serve,windowsFrom]
    by_cases hover : first.now+(rules c.key).windowMs ≤ c.now
    · rw [if_pos (show first.now+(rules c.key).windowMs ≤ Served.now ⟨c,_⟩ from hover)]
      have hopens : ∀ row, t.get? c.key = some row →
          row.windowStart+(rules c.key).windowMs ≤ c.now := by
        intro row hrow
        rw [hcounts] at hrow
        cases hrow
        exact hover
      obtain ⟨hnext,hverdict⟩ := consume_opens hopens
      intro win hwin
      rcases List.mem_cons.mp hwin with rfl | hwin
      · exact hjudged
      · exact ih hnext (judged_singleton hverdict) hcs win hwin
    · rw [if_neg (show ¬ first.now+(rules c.key).windowMs ≤ Served.now ⟨c,_⟩ from hover)]
      obtain ⟨hnext,hverdict⟩ := consume_counts hcounts (Int.not_le.mp hover)
      rw [List.cons_append]
      apply ih _ (hjudged.snoc hverdict) hcs
      rwa [List.length_append,List.length_singleton]

theorem judged_windows {key : String} {calls : List Call} (hkey : ∀ c ∈ calls, c.key = key) :
    ∀ win ∈ windows Served.now (rules key).windowMs (serve rules (Table.empty Row.key) calls),
      Judged (rules key) win := by
  cases calls with
  | nil =>
    intro win hwin
    cases hwin
  | cons c cs =>
    obtain rfl : c.key = key := hkey c List.mem_cons_self
    have hopens : ∀ row, (Table.empty Row.key).get? c.key = some row →
        row.windowStart+(rules c.key).windowMs ≤ c.now := by
      intro row hrow
      cases hrow
    obtain ⟨hnext,hverdict⟩ := consume_opens hopens
    exact judged_from hnext (judged_singleton hverdict)
      (fun d hd => hkey d (List.mem_cons_of_mem c hd))

/-- The windows of a key, by the clock readings of its calls alone. -/
def callWindows (rules : String → Rule) (key : String) (calls : List Call) : List (List Call) :=
  windows Call.now (rules key).windowMs (calls.filter (fun c => c.key = key))

private theorem judged_history (rules : String → Rule) (key : String) (calls : List Call) :
    ∀ win ∈ windows Served.now (rules key).windowMs
      (history key (serve rules (Table.empty Row.key) calls)), Judged (rules key) win := by
  rw [serve_alone rfl]
  apply judged_windows
  intro c hc
  simpa using (List.mem_filter.mp hc).2

private theorem callWindows_eq (rules : String → Rule) (key : String) (calls : List Call) :
    callWindows rules key calls = (windows Served.now (rules key).windowMs
      (history key (serve rules (Table.empty Row.key) calls))).map (List.map Served.call) := by
  rw [serve_alone rfl,callWindows]
  conv_lhs => rw [← @calls_serve rules (Table.empty Row.key) (calls.filter _),windows_map]
  rfl

theorem FixedWindow.fits {key : String} {calls : List Call} (h : FixedWindow rules key calls) :
    ∀ win ∈ callWindows rules key calls,
      win.length ≤ maxInteger ∨ win.length ≤ (rules key).max := by
  obtain ⟨ws,hcut,hcounted⟩ := h.windows
  have hjudged := judged_history rules key calls
  rw [callWindows_eq,← hcut.eq_windows,List.forall_mem_map]
  rw [← hcut.eq_windows] at hjudged
  intro win hwin
  rw [List.length_map]
  exact (counted_iff (hjudged win hwin)).mp (hcounted win hwin)

/-- The limiter keeps its law exactly as long as no window that overflows the limit overflows the
column too. -/
theorem fixedWindow_iff (rules : String → Rule) (key : String) (calls : List Call) :
    FixedWindow rules key calls ↔ ∀ win ∈ callWindows rules key calls,
      win.length ≤ maxInteger ∨ win.length ≤ (rules key).max := by
  constructor
  · exact FixedWindow.fits
  · intro h
    refine ⟨⟨_,isCut_windows _,?_⟩,serve_alone rfl calls⟩
    rw [callWindows_eq,List.forall_mem_map] at h
    intro win hwin
    have hlen := h win hwin
    rw [List.length_map] at hlen
    exact (counted_iff (judged_history rules key calls win hwin)).mpr hlen

theorem callWindows_replicate {rule : Rule} (hrule : 0 < rule.windowSeconds) (c : Call) (n : Nat) :
    callWindows (fun _ => rule) c.key (List.replicate (n+1) c) = [List.replicate (n+1) c] := by
  have hall : (List.replicate (n+1) c).filter (fun d => d.key = c.key) =
      List.replicate (n+1) c := by
    apply List.filter_eq_self.mpr
    intro d hd
    rw [List.eq_of_mem_replicate hd]
    exact decide_eq_true rfl
  have hwithin : ∀ d ∈ List.replicate n c, d.now < c.now+rule.windowMs := by
    intro d hd
    rw [List.eq_of_mem_replicate hd,Rule.windowMs]
    omega
  rw [callWindows,hall,List.replicate_succ,windows]
  rw [← List.append_nil (List.replicate n c),windowsFrom_within hwithin]
  simp [windowsFrom]

/-- One call more than the column counts, in one window of the limit on redeemed codes. -/
theorem overflowing_window_open :
    ¬ FixedWindow (fun _ => ⟨20,600⟩) "recovery-redeem:unresolved"
      (List.replicate (maxInteger+1) ⟨"recovery-redeem:unresolved",0⟩) := by
  intro h
  have hfits := h.fits
  rw [callWindows_replicate (show 0 < (⟨20,600⟩ : Rule).windowSeconds by decide)
    ⟨"recovery-redeem:unresolved",0⟩ maxInteger] at hfits
  have hlen := hfits _ List.mem_cons_self
  rw [List.length_replicate] at hlen
  rcases hlen with hlen | hlen
  · exact absurd hlen (Nat.not_succ_le_self maxInteger)
  · exact absurd hlen (by decide)

end WeirdVault.RateLimit
