import WeirdVault.Framework.Utf8

/-!
# Close reasons

A reason that is too long is cut and marked. The cut leaves one byte for a mark of three.
-/

namespace WeirdVault.Relay

open WeirdVault.Framework

def maxCloseReason : Nat := 123

def floorBoundary (s : Text) : Nat → Nat
  | 0 => 0
  | n+1 => if isCharBoundary s (n+1) then n+1 else floorBoundary s n

def truncate (s : Text) (n : Nat) : Option Text := (splitBytes s n).map Prod.fst

def truncateUtf8 (s : Text) (max : Nat) : Option Text :=
  if byteLen s ≤ max then some s
  else (truncate s (floorBoundary s (max-1))).map (fun t => t ++ ['…'])

inductive ErrorKind
  | connectionRefused
  | timedOut
  | hostUnreachable
  | networkUnreachable
  | other
  deriving DecidableEq, Repr

/-- A socket address as it is displayed, and what `is_private` says of it. -/
structure Target where
  text : Text
  isPrivate : Bool
  deriving DecidableEq, Repr

def dialFailureMessage (kind : ErrorKind) (target : Target) (err : Text) : Text :=
  match kind with
  | .connectionRefused => target.text ++ " refused the connection — is sshd listening there?".toList
  | .timedOut => target.text ++ " did not respond — firewalled, or wrong address?".toList
  | .hostUnreachable | .networkUnreachable =>
    if target.isPrivate then
      "no route to ".toList ++ target.text ++
        (" — relay not on that network, or missing macOS Local Network " ++ "permission").toList
    else "no route to ".toList ++ target.text ++ " — the relay cannot reach that address".toList
  | .other => "could not connect to ".toList ++ target.text ++ ": ".toList ++ err

def dialFailureReason (kind : ErrorKind) (target : Target) (err : Text) : Option Text :=
  truncateUtf8 (dialFailureMessage kind target err) maxCloseReason

/-- The close frames with a reason: of a failed dial, of a refused agent, of `close_with_reason`,
and of an agent whose own reason is passed on. -/
inductive Closing
  | dialFailed (kind : ErrorKind) (target : Target) (err : Text)
  | agentRefused (refusal : Text)
  | closeWithReason (reason : Text)
  | forwarded (reason : Text)

namespace Closing

def message : Closing → Text
  | dialFailed kind target err => dialFailureMessage kind target err
  | agentRefused m | closeWithReason m | forwarded m => m

def reason : Closing → Option Text
  | dialFailed kind target err => dialFailureReason kind target err
  | agentRefused m => truncateUtf8 m 123
  | closeWithReason m | forwarded m => truncateUtf8 m maxCloseReason

theorem reason_eq (c : Closing) : c.reason = truncateUtf8 c.message maxCloseReason := by
  cases c <;> rfl

end Closing

/-- At most `max` bytes, and the text itself or a prefix of it with the mark. -/
structure Legal (s : Text) (max : Nat) (r : Option Text) : Prop where
  fits : ∃ t, r = some t ∧ byteLen t ≤ max
  same : byteLen s ≤ max → r = some s
  cut : max < byteLen s → ∃ p, p <+: s ∧ r = some (p ++ ['…'])

theorem floorBoundary_le (s : Text) (n : Nat) : floorBoundary s n ≤ n := by
  induction n with
  | zero => exact Nat.le_refl 0
  | succ n ih =>
    rw [floorBoundary]
    split
    · exact Nat.le_refl (n+1)
    · omega

theorem isCharBoundary_floorBoundary (s : Text) (n : Nat) :
    isCharBoundary s (floorBoundary s n) := by
  induction n with
  | zero => exact isCharBoundary_zero s
  | succ n ih =>
    rw [floorBoundary]
    split
    · next h => exact h
    · exact ih

theorem le_floorBoundary {s : Text} {m n : Nat} (hm : isCharBoundary s m) (h : m ≤ n) :
    m ≤ floorBoundary s n := by
  induction n with
  | zero => omega
  | succ n ih =>
    rw [floorBoundary]
    split
    · exact h
    · next hnot =>
      have hne : m ≠ n+1 := by
        rintro rfl
        exact hnot hm
      exact ih (by omega)

theorem truncateUtf8_long {s : Text} {max : Nat} (h : max < byteLen s) :
    ∃ p, p <+: s ∧ byteLen p = floorBoundary s (max-1) ∧ truncateUtf8 s max = some (p ++ ['…']) := by
  obtain ⟨p,q,hs,hlen⟩ := isCharBoundary_iff.mp (isCharBoundary_floorBoundary s (max-1))
  refine ⟨p,⟨q,hs.symm⟩,hlen,?_⟩
  rw [truncateUtf8,if_neg (by omega),truncate,splitBytes_eq_some.mpr ⟨hs,hlen⟩]
  rfl

theorem byteLen_marked (p : Text) : byteLen (p ++ ['…']) = byteLen p+3 := by
  rw [byteLen_append]
  rfl

/-- The cut leaves room for the mark. -/
def leavesRoom (s : Text) (max : Nat) : Prop :=
  byteLen s ≤ max ∨ isCharBoundary s (max-1) = false ∧ isCharBoundary s (max-2) = false

theorem fits_iff (s : Text) (max : Nat) :
    (∃ t, truncateUtf8 s max = some t ∧ byteLen t ≤ max) ↔ leavesRoom s max := by
  by_cases hfits : byteLen s ≤ max
  · exact iff_of_true ⟨s,if_pos hfits,hfits⟩ (Or.inl hfits)
  · obtain ⟨p,-,hlen,hcut⟩ := truncateUtf8_long (Nat.lt_of_not_le hfits)
    constructor
    · rintro ⟨t,ht,hle⟩
      rw [hcut] at ht
      obtain rfl := Option.some.inj ht
      rw [byteLen_marked,hlen] at hle
      refine Or.inr ⟨?_,?_⟩
      · by_contra hb
        have := le_floorBoundary ((Bool.not_eq_false _).mp hb) (Nat.le_refl (max-1))
        omega
      · by_contra hb
        have := le_floorBoundary ((Bool.not_eq_false _).mp hb) (show max-2 ≤ max-1 by omega)
        omega
    · rintro (hle | ⟨hone,htwo⟩)
      · exact absurd hle hfits
      · refine ⟨_,hcut,?_⟩
        have hle := floorBoundary_le s (max-1)
        have hboundary := isCharBoundary_floorBoundary s (max-1)
        have hne1 : floorBoundary s (max-1) ≠ max-1 := by
          intro he
          rw [he,hone] at hboundary
          cases hboundary
        have hne2 : floorBoundary s (max-1) ≠ max-2 := by
          intro he
          rw [he,htwo] at hboundary
          cases hboundary
        rw [byteLen_marked,hlen]
        omega

/-- A reason is legal exactly when it need not be cut, or when the character that is cut off begins
three bytes or more before the end. -/
theorem close_reasons_legal_iff (s : Text) (max : Nat) (c : Closing) :
    (Legal s max (truncateUtf8 s max) ↔ leavesRoom s max) ∧
      ((∃ r, c.reason = some r ∧ byteLen r ≤ maxCloseReason) ↔
        leavesRoom c.message maxCloseReason) := by
  refine ⟨?_,?_⟩
  · rw [← fits_iff]
    constructor
    · exact fun h => h.fits
    · intro h
      refine ⟨h,fun hle => if_pos hle,?_⟩
      intro hlong
      obtain ⟨p,hp,-,hcut⟩ := truncateUtf8_long hlong
      exact ⟨p,hp,hcut⟩
  · rw [c.reason_eq,fits_iff]

def unreachable : Closing :=
  .dialFailed .hostUnreachable ⟨"[fd12:3456:789a:bcde:f012:3456:789a:bcde]:22".toList,true⟩ []

theorem unreachable_reason_too_long :
    ¬ (∀ s max, 3 ≤ max → Legal s max (truncateUtf8 s max)) ∧
      ¬ (∃ r, unreachable.reason = some r ∧ byteLen r ≤ maxCloseReason) := by
  have hlen : unreachable.reason.map byteLen = some 125 := by decide +kernel
  have hlong : ¬ (∃ r, unreachable.reason = some r ∧ byteLen r ≤ maxCloseReason) := by
    rintro ⟨r,hr,hle⟩
    rw [hr] at hlen
    have := Option.some.inj hlen
    rw [maxCloseReason] at hle
    omega
  refine ⟨?_,hlong⟩
  intro h
  apply hlong
  rw [unreachable.reason_eq]
  exact (h unreachable.message maxCloseReason (by decide)).fits

end WeirdVault.Relay
