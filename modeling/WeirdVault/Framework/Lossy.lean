import WeirdVault.Framework.TextEncoder
import WeirdVault.Framework.Utf8

/-!
# UTF-8 read with replacement characters

A decoder that takes one byte after the other. What cannot go on becomes one U+FFFD, and the byte
that broke it off is read again from the start.
-/

namespace WeirdVault.Framework

open TextEncoder (bytes continuation)

def replacement : Char := '\uFFFD'

/-- A character of which some bytes have come: the number that lack after the next one, the bounds
of the next one, and the bits so far. -/
structure Begun where
  lacks : Nat
  low : Nat
  high : Nat
  code : Nat
  continues : 0x80 ≤ low

def enter (b : Nat) : Text × Option Begun :=
  if b < 0x80 then ([Char.ofNat b],none)
  else if 0xC2 ≤ b ∧ b ≤ 0xDF then ([],some ⟨0,0x80,0xBF,b-0xC0,by omega⟩)
  else if b = 0xE0 then ([],some ⟨1,0xA0,0xBF,b-0xE0,by omega⟩)
  else if b = 0xED then ([],some ⟨1,0x80,0x9F,b-0xE0,by omega⟩)
  else if 0xE1 ≤ b ∧ b ≤ 0xEF then ([],some ⟨1,0x80,0xBF,b-0xE0,by omega⟩)
  else if b = 0xF0 then ([],some ⟨2,0x90,0xBF,b-0xF0,by omega⟩)
  else if b = 0xF4 then ([],some ⟨2,0x80,0x8F,b-0xF0,by omega⟩)
  else if 0xF1 ≤ b ∧ b ≤ 0xF3 then ([],some ⟨2,0x80,0xBF,b-0xF0,by omega⟩)
  else ([replacement],none)

def Begun.next (q : Begun) (b : Nat) : Text × Option Begun :=
  match q.lacks with
  | 0 => ([Char.ofNat (q.code*0x40+(b-0x80))],none)
  | n+1 => ([],some ⟨n,0x80,0xBF,q.code*0x40+(b-0x80),by omega⟩)

def decodeStep (q : Option Begun) (b : Nat) : Text × Option Begun :=
  match q with
  | none => enter b
  | some q => if q.low ≤ b ∧ b ≤ q.high then q.next b else (replacement :: (enter b).1,(enter b).2)

/-- The characters that are complete, and what has begun after them. -/
def feed : Option Begun → List UInt8 → Text × Option Begun
  | q, [] => ([],q)
  | q, b :: bs =>
    let (s,q') := decodeStep q b.toNat
    let (t,q'') := feed q' bs
    (s ++ t,q'')

def broken (q : Option Begun) : Text := if q.isSome then [replacement] else []

/-- `String::from_utf8_lossy` -/
def fromUtf8Lossy (bs : List UInt8) : Text := (feed none bs).1 ++ broken (feed none bs).2

def encodeText (s : Text) : List UInt8 := s.flatMap fun c => bytes c.toNat

theorem feed_append (q : Option Begun) (as bs : List UInt8) :
    feed q (as ++ bs) = ((feed q as).1 ++ (feed (feed q as).2 bs).1,(feed (feed q as).2 bs).2) := by
  induction as generalizing q with
  | nil => rfl
  | cons a as ih => simp [feed,ih]

private theorem decodeStep_ascii (q : Option Begun) {b : Nat} (hb : b < 0x80) :
    decodeStep q b = (broken q ++ [Char.ofNat b],none) := by
  have henter : enter b = ([Char.ofNat b],none) := by rw [enter,if_pos hb]
  cases q with
  | none => exact henter
  | some q =>
    have hlow := q.continues
    rw [decodeStep,if_neg (by omega),henter]
    rfl

theorem fromUtf8Lossy_append_ascii (as bs : List UInt8) {b : UInt8} (hb : b.toNat < 0x80) :
    fromUtf8Lossy (as ++ b :: bs) = fromUtf8Lossy as ++ fromUtf8Lossy (b :: bs) := by
  have hstep : ∀ q, feed q (b :: bs) =
      (broken q ++ Char.ofNat b.toNat :: (feed none bs).1,(feed none bs).2) := by
    intro q
    simp [feed,decodeStep_ascii q hb]
  simp only [fromUtf8Lossy,feed_append,hstep]
  simp [broken]

private theorem toNat_toUInt8 {n : Nat} (h : n < 256) : n.toUInt8.toNat = n := by
  simpa using Nat.mod_eq_of_lt h

private theorem toNat_continuation (n : Nat) : (continuation n).toNat = 0x80+n%0x40 :=
  toNat_toUInt8 (by omega)

private theorem next_mid {q : Begun} {n m : Nat} (hlacks : q.lacks = n+1) (hlow : q.low ≤ 0x80+m)
    (hhigh : 0x80+m ≤ q.high) : decodeStep (some q) (0x80+m) =
      ([],some ⟨n,0x80,0xBF,q.code*0x40+m,by omega⟩) := by
  rw [decodeStep,if_pos ⟨hlow,hhigh⟩,Begun.next,hlacks]
  simp

private theorem next_last {q : Begun} {m : Nat} (hlacks : q.lacks = 0) (hlow : q.low ≤ 0x80+m)
    (hhigh : 0x80+m ≤ q.high) :
    decodeStep (some q) (0x80+m) = ([Char.ofNat (q.code*0x40+m)],none) := by
  rw [decodeStep,if_pos ⟨hlow,hhigh⟩,Begun.next,hlacks]
  simp

private theorem enter_two {k : Nat} (hlow : 2 ≤ k) (hhigh : k < 0x20) :
    enter (0xC0+k) = ([],some ⟨0,0x80,0xBF,k,by omega⟩) := by
  rw [enter,if_neg (by omega),if_pos (by omega)]
  simp

private theorem enter_three {k m : Nat} (hk : k < 0x10) (hm : m < 0x40)
    (hoverlong : k = 0 → 0x20 ≤ m) (hsurrogate : k = 0xD → m < 0x20) :
    ∃ q : Begun, enter (0xE0+k) = ([],some q) ∧ q.lacks = 1 ∧ q.code = k ∧ q.low ≤ 0x80+m ∧
      0x80+m ≤ q.high := by
  rw [enter,if_neg (by omega),if_neg (by omega)]
  by_cases hzero : k = 0
  · rw [if_pos (by omega)]
    exact ⟨_,rfl,rfl,by dsimp only; omega,by dsimp only; omega,by dsimp only; omega⟩
  · rw [if_neg (by omega)]
    by_cases hd : k = 0xD
    · rw [if_pos (by omega)]
      exact ⟨_,rfl,rfl,by dsimp only; omega,by dsimp only; omega,by dsimp only; omega⟩
    · rw [if_neg (by omega),if_pos (by omega)]
      exact ⟨_,rfl,rfl,by dsimp only; omega,by dsimp only; omega,by dsimp only; omega⟩

private theorem enter_four {k m : Nat} (hk : k < 5) (hm : m < 0x40)
    (hoverlong : k = 0 → 0x10 ≤ m) (hlast : k = 4 → m < 0x10) :
    ∃ q : Begun, enter (0xF0+k) = ([],some q) ∧ q.lacks = 2 ∧ q.code = k ∧ q.low ≤ 0x80+m ∧
      0x80+m ≤ q.high := by
  rw [enter,if_neg (by omega),if_neg (by omega),if_neg (by omega),if_neg (by omega),
    if_neg (by omega)]
  by_cases hzero : k = 0
  · rw [if_pos (by omega)]
    exact ⟨_,rfl,rfl,by dsimp only; omega,by dsimp only; omega,by dsimp only; omega⟩
  · rw [if_neg (by omega)]
    by_cases hfour : k = 4
    · rw [if_pos (by omega)]
      exact ⟨_,rfl,rfl,by dsimp only; omega,by dsimp only; omega,by dsimp only; omega⟩
    · rw [if_neg (by omega),if_pos (by omega)]
      exact ⟨_,rfl,rfl,by dsimp only; omega,by dsimp only; omega,by dsimp only; omega⟩

private theorem feed_goes {q q' : Option Begun} {b : UInt8} (h : decodeStep q b.toNat = ([],q'))
    (bs : List UInt8) : feed q (b :: bs) = feed q' bs := by
  simp [feed,h]

private theorem feed_ends {q : Option Begun} {b : UInt8} {c : Char}
    (h : decodeStep q b.toNat = ([c],none)) : feed q [b] = ([c],none) := by
  simp [feed,h]

private theorem toNat_char (c : Char) : c.toNat < 0xD800 ∨ 0xDFFF < c.toNat ∧ c.toNat < 0x110000 :=
  c.valid

private theorem feed_bytes (c : Char) : feed none (bytes c.toNat) = ([c],none) ∧
    ∀ k, 0 < k → k < (bytes c.toNat).length → ∃ q, feed none ((bytes c.toNat).take k) = ([],some q) := by
  have hvalid := toNat_char c
  have hc : Char.ofNat c.toNat = c := Char.ofNat_toNat c
  generalize c.toNat = n at hvalid hc
  unfold bytes
  split
  · have hone : decodeStep none n.toUInt8.toNat = ([c],none) := by
      rw [toNat_toUInt8 (by omega),decodeStep_ascii none (by omega),hc]
      rfl
    refine ⟨feed_ends hone,?_⟩
    intro k hpos hlt
    simp only [List.length_singleton] at hlt
    omega
  · split
    · let q : Begun := ⟨0,0x80,0xBF,n/0x40,by omega⟩
      have hlead : decodeStep none (0xC0+n/0x40).toUInt8.toNat = ([],some q) := by
        rw [toNat_toUInt8 (by omega)]
        exact enter_two (by omega) (by omega)
      have hlast : decodeStep (some q) (continuation n).toNat = ([c],none) := by
        rw [toNat_continuation,next_last rfl (by dsimp only [q]; omega) (by dsimp only [q]; omega),
          show q.code*0x40+n%0x40 = n by dsimp only [q]; omega,hc]
      refine ⟨(feed_goes hlead _).trans (feed_ends hlast),?_⟩
      intro k hpos hlt
      simp only [List.length_cons,List.length_nil] at hlt
      obtain rfl : k = 1 := by omega
      exact ⟨q,feed_goes hlead _⟩
    · split
      · obtain ⟨q,henter,hlacks,hcode,hlow,hhigh⟩ :=
          enter_three (k := n/0x1000) (m := n/0x40%0x40) (by omega) (by omega) (by omega) (by omega)
        let r : Begun := ⟨0,0x80,0xBF,q.code*0x40+n/0x40%0x40,by omega⟩
        have hlead : decodeStep none (0xE0+n/0x1000).toUInt8.toNat = ([],some q) := by
          rw [toNat_toUInt8 (by omega)]
          exact henter
        have hmid : decodeStep (some q) (continuation (n/0x40)).toNat = ([],some r) := by
          rw [toNat_continuation]
          exact next_mid hlacks hlow hhigh
        have hlast : decodeStep (some r) (continuation n).toNat = ([c],none) := by
          rw [toNat_continuation,next_last rfl (by dsimp only [r]; omega) (by dsimp only [r]; omega),
            show r.code*0x40+n%0x40 = n by dsimp only [r]; rw [hcode]; omega,hc]
        refine ⟨(feed_goes hlead _).trans ((feed_goes hmid _).trans (feed_ends hlast)),?_⟩
        intro k hpos hlt
        simp only [List.length_cons,List.length_nil] at hlt
        obtain rfl | rfl : k = 1 ∨ k = 2 := by omega
        · exact ⟨q,feed_goes hlead _⟩
        · exact ⟨r,(feed_goes hlead _).trans (feed_goes hmid _)⟩
      · obtain ⟨q,henter,hlacks,hcode,hlow,hhigh⟩ :=
          enter_four (k := n/0x40000) (m := n/0x1000%0x40) (by omega) (by omega) (by omega)
            (by omega)
        let r : Begun := ⟨1,0x80,0xBF,q.code*0x40+n/0x1000%0x40,by omega⟩
        let t : Begun := ⟨0,0x80,0xBF,r.code*0x40+n/0x40%0x40,by omega⟩
        have hlead : decodeStep none (0xF0+n/0x40000).toUInt8.toNat = ([],some q) := by
          rw [toNat_toUInt8 (by omega)]
          exact henter
        have hmid : decodeStep (some q) (continuation (n/0x1000)).toNat = ([],some r) := by
          rw [toNat_continuation]
          exact next_mid hlacks hlow hhigh
        have hmid' : decodeStep (some r) (continuation (n/0x40)).toNat = ([],some t) := by
          rw [toNat_continuation]
          exact next_mid rfl (by dsimp only [r]; omega) (by dsimp only [r]; omega)
        have hlast : decodeStep (some t) (continuation n).toNat = ([c],none) := by
          rw [toNat_continuation,next_last rfl (by dsimp only [t]; omega) (by dsimp only [t]; omega),
            show t.code*0x40+n%0x40 = n by dsimp only [t,r]; rw [hcode]; omega,hc]
        refine ⟨(feed_goes hlead _).trans ((feed_goes hmid _).trans
          ((feed_goes hmid' _).trans (feed_ends hlast))),?_⟩
        intro k hpos hlt
        simp only [List.length_cons,List.length_nil] at hlt
        obtain rfl | rfl | rfl : k = 1 ∨ k = 2 ∨ k = 3 := by omega
        · exact ⟨q,feed_goes hlead _⟩
        · exact ⟨r,(feed_goes hlead _).trans (feed_goes hmid _)⟩
        · exact ⟨t,(feed_goes hlead _).trans ((feed_goes hmid _).trans (feed_goes hmid' _))⟩

theorem length_bytes (c : Char) : (bytes c.toNat).length = c.utf8Size := by
  have hle : ∀ n : UInt32, c.val ≤ n ↔ c.toNat ≤ n.toNat := fun _ => UInt32.le_iff_toNat_le
  have hlt : ∀ n : UInt32, n < c.val ↔ n.toNat < c.toNat := fun _ => UInt32.lt_iff_toNat_lt
  unfold bytes
  split
  · have hsize : c.utf8Size = 1 := Char.utf8Size_eq_one_iff.mpr ((hle _).mpr (by simp; omega))
    exact hsize.symm
  · split
    · have hsize : c.utf8Size = 2 := Char.utf8Size_eq_two_iff.mpr
        ⟨(hlt _).mpr (by simp; omega),(hle _).mpr (by simp; omega)⟩
      exact hsize.symm
    · split
      · have hsize : c.utf8Size = 3 := Char.utf8Size_eq_three_iff.mpr
          ⟨(hlt _).mpr (by simp; omega),(hle _).mpr (by simp; omega)⟩
        exact hsize.symm
      · have hsize : c.utf8Size = 4 := Char.utf8Size_eq_four_iff.mpr ((hlt _).mpr (by simp; omega))
        exact hsize.symm

theorem length_encodeText (s : Text) : (encodeText s).length = byteLen s := by
  induction s with
  | nil => rfl
  | cons c s ih =>
    rw [byteLen_cons,← ih,← length_bytes]
    simp [encodeText]

theorem encodeText_append (s t : Text) : encodeText (s ++ t) = encodeText s ++ encodeText t :=
  List.flatMap_append

theorem feed_encodeText (s : Text) : feed none (encodeText s) = (s,none) := by
  induction s with
  | nil => rfl
  | cons c s ih =>
    rw [show encodeText (c :: s) = bytes c.toNat ++ encodeText s from rfl,feed_append,
      (feed_bytes c).1,ih]
    rfl

theorem fromUtf8Lossy_encodeText (s : Text) : fromUtf8Lossy (encodeText s) = s := by
  rw [fromUtf8Lossy,feed_encodeText]
  exact List.append_nil s

theorem fromUtf8Lossy_encodeText_append (s : Text) (bs : List UInt8) :
    fromUtf8Lossy (encodeText s ++ bs) = s ++ fromUtf8Lossy bs := by
  simp [fromUtf8Lossy,feed_append,feed_encodeText]

theorem fromUtf8Lossy_between (as bs : List UInt8) {c : Char} (hc : c.toNat < 0x80) (s : Text) :
    fromUtf8Lossy (as ++ (encodeText (c :: s) ++ bs)) =
      fromUtf8Lossy as ++ (c :: s ++ fromUtf8Lossy bs) := by
  have hbytes : encodeText (c :: s) ++ bs = c.toNat.toUInt8 :: (encodeText s ++ bs) := by
    rw [show encodeText (c :: s) = bytes c.toNat ++ encodeText s from rfl,bytes,if_pos hc]
    rfl
  have hlt : c.toNat.toUInt8.toNat < 0x80 := by
    rw [toNat_toUInt8 (by omega)]
    exact hc
  rw [hbytes,fromUtf8Lossy_append_ascii _ _ hlt,← hbytes,fromUtf8Lossy_encodeText_append]

theorem fromUtf8Lossy_cut (s : Text) (c : Char) {k : Nat} (hpos : 0 < k)
    (hlt : k < (bytes c.toNat).length) :
    fromUtf8Lossy (encodeText s ++ (bytes c.toNat).take k) = s ++ [replacement] := by
  obtain ⟨q,hq⟩ := (feed_bytes c).2 k hpos hlt
  rw [fromUtf8Lossy,feed_append,feed_encodeText,hq]
  simp [broken]

def NonzeroAscii (c : Char) : Prop := 0 < c.toNat ∧ c.toNat < 0x80

private def Begun.Long (q : Begun) : Prop :=
  match q.lacks with
  | 0 => 2 ≤ q.code
  | _+1 => 1 ≤ q.code ∨ 0x90 ≤ q.low

private theorem long_of_enter {b : Nat} {s : Text} {q : Begun} (h : enter b = (s,some q)) :
    q.Long := by
  unfold enter at h
  split_ifs at h <;> cases h <;> simp only [Begun.Long] <;> omega

private theorem not_plain_ofNat {n : Nat} (h : 0x80 ≤ n) : ¬ NonzeroAscii (Char.ofNat n) := by
  intro hplain
  by_cases hvalid : n.isValidChar
  · have hsame : (Char.ofNat n).toNat = n := by
      rw [Char.ofNat,dif_pos hvalid]
      rfl
    rw [NonzeroAscii,hsame] at hplain
    omega
  · have hzero : (Char.ofNat n).toNat = 0 := by
      rw [Char.ofNat,dif_neg hvalid]
      rfl
    rw [NonzeroAscii,hzero] at hplain
    omega

private theorem not_plain_replacement : ¬ NonzeroAscii replacement := by
  rw [NonzeroAscii]
  decide

private theorem feed_plain (bs : List UInt8) (q : Option Begun) (hlong : ∀ r ∈ q, r.Long)
    (h : ∀ c ∈ (feed q bs).1 ++ broken (feed q bs).2, NonzeroAscii c) :
    q = none ∧ feed q bs = (bs.map (fun b => Char.ofNat b.toNat),none) ∧
      ∀ b ∈ bs, b.toNat < 0x80 := by
  induction bs generalizing q with
  | nil =>
    cases q with
    | none => exact ⟨rfl,rfl,fun b hb => nomatch hb⟩
    | some r => exact absurd (h replacement (by simp [feed,broken])) not_plain_replacement
  | cons b bs ih =>
    have hrest : ∀ c ∈ (feed (decodeStep q b.toNat).2 bs).1 ++
        broken (feed (decodeStep q b.toNat).2 bs).2, NonzeroAscii c := by
      intro c hc
      apply h c
      simp only [feed]
      rw [List.append_assoc]
      exact List.mem_append_right _ hc
    have hfirst : ∀ c ∈ (decodeStep q b.toNat).1, NonzeroAscii c := by
      intro c hc
      apply h c
      simp only [feed]
      rw [List.append_assoc]
      exact List.mem_append_left _ hc
    cases q with
    | none =>
      have hnext : ∀ r ∈ (decodeStep none b.toNat).2, r.Long := by
        intro r hr
        exact long_of_enter (Prod.ext rfl hr)
      obtain ⟨hnone,hchars,hbytes⟩ := ih _ hnext hrest
      have hb : b.toNat < 0x80 := by
        by_contra hb
        have henter : enter b.toNat = ([replacement],none) ∨ ∃ r, enter b.toNat = ([],some r) := by
          unfold enter
          rw [if_neg hb]
          split_ifs <;> simp
        rcases henter with henter | ⟨r,henter⟩
        · exact not_plain_replacement (hfirst replacement (by simp [decodeStep,henter]))
        · rw [decodeStep,henter] at hnone
          cases hnone
      have hone := decodeStep_ascii none hb
      refine ⟨rfl,?_,?_⟩
      · rw [hone] at hchars
        simp only [feed,hone,hchars]
        rfl
      · intro a ha
        rcases List.mem_cons.mp ha with rfl | ha
        · exact hb
        · exact hbytes a ha
    | some r =>
      exfalso
      have hr := hlong r rfl
      rw [decodeStep] at hfirst hrest
      split at hfirst
      · rename_i hin
        rw [if_pos hin] at hrest
        rw [Begun.Long] at hr
        rw [Begun.next] at hfirst hrest
        cases hlacks : r.lacks with
        | zero =>
          rw [hlacks] at hr
          simp only [hlacks] at hfirst
          have hcontinues := r.continues
          exact not_plain_ofNat (by omega) (hfirst _ (List.mem_singleton.mpr rfl))
        | succ n =>
          rw [hlacks] at hr
          simp only [hlacks] at hrest
          have hnext : ∀ t ∈ some (⟨n,0x80,0xBF,r.code*0x40+(b.toNat-0x80),by omega⟩ : Begun),
              t.Long := by
            intro t ht
            obtain rfl := Option.some.inj ht
            unfold Begun.Long
            cases n with
            | zero =>
              simp only
              omega
            | succ n =>
              simp only
              omega
          have hnone := (ih _ hnext hrest).1
          cases hnone
      · exact not_plain_replacement (hfirst replacement List.mem_cons_self)

theorem ascii_of_fromUtf8Lossy {bs : List UInt8} (h : ∀ c ∈ fromUtf8Lossy bs, NonzeroAscii c) :
    fromUtf8Lossy bs = bs.map (fun b => Char.ofNat b.toNat) ∧ ∀ b ∈ bs, b.toNat < 0x80 := by
  have hlong : ∀ r ∈ (none : Option Begun), r.Long := fun r hr => nomatch hr
  obtain ⟨_,hchars,hbytes⟩ := feed_plain bs none hlong h
  refine ⟨?_,hbytes⟩
  rw [fromUtf8Lossy,hchars]
  exact List.append_nil _

end WeirdVault.Framework
