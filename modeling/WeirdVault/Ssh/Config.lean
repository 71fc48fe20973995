import Mathlib.Data.List.TakeWhile
import WeirdVault.Framework.Numerals

/-!
# Reading an ssh_config

`parseSSHConfig`, with what it takes from `bufio`, `strings` and `strconv`. To index a slice that is
too short is a panic.
-/

namespace WeirdVault.Ssh

open WeirdVault.Framework

def isSpace (c : Char) : Bool :=
  let n := c.toNat
  (9 ≤ n && n ≤ 13) || n == 0x20 || n == 0x85 || n == 0xA0 || n == 0x1680 ||
    (0x2000 ≤ n && n ≤ 0x200A) || n == 0x2028 || n == 0x2029 || n == 0x202F || n == 0x205F ||
    n == 0x3000

def trimBy (p : Char → Bool) (s : Text) : Text := ((s.dropWhile p).reverse.dropWhile p).reverse

def trimSpace (s : Text) : Text := trimBy isSpace s

def trimQuotes (s : Text) : Text := trimBy (· == '"') s

def fields (s : Text) : List Text := (s.splitOnP isSpace).filter (· ≠ [])

/-- The characters that fold to a small letter: its capital, the long s and the Kelvin sign. -/
def foldsTo (c letter : Char) : Bool :=
  c == letter || c.toNat+32 == letter.toNat || (c == '\u017F' && letter == 's') ||
    (c == '\u212A' && letter == 'k')

/-- `strings.EqualFold` with a word of small letters. -/
def equalFold (s word : Text) : Bool :=
  s.length == word.length && (s.zip word).all fun p => foldsTo p.1 p.2

/-- `unicode.ToLower` as far as what it makes is ASCII. -/
def toLower (c : Char) : Char :=
  if 65 ≤ c.toNat ∧ c.toNat ≤ 90 then Char.ofNat (c.toNat+32)
  else if c = '\u0130' then 'i'
  else if c = '\u212A' then 'k'
  else c

/-- `strconv.Atoi`, up to the size of an `int`. -/
def atoi (s : Text) : Option Int :=
  match s with
  | '-' :: digits => (number? 10 digits).map fun n => -n
  | '+' :: digits => (number? 10 digits).map fun n => n
  | digits => (number? 10 digits).map fun n => n

def MaxScanTokenSize : Nat := 64*1024

/-- `bufio.ScanLines`, before it drops a carriage return: nothing behind the last line end is no
line. -/
def scanLines (text : Text) : List Text :=
  let lines := text.splitOn '\n'
  if lines.getLast? = some [] then lines.dropLast else lines

def dropCR (line : Text) : Text := if line.getLast? = some '\r' then line.dropLast else line

/-- With no room left in the buffer for the line end. -/
def tooLong (line : Text) : Bool := MaxScanTokenSize ≤ byteLen line

def scanned (text : Text) : List Text :=
  ((scanLines text).takeWhile fun line => !tooLong line).map dropCR

def overflows (text : Text) : Bool := (scanLines text).any tooLong

def isSeparator (c : Char) : Bool := c == ' ' || c == '\t' || c == '='

/-- The key is empty where there is no separator, or none behind a key. -/
def splitDirective (line : Text) : Text × Text :=
  let key := line.takeWhile fun c => !isSeparator c
  let rest := line.dropWhile fun c => !isSeparator c
  if key ≠ [] ∧ rest ≠ [] then (key,trimQuotes (trimSpace (rest.dropWhile isSeparator)))
  else ([],[])

/-- The key and the value of a line that has them and is no comment. -/
def directive? (text : Text) : Option (Text × Text) :=
  let line := trimSpace text
  if line = [] ∨ line.head? = some '#' then none
  else if (splitDirective line).1 = [] then none
  else some (splitDirective line)

structure ConfigHost where
  Alias : Text
  HostName : Text
  User : Text
  Port : Nat
  IdentityFile : Text
  ProxyJump : Text
  deriving DecidableEq

def ConfigHost.named (name : Text) : ConfigHost := ⟨name,[],[],0,[],[]⟩

def orElse (value fallback : Text) : Text := if value = [] then fallback else value

def ConfigHost.completed (host defaults : ConfigHost) : ConfigHost :=
  let port := if host.Port = 0 then defaults.Port else host.Port
  { host with
    HostName := orElse host.HostName host.Alias
    User := orElse host.User defaults.User
    Port := if port = 0 then 22 else port
    IdentityFile := orElse host.IdentityFile defaults.IdentityFile }

def portOf (value : Text) : Option Nat :=
  match atoi value with
  | some n => if 0 < n ∧ n < 65536 then some n.toNat else none
  | none => none

def ConfigHost.set (host : ConfigHost) (key value : Text) : ConfigHost :=
  let key := key.map toLower
  if key = "hostname".toList then { host with HostName := value }
  else if key = "user".toList then { host with User := value }
  else if key = "port".toList then { host with Port := (portOf value).getD host.Port }
  else if key = "identityfile".toList then { host with IdentityFile := value }
  else if key = "proxyjump".toList then { host with ProxyJump := value }
  else host

structure Reader where
  hosts : List ConfigHost
  current : Option ConfigHost
  defaults : ConfigHost

def Reader.flush (r : Reader) : Reader :=
  match r.current with
  | none => r
  | some host => { r with hosts := r.hosts ++ [host.completed r.defaults], current := none }

def isPattern (c : Char) : Bool := c == '*' || c == '?' || c == '!'

def star : Text := ['*']

/-- One directive; `none` is a panic. -/
def Reader.step (r : Reader) (directive : Text × Text) : Option Reader :=
  let (key,value) := directive
  if equalFold key "host".toList then
    let r := r.flush
    if value.any isPattern then
      some (if value = star then { r with current := some (.named star) } else r)
    else
      match fields value with
      | [] => none
      | name :: _ => some { r with current := some (.named name) }
  else
    match r.current with
    | none => some { r with defaults := r.defaults.set key value }
    | some host =>
      if host.Alias = star then
        some { r with defaults := r.defaults.set key value, current := none }
      else some { r with current := some (host.set key value) }

inductive Outcome where
  | hosts (hosts : List ConfigHost)
  | error
  | panic
  deriving DecidableEq

def directives (text : Text) : List (Text × Text) := (scanned text).filterMap directive?

def parseSSHConfig (text : Text) : Outcome :=
  match (directives text).foldlM Reader.step ⟨[],none,.named []⟩ with
  | none => .panic
  | some r => if overflows text then .error else .hosts r.flush.hosts

/-- A `Host` line that names nothing: in any spelling of the key, nothing but blanks is left of the
value. -/
def Nameless (line : Text) : Prop :=
  equalFold (splitDirective (trimSpace line)).1 "host".toList ∧
    ∀ c ∈ (splitDirective (trimSpace line)).2, isSpace c

instance (line : Text) : Decidable (Nameless line) :=
  decidable_of_iff (equalFold (splitDirective (trimSpace line)).1 "host".toList ∧
    (splitDirective (trimSpace line)).2.all isSpace) (by rw [Nameless,List.all_eq_true])

theorem fields_eq_nil {s : Text} : fields s = [] ↔ ∀ c ∈ s, isSpace c := by
  induction s with
  | nil => simp [fields]
  | cons c s ih =>
    rw [fields,List.splitOnP_cons_eq_if_modifyHead]
    by_cases hc : isSpace c
    · rw [if_pos hc]
      simpa [fields,hc] using ih
    · rw [if_neg hc]
      obtain ⟨p,ps,hsplit⟩ := List.exists_cons_of_ne_nil (List.splitOnP_ne_nil isSpace s)
      rw [hsplit]
      simp [hc]

private theorem isPattern_of_isSpace {c : Char} (h : isSpace c) : isPattern c = false := by
  rw [← Bool.not_eq_true]
  intro hpattern
  simp only [isPattern,Bool.or_eq_true,beq_iff_eq] at hpattern
  rcases hpattern with (rfl | rfl) | rfl <;> cases h

theorem Reader.step_eq_none {r : Reader} {key value : Text} :
    r.step (key,value) = none ↔ equalFold key "host".toList ∧ ∀ c ∈ value, isSpace c := by
  rw [Reader.step]
  by_cases hhost : equalFold key "host".toList
  · simp only [hhost,if_true,true_and]
    by_cases hpattern : value.any isPattern
    · simp only [hpattern,if_true,reduceCtorEq,false_iff]
      intro hblank
      obtain ⟨c,hc,hmark⟩ := List.any_eq_true.mp hpattern
      rw [isPattern_of_isSpace (hblank c hc)] at hmark
      cases hmark
    · simp only [hpattern,← fields_eq_nil]
      cases fields value with
      | nil => simp
      | cons name rest => simp
  · simp only [hhost]
    cases r.current with
    | none => simp
    | some host =>
      by_cases hstar : host.Alias = star
      · simp [hstar]
      · simp [hstar]

private theorem head?_of_fold {key : Text} (h : equalFold key "host".toList) :
    ∃ c rest, key = c :: rest ∧ foldsTo c 'h' := by
  cases key with
  | nil => cases h
  | cons c rest =>
    have hall := (Bool.and_eq_true_iff.mp h).2
    exact ⟨c,rest,rfl,(List.all_eq_true.mp hall) (c,'h') (by simp)⟩

private theorem nameless_iff {line : Text} : Nameless line ↔ ∃ key value,
    directive? line = some (key,value) ∧ equalFold key "host".toList ∧ ∀ c ∈ value, isSpace c := by
  constructor
  · intro h
    obtain ⟨c,rest,hkey,hfold⟩ := head?_of_fold h.1
    refine ⟨_,_,?_,h⟩
    have hne : (splitDirective (trimSpace line)).1 ≠ [] := by simp [hkey]
    have hhead : (trimSpace line).head? = some c := by
      rw [splitDirective] at hkey
      split at hkey
      · cases hline : trimSpace line with
        | nil => simp [hline] at hkey
        | cons c' s =>
          rw [hline,List.takeWhile_cons] at hkey
          split at hkey
          · rw [List.head?_cons,(List.cons.inj hkey).1]
          · cases hkey
      · cases hkey
    have hcomment : ¬ (trimSpace line = [] ∨ (trimSpace line).head? = some '#') := by
      rintro (hnil | hhash)
      · rw [hnil] at hhead
        cases hhead
      · rw [hhead] at hhash
        obtain rfl := Option.some.inj hhash
        revert hfold
        decide
    simp only [directive?,if_neg hcomment,if_neg hne]
  · rintro ⟨key,value,hsome,hfold,hblank⟩
    simp only [directive?] at hsome
    split at hsome
    · cases hsome
    · split at hsome
      · cases hsome
      · have hboth := Option.some.inj hsome
        rw [Nameless,hboth]
        exact ⟨hfold,hblank⟩

private theorem foldlM_step_eq_none (ds : List (Text × Text)) (r : Reader) :
    ds.foldlM Reader.step r = none ↔
      ∃ d ∈ ds, equalFold d.1 "host".toList ∧ ∀ c ∈ d.2, isSpace c := by
  induction ds generalizing r with
  | nil => simp
  | cons d ds ih =>
    rw [List.foldlM_cons]
    cases hstep : r.step d with
    | none =>
      have hpanic := Reader.step_eq_none.mp hstep
      exact iff_of_true rfl ⟨d,by simp,hpanic⟩
    | some r' =>
      have hfine : ¬ (equalFold d.1 "host".toList ∧ ∀ c ∈ d.2, isSpace c) := by
        intro hpanic
        rw [Reader.step_eq_none.mpr hpanic] at hstep
        cases hstep
      rw [List.exists_mem_cons_iff,or_iff_right hfine]
      exact ih r'

theorem parseSSHConfig_returns_iff (text : Text) :
    parseSSHConfig text ≠ .panic ↔ ∀ line ∈ scanned text, ¬ Nameless line := by
  have hnone := foldlM_step_eq_none (directives text) ⟨[],none,.named []⟩
  have hlines : (∃ d ∈ directives text, equalFold d.1 "host".toList ∧ ∀ c ∈ d.2, isSpace c) ↔
      ∃ line ∈ scanned text, Nameless line := by
    simp only [directives,List.mem_filterMap,nameless_iff]
    constructor
    · rintro ⟨⟨key,value⟩,⟨line,hline,hsome⟩,hhost⟩
      exact ⟨line,hline,key,value,hsome,hhost⟩
    · rintro ⟨line,hline,key,value,hsome,hhost⟩
      exact ⟨(key,value),⟨line,hline,hsome⟩,hhost⟩
  rw [hlines] at hnone
  rw [parseSSHConfig]
  cases hrun : (directives text).foldlM Reader.step ⟨[],none,.named []⟩ with
  | none =>
    obtain ⟨line,hline,hnameless⟩ := hnone.mp hrun
    simp only [ne_eq,not_true_eq_false,false_iff]
    exact fun hall => hall line hline hnameless
  | some r =>
    rw [hrun] at hnone
    have hfine : ∀ line ∈ scanned text, ¬ Nameless line := fun line hline hnameless =>
      Option.some_ne_none r (hnone.mpr ⟨line,hline,hnameless⟩)
    refine iff_of_true ?_ hfine
    by_cases hlong : overflows text
    · simp [hlong]
    · simp [hlong]

/-- A line with `Host =` and nothing behind it. -/
theorem parseSSHConfig_panics : ¬ ∀ text : Text, parseSSHConfig text ≠ .panic := by
  intro hall
  exact hall "Host =".toList (by decide)

end WeirdVault.Ssh
