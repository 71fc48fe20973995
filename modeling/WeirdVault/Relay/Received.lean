import WeirdVault.Relay.Ingest
import WeirdVault.Relay.Reporter
import WeirdVault.Relay.Token

/-!
# What the checks make of a report

The control plane reads of each event and each entry what the relay wrote, and lets it through if
its numbers are below the ceilings.
-/

namespace WeirdVault.Relay.Reported

open WeirdVault.Framework
open WeirdVault.Relay.Quota (AccountBytes)
open WeirdVault.Relay.Reporter
open WeirdVault.Relay.Ingest

/-- An id as the sign-in library gives it to a user. -/
def IsUserId (id : String) : Prop :=
  0 < Token.utf16Length id ∧ Token.utf16Length id ≤ 128 ∧ storable (utf16 id) = true

/-- A request to mint as the libraries around it make it. -/
structure Proper (r : Token.Request) : Prop where
  user : ∀ id ∈ r.user, IsUserId id
  randomUUID : Token.isAnon r.randomUUID = true

def IssuedSubject (subject : String) : Prop :=
  ∃ r : Token.Request, Proper r ∧ r.subjectFor.sub = subject

/-- A reference that the mint accepts. -/
def IssuedRef (ref : String) : Prop := ∃ body, Token.refOf body = some ref

/-- A call of `opened` or `closed`. -/
inductive Call
  | opened (subject : String) (targetRef : Option String) (port : UInt16)
  | closed (subject : String) (targetRef : Option String) (port : UInt16)
      (bytesUp bytesDown durationMs : UInt64)

namespace Call

def event : Call → ConnectionEvent
  | opened subject targetRef port => ⟨"connection.opened",subject,targetRef,port,none,none,none⟩
  | closed subject targetRef port bytesUp bytesDown durationMs =>
    ⟨"connection.closed",subject,targetRef,port,some bytesUp,some bytesDown,some durationMs⟩

def apply (q : ConnectionEvents) : Call → ConnectionEvents
  | opened subject targetRef port => q.opened subject targetRef port
  | closed subject targetRef port bytesUp bytesDown durationMs =>
    q.closed subject targetRef port bytesUp bytesDown durationMs

/-- The call of a session whose token the mint issued. -/
structure Issued (c : Call) : Prop where
  subject : IssuedSubject c.event.subject
  targetRef : ∀ ref ∈ c.event.targetRef, IssuedRef ref

end Call

def queue (calls : List Call) : ConnectionEvents := calls.foldl Call.apply ConnectionEvents.new

theorem apply_eq_push (q : ConnectionEvents) (c : Call) : c.apply q = q.push c.event := by
  cases c <;> rfl

theorem mem_push {q : ConnectionEvents} {event e : ConnectionEvent}
    (h : e ∈ (q.push event).queued) :
    e ∈ q.queued ∨ e = event := by
  unfold ConnectionEvents.push at h
  split at h
  · rcases List.mem_append.mp h with h | h
    · exact Or.inl (List.mem_of_mem_tail h)
    · exact Or.inr (List.mem_singleton.mp h)
  · rcases List.mem_append.mp h with h | h
    · exact Or.inl h
    · exact Or.inr (List.mem_singleton.mp h)

private theorem mem_foldl_apply {calls : List Call} {q : ConnectionEvents} {e : ConnectionEvent}
    (h : e ∈ (calls.foldl Call.apply q).queued) : e ∈ q.queued ∨ ∃ c ∈ calls, c.event = e := by
  induction calls generalizing q with
  | nil => exact Or.inl h
  | cons c calls ih =>
    rw [List.foldl_cons] at h
    rcases ih h with h | ⟨d,hd,he⟩
    · rw [apply_eq_push] at h
      rcases mem_push h with h | h
      · exact Or.inl h
      · exact Or.inr ⟨c,by simp,h.symm⟩
    · exact Or.inr ⟨d,by simp [hd],he⟩

theorem exists_call {calls : List Call} {e : ConnectionEvent} (h : e ∈ (queue calls).drain.1) :
    ∃ c ∈ calls, c.event = e := by
  rcases mem_foldl_apply h with h | h
  · cases h
  · exact h

def received (e : ConnectionEvent) : Json := Serde.readRecord e.fields

def receivedEntry (e : AccountBytes) : Json := Serde.readRecord (entryFields e)

private theorem present_names (name : String) (v : Option Serde.Scalar) :
    ((present name v).map Prod.fst).Sublist [name] := by
  cases v with
  | none => exact List.nil_sublist _
  | some v => exact List.Sublist.refl _

theorem nodup_fields (e : ConnectionEvent) : (e.fields.map Prod.fst).Nodup := by
  have hall : (["bytesDown"] ++ ["bytesUp"] ++ ["durationMs"] ++ ["kind","port","subject"] ++
      ["targetRef"]).Nodup := by
    simp
  refine hall.sublist ?_
  simp only [ConnectionEvent.fields,List.map_append]
  exact ((((present_names _ _).append (present_names _ _)).append (present_names _ _)).append
    (List.Sublist.refl _)).append (present_names _ _)

theorem nodup_entryFields (e : AccountBytes) : ((entryFields e).map Prod.fst).Nodup := by
  simp [entryFields]

private theorem parse_records {α : Type} (name : String) {fields : α → Serde.Fields}
    (h : ∀ x, ((fields x).map Prod.fst).Nodup) (xs : List α) :
    Json.parse (Serde.object [(name,Serde.array (xs.map fun x => Serde.record (fields x)))]) =
      some (.object [(utf16 name,.array (xs.map fun x => Serde.readRecord (fields x)))]) := by
  have harray := reads_array (fun x (_ : x ∈ xs) => reads_record (h x))
  have hobject := reads_object (fun _ : Unit => name) [()] (by simp) (fun _ _ => harray)
  refine hobject.parse ?_
  simp [Serde.object,Serde.member,Serde.separated,Serde.string,Serde.array]
  omega

theorem parse_encodeEvents (events : List ConnectionEvent) :
    Json.parse (encodeEvents events) =
      some (.object [(utf16 "events",.array (events.map received))]) :=
  parse_records "events" nodup_fields events

theorem parse_encodeBatch (batch : List AccountBytes) :
    Json.parse (encodeBatch batch) =
      some (.object [(utf16 "entries",.array (batch.map receivedEntry))]) :=
  parse_records "entries" nodup_entryFields batch

theorem property_readRecord (fields : Serde.Fields) (name : String) :
    property (Serde.readRecord fields) name =
      (fields.find? fun f => f.1 == name).map fun f => f.2.read := by
  unfold property Serde.readRecord
  simp only [Json.get?]
  induction fields with
  | nil => rfl
  | cons f fields ih =>
    rw [List.map_cons,List.find?_cons,List.find?_cons]
    by_cases hname : f.1 = name
    · simp [hname]
    · have hne : (utf16 f.1 == utf16 name) = false := by simpa using hname
      have hne' : (f.1 == name) = false := by simpa using hname
      rw [hne,hne']
      exact ih

theorem find?_present (name key : String) (v : Option Serde.Scalar) :
    (present name v).find? (fun f => f.1 == key) =
      if name = key then v.map fun s => (name,s) else none := by
  cases v with
  | none => simp [present]
  | some v => by_cases hname : name = key <;> simp [present,hname]

theorem property_received (e : ConnectionEvent) :
    property (received e) "kind" = some (.string (utf16 e.kind)) ∧
    property (received e) "subject" = some (.string (utf16 e.subject)) ∧
    property (received e) "port" = some (.number (double (e.port.toNat : ℕ))) ∧
    property (received e) "targetRef" = e.targetRef.map (fun ref => .string (utf16 ref)) ∧
    property (received e) "bytesUp" = e.bytesUp.map (fun n => .number (double (n.toNat : ℕ))) ∧
    property (received e) "bytesDown" = e.bytesDown.map (fun n => .number (double (n.toNat : ℕ))) ∧
    property (received e) "durationMs" =
      e.durationMs.map (fun n => .number (double (n.toNat : ℕ))) := by
  refine ⟨?_,?_,?_,?_,?_,?_,?_⟩ <;>
    simp [received,property_readRecord,ConnectionEvent.fields,List.find?_append,find?_present,
      Serde.Scalar.read,Function.comp_def]

theorem property_receivedEntry (e : AccountBytes) :
    property (receivedEntry e) "subject" = some (.string (utf16 e.account)) ∧
    property (receivedEntry e) "bytesUp" = some (.number (double e.bytesUp)) ∧
    property (receivedEntry e) "bytesDown" = some (.number (double e.bytesDown)) := by
  refine ⟨?_,?_,?_⟩ <;>
    simp [receivedEntry,property_readRecord,entryFields,Serde.Scalar.read]

private theorem double_cases (n : Nat) : (n ≤ 2^53 ∧ double n = .finite n) ∨
    (2^53 ≤ n ∧ ((∃ q : ℚ, double n = .finite q ∧ 2^53 ≤ q) ∨ ∃ b, double n = .infinity b)) := by
  by_cases h : n ≤ 2^53
  · exact Or.inl ⟨h,double_natCast h⟩
  · refine Or.inr ⟨by omega,?_⟩
    cases hd : double n with
    | finite q => exact Or.inl ⟨q,rfl,le_of_double_eq (by omega) hd⟩
    | infinity b => exact Or.inr ⟨b,rfl⟩

theorem isCount_double (n : Nat) :
    isCount (some (.number (double n))) = decide (n < 10^12) := by
  rcases double_cases n with ⟨-,hd⟩ | ⟨hn,⟨q,hd,hq⟩ | ⟨b,hd⟩⟩
  · rw [hd,isCount]
    have hlt : (n : ℚ) < MAX_AUDIT_INT ↔ n < 10^12 := by
      rw [MAX_AUDIT_INT]
      exact_mod_cast Iff.rfl
    simp [hlt]
  · rw [hd,isCount]
    have hlt : ¬ q < MAX_AUDIT_INT := by
      rw [MAX_AUDIT_INT,not_lt]
      exact le_trans (by norm_num) hq
    rw [decide_eq_false (by omega : ¬ n < 10^12)]
    simp [hlt]
  · rw [hd,decide_eq_false (by omega : ¬ n < 10^12)]
    rfl

theorem isBytes_double (n : Nat) :
    isBytes (some (.number (double n))) = decide (n ≤ 10^15) := by
  rcases double_cases n with ⟨-,hd⟩ | ⟨hn,⟨q,hd,hq⟩ | ⟨b,hd⟩⟩
  · rw [hd,isBytes]
    have hle : (n : ℚ) ≤ MAX_BYTES_PER_ENTRY ↔ n ≤ 10^15 := by
      rw [MAX_BYTES_PER_ENTRY]
      exact_mod_cast Iff.rfl
    have hsafe : n ≤ 10^15 → (n : ℚ) ≤ MAX_SAFE_INTEGER := by
      intro h
      exact (hle.mpr h).trans (by norm_num [MAX_BYTES_PER_ENTRY,MAX_SAFE_INTEGER])
    simpa [hle] using hsafe
  · rw [hd,isBytes]
    have hle : ¬ q ≤ MAX_BYTES_PER_ENTRY := by
      rw [MAX_BYTES_PER_ENTRY,not_le]
      exact lt_of_lt_of_le (by norm_num) hq
    rw [decide_eq_false (by omega : ¬ n ≤ 10^15)]
    simp [hle]
  · rw [hd,decide_eq_false (by omega : ¬ n ≤ 10^15)]
    rfl

theorem isPort_double (p : UInt16) :
    isPort (some (.number (double (p.toNat : ℕ)))) = decide (p ≠ 0) := by
  have hlt := p.toNat_lt
  have hd : double (p.toNat : ℕ) = .finite (p.toNat : ℕ) := double_natCast (by omega)
  have hone : (1 : ℚ) ≤ (p.toNat : ℕ) ↔ p ≠ 0 := by
    have hnat : 1 ≤ p.toNat ↔ p ≠ 0 := by
      rw [Ne,← UInt16.toNat_inj]
      simp [Nat.one_le_iff_ne_zero]
    exact_mod_cast hnat
  have hmax : ((p.toNat : ℕ) : ℚ) ≤ 65535 := by
    have hnat : p.toNat ≤ 65535 := by omega
    exact_mod_cast hnat
  rw [hd,isPort]
  simp [hone,hmax]

theorem length_utf16 (s : String) : (utf16 s).length = Token.utf16Length s := by
  simp only [utf16,Token.utf16Length,List.length_flatMap,length_charUnits]

theorem isShort_utf16 (max : Nat) (s : String) : isShort max (some (.string (utf16 s))) =
    decide (0 < Token.utf16Length s ∧ Token.utf16Length s ≤ max) := by
  have hempty : (utf16 s).isEmpty = decide (Token.utf16Length s = 0) := by
    rw [← length_utf16,Bool.eq_iff_iff]
    simp [List.isEmpty_iff]
  rw [isShort,hempty,length_utf16]
  simp [Nat.pos_iff_ne_zero]

private theorem anon_char {c : Char} (h : (c.isDigit || ('a' ≤ c && c ≤ 'f') ||
    ('A' ≤ c && c ≤ 'F') || c == '-') = true) : 0 < c.toNat ∧ c.toNat < 128 := by
  simp only [Char.isDigit,Bool.or_eq_true,Bool.and_eq_true,decide_eq_true_eq,beq_iff_eq,
    Char.le_def,UInt32.le_iff_toNat_le,ge_iff_le] at h
  have hcode : c.toNat = c.val.toNat := rfl
  rcases h with ((h | h) | h) | rfl
  · have h1 : 48 ≤ c.val.toNat := h.1
    have h2 : c.val.toNat ≤ 57 := h.2
    omega
  · have h1 : 97 ≤ c.val.toNat := h.1
    have h2 : c.val.toNat ≤ 102 := h.2
    omega
  · have h1 : 65 ≤ c.val.toNat := h.1
    have h2 : c.val.toNat ≤ 70 := h.2
    omega
  · decide

private theorem small_text {s : String} (h : ∀ c ∈ s.toList, 0 < c.toNat ∧ c.toNat < 128) :
    Token.utf16Length s = s.toList.length ∧ storable (utf16 s) = true := by
  constructor
  · have hone : s.toList.map (fun c => if 65536 ≤ c.toNat then 2 else 1) =
        s.toList.map (fun _ => 1) := by
      apply List.map_congr_left
      intro c hc
      have hlt := (h c hc).2
      rw [if_neg (by omega)]
    rw [Token.utf16Length,hone]
    simp
  · rw [storable,Bool.not_eq_true',← Bool.not_eq_true,List.contains_iff_mem]
    intro hzero
    obtain ⟨c,hc,hunit⟩ := List.mem_flatMap.mp hzero
    obtain ⟨hpos,hlt⟩ := h c hc
    rw [charUnits,if_pos (by omega),List.mem_singleton] at hunit
    have hnat := congrArg UInt16.toNat hunit
    rw [Nat.toUInt16_eq,UInt16.toNat_ofNat'] at hnat
    have hz : (0 : UInt16).toNat = 0 := rfl
    omega

private theorem anon_subject {s : String} (h : Token.isAnon s = true) :
    Token.utf16Length ("anon:" ++ s) = 41 ∧ storable (utf16 ("anon:" ++ s)) = true := by
  obtain ⟨hlen,hall⟩ := Bool.and_eq_true_iff.mp h
  have hsmall : ∀ c ∈ ("anon:" ++ s).toList, 0 < c.toNat ∧ c.toNat < 128 := by
    intro c hc
    rw [String.toList_append,List.mem_append] at hc
    rcases hc with hc | hc
    · have hlist : "anon:".toList = ['a','n','o','n',':'] := by simp
      rw [hlist] at hc
      simp only [List.mem_cons,List.not_mem_nil,or_false] at hc
      rcases hc with rfl | rfl | rfl | rfl | rfl <;> decide
    · exact anon_char (List.all_eq_true.mp hall c hc)
  obtain ⟨hunits,hstore⟩ := small_text hsmall
  refine ⟨?_,hstore⟩
  rw [hunits,String.toList_append,List.length_append,beq_iff_eq.mp hlen]
  rfl

private theorem subjectFor_anon {r : Token.Request} (hr : Proper r) (huser : r.user = none) :
    ∃ s, Token.isAnon s = true ∧ r.subjectFor.sub = "anon:" ++ s := by
  unfold Token.Request.subjectFor
  rw [huser]
  cases r.cookie with
  | none => exact ⟨_,hr.randomUUID,rfl⟩
  | some c =>
    by_cases hc : Token.isAnon c = true
    · exact ⟨c,hc,by simp [hc]⟩
    · exact ⟨_,hr.randomUUID,by simp [hc]⟩

theorem IssuedSubject.fits {subject : String} (h : IssuedSubject subject) :
    0 < Token.utf16Length subject ∧ Token.utf16Length subject ≤ 128 ∧
      storable (utf16 subject) = true := by
  obtain ⟨r,hr,rfl⟩ := h
  cases huser : r.user with
  | some id =>
    have hsub : r.subjectFor.sub = id := by rw [Token.Request.subjectFor,huser]
    rw [hsub]
    exact hr.user id huser
  | none =>
    obtain ⟨s,hs,hsub⟩ := subjectFor_anon hr huser
    obtain ⟨hlen,hstore⟩ := anon_subject hs
    rw [hsub]
    exact ⟨by omega,by omega,hstore⟩

theorem length_of_refOf {body : Token.Json} {ref : String} (h : Token.refOf body = some ref) :
    0 < Token.utf16Length ref ∧ Token.utf16Length ref ≤ 64 := by
  unfold Token.refOf at h
  split at h
  · split at h
    · rename_i hlen
      obtain rfl := Option.some.inj h
      exact hlen
    · cases h
  · cases h

/-- The port is one, and the counts are below the ceiling. -/
def accepted (e : ConnectionEvent) : Bool :=
  e.port ≠ 0 && (e.bytesUp.all (fun n => n.toNat < 10^12) &&
    e.bytesDown.all (fun n => n.toNat < 10^12) && e.durationMs.all (fun n => n.toNat < 10^12))

def acceptedEntry (e : AccountBytes) : Bool := e.bytesUp ≤ 10^15 && e.bytesDown ≤ 10^15

theorem isRelayConnectionEvent_received {c : Call} (h : c.Issued) :
    isRelayConnectionEvent (received c.event) = accepted c.event := by
  obtain ⟨hkind,hsubject,hport,href,hup,hdown,hduration⟩ := property_received c.event
  have hobject : (received c.event).isObject = true := rfl
  have hshort : isShort 128 (some (.string (utf16 c.event.subject))) = true := by
    rw [isShort_utf16,decide_eq_true_eq]
    exact ⟨h.subject.fits.1,h.subject.fits.2.1⟩
  have hrefs : ((c.event.targetRef.map fun ref => Json.string (utf16 ref)).isNone ||
      isShort 64 (c.event.targetRef.map fun ref => Json.string (utf16 ref))) = true := by
    cases hr : c.event.targetRef with
    | none => rfl
    | some ref =>
      obtain ⟨body,hbody⟩ := h.targetRef ref hr
      rw [Option.map_some,isShort_utf16]
      simp [length_of_refOf hbody]
  rw [isRelayConnectionEvent,hkind,hsubject,hport,href,hup,hdown,hduration,hobject,hshort,
    isPort_double,hrefs]
  cases c with
  | opened subject targetRef port => simp [Call.event,isKind,accepted]
  | closed subject targetRef port bytesUp bytesDown durationMs =>
    simp [Call.event,isKind,accepted,isCount_double]

theorem isRelayUsageEntry_received {e : AccountBytes} (h : IssuedSubject e.account) :
    isRelayUsageEntry (receivedEntry e) = acceptedEntry e := by
  obtain ⟨hsubject,hup,hdown⟩ := property_receivedEntry e
  have hobject : (receivedEntry e).isObject = true := rfl
  have hshort : isShort 256 (some (.string (utf16 e.account))) = true := by
    rw [isShort_utf16,decide_eq_true_eq]
    exact ⟨h.fits.1,h.fits.2.1.trans (by omega)⟩
  rw [isRelayUsageEntry,hsubject,hup,hdown,hobject,hshort,isBytes_double,isBytes_double]
  simp [acceptedEntry]

def exact (n : Nat) : Json := .number (.finite n)

def amount (n : Option UInt64) : Option Json := n.map fun n => exact n.toNat

structure Carries (v : Json) (e : ConnectionEvent) : Prop where
  kind : property v "kind" = some (.string (utf16 e.kind))
  subject : property v "subject" = some (.string (utf16 e.subject))
  port : property v "port" = some (exact e.port.toNat)
  targetRef : property v "targetRef" = e.targetRef.map fun ref => .string (utf16 ref)
  bytesUp : property v "bytesUp" = amount e.bytesUp
  bytesDown : property v "bytesDown" = amount e.bytesDown
  durationMs : property v "durationMs" = amount e.durationMs

structure CarriesEntry (v : Json) (e : AccountBytes) : Prop where
  subject : property v "subject" = some (.string (utf16 e.account))
  bytesUp : property v "bytesUp" = some (exact e.bytesUp)
  bytesDown : property v "bytesDown" = some (exact e.bytesDown)

private theorem amount_of_all {n : Option UInt64} (h : (n.all fun n => n.toNat < 10^12) = true) :
    n.map (fun n => Json.number (double (n.toNat : ℕ))) = amount n := by
  cases n with
  | none => rfl
  | some n =>
    have hlt : n.toNat < 10^12 := of_decide_eq_true h
    rw [Option.map_some,double_natCast (by omega)]
    rfl

theorem carries_received {e : ConnectionEvent} (h : accepted e = true) :
    Carries (received e) e := by
  obtain ⟨hkind,hsubject,hport,href,hup,hdown,hduration⟩ := property_received e
  simp only [accepted,Bool.and_eq_true] at h
  obtain ⟨-,h⟩ := h
  have hlt := e.port.toNat_lt
  refine ⟨hkind,hsubject,?_,href,?_,?_,?_⟩
  · rw [hport,double_natCast (by omega)]
    rfl
  · rw [hup,amount_of_all h.1.1]
  · rw [hdown,amount_of_all h.1.2]
  · rw [hduration,amount_of_all h.2]

theorem carriesEntry_received {e : AccountBytes} (h : acceptedEntry e = true) :
    CarriesEntry (receivedEntry e) e := by
  obtain ⟨hsubject,hup,hdown⟩ := property_receivedEntry e
  simp only [acceptedEntry,Bool.and_eq_true,decide_eq_true_eq] at h
  refine ⟨hsubject,?_,?_⟩
  · rw [hup,double_natCast (by omega)]
    rfl
  · rw [hdown,double_natCast (by omega)]
    rfl

def timelineRow (e : ConnectionEvent) : AuditRow where
  userId := utf16 e.subject
  eventType := utf16 e.kind
  source := .relay
  targetRef := e.targetRef.map utf16
  ipPrefix := none
  metadata :=
    if e.kind = "connection.opened" then [(utf16 "port",exact e.port.toNat)]
    else [("bytesUp",e.bytesUp),("bytesDown",e.bytesDown),("durationMs",e.durationMs)].filterMap
      fun field => (amount field.2).map fun v => (utf16 field.1,v)

theorem subjectOf_received (e : ConnectionEvent) : subjectOf (received e) = utf16 e.subject := by
  rw [subjectOf,(property_received e).2.1]
  rfl

theorem subjectOf_receivedEntry (e : AccountBytes) :
    subjectOf (receivedEntry e) = utf16 e.account := by
  rw [subjectOf,(property_receivedEntry e).1]
  rfl

theorem auditRow_of_carries {v : Json} {c : Call} (h : Carries v c.event) :
    auditRow v = timelineRow c.event := by
  have hsubject : subjectOf v = utf16 c.event.subject := by
    rw [subjectOf,h.subject]
    rfl
  have hkind : textOf (property v "kind") = utf16 c.event.kind := by
    rw [h.kind]
    rfl
  have href : ((property v "targetRef").map fun v => textOf (some v)) =
      c.event.targetRef.map utf16 := by
    rw [h.targetRef,Option.map_map]
    rfl
  have hmetadata : (if isKind "connection.opened" (property v "kind") then metadataField v "port"
      else metadataField v "bytesUp" ++ metadataField v "bytesDown" ++
        metadataField v "durationMs") = (timelineRow c.event).metadata := by
    simp only [metadataField,h.kind,h.port,h.bytesUp,h.bytesDown,h.durationMs]
    cases c with
    | opened subject targetRef port => simp [Call.event,isKind,timelineRow]
    | closed subject targetRef port bytesUp bytesDown durationMs =>
      simp [Call.event,isKind,timelineRow,amount]
  rw [auditRow,hsubject,hkind,href,hmetadata]
  rfl

end WeirdVault.Relay.Reported
