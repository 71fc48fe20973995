import WeirdVault.Relay.Bytes
import WeirdVault.Relay.Received

/-! # What the relay reports, the control plane records -/

namespace WeirdVault.Relay.Ingest

open WeirdVault.Framework
open WeirdVault.Relay.Quota (Direction)

def UsageRow.bytes (r : UsageRow) : Direction → Nat
  | .up => r.bytesUp
  | .down => r.bytesDown

def Database.timeline (db : Database) (userId : JsString) : List AuditRow :=
  db.auditEvent.filter fun r => r.userId == userId

def Database.stored (db : Database) (userId period : JsString) (d : Direction) : Nat :=
  db.relayUsage.at? (userId,period) (·.bytes d)

end WeirdVault.Relay.Ingest

namespace WeirdVault.Relay.Reported

open WeirdVault.Framework
open WeirdVault.Relay.Quota (AccountBytes Direction inBatch)
open WeirdVault.Relay.Reporter
open WeirdVault.Relay.Ingest

/-- What arrives of it, for a secret that a header carries unchanged: visible characters of ASCII. -/
def toRequest (p : Post) : Request := ⟨some p.authorization,p.body⟩

def receive (secret : Text) (db : Database) (requests : List (JsString × Post)) : Database :=
  requests.foldl (fun db r => (POST (some secret) r.1 (toRequest r.2) db).2) db

def known (users : List JsString) (subject : String) : Bool :=
  users.contains (utf16 subject) && !isAnonymousSubject (utf16 subject)

/-- The events of sessions. -/
def Produced (events : List ConnectionEvent) : Prop :=
  ∀ e ∈ events, ∃ c : Call, c.Issued ∧ c.event = e

/-- The entries of the chunks that are handled in the period. -/
def handledIn {α : Type} (period : JsString) (chunks : List (JsString × List α)) : List α :=
  (chunks.filter fun c => c.1 == period).flatMap Prod.snd

variable {secret : Text} {period : JsString} {db : Database}

private theorem bearer_start :
    "Bearer ".toList.isPrefixOf ("Bearer ".toList ++ secret) = true := by
  rw [List.isPrefixOf_iff_prefix]
  exact List.prefix_append _ _

private theorem bearer_drop : ("Bearer ".toList ++ secret).drop 7 = secret := by
  have hseven : "Bearer ".toList.length = 7 := by simp
  rw [← hseven,List.drop_left]

private theorem authorised_post (hsecret : secret ≠ []) (body : Text) :
    authorised (some secret) (toRequest (post secret body)) = true := by
  have hheader : (toRequest (post secret body)).authorization.getD [] =
      "Bearer ".toList ++ secret := rfl
  unfold authorised
  dsimp only
  rw [if_neg hsecret,hheader,if_pos bearer_start,bearer_drop,beq_self_eq_true]

theorem property_single (name : String) (v : Json) :
    property (.object [(utf16 name,v)]) name = some v := by
  simp [property,Json.get?]

private theorem known_subjects (db : Database) {subjects : List JsString}
    (h : ∀ s ∈ subjects, storable s = true) :
    ∃ ids, db.known subjects = some ids ∧
      ∀ s ∈ subjects, ids.contains s = db.users.contains s := by
  unfold Database.known
  split
  · rename_i hnil
    subst hnil
    exact ⟨[],rfl,nofun⟩
  · refine ⟨db.users.filter (subjects.contains ·),?_,?_⟩
    · rw [Database.selectUsers,if_pos (List.all_eq_true.mpr h)]
    · intro s hs
      rw [Bool.eq_iff_iff,List.contains_iff_mem,List.contains_iff_mem,List.mem_filter,
        List.contains_iff_mem]
      exact and_iff_left hs

private def namedEvents (events : List ConnectionEvent) : List ConnectionEvent :=
  (events.filter accepted).filter fun e => !isAnonymousSubject (utf16 e.subject)

private theorem named_received {events : List ConnectionEvent} (h : Produced events) :
    ((events.map received).filter isRelayConnectionEvent).filter
      (fun e => !isAnonymousSubject (subjectOf e)) = (namedEvents events).map received := by
  have haccept : events.filter (isRelayConnectionEvent ∘ received) = events.filter accepted := by
    apply List.filter_congr
    intro e he
    obtain ⟨c,hc,rfl⟩ := h e he
    exact isRelayConnectionEvent_received hc
  rw [List.filter_map,haccept,List.filter_map,namedEvents]
  simp only [Function.comp_def,subjectOf_received]

def eventRows (users : List JsString) (events : List ConnectionEvent) : List AuditRow :=
  (events.filter fun e => accepted e && known users e.subject).map timelineRow

private theorem rows_of_named {events : List ConnectionEvent} (h : Produced events)
    {ids users : List JsString}
    (hids : ∀ e ∈ namedEvents events, ids.contains (utf16 e.subject) =
      users.contains (utf16 e.subject)) :
    (((namedEvents events).map received).filter fun e => ids.contains (subjectOf e)).map auditRow =
      eventRows users events := by
  have hfilter : (namedEvents events).filter (fun e => ids.contains (utf16 e.subject)) =
      events.filter fun e => accepted e && known users e.subject := by
    rw [List.filter_congr hids,namedEvents,List.filter_filter,List.filter_filter]
    apply List.filter_congr
    intro e _
    rw [known,Bool.and_comm (accepted e),Bool.and_assoc]
  rw [List.filter_map,List.map_map,eventRows]
  simp only [Function.comp_def,subjectOf_received]
  rw [hfilter]
  apply List.map_congr_left
  intro e he
  obtain ⟨c,hc,rfl⟩ := h e (List.mem_of_mem_filter he)
  have hpass := List.of_mem_filter he
  rw [Bool.and_eq_true] at hpass
  exact auditRow_of_carries (carries_received hpass.1)

private theorem POST_events (hsecret : secret ≠ []) (period : JsString) (db : Database)
    {events : List ConnectionEvent} (h : Produced events) (hlen : events.length ≤ 500) :
    (POST (some secret) period (toRequest (post secret (encodeEvents events))) db).2 =
      if (eventRows db.users events).all (fun r => r.targetRef.all storable)
      then { db with auditEvent := db.auditEvent ++ eventRows db.users events } else db := by
  have hsubjects : ∀ s ∈ (((namedEvents events).map received).map subjectOf).dedup,
      storable s = true := by
    intro s hs
    rw [List.mem_dedup,List.map_map,List.mem_map] at hs
    obtain ⟨e,he,rfl⟩ := hs
    obtain ⟨c,hc,rfl⟩ := h e (List.mem_of_mem_filter (List.mem_of_mem_filter he))
    rw [Function.comp_apply,subjectOf_received]
    exact hc.subject.fits.2.2
  obtain ⟨ids,hids,hcontains⟩ := known_subjects db hsubjects
  have hsame : ∀ e ∈ namedEvents events, ids.contains (utf16 e.subject) =
      db.users.contains (utf16 e.subject) := by
    intro e he
    apply hcontains
    rw [List.mem_dedup,List.map_map,List.mem_map]
    exact ⟨e,he,subjectOf_received e⟩
  have hrows := rows_of_named h hsame
  have hbody : (toRequest (post secret (encodeEvents events))).body = encodeEvents events := rfl
  rw [POST,authorised_post hsecret,hbody,parse_encodeEvents]
  simp only [property_single,Bool.not_true,if_neg Bool.false_ne_true,recordConnectionEvents,
    List.length_map,MAX_EVENTS_PER_BATCH,if_neg (Nat.not_lt.mpr hlen),named_received h,hids,hrows]
  by_cases hnil : eventRows db.users events = []
  · simp [hnil]
  · rw [if_neg hnil,Database.insertEvents]
    by_cases hall : (eventRows db.users events).all (fun r => r.targetRef.all storable) = true
    · rw [if_pos hall,if_pos hall]
    · rw [if_neg hall,if_neg hall]

private def namedEntries (batch : List AccountBytes) : List AccountBytes :=
  (batch.filter acceptedEntry).filter fun e => !isAnonymousSubject (utf16 e.account)

private theorem named_receivedEntry {batch : List AccountBytes}
    (h : ∀ e ∈ batch, IssuedSubject e.account) :
    ((batch.map receivedEntry).filter isRelayUsageEntry).filter
      (fun e => !isAnonymousSubject (subjectOf e)) = (namedEntries batch).map receivedEntry := by
  have haccept : batch.filter (isRelayUsageEntry ∘ receivedEntry) = batch.filter acceptedEntry := by
    apply List.filter_congr
    intro e he
    exact isRelayUsageEntry_received (h e he)
  rw [List.filter_map,haccept,List.filter_map,namedEntries]
  simp only [Function.comp_def,subjectOf_receivedEntry]

private def total (e : AccountBytes) : Total := ⟨utf16 e.account,e.bytesUp,e.bytesDown⟩

private theorem rows_addEntry {totals : Totals} {e : AccountBytes} (h : acceptedEntry e = true)
    (hnew : totals.get? (utf16 e.account) = none) :
    (addEntry totals (receivedEntry e)).rows = totals.rows ++ [total e] := by
  have hcarry := carriesEntry_received h
  have hup : amountOf (property (receivedEntry e) "bytesUp") = e.bytesUp := by
    rw [hcarry.bytesUp]
    rfl
  have hdown : amountOf (property (receivedEntry e) "bytesDown") = e.bytesDown := by
    rw [hcarry.bytesDown]
    rfl
  simp only [acceptedEntry,Bool.and_eq_true,decide_eq_true_eq] at h
  have hadd : addEntry totals (receivedEntry e) = totals.put (total e) := by
    rw [addEntry,subjectOf_receivedEntry,hnew,hup,hdown]
    simp only [Option.getD_none,zero_add,total]
    rw [nearest_natCast (by omega),nearest_natCast (by omega)]
  rw [hadd,Table.rows_put_new hnew]

private theorem rows_foldl_addEntry {entries : List AccountBytes} {totals : Totals}
    (haccept : ∀ e ∈ entries, acceptedEntry e = true)
    (hone : (entries.map AccountBytes.account).Nodup)
    (hnew : ∀ e ∈ entries, totals.get? (utf16 e.account) = none) :
    ((entries.map receivedEntry).foldl addEntry totals).rows =
      totals.rows ++ entries.map total := by
  induction entries generalizing totals with
  | nil => simp
  | cons e entries ih =>
    rw [List.map_cons,List.nodup_cons] at hone
    have hrows := rows_addEntry (haccept e (by simp)) (hnew e (by simp))
    have hrest : ∀ x ∈ entries, (addEntry totals (receivedEntry e)).get? (utf16 x.account) =
        none := by
      intro x hx
      rw [Table.get?_eq_none_iff,hrows]
      intro t ht
      rcases List.mem_append.mp ht with ht | ht
      · exact Table.get?_eq_none_iff.mp (hnew x (by simp [hx])) t ht
      · obtain rfl := List.mem_singleton.mp ht
        intro heq
        have hname := utf16_injective heq
        exact hone.1 (hname ▸ List.mem_map_of_mem hx)
    rw [List.map_cons,List.foldl_cons,ih (fun x hx => haccept x (by simp [hx])) hone.2 hrest,hrows]
    simp

def usageRow (period : JsString) (e : AccountBytes) : UsageRow :=
  ⟨utf16 e.account,period,e.bytesUp,e.bytesDown⟩

def usageRows (users : List JsString) (period : JsString) (batch : List AccountBytes) :
    List UsageRow :=
  (batch.filter fun e => acceptedEntry e && known users e.account &&
    (0 < e.bytesUp || 0 < e.bytesDown)).map (usageRow period)

private theorem row_total (period : JsString) (e : AccountBytes) :
    (total e).row period = usageRow period e := by
  simp [total,Total.row,usageRow]

private theorem rows_of_namedEntries {batch : List AccountBytes} {ids users : List JsString}
    (period : JsString) (hids : ∀ e ∈ namedEntries batch, ids.contains (utf16 e.account) =
      users.contains (utf16 e.account)) :
    (((namedEntries batch).map total).filter fun t => ids.contains t.subject &&
      (0 < t.bytesUp || 0 < t.bytesDown)).map (Total.row · period) =
        usageRows users period batch := by
  have hfilter : (namedEntries batch).filter (fun e => ids.contains (utf16 e.account) &&
      (0 < e.bytesUp || 0 < e.bytesDown)) = batch.filter fun e => acceptedEntry e &&
        known users e.account && (0 < e.bytesUp || 0 < e.bytesDown) := by
    have hcongr : (namedEntries batch).filter (fun e => ids.contains (utf16 e.account) &&
        (0 < e.bytesUp || 0 < e.bytesDown)) = (namedEntries batch).filter fun e =>
          users.contains (utf16 e.account) && (0 < e.bytesUp || 0 < e.bytesDown) := by
      apply List.filter_congr
      intro e he
      rw [hids e he]
    rw [hcongr,namedEntries,List.filter_filter,List.filter_filter]
    apply List.filter_congr
    intro e _
    rw [known]
    cases acceptedEntry e <;> cases users.contains (utf16 e.account) <;>
      cases isAnonymousSubject (utf16 e.account) <;> simp
  rw [List.filter_map,List.map_map,usageRows,← hfilter]
  simp only [Function.comp_def,total,Nat.cast_pos]
  apply List.map_congr_left
  intro e _
  exact row_total period e

private theorem POST_entries (hsecret : secret ≠ []) (period : JsString) (db : Database)
    {batch : List AccountBytes} (h : ∀ e ∈ batch, IssuedSubject e.account)
    (hone : (batch.map AccountBytes.account).Nodup)
    (hlen : batch.length ≤ 500) :
    (POST (some secret) period (toRequest (post secret (encodeBatch batch))) db).2 =
      (upsert db.relayUsage (usageRows db.users period batch)).elim db
        fun usage => { db with relayUsage := usage } := by
  have hsub : (namedEntries batch).Sublist batch :=
    List.filter_sublist.trans List.filter_sublist
  have haccept : ∀ e ∈ namedEntries batch, acceptedEntry e = true :=
    fun e he => List.of_mem_filter (List.mem_of_mem_filter he)
  have htotals : (((namedEntries batch).map receivedEntry).foldl addEntry
      (Table.empty Total.subject)).rows = (namedEntries batch).map total :=
    rows_foldl_addEntry haccept (hone.sublist (hsub.map _)) (fun _ _ => rfl)
  have hsubjects : ∀ s ∈ ((namedEntries batch).map total).map Total.subject,
      storable s = true := by
    intro s hs
    rw [List.map_map,List.mem_map] at hs
    obtain ⟨e,he,rfl⟩ := hs
    exact (h e (hsub.subset he)).fits.2.2
  obtain ⟨ids,hids,hcontains⟩ := known_subjects db hsubjects
  have hsame : ∀ e ∈ namedEntries batch, ids.contains (utf16 e.account) =
      db.users.contains (utf16 e.account) := by
    intro e he
    apply hcontains
    rw [List.map_map,List.mem_map]
    exact ⟨e,he,rfl⟩
  have hrows := rows_of_namedEntries period hsame
  have hbody : (toRequest (post secret (encodeBatch batch))).body = encodeBatch batch := rfl
  have hevents : property (.object [(utf16 "entries",.array (batch.map receivedEntry))]) "events" =
      none := by
    simp [property,Json.get?]
  rw [POST,authorised_post hsecret,hbody,parse_encodeBatch]
  simp only [hevents,property_single,Bool.not_true,if_neg Bool.false_ne_true,recordUsage,
    List.length_map,Ingest.MAX_ENTRIES_PER_BATCH,if_neg (Nat.not_lt.mpr hlen),named_receivedEntry h,
    htotals,hids,hrows]
  cases upsert db.relayUsage (usageRows db.users period batch) <;> rfl

private def adds (rows : List UsageRow) (key : JsString × JsString) (d : Direction) : Nat :=
  (rows.map fun r => if r.key = key then r.bytes d else 0).sum

private theorem key_onto {r : UsageRow} {t : Table UsageRow.key} :
    (r.onto (t.get? r.key)).key = r.key := by
  cases h : t.get? r.key with
  | none => rfl
  | some old =>
    have hold : old.key = r.key := Table.key_of_get? h
    exact hold

private theorem bytes_onto {r : UsageRow} {t : Table UsageRow.key} (d : Direction) :
    (r.onto (t.get? r.key)).bytes d = t.at? r.key (·.bytes d)+r.bytes d := by
  rw [Table.at?]
  cases h : t.get? r.key with
  | none => simp [UsageRow.onto]
  | some old => cases d <;> rfl

private theorem at_put_onto (r : UsageRow) (t : Table UsageRow.key) (key : JsString × JsString)
    (d : Direction) : (t.put (r.onto (t.get? r.key))).at? key (·.bytes d) =
      t.at? key (·.bytes d)+if r.key = key then r.bytes d else 0 := by
  rw [Table.at?,Table.get?_put,key_onto]
  by_cases hkey : r.key = key
  · rw [if_pos hkey,if_pos hkey,Option.elim_some,bytes_onto,hkey]
  · rw [if_neg hkey,if_neg hkey,Table.at?,Nat.add_zero]

private theorem adds_cons (r : UsageRow) (rows : List UsageRow) (key : JsString × JsString)
    (d : Direction) : adds (r :: rows) key d =
      (if r.key = key then r.bytes d else 0)+adds rows key d := by
  rw [adds,List.map_cons,List.sum_cons,adds]

private theorem upsert_some {rows : List UsageRow} {t t' : Table UsageRow.key}
    (h : upsert t rows = some t') (key : JsString × JsString) (d : Direction) :
    t'.at? key (·.bytes d) = t.at? key (·.bytes d)+adds rows key d := by
  induction rows generalizing t with
  | nil =>
    obtain rfl := Option.some.inj h
    rfl
  | cons r rows ih =>
    rw [upsert,List.foldlM_cons] at h
    obtain ⟨next,hnext,hrest⟩ := Option.bind_eq_some_iff.mp h
    rw [upsertRow] at hnext
    split at hnext
    · obtain rfl := Option.some.inj hnext
      rw [ih hrest,at_put_onto,adds_cons,Nat.add_assoc]
    · cases hnext

private theorem upsert_fits {rows : List UsageRow} {t : Table UsageRow.key}
    (hroom : ∀ r ∈ rows, ∀ d, t.at? r.key (·.bytes d)+adds rows r.key d < 2^63) :
    ∃ t', upsert t rows = some t' := by
  induction rows generalizing t with
  | nil => exact ⟨t,rfl⟩
  | cons r rows ih =>
    have hfits : ∀ d, (r.onto (t.get? r.key)).bytes d < 2^63 := by
      intro d
      have hr := hroom r (by simp) d
      rw [adds_cons,if_pos rfl] at hr
      rw [bytes_onto]
      omega
    have hrow : upsertRow t r = some (t.put (r.onto (t.get? r.key))) := by
      rw [upsertRow,if_pos ⟨hfits .up,hfits .down⟩]
    have hroom' : ∀ x ∈ rows, ∀ d, (t.put (r.onto (t.get? r.key))).at? x.key (·.bytes d)+
        adds rows x.key d < 2^63 := by
      intro x hx d
      have hr := hroom x (by simp [hx]) d
      rw [adds_cons] at hr
      rw [at_put_onto]
      omega
    obtain ⟨t',ht'⟩ := ih hroom'
    refine ⟨t',?_⟩
    rw [upsert,List.foldlM_cons,hrow]
    exact ht'

private theorem inBatch_cons (account : String) (d : Direction) (e : AccountBytes)
    (batch : List AccountBytes) : inBatch account d (e :: batch) =
      (if e.account = account then e.bytes d else 0)+inBatch account d batch := by
  rw [inBatch,List.map_cons,List.sum_cons,inBatch]

private theorem inBatch_append (account : String) (d : Direction) (xs ys : List AccountBytes) :
    inBatch account d (xs ++ ys) = inBatch account d xs+inBatch account d ys := by
  rw [inBatch,List.map_append,List.sum_append,inBatch,inBatch]

private theorem adds_usageRows (users : List JsString) (p q : JsString) (account : String)
    (d : Direction) (batch : List AccountBytes) :
    adds (usageRows users p batch) (utf16 account,q) d =
      if p = q ∧ known users account = true then inBatch account d (batch.filter acceptedEntry)
      else 0 := by
  induction batch with
  | nil => simp [usageRows,adds,inBatch]
  | cons e batch ih =>
    have hkey : (usageRow p e).key = (utf16 account,q) ↔ e.account = account ∧ p = q := by
      simp [usageRow,UsageRow.key]
    have hbytes : (usageRow p e).bytes d = e.bytes d := by
      cases d <;> rfl
    have hcons : adds (usageRows users p (e :: batch)) (utf16 account,q) d =
        (if (acceptedEntry e && known users e.account) = true ∧ e.account = account ∧ p = q
          then e.bytes d else 0)+adds (usageRows users p batch) (utf16 account,q) d := by
      by_cases hrow : (acceptedEntry e && known users e.account &&
          (0 < e.bytesUp || 0 < e.bytesDown)) = true
      · have hpass := (Bool.and_eq_true_iff.mp hrow).1
        rw [usageRows,List.filter_cons,if_pos hrow,List.map_cons,adds,List.map_cons,List.sum_cons,
          hbytes]
        simp only [hkey,hpass,true_and]
        rfl
      · have hzero : (acceptedEntry e && known users e.account) = true → e.bytes d = 0 := by
          intro hpass
          simp only [hpass,Bool.true_and,Bool.or_eq_true,decide_eq_true_eq] at hrow
          cases d <;> simp only [AccountBytes.bytes] <;> omega
        rw [usageRows,List.filter_cons,if_neg hrow]
        split
        · rename_i hcond
          rw [hzero hcond.1,Nat.zero_add]
          rfl
        · rw [Nat.zero_add]
          rfl
    rw [hcons,ih,List.filter_cons]
    by_cases haccept : acceptedEntry e = true
    · rw [if_pos haccept,inBatch_cons,haccept,Bool.true_and]
      by_cases haccount : e.account = account
      · subst haccount
        by_cases hcond : p = q ∧ known users e.account = true
        · simp [hcond]
        · rw [if_neg hcond,if_neg hcond,if_neg (by tauto)]
      · simp [haccount]
    · simp [haccept]

private theorem receive_events (hsecret : secret ≠ []) (db : Database)
    {requests : List (JsString × List ConnectionEvent)} (h : ∀ r ∈ requests, Produced r.2)
    (hlen : ∀ r ∈ requests, r.2.length ≤ 500)
    (hstore : ∀ r ∈ requests, ∀ e ∈ r.2, ∀ ref ∈ e.targetRef, storable (utf16 ref) = true) :
    receive secret db (requests.map fun r => (r.1,post secret (encodeEvents r.2))) =
      { db with
        auditEvent := db.auditEvent ++ eventRows db.users (requests.flatMap Prod.snd) } := by
  induction requests generalizing db with
  | nil => simp [receive,eventRows]
  | cons r requests ih =>
    have hall : (eventRows db.users r.2).all (fun row => row.targetRef.all storable) = true := by
      rw [List.all_eq_true]
      intro row hrow
      obtain ⟨e,he,rfl⟩ := List.mem_map.mp hrow
      cases href : e.targetRef with
      | none => simp [timelineRow,href]
      | some ref =>
        have hfit := hstore r (by simp) e (List.mem_of_mem_filter he) ref href
        simp [timelineRow,href,hfit]
    have hstep := POST_events hsecret r.1 db (h r (by simp)) (hlen r (by simp))
    rw [if_pos hall] at hstep
    have hrest := ih { db with auditEvent := db.auditEvent ++ eventRows db.users r.2 }
      (fun x hx => h x (by simp [hx])) (fun x hx => hlen x (by simp [hx]))
      (fun x hx => hstore x (by simp [hx]))
    rw [receive,List.map_cons,List.foldl_cons,hstep]
    rw [receive] at hrest
    rw [hrest]
    simp [eventRows,List.filter_append]

private theorem handledIn_cons {α : Type} (p : JsString) (r : JsString × List α)
    (requests : List (JsString × List α)) :
    handledIn p (r :: requests) = (if r.1 = p then r.2 else []) ++ handledIn p requests := by
  by_cases hp : r.1 = p <;> simp [handledIn,hp]

/-- The stored totals have room for what the accepted ones of the entries say. -/
def Room (db : Database) (batch : List AccountBytes) : Prop :=
  ∀ e ∈ batch, acceptedEntry e = true → ∀ p d,
    db.stored (utf16 e.account) p d+inBatch e.account d (batch.filter acceptedEntry) < 2^63

private theorem stored_upsert {db : Database} {usage : Table UsageRow.key} {period : JsString}
    {batch : List AccountBytes} (h : upsert db.relayUsage (usageRows db.users period batch) = some usage)
    (account : String) (p : JsString) (d : Direction) :
    Database.stored { db with relayUsage := usage } (utf16 account) p d =
      db.stored (utf16 account) p d+if period = p ∧ known db.users account = true
        then inBatch account d (batch.filter acceptedEntry) else 0 := by
  rw [Database.stored,upsert_some h,adds_usageRows]
  rfl

private theorem upsert_of_room {db : Database} {period : JsString} {xs ys : List AccountBytes}
    (h : Room db (xs ++ ys)) : ∃ usage, upsert db.relayUsage (usageRows db.users period xs) = some usage := by
  apply upsert_fits
  intro row hrow d
  obtain ⟨e,he,rfl⟩ := List.mem_map.mp hrow
  have haccept : acceptedEntry e = true := by
    have hpass := List.of_mem_filter he
    simp only [Bool.and_eq_true] at hpass
    exact hpass.1.1
  have hsum := h e (List.mem_append_left _ (List.mem_of_mem_filter he)) haccept period d
  have hadds := adds_usageRows db.users period period e.account d xs
  rw [List.filter_append,inBatch_append] at hsum
  rw [show (usageRow period e).key = (utf16 e.account,period) from rfl,hadds]
  rw [Database.stored] at hsum
  split <;> omega

private theorem room_upsert {db : Database} {usage : Table UsageRow.key} {period : JsString}
    {xs ys : List AccountBytes} (h : Room db (xs ++ ys))
    (hupsert : upsert db.relayUsage (usageRows db.users period xs) = some usage) :
    Room { db with relayUsage := usage } ys := by
  intro e he haccept p d
  have hsum := h e (List.mem_append_right _ he) haccept p d
  rw [List.filter_append,inBatch_append] at hsum
  rw [stored_upsert hupsert]
  split <;> omega

/-- Requests with entries leave the rest alone and add nothing to unknown accounts. If there is room
they add to the totals of the periods in which they are handled. -/
private theorem receive_entries (hsecret : secret ≠ []) (db : Database)
    {requests : List (JsString × List AccountBytes)}
    (h : ∀ r ∈ requests, ∀ e ∈ r.2, IssuedSubject e.account)
    (hone : ((requests.flatMap Prod.snd).map AccountBytes.account).Nodup)
    (hlen : ∀ r ∈ requests, r.2.length ≤ 500) :
    ∃ usage, receive secret db (requests.map fun r => (r.1,post secret (encodeBatch r.2))) =
      { db with relayUsage := usage } ∧
      (∀ account, known db.users account = false → ∀ p d,
        usage.at? (utf16 account,p) (·.bytes d) = db.stored (utf16 account) p d) ∧
      (Room db (requests.flatMap Prod.snd) → ∀ account, known db.users account = true → ∀ p d,
        usage.at? (utf16 account,p) (·.bytes d) = db.stored (utf16 account) p d+
          inBatch account d ((handledIn p requests).filter acceptedEntry)) := by
  induction requests generalizing db with
  | nil =>
    refine ⟨db.relayUsage,rfl,fun _ _ _ _ => rfl,?_⟩
    intro _ account _ p d
    simp [handledIn,inBatch,Database.stored]
  | cons r requests ih =>
    rw [List.flatMap_cons] at hone ⊢
    rw [List.map_append,List.nodup_append] at hone
    have hstep := POST_entries hsecret r.1 db (h r (by simp)) hone.1 (hlen r (by simp))
    have hrest := fun db' => ih db' (fun x hx => h x (by simp [hx])) hone.2.1
      (fun x hx => hlen x (by simp [hx]))
    cases hupsert : upsert db.relayUsage (usageRows db.users r.1 r.2) with
    | none =>
      rw [hupsert,Option.elim_none] at hstep
      obtain ⟨usage,hrun,hunknown,-⟩ := hrest db
      refine ⟨usage,?_,hunknown,?_⟩
      · rw [receive,List.map_cons,List.foldl_cons,hstep]
        exact hrun
      · intro hroom
        obtain ⟨usage,hsome⟩ := upsert_of_room hroom
        rw [hupsert] at hsome
        cases hsome
    | some added =>
      rw [hupsert,Option.elim_some] at hstep
      obtain ⟨usage,hrun,hunknown,htotal⟩ := hrest { db with relayUsage := added }
      refine ⟨usage,?_,?_,?_⟩
      · rw [receive,List.map_cons,List.foldl_cons,hstep]
        exact hrun
      · intro account hnot p d
        rw [hunknown account hnot,stored_upsert hupsert,hnot]
        simp
      · intro hroom account hknown p d
        rw [htotal (room_upsert hroom hupsert) account hknown,stored_upsert hupsert,handledIn_cons,
          List.filter_append,inBatch_append]
        by_cases hp : r.1 = p
        · simp only [hp,hknown,and_self,if_true]
          omega
        · simp only [hp,false_and,if_false,List.filter_nil]
          simp [inBatch]

private theorem produced_queue {calls : List Call} (h : ∀ c ∈ calls, c.Issued) :
    Produced (queue calls).drain.1 := by
  intro e he
  obtain ⟨c,hc,hevent⟩ := exists_call he
  exact ⟨c,h c hc,hevent⟩

private theorem zip_map_snd {α : Type} {clock : List JsString} {xs : List α}
    (h : clock.length = xs.length) : (clock.zip xs).map Prod.snd = xs :=
  List.map_snd_zip (Nat.le_of_eq h.symm)

private theorem flatMap_zip_chunks {α : Type} {clock : List JsString} {xs : List α}
    (h : clock.length = (chunks Reporter.MAX_ENTRIES_PER_BATCH xs).length) :
    (clock.zip (chunks Reporter.MAX_ENTRIES_PER_BATCH xs)).flatMap Prod.snd = xs := by
  rw [List.flatMap_def,zip_map_snd h]
  exact flatten_chunks (by decide) xs

private theorem mem_chunks_of_zip {α : Type} {clock : List JsString} {xs : List α}
    {r : JsString × List α} (h : r ∈ clock.zip (chunks Reporter.MAX_ENTRIES_PER_BATCH xs)) :
    r.2.length ≤ 500 ∧ ∀ x ∈ r.2, x ∈ xs := by
  have hmem := (List.of_mem_zip h).2
  refine ⟨length_of_mem_chunks hmem,?_⟩
  intro x hx
  rw [← flatten_chunks (by decide : 0 < Reporter.MAX_ENTRIES_PER_BATCH) xs]
  exact List.mem_flatten.mpr ⟨_,hmem,hx⟩

private theorem timeline_rows {account : String} {users : List JsString}
    (events : List ConnectionEvent) :
    (eventRows users events).filter (fun r => r.userId == utf16 account) =
      (events.filter fun e => e.subject == account && accepted e && known users e.subject).map
        timelineRow := by
  rw [eventRows,List.filter_map,List.filter_filter]
  congr 1
  apply List.filter_congr
  intro e _
  have hname : (utf16 e.subject == utf16 account) = (e.subject == account) := by
    rw [Bool.eq_iff_iff]
    simp
  rw [Function.comp_apply,timelineRow,hname,Bool.and_assoc]

private theorem accepted_of_known {account : String} {users : List JsString}
    (h : known users account = true) (events : List ConnectionEvent) :
    (events.filter fun e => e.subject == account && accepted e && known users e.subject) =
      events.filter fun e => e.subject == account && accepted e := by
  apply List.filter_congr
  intro e _
  by_cases hsubject : e.subject = account
  · simp [hsubject,h]
  · simp [hsubject]

private theorem accepted_of_unknown {account : String} {users : List JsString}
    (h : known users account = false) (events : List ConnectionEvent) :
    (events.filter fun e => e.subject == account && accepted e && known users e.subject) = [] := by
  rw [List.filter_eq_nil_iff]
  intro e _ hpass
  simp only [Bool.and_eq_true,beq_iff_eq] at hpass
  rw [hpass.1.1,h] at hpass
  exact absurd hpass.2 Bool.false_ne_true

private theorem zip_flush {batch : List AccountBytes} {events : List ConnectionEvent}
    {clock : List JsString} (hclock : clock.length = (flush (some secret) batch events).length) :
    let sent := chunks Reporter.MAX_ENTRIES_PER_BATCH events
    let reported := chunks Reporter.MAX_ENTRIES_PER_BATCH batch
    (clock.take sent.length).length = sent.length ∧
      (clock.drop sent.length).length = reported.length ∧
      clock.zip (flush (some secret) batch events) =
        ((clock.take sent.length).zip sent).map (fun r => (r.1,post secret (encodeEvents r.2))) ++
          ((clock.drop sent.length).zip reported).map
            (fun r => (r.1,post secret (encodeBatch r.2))) := by
  intro sent reported
  have hlen : clock.length = sent.length+reported.length := by
    rw [hclock,flush,List.length_append,List.length_map,List.length_map]
  have hsent : (clock.take sent.length).length = sent.length := by
    rw [List.length_take]
    omega
  have hreported : (clock.drop sent.length).length = reported.length := by
    rw [List.length_drop]
    omega
  refine ⟨hsent,hreported,?_⟩
  have hcut : (clock.take sent.length).length =
      (sent.map fun chunk => post secret (encodeEvents chunk)).length := by
    rw [hsent,List.length_map]
  conv_lhs => rw [← List.take_append_drop sent.length clock]
  rw [flush,List.zip_append hcut,List.zip_map_right,List.zip_map_right]
  rfl

/-- What the requests of a flush leave in the database. -/
private theorem receive_flush (hsecret : secret ≠ []) (db : Database)
    {batch : List AccountBytes} {events : List ConnectionEvent} {clock : List JsString}
    (hproduced : Produced events)
    (hrefs : ∀ e ∈ events, ∀ ref ∈ e.targetRef, storable (utf16 ref) = true)
    (hbatch : ∀ e ∈ batch, IssuedSubject e.account)
    (hone : (batch.map AccountBytes.account).Nodup)
    (hclock : clock.length = (flush (some secret) batch events).length) :
    ∃ usage, receive secret db (clock.zip (flush (some secret) batch events)) =
      { db with auditEvent := db.auditEvent ++ eventRows db.users events, relayUsage := usage } ∧
      (∀ account, known db.users account = false → ∀ p d,
        usage.at? (utf16 account,p) (·.bytes d) = db.stored (utf16 account) p d) ∧
      (Room db batch → ∀ account, known db.users account = true → ∀ p d,
        usage.at? (utf16 account,p) (·.bytes d) = db.stored (utf16 account) p d+
          inBatch account d ((handledIn p
            ((clock.drop (chunks Reporter.MAX_ENTRIES_PER_BATCH events).length).zip
              (chunks Reporter.MAX_ENTRIES_PER_BATCH batch))).filter acceptedEntry)) := by
  obtain ⟨hsent,hreported,hzip⟩ := zip_flush hclock
  set sent := chunks Reporter.MAX_ENTRIES_PER_BATCH events
  set reported := chunks Reporter.MAX_ENTRIES_PER_BATCH batch
  have hevents := receive_events hsecret db
    (fun r (hr : r ∈ (clock.take sent.length).zip sent) e he =>
      hproduced e ((mem_chunks_of_zip hr).2 e he))
    (fun r hr => (mem_chunks_of_zip hr).1)
    (fun r hr e he => hrefs e ((mem_chunks_of_zip hr).2 e he))
  rw [flatMap_zip_chunks hsent] at hevents
  have hflat : ((clock.drop sent.length).zip reported).flatMap Prod.snd = batch :=
    flatMap_zip_chunks hreported
  obtain ⟨usage,hrun,hunknown,htotal⟩ := receive_entries hsecret
    { db with auditEvent := db.auditEvent ++ eventRows db.users events }
    (fun r (hr : r ∈ (clock.drop sent.length).zip reported) e he =>
      hbatch e ((mem_chunks_of_zip hr).2 e he))
    (by rwa [hflat]) (fun r hr => (mem_chunks_of_zip hr).1)
  rw [hflat] at htotal
  refine ⟨usage,?_,hunknown,htotal⟩
  rw [hzip,receive,List.foldl_append]
  rw [receive] at hevents hrun
  rw [hevents,hrun]

/-- Every event and every entry of a flush is read as it was written and let through exactly below
the ceilings, and what is let through is in the timelines and the totals of its accounts. -/
theorem flush_recorded {secret : Text} (hsecret : secret ≠ []) {db : Database}
    {calls : List Call} {batch : List AccountBytes} {clock : List JsString}
    (hcalls : ∀ c ∈ calls, c.Issued)
    (hrefs : ∀ c ∈ calls, ∀ ref ∈ c.event.targetRef, storable (utf16 ref) = true)
    (hbatch : ∀ e ∈ batch, IssuedSubject e.account)
    (hone : (batch.map AccountBytes.account).Nodup)
    (hclock : clock.length = (flush (some secret) batch (queue calls).drain.1).length) :
    let events := (queue calls).drain.1
    let sent := chunks Reporter.MAX_ENTRIES_PER_BATCH events
    let reported := chunks Reporter.MAX_ENTRIES_PER_BATCH batch
    let db' := receive secret db (clock.zip (flush (some secret) batch events))
    ((∀ chunk ∈ sent, Json.parse (encodeEvents chunk) =
        some (.object [(utf16 "events",.array (chunk.map received))])) ∧
      ∀ e ∈ events, isRelayConnectionEvent (received e) = accepted e ∧
        (accepted e = true → Carries (received e) e)) ∧
    ((∀ chunk ∈ reported, Json.parse (encodeBatch chunk) =
        some (.object [(utf16 "entries",.array (chunk.map receivedEntry))])) ∧
      ∀ e ∈ batch, isRelayUsageEntry (receivedEntry e) = acceptedEntry e ∧
        (acceptedEntry e = true → CarriesEntry (receivedEntry e) e)) ∧
    ∀ account : String,
      (known db.users account = true →
        db'.timeline (utf16 account) = db.timeline (utf16 account) ++
          (events.filter fun e => e.subject == account && accepted e).map timelineRow ∧
        (Room db batch → ∀ p d, db'.stored (utf16 account) p d = db.stored (utf16 account) p d+
          inBatch account d
            ((handledIn p ((clock.drop sent.length).zip reported)).filter acceptedEntry))) ∧
      (known db.users account = false →
        db'.timeline (utf16 account) = db.timeline (utf16 account) ∧
        ∀ p d, db'.stored (utf16 account) p d = db.stored (utf16 account) p d) := by
  intro events sent reported db'
  have hproduced : Produced events := produced_queue hcalls
  refine ⟨⟨fun chunk _ => parse_encodeEvents chunk,?_⟩,
    ⟨fun chunk _ => parse_encodeBatch chunk,?_⟩,?_⟩
  · intro e he
    obtain ⟨c,hc,hevent⟩ := hproduced e he
    exact ⟨hevent ▸ isRelayConnectionEvent_received hc,carries_received⟩
  · intro e he
    exact ⟨isRelayUsageEntry_received (hbatch e he),carriesEntry_received⟩
  have hstorable : ∀ e ∈ events, ∀ ref ∈ e.targetRef, storable (utf16 ref) = true := by
    intro e he
    obtain ⟨c,hc,rfl⟩ := exists_call he
    exact hrefs c hc
  obtain ⟨usage,hfinal,hunknown,htotal⟩ :=
    receive_flush hsecret db hproduced hstorable hbatch hone hclock
  have hfinal' : db' = { db with
      auditEvent := db.auditEvent ++ eventRows db.users events, relayUsage := usage } := hfinal
  intro account
  have htimeline : db'.timeline (utf16 account) = db.timeline (utf16 account) ++
      (events.filter fun e => e.subject == account && accepted e &&
        known db.users e.subject).map timelineRow := by
    rw [hfinal',Database.timeline,List.filter_append,timeline_rows]
    rfl
  constructor
  · intro hknown
    constructor
    · rw [htimeline,accepted_of_known hknown]
    · intro hroom p d
      rw [hfinal']
      exact htotal hroom account hknown p d
  · intro hknown
    constructor
    · rw [htimeline,accepted_of_unknown hknown,List.map_nil,List.append_nil]
    · intro p d
      rw [hfinal']
      exact hunknown account hknown p d

private def signedIn (id : String) : Token.Request where
  user := some id
  cookie := none
  randomUUID := "00000000-0000-4000-8000-000000000000"
  limited := false
  secret := none
  body := none
  usage := none
  owned := []
  now := ⟨0,by omega⟩

private theorem proper_signedIn {id : String} (h : IsUserId id) : Proper (signedIn id) := by
  have huuid : Token.isAnon "00000000-0000-4000-8000-000000000000" = true := by decide
  refine ⟨?_,huuid⟩
  intro x hx
  obtain rfl := Option.some.inj hx
  exact h

private theorem issued_u : IssuedSubject "u" :=
  ⟨signedIn "u",proper_signedIn ⟨by decide,by decide,by decide⟩,rfl⟩

private theorem issued_v : IssuedSubject "v" :=
  ⟨signedIn "v",proper_signedIn ⟨by decide,by decide,by decide⟩,rfl⟩

private def someUsers : Database := ⟨[utf16 "u",utf16 "v"],[],Table.empty _⟩

theorem flush_recorded_session :
    (receive ['s'] someUsers ([utf16 "2026-01",utf16 "2026-01"].zip (flush (some ['s'])
      [⟨"u",3,4⟩] (queue [.opened "u" none 22]).drain.1))).timeline (utf16 "u") =
        [timelineRow (Call.opened "u" none 22).event] := by
  have hcalls : ∀ c ∈ [Call.opened "u" none 22], c.Issued ∧
      ∀ ref ∈ c.event.targetRef, storable (utf16 ref) = true := by
    intro c hc
    obtain rfl := List.mem_singleton.mp hc
    exact ⟨⟨issued_u,nofun⟩,nofun⟩
  have hbatch : ∀ e ∈ [AccountBytes.mk "u" 3 4], IssuedSubject e.account := by
    intro e he
    obtain rfl := List.mem_singleton.mp he
    exact issued_u
  have hall := @flush_recorded ['s'] (by decide) someUsers _ _ [utf16 "2026-01",utf16 "2026-01"]
    (fun c hc => (hcalls c hc).1) (fun c hc => (hcalls c hc).2) hbatch (by decide) rfl
  exact ((hall.2.2 "u").1 (by decide)).1

/-- Every event is in its account's timeline and every byte in its total. -/
def RecordsAll (secret : Text) (period : JsString) (db : Database) (calls : List Call)
    (batch : List AccountBytes) : Prop :=
  ∀ account, known db.users account = true →
    let db' := receive secret db
      ((flush (some secret) batch (queue calls).drain.1).map fun p => (period,p))
    db'.timeline (utf16 account) = db.timeline (utf16 account) ++
      ((queue calls).drain.1.filter fun e => e.subject == account).map timelineRow ∧
    ∀ d, db'.stored (utf16 account) period d =
      db.stored (utf16 account) period d+inBatch account d batch

private theorem not_recordsAll_of_events {period : JsString} {calls : List Call} (account : String)
    (hflush : flush (some ['s']) [] (queue calls).drain.1 =
      [post ['s'] (encodeEvents (calls.map Call.event))])
    (hcalls : ∀ c ∈ calls, c.Issued) (hlen : calls.length ≤ 500)
    (hknown : known someUsers.users account = true)
    (hmine : ((queue calls).drain.1.filter fun e => e.subject == account) ≠ [])
    (hlost : (eventRows someUsers.users (calls.map Call.event)).filter
      (fun r => r.userId == utf16 account) = [] ∨
      (eventRows someUsers.users (calls.map Call.event)).all
        (fun r => r.targetRef.all storable) = false) :
    ¬ RecordsAll ['s'] period someUsers calls [] := by
  intro hall
  have hproduced : Produced (calls.map Call.event) := by
    intro e he
    obtain ⟨c,hc,rfl⟩ := List.mem_map.mp he
    exact ⟨c,hcalls c hc,rfl⟩
  have hpost := POST_events (by decide : ['s'] ≠ []) period someUsers hproduced
    (by rwa [List.length_map])
  have htimeline := (hall account hknown).1
  rw [hflush] at htimeline
  simp only [List.map_cons,List.map_nil,receive,List.foldl_cons,List.foldl_nil,hpost] at htimeline
  apply hmine
  rw [← @List.map_eq_nil_iff _ _ timelineRow]
  split at htimeline
  · rename_i hstore
    rcases hlost with hlost | hlost
    · rw [Database.timeline,List.filter_append,hlost] at htimeline
      exact (List.append_cancel_left htimeline).symm
    · rw [hlost] at hstore
      exact absurd hstore Bool.false_ne_true
  · exact (List.append_cancel_left ((List.append_nil _).trans htimeline)).symm

private theorem not_recordsAll_of_entries {db : Database} {period : JsString} {e : AccountBytes}
    (hflush : flush (some ['s']) [e] [] = [post ['s'] (encodeBatch [e])])
    (hsubject : IssuedSubject e.account) (hknown : known db.users e.account = true)
    (hbytes : e.bytesUp ≠ 0)
    (hlost : upsert db.relayUsage (usageRows db.users period [e]) = none ∨
      usageRows db.users period [e] = []) : ¬ RecordsAll ['s'] period db [] [e] := by
  intro hall
  have hbatch : ∀ x ∈ [e], IssuedSubject x.account := by
    intro x hx
    obtain rfl := List.mem_singleton.mp hx
    exact hsubject
  have hpost := POST_entries (by decide : ['s'] ≠ []) period db hbatch (by simp) (by simp)
  have hsame : (upsert db.relayUsage (usageRows db.users period [e])).elim db
      (fun usage => { db with relayUsage := usage }) = db := by
    rcases hlost with hlost | hlost
    · rw [hlost,Option.elim_none]
    · rw [hlost]
      rfl
  rw [hsame] at hpost
  have hstored := (hall e.account hknown).2 .up
  have hqueue : (queue []).drain.1 = [] := rfl
  rw [hqueue,hflush] at hstored
  simp only [List.map_cons,List.map_nil,receive,List.foldl_cons,List.foldl_nil,hpost] at hstored
  have hin : inBatch e.account .up [e] = e.bytesUp := by simp [inBatch,AccountBytes.bytes]
  omega

private def fullUsers : Database :=
  { someUsers with relayUsage := ⟨[⟨utf16 "u",utf16 "2026-01",2^63-1,0⟩],by simp⟩ }

/-- A terabyte in one session, port 0, a reference with a zero in it, a petabyte and a byte in one
window, and a total at the end of its column. -/
theorem flush_not_all_recorded :
    ((∀ c ∈ [Call.closed "u" none 22 1000000000000 0 1000], c.Issued) ∧
      ¬ RecordsAll ['s'] (utf16 "2026-01") someUsers
        [.closed "u" none 22 1000000000000 0 1000] []) ∧
    ((∀ c ∈ [Call.opened "u" none 0], c.Issued) ∧
      ¬ RecordsAll ['s'] (utf16 "2026-01") someUsers [.opened "u" none 0] []) ∧
    ((∀ c ∈ [Call.opened "u" (some "\x00") 22,.opened "v" none 22], c.Issued) ∧
      ¬ RecordsAll ['s'] (utf16 "2026-01") someUsers
        [.opened "u" (some "\x00") 22,.opened "v" none 22] []) ∧
    (IssuedSubject "u" ∧
      ¬ RecordsAll ['s'] (utf16 "2026-01") someUsers [] [⟨"u",1000000000000001,0⟩]) ∧
    ¬ RecordsAll ['s'] (utf16 "2026-01") fullUsers [] [⟨"u",1,0⟩] := by
  have hclosed : ∀ c ∈ [Call.closed "u" none 22 1000000000000 0 1000], c.Issued := by
    intro c hc
    obtain rfl := List.mem_singleton.mp hc
    exact ⟨issued_u,nofun⟩
  have hport : ∀ c ∈ [Call.opened "u" none 0], c.Issued := by
    intro c hc
    obtain rfl := List.mem_singleton.mp hc
    exact ⟨issued_u,nofun⟩
  have hzero : ∀ c ∈ [Call.opened "u" (some "\x00") 22,.opened "v" none 22], c.Issued := by
    intro c hc
    rcases List.mem_cons.mp hc with rfl | hc
    · refine ⟨issued_u,?_⟩
      intro ref href
      obtain rfl := Option.some.inj href
      exact ⟨.obj [("ref",.str "\x00")],by decide⟩
    · obtain rfl := List.mem_singleton.mp hc
      exact ⟨issued_v,nofun⟩
  refine ⟨⟨hclosed,?_⟩,⟨hport,?_⟩,⟨hzero,?_⟩,⟨issued_u,?_⟩,?_⟩
  · exact not_recordsAll_of_events "u" rfl hclosed (by simp) (by decide) (by decide)
      (Or.inl (by decide))
  · exact not_recordsAll_of_events "u" rfl hport (by simp) (by decide) (by decide)
      (Or.inl (by decide))
  · exact not_recordsAll_of_events "v" rfl hzero (by simp) (by decide) (by decide)
      (Or.inr (by decide))
  · exact not_recordsAll_of_entries rfl issued_u (by decide) (by decide) (Or.inr (by decide))
  · exact not_recordsAll_of_entries rfl issued_u (by decide) (by decide) (Or.inl (by decide))

end WeirdVault.Relay.Reported
