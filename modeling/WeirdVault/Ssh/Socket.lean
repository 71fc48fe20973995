import WeirdVault.Framework.Runs

/-!
# The browser socket as a stream

`wsConn`, opened, in steps that other goroutines may come between. Go gives the event loop its turn
only when every goroutine waits, so that no event comes between the beginning and the end of another
or of `Close`, which takes the handlers away; and a socket that is closing delivers no messages.
-/

namespace WeirdVault.Ssh.Socket

open WeirdVault.Framework

abbrev Bytes := List UInt8

/-- `nil` or `errConnClosed`, or what the relay said. -/
abbrev CloseErr := Option String

/-- Where `Read` is: not called, before the lock, at the `select`, or behind a closed channel. -/
inductive Phase where
  | idle
  | looking (size : Nat)
  | selecting (size : Nat)
  | draining (size : Nat)
  deriving DecidableEq

def Phase.looks : Phase → Bool
  | .looking _ => true
  | _ => false

def Phase.selects : Phase → Bool
  | .selecting _ => true
  | _ => false

def Phase.drains : Phase → Bool
  | .draining _ => true
  | _ => false

inductive ReadError where
  | eof
  | reason (text : String)
  deriving DecidableEq

inductive Result where
  | bytes (b : Bytes)
  | error (e : ReadError)
  deriving DecidableEq

structure Conn where
  buf : Bytes
  notify : Bool
  closed : Option CloseErr
  reader : Phase
  /-- An event handler has yet to signal. -/
  handler : Bool
  /-- Calls of `Close` that have yet to signal. -/
  closing : Nat
  received : Bytes
  results : List Result
  deriving DecidableEq

def Conn.dialed : Conn := ⟨[],false,none,.idle,false,0,[],[]⟩

inductive Action where
  | message (data : Bytes)
  | error
  | closeEvent (reason : String)
  | signal
  | close
  | closeSignal
  | read (size : Nat)
  | look
  | woken
  | sawClosed
  | drain
  deriving DecidableEq

/-- What can come next: an event, a signal that is due, or a step of the one reader. -/
def Enabled (s : Conn) : Action → Prop
  | .message _ => s.handler = false ∧ s.closed = none
  | .error => s.handler = false
  | .closeEvent _ => s.handler = false ∧ s.closed = none
  | .signal => s.handler = true
  | .close => True
  | .closeSignal => 0 < s.closing
  | .read size => s.reader = .idle ∧ 0 < size
  | .look => s.reader.looks
  | .woken => s.notify = true ∧ s.reader.selects
  | .sawClosed => s.closed.isSome ∧ s.reader.selects
  | .drain => s.reader.drains

instance (s : Conn) : (a : Action) → Decidable (Enabled s a)
  | .message _ => inferInstanceAs (Decidable (s.handler = false ∧ s.closed = none))
  | .error => inferInstanceAs (Decidable (s.handler = false))
  | .closeEvent _ => inferInstanceAs (Decidable (s.handler = false ∧ s.closed = none))
  | .signal => inferInstanceAs (Decidable (s.handler = true))
  | .close => .isTrue trivial
  | .closeSignal => inferInstanceAs (Decidable (0 < s.closing))
  | .read size => inferInstanceAs (Decidable (s.reader = .idle ∧ 0 < size))
  | .look => inferInstanceAs (Decidable (s.reader.looks = true))
  | .woken => inferInstanceAs (Decidable (s.notify = true ∧ s.reader.selects = true))
  | .sawClosed => inferInstanceAs (Decidable (s.closed.isSome = true ∧ s.reader.selects = true))
  | .drain => inferInstanceAs (Decidable (s.reader.drains = true))

def Conn.shutdown (s : Conn) (err : CloseErr) : Conn :=
  { s with closed := if s.closed.isSome then s.closed else some err }

/-- `c.buf.Read(p)` and the return from `Read`. -/
def Conn.take (s : Conn) (size : Nat) : Conn :=
  { s with
    buf := s.buf.drop size
    reader := .idle
    results := s.results ++ [.bytes (s.buf.take size)] }

def readError (closed : Option CloseErr) : ReadError :=
  match closed with
  | some (some reason) => .reason reason
  | _ => .eof

/-- An empty message is dropped, an error event behind the open event left to the close event. -/
def step (s : Conn) : Action → Conn
  | .message data =>
    if data = [] then s
    else { s with buf := s.buf ++ data, received := s.received ++ data, handler := true }
  | .error => s
  | .closeEvent reason =>
    { s.shutdown (if reason = "" then none else some reason) with handler := true }
  | .signal => { s with notify := true, handler := false }
  | .close => { s.shutdown none with closing := s.closing+1 }
  | .closeSignal => { s with notify := true, closing := s.closing-1 }
  | .read size => { s with reader := .looking size }
  | .look =>
    match s.reader with
    | .looking size => if s.buf ≠ [] then s.take size else { s with reader := .selecting size }
    | _ => s
  | .woken =>
    match s.reader with
    | .selecting size => { s with notify := false, reader := .looking size }
    | _ => s
  | .sawClosed =>
    match s.reader with
    | .selecting size => { s with reader := .draining size }
    | _ => s
  | .drain =>
    match s.reader with
    | .draining size =>
      if s.buf ≠ [] then s.take size
      else { s with reader := .idle, results := s.results ++ [.error (readError s.closed)] }
    | _ => s

theorem exists_of_looks {p : Phase} (h : p.looks) : ∃ size, p = .looking size := by
  cases p with
  | looking size => exact ⟨size,rfl⟩
  | idle => cases h
  | selecting => cases h
  | draining => cases h

theorem exists_of_selects {p : Phase} (h : p.selects) : ∃ size, p = .selecting size := by
  cases p with
  | selecting size => exact ⟨size,rfl⟩
  | idle => cases h
  | looking => cases h
  | draining => cases h

theorem exists_of_drains {p : Phase} (h : p.drains) : ∃ size, p = .draining size := by
  cases p with
  | draining size => exact ⟨size,rfl⟩
  | idle => cases h
  | looking => cases h
  | selecting => cases h

def Result.bytes? : Result → Bytes
  | .bytes b => b
  | .error _ => []

def returned (results : List Result) : Bytes := results.flatMap Result.bytes?

/-- Bytes first, none of them empty, and then one error over and over. -/
def Ends (results : List Result) (e : ReadError) (n : Nat) : Prop :=
  ∃ bs : List Bytes, [] ∉ bs ∧ results = bs.map .bytes ++ List.replicate n (.error e)

structure Inv (s : Conn) : Prop where
  stream : returned s.results ++ s.buf = s.received
  order : ∃ n, Ends s.results (readError s.closed) n ∧ (0 < n → s.closed.isSome ∧ s.buf = [])
  /-- Nobody waits for bytes that are there without a token, or without a signal that is due. -/
  wake : ∀ size, s.reader = .selecting size → s.buf ≠ [] → s.notify = true ∨ s.handler = true
  positive : ∀ size, s.reader = .looking size ∨ s.reader = .selecting size ∨
    s.reader = .draining size → 0 < size
  drained : ∀ size, s.reader = .draining size → s.closed.isSome

private theorem inv_dialed : Inv .dialed where
  stream := rfl
  order := ⟨0,⟨[],by simp,rfl⟩,by simp⟩
  wake := by simp [Conn.dialed]
  positive := by simp [Conn.dialed]
  drained := by simp [Conn.dialed]

private theorem Inv.take {s : Conn} (h : Inv s) {size : Nat} (hsize : 0 < size) (hbuf : s.buf ≠ []) :
    Inv (s.take size) := by
  obtain ⟨n,⟨bs,hfull,hresults⟩,hend⟩ := h.order
  have hnone : n = 0 := by
    by_contra hn
    exact hbuf (hend (by omega)).2
  subst hnone
  have hsome : s.buf.take size ≠ [] := by
    rw [ne_eq,List.take_eq_nil_iff]
    rintro (hzero | hnil)
    · omega
    · exact hbuf hnil
  constructor
  · simp only [Conn.take,returned,List.flatMap_append,List.flatMap_singleton,Result.bytes?,
      List.append_assoc,List.take_append_drop]
    exact h.stream
  · refine ⟨0,⟨bs ++ [s.buf.take size],?_,?_⟩,by simp⟩
    · simpa [hfull] using hsome
    · simp [Conn.take,hresults]
  · simp [Conn.take]
  · simp [Conn.take]
  · simp [Conn.take]

private theorem isSome_shutdown (s : Conn) (err : CloseErr) : (s.shutdown err).closed.isSome := by
  rw [Conn.shutdown]
  dsimp only
  split
  · assumption
  · rfl

private theorem Inv.shutdown {s : Conn} (h : Inv s) (err : CloseErr) : Inv (s.shutdown err) := by
  obtain ⟨n,⟨bs,hfull,hresults⟩,hend⟩ := h.order
  refine ⟨h.stream,⟨n,⟨bs,hfull,?_⟩,?_⟩,h.wake,h.positive,fun _ _ => isSome_shutdown s err⟩
  · by_cases hn : n = 0
    · subst hn
      exact hresults
    · have hclosed := (hend (by omega)).1
      have hsame : (s.shutdown err).closed = s.closed := if_pos hclosed
      rw [hsame]
      exact hresults
  · intro hn
    exact ⟨isSome_shutdown s err,(hend hn).2⟩

theorem inv_step {s : Conn} {a : Action} (h : Inv s) (ha : Enabled s a) : Inv (step s a) := by
  cases a with
  | message data =>
    obtain ⟨-,hopen⟩ := ha
    rw [step]
    split
    · exact h
    · obtain ⟨n,hends,hend⟩ := h.order
      refine ⟨?_,⟨n,hends,?_⟩,fun _ _ _ => Or.inr rfl,h.positive,h.drained⟩
      · rw [← h.stream,List.append_assoc]
      · intro hn
        have hclosed := (hend hn).1
        rw [hopen] at hclosed
        cases hclosed
  | error => exact h
  | closeEvent reason =>
    have hshut := h.shutdown (if reason = "" then none else some reason)
    exact ⟨hshut.stream,hshut.order,fun _ _ _ => Or.inr rfl,hshut.positive,hshut.drained⟩
  | signal => exact ⟨h.stream,h.order,fun _ _ _ => Or.inl rfl,h.positive,h.drained⟩
  | close =>
    have hshut := h.shutdown none
    exact ⟨hshut.stream,hshut.order,hshut.wake,hshut.positive,hshut.drained⟩
  | closeSignal => exact ⟨h.stream,h.order,fun _ _ _ => Or.inl rfl,h.positive,h.drained⟩
  | read size =>
    refine ⟨h.stream,h.order,by simp [step],?_,by simp [step]⟩
    intro size' hreader
    simp only [step,Phase.looking.injEq,reduceCtorEq,or_false] at hreader
    have hsize := ha.2
    omega
  | look =>
    obtain ⟨size,hreader⟩ := exists_of_looks ha
    have hsize := h.positive size (Or.inl hreader)
    simp only [step,hreader]
    split
    · exact h.take hsize (by assumption)
    · rename_i hempty
      refine ⟨h.stream,h.order,?_,?_,by simp⟩
      · intro _ _ hbuf
        exact absurd hbuf hempty
      · intro size' hphase
        simp only [reduceCtorEq,Phase.selecting.injEq,false_or,or_false] at hphase
        omega
  | woken =>
    obtain ⟨size,hreader⟩ := exists_of_selects ha.2
    have hsize := h.positive size (Or.inr (Or.inl hreader))
    simp only [step,hreader]
    refine ⟨h.stream,h.order,by simp,?_,by simp⟩
    intro size' hphase
    simp only [Phase.looking.injEq,reduceCtorEq,or_false] at hphase
    omega
  | sawClosed =>
    obtain ⟨size,hreader⟩ := exists_of_selects ha.2
    have hsize := h.positive size (Or.inr (Or.inl hreader))
    simp only [step,hreader]
    refine ⟨h.stream,h.order,by simp,?_,fun _ _ => ha.1⟩
    intro size' hphase
    simp only [reduceCtorEq,Phase.draining.injEq,false_or] at hphase
    omega
  | drain =>
    obtain ⟨size,hreader⟩ := exists_of_drains ha
    have hsize := h.positive size (Or.inr (Or.inr hreader))
    simp only [step,hreader]
    split
    · exact h.take hsize (by assumption)
    · rename_i hempty
      obtain ⟨n,⟨bs,hfull,hresults⟩,-⟩ := h.order
      refine ⟨?_,⟨n+1,⟨bs,hfull,?_⟩,?_⟩,by simp,by simp,by simp⟩
      · simp only [returned,List.flatMap_append,List.flatMap_singleton,Result.bytes?,
          List.append_nil]
        exact h.stream
      · rw [hresults,List.append_assoc,List.replicate_succ']
      · intro _
        exact ⟨h.drained size hreader,not_not.mp hempty⟩

def Own (a : Action) : Prop := a = .look ∨ a = .woken ∨ a = .sawClosed ∨ a = .drain ∨ a = .signal

/-- How many steps a call can still take if nobody else moves. -/
def patience (s : Conn) : Nat :=
  3*s.handler.toNat+match s.reader with
  | .idle => 0
  | .looking _ => if s.buf = [] then 3+2*s.notify.toNat else 1
  | .selecting _ => 2+2*s.notify.toNat
  | .draining _ => 1

theorem patience_le (s : Conn) : patience s ≤ 8 := by
  have htoken : s.notify.toNat ≤ 1 := Bool.toNat_le s.notify
  have hdue : s.handler.toNat ≤ 1 := Bool.toNat_le s.handler
  rw [patience]
  split
  · omega
  · split
    · omega
    · omega
  · omega
  · omega

private theorem patience_take (s : Conn) (size : Nat) :
    patience (s.take size) = 3*s.handler.toNat := rfl

theorem patience_step {s : Conn} {a : Action} (hown : Own a) (ha : Enabled s a) :
    patience (step s a) < patience s := by
  rcases hown with rfl | rfl | rfl | rfl | rfl
  · obtain ⟨size,hreader⟩ := exists_of_looks ha
    simp only [step,hreader]
    split
    · rename_i hbuf
      rw [patience_take]
      simp [patience,hreader,hbuf]
    · rename_i hempty
      simp [patience,hreader,not_not.mp hempty]
  · obtain ⟨size,hreader⟩ := exists_of_selects ha.2
    have htoken : s.notify = true := ha.1
    simp only [step,hreader,patience,htoken,Bool.toNat_true,Bool.toNat_false]
    split
    · omega
    · omega
  · obtain ⟨size,hreader⟩ := exists_of_selects ha.2
    simp only [step,hreader,patience]
    omega
  · obtain ⟨size,hreader⟩ := exists_of_drains ha
    simp only [step,hreader]
    split
    · rw [patience_take]
      simp [patience,hreader]
    · simp [patience,hreader]
  · have htoken : s.notify.toNat ≤ 1 := Bool.toNat_le s.notify
    have hdue : s.handler = true := ha
    cases hreader : s.reader with
    | idle => simp [step,patience,hdue,hreader]
    | looking size =>
      by_cases hempty : s.buf = []
      · simp only [step,patience,hdue,hreader,hempty,if_true,Bool.toNat_true,Bool.toNat_false]
        omega
      · simp [step,patience,hdue,hreader,hempty]
    | selecting size =>
      simp only [step,patience,hdue,hreader,Bool.toNat_true,Bool.toNat_false]
      omega
    | draining size => simp [step,patience,hdue,hreader]

theorem Inv.goes_on {s : Conn} (h : Inv s) (hcalled : s.reader ≠ .idle)
    (hready : s.buf ≠ [] ∨ s.closed.isSome) : ∃ a, Own a ∧ Enabled s a := by
  cases hreader : s.reader with
  | idle => exact absurd hreader hcalled
  | looking size => exact ⟨.look,by simp [Own],by rw [Enabled,hreader]; rfl⟩
  | selecting size =>
    rcases hready with hbuf | hclosed
    · rcases h.wake size hreader hbuf with htoken | hdue
      · exact ⟨.woken,by simp [Own],htoken,by rw [hreader]; rfl⟩
      · exact ⟨.signal,by simp [Own],hdue⟩
    · exact ⟨.sawClosed,by simp [Own],hclosed,by rw [hreader]; rfl⟩
  | draining size => exact ⟨.drain,by simp [Own],by rw [Enabled,hreader]; rfl⟩

private theorem ready_step {s : Conn} {a : Action} (hown : Own a)
    (hready : s.buf ≠ [] ∨ s.closed.isSome) (hcalled : (step s a).reader ≠ .idle) :
    (step s a).buf ≠ [] ∨ (step s a).closed.isSome := by
  rcases hown with rfl | rfl | rfl | rfl | rfl
  · rw [step] at hcalled ⊢
    split
    · split
      · simp_all [Conn.take]
      · exact hready
    · exact hready
  · rw [step]
    split
    · exact hready
    · exact hready
  · rw [step]
    split
    · exact hready
    · exact hready
  · rw [step] at hcalled ⊢
    split
    · split
      · simp_all [Conn.take]
      · simp_all
    · exact hready
  · exact hready

theorem Inv.returns {s : Conn} (h : Inv s) (hready : s.buf ≠ [] ∨ s.closed.isSome) :
    ∃ as, (∀ a ∈ as, Own a) ∧ Along step Enabled s as ∧ (runActs step s as).reader = .idle := by
  induction hn : patience s using Nat.strongRecOn generalizing s with
  | _ n ih =>
    by_cases hidle : s.reader = .idle
    · exact ⟨[],by simp,trivial,hidle⟩
    · obtain ⟨a,hown,ha⟩ := h.goes_on hidle hready
      by_cases hreturned : (step s a).reader = .idle
      · exact ⟨[a],by simpa using hown,⟨ha,trivial⟩,hreturned⟩
      · obtain ⟨as,hall,hrun,hlast⟩ := ih _ (hn ▸ patience_step hown ha) (inv_step h ha)
          (ready_step hown hready hreturned) rfl
        exact ⟨a :: as,by simpa using ⟨hown,hall⟩,⟨ha,hrun⟩,hlast⟩

theorem length_le_patience {s : Conn} {as : List Action} (hown : ∀ a ∈ as, Own a)
    (h : Along step Enabled s as) : as.length ≤ patience s := by
  induction as generalizing s with
  | nil => exact Nat.zero_le _
  | cons a as ih =>
    have hrest := ih (fun a' ha' => hown a' (List.mem_cons_of_mem a ha')) h.2
    have hless := patience_step (hown a (by simp)) h.1
    rw [List.length_cons]
    omega

theorem conn_streams {as : List Action} (h : Along step Enabled .dialed as) :
    let s := runActs step .dialed as
    returned s.results ++ s.buf = s.received ∧
    (∃ n, Ends s.results (readError s.closed) n ∧
      (0 < n → s.closed.isSome ∧ returned s.results = s.received)) ∧
    (s.reader ≠ .idle → s.buf ≠ [] ∨ s.closed.isSome →
      (∃ a, Own a ∧ Enabled s a) ∧
      (∃ own, (∀ a ∈ own, Own a) ∧ Along step Enabled s own ∧
        (runActs step s own).reader = .idle) ∧
      ∀ own, (∀ a ∈ own, Own a) → Along step Enabled s own → own.length ≤ 8) := by
  intro s
  have hinv : Inv s := invariant_runActs Inv (fun _ _ hs ha => inv_step hs ha) inv_dialed h
  refine ⟨hinv.stream,?_,?_⟩
  · obtain ⟨n,hends,hend⟩ := hinv.order
    refine ⟨n,hends,?_⟩
    intro hn
    obtain ⟨hclosed,hempty⟩ := hend hn
    have hstream := hinv.stream
    rw [hempty,List.append_nil] at hstream
    exact ⟨hclosed,hstream⟩
  · intro hcalled hready
    refine ⟨hinv.goes_on hcalled hready,hinv.returns hready,?_⟩
    intro own hown hrun
    exact Nat.le_trans (length_le_patience hown hrun) (patience_le s)

/-- A message, a reason to close, and three calls. -/
theorem conn_streams_closed : returned (runActs step .dialed
    [.read 2,.look,.message [1,2,3],.signal,.woken,.look,.closeEvent "gone",.signal,
      .read 2,.look,.read 2,.look,.sawClosed,.drain]).results ++ [] = [1,2,3] :=
  (conn_streams (by decide)).1

end WeirdVault.Ssh.Socket
