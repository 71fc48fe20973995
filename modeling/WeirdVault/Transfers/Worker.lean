import WeirdVault.Framework.Runs
import WeirdVault.Transfers.Committed

/-!
# The service worker's channel

A download from the answered `download-start` on: the page, the worker, the browser that reads or
cancels the stream, and the caller that may abort, in steps that may come in any order.
-/

namespace WeirdVault.Transfers.Worker

open WeirdVault.Framework
open Tar (Bytes)
open Committed (Message)

inductive Reply where
  | ready
  | pull
  | cancelled
  deriving DecidableEq

/-- Where the page is: before `ready`, between two calls of the sink, at `await pulled`, behind a call
that threw, or behind `finally`, where the download call has resolved or rejected. -/
inductive Page where
  | starting
  | idle
  | waiting
  | threw
  | resolved
  | rejected
  deriving DecidableEq

/-- The stream from its controller's side. The worker has a handler while it is `readable`. -/
inductive Stream where
  | readable
  | closing
  | gone
  deriving DecidableEq

structure Channel where
  page : Page
  toWorker : List Message
  toPage : List Reply
  /-- What was enqueued and is not read. -/
  queue : List Bytes
  stream : Stream
  /-- What the remote file still gives, behind which reading it may fail. -/
  source : List Bytes
  fails : Bool
  aborted : Bool
  /-- The browser has cancelled a call that had not ended. -/
  cancelled : Bool
  deriving DecidableEq

def Channel.start (source : List Bytes) (fails : Bool) : Channel :=
  ⟨.starting,[],[.pull,.ready],[],.readable,source,fails,false,false⟩

inductive Action where
  | pageHears
  | workerHears
  | call
  | throwingCall
  | abortedCall
  | finish
  | abort
  | read
  | cancel
  deriving DecidableEq

def Channel.ended (s : Channel) : Bool := s.page = .resolved || s.page = .rejected

def Enabled (s : Channel) : Action → Prop
  | .pageHears => s.toPage ≠ []
  | .workerHears => s.toWorker ≠ []
  | .call => s.page = .idle ∧ s.source ≠ [] ∧ s.aborted = false
  | .throwingCall => s.page = .idle ∧ s.source ≠ [] ∧ s.aborted = false
  | .abortedCall => s.page = .idle ∧ s.source ≠ [] ∧ s.aborted = true
  | .finish => s.page = .idle ∧ s.source = [] ∨ s.page = .threw
  | .abort => s.aborted = false
  | .read => s.queue ≠ []
  | .cancel => s.page ≠ .starting ∧ (s.stream = .readable ∨ s.stream = .closing ∧ s.queue ≠ [])

instance (s : Channel) : (a : Action) → Decidable (Enabled s a)
  | .pageHears => inferInstanceAs (Decidable (s.toPage ≠ []))
  | .workerHears => inferInstanceAs (Decidable (s.toWorker ≠ []))
  | .call => inferInstanceAs (Decidable (s.page = .idle ∧ s.source ≠ [] ∧ s.aborted = false))
  | .throwingCall => inferInstanceAs (Decidable (s.page = .idle ∧ s.source ≠ [] ∧ s.aborted = false))
  | .abortedCall => inferInstanceAs (Decidable (s.page = .idle ∧ s.source ≠ [] ∧ s.aborted = true))
  | .finish => inferInstanceAs (Decidable (s.page = .idle ∧ s.source = [] ∨ s.page = .threw))
  | .abort => inferInstanceAs (Decidable (s.aborted = false))
  | .read => inferInstanceAs (Decidable (s.queue ≠ []))
  | .cancel => inferInstanceAs (Decidable
      (s.page ≠ .starting ∧ (s.stream = .readable ∨ s.stream = .closing ∧ s.queue ≠ [])))

/-- `port1.onmessage`. A pull that nothing waits for releases nothing, and a rejection of `ready` is
lost, which was resolved before. -/
def Page.hear (page : Page) : Reply → Page
  | .ready => if page = .starting then .idle else page
  | .pull => if page = .waiting then .idle else page
  | .cancelled => page

/-- The worker's handler, whose answer to a chunk does not ask whether the stream wants more. -/
def Channel.handle (s : Channel) : Message → Channel
  | .chunk b =>
    if s.stream = .readable then { s with queue := s.queue ++ [b], toPage := s.toPage ++ [.pull] }
    else s
  | .null => if s.stream = .readable then { s with stream := .closing } else s
  | .abort => if s.stream = .readable then { s with stream := .gone, queue := [] } else s

/-- The sink posts the next chunk and then waits for a pull or, in `onProgress`, throws. -/
def Channel.send (s : Channel) (page : Page) : Channel :=
  match s.source with
  | [] => s
  | chunk :: rest =>
    { s with page := page, toWorker := s.toWorker ++ [.chunk chunk], source := rest }

def step (s : Channel) : Action → Channel
  | .pageHears =>
    match s.toPage with
    | [] => s
    | reply :: rest => { s with page := s.page.hear reply, toPage := rest }
  | .workerHears =>
    match s.toWorker with
    | [] => s
    | m :: rest => { s with toWorker := rest }.handle m
  | .call => s.send .waiting
  | .throwingCall => s.send .threw
  | .abortedCall => { s with page := .threw, toWorker := s.toWorker ++ [.abort] }
  | .finish =>
    { s with
      page := if s.page = .threw ∨ s.fails then .rejected else .resolved
      toWorker := s.toWorker ++ [.null] }
  | .abort => { s with aborted := true }
  | .read => { s with queue := s.queue.drop 1 }
  | .cancel =>
    { s with
      stream := .gone, queue := [], toPage := s.toPage ++ [.cancelled]
      cancelled := s.cancelled || !s.ended }

def carries : Message → Bool
  | .chunk _ => true
  | _ => false

def Channel.between (s : Channel) : Nat := s.toWorker.countP carries + s.queue.length

@[simp] theorem ended_iff {s : Channel} :
    s.ended = true ↔ s.page = .resolved ∨ s.page = .rejected := by
  simp [Channel.ended]

theorem send_eq {s : Channel} (page : Page) {chunk : Bytes} {rest : List Bytes}
    (h : s.source = chunk :: rest) :
    s.send page =
      { s with page := page, toWorker := s.toWorker ++ [.chunk chunk], source := rest } := by
  simp only [Channel.send,h]

/-- What a step that can come does. -/
inductive Moves (s : Channel) : Action → Channel → Prop
  | hears {reply : Reply} {rest : List Reply} (hreplies : s.toPage = reply :: rest) :
      Moves s .pageHears { s with page := s.page.hear reply, toPage := rest }
  | handles {m : Message} {rest : List Message} (hmessages : s.toWorker = m :: rest) :
      Moves s .workerHears ({ s with toWorker := rest }.handle m)
  | calls {chunk : Bytes} {rest : List Bytes} (hpage : s.page = .idle)
      (hsource : s.source = chunk :: rest) (hnot : s.aborted = false) :
      Moves s .call
        { s with page := .waiting, toWorker := s.toWorker ++ [.chunk chunk], source := rest }
  | throws {chunk : Bytes} {rest : List Bytes} (hpage : s.page = .idle)
      (hsource : s.source = chunk :: rest) (hnot : s.aborted = false) :
      Moves s .throwingCall
        { s with page := .threw, toWorker := s.toWorker ++ [.chunk chunk], source := rest }
  | stops (hpage : s.page = .idle) (hsome : s.source ≠ []) (haborted : s.aborted = true) :
      Moves s .abortedCall { s with page := .threw, toWorker := s.toWorker ++ [.abort] }
  | rejects (hpage : s.page = .idle ∨ s.page = .threw) (hfails : s.page = .threw ∨ s.fails) :
      Moves s .finish { s with page := .rejected, toWorker := s.toWorker ++ [.null] }
  | resolves (hpage : s.page = .idle) (hsource : s.source = []) (hfails : s.fails = false) :
      Moves s .finish { s with page := .resolved, toWorker := s.toWorker ++ [.null] }
  | aborts (hnot : s.aborted = false) : Moves s .abort { s with aborted := true }
  | reads (hsome : s.queue ≠ []) : Moves s .read { s with queue := s.queue.drop 1 }
  | cancels (hpage : s.page ≠ .starting) (hstream : s.stream ≠ .gone) :
      Moves s .cancel
        { s with
          stream := .gone, queue := [], toPage := s.toPage ++ [.cancelled]
          cancelled := s.cancelled || !s.ended }

theorem moves_of_enabled {s : Channel} {a : Action} (ha : Enabled s a) : Moves s a (step s a) := by
  cases a with
  | pageHears =>
    obtain ⟨reply,rest,hreplies⟩ := List.exists_cons_of_ne_nil ha
    simp only [step,hreplies]
    exact .hears hreplies
  | workerHears =>
    obtain ⟨m,rest,hmessages⟩ := List.exists_cons_of_ne_nil ha
    simp only [step,hmessages]
    exact .handles hmessages
  | call =>
    obtain ⟨chunk,rest,hsource⟩ := List.exists_cons_of_ne_nil ha.2.1
    rw [step,send_eq _ hsource]
    exact .calls ha.1 hsource ha.2.2
  | throwingCall =>
    obtain ⟨chunk,rest,hsource⟩ := List.exists_cons_of_ne_nil ha.2.1
    rw [step,send_eq _ hsource]
    exact .throws ha.1 hsource ha.2.2
  | abortedCall => exact .stops ha.1 ha.2.1 ha.2.2
  | finish =>
    by_cases hfails : s.page = .threw ∨ s.fails
    · rw [step,if_pos hfails]
      exact .rejects (ha.imp_left And.left) hfails
    · rw [step,if_neg hfails]
      rw [not_or,Bool.not_eq_true] at hfails
      obtain ⟨hpage,hsource⟩ := ha.resolve_right hfails.1
      exact .resolves hpage hsource hfails.2
  | abort => exact .aborts ha
  | read => exact .reads ha
  | cancel =>
    obtain ⟨hpage,hstream⟩ := ha
    apply Moves.cancels hpage
    intro hgone
    simp [hgone] at hstream

def Delivery (a : Action) : Prop := a = .pageHears ∨ a = .workerHears

def Page.left : Page → Nat
  | .starting | .idle | .waiting => 8
  | .threw => 4
  | .resolved | .rejected => 0

def Stream.left : Stream → Nat
  | .readable => 4
  | .closing => 2
  | .gone => 0

def Channel.patience (s : Channel) : Nat :=
  4*s.source.length + s.page.left + 3*s.toWorker.length + s.toPage.length + s.queue.length +
    s.stream.left + (!s.aborted).toNat

private theorem handle_patience (s : Channel) (m : Message) :
    (s.handle m).patience < s.patience + 3 := by
  cases m with
  | chunk b =>
    by_cases h : s.stream = .readable
    · simp only [Channel.handle,if_pos h,Channel.patience,List.length_append,List.length_singleton]
      omega
    · simp only [Channel.handle,if_neg h]
      omega
  | null =>
    by_cases h : s.stream = .readable
    · rw [Channel.handle,if_pos h]
      simp only [Channel.patience,h,Stream.left]
      omega
    · simp only [Channel.handle,if_neg h]
      omega
  | abort =>
    by_cases h : s.stream = .readable
    · rw [Channel.handle,if_pos h]
      simp only [Channel.patience,h,Stream.left,List.length_nil]
      omega
    · simp only [Channel.handle,if_neg h]
      omega

theorem patience_step {s : Channel} {a : Action} (ha : Enabled s a) :
    (step s a).patience < s.patience := by
  have hmoves := moves_of_enabled ha
  generalize step s a = s' at hmoves ⊢
  cases hmoves with
  | @hears reply rest hreplies =>
    have hpage : (s.page.hear reply).left = s.page.left := by
      cases reply <;> cases hpage : s.page <;> rfl
    simp only [Channel.patience,hpage,hreplies,List.length_cons]
    omega
  | @handles m rest hmessages =>
    have hless := handle_patience { s with toWorker := rest } m
    have hrest : ({ s with toWorker := rest } : Channel).patience + 3 = s.patience := by
      simp only [Channel.patience,hmessages,List.length_cons]
      omega
    omega
  | calls hpage hsource hnot | throws hpage hsource hnot =>
    simp only [Channel.patience,hpage,hsource,Page.left,List.length_cons,List.length_append,
      List.length_nil]
    omega
  | stops hpage hsome haborted =>
    simp only [Channel.patience,hpage,Page.left,List.length_append,List.length_singleton]
    omega
  | rejects hpage hfails =>
    have hbefore : 4 ≤ s.page.left := by
      rcases hpage with hpage | hpage
      · rw [hpage]
        decide
      · rw [hpage]
        decide
    have hafter : Page.rejected.left = 0 := rfl
    simp only [Channel.patience,hafter,List.length_append,List.length_singleton]
    omega
  | resolves hpage hsource hfails =>
    simp only [Channel.patience,hpage,Page.left,List.length_append,List.length_singleton]
    omega
  | aborts hnot =>
    simp only [Channel.patience,hnot]
    simp
  | reads hsome =>
    have hpos := List.length_pos_of_ne_nil hsome
    simp only [Channel.patience,List.length_drop]
    omega
  | cancels hpage hstream =>
    have hleft : 2 ≤ s.stream.left := by
      cases hbefore : s.stream with
      | readable => decide
      | closing => decide
      | gone => exact absurd hbefore hstream
    have hafter : Stream.gone.left = 0 := rfl
    simp only [Channel.patience,hafter,List.length_append,List.length_singleton,List.length_nil]
    omega

theorem length_le_patience {s : Channel} {as : List Action} (h : Along step Enabled s as) :
    as.length ≤ s.patience := by
  induction as generalizing s with
  | nil => exact Nat.zero_le _
  | cons a as ih =>
    have hrest := ih h.2
    have hless := patience_step h.1
    rw [List.length_cons]
    omega

def Answerable (s : Channel) : Prop :=
  s.toWorker ≠ [] ∧ s.stream = .readable ∨ 0 < s.toPage.count .pull

private theorem handle_of_not_readable {s : Channel} (h : s.stream ≠ .readable) (m : Message) :
    s.handle m = s := by
  cases m with
  | chunk b => exact if_neg h
  | null => exact if_neg h
  | abort => exact if_neg h

private theorem unanswered_step {s : Channel} {a : Action} (ha : Enabled s a)
    (h : s.page = .waiting ∧ ¬ Answerable s) :
    (step s a).page = .waiting ∧ ¬ Answerable (step s a) := by
  obtain ⟨hwaiting,hno⟩ := h
  have hmoves := moves_of_enabled ha
  generalize step s a = s' at hmoves ⊢
  simp only [Answerable,not_or,not_and,Nat.not_lt,Nat.le_zero] at hno ⊢
  obtain ⟨hstream,hcount⟩ := hno
  cases hmoves with
  | @hears reply rest hreplies =>
    rw [hreplies] at hcount
    cases reply with
    | pull => simp at hcount
    | ready => exact ⟨by simp [Page.hear,hwaiting],hstream,by simpa using hcount⟩
    | cancelled => exact ⟨hwaiting,hstream,by simpa using hcount⟩
  | @handles m rest hmessages =>
    have hgone := hstream (by simp [hmessages])
    rw [handle_of_not_readable (by exact hgone) m]
    exact ⟨hwaiting,fun _ => hgone,hcount⟩
  | calls hpage | throws hpage | stops hpage | resolves hpage =>
    rw [hwaiting] at hpage
    cases hpage
  | rejects hpage hfails =>
    rw [hwaiting] at hpage
    rcases hpage with hpage | hpage
    · cases hpage
    · cases hpage
  | aborts hnot => exact ⟨hwaiting,hstream,hcount⟩
  | reads hsome => exact ⟨hwaiting,hstream,hcount⟩
  | cancels hpage hopen => exact ⟨hwaiting,fun _ => by simp,by simpa using hcount⟩

private theorem pull_arrives {s : Channel} (hpage : s.page = .waiting)
    (hpull : 0 < s.toPage.count .pull) : ∃ as, (∀ a ∈ as, Delivery a) ∧ Along step Enabled s as ∧
      (runActs step s as).page = .idle := by
  induction hreplies : s.toPage generalizing s with
  | nil =>
    rw [hreplies] at hpull
    cases hpull
  | cons reply rest ih =>
    have hstep : step s .pageHears = { s with page := s.page.hear reply, toPage := rest } := by
      simp only [step,hreplies]
    have hen : Enabled s .pageHears := by
      rw [Enabled,hreplies]
      exact List.cons_ne_nil _ _
    have hmore : reply ≠ .pull → ∃ as, (∀ a ∈ as, Delivery a) ∧ Along step Enabled s as ∧
        (runActs step s as).page = .idle := by
      intro hother
      rw [hreplies,List.count_cons_of_ne hother] at hpull
      have hwaits : s.page.hear reply = .waiting := by
        cases reply with
        | pull => exact absurd rfl hother
        | ready => simp [Page.hear,hpage]
        | cancelled => exact hpage
      obtain ⟨as,hown,hrun,hidle⟩ :=
        @ih { s with page := s.page.hear reply, toPage := rest } hwaits hpull rfl
      refine ⟨.pageHears :: as,?_,⟨hen,by rwa [hstep]⟩,by rwa [runActs_cons,hstep]⟩
      intro a ha
      rcases List.mem_cons.mp ha with rfl | ha
      · exact Or.inl rfl
      · exact hown a ha
    cases reply with
    | pull =>
      refine ⟨[.pageHears],by simp [Delivery],⟨hen,trivial⟩,?_⟩
      rw [runActs_cons,hstep,runActs_nil]
      simp [Page.hear,hpage]
    | ready => exact hmore (by decide)
    | cancelled => exact hmore (by decide)

/-- A call has one chunk on its way, or one pull, or nothing more to come. -/
structure Inv (s : Channel) : Prop where
  starting : s.page = .starting → s.toWorker = [] ∧
    (s.toPage = [.pull,.ready] ∨ s.toPage = [.ready])
  idle : s.page = .idle → s.toWorker = [] ∧ s.toPage.count .pull = 0
  waiting : s.page = .waiting → (∃ b, s.toWorker = [.chunk b]) ∧ s.toPage.count .pull = 0 ∨
    s.toWorker = [] ∧ s.toPage.count .pull ≤ 1
  few : s.toWorker.countP carries ≤ 1

private theorem inv_start (source : List Bytes) (fails : Bool) : Inv (.start source fails) where
  starting := fun _ => ⟨rfl,Or.inl rfl⟩
  idle := by simp [Channel.start]
  waiting := by simp [Channel.start]
  few := Nat.zero_le _

private theorem handle_keeps (s : Channel) (m : Message) : (s.handle m).page = s.page ∧
    (s.handle m).toWorker = s.toWorker ∧ (s.handle m).cancelled = s.cancelled := by
  cases m with
  | chunk b | null | abort =>
    rw [Channel.handle]
    split
    · exact ⟨rfl,rfl,rfl⟩
    · exact ⟨rfl,rfl,rfl⟩

private theorem handle_page (s : Channel) (m : Message) : (s.handle m).page = s.page :=
  (handle_keeps s m).1

private theorem handle_toWorker (s : Channel) (m : Message) :
    (s.handle m).toWorker = s.toWorker :=
  (handle_keeps s m).2.1

private theorem Inv.hear {s : Channel} (h : Inv s) {reply : Reply} {rest : List Reply}
    (hreplies : s.toPage = reply :: rest) :
    Inv { s with page := s.page.hear reply, toPage := rest } := by
  have hstarting := h.starting
  have hidle := h.idle
  have hwaiting := h.waiting
  have hfew := h.few
  rw [hreplies] at hstarting hidle hwaiting
  cases hpage : s.page with
  | starting =>
    obtain ⟨hworker,hready⟩ := hstarting hpage
    rcases hready with hready | hready
    · obtain ⟨rfl,rfl⟩ := List.cons.inj hready
      exact ⟨fun _ => ⟨hworker,Or.inr rfl⟩,by simp [Page.hear],by simp [Page.hear],hfew⟩
    · obtain ⟨rfl,rfl⟩ := List.cons.inj hready
      exact ⟨by simp [Page.hear],fun _ => ⟨hworker,rfl⟩,by simp [Page.hear],hfew⟩
  | idle =>
    obtain ⟨hworker,hcount⟩ := hidle hpage
    cases reply with
    | pull => simp at hcount
    | ready => exact ⟨by simp [Page.hear],fun _ => ⟨hworker,by simpa using hcount⟩,
        by simp [Page.hear],hfew⟩
    | cancelled => exact ⟨by simp [Page.hear],fun _ => ⟨hworker,by simpa using hcount⟩,
        by simp [Page.hear],hfew⟩
  | waiting =>
    cases reply with
    | pull =>
      rcases hwaiting hpage with ⟨-,hnone⟩ | ⟨hworker,hone⟩
      · simp at hnone
      · exact ⟨by simp [Page.hear],fun _ => ⟨hworker,by simpa using hone⟩,by simp [Page.hear],hfew⟩
    | ready => exact ⟨by simp [Page.hear],by simp [Page.hear],
        fun _ => by simpa using hwaiting hpage,hfew⟩
    | cancelled => exact ⟨by simp [Page.hear],by simp [Page.hear],
        fun _ => by simpa using hwaiting hpage,hfew⟩
  | threw | resolved | rejected => exact ⟨by cases reply <;> simp [Page.hear],
      by cases reply <;> simp [Page.hear],by cases reply <;> simp [Page.hear],hfew⟩

private theorem Inv.handle {s : Channel} (h : Inv s) {m : Message} {rest : List Message}
    (hmessages : s.toWorker = m :: rest) : Inv ({ s with toWorker := rest }.handle m) := by
  have hfew := h.few
  have hwaiting := h.waiting
  rw [hmessages] at hfew hwaiting
  constructor
  · intro hpage
    rw [handle_page] at hpage
    have hnone := (h.starting hpage).1
    rw [hmessages] at hnone
    cases hnone
  · intro hpage
    rw [handle_page] at hpage
    have hnone := (h.idle hpage).1
    rw [hmessages] at hnone
    cases hnone
  · intro hpage
    rw [handle_page] at hpage
    rcases hwaiting hpage with ⟨⟨b,hb⟩,hnone⟩ | ⟨hnone,-⟩
    · obtain ⟨rfl,rfl⟩ := List.cons.inj hb
      refine Or.inr ⟨handle_toWorker _ _,?_⟩
      rw [Channel.handle]
      split
      · simp [hnone]
      · simp [hnone]
    · cases hnone
  · rw [handle_toWorker]
    rw [List.countP_cons] at hfew
    dsimp only
    omega

theorem inv_step {s : Channel} {a : Action} (h : Inv s) (ha : Enabled s a) : Inv (step s a) := by
  have hfew := h.few
  have hmoves := moves_of_enabled ha
  generalize step s a = s' at hmoves ⊢
  cases hmoves with
  | hears hreplies => exact h.hear hreplies
  | handles hmessages => exact h.handle hmessages
  | @calls chunk rest hpage hsource hnot =>
    obtain ⟨hworker,hcount⟩ := h.idle hpage
    simp only [hworker,List.nil_append]
    exact ⟨by simp,by simp,fun _ => Or.inl ⟨⟨chunk,rfl⟩,hcount⟩,Nat.le_refl _⟩
  | throws hpage hsource hnot =>
    simp only [(h.idle hpage).1,List.nil_append]
    exact ⟨by simp,by simp,by simp,Nat.le_refl _⟩
  | stops hpage hsome haborted =>
    simp only [(h.idle hpage).1,List.nil_append]
    exact ⟨by simp,by simp,by simp,Nat.zero_le _⟩
  | rejects hpage hfails =>
    exact ⟨by simp,by simp,by simp,by simpa [List.countP_append,carries] using hfew⟩
  | resolves hpage hsource hfails =>
    exact ⟨by simp,by simp,by simp,by simpa [List.countP_append,carries] using hfew⟩
  | aborts hnot => exact ⟨h.starting,h.idle,h.waiting,hfew⟩
  | reads hsome => exact ⟨h.starting,h.idle,h.waiting,hfew⟩
  | cancels hpage hstream =>
    refine ⟨fun hstarting => absurd hstarting hpage,?_,?_,hfew⟩
    · intro hidle
      simpa using h.idle hidle
    · intro hwaiting
      simpa using h.waiting hwaiting

/-- The call can only reject: it has thrown, or what the sink meets next is an aborted signal, or
reading fails. -/
def Doomed (s : Channel) : Prop :=
  s.page = .threw ∨ if s.source = [] then s.fails = true else s.aborted = true

instance (s : Channel) : Decidable (Doomed s) :=
  inferInstanceAs (Decidable (s.page = .threw ∨
    if s.source = [] then s.fails = true else s.aborted = true))

/-- The page hears a pull only when no more than `n` chunks are unread, and the browser cancels a
call only when that rejects anyway and no chunk is on its way. -/
def Heeds (n : Nat) (s : Channel) : Action → Prop
  | .pageHears => s.page = .waiting → s.toPage.head? = some .pull → s.queue.length ≤ n
  | .cancel => s.ended = false → Doomed s ∧ (s.page = .waiting → s.toWorker = [])
  | _ => True

def Allowed (n : Nat) (s : Channel) (a : Action) : Prop := Enabled s a ∧ Heeds n s a

instance (n : Nat) (s : Channel) : (a : Action) → Decidable (Heeds n s a)
  | .pageHears => inferInstanceAs (Decidable
      (s.page = .waiting → s.toPage.head? = some .pull → s.queue.length ≤ n))
  | .cancel => inferInstanceAs (Decidable
      (s.ended = false → Doomed s ∧ (s.page = .waiting → s.toWorker = [])))
  | .workerHears | .call | .throwingCall | .abortedCall | .finish | .abort | .read => .isTrue trivial

instance (n : Nat) (s : Channel) (a : Action) : Decidable (Allowed n s a) :=
  inferInstanceAs (Decidable (Enabled s a ∧ Heeds n s a))

/-- A call that the browser has cancelled has rejected or will. -/
structure Cancelled (s : Channel) : Prop where
  gone : s.stream = .gone
  page : s.page ≠ .starting ∧ s.page ≠ .resolved
  doomed : s.page = .rejected ∨ Doomed s
  answered : s.page = .waiting → Answerable s

structure Heeded (n : Nat) (s : Channel) : Prop extends Inv s where
  room : s.page = .starting ∨ s.page = .idle → s.queue.length ≤ n
  bounded : s.between ≤ n+1
  answered : s.page = .waiting → Answerable s
  sent : ∀ m ∈ s.toWorker, carries m = false → s.page = .threw ∨ s.ended = true
  listens : s.stream ≠ .readable → s.page = .threw ∨ s.ended = true ∨ s.cancelled = true
  cancelled : s.cancelled = true → Cancelled s

private theorem heeded_start (n : Nat) (source : List Bytes) (fails : Bool) :
    Heeded n (.start source fails) where
  toInv := inv_start source fails
  room := fun _ => Nat.zero_le n
  bounded := Nat.zero_le _
  answered := by simp [Channel.start]
  sent := by simp [Channel.start]
  listens := by simp [Channel.start]
  cancelled := by simp [Channel.start]

private theorem answered_hear {s : Channel} {reply : Reply} {rest : List Reply}
    (hreplies : s.toPage = reply :: rest) (h : s.page = .waiting → Answerable s)
    (hpage : s.page.hear reply = .waiting) :
    Answerable { s with page := s.page.hear reply, toPage := rest } := by
  have hother : s.page = .waiting ∧ reply ≠ .pull := by
    cases reply with
    | ready =>
      by_cases hstarting : s.page = .starting
      · simp [Page.hear,hstarting] at hpage
      · exact ⟨by simpa [Page.hear,hstarting] using hpage,by decide⟩
    | pull =>
      by_cases hwaiting : s.page = .waiting
      · simp [Page.hear,hwaiting] at hpage
      · simp [Page.hear,hwaiting] at hpage
    | cancelled => exact ⟨hpage,by decide⟩
  rcases h hother.1 with hlistens | hpull
  · exact Or.inl hlistens
  · rw [hreplies,List.count_cons_of_ne hother.2] at hpull
    exact Or.inr hpull

private theorem Inv.answered_handle {s : Channel} (h : Inv s) {m : Message} {rest : List Message}
    (hmessages : s.toWorker = m :: rest) (hanswered : s.page = .waiting → Answerable s)
    (hpage : s.page = .waiting) : Answerable ({ s with toWorker := rest }.handle m) := by
  rcases h.waiting hpage with ⟨⟨b,hb⟩,hnone⟩ | ⟨hnil,-⟩
  · have hm : m = .chunk b := by
      rw [hmessages] at hb
      exact (List.cons.inj hb).1
    rcases hanswered hpage with ⟨-,hreadable⟩ | hpull
    · subst hm
      have henqueued : ({ s with toWorker := rest } : Channel).stream = .readable := hreadable
      rw [Channel.handle,if_pos henqueued]
      refine Or.inr ?_
      simp
    · omega
  · rw [hmessages] at hnil
    cases hnil

theorem cancelled_step {s : Channel} {a : Action} (h : Cancelled s) (ha : Enabled s a) :
    Cancelled (step s a) := by
  obtain ⟨hgone,⟨hstarting,hresolved⟩,hdoomed,hanswered⟩ := h
  have hmoves := moves_of_enabled ha
  generalize step s a = s' at hmoves ⊢
  cases hmoves with
  | @hears reply rest hreplies =>
    refine ⟨hgone,?_,?_,answered_hear hreplies hanswered⟩
    · cases reply <;> cases hpage : s.page <;> simp_all [Page.hear]
    · cases reply <;> cases hpage : s.page <;> simp_all [Page.hear,Doomed]
  | @handles m rest hmessages =>
    rw [handle_of_not_readable (by simp [hgone]) m]
    refine ⟨hgone,⟨hstarting,hresolved⟩,hdoomed,fun hpage => ?_⟩
    rcases hanswered hpage with ⟨-,hreadable⟩ | hpull
    · rw [hgone] at hreadable
      cases hreadable
    · exact Or.inr hpull
  | calls hpage hsource hnot | throws hpage hsource hnot =>
    simp [Doomed,hpage,hsource,hnot] at hdoomed
  | stops hpage hsome haborted => exact ⟨hgone,by simp,Or.inr (Or.inl rfl),by simp⟩
  | rejects hpage hfails => exact ⟨hgone,by simp,Or.inl rfl,by simp⟩
  | resolves hpage hsource hfails => simp [Doomed,hpage,hsource,hfails] at hdoomed
  | aborts hnot =>
    refine ⟨hgone,⟨hstarting,hresolved⟩,?_,hanswered⟩
    rcases hdoomed with h | h | h
    · exact Or.inl h
    · exact Or.inr (Or.inl h)
    · refine Or.inr (Or.inr ?_)
      by_cases hsource : s.source = []
      · simpa [hsource] using h
      · simp [hsource]
  | reads hsome => exact ⟨hgone,⟨hstarting,hresolved⟩,hdoomed,hanswered⟩
  | cancels hpage hopen => exact absurd hgone hopen

private theorem Heeded.readable {n : Nat} {s : Channel} (h : Heeded n s) (hpage : s.page = .idle)
    (hsome : s.source ≠ []) (hnot : s.aborted = false) : s.stream = .readable := by
  by_contra hgone
  rcases h.listens hgone with hthrew | hended | hcancelled
  · rw [hpage] at hthrew
    cases hthrew
  · simp [hpage] at hended
  · have hdoomed := (h.cancelled hcancelled).doomed
    simp [Doomed,hpage,hsome,hnot] at hdoomed

private theorem Heeded.room_step {n : Nat} {s : Channel} {a : Action} (h : Heeded n s)
    (ha : Allowed n s a) (hpage : (step s a).page = .starting ∨ (step s a).page = .idle) :
    (step s a).queue.length ≤ n := by
  obtain ⟨hen,hheeds⟩ := ha
  have hmoves := moves_of_enabled hen
  generalize step s a = s' at hmoves hpage ⊢
  cases hmoves with
  | @hears reply rest hreplies =>
    by_cases hwaiting : s.page = .waiting ∧ reply = .pull
    · obtain ⟨hwaiting,rfl⟩ := hwaiting
      exact hheeds hwaiting (by rw [hreplies]; rfl)
    · apply h.room
      cases reply <;> cases hbefore : s.page <;> simp_all [Page.hear]
  | @handles m rest hmessages =>
    simp only [handle_page] at hpage
    rcases hpage with hpage | hpage
    · have hnil := (h.starting hpage).1
      rw [hmessages] at hnil
      cases hnil
    · have hnil := (h.idle hpage).1
      rw [hmessages] at hnil
      cases hnil
  | calls | throws | stops | rejects | resolves => simp at hpage
  | aborts hnot => exact h.room hpage
  | reads hsome =>
    have hroom := h.room hpage
    simp only [List.length_drop]
    omega
  | cancels hstarting hopen => exact Nat.zero_le n

private theorem between_handle (s : Channel) (m : Message) (rest : List Message) :
    ({ s with toWorker := rest }.handle m).between ≤
      rest.countP carries + s.queue.length + if carries m then 1 else 0 := by
  rw [Channel.handle.eq_def]
  cases m with
  | chunk b =>
    dsimp only
    split
    · simp [Channel.between,carries,Nat.add_assoc]
    · simp [Channel.between]
  | null =>
    dsimp only
    split
    · simp [Channel.between]
    · simp [Channel.between]
  | abort =>
    dsimp only
    split
    · simp [Channel.between,carries]
    · simp [Channel.between]

private theorem Heeded.bounded_step {n : Nat} {s : Channel} {a : Action} (h : Heeded n s)
    (ha : Enabled s a) : (step s a).between ≤ n+1 := by
  have hbounded := h.bounded
  have hmoves := moves_of_enabled ha
  generalize step s a = s' at hmoves ⊢
  cases hmoves with
  | hears hreplies => exact hbounded
  | @handles m rest hmessages =>
    have hle := between_handle s m rest
    simp only [Channel.between,hmessages,List.countP_cons] at hbounded
    omega
  | calls hpage hsource hnot | throws hpage hsource hnot =>
    have hroom := h.room (Or.inr hpage)
    simp [Channel.between,(h.idle hpage).1,carries]
    omega
  | stops | rejects | resolves => simpa [Channel.between,carries] using hbounded
  | aborts hnot => exact hbounded
  | reads hsome =>
    simp only [Channel.between,List.length_drop] at hbounded ⊢
    omega
  | cancels hpage hopen =>
    simp only [Channel.between,List.length_nil] at hbounded ⊢
    omega

private theorem Heeded.answered_step {n : Nat} {s : Channel} {a : Action} (h : Heeded n s)
    (ha : Allowed n s a) (hpage : (step s a).page = .waiting) : Answerable (step s a) := by
  obtain ⟨hen,hheeds⟩ := ha
  have hmoves := moves_of_enabled hen
  generalize step s a = s' at hmoves hpage ⊢
  cases hmoves with
  | hears hreplies => exact answered_hear hreplies h.answered hpage
  | handles hmessages =>
    rw [handle_page] at hpage
    exact h.answered_handle hmessages h.answered hpage
  | calls hidle hsource hnot =>
    have hsome : s.source ≠ [] := by simp [hsource]
    exact Or.inl ⟨by simp,h.readable hidle hsome hnot⟩
  | throws | stops | rejects | resolves => cases hpage
  | aborts hnot => exact h.answered hpage
  | reads hsome => exact h.answered hpage
  | cancels hstarting hopen =>
    have hwaiting : s.page = .waiting := hpage
    have hnotended : s.ended = false := by simp [Channel.ended,hwaiting]
    rcases h.answered hwaiting with ⟨hsome,-⟩ | hpull
    · exact absurd ((hheeds hnotended).2 hwaiting) hsome
    · exact Or.inr (by simpa using hpull)

private theorem over_step {s : Channel} {a : Action} (ha : Enabled s a)
    (h : s.page = .threw ∨ s.ended = true) :
    (step s a).page = .threw ∨ (step s a).ended = true := by
  have hover : s.page = .threw ∨ s.page = .resolved ∨ s.page = .rejected := by simpa using h
  have hmoves := moves_of_enabled ha
  generalize step s a = s' at hmoves ⊢
  rw [ended_iff]
  cases hmoves with
  | @hears reply rest hreplies =>
    cases reply <;> rcases hover with hpage | hpage | hpage <;> simp [Page.hear,hpage]
  | handles hmessages =>
    rw [handle_page]
    exact hover
  | calls hpage | throws hpage | stops hpage => simp [hpage] at hover
  | rejects => exact Or.inr (Or.inr rfl)
  | resolves => exact Or.inr (Or.inl rfl)
  | aborts | reads | cancels => exact hover

private theorem Heeded.sent_step {n : Nat} {s : Channel} {a : Action} (h : Heeded n s)
    (ha : Enabled s a) {m : Message} (hm : m ∈ (step s a).toWorker) (hno : carries m = false) :
    (step s a).page = .threw ∨ (step s a).ended = true := by
  have hold : m ∈ s.toWorker → (step s a).page = .threw ∨ (step s a).ended = true :=
    fun hmem => over_step ha (h.sent m hmem hno)
  have hmoves := moves_of_enabled ha
  generalize step s a = s' at hmoves hold hm ⊢
  cases hmoves with
  | hears hreplies => exact hold hm
  | @handles m' rest hmessages =>
    apply hold
    rw [handle_toWorker] at hm
    rw [hmessages]
    exact List.mem_cons_of_mem m' hm
  | calls hpage hsource hnot | throws hpage hsource hnot =>
    rcases List.mem_append.mp hm with hm | hm
    · exact hold hm
    · obtain rfl := List.mem_singleton.mp hm
      cases hno
  | stops => exact Or.inl rfl
  | rejects | resolves => exact Or.inr rfl
  | aborts | reads | cancels => exact hold hm

private theorem Heeded.listens_step {n : Nat} {s : Channel} {a : Action} (h : Heeded n s)
    (ha : Enabled s a) (hgone : (step s a).stream ≠ .readable) :
    (step s a).page = .threw ∨ (step s a).ended = true ∨ (step s a).cancelled = true := by
  have hover : s.page = .threw ∨ s.ended = true →
      (step s a).page = .threw ∨ (step s a).ended = true ∨ (step s a).cancelled = true := by
    intro hthrew
    rcases over_step ha hthrew with hthrew | hended
    · exact Or.inl hthrew
    · exact Or.inr (Or.inl hended)
  have hold : (s.cancelled = true → (step s a).cancelled = true) → s.stream ≠ .readable →
      (step s a).page = .threw ∨ (step s a).ended = true ∨ (step s a).cancelled = true := by
    intro hkeeps hbefore
    rcases h.listens hbefore with hthrew | hended | hcancelled
    · exact hover (Or.inl hthrew)
    · exact hover (Or.inr hended)
    · exact Or.inr (Or.inr (hkeeps hcancelled))
  have hmoves := moves_of_enabled ha
  generalize step s a = s' at hmoves hover hold hgone ⊢
  cases hmoves with
  | @handles m rest hmessages =>
    by_cases hreadable : s.stream = .readable
    · cases hcarries : carries m with
      | true =>
        cases m with
        | chunk b =>
          simp only [Channel.handle,if_pos hreadable] at hgone
          exact absurd hreadable hgone
        | null => cases hcarries
        | abort => cases hcarries
      | false => exact hover (h.sent m (by simp [hmessages]) hcarries)
    · apply hold
      · rw [handle_of_not_readable (by exact hreadable) m]
        exact id
      · exact hreadable
  | stops => exact Or.inl rfl
  | cancels =>
    by_cases hended : s.ended = true
    · exact Or.inr (Or.inl hended)
    · exact Or.inr (Or.inr (by simp [hended]))
  | hears | calls | throws | rejects | resolves | aborts | reads => exact hold id hgone

private theorem Heeded.cancelled_cancel {n : Nat} {s : Channel} (h : Heeded n s)
    (ha : Allowed n s .cancel) (hcancelled : (step s .cancel).cancelled = true) :
    Cancelled (step s .cancel) := by
  obtain ⟨⟨hstarting,hstream⟩,hheeds⟩ := ha
  have hnot : s.cancelled = false := by
    by_contra hbefore
    have hgone := (h.cancelled (by simpa using hbefore)).gone
    simp [hgone] at hstream
  have hended : s.ended = false := by simpa [step,hnot] using hcancelled
  obtain ⟨hdoomed,hempty⟩ := hheeds hended
  have hresolved : s.page ≠ .resolved := by
    intro hpage
    simp [Channel.ended,hpage] at hended
  refine ⟨rfl,⟨hstarting,hresolved⟩,Or.inr hdoomed,fun hpage => ?_⟩
  rcases h.answered hpage with ⟨hsome,-⟩ | hpull
  · exact absurd (hempty hpage) hsome
  · exact Or.inr (by simpa [step] using hpull)

theorem heeded_step {n : Nat} {s : Channel} {a : Action} (h : Heeded n s) (ha : Allowed n s a) :
    Heeded n (step s a) where
  toInv := inv_step h.toInv ha.1
  room := h.room_step ha
  bounded := h.bounded_step ha.1
  answered := h.answered_step ha
  sent := fun _ hm hno => h.sent_step ha.1 hm hno
  listens := h.listens_step ha.1
  cancelled := by
    intro hcancelled
    by_cases hbefore : s.cancelled = true
    · exact cancelled_step (h.cancelled hbefore) ha.1
    · have hmoves := moves_of_enabled ha.1
      generalize hs' : step s a = s' at hmoves hcancelled ⊢
      cases hmoves with
      | cancels =>
        rw [← hs'] at hcancelled ⊢
        exact h.cancelled_cancel ha hcancelled
      | handles hmessages =>
        rw [(handle_keeps _ _).2.2] at hcancelled
        exact absurd hcancelled hbefore
      | hears | calls | throws | stops | rejects | resolves | aborts | reads =>
        exact absurd hcancelled hbefore

/-- At most `n` chunks are unread and one more on its way, nothing goes on for ever, a call that
waits can be settled by messages alone, and a run that goes on behind a cancel until nothing is left
to do ends with the download call rejected. -/
structure Served (n : Nat) (s : Channel) : Prop where
  bounded : s.between ≤ n+1
  ends : ∀ as, Along step Enabled s as → as.length ≤ s.patience
  settles : s.page = .waiting → ∃ as, (∀ a ∈ as, Delivery a) ∧ Along step Enabled s as ∧
    (runActs step s as).page = .idle
  rejects : s.cancelled = true → ∀ as, Along step Enabled s as →
    (∀ a, ¬ Enabled (runActs step s as) a) → (runActs step s as).page = .rejected

private theorem Inv.settles {s : Channel} (h : Inv s) (hpage : s.page = .waiting)
    (hanswer : Answerable s) : ∃ as, (∀ a ∈ as, Delivery a) ∧ Along step Enabled s as ∧
      (runActs step s as).page = .idle := by
  rcases hanswer with ⟨hsome,hreadable⟩ | hpull
  · rcases h.waiting hpage with ⟨⟨b,hb⟩,-⟩ | ⟨hnil,-⟩
    · have hstep : step s .workerHears = { s with
          toWorker := [], queue := s.queue ++ [b], toPage := s.toPage ++ [.pull] } := by
        simp only [step,hb,Channel.handle,hreadable,if_true]
      obtain ⟨as,hown,hrun,hidle⟩ := @pull_arrives (step s .workerHears)
        (by rw [hstep]; exact hpage) (by rw [hstep]; simp)
      refine ⟨.workerHears :: as,?_,⟨hsome,hrun⟩,hidle⟩
      intro a ha
      rcases List.mem_cons.mp ha with rfl | ha
      · exact Or.inr rfl
      · exact hown a ha
    · exact absurd hnil hsome
  · exact pull_arrives hpage hpull

private theorem Cancelled.rejected {s : Channel} (h : Cancelled s) (hlast : ∀ a, ¬ Enabled s a) :
    s.page = .rejected := by
  cases hpage : s.page with
  | starting => exact absurd hpage h.page.1
  | idle =>
    by_cases hsource : s.source = []
    · exact absurd (Or.inl ⟨hpage,hsource⟩) (hlast .finish)
    · have haborted : s.aborted = true := by simpa [Doomed,hpage,hsource] using h.doomed
      exact absurd ⟨hpage,hsource,haborted⟩ (hlast .abortedCall)
  | waiting =>
    rcases h.answered hpage with ⟨hsome,-⟩ | hpull
    · exact absurd hsome (hlast .workerHears)
    · have hsome : s.toPage ≠ [] := List.ne_nil_of_mem (List.count_pos_iff.mp hpull)
      exact absurd hsome (hlast .pageHears)
  | threw => exact absurd (Or.inr hpage) (hlast .finish)
  | resolved => exact absurd hpage h.page.2
  | rejected => rfl

theorem worker_serves {n : Nat} {source : List Bytes} {fails : Bool} {as : List Action}
    (h : Along step (Allowed n) (.start source fails) as) :
    Served n (runActs step (.start source fails) as) := by
  have hinv : Heeded n (runActs step (.start source fails) as) :=
    invariant_runActs (Heeded n) (fun _ _ hs ha => heeded_step hs ha)
      (heeded_start n source fails) h
  refine ⟨hinv.bounded,fun _ => length_le_patience,
    fun hpage => hinv.settles hpage (hinv.answered hpage),?_⟩
  intro hcancelled more hmore hlast
  have hstill := invariant_runActs Cancelled (fun _ _ hs ha => cancelled_step hs ha)
    (hinv.cancelled hcancelled) hmore
  exact hstill.rejected hlast

/-- The first chunk is read before its pull is heard, the second is not; then the caller aborts and
the browser cancels. -/
theorem worker_serves_two : Served 1 (runActs step (.start [[1],[2],[3]] false)
    [.pageHears,.pageHears,.call,.workerHears,.read,.pageHears,.call,.workerHears,.abort,.pageHears,
      .cancel]) :=
  worker_serves (by decide)

/-- A round for each chunk of the source while the browser does not read. -/
private def ahead : Nat → List Action
  | 0 => []
  | n+1 => [.call,.workerHears,.pageHears] ++ ahead n

private def unread (queue : List Bytes) (n : Nat) : Channel :=
  ⟨.idle,[],[],queue,.readable,List.replicate n [0],false,false,false⟩

private theorem runs_ahead (n : Nat) (queue : List Bytes) :
    Along step Enabled (unread queue n) (ahead n) ∧
      runActs step (unread queue n) (ahead n) = unread (queue ++ List.replicate n [0]) 0 := by
  induction n generalizing queue with
  | zero => simp [ahead]
  | succ n ih =>
    obtain ⟨hrun,hend⟩ := ih (queue ++ [[0]])
    have hround : runActs step (unread queue (n+1)) [.call,.workerHears,.pageHears] =
        unread (queue ++ [[0]]) n := rfl
    constructor
    · rw [ahead,along_append,hround]
      refine ⟨⟨⟨rfl,by simp [unread],rfl⟩,?_,?_,trivial⟩,hrun⟩
      · exact List.cons_ne_nil _ _
      · exact List.cons_ne_nil _ _
    · rw [ahead,runActs_append,hround,hend,List.append_assoc]
      rfl

/-- A reader that stops lets the queue grow without bound, a cancel leaves a call waiting, and a call
that is cancelled behind its last chunk resolves. -/
theorem worker_fails : (¬ ∃ n, ∀ source as, Along step Enabled (.start source false) as →
      (runActs step (.start source false) as).between ≤ n) ∧
    (¬ ∀ source as, Along step Enabled (.start source false) as →
      (runActs step (.start source false) as).page = .waiting →
      ∃ more, Along step Enabled (runActs step (.start source false) as) more ∧
        (runActs step (runActs step (.start source false) as) more).page ≠ .waiting) ∧
    ¬ ∀ source as, Along step Enabled (.start source false) as →
      (runActs step (.start source false) as).cancelled = true →
      (runActs step (.start source false) as).page ≠ .resolved := by
  refine ⟨?_,?_,?_⟩
  · rintro ⟨n,hbound⟩
    obtain ⟨hrun,hend⟩ := runs_ahead (n+1) []
    have hready : runActs step (.start (List.replicate (n+1) [0]) false) [.pageHears,.pageHears] =
        unread [] (n+1) := rfl
    have hstart : Along step Enabled (.start (List.replicate (n+1) [0]) false)
        [.pageHears,.pageHears] := ⟨List.cons_ne_nil _ _,List.cons_ne_nil _ _,trivial⟩
    have hle := hbound (List.replicate (n+1) [0]) ([.pageHears,.pageHears] ++ ahead (n+1))
      ((along_append _ _ _ _ _).mpr ⟨hstart,by rw [hready]; exact hrun⟩)
    rw [runActs_append,hready,hend] at hle
    simp only [unread,Channel.between,List.nil_append,List.length_replicate,List.countP_nil] at hle
    omega
  · intro hall
    obtain ⟨more,hrun,hsettled⟩ :=
      hall [[1]] [.pageHears,.pageHears,.call,.cancel] (by decide) (by decide)
    have hwaits := invariant_runActs (fun s => s.page = .waiting ∧ ¬ Answerable s)
      (fun _ _ hs ha => unanswered_step ha hs) ⟨by decide,by simp [Answerable]; decide⟩ hrun
    exact hsettled hwaits.1
  · intro hall
    exact hall [[1]] [.pageHears,.pageHears,.call,.workerHears,.pageHears,.cancel,.finish]
      (by decide) (by decide) (by decide)

end WeirdVault.Transfers.Worker
