import WeirdVault.Framework.Runs
import WeirdVault.Framework.Sums

/-!
# The relay's quotas

`Quotas::acquire`, the drop of a `ConnectionGuard`, the byte counters and `drain_usage`, cut into
their atomic operations and their operations on the map. Any number of tasks take these steps in any
order; a shard lock that a step of the map holds is the lock of its account.
-/

namespace WeirdVault.Relay.Quota

open WeirdVault.Framework

structure Limits where
  maxConnectionsPerAccount : Nat
  maxTotalConnections : Nat
  deriving DecidableEq

inductive Direction
  | up
  | down
  deriving DecidableEq

/-- An `AccountUsage` in memory, with the account it was made for. -/
structure AccountUsage where
  id : Nat
  account : String
  active : Nat
  bytesUp : Nat
  bytesDown : Nat
  deriving DecidableEq

def AccountUsage.bytes (u : AccountUsage) : Direction → Nat
  | .up => u.bytesUp
  | .down => u.bytesDown

def AccountUsage.setBytes (u : AccountUsage) (d : Direction) (n : Nat) : AccountUsage :=
  match d with
  | .up => { u with bytesUp := n }
  | .down => { u with bytesDown := n }

def AccountUsage.setActive (u : AccountUsage) (n : Nat) : AccountUsage := { u with active := n }

inductive QuotaError
  | relayFull
  | tooManyConnections (limit : Nat)
  deriving DecidableEq

inductive AttemptStage
  | counted
  | relayFull
  | entered (usage : Nat)
  | tooMany (usage : Nat)
  | tooManyTotal
  deriving DecidableEq

structure Attempt where
  task : Nat
  account : String
  stage : AttemptStage
  deriving DecidableEq

structure ConnectionGuard where
  id : Nat
  account : String
  usage : Nat
  dropping : Bool
  deriving DecidableEq

structure AccountBytes where
  account : String
  bytesUp : Nat
  bytesDown : Nat
  deriving DecidableEq

inductive DrainStage
  | visiting
  | swapped (account : String) (usage bytesUp : Nat)
  | retaining
  /-- With the lock of an entry, before each of the three loads. How many additions there had been at
  the load of a byte counter is a ghost record. -/
  | checkActive (account : String) (usage : Nat)
  | checkUp (account : String) (usage : Nat)
  | checkDown (account : String) (usage upLoaded : Nat)
  | removing (account : String) (usage upLoaded downLoaded : Nat)
  deriving DecidableEq

structure Drain where
  task : Nat
  batch : List AccountBytes
  stage : DrainStage
  deriving DecidableEq

inductive Owner
  | attempt (task : Nat)
  | drain (task : Nat)
  deriving DecidableEq

structure Quotas where
  limits : Limits
  totalActive : Nat
  accounts : Table (Prod.fst : String × Nat → String)
  heap : Table AccountUsage.id
  nextUsage : Nat
  locks : Table (Prod.fst : String × Owner → String)
  attempts : Table Attempt.task
  guards : Table ConnectionGuard.id
  nextGuard : Nat
  drains : Table Drain.task
  counters : List Nat
  refused : List (String × QuotaError)
  /-- Every addition so far. -/
  added : List (String × Direction × Nat)
  reports : List (List AccountBytes)

def new (limits : Limits) : Quotas where
  limits := limits
  totalActive := 0
  accounts := Table.empty _
  heap := Table.empty _
  nextUsage := 0
  locks := Table.empty _
  attempts := Table.empty _
  guards := Table.empty _
  nextGuard := 0
  drains := Table.empty _
  counters := []
  refused := []
  added := []
  reports := []

def AccountUsage.default (id : Nat) (account : String) : AccountUsage := ⟨id,account,0,0,0⟩

namespace Quotas

def setStage (s : Quotas) (a : Attempt) (stage : AttemptStage) : Quotas :=
  { s with attempts := s.attempts.put { a with stage := stage } }

def refuse (s : Quotas) (a : Attempt) (err : QuotaError) : Quotas :=
  { s with
    totalActive := s.totalActive-1
    attempts := s.attempts.erase a.task
    refused := (a.account,err) :: s.refused }

/-- `total_active.fetch_add` and the comparison after it. -/
def acquire (s : Quotas) (task : Nat) (account : String) : Quotas :=
  let total := s.totalActive+1
  { s with
    totalActive := total
    attempts := s.attempts.put
      ⟨task,account,if total > s.limits.maxTotalConnections then .relayFull else .counted⟩ }

def enter (s : Quotas) (a : Attempt) : Quotas :=
  let locked := { s with locks := s.locks.put (a.account,.attempt a.task) }
  match s.accounts.get? a.account with
  | some (_,usage) => locked.setStage a (.entered usage)
  | none => { locked with
      accounts := s.accounts.put (a.account,s.nextUsage)
      heap := s.heap.put (AccountUsage.default s.nextUsage a.account)
      nextUsage := s.nextUsage+1 }.setStage a (.entered s.nextUsage)

/-- `active.fetch_add`, the end of the lock, and the comparison. -/
def claim (s : Quotas) (a : Attempt) (u : AccountUsage) : Quotas :=
  let active := u.active+1
  let claimed := { s with
    locks := s.locks.erase a.account
    heap := s.heap.put (u.setActive active) }
  if active > s.limits.maxConnectionsPerAccount then claimed.setStage a (.tooMany u.id)
  else { claimed with
    attempts := s.attempts.erase a.task
    guards := s.guards.put ⟨s.nextGuard,a.account,u.id,false⟩
    nextGuard := s.nextGuard+1 }

def setDrain (s : Quotas) (d : Drain) (stage : DrainStage) : Quotas :=
  { s with drains := s.drains.put { d with stage := stage } }

/-- A loaded counter decides whether the entry stays or the next one is loaded. -/
def checked (s : Quotas) (d : Drain) (account : String) (loaded : Nat) (next : DrainStage) :
    Quotas :=
  if loaded ≠ 0 then { s with locks := s.locks.erase account }.setDrain d .retaining
  else s.setDrain d next

def swapDown (s : Quotas) (d : Drain) (account : String) (bytesUp : Nat) (u : AccountUsage) :
    Quotas :=
  { s with
    heap := s.heap.put (u.setBytes .down 0)
    drains := s.drains.put { d with
      batch := if bytesUp ≠ 0 ∨ u.bytesDown ≠ 0 then d.batch ++ [⟨account,bytesUp,u.bytesDown⟩]
        else d.batch
      stage := .visiting } }

end Quotas

inductive Action
  | acquire (task : Nat) (account : String)
  | enter (task : Nat)
  | claim (task : Nat)
  | release (task : Nat)
  | refuse (task : Nat)
  /-- The two halves of a guard's drop. -/
  | drop (guard : Nat)
  | dropped (guard : Nat)
  | counter (guard : Nat)
  | add (usage : Nat) (direction : Direction) (bytes : Nat)
  | drain (task : Nat)
  | visit (task : Nat) (account : String)
  | swapDown (task : Nat)
  | retain (task : Nat)
  | lock (task : Nat) (account : String)
  | check (task : Nat)
  | remove (task : Nat)
  | report (task : Nat)

/-- A step that is not enabled changes nothing. -/
def step (s : Quotas) : Action → Quotas
  | .acquire task account =>
    match s.attempts.get? task with
    | none => s.acquire task account
    | some _ => s
  | .enter task =>
    match s.attempts.get? task with
    | some ⟨t,account,.counted⟩ =>
      if (s.locks.get? account).isNone then s.enter ⟨t,account,.counted⟩ else s
    | _ => s
  | .claim task =>
    match s.attempts.get? task with
    | some ⟨t,account,.entered usage⟩ =>
      match s.heap.get? usage with
      | some u => s.claim ⟨t,account,.entered usage⟩ u
      | none => s
    | _ => s
  | .release task =>
    match s.attempts.get? task with
    | some ⟨t,account,.tooMany usage⟩ =>
      match s.heap.get? usage with
      | some u => { s with heap := s.heap.put (u.setActive (u.active-1)) }.setStage
          ⟨t,account,.tooMany usage⟩ .tooManyTotal
      | none => s
    | _ => s
  | .refuse task =>
    match s.attempts.get? task with
    | some ⟨t,account,.relayFull⟩ => s.refuse ⟨t,account,.relayFull⟩ .relayFull
    | some ⟨t,account,.tooManyTotal⟩ => s.refuse ⟨t,account,.tooManyTotal⟩
        (.tooManyConnections s.limits.maxConnectionsPerAccount)
    | _ => s
  | .drop guard =>
    match s.guards.get? guard with
    | some ⟨g,account,usage,false⟩ =>
      match s.heap.get? usage with
      | some u => { s with
          heap := s.heap.put (u.setActive (u.active-1))
          guards := s.guards.put ⟨g,account,usage,true⟩ }
      | none => s
    | _ => s
  | .dropped guard =>
    match s.guards.get? guard with
    | some ⟨g,_,_,true⟩ => { s with
        totalActive := s.totalActive-1
        guards := s.guards.erase g }
    | _ => s
  | .counter guard =>
    match s.guards.get? guard with
    | some ⟨_,_,usage,false⟩ => { s with counters := usage :: s.counters }
    | _ => s
  | .add usage direction bytes =>
    match s.heap.get? usage with
    | some u => if usage ∈ s.counters then { s with
        heap := s.heap.put (u.setBytes direction (u.bytes direction+bytes))
        added := (u.account,direction,bytes) :: s.added } else s
    | none => s
  | .drain task =>
    match s.drains.get? task with
    | none => { s with drains := s.drains.put ⟨task,[],.visiting⟩ }
    | some _ => s
  | .visit task account =>
    match s.drains.get? task, s.accounts.get? account with
    | some ⟨t,batch,.visiting⟩, some (_,usage) =>
      match s.heap.get? usage with
      | some u => if (s.locks.get? account).isNone then
          { s with heap := s.heap.put (u.setBytes .up 0) }.setDrain ⟨t,batch,.visiting⟩
            (.swapped account usage u.bytesUp) else s
      | none => s
    | _, _ => s
  | .swapDown task =>
    match s.drains.get? task with
    | some ⟨t,batch,.swapped account usage bytesUp⟩ =>
      match s.heap.get? usage with
      | some u => s.swapDown ⟨t,batch,.swapped account usage bytesUp⟩ account bytesUp u
      | none => s
    | _ => s
  | .retain task =>
    match s.drains.get? task with
    | some ⟨t,batch,.visiting⟩ => s.setDrain ⟨t,batch,.visiting⟩ .retaining
    | _ => s
  | .lock task account =>
    match s.drains.get? task, s.accounts.get? account with
    | some ⟨t,batch,.retaining⟩, some (_,usage) =>
      if (s.locks.get? account).isNone then
        { s with locks := s.locks.put (account,.drain t) }.setDrain ⟨t,batch,.retaining⟩
          (.checkActive account usage) else s
    | _, _ => s
  | .check task =>
    match s.drains.get? task with
    | some ⟨t,batch,.checkActive account usage⟩ =>
      match s.heap.get? usage with
      | some u => s.checked ⟨t,batch,.checkActive account usage⟩ account u.active
          (.checkUp account usage)
      | none => s
    | some ⟨t,batch,.checkUp account usage⟩ =>
      match s.heap.get? usage with
      | some u => s.checked ⟨t,batch,.checkUp account usage⟩ account u.bytesUp
          (.checkDown account usage s.added.length)
      | none => s
    | some ⟨t,batch,.checkDown account usage up⟩ =>
      match s.heap.get? usage with
      | some u => s.checked ⟨t,batch,.checkDown account usage up⟩ account u.bytesDown
          (.removing account usage up s.added.length)
      | none => s
    | _ => s
  | .remove task =>
    match s.drains.get? task with
    | some ⟨t,batch,.removing account usage up down⟩ =>
      { s with
        accounts := s.accounts.erase account
        locks := s.locks.erase account }.setDrain ⟨t,batch,.removing account usage up down⟩ .retaining
    | _ => s
  | .report task =>
    match s.drains.get? task with
    | some ⟨t,batch,.retaining⟩ => { s with
        drains := s.drains.erase t
        reports := batch :: s.reports }
    | _ => s

/-- What a step does, with what it has found. A load of `retain` stands for itself. -/
inductive Moves (s : Quotas) : Action → Quotas → Prop
  | idle (a : Action) : Moves s a s
  | acquires {task : Nat} (account : String) (hnew : s.attempts.get? task = none) :
      Moves s (.acquire task account) (s.acquire task account)
  | enters {task : Nat} {account : String} (ha : s.attempts.get? task = some ⟨task,account,.counted⟩)
      (hfree : s.locks.get? account = none) :
      Moves s (.enter task) (s.enter ⟨task,account,.counted⟩)
  | claims {task : Nat} {account : String} {u : AccountUsage}
      (ha : s.attempts.get? task = some ⟨task,account,.entered u.id⟩)
      (hu : s.heap.get? u.id = some u) :
      Moves s (.claim task) (s.claim ⟨task,account,.entered u.id⟩ u)
  | releases {task : Nat} {account : String} {u : AccountUsage}
      (ha : s.attempts.get? task = some ⟨task,account,.tooMany u.id⟩)
      (hu : s.heap.get? u.id = some u) :
      Moves s (.release task)
        ({ s with heap := s.heap.put (u.setActive (u.active-1)) }.setStage
          ⟨task,account,.tooMany u.id⟩ .tooManyTotal)
  | refuses {task : Nat} {account : String} {stage : AttemptStage} (err : QuotaError)
      (ha : s.attempts.get? task = some ⟨task,account,stage⟩)
      (hstage : stage = .relayFull ∨ stage = .tooManyTotal) :
      Moves s (.refuse task) (s.refuse ⟨task,account,stage⟩ err)
  | drops {guard : Nat} {account : String} {u : AccountUsage}
      (hg : s.guards.get? guard = some ⟨guard,account,u.id,false⟩)
      (hu : s.heap.get? u.id = some u) :
      Moves s (.drop guard)
        { s with
          heap := s.heap.put (u.setActive (u.active-1))
          guards := s.guards.put ⟨guard,account,u.id,true⟩ }
  | dropped {guard usage : Nat} {account : String}
      (hg : s.guards.get? guard = some ⟨guard,account,usage,true⟩) :
      Moves s (.dropped guard)
        { s with totalActive := s.totalActive-1, guards := s.guards.erase guard }
  | counts {guard usage : Nat} {account : String}
      (hg : s.guards.get? guard = some ⟨guard,account,usage,false⟩) :
      Moves s (.counter guard) { s with counters := usage :: s.counters }
  | adds {u : AccountUsage} (direction : Direction) (bytes : Nat)
      (hu : s.heap.get? u.id = some u) :
      Moves s (.add u.id direction bytes)
        { s with
          heap := s.heap.put (u.setBytes direction (u.bytes direction+bytes))
          added := (u.account,direction,bytes) :: s.added }
  | drains {task : Nat} (hnew : s.drains.get? task = none) :
      Moves s (.drain task) { s with drains := s.drains.put ⟨task,[],.visiting⟩ }
  | visits {task : Nat} {batch : List AccountBytes} {account : String} {u : AccountUsage}
      (hd : s.drains.get? task = some ⟨task,batch,.visiting⟩)
      (hget : s.accounts.get? account = some (account,u.id)) (hu : s.heap.get? u.id = some u) :
      Moves s (.visit task account)
        ({ s with heap := s.heap.put (u.setBytes .up 0) }.setDrain ⟨task,batch,.visiting⟩
          (.swapped account u.id u.bytesUp))
  | swaps {task bytesUp : Nat} {batch : List AccountBytes} {account : String} {u : AccountUsage}
      (hd : s.drains.get? task = some ⟨task,batch,.swapped account u.id bytesUp⟩)
      (hu : s.heap.get? u.id = some u) :
      Moves s (.swapDown task)
        (s.swapDown ⟨task,batch,.swapped account u.id bytesUp⟩ account bytesUp u)
  | retains {task : Nat} {batch : List AccountBytes}
      (hd : s.drains.get? task = some ⟨task,batch,.visiting⟩) :
      Moves s (.retain task) (s.setDrain ⟨task,batch,.visiting⟩ .retaining)
  | locks {task usage : Nat} {batch : List AccountBytes} {account : String}
      (hd : s.drains.get? task = some ⟨task,batch,.retaining⟩)
      (hget : s.accounts.get? account = some (account,usage))
      (hfree : s.locks.get? account = none) :
      Moves s (.lock task account)
        ({ s with locks := s.locks.put (account,.drain task) }.setDrain ⟨task,batch,.retaining⟩
          (.checkActive account usage))
  | checks (task : Nat) : Moves s (.check task) (step s (.check task))
  | removes {task usage up down : Nat} {batch : List AccountBytes} {account : String}
      (hd : s.drains.get? task = some ⟨task,batch,.removing account usage up down⟩) :
      Moves s (.remove task)
        ({ s with
          accounts := s.accounts.erase account
          locks := s.locks.erase account }.setDrain
            ⟨task,batch,.removing account usage up down⟩ .retaining)
  | reports {task : Nat} {batch : List AccountBytes}
      (hd : s.drains.get? task = some ⟨task,batch,.retaining⟩) :
      Moves s (.report task)
        { s with drains := s.drains.erase task, reports := batch :: s.reports }

theorem moves_step (s : Quotas) (a : Action) : Moves s a (step s a) := by
  have hkey : ∀ {id u}, s.heap.get? id = some u → u.id = id := Table.key_of_get?
  cases a with
  | acquire task account =>
    dsimp only [step]
    split
    · rename_i hnew
      exact .acquires account hnew
    · exact .idle _
  | enter task =>
    dsimp only [step]
    split
    · rename_i t account ha
      obtain rfl : t = task := Table.key_of_get? ha
      split
      · rename_i hfree
        exact .enters ha (Option.isNone_iff_eq_none.mp hfree)
      · exact .idle _
    · exact .idle _
  | claim task =>
    dsimp only [step]
    split
    · rename_i t account usage ha
      obtain rfl : t = task := Table.key_of_get? ha
      split
      · rename_i u hu
        obtain rfl := hkey hu
        exact .claims ha hu
      · exact .idle _
    · exact .idle _
  | release task =>
    dsimp only [step]
    split
    · rename_i t account usage ha
      obtain rfl : t = task := Table.key_of_get? ha
      split
      · rename_i u hu
        obtain rfl := hkey hu
        exact .releases ha hu
      · exact .idle _
    · exact .idle _
  | refuse task =>
    dsimp only [step]
    split
    · rename_i t account ha
      obtain rfl : t = task := Table.key_of_get? ha
      exact .refuses _ ha (Or.inl rfl)
    · rename_i t account ha
      obtain rfl : t = task := Table.key_of_get? ha
      exact .refuses _ ha (Or.inr rfl)
    · exact .idle _
  | drop guard =>
    dsimp only [step]
    split
    · rename_i g account usage hg
      obtain rfl : g = guard := Table.key_of_get? hg
      split
      · rename_i u hu
        obtain rfl := hkey hu
        exact .drops hg hu
      · exact .idle _
    · exact .idle _
  | dropped guard =>
    dsimp only [step]
    split
    · rename_i g account usage hg
      obtain rfl : g = guard := Table.key_of_get? hg
      exact .dropped hg
    · exact .idle _
  | counter guard =>
    dsimp only [step]
    split
    · rename_i g account usage hg
      obtain rfl : g = guard := Table.key_of_get? hg
      exact .counts hg
    · exact .idle _
  | add usage direction bytes =>
    dsimp only [step]
    split
    · rename_i u hu
      obtain rfl := hkey hu
      split
      · exact .adds direction bytes hu
      · exact .idle _
    · exact .idle _
  | drain task =>
    dsimp only [step]
    split
    · rename_i hnew
      exact .drains hnew
    · exact .idle _
  | visit task account =>
    dsimp only [step]
    split
    · rename_i t batch name usage hd hget
      obtain rfl : t = task := Table.key_of_get? hd
      obtain rfl : name = account := Table.key_of_get? hget
      split
      · rename_i u hu
        obtain rfl := hkey hu
        split
        · exact .visits hd hget hu
        · exact .idle _
      · exact .idle _
    · exact .idle _
  | swapDown task =>
    dsimp only [step]
    split
    · rename_i t batch account usage bytesUp hd
      obtain rfl : t = task := Table.key_of_get? hd
      split
      · rename_i u hu
        obtain rfl := hkey hu
        exact .swaps hd hu
      · exact .idle _
    · exact .idle _
  | retain task =>
    dsimp only [step]
    split
    · rename_i t batch hd
      obtain rfl : t = task := Table.key_of_get? hd
      exact .retains hd
    · exact .idle _
  | lock task account =>
    dsimp only [step]
    split
    · rename_i t batch name usage hd hget
      obtain rfl : t = task := Table.key_of_get? hd
      obtain rfl : name = account := Table.key_of_get? hget
      split
      · rename_i hfree
        exact .locks hd hget (Option.isNone_iff_eq_none.mp hfree)
      · exact .idle _
    · exact .idle _
  | check task => exact .checks task
  | remove task =>
    dsimp only [step]
    split
    · rename_i t batch account usage up down hd
      obtain rfl : t = task := Table.key_of_get? hd
      exact .removes hd
    · exact .idle _
  | report task =>
    dsimp only [step]
    split
    · rename_i t batch hd
      obtain rfl : t = task := Table.key_of_get? hd
      exact .reports hd
    · exact .idle _

end WeirdVault.Relay.Quota
