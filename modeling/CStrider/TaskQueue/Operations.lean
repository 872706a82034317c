import CStrider.TaskQueue.Model

/-!
# The queue operations on their own (`src/queue.c`)

Any number of threads call `enqueue`, `dequeue`, `start_dequeue`, `deq_task_finished` and
`allqempty` on an array of `N` queues, in any order, with any arguments and from any fill levels. As
in a session a step is a read or write of a shared word, or a mutex operation.

`fullSeen` is not in the program: it records of each `enqueue` call whether all queues have been
full at one moment since the call began.
-/

namespace CStrider.TaskQueue.Operations

/-- A call of one of the five operations. -/
inductive Op where
  | startDequeue (q : Nat)
  | allqempty
  | enqueue (x : Task)
  | deqTaskFinished (q : Nat)
  | dequeue (homeq : Nat)
  deriving DecidableEq, Repr

/-- What an operation returns. -/
inductive Result where
  | void
  | int (n : Int)
  | ptr (x : Option Task)
  deriving DecidableEq, Repr

/-- Where a thread is. In `enqueue`, `room` records whether `lowest` returned a queue in which it
found room; if it found none it returns queue 0. -/
inductive Point where
  | returned (r : Result)
  | startLock (q : Nat)
  | startSet (q : Nat)
  | startUnlock (q : Nat)
  | allqempty
  | sampleStarted (i : Nat)
  | sampleInflight (i : Nat)
  | lockAll (i : Nat)
  | checkAll (i : Nat)
  | setDone
  | unlockAll (i : Nat) (isEmpty : Bool)
  | lowest (x : Task) (i lowcount lowqueue : Nat)
  /-- the count of queue `i` is read a second time -/
  | lowestTake (x : Task) (i : Nat)
  | enqTry (x : Task) (qnum : Nat) (room : Bool)
  | enqLocked (x : Task) (qnum : Nat) (room : Bool)
  | overflow (x : Task) (qnum : Nat)
  | enqUnlock (qnum : Nat) (r : Int)
  | finLock (q : Nat)
  | finDec (q : Nat)
  | finUnlock (q : Nat)
  | dequeue (homeq : Nat)
  | highest (homeq i highcount highqueue : Nat)
  | highestTake (homeq i : Nat)
  | deqTry (homeq qnum : Nat)
  | deqLocked (homeq qnum : Nat)
  | deqBump (homeq qnum : Nat) (x : Task)
  | deqUnlock (qnum : Nat) (x : Option Task)
  deriving DecidableEq, Repr

/-- The thread is in `enqueue`. -/
def Point.enqueuing : Point → Bool
  | .lowest .. | .lowestTake .. | .enqTry .. | .enqLocked .. | .overflow .. | .enqUnlock .. => true
  | _ => false

structure State where
  queue : Nat → Queue
  allqdone : Bool
  point : Nat → Point
  /-- an assertion failed -/
  aborted : Bool
  fullSeen : Nat → Bool

namespace State

def goto (s : State) (i : Nat) (p : Point) : State :=
  { s with point := Function.update s.point i p }

def setQueue (s : State) (q : Nat) (c : Queue) : State :=
  { s with queue := Function.update s.queue q c }

def setMutex (s : State) (q : Nat) (o : Option Nat) : State :=
  s.setQueue q { s.queue q with queueMutex := o }

/-- `pthread_mutex_lock` by thread `i`. -/
def lock (s : State) (i q : Nat) (p : Point) : Option State :=
  match (s.queue q).queueMutex with
  | none => some ((s.setMutex q (some i)).goto i p)
  | some _ => none

/-- `pthread_mutex_trylock` by thread `i`: to `p` with the mutex, to `busy` on `EBUSY`. -/
def trylock (s : State) (i q : Nat) (p busy : Point) : State :=
  match (s.queue q).queueMutex with
  | none => (s.setMutex q (some i)).goto i p
  | some _ => s.goto i busy

/-- `pthread_mutex_unlock`. -/
def unlock (s : State) (i q : Nat) (p : Point) : State := (s.setMutex q none).goto i p

/-- All queues hold `QUEUESIZE` tasks. -/
def AllFull (N : Nat) (s : State) : Prop := ∀ q < N, (s.queue q).count = QUEUESIZE

instance (N : Nat) (s : State) : Decidable (s.AllFull N) := Nat.decidableBallLT N _

end State

/-- Thread `thread` moves; where it is in no operation, it calls `op`. -/
structure Label where
  thread : Nat
  op : Op
  deriving Repr

section Step

variable (asserts : Bool) (N : Nat)

/-- The first program point of an operation; `none` for a queue that is not in the array. -/
def enter : Op → Option Point
  | .startDequeue q => if q < N then some (.startLock q) else none
  | .allqempty => some .allqempty
  | .enqueue x => some (.lowest x 0 QUEUESIZE 0)
  | .deqTaskFinished q => if q < N then some (.finLock q) else none
  | .dequeue homeq => if homeq < N then some (.dequeue homeq) else none

/-- The step of thread `i` at a program point. -/
def stepAt (i : Nat) (op : Op) (s : State) : Point → Option State
  | .returned _ => (enter N op).map (s.goto i)
  | .startLock q => s.lock i q (.startSet q)
  | .startSet q =>
    some ((s.setQueue q { s.queue q with threadStarted := true }).goto i (.startUnlock q))
  | .startUnlock q => some (s.unlock i q (.returned .void))
  | .allqempty => some (s.goto i (if s.allqdone then .returned (.int 1) else .sampleStarted 0))
  | .sampleStarted j =>
    if j < N then
      if (s.queue j).threadStarted then some (s.goto i (.sampleInflight j))
      else some (s.goto i (.returned (.int 0)))
    else some (s.goto i (.lockAll 0))
  | .sampleInflight j =>
    if 0 < (s.queue j).inflight then some (s.goto i (.returned (.int 0)))
    else some (s.goto i (.sampleStarted (j + 1)))
  | .lockAll j => if j < N then s.lock i j (.lockAll (j + 1)) else some (s.goto i (.checkAll 0))
  | .checkAll j =>
    if j < N then
      if (s.queue j).inflight ≠ 0 ∨ (s.queue j).count ≠ 0 ∨ (s.queue j).threadStarted ≠ true then
        some (s.goto i (.unlockAll 0 false))
      else some (s.goto i (.checkAll (j + 1)))
    else some (s.goto i .setDone)
  | .setDone => some ({ s with allqdone := true }.goto i (.unlockAll 0 true))
  | .unlockAll j isEmpty =>
    if j < N then some (s.unlock i j (.unlockAll (j + 1) isEmpty))
    else some (s.goto i (.returned (.int (if isEmpty then 1 else 0))))
  | .lowest x j lowcount lowqueue =>
    if j < N then
      if (s.queue j).count < lowcount then some (s.goto i (.lowestTake x j))
      else some (s.goto i (.lowest x (j + 1) lowcount lowqueue))
    else some (s.goto i (.enqTry x lowqueue (lowcount < QUEUESIZE)))
  | .lowestTake x j => some (s.goto i (.lowest x (j + 1) (s.queue j).count j))
  | .enqTry x qnum room =>
    some (s.trylock i qnum (.enqLocked x qnum room) (.enqTry x ((qnum + 1) % N) room))
  | .enqLocked x qnum _ =>
    if h : (s.queue qnum).count < QUEUESIZE then
      some ((s.setQueue qnum { s.queue qnum with ring := (s.queue qnum).ring.push x h }).goto i
        (.enqUnlock qnum 1))
    else some (s.goto i (.overflow x qnum))
  | .overflow _ qnum =>
    if asserts then some { s with aborted := true } else some (s.goto i (.enqUnlock qnum 0))
  | .enqUnlock qnum r => some (s.unlock i qnum (.returned (.int r)))
  | .finLock q => s.lock i q (.finDec q)
  | .finDec q =>
    some ((s.setQueue q { s.queue q with inflight := (s.queue q).inflight - 1 }).goto i
      (.finUnlock q))
  | .finUnlock q => some (s.unlock i q (.returned .void))
  | .dequeue homeq => some (s.trylock i homeq (.deqLocked homeq homeq) (.highest homeq 0 0 0))
  | .highest homeq j highcount highqueue =>
    if j < N then
      if highcount < (s.queue j).count then some (s.goto i (.highestTake homeq j))
      else some (s.goto i (.highest homeq (j + 1) highcount highqueue))
    else some (s.goto i (.deqTry homeq highqueue))
  | .highestTake homeq j => some (s.goto i (.highest homeq (j + 1) (s.queue j).count j))
  | .deqTry homeq qnum =>
    some (s.trylock i qnum (.deqLocked homeq qnum) (.deqTry homeq ((qnum + 1) % N)))
  | .deqLocked homeq qnum =>
    if h : 0 < (s.queue qnum).count then
      some ((s.setQueue qnum { s.queue qnum with ring := (s.queue qnum).ring.pop h }).goto i
        (.deqBump homeq qnum (s.queue qnum).ring.head))
    else some (s.goto i (.deqUnlock qnum none))
  | .deqBump homeq qnum x =>
    some ((s.setQueue homeq
      { s.queue homeq with inflight := (s.queue homeq).inflight + 1 }).goto i
        (.deqUnlock qnum (some x)))
  | .deqUnlock qnum x => some (s.unlock i qnum (.returned (.ptr x)))

/-- What `fullSeen` records of a step from `s` to `t`. -/
def observe (s t : State) : State :=
  { t with
    fullSeen := fun i =>
      (t.point i).enqueuing &&
        ((s.point i).enqueuing && s.fullSeen i || decide (t.AllFull N)) }

def step (l : Label) (s : State) : Option State :=
  if s.aborted then none
  else (stepAt asserts N l.thread l.op s (s.point l.thread)).map (observe N s)

/-- No thread is in an operation; the queues may hold any tasks. -/
structure Initial (s : State) : Prop where
  mutex : ∀ q, (s.queue q).queueMutex = none
  point : ∀ i, ∃ r, s.point i = .returned r
  aborted : s.aborted = false

/-- The operations on `N` queues, with `assert` enabled or not. -/
def operations : Sys State Label where
  init := Initial
  step := step asserts N

end Step

end CStrider.TaskQueue.Operations
