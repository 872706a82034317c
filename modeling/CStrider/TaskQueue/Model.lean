import CStrider.Lib.System
import CStrider.Lib.Ring

/-!
# The parallel task queues (`src/queue.c`, `src/transform.c`)

A parallel session runs `N` threads over `N` queues: thread `i` has home queue `i`, and the main
thread is the last one. A thread is a program point (`Pc`) with the locals that are live there,
and `step` is one atomic action of one thread: a read or write of a shared word, or a mutex
operation. The two counters of a queue are written in separate steps, because `dequeue` bumps the
`inflight` of the home queue while it holds the mutex of the queue it took the task from.

The body of a task is open: between `callxformer` and `deq_task_finished` it may enqueue any
number of further tasks, and so may `visit_all` in the main thread before it enters
`processqueue`. What a label leaves open beside the schedule is only whether there is one more
task to enqueue.
-/

namespace CStrider.TaskQueue

/-- `QUEUESIZE` (`queue.h`). -/
abbrev QUEUESIZE : Nat := 250000

theorem queuesize_pos : 0 < QUEUESIZE := by decide

/-- A task, by the number of the `transform_make_enq` call that allocated it. -/
abbrev Task := Nat

/-- `queue` (`queue.h`); `q`, `front`, `rear` and `count` are the ring. -/
structure Queue where
  ring : Ring QUEUESIZE Task
  queueMutex : Option Nat
  threadStarted : Bool
  inflight : Int

def Queue.count (q : Queue) : Nat := q.ring.count

/-- `init_queue`. -/
def initQueue : Queue where
  ring := Ring.empty queuesize_pos fun _ => 0
  queueMutex := none
  threadStarted := false
  inflight := 0

/-- Who called `enqueue`: `visit_all` in the main thread, or the task that is running. -/
inductive Caller where
  | visitAll
  | task (t : Task)
  deriving DecidableEq, Repr

/-- The program points of a thread. -/
inductive Pc where
  /-- main thread, between `init` and `finish` -/
  | visitAll
  /-- `start_dequeue` -/
  | startLock
  | startSet
  | startUnlock
  /-- `dequeue`: the first trylock, on the home queue -/
  | dequeue
  /-- `highest`, after `i` queues -/
  | highest (i highcount highqueue : Nat)
  /-- `highest`, where the count of queue `i` is read a second time -/
  | highestTake (i : Nat)
  | deqTry (qnum : Nat)
  | deqLocked (qnum : Nat)
  /-- the task is out of the ring, `inflight` is not yet bumped -/
  | deqBump (qnum : Nat) (x : Task)
  | deqUnlock (qnum : Nat) (x : Option Task)
  | callxformer (t : Task)
  | running (t : Task)
  /-- `deq_task_finished` -/
  | finLock
  | finDec
  | finUnlock
  /-- `allqempty`: the read of `allqdone` -/
  | allqempty
  | sampleStarted (i : Nat)
  | sampleInflight (i : Nat)
  | lockAll (i : Nat)
  | checkAll (i : Nat)
  | setDone
  | unlockAll (i : Nat) (isEmpty : Bool)
  /-- the loop of `processqueue` is left -/
  | left
  /-- `lowest`, after `i` queues, on behalf of `enqueue` of `x` -/
  | lowest (k : Caller) (x : Task) (i lowcount lowqueue : Nat)
  | lowestTake (k : Caller) (x : Task) (i : Nat)
  | enqTry (k : Caller) (x : Task) (qnum : Nat)
  | enqLocked (k : Caller) (x : Task) (qnum : Nat)
  | enqUnlock (k : Caller) (x : Task) (qnum : Nat)
  deriving DecidableEq, Repr

/-- Where a thread is once the code that called `enqueue` runs again. -/
def Caller.resume : Caller → Pc
  | .visitAll => .visitAll
  | .task t => .running t

/-- The shared state. `allocated`, `enqueued` and `executed` are not in the program: they record
how many tasks were made, and in which order tasks were enqueued and passed to `callxformer`. -/
structure State where
  queue : Nat → Queue
  allqdone : Bool
  pc : Nat → Pc
  /-- the `assert(0)` of the overflow branch ended the process -/
  aborted : Bool
  allocated : Nat
  enqueued : List Task
  executed : List Task

namespace State

def goto (s : State) (i : Nat) (p : Pc) : State :=
  { s with pc := Function.update s.pc i p }

def setQueue (s : State) (q : Nat) (c : Queue) : State :=
  { s with queue := Function.update s.queue q c }

def setMutex (s : State) (q : Nat) (o : Option Nat) : State :=
  s.setQueue q { s.queue q with queueMutex := o }

/-- `pthread_mutex_lock` by thread `i`, which waits while the mutex is taken. -/
def lock (s : State) (i q : Nat) (p : Pc) : Option State :=
  match (s.queue q).queueMutex with
  | none => some ((s.setMutex q (some i)).goto i p)
  | some _ => none

/-- `pthread_mutex_trylock` by thread `i`: to `p` with the mutex, to `busy` on `EBUSY`. -/
def trylock (s : State) (i q : Nat) (p busy : Pc) : State :=
  match (s.queue q).queueMutex with
  | none => (s.setMutex q (some i)).goto i p
  | some _ => s.goto i busy

/-- `pthread_mutex_unlock`. -/
def unlock (s : State) (i q : Nat) (p : Pc) : State :=
  (s.setMutex q none).goto i p

end State

/-- A label: the thread that moves, and whether its task body (or `visit_all`) has one more task
to enqueue. -/
structure Label where
  thread : Nat
  more : Bool
  deriving Repr

/-- The step of thread `i` at a program point. -/
def stepAt (N i : Nat) (more : Bool) (s : State) : Pc → Option State
  | .visitAll =>
    if more then
      some ({ s with allocated := s.allocated + 1 }.goto i
        (.lowest .visitAll s.allocated 0 QUEUESIZE 0))
    else some (s.goto i .startLock)
  | .startLock => s.lock i i .startSet
  | .startSet =>
    some ((s.setQueue i { s.queue i with threadStarted := true }).goto i .startUnlock)
  | .startUnlock => some (s.unlock i i .dequeue)
  | .dequeue => some (s.trylock i i (.deqLocked i) (.highest 0 0 0))
  | .highest j highcount highqueue =>
    if j < N then
      if highcount < (s.queue j).count then some (s.goto i (.highestTake j))
      else some (s.goto i (.highest (j + 1) highcount highqueue))
    else some (s.goto i (.deqTry highqueue))
  | .highestTake j => some (s.goto i (.highest (j + 1) (s.queue j).count j))
  | .deqTry qnum => some (s.trylock i qnum (.deqLocked qnum) (.deqTry ((qnum + 1) % N)))
  | .deqLocked qnum =>
    if h : 0 < (s.queue qnum).count then
      some ((s.setQueue qnum { s.queue qnum with ring := (s.queue qnum).ring.pop h }).goto i
        (.deqBump qnum (s.queue qnum).ring.head))
    else some (s.goto i (.deqUnlock qnum none))
  | .deqBump qnum x =>
    some ((s.setQueue i { s.queue i with inflight := (s.queue i).inflight + 1 }).goto i
      (.deqUnlock qnum (some x)))
  | .deqUnlock qnum none => some (s.unlock i qnum .allqempty)
  | .deqUnlock qnum (some x) => some (s.unlock i qnum (.callxformer x))
  | .callxformer t => some ({ s with executed := t :: s.executed }.goto i (.running t))
  | .running t =>
    if more then
      some ({ s with allocated := s.allocated + 1 }.goto i
        (.lowest (.task t) s.allocated 0 QUEUESIZE 0))
    else some (s.goto i .finLock)
  | .finLock => s.lock i i .finDec
  | .finDec =>
    some ((s.setQueue i { s.queue i with inflight := (s.queue i).inflight - 1 }).goto i .finUnlock)
  | .finUnlock => some (s.unlock i i .dequeue)
  | .allqempty => some (s.goto i (if s.allqdone then .left else .sampleStarted 0))
  | .sampleStarted j =>
    if j < N then
      if (s.queue j).threadStarted then some (s.goto i (.sampleInflight j))
      else some (s.goto i .dequeue)
    else some (s.goto i (.lockAll 0))
  | .sampleInflight j =>
    if 0 < (s.queue j).inflight then some (s.goto i .dequeue)
    else some (s.goto i (.sampleStarted (j + 1)))
  | .lockAll j => if j < N then s.lock i j (.lockAll (j + 1)) else some (s.goto i (.checkAll 0))
  | .checkAll j =>
    if j < N then
      if (s.queue j).inflight ≠ 0 ∨ (s.queue j).count ≠ 0 ∨ (s.queue j).threadStarted ≠ true then
        some (s.goto i (.unlockAll 0 false))
      else some (s.goto i (.checkAll (j + 1)))
    else some (s.goto i .setDone)
  | .setDone => some ({ s with allqdone := true }.goto i (.unlockAll 0 true))
  | .unlockAll j isEmpty =>
    if j < N then some (s.unlock i j (.unlockAll (j + 1) isEmpty))
    else some (s.goto i (if isEmpty then .left else .dequeue))
  | .left => none
  | .lowest k x j lowcount lowqueue =>
    if j < N then
      if (s.queue j).count < lowcount then some (s.goto i (.lowestTake k x j))
      else some (s.goto i (.lowest k x (j + 1) lowcount lowqueue))
    else some (s.goto i (.enqTry k x lowqueue))
  | .lowestTake k x j => some (s.goto i (.lowest k x (j + 1) (s.queue j).count j))
  | .enqTry k x qnum =>
    some (s.trylock i qnum (.enqLocked k x qnum) (.enqTry k x ((qnum + 1) % N)))
  | .enqLocked k x qnum =>
    if h : (s.queue qnum).count < QUEUESIZE then
      some ({ s.setQueue qnum { s.queue qnum with ring := (s.queue qnum).ring.push x h } with
        enqueued := x :: s.enqueued }.goto i (.enqUnlock k x qnum))
    else some { s with aborted := true }
  | .enqUnlock k _ qnum => some (s.unlock i qnum k.resume)

/-- One step of the session with `N` threads. -/
def step (N : Nat) (l : Label) (s : State) : Option State :=
  if l.thread < N ∧ s.aborted = false then stepAt N l.thread l.more s (s.pc l.thread) else none

/-- The state in which `launch_helpers` leaves the queues: the helpers are about to enter
`processqueue`, the main thread returns to the caller of `init`. -/
def launched (N : Nat) (allqdone : Bool) : State where
  queue := fun _ => initQueue
  allqdone := allqdone
  pc := fun i => if i + 1 = N then .visitAll else .startLock
  aborted := false
  allocated := 0
  enqueued := []
  executed := []

/-- A parallel session of `N` threads that finds `allqdone` as given. -/
def session (N : Nat) (allqdone : Bool) : Sys State Label where
  init s := s = launched N allqdone
  step := step N

end CStrider.TaskQueue
