import CStrider.TaskQueue.Model

/-!
# What one step of a queue thread can do

Every invariant of a session is about four views of the program points: the mutexes a thread
owns there (`holds`), its share of the open work (`work`), how many queues its scan in
`allqempty` has found quiet (`checked`), and whether it is on its way out of `processqueue`
(`saysDone`). `Effect` lists the steps by what they do to the shared state and to these views,
and `stepAt_effect` is the one place where the program points are taken apart.
-/

namespace CStrider.TaskQueue

/-- No task is waiting in the queue or running on behalf of it, and its thread has started. -/
def Queue.Quiet (q : Queue) : Prop :=
  q.inflight = 0 ∧ q.count = 0 ∧ q.threadStarted = true

/-- The mutexes that thread `i` owns at a program point. -/
def holds (N i : Nat) : Pc → Nat → Prop
  | .startSet, q | .startUnlock, q | .finDec, q | .finUnlock, q => q = i
  | .deqLocked r, q | .deqBump r _, q | .deqUnlock r _, q => q = r
  | .enqLocked _ _ r, q | .enqUnlock _ _ r, q => q = r
  | .lockAll j, q => q < j ∧ q < N
  | .checkAll _, q | .setDone, q => q < N
  | .unlockAll j _, q => j ≤ q ∧ q < N
  | _, _ => False

/-- A thread's share of the open work: its part of its home queue's `inflight`, whether it has
announced itself, the task it has dequeued and not yet passed to `callxformer`, and the task it
has allocated and not yet enqueued. -/
structure Work where
  inflight : Int
  started : Bool
  pending : List Task
  making : List Task

def Caller.work : Caller → Work
  | .visitAll => ⟨0, false, [], []⟩
  | .task _ => ⟨1, true, [], []⟩

def work : Pc → Work
  | .visitAll | .startLock | .startSet => ⟨0, false, [], []⟩
  | .deqBump _ x => ⟨0, true, [x], []⟩
  | .deqUnlock _ (some x) | .callxformer x => ⟨1, true, [x], []⟩
  | .running _ | .finLock | .finDec => ⟨1, true, [], []⟩
  | .lowest k x _ _ _ | .lowestTake k x _ | .enqTry k x _ | .enqLocked k x _ =>
    { k.work with making := [x] }
  | .enqUnlock k _ _ => k.work
  | _ => ⟨0, true, [], []⟩

/-- How many queues `allqempty` has found quiet under all locks. -/
def checked (N : Nat) : Pc → Nat
  | .checkAll j => j
  | .setDone => N
  | _ => 0

/-- `allqempty` is about to return, or has returned, nonzero. -/
def saysDone : Pc → Prop
  | .unlockAll _ isEmpty => isEmpty = true
  | .left => True
  | _ => False

/-- The queue numbers in the locals name queues. -/
def inRange (N : Nat) : Pc → Prop
  | .highest _ _ r | .highestTake r | .deqTry r | .deqLocked r | .deqBump r _ | .deqUnlock r _ =>
    r < N
  | .lowest _ _ _ _ r | .lowestTake _ _ r | .enqTry _ _ r | .enqLocked _ _ r
  | .enqUnlock _ _ r => r < N
  | _ => True

/-- What thread `i` does to the shared state in one step, with the mutexes it owns and the work it
has afterwards. -/
inductive Act (N i : Nat) (s : State) : State → (Nat → Prop) → Work → Prop where
  | skip : Act N i s s (holds N i (s.pc i)) (work (s.pc i))
  | lock (q : Nat) (free : (s.queue q).queueMutex = none) :
      Act N i s (s.setMutex q (some i)) (fun r => r = q ∨ holds N i (s.pc i) r) (work (s.pc i))
  | unlock (q : Nat) (own : holds N i (s.pc i) q) :
      Act N i s (s.setMutex q none) (fun r => r ≠ q ∧ holds N i (s.pc i) r) (work (s.pc i))
  | start (own : holds N i (s.pc i) i) :
      Act N i s (s.setQueue i { s.queue i with threadStarted := true }) (holds N i (s.pc i))
        { work (s.pc i) with started := true }
  | pop (q : Nat) (h : 0 < (s.queue q).ring.count) (hq : q < N) (own : holds N i (s.pc i) q)
      (idle : (work (s.pc i)).pending = []) :
      Act N i s (s.setQueue q { s.queue q with ring := (s.queue q).ring.pop h })
        (holds N i (s.pc i)) { work (s.pc i) with pending := [(s.queue q).ring.head] }
  | bump (q : Nat) (hq : q < N) (own : holds N i (s.pc i) q)
      (busy : (work (s.pc i)).pending ≠ []) :
      Act N i s (s.setQueue i { s.queue i with inflight := (s.queue i).inflight + 1 })
        (holds N i (s.pc i)) { work (s.pc i) with inflight := (work (s.pc i)).inflight + 1 }
  | call (t : Task) (busy : (work (s.pc i)).pending = [t]) :
      Act N i s { s with executed := t :: s.executed } (holds N i (s.pc i))
        { work (s.pc i) with pending := [] }
  | dec (own : holds N i (s.pc i) i) (busy : (work (s.pc i)).inflight ≠ 0) :
      Act N i s (s.setQueue i { s.queue i with inflight := (s.queue i).inflight - 1 })
        (holds N i (s.pc i)) { work (s.pc i) with inflight := (work (s.pc i)).inflight - 1 }
  | alloc (idle : (work (s.pc i)).making = [])
      (busy : (work (s.pc i)).started = false ∨ (work (s.pc i)).inflight ≠ 0) :
      Act N i s { s with allocated := s.allocated + 1 } (holds N i (s.pc i))
        { work (s.pc i) with making := [s.allocated] }
  | push (q : Nat) (x : Task) (h : (s.queue q).ring.count < QUEUESIZE) (hq : q < N)
      (own : holds N i (s.pc i) q) (busy : (work (s.pc i)).making = [x]) :
      Act N i s { s.setQueue q { s.queue q with ring := (s.queue q).ring.push x h } with
        enqueued := x :: s.enqueued } (holds N i (s.pc i)) { work (s.pc i) with making := [] }
  | done (all : ∀ q < N, holds N i (s.pc i) q) (scan : checked N (s.pc i) = N) :
      Act N i s { s with allqdone := true } (holds N i (s.pc i)) (work (s.pc i))
  | abort (busy : (work (s.pc i)).making ≠ []) :
      Act N i s { s with aborted := true } (holds N i (s.pc i)) (work (s.pc i))

/-- The program point `p` where thread `i` goes from `s` with the mutexes `H` and the work `w`,
when `t` is the shared state after the step. -/
structure Moves (N i : Nat) (s t : State) (p : Pc) (H : Nat → Prop) (w : Work) : Prop where
  holds : ∀ q, holds N i p q ↔ H q
  work : work p = w
  checked : ∀ q < checked N p, q < TaskQueue.checked N (s.pc i) ∨ (t.queue q).Quiet
  leaving : saysDone p → saysDone (s.pc i) ∨ t.allqdone = true
  inRange : inRange N p

/-- A step of thread `i`: an action on the shared state and a move. -/
inductive Effect (N i : Nat) (s : State) : State → Prop where
  | mk {t : State} {p : Pc} {H : Nat → Prop} {w : Work} (a : Act N i s t H w)
      (m : Moves N i s t p H w) : Effect N i s (t.goto i p)

theorem goto_self (s : State) (i : Nat) : s.goto i (s.pc i) = s := by
  simp [State.goto]

/-! ## Facts about the views -/

/-- The work of a thread that has announced itself, runs no task and holds none. -/
def Work.idle : Work := ⟨0, true, [], []⟩

section Views

variable {N i : Nat} {p : Pc}

/-- A thread that scans owns all mutexes and has nothing to do. -/
theorem holds_of_checked (h : 0 < checked N p) : ∀ q < N, holds N i p q := by
  cases p with
  | checkAll j => exact fun q hq => hq
  | setDone => exact fun q hq => hq
  | _ => exact absurd h (Nat.lt_irrefl 0)

theorem work_of_checked (h : 0 < checked N p) : work p = Work.idle := by
  cases p with
  | checkAll | setDone => rfl
  | _ => exact absurd h (Nat.lt_irrefl 0)

/-- Without a mutex, a started thread that is not counted in flight has nothing to do. -/
theorem work_eq_idle (hr : inRange N p) (hn : ∀ q < N, ¬ holds N i p q)
    (hs : (work p).started = true) (hf : (work p).inflight = 0) : work p = Work.idle := by
  cases p with
  | deqBump qnum x => exact absurd rfl (hn qnum hr)
  | deqUnlock qnum x => exact absurd rfl (hn qnum hr)
  | lowest k | lowestTake k | enqTry k | enqLocked k | enqUnlock k =>
    cases k <;> simp_all [work, Caller.work]
  | _ => simp_all [work, Work.idle]

end Views

/-! ## The effect of a step -/

section Step

variable {N i : Nat} {more : Bool} {s s' : State} {p : Pc}

/-- `Moves` for the steps that neither scan nor decide anything. -/
theorem Moves.plain {t : State} {H : Nat → Prop} {w : Work}
    (hh : ∀ q, TaskQueue.holds N i p q ↔ H q) (hw : TaskQueue.work p = w)
    (hc : TaskQueue.checked N p = 0) (hs : ¬ saysDone p) (hr : TaskQueue.inRange N p) :
    Moves N i s t p H w :=
  ⟨hh, hw, fun q hq => by omega, fun h => absurd h hs, hr⟩

theorem lock_effect {q : Nat} (h : s.lock i q p = some s')
    (m : Moves N i s (s.setMutex q (some i)) p (fun r => r = q ∨ holds N i (s.pc i) r)
      (work (s.pc i))) :
    Effect N i s s' := by
  unfold State.lock at h
  split at h
  · next free =>
    cases h
    exact .mk (.lock q free) m
  · cases h

theorem trylock_effect {q : Nat} {busy : Pc}
    (m : Moves N i s (s.setMutex q (some i)) p (fun r => r = q ∨ holds N i (s.pc i) r)
      (work (s.pc i)))
    (mb : Moves N i s s busy (holds N i (s.pc i)) (work (s.pc i))) :
    Effect N i s (s.trylock i q p busy) := by
  unfold State.trylock
  split
  · next free => exact .mk (.lock q free) m
  · exact .mk .skip mb

/-- What a step of thread `i` does, program point by program point. -/
theorem stepAt_effect (hi : i < N) (hr : inRange N (s.pc i))
    (h : stepAt N i more s (s.pc i) = some s') : Effect N i s s' := by
  have hN : ∀ q, (q + 1) % N < N := fun q => Nat.mod_lt _ (by omega)
  generalize hp : s.pc i = pc at h hr
  cases pc with
  | visitAll =>
    simp only [stepAt] at h
    split at h <;> cases h
    · refine .mk (.alloc (by rw [hp]; rfl) (.inl (by rw [hp]; rfl))) (.plain ?_ ?_ rfl id ?_)
      · simp [hp, holds]
      · simp [hp, work, Caller.work]
      · simp [inRange]; omega
    · exact .mk .skip (.plain (by simp [hp, holds]) (by simp [hp, work]) rfl id trivial)
  | startLock =>
    exact lock_effect h (.plain (by simp [hp, holds]) (by simp [hp, work]) rfl id trivial)
  | startSet =>
    cases h
    exact .mk (.start (by simp [hp, holds]))
      (.plain (by simp [hp, holds]) (by simp [hp, work]) rfl id trivial)
  | startUnlock =>
    cases h
    exact .mk (.unlock _ (by simp [hp, holds]))
      (.plain (by simp [hp, holds]) (by simp [hp, work]) rfl id trivial)
  | dequeue =>
    cases h
    exact trylock_effect (.plain (by simp [hp, holds]) (by simp [hp, work]) rfl id hi)
      (.plain (by simp [hp, holds]) (by simp [hp, work]) rfl id (by simp [inRange]; omega))
  | highest j highcount highqueue =>
    simp only [stepAt] at h
    split at h
    · split at h <;> cases h
      · next hj _ =>
        exact .mk .skip (.plain (by simp [hp, holds]) (by simp [hp, work]) rfl id hj)
      · exact .mk .skip (.plain (by simp [hp, holds]) (by simp [hp, work]) rfl id hr)
    · cases h
      exact .mk .skip (.plain (by simp [hp, holds]) (by simp [hp, work]) rfl id hr)
  | highestTake j =>
    cases h
    exact .mk .skip (.plain (by simp [hp, holds]) (by simp [hp, work]) rfl id hr)
  | deqTry qnum =>
    cases h
    exact trylock_effect (.plain (by simp [hp, holds]) (by simp [hp, work]) rfl id hr)
      (.plain (by simp [hp, holds]) (by simp [hp, work]) rfl id (hN _))
  | deqLocked qnum =>
    simp only [stepAt] at h
    split at h <;> cases h
    · next hc =>
      exact .mk (.pop qnum hc hr (by simp [hp, holds]) (by rw [hp]; rfl))
        (.plain (by simp [hp, holds]) (by simp [hp, work]) rfl id hr)
    · exact .mk .skip (.plain (by simp [hp, holds]) (by simp [hp, work]) rfl id hr)
  | deqBump qnum x =>
    cases h
    exact .mk (.bump qnum hr (by simp [hp, holds]) (by simp [hp, work]))
      (.plain (by simp [hp, holds]) (by simp [hp, work]) rfl id hr)
  | deqUnlock qnum r =>
    cases r <;> cases h <;>
      exact .mk (.unlock qnum (by simp [hp, holds]))
        (.plain (by simp [hp, holds]) (by simp [hp, work]) rfl id trivial)
  | callxformer t =>
    cases h
    exact .mk (.call t (by rw [hp]; rfl))
      (.plain (by simp [hp, holds]) (by simp [hp, work]) rfl id trivial)
  | running t =>
    simp only [stepAt] at h
    split at h <;> cases h
    · refine .mk (.alloc (by rw [hp]; rfl) (.inr (by simp [hp, work]))) (.plain ?_ ?_ rfl id ?_)
      · simp [hp, holds]
      · simp [hp, work, Caller.work]
      · simp [inRange]; omega
    · exact .mk .skip (.plain (by simp [hp, holds]) (by simp [hp, work]) rfl id trivial)
  | finLock =>
    exact lock_effect h (.plain (by simp [hp, holds]) (by simp [hp, work]) rfl id trivial)
  | finDec =>
    cases h
    exact .mk (.dec (by simp [hp, holds]) (by simp [hp, work]))
      (.plain (by simp [hp, holds]) (by simp [hp, work]) rfl id trivial)
  | finUnlock =>
    cases h
    exact .mk (.unlock _ (by simp [hp, holds]))
      (.plain (by simp [hp, holds]) (by simp [hp, work]) rfl id trivial)
  | allqempty =>
    cases h
    refine .mk .skip ?_
    split
    · next hd => exact ⟨by simp [hp, holds], by simp [hp, work], by simp [checked], fun _ => .inr hd,
        trivial⟩
    · exact .plain (by simp [hp, holds]) (by simp [hp, work]) rfl id trivial
  | sampleStarted j =>
    simp only [stepAt] at h
    split at h
    · split at h <;> cases h <;>
        exact .mk .skip (.plain (by simp [hp, holds]) (by simp [hp, work]) rfl id trivial)
    · cases h
      exact .mk .skip (.plain (by simp [hp, holds]) (by simp [hp, work]) rfl id trivial)
  | sampleInflight j =>
    simp only [stepAt] at h
    split at h <;> cases h <;>
      exact .mk .skip (.plain (by simp [hp, holds]) (by simp [hp, work]) rfl id trivial)
  | lockAll j =>
    simp only [stepAt] at h
    split at h
    · next hj =>
      refine lock_effect h (.plain (fun r => ?_) (by simp [hp, work]) rfl id trivial)
      simp only [hp, holds]
      omega
    · cases h
      refine .mk .skip (.plain (fun r => ?_) (by simp [hp, work]) rfl id trivial)
      simp only [hp, holds]
      omega
  | checkAll j =>
    simp only [stepAt] at h
    split at h
    · split at h <;> cases h
      · exact .mk .skip (.plain (by simp [hp, holds]) (by simp [hp, work]) rfl (by simp [saysDone])
          trivial)
      · -- queue `j` is quiet, which is what one more checked queue means
        next hj hq =>
        refine .mk .skip ⟨by simp [hp, holds], by simp [hp, work], fun q hq' => ?_, (absurd · id),
          trivial⟩
        simp only [checked, hp] at hq' ⊢
        by_cases hqj : q = j
        · right
          simpa [hqj, Queue.Quiet, not_or] using hq
        · left
          omega
    · cases h
      next hj =>
      exact .mk .skip ⟨by simp [hp, holds], by simp [hp, work],
        fun q (hq : q < N) => .inl (by simp only [hp, checked]; omega), (absurd · id), trivial⟩
  | setDone =>
    cases h
    exact .mk (.done (by simp [hp, holds]) (by simp [hp, checked]))
      ⟨by simp [hp, holds], by simp [hp, work], by simp [checked], fun _ => .inr rfl, trivial⟩
  | unlockAll j isEmpty =>
    simp only [stepAt] at h
    split at h <;> cases h
    · next hj =>
      refine .mk (.unlock j (by simp [hp, holds, hj])) ⟨fun r => ?_, by simp [hp, work],
        by simp [checked], fun hs => .inl (by rw [hp]; exact hs), trivial⟩
      simp only [hp, holds]
      omega
    · next hj =>
      have hno : ∀ q, ¬ (j ≤ q ∧ q < N) := fun q => by omega
      refine .mk .skip ?_
      cases isEmpty
      · exact .plain (by simp [hp, holds, hno]) (by simp [hp, work]) rfl id trivial
      · exact ⟨by simp [hp, holds, hno], by simp [hp, work], by simp [checked],
          fun _ => .inl (by rw [hp]; rfl), trivial⟩
  | left => cases h
  | lowest k x j lowcount lowqueue =>
    simp only [stepAt] at h
    split at h
    · split at h <;> cases h
      · next hj _ =>
        exact .mk .skip (.plain (by simp [hp, holds]) (by simp [hp, work]) rfl id hj)
      · exact .mk .skip (.plain (by simp [hp, holds]) (by simp [hp, work]) rfl id hr)
    · cases h
      exact .mk .skip (.plain (by simp [hp, holds]) (by simp [hp, work]) rfl id hr)
  | lowestTake k x j =>
    cases h
    exact .mk .skip (.plain (by simp [hp, holds]) (by simp [hp, work]) rfl id hr)
  | enqTry k x qnum =>
    cases h
    exact trylock_effect (.plain (by simp [hp, holds]) (by simp [hp, work]) rfl id hr)
      (.plain (by simp [hp, holds]) (by simp [hp, work]) rfl id (hN _))
  | enqLocked k x qnum =>
    simp only [stepAt] at h
    split at h <;> cases h
    · next hc =>
      refine .mk (.push qnum x hc hr (by simp [hp, holds]) (by rw [hp]; rfl))
        (.plain (by simp [hp, holds]) ?_ rfl id hr)
      cases k <;> simp [hp, work, Caller.work]
    · rw [← goto_self { s with aborted := true } i]
      refine .mk (.abort (by simp [hp, work])) (.plain (by simp) rfl ?_ ?_ ?_)
      · show checked N (s.pc i) = 0
        rw [hp]; rfl
      · show ¬ saysDone (s.pc i)
        rw [hp]; exact id
      · show inRange N (s.pc i)
        rw [hp]; exact hr
  | enqUnlock k x qnum =>
    cases h
    cases k <;>
      exact .mk (.unlock qnum (by simp [hp, holds]))
        (.plain (by simp [hp, holds, Caller.resume]) (by simp [hp, work, Caller.work, Caller.resume])
          rfl id trivial)

/-- The form in which the invariants use it. -/
theorem step_effect {l : Label} (hr : ∀ i < N, inRange N (s.pc i)) (h : step N l s = some s') :
    l.thread < N ∧ Effect N l.thread s s' := by
  unfold step at h
  split at h
  · next hl => exact ⟨hl.1, stepAt_effect hl.1 (hr _ hl.1) h⟩
  · cases h

end Step

end CStrider.TaskQueue
