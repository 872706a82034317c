import CStrider.Lib.WaitFor
import CStrider.TaskQueue.Operations

/-!
# The queue mutexes

What an operation does to mutexes and counts in one step is said once (`Act`), and which mutexes it
owns at each of its program points (`holds`). `allqempty` is the only operation that waits for a
mutex while it owns others, and it takes them in the order of the array.
-/

namespace CStrider.TaskQueue.Operations

/-- The mutexes that a thread owns at a program point. -/
def holds (N : Nat) : Point → Nat → Prop
  | .startSet r, q | .startUnlock r, q | .finDec r, q | .finUnlock r, q => q = r
  | .deqLocked _ r, q | .deqBump _ r _, q | .deqUnlock r _, q => q = r
  | .enqLocked _ r _, q | .overflow _ r, q | .enqUnlock r _, q => q = r
  | .lockAll j, q => q < j ∧ q < N
  | .checkAll _, q | .setDone, q => q < N
  | .unlockAll j _, q => j ≤ q ∧ q < N
  | _, _ => False

/-- What thread `i` does to the shared state in one step, with the mutexes that it owns
afterwards. -/
inductive Act (N i : Nat) (s : State) : State → (Nat → Prop) → Prop where
  | skip {t : State} (mutex : ∀ q, (t.queue q).queueMutex = (s.queue q).queueMutex)
      (count : ∀ q, (t.queue q).count = (s.queue q).count) : Act N i s t (holds N (s.point i))
  | lock (q : Nat) (free : (s.queue q).queueMutex = none) :
      Act N i s (s.setMutex q (some i)) fun r => r = q ∨ holds N (s.point i) r
  | unlock (q : Nat) (own : holds N (s.point i) q) :
      Act N i s (s.setMutex q none) fun r => r ≠ q ∧ holds N (s.point i) r
  | pop (q : Nat) (h : 0 < (s.queue q).ring.count) (own : holds N (s.point i) q) :
      Act N i s (s.setQueue q { s.queue q with ring := (s.queue q).ring.pop h })
        (holds N (s.point i))
  | push (q : Nat) (x : Task) (room : Bool) (h : (s.queue q).ring.count < QUEUESIZE)
      (point : s.point i = .enqLocked x q room) :
      Act N i s (s.setQueue q { s.queue q with ring := (s.queue q).ring.push x h })
        (holds N (s.point i))

/-- A step of thread `i` up to `fullSeen`: an action on the shared state and a move to a point with
the mutexes that it has then. -/
inductive Effect (N i : Nat) (s : State) : State → Prop where
  | mk {t : State} {p : Point} {H : Nat → Prop} (act : Act N i s t H) (others : t.point = s.point)
      (aborted : t.aborted = s.aborted) (seen : t.fullSeen = s.fullSeen)
      (own : ∀ q, holds N p q ↔ H q) : Effect N i s (t.goto i p)

section Effects

variable {asserts : Bool} {N i : Nat} {op : Op} {s s' : State} {p : Point}

theorem Effect.skip (hp : ∀ q, holds N p q ↔ holds N (s.point i) q) : Effect N i s (s.goto i p) :=
  ⟨.skip (fun _ => rfl) (fun _ => rfl), rfl, rfl, rfl, hp⟩

/-- A write to a queue that changes neither its mutex nor its count. -/
theorem Effect.write {q : Nat} {c : Queue} (hm : c.queueMutex = (s.queue q).queueMutex)
    (hc : c.count = (s.queue q).count) (hp : ∀ r, holds N p r ↔ holds N (s.point i) r) :
    Effect N i s ((s.setQueue q c).goto i p) := by
  refine ⟨.skip (fun r => ?_) (fun r => ?_), rfl, rfl, rfl, hp⟩ <;>
  · by_cases hr : r = q
    · subst hr
      simp [State.setQueue, hm, hc]
    · simp [State.setQueue, Function.update_of_ne hr]

theorem Effect.lock {q : Nat} (h : s.lock i q p = some s')
    (hp : ∀ r, holds N p r ↔ r = q ∨ holds N (s.point i) r) : Effect N i s s' := by
  unfold State.lock at h
  split at h
  · next free =>
    cases h
    exact ⟨.lock q free, rfl, rfl, rfl, hp⟩
  · cases h

theorem Effect.trylock {q : Nat} {busy : Point}
    (hp : ∀ r, holds N p r ↔ r = q ∨ holds N (s.point i) r)
    (hbusy : ∀ r, holds N busy r ↔ holds N (s.point i) r) :
    Effect N i s (s.trylock i q p busy) := by
  unfold State.trylock
  split
  · next free => exact ⟨.lock q free, rfl, rfl, rfl, hp⟩
  · exact .skip hbusy

theorem Effect.unlock {q : Nat} (own : holds N (s.point i) q)
    (hp : ∀ r, holds N p r ↔ r ≠ q ∧ holds N (s.point i) r) :
    Effect N i s (s.unlock i q p) := ⟨.unlock q own, rfl, rfl, rfl, hp⟩

theorem enter_eq_some (h : enter N op = some p) (q : Nat) : ¬ holds N p q := by
  cases op <;> simp only [enter, Option.ite_some_none_eq_some, Option.some.injEq] at h
  case startDequeue | deqTaskFinished | dequeue => exact h.2 ▸ id
  case allqempty | enqueue => exact h ▸ id

/-- One case for each program point. -/
theorem effect_of_ne_overflow (h : stepAt asserts N i op s (s.point i) = some s')
    (hover : ∀ x q, s.point i ≠ .overflow x q) : Effect N i s s' := by
  generalize hp : s.point i = p at h hover
  cases p with
  | returned r =>
    obtain ⟨p, hent, rfl⟩ := Option.map_eq_some_iff.mp h
    exact .skip fun q => iff_of_false (enter_eq_some hent q) (by simp [hp, holds])
  | overflow x q => exact absurd rfl (hover x q)
  | startLock q | finLock q => exact .lock h (by simp [hp, holds])
  | startSet q | finDec q =>
    cases h
    exact .write rfl rfl (by simp [hp, holds])
  | startUnlock q | finUnlock q | enqUnlock q r | deqUnlock q x =>
    cases h
    exact .unlock (by simp [hp, holds]) (by simp [hp, holds])
  | allqempty =>
    cases h
    exact .skip (by split <;> simp [hp, holds])
  | sampleStarted j =>
    simp only [stepAt] at h
    split at h
    · split at h <;> cases h <;> exact .skip (by simp [hp, holds])
    · cases h
      exact .skip (by simp [hp, holds])
  | sampleInflight j =>
    simp only [stepAt] at h
    split at h <;> cases h <;> exact .skip (by simp [hp, holds])
  | lockAll j =>
    simp only [stepAt] at h
    split at h
    · refine .lock h fun r => ?_
      simp only [hp, holds]
      omega
    · cases h
      refine .skip fun r => ?_
      simp only [hp, holds]
      omega
  | checkAll j =>
    simp only [stepAt] at h
    split at h
    · split at h <;> cases h <;> exact .skip (by simp [hp, holds])
    · cases h
      exact .skip (by simp [hp, holds])
  | setDone =>
    cases h
    exact ⟨.skip (fun _ => rfl) (fun _ => rfl), rfl, rfl, rfl, by simp [hp, holds]⟩
  | unlockAll j isEmpty =>
    simp only [stepAt] at h
    split at h <;> cases h
    · next hj =>
      refine .unlock (by simp [hp, holds, hj]) fun r => ?_
      simp only [hp, holds]
      omega
    · refine .skip fun r => ?_
      simp only [hp, holds, false_iff]
      omega
  | lowest x j lowcount lowqueue =>
    simp only [stepAt] at h
    split at h
    · split at h <;> cases h <;> exact .skip (by simp [hp, holds])
    · cases h
      exact .skip (by simp [hp, holds])
  | lowestTake x j | highestTake homeq j =>
    cases h
    exact .skip (by simp [hp, holds])
  | enqTry x q room | dequeue homeq | deqTry homeq q =>
    cases h
    exact .trylock (by simp [hp, holds]) (by simp [hp, holds])
  | enqLocked x q room =>
    simp only [stepAt] at h
    split at h <;> cases h
    · next hroom => exact ⟨.push q x room hroom hp, rfl, rfl, rfl, by simp [hp, holds]⟩
    · exact .skip (by simp [hp, holds])
  | highest homeq j highcount highqueue =>
    simp only [stepAt] at h
    split at h
    · split at h <;> cases h <;> exact .skip (by simp [hp, holds])
    · cases h
      exact .skip (by simp [hp, holds])
  | deqLocked homeq q =>
    simp only [stepAt] at h
    split at h <;> cases h
    · next hcount =>
      exact ⟨.pop q hcount (by simp [hp, holds]), rfl, rfl, rfl, by simp [hp, holds]⟩
    · exact .skip (by simp [hp, holds])
  | deqBump homeq q x =>
    cases h
    exact .write rfl rfl (by simp [hp, holds])

/-- One case for each program point. -/
theorem stepAt_effect (h : stepAt asserts N i op s (s.point i) = some s') :
    Effect N i s s' ∨ ∃ x q, s.point i = .overflow x q ∧ s' = { s with aborted := true } := by
  cases hp : s.point i with
  | overflow x q =>
    rw [hp] at h
    simp only [stepAt] at h
    split at h <;> cases h
    · exact .inr ⟨x, q, rfl, rfl⟩
    · exact .inl (.skip (by simp [hp, holds]))
  | _ => exact .inl (effect_of_ne_overflow h (by simp [hp]))

end Effects

/-! ## Owners -/

/-- The owner of a mutex is the thread at a point that has it. -/
def Owned (N : Nat) (s : State) : Prop :=
  ∀ q i, (s.queue q).queueMutex = some i ↔ holds N (s.point i) q

section Owners

variable {asserts : Bool} {N i : Nat} {s s' t : State} {H : Nat → Prop} {l : Label}

theorem mutex_setMutex (q r : Nat) (o : Option Nat) :
    ((s.setMutex q o).queue r).queueMutex = if r = q then o else (s.queue r).queueMutex := by
  by_cases hr : r = q
  · subst hr
    simp [State.setMutex, State.setQueue]
  · simp [State.setMutex, State.setQueue, hr]

theorem mutex_setRing (q r : Nat) (c : Ring QUEUESIZE Task) :
    ((s.setQueue q { s.queue q with ring := c }).queue r).queueMutex = (s.queue r).queueMutex := by
  by_cases hr : r = q
  · subst hr
    simp [State.setQueue]
  · simp [State.setQueue, hr]

theorem Act.owner (h : Owned N s) (a : Act N i s t H) (q j : Nat) :
    (t.queue q).queueMutex = some j ↔ if j = i then H q else holds N (s.point j) q := by
  have old : (s.queue q).queueMutex = some j ↔ holds N (s.point j) q := h q j
  cases a with
  | skip mutex => rw [mutex, old, ite_eq_right_iff.mpr fun hj => by rw [hj]]
  | pop | push => rw [mutex_setRing, old, ite_eq_right_iff.mpr fun hj => by rw [hj]]
  | lock r free =>
    rw [mutex_setMutex]
    by_cases hq : q = r
    · subst hq
      have none_holds : ¬ holds N (s.point j) q := by
        rw [← old, free]
        exact nofun
      by_cases hj : j = i
      · simp [hj]
      · simpa [hj, none_holds] using Ne.symm hj
    · by_cases hj : j = i
      · subst hj
        simpa [hq] using old
      · simpa [hq, hj] using old
  | unlock r own =>
    rw [mutex_setMutex]
    by_cases hq : q = r
    · subst hq
      by_cases hj : j = i
      · simp [hj]
      · have owner : (s.queue q).queueMutex = some i := (h q i).mpr own
        rw [owner, Option.some.injEq] at old
        simpa [hj] using fun hold => hj (old.mpr hold).symm
    · by_cases hj : j = i
      · subst hj
        simpa [hq] using old
      · simpa [hq, hj] using old

theorem Effect.owned (h : Owned N s) (he : Effect N i s s') : Owned N s' := by
  obtain ⟨a, others, -, -, own⟩ := he
  intro q j
  rw [show ∀ t : State, ∀ p, (t.goto i p).queue = t.queue from fun _ _ => rfl, a.owner h]
  by_cases hj : j = i
  · subst hj
    simp [State.goto, own]
  · simp [State.goto, hj, others]

theorem Initial.owned (h : Initial s) : Owned N s := fun q i => by
  obtain ⟨r, hr⟩ := h.point i
  simp [h.mutex, hr, holds]

theorem stepAt_of_step (h : step asserts N l s = some s') : s.aborted = false ∧
    ∃ t, stepAt asserts N l.thread l.op s (s.point l.thread) = some t ∧ s' = observe N s t := by
  unfold step at h
  split at h
  · cases h
  · next hab =>
    obtain ⟨t, ht, rfl⟩ := Option.map_eq_some_iff.mp h
    exact ⟨by simpa using hab, t, ht, rfl⟩

theorem owned_step (hI : Owned N s) (h : step asserts N l s = some s') : Owned N s' := by
  obtain ⟨-, t, ht, rfl⟩ := stepAt_of_step h
  rcases stepAt_effect ht with he | ⟨x, q, -, rfl⟩
  · have owned : Owned N t := he.owned hI
    exact owned
  · exact hI

theorem owned_inductive : (operations asserts N).Inductive (fun _ => True) (Owned N) where
  init h := Initial.owned h
  step _ hI h := owned_step hI h

theorem Owned.reach (hs : (operations asserts N).Reach s) : Owned N s :=
  owned_inductive.reach (fun _ => trivial) hs

end Owners

/-! ## Waiting -/

/-- Thread `i` is at the `pthread_mutex_lock` of queue `q`. -/
def Waits (N : Nat) (s : State) (i q : Nat) : Prop :=
  match s.point i with
  | .startLock r | .finLock r => q = r
  | .lockAll j => q = j ∧ j < N
  | _ => False

/-- Each thread of `A` is blocked on a mutex that a thread of `A` has. -/
def Deadlocked (N : Nat) (s : State) (A : Finset Nat) : Prop :=
  WaitFor.Deadlocked (Waits N s) (fun q => (s.queue q).queueMutex) A

/-- Every mutex that an operation takes is released by it: only its owner ever releases it, and a
thread whose operation has returned owns none. -/
structure Released (asserts : Bool) (N : Nat) (s : State) : Prop where
  owner : ∀ q i, (s.queue q).queueMutex = some i → ∀ l s', step asserts N l s = some s' →
    (s'.queue q).queueMutex = some i ∨ l.thread = i
  returned : ∀ i r, s.point i = .returned r → ∀ q, (s.queue q).queueMutex ≠ some i

section Waiting

variable {asserts : Bool} {N : Nat} {s : State}

/-- Only `allqempty` waits while it has mutexes, those of the queues before. -/
theorem Owned.ascending (h : Owned N s) :
    WaitFor.Ascending (Waits N s) (fun q => (s.queue q).queueMutex) (· < ·) := by
  intro i q b hwait howner
  have hold : holds N (s.point i) b := (h b i).mp howner
  revert hwait hold
  unfold Waits
  cases s.point i with
  | lockAll j =>
    rintro ⟨rfl, -⟩ hold
    exact hold.1
  | startLock r | finLock r => exact fun _ hold => hold.elim
  | _ => exact fun hwait => hwait.elim

theorem Owned.released (h : Owned N s) : Released asserts N s where
  owner q i howner l s' hst := by
    by_cases hi : l.thread = i
    · exact .inr hi
    · left
      have stays : s'.point i = s.point i := by
        obtain ⟨-, t, ht, rfl⟩ := stepAt_of_step hst
        rcases stepAt_effect ht with ⟨-, others, -, -, -⟩ | ⟨x, r, -, rfl⟩
        · simp [observe, State.goto, Ne.symm hi, others]
        · rfl
      rw [owned_step h hst, stays]
      exact (h q i).mp howner
  returned i r hr q howner := by
    have hold : holds N (s.point i) q := (h q i).mp howner
    rw [hr] at hold
    exact hold

/-- **The queue mutexes never deadlock**, and what an operation takes it releases. -/
theorem mutexes_deadlock_free (hs : (operations asserts N).Reach s) :
    (∀ A, ¬ Deadlocked N s A) ∧ Released asserts N s :=
  have owned : Owned N s := Owned.reach hs
  ⟨owned.ascending.not_deadlocked, owned.released⟩

/-- No task and no operation. -/
def idleQueues : State where
  queue := fun _ => initQueue
  allqdone := false
  point := fun _ => .returned .void
  aborted := false
  fullSeen := fun _ => false

theorem initial_idleQueues : Initial idleQueues where
  mutex _ := rfl
  point _ := ⟨.void, rfl⟩
  aborted := rfl

/-- Both queues are started, and thread 0 is in `allqempty` when thread 1 starts queue 1 again. -/
def startedTwice : List Label :=
  List.replicate 4 ⟨0, .startDequeue 0⟩ ++ List.replicate 4 ⟨1, .startDequeue 1⟩ ++
    List.replicate 8 ⟨0, .allqempty⟩ ++ List.replicate 2 ⟨1, .startDequeue 1⟩

/-- Thread 0 waits for queue 1 while it has queue 0. -/
theorem mutexes_deadlock_free_startedTwice : ∃ s : State, s.point 0 = .lockAll 1 ∧
    (s.queue 0).queueMutex = some 0 ∧ (s.queue 1).queueMutex = some 1 ∧
    (∀ A, ¬ Deadlocked 2 s A) ∧ Released true 2 s := by
  obtain ⟨s, hs, hwait, howns, howner⟩ : ∃ s, (operations true 2).Reach s ∧
      (s.point 0 = .lockAll 1 ∧ (s.queue 0).queueMutex = some 0 ∧
        (s.queue 1).queueMutex = some 1) :=
    Sys.exists_reach initial_idleQueues
      (show (Sys.run _ startedTwice _).any _ = true by decide +kernel)
  exact ⟨s, hwait, howns, howner, mutexes_deadlock_free hs⟩

end Waiting

end CStrider.TaskQueue.Operations
