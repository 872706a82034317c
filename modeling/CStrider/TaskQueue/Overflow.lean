import CStrider.TaskQueue.Mutexes

/-!
# Overflow of the queues

`lowest` reads the counts without a lock, and where the queue that it returns is busy, `enqueue`
takes the next free one whatever it holds. So an `enqueue` counts on a few queues to have room
(`candidates`), and it overflows with room elsewhere where other threads fill up the last of them,
or where it moves on from a busy queue to a full one.
-/

namespace CStrider.TaskQueue.Operations

/-- In `enqueue`, up to the write to the ring. -/
def Point.looking : Point → Bool
  | .lowest .. | .lowestTake .. | .enqTry .. | .enqLocked .. | .overflow .. => true
  | _ => false

/-- The queues of which `enqueue` still expects that one has room: those that `lowest` has not read
yet as long as all others were full, then the one with the lowest count read so far, in the end the
one it returned. -/
def candidates (N : Nat) : Point → Nat → Prop
  | .lowest _ j lowcount lowqueue, q =>
    if lowcount < QUEUESIZE then q = lowqueue else j ≤ q ∧ q < N
  | .lowestTake _ j, q => q = j
  | .enqTry _ qnum room, q | .enqLocked _ qnum room, q => room = true ∧ q = qnum
  | _, _ => False

namespace State

/-- Queue `q` is not full. -/
def Room (s : State) (q : Nat) : Prop := (s.queue q).count < QUEUESIZE

instance (s : State) (q : Nat) : Decidable (s.Room q) := Nat.decLt _ _

/-- Queue `q` is the only one with room of those on which thread `i` counts. -/
def LastHope (N : Nat) (s : State) (i q : Nat) : Prop :=
  candidates N (s.point i) q ∧ ∀ r, candidates N (s.point i) r → s.Room r → r = q

end State

/-- Where thread `i` overflows, all queues have been full at one moment of its `enqueue`. -/
def OverflowsFull (s : State) : Prop :=
  ∀ i x q, s.point i = .overflow x q → s.fullSeen i = true

/-- What each step of a run has to satisfy. `fill` is about the thread that fills up a queue, `turn`
about the one that finds a queue busy. Neither restricts a thread that has seen all queues full. -/
structure Undisturbed (N : Nat) (l : Label) (s : State) : Prop where
  /-- no queue is filled up that is the last hope of another thread while a third queue has room -/
  fill : ∀ x q room, s.point l.thread = .enqLocked x q room → (s.queue q).count + 1 = QUEUESIZE →
    ∀ i ≠ l.thread, s.LastHope N i q → s.fullSeen i = true ∨ ∀ r < N, r ≠ q → ¬ s.Room r
  /-- no thread moves on from a busy queue to a full one, where `lowest` found room -/
  turn : ∀ x q, s.point l.thread = .enqTry x q true → (s.queue q).queueMutex ≠ none →
    s.fullSeen l.thread = true ∨ s.Room ((q + 1) % N)

/-! ## The steps of `enqueue` -/

/-- A step of thread `i` after which it is still looking for a queue with room. -/
inductive Looks (N i : Nat) (s : State) : State → Prop where
  | begin (x : Task) {r : Result} (hp : s.point i = .returned r) :
      Looks N i s (s.goto i (.lowest x 0 QUEUESIZE 0))
  | lower {x : Task} {j lowcount lowqueue : Nat} (hp : s.point i = .lowest x j lowcount lowqueue)
      (h : (s.queue j).count < lowcount) : Looks N i s (s.goto i (.lowestTake x j))
  | pass {x : Task} {j lowcount lowqueue : Nat} (hp : s.point i = .lowest x j lowcount lowqueue)
      (h : lowcount ≤ (s.queue j).count) :
      Looks N i s (s.goto i (.lowest x (j + 1) lowcount lowqueue))
  | take {x : Task} {j : Nat} (hp : s.point i = .lowestTake x j) :
      Looks N i s (s.goto i (.lowest x (j + 1) (s.queue j).count j))
  | choose {x : Task} {j lowcount lowqueue : Nat} (hp : s.point i = .lowest x j lowcount lowqueue)
      (h : N ≤ j) : Looks N i s (s.goto i (.enqTry x lowqueue (lowcount < QUEUESIZE)))
  | turn {x : Task} {q : Nat} {room : Bool} (hp : s.point i = .enqTry x q room)
      (h : (s.queue q).queueMutex ≠ none) : Looks N i s (s.goto i (.enqTry x ((q + 1) % N) room))
  | lock {x : Task} {q : Nat} {room : Bool} (hp : s.point i = .enqTry x q room) :
      Looks N i s ((s.setMutex q (some i)).goto i (.enqLocked x q room))
  | full {x : Task} {q : Nat} {room : Bool} (hp : s.point i = .enqLocked x q room)
      (h : ¬ s.Room q) : Looks N i s (s.goto i (.overflow x q))
  | abort {x : Task} {q : Nat} (hp : s.point i = .overflow x q) :
      Looks N i s { s with aborted := true }

section Steps

variable {asserts : Bool} {N i : Nat} {op : Op} {s t : State} {p : Point}

@[simp] theorem point_goto (s : State) (i : Nat) (p : Point) : (s.goto i p).point i = p := by
  simp [State.goto]

theorem point_of_lock {q : Nat} (h : s.lock i q p = some t) : t.point i = p := by
  unfold State.lock at h
  split at h <;> cases h
  exact point_goto _ i p

theorem looks_of_trylock {x : Task} {q : Nat} {room : Bool} (hp : s.point i = .enqTry x q room) :
    Looks N i s (s.trylock i q (.enqLocked x q room) (.enqTry x ((q + 1) % N) room)) := by
  unfold State.trylock
  split
  · exact .lock hp
  · next hbusy => exact .turn hp (by simp [hbusy])

theorem not_looking_trylock {q : Nat} {busy : Point} (hp : p.looking = false)
    (hbusy : busy.looking = false) : ((s.trylock i q p busy).point i).looking = false := by
  unfold State.trylock
  split
  · simpa using hp
  · simpa using hbusy

theorem looks_of_stepAt (h : stepAt asserts N i op s (s.point i) = some t)
    (hlook : (t.point i).looking = true) : Looks N i s t := by
  generalize hp : s.point i = p at h
  cases p with
  | returned r =>
    obtain ⟨p, hent, rfl⟩ := Option.map_eq_some_iff.mp h
    rw [point_goto] at hlook
    cases op with
    | enqueue x =>
      cases hent
      exact .begin x hp
    | _ => grind [enter, Point.looking]
  | lowest x j lowcount lowqueue =>
    simp only [stepAt] at h
    split at h
    · split at h <;> cases h
      · next hlow => exact .lower hp hlow
      · next hlow => exact .pass hp (Nat.le_of_not_lt hlow)
    · next hj =>
      cases h
      exact .choose hp (Nat.le_of_not_lt hj)
  | lowestTake x j =>
    cases h
    exact .take hp
  | enqTry x q room =>
    cases h
    exact looks_of_trylock hp
  | enqLocked x q room =>
    simp only [stepAt] at h
    split at h <;> cases h
    · rw [point_goto] at hlook
      cases hlook
    · next hroom => exact .full hp hroom
  | overflow x q =>
    simp only [stepAt] at h
    split at h <;> cases h
    · exact .abort hp
    · rw [point_goto] at hlook
      cases hlook
  | startLock | finLock =>
    rw [point_of_lock h] at hlook
    cases hlook
  | lockAll j =>
    simp only [stepAt] at h
    split at h
    · rw [point_of_lock h] at hlook
      cases hlook
    · cases h
      rw [point_goto] at hlook
      cases hlook
  | dequeue | deqTry =>
    cases h
    rw [not_looking_trylock rfl rfl] at hlook
    cases hlook
  | startSet | startUnlock | enqUnlock | finDec | finUnlock | setDone | highestTake | deqBump
  | deqUnlock =>
    cases h
    simp [Point.looking, State.unlock] at hlook
  | allqempty | sampleStarted | sampleInflight | checkAll | unlockAll | highest | deqLocked =>
    grind [stepAt, Point.looking, State.unlock, point_goto]

end Steps

/-! ## The invariant -/

/-- A thread that is looking for a queue with room counts on one that has room, or has seen all
queues full. -/
def State.Hopeful (N : Nat) (s : State) (i : Nat) : Prop :=
  (s.point i).looking = true →
    s.fullSeen i = true ∨ ∃ q, candidates N (s.point i) q ∧ s.Room q

/-- The invariant of undisturbed runs. -/
structure Undisturbed.Inv (N : Nat) (s : State) : Prop where
  owned : Owned N s
  lowcount : ∀ i x j lowcount lowqueue,
    s.point i = .lowest x j lowcount lowqueue → lowcount ≤ QUEUESIZE
  hopeful : ∀ i, s.Hopeful N i

section Invariant

variable {asserts : Bool} {N i : Nat} {s s' t : State} {H : Nat → Prop} {l : Label}

theorem Point.enqueuing_of_looking {p : Point} (h : p.looking = true) : p.enqueuing = true := by
  cases p <;> first | rfl | cases h

theorem fullSeen_observe (hs : (s.point i).looking = true) (ht : (t.point i).looking = true)
    (h : s.fullSeen i = true) : (observe N s t).fullSeen i = true := by
  simp [observe, Point.enqueuing_of_looking hs, Point.enqueuing_of_looking ht, h]

theorem fullSeen_of_allFull (ht : (t.point i).looking = true) (h : t.AllFull N) :
    (observe N s t).fullSeen i = true := by
  simp [observe, Point.enqueuing_of_looking ht, h]

theorem State.not_room {q : Nat} (h : ¬ s.Room q) : (s.queue q).count = QUEUESIZE :=
  Nat.le_antisymm (s.queue q).ring.count_le (Nat.le_of_not_lt h)

/-- When an `enqueue` begins, all queues are full or one of them has room. -/
theorem hopeful_begin (x : Task) (s : State) :
    (observe N s (s.goto i (.lowest x 0 QUEUESIZE 0))).Hopeful N i := by
  intro hlook
  by_cases hfull : s.AllFull N
  · exact .inl (fullSeen_of_allFull hlook hfull)
  · simp only [State.AllFull, not_forall] at hfull
    obtain ⟨q, hq, hcount⟩ := hfull
    have room : s.Room q := by
      by_contra hroom
      exact hcount (State.not_room hroom)
    refine .inr ⟨q, ?_, room⟩
    simpa [observe, candidates] using hq

theorem hopeful_looks (hI : Undisturbed.Inv N s) (hC : Undisturbed N l s)
    (h : Looks N l.thread s t) : (observe N s t).Hopeful N l.thread := by
  have hopeful := hI.hopeful l.thread
  intro hlook
  -- what was seen before stays seen, so only the second alternative of `hopeful` is left
  have keep (hold : (s.point l.thread).looking = true)
      (h : ∀ q, candidates N (s.point l.thread) q → s.Room q →
        (observe N s t).fullSeen l.thread = true ∨
          ∃ q, candidates N (t.point l.thread) q ∧ t.Room q) :
      (observe N s t).fullSeen l.thread = true ∨
        ∃ q, candidates N (t.point l.thread) q ∧ t.Room q := by
    rcases hopeful hold with hseen | ⟨q, hq, hroom⟩
    · exact .inl (fullSeen_observe hold hlook hseen)
    · exact h q hq hroom
  cases h with
  | begin x hp => exact hopeful_begin x s hlook
  | @lower x j lowcount lowqueue hp hlow =>
    have room : s.Room j := Nat.lt_of_lt_of_le hlow (hI.lowcount _ _ _ _ _ hp)
    exact .inr ⟨j, by simp [observe, candidates], room⟩
  | @pass x j lowcount lowqueue hp hlow =>
    refine keep (by simp [hp, Point.looking]) fun q hq hroom => .inr ⟨q, ?_, hroom⟩
    have hne : q = j → QUEUESIZE ≤ lowcount → False := fun hqj hmax =>
      absurd hroom (by rw [hqj, State.Room]; omega)
    rw [hp] at hq
    simp only [point_goto, candidates] at hq ⊢
    split
    · simp_all
    · simp_all
      omega
  | @take x j hp =>
    refine keep (by simp [hp, Point.looking]) fun q hq hroom => .inr ⟨q, ?_, hroom⟩
    rw [hp] at hq
    obtain rfl : q = j := hq
    have hlt : (s.queue q).count < QUEUESIZE := hroom
    simp [candidates, hlt]
  | @choose x j lowcount lowqueue hp hj =>
    refine keep (by simp [hp, Point.looking]) fun q hq hroom => .inr ⟨q, ?_, hroom⟩
    rw [hp] at hq
    simp only [point_goto, candidates] at hq ⊢
    split at hq
    · next hlow => exact ⟨by simp [hlow], hq⟩
    · omega
  | @turn x q room hp hbusy =>
    have hold : (s.point l.thread).looking = true := by simp [hp, Point.looking]
    refine keep hold fun r hr _ => ?_
    rw [hp] at hr
    obtain ⟨rfl, rfl⟩ := hr
    rcases hC.turn x r hp hbusy with hseen | hroom
    · exact .inl (fullSeen_observe hold hlook hseen)
    · exact .inr ⟨_, by simp [candidates], hroom⟩
  | @lock x q room hp =>
    refine keep (by simp [hp, Point.looking]) fun r hr hroom => .inr ⟨r, ?_, ?_⟩
    · simpa [hp, candidates] using hr
    · rw [hp] at hr
      obtain ⟨-, rfl⟩ := hr
      simpa [State.Room, State.setMutex, State.setQueue, State.goto, Queue.count] using hroom
  | @full x q room hp hfull =>
    refine keep (by simp [hp, Point.looking]) fun r hr hroom => ?_
    rw [hp] at hr
    obtain ⟨-, rfl⟩ := hr
    exact absurd hroom hfull
  | @abort x q hp =>
    refine keep (by simp [hp, Point.looking]) fun r hr _ => ?_
    rw [hp] at hr
    exact hr.elim

/-- An action but a push leaves the counts as they are or smaller. -/
theorem Act.counts (a : Act N i s t H) : (∀ q, (t.queue q).count ≤ (s.queue q).count) ∨
    ∃ q x room, s.point i = .enqLocked x q room ∧ (t.queue q).count = (s.queue q).count + 1 ∧
      ∀ r ≠ q, (t.queue r).count = (s.queue r).count := by
  have count_setQueue (q r : Nat) (c : Queue) :
      ((s.setQueue q c).queue r).count = if r = q then c.count else (s.queue r).count := by
    by_cases hr : r = q
    · subst hr
      simp [State.setQueue]
    · simp [State.setQueue, hr]
  cases a with
  | skip mutex count => exact .inl fun q => (count q).le
  | lock q | unlock q =>
    left
    intro r
    rw [State.setMutex, count_setQueue]
    split
    · next hr => exact hr ▸ le_rfl
    · exact le_rfl
  | pop q h =>
    left
    intro r
    rw [count_setQueue]
    split
    · next hr => exact hr ▸ Nat.sub_le _ _
    · exact le_rfl
  | push q x room h hp =>
    refine .inr ⟨q, x, room, hp, ?_, fun r hr => ?_⟩
    · rw [count_setQueue, if_pos rfl]
      rfl
    · rw [count_setQueue, if_neg hr]

/-- What an action of another thread leaves of the hopes of thread `j`. -/
theorem Act.hope (a : Act N l.thread s t H) (hC : Undisturbed N l s) {j q : Nat}
    (hj : j ≠ l.thread) (hq : candidates N (s.point j) q) (hroom : s.Room q) :
    s.fullSeen j = true ∨ t.AllFull N ∨ ∃ r, candidates N (s.point j) r ∧ t.Room r := by
  rcases a.counts with hle | ⟨r, x, room, hp, hpush, hother⟩
  · exact .inr (.inr ⟨q, hq, Nat.lt_of_le_of_lt (hle q) hroom⟩)
  · have unchanged (k : Nat) (hk : k ≠ r) (h : s.Room k) : t.Room k := by
      rwa [State.Room, hother k hk]
    by_cases hqr : q = r
    · subst hqr
      by_cases hfill : (s.queue q).count + 1 = QUEUESIZE
      · by_cases hlast : s.LastHope N j q
        · rcases hC.fill x q room hp hfill j hj hlast with hseen | hrest
          · exact .inl hseen
          · refine .inr (.inl fun k hk => ?_)
            by_cases hkq : k = q
            · exact hkq ▸ hpush.trans hfill
            · exact (hother k hkq).trans (State.not_room (hrest k hk hkq))
        · -- another candidate has room, and it is not the one that is filled up
          have another : ∃ k, candidates N (s.point j) k ∧ s.Room k ∧ k ≠ q := by
            by_contra hnone
            exact hlast ⟨hq, fun k hk hkroom => by
              by_contra hne
              exact hnone ⟨k, hk, hkroom, hne⟩⟩
          obtain ⟨k, hk, hkroom, hkq⟩ := another
          exact .inr (.inr ⟨k, hk, unchanged k hkq hkroom⟩)
      · have hlt : (s.queue q).count < QUEUESIZE := hroom
        have room' : t.Room q := by
          rw [State.Room, hpush]
          omega
        exact .inr (.inr ⟨q, hq, room'⟩)
    · exact .inr (.inr ⟨q, hq, unchanged q hqr hroom⟩)

theorem hopeful_others (hI : Undisturbed.Inv N s) {j : Nat} (hpoint : t.point j = s.point j)
    (hope : ∀ q, candidates N (s.point j) q → s.Room q →
      s.fullSeen j = true ∨ t.AllFull N ∨ ∃ r, candidates N (s.point j) r ∧ t.Room r) :
    (observe N s t).Hopeful N j := by
  intro hlook
  have hold : (s.point j).looking = true := hpoint ▸ hlook
  have candidates_eq : candidates N ((observe N s t).point j) = candidates N (s.point j) :=
    congrArg (candidates N) hpoint
  rw [candidates_eq]
  rcases hI.hopeful j hold with hseen | ⟨q, hq, hroom⟩
  · exact .inl (fullSeen_observe hold hlook hseen)
  · rcases hope q hq hroom with hseen | hfull | ⟨r, hr, hroom'⟩
    · exact .inl (fullSeen_observe hold hlook hseen)
    · exact .inl (fullSeen_of_allFull hlook hfull)
    · exact .inr ⟨r, hr, hroom'⟩

/-- The steps of one thread leave the others where they are. -/
theorem point_others {op : Op} (h : stepAt asserts N i op s (s.point i) = some t) {j : Nat}
    (hj : j ≠ i) : t.point j = s.point j := by
  rcases stepAt_effect h with ⟨-, others, -, -, -⟩ | ⟨x, q, -, rfl⟩
  · simp [State.goto, hj, others]
  · rfl

theorem lowcount_looks (hI : Undisturbed.Inv N s) (h : Looks N i s t) {x : Task}
    {j lowcount lowqueue : Nat} (hp : t.point i = .lowest x j lowcount lowqueue) :
    lowcount ≤ QUEUESIZE := by
  cases h <;> simp only [point_goto, Point.lowest.injEq, reduceCtorEq] at hp
  case begin => omega
  case take k _ =>
    have hle : (s.queue k).count ≤ QUEUESIZE := (s.queue k).ring.count_le
    omega
  case pass k low _ hold _ =>
    have hle := hI.lowcount _ _ _ _ _ hold
    omega
  case abort => exact hI.lowcount _ _ _ _ _ hp

theorem Undisturbed.Inv.step (hI : Undisturbed.Inv N s) (hC : Undisturbed N l s)
    (hst : step asserts N l s = some s') : Undisturbed.Inv N s' := by
  have owned : Owned N s' := owned_step hI.owned hst
  obtain ⟨-, t, ht, rfl⟩ := stepAt_of_step hst
  refine ⟨owned, fun i x j lowcount lowqueue hp => ?_, fun i => ?_⟩
  · have hp' : t.point i = .lowest x j lowcount lowqueue := hp
    by_cases hi : i = l.thread
    · subst hi
      exact lowcount_looks hI (looks_of_stepAt ht (by rw [hp']; rfl)) hp'
    · rw [point_others ht hi] at hp'
      exact hI.lowcount i x j lowcount lowqueue hp'
  · by_cases hi : i = l.thread
    · subst hi
      by_cases hlook : (t.point l.thread).looking = true
      · exact hopeful_looks hI hC (looks_of_stepAt ht hlook)
      · exact fun h => absurd h hlook
    · refine hopeful_others hI (point_others ht hi) fun q hq hroom => ?_
      rcases stepAt_effect ht with ⟨a, -, -, -, -⟩ | ⟨x, r, -, rfl⟩
      · exact a.hope hC hi hq hroom
      · exact .inr (.inr ⟨q, hq, hroom⟩)

theorem Initial.undisturbed (h : Initial s) : Undisturbed.Inv N s where
  owned := h.owned
  lowcount i x j lowcount lowqueue hp := by
    obtain ⟨r, hr⟩ := h.point i
    rw [hp] at hr
    cases hr
  hopeful i hlook := by
    obtain ⟨r, hr⟩ := h.point i
    rw [hr] at hlook
    cases hlook

/-- **The queues overflow only when all are full**, in runs in which no thread fills up the last
queue that another one counts on, and none moves on from a busy queue to a full one. -/
theorem overflowsFull_of_undisturbed
    (hs : (operations asserts N).ReachBy (Undisturbed N) s) : OverflowsFull s := by
  have inv : Undisturbed.Inv N s :=
    hs.invariant (fun hi => Initial.undisturbed hi) fun hI hC hst => hI.step hC hst
  intro i x q hp
  have looking : (s.point i).looking = true := by rw [hp]; rfl
  rcases inv.hopeful i looking with hseen | ⟨r, hr, -⟩
  · exact hseen
  · rw [hp] at hr
    exact hr.elim

end Invariant

/-! ## Full queues -/

/-- A queue with `QUEUESIZE` tasks. -/
def fullQueue : Queue :=
  { initQueue with
    ring := ⟨fun _ => 0, 0, QUEUESIZE - 1, QUEUESIZE, queuesize_pos, Nat.le_refl _, rfl⟩ }

/-- Two queues, of which queue 0 has room or not. -/
def fullQueues (room : Bool) : State :=
  { idleQueues with queue := fun q => if room && q == 0 then initQueue else fullQueue }

theorem initial_fullQueues (room : Bool) : Initial (fullQueues room) where
  mutex q := by
    simp only [fullQueues]
    split <;> rfl
  point _ := ⟨.void, rfl⟩
  aborted := rfl

/-- Thread `thread` neither fills up a queue nor finds one busy. -/
def Calm (l : Label) (s : State) : Prop :=
  match s.point l.thread with
  | .enqLocked _ q _ => (s.queue q).count + 1 ≠ QUEUESIZE
  | .enqTry _ q _ => (s.queue q).queueMutex = none
  | _ => True

instance (l : Label) (s : State) : Decidable (Calm l s) := by
  unfold Calm
  split <;> infer_instance

theorem Calm.undisturbed {N : Nat} {l : Label} {s : State} (h : Calm l s) : Undisturbed N l s where
  fill x q room hp hfill := by
    rw [Calm, hp] at h
    exact absurd hfill h
  turn x q hp hbusy := by
    rw [Calm, hp] at h
    exact absurd h hbusy

/-- Thread `i` is at the overflow of queue `q`. -/
def atOverflow (s : State) (i q : Nat) : Bool :=
  match s.point i with
  | .overflow _ r => q == r
  | _ => false

/-- Both queues are full. -/
theorem overflowsFull_of_undisturbed_full : ∃ s : State, atOverflow s 0 0 = true ∧
    OverflowsFull s := by
  obtain ⟨s, hs, hover⟩ : ∃ s, (operations true 2).ReachBy Calm s ∧ atOverflow s 0 0 = true :=
    Sys.exists_reachBy (initial_fullQueues false)
      (show (Sys.runBy _ _ (List.replicate 6 ⟨0, .enqueue 7⟩) _).any _ = true by decide +kernel)
  exact ⟨s, hover, overflowsFull_of_undisturbed (hs.mono fun _ _ => Calm.undisturbed)⟩

/-- Thread 1 locks queue 0 in `start_dequeue`; thread 0 enqueues, finds room in queue 0, finds it
busy and goes on to queue 1. -/
def busyTurn : List Label :=
  List.replicate 2 ⟨1, .startDequeue 0⟩ ++ List.replicate 8 ⟨0, .enqueue 7⟩

/-- Queue 1 overflows while queue 0 is empty. -/
theorem overflowsFull_fails : ¬ ∀ s, (operations true 2).Reach s → OverflowsFull s := by
  intro claim
  obtain ⟨s, hs, hover, hseen⟩ : ∃ s, (operations true 2).Reach s ∧
      (atOverflow s 0 1 = true ∧ s.fullSeen 0 = false) :=
    Sys.exists_reach (initial_fullQueues true)
      (show (Sys.run _ busyTurn _).any _ = true by decide +kernel)
  unfold atOverflow at hover
  split at hover
  · next x q hp =>
    rw [claim s hs 0 x q hp] at hseen
    cases hseen
  · cases hover

end CStrider.TaskQueue.Operations
