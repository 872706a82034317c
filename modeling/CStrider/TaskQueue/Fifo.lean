import CStrider.TaskQueue.Model

/-!
# A queue is a bounded FIFO list (`src/queue.c`)

`Words` are the words of a `queue` that `enqueue` and `dequeue` read and write while they hold its
mutex, and the operations are as the source assigns them. Nothing in `Words` says that its indices
agree; those that `init_queue` and the operations make are the words of a `Ring`
(`Words.ofRing`), and the list of its contents is what the queue stands for.
-/

namespace CStrider.TaskQueue.Fifo

/-- The fields of `queue` that hold its tasks. -/
structure Words where
  q : Nat → Task
  front : Nat
  rear : Nat
  count : Nat

/-- `init_queue`; the slots of the array keep what they hold. -/
def initQueue (w : Words) : Words := { w with front := 0, rear := QUEUESIZE - 1, count := 0 }

/-- `enqueue` between `pthread_mutex_trylock` and `pthread_mutex_unlock`. -/
def enqueue (x : Task) (w : Words) : Words × Int :=
  if w.count ≥ QUEUESIZE then (w, 0)
  else
    let rear := (w.rear + 1) % QUEUESIZE
    ({ w with rear := rear, q := Function.update w.q rear x, count := w.count + 1 }, 1)

/-- `dequeue` between `pthread_mutex_trylock` and `pthread_mutex_unlock`. -/
def dequeue (w : Words) : Words × Option Task :=
  if w.count = 0 then (w, none)
  else
    ({ w with front := (w.front + 1) % QUEUESIZE, count := w.count - 1 }, some (w.q w.front))

/-- A call on the queue, and what `dequeue` returned. -/
inductive Event where
  | enqueue (x : Task)
  | dequeue (r : Option Task)
  deriving DecidableEq, Repr

/-- The queue from `init_queue` on; an `enqueue` that overflows is not a step. -/
def queue : Sys Words Event where
  init w := ∃ w₀, w = initQueue w₀
  step
    | .enqueue x, w => if (enqueue x w).2 = 1 then some (enqueue x w).1 else none
    | .dequeue r, w => if (dequeue w).2 = r then some (dequeue w).1 else none

/-- A list of at most `QUEUESIZE` tasks, the oldest first. -/
def fifo : Sys (List Task) Event where
  init l := l = []
  step
    | .enqueue x, l => if l.length < QUEUESIZE then some (l ++ [x]) else none
    | .dequeue r, l => if l.head? = r then some l.tail else none

/-! ## The list -/

/-- The tasks that were put in, and those that were taken out. -/
def Event.put : Event → Option Task
  | .enqueue x => some x
  | .dequeue _ => none

def Event.taken : Event → Option Task
  | .enqueue _ => none
  | .dequeue r => r

/-- Tasks are taken in the order in which they were put in, and none is lost or taken twice. -/
theorem put_eq {es : List Event} {l l' : List Task} (h : fifo.run es l = some l') :
    l ++ es.filterMap Event.put = es.filterMap Event.taken ++ l' := by
  induction es generalizing l with
  | nil =>
    obtain rfl : l = l' := by simpa [Sys.run] using h
    simp
  | cons e es ih =>
    obtain ⟨l₁, hstep, hrun⟩ := Option.bind_eq_some_iff.mp h
    have rest := ih hrun
    cases e with
    | enqueue x =>
      obtain ⟨_, heq⟩ := Option.ite_none_right_eq_some.mp hstep
      obtain rfl := Option.some.inj heq
      simpa [List.filterMap_cons, Event.put, Event.taken] using rest
    | dequeue r =>
      obtain ⟨rfl, heq⟩ := Option.ite_none_right_eq_some.mp hstep
      obtain rfl := Option.some.inj heq
      cases l with
      | nil => simpa [List.filterMap_cons, Event.put, Event.taken] using rest
      | cons x l => simpa [List.filterMap_cons, Event.put, Event.taken] using rest

/-! ## The words of a ring -/

def Words.ofRing (r : Ring QUEUESIZE Task) : Words := ⟨r.slots, r.front, r.rear, r.count⟩

section

variable {r : Ring QUEUESIZE Task} {x : Task} {w : Words}

theorem initQueue_eq (w : Words) : initQueue w = .ofRing (Ring.empty queuesize_pos w.q) := rfl

theorem enqueue_full (h : ¬ r.count < QUEUESIZE) : enqueue x (.ofRing r) = (.ofRing r, 0) :=
  if_pos (Nat.le_of_not_lt h)

theorem enqueue_room (h : r.count < QUEUESIZE) :
    enqueue x (.ofRing r) = (.ofRing (r.push x h), 1) :=
  if_neg (Nat.not_le_of_lt h)

theorem dequeue_empty (h : r.count = 0) : dequeue (.ofRing r) = (.ofRing r, none) := if_pos h

theorem dequeue_pop (h : 0 < r.count) :
    dequeue (.ofRing r) = (.ofRing (r.pop h), some r.head) :=
  if_neg (Nat.ne_of_gt h)

/-- A step of the queue is one of its ring. -/
theorem step_cases {e : Event} (hs : queue.step e (.ofRing r) = some w) :
    (∃ x, ∃ h : r.count < QUEUESIZE, e = .enqueue x ∧ w = .ofRing (r.push x h)) ∨
      (r.count = 0 ∧ e = .dequeue none ∧ w = .ofRing r) ∨
      ∃ h : 0 < r.count, e = .dequeue (some r.head) ∧ w = .ofRing (r.pop h) := by
  cases e with
  | enqueue x =>
    obtain ⟨hone, heq⟩ := Option.ite_none_right_eq_some.mp hs
    by_cases hroom : r.count < QUEUESIZE
    · rw [enqueue_room hroom] at heq
      exact .inl ⟨x, hroom, rfl, (Option.some.inj heq).symm⟩
    · rw [enqueue_full hroom] at hone
      exact absurd hone Int.zero_ne_one
  | dequeue o =>
    obtain ⟨rfl, heq⟩ := Option.ite_none_right_eq_some.mp hs
    rcases Nat.eq_zero_or_pos r.count with hzero | hpos
    · rw [dequeue_empty hzero] at heq ⊢
      exact .inr (.inl ⟨hzero, rfl, (Option.some.inj heq).symm⟩)
    · rw [dequeue_pop hpos] at heq ⊢
      exact .inr (.inr ⟨hpos, rfl, (Option.some.inj heq).symm⟩)

/-- The words are those of a ring that holds `l`. -/
def Holds (w : Words) (l : List Task) : Prop := ∃ r, w = .ofRing r ∧ r.contents = l

theorem Holds.step {e : Event} {w w' : Words} {l : List Task} (h : Holds w l)
    (hs : queue.step e w = some w') : ∃ l', fifo.step e l = some l' ∧ Holds w' l' := by
  obtain ⟨r, rfl, rfl⟩ := h
  obtain ⟨x, hroom, rfl, rfl⟩ | ⟨hzero, rfl, rfl⟩ | ⟨hpos, rfl, rfl⟩ := step_cases hs
  · exact ⟨r.contents ++ [x], if_pos (r.length_contents.symm ▸ hroom), r.push x hroom, rfl,
      r.contents_push x hroom⟩
  · have hnil : r.contents = [] := r.contents_eq_nil.mpr hzero
    exact ⟨[], by rw [hnil]; rfl, r, rfl, hnil⟩
  · refine ⟨(r.pop hpos).contents, ?_, r.pop hpos, rfl, rfl⟩
    rw [r.contents_pop hpos]
    exact if_pos rfl

/-! ## The refinement -/

/-- The indices of the words agree, and their slots from the front on hold `l`. -/
structure Represents (w : Words) (l : List Task) : Prop where
  count_eq : w.count = l.length
  count_le : w.count ≤ QUEUESIZE
  front_lt : w.front < QUEUESIZE
  rear_lt : w.rear < QUEUESIZE
  rear_eq : (w.rear : Int) = (w.front + w.count - 1) % QUEUESIZE
  slot : ∀ k (hk : k < l.length), w.q ((w.front + k) % QUEUESIZE) = l[k]

theorem Holds.represents {w : Words} {l : List Task} (h : Holds w l) : Represents w l := by
  obtain ⟨r, rfl, rfl⟩ := h
  have hrear : r.rear = (r.front + r.count + (QUEUESIZE - 1)) % QUEUESIZE := r.rear_eq
  refine ⟨r.length_contents.symm, r.count_le, r.front_lt, ?_, ?_, fun k hk => ?_⟩
  · change r.rear < QUEUESIZE
    rw [hrear]
    exact Nat.mod_lt _ queuesize_pos
  · change (r.rear : Int) = (r.front + r.count - 1) % QUEUESIZE
    simp only [QUEUESIZE] at hrear ⊢
    omega
  · simp [Words.ofRing, Ring.contents]

/-- The slots that hold a task keep it until it is taken. -/
theorem Holds.kept {e : Event} {w w' : Words} {l : List Task} (h : Holds w l)
    (hs : queue.step e w = some w') {k : Nat} (hk : k < w.count) :
    w'.q ((w.front + k) % QUEUESIZE) = w.q ((w.front + k) % QUEUESIZE) := by
  obtain ⟨r, rfl, rfl⟩ := h
  obtain ⟨x, hroom, rfl, rfl⟩ | ⟨_, _, rfl⟩ | ⟨_, _, rfl⟩ := step_cases hs
  · refine Function.update_of_ne ?_ _ _
    rw [r.succ_rear]
    exact Ring.offset_ne hk hroom
  · rfl
  · rfl

theorem Holds.dequeue {w : Words} {l : List Task} (h : Holds w l) :
    (Fifo.dequeue w).2 = l.head? := by
  obtain ⟨r, rfl, rfl⟩ := h
  rcases Nat.eq_zero_or_pos r.count with hzero | hpos
  · rw [dequeue_empty hzero, r.contents_eq_nil.mpr hzero]
    rfl
  · rw [dequeue_pop hpos, r.contents_pop hpos]
    rfl

/-- **A queue refines a bounded FIFO list**: every run from `init_queue` is a run of the list, whose
tasks stand in the slots from the front on; `dequeue` returns the oldest that has not been returned,
and no step overwrites a task that is stored. -/
theorem queue_refines_fifo {w₀ w : Words} {es : List Event} (h₀ : queue.init w₀)
    (h : queue.run es w₀ = some w) :
    ∃ l, fifo.run es [] = some l ∧ Represents w l ∧
      es.filterMap Event.put = es.filterMap Event.taken ++ l ∧
      (dequeue w).2 = l.head? ∧ ((dequeue w).2 = none ↔ l = []) ∧
      ∀ e w', queue.step e w = some w' → ∀ k < w.count,
        w'.q ((w.front + k) % QUEUESIZE) = w.q ((w.front + k) % QUEUESIZE) := by
  obtain ⟨w₁, rfl⟩ := h₀
  have start : Holds (initQueue w₁) [] := ⟨_, initQueue_eq w₁, Ring.contents_empty _ _⟩
  obtain ⟨l, hrun, hl⟩ := Sys.run_simulates Holds.step start h
  refine ⟨l, hrun, hl.represents, put_eq hrun, hl.dequeue, ?_, fun e w' hs k hk => hl.kept hs hk⟩
  rw [hl.dequeue, List.head?_eq_none_iff]

/-- In any such run, `enqueue` succeeds as long as there is room. -/
theorem queue_enqueues {w₀ w : Words} {es : List Event} (h₀ : queue.init w₀)
    (h : queue.run es w₀ = some w) (x : Task) :
    (∃ w', queue.step (.enqueue x) w = some w') ↔ w.count < QUEUESIZE := by
  obtain ⟨w₁, rfl⟩ := h₀
  have start : Holds (initQueue w₁) [] := ⟨_, initQueue_eq w₁, Ring.contents_empty _ _⟩
  obtain ⟨l, -, r, rfl, -⟩ := Sys.run_simulates Holds.step start h
  constructor
  · rintro ⟨w', hs⟩
    by_contra full
    obtain ⟨succeeds, -⟩ := Option.ite_none_right_eq_some.mp hs
    rw [enqueue_full full] at succeeds
    exact Int.zero_ne_one succeeds
  · intro room
    exact ⟨_, if_pos (by rw [enqueue_room room])⟩

theorem run_append {es es' : List Event} {w : Words} :
    queue.run (es ++ es') w = (queue.run es w).bind (queue.run es') := by
  induction es generalizing w with
  | nil => rfl
  | cons e es ih =>
    rw [List.cons_append, Sys.run, Sys.run, Option.bind_assoc]
    exact congrArg _ (funext fun _ => ih)

/-- A task that is put in and taken out again leaves an empty queue one slot further. -/
theorem run_rounds (x : Task) (n : Nat) {q : Nat → Task} {front : Nat} (h : front < QUEUESIZE) :
    ∃ q', queue.run (List.replicate n [.enqueue x, .dequeue (some x)]).flatten
        ⟨q, front, (front + (QUEUESIZE - 1)) % QUEUESIZE, 0⟩ =
      some ⟨q', (front + n) % QUEUESIZE, (front + n + (QUEUESIZE - 1)) % QUEUESIZE, 0⟩ := by
  induction n generalizing q front with
  | zero => exact ⟨q, by rw [Nat.add_zero, Nat.mod_eq_of_lt h]; rfl⟩
  | succ n ih =>
    have rear : ((front + (QUEUESIZE - 1)) % QUEUESIZE + 1) % QUEUESIZE = front := by
      simp only [QUEUESIZE] at h ⊢
      omega
    have round : queue.run [.enqueue x, .dequeue (some x)]
        ⟨q, front, (front + (QUEUESIZE - 1)) % QUEUESIZE, 0⟩ =
          some ⟨Function.update q front x, (front + 1) % QUEUESIZE, front, 0⟩ := by
      generalize (front + (QUEUESIZE - 1)) % QUEUESIZE = last at rear
      simp [Sys.run, queue, enqueue, dequeue, rear]
    obtain ⟨q', hq⟩ := ih (q := Function.update q front x) (Nat.mod_lt (front + 1) queuesize_pos)
    have behind : ((front + 1) % QUEUESIZE + (QUEUESIZE - 1)) % QUEUESIZE = front := by
      simp only [QUEUESIZE] at h ⊢
      omega
    rw [behind] at hq
    refine ⟨q', ?_⟩
    rw [List.replicate_succ, List.flatten_cons, run_append, round, Option.bind_some, hq]
    simp only [QUEUESIZE, Option.some.injEq, Words.mk.injEq, true_and, and_true]
    omega

/-- Once around: the front and the rear come to the last slot, 7, 8 and 9 are put in across the end
of the array, and 7 is taken out. -/
theorem queue_refines_fifo_wrap : ∃ es w l,
    queue.run es (initQueue ⟨fun _ => 0, 0, 0, 0⟩) = some w ∧ fifo.run es [] = some l ∧
      Represents w l ∧ w.front = 0 ∧ w.rear = 1 ∧ l = [8, 9] := by
  have start : initQueue ⟨fun _ => 0, 0, 0, 0⟩ =
      ⟨fun _ => 0, 0, (0 + (QUEUESIZE - 1)) % QUEUESIZE, 0⟩ := rfl
  obtain ⟨q, around⟩ := run_rounds 7 (QUEUESIZE - 1) (q := fun _ => 0) queuesize_pos
  have run : queue.run ((List.replicate (QUEUESIZE - 1) [.enqueue 7, .dequeue (some 7)]).flatten ++
      [.enqueue 7, .enqueue 8, .enqueue 9, .dequeue (some 7)]) (initQueue ⟨fun _ => 0, 0, 0, 0⟩) =
        some ⟨Function.update (Function.update (Function.update q 249999 7) 0 8) 1 9, 0, 1, 2⟩ := by
    rw [run_append, start, around, Option.bind_some]
    change queue.run _ ⟨q, 249999, 249998, 0⟩ = _
    simp [Sys.run, queue, enqueue, dequeue, QUEUESIZE]
  obtain ⟨l, hl, hrep, -⟩ := queue_refines_fifo ⟨_, rfl⟩ run
  refine ⟨_, _, l, run, hl, hrep, rfl, rfl, ?_⟩
  have two : l.length = 2 := hrep.count_eq.symm
  obtain ⟨a, b, rfl⟩ := List.length_eq_two.mp two
  have first : 8 = a := by simpa using hrep.slot 0 (by simp)
  have second : 9 = b := by simpa using hrep.slot 1 (by simp)
  rw [first, second]

end

end CStrider.TaskQueue.Fifo
