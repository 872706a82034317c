import CStrider.TaskQueue.Effects

/-!
# Invariants of a parallel session

All of them are read off `Effect`, so none takes a program point apart.

* `Owned`: a mutex names the thread that owns it.
* `Counted`: `inflight` and `thread_started` of a queue are what its thread's program point says.
* `Scanned`: the queues that a scan has found quiet are still quiet.
* `Accounted`: every enqueued task is executed, waiting in one queue, or in the hands of one
  thread.
* `Fresh`: an allocated task is enqueued at most once.
* `Settled`: once `allqdone` is set, every queue is quiet and no thread has work left.
-/

namespace CStrider.TaskQueue

/-! ## What the updates of the state leave alone -/

section Updates

variable (s : State) (i : Nat) (p : Pc) (q : Nat) (c : Queue)

@[simp] theorem goto_pc : (s.goto i p).pc = Function.update s.pc i p := rfl
@[simp] theorem goto_queue : (s.goto i p).queue = s.queue := rfl
@[simp] theorem goto_allqdone : (s.goto i p).allqdone = s.allqdone := rfl
@[simp] theorem goto_allocated : (s.goto i p).allocated = s.allocated := rfl
@[simp] theorem goto_enqueued : (s.goto i p).enqueued = s.enqueued := rfl
@[simp] theorem goto_executed : (s.goto i p).executed = s.executed := rfl
@[simp] theorem setQueue_queue : (s.setQueue q c).queue = Function.update s.queue q c := rfl
@[simp] theorem setQueue_pc : (s.setQueue q c).pc = s.pc := rfl
@[simp] theorem setQueue_allqdone : (s.setQueue q c).allqdone = s.allqdone := rfl
@[simp] theorem setQueue_allocated : (s.setQueue q c).allocated = s.allocated := rfl
@[simp] theorem setQueue_enqueued : (s.setQueue q c).enqueued = s.enqueued := rfl
@[simp] theorem setQueue_executed : (s.setQueue q c).executed = s.executed := rfl

variable {s q c}

/-- A field that the new queue has as the old one is the same in all queues. -/
theorem update_field {γ : Type*} (f : Queue → γ) (h : f c = f (s.queue q)) (r : Nat) :
    f (Function.update s.queue q c r) = f (s.queue r) := by
  by_cases hr : r = q
  · subst hr
    rw [Function.update_self, h]
  · rw [Function.update_of_ne hr]

end Updates

/-! ## The invariants -/

def InRange (N : Nat) (s : State) : Prop := ∀ i < N, inRange N (s.pc i)

def Owned (N : Nat) (s : State) : Prop :=
  ∀ q i, (s.queue q).queueMutex = some i ↔ holds N i (s.pc i) q

/-- `inflight` and `thread_started`. -/
def Queue.tally (q : Queue) : Int × Bool := (q.inflight, q.threadStarted)

def Work.tally (w : Work) : Int × Bool := (w.inflight, w.started)

def Counted (s : State) : Prop := ∀ i, (s.queue i).tally = (work (s.pc i)).tally

def Scanned (N : Nat) (s : State) : Prop :=
  ∀ i, ∀ q < checked N (s.pc i), q < N → (s.queue q).Quiet

def Leaving (s : State) : Prop := ∀ i, saysDone (s.pc i) → s.allqdone = true

def Accounted (N : Nat) (s : State) : Prop :=
  ∀ x, s.enqueued.count x = s.executed.count x
    + ∑ q ∈ Finset.range N, (s.queue q).ring.contents.count x
    + ∑ i ∈ Finset.range N, (work (s.pc i)).pending.count x

def Fresh (N : Nat) (s : State) : Prop :=
  ∀ x, s.enqueued.count x + ∑ i ∈ Finset.range N, (work (s.pc i)).making.count x
    = (List.range s.allocated).count x

def Settled (N : Nat) (s : State) : Prop :=
  s.allqdone = true → ∀ i < N, (s.queue i).Quiet ∧ work (s.pc i) = Work.idle

/-! ## What one step keeps -/

section Step

variable {N i : Nat} {s s' t : State} {p : Pc} {H : Nat → Prop} {w : Work}

/-- A statement about every thread after thread `i` moved. -/
theorem update_forall {P : Nat → Pc → Prop} {f : Nat → Pc} (hi : P i p)
    (hj : ∀ j, j ≠ i → P j (f j)) (j : Nat) : P j (Function.update f i p j) := by
  by_cases hji : j = i
  · subst hji
    rw [Function.update_self]
    exact hi
  · rw [Function.update_of_ne hji]
    exact hj j hji

theorem Act.pc (a : Act N i s t H w) : t.pc = s.pc := by
  cases a <;> rfl

theorem Act.allqdone (a : Act N i s t H w) (h : s.allqdone = true) : t.allqdone = true := by
  cases a <;> first | exact h | rfl

theorem Effect.inRange (h : Effect N i s s') (hs : InRange N s) : InRange N s' := by
  obtain ⟨a, m⟩ := h
  rw [InRange, goto_pc, a.pc]
  exact fun j => update_forall (P := fun j p => j < N → TaskQueue.inRange N p)
    (fun _ => m.inRange) (fun j _ => hs j) j

theorem Effect.leaving (h : Effect N i s s') (hs : Leaving s) : Leaving s' := by
  obtain ⟨a, m⟩ := h
  rw [Leaving, goto_pc, a.pc]
  refine update_forall (P := fun _ p => saysDone p → _) (fun hp => ?_)
    (fun j _ hp => a.allqdone (hs j hp))
  exact (m.leaving hp).elim (fun hi => a.allqdone (hs i hi)) id

theorem Act.owned (a : Act N i s t H w) (hs : Owned N s) (q j : Nat) :
    (t.queue q).queueMutex = some j ↔ if j = i then H q else holds N j (s.pc j) q := by
  have same : (s.queue q).queueMutex = some j ↔
      if j = i then holds N i (s.pc i) q else holds N j (s.pc j) q := by
    rw [hs q j]
    split
    · next hji => rw [hji]
    · rfl
  have kept : ∀ {r c}, c.queueMutex = (s.queue r).queueMutex →
      ((Function.update s.queue r c q).queueMutex = some j ↔
        if j = i then holds N i (s.pc i) q else holds N j (s.pc j) q) := by
    intro r c h
    rw [update_field Queue.queueMutex h q, same]
  cases a with
  | skip | call | alloc | done | abort => exact same
  | start | pop | bump | dec | push => exact kept rfl
  | lock r free =>
    by_cases hq : q = r
    · subst hq
      have : ¬ holds N j (s.pc j) q := fun h => by simp [(hs q j).mpr h] at free
      split <;> simp_all [State.setMutex, eq_comm]
    · simpa [State.setMutex, hq] using same
  | unlock r own =>
    by_cases hq : q = r
    · subst hq
      have := (hs q i).mpr own
      split
      · simp [State.setMutex]
      · next hji =>
        have : ¬ holds N j (s.pc j) q := fun h => by
          simp [(hs q j).mpr h, hji] at this
        simpa [State.setMutex] using this
    · simpa [State.setMutex, hq] using same

theorem Effect.owned (h : Effect N i s s') (hs : Owned N s) : Owned N s' := by
  obtain ⟨a, m⟩ := h
  intro q
  rw [goto_pc, goto_queue, a.pc]
  refine update_forall (P := fun j p => _ = some j ↔ holds N j p q) ?_ fun j hj => ?_
  · rw [a.owned hs, if_pos rfl, m.holds]
  · rw [a.owned hs, if_neg hj]

theorem Act.counted (a : Act N i s t H w) (hs : Counted s) (j : Nat) :
    (t.queue j).tally = if j = i then w.tally else (work (s.pc j)).tally := by
  have same : (s.queue j).tally =
      if j = i then (work (s.pc i)).tally else (work (s.pc j)).tally := by
    split
    · next hji => rw [hji, hs i]
    · exact hs j
  have kept : ∀ {r c}, Queue.tally c = (s.queue r).tally →
      (Function.update s.queue r c j).tally =
        if j = i then (work (s.pc i)).tally else (work (s.pc j)).tally :=
    fun h => (update_field Queue.tally h j).trans same
  have at_i : ∀ {c : Queue}, c.tally = w.tally →
      (Function.update s.queue i c j).tally = if j = i then w.tally else (work (s.pc j)).tally := by
    intro c h
    split
    · next hji => rw [hji, Function.update_self, h]
    · next hji => rw [Function.update_of_ne hji, hs j]
  have hi : (s.queue i).inflight = (work (s.pc i)).inflight := congrArg Prod.fst (hs i)
  have hi' : (s.queue i).threadStarted = (work (s.pc i)).started := congrArg Prod.snd (hs i)
  cases a with
  | skip | done | abort | call | alloc => exact same
  | lock | unlock | pop | push => exact kept rfl
  | start | bump | dec => exact at_i (by simp [Queue.tally, Work.tally, hi, hi'])

theorem Effect.counted (h : Effect N i s s') (hs : Counted s) : Counted s' := by
  obtain ⟨a, m⟩ := h
  intro j
  rw [goto_pc, goto_queue, a.pc, a.counted hs]
  by_cases hj : j = i
  · subst hj
    rw [if_pos rfl, Function.update_self, m.work]
  · rw [if_neg hj, Function.update_of_ne hj]

/-- A quiet queue stays quiet under the steps of a thread that has nothing to do or owns no
mutex. -/
theorem Act.quiet (a : Act N i s t H w) (hi : i < N) {q : Nat} (hq : (s.queue q).Quiet)
    (h : work (s.pc i) = Work.idle ∨ ∀ r < N, ¬ holds N i (s.pc i) r) : (t.queue q).Quiet := by
  have kept : ∀ {r} {c : Queue}, (r = q → c.Quiet) → (Function.update s.queue r c q).Quiet := by
    intro r c hc
    by_cases hr : q = r
    · rw [hr, Function.update_self]
      exact hc hr.symm
    · rwa [Function.update_of_ne hr]
  cases a with
  | skip | call | alloc | done | abort => exact hq
  | lock | unlock => exact kept fun hr => hr ▸ hq
  | start => exact kept fun hr => ⟨hr ▸ hq.1, hr ▸ hq.2.1, rfl⟩
  | pop r hc => exact kept fun hr => absurd (hr ▸ hc : 0 < (s.queue q).count) (by rw [hq.2.1]; omega)
  | bump r hr own busy =>
    exact absurd own (h.elim (fun hw => by simp [hw, Work.idle] at busy) (· r hr))
  | dec own busy => exact absurd own (h.elim (fun hw => by simp [hw, Work.idle] at busy) (· i hi))
  | push r x hc hr own busy =>
    exact absurd own (h.elim (fun hw => by simp [hw, Work.idle] at busy) (· r hr))

/-- While one thread owns all mutexes, no other thread owns any. -/
theorem Owned.exclusive (hs : Owned N s) {j k : Nat} (hj : ∀ q < N, holds N j (s.pc j) q)
    (hjk : j ≠ k) : ∀ q < N, ¬ holds N k (s.pc k) q := by
  intro q hq hk
  have := ((hs q j).mpr (hj q hq)).symm.trans ((hs q k).mpr hk)
  exact hjk (Option.some.inj this)

theorem Effect.scanned (h : Effect N i s s') (hi : i < N) (ho : Owned N s) (hs : Scanned N s) :
    Scanned N s' := by
  obtain ⟨a, m⟩ := h
  rename_i t p _ _
  rw [Scanned, goto_pc, goto_queue, a.pc]
  refine update_forall (P := fun _ p => ∀ q < checked N p, q < N → (t.queue q).Quiet)
    (fun q hq hqN => ?_)
    (fun j hj q hq hqN => ?_)
  · rcases m.checked q hq with hc | hc
    · have idle := work_of_checked (Nat.zero_lt_of_lt hc)
      exact a.quiet hi (hs i q hc hqN) (.inl idle)
    · exact hc
  · have all := holds_of_checked (i := j) (Nat.zero_lt_of_lt hq)
    exact a.quiet hi (hs j q hq hqN) (.inr (ho.exclusive all hj))

/-- The step that sets `allqdone`: its scan found every queue quiet while it owned every mutex,
so no thread can be in the middle of taking a task. -/
theorem settled_of_scan (hr : InRange N s) (ho : Owned N s) (hc : Counted s) (hs : Scanned N s)
    (scan : checked N (s.pc i) = N) :
    ∀ j < N, (s.queue j).Quiet ∧ work (s.pc j) = Work.idle := by
  intro j hj
  have quiet : (s.queue j).Quiet := hs i j (by omega) hj
  have hpos : 0 < checked N (s.pc i) := by omega
  refine ⟨quiet, ?_⟩
  by_cases hji : j = i
  · exact hji ▸ work_of_checked hpos
  · have hno := ho.exclusive (holds_of_checked hpos) (Ne.symm hji)
    have tally := hc j
    rw [Queue.tally, quiet.1, quiet.2.2] at tally
    exact work_eq_idle (hr j hj) hno (congrArg Prod.snd tally).symm (congrArg Prod.fst tally).symm

/-- With every queue quiet, a thread that has nothing to do finds nothing to do. -/
theorem Act.idle (a : Act N i s t H w) (hq : ∀ q < N, (s.queue q).Quiet)
    (h : work (s.pc i) = Work.idle) : w = Work.idle := by
  cases a with
  | skip | lock | unlock | done | abort => exact h
  | start => rw [h]; rfl
  | pop q hc hqN =>
    exact absurd hc (by rw [show (s.queue q).ring.count = 0 from (hq q hqN).2.1]; omega)
  | bump q hqN own busy => exact absurd (congrArg Work.pending h) busy
  | call t busy => exact absurd (busy.symm.trans (congrArg Work.pending h)) (by simp [Work.idle])
  | dec own busy => exact absurd (congrArg Work.inflight h) busy
  | alloc hm busy => exact absurd busy (by simp [h, Work.idle])
  | push q x hc hqN own busy =>
    exact absurd (busy.symm.trans (congrArg Work.making h)) (by simp [Work.idle])

theorem Effect.settled (h : Effect N i s s') (hi : i < N) (hr : InRange N s) (ho : Owned N s)
    (hc : Counted s) (hsc : Scanned N s) (hs : Settled N s) : Settled N s' := by
  obtain ⟨a, m⟩ := h
  rename_i t p _ _
  intro hd
  have before : ∀ j < N, (s.queue j).Quiet ∧ work (s.pc j) = Work.idle := by
    cases a with
    | done all scan => exact settled_of_scan hr ho hc hsc scan
    | _ => exact hs hd
  rw [goto_queue, goto_pc, a.pc]
  refine update_forall (P := fun j p => j < N → (t.queue j).Quiet ∧ work p = Work.idle)
    (fun hj => ⟨?_, ?_⟩) (fun j _ hj => ⟨?_, (before j hj).2⟩)
  · exact a.quiet hi (before i hj).1 (.inl (before i hi).2)
  · exact m.work.trans (a.idle (fun q hq => (before q hq).1) (before i hi).2)
  · exact a.quiet hi (before j hj).1 (.inl (before i hi).2)

/-- The balance of a task `x` before thread `i` has moved on. -/
theorem Act.accounted (a : Act N i s t H w) (hs : Accounted N s) (x : Task) :
    t.enqueued.count x + (work (s.pc i)).pending.count x = t.executed.count x
      + ∑ q ∈ Finset.range N, (t.queue q).ring.contents.count x
      + ∑ j ∈ Finset.range N, (work (s.pc j)).pending.count x + w.pending.count x := by
  have hx := hs x
  have kept : ∀ {r c}, Queue.ring c = (s.queue r).ring →
      s.enqueued.count x + (work (s.pc i)).pending.count x = s.executed.count x
        + ∑ q ∈ Finset.range N, (Function.update s.queue r c q).ring.contents.count x
        + ∑ j ∈ Finset.range N, (work (s.pc j)).pending.count x
        + (work (s.pc i)).pending.count x := by
    intro r c h
    rw [sum_update_same (fun _ (q : Queue) => q.ring.contents.count x) s.queue c (by rw [h])]
    omega
  cases a with
  | skip => omega
  | alloc | done | abort => simp only; omega
  | lock | unlock | start | bump | dec => exact kept rfl
  | call y busy => simp [List.count_cons, busy]; omega
  | pop r hc hr own idle =>
    have hsum := sum_update (fun _ (q : Queue) => q.ring.contents.count x) s.queue
      (Finset.mem_range.mpr hr) { s.queue r with ring := (s.queue r).ring.pop hc }
    have hpop := Ring.count_contents_pop x (s.queue r).ring hc
    simp only [setQueue_queue, setQueue_enqueued, setQueue_executed, idle, List.count_nil] at hsum ⊢
    omega
  | push r y hc hr own busy =>
    have hsum := sum_update (fun _ (q : Queue) => q.ring.contents.count x) s.queue
      (Finset.mem_range.mpr hr) { s.queue r with ring := (s.queue r).ring.push y hc }
    have hpush := Ring.count_contents_push x (s.queue r).ring y hc
    have hcons : (y :: s.enqueued).count x = s.enqueued.count x + [y].count x := by
      simp [List.count_cons]
    simp only [setQueue_queue, setQueue_executed] at hsum ⊢
    omega

theorem Effect.accounted (h : Effect N i s s') (hi : i < N) (hs : Accounted N s) :
    Accounted N s' := by
  obtain ⟨a, m⟩ := h
  rename_i p _ w
  intro x
  have ha := a.accounted hs x
  have hsum := sum_update (fun _ p => (work p).pending.count x) s.pc (Finset.mem_range.mpr hi) p
  simp only [m.work] at hsum
  rw [goto_pc, a.pc, goto_queue, goto_enqueued, goto_executed]
  omega

theorem Act.fresh (a : Act N i s t H w) (hs : Fresh N s) (x : Task) :
    t.enqueued.count x + ∑ j ∈ Finset.range N, (work (s.pc j)).making.count x + w.making.count x
      = (List.range t.allocated).count x + (work (s.pc i)).making.count x := by
  have hx := hs x
  cases a with
  | skip => omega
  | lock | unlock | start | pop | bump | call | dec | done | abort =>
    simp only [State.setMutex, setQueue_enqueued, setQueue_allocated]
    omega
  | alloc idle =>
    simp only [idle, List.count_nil, List.range_succ, List.count_append]
    omega
  | push r y hc hr own busy =>
    have hcons : (y :: s.enqueued).count x = s.enqueued.count x + [y].count x := by
      simp [List.count_cons]
    simp only [setQueue_allocated, busy, List.count_nil]
    omega

theorem Effect.fresh (h : Effect N i s s') (hi : i < N) (hs : Fresh N s) : Fresh N s' := by
  obtain ⟨a, m⟩ := h
  rename_i p _ w
  intro x
  have ha := a.fresh hs x
  have hsum := sum_update (fun _ p => (work p).making.count x) s.pc (Finset.mem_range.mpr hi) p
  simp only [m.work] at hsum
  rw [goto_pc, a.pc, goto_enqueued, goto_allocated]
  omega

end Step

/-! ## The invariants of all runs -/

/-- The invariants that hold of a session whatever it finds in `allqdone`. -/
structure Safe (N : Nat) (s : State) : Prop where
  inRange : InRange N s
  owned : Owned N s
  counted : Counted s
  scanned : Scanned N s
  leaving : Leaving s
  accounted : Accounted N s
  fresh : Fresh N s

section Runs

variable {N : Nat} {d : Bool} {s : State}

theorem work_launched (i : Nat) : work ((launched N d).pc i) = ⟨0, false, [], []⟩ := by
  simp only [launched]
  split <;> rfl

theorem safe_launched : Safe N (launched N d) := by
  have hpc : ∀ i, (launched N d).pc i = .visitAll ∨ (launched N d).pc i = .startLock := by
    intro i
    simp only [launched]
    split <;> simp
  refine ⟨fun i _ => ?_, fun q i => ?_, fun i => ?_, fun i q hq => ?_, fun i hi => ?_, fun x => ?_,
    fun x => ?_⟩
  · rcases hpc i with h | h <;> rw [h] <;> trivial
  · rcases hpc i with h | h <;> rw [h] <;> simp [launched, initQueue, holds]
  · rw [work_launched]; rfl
  · rcases hpc i with h | h <;> simp [h, checked] at hq
  · rcases hpc i with h | h <;> simp [h, saysDone] at hi
  · simp [work_launched]; simp [launched, initQueue]
  · simp [work_launched]; simp [launched]

theorem safe_inductive : (session N d).Inductive (fun _ => True) (Safe N) where
  init := by
    rintro s rfl
    exact safe_launched
  step := by
    intro l s s' _ hs h
    obtain ⟨hl, e⟩ := step_effect hs.inRange h
    exact ⟨e.inRange hs.inRange, e.owned hs.owned, e.counted hs.counted,
      e.scanned hl hs.owned hs.scanned, e.leaving hs.leaving, e.accounted hl hs.accounted,
      e.fresh hl hs.fresh⟩

theorem Safe.reach (h : (session N d).Reach s) : Safe N s :=
  safe_inductive.reach (fun _ => trivial) h

/-- In a session that finds `allqdone` clear, whoever sets it has seen the end of all work. -/
theorem settled_inductive : (session N false).Inductive (Safe N) (Settled N) where
  init := by
    rintro s rfl h
    cases h
  step := by
    intro l s s' hk hs h
    obtain ⟨hl, e⟩ := step_effect hk.inRange h
    exact e.settled hl hk.inRange hk.owned hk.counted hk.scanned hs

theorem Settled.reach (h : (session N false).Reach s) : Settled N s :=
  settled_inductive.reach (fun hr => Safe.reach hr) h

end Runs

end CStrider.TaskQueue
