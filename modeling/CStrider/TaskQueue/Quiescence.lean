import CStrider.TaskQueue.Invariants

/-!
# The end of a parallel session

`allqempty` answers for all queues at once, from one thread, while the others run. The main
result is that a nonzero answer is final: no task is waiting or running anywhere, every task that
was ever enqueued has been executed exactly once, and none will be enqueued later.
-/

namespace CStrider.TaskQueue

/-- The thread has dequeued a task and not yet reported it by `deq_task_finished`. -/
def unfinished : Pc → Bool
  | .deqBump _ _ | .deqUnlock _ (some _) | .callxformer _ | .running _ => true
  | .finLock | .finDec => true
  | .lowest (.task _) _ _ _ _ | .lowestTake (.task _) _ _ => true
  | .enqTry (.task _) _ _ | .enqLocked (.task _) _ _ | .enqUnlock (.task _) _ _ => true
  | _ => false

section Quiescence

variable {N i : Nat} {s s' : State}

theorem finished_of_idle {p : Pc} (h : work p = Work.idle) : unfinished p = false := by
  cases p with
  | deqUnlock qnum x => cases x <;> simp_all [work, Work.idle, unfinished]
  | lowest k | lowestTake k | enqTry k | enqLocked k | enqUnlock k =>
    cases k <;> first | rfl | simp [work, Caller.work, Work.idle] at h
  | _ => simp_all [work, Work.idle, unfinished]

theorem pending_of_idle {p : Pc} (h : work p = Work.idle) : (work p).pending = [] := by
  rw [h]; rfl

/-- A thread that has nothing to do enqueues nothing. -/
theorem Act.enqueued_of_idle {t : State} {H : Nat → Prop} {w : Work} (a : Act N i s t H w)
    (h : work (s.pc i) = Work.idle) : t.enqueued = s.enqueued := by
  cases a with
  | push q x hc hq own busy =>
    exact absurd (busy.symm.trans (congrArg Work.making h)) (by simp [Work.idle])
  | _ => rfl

/-- No task is enqueued twice. -/
theorem Fresh.count_le_one (h : Fresh N s) (x : Task) : s.enqueued.count x ≤ 1 :=
  calc s.enqueued.count x
      ≤ (List.range s.allocated).count x := by
        rw [← h x]
        exact Nat.le_add_right _ _
    _ ≤ 1 := List.nodup_iff_count_le_one.mp List.nodup_range x

/-- Where all queues are empty and no thread holds a task, what was enqueued is what was
executed. -/
theorem Accounted.all_executed (h : Accounted N s) (hf : Fresh N s)
    (hq : ∀ q < N, (s.queue q).Quiet ∧ work (s.pc q) = Work.idle) (x : Task) :
    s.executed.count x = if x ∈ s.enqueued then 1 else 0 := by
  have waiting : ∑ q ∈ Finset.range N, (s.queue q).ring.contents.count x = 0 := by
    refine Finset.sum_eq_zero fun q hr => ?_
    have hc : (s.queue q).ring.contents = [] :=
      (Ring.contents_eq_nil _).mpr (hq q (Finset.mem_range.mp hr)).1.2.1
    rw [hc, List.count_nil]
  have inHand : ∑ i ∈ Finset.range N, (work (s.pc i)).pending.count x = 0 := by
    refine Finset.sum_eq_zero fun i hr => ?_
    rw [pending_of_idle (hq i (Finset.mem_range.mp hr)).2, List.count_nil]
  have balance := h x
  have once := hf.count_le_one x
  split
  · next hx =>
    have := List.count_pos_iff.mpr hx
    omega
  · next hx =>
    have := List.count_eq_zero.mpr hx
    omega

/-- Nothing is enqueued once `allqdone` is set. -/
theorem enqueued_stable (l : List Task) :
    (session N false).Stable (fun s => Safe N s ∧ Settled N s)
      (fun s => s.allqdone = true ∧ s.enqueued = l) := by
  intro lab s s' hk hI h
  obtain ⟨hl, ⟨a, m⟩⟩ := step_effect hk.1.inRange h
  exact ⟨a.allqdone hI.1, (a.enqueued_of_idle (hk.2 hI.1 _ hl).2).trans hI.2⟩

theorem quiet_of_left (h : (session N false).Reach s) (hleft : s.pc i = .left) :
    s.allqdone = true ∧ ∀ j < N, (s.queue j).Quiet ∧ work (s.pc j) = Work.idle := by
  have hdone : s.allqdone = true := (Safe.reach h).leaving i (by rw [hleft]; trivial)
  exact ⟨hdone, Settled.reach h hdone⟩

theorem executed_of_left (h : (session N false).Reach s) (hleft : s.pc i = .left) (x : Task) :
    s.executed.count x = if x ∈ s.enqueued then 1 else 0 :=
  (Safe.reach h).accounted.all_executed (Safe.reach h).fresh (quiet_of_left h hleft).2 x

/-- **A nonzero answer of `allqempty` is final.** Once some thread has left the loop of
`processqueue`, all queues are empty, no dequeued task is unfinished, every enqueued task has been
passed to `callxformer` exactly once, and no task is enqueued in any later state. -/
theorem allqempty_final (h : (session N false).Reach s) (hleft : s.pc i = .left) :
    (∀ q < N, (s.queue q).ring.contents = [] ∧ (s.queue q).inflight = 0) ∧
      (∀ j < N, unfinished (s.pc j) = false) ∧
      (∀ x, s.executed.count x = if x ∈ s.enqueued then 1 else 0) ∧
      ∀ s', (session N false).Later s s' → s'.enqueued = s.enqueued := by
  obtain ⟨hdone, quiet⟩ := quiet_of_left h hleft
  refine ⟨fun q hq => ⟨(Ring.contents_eq_nil _).mpr (quiet q hq).1.2.1, (quiet q hq).1.1⟩,
    fun j hj => finished_of_idle (quiet j hj).2, executed_of_left h hleft, fun s' hs' => ?_⟩
  exact (Sys.Stable.later (enqueued_stable s.enqueued)
    (fun hr => ⟨Safe.reach hr, Settled.reach hr⟩) h ⟨hdone, rfl⟩ hs').2

/-- Two threads: the main thread enqueues one task and starts, the helper runs to the end. -/
def oneTask : List Label :=
  ⟨1, true⟩ :: List.replicate 11 ⟨1, false⟩ ++ List.replicate 31 ⟨0, false⟩

theorem allqempty_final_oneTask : ∃ s, (session 2 false).Reach s ∧ s.enqueued = [0] ∧
    s.executed.count 0 = 1 ∧ ∀ s', (session 2 false).Later s s' → s'.enqueued = [0] := by
  obtain ⟨s, hr, hp⟩ : ∃ s, (session 2 false).Reach s ∧ (s.pc 0 = .left ∧ s.enqueued = [0]) :=
    Sys.exists_reach (S := session 2 false) rfl (show (Sys.run _ oneTask _).any _ = true by
      decide +kernel)
  obtain ⟨-, -, hx, hlater⟩ := allqempty_final hr hp.1
  exact ⟨s, hr, hp.2, by rw [hx, hp.2]; rfl, fun s' h => (hlater s' h).trans hp.2⟩

end Quiescence

end CStrider.TaskQueue
