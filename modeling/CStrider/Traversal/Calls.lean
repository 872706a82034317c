import CStrider.Traversal.Locations

/-!
# The callbacks that visits make

Every visit makes the call of its kind, one or none; nothing else makes calls. So what is in the
log is what was visited.
-/

namespace CStrider.Traversal

open Mapping (Ptr findMapping addMapping)
open CStrider.Types (Typ Entry)

variable {σ : Type} {E : Env} {cb : Callbacks σ} {s s' : State σ} {a x : Ptr} {t : Typ}
  {te : Entry}

/-- What `visit(a, t, x)` adds to the log, when it leaves status `st`. -/
def Calls (E : Env) (a : Ptr) (t : Typ) (st : Status) (es : List Event) : Prop :=
  match E.kind t with
  | .system => es = []
  | .prim => es = [.prim a t]
  | .missing => es = [] ∧ st = .crashed
  | .ptr _ => es = [.ptr a t] ∨ es = [.ptrMapped a t] ∨ es = [] ∧ (a = 0 ∨ st = .crashed)
  | .array _ => es = []
  | .struct _ => es = [.struct a t]

/-- Neither calls nor visits. -/
def Quiet (s s' : State σ) : Prop := s'.log = s.log ∧ s'.visits = s.visits

/-- Nothing changes but what there is to do. -/
structure Schedules (s s' : State σ) : Prop where
  world : s'.world = s.world
  mappings : s'.mappings = s.mappings
  log : s'.log = s.log
  visits : s'.visits = s.visits

theorem Schedules.trans {s₁ : State σ} (h : Schedules s s₁) (h' : Schedules s₁ s') :
    Schedules s s' :=
  ⟨h'.1.trans h.1, h'.2.trans h.2, h'.3.trans h.3, h'.4.trans h.4⟩

theorem Schedules.quiet (h : Schedules s s') : Quiet s s' := ⟨h.log, h.visits⟩

theorem schedules_push (fs : List Frame) : Schedules s (s.push fs) := ⟨rfl, rfl, rfl, rfl⟩

theorem schedules_stop (st : Status) : Schedules s (s.stop st) := ⟨rfl, rfl, rfl, rfl⟩

theorem schedules_addtoqueue (task : Option Task) : Schedules s (addtoqueue s task) := by
  cases task with
  | none => exact ⟨rfl, rfl, rfl, rfl⟩
  | some task =>
    rw [addtoqueue_some]
    split
    · exact ⟨rfl, rfl, rfl, rfl⟩
    · exact schedules_stop _

theorem schedules_transformArray : Schedules s (transformArray E a t x s) := by
  unfold transformArray
  split
  · exact schedules_stop _
  · split
    · exact schedules_stop _
    · exact schedules_push _

theorem schedules_foldl {task : Nat → Option Task} (is : List Nat) :
    Schedules s (is.foldl (fun s i => addtoqueue s (task i)) s) := by
  induction is generalizing s with
  | nil => exact ⟨rfl, rfl, rfl, rfl⟩
  | cons i is ih => exact (schedules_addtoqueue (task i)).trans ih

theorem schedules_transformSplitArray : Schedules s (transformSplitArray E a t x s) := by
  unfold transformSplitArray
  split
  · exact schedules_transformArray
  · split
    · exact schedules_stop _
    · dsimp only
      split
      · exact schedules_transformArray
      · split
        · exact schedules_stop _
        · exact (schedules_foldl _).trans schedules_transformArray

theorem quiet_followPtr {retc : Int} : Quiet s (followPtr E te a x retc s) := by
  unfold followPtr
  split
  · dsimp only
    split
    · exact ⟨rfl, rfl⟩
    · exact ⟨rfl, rfl⟩
  · exact ⟨rfl, rfl⟩

theorem visitStruct_calls : (visitStruct cb a t x s).log = [.struct a t] ++ s.log ∧
    (visitStruct cb a t x s).visits = s.visits := by
  unfold visitStruct
  dsimp only
  split
  · exact (schedules_addtoqueue _).quiet
  · exact ⟨rfl, rfl⟩

theorem visitPtr_calls : ∃ es, (visitPtr E cb te a t x s).log = es ++ s.log ∧
    (visitPtr E cb te a t x s).visits = s.visits ∧
    (es = [.ptr a t] ∨ es = [.ptrMapped a t] ∨
      es = [] ∧ (a = 0 ∨ (visitPtr E cb te a t x s).status = .crashed)) := by
  unfold visitPtr
  by_cases ha : a = 0
  · rw [if_pos ha]
    exact ⟨[], rfl, rfl, .inr (.inr ⟨rfl, .inl ha⟩)⟩
  rw [if_neg ha]
  cases s.world.mem a with
  | none => exact ⟨[], rfl, rfl, .inr (.inr ⟨rfl, .inr rfl⟩)⟩
  | some p =>
    dsimp only
    split
    · refine ⟨[.ptrMapped a t], ?_, ?_, .inr (.inl rfl)⟩
      · split <;> rfl
      · split <;> rfl
    · generalize cb.perfactionPtr a t x s.world = r
      have h : Quiet ({ s with world := r.2 }.note (.ptr a t))
        (followPtr E te a x r.1 ({ s with world := r.2 }.note (.ptr a t))) := quiet_followPtr
      exact ⟨[.ptr a t], h.1, h.2, .inl rfl⟩

/-- **The calls of a visit.** -/
theorem visit_calls : ∃ es, (visit E cb a t x s).log = es ++ s.log ∧
    (visit E cb a t x s).visits = (a, t) :: s.visits ∧
    Calls E a t (visit E cb a t x s).status es := by
  rw [visit_kind]
  unfold Calls
  cases hk : E.kind t with
  | system => exact ⟨[], rfl, rfl, rfl⟩
  | prim => exact ⟨[.prim a t], rfl, rfl, rfl⟩
  | missing => exact ⟨[], rfl, rfl, rfl, rfl⟩
  | ptr te => exact visitPtr_calls
  | array te =>
    have h : Quiet { s with visits := (a, t) :: s.visits }
      (transformSplitArray E a t x { s with visits := (a, t) :: s.visits }) :=
      schedules_transformSplitArray.quiet
    exact ⟨[], h.1, h.2, rfl⟩
  | struct te =>
    obtain ⟨hlog, hvisits⟩ := visitStruct_calls (s := { s with visits := (a, t) :: s.visits })
    exact ⟨[.struct a t], hlog, hvisits, rfl⟩

theorem schedules_runStmt {c : FieldVisit} : Schedules s (runStmt c a x s) := by
  unfold runStmt
  split
  · exact schedules_stop _
  · exact schedules_push _

theorem schedules_callxformer {task : Task} : Schedules s (callxformer E task s) := by
  unfold callxformer
  split
  · exact schedules_stop _
  · split
    · exact schedules_transformArray
    · split
      · exact schedules_push _
      · exact schedules_push _
      · exact schedules_push _

/-- A step is a visit, or makes no calls. -/
theorem step_calls (h : step E cb s = some s') : Quiet s s' ∨
    ∃ a t es, s'.log = es ++ s.log ∧ s'.visits = (a, t) :: s.visits ∧ Calls E a t s'.status es := by
  unfold step at h
  split at h
  · cases h
  split at h
  · obtain rfl := Option.some.inj h
    exact .inr ⟨_, _, visit_calls⟩
  · obtain rfl := Option.some.inj h
    exact .inl schedules_runStmt.quiet
  · split at h
    · obtain rfl := Option.some.inj h
      exact .inl schedules_callxformer.quiet
    · cases h

/-- A step visits what it takes. -/
theorem step_visits (h : step E cb s = some s') :
    ∃ n, s.nextNode = some n ∧ s'.visits = n.visited.toList ++ s.visits := by
  unfold step at h
  split at h
  · cases h
  split at h
  · next a t x fs hstack =>
    obtain rfl := Option.some.inj h
    obtain ⟨_, _, hvisits, _⟩ : ∃ es, (visit E cb a t x { s with stack := fs }).log = es ++ s.log ∧
      (visit E cb a t x { s with stack := fs }).visits = (a, t) :: s.visits ∧
      Calls E a t (visit E cb a t x { s with stack := fs }).status es := visit_calls
    exact ⟨.visit a t, by rw [State.nextNode, hstack]; rfl, hvisits⟩
  · next gen c a x fs hstack =>
    obtain rfl := Option.some.inj h
    exact ⟨.stmt gen c a, by rw [State.nextNode, hstack]; rfl, schedules_runStmt.visits⟩
  · next hstack =>
    split at h
    · next hq =>
      obtain rfl := Option.some.inj h
      refine ⟨s.queue.head.node, by rw [State.nextNode, hstack]; exact if_pos hq, ?_⟩
      exact schedules_callxformer.visits
    · cases h

/-! ## What the log says of the visits -/

/-- The callback of its kind was called for a location; an array has none of its own. -/
def Received (E : Env) (log : List Event) (a : Ptr) (t : Typ) : Prop :=
  match E.kind t with
  | .prim => .prim a t ∈ log
  | .ptr _ => a = 0 ∨ .ptr a t ∈ log ∨ .ptrMapped a t ∈ log
  | .struct _ => .struct a t ∈ log
  | _ => True

theorem Received.mono {log log' : List Event} (h : Received E log a t) (hl : log ⊆ log') :
    Received E log' a t := by
  unfold Received at h ⊢
  split at h
  · exact hl h
  · exact h.imp_right (Or.imp (fun h => hl h) fun h => hl h)
  · exact hl h
  · trivial

theorem Calls.received {st : Status} {es log : List Event} (h : Calls E a t st es)
    (hst : st ≠ .crashed) : Received E (es ++ log) a t := by
  unfold Calls at h
  unfold Received
  cases hk : E.kind t with
  | system => trivial
  | prim =>
    rw [hk] at h
    exact h ▸ List.mem_cons_self
  | missing => trivial
  | ptr te =>
    rw [hk] at h
    rcases h with rfl | rfl | ⟨rfl, ha | hcrash⟩
    · exact .inr (.inl List.mem_cons_self)
    · exact .inr (.inr List.mem_cons_self)
    · exact .inl ha
    · exact absurd hcrash hst
  | array te => trivial
  | struct te =>
    rw [hk] at h
    exact h ▸ List.mem_cons_self

variable {w : World σ} {roots : List Root}

/-- Every location that was visited received its callback. -/
theorem received_of_visited (hs : (session E cb w roots).Reach s) (hst : s.status ≠ .crashed) :
    ∀ v ∈ s.visits, Received E s.log v.1 v.2 := by
  induction hs with
  | init h =>
    obtain rfl := h
    exact fun v hv => absurd hv List.not_mem_nil
  | @step s s' l hs hstep ih =>
    have hrun : s.status ≠ .crashed := by
      intro hcrash
      have hnone : step E cb s = none := if_pos (by rw [hcrash]; simp)
      cases hnone.symm.trans hstep
    rcases step_calls hstep with ⟨hlog, hvisits⟩ | ⟨a, t, es, hlog, hvisits, hcalls⟩
    · rw [hlog, hvisits]
      exact ih hrun
    · intro v hv
      rw [hvisits] at hv
      rw [hlog]
      rcases List.mem_cons.mp hv with rfl | hv
      · exact hcalls.received hst
      · exact (ih hrun v hv).mono (List.subset_append_right es s.log)

theorem Calls.count_struct {st : Status} {es : List Event} {b : Ptr} {u : Typ}
    (h : Calls E b u st es) (hk : E.kind t = .struct te) :
    es.count (.struct a t) = [(b, u)].count (a, t) := by
  unfold Calls at h
  by_cases hbu : (b, u) = (a, t)
  · obtain ⟨rfl, rfl⟩ := Prod.mk.inj hbu
    rw [hk] at h
    subst h
    simp
  · rw [List.count_singleton, if_neg (by simpa using hbu), List.count_eq_zero]
    intro hmem
    split at h
    · rw [h] at hmem
      cases hmem
    · rw [h] at hmem
      simp at hmem
    · rw [h.1] at hmem
      cases hmem
    · rcases h with rfl | rfl | ⟨rfl, _⟩ <;> simp at hmem
    · rw [h] at hmem
      cases hmem
    · rw [h] at hmem
      simp only [List.mem_singleton, Event.struct.injEq] at hmem
      exact hbu (by rw [hmem.1, hmem.2])

/-- `perfaction_struct` is called as often as a struct is visited. -/
theorem count_struct (hs : (session E cb w roots).Reach s) (hk : E.kind t = .struct te) :
    s.log.count (.struct a t) = s.visits.count (a, t) := by
  induction hs with
  | init h =>
    obtain rfl := h
    rfl
  | step l _ hstep ih =>
    rcases step_calls hstep with ⟨hlog, hvisits⟩ | ⟨b, u, es, hlog, hvisits, hcalls⟩
    · rw [hlog, hvisits]
      exact ih
    · rw [hlog, hvisits, List.count_append, ih, hcalls.count_struct hk,
        ← List.count_append]
      rfl

end CStrider.Traversal
