import CStrider.Traversal.Calls
import CStrider.Traversal.InPlace

/-!
# Slots that hold NULL

`visit` hands a NULL to `perfaction_ptr` like any other pointer, and goes on with it when the
callback says so. What stops it then depends on the target type: a pointer branch returns for a NULL
address and `transform_make_enq` makes no task of one, but primitives and structs get their
callback, and the elements of an array are at NULL and beyond it. `Loud` says which visits end up in
a callback or a task; `untraversed_iff` is about the whole call that follows the NULL.
-/

namespace CStrider.Traversal

open Mapping (Ptr findMapping addMapping)
open TaskQueue (QUEUESIZE)
open CStrider.Types (Typ Entry)

/-! ## Arrays as what they leave to do -/

namespace Env

variable (E : Env)

/-- The visits of `transform_array`; `none` where it exits. -/
def arrayFrames (a : Ptr) (t : Typ) (x : Ptr) : Option (List Frame) :=
  (E.types.find t).bind fun te =>
    (getOutSize E.types te).map fun szOut =>
      (List.range (numArrayElems te)).map fun i =>
        .visit (a + i * getSize te) te.arrbase (x + i * szOut)

/-- The tasks of `transform_split_array`, and the visits that come after them. -/
def split (a : Ptr) (t : Typ) (x : Ptr) : List Task × Option (List Frame) :=
  if !E.parallel then ([], E.arrayFrames a t x)
  else
    match E.types.find t with
    | none => ([], none)
    | some te =>
      let count := numArrayElems te
      if count < SPLIT then ([], E.arrayFrames a t x)
      else
        match getOutSize E.types te with
        | none => ([], none)
        | some szOut =>
          let share := toInt (count / SPLIT)
          let remainder := toInt count - (SPLIT - 1 : Nat) * share
          ((List.range (SPLIT - 1)).filterMap fun i =>
              transformMakeEnq (a + shareOffset (getSize te) i share)
                (E.mktyparr share te.arrbase) (x + shareOffset szOut i share) true,
            E.arrayFrames (a + shareOffset (getSize te) (SPLIT - 1) share)
              (E.mktyparr remainder te.arrbase) (x + shareOffset szOut (SPLIT - 1) share))

end Env

section Arrays

variable {σ : Type} {E : Env} {s : State σ} {a x : Ptr} {t : Typ}

/-- What comes of the visits, when the tasks are queued. -/
def State.pushOrCrash (s : State σ) : Option (List Frame) → State σ
  | none => s.stop .crashed
  | some fs => s.push fs

/-- The tasks are queued, and the visits put on the stack. -/
def State.schedule (s : State σ) (tasks : List Task) (frames : Option (List Frame)) : State σ :=
  (tasks.foldl (fun s task => addtoqueue s (some task)) s).pushOrCrash frames

theorem transformArray_schedule :
    transformArray E a t x s = s.schedule [] (E.arrayFrames a t x) := by
  unfold transformArray Env.arrayFrames
  cases E.types.find t with
  | none => rfl
  | some te =>
    dsimp only [Option.bind_some]
    cases getOutSize E.types te with
    | none => rfl
    | some szOut => rfl

/-- `addtoqueue` passes over what `transform_make_enq` makes no task of. -/
theorem foldl_filterMap_addtoqueue (task : Nat → Option Task) (is : List Nat) :
    (is.filterMap task).foldl (fun s task => addtoqueue s (some task)) s =
      is.foldl (fun s i => addtoqueue s (task i)) s := by
  induction is generalizing s with
  | nil => rfl
  | cons i is ih =>
    cases htask : task i with
    | none =>
      rw [List.filterMap_cons_none htask, List.foldl_cons, ih, htask]
      rfl
    | some t => rw [List.filterMap_cons_some htask, List.foldl_cons, List.foldl_cons, ih, htask]

theorem transformSplitArray_schedule :
    transformSplitArray E a t x s = s.schedule (E.split a t x).1 (E.split a t x).2 := by
  unfold transformSplitArray Env.split
  cases E.parallel with
  | false => exact transformArray_schedule
  | true =>
    simp only [Bool.not_true, Bool.false_eq_true, if_false]
    cases E.types.find t with
    | none => rfl
    | some te =>
      dsimp only
      split
      · exact transformArray_schedule
      · cases getOutSize E.types te with
        | none => rfl
        | some szOut =>
          dsimp only
          rw [transformArray_schedule]
          unfold State.schedule
          rw [foldl_filterMap_addtoqueue, List.foldl_nil]

theorem count_le_foldl (tasks : List Task) :
    s.queue.count ≤ (tasks.foldl (fun s task => addtoqueue s (some task)) s).queue.count := by
  induction tasks generalizing s with
  | nil => exact le_rfl
  | cons task tasks ih =>
    refine le_trans ?_ ih
    dsimp only
    rw [addtoqueue_some]
    split
    · exact Nat.le_succ _
    · exact le_rfl

/-- A task that finds room is on the queue. -/
theorem count_lt_foldl {tasks : List Task} (h : tasks ≠ []) (hroom : s.queue.count < QUEUESIZE) :
    s.queue.count < (tasks.foldl (fun s task => addtoqueue s (some task)) s).queue.count := by
  cases tasks with
  | nil => exact absurd rfl h
  | cons task tasks =>
    refine lt_of_lt_of_le ?_ (count_le_foldl tasks)
    dsimp only
    rw [addtoqueue_push hroom]
    exact Nat.lt_succ_self _

/-- A task that finds none ends the program, and no task is queued. -/
theorem foldl_full {tasks : List Task} (h : tasks ≠ []) (hfull : ¬ s.queue.count < QUEUESIZE) :
    (tasks.foldl (fun s task => addtoqueue s (some task)) s) = s.stop .overflow := by
  induction tasks generalizing s with
  | nil => exact absurd rfl h
  | cons task tasks ih =>
    rw [List.foldl_cons, addtoqueue_some, dif_neg hfull]
    cases tasks with
    | nil => rfl
    | cons task' tasks => exact ih (by simp) hfull

theorem schedule_queue (tasks : List Task) (frames : Option (List Frame)) :
    (s.schedule tasks frames).queue =
      (tasks.foldl (fun s task => addtoqueue s (some task)) s).queue := by
  cases frames with
  | none => rfl
  | some fs => rfl

end Arrays

/-! ## Visits that end in a callback or a task -/

/-- The visits on `fs` make a callback or, where the queue has room, a task, with memory `m`. What
comes before it changes nothing, and does not end the program. -/
inductive Loud (E : Env) (m : Ptr → Option Ptr) (room : Prop) : List Frame → Prop
  | prim {a t x fs} : E.kind t = .prim → Loud E m room (.visit a t x :: fs)
  | struct {a t x te fs} : E.kind t = .struct te → Loud E m room (.visit a t x :: fs)
  | ptr {a t x te fs} : E.kind t = .ptr te → a ≠ 0 → m a ≠ none →
      Loud E m room (.visit a t x :: fs)
  | task {a t x te fs} : E.kind t = .array te → (E.split a t x).1 ≠ [] → room →
      Loud E m room (.visit a t x :: fs)
  | system {a t x fs} : E.kind t = .system → Loud E m room fs →
      Loud E m room (.visit a t x :: fs)
  | null {t x te fs} : E.kind t = .ptr te → Loud E m room fs → Loud E m room (.visit 0 t x :: fs)
  | elements {a t x te gs fs} : E.kind t = .array te → E.split a t x = ([], some gs) →
      Loud E m room (gs ++ fs) → Loud E m room (.visit a t x :: fs)

def Frame.IsVisit : Frame → Prop
  | .visit .. => True
  | .stmt .. => False

theorem Env.isVisit_arrayFrames {E : Env} {a x : Ptr} {t : Typ} {fs : List Frame}
    (h : E.arrayFrames a t x = some fs) : ∀ f ∈ fs, f.IsVisit := by
  obtain ⟨te, -, h⟩ := Option.bind_eq_some_iff.mp h
  obtain ⟨szOut, -, rfl⟩ := Option.map_eq_some_iff.mp h
  intro f hf
  obtain ⟨i, -, rfl⟩ := List.mem_map.mp hf
  trivial

theorem Env.isVisit_split {E : Env} {a x : Ptr} {t : Typ} {fs : List Frame}
    (h : (E.split a t x).2 = some fs) : ∀ f ∈ fs, f.IsVisit := by
  unfold Env.split at h
  split at h
  · exact isVisit_arrayFrames h
  · split at h
    · cases h
    · dsimp only at h
      split at h
      · exact isVisit_arrayFrames h
      · split at h
        · cases h
        · exact isVisit_arrayFrames h

section Calls

variable {σ : Type} {E : Env} {cb : Callbacks σ} {base fs : List Frame} {s s' u v : State σ}
  {m : Ptr → Option Ptr} {Q : Ring QUEUESIZE Task} {L : List Event} {a x : Ptr} {t : Typ}
  {te : Entry}

/-- `u` comes after `s` while the calls above `base` are in progress, or as they return. -/
def Inside (E : Env) (cb : Callbacks σ) (base : List Frame) : State σ → State σ → Prop :=
  Relation.ReflTransGen fun u v => base.length < u.stack.length ∧ step E cb u = some v

/-- No callback was made since the log was `L`, no task since the queue was `Q`, and none will. -/
structure Mute (E : Env) (m : Ptr → Option Ptr) (base : List Frame) (L : List Event)
    (Q : Ring QUEUESIZE Task) (u : State σ) : Prop where
  log : u.log = L
  queue : u.queue = Q
  quiet : u.status = .running → u.world.mem = m ∧ ∃ fs, u.stack = fs ++ base ∧
    (∀ f ∈ fs, f.IsVisit) ∧ ¬ Loud E m (Q.count < QUEUESIZE) fs

theorem Mute.stopped (hlog : u.log = L) (hqueue : u.queue = Q)
    (h : u.status ≠ .running) : Mute E m base L Q u :=
  ⟨hlog, hqueue, fun hrun => absurd hrun h⟩

/-- A visit on top of a mute stack. -/
theorem Mute.visit (hlog : u.log = L) (hqueue : u.queue = Q) (hmem : u.world.mem = m)
    (hstack : u.stack = fs ++ base) (hfs : ∀ f ∈ fs, f.IsVisit)
    (h : ¬ Loud E m (Q.count < QUEUESIZE) (.visit a t x :: fs)) :
    Mute E m base L Q (visit E cb a t x u) := by
  rw [visit_kind]
  cases hk : E.kind t with
  | system => exact ⟨hlog, hqueue, fun _ => ⟨hmem, fs, hstack, hfs, fun hl => h (.system hk hl)⟩⟩
  | prim => exact absurd (.prim hk) h
  | missing => exact .stopped hlog hqueue (by simp [State.stop])
  | struct te => exact absurd (.struct hk) h
  | ptr te =>
    dsimp only
    unfold visitPtr
    by_cases ha : a = 0
    · subst ha
      rw [if_pos rfl]
      exact ⟨hlog, hqueue, fun _ => ⟨hmem, fs, hstack, hfs, fun hl => h (.null hk hl)⟩⟩
    · have hnone : u.world.mem a = none := by
        by_contra hne
        exact h (.ptr hk ha (hmem ▸ hne))
      simp only [if_neg ha, hnone]
      exact .stopped hlog hqueue (by simp [State.stop])
  | array te =>
    dsimp only
    rw [transformSplitArray_schedule]
    by_cases htasks : (E.split a t x).1 = []
    · rw [htasks]
      cases hframes : (E.split a t x).2 with
      | none => exact .stopped hlog hqueue (by simp [State.schedule, State.pushOrCrash, State.stop])
      | some gs =>
        refine ⟨hlog, hqueue, fun _ => ⟨hmem, gs ++ fs, ?_, ?_, fun hl => h ?_⟩⟩
        · exact (congrArg (gs ++ ·) hstack).trans (List.append_assoc _ _ _).symm
        · intro f hf
          exact (List.mem_append.mp hf).elim (Env.isVisit_split hframes f) (hfs f)
        · exact .elements hk (Prod.ext htasks hframes) hl
    · have hfull : ¬ u.queue.count < QUEUESIZE := fun hroom =>
        h (.task hk htasks (by rwa [← hqueue]))
      rw [State.schedule, foldl_full htasks (by exact hfull)]
      cases (E.split a t x).2 with
      | none => exact .stopped hlog hqueue (by simp [State.pushOrCrash, State.stop])
      | some gs => exact .stopped hlog hqueue (by simp [State.pushOrCrash, State.stop, State.push])

theorem Mute.step (h : Mute E m base L Q u) (hlen : base.length < u.stack.length)
    (hstep : step E cb u = some v) : Mute E m base L Q v := by
  have hrun : u.status = .running := by
    by_contra hne
    rw [Traversal.step, if_pos hne] at hstep
    cases hstep
  obtain ⟨hmem, fs, hstack, hfs, hquiet⟩ := h.quiet hrun
  cases fs with
  | nil =>
    rw [hstack, List.nil_append] at hlen
    exact absurd hlen (lt_irrefl _)
  | cons f fs =>
    have hvisit := hfs f (List.mem_cons_self ..)
    cases f with
    | stmt gen c a x => exact hvisit.elim
    | visit a t x =>
      have hnext : Traversal.visit E cb a t x { u with stack := fs ++ base } = v := by
        rw [Traversal.step, if_neg (by simpa using hrun), hstack] at hstep
        exact Option.some.inj hstep
      rw [← hnext]
      exact .visit h.log h.queue hmem rfl (fun f hf => hfs f (List.mem_cons_of_mem _ hf)) hquiet

theorem Mute.inside (h : Mute E m base L Q u) (hu : Inside E cb base u v) :
    Mute E m base L Q v := by
  induction hu with
  | refl => exact h
  | tail _ hstep ih => exact ih.step hstep.1 hstep.2

theorem inside_cons (hlen : base.length < u.stack.length) (hstep : step E cb u = some v)
    {w : State σ} (h : Inside E cb base v w) : Inside E cb base u w :=
  Relation.ReflTransGen.head ⟨hlen, hstep⟩ h

theorem visitPtr_log (ha : a ≠ 0) (hp : u.world.mem a ≠ none) :
    ∃ e, (visitPtr E cb te a t x u).log = e :: u.log := by
  obtain ⟨p, hp⟩ := Option.ne_none_iff_exists'.mp hp
  simp only [visitPtr, if_neg ha, hp]
  split
  · refine ⟨.ptrMapped a t, ?_⟩
    split <;> rfl
  · refine ⟨.ptr a t, ?_⟩
    rw [quiet_followPtr.1]
    rfl

/-- The state in which `visit(a, t, ..)` works, when it was on top of `fs`. -/
def State.take (u : State σ) (a : Ptr) (t : Typ) (fs : List Frame) : State σ :=
  { u with stack := fs, visits := (a, t) :: u.visits }

variable (E cb) in
theorem step_visit (hrun : u.status = .running) (hstack : u.stack = .visit a t x :: fs ++ base) :
    base.length < u.stack.length ∧
      step E cb u = some (visit E cb a t x { u with stack := fs ++ base }) := by
  rw [hstack]
  refine ⟨by simp only [List.length_append, List.length_cons]; omega, ?_⟩
  rw [step, if_neg (by simpa using hrun), hstack]
  rfl

/-- A loud stack is heard. -/
theorem Loud.heard {room : Prop} (h : Loud E m room fs) (hroom : room → u.queue.count < QUEUESIZE)
    (hrun : u.status = .running) (hmem : u.world.mem = m) (hstack : u.stack = fs ++ base) :
    ∃ v, Inside E cb base u v ∧ ¬ (v.log = u.log ∧ v.queue = u.queue) := by
  induction h generalizing u with
  | @prim a t x fs hk =>
    obtain ⟨hlen, hs⟩ := step_visit E cb hrun hstack
    rw [visit_kind, hk] at hs
    exact ⟨_, inside_cons hlen hs .refl, fun hsame => List.cons_ne_self _ _ hsame.1⟩
  | @struct a t x te fs hk =>
    obtain ⟨hlen, hs⟩ := step_visit E cb hrun hstack
    rw [visit_kind, hk] at hs
    refine ⟨_, inside_cons hlen hs .refl, fun hsame => ?_⟩
    have hlog : (visitStruct cb a t x (u.take a t (fs ++ base))).log = [.struct a t] ++ u.log :=
      visitStruct_calls.1
    exact List.cons_ne_self _ _ (hlog.symm.trans hsame.1)
  | @ptr a t x te fs hk ha hm =>
    obtain ⟨hlen, hs⟩ := step_visit E cb hrun hstack
    rw [visit_kind, hk] at hs
    refine ⟨_, inside_cons hlen hs .refl, fun hsame => ?_⟩
    obtain ⟨e, he⟩ : ∃ e, (visitPtr E cb te a t x (u.take a t (fs ++ base))).log = e :: u.log :=
      visitPtr_log ha (by rwa [← hmem] at hm)
    exact List.cons_ne_self _ _ (he.symm.trans hsame.1)
  | @task a t x te fs hk htasks hr =>
    obtain ⟨hlen, hs⟩ := step_visit E cb hrun hstack
    rw [visit_kind, hk] at hs
    dsimp only at hs
    rw [transformSplitArray_schedule] at hs
    refine ⟨_, inside_cons hlen hs .refl, fun hsame => ?_⟩
    have hlt := count_lt_foldl (s := u.take a t (fs ++ base)) htasks (hroom hr)
    rw [← schedule_queue (E.split a t x).1 (E.split a t x).2] at hlt
    exact absurd (congrArg Ring.count hsame.2) (Nat.ne_of_gt hlt)
  | @system a t x fs hk _ ih =>
    obtain ⟨hlen, hs⟩ := step_visit E cb hrun hstack
    rw [visit_kind, hk] at hs
    obtain ⟨v, hv, hne⟩ := ih (u := u.take a t (fs ++ base)) hroom hrun hmem rfl
    exact ⟨v, inside_cons hlen hs hv, hne⟩
  | @null t x te fs hk _ ih =>
    obtain ⟨hlen, hs⟩ := step_visit E cb hrun hstack
    rw [visit_kind, hk] at hs
    obtain ⟨v, hv, hne⟩ := ih (u := u.take 0 t (fs ++ base)) hroom hrun hmem rfl
    exact ⟨v, inside_cons hlen hs hv, hne⟩
  | @elements a t x te gs fs hk hsplit _ ih =>
    obtain ⟨hlen, hs⟩ := step_visit E cb hrun hstack
    rw [visit_kind, hk] at hs
    dsimp only at hs
    rw [transformSplitArray_schedule, hsplit] at hs
    obtain ⟨v, hv, hne⟩ := ih (u := u.take a t (gs ++ (fs ++ base))) hroom hrun hmem
      (List.append_assoc _ _ _).symm
    exact ⟨v, inside_cons hlen hs hv, hne⟩

end Calls

/-! ## The call on a slot that holds NULL -/

section Slots

variable {σ : Type} {E : Env} {cb : Callbacks σ} {s : State σ} {a x : Ptr} {t : Typ} {te : Entry}

/-- When the visit of a slot has led from `s` to `s'`, and goes on with the NULL of the slot, no
callback is made in that call and no task is queued. -/
def Untraversed (E : Env) (cb : Callbacks σ) (s s' : State σ) : Prop :=
  ∀ t x, s'.stack = .visit 0 t x :: s.stack → ∀ u, Inside E cb s.stack s' u →
    u.log = s'.log ∧ u.queue = s'.queue

/-- `perfaction_ptr`, which returned `r.1` and left `r.2`, asks to go on with a slot that still
holds NULL, at a target type for which this makes a callback or a task. -/
def FollowsNull (E : Env) (te : Entry) (a x : Ptr) (room : Prop) (r : Int × World σ) : Prop :=
  r.1 ≠ 0 ∧ memoizedIsFunptr te = false ∧ r.2.mem a = some 0 ∧
    ∃ q, r.2.mem x = some q ∧ Loud E r.2.mem room [.visit 0 te.targetType q]

theorem untraversed_followPtr {s₀ : State σ} {retc : Int} (hrun : s.status = .running)
    (hstack : s.stack = s₀.stack) :
    Untraversed E cb s₀ (followPtr E te a x retc s) ↔
      ¬ FollowsNull E te a x (s.queue.count < QUEUESIZE) (retc, s.world) := by
  by_cases hgo : retc = 0 ∨ memoizedIsFunptr te = true
  · -- the visit is over
    have hfollow : (followPtr E te a x retc s).stack = s₀.stack := by
      unfold followPtr
      split
      · simp only [if_pos hgo, hstack]
      · exact hstack
    refine iff_of_true (fun t x h => ?_) ?_
    · exact absurd (hfollow.symm.trans h) (List.cons_ne_self _ _).symm
    · rintro ⟨hretc, hfun, -⟩
      rcases hgo with h | h
      · exact hretc h
      · rw [hfun] at h
        cases h
  · have hgo' : retc ≠ 0 ∧ memoizedIsFunptr te = false := by simpa using hgo
    cases hp : s.world.mem a with
    | none =>
      simp only [followPtr, hp]
      refine iff_of_true (fun t x h => ?_) ?_
      · exact absurd (hstack.symm.trans h) (List.cons_ne_self _ _).symm
      · rintro ⟨-, -, hslot, -⟩
        rw [hp] at hslot
        cases hslot
    | some p =>
      cases hq : s.world.mem x with
      | none =>
        simp only [followPtr, hp, hq]
        refine iff_of_true (fun t x h => ?_) ?_
        · exact absurd (hstack.symm.trans h) (List.cons_ne_self _ _).symm
        · rintro ⟨-, -, -, q, hq', -⟩
          rw [hq] at hq'
          cases hq'
      | some q =>
        simp only [followPtr, hp, hq, if_neg hgo]
        constructor
        · rintro h ⟨-, -, hslot, q', hq', hloud⟩
          obtain rfl : p = 0 := Option.some.inj (hp.symm.trans hslot)
          obtain rfl : q = q' := Option.some.inj (hq.symm.trans hq')
          have loud : ∃ v, Inside E cb s₀.stack ({ s with
              mappings := addMapping E.bucket s.mappings 0 q }.push [.visit 0 te.targetType q]) v ∧
              ¬ (v.log = s.log ∧ v.queue = s.queue) :=
            hloud.heard id hrun rfl (congrArg (Frame.visit 0 te.targetType q :: ·) hstack)
          obtain ⟨v, hv, hne⟩ := loud
          exact hne (h _ _ (congrArg (Frame.visit 0 te.targetType q :: ·) hstack) v hv)
        · intro hquiet t y hnext u hu
          have hhead : Frame.visit p te.targetType q = .visit 0 t y := (List.cons.inj hnext).1
          injection hhead with hp0 ht hy
          subst hp0
          have hmute : Mute E s.world.mem s₀.stack s.log s.queue
              ({ s with
                mappings := addMapping E.bucket s.mappings 0 q }.push
                [.visit 0 te.targetType q]) := by
            refine ⟨rfl, rfl, fun _ => ⟨rfl, [.visit 0 te.targetType q], ?_, ?_, fun hl => ?_⟩⟩
            · exact congrArg (Frame.visit 0 te.targetType q :: ·) hstack
            · intro f hf
              obtain rfl := List.mem_singleton.mp hf
              trivial
            · exact hquiet ⟨hgo'.1, hgo'.2, hp, q, hq, hl⟩
          have hend := hmute.inside hu
          exact ⟨hend.log, hend.queue⟩

/-- **NULL is left alone exactly when `perfaction_ptr` does not ask to follow it to something that
is called.** -/
theorem untraversed_iff (hk : E.kind t = .ptr te) (ha : a ≠ 0) (hrun : s.status = .running)
    (hnull : s.world.mem a = some 0) :
    Untraversed E cb s (visit E cb a t x s) ↔
      ¬ FollowsNull E te a x (s.queue.count < QUEUESIZE) (cb.perfactionPtr a t x s.world) := by
  have hvisit : visit E cb a t x s = followPtr E te a x (cb.perfactionPtr a t x s.world).1
      ({ s.take a t s.stack with world := (cb.perfactionPtr a t x s.world).2 }.note
        (.ptr a t)) := by
    rw [visit_kind, hk]
    simp only [visitPtr, if_neg ha, hnull, Mapping.findMapping_null, ne_eq, not_true_eq_false,
      if_false]
    rfl
  rw [hvisit]
  exact untraversed_followPtr hrun rfl

end Slots

/-! ## A root that holds NULL -/

namespace Record

/-- Callbacks that look, and always ask to go on. -/
def looking : Callbacks Unit where
  perfactionPrim _ _ _ w := w
  perfactionStruct _ _ _ w := (1, w)
  perfactionPtr _ _ _ w := (1, w)
  perfactionPtrMapped _ _ lookup w := (lookup, w)

/-- The slot 16, of type `struct record *`, holds NULL. -/
def null : State Unit := initial ⟨fun a => if a = 16 then some 0 else none, ()⟩ []

end Record

open Record in
theorem untraversed_record :
    Untraversed program.toEnv looking null (visit program.toEnv looking 16 19 16 null) ↔
      ¬ FollowsNull program.toEnv (entry 19 .transformPrim 18) 16 16
        (null.queue.count < QUEUESIZE) (looking.perfactionPtr 16 19 16 null.world) :=
  untraversed_iff rfl (by decide) rfl rfl

open Record in
/-- A `perfaction_ptr` that always returns 1 is given the struct at NULL. -/
theorem untraversed_fails :
    (program.kind 19 = .ptr (entry 19 .transformPrim 18) ∧ null.world.mem 16 = some 0) ∧
    ¬ Untraversed program.toEnv looking null (visit program.toEnv looking 16 19 16 null) := by
  refine ⟨⟨rfl, rfl⟩, fun h => ?_⟩
  have hstep : step program.toEnv looking (visit program.toEnv looking 16 19 16 null) =
      some (visit program.toEnv looking 0 18 0
        { visit program.toEnv looking 16 19 16 null with stack := [] }) := rfl
  have hlog := (h 18 0 rfl _ (.single ⟨by decide, hstep⟩)).1
  exact absurd (congrArg List.length hlog) (by decide)

end CStrider.Traversal
