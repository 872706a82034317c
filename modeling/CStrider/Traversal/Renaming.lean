import CStrider.Lib.System
import CStrider.Traversal.InPlace

/-!
# Traversals of heaps that differ in their addresses

Two heaps are the same up to an injective renaming of addresses when slots that hold a pointer hold
the renamed pointer, and places inside an object keep their offsets. A place is an address with its
type and the address of its new version (`Renamed.At`). The sessions on two such heaps, with
callbacks that respect the renaming, go in lockstep: at each point both have the same frames, tasks
and mappings up to the renaming (`Alike`), and so have made the same calls.
-/

namespace CStrider.Traversal

open Mapping (Ptr findMapping addMapping findMapping_addMapping findMapping_empty)
open TaskQueue (QUEUESIZE)
open CStrider.Types (Typ Entry)

/-- An injective renaming of addresses that keeps NULL. -/
structure Renaming where
  addr : Ptr → Ptr
  inj : Function.Injective addr
  null : addr 0 = 0

instance : CoeFun Renaming fun _ => Ptr → Ptr := ⟨Renaming.addr⟩

theorem Renaming.eq_zero (ρ : Renaming) {p : Ptr} : ρ p = 0 ↔ p = 0 := by
  constructor
  · intro h
    exact ρ.inj (h.trans ρ.null.symm)
  · rintro rfl
    exact ρ.null

section Rename

variable (ρ : Renaming)

def Event.rename : Event → Event
  | .prim a t => .prim (ρ a) t
  | .struct a t => .struct (ρ a) t
  | .ptr a t => .ptr (ρ a) t
  | .ptrMapped a t => .ptrMapped (ρ a) t

def Frame.rename : Frame → Frame
  | .visit a t x => .visit (ρ a) t (ρ x)
  | .stmt gen c a x => .stmt gen c (ρ a) (ρ x)

def Task.rename (task : Task) : Task := ⟨ρ task.a, task.t, ρ task.x, task.issplit⟩

def Root.rename (r : Root) : Root := ⟨ρ r.a, r.t, ρ r.x⟩

end Rename

/-! ## Heaps and callbacks that respect a renaming -/

section Renamed

variable {σ τ : Type}

/-- Memory with `*x` set to `l`. -/
def World.store (w : World σ) (x l : Ptr) : World σ :=
  { w with mem := Function.update w.mem x (some l) }

/-- The heaps, which are in step as long as `Same` holds, and the callbacks respect `ρ`. `At` has
the places of the first heap, and `Made` the pairs of an old and a new address that `perfaction_ptr`
leaves there. -/
structure Renamed (E : Env) (ρ : Renaming) (cb : Callbacks σ) (cb' : Callbacks τ)
    (Same : World σ → World τ → Prop) (At : Ptr → Typ → Ptr → Prop) (Made : Ptr → Ptr → Prop) :
    Prop where
  /-- A slot holds the renamed pointer. -/
  slot : ∀ {w w' a t x te}, Same w w' → At a t x → E.kind t = .ptr te → a ≠ 0 →
    w'.mem (ρ a) = (w.mem a).map ρ ∧ w'.mem (ρ x) = (w.mem x).map ρ
  /-- Elements keep their offsets. -/
  elem : ∀ {a t x te szOut i}, At a t x → E.kind t = .array te →
    getOutSize E.types te = some szOut → i < numArrayElems te →
    At (a + i * getSize te) te.arrbase (x + i * szOut) ∧
      ρ (a + i * getSize te) = ρ a + i * getSize te ∧ ρ (x + i * szOut) = ρ x + i * szOut
  /-- Fields keep their offsets, and have the same type: the lengths in it are primitive contents,
  and the type constructors return the same ids. -/
  field : ∀ {w w' a t x te n c}, Same w w' → At a t x → a ≠ 0 → E.kind t = .struct te →
    te.func = .generated n → c ∈ E.body n t →
    ρ (a + c.inOff) = ρ a + c.inOff ∧ ρ (x + c.outOff) = ρ x + c.outOff ∧
      c.type w'.mem (ρ a) = c.type w.mem a ∧
      ∀ u, c.type w.mem a = some u → At (a + c.inOff) u (x + c.outOff)
  prim : ∀ {w w' a t x}, Same w w' → At a t x → E.kind t = .prim →
    Same (cb.perfactionPrim a t x w) (cb'.perfactionPrim (ρ a) t (ρ x) w')
  struct : ∀ {w w' a t x te}, Same w w' → At a t x → E.kind t = .struct te →
    (cb'.perfactionStruct (ρ a) t (ρ x) w').1 = (cb.perfactionStruct a t x w).1 ∧
      Same (cb.perfactionStruct a t x w).2 (cb'.perfactionStruct (ρ a) t (ρ x) w').2
  ptr : ∀ {w w' a t x te}, Same w w' → At a t x → E.kind t = .ptr te → a ≠ 0 →
    (cb'.perfactionPtr (ρ a) t (ρ x) w').1 = (cb.perfactionPtr a t x w).1 ∧
      Same (cb.perfactionPtr a t x w).2 (cb'.perfactionPtr (ρ a) t (ρ x) w').2
  /-- What `perfaction_ptr` leaves in the slots is entered, and is a place if it is followed. -/
  made : ∀ {w w' a t x te p q}, Same w w' → At a t x → E.kind t = .ptr te → a ≠ 0 →
    (cb.perfactionPtr a t x w).2.mem a = some p → (cb.perfactionPtr a t x w).2.mem x = some q →
    Made p q ∧ ((cb.perfactionPtr a t x w).1 ≠ 0 → memoizedIsFunptr te = false →
      At p te.targetType q)
  /-- `perfaction_ptr_mapped`, with what `visit` stores then. -/
  mapped : ∀ {w w' a t x te p l}, Same w w' → At a t x → E.kind t = .ptr te → a ≠ 0 →
    w.mem a = some p → Made p l →
    let r := cb.perfactionPtrMapped a t l w
    let r' := cb'.perfactionPtrMapped (ρ a) t (ρ l) w'
    r'.1 = ρ r.1 ∧ Same r.2 r'.2 ∧ Same (r.2.store x r.1) (r'.2.store (ρ x) (ρ r.1))

/-! ## Sessions in lockstep -/

variable {E : Env} {ρ : Renaming} {cb : Callbacks σ} {cb' : Callbacks τ}
  {Same : World σ → World τ → Prop} {At : Ptr → Typ → Ptr → Prop} {Made : Ptr → Ptr → Prop}

/-- The frame is at a place. -/
def Frame.Placed (E : Env) (At : Ptr → Typ → Ptr → Prop) : Frame → Prop
  | .visit a t x => At a t x
  | .stmt gen c a x => At a gen x ∧ a ≠ 0 ∧
    ∃ te n, E.kind gen = .struct te ∧ te.func = .generated n ∧ c ∈ E.body n gen

/-- The task is for a struct at a place. -/
structure Task.Placed (E : Env) (At : Ptr → Typ → Ptr → Prop) (task : Task) : Prop where
  place : At task.a task.t task.x
  nonNull : task.a ≠ 0
  whole : task.issplit = false
  struct : ∃ te, E.kind task.t = .struct te

/-- Two sessions are at the same point, up to `ρ`. -/
structure Alike (E : Env) (ρ : Renaming) (Same : World σ → World τ → Prop)
    (At : Ptr → Typ → Ptr → Prop) (Made : Ptr → Ptr → Prop) (s : State σ) (s' : State τ) :
    Prop where
  status : s'.status = s.status
  world : Same s.world s'.world
  mappings : ∀ p, findMapping E.bucket s'.mappings (ρ p) = ρ (findMapping E.bucket s.mappings p)
  made : ∀ p, findMapping E.bucket s.mappings p ≠ 0 → Made p (findMapping E.bucket s.mappings p)
  stack : s'.stack = s.stack.map (Frame.rename ρ)
  queue : s'.queue.contents = s.queue.contents.map (Task.rename ρ)
  log : s'.log = s.log.map (Event.rename ρ)
  frames : ∀ f ∈ s.stack, f.Placed E At
  tasks : ∀ task ∈ s.queue.contents, task.Placed E At

variable {s : State σ} {s' : State τ} {a x : Ptr} {t : Typ} {te : Entry}

theorem Alike.stop (h : Alike E ρ Same At Made s s') (st : Status) :
    Alike E ρ Same At Made (s.stop st) (s'.stop st) :=
  { h with status := rfl }

theorem Alike.push (h : Alike E ρ Same At Made s s') (fs : List Frame)
    (hfs : ∀ f ∈ fs, f.Placed E At) :
    Alike E ρ Same At Made (s.push fs) (s'.push (fs.map (Frame.rename ρ))) :=
  { h with
    stack := by
      simp only [State.push, h.stack, List.map_append]
    frames := fun f hf => (List.mem_append.mp hf).elim (hfs f) (h.frames f) }

/-- After a callback. -/
theorem Alike.call (h : Alike E ρ Same At Made s s') {w : World σ} {w' : World τ}
    (hw : Same w w') (e : Event) :
    Alike E ρ Same At Made ({ s with world := w }.note e)
      ({ s' with world := w' }.note (e.rename ρ)) :=
  { h with
    world := hw
    log := by simp only [State.note, h.log, List.map_cons] }

theorem Alike.count_eq (h : Alike E ρ Same At Made s s') : s'.queue.count = s.queue.count := by
  have hlen := congrArg List.length h.queue
  simpa using hlen

theorem Alike.addtoqueue (h : Alike E ρ Same At Made s s') {task : Task}
    (htask : task.Placed E At) :
    Alike E ρ Same At Made (addtoqueue s (some task)) (addtoqueue s' (some (task.rename ρ))) := by
  by_cases hroom : s.queue.count < QUEUESIZE
  · rw [addtoqueue_push hroom, addtoqueue_push (h.count_eq ▸ hroom)]
    exact
      { h with
        queue := by
          rw [Ring.contents_push, Ring.contents_push, h.queue, List.map_append]
          rfl
        tasks := by
          intro task' hmem
          rw [Ring.contents_push, List.mem_append, List.mem_singleton] at hmem
          rcases hmem with hmem | rfl
          · exact h.tasks task' hmem
          · exact htask }
  · rw [addtoqueue_some, addtoqueue_some, dif_neg hroom, dif_neg (h.count_eq ▸ hroom)]
    exact h.stop _

theorem Alike.transformArray (h : Alike E ρ Same At Made s s')
    (hren : Renamed E ρ cb cb' Same At Made) (hat : At a t x) (hk : E.kind t = .array te) :
    Alike E ρ Same At Made (transformArray E a t x s) (transformArray E (ρ a) t (ρ x) s') := by
  unfold Traversal.transformArray
  rw [Env.find_of_kind (.inr (.inl hk))]
  dsimp only
  cases hout : getOutSize E.types te with
  | none => exact h.stop _
  | some szOut =>
    have hframes : ((List.range (numArrayElems te)).map fun i =>
        Frame.visit (ρ a + i * getSize te) te.arrbase (ρ x + i * szOut)) =
        ((List.range (numArrayElems te)).map fun i =>
          Frame.visit (a + i * getSize te) te.arrbase (x + i * szOut)).map (Frame.rename ρ) := by
      rw [List.map_map]
      apply List.map_congr_left
      intro i hi
      obtain ⟨-, hin, hx⟩ := hren.elem hat hk hout (List.mem_range.mp hi)
      simp only [Function.comp_apply, Frame.rename, hin, hx]
    dsimp only
    rw [hframes]
    apply h.push
    intro f hf
    obtain ⟨i, hi, rfl⟩ := List.mem_map.mp hf
    exact (hren.elem hat hk hout (List.mem_range.mp hi)).1

theorem Alike.visitStruct (h : Alike E ρ Same At Made s s')
    (hren : Renamed E ρ cb cb' Same At Made) (hat : At a t x) (hk : E.kind t = .struct te) :
    Alike E ρ Same At Made (visitStruct cb a t x s) (visitStruct cb' (ρ a) t (ρ x) s') := by
  obtain ⟨hret, hsame⟩ := hren.struct h.world hat hk
  unfold Traversal.visitStruct
  simp only [hret]
  have hcall := h.call hsame (.struct a t)
  split
  · by_cases ha : a = 0
    · rw [transformMakeEnq, transformMakeEnq, if_pos ha, if_pos (ρ.eq_zero.mpr ha)]
      exact hcall
    · have ha' : ρ a ≠ 0 := fun h0 => ha (ρ.eq_zero.mp h0)
      simp only [transformMakeEnq, if_neg ha, if_neg ha']
      exact hcall.addtoqueue ⟨hat, ha, rfl, te, hk⟩
  · exact hcall

theorem Alike.followPtr (h : Alike E ρ Same At Made s s') {retc : Int}
    (hin : s'.world.mem (ρ a) = (s.world.mem a).map ρ)
    (hout : s'.world.mem (ρ x) = (s.world.mem x).map ρ)
    (hmade : ∀ p q, s.world.mem a = some p → s.world.mem x = some q →
      Made p q ∧ (retc ≠ 0 → memoizedIsFunptr te = false → At p te.targetType q)) :
    Alike E ρ Same At Made (followPtr E te a x retc s) (followPtr E te (ρ a) (ρ x) retc s') := by
  unfold Traversal.followPtr
  rw [hin, hout]
  cases hp : s.world.mem a with
  | none => exact h.stop _
  | some p =>
    cases hq : s.world.mem x with
    | none => exact h.stop _
    | some q =>
      obtain ⟨hpq, hplace⟩ := hmade p q hp hq
      have hadd : Alike E ρ Same At Made { s with mappings := addMapping E.bucket s.mappings p q }
          { s' with mappings := addMapping E.bucket s'.mappings (ρ p) (ρ q) } :=
        { h with
          mappings := by
            intro k
            simp only [findMapping_addMapping, h.mappings, ρ.inj.eq_iff, ne_eq, ρ.eq_zero]
            split
            · rfl
            · rfl
          made := by
            intro k
            simp only [findMapping_addMapping]
            split
            · next hkey =>
              intro _
              rw [hkey.1]
              exact hpq
            · exact h.made k }
      dsimp only [Option.map_some]
      split
      · exact hadd
      · next hgo =>
        apply hadd.push [.visit p te.targetType q]
        intro f hf
        obtain rfl := List.mem_singleton.mp hf
        exact hplace (fun h0 => hgo (.inl h0)) (by simpa using fun h1 => hgo (.inr h1))

theorem Alike.visitPtr (h : Alike E ρ Same At Made s s')
    (hren : Renamed E ρ cb cb' Same At Made) (hat : At a t x) (hk : E.kind t = .ptr te) :
    Alike E ρ Same At Made (visitPtr E cb te a t x s) (visitPtr E cb' te (ρ a) t (ρ x) s') := by
  unfold Traversal.visitPtr
  by_cases ha : a = 0
  · rw [if_pos ha, if_pos (ρ.eq_zero.mpr ha)]
    exact h
  · rw [if_neg ha, if_neg fun h0 => ha (ρ.eq_zero.mp h0), (hren.slot h.world hat hk ha).1]
    cases hp : s.world.mem a with
    | none => exact h.stop _
    | some p =>
      simp only [Option.map_some, h.mappings, ne_eq, ρ.eq_zero]
      by_cases hnew : findMapping E.bucket s.mappings p = 0
      · obtain ⟨hret, hsame⟩ := hren.ptr h.world hat hk ha
        obtain ⟨hin, hout⟩ := hren.slot hsame hat hk ha
        simp only [hnew, not_true_eq_false, if_false, hret]
        apply (h.call hsame (.ptr a t)).followPtr hin hout
        intro p' q hp' hq
        exact hren.made h.world hat hk ha hp' hq
      · obtain ⟨hlookup, hsame, hstore⟩ := hren.mapped h.world hat hk ha hp (h.made p hnew)
        have hout := (hren.slot hsame hat hk ha).2
        have hcall := h.call hsame (.ptrMapped a t)
        simp only [hnew, not_false_eq_true, if_true, hout, Option.isSome_map]
        split
        · rw [hlookup]
          exact { hcall with world := hstore }
        · exact hcall.stop _

variable (E cb cb') in
theorem Alike.visit (h : Alike E ρ Same At Made s s')
    (hren : Renamed E ρ cb cb' Same At Made) (hseq : E.parallel = false) (hat : At a t x) :
    Alike E ρ Same At Made (visit E cb a t x s) (visit E cb' (ρ a) t (ρ x) s') := by
  have hnext : Alike E ρ Same At Made { s with visits := (a, t) :: s.visits }
      { s' with visits := (ρ a, t) :: s'.visits } := { h with }
  rw [visit_kind, visit_kind]
  cases hk : E.kind t with
  | system => exact hnext
  | prim => exact hnext.call (hren.prim h.world hat hk) (.prim a t)
  | missing => exact hnext.stop _
  | ptr te => exact hnext.visitPtr hren hat hk
  | array te =>
    dsimp only
    rw [Program.transformSplitArray_sequential hseq, Program.transformSplitArray_sequential hseq]
    exact hnext.transformArray hren hat hk
  | struct te => exact hnext.visitStruct hren hat hk

theorem Alike.runStmt (h : Alike E ρ Same At Made s s') (hren : Renamed E ρ cb cb' Same At Made)
    {gen : Typ} {c : FieldVisit} (hc : (Frame.stmt gen c a x).Placed E At) :
    Alike E ρ Same At Made (runStmt c a x s) (runStmt c (ρ a) (ρ x) s') := by
  obtain ⟨hat, ha, te, n, hk, hfunc, hmem⟩ := hc
  obtain ⟨hin, hout, htype, hplace⟩ := hren.field h.world hat ha hk hfunc hmem
  unfold Traversal.runStmt
  rw [htype]
  cases hu : c.type s.world.mem a with
  | none => exact h.stop _
  | some u =>
    have hpush := h.push [.visit (a + c.inOff) u (x + c.outOff)] (by
      intro f hf
      obtain rfl := List.mem_singleton.mp hf
      exact hplace u hu)
    simpa only [List.map_cons, List.map_nil, Frame.rename, hin, hout] using hpush

theorem Alike.callxformer (h : Alike E ρ Same At Made s s') {task : Task}
    (htask : task.Placed E At) :
    Alike E ρ Same At Made (callxformer E task s) (callxformer E (task.rename ρ) s') := by
  obtain ⟨te, hk⟩ := htask.struct
  unfold Traversal.callxformer
  simp only [Task.rename, Env.find_of_kind (.inr (.inr hk)), htask.whole, Bool.false_eq_true,
    if_false]
  have hself : ∀ f ∈ [Frame.visit task.a task.t task.x], f.Placed E At := by
    intro f hf
    obtain rfl := List.mem_singleton.mp hf
    exact htask.place
  cases hfunc : te.func with
  | transformPrim => exact h.push _ hself
  | transformFptr => exact h.push _ hself
  | generated n =>
    have hpush := h.push ((E.body n task.t).map fun c => .stmt task.t c task.a task.x) (by
      intro f hf
      obtain ⟨c, hc, rfl⟩ := List.mem_map.mp hf
      exact ⟨htask.place, htask.nonNull, te, n, hk, hfunc, hc⟩)
    rw [List.map_map] at hpush
    exact hpush

/-- **One step.** -/
theorem alike_step (hren : Renamed E ρ cb cb' Same At Made) (hseq : E.parallel = false)
    (h : Alike E ρ Same At Made s s') :
    Option.Rel (Alike E ρ Same At Made) (step E cb s) (step E cb' s') := by
  by_cases hrun : s.status = .running
  · have hrun' : s'.status = .running := h.status.trans hrun
    rw [step, step, if_neg (not_not.mpr hrun), if_neg (not_not.mpr hrun')]
    have hstack := h.stack
    cases hs : s.stack with
    | nil =>
      rw [hs, List.map_nil] at hstack
      simp only [hstack]
      by_cases hcount : 0 < s.queue.count
      · have hcount' : 0 < s'.queue.count := h.count_eq ▸ hcount
        rw [dif_pos hcount, dif_pos hcount']
        have hqueue := h.queue
        rw [Ring.contents_pop _ hcount, Ring.contents_pop _ hcount', List.map_cons,
          List.cons.injEq] at hqueue
        have hrest : Alike E ρ Same At Made { s with queue := s.queue.pop hcount, stack := [] }
            { s' with queue := s'.queue.pop hcount', stack := [] } :=
          { h with
            stack := rfl
            frames := fun f hf => absurd hf List.not_mem_nil
            queue := hqueue.2
            tasks := fun task htask => h.tasks task (by
              rw [Ring.contents_pop _ hcount]
              exact List.mem_cons_of_mem _ htask) }
        have hhead : s.queue.head.Placed E At := h.tasks _ (by
          rw [Ring.contents_pop _ hcount]
          exact List.mem_cons_self)
        rw [hqueue.1]
        exact .some (hrest.callxformer hhead)
      · rw [dif_neg hcount, dif_neg (h.count_eq ▸ hcount)]
        exact .none
    | cons f fs =>
      rw [hs, List.map_cons] at hstack
      have hplaced := h.frames f (by rw [hs]; exact List.mem_cons_self)
      have hrest : Alike E ρ Same At Made { s with stack := fs }
          { s' with stack := fs.map (Frame.rename ρ) } :=
        { h with
          stack := rfl
          frames := fun f' hf' => h.frames f' (by rw [hs]; exact List.mem_cons_of_mem _ hf') }
      cases f with
      | visit a t x =>
        rw [Frame.rename] at hstack
        simp only [hstack]
        exact .some (hrest.visit E cb cb' hren hseq hplaced)
      | stmt gen c a x =>
        rw [Frame.rename] at hstack
        simp only [hstack]
        exact .some (hrest.runStmt hren hplaced)
  · have hrun' : s'.status ≠ .running := fun h' => hrun (h.status.symm.trans h')
    rw [step, step, if_pos hrun, if_pos hrun']
    exact .none

theorem alike_initial {w : World σ} {w' : World τ} {roots : List Root} (hw : Same w w')
    (hroots : ∀ r ∈ roots, At r.a r.t r.x) :
    Alike E ρ Same At Made (initial w roots) (initial w' (roots.map (Root.rename ρ))) where
  status := rfl
  world := hw
  mappings p := by
    simp only [initial, findMapping_empty, ρ.null]
  made p h := absurd findMapping_empty h
  stack := by
    simp only [initial, List.map_map]
    rfl
  queue := by
    simp only [initial, Ring.contents_empty, List.map_nil]
  log := rfl
  frames f hf := by
    obtain ⟨r, hr, rfl⟩ := List.mem_map.mp hf
    exact hroots r hr
  tasks task htask := by
    simp only [initial, Ring.contents_empty, List.not_mem_nil] at htask

/-- **The order of the traversal does not depend on the addresses.** After any number of steps the
sessions have made the same calls, up to the renaming, or both have come to their end before. -/
theorem same_calls (hren : Renamed E ρ cb cb' Same At Made) (hseq : E.parallel = false)
    {w : World σ} {w' : World τ} {roots : List Root} (hw : Same w w')
    (hroots : ∀ r ∈ roots, At r.a r.t r.x) (n : Nat) :
    Option.Rel (fun s s' => s'.log = s.log.map (Event.rename ρ) ∧ s'.status = s.status)
      ((session E cb w roots).run (List.replicate n ()) (initial w roots))
      ((session E cb' w' (roots.map (Root.rename ρ))).run (List.replicate n ())
        (initial w' (roots.map (Root.rename ρ)))) := by
  have hlock : Sys.Lockstep (session E cb w roots) (session E cb' w' (roots.map (Root.rename ρ)))
      (Alike E ρ Same At Made) := fun s s' h => alike_step hren hseq h
  have hrun := hlock.run (alike_initial hw hroots) n
  generalize (session E cb w roots).run _ _ = o at hrun ⊢
  generalize (session E cb' w' _).run _ _ = o' at hrun ⊢
  cases hrun with
  | none => exact .none
  | some h => exact .some ⟨h.log, h.status⟩

end Renamed

/-! ## A record that is somewhere else -/

namespace Record

/-- All objects are moved up by 100. -/
def shift : Renaming where
  addr p := if p = 0 then 0 else p + 100
  inj := by
    intro p q h
    dsimp only at h
    grind
  null := rfl

/-- The heap after the move. -/
def shifted (a : Ptr) : Option Ptr := if a = 108 ∨ a = 116 then some 124 else none

/-- Memory is as it was. -/
def Unchanged (w w' : World Unit) : Prop := w.mem = heap ∧ w'.mem = shifted

def InPlace (a : Ptr) (t : Typ) (x : Ptr) : Prop := (a, t) ∈ locations ∧ x = a

variable {x p : Ptr} {w w' : World Unit} {te : Entry}

theorem heap_eq_some : heap a = some p ↔ (a = 8 ∨ a = 16) ∧ p = 24 := by
  unfold heap
  split
  · next h => simp [h, eq_comm]
  · next h => simp [h]

theorem slot_shifted (hat : InPlace a t x) (hk : program.kind t = .ptr te) :
    shifted (shift a) = (heap a).map shift := by
  rcases kind_cases (.inl hk) with ⟨rfl, hk'⟩ | ⟨ht, -, -, -⟩
  · cases hk.symm.trans hk'
  · have hmem := hat.1
    simp only [locations, List.mem_cons, Prod.mk.injEq, List.not_mem_nil, or_false] at hmem
    rcases hmem with ⟨rfl, -⟩ | ⟨rfl, -⟩ | ⟨-, rfl⟩ | ⟨-, rfl⟩
    · rfl
    · rfl
    · exact absurd ht (by decide)
    · exact absurd ht (by decide)

theorem shifted_shift (h : heap a = some p) : shifted (shift a) = some (shift p) := by
  obtain ⟨rfl | rfl, rfl⟩ := heap_eq_some.mp h
  · rfl
  · rfl

/-- A store of what the slot holds. -/
theorem store_self (h : w.mem a = some p) : (w.store a p).mem = w.mem :=
  Function.update_eq_self_iff.mpr h.symm

theorem renamed : Renamed program.toEnv shift copying copying Unchanged InPlace (· = ·) where
  slot := by
    rintro w w' a t x te ⟨hw, hw'⟩ ⟨hmem, rfl⟩ hk -
    rw [hw, hw']
    exact ⟨slot_shifted ⟨hmem, rfl⟩ hk, slot_shifted ⟨hmem, rfl⟩ hk⟩
  elem := by
    intro a t x te szOut i _ hk _ _
    rcases kind_cases (.inr (.inl hk)) with ⟨rfl, hk'⟩ | ⟨-, hk', -⟩ <;> cases hk.symm.trans hk'
  field := by
    rintro w w' a t x te n c - ⟨hmem, rfl⟩ - hk - hc
    obtain rfl := List.mem_singleton.mp hc
    refine ⟨rfl, rfl, rfl, fun u hu => ?_⟩
    obtain rfl : 0 = u := Option.some.inj hu
    rcases kind_cases (.inr (.inr hk)) with ⟨rfl, -⟩ | ⟨-, hk', -⟩
    · obtain rfl : x = 24 := by simpa [locations] using hmem
      exact ⟨by decide, rfl⟩
    · cases hk.symm.trans hk'
  prim := fun hw _ _ => hw
  struct := fun hw _ _ => ⟨rfl, hw⟩
  ptr := by
    rintro w w' a t x te ⟨hw, hw'⟩ ⟨hmem, rfl⟩ hk -
    refine ⟨?_, (keepsHeap_copying.ptr _ _ _).trans hw, (keepsHeap_copying.ptr _ _ _).trans hw'⟩
    have hslot := slot_shifted ⟨hmem, rfl⟩ hk
    simp only [copying, hw, hw', hslot]
    cases heap x with
    | none => rfl
    | some p => simp only [Option.map_some, shift.eq_zero]
  made := by
    rintro w w' a t x te p q ⟨hw, -⟩ ⟨hmem, rfl⟩ hk - hp hq
    rw [keepsHeap_copying.ptr, hw] at hp hq
    obtain rfl : p = q := Option.some.inj (hp.symm.trans hq)
    obtain ⟨-, rfl⟩ := heap_eq_some.mp hp
    refine ⟨rfl, fun _ _ => ⟨?_, rfl⟩⟩
    rcases kind_cases (.inl hk) with ⟨rfl, hk'⟩ | ⟨rfl | rfl, -, -, htarget⟩
    · cases hk.symm.trans hk'
    · rw [htarget]
      decide
    · rw [htarget]
      decide
  mapped := by
    rintro w w' a t x te p l ⟨hw, hw'⟩ ⟨-, rfl⟩ - - hp rfl
    have hp' : w'.mem (shift x) = some (shift p) := by
      rw [hw']
      exact shifted_shift (hw ▸ hp)
    exact ⟨rfl, ⟨hw, hw'⟩, (store_self hp).trans hw, (store_self hp').trans hw'⟩

end Record

open Record in
theorem same_calls_record :
    Option.Rel (fun s s' => s'.log = s.log.map (Event.rename shift) ∧ s'.status = s.status)
      ((session program.toEnv copying world [⟨8, 20, 8⟩, ⟨16, 19, 16⟩]).run
        (List.replicate 6 ()) (initial world [⟨8, 20, 8⟩, ⟨16, 19, 16⟩]))
      ((session program.toEnv copying ⟨shifted, ()⟩
          ([⟨8, 20, 8⟩, ⟨16, 19, 16⟩].map (Root.rename shift))).run (List.replicate 6 ())
        (initial ⟨shifted, ()⟩ ([⟨8, 20, 8⟩, ⟨16, 19, 16⟩].map (Root.rename shift)))) := by
  apply same_calls renamed rfl
  · exact ⟨rfl, rfl⟩
  · intro r hr
    simp only [List.mem_cons, List.not_mem_nil, or_false] at hr
    rcases hr with rfl | rfl
    · exact ⟨by decide, rfl⟩
    · exact ⟨by decide, rfl⟩

end CStrider.Traversal
