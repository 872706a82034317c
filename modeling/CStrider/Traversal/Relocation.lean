import CStrider.Traversal.Calls
import CStrider.Traversal.InPlace

/-!
# Relocation by `perfaction_ptr`

`perfaction_ptr` may move what a slot points to, and may visit further slots before it returns, so
that it takes one state of the session to another (`visitSlot`). `visit` saves the old pointer, but
for the lock only: what it enters in the mapping table, and what it follows, is what the slot holds
once the callback is back. Where the callback has written to the slot itself, as it does in place,
this is the new pointer.
-/

namespace CStrider.Traversal

open Mapping (Ptr findMapping addMapping findMapping_addMapping)
open TaskQueue (QUEUESIZE)
open CStrider.Types (Typ Entry)

section Slots

variable {σ : Type} (E : Env)

/-- The pointer branch of `visit`, with callbacks that may visit further slots themselves. -/
def visitSlot (perfactionPtr : State σ → Int × State σ)
    (perfactionPtrMapped : (lookup : Ptr) → State σ → Ptr × State σ) (te : Entry) (a x : Ptr)
    (s : State σ) : State σ :=
  if a = 0 then s
  else
    match s.world.mem a with
    | none => s.stop .crashed
    | some p =>
      let lookup := findMapping E.bucket s.mappings p
      if lookup ≠ 0 then
        let r := perfactionPtrMapped lookup s
        if (r.2.world.mem x).isSome then
          { r.2 with
            world := { r.2.world with mem := Function.update r.2.world.mem x (some r.1) } }
        else r.2.stop .crashed
      else
        let r := perfactionPtr s
        followPtr E te a x r.1 r.2

/-- The calls of `cb`, noted in the log. -/
def Callbacks.onPtr (cb : Callbacks σ) (a : Ptr) (t : Typ) (x : Ptr) (s : State σ) :
    Int × State σ :=
  let r := cb.perfactionPtr a t x s.world
  (r.1, { s with world := r.2 }.note (.ptr a t))

def Callbacks.onPtrMapped (cb : Callbacks σ) (a : Ptr) (t : Typ) (lookup : Ptr) (s : State σ) :
    Ptr × State σ :=
  let r := cb.perfactionPtrMapped a t lookup s.world
  (r.1, { s with world := r.2 }.note (.ptrMapped a t))

/-- On a pointer, `visit` is `visitSlot` with callbacks that do not visit. -/
theorem visitPtr_eq_visitSlot (cb : Callbacks σ) (te : Entry) (a : Ptr) (t : Typ) (x : Ptr)
    (s : State σ) :
    visitPtr E cb te a t x s = visitSlot E (cb.onPtr a t x) (cb.onPtrMapped a t) te a x s :=
  rfl

variable {E} {cb : Callbacks σ} {w : World σ} {roots : List Root} {s s' : State σ} {a p q x : Ptr}
  {t : Typ} {te : Entry}

/-! ## The table in later states -/

theorem followPtr_mappings {retc : Int} : (followPtr E te a x retc s).mappings = s.mappings ∨
    ∃ k v, (followPtr E te a x retc s).mappings = addMapping E.bucket s.mappings k v := by
  unfold followPtr
  split
  · next k v _ _ =>
    right
    refine ⟨k, v, ?_⟩
    dsimp only
    split
    · rfl
    · rfl
  · exact .inl rfl

theorem visitPtr_mappings : (visitPtr E cb te a t x s).mappings = s.mappings ∨
    ∃ k v, (visitPtr E cb te a t x s).mappings = addMapping E.bucket s.mappings k v := by
  unfold visitPtr
  split
  · exact .inl rfl
  · split
    · exact .inl rfl
    · dsimp only
      split
      · left
        split <;> rfl
      · exact followPtr_mappings

theorem visit_mappings : (visit E cb a t x s).mappings = s.mappings ∨
    ∃ k v, (visit E cb a t x s).mappings = addMapping E.bucket s.mappings k v := by
  rw [visit_kind]
  cases E.kind t with
  | system => exact .inl rfl
  | prim => exact .inl rfl
  | missing => exact .inl rfl
  | ptr te => exact visitPtr_mappings
  | array te => exact .inl schedules_transformSplitArray.mappings
  | struct te =>
    left
    dsimp only
    unfold visitStruct
    dsimp only
    split
    · exact (schedules_addtoqueue _).mappings
    · rfl

/-- A step enters at most one pointer. -/
theorem step_mappings (h : step E cb s = some s') : s'.mappings = s.mappings ∨
    ∃ k v, s'.mappings = addMapping E.bucket s.mappings k v := by
  unfold step at h
  split at h
  · cases h
  split at h
  · obtain rfl := Option.some.inj h
    exact visit_mappings
  · obtain rfl := Option.some.inj h
    exact .inl schedules_runStmt.mappings
  · split at h
    · obtain rfl := Option.some.inj h
      exact .inl schedules_callxformer.mappings
    · cases h

/-- A pointer that is mapped keeps its new address. -/
theorem findMapping_later (h : (session E cb w roots).Later s s')
    (hp : findMapping E.bucket s.mappings p ≠ 0) :
    findMapping E.bucket s'.mappings p = findMapping E.bucket s.mappings p := by
  induction h with
  | refl => rfl
  | tail _ hstep ih =>
    obtain ⟨_, hstep⟩ := hstep
    rcases step_mappings hstep with hsame | ⟨k, v, hadd⟩
    · rw [hsame, ih]
    · rw [hadd, findMapping_addMapping, if_neg, ih]
      rintro ⟨rfl, -, hfree⟩
      rw [ih] at hfree
      exact hp hfree

/-! ## What is recorded -/

/-- From `s'` on, `p` is mapped to `q`, and the traversal goes on with `p` at type `t`, before what
is in `rest`. -/
structure Relocates (E : Env) (cb : Callbacks σ) (p q : Ptr) (t : Typ) (rest : List Frame)
    (s' : State σ) : Prop where
  mapped : ∀ u, (session E cb s'.world []).Later s' u → findMapping E.bucket u.mappings p = q
  next : s'.stack = .visit p t q :: rest

/-- **A relocation is recorded under the old address exactly when the slot still holds it**, and
when nothing else was recorded for it while the callback ran. -/
theorem relocates_iff {perfactionPtr : State σ → Int × State σ}
    {perfactionPtrMapped : Ptr → State σ → Ptr × State σ}
    (ha : a ≠ 0) (hp : s.world.mem a = some p) (hnull : p ≠ 0)
    (hnew : findMapping E.bucket s.mappings p = 0) (hgo : (perfactionPtr s).1 ≠ 0)
    (hfun : memoizedIsFunptr te = false) (hq : (perfactionPtr s).2.world.mem x = some q)
    (hout : q ≠ 0) :
    Relocates E cb p q te.targetType (perfactionPtr s).2.stack
        (visitSlot E perfactionPtr perfactionPtrMapped te a x s) ↔
      (perfactionPtr s).2.world.mem a = some p ∧
        (findMapping E.bucket (perfactionPtr s).2.mappings p = 0 ∨
          findMapping E.bucket (perfactionPtr s).2.mappings p = q) := by
  have hslot : visitSlot E perfactionPtr perfactionPtrMapped te a x s =
      followPtr E te a x (perfactionPtr s).1 (perfactionPtr s).2 := by
    simp only [visitSlot, if_neg ha, hp, hnew, ne_eq, not_true_eq_false, if_false]
  rw [hslot]
  generalize perfactionPtr s = r at hgo hq ⊢
  unfold followPtr
  rw [hq]
  cases hmem : r.2.world.mem a with
  | none =>
    refine iff_of_false (fun h => ?_) (by simp)
    exact List.cons_ne_self _ _ h.next.symm
  | some p' =>
    simp only [hgo, hfun, Bool.false_eq_true, or_self, if_false]
    constructor
    · rintro ⟨hmapped, hnext⟩
      obtain rfl : p' = p := by
        have hhead := (List.cons.inj hnext).1
        injection hhead
      refine ⟨rfl, ?_⟩
      have hhere := hmapped _ (.refl _)
      rw [State.push, findMapping_addMapping] at hhere
      by_cases hfree : findMapping E.bucket r.2.mappings p' = 0
      · exact .inl hfree
      · rw [if_neg fun h => hfree h.2.2] at hhere
        exact .inr hhere
    · rintro ⟨hsame, hfree⟩
      obtain rfl := Option.some.inj hsame
      have hhere : findMapping E.bucket (addMapping E.bucket r.2.mappings p' q) p' = q := by
        rw [findMapping_addMapping]
        rcases hfree with hfree | hsome
        · rw [if_pos ⟨rfl, hnull, hfree⟩]
        · rw [if_neg fun h => hout (hsome ▸ h.2.2), hsome]
      refine ⟨fun u hu => ?_, rfl⟩
      rw [findMapping_later hu (by rw [State.push, hhere]; exact hout), State.push, hhere]

end Slots

/-! ## A root that is moved -/

namespace Record

/-- `perfaction_ptr` moves what a slot points to to address 40. -/
def moving : Callbacks Unit where
  perfactionPrim _ _ _ w := w
  perfactionStruct _ _ _ w := (1, w)
  perfactionPtr _ _ x w := (1, { w with mem := Function.update w.mem x (some 40) })
  perfactionPtrMapped _ _ l w := (l, w)

def start : State Unit := initial world []

end Record

open Record in
/-- From the slot 16 to the slot 32. -/
theorem relocates_record :
    Relocates program.toEnv moving 24 40 (entry 19 .transformPrim 18).targetType
        (moving.onPtr 16 19 32 start).2.stack
        (visitSlot program.toEnv (moving.onPtr 16 19 32) (moving.onPtrMapped 16 19)
          (entry 19 .transformPrim 18) 16 32 start) ↔
      (moving.onPtr 16 19 32 start).2.world.mem 16 = some 24 ∧
        (findMapping program.bucket (moving.onPtr 16 19 32 start).2.mappings 24 = 0 ∨
          findMapping program.bucket (moving.onPtr 16 19 32 start).2.mappings 24 = 40) := by
  apply relocates_iff
  · decide
  · rfl
  · decide
  · rfl
  · decide
  · rfl
  · rfl
  · decide

open Record in
/-- In place, the slot 16 holds the new address when `perfaction_ptr` is back: the old one is not
mapped, and the traversal goes on at the new one. -/
theorem relocates_fails :
    (program.kind 19 = .ptr (entry 19 .transformPrim 18) ∧ world.mem 16 = some 24 ∧
      findMapping program.bucket start.mappings 24 = 0 ∧
      (moving.perfactionPtr 16 19 16 world).1 ≠ 0 ∧
      (moving.perfactionPtr 16 19 16 world).2.mem 16 = some 40) ∧
    ¬ Relocates program.toEnv moving 24 40 18 [] (visit program.toEnv moving 16 19 16 start) := by
  have slot : visit program.toEnv moving 16 19 16 start =
      visitSlot program.toEnv (moving.onPtr 16 19 16) (moving.onPtrMapped 16 19)
        (entry 19 .transformPrim 18) 16 16 { start with visits := [(16, 19)] } := by
    rw [← visitPtr_eq_visitSlot]
    rfl
  refine ⟨⟨rfl, rfl, rfl, by decide, rfl⟩, fun h => ?_⟩
  rw [slot] at h
  have hnext : [Frame.visit 40 18 40] = [Frame.visit 24 18 40] := h.next
  injection hnext with hhead _
  injection hhead with hp _ _
  exact absurd hp (by decide)

end CStrider.Traversal
