import CStrider.Lib.Worklist
import CStrider.Traversal.Model

/-!
# What a traversal is for: the typed locations below its roots

A location is an address with a type. `Env.succ` says what a visit, a statement of a generated
function or a task leads to when memory is `m` and the callback answers `go`, and `Env.key` what
the mapping table remembers: the value of a non-NULL pointer, whatever the type of its slot. This
is a worklist traversal that follows a key once; the machine refines it (`step_refines`) as long as
the callbacks leave the in-slots alone and map no pointer to NULL (`Conforms`).
-/

namespace CStrider.Traversal

open Mapping (Ptr Table findMapping addMapping)
open TaskQueue (QUEUESIZE)
open CStrider.Types (Typ Entry TypeTable Func TYPE_FUNPTR)

/-! ## Types as `visit` tells them apart -/

/-- The branches of `visit`. -/
inductive Kind where
  /-- type `-1` -/
  | system
  | prim
  /-- no entry in the type table -/
  | missing
  | ptr (te : Entry)
  | array (te : Entry)
  | struct (te : Entry)

namespace Env

variable (E : Env)

def kind (t : Typ) : Kind :=
  if t = -1 then .system
  else if cstriderIsPrim t then .prim
  else
    match E.types.find t with
    | none => .missing
    | some te =>
      if memoizedIsPtr te then .ptr te
      else if memoizedIsArray te then .array te
      else .struct te

variable {E} {t : Typ} {te : Entry}

theorem find_of_kind
    (h : E.kind t = .ptr te ∨ E.kind t = .array te ∨ E.kind t = .struct te) :
    E.types.find t = some te := by
  unfold kind at h
  split at h
  · simp at h
  · split at h
    · simp at h
    · split at h
      · simp at h
      · next te' hfind =>
        split at h
        · obtain rfl : te' = te := by simpa using h
          exact hfind
        · split at h
          · obtain rfl : te' = te := by simpa using h
            exact hfind
          · obtain rfl : te' = te := by simpa using h
            exact hfind

theorem isArray_of_kind (h : E.kind t = .array te) : memoizedIsArray te = true := by
  unfold kind at h
  split at h
  · cases h
  · split at h
    · cases h
    · split at h
      · cases h
      · split at h
        · cases h
        · split at h
          · next harr =>
            cases h
            exact harr
          · cases h

end Env

section Visit

variable {σ : Type}

theorem addtoqueue_some (s : State σ) (t : Task) : addtoqueue s (some t) =
    if h : s.queue.count < QUEUESIZE then { s with queue := s.queue.push t h }
    else s.stop .overflow :=
  rfl

theorem addtoqueue_push {s : State σ} {t : Task} (h : s.queue.count < QUEUESIZE) :
    addtoqueue s (some t) = { s with queue := s.queue.push t h } :=
  dif_pos h

variable (E : Env) (cb : Callbacks σ)

/-- `visit` by the kind of its type. -/
theorem visit_kind (a : Ptr) (t : Typ) (x : Ptr) (s : State σ) :
    visit E cb a t x s =
      let s := { s with visits := (a, t) :: s.visits }
      match E.kind t with
      | .system => s
      | .prim => { s with world := cb.perfactionPrim a t x s.world }.note (.prim a t)
      | .missing => s.stop .crashed
      | .ptr te => visitPtr E cb te a t x s
      | .array _ => transformSplitArray E a t x s
      | .struct _ => visitStruct cb a t x s := by
  unfold visit Env.kind
  by_cases h1 : t = -1
  · simp only [if_pos h1]
  · simp only [if_neg h1]
    by_cases hprim : cstriderIsPrim t = true
    · simp only [if_pos hprim]
    · simp only [if_neg hprim]
      cases E.types.find t with
      | none => rfl
      | some te =>
        by_cases hptr : memoizedIsPtr te = true
        · simp only [if_pos hptr]
        · by_cases harr : memoizedIsArray te = true
          · simp only [if_neg hptr, if_pos harr]
          · simp only [if_neg hptr, if_neg harr]

end Visit

/-- What the generator emits for a C program, traversed in sequential mode. Elements and fields are
nested by value to some depth. -/
structure Program extends Env where
  sequential : parallel = false
  depth : Typ → Nat
  depth_elem : ∀ {t te}, toEnv.kind t = .array te → depth te.arrbase < depth t
  depth_field : ∀ {t te n c m a u}, toEnv.kind t = .struct te → te.func = .generated n →
    c ∈ body n t → c.type m a = some u → depth u < depth t

/-! ## The worklist -/

inductive Node where
  | visit (a : Ptr) (t : Typ)
  | stmt (gen : Typ) (c : FieldVisit) (a : Ptr)
  | task (a : Ptr) (t : Typ)

def Frame.node : Frame → Node
  | .visit a t _ => .visit a t
  | .stmt gen c a _ => .stmt gen c a

def Task.node (t : Task) : Node := .task t.a t.t

/-- The location, where the node is a visit. -/
def Node.visited : Node → Option (Ptr × Typ)
  | .visit a t => some (a, t)
  | _ => none

namespace Env

variable (E : Env) (m : Ptr → Option Ptr)

/-- The visits of the elements of an array at `a`. -/
def elems (te : Entry) (a : Ptr) : List Node :=
  (List.range (numArrayElems te)).map fun i => .visit (a + i * getSize te) te.arrbase

/-- What a node leads to, if the callback that it calls answers `go`. -/
def succ (go : Bool) : Node → Multiset Node
  | .visit a t =>
    match E.kind t with
    | .ptr te =>
      if a = 0 ∨ go = false ∨ memoizedIsFunptr te then 0
      else match m a with
        | some p => {.visit p te.targetType}
        | none => 0
    | .array te => elems te a
    | .struct _ => if a = 0 ∨ go = false then 0 else {.task a t}
    | _ => 0
  | .stmt _ c a =>
    match c.type m a with
    | some t => {.visit (a + c.inOff) t}
    | none => 0
  | .task a t =>
    match E.kind t with
    | .struct te =>
      match te.func with
      | .generated n => ((E.body n t).map fun c => Node.stmt t c a : List Node)
      | _ => {.visit a t}
    | _ => 0

/-- The pointer value for which a visit is only followed once. -/
def key : Node → Option Ptr
  | .visit a t =>
    match E.kind t with
    | .ptr _ => if a = 0 then none else (m a).filter (· ≠ 0)
    | _ => none
  | _ => none

/-- Statements are from the generated function of a struct, tasks are for structs. -/
def Valid : Node → Prop
  | .visit _ _ => True
  | .stmt gen c _ => ∃ te n, E.kind gen = .struct te ∧ te.func = .generated n ∧ c ∈ E.body n gen
  | .task _ t => ∃ te, E.kind t = .struct te

/-- The traversals of `heap`, where nodes are taken in memories that `now` allows and the callbacks
answer a visit as `ans` allows. -/
def worklist (heap : Ptr → Option Ptr) (now : (Ptr → Option Ptr) → Node → Prop)
    (ans : Ptr → Typ → Bool → Prop) : Worklist Node Ptr where
  next n l := E.Valid n ∧ ∃ m go, now m n ∧ (∀ a t, n = .visit a t → ans a t go) ∧
    l = E.succ m go n
  key := E.key heap

end Env

/-- What the next action takes. -/
def State.nextNode {σ : Type} (s : State σ) : Option Node :=
  match s.stack with
  | f :: _ => some f.node
  | [] => if 0 < s.queue.count then some s.queue.head.node else none

/-- In the memories of `now`, the in-slots that can be read are slots of `heap`, `perfaction_ptr`
does not change the in-slot, nor does it leave NULL in the out-slot of a pointer that is not NULL,
and the callbacks answer as `ans` allows. -/
structure Conforms {σ : Type} (E : Env) (cb : Callbacks σ) (heap : Ptr → Option Ptr)
    (now : (Ptr → Option Ptr) → Node → Prop) (ans : Ptr → Typ → Bool → Prop) : Prop where
  reads : ∀ {m a t te p}, now m (.visit a t) → E.kind t = .ptr te → m a = some p → heap a = some p
  ptr_in : ∀ {a t x w te}, now w.mem (.visit a t) → E.kind t = .ptr te →
    (cb.perfactionPtr a t x w).2.mem a = w.mem a
  ptr_out : ∀ {a t x w te p}, now w.mem (.visit a t) → E.kind t = .ptr te → w.mem a = some p →
    p ≠ 0 → (cb.perfactionPtr a t x w).2.mem x ≠ some 0
  any : ∀ a t, ∃ go, ans a t go
  ptr : ∀ {a t x w te p}, now w.mem (.visit a t) → E.kind t = .ptr te → w.mem a = some p →
    ans a t (decide ((cb.perfactionPtr a t x w).1 ≠ 0))
  struct : ∀ {a t x w te}, E.kind t = .struct te →
    ans a t (decide ((cb.perfactionStruct a t x w).1 ≠ 0))

end CStrider.Traversal
