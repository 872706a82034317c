import CStrider.Lib.System
import CStrider.Mapping.Table
import CStrider.TaskQueue.Model
import CStrider.Types.Table

/-!
# Sequential traversals (`visit_all` to `finish` of `src/transform.c`)

The calls of `visit` that are still to be made are on a stack, innermost first: `visit` follows a
pointer at once, loops over the elements of an array (in parallel mode it puts parts of a long one
on the queue), and puts a struct on the queue. A generated function that a task runs is a list of
`visit` calls on the fields. When the stack is empty `processqueue` takes the next task.

The type table is the one that holds all types of the traversal, those included that the
generated functions construct on the way. Memory is what the slots of the traversal hold; an
address that is not mapped cannot be read. A callback may change memory, and state of its own.
-/

namespace CStrider.Traversal

open Mapping (Ptr Table findMapping addMapping)
open TaskQueue (QUEUESIZE queuesize_pos)
open CStrider.Types (Typ Entry TypeTable Func TYPE_FUNPTR)

/-! ## Type predicates -/

/-- `cstrider_is_prim`: the eighteen built-in types but `TYPE_FUNPTR`, and the system types, which
are all defined as `-1`. -/
def cstriderIsPrim (t : Typ) : Bool := t = -1 ∨ 0 ≤ t ∧ t < 18 ∧ t ≠ TYPE_FUNPTR

/-- `memoized_is_array`. -/
def memoizedIsArray (te : Entry) : Bool := te.arrlen ≠ 0

/-- `memoized_is_ptr`. -/
def memoizedIsPtr (te : Entry) : Bool :=
  (te.targetType ≠ -1 ∨ te.type = TYPE_FUNPTR ∨ te.func = .transformFptr) ∧ te.arrlen = 0

/-- `memoized_is_funptr`. -/
def memoizedIsFunptr (te : Entry) : Bool := te.type = 16 ∨ te.func = .transformFptr

/-- The conversion to `size_t`. -/
def toSizeT (z : Int) : Nat := (z % 2 ^ 64).toNat

/-- The conversion of a `size_t` to `int`. -/
def toInt (n : Nat) : Int := (n : Int).bmod (2 ^ 32)

/-- `(size_t)cstrider_get_num_array_elems`. -/
def numArrayElems (te : Entry) : Nat := toSizeT te.arrlen

/-- `(size_t)cstrider_get_size`. -/
def getSize (te : Entry) : Nat := toSizeT te.size

/-- `(size_t)cstrider_get_out_size`; `none` where it exits because there is no out type. -/
def getOutSize (tt : TypeTable) (te : Entry) : Option Nat :=
  if te.outType ≠ -1 then (tt.find te.outType).map getSize else some (getSize te)

/-! ## Programs and callbacks -/

/-- A statement `visit(&(*local_in).f, type, &(*local_out).g)` of a generated function. The type
may read a length at `local_in`, and is `none` where that address is not mapped. -/
structure FieldVisit where
  inOff : Nat
  outOff : Nat
  type : (Ptr → Option Ptr) → Ptr → Option Typ

/-- What a traversal finds: the type table and the ids that `mktyparr` returns, the generated
functions with their parameter `gen`, the hash of the mapping table, and the mode. -/
structure Env where
  types : TypeTable
  mktyparr : (arrlen : Int) → Typ → Typ
  body : Nat → Typ → List FieldVisit
  bucket : Ptr → Nat
  parallel : Bool

/-- What callbacks can change. -/
structure World (σ : Type) where
  mem : Ptr → Option Ptr
  own : σ

/-- `struct traversal`, with the arguments `in`, `t`, `out`; a callback that is given the address
of a slot of `visit` returns its new value. -/
structure Callbacks (σ : Type) where
  perfactionPrim : Ptr → Typ → Ptr → World σ → World σ
  perfactionStruct : Ptr → Typ → Ptr → World σ → Int × World σ
  perfactionPtr : Ptr → Typ → Ptr → World σ → Int × World σ
  perfactionPtrMapped : Ptr → Typ → (lookup : Ptr) → World σ → Ptr × World σ

/-! ## States -/

/-- What is left to do on the stack: `visit(a, t, x)`, or a statement of a generated function that
was entered with `local_in = a`, `local_out = x` and `gen`. -/
inductive Frame where
  | visit (a : Ptr) (t : Typ) (x : Ptr)
  | stmt (gen : Typ) (c : FieldVisit) (a x : Ptr)

/-- `task`. -/
structure Task where
  a : Ptr
  t : Typ
  x : Ptr
  issplit : Bool
  deriving DecidableEq, Repr

inductive Status where
  | running
  /-- the `assert(0)` of `enqueue` -/
  | overflow
  /-- a read of an address that is not mapped, or through the NULL of a failed search; `exit` -/
  | crashed
  deriving DecidableEq, Repr

/-- The callbacks that were called, with `in` and `t`. -/
inductive Event where
  | prim (a : Ptr) (t : Typ)
  | struct (a : Ptr) (t : Typ)
  | ptr (a : Ptr) (t : Typ)
  | ptrMapped (a : Ptr) (t : Typ)
  deriving DecidableEq, Repr

/-- `visits` and `log` are not in the program: the `in` and `t` of the `visit` calls and the
callbacks so far, newest first. -/
structure State (σ : Type) where
  world : World σ
  mappings : Table
  queue : Ring QUEUESIZE Task
  stack : List Frame
  status : Status
  visits : List (Ptr × Typ)
  log : List Event

namespace State

variable {σ : Type}

def push (s : State σ) (fs : List Frame) : State σ := { s with stack := fs ++ s.stack }

def stop (s : State σ) (st : Status) : State σ := { s with status := st }

def note (s : State σ) (e : Event) : State σ := { s with log := e :: s.log }

end State

section Step

variable {σ : Type} (E : Env) (cb : Callbacks σ)

/-- `transform_make_enq`. -/
def transformMakeEnq (a : Ptr) (t : Typ) (x : Ptr) (issplit : Bool) : Option Task :=
  if a = 0 then none else some ⟨a, t, x, issplit⟩

/-- `addtoqueue`, with the `enqueue` of a single queue (in parallel mode, the one that is
chosen). -/
def addtoqueue (s : State σ) : Option Task → State σ
  | none => s
  | some t => if h : s.queue.count < QUEUESIZE then { s with queue := s.queue.push t h }
    else s.stop .overflow

/-- `transform_array`. -/
def transformArray (a : Ptr) (t : Typ) (x : Ptr) (s : State σ) : State σ :=
  match E.types.find t with
  | none => s.stop .crashed
  | some te =>
    match getOutSize E.types te with
    | none => s.stop .crashed
    | some szOut =>
      s.push ((List.range (numArrayElems te)).map fun i =>
        .visit (a + i * getSize te) te.arrbase (x + i * szOut))

/-- `SPLIT`. -/
def SPLIT : Nat := 4

/-- `sz*i*share`. -/
def shareOffset (sz i : Nat) (share : Int) : Nat := toSizeT (sz * i * share)

/-- `transform_split_array`. The `remainder` of the last round is what three shares leave. -/
def transformSplitArray (a : Ptr) (t : Typ) (x : Ptr) (s : State σ) : State σ :=
  if !E.parallel then transformArray E a t x s
  else
    match E.types.find t with
    | none => s.stop .crashed
    | some te =>
      let count := numArrayElems te
      if count < SPLIT then transformArray E a t x s
      else
        match getOutSize E.types te with
        | none => s.stop .crashed
        | some szOut =>
          let share := toInt (count / SPLIT)
          let remainder := toInt count - (SPLIT - 1 : Nat) * share
          let splittype := E.mktyparr share te.arrbase
          let s := (List.range (SPLIT - 1)).foldl (fun s i =>
            addtoqueue s (transformMakeEnq (a + shareOffset (getSize te) i share) splittype
              (x + shareOffset szOut i share) true)) s
          transformArray E (a + shareOffset (getSize te) (SPLIT - 1) share)
            (E.mktyparr remainder te.arrbase) (x + shareOffset szOut (SPLIT - 1) share) s

/-- The end of the pointer branch of `visit`, when `perfaction_ptr` returned `retc`. -/
def followPtr (te : Entry) (a x : Ptr) (retc : Int) (s : State σ) : State σ :=
  match s.world.mem a, s.world.mem x with
  | some p, some q =>
    let s := { s with mappings := addMapping E.bucket s.mappings p q }
    if retc = 0 ∨ memoizedIsFunptr te then s else s.push [.visit p te.targetType q]
  | _, _ => s.stop .crashed

/-- The pointer branch of `visit`. -/
def visitPtr (te : Entry) (a : Ptr) (t : Typ) (x : Ptr) (s : State σ) : State σ :=
  if a = 0 then s
  else
    match s.world.mem a with
    | none => s.stop .crashed
    | some p =>
      let lookup := findMapping E.bucket s.mappings p
      if lookup ≠ 0 then
        let r := cb.perfactionPtrMapped a t lookup s.world
        let s := { s with world := r.2 }.note (.ptrMapped a t)
        if (r.2.mem x).isSome then
          { s with world := { r.2 with mem := Function.update r.2.mem x (some r.1) } }
        else s.stop .crashed
      else
        let r := cb.perfactionPtr a t x s.world
        followPtr E te a x r.1 ({ s with world := r.2 }.note (.ptr a t))

/-- The last branch of `visit`. -/
def visitStruct (a : Ptr) (t : Typ) (x : Ptr) (s : State σ) : State σ :=
  let r := cb.perfactionStruct a t x s.world
  let s := { s with world := r.2 }.note (.struct a t)
  if r.1 ≠ 0 then addtoqueue s (transformMakeEnq a t x false) else s

/-- `visit(in, type, out)`; what it calls recursively goes on the stack. -/
def visit (a : Ptr) (t : Typ) (x : Ptr) (s : State σ) : State σ :=
  let s := { s with visits := (a, t) :: s.visits }
  if t = -1 then s
  else if cstriderIsPrim t then
    { s with world := cb.perfactionPrim a t x s.world }.note (.prim a t)
  else
    match E.types.find t with
    | none => s.stop .crashed
    | some te =>
      if memoizedIsPtr te then visitPtr E cb te a t x s
      else if memoizedIsArray te then transformSplitArray E a t x s
      else visitStruct cb a t x s

/-- `callxformer`. -/
def callxformer (t : Task) (s : State σ) : State σ :=
  match E.types.find t.t with
  | none => s.stop .crashed
  | some te =>
    if t.issplit then transformArray E t.a t.t t.x s
    else
      match te.func with
      | .transformPrim | .transformFptr => s.push [.visit t.a t.t t.x]
      | .generated n => s.push ((E.body n t.t).map fun c => .stmt t.t c t.a t.x)

/-- A statement of a generated function. -/
def runStmt (c : FieldVisit) (a x : Ptr) (s : State σ) : State σ :=
  match c.type s.world.mem a with
  | none => s.stop .crashed
  | some t => s.push [.visit (a + c.inOff) t (x + c.outOff)]

/-- The next action: the innermost thing on the stack, else `dequeue`. -/
def step (s : State σ) : Option (State σ) :=
  if s.status ≠ .running then none
  else
    match s.stack with
    | .visit a t x :: fs => some (visit E cb a t x { s with stack := fs })
    | .stmt _ c a x :: fs => some (runStmt c a x { s with stack := fs })
    | [] =>
      if h : 0 < s.queue.count then
        some (callxformer E s.queue.head { s with queue := s.queue.pop h })
      else none

/-- A root of `visit_all`: one of a generated function, from the old to the new symbol, or a
registered one, in place. -/
structure Root where
  a : Ptr
  t : Typ
  x : Ptr

/-- The state in which `visit_all` finds a sequential session: the roots are visited in their
order. -/
def initial (w : World σ) (roots : List Root) : State σ where
  world := w
  mappings := fun _ => []
  queue := Ring.empty queuesize_pos fun _ => ⟨0, 0, 0, false⟩
  stack := roots.map fun r => .visit r.a r.t r.x
  status := .running
  visits := []
  log := []

/-- A sequential session on memory `w`. -/
def session (w : World σ) (roots : List Root) : Sys (State σ) Unit where
  init s := s = initial w roots
  step _ := step E cb

end Step

/-- `finish` has left the loop of `processqueue`. -/
def State.Finished {σ : Type} (s : State σ) : Prop :=
  s.status = .running ∧ s.stack = [] ∧ s.queue.count = 0

/-- There are only finitely many calls of `visit`. -/
def FinitelyManyVisits {σ : Type} (S : Sys (State σ) Unit) : Prop :=
  ∃ N, ∀ s, S.Reach s → s.visits.length ≤ N

end CStrider.Traversal
