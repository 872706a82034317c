import CStrider.Lib.System
import CStrider.Mapping.Table

/-!
# Pointer visits of a parallel session (`visit` in `src/transform.c`)

Any number of threads call `visit` on pairs of an in-slot and an out-slot. A thread is at a point
of the pointer branch of `visit`; `step` is one atomic action: a read or write of a slot, a search
or an insertion in a chain, a lock operation on a bucket, or a call of one of the two callbacks.
The value of the slot is read again after the lock was taken (`find_mapping(*(void**)in)`) and
once more after the callback (`add_mapping(*(void**)in, ..)`), as the source does. What follows
the visit in the same thread, the recursion into the target included, is the next visit of that
thread.

A callback may write any memory. `perfaction_ptr` is held to leaving all in-slots as they are and
to leaving a non-NULL value in its own out-slot when the slot that it is called for holds one; the
flag `confined` says whether both callbacks also leave every other slot of the session alone.
-/

namespace CStrider.Mapping

/-- The pairs of in-slot and out-slot that are visited, the hash of the bucket locks, and whether
the callbacks keep away from the slots of other pairs. -/
structure Slots where
  pairs : List (Ptr × Ptr)
  bucket : Ptr → Nat
  confined : Bool

/-- Where a thread is in `visit(in, type, out)` on a pointer slot. `e` is `in_elem`, whose bucket
is locked from `find` to `unlock` (unless it is NULL). -/
inductive Phase where
  | idle
  | entered (a x : Ptr)
  | lock (a x e : Ptr)
  | find (a x e : Ptr)
  /-- `p` was mapped to `lookup`: `perfaction_ptr_mapped` is next -/
  | mapped (a x e p lookup : Ptr)
  | store (a x e p lookup : Ptr)
  /-- nothing was found: `perfaction_ptr` is next -/
  | call (a x e : Ptr)
  /-- `add_mapping`: its arguments, its search, its insertion -/
  | addArgs (a x e : Ptr)
  | addFind (e key addr : Ptr)
  | addInsert (e key addr : Ptr)
  | unlock (e : Ptr)
  deriving DecidableEq, Repr

/-- A processed slot: the pair, the value `p` that the in-slot held, and what its out-slot got
from `perfaction_ptr` or from the table. -/
inductive Event where
  | ptr (a x p v : Ptr)
  | mapped (a x p v : Ptr)
  deriving DecidableEq, Repr

namespace Event

def slot : Event → Ptr
  | .ptr a _ _ _ | .mapped a _ _ _ => a

def out : Event → Ptr
  | .ptr _ x _ _ | .mapped _ x _ _ => x

def value : Event → Ptr
  | .ptr _ _ p _ | .mapped _ _ p _ => p

end Event

/-- The shared state; `log` is not in the program. -/
structure State where
  mem : Ptr → Ptr
  table : Table
  owner : Nat → Option Nat
  phase : Nat → Phase
  log : List Event

def State.goto (s : State) (i : Nat) (ph : Phase) : State :=
  { s with phase := Function.update s.phase i ph }

/-- What a label leaves to choose: the slot pair of a new visit, the writes of a callback. -/
inductive Choice where
  | visit (a x : Ptr)
  | writes (ws : List (Ptr × Ptr))
  | none
  deriving Repr

structure Label where
  thread : Nat
  choice : Choice
  deriving Repr

def Choice.apply (m : Ptr → Ptr) : Choice → Ptr → Ptr
  | .writes ws => ws.foldl (fun m w => Function.update m w.1 w.2) m
  | _ => m

/-- What `perfaction_ptr_mapped` may do to the memory `m`. -/
def Slots.mappedOk (S : Slots) (m m' : Ptr → Ptr) : Prop :=
  S.confined = true → ∀ e ∈ S.pairs, m' e.1 = m e.1 ∧ m' e.2 = m e.2

/-- What `perfaction_ptr` on the pair `a`, `x` may do to the memory `m`. -/
def Slots.ptrOk (S : Slots) (a x : Ptr) (m m' : Ptr → Ptr) : Prop :=
  (∀ e ∈ S.pairs, m' e.1 = m e.1) ∧ (m a ≠ 0 → m' x ≠ 0) ∧
    (S.confined = true → ∀ e ∈ S.pairs, e.2 ≠ x → m' e.2 = m e.2)

instance (S : Slots) (m m' : Ptr → Ptr) : Decidable (S.mappedOk m m') :=
  inferInstanceAs (Decidable (_ → ∀ e ∈ S.pairs, _ ∧ _))

instance (S : Slots) (a x : Ptr) (m m' : Ptr → Ptr) : Decidable (S.ptrOk a x m m') :=
  inferInstanceAs (Decidable ((∀ e ∈ S.pairs, _) ∧ (_ → _) ∧ (_ → ∀ e ∈ S.pairs, _ → _)))

section Step

variable (S : Slots)

/-- `transform_map_wrlock`: NULL is not locked, a taken bucket is waited for. -/
def wrlock (s : State) (i : Nat) (e : Ptr) : Option State :=
  if e = 0 then some s
  else match s.owner (S.bucket e) with
    | none => some { s with owner := Function.update s.owner (S.bucket e) (some i) }
    | some _ => none

/-- `transform_map_unlock`. -/
def unlock (s : State) (e : Ptr) : State :=
  if e = 0 then s else { s with owner := Function.update s.owner (S.bucket e) none }

def stepAt (i : Nat) (c : Choice) (s : State) : Phase → Option State
  | .idle =>
    match c with
    | .visit a x => if (a, x) ∈ S.pairs then some (s.goto i (.entered a x)) else none
    | _ => none
  | .entered a x => some (s.goto i (if a = 0 then .idle else .lock a x (s.mem a)))
  | .lock a x e => (wrlock S s i e).map (·.goto i (.find a x e))
  | .find a x e =>
    if findMapping S.bucket s.table (s.mem a) ≠ 0 then
      some (s.goto i (.mapped a x e (s.mem a) (findMapping S.bucket s.table (s.mem a))))
    else some (s.goto i (.call a x e))
  | .mapped a x e p lookup =>
    if S.mappedOk s.mem (c.apply s.mem) then
      some ({ s with mem := c.apply s.mem }.goto i (.store a x e p lookup))
    else none
  | .store a x e p lookup =>
    some ({ s with mem := Function.update s.mem x lookup, log := .mapped a x p lookup :: s.log }.goto
      i (.unlock e))
  | .call a x e =>
    if S.ptrOk a x s.mem (c.apply s.mem) then
      some ({ s with
        mem := c.apply s.mem
        log := .ptr a x (s.mem a) (c.apply s.mem x) :: s.log }.goto i (.addArgs a x e))
    else none
  | .addArgs a x e => some (s.goto i (.addFind e (s.mem a) (s.mem x)))
  | .addFind e key addr =>
    if key = 0 ∨ findMapping S.bucket s.table key ≠ 0 then some (s.goto i (.unlock e))
    else some (s.goto i (.addInsert e key addr))
  | .addInsert e key addr =>
    some ({ s with table := nxhashAdd S.bucket s.table key addr }.goto i (.unlock e))
  | .unlock e => some ((unlock S s e).goto i .idle)

def step (l : Label) (s : State) : Option State :=
  stepAt S l.thread l.choice s (s.phase l.thread)

/-- The state after `init` of a parallel session, with memory `m`. -/
def initial (m : Ptr → Ptr) : State where
  mem := m
  table := seeded S.bucket
  owner := fun _ => none
  phase := fun _ => .idle
  log := []

/-- The visits of a parallel session that starts with memory `m`. -/
def visits (m : Ptr → Ptr) : Sys State Label where
  init s := s = initial S m
  step := step S

end Step

end CStrider.Mapping
