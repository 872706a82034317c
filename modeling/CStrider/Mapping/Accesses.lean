import CStrider.Hash.Clients
import CStrider.Mapping.Model

/-!
# Pointer visits, one access at a time

The system of `Mapping.Model` again, with `find_mapping` and `add_mapping` taken apart into the
accesses that they make to the hash of `contrib/uthash/uthash_nxform.h`: `step` reads or writes one
field of a handle, of a bucket or of the table. The lock that a thread holds is that of one bucket;
the links in the order of insertion, `tail` and `num_items` are shared by all buckets, and nothing
keeps two threads from assigning them at once ("without uncommenting link_lock, the following 4
lines will probably not be accurate"). A thread that reads or writes what is not allocated, or
follows NULL, is at `fault`.

`head` (`pxform_mappings_head`) is the entry that `init_parallel_tbls` adds; it is not deleted, and
the table does not expand. So `head`, `head->hh.tbl` and `num_buckets` are read in any step.
-/

namespace CStrider.Mapping.Accesses

open Uthash

/-- The next access of `NXHASH_FIND_IN_BKT`, and of `find_mapping` after it. -/
inductive Search (α : Type) where
  /-- `head.hh_head` -/
  | hhHead
  /-- `out->hh.key` -/
  | key (d : α)
  /-- `out->hh.hh_next` -/
  | hhNext (d : α)
  /-- `entry->addr` -/
  | addr (d : α)
  deriving DecidableEq, Repr

/-- The next access of `add_mapping` to a new entry or to the table, from `new_entry->addr = out` to
the end of `NXHASH_ADD_TO_BKT`; what was read for an assignment goes with it. -/
inductive Insert (α : Type) where
  | addr
  | next
  | key
  | readTail
  /-- `tail->next = (add)` -/
  | tailNext (tail : Option α)
  | readTailAgain
  | prev (tail : Option α)
  | tail
  | readNumItems
  | numItems (n : Nat)
  | hashv
  | readCount
  | count (n : Nat)
  | readHhHead
  | hhNext (o : Option α)
  | hhPrev
  /-- `if (head.hh_head)` -/
  | readHhHeadAgain
  /-- `(head).hh_head->hh_prev = (addhh)` -/
  | headHhPrev (d : α)
  | hhHead
  deriving DecidableEq, Repr

/-- Where a thread is. Inside `find_mapping` and `add_mapping` it is at an access; `a` is the entry
that `malloc` gave. -/
inductive Pc (α : Type) where
  | outside (ph : Phase)
  | find (a x e p : Ptr) (w : Search α)
  | addFind (e key addr : Ptr) (w : Search α)
  | insert (e key addr : Ptr) (a : α) (w : Insert α)
  | fault
  deriving DecidableEq, Repr

/-- The shared state; `log` is not in the program. -/
structure State (α : Type) where
  mem : Ptr → Ptr
  hh : Heap α Ptr
  addr : α → Ptr
  head : α
  tbl : Uthash.Table α
  owner : Nat → Option Nat
  pc : Nat → Pc α
  log : List Event

variable {α : Type} [DecidableEq α]

omit [DecidableEq α] in
def State.goto (s : State α) (i : Nat) (pc : Pc α) : State α :=
  { s with pc := Function.update s.pc i pc }

/-- A label of `Mapping.visits`, and the block that `malloc` would give. -/
structure Label (α : Type) where
  thread : Nat
  choice : Choice
  block : α
  contents : Handle α Ptr

/-- What the threads visit, the hash function, and whether callbacks keep away from the slots of
other pairs. -/
structure Setting where
  pairs : List (Ptr × Ptr)
  hash : Ptr → Nat
  confined : Bool

/-- The bucket of a key. -/
def Setting.bucket (S : Setting) (key : Ptr) : Nat :=
  hashToBkt (S.hash key) uthashNxform.initialNumBuckets

/-- The same for `Mapping.visits`. -/
def Setting.slots (S : Setting) : Slots := ⟨S.pairs, S.bucket, S.confined⟩

section Step

variable (S : Setting)

/-- The bucket in which a key is searched, and the one whose lock is taken. -/
def bkt (s : State α) (key : Ptr) : Nat := hashToBkt (S.hash key) s.tbl.numBuckets

/-- An access of a search for `key`: what is next, or the address that is found; `none` is a
fault. -/
def searchAt (s : State α) (key : Ptr) : Search α → Option (Search α ⊕ Ptr)
  | .hhHead =>
    match (s.tbl.buckets (bkt S s key)).hhHead with
    | none => some (.inr 0)
    | some d => some (.inl (.key d))
  | .key d => (s.hh d).map fun h => if h.key = key then .inl (.addr d) else .inl (.hhNext d)
  | .hhNext d => (s.hh d).map fun h =>
    match h.hhNext with
    | none => .inr 0
    | some d => .inl (.key d)
  | .addr d => (s.hh d).map fun _ => .inr (s.addr d)

/-- The bucket of `key` is assigned. -/
def setBucket (s : State α) (key : Ptr) (f : Bucket α → Bucket α) : State α :=
  let b := bkt S s key
  { s with tbl := { s.tbl with
      buckets := Function.update s.tbl.buckets b (f (s.tbl.buckets b)) } }

/-- Memory after an assignment. -/
def withHandles (s : State α) (hh : Option (Heap α Ptr)) : Option (State α) :=
  hh.map fun hh => { s with hh }

/-- An access of `add_mapping(key, addr)` with the new entry `a`: the state after it, and what is
next, if anything; `none` is a fault. -/
def insertAt (s : State α) (key addr : Ptr) (a : α) :
    Insert α → Option (State α × Option (Insert α))
  | .addr => (s.hh a).map fun _ => ({ s with addr := Function.update s.addr a addr }, some .next)
  | .next => (withHandles s (s.hh.setNext a none)).map (·, some .key)
  | .key => (withHandles s (s.hh.setKey a key)).map (·, some .readTail)
  | .readTail => some (s, some (.tailNext s.tbl.tail))
  | .tailNext tail => tail.bind fun d =>
    (withHandles s (s.hh.setNext d (some a))).map (·, some .readTailAgain)
  | .readTailAgain => some (s, some (.prev s.tbl.tail))
  | .prev tail => (withHandles s (s.hh.setPrev a tail)).map (·, some .tail)
  | .tail => some ({ s with tbl := { s.tbl with tail := some a } }, some .readNumItems)
  | .readNumItems => some (s, some (.numItems s.tbl.numItems))
  | .numItems n => some ({ s with tbl := { s.tbl with numItems := n + 1 } }, some .hashv)
  | .hashv => (withHandles s (s.hh.setHashv a (S.hash key))).map (·, some .readCount)
  | .readCount => some (s, some (.count (s.tbl.buckets (bkt S s key)).count))
  | .count n => some (setBucket S s key fun b => { b with count := n + 1 }, some .readHhHead)
  | .readHhHead => some (s, some (.hhNext (s.tbl.buckets (bkt S s key)).hhHead))
  | .hhNext o => (withHandles s (s.hh.setHhNext a o)).map (·, some .hhPrev)
  | .hhPrev => (withHandles s (s.hh.setHhPrev a none)).map (·, some .readHhHeadAgain)
  | .readHhHeadAgain =>
    match (s.tbl.buckets (bkt S s key)).hhHead with
    | none => some (s, some .hhHead)
    | some d => some (s, some (.headHhPrev d))
  | .headHhPrev d => (withHandles s (s.hh.setHhPrev d (some a))).map (·, some .hhHead)
  | .hhHead => some (setBucket S s key fun b => { b with hhHead := some a }, none)

/-- `transform_map_wrlock`. -/
def wrlock (s : State α) (i : Nat) (e : Ptr) : Option (State α) :=
  if e = 0 then some s
  else match s.owner (bkt S s e) with
    | none => some { s with owner := Function.update s.owner (bkt S s e) (some i) }
    | some _ => none

/-- `transform_map_unlock`. -/
def unlock (s : State α) (e : Ptr) : State α :=
  if e = 0 then s else { s with owner := Function.update s.owner (bkt S s e) none }

/-- The steps outside the table. `find_mapping` reads its argument; `malloc` gives a new block. -/
def outsideAt (l : Label α) (s : State α) : Phase → Option (State α)
  | .idle =>
    match l.choice with
    | .visit a x =>
      if S.pairs.any fun e => e.1 == a && e.2 == x then
        some (s.goto l.thread (.outside (.entered a x)))
      else none
    | _ => none
  | .entered a x =>
    some (s.goto l.thread (.outside (if a = 0 then .idle else .lock a x (s.mem a))))
  | .lock a x e => (wrlock S s l.thread e).map (·.goto l.thread (.outside (.find a x e)))
  | .find a x e =>
    some (s.goto l.thread
      (if s.mem a = 0 then .outside (.call a x e) else .find a x e (s.mem a) .hhHead))
  | .mapped a x e p lookup =>
    if S.slots.mappedOk s.mem (l.choice.apply s.mem) then
      some ({ s with mem := l.choice.apply s.mem }.goto l.thread
        (.outside (.store a x e p lookup)))
    else none
  | .store a x e p lookup =>
    some ({ s with
      mem := Function.update s.mem x lookup
      log := .mapped a x p lookup :: s.log }.goto l.thread (.outside (.unlock e)))
  | .call a x e =>
    if S.slots.ptrOk a x s.mem (l.choice.apply s.mem) then
      some ({ s with
        mem := l.choice.apply s.mem
        log := .ptr a x (s.mem a) (l.choice.apply s.mem x) :: s.log }.goto l.thread
          (.outside (.addArgs a x e)))
    else none
  | .addArgs a x e => some (s.goto l.thread (.outside (.addFind e (s.mem a) (s.mem x))))
  | .addFind e key addr =>
    some (s.goto l.thread
      (if key = 0 then .outside (.unlock e) else .addFind e key addr .hhHead))
  | .addInsert e key addr =>
    match s.hh l.block with
    | none =>
      some ({ s with hh := Function.update s.hh l.block (some l.contents) }.goto l.thread
        (.insert e key addr l.block .addr))
    | some _ => none
  | .unlock e => some ((unlock S s e).goto l.thread (.outside .idle))

def step (l : Label α) (s : State α) : Option (State α) :=
  match s.pc l.thread with
  | .outside ph => outsideAt S l s ph
  | .find a x e p w =>
    match searchAt S s p w with
    | none => some (s.goto l.thread .fault)
    | some (.inl w) => some (s.goto l.thread (.find a x e p w))
    | some (.inr v) =>
      some (s.goto l.thread (.outside (if v ≠ 0 then .mapped a x e p v else .call a x e)))
  | .addFind e key addr w =>
    match searchAt S s key w with
    | none => some (s.goto l.thread .fault)
    | some (.inl w) => some (s.goto l.thread (.addFind e key addr w))
    | some (.inr v) =>
      some (s.goto l.thread (.outside (if v ≠ 0 then .unlock e else .addInsert e key addr)))
  | .insert e key addr a w =>
    match insertAt S s key addr a w with
    | none => some (s.goto l.thread .fault)
    | some (s, some w) => some (s.goto l.thread (.insert e key addr a w))
    | some (s, none) => some (s.goto l.thread (.outside (.unlock e)))
  | .fault => none

/-- After `init` of a parallel session, with memory `m`: the table is what the first call of
`add_mapping` makes of no table. -/
def Initial (m : Ptr → Ptr) (s : State α) : Prop :=
  (∃ a contents, Uthash.addMapping S.hash ⟨empty, fun _ => 0⟩ ⟨seed, seed, a, contents⟩ =
    some ⟨⟨s.hh, some s.head, some s.tbl⟩, s.addr⟩) ∧
  s.mem = m ∧ (∀ b, s.owner b = none) ∧ (∀ i, s.pc i = .outside .idle) ∧ s.log = []

/-- The visits of a parallel session that starts with memory `m`. -/
def accesses (m : Ptr → Ptr) : Sys (State α) (Label α) where
  init := Initial S m
  step := step S

end Step

end CStrider.Mapping.Accesses
