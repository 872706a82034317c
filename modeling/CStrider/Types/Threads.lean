import CStrider.Types.Constructors

/-!
# Type constructors in several threads (`src/cstrider_api.c`, `contrib/uthash/uthash_xform.h`)

Any number of threads call `mktypptr`, `mktyparr` and `mktypfromgenargs`. The table has a read-write
lock for expansions, which every constructor holds for reading, and a lock for each bucket; from the
1025th bucket on, buckets share their locks. A constructor locks the bucket of one type (`lockKey`)
and enters its new type in the bucket of another, its id.

A thread is in several calls at once, innermost first: `mktypfromgenargs` calls itself with its
locks held. `step` is one atomic action of the innermost call: a lock operation, a search, an
insertion or an expansion. A request for a bucket lock that the thread holds already fails and the
call goes on, with the one lock for both. There is no step where the source leaves the defined: where
it releases a lock that it does not hold, or follows a null pointer. There is none after `exit`
either.

The two hash functions are parameters.
-/

namespace CStrider.Types.Threads

/-- `XHASH_MAX_NUM_MUTEX`. -/
def maxNumMutex : Nat := 1024

/-- `XHASH_MAX_NUM_BUCKETS`. -/
def maxNumBuckets : Nat := 16777216

/-- `XHASH_BKT_CAPACITY_THRESH`. -/
def bktCapacityThresh : Nat := 10

/-- The hash of the constructors (`SuperFastHash`), with what is in the padding of the hashed
struct, and the hash of the table (`XHASH_FCN`). -/
structure Hashes where
  key : (pad : Int) → Request → Typ
  hashv : Typ → Nat

/-- `XUT_hash_table`; the counts of its buckets are those of `entries`. -/
structure HashTable where
  entries : TypeTable
  numItems : Nat
  numBuckets : Nat
  expandMult : Nat → Nat
  ineffExpands : Nat
  noexpand : Bool

/-! ## The table -/

section Table

variable (H : Hashes) (T : HashTable)

/-- The bucket of a key. -/
def HashTable.bucket (t : Typ) : Nat := H.hashv t % T.numBuckets

/-- The lock of a bucket: `buckets[i].bucket_mutex = buckets[i %
XHASH_MAX_NUM_MUTEX].bucket_mutex`. -/
def HashTable.mutex (t : Typ) : Nat := T.bucket H t % maxNumMutex

def HashTable.count (b : Nat) : Nat := T.entries.countP fun e => T.bucket H e.type = b

/-- The test of `XHASH_UNLOCK_BUCKET` on bucket `b`, with the one that `XHASH_EXPAND_BUCKETS` begins
with. -/
def HashTable.due (b : Nat) : Bool :=
  (T.expandMult b + 1) * bktCapacityThresh ≤ T.count H b ∧ ¬ T.noexpand ∧
    T.numBuckets < maxNumBuckets

/-- `XHASH_EXPAND_BUCKETS`. -/
def HashTable.expandBuckets : HashTable :=
  let n := T.numBuckets * 2
  let idealChainMaxlen := T.numItems / n + if T.numItems % n = 0 then 0 else 1
  let count b := T.entries.countP fun e => H.hashv e.type % n = b
  let nonidealItems := (List.range n).foldl (fun sum b => sum + (count b - idealChainMaxlen)) 0
  let ineffExpands := if T.numItems / 2 < nonidealItems then T.ineffExpands + 1 else 0
  { entries := T.entries.expand
    numItems := T.numItems
    numBuckets := n
    expandMult b := if idealChainMaxlen < count b then count b / idealChainMaxlen else 0
    ineffExpands
    noexpand := T.noexpand || 1 < ineffExpands }

end Table

/-! ## Calls -/

/-- The type whose bucket the constructor locks, for a request with the given id. -/
def lockKey (id : Typ) : Request → Typ
  | .ptr _ => id
  | .arr _ t => t
  | .gen t _ _ => t

/-- The test of the entry that was found under the id. -/
def accepts (te : Entry) : Request → Bool
  | .ptr t => te.targetType = t
  | .arr n t => te.arrlen = n ∧ te.arrbase = t
  | .gen _ k a => te.numGenArgs = k ∧ te.args = a

/-- The new entry of `mktypptr`. -/
def ptrEntry (id t : Typ) : Entry where
  type := id
  arrlen := 0
  arrbase := 0
  size := 8
  func := .transformPrim
  targetType := t
  pointerTo := 0
  numGenArgs := 0
  args := 0
  maintype := id
  outType := id

/-- The new entry of `mktyparr`, for the base entry `te`. -/
def arrEntry (id : Typ) (n : Int) (t : Typ) (te : Entry) : Entry :=
  { te with type := id, arrlen := n, arrbase := t }

/-- The new entry of `mktypfromgenargs`, for the base entry `te`. -/
def genEntry (id t : Typ) (k : Int) (a : Nat) (te : Entry) (target : Typ) : Entry :=
  { te with
    type := id, outType := te.type, targetType := target, numGenArgs := k, args := a
    maintype := t }

/-- Where a call is. `found` is the entry that its search found, and `none` after its insertion. -/
inductive Point where
  | rdlockExpand
  | wrlockBucket
  | search
  | unlockBucket (found : Option Entry)
  | unlockExpand (bkt : Nat) (found : Option Entry)
  | test (bkt : Nat) (found : Option Entry)
  | wrlockExpand (found : Option Entry)
  | expand (found : Option Entry)
  | compare (te : Entry)
  /-- the search for the base type; `fell` after a search that found another type's entry -/
  | base (fell : Bool)
  /-- in the nested call for the target of the base type `te` -/
  | call (te : Entry)
  | wrlockLink (new : Entry)
  | link (new : Entry)
  | addToBkt (new : Entry)
  | setPointer

/-- A call: what was requested, the hash of the request, and where it is. -/
structure Frame where
  request : Request
  id : Typ
  point : Point

def Frame.lockKey (f : Frame) : Typ := Threads.lockKey f.id f.request

/-- Who holds the bucket locks, the expansion lock for reading (a thread as often as it does) and
for writing, and the lock of the list of all entries. -/
structure Locks where
  owner : Nat → Option Nat
  readers : List Nat
  writer : Option Nat
  linkOwner : Option Nat

def Locks.setOwner (k : Locks) (m : Nat) (o : Option Nat) : Locks :=
  { k with owner := Function.update k.owner m o }

def Locks.setReaders (k : Locks) (rs : List Nat) : Locks := { k with readers := rs }

def Locks.setWriter (k : Locks) (o : Option Nat) : Locks := { k with writer := o }

def Locks.setLink (k : Locks) (o : Option Nat) : Locks := { k with linkOwner := o }

structure State where
  table : HashTable
  locks : Locks
  calls : Nat → List Frame

def State.set (s : State) (i : Nat) (calls : List Frame) : State :=
  { s with calls := Function.update s.calls i calls }

@[simp] theorem State.set_self (s : State) (i : Nat) (calls : List Frame) :
    (s.set i calls).calls i = calls := by
  simp only [set, Function.update_self]

theorem State.set_of_ne (s : State) {i j : Nat} (h : j ≠ i) (calls : List Frame) :
    (s.set i calls).calls j = s.calls j := by
  simp only [set, Function.update_of_ne h]

/-- A thread moves; it starts the call `request` where it is in none, with `pad` in the padding, as
in the calls that `mktypfromgenargs` makes. -/
structure Label where
  thread : Nat
  request : Request
  pad : Int

section Step

variable (H : Hashes)

/-- The calls of a thread after its innermost call `f` returned its id. -/
def ret (f : Frame) : List Frame → List Frame
  | [] => []
  | g :: fs =>
    match g.point, g.request with
    | .call te, .gen t k a =>
      { g with point := .wrlockLink (genEntry g.id t k a te f.id) } :: fs
    | _, _ => g :: fs

/-- After `XHASH_UNLOCK_RESV`. -/
def resume (f : Frame) (fs : List Frame) : Option Entry → List Frame
  | some te => { f with point := .compare te } :: fs
  | none => ret f fs

/-- Where a call goes on that has to make a new type. -/
def build (id : Typ) (fell : Bool) : Request → Point
  | .ptr t => .wrlockLink (ptrEntry id t)
  | .arr .. | .gen .. => .base fell

/-- What a call does with its base entry `te`, whose fields are read at once. -/
def derive (pad : Int) (f : Frame) (fs : List Frame) (te : Entry) : List Frame :=
  match f.request with
  | .ptr t => { f with point := .wrlockLink (ptrEntry f.id t) } :: fs
  | .arr n t => { f with point := .wrlockLink (arrEntry f.id n t te) } :: fs
  | .gen t k a =>
    if te.targetType = -1 then
      { f with point := .wrlockLink (genEntry f.id t k a te (-1)) } :: fs
    else
      let nested := Request.gen te.targetType k a
      ⟨nested, H.key pad nested, .rdlockExpand⟩ :: { f with point := .call te } :: fs

/-- The next action of the innermost call `f` of a thread. -/
def advance (l : Label) (s : State) (f : Frame) (fs : List Frame) : Option State :=
  let i := l.thread
  let k := s.locks
  let goto (k : Locks) (p : Point) := { s with locks := k }.set i ({ f with point := p } :: fs)
  match f.point with
  | .rdlockExpand =>
    if k.writer = none then some (goto (k.setReaders (i :: k.readers)) .wrlockBucket) else none
  | .wrlockBucket =>
    let m := s.table.mutex H f.lockKey
    if k.owner m = none then some (goto (k.setOwner m (some i)) .search)
    -- `EDEADLK`, which `XHASH_WRLOCK_BUCKET` does not look at
    else if k.owner m = some i then some (goto k .search)
    else none
  | .search =>
    match s.table.entries.find f.id with
    | some te => some (goto k (.unlockBucket (some te)))
    | none => some (goto k (build f.id false f.request))
  | .unlockBucket found =>
    let m := s.table.mutex H f.lockKey
    if k.owner m = some i then
      some (goto (k.setOwner m none) (.unlockExpand (s.table.bucket H f.lockKey) found))
    else none
  | .unlockExpand bkt found =>
    if i ∈ k.readers then some (goto (k.setReaders (k.readers.erase i)) (.test bkt found)) else none
  | .test bkt found =>
    if s.table.due H bkt then some (goto k (.wrlockExpand found))
    else some (s.set i (resume f fs found))
  | .wrlockExpand found =>
    if k.writer = none ∧ k.readers = [] then some (goto (k.setWriter (some i)) (.expand found))
    else none
  | .expand found =>
    some ({ s with table := s.table.expandBuckets H, locks := k.setWriter none }.set i
      (resume f fs found))
  | .compare te =>
    if accepts te f.request then some (s.set i (ret f fs))
    else some (goto k (build f.id true f.request))
  | .base _ => (s.table.entries.find f.lockKey).map fun te => s.set i (derive H l.pad f fs te)
  | .call _ => none
  | .wrlockLink new =>
    if k.linkOwner = none then some (goto (k.setLink (some i)) (.link new)) else none
  | .link new =>
    some ({ s with
      table := { s.table with numItems := s.table.numItems + 1 }, locks := k.setLink none }.set i
        ({ f with point := .addToBkt new } :: fs))
  | .addToBkt new =>
    let p := match f.request with
      | .ptr _ => .setPointer
      | .arr .. | .gen .. => .unlockBucket none
    some ({ s with table := { s.table with entries := s.table.entries.add new } }.set i
      ({ f with point := p } :: fs))
  | .setPointer =>
    match f.request with
    | .ptr t =>
      if (s.table.entries.find t).isSome then
        some ({ s with
          table := { s.table with entries := s.table.entries.setPointerTo t f.id } }.set i
            ({ f with point := .unlockBucket none } :: fs))
      else none
    | .arr .. | .gen .. => none

def step (l : Label) (s : State) : Option State :=
  match s.calls l.thread with
  | [] => some (s.set l.thread [⟨l.request, H.key l.pad l.request, .rdlockExpand⟩])
  | f :: fs => advance H l s f fs

/-- Any type table, with no thread in a constructor: every number of buckets that expansions lead
to, and any fill levels. -/
structure Initial (s : State) : Prop where
  numItems : s.table.numItems = s.table.entries.length
  numBuckets : ∃ k, s.table.numBuckets = maxNumMutex * 2 ^ k
  locks : s.locks = ⟨fun _ => none, [], none, none⟩
  calls : ∀ i, s.calls i = []

/-- Constructors on a type table, in any number of threads. -/
def constructors : Sys State Label where
  init := Initial
  step := step H

end Step

end CStrider.Types.Threads
