import CStrider.Lib.Linked
import Mathlib.Data.Nat.Bitwise

/-!
# The hash table of `contrib/uthash`

An element carries a handle with the links of two lists: `prev` and `next` are the elements before
and after it in the order in which they were added, `hh_prev` and `hh_next` its neighbours in the
bucket. A handle is named by the element that it is in, so that `ELMT_FROM_HH` and the additions of
`hho` change nothing. A key is what `key` points to with the length `keylen`, so that
`HASH_KEYCMP` is equality; the hash function is a parameter.

`uthash.h` doubles its buckets when one is full, in `HASH_ADD_TO_BKT`; `uthash_xform.h` does it when
the lock of the bucket is returned, up to a bound, and `uthash_nxform.h` never. The first has no
locks, the second has those of the whole table in the handle of its first element, and the third,
which has no macro to delete, in the buckets. The rest is the same in the three files.

Memory has a handle for each allocated element. An operation is `none` where the program reads or
writes what is not allocated or follows NULL, divides by zero, takes a lock that has not been
initialised, or makes more rounds of a loop over elements than the table has items. The numbers of
items are kept without bound, and are read as the `unsigned` that they are (`unsigned`).
-/

namespace CStrider.Uthash

/-- `UT_hash_handle`. -/
structure Handle (α κ : Type) where
  prev : Option α
  next : Option α
  hhPrev : Option α
  hhNext : Option α
  key : κ
  hashv : Nat
  deriving DecidableEq, Repr

/-- `UT_hash_bucket`. -/
structure Bucket (α : Type) where
  hhHead : Option α
  count : Nat
  expandMult : Nat
  deriving DecidableEq, Repr

/-- `UT_hash_table`; `locks` is the element in whose handle `XHASH_MAKE_TABLE` has initialised
`expand_lock` and `link_lock`. -/
structure Table (α : Type) where
  buckets : Nat → Bucket α
  numBuckets : Nat
  log2NumBuckets : Nat
  numItems : Nat
  tail : Option α
  idealChainMaxlen : Nat
  nonidealItems : Nat
  ineffExpands : Nat
  noexpand : Bool
  locks : Option α

/-- The handles of the allocated elements. -/
abbrev Heap (α κ : Type) := α → Option (Handle α κ)

/-- A hash: memory, the variable that the macros call `head`, and `head->hh.tbl`. -/
structure Hash (α κ : Type) where
  hh : Heap α κ
  head : Option α
  tbl : Option (Table α)

/-- `HASH_INITIAL_NUM_BUCKETS` with its logarithm, whether `HASH_ADD_TO_BKT` expands, whether the
locks are in the first handle, and whether there is a macro to delete. -/
structure Config where
  initialNumBuckets : Nat
  initialNumBucketsLog2 : Nat
  size : initialNumBuckets = 2 ^ initialNumBucketsLog2
  small : initialNumBuckets < 2 ^ 31
  expands : Bool
  headLocks : Bool
  deletes : Bool

/-- `uthash.h`. -/
def uthash : Config := ⟨32, 5, rfl, by decide, true, false, true⟩

/-- `uthash_xform.h`. -/
def uthashXform : Config := ⟨1024, 10, rfl, by decide, false, true, true⟩

/-- `uthash_nxform.h`. -/
def uthashNxform : Config := ⟨32768, 15, rfl, by decide, false, false, false⟩

/-- The value of an `unsigned`. -/
def unsigned (n : Nat) : Nat := n % 2 ^ 32

theorem unsigned_of_lt {n : Nat} (h : n < 2 ^ 32) : unsigned n = n := Nat.mod_eq_of_lt h

/-- `HASH_BKT_CAPACITY_THRESH`. -/
def HASH_BKT_CAPACITY_THRESH : Nat := 10

/-- `XHASH_MAX_NUM_BUCKETS`. -/
def XHASH_MAX_NUM_BUCKETS : Nat := 16777216

/-- `HASH_TO_BKT`. -/
def hashToBkt (hashv numBkts : Nat) : Nat := hashv &&& (numBkts - 1)

section Memory

variable {α κ : Type} [DecidableEq α]

namespace Heap

/-- The handle of `a` is written. -/
def assign (hh : Heap α κ) (a : α) (f : Handle α κ → Handle α κ) : Option (Heap α κ) :=
  (hh a).map fun h => Function.update hh a (some (f h))

def setPrev (hh : Heap α κ) (a : α) (v : Option α) : Option (Heap α κ) :=
  hh.assign a fun h => { h with prev := v }

def setNext (hh : Heap α κ) (a : α) (v : Option α) : Option (Heap α κ) :=
  hh.assign a fun h => { h with next := v }

def setHhPrev (hh : Heap α κ) (a : α) (v : Option α) : Option (Heap α κ) :=
  hh.assign a fun h => { h with hhPrev := v }

def setHhNext (hh : Heap α κ) (a : α) (v : Option α) : Option (Heap α κ) :=
  hh.assign a fun h => { h with hhNext := v }

def setKey (hh : Heap α κ) (a : α) (v : κ) : Option (Heap α κ) :=
  hh.assign a fun h => { h with key := v }

def setHashv (hh : Heap α κ) (a : α) (v : Nat) : Option (Heap α κ) :=
  hh.assign a fun h => { h with hashv := v }

/-- `if (o) set(o)`. -/
def onto (hh : Heap α κ) (o : Option α) (set : Heap α κ → α → Option (Heap α κ)) :
    Option (Heap α κ) :=
  match o with
  | none => some hh
  | some a => set hh a

end Heap

/-- `malloc` gives the block `a`, with any contents. -/
def malloc (u : Hash α κ) (a : α) (contents : Handle α κ) : Option (Hash α κ) :=
  match u.hh a with
  | none => some { u with hh := Function.update u.hh a (some contents) }
  | some _ => none

/-- `free`. -/
def free (u : Hash α κ) (a : α) : Option (Hash α κ) :=
  (u.hh a).map fun _ => { u with hh := Function.update u.hh a none }

/-- Before the first `HASH_ADD`, with no element allocated. -/
def empty : Hash α κ := ⟨fun _ => none, none, none⟩

/-! ## Expansion -/

/-- What the loops of `HASH_EXPAND_BUCKETS` change. -/
structure Expansion (α κ : Type) where
  hh : Heap α κ
  newBuckets : Nat → Bucket α
  nonidealItems : Nat

/-- An element goes to its new bucket; `n` is the new number of buckets. -/
def moveToBkt (ideal n : Nat) (a : α) (h : Handle α κ) (s : Expansion α κ) :
    Option (Expansion α κ) := do
  let b := hashToBkt h.hashv n
  let bkt := s.newBuckets b
  let count := bkt.count + 1
  let hh ← s.hh.setHhPrev a none
  let hh ← hh.setHhNext a bkt.hhHead
  let hh ← hh.onto bkt.hhHead fun hh c => hh.setHhPrev c (some a)
  if unsigned count > ideal then
    if ideal = 0 then none
    else
      some ⟨hh, Function.update s.newBuckets b ⟨some a, count, unsigned count / ideal⟩,
        s.nonidealItems + 1⟩
  else
    some ⟨hh, Function.update s.newBuckets b ⟨some a, count, bkt.expandMult⟩, s.nonidealItems⟩

/-- The inner loop of `HASH_EXPAND_BUCKETS`. The next handle is read before the links change. -/
def moveChain (ideal n : Nat) : Nat → Option α → Expansion α κ → Option (Expansion α κ)
  | _, none, s => some s
  | 0, some _, _ => none
  | fuel + 1, some a, s => do
    let h ← s.hh a
    let s ← moveToBkt ideal n a h s
    moveChain ideal n fuel h.hhNext s

/-- The computation of `ideal_chain_maxlen`. -/
def newIdealChainMaxlen (t : Table α) : Nat :=
  (unsigned t.numItems >>> (t.log2NumBuckets + 1)) +
    (if unsigned t.numItems &&& (t.numBuckets * 2 - 1) ≠ 0 then 1 else 0)

/-- `HASH_EXPAND_BUCKETS`. Where twice the number of buckets is no `unsigned`, it allocates no
buckets and stores behind them. -/
def hashExpandBuckets (u : Hash α κ) : Option (Hash α κ) := do
  let t ← u.tbl
  guard (t.numBuckets * 2 < 2 ^ 32)
  let ideal := newIdealChainMaxlen t
  let s ← (List.range t.numBuckets).foldlM
    (fun s i => moveChain ideal (t.numBuckets * 2) t.numItems (t.buckets i).hhHead s)
    ⟨u.hh, fun _ => ⟨none, 0, 0⟩, 0⟩
  let ineffExpands :=
    if unsigned s.nonidealItems > unsigned t.numItems >>> 1 then t.ineffExpands + 1 else 0
  some
    { u with
      hh := s.hh
      tbl := some
        { t with
          buckets := s.newBuckets
          numBuckets := t.numBuckets * 2
          log2NumBuckets := t.log2NumBuckets + 1
          idealChainMaxlen := ideal
          nonidealItems := s.nonidealItems
          ineffExpands
          noexpand := t.noexpand || ineffExpands > 1 } }

/-- The condition for an expansion, after `HASH_ADD_TO_BKT` or at `XHASH_UNLOCK_BUCKET`. -/
def full (t : Table α) (b : Nat) : Bool :=
  unsigned (t.buckets b).count ≥
    unsigned (((t.buckets b).expandMult + 1) * HASH_BKT_CAPACITY_THRESH) && !t.noexpand

/-! ## Adding -/

/-- `HASH_MAKE_TABLE`. -/
def hashMakeTable (c : Config) (a : α) : Table α where
  buckets _ := ⟨none, 0, 0⟩
  numBuckets := c.initialNumBuckets
  log2NumBuckets := c.initialNumBucketsLog2
  numItems := 0
  tail := some a
  idealChainMaxlen := 0
  nonidealItems := 0
  ineffExpands := 0
  noexpand := false
  locks := if c.headLocks then some a else none

/-- `HASH_ADD_TO_BKT`. -/
def hashAddToBkt (c : Config) (u : Hash α κ) (b : Nat) (a : α) : Option (Hash α κ) := do
  let t ← u.tbl
  let bkt := t.buckets b
  let hh ← u.hh.setHhNext a bkt.hhHead
  let hh ← hh.setHhPrev a none
  let hh ← hh.onto bkt.hhHead fun hh d => hh.setHhPrev d (some a)
  let t := { t with
    buckets := Function.update t.buckets b { bkt with hhHead := some a, count := bkt.count + 1 } }
  let u := { u with hh, tbl := some t }
  if c.expands && full t b then hashExpandBuckets u else some u

/-- `pthread_rwlock_wrlock` of a lock of the table, in the handle of `head`. -/
def lockable (c : Config) (head : Option α) (t : Table α) : Bool := !c.headLocks || t.locks = head

/-- The first branches of `HASH_ADD_KEYPTR`: the element is put behind the last one. -/
def linkApp (c : Config) (u : Hash α κ) (a : α) : Option (Hash α κ) :=
  match u.head with
  | none => do
    let hh ← u.hh.setPrev a none
    some ⟨hh, some a, some (hashMakeTable c a)⟩
  | some _ => do
    let t ← u.tbl
    guard (lockable c u.head t)
    let tail ← t.tail
    let hh ← u.hh.setNext tail (some a)
    let hh ← hh.setPrev a (some tail)
    some { u with hh, tbl := some { t with tail := some a } }

section Hashed

variable (c : Config) (hash : κ → Nat)

/-- `HASH_ADD_KEYPTR`. -/
def hashAddKeyptr (u : Hash α κ) (key : κ) (a : α) : Option (Hash α κ) := do
  let hh ← u.hh.setNext a none
  let hh ← hh.setKey a key
  let u ← linkApp c { u with hh } a
  let t ← u.tbl
  let hh ← u.hh.setHashv a (hash key)
  hashAddToBkt c { u with hh, tbl := some { t with numItems := t.numItems + 1 } }
    (hashToBkt (hash key) t.numBuckets) a

/-- The end of `XHASH_UNLOCK_BUCKET`, with the start of `XHASH_EXPAND_BUCKETS`. -/
def xhashUnlock (u : Hash α κ) (key : κ) : Option (Hash α κ) := do
  let t ← u.tbl
  guard (lockable uthashXform u.head t)
  if full t (hashToBkt (hash key) t.numBuckets) && t.numBuckets < XHASH_MAX_NUM_BUCKETS then
    hashExpandBuckets u
  else some u

/-! ## Searching and deleting -/

/-- The loop of `HASH_FIND_IN_BKT`. -/
def findInBkt [DecidableEq κ] (hh : Heap α κ) (key : κ) : Nat → Option α → Option (Option α)
  | _, none => some none
  | 0, some _ => none
  | fuel + 1, some a => do
    let h ← hh a
    if h.key = key then some (some a) else findInBkt hh key fuel h.hhNext

/-- `HASH_FIND`. -/
def hashFind [DecidableEq κ] (u : Hash α κ) (key : κ) : Option (Option α) :=
  match u.head with
  | none => some none
  | some _ => do
    let t ← u.tbl
    findInBkt u.hh key t.numItems (t.buckets (hashToBkt (hash key) t.numBuckets)).hhHead

end Hashed

/-- `HASH_COUNT`. -/
def hashCount (u : Hash α κ) : Option Nat :=
  match u.head with
  | none => some 0
  | some _ => u.tbl.map fun t => unsigned t.numItems

/-- `HASH_DEL_IN_BKT`. -/
def hashDelInBkt (hh : Heap α κ) (bkt : Bucket α) (a : α) : Option (Heap α κ × Bucket α) := do
  let h ← hh a
  let bkt := { bkt with
    count := bkt.count - 1
    hhHead := if bkt.hhHead = some a then h.hhNext else bkt.hhHead }
  let hh ← hh.onto h.hhPrev fun hh d => hh.setHhNext d h.hhNext
  let hh ← hh.onto h.hhNext fun hh d => hh.setHhPrev d h.hhPrev
  some (hh, bkt)

/-- `HASH_DELETE`. -/
def hashDelete (u : Hash α κ) (a : α) : Option (Hash α κ) := do
  let t ← u.tbl
  let h ← u.hh a
  if h.prev = none ∧ h.next = none then
    -- the table and its buckets are freed
    some { u with head := none, tbl := none }
  else
    let tail := if t.tail = some a then h.prev else t.tail
    let hh ← u.hh.onto h.prev fun hh d => hh.setNext d h.next
    let head := if h.prev = none then h.next else u.head
    let hh ← hh.onto h.next fun hh d => hh.setPrev d h.prev
    let b := hashToBkt h.hashv t.numBuckets
    let (hh, bkt) ← hashDelInBkt hh (t.buckets b) a
    some ⟨hh, head, some
      { t with buckets := Function.update t.buckets b bkt, tail, numItems := t.numItems - 1 }⟩

/-! ## Iterating -/

/-- `HASH_ITER` with `HASH_DEL` and `free` in its body, as in `cstrider_visit_free`,
`cstrider_type_free` and `transform_perform_delayedfree`; the next element is read in advance. The
elements that are freed come with the result. -/
def iterFree : Nat → (el tmp : Option α) → Hash α κ → Option (Hash α κ × List α)
  | _, none, _, u => some (u, [])
  | 0, some _, _, _ => none
  | fuel + 1, some el, tmp, u => do
    let u ← hashDelete u el
    let u ← free u el
    let next ← tmp.elim (some none) fun d => (u.hh d).map (·.next)
    let (u, freed) ← iterFree fuel tmp next u
    some (u, el :: freed)

/-- The loop from the start. -/
def hashIterFree (u : Hash α κ) : Option (Hash α κ × List α) :=
  match u.head with
  | none => some (u, [])
  | some a => do
    let t ← u.tbl
    let h ← u.hh a
    iterFree t.numItems (some a) h.next u

/-! ## The integrity check -/

/-- The links in the order of insertion. -/
def appLinks (hh : Heap α κ) : Links α := fun a => (hh a).map fun h => ⟨h.prev, h.next⟩

/-- The links in the bucket. -/
def bktLinks (hh : Heap α κ) : Links α := fun a => (hh a).map fun h => ⟨h.hhPrev, h.hhNext⟩

/-- The two loops of `HASH_FSCK` over links, which count the handles; `none` where the link back is
not the handle before. -/
def fsckLinks (L : Links α) : Nat → (prev thh : Option α) → Option Nat
  | _, _, none => some 0
  | 0, _, some _ => none
  | fuel + 1, prev, some a => do
    let l ← L a
    guard (prev = l.prev)
    let n ← fsckLinks L fuel (some a) l.next
    some (n + 1)

/-- A round of the loop of `HASH_FSCK` over the buckets. -/
def fsckBucket (hh : Heap α κ) (t : Table α) (count i : Nat) : Option Nat := do
  let n ← fsckLinks (bktLinks hh) t.numItems none (t.buckets i).hhHead
  guard (unsigned (t.buckets i).count = unsigned n)
  some (count + n)

/-- `HASH_FSCK`; `none` where it exits with `HASH_OOPS`. -/
def hashFsck (u : Hash α κ) : Option Unit :=
  match u.head with
  | none => some ()
  | some a => do
    let t ← u.tbl
    let count ← (List.range t.numBuckets).foldlM (fsckBucket u.hh t) 0
    guard (unsigned count = unsigned t.numItems)
    let n ← fsckLinks (appLinks u.hh) t.numItems none (some a)
    guard (unsigned n = unsigned t.numItems)

end Memory

end CStrider.Uthash
