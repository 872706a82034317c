import Mathlib.Algebra.Group.Int.Defs

/-!
# SuperFastHash (`src/cstrider_api.c`)

The type constructors use a 32-bit hash of their arguments as the id of the type they return. The
arguments are hashed as they lie in memory: a `typ` alone, or a local struct byte by byte, with
the bytes between its fields.
-/

namespace CStrider.Types

/-- `typ`, a `long`. -/
abbrev Typ := Int

/-- The `n` bytes of an integer, the lowest first, in two's complement. -/
def bytes (n : Nat) (v : Int) : List UInt8 :=
  (List.range n).map fun j => UInt8.ofNat ((v / 256 ^ j) % 256).toNat

/-- `get16bits`. -/
def get16bits (d : List UInt8) : UInt32 :=
  ((d.getD 1 0).toUInt32 <<< 8) + (d.getD 0 0).toUInt32

/-- A byte read through a `signed char *` and promoted. -/
def signedChar (b : UInt8) : UInt32 :=
  if b < 128 then b.toUInt32 else b.toUInt32 + 0xFFFFFF00

/-- The main loop: `len` times four bytes. -/
def hashLoop : Nat → List UInt8 → UInt32 → UInt32 × List UInt8
  | 0, data, hash => (hash, data)
  | len + 1, data, hash =>
    let hash := hash + get16bits data
    let tmp := (get16bits (data.drop 2) <<< 11) ^^^ hash
    let hash := (hash <<< 16) ^^^ tmp
    hashLoop len (data.drop 4) (hash + (hash >>> 11))

/-- The end cases, for the `rem` bytes that are left. -/
def hashEnd (rem : Nat) (data : List UInt8) (hash : UInt32) : UInt32 :=
  match rem with
  | 3 =>
    let hash := hash + get16bits data
    let hash := hash ^^^ (hash <<< 16)
    let hash := hash ^^^ (signedChar (data.getD 2 0) <<< 18)
    hash + (hash >>> 11)
  | 2 =>
    let hash := hash + get16bits data
    let hash := hash ^^^ (hash <<< 11)
    hash + (hash >>> 17)
  | 1 =>
    let hash := hash + signedChar (data.getD 0 0)
    let hash := hash ^^^ (hash <<< 10)
    hash + (hash >>> 1)
  | _ => hash

def avalanche (hash : UInt32) : UInt32 :=
  let hash := hash ^^^ (hash <<< 3)
  let hash := hash + (hash >>> 5)
  let hash := hash ^^^ (hash <<< 4)
  let hash := hash + (hash >>> 17)
  let hash := hash ^^^ (hash <<< 25)
  hash + (hash >>> 6)

/-- `SuperFastHash`. -/
def superFastHash (data : List UInt8) : Typ :=
  if data = [] then 0
  else
    let r := hashLoop (data.length / 4) data (UInt32.ofNat data.length)
    (avalanche (hashEnd (data.length % 4) r.2 r.1)).toNat

/-! ## The hash of the type table (`contrib/uthash/uthash_xform.h`) -/

/-- `XHASH_JEN_MIX`. -/
def jenMix (a b c : UInt32) : UInt32 × UInt32 × UInt32 :=
  let a := (a - b - c) ^^^ (c >>> 13)
  let b := (b - c - a) ^^^ (a <<< 8)
  let c := (c - a - b) ^^^ (b >>> 13)
  let a := (a - b - c) ^^^ (c >>> 12)
  let b := (b - c - a) ^^^ (a <<< 16)
  let c := (c - a - b) ^^^ (b >>> 5)
  let a := (a - b - c) ^^^ (c >>> 3)
  let b := (b - c - a) ^^^ (a <<< 10)
  let c := (c - a - b) ^^^ (b >>> 15)
  (a, b, c)

/-- Four bytes of a key, as `XHASH_JEN` adds them. -/
def jenWord (k : List UInt8) : UInt32 :=
  signedChar (k.getD 0 0) + (signedChar (k.getD 1 0) <<< 8) + (signedChar (k.getD 2 0) <<< 16) +
    (signedChar (k.getD 3 0) <<< 24)

/-- `XHASH_JEN` of a `typ`: eight bytes, which are too few for a round of its loop. -/
def xhashJen (t : Typ) : Nat :=
  let key := bytes 8 t
  let i := 0x9e3779b9 + jenWord key
  let j := 0x9e3779b9 + jenWord (key.drop 4)
  (jenMix i j (0xfeedbeef + 8)).2.2.toNat

end CStrider.Types
