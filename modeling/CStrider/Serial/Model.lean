import CStrider.Lib.Bytes
import CStrider.Lib.Spans
import CStrider.Registry.Symbols
import CStrider.Traversal.InPlace

/-!
# Checkpoints of the heap (`examples/heap_serialize/serial.c`)

`checkpoint` of `main.c` traverses the roots of a process with `ser_funs`, and what these write is
read by another process of the same program, which traverses its own roots with `deser_funs`. The
first is a session with callbacks. The second is not, since `deserial_ptr` calls `visit` for the
memory that it has given out, so that a call of it is still open while that visit goes on
(`Reading.calls`): its slots are entered in the mapping table when the visit is done.

`malloc` is a parameter. A process that exits, fails an assertion, or uses an address that is not
mapped does not go on. One that comes to the end of the file does: nobody looks at the result of
`fread` ("TODO check for EOF"), and what was not read keeps what it held.
-/

namespace CStrider.Serial

open Mapping (Ptr findMapping addMapping)
open Registry (Symbols)
open Traversal
open CStrider.Types (Typ Entry)

/-- The program, with the ids of the types that the callbacks know by name. -/
structure Setting where
  prog : Program
  TYPE_OPAQUE_PTR : Typ
  TYPE_CHAR_NT : Typ
  TYPE_CHAR_NT_PTR : Typ

/-- `SER_SYMBOL`. -/
def SER_SYMBOL : Nat := 2

/-- `cstrider_get_size`; `none` where it exits. -/
def cstriderGetSize (E : Env) (t : Typ) : Option Nat := (E.types.find t).map getSize

/-! ## Strings -/

/-- The chars of a symbol's name. -/
def cString (s : String) : List UInt8 := upToZero s.toUTF8.data.toList

/-- The chars from `p` on, up to a zero among the next `n`. -/
def charsAt (m : Ptr → Option Ptr) : Nat → Ptr → Option (List UInt8)
  | 0, _ => none
  | n + 1, p =>
    match m p with
    | none => none
    | some v => if UInt8.ofNat v = 0 then some []
      else (charsAt m n (p + 1)).map (UInt8.ofNat v :: ·)

/-- The string at `p`. -/
def stringAt (m : Ptr → Option Ptr) (p : Ptr) : Option (List UInt8) := charsAt m (2 ^ 64) p

/-- What `serial_char_str` writes: the length, which is an `int` and counts the zero, and that many
bytes of the string. -/
def charStr (bs : List UInt8) : Option (List UInt8) :=
  let len := toInt (bs.length + 1)
  if toSizeT len ≤ bs.length + 1 then
    some (wordBytes 4 (toSizeT len) ++ (bs ++ [0]).take (toSizeT len))
  else none

/-- `lookup_key` of a string. -/
def lookupChars (symbols : Symbols) (key : List UInt8) : Ptr :=
  match symbols.nameToAddr.find? fun e => cString e.name = key with
  | some e => e.addr
  | none => 0

/-! ## Writing -/

/-- The file; `none` for a process that does not go on. -/
abbrev File := Option (List UInt8)

section Write

variable (S : Setting) (symbols : Symbols)

def fwrite (bs : Option (List UInt8)) (w : World File) : World File :=
  { w with own := w.own.bind fun f => bs.map (f ++ ·) }

def serialPrim (a : Ptr) (t : Typ) (w : World File) : World File :=
  fwrite ((cstriderGetSize S.prog.toEnv t).bind fun sz => (w.mem a).map (wordBytes sz)) w

def serialWriteToken (i : Nat) (w : World File) : World File := fwrite (some (wordBytes 8 i)) w

def serialCharStr (bs : Option (List UInt8)) (w : World File) : World File :=
  fwrite (bs.bind charStr) w

def serialPtr (a : Ptr) (t : Typ) (w : World File) : Int × World File :=
  match w.mem a with
  | none => (0, fwrite none w)
  | some p =>
    if p = 0 then (0, serialWriteToken 0 w)
    else
      match symbols.lookupAddr p with
      | some symbol =>
        -- `serial_prim` of a local variable that holds `SER_SYMBOL`
        let two := (cstriderGetSize S.prog.toEnv S.TYPE_OPAQUE_PTR).map (wordBytes · SER_SYMBOL)
        (0, serialCharStr (some (cString symbol)) (fwrite two w))
      | none =>
        let w := serialPrim S a t w
        if t = S.TYPE_CHAR_NT_PTR then (0, serialCharStr (stringAt w.mem p) w) else (1, w)

def serialPtrMapped (a : Ptr) (t : Typ) (w : World File) : World File :=
  match w.mem a with
  | none => fwrite none w
  | some p =>
    match symbols.lookupAddr p with
    | some symbol => serialCharStr (some (cString symbol)) (serialWriteToken SER_SYMBOL w)
    | none => serialPrim S a t w

def serialStruct : Int := 1

/-- `ser_funs`. -/
def serFuns : Callbacks File where
  perfactionPrim a t _ w := serialPrim S a t w
  perfactionStruct _ _ _ w := (serialStruct, w)
  perfactionPtr a t _ w := serialPtr S symbols a t w
  perfactionPtrMapped a t lookup w := (lookup, serialPtrMapped S symbols a t w)

/-- The traversal of `checkpoint`, with an empty file. -/
def checkpoint (heap : Ptr → Option Ptr) (roots : List Root) : Sys (State File) Unit :=
  session S.prog.toEnv (serFuns S symbols) ⟨heap, some []⟩ roots

end Write

/-! ## Reading -/

/-- `malloc`, after it has given out the blocks of a list, what fresh memory holds, and what a local
variable holds that has not been assigned. -/
structure Allocator where
  malloc : List Span → Nat → Ptr
  content : Ptr → Ptr
  junk : State (List UInt8) → Nat

/-- The size that `deserial_ptr` asks for; the product is an `int`. -/
def toAlloc (te : Entry) : Nat :=
  if memoizedIsArray te then toSizeT ((te.arrlen * te.size).bmod (2 ^ 32)) else getSize te

/-- A call of `deserial_ptr` whose `visit` has not returned: `visit` has returned when the stack is
down to `depth` again. -/
structure Call where
  depth : Nat
  te : Entry
  a : Ptr
  x : Ptr

/-- A process that reads a checkpoint. What it owns is what it has not read yet of the file; `short`
(an `fread` has got less than it asked for) is not in the program. -/
structure Reading where
  base : State (List UInt8)
  blocks : List Span
  calls : List Call
  short : Bool

namespace Reading

def crash (s : Reading) : Reading := { s with base := s.base.stop .crashed }

def setMem (s : Reading) (m : Ptr → Option Ptr) : Reading :=
  { s with base := { s.base with world := { s.base.world with mem := m } } }

def setFile (s : Reading) (file : List UInt8) : Reading :=
  { s with base := { s.base with world := { s.base.world with own := file } } }

def setStack (s : Reading) (fs : List Frame) : Reading :=
  { s with base := { s.base with stack := fs } }

/-- The bytes that `fread(.., n, 1, ser)` stores. -/
def fread (n : Nat) (s : Reading) : List UInt8 × Reading :=
  let file := s.base.world.own
  (file.take n, { s.setFile (file.drop n) with short := s.short || decide (file.length < n) })

/-- `fread` to a variable of `n` bytes that holds `v`. -/
def freadWord (n v : Nat) (s : Reading) : Nat × Reading :=
  let r := s.fread n
  (bytesWord (r.1 ++ (wordBytes n v).drop r.1.length), r.2)

/-- `*x = v`. -/
def store (x v : Ptr) (s : Reading) : Reading :=
  if (s.base.world.mem x).isSome then s.setMem (Function.update s.base.world.mem x (some v))
  else s.crash

end Reading

/-- Memory with `bytes` from `q` on. -/
def putBytes (m : Ptr → Option Ptr) (q : Ptr) (bytes : List UInt8) : Ptr → Option Ptr := fun y =>
  if (Span.mk q bytes.length).Has y then (bytes[y - q]?).map (·.toNat) else m y

/-- Memory with a fresh block. -/
def putBlock (content : Ptr → Ptr) (m : Ptr → Option Ptr) (b : Span) : Ptr → Option Ptr := fun y =>
  if b.Has y then some (content y) else m y

section Read

variable (S : Setting) (symbols : Symbols) (A : Allocator)

namespace Reading

def malloc (n : Nat) (s : Reading) : Ptr × Reading :=
  let b : Span := ⟨A.malloc s.blocks n, n⟩
  (b.start, { s.setMem (putBlock A.content s.base.world.mem b) with blocks := b :: s.blocks })

def addMapping (key addr : Ptr) (s : Reading) : Reading :=
  { s with base :=
    { s.base with mappings := Mapping.addMapping S.prog.bucket s.base.mappings key addr } }

/-- What `visit` does when `deserial_ptr` has returned, which it does with `0`. -/
def returned (te : Entry) (a x : Ptr) (s : Reading) : Reading :=
  { s with base := followPtr S.prog.toEnv te a x 0 s.base }

/-- `malloc` of `n` bytes, and `fread` into them. -/
def freadBlock (n : Nat) (s : Reading) : Span × Reading :=
  let tmp := s.malloc A n
  let r := tmp.2.fread n
  (⟨tmp.1, n⟩, r.2.setMem (putBytes r.2.base.world.mem tmp.1 r.1))

/-- `deserial_char_str`, with the block whose address it stores. -/
def deserialCharStr (s : Reading) : Span × Reading :=
  let len := s.freadWord 4 (A.junk s.base)
  len.2.freadBlock A (toSizeT (toInt len.1))

/-- `free` of the last block, where memory was `m` before it was given out. -/
def free (b : Span) (m : Ptr → Option Ptr) (s : Reading) : Reading :=
  { s.setMem (fun y => if b.Has y then m y else s.base.world.mem y) with blocks := s.blocks.tail }

end Reading

open Reading

def deserialPrim (t : Typ) (x : Ptr) (s : Reading) : Reading :=
  match cstriderGetSize S.prog.toEnv t with
  | none => s.crash
  | some sz =>
    let r := s.freadWord sz ((s.base.world.mem x).getD 0)
    -- `out` is not touched where nothing is read
    if (s.fread sz).1 = [] then r.2 else r.2.store x r.1

/-- `deserial_ptr` for a pointer that was not met before, with what `visit` does after it. -/
def deserialNew (te : Entry) (a x present : Ptr) (s : Reading) : Reading :=
  if te.targetType = S.TYPE_CHAR_NT then
    let tgt := s.deserialCharStr A
    ((tgt.2.store x tgt.1.start).addMapping S present tgt.1.start).returned S te a x
  else
    match S.prog.types.find te.targetType with
    | none => s.crash
    | some next =>
      let tgt := (s.malloc A (toAlloc next)).1
      let s := (s.malloc A (toAlloc next)).2
      let s := (s.addMapping S present tgt).store x tgt
      { s with
        calls := ⟨s.base.stack.length, te, a, x⟩ :: s.calls
        base := s.base.push [.visit tgt te.targetType tgt] }

/-- `deserial_ptr`, with what `visit` does after it. -/
def deserialPtr (te : Entry) (a x : Ptr) (s : Reading) : Reading :=
  let present := (s.freadWord 8 (A.junk s.base)).1
  let s := (s.freadWord 8 (A.junk s.base)).2
  if present = SER_SYMBOL then
    let symbol := s.deserialCharStr A
    match stringAt symbol.2.base.world.mem symbol.1.start with
    | none => symbol.2.crash
    | some key =>
      ((symbol.2.store x (lookupChars symbols key)).free symbol.1 s.base.world.mem).returned S te a x
  else if present = 0 then (s.store x 0).returned S te a x
  else
    let tgt := findMapping S.prog.bucket s.base.mappings present
    if tgt ≠ 0 then (s.store x tgt).returned S te a x
    else deserialNew S A te a x present s

/-- The pointer branch of `visit`. `deserial_ptr_mapped` is an `assert(0)`. -/
def visitPtrIn (te : Entry) (a x : Ptr) (s : Reading) : Reading :=
  if a = 0 then s
  else
    match s.base.world.mem a with
    | none => s.crash
    | some p =>
      if findMapping S.prog.bucket s.base.mappings p ≠ 0 then s.crash
      else deserialPtr S symbols A te a x s

def deserialStruct : Int := 1

/-- `visit(in, type, out)` with `deser_funs`. -/
def visitIn (a : Ptr) (t : Typ) (x : Ptr) (s : Reading) : Reading :=
  match S.prog.kind t with
  | .system => s
  | .prim => deserialPrim S t x s
  | .missing => s.crash
  | .ptr te => visitPtrIn S symbols A te a x s
  | .array _ => { s with base := transformSplitArray S.prog.toEnv a t x s.base }
  | .struct _ =>
    if deserialStruct ≠ 0 then
      { s with base := addtoqueue s.base (transformMakeEnq a t x false) }
    else s

/-- The innermost thing on the stack, else `dequeue`. -/
def advance (s : Reading) : Option Reading :=
  match s.base.stack with
  | .visit a t x :: fs => some (visitIn S symbols A a t x (s.setStack fs))
  | .stmt _ c a x :: fs => some { s with base := runStmt c a x (s.setStack fs).base }
  | [] =>
    if h : 0 < s.base.queue.count then
      let base := { s.base with queue := s.base.queue.pop h }
      some { s with base := callxformer S.prog.toEnv s.base.queue.head base }
    else none

/-- The next action: a call whose `visit` is done returns. -/
def stepIn (s : Reading) : Option Reading :=
  if s.base.status ≠ .running then none
  else
    match s.calls with
    | [] => advance S symbols A s
    | k :: ks =>
      if s.base.stack.length ≤ k.depth then some ({ s with calls := ks }.returned S k.te k.a k.x)
      else advance S symbols A s

/-- The traversal of `do_deserialize`, in a process whose memory is `m`. -/
def restore (m : Ptr → Option Ptr) (file : List UInt8) (roots : List Root) : Sys Reading Unit where
  init s := s = ⟨initial ⟨m, file⟩ roots, [], [], false⟩
  step _ := stepIn S symbols A

end Read

/-- `finish` has returned. -/
def Reading.Finished (s : Reading) : Prop := s.base.Finished ∧ s.calls = []

end CStrider.Serial
