import CStrider.Serial.Strings

/-!
# What a checkpoint is for: a copy of the heap

A machine that has both heaps in front of it: it visits the locations of the old heap in the order
of a traversal, each with the address that it gets in the new memory (`x` of a frame, a task or a
root), gives out a block for every pointer that is new, and stores contents, with each pointer
translated. What is left to do and the slots that are done occupy the new memory without overlap
(`Copy.cover`).
-/

namespace CStrider.Serial

open Mapping (Ptr)
open Traversal
open CStrider.Types (Typ Entry)

/-- What is copied. A root has its locations in both processes; `symbol` is the translation of the
old addresses of symbols, and `Static` has the memory that the new process has of its own. -/
structure Original where
  env : Env
  heap : Ptr → Option Ptr
  roots : List Root
  symbol : Ptr → Option Ptr
  charNt : Typ
  Static : Ptr → Prop

/-- The state of the copy: `visited` has the locations that were visited, `strings` the strings
that were copied, and `moved` the new addresses of pointers. -/
structure Copy where
  frames : List Frame
  tasks : List Task
  visited : List Root
  strings : List Span
  blocks : List Span
  mem : Ptr → Option Ptr
  moved : Ptr → Ptr

namespace Original

variable (O : Original)

/-- The size of what is at a location of type `t`. -/
def ext (t : Typ) : Nat :=
  match O.env.types.find t with
  | some te => toAlloc te
  | none => 0

abbrev At (a : Ptr) (t : Typ) : Prop := Reaches O.env O.heap O.roots a t

/-- A pointer to data: not NULL, and no symbol. -/
def Data (p : Ptr) : Prop := p ≠ 0 ∧ O.symbol p = none

/-- The types that have a slot. -/
def Slot (t : Typ) : Prop := O.env.kind t = .prim ∨ ∃ te, O.env.kind t = .ptr te

/-- A visit of a location without a slot leads to further visits, or to a task. -/
inductive Opens (a x : Ptr) : Typ → List Frame → List Task → Prop
  | system {t : Typ} : O.env.kind t = .system → Opens a x t [] []
  | array {t : Typ} {te : Entry} : O.env.kind t = .array te →
    Opens a x t ((List.range (numArrayElems te)).map fun i =>
      .visit (a + i * getSize te) te.arrbase (x + i * getSize te)) []
  | struct {t : Typ} {te : Entry} : O.env.kind t = .struct te →
    Opens a x t [] [⟨a, t, x, false⟩]

/-- What a task leads to. -/
inductive Enters (k : Task) : List Frame → Prop
  | fields {te : Entry} {n : Nat} : O.env.kind k.t = .struct te → te.func = .generated n →
    Enters k ((O.env.body n k.t).map fun d => .stmt k.t d k.a k.x)
  | again {te : Entry} : O.env.kind k.t = .struct te → (∀ n, te.func ≠ .generated n) →
    Enters k [.visit k.a k.t k.x]

end Original

namespace Copy

variable (O : Original)

/-- The translation of a pointer that has one. -/
def value (c : Copy) (p : Ptr) : Option Ptr :=
  if p = 0 then some 0
  else
    match O.symbol p with
    | some q => some q
    | none => if c.moved p = 0 then none else some (c.moved p)

/-- What is to be stored for the slot at `a`. -/
def Content (c : Copy) (a : Ptr) (t : Typ) (v : Ptr) : Prop :=
  ∃ p, O.heap a = some p ∧
    (O.env.kind t = .prim ∧ v = p ∨ (∃ te, O.env.kind t = .ptr te) ∧ c.value O p = some v)

/-- The block is apart from all memory that is in use. -/
structure Fresh (c : Copy) (b : Span) : Prop where
  nonNull : b.start ≠ 0
  static : ∀ y, b.Has y → ¬ O.Static y
  blocks : ∀ b' ∈ c.blocks, b'.start ≠ b.start ∧ ∀ y, b.Has y → ¬ b'.Has y

/-- What is put into a block for `p`: the string, or zeros, and then the object is visited. -/
inductive Fills (c : Copy) (p : Ptr) (u : Typ) (b : Span) :
    List Frame → List Span → (Ptr → Option Ptr) → Prop
  | string {bs : List UInt8} : u = O.charNt → stringAt O.heap p = some bs →
    b.len = bs.length + 1 →
    Fills c p u b [] [b] (putBytes (putBlock (fun _ => 0) c.mem b) b.start (bs ++ [0]))
  | object : u ≠ O.charNt → b.len = O.ext u →
    Fills c p u b [.visit p u b.start] [] (putBlock (fun _ => 0) c.mem b)

inductive Step (c : Copy) : Copy → Prop
  | opens {a x : Ptr} {t : Typ} {fs new : List Frame} {ks : List Task} :
    c.frames = .visit a t x :: fs → O.Opens a x t new ks →
    Step c { c with frames := new ++ fs, tasks := c.tasks ++ ks, visited := ⟨a, t, x⟩ :: c.visited }
  | store {a x v : Ptr} {t : Typ} {fs : List Frame} :
    c.frames = .visit a t x :: fs → c.Content O a t v →
    Step c { c with
      frames := fs, visited := ⟨a, t, x⟩ :: c.visited, mem := Function.update c.mem x (some v) }
  | malloc {a x p : Ptr} {t : Typ} {te : Entry} {fs new : List Frame} {b : Span}
    {strs : List Span} {m : Ptr → Option Ptr} :
    c.frames = .visit a t x :: fs → O.env.kind t = .ptr te → memoizedIsFunptr te = false →
    O.heap a = some p → c.value O p = none → c.Fresh O b → c.Fills O p te.targetType b new strs m →
    Step c { c with
      frames := .visit a t x :: new ++ fs, strings := strs ++ c.strings, blocks := b :: c.blocks
      mem := m, moved := Function.update c.moved p b.start }
  | field {gen u : Typ} {d : FieldVisit} {a x : Ptr} {fs : List Frame} :
    c.frames = .stmt gen d a x :: fs → d.type O.heap a = some u →
    Step c { c with frames := .visit (a + d.inOff) u (x + d.inOff) :: fs }
  | task {k : Task} {ks : List Task} {new : List Frame} :
    c.frames = [] → c.tasks = k :: ks → O.Enters k new →
    Step c { c with frames := new, tasks := ks }

end Copy

/-! ## Where things are -/

namespace Original

variable (O : Original)

def place (t : Typ) (x : Ptr) : Span := ⟨x, O.ext t⟩

def frameSpan : Frame → Span
  | .visit _ t x => O.place t x
  | .stmt _ d a x =>
    match d.type O.heap a with
    | some u => O.place u (x + d.inOff)
    | none => ⟨0, 0⟩

def taskSpan (k : Task) : Span := O.place k.t k.x

def slotSpan (r : Root) : Span :=
  match O.env.kind r.t with
  | .prim => O.place r.t r.x
  | .ptr _ => O.place r.t r.x
  | _ => ⟨0, 0⟩

/-- The heap is well typed, what is by value in an object lies apart within it, and so do the roots
in the new process. -/
structure Layout : Prop where
  typed : WellTyped O.env O.heap O.roots
  slot : ∀ {a t}, O.At a t → O.Slot t → 0 < O.ext t
  stride : ∀ {a t te}, O.At a t → O.env.kind t = .array te → O.ext te.arrbase ≤ getSize te
  elem : ∀ {a t te i}, O.At a t → O.env.kind t = .array te → i < numArrayElems te →
    i * getSize te + O.ext te.arrbase ≤ O.ext t
  field : ∀ {a t u te n d}, O.At a t → O.env.kind t = .struct te → te.func = .generated n →
    d ∈ O.env.body n t → d.type O.heap a = some u → d.inOff + O.ext u ≤ O.ext t
  apart : ∀ {a t te n}, O.At a t → O.env.kind t = .struct te → te.func = .generated n →
    (O.env.body n t).Pairwise fun d e => ∀ u v, d.type O.heap a = some u → e.type O.heap a = some v →
      d.inOff + O.ext u ≤ e.inOff ∨ e.inOff + O.ext v ≤ d.inOff
  roots : O.roots.Pairwise fun r r' => (O.place r.t r.x).Apart (O.place r'.t r'.x)
  nonNull : ∀ r ∈ O.roots, r.x ≠ 0
  static : ∀ r ∈ O.roots, ∀ y, (O.place r.t r.x).Has y → O.Static y

/-- The location `b` of type `u`, whose new address is `y`, is by value within another. -/
inductive Inside : Ptr → Typ → Ptr → Ptr → Typ → Ptr → Prop
  | self (a : Ptr) (t : Typ) (x : Ptr) : Inside a t x a t x
  | elem {a b x y : Ptr} {t u : Typ} {te : Entry} {i : Nat} : O.env.kind t = .array te →
    i < numArrayElems te →
    Inside (a + i * getSize te) te.arrbase (x + i * getSize te) b u y → Inside a t x b u y
  | field {a b x y : Ptr} {t u v : Typ} {te : Entry} {n : Nat} {d : FieldVisit} :
    O.env.kind t = .struct te → te.func = .generated n → d ∈ O.env.body n t →
    d.type O.heap a = some v → Inside (a + d.inOff) v (x + d.inOff) b u y → Inside a t x b u y

/-- In the new memory the location is as before its contents arrive: its pointers are NULL. -/
def Blank (m : Ptr → Option Ptr) (a : Ptr) (t : Typ) (x : Ptr) : Prop :=
  ∀ b u y, O.Inside a t x b u y →
    (∀ te, O.env.kind u = .ptr te → m y = some 0) ∧ (O.env.kind u = .prim → (m y).isSome)

/-- `Q` of the location that a frame is for. -/
def On (Q : Ptr → Typ → Ptr → Prop) : Frame → Prop
  | .visit a t x => Q a t x
  | .stmt _ d a x => ∀ u, d.type O.heap a = some u → Q (a + d.inOff) u (x + d.inOff)

variable {O} {m m' : Ptr → Option Ptr} {a b x y p q : Ptr} {t u : Typ} {te : Entry}

theorem Inside.within (hO : O.Layout) (h : O.Inside a t x b u y) (hat : O.At a t) :
    O.At b u ∧ (O.place u y).Within (O.place t x) := by
  induction h with
  | self a t x => exact ⟨hat, fun _ h => h⟩
  | @elem a b x y t u te i hk hi _ ih =>
    obtain ⟨hb, hw⟩ := ih (hat.elem hk hi)
    refine ⟨hb, fun z hz => ?_⟩
    have hin := hw z hz
    have hsize := hO.elem hat hk hi
    simp only [Span.Has, place] at hin ⊢
    omega
  | @field a b x y t u v te n d hk hf hd hv _ ih =>
    obtain ⟨hb, hw⟩ := ih (hat.field hk hf hd hv)
    refine ⟨hb, fun z hz => ?_⟩
    have hin := hw z hz
    have hsize := hO.field hat hk hf hd hv
    simp only [Span.Has, place] at hin ⊢
    omega

/-- Blank locations only depend on their own memory. -/
theorem Blank.congr (hO : O.Layout) (h : O.Blank m a t x) (hat : O.At a t)
    (hm : ∀ y, (O.place t x).Has y → m' y = m y) : O.Blank m' a t x := by
  intro b u y hin
  obtain ⟨hb, hw⟩ := hin.within hO hat
  have hy : O.Slot u → m' y = m y := fun hu =>
    hm y (hw y (Span.has_start (s := O.place u y) (hO.slot hb hu)))
  obtain ⟨hptr, hprim⟩ := h b u y hin
  refine ⟨fun te hk => ?_, fun hk => ?_⟩
  · rw [hy (.inr ⟨te, hk⟩)]
    exact hptr te hk
  · rw [hy (.inl hk)]
    exact hprim hk

/-- Memory that is all zero. -/
theorem Layout.blank_of_zero (hO : O.Layout) (hat : O.At a t)
    (hm : ∀ y, (O.place t x).Has y → m y = some 0) : O.Blank m a t x := by
  intro b u y hin
  obtain ⟨hb, hw⟩ := hin.within hO hat
  have hy : O.Slot u → m y = some 0 := fun hu =>
    hm y (hw y (Span.has_start (s := O.place u y) (hO.slot hb hu)))
  refine ⟨fun te hk => hy (.inr ⟨te, hk⟩), fun hk => ?_⟩
  rw [hy (.inl hk)]
  rfl

end Original

end CStrider.Serial
