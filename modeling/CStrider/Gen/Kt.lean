import Mathlib.Data.List.Basic

/-!
# Kitsune types and macro names (`common/kttypes.ml`, `tools/cstridgen.ml`)

`KtTyp` is the type language in which the generator reads both versions of a program. `Macro` is the
C name under which a type goes in the generated file; it is kept as the term that the generator
concatenates, so that the term is the type, and `Macro.text` is the text, by which the generator
looks a type up. Names of program elements are C identifiers, so that `scrub` and `String.trim`
leave them alone and `->` only comes from the generator.
-/

namespace CStrider.Gen

/-- `ikind`. -/
inductive IKind where
  | char | schar | uchar | bool | int | uint | short | ushort | long | ulong | longLong | ulongLong
  deriving DecidableEq, Repr

/-- `fkind`. -/
inductive FKind where
  | float | double | longDouble
  deriving DecidableEq, Repr

/-- `mem_mgmt`. -/
inductive MemMgmt where
  | defaultMalloc
  | customMalloc (alloc free : String)
  deriving DecidableEq, Repr

/-- `array_len`. -/
inductive ArrayLen where
  | unknown
  | nullterm
  | int (n : Int)
  | field (f : String)
  deriving DecidableEq, Repr

mutual

/-- `generic_type_desc`. -/
inductive GenDesc where
  | otherGenericBinding (n : String)
  | programType (t : KtTyp)
  | ptrTo (d : GenDesc)

/-- `typ`. -/
inductive KtTyp where
  | void (g : Option String)
  | int (k : IKind)
  | float (k : FKind)
  | ptr (t : KtTyp) (g : Option String) (m : MemMgmt)
  | ptrOpaque (t : KtTyp)
  | ptrArray (t : KtTyp) (len : ArrayLen) (m : MemMgmt)
  | array (t : KtTyp) (len : ArrayLen)
  | fn (rt : KtTyp) (args : List (String × KtTyp)) (varargs : Bool)
  | named (nm : String) (genIn : List GenDesc)
  | struct (nm : String) (genIn : List GenDesc)
  | union (nm : String) (genIn : List GenDesc)
  | enum (nm : String)
  | vaList

end

/-- `getTypeGenIns`. -/
def KtTyp.genIns : KtTyp → List GenDesc
  | .named _ gs | .struct _ gs | .union _ gs => gs
  | _ => []

/-- `Xftypes.path_elem`, as far as `path_elem_from_type` makes it. -/
inductive PathElem where
  | typedef (nm : String)
  | struct (nm : String)
  | union (nm : String)
  deriving DecidableEq, Repr

/-- `path_elem_from_type`, without the generic arguments. -/
def KtTyp.pathElem : KtTyp → Option PathElem
  | .named nm _ => some (.typedef nm)
  | .struct nm _ => some (.struct nm)
  | .union nm _ => some (.union nm)
  | _ => none

/-- The function in the row of a type: `render_xform_func_name` of two path elements, or one of the
two of the runtime. -/
inductive Func where
  | transformPrim
  | transformFptr
  | xform (old new : PathElem)
  deriving DecidableEq, Repr

/-! ## Names -/

/-- The types that the comparison gives to a matched element. -/
inductive Elem where
  | typedef (nm : String)
  | struct (nm : String)
  | union (nm : String)
  | enum (nm : String)
  deriving DecidableEq, Repr

/-- What a name without a suffix stands for. -/
inductive Label where
  /-- a name of the runtime -/
  | builtin (s : String)
  | elem (e : Elem)
  deriving DecidableEq, Repr

instance : Coe String Label := ⟨Label.builtin⟩

def Label.text : Label → String
  | .builtin s => s
  | .elem (.typedef nm) => "TYPE_" ++ nm
  | .elem (.struct nm) => "TYPE_STRUCT_" ++ nm
  | .elem (.union nm) => "TYPE_UNION_" ++ nm
  | .elem (.enum nm) => "TYPE_ENUM_" ++ nm

inductive Macro where
  | lit (s : Label)
  /-- `m ^ "_PTR"` -/
  | ptr (m : Macro)
  /-- `m ^ "_OUT"` -/
  | out (m : Macro)
  /-- `m ^ "_OF_" ^ S.concat "__" args` -/
  | ofArgs (m : Macro) (args : List Macro)
  /-- `compute_gen_arg_var_name g` -/
  | genArg (g : String)
  /-- `compute_gen_arg_var_name g ^ "->type"` -/
  | genArgType (g : String)
  /-- what `generate_genin_xform_fullinner_type` puts for a nested generic with open arguments -/
  | notImplemented
  deriving Repr

mutual

def Macro.text : Macro → String
  | .lit s => s.text
  | .ptr m => m.text ++ "_PTR"
  | .out m => m.text ++ "_OUT"
  | .ofArgs m args => m.text ++ "_OF_" ++ String.intercalate "__" (Macro.texts args)
  | .genArg g => "gen_" ++ g
  | .genArgType g => "gen_" ++ g ++ "->type"
  | .notImplemented => "NOT IMPLEMENTED"

def Macro.texts : List Macro → List String
  | [] => []
  | m :: ms => m.text :: Macro.texts ms

end

mutual

def Macro.beq : Macro → Macro → Bool
  | .lit s, .lit t => s == t
  | .genArg s, .genArg t | .genArgType s, .genArgType t => s == t
  | .ptr m, .ptr n | .out m, .out n => m.beq n
  | .ofArgs m ms, .ofArgs n ns => m.beq n && Macro.beqs ms ns
  | .notImplemented, .notImplemented => true
  | _, _ => false

def Macro.beqs : List Macro → List Macro → Bool
  | [], [] => true
  | m :: ms, n :: ns => m.beq n && Macro.beqs ms ns
  | _, _ => false

end

mutual

theorem Macro.beq_iff : ∀ m n : Macro, m.beq n = true ↔ m = n
  | .lit _, n | .genArg _, n | .genArgType _, n | .notImplemented, n => by
    cases n <;> simp [Macro.beq]
  | .ptr m, n | .out m, n => by cases n <;> simp [Macro.beq, Macro.beq_iff m]
  | .ofArgs m ms, n => by cases n <;> simp [Macro.beq, Macro.beq_iff m, Macro.beqs_iff ms]

theorem Macro.beqs_iff : ∀ ms ns : List Macro, Macro.beqs ms ns = true ↔ ms = ns
  | [], ns => by cases ns <;> simp [Macro.beqs]
  | m :: ms, ns => by cases ns <;> simp [Macro.beqs, Macro.beq_iff m, Macro.beqs_iff ms]

end

instance : DecidableEq Macro := fun m n => decidable_of_iff _ (Macro.beq_iff m n)

mutual

/-- `Str.search_forward (Str.regexp "->") s 0` finds something. -/
def Macro.hasArrow : Macro → Bool
  | .genArgType _ => true
  | .ptr m | .out m => m.hasArrow
  | .ofArgs m args => m.hasArrow || Macro.anyArrow args
  | _ => false

def Macro.anyArrow : List Macro → Bool
  | [] => false
  | m :: ms => m.hasArrow || Macro.anyArrow ms

end

/-- `k` times `_PTR`. -/
def Macro.ptrs (m : Macro) : Nat → Macro
  | 0 => m
  | k + 1 => m.ptr.ptrs k

theorem Macro.ptrs_add (m : Macro) (k j : Nat) : m.ptrs (k + j) = (m.ptrs k).ptrs j := by
  induction k generalizing m with
  | zero => rw [Nat.zero_add, Macro.ptrs]
  | succ k ih => rw [Nat.add_right_comm, Macro.ptrs, ih, Macro.ptrs]

theorem Macro.ptrs_succ (m : Macro) (d : Nat) : m.ptrs (d + 1) = (m.ptrs d).ptr :=
  m.ptrs_add d 1

theorem Macro.text_ptrs (m : Macro) (k : Nat) : ∃ s, (m.ptrs k).text = m.text ++ s := by
  induction k with
  | zero => exact ⟨"", String.append_empty.symm⟩
  | succ k ih =>
    obtain ⟨s, hs⟩ := ih
    exact ⟨s ++ "_PTR", by rw [Macro.ptrs_succ, Macro.text, hs, String.append_assoc]⟩

theorem Macro.length_ptrs (m : Macro) (k : Nat) :
    (m.ptrs k).text.length = m.text.length + 4 * k := by
  induction k with
  | zero => rfl
  | succ k ih =>
    rw [Macro.ptrs_succ, Macro.text, String.length_append, ih]
    rfl

def typeCharNT : Macro := .lit "TYPE_CHAR_NT"

def typeOpaquePtr : Macro := .lit "TYPE_OPAQUE_PTR"

def typeFunptr : Macro := .lit "TYPE_FUNPTR"

/-- `typeenum_ikindToString`. -/
def IKind.typeMacro : IKind → Macro
  | .char => .lit "TYPE_CHAR"
  | .schar => .lit "TYPE_SIGNED_CHAR"
  | .uchar => .lit "TYPE_UNSIGNED_CHAR"
  | .bool => .lit "TYPE_BOOL"
  | .int => .lit "TYPE_INT"
  | .uint => .lit "TYPE_UNSIGNED_INT"
  | .short => .lit "TYPE_SHORT"
  | .ushort => .lit "TYPE_UNSIGNED_SHORT"
  | .long => .lit "TYPE_LONG"
  | .ulong => .lit "TYPE_UNSIGNED_LONG"
  | .longLong => .lit "TYPE_LONG_LONG"
  | .ulongLong => .lit "TYPE_UNSIGNED_LONG_LONG"

/-- `typeenum_fkindToString`. -/
def FKind.typeMacro : FKind → Macro
  | .float => .lit "TYPE_FLOAT"
  | .double => .lit "TYPE_DOUBLE"
  | .longDouble => .lit "TYPE_LONG_DOUBLE"

/-- The three kinds that a pointer makes a null-terminated string. -/
def IKind.isChar : IKind → Bool
  | .char | .schar | .uchar => true
  | _ => false

end CStrider.Gen
