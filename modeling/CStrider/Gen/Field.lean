import CStrider.Gen.Context

/-!
# The type of a field (`tools/cstridgen.ml`)

For every field of a matched struct the generator emits one call of `visit`, with a type
expression that it puts together from four recursions over the two versions of the field's type:
`render_type` for the name at the bottom, `countderef` for the pointers, `use_array` for an array
and `has_generics'` for generic arguments. Only those parts of `render_type` are here that work
under `MacroOnly`; dependencies between the rendered definitions are a matter of their order.

All recursions look an incomplete typedef up before they look at a type. Such a typedef is `void`
or a function type, so that one look-up ends it.
-/

namespace CStrider.Gen

/-- What `gencontext_mark_incomplete` is called with. -/
inductive Incomplete where
  | void (g : Option String)
  | fn (rt : KtTyp) (args : List (String × KtTyp)) (varargs : Bool)

def Incomplete.typ : Incomplete → KtTyp
  | .void g => .void g
  | .fn rt args va => .fn rt args va

/-- The part of `gencontext` that is complete before the first field is generated. -/
structure Env where
  /-- `td_incomplete` under `KeyTd (old_rename nm)` -/
  incompleteOld : String → Option Incomplete
  /-- `td_incomplete` under `KeyTd (new_rename nm)` -/
  incompleteNew : String → Option Incomplete
  /-- `gencontext_get_xform_generics` -/
  xformGenerics : Func → List String

namespace Env

variable (env : Env)

def oldTyp : KtTyp → KtTyp
  | .named nm gs => ((env.incompleteOld nm).map Incomplete.typ).getD (.named nm gs)
  | t => t

def newTyp : KtTyp → KtTyp
  | .named nm gs => ((env.incompleteNew nm).map Incomplete.typ).getD (.named nm gs)
  | t => t

end Env

/-! ## `render_type` -/

mutual

/-- `render_type` under `MacroOnly`. -/
def renderMacro : KtTyp → (genargPtr : Bool) → GenM Macro
  | .void (some g), _ => pure (.genArgType g)
  | .void none, _ => pure typeOpaquePtr
  | .int k, genargPtr =>
    if k.isChar && genargPtr then do
      let _ ← appendDeref typeCharNT 1
      pure typeCharNT
    else pure k.typeMacro
  | .float k, _ => pure k.typeMacro
  | .ptrOpaque _, _ => pure typeOpaquePtr
  | .ptr (.int k) _ _, _ =>
    if k.isChar then do
      let _ ← appendDeref typeCharNT 1
      pure typeCharNT
    else pure k.typeMacro
  | .ptr pt _ _, _ => renderMacro pt false
  | .ptrArray (.int k) _ _, _ => if k.isChar then pure IKind.char.typeMacro else pure k.typeMacro
  | .ptrArray pt _ _, _ => renderMacro pt false
  | .array t _, _ => renderMacro t false
  | .fn _ args _, _ => do
    renderArgs args
    pure typeFunptr
  | .named nm _, _ => pure (.lit (.elem (.typedef nm)))
  | .struct nm _, _ => pure (.lit (.elem (.struct nm)))
  | .union nm _, _ => pure (.lit (.elem (.union nm)))
  | .enum _, _ => pure IKind.int.typeMacro
  | .vaList, _ => pure (.lit "__builtin_va_list ")

/-- `L.map writeArg args`, whose texts `MacroOnly` throws away. -/
def renderArgs : List (String × KtTyp) → GenM Unit
  | [] => pure ()
  | (_, t) :: args => do
    let _ ← renderMacro t false
    renderArgs args

end

section

variable {t : KtTyp} {b : Bool}

theorem renderMacro_ptr {g : Option String} {m : MemMgmt} (h : ∀ k, t ≠ .int k) :
    renderMacro (.ptr t g m) b = renderMacro t false := by
  cases t with
  | int k => exact absurd rfl (h k)
  | _ => rfl

theorem renderMacro_ptrArray {len : ArrayLen} {m : MemMgmt} (h : ∀ k, t ≠ .int k) :
    renderMacro (.ptrArray t len m) b = renderMacro t false := by
  cases t with
  | int k => exact absurd rfl (h k)
  | _ => rfl

end

/-! ## `countderef` -/

/-- `countderef`. Below two pointers the typedefs of both versions are looked up under their old
names. -/
def countderef (env : Env) : KtTyp → KtTyp → Nat
  | .ptr t0 _ _, t1 =>
    match env.newTyp t1 with
    | .ptr t1 _ _ =>
      match env.oldTyp t0, env.oldTyp t1 with
      | .fn .., .fn .. => 0
      | .void none, _ => 0
      | _, t1 => 1 + countderef env t0 t1
    | _ => 0
  | .ptrArray t0 _ _, t1 =>
    match env.newTyp t1 with
    | .ptrArray t1 _ _ => countderef env t0 t1
    | _ => 0
  | .array t0 _, t1 =>
    match env.newTyp t1 with
    | .array t1 _ => countderef env t0 t1
    | _ => 0
  | _, _ => 0

/-! ## `generate_enqueue` -/

/-- The last clause of `generate_enqueue`. -/
def enqueueOther (t0 t1 : KtTyp) : GenM Func :=
  match t0.pathElem, t1.pathElem with
  | none, _ => do
    let _ ← renderMacro t0 false
    pure .transformPrim
  | some p0, some p1 => pure (.xform p0 p1)
  | some _, none => throw "option_get_unsafe"

/-- `generate_enqueue` on two types that are neither pointers nor arrays. -/
def enqueueFlat (t0 t1 : KtTyp) : GenM Func :=
  match t0, t1 with
  | .fn .., .fn .. => pure .transformFptr
  | .int _, .int _ | .float _, .float _ | .enum _, .enum _ | .vaList, .vaList
  | .union .., .union .. | .ptrOpaque _, .ptrOpaque _ => pure .transformPrim
  | _, _ => enqueueOther t0 t1

/-- `generate_enqueue`. -/
def generateEnqueue (env : Env) : KtTyp → KtTyp → GenM Func
  | .ptr t0 g0 m0, t1 =>
    match env.newTyp t1 with
    | .ptr t1 g1 _ =>
      match g0, g1 with
      | some gv0, some gv1 =>
        if gv0 = gv1 then pure .transformPrim else throw "assert (gv0 = gv1)"
      | _, _ =>
        match env.oldTyp t0, env.oldTyp t1 with
        | .fn .., .fn .. => pure .transformFptr
        | _, t1 => generateEnqueue env t0 t1
    | t1 => enqueueOther (.ptr t0 g0 m0) t1
  | .ptrArray t0 len0 m0, t1 =>
    match env.newTyp t1 with
    | .ptrArray t1 len1 _ =>
      if len0 = len1 then generateEnqueue env t0 t1 else throw "assert (len0 = len1)"
    | t1 => enqueueOther (.ptrArray t0 len0 m0) t1
  | .array t0 len0, t1 =>
    match env.newTyp t1 with
    | .array t1 len1 =>
      if len0 = len1 then generateEnqueue env t0 t1 else throw "assert (len0 = len1)"
    | t1 => enqueueOther (.array t0 len0) t1
  | t0, t1 => enqueueFlat (env.oldTyp t0) (env.newTyp t1)

/-! ## `has_generics'` -/

/-- `generic_type`. -/
inductive GenericType where
  | genOk (m : Macro)
  | genMakeMe
  | genNone

/-- `is_gent_type`. -/
def isGentType : GenDesc → Bool
  | .otherGenericBinding _ => true
  | .programType _ => false
  | .ptrTo d => isGentType d

/-- `render_sizeof` of a type with a path element. -/
def renderSizeof (rename : String → String) (i : Nat) : PathElem → String
  | .typedef nm => "sizeof(" ++ rename nm ++ star ++ ")"
  | .struct nm => "sizeof(struct " ++ rename nm ++ star ++ ")"
  | .union nm => "sizeof(union " ++ rename nm ++ star ++ ")"
where star : String := if i = 0 then "" else "*"

/-- The end of `has_generics'`: the instance `main_OF_args` behind `i` pointers, and the type
that it points to, unless they are listed. `t0orig` is a pointer or an array wherever it is given,
so the function of the target is `target_fun` too. -/
def makeInstance (p0 p1 : PathElem) (base main mainOut : Macro) (args : List Macro) (i : Nat) :
    GenM GenericType := do
  let genren := Macro.ofArgs main args
  let target := Macro.ofArgs (base.ptrs (i - 1)) args
  let targetFun := Func.xform p0 p1
  unlessListed genren do
    extend (.inst
      { head := main, args, main, mainOut
        target := if i = 0 then .lit "-1" else target
        targetOut := if i = 0 then .lit "-1" else target.out
        ptrto := .lit "0"
        size0 := renderSizeof oldRename i p0
        size1 := renderSizeof newRename i p1
        func := targetFun })
    if i = 0 then pure ()
    else unlessListed target do
      let main' ← appendDeref base (i - 1)
      extend (.inst
        { head := base.ptrs (i - 1), args
          main := main'
          mainOut := main'.out
          target := .lit "-1"
          targetOut := .lit "-1"
          ptrto := genren
          size0 := renderSizeof oldRename (i - 1) p0
          size1 := renderSizeof newRename (i - 1) p1
          func := targetFun })
  pure (.genOk genren)

/-- The clauses of `has_generics'` for types without a path element. -/
def noGenerics (t0 t1 : KtTyp) : GenM GenericType :=
  match t0, t1 with
  | .fn .., .fn .. | .int _, .int _ | .float _, .float _ | .enum _, .enum _ | .vaList, .vaList
  | .void none, .void none | .ptrOpaque _, .ptrOpaque _ => pure .genNone
  | .void (some g), .void (some _) => pure (.genOk (.genArg g))
  | _, _ => throw "option_get_unsafe"

/-- The last clause of `has_generics'`; `args` is `L.map2 render_outer_type gen_in0 gen_in1`. OCaml
evaluates it once more for each name that it makes of it, which adds nothing to the tables. -/
def genericInstance (env : Env) (t0 t1 : KtTyp) (args : GenM (List Macro)) (i : Nat) :
    GenM GenericType :=
  match t0.pathElem, t1.pathElem with
  | some p0, some p1 =>
    if env.xformGenerics (.xform p0 p1) = [] then pure .genNone
    else
      match t0.genIns with
      | [] => throw "Did you forget to add an annotation for some generics with E_G(...)"
      | g :: _ =>
        if isGentType g then pure .genMakeMe
        else do
          let base ← renderMacro t0 false
          let main ← appendDeref base i
          let mainOut ← appendDeref base.out i
          let args ← args
          makeInstance p0 p1 base main mainOut args i
  | _, _ => throw "option_get_unsafe"

mutual

/-- `has_generics'`, `i` pointers and arrays below the type of the field. -/
def hasGenerics' (env : Env) : KtTyp → KtTyp → (i : Nat) → GenM GenericType
  | .ptrArray t0 _ _, .ptrArray t1 _ _, i => hasGenerics' env t0 t1 (i + 1)
  | .array t0 _, .array t1 _, i => hasGenerics' env t0 t1 (i + 1)
  | .ptr t0 _ _, .ptr t1 _ _, i => hasGenerics' env t0 t1 (i + 1)
  | .named nm gs, t1, i =>
    match env.incompleteOld nm with
    | some t0 => noGenerics t0.typ (env.newTyp t1)
    | none =>
      let t1 := env.newTyp t1
      genericInstance env (.named nm gs) t1 (genIns env gs t1.genIns) i
  | .struct nm gs, t1, i =>
    let t1 := env.newTyp t1
    genericInstance env (.struct nm gs) t1 (genIns env gs t1.genIns) i
  | .union nm gs, t1, i =>
    match env.newTyp t1 with
    | .union .. => pure .genNone
    | t1 => genericInstance env (.union nm gs) t1 (genIns env gs t1.genIns) i
  | t0, t1, _ => noGenerics t0 (env.newTyp t1)

/-- `L.map2 render_outer_type`. -/
def genIns (env : Env) : List GenDesc → List GenDesc → GenM (List Macro)
  | [], [] => pure []
  | d0 :: ds0, d1 :: ds1 => do
    let m ← genIn env d0 d1 false
    let ms ← genIns env ds0 ds1
    pure (m :: ms)
  | _, _ => throw "List.map2"

/-- `generate_genin_xform_fullinner_type`. -/
def genIn (env : Env) : GenDesc → GenDesc → (isrecall : Bool) → GenM Macro
  | .otherGenericBinding n0, .otherGenericBinding n1, _ =>
    if n0 = n1 then pure (.genArg n0) else throw "assert (n0 = n1)"
  | .programType t0, .programType t1, isrecall => do
    match ← hasGenerics' env t0 t1 1 with
    | .genOk t => pure t
    | .genMakeMe => pure .notImplemented
    | .genNone => renderMacro t0 isrecall
  | .ptrTo d0, .ptrTo d1, _ => do
    let m ← genIn env d0 d1 true
    appendDeref m 1
  | _, _, _ => throw "Unexpected: unmatched generic descriptors"

end

/-- `has_generics`. -/
def hasGenerics (env : Env) (t0 t1 : KtTyp) : GenM GenericType := hasGenerics' env t0 t1 0

/-! ## `generate_field_xform` -/

/-- `has_union`. An incomplete typedef is no union, so the clauses that look it up are not here. -/
def hasUnion : KtTyp → KtTyp → Bool
  | .union .., .union .. => true
  | .ptrArray t0 _ _, .ptrArray t1 _ _ | .ptr t0 _ _, .ptr t1 _ _ => hasUnion t0 t1
  | _, _ => false

/-- What `len_to_string` makes of a length: a number or a field of `(*local_in)`. -/
inductive LenExpr where
  | int (n : Int)
  | field (f : String)
  deriving DecidableEq, Repr

/-- `len_to_string`. -/
def lenToString : ArrayLen → GenM LenExpr
  | .unknown => throw "Cannot generate serialization when the field length is unknown"
  | .int n => pure (.int n)
  | .field f => pure (.field f)
  | .nullterm => throw "Not yet handled"

/-- `arr_type`, with the length of the old version rendered. -/
inductive ArrType where
  | arrayPlain (len0 : LenExpr)
  | arrayPtr (len0 : LenExpr)
  | arrayNone

/-- `use_array`. An incomplete typedef is no array, so the clauses that look it up are not here.
The length is rendered here already, for a debug print. -/
def useArray : KtTyp → KtTyp → GenM ArrType
  | .ptrArray _ len0 _, .ptrArray .. => .arrayPtr <$> lenToString len0
  | .array _ len0, .array .. => .arrayPlain <$> lenToString len0
  | .ptr t0 _ _, .ptr t1 _ _ => useArray t0 t1
  | _, _ => pure .arrayNone

/-- The type expressions in the calls of `visit`. -/
inductive TypeExpr where
  | name (m : Macro)
  | mktypptr (e : TypeExpr)
  | mktyparr (len : LenExpr) (e : TypeExpr)
  /-- `mktypfromgenargs(m, num_gen_args, args)`, with the arguments of the running function -/
  | mktypfromgenargs (m : Macro)

/-- `visit(&((*local_in).field0), type, &((*local_out).field1))`. -/
structure Visit where
  field0 : String
  type : TypeExpr
  field1 : String

/-- `gencontext_set_xform gen_ctx (generate_enqueue gen_ctx t0 t1 compare_ctx)`. -/
def setXform (env : Env) (t0 t1 : KtTyp) : GenM Unit := do
  let f ← generateEnqueue env t0 t1
  extend (.setXform t0 t1 f)

/-- `typ` in `generate_field_xform`: the type without its array. -/
def elemType (env : Env) (t0 t1 : KtTyp) : GenM TypeExpr := do
  match ← hasGenerics env t0 t1 with
  | .genOk t => pure (.name t)
  | .genMakeMe => do
    let m ← renderMacro t0 false
    let typename ← appendDeref m (countderef env t0 t1)
    pure (.mktypfromgenargs typename)
  | .genNone => do
    setXform env t0 t1
    let m ← renderMacro t0 false
    let typename ← appendDeref m (countderef env t0 t1)
    pure (.name typename)

/-- `finaltyp` in `generate_field_xform`. -/
def ArrType.wrap (typ : TypeExpr) : ArrType → TypeExpr
  | .arrayPlain len0 => .mktyparr len0 typ
  | .arrayPtr len0 => .mktypptr (.mktyparr len0 typ)
  | .arrayNone => typ

def visitType (env : Env) (t0 t1 : KtTyp) : GenM TypeExpr := do
  let typ ← elemType env t0 t1
  let arr ← useArray t0 t1
  pure (arr.wrap typ)

/-- `generate_field_xform` of a matched field; `none` where the field is skipped. -/
def generateFieldXform (env : Env) (fname0 fname1 : String) (t0 t1 : KtTyp) :
    GenM (Option Visit) :=
  if hasUnion t0 t1 then pure none
  else do
    let type ← visitType env t0 t1
    pure (some ⟨fname0, type, fname1⟩)

/-! ## `generate_trans_func` -/

/-- A field of a matched struct. -/
inductive FieldMatch where
  | auto (fname0 fname1 : String) (t0 t1 : KtTyp)
  /-- deleted, or initialised by the programmer's code -/
  | other

/-- `match_info` of a type, with what `generate_auto_body` reads of it. -/
inductive MatchInfo where
  | struct (fields : List FieldMatch)
  | union
  | typedef (t0 t1 : KtTyp)
  | enum

/-- The results of the comparison that `generate_trans_func` does something for. -/
inductive Matched where
  | type (e0 e1 : Elem) (info : MatchInfo)
  /-- a global variable; `MatchInit` changes no table and is not here -/
  | var (t0 t1 : KtTyp)

def generateFields (env : Env) : List FieldMatch → GenM (List Visit)
  | [] => pure []
  | .other :: ms => generateFields env ms
  | .auto f0 f1 t0 t1 :: ms => do
    let v ← generateFieldXform env f0 f1 t0 t1
    let vs ← generateFields env ms
    pure (v.toList ++ vs)

/-- `generate_auto_body`: the calls of `visit` in the body of the generated function. What a
typedef, an enum or a variable visits has no field name. -/
def generateAutoBody (env : Env) (e0 e1 : Elem) : MatchInfo → GenM (List Visit)
  | .struct fields => generateFields env fields
  | .union => pure []
  | .typedef t0 t1 => do
    let type ← visitType env t0 t1
    pure [⟨"", type, ""⟩]
  | .enum => do
    let type ← visitType env e0.typ e1.typ
    pure [⟨"", type, ""⟩]

/-- `generate_trans_func`. -/
def generateTransFunc (env : Env) : Matched → GenM (List Visit)
  | .type e0 e1 info => do
    let f ← generateEnqueue env e0.typ e1.typ
    extend (.elem e0 e1 f)
    generateAutoBody env e0 e1 info
  | .var t0 t1 => do
    let typ ← elemType env t0 t1
    if hasUnion t0 t1 then pure []
    else do
      let arr ← useArray t0 t1
      pure [⟨"", arr.wrap typ, ""⟩]

/-- `L.iter (generate_trans_func gen_ctx compare_ctx) results`. -/
def generate (env : Env) : List Matched → GenM (List (List Visit))
  | [] => pure []
  | m :: ms => do
    let vs ← generateTransFunc env m
    let vss ← generate env ms
    pure (vs :: vss)

end CStrider.Gen
