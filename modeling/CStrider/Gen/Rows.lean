import CStrider.Gen.Compare
import CStrider.Gen.Pairing

/-!
# Rows of the generator's tables

`generate_trans_func` enters a matched element piece by piece: the names of both versions, then,
with a call of `generate_enqueue` each, their functions, then their sizes. `transFunc` keeps that
order, where `generateTransFunc` enters all at once; on the results of a comparison the two are
the same (`transFunc_eq`), because on their types `generate_enqueue` enters nothing. The tables are
then the columns of one list of rows (`Columns`), and a row belongs to one type (`Row`).

The function in the row of a pointer type is whatever `gencontext_set_xform` was last called with.
Only fields without generics call it, before their own type is rendered. The row has the function
of its type where that field is of the type in question (`Extension.InOrder`), which the generator
does not see to when it enters the `char *` of a function's argument, or a type behind a generic
instance.
-/

namespace CStrider.Gen

/-! ## The order of the source -/

/-- `gen_ctx.macrotypes_funs := L.append !(gen_ctx.macrotypes_funs) [generate_enqueue ...]`. OCaml
leaves open which argument of `L.append` is evaluated first; `listFirst` says that it is the
list. -/
def appendFun (env : Env) (listFirst : Bool) (e0 e1 : Elem) : GenM Unit := do
  let before ← get
  let f ← generateEnqueue env e0.typ e1.typ
  modify fun g => { g with funs := (if listFirst then before.funs else g.funs) ++ [some f] }

/-- What `generate_trans_func` does to the tables before it generates the body of the function. -/
def enterElem (env : Env) (listFirst : Bool) (e0 e1 : Elem) : GenM Unit := do
  modify fun g => g.addMacro e0.typeMacro
  modify fun g => g.addMacro e1.typeMacro.out
  appendFun env listFirst e0 e1
  appendFun env listFirst e0 e1
  modify fun g => g.addSizeOf (e0.sizeof oldRename)
  modify fun g => g.addSizeOf (e1.sizeof newRename)

/-- `generate_trans_func`, in the order of the source. -/
def transFunc (env : Env) (listFirst : Bool) : Matched → GenM (List Visit)
  | .type e0 e1 info => do
    enterElem env listFirst e0 e1
    generateAutoBody env e0 e1 info
  | .var t0 t1 => generateTransFunc env (.var t0 t1)

/-- `L.iter (generate_trans_func gen_ctx compare_ctx) results`, in the order of the source. -/
def transFuncs (env : Env) (listFirst : Bool) : List Matched → GenM (List (List Visit))
  | [] => pure []
  | m :: ms => do
    let vs ← transFunc env listFirst m
    let vss ← transFuncs env listFirst ms
    pure (vs :: vss)

section

variable {rules : List XformRule} {env : Env} {listFirst : Bool}

/-- `generate_enqueue` only finds the function of an element, if both versions of an incomplete
typedef are incomplete alike. -/
theorem generateEnqueue_typedef {nm0 nm1 : String}
    (h : SameIncomplete (env.incompleteOld nm0) (env.incompleteNew nm1)) :
    ∃ f, generateEnqueue env (.named nm0 []) (.named nm1 []) = pure f := by
  have flat : generateEnqueue env (.named nm0 []) (.named nm1 []) =
      enqueueFlat (env.oldTyp (.named nm0 [])) (env.newTyp (.named nm1 [])) := rfl
  rw [flat, Env.oldTyp, Env.newTyp]
  generalize env.incompleteOld nm0 = old, env.incompleteNew nm1 = new at h
  cases h with
  | complete => exact ⟨.xform (.typedef nm0) (.typedef nm1), rfl⟩
  | @void g => cases g <;> exact ⟨.transformPrim, rfl⟩
  | fn => exact ⟨.transformFptr, rfl⟩

theorem generateEnqueue_compared {e0 e1 : Elem} {info : MatchInfo}
    (h : Compared rules env (.type e0 e1 info)) :
    ∃ f, generateEnqueue env e0.typ e1.typ = pure f := by
  match e0, e1, info, h with
  | .struct nm0, .struct nm1, .struct _, _ => exact ⟨.xform (.struct nm0) (.struct nm1), rfl⟩
  | .union _, .union _, .union, _ | .enum _, .enum _, .enum, _ => exact ⟨.transformPrim, rfl⟩
  | .typedef nm0, .typedef nm1, .typedef t0 t1, ⟨same, old, new⟩ =>
    have incomplete := sameIncomplete_of_compareTypes same
    rw [← old, ← new] at incomplete
    exact generateEnqueue_typedef incomplete

theorem enterElem_eq {e0 e1 : Elem} {f : Func} (h : generateEnqueue env e0.typ e1.typ = pure f) :
    enterElem env listFirst e0 e1 = extend (.elem e0 e1 f) := by
  funext g
  unfold enterElem appendFun
  rw [h]
  cases listFirst <;> rfl

/-- On a result of the comparison, the order of the source makes no difference. -/
theorem transFunc_eq {m : Matched} (h : Compared rules env m) :
    transFunc env listFirst m = generateTransFunc env m := by
  cases m with
  | var => rfl
  | type e0 e1 info =>
    obtain ⟨f, hf⟩ := generateEnqueue_compared h
    rw [transFunc, generateTransFunc, enterElem_eq hf, hf, pure_bind]

theorem transFuncs_eq {ms : List Matched} (h : ∀ m ∈ ms, Compared rules env m) :
    transFuncs env listFirst ms = generate env ms := by
  induction ms with
  | nil => rfl
  | cons m ms ih =>
    have rest := ih fun m' hm' => h m' (List.mem_cons_of_mem m hm')
    rw [transFuncs, generate, transFunc_eq (h m List.mem_cons_self), rest]

end

/-! ## The function of a type -/

/-- The name without `_PTR`, `_OUT` and arguments. -/
def Macro.stem : Macro → Macro
  | .ptr m | .out m | .ofArgs m _ => m.stem
  | m => m

/-- `f` is a function that `generate_enqueue` can find for the typedef `nm`, of which it looks up
the old version. -/
def TypedefFunc (nm : String) (f : Func) : Option Incomplete → Prop
  | some (.fn ..) => f = .transformFptr
  | some (.void _) => f = .transformPrim
  | none => ∃ p, f = .xform (.typedef nm) p

/-- `f` is a function that `generate_enqueue` can find for the type with the name `m`, and for
pointers to it. -/
def FuncOf (env : Env) (f : Func) (m : Macro) : Prop :=
  match m.stem with
  | .lit (.builtin s) => f = if s = "TYPE_FUNPTR" then .transformFptr else .transformPrim
  | .lit (.elem (.typedef nm)) => TypedefFunc nm f (env.incompleteOld nm)
  | .lit (.elem (.struct nm)) => ∃ p, f = .xform (.struct nm) p
  | .lit (.elem (.union nm)) => f = .transformPrim ∨ ∃ p, f = .xform (.union nm) p
  | .lit (.elem (.enum _)) => f = .transformPrim
  | _ => False

def KtTyp.isFn : KtTyp → Bool
  | .fn .. => true
  | _ => false

/-- `m` is a name that `render_type` has for a type which is no pointer and no array. A character
type has further names behind a pointer and in an array. -/
def KtTyp.Named : KtTyp → Macro → Prop
  | .int k, m => m = k.typeMacro ∨ k.isChar ∧ (m = typeCharNT ∨ m = IKind.char.typeMacro)
  | .float k, m => m = k.typeMacro
  | .void none, m | .ptrOpaque _, m => m = typeOpaquePtr
  | .fn .., m => m = typeFunptr
  | .named nm _, m => m = .lit (.elem (.typedef nm))
  | .struct nm _, m => m = .lit (.elem (.struct nm))
  | .union nm _, m => m = .lit (.elem (.union nm))
  | .enum _, m => m = IKind.int.typeMacro
  | .vaList, m => m = .lit "__builtin_va_list "
  | _, _ => False

/-- Below the same pointers and arrays, both versions end in the type with the name `m`. Where that
is a function in the old version, it is one in the new version as well. -/
inductive EndsIn (env : Env) (m : Macro) : KtTyp → KtTyp → Prop
  | base {t0 t1 : KtTyp} : t0.Named m →
      ((env.oldTyp t0).isFn → (env.newTyp t1).isFn ∧ (env.newTyp (env.oldTyp t1)).isFn) →
      EndsIn env m t0 t1
  | ptr {t0 t1 : KtTyp} {g0 g1 : Option String} {m0 m1 : MemMgmt} : g0 = none ∨ g1 = none →
      EndsIn env m t0 t1 → EndsIn env m (.ptr t0 g0 m0) (.ptr t1 g1 m1)
  | ptrArray {t0 t1 : KtTyp} {len0 len1 : ArrayLen} {m0 m1 : MemMgmt} :
      EndsIn env m t0 t1 → EndsIn env m (.ptrArray t0 len0 m0) (.ptrArray t1 len1 m1)
  | array {t0 t1 : KtTyp} {len0 len1 : ArrayLen} :
      EndsIn env m t0 t1 → EndsIn env m (.array t0 len0) (.array t1 len1)

section

variable {env : Env} {t0 t1 : KtTyp} {m : Macro} {f : Func} {g g' : GenCtx}

theorem KtTyp.Named.enqueue (h : t0.Named m) (t1 : KtTyp) :
    generateEnqueue env t0 t1 = enqueueFlat (env.oldTyp t0) (env.newTyp t1) := by
  cases t0 with
  | ptr | ptrArray | array => cases h
  | _ => rfl

theorem enqueueOther_found (h : enqueueOther t0 t1 g = .ok (f, g')) :
    f = .transformPrim ∧ t0.pathElem = none ∨
      ∃ p0 p1, t0.pathElem = some p0 ∧ f = .xform p0 p1 := by
  unfold enqueueOther at h
  cases h0 : t0.pathElem with
  | none =>
    rw [h0] at h
    obtain ⟨n, g1, -, h⟩ := bind_ok h
    cases h
    exact .inl ⟨rfl, rfl⟩
  | some p0 =>
    cases h1 : t1.pathElem with
    | none =>
      rw [h0, h1] at h
      cases h
    | some p1 =>
      rw [h0, h1] at h
      cases h
      exact .inr ⟨p0, p1, rfl, rfl⟩

/-- The functions that `generate_enqueue` can find for what is no pointer and no array. -/
theorem enqueueFlat_found (h : enqueueFlat t0 t1 g = .ok (f, g')) :
    f = .transformFptr ∧ t0.isFn ∧ t1.isFn ∨
      f = .transformPrim ∧ (t0.isFn → ¬ t1.isFn) ∧
        (∀ p, t0.pathElem = some p → ∃ nm, p = .union nm) ∨
      ∃ p0 p1, t0.pathElem = some p0 ∧ f = .xform p0 p1 := by
  unfold enqueueFlat at h
  split at h
  · cases h
    exact .inl ⟨rfl, rfl, rfl⟩
  · cases h
    exact .inr (.inl ⟨rfl, nofun, nofun⟩)
  · cases h
    exact .inr (.inl ⟨rfl, nofun, nofun⟩)
  · cases h
    exact .inr (.inl ⟨rfl, nofun, nofun⟩)
  · cases h
    exact .inr (.inl ⟨rfl, nofun, nofun⟩)
  · next nm _ _ _ =>
    cases h
    exact .inr (.inl ⟨rfl, nofun, fun p hp => ⟨nm, (Option.some.inj hp).symm⟩⟩)
  · cases h
    exact .inr (.inl ⟨rfl, nofun, nofun⟩)
  · next notFn _ _ _ _ _ _ =>
    rcases enqueueOther_found h with ⟨rfl, hp⟩ | xform
    · refine .inr (.inl ⟨rfl, fun h0 h1 => ?_, fun p h => by rw [hp] at h; cases h⟩)
      cases t0 with
      | fn =>
        cases t1 with
        | fn => exact notFn _ _ _ _ _ _ rfl rfl
        | _ => cases h1
      | _ => cases h0
    · exact .inr (.inr xform)

theorem KtTyp.Named.funcOf_fptr (h : t0.Named m) (fn : (env.oldTyp t0).isFn) :
    FuncOf env .transformFptr m := by
  cases t0 with
  | fn =>
    obtain rfl : m = typeFunptr := h
    rfl
  | named nm gs =>
    obtain rfl : m = .lit (.elem (.typedef nm)) := h
    rw [Env.oldTyp] at fn
    change TypedefFunc nm _ (env.incompleteOld nm)
    cases hi : env.incompleteOld nm with
    | none =>
      rw [hi] at fn
      cases fn
    | some i =>
      rw [hi] at fn
      cases i with
      | void => cases fn
      | fn => rfl
  | _ => cases fn

theorem KtTyp.Named.funcOf_prim (h : t0.Named m) (fn : (env.oldTyp t0).isFn = false)
    (path : ∀ p, (env.oldTyp t0).pathElem = some p → ∃ nm, p = .union nm) :
    FuncOf env .transformPrim m := by
  cases t0 with
  | int k =>
    rcases h with rfl | ⟨-, rfl | rfl⟩
    · cases k <;> rfl
    · rfl
    · rfl
  | float k =>
    obtain rfl : m = k.typeMacro := h
    cases k <;> rfl
  | void g =>
    cases g with
    | none =>
      obtain rfl : m = typeOpaquePtr := h
      rfl
    | some g => cases h
  | ptrOpaque t =>
    obtain rfl : m = typeOpaquePtr := h
    rfl
  | enum nm =>
    obtain rfl : m = IKind.int.typeMacro := h
    rfl
  | vaList =>
    obtain rfl : m = .lit "__builtin_va_list " := h
    rfl
  | union nm gs =>
    obtain rfl : m = .lit (.elem (.union nm)) := h
    exact .inl rfl
  | struct nm gs =>
    obtain ⟨_, hp⟩ := path (.struct nm) rfl
    cases hp
  | named nm gs =>
    obtain rfl : m = .lit (.elem (.typedef nm)) := h
    rw [Env.oldTyp] at fn path
    change TypedefFunc nm _ (env.incompleteOld nm)
    cases hi : env.incompleteOld nm with
    | none =>
      rw [hi] at path
      obtain ⟨_, hp⟩ := path (.typedef nm) rfl
      cases hp
    | some i =>
      rw [hi] at fn
      cases i with
      | void => rfl
      | fn => cases fn
  | fn => cases fn
  | ptr | ptrArray | array => cases h

theorem KtTyp.Named.funcOf_xform (h : t0.Named m) {p0 : PathElem}
    (path : (env.oldTyp t0).pathElem = some p0) (p1 : PathElem) :
    FuncOf env (.xform p0 p1) m := by
  cases t0 with
  | struct nm gs =>
    obtain rfl : m = .lit (.elem (.struct nm)) := h
    cases path
    exact ⟨p1, rfl⟩
  | union nm gs =>
    obtain rfl : m = .lit (.elem (.union nm)) := h
    cases path
    exact .inr ⟨p1, rfl⟩
  | named nm gs =>
    obtain rfl : m = .lit (.elem (.typedef nm)) := h
    rw [Env.oldTyp] at path
    change TypedefFunc nm _ (env.incompleteOld nm)
    cases hi : env.incompleteOld nm with
    | none =>
      rw [hi] at path
      cases path
      exact ⟨p1, rfl⟩
    | some i =>
      rw [hi] at path
      cases i <;> cases path
  | _ => cases path

theorem generateEnqueue_ptr {g0 g1 : Option String} {m0 m1 : MemMgmt} (h : g0 = none ∨ g1 = none) :
    generateEnqueue env (.ptr t0 g0 m0) (.ptr t1 g1 m1) =
      if (env.oldTyp t0).isFn ∧ (env.oldTyp t1).isFn then pure .transformFptr
      else generateEnqueue env t0 (env.oldTyp t1) := by
  have generic : ∀ gv0 gv1, g0 = some gv0 → g1 = some gv1 → False := by
    rintro gv0 gv1 rfl rfl
    rcases h with h | h <;> cases h
  cases h0 : env.oldTyp t0 with
  | fn => cases h1 : env.oldTyp t1 <;> simp [generateEnqueue, Env.newTyp, KtTyp.isFn, *]
  | _ => simp [generateEnqueue, Env.newTyp, KtTyp.isFn, *]

theorem EndsIn.funcOf_fptr (h : EndsIn env m t0 t1) (fn : (env.oldTyp t0).isFn) :
    FuncOf env .transformFptr m := by
  cases h with
  | base named => exact named.funcOf_fptr fn
  | ptr | ptrArray | array => cases fn

/-- Behind a pointer, `generate_enqueue` goes on with what the type of the new version is under its
name in the old one; it finds a function of the type in which both versions end all the same. -/
theorem EndsIn.funcOf (h : EndsIn env m t0 t1) {t : KtTyp} (ht : t = t1 ∨ t = env.oldTyp t1)
    (hf : generateEnqueue env t0 t g = .ok (f, g')) : FuncOf env f m := by
  induction h generalizing t with
  | @base t0 t1 named fn =>
    rw [named.enqueue] at hf
    rcases enqueueFlat_found hf with ⟨rfl, fn0, -⟩ | ⟨rfl, notFn, path⟩ | ⟨p0, p1, path, rfl⟩
    · exact named.funcOf_fptr fn0
    · refine named.funcOf_prim (Bool.eq_false_iff.mpr fun fn0 => ?_) path
      rcases ht with rfl | rfl
      · exact notFn fn0 (fn fn0).1
      · exact notFn fn0 (fn fn0).2
    · exact named.funcOf_xform path p1
  | @ptr t0 t1 g0 g1 m0 m1 generic ends ih =>
    obtain rfl : t = .ptr t1 g1 m1 := by rcases ht with rfl | rfl <;> rfl
    rw [generateEnqueue_ptr generic] at hf
    by_cases fn : (env.oldTyp t0).isFn ∧ (env.oldTyp t1).isFn
    · rw [if_pos fn] at hf
      cases hf
      exact ends.funcOf_fptr fn.1
    · rw [if_neg fn] at hf
      exact ih (.inr rfl) hf
  | @ptrArray t0 t1 len0 len1 m0 m1 ends ih =>
    obtain rfl : t = .ptrArray t1 len1 m1 := by rcases ht with rfl | rfl <;> rfl
    have enqueue : generateEnqueue env (.ptrArray t0 len0 m0) (.ptrArray t1 len1 m1) =
        if len0 = len1 then generateEnqueue env t0 t1 else throw "assert (len0 = len1)" := rfl
    rw [enqueue] at hf
    by_cases hlen : len0 = len1
    · rw [if_pos hlen] at hf
      exact ih (.inl rfl) hf
    · rw [if_neg hlen] at hf
      cases hf
  | @array t0 t1 len0 len1 ends ih =>
    obtain rfl : t = .array t1 len1 := by rcases ht with rfl | rfl <;> rfl
    have enqueue : generateEnqueue env (.array t0 len0) (.array t1 len1) =
        if len0 = len1 then generateEnqueue env t0 t1 else throw "assert (len0 = len1)" := rfl
    rw [enqueue] at hf
    by_cases hlen : len0 = len1
    · rw [if_pos hlen] at hf
      exact ih (.inl rfl) hf
    · rw [if_neg hlen] at hf
      cases hf

end
/-- The function that an element is entered with is the one `generate_enqueue` finds for it. -/
def Found (env : Env) (e0 e1 : Elem) (f : Func) : Prop :=
  generateEnqueue env e0.typ e1.typ = pure f

/-! ## Rows -/

/-- The types for which a row is appended, with what a row says beyond its type. -/
inductive Row where
  | builtin (m : Macro) (size : String)
  | old (e : Elem) (f : Func)
  | new (e : Elem) (f : Func)
  /-- a pointer to `s`, and a pointer to its new version -/
  | ptr (s : Macro) (f : Option Func)
  | ptrOut (s : Macro) (f : Option Func)
  | inst (i : Instance)
  | instOut (i : Instance)

namespace Row

def name : Row → Macro
  | builtin m _ => m
  | old e _ => e.typeMacro
  | new e _ => e.typeMacro.out
  | ptr s _ => s.ptr
  | ptrOut s _ => s.out.ptr
  | inst i => i.name
  | instOut i => i.name.out

/-- The plain type, without the arguments of an instance. -/
def main : Row → Macro
  | ptrOut s _ => s.ptr
  | inst i => i.main
  | instOut i => i.mainOut
  | r => r.name

def target : Row → Macro
  | ptr s _ | ptrOut s _ => s
  | inst i => i.target
  | instOut i => i.targetOut
  | _ => .lit "-1"

def ptrto : Row → Macro
  | ptr _ _ | ptrOut _ _ => .lit "0"
  | inst i | instOut i => i.ptrto
  | _ => .lit "-1"

def arrlen : Row → Int
  | ptr _ _ | ptrOut _ _ => -1
  | _ => 0

def size : Row → String
  | builtin _ size => size
  | old e _ => e.sizeof oldRename
  | new e _ => e.sizeof newRename
  | ptr _ _ | ptrOut _ _ => "sizeof (void * )"
  | inst i => i.size0
  | instOut i => i.size1

def func : Row → Option Func
  | builtin _ _ => some .transformPrim
  | old _ f | new _ f => some f
  | ptr _ f | ptrOut _ f => f
  | inst i | instOut i => some i.func

/-- A built-in row has the size of its type, the row of an element the function that
`generate_enqueue` finds for it and its other version, a pointer the function of what it points to,
and an instance all that is of one type. -/
def Own (env : Env) : Row → Prop
  | builtin m size => (m, size) ∈ builtins
  | old e f => ∃ e1, Found env e e1 f
  | new e f => ∃ e0, Found env e0 e f
  | ptr s f | ptrOut s f => ∃ f', f = some f' ∧ FuncOf env f' s
  | inst i | instOut i => i.Formed

end Row

/-- The tables are the columns of `rows`. -/
structure Columns (g : GenCtx) (rows : List Row) : Prop where
  macrotypes : g.macrotypes = rows.map Row.name
  maintype : g.maintype = rows.map Row.main
  targetType : g.targetType = rows.map Row.target
  ptrtomeType : g.ptrtomeType = rows.map Row.ptrto
  arrlens : g.arrlens = rows.map Row.arrlen
  sizes : g.sizes = rows.map Row.size
  funs : g.funs = rows.map Row.func

/-- The rows that an extension appends while `cur_xform` is `f`. -/
def Extension.rows (f : Option Func) : Extension → List Row
  | .setXform .. => []
  | .ptr s => [.ptr s f, .ptrOut s f]
  | .elem e0 e1 f => [.old e0 f, .new e1 f]
  | .inst i => [.inst i, .instOut i]

section

variable {g : GenCtx} {rows : List Row}

theorem columns_create :
    Columns gencontextCreate (builtins.map fun p => .builtin p.1 p.2) := by
  constructor <;> rfl

theorem Columns.apply (h : Columns g rows) (x : Extension) :
    Columns (x.apply g) (rows ++ x.rows g.curXform) := by
  obtain ⟨h1, h2, h3, h4, h5, h6, h7⟩ := h
  cases x <;> constructor <;>
    simp [Extension.apply, Extension.rows, GenCtx.addPtr, GenCtx.addElem, GenCtx.addInstance,
      GenCtx.populate, GenCtx.addMacro, GenCtx.addFun, GenCtx.addSizeOf, Row.name, Row.main,
      Row.target, Row.ptrto, Row.arrlen, Row.size, Row.func, *]

/-- Each of the tables has at each index what belongs to one type. -/
def Consistent (env : Env) (g : GenCtx) : Prop := ∃ rows, Columns g rows ∧ ∀ r ∈ rows, r.Own env

/-- What is entered for a pointer type has the function of that type. -/
theorem Consistent.func_ptr {env : Env} (h : Consistent env g) {i : Nat} {s : Macro}
    (hi : g.macrotypes[i]? = some s.ptr) : ∃ f, g.funs[i]? = some (some f) ∧ FuncOf env f s := by
  obtain ⟨rows, columns, own⟩ := h
  rw [columns.macrotypes, List.getElem?_map, Option.map_eq_some_iff] at hi
  obtain ⟨r, hr, name⟩ := hi
  have ownRow := own r (List.mem_of_getElem? hr)
  have func : g.funs[i]? = some r.func := by rw [columns.funs, List.getElem?_map, hr]; rfl
  rw [func]
  cases r with
  | ptr s' f =>
    obtain rfl : s' = s := Macro.ptr.inj name
    obtain ⟨f', rfl, hf⟩ := ownRow
    exact ⟨f', rfl, hf⟩
  | ptrOut s' f =>
    obtain rfl : s'.out = s := Macro.ptr.inj name
    obtain ⟨f', rfl, hf⟩ := ownRow
    exact ⟨f', rfl, hf⟩
  | builtin m size =>
    obtain rfl : m = s.ptr := name
    simp [Row.Own, builtins, typeCharNT, typeFunptr, typeOpaquePtr] at ownRow
  | old | new | inst | instOut => cases name

end

/-! ## Runs -/

/-- The tables, and the type for which `gencontext_set_xform` was last called. -/
structure Tables where
  ctx : GenCtx
  setFor : Option (KtTyp × KtTyp)

def Extension.setFor : Extension → Option (KtTyp × KtTyp)
  | .setXform t0 t1 _ => some (t0, t1)
  | _ => none

/-- Any sequence of extensions of the tables of `gencontext_create`. -/
def tables : Sys Tables Extension where
  init s := s = ⟨gencontextCreate, none⟩
  step x s := some ⟨x.apply s.ctx, x.setFor.or s.setFor⟩

/-- What `generate_trans_func` does: the functions are those that `generate_enqueue` finds, and all
that it enters for an instance is that of one type. -/
def Extension.Fact (env : Env) : Extension → Prop
  | .setXform t0 t1 f => ∃ g g', generateEnqueue env t0 t1 g = .ok (f, g')
  | .ptr _ => True
  | .elem e0 e1 f => Found env e0 e1 f
  | .inst i => i.Formed

/-- If `append_deref` enters a pointer type, the type for which `gencontext_set_xform` was last
called is that type, up to pointers and arrays. -/
def Extension.InOrder (env : Env) (setFor : Option (KtTyp × KtTyp)) : Extension → Prop
  | .ptr s => ∃ t0 t1, setFor = some (t0, t1) ∧ EndsIn env s.stem t0 t1
  | _ => True

section

variable {rules : List XformRule} {env : Env} {listFirst : Bool} {ms : List Matched}

theorem extending_transFuncs (h : ∀ m ∈ ms, Compared rules env m) :
    Extending (Extension.Fact env) (fun _ => True) (transFuncs env listFirst ms) := by
  rw [transFuncs_eq h]
  have pieces : Rules env (Extending (Extension.Fact env)) :=
    extending_rules (fun _ => trivial) (fun _ formed => formed) fun _ _ _ g g' hf => ⟨g, g', hf⟩
  refine walk_generate pieces fun e0 e1 info hm => ?_
  obtain ⟨f, hf⟩ := generateEnqueue_compared (h _ hm)
  rw [generateTransFunc, hf, pure_bind]
  exact .bind (.extend hf) fun _ _ => walk_generateAutoBody pieces e0 e1 info

theorem reachBy_foldl (xs : List Extension) (hxs : ∀ x ∈ xs, x.Fact env) :
    ∃ s, tables.ReachBy (fun x _ => x.Fact env) s ∧
      s.ctx = xs.foldl (fun g x => x.apply g) gencontextCreate := by
  induction xs using List.reverseRecOn with
  | nil => exact ⟨_, .init rfl, rfl⟩
  | append_singleton xs x ih =>
    obtain ⟨s, hs, ctx⟩ := ih fun y hy => hxs y (List.mem_append_left _ hy)
    refine ⟨_, .step x hs (hxs x (by simp)) rfl, ?_⟩
    rw [List.foldl_append, ← ctx]
    rfl

theorem stem_stem (m : Macro) : m.stem.stem = m.stem := by
  induction m using Macro.stem.induct with
  | case1 m ih | case2 m ih | case3 m _ ih => exact ih
  | case4 m h1 h2 h3 =>
    cases m with
    | ptr m => exact absurd rfl (h1 m)
    | out m => exact absurd rfl (h2 m)
    | ofArgs m args => exact absurd rfl (h3 m args)
    | _ => rfl

theorem FuncOf.of_stem {f : Func} {m : Macro} (h : FuncOf env f m.stem) : FuncOf env f m := by
  rw [FuncOf, stem_stem] at h
  exact h

/-- The tables have consistent rows, and `cur_xform` is the function of the type it was set for. -/
structure Kept (env : Env) (s : Tables) : Prop where
  aligned : Aligned s.ctx
  consistent : Consistent env s.ctx
  curXform : ∀ t0 t1, s.setFor = some (t0, t1) →
    ∃ f g g', s.ctx.curXform = some f ∧ generateEnqueue env t0 t1 g = .ok (f, g')

theorem kept_create : Kept env ⟨gencontextCreate, none⟩ where
  aligned := aligned_create
  consistent := by
    refine ⟨_, columns_create, fun r hr => ?_⟩
    obtain ⟨p, hp, rfl⟩ := List.mem_map.mp hr
    exact hp
  curXform _ _ h := nomatch h

/-- The rows of one step are those of their types. -/
theorem Extension.own {x : Extension} {s : Tables} (fact : x.Fact env)
    (inOrder : x.InOrder env s.setFor) (hs : Kept env s) :
    ∀ r ∈ x.rows s.ctx.curXform, r.Own env := by
  cases x with
  | setXform => exact fun _ hr => absurd hr List.not_mem_nil
  | elem e0 e1 f =>
    have found : Found env e0 e1 f := fact
    simpa [Extension.rows, Row.Own] using ⟨⟨e1, found⟩, ⟨e0, found⟩⟩
  | inst i =>
    have formed : i.Formed := fact
    simpa [Extension.rows, Row.Own] using formed
  | ptr s' =>
    obtain ⟨t0, t1, set, ends⟩ := inOrder
    obtain ⟨f, g, g', cur, hf⟩ := hs.curXform t0 t1 set
    have of : FuncOf env f s' := .of_stem (ends.funcOf (.inl rfl) hf)
    simpa [Extension.rows, Row.Own, cur] using of

theorem Kept.step {x : Extension} {s : Tables} (hs : Kept env s) (fact : x.Fact env)
    (inOrder : x.InOrder env s.setFor) : Kept env ⟨x.apply s.ctx, x.setFor.or s.setFor⟩ := by
  constructor
  · exact hs.aligned.apply
  · obtain ⟨rows, columns, own⟩ := hs.consistent
    refine ⟨_, columns.apply x, fun r hr => ?_⟩
    rcases List.mem_append.mp hr with hr | hr
    · exact own r hr
    · exact Extension.own fact inOrder hs r hr
  · intro t0 t1 set
    cases x with
    | setXform t0' t1' f =>
      cases set
      obtain ⟨g, g', hf⟩ := fact
      exact ⟨f, g, g', rfl, hf⟩
    | ptr | elem | inst => exact hs.curXform t0 t1 set

/-- Every run of the generator, however long its list of results, leaves tables of one length, and
they are those of a run of `tables`. In every such run in which the pointer types are entered in
order, all the tables have at each index what belongs to one type. -/
theorem consistent_of_inOrder (listFirst : Bool) (hms : ∀ m ∈ ms, Compared rules env m) :
    (∀ vss g, transFuncs env listFirst ms gencontextCreate = .ok (vss, g) →
      Aligned g ∧ ∃ s, tables.ReachBy (fun x _ => x.Fact env) s ∧ s.ctx = g) ∧
    ∀ s, tables.ReachBy (fun x s => x.Fact env ∧ x.InOrder env s.setFor) s →
      Aligned s.ctx ∧ Consistent env s.ctx := by
  refine ⟨fun vss g h => ⟨?_, ?_⟩, fun s hs => ?_⟩
  · rw [transFuncs_eq hms] at h
    obtain ⟨versions, reached⟩ := reach_of_generate h
    exact CStrider.Gen.aligned reached
  · obtain ⟨⟨xs, hxs, rfl⟩, -⟩ := extending_transFuncs hms _ _ _ h
    exact reachBy_foldl xs hxs
  · have kept : Kept env s := hs.invariant (fun h => h ▸ kept_create) fun kept hC hst => by
      cases hst
      exact kept.step hC.1 hC.2
    exact ⟨kept.aligned, kept.consistent⟩

/-- `typedef void handler(char *)` is incomplete in both versions. -/
def handlerEnv : Env where
  incompleteOld nm := if nm = "handler" then handlerTyp.incomplete else none
  incompleteNew nm := if nm = "handler" then handlerTyp.incomplete else none
  xformGenerics _ := []
where handlerTyp : KtTyp := .fn (.void none) [("s", .ptr (.int .char) none .defaultMalloc)] false

/-- `struct node { struct node *next; handler *h; char name[8]; }`. -/
def nodeFields : List FieldMatch :=
  [.auto "next" "next" (nodePtr (.struct "node" [])) (nodePtr (.struct "node" [])),
    .auto "h" "h" (nodePtr (.named "handler" [])) (nodePtr (.named "handler" [])),
    .auto "name" "name" (.array (.int .char) (.int 8)) (.array (.int .char) (.int 8))]
where nodePtr (t : KtTyp) : KtTyp := .ptr t none .defaultMalloc

def handlerTypedef : Elem := Elem.typedef "handler"

def nodeResults : List Matched :=
  [.var (.ptr (.struct "node" []) none .defaultMalloc) (.ptr (.struct "node" []) none .defaultMalloc),
    .type handlerTypedef handlerTypedef
      (.typedef handlerEnv.handlerTyp handlerEnv.handlerTyp),
    .type (.struct "node") (.struct "node") (.struct nodeFields)]

/-- `struct list { struct list *next; int value; } *head`. -/
def listResults : List Matched :=
  [.var list list, .type (.struct "list") (.struct "list") (.struct
    [.auto "next" "next" list list, .auto "value" "value" (.int .int) (.int .int)])]
where list : KtTyp := nodeFields.nodePtr (.struct "list" [])

def listExtensions : List Extension :=
  [.setXform listResults.list listResults.list transformList,
    .ptr (.lit (.elem (.struct "list"))),
    .elem (.struct "list") (.struct "list") transformList,
    .setXform listResults.list listResults.list transformList,
    .setXform (.int .int) (.int .int) .transformPrim]
where transformList : Func := .xform (.struct "list") (.struct "list")

theorem consistent_of_inOrder_list : ∃ vss g,
    transFuncs handlerEnv true listResults gencontextCreate = .ok (vss, g) ∧
      Aligned g ∧ Consistent handlerEnv g := by
  have compared : ∀ m ∈ listResults, Compared [] handlerEnv m := by
    simp only [listResults, List.mem_cons, List.not_mem_nil, or_false, forall_eq_or_imp, forall_eq]
    exact ⟨rfl, trivial⟩
  have run : ∃ vss, transFuncs handlerEnv true listResults gencontextCreate =
      .ok (vss, listExtensions.foldl (fun g x => x.apply g) gencontextCreate) := ⟨_, rfl⟩
  obtain ⟨vss, run⟩ := run
  have found : (Extension.setXform listResults.list listResults.list
      listExtensions.transformList).Fact handlerEnv := ⟨gencontextCreate, gencontextCreate, rfl⟩
  have ends : EndsIn handlerEnv (.lit (.elem (.struct "list"))) listResults.list listResults.list :=
    .ptr (.inl rfl) (.base rfl nofun)
  have step (x : Extension) {s : Tables}
      (hs : tables.ReachBy (fun x s => x.Fact handlerEnv ∧ x.InOrder handlerEnv s.setFor) s)
      (fact : x.Fact handlerEnv) (inOrder : x.InOrder handlerEnv s.setFor) :
      tables.ReachBy (fun x s => x.Fact handlerEnv ∧ x.InOrder handlerEnv s.setFor)
        ⟨x.apply s.ctx, x.setFor.or s.setFor⟩ := .step x hs ⟨fact, inOrder⟩ rfl
  have set := step (.setXform _ _ _) (.init rfl) found trivial
  have ptr := step (.ptr (.lit (.elem (.struct "list")))) set trivial ⟨_, _, rfl, ends⟩
  have elem := step (.elem (.struct "list") (.struct "list") listExtensions.transformList) ptr rfl
    trivial
  have next := step (.setXform _ _ _) elem found trivial
  have reach := step (.setXform (.int .int) (.int .int) .transformPrim) next
    ⟨gencontextCreate, gencontextCreate, rfl⟩ trivial
  obtain ⟨generated, inOrder⟩ := consistent_of_inOrder true compared
  exact ⟨vss, _, run, (generated _ _ run).1, (inOrder _ reach).2⟩

/-- `struct logger { void (*log)(char *); char *name; }`. -/
def loggerResults : List Matched :=
  [.type (.struct "logger") (.struct "logger") (.struct
    [.auto "log" "log" log log, .auto "name" "name" name name])]
where
  name : KtTyp := nodeFields.nodePtr (.int .char)
  log : KtTyp := nodeFields.nodePtr (.fn (.void none) [("", name)] false)

/-- The pointer type of the argument is entered while `cur_xform` is the function of the field. -/
theorem logger_not_consistent : (∀ m ∈ loggerResults, Compared [] handlerEnv m) ∧ ∃ vss g,
    transFuncs handlerEnv true loggerResults gencontextCreate = .ok (vss, g) ∧
      ¬ Consistent handlerEnv g := by
  refine ⟨fun m hm => ?_, ?_⟩
  · obtain rfl := List.mem_singleton.mp hm
    trivial
  · have row : (transFuncs handlerEnv true loggerResults gencontextCreate).toOption.any (fun p =>
        p.2.macrotypes[20]? = some typeCharNT.ptr ∧ p.2.funs[20]? = some (some .transformFptr)) := by
      decide +kernel
    obtain ⟨p, hp, row⟩ := (Option.any_eq_true _ _).mp row
    cases h : transFuncs handlerEnv true loggerResults gencontextCreate with
    | error e =>
      rw [h] at hp
      cases hp
    | ok q =>
      rw [h] at hp
      cases hp
      refine ⟨p.1, p.2, rfl, fun consistent => ?_⟩
      obtain ⟨name, func⟩ := of_decide_eq_true row
      obtain ⟨f, hf, of⟩ := consistent.func_ptr name
      cases func.symm.trans hf
      cases of

end

end CStrider.Gen
