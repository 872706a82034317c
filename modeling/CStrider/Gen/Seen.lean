import CStrider.Gen.Compare

/-!
# What the comparison sees of a type

Without rename rules `compareTypes` is a comparison of what it looks at (`KtTyp.seen`). It stops at
function types and opaque pointers on purpose. Above them it also misses two components: it compares
the kind of the first of two floating types with itself, and it does not look at the generic name of
a pointer.
-/

namespace CStrider.Gen

section View

variable (kind : FKind → FKind) (gen : Option String → Option String)

mutual

/-- The type above functions and opaque pointers, with `kind` of its floating kinds and `gen` of the
generic names of its pointers. -/
def KtTyp.view : KtTyp → KtTyp
  | .float k => .float (kind k)
  | .ptr t g m => .ptr t.view (gen g) m
  | .ptrOpaque _ => .ptrOpaque (.void none)
  | .ptrArray t len m => .ptrArray t.view len m
  | .array t len => .array t.view len
  | .fn _ _ _ => .fn (.void none) [] false
  | .named nm gs => .named nm (GenDesc.views gs)
  | .struct nm gs => .struct nm (GenDesc.views gs)
  | .union nm gs => .union nm (GenDesc.views gs)
  | .void g => .void g
  | .int k => .int k
  | .enum nm => .enum nm
  | .vaList => .vaList

def GenDesc.views : List GenDesc → List GenDesc
  | [] => []
  | d :: ds => d.view :: GenDesc.views ds

def GenDesc.view : GenDesc → GenDesc
  | .otherGenericBinding n => .otherGenericBinding n
  | .programType t => .programType t.view
  | .ptrTo d => .ptrTo d.view

end

end View

/-- All of the type but what lies below `TFun` and `TPtrOpaque`. -/
def KtTyp.core (t : KtTyp) : KtTyp := t.view id id

/-- What `compareTypes` looks at. -/
def KtTyp.seen (t : KtTyp) : KtTyp := t.view (fun _ => .float) (fun _ => none)

section Compare

theorem comparePaths_nil (p0 p1 : PathElem) (gens : Except String Bool) :
    comparePaths [] p0 p1 gens = .ok true ↔ p0 = p1 ∧ gens = .ok true := by
  have renamed : typeRenamed [] p0 p1 = .ok none := rfl
  rw [comparePaths, renamed]
  change (if p0 = p1 then gens else pure false) = _ ↔ _
  split
  · next h => simp [h]
  · next h => simp [h, pure, Except.pure]

/-- A conjunction whose first half can fail. -/
theorem and_ok {m : Except String Bool} {b : Bool} :
    (do let same ← m; pure (same && b) : Except String Bool) = .ok true ↔
      m = .ok true ∧ b = true := by
  cases m with
  | error e => simp [bind, Except.bind]
  | ok same => simp [bind, Except.bind, pure, Except.pure]

mutual

theorem compareTypes_iff : ∀ t0 t1 : KtTyp, compareTypes [] t0 t1 = .ok true ↔ t0.seen = t1.seen
  | .void g0, t1 | .int k0, t1 | .float k0, t1 | .ptrOpaque t0, t1 | .enum nm, t1 | .vaList, t1
  | .fn rt args va, t1 => by
    cases t1 <;> simp [compareTypes, KtTyp.seen, KtTyp.view, pure, Except.pure]
  | .ptr t0 g0 m0, t1 => by
    cases t1 with
    | ptr t1 g1 m1 =>
      have ih := compareTypes_iff t0 t1
      rw [compareTypes, and_ok, ih]
      simp [KtTyp.seen, KtTyp.view]
    | _ => simp [compareTypes, KtTyp.seen, KtTyp.view, pure, Except.pure]
  | .ptrArray t0 len0 m0, t1 => by
    cases t1 with
    | ptrArray t1 len1 m1 =>
      have ih := compareTypes_iff t0 t1
      rw [compareTypes]
      simp only [Bool.and_assoc]
      rw [and_ok, ih]
      simp [KtTyp.seen, KtTyp.view]
    | _ => simp [compareTypes, KtTyp.seen, KtTyp.view, pure, Except.pure]
  | .array t0 len0, t1 => by
    cases t1 with
    | array t1 len1 =>
      have ih := compareTypes_iff t0 t1
      rw [compareTypes]
      split
      · next h =>
        rw [ih]
        simp [KtTyp.seen, KtTyp.view, h]
      · next h => simp [KtTyp.seen, KtTyp.view, h, pure, Except.pure]
    | _ => simp [compareTypes, KtTyp.seen, KtTyp.view, pure, Except.pure]
  | .named nm gs, t1 | .struct nm gs, t1 | .union nm gs, t1 => by
    have ih := compareGenericIn_iff gs t1.genIns
    cases t1 <;>
      simp_all [compareTypes, KtTyp.pathElem, KtTyp.genIns, comparePaths_nil, KtTyp.seen, KtTyp.view,
        pure, Except.pure]

theorem compareGenericIn_iff : ∀ ds0 ds1 : List GenDesc, compareGenericIn [] ds0 ds1 = .ok true ↔
    GenDesc.views (fun _ => .float) (fun _ => none) ds0 =
      GenDesc.views (fun _ => .float) (fun _ => none) ds1
  | [], [] => by simp [compareGenericIn, GenDesc.views, pure, Except.pure]
  | [], _ :: _ | _ :: _, [] => by
    simp [compareGenericIn, GenDesc.views, throw, throwThe, MonadExceptOf.throw]
  | d0 :: ds0, d1 :: ds1 => by
    have head := compareTypeDesc_iff d0 d1
    have tail := compareGenericIn_iff ds0 ds1
    rw [compareGenericIn, GenDesc.views, GenDesc.views, List.cons.injEq, ← head, ← tail]
    cases compareTypeDesc [] d0 d1 with
    | error e => simp [bind, Except.bind]
    | ok same => cases same <;> simp [bind, Except.bind, pure, Except.pure]

theorem compareTypeDesc_iff : ∀ d0 d1 : GenDesc, compareTypeDesc [] d0 d1 = .ok true ↔
    d0.view (fun _ => .float) (fun _ => none) = d1.view (fun _ => .float) (fun _ => none)
  | .otherGenericBinding n0, d1 => by
    cases d1 <;> simp [compareTypeDesc, GenDesc.view, pure, Except.pure]
  | .programType t0, d1 => by
    cases d1 with
    | programType t1 =>
      rw [compareTypeDesc, compareTypes_iff t0 t1]
      simp [GenDesc.view, KtTyp.seen]
    | _ => simp [compareTypeDesc, GenDesc.view, pure, Except.pure]
  | .ptrTo d0, d1 => by
    cases d1 with
    | ptrTo d1 =>
      rw [compareTypeDesc, compareTypeDesc_iff d0 d1]
      simp [GenDesc.view]
    | _ => simp [compareTypeDesc, GenDesc.view, pure, Except.pure]

end

/-- **Type comparison is sound** unless the two types differ, above functions and opaque pointers,
in kinds of floating types or generic names of pointers and in nothing else. -/
theorem comparison_sound_iff (t0 t1 : KtTyp) :
    (compareTypes [] t0 t1 = .ok true → t0.core = t1.core) ↔
      ¬ (t0.seen = t1.seen ∧ t0.core ≠ t1.core) := by
  rw [compareTypes_iff, not_and, not_ne_iff]

/-- `void *`, or a generic one. -/
def voidPtr (gen : Option String) : KtTyp := .ptr (.void none) gen .defaultMalloc

/-- `float` and `double` compare equal, and so do a generic `void *` and a plain one. -/
theorem comparison_unsound :
    ¬ (compareTypes [] (.float .float) (.float .double) = .ok true →
      (KtTyp.float .float).core = (KtTyp.float .double).core) ∧
    ¬ (compareTypes [] (voidPtr (some "t")) (voidPtr none) = .ok true →
      (voidPtr (some "t")).core = (voidPtr none).core) := by
  simp [compareTypes, voidPtr, KtTyp.core, KtTyp.view, pure, Except.pure, bind, Except.bind]

end Compare

end CStrider.Gen
