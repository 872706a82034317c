import CStrider.Gen.Field

/-!
# The comparison of types (`tools/kttcompare.ml`)

The generator works on the results of the comparison. `compareTypes` is here as far as its result
goes: what it notes for the worklist and for the choice of transformers does not come back to it.
`Compared` is what a result promises: `compareElems` pairs elements of one kind, and a typedef only
with one whose type compares equal.
-/

namespace CStrider.Gen

/-- `xf_rule` of a type: `Xform ([from], [to], code)`. -/
structure XformRule where
  fromPath : PathElem
  toPath : PathElem
  code : Option String

/-- `Xflang.type_renamed`. -/
def typeRenamed (rules : List XformRule) (p0 p1 : PathElem) : Except String (Option XformRule) :=
  match rules.filter fun r => r.fromPath = p0 ∧ r.toPath = p1 with
  | [] => pure none
  | [r] => pure (some r)
  | _ => throw "Comparison terminated"

/-- The last clause of `compareTypes` for two types with a path element; `gens` is
`compareGenericIn` of their arguments. -/
def comparePaths (rules : List XformRule) (p0 p1 : PathElem) (gens : Except String Bool) :
    Except String Bool := do
  match ← typeRenamed rules p0 p1 with
  | some _ => gens
  | none => if p0 = p1 then gens else pure false

mutual

/-- `compareTypes`. -/
def compareTypes (rules : List XformRule) : KtTyp → KtTyp → Except String Bool
  | .void g0, .void g1 => pure (g0 = g1)
  | .int k0, .int k1 => pure (k0 = k1)
  -- the source compares the first kind with itself
  | .float _, .float _ => pure true
  | .ptr t0 _ m0, .ptr t1 _ m1 => do
    let same ← compareTypes rules t0 t1
    pure (same && m0 = m1)
  | .ptrOpaque _, .ptrOpaque _ => pure true
  | .ptrArray t0 len0 m0, .ptrArray t1 len1 m1 => do
    let same ← compareTypes rules t0 t1
    pure (same && len0 = len1 && m0 = m1)
  | .array t0 len0, .array t1 len1 => if len0 = len1 then compareTypes rules t0 t1 else pure false
  | .fn .., .fn .. => pure true
  | .vaList, .vaList => pure true
  | .enum nm0, .enum nm1 => pure (nm0 = nm1)
  | .named nm gs, t1 =>
    match t1.pathElem with
    | some p1 => comparePaths rules (.typedef nm) p1 (compareGenericIn rules gs t1.genIns)
    | none => pure false
  | .struct nm gs, t1 =>
    match t1.pathElem with
    | some p1 => comparePaths rules (.struct nm) p1 (compareGenericIn rules gs t1.genIns)
    | none => pure false
  | .union nm gs, t1 =>
    match t1.pathElem with
    | some p1 => comparePaths rules (.union nm) p1 (compareGenericIn rules gs t1.genIns)
    | none => pure false
  | _, _ => pure false

/-- `compareGenericIn`. -/
def compareGenericIn (rules : List XformRule) : List GenDesc → List GenDesc → Except String Bool
  | [], [] => pure true
  | d0 :: ds0, d1 :: ds1 => do
    if ← compareTypeDesc rules d0 d1 then compareGenericIn rules ds0 ds1 else pure false
  | _, _ => throw "List.for_all2"

/-- `compareTypeDesc`. -/
def compareTypeDesc (rules : List XformRule) : GenDesc → GenDesc → Except String Bool
  | .ptrTo d0, .ptrTo d1 => compareTypeDesc rules d0 d1
  | .otherGenericBinding n0, .otherGenericBinding n1 => pure (n0 = n1)
  | .programType t0, .programType t1 => compareTypes rules t0 t1
  | _, _ => pure false

end

/-! ## Incomplete typedefs -/

/-- What `gencontext_mark_incomplete` gets while `handle_typedef` renders a typedef of type `t`. -/
def KtTyp.incomplete : KtTyp → Option Incomplete
  | .void g => some (.void g)
  | .fn rt args va => some (.fn rt args va)
  | .array t _ => t.incomplete
  | _ => none

/-- Both versions of a typedef are complete, or both are `void`, or both are functions. -/
inductive SameIncomplete : Option Incomplete → Option Incomplete → Prop
  | complete : SameIncomplete none none
  | void {g : Option String} : SameIncomplete (some (.void g)) (some (.void g))
  | fn {rt0 rt1 : KtTyp} {args0 args1 : List (String × KtTyp)} {va0 va1 : Bool} :
      SameIncomplete (some (.fn rt0 args0 va0)) (some (.fn rt1 args1 va1))

theorem KtTyp.incomplete_of_pathElem {t : KtTyp} {p : PathElem} (h : t.pathElem = some p) :
    t.incomplete = none := by
  cases t <;> first | rfl | cases h

section

variable {rules : List XformRule}

/-- Whatever it says of the arguments, a type with a path element only compares equal to another. -/
theorem pathElem_of_compared {p0 : PathElem} {t1 : KtTyp} {gens : Except String Bool}
    (h : (match t1.pathElem with
      | some p1 => comparePaths rules p0 p1 gens
      | none => pure false) = .ok true) : ∃ p1, t1.pathElem = some p1 := by
  cases hp : t1.pathElem with
  | some p1 => exact ⟨p1, rfl⟩
  | none =>
    rw [hp] at h
    cases h

theorem sameIncomplete_of_compareTypes :
    ∀ {t0 t1 : KtTyp}, compareTypes rules t0 t1 = .ok true →
      SameIncomplete t0.incomplete t1.incomplete
  | .void g0, t1, h => by
    cases t1 with
    | void g1 =>
      obtain rfl : g0 = g1 := by simpa [compareTypes, pure, Except.pure] using h
      exact .void
    | _ => cases h
  | .array t0 len0, t1, h => by
    cases t1 with
    | array t1 len1 =>
      rw [compareTypes] at h
      split at h
      · have inner : SameIncomplete t0.incomplete t1.incomplete := sameIncomplete_of_compareTypes h
        exact inner
      · cases h
    | _ => cases h
  | .fn rt0 args0 va0, t1, h => by
    cases t1 with
    | fn => exact .fn
    | _ => cases h
  | .named nm gs, t1, h | .struct nm gs, t1, h | .union nm gs, t1, h => by
    rw [compareTypes] at h
    obtain ⟨p1, hp⟩ := pathElem_of_compared h
    rw [KtTyp.incomplete_of_pathElem hp]
    exact .complete
  | .int _, t1, h | .float _, t1, h | .ptr _ _ _, t1, h | .ptrOpaque _, t1, h
  | .ptrArray _ _ _, t1, h | .enum _, t1, h | .vaList, t1, h => by
    cases t1 <;> first | exact .complete | cases h

end

/-- A result of the comparison, for the tables of incomplete typedefs that the generator fills from
the elements of both versions. -/
def Compared (rules : List XformRule) (env : Env) : Matched → Prop
  | .type (.struct _) (.struct _) (.struct _) => True
  | .type (.union _) (.union _) .union => True
  | .type (.enum _) (.enum _) .enum => True
  | .type (.typedef nm0) (.typedef nm1) (.typedef t0 t1) =>
    compareTypes rules t0 t1 = .ok true ∧
      env.incompleteOld nm0 = t0.incomplete ∧ env.incompleteNew nm1 = t1.incomplete
  | .var t0 t1 => compareTypes rules t0 t1 = .ok true
  | _ => False

end CStrider.Gen
