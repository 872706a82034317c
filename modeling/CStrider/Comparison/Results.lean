import CStrider.Comparison.Effects
import CStrider.Gen.Seen

/-!
# The result of comparing two types

What `compareTypes` notes does not come back to it: without rules its result is that of the
comparison that the generator's model has, in any context and whatever the tables hold.
-/

namespace CStrider.Comparison

open CStrider.Gen (KtTyp GenDesc)

/-- Whatever the tables hold, the result of `m` is `x`. -/
def Gives {α : Type} (m : CompM α) (x : Except String α) : Prop := ∀ s, (m s).map Prod.fst = x

section

variable {α β : Type} {m : CompM α} {x : Except String α}

theorem gives_pure (a : α) : Gives (pure a) (pure a) := fun _ => rfl

theorem gives_throw (e : String) : Gives (throw e : CompM α) (throw e) := fun _ => rfl

theorem Gives.bind {f : α → CompM β} {g : α → Except String β} (hm : Gives m x)
    (hf : ∀ a, Gives (f a) (g a)) : Gives (m >>= f) (x >>= g) := by
  intro s
  change (m s >>= fun p => f p.1 p.2).map Prod.fst = _
  rw [← hm s]
  cases m s with
  | error e => rfl
  | ok p => exact hf p.1 p.2

/-- Something is put into the tables first. -/
theorem Gives.modify {f : Tables → Tables} (hm : Gives m x) : Gives (do modify f; m) x :=
  fun s => hm (f s)

theorem Gives.runs {s s' : Tables} {a : α} (hm : Gives m x) (h : Runs m s a s') : x = .ok a := by
  rw [← hm s, h]
  rfl

end

section

variable {ctx : CompContext}

/-- The names of typedefs, structs and unions in the generator's model. -/
def pathElem : Gen.PathElem → XfElem
  | .typedef nm => .typedef nm
  | .struct nm => .struct nm
  | .union nm => .union nm

theorem pathElem_injective : Function.Injective pathElem := by
  intro p q h
  cases p <;> cases q <;> cases h <;> rfl

theorem pathElemFromType_eq (t : KtTyp) :
    pathElemFromType t = t.pathElem.map fun p => (pathElem p, t.genIns) := by
  cases t <;> rfl

/-- The last clause of `compareTypes`. -/
theorem compareNames_gives (p0 p1 : Gen.PathElem) {throughPtr : Bool} {gens : CompM Bool}
    {x : Except String Bool} (hctx : NoRules ctx) (hgens : Gives gens x) :
    Gives (compareNames ctx throughPtr (pathElem p0) (pathElem p1) gens)
      (Gen.comparePaths [] p0 p1 x) := by
  rw [compareNames, hctx.allRules, typeRenamed_nil]
  change Gives (if pathElem p0 = pathElem p1 then _ else _) (if p0 = p1 then x else pure false)
  by_cases h : p0 = p1
  · rw [if_pos h, if_pos (congrArg pathElem h)]
    exact hgens.modify.modify
  · rw [if_neg h, if_neg fun heq => h (pathElem_injective heq)]
    exact (gives_pure false).modify

mutual

theorem compareTypes_gives (hctx : NoRules ctx) : ∀ (t0 t1 : KtTyp) (throughPtr : Bool),
    Gives (compareTypes ctx t0 t1 throughPtr) (Gen.compareTypes [] t0 t1)
  | .void _, t1, _ | .int _, t1, _ | .float _, t1, _ | .ptrOpaque _, t1, _ | .enum _, t1, _
  | .vaList, t1, _ => by
    cases t1 <;> exact gives_pure _
  | .fn .., t1, _ => by
    cases t1 with
    | fn => exact (gives_pure true).modify
    | _ => exact gives_pure false
  | .ptr t0 _ mem0, t1, _ => by
    cases t1 with
    | ptr t1 _ mem1 =>
      rw [compareTypes, Gen.compareTypes]
      exact ((compareTypes_gives hctx t0 t1 true).bind fun _ => gives_pure _).modify
    | _ => exact gives_pure false
  | .ptrArray t0 len0 mem0, t1, _ => by
    cases t1 with
    | ptrArray t1 len1 mem1 =>
      rw [compareTypes, Gen.compareTypes]
      exact ((compareTypes_gives hctx t0 t1 true).bind fun _ => gives_pure _).modify
    | _ => exact gives_pure false
  | .array t0 len0, t1, throughPtr => by
    cases t1 with
    | array t1 len1 =>
      rw [compareTypes, Gen.compareTypes]
      split
      · exact compareTypes_gives hctx t0 t1 throughPtr
      · exact gives_pure false
    | _ => exact gives_pure false
  | .named nm genIn, t1, throughPtr => by
    have gens := compareGenericIn_gives hctx genIn t1.genIns throughPtr
    rw [compareTypes, Gen.compareTypes, pathElemFromType_eq]
    cases t1.pathElem with
    | none => exact gives_pure false
    | some p1 => exact compareNames_gives (.typedef nm) p1 hctx gens
  | .struct nm genIn, t1, throughPtr => by
    have gens := compareGenericIn_gives hctx genIn t1.genIns throughPtr
    rw [compareTypes, Gen.compareTypes, pathElemFromType_eq]
    cases t1.pathElem with
    | none => exact gives_pure false
    | some p1 => exact compareNames_gives (.struct nm) p1 hctx gens
  | .union nm genIn, t1, throughPtr => by
    have gens := compareGenericIn_gives hctx genIn t1.genIns throughPtr
    rw [compareTypes, Gen.compareTypes, pathElemFromType_eq]
    cases t1.pathElem with
    | none => exact gives_pure false
    | some p1 => exact compareNames_gives (.union nm) p1 hctx gens

theorem compareGenericIn_gives (hctx : NoRules ctx) :
    ∀ (ds0 ds1 : List GenDesc) (throughPtr : Bool),
      Gives (compareGenericIn ctx ds0 ds1 throughPtr) (Gen.compareGenericIn [] ds0 ds1)
  | [], [], _ => gives_pure true
  | [], _ :: _, _ | _ :: _, [], _ => gives_throw _
  | d0 :: ds0, d1 :: ds1, throughPtr => by
    rw [compareGenericIn, Gen.compareGenericIn]
    refine (compareTypeDesc_gives hctx d0 d1 throughPtr).bind fun same => ?_
    cases same with
    | true => exact compareGenericIn_gives hctx ds0 ds1 throughPtr
    | false => exact gives_pure false

theorem compareTypeDesc_gives (hctx : NoRules ctx) : ∀ (d0 d1 : GenDesc) (throughPtr : Bool),
    Gives (compareTypeDesc ctx d0 d1 throughPtr) (Gen.compareTypeDesc [] d0 d1)
  | .otherGenericBinding _, d1, _ => by cases d1 <;> exact gives_pure _
  | .programType t0, d1, throughPtr => by
    cases d1 with
    | programType t1 => exact compareTypes_gives hctx t0 t1 throughPtr
    | _ => exact gives_pure false
  | .ptrTo d0, d1, _ => by
    cases d1 with
    | ptrTo d1 =>
      rw [compareTypeDesc, Gen.compareTypeDesc]
      exact compareTypeDesc_gives hctx d0 d1 true
    | _ => exact gives_pure false

end

end

end CStrider.Comparison
