import CStrider.Gen.Seen

/-!
# Where the comparison of types breaks off

`compareGenericIn` is a `List.for_all2`, which raises `Invalid_argument` on lists of different
lengths. Without rename rules that is the only exception of `compareTypes`, and it is raised when
all arguments before the end of the shorter list compare equal (`KtTyp.Clash`).
-/

namespace CStrider.Gen

/-- What `compareTypeDesc` looks at. -/
def GenDesc.seen (d : GenDesc) : GenDesc := d.view (fun _ => .float) (fun _ => none)

mutual

/-- The types are alike down to argument lists that only differ in their lengths. -/
def KtTyp.Clash : KtTyp → KtTyp → Prop
  | .ptr t0 _ _, .ptr t1 _ _ => t0.Clash t1
  | .ptrArray t0 _ _, .ptrArray t1 _ _ => t0.Clash t1
  | .array t0 len0, .array t1 len1 => len0 = len1 ∧ t0.Clash t1
  | .named nm0 gs0, .named nm1 gs1 => nm0 = nm1 ∧ GenDesc.Clashes gs0 gs1
  | .struct nm0 gs0, .struct nm1 gs1 => nm0 = nm1 ∧ GenDesc.Clashes gs0 gs1
  | .union nm0 gs0, .union nm1 gs1 => nm0 = nm1 ∧ GenDesc.Clashes gs0 gs1
  | _, _ => False

def GenDesc.Clashes : List GenDesc → List GenDesc → Prop
  | [], [] => False
  | d0 :: ds0, d1 :: ds1 => d0.Clash d1 ∨ d0.seen = d1.seen ∧ GenDesc.Clashes ds0 ds1
  | _, _ => True

def GenDesc.Clash : GenDesc → GenDesc → Prop
  | .programType t0, .programType t1 => t0.Clash t1
  | .ptrTo d0, .ptrTo d1 => d0.Clash d1
  | _, _ => False

end

section

variable {m : Except String Bool}

/-- An exception is raised. -/
def Raises (m : Except String Bool) : Prop := ∃ e, m = .error e

theorem not_raises_pure (b : Bool) : ¬ Raises (pure b) := nofun

theorem raises_and {b : Bool → Bool} : Raises (do let same ← m; pure (b same)) ↔ Raises m := by
  cases m with
  | error e => exact iff_of_true ⟨e, rfl⟩ ⟨e, rfl⟩
  | ok same => exact iff_of_false nofun nofun

/-- The second half is only reached from a first one that is true. -/
theorem raises_all {m' : Except String Bool} :
    Raises (do if ← m then m' else pure false) ↔ Raises m ∨ m = .ok true ∧ Raises m' := by
  cases m with
  | error e => exact iff_of_true ⟨e, rfl⟩ (.inl ⟨e, rfl⟩)
  | ok same =>
    cases same with
    | true =>
      constructor
      · exact fun h => .inr ⟨rfl, h⟩
      · rintro (⟨_, h⟩ | ⟨_, h⟩)
        · cases h
        · exact h
    | false =>
      refine iff_of_false nofun ?_
      rintro (⟨_, h⟩ | ⟨h, _⟩) <;> cases h

theorem raises_comparePaths {p0 p1 : PathElem} :
    Raises (comparePaths [] p0 p1 m) ↔ p0 = p1 ∧ Raises m := by
  have renamed : typeRenamed [] p0 p1 = .ok none := rfl
  rw [comparePaths, renamed]
  change Raises (if p0 = p1 then m else pure false) ↔ _
  split
  · next h => simp [h]
  · next h => exact iff_of_false (not_raises_pure false) fun h' => h h'.1

end

mutual

theorem raises_compareTypes : ∀ t0 t1 : KtTyp, Raises (compareTypes [] t0 t1) ↔ t0.Clash t1
  | .void g0, t1 | .int k0, t1 | .float k0, t1 | .ptrOpaque t0, t1 | .enum nm, t1 | .vaList, t1
  | .fn rt args va, t1 => by
    cases t1 <;> exact iff_of_false (not_raises_pure _) id
  | .ptr t0 g0 m0, t1 => by
    cases t1 with
    | ptr t1 g1 m1 =>
      rw [compareTypes, raises_and, raises_compareTypes t0 t1]
      rfl
    | _ => exact iff_of_false (not_raises_pure _) id
  | .ptrArray t0 len0 m0, t1 => by
    cases t1 with
    | ptrArray t1 len1 m1 =>
      rw [compareTypes, raises_and, raises_compareTypes t0 t1]
      rfl
    | _ => exact iff_of_false (not_raises_pure _) id
  | .array t0 len0, t1 => by
    cases t1 with
    | array t1 len1 =>
      have ih := raises_compareTypes t0 t1
      rw [compareTypes, KtTyp.Clash]
      split
      · next h => rw [ih, and_iff_right h]
      · next h => exact iff_of_false (not_raises_pure _) fun h' => h h'.1
    | _ => exact iff_of_false (not_raises_pure _) id
  | .named nm gs, t1 | .struct nm gs, t1 | .union nm gs, t1 => by
    have ih := raises_compareGenericIn gs t1.genIns
    cases t1 <;>
      simp_all [compareTypes, KtTyp.pathElem, KtTyp.genIns, raises_comparePaths, KtTyp.Clash,
        not_raises_pure]

theorem raises_compareGenericIn : ∀ ds0 ds1 : List GenDesc,
    Raises (compareGenericIn [] ds0 ds1) ↔ GenDesc.Clashes ds0 ds1
  | [], [] => iff_of_false (not_raises_pure _) id
  | [], _ :: _ | _ :: _, [] => iff_of_true ⟨_, rfl⟩ trivial
  | d0 :: ds0, d1 :: ds1 => by
    rw [compareGenericIn, raises_all, raises_compareTypeDesc d0 d1, compareTypeDesc_iff d0 d1,
      raises_compareGenericIn ds0 ds1]
    rfl

theorem raises_compareTypeDesc : ∀ d0 d1 : GenDesc,
    Raises (compareTypeDesc [] d0 d1) ↔ d0.Clash d1
  | .otherGenericBinding n0, d1 => by
    cases d1 <;> exact iff_of_false (not_raises_pure _) id
  | .programType t0, d1 => by
    cases d1 with
    | programType t1 => exact raises_compareTypes t0 t1
    | _ => exact iff_of_false (not_raises_pure _) id
  | .ptrTo d0, d1 => by
    cases d1 with
    | ptrTo d1 =>
      rw [compareTypeDesc, raises_compareTypeDesc d0 d1]
      rfl
    | _ => exact iff_of_false (not_raises_pure _) id

end

open Classical in
/-- Where the comparison does not break off, its result is whether it sees the same. -/
theorem compareTypes_eq {t0 t1 : KtTyp} (h : ¬ t0.Clash t1) :
    compareTypes [] t0 t1 = .ok (decide (t0.seen = t1.seen)) := by
  cases hres : compareTypes [] t0 t1 with
  | error e => exact absurd ((raises_compareTypes t0 t1).mp ⟨e, hres⟩) h
  | ok same =>
    rw [Except.ok.injEq, Bool.eq_iff_iff, decide_eq_true_iff, ← compareTypes_iff, hres,
      Except.ok.injEq]

end CStrider.Gen
