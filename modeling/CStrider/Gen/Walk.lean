import CStrider.Gen.Field

/-!
# A walk through the generator

The functions of the generator are put together from few pieces that touch its tables. `Rules P` are
the rules of a judgement `P Q m`, which says something about the computation `m` and that it returns
nothing but `Q`; what has these rules holds of the whole generator (`walk_generate`), once it holds
of the results that enter an element.
-/

namespace CStrider.Gen

/-- The name of a new version, at its end. Elsewhere an `_OUT` is inside of a name. -/
def Macro.isOut : Macro → Bool
  | .out _ => true
  | _ => false

/-- The built-in types, and the name that goes for a `va_list`. -/
def builtinTexts : List String := "__builtin_va_list " :: builtins.map fun p => p.1.text

/-- A name that `render_type` or `has_generics'` can return. -/
def Macro.Rendered : Macro → Prop
  | .lit (.builtin s) => s ∈ builtinTexts
  | .ptr m => m.Rendered
  | .out _ => False
  | _ => True

def GenericType.Rendered : GenericType → Prop
  | .genOk m => m.Rendered
  | _ => True

theorem Macro.Rendered.isOut_eq_false {m : Macro} (h : m.Rendered) : m.isOut = false := by
  cases m with
  | out => exact h.elim
  | _ => rfl

/-- `maintype` and `maintype_out` of `has_generics'`. -/
def mainTypes (base : Macro) (i : Nat) : GenM (Macro × Macro) := do
  let main ← appendDeref base i
  let mainOut ← appendDeref base.out i
  pure (main, mainOut)

/-- The name of an element with a path. -/
def PathElem.typeMacro : PathElem → Macro
  | .typedef nm => .lit (.elem (.typedef nm))
  | .struct nm => .lit (.elem (.struct nm))
  | .union nm => .lit (.elem (.union nm))

theorem renderMacro_pathElem {t : KtTyp} {p : PathElem} (hp : t.pathElem = some p) (b : Bool) :
    renderMacro t b = pure p.typeMacro := by
  cases t with
  | named | struct | union =>
    cases hp
    rfl
  | _ => cases hp

theorem PathElem.hasArrow_typeMacro (p : PathElem) : p.typeMacro.hasArrow = false := by
  cases p <;> rfl

theorem PathElem.rendered_typeMacro (p : PathElem) : p.typeMacro.Rendered := by
  cases p <;> trivial

/-- The rules of a judgement about the generator for `env`. The call of `gencontext_set_xform` and
what `has_generics'` makes of an element with a path count as one piece each. -/
structure Rules (env : Env) (P : ∀ {α : Type}, (α → Prop) → GenM α → Prop) : Prop where
  pure : ∀ {α : Type} {Q : α → Prop} {a : α}, Q a → P Q (pure a)
  throw : ∀ {α : Type} {Q : α → Prop} (e : String), P Q (throw e : GenM α)
  bind : ∀ {α β : Type} {Q : α → Prop} {R : β → Prop} {m : GenM α} {k : α → GenM β}, P Q m →
    (∀ a, Q a → P R (k a)) → P R (m >>= k)
  setXform : ∀ t0 t1, P (fun _ => True) (generateEnqueue env t0 t1) →
    P (fun _ => True) (setXform env t0 t1)
  appendDeref : ∀ {s : Macro}, s.Rendered → ∀ d, P Macro.Rendered (appendDeref s d)
  mainTypes : ∀ (p : PathElem) i, P (fun r => r = (p.typeMacro.ptrs i, p.typeMacro.out.ptrs i))
    (mainTypes p.typeMacro i)
  makeInstance : ∀ (p0 p1 : PathElem) args i, P GenericType.Rendered
    (makeInstance p0 p1 p0.typeMacro (p0.typeMacro.ptrs i) (p0.typeMacro.out.ptrs i) args i)

variable {env : Env} {P : ∀ {α : Type}, (α → Prop) → GenM α → Prop} (w : Rules env @P)
include w

theorem walk_map {α β : Type} {m : GenM α} (f : α → β) (h : P (fun _ => True) m) :
    P (fun _ => True) (f <$> m) := by
  rw [← bind_pure_comp]
  exact w.bind h fun _ _ => w.pure trivial

omit w in
theorem rendered_builtin {s : String} (h : s ∈ builtinTexts) : (Macro.lit s).Rendered := h

omit w in
theorem rendered_charNT : typeCharNT.Rendered := rendered_builtin (by decide)

theorem walk_charNT : P Macro.Rendered (do
    let _ ← appendDeref typeCharNT 1
    pure typeCharNT) :=
  w.bind (w.appendDeref rendered_charNT 1) fun _ _ => w.pure rendered_charNT

omit w in
theorem IKind.rendered_typeMacro (k : IKind) : k.typeMacro.Rendered := by
  cases k <;> exact rendered_builtin (by decide)

omit w in
theorem FKind.rendered_typeMacro (k : FKind) : k.typeMacro.Rendered := by
  cases k <;> exact rendered_builtin (by decide)

omit w in
theorem rendered_opaquePtr : typeOpaquePtr.Rendered := rendered_builtin (by decide)

omit w in
theorem rendered_funptr : typeFunptr.Rendered := rendered_builtin (by decide)

mutual

theorem walk_renderMacro : ∀ (t : KtTyp) (b : Bool),
    P Macro.Rendered (renderMacro t b)
  | .void (some _), _ => w.pure trivial
  | .void none, _ => w.pure rendered_opaquePtr
  | .int k, b => by
    rw [renderMacro]
    split
    · exact walk_charNT w
    · exact w.pure k.rendered_typeMacro
  | .float k, _ => w.pure k.rendered_typeMacro
  | .ptr t g m, b => by
    by_cases h : ∃ k, t = .int k
    · obtain ⟨k, rfl⟩ := h
      rw [renderMacro]
      split
      · exact walk_charNT w
      · exact w.pure k.rendered_typeMacro
    · rw [renderMacro_ptr fun k hk => h ⟨k, hk⟩]
      exact walk_renderMacro t false
  | .ptrArray t len m, b => by
    by_cases h : ∃ k, t = .int k
    · obtain ⟨k, rfl⟩ := h
      rw [renderMacro]
      split
      · exact w.pure IKind.char.rendered_typeMacro
      · exact w.pure k.rendered_typeMacro
    · rw [renderMacro_ptrArray fun k hk => h ⟨k, hk⟩]
      exact walk_renderMacro t false
  | .array t _, b => walk_renderMacro t false
  | .fn _ args _, _ => w.bind (walk_renderArgs args) fun _ _ => w.pure rendered_funptr
  | .ptrOpaque _, _ => w.pure rendered_opaquePtr
  | .named _ _, _ | .struct _ _, _ | .union _ _, _ => w.pure trivial
  | .enum _, _ => w.pure IKind.int.rendered_typeMacro
  | .vaList, _ => w.pure (rendered_builtin (by decide))

theorem walk_renderArgs : ∀ args : List (String × KtTyp), P (fun _ => True) (renderArgs args)
  | [] => w.pure trivial
  | (_, t) :: args => w.bind (walk_renderMacro t false) fun _ _ => walk_renderArgs args

end

theorem walk_enqueueOther (t0 t1 : KtTyp) : P (fun _ => True) (enqueueOther t0 t1) := by
  unfold enqueueOther
  split
  · exact w.bind (walk_renderMacro w _ _) fun _ _ => w.pure trivial
  · exact w.pure trivial
  · exact w.throw _

theorem walk_enqueueFlat (t0 t1 : KtTyp) : P (fun _ => True) (enqueueFlat t0 t1) := by
  unfold enqueueFlat
  split
  any_goals exact w.pure trivial
  exact walk_enqueueOther w _ _

section

theorem walk_generateEnqueue :
    ∀ t0 t1 : KtTyp, P (fun _ => True) (generateEnqueue env t0 t1)
  | .ptr t0 g0 m0, t1 => by
    rw [generateEnqueue]
    split
    · split
      · split
        · exact w.pure trivial
        · exact w.throw _
      · split
        · exact w.pure trivial
        · exact walk_generateEnqueue t0 _
    · exact walk_enqueueOther w _ _
  | .ptrArray t0 len0 m0, t1 | .array t0 len0, t1 => by
    rw [generateEnqueue]
    split
    · split
      · exact walk_generateEnqueue t0 _
      · exact w.throw _
    · exact walk_enqueueOther w _ _
  | .void _, t1 | .int _, t1 | .float _, t1 | .ptrOpaque _, t1 | .fn _ _ _, t1 | .named _ _, t1
  | .struct _ _, t1 | .union _ _, t1 | .enum _, t1 | .vaList, t1 => walk_enqueueFlat w _ _

theorem walk_noGenerics (t0 t1 : KtTyp) :
    P GenericType.Rendered (noGenerics t0 t1) := by
  unfold noGenerics
  split
  any_goals exact w.pure trivial
  exact w.throw _

theorem walk_genericInstance (t0 t1 : KtTyp) {args : GenM (List Macro)}
    (h : P (fun _ => True) args) (i : Nat) :
    P GenericType.Rendered (genericInstance env t0 t1 args i) := by
  unfold genericInstance
  split
  · next p0 p1 hp _ =>
    split
    · exact w.pure trivial
    · split
      · exact w.throw _
      · split
        · exact w.pure trivial
        · rw [renderMacro_pathElem hp, pure_bind]
          -- the calls for both versions count as one
          have both := w.bind (R := GenericType.Rendered)
            (w.mainTypes p0 i) fun p hp => w.bind h fun args _ => (by
              rw [hp]
              exact w.makeInstance p0 p1 args i :
              P _ (makeInstance p0 p1 p0.typeMacro p.1 p.2 args i))
          simpa only [CStrider.Gen.mainTypes, bind_assoc, pure_bind] using both
  · exact w.throw _

mutual

theorem walk_hasGenerics' : ∀ (t0 t1 : KtTyp) (i : Nat),
    P GenericType.Rendered (hasGenerics' env t0 t1 i)
  | .ptrArray t0 _ _, t1, i => by
    cases t1 with
    | ptrArray t1 => exact walk_hasGenerics' t0 t1 (i + 1)
    | _ => exact walk_noGenerics w _ _
  | .array t0 _, t1, i => by
    cases t1 with
    | array t1 => exact walk_hasGenerics' t0 t1 (i + 1)
    | _ => exact walk_noGenerics w _ _
  | .ptr t0 _ _, t1, i => by
    cases t1 with
    | ptr t1 => exact walk_hasGenerics' t0 t1 (i + 1)
    | _ => exact walk_noGenerics w _ _
  | .named nm gs, t1, i => by
    rw [hasGenerics']
    split
    · exact walk_noGenerics w _ _
    · exact walk_genericInstance w _ _ (walk_genIns gs _) i
  | .struct nm gs, t1, i => by
    rw [hasGenerics']
    exact walk_genericInstance w _ _ (walk_genIns gs _) i
  | .union nm gs, t1, i => by
    rw [hasGenerics']
    split
    · exact w.pure trivial
    · exact walk_genericInstance w _ _ (walk_genIns gs _) i
  | .void _, t1, _ | .int _, t1, _ | .float _, t1, _ | .ptrOpaque _, t1, _ | .fn _ _ _, t1, _
  | .enum _, t1, _ | .vaList, t1, _ => walk_noGenerics w _ _

theorem walk_genIns : ∀ ds0 ds1 : List GenDesc, P (fun _ => True) (genIns env ds0 ds1)
  | [], [] => w.pure trivial
  | d0 :: ds0, d1 :: ds1 =>
    w.bind (walk_genIn d0 d1 false) fun _ _ => w.bind (walk_genIns ds0 ds1) fun _ _ => w.pure trivial
  | [], _ :: _ | _ :: _, [] => w.throw _

theorem walk_genIn : ∀ (d0 d1 : GenDesc) (b : Bool),
    P Macro.Rendered (genIn env d0 d1 b)
  | .otherGenericBinding n0, d1, b => by
    cases d1 with
    | otherGenericBinding n1 =>
      rw [genIn]
      split
      · exact w.pure trivial
      · exact w.throw _
    | _ => exact w.throw _
  | .programType t0, d1, b => by
    cases d1 with
    | programType t1 =>
      refine w.bind (walk_hasGenerics' t0 t1 1) fun r hr => ?_
      cases r with
      | genOk m => exact w.pure hr
      | genMakeMe => exact w.pure trivial
      | genNone => exact walk_renderMacro w t0 b
    | _ => exact w.throw _
  | .ptrTo d0, d1, b => by
    cases d1 with
    | ptrTo d1 => exact w.bind (walk_genIn d0 d1 true) fun _ hm => w.appendDeref hm 1
    | _ => exact w.throw _

end

theorem walk_elemType (t0 t1 : KtTyp) : P (fun _ => True) (elemType env t0 t1) := by
  refine w.bind (walk_hasGenerics' w t0 t1 0) fun r _ => ?_
  cases r with
  | genOk m => exact w.pure trivial
  | genMakeMe =>
    exact w.bind (walk_renderMacro w t0 false) fun _ hm => w.bind (w.appendDeref hm _) fun _ _ =>
      w.pure trivial
  | genNone =>
    exact w.bind (w.setXform t0 t1 (walk_generateEnqueue w t0 t1)) fun _ _ =>
      w.bind (walk_renderMacro w t0 false) fun _ hm => w.bind (w.appendDeref hm _) fun _ _ =>
        w.pure trivial

theorem walk_lenToString (len : ArrayLen) : P (fun _ => True) (lenToString len) := by
  cases len with
  | int | field => exact w.pure trivial
  | unknown | nullterm => exact w.throw _

theorem walk_useArray (t0 t1 : KtTyp) : P (fun _ => True) (useArray t0 t1) := by
  induction t0, t1 using useArray.induct with
  | case1 | case2 =>
    rw [useArray]
    exact walk_map w _ (walk_lenToString w _)
  | case3 _ _ _ _ _ _ ih =>
    rw [useArray]
    exact ih
  | case4 t0 t1 h1 h2 h3 =>
    rw [useArray]
    · exact w.pure trivial
    all_goals assumption

theorem walk_visitType (t0 t1 : KtTyp) : P (fun _ => True) (visitType env t0 t1) :=
  w.bind (walk_elemType w t0 t1) fun _ _ =>
    w.bind (walk_useArray w t0 t1) fun _ _ => w.pure trivial

theorem walk_generateFields (ms : List FieldMatch) :
    P (fun _ => True) (generateFields env ms) := by
  induction ms with
  | nil => exact w.pure trivial
  | cons m ms ih =>
    cases m with
    | other => exact ih
    | auto f0 f1 t0 t1 =>
      have field : P (fun _ => True) (generateFieldXform env f0 f1 t0 t1) := by
        unfold generateFieldXform
        split
        · exact w.pure trivial
        · exact w.bind (walk_visitType w t0 t1) fun _ _ => w.pure trivial
      exact w.bind field fun _ _ => w.bind ih fun _ _ => w.pure trivial

theorem walk_generateAutoBody (e0 e1 : Elem) (info : MatchInfo) :
    P (fun _ => True) (generateAutoBody env e0 e1 info) := by
  cases info with
  | struct fields => exact walk_generateFields w fields
  | union => exact w.pure trivial
  | typedef | enum => exact w.bind (walk_visitType w _ _) fun _ _ => w.pure trivial

theorem walk_var (t0 t1 : KtTyp) : P (fun _ => True) (generateTransFunc env (.var t0 t1)) := by
  refine w.bind (walk_elemType w t0 t1) fun _ _ => ?_
  split
  · exact w.pure trivial
  · exact w.bind (walk_useArray w t0 t1) fun _ _ => w.pure trivial

theorem walk_type (e0 e1 : Elem) (info : MatchInfo)
    (elem : ∀ f, P (fun _ => True) (extend (.elem e0 e1 f))) :
    P (fun _ => True) (generateTransFunc env (.type e0 e1 info)) :=
  w.bind (walk_generateEnqueue w _ _) fun f _ => w.bind (elem f) fun _ _ =>
    walk_generateAutoBody w e0 e1 info

/-- What holds of the pieces holds of every run of the generator. -/
theorem walk_generate {ms : List Matched} (type : ∀ e0 e1 info, .type e0 e1 info ∈ ms →
    P (fun _ => True) (generateTransFunc env (.type e0 e1 info))) :
    P (fun _ => True) (generate env ms) := by
  induction ms with
  | nil => exact w.pure trivial
  | cons m ms ih =>
    have result : P (fun _ => True) (generateTransFunc env m) := by
      cases m with
      | type e0 e1 info => exact type e0 e1 info List.mem_cons_self
      | var t0 t1 => exact walk_var w t0 t1
    have rest := ih fun e0 e1 info hm => type e0 e1 info (List.mem_cons_of_mem m hm)
    exact w.bind result fun _ _ => w.bind rest fun _ _ => w.pure trivial

end

end CStrider.Gen
