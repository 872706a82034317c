import CStrider.Gen.Faithful

/-!
# Generic arguments of a field

`has_generics'` looks at the head of the argument list only. If that is a parameter of the
enclosing type, the field gets the whole argument vector of the enclosing type as it is; if it is
not, the list becomes the name of a static instance, whose argument array is filled at file scope
where no parameter is bound, unless a type of that name is listed already. A generic instance as an
argument is named as a pointer, because `generate_genin_xform_fullinner_type` looks for its name one
pointer down.
-/

namespace CStrider.Gen

/-! ## Names of arguments

At run time a type goes by its enumerator, so that a type of the running program is a name here. -/

/-- The name of a type with arguments. -/
def applied (head : String) : List String → String
  | [] => head
  | args => head ++ "_OF_" ++ String.intercalate "__" args

mutual

/-- A generic argument with `ρ` for the parameters; characters below a pointer are strings. -/
def GenDesc.inst (ρ : String → String) : GenDesc → (below : Bool) → String
  | .otherGenericBinding n, _ => ρ n
  | .programType t, below => t.typeName ρ below
  | .ptrTo d, _ => d.inst ρ true ++ "_PTR"

def KtTyp.typeName (ρ : String → String) : KtTyp → (below : Bool) → String
  | .int k, below => (if k.isChar && below then typeCharNT else k.typeMacro).text
  | .named nm gs, _ => applied ("TYPE_" ++ nm) (GenDesc.insts ρ gs)
  | .struct nm gs, _ => applied ("TYPE_STRUCT_" ++ nm) (GenDesc.insts ρ gs)
  | .union nm gs, _ => applied ("TYPE_UNION_" ++ nm) (GenDesc.insts ρ gs)
  | .enum _, _ => IKind.int.typeMacro.text
  | t, _ => t.name.text

def GenDesc.insts (ρ : String → String) : List GenDesc → List String
  | [] => []
  | d :: ds => d.inst ρ false :: GenDesc.insts ρ ds

end

/-- The argument of a parameter in an instance of the enclosing type. -/
def bindArgs (ps : List String) (args : List String) (p : String) : String :=
  ((ps.zip args).lookup p).getD ""

/-- The arguments that a type carries when the function of the enclosing type runs with `args`,
after `build_gen_arrays` with the tables `g`. -/
def TypeExpr.carried (g : GenCtx) (args : List String) : TypeExpr → Option (List String)
  | .name m => (g.argsOf m).map Macro.texts
  | .mktypptr e | .mktyparr _ e => e.carried g args
  | .mktypfromgenargs _ => some args

/-! ## Well-formed generic types -/

namespace Env

variable (env : Env)

def Complete (nm : String) : Prop := env.incompleteOld nm = none ∧ env.incompleteNew nm = none

/-- A type with path element `p` takes `n` arguments. -/
def Arity (p : PathElem) (n : Nat) : Prop := (env.xformGenerics (.xform p p)).length = n

/-- A typedef for `void` or a function in both versions. -/
def Opaque (nm : String) : Prop := ∃ i, env.incompleteOld nm = some i ∧
  env.incompleteNew nm = some i ∧ ∀ g, i ≠ .void (some g)

end Env

mutual

/-- A type of the program without parameters. -/
def Concrete (env : Env) : KtTyp → Prop
  | .int _ | .float _ | .enum _ | .ptrOpaque _ => True
  | .named nm gs =>
    (env.Complete nm ∧ env.Arity (.typedef nm) gs.length ∧ ConcreteDescs env gs) ∨
      (env.Opaque nm ∧ gs = [])
  | .struct nm gs => env.Arity (.struct nm) gs.length ∧ ConcreteDescs env gs
  | .union _ gs => gs = []
  | _ => False

def ConcreteDesc (env : Env) : GenDesc → Prop
  | .otherGenericBinding _ => False
  | .programType t => Concrete env t
  | .ptrTo d => ConcreteDesc env d

def ConcreteDescs (env : Env) : List GenDesc → Prop
  | [] => True
  | d :: ds => ConcreteDesc env d ∧ ConcreteDescs env ds

end

/-- An argument of a field in a type with the parameters `ps`. -/
def Argument (env : Env) (ps : List String) : GenDesc → Prop
  | .otherGenericBinding n => n ∈ ps
  | .programType t => Concrete env t
  | .ptrTo d => Argument env ps d

/-- A program type that takes no arguments itself, or pointers to one. -/
def GenDesc.Static : GenDesc → Prop
  | .otherGenericBinding _ => False
  | .programType t => t.genIns = []
  | .ptrTo d => d.Static

/-- `t` is `u` below pointers and arrays. -/
inductive Wraps (u : KtTyp) : KtTyp → Prop
  | here : Wraps u u
  | ptr {t : KtTyp} {g : Option String} {m : MemMgmt} : Wraps u t → Wraps u (.ptr t g m)
  | ptrArray {t : KtTyp} {len : ArrayLen} {m : MemMgmt} : len.Known → Wraps u t →
      Wraps u (.ptrArray t len m)
  | array {t : KtTyp} {len : ArrayLen} : len.Known → Wraps u t → Wraps u (.array t len)

/-- A generic struct or typedef applied to arguments of an enclosing type with parameters `ps`. -/
inductive GenericUse (env : Env) (ps : List String) : KtTyp → Prop
  | named {nm : String} {gs : List GenDesc} : env.Complete nm →
      env.Arity (.typedef nm) gs.length → gs ≠ [] → (∀ d ∈ gs, Argument env ps d) →
      GenericUse env ps (.named nm gs)
  | struct {nm : String} {gs : List GenDesc} : env.Arity (.struct nm) gs.length → gs ≠ [] →
      (∀ d ∈ gs, Argument env ps d) → GenericUse env ps (.struct nm gs)

/-! ## What is rendered for an argument -/

/-- The name that the runtime entries of a type with a path element start with. -/
def KtTyp.label : KtTyp → Label
  | .named nm _ => .elem (.typedef nm)
  | .struct nm _ => .elem (.struct nm)
  | .union nm _ => .elem (.union nm)
  | _ => .builtin ""

/-- A type as an argument: an instance is taken one pointer down. -/
def nested (s : Label) : List Macro → Macro
  | [] => .lit s
  | args => .ofArgs (.ptr (.lit s)) args

mutual

/-- What `generate_genin_xform_fullinner_type` makes of an argument. -/
def GenDesc.rendered : GenDesc → (isrecall : Bool) → Macro
  | .otherGenericBinding n, _ => .genArg n
  | .programType t, b => t.rendered b
  | .ptrTo d, _ => (d.rendered true).ptr

def KtTyp.rendered : KtTyp → (isrecall : Bool) → Macro
  | .int k, b => if k.isChar && b then typeCharNT else k.typeMacro
  | .named nm gs, _ => nested (.elem (.typedef nm)) (GenDesc.rendereds gs)
  | .struct nm gs, _ => nested (.elem (.struct nm)) (GenDesc.rendereds gs)
  | .union nm gs, _ => nested (.elem (.union nm)) (GenDesc.rendereds gs)
  | .enum _, _ => IKind.int.typeMacro
  | t, _ => t.name

def GenDesc.rendereds : List GenDesc → List Macro
  | [] => []
  | d :: ds => d.rendered false :: GenDesc.rendereds ds

end

/-- The name of an instance behind `i` pointers. -/
def KtTyp.instanceName (t : KtTyp) (i : Nat) : Macro :=
  .ofArgs ((Macro.lit t.label).ptrs i) (GenDesc.rendereds t.genIns)

section Render

variable {env : Env}

theorem noGenerics_opaque {i : Incomplete} (h : ∀ g, i ≠ .void (some g)) :
    noGenerics i.typ i.typ = pure .genNone := by
  cases i with
  | fn => rfl
  | void g =>
    cases g with
    | none => rfl
    | some g => exact absurd rfl (h g)

theorem Env.Arity.eq_nil_iff {p : PathElem} {gs : List GenDesc} (h : env.Arity p gs.length) :
    env.xformGenerics (.xform p p) = [] ↔ gs = [] := by
  rw [← List.length_eq_zero_iff, h, List.length_eq_zero_iff]

theorem concreteDesc_of_head {ps : List String} : ∀ d : GenDesc, Argument env ps d →
    isGentType d = false → ConcreteDesc env d
  | .otherGenericBinding _, _, hd => by cases hd
  | .programType _, h, _ => h
  | .ptrTo d, h, hd => concreteDesc_of_head d h hd

theorem isGentType_concrete : ∀ d : GenDesc, ConcreteDesc env d → isGentType d = false
  | .otherGenericBinding _, h => h.elim
  | .programType _, _ => rfl
  | .ptrTo d, h => isGentType_concrete d h

/-! ### Lengths -/

/-- What `S.concat "__"` makes of the names of arguments. -/
def joined (ms : List Macro) : String := String.intercalate "__" (Macro.texts ms)

theorem joined_cons (m : Macro) (ms : List Macro) :
    m.text.length ≤ (joined (m :: ms)).length ∧
      (joined ms).length ≤ (joined (m :: ms)).length := by
  cases ms with
  | nil => simp [joined, Macro.texts]
  | cons n ms =>
    simp only [joined, Macro.texts, String.intercalate_cons_cons, String.length_append]
    omega

theorem length_ofArgs (m : Macro) (ms : List Macro) :
    (Macro.ofArgs m ms).text.length = m.text.length + 4 + (joined ms).length := by
  simp only [Macro.text, String.length_append, joined]
  rfl

theorem five_le_nested (e : Elem) (ms : List Macro) : 5 ≤ (nested (.elem e) ms).text.length := by
  have := e.five_le_length
  cases ms with
  | nil => exact this
  | cons m ms =>
    rw [nested, length_ofArgs, Macro.text, String.length_append, Macro.text]
    · omega
    · simp

theorem IKind.five_le_length (k : IKind) : 5 ≤ k.typeMacro.text.length := by cases k <;> decide

theorem FKind.five_le_length (k : FKind) : 5 ≤ k.typeMacro.text.length := by cases k <;> decide

theorem five_le_rendered : ∀ (d : GenDesc) (b : Bool), ConcreteDesc env d →
    5 ≤ (d.rendered b).text.length
  | .otherGenericBinding _, _, h => h.elim
  | .programType t, b, h => by
    cases t with
    | int k =>
      rw [GenDesc.rendered, KtTyp.rendered]
      split
      · decide
      · exact k.five_le_length
    | float k => exact k.five_le_length
    | enum => exact IKind.int.five_le_length
    | ptrOpaque => exact (by decide : 5 ≤ typeOpaquePtr.text.length)
    | named | struct | union => exact five_le_nested _ _
    | _ => exact h.elim
  | .ptrTo d, b, h => by
    rw [GenDesc.rendered, Macro.text, String.length_append]
    exact Nat.le_add_right_of_le (five_le_rendered d true h)

/-! ### Running the generator -/

theorem returnsBelow_makeInstance (p0 p1 : PathElem) {base : Macro} (h : base.hasArrow = false)
    (main mainOut : Macro) (args : List Macro) (i : Nat) {n : Nat}
    (hn : (Macro.ofArgs main args).text.length + 4 < n)
    (ht : base.text.length + 4 * i + (joined args).length + 8 < n) :
    ReturnsBelow n (makeInstance p0 p1 base main mainOut args i) (.genOk (.ofArgs main args)) := by
  have out : "_OUT".length = 4 := rfl
  refine .bind (.unlessListed (.bind (.extend ?_) ?_)) (.pure _)
  · rintro _ ⟨⟩
    simp only [Instance.name, Macro.text, String.length_append] at hn ⊢
    omega
  · split
    · exact .pure _
    · refine .unlessListed (.bind (returnsBelow_appendDeref h ?_) (.extend ?_))
      · omega
      · rintro _ ⟨⟩
        have name := length_ofArgs (base.ptrs (i - 1)) args
        rw [Macro.length_ptrs] at name
        rw [Macro.text, String.length_append]
        change (Macro.ofArgs (base.ptrs (i - 1)) args).text.length < n ∧
          (Macro.ofArgs (base.ptrs (i - 1)) args).text.length + "_OUT".length < n
        omega

/-- With a first argument that is no parameter, the last clause of `has_generics'` comes to
naming an instance. -/
theorem genericInstance_eq {t : KtTyp} {p : PathElem} {d : GenDesc} {ds : List GenDesc}
    (args : GenM (List Macro)) (hp : t.pathElem = some p) (hgs : t.genIns = d :: ds)
    (har : env.Arity p t.genIns.length) (hd : isGentType d = false) (i : Nat) :
    genericInstance env t t args i = (do
      let base ← renderMacro t false
      let main ← appendDeref base i
      let mainOut ← appendDeref base.out i
      let args ← args
      makeInstance p p base main mainOut args i) := by
  have generic : env.xformGenerics (.xform p p) ≠ [] := by
    rw [Ne, har.eq_nil_iff, hgs]
    exact List.cons_ne_nil d ds
  simp only [genericInstance, hp, generic, if_false, hgs, hd, Bool.false_eq_true]

theorem returns_label {t : KtTyp} {p : PathElem} (hp : t.pathElem = some p) :
    renderMacro t false = pure (.lit t.label) := by
  cases t with
  | named | struct | union => rfl
  | _ => cases hp

theorem returnsBelow_genericInstance {t : KtTyp} {p : PathElem} {d : GenDesc} {ds : List GenDesc}
    {args : GenM (List Macro)} (hp : t.pathElem = some p) (hgs : t.genIns = d :: ds)
    (har : env.Arity p t.genIns.length) (hd : isGentType d = false)
    (hargs : ReturnsBelow ((joined (GenDesc.rendereds (d :: ds))).length + 9) args
      (GenDesc.rendereds (d :: ds))) (i : Nat) :
    ReturnsBelow ((t.instanceName i).text.length + 9) (genericInstance env t t args i)
      (.genOk (t.instanceName i)) := by
  rw [genericInstance_eq args hp hgs har hd, returns_label hp, pure_bind]
  have out : (Macro.lit t.label).out.text.length = (Macro.lit t.label).text.length + 4 :=
    String.length_append _ _
  have len := length_ofArgs ((Macro.lit t.label).ptrs i) (GenDesc.rendereds (d :: ds))
  rw [Macro.length_ptrs] at len
  rw [KtTyp.instanceName, hgs]
  refine .bind (returnsBelow_appendDeref rfl ?_) (.bind (returnsBelow_appendDeref rfl ?_)
    (.bind (hargs.mono ?_) (returnsBelow_makeInstance p p rfl _ _ _ i ?_ ?_)))
  all_goals omega

theorem returnsBelow_charNT : ReturnsBelow 21 (do
    let _ ← appendDeref typeCharNT 1
    pure typeCharNT) typeCharNT :=
  .bind (returnsBelow_appendDeref rfl (by decide)) (.pure _)

/-- A type that takes no arguments is rendered as what it stands for. -/
theorem returnsBelow_static {t : KtTyp} (h : Concrete env t) (hs : t.genIns = []) (b : Bool) :
    ReturnsBelow ((t.rendered b).text.length + 9) (renderMacro t b) (t.rendered b) := by
  cases t with
  | int k =>
    rw [renderMacro, KtTyp.rendered]
    split
    · exact returnsBelow_charNT
    · exact .pure _
  | float | enum | ptrOpaque => exact .pure _
  | named | struct | union =>
    obtain rfl := hs
    exact .pure _
  | _ => exact h.elim

theorem hasArrow_nested (s : Label) {ms : List Macro} (h : Macro.anyArrow ms = false) :
    (nested s ms).hasArrow = false := by
  cases ms with
  | nil => rfl
  | cons m ms =>
    rw [nested, Macro.hasArrow, h]
    · rfl
    · simp

mutual

theorem hasArrow_concrete : ∀ (t : KtTyp) (b : Bool), Concrete env t →
    (t.rendered b).hasArrow = false
  | .int k, b, _ => by
    rw [KtTyp.rendered]
    split
    · rfl
    · cases k <;> rfl
  | .float k, _, _ => by cases k <;> rfl
  | .enum _, _, _ | .ptrOpaque _, _, _ => rfl
  | .named nm gs, _, h => by
    rcases h with ⟨-, -, hgs⟩ | ⟨-, rfl⟩
    · exact hasArrow_nested _ (anyArrow_concrete gs hgs)
    · rfl
  | .struct nm gs, _, h => hasArrow_nested _ (anyArrow_concrete gs h.2)
  | .union nm gs, _, h => by
    obtain rfl := h
    rfl

theorem anyArrow_concrete : ∀ ds : List GenDesc, ConcreteDescs env ds →
    Macro.anyArrow (GenDesc.rendereds ds) = false
  | [], _ => rfl
  | d :: ds, h => by
    rw [GenDesc.rendereds, Macro.anyArrow, hasArrow_concreteDesc d false h.1,
      anyArrow_concrete ds h.2]
    rfl

theorem hasArrow_concreteDesc : ∀ (d : GenDesc) (b : Bool), ConcreteDesc env d →
    (d.rendered b).hasArrow = false
  | .otherGenericBinding _, _, _ => rfl
  | .programType t, b, h => hasArrow_concrete t b h
  | .ptrTo d, b, h => by rw [GenDesc.rendered, Macro.hasArrow, hasArrow_concreteDesc d true h]

end

theorem hasArrow_argument {ps : List String} : ∀ (d : GenDesc) (b : Bool), Argument env ps d →
    (d.rendered b).hasArrow = false
  | .otherGenericBinding _, _, _ => rfl
  | .programType t, b, h => hasArrow_concrete t b h
  | .ptrTo d, b, h => by rw [GenDesc.rendered, Macro.hasArrow, hasArrow_argument d true h]

theorem returnsBelow_ptrTo {d : GenDesc} {b : Bool} (harr : (d.rendered true).hasArrow = false)
    (h : ReturnsBelow ((d.rendered true).text.length + 9) (genIn env d d true) (d.rendered true)) :
    ReturnsBelow (((GenDesc.ptrTo d).rendered b).text.length + 9)
      (genIn env (.ptrTo d) (.ptrTo d) b) ((GenDesc.ptrTo d).rendered b) := by
  have ptr : ((GenDesc.ptrTo d).rendered b).text.length = (d.rendered true).text.length + 4 :=
    String.length_append _ _
  rw [ptr]
  exact .bind (h.mono (by omega)) (returnsBelow_appendDeref harr (by omega))

mutual

/-- `has_generics'` on a type without parameters: nothing, or the name of an instance. -/
theorem returnsBelow_concrete : ∀ t : KtTyp, Concrete env t → ∀ i,
    (t.genIns = [] ∧ ReturnsBelow 0 (hasGenerics' env t t i) .genNone) ∨
      (t.genIns ≠ [] ∧ (∀ b, t.rendered b = t.instanceName 1) ∧
        ReturnsBelow ((t.instanceName i).text.length + 9) (hasGenerics' env t t i)
          (.genOk (t.instanceName i)))
  | .int _, _, _ | .float _, _, _ | .enum _, _, _ | .ptrOpaque _, _, _ => .inl ⟨rfl, .pure _⟩
  | .union nm gs, h, i => .inl ⟨h, .pure _⟩
  | .struct nm gs, h, i => by
    obtain ⟨har, hgs⟩ := h
    rw [hasGenerics']
    cases gs with
    | nil =>
      refine .inl ⟨rfl, ?_⟩
      simp only [genericInstance, KtTyp.pathElem, Env.newTyp, har.eq_nil_iff.mpr rfl, if_true]
      exact .pure _
    | cons d ds =>
      refine .inr ⟨List.cons_ne_nil d ds, fun b => rfl, ?_⟩
      exact returnsBelow_genericInstance rfl rfl har (isGentType_concrete d hgs.1)
        (returnsBelow_concreteDescs (d :: ds) hgs) i
  | .named nm gs, h, i => by
    rw [hasGenerics']
    rcases h with ⟨hc, har, hgs⟩ | ⟨⟨inc, h0, h1, hv⟩, rfl⟩
    · have new : env.newTyp (.named nm gs) = .named nm gs := by simp [Env.newTyp, hc.2]
      rw [hc.1]
      simp only [new]
      cases gs with
      | nil =>
        refine .inl ⟨rfl, ?_⟩
        simp only [genericInstance, KtTyp.pathElem, har.eq_nil_iff.mpr rfl, if_true]
        exact .pure _
      | cons d ds =>
        refine .inr ⟨List.cons_ne_nil d ds, fun b => rfl, ?_⟩
        exact returnsBelow_genericInstance rfl rfl har (isGentType_concrete d hgs.1)
          (returnsBelow_concreteDescs (d :: ds) hgs) i
    · refine .inl ⟨rfl, ?_⟩
      simp only [h0, Env.newTyp, h1, Option.map_some, Option.getD_some, noGenerics_opaque hv]
      exact .pure _

theorem returnsBelow_concreteDescs : ∀ ds : List GenDesc, ConcreteDescs env ds →
    ReturnsBelow ((joined (GenDesc.rendereds ds)).length + 9) (genIns env ds ds)
      (GenDesc.rendereds ds)
  | [], _ => .pure _
  | d :: ds, h => by
    obtain ⟨first, rest⟩ := joined_cons (d.rendered false) (GenDesc.rendereds ds)
    rw [genIns, GenDesc.rendereds]
    exact .bind ((returnsBelow_concreteDesc d h.1 false).mono (Nat.add_le_add_right first 9))
      (.bind ((returnsBelow_concreteDescs ds h.2).mono (Nat.add_le_add_right rest 9)) (.pure _))

theorem returnsBelow_concreteDesc : ∀ d : GenDesc, ConcreteDesc env d → ∀ b,
    ReturnsBelow ((d.rendered b).text.length + 9) (genIn env d d b) (d.rendered b)
  | .otherGenericBinding _, h, _ => h.elim
  | .programType t, h, b => by
    rcases returnsBelow_concrete t h 1 with ⟨hs, hr⟩ | ⟨_, hb, hr⟩
    · exact .bind (hr.mono (Nat.zero_le _)) (returnsBelow_static h hs b)
    · rw [GenDesc.rendered, hb]
      exact .bind hr (.pure _)
  | .ptrTo d, h, b => returnsBelow_ptrTo (hasArrow_concreteDesc d true h)
      (returnsBelow_concreteDesc d h true)

end

theorem returnsBelow_argument {ps : List String} : ∀ d : GenDesc, Argument env ps d → ∀ b,
    ReturnsBelow ((d.rendered b).text.length + 9) (genIn env d d b) (d.rendered b)
  | .otherGenericBinding n, _, b => by
    simp only [genIn, if_true]
    exact .pure _
  | .programType t, h, b => returnsBelow_concreteDesc (.programType t) h b
  | .ptrTo d, h, b => returnsBelow_ptrTo (hasArrow_argument d true h)
      (returnsBelow_argument d h true)

/-! ### Which arguments are named as they are -/

theorem instance_ne (s a b : String) : s ++ "_PTR" ++ "_OF_" ++ a ≠ s ++ "_OF_" ++ b := by
  rw [String.append_assoc, String.append_assoc, String.append_assoc, Ne, String.append_right_inj,
    ← String.toList_inj]
  simp [String.toList_append]

theorem nested_text_iff (s : Label) (ρ : String → String) (gs : List GenDesc) :
    (nested s (GenDesc.rendereds gs)).text = applied s.text (GenDesc.insts ρ gs) ↔ gs = [] := by
  cases gs with
  | nil => exact iff_of_true rfl rfl
  | cons d ds => exact iff_of_false (instance_ne _ _ _) (List.cons_ne_nil d ds)

/-- A type of the program is named as it is unless it takes arguments itself. -/
theorem text_rendered_iff {t : KtTyp} (h : Concrete env t) (b : Bool) (ρ : String → String) :
    (t.rendered b).text = t.typeName ρ b ↔ t.genIns = [] := by
  cases t with
  | int | float | enum | ptrOpaque => exact iff_of_true rfl rfl
  | named | struct | union => exact nested_text_iff _ ρ _
  | _ => exact h.elim

theorem text_of_static {ps : List String} (ρ : String → String) : ∀ (d : GenDesc) (b : Bool),
    Argument env ps d → d.Static → (d.rendered b).text = d.inst ρ b
  | .otherGenericBinding _, _, _, hd => hd.elim
  | .programType t, b, h, hd => (text_rendered_iff h b ρ).mpr hd
  | .ptrTo d, b, h, hd => by
    rw [GenDesc.rendered, Macro.text, text_of_static ρ d true h hd, GenDesc.inst]

theorem static_of_text {ps : List String} {ρ : String → String}
    (hρ : ∀ n ∈ ps, "gen_" ++ n ≠ ρ n) : ∀ (d : GenDesc) (b : Bool), Argument env ps d →
      (d.rendered b).text = d.inst ρ b → d.Static
  | .otherGenericBinding n, _, h, heq => by
    exact absurd heq (hρ n h)
  | .programType t, b, h, heq => (text_rendered_iff h b ρ).mp heq
  | .ptrTo d, b, h, heq => by
    rw [GenDesc.rendered, Macro.text, GenDesc.inst, String.append_left_inj] at heq
    exact static_of_text hρ d true h heq

theorem insts_eq_map (ρ : String → String) (ds : List GenDesc) :
    GenDesc.insts ρ ds = ds.map (·.inst ρ false) := by
  induction ds with
  | nil => rfl
  | cons d ds ih => rw [GenDesc.insts, ih, List.map_cons]

theorem texts_rendereds (ds : List GenDesc) :
    Macro.texts (GenDesc.rendereds ds) = ds.map fun d => (d.rendered false).text := by
  induction ds with
  | nil => rfl
  | cons d ds ih => rw [GenDesc.rendereds, Macro.texts, ih, List.map_cons]

end Render

/-! ## Fields of generic type -/

section Field

variable {env : Env} {ps : List String} {u t : KtTyp} {g g' : GenCtx}

theorem GenericUse.arguments (h : GenericUse env ps u) : ∀ d ∈ u.genIns, Argument env ps d := by
  cases h <;> assumption

/-- On a generic type `has_generics'` comes to its last clause at once. -/
theorem GenericUse.hasGenerics' (h : GenericUse env ps u) (i : Nat) :
    hasGenerics' env u u i = genericInstance env u u (genIns env u.genIns u.genIns) i := by
  cases h with
  | @named nm gs hc har hne hgs =>
    have new : env.newTyp (.named nm gs) = .named nm gs := by simp [Env.newTyp, hc.2]
    rw [Gen.hasGenerics', hc.1]
    simp only [new]
    rfl
  | struct => rfl

theorem Wraps.hasGenerics' (hu : GenericUse env ps u) (h : Wraps u t) (i : Nat) :
    hasGenerics' env t t i = hasGenerics' env u u (i + t.spine.length) := by
  induction h generalizing i with
  | here => cases hu <;> rfl
  | ptr _ ih | ptrArray _ _ ih | array _ _ ih =>
    rw [KtTyp.spine, List.length_cons, ← Nat.add_assoc, Nat.add_right_comm]
    exact ih (i + 1)

theorem Wraps.renderMacro (hu : GenericUse env ps u) (h : Wraps u t) :
    ∃ s, Returns (renderMacro t false) (.lit s) := by
  have notInt : ∀ {t}, Wraps u t → ∀ k, t ≠ .int k := by
    rintro t h k rfl
    cases h
    cases hu
  induction h with
  | here => cases hu <;> exact ⟨_, .pure _⟩
  | ptr h ih =>
    rw [renderMacro_ptr (notInt h)]
    exact ih
  | ptrArray _ h ih =>
    rw [renderMacro_ptrArray (notInt h)]
    exact ih
  | array _ _ ih => exact ih

theorem Wraps.useArray (hu : GenericUse env ps u) (h : Wraps u t) :
    ∃ a, Returns (useArray t t) a ∧ ∀ e gf A, (a.wrap e).carried gf A = e.carried gf A := by
  induction h with
  | here => cases hu <;> exact ⟨.arrayNone, .pure _, fun e gf A => rfl⟩
  | ptr _ ih => exact ih
  | ptrArray hlen =>
    obtain ⟨len, rfl⟩ := hlen
    refine ⟨.arrayPtr len, ?_, fun e gf A => rfl⟩
    cases len <;> exact .map _ (.pure _)
  | array hlen =>
    obtain ⟨len, rfl⟩ := hlen
    refine ⟨.arrayPlain len, ?_, fun e gf A => rfl⟩
    cases len <;> exact .map _ (.pure _)

theorem GenericUse.generic (h : GenericUse env ps u) :
    ∃ p d ds, u.pathElem = some p ∧ u.genIns = d :: ds ∧ env.Arity p u.genIns.length ∧
      env.xformGenerics (.xform p p) ≠ [] := by
  cases h with
  | @named nm gs hc har hne hgs =>
    obtain ⟨d, ds, rfl⟩ := List.exists_cons_of_ne_nil hne
    exact ⟨.typedef nm, d, ds, rfl, rfl, har, fun h => hne (har.eq_nil_iff.mp h)⟩
  | @struct nm gs har hne hgs =>
    obtain ⟨d, ds, rfl⟩ := List.exists_cons_of_ne_nil hne
    exact ⟨.struct nm, d, ds, rfl, rfl, har, fun h => hne (har.eq_nil_iff.mp h)⟩

/-- Where the first argument is a parameter, the field gets the arguments of the enclosing type. -/
theorem visit_propagates (hu : GenericUse env ps u) (hw : Wraps u t) {d : GenDesc}
    {ds : List GenDesc} (hgs : u.genIns = d :: ds) (hd : isGentType d = true) :
    ∃ e, Returns (visitType env t t) e ∧ ∀ gf A, e.carried gf A = some A := by
  obtain ⟨p, _, _, hp, _, _, hne⟩ := hu.generic
  obtain ⟨a, ha, wrap⟩ := hw.useArray hu
  obtain ⟨s, hs⟩ := hw.renderMacro hu
  have make : hasGenerics env t t = pure .genMakeMe := by
    rw [hasGenerics, hw.hasGenerics' hu, hu.hasGenerics', genericInstance]
    simp only [hp, hne, if_false, hgs, hd, if_true]
  refine ⟨a.wrap (.mktypfromgenargs ((Macro.lit s).ptrs (countderef env t t))), ?_, fun gf A => ?_⟩
  · refine .bind ?_ (.bind ha (.pure _))
    rw [elemType, make]
    exact .bind (.pure _) (.bind hs (.bind (returns_appendDeref rfl _) (.pure _)))
  · rw [wrap]
    rfl

theorem GenericUse.five_le_label (h : GenericUse env ps u) : 5 ≤ (Macro.lit u.label).text.length := by
  cases h <;> exact Elem.five_le_length _

theorem returnsBelow_genIns : ∀ ds : List GenDesc, (∀ d ∈ ds, Argument env ps d) →
    ReturnsBelow ((joined (GenDesc.rendereds ds)).length + 9) (genIns env ds ds)
      (GenDesc.rendereds ds)
  | [], _ => .pure _
  | d :: ds, h => by
    obtain ⟨hd, hds⟩ := List.forall_mem_cons.mp h
    obtain ⟨first, rest⟩ := joined_cons (d.rendered false) (GenDesc.rendereds ds)
    rw [genIns, GenDesc.rendereds]
    exact .bind ((returnsBelow_argument d hd false).mono (Nat.add_le_add_right first 9))
      (.bind ((returnsBelow_genIns ds hds).mono (Nat.add_le_add_right rest 9)) (.pure _))

/-- Before it looks the instance of a generic type up, `has_generics'` enters shorter names only. -/
theorem genericInstance_run (hu : GenericUse env ps u) {d : GenDesc} {ds : List GenDesc}
    (hgs : u.genIns = d :: ds) (hd : isGentType d = false) (i : Nat) (g : GenCtx) :
    ∃ p mainOut g₁, AgreeFrom (u.instanceName i).text.length g g₁ ∧
      genericInstance env u u (genIns env u.genIns u.genIns) i g =
        makeInstance p p (.lit u.label) ((Macro.lit u.label).ptrs i) mainOut
          (GenDesc.rendereds u.genIns) i g₁ := by
  obtain ⟨p, _, _, hp, _, har, _⟩ := hu.generic
  have head := hu.arguments d (hgs ▸ List.mem_cons_self)
  have long : 5 ≤ (joined (GenDesc.rendereds u.genIns)).length := by
    rw [hgs]
    exact Nat.le_trans (five_le_rendered d false (concreteDesc_of_head d head hd))
      (joined_cons _ _).1
  have label := hu.five_le_label
  have out : (Macro.lit u.label).out.text.length = (Macro.lit u.label).text.length + 4 :=
    String.length_append _ _
  have name := length_ofArgs ((Macro.lit u.label).ptrs i) (GenDesc.rendereds u.genIns)
  rw [Macro.length_ptrs] at name
  have before : ReturnsBelow (u.instanceName i).text.length (do
      let main ← appendDeref (.lit u.label) i
      let mainOut ← appendDeref (Macro.lit u.label).out i
      let args ← genIns env u.genIns u.genIns
      pure (main, mainOut, args)) ((Macro.lit u.label).ptrs i, (Macro.lit u.label).out.ptrs i,
        GenDesc.rendereds u.genIns) := by
    rw [KtTyp.instanceName]
    refine .bind (returnsBelow_appendDeref rfl ?_) (.bind (returnsBelow_appendDeref rfl ?_)
      (.bind ((returnsBelow_genIns u.genIns hu.arguments).mono ?_) (.pure _)))
    all_goals omega
  obtain ⟨g₁, h₁, agree⟩ := before g
  refine ⟨p, (Macro.lit u.label).out.ptrs i, g₁, agree, ?_⟩
  rw [genericInstance_eq _ hp hgs har hd, returns_label hp, pure_bind]
  have run := bind_of_ok (k := fun q : Macro × Macro × List Macro =>
    makeInstance p p (.lit u.label) q.1 q.2.1 q.2.2 i) h₁
  simpa only [bind_assoc, pure_bind] using run

/-- Where it is none, the field gets the name of an instance that is then listed, with the stored
arguments of that name, if it was listed before, and those of the field if it was not. -/
theorem visit_static (hu : GenericUse env ps u) (hw : Wraps u t) {d : GenDesc} {ds : List GenDesc}
    (hgs : u.genIns = d :: ds) (hd : isGentType d = false) (stored : StoresListed g) :
    ∃ e g', visitType env t t g = .ok (e, g') ∧ g'.Lists (u.instanceName t.spine.length) ∧
      g'.argsOf (u.instanceName t.spine.length) =
        (if g.Lists (u.instanceName t.spine.length) then g.argsOf (u.instanceName t.spine.length)
          else some (GenDesc.rendereds u.genIns)) ∧
      ∀ gf A, e.carried gf A =
        (gf.argsOf (u.instanceName t.spine.length)).map Macro.texts := by
  obtain ⟨a, ha, wrap⟩ := hw.useArray hu
  obtain ⟨p, mainOut, g₁, agree, run⟩ := genericInstance_run hu hgs hd t.spine.length g
  obtain ⟨g₂, h₂, -⟩ := returnsBelow_makeInstance p p
    (show (Macro.lit u.label).hasArrow = false from rfl) ((Macro.lit u.label).ptrs t.spine.length)
    mainOut (GenDesc.rendereds u.genIns) t.spine.length (Nat.lt_succ_of_le (Nat.le_max_left _ _))
    (Nat.lt_succ_of_le (Nat.le_max_right _ _)) g₁
  obtain ⟨g₃, h₃⟩ := ha g₂
  have typ : elemType env t t g = .ok (.name (u.instanceName t.spine.length), g₂) := by
    have generics : hasGenerics env t t g = .ok (.genOk (u.instanceName t.spine.length), g₂) := by
      rw [hasGenerics, hw.hasGenerics' hu, Nat.zero_add, hu.hasGenerics', run]
      exact h₂
    exact (bind_of_ok generics).trans rfl
  have later : Continues g₂ g₃ := (walk_useArray (continuing_rules : Rules env _) t t _ _ _ h₃).1
  have entered : g₂.Lists (u.instanceName t.spine.length) ∧
      g₂.argsOf (u.instanceName t.spine.length) =
        (if g.Lists (u.instanceName t.spine.length) then g.argsOf (u.instanceName t.spine.length)
          else some (GenDesc.rendereds u.genIns)) := by
    obtain ⟨same, argsOf⟩ := agree _ (Nat.le_refl _)
    obtain ⟨-, ⟨listed, rfl⟩ | ⟨new, x, rest, hx, hargs⟩⟩ := makeInstance_cases h₂
    · exact ⟨listed, by rw [if_pos (same.mp listed), argsOf]⟩
    · have none : g₁.argsOf x.name = none := by
        rw [hx]
        exact argsOf.trans (stored.argsOf_eq_none fun h => new (same.mpr h))
      have listed : ((Extension.inst x).apply g₁).Lists x.name :=
        lists_apply.mpr (.inr ⟨_, rfl, .inl rfl⟩)
      have found := (rest.argsOf _ listed).trans (argsOf_inst none)
      rw [hx] at listed found
      exact ⟨rest.lists _ listed, by rw [if_neg fun h => new (same.mpr h), ← hargs]; exact found⟩
  refine ⟨a.wrap (.name (u.instanceName t.spine.length)), g₃, ?_, later.lists _ entered.1, ?_,
    fun gf A => wrap _ gf A⟩
  · exact (bind_of_ok typ).trans ((bind_of_ok h₃).trans rfl)
  · rw [later.argsOf _ entered.1]
    exact entered.2

/-! ### Substitution for the parameters -/

theorem bindArgs_cons (p q : String) (ps : List String) (a : String) (as : List String) :
    bindArgs (p :: ps) (a :: as) q = if q = p then a else bindArgs ps as q := by
  unfold bindArgs
  rw [List.zip_cons_cons, List.lookup_cons]
  split <;> simp_all

theorem bindArgs_map {f : String → String} {q : String} (hq : q ∈ ps) :
    bindArgs ps (ps.map f) q = f q := by
  induction ps with
  | nil => exact absurd hq List.not_mem_nil
  | cons p ps ih =>
    rw [List.map_cons, bindArgs_cons]
    split
    · next h => rw [h]
    · next h => exact ih ((List.mem_cons.mp hq).resolve_left h)

theorem map_bindArgs (hps : ps.Nodup) {as : List String} (hlen : as.length = ps.length) :
    ps.map (bindArgs ps as) = as := by
  induction ps generalizing as with
  | nil => exact (List.length_eq_zero_iff.mp hlen).symm
  | cons p ps ih =>
    obtain ⟨hp, hps⟩ := List.nodup_cons.mp hps
    cases as with
    | nil => simp at hlen
    | cons a as =>
      have tail : ps.map (bindArgs (p :: ps) (a :: as)) = ps.map (bindArgs ps as) :=
        List.map_congr_left fun q hq => by
          have hne : q ≠ p := fun h => hp (h ▸ hq)
          rw [bindArgs_cons, if_neg hne]
      rw [List.map_cons, tail, ih hps (by simpa using hlen), bindArgs_cons, if_pos rfl]

theorem insts_parameters (ρ : String → String) (qs : List String) :
    GenDesc.insts ρ (qs.map .otherGenericBinding) = qs.map ρ := by
  rw [insts_eq_map, List.map_map]
  rfl

/-- The name of a type of the program. -/
def typeOf (q : String) : String := "TYPE_" ++ q ++ "_t"

theorem GenDesc.inst_ptrTo_ne (ρ : String → String) (d : GenDesc) (b : Bool) (q : String) :
    (GenDesc.ptrTo d).inst ρ b ≠ typeOf q := by
  intro h
  have ptr (s : String) : (s ++ "_PTR").toList.getLast? = some 'R' := by simp
  have typ (s : String) : (s ++ "_t").toList.getLast? = some 't' := by simp
  have last := (ptr _).symm.trans ((congrArg (fun s => s.toList.getLast?) h).trans (typ _))
  exact absurd last (by decide)

theorem typeOf_ne (q : String) : typeOf q ≠ (typeOf ∘ typeOf) q := by
  intro h
  have lengths := congrArg String.length h
  have typ : "TYPE_".length = 5 := rfl
  simp only [typeOf, Function.comp, String.length_append] at lengths
  omega

mutual

/-- A type without parameters has one name. -/
theorem KtTyp.typeName_eq (ρ ρ' : String → String) : ∀ t : KtTyp, Concrete env t → ∀ b,
    t.typeName ρ b = t.typeName ρ' b
  | .int _, _, _ | .float _, _, _ | .enum _, _, _ | .ptrOpaque _, _, _ => rfl
  | .union nm gs, h, b => by
    obtain rfl := h
    rfl
  | .struct nm gs, h, b => by rw [KtTyp.typeName, insts_eq ρ ρ' gs h.2, KtTyp.typeName]
  | .named nm gs, h, b => by
    rcases h with ⟨-, -, hgs⟩ | ⟨-, rfl⟩
    · rw [KtTyp.typeName, insts_eq ρ ρ' gs hgs, KtTyp.typeName]
    · rfl

theorem insts_eq (ρ ρ' : String → String) : ∀ ds : List GenDesc, ConcreteDescs env ds →
    GenDesc.insts ρ ds = GenDesc.insts ρ' ds
  | [], _ => rfl
  | d :: ds, h => by
    rw [GenDesc.insts, GenDesc.insts, inst_eq ρ ρ' d h.1 false, insts_eq ρ ρ' ds h.2]

theorem inst_eq (ρ ρ' : String → String) : ∀ d : GenDesc, ConcreteDesc env d → ∀ b,
    d.inst ρ b = d.inst ρ' b
  | .otherGenericBinding _, h, _ => h.elim
  | .programType t, h, b => t.typeName_eq ρ ρ' h b
  | .ptrTo d, h, _ => by rw [GenDesc.inst, GenDesc.inst, inst_eq ρ ρ' d h true]

end

/-- Only the parameters themselves stand for every choice of arguments: two choices tell them from
everything else. -/
theorem parameters_of_insts {gs : List GenDesc} (hgs : ∀ d ∈ gs, Argument env ps d)
    {qs : List String} (h : qs.map typeOf = GenDesc.insts (bindArgs ps (ps.map typeOf)) gs)
    (h' : qs.map (typeOf ∘ typeOf) = GenDesc.insts (bindArgs ps (ps.map (typeOf ∘ typeOf))) gs) :
    gs = qs.map .otherGenericBinding := by
  induction gs generalizing qs with
  | nil =>
    obtain rfl : qs = [] := by simpa [GenDesc.insts] using h
    rfl
  | cons d gs ih =>
    cases qs with
    | nil => simp [GenDesc.insts] at h
    | cons q qs =>
      rw [List.map_cons, GenDesc.insts, List.cons.injEq] at h h'
      have rest := ih (fun d hd => hgs d (List.mem_cons_of_mem _ hd)) h.2 h'.2
      have first : d = .otherGenericBinding q := by
        have hd := hgs d List.mem_cons_self
        cases d with
        | otherGenericBinding n =>
          have hn := h.1
          rw [GenDesc.inst, bindArgs_map hd, typeOf, typeOf, String.append_left_inj,
            String.append_right_inj] at hn
          rw [hn]
        | programType t =>
          have fixed := h.1.trans (t.typeName_eq _ (bindArgs ps (ps.map (typeOf ∘ typeOf))) hd false)
          exact absurd (fixed.trans h'.1.symm) (typeOf_ne q)
        | ptrTo d => exact absurd h.1.symm (d.inst_ptrTo_ne _ _ _)
      rw [List.map_cons, first, rest]

theorem not_static_of_isGentType : ∀ d : GenDesc, isGentType d = true → ¬ d.Static
  | .otherGenericBinding _, _ => fun h => h
  | .programType _, h => by cases h
  | .ptrTo d, h => not_static_of_isGentType d h

/-- The rendered arguments are those of the field, for every choice of the parameters, exactly if no
parameter and no instance is among them. -/
theorem texts_rendereds_iff {gs : List GenDesc} (hgs : ∀ d ∈ gs, Argument env ps d) :
    (∀ A, A.length = ps.length →
      Macro.texts (GenDesc.rendereds gs) = GenDesc.insts (bindArgs ps A) gs) ↔
      ∀ d ∈ gs, d.Static := by
  have differs : ∀ n ∈ ps, "gen_" ++ n ≠ bindArgs ps (ps.map typeOf) n := by
    intro n hn
    rw [bindArgs_map hn, typeOf, Ne, ← String.toList_inj]
    simp [String.toList_append]
  simp only [texts_rendereds, insts_eq_map, List.map_inj_left]
  constructor
  · intro h d hd
    exact static_of_text differs d false (hgs d hd) (h _ (List.length_map _) d hd)
  · intro h A _ d hd
    exact text_of_static _ d false (hgs d hd) (h d hd)

/-- The instance that a field of type `u` behind `i` pointers and arrays is given carries the
arguments of the field: those already stored under its name, if a type of that name is listed, and
else those that are stored then. -/
def NamesArguments (g : GenCtx) (ps : List String) (u : KtTyp) (i : Nat) : Prop :=
  (∀ d ∈ u.genIns.head?, isGentType d = false) ∧
    if g.Lists (u.instanceName i) then ∀ A, A.length = ps.length →
      (g.argsOf (u.instanceName i)).map Macro.texts =
        some (GenDesc.insts (bindArgs ps A) u.genIns)
    else ∀ d ∈ u.genIns, d.Static

/-- `struct pair` has the parameters `@a` and `@b`. -/
def pairEnv : Env where
  incompleteOld _ := none
  incompleteNew _ := none
  xformGenerics f := if f = .xform (.struct "pair") (.struct "pair") then ["a", "b"] else []

/-- `struct pair E_G(d0, d1) *` -/
def pairPtr (d0 d1 : GenDesc) : KtTyp := .ptr (.struct "pair" [d0, d1]) none .defaultMalloc

theorem pairPtr_use {d0 d1 : GenDesc} (h0 : Argument pairEnv ["a", "b"] d0)
    (h1 : Argument pairEnv ["a", "b"] d1) :
    GenericUse pairEnv ["a", "b"] (.struct "pair" [d0, d1]) := by
  refine .struct rfl (by simp) ?_
  simpa using ⟨h0, h1⟩

/-- `@q` -/
def parameter (q : String) : GenDesc := .otherGenericBinding q

/-- `struct nm *` as an argument. -/
def structArg (nm : String) : GenDesc := .ptrTo (.programType (.struct nm []))

/-- `nm` as an argument. -/
def typedefArg (nm : String) : GenDesc := .programType (.named nm [])

end Field

end CStrider.Gen
