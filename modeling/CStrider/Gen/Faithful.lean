import CStrider.Gen.Listed

/-!
# What the emitted type expressions denote

A type and a type expression are compared by what they unfold to from the outside in: pointers,
arrays with their lengths, and the type at the bottom. An expression is text, and is read with the
tables of the generated file, where a name is the first row of that text and three names are
overridden. `renderMacro`, `countderef` and `useArray` each see one part of the **spine** of a type,
its pointer and array constructors in order, and the expression is put together from the three. It
denotes the type where an array, if there is one, is the outermost constructor, and no other type
of the program has one of the names.
-/

namespace CStrider.Gen

/-! ## Unfolding -/

inductive Level where
  | ptr
  | arr (len : ArrayLen)
  deriving DecidableEq, Repr

/-- A constructor above the base of a type. -/
inductive Wrapper where
  | ptr
  | ptrArray (len : ArrayLen)
  | array (len : ArrayLen)
  deriving DecidableEq, Repr

def Wrapper.levels : Wrapper → List Level
  | .ptr => [.ptr]
  | .ptrArray len => [.ptr, .arr len]
  | .array len => [.arr len]

namespace KtTyp

/-- Pointer and array constructors from the outside in. -/
def spine : KtTyp → List Wrapper
  | ptr t _ _ => .ptr :: t.spine
  | ptrArray t len _ => .ptrArray len :: t.spine
  | array t len => .array len :: t.spine
  | _ => []

/-- The type below them. -/
def bottom : KtTyp → KtTyp
  | ptr t _ _ | ptrArray t _ _ | array t _ => t.bottom
  | t => t

def levels (t : KtTyp) : List Level := t.spine.flatMap Wrapper.levels

/-- The name of a type that is no pointer and no array. -/
def name : KtTyp → Macro
  | int k => k.typeMacro
  | float k => k.typeMacro
  | named nm _ => .lit (.elem (.typedef nm))
  | struct nm _ => .lit (.elem (.struct nm))
  | _ => typeOpaquePtr

/-- The name at the bottom, where characters right below a pointer are a null-terminated string,
and those right below a pointer to an array plain `char`s. -/
def stringName (t : KtTyp) : Macro :=
  match t.bottom, t.spine.getLast? with
  | int k, some .ptr => if k.isChar then typeCharNT else k.typeMacro
  | int k, some (.ptrArray _) => if k.isChar then IKind.char.typeMacro else k.typeMacro
  | b, _ => b.name

end KtTyp

def LenExpr.len : LenExpr → ArrayLen
  | .int n => .int n
  | .field f => .field f

/-- The names that `write_ordered_symbols` defines to `-1`, behind the emitted arrays and before
the functions. -/
def overridden : List String := ["TYPE_pthread_mutex_t", "TYPE_pthread_attr_t", "TYPE_FILE_PTR"]

namespace GenCtx

/-- What `target_type_array` has for the first enumerator `s`, if that is a type. -/
def targetOf (g : GenCtx) (s : String) : Option String :=
  ((g.macrotypes.zip g.targetType).find? fun p => p.1.text = s).bind fun p =>
    if p.2.text = "-1" then none else some p.2.text

/-- The pointers from an enumerator down the target types, and the type at their end. -/
def unfold (g : GenCtx) : (fuel : Nat) → String → Option (List Level × String)
  | 0, _ => none
  | n + 1, s =>
    match g.targetOf s with
    | none => some ([], s)
    | some target => (g.unfold n target).map fun p => (.ptr :: p.1, p.2)

/-- A pointer type has a longer name than its target. -/
def read (g : GenCtx) (s : String) : Option (List Level × String) := g.unfold (s.length + 1) s

end GenCtx

/-- What a type expression in a generated function unfolds to; `none` where it is no type. -/
def TypeExpr.read (g : GenCtx) : TypeExpr → Option (List Level × String)
  | .name m | .mktypfromgenargs m => if m.text ∈ overridden then none else g.read m.text
  | .mktypptr e => (e.read g).map fun p => (.ptr :: p.1, p.2)
  | .mktyparr len e => (e.read g).map fun p => (.arr len.len :: p.1, p.2)

/-- The two unfold to the same pointers, array lengths and base. -/
def Denotes (g : GenCtx) (e : TypeExpr) (t : KtTyp) : Prop :=
  e.read g = some (t.levels, t.bottom.name.text)

/-! ## Types without generics, unions, functions and incomplete typedefs -/

/-- A length that is known where the array is visited. -/
def ArrayLen.Known (len : ArrayLen) : Prop := ∃ e : LenExpr, len = e.len

inductive Plain (env : Env) : KtTyp → Prop
  | int (k : IKind) : Plain env (.int k)
  | float (k : FKind) : Plain env (.float k)
  | named {nm : String} : env.incompleteOld nm = none → env.incompleteNew nm = none →
      env.xformGenerics (.xform (.typedef nm) (.typedef nm)) = [] → Plain env (.named nm [])
  | struct {nm : String} : env.xformGenerics (.xform (.struct nm) (.struct nm)) = [] →
      Plain env (.struct nm [])
  | ptr {t : KtTyp} {m : MemMgmt} : Plain env t → Plain env (.ptr t none m)
  | ptrArray {t : KtTyp} {len : ArrayLen} {m : MemMgmt} : len.Known → Plain env t →
      Plain env (.ptrArray t len m)
  | array {t : KtTyp} {len : ArrayLen} : len.Known → Plain env t → Plain env (.array t len)

/-! ## What the generator returns -/

section Plain

variable {env : Env} {t : KtTyp} {g : GenCtx}

theorem Plain.oldTyp (h : Plain env t) : env.oldTyp t = t := by
  cases h with
  | named h0 _ _ => simp [Env.oldTyp, h0]
  | _ => rfl

theorem Plain.newTyp (h : Plain env t) : env.newTyp t = t := by
  cases h with
  | named _ h1 _ => simp [Env.newTyp, h1]
  | _ => rfl

/-- Above a type that is not an integer, one more constructor does not show at the bottom. -/
theorem KtTyp.stringName_cons {t u : KtTyp} {w : Wrapper} (hs : t.spine = w :: u.spine)
    (hb : t.bottom = u.bottom) (hu : ∀ k, u ≠ .int k) : t.stringName = u.stringName := by
  unfold stringName
  rw [hs, hb]
  cases u with
  | int k => exact absurd rfl (hu k)
  | ptr | ptrArray | array => simp only [spine, List.getLast?_cons_cons]
  | _ => rfl

theorem returns_charNT : Returns (do
    let _ ← appendDeref typeCharNT 1
    pure typeCharNT) typeCharNT :=
  .bind (returns_appendDeref rfl 1) (.pure _)

/-- `render_type` gives the name at the bottom. -/
theorem returns_renderMacro (h : Plain env t) : Returns (renderMacro t false) t.stringName := by
  induction h with
  | int k =>
    rw [renderMacro, Bool.and_false]
    exact .pure _
  | float | named | struct =>
    rw [renderMacro]
    exact .pure _
  | @ptr t m h ih =>
    by_cases hi : ∃ k, t = .int k
    · obtain ⟨k, rfl⟩ := hi
      have name : KtTyp.stringName (.ptr (.int k) none m) =
        if k.isChar then typeCharNT else k.typeMacro := rfl
      rw [renderMacro, name]
      split
      · exact returns_charNT
      · exact .pure _
    · have hu : ∀ k, t ≠ .int k := fun k hk => hi ⟨k, hk⟩
      have name : KtTyp.stringName (.ptr t none m) = t.stringName :=
        KtTyp.stringName_cons rfl rfl hu
      rw [renderMacro_ptr hu, name]
      exact ih
  | @ptrArray t len m _ h ih =>
    by_cases hi : ∃ k, t = .int k
    · obtain ⟨k, rfl⟩ := hi
      have name : KtTyp.stringName (.ptrArray (.int k) len m) =
        if k.isChar then IKind.char.typeMacro else k.typeMacro := rfl
      rw [renderMacro, name]
      split <;> exact .pure _
    · have hu : ∀ k, t ≠ .int k := fun k hk => hi ⟨k, hk⟩
      have name : KtTyp.stringName (.ptrArray t len m) = t.stringName :=
        KtTyp.stringName_cons rfl rfl hu
      rw [renderMacro_ptrArray hu, name]
      exact ih
  | @array t len _ h ih =>
    have name : KtTyp.stringName (.array t len) = t.stringName := by
      cases t with
      | int k => rfl
      | _ => exact KtTyp.stringName_cons rfl rfl (fun k => by simp)
    rw [renderMacro, name]
    exact ih

/-- `countderef` counts the pointers that do not belong to an array. -/
theorem countderef_plain (h : Plain env t) : countderef env t t = t.spine.count .ptr := by
  induction h with
  | @ptr t m h ih =>
    have one : countderef env (.ptr t none m) (.ptr t none m) = 1 + countderef env t t := by
      rw [countderef]
      simp only [Env.newTyp, h.oldTyp]
      cases h <;> rfl
    rw [one, ih, KtTyp.spine, List.count_cons_self]
    exact Nat.add_comm ..
  | ptrArray _ _ ih | array _ _ ih =>
    rw [countderef, KtTyp.spine, List.count_cons_of_ne (by simp)]
    exact ih
  | _ => rfl

theorem returns_hasGenerics' (h : Plain env t) (i : Nat) :
    Returns (hasGenerics' env t t i) .genNone := by
  induction h generalizing i with
  | int | float => exact .pure _
  | named h0 h1 hg =>
    rw [hasGenerics', h0]
    simp only [Env.newTyp, h1, Option.map_none, Option.getD_none]
    rw [genericInstance]
    simp only [KtTyp.pathElem, hg, if_true]
    exact .pure _
  | struct hg =>
    rw [hasGenerics', genericInstance]
    simp only [KtTyp.pathElem, Env.newTyp, hg, if_true]
    exact .pure _
  | ptr _ ih | ptrArray _ _ ih | array _ _ ih =>
    rw [hasGenerics']
    exact ih (i + 1)

theorem returns_generateEnqueue (h : Plain env t) : ∃ f, Returns (generateEnqueue env t t) f := by
  induction h with
  | int | float => exact ⟨_, .pure _⟩
  | @named nm h0 h1 hg =>
    refine ⟨.xform (.typedef nm) (.typedef nm), ?_⟩
    rw [generateEnqueue]
    · simp only [Env.oldTyp, Env.newTyp, h0, h1, Option.map_none, Option.getD_none]
      exact .pure _
    all_goals simp
  | @struct nm hg => exact ⟨.xform (.struct nm) (.struct nm), .pure _⟩
  | @ptr t m h ih =>
    obtain ⟨f, hf⟩ := ih
    refine ⟨f, ?_⟩
    rw [generateEnqueue]
    simp only [Env.newTyp, h.oldTyp]
    cases h <;> exact hf
  | ptrArray _ _ ih | array _ _ ih =>
    obtain ⟨f, hf⟩ := ih
    refine ⟨f, ?_⟩
    rw [generateEnqueue]
    simpa only [Env.newTyp, if_true] using hf

/-- The levels of the array that `use_array` finds, the first one below any number of pointers. -/
def arrayLevels : List Wrapper → List Level
  | [] => []
  | .ptr :: ws => arrayLevels ws
  | w :: _ => w.levels

theorem returns_useArray (h : Plain env t) :
    ∃ a, Returns (useArray t t) a ∧ ∀ g e, (a.wrap e).read g =
      (e.read g).map fun p => (arrayLevels t.spine ++ p.1, p.2) := by
  induction h with
  | int | float | named | struct => exact ⟨.arrayNone, .pure _, fun g e => Option.map_id'.symm⟩
  | ptr _ ih => exact ih
  | ptrArray hlen _ _ =>
    obtain ⟨len, rfl⟩ := hlen
    refine ⟨.arrayPtr len, ?_, fun g e => Option.map_map ..⟩
    cases len <;> exact .map _ (.pure _)
  | array hlen _ _ =>
    obtain ⟨len, rfl⟩ := hlen
    refine ⟨.arrayPlain len, ?_, fun g e => rfl⟩
    cases len <;> exact .map _ (.pure _)

theorem hasUnion_plain (h : Plain env t) : hasUnion t t = false := by
  induction h with
  | ptr _ ih | ptrArray _ _ ih => exact ih
  | _ => rfl

theorem Elem.five_le_length (e : Elem) : 5 ≤ (Label.elem e).text.length := by
  have typ : "TYPE_".length = 5 := rfl
  have s : "TYPE_STRUCT_".length = 12 := rfl
  have u : "TYPE_UNION_".length = 11 := rfl
  have en : "TYPE_ENUM_".length = 10 := rfl
  cases e <;> simp only [Label.text, String.length_append] <;> omega

/-- The name at the bottom is no pointer, and no number. -/
theorem KtTyp.stringName_lit (t : KtTyp) : ∃ s, t.stringName = .lit s ∧ 5 ≤ s.text.length := by
  have kind : ∀ k : IKind, ∃ s, k.typeMacro = .lit s ∧ 5 ≤ s.text.length :=
    fun k => by cases k <;> exact ⟨_, rfl, by decide⟩
  have name : ∀ u : KtTyp, ∃ s, u.name = .lit s ∧ 5 ≤ s.text.length := by
    intro u
    cases u with
    | int k => exact kind k
    | float k => cases k <;> exact ⟨_, rfl, by decide⟩
    | named | struct => exact ⟨_, rfl, Elem.five_le_length _⟩
    | _ => exact ⟨_, rfl, by decide⟩
  unfold stringName
  split
  · split
    · exact ⟨_, rfl, by decide⟩
    · exact kind _
  · split
    · exact ⟨_, rfl, by decide⟩
    · exact kind _
  · exact name _

/-! ## Reading the tables -/

/-- In the column of target types there is nothing for a name without a suffix, and for a pointer
the type that it points to. -/
def Targets (g : GenCtx) : Prop := ∀ p ∈ g.macrotypes.zip g.targetType,
  (∀ s, p.1 = .lit s → p.2 = .lit "-1") ∧ ∀ m, p.1 = .ptr m → m.isOut = false → p.2 = m

theorem targets_create : Targets gencontextCreate := by
  unfold Targets
  simp [gencontextCreate, builtins, typeCharNT, typeFunptr, typeOpaquePtr]

theorem Targets.apply (hal : Aligned g) (h : Targets g) (x : Extension) : Targets (x.apply g) := by
  have appended (l l' : List Macro) (hm : (x.apply g).macrotypes = g.macrotypes ++ l)
      (ht : (x.apply g).targetType = g.targetType ++ l')
      (hnew : ∀ p ∈ l.zip l', (∀ s, p.1 = .lit s → p.2 = .lit "-1") ∧
        ∀ m, p.1 = .ptr m → m.isOut = false → p.2 = m) : Targets (x.apply g) := by
    intro p hp
    rw [hm, ht, List.zip_append hal.targetType.symm] at hp
    exact (List.mem_append.mp hp).elim (h p) (hnew p)
  cases x with
  | setXform => exact h
  | ptr s =>
    refine appended [s.ptr, s.out.ptr] [s, s] (by
      simp [Extension.apply, GenCtx.addPtr, GenCtx.populate]) (by
      simp [Extension.apply, GenCtx.addPtr, GenCtx.populate]) ?_
    rintro p hp
    simp only [List.zip_cons_cons, List.zip_nil_right, List.mem_cons, List.not_mem_nil,
      or_false] at hp
    rcases hp with rfl | rfl
    · exact ⟨by simp, by rintro m ⟨⟩ _; rfl⟩
    · exact ⟨by simp, by rintro m ⟨⟩ h; cases h⟩
  | elem e0 e1 f =>
    refine appended [e0.typeMacro, e1.typeMacro.out] [.lit "-1", .lit "-1"] (by
      simp [Extension.apply, GenCtx.addElem, GenCtx.addMacro, GenCtx.addFun, GenCtx.addSizeOf]) (by
      simp [Extension.apply, GenCtx.addElem, GenCtx.addMacro, GenCtx.addFun, GenCtx.addSizeOf]) ?_
    simp [Elem.typeMacro]
  | inst i =>
    refine appended [i.name, i.name.out] [i.target, i.targetOut] (by
      simp [Extension.apply, GenCtx.addInstance, GenCtx.populate]) (by
      simp [Extension.apply, GenCtx.addInstance, GenCtx.populate]) ?_
    simp [Instance.name]

theorem targets_of_extends : Extends gencontextCreate g → Aligned g ∧ Targets g := by
  rintro ⟨xs, rfl⟩
  induction xs using List.reverseRecOn with
  | nil => exact ⟨aligned_create, targets_create⟩
  | append_singleton xs x ih =>
    rw [List.foldl_append]
    exact ⟨ih.1.apply, ih.2.apply ih.1 x⟩

/-- No other type has the name of `m`. -/
def GenCtx.Only (g : GenCtx) (m : Macro) : Prop := ∀ n ∈ g.macrotypes, n.text = m.text → n = m

/-- What is found under a name that only one type has. -/
theorem GenCtx.Only.find {m : Macro} (only : g.Only m) {p : Macro × Macro}
    (h : (g.macrotypes.zip g.targetType).find? (fun p => p.1.text = m.text) = some p) :
    p ∈ g.macrotypes.zip g.targetType ∧ p.1 = m := by
  have mem := List.mem_of_find?_eq_some h
  exact ⟨mem, only p.1 (List.of_mem_zip mem).1 (by simpa using List.find?_some h)⟩

theorem targetOf_lit (ht : Targets g) {s : Label} (only : g.Only (.lit s)) :
    g.targetOf (Macro.lit s).text = none := by
  rw [GenCtx.targetOf, Option.bind_eq_none_iff]
  intro p hp
  obtain ⟨mem, name⟩ := only.find hp
  rw [(ht p mem).1 s name]
  rfl

theorem targetOf_ptr (hal : Aligned g) (ht : Targets g) {m : Macro} (hm : m.isOut = false)
    (only : g.Only m.ptr) (listed : g.Lists m.ptr) (long : 5 ≤ m.text.length) :
    g.targetOf m.ptr.text = some m.text := by
  obtain ⟨n, hn, hnm⟩ := List.mem_map.mp listed
  obtain rfl := only n hn hnm
  have found : ((g.macrotypes.zip g.targetType).find? fun p => p.1.text = m.ptr.text).isSome := by
    rw [List.find?_isSome]
    obtain ⟨i, hi, hni⟩ := List.mem_iff_getElem.mp hn
    have hi' : i < g.targetType.length := hal.targetType ▸ hi
    refine ⟨(m.ptr, g.targetType[i]), ?_, by simp⟩
    exact List.mem_iff_getElem.mpr ⟨i, by simp [hi, hi'], by simp [hni]⟩
  obtain ⟨p, hp⟩ := Option.isSome_iff_exists.mp found
  obtain ⟨mem, name⟩ := only.find hp
  have number : m.text ≠ "-1" := fun h => absurd (h ▸ long) (by decide)
  rw [GenCtx.targetOf, hp, Option.bind_some, (ht p mem).2 m name hm, if_neg number]

/-- The name behind pointers is no name of a new version. -/
theorem Macro.isOut_ptrs (s : Label) (d : Nat) : ((Macro.lit s).ptrs d).isOut = false := by
  cases d with
  | zero => rfl
  | succ d => rw [Macro.ptrs_succ, Macro.isOut]; exact fun _ h => by cases h

/-- A pointer type that is the only one of its name unfolds to its pointers. -/
theorem unfold_ptrs (hal : Aligned g) (ht : Targets g) {s : Label} (long : 5 ≤ s.text.length)
    {d : Nat} (listed : ∀ k < d, g.Lists ((Macro.lit s).ptrs (k + 1)))
    (only : ∀ k ≤ d, g.Only ((Macro.lit s).ptrs k)) (n : Nat) :
    g.unfold (d + 1 + n) ((Macro.lit s).ptrs d).text = some (List.replicate d .ptr, s.text) := by
  induction d with
  | zero =>
    have bottom : g.targetOf ((Macro.lit s).ptrs 0).text = none :=
      targetOf_lit ht (only 0 (Nat.le_refl 0))
    rw [Nat.add_right_comm, GenCtx.unfold, bottom]
    rfl
  | succ d ih =>
    have target :
        g.targetOf ((Macro.lit s).ptrs (d + 1)).text = some ((Macro.lit s).ptrs d).text := by
      rw [Macro.ptrs_succ]
      refine targetOf_ptr hal ht (Macro.isOut_ptrs s d) ?_ ?_ ?_
      · rw [← Macro.ptrs_succ]
        exact only (d + 1) (Nat.le_refl _)
      · rw [← Macro.ptrs_succ]
        exact listed d (Nat.lt_succ_self d)
      · rw [Macro.length_ptrs]
        exact Nat.le_add_right_of_le long
    rw [Nat.add_right_comm, GenCtx.unfold, target]
    simp only [ih (fun k hk => listed k (Nat.lt_succ_of_lt hk))
      (fun k hk => only k (Nat.le_succ_of_le hk)), Option.map_some, List.replicate_succ]

theorem read_ptrs (hal : Aligned g) (ht : Targets g) {s : Label} (long : 5 ≤ s.text.length)
    {d : Nat} (listed : ∀ k < d, g.Lists ((Macro.lit s).ptrs (k + 1)))
    (only : ∀ k ≤ d, g.Only ((Macro.lit s).ptrs k)) :
    g.read ((Macro.lit s).ptrs d).text = some (List.replicate d .ptr, s.text) := by
  obtain ⟨n, hn⟩ : ∃ n, ((Macro.lit s).ptrs d).text.length = d + n := by
    rw [Macro.length_ptrs]
    exact ⟨(Macro.lit s).text.length + 3 * d, by omega⟩
  rw [GenCtx.read, hn, Nat.add_right_comm]
  exact unfold_ptrs hal ht long listed only n

/-- What `append_deref` returns is listed with all pointers on the way. -/
theorem lists_of_appendDeref {s a : Macro} (h : s.hasArrow = false) {d : Nat} {g' : GenCtx}
    (run : appendDeref s d g = .ok (a, g')) : ∀ k < d, g'.Lists (s.ptrs (k + 1)) := by
  induction d generalizing s g with
  | zero => exact fun k hk => absurd hk (Nat.not_lt_zero k)
  | succ d ih =>
    have hp : s.ptr.hasArrow = false := by rw [Macro.hasArrow, h]
    simp only [appendDeref, h, Bool.false_eq_true, ↓reduceIte] at run
    obtain ⟨_, g₁, h₁, rest⟩ := bind_ok run
    intro k hk
    cases k with
    | zero =>
      refine ((Continuing.appendDeref s.ptr d _ _ _ rest).1).lists s.ptr ?_
      obtain ⟨listed, rfl⟩ | ⟨-, h₁⟩ := unlessListed_cases h₁
      · exact listed
      · cases h₁
        exact lists_apply.mpr (.inr ⟨_, rfl, .inl rfl⟩)
    | succ k => exact ih hp rest k (Nat.lt_of_succ_lt_succ hk)

/-- Below the outermost constructor there are only pointers. -/
def ArrayOutermost (t : KtTyp) : Prop := ∀ w ∈ t.spine.tail, w = .ptr

instance (t : KtTyp) : Decidable (ArrayOutermost t) :=
  inferInstanceAs (Decidable (∀ w ∈ t.spine.tail, w = .ptr))

theorem arrayLevels_outermost {ws : List Wrapper} (h : ∀ w ∈ ws.tail, w = .ptr) :
    arrayLevels ws ++ List.replicate (ws.count .ptr) .ptr = ws.flatMap Wrapper.levels := by
  have pointers : ∀ vs : List Wrapper, (∀ w ∈ vs, w = .ptr) →
      arrayLevels vs = [] ∧ List.replicate (vs.count .ptr) .ptr = vs.flatMap Wrapper.levels := by
    intro vs hvs
    obtain ⟨n, rfl⟩ : ∃ n, vs = List.replicate n .ptr :=
      ⟨_, List.eq_replicate_of_mem hvs⟩
    clear hvs
    induction n with
    | zero => exact ⟨rfl, rfl⟩
    | succ n ih =>
      refine ⟨ih.1, ?_⟩
      rw [List.count_replicate_self] at ih ⊢
      rw [List.replicate_succ, ih.2]
      rfl
  cases ws with
  | nil => rfl
  | cons w ws =>
    obtain ⟨none, all⟩ := pointers ws h
    cases w with
    | ptr =>
      rw [arrayLevels, none, List.count_cons_self, List.replicate_succ, all]
      rfl
    | ptrArray | array =>
      rw [List.count_cons_of_ne (by simp), all]
      rfl

theorem KtTyp.stringName_eq (h : ∀ k, t.bottom = .int k → k.isChar = false) :
    t.stringName = t.bottom.name := by
  unfold stringName
  cases hb : t.bottom with
  | int k =>
    have hk := h k hb
    split <;> simp_all <;> rfl
  | _ => rfl


/-- What the generator emits for a field, however pointers and arrays are nested: the first array,
and below it all pointers that belong to no array. -/
theorem visit_of_field (h : Plain env t) (hg : Extends gencontextCreate g) (f0 f1 : String)
    (own : (t.stringName.ptrs (t.spine.count .ptr)).text ∉ overridden) :
    ∃ e g', generateFieldXform env f0 f1 t t g = .ok (some ⟨f0, e, f1⟩, g') ∧
      ∀ gf, Extends g' gf → (∀ k ≤ t.spine.count .ptr, gf.Only (t.stringName.ptrs k)) →
        e.read gf = some (arrayLevels t.spine ++ List.replicate (t.spine.count .ptr) .ptr,
          t.stringName.text) := by
  obtain ⟨s, hs, long⟩ := t.stringName_lit
  rw [hs] at own ⊢
  obtain ⟨a, ha, wrap⟩ := returns_useArray h
  obtain ⟨f, hf⟩ := returns_generateEnqueue h
  have hset : Returns (setXform env t t) () := .bind hf (.extend _)
  obtain ⟨g₁, h₁⟩ := returns_hasGenerics' h 0 g
  obtain ⟨g₂, h₂⟩ := hset g₁
  obtain ⟨g₃, h₃⟩ := returns_renderMacro h g₂
  obtain ⟨g₄, h₄⟩ := returns_appendDeref (m := .lit s) rfl (t.spine.count .ptr) g₃
  obtain ⟨g₅, h₅⟩ := ha g₄
  rw [hs] at h₃
  have typ : elemType env t t g = .ok (.name ((Macro.lit s).ptrs (t.spine.count .ptr)), g₄) := by
    have deref : appendDeref (.lit s) (countderef env t t) g₃ =
        .ok ((Macro.lit s).ptrs (t.spine.count .ptr), g₄) := by rw [countderef_plain h, h₄]
    exact (bind_of_ok h₁).trans ((bind_of_ok h₂).trans ((bind_of_ok h₃).trans (bind_of_ok deref)))
  have run : generateFieldXform env f0 f1 t t g =
      .ok (some ⟨f0, a.wrap (.name ((Macro.lit s).ptrs (t.spine.count .ptr))), f1⟩, g₅) := by
    rw [generateFieldXform, hasUnion_plain h]
    have visit : visitType env t t g = _ := (bind_of_ok typ).trans (bind_of_ok h₅)
    exact bind_of_ok visit
  refine ⟨_, _, run, fun gf hgf only => ?_⟩
  have before : Extends g₄ gf :=
    ((walk_useArray (extends_rules : Rules env _) t t).extends h₅).trans hgf
  have whole : Extends g g₄ := (walk_elemType extends_rules t t).extends typ
  obtain ⟨aligned, targets⟩ := targets_of_extends (hg.trans (whole.trans before))
  have listed := fun k hk => before.lists (lists_of_appendDeref rfl h₄ k hk)
  rw [wrap, TypeExpr.read, if_neg own, read_ptrs aligned targets long listed only]
  rfl

/-- A program without typedefs and generics. -/
def plainEnv : Env where
  incompleteOld _ := none
  incompleteNew _ := none
  xformGenerics _ := []

/-- `struct s *f[4]`. -/
def structPtrs : KtTyp := .array (.ptr (.struct "s" []) none .defaultMalloc) (.int 4)

/-- The type expression that the generator emits for a field, with the tables `g` before, denotes
something else. -/
def Differs (g : GenCtx) (t : KtTyp) : Prop :=
  Extends gencontextCreate g ∧ Plain plainEnv t ∧ ∃ e g', generateFieldXform plainEnv "f" "f" t t g =
    .ok (some ⟨"f", e, "f"⟩, g') ∧ ¬ Denotes g' e t

/-- `typedef ... foo_PTR`, matched. -/
def fooPtr : Elem := Elem.typedef "foo_PTR"

end Plain

end CStrider.Gen
