import CStrider.Gen.Rows
import CStrider.Traversal.Model
import CStrider.Types.Links

/-!
# Memoized predicates and public ones (`src/transform.c`, `src/cstrider_api.c`)

`visit` looks a type up once and classifies it by its entry; a callback that asks the API about its
type argument has it looked up again. The two agree on every entry but those of function types:
`memoized_is_ptr` counts an entry with `transform_fptr` among the pointers, and `cstrider_is_ptr`
does not look at the function.
-/

namespace CStrider.Traversal

open CStrider.Types (Typ Entry TypeTable Func TYPE_FUNPTR cstriderGetPtrtype)

/-- `cstrider_is_array`; `none` where it exits. -/
def cstriderIsArray (tt : TypeTable) (t : Typ) : Option Bool :=
  (tt.find t).map fun te => decide (te.arrlen ≠ 0)

/-- `cstrider_is_ptr`; `none` where it exits. -/
def cstriderIsPtr (tt : TypeTable) (t : Typ) : Option Bool :=
  (tt.find t).map fun te => decide ((te.targetType ≠ -1 ∨ te.type = TYPE_FUNPTR) ∧ te.arrlen = 0)

/-- `cstrider_get_tvers_funptr`; `none` where it exits. -/
def cstriderGetTversFunptr (tt : TypeTable) (t : Typ) : Option Func := (tt.find t).map Entry.func

/-- `cstrider_is_funptr`; `funptr` is the generated variable `TYPE_FUNPTR_i`. -/
def cstriderIsFunptr (funptr : Typ) (tt : TypeTable) (t : Typ) : Option Bool :=
  if t = funptr then some true
  else (cstriderGetTversFunptr tt t).map fun f => decide (f = .transformFptr)

/-- `memoized_get_ptrtype`. -/
def memoizedGetPtrtype (te : Entry) : Typ := te.targetType

/-- What the API says of `t` is what `visit` goes by. -/
structure Agree (funptr : Typ) (tt : TypeTable) (t : Typ) (te : Entry) : Prop where
  isPtr : cstriderIsPtr tt t = some (memoizedIsPtr te)
  isFunptr : cstriderIsFunptr funptr tt t = some (memoizedIsFunptr te)
  isArray : cstriderIsArray tt t = some (memoizedIsArray te)
  getPtrtype : cstriderGetPtrtype tt t = some (memoizedGetPtrtype te)

/-! ## One entry -/

section Entries

variable {tt : TypeTable} {t : Typ} {te : Entry}

/-- The two ways of asking differ in one disjunct. -/
theorem isPtr_iff (hf : tt.find t = some te) : cstriderIsPtr tt t = some (memoizedIsPtr te) ↔
    ¬ (te.func = .transformFptr ∧ te.targetType = -1 ∧ te.arrlen = 0 ∧ te.type ≠ TYPE_FUNPTR) := by
  rw [cstriderIsPtr, hf, Option.map_some, Option.some.injEq, memoizedIsPtr, decide_eq_decide]
  by_cases hfptr : te.func = .transformFptr
  · by_cases hlen : te.arrlen = 0
    · by_cases htarget : te.targetType = -1
      · by_cases htype : te.type = TYPE_FUNPTR <;> simp [hfptr, hlen, htarget, htype]
      · simp [hlen, htarget]
    · simp [hlen]
  · simp [hfptr]

theorem agree_iff (hf : tt.find t = some te) : Agree TYPE_FUNPTR tt t te ↔
    ¬ (te.func = .transformFptr ∧ te.targetType = -1 ∧ te.arrlen = 0 ∧ te.type ≠ TYPE_FUNPTR) := by
  refine ⟨fun agree => (isPtr_iff hf).mp agree.isPtr, fun h => ⟨(isPtr_iff hf).mpr h, ?_, ?_, ?_⟩⟩
  · have htype := TypeTable.type_of_find hf
    rw [cstriderIsFunptr, cstriderGetTversFunptr, hf, memoizedIsFunptr, htype]
    by_cases ht : t = TYPE_FUNPTR
    · rw [if_pos ht]
      simp [ht, TYPE_FUNPTR]
    · rw [if_neg ht]
      have ht' : t ≠ 16 := ht
      simp [ht']
  · rw [cstriderIsArray, hf]
    rfl
  · rw [cstriderGetPtrtype, hf]
    rfl

end Entries

/-! ## The entries of the generated types -/

section Emitted

open CStrider.Gen
open CStrider.Types (typeInit histories)

variable {s : Numbering} {c : Compiled}

/-- The first eighteen rows stay as they were created. -/
theorem rows_create (h : extensions.Reach s) :
    gencontextCreate.macrotypes <+: s.ctx.macrotypes ∧ gencontextCreate.funs <+: s.ctx.funs := by
  have inv : extensions.Inductive (fun _ => True) fun s =>
      gencontextCreate.macrotypes <+: s.ctx.macrotypes ∧ gencontextCreate.funs <+: s.ctx.funs := by
    constructor
    · rintro s rfl
      exact ⟨List.prefix_rfl, List.prefix_rfl⟩
    · rintro x s s' _ ⟨hmacros, hfuns⟩ hst
      cases hst
      have funs : s.ctx.funs <+: (x.apply s.ctx).funs := by
        cases x <;> simp [Extension.apply, GenCtx.addPtr, GenCtx.addElem, GenCtx.addInstance,
          GenCtx.populate, GenCtx.addMacro, GenCtx.addFun, GenCtx.addSizeOf]
      refine ⟨hmacros.trans ?_, hfuns.trans funs⟩
      rw [macrotypes_apply]
      exact List.prefix_append _ _
  exact inv.reach (fun _ => trivial) h

/-- `TYPE_FUNPTR_i` is the number of the macro. -/
theorem number_typeFunptr (h : extensions.Reach s) : s.ctx.number typeFunptr = TYPE_FUNPTR := by
  obtain ⟨rest, hrest⟩ := (rows_create h).1
  have first : s.ctx.macrotypes.findIdx (· = typeFunptr) = 16 := by
    rw [← hrest, List.findIdx_append]
    rfl
  rw [GenCtx.number, if_neg (by decide), if_neg (by decide), first]
  rfl

theorem funs_typeFunptr (h : extensions.Reach s) : s.ctx.funs[16]? = some (some .transformPrim) := by
  obtain ⟨rest, hrest⟩ := (rows_create h).2
  rw [← hrest]
  rfl

/-- Only `-1` is numbered `-1`. -/
theorem number_eq (g : GenCtx) (m : Macro) : g.number m = -1 ↔ m = .lit "-1" := by
  unfold GenCtx.number
  split
  · next h => exact ⟨fun _ => h, fun _ => rfl⟩
  · next h =>
    refine iff_of_false ?_ h
    split
    · decide
    · exact Types.natCast_ne _

/-- The linker finds `transform_fptr` for its name and for no other. -/
def Resolves (c : Compiled) : Prop := ∀ f, c.func f = .transformFptr ↔ f = some .transformFptr

/-- A row of a function type: it has the function of function pointers, and points to nothing. -/
def FunctionRow (g : GenCtx) (i : Nat) : Prop :=
  g.funs[i]? = some (some .transformFptr) ∧ g.targetType[i]? = some (.lit "-1")

theorem functionRow_iff (h : extensions.Reach s) (hc : Resolves c) (i : Nat) :
    (s.ctx.emit c).func i = .transformFptr ∧ (s.ctx.emit c).targetType i = -1 ↔
      FunctionRow s.ctx i := by
  have lengths := aligned h
  have func : (s.ctx.emit c).func i = .transformFptr ↔
      s.ctx.funs[i]? = some (some .transformFptr) := by
    rw [← Option.join_eq_some_iff]
    exact hc _
  rw [func, FunctionRow]
  refine and_congr_right fun hf => ?_
  have hi : i < s.ctx.targetType.length := by
    rw [lengths.targetType, ← lengths.funs]
    exact (List.getElem?_eq_some_iff.mp hf).1
  show ((s.ctx.targetType[i]?).map s.ctx.number).getD (-1) = -1 ↔ _
  rw [List.getElem?_eq_getElem hi, Option.map_some, Option.getD_some, number_eq, Option.some.injEq]

/-- An entry that has `transform_fptr` points to something. -/
def Pointing (e : Entry) : Prop := e.func = .transformFptr → e.targetType ≠ -1

theorem inherited_pointing : Types.Inherited Pointing where
  pointerTo h := h
  ptr _ _ h := nomatch h
  arr _ _ _ h := h
  gen _ _ _ _ _ h _ htarget hf := htarget (h hf)

/-- **Agreement.** Whatever types are constructed, the public predicates agree with the memoized
ones on all types, if and only if the generator entered no function type. -/
theorem memoized_agree_iff (hs : extensions.Reach s) (hc : Resolves c) (ptsto : Typ → Typ) :
    (∀ h, (histories (s.ctx.emit c) ptsto).Reach h → ∀ t te, h.table.find t = some te →
      Agree (s.ctx.number typeFunptr) h.table t te) ↔ ∀ i, ¬ FunctionRow s.ctx i := by
  rw [number_typeFunptr hs]
  constructor
  · intro agree i hrow
    have hi : i < (s.ctx.emit c).len := by
      have hlt := (List.getElem?_eq_some_iff.mp hrow.1).1
      rw [(aligned hs).funs, ← (aligned hs).sizes] at hlt
      exact Nat.lt_succ_of_lt hlt
    obtain ⟨p, hp⟩ : ∃ p, (typeInit (s.ctx.emit c) [] ptsto).1.find i =
        some (Types.builtin (s.ctx.emit c) p i) := find_typeInit hi
    have emitted := (functionRow_iff hs hc i).mpr hrow
    refine (agree_iff hp).mp (agree _ (.init rfl) i _ hp) ⟨emitted.1, emitted.2, rfl, ?_⟩
    rintro (h16 : (i : Int) = 16)
    obtain rfl : i = 16 := by omega
    rw [FunctionRow, funs_typeFunptr hs] at hrow
    exact absurd hrow.1 (by decide)
  · intro rows h hr t te hte
    refine (agree_iff hte).mpr fun ⟨hf, htarget, _⟩ => ?_
    have builtins : ∀ i < (s.ctx.emit c).len, ∀ p, Pointing (Types.builtin (s.ctx.emit c) p i) :=
      fun i _ p hf htarget => rows i ((functionRow_iff hs hc i).mp ⟨hf, htarget⟩)
    exact inherited_pointing.reach builtins hr te (TypeTable.mem_of_find hte) hf htarget

/-- Functions at their addresses; all structs have one function here. -/
def addresses : Compiled where
  sizeof _ := 8
  func
    | some .transformFptr => .transformFptr
    | some .transformPrim => .transformPrim
    | some (.xform ..) | none => .generated 0
  args _ := 0

theorem resolves_addresses : Resolves addresses := by
  intro f
  cases f with
  | none => exact ⟨nofun, nofun⟩
  | some f =>
    cases f with
    | transformFptr => exact ⟨fun _ => rfl, fun _ => rfl⟩
    | transformPrim | xform => exact ⟨nofun, nofun⟩

theorem memoized_agree_list : ∃ s, extensions.Reach s ∧ s.ctx.macrotypes.length = 20 ∧
    ∀ h, (histories (s.ctx.emit addresses) fun _ => -1).Reach h → ∀ t te,
      h.table.find t = some te → Agree (s.ctx.number typeFunptr) h.table t te := by
  obtain ⟨s, hs, hlen, hfuns⟩ : ∃ s, extensions.Reach s ∧ (s.ctx.macrotypes.length = 20 ∧
      ∀ f ∈ s.ctx.funs, f ≠ some .transformFptr) :=
    Sys.exists_reach rfl
      (show (Sys.run extensions [matchedList] ⟨gencontextCreate, []⟩).any _ = true by decide +kernel)
  refine ⟨s, hs, hlen, (memoized_agree_iff hs resolves_addresses _).mpr fun i hrow => ?_⟩
  exact hfuns _ (List.mem_of_getElem? hrow.1) rfl

/-- For `typedef void handler(char *)` the generator enters a type that `visit` takes for a pointer
and `cstrider_is_ptr` does not. -/
theorem memoized_disagree : ∃ vss g h t te,
    transFuncs handlerEnv true nodeResults gencontextCreate = .ok (vss, g) ∧
      (histories (g.emit addresses) fun _ => -1).Reach h ∧ h.table.find t = some te ∧
      memoizedIsPtr te = true ∧ cstriderIsPtr h.table t = some false ∧
      ¬ Agree (g.number typeFunptr) h.table t te := by
  have run : (transFuncs handlerEnv true nodeResults gencontextCreate).toOption.any (fun p =>
      ((typeInit (p.2.emit addresses) [] fun _ => -1).1.find 20).any fun te =>
        memoizedIsPtr te && cstriderIsPtr (typeInit (p.2.emit addresses) [] fun _ => -1).1 20 ==
          some false) = true := by decide +kernel
  cases hgen : transFuncs handlerEnv true nodeResults gencontextCreate with
  | error e =>
    rw [hgen] at run
    cases run
  | ok p =>
    rw [hgen] at run
    simp only [Except.toOption, Option.any_some] at run
    obtain ⟨te, hte, hptr⟩ := (Option.any_eq_true _ _).mp run
    rw [Bool.and_eq_true, beq_iff_eq] at hptr
    refine ⟨p.1, p.2, _, 20, te, rfl, .init rfl, hte, hptr.1, hptr.2, fun agree => ?_⟩
    have same := agree.isPtr
    rw [show cstriderIsPtr _ 20 = some false from hptr.2, hptr.1] at same
    cases same

end Emitted

end CStrider.Traversal
