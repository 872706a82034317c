import CStrider.Comparison.Incompatible
import Mathlib.Data.List.Dedup

/-!
# The order of generic parameters

`compareGenericOut` compares parameters as sets, but the arguments of a generic type are passed by
position. The generator asserts that the two lists of a result are equal
(`gencontext_set_xform_generics`). A typedef hands on both its lists, a struct the old one twice.
-/

namespace CStrider.Comparison

/-- `gencontext_set_xform_generics` (`tools/cstridgen.ml`), with the bindings of `xform_generics`;
an assertion that fails is an error. -/
def gencontextSetXformGenerics (xformGenerics : List (String × List String)) (xformName : String)
    (genArgs : List String × List String) : Except String (List (String × List String)) := do
  match xformGenerics.lookup xformName with
  | some prevGenerics => if genArgs.1 ≠ prevGenerics then throw "Assert_failure"
  | none => pure ()
  if genArgs.1 ≠ genArgs.2 then throw "Assert_failure"
  pure ((xformName, genArgs.1) :: xformGenerics)

/-- The elements that take generic arguments. -/
inductive GenericElem where
  | struct (sinfo : StructInfo)
  | typedef (tinfo : TypedefInfo)

def GenericElem.elem : GenericElem → TopLevelElem
  | .struct sinfo => .struct sinfo
  | .typedef tinfo => .typedef tinfo

def GenericElem.genOut : GenericElem → List String
  | .struct sinfo => sinfo.sgenOut
  | .typedef tinfo => tinfo.tgenOut

/-- Whatever the rules and the tables are: two versions that are matched, and whose result passes
the assertions, have the same parameters in the same order. -/
def OrderAgrees (g0 g1 : GenericElem) : Prop :=
  ∀ ctx t t' elems types generics info,
    Runs (compareElems ctx g0.elem g1.elem) t (.matchAuto elems types generics info) t' →
      ∀ xformGenerics xformName xformGenerics',
        gencontextSetXformGenerics xformGenerics xformName generics = .ok xformGenerics' →
          g0.genOut = g1.genOut

/-- Structs with the same parameters in another order. -/
def Misordered : GenericElem → GenericElem → Prop
  | .struct sinfo0, .struct sinfo1 =>
    SameParameters sinfo0.sgenOut sinfo1.sgenOut ∧ sinfo0.sgenOut ≠ sinfo1.sgenOut
  | _, _ => False

theorem eq_of_asserted {xformGenerics xformGenerics' : List (String × List String)}
    {xformName : String} {genArgs : List String × List String}
    (h : gencontextSetXformGenerics xformGenerics xformName genArgs = .ok xformGenerics') :
    genArgs.1 = genArgs.2 := by
  by_contra hne
  unfold gencontextSetXformGenerics at h
  rw [if_pos hne] at h
  split at h
  · split at h <;> cases h
  · cases h

theorem asserted (xformName : String) (generics : List String) :
    gencontextSetXformGenerics [] xformName (generics, generics) =
      .ok [(xformName, generics)] := by
  simp [gencontextSetXformGenerics, pure, Except.pure]

section

variable {ctx : CompContext} {s s' : Tables} {elems : Paths} {types : Gen.KtTyp × Gen.KtTyp}
  {generics : List String × List String} {info : MatchInfo}

/-- Two structs are only matched if their parameters are the same. -/
theorem sameParameters_of_compareStructs {sinfo0 sinfo1 : StructInfo}
    (h : Runs (compareStructs ctx sinfo0 sinfo1) s (.matchAuto elems types generics info) s') :
    SameParameters sinfo0.sgenOut sinfo1.sgenOut := by
  rw [compareStructs, runs_bind] at h
  obtain ⟨⟨ms, reordered⟩, s₁, _, h⟩ := h
  simp only at h
  split at h
  · next hsame => exact compareGenericOut_iff.mp hsame
  · cases (runs_pure.mp h).1

/-- A typedef hands on the parameters of both versions. -/
theorem generics_of_compareTypedefs {tinfo0 tinfo1 : TypedefInfo}
    (h : Runs (compareTypedefs ctx tinfo0 tinfo1) s (.matchAuto elems types generics info) s') :
    generics = (tinfo0.tgenOut, tinfo1.tgenOut) := by
  rw [compareTypedefs, runs_bind] at h
  obtain ⟨same, s₁, _, h⟩ := h
  cases same with
  | true =>
    have hm := (runs_pure.mp h).1
    rw [ElemMapping.matchAuto.injEq] at hm
    exact hm.2.2.1.symm
  | false => cases (runs_pure.mp h).1

theorem orderAgrees_of_not_misordered {g0 g1 : GenericElem} (h : ¬ Misordered g0 g1) :
    OrderAgrees g0 g1 := by
  intro ctx t t' elems types generics info hrun xformGenerics xformName xformGenerics' hset
  rw [compareElems, runs_bind] at hrun
  obtain ⟨ctx', t₁, _, hrun⟩ := hrun
  cases g0 with
  | struct sinfo0 =>
    cases g1 with
    | struct sinfo1 =>
      by_contra hne
      exact h ⟨sameParameters_of_compareStructs hrun, hne⟩
    | typedef tinfo1 => cases (runs_pure.mp hrun).1
  | typedef tinfo0 =>
    cases g1 with
    | struct sinfo1 => cases (runs_pure.mp hrun).1
    | typedef tinfo1 =>
      have hlists := eq_of_asserted hset
      rw [generics_of_compareTypedefs hrun] at hlists
      exact hlists

end

/-! ## Structs whose fields are all initialised by rules -/

/-- The computation has a result, with `P`, from every state. -/
def Ends {σ τ α : Type} (P : α → Prop) (m : StateT τ (StateT σ (Except String)) α) : Prop :=
  ∀ x s, ∃ a x' s', Runs (m.run x) s (a, x') s' ∧ P a

section

variable {σ τ α β : Type} {P : α → Prop} {Q : β → Prop}

theorem ends_pure {a : α} (h : P a) : Ends P (pure a : StateT τ (StateT σ (Except String)) α) :=
  fun x s => ⟨a, x, s, rfl, h⟩

theorem Ends.bind {m : StateT τ (StateT σ (Except String)) α}
    {f : α → StateT τ (StateT σ (Except String)) β} (hm : Ends P m) (hf : ∀ a, P a → Ends Q (f a)) :
    Ends Q (m >>= f) := by
  intro x s
  obtain ⟨a, x₁, s₁, hr, ha⟩ := hm x s
  obtain ⟨b, x', s', hr', hb⟩ := hf a ha x₁ s₁
  exact ⟨b, x', s', runs_run_bind.mpr ⟨a, x₁, s₁, hr, hr'⟩, hb⟩

theorem Ends.foldlM {ι : Type} {f : β → ι → StateT τ (StateT σ (Except String)) β} {l : List ι}
    (step : ∀ i ∈ l, ∀ b, Q b → Ends Q (f b i)) {b : β} (hb : Q b) : Ends Q (l.foldlM f b) := by
  induction l generalizing b with
  | nil => exact ends_pure hb
  | cons i l ih =>
    rw [List.foldlM_cons]
    exact (step i List.mem_cons_self b hb).bind fun b' hb' =>
      ih (fun j hj => step j (List.mem_cons_of_mem i hj)) hb'

end

section

variable {σ τ α κ : Type} [DecidableEq κ] {c : Callbacks (StateT τ (StateT σ (Except String))) α κ}

theorem ends_checkOrder {oldL newL : List α} (hmap : ∀ e ∈ newL, Ends (· = none) (c.mapKeyFun e)) :
    Ends (fun _ => True) (checkOrder c oldL newL) := by
  induction oldL generalizing newL with
  | nil => cases newL <;> exact ends_pure trivial
  | cons o os ih =>
    cases newL with
    | nil => exact ends_pure trivial
    | cons n ns =>
      rw [List.forall_mem_cons] at hmap
      exact hmap.1.bind fun _ _ => (ih hmap.2).bind fun _ _ => ends_pure trivial

/-- Where all new elements are skipped, nothing is compared. -/
theorem ends_utilCompareLists {oldL newL : List α}
    (hmap : ∀ e ∈ newL, Ends (· = none) (c.mapKeyFun e))
    (hremoved : ∀ e, Ends (fun _ => True) (c.removedFun e))
    {reordered : StateT τ (StateT σ (Except String)) Unit}
    (hreordered : Ends (fun _ => True) reordered) :
    Ends (fun _ => True) (utilCompareLists c oldL newL (some reordered)) := by
  have new (e : α) (he : e ∈ newL) (st : List κ × Bool) :
      Ends (fun _ => True) (iterNewElem c oldL st e) :=
    (hmap e he).bind fun _ hk => hk ▸ ends_pure trivial
  have old (matchFound : List κ) (e : α) (b : Bool) :
      Ends (fun _ => True) (iterOldElem c matchFound b e) := by
    unfold iterOldElem
    split
    · exact ends_pure trivial
    · exact (hremoved e).bind fun _ _ => ends_pure trivial
  refine (Ends.foldlM (fun e he st _ => new e he st) trivial).bind fun st _ => ?_
  refine (Ends.foldlM (fun e _ b _ => old st.1 e b) trivial).bind fun b _ => ?_
  cases b with
  | true => exact ends_pure trivial
  | false =>
    refine (ends_checkOrder hmap).bind fun ordered _ => ?_
    cases ordered with
    | true => exact ends_pure trivial
    | false => exact hreordered

end

section

variable {path : Path} {fields : List Field} {ctx : CompContext}

/-- `INIT` of the field `name` of the element `path`. -/
def initRule (path : Path) (name : String) : XfRule := .init (.field name :: path) ""

def initRules (path : Path) (fields : List Field) : List XfRule :=
  (fields.map Field.fname).dedup.map (initRule path)

theorem filterM_initRule {p : XfRule → Except String Bool} {fname : String}
    (hp : ∀ name, p (initRule path name) = .ok (decide (name = fname))) (names : List String) :
    (names.map (initRule path)).filterM p =
      .ok ((names.filter (· = fname)).map (initRule path)) := by
  have loop (names : List String) (acc : List XfRule) :
      List.filterAuxM p (names.map (initRule path)) acc =
        .ok (((names.filter (· = fname)).map (initRule path)).reverse ++ acc) := by
    induction names generalizing acc with
    | nil => rfl
    | cons name names ih =>
      rw [List.map_cons, List.filterAuxM, hp]
      change List.filterAuxM p _ (cond (decide (name = fname)) _ _) = _
      rw [ih]
      by_cases h : name = fname
      · simp [h]
      · simp [h]
  rw [List.filterM, loop, List.append_nil]
  exact congrArg Except.ok (List.reverse_reverse _)

theorem findRule_initRules (oldPath : Path) {f : Field} (hf : f ∈ fields) :
    findRule oldPath (.field f.fname :: path) (initRules path fields) =
      .ok (some (initRule path f.fname)) := by
  have once : (fields.map Field.fname).dedup.filter (· = f.fname) = [f.fname] := by
    have hmem : f.fname ∈ (fields.map Field.fname).dedup :=
      List.mem_dedup.mpr (List.mem_map_of_mem hf)
    rw [List.filter_eq, List.count_eq_one_of_mem (List.nodup_dedup _) hmem]
    rfl
  have hp (name : String) : (pure (decide (XfElem.field f.fname :: path = .field name :: path)) :
      Except String Bool) = .ok (decide (name = f.fname)) := by
    simp [pure, Except.pure, eq_comm]
  rw [findRule, initRules, filterM_initRule hp, once]
  rfl

/-- The rule of a new field skips it. -/
theorem ends_structMapKey (hrules : ctx.allRules = initRules ctx.newPath fields) :
    ∀ f ∈ fields, Ends (· = none) (structMapKey ctx f) := by
  intro f hf x s
  rw [structMapKey, hrules, findRule_initRules ctx.oldPath hf]
  exact ⟨none, _, _, rfl, rfl⟩

/-- With rules for its fields, a struct is matched with any that has the same parameters. -/
theorem exists_matched {sinfo0 sinfo1 : StructInfo}
    (h : SameParameters sinfo0.sgenOut sinfo1.sgenOut) : ∃ ctx t t' elems types info,
      Runs (compareElems ctx (.struct sinfo0) (.struct sinfo1)) t
        (.matchAuto elems types (sinfo0.sgenOut, sinfo0.sgenOut) info) t' := by
  let ctx₀ := (compcontextCreate (initRules [.struct sinfo1.sname] sinfo1.sfields) [] []).1
  let ctx := ctx₀.extended (.struct sinfo0.sname) (.struct sinfo1.sname)
  have removed (f : Field) : Ends (fun _ => True) ((structCallbacks ctx).removedFun f) :=
    fun _ _ => ⟨_, _, _, rfl, trivial⟩
  have reordered : Ends (fun _ => True) (reorderedFun ctx) := fun _ _ => ⟨_, _, _, rfl, trivial⟩
  have ends : Ends (fun _ => True) (utilCompareLists (structCallbacks ctx) sinfo0.sfields
      sinfo1.sfields (some (reorderedFun ctx))) :=
    ends_utilCompareLists (ends_structMapKey rfl) removed reordered
  obtain ⟨u, x, s, hlists, _⟩ := ends ⟨[], false, none⟩
    { (compcontextCreate [] [] []).2 with hardDeps := [(ctx.paths, ([], []))] }
  have hfields : Runs (compareStructFields ctx sinfo0.sfields sinfo1.sfields) _
      (x.fieldMatches.reverse, x.reordered) s :=
    runs_bind.mpr ⟨(u, x), s, hlists, runs_pure.mpr ⟨rfl, rfl⟩⟩
  refine ⟨ctx₀, (compcontextCreate [] [] []).2, s, ctx.paths,
    (.struct sinfo0.sname [], .struct sinfo1.sname []),
    .struct x.reordered x.fieldMatches.reverse, runs_bind.mpr ⟨ctx, _, rfl, ?_⟩⟩
  refine runs_bind.mpr ⟨_, s, hfields, ?_⟩
  simp only [compareGenericOut_iff.mpr h, if_true]
  exact runs_pure.mpr ⟨rfl, rfl⟩

/-- **Matched definitions agree on the order of their parameters** unless they are structs with the
same parameters in another order. -/
theorem orderAgrees_iff (g0 g1 : GenericElem) : OrderAgrees g0 g1 ↔ ¬ Misordered g0 g1 := by
  refine ⟨fun hagrees hmis => ?_, orderAgrees_of_not_misordered⟩
  cases g0 with
  | struct sinfo0 =>
    cases g1 with
    | struct sinfo1 =>
      obtain ⟨ctx, t, t', elems, types, info, hrun⟩ := exists_matched hmis.1
      exact hmis.2 (hagrees ctx t t' elems types _ info hrun [] "" _ (asserted "" sinfo0.sgenOut))
    | typedef _ => exact hmis
  | typedef _ => exact hmis

/-- `struct pair` without fields. -/
def pair (generics : List String) : GenericElem := .struct ⟨"pair", [], generics⟩

/-- Its parameters are swapped. -/
theorem order_disagrees : ¬ OrderAgrees (pair ["a", "b"]) (pair ["b", "a"]) := by
  intro h
  have hrun : Runs (compareElems (compcontextCreate [] [] []).1 (pair ["a", "b"]).elem
      (pair ["b", "a"]).elem) (compcontextCreate [] [] []).2 _ _ := rfl
  have heq := h _ _ _ _ _ _ _ hrun [] "" _ (asserted "" ["a", "b"])
  exact absurd heq (by decide)

end

end CStrider.Comparison
