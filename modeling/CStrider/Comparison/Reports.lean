import CStrider.Comparison.Calls
import CStrider.Comparison.Elements
import CStrider.Comparison.Results
import CStrider.Gen.Clash
import Mathlib.Data.List.ReduceOption

/-!
# What a comparison reports

Without rename rules the result of `compareElems` does not depend on the tables, and has one entry
for each field of the two versions. An incompatibility that the comparison sees has an `Unmatched`
entry. It does not see all (`Overlooked`), and it raises an exception where argument lists of two
versions differ in their lengths.
-/

namespace CStrider.Comparison

open CStrider.Gen (KtTyp)

/-! ## Results with a second state -/

section

variable {α β τ : Type} {x : τ}

theorem Gives.run_bind {m : StateT τ CompM α} {f : α → StateT τ CompM β} {y : Except String (α × τ)}
    {g : α × τ → Except String (β × τ)} (hm : Gives (m.run x) y)
    (hf : ∀ a x', y = .ok (a, x') → Gives ((f a).run x') (g (a, x'))) :
    Gives ((m >>= f).run x) (y >>= g) := by
  intro s
  have hs := hm s
  change (m.run x s >>= fun p => (f p.1.1).run p.1.2 p.2).map Prod.fst = _
  cases hr : m.run x s with
  | error e =>
    rw [hr] at hs
    rw [← hs]
    rfl
  | ok p =>
    rw [hr] at hs
    rw [← hs]
    exact hf p.1.1 p.1.2 hs.symm p.2

theorem Gives.run_lift {m : CompM α} {y : Except String α} (hm : Gives m y) :
    Gives ((liftM m : StateT τ CompM α).run x) (do let a ← y; pure (a, x)) :=
  hm.bind fun a => gives_pure (a, x)

/-- A loop whose rounds each put one thing into the second state. -/
theorem gives_forM {ι : Type} {f : ι → StateT τ CompM Unit} {g : ι → Except String β}
    {push : τ → β → τ} {P : τ → Prop} (hP : ∀ x b, P x → P (push x b)) {l : List ι}
    (step : ∀ i ∈ l, ∀ x, P x → Gives ((f i).run x) (do let b ← g i; pure ((), push x b))) :
    ∀ x, P x → Gives ((forM l f).run x) (do let bs ← l.mapM g; pure ((), bs.foldl push x)) := by
  induction l with
  | nil => exact fun x _ => gives_pure ((), x)
  | cons i l ih =>
    intro x hx
    have rest := ih fun j hj => step j (List.mem_cons_of_mem i hj)
    have round := (step i List.mem_cons_self x hx).run_bind (f := fun _ => forM l f)
      (g := fun p => do let bs ← l.mapM g; pure ((), bs.foldl push p.2)) fun _ x' hx' => by
        refine rest x' ?_
        cases hb : g i with
        | error e =>
          rw [hb] at hx'
          cases hx'
        | ok b =>
          rw [hb] at hx'
          cases hx'
          exact hP x b hx
    rw [List.forM_cons, List.mapM_cons]
    convert round using 1
    simp only [bind_assoc, pure_bind, List.foldl_cons]

end

/-! ## Fields -/

section

variable {ctx : CompContext} {x : FieldState}

theorem compareTypesReport_gives (hctx : NoRules ctx) (t0 t1 : KtTyp) :
    Gives (compareTypesReport ctx t0 t1) (Gen.compareTypes [] t0 t1) := by
  have result := (compareTypes_gives hctx t0 t1 false).bind (f := fun result => do
    if result then pure () else ctx.setMatchFailed
    pure result) (g := pure) fun same => by
      cases same with
      | true => exact gives_pure true
      | false => exact (gives_pure false).modify
  rwa [bind_pure] at result

/-- What a call of `util_compare_lists` about fields adds to the results; nothing but a flag where
the order changed. `info` is what a matched field has in its entry. -/
def entry (paths : Paths) (info : Field → Field → MatchInfo) :
    Call Field → Except String (Option ElemMapping)
  | .compare f0 f1 => do
    let elems := (.field f0.fname :: paths.1, .field f1.fname :: paths.2)
    if ← Gen.compareTypes [] f0.ftype f1.ftype then
      pure (some (.matchAuto elems (f0.ftype, f1.ftype) ([], []) (info f0 f1)))
    else pure (some (.unmatchedType elems))
  | .added f => pure (some (.unmatchedAdded (.field f.fname :: paths.2)))
  | .removed f => pure (some (.unmatchedDeleted (.field f.fname :: paths.2)))
  | .reordered => pure none

/-- What it adds in `compareStructFields`. -/
def pushEntry (x : FieldState) : Option ElemMapping → FieldState
  | some m => { x with fieldMatches := m :: x.fieldMatches }
  | none => { x with reordered := true }

theorem foldl_pushEntry (os : List (Option ElemMapping)) (x : FieldState) :
    (os.foldl pushEntry x).fieldMatches = os.reduceOption.reverse ++ x.fieldMatches := by
  induction os generalizing x with
  | nil => rfl
  | cons o os ih =>
    rw [List.foldl_cons, ih]
    cases o with
    | some m => simp [pushEntry]
    | none => simp [pushEntry]

/-- What it adds in `compareUnionFields`. -/
def pushUnion (ms : List ElemMapping) (o : Option ElemMapping) : List ElemMapping := o.toList ++ ms

theorem foldl_pushUnion (os : List (Option ElemMapping)) (ms : List ElemMapping) :
    os.foldl pushUnion ms = os.reduceOption.reverse ++ ms := by
  induction os generalizing ms with
  | nil => rfl
  | cons o os ih =>
    rw [List.foldl_cons, ih]
    cases o <;> simp [pushUnion]

/-- What a matched field of a struct has in its entry. -/
def structInfo (f0 f1 : Field) : MatchInfo := .var (f0.fgenIn, f1.fgenIn)

/-- What a matched field of a union has. -/
def unionInfo (_ _ : Field) : MatchInfo := .var ([], [])

variable (ctx) in
/-- The context that `compcontext_extend_paths` gives. -/
def CompContext.extended (pe0 pe1 : XfElem) : CompContext :=
  { ctx with oldPath := pe0 :: ctx.oldPath, newPath := pe1 :: ctx.newPath }

theorem NoRules.extended (hctx : NoRules ctx) (pe0 pe1 : XfElem) : NoRules (ctx.extended pe0 pe1) :=
  ⟨hctx.allRules, hctx.addComps⟩

/-- A result decides on one of two entries. -/
theorem Gives.entry {τ : Type} {y : τ} {m : CompM Bool} {z : Except String Bool} {a b : ElemMapping}
    (hm : Gives m z) (push : τ → Option ElemMapping → τ) (add : ElemMapping → StateT τ CompM Unit)
    (hadd : ∀ e y s, (add e).run y s = .ok (((), push y (some e)), s)) :
    Gives ((do if ← liftM m then add a else add b : StateT τ CompM Unit).run y)
      (do let o ← (do if ← z then pure (some a) else pure (some b)); pure ((), push y o)) := by
  have result := (hm.run_lift (x := y)).run_bind (f := fun same => if same then add a else add b)
    (g := fun p => pure ((), push p.2 (some (if p.1 then a else b)))) fun same y' _ => by
      cases same with
      | true => exact fun s => congrArg (Except.map Prod.fst) (hadd a y' s)
      | false => exact fun s => congrArg (Except.map Prod.fst) (hadd b y' s)
  convert result using 1
  cases z with
  | error e => rfl
  | ok same => cases same <;> rfl

theorem structCompareFieldTypes_gives (hctx : NoRules ctx) (f0 f1 : Field)
    (hx : x.matchedRule = none) :
    Gives ((structCompareFieldTypes ctx f0 f1).run x)
      (do let o ← entry ctx.paths structInfo (.compare f0 f1); pure ((), pushEntry x o)) := by
  obtain ⟨ms, reordered, _⟩ := x
  subst hx
  have report := compareTypesReport_gives (hctx.extended (.field f0.fname) (.field f1.fname))
    f0.ftype f1.ftype
  exact fun s => report.entry pushEntry pushMatch (fun _ _ _ => rfl) _

theorem unionCompareFieldTypes_gives (hctx : NoRules ctx) (f0 f1 : Field) (ms : List ElemMapping) :
    Gives ((unionCompareFieldTypes ctx f0 f1).run ms)
      (do let o ← entry ctx.paths unionInfo (.compare f0 f1); pure ((), pushUnion ms o)) := by
  have report := compareTypesReport_gives (hctx.extended (.field f0.fname) (.field f1.fname))
    f0.ftype f1.ftype
  exact fun s => report.entry pushUnion (fun m => modify (m :: ·)) (fun _ _ _ => rfl) _

variable (ctx) in
/-- `reordered_fun` of `compareStructFields`. -/
def reorderedFun : StateT FieldState CompM Unit := do
  ctx.setRequiresFullXform
  modify fun s => { s with reordered := true }

/-- The calls about the fields of two versions. -/
noncomputable def fieldCalls (fields0 fields1 : List Field) (order : Bool) : List (Call Field) :=
  calls (fun f => XfElem.field f.fname) (fun f => some (XfElem.field f.fname)) fields0 fields1 order

theorem compareStructFields_gives (hctx : NoRules ctx) (fields0 fields1 : List Field) :
    Gives (compareStructFields ctx fields0 fields1)
      (do
        let os ← (fieldCalls fields0 fields1 true).mapM (entry ctx.paths structInfo)
        let x := os.foldl pushEntry ⟨[], false, none⟩
        pure (x.fieldMatches.reverse, x.reordered)) := by
  have step (call : Call Field) (x : FieldState) (hx : x.matchedRule = none) :
      Gives (((structCallbacks ctx).perform (reorderedFun ctx) call).run x)
        (do let o ← entry ctx.paths structInfo call; pure ((), pushEntry x o)) := by
    cases call with
    | compare f0 f1 => exact structCompareFieldTypes_gives hctx f0 f1 hx
    | added _ | removed _ | reordered => exact fun _ => rfl
  have unruled (x : FieldState) (o : Option ElemMapping) (hx : x.matchedRule = none) :
      (pushEntry x o).matchedRule = none := by
    cases o <;> exact hx
  have loop := gives_forM unruled (l := fieldCalls fields0 fields1 true)
    (fun call _ => step call) ⟨[], false, none⟩ rfl
  have lists : utilCompareLists (structCallbacks ctx) fields0 fields1 (some (reorderedFun ctx)) =
      forM (fieldCalls fields0 fields1 true) ((structCallbacks ctx).perform (reorderedFun ctx)) :=
    utilCompareLists_eq (structMapKey_eq hctx) (reorderedFun ctx) fields0 fields1 true
  rw [← lists] at loop
  have fields := loop.bind fun p => gives_pure (p.2.fieldMatches.reverse, p.2.reordered)
  rwa [bind_assoc] at fields

theorem compareUnionFields_gives (hctx : NoRules ctx) (fields0 fields1 : List Field) :
    Gives (compareUnionFields ctx fields0 fields1)
      (do
        let os ← (fieldCalls fields0 fields1 false).mapM (entry ctx.paths unionInfo)
        pure (os.foldl pushUnion []).reverse) := by
  have step (call : Call Field) (ms : List ElemMapping) :
      Gives (((unionCallbacks ctx).perform (pure ()) call).run ms)
        (do let o ← entry ctx.paths unionInfo call; pure ((), pushUnion ms o)) := by
    cases call with
    | compare f0 f1 => exact unionCompareFieldTypes_gives hctx f0 f1 ms
    | added _ | removed _ | reordered => exact fun _ => rfl
  have loop := gives_forM (P := fun _ => True) (l := fieldCalls fields0 fields1 false)
    (fun _ _ _ => trivial) (fun call _ ms _ => step call ms) [] trivial
  have lists : utilCompareLists (unionCallbacks ctx) fields0 fields1 none =
      forM (fieldCalls fields0 fields1 false) ((unionCallbacks ctx).perform (pure ())) :=
    utilCompareLists_eq (fun _ => rfl) (pure ()) fields0 fields1 false
  rw [← lists] at loop
  have fields := loop.bind fun p => gives_pure p.2.reverse
  rwa [bind_assoc] at fields

end

/-! ### Which entries there are -/

section

variable {paths : Paths} {info : Field → Field → MatchInfo} {fields0 fields1 : List Field}
  {order : Bool}

open Classical in
/-- The entry of a call that raises no exception. -/
noncomputable def entryOf (paths : Paths) (info : Field → Field → MatchInfo) :
    Call Field → Option ElemMapping
  | .compare f0 f1 =>
    let elems := (.field f0.fname :: paths.1, .field f1.fname :: paths.2)
    if f0.ftype.seen = f1.ftype.seen then
      some (.matchAuto elems (f0.ftype, f1.ftype) ([], []) (info f0 f1))
    else some (.unmatchedType elems)
  | .added f => some (.unmatchedAdded (.field f.fname :: paths.2))
  | .removed f => some (.unmatchedDeleted (.field f.fname :: paths.2))
  | .reordered => none

/-- The old field that a field of the new version is compared with. -/
def partner (fields0 : List Field) (f1 : Field) : Option Field :=
  findKey (fun f => XfElem.field f.fname) fields0 (.field f1.fname)

theorem compare_mem_fieldCalls {f0 f1 : Field} : .compare f0 f1 ∈ fieldCalls fields0 fields1 order ↔
    f1 ∈ fields1 ∧ partner fields0 f1 = some f0 := by
  rw [fieldCalls, compare_mem_calls]
  simp [partner]

theorem added_mem_fieldCalls {f1 : Field} : .added f1 ∈ fieldCalls fields0 fields1 order ↔
    f1 ∈ fields1 ∧ f1.fname ∉ fields0.map Field.fname := by
  rw [fieldCalls, added_mem_calls]
  simp

theorem removed_mem_fieldCalls {f0 : Field} : .removed f0 ∈ fieldCalls fields0 fields1 order ↔
    f0 ∈ fields0 ∧ f0.fname ∉ fields1.map Field.fname := by
  rw [fieldCalls, removed_mem_calls]
  simp

theorem mem_fieldTypes {p : KtTyp × KtTyp} : p ∈ fieldTypes fields0 fields1 ↔
    ∃ f0 f1, .compare f0 f1 ∈ fieldCalls fields0 fields1 order ∧ p = (f0.ftype, f1.ftype) := by
  simp only [compare_mem_fieldCalls, fieldTypes, List.mem_filterMap, Option.map_eq_some_iff,
    partner]
  constructor
  · rintro ⟨f1, hf1, f0, hf0, rfl⟩
    exact ⟨f0, f1, ⟨hf1, hf0⟩, rfl⟩
  · rintro ⟨f0, f1, ⟨hf1, hf0⟩, rfl⟩
    exact ⟨f1, hf1, f0, hf0, rfl⟩

theorem entry_eq {call : Call Field}
    (h : ∀ f0 f1, call = .compare f0 f1 → ¬ f0.ftype.Clash f1.ftype) :
    entry paths info call = .ok (entryOf paths info call) := by
  cases call with
  | compare f0 f1 =>
    rw [entry, Gen.compareTypes_eq (h f0 f1 rfl), entryOf]
    by_cases hseen : f0.ftype.seen = f1.ftype.seen
    · simp only [hseen, decide_true, if_true]
      rfl
    · simp only [hseen, decide_false, if_false]
      rfl
  | added _ | removed _ | reordered => rfl

/-- The results of all calls, unless the types of two fields clash. -/
theorem mapM_entry (h : ∀ p ∈ fieldTypes fields0 fields1, ¬ p.1.Clash p.2) :
    (fieldCalls fields0 fields1 order).mapM (entry paths info) =
      .ok ((fieldCalls fields0 fields1 order).map (entryOf paths info)) := by
  refine mapM_ok fun call hcall => entry_eq fun f0 f1 heq => ?_
  exact h (f0.ftype, f1.ftype) (mem_fieldTypes.mpr ⟨f0, f1, heq ▸ hcall, rfl⟩)

theorem not_clash_of_mapM {os : List (Option ElemMapping)}
    (h : (fieldCalls fields0 fields1 order).mapM (entry paths info) = .ok os) :
    ∀ p ∈ fieldTypes fields0 fields1, ¬ p.1.Clash p.2 := by
  intro p hp hclash
  obtain ⟨f0, f1, hcall, rfl⟩ := mem_fieldTypes.mp hp
  obtain ⟨o, ho⟩ := exists_ok_of_mapM h _ hcall
  obtain ⟨e, he⟩ := (Gen.raises_compareTypes _ _).mpr hclash
  rw [entry, he] at ho
  cases ho

/-- An incompatibility of the fields of two versions, and the entry that shows it. -/
inductive FieldDifference (paths : Paths) (fields0 fields1 : List Field) : ElemMapping → Prop
  | type {f0 f1 : Field} : f1 ∈ fields1 → partner fields0 f1 = some f0 →
      f0.ftype.core ≠ f1.ftype.core → FieldDifference paths fields0 fields1
        (.unmatchedType (.field f0.fname :: paths.1, .field f1.fname :: paths.2))
  | added {f1 : Field} : f1 ∈ fields1 → f1.fname ∉ fields0.map Field.fname →
      FieldDifference paths fields0 fields1 (.unmatchedAdded (.field f1.fname :: paths.2))
  | deleted {f0 : Field} : f0 ∈ fields0 → f0.fname ∉ fields1.map Field.fname →
      FieldDifference paths fields0 fields1 (.unmatchedDeleted (.field f0.fname :: paths.2))

/-- The types of a field differ in what the comparison does not look at, and in nothing else. (Where
a version has several fields of one name, one that it sees to differ is enough.) -/
def FieldsOverlooked (fields0 fields1 : List Field) : Prop :=
  ∃ f1 ∈ fields1, ∃ f0, partner fields0 f1 = some f0 ∧ f0.ftype.core ≠ f1.ftype.core ∧
    ∀ f1' ∈ fields1, f1'.fname = f1.fname → f0.ftype.seen = f1'.ftype.seen

theorem partner_congr {f1 f1' : Field} (h : f1'.fname = f1.fname) :
    partner fields0 f1' = partner fields0 f1 := by
  rw [partner, partner, h]

theorem shown_iff : (∀ m, FieldDifference paths fields0 fields1 m →
      m ∈ ((fieldCalls fields0 fields1 order).map (entryOf paths info)).reduceOption) ↔
    ¬ FieldsOverlooked fields0 fields1 := by
  simp only [List.reduceOption_mem_iff, List.mem_map]
  constructor
  · rintro hshown ⟨f1, hf1, f0, hf0, hcore, hseen⟩
    obtain ⟨call, hcall, hm⟩ := hshown _ (.type hf1 hf0 hcore)
    cases call with
    | compare g0 g1 =>
      obtain ⟨hg1, hg0⟩ := compare_mem_fieldCalls.mp hcall
      rw [entryOf] at hm
      split at hm
      · cases hm
      · next hne =>
        simp only [Option.some.injEq, ElemMapping.unmatchedType.injEq, Prod.mk.injEq,
          List.cons.injEq, XfElem.field.injEq, and_true] at hm
        rw [partner_congr hm.2, hf0, Option.some.injEq] at hg0
        exact hne (hg0 ▸ hseen g1 hg1 hm.2)
    | added _ | removed _ | reordered => cases hm
  · intro hover m hm
    cases hm with
    | @type f0 f1 hf1 hf0 hcore =>
      by_contra hnot
      refine hover ⟨f1, hf1, f0, hf0, hcore, fun g1 hg1 hname => ?_⟩
      by_contra hseen
      refine hnot ⟨.compare f0 g1, compare_mem_fieldCalls.mpr ⟨hg1, ?_⟩, ?_⟩
      · rw [partner_congr hname, hf0]
      · rw [entryOf, if_neg hseen, hname]
    | added hf1 hnew => exact ⟨.added _, added_mem_fieldCalls.mpr ⟨hf1, hnew⟩, rfl⟩
    | deleted hf0 hold => exact ⟨.removed _, removed_mem_fieldCalls.mpr ⟨hf0, hold⟩, rfl⟩

end

end CStrider.Comparison
