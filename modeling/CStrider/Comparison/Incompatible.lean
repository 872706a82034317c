import CStrider.Comparison.Reports

/-!
# Incompatible versions of an element

Two versions of an element are incompatible when they are elements of different kinds, or differ in
their generic parameters, their types, their fields or their values. `Reports` says that a result
shows that: in an entry for each field, or at once for the element as a whole.
-/

namespace CStrider.Comparison

open CStrider.Gen (KtTyp)

/-! ## Lists compared as sets -/

section

variable {α κ : Type} [DecidableEq κ] {keyFun : α → κ} {oldL newL : List α}

/-- The call leaves `matched` as it is; `same` is about two elements with one key. -/
def Call.fits (same : α → α → Bool) : Call α → Bool
  | .compare e0 e => same e0 e
  | .added _ | .removed _ => false
  | .reordered => true

/-- A loop over calls that may clear a flag. -/
theorem run_forM_fits {same : α → α → Bool} {f : Call α → StateM Bool Unit}
    (hf : ∀ call b, (f call).run b = ((), b && call.fits same)) (cs : List (Call α)) (b : Bool) :
    (forM cs f : StateM Bool Unit).run b = ((), b && cs.all (Call.fits same)) := by
  induction cs generalizing b with
  | nil =>
    rw [List.all_nil, Bool.and_true]
    rfl
  | cons call cs ih =>
    rw [List.forM_cons, StateT.run_bind, hf]
    change (forM cs f : StateM Bool Unit).run (b && call.fits same) = _
    rw [ih, List.all_cons, Bool.and_assoc]

theorem all_fits {same : α → α → Bool} :
    (calls keyFun (fun e => some (keyFun e)) oldL newL false).all (Call.fits same) = true ↔
      (∀ e ∈ newL, ∃ e0, findKey keyFun oldL (keyFun e) = some e0 ∧ same e0 e) ∧
        ∀ e0 ∈ oldL, keyFun e0 ∈ newL.map keyFun := by
  rw [List.all_eq_true]
  constructor
  · intro hfits
    constructor
    · intro e he
      cases hf : findKey keyFun oldL (keyFun e) with
      | some e0 => exact ⟨e0, rfl, hfits _ (compare_mem_calls.mpr ⟨he, _, rfl, hf⟩)⟩
      | none =>
        have := hfits _ (added_mem_calls.mpr ⟨he, _, rfl, findKey_eq_none.mp hf⟩)
        exact absurd this Bool.false_ne_true
    · intro e0 he0
      by_contra hnot
      have := hfits _ (removed_mem_calls.mpr ⟨he0, by simpa using hnot⟩)
      exact absurd this Bool.false_ne_true
  · rintro ⟨hnew, hold⟩ call hcall
    cases call with
    | compare e0 e =>
      obtain ⟨he, k, hk, hf⟩ := compare_mem_calls.mp hcall
      obtain ⟨e0', hf', hsame⟩ := hnew e he
      obtain rfl := Option.some.inj hk
      rw [hf, Option.some.injEq] at hf'
      exact hf' ▸ hsame
    | added e =>
      obtain ⟨he, k, hk, hnot⟩ := added_mem_calls.mp hcall
      obtain rfl := Option.some.inj hk
      obtain ⟨e0, hf, _⟩ := hnew e he
      exact absurd hf (by simp [findKey_eq_none.mpr hnot])
    | removed e0 =>
      obtain ⟨he0, hnot⟩ := removed_mem_calls.mp hcall
      exact absurd (hold e0 he0) (by simpa using hnot)
    | reordered => rfl

/-- Callbacks that clear a flag find that each element has a partner that is the same. -/
theorem utilCompareLists_iff {c : Callbacks (StateM Bool) α κ} {same : α → α → Bool}
    (hmap : ∀ e, c.mapKeyFun e = pure (some (c.keyFun e)))
    (hf : ∀ call b, (c.perform (pure ()) call).run b = ((), b && call.fits same)) :
    ((utilCompareLists c oldL newL none).run true).2 = true ↔
      (∀ e ∈ newL, ∃ e0, findKey c.keyFun oldL (c.keyFun e) = some e0 ∧ same e0 e) ∧
        ∀ e0 ∈ oldL, c.keyFun e0 ∈ newL.map c.keyFun := by
  have lists : utilCompareLists c oldL newL none = forM _ (c.perform (pure ())) :=
    utilCompareLists_eq hmap (pure ()) oldL newL false
  rw [lists, run_forM_fits hf]
  exact all_fits

end

/-- The same names, in any order. -/
def SameParameters (go0 go1 : List String) : Prop := ∀ name, name ∈ go0 ↔ name ∈ go1

theorem compareGenericOut_iff {go0 go1 : List String} :
    compareGenericOut go0 go1 = true ↔ SameParameters go0 go1 := by
  have hf (call : Call String) (b : Bool) : (genericOutCallbacks.perform (pure ()) call).run b =
      ((), b && call.fits fun _ _ => true) := by
    cases call <;> cases b <;> rfl
  have found (name : String) :
      (∃ e0, findKey genericOutCallbacks.keyFun go0 name = some e0 ∧ true) ↔ name ∈ go0 := by
    simpa [Option.isSome_iff_exists, genericOutCallbacks] using
      @findKey_isSome _ _ _ genericOutCallbacks.keyFun go0 name
  rw [compareGenericOut, utilCompareLists_iff (fun _ => rfl) hf]
  constructor
  · rintro ⟨hnew, hold⟩ name
    refine ⟨fun h0 => ?_, fun h1 => (found name).mp (hnew name h1)⟩
    obtain ⟨_, h, rfl⟩ := List.mem_map.mp (hold name h0)
    exact h
  · intro h
    exact ⟨fun name h1 => (found name).mpr ((h name).mpr h1),
      fun name h0 => List.mem_map_of_mem ((h name).mp h0)⟩

/-- The same names with the same values, in any order; of items with one name the last counts. -/
structure SameItems (items0 items1 : List (String × Int)) : Prop where
  new : ∀ item ∈ items1, ∃ item0, findKey Prod.fst items0 item.1 = some item0 ∧ item0.2 = item.2
  old : ∀ item ∈ items0, item.1 ∈ items1.map Prod.fst

theorem compareItems_iff {items0 items1 : List (String × Int)} :
    ((utilCompareLists enumCallbacks items0 items1 none).run true).2 = true ↔
      SameItems items0 items1 := by
  have hf (call : Call (String × Int)) (b : Bool) : (enumCallbacks.perform (pure ()) call).run b =
      ((), b && call.fits fun item0 item => decide (item0.2 = item.2)) := by
    cases call with
    | compare item0 item =>
      change (if item0.2 ≠ item.2 then set false else pure () : StateM Bool Unit).run b = _
      by_cases h : item0.2 = item.2
      · rw [if_neg (not_not_intro h), Call.fits, decide_eq_true h, Bool.and_true]
        rfl
      · rw [if_pos h, Call.fits, decide_eq_false h, Bool.and_false]
        rfl
    | added _ | removed _ | reordered => cases b <;> rfl
  rw [utilCompareLists_iff (fun _ => rfl) hf]
  simp only [decide_eq_true_iff]
  exact ⟨fun h => ⟨h.1, h.2⟩, fun h => ⟨h.new, h.old⟩⟩

/-! ## What a result shows -/

/-- The element as a whole has no counterpart. -/
def ElemMapping.Unmatched (m : ElemMapping) : Prop := ∃ elems, m = .unmatchedType elems

/-- The entries for the fields of a struct or union. -/
def ElemMapping.fieldMatches : ElemMapping → List ElemMapping
  | .matchAuto _ _ _ (.struct _ fields) => fields
  | .matchAuto _ _ _ (.union fields) => fields
  | _ => []

/-- Two versions of an element are incompatible, apart from their fields. -/
def Differ : TopLevelElem → TopLevelElem → Prop
  | .struct sinfo0, .struct sinfo1 => ¬ SameParameters sinfo0.sgenOut sinfo1.sgenOut
  | .union sinfo0, .union sinfo1 => ¬ SameParameters sinfo0.sgenOut sinfo1.sgenOut
  | .typedef tinfo0, .typedef tinfo1 =>
    tinfo0.ttype.core ≠ tinfo1.ttype.core ∨ ¬ SameParameters tinfo0.tgenOut tinfo1.tgenOut
  | .enumeration einfo0, .enumeration einfo1 =>
    einfo0.eintkind ≠ einfo1.eintkind ∨ ¬ SameItems einfo0.eitems einfo1.eitems
  | .var vinfo0, .var vinfo1 => vinfo0.vtype.core ≠ vinfo1.vtype.core
  | _, _ => True

/-- The fields of two structs or two unions. -/
def bothFields : TopLevelElem → TopLevelElem → List Field × List Field
  | .struct sinfo0, .struct sinfo1 => (sinfo0.sfields, sinfo1.sfields)
  | .union sinfo0, .union sinfo1 => (sinfo0.sfields, sinfo1.sfields)
  | _, _ => ([], [])

/-- Every incompatibility shows up as an `Unmatched` entry. -/
structure Reports (e0 e1 : TopLevelElem) (m : ElemMapping) : Prop where
  whole : Differ e0 e1 → m.Unmatched
  fields : ∀ entry, FieldDifference ([e0.path], [e1.path]) (bothFields e0 e1).1 (bothFields e0 e1).2
    entry → m.Unmatched ∨ entry ∈ m.fieldMatches

/-- Types are compared with argument lists that only differ in their lengths. -/
def Clashing (e0 e1 : TopLevelElem) : Prop := ∃ p ∈ comparedTypes e0 e1, p.1.Clash p.2

/-- An incompatibility lies in nothing but what the comparison does not look at. -/
def Overlooked : TopLevelElem → TopLevelElem → Prop
  | .struct sinfo0, .struct sinfo1 =>
    SameParameters sinfo0.sgenOut sinfo1.sgenOut ∧ FieldsOverlooked sinfo0.sfields sinfo1.sfields
  | .union sinfo0, .union sinfo1 =>
    SameParameters sinfo0.sgenOut sinfo1.sgenOut ∧ FieldsOverlooked sinfo0.sfields sinfo1.sfields
  | .typedef tinfo0, .typedef tinfo1 => tinfo0.ttype.seen = tinfo1.ttype.seen ∧
    (tinfo0.ttype.core ≠ tinfo1.ttype.core ∨ ¬ SameParameters tinfo0.tgenOut tinfo1.tgenOut)
  | .var vinfo0, .var vinfo1 => vinfo0.vtype.seen = vinfo1.vtype.seen ∧
    vinfo0.vtype.core ≠ vinfo1.vtype.core
  | _, _ => False

/-! ## The result of each comparison -/

section

variable {ctx : CompContext} {P : ElemMapping → Prop}

theorem Gives.exists_iff {m : CompM ElemMapping} {x : Except String ElemMapping} (h : Gives m x)
    (t : Tables) : (∃ r t', Runs m t r t' ∧ P r) ↔ ∃ r, x = .ok r ∧ P r := by
  constructor
  · rintro ⟨r, t', hr, hP⟩
    exact ⟨r, h.runs hr, hP⟩
  · rintro ⟨r, hx, hP⟩
    have ht := h t
    rw [hx] at ht
    cases hm : m t with
    | error e =>
      rw [hm] at ht
      cases ht
    | ok p =>
      rw [hm] at ht
      cases ht
      exact ⟨p.1, p.2, hm, hP⟩

/-- A result that is made of the entries of all fields. -/
theorem fields_iff {paths : Paths} {info : Field → Field → MatchInfo} {fields0 fields1 : List Field}
    {order : Bool} {result : List (Option ElemMapping) → ElemMapping} :
    (∃ r, (do
        let os ← (fieldCalls fields0 fields1 order).mapM (entry paths info)
        pure (result os) : Except String ElemMapping) = .ok r ∧ P r) ↔
      (∀ p ∈ fieldTypes fields0 fields1, ¬ p.1.Clash p.2) ∧
        P (result ((fieldCalls fields0 fields1 order).map (entryOf paths info))) := by
  by_cases h : ∀ p ∈ fieldTypes fields0 fields1, ¬ p.1.Clash p.2
  · rw [mapM_entry h, and_iff_right h]
    exact ⟨fun ⟨r, hr, hP⟩ => Except.ok.inj hr ▸ hP, fun hP => ⟨_, rfl, hP⟩⟩
  · refine iff_of_false ?_ fun h' => h h'.1
    rintro ⟨r, hr, _⟩
    cases hos : (fieldCalls fields0 fields1 order).mapM (entry paths info) with
    | error e =>
      rw [hos] at hr
      cases hr
    | ok os => exact h (not_clash_of_mapM hos)

/-- A result that a comparison of two types decides on. -/
theorem types_iff {t0 t1 : KtTyp} {a b : ElemMapping} :
    (∃ r, (do if ← Gen.compareTypes [] t0 t1 then pure a else pure b : Except String ElemMapping) =
        .ok r ∧ P r) ↔
      ¬ t0.Clash t1 ∧ (t0.seen = t1.seen → P a) ∧ (t0.seen ≠ t1.seen → P b) := by
  classical
  by_cases h : t0.Clash t1
  · obtain ⟨e, he⟩ := (Gen.raises_compareTypes t0 t1).mpr h
    rw [he]
    exact iff_of_false (fun ⟨r, hr, _⟩ => by cases hr) fun h' => h'.1 h
  · rw [Gen.compareTypes_eq h, and_iff_right h]
    by_cases hseen : t0.seen = t1.seen
    · rw [decide_eq_true hseen]
      constructor
      · rintro ⟨r, hr, hP⟩
        exact ⟨fun _ => Except.ok.inj hr ▸ hP, fun hne => absurd hseen hne⟩
      · exact fun hP => ⟨a, rfl, hP.1 hseen⟩
    · rw [decide_eq_false hseen]
      constructor
      · rintro ⟨r, hr, hP⟩
        exact ⟨fun heq => absurd heq hseen, fun _ => Except.ok.inj hr ▸ hP⟩
      · exact fun hP => ⟨b, rfl, hP.2 hseen⟩

/-- The parameters decide on one of two results. -/
theorem Gives.generics {α : Type} {m : CompM α} {x : Except String α} (h : Gives m x) (same : Bool)
    (a : α → ElemMapping) (b : ElemMapping) :
    Gives (do let r ← m; if same then pure (a r) else pure b)
      (do let r ← x; pure (if same then a r else b)) := by
  refine h.bind fun r => ?_
  cases same <;> exact gives_pure _

theorem compareStructs_gives (hctx : NoRules ctx) (sinfo0 sinfo1 : StructInfo) :
    Gives (compareStructs ctx sinfo0 sinfo1) (do
      let os ← (fieldCalls sinfo0.sfields sinfo1.sfields true).mapM (entry ctx.paths structInfo)
      pure (if compareGenericOut sinfo0.sgenOut sinfo1.sgenOut then
        .matchAuto ctx.paths (.struct sinfo0.sname [], .struct sinfo1.sname [])
          (sinfo0.sgenOut, sinfo0.sgenOut)
          (.struct (os.foldl pushEntry ⟨[], false, none⟩).reordered os.reduceOption)
      else .unmatchedType ctx.paths)) := by
  have result := (compareStructFields_gives hctx sinfo0.sfields sinfo1.sfields).generics
    (compareGenericOut sinfo0.sgenOut sinfo1.sgenOut)
    (fun p => .matchAuto ctx.paths (.struct sinfo0.sname [], .struct sinfo1.sname [])
      (sinfo0.sgenOut, sinfo0.sgenOut) (.struct p.2 p.1)) (.unmatchedType ctx.paths)
  simp only [bind_assoc, pure_bind, foldl_pushEntry, List.append_nil,
    List.reverse_reverse] at result
  exact result

theorem compareUnions_gives (hctx : NoRules ctx) (sinfo0 sinfo1 : StructInfo) :
    Gives (compareUnions ctx sinfo0 sinfo1) (do
      let os ← (fieldCalls sinfo0.sfields sinfo1.sfields false).mapM (entry ctx.paths unionInfo)
      pure (if compareGenericOut sinfo0.sgenOut sinfo1.sgenOut then
        .matchAuto ctx.paths (.union sinfo0.sname [], .union sinfo1.sname []) ([], [])
          (.union os.reduceOption)
      else .unmatchedType ctx.paths)) := by
  have result := (compareUnionFields_gives hctx sinfo0.sfields sinfo1.sfields).generics
    (compareGenericOut sinfo0.sgenOut sinfo1.sgenOut)
    (fun ms => .matchAuto ctx.paths (.union sinfo0.sname [], .union sinfo1.sname []) ([], [])
      (.union ms)) (.unmatchedType ctx.paths)
  simp only [bind_assoc, pure_bind, foldl_pushUnion, List.append_nil,
    List.reverse_reverse] at result
  exact result

/-- The comparison of two typedefs or two variables. -/
theorem compareSingle_gives (hctx : NoRules ctx) (t0 t1 : KtTyp) (a b : ElemMapping) :
    Gives (do if ← compareTypesReport ctx t0 t1 then pure a else pure b)
      (do if ← Gen.compareTypes [] t0 t1 then pure a else pure b) := by
  refine (compareTypesReport_gives hctx t0 t1).bind fun same => ?_
  cases same <;> exact gives_pure _

variable (ctx) in
theorem compareEnums_gives (einfo0 einfo1 : EnumerationInfo) :
    ∃ r, Gives (compareEnums ctx einfo0 einfo1) (pure r) ∧
      (einfo0.eintkind ≠ einfo1.eintkind ∨ ¬ SameItems einfo0.eitems einfo1.eitems →
        r.Unmatched) := by
  unfold compareEnums
  split
  · exact ⟨.unmatchedType ctx.paths, (gives_pure _).modify, fun _ => ⟨_, rfl⟩⟩
  · next hkind =>
    split
    · next hitems =>
      refine ⟨_, gives_pure _, fun h => ?_⟩
      exact absurd (compareItems_iff.mp hitems) (h.resolve_left hkind)
    · exact ⟨.unmatchedType ctx.paths, gives_pure _, fun _ => ⟨_, rfl⟩⟩

/-! ## Reported, unless overlooked -/

theorem reports_unmatched {e0 e1 : TopLevelElem} {elems : Paths} :
    Reports e0 e1 (.unmatchedType elems) :=
  ⟨fun _ => ⟨elems, rfl⟩, fun _ _ => .inl ⟨elems, rfl⟩⟩

theorem reports_fields {e0 e1 : TopLevelElem} {go0 go1 : List String} {fields0 fields1 : List Field}
    {order : Bool} {info : Field → Field → MatchInfo} {matched : ElemMapping} {elems : Paths}
    (hdiffer : Differ e0 e1 ↔ ¬ SameParameters go0 go1)
    (hfields : bothFields e0 e1 = (fields0, fields1)) (hnot : ¬ matched.Unmatched)
    (hmatched : matched.fieldMatches = ((fieldCalls fields0 fields1 order).map
      (entryOf ([e0.path], [e1.path]) info)).reduceOption) :
    Reports e0 e1 (if compareGenericOut go0 go1 then matched else .unmatchedType elems) ↔
      ¬ (SameParameters go0 go1 ∧ FieldsOverlooked fields0 fields1) := by
  by_cases hsame : SameParameters go0 go1
  · rw [if_pos (compareGenericOut_iff.mpr hsame), and_iff_right hsame, ← shown_iff, ← hmatched]
    constructor
    · intro h m hm
      exact (h.fields m (by rwa [hfields])).resolve_left hnot
    · intro h
      refine ⟨fun hd => absurd hsame (hdiffer.mp hd), fun m hm => .inr (h m ?_)⟩
      rwa [hfields] at hm
  · rw [if_neg (mt compareGenericOut_iff.mp hsame)]
    exact iff_of_true reports_unmatched fun h => hsame h.1

/-- What an element reports that is compared by its type. -/
theorem reports_single {e0 e1 : TopLevelElem} {t0 t1 : KtTyp} {matched : ElemMapping}
    {elems : Paths} (hfields : bothFields e0 e1 = ([], [])) (hnot : ¬ matched.Unmatched) :
    ((t0.seen = t1.seen → Reports e0 e1 matched) ∧
        (t0.seen ≠ t1.seen → Reports e0 e1 (.unmatchedType elems))) ↔
      ¬ (t0.seen = t1.seen ∧ Differ e0 e1) := by
  have nofields (m : ElemMapping) : ¬ FieldDifference ([e0.path], [e1.path]) (bothFields e0 e1).1
      (bothFields e0 e1).2 m := by
    rw [hfields]
    rintro (⟨h, _, _⟩ | ⟨h, _⟩ | ⟨h, _⟩) <;> exact absurd h List.not_mem_nil
  constructor
  · rintro ⟨h, _⟩ ⟨hseen, hd⟩
    exact hnot ((h hseen).whole hd)
  · intro h
    exact ⟨fun hseen => ⟨fun hd => absurd ⟨hseen, hd⟩ h, fun m hm => absurd hm (nofields m)⟩,
      fun _ => reports_unmatched⟩

theorem not_clashing_iff {e0 e1 : TopLevelElem} {types : List (KtTyp × KtTyp)}
    (h : comparedTypes e0 e1 = types) :
    (∀ p ∈ types, ¬ p.1.Clash p.2) ↔ ¬ Clashing e0 e1 := by
  simp only [Clashing, h, not_exists, not_and]

/-- Nothing is compared. -/
theorem not_clashing {e0 e1 : TopLevelElem} (h : comparedTypes e0 e1 = []) : ¬ Clashing e0 e1 :=
  (not_clashing_iff h).mp fun _ hp => absurd hp List.not_mem_nil

theorem not_clashing_single {e0 e1 : TopLevelElem} {t0 t1 : KtTyp}
    (h : comparedTypes e0 e1 = [(t0, t1)]) : ¬ t0.Clash t1 ↔ ¬ Clashing e0 e1 := by
  rw [← not_clashing_iff h, List.forall_mem_singleton]

/-- Elements of different kinds. -/
theorem reported_mixed {m : CompM ElemMapping} {e0 e1 : TopLevelElem} {t : Tables} {elems : Paths}
    (h : Gives m (pure (.unmatchedType elems))) (hcompared : comparedTypes e0 e1 = [])
    (hover : ¬ Overlooked e0 e1) :
    (∃ m' t', Runs m t m' t' ∧ Reports e0 e1 m') ↔ ¬ Clashing e0 e1 ∧ ¬ Overlooked e0 e1 :=
  iff_of_true ((h.exists_iff t).mpr ⟨_, rfl, reports_unmatched⟩) ⟨not_clashing hcompared, hover⟩

/-- **Incompatible versions are reported** unless the comparison raises an exception, because
argument lists of two types differ in their lengths, or the incompatibility lies in what it does not
look at. -/
theorem reported_iff (oldElems newElems : List TopLevelElem) (e0 e1 : TopLevelElem) (t : Tables) :
    (∃ m t', Runs (compareElems (compcontextCreate [] oldElems newElems).1 e0 e1) t m t' ∧
        Reports e0 e1 m) ↔
      ¬ Clashing e0 e1 ∧ ¬ Overlooked e0 e1 := by
  let ctx := (compcontextCreate [] oldElems newElems).1.extended e0.path e1.path
  have hctx : NoRules ctx := ⟨rfl, rfl⟩
  -- the element's own paths depend on the context in which its parts are compared
  have extended {c : CompM ElemMapping} {x : Except String ElemMapping} (h : Gives c x)
      (heq : ∀ s, ∃ s', compareElems (compcontextCreate [] oldElems newElems).1 e0 e1 s = c s') :
      Gives (compareElems (compcontextCreate [] oldElems newElems).1 e0 e1) x := by
    intro s
    obtain ⟨s', hs⟩ := heq s
    rw [hs]
    exact h s'
  cases e0 with
  | struct sinfo0 =>
    cases e1 with
    | struct sinfo1 =>
      have result := extended (compareStructs_gives hctx sinfo0 sinfo1) fun _ => ⟨_, rfl⟩
      exact (result.exists_iff t).trans (fields_iff.trans (and_congr (not_clashing_iff rfl)
        (reports_fields Iff.rfl rfl (fun ⟨_, h⟩ => by cases h) rfl)))
    | _ => exact reported_mixed (extended (gives_pure _) fun _ => ⟨_, rfl⟩) rfl id
  | union sinfo0 =>
    cases e1 with
    | union sinfo1 =>
      have result := extended (compareUnions_gives hctx sinfo0 sinfo1) fun _ => ⟨_, rfl⟩
      exact (result.exists_iff t).trans (fields_iff.trans (and_congr (not_clashing_iff rfl)
        (reports_fields Iff.rfl rfl (fun ⟨_, h⟩ => by cases h) rfl)))
    | _ => exact reported_mixed (extended (gives_pure _) fun _ => ⟨_, rfl⟩) rfl id
  | typedef tinfo0 =>
    cases e1 with
    | typedef tinfo1 =>
      have result := extended (compareSingle_gives hctx tinfo0.ttype tinfo1.ttype _ _)
        fun _ => ⟨_, rfl⟩
      exact (result.exists_iff t).trans (types_iff.trans (and_congr (not_clashing_single rfl)
        (reports_single rfl fun ⟨_, h⟩ => by cases h)))
    | _ => exact reported_mixed (extended (gives_pure _) fun _ => ⟨_, rfl⟩) rfl id
  | enumeration einfo0 =>
    cases e1 with
    | enumeration einfo1 =>
      obtain ⟨r, hr, hdiffer⟩ := compareEnums_gives ctx einfo0 einfo1
      have result := extended hr fun _ => ⟨_, rfl⟩
      refine iff_of_true ((result.exists_iff t).mpr ⟨r, rfl, hdiffer, ?_⟩) ⟨not_clashing rfl, id⟩
      rintro m (⟨h, _, _⟩ | ⟨h, _⟩ | ⟨h, _⟩) <;> exact absurd h List.not_mem_nil
    | _ => exact reported_mixed (extended (gives_pure _) fun _ => ⟨_, rfl⟩) rfl id
  | var vinfo0 =>
    cases e1 with
    | var vinfo1 =>
      have result := extended (compareSingle_gives hctx vinfo0.vtype vinfo1.vtype _ _)
        fun _ => ⟨_, rfl⟩
      exact (result.exists_iff t).trans (types_iff.trans (and_congr (not_clashing_single rfl)
        (reports_single rfl fun ⟨_, h⟩ => by cases h)))
    | _ => exact reported_mixed (extended (gives_pure _) fun _ => ⟨_, rfl⟩) rfl id

/-- `struct s { struct table<..> t; }` with `n` arguments `int`. -/
def tableOf (n : Nat) : TopLevelElem :=
  .struct ⟨"s", [⟨"t", .struct "table" (List.replicate n (.programType (.int .int))), []⟩], []⟩

/-- A parameter is added to `struct table`, and the type of a field gets one more argument. -/
theorem not_reported : ¬ ∃ m t',
    Runs (compareElems (compcontextCreate [] [tableOf 1] [tableOf 2]).1 (tableOf 1) (tableOf 2))
        (compcontextCreate [] [tableOf 1] [tableOf 2]).2 m t' ∧
      Reports (tableOf 1) (tableOf 2) m := by
  rintro ⟨m, t', h, _⟩
  have raised : compareElems (compcontextCreate [] [tableOf 1] [tableOf 2]).1 (tableOf 1)
      (tableOf 2) (compcontextCreate [] [tableOf 1] [tableOf 2]).2 = .error "List.for_all2" := rfl
  rw [Runs, raised] at h
  cases h

end

end CStrider.Comparison
