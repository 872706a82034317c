import CStrider.Comparison.Effects

/-!
# What the comparison of two elements notes

`uses` are the typedefs, structs and unions that the definitions of a name lead to: the names in the
types that are compared with each other when both versions have the name. If the results hold no
`Unmatched` entry, `handle_match` has noted all that were not handled before.
-/

namespace CStrider.Comparison

open CStrider.Gen (KtTyp)

mutual

/-- The mapping holds no `Unmatched` entry. -/
def ElemMapping.matched : ElemMapping → Bool
  | .matchInit .. | .external => true
  | .matchAuto _ _ _ info => info.matched
  | .unmatchedAdded _ | .unmatchedDeleted _ | .unmatchedType _ => false

def MatchInfo.matched : MatchInfo → Bool
  | .struct _ fields | .union fields => allMatched fields
  | .typedef _ | .var _ | .enum => true

def allMatched : List ElemMapping → Bool
  | [] => true
  | m :: ms => m.matched && allMatched ms

end

theorem allMatched_iff {ms : List ElemMapping} : allMatched ms = true ↔ ∀ m ∈ ms, m.matched := by
  induction ms with
  | nil => simp [allMatched]
  | cons m ms ih => rw [allMatched, Bool.and_eq_true, ih, List.forall_mem_cons]

/-- The types of the fields that have one name in both versions. -/
def fieldTypes (fields0 fields1 : List Field) : List (KtTyp × KtTyp) :=
  fields1.filterMap fun f1 =>
    (findKey (fun f : Field => XfElem.field f.fname) fields0 (.field f1.fname)).map fun f0 =>
      (f0.ftype, f1.ftype)

/-- The types that are compared with each other when two elements are. -/
def comparedTypes : TopLevelElem → TopLevelElem → List (KtTyp × KtTyp)
  | .struct sinfo0, .struct sinfo1 => fieldTypes sinfo0.sfields sinfo1.sfields
  | .union sinfo0, .union sinfo1 => fieldTypes sinfo0.sfields sinfo1.sfields
  | .typedef tinfo0, .typedef tinfo1 => [(tinfo0.ttype, tinfo1.ttype)]
  | .var vinfo0, .var vinfo1 => [(vinfo0.vtype, vinfo1.vtype)]
  | _, _ => []

/-- What is named in types that are compared. Where no difference is found, the new types name the
same. -/
def namesOf (types : List (KtTyp × KtTyp)) : List XfElem := types.flatMap fun t => names t.1

/-- What the two definitions of `p` lead to; nothing where one version has none. -/
def uses (oldElems newElems : List TopLevelElem) (p : XfElem) : List XfElem :=
  match findElem oldElems [p], findElem newElems [p] with
  | some e0, some e1 => namesOf (comparedTypes e0 e1)
  | _, _ => []

theorem uses_eq {oldElems newElems : List TopLevelElem} {p : XfElem} {e0 e1 : TopLevelElem}
    (h0 : findElem oldElems [p] = some e0) (h1 : findElem newElems [p] = some e1) :
    uses oldElems newElems p = namesOf (comparedTypes e0 e1) := by
  simp only [uses, h0, h1]

theorem uses_eq_nil {oldElems newElems : List TopLevelElem} {p : XfElem}
    (h : ∀ e0 e1, findElem oldElems [p] = some e0 → findElem newElems [p] = some e1 → False) :
    uses oldElems newElems p = [] := by
  unfold uses
  split
  · next e0 e1 h0 h1 => exact absurd h1 (h e0 e1 h0)
  · rfl

/-! ## Fields -/

section

variable {ctx : CompContext} {s s₁ s' : Tables} {fields0 fields1 : List Field}

theorem namesOf_fieldTypes_some {pre : List Field} {f0 f1 : Field}
    (h : findKey (fun f : Field => XfElem.field f.fname) fields0 (.field f1.fname) = some f0) :
    namesOf (fieldTypes fields0 (pre ++ [f1])) =
      namesOf (fieldTypes fields0 pre) ++ names f0.ftype := by
  simp [namesOf, fieldTypes, h]

theorem namesOf_fieldTypes_none {pre : List Field} {f1 : Field}
    (h : findKey (fun f : Field => XfElem.field f.fname) fields0 (.field f1.fname) = none) :
    namesOf (fieldTypes fields0 (pre ++ [f1])) = namesOf (fieldTypes fields0 pre) := by
  simp [namesOf, fieldTypes, h]

@[simp] theorem pushMatch_runs {m : ElemMapping} {st st' : FieldState} {u : Unit} :
    Runs ((pushMatch m).run st) s (u, st') s' ↔
      { st with fieldMatches := m :: st.fieldMatches } = st' ∧ s = s' := runs_run_modify

/-- The comparison of two fields adds one entry to the results. -/
theorem structCompareFieldTypes_spec {f0 f1 : Field} {st st' : FieldState} {u : Unit}
    (hctx : NoRules ctx) (hrule : st.matchedRule = none)
    (h : Runs ((structCompareFieldTypes ctx f0 f1).run st) s (u, st') s') :
    ∃ m, { st with fieldMatches := m :: st.fieldMatches } = st' ∧
      Compared (names f0.ftype) (m.matched = true) s s' := by
  simp only [structCompareFieldTypes, runs_run_bind, runs_run_lift, runs_run_get] at h
  obtain ⟨ctx', _, s₁, ⟨hext, rfl⟩, st, _, _, ⟨rfl, rfl, rfl⟩, h⟩ := h
  obtain ⟨hctx', notes⟩ := extendPaths_spec hctx hext
  simp only [hrule, runs_run_bind, runs_run_lift] at h
  obtain ⟨typesMatch, _, s₂, ⟨hcmp, rfl⟩, h⟩ := h
  have compared := Compared.after notes (compareTypesReport_spec hctx' hcmp)
  split at h
  · next hmatch =>
    obtain ⟨hst, rfl⟩ := pushMatch_runs.mp h
    exact ⟨_, hst, compared.imp fun _ => hmatch⟩
  · obtain ⟨hst, rfl⟩ := pushMatch_runs.mp h
    exact ⟨_, hst, compared.imp fun h => absurd h Bool.false_ne_true⟩

theorem unionCompareFieldTypes_spec {f0 f1 : Field} {ms ms' : List ElemMapping} {u : Unit}
    (hctx : NoRules ctx) (h : Runs ((unionCompareFieldTypes ctx f0 f1).run ms) s (u, ms') s') :
    ∃ m, m :: ms = ms' ∧ Compared (names f0.ftype) (m.matched = true) s s' := by
  simp only [unionCompareFieldTypes, runs_run_bind, runs_run_lift] at h
  obtain ⟨ctx', _, s₁, ⟨hext, rfl⟩, typesMatch, _, s₂, ⟨hcmp, rfl⟩, h⟩ := h
  obtain ⟨hctx', notes⟩ := extendPaths_spec hctx hext
  have compared := Compared.after notes (compareTypesReport_spec hctx' hcmp)
  split at h
  · next hmatch =>
    obtain ⟨hms, rfl⟩ := runs_run_modify.mp h
    exact ⟨_, hms, compared.imp fun _ => hmatch⟩
  · obtain ⟨hms, rfl⟩ := runs_run_modify.mp h
    exact ⟨_, hms, compared.imp fun h => absurd h Bool.false_ne_true⟩

/-- One more entry after the comparison of some fields. -/
theorem Compared.entry {ns ms : List XfElem} {m : ElemMapping} {entries : List ElemMapping}
    (h : Compared ns (∀ e ∈ entries, e.matched) s s₁)
    (h' : Compared ms (m.matched = true) s₁ s') :
    Compared (ns ++ ms) (∀ e ∈ m :: entries, e.matched) s s' :=
  (h.trans h').imp fun hs => (List.forall_mem_cons.mp hs).symm

/-- An `Unmatched` entry after the comparison of some fields. -/
theorem Compared.unmatched {ns : List XfElem} {m : ElemMapping} {entries : List ElemMapping}
    (h : Compared ns (∀ e ∈ entries, e.matched) s s₁) (h' : Notes [] s₁ s')
    (hm : m.matched = false) :
    Compared ns (∀ e ∈ m :: entries, e.matched) s s' :=
  .broken (h.before h').notes fun hs => Bool.false_ne_true (hm ▸ hs m List.mem_cons_self)

/-- After some of the fields of two structs: no rule is left over, and the entries are about what
was noted. -/
def FieldsDone (s : Tables) (fields0 pre : List Field) (st : FieldState) (s₁ : Tables) : Prop :=
  st.matchedRule = none ∧
    Compared (namesOf (fieldTypes fields0 pre)) (∀ m ∈ st.fieldMatches, m.matched) s s₁

/-- Without rules every field keeps its name. -/
theorem structMapKey_eq (hctx : NoRules ctx) (f : Field) :
    structMapKey ctx f = pure (some (.field f.fname)) := by
  rw [structMapKey, hctx.allRules, findRule_nil]
  rfl

theorem keep_structCallbacks (hctx : NoRules ctx) :
    (structCallbacks ctx).Keep fields0 fields1 (FieldsDone s fields0) where
  unrenamed f := structMapKey_eq hctx f
  compare := by
    rintro done f0 f1 st s₁ u st' s₂ hkey ⟨hrule, hdone⟩ hr
    obtain ⟨m, rfl, hcmp⟩ := structCompareFieldTypes_spec hctx hrule hr
    refine ⟨hrule, ?_⟩
    rw [namesOf_fieldTypes_some hkey]
    exact hdone.entry hcmp
  added := by
    rintro done f1 st s₁ u st' s₂ hkey ⟨hrule, hdone⟩ hr
    simp only [structCallbacks, runs_run_bind, runs_run_lift, pushMatch_runs] at hr
    obtain ⟨_, _, s₃, ⟨hfull, rfl⟩, _, _, s₄, ⟨hfailed, rfl⟩, rfl, rfl⟩ := hr
    have notes := (notes_setRequiresFullXform hfull).trans (notes_setMatchFailed hfailed)
    refine ⟨hrule, ?_⟩
    rw [namesOf_fieldTypes_none hkey]
    exact hdone.unmatched notes rfl
  removed := by
    rintro f0 st s₁ u st' s₂ ⟨hrule, hdone⟩ hr
    simp only [structCallbacks, runs_run_bind, runs_run_lift, pushMatch_runs] at hr
    obtain ⟨_, _, s₃, ⟨hfull, rfl⟩, rfl, rfl⟩ := hr
    exact ⟨hrule, hdone.unmatched (notes_setRequiresFullXform hfull) rfl⟩

theorem compareStructFields_spec {ms : List ElemMapping} {reordered : Bool} (hctx : NoRules ctx)
    (h : Runs (compareStructFields ctx fields0 fields1) s (ms, reordered) s') :
    Compared (namesOf (fieldTypes fields0 fields1)) (∀ m ∈ ms, m.matched) s s' := by
  rw [compareStructFields, runs_bind] at h
  obtain ⟨⟨u, st⟩, s₁, hlists, h⟩ := h
  obtain ⟨hms, rfl⟩ := runs_pure.mp h
  obtain ⟨rfl, rfl⟩ := Prod.mk.inj hms
  have done : FieldsDone s fields0 fields1 st s₁ := by
    refine (keep_structCallbacks hctx).utilCompareLists ?_ ⟨rfl, .nil (.refl _ _)⟩ hlists
    rintro r st s₁ u st' s₂ hr ⟨hrule, hdone⟩ hr'
    obtain rfl := Option.some.inj hr
    simp only [runs_run_bind, runs_run_lift, runs_run_modify] at hr'
    obtain ⟨_, _, s₃, ⟨hfull, rfl⟩, rfl, rfl⟩ := hr'
    exact ⟨hrule, hdone.before (notes_setRequiresFullXform hfull)⟩
  exact done.2.imp fun hs m hm => hs m (List.mem_reverse.mpr hm)

theorem keep_unionCallbacks (hctx : NoRules ctx) :
    (unionCallbacks ctx).Keep fields0 fields1 fun done ms s₁ =>
      Compared (namesOf (fieldTypes fields0 done)) (∀ m ∈ ms, m.matched) s s₁ where
  unrenamed _ := rfl
  compare := by
    intro done f0 f1 ms s₁ u ms' s₂ hkey hdone hr
    obtain ⟨m, rfl, hcmp⟩ := unionCompareFieldTypes_spec hctx hr
    rw [namesOf_fieldTypes_some hkey]
    exact hdone.entry hcmp
  added := by
    intro done f1 ms s₁ u ms' s₂ hkey hdone hr
    obtain ⟨rfl, rfl⟩ := runs_run_modify.mp hr
    rw [namesOf_fieldTypes_none hkey]
    exact hdone.unmatched (.refl _ _) rfl
  removed := by
    intro f0 ms s₁ u ms' s₂ hdone hr
    obtain ⟨rfl, rfl⟩ := runs_run_modify.mp hr
    exact hdone.unmatched (.refl _ _) rfl

theorem compareUnionFields_spec {ms : List ElemMapping} (hctx : NoRules ctx)
    (h : Runs (compareUnionFields ctx fields0 fields1) s ms s') :
    Compared (namesOf (fieldTypes fields0 fields1)) (∀ m ∈ ms, m.matched) s s' := by
  rw [compareUnionFields, runs_bind] at h
  obtain ⟨⟨u, ms⟩, s₁, hlists, h⟩ := h
  obtain ⟨rfl, rfl⟩ := runs_pure.mp h
  have done : Compared (namesOf (fieldTypes fields0 fields1)) (∀ m ∈ ms, m.matched) s s₁ := by
    refine (keep_unionCallbacks hctx).utilCompareLists ?_ (.nil (.refl _ _)) hlists
    intro r ms s₁ u ms' s₂ hr
    cases hr
  exact done.imp fun hs m hm => hs m (List.mem_reverse.mpr hm)

end

/-! ## Elements -/

section

variable {ctx : CompContext} {s s' : Tables} {m : ElemMapping}

theorem compareStructs_spec {sinfo0 sinfo1 : StructInfo} (hctx : NoRules ctx)
    (h : Runs (compareStructs ctx sinfo0 sinfo1) s m s') :
    Compared (namesOf (fieldTypes sinfo0.sfields sinfo1.sfields)) (m.matched = true) s s' := by
  rw [compareStructs, runs_bind] at h
  obtain ⟨⟨ms, reordered⟩, s₁, hfields, h⟩ := h
  have compared := compareStructFields_spec hctx hfields
  simp only at h
  split at h
  · obtain ⟨rfl, rfl⟩ := runs_pure.mp h
    exact compared.imp allMatched_iff.mp
  · obtain ⟨rfl, rfl⟩ := runs_pure.mp h
    exact compared.imp fun h => absurd h Bool.false_ne_true

theorem compareUnions_spec {sinfo0 sinfo1 : StructInfo} (hctx : NoRules ctx)
    (h : Runs (compareUnions ctx sinfo0 sinfo1) s m s') :
    Compared (namesOf (fieldTypes sinfo0.sfields sinfo1.sfields)) (m.matched = true) s s' := by
  rw [compareUnions, runs_bind] at h
  obtain ⟨ms, s₁, hfields, h⟩ := h
  have compared := compareUnionFields_spec hctx hfields
  split at h
  · obtain ⟨rfl, rfl⟩ := runs_pure.mp h
    exact compared.imp allMatched_iff.mp
  · obtain ⟨rfl, rfl⟩ := runs_pure.mp h
    exact compared.imp fun h => absurd h Bool.false_ne_true

/-- What stands between the comparison of two types and the result, for typedefs and variables. -/
theorem compared_single {t0 t1 : KtTyp} {matchAuto unmatched : ElemMapping} (hctx : NoRules ctx)
    (hunmatched : unmatched.matched = false)
    (h : Runs (do if ← compareTypesReport ctx t0 t1 then pure matchAuto else pure unmatched)
      s m s') :
    Compared (namesOf [(t0, t1)]) (m.matched = true) s s' := by
  obtain ⟨same, s₁, hcmp, h⟩ := runs_bind.mp h
  have compared := compareTypesReport_spec hctx hcmp
  have hnames : namesOf [(t0, t1)] = names t0 := List.append_nil _
  rw [hnames]
  cases same with
  | true =>
    obtain ⟨rfl, rfl⟩ := runs_pure.mp h
    exact compared.imp fun _ => rfl
  | false =>
    obtain ⟨rfl, rfl⟩ := runs_pure.mp h
    exact compared.imp fun hs => hunmatched.symm.trans hs

theorem compareEnums_spec {einfo0 einfo1 : EnumerationInfo}
    (h : Runs (compareEnums ctx einfo0 einfo1) s m s') :
    Compared [] (m.matched = true) s s' := by
  unfold compareEnums at h
  split at h
  · obtain ⟨_, s₁, hfailed, h⟩ := runs_bind.mp h
    obtain ⟨rfl, rfl⟩ := runs_pure.mp h
    exact .nil (notes_setMatchFailed hfailed)
  · split at h
    · exact .nothing h
    · exact .nothing h

theorem compareElems_spec {e0 e1 : TopLevelElem} (hctx : NoRules ctx)
    (h : Runs (compareElems ctx e0 e1) s m s') :
    Compared (namesOf (comparedTypes e0 e1)) (m.matched = true) s s' := by
  rw [compareElems, runs_bind] at h
  obtain ⟨ctx', s₁, hext, h⟩ := h
  obtain ⟨hctx', notes⟩ := extendPaths_spec hctx hext
  refine Compared.after notes ?_
  cases e0 with
  | struct sinfo0 =>
    cases e1 with
    | struct sinfo1 => exact compareStructs_spec hctx' h
    | _ => exact .nothing h
  | union sinfo0 =>
    cases e1 with
    | union sinfo1 => exact compareUnions_spec hctx' h
    | _ => exact .nothing h
  | typedef tinfo0 =>
    cases e1 with
    | typedef tinfo1 => exact compared_single hctx' rfl h
    | _ => exact .nothing h
  | enumeration einfo0 =>
    cases e1 with
    | enumeration einfo1 => exact compareEnums_spec h
    | _ => exact .nothing h
  | var vinfo0 =>
    cases e1 with
    | var vinfo1 => exact compared_single hctx' rfl h
    | _ => exact .nothing h

/-- `handle_match` records the pair, and notes what it leads to. -/
theorem handleMatch_spec {p : XfElem} (hctx : NoRules ctx)
    (h : Runs (handleMatch ctx [p] [p]) s m s') :
    Compared (uses ctx.oldElems ctx.newElems p) (m.matched = true)
      { s with recordedMatches := namesake p :: s.recordedMatches } s' := by
  simp only [handleMatch, recordMatch, runs_bind, runs_modify] at h
  obtain ⟨_, _, rfl, h⟩ := h
  split at h
  · next e0 e1 h0 h1 =>
    rw [hctx.allRules, typeRenamed_nil, runs_bind] at h
    obtain ⟨rule, s₁, hrule, h⟩ := h
    rw [runs_lift, Except.ok.injEq] at hrule
    obtain ⟨rfl, rfl⟩ := hrule
    rw [uses_eq h0 h1]
    exact compareElems_spec hctx h
  · next hnone =>
    rw [uses_eq_nil hnone]
    exact .nothing h

end

end CStrider.Comparison
