import CStrider.Comparison.Elements
import CStrider.Comparison.Fixpoint
import CStrider.Lib.Worklist

/-!
# The worklist of the comparison

`compareXformElems` takes pairs of names from `typesTodo` while the comparisons of their definitions
put in others. It comes to an end for types that refer to each other in any way: a pair is followed
only once, and there are no others than the names in the old elements. When nothing was found that
does not match, what was handled is what the requested variables lead to.
-/

namespace CStrider.Comparison

/-- The typedefs, structs and unions that the requested variables lead to. -/
inductive Reachable (oldElems newElems : List TopLevelElem) (xformReqs : List String) :
    XfElem → Prop
  | requested {nm : String} {p : XfElem} : nm ∈ xformReqs → p ∈ uses oldElems newElems (.var nm) →
      Reachable oldElems newElems xformReqs p
  | used {p q : XfElem} : Reachable oldElems newElems xformReqs p → q ∈ uses oldElems newElems p →
      Reachable oldElems newElems xformReqs q

/-! ## Finitely many names -/

/-- All names in an element. -/
def TopLevelElem.names : TopLevelElem → List XfElem
  | .struct sinfo | .union sinfo => sinfo.sfields.flatMap fun f => Comparison.names f.ftype
  | .typedef tinfo => Comparison.names tinfo.ttype
  | .enumeration _ => []
  | .var vinfo => Comparison.names vinfo.vtype

section

variable {oldElems newElems : List TopLevelElem} {xformReqs xformReqs' : List String} {p : XfElem}

theorem namesOf_fieldTypes_subset (fields0 fields1 : List Field) :
    namesOf (fieldTypes fields0 fields1) ⊆ fields0.flatMap fun f => names f.ftype := by
  intro p hp
  obtain ⟨t, ht, hp⟩ := List.mem_flatMap.mp hp
  obtain ⟨f1, _, hf⟩ := List.mem_filterMap.mp ht
  obtain ⟨f0, hf0, rfl⟩ := Option.map_eq_some_iff.mp hf
  exact List.mem_flatMap.mpr ⟨f0, mem_of_findKey hf0, hp⟩

theorem namesOf_comparedTypes_subset (e0 e1 : TopLevelElem) :
    namesOf (comparedTypes e0 e1) ⊆ e0.names := by
  cases e0 <;> cases e1 <;>
    first
      | exact namesOf_fieldTypes_subset _ _
      | simp [comparedTypes, namesOf, TopLevelElem.names]

theorem uses_subset (oldElems newElems : List TopLevelElem) (p : XfElem) :
    uses oldElems newElems p ⊆ oldElems.flatMap TopLevelElem.names := by
  intro q hq
  unfold uses at hq
  split at hq
  · next e0 e1 h0 _ =>
    exact List.mem_flatMap.mpr ⟨e0, mem_of_findKey h0, namesOf_comparedTypes_subset e0 e1 hq⟩
  · exact absurd hq List.not_mem_nil

theorem Reachable.mem (h : Reachable oldElems newElems xformReqs p) :
    p ∈ oldElems.flatMap TopLevelElem.names := by
  cases h with
  | requested _ h => exact uses_subset _ _ _ h
  | used _ h => exact uses_subset _ _ _ h

theorem Reachable.mono (hsub : xformReqs ⊆ xformReqs')
    (h : Reachable oldElems newElems xformReqs p) :
    Reachable oldElems newElems xformReqs' p := by
  induction h with
  | requested hnm h => exact .requested (hsub hnm) h
  | used _ h ih => exact .used ih h

end

/-! ## What holds between two rounds -/

/-- After the variables `reqs`, with the results `vars`, and the pairs that gave the results
`rules`. -/
structure Underway (ctx : CompContext) (reqs : List String) (vars rules : List ElemMapping)
    (t : Tables) : Prop where
  pending : ∀ x ∈ t.typesTodo, ∃ p, Reachable ctx.oldElems ctx.newElems reqs p ∧ x = namesake p
  handled : ∀ x ∈ t.typesDone, ∃ p, Reachable ctx.oldElems ctx.newElems reqs p ∧ x = namesake p
  once : t.typesDone.Nodup
  recorded : t.recordedMatches = t.typesDone ++ (reqs.map fun nm => namesake (.var nm)).reverse
  requested : (∀ m ∈ vars, m.matched) → ∀ nm ∈ reqs,
    Covered (uses ctx.oldElems ctx.newElems (.var nm)) t
  closed : (∀ m ∈ rules, m.matched) → ∀ p, namesake p ∈ t.typesDone →
    Covered (uses ctx.oldElems ctx.newElems p) t

section

variable {ctx : CompContext} {reqs : List String} {vars rules rules' : List ElemMapping}
  {t t' : Tables}

theorem namesake_injective : Function.Injective namesake := by
  intro p q h
  exact (List.cons.inj (Prod.mk.inj h).1).1

/-- What is noted where reachable things are met is reachable. -/
theorem Notes.reachable {ns : List XfElem} {oldElems newElems : List TopLevelElem}
    (h : Notes ns t t')
    (hns : ∀ p ∈ ns, Reachable oldElems newElems reqs p)
    (ht : ∀ x ∈ t.typesTodo, ∃ p, Reachable oldElems newElems reqs p ∧ x = namesake p) :
    ∀ x ∈ t'.typesTodo, ∃ p, Reachable oldElems newElems reqs p ∧ x = namesake p := by
  obtain ⟨l, hl, htodo⟩ := h.typesTodo
  intro x hx
  rw [htodo] at hx
  rcases List.mem_append.mp hx with hx | hx
  · obtain ⟨p, hp, rfl⟩ := List.mem_map.mp (hl hx)
    exact ⟨p, hns p hp, rfl⟩
  · exact ht x hx

/-! ### Variables -/

theorem handleVar_spec {name : String} {m : ElemMapping} (hctx : NoRules ctx)
    (h : Runs (handleVar ctx name) t m t') :
    Compared (uses ctx.oldElems ctx.newElems (.var name)) (m.matched = true)
      { t with recordedMatches := namesake (.var name) :: t.recordedMatches } t' := by
  rw [handleVar, hctx.allRules, findRule_nil, runs_bind] at h
  obtain ⟨rule, s₁, hrule, h⟩ := h
  rw [runs_lift, Except.ok.injEq] at hrule
  obtain ⟨rfl, rfl⟩ := hrule
  exact handleMatch_spec hctx h

/-- After the requested variables no type has been handled. -/
theorem underway_vars {allRules : List XfRule} {oldElems newElems : List TopLevelElem}
    (hctx : NoRules ctx)
    (h : Runs (reqs.mapM (handleVar ctx)) (compcontextCreate allRules oldElems newElems).2 vars t) :
    Underway ctx reqs vars [] t ∧ t.typesDone = [] := by
  refine Runs.mapM (I := fun reqs vars t => Underway ctx reqs vars [] t ∧ t.typesDone = [])
    ?_ ?_ h
  · intro pre nm vars t m t' ⟨inv, hdone⟩ hr
    have compared := handleVar_spec hctx hr
    have hdone' : t'.typesDone = [] := compared.notes.typesDone.trans hdone
    have hsub : pre ⊆ pre ++ [nm] := List.subset_append_left _ _
    refine ⟨⟨?_, ?_, ?_, ?_, ?_, ?_⟩, hdone'⟩
    · refine compared.notes.reachable
        (fun p hp => .requested (List.mem_append_right _ List.mem_cons_self) hp) fun x hx => ?_
      obtain ⟨p, hp, rfl⟩ := inv.pending x hx
      exact ⟨p, hp.mono hsub, rfl⟩
    · simp [hdone']
    · simp [hdone']
    · rw [compared.notes.recordedMatches, inv.recorded, hdone, hdone']
      simp
    · intro hvars nm' hnm'
      have hvars := List.forall_mem_append.mp hvars
      rcases List.mem_append.mp hnm' with hnm' | hnm'
      · have before : Covered (uses ctx.oldElems ctx.newElems (.var nm'))
            { t with recordedMatches := namesake (.var nm) :: t.recordedMatches } :=
          inv.requested hvars.1 nm' hnm'
        exact before.notes compared.notes
      · obtain rfl := List.mem_singleton.mp hnm'
        exact compared.covered (hvars.2 m List.mem_cons_self)
    · simp [hdone']
  · exact ⟨⟨nofun, nofun, List.nodup_nil, rfl, nofun, nofun⟩, rfl⟩

/-! ### Types -/

/-- A pair is followed when it is taken for the first time. -/
theorem handleTypeMapping_spec {p : XfElem} (hctx : NoRules ctx)
    (h : Runs (handleTypeMapping ctx rules (namesake p)) t rules' t') :
    namesake p ∈ t.typesDone ∧ rules' = rules ∧ t' = t ∨
    namesake p ∉ t.typesDone ∧ ∃ m, rules' = m :: rules ∧
      Compared (uses ctx.oldElems ctx.newElems p) (m.matched = true)
        { t with
          typesDone := namesake p :: t.typesDone
          recordedMatches := namesake p :: t.recordedMatches } t' := by
  simp only [handleTypeMapping, runs_bind, runs_get] at h
  obtain ⟨_, _, ⟨rfl, rfl⟩, h⟩ := h
  split at h
  · next hdone =>
    obtain ⟨rfl, rfl⟩ := runs_pure.mp h
    exact .inl ⟨hdone, rfl, rfl⟩
  · next hdone =>
    simp only [runs_bind, runs_modify, runs_pure] at h
    obtain ⟨_, _, rfl, m, t₁, hmatch, rfl, rfl⟩ := h
    exact .inr ⟨hdone, m, rfl, handleMatch_spec hctx hmatch⟩

/-- One round. -/
theorem Underway.step {first : Paths} {rest : List Paths} (hctx : NoRules ctx)
    (inv : Underway ctx reqs vars rules t) (htodo : t.typesTodo = first :: rest)
    (h : Runs (handleTypeMapping ctx rules first) { t with typesTodo := rest } rules' t') :
    Underway ctx reqs vars rules' t' := by
  obtain ⟨p, hp, rfl⟩ := inv.pending first (htodo ▸ List.mem_cons_self)
  have pending : ∀ x ∈ rest, ∃ q, Reachable ctx.oldElems ctx.newElems reqs q ∧ x = namesake q :=
    fun x hx => inv.pending x (htodo ▸ List.mem_cons_of_mem _ hx)
  -- what was noted or handled still is, the pair that is taken being handled now
  have taken {ns : List XfElem} {t₁ : Tables} (hcov : Covered ns t) (h₁ : t₁.typesTodo = rest)
      (hp : namesake p ∈ t₁.typesDone) (hsub : t.typesDone ⊆ t₁.typesDone) : Covered ns t₁ := by
    intro q hq
    rw [h₁]
    rcases hcov q hq with hq | hq
    · rw [htodo] at hq
      rcases List.mem_cons.mp hq with hq | hq
      · exact .inr (hq ▸ hp)
      · exact .inl hq
    · exact .inr (hsub hq)
  rcases handleTypeMapping_spec hctx h with ⟨hdone, rfl, rfl⟩ | ⟨hdone, m, rfl, compared⟩
  · have same := List.Subset.refl t.typesDone
    exact ⟨pending, inv.handled, inv.once, inv.recorded,
      fun hvars nm hnm => taken (inv.requested hvars nm hnm) rfl hdone same,
      fun hrules q hq => taken (inv.closed hrules q hq) rfl hdone same⟩
  · have notes := compared.notes
    have hdone' : t'.typesDone = namesake p :: t.typesDone := notes.typesDone
    have later {ns : List XfElem} (hcov : Covered ns t) : Covered ns t' :=
      (taken hcov rfl List.mem_cons_self (List.subset_cons_self _ _) : Covered ns
        { t with
          typesTodo := rest
          typesDone := namesake p :: t.typesDone
          recordedMatches := namesake p :: t.recordedMatches }).notes notes
    refine ⟨notes.reachable (fun q hq => .used hp hq) pending, ?_, ?_, ?_,
      fun hvars nm hnm => later (inv.requested hvars nm hnm), ?_⟩
    · rw [hdone']
      exact List.forall_mem_cons.mpr ⟨⟨p, hp, rfl⟩, inv.handled⟩
    · rw [hdone']
      exact List.nodup_cons.mpr ⟨hdone, inv.once⟩
    · rw [notes.recordedMatches, hdone', inv.recorded, List.cons_append]
    · intro hrules q hq
      have hrules := List.forall_mem_cons.mp hrules
      rw [hdone'] at hq
      rcases List.mem_cons.mp hq with hq | hq
      · rw [namesake_injective hq]
        exact compared.covered hrules.1
      · exact later (inv.closed hrules.2 q hq)

/-- All rounds. -/
theorem Underway.untilEmpty {fuel : Nat} (hctx : NoRules ctx)
    (inv : Underway ctx reqs vars rules t)
    (h : untilEmpty ctx fuel rules t = some (.ok (rules', t'))) :
    Underway ctx reqs vars rules' t' ∧ t'.typesTodo = [] := by
  induction fuel generalizing rules t with
  | zero => cases h
  | succ fuel ih =>
    rw [Comparison.untilEmpty] at h
    split at h
    · next htodo =>
      cases h
      exact ⟨inv, htodo⟩
    · next first rest htodo =>
      split at h
      · next rules₁ t₁ hround => exact ih (inv.step hctx htodo hround) h
      · cases h

/-- When nothing is left to do, what was handled is what can be reached. -/
theorem Underway.mem_typesDone (inv : Underway ctx reqs vars rules t) (hempty : t.typesTodo = [])
    (hvars : ∀ m ∈ vars, m.matched) (hrules : ∀ m ∈ rules, m.matched) {p : XfElem} :
    namesake p ∈ t.typesDone ↔ Reachable ctx.oldElems ctx.newElems reqs p := by
  have done {ns : List XfElem} (hcov : Covered ns t) (q : XfElem) (hq : q ∈ ns) :
      namesake q ∈ t.typesDone := by
    refine (hcov q hq).resolve_left ?_
    rw [hempty]
    exact List.not_mem_nil
  constructor
  · intro hp
    obtain ⟨q, hq, heq⟩ := inv.handled _ hp
    rwa [namesake_injective heq]
  · intro hp
    induction hp with
    | requested hnm hq => exact done (inv.requested hvars _ hnm) _ hq
    | used _ hq ih => exact done (inv.closed hrules _ ih) _ hq

/-! ## The end -/

/-- The pairs of which the worklist can consist. -/
def namedPairs (oldElems : List TopLevelElem) : Finset Paths :=
  ((oldElems.flatMap TopLevelElem.names).map namesake).toFinset

theorem namesake_mem_namedPairs {oldElems : List TopLevelElem} {p : XfElem}
    (hp : p ∈ oldElems.flatMap TopLevelElem.names) : namesake p ∈ namedPairs oldElems :=
  List.mem_toFinset.mpr (List.mem_map_of_mem hp)

/-- The worklist as one where each pair is its own key. -/
def worklist (pairs : Finset Paths) : Worklist Paths Paths where
  next _ l := ∀ y ∈ l, y ∈ pairs
  key x := if x ∈ pairs then some x else none

/-- `seen` are the pairs that were taken. -/
def worklistState (seen : Multiset Paths) (t : Tables) : Worklist.State Paths Paths :=
  ⟨t.typesTodo, {x | x ∈ t.typesDone}, seen⟩

theorem Underway.mem_namedPairs (inv : Underway ctx reqs vars rules t) :
    ∀ x ∈ t.typesTodo, x ∈ namedPairs ctx.oldElems := by
  intro x hx
  obtain ⟨p, hp, rfl⟩ := inv.pending x hx
  exact namesake_mem_namedPairs hp.mem

theorem worklist_step {first : Paths} {rest : List Paths} (seen : Multiset Paths)
    (hctx : NoRules ctx) (inv : Underway ctx reqs vars rules t)
    (htodo : t.typesTodo = first :: rest)
    (h : Runs (handleTypeMapping ctx rules first) { t with typesTodo := rest } rules' t') :
    (worklist (namedPairs ctx.oldElems)).Step (worklistState seen t)
      (worklistState (first ::ₘ seen) t') := by
  have hmem := inv.mem_namedPairs first (htodo ▸ List.mem_cons_self)
  have hkey : (worklist (namedPairs ctx.oldElems)).key first = some first := if_pos hmem
  obtain ⟨p, hp, rfl⟩ := inv.pending first (htodo ▸ List.mem_cons_self)
  have hpending : (worklistState seen t).pending = namesake p ::ₘ (rest : Multiset Paths) :=
    congrArg Multiset.ofList htodo
  rcases handleTypeMapping_spec hctx h with ⟨hdone, rfl, rfl⟩ | ⟨hdone, m, rfl, compared⟩
  · exact ⟨namesake p, rest, 0, hpending, .again hkey hdone, (zero_add _).symm, rfl⟩
  · obtain ⟨l, hl, htodo'⟩ := compared.notes.typesTodo
    refine ⟨namesake p, rest, l, hpending, ?_, congrArg Multiset.ofList htodo', rfl⟩
    have hmarked : (worklistState (namesake p ::ₘ seen) t').marked =
        insert (namesake p) (worklistState seen t).marked := by
      ext x
      change x ∈ t'.typesDone ↔ _
      rw [compared.notes.typesDone, List.mem_cons]
      rfl
    rw [hmarked]
    refine .first hkey hdone fun y hy => ?_
    obtain ⟨q, hq, rfl⟩ := List.mem_map.mp (hl hy)
    exact namesake_mem_namedPairs (uses_subset _ _ _ hq)

theorem untilEmpty_mono {fuel fuel' : Nat} (hle : fuel ≤ fuel')
    {r : Except String (List ElemMapping × Tables)} (h : untilEmpty ctx fuel rules t = some r) :
    untilEmpty ctx fuel' rules t = some r := by
  induction fuel generalizing fuel' rules t with
  | zero => cases h
  | succ fuel ih =>
    obtain ⟨fuel', rfl⟩ := Nat.exists_eq_add_of_le' (Nat.le_trans (Nat.le_add_left 1 fuel) hle)
    rw [untilEmpty] at h ⊢
    split at h
    · exact h
    · split at h
      · exact ih (by omega) h
      · exact h

/-- The worklist gets empty, or a comparison ends with an error. -/
theorem untilEmpty_ends (hctx : NoRules ctx) (inv : Underway ctx reqs vars rules t) :
    ∃ fuel r, untilEmpty ctx fuel rules t = some r := by
  let pairs := namedPairs ctx.oldElems
  have hK : ∀ x k, (worklist pairs).key x = some k → k ∈ pairs := by
    intro x k hk
    obtain ⟨hx, hk⟩ := Option.ite_none_right_eq_some.mp hk
    exact Option.some.inj hk ▸ hx
  -- every pair has a key, so that no rank is needed
  have hrank : ∀ x l, x ∈ pairs → (worklist pairs).key x = none → (worklist pairs).next x l →
      ∀ y ∈ l, 0 < 0 := by
    intro x l hx hkey
    exact absurd ((if_pos hx).symm.trans hkey) nofun
  have wf := Worklist.wellFounded_step (fun _ => 0) hK hrank
  generalize hst : worklistState 0 t = st
  generalize (0 : Multiset Paths) = seen at hst
  induction st using wf.induction generalizing seen rules t with
  | _ st ih =>
    subst hst
    cases htodo : t.typesTodo with
    | nil => exact ⟨1, .ok (rules, t), by rw [untilEmpty, htodo]⟩
    | cons first rest =>
      cases hround : handleTypeMapping ctx rules first { t with typesTodo := rest } with
      | error e => exact ⟨1, .error e, by rw [untilEmpty, htodo]; simp only [hround]⟩
      | ok r =>
        obtain ⟨rules', t'⟩ := r
        have smaller := And.intro inv.mem_namedPairs (worklist_step seen hctx inv htodo hround)
        obtain ⟨fuel, r, hr⟩ := ih _ smaller (inv.step hctx htodo hround) _ rfl
        exact ⟨fuel + 1, r, by rw [untilEmpty, htodo]; simp only [hround]; exact hr⟩

end

/-! ## The whole comparison -/

section

variable (oldElems newElems : List TopLevelElem)

theorem noRules_create : NoRules (compcontextCreate [] oldElems newElems).1 := ⟨rfl, rfl⟩

/-- The comparison comes to an end. -/
theorem compareXformElems_ends (xformReqs : List String) :
    ∃ fuel₀, ∀ fuel ≥ fuel₀, ∃ r,
      compareXformElems fuel (compcontextCreate [] oldElems newElems).1 xformReqs
        (compcontextCreate [] oldElems newElems).2 = some r := by
  have hctx := noRules_create oldElems newElems
  unfold compareXformElems
  split
  · exact ⟨0, fun _ _ => ⟨_, rfl⟩⟩
  · next vars t₁ hvars =>
    obtain ⟨fuel₁, r, hr⟩ := untilEmpty_ends hctx (underway_vars hctx hvars).1
    cases r with
    | error e =>
      refine ⟨fuel₁, fun fuel hfuel => ⟨.error e, ?_⟩⟩
      rw [untilEmpty_mono hfuel hr]
    | ok r =>
      obtain ⟨rules, t₂⟩ := r
      let depth := (Finset.univ ×ˢ (mappings t₂).toFinset : Finset (Bool × Paths)).card
      refine ⟨fuel₁ + depth + 1, fun fuel hfuel => ?_⟩
      obtain ⟨t', hfix⟩ := computeChangeFixpoint_isSome (t := t₂) (by omega : depth < fuel)
      refine ⟨.ok (vars ++ rules, t'), ?_⟩
      rw [untilEmpty_mono (by omega : fuel₁ ≤ fuel) hr]
      simp only [hfix, Option.map_some]

variable {oldElems newElems}

/-- A result comes from the variables, then from the worklist; at the end only requirements are
marked. -/
theorem compareXformElems_ok {ctx : CompContext} {fuel : Nat} {xformReqs : List String}
    {t t' : Tables} {results : List ElemMapping}
    (h : compareXformElems fuel ctx xformReqs t = some (.ok (results, t'))) :
    ∃ vars rules t₁ t₂, Runs (xformReqs.mapM (handleVar ctx)) t vars t₁ ∧
      untilEmpty ctx fuel [] t₁ = some (.ok (rules, t₂)) ∧ results = vars ++ rules ∧
      t'.typesDone = t₂.typesDone ∧ t'.recordedMatches = t₂.recordedMatches := by
  unfold compareXformElems at h
  split at h
  · cases h
  · next vars t₁ hvars =>
    split at h
    · cases h
    · cases h
    · next rules t₂ hrules =>
      obtain ⟨t₃, hfix, heq⟩ := Option.map_eq_some_iff.mp h
      cases heq
      have frame := computeChangeFixpoint_frame hfix
      exact ⟨vars, rules, t₁, t₂, hvars, hrules, rfl, by rw [frame], by rw [frame]⟩

end

/-- **The worklist is complete and without repetition.** The comparison ends, for types that refer
to each other in any way. If no result is `Unmatched`, the pairs that were handled as type mappings
are those of the names that can be reached, each of them handled once, and besides them only the
requested variables were. -/
theorem worklist_complete (oldElems newElems : List TopLevelElem) (xformReqs : List String) :
    (∃ fuel₀, ∀ fuel ≥ fuel₀, ∃ r,
      compareXformElems fuel (compcontextCreate [] oldElems newElems).1 xformReqs
        (compcontextCreate [] oldElems newElems).2 = some r) ∧
    ∀ fuel results t,
      compareXformElems fuel (compcontextCreate [] oldElems newElems).1 xformReqs
        (compcontextCreate [] oldElems newElems).2 = some (.ok (results, t)) →
      allMatched results →
        (∀ x, x ∈ t.typesDone ↔ ∃ p, Reachable oldElems newElems xformReqs p ∧ x = namesake p) ∧
        t.typesDone.Nodup ∧
        t.recordedMatches =
          t.typesDone ++ (xformReqs.map fun nm => namesake (.var nm)).reverse := by
  refine ⟨compareXformElems_ends oldElems newElems xformReqs, fun fuel results t h hmatched => ?_⟩
  have hctx := noRules_create oldElems newElems
  obtain ⟨vars, rules, t₁, t₂, hvars, hrules, rfl, hdone, hrecorded⟩ := compareXformElems_ok h
  obtain ⟨inv, hempty⟩ := (underway_vars hctx hvars).1.untilEmpty hctx hrules
  obtain ⟨hvars, hrules⟩ := List.forall_mem_append.mp (allMatched_iff.mp hmatched)
  rw [hdone, hrecorded]
  refine ⟨fun x => ⟨fun hx => inv.handled x hx, ?_⟩, inv.once, inv.recorded⟩
  rintro ⟨p, hp, rfl⟩
  exact (inv.mem_typesDone hempty hvars hrules).mpr hp

/-- Two structs that point to each other, and a typedef. -/
def cyclicElems : List TopLevelElem :=
  [.struct ⟨"a", [⟨"next", .ptr (.struct "b" []) none .defaultMalloc, []⟩,
      ⟨"val", .named "t" [], []⟩], []⟩,
    .struct ⟨"b", [⟨"prev", .ptrArray (.struct "a" []) .nullterm .defaultMalloc, []⟩], []⟩,
    TopLevelElem.typedef ⟨"t", .int .int, []⟩,
    .var ⟨"head", .ptr (.struct "a" []) none .defaultMalloc, []⟩]

theorem worklist_complete_cyclic : ∃ results t,
    compareXformElems 20 (compcontextCreate [] cyclicElems cyclicElems).1 ["head"]
      (compcontextCreate [] cyclicElems cyclicElems).2 = some (.ok (results, t)) ∧
    t.typesDone = [namesake (.struct "b"), namesake <| XfElem.typedef "t", namesake (.struct "a")] ∧
    ∀ x, x ∈ t.typesDone ↔ ∃ p, Reachable cyclicElems cyclicElems ["head"] p ∧ x = namesake p :=
  ⟨_, _, rfl, rfl, ((worklist_complete cyclicElems cyclicElems ["head"]).2 20 _ _ rfl rfl).1⟩

end CStrider.Comparison
