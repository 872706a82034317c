import CStrider.Comparison.Model
import CStrider.Lib.Runs

/-!
# What a comparison notes

Without rename rules a comparison notes nothing but names of the types that it compares, and none
of those names is missing if it found no difference (`Compared`): it may break off at the first
difference, and it does not note again what was handled.
-/

namespace CStrider.Comparison

open CStrider.Gen (KtTyp GenDesc)

mutual

/-- The typedefs, structs and unions that are named in a type, but not those below `TFun` and
`TPtrOpaque`. -/
def names : KtTyp → List XfElem
  | .ptr t _ _ | .ptrArray t _ _ | .array t _ => names t
  | .named nm genIn => .typedef nm :: namesIn genIn
  | .struct nm genIn => .struct nm :: namesIn genIn
  | .union nm genIn => .union nm :: namesIn genIn
  | .void _ | .int _ | .float _ | .ptrOpaque _ | .fn .. | .enum _ | .vaList => []

/-- The same of generic arguments. -/
def namesIn : List GenDesc → List XfElem
  | [] => []
  | d :: ds => descNames d ++ namesIn ds

def descNames : GenDesc → List XfElem
  | .otherGenericBinding _ => []
  | .programType t => names t
  | .ptrTo d => descNames d

end

/-- An element and the one of that name in the other version. -/
def namesake (p : XfElem) : Paths := ([p], [p])

/-! ## Tables before and after -/

/-- Between two states the names `ns` were met, and nothing else was noted or handled. -/
structure Notes (ns : List XfElem) (s s' : Tables) : Prop where
  typesDone : s'.typesDone = s.typesDone
  recordedMatches : s'.recordedMatches = s.recordedMatches
  typesTodo : ∃ l ⊆ ns.map namesake, s'.typesTodo = l ++ s.typesTodo

/-- The names `ns` are handled or noted. -/
def Covered (ns : List XfElem) (s : Tables) : Prop :=
  ∀ p ∈ ns, namesake p ∈ s.typesTodo ∨ namesake p ∈ s.typesDone

/-- What a comparison does where the names `ns` can be met; `same` says that it found no
difference. -/
structure Compared (ns : List XfElem) (same : Prop) (s s' : Tables) : Prop where
  notes : Notes ns s s'
  covered : same → Covered ns s'

section

variable {ns ms : List XfElem} {same same' : Prop} {s s₁ s' : Tables}

/-- Something was put into other tables, or nowhere. -/
theorem Notes.frame (h₁ : s'.typesDone = s.typesDone) (h₂ : s'.recordedMatches = s.recordedMatches)
    (h₃ : s'.typesTodo = s.typesTodo) : Notes ns s s' :=
  ⟨h₁, h₂, [], List.nil_subset _, h₃⟩

theorem Notes.refl (ns : List XfElem) (s : Tables) : Notes ns s s := .frame rfl rfl rfl

theorem Notes.mono (h : Notes ns s s') (hsub : ns ⊆ ms) : Notes ms s s' := by
  obtain ⟨l, hl, htodo⟩ := h.typesTodo
  exact ⟨h.typesDone, h.recordedMatches, l, List.Subset.trans hl (List.map_subset _ hsub), htodo⟩

theorem Notes.trans (h : Notes ns s s₁) (h' : Notes ms s₁ s') : Notes (ns ++ ms) s s' := by
  obtain ⟨l, hl, htodo⟩ := h.typesTodo
  obtain ⟨l', hl', htodo'⟩ := h'.typesTodo
  refine ⟨h'.typesDone.trans h.typesDone, h'.recordedMatches.trans h.recordedMatches,
    l' ++ l, ?_, ?_⟩
  · rw [List.map_append]
    exact List.append_subset.mpr ⟨List.subset_append_of_subset_right _ hl',
      List.subset_append_of_subset_left _ hl⟩
  · rw [htodo', htodo, List.append_assoc]

theorem Covered.notes (h : Covered ns s) (hn : Notes ms s s') : Covered ns s' := by
  obtain ⟨l, _, htodo⟩ := hn.typesTodo
  intro p hp
  rw [hn.typesDone, htodo]
  exact (h p hp).imp_left fun hp => List.mem_append_right l hp

theorem Covered.append (h : Covered ns s) (h' : Covered ms s) : Covered (ns ++ ms) s := by
  intro p hp
  exact (List.mem_append.mp hp).elim (h p) (h' p)

theorem Compared.nil (h : Notes [] s s') : Compared [] same s s' :=
  ⟨h, fun _ _ hp => absurd hp List.not_mem_nil⟩

/-- A comparison that found a difference. -/
theorem Compared.broken (h : Notes ns s s') (hsame : ¬ same) : Compared ns same s s' :=
  ⟨h, fun hs => absurd hs hsame⟩

theorem Compared.imp (h : Compared ns same s s') (himp : same' → same) : Compared ns same' s s' :=
  ⟨h.notes, fun hs => h.covered (himp hs)⟩

theorem Compared.trans (h : Compared ns same s s₁) (h' : Compared ms same' s₁ s') :
    Compared (ns ++ ms) (same ∧ same') s s' :=
  ⟨h.notes.trans h'.notes,
    fun hs => ((h.covered hs.1).notes h'.notes).append (h'.covered hs.2)⟩

/-- Before or after a comparison something may be put into other tables. -/
theorem Compared.after (h : Notes [] s s₁) (h' : Compared ns same s₁ s') : Compared ns same s s' :=
  (Compared.trans (.nil h) h').imp fun hs => ⟨trivial, hs⟩

theorem Compared.before (h : Compared ns same s s₁) (h' : Notes [] s₁ s') :
    Compared ns same s s' := by
  have := (h.trans (.nil h' : Compared [] True s₁ s')).imp fun hs => ⟨hs, trivial⟩
  rwa [List.append_nil] at this

end

/-! ## The context -/

/-- Without rules every comparison that is asked for is noted. -/
structure NoRules (ctx : CompContext) : Prop where
  allRules : ctx.allRules = []
  addComps : ctx.addComps = true

section

variable {ctx : CompContext} {s s' : Tables} {u : Unit}

theorem notes_modify {f : Tables → Tables} (h : Runs (modify f : CompM Unit) s u s')
    (h₁ : (f s).typesDone = s.typesDone) (h₂ : (f s).recordedMatches = s.recordedMatches)
    (h₃ : (f s).typesTodo = s.typesTodo) : Notes [] s s' := by
  obtain rfl := runs_modify.mp h
  exact .frame h₁ h₂ h₃

theorem notes_setRequiresFullXform (h : Runs ctx.setRequiresFullXform s u s') : Notes [] s s' :=
  notes_modify h rfl rfl rfl

theorem notes_setRequiresShallowXform (h : Runs ctx.setRequiresShallowXform s u s') :
    Notes [] s s' :=
  notes_modify h rfl rfl rfl

theorem notes_setMatchFailed (h : Runs ctx.setMatchFailed s u s') : Notes [] s s' :=
  notes_modify h rfl rfl rfl

theorem extendPaths_spec {pe0 pe1 : XfElem} {ctx' : CompContext} (hctx : NoRules ctx)
    (h : Runs (ctx.extendPaths pe0 pe1) s ctx' s') : NoRules ctx' ∧ Notes [] s s' := by
  simp only [CompContext.extendPaths, runs_bind, runs_modify, runs_pure] at h
  obtain ⟨_, _, rfl, rfl, rfl⟩ := h
  exact ⟨⟨hctx.allRules, hctx.addComps⟩, .frame rfl rfl rfl⟩

theorem addTypeComp_spec {throughPtr : Bool} {p : XfElem} (hctx : NoRules ctx)
    (h : Runs (ctx.addTypeComp throughPtr ([p], [p])) s u s') : Compared [p] True s s' := by
  simp only [CompContext.addTypeComp, runs_bind, runs_modify] at h
  obtain ⟨_, s₁, h₁, h₂⟩ := h
  have notes : Notes [] s s₁ := by
    subst h₁
    split <;> exact .frame rfl rfl rfl
  refine Compared.after notes ?_
  split at h₂
  · subst h₂
    refine ⟨⟨rfl, rfl, [([p], [p])], List.Subset.refl _, rfl⟩, fun _ q hq => ?_⟩
    rw [List.mem_singleton.mp hq]
    exact .inl List.mem_cons_self
  · next hdone =>
    subst h₂
    refine ⟨.refl _ _, fun _ q hq => .inr ?_⟩
    rw [List.mem_singleton.mp hq]
    by_contra hq
    exact hdone ⟨hctx.addComps, hq⟩

end

/-! ## Types -/

section

variable {ctx : CompContext} {s s' : Tables} {same throughPtr : Bool}

theorem typeRenamed_nil (p0 p1 : XfElem) : typeRenamed p0 p1 [] = .ok none := rfl

theorem findRule_nil (p0 p1 : Path) : findRule p0 p1 [] = .ok none := rfl

theorem compareNames_spec {p0 p1 : XfElem} {gens : CompM Bool} {ns : List XfElem}
    (hctx : NoRules ctx)
    (hgens : ∀ {s same s'}, Runs gens s same s' → Compared ns (same = true) s s')
    (h : Runs (compareNames ctx throughPtr p0 p1 gens) s same s') :
    Compared (p0 :: ns) (same = true) s s' := by
  rw [compareNames, hctx.allRules, typeRenamed_nil, runs_bind] at h
  obtain ⟨rule, s₁, hrule, h⟩ := h
  rw [runs_lift, Except.ok.injEq] at hrule
  obtain ⟨rfl, rfl⟩ := hrule
  simp only at h
  split at h
  · next heq =>
    rw [← heq, runs_bind] at h
    obtain ⟨_, s₂, hadd, h⟩ := h
    exact ((addTypeComp_spec hctx hadd).trans (hgens h)).imp fun hs => ⟨trivial, hs⟩
  · rw [runs_bind] at h
    obtain ⟨_, s₂, hset, h⟩ := h
    obtain ⟨rfl, rfl⟩ := runs_pure.mp h
    exact .broken ((notes_setRequiresFullXform hset).mono (List.nil_subset _)) Bool.false_ne_true

/-- Nothing is compared. -/
theorem Compared.nothing {α : Type} {a b : α} {same : Prop} (h : Runs (pure a : CompM α) s b s') :
    Compared [] same s s' := by
  obtain ⟨_, rfl⟩ := runs_pure.mp h
  exact .nil (.refl _ _)

/-- A pure result; `hsame` says that there is a difference where something is named. -/
theorem Compared.pure {ns : List XfElem} {b : Bool} (hsame : ns = [] ∨ b = false)
    (h : Runs (pure b : CompM Bool) s same s') : Compared ns (same = true) s s' := by
  rcases hsame with rfl | rfl
  · exact .nothing h
  · obtain ⟨rfl, rfl⟩ := runs_pure.mp h
    exact .broken (.refl _ _) Bool.false_ne_true

mutual

/-- `compareTypes` notes what the first type names. -/
theorem compareTypes_spec (hctx : NoRules ctx) : ∀ {t0 t1 : KtTyp} {throughPtr : Bool}
    {s : Tables} {same : Bool} {s' : Tables}, Runs (compareTypes ctx t0 t1 throughPtr) s same s' →
      Compared (names t0) (same = true) s s'
  | .void _, t1, _, _, _, _, h | .int _, t1, _, _, _, _, h | .float _, t1, _, _, _, _, h
  | .ptrOpaque _, t1, _, _, _, _, h | .enum _, t1, _, _, _, _, h | .vaList, t1, _, _, _, _, h => by
    cases t1 <;> exact .pure (.inl rfl) h
  | .fn .., t1, _, _, _, _, h => by
    cases t1 with
    | fn =>
      rw [compareTypes, runs_bind] at h
      obtain ⟨_, s₁, hset, h⟩ := h
      exact .after (notes_setRequiresShallowXform hset) (.pure (.inl rfl) h)
    | _ => exact .pure (.inl rfl) h
  | .ptr t0 _ mem0, t1, _, _, _, _, h => by
    cases t1 with
    | ptr t1 _ mem1 =>
      simp only [compareTypes, runs_bind, runs_pure] at h
      obtain ⟨_, s₁, hset, same, s₂, hrec, rfl, rfl⟩ := h
      refine .after (notes_setRequiresShallowXform hset) ((compareTypes_spec hctx hrec).imp ?_)
      grind
    | _ => exact .pure (.inr rfl) h
  | .ptrArray t0 len0 mem0, t1, _, _, _, _, h => by
    cases t1 with
    | ptrArray t1 len1 mem1 =>
      simp only [compareTypes, runs_bind, runs_pure] at h
      obtain ⟨_, s₁, hset, same, s₂, hrec, rfl, rfl⟩ := h
      refine .after (notes_setRequiresShallowXform hset) ((compareTypes_spec hctx hrec).imp ?_)
      grind
    | _ => exact .pure (.inr rfl) h
  | .array t0 len0, t1, _, _, _, _, h => by
    cases t1 with
    | array t1 len1 =>
      rw [compareTypes] at h
      split at h
      · have compared := compareTypes_spec hctx h
        rwa [names]
      · exact .pure (.inr rfl) h
    | _ => exact .pure (.inr rfl) h
  | .named nm genIn, t1, _, _, _, _, h => by
    rw [compareTypes] at h
    split at h
    · exact compareNames_spec hctx (compareGenericIn_spec hctx) h
    · exact .pure (.inr rfl) h
  | .struct nm genIn, t1, _, _, _, _, h => by
    rw [compareTypes] at h
    split at h
    · exact compareNames_spec hctx (compareGenericIn_spec hctx) h
    · exact .pure (.inr rfl) h
  | .union nm genIn, t1, _, _, _, _, h => by
    rw [compareTypes] at h
    split at h
    · exact compareNames_spec hctx (compareGenericIn_spec hctx) h
    · exact .pure (.inr rfl) h

theorem compareGenericIn_spec (hctx : NoRules ctx) : ∀ {ds0 ds1 : List GenDesc} {throughPtr : Bool}
    {s : Tables} {same : Bool} {s' : Tables},
    Runs (compareGenericIn ctx ds0 ds1 throughPtr) s same s' →
      Compared (namesIn ds0) (same = true) s s'
  | [], [], _, _, _, _, h => .pure (.inl rfl) h
  | [], _ :: _, _, _, _, _, h | _ :: _, [], _, _, _, _, h => (runs_throw.mp h).elim
  | d0 :: ds0, d1 :: ds1, _, _, _, _, h => by
    rw [compareGenericIn, runs_bind] at h
    obtain ⟨same, s₁, hd, h⟩ := h
    have first := compareTypeDesc_spec hctx hd
    cases same with
    | true => exact (first.trans (compareGenericIn_spec hctx h)).imp fun hs => ⟨rfl, hs⟩
    | false =>
      obtain ⟨rfl, rfl⟩ := runs_pure.mp h
      exact .broken (first.notes.mono (List.subset_append_left _ _)) Bool.false_ne_true

theorem compareTypeDesc_spec (hctx : NoRules ctx) : ∀ {d0 d1 : GenDesc} {throughPtr : Bool}
    {s : Tables} {same : Bool} {s' : Tables}, Runs (compareTypeDesc ctx d0 d1 throughPtr) s same s' →
      Compared (descNames d0) (same = true) s s'
  | .otherGenericBinding _, d1, _, _, _, _, h => by cases d1 <;> exact .pure (.inl rfl) h
  | .programType t0, d1, _, _, _, _, h => by
    cases d1 with
    | programType t1 => exact compareTypes_spec hctx h
    | _ => exact .pure (.inr rfl) h
  | .ptrTo d0, d1, _, _, _, _, h => by
    cases d1 with
    | ptrTo d1 =>
      rw [compareTypeDesc] at h
      have compared := compareTypeDesc_spec hctx h
      rwa [descNames]
    | _ => exact .pure (.inr rfl) h

end

theorem compareTypesReport_spec {t0 t1 : KtTyp} (hctx : NoRules ctx)
    (h : Runs (compareTypesReport ctx t0 t1) s same s') :
    Compared (names t0) (same = true) s s' := by
  rw [compareTypesReport, runs_bind] at h
  obtain ⟨same, s₁, hcmp, h⟩ := h
  have compared := compareTypes_spec hctx hcmp
  cases same with
  | true =>
    obtain ⟨rfl, rfl⟩ := runs_pure.mp h
    exact compared
  | false =>
    obtain ⟨_, s₂, hset, h⟩ := runs_bind.mp h
    obtain ⟨rfl, rfl⟩ := runs_pure.mp h
    exact compared.before (notes_setMatchFailed hset)

end

end CStrider.Comparison
