import Mathlib.Algebra.BigOperators.Group.Finset.Basic
import Mathlib.Algebra.Order.BigOperators.Group.Finset
import Mathlib.Logic.Relation

/-!
# Labelled systems and their invariants

A system is a set of initial states and a partial step function on labels: a label names the
component that moves together with everything its move leaves open, so that the labels are the
scheduler and every run is the fold of a list of labels. A property of all runs is an
**inductive invariant** (`Sys.Inductive`), proved relative to a property already known of the
reachable states (`Sys.Inductive.reach`); what can no longer be undone is a **stable** property
(`Sys.Stable.later`).

The last section has the two facts about sums over components that counting arguments need: how
a sum changes when one component moves, and what a single summand owes to the sum.
-/

namespace CStrider

/-- A system with states `σ` and labels `ι`; `step` is `none` where the label is not enabled. -/
structure Sys (σ ι : Type*) where
  init : σ → Prop
  step : ι → σ → Option σ

namespace Sys

variable {σ ι : Type*} (S : Sys σ ι)

/-- The states that some run reaches. -/
inductive Reach : σ → Prop
  | init {s : σ} : S.init s → Reach s
  | step {s s' : σ} (l : ι) : Reach s → S.step l s = some s' → Reach s'

/-- Some label leads from `s` to `s'`. -/
def Next (s s' : σ) : Prop := ∃ l, S.step l s = some s'

/-- Any number of steps. -/
def Later : σ → σ → Prop := Relation.ReflTransGen S.Next

/-- `I` holds at the start and every step from a state with `K` keeps it. -/
structure Inductive (K I : σ → Prop) : Prop where
  init : ∀ {s}, S.init s → I s
  step : ∀ {l s s'}, K s → I s → S.step l s = some s' → I s'

/-- Every step from a state with `K` keeps `I`. -/
def Stable (K I : σ → Prop) : Prop := ∀ {l s s'}, K s → I s → S.step l s = some s' → I s'

/-- The fold of a list of labels; `none` as soon as one is not enabled. -/
def run : List ι → σ → Option σ
  | [], s => some s
  | l :: ls, s => (S.step l s).bind (run ls)

variable {S}

/-- The rule of invariants. -/
theorem Inductive.reach {K I : σ → Prop} (h : S.Inductive K I) (hK : ∀ {s}, S.Reach s → K s)
    {s : σ} (hs : S.Reach s) : I s := by
  induction hs with
  | init hi => exact h.init hi
  | step l hr hst ih => exact h.step (hK hr) ih hst

theorem Reach.later {s s' : σ} (hs : S.Reach s) (h : S.Later s s') : S.Reach s' := by
  induction h with
  | refl => exact hs
  | tail _ hn ih =>
    obtain ⟨l, hl⟩ := hn
    exact .step l ih hl

/-- What holds once of a stable property holds from then on. -/
theorem Stable.later {K I : σ → Prop} (h : S.Stable K I) (hK : ∀ {s}, S.Reach s → K s)
    {s s' : σ} (hs : S.Reach s) (hI : I s) (hl : S.Later s s') : I s' := by
  induction hl with
  | refl => exact hI
  | tail hl hn ih =>
    obtain ⟨l, hst⟩ := hn
    exact h (hK (hs.later hl)) ih hst

theorem Later.refl (s : σ) : S.Later s s := Relation.ReflTransGen.refl

theorem Later.trans {s t u : σ} (h : S.Later s t) (h' : S.Later t u) : S.Later s u :=
  Relation.ReflTransGen.trans h h'

theorem later_of_run {ls : List ι} {s s' : σ} (h : S.run ls s = some s') : S.Later s s' := by
  induction ls generalizing s with
  | nil =>
    obtain rfl : s = s' := by simpa [run] using h
    exact Later.refl s
  | cons l ls ih =>
    obtain ⟨t, ht, hr⟩ := Option.bind_eq_some_iff.mp h
    exact Relation.ReflTransGen.head ⟨l, ht⟩ (ih hr)

/-- Each step of the run from `s` meets `C`. -/
def Meets (S : Sys σ ι) (C : ι → σ → Prop) : List ι → σ → Prop
  | [], _ => True
  | l :: ls, s => C l s ∧ ∀ s', S.step l s = some s' → Meets S C ls s'

theorem meets_cons_of_step {C : ι → σ → Prop} {l : ι} {ls : List ι} {s : σ} :
    S.Meets C (l :: ls) s ↔ C l s ∧ (S.step l s).elim True (S.Meets C ls) := by
  rw [Meets]
  cases S.step l s <;> simp

instance decidableMeets {C : ι → σ → Prop} [∀ l s, Decidable (C l s)] :
    ∀ ls s, Decidable (S.Meets C ls s)
  | [], _ => .isTrue trivial
  | l :: ls, s =>
    match hC : S.step l s with
    | none => decidable_of_iff (C l s) (by simp [meets_cons_of_step, hC])
    | some s' =>
      haveI := decidableMeets (C := C) ls s'
      decidable_of_iff (C l s ∧ S.Meets C ls s') (by simp [meets_cons_of_step, hC])

/-- A run of one system is a run of another, whose steps meet `C`, when each step from related
states is. -/
theorem run_simulates_of_meets {τ : Type*} {T : Sys τ ι} {R : σ → τ → Prop} {C : ι → τ → Prop}
    (step : ∀ {l s s' t}, R s t → C l t → S.step l s = some s' →
      ∃ t', T.step l t = some t' ∧ R s' t')
    {ls : List ι} {s s' : σ} {t : τ} (h : R s t) (hC : T.Meets C ls t)
    (hr : S.run ls s = some s') : ∃ t', T.run ls t = some t' ∧ R s' t' := by
  induction ls generalizing s t with
  | nil =>
    obtain rfl : s = s' := by simpa [run] using hr
    exact ⟨t, rfl, h⟩
  | cons l ls ih =>
    obtain ⟨s₁, hs, hr⟩ := Option.bind_eq_some_iff.mp hr
    obtain ⟨t₁, ht, h₁⟩ := step h hC.1 hs
    obtain ⟨t', ht', h'⟩ := ih h₁ (hC.2 t₁ ht) hr
    exact ⟨t', Option.bind_eq_some_iff.mpr ⟨t₁, ht, ht'⟩, h'⟩

theorem meets_true {ls : List ι} {s : σ} : S.Meets (fun _ _ => True) ls s := by
  induction ls generalizing s with
  | nil => trivial
  | cons l ls ih => exact ⟨trivial, fun _ _ => ih⟩

/-- A run of one system is a run of another when each step from related states is. -/
theorem run_simulates {τ : Type*} {T : Sys τ ι} {R : σ → τ → Prop}
    (step : ∀ {l s s' t}, R s t → S.step l s = some s' → ∃ t', T.step l t = some t' ∧ R s' t')
    {ls : List ι} {s s' : σ} {t : τ} (h : R s t) (hr : S.run ls s = some s') :
    ∃ t', T.run ls t = some t' ∧ R s' t' :=
  run_simulates_of_meets (fun hst _ => step hst) h meets_true hr

/-- A run that can be computed shows that a state with `P` can come later. -/
theorem exists_later {ls : List ι} {s : σ} {P : σ → Prop} [DecidablePred P]
    (h : (S.run ls s).any (fun t => decide (P t)) = true) : ∃ t, S.Later s t ∧ P t := by
  obtain ⟨t, ht, hP⟩ := (Option.any_eq_true _ _).mp h
  exact ⟨t, later_of_run ht, of_decide_eq_true hP⟩

theorem exists_reach {ls : List ι} {s : σ} {P : σ → Prop} [DecidablePred P] (hs : S.init s)
    (h : (S.run ls s).any (fun t => decide (P t)) = true) : ∃ t, S.Reach t ∧ P t := by
  obtain ⟨t, ht, hP⟩ := exists_later h
  exact ⟨t, (Reach.init hs).later ht, hP⟩

/-! ## Runs whose steps meet a condition -/

section Conditions

variable {C : ι → σ → Prop}

/-- The states that are reached by runs whose steps all meet `C`. -/
inductive ReachBy (S : Sys σ ι) (C : ι → σ → Prop) : σ → Prop
  | init {s : σ} : S.init s → ReachBy S C s
  | step {s s' : σ} (l : ι) : ReachBy S C s → C l s → S.step l s = some s' → ReachBy S C s'

theorem ReachBy.invariant {I : σ → Prop} (init : ∀ {s}, S.init s → I s)
    (step : ∀ {l s s'}, I s → C l s → S.step l s = some s' → I s') {s : σ}
    (hs : S.ReachBy C s) : I s := by
  induction hs with
  | init h => exact init h
  | step l _ hC hst ih => exact step ih hC hst

theorem ReachBy.reach {s : σ} (hs : S.ReachBy C s) : S.Reach s := by
  induction hs with
  | init h => exact .init h
  | step l _ _ hst ih => exact .step l ih hst

theorem ReachBy.mono {D : ι → σ → Prop} (h : ∀ l s, C l s → D l s) {s : σ} (hs : S.ReachBy C s) :
    S.ReachBy D s := by
  induction hs with
  | init hi => exact .init hi
  | step l _ hC hst ih => exact .step l ih (h l _ hC) hst

variable (S C) in
/-- The fold of a list of labels; `none` also where a label does not meet `C`. -/
def runBy [∀ l s, Decidable (C l s)] : List ι → σ → Option σ
  | [], s => some s
  | l :: ls, s => if C l s then (S.step l s).bind (runBy ls) else none

theorem reachBy_of_runBy [∀ l s, Decidable (C l s)] {ls : List ι} {s t : σ} (hs : S.ReachBy C s)
    (h : S.runBy C ls s = some t) : S.ReachBy C t := by
  induction ls generalizing s with
  | nil =>
    obtain rfl : s = t := by simpa [runBy] using h
    exact hs
  | cons l ls ih =>
    rw [runBy] at h
    split at h
    · next hC =>
      obtain ⟨s', hst, hrun⟩ := Option.bind_eq_some_iff.mp h
      exact ih (.step l hs hC hst) hrun
    · cases h

/-- A run that can be computed shows that a state with `P` is reached under the condition. -/
theorem exists_reachBy [∀ l s, Decidable (C l s)] {ls : List ι} {s : σ} {P : σ → Prop}
    [DecidablePred P] (hs : S.init s) (h : (S.runBy C ls s).any (fun t => decide (P t)) = true) :
    ∃ t, S.ReachBy C t ∧ P t := by
  obtain ⟨t, ht, hP⟩ := (Option.any_eq_true _ _).mp h
  exact ⟨t, reachBy_of_runBy (.init hs) ht, of_decide_eq_true hP⟩

end Conditions

/-! ## Systems that run by themselves -/

section Halting

variable {τ : Type*} {A : Sys σ Unit}

/-- From `s` on there are only finitely many steps. -/
def Halts (A : Sys σ Unit) (s : σ) : Prop := Acc (fun t s => A.step () s = some t) s

/-- A system whose steps, but for a last one, are those of a well-founded relation comes to an
end. -/
theorem halts_of_sim {r : τ → τ → Prop} (wf : WellFounded r) {R : σ → τ → Prop}
    (sim : ∀ s w s', R s w → A.step () s = some s' →
      A.step () s' = none ∨ ∃ w', r w' w ∧ R s' w') {s : σ} {w : τ} (h : R s w) : A.Halts s := by
  induction w using wf.induction generalizing s with
  | _ w ih =>
    constructor
    intro s' hs
    rcases sim s w s' h hs with hlast | ⟨w', hr, h'⟩
    · constructor
      intro t ht
      rw [hlast] at ht
      cases ht
    · exact ih w' hr h'

/-- A state that comes later is the same or comes after the one next step. -/
theorem Later.cases {s t : σ} (h : A.Later s t) :
    t = s ∨ ∃ s', A.step () s = some s' ∧ A.Later s' t := by
  rcases h.cases_head with rfl | ⟨s', ⟨_, hs⟩, h'⟩
  · exact .inl rfl
  · exact .inr ⟨s', hs, h'⟩

theorem Reach.later_of_init (hinit : ∀ {s s'}, A.init s → A.init s' → s = s') {s t : σ}
    (hs : A.init s) (ht : A.Reach t) : A.Later s t := by
  induction ht with
  | init ht =>
    rw [hinit hs ht]
    exact Later.refl _
  | step l _ hst ih => exact ih.tail ⟨l, hst⟩

/-- Where there is one initial state, every run can be continued to a state that has no step. -/
theorem Reach.later_of_final (hinit : ∀ {s s'}, A.init s → A.init s' → s = s') {s t : σ}
    (hs : A.Reach s) (ht : A.Reach t) (hfinal : A.step () t = none) : A.Later s t := by
  induction hs with
  | init hs => exact ht.later_of_init hinit hs
  | step _ _ hst ih =>
    rcases ih.cases with rfl | ⟨s', hs', hlater⟩
    · cases hfinal.symm.trans hst
    · cases hs'.symm.trans hst
      exact hlater

theorem Halts.bounded {s : σ} (h : A.Halts s) (f : σ → Nat) :
    ∃ N, ∀ t, A.Later s t → f t ≤ N := by
  induction h with
  | intro s _ ih =>
    cases hs : A.step () s with
    | none =>
      refine ⟨f s, fun t ht => ?_⟩
      rcases ht.cases with rfl | ⟨s', hs', _⟩
      · exact le_rfl
      · rw [hs] at hs'
        cases hs'
    | some s' =>
      obtain ⟨N, hN⟩ := ih s' hs
      refine ⟨max (f s) N, fun t ht => ?_⟩
      rcases ht.cases with rfl | ⟨u, hu, hlater⟩
      · exact le_max_left _ _
      · obtain rfl := Option.some.inj (hs.symm.trans hu)
        exact (hN t hlater).trans (le_max_right _ _)

theorem Halts.final {s : σ} (h : A.Halts s) : ∃ t, A.Later s t ∧ A.step () t = none := by
  induction h with
  | intro s _ ih =>
    cases hs : A.step () s with
    | none => exact ⟨s, .refl s, hs⟩
    | some s' =>
      obtain ⟨t, ht, hnone⟩ := ih s' hs
      exact ⟨t, Relation.ReflTransGen.head ⟨(), hs⟩ ht, hnone⟩

theorem Reach.later_init {s : σ} (hs : A.Reach s) : ∃ s₀, A.init s₀ ∧ A.Later s₀ s := by
  induction hs with
  | init h => exact ⟨_, h, .refl _⟩
  | step l _ hst ih =>
    obtain ⟨s₀, h₀, hl⟩ := ih
    exact ⟨s₀, h₀, hl.tail ⟨l, hst⟩⟩

end Halting

/-! ## Two systems side by side -/

section Lockstep

variable {τ : Type*} {A : Sys σ Unit} {B : Sys τ Unit} {R : σ → τ → Prop}

/-- Related states step to related states, or do not step, together. -/
def Lockstep (A : Sys σ Unit) (B : Sys τ Unit) (R : σ → τ → Prop) : Prop :=
  ∀ s t, R s t → Option.Rel R (A.step () s) (B.step () t)

/-- Related states have related states after any number of steps. -/
theorem Lockstep.run (h : Lockstep A B R) {s : σ} {t : τ} (hst : R s t) (n : Nat) :
    Option.Rel R (A.run (List.replicate n ()) s) (B.run (List.replicate n ()) t) := by
  induction n generalizing s t with
  | zero => exact .some hst
  | succ n ih =>
    simp only [List.replicate_succ, Sys.run]
    have hnext := h s t hst
    cases hA : A.step () s with
    | none =>
      rw [hA] at hnext
      cases hB : B.step () t with
      | none => exact .none
      | some t' =>
        rw [hB] at hnext
        cases hnext
    | some s' =>
      rw [hA] at hnext
      cases hB : B.step () t with
      | none =>
        rw [hB] at hnext
        cases hnext
      | some t' =>
        rw [hB] at hnext
        cases hnext with
        | some hst' => exact ih hst'

end Lockstep

end Sys

/-! ## Sums over the components of a state -/

section Sums

variable {ι β : Type*} [DecidableEq ι] {s : Finset ι} (g : ι → β → Nat) (f : ι → β)

/-- How a sum over components changes when component `i` moves to `c`. -/
theorem sum_update {i : ι} (hi : i ∈ s) (c : β) :
    ∑ u ∈ s, g u (Function.update f i c u) + g i (f i) = ∑ u ∈ s, g u (f u) + g i c := by
  have off : ∑ u ∈ s.erase i, g u (Function.update f i c u) = ∑ u ∈ s.erase i, g u (f u) :=
    Finset.sum_congr rfl fun u hu => by rw [Function.update_of_ne (Finset.ne_of_mem_erase hu)]
  rw [← Finset.sum_erase_add s _ hi, ← Finset.sum_erase_add s (fun u => g u (f u)) hi, off,
    Function.update_self]
  omega

/-- The same where the summand of `i` does not change. -/
theorem sum_update_same {i : ι} (c : β) (h : g i c = g i (f i)) :
    ∑ u ∈ s, g u (Function.update f i c u) = ∑ u ∈ s, g u (f u) :=
  Finset.sum_congr rfl fun u _ => by
    by_cases hu : u = i
    · subst hu
      rw [Function.update_self, h]
    · rw [Function.update_of_ne hu]

omit [DecidableEq ι] in
theorem le_sum_of_mem {i : ι} (hi : i ∈ s) : g i (f i) ≤ ∑ u ∈ s, g u (f u) :=
  Finset.single_le_sum (f := fun u => g u (f u)) (fun _ _ => Nat.zero_le _) hi

end Sums

end CStrider
