import CStrider.Comparison.Model
import Mathlib.Data.Finset.Card
import Mathlib.Data.Finset.Prod

/-!
# `computeChangeFixpoint` comes to an end

`mark_dependencies` marks a mapping before it goes on to those that depend on it, and stops at what
is marked. So however cyclic the dependencies are, its recursion is no deeper than there are
mappings to mark.
-/

namespace CStrider.Comparison

/-- The mappings that are marked, deep or shallow. -/
def Tables.required (t : Tables) (deep : Bool) : List Paths :=
  if deep then t.requiresFullXform else t.requiresShallowXform

def Tables.require (t : Tables) (deep : Bool) (mapping : Paths) : Tables :=
  if deep then { t with requiresFullXform := mapping :: t.requiresFullXform }
  else { t with requiresShallowXform := mapping :: t.requiresShallowXform }

section

variable {t t₁ t' : Tables} {deep : Bool} {mapping : Paths}

theorem mem_required_require {b : Bool} {m : Paths} :
    m ∈ (t.require deep mapping).required b ↔ b = deep ∧ m = mapping ∨ m ∈ t.required b := by
  cases deep <;> cases b <;> simp [Tables.require, Tables.required]

/-- Both branches of `mark_dependencies`. -/
theorem markDependencies_succ (fuel : Nat) (deep : Bool) (mapping : Paths) (t : Tables) :
    markDependencies (fuel + 1) deep mapping t =
      if mapping ∈ t.required deep then some t
      else ((findAll t.hardDeps mapping).foldlM (fun t d => markDependencies fuel deep d t)
        (t.require deep mapping)).bind fun t =>
          (findAll t.ptrDeps mapping).foldlM (fun t d => markDependencies fuel false d t) t := by
  cases deep <;> rfl

/-- Marking puts something into the two tables of requirements, and leaves the others. -/
structure Marks (t t' : Tables) : Prop where
  frame : t' = { t with
    requiresFullXform := t'.requiresFullXform
    requiresShallowXform := t'.requiresShallowXform }
  kept : ∀ b, t.required b ⊆ t'.required b

theorem Marks.refl (t : Tables) : Marks t t := ⟨rfl, fun _ => List.Subset.refl _⟩

theorem Marks.trans (h : Marks t t₁) (h' : Marks t₁ t') : Marks t t' := by
  refine ⟨?_, fun b => List.Subset.trans (h.kept b) (h'.kept b)⟩
  have := h'.frame
  rw [h.frame] at this
  exact this

theorem marks_require (t : Tables) (deep : Bool) (mapping : Paths) :
    Marks t (t.require deep mapping) := by
  refine ⟨?_, fun b m hm => mem_required_require.mpr (.inr hm)⟩
  cases deep <;> rfl

theorem Marks.foldlM {α : Type} {f : Tables → α → Option Tables} {l : List α}
    (step : ∀ {t a t'}, f t a = some t' → Marks t t') (h : l.foldlM f t = some t') :
    Marks t t' := by
  induction l generalizing t with
  | nil =>
    obtain rfl : t = t' := Option.some.inj h
    exact .refl t
  | cons a l ih =>
    rw [List.foldlM_cons] at h
    obtain ⟨t₁, h₁, h⟩ := Option.bind_eq_some_iff.mp h
    exact (step h₁).trans (ih h)

theorem markDependencies_marks {fuel : Nat} (h : markDependencies fuel deep mapping t = some t') :
    Marks t t' := by
  induction fuel generalizing deep mapping t t' with
  | zero => cases h
  | succ fuel ih =>
    rw [markDependencies_succ] at h
    split at h
    · obtain rfl := Option.some.inj h
      exact .refl t
    · obtain ⟨t₁, hhard, hptr⟩ := Option.bind_eq_some_iff.mp h
      exact (marks_require t deep mapping).trans ((Marks.foldlM ih hhard).trans (.foldlM ih hptr))

/-! ## How deep the recursion is -/

/-- A loop in which every round that begins with `P` has a result comes to an end. -/
theorem foldlM_isSome {σ α : Type} {P : σ → Prop} {f : σ → α → Option σ} {l : List α}
    (step : ∀ a ∈ l, ∀ s, P s → ∃ s', f s a = some s' ∧ P s') {s : σ} (h : P s) :
    ∃ s', l.foldlM f s = some s' ∧ P s' := by
  induction l generalizing s with
  | nil => exact ⟨s, rfl, h⟩
  | cons a l ih =>
    obtain ⟨s₁, h₁, hP⟩ := step a List.mem_cons_self s h
    obtain ⟨s', hs', hP'⟩ := ih (fun a ha => step a (List.mem_cons_of_mem _ ha)) hP
    refine ⟨s', ?_, hP'⟩
    rw [List.foldlM_cons, h₁]
    exact hs'

variable {K : Finset (Bool × Paths)}

/-- The mappings of `K` that are not marked yet. -/
def unmarked (K : Finset (Bool × Paths)) (t : Tables) : Finset (Bool × Paths) :=
  K.filter fun x => x.2 ∉ (t.required x.1).toFinset

theorem mem_unmarked {x : Bool × Paths} : x ∈ unmarked K t ↔ x ∈ K ∧ x.2 ∉ t.required x.1 := by
  rw [unmarked, Finset.mem_filter, List.mem_toFinset]

/-- What depends on a mapping of `K` is in `K`. -/
structure ClosedUnder (K : Finset (Bool × Paths)) (t : Tables) : Prop where
  hard : ∀ {b m}, (b, m) ∈ K → ∀ d ∈ findAll t.hardDeps m, (b, d) ∈ K
  ptr : ∀ {b m}, (b, m) ∈ K → ∀ d ∈ findAll t.ptrDeps m, (false, d) ∈ K

theorem Marks.unmarked_subset (h : Marks t t') : unmarked K t' ⊆ unmarked K t := by
  intro x hx
  obtain ⟨hx, hmem⟩ := mem_unmarked.mp hx
  exact mem_unmarked.mpr ⟨hx, fun hm => hmem (h.kept x.1 hm)⟩

theorem Marks.closedUnder (h : Marks t t') (hK : ClosedUnder K t) : ClosedUnder K t' := by
  rw [h.frame]
  exact ⟨hK.hard, hK.ptr⟩

theorem unmarked_require_lt (hK : (deep, mapping) ∈ K) (hm : mapping ∉ t.required deep) :
    (unmarked K (t.require deep mapping)).card < (unmarked K t).card := by
  refine Finset.card_lt_card ⟨(marks_require t deep mapping).unmarked_subset, fun hsub => ?_⟩
  obtain ⟨_, hnot⟩ := mem_unmarked.mp (hsub (mem_unmarked.mpr ⟨hK, hm⟩))
  exact hnot (mem_required_require.mpr (.inl ⟨rfl, rfl⟩))

theorem markDependencies_isSome {fuel : Nat} (hK : ClosedUnder K t) (hmem : (deep, mapping) ∈ K)
    (hfuel : (unmarked K t).card < fuel) :
    ∃ t', markDependencies fuel deep mapping t = some t' := by
  induction fuel generalizing deep mapping t with
  | zero => omega
  | succ fuel ih =>
    rw [markDependencies_succ]
    split
    · exact ⟨t, rfl⟩
    · next hm =>
      have hlt := unmarked_require_lt hmem hm
      -- the rounds keep that there is fuel for what is left
      have round {b : Bool} {d : Paths} (hd : (b, d) ∈ K) (t₁ : Tables)
          (h₁ : Marks (t.require deep mapping) t₁) :
          ∃ t₂, markDependencies fuel b d t₁ = some t₂ ∧ Marks (t.require deep mapping) t₂ := by
        have hcard := Finset.card_le_card (h₁.unmarked_subset (K := K))
        obtain ⟨t₂, h₂⟩ := ih (h₁.closedUnder ((marks_require t deep mapping).closedUnder hK)) hd
          (by omega)
        exact ⟨t₂, h₂, h₁.trans (markDependencies_marks h₂)⟩
      obtain ⟨t₁, hhard, h₁⟩ := foldlM_isSome
        (fun d hd => round (hK.hard hmem d hd)) (Marks.refl (t.require deep mapping))
      have hptr : t₁.ptrDeps = t.ptrDeps := by
        rw [((marks_require t deep mapping).trans h₁).frame]
      obtain ⟨t₂, hptr, _⟩ := foldlM_isSome (l := findAll t₁.ptrDeps mapping)
        (fun d hd => round (hK.ptr hmem d (hptr ▸ hd))) h₁
      exact ⟨t₂, by rw [hhard]; exact hptr⟩

/-- The mappings that have to do with the tables. -/
def mappings (t : Tables) : List Paths :=
  t.requiresFullXform ++ t.requiresShallowXform ++ t.hardDeps.map Prod.snd ++ t.ptrDeps.map Prod.snd

theorem mem_findAll {h : List (Paths × Paths)} {k d : Paths} : d ∈ findAll h k ↔ (k, d) ∈ h := by
  simp [findAll]

theorem closedUnder_mappings (t : Tables) :
    ClosedUnder (Finset.univ ×ˢ (mappings t).toFinset) t := by
  constructor
  · intro b m _ d hd
    have : d ∈ t.hardDeps.map Prod.snd := List.mem_map_of_mem (mem_findAll.mp hd)
    simp [mappings, this]
  · intro b m _ d hd
    have : d ∈ t.ptrDeps.map Prod.snd := List.mem_map_of_mem (mem_findAll.mp hd)
    simp [mappings, this]

/-- `computeChangeFixpoint` needs no deeper recursion than there are mappings, deep and shallow. -/
theorem computeChangeFixpoint_isSome {fuel : Nat}
    (hfuel : (Finset.univ ×ˢ (mappings t).toFinset : Finset (Bool × Paths)).card < fuel) :
    ∃ t', computeChangeFixpoint fuel t = some t' := by
  generalize hK : (Finset.univ ×ˢ (mappings t).toFinset : Finset (Bool × Paths)) = K at hfuel
  have closed : ClosedUnder K t := hK ▸ closedUnder_mappings t
  let cleared := { t with requiresFullXform := [], requiresShallowXform := [] }
  have round {b : Bool} {m : Paths} (hm : m ∈ mappings t) (t₁ : Tables) (h₁ : Marks cleared t₁) :
      ∃ t₂, markDependencies fuel b m t₁ = some t₂ ∧ Marks cleared t₂ := by
    have hmem : (b, m) ∈ K := by
      rw [← hK]
      exact Finset.mem_product.mpr ⟨Finset.mem_univ b, List.mem_toFinset.mpr hm⟩
    have hcard : (unmarked K t₁).card ≤ K.card := Finset.card_filter_le _ _
    obtain ⟨t₂, h₂⟩ := markDependencies_isSome (h₁.closedUnder ⟨closed.hard, closed.ptr⟩) hmem
      (by omega : (unmarked K t₁).card < fuel)
    exact ⟨t₂, h₂, h₁.trans (markDependencies_marks h₂)⟩
  obtain ⟨t₁, hfull, h₁⟩ := foldlM_isSome (l := t.requiresFullXform) (P := Marks cleared)
    (f := fun t m => markDependencies fuel true m t)
    (fun m hm => round (by simp [mappings, hm])) (Marks.refl cleared)
  obtain ⟨t₂, hshallow, _⟩ := foldlM_isSome (l := t.requiresShallowXform) (P := Marks cleared)
    (f := fun t m => markDependencies fuel false m t)
    (fun m hm => round (by simp [mappings, hm])) h₁
  exact ⟨t₂, Option.bind_eq_some_iff.mpr ⟨t₁, hfull, hshallow⟩⟩

/-- The worklist is not touched. -/
theorem computeChangeFixpoint_frame {fuel : Nat} (h : computeChangeFixpoint fuel t = some t') :
    t' = { t with
      requiresFullXform := t'.requiresFullXform
      requiresShallowXform := t'.requiresShallowXform } := by
  obtain ⟨t₁, hfull, hshallow⟩ := Option.bind_eq_some_iff.mp h
  have marks := (Marks.foldlM markDependencies_marks hfull).trans
    (.foldlM markDependencies_marks hshallow)
  exact marks.frame

end

end CStrider.Comparison
