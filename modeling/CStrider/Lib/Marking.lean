import Mathlib.Data.Set.Insert
import Mathlib.Logic.Relation

/-!
# Depth-first marking

A recursion marks a node, visits what the node leads to, and stops at what is marked. While it is
under way there are marked nodes that do not lead to marked ones: those whose visit has not come to
an end. `Explores` is therefore about what a visit adds. What it adds leads to marked nodes, so that
a visit that begins with nothing marked ends with what can be reached, however cyclic the graph is.
-/

namespace CStrider

open Relation (ReflTransGen)

variable {ν : Type*}

/-- Between `M` and `M'` the nodes of `start` were visited, with all that they lead to. -/
structure Explores (succ : ν → ν → Prop) (start M M' : Set ν) : Prop where
  kept : M ⊆ M'
  started : start ⊆ M'
  reached : ∀ n ∈ M', n ∈ M ∨ ∃ s ∈ start, ReflTransGen succ s n
  closed : ∀ n ∈ M', n ∉ M → ∀ y, succ n y → y ∈ M'

namespace Explores

variable {succ : ν → ν → Prop} {start A B M M₁ M' : Set ν}

theorem nothing (h : start ⊆ M) : Explores succ start M M :=
  ⟨Set.Subset.refl M, h, fun _ hn => .inl hn, fun _ hn hnot => absurd hn hnot⟩

theorem trans (h : Explores succ A M M₁) (h' : Explores succ B M₁ M') :
    Explores succ (A ∪ B) M M' where
  kept := h.kept.trans h'.kept
  started := Set.union_subset (h.started.trans h'.kept) h'.started
  reached n hn := by
    rcases h'.reached n hn with hn | ⟨s, hs, hr⟩
    · exact (h.reached n hn).imp_right fun ⟨s, hs, hr⟩ => ⟨s, .inl hs, hr⟩
    · exact .inr ⟨s, .inr hs, hr⟩
  closed n hn hnot y hy := by
    by_cases h₁ : n ∈ M₁
    · exact h'.kept (h.closed n h₁ hnot y hy)
    · exact h'.closed n hn h₁ y hy

/-- A node is marked, and then all that it leads to is visited. -/
theorem node {n : ν} (hA : ∀ y, succ n y ↔ y ∈ A) (h : Explores succ A (insert n M) M') :
    Explores succ {n} M M' where
  kept := (Set.subset_insert n M).trans h.kept
  started := Set.singleton_subset_iff.mpr (h.kept (Set.mem_insert n M))
  reached x hx := by
    rcases h.reached x hx with (rfl | hx) | ⟨s, hs, hr⟩
    · exact .inr ⟨x, rfl, .refl⟩
    · exact .inl hx
    · exact .inr ⟨n, rfl, .head ((hA s).mpr hs) hr⟩
  closed x hx hnot y hy := by
    by_cases hxn : x = n
    · subst hxn
      exact h.started ((hA y).mp hy)
    · exact h.closed x hx (fun hins => hins.elim hxn hnot) y hy

/-- A loop that visits one node in each round; `P` is what its rounds keep. -/
theorem foldlM {σ α : Type*} {f : σ → α → Option σ} {marked : σ → Set ν} {P : σ → Prop}
    {visited : α → ν}
    (step : ∀ s a s', P s → f s a = some s' →
      P s' ∧ Explores succ {visited a} (marked s) (marked s'))
    {l : List α} {s s' : σ} (h : P s) (hr : l.foldlM f s = some s') :
    P s' ∧ Explores succ {n | ∃ a ∈ l, visited a = n} (marked s) (marked s') := by
  induction l generalizing s with
  | nil =>
    obtain rfl : s = s' := Option.some.inj hr
    exact ⟨h, nothing fun _ ⟨_, ha, _⟩ => absurd ha List.not_mem_nil⟩
  | cons a l ih =>
    rw [List.foldlM_cons] at hr
    obtain ⟨s₁, h₁, hr⟩ := Option.bind_eq_some_iff.mp hr
    obtain ⟨hP, first⟩ := step s a s₁ h h₁
    obtain ⟨hP', rest⟩ := ih hP hr
    refine ⟨hP', ?_⟩
    convert first.trans rest using 1
    ext n
    simp [eq_comm]

/-- A visit that begins with nothing marked ends with what can be reached from its start. -/
theorem mem_iff (h : Explores succ start ∅ M') {n : ν} :
    n ∈ M' ↔ ∃ s ∈ start, ReflTransGen succ s n := by
  constructor
  · intro hn
    exact (h.reached n hn).resolve_left (Set.notMem_empty n)
  · rintro ⟨s, hs, hr⟩
    induction hr with
    | refl => exact h.started hs
    | tail _ hy ih => exact h.closed _ ih (Set.notMem_empty _) _ hy

end Explores

end CStrider
