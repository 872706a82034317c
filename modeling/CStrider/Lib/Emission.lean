import Mathlib.Data.List.Basic
import Mathlib.Logic.Relation

/-!
# Lists written one item after the other

`Before need l` holds of a list in which everything that an item needs stands in front of it.
Appending an item keeps it if what the item needs is there already (`Before.append`), and it
passes to the transitive closure of `need` (`Before.trans`).

The writers of such lists are folds that may fail; `foldlM_rule` and `foldlM_exists` are the rules
for what such a fold keeps and does, and for its success.
-/

namespace CStrider

section Before

variable {α : Type*}

/-- What `need` asks for an item stands in front of it. -/
def Before (need : α → α → Prop) (l : List α) : Prop :=
  ∀ pre y post, l = pre ++ y :: post → ∀ d, need y d → d ∈ pre

variable {need need' : α → α → Prop} {l : List α}

theorem Before.nil : Before need [] := by
  intro pre y post h
  simp at h

theorem Before.mono (h : Before need l) (hn : ∀ y d, need' y d → need y d) : Before need' l :=
  fun pre y post he d hd => h pre y post he d (hn y d hd)

theorem Before.append {x : α} (h : Before need l) (hx : ∀ d, need x d → d ∈ l) :
    Before need (l ++ [x]) := by
  intro pre y post he d hd
  rcases List.append_eq_append_iff.mp he with ⟨k, rfl, hk⟩ | ⟨k, rfl, hk⟩
  · cases k with
    | nil =>
      obtain ⟨rfl, _⟩ := List.cons.inj hk
      simpa using hx d hd
    | cons a k => simp at hk
  · cases k with
    | nil =>
      obtain ⟨rfl, _⟩ := List.cons.inj hk
      simpa using hx d hd
    | cons a k =>
      obtain ⟨rfl, _⟩ := List.cons.inj hk
      exact h pre y k rfl d hd

/-- What stands in front of an item has what it needs in front of it. -/
theorem Before.trans (h : Before need l) : Before (Relation.TransGen need) l := by
  intro pre y post he d hd
  induction hd using Relation.TransGen.head_induction_on generalizing pre post with
  | single hd => exact h pre _ post he d hd
  | @head y z hn _ ih =>
    obtain ⟨p, q, rfl⟩ := List.append_of_mem (h pre _ post he _ hn)
    exact List.mem_append_left _ (ih p (q ++ y :: post) (by rw [he, List.append_assoc]; rfl))

/-- No item of a list without repetitions of it needs itself, however indirectly. -/
theorem Before.irrefl [DecidableEq α] (h : Before need l) {y : α} (hy : y ∈ l)
    (once : l.count y ≤ 1) : ¬ Relation.TransGen need y y := by
  intro cycle
  obtain ⟨pre, post, rfl⟩ := List.append_of_mem hy
  have again : 0 < pre.count y := List.count_pos_iff.mpr (h.trans pre y post rfl y cycle)
  rw [List.count_append, List.count_cons_self] at once
  omega

end Before

section Fold

variable {σ α ε : Type*} {f : σ → α → Except ε σ} {l : List α} {s s' : σ}

/-- What every round of a successful fold keeps, and what it does for its item and no later round
undoes. -/
theorem foldlM_rule {I : σ → Prop} {Q : α → σ → Prop}
    (step : ∀ a ∈ l, ∀ s s', I s → f s a = .ok s' → I s' ∧ Q a s' ∧ ∀ b, Q b s → Q b s')
    (hs : I s) (h : l.foldlM f s = .ok s') : I s' ∧ ∀ a ∈ l, Q a s' := by
  suffices all : ∀ done : List α, (∀ b ∈ done, Q b s) →
      I s' ∧ (∀ a ∈ l, Q a s') ∧ ∀ b ∈ done, Q b s' by
    obtain ⟨hI, hQ, _⟩ := all [] (fun b hb => absurd hb List.not_mem_nil)
    exact ⟨hI, hQ⟩
  induction l generalizing s with
  | nil =>
    cases h
    exact fun done hdone => ⟨hs, fun a ha => absurd ha List.not_mem_nil, hdone⟩
  | cons a l ih =>
    intro done hdone
    rw [List.foldlM_cons] at h
    cases ha : f s a with
    | error e =>
      rw [ha] at h
      cases h
    | ok t =>
      rw [ha] at h
      obtain ⟨hI, hQ, keep⟩ := step a List.mem_cons_self s t hs ha
      obtain ⟨hI', hQ', hd'⟩ := ih (fun b hb => step b (List.mem_cons_of_mem a hb)) hI h (a :: done)
        (List.forall_mem_cons.mpr ⟨hQ, fun b hb => keep b (hdone b hb)⟩)
      exact ⟨hI', List.forall_mem_cons.mpr ⟨hd' a List.mem_cons_self, hQ'⟩,
        fun b hb => hd' b (List.mem_cons_of_mem a hb)⟩

/-- A fold succeeds whose rounds do. -/
theorem foldlM_exists {I : σ → Prop} (step : ∀ a ∈ l, ∀ s, I s → ∃ s', f s a = .ok s' ∧ I s')
    (hs : I s) : ∃ s', l.foldlM f s = .ok s' ∧ I s' := by
  induction l generalizing s with
  | nil => exact ⟨s, rfl, hs⟩
  | cons a l ih =>
    obtain ⟨t, ht, hI⟩ := step a List.mem_cons_self s hs
    obtain ⟨s', hs', hI'⟩ := ih (fun b hb => step b (List.mem_cons_of_mem a hb)) hI
    refine ⟨s', ?_, hI'⟩
    rw [List.foldlM_cons, ht]
    exact hs'

end Fold

end CStrider
