import Mathlib.Order.Preorder.Finite
import Mathlib.Order.RelClasses

/-!
# Waiting for locks

Threads wait for resources, and a resource has at most one owner. A set of threads is deadlocked
when each of them waits for a resource that one of them owns; a thread that waits for what it owns
itself is a deadlock of one. Where every thread only waits for what is above all that it owns, in
some strict order of the resources, there is none.
-/

namespace CStrider.WaitFor

variable {T R : Type*} (waits : T → R → Prop) (owner : R → Option T)

/-- Each thread of `A` waits for a resource that a thread of `A` owns. -/
def Deadlocked (A : Finset T) : Prop :=
  A.Nonempty ∧ ∀ i ∈ A, ∃ r, waits i r ∧ ∃ j ∈ A, owner r = some j

/-- What a thread waits for is above what it owns. -/
def Ascending (lt : R → R → Prop) : Prop := ∀ i r b, waits i r → owner b = some i → lt b r

variable {waits owner} {lt : R → R → Prop}

theorem Ascending.not_deadlocked [IsStrictOrder R lt] (h : Ascending waits owner lt)
    (A : Finset T) : ¬ Deadlocked waits owner A := by
  rintro ⟨hne, hA⟩
  obtain ⟨i₀, hi₀⟩ := hne
  obtain ⟨r₀, -⟩ := hA i₀ hi₀
  have : Nonempty R := ⟨r₀⟩
  have : Nonempty T := ⟨i₀⟩
  choose! req hwait next hnext howner using hA
  let _ := partialOrderOfSO lt
  -- the member whose request is highest waits for a member with a higher one
  obtain ⟨i, hi, hmax⟩ := A.exists_maximalFor req ⟨i₀, hi₀⟩
  have hlt : req i < req (next i) := h (next i) _ _ (hwait _ (hnext i hi)) (howner i hi)
  exact absurd (hmax (hnext i hi) hlt.le) hlt.not_ge

end CStrider.WaitFor
