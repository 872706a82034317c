import Mathlib.Data.List.Count
import Mathlib.Data.Nat.ModEq
import Mathlib.Logic.Function.Basic

/-!
# Bounded ring buffers

A ring of `cap` slots with a front, a rear and a count, where `rear` is the slot of the youngest
element (so an empty ring has its rear one behind its front). The bounds and the equation between
the three indices are fields: a ring whose indices disagree cannot be built, and `push` asks for
the room it needs. The abstract reading of a ring is the list of its elements from the oldest
(`Ring.contents`), and the two operations are the two ends of that list (`Ring.contents_push`,
`Ring.contents_pop`).
-/

namespace CStrider

structure Ring (cap : Nat) (α : Type*) where
  slots : Nat → α
  front : Nat
  rear : Nat
  count : Nat
  front_lt : front < cap
  count_le : count ≤ cap
  rear_eq : rear = (front + count + (cap - 1)) % cap

namespace Ring

variable {cap : Nat} {α : Type*}

/-- A ring without elements. -/
def empty (hcap : 0 < cap) (slots : Nat → α) : Ring cap α where
  slots := slots
  front := 0
  rear := cap - 1
  count := 0
  front_lt := hcap
  count_le := Nat.zero_le _
  rear_eq := by rw [Nat.mod_eq_of_lt (by omega)]; omega

theorem succ_rear (r : Ring cap α) : (r.rear + 1) % cap = (r.front + r.count) % cap := by
  have hf := r.front_lt
  rw [r.rear_eq, Nat.mod_add_mod, show r.front + r.count + (cap - 1) + 1
    = r.front + r.count + cap by omega, Nat.add_mod_right]

/-- One more element behind the youngest. -/
def push (r : Ring cap α) (x : α) (h : r.count < cap) : Ring cap α where
  slots := Function.update r.slots ((r.rear + 1) % cap) x
  front := r.front
  rear := (r.rear + 1) % cap
  count := r.count + 1
  front_lt := r.front_lt
  count_le := h
  rear_eq := by
    rw [r.succ_rear, show r.front + (r.count + 1) + (cap - 1) = r.front + r.count + cap by omega,
      Nat.add_mod_right]

/-- The oldest element; meaningful where `count` is positive. -/
def head (r : Ring cap α) : α := r.slots r.front

/-- The ring without its oldest element. -/
def pop (r : Ring cap α) (h : 0 < r.count) : Ring cap α where
  slots := r.slots
  front := (r.front + 1) % cap
  rear := r.rear
  count := r.count - 1
  front_lt := Nat.mod_lt _ (by have := r.front_lt; omega)
  count_le := by have := r.count_le; omega
  rear_eq := by
    rw [r.rear_eq, Nat.add_assoc ((r.front + 1) % cap), Nat.mod_add_mod]
    congr 1
    omega

/-- The elements from the oldest to the youngest. -/
def contents (r : Ring cap α) : List α :=
  (List.range r.count).map fun k => r.slots ((r.front + k) % cap)

@[simp] theorem count_empty (hcap : 0 < cap) (f : Nat → α) : (empty hcap f).count = 0 := rfl
@[simp] theorem contents_empty (hcap : 0 < cap) (f : Nat → α) : (empty hcap f).contents = [] := rfl
@[simp] theorem count_push (r : Ring cap α) (x : α) (h) : (r.push x h).count = r.count + 1 := rfl
@[simp] theorem count_pop (r : Ring cap α) (h) : (r.pop h).count = r.count - 1 := rfl

@[simp] theorem length_contents (r : Ring cap α) : r.contents.length = r.count := by
  simp [contents]

theorem contents_eq_nil (r : Ring cap α) : r.contents = [] ↔ r.count = 0 := by
  rw [← List.length_eq_zero_iff, length_contents]

/-- Within one turn of the ring, different offsets from the front are different slots. -/
theorem offset_ne {f i j : Nat} (hi : i < j) (hj : j < cap) : (f + i) % cap ≠ (f + j) % cap := by
  intro h
  have hmod : i ≡ j [MOD cap] := Nat.ModEq.add_left_cancel' f h
  rw [Nat.ModEq, Nat.mod_eq_of_lt (by omega), Nat.mod_eq_of_lt hj] at hmod
  omega

/-- A push writes the slot behind the youngest element and none that is in use. -/
theorem contents_push (r : Ring cap α) (x : α) (h : r.count < cap) :
    (r.push x h).contents = r.contents ++ [x] := by
  have hold : ∀ k ∈ List.range r.count,
      (r.push x h).slots ((r.front + k) % cap) = r.slots ((r.front + k) % cap) := by
    intro k hk
    rw [List.mem_range] at hk
    refine Function.update_of_ne ?_ _ _
    rw [r.succ_rear]
    exact offset_ne hk h
  have hnew : (r.push x h).slots ((r.front + r.count) % cap) = x := by
    rw [← r.succ_rear]
    exact Function.update_self _ _ _
  calc (r.push x h).contents
      = ((List.range r.count).map fun k => (r.push x h).slots ((r.front + k) % cap)) ++
          [(r.push x h).slots ((r.front + r.count) % cap)] := by
        simp only [contents, count_push, List.range_succ, List.map_append, List.map_cons,
          List.map_nil]
        rfl
    _ = r.contents ++ [x] := by rw [List.map_congr_left hold, hnew]; rfl

/-- A pop takes the oldest element off the list. -/
theorem contents_pop (r : Ring cap α) (h : 0 < r.count) :
    r.contents = r.head :: (r.pop h).contents := by
  obtain ⟨n, hn⟩ : ∃ n, r.count = n + 1 := ⟨r.count - 1, by omega⟩
  have hrest : (r.pop h).contents = (List.range n).map fun k => r.slots ((r.front + 1 + k) % cap) := by
    simp only [contents, count_pop, hn, Nat.add_sub_cancel]
    refine List.map_congr_left fun k _ => ?_
    show r.slots (((r.front + 1) % cap + k) % cap) = _
    rw [Nat.mod_add_mod]
  rw [hrest, contents, hn, List.range_succ_eq_map, List.map_cons, List.map_map, Nat.add_zero,
    Nat.mod_eq_of_lt r.front_lt]
  refine congrArg _ (List.map_congr_left fun k _ => ?_)
  simp only [Function.comp, Nat.succ_eq_add_one]
  rw [show r.front + (k + 1) = r.front + 1 + k by omega]

section Count

variable [DecidableEq α] (y : α)

theorem count_contents_push (r : Ring cap α) (x : α) (h : r.count < cap) :
    (r.push x h).contents.count y = r.contents.count y + [x].count y := by
  rw [contents_push, List.count_append]

theorem count_contents_pop (r : Ring cap α) (h : 0 < r.count) :
    (r.pop h).contents.count y + [r.head].count y = r.contents.count y := by
  rw [r.contents_pop h]
  simp [List.count_cons]

end Count

end Ring

end CStrider
