import Mathlib.Data.List.Basic

/-!
# Splitting outside brackets

`splitOutside` takes a list apart at the separators that stand outside all brackets, with a counter
for the depth. `Passes` is what the rest of a development needs to know about a piece of text: the
scan goes over it and comes out at the depth at which it went in.
-/

namespace CStrider

/-- A pair of brackets and a separator. -/
structure Brackets (α : Type*) where
  left : α
  right : α
  sep : α
  left_ne_right : left ≠ right
  left_ne_sep : left ≠ sep
  right_ne_sep : right ≠ sep

namespace Brackets

variable {α : Type*} [DecidableEq α] (b : Brackets α)

/-- The pieces of a list; `item` is the one at hand. A right bracket without a left one has none. -/
def splitOutside : List α → Nat → List α → Option (List (List α))
  | item, _, [] => some [item]
  | item, depth, c :: s =>
    if c = b.left then splitOutside (item ++ [c]) (depth + 1) s
    else if c = b.right then
      if depth = 0 then none else splitOutside (item ++ [c]) (depth - 1) s
    else if c = b.sep ∧ depth = 0 then (splitOutside [] 0 s).map (item :: ·)
    else splitOutside (item ++ [c]) depth s

/-- At any depth the scan goes over `t` and stays there. -/
def Passes (t : List α) : Prop :=
  ∀ item depth s, b.splitOutside item depth (t ++ s) = b.splitOutside (item ++ t) depth s

/-- The same inside of brackets. -/
def PassesInside (t : List α) : Prop :=
  ∀ item depth s,
    b.splitOutside item (depth + 1) (t ++ s) = b.splitOutside (item ++ t) (depth + 1) s

variable {b} {c : α} {t u item s p : List α} {items : List (List α)} {depth : Nat}

theorem splitOutside_left :
    b.splitOutside item depth (b.left :: s) = b.splitOutside (item ++ [b.left]) (depth + 1) s := by
  rw [splitOutside, if_pos rfl]

theorem splitOutside_right :
    b.splitOutside item (depth + 1) (b.right :: s) =
      b.splitOutside (item ++ [b.right]) depth s := by
  rw [splitOutside, if_neg b.left_ne_right.symm, if_pos rfl, if_neg (Nat.succ_ne_zero depth),
    Nat.add_sub_cancel]

theorem splitOutside_sep :
    b.splitOutside item 0 (b.sep :: s) = (b.splitOutside [] 0 s).map (item :: ·) := by
  rw [splitOutside, if_neg b.left_ne_sep.symm, if_neg b.right_ne_sep.symm, if_pos ⟨rfl, rfl⟩]

/-! ## Text that passes -/

theorem Passes.nil : b.Passes [] := fun item _ _ => by rw [List.append_nil, List.nil_append]

theorem Passes.append (ht : b.Passes t) (hu : b.Passes u) : b.Passes (t ++ u) := by
  intro item depth s
  rw [List.append_assoc, ht, hu, List.append_assoc]

theorem passes_of_plain (h : ∀ c ∈ t, c ≠ b.left ∧ c ≠ b.right ∧ c ≠ b.sep) : b.Passes t := by
  induction t with
  | nil => exact Passes.nil
  | cons c t ih =>
    intro item depth s
    obtain ⟨hleft, hright, hsep⟩ := h c List.mem_cons_self
    rw [List.cons_append, splitOutside, if_neg hleft, if_neg hright, if_neg fun h => hsep h.1,
      ih fun c' hc' => h c' (List.mem_cons_of_mem c hc'), ← List.append_cons]

theorem Passes.inside (ht : b.Passes t) : b.PassesInside t := fun item depth => ht item (depth + 1)

theorem PassesInside.append (ht : b.PassesInside t) (hu : b.PassesInside u) :
    b.PassesInside (t ++ u) := by
  intro item depth s
  rw [List.append_assoc, ht, hu, List.append_assoc]

theorem passesInside_sep : b.PassesInside [b.sep] := by
  intro item depth s
  rw [List.singleton_append, splitOutside, if_neg b.left_ne_sep.symm, if_neg b.right_ne_sep.symm,
    if_neg fun h => Nat.succ_ne_zero depth h.2]

/-- What passes inside of brackets passes in brackets. -/
theorem PassesInside.enclosed (ht : b.PassesInside t) : b.Passes (b.left :: t ++ [b.right]) := by
  intro item depth s
  rw [List.cons_append, List.cons_append, splitOutside_left, List.append_assoc, ht,
    List.singleton_append, splitOutside_right]
  simp only [List.append_assoc, List.cons_append, List.nil_append]

/-! ## The pieces -/

theorem splitOutside_of_passes (ht : b.Passes t) : b.splitOutside [] 0 t = some [t] := by
  have h := ht [] 0 []
  rwa [List.append_nil, List.nil_append] at h

theorem splitOutside_append (ht : b.Passes t) :
    b.splitOutside [] 0 (t ++ b.sep :: s) = (b.splitOutside [] 0 s).map (t :: ·) := by
  rw [ht, List.nil_append, splitOutside_sep]

/-- No piece is longer than the list. -/
theorem length_le_of_splitOutside (h : b.splitOutside item depth s = some items) (hp : p ∈ items) :
    p.length ≤ item.length + s.length := by
  induction s generalizing item depth items with
  | nil =>
    obtain rfl := Option.some.inj h
    rw [List.mem_singleton.mp hp]
    exact Nat.le_refl _
  | cons c s ih =>
    rw [splitOutside] at h
    have hlonger : ∀ {depth'}, b.splitOutside (item ++ [c]) depth' s = some items →
        p.length ≤ item.length + (c :: s).length := by
      intro depth' h'
      have hlen := ih h' hp
      rw [List.length_append, List.length_singleton] at hlen
      rw [List.length_cons]
      omega
    split_ifs at h with hleft hright hzero hsep
    · exact hlonger h
    · exact hlonger h
    · obtain ⟨rest, hrest, rfl⟩ := Option.map_eq_some_iff.mp h
      rcases List.mem_cons.mp hp with rfl | hp
      · exact Nat.le_add_right _ _
      · have hlen := ih hrest hp
        rw [List.length_nil] at hlen
        rw [List.length_cons]
        omega
    · exact hlonger h

end Brackets

end CStrider
