import Mathlib.Data.List.Count

/-!
# Splitting at a delimiter

`split` takes a list apart at a delimiter. As in the regular expression libraries that leave out
empty words at both ends, one delimiter at the beginning is skipped and none at the end begins a new
piece, while a delimiter right behind another one has an empty piece between them.
-/

namespace CStrider

section

variable {α : Type*} [DecidableEq α] {d : α} {p s t u : List α}

/-- Without a delimiter at the beginning. -/
def skipOne (d : α) : List α → List α
  | [] => []
  | c :: s => if c = d then s else c :: s

/-- The pieces between delimiters; an end right behind a delimiter has none. -/
def pieces (d : α) : List α → List (List α)
  | [] => []
  | c :: s =>
    if c = d then [] :: pieces d s
    else
      match pieces d s with
      | [] => [[c]]
      | p :: ps => (c :: p) :: ps

def split (d : α) (s : List α) : List (List α) := pieces d (skipOne d s)

theorem skipOne_of_notMem (h : d ∉ s) : skipOne d s = s := by
  cases s with
  | nil => rfl
  | cons c s =>
    rw [List.mem_cons, not_or] at h
    rw [skipOne, if_neg (Ne.symm h.1)]

/-- What stands first decides alone. -/
theorem skipOne_append (h : s ≠ []) : skipOne d (s ++ t) = skipOne d s ++ t := by
  cases s with
  | nil => exact absurd rfl h
  | cons c s =>
    rw [List.cons_append, skipOne, skipOne]
    split <;> rfl

theorem pieces_of_notMem (hs : s ≠ []) (h : d ∉ s) : pieces d s = [s] := by
  induction s with
  | nil => exact absurd rfl hs
  | cons c s ih =>
    rw [List.mem_cons, not_or] at h
    rw [pieces, if_neg (Ne.symm h.1)]
    cases s with
    | nil => rfl
    | cons c' s => rw [ih (List.cons_ne_nil c' s) h.2]

theorem pieces_append (h : d ∉ p) : pieces d (p ++ d :: t) = p :: pieces d t := by
  induction p with
  | nil => exact if_pos rfl
  | cons c p ih =>
    rw [List.mem_cons, not_or] at h
    rw [List.cons_append, pieces, if_neg (Ne.symm h.1), ih h.2]

/-- There is one more piece than there are delimiters, unless the list ends in one. -/
theorem length_pieces (ht : t ≠ []) (h : d ∉ t) :
    (pieces d (u ++ t)).length = u.count d + 1 := by
  induction u with
  | nil => rw [List.nil_append, pieces_of_notMem ht h, List.count_nil, List.length_singleton]
  | cons c u ih =>
    rw [List.cons_append, pieces]
    by_cases hc : c = d
    · rw [if_pos hc, List.length_cons, ih, hc, List.count_cons_self]
    · rw [if_neg hc, List.count_cons_of_ne hc]
      cases hps : pieces d (u ++ t) with
      | nil =>
        rw [hps, List.length_nil] at ih
        omega
      | cons p ps =>
        rw [hps] at ih
        exact ih

theorem notMem_of_mem_pieces (h : p ∈ pieces d s) : d ∉ p := by
  induction s generalizing p with
  | nil => exact absurd h List.not_mem_nil
  | cons c s ih =>
    rw [pieces] at h
    split at h
    · rcases List.mem_cons.mp h with rfl | h
      · exact List.not_mem_nil
      · exact ih h
    · next hc =>
      split at h
      · rw [List.mem_singleton.mp h, List.mem_singleton]
        exact Ne.symm hc
      · next q ps hps =>
        rcases List.mem_cons.mp h with rfl | h
        · rw [List.mem_cons, not_or]
          exact ⟨Ne.symm hc, ih (hps ▸ List.mem_cons_self)⟩
        · exact ih (hps ▸ List.mem_cons_of_mem q h)

end

end CStrider
