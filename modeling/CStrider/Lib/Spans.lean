import Mathlib.Data.List.Count
import Mathlib.Data.List.Pairwise

/-!
# Spans of addresses

How often a list of spans covers an address (`cover`). A span may be replaced by spans that lie
within it and have no address in common (`cover_le_of_within`), so that a list that covers no
address twice keeps to that when what it lists is cut up.
-/

namespace CStrider

/-- `len` addresses from `start` on. -/
structure Span where
  start : Nat
  len : Nat
  deriving DecidableEq, Repr

namespace Span

def Has (s : Span) (q : Nat) : Prop := s.start ≤ q ∧ q < s.start + s.len

instance (s : Span) (q : Nat) : Decidable (s.Has q) := inferInstanceAs (Decidable (_ ∧ _))

def Within (r s : Span) : Prop := ∀ q, r.Has q → s.Has q

def Apart (r s : Span) : Prop := ∀ q, r.Has q → ¬ s.Has q

variable {r s : Span} {l l' : List Span} {q : Nat}

theorem has_start (h : 0 < s.len) : s.Has s.start := ⟨Nat.le_refl _, by omega⟩

theorem not_has_empty (b : Nat) : ¬ (Span.mk b 0).Has q := by
  rintro ⟨h, h'⟩
  dsimp only at h h'
  omega

/-- The number of spans of the list that have `q`. -/
def cover (l : List Span) (q : Nat) : Nat := l.countP fun s => decide (s.Has q)

@[simp] theorem cover_nil : cover [] q = 0 := rfl

theorem cover_cons : cover (s :: l) q = cover [s] q + cover l q := by
  simp only [cover, List.countP_cons, List.countP_nil]
  omega

theorem cover_append : cover (l ++ l') q = cover l q + cover l' q := List.countP_append

theorem cover_singleton (h : s.Has q) : cover [s] q = 1 := by
  simp [cover, h]

theorem cover_singleton_le : cover [s] q ≤ 1 := List.countP_le_length

theorem cover_eq_zero : cover l q = 0 ↔ ∀ s ∈ l, ¬ s.Has q := by
  simp [cover, List.countP_eq_zero]

theorem cover_pos (hs : s ∈ l) (h : s.Has q) : 0 < cover l q := by
  rw [Nat.pos_iff_ne_zero, Ne, cover_eq_zero]
  exact fun hall => hall s hs h

theorem exists_of_cover_pos (h : 0 < cover l q) : ∃ s ∈ l, s.Has q := by
  by_contra hno
  have hzero : cover l q = 0 := cover_eq_zero.mpr fun s hs hq => hno ⟨s, hs, hq⟩
  omega

theorem cover_le_one (h : l.Pairwise Apart) : cover l q ≤ 1 := by
  induction h with
  | nil => exact Nat.zero_le 1
  | @cons s l hs _ ih =>
    rw [cover_cons]
    by_cases hq : s.Has q
    · have hzero : cover l q = 0 := cover_eq_zero.mpr fun r hr => hs r hr q hq
      have hone : cover [s] q = 1 := cover_singleton hq
      omega
    · have hzero : cover [s] q = 0 := cover_eq_zero.mpr fun r hr => List.mem_singleton.mp hr ▸ hq
      rw [hzero, Nat.zero_add]
      exact ih

/-- Parts of a span that are apart cover no more than the span. -/
theorem cover_le_of_within (h : l.Pairwise Apart) (hw : ∀ r ∈ l, r.Within s) :
    cover l q ≤ cover [s] q := by
  by_cases hq : s.Has q
  · rw [cover_singleton hq]
    exact cover_le_one h
  · have hzero : cover l q = 0 := cover_eq_zero.mpr fun r hr hrq => hq (hw r hr q hrq)
    rw [hzero]
    exact Nat.zero_le _

/-- What is covered once has one owner. -/
theorem eq_of_cover_le_one {α : Type*} {f : α → Span} {l : List α} {a b : α}
    (h : cover (l.map f) q ≤ 1) (ha : a ∈ l) (hb : b ∈ l) (hqa : (f a).Has q)
    (hqb : (f b).Has q) : a = b := by
  induction l with
  | nil => cases ha
  | cons c l ih =>
    rw [List.map_cons, cover_cons] at h
    rcases List.mem_cons.mp ha with rfl | ha'
    · rcases List.mem_cons.mp hb with rfl | hb'
      · rfl
      · have hone := cover_singleton hqa
        have hpos := cover_pos (List.mem_map_of_mem hb') hqb
        omega
    · rcases List.mem_cons.mp hb with rfl | hb'
      · have hone := cover_singleton hqb
        have hpos := cover_pos (List.mem_map_of_mem ha') hqa
        omega
      · exact ih (by omega) ha' hb'

end Span

end CStrider
