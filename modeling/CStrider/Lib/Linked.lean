import Mathlib.Data.List.Nodup
import Mathlib.Logic.Function.Basic

/-!
# Doubly linked lists in memory

Memory gives each node its two links, and nothing to what is not a node. `Linked L p l e` says that
the nodes of `l` are linked in this order, with `p` in front of the first and `e` behind the last;
a whole list is `Linked L none l none`, and its first node is `l.head?`. The operations are the
assignments that programs make: one link of one node. A list is put together and taken apart with
`linked_append`, and what is assigned elsewhere does not matter (`Linked.congr`).
-/

namespace CStrider

/-- The links of a node. -/
structure Link (α : Type*) where
  prev : Option α
  next : Option α
  deriving DecidableEq, Repr

/-- `none` where there is no node. -/
abbrev Links (α : Type*) := α → Option (Link α)

section

variable {α : Type*} {L M : Links α} {a b : α} {p e v : Option α} {l l₁ l₂ : List α}

/-- The nodes of `l` are linked in this order, between `p` and `e`. -/
def Linked (L : Links α) (p : Option α) : List α → Option α → Prop
  | [], _ => True
  | a :: l, e => L a = some ⟨p, l.head?.or e⟩ ∧ Linked L (some a) l e

@[simp] theorem linked_nil : Linked L p [] e := trivial

theorem linked_cons :
    Linked L p (a :: l) e ↔ L a = some ⟨p, l.head?.or e⟩ ∧ Linked L (some a) l e := Iff.rfl

theorem Linked.congr (h : Linked L p l e) (hL : ∀ a ∈ l, M a = L a) : Linked M p l e := by
  induction l generalizing p with
  | nil => trivial
  | cons a l ih =>
    rw [linked_cons] at h ⊢
    refine ⟨(hL a List.mem_cons_self).trans h.1, ih h.2 fun b hb => ?_⟩
    exact hL b (List.mem_cons_of_mem a hb)

theorem Linked.isSome (h : Linked L p l e) (ha : a ∈ l) : (L a).isSome := by
  induction l generalizing p with
  | nil => cases ha
  | cons b l ih =>
    rw [linked_cons] at h
    rcases List.mem_cons.mp ha with rfl | ha
    · rw [h.1]
      rfl
    · exact ih h.2 ha

theorem linked_append :
    Linked L p (l₁ ++ l₂) e ↔
      Linked L p l₁ (l₂.head?.or e) ∧ Linked L (l₁.getLast?.or p) l₂ e := by
  induction l₁ generalizing p with
  | nil => simp
  | cons a l ih =>
    have hlast : (a :: l).getLast?.or p = l.getLast?.or (some a) := by
      rw [List.getLast?_cons]
      cases l.getLast? <;> rfl
    rw [List.cons_append, linked_cons, linked_cons, ih, hlast, List.head?_append, Option.or_assoc,
      and_assoc]

/-- The links of a node inside a list. -/
theorem Linked.links (h : Linked L p (l₁ ++ a :: l₂) e) :
    L a = some ⟨l₁.getLast?.or p, l₂.head?.or e⟩ :=
  (linked_cons.mp (linked_append.mp h).2).1

/-- A node is put behind a list that already leads to it. -/
theorem Linked.append (h : Linked L none l (some a)) (ha : L a = some ⟨l.getLast?, none⟩) :
    Linked L none (l ++ [a]) none := by
  rw [linked_append]
  refine ⟨h, ?_, trivial⟩
  rw [ha, Option.or_none]
  rfl

/-! ## Assignments -/

variable [DecidableEq α]

/-- `a->next = v`. -/
def Links.setNext (L : Links α) (a : α) (v : Option α) : Links α :=
  Function.update L a ((L a).map fun k => { k with next := v })

/-- `a->prev = v`. -/
def Links.setPrev (L : Links α) (a : α) (v : Option α) : Links α :=
  Function.update L a ((L a).map fun k => { k with prev := v })

/-- `if (o) o->next = v`. -/
def Links.setNext? (L : Links α) (o : Option α) (v : Option α) : Links α :=
  o.elim L fun a => L.setNext a v

/-- `if (o) o->prev = v`. -/
def Links.setPrev? (L : Links α) (o : Option α) (v : Option α) : Links α :=
  o.elim L fun a => L.setPrev a v

theorem Links.setNext_self : L.setNext a v a = (L a).map fun k => { k with next := v } :=
  Function.update_self ..

theorem Links.setPrev_self : L.setPrev a v a = (L a).map fun k => { k with prev := v } :=
  Function.update_self ..

theorem Links.setNext_of_ne (h : b ≠ a) : L.setNext a v b = L b := Function.update_of_ne h _ _

theorem Links.setPrev_of_ne (h : b ≠ a) : L.setPrev a v b = L b := Function.update_of_ne h _ _

theorem Links.setNext?_of_ne {o : Option α} (h : o ≠ some b) : L.setNext? o v b = L b := by
  cases o with
  | none => rfl
  | some a =>
    refine Links.setNext_of_ne ?_
    rintro rfl
    exact h rfl

theorem Links.setPrev?_of_ne {o : Option α} (h : o ≠ some b) : L.setPrev? o v b = L b := by
  cases o with
  | none => rfl
  | some a =>
    refine Links.setPrev_of_ne ?_
    rintro rfl
    exact h rfl

/-- Another node behind the list. -/
theorem Linked.setNext_last (h : Linked L p l e) (hl : l.Nodup) :
    Linked (L.setNext? l.getLast? v) p l v := by
  rcases List.eq_nil_or_concat l with rfl | ⟨l', a, rfl⟩
  · trivial
  · rw [List.concat_eq_append] at *
    rw [List.getLast?_concat]
    rw [linked_append] at h ⊢
    have hnot : a ∉ l' := by
      rw [List.nodup_append] at hl
      intro ha
      exact hl.2.2 a ha a (List.mem_singleton_self a) rfl
    refine ⟨h.1.congr fun b hb => Links.setNext?_of_ne ?_, ?_, trivial⟩
    · rintro ⟨⟩
      exact hnot hb
    · have ha := (linked_cons.mp h.2).1
      change L.setNext a v a = _
      rw [Links.setNext_self, ha]
      rfl

/-- Another node in front of the list. -/
theorem Linked.setPrev_head (h : Linked L p l e) (hl : l.Nodup) :
    Linked (L.setPrev? l.head? v) v l e := by
  cases l with
  | nil => trivial
  | cons a l =>
    rw [linked_cons] at h
    refine ⟨?_, h.2.congr fun b hb => Links.setPrev?_of_ne ?_⟩
    · change L.setPrev a v a = _
      rw [Links.setPrev_self, h.1]
      rfl
    · rintro ⟨⟩
      exact (List.nodup_cons.mp hl).1 hb

/-- A node that leads to the list is put in front of it. -/
theorem Linked.push (h : Linked L none l none) (hl : (a :: l).Nodup)
    (ha : M a = some ⟨none, l.head?⟩) (hM : ∀ b, b ≠ a → M b = L b) :
    Linked (M.setPrev? l.head? (some a)) none (a :: l) none := by
  obtain ⟨hnot, hl⟩ := List.nodup_cons.mp hl
  have hrest : Linked M none l none := h.congr fun b hb => hM b fun hba => hnot (hba ▸ hb)
  refine ⟨?_, hrest.setPrev_head hl⟩
  rw [Links.setPrev?_of_ne fun hhead => hnot (List.mem_of_head? hhead), ha, Option.or_none]

/-- A node is taken out. -/
theorem Linked.unlink (h : Linked L none (l₁ ++ a :: l₂) none) (hl : (l₁ ++ a :: l₂).Nodup) :
    Linked ((L.setNext? l₁.getLast? l₂.head?).setPrev? l₂.head? l₁.getLast?) none (l₁ ++ l₂)
      none := by
  obtain ⟨h₁, h₂⟩ := linked_append.mp h
  rw [linked_cons] at h₂
  obtain ⟨hl₁, hl₂, hdisj⟩ := List.nodup_append.mp hl
  have hdisj : ∀ b ∈ l₁, ∀ c ∈ l₂, b ≠ c := fun b hb c hc =>
    hdisj b hb c (List.mem_cons_of_mem a hc)
  rw [linked_append, Option.or_none, Option.or_none]
  constructor
  · refine (h₁.setNext_last hl₁).congr fun b hb => Links.setPrev?_of_ne fun hhead => ?_
    exact hdisj b hb b (List.mem_of_head? hhead) rfl
  · refine Linked.setPrev_head (p := some a) ?_ (List.nodup_cons.mp hl₂).2
    refine h₂.2.congr fun b hb => Links.setNext?_of_ne fun hlast => ?_
    exact hdisj b (List.mem_of_getLast? hlast) b hb rfl

end

end CStrider
