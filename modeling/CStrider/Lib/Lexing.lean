import Mathlib.Data.List.Basic

/-!
# Lexing by the longest match

Of the rules of a generated lexer that match a beginning of the text, the one with the longest match
takes it, and of those that match the same, the first. A pattern says how much it matches at most.
-/

namespace CStrider.Lexing

/-- The length of the longest beginning of a text that is matched. -/
abbrev Pattern (α : Type*) := List α → Option Nat

variable {α β : Type*} {c d : α} {s t w : List α} {n m : Nat}

/-! ## Patterns -/

/-- A symbol of the first class, and then as many of the second as there are. -/
def ident (first rest : α → Bool) : Pattern α
  | [] => none
  | c :: s => if first c then some ((s.takeWhile rest).length + 1) else none

/-- Any symbol. -/
def anyOne : Pattern α
  | [] => none
  | _ :: _ => some 1

/-- An identifier ends where no symbol of the second class follows. -/
def Ends (rest : α → Bool) (s : List α) : Prop := ∀ c ∈ s.head?, rest c = false

variable {first rest : α → Bool}

theorem ends_cons (h : rest c = false) : Ends rest (c :: s) := by
  intro x hx
  cases hx
  exact h

theorem takeWhile_of_ends (ht : ∀ x ∈ t, rest x = true) (hs : Ends rest s) :
    (t ++ s).takeWhile rest = t := by
  rw [List.takeWhile_append_of_pos ht]
  cases s with
  | nil => simp
  | cons x s => rw [List.takeWhile_cons_of_neg (by simp [hs x rfl]), List.append_nil]

theorem ident_append (hc : first c = true) (ht : ∀ x ∈ t, rest x = true) (hs : Ends rest s) :
    ident first rest (c :: t ++ s) = some (t.length + 1) := by
  rw [List.cons_append, ident, if_pos hc, takeWhile_of_ends ht hs]

theorem ident_sound (h : ident first rest s = some n) :
    ∃ c t, s.take n = c :: t ∧ first c = true ∧ ∀ x ∈ t, rest x = true := by
  unfold ident at h
  split at h
  · cases h
  · next c s =>
    split at h
    · next hc =>
      cases h
      refine ⟨c, s.takeWhile rest, ?_, hc, List.all_eq_true.mp List.all_takeWhile⟩
      rw [List.take_succ_cons, List.prefix_iff_eq_take.mp (List.takeWhile_prefix rest)]
      simp
    · cases h

theorem le_length_of_ident (h : ident first rest s = some n) : n ≤ s.length := by
  unfold ident at h
  split at h
  · cases h
  · split at h
    · cases h
      exact Nat.succ_le_succ (List.takeWhile_prefix rest).length_le
    · cases h

theorem ident_ne (h : first c = false) : ident first rest (c :: s) = none := by
  rw [ident, h, if_neg Bool.false_ne_true]

section Words

variable [DecidableEq α]

/-- A word. -/
def literal (w : List α) : Pattern α := fun s => if w <+: s then some w.length else none

/-- A word, and then a pattern. -/
def after (w : List α) (p : Pattern α) : Pattern α := fun s =>
  if w <+: s then (p (s.drop w.length)).map (w.length + ·) else none

theorem literal_append : literal w (w ++ s) = some w.length := if_pos (List.prefix_append w s)

theorem literal_ne (h : c ≠ d) : literal (c :: w) (d :: s) = none :=
  if_neg fun hp => h (List.cons_prefix_cons.mp hp).1

theorem after_append {p : Pattern α} (h : p s = some n) :
    after w p (w ++ s) = some (w.length + n) := by
  rw [after, if_pos (List.prefix_append w s), List.drop_left, h]
  rfl

theorem after_sound {p : Pattern α} (h : after w p s = some n) :
    ∃ m, p (s.drop w.length) = some m ∧ (s.take n).drop w.length = (s.drop w.length).take m := by
  unfold after at h
  split at h
  · obtain ⟨m, hm, rfl⟩ := Option.map_eq_some_iff.mp h
    exact ⟨m, hm, by rw [List.drop_take, Nat.add_sub_cancel_left]⟩
  · cases h

/-- A word that could go on as an identifier is shorter than one, unless it is the identifier. -/
theorem literal_lt (hw : ∀ x ∈ w, rest x = true) (hs : Ends rest s) (hne : w ≠ t)
    (h : literal w (t ++ s) = some m) : m < t.length := by
  unfold literal at h
  split at h
  · next hp =>
    cases h
    by_contra hle
    rw [Nat.not_lt] at hle
    -- the identifier is a beginning of the word, and the word goes on behind it
    obtain ⟨u, rfl⟩ := List.prefix_of_prefix_length_le (List.prefix_append t s) hp hle
    obtain ⟨v, hv⟩ := hp
    rw [List.append_assoc, List.append_cancel_left_eq] at hv
    cases u with
    | nil => exact hne (List.append_nil t)
    | cons x u =>
      have hx := hs x (by rw [← hv]; rfl)
      rw [hw x (by simp)] at hx
      cases hx
  · cases h

end Words

/-- Where a word and a symbol that ends identifiers stand at the beginning of the text, the word is
the identifier that stands there. -/
theorem eq_of_prefix [DecidableEq α] (hw : ∀ x ∈ w, rest x = true) (hd : rest d = false)
    (ht : ∀ x ∈ t, rest x = true) (hs : Ends rest s) (h : w ++ [d] <+: t ++ s) :
    w = t ∧ ∃ s', s = d :: s' := by
  obtain ⟨s', hs'⟩ := h
  rw [List.append_assoc] at hs'
  have hends : Ends rest (d :: s') := ends_cons hd
  have heq : w = t := by
    have htake := congrArg (List.takeWhile rest) hs'
    rwa [List.singleton_append, takeWhile_of_ends hw hends, takeWhile_of_ends ht hs] at htake
  subst heq
  exact ⟨rfl, s', (List.append_cancel_left hs').symm⟩

/-! ## Rules -/

structure Rule (α β : Type*) where
  pattern : Pattern α
  action : List α → β

/-- The length of the longest match, and the action of the first rule that has it. -/
def best : List (Rule α β) → List α → Option (Nat × (List α → β))
  | [], _ => none
  | r :: rs, s =>
    match r.pattern s, best rs s with
    | none, b => b
    | some n, none => some (n, r.action)
    | some n, some b => if n < b.1 then some b else some (n, r.action)

/-- What the rule makes of its match, and the text behind it. Something has to be taken. -/
def munch (rs : List (Rule α β)) (s : List α) : Option (β × List α) :=
  match best rs s with
  | some (n, act) =>
    if (s.drop n).length < s.length then some (act (s.take n), s.drop n) else none
  | none => none

variable {rs pre post : List (Rule α β)} {r : Rule α β} {act : List α → β} {b : β}

theorem best_le (h : ∀ q ∈ rs, ∀ m, q.pattern s = some m → m ≤ n) (hb : best rs s = some (m, act)) :
    m ≤ n := by
  induction rs generalizing m act with
  | nil => cases hb
  | cons q rs ih =>
    have htail : ∀ {m act}, best rs s = some (m, act) → m ≤ n :=
      ih fun q' hq' => h q' (List.mem_cons_of_mem _ hq')
    rw [best] at hb
    split at hb
    · exact htail hb
    · next hq _ =>
      cases hb
      exact h q List.mem_cons_self _ hq
    · next hq hrs =>
      split at hb
      · cases hb
        exact htail hrs
      · cases hb
        exact h q List.mem_cons_self _ hq

/-- **The rule that is taken**: none in front of it matches as much, and none behind it more. -/
theorem best_eq (hr : r.pattern s = some n) (hpre : ∀ q ∈ pre, ∀ m, q.pattern s = some m → m < n)
    (hpost : ∀ q ∈ post, ∀ m, q.pattern s = some m → m ≤ n) :
    best (pre ++ r :: post) s = some (n, r.action) := by
  induction pre with
  | nil =>
    rw [List.nil_append, best, hr]
    cases hb : best post s with
    | none => rfl
    | some b => exact if_neg (Nat.not_lt.mpr (best_le hpost hb))
  | cons q pre ih =>
    rw [List.cons_append, best, ih fun q' hq' => hpre q' (List.mem_cons_of_mem _ hq')]
    cases hq : q.pattern s with
    | none => rfl
    | some m => exact if_pos (hpre q List.mem_cons_self m hq)

/-- The rule that is taken, by its place: those in front of it match less. -/
theorem best_sound (h : best rs s = some (n, act)) : ∃ (i : Nat) (r : Rule α β), rs[i]? = some r ∧
    r.pattern s = some n ∧ r.action = act ∧
    ∀ (j : Nat) q, j < i → rs[j]? = some q → ∀ m, q.pattern s = some m → m < n := by
  induction rs generalizing n act with
  | nil => cases h
  | cons q rs ih =>
    -- a rule of the tail, where the first rule matches less
    have tail : ∀ {n act}, best rs s = some (n, act) → (∀ m, q.pattern s = some m → m < n) →
        ∃ (i : Nat) (r : Rule α β), (q :: rs)[i]? = some r ∧ r.pattern s = some n ∧ r.action = act ∧
          ∀ (j : Nat) q', j < i → (q :: rs)[j]? = some q' → ∀ m, q'.pattern s = some m → m < n := by
      intro n act hb hq
      obtain ⟨i, r, hi, hr, hact, hless⟩ := ih hb
      refine ⟨i + 1, r, hi, hr, hact, fun j q' hj hq' => ?_⟩
      cases j with
      | zero =>
        cases hq'
        exact hq
      | succ j => exact hless j q' (Nat.lt_of_succ_lt_succ hj) hq'
    rw [best] at h
    split at h
    · next hq => exact tail h fun m hm => by cases hq.symm.trans hm
    · next hq _ =>
      cases h
      exact ⟨0, q, rfl, hq, rfl, fun j _ hj => absurd hj (Nat.not_lt_zero j)⟩
    · next hq hrs =>
      split at h
      · next hlt =>
        cases h
        exact tail hrs fun m hm => by
          cases hq.symm.trans hm
          exact hlt
      · cases h
        exact ⟨0, q, rfl, hq, rfl, fun j _ hj => absurd hj (Nat.not_lt_zero j)⟩

theorem munch_sound (h : munch rs s = some (b, t)) :
    ∃ (i : Nat) (r : Rule α β) (n : Nat), rs[i]? = some r ∧ r.pattern s = some n ∧
      b = r.action (s.take n) ∧
      ∀ (j : Nat) q, j < i → rs[j]? = some q → ∀ m, q.pattern s = some m → m < n := by
  unfold munch at h
  split at h
  · next n act hb =>
    split at h
    · cases h
      obtain ⟨i, r, hi, hr, rfl, hless⟩ := best_sound hb
      exact ⟨i, r, n, hi, hr, rfl, hless⟩
    · cases h
  · cases h

theorem munch_eq (hrs : rs = pre ++ r :: post) (hr : r.pattern (t ++ s) = some t.length)
    (ht : t ≠ []) (hpre : ∀ q ∈ pre, ∀ m, q.pattern (t ++ s) = some m → m < t.length)
    (hpost : ∀ q ∈ post, ∀ m, q.pattern (t ++ s) = some m → m ≤ t.length) :
    munch rs (t ++ s) = some (r.action t, s) := by
  subst hrs
  rw [munch, best_eq hr hpre hpost]
  dsimp only
  rw [List.take_left, List.drop_left, if_pos]
  rw [List.length_append]
  exact Nat.lt_add_of_pos_left (List.length_pos_iff.mpr ht)

theorem length_lt_of_munch (h : munch rs s = some (b, t)) : t.length < s.length := by
  unfold munch at h
  split at h
  · split at h
    · next hlt =>
      cases h
      exact hlt
    · cases h
  · cases h

end CStrider.Lexing
