import CStrider.Types.Hash
import Mathlib.Logic.Function.Basic
import Mathlib.Data.List.Basic

/-!
# The type table (`src/cstrider_api.c`)

The table is an expanding hash table keyed by type ids. Nothing in it keeps two entries from
having one key: a search returns the first entry of its chain, an insertion goes in front, and an
expansion turns every chain around. Entries with one key share a chain, so one list with these
three operations has the same searches as the table.
-/

namespace CStrider.Types

/-- What `corresp_func_ptr` points to. -/
inductive Func where
  | transformPrim
  | transformFptr
  /-- the generated function of a struct, by its number -/
  | generated (n : Nat)
  deriving DecidableEq, Repr

/-- `type_hash_entry`; `args` is the address of the argument vector, `0` if there is none. -/
structure Entry where
  type : Typ
  arrlen : Int
  arrbase : Typ
  size : Int
  func : Func
  targetType : Typ
  pointerTo : Typ
  numGenArgs : Int
  args : Nat
  maintype : Typ
  outType : Typ
  deriving DecidableEq, Repr

/-- `TYPE_FUNPTR`. -/
def TYPE_FUNPTR : Typ := 16

/-- The type table, newest entries first. -/
abbrev TypeTable := List Entry

namespace TypeTable

variable (tt : TypeTable)

/-- `get_typeinfo_from_table`. -/
def find (t : Typ) : Option Entry := List.find? (fun e => e.type == t) tt

/-- `XHASH_ADD`. -/
def add (e : Entry) : TypeTable := e :: tt

/-- `XHASH_EXPAND_BUCKETS`. -/
def expand : TypeTable := List.reverse tt

/-- Assignment to `pointer_to` of the entry that a search for `t` returns. -/
def setPointerTo (t p : Typ) : TypeTable → TypeTable
  | [] => []
  | e :: es => if e.type = t then { e with pointerTo := p } :: es else e :: setPointerTo t p es

variable {tt} {t k p : Typ} {e : Entry}

theorem exists_find (h : k ∈ tt.map Entry.type) : ∃ e, tt.find k = some e := by
  rw [← Option.isSome_iff_exists, find, List.find?_isSome]
  obtain ⟨e, he, hk⟩ := List.mem_map.mp h
  exact ⟨e, he, by simp [hk]⟩

theorem find_add : (tt.add e).find k = if e.type = k then some e else tt.find k := by
  by_cases h : e.type = k <;> simp [find, add, h]

theorem type_of_find (h : tt.find k = some e) : e.type = k := by
  simpa using List.find?_some h

theorem mem_of_find (h : tt.find k = some e) : e ∈ tt :=
  List.mem_of_find?_eq_some h

theorem find_eq_none : tt.find k = none ↔ k ∉ tt.map Entry.type := by
  simp [find, List.find?_eq_none]

/-- `pointer_to` is all that the assignment changes. -/
theorem find_setPointerTo :
    (tt.setPointerTo t p).find k =
      (tt.find k).map fun e => if k = t then { e with pointerTo := p } else e := by
  induction tt with
  | nil => rfl
  | cons e es ih =>
    by_cases he : e.type = t
    · by_cases hk : t = k
      · simp [setPointerTo, find, he, hk]
      · simp [setPointerTo, find, he, hk, Ne.symm hk]
    · by_cases hk : e.type = k
      · simp [setPointerTo, find, hk, hk ▸ he]
      · simpa [setPointerTo, find, he, hk] using ih

@[simp] theorem map_type_setPointerTo :
    (tt.setPointerTo t p).map Entry.type = tt.map Entry.type := by
  induction tt with
  | nil => rfl
  | cons e es ih =>
    by_cases he : e.type = t
    · simp [setPointerTo, he]
    · simp [setPointerTo, he, ih]

theorem mem_setPointerTo (h : e ∈ tt.setPointerTo t p) :
    e ∈ tt ∨ ∃ f ∈ tt, e = { f with pointerTo := p } := by
  induction tt with
  | nil => exact .inl h
  | cons f es ih =>
    by_cases hf : f.type = t
    · rw [setPointerTo, if_pos hf, List.mem_cons] at h
      rcases h with rfl | h
      · exact .inr ⟨f, List.mem_cons_self, rfl⟩
      · exact .inl (List.mem_cons_of_mem _ h)
    · rw [setPointerTo, if_neg hf, List.mem_cons] at h
      rcases h with rfl | h
      · exact .inl List.mem_cons_self
      · exact (ih h).imp (List.mem_cons_of_mem _) fun ⟨g, hg, he⟩ =>
          ⟨g, List.mem_cons_of_mem _ hg, he⟩

end TypeTable

/-! ## The built-in types -/

/-- The arrays that the generator emits, `len` entries each (`sizes_array_len`).
`ptstoTypeArray` is not among them: `cstrider_type_init` writes to it. -/
structure Generated where
  len : Nat
  sizes : Nat → Int
  func : Nat → Func
  targetType : Nat → Typ
  numGenArgs : Nat → Int
  args : Nat → Nat
  mainType : Nat → Typ
  outTypeInternal : Typ → Typ

/-- Eighteen types that are no pointers. -/
def plainTypes : Generated where
  len := 18
  sizes _ := 8
  func _ := .transformPrim
  targetType _ := -1
  numGenArgs _ := 0
  args _ := 0
  mainType i := i
  outTypeInternal _ := -1

section TypeInit

variable (g : Generated)

/-- The entry that `cstrider_type_init` makes for type `i`. -/
def builtin (pointerTo : Typ) (i : Nat) : Entry where
  type := i
  arrlen := 0
  arrbase := 0
  size := g.sizes i
  func := g.func i
  targetType := g.targetType i
  pointerTo := pointerTo
  numGenArgs := g.numGenArgs i
  args := g.args i
  maintype := g.mainType i
  outType := g.outTypeInternal i

/-- One round of the loop of `cstrider_type_init`, on the table and `ptsto_type_array`. -/
def typeInitStep (s : TypeTable × (Typ → Typ)) (i : Nat) : TypeTable × (Typ → Typ) :=
  let tt := s.1.add (builtin g (s.2 i) i)
  let target := g.targetType i
  if target = -1 then (tt, s.2)
  else if (tt.find target).isSome then (tt.setPointerTo target i, s.2)
  else (tt, Function.update s.2 target i)

/-- `cstrider_type_init`, from the table and `ptsto_type_array` that it finds. -/
def typeInit (tt : TypeTable) (ptsto : Typ → Typ) : TypeTable × (Typ → Typ) :=
  (List.range g.len).foldl (typeInitStep g) (tt, ptsto)

variable {g} {tt : TypeTable} {ptsto : Typ → Typ} {n : Nat}

/-- After `n` rounds the table has one entry for each of the first `n` types, which differs from
what the arrays say at most in `pointer_to`. -/
theorem typeInit_rounds {s : TypeTable × (Typ → Typ)}
    (h : (List.range n).foldl (typeInitStep g) ([], ptsto) = s) :
    s.1.map Entry.type = ((List.range n).map Nat.cast).reverse ∧
      ∀ e ∈ s.1, ∃ i < n, ∃ p, e = builtin g p i := by
  induction n generalizing s with
  | zero =>
    subst h
    exact ⟨rfl, fun e he => absurd he List.not_mem_nil⟩
  | succ n ih =>
    rw [List.range_succ, List.foldl_append] at h
    obtain ⟨hkeys, hentry⟩ := ih rfl
    generalize (List.range n).foldl (typeInitStep g) ([], ptsto) = s₀ at h hkeys hentry
    have added : ∀ e ∈ s₀.1.add (builtin g (s₀.2 n) n), ∃ i < n + 1, ∃ p, e = builtin g p i := by
      intro e he
      rcases List.mem_cons.mp he with rfl | he
      · exact ⟨n, Nat.lt_succ_self n, _, rfl⟩
      · obtain ⟨i, hi, hp⟩ := hentry e he
        exact ⟨i, Nat.lt_succ_of_lt hi, hp⟩
    have keys : (s₀.1.add (builtin g (s₀.2 n) n)).map Entry.type
        = ((List.range (n + 1)).map Nat.cast).reverse := by
      simp [TypeTable.add, hkeys, List.range_succ, builtin]
    simp only [List.foldl_cons, List.foldl_nil, typeInitStep] at h
    split at h
    · subst h
      exact ⟨keys, added⟩
    · split at h <;> subst h
      · refine ⟨by rw [TypeTable.map_type_setPointerTo, keys], fun e he => ?_⟩
        rcases TypeTable.mem_setPointerTo he with he | ⟨f, hf, rfl⟩
        · exact added e he
        · obtain ⟨i, hi, p, rfl⟩ := added f hf
          exact ⟨i, hi, _, rfl⟩
      · exact ⟨keys, added⟩

/-! ### Running `cstrider_type_init` again -/

variable (g) in
/-- Round `i` leaves `ptsto_type_array` changed: the target has no entry yet. -/
def WritesPtsto (i : Nat) : Prop := g.targetType i ≠ -1 ∧ ∀ j ≤ i, g.targetType i ≠ (j : Typ)

variable (g ptsto n) in
def rounds : TypeTable × (Typ → Typ) := (List.range n).foldl (typeInitStep g) ([], ptsto)

theorem rounds_succ : rounds g ptsto (n + 1) = typeInitStep g (rounds g ptsto n) n := by
  rw [rounds, List.range_succ, List.foldl_append]
  rfl

theorem find_rounds_isSome (i : Nat) (p t : Typ) :
    (((rounds g ptsto i).1.add (builtin g p i)).find t).isSome = true ↔ ∃ j ≤ i, t = (j : Typ) := by
  have hkeys := (typeInit_rounds (Eq.refl (rounds g ptsto i))).1
  rw [Option.isSome_iff_ne_none, Ne, TypeTable.find_eq_none, not_not]
  show t ∈ (i : Typ) :: (rounds g ptsto i).1.map Entry.type ↔ _
  rw [hkeys, List.mem_cons, List.mem_reverse, List.mem_map]
  constructor
  · rintro (rfl | ⟨j, hj, rfl⟩)
    · exact ⟨i, Nat.le_refl i, rfl⟩
    · exact ⟨j, Nat.le_of_lt (List.mem_range.mp hj), rfl⟩
  · rintro ⟨j, hj, rfl⟩
    rcases Nat.lt_or_eq_of_le hj with hj | rfl
    · exact .inr ⟨j, List.mem_range.mpr hj, rfl⟩
    · exact .inl rfl

theorem ptsto_rounds_succ :
    (WritesPtsto g n → (rounds g ptsto (n + 1)).2 =
      Function.update (rounds g ptsto n).2 (g.targetType n) n) ∧
    (¬ WritesPtsto g n → (rounds g ptsto (n + 1)).2 = (rounds g ptsto n).2) := by
  rw [rounds_succ, typeInitStep]
  simp only [find_rounds_isSome]
  split
  · next h => exact ⟨fun hw => absurd h hw.1, fun _ => rfl⟩
  · next h =>
    split
    · next hj =>
      obtain ⟨j, hj, ht⟩ := hj
      exact ⟨fun hw => absurd ht (hw.2 j hj), fun _ => rfl⟩
    · next hj => exact ⟨fun _ => rfl, fun hw => absurd ⟨h, fun j hji ht => hj ⟨j, hji, ht⟩⟩ hw⟩

variable (g n) in
def Written (t : Typ) : Prop := ∃ i < n, WritesPtsto g i ∧ g.targetType i = t

theorem ptsto_rounds (t : Typ) :
    (¬ Written g n t → (rounds g ptsto n).2 t = ptsto t) ∧
      (Written g n t → ∀ ptsto', (rounds g ptsto n).2 t = (rounds g ptsto' n).2 t) := by
  induction n with
  | zero => exact ⟨fun _ => rfl, fun ⟨i, hi, _⟩ => absurd hi (Nat.not_lt_zero i)⟩
  | succ n ih =>
    have step : Written g (n + 1) t ↔ Written g n t ∨ (WritesPtsto g n ∧ g.targetType n = t) := by
      constructor
      · rintro ⟨i, hi, hw⟩
        rcases Nat.lt_succ_iff_lt_or_eq.mp hi with hi | rfl
        · exact .inl ⟨i, hi, hw⟩
        · exact .inr hw
      · rintro (⟨i, hi, hw⟩ | hw)
        · exact ⟨i, Nat.lt_succ_of_lt hi, hw⟩
        · exact ⟨n, Nat.lt_succ_self n, hw⟩
    by_cases hw : WritesPtsto g n
    · simp only [ptsto_rounds_succ.1 hw]
      by_cases ht : g.targetType n = t
      · subst ht
        refine ⟨fun h => absurd (step.mpr (.inr ⟨hw, rfl⟩)) h, fun _ ptsto' => ?_⟩
        rw [Function.update_self, Function.update_self]
      · have hiff : Written g (n + 1) t ↔ Written g n t := by
          rw [step]
          exact or_iff_left fun h => ht h.2
        simp only [Function.update_of_ne (Ne.symm ht), hiff]
        exact ih
    · simp only [ptsto_rounds_succ.2 hw]
      rw [step, or_iff_left fun h => hw h.1]
      exact ih

/-- What round `n` reads of `ptsto_type_array` does not change when the array was left by an
earlier run: no round that follows writes there. -/
theorem ptsto_again {len : Nat} :
    (rounds g (rounds g ptsto len).2 n).2 n = (rounds g ptsto n).2 n := by
  by_cases hw : Written g n n
  · exact (ptsto_rounds _).2 hw _
  · rw [(ptsto_rounds _).1 hw, (ptsto_rounds _).1 hw, (ptsto_rounds _).1]
    rintro ⟨i, hi, hwi, ht⟩
    by_cases hin : i < n
    · exact hw ⟨i, hin, hwi, ht⟩
    · exact hwi.2 n (Nat.le_of_not_lt hin) ht

/-- A second `cstrider_type_init` on an empty table gives the table of the first. -/
theorem typeInit_again :
    typeInit g [] (typeInit g [] ptsto).2 = typeInit g [] ptsto := by
  have table : ∀ n ≤ g.len,
      (rounds g (rounds g ptsto g.len).2 n).1 = (rounds g ptsto n).1 := by
    intro n
    induction n with
    | zero => exact fun _ => rfl
    | succ n ih =>
      intro hn
      rw [rounds_succ, rounds_succ, typeInitStep, typeInitStep]
      simp only [ptsto_again, ih (Nat.le_of_lt hn)]
      split
      · rfl
      · split <;> rfl
  refine Prod.ext (table g.len (Nat.le_refl _)) (funext fun t => ?_)
  show (rounds g (rounds g ptsto g.len).2 g.len).2 t = (rounds g ptsto g.len).2 t
  by_cases hw : Written g g.len t
  · exact (ptsto_rounds t).2 hw _
  · exact (ptsto_rounds t).1 hw

end TypeInit

end CStrider.Types
