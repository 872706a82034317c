import CStrider.Mapping.Table
import Mathlib.Data.List.Induction
import Mathlib.Data.List.Nodup

/-!
# Sequences of `add_mapping` calls (`src/cstrider_api.c`)

`add_mapping` enters a key only when `find_mapping` answers NULL for it, which an absent key and a
key that was entered with NULL have in common. What the table holds for a key depends on the calls
with that key alone: it is a stack on which the last value was not NULL, or all values are NULL
below it (`store`).
-/

namespace CStrider.Mapping

/-- A call `add_mapping(key, addr)`. -/
abbrev Write := Ptr × Ptr

section Sequences

variable (bucket : Ptr → Nat)

/-- The table after the calls. -/
def mappings (ws : List Write) : Table :=
  ws.foldl (fun t w => addMapping bucket t w.1 w.2) fun _ => []

/-- What the calls with key `k` were given, first call first. -/
def writesTo (k : Ptr) (ws : List Write) : List Ptr := (ws.filter fun w => w.1 = k).map Prod.snd

/-- No key has two entries. -/
structure Unique (t : Table) : Prop where
  chain : ∀ b, ((t b).map Entry.key).Nodup
  buckets : ∀ {b b' e e'}, e ∈ t b → e' ∈ t b' → e.key = e'.key → b = b'

/-- The first writer of a key wins, and its entry is the only one. -/
structure FirstWriterWins (ws : List Write) : Prop where
  find : ∀ k ≠ 0, findMapping bucket (mappings bucket ws) k = (writesTo k ws).headD 0
  unique : Unique (mappings bucket ws)

/-- No key is mapped to NULL first and added again. -/
def NullLast (ws : List Write) : Prop := ∀ k ≠ 0, ∀ vs, writesTo k ws = 0 :: vs → vs = []

end Sequences

/-! ## The values of one key -/

/-- What a call adds to the values of its key. -/
def store (vs : List Ptr) (v : Ptr) : List Ptr := if vs.headD 0 = 0 then v :: vs else vs

theorem length_le_store (vs : List Ptr) (v : Ptr) : vs.length ≤ (store vs v).length := by
  unfold store
  split
  · exact Nat.le_succ _
  · exact Nat.le_refl _

theorem length_le_foldl_store (vs ws : List Ptr) : vs.length ≤ (ws.foldl store vs).length := by
  induction ws generalizing vs with
  | nil => exact Nat.le_refl _
  | cons w ws ih => exact Nat.le_trans (length_le_store vs w) (ih _)

/-- A value that is not NULL stays. -/
theorem foldl_store_of_ne {v : Ptr} (hv : v ≠ 0) (vs ws : List Ptr) :
    ws.foldl store (v :: vs) = v :: vs := by
  induction ws with
  | nil => rfl
  | cons w ws ih =>
    have kept : store (v :: vs) w = v :: vs := if_neg hv
    rw [List.foldl_cons, kept, ih]

theorem foldl_store_null {w : Ptr} (ws : List Ptr) : 2 ≤ ((w :: ws).foldl store [0]).length :=
  length_le_foldl_store [w, 0] ws

section Values

variable {bucket : Ptr → Nat} {t : Table} {k key addr : Ptr} {ws : List Write}

theorem writesTo_append (w : Write) :
    writesTo k (ws ++ [w]) = writesTo k ws ++ if w.1 = k then [w.2] else [] := by
  rw [writesTo, List.filter_append, List.map_append]
  by_cases hw : w.1 = k
  · rw [if_pos hw, List.filter_cons_of_pos (by simpa using hw)]
    rfl
  · rw [if_neg hw, List.filter_cons_of_neg (by simpa using hw)]
    rfl

variable (bucket t k) in
/-- The values of the entries with key `k`, newest first. -/
def values : List Ptr := ((t (bucket k)).filter fun e => e.key = k).map Entry.addr

theorem findMapping_eq_values (hk : k ≠ 0) :
    findMapping bucket t k = (values bucket t k).headD 0 := by
  rw [findMapping, if_neg hk, values]
  induction t (bucket k) with
  | nil => rfl
  | cons e es ih =>
    by_cases he : e.key = k
    · simp [he]
    · simpa [he] using ih

theorem values_nxhashAdd : values bucket (nxhashAdd bucket t key addr) k =
    if k = key then addr :: values bucket t k else values bucket t k := by
  unfold values nxhashAdd
  by_cases hk : k = key
  · subst hk
    simp
  · rw [if_neg hk]
    by_cases hb : bucket k = bucket key
    · rw [hb, Function.update_self, List.filter_cons_of_neg (by simpa using Ne.symm hk)]
    · rw [Function.update_of_ne hb]

theorem values_addMapping (hk : k ≠ 0) : values bucket (addMapping bucket t key addr) k =
    if key = k then store (values bucket t k) addr else values bucket t k := by
  unfold addMapping
  by_cases hkey : key = k
  · subst hkey
    rw [if_neg hk, if_pos rfl, findMapping_eq_values hk, store]
    split
    · rw [values_nxhashAdd, if_pos rfl]
    · rfl
  · rw [if_neg hkey]
    split
    · rfl
    · split
      · rw [values_nxhashAdd, if_neg (Ne.symm hkey)]
      · rfl

/-- Calls with other keys do not matter. -/
theorem values_mappings (hk : k ≠ 0) :
    values bucket (mappings bucket ws) k = (writesTo k ws).foldl store [] := by
  induction ws using List.reverseRecOn with
  | nil => rfl
  | append_singleton ws w ih =>
    rw [mappings, List.foldl_append, List.foldl_cons, List.foldl_nil, ← mappings,
      values_addMapping hk, ih, writesTo_append, List.foldl_append]
    split <;> rfl

end Values

/-! ## Entries in their buckets -/

section Buckets

variable {bucket : Ptr → Nat} {t : Table} {ws : List Write}

variable (bucket t) in
/-- An entry is in the bucket of its key, and `NULL` is no key. -/
def Placed : Prop := ∀ {b e}, e ∈ t b → b = bucket e.key ∧ e.key ≠ 0

theorem placed_addMapping (h : Placed bucket t) (key addr : Ptr) :
    Placed bucket (addMapping bucket t key addr) := by
  unfold addMapping
  split
  · exact h
  · next hkey =>
    split
    · intro b e he
      unfold nxhashAdd at he
      by_cases hb : b = bucket key
      · rw [hb, Function.update_self, List.mem_cons] at he
        rcases he with rfl | he
        · exact ⟨hb, hkey⟩
        · exact hb ▸ h he
      · rw [Function.update_of_ne hb] at he
        exact h he
    · exact h

theorem placed_mappings : Placed bucket (mappings bucket ws) := by
  induction ws using List.reverseRecOn with
  | nil => exact fun he => absurd he List.not_mem_nil
  | append_singleton ws w ih =>
    rw [mappings, List.foldl_append]
    exact placed_addMapping ih _ _

/-- Where entries are placed, a key is unique if it has at most one value. -/
theorem unique_iff (h : Placed bucket t) :
    Unique t ↔ ∀ k ≠ 0, (values bucket t k).length ≤ 1 := by
  have count (b : Nat) (k : Ptr) :
      ((t b).map Entry.key).count k = ((t b).filter fun e => e.key = k).length := by
    rw [List.count, List.countP_map, List.countP_eq_length_filter]
    rfl
  constructor
  · intro unique k _
    rw [values, List.length_map, ← count]
    exact List.nodup_iff_count_le_one.mp (unique.chain _) k
  · intro few
    refine ⟨fun b => List.nodup_iff_count_le_one.mpr fun k => ?_, fun he he' hk => ?_⟩
    · rw [count]
      by_cases hmem : ∃ e ∈ t b, e.key = k
      · obtain ⟨e, he, rfl⟩ := hmem
        obtain ⟨rfl, hne⟩ := h he
        have bound := few e.key hne
        rwa [values, List.length_map] at bound
      · have none : ((t b).filter fun e => e.key = k) = [] :=
          List.filter_eq_nil_iff.mpr fun e he => by simpa using fun hk => hmem ⟨e, he, hk⟩
        rw [none]
        exact Nat.zero_le 1
    · rw [(h he).1, (h he').1, hk]

end Buckets

/-! ## First writers -/

section FirstWriters

variable (bucket : Ptr → Nat) (ws : List Write)

/-- **First writer wins**, but for keys that are mapped to NULL and added again: whatever is added
then, the key has two entries. -/
theorem firstWriterWins_iff : FirstWriterWins bucket ws ↔ NullLast ws := by
  constructor
  · intro wins k hk vs hws
    have bound := (unique_iff placed_mappings).mp wins.unique k hk
    rw [values_mappings hk, hws] at bound
    cases vs with
    | nil => rfl
    | cons v vs =>
      have two : 2 ≤ ((0 :: v :: vs).foldl store []).length := foldl_store_null vs
      omega
  · intro nullLast
    have stored : ∀ k ≠ 0, (writesTo k ws).foldl store [] = (writesTo k ws).take 1 := by
      intro k hk
      cases hws : writesTo k ws with
      | nil => rfl
      | cons v vs =>
        by_cases hv : v = 0
        · subst hv
          rw [nullLast k hk vs hws]
          rfl
        · exact foldl_store_of_ne hv [] vs
    refine ⟨fun k hk => ?_, (unique_iff placed_mappings).mpr fun k hk => ?_⟩
    · rw [findMapping_eq_values hk, values_mappings hk, stored k hk]
      cases writesTo k ws <;> rfl
    · rw [values_mappings hk, stored k hk]
      exact List.length_take_le 1 _

/-- `add_mapping(8, NULL)`, then `add_mapping(8, 16)`: the second writer wins, and there are two
entries. -/
theorem firstWriterWins_fails : ¬ FirstWriterWins (fun _ => 0) [(8, 0), (8, 16)] ∧
    findMapping (fun _ => 0) (mappings (fun _ => 0) [(8, 0), (8, 16)]) 8 = 16 := by
  refine ⟨fun wins => absurd (wins.find 8 (by decide)) (by decide), by decide⟩

end FirstWriters

end CStrider.Mapping
