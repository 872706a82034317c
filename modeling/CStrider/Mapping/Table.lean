import Mathlib.Logic.Function.Basic

/-!
# The pointer mapping table (`src/cstrider_api.c`)

`find_mapping` and `add_mapping` over the chains of the non-expanding hash table. The hash is a
parameter: all that the table owes to it is that a key always goes to the same bucket. A NULL
value and an absent key read the same, since `find_mapping` answers with the stored address.
-/

namespace CStrider.Mapping

/-- An address; `0` is `NULL`. -/
abbrev Ptr := Nat

/-- `pxform_mapping_entry`. -/
structure Entry where
  key : Ptr
  addr : Ptr
  deriving DecidableEq, Repr

/-- The chain of each bucket, newest entry first (`NXHASH_ADD_TO_BKT`). -/
abbrev Table := Nat → List Entry

/-- The key that `init_parallel_tbls` enters so that the table is never empty. -/
def seed : Ptr := 0xFFFFFFFF

section Operations

variable (bucket : Ptr → Nat)

/-- `find_mapping`: the first entry of the key's chain with that key. -/
def findMapping (t : Table) (key : Ptr) : Ptr :=
  if key = 0 then 0
  else match (t (bucket key)).find? (fun e => e.key == key) with
    | some e => e.addr
    | none => 0

/-- `NXHASH_ADD_PTR`. -/
def nxhashAdd (t : Table) (key addr : Ptr) : Table :=
  Function.update t (bucket key) (⟨key, addr⟩ :: t (bucket key))

/-- `add_mapping`. -/
def addMapping (t : Table) (key addr : Ptr) : Table :=
  if key = 0 then t
  else if findMapping bucket t key = 0 then nxhashAdd bucket t key addr
  else t

/-- The table that `init_parallel_tbls` leaves. -/
def seeded : Table := addMapping bucket (fun _ => []) seed seed

variable {bucket} {t : Table} {key addr k : Ptr}

@[simp] theorem findMapping_null : findMapping bucket t 0 = 0 := rfl

theorem findMapping_add_self (hk : key ≠ 0) :
    findMapping bucket (nxhashAdd bucket t key addr) key = addr := by
  simp [findMapping, nxhashAdd, hk]

theorem findMapping_add_ne (hk : k ≠ key) :
    findMapping bucket (nxhashAdd bucket t key addr) k = findMapping bucket t k := by
  unfold findMapping nxhashAdd
  by_cases hb : bucket k = bucket key
  · rw [hb, Function.update_self, List.find?_cons_of_neg (by simpa using hk.symm)]
  · rw [Function.update_of_ne hb]

theorem findMapping_empty : findMapping bucket (fun _ => []) k = 0 := by
  unfold findMapping
  split <;> rfl

/-- `add_mapping` decides about its own key, and only once. -/
theorem findMapping_addMapping :
    findMapping bucket (addMapping bucket t key addr) k =
      if k = key ∧ key ≠ 0 ∧ findMapping bucket t key = 0 then addr else findMapping bucket t k := by
  unfold addMapping
  by_cases hkey : key = 0
  · rw [if_pos hkey, if_neg fun h => h.2.1 hkey]
  · rw [if_neg hkey]
    by_cases hnew : findMapping bucket t key = 0
    · rw [if_pos hnew]
      by_cases hk : k = key
      · rw [if_pos ⟨hk, hkey, hnew⟩, hk, findMapping_add_self hkey]
      · rw [if_neg fun h => hk h.1, findMapping_add_ne hk]
    · rw [if_neg hnew, if_neg fun h => hnew h.2.2]

theorem findMapping_seeded :
    findMapping bucket (seeded bucket) k = if k = seed then seed else 0 := by
  have hadd : seeded bucket = nxhashAdd bucket (fun _ => []) seed seed := by
    rw [seeded, addMapping, if_neg (by decide), if_pos findMapping_empty]
  rw [hadd]
  split
  · next h => rw [h, findMapping_add_self (by decide)]
  · next h => rw [findMapping_add_ne h, findMapping_empty]

end Operations

end CStrider.Mapping
