import Mathlib.Data.List.Induction
import Mathlib.Data.List.Nodup

/-!
# Lists of entries with a key

A hash table as a list of entries in the order in which they were added. Where no key occurs twice
a search is decided by membership (`Keyed.find?_eq_some`). Where keys may repeat, the entries with a
key are those that `filter` keeps, and which of them a search meets is not a matter of the list:
`findKey` takes a number that chooses one of them.
-/

namespace CStrider.Keyed

variable {α κ : Type*} [DecidableEq κ] {key : α → κ} {l : List α} {k : κ} {e : α}

/-- With distinct keys, the entry that is found under a key is the one that has it. -/
theorem find?_eq_some (hl : (l.map key).Nodup) :
    l.find? (fun e => decide (key e = k)) = some e ↔ e ∈ l ∧ key e = k := by
  constructor
  · intro h
    have hk := List.find?_some h
    exact ⟨List.mem_of_find?_eq_some h, of_decide_eq_true hk⟩
  · rintro ⟨he, rfl⟩
    obtain ⟨e', he'⟩ := Option.isSome_iff_exists.mp
      (List.find?_isSome (p := fun x => decide (key x = key e)).mpr ⟨e, he, by simp⟩)
    have hkey : key e' = key e := by simpa using List.find?_some he'
    have hmem := List.mem_of_find?_eq_some he'
    rw [he', List.inj_on_of_nodup_map hl hmem he hkey]

/-! ## Repeated keys -/

variable (key)

/-- The position of an entry with key `k`; of several, the one that `pick` chooses. -/
def findKey (pick : Nat) (l : List α) (k : κ) : Option Nat :=
  let found := (List.range l.length).filter fun i => (l[i]?.map key) = some k
  found[pick % found.length]?

variable {key} {pick i : Nat}

/-- A position that is found splits the list at an entry with the key. -/
theorem findKey_some (h : findKey key pick l k = some i) :
    ∃ l₁ e l₂, l = l₁ ++ e :: l₂ ∧ key e = k ∧ l.eraseIdx i = l₁ ++ l₂ := by
  have hmem := List.mem_of_getElem? h
  rw [List.mem_filter, List.mem_range] at hmem
  obtain ⟨hi, hk⟩ := hmem
  refine ⟨l.take i, l[i], l.drop (i + 1), ?_, ?_, List.eraseIdx_eq_take_drop_succ l i⟩
  · rw [List.getElem_cons_drop, List.take_append_drop]
  · simpa [hi] using hk

/-- A search fails only where no entry has the key. -/
theorem findKey_isSome : (findKey key pick l k).isSome ↔ ∃ e ∈ l, key e = k := by
  constructor
  · intro h
    obtain ⟨i, hi⟩ := Option.isSome_iff_exists.mp h
    obtain ⟨l₁, e, l₂, rfl, hk, -⟩ := findKey_some hi
    exact ⟨e, by simp, hk⟩
  · rintro ⟨e, he, rfl⟩
    obtain ⟨i, hi, rfl⟩ := List.getElem_of_mem he
    have hmem : i ∈ (List.range l.length).filter fun j => (l[j]?.map key) = some (key l[i]) := by
      simp [hi]
    simp only [findKey, isSome_getElem?]
    exact Nat.mod_lt _ (List.length_pos_of_mem hmem)

end CStrider.Keyed
