import CStrider.Comparison.Lists
import Mathlib.Data.List.Nodup

/-!
# What `util_compare_lists` calls back

Where the key map has no effects, comparing two lists is calling back for each element of a list
that is known beforehand (`utilCompareLists_eq`), whatever the callbacks do: the two hash tables and
the flag only decide which calls there are. Callbacks that do nothing but note who is called show
that no element is forgotten and none comes twice.
-/

namespace CStrider.Comparison

/-- A call of one of the functions that `util_compare_lists` is given. -/
inductive Call (α : Type) where
  | compare (e0 e : α)
  | added (e : α)
  | removed (e : α)
  | reordered
  deriving DecidableEq, Repr

section

variable {α κ : Type} [DecidableEq κ]

theorem findKey_isSome {keyFun : α → κ} {l : List α} {k : κ} :
    (findKey keyFun l k).isSome ↔ k ∈ l.map keyFun := by
  rw [findKey, List.find?_isSome]
  simp

theorem findKey_eq_none {keyFun : α → κ} {l : List α} {k : κ} :
    findKey keyFun l k = none ↔ k ∉ l.map keyFun := by
  rw [← findKey_isSome, Option.not_isSome_iff_eq_none]

theorem keyFun_of_findKey {keyFun : α → κ} {l : List α} {k : κ} {e : α}
    (h : findKey keyFun l k = some e) : keyFun e = k := by
  simpa using List.find?_some h

/-- Where keys are distinct, the binding that was added last is the only one. -/
theorem findKey_eq_some {keyFun : α → κ} {l : List α} {k : κ} {e : α}
    (hnodup : (l.map keyFun).Nodup) : findKey keyFun l k = some e ↔ e ∈ l ∧ keyFun e = k := by
  constructor
  · intro h
    exact ⟨mem_of_findKey h, keyFun_of_findKey h⟩
  · rintro ⟨he, rfl⟩
    obtain ⟨e', he'⟩ := Option.isSome_iff_exists.mp
      (findKey_isSome.mpr (List.mem_map_of_mem (f := keyFun) he))
    rw [he', List.inj_on_of_nodup_map hnodup (mem_of_findKey he') he (keyFun_of_findKey he')]

variable (keyFun : α → κ) (mapKey : α → Option κ) (oldL newL : List α)

/-! ## The calls -/

/-- What is called for a new element; nothing for one that is skipped. -/
def newCall (e : α) : Option (Call α) :=
  (mapKey e).map fun k =>
    match findKey keyFun oldL k with
    | some e0 => .compare e0 e
    | none => .added e

/-- The old elements that no new one is mapped to. -/
def unmatchedOld : List α := oldL.filter fun e0 => newL.all fun e => mapKey e ≠ some (keyFun e0)

/-- Nothing is added, removed or skipped. -/
structure Unchanged : Prop where
  new : ∀ e ∈ newL, ∃ k ∈ oldL.map keyFun, mapKey e = some k
  old : ∀ e0 ∈ oldL, some (keyFun e0) ∈ newL.map mapKey

/-- The key sequences differ, and nothing else does. -/
def Reordered : Prop :=
  Unchanged keyFun mapKey oldL newL ∧ oldL.map (fun e0 => some (keyFun e0)) ≠ newL.map mapKey

open Classical in
/-- All calls, in their order. -/
noncomputable def calls (order : Bool) : List (Call α) :=
  newL.filterMap (newCall keyFun mapKey oldL) ++
    (unmatchedOld keyFun mapKey oldL newL).map .removed ++
      if order ∧ Reordered keyFun mapKey oldL newL then [.reordered] else []

end

/-! ## The hash table and the flag -/

section

variable {α κ : Type} [DecidableEq κ] {keyFun : α → κ} {mapKey : α → Option κ} {oldL newL : List α}
  {st : List κ × Bool}

variable (keyFun mapKey oldL) in
/-- `match_found` and `added_or_removed` after a new element. -/
def newState (st : List κ × Bool) (e : α) : List κ × Bool :=
  match mapKey e with
  | none => (st.1, true)
  | some k => if (findKey keyFun oldL k).isSome then (k :: st.1, st.2) else (st.1, true)

theorem mem_newState {e : α} {k : κ} : k ∈ (newState keyFun mapKey oldL st e).1 ↔
    k ∈ st.1 ∨ k ∈ oldL.map keyFun ∧ mapKey e = some k := by
  unfold newState
  cases he : mapKey e with
  | none => simp
  | some k' =>
    have hiff := @findKey_isSome _ _ _ keyFun oldL k'
    grind

theorem newState_snd {e : α} : (newState keyFun mapKey oldL st e).2 = false ↔
    st.2 = false ∧ ∃ k ∈ oldL.map keyFun, mapKey e = some k := by
  unfold newState
  cases he : mapKey e with
  | none => simp
  | some k =>
    have hiff := @findKey_isSome _ _ _ keyFun oldL k
    grind

theorem mem_foldl_newState {k : κ} : k ∈ (newL.foldl (newState keyFun mapKey oldL) st).1 ↔
    k ∈ st.1 ∨ k ∈ oldL.map keyFun ∧ some k ∈ newL.map mapKey := by
  induction newL generalizing st with
  | nil => simp
  | cons e newL ih =>
    rw [List.foldl_cons, ih, mem_newState, or_assoc, ← and_or_left, List.map_cons, List.mem_cons,
      eq_comm]

theorem foldl_newState_snd : (newL.foldl (newState keyFun mapKey oldL) st).2 = false ↔
    st.2 = false ∧ ∀ e ∈ newL, ∃ k ∈ oldL.map keyFun, mapKey e = some k := by
  induction newL generalizing st with
  | nil => simp
  | cons e newL ih => rw [List.foldl_cons, ih, newState_snd, and_assoc, List.forall_mem_cons]

/-- `match_found` after all new elements has the keys of the old ones that they are mapped to. -/
theorem filter_matchFound : oldL.filter
      (keyFun · ∉ (newL.foldl (newState keyFun mapKey oldL) ([], false)).1) =
    unmatchedOld keyFun mapKey oldL newL := by
  refine List.filter_congr fun e0 he0 => ?_
  have hkey : keyFun e0 ∈ oldL.map keyFun := List.mem_map_of_mem he0
  rw [Bool.eq_iff_iff, decide_eq_true_iff, mem_foldl_newState]
  simp [hkey]

/-- `added_or_removed` after all elements. -/
theorem unchanged_iff : ((newL.foldl (newState keyFun mapKey oldL) ([], false)).2 ||
      oldL.any (keyFun · ∉ (newL.foldl (newState keyFun mapKey oldL) ([], false)).1)) = false ↔
    Unchanged keyFun mapKey oldL newL := by
  rw [Bool.or_eq_false_iff, foldl_newState_snd, List.any_eq_false]
  constructor
  · rintro ⟨⟨_, hnew⟩, hold⟩
    refine ⟨hnew, fun e0 he0 => ?_⟩
    have hmem : keyFun e0 ∈ (newL.foldl (newState keyFun mapKey oldL) ([], false)).1 := by
      simpa using hold e0 he0
    exact ((mem_foldl_newState.mp hmem).resolve_left List.not_mem_nil).2
  · rintro ⟨hnew, hold⟩
    refine ⟨⟨rfl, hnew⟩, fun e0 he0 => ?_⟩
    have hmem : keyFun e0 ∈ (newL.foldl (newState keyFun mapKey oldL) ([], false)).1 :=
      mem_foldl_newState.mpr (.inr ⟨List.mem_map_of_mem he0, hold e0 he0⟩)
    simpa using hmem

end

/-! ## The comparison makes these calls -/

section

variable {α κ : Type} [DecidableEq κ] {m : Type → Type} [Monad m]

/-- What a call does. -/
def Callbacks.perform (c : Callbacks m α κ) (reordered : m Unit) : Call α → m Unit
  | .compare e0 e => c.compareFun e0 e
  | .added e => c.addedFun e
  | .removed e => c.removedFun e
  | .reordered => reordered

variable [LawfulMonad m] {c : Callbacks m α κ} {mapKey : α → Option κ}
  (hmap : ∀ e, c.mapKeyFun e = pure (mapKey e)) (reordered : m Unit)

include hmap in
theorem foldlM_iterNewElem (oldL newL : List α) (st : List κ × Bool) :
    newL.foldlM (iterNewElem c oldL) st = (do
      forM (newL.filterMap (newCall c.keyFun mapKey oldL)) (c.perform reordered)
      pure (newL.foldl (newState c.keyFun mapKey oldL) st)) := by
  induction newL generalizing st with
  | nil => simp
  | cons e newL ih =>
    rw [List.foldlM_cons, iterNewElem, hmap, pure_bind, List.filterMap_cons, List.foldl_cons]
    cases hk : mapKey e with
    | none => simp [newCall, newState, hk, ih]
    | some k =>
      cases hf : findKey c.keyFun oldL k with
      | none => simp [newCall, newState, hk, hf, ih, Callbacks.perform]
      | some e0 => simp [newCall, newState, hk, hf, ih, Callbacks.perform]

theorem foldlM_iterOldElem (matchFound : List κ) (oldL : List α) (b : Bool) :
    oldL.foldlM (iterOldElem c matchFound) b = (do
      forM ((oldL.filter (c.keyFun · ∉ matchFound)).map Call.removed) (c.perform reordered)
      pure (b || oldL.any (c.keyFun · ∉ matchFound))) := by
  induction oldL generalizing b with
  | nil => simp
  | cons e oldL ih =>
    rw [List.foldlM_cons, iterOldElem]
    by_cases h : c.keyFun e ∈ matchFound
    · simp [h, ih]
    · simp [h, ih, Callbacks.perform]

include hmap in
theorem checkOrder_eq (oldL newL : List α) :
    checkOrder c oldL newL =
      pure (decide (oldL.map (fun e0 => some (c.keyFun e0)) = newL.map mapKey)) := by
  induction oldL generalizing newL with
  | nil => cases newL <;> simp [checkOrder]
  | cons o os ih =>
    cases newL with
    | nil => simp [checkOrder]
    | cons n ns => simp [checkOrder, hmap, ih]

include hmap in
/-- Comparing two lists is calling back for each of `calls`. -/
theorem utilCompareLists_eq (oldL newL : List α) (order : Bool) :
    utilCompareLists c oldL newL (if order then some reordered else none) =
      forM (calls c.keyFun mapKey oldL newL order) (c.perform reordered) := by
  rw [utilCompareLists, foldlM_iterNewElem hmap reordered]
  simp only [bind_assoc, pure_bind]
  rw [foldlM_iterOldElem reordered, filter_matchFound]
  simp only [bind_assoc, pure_bind, calls, List.forM_append]
  refine bind_congr fun _ => bind_congr fun _ => ?_
  cases order with
  | false => simp
  | true =>
    simp only [if_true, checkOrder_eq hmap, pure_bind]
    by_cases hun : Unchanged c.keyFun mapKey oldL newL
    · rw [unchanged_iff.mpr hun]
      by_cases hkeys : oldL.map (fun e0 => some (c.keyFun e0)) = newL.map mapKey
      · simp [Reordered, hkeys]
      · simp [Reordered, hun, hkeys, Callbacks.perform]
    · rw [eq_true_of_ne_false (mt unchanged_iff.mp hun)]
      simp [Reordered, hun]

end

/-! ## Who is called -/

section

variable {α κ : Type} [DecidableEq κ] (keyFun : α → κ) (mapKey : α → Option κ) (oldL newL : List α)
  (order : Bool)

def note (call : Call α) : StateM (List (Call α)) Unit := modify (· ++ [call])

/-- Callbacks that note who is called. -/
def notingCallbacks : Callbacks (StateM (List (Call α))) α κ where
  keyFun := keyFun
  mapKeyFun e := pure (mapKey e)
  compareFun e0 e := note (.compare e0 e)
  addedFun e := note (.added e)
  removedFun e := note (.removed e)

/-- The calls that `util_compare_lists` makes; `order` is its `check_order`. -/
def notedCalls : List (Call α) :=
  ((utilCompareLists (notingCallbacks keyFun mapKey) oldL newL
    (if order then some (note .reordered) else none)).run []).2

/-- Each element has its call, once. -/
structure Classified (cs : List (Call α)) : Prop where
  nodup : cs.Nodup
  compare : ∀ e0 e, .compare e0 e ∈ cs ↔ e ∈ newL ∧ e0 ∈ oldL ∧ mapKey e = some (keyFun e0)
  added : ∀ e, .added e ∈ cs ↔ e ∈ newL ∧ ∃ k, mapKey e = some k ∧ k ∉ oldL.map keyFun
  removed : ∀ e0, .removed e0 ∈ cs ↔ e0 ∈ oldL ∧ some (keyFun e0) ∉ newL.map mapKey
  reordered : .reordered ∈ cs ↔ order = true ∧ Reordered keyFun mapKey oldL newL

variable {keyFun mapKey oldL newL order}

theorem run_forM_note (cs l : List (Call α)) :
    (forM cs note : StateM _ Unit).run l = ((), l ++ cs) := by
  induction cs generalizing l with
  | nil =>
    rw [List.append_nil]
    rfl
  | cons call cs ih =>
    rw [List.forM_cons, StateT.run_bind]
    change (forM cs note : StateM _ Unit).run (l ++ [call]) = _
    rw [ih, List.append_assoc, List.singleton_append]

theorem notedCalls_eq :
    notedCalls keyFun mapKey oldL newL order = calls keyFun mapKey oldL newL order := by
  have hperform : (notingCallbacks keyFun mapKey).perform (note .reordered) = note := by
    funext call
    cases call <;> rfl
  rw [notedCalls, utilCompareLists_eq (fun _ => rfl), hperform, run_forM_note]
  rfl

theorem newCall_eq_some {e : α} {call : Call α} (h : newCall keyFun mapKey oldL e = some call) :
    (∃ k e0, mapKey e = some k ∧ findKey keyFun oldL k = some e0 ∧ call = .compare e0 e) ∨
      ∃ k, mapKey e = some k ∧ findKey keyFun oldL k = none ∧ call = .added e := by
  obtain ⟨k, hk, rfl⟩ := Option.map_eq_some_iff.mp h
  split
  · next e0 he0 => exact .inl ⟨k, e0, hk, he0, rfl⟩
  · next hnone => exact .inr ⟨k, hk, hnone, rfl⟩

theorem newCall_eq_compare {e e1 e0 : α} : newCall keyFun mapKey oldL e = some (.compare e0 e1) ↔
    ∃ k, mapKey e = some k ∧ findKey keyFun oldL k = some e0 ∧ e = e1 := by
  constructor
  · intro h
    rcases newCall_eq_some h with ⟨k, e0', hk, hf, heq⟩ | ⟨_, _, _, heq⟩
    · obtain ⟨rfl, rfl⟩ := Call.compare.inj heq
      exact ⟨k, hk, hf, rfl⟩
    · cases heq
  · rintro ⟨k, hk, hf, rfl⟩
    simp [newCall, hk, hf]

theorem newCall_eq_added {e e1 : α} : newCall keyFun mapKey oldL e = some (.added e1) ↔
    ∃ k, mapKey e = some k ∧ findKey keyFun oldL k = none ∧ e = e1 := by
  constructor
  · intro h
    rcases newCall_eq_some h with ⟨_, _, _, _, heq⟩ | ⟨k, hk, hf, heq⟩
    · cases heq
    · exact ⟨k, hk, hf, (Call.added.inj heq).symm⟩
  · rintro ⟨k, hk, hf, rfl⟩
    simp [newCall, hk, hf]

/-- The calls for new elements are of one of two kinds. -/
theorem newCall_ne {e o : α} {call : Call α} (h : newCall keyFun mapKey oldL e = some call) :
    call ≠ .removed o ∧ call ≠ .reordered := by
  rcases newCall_eq_some h with ⟨_, _, _, _, rfl⟩ | ⟨_, _, _, rfl⟩ <;> exact ⟨nofun, nofun⟩

theorem compare_mem_calls {e0 e : α} : .compare e0 e ∈ calls keyFun mapKey oldL newL order ↔
    e ∈ newL ∧ ∃ k, mapKey e = some k ∧ findKey keyFun oldL k = some e0 := by
  rw [calls, List.mem_append, List.mem_append, List.mem_filterMap]
  simp only [newCall_eq_compare]
  split <;> simp

theorem added_mem_calls {e : α} : .added e ∈ calls keyFun mapKey oldL newL order ↔
    e ∈ newL ∧ ∃ k, mapKey e = some k ∧ k ∉ oldL.map keyFun := by
  rw [calls, List.mem_append, List.mem_append, List.mem_filterMap]
  simp only [newCall_eq_added, findKey_eq_none]
  split <;> simp

theorem mem_unmatchedOld {e0 : α} : e0 ∈ unmatchedOld keyFun mapKey oldL newL ↔
    e0 ∈ oldL ∧ some (keyFun e0) ∉ newL.map mapKey := by
  simp [unmatchedOld]

theorem removed_mem_calls {e0 : α} : .removed e0 ∈ calls keyFun mapKey oldL newL order ↔
    e0 ∈ oldL ∧ some (keyFun e0) ∉ newL.map mapKey := by
  rw [calls, List.mem_append, List.mem_append, List.mem_filterMap, ← mem_unmatchedOld]
  have hnew : ¬ ∃ e ∈ newL, newCall keyFun mapKey oldL e = some (.removed e0) :=
    fun ⟨_, _, h⟩ => (newCall_ne h).1 rfl
  split <;> simp [hnew]

theorem reordered_mem_calls : .reordered ∈ calls keyFun mapKey oldL newL order ↔
    order = true ∧ Reordered keyFun mapKey oldL newL := by
  rw [calls, List.mem_append, List.mem_append, List.mem_filterMap]
  have hnew : ¬ ∃ e ∈ newL, newCall keyFun mapKey oldL e = some .reordered :=
    fun ⟨e, _, h⟩ => (newCall_ne (o := e) h).2 rfl
  split <;> simp [*]

theorem nodup_calls (hold : (oldL.map keyFun).Nodup) (hnew : newL.Nodup) :
    (calls keyFun mapKey oldL newL order).Nodup := by
  have hnews : (newL.filterMap (newCall keyFun mapKey oldL)).Nodup := by
    refine hnew.filterMap fun e e' call he he' => ?_
    rcases newCall_eq_some he with ⟨_, _, _, _, rfl⟩ | ⟨_, _, _, rfl⟩
    · obtain ⟨_, _, _, rfl⟩ := newCall_eq_compare.mp he'
      rfl
    · obtain ⟨_, _, _, rfl⟩ := newCall_eq_added.mp he'
      rfl
  have holds : ((unmatchedOld keyFun mapKey oldL newL).map Call.removed).Nodup :=
    (hold.of_map.filter _).map fun _ _ => Call.removed.inj
  have hne {call : Call α} (h : call ∈ newL.filterMap (newCall keyFun mapKey oldL)) (e0 : α) :
      call ≠ .removed e0 ∧ call ≠ .reordered := by
    obtain ⟨e, _, he⟩ := List.mem_filterMap.mp h
    exact newCall_ne he
  rw [calls]
  refine (hnews.append holds ?_).append ?_ ?_
  · rintro call h h'
    obtain ⟨e0, _, rfl⟩ := List.mem_map.mp h'
    exact (hne h e0).1 rfl
  · split <;> simp
  · rintro call h h'
    split at h'
    · obtain rfl := List.mem_singleton.mp h'
      rcases List.mem_append.mp h with h | h
      · obtain ⟨e, _, he⟩ := List.mem_filterMap.mp h
        exact (newCall_ne (o := e) he).2 rfl
      · obtain ⟨e0, _, he0⟩ := List.mem_map.mp h
        cases he0
    · exact absurd h' List.not_mem_nil

/-- **Every element is classified once.** The key map may skip elements, and need not be injective
on those that it does not skip. -/
theorem classified (hold : (oldL.map keyFun).Nodup) (hnew : (newL.map keyFun).Nodup) :
    Classified keyFun mapKey oldL newL order (notedCalls keyFun mapKey oldL newL order) := by
  rw [notedCalls_eq]
  refine ⟨nodup_calls hold hnew.of_map, fun e0 e => ?_, fun _ => added_mem_calls,
    fun _ => removed_mem_calls, reordered_mem_calls⟩
  rw [compare_mem_calls]
  refine and_congr_right fun _ => ?_
  constructor
  · rintro ⟨k, hk, hf⟩
    obtain ⟨he0, rfl⟩ := (findKey_eq_some hold).mp hf
    exact ⟨he0, hk⟩
  · rintro ⟨he0, hk⟩
    exact ⟨keyFun e0, hk, (findKey_eq_some hold).mpr ⟨he0, rfl⟩⟩

/-- 2 is skipped, and 5 goes by the key of 1. -/
def renamed : Nat → Option Nat
  | 2 => none
  | 5 => some 1
  | k => some k

theorem classified_renamed :
    Classified id renamed [1, 4] [2, 3, 5, 4] true [.added 3, .compare 1 5, .compare 4 4] := by
  have hlog : notedCalls id renamed [1, 4] [2, 3, 5, 4] true =
      [.added 3, .compare 1 5, .compare 4 4] := rfl
  rw [← hlog]
  exact classified (by decide) (by decide)

end

end CStrider.Comparison
