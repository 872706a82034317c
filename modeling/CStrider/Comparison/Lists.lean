import CStrider.Lib.Runs

/-!
# Two lists compared by their keys (`common/kttools.ml`)

`util_compare_lists` pairs the elements of a new list with those of an old one that have the key to
which they are mapped, and calls back for each pair, each new element without a partner and each
old one without. The callbacks run in any monad.
-/

namespace CStrider.Comparison

section

variable {α κ : Type} [DecidableEq κ] {m : Type → Type} [Monad m]

/-- `Hashtbl.find` in `create_hash l`, which finds the binding that was added last. -/
def findKey (keyFun : α → κ) (l : List α) (k : κ) : Option α :=
  l.reverse.find? fun e => keyFun e = k

theorem mem_of_findKey {keyFun : α → κ} {l : List α} {k : κ} {e : α}
    (h : findKey keyFun l k = some e) : e ∈ l :=
  List.mem_reverse.mp (List.mem_of_find?_eq_some h)

/-- The functions that `util_compare_lists` is called with. `mapKeyFun` returns `none` where the
source raises `SkipElem`. -/
structure Callbacks (m : Type → Type) (α κ : Type) where
  keyFun : α → κ
  mapKeyFun : α → m (Option κ)
  compareFun : α → α → m Unit
  addedFun : α → m Unit
  removedFun : α → m Unit

variable (c : Callbacks m α κ)

/-- `iter_new_elem`, with the keys in `match_found` and `added_or_removed`. -/
def iterNewElem (oldL : List α) (st : List κ × Bool) (e : α) : m (List κ × Bool) := do
  match ← c.mapKeyFun e with
  | none => pure (st.1, true)
  | some mapKey =>
    match findKey c.keyFun oldL mapKey with
    | some e0 => do
      c.compareFun e0 e
      pure (mapKey :: st.1, st.2)
    | none => do
      c.addedFun e
      pure (st.1, true)

/-- `iter_old_elem`. -/
def iterOldElem (matchFound : List κ) (addedOrRemoved : Bool) (e : α) : m Bool :=
  if c.keyFun e ∈ matchFound then pure addedOrRemoved
  else do
    c.removedFun e
    pure true

/-- `List.iter2 check_order old_l new_l`, false also for lists of different lengths. It is only
reached where `mapKeyFun` has skipped no element. -/
def checkOrder : List α → List α → m Bool
  | [], [] => pure true
  | o :: os, n :: ns => do
    let mapKey ← c.mapKeyFun n
    let rest ← checkOrder os ns
    pure (some (c.keyFun o) = mapKey && rest)
  | _, _ => pure false

/-- `util_compare_lists`; `reorderedFun` is `none` where the order is not checked. -/
def utilCompareLists (oldL newL : List α) (reorderedFun : Option (m Unit)) : m Unit := do
  let (matchFound, addedOrRemoved) ← newL.foldlM (iterNewElem c oldL) ([], false)
  let addedOrRemoved ← oldL.foldlM (iterOldElem c matchFound) addedOrRemoved
  match reorderedFun with
  | none => pure ()
  | some reordered =>
    if addedOrRemoved then pure ()
    else do
      let ordered ← checkOrder c oldL newL
      if ordered then pure () else reordered

end

/-! ## What the callbacks keep -/

section

variable {α κ τ σ ε : Type} [DecidableEq κ] {c : Callbacks (StateT τ (StateT σ (Except ε))) α κ}
  {oldL newL : List α} {x x' : τ} {s s' : σ}

/-- No element is renamed, and each callback keeps `I`, which is about the new elements that are
done. -/
structure Callbacks.Keep (c : Callbacks (StateT τ (StateT σ (Except ε))) α κ) (oldL newL : List α)
    (I : List α → τ → σ → Prop) : Prop where
  unrenamed : ∀ e, c.mapKeyFun e = pure (some (c.keyFun e))
  compare : ∀ {done e0 e x s u x' s'}, findKey c.keyFun oldL (c.keyFun e) = some e0 →
    I done x s → Runs ((c.compareFun e0 e).run x) s (u, x') s' → I (done ++ [e]) x' s'
  added : ∀ {done e x s u x' s'}, findKey c.keyFun oldL (c.keyFun e) = none →
    I done x s → Runs ((c.addedFun e).run x) s (u, x') s' → I (done ++ [e]) x' s'
  removed : ∀ {e x s u x' s'}, I newL x s → Runs ((c.removedFun e).run x) s (u, x') s' →
    I newL x' s'

variable {I : List α → τ → σ → Prop}

theorem Callbacks.Keep.iterNewElem (h : c.Keep oldL newL I) {done : List α} {e : α}
    {st st' : List κ × Bool} (hI : I done x s)
    (hr : Runs ((iterNewElem c oldL st e).run x) s (st', x') s') : I (done ++ [e]) x' s' := by
  rw [Comparison.iterNewElem, h.unrenamed, pure_bind] at hr
  simp only at hr
  split at hr
  · next e0 hkey =>
    obtain ⟨_, x₁, s₁, hcmp, hr⟩ := runs_run_bind.mp hr
    obtain ⟨_, rfl, rfl⟩ := runs_run_pure.mp hr
    exact h.compare hkey hI hcmp
  · next hkey =>
    obtain ⟨_, x₁, s₁, hadd, hr⟩ := runs_run_bind.mp hr
    obtain ⟨_, rfl, rfl⟩ := runs_run_pure.mp hr
    exact h.added hkey hI hadd

theorem Callbacks.Keep.iterOldElem (h : c.Keep oldL newL I) {matchFound : List κ}
    {b b' : Bool} {e : α} (hI : I newL x s)
    (hr : Runs ((iterOldElem c matchFound b e).run x) s (b', x') s') : I newL x' s' := by
  unfold Comparison.iterOldElem at hr
  split at hr
  · obtain ⟨_, rfl, rfl⟩ := runs_run_pure.mp hr
    exact hI
  · obtain ⟨_, x₁, s₁, hrem, hr⟩ := runs_run_bind.mp hr
    obtain ⟨_, rfl, rfl⟩ := runs_run_pure.mp hr
    exact h.removed hI hrem

/-- The check of the order calls nothing back. -/
theorem checkOrder_runs (hmap : ∀ e, c.mapKeyFun e = pure (some (c.keyFun e))) {ordered : Bool}
    (h : Runs ((checkOrder c oldL newL).run x) s (ordered, x') s') : x = x' ∧ s = s' := by
  induction oldL generalizing newL ordered x' s' with
  | nil =>
    cases newL with
    | nil =>
      obtain ⟨_, hx, hs⟩ := runs_run_pure.mp h
      exact ⟨hx, hs⟩
    | cons n ns =>
      obtain ⟨_, hx, hs⟩ := runs_run_pure.mp h
      exact ⟨hx, hs⟩
  | cons o os ih =>
    cases newL with
    | nil =>
      obtain ⟨_, hx, hs⟩ := runs_run_pure.mp h
      exact ⟨hx, hs⟩
    | cons n ns =>
      rw [checkOrder, hmap, pure_bind, runs_run_bind] at h
      obtain ⟨rest, x₁, s₁, hrest, h⟩ := h
      obtain ⟨_, hx, hs⟩ := runs_run_pure.mp h
      obtain ⟨rfl, rfl⟩ := ih hrest
      exact ⟨hx, hs⟩

/-- What each callback keeps holds at the end. -/
theorem Callbacks.Keep.utilCompareLists (h : c.Keep oldL newL I)
    {reorderedFun : Option (StateT τ (StateT σ (Except ε)) Unit)}
    (reordered : ∀ {r x s u x' s'}, reorderedFun = some r → I newL x s →
      Runs (r.run x) s (u, x') s' → I newL x' s')
    {u : Unit} (hI : I [] x s)
    (hr : Runs ((utilCompareLists c oldL newL reorderedFun).run x) s (u, x') s') :
    I newL x' s' := by
  rw [Comparison.utilCompareLists, runs_run_bind] at hr
  obtain ⟨found, x₁, s₁, hnew, hr⟩ := hr
  rw [runs_run_bind] at hr
  obtain ⟨addedOrRemoved, x₂, s₂, hold, hr⟩ := hr
  have new : I newL x₁ s₁ := Runs.foldlM (I := fun done _ x s => I done x s)
    (fun _ _ _ _ _ _ _ _ hI hr => h.iterNewElem hI hr) hI hnew
  have old : I newL x₂ s₂ := Runs.foldlM (I := fun _ _ x s => I newL x s)
    (fun _ _ _ _ _ _ _ _ hI hr => h.iterOldElem hI hr) new hold
  have done {u : Unit} :
      Runs ((pure u : StateT τ (StateT σ (Except ε)) Unit).run x₂) s₂ (u, x') s' →
        I newL x' s' := by
    intro hr
    obtain ⟨_, rfl, rfl⟩ := runs_run_pure.mp hr
    exact old
  cases reorderedFun with
  | none => exact done hr
  | some r =>
    cases addedOrRemoved with
    | true => exact done hr
    | false =>
      simp only [Bool.false_eq_true, if_false, runs_run_bind] at hr
      obtain ⟨ordered, x₃, s₃, hord, hr⟩ := hr
      obtain ⟨rfl, rfl⟩ := checkOrder_runs h.unrenamed hord
      cases ordered with
      | true => exact done hr
      | false => exact reordered rfl old hr

end

end CStrider.Comparison
