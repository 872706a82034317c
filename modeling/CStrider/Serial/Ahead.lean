import CStrider.Serial.Callbacks

/-!
# What comes later in the file

As long as no `fread` falls short, a reader does the same when the file is longer, and leaves what is
longer.
-/

namespace CStrider.Serial

open Mapping (Ptr)
open Registry (Symbols)
open Traversal
open CStrider.Types (Typ Entry)

/-! ## Traversing -/

/-- The same state with `o` in the hands of the callbacks. -/
def withOwn {σ : Type} (o : σ) (s : State σ) : State σ :=
  { s with world := { s.world with own := o } }

section States

variable {σ : Type} {E : Env} {s : State σ} {o : σ} {a x : Ptr} {t : Typ} {te : Entry}

theorem addtoqueue_withOwn {task : Option Task} :
    addtoqueue (withOwn o s) task = withOwn o (addtoqueue s task) := by
  cases task with
  | none => rfl
  | some task =>
    rw [addtoqueue_some, addtoqueue_some]
    by_cases h : s.queue.count < TaskQueue.QUEUESIZE
    · rw [dif_pos h, dif_pos (show (withOwn o s).queue.count < _ from h)]
      rfl
    · rw [dif_neg h, dif_neg (show ¬ (withOwn o s).queue.count < _ from h)]
      rfl

theorem transformArray_withOwn :
    transformArray E a t x (withOwn o s) = withOwn o (transformArray E a t x s) := by
  unfold transformArray
  split
  · rfl
  · split
    · rfl
    · rfl

theorem followPtr_withOwn {retc : Int} :
    followPtr E te a x retc (withOwn o s) = withOwn o (followPtr E te a x retc s) := by
  show followPtr E te a x retc { s with world := { s.world with own := o } } = _
  unfold followPtr
  dsimp only
  split
  · split
    · rfl
    · rfl
  · rfl

theorem runStmt_withOwn {d : FieldVisit} :
    runStmt d a x (withOwn o s) = withOwn o (runStmt d a x s) := by
  show runStmt d a x { s with world := { s.world with own := o } } = _
  unfold runStmt
  dsimp only
  split
  · rfl
  · rfl

theorem callxformer_withOwn {k : Task} :
    callxformer E k (withOwn o s) = withOwn o (callxformer E k s) := by
  unfold callxformer
  split
  · rfl
  · split
    · exact transformArray_withOwn
    · split
      · rfl
      · rfl
      · rfl

end States

/-! ## Reading -/

namespace Reading

/-- The same reader with `l` behind the file. -/
def ahead (l : List UInt8) (s : Reading) : Reading := s.setFile (s.base.world.own ++ l)

variable {s s' : Reading} {l : List UInt8} {n v : Nat} {a x : Ptr} {te : Entry} {A : Allocator}

@[simp] theorem store_short : (s.store x v).short = s.short := by
  unfold store
  split <;> rfl

/-- An `fread` that gets all that it asks for. -/
theorem fread_ahead (h : (s.fread n).2.short = false) : s.short = false ∧
    (s.ahead l).fread n = ((s.fread n).1, (s.fread n).2.ahead l) := by
  obtain ⟨hs, hn⟩ : s.short = false ∧ ¬ s.base.world.own.length < n := by
    simpa [fread] using h
  have hn' : n ≤ s.base.world.own.length := Nat.le_of_not_lt hn
  have hlong : ¬ (s.base.world.own ++ l).length < n := by
    rw [List.length_append]
    omega
  refine ⟨hs, ?_⟩
  unfold fread ahead setFile
  dsimp only
  rw [List.take_append_of_le_length hn', List.drop_append_of_le_length hn', decide_eq_false hn,
    decide_eq_false hlong]

theorem length_fread (h : (s.fread n).2.short = false) : (s.fread n).1.length = n := by
  obtain ⟨-, hn⟩ : s.short = false ∧ ¬ s.base.world.own.length < n := by
    simpa [fread] using h
  exact List.length_take_of_le (Nat.le_of_not_lt hn)

/-- What the variable held does not matter then. -/
theorem freadWord_ahead {w : Nat} (h : (s.freadWord n v).2.short = false) : s.short = false ∧
    (s.ahead l).freadWord n w = ((s.freadWord n v).1, (s.freadWord n v).2.ahead l) := by
  have hlen := length_fread h
  obtain ⟨hs, hread⟩ := fread_ahead (l := l) h
  refine ⟨hs, ?_⟩
  have hdrop (u : Nat) : (wordBytes n u).drop (s.fread n).1.length = [] := by
    rw [hlen, List.drop_eq_nil_iff, length_wordBytes]
  rw [freadWord, hread]
  dsimp only [freadWord]
  rw [hdrop, hdrop]

theorem malloc_ahead : (s.ahead l).malloc A n =
    ((s.malloc A n).1, (s.malloc A n).2.ahead l) := rfl

theorem addMapping_ahead {S : Setting} {p q : Ptr} :
    (s.ahead l).addMapping S p q = (s.addMapping S p q).ahead l := rfl

theorem store_ahead {v : Ptr} : (s.ahead l).store x v = (s.store x v).ahead l := by
  show (s.setFile _).store x v = _
  unfold store
  by_cases h : (s.base.world.mem x).isSome
  · rw [if_pos h]
    exact if_pos h
  · rw [if_neg h]
    exact if_neg h

theorem freadBlock_ahead (h : (s.freadBlock A n).2.short = false) : s.short = false ∧
    (s.ahead l).freadBlock A n = ((s.freadBlock A n).1, (s.freadBlock A n).2.ahead l) := by
  obtain ⟨hs, hread⟩ := fread_ahead (s := (s.malloc A n).2) (l := l) h
  refine ⟨hs, ?_⟩
  unfold freadBlock
  rw [malloc_ahead]
  dsimp only
  rw [hread]
  rfl

theorem deserialCharStr_ahead (h : (s.deserialCharStr A).2.short = false) : s.short = false ∧
    (s.ahead l).deserialCharStr A =
      ((s.deserialCharStr A).1, (s.deserialCharStr A).2.ahead l) := by
  unfold deserialCharStr at h ⊢
  obtain ⟨hlen, hblock⟩ := freadBlock_ahead (l := l) h
  obtain ⟨hs, hword⟩ := freadWord_ahead (l := l) (w := A.junk (s.ahead l).base) hlen
  refine ⟨hs, ?_⟩
  rw [hword]
  exact hblock

theorem free_ahead {b : Span} {m : Ptr → Option Ptr} :
    (s.ahead l).free b m = (s.free b m).ahead l := rfl

/-- What leaves the file alone does so to a longer one. -/
theorem base_ahead {f : State (List UInt8) → State (List UInt8)}
    (hf : ∀ o, f (withOwn o s.base) = withOwn o (f s.base))
    (hworld : (f s.base).world = s.base.world) :
    { s.ahead l with base := f (s.ahead l).base } =
      ahead l { s with base := f s.base } := by
  unfold ahead
  rw [hworld]
  exact congrArg (fun base => (⟨base, s.blocks, s.calls, s.short⟩ : Reading)) (hf _)

theorem returned_ahead {S : Setting} :
    (s.ahead l).returned S te a x = (s.returned S te a x).ahead l :=
  base_ahead (fun _ => followPtr_withOwn) followPtr_world

end Reading

section Steps

open Reading

variable {S : Setting} {symbols : Symbols} {A : Allocator} {s s' : Reading} {l : List UInt8}
  {a x present : Ptr} {t : Typ} {te : Entry}

theorem deserialPrim_ahead (h : (deserialPrim S t x s).short = false) : s.short = false ∧
    deserialPrim S t x (s.ahead l) = (deserialPrim S t x s).ahead l := by
  unfold deserialPrim at h ⊢
  cases hsize : cstriderGetSize S.prog.toEnv t with
  | none =>
    rw [hsize] at h
    exact ⟨h, rfl⟩
  | some sz =>
    rw [hsize] at h
    dsimp only at h ⊢
    have hshort : (s.freadWord sz ((s.base.world.mem x).getD 0)).2.short = false := by
      split at h
      · exact h
      · rwa [store_short] at h
    obtain ⟨hs, hword⟩ := freadWord_ahead (l := l) (w := (s.base.world.mem x).getD 0) hshort
    have hread := (fread_ahead (l := l) hshort).2
    refine ⟨hs, ?_⟩
    rw [show (s.ahead l).base.world.mem = s.base.world.mem from rfl, hword, hread]
    dsimp only
    split
    · rfl
    · exact store_ahead

theorem deserialNew_ahead (h : (deserialNew S A te a x present s).short = false) :
    s.short = false ∧ deserialNew S A te a x present (s.ahead l) =
      (deserialNew S A te a x present s).ahead l := by
  unfold deserialNew at h ⊢
  split
  · next hchar =>
    rw [if_pos hchar] at h
    have hshort : (s.deserialCharStr A).2.short = false := by
      rw [← store_short (s := (s.deserialCharStr A).2)]
      exact h
    obtain ⟨hs, hstr⟩ := deserialCharStr_ahead (l := l) hshort
    refine ⟨hs, ?_⟩
    rw [hstr]
    dsimp only
    rw [store_ahead, addMapping_ahead, returned_ahead]
  · next hchar =>
    rw [if_neg hchar] at h
    cases hfind : S.prog.types.find te.targetType with
    | none =>
      rw [hfind] at h
      exact ⟨h, rfl⟩
    | some next =>
      rw [hfind] at h
      have hshort : s.short = false := by
        rw [← show ((s.malloc A (toAlloc next)).2.addMapping S present
          (s.malloc A (toAlloc next)).1).short = s.short from rfl, ← store_short]
        exact h
      refine ⟨hshort, ?_⟩
      dsimp only
      rw [malloc_ahead]
      dsimp only
      rw [addMapping_ahead, store_ahead]
      rfl

theorem deserialPtr_ahead (h : (deserialPtr S symbols A te a x s).short = false) :
    s.short = false ∧ deserialPtr S symbols A te a x (s.ahead l) =
      (deserialPtr S symbols A te a x s).ahead l := by
  unfold deserialPtr at h ⊢
  have hread (h' : (s.freadWord 8 (A.junk s.base)).2.short = false) :=
    freadWord_ahead (l := l) (w := A.junk (s.ahead l).base) h'
  generalize s.freadWord 8 (A.junk s.base) = r at h hread ⊢
  obtain ⟨present, r⟩ := r
  dsimp only at h hread ⊢
  split at h
  · next hsym =>
    have hstr (h' : (r.deserialCharStr A).2.short = false) :=
      deserialCharStr_ahead (l := l) h'
    generalize r.deserialCharStr A = symbol at h hstr ⊢
    obtain ⟨b, symbol⟩ := symbol
    dsimp only at h hstr ⊢
    have hshort : symbol.short = false := by
      split at h
      · exact h
      · rw [← store_short (s := symbol)]
        exact h
    obtain ⟨hr, hstr⟩ := hstr hshort
    obtain ⟨hs, hword⟩ := hread hr
    refine ⟨hs, ?_⟩
    rw [hword]
    dsimp only
    rw [if_pos hsym, if_pos hsym, hstr]
    dsimp only
    rw [show (symbol.ahead l).base.world.mem = symbol.base.world.mem from rfl]
    split
    · rfl
    · rw [store_ahead, free_ahead, returned_ahead]
      rfl
  · next hsym =>
    split at h
    · next hnull =>
      have hr : r.short = false := by
        rw [← store_short (s := r)]
        exact h
      obtain ⟨hs, hword⟩ := hread hr
      refine ⟨hs, ?_⟩
      rw [hword]
      dsimp only
      rw [if_neg hsym, if_neg hsym, if_pos hnull, if_pos hnull, store_ahead, returned_ahead]
    · next hnull =>
      split at h
      · next hmap =>
        have hr : r.short = false := by
          rw [← store_short (s := r)]
          exact h
        obtain ⟨hs, hword⟩ := hread hr
        refine ⟨hs, ?_⟩
        rw [hword]
        dsimp only
        rw [if_neg hsym, if_neg hsym, if_neg hnull, if_neg hnull,
          show (r.ahead l).base.mappings = r.base.mappings from rfl, if_pos hmap, if_pos hmap,
          store_ahead, returned_ahead]
      · next hmap =>
        obtain ⟨hr, hnew⟩ := deserialNew_ahead (l := l) h
        obtain ⟨hs, hword⟩ := hread hr
        refine ⟨hs, ?_⟩
        rw [hword]
        dsimp only
        rw [if_neg hsym, if_neg hsym, if_neg hnull, if_neg hnull,
          show (r.ahead l).base.mappings = r.base.mappings from rfl, if_neg hmap, if_neg hmap,
          hnew]

theorem visitIn_ahead (h : (visitIn S symbols A a t x s).short = false) : s.short = false ∧
    visitIn S symbols A a t x (s.ahead l) = (visitIn S symbols A a t x s).ahead l := by
  unfold visitIn at h ⊢
  cases hk : S.prog.kind t with
  | system | missing =>
    rw [hk] at h
    exact ⟨h, rfl⟩
  | prim =>
    rw [hk] at h
    exact deserialPrim_ahead h
  | ptr te =>
    rw [hk] at h
    dsimp only at h ⊢
    unfold visitPtrIn at h ⊢
    rw [show (s.ahead l).base.world.mem = s.base.world.mem from rfl,
      show (s.ahead l).base.mappings = s.base.mappings from rfl]
    split
    · next ha =>
      rw [if_pos ha] at h
      exact ⟨h, rfl⟩
    · next ha =>
      rw [if_neg ha] at h
      split
      · next hp =>
        rw [hp] at h
        exact ⟨h, rfl⟩
      · next p hp =>
        rw [hp] at h
        dsimp only at h
        split
        · next hmap =>
          rw [if_pos hmap] at h
          exact ⟨h, rfl⟩
        · next hmap =>
          rw [if_neg hmap] at h
          exact deserialPtr_ahead h
  | array te =>
    rw [hk] at h
    refine ⟨h, base_ahead (fun o => ?_) schedules_transformSplitArray.world⟩
    rw [Program.transformSplitArray_sequential S.prog.sequential,
      Program.transformSplitArray_sequential S.prog.sequential, transformArray_withOwn]
  | struct te =>
    rw [hk] at h
    exact ⟨h, base_ahead (f := fun base => addtoqueue base (transformMakeEnq a t x false))
      (fun _ => addtoqueue_withOwn) (schedules_addtoqueue _).world⟩

theorem advance_ahead (h : advance S symbols A s = some s') (hs' : s'.short = false) :
    s.short = false ∧ advance S symbols A (s.ahead l) = some (s'.ahead l) := by
  unfold advance at h ⊢
  rw [show (s.ahead l).base.stack = s.base.stack from rfl]
  split at h
  · next fs hst =>
    cases h
    obtain ⟨hs, hvisit⟩ := visitIn_ahead (l := l) hs'
    exact ⟨hs, congrArg some hvisit⟩
  · next fs hst =>
    cases h
    exact ⟨hs', congrArg some (base_ahead (s := s.setStack fs) (fun _ => runStmt_withOwn)
      schedules_runStmt.world)⟩
  · split at h
    · next hq =>
      cases h
      refine ⟨hs', (dif_pos hq).trans (congrArg some ?_)⟩
      exact base_ahead (s := { s with base := { s.base with queue := s.base.queue.pop hq } })
        (fun _ => callxformer_withOwn) schedules_callxformer.world
    · cases h

theorem stepIn_ahead (h : stepIn S symbols A s = some s') (hs' : s'.short = false) :
    s.short = false ∧ stepIn S symbols A (s.ahead l) = some (s'.ahead l) := by
  unfold stepIn at h ⊢
  rw [show (s.ahead l).base.status = s.base.status from rfl,
    show (s.ahead l).calls = s.calls from rfl,
    show (s.ahead l).base.stack = s.base.stack from rfl]
  split at h
  · cases h
  · next hrun =>
    rw [if_neg hrun]
    split at h
    · exact advance_ahead h hs'
    · next k ks _ =>
      split at h
      · next hdepth =>
        cases h
        rw [if_pos hdepth]
        exact ⟨hs', congrArg some (returned_ahead (s := { s with calls := ks }))⟩
      · next hdepth =>
        rw [if_neg hdepth]
        exact advance_ahead h hs'

/-- **Up to the first `fread` that falls short a reader does the same with the front of a file as
with the file.** -/
theorem reach_ahead {m : Ptr → Option Ptr} {front : List UInt8} {roots : List Root}
    (hs : (restore S symbols A m front roots).Reach s) (hshort : s.short = false) :
    (restore S symbols A m (front ++ l) roots).Reach (s.ahead l) := by
  induction hs with
  | init h =>
    subst h
    exact .init rfl
  | step _ _ hst ih =>
    obtain ⟨hs, hst⟩ := stepIn_ahead (l := l) hst hshort
    exact .step () (ih hs) hst

end Steps

end CStrider.Serial
