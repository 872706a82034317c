import CStrider.Traversal.Refinement
import Mathlib.Tactic.Ring

/-!
# Arrays that are split (`transform_split_array` of `src/transform.c`)

In parallel mode all but the last of `SPLIT` shares of a long array become tasks; the last one,
with what the division leaves over, is done at once. When the tasks are run, the visits are those of
`transform_array` on the whole array (`split_visits`): the shares cut the indices of the array into
runs, and the array types that are made for the shares have the strides of the whole one.
-/

namespace CStrider.Traversal

open Mapping (Ptr)
open TaskQueue (QUEUESIZE)
open CStrider.Types (Typ Entry)

/-! ## Cutting a range -/

section Range

variable {α : Type*} (f : Nat → α)

/-- `m` runs of `k` indices, and `r` more. -/
theorem map_range_runs (m k r : Nat) :
    ((List.range m).flatMap fun i => (List.range k).map fun j => f (k * i + j)) ++
      (List.range r).map (fun j => f (k * m + j)) = (List.range (k * m + r)).map f := by
  induction m generalizing r with
  | zero => simp
  | succ m ih =>
    have hrun : (List.range (k + r)).map (fun j => f (k * m + j)) =
        (List.range k).map (fun j => f (k * m + j)) ++
          (List.range r).map fun j => f (k * (m + 1) + j) := by
      rw [List.range_add, List.map_append, List.map_map]
      congr 1
      apply List.map_congr_left
      intro j _
      simp only [Function.comp_apply, Nat.mul_succ, Nat.add_assoc]
    calc
      _ = ((List.range m).flatMap fun i => (List.range k).map fun j => f (k * i + j)) ++
            (List.range (k + r)).map (fun j => f (k * m + j)) := by
          rw [List.range_succ, List.flatMap_append, hrun, List.append_assoc, List.flatMap_singleton]
      _ = (List.range (k * (m + 1) + r)).map f := by
          rw [ih, Nat.mul_succ, Nat.add_assoc]

end Range

/-! ## Conversions -/

theorem toSizeT_natCast {n : Nat} (h : n < 2 ^ 64) : toSizeT n = n := by
  unfold toSizeT
  omega

theorem toInt_of_lt {n : Nat} (h : n < 2 ^ 31) : toInt n = n := by
  unfold toInt
  rw [Int.bmod_eq_of_le] <;> omega

theorem shareOffset_natCast {sz i k : Nat} (h : sz * i * k < 2 ^ 64) :
    shareOffset sz i k = sz * i * k := by
  have hcast : ((sz : Int) * i * k) = ((sz * i * k : Nat) : Int) := by push_cast; rfl
  rw [shareOffset, hcast, toSizeT_natCast h]

/-! ## Array types -/

/-- `t` is the type of arrays of `n` elements of type `b`, with the entry that `mktyparr` makes:
the size and the out type are those of the base. -/
structure ArrayType (E : Env) (t : Typ) (n : Int) (b : Typ) (te base : Entry) : Prop where
  find : E.types.find t = some te
  find_base : E.types.find b = some base
  arrlen : te.arrlen = n
  arrbase : te.arrbase = b
  size : te.size = base.size
  outType : te.outType = base.outType

section Arrays

variable {σ : Type} {E : Env} {t b : Typ} {te te' base : Entry} {n : Nat} {si so : Nat}

/-- The visits of `n` elements. -/
def elementVisits (b : Typ) (si so : Nat) (a x : Ptr) (n : Nat) : List Frame :=
  (List.range n).map fun k => .visit (a + k * si) b (x + k * so)

theorem ArrayType.getSize_eq (h : ArrayType E t n b te base) : getSize te = getSize base := by
  rw [getSize, h.size, getSize]

theorem ArrayType.getOutSize_eq (h : ArrayType E t n b te base) :
    getOutSize E.types te = getOutSize E.types base := by
  rw [getOutSize, getOutSize, h.outType, h.getSize_eq]

theorem ArrayType.numArrayElems_eq (h : ArrayType E t n b te base) (hn : n < 2 ^ 31) :
    numArrayElems te = n := by
  rw [numArrayElems, h.arrlen]
  apply toSizeT_natCast
  omega

theorem ArrayType.transformArray (h : ArrayType E t n b te base) (hn : n < 2 ^ 31)
    (hso : getOutSize E.types base = some so) (a x : Ptr) (s : State σ) :
    transformArray E a t x s = s.push (elementVisits b (getSize base) so a x n) := by
  unfold Traversal.transformArray
  rw [h.find]
  dsimp only
  rw [h.getOutSize_eq, hso, h.numArrayElems_eq hn, h.arrbase, h.getSize_eq]
  rfl

/-- The visits of `i` in `m` shares of `k` elements at the offset of the share, and of what is left,
are those of the whole array. -/
theorem elementVisits_shares (b : Typ) (si so m k r : Nat) (a x : Ptr) :
    ((List.range m).flatMap fun i =>
        elementVisits b si so (a + si * i * k) (x + so * i * k) k) ++
      elementVisits b si so (a + si * m * k) (x + so * m * k) r =
    elementVisits b si so a x (k * m + r) := by
  have hat : ∀ i j, Frame.visit (a + si * i * k + j * si) b (x + so * i * k + j * so) =
      .visit (a + (k * i + j) * si) b (x + (k * i + j) * so) := by
    intro i j
    congr 1 <;> ring
  simp only [elementVisits, hat]
  exact map_range_runs (fun i => Frame.visit (a + i * si) b (x + i * so)) m k r

end Arrays

/-! ## Tasks -/

section Tasks

variable {σ : Type} {E : Env} {s s' : State σ}

/-- Tasks that are all queued come after those that were there. -/
theorem foldl_addtoqueue (task : Nat → Task) (is : List Nat)
    (h : (is.foldl (fun s i => addtoqueue s (some (task i))) s).status ≠ .overflow) :
    ∃ q, is.foldl (fun s i => addtoqueue s (some (task i))) s = { s with queue := q } ∧
      q.contents = s.queue.contents ++ is.map task := by
  induction is using List.reverseRecOn with
  | nil => exact ⟨s.queue, rfl, by simp⟩
  | append_singleton is i ih =>
    rw [List.foldl_append, List.foldl_cons, List.foldl_nil] at h ⊢
    by_cases hroom : (is.foldl (fun s i => addtoqueue s (some (task i))) s).queue.count < QUEUESIZE
    · rw [addtoqueue_push hroom] at h ⊢
      obtain ⟨q, hq, hcontents⟩ := ih h
      have hroom' : q.count < QUEUESIZE := by simpa only [hq] using hroom
      refine ⟨q.push (task i) hroom', by simp only [hq], ?_⟩
      rw [Ring.contents_push, hcontents]
      simp
    · rw [addtoqueue_some, dif_neg hroom] at h
      exact absurd rfl h

end Tasks

/-! ## The split -/

/-- The lengths of the array types that the split of an array of `n` elements asks for. -/
def Requested (n k : Nat) : Prop :=
  SPLIT ≤ n ∧ (k = n / SPLIT ∨ k = n - (SPLIT - 1) * (n / SPLIT))

section Split

variable {σ : Type} {E : Env} {s s' : State σ} {a x : Ptr} {t b : Typ} {te base : Entry}
  {n so : Nat}

/-- `s'` is `s` with tasks queued and visits put on the stack, which together with those that the
tasks make when they are run are the visits `calls`, each as often as there. -/
def Leaves (E : Env) (s s' : State σ) (calls : List Frame) : Prop :=
  ∃ (q : Ring QUEUESIZE Task) (direct : List Frame) (parts : List (Task × List Frame)),
    s' = { s with queue := q, stack := direct ++ s.stack } ∧
    q.contents = s.queue.contents ++ parts.map Prod.fst ∧
    (∀ p ∈ parts, ∀ u : State σ, callxformer E p.1 u = u.push p.2) ∧
    (parts.flatMap Prod.snd ++ direct).Perm calls

theorem leaves_push (calls : List Frame) : Leaves E s (s.push calls) calls :=
  ⟨s.queue, calls, [], rfl, by simp, by simp, .refl _⟩

/-- The task of a share, when it is run. -/
theorem callxformer_share {k : Nat} {u : Typ} {te : Entry} (hu : ArrayType E u k b te base)
    (hk : k < 2 ^ 31) (hso : getOutSize E.types base = some so) (w : State σ) :
    callxformer E ⟨a, u, x, true⟩ w = w.push (elementVisits b (getSize base) so a x k) := by
  unfold callxformer
  rw [hu.find]
  exact hu.transformArray hk hso a x w

/-- What `transform_split_array` does with an array that is long enough, in terms of natural
numbers: three shares of `k` elements are queued, and what is left is visited. -/
theorem transformSplitArray_long (hpar : E.parallel = true) (ht : ArrayType E t n b te base)
    (hn : n < 2 ^ 31) (hlong : SPLIT ≤ n) (hso : getOutSize E.types base = some so)
    (hsi : n * getSize base < 2 ^ 64) (hfit : n * so < 2 ^ 64) (ha : a ≠ 0) :
    transformSplitArray E a t x s =
      transformArray E (a + getSize base * (SPLIT - 1) * (n / SPLIT))
        (E.mktyparr (n - (SPLIT - 1) * (n / SPLIT) : Nat) b) (x + so * (SPLIT - 1) * (n / SPLIT))
        ((List.range (SPLIT - 1)).foldl (fun s i => addtoqueue s
          (some ⟨a + getSize base * i * (n / SPLIT), E.mktyparr (n / SPLIT : Nat) b,
            x + so * i * (n / SPLIT), true⟩)) s) := by
  have hout : getOutSize E.types te = some so := ht.getOutSize_eq.trans hso
  have hshare : toInt (n / SPLIT) = ((n / SPLIT : Nat) : Int) :=
    toInt_of_lt (lt_of_le_of_lt (Nat.div_le_self _ _) hn)
  have hrest : toInt n - (SPLIT - 1 : Nat) * ((n / SPLIT : Nat) : Int) =
      ((n - (SPLIT - 1) * (n / SPLIT) : Nat) : Int) := by
    rw [toInt_of_lt hn]
    unfold SPLIT
    omega
  have hoff : ∀ sz, n * sz < 2 ^ 64 → ∀ i < SPLIT,
      shareOffset sz i ((n / SPLIT : Nat) : Int) = sz * i * (n / SPLIT) := by
    intro sz hsz i hi
    apply shareOffset_natCast
    -- the offset of a share is inside the array
    have hle : i * (n / SPLIT) ≤ n :=
      (Nat.mul_le_mul_right _ hi.le).trans (Nat.mul_div_le n SPLIT)
    calc
      sz * i * (n / SPLIT) = i * (n / SPLIT) * sz := by ring
      _ ≤ n * sz := Nat.mul_le_mul_right sz hle
      _ < 2 ^ 64 := hsz
  unfold transformSplitArray
  rw [hpar, ht.find]
  simp only [Bool.not_true, Bool.false_eq_true, if_false, ht.numArrayElems_eq hn,
    if_neg (not_lt.mpr hlong), hout, ht.getSize_eq, ht.arrbase, hshare, hrest]
  rw [hoff _ hsi (SPLIT - 1) (by decide), hoff _ hfit (SPLIT - 1) (by decide)]
  refine congrArg (transformArray E _ _ _) ?_
  apply List.foldl_ext
  intro s i hi
  have hlt : i < SPLIT := (List.mem_range.mp hi).trans (by decide)
  rw [hoff _ hsi i hlt, hoff _ hfit i hlt, transformMakeEnq,
    if_neg (Nat.ne_of_gt (Nat.add_pos_left (Nat.pos_of_ne_zero ha) _))]

theorem transformSplitArray_short (ht : ArrayType E t n b te base) (hn : n < SPLIT) :
    transformSplitArray E a t x s = transformArray E a t x s := by
  unfold transformSplitArray
  rw [ht.find]
  simp only [ht.numArrayElems_eq (hn.trans (by decide)), if_pos hn, ite_self]

/-- **A split loses and repeats nothing.** The visits that `transform_split_array` makes and queues
are those of `transform_array`, unless the assertion of `enqueue` fails. -/
theorem split_visits (ht : ArrayType E t n b te base) (hn : n < 2 ^ 31)
    (hmk : ∀ k, Requested n k → ∃ te, ArrayType E (E.mktyparr k b) k b te base)
    (hso : getOutSize E.types base = some so)
    (hsi : n * getSize base < 2 ^ 64) (hfit : n * so < 2 ^ 64) (ha : a ≠ 0)
    (hroom : (transformSplitArray E a t x s).status ≠ .overflow) :
    transformArray E a t x s = s.push (elementVisits b (getSize base) so a x n) ∧
      Leaves E s (transformSplitArray E a t x s) (elementVisits b (getSize base) so a x n) := by
  have hplain := ht.transformArray hn hso a x s
  refine ⟨hplain, ?_⟩
  by_cases hpar : E.parallel = true
  · by_cases hlong : SPLIT ≤ n
    · rw [transformSplitArray_long hpar ht hn hlong hso hsi hfit ha] at hroom ⊢
      obtain ⟨te₁, h₁⟩ := hmk _ ⟨hlong, .inl rfl⟩
      obtain ⟨te₂, h₂⟩ := hmk _ ⟨hlong, .inr rfl⟩
      have hk₁ : n / SPLIT < 2 ^ 31 := lt_of_le_of_lt (Nat.div_le_self _ _) hn
      rw [h₂.transformArray (lt_of_le_of_lt (Nat.sub_le _ _) hn) hso] at hroom ⊢
      obtain ⟨q, hq, hcontents⟩ := foldl_addtoqueue _ _ hroom
      rw [hq]
      refine ⟨q, _, (List.range (SPLIT - 1)).map fun i =>
        (⟨a + getSize base * i * (n / SPLIT), E.mktyparr (n / SPLIT : Nat) b,
            x + so * i * (n / SPLIT), true⟩,
          elementVisits b (getSize base) so (a + getSize base * i * (n / SPLIT))
            (x + so * i * (n / SPLIT)) (n / SPLIT)), rfl, ?_, ?_, ?_⟩
      · rw [hcontents, List.map_map]
        rfl
      · intro p hp u
        obtain ⟨i, _, rfl⟩ := List.mem_map.mp hp
        exact callxformer_share h₁ hk₁ hso u
      · rw [List.flatMap_map]
        have hall := elementVisits_shares b (getSize base) so (SPLIT - 1)
          (n / SPLIT) (n - (SPLIT - 1) * (n / SPLIT)) a x
        have hlen : n / SPLIT * (SPLIT - 1) + (n - (SPLIT - 1) * (n / SPLIT)) = n := by
          unfold SPLIT
          omega
        rw [hlen] at hall
        exact .of_eq hall
    · rw [transformSplitArray_short ht (not_le.mp hlong), hplain]
      exact leaves_push _
  · rw [Program.transformSplitArray_sequential (Bool.eq_false_iff.mpr hpar), hplain]
    exact leaves_push _

end Split

/-! ## Seven integers -/

namespace Integers

/-- The entries of `int` and of arrays of `int`. -/
def entry (type : Typ) (arrlen : Int) : Entry :=
  { type := type, arrlen := arrlen, arrbase := 0, size := 4, func := .transformPrim
    targetType := -1, pointerTo := 0, numGenArgs := 0, args := 0, maintype := type, outType := -1 }

def env : Env where
  types := [entry 0 0, entry 101 1, entry 104 4, entry 107 7]
  mktyparr n _ := 100 + n
  body _ _ := []
  bucket a := a
  parallel := true

def start : State Unit := initial ⟨fun _ => none, ()⟩ []

theorem arrayType {n : Nat} (h : n = 1 ∨ n = 4 ∨ n = 7) :
    ArrayType env (100 + n) n 0 (entry (100 + n) n) (entry 0 0) := by
  refine ⟨?_, rfl, rfl, rfl, rfl, rfl⟩
  rcases h with rfl | rfl | rfl <;> rfl

end Integers

open Integers in
theorem split_visits_integers :
    transformArray env 8 107 64 start = start.push (elementVisits 0 4 4 8 64 7) ∧
      Leaves env start (transformSplitArray env 8 107 64 start) (elementVisits 0 4 4 8 64 7) := by
  refine split_visits (n := 7) (arrayType (by decide)) (by decide) ?_ rfl (by decide) (by decide)
    (by decide) (by decide +kernel)
  rintro k ⟨-, rfl | rfl⟩
  · exact ⟨_, arrayType (by decide)⟩
  · exact ⟨_, arrayType (by decide)⟩

end CStrider.Traversal
