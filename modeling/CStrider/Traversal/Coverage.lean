import CStrider.Traversal.InPlace
import Mathlib.Algebra.Order.BigOperators.Group.Finset

/-!
# At least once, and at most once

A finished traversal has visited every location that can be reached, where pointers with one value
have one target type (`complete`). It has called `perfaction_struct` for a struct at most once for
each way in which the struct is entered (`struct_once`): pointers to it count as one way all
together, but every root, and every object or pointer target that the struct is a part of, is a way
of its own.
-/

namespace CStrider.Traversal

open Mapping (Ptr)
open CStrider.Types (Typ Entry)

/-! ## At least once -/

/-- **Completeness.** On a finite well-typed heap in which pointers with one value have one target
type and no type is stuck, a session that copies everything finishes, unless the queue overflows,
and when it has finished every location that can be reached from the roots has received the
callback of its kind. -/
theorem complete {σ : Type} (P : Program) (cb : Callbacks σ) (heap : Ptr → Option Ptr)
    (w : World σ) (roots : List Root) (hfin : {a | heap a ≠ none}.Finite) (hcb : Copies cb)
    (hw : WellTyped P.toEnv heap roots) (hi : Intact P.toEnv cb heap w roots)
    (hone : OneTargetType P.toEnv heap roots)
    (hstuck : ∀ {a t}, Reaches P.toEnv heap roots a t → ¬ P.Stuck t) :
    (∃ s, (session P.toEnv cb w roots).Reach s ∧ (s.Finished ∨ s.status = .overflow)) ∧
      ∀ s, (session P.toEnv cb w roots).Reach s → s.Finished →
        ∀ a t, Reaches P.toEnv heap roots a t → Received P.toEnv s.log a t := by
  constructor
  · obtain ⟨s, hlater, hnone⟩ := (Program.halts_of_copies hfin hcb hw hi hstuck).final
    have hs := Sys.Reach.later (S := session P.toEnv cb w roots) (.init rfl) hlater
    exact ⟨s, hs, Program.finished_or_overflow (hi.safe hs) hnone⟩
  · intro s hs hdone a t h
    exact Program.received_of_reaches hcb hw hone hi hs hdone h

/-- The record at 24 is received when only the `struct record *` is a root. -/
theorem complete_record :
    ∃ s, (session Record.program.toEnv copying Record.world [⟨16, 19, 16⟩]).Reach s ∧ s.Finished ∧
      Event.struct 24 18 ∈ s.log := by
  have hroots : ∀ r ∈ [(⟨16, 19, 16⟩ : Root)], (r.a, r.t) ∈ Record.locations ∧ r.x = r.a := by
    simp [Record.locations]
  have hone : OneTargetType Record.program.toEnv Record.heap [⟨16, 19, 16⟩] := by
    intro a b t u te ue p ha hb hk hk' _ _ _
    obtain ⟨r, hr, _, rfl⟩ := Record.root_of_ptr ha hk
    obtain ⟨r', hr', _, rfl⟩ := Record.root_of_ptr hb hk'
    obtain rfl := List.mem_singleton.mp hr
    obtain rfl := List.mem_singleton.mp hr'
    cases hk.symm.trans hk'
    exact ⟨rfl, fun _ => rfl⟩
  obtain ⟨s, hs, hfin⟩ : ∃ s,
      (session Record.program.toEnv copying Record.world [⟨16, 19, 16⟩]).Reach s ∧
        (s.status = .running ∧ s.stack.isEmpty = true ∧ s.queue.count = 0) :=
    Sys.exists_reach rfl (show (Sys.run _ (List.replicate 5 ()) _).any _ = true by decide +kernel)
  have hdone : s.Finished := ⟨hfin.1, List.isEmpty_iff.mp hfin.2.1, hfin.2.2⟩
  have received := (complete Record.program copying Record.heap Record.world _ Record.finite_heap
    Record.copies_copying (Record.wellTyped fun r hr => (hroots r hr).1) (Record.intact hroots) hone
    fun _ => Record.not_stuck).2 s hs hdone 24 18
  exact ⟨s, hs, hdone, received (Record.reaches_record List.mem_cons_self)⟩

/-- Where the `char *` is a root before the `struct record *`, the record is never received. -/
theorem complete_fails :
    ∃ s, (session Record.program.toEnv copying Record.world [⟨8, 20, 8⟩, ⟨16, 19, 16⟩]).Reach s ∧
      s.Finished ∧ WellTyped Record.program.toEnv Record.heap [⟨8, 20, 8⟩, ⟨16, 19, 16⟩] ∧
      Intact Record.program.toEnv copying Record.heap Record.world [⟨8, 20, 8⟩, ⟨16, 19, 16⟩] ∧
      Reaches Record.program.toEnv Record.heap [⟨8, 20, 8⟩, ⟨16, 19, 16⟩] 24 18 ∧
      ¬ Received Record.program.toEnv s.log 24 18 := by
  obtain ⟨s, hs, hrun, hstack, hqueue, hlog⟩ : ∃ s,
      (session Record.program.toEnv copying Record.world [⟨8, 20, 8⟩, ⟨16, 19, 16⟩]).Reach s ∧
        (s.status = .running ∧ s.stack.isEmpty = true ∧ s.queue.count = 0 ∧
          Event.struct 24 18 ∉ s.log) :=
    Sys.exists_reach rfl (show (Sys.run _ (List.replicate 3 ()) _).any _ = true by decide +kernel)
  refine ⟨s, hs, ⟨hrun, List.isEmpty_iff.mp hstack, hqueue⟩, ?_, ?_, ?_, hlog⟩
  · exact Record.wellTyped (by simp [Record.locations])
  · exact Record.intact (by simp [Record.locations])
  · exact Record.reaches_record (List.mem_cons_of_mem _ List.mem_cons_self)

/-! ## At most once -/

/-- The locations of the object at `a`: itself, its elements and fields, and their parts, for types
that are nested to a depth of less than `k`. -/
def partsBelow (E : Env) (heap : Ptr → Option Ptr) : Nat → Ptr → Typ → List (Ptr × Typ)
  | 0, _, _ => []
  | k + 1, a, t => (a, t) ::
    match E.kind t with
    | .array te => (List.range (numArrayElems te)).flatMap fun i =>
        partsBelow E heap k (a + i * getSize te) te.arrbase
    | .struct te =>
      match te.func with
      | .generated n => (E.body n t).flatMap fun c =>
          match c.type heap a with
          | some u => partsBelow E heap k (a + c.inOff) u
          | none => []
      | _ => []
    | _ => []

/-- All locations of the object at `a`. -/
def Program.parts (P : Program) (heap : Ptr → Option Ptr) (a : Ptr) (t : Typ) : List (Ptr × Typ) :=
  partsBelow P.toEnv heap (P.depth t + 1) a t

/-- There are at most `k` ways to enter the struct at `a`: its places in the roots, and its places
in what the pointers with one value lead to. `ways` has a value as often as there are such
places. -/
def EnteredAtMost (P : Program) (heap : Ptr → Option Ptr) (roots : List Root) (a : Ptr) (t : Typ)
    (k : Nat) : Prop :=
  ∃ ways : Multiset Ptr,
    (∀ {b u te p}, Reaches P.toEnv heap roots b u → P.kind u = .ptr te → heap b = some p → p ≠ 0 →
      (P.parts heap p te.targetType).count (a, t) ≤ ways.count p) ∧
    (roots.map fun r => (P.parts heap r.a r.t).count (a, t)).sum + ways.card ≤ k

/-- A session on a finite heap in which also the lengths stay as they are that the types of fields
depend on. -/
structure SteadyHeap {σ : Type} (E : Env) (cb : Callbacks σ) (heap : Ptr → Option Ptr)
    (w : World σ) (roots : List Root) : Prop extends FiniteHeap E cb heap w roots where
  lengths : ∀ {s gen c a x fs u}, (session E cb w roots).Reach s →
    s.stack = .stmt gen c a x :: fs → c.type s.world.mem a = some u → c.type heap a = some u

namespace Program

variable {P : Program} {heap : Ptr → Option Ptr} {roots : List Root} {n y : Node} {a b : Ptr}
  {t u : Typ} {te : Entry} {k l : Nat}

/-! ### Parts -/

theorem partsBelow_eq (hk : P.depth t < k) (hl : P.depth t < l) :
    partsBelow P.toEnv heap k a t = partsBelow P.toEnv heap l a t := by
  induction k generalizing a t l with
  | zero => exact absurd hk (Nat.not_lt_zero _)
  | succ k ih =>
    cases l with
    | zero => exact absurd hl (Nat.not_lt_zero _)
    | succ l =>
      rw [partsBelow, partsBelow]
      refine congrArg _ ?_
      cases hkind : P.kind t with
      | system => rfl
      | prim => rfl
      | missing => rfl
      | ptr te => rfl
      | array te =>
        have := P.depth_elem hkind
        refine List.flatMap_congr fun i _ => ?_
        exact ih (by omega) (by omega)
      | struct te =>
        dsimp only
        cases hf : te.func with
        | transformPrim => rfl
        | transformFptr => rfl
        | generated n =>
          refine List.flatMap_congr fun c hc => ?_
          cases hu : c.type heap a with
          | none => rfl
          | some u =>
            have := P.depth_field hkind hf hc hu
            exact ih (by omega) (by omega)

/-- The parts of an object but itself. -/
def inner (P : Program) (heap : Ptr → Option Ptr) (a : Ptr) (t : Typ) : List (Ptr × Typ) :=
  match P.kind t with
  | .array te => (List.range (numArrayElems te)).flatMap fun i =>
      P.parts heap (a + i * getSize te) te.arrbase
  | .struct te =>
    match te.func with
    | .generated n => (P.body n t).flatMap fun c =>
        match c.type heap a with
        | some u => P.parts heap (a + c.inOff) u
        | none => []
    | _ => []
  | _ => []

theorem parts_eq : P.parts heap a t = (a, t) :: P.inner heap a t := by
  rw [parts, partsBelow, inner]
  refine congrArg _ ?_
  cases hkind : P.kind t with
  | system => rfl
  | prim => rfl
  | missing => rfl
  | ptr te => rfl
  | array te =>
    have := P.depth_elem hkind
    refine List.flatMap_congr fun i _ => ?_
    exact partsBelow_eq (by omega) (by omega)
  | struct te =>
    dsimp only
    cases hf : te.func with
    | transformPrim => rfl
    | transformFptr => rfl
    | generated n =>
      refine List.flatMap_congr fun c hc => ?_
      cases hu : c.type heap a with
      | none => rfl
      | some u =>
        have := P.depth_field hkind hf hc hu
        exact partsBelow_eq (by omega) (by omega)

/-- The parts of what is computed from NULL are computed from NULL. -/
theorem fromNull_parts {v : Ptr × Typ} (h : FromNull P.toEnv a t) (hv : v ∈ P.parts heap a t) :
    FromNull P.toEnv v.1 v.2 := by
  unfold parts at hv
  generalize P.depth t + 1 = k at hv
  induction k generalizing a t with
  | zero => exact absurd hv List.not_mem_nil
  | succ k ih =>
    rw [partsBelow] at hv
    rcases List.mem_cons.mp hv with rfl | hv
    · exact h
    cases hkind : P.kind t with
    | system => simp [hkind] at hv
    | prim => simp [hkind] at hv
    | missing => simp [hkind] at hv
    | ptr te => simp [hkind] at hv
    | array te =>
      simp only [hkind] at hv
      obtain ⟨i, _, hv⟩ := List.mem_flatMap.mp hv
      exact ih (.elem i h hkind) hv
    | struct te =>
      cases hf : te.func with
      | transformPrim => simp [hkind, hf] at hv
      | transformFptr => simp [hkind, hf] at hv
      | generated n =>
        simp only [hkind, hf] at hv
        obtain ⟨c, hc, hv⟩ := List.mem_flatMap.mp hv
        cases hu : c.type heap a with
        | none => simp [hu] at hv
        | some u =>
          rw [hu] at hv
          exact ih (.field h hkind hf hc hu) hv

/-! ### Weights -/

/-- The memories in which a session on a steady heap takes a node. -/
def Steady (E : Env) (heap m : Ptr → Option Ptr) (n : Node) : Prop :=
  Reads E heap m n ∧ ∀ gen c a u, n = .stmt gen c a → c.type m a = some u → c.type heap a = some u

/-- The worklist of a session on a steady heap, whatever the callbacks answer. -/
abbrev steady (P : Program) (heap : Ptr → Option Ptr) : Worklist Node Ptr :=
  P.worklist heap (Steady P.toEnv heap) fun _ _ _ => True

/-- Reachable, or computed from NULL. -/
def Located (P : Program) (heap : Ptr → Option Ptr) (roots : List Root) (n : Node) : Prop :=
  (Reaches P.toEnv heap roots n.loc.1 n.loc.2 ∨ FromNull P.toEnv n.loc.1 n.loc.2) ∧ P.Valid n

/-- How often `v` is still to be visited in place, below a node. -/
def weight (P : Program) (heap : Ptr → Option Ptr) (v : Ptr × Typ) : Node → Nat
  | .visit a t => (P.parts heap a t).count v
  | .task a t => (P.inner heap a t).count v
  | .stmt _ c a =>
    match c.type heap a with
    | some u => (P.parts heap (a + c.inOff) u).count v
    | none => 0

/-- Whether a node is a visit of `v`. -/
def visits (v : Ptr × Typ) (n : Node) : Nat := if n.visited = some v then 1 else 0

theorem visits_add_inner {v : Ptr × Typ} :
    visits v (.visit a t) + (P.inner heap a t).count v = P.weight heap v (.visit a t) := by
  rw [weight, parts_eq, List.count_cons, visits, Node.visited, add_comm]
  simp

theorem visits_le_weight {v : Ptr × Typ} (n : Node) : visits v n ≤ P.weight heap v n := by
  cases n with
  | visit a t =>
    rw [← visits_add_inner]
    exact Nat.le_add_right _ _
  | stmt gen c a => exact Nat.zero_le _
  | task a t => exact Nat.zero_le _

/-- What is not computed from NULL is not reached through NULL. -/
theorem weight_null {v : Ptr × Typ} (hnull : ¬ FromNull P.toEnv v.1 v.2) :
    P.weight heap v (.visit 0 t) = 0 := by
  rw [weight, List.count_eq_zero]
  exact fun hv => hnull (fromNull_parts (.null t) hv)

theorem sum_map_list {α : Type*} (xs : List α) (f : α → Nat) :
    ((xs : Multiset α).map f).sum = (xs.map f).sum := by
  rw [Multiset.map_coe, Multiset.sum_coe]

/-- Where no value is followed, the weights of what a node leads to come out of its own. -/
theorem weight_inline {v : Ptr × Typ} {m : Ptr → Option Ptr} {go : Bool} {te₀ : Entry} {n₀ : Nat}
    (hv₀ : P.kind v.2 = .struct te₀) (hf₀ : te₀.func = .generated n₀) (hv : P.Valid n)
    (hnow : Steady P.toEnv heap m n) (hptr : ∀ te, P.kind n.loc.2 ≠ .ptr te) :
    visits v n + ((P.succ m go n).map (P.weight heap v)).sum ≤ P.weight heap v n := by
  cases n with
  | visit a t =>
    rw [← visits_add_inner]
    refine Nat.add_le_add_left ?_ _
    cases hk : P.kind t with
    | system => simp [Env.succ, hk]
    | prim => simp [Env.succ, hk]
    | missing => simp [Env.succ, hk]
    | ptr te => exact absurd hk (hptr te)
    | array te =>
      simp only [Env.succ, Env.elems, hk, sum_map_list, List.map_map, inner, List.count_flatMap]
      exact le_rfl
    | struct te =>
      simp only [Env.succ, hk]
      split
      · exact Nat.zero_le _
      · rw [Multiset.map_singleton, Multiset.sum_singleton]
        exact le_rfl
  | stmt gen c a =>
    have hvisits : visits v (.stmt gen c a) = 0 := rfl
    rw [hvisits, Nat.zero_add]
    cases hu : c.type m a with
    | none => simp [Env.succ, hu]
    | some u =>
      have hheap := hnow.2 gen c a u rfl hu
      simp [Env.succ, hu, weight, hheap]
  | task a t =>
    have hvisits : visits v (.task a t) = 0 := rfl
    rw [hvisits, Nat.zero_add]
    obtain ⟨te, hk⟩ := hv
    -- a function that visits the task again is not that of `v`
    have again : (∀ k, te.func ≠ .generated k) → P.inner heap a t = [] →
        (({.visit a t} : Multiset Node).map (P.weight heap v)).sum ≤ P.weight heap v (.task a t) := by
      intro hf hinner
      rw [Multiset.map_singleton, Multiset.sum_singleton, weight, parts_eq, hinner,
        List.count_eq_zero.mpr]
      · exact Nat.zero_le _
      · intro hmem
        obtain rfl := List.mem_singleton.mp hmem
        cases hk.symm.trans hv₀
        exact hf n₀ hf₀
    cases hf : te.func with
    | transformPrim =>
      simp only [Env.succ, hk, hf]
      exact again (by simp [hf]) (by simp [inner, hk, hf])
    | transformFptr =>
      simp only [Env.succ, hk, hf]
      exact again (by simp [hf]) (by simp [inner, hk, hf])
    | generated k =>
      simp only [Env.succ, hk, hf, sum_map_list, List.map_map, weight, inner, List.count_flatMap]
      refine List.sum_le_sum fun c _ => ?_
      simp only [Function.comp, weight]
      split
      · exact le_rfl
      · exact Nat.zero_le _

/-- A pointer that is followed: a slot of the heap, and not one that is computed from NULL. -/
theorem value_of_next {m : Ptr → Option Ptr} {go : Bool}
    (hnull : ∀ {a t te}, FromNull P.toEnv a t → P.kind t = .ptr te → a ≠ 0 → heap a = none)
    (hn : P.Located heap roots (.visit a t)) (hnow : Steady P.toEnv heap m (.visit a t))
    (hk : P.kind t = .ptr te) (hy : y ∈ P.succ m go (.visit a t)) :
    ∃ p, y = .visit p te.targetType ∧ Reaches P.toEnv heap roots a t ∧ a ≠ 0 ∧
      heap a = some p ∧ memoizedIsFunptr te = false ∧ P.succ m go (.visit a t) = {y} := by
  simp only [Env.succ, hk] at hy ⊢
  split at hy
  · exact absurd hy (Multiset.notMem_zero y)
  next hgo =>
  obtain ⟨ha, hgo⟩ := not_or.mp hgo
  rw [if_neg (by rw [not_or]; exact ⟨ha, hgo⟩)]
  cases hm : m a with
  | none =>
    rw [hm] at hy
    exact absurd hy (Multiset.notMem_zero y)
  | some p =>
    rw [hm] at hy
    have hheap := hnow.1 a t te p rfl hk hm
    obtain rfl := Multiset.mem_singleton.mp hy
    refine ⟨p, rfl, ?_, ha, hheap, by simpa using fun h => hgo (.inr h), rfl⟩
    rcases hn.1 with hreach | hfrom
    · exact hreach
    · cases (hnull hfrom hk ha).symm.trans hheap

theorem located_next {m : Ptr → Option Ptr} {go : Bool}
    (hnull : ∀ {a t te}, FromNull P.toEnv a t → P.kind t = .ptr te → a ≠ 0 → heap a = none)
    (hn : P.Located heap roots n) (hnow : Steady P.toEnv heap m n) (hy : y ∈ P.succ m go n) :
    P.Located heap roots y := by
  obtain ⟨hloc, hv⟩ := hn
  cases n with
  | visit a t =>
    cases hk : P.kind t with
    | system => simp [Env.succ, hk] at hy
    | prim => simp [Env.succ, hk] at hy
    | missing => simp [Env.succ, hk] at hy
    | ptr te =>
      obtain ⟨p, rfl, hreach, _, hheap, hf, _⟩ := value_of_next hnull ⟨hloc, hv⟩ hnow hk hy
      refine ⟨?_, trivial⟩
      by_cases hp0 : p = 0
      · exact .inr (hp0 ▸ .null _)
      · exact .inl (.deref hreach hk hf hheap hp0)
    | array te =>
      simp only [Env.succ, hk, Env.elems] at hy
      obtain ⟨i, hi, rfl⟩ := List.mem_map.mp (Multiset.mem_coe.mp hy)
      exact ⟨hloc.imp (fun h => .elem h hk (List.mem_range.mp hi)) fun h => .elem i h hk, trivial⟩
    | struct te =>
      simp only [Env.succ, hk] at hy
      split at hy
      · exact absurd hy (Multiset.notMem_zero y)
      · obtain rfl := Multiset.mem_singleton.mp hy
        exact ⟨hloc, te, hk⟩
  | stmt gen c a =>
    obtain ⟨te, k, hk, hf, hc⟩ := hv
    simp only [Env.succ] at hy
    cases ht : c.type m a with
    | none =>
      rw [ht] at hy
      exact absurd hy (Multiset.notMem_zero y)
    | some u =>
      rw [ht] at hy
      obtain rfl := Multiset.mem_singleton.mp hy
      have hheap := hnow.2 gen c a u rfl ht
      exact ⟨hloc.imp (fun h => .field h hk hf hc hheap) fun h => .field h hk hf hc ht, trivial⟩
  | task a t =>
    obtain ⟨te, hk⟩ := hv
    simp only [Env.succ, hk] at hy
    cases hf : te.func with
    | transformPrim =>
      rw [hf] at hy
      obtain rfl := Multiset.mem_singleton.mp hy
      exact ⟨hloc, trivial⟩
    | transformFptr =>
      rw [hf] at hy
      obtain rfl := Multiset.mem_singleton.mp hy
      exact ⟨hloc, trivial⟩
    | generated k =>
      rw [hf] at hy
      obtain ⟨c, hc, rfl⟩ := List.mem_map.mp (Multiset.mem_coe.mp hy)
      exact ⟨hloc, te, k, hk, hf, hc⟩

/-- The visits of a struct that is not computed from NULL come out of its occurrences in the roots
and below pointer values. -/
theorem weighs {v : Ptr × Typ} {te₀ : Entry} {n₀ : Nat} {β : Ptr → Nat}
    (hnull : ∀ {a t te}, FromNull P.toEnv a t → P.kind t = .ptr te → a ≠ 0 → heap a = none)
    (hv₀ : P.kind v.2 = .struct te₀) (hf₀ : te₀.func = .generated n₀)
    (hnot : ¬ FromNull P.toEnv v.1 v.2)
    (hβ : ∀ {a t te p}, Reaches P.toEnv heap roots a t → P.kind t = .ptr te → heap a = some p →
      p ≠ 0 → (P.parts heap p te.targetType).count v ≤ β p) :
    (P.steady heap).Weighs (P.Located heap roots) (visits v) (P.weight heap v) β := by
  -- a visit of a pointer is not one of `v`
  have visits_ptr : ∀ {a t te}, P.kind t = .ptr te → visits v (.visit a t) = 0 := by
    intro a t te hk
    refine if_neg fun h => ?_
    obtain rfl := Option.some.inj h
    cases hk.symm.trans hv₀
  -- what a pointer leads to
  have next_ptr : ∀ {a t te m go b}, P.kind t = .ptr te → P.Located heap roots (.visit a t) →
      Steady P.toEnv heap m (.visit a t) → (∀ p, Reaches P.toEnv heap roots a t → a ≠ 0 →
        heap a = some p → P.weight heap v (.visit p te.targetType) ≤ b) →
      visits v (.visit a t) + ((P.succ m go (.visit a t)).map (P.weight heap v)).sum ≤
        P.weight heap v (.visit a t) + b := by
    intro a t te m go b hk hn hnow hb
    rw [visits_ptr hk, Nat.zero_add]
    rcases (P.succ m go (.visit a t)).empty_or_exists_mem with hzero | ⟨y, hy⟩
    · rw [hzero]
      exact Nat.zero_le _
    · obtain ⟨p, rfl, hreach, ha, hheap, _, hsucc⟩ := value_of_next hnull hn hnow hk hy
      rw [hsucc, Multiset.map_singleton, Multiset.sum_singleton]
      exact (hb p hreach ha hheap).trans (Nat.le_add_left _ _)
  constructor
  · rintro n l hn hkey ⟨hv, m, go, hnow, _, rfl⟩
    by_cases hptr : ∀ te, P.kind n.loc.2 ≠ .ptr te
    · exact weight_inline hv₀ hf₀ hv hnow hptr
    obtain ⟨te, hk⟩ := not_forall_not.mp hptr
    cases n with
    | visit a t =>
      have hk : P.kind t = .ptr te := hk
      refine next_ptr (b := 0) hk hn hnow fun p hreach ha hheap => ?_
      have hp0 : p = 0 := by
        by_contra hp0
        have hkey : P.key heap (.visit a t) = none := hkey
        rw [key_ptr hk ha hheap, if_neg hp0] at hkey
        cases hkey
      rw [hp0]
      exact (weight_null hnot).le
    | stmt gen c a =>
      obtain ⟨te', k, hk', _⟩ := hv
      cases hk.symm.trans hk'
    | task a t =>
      obtain ⟨te', hk'⟩ := hv
      cases hk.symm.trans hk'
  · rintro n l q hn hkey ⟨hv, m, go, hnow, _, rfl⟩
    obtain ⟨a, t, te, rfl, hk, ha, hp, hq⟩ := ptr_of_key hkey
    refine next_ptr hk hn hnow fun p hreach _ hheap => ?_
    obtain rfl : p = q := Option.some.inj (hheap.symm.trans hp)
    exact hβ hreach hk hheap hq
  · intro n q hn hkey
    obtain ⟨a, t, te, rfl, hk, _⟩ := ptr_of_key hkey
    rw [visits_ptr hk]
    exact Nat.zero_le _

/-! ### The bound -/

section Bound

variable {σ : Type} {cb : Callbacks σ} {w : World σ} {s : State σ}

theorem conforms_of_steadyHeap (h : SteadyHeap P.toEnv cb heap w roots) :
    Conforms P.toEnv cb heap (Steady P.toEnv heap) fun _ _ _ => True where
  reads hnow hk hm := hnow.1 _ _ _ _ rfl hk hm
  ptr_in _ _ := h.ptr_in _ _ _ _
  ptr_out _ _ := h.ptr_out
  any _ _ := ⟨true, trivial⟩
  ptr _ _ _ := trivial
  struct _ := trivial

theorem sum_visits (v : Ptr × Typ) (seen : Multiset Node) :
    (seen.map (visits v)).sum = (seen.filterMap Node.visited).count v := by
  induction seen using Multiset.induction_on with
  | empty => rfl
  | cons n seen ih =>
    rw [Multiset.map_cons, Multiset.sum_cons, ih, visits]
    cases hn : n.visited with
    | none => simp [Multiset.filterMap_cons_none _ _ hn]
    | some u =>
      rw [Multiset.filterMap_cons_some _ _ _ hn, Multiset.count_cons, add_comm]
      simp [eq_comm]

/-- How often a struct is visited: at most as often as it occurs in the roots, and below each
pointer value. -/
theorem count_visits_le (h : SteadyHeap P.toEnv cb heap w roots) {v : Ptr × Typ} {te₀ : Entry}
    {n₀ : Nat} {β : Ptr → Nat} (hv₀ : P.kind v.2 = .struct te₀) (hf₀ : te₀.func = .generated n₀)
    (hnot : ¬ FromNull P.toEnv v.1 v.2)
    (hβ : ∀ {a t te p}, Reaches P.toEnv heap roots a t → P.kind t = .ptr te → heap a = some p →
      p ≠ 0 → (P.parts heap p te.targetType).count v ≤ β p)
    (hs : (session P.toEnv cb w roots).Reach s) :
    s.visits.count v ≤ (roots.map fun r => (P.parts heap r.a r.t).count v).sum +
      ∑ k ∈ h.finite.toFinset.image fun a => (heap a).getD 0, β k := by
  set K := h.finite.toFinset.image fun a => (heap a).getD 0
  set B := (roots.map fun r => (P.parts heap r.a r.t).count v).sum + ∑ k ∈ K, β k
  have hweighs := weighs h.null hv₀ hf₀ hnot hβ
  let I (u : Worklist.State Node Ptr) : Prop := (∀ n ∈ u.pending, P.Located heap roots n) ∧
    Worklist.potential (visits v) (P.weight heap v) β K u ≤ B
  have hinit : I ⟨start roots, ∅, 0⟩ := by
    refine ⟨fun n hn => ?_, ?_⟩
    · obtain ⟨r, hr, rfl⟩ := List.mem_map.mp (Multiset.mem_coe.mp hn)
      exact ⟨.inl (.root hr), trivial⟩
    · rw [Worklist.potential, Worklist.unmarked_empty, start, sum_map_list, List.map_map,
        Multiset.map_zero, Multiset.sum_zero, Nat.zero_add]
      exact le_rfl
  have hnow : ∀ {s u n}, Tracks P cb w roots I s u → s.nextNode = some n →
      Steady P.toEnv heap s.world.mem n := by
    intro s u n hu hn
    refine ⟨reads_of_tracks h.toFiniteHeap hu hn, ?_⟩
    rintro gen c a t rfl ht
    obtain ⟨f, fs, hstack, hf⟩ := stack_of_nextNode hn fun _ _ => Node.noConfusion
    cases f with
    | visit b u x => cases hf
    | stmt gen' c' b x =>
      cases hf
      exact h.lengths hu.reach hstack ht
  have hkeep : ∀ {u u'}, I u → (P.steady heap).Step u u' → I u' := by
    rintro u u' ⟨hloc, hpot⟩ hstep
    refine ⟨hstep.pending ?_ hloc, ?_⟩
    · rintro n l hn ⟨_, m, go, hnow, _, rfl⟩ y hy
      exact located_next h.null hn hnow hy
    · exact (hstep.potential_le (fun _ _ => mem_keys h.finite) hweighs hloc).trans hpot
  cases hs with
  | init hi =>
    obtain rfl := hi
    exact Nat.zero_le _
  | @step s₁ _ _ hs₁ hstep =>
    obtain ⟨u, hu⟩ := tracks_of_reach (conforms_of_steadyHeap h) hnow hkeep hinit hs₁
      (step_running hstep)
    obtain ⟨n, hn, hvisits⟩ := step_visits hstep
    -- what is visited now is still pending in the state before
    have hseen : s₁.visits.count v = (u.seen.map (visits v)).sum := by
      rw [sum_visits, hu.follows.seen, Multiset.coe_count]
      congr 1
      exact lawful_beq_subsingleton _ _
    have hpending : visits v n ≤ (u.pending.map (P.weight heap v)).sum :=
      (visits_le_weight n).trans
        (Multiset.le_sum_of_mem (Multiset.mem_map_of_mem _ (mem_pending hu.follows hn)))
    have hcount : s.visits.count v = visits v n + s₁.visits.count v := by
      rw [hvisits, List.count_append, visits]
      cases n.visited with
      | none => rfl
      | some z => simp [List.count_singleton]
    have hpot := hu.inv.2
    rw [Worklist.potential] at hpot
    omega

end Bound

end Program

theorem sum_count_le_card (ways : Multiset Ptr) (K : Finset Ptr) :
    ∑ p ∈ K, ways.count p ≤ ways.card := by
  have hall : ∑ p ∈ K ∪ ways.toFinset, ways.count p = ways.card :=
    Multiset.sum_count_eq_card fun p hp =>
      Finset.mem_union_right K (Multiset.mem_toFinset.mpr hp)
  rw [← hall]
  exact Finset.sum_le_sum_of_subset Finset.subset_union_left

/-- **No double visit by one way.** A struct that is not computed from NULL is given to
`perfaction_struct` at most as often as there are ways to enter it, in every state of a session that
leaves the heap unchanged. -/
theorem struct_once {σ : Type} (P : Program) (cb : Callbacks σ) (heap : Ptr → Option Ptr)
    (w : World σ) (roots : List Root) (a : Ptr) (t : Typ) (te : Entry) (n k : Nat)
    (h : SteadyHeap P.toEnv cb heap w roots) (hk : P.kind t = .struct te)
    (hf : te.func = .generated n) (hnull : ¬ FromNull P.toEnv a t)
    (hways : EnteredAtMost P heap roots a t k) :
    ∀ s, (session P.toEnv cb w roots).Reach s → s.log.count (.struct a t) ≤ k := by
  obtain ⟨ways, hptr, hle⟩ := hways
  intro s hs
  rw [count_struct hs hk]
  have hvisits := Program.count_visits_le (v := (a, t)) h hk hf hnull hptr hs
  exact hvisits.trans ((Nat.add_le_add_left (sum_count_le_card ways _) _).trans hle)

theorem Record.steadyHeap {roots : List Root}
    (hroots : ∀ r ∈ roots, (r.a, r.t) ∈ locations ∧ r.x = r.a) :
    SteadyHeap program.toEnv copying heap world roots := by
  have sound := fun {s} hs => sound_of_reach (s := s) keepsHeap_copying sameLayout
    (Eq.refl world.mem) (fun r hr => (hroots r hr).2) hs
  refine ⟨⟨finite_heap, ?_, ?_, copying_in, copying_out⟩, ?_⟩
  · intro a t te h _ ha
    exact absurd (fromNull_zero h) ha
  · intro s a t x fs te p hs _ _ hp
    rwa [(sound hs).mem] at hp
  · intro s gen c a x fs u hs _ hu
    rwa [(sound hs).mem] at hu

/-- The record at 24 is entered as a root, and through the pointer at 16, which is given as a root
twice: two ways. -/
theorem struct_once_record :
    ∃ s, (session Record.program.toEnv copying Record.world
        [⟨24, 18, 24⟩, ⟨16, 19, 16⟩, ⟨16, 19, 16⟩]).Reach s ∧
      2 ≤ s.log.count (.struct 24 18) ∧ s.log.count (.struct 24 18) ≤ 2 := by
  obtain ⟨s, hs, htwice⟩ : ∃ s, (session Record.program.toEnv copying Record.world
      [⟨24, 18, 24⟩, ⟨16, 19, 16⟩, ⟨16, 19, 16⟩]).Reach s ∧ 2 ≤ s.log.count (.struct 24 18) :=
    Sys.exists_reach rfl (show (Sys.run _ (List.replicate 4 ()) _).any _ = true by decide +kernel)
  refine ⟨s, hs, htwice, struct_once Record.program copying Record.heap Record.world _
    24 18 (Record.entry 18 (.generated 0) (-1)) 0 2 (Record.steadyHeap (by simp [Record.locations]))
    rfl rfl ?_ ⟨{24}, ?_, by decide⟩ s hs⟩
  · intro h
    exact absurd (Record.fromNull_zero h) (by decide)
  · intro b u te p hr hk hp _
    obtain ⟨r, hroot, rfl, rfl⟩ := Record.root_of_ptr hr hk
    simp only [List.mem_cons, List.not_mem_nil, or_false, or_self] at hroot
    rcases hroot with rfl | rfl
    · cases hk
    · cases hk
      cases hp
      decide

/-- As a root and as the target of a pointer, the record is visited twice. -/
theorem struct_twice :
    ∃ s, (session Record.program.toEnv copying Record.world [⟨24, 18, 24⟩, ⟨16, 19, 16⟩]).Reach s ∧
      WellTyped Record.program.toEnv Record.heap [⟨24, 18, 24⟩, ⟨16, 19, 16⟩] ∧
      Intact Record.program.toEnv copying Record.heap Record.world [⟨24, 18, 24⟩, ⟨16, 19, 16⟩] ∧
      s.log.count (.struct 24 18) = 2 := by
  obtain ⟨s, hs, hcount⟩ : ∃ s,
      (session Record.program.toEnv copying Record.world [⟨24, 18, 24⟩, ⟨16, 19, 16⟩]).Reach s ∧
        s.log.count (.struct 24 18) = 2 :=
    Sys.exists_reach rfl (show (Sys.run _ (List.replicate 3 ()) _).any _ = true by decide +kernel)
  refine ⟨s, hs, ?_, ?_, hcount⟩
  · exact Record.wellTyped (by simp [Record.locations])
  · exact Record.intact (by simp [Record.locations])

end CStrider.Traversal
