import Mathlib.Algebra.BigOperators.Group.Finset.Basic
import Mathlib.Algebra.Order.BigOperators.Group.Multiset
import Mathlib.Data.Multiset.DershowitzManna

/-!
# Worklists that follow a key once

A traversal takes one node after the other from what is pending, in any order, and puts in what
the node leads to. A node may have a key; of all nodes with one key only the first is followed,
the others are taken without effect.

Three rules. Where nodes without a key lead only to nodes of smaller rank and there are finitely
many keys, the traversal ends (`wellFounded_step`): every key that is marked is one less to come,
and between two marks the pending nodes decrease in the order on multisets. Where nodes with one
key lead to the same nodes, a traversal that has ended has seen everything that can be reached
from its start (`seen_of_reach`). What is counted of the nodes seen is at most what there is below
the start and behind the keys (`potential_le`).
-/

namespace CStrider

/-- What a node can lead to when it is followed, and its key. -/
structure Worklist (ν κ : Type*) where
  next : ν → Multiset ν → Prop
  key : ν → Option κ

namespace Worklist

variable {ν κ : Type*} (W : Worklist ν κ)

structure State (ν κ : Type*) where
  pending : Multiset ν
  marked : Set κ
  seen : Multiset ν

/-- Node `n` is taken when `marked` are: what it puts in, and what is marked then. -/
inductive Take (marked : Set κ) (n : ν) : Multiset ν → Set κ → Prop
  | free {l : Multiset ν} : W.key n = none → W.next n l → Take marked n l marked
  | first {l : Multiset ν} {k : κ} : W.key n = some k → k ∉ marked → W.next n l →
      Take marked n l (insert k marked)
  | again {k : κ} : W.key n = some k → k ∈ marked → Take marked n 0 marked

/-- Some pending node is taken. -/
def Step (s s' : State ν κ) : Prop :=
  ∃ n rest l, s.pending = n ::ₘ rest ∧ W.Take s.marked n l s'.marked ∧ s'.pending = l + rest ∧
    s'.seen = n ::ₘ s.seen

variable {W} {s s' : State ν κ}

/-- What holds of all pending nodes, and is passed on to what a node leads to. -/
theorem Step.pending {Q : ν → Prop} (hnext : ∀ n l, Q n → W.next n l → ∀ y ∈ l, Q y)
    (hs : W.Step s s') (h : ∀ n ∈ s.pending, Q n) : ∀ n ∈ s'.pending, Q n := by
  obtain ⟨n, rest, l, hp, take, hp', _⟩ := hs
  have hn : Q n := h n (hp ▸ Multiset.mem_cons_self n rest)
  intro y hy
  rw [hp', Multiset.mem_add] at hy
  rcases hy with hy | hy
  · generalize s'.marked = marked' at take
    cases take with
    | free _ hl => exact hnext n l hn hl y hy
    | first _ _ hl => exact hnext n l hn hl y hy
    | again _ _ => exact absurd hy (Multiset.notMem_zero y)
  · exact h y (hp ▸ Multiset.mem_cons_of_mem hy)

open Classical in
/-- The keys that are still to come. -/
noncomputable def unmarked (K : Finset κ) (marked : Set κ) : Finset κ := K.filter (· ∉ marked)

theorem mem_unmarked {K : Finset κ} {marked : Set κ} {k : κ} :
    k ∈ unmarked K marked ↔ k ∈ K ∧ k ∉ marked := by
  classical
  exact Finset.mem_filter

theorem unmarked_empty (K : Finset κ) : unmarked K ∅ = K := by
  ext k
  rw [mem_unmarked]
  exact and_iff_left (Set.notMem_empty k)

open Classical in
theorem unmarked_insert (K : Finset κ) (marked : Set κ) (k : κ) :
    unmarked K (insert k marked) = (unmarked K marked).erase k := by
  ext k'
  rw [Finset.mem_erase, mem_unmarked, mem_unmarked, Set.mem_insert_iff]
  tauto

/-! ## Termination -/

section Termination

variable {α : Type*} [Preorder α] {rank : ν → α} {K : Finset κ}

/-- The keys that are still to come, and the ranks of what is pending. -/
noncomputable def measure (rank : ν → α) (K : Finset κ) (s : State ν κ) : Nat × Multiset α :=
  ((unmarked K s.marked).card, s.pending.map rank)

/-- Pending nodes decrease when one gives way to nodes of smaller rank. -/
theorem pending_lt {n : ν} {l rest : Multiset ν} (h : ∀ y ∈ l, rank y < rank n) :
    Multiset.IsDershowitzMannaLT ((l + rest).map rank) ((n ::ₘ rest).map rank) := by
  refine ⟨rest.map rank, l.map rank, {rank n}, Multiset.singleton_ne_zero _, ?_, ?_, ?_⟩
  · rw [Multiset.map_add, add_comm]
  · rw [Multiset.map_cons, ← Multiset.singleton_add, add_comm]
  · intro y hy
    obtain ⟨x, hx, rfl⟩ := Multiset.mem_map.mp hy
    exact ⟨rank n, Multiset.mem_singleton_self _, h x hx⟩

theorem measure_lt {Q : ν → Prop} (hK : ∀ n k, W.key n = some k → k ∈ K)
    (hrank : ∀ n l, Q n → W.key n = none → W.next n l → ∀ y ∈ l, rank y < rank n)
    (h : (∀ n ∈ s.pending, Q n) ∧ W.Step s s') :
    Prod.Lex (· < ·) Multiset.IsDershowitzMannaLT (measure rank K s') (measure rank K s) := by
  obtain ⟨hQ, n, rest, l, hp, take, hp', _⟩ := h
  have hn : Q n := hQ n (hp ▸ Multiset.mem_cons_self n rest)
  unfold measure
  rw [hp, hp']
  generalize hm' : s'.marked = marked' at take
  classical
  cases take with
  | free hkey hnext => exact .right _ (pending_lt (hrank n l hn hkey hnext))
  | first hkey hm _ =>
    rw [unmarked_insert]
    exact .left _ _ (Finset.card_erase_lt_of_mem (mem_unmarked.mpr ⟨hK n _ hkey, hm⟩))
  | again _ _ =>
    exact .right _ (pending_lt fun y hy => absurd hy (Multiset.notMem_zero y))

variable (rank) in
/-- Every traversal ends in which only nodes with `Q` are pending. -/
theorem wellFounded_step [WellFoundedLT α] {Q : ν → Prop} (hK : ∀ n k, W.key n = some k → k ∈ K)
    (hrank : ∀ n l, Q n → W.key n = none → W.next n l → ∀ y ∈ l, rank y < rank n) :
    WellFounded fun s' s => (∀ n ∈ s.pending, Q n) ∧ W.Step s s' := by
  have lex := WellFounded.prod_lex (α := Nat) (β := Multiset α) Nat.lt_wfRel.wf
    Multiset.wellFounded_isDershowitzMannaLT
  exact Subrelation.wf (measure_lt hK hrank) (InvImage.wf (measure rank K) lex)

end Termination

/-! ## Completeness -/

section Completeness

variable {succ : ν → Multiset ν} {start : Multiset ν}

/-- What can be reached from `start` when every node is followed. -/
inductive Reach (succ : ν → Multiset ν) (start : Multiset ν) : ν → Prop
  | start {n : ν} : n ∈ start → Reach succ start n
  | next {n y : ν} : Reach succ start n → y ∈ succ n → Reach succ start y

/-- What is put in can be reached if the node that is taken can. -/
theorem Take.reach {n y : ν} {l : Multiset ν} {marked marked' : Set κ}
    (full : ∀ n l, Reach succ start n → W.next n l → l = succ n) (hn : Reach succ start n)
    (take : W.Take marked n l marked') (hy : y ∈ l) : Reach succ start y := by
  cases take with
  | free _ hnext => exact .next hn (full n l hn hnext ▸ hy)
  | first _ _ hnext => exact .next hn (full n l hn hnext ▸ hy)
  | again _ _ => exact absurd hy (Multiset.notMem_zero y)

/-- Nodes with one key lead to the same nodes. -/
def OneTarget (W : Worklist ν κ) (succ : ν → Multiset ν) (start : Multiset ν) : Prop :=
  ∀ n n' k, Reach succ start n → Reach succ start n' → W.key n = some k → W.key n' = some k →
    succ n = succ n'

/-- What was seen leads to what was seen or is pending. -/
structure Closed (W : Worklist ν κ) (succ : ν → Multiset ν) (start : Multiset ν)
    (s : State ν κ) : Prop where
  begun : ∀ n ∈ start, n ∈ s.seen ∨ n ∈ s.pending
  reach : ∀ n, n ∈ s.seen ∨ n ∈ s.pending → Reach succ start n
  next : ∀ n ∈ s.seen, ∀ y ∈ succ n, y ∈ s.seen ∨ y ∈ s.pending
  marked : ∀ k ∈ s.marked, ∃ n ∈ s.seen, W.key n = some k

theorem closed_start : Closed W succ start ⟨start, ∅, 0⟩ where
  begun _ hn := .inr hn
  reach _ hn := .start (hn.resolve_left (Multiset.notMem_zero _))
  next _ hn := absurd hn (Multiset.notMem_zero _)
  marked _ hk := absurd hk (Set.notMem_empty _)

/-- What a node that is taken leads to is seen or pending, put in now or by an earlier node with
its key. -/
theorem Closed.taken {n : ν} {l rest : Multiset ν} {marked' : Set κ} (h : Closed W succ start s)
    (one : W.OneTarget succ start) (full : ∀ n l, Reach succ start n → W.next n l → l = succ n)
    (hp : s.pending = n ::ₘ rest) (take : W.Take s.marked n l marked') :
    ∀ y ∈ succ n, y ∈ s.seen ∨ y ∈ n ::ₘ rest ∨ y ∈ l := by
  intro y hy
  have hn : Reach succ start n := h.reach n (.inr (hp ▸ Multiset.mem_cons_self n rest))
  cases take with
  | free _ hnext =>
    rw [full n l hn hnext]
    exact .inr (.inr hy)
  | first _ _ hnext =>
    rw [full n l hn hnext]
    exact .inr (.inr hy)
  | again hkey hk =>
    obtain ⟨n', hn', hkey'⟩ := h.marked _ hk
    rw [one n n' _ hn (h.reach n' (.inl hn')) hkey hkey'] at hy
    exact (h.next n' hn' y hy).imp_right fun hy => .inl (hp ▸ hy)

theorem Closed.step (h : Closed W succ start s) (one : W.OneTarget succ start)
    (full : ∀ n l, Reach succ start n → W.next n l → l = succ n) (hs : W.Step s s') :
    Closed W succ start s' := by
  obtain ⟨n, rest, l, hp, take, hp', hseen⟩ := hs
  have next := h.taken one full hp take
  -- what was seen or pending before is seen or pending now
  have keep : ∀ y, y ∈ s.seen ∨ y ∈ n ::ₘ rest ∨ y ∈ l → y ∈ s'.seen ∨ y ∈ s'.pending := by
    intro y hy
    rw [hseen, hp', Multiset.mem_add]
    rcases hy with hy | hy | hy
    · exact .inl (Multiset.mem_cons_of_mem hy)
    · rcases Multiset.mem_cons.mp hy with rfl | hy
      · exact .inl (Multiset.mem_cons_self y _)
      · exact .inr (.inr hy)
    · exact .inr (.inl hy)
  have hn : Reach succ start n := h.reach n (.inr (hp ▸ Multiset.mem_cons_self n rest))
  constructor
  · exact fun y hy => keep y ((h.begun y hy).imp_right fun hy => .inl (hp ▸ hy))
  · intro y hy
    rw [hseen, hp', Multiset.mem_add] at hy
    rcases hy with hy | hy | hy
    · rcases Multiset.mem_cons.mp hy with rfl | hy
      · exact hn
      · exact h.reach y (.inl hy)
    · exact take.reach full hn hy
    · exact h.reach y (.inr (hp ▸ Multiset.mem_cons_of_mem hy))
  · intro m hm y hy
    rw [hseen] at hm
    rcases Multiset.mem_cons.mp hm with rfl | hm
    · exact keep y (next y hy)
    · exact keep y ((h.next m hm y hy).imp_right fun hy => .inl (hp ▸ hy))
  · intro k hk
    have old : k ∈ s.marked → ∃ m ∈ s'.seen, W.key m = some k := by
      intro hk
      obtain ⟨m, hm, hkey⟩ := h.marked k hk
      exact ⟨m, hseen ▸ Multiset.mem_cons_of_mem hm, hkey⟩
    generalize s'.marked = marked' at take hk
    cases take with
    | free _ _ => exact old hk
    | first hkey _ _ =>
      rcases Set.mem_insert_iff.mp hk with rfl | hk
      · exact ⟨n, hseen ▸ Multiset.mem_cons_self n _, hkey⟩
      · exact old hk
    | again _ _ => exact old hk

/-- A traversal that has ended has seen all that can be reached. -/
theorem Closed.seen_of_reach (h : Closed W succ start s) (hp : s.pending = 0) {n : ν}
    (hn : Reach succ start n) : n ∈ s.seen := by
  have seen : ∀ y, y ∈ s.seen ∨ y ∈ s.pending → y ∈ s.seen := by
    intro y hy
    refine hy.resolve_right fun hy => ?_
    rw [hp] at hy
    exact Multiset.notMem_zero y hy
  induction hn with
  | start hn => exact seen _ (h.begun _ hn)
  | next _ hy ih => exact seen _ (h.next _ ih _ hy)

end Completeness

/-! ## Counting -/

section Counting

variable (c ω : ν → Nat) (β : κ → Nat) (K : Finset κ)

/-- What was counted of the nodes seen, and what can still come: below the pending nodes, and
behind the keys that are not marked yet. -/
noncomputable def potential (s : State ν κ) : Nat :=
  (s.seen.map c).sum + (s.pending.map ω).sum + ∑ k ∈ unmarked K s.marked, β k

/-- For nodes with `Q`: their count and the weights of what they lead to come out of their own
weight, and out of that of their key if they have one. -/
structure Weighs (W : Worklist ν κ) (Q : ν → Prop) (c ω : ν → Nat) (β : κ → Nat) : Prop where
  free : ∀ {n l}, Q n → W.key n = none → W.next n l → c n + (l.map ω).sum ≤ ω n
  first : ∀ {n l k}, Q n → W.key n = some k → W.next n l → c n + (l.map ω).sum ≤ ω n + β k
  again : ∀ {n k}, Q n → W.key n = some k → c n ≤ ω n

variable {c ω β K}

theorem Step.potential_le {Q : ν → Prop} (hK : ∀ n k, W.key n = some k → k ∈ K)
    (h : Weighs W Q c ω β) (hQ : ∀ n ∈ s.pending, Q n) (hs : W.Step s s') :
    potential c ω β K s' ≤ potential c ω β K s := by
  classical
  obtain ⟨n, rest, l, hp, take, hp', hseen⟩ := hs
  have hn : Q n := hQ n (hp ▸ Multiset.mem_cons_self n rest)
  rw [potential, potential, hp, hp', hseen]
  rw [Multiset.map_cons, Multiset.map_cons, Multiset.map_add, Multiset.sum_cons, Multiset.sum_cons,
    Multiset.sum_add]
  generalize hm : s'.marked = marked' at take
  cases take with
  | free hkey hnext =>
    have := h.free hn hkey hnext
    omega
  | @first l k hkey hk hnext =>
    have := h.first hn hkey hnext
    have hsum := Finset.sum_erase_add _ β (mem_unmarked.mpr ⟨hK n k hkey, hk⟩)
    rw [unmarked_insert]
    omega
  | @again k hkey _ =>
    have := h.again hn hkey
    simp only [Multiset.map_zero, Multiset.sum_zero]
    omega

end Counting

end Worklist

end CStrider
