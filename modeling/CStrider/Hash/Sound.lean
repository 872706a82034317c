import CStrider.Hash.Model
import CStrider.Lib.System
import Mathlib.Algebra.BigOperators.Group.Finset.Piecewise
import Mathlib.Data.List.Perm.Basic

/-!
# Well-formed hashes

`View` is what a hash stands for: its elements in the order in which they were added, the same
elements in the order in which a search ranks them, and their keys. In a well-formed hash
(`Hash.Sound`) the first order is linked through `prev` and `next`, and each bucket has the
elements of its number, by rank. The integrity check of the program passes on such a hash, and a
search finds the first element in rank that has the key.
-/

namespace CStrider.Uthash

variable {α κ : Type}

theorem guard_of {p : Prop} {_ : Decidable p} (h : p) : (guard p : Option Unit) = some () :=
  if_pos h

/-! ## Memory as two families of links -/

/-- The rest of a handle. -/
def dataOf (hh : Heap α κ) : α → Option (κ × Nat) := fun a => (hh a).map fun h => (h.key, h.hashv)

/-- What memory holds. -/
structure Heap.Shape (hh : Heap α κ) (A B : Links α) (D : α → Option (κ × Nat)) : Prop where
  app : appLinks hh = A
  bkt : bktLinks hh = B
  data : dataOf hh = D

theorem Heap.shape (hh : Heap α κ) : hh.Shape (appLinks hh) (bktLinks hh) (dataOf hh) :=
  ⟨rfl, rfl, rfl⟩

namespace Heap.Shape

variable {hh : Heap α κ} {A B : Links α} {D : α → Option (κ × Nat)} {a : α} {v o : Option α}
  {h : Handle α κ}

theorem isSome (hs : hh.Shape A B D) : (D a).isSome = (hh a).isSome := by
  rw [← hs.data]
  exact Option.isSome_map

theorem app_of (hs : hh.Shape A B D) (h' : hh a = some h) : A a = some ⟨h.prev, h.next⟩ := by
  rw [← hs.app, appLinks, h']
  rfl

theorem bkt_of (hs : hh.Shape A B D) (h' : hh a = some h) : B a = some ⟨h.hhPrev, h.hhNext⟩ := by
  rw [← hs.bkt, bktLinks, h']
  rfl

theorem data_of (hs : hh.Shape A B D) (h' : hh a = some h) : D a = some (h.key, h.hashv) := by
  rw [← hs.data, dataOf, h']
  rfl

theorem exists_bkt (hs : hh.Shape A B D) (ha : (D a).isSome) : ∃ l, B a = some l := by
  obtain ⟨h, hh_a⟩ := Option.isSome_iff_exists.mp (hs.isSome ▸ ha)
  exact ⟨_, hs.bkt_of hh_a⟩

theorem exists_app (hs : hh.Shape A B D) (ha : (D a).isSome) : ∃ l, A a = some l := by
  obtain ⟨h, hh_a⟩ := Option.isSome_iff_exists.mp (hs.isSome ▸ ha)
  exact ⟨_, hs.app_of hh_a⟩

variable [DecidableEq α]

/-- A handle is written, each part of it by a function of its own. -/
theorem assign (hs : hh.Shape A B D) (f : Handle α κ → Handle α κ) (fA fB : Link α → Link α)
    (fD : κ × Nat → κ × Nat) (ha : (D a).isSome)
    (hf : ∀ h, (⟨(f h).prev, (f h).next⟩ : Link α) = fA ⟨h.prev, h.next⟩ ∧
      (⟨(f h).hhPrev, (f h).hhNext⟩ : Link α) = fB ⟨h.hhPrev, h.hhNext⟩ ∧
      ((f h).key, (f h).hashv) = fD (h.key, h.hashv)) :
    ∃ hh', hh.assign a f = some hh' ∧ hh'.Shape (Function.update A a ((A a).map fA))
      (Function.update B a ((B a).map fB)) (Function.update D a ((D a).map fD)) := by
  obtain ⟨h, hh_a⟩ := Option.isSome_iff_exists.mp (hs.isSome ▸ ha)
  refine ⟨Function.update hh a (some (f h)), by rw [Heap.assign, hh_a, Option.map_some], ?_⟩
  constructor
  · funext b
    by_cases hb : b = a
    · subst hb
      rw [appLinks, Function.update_self, Function.update_self, hs.app_of hh_a]
      exact congrArg some (hf h).1
    · rw [appLinks, Function.update_of_ne hb, Function.update_of_ne hb, ← hs.app]
      rfl
  · funext b
    by_cases hb : b = a
    · subst hb
      rw [bktLinks, Function.update_self, Function.update_self, hs.bkt_of hh_a]
      exact congrArg some (hf h).2.1
    · rw [bktLinks, Function.update_of_ne hb, Function.update_of_ne hb, ← hs.bkt]
      rfl
  · funext b
    by_cases hb : b = a
    · subst hb
      rw [dataOf, Function.update_self, Function.update_self, hs.data_of hh_a]
      exact congrArg some (hf h).2.2
    · rw [dataOf, Function.update_of_ne hb, Function.update_of_ne hb, ← hs.data]
      rfl

theorem setPrev (hs : hh.Shape A B D) (ha : (D a).isSome) :
    ∃ hh', hh.setPrev a v = some hh' ∧ hh'.Shape (A.setPrev a v) B D := by
  simpa [Heap.setPrev, Links.setPrev] using
    hs.assign (fun h => { h with prev := v }) (fun k => { k with prev := v }) id id ha
      fun _ => ⟨rfl, rfl, rfl⟩

theorem setNext (hs : hh.Shape A B D) (ha : (D a).isSome) :
    ∃ hh', hh.setNext a v = some hh' ∧ hh'.Shape (A.setNext a v) B D := by
  simpa [Heap.setNext, Links.setNext] using
    hs.assign (fun h => { h with next := v }) (fun k => { k with next := v }) id id ha
      fun _ => ⟨rfl, rfl, rfl⟩

theorem setHhPrev (hs : hh.Shape A B D) (ha : (D a).isSome) :
    ∃ hh', hh.setHhPrev a v = some hh' ∧ hh'.Shape A (B.setPrev a v) D := by
  simpa [Heap.setHhPrev, Links.setPrev] using
    hs.assign (fun h => { h with hhPrev := v }) id (fun k => { k with prev := v }) id ha
      fun _ => ⟨rfl, rfl, rfl⟩

theorem setHhNext (hs : hh.Shape A B D) (ha : (D a).isSome) :
    ∃ hh', hh.setHhNext a v = some hh' ∧ hh'.Shape A (B.setNext a v) D := by
  simpa [Heap.setHhNext, Links.setNext] using
    hs.assign (fun h => { h with hhNext := v }) id (fun k => { k with next := v }) id ha
      fun _ => ⟨rfl, rfl, rfl⟩

theorem setKey (hs : hh.Shape A B D) (ha : (D a).isSome) {k : κ} :
    ∃ hh', hh.setKey a k = some hh' ∧
      hh'.Shape A B (Function.update D a ((D a).map fun d => (k, d.2))) := by
  simpa [Heap.setKey] using hs.assign (fun h => { h with key := k }) id id
    (fun d => (k, d.2)) ha fun _ => ⟨rfl, rfl, rfl⟩

theorem setHashv (hs : hh.Shape A B D) (ha : (D a).isSome) {n : Nat} :
    ∃ hh', hh.setHashv a n = some hh' ∧
      hh'.Shape A B (Function.update D a ((D a).map fun d => (d.1, n))) := by
  simpa [Heap.setHashv] using hs.assign (fun h => { h with hashv := n }) id id
    (fun d => (d.1, n)) ha fun _ => ⟨rfl, rfl, rfl⟩

/-! Assignments under a test for NULL. -/

theorem ontoPrev (hs : hh.Shape A B D) (ho : ∀ d, o = some d → (D d).isSome) :
    ∃ hh', hh.onto o (fun hh d => hh.setPrev d v) = some hh' ∧ hh'.Shape (A.setPrev? o v) B D := by
  cases o with
  | none => exact ⟨hh, rfl, hs⟩
  | some d => exact hs.setPrev (ho d rfl)

theorem ontoNext (hs : hh.Shape A B D) (ho : ∀ d, o = some d → (D d).isSome) :
    ∃ hh', hh.onto o (fun hh d => hh.setNext d v) = some hh' ∧ hh'.Shape (A.setNext? o v) B D := by
  cases o with
  | none => exact ⟨hh, rfl, hs⟩
  | some d => exact hs.setNext (ho d rfl)

theorem ontoHhPrev (hs : hh.Shape A B D) (ho : ∀ d, o = some d → (D d).isSome) :
    ∃ hh', hh.onto o (fun hh d => hh.setHhPrev d v) = some hh' ∧
      hh'.Shape A (B.setPrev? o v) D := by
  cases o with
  | none => exact ⟨hh, rfl, hs⟩
  | some d => exact hs.setHhPrev (ho d rfl)

theorem ontoHhNext (hs : hh.Shape A B D) (ho : ∀ d, o = some d → (D d).isSome) :
    ∃ hh', hh.onto o (fun hh d => hh.setHhNext d v) = some hh' ∧
      hh'.Shape A (B.setNext? o v) D := by
  cases o with
  | none => exact ⟨hh, rfl, hs⟩
  | some d => exact hs.setHhNext (ho d rfl)

end Heap.Shape

/-! ## Views -/

/-- What a hash stands for. -/
structure View (α κ : Type) where
  order : List α
  ranks : List α
  key : α → κ
  nodup : order.Nodup
  perm : ranks.Perm order

/-- The ranks the other way round. -/
def View.turn (V : View α κ) : View α κ :=
  { V with ranks := V.ranks.reverse, perm := V.ranks.reverse_perm.trans V.perm }

/-- The bucket holds the elements of `l`. -/
structure Bucket.Holds (bkt : Bucket α) (B : Links α) (l : List α) : Prop where
  head : bkt.hhHead = l.head?
  count : bkt.count = l.length
  linked : Linked B none l none

theorem Bucket.Holds.congr {bkt : Bucket α} {B B' : Links α} {l : List α} (h : bkt.Holds B l)
    (hB : ∀ a ∈ l, B' a = B a) : bkt.Holds B' l :=
  ⟨h.head, h.count, h.linked.congr hB⟩

/-- An element that leads to the chain is put in front of it. -/
theorem Bucket.Holds.push [DecidableEq α] {bkt : Bucket α} {B M : Links α} {l : List α} {a : α}
    {mult : Nat} (h : bkt.Holds B l) (hl : (a :: l).Nodup) (ha : M a = some ⟨none, l.head?⟩)
    (hM : ∀ d, d ≠ a → M d = B d) :
    (⟨some a, l.length + 1, mult⟩ : Bucket α).Holds (M.setPrev? l.head? (some a)) (a :: l) :=
  ⟨rfl, rfl, h.linked.push hl ha hM⟩

section Sound

variable (hash : κ → Nat)

/-- The elements of bucket `b` of `n`, by rank. -/
def View.chain (V : View α κ) (n b : Nat) : List α :=
  V.ranks.filter fun a => hashToBkt (hash (V.key a)) n = b

/-- The table and the handles of its elements. -/
structure Table.Sound (t : Table α) (hh : Heap α κ) (V : View α κ) : Prop where
  app : Linked (appLinks hh) none V.order none
  tail : t.tail = V.order.getLast?
  items : t.numItems = V.order.length
  size : t.numBuckets = 2 ^ t.log2NumBuckets
  bucket : ∀ b < t.numBuckets, (t.buckets b).Holds (bktLinks hh) (V.chain hash t.numBuckets b)
  data : ∀ a ∈ V.order, dataOf hh a = some (V.key a, hash (V.key a))

/-- The hash is well formed, and stands for `V`; there is a table exactly while there are
elements. -/
structure Hash.Sound (u : Hash α κ) (V : View α κ) : Prop where
  head : u.head = V.order.head?
  noTable : V.order = [] → u.tbl = none
  table : V.order ≠ [] → ∃ t, u.tbl = some t ∧ t.Sound hash u.hh V

variable {hash} {u : Hash α κ} {t : Table α} {hh : Heap α κ} {V : View α κ} {a : α} {n b : Nat}

/-- Only the handles of the elements matter. -/
theorem Table.Sound.congr (h : t.Sound hash hh V) {hh' : Heap α κ}
    (hV : ∀ a ∈ V.order, hh' a = hh a) : t.Sound hash hh' V where
  app := h.app.congr fun a ha => by rw [appLinks, hV a ha, appLinks]
  tail := h.tail
  items := h.items
  size := h.size
  bucket b hb := (h.bucket b hb).congr fun a ha => by
    rw [bktLinks, hV a (V.perm.mem_iff.mp (List.mem_of_mem_filter ha)), bktLinks]
  data a ha := by
    rw [dataOf, hV a ha]
    exact h.data a ha

theorem Hash.Sound.congr (h : u.Sound hash V) {hh' : Heap α κ}
    (hV : ∀ a ∈ V.order, hh' a = u.hh a) : { u with hh := hh' }.Sound hash V where
  head := h.head
  noTable := h.noTable
  table hne := by
    obtain ⟨t, ht, hs⟩ := h.table hne
    exact ⟨t, ht, hs.congr hV⟩

theorem hashToBkt_eq (h k : Nat) : hashToBkt h (2 ^ k) = h % 2 ^ k :=
  Nat.and_two_pow_sub_one_eq_mod h k

theorem Table.Sound.bkt_lt (h : t.Sound hash hh V) (n : Nat) :
    hashToBkt n t.numBuckets < t.numBuckets := by
  rw [h.size, hashToBkt_eq]
  exact Nat.mod_lt _ (Nat.two_pow_pos _)

theorem View.mem_chain :
    a ∈ V.chain hash n b ↔ a ∈ V.order ∧ hashToBkt (hash (V.key a)) n = b := by
  rw [View.chain, List.mem_filter, V.perm.mem_iff, decide_eq_true_iff]

theorem View.chain_turn : V.turn.chain hash n b = (V.chain hash n b).reverse :=
  List.filter_reverse

theorem View.ranks_eq_nil (hV : V.order = []) : V.ranks = [] := by
  have hperm := V.perm
  rw [hV] at hperm
  exact hperm.eq_nil

theorem View.nodup_chain : (V.chain hash n b).Nodup := (V.perm.nodup_iff.mpr V.nodup).filter _

theorem View.length_chain_le : (V.chain hash n b).length ≤ V.order.length :=
  V.perm.length_eq ▸ List.length_filter_le _ _

/-- The counts of the buckets add up. -/
theorem sum_length_filter {f : α → Nat} (hf : ∀ a, f a < n) (l : List α) :
    ∑ b ∈ Finset.range n, (l.filter fun a => f a = b).length = l.length := by
  induction l with
  | nil => simp
  | cons a l ih =>
    have hcons (b : Nat) : ((a :: l).filter fun a => f a = b).length =
        (if f a = b then 1 else 0) + (l.filter fun a => f a = b).length := by
      rw [List.filter_cons]
      split <;> simp_all [Nat.add_comm]
    simp only [hcons, Finset.sum_add_distrib, ih, Finset.sum_ite_eq, Finset.mem_range, hf a,
      if_true, List.length_cons, Nat.add_comm]

theorem Table.Sound.sum_chains (h : t.Sound hash hh V) :
    ∑ b ∈ Finset.range t.numBuckets, (V.chain hash t.numBuckets b).length = V.order.length :=
  (sum_length_filter (fun _ => h.bkt_lt _) V.ranks).trans V.perm.length_eq

/-! ## The integrity check -/

theorem fsckLinks_of_linked {L : Links α} {l : List α} {p : Option α} {fuel : Nat}
    [DecidableEq α] (h : Linked L p l none) (hfuel : l.length ≤ fuel) :
    fsckLinks L fuel p l.head? = some l.length := by
  induction l generalizing p fuel with
  | nil => cases fuel <;> rfl
  | cons a l ih =>
    cases fuel with
    | zero => cases hfuel
    | succ fuel =>
      rw [linked_cons, Option.or_none] at h
      simp [fsckLinks, h.1, ih h.2 (Nat.le_of_succ_le_succ hfuel), guard]

theorem Table.Sound.fsck_buckets [DecidableEq α] (h : t.Sound hash hh V) {m : Nat}
    (hm : m ≤ t.numBuckets) :
    (List.range m).foldlM (fsckBucket hh t) 0 =
      some (∑ b ∈ Finset.range m, (V.chain hash t.numBuckets b).length) := by
  induction m with
  | zero => rfl
  | succ m ih =>
    have hb := h.bucket m hm
    have hlen : (V.chain hash t.numBuckets m).length ≤ t.numItems :=
      h.items ▸ View.length_chain_le
    rw [List.range_succ, List.foldlM_append, ih (Nat.le_of_succ_le hm), Finset.sum_range_succ]
    simp [fsckBucket, hb.head, hb.count, fsckLinks_of_linked hb.linked hlen, guard]

/-- `HASH_FSCK` finds nothing. -/
theorem Hash.Sound.fsck [DecidableEq α] (h : u.Sound hash V) : hashFsck u = some () := by
  unfold hashFsck
  cases hV : V.order with
  | nil =>
    rw [h.head, hV]
    rfl
  | cons a l =>
    obtain ⟨t, ht, hs⟩ := h.table (by simp [hV])
    have happ : fsckLinks (appLinks u.hh) t.numItems none (some a) = some t.numItems := by
      have := fsckLinks_of_linked hs.app hs.items.ge
      rwa [hV, ← hV, ← hs.items, hV] at this
    rw [h.head, hV]
    simp [ht, hs.fsck_buckets le_rfl, hs.sum_chains, ← hs.items, happ, guard]

/-! ## Searching -/

theorem findInBkt_of_linked [DecidableEq κ] {l : List α} {p : Option α} {fuel : Nat} {k : κ}
    (h : Linked (bktLinks hh) p l none)
    (hdata : ∀ a ∈ l, dataOf hh a = some (V.key a, hash (V.key a))) (hfuel : l.length ≤ fuel) :
    findInBkt hh k fuel l.head? = some (l.find? fun a => V.key a = k) := by
  induction l generalizing p fuel with
  | nil => cases fuel <;> rfl
  | cons a l ih =>
    cases fuel with
    | zero => cases hfuel
    | succ fuel =>
      rw [linked_cons, Option.or_none] at h
      obtain ⟨hd, hh_a, hlink⟩ := Option.map_eq_some_iff.mp h.1
      have hkey : hd.key = V.key a := by
        have := hdata a List.mem_cons_self
        rw [dataOf, hh_a, Option.map_some, Option.some.injEq, Prod.mk.injEq] at this
        exact this.1
      have hnext : hd.hhNext = l.head? := congrArg Link.next hlink
      have hrest := ih h.2 (fun b hb => hdata b (List.mem_cons_of_mem a hb))
        (Nat.le_of_succ_le_succ hfuel)
      rw [List.head?_cons, findInBkt, hh_a, Option.bind_eq_bind, Option.bind_some, hkey, hnext,
        hrest, List.find?_cons]
      by_cases hk : V.key a = k <;> simp [hk]

/-- A search finds the first element in rank that has the key. -/
theorem Hash.Sound.find [DecidableEq κ] (h : u.Sound hash V) (k : κ) :
    hashFind hash u k = some (V.ranks.find? fun a => V.key a = k) := by
  unfold hashFind
  cases hV : V.order with
  | nil =>
    rw [h.head, hV, V.ranks_eq_nil hV]
    rfl
  | cons a l =>
    obtain ⟨t, ht, hs⟩ := h.table (by simp [hV])
    have hb := hs.bucket _ (hs.bkt_lt (hash k))
    have hchain := findInBkt_of_linked (k := k) hb.linked
      (fun b hb => hs.data b (View.mem_chain.mp hb).1) (hs.items ▸ View.length_chain_le)
    have hfind : (V.chain hash t.numBuckets (hashToBkt (hash k) t.numBuckets)).find?
        (fun a => V.key a = k) = V.ranks.find? fun a => V.key a = k := by
      rw [View.chain, List.find?_filter]
      congr 1
      funext b
      by_cases hk : V.key b = k <;> simp [hk]
    rw [h.head, hV, ← hfind, ← hchain, ← hb.head, ht]
    rfl

end Sound

end CStrider.Uthash
