import CStrider.Hash.Sound
import Mathlib.Data.Nat.Bitwise

/-!
# Expansion (`HASH_EXPAND_BUCKETS`)

The elements are moved one at a time, bucket by bucket and from the front of each chain, to the
front of their new buckets. `Moving` is what holds when the elements of a list have been moved: the
order of insertion is untouched, the rest of the old chains is where it was, and the new chains have
the moved elements, last first. When all are moved every chain has turned around, and the tallies
of the expansion are exact: `ideal_chain_maxlen` is the number of items over the number of buckets,
rounded up, and `nonideal_items` counts the items whose place in a chain is beyond it.
-/

namespace CStrider.Uthash

variable {α κ : Type}

/-- `expand_mult` of a bucket with `count` items. -/
def overload (ideal count : Nat) : Nat := if count > ideal then count / ideal else 0

section Moving

variable (hash : κ → Nat) (V : View α κ) (n ideal : Nat) (hh₀ : Heap α κ)

/-- The new chain of bucket `b` when the elements of `D` have been moved. -/
def moved (D : List α) (b : Nat) : List α :=
  (D.filter fun a => hashToBkt (hash (V.key a)) n = b).reverse

/-- The elements of `D` have been moved. -/
structure Moving (D : List α) (s : Expansion α κ) : Prop where
  app : appLinks s.hh = appLinks hh₀
  data : dataOf s.hh = dataOf hh₀
  rest : ∀ a ∉ D, bktLinks s.hh a = bktLinks hh₀ a
  bucket : ∀ b, (s.newBuckets b).Holds (bktLinks s.hh) (moved hash V n D b)
  mult : ∀ b, (s.newBuckets b).expandMult = overload ideal (moved hash V n D b).length
  nonideal : s.nonidealItems = ∑ b ∈ Finset.range n, ((moved hash V n D b).length - ideal)

variable {hash V n ideal hh₀} {D l : List α} {s : Expansion α κ} {a : α} {p : Option α}

theorem mem_of_mem_moved {b : Nat} (h : a ∈ moved hash V n D b) :
    a ∈ D ∧ hashToBkt (hash (V.key a)) n = b := by
  simpa [moved] using h

theorem moved_concat (hash : κ → Nat) (V : View α κ) (n : Nat) (D : List α) (a : α) :
    moved hash V n (D ++ [a]) = Function.update (moved hash V n D)
      (hashToBkt (hash (V.key a)) n) (a :: moved hash V n D (hashToBkt (hash (V.key a)) n)) := by
  funext b
  by_cases hb : b = hashToBkt (hash (V.key a)) n
  · subst hb
    simp [moved]
  · rw [Function.update_of_ne hb]
    simp [moved, Ne.symm hb]

theorem length_moved_le {b : Nat} : (moved hash V n D b).length ≤ D.length := by
  rw [moved, List.length_reverse]
  exact List.length_filter_le _ _

/-- The excess over `ideal` grows where a chain that is long enough grows. -/
theorem sum_excess_concat {b : Nat} (hb : b < n)
    (hmoved : moved hash V n (D ++ [a]) =
      Function.update (moved hash V n D) b (a :: moved hash V n D b)) :
    ∑ c ∈ Finset.range n, ((moved hash V n (D ++ [a]) c).length - ideal) =
      ∑ c ∈ Finset.range n, ((moved hash V n D c).length - ideal) +
        if (moved hash V n D b).length + 1 > ideal then 1 else 0 := by
  have hsum := sum_update (fun _ (l : List α) => l.length - ideal) (moved hash V n D)
    (Finset.mem_range.mpr hb) (a :: moved hash V n D b)
  rw [← hmoved, List.length_cons] at hsum
  split <;> omega

variable [DecidableEq α]

/-- The next element is moved. -/
theorem Moving.moveToBkt (h : Moving hash V n ideal hh₀ D s) {hd : Handle α κ}
    (hideal : 0 < ideal) (hn : hashToBkt (hash (V.key a)) n < n) (hD : (D ++ [a]).Nodup)
    (hlen : (D ++ [a]).length < 2 ^ 32)
    (hdata : ∀ d ∈ D ++ [a], dataOf hh₀ d = some (V.key d, hash (V.key d)))
    (hd_a : s.hh a = some hd) :
    ∃ s', moveToBkt ideal n a hd s = some s' ∧ Moving hash V n ideal hh₀ (D ++ [a]) s' := by
  have hnot : a ∉ D := fun ha =>
    (List.nodup_append.mp hD).2.2 a ha a (List.mem_singleton_self a) rfl
  have hs := s.hh.shape
  have hsome (d : α) (hd : d ∈ D ++ [a]) : (dataOf s.hh d).isSome := by
    rw [h.data, hdata d hd]
    rfl
  have hhash : hd.hashv = hash (V.key a) := by
    have hda := hs.data_of hd_a
    rw [h.data, hdata a (by simp), Option.some.injEq, Prod.mk.injEq] at hda
    exact hda.2.symm
  unfold Uthash.moveToBkt
  rw [hhash]
  have hmoved := moved_concat hash V n D a
  generalize hashToBkt (hash (V.key a)) n = b at hn hmoved
  have hb := h.bucket b
  have hold (d : α) (hd : (moved hash V n D b).head? = some d) : d ∈ D :=
    (mem_of_mem_moved (List.mem_of_head? hd)).1
  obtain ⟨hh₁, he₁, hs₁⟩ := hs.setHhPrev (v := none) (hsome a (by simp))
  obtain ⟨hh₂, he₂, hs₂⟩ := hs₁.setHhNext (v := (moved hash V n D b).head?) (hsome a (by simp))
  obtain ⟨hh₃, he₃, hs₃⟩ := hs₂.ontoHhPrev (o := (moved hash V n D b).head?) (v := some a)
    fun d hd => hsome d (List.mem_append_left _ (hold d hd))
  -- what the two branches at the end have in common
  have hnext (mult nonideal : Nat) (hmult : mult = overload ideal ((moved hash V n D b).length + 1))
      (hnonideal : nonideal = s.nonidealItems +
        if (moved hash V n D b).length + 1 > ideal then 1 else 0) :
      Moving hash V n ideal hh₀ (D ++ [a]) ⟨hh₃, Function.update s.newBuckets b
        ⟨some a, (moved hash V n D b).length + 1, mult⟩, nonideal⟩ := by
    have hother (d : α) (hda : d ≠ a) (hdb : (moved hash V n D b).head? ≠ some d) :
        bktLinks hh₃ d = bktLinks s.hh d := by
      rw [hs₃.bkt, Links.setPrev?_of_ne hdb, Links.setNext_of_ne hda, Links.setPrev_of_ne hda]
    constructor
    · exact hs₃.app.trans h.app
    · exact hs₃.data.trans h.data
    · intro d hd
      rw [List.mem_append, List.mem_singleton, not_or] at hd
      rw [hother d hd.2 fun hhead => hd.1 (hold d hhead), h.rest d hd.1]
    · intro c
      dsimp only
      rw [hmoved]
      by_cases hc : c = b
      · subst hc
        rw [Function.update_self, Function.update_self, hs₃.bkt]
        refine hb.push (List.nodup_cons.mpr ⟨?_, ?_⟩) ?_ ?_
        · exact fun ha => hnot (mem_of_mem_moved ha).1
        · exact List.nodup_reverse.mpr ((List.nodup_append.mp hD).1.filter _)
        · rw [Links.setNext_self, Links.setPrev_self, hs.bkt_of hd_a]
          rfl
        · intro d hd
          rw [Links.setNext_of_ne hd, Links.setPrev_of_ne hd]
      · rw [Function.update_of_ne hc, Function.update_of_ne hc]
        refine (h.bucket c).congr fun d hd => hother d ?_ ?_
        · rintro rfl
          exact hnot (mem_of_mem_moved hd).1
        · intro hhead
          have hbd := (mem_of_mem_moved (List.mem_of_head? hhead)).2
          exact hc ((mem_of_mem_moved hd).2.symm.trans hbd)
    · intro c
      dsimp only
      rw [hmoved]
      by_cases hc : c = b
      · subst hc
        rw [Function.update_self, Function.update_self]
        exact hmult
      · rw [Function.update_of_ne hc, Function.update_of_ne hc]
        exact h.mult c
    · rw [sum_excess_concat hn hmoved, ← h.nonideal]
      exact hnonideal
  have hcount : unsigned ((moved hash V n D b).length + 1) = (moved hash V n D b).length + 1 := by
    refine unsigned_of_lt (lt_of_le_of_lt ?_ hlen)
    rw [List.length_append, List.length_singleton]
    exact Nat.succ_le_succ length_moved_le
  dsimp only [Option.bind_eq_bind]
  rw [hb.head, hb.count, hcount, he₁, Option.bind_some, he₂, Option.bind_some, he₃,
    Option.bind_some]
  by_cases hover : (moved hash V n D b).length + 1 > ideal
  · rw [if_pos hover, if_neg hideal.ne']
    exact ⟨_, rfl, hnext _ _ (by rw [overload, if_pos hover]) (by rw [if_pos hover])⟩
  · rw [if_neg hover]
    refine ⟨_, rfl, hnext _ _ ?_ (by rw [if_neg hover, Nat.add_zero])⟩
    rw [h.mult b, overload, overload, if_neg hover, if_neg (by omega)]

/-- The inner loop moves a chain that is still where it was. -/
theorem Moving.moveChain {fuel : Nat} (h : Moving hash V n ideal hh₀ D s) (hideal : 0 < ideal)
    (hn : ∀ a, hashToBkt (hash (V.key a)) n < n) (hD : (D ++ l).Nodup)
    (hlen : (D ++ l).length < 2 ^ 32)
    (hdata : ∀ d ∈ D ++ l, dataOf hh₀ d = some (V.key d, hash (V.key d)))
    (hl : Linked (bktLinks hh₀) p l none) (hfuel : l.length ≤ fuel) :
    ∃ s', moveChain ideal n fuel l.head? s = some s' ∧
      Moving hash V n ideal hh₀ (D ++ l) s' := by
  induction l generalizing D p s fuel with
  | nil =>
    rw [List.append_nil]
    exact ⟨s, by cases fuel <;> rfl, h⟩
  | cons a l ih =>
    cases fuel with
    | zero => cases hfuel
    | succ fuel =>
      rw [linked_cons, Option.or_none] at hl
      have hnot : a ∉ D := fun ha =>
        (List.nodup_append.mp hD).2.2 a ha a List.mem_cons_self rfl
      obtain ⟨hd, hd_a, hlink⟩ := Option.map_eq_some_iff.mp ((h.rest a hnot).trans hl.1)
      have hassoc : D ++ a :: l = D ++ [a] ++ l := by simp
      rw [hassoc] at hD hlen hdata
      have hlen_a : (D ++ [a]).length < 2 ^ 32 :=
        lt_of_le_of_lt (List.prefix_append (D ++ [a]) l).length_le hlen
      obtain ⟨s₁, he, h₁⟩ := h.moveToBkt hideal (hn a) (List.nodup_append.mp hD).1 hlen_a
        (fun d hd => hdata d (List.mem_append_left _ hd)) hd_a
      obtain ⟨s₂, he₂, h₂⟩ := ih h₁ hD hlen hdata hl.2 (Nat.le_of_succ_le_succ hfuel)
      refine ⟨s₂, ?_, hassoc ▸ h₂⟩
      rw [List.head?_cons, Uthash.moveChain, hd_a, Option.bind_eq_bind, Option.bind_some, he,
        Option.bind_eq_bind, Option.bind_some, show hd.hhNext = l.head? from
          congrArg Link.next hlink, he₂]

end Moving

/-! ## All chains -/

section Expand

variable {hash : κ → Nat} {V : View α κ} {t : Table α} {hh : Heap α κ}

/-- The elements of the first `m` buckets, in the order in which they are moved. -/
def View.scan (V : View α κ) (hash : κ → Nat) (n m : Nat) : List α :=
  (List.range m).flatMap (V.chain hash n)

theorem View.scan_succ {n m : Nat} :
    V.scan hash n (m + 1) = V.scan hash n m ++ V.chain hash n m := by
  simp [View.scan, List.range_succ]

theorem View.mem_scan {n m : Nat} {a : α} :
    a ∈ V.scan hash n m ↔ a ∈ V.order ∧ hashToBkt (hash (V.key a)) n < m := by
  simp [View.scan, View.mem_chain, and_comm]

theorem View.nodup_scan {n m : Nat} : (V.scan hash n m).Nodup := by
  induction m with
  | zero => exact List.nodup_nil
  | succ m ih =>
    rw [View.scan_succ, List.nodup_append]
    refine ⟨ih, V.nodup_chain, ?_⟩
    rintro a ha _ hb rfl
    have hlt := (View.mem_scan.mp ha).2
    have heq := (View.mem_chain.mp hb).2
    omega

theorem View.length_scan_le {n m : Nat} : (V.scan hash n m).length ≤ V.order.length :=
  (View.nodup_scan.subperm fun _ ha => (View.mem_scan.mp ha).1).length_le

theorem flatMap_range_ite {c : List α} {i m : Nat} (hi : i < m) :
    (List.range m).flatMap (fun j => if j = i then c else []) = c := by
  induction m with
  | zero => cases hi
  | succ m ih =>
    rw [List.range_succ, List.flatMap_append]
    rcases Nat.lt_succ_iff_lt_or_eq.mp hi with hlt | rfl
    · simp [ih hlt, (Nat.ne_of_lt hlt).symm]
    · have hnil : (List.range i).flatMap (fun j => if j = i then c else []) = [] := by
        rw [List.flatMap_eq_nil_iff]
        intro j hj
        rw [if_neg (List.mem_range.mp hj).ne]
      simp [hnil]

/-- In twice as many buckets an element is in its old one, or as far behind it as there were
buckets. -/
theorem hashToBkt_double (h k : Nat) : hashToBkt h (2 ^ k * 2) % 2 ^ k = hashToBkt h (2 ^ k) := by
  rw [← Nat.pow_succ, hashToBkt_eq, hashToBkt_eq]
  exact Nat.mod_mod_of_dvd h (Nat.pow_dvd_pow 2 k.le_succ)

/-- When every bucket has been gone through, each new chain is an old one turned around. -/
theorem moved_scan {k b : Nat} :
    moved hash V (2 ^ k * 2) (V.scan hash (2 ^ k) (2 ^ k)) b =
      (V.chain hash (2 ^ k * 2) b).reverse := by
  have hfilter (i : Nat) : (V.chain hash (2 ^ k) i).filter
      (fun a => hashToBkt (hash (V.key a)) (2 ^ k * 2) = b) =
        if i = b % 2 ^ k then V.chain hash (2 ^ k * 2) b else [] := by
    rw [View.chain, List.filter_filter]
    split
    · next hi =>
      apply List.filter_congr
      intro a _
      by_cases ha : hashToBkt (hash (V.key a)) (2 ^ k * 2) = b
      · simp [ha, ← hashToBkt_double, hi]
      · simp [ha]
    · next hi =>
      rw [List.filter_eq_nil_iff]
      intro a _ ha
      simp only [Bool.and_eq_true, decide_eq_true_eq] at ha
      rw [← ha.1, hashToBkt_double] at hi
      exact hi ha.2.symm
  rw [moved, View.scan, List.filter_flatMap]
  simp only [hfilter]
  rw [flatMap_range_ite (Nat.mod_lt _ (Nat.two_pow_pos k))]

/-- The number of items over the number of new buckets, rounded up. -/
theorem Table.Sound.ideal (h : t.Sound hash hh V) (hlen : V.order.length < 2 ^ 32) :
    newIdealChainMaxlen t = V.order.length / (t.numBuckets * 2) +
      if V.order.length % (t.numBuckets * 2) = 0 then 0 else 1 := by
  have hmod : V.order.length &&& (2 ^ t.log2NumBuckets * 2 - 1) =
      V.order.length % (2 ^ t.log2NumBuckets * 2) := by
    rw [← Nat.pow_succ, Nat.and_two_pow_sub_one_eq_mod]
  rw [newIdealChainMaxlen, h.items, unsigned_of_lt hlen, h.size, hmod, Nat.shiftRight_eq_div_pow,
    Nat.pow_succ]
  split <;> simp_all

theorem Table.Sound.ideal_pos (h : t.Sound hash hh V) (hV : V.order ≠ [])
    (hlen : V.order.length < 2 ^ 32) : 0 < newIdealChainMaxlen t := by
  rw [h.ideal hlen]
  split
  · next hmod =>
    have hle := Nat.le_of_dvd (List.length_pos_iff.mpr hV) (Nat.dvd_of_mod_eq_zero hmod)
    have hpos : 0 < t.numBuckets * 2 := by
      rw [h.size]
      exact Nat.mul_pos (Nat.two_pow_pos _) Nat.zero_lt_two
    exact Nat.add_pos_left (Nat.div_pos hle hpos) _
  · exact Nat.succ_pos _

variable [DecidableEq α]

/-- The outer loop, up to bucket `m`. -/
theorem Table.Sound.moveChains (h : t.Sound hash hh V) (hV : V.order ≠ [])
    (hlen : V.order.length < 2 ^ 32) {m : Nat} (hm : m ≤ t.numBuckets) :
    ∃ s, (List.range m).foldlM (fun s i => moveChain (newIdealChainMaxlen t) (t.numBuckets * 2)
        t.numItems (t.buckets i).hhHead s) ⟨hh, fun _ => ⟨none, 0, 0⟩, 0⟩ = some s ∧
      Moving hash V (t.numBuckets * 2) (newIdealChainMaxlen t) hh
        (V.scan hash t.numBuckets m) s := by
  induction m with
  | zero =>
    refine ⟨_, rfl, rfl, rfl, fun _ _ => rfl, fun b => ⟨rfl, rfl, trivial⟩, fun b => ?_, ?_⟩
    · simp [moved, View.scan, overload]
    · simp [moved, View.scan]
  | succ m ih =>
    obtain ⟨s, he, hs⟩ := ih (Nat.le_of_succ_le hm)
    have hb := h.bucket m hm
    have hn (a : α) : hashToBkt (hash (V.key a)) (t.numBuckets * 2) < t.numBuckets * 2 := by
      rw [h.size, ← Nat.pow_succ, hashToBkt_eq]
      exact Nat.mod_lt _ (Nat.two_pow_pos _)
    obtain ⟨s', he', hs'⟩ := hs.moveChain (h.ideal_pos hV hlen) hn
      (View.scan_succ ▸ View.nodup_scan)
      (View.scan_succ (m := m) ▸ lt_of_le_of_lt View.length_scan_le hlen)
      (fun d hd => h.data d (View.mem_scan.mp (View.scan_succ (m := m) ▸ hd)).1) hb.linked
      (h.items ▸ View.length_chain_le)
    refine ⟨s', ?_, View.scan_succ ▸ hs'⟩
    rw [List.range_succ, List.foldlM_append, he, Option.bind_eq_bind, Option.bind_some]
    simp only [List.foldlM_cons, List.foldlM_nil, hb.head, he', Option.bind_eq_bind,
      Option.bind_some]
    rfl

/-- The tallies of an expansion of `t` that led to `t'`. -/
structure Tallied (t t' : Table α) : Prop where
  size : t'.numBuckets = t.numBuckets * 2
  pos : 0 < t'.idealChainMaxlen
  ideal : t'.idealChainMaxlen = t'.numItems / t'.numBuckets +
    if t'.numItems % t'.numBuckets = 0 then 0 else 1
  mult : ∀ b < t'.numBuckets,
    (t'.buckets b).expandMult = overload t'.idealChainMaxlen (t'.buckets b).count
  nonideal : t'.nonidealItems =
    ∑ b ∈ Finset.range t'.numBuckets, ((t'.buckets b).count - t'.idealChainMaxlen)

/-- No chain is as long as its bucket allows, unless expansion was given up, or there were more than
nine items for each bucket at the last one. -/
def Table.Bounded (t : Table α) : Prop :=
  t.noexpand = true ∨ 9 < t.idealChainMaxlen ∨ ∀ b < t.numBuckets,
    (t.buckets b).count < ((t.buckets b).expandMult + 1) * HASH_BKT_CAPACITY_THRESH

omit [DecidableEq α] in
theorem Tallied.bounded {t t' : Table α} (h : Tallied t t') : t'.Bounded := by
  by_cases hideal : 9 < t'.idealChainMaxlen
  · exact .inr (.inl hideal)
  · refine .inr (.inr fun b hb => ?_)
    rw [h.mult b hb, overload, HASH_BKT_CAPACITY_THRESH]
    split
    · -- the quotient by the ideal length falls short by less than one
      have hlt := Nat.lt_mul_div_succ (t'.buckets b).count h.pos
      calc (t'.buckets b).count
          < t'.idealChainMaxlen * ((t'.buckets b).count / t'.idealChainMaxlen + 1) := hlt
        _ ≤ 10 * ((t'.buckets b).count / t'.idealChainMaxlen + 1) :=
            Nat.mul_le_mul_right _ (by omega)
        _ = ((t'.buckets b).count / t'.idealChainMaxlen + 1) * 10 := Nat.mul_comm _ _
    · omega

/-- An expansion doubles the buckets and turns the ranks around. -/
theorem Table.Sound.expand {u : Hash α κ} (h : t.Sound hash u.hh V) (ht : u.tbl = some t)
    (hV : V.order ≠ []) (hlen : V.order.length < 2 ^ 32) (hroom : t.numBuckets < 2 ^ 31) :
    ∃ u' t', hashExpandBuckets u = some u' ∧ u'.tbl = some t' ∧ u'.head = u.head ∧
      t'.locks = t.locks ∧ t'.Sound hash u'.hh V.turn ∧ Tallied t t' ∧
      dataOf u'.hh = dataOf u.hh := by
  obtain ⟨s, he, hs⟩ := h.moveChains hV hlen le_rfl
  have hscan (b : Nat) :
      moved hash V (t.numBuckets * 2) (V.scan hash t.numBuckets t.numBuckets) b =
        V.turn.chain hash (t.numBuckets * 2) b := by
    rw [View.chain_turn, h.size]
    exact moved_scan
  unfold hashExpandBuckets
  rw [ht, Option.bind_eq_bind, Option.bind_some]
  dsimp only [Option.bind_eq_bind]
  rw [guard_of (by omega), Option.bind_some, he, Option.bind_some]
  refine ⟨_, _, rfl, rfl, rfl, rfl, ?_, ?_, hs.data⟩
  · constructor
    · rw [hs.app]
      exact h.app
    · exact h.tail
    · exact h.items
    · rw [Nat.pow_succ, ← h.size]
    · intro b _
      rw [← hscan b]
      exact hs.bucket b
    · intro a ha
      rw [hs.data]
      exact h.data a ha
  · constructor
    · rfl
    · exact h.ideal_pos hV hlen
    · dsimp only
      rw [h.ideal hlen, h.items]
    · intro b _
      dsimp only
      rw [hs.mult b, (hs.bucket b).count]
    · dsimp only
      rw [hs.nonideal]
      exact Finset.sum_congr rfl fun b _ => by rw [(hs.bucket b).count]

end Expand

end CStrider.Uthash
