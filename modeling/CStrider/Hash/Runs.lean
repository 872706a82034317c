import CStrider.Hash.Operations

/-!
# What programs do with a hash

Programs allocate an element before they add it, and free it when they have deleted it. For any
sequence of such calls the hash has the elements that were added and not deleted, in the order in
which they were added (`items`): it never fails, and never touches memory that is not allocated. The
table of `uthash.h` must not grow to `2 ^ 31` buckets, the next number of which is no `unsigned`
(`InRoom`).
-/

namespace CStrider.Uthash

variable {α κ : Type} [DecidableEq α]

/-- A call: `malloc` and `HASH_ADD`, `HASH_DEL` and `free`, or the end of `XHASH_UNLOCK`, which is
where the table of `uthash_xform.h` expands. -/
inductive Call (α κ : Type) where
  | add (a : α) (contents : Handle α κ) (k : κ)
  | delete (a : α)
  | unlock (k : κ)

section Systems

variable (c : Config) (hash : κ → Nat)

/-- The hash from the start of the program on. -/
def hashes : Sys (Hash α κ) (Call α κ) where
  init u := u = empty
  step
    | .add a contents k, u => (malloc u a contents).bind fun u => hashAddKeyptr c hash u k a
    | .delete a, u => (hashDelete u a).bind fun u => free u a
    | .unlock k, u => xhashUnlock hash u k

/-- Where adding expands, the table is roomy when an element is added. -/
def InRoom : Call α κ → Hash α κ → Prop
  | .add _ _ _, u => c.expands = true → u.Roomy
  | _, _ => True

instance decidableInRoom : (call : Call α κ) → (u : Hash α κ) → Decidable (InRoom c call u)
  | .add _ _ _, _ => inferInstanceAs (Decidable (_ → _))
  | .delete _, _ => .isTrue trivial
  | .unlock _, _ => .isTrue trivial

/-- Whether a program may delete the element: the locks of the others go with the first one. -/
def deletable (l : List (α × κ)) (a : α) : Bool :=
  c.deletes && (l.any fun e => e.1 = a) &&
    (!c.headLocks || (l.head?.all fun e => e.1 ≠ a) || l.length = 1)

/-- What the calls ask for: elements with their keys, in the order in which they were added. An
element is added when it is not there, and the number of elements is an `unsigned`; it is deleted
when it is there; and only a hash that is not empty is locked. -/
def items : Sys (List (α × κ)) (Call α κ) where
  init l := l = []
  step
    | .add a _ k, l =>
      if (l.any fun e => e.1 = a) || l.length + 1 ≥ 2 ^ 32 then none else some (l ++ [(a, k)])
    | .delete a, l => if deletable c l a then some (l.filter fun e => e.1 ≠ a) else none
    | .unlock _, l => if c.headLocks && !l.isEmpty then some l else none

end Systems

variable {c : Config} {hash : κ → Nat} {u u' : Hash α κ} {l l' : List (α × κ)} {V : View α κ}
  {call : Call α κ}

/-- The hash has the elements of `l`, and no other element is allocated. -/
def Stands (c : Config) (hash : κ → Nat) (l : List (α × κ)) (u : Hash α κ) : Prop :=
  ∃ V : View α κ, u.Sound hash V ∧ u.Locked c ∧ l = V.order.map (fun a => (a, V.key a)) ∧
    ∀ a, (u.hh a).isSome = true ↔ a ∈ V.order

omit [DecidableEq α] in
theorem map_fst_order (V : View α κ) :
    (V.order.map fun a => (a, V.key a)).map Prod.fst = V.order := by
  rw [List.map_map]
  exact List.map_id _

omit [DecidableEq α] in
theorem stands_empty [Inhabited κ] : Stands c hash [] (empty : Hash α κ) :=
  ⟨⟨[], [], fun _ => default, List.nodup_nil, .nil⟩,
    ⟨rfl, fun _ => rfl, fun hne => absurd rfl hne⟩, fun _ _ ht => (by cases ht), rfl,
    by simp [empty]⟩

/-- The element is allocated and added. -/
theorem Stands.add {a : α} {k : κ} (h : Stands c hash l u) (ha : a ∉ l.map Prod.fst)
    (hlen : l.length + 1 < 2 ^ 32) (hroom : c.expands = true → u.Roomy) (contents : Handle α κ) :
    ∃ u₁ u', malloc u a contents = some u₁ ∧ hashAddKeyptr c hash u₁ k a = some u' ∧
      Stands c hash (l ++ [(a, k)]) u' ∧ (c.expands = true → u.Bounded → u'.Bounded) := by
  obtain ⟨V, hs, hlock, rfl, halloc⟩ := h
  rw [map_fst_order] at ha
  rw [List.length_map] at hlen
  have hnone : u.hh a = none := by
    rw [← Option.not_isSome_iff_eq_none]
    exact fun hsome => ha ((halloc a).mp hsome)
  have hs₁ : Hash.Sound hash { u with hh := Function.update u.hh a (some contents) } V := by
    refine hs.congr fun d hd => Function.update_of_ne ?_ _ _
    rintro rfl
    exact ha hd
  obtain ⟨u', he, hu', hlock', hsome, hbound⟩ :=
    hs₁.add (c := c) hlock ha (by simp) (fun hc => ⟨hlen, hroom hc⟩) k
  refine ⟨_, u', by rw [malloc, hnone], he, ?_, hbound⟩
  have hl : (V.order.map fun d => (d, V.key d)) ++ [(a, k)] =
      (V.add a k ha).order.map fun d => (d, (V.add a k ha).key d) := by
    have hmap : (V.order.map fun d => (d, (V.add a k ha).key d)) =
        V.order.map fun d => (d, V.key d) :=
      List.map_congr_left fun d hd => by rw [View.key_add_of_mem ha hd]
    rw [← hmap, View.add, List.map_append]
    simp
  have halloc' (d : α) : (u'.hh d).isSome = true ↔ d ∈ (V.add a k ha).order := by
    rw [hsome, View.mem_add]
    by_cases hd : d = a
    · simp [hd]
    · simp [hd, halloc]
  rcases hu' with hu' | ⟨-, hu'⟩
  · exact ⟨_, hu', hlock', hl, halloc'⟩
  · exact ⟨_, hu', hlock', hl, halloc'⟩

/-- The element is deleted and freed. -/
theorem Stands.delete {a : α} (h : Stands c hash l u) (ha : a ∈ l.map Prod.fst)
    (hfirst : c.headLocks = true → l.head?.map Prod.fst = some a → l.length = 1) :
    ∃ u₁ u', hashDelete u a = some u₁ ∧ free u₁ a = some u' ∧
      Stands c hash (l.filter fun e => e.1 ≠ a) u' ∧ (u.Bounded → u'.Bounded) := by
  obtain ⟨V, hs, hlock, rfl, halloc⟩ := h
  rw [map_fst_order] at ha
  obtain ⟨u₁, he₁, hs₁, hdata, hbound₁, hlock₁⟩ := hs.delete ha
  have hlock₁ : u₁.Locked c := by
    refine hlock₁ c (fun hc hhead => ?_) hlock
    have hone := hfirst hc (by rw [List.head?_map, hhead]; rfl)
    rw [List.length_map, List.length_eq_one_iff] at hone
    obtain ⟨d, hd⟩ := hone
    rw [hd, List.head?_cons, Option.some.injEq] at hhead
    rw [hd, hhead]
  have hsome (d : α) : (u₁.hh d).isSome = (u.hh d).isSome := by
    rw [← u₁.hh.shape.isSome, hdata, u.hh.shape.isSome]
  have hnot : a ∉ (V.erase a).order := fun hmem => (View.mem_erase.mp hmem).2 rfl
  obtain ⟨u', he', hs', hlock', hhh, hbound₂⟩ :=
    hs₁.free hnot (by rw [hsome, halloc]; exact ha)
  refine ⟨u₁, u', he₁, he', ⟨V.erase a, hs', hlock' hlock₁, ?_, fun d => ?_⟩,
    fun hb => hbound₂ (hbound₁ hb)⟩
  · rw [View.order_erase, List.filter_map]
    rfl
  · rw [hhh, View.mem_erase]
    by_cases hd : d = a
    · simp [hd]
    · simp [hd, hsome, halloc]

/-- The bucket may be full when its lock is returned. -/
theorem Stands.unlock (h : Stands c hash l u) (hc : c.headLocks = true) (hl : l ≠ [])
    (hlen : l.length < 2 ^ 32) (k : κ) :
    ∃ u', xhashUnlock hash u k = some u' ∧ Stands c hash l u' ∧ (u.Bounded → u'.Bounded) := by
  obtain ⟨V, hs, hlock, rfl, halloc⟩ := h
  have hne : V.order ≠ [] := by
    rintro hnil
    exact hl (by rw [hnil, List.map_nil])
  rw [List.length_map] at hlen
  obtain ⟨u', he, hu', hlock', hsome, hbound⟩ := hs.unlock (fun _ => hlock hc) hne hlen k
  have halloc' (a : α) : (u'.hh a).isSome = true ↔ a ∈ V.order := by rw [hsome, halloc]
  rcases hu' with hu' | hu'
  · exact ⟨u', he, ⟨V, hu', fun _ => hlock' rfl, rfl, halloc'⟩, hbound⟩
  · exact ⟨u', he, ⟨V.turn, hu', fun _ => hlock' rfl, rfl, halloc'⟩, hbound⟩

theorem mem_fst_iff {a : α} : (l.any fun e => e.1 = a) = true ↔ a ∈ l.map Prod.fst := by
  simp only [List.any_eq_true, List.mem_map, decide_eq_true_iff]

theorem deletable_iff {a : α} : deletable c l a = true ↔ c.deletes = true ∧ a ∈ l.map Prod.fst ∧
    (c.headLocks = true → l.head?.map Prod.fst = some a → l.length = 1) := by
  rw [deletable, Bool.and_eq_true, Bool.and_eq_true, mem_fst_iff, and_assoc]
  refine and_congr_right fun _ => and_congr_right fun _ => ?_
  cases c.headLocks <;> cases l <;> simp [or_iff_not_imp_left]

/-- A call that is in order does what it is asked for. -/
theorem Stands.step (h : Stands c hash l u) (hlen : l.length < 2 ^ 32) (hroom : InRoom c call u)
    (hl : (items c).step call l = some l') :
    ∃ u', (hashes c hash).step call u = some u' ∧ Stands c hash l' u' ∧ l'.length < 2 ^ 32 ∧
      (c.expands = true → u.Bounded → u'.Bounded) := by
  cases call with
  | add a contents k =>
    simp only [items] at hl
    split at hl
    · cases hl
    · next ha =>
      obtain rfl := Option.some.inj hl
      rw [Bool.or_eq_true, not_or, mem_fst_iff, decide_eq_true_iff, not_le] at ha
      obtain ⟨u₁, u', he₁, he', hu', hbound⟩ := h.add (k := k) ha.1 ha.2 hroom contents
      refine ⟨u', Option.bind_eq_some_iff.mpr ⟨u₁, he₁, he'⟩, hu', ?_, hbound⟩
      rw [List.length_append]
      exact ha.2
  | delete a =>
    simp only [items] at hl
    split at hl
    · next ha =>
      obtain rfl := Option.some.inj hl
      obtain ⟨-, ha, hfirst⟩ := deletable_iff.mp ha
      obtain ⟨u₁, u', he₁, he', hu', hbound⟩ := h.delete ha hfirst
      exact ⟨u', Option.bind_eq_some_iff.mpr ⟨u₁, he₁, he'⟩, hu',
        lt_of_le_of_lt (List.length_filter_le _ _) hlen, fun _ => hbound⟩
    · cases hl
  | unlock k =>
    simp only [items] at hl
    split at hl
    · next hne =>
      obtain rfl := Option.some.inj hl
      rw [Bool.and_eq_true, Bool.not_eq_true', List.isEmpty_eq_false_iff] at hne
      obtain ⟨u', he, hu', hbound⟩ := h.unlock hne.1 hne.2 hlen k
      exact ⟨u', he, hu', hlen, fun _ => hbound⟩
    · cases hl

theorem stands_of_run [Inhabited κ] (c : Config) (hash : κ → Nat) {calls : List (Call α κ)}
    (h : (items c).run calls [] = some l) (hroom : (hashes c hash).Meets (InRoom c) calls empty) :
    ∃ u, (hashes c hash).run calls empty = some u ∧ Stands c hash l u ∧ l.length < 2 ^ 32 ∧
      (c.expands = true → u.Bounded) := by
  refine Sys.run_simulates_of_meets
    (R := fun l u => Stands c hash l u ∧ l.length < 2 ^ 32 ∧ (c.expands = true → u.Bounded))
    (fun hst hC hl => ?_) ⟨stands_empty, Nat.two_pow_pos 32, fun _ _ ht => by cases ht⟩ hroom h
  obtain ⟨u', he, hu', hlen, hbound⟩ := hst.1.step hst.2.1 hC hl
  exact ⟨u', he, hu', hlen, fun hexpands => hbound hexpands (hst.2.2 hexpands)⟩

/-! ## Results -/

/-- Ten elements that share a bucket, so that the last one expands the table; the first of them is
deleted and added again. -/
def sample : List (Call Nat Nat) :=
  let contents : Handle Nat Nat := ⟨none, some 2, none, some 1, 0, 0⟩
  (List.range 10).map (fun i => .add i contents (32 * i + 5)) ++ [.delete 0, .add 0 contents 69]

def sampleItems : List (Nat × Nat) :=
  (List.range' 1 9).map (fun i => (i, 32 * i + 5)) ++ [(0, 69)]

example : (((hashes uthash id).run sample empty).bind (·.tbl)).map (·.numBuckets) = some 64 := by
  decide +kernel

section Results

variable [Inhabited κ] {calls : List (Call α κ)}

/-- Whatever a program adds and deletes, no call fails, and the integrity check passes. -/
theorem fsck_run (c : Config) (hash : κ → Nat) (h : (items c).run calls [] = some l)
    (hroom : (hashes c hash).Meets (InRoom c) calls empty) :
    ∃ u, (hashes c hash).run calls empty = some u ∧ hashFsck u = some () ∧
      hashCount u = some l.length := by
  obtain ⟨u, hrun, ⟨V, hs, -, rfl, -⟩, hlen, -⟩ := stands_of_run c hash h hroom
  refine ⟨u, hrun, hs.fsck, ?_⟩
  rw [List.length_map] at hlen ⊢
  rw [hashCount]
  cases hV : V.order with
  | nil =>
    rw [hs.head, hV]
    rfl
  | cons a l =>
    obtain ⟨t, ht, hst⟩ := hs.table (by simp [hV])
    rw [hs.head, hV, ht]
    change some (unsigned t.numItems) = _
    rw [hst.items, unsigned_of_lt hlen, hV]

theorem fsck_run_sample : ∃ u, (hashes uthash id).run sample empty = some u ∧
    hashFsck u = some () ∧ hashCount u = some 10 :=
  fsck_run uthash id (l := sampleItems) rfl (by decide +kernel)

/-- A search meets an element that has the key, if there is one. -/
theorem find_run [DecidableEq κ] (c : Config) (hash : κ → Nat)
    (h : (items c).run calls [] = some l) (hroom : (hashes c hash).Meets (InRoom c) calls empty) :
    ∃ u, (hashes c hash).run calls empty = some u ∧ ∀ k, ∃ r, hashFind hash u k = some r ∧
      (∀ a, r = some a → (a, k) ∈ l) ∧ (r = none → ∀ a, (a, k) ∉ l) := by
  obtain ⟨u, hrun, ⟨V, hs, -, rfl, -⟩, -⟩ := stands_of_run c hash h hroom
  refine ⟨u, hrun, fun k => ⟨_, hs.find k, fun a ha => ?_, fun hnone a ha => ?_⟩⟩
  · have hkey := List.find?_some ha
    rw [decide_eq_true_iff] at hkey
    have hmem := V.perm.mem_iff.mp (List.mem_of_find?_eq_some ha)
    exact List.mem_map.mpr ⟨a, hmem, by rw [hkey]⟩
  · obtain ⟨d, hd, heq⟩ := List.mem_map.mp ha
    obtain ⟨rfl, rfl⟩ := Prod.mk.injEq .. ▸ heq
    exact List.find?_eq_none.mp hnone d (V.perm.mem_iff.mpr hd) (by simp)

theorem find_run_sample : ∃ u, (hashes uthash id).run sample empty = some u ∧
    ∀ k, ∃ r, hashFind id u k = some r ∧ (∀ a, r = some a → (a, k) ∈ sampleItems) ∧
      (r = none → ∀ a, (a, k) ∉ sampleItems) :=
  find_run uthash id rfl (by decide +kernel)

/-- The loop that deletes and frees as it iterates frees each element once, in the order in which
they were added, and frees the table; it takes no locks. -/
theorem iterFree_run (c : Config) (hash : κ → Nat) (h : (items c).run calls [] = some l)
    (hroom : (hashes c hash).Meets (InRoom c) calls empty) :
    ∃ u u', (hashes c hash).run calls empty = some u ∧
      hashIterFree u = some (u', l.map Prod.fst) ∧ u'.head = none ∧ u'.tbl = none ∧
      ∀ a, u'.hh a = none := by
  obtain ⟨u, hrun, ⟨V, hs, -, rfl, halloc⟩, -⟩ := stands_of_run c hash h hroom
  obtain ⟨u', he, hhead, htbl, hleft⟩ := hs.iterFree_all
  refine ⟨u, u', hrun, by rw [he, map_fst_order], hhead, htbl, fun a => ?_⟩
  rw [← Option.not_isSome_iff_eq_none, hleft, halloc]
  exact fun hmem => hmem.2 hmem.1

theorem iterFree_run_sample : ∃ u u', (hashes uthash id).run sample empty = some u ∧
    hashIterFree u = some (u', [1, 2, 3, 4, 5, 6, 7, 8, 9, 0]) ∧ u'.head = none ∧ u'.tbl = none ∧
      ∀ a, u'.hh a = none :=
  iterFree_run uthash id (l := sampleItems) rfl (by decide +kernel)

/-- Where adding expands, every chain is shorter than its bucket allows after every call, unless
expansion was given up or did not bring the load down to nine. -/
theorem chains_bounded_run {c : Config} (hc : c.expands = true) (hash : κ → Nat)
    (h : (items c).run calls [] = some l) (hroom : (hashes c hash).Meets (InRoom c) calls empty) :
    ∃ u, (hashes c hash).run calls empty = some u ∧ u.Bounded := by
  obtain ⟨u, hrun, -, -, hbound⟩ := stands_of_run c hash h hroom
  exact ⟨u, hrun, hbound hc⟩

theorem chains_bounded_run_sample :
    ∃ u, (hashes uthash id).run sample empty = some u ∧ u.Bounded :=
  chains_bounded_run rfl id (l := sampleItems) rfl (by decide +kernel)

end Results

end CStrider.Uthash
