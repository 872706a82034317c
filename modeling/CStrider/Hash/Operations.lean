import CStrider.Hash.Expand

/-!
# Adding, deleting, iterating

What the operations do to the view of a well-formed hash, with the proof that they never touch an
element that is not allocated: `HASH_ADD` puts the element last in the order and first in rank (and
may turn the ranks around), `HASH_DELETE` takes it out of both, and the loop that deletes and frees
as it iterates goes through the order once.
-/

namespace CStrider.Uthash

variable {α κ : Type} [DecidableEq α]

namespace View

/-- With an element more, which searches meet first. -/
def add (V : View α κ) (a : α) (k : κ) (ha : a ∉ V.order) : View α κ where
  order := V.order ++ [a]
  ranks := a :: V.ranks
  key := Function.update V.key a k
  nodup := by
    rw [List.nodup_append]
    refine ⟨V.nodup, List.nodup_singleton a, ?_⟩
    rintro d hd _ hda rfl
    rw [List.mem_singleton] at hda
    exact ha (hda ▸ hd)
  perm := (V.perm.cons a).trans (List.perm_append_singleton a V.order).symm

/-- Without the element. -/
def erase (V : View α κ) (a : α) : View α κ where
  order := V.order.filter fun d => d ≠ a
  ranks := V.ranks.filter fun d => d ≠ a
  key := V.key
  nodup := V.nodup.filter _
  perm := V.perm.filter _

variable {V : View α κ} {a : α} {k : κ} {hash : κ → Nat} {n b : Nat}

theorem chain_add (ha : a ∉ V.order) :
    (V.add a k ha).chain hash n b =
      if hashToBkt (hash k) n = b then a :: V.chain hash n b else V.chain hash n b := by
  have hrest : V.ranks.filter
      (fun d => hashToBkt (hash (Function.update V.key a k d)) n = b) = V.chain hash n b := by
    apply List.filter_congr
    intro d hd
    have hda : d ≠ a := by
      rintro rfl
      exact ha (V.perm.mem_iff.mp hd)
    rw [Function.update_of_ne hda]
  rw [chain, add, List.filter_cons]
  simp only [Function.update_self, hrest, decide_eq_true_eq]

theorem chain_erase : (V.erase a).chain hash n b = (V.chain hash n b).filter fun d => d ≠ a := by
  rw [chain, chain, erase, List.filter_filter, List.filter_filter]
  exact List.filter_congr fun d _ => Bool.and_comm _ _

theorem key_add_self (ha : a ∉ V.order) : (V.add a k ha).key a = k := Function.update_self ..

theorem key_add_of_mem {d : α} (ha : a ∉ V.order) (hd : d ∈ V.order) :
    (V.add a k ha).key d = V.key d := by
  refine Function.update_of_ne ?_ _ _
  rintro rfl
  exact ha hd

theorem mem_add {d : α} (ha : a ∉ V.order) : d ∈ (V.add a k ha).order ↔ d ∈ V.order ∨ d = a := by
  rw [add, List.mem_append, List.mem_singleton]

theorem order_erase : (V.erase a).order = V.order.filter fun d => d ≠ a := rfl

theorem mem_erase {d : α} : d ∈ (V.erase a).order ↔ d ∈ V.order ∧ d ≠ a := by
  simp [erase]

/-- A list of distinct elements, cut at one of them. -/
theorem filter_ne_split {l l₂ : List α} (h : (l ++ a :: l₂).Nodup) :
    (l ++ a :: l₂).filter (fun d => d ≠ a) = l ++ l₂ := by
  obtain ⟨_, h₂, hdisj⟩ := List.nodup_append.mp h
  rw [List.filter_append, List.filter_cons_of_neg (by simp), List.filter_eq_self.mpr,
    List.filter_eq_self.mpr]
  · rintro d hd
    rw [decide_eq_true_iff]
    rintro rfl
    exact (List.nodup_cons.mp h₂).1 hd
  · intro d hd
    rw [decide_eq_true_iff]
    exact hdisj d hd a List.mem_cons_self

end View

/-- The table of the hash is, if there is one. -/
def Hash.Bounded (u : Hash α κ) : Prop := ∀ t, u.tbl = some t → t.Bounded

/-- The locks that are in the handle of the first element have been initialised there. -/
def Hash.Locked (c : Config) (u : Hash α κ) : Prop :=
  c.headLocks = true → ∀ t, u.tbl = some t → t.locks = u.head

/-- The number of buckets can be doubled, or will not be. -/
def Table.Roomy (t : Table α) : Prop := t.noexpand = true ∨ t.numBuckets < 2 ^ 31

instance (t : Table α) : Decidable t.Roomy := inferInstanceAs (Decidable (_ ∨ _))

/-- The table of the hash is, if there is one. -/
def Hash.Roomy (u : Hash α κ) : Prop := ∀ t ∈ u.tbl, t.Roomy

instance (u : Hash α κ) : Decidable u.Roomy := inferInstanceAs (Decidable (∀ _ ∈ _, _))

theorem Hash.Locked.lockable {c : Config} {u : Hash α κ} {t : Table α} (h : u.Locked c)
    (ht : u.tbl = some t) : Uthash.lockable c u.head t = true := by
  unfold Uthash.lockable
  cases hc : c.headLocks with
  | false => rfl
  | true => simpa using h hc t ht

section Add

variable {hash : κ → Nat} {V : View α κ} {u : Hash α κ} {t : Table α} {a : α} {k : κ} {c : Config}

/-- The hash when the element is in the order of insertion, and not yet in a bucket. -/
structure Entered (c : Config) (hash : κ → Nat) (u : Hash α κ) (t : Table α) (V : View α κ) (a : α)
    (k : κ) (ha : a ∉ V.order) : Prop where
  tbl : u.tbl = some t
  locked : u.Locked c
  head : u.head = (V.add a k ha).order.head?
  app : Linked (appLinks u.hh) none (V.add a k ha).order none
  tail : t.tail = some a
  items : t.numItems = V.order.length
  size : t.numBuckets = 2 ^ t.log2NumBuckets
  bucket : ∀ b < t.numBuckets, (t.buckets b).Holds (bktLinks u.hh) (V.chain hash t.numBuckets b)
  data : ∀ d ∈ V.order, dataOf u.hh d = some (V.key d, hash (V.key d))
  added : ∃ n, dataOf u.hh a = some (k, n)

omit [DecidableEq α] in
theorem View.chain_of_order_eq_nil {n b : Nat} (hV : V.order = []) : V.chain hash n b = [] := by
  rw [View.chain, V.ranks_eq_nil hV, List.filter_nil]

/-- The first branches of `HASH_ADD_KEYPTR`. -/
theorem Hash.Sound.linkApp (h : u.Sound hash V) (hlock : u.Locked c) (ha : a ∉ V.order)
    {hh : Heap α κ} {n : Nat}
    {l : Link α} (hs : hh.Shape ((appLinks u.hh).setNext a none) (bktLinks u.hh)
      (Function.update (dataOf u.hh) a (some (k, n)))) (hl : appLinks u.hh a = some l) :
    ∃ u' t, linkApp c { u with hh } a = some u' ∧ Entered c hash u' t V a k ha ∧
      dataOf u'.hh = Function.update (dataOf u.hh) a (some (k, n)) ∧
      (u.Bounded → t.Bounded) ∧ (u.Roomy → t.Roomy) := by
  have hother {d : α} (hd : d ∈ V.order) : d ≠ a := by
    rintro rfl
    exact ha hd
  unfold Uthash.linkApp
  cases hV : V.order with
  | nil =>
    obtain ⟨hh', he, hs'⟩ := hs.setPrev (a := a) (v := none) (by simp)
    rw [h.head, hV]
    dsimp only [List.head?_nil]
    rw [he]
    refine ⟨_, _, rfl, ⟨rfl, ?_, by simp [View.add, hV], ?_, rfl, by simp [hV, hashMakeTable],
      c.size, ?_, by simp [hV], n, ?_⟩, hs'.data,
      fun _ => .inr (.inr fun _ _ => Nat.zero_lt_succ _), fun _ => .inr c.small⟩
    · rintro hc t ⟨⟩
      exact if_pos hc
    · have horder : (V.add a k ha).order = [a] := by simp [View.add, hV]
      rw [horder, hs'.app]
      refine ⟨?_, trivial⟩
      rw [Links.setPrev_self, Links.setNext_self, hl]
      rfl
    · intro b _
      rw [View.chain_of_order_eq_nil hV]
      exact ⟨rfl, rfl, trivial⟩
    · rw [hs'.data, Function.update_self]
  | cons d l =>
    obtain ⟨t, ht, hst⟩ := h.table (by simp [hV])
    obtain ⟨last, hlast⟩ : ∃ last, V.order.getLast? = some last := by
      rw [hV]
      exact ⟨_, List.getLast?_cons⟩
    have hmem := List.mem_of_getLast? hlast
    obtain ⟨hh₁, he₁, hs₁⟩ := hs.setNext (a := last) (v := some a) (by
      rw [Function.update_of_ne (hother hmem), hst.data last hmem]
      rfl)
    obtain ⟨hh₂, he₂, hs₂⟩ := hs₁.setPrev (a := a) (v := some last) (by simp)
    have hhead : u.head = some d := by rw [h.head, hV, List.head?_cons]
    have hlockable := hlock.lockable ht
    rw [hhead] at hlockable ⊢
    dsimp only [Option.bind_eq_bind]
    rw [ht, Option.bind_some, guard_of hlockable, Option.bind_some, hst.tail, hlast,
      Option.bind_some, he₁, Option.bind_some, he₂]
    refine ⟨_, _, rfl, ⟨rfl, ?_, by simp [View.add, hV], ?_, rfl, hst.items, hst.size, ?_, ?_, n,
      ?_⟩, hs₂.data, fun hbound => hbound t ht, fun hroom => hroom t ht⟩
    · rintro hc t' ⟨⟩
      exact (hlock hc t ht).trans hhead
    · have happ := hst.app.setNext_last (v := some a) V.nodup
      rw [hlast] at happ
      refine Linked.append (happ.congr fun e he => ?_) ?_
      · have hea := hother he
        rw [hs₂.app, Links.setPrev_of_ne hea]
        by_cases hel : e = last
        · subst hel
          change _ = (appLinks u.hh).setNext e (some a) e
          rw [Links.setNext_self, Links.setNext_self, Links.setNext_of_ne hea]
        · change _ = (appLinks u.hh).setNext last (some a) e
          rw [Links.setNext_of_ne hel, Links.setNext_of_ne hel, Links.setNext_of_ne hea]
      · rw [hs₂.app, Links.setPrev_self, Links.setNext_of_ne (hother hmem).symm,
          Links.setNext_self, hl, hlast]
        rfl
    · intro b hb
      rw [hs₂.bkt]
      exact hst.bucket b hb
    · intro e he
      rw [hs₂.data, Function.update_of_ne (hother he), hst.data e he]
    · rw [hs₂.data, Function.update_self]

/-- The table with `a` first in bucket `b`. -/
def Table.push (t : Table α) (b : Nat) (a : α) : Table α :=
  { t with
    numItems := t.numItems + 1
    buckets := Function.update t.buckets b
      { t.buckets b with hhHead := some a, count := (t.buckets b).count + 1 } }

theorem Entered.sound_push {ha : a ∉ V.order} (h : Entered c hash u t V a k ha) {hh : Heap α κ}
    {b : Nat} (hb : hashToBkt (hash k) t.numBuckets = b) (hlt : b < t.numBuckets)
    (halloc : ∃ l, bktLinks u.hh a = some l)
    (hs : hh.Shape (appLinks u.hh)
      ((((bktLinks u.hh).setNext a (t.buckets b).hhHead).setPrev a none).setPrev?
        (t.buckets b).hhHead (some a))
      (Function.update (dataOf u.hh) a (some (k, hash k)))) :
    (t.push b a).Sound hash hh (V.add a k ha) := by
  obtain ⟨l, hl⟩ := halloc
  have hbkt := h.bucket b hlt
  constructor
  · rw [hs.app]
    exact h.app
  · rw [View.add, List.getLast?_concat]
    exact h.tail
  · rw [View.add, List.length_append]
    exact congrArg (· + 1) h.items
  · exact h.size
  · intro c hc
    dsimp only [Table.push]
    rw [View.chain_add]
    by_cases hcb : c = b
    · subst hcb
      rw [if_pos hb, Function.update_self, hs.bkt, hbkt.head, hbkt.count]
      refine hbkt.push (List.nodup_cons.mpr ⟨?_, V.nodup_chain⟩) ?_ ?_
      · exact fun hmem => ha (View.mem_chain.mp hmem).1
      · rw [Links.setPrev_self, Links.setNext_self, hl]
        rfl
      · intro d hd
        rw [Links.setPrev_of_ne hd, Links.setNext_of_ne hd]
    · rw [if_neg (fun h => hcb (h.symm.trans hb)), Function.update_of_ne hcb, hs.bkt]
      refine (h.bucket c hc).congr fun d hd => ?_
      have hda := ne_of_mem_of_not_mem (View.mem_chain.mp hd).1 ha
      rw [Links.setPrev?_of_ne, Links.setPrev_of_ne hda, Links.setNext_of_ne hda]
      rw [hbkt.head]
      intro hhead
      have hdb := (View.mem_chain.mp (List.mem_of_head? hhead)).2
      exact hcb ((View.mem_chain.mp hd).2.symm.trans hdb)
  · intro d hd
    rw [hs.data]
    rcases (View.mem_add ha).mp hd with hd | rfl
    · rw [Function.update_of_ne (ne_of_mem_of_not_mem hd ha), h.data d hd, View.key_add_of_mem ha hd]
    · rw [Function.update_self, View.key_add_self]

omit [DecidableEq α] in
/-- A bucket that is not full has few elements, if no counter wraps. -/
theorem Table.Bounded.push {b : Nat} (h : t.Bounded) (hcount : (t.buckets b).count + 1 < 2 ^ 32)
    (hfull : full (t.push b a) b = false) : (t.push b a).Bounded := by
  rcases h with hno | hideal | hlen
  · exact .inl hno
  · exact .inr (.inl hideal)
  · by_cases hno : t.noexpand = true
    · exact .inl hno
    · refine .inr (.inr fun c hc => ?_)
      dsimp only [Table.push]
      by_cases hcb : c = b
      · subst hcb
        have hlt : (t.buckets c).count + 1 <
            unsigned (((t.buckets c).expandMult + 1) * HASH_BKT_CAPACITY_THRESH) := by
          simpa [full, Table.push, hno, unsigned_of_lt hcount] using hfull
        rw [Function.update_self]
        exact lt_of_lt_of_le hlt (Nat.mod_le _ _)
      · rw [Function.update_of_ne hcb]
        exact hlen c hc

/-- `HASH_ADD_TO_BKT`, with the expansion if there is one. -/
theorem Entered.addToBkt {ha : a ∉ V.order} (h : Entered c hash u t V a k ha) {hh : Heap α κ}
    (hroom : c.expands = true → V.order.length + 1 < 2 ^ 32 ∧ t.Roomy)
    (hs : hh.Shape (appLinks u.hh) (bktLinks u.hh)
      (Function.update (dataOf u.hh) a (some (k, hash k)))) :
    ∃ u', hashAddToBkt c { u with hh, tbl := some { t with numItems := t.numItems + 1 } }
        (hashToBkt (hash k) t.numBuckets) a = some u' ∧
      (u'.Sound hash (V.add a k ha) ∨
        c.expands = true ∧ u'.Sound hash (V.add a k ha).turn) ∧
      u'.Locked c ∧ (∀ d, (u'.hh d).isSome = (hh d).isSome) ∧
      (c.expands = true → t.Bounded → u'.Bounded) := by
  have hlt : hashToBkt (hash k) t.numBuckets < t.numBuckets := by
    rw [h.size, hashToBkt_eq]
    exact Nat.mod_lt _ (Nat.two_pow_pos _)
  unfold hashAddToBkt
  generalize hb : hashToBkt (hash k) t.numBuckets = b at hlt
  have hbkt := h.bucket b hlt
  have hold {d : α} (hd : (V.chain hash t.numBuckets b).head? = some d) : d ∈ V.order :=
    (View.mem_chain.mp (List.mem_of_head? hd)).1
  obtain ⟨l, hl⟩ : ∃ l, bktLinks u.hh a = some l := hs.exists_bkt (by simp)
  obtain ⟨hh₁, he₁, hs₁⟩ := hs.setHhNext (a := a) (v := (t.buckets b).hhHead) (by simp)
  obtain ⟨hh₂, he₂, hs₂⟩ := hs₁.setHhPrev (a := a) (v := none) (by simp)
  obtain ⟨hh₃, he₃, hs₃⟩ := hs₂.ontoHhPrev (o := (t.buckets b).hhHead) (v := some a) fun d hd => by
    have hd := hold (hbkt.head ▸ hd)
    rw [Function.update_of_ne (ne_of_mem_of_not_mem hd ha), h.data d hd]
    rfl
  have hsound : (t.push b a).Sound hash hh₃ (V.add a k ha) := h.sound_push hb hlt ⟨l, hl⟩ hs₃
  have hne : (V.add a k ha).order ≠ [] := by simp [View.add]
  have hsome (d : α) : (hh₃ d).isSome = (hh d).isSome := hs₃.isSome.symm.trans hs.isSome
  dsimp only [Option.bind_eq_bind, Option.bind_some]
  rw [he₁, Option.bind_some, he₂, Option.bind_some, he₃, Option.bind_some]
  split
  · next hfull =>
    rw [Bool.and_eq_true_iff] at hfull
    obtain ⟨hexpands, hfull⟩ := hfull
    have hsize : t.numBuckets < 2 ^ 31 := by
      refine (hroom hexpands).2.resolve_left fun hno => ?_
      simp [full, hno] at hfull
    have hlen : (V.add a k ha).order.length < 2 ^ 32 := by
      rw [View.add, List.length_append]
      exact (hroom hexpands).1
    obtain ⟨u', t', he, ht', hhead, hlocks, hs', htally, hdata⟩ := hsound.expand
      (u := ⟨hh₃, u.head, some _⟩) rfl hne hlen hsize
    refine ⟨u', he, .inr ⟨hexpands, ?_, fun hnil => absurd hnil hne, fun _ => ⟨t', ht', hs'⟩⟩,
      fun hc t₀ ht₀ => ?_, fun d => ?_, fun _ _ t₀ ht₀ => ?_⟩
    · exact hhead.trans h.head
    · obtain rfl := Option.some.inj (ht'.symm.trans ht₀)
      exact hlocks.trans ((h.locked hc t h.tbl).trans hhead.symm)
    · rw [← hsome d, ← u'.hh.shape.isSome, hdata, hh₃.shape.isSome]
    · obtain rfl := Option.some.inj (ht'.symm.trans ht₀)
      exact htally.bounded
  · next hfull =>
    refine ⟨_, rfl, .inl ⟨h.head, fun hnil => absurd hnil hne, fun _ => ⟨_, rfl, hsound⟩⟩, ?_,
      hsome, fun hexpands hbound t₀ ht₀ => ?_⟩
    · rintro hc t₀ ⟨⟩
      exact h.locked hc t h.tbl
    obtain rfl := Option.some.inj ht₀
    have hcount : (t.buckets b).count + 1 < 2 ^ 32 := by
      rw [hbkt.count]
      exact lt_of_le_of_lt (Nat.succ_le_succ View.length_chain_le) (hroom hexpands).1
    rw [hexpands, Bool.true_and, Bool.not_eq_true] at hfull
    exact hbound.push hcount hfull

/-- `HASH_ADD` of an allocated element that is not in the hash. -/
theorem Hash.Sound.add (h : u.Sound hash V) (hlock : u.Locked c) (ha : a ∉ V.order)
    (halloc : (u.hh a).isSome)
    (hroom : c.expands = true → V.order.length + 1 < 2 ^ 32 ∧ u.Roomy) (k : κ) :
    ∃ u', hashAddKeyptr c hash u k a = some u' ∧
      (u'.Sound hash (V.add a k ha) ∨
        c.expands = true ∧ u'.Sound hash (V.add a k ha).turn) ∧
      u'.Locked c ∧ (∀ d, (u'.hh d).isSome = (u.hh d).isSome) ∧
      (c.expands = true → u.Bounded → u'.Bounded) := by
  have hs := u.hh.shape
  have hD : (dataOf u.hh a).isSome := hs.isSome.trans halloc
  obtain ⟨l, hl⟩ := hs.exists_app hD
  obtain ⟨x, hx⟩ := Option.isSome_iff_exists.mp hD
  obtain ⟨hh₁, he₁, hs₁⟩ := hs.setNext (v := none) hD
  obtain ⟨hh₂, he₂, hs₂⟩ := hs₁.setKey (k := k) hD
  rw [hx, Option.map_some] at hs₂
  obtain ⟨u₁, t, he₃, hent, hdata, hbound, hroomy⟩ := h.linkApp hlock ha hs₂ hl
  obtain ⟨n, hn⟩ := hent.added
  obtain ⟨hh₄, he₄, hs₄⟩ := u₁.hh.shape.setHashv (a := a) (n := hash k) (by rw [hn]; rfl)
  rw [hn, Option.map_some] at hs₄
  obtain ⟨u', he, hu', hlock', hsome, hbound'⟩ := hent.addToBkt
    (fun hc => ⟨(hroom hc).1, hroomy (hroom hc).2⟩) hs₄
  refine ⟨u', ?_, hu', hlock', fun d => ?_, fun hexpands hb => hbound' hexpands (hbound hb)⟩
  · unfold hashAddKeyptr
    dsimp only [Option.bind_eq_bind]
    rw [he₁, Option.bind_some, he₂, Option.bind_some, he₃, Option.bind_some, hent.tbl,
      Option.bind_some, he₄, Option.bind_some, he]
  · rw [hsome d, ← hs₄.isSome, hdata, ← hs.isSome]
    by_cases hd : d = a
    · subst hd
      simp [hD]
    · simp [hd]

/-- `HASH_EXPAND_BUCKETS` of a hash with elements. -/
theorem Hash.Sound.expand (h : u.Sound hash V) (hV : V.order ≠ [])
    (hlen : V.order.length < 2 ^ 32) (ht : u.tbl = some t) (hsize : t.numBuckets < 2 ^ 31) :
    ∃ u' t', hashExpandBuckets u = some u' ∧ u'.tbl = some t' ∧ Tallied t t' ∧
      u'.Sound hash V.turn ∧ (u.Locked c → u'.Locked c) ∧
      ∀ d, (u'.hh d).isSome = (u.hh d).isSome := by
  obtain ⟨t₀, ht₀, hst⟩ := h.table hV
  obtain rfl := Option.some.inj (ht₀.symm.trans ht)
  obtain ⟨u', t', he, ht', hhead, hlocks, hst', htally, hdata⟩ := hst.expand ht hV hlen hsize
  refine ⟨u', t', he, ht', htally, ?_, fun hlock hc t₁ ht₁ => ?_, fun d => ?_⟩
  · exact ⟨hhead.trans h.head, fun hnil => absurd hnil hV, fun _ => ⟨t', ht', hst'⟩⟩
  · obtain rfl := Option.some.inj (ht'.symm.trans ht₁)
    exact hlocks.trans ((hlock hc _ ht).trans hhead.symm)
  · rw [← u'.hh.shape.isSome, hdata, u.hh.shape.isSome]

/-- The end of `XHASH_UNLOCK_BUCKET`. -/
theorem Hash.Sound.unlock (h : u.Sound hash V) (hlock : u.Locked uthashXform) (hV : V.order ≠ [])
    (hlen : V.order.length < 2 ^ 32) (k : κ) :
    ∃ u', xhashUnlock hash u k = some u' ∧ (u'.Sound hash V ∨ u'.Sound hash V.turn) ∧
      u'.Locked uthashXform ∧ (∀ d, (u'.hh d).isSome = (u.hh d).isSome) ∧
      (u.Bounded → u'.Bounded) := by
  obtain ⟨t, ht, -⟩ := h.table hV
  unfold xhashUnlock
  rw [ht, Option.bind_eq_bind, Option.bind_some, guard_of (hlock.lockable ht), Option.bind_eq_bind,
    Option.bind_some]
  split
  · next hfull =>
    have hmax : t.numBuckets < XHASH_MAX_NUM_BUCKETS :=
      decide_eq_true_iff.mp (Bool.and_eq_true_iff.mp hfull).2
    obtain ⟨u', t', he, ht', htally, hs', hlock', hsome⟩ := h.expand (c := uthashXform) hV hlen ht
      (hmax.trans (by decide))
    refine ⟨u', he, .inr hs', hlock' hlock, hsome, fun _ t₀ ht₀ => ?_⟩
    obtain rfl := Option.some.inj (ht'.symm.trans ht₀)
    exact htally.bounded
  · exact ⟨u, rfl, .inl h, hlock, fun _ => rfl, id⟩

end Add

/-! ## Deleting -/

section Delete

variable {hash : κ → Nat} {V : View α κ} {u : Hash α κ} {hh : Heap α κ} {A B : Links α}
  {D : α → Option (κ × Nat)} {a : α} {l₁ l₂ : List α}

/-- The first and the last of what is left. -/
theorem head?_without (h : (l₁ ++ a :: l₂).Nodup) :
    (if (l₁ ++ a :: l₂).head? = some a then l₂.head? else (l₁ ++ a :: l₂).head?) =
      (l₁ ++ l₂).head? := by
  cases l₁ with
  | nil => simp
  | cons d l =>
    have hda : d ≠ a := (List.nodup_append.mp h).2.2 d List.mem_cons_self a List.mem_cons_self
    simp [hda]

theorem getLast?_without (h : (l₁ ++ a :: l₂).Nodup) :
    (if (l₁ ++ a :: l₂).getLast? = some a then l₁.getLast? else (l₁ ++ a :: l₂).getLast?) =
      (l₁ ++ l₂).getLast? := by
  rcases List.eq_nil_or_concat l₂ with rfl | ⟨l, d, rfl⟩
  · simp
  · have hda : d ≠ a := by
      rintro rfl
      simp [List.nodup_append] at h
    rw [List.concat_eq_append, ← List.cons_append, ← List.append_assoc, ← List.append_assoc,
      List.getLast?_concat, List.getLast?_concat, if_neg fun h => hda (Option.some.inj h)]

theorem Bucket.Holds.delInBkt {bkt : Bucket α} (hb : bkt.Holds B (l₁ ++ a :: l₂))
    (hs : hh.Shape A B D) (hl : (l₁ ++ a :: l₂).Nodup)
    (hD : ∀ d ∈ l₁ ++ a :: l₂, (D d).isSome) :
    ∃ hh' bkt', hashDelInBkt hh bkt a = some (hh', bkt') ∧
      hh'.Shape A ((B.setNext? l₁.getLast? l₂.head?).setPrev? l₂.head? l₁.getLast?) D ∧
      bkt'.Holds ((B.setNext? l₁.getLast? l₂.head?).setPrev? l₂.head? l₁.getLast?)
        (l₁ ++ l₂) ∧ bkt'.count ≤ bkt.count ∧ bkt'.expandMult = bkt.expandMult := by
  have ha : (D a).isSome := hD a (by simp)
  obtain ⟨h, hh_a⟩ := Option.isSome_iff_exists.mp (hs.isSome ▸ ha)
  have hlinks := hb.linked.links
  rw [hs.bkt_of hh_a, Option.some.injEq, Link.mk.injEq, Option.or_none, Option.or_none] at hlinks
  obtain ⟨hprev, hnext⟩ := hlinks
  obtain ⟨hh₁, he₁, hs₁⟩ := hs.ontoHhNext (o := l₁.getLast?) (v := l₂.head?) fun d hd =>
    hD d (List.mem_append_left _ (List.mem_of_getLast? hd))
  obtain ⟨hh₂, he₂, hs₂⟩ := hs₁.ontoHhPrev (o := l₂.head?) (v := l₁.getLast?) fun d hd =>
    hD d (List.mem_append_right _ (List.mem_cons_of_mem a (List.mem_of_head? hd)))
  refine ⟨hh₂, ⟨(l₁ ++ l₂).head?, (l₁ ++ l₂).length, bkt.expandMult⟩, ?_, hs₂,
    ⟨rfl, rfl, hb.linked.unlink hl⟩, by simp [hb.count], rfl⟩
  unfold hashDelInBkt
  dsimp only [Option.bind_eq_bind]
  rw [hh_a, Option.bind_some, hprev, hnext, he₁, Option.bind_some, he₂, Option.bind_some, hb.head,
    hb.count, head?_without hl]
  simp

/-- `HASH_DELETE` of an element of the hash; with the first one go the locks of the others. -/
theorem Hash.Sound.delete (h : u.Sound hash V) (ha : a ∈ V.order) :
    ∃ u', hashDelete u a = some u' ∧ u'.Sound hash (V.erase a) ∧ dataOf u'.hh = dataOf u.hh ∧
      (u.Bounded → u'.Bounded) ∧ ∀ c : Config,
        (c.headLocks = true → V.order.head? = some a → V.order = [a]) → u.Locked c →
          u'.Locked c := by
  obtain ⟨l₁, l₂, horder⟩ := List.append_of_mem ha
  obtain ⟨t, ht, hst⟩ := h.table (List.ne_nil_of_mem ha)
  have hnodup : (l₁ ++ a :: l₂).Nodup := horder ▸ V.nodup
  have herase : (V.erase a).order = l₁ ++ l₂ := by
    rw [View.order_erase, horder, View.filter_ne_split hnodup]
  have hs := u.hh.shape
  have hD (d : α) (hd : d ∈ V.order) : (dataOf u.hh d).isSome := by
    rw [hst.data d hd]
    rfl
  obtain ⟨hd, hd_a⟩ := Option.isSome_iff_exists.mp (hs.isSome ▸ hD a ha)
  have happ := horder ▸ hst.app
  have hlinks := happ.links
  rw [hs.app_of hd_a, Option.some.injEq, Link.mk.injEq, Option.or_none, Option.or_none] at hlinks
  obtain ⟨hprev, hnext⟩ := hlinks
  have hhash : hd.hashv = hash (V.key a) := by
    have hda := hs.data_of hd_a
    rw [hst.data a ha, Option.some.injEq, Prod.mk.injEq] at hda
    exact hda.2.symm
  unfold hashDelete
  rw [ht, Option.bind_eq_bind, Option.bind_some, hd_a, Option.bind_eq_bind, Option.bind_some,
    hprev, hnext, hhash, hst.tail, h.head, horder]
  by_cases hlast : l₁.getLast? = none ∧ l₂.head? = none
  · rw [if_pos hlast]
    rw [List.getLast?_eq_none_iff, List.head?_eq_none_iff] at hlast
    have hnil : (V.erase a).order = [] := by rw [herase, hlast.1, hlast.2, List.append_nil]
    exact ⟨_, rfl, ⟨by rw [hnil, List.head?_nil], fun _ => rfl, fun hne => absurd hnil hne⟩, rfl,
      fun _ t ht => (by cases ht), fun _ _ _ _ t ht => by cases ht⟩
  · rw [if_neg hlast]
    obtain ⟨hh₁, he₁, hs₁⟩ := hs.ontoNext (o := l₁.getLast?) (v := l₂.head?) fun d hd => hD d (by
      rw [horder]
      exact List.mem_append_left _ (List.mem_of_getLast? hd))
    obtain ⟨hh₂, he₂, hs₂⟩ := hs₁.ontoPrev (o := l₂.head?) (v := l₁.getLast?) fun d hd => hD d (by
      rw [horder]
      exact List.mem_append_right _ (List.mem_cons_of_mem a (List.mem_of_head? hd)))
    have hlt := hst.bkt_lt (hash (V.key a))
    generalize hb : hashToBkt (hash (V.key a)) t.numBuckets = b at hlt
    obtain ⟨c₁, c₂, hchain⟩ := List.append_of_mem (View.mem_chain.mpr ⟨ha, hb⟩)
    have hcnodup : (c₁ ++ a :: c₂).Nodup := hchain ▸ V.nodup_chain
    have hmem (d : α) (hd : d ∈ c₁ ++ a :: c₂) : d ∈ V.order := by
      rw [← hchain] at hd
      exact (View.mem_chain.mp hd).1
    obtain ⟨hh₃, bkt', he₃, hs₃, hbkt', hcount, hmult⟩ :=
      (hchain ▸ hst.bucket b hlt).delInBkt hs₂ hcnodup fun d hd => hD d (hmem d hd)
    dsimp only [Option.bind_eq_bind]
    rw [he₁, Option.bind_some, he₂, Option.bind_some, he₃, Option.bind_some]
    refine ⟨_, rfl, ⟨?_, fun hnil => ?_, fun _ => ⟨_, rfl, ?_⟩⟩, hs₃.data,
      fun hbound t' ht' => ?_, fun c hfirst hlock hc t' ht' => ?_⟩
    · rw [herase]
      cases l₁ <;> simp
    · rw [herase, List.append_eq_nil_iff] at hnil
      exact absurd (by simp [hnil]) hlast
    · constructor
      · rw [herase, hs₃.app]
        exact happ.unlink hnodup
      · rw [herase]
        exact getLast?_without hnodup
      · rw [herase]
        simp [hst.items, horder]
      · exact hst.size
      · intro c hc
        dsimp only at hc ⊢
        rw [View.chain_erase, hs₃.bkt]
        by_cases hcb : c = b
        · subst hcb
          rw [Function.update_self, hchain, View.filter_ne_split hcnodup]
          exact hbkt'
        · have hkeep : (V.chain hash t.numBuckets c).filter (fun d => d ≠ a) =
              V.chain hash t.numBuckets c := by
            rw [List.filter_eq_self]
            intro d hd
            rw [decide_eq_true_iff]
            rintro rfl
            exact hcb ((View.mem_chain.mp hd).2.symm.trans hb)
          rw [Function.update_of_ne hcb, hkeep]
          -- the links that change are in bucket `b`
          have hother (d : α) (hd : d ∈ V.chain hash t.numBuckets c) : d ∉ c₁ ++ a :: c₂ := by
            rw [← hchain]
            intro hdb
            exact hcb ((View.mem_chain.mp hd).2.symm.trans (View.mem_chain.mp hdb).2)
          refine (hst.bucket c hc).congr fun d hd => ?_
          rw [Links.setPrev?_of_ne, Links.setNext?_of_ne]
          · intro hlast
            exact hother d hd (List.mem_append_left _ (List.mem_of_getLast? hlast))
          · intro hhead
            exact hother d hd
              (List.mem_append_right _ (List.mem_cons_of_mem a (List.mem_of_head? hhead)))
      · intro d hd
        rw [hs₃.data]
        exact hst.data d (View.mem_erase.mp hd).1
    · obtain rfl := Option.some.inj ht'
      rcases hbound t ht with hno | hideal | hlen
      · exact .inl hno
      · exact .inr (.inl hideal)
      · refine .inr (.inr fun c hc => ?_)
        dsimp only
        by_cases hcb : c = b
        · subst hcb
          rw [Function.update_self, hmult]
          exact hcount.trans_lt (hlen c hc)
        · rw [Function.update_of_ne hcb]
          exact hlen c hc
    · obtain rfl := Option.some.inj ht'
      cases l₁ with
      | nil =>
        refine absurd ⟨rfl, ?_⟩ hlast
        rw [List.cons.inj (hfirst hc rfl) |>.2, List.head?_nil]
      | cons d l =>
        exact (hlock hc t ht).trans (by simp [h.head, horder])

end Delete

/-! ## Deleting while iterating -/

section Iterate

variable {hash : κ → Nat} {V : View α κ} {u : Hash α κ} {a : α} {l : List α}

/-- An element that is not in the hash is freed. -/
theorem Hash.Sound.free (h : u.Sound hash V) (ha : a ∉ V.order) (halloc : (u.hh a).isSome) :
    ∃ u', free u a = some u' ∧ u'.Sound hash V ∧ (∀ {c : Config}, u.Locked c → u'.Locked c) ∧
      u'.hh = Function.update u.hh a none ∧ (u.Bounded → u'.Bounded) := by
  obtain ⟨hd, hd_a⟩ := Option.isSome_iff_exists.mp halloc
  refine ⟨{ u with hh := Function.update u.hh a none }, by rw [Uthash.free, hd_a]; rfl, ?_, id,
    rfl, id⟩
  refine h.congr fun d hd => Function.update_of_ne ?_ _ _
  rintro rfl
  exact ha hd

omit [DecidableEq α] in
/-- The links of the first element. -/
theorem Hash.Sound.next_head (h : u.Sound hash V) (hV : V.order = a :: l) :
    ∃ hd, u.hh a = some hd ∧ hd.next = l.head? := by
  obtain ⟨t, -, hst⟩ := h.table (by simp [hV])
  have happ := hst.app
  rw [hV, linked_cons, Option.or_none] at happ
  obtain ⟨hd, hd_a, hlink⟩ := Option.map_eq_some_iff.mp happ.1
  exact ⟨hd, hd_a, congrArg Link.next hlink⟩

/-- The loop that deletes and frees each element goes through the order, and leaves nothing. -/
theorem Hash.Sound.iterFree {fuel : Nat} (h : u.Sound hash V) (hl : V.order = l)
    (hfuel : l.length ≤ fuel) :
    ∃ u', iterFree fuel l.head? l.tail.head? u = some (u', l) ∧ u'.head = none ∧ u'.tbl = none ∧
      ∀ d, (u'.hh d).isSome = true ↔ (u.hh d).isSome = true ∧ d ∉ l := by
  induction l generalizing u V fuel with
  | nil =>
    refine ⟨u, by cases fuel <;> rfl, ?_, h.noTable hl, fun d => by simp⟩
    rw [h.head, hl, List.head?_nil]
  | cons a l ih =>
    cases fuel with
    | zero => cases hfuel
    | succ fuel =>
      have hnot : a ∉ l := (List.nodup_cons.mp (hl ▸ V.nodup)).1
      obtain ⟨u₁, he₁, hs₁, hdata, -⟩ := h.delete (a := a) (by simp [hl])
      have hsome (d : α) : (u₁.hh d).isSome = (u.hh d).isSome := by
        rw [← u₁.hh.shape.isSome, hdata, u.hh.shape.isSome]
      have herase : (V.erase a).order = l := by
        rw [View.order_erase, hl]
        exact View.filter_ne_split (l := []) (hl ▸ V.nodup)
      obtain ⟨hd, hd_a, -⟩ := h.next_head hl
      obtain ⟨u₂, he₂, hs₂, -, hhh, -⟩ :=
        hs₁.free (a := a) (herase ▸ hnot) (by rw [hsome, hd_a]; rfl)
      obtain ⟨u₃, he₃, hhead, htbl, hleft⟩ := ih hs₂ herase (Nat.le_of_succ_le_succ hfuel)
      have htmp : l.head?.elim (some none) (fun d => (u₂.hh d).map (·.next)) =
          some l.tail.head? := by
        cases l with
        | nil => rfl
        | cons d l =>
          obtain ⟨hd', hd'_d, hnext⟩ := hs₂.next_head herase
          simp [hd'_d, hnext]
      refine ⟨u₃, ?_, hhead, htbl, fun d => ?_⟩
      · rw [List.head?_cons, List.tail_cons, Uthash.iterFree]
        dsimp only [Option.bind_eq_bind]
        rw [he₁, Option.bind_some, he₂, Option.bind_some, htmp, Option.bind_some, he₃]
        rfl
      · rw [hleft, hhh, List.mem_cons, not_or]
        by_cases hda : d = a
        · simp [hda]
        · simp [hda, hsome]

/-- The whole loop. -/
theorem Hash.Sound.iterFree_all (h : u.Sound hash V) :
    ∃ u', hashIterFree u = some (u', V.order) ∧ u'.head = none ∧ u'.tbl = none ∧
      ∀ d, (u'.hh d).isSome = true ↔ (u.hh d).isSome = true ∧ d ∉ V.order := by
  unfold hashIterFree
  cases hV : V.order with
  | nil =>
    refine ⟨u, ?_, ?_, h.noTable hV, fun d => by simp⟩
    · rw [h.head, hV]
      rfl
    · rw [h.head, hV, List.head?_nil]
  | cons a l =>
    obtain ⟨t, ht, hst⟩ := h.table (by simp [hV])
    obtain ⟨hd, hd_a, hnext⟩ := h.next_head hV
    have hrun := h.iterFree hV (hV ▸ hst.items.ge)
    rw [h.head, hV]
    dsimp only [List.head?_cons]
    rw [ht, Option.bind_eq_bind, Option.bind_some, hd_a, Option.bind_eq_bind, Option.bind_some,
      hnext]
    exact hrun

end Iterate

end CStrider.Uthash
