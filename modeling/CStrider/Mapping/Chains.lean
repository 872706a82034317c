import CStrider.Mapping.Accesses
import CStrider.Mapping.Once

/-!
# What the lock of a bucket protects

The head of the bucket, its count and the links in the bucket, which is all that a search reads.
`Sim` relates the state of `Accesses` to one of `Mapping.visits`, whose searches and insertions are
atomic, by a chain for each bucket. What a thread has read in its bucket stays so while it holds the
lock (`Local`); an insertion that has begun owns its entry until the entry is linked (`Sim.node`,
`Sim.apart`). The assignments in the order of insertion do not touch any of this, whatever the
threads make of that order.
-/

namespace CStrider.Mapping.Accesses

open Uthash

variable {α : Type}

/-- The entry that an element is. -/
def entryOf (c : State α) (d : α) : Option Entry :=
  (dataOf c.hh d).map fun k => ⟨k.1, c.addr d⟩

/-- `count` is ahead of the chain. -/
def Insert.counted : Insert α → Nat
  | .readHhHead | .hhNext _ | .hhPrev | .readHhHeadAgain | .headHhPrev _ | .hhHead => 1
  | _ => 0

namespace Pc

/-- The phase of `Mapping.visits`. -/
def phase : Pc α → Phase
  | .outside ph => ph
  | .find a x e _ _ => .find a x e
  | .addFind e key addr _ => .addFind e key addr
  | .insert e key addr _ _ => .addInsert e key addr
  | .fault => .idle

/-- The entry that is being made. -/
def node : Pc α → Option α
  | .insert _ _ _ a _ => some a
  | _ => none

/-- What the first element of the chain has in front of it. -/
def front : Pc α → Option α
  | .insert _ _ _ a .hhHead => some a
  | _ => none

def counted : Pc α → Nat
  | .insert _ _ _ _ w => w.counted
  | _ => 0

end Pc

namespace State

def front (c : State α) (b : Nat) : Option α := (c.owner b).bind fun i => (c.pc i).front

def counted (c : State α) (b : Nat) : Nat := (c.owner b).elim 0 fun i => (c.pc i).counted

end State

/-- What a search for `key` has found out about the chain `l`. -/
def Search.Knows (c : State α) (key : Ptr) (l : List α) : Search α → Prop
  | .hhHead => True
  | .key d => ∃ l₁ l₂, l = l₁ ++ d :: l₂ ∧ ∀ b ∈ l₁, ∀ e, entryOf c b = some e → e.key ≠ key
  | .hhNext d => ∃ l₁ l₂, l = l₁ ++ d :: l₂ ∧
      ∀ b ∈ l₁ ++ [d], ∀ e, entryOf c b = some e → e.key ≠ key
  | .addr d => ∃ l₁ l₂, l = l₁ ++ d :: l₂ ∧
      (∀ b ∈ l₁, ∀ e, entryOf c b = some e → e.key ≠ key) ∧
      ∀ e, entryOf c d = some e → e.key = key

/-- What an insertion of `a` in front of the chain `l` has done and read. -/
def Insert.Knows (c : State α) (key addr : Ptr) (a : α) (l : List α) : Insert α → Prop
  | .addr => True
  | .next | .key => c.addr a = addr
  | .readTail | .readTailAgain | .tail | .readNumItems | .numItems _ | .hashv | .readCount
  | .readHhHead => entryOf c a = some ⟨key, addr⟩
  | .tailNext t | .prev t =>
    entryOf c a = some ⟨key, addr⟩ ∧ ∃ d, t = some d ∧ (c.hh d).isSome = true
  | .count n => entryOf c a = some ⟨key, addr⟩ ∧ n = l.length
  | .hhNext o => entryOf c a = some ⟨key, addr⟩ ∧ o = l.head?
  | .hhPrev => entryOf c a = some ⟨key, addr⟩ ∧ ∃ p, bktLinks c.hh a = some ⟨p, l.head?⟩
  | .readHhHeadAgain | .hhHead =>
    entryOf c a = some ⟨key, addr⟩ ∧ bktLinks c.hh a = some ⟨none, l.head?⟩
  | .headHhPrev d => entryOf c a = some ⟨key, addr⟩ ∧
      bktLinks c.hh a = some ⟨none, l.head?⟩ ∧ l.head? = some d

section Relation

variable (S : Setting)

/-- A thread inside the table works on the value whose bucket it has locked. -/
def Local (c : State α) (chain : Nat → List α) : Pc α → Prop
  | .outside _ => True
  | .find _ _ e p w => p = e ∧ e ≠ 0 ∧ w.Knows c e (chain (S.bucket e))
  | .addFind e key _ w => key = e ∧ e ≠ 0 ∧ w.Knows c e (chain (S.bucket e))
  | .insert e key addr a w =>
    key = e ∧ e ≠ 0 ∧ w.Knows c e addr a (chain (S.bucket e))
  | .fault => False

/-- The elements of `l` are those of bucket `b`; a thread may have begun to put another one in front
of them. -/
structure Chained (c : State α) (b : Nat) (l : List α) : Prop where
  head : (c.tbl.buckets b).hhHead = l.head?
  count : (c.tbl.buckets b).count = l.length + c.counted b
  linked : Linked (bktLinks c.hh) (c.front b) l none
  nodup : l.Nodup
  keyed : ∀ d ∈ l, ∃ e, entryOf c d = some e ∧ S.bucket e.key = b

structure Sim (c : State α) (chain : Nat → List α) (s : Mapping.State) : Prop where
  mem : s.mem = c.mem
  owner : s.owner = c.owner
  log : s.log = c.log
  phase : ∀ i, s.phase i = (c.pc i).phase
  size : c.tbl.numBuckets = uthashNxform.initialNumBuckets
  tail : ∃ d, c.tbl.tail = some d ∧ (c.hh d).isSome = true
  bucket : ∀ b < uthashNxform.initialNumBuckets, Chained S c b (chain b)
  entries : ∀ b, (chain b).map (entryOf c) = (s.table b).map some
  known : ∀ i, Local S c chain (c.pc i)
  node : ∀ i a, (c.pc i).node = some a → (c.hh a).isSome = true ∧ ∀ b, a ∉ chain b
  apart : ∀ i j a, (c.pc i).node = some a → (c.pc j).node = some a → i = j
  head : c.head ∈ chain (S.bucket seed) ∧ entryOf c c.head = some ⟨seed, seed⟩
  alloc : ∀ d, (c.hh d).isSome = true →
    (∃ b < uthashNxform.initialNumBuckets, d ∈ chain b) ∨ ∃ i, (c.pc i).node = some d

end Relation

variable {S : Setting} {c c' : State α} {chain chain' : Nat → List α} {s s' : Mapping.State}
  {i : Nat} {q : Pc α} {m : Ptr → Ptr}

theorem State.goto_pc_self : (c.goto i q).pc i = q := Function.update_self ..

theorem Setting.bucket_lt (S : Setting) (key : Ptr) :
    S.bucket key < uthashNxform.initialNumBuckets := by
  rw [Setting.bucket, uthashNxform.size, hashToBkt_eq]
  exact Nat.mod_lt _ (Nat.two_pow_pos _)

theorem Sim.bkt (h : Sim S c chain s) (key : Ptr) : Accesses.bkt S c key = S.bucket key := by
  rw [Accesses.bkt, h.size, Setting.bucket]

theorem isSome_entryOf {d : α} : (entryOf c d).isSome = (c.hh d).isSome := by
  rw [entryOf, Option.isSome_map, c.hh.shape.isSome]

theorem isSome_of_entryOf {d : α} {e : Entry} (h : entryOf c d = some e) :
    (c.hh d).isSome = true := by
  rw [← isSome_entryOf, h]
  rfl

/-- Entries in different buckets have different keys. -/
theorem Sim.disjoint (h : Sim S c chain s) {b b' : Nat} {d : α}
    (hb : b < uthashNxform.initialNumBuckets) (hb' : b' < uthashNxform.initialNumBuckets)
    (hd : d ∈ chain b) (hd' : d ∈ chain b') : b = b' := by
  obtain ⟨e, he, rfl⟩ := (h.bucket b hb).keyed d hd
  obtain ⟨e', he', rfl⟩ := (h.bucket b' hb').keyed d hd'
  rw [Option.some.inj (he.symm.trans he')]

/-- A thread inside the table holds the lock of its bucket. -/
theorem Sim.locked (h : Sim S c chain s) (inv : Inv S.slots m s) {e : Ptr} (he : e ≠ 0)
    (hkey : lockedKey (c.pc i).phase = some e) : c.owner (S.bucket e) = some i := by
  have howner := (inv.owned (S.bucket e) i).mpr (by
    rw [held, h.phase, hkey, Option.bind_some, if_neg he]
    rfl)
  rwa [h.owner] at howner

/-! ## What other threads do -/

theorem Search.Knows.congr {w : Search α} {l : List α} {k : Ptr} (h : w.Knows c k l)
    (hl : ∀ d ∈ l, entryOf c' d = entryOf c d) : w.Knows c' k l := by
  cases w with
  | hhHead => trivial
  | key d =>
    obtain ⟨l₁, l₂, rfl, hne⟩ := h
    exact ⟨l₁, l₂, rfl, fun b hb => hl b (List.mem_append_left _ hb) ▸ hne b hb⟩
  | hhNext d =>
    obtain ⟨l₁, l₂, rfl, hne⟩ := h
    refine ⟨l₁, l₂, rfl, fun b hb => hl b ?_ ▸ hne b hb⟩
    rw [List.append_cons]
    exact List.mem_append_left _ hb
  | addr d =>
    obtain ⟨l₁, l₂, rfl, hne, hd⟩ := h
    exact ⟨l₁, l₂, rfl, fun b hb => hl b (List.mem_append_left _ hb) ▸ hne b hb,
      hl d (List.mem_append_right _ List.mem_cons_self) ▸ hd⟩

theorem Insert.Knows.congr {w : Insert α} {l : List α} {k v : Ptr} {a : α}
    (h : w.Knows c k v a l) (haddr : c'.addr a = c.addr a) (hentry : entryOf c' a = entryOf c a)
    (hlinks : bktLinks c'.hh a = bktLinks c.hh a)
    (halloc : ∀ d, (c.hh d).isSome = true → (c'.hh d).isSome = true) : w.Knows c' k v a l := by
  cases w with
  | addr => trivial
  | next | key => exact haddr.trans h
  | readTail | readTailAgain | tail | readNumItems | numItems | hashv | readCount | readHhHead =>
    exact hentry.trans h
  | tailNext | prev =>
    obtain ⟨h, d, hd, hsome⟩ := h
    exact ⟨hentry.trans h, d, hd, halloc d hsome⟩
  | count | hhNext => exact ⟨hentry.trans h.1, h.2⟩
  | hhPrev | readHhHeadAgain | hhHead => exact ⟨hentry.trans h.1, by rw [hlinks]; exact h.2⟩
  | headHhPrev => exact ⟨hentry.trans h.1, by rw [hlinks]; exact h.2⟩

/-- What a thread with the lock of bucket `b` and with the entry `a` leaves alone. -/
structure Spares (c c' : State α) (chain : Nat → List α) (b : Nat) (a : α) : Prop where
  alloc : ∀ d, (c.hh d).isSome = true → (c'.hh d).isSome = true
  entry : ∀ d, d ≠ a → entryOf c' d = entryOf c d
  addr : ∀ d, d ≠ a → c'.addr d = c.addr d
  links : ∀ d, d ≠ a → d ∉ chain b → bktLinks c'.hh d = bktLinks c.hh d
  buckets : ∀ b', b' ≠ b → c'.tbl.buckets b' = c.tbl.buckets b'

section Frames

variable {b : Nat} {a : α}

/-- A thread holds one lock. -/
theorem Sim.owner_ne (h : Sim S c chain s) (inv : Inv S.slots m s) (hown : c.owner b = some i)
    {b' : Nat} (hb : b' ≠ b) : c.owner b' ≠ some i := by
  intro hown'
  rw [← h.owner, inv.owned] at hown hown'
  exact hb (Option.some.inj (hown'.symm.trans hown))

/-- What another thread knows stays true. -/
theorem Sim.known_of_spares (h : Sim S c chain s) (inv : Inv S.slots m s)
    (hown : c.owner b = some i) (hb : b < uthashNxform.initialNumBuckets)
    (hnot : ∀ b, a ∉ chain b) (hs : Spares c c' chain b a)
    (hchain : ∀ b', b' ≠ b → chain' b' = chain b') {j : Nat} (hj : j ≠ i)
    (hnode : (c.pc j).node ≠ some a) : Local S c' chain' (c.pc j) := by
  have hknown := h.known j
  -- the other thread is in another bucket
  have hne {e : Ptr} (he : e ≠ 0) (hkey : lockedKey (c.pc j).phase = some e) :
      S.bucket e ≠ b := by
    rintro rfl
    have := h.locked inv he hkey
    exact hj (Option.some.inj (this.symm.trans hown))
  have hentry {b' : Nat} (d : α) (hd : d ∈ chain b') : entryOf c' d = entryOf c d :=
    hs.entry d fun hda => hnot b' (hda ▸ hd)
  generalize hpc : c.pc j = pc at hknown hne hnode
  cases pc with
  | outside => trivial
  | find =>
    obtain ⟨rfl, he, hw⟩ := hknown
    refine ⟨rfl, he, ?_⟩
    rw [hchain _ (hne he rfl)]
    exact hw.congr hentry
  | addFind =>
    obtain ⟨rfl, he, hw⟩ := hknown
    refine ⟨rfl, he, ?_⟩
    rw [hchain _ (hne he rfl)]
    exact hw.congr hentry
  | insert e key addr a' w =>
    obtain ⟨rfl, he, hw⟩ := hknown
    refine ⟨rfl, he, ?_⟩
    have ha' : a' ≠ a := fun heq => hnode (heq ▸ rfl)
    rw [hchain _ (hne he rfl)]
    exact hw.congr (hs.addr a' ha') (hs.entry a' ha')
      (hs.links a' ha' ((h.node j a' (by rw [hpc]; rfl)).2 b)) hs.alloc
  | fault => exact hknown

theorem State.front_update (hpc : c'.pc = Function.update c.pc i q) (howner : c'.owner = c.owner)
    (hb : c.owner b ≠ some i) : c'.front b = c.front b ∧ c'.counted b = c.counted b := by
  unfold State.front State.counted
  rw [howner]
  cases ho : c.owner b with
  | none => exact ⟨rfl, rfl⟩
  | some j =>
    have hj : j ≠ i := fun hji => hb (hji ▸ ho)
    simp [hpc, hj]

/-- The chains of other buckets stay as they are. -/
theorem Sim.chained_of_spares (h : Sim S c chain s) (inv : Inv S.slots m s)
    (hown : c.owner b = some i) (hb : b < uthashNxform.initialNumBuckets)
    (hnot : ∀ b, a ∉ chain b) (hs : Spares c c' chain b a)
    (hpc : c'.pc = Function.update c.pc i q) (howner : c'.owner = c.owner) {b' : Nat}
    (hb' : b' < uthashNxform.initialNumBuckets) (hne : b' ≠ b) : Chained S c' b' (chain b') := by
  have hc := h.bucket b' hb'
  obtain ⟨hfront, hcounted⟩ := State.front_update hpc howner (h.owner_ne inv hown hne)
  have hda (d : α) (hd : d ∈ chain b') : d ≠ a := fun heq => hnot b' (heq ▸ hd)
  constructor
  · rw [hs.buckets b' hne]
    exact hc.head
  · rw [hs.buckets b' hne, hcounted]
    exact hc.count
  · rw [hfront]
    exact hc.linked.congr fun d hd => hs.links d (hda d hd) fun hdb =>
      hne (h.disjoint hb' hb hd hdb)
  · exact hc.nodup
  · intro d hd
    rw [hs.entry d (hda d hd)]
    exact hc.keyed d hd

/-- A step of a thread that holds the lock of `b` and works with the entry `a`. -/
theorem Sim.of_spares (h : Sim S c chain s) (inv : Inv S.slots m s) (hown : c.owner b = some i)
    (hb : b < uthashNxform.initialNumBuckets) (hnot : ∀ b, a ∉ chain b)
    (hothers : ∀ j, j ≠ i → (c.pc j).node ≠ some a) (hs : Spares c c' chain b a)
    (hpc : c'.pc = Function.update c.pc i q) (howner : c'.owner = c.owner)
    (hhead : c'.head = c.head) (hmem : s'.mem = c'.mem) (howner' : s'.owner = c'.owner)
    (hlog : s'.log = c'.log)
    (hphase : s'.phase = Function.update s.phase i q.phase)
    (hsize : c'.tbl.numBuckets = c.tbl.numBuckets)
    (htail : ∃ d, c'.tbl.tail = some d ∧ (c'.hh d).isSome = true)
    (hchain : ∀ b', b' ≠ b → chain' b' = chain b' ∧ s'.table b' = s.table b')
    (hnew : ∀ d, d ∈ chain' b ↔ d ∈ chain b ∨ d = a ∧ q.node = none)
    (hbucket : Chained S c' b (chain' b))
    (hentries : (chain' b).map (entryOf c') = (s'.table b).map some)
    (hknown : Local S c' chain' q)
    (hnode₀ : ∀ a', (c.pc i).node = some a' → a' = a)
    (hnode : ∀ a', q.node = some a' → a' = a ∧ (c'.hh a).isSome = true) :
    Sim S c' chain' s' := by
  have hphase' (j : Nat) : s'.phase j = (c'.pc j).phase := by
    rw [hphase, hpc]
    by_cases hj : j = i
    · rw [hj, Function.update_self, Function.update_self]
    · rw [Function.update_of_ne hj, Function.update_of_ne hj, h.phase]
  have hpc_self : c'.pc i = q := by rw [hpc, Function.update_self]
  have hpc_ne {j : Nat} (hj : j ≠ i) : c'.pc j = c.pc j := by rw [hpc, Function.update_of_ne hj]
  refine ⟨hmem, howner', hlog, hphase', hsize.trans h.size, htail, fun b' hb' => ?_, fun b' => ?_,
    fun j => ?_, fun j a' ha' => ?_, fun j j' a' hj hj' => ?_, ⟨?_, ?_⟩, fun d hd => ?_⟩
  · by_cases hne : b' = b
    · rw [hne]
      exact hbucket
    · rw [(hchain b' hne).1]
      exact h.chained_of_spares inv hown hb hnot hs hpc howner hb' hne
  · by_cases hne : b' = b
    · rw [hne]
      exact hentries
    · rw [(hchain b' hne).1, (hchain b' hne).2, ← h.entries b']
      exact List.map_congr_left fun d hd => hs.entry d fun heq => hnot b' (heq ▸ hd)
  · by_cases hj : j = i
    · rw [hj, hpc_self]
      exact hknown
    · rw [hpc_ne hj]
      exact h.known_of_spares inv hown hb hnot hs (fun b' hne => (hchain b' hne).1) hj (hothers j hj)
  · by_cases hj : j = i
    · rw [hj, hpc_self] at ha'
      obtain ⟨rfl, hsome⟩ := hnode a' ha'
      refine ⟨hsome, fun b' hmem' => ?_⟩
      by_cases hne : b' = b
      · rw [hne, hnew, ha'] at hmem'
        exact hmem'.elim (hnot b) fun hnone => by cases hnone.2
      · rw [(hchain b' hne).1] at hmem'
        exact hnot b' hmem'
    · rw [hpc_ne hj] at ha'
      obtain ⟨hsome, hout⟩ := h.node j a' ha'
      refine ⟨hs.alloc a' hsome, fun b' hmem' => ?_⟩
      by_cases hne : b' = b
      · rw [hne, hnew] at hmem'
        rcases hmem' with hold | ⟨rfl, -⟩
        · exact hout b hold
        · exact hothers j hj ha'
      · rw [(hchain b' hne).1] at hmem'
        exact hout b' hmem'
  · by_cases hji : j = i <;> by_cases hji' : j' = i
    · rw [hji, hji']
    · rw [hji, hpc_self] at hj
      obtain ⟨rfl, -⟩ := hnode a' hj
      rw [hpc_ne hji'] at hj'
      exact absurd hj' (hothers j' hji')
    · rw [hji', hpc_self] at hj'
      obtain ⟨rfl, -⟩ := hnode a' hj'
      rw [hpc_ne hji] at hj
      exact absurd hj (hothers j hji)
    · rw [hpc_ne hji] at hj
      rw [hpc_ne hji'] at hj'
      exact h.apart j j' a' hj hj'
  · rw [hhead]
    by_cases hne : S.bucket seed = b
    · rw [hne, hnew]
      exact .inl (hne ▸ h.head.1)
    · rw [(hchain _ hne).1]
      exact h.head.1
  · rw [hhead, hs.entry c.head fun heq => hnot _ (heq ▸ h.head.1)]
    exact h.head.2
  · by_cases hda : d = a
    · subst hda
      cases hq : q.node with
      | none => exact .inl ⟨b, hb, (hnew d).mpr (.inr ⟨rfl, hq⟩)⟩
      | some d' =>
        obtain ⟨rfl, -⟩ := hnode d' hq
        exact .inr ⟨i, hpc_self ▸ hq⟩
    · rw [← isSome_entryOf, hs.entry d hda, isSome_entryOf] at hd
      rcases h.alloc d hd with ⟨b', hb', hmem'⟩ | ⟨j, hj⟩
      · refine .inl ⟨b', hb', ?_⟩
        by_cases hne : b' = b
        · rw [hne, hnew]
          exact .inl (hne ▸ hmem')
        · rw [(hchain b' hne).1]
          exact hmem'
      · refine .inr ⟨j, ?_⟩
        rw [hpc_ne]
        · exact hj
        · rintro rfl
          exact hda (hnode₀ d hj)

end Frames

/-! ## Insertions -/

section Insertions

variable {e v : Ptr} {a : α} {w w' : Insert α} {c₁ : State α}

theorem Spares.of_handles {b : Nat} {hh : Heap α Ptr} (ha : (hh a).isSome = true)
    (hdata : ∀ d, d ≠ a → dataOf hh d = dataOf c.hh d)
    (hlinks : ∀ d, d ≠ a → d ∉ chain b → bktLinks hh d = bktLinks c.hh d) :
    Spares c { c with hh } chain b a where
  alloc d hd := by
    by_cases hda : d = a
    · exact hda ▸ ha
    · change (hh d).isSome = true
      rw [← hh.shape.isSome, hdata d hda, c.hh.shape.isSome]
      exact hd
  entry d hd := by
    unfold entryOf
    rw [hdata d hd]
  addr _ _ := rfl
  links := hlinks
  buckets _ _ := rfl

/-- An access of an insertion that does not end it. -/
theorem Sim.of_insert (h : Sim S c chain s) (inv : Inv S.slots m s)
    (hpc : c.pc i = .insert e e v a w) (hs : Spares c c₁ chain (S.bucket e) a)
    (hsame : c₁.mem = c.mem ∧ c₁.owner = c.owner ∧ c₁.pc = c.pc ∧ c₁.log = c.log ∧
      c₁.head = c.head ∧ c₁.tbl.numBuckets = c.tbl.numBuckets)
    (htail : ∃ d, c₁.tbl.tail = some d ∧ (c₁.hh d).isSome = true)
    (hhead : (c₁.tbl.buckets (S.bucket e)).hhHead = (chain (S.bucket e)).head?)
    (hcount : (c₁.tbl.buckets (S.bucket e)).count = (chain (S.bucket e)).length + w'.counted)
    (hlinked : Linked (bktLinks c₁.hh) (Pc.insert e e v a w').front (chain (S.bucket e)) none)
    (hknows : w'.Knows c₁ e v a (chain (S.bucket e))) :
    Sim S (c₁.goto i (.insert e e v a w')) chain s := by
  obtain ⟨hmem, howner, hpc₁, hlog, hhead₁, hsize⟩ := hsame
  have hknown := h.known i
  rw [hpc] at hknown
  obtain ⟨-, he, -⟩ := hknown
  have hown := h.locked (i := i) inv he (by rw [hpc]; rfl)
  obtain ⟨ha, hnot⟩ := h.node i a (by rw [hpc]; rfl)
  have hb := S.bucket_lt e
  have hc := h.bucket _ hb
  have hentry (d : α) (hd : d ∈ chain (S.bucket e)) : entryOf c₁ d = entryOf c d :=
    hs.entry d fun hda => hnot _ (hda ▸ hd)
  have hown₁ : (c₁.goto i (.insert e e v a w')).owner (S.bucket e) = some i := by
    rw [← hown]
    exact congrFun howner _
  refine h.of_spares (q := .insert e e v a w') inv hown hb hnot
    (fun j hj hja => hj (h.apart j i a hja (by rw [hpc]; rfl))) ⟨hs.alloc, hs.entry, hs.addr, hs.links, hs.buckets⟩
    (by rw [State.goto, hpc₁]) howner hhead₁ (h.mem.trans hmem.symm) (h.owner.trans howner.symm)
    (h.log.trans hlog.symm) ?_ hsize htail (fun b' _ => ⟨rfl, rfl⟩) (fun d => by simp [Pc.node]) ?_
    ?_ ⟨rfl, he, hknows.congr rfl rfl rfl fun _ => id⟩ (fun a' ha' => ?_) ?_
  · have hphase : (Pc.insert e e v a w').phase = s.phase i := by rw [h.phase, hpc]; rfl
    rw [hphase, Function.update_eq_self]
  · refine ⟨hhead, ?_, ?_, hc.nodup, fun d hd => ?_⟩
    · rw [State.counted, hown₁]
      simpa [State.goto, Pc.counted] using hcount
    · rw [State.front, hown₁]
      simpa [State.goto] using hlinked
    · obtain ⟨f, hf, hkey⟩ := hc.keyed d hd
      exact ⟨f, (hentry d hd).trans hf, hkey⟩
  · rw [← h.entries]
    exact List.map_congr_left hentry
  · rw [hpc] at ha'
    exact (Option.some.inj ha').symm
  · rintro a' ⟨⟩
    exact ⟨rfl, hs.alloc a ha⟩

theorem Spares.refl (b : Nat) : Spares c c chain b a :=
  ⟨fun _ => id, fun _ _ => rfl, fun _ _ => rfl, fun _ _ _ => rfl, fun _ _ => rfl⟩

/-- What holds in the bucket in which a thread inserts. -/
structure Inserting (S : Setting) (c : State α) (e v : Ptr) (a : α) (w : Insert α) (l : List α) :
    Prop where
  nonzero : e ≠ 0
  alloc : (c.hh a).isSome = true
  fresh : a ∉ l
  nodup : l.Nodup
  head : (c.tbl.buckets (S.bucket e)).hhHead = l.head?
  count : (c.tbl.buckets (S.bucket e)).count = l.length + w.counted
  linked : Linked (bktLinks c.hh) (Pc.insert e e v a w).front l none
  keyed : ∀ d ∈ l, ∃ f, entryOf c d = some f ∧ S.bucket f.key = S.bucket e
  knows : w.Knows c e v a l

theorem Sim.inserting (h : Sim S c chain s) (inv : Inv S.slots m s)
    (hpc : c.pc i = .insert e e v a w) : Inserting S c e v a w (chain (S.bucket e)) := by
  have hknown := h.known i
  rw [hpc] at hknown
  obtain ⟨-, he, hknows⟩ := hknown
  have hown := h.locked (i := i) inv he (by rw [hpc]; rfl)
  obtain ⟨ha, hnot⟩ := h.node i a (by rw [hpc]; rfl)
  have hc := h.bucket _ (S.bucket_lt e)
  have hcount := hc.count
  have hlinked := hc.linked
  rw [State.counted, hown] at hcount
  rw [State.front, hown] at hlinked
  simp only [Option.elim_some, Option.bind_some, hpc] at hcount hlinked
  exact ⟨he, ha, hnot _, hc.nodup, hc.head, hcount, hlinked, hc.keyed, hknows⟩

/-- The assignments of an insertion in the order of insertion. -/
theorem Sim.of_app (h : Sim S c chain s) (inv : Inv S.slots m s)
    (hpc : c.pc i = .insert e e v a w) {hh : Heap α Ptr} {A : Links α}
    (hs : hh.Shape A (bktLinks c.hh) (dataOf c.hh)) (hw : w'.counted = w.counted)
    (hfront : (Pc.insert e e v a w').front = (Pc.insert e e v a w).front)
    (hknows : w'.Knows { c with hh } e v a (chain (S.bucket e))) :
    Sim S (State.goto { c with hh } i (.insert e e v a w')) chain s := by
  have hi := h.inserting inv hpc
  have hsome (d : α) (hd : (c.hh d).isSome = true) : (hh d).isSome = true := by
    rw [← hs.isSome, c.hh.shape.isSome]
    exact hd
  refine h.of_insert inv hpc (.of_handles (hsome a hi.alloc) (fun d _ => by rw [hs.data])
    (fun d _ _ => by rw [hs.bkt])) ⟨rfl, rfl, rfl, rfl, rfl, rfl⟩ ?_ hi.head (hw ▸ hi.count) ?_ hknows
  · obtain ⟨d, hd, hd_some⟩ := h.tail
    exact ⟨d, hd, hsome d hd_some⟩
  · rw [hfront, hs.bkt]
    exact hi.linked

/-- The assignments of an insertion to the new entry itself. -/
theorem Sim.of_own (h : Sim S c chain s) (inv : Inv S.slots m s)
    (hpc : c.pc i = .insert e e v a w) {hh : Heap α Ptr} {A B : Links α}
    {D : α → Option (Ptr × Nat)} (hs : hh.Shape A B D)
    (hB : ∀ d, d ≠ a → B d = bktLinks c.hh d) (hD : ∀ d, d ≠ a → D d = dataOf c.hh d)
    (ha : (D a).isSome = true) (hw : w'.counted = w.counted)
    (hfront : (Pc.insert e e v a w').front = (Pc.insert e e v a w).front)
    (hknows : w'.Knows { c with hh } e v a (chain (S.bucket e))) :
    Sim S (State.goto { c with hh } i (.insert e e v a w')) chain s := by
  have hi := h.inserting inv hpc
  have ha' : (hh a).isSome = true := hs.isSome ▸ ha
  have hspares : Spares c { c with hh } chain (S.bucket e) a :=
    .of_handles ha' (fun d hd => by rw [hs.data, hD d hd])
      fun d hd _ => by rw [hs.bkt, hB d hd]
  refine h.of_insert inv hpc hspares ⟨rfl, rfl, rfl, rfl, rfl, rfl⟩ ?_ hi.head (hw ▸ hi.count) ?_ hknows
  · obtain ⟨d, hd, hd_some⟩ := h.tail
    exact ⟨d, hd, hspares.alloc d hd_some⟩
  · rw [hfront, hs.bkt]
    refine hi.linked.congr fun d hd => hB d ?_
    rintro rfl
    exact hi.fresh hd

/-- The last access of an insertion: the entry is in the chain from now on, as after the step of
`Mapping.visits`. -/
theorem Sim.link_step (h : Sim S c chain s) (inv : Inv S.slots m s)
    (hpc : c.pc i = .insert e e v a .hhHead) :
    Sim S ((setBucket S c e fun b => { b with hhHead := some a }).goto i (.outside (.unlock e)))
      (Function.update chain (S.bucket e) (a :: chain (S.bucket e)))
      (Mapping.State.goto { s with table := nxhashAdd S.bucket s.table e v } i (.unlock e)) := by
  have hi := h.inserting inv hpc
  have hown := h.locked (i := i) inv hi.nonzero (by rw [hpc]; rfl)
  obtain ⟨-, hnot⟩ := h.node i a (by rw [hpc]; rfl)
  obtain ⟨hentry, hlink⟩ := hi.knows
  have hown' : ((setBucket S c e fun b => { b with hhHead := some a }).goto i
      (.outside (.unlock e))).owner (S.bucket e) = some i := hown
  have hb := S.bucket_lt e
  refine h.of_spares (q := .outside (.unlock e)) (b := S.bucket e) inv hown hb hnot
    (fun j hj hja => hj (h.apart j i a hja (by rw [hpc]; rfl)))
    ⟨fun _ => id, fun _ _ => rfl, fun _ _ => rfl, fun _ _ _ => rfl, fun b' hb' => ?_⟩ rfl rfl rfl
    h.mem h.owner h.log rfl rfl h.tail (fun b' hb' => ⟨Function.update_of_ne hb' _ _,
      Function.update_of_ne hb' _ _⟩) ?_ ⟨?_, ?_, ?_, ?_, ?_⟩ ?_ trivial (fun a' ha' => ?_)
    (fun _ ha' => by cases ha')
  · rw [← h.bkt] at hb'
    exact Function.update_of_ne hb' _ _
  · intro d
    rw [Function.update_self, List.mem_cons, or_comm]
    exact or_congr_right (and_iff_left rfl).symm
  · simp [setBucket, State.goto, h.bkt]
  · rw [State.counted, hown', Function.update_self]
    simp [setBucket, State.goto, h.bkt, hi.count, Pc.counted, Insert.counted]
  · rw [State.front, hown', Function.update_self]
    have hnone : (((setBucket S c e fun b => { b with hhHead := some a }).goto i
        (.outside (.unlock e))).pc i).front = none := by
      rw [State.goto_pc_self]
      rfl
    rw [Option.bind_some, hnone, linked_cons]
    exact ⟨hlink.trans (by rw [Option.or_none]), hi.linked⟩
  · rw [Function.update_self]
    exact List.nodup_cons.mpr ⟨hi.fresh, hi.nodup⟩
  · rw [Function.update_self]
    rintro d hd
    rcases List.mem_cons.mp hd with rfl | hd
    · exact ⟨⟨e, v⟩, hentry, rfl⟩
    · exact hi.keyed d hd
  · rw [Function.update_self]
    change _ = (nxhashAdd S.bucket s.table e v (S.bucket e)).map some
    rw [nxhashAdd, Function.update_self, List.map_cons, List.map_cons, ← h.entries]
    exact congrArg₂ List.cons hentry rfl
  · rw [hpc] at ha'
    exact (Option.some.inj ha').symm

variable [DecidableEq α]

/-- An access of an insertion that does not end it succeeds, and `Mapping.visits` does nothing. -/
theorem Sim.insert_step (h : Sim S c chain s) (inv : Inv S.slots m s)
    (hpc : c.pc i = .insert e e v a w) (hw : w ≠ .hhHead) :
    ∃ c₁ w', insertAt S c e v a w = some (c₁, some w') ∧
      Sim S (c₁.goto i (.insert e e v a w')) chain s := by
  have hi := h.inserting inv hpc
  have hD : (dataOf c.hh a).isSome = true := c.hh.shape.isSome ▸ hi.alloc
  have hknows := hi.knows
  have stay {w' : Insert α} (hw' : w'.counted = w.counted)
      (hfront : (Pc.insert e e v a w').front = (Pc.insert e e v a w).front)
      (hknows : w'.Knows c e v a (chain (S.bucket e))) :
      Sim S (c.goto i (.insert e e v a w')) chain s :=
    h.of_app inv hpc c.hh.shape hw' hfront hknows
  cases w with
  | hhHead => exact absurd rfl hw
  | addr =>
    obtain ⟨hd, hd_a⟩ := Option.isSome_iff_exists.mp hi.alloc
    refine ⟨_, _, by rw [insertAt, hd_a, Option.map_some], ?_⟩
    refine h.of_insert inv hpc ⟨fun _ => id, fun d hd => ?_, fun d hd => ?_, fun _ _ _ => rfl,
      fun _ _ => rfl⟩ ⟨rfl, rfl, rfl, rfl, rfl, rfl⟩ h.tail hi.head hi.count hi.linked ?_
    · simp [entryOf, hd]
    · exact Function.update_of_ne hd _ _
    · exact Function.update_self ..
  | next =>
    obtain ⟨hh, he, hs⟩ := c.hh.shape.setNext (v := none) hD
    refine ⟨_, _, by rw [insertAt, withHandles, he]; rfl, ?_⟩
    exact h.of_app inv hpc hs rfl rfl hknows
  | key =>
    obtain ⟨hh, he, hs⟩ := c.hh.shape.setKey (k := e) hD
    refine ⟨_, _, by rw [insertAt, withHandles, he]; rfl, ?_⟩
    refine h.of_own inv hpc hs (fun _ _ => rfl) (fun d hd => Function.update_of_ne hd _ _)
      (by simp [hD]) rfl rfl ?_
    obtain ⟨k, hk⟩ := Option.isSome_iff_exists.mp hD
    have hv : c.addr a = v := hknows
    change entryOf _ a = _
    simp [entryOf, hs.data, hk, hv]
  | readTail =>
    exact ⟨c, _, rfl, stay rfl rfl ⟨hknows, h.tail⟩⟩
  | tailNext t =>
    obtain ⟨hentry, d, rfl, hd⟩ := hknows
    obtain ⟨hh, he, hs⟩ := c.hh.shape.setNext (v := some a) (c.hh.shape.isSome ▸ hd)
    refine ⟨_, _, by rw [insertAt, Option.bind_some, withHandles, he]; rfl, ?_⟩
    refine h.of_app inv hpc hs rfl rfl ?_
    change entryOf _ a = _
    rw [entryOf, hs.data]
    exact hentry
  | readTailAgain => exact ⟨c, _, rfl, stay rfl rfl ⟨hknows, h.tail⟩⟩
  | prev t =>
    obtain ⟨hentry, -⟩ := hknows
    obtain ⟨hh, he, hs⟩ := c.hh.shape.setPrev (v := t) hD
    refine ⟨_, _, by rw [insertAt, withHandles, he]; rfl, ?_⟩
    refine h.of_app inv hpc hs rfl rfl ?_
    change entryOf _ a = _
    rw [entryOf, hs.data]
    exact hentry
  | tail =>
    refine ⟨_, _, rfl, ?_⟩
    exact h.of_insert inv hpc ⟨fun _ => id, fun _ _ => rfl, fun _ _ => rfl, fun _ _ _ => rfl,
      fun _ _ => rfl⟩ ⟨rfl, rfl, rfl, rfl, rfl, rfl⟩ ⟨a, rfl, hi.alloc⟩ hi.head hi.count hi.linked hknows
  | readNumItems => exact ⟨c, _, rfl, stay rfl rfl hknows⟩
  | numItems n =>
    refine ⟨_, _, rfl, ?_⟩
    exact h.of_insert inv hpc ⟨fun _ => id, fun _ _ => rfl, fun _ _ => rfl, fun _ _ _ => rfl,
      fun _ _ => rfl⟩ ⟨rfl, rfl, rfl, rfl, rfl, rfl⟩ h.tail hi.head hi.count hi.linked hknows
  | hashv =>
    obtain ⟨hh, he, hs⟩ := c.hh.shape.setHashv (n := S.hash e) hD
    refine ⟨_, _, by rw [insertAt, withHandles, he]; rfl, ?_⟩
    refine h.of_own inv hpc hs (fun _ _ => rfl) (fun d hd => Function.update_of_ne hd _ _)
      (by simp [hD]) rfl rfl ?_
    obtain ⟨k, hk, hkey⟩ := Option.map_eq_some_iff.mp hknows
    change entryOf _ a = _
    rw [entryOf, hs.data, Function.update_self, hk]
    exact congrArg some hkey
  | readCount =>
    refine ⟨c, _, rfl, stay rfl rfl ⟨hknows, ?_⟩⟩
    rw [h.bkt]
    exact hi.count
  | count n =>
    obtain ⟨hentry, rfl⟩ := hknows
    refine ⟨_, _, rfl, ?_⟩
    refine h.of_insert inv hpc ⟨fun _ => id, fun _ _ => rfl, fun _ _ => rfl, fun _ _ _ => rfl,
      fun b hb => ?_⟩ ⟨rfl, rfl, rfl, rfl, rfl, rfl⟩ h.tail ?_ ?_ hi.linked hentry
    · rw [← h.bkt] at hb
      exact Function.update_of_ne hb _ _
    · simp [setBucket, h.bkt, hi.head]
    · simp [setBucket, h.bkt, Insert.counted]
  | readHhHead =>
    refine ⟨c, _, rfl, stay rfl rfl ⟨hknows, ?_⟩⟩
    rw [h.bkt]
    exact hi.head
  | hhNext o =>
    obtain ⟨hentry, rfl⟩ := hknows
    obtain ⟨hh, he, hs⟩ := c.hh.shape.setHhNext (v := (chain (S.bucket e)).head?) hD
    obtain ⟨k, hk⟩ := c.hh.shape.exists_bkt hD
    refine ⟨_, _, by rw [insertAt, withHandles, he]; rfl, ?_⟩
    refine h.of_own inv hpc hs (fun d hd => Links.setNext_of_ne hd) (fun _ _ => rfl) hD rfl rfl ?_
    refine ⟨?_, k.prev, ?_⟩
    · rw [entryOf, hs.data]
      exact hentry
    · rw [hs.bkt, Links.setNext_self, hk]
      rfl
  | hhPrev =>
    obtain ⟨hentry, p, hlink⟩ := hknows
    obtain ⟨hh, he, hs⟩ := c.hh.shape.setHhPrev (v := none) hD
    refine ⟨_, _, by rw [insertAt, withHandles, he]; rfl, ?_⟩
    refine h.of_own inv hpc hs (fun d hd => Links.setPrev_of_ne hd) (fun _ _ => rfl) hD rfl rfl ?_
    refine ⟨?_, ?_⟩
    · rw [entryOf, hs.data]
      exact hentry
    · rw [hs.bkt, Links.setPrev_self, hlink]
      rfl
  | readHhHeadAgain =>
    rw [insertAt, h.bkt, hi.head]
    cases hl : (chain (S.bucket e)).head? with
    | none =>
      refine ⟨c, _, rfl, ?_⟩
      have hnil : chain (S.bucket e) = [] := List.head?_eq_none_iff.mp hl
      refine h.of_insert inv hpc (.refl _) ⟨rfl, rfl, rfl, rfl, rfl, rfl⟩ h.tail hi.head hi.count ?_
        hknows
      rw [hnil]
      trivial
    | some d => exact ⟨c, _, rfl, stay rfl rfl ⟨hknows.1, hknows.2, hl⟩⟩
  | headHhPrev d =>
    obtain ⟨hentry, hlink, hl⟩ := hknows
    have hmem := List.mem_of_head? hl
    obtain ⟨f, hf, -⟩ := hi.keyed d hmem
    have hda : d ≠ a := fun heq => hi.fresh (heq ▸ hmem)
    obtain ⟨hh, he, hs⟩ := c.hh.shape.setHhPrev (v := some a)
      (c.hh.shape.isSome ▸ isSome_of_entryOf hf)
    refine ⟨_, _, by rw [insertAt, withHandles, he]; rfl, ?_⟩
    have hsome (d : α) (hd : (c.hh d).isSome = true) : (hh d).isSome = true := by
      rw [← hs.isSome, c.hh.shape.isSome]
      exact hd
    refine h.of_insert inv hpc (.of_handles (hsome a hi.alloc) (fun d _ => by rw [hs.data])
      fun d' _ hd' => ?_) ⟨rfl, rfl, rfl, rfl, rfl, rfl⟩ ?_ hi.head hi.count ?_ ?_
    · rw [hs.bkt]
      refine Links.setPrev_of_ne ?_
      rintro rfl
      exact hd' hmem
    · obtain ⟨t, ht, ht_some⟩ := h.tail
      exact ⟨t, ht, hsome t ht_some⟩
    · rw [hs.bkt]
      have := hi.linked.setPrev_head (v := some a) hi.nodup
      rwa [hl] at this
    · refine ⟨?_, ?_⟩
      · rw [entryOf, hs.data]
        exact hentry
      · rw [hs.bkt, Links.setPrev_of_ne hda.symm]
        exact hlink

end Insertions

/-! ## Searches -/

section Searches

variable {e : Ptr} {w : Search α}

/-- The chain of a bucket has the entries of the list. -/
theorem Sim.find_of_chain (h : Sim S c chain s) (he : e ≠ 0) {l₁ l₂ : List α} {d : α} {f : Entry}
    (hl : chain (S.bucket e) = l₁ ++ d :: l₂)
    (hne : ∀ b ∈ l₁, ∀ f, entryOf c b = some f → f.key ≠ e) (hd : entryOf c d = some f)
    (hkey : f.key = e) : findMapping S.bucket s.table e = c.addr d := by
  have hmap := h.entries (S.bucket e)
  rw [hl, List.map_append, List.map_cons] at hmap
  obtain ⟨t₁, t₂, ht, hmap₁, hmap₂⟩ := List.map_eq_append_iff.mp hmap.symm
  obtain ⟨g, t₂, rfl, hg, -⟩ := List.map_eq_cons_iff.mp hmap₂
  obtain rfl : g = f := by rw [hd] at hg; exact Option.some.inj hg
  have hnone : t₁.find? (fun g => g.key == e) = none := by
    rw [List.find?_eq_none]
    intro g' hg'
    have hmem : some g' ∈ l₁.map (entryOf c) := hmap₁ ▸ List.mem_map_of_mem hg'
    obtain ⟨b, hb, hbg⟩ := List.mem_map.mp hmem
    simpa using hne b hb g' hbg
  rw [findMapping, if_neg he, ht, List.find?_append, hnone, Option.none_or,
    List.find?_cons_of_pos (by simpa using hkey)]
  obtain ⟨k, -, hk⟩ := Option.map_eq_some_iff.mp hd
  exact (congrArg Entry.addr hk).symm

theorem Sim.find_of_none (h : Sim S c chain s)
    (hne : ∀ b ∈ chain (S.bucket e), ∀ f, entryOf c b = some f → f.key ≠ e) :
    findMapping S.bucket s.table e = 0 := by
  unfold findMapping
  split
  · rfl
  · have hnone : (s.table (S.bucket e)).find? (fun g => g.key == e) = none := by
      rw [List.find?_eq_none]
      intro g hg
      have hmem : some g ∈ (chain (S.bucket e)).map (entryOf c) :=
        h.entries (S.bucket e) ▸ List.mem_map_of_mem hg
      obtain ⟨b, hb, hbg⟩ := List.mem_map.mp hmem
      simpa using hne b hb g hbg
    rw [hnone]

/-- An access of a search succeeds; the result of the search is that of `Mapping.visits`. -/
theorem Sim.search_step (h : Sim S c chain s) (he : e ≠ 0)
    (hw : w.Knows c e (chain (S.bucket e))) :
    (∃ w', searchAt S c e w = some (.inl w') ∧ w'.Knows c e (chain (S.bucket e))) ∨
      searchAt S c e w = some (.inr (findMapping S.bucket s.table e)) := by
  have hc := h.bucket _ (S.bucket_lt e)
  have hentry {d : α} (hd : d ∈ chain (S.bucket e)) :
      ∃ k, c.hh d = some k ∧ entryOf c d = some ⟨k.key, c.addr d⟩ := by
    obtain ⟨f, hf, -⟩ := hc.keyed d hd
    obtain ⟨k, hk⟩ := Option.isSome_iff_exists.mp (isSome_of_entryOf hf)
    exact ⟨k, hk, by rw [entryOf, dataOf, hk]; rfl⟩
  cases w with
  | hhHead =>
    rw [searchAt, h.bkt, hc.head]
    cases hl : chain (S.bucket e) with
    | nil =>
      right
      rw [h.find_of_none (by simp [hl])]
      rfl
    | cons d l => exact .inl ⟨_, rfl, [], l, rfl, by simp⟩
  | key d =>
    obtain ⟨l₁, l₂, hl, hne⟩ := hw
    obtain ⟨k, hk, hd⟩ := hentry (d := d) (by simp [hl])
    left
    rw [searchAt, hk, Option.map_some]
    by_cases hkey : k.key = e
    · refine ⟨.addr d, by rw [if_pos hkey], l₁, l₂, hl, hne, fun f hf => ?_⟩
      rw [← Option.some.inj (hd.symm.trans hf)]
      exact hkey
    · refine ⟨.hhNext d, by rw [if_neg hkey], l₁, l₂, hl, fun b hb f hf => ?_⟩
      rcases List.mem_append.mp hb with hb | hb
      · exact hne b hb f hf
      · obtain rfl := List.mem_singleton.mp hb
        rw [← Option.some.inj (hd.symm.trans hf)]
        exact hkey
  | hhNext d =>
    obtain ⟨l₁, l₂, hl, hne⟩ := hw
    obtain ⟨k, hk, -⟩ := hentry (d := d) (by simp [hl])
    have hlinks := (hl ▸ hc.linked).links
    rw [bktLinks, hk, Option.map_some, Option.some.injEq, Link.mk.injEq, Option.or_none] at hlinks
    rw [searchAt, hk, Option.map_some, hlinks.2]
    cases l₂ with
    | nil =>
      right
      rw [h.find_of_none (by rw [hl]; exact hne)]
      rfl
    | cons d' l₂ =>
      refine .inl ⟨_, rfl, l₁ ++ [d], l₂, ?_, hne⟩
      rw [hl, List.append_assoc]
      rfl
  | addr d =>
    obtain ⟨l₁, l₂, hl, hne, hkey⟩ := hw
    obtain ⟨k, hk, hd⟩ := hentry (d := d) (by simp [hl])
    right
    rw [searchAt, hk, Option.map_some, h.find_of_chain he hl hne hd (hkey _ hd)]

end Searches

end CStrider.Mapping.Accesses
