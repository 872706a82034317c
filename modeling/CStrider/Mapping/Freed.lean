import CStrider.Mapping.Refined

/-!
# Freeing the mapping table

When a traversal is complete, each thread frees a share of the buckets
(`FREE_ALL_MALLOCED_ENTRIES`), with no lock and in any order of steps. It goes by the links in the
buckets, because the order of insertion may be broken. A thread that reads or frees what is not
allocated is at `fault`, with one exception: the macro reads `head->hh.tbl` in every round, and
`head` is one of the entries that it frees. The model lets these reads find the table after that,
as memory that has not been given out again would, and counts them in `stale`. Nobody frees the
table struct and the array of buckets, which `NXHASH_MAKE_TABLE` has allocated.
-/

namespace CStrider.Mapping.Freeing

open Uthash

/-- Where a thread is; `i` is the bucket. -/
inductive Pc (α : Type) where
  /-- the condition of the `for` loop -/
  | test (i : Nat)
  /-- `buckets[i].hh_head` -/
  | bucket (i : Nat)
  /-- the `while` loop: `tmp = out`, and the next `out` -/
  | walk (i : Nat) (out : Option α)
  | free (i : Nat) (tmp : α) (out : Option α)
  /-- `free(mutexes[i])` -/
  | mutex (i : Nat)
  | done
  | fault
  deriving DecidableEq, Repr

/-- The shared state. `mutexes`, `table` and `buckets` say which locks, and whether `tbl` and
`tbl->buckets`, are allocated; `freed` and `stale` are not in the program. -/
structure State (α : Type) where
  hh : Heap α Ptr
  mutexes : Nat → Bool
  table : Bool
  buckets : Bool
  pc : Nat → Pc α
  freed : List α
  stale : List Nat

variable {α : Type}

def State.goto (s : State α) (t : Nat) (pc : Pc α) : State α :=
  { s with pc := Function.update s.pc t pc }

section Step

variable (tbl : Uthash.Table α) (head : α) (share : Nat)

/-- Thread `t` reads `head->hh.tbl`. -/
def State.readHead (s : State α) (t : Nat) : State α :=
  if (s.hh head).isSome then s else { s with stale := t :: s.stale }

/-- The first bucket of thread `t`. -/
def first (t : Nat) : Nat := t * (tbl.numBuckets / share)

/-- The end of the share of thread `t`. -/
def last (t : Nat) : Nat := tbl.numBuckets / share * (t + 1)

variable [DecidableEq α]

def stepAt (t : Nat) (s : State α) : Pc α → Option (State α)
  | .test i =>
    if s.table then
      some ((s.readHead head t).goto t (if i < last tbl share t then .bucket i else .done))
    else some (s.goto t .fault)
  | .bucket i =>
    if s.table && s.buckets then
      some ((s.readHead head t).goto t (.walk i (tbl.buckets i).hhHead))
    else some (s.goto t .fault)
  | .walk i none => some (s.goto t (.mutex i))
  | .walk i (some a) =>
    match s.hh a with
    | none => some (s.goto t .fault)
    | some h =>
      if h.hhNext.isNone then some (s.goto t (.free i a none))
      -- `ELMT_FROM_HH` reads `hho` of the table
      else if s.table then some ((s.readHead head t).goto t (.free i a h.hhNext))
      else some (s.goto t .fault)
  | .free i a out =>
    match s.hh a with
    | none => some (s.goto t .fault)
    | some _ =>
      some ({ s with hh := Function.update s.hh a none, freed := a :: s.freed }.goto t (.walk i out))
  | .mutex i =>
    if s.mutexes i then
      some ({ s with mutexes := Function.update s.mutexes i false }.goto t (.test (i + 1)))
    else some (s.goto t .fault)
  | .done | .fault => none

def step (t : Nat) (s : State α) : Option (State α) :=
  if t < share then stepAt tbl head share t s (s.pc t) else none

omit [DecidableEq α] in
/-- The table is as `NXHASH_MAKE_TABLE` has allocated it, with a lock for each bucket. -/
def initial (hh : Heap α Ptr) : State α where
  hh := hh
  mutexes i := decide (i < tbl.numBuckets)
  table := true
  buckets := true
  pc t := .test (first tbl share t)
  freed := []
  stale := []

/-- `FREE_ALL_MALLOCED_ENTRIES` in `share` threads, from the memory `hh`. -/
def freeing (hh : Heap α Ptr) : Sys (State α) Nat where
  init s := s = initial tbl share hh
  step := step tbl head share

end Step

/-! ## What each thread has done -/

/-- The buckets that `n` threads may share: the chains are apart, and nothing else is allocated. -/
structure Intact (tbl : Uthash.Table α) (hh : Heap α Ptr) (chain : Nat → List α) : Prop where
  holds : ∀ b < tbl.numBuckets, (tbl.buckets b).Holds (bktLinks hh) (chain b)
  nodup : ∀ b < tbl.numBuckets, (chain b).Nodup
  disjoint : ∀ b < tbl.numBuckets, ∀ b' < tbl.numBuckets, ∀ d, d ∈ chain b → d ∈ chain b' → b = b'
  alloc : ∀ d, (hh d).isSome = true → ∃ b < tbl.numBuckets, d ∈ chain b

section Invariant

variable (tbl : Uthash.Table α) (head : α) (share : Nat) (hh : Heap α Ptr)
  (chain : Nat → List α)

/-- The buckets of thread `t` before `i` are done, and those from `j` on are as they were. -/
structure Reached (s : State α) (rest : Nat → List α) (t i j : Nat) : Prop where
  first_le : first tbl share t ≤ i
  before : ∀ b, first tbl share t ≤ b → b < i → rest b = [] ∧ s.mutexes b = false
  after : ∀ b, j ≤ b → b < last tbl share t → rest b = chain b ∧ s.mutexes b = true

def Working (s : State α) (rest : Nat → List α) (t : Nat) : Pc α → Prop
  | .test i => Reached tbl share chain s rest t i i ∧ i ≤ last tbl share t
  | .bucket i => Reached tbl share chain s rest t i i ∧ i < last tbl share t
  | .walk i out => Reached tbl share chain s rest t i (i + 1) ∧ i < last tbl share t ∧
      s.mutexes i = true ∧ out = (rest i).head?
  | .free i a out => Reached tbl share chain s rest t i (i + 1) ∧ i < last tbl share t ∧
      s.mutexes i = true ∧ ∃ l, rest i = a :: l ∧ out = l.head?
  | .mutex i => Reached tbl share chain s rest t i (i + 1) ∧ i < last tbl share t ∧
      s.mutexes i = true ∧ rest i = []
  | .done => Reached tbl share chain s rest t (last tbl share t) (last tbl share t) ∧
      ∀ b, first tbl share t ≤ b → b < last tbl share t → head ∈ chain b → t ∈ s.stale
  | .fault => False

/-- `rest` is what is left of the chains. -/
structure Inv (s : State α) (rest : Nat → List α) : Prop where
  suffix : ∀ b < tbl.numBuckets, rest b <:+ chain b
  kept : ∀ b < tbl.numBuckets, ∀ d ∈ rest b, s.hh d = hh d
  alloc : ∀ d, (s.hh d).isSome = true → ∃ b < tbl.numBuckets, d ∈ rest b
  nodup : s.freed.Nodup
  freed : ∀ d, (hh d).isSome = true ↔ (s.hh d).isSome = true ∨ d ∈ s.freed
  apart : ∀ d ∈ s.freed, s.hh d = none
  table : s.table = true ∧ s.buckets = true
  working : ∀ t < share, Working tbl head share chain s rest t (s.pc t)

/-- The steps that a thread has yet to make, but for those in the chains; its share ends before
`n`. -/
def Pc.ahead (n : Nat) : Pc α → Nat
  | .test i => 4 * (n - i) + 1
  | .bucket i => 4 * (n - i)
  | .walk i _ => 4 * (n - (i + 1)) + 3
  | .free i _ _ | .mutex i => 4 * (n - (i + 1)) + 2
  | .done | .fault => 0

/-- The steps that all threads have yet to make. -/
def ahead (s : State α) (rest : Nat → List α) : Nat :=
  2 * ∑ b ∈ Finset.range tbl.numBuckets, (rest b).length +
    ∑ t ∈ Finset.range share, (s.pc t).ahead (last tbl share t)

end Invariant

variable {tbl : Uthash.Table α} {head : α} {share : Nat} {hh : Heap α Ptr}
  {chain rest rest' : Nat → List α} {s s' : State α} {t i : Nat} {q : Pc α}

/-! ## Shares -/

theorem last_le (ht : t < share) : last tbl share t ≤ tbl.numBuckets :=
  (Nat.mul_le_mul_left _ ht).trans (Nat.div_mul_le_self _ _)

theorem div_eq_of_mem {b : Nat} (h₁ : first tbl share t ≤ b) (h₂ : b < last tbl share t) :
    b / (tbl.numBuckets / share) = t := by
  rw [last, Nat.mul_comm] at h₂
  exact Nat.div_eq_of_lt_le h₁ h₂

/-- Every bucket is in a share. -/
theorem exists_share (hsize : share ∣ tbl.numBuckets) {b : Nat} (hb : b < tbl.numBuckets) :
    ∃ t < share, first tbl share t ≤ b ∧ b < last tbl share t := by
  obtain ⟨q, hq⟩ := hsize
  have hpos : 0 < share := by
    rcases Nat.eq_zero_or_pos share with rfl | hpos
    · rw [hq, Nat.zero_mul] at hb
      exact absurd hb (Nat.not_lt_zero b)
    · exact hpos
  have hdiv : tbl.numBuckets / share = q := by rw [hq, Nat.mul_div_cancel_left q hpos]
  have hb' : b < q * share := by rwa [hq, Nat.mul_comm] at hb
  have hqpos : 0 < q := Nat.pos_of_lt_mul_right hb'
  refine ⟨b / q, Nat.div_lt_of_lt_mul hb', ?_, ?_⟩
  · rw [first, hdiv]
    exact Nat.div_mul_le_self b q
  · rw [last, hdiv]
    exact Nat.lt_mul_div_succ b hqpos

/-! ## What other threads do -/

theorem Reached.congr {j : Nat} (h : Reached tbl share chain s rest t i j)
    (hi : i ≤ last tbl share t) (hj : i ≤ j)
    (hshare : ∀ b, first tbl share t ≤ b → b < last tbl share t →
      rest' b = rest b ∧ s'.mutexes b = s.mutexes b) : Reached tbl share chain s' rest' t i j where
  first_le := h.first_le
  before b hb hbi := by
    obtain ⟨hr, hm⟩ := hshare b hb (hbi.trans_le hi)
    rw [hr, hm]
    exact h.before b hb hbi
  after b hb hbl := by
    obtain ⟨hr, hm⟩ := hshare b (h.first_le.trans (hj.trans hb)) hbl
    rw [hr, hm]
    exact h.after b hb hbl

theorem Working.congr (h : Working tbl head share chain s rest t q)
    (hshare : ∀ b, first tbl share t ≤ b → b < last tbl share t →
      rest' b = rest b ∧ s'.mutexes b = s.mutexes b)
    (hstale : ∀ u ∈ s.stale, u ∈ s'.stale) : Working tbl head share chain s' rest' t q := by
  cases q with
  | test i => exact ⟨h.1.congr h.2 le_rfl hshare, h.2⟩
  | bucket i => exact ⟨h.1.congr h.2.le le_rfl hshare, h.2⟩
  | walk i out =>
    obtain ⟨hr, hi, hm, hout⟩ := h
    obtain ⟨hrest, hmutex⟩ := hshare i hr.first_le hi
    exact ⟨hr.congr hi.le (Nat.le_succ i) hshare, hi, hmutex ▸ hm, hrest ▸ hout⟩
  | free i a out =>
    obtain ⟨hr, hi, hm, hout⟩ := h
    obtain ⟨hrest, hmutex⟩ := hshare i hr.first_le hi
    exact ⟨hr.congr hi.le (Nat.le_succ i) hshare, hi, hmutex ▸ hm, hrest ▸ hout⟩
  | mutex i =>
    obtain ⟨hr, hi, hm, hout⟩ := h
    obtain ⟨hrest, hmutex⟩ := hshare i hr.first_le hi
    exact ⟨hr.congr hi.le (Nat.le_succ i) hshare, hi, hmutex ▸ hm, hrest ▸ hout⟩
  | done =>
    exact ⟨h.1.congr le_rfl le_rfl hshare, fun b hb hbl hmem => hstale t (h.2 b hb hbl hmem)⟩
  | fault => exact h

/-- Threads work in buckets of their own. -/
theorem Inv.others (h : Inv tbl head share hh chain s rest)
    (hpc : s'.pc = Function.update s.pc t q)
    (hshare : ∀ b, ¬ (first tbl share t ≤ b ∧ b < last tbl share t) →
      rest' b = rest b ∧ s'.mutexes b = s.mutexes b)
    (hstale : ∀ u ∈ s.stale, u ∈ s'.stale) (hw : Working tbl head share chain s' rest' t q) :
    ∀ u < share, Working tbl head share chain s' rest' u (s'.pc u) := by
  intro u hu
  rw [hpc]
  by_cases hut : u = t
  · rw [hut, Function.update_self]
    exact hw
  · rw [Function.update_of_ne hut]
    refine (h.working u hu).congr (fun b hb hbl => hshare b fun hb' => hut ?_) hstale
    exact (div_eq_of_mem hb hbl).symm.trans (div_eq_of_mem hb'.1 hb'.2)

/-- A step that frees nothing. -/
theorem Inv.quiet (h : Inv tbl head share hh chain s rest) (hhh : s'.hh = s.hh)
    (hfreed : s'.freed = s.freed) (hmutexes : s'.mutexes = s.mutexes)
    (htable : s'.table = s.table ∧ s'.buckets = s.buckets)
    (hstale : ∀ u ∈ s.stale, u ∈ s'.stale) (hpc : s'.pc = Function.update s.pc t q)
    (hw : Working tbl head share chain s' rest t q) :
    Inv tbl head share hh chain s' rest where
  suffix := h.suffix
  kept b hb d hd := by
    rw [hhh]
    exact h.kept b hb d hd
  alloc d hd := h.alloc d (hhh ▸ hd)
  nodup := hfreed ▸ h.nodup
  freed d := by
    rw [hhh, hfreed]
    exact h.freed d
  apart d hd := by
    rw [hhh]
    exact h.apart d (hfreed ▸ hd)
  table := by
    rw [htable.1, htable.2]
    exact h.table
  working := h.others hpc (fun b _ => ⟨rfl, by rw [hmutexes]⟩) hstale hw

theorem ahead_of_pc (ht : t < share) (hpc : s'.pc = Function.update s.pc t q)
    (hq : q.ahead (last tbl share t) < (s.pc t).ahead (last tbl share t)) :
    ahead tbl share s' rest < ahead tbl share s rest := by
  have hsum := sum_update (fun t (p : Pc α) => p.ahead (last tbl share t)) s.pc
    (Finset.mem_range.mpr ht) q
  rw [ahead, ahead, hpc]
  omega

theorem State.readHead_eq (s : State α) (head : α) (t : Nat) :
    (s.readHead head t).hh = s.hh ∧ (s.readHead head t).freed = s.freed ∧
      (s.readHead head t).mutexes = s.mutexes ∧
      ((s.readHead head t).table = s.table ∧ (s.readHead head t).buckets = s.buckets) ∧
      (s.readHead head t).pc = s.pc ∧ ∀ u ∈ s.stale, u ∈ (s.readHead head t).stale := by
  unfold State.readHead
  split
  · exact ⟨rfl, rfl, rfl, ⟨rfl, rfl⟩, rfl, fun _ => id⟩
  · exact ⟨rfl, rfl, rfl, ⟨rfl, rfl⟩, rfl, fun _ => List.mem_cons_of_mem t⟩

variable [DecidableEq α]

omit [DecidableEq α] in
theorem ahead_of_free (ht : t < share) (hi : i < tbl.numBuckets) {a : α} {out : Option α}
    {l : List α} (hpc : s.pc t = .free i a out) (hpc' : s'.pc = Function.update s.pc t (.walk i out))
    (hl : rest i = a :: l) :
    ahead tbl share s' (Function.update rest i l) < ahead tbl share s rest := by
  have hsum := sum_update (fun t (p : Pc α) => p.ahead (last tbl share t)) s.pc
    (Finset.mem_range.mpr ht) (.walk i out)
  have hrest := sum_update (fun _ (l : List α) => l.length) rest (Finset.mem_range.mpr hi) l
  rw [hpc, Pc.ahead, Pc.ahead] at hsum
  rw [hl, List.length_cons] at hrest
  rw [ahead, ahead, hpc']
  omega

/-- An entry is freed. -/
theorem Inv.free_step (h : Inv tbl head share hh chain s rest) (hI : Intact tbl hh chain)
    (ht : t < share) {a : α} {out : Option α} {l : List α} (hpc : s.pc t = .free i a out)
    (hl : rest i = a :: l) :
    Inv tbl head share hh chain ({ s with
      hh := Function.update s.hh a none
      freed := a :: s.freed }.goto t (.walk i out)) (Function.update rest i l) := by
  have hw := h.working t ht
  rw [hpc] at hw
  obtain ⟨hr, hi, hm, l', hl', hout⟩ := hw
  obtain rfl : l' = l := (List.cons.inj (hl'.symm.trans hl)).2
  have hin : i < tbl.numBuckets := hi.trans_le (last_le ht)
  have hsuffix := h.suffix i hin
  rw [hl] at hsuffix
  have hnodup : (a :: l').Nodup := (hI.nodup i hin).sublist hsuffix.sublist
  obtain ⟨hnot, -⟩ := List.nodup_cons.mp hnodup
  have hachain : a ∈ chain i := hsuffix.subset List.mem_cons_self
  have hrest (b : Nat) (hb : b < tbl.numBuckets) (d : α) :
      d ∈ Function.update rest i l' b ↔ d ∈ rest b ∧ d ≠ a := by
    by_cases hbi : b = i
    · subst hbi
      rw [Function.update_self, hl, List.mem_cons]
      refine ⟨fun hd => ⟨.inr hd, ?_⟩, fun ⟨hd, hne⟩ => hd.resolve_left hne⟩
      rintro rfl
      exact hnot hd
    · rw [Function.update_of_ne hbi]
      refine ⟨fun hd => ⟨hd, ?_⟩, And.left⟩
      rintro rfl
      exact hbi (hI.disjoint b hb i hin d ((h.suffix b hb).subset hd) hachain)
  have hasome : (s.hh a).isSome = true := by
    rw [h.kept i hin a (hl ▸ List.mem_cons_self), ← Option.isSome_map]
    exact (hI.holds i hin).linked.isSome hachain
  constructor
  · intro b hb
    by_cases hbi : b = i
    · subst hbi
      rw [Function.update_self]
      exact (List.suffix_cons a l').trans hsuffix
    · rw [Function.update_of_ne hbi]
      exact h.suffix b hb
  · intro b hb d hd
    obtain ⟨hd, hda⟩ := (hrest b hb d).mp hd
    exact (Function.update_of_ne hda _ _).trans (h.kept b hb d hd)
  · intro d hd
    by_cases hda : d = a
    · subst hda
      simp [State.goto] at hd
    · obtain ⟨b, hb, hdb⟩ := h.alloc d (by simpa [State.goto, hda] using hd)
      exact ⟨b, hb, (hrest b hb d).mpr ⟨hdb, hda⟩⟩
  · refine List.nodup_cons.mpr ⟨fun hmem => ?_, h.nodup⟩
    rw [h.apart a hmem] at hasome
    cases hasome
  · intro d
    rw [h.freed d]
    by_cases hda : d = a
    · subst hda
      simp [State.goto, hasome]
    · simp [State.goto, hda]
  · intro d hd
    by_cases hda : d = a
    · subst hda
      exact Function.update_self ..
    · refine (Function.update_of_ne hda _ _).trans (h.apart d ?_)
      exact (List.mem_cons.mp hd).resolve_left hda
  · exact h.table
  · refine h.others (t := t) rfl (fun b hb => ⟨Function.update_of_ne ?_ _ _, rfl⟩) (fun _ => id)
      ⟨⟨hr.first_le, fun b hb hbi => ?_, fun b hb hbl => ?_⟩, hi, hm, ?_⟩
    · rintro rfl
      exact hb ⟨hr.first_le, hi⟩
    · rw [Function.update_of_ne hbi.ne]
      exact hr.before b hb hbi
    · rw [Function.update_of_ne (Nat.lt_of_succ_le hb).ne']
      exact hr.after b hb hbl
    · rw [Function.update_self]
      exact hout

omit [DecidableEq α] in
/-- The lock of an empty bucket is destroyed. -/
theorem Inv.mutex_step (h : Inv tbl head share hh chain s rest) (ht : t < share)
    (hpc : s.pc t = .mutex i) :
    Inv tbl head share hh chain ({ s with
      mutexes := Function.update s.mutexes i false }.goto t (.test (i + 1))) rest := by
  have hw := h.working t ht
  rw [hpc] at hw
  obtain ⟨hr, hi, hm, hnil⟩ := hw
  refine ⟨h.suffix, h.kept, h.alloc, h.nodup, h.freed, h.apart, h.table, h.others (t := t) rfl
    (fun b hb => ⟨rfl, Function.update_of_ne ?_ _ _⟩) (fun _ => id)
    ⟨⟨Nat.le_succ_of_le hr.first_le, fun b hb hbi => ?_, fun b hb hbl => ?_⟩, hi⟩⟩
  · rintro rfl
    exact hb ⟨hr.first_le, hi⟩
  · rcases Nat.lt_succ_iff_lt_or_eq.mp hbi with hbi | rfl
    · obtain ⟨hrest, hmutex⟩ := hr.before b hb hbi
      exact ⟨hrest, (Function.update_of_ne hbi.ne _ _).trans hmutex⟩
    · exact ⟨hnil, Function.update_self ..⟩
  · obtain ⟨hrest, hmutex⟩ := hr.after b hb hbl
    exact ⟨hrest, (Function.update_of_ne (Nat.lt_of_succ_le hb).ne' _ _).trans hmutex⟩

omit [DecidableEq α] in
/-- Who is through with the bucket of the head has freed it, and reads it once more. -/
theorem Inv.stale_step (h : Inv tbl head share hh chain s rest) (hI : Intact tbl hh chain)
    (ht : t < share) {j : Nat} (hr : Reached tbl share chain s rest t (last tbl share t) j) {b : Nat}
    (hb : first tbl share t ≤ b) (hbl : b < last tbl share t) (hmem : head ∈ chain b) :
    t ∈ (s.readHead head t).stale := by
  have hnone : ¬ (s.hh head).isSome = true := by
    intro hsome
    obtain ⟨b', hb', hmem'⟩ := h.alloc head hsome
    obtain rfl := hI.disjoint b' hb' b (hbl.trans_le (last_le ht)) head
      ((h.suffix b' hb').subset hmem') hmem
    rw [(hr.before b' hb hbl).1] at hmem'
    cases hmem'
  have hread : s.readHead head t = { s with stale := t :: s.stale } := if_neg hnone
  rw [hread]
  exact List.mem_cons_self

theorem Inv.step (h : Inv tbl head share hh chain s rest) (hI : Intact tbl hh chain)
    (hst : Freeing.step tbl head share t s = some s') :
    ∃ rest', Inv tbl head share hh chain s' rest' ∧
      ahead tbl share s' rest' < ahead tbl share s rest := by
  unfold Freeing.step at hst
  split at hst
  swap
  · cases hst
  next ht =>
  have hw := h.working t ht
  obtain ⟨hhh, hfreed, hmutexes, htable, hpc', hstale⟩ := s.readHead_eq head t
  obtain ⟨htbl, hbuckets⟩ := h.table
  cases hpc : s.pc t with
  | test i =>
    rw [hpc] at hst hw
    rw [stepAt, if_pos htbl] at hst
    obtain rfl := Option.some.inj hst
    obtain ⟨hr, hi⟩ := hw
    have hgoto (q : Pc α) : ((s.readHead head t).goto t q).pc = Function.update s.pc t q := by
      rw [State.goto, hpc']
    have hsame (b : Nat) (_ : first tbl share t ≤ b) (_ : b < last tbl share t) :
        rest b = rest b ∧ (s.readHead head t).mutexes b = s.mutexes b := ⟨rfl, by rw [hmutexes]⟩
    split
    · next hlt =>
      have hw' : Working tbl head share chain s rest t (.bucket i) := ⟨hr, hlt⟩
      refine ⟨rest, h.quiet hhh hfreed hmutexes htable hstale (hgoto _) (hw'.congr hsame hstale),
        ahead_of_pc ht (hgoto _) ?_⟩
      rw [hpc, Pc.ahead, Pc.ahead]
      exact Nat.lt_succ_self _
    · next hlt =>
      obtain rfl : i = last tbl share t := Nat.le_antisymm hi (Nat.le_of_not_lt hlt)
      refine ⟨rest, h.quiet hhh hfreed hmutexes htable hstale (hgoto _)
        ⟨hr.congr le_rfl le_rfl hsame, fun _ => h.stale_step hI ht hr⟩, ahead_of_pc ht (hgoto _) ?_⟩
      rw [hpc, Pc.ahead, Pc.ahead]
      exact Nat.succ_pos _
  | bucket i =>
    rw [hpc] at hst hw
    rw [stepAt, htbl, hbuckets, Bool.and_self, if_pos rfl] at hst
    obtain rfl := Option.some.inj hst
    obtain ⟨hr, hi⟩ := hw
    obtain ⟨hrest, hm⟩ := hr.after i le_rfl hi
    have hw' : Working tbl head share chain s rest t (.walk i (tbl.buckets i).hhHead) := by
      refine ⟨⟨hr.first_le, hr.before, fun b hb => hr.after b (Nat.le_of_succ_le hb)⟩, hi, hm, ?_⟩
      rw [(hI.holds i (hi.trans_le (last_le ht))).head, hrest]
    have hgoto : ((s.readHead head t).goto t (.walk i (tbl.buckets i).hhHead)).pc =
        Function.update s.pc t (.walk i (tbl.buckets i).hhHead) := by
      rw [State.goto, hpc']
    refine ⟨rest, h.quiet hhh hfreed hmutexes htable hstale hgoto
      (hw'.congr (fun _ _ _ => ⟨rfl, congrFun hmutexes _⟩) hstale), ahead_of_pc ht hgoto ?_⟩
    rw [hpc, Pc.ahead, Pc.ahead]
    omega
  | walk i out =>
    rw [hpc] at hst hw
    obtain ⟨hr, hi, hm, rfl⟩ := hw
    cases hl : rest i with
    | nil =>
      rw [hl] at hst hpc
      obtain rfl := Option.some.inj hst
      refine ⟨rest, h.quiet (t := t) rfl rfl rfl ⟨rfl, rfl⟩ (fun _ => id) rfl
        (q := .mutex i) ⟨⟨hr.first_le, hr.before, hr.after⟩, hi, hm, hl⟩, ahead_of_pc ht rfl ?_⟩
      rw [hpc, Pc.ahead, Pc.ahead]
      exact Nat.lt_succ_self _
    | cons a l =>
      have hin : i < tbl.numBuckets := hi.trans_le (last_le ht)
      obtain ⟨pre, hpre⟩ := h.suffix i hin
      rw [hl] at hpre
      have hlinks := (hpre ▸ (hI.holds i hin).linked).links
      rw [bktLinks, ← h.kept i hin a (hl ▸ List.mem_cons_self)] at hlinks
      obtain ⟨k, hk, hlink⟩ := Option.map_eq_some_iff.mp hlinks
      have hnext : k.hhNext = l.head? := by simpa using congrArg Link.next hlink
      have hw' : Working tbl head share chain s rest t (.free i a l.head?) :=
        ⟨hr, hi, hm, l, hl, rfl⟩
      have hlt : (Pc.free i a l.head?).ahead (last tbl share t) <
          (s.pc t).ahead (last tbl share t) := by
        rw [hpc, Pc.ahead, Pc.ahead]
        exact Nat.lt_succ_self _
      rw [hl, List.head?_cons, stepAt, hk] at hst
      dsimp only at hst
      rw [hnext, if_pos htbl] at hst
      split at hst
      · next hnone =>
        obtain rfl := Option.some.inj hst
        rw [Option.isNone_iff_eq_none.mp hnone] at hw' hlt
        exact ⟨rest, h.quiet rfl rfl rfl ⟨rfl, rfl⟩ (fun _ => id) rfl
          (hw'.congr (fun _ _ _ => ⟨rfl, rfl⟩) fun _ => id), ahead_of_pc ht rfl hlt⟩
      · obtain rfl := Option.some.inj hst
        have hgoto : ((s.readHead head t).goto t (.free i a l.head?)).pc =
            Function.update s.pc t (.free i a l.head?) := by
          rw [State.goto, hpc']
        exact ⟨rest, h.quiet hhh hfreed hmutexes htable hstale hgoto
          (hw'.congr (fun _ _ _ => ⟨rfl, congrFun hmutexes _⟩) hstale), ahead_of_pc ht hgoto hlt⟩
  | free i a out =>
    rw [hpc] at hst hw
    obtain ⟨hr, hi, hm, l, hl, hout⟩ := hw
    rw [stepAt] at hst
    have hin : i < tbl.numBuckets := hi.trans_le (last_le ht)
    have hsome : (s.hh a).isSome = true := by
      rw [h.kept i hin a (hl ▸ List.mem_cons_self), ← Option.isSome_map]
      exact (hI.holds i hin).linked.isSome ((h.suffix i hin).subset (hl ▸ List.mem_cons_self))
    obtain ⟨k, hk⟩ := Option.isSome_iff_exists.mp hsome
    rw [hk] at hst
    obtain rfl := Option.some.inj hst
    exact ⟨_, h.free_step hI ht hpc hl, ahead_of_free ht hin hpc rfl hl⟩
  | mutex i =>
    rw [hpc] at hst hw
    obtain ⟨hr, hi, hm, hnil⟩ := hw
    rw [stepAt, if_pos hm] at hst
    obtain rfl := Option.some.inj hst
    have hlt : (Pc.test (i + 1) : Pc α).ahead (last tbl share t) <
        (s.pc t).ahead (last tbl share t) := by
      rw [hpc, Pc.ahead, Pc.ahead]
      exact Nat.lt_succ_self _
    exact ⟨rest, h.mutex_step ht hpc, ahead_of_pc ht rfl hlt⟩
  | done =>
    rw [hpc] at hst
    cases hst
  | fault =>
    rw [hpc] at hst
    cases hst

/-! ## Results -/

section Results

variable {S : Accesses.Setting} {m : Ptr → Ptr} {c : Accesses.State α}

omit [DecidableEq α] in
/-- When no lock is held, the traversal leaves a table that can be shared out. -/
theorem intact_of_sim {chain : Nat → List α} {u : Mapping.State} (h : Accesses.Sim S c chain u)
    (inv : Mapping.Inv S.slots m u) (hfree : ∀ b, c.owner b = none) :
    Intact c.tbl c.hh chain where
  holds b hb := by
    have hc := h.bucket b (h.size ▸ hb)
    have hcount := hc.count
    have hlinked := hc.linked
    rw [Accesses.State.counted, hfree] at hcount
    rw [Accesses.State.front, hfree] at hlinked
    exact ⟨hc.head, hcount, hlinked⟩
  nodup b hb := (h.bucket b (h.size ▸ hb)).nodup
  disjoint b hb b' hb' d hd hd' := h.disjoint (h.size ▸ hb) (h.size ▸ hb') hd hd'
  alloc d hd := by
    rcases h.alloc d hd with ⟨b, hb, hdb⟩ | ⟨i, hi⟩
    · exact ⟨b, h.size ▸ hb, hdb⟩
    · -- a thread that makes an entry holds a lock
      have hknown := h.known i
      cases hpc : c.pc i with
      | insert e k v a w =>
        rw [hpc] at hknown
        have hown := h.locked inv hknown.2.1 (i := i) (by rw [hpc]; rfl)
        rw [hfree] at hown
        cases hown
      | outside | find | addFind | fault =>
        rw [hpc] at hi
        cases hi

omit [DecidableEq α] in
theorem Inv.initial (hI : Intact tbl hh chain) :
    Inv tbl head share hh chain (initial tbl share hh) chain where
  suffix _ _ := List.suffix_refl _
  kept _ _ _ _ := rfl
  alloc := hI.alloc
  nodup := List.nodup_nil
  freed d := by simp [Freeing.initial]
  apart _ hd := by cases hd
  table := ⟨rfl, rfl⟩
  working t ht := by
    refine ⟨⟨le_rfl, fun b hb hbi => absurd hbi (Nat.not_lt.mpr hb), fun b _ hbl => ⟨rfl, ?_⟩⟩, ?_⟩
    · exact decide_eq_true (hbl.trans_le (last_le ht))
    · rw [first, last, Nat.mul_comm, Nat.mul_succ]
      exact Nat.le_add_right _ _

theorem Inv.reach (hI : Intact tbl hh chain) (hs : (freeing tbl head share hh).Reach s) :
    ∃ rest, Inv tbl head share hh chain s rest := by
  induction hs with
  | init hinit =>
    subst hinit
    exact ⟨chain, Inv.initial hI⟩
  | step t _ hst ih =>
    obtain ⟨rest, h⟩ := ih
    obtain ⟨rest', h', -⟩ := h.step hI hst
    exact ⟨rest', h'⟩

/-- A thread that is not at its end can go on. -/
theorem step_isSome (ht : t < share) (hdone : s.pc t ≠ .done) (hfault : s.pc t ≠ .fault) :
    (step tbl head share t s).isSome = true := by
  rw [step, if_pos ht]
  cases hpc : s.pc t with
  | test i | bucket i | mutex i =>
    rw [stepAt]
    split <;> rfl
  | walk i out =>
    cases out with
    | none => rfl
    | some a =>
      rw [stepAt]
      split
      · rfl
      · split
        · rfl
        · split <;> rfl
  | free i a out =>
    rw [stepAt]
    split <;> rfl
  | done => exact absurd hpc hdone
  | fault => exact absurd hpc hfault

/-- However the threads have gone on, they can come to their ends. -/
theorem Inv.exists_done (hI : Intact tbl hh chain) (h : Inv tbl head share hh chain s rest) :
    ∃ s', (freeing tbl head share hh).Later s s' ∧ ∀ t < share, s'.pc t = .done := by
  induction hn : ahead tbl share s rest using Nat.strong_induction_on generalizing s rest with
  | _ n ih =>
    by_cases hdone : ∀ t < share, s.pc t = .done
    · exact ⟨s, Sys.Later.refl s, hdone⟩
    · push Not at hdone
      obtain ⟨t, ht, hne⟩ := hdone
      have hfault : s.pc t ≠ .fault := by
        intro hfault
        have hw := h.working t ht
        rw [hfault] at hw
        exact hw
      have hsome : (Freeing.step tbl head share t s).isSome = true := step_isSome ht hne hfault
      obtain ⟨s₁, hst⟩ := Option.isSome_iff_exists.mp hsome
      obtain ⟨rest₁, h₁, hlt⟩ := h.step hI hst
      obtain ⟨s', hlater, hend⟩ := ih _ (hn ▸ hlt) h₁ rfl
      exact ⟨s', Relation.ReflTransGen.head ⟨t, hst⟩ hlater, hend⟩

/-- In every run one of the threads reads `head->hh.tbl` after the entry `head` has been freed: the
one that has the bucket of `head` in its share, before it ends. -/
theorem head_read_freed (hS : S.slots.Separate m) (hc : (Accesses.accesses S m).Reach c)
    (hfree : ∀ b, c.owner b = none) (hshare : share ∣ uthashNxform.initialNumBuckets) :
    ∃ t < share, ∀ s, (freeing c.tbl c.head share c.hh).Reach s → s.pc t = .done → t ∈ s.stale := by
  obtain ⟨u, chain, hu, hsim⟩ := Accesses.Sim.reach hS hc
  have hI := intact_of_sim hsim (Mapping.Inv.reach hS hu) hfree
  have hb : S.bucket seed < c.tbl.numBuckets := hsim.size ▸ S.bucket_lt seed
  obtain ⟨t, ht, hfirst, hlast⟩ := exists_share (hsim.size ▸ hshare) hb
  refine ⟨t, ht, fun s hs hdone => ?_⟩
  obtain ⟨rest, h⟩ := Inv.reach hI hs
  have hw := h.working t ht
  rw [hdone] at hw
  exact hw.2 _ hfirst hlast hsim.head.1

/-! ## After a traversal of two threads -/

/-- The visits of `raceSetting`, with a hash that puts the entries into the shares of different
threads. -/
def spread : Accesses.Setting := { Accesses.raceSetting with hash := fun p => 9000 * p }

theorem spread_separate : spread.slots.Separate Accesses.raceMem :=
  ⟨Accesses.raceSetting_separate.paired, Accesses.raceSetting_separate.inPlace,
    Accesses.raceSetting_separate.uniform, rfl⟩

theorem four_dvd : 4 ∣ uthashNxform.initialNumBuckets := by decide

/-- The two threads add an entry each, and race for the order of insertion. -/
theorem spread_lost : ∃ c, (Accesses.accesses spread Accesses.raceMem).Reach c ∧
    Accesses.Lost c ∧ ∀ b, c.owner b = none := by
  obtain ⟨c, hc, hlost⟩ : ∃ c, (Accesses.accesses spread Accesses.raceMem).ReachBy
      (fun l _ => l.thread < 2) c ∧ Accesses.Lost c :=
    Sys.exists_reachBy (Accesses.start_initial spread Accesses.raceMem)
      (show (Sys.runBy _ _ Accesses.raceRun _).any _ = true by decide +kernel)
  have hothers : ∀ i, 2 ≤ i → c.pc i = .outside .idle := by
    refine hc.invariant (I := fun c => ∀ i, 2 ≤ i → c.pc i = .outside .idle)
      (fun (hinit : Accesses.Initial spread Accesses.raceMem _) i _ => hinit.2.2.2.1 i) ?_
    intro _ _ _ h hl hst i hi
    rw [Accesses.pc_of_step hst (hl.trans_le hi).ne']
    exact h i hi
  have hidle (i : Nat) : c.pc i = .outside .idle := by
    match i with
    | 0 => exact hlost.1
    | 1 => exact hlost.2.1
    | i + 2 => exact hothers (i + 2) (Nat.le_add_left 2 i)
  refine ⟨c, hc.reach, hlost, fun b => ?_⟩
  obtain ⟨u, chain, hu, hsim⟩ := Accesses.Sim.reach spread_separate hc.reach
  rw [← hsim.owner, Option.eq_none_iff_forall_ne_some]
  intro i hi
  have hheld := ((Mapping.Inv.reach spread_separate hu).owned b i).mp hi
  rw [hsim.phase, hidle] at hheld
  cases hheld

/-- A complete run. -/
theorem spread_complete {c : Accesses.State Nat}
    (hc : (Accesses.accesses spread Accesses.raceMem).Reach c) (hfree : ∀ b, c.owner b = none) :
    ∃ s, (freeing c.tbl c.head 4 c.hh).Reach s ∧ ∀ t < 4, s.pc t = .done := by
  obtain ⟨u, chain, hu, hsim⟩ := Accesses.Sim.reach spread_separate hc
  have hI := intact_of_sim hsim (Mapping.Inv.reach spread_separate hu) hfree
  have h : Inv c.tbl c.head 4 c.hh chain (initial c.tbl 4 c.hh) chain := .initial hI
  obtain ⟨s, hs, hdone⟩ := h.exists_done hI
  exact ⟨s, Sys.Reach.later (.init rfl) hs, hdone⟩

/-- In each of these runs a thread reads through the freed `head`; there are such runs. -/
theorem head_read_freed_spread : ∃ c, (Accesses.accesses spread Accesses.raceMem).Reach c ∧
    Accesses.Lost c ∧ ∃ t < 4,
      (∀ s, (freeing c.tbl c.head 4 c.hh).Reach s → s.pc t = .done → t ∈ s.stale) ∧
      ∃ s, (freeing c.tbl c.head 4 c.hh).Reach s ∧ (∀ u < 4, s.pc u = .done) ∧ t ∈ s.stale := by
  obtain ⟨c, hc, hlost, hfree⟩ := spread_lost
  obtain ⟨t, ht, hstale⟩ := head_read_freed spread_separate hc hfree four_dvd
  obtain ⟨s, hs, hdone⟩ := spread_complete hc hfree
  exact ⟨c, hc, hlost, t, ht, hstale, s, hs, hdone, hstale s hs (hdone t ht)⟩

end Results

end CStrider.Mapping.Freeing
