import CStrider.Traversal.Calls
import CStrider.Traversal.Ends

/-!
# Complete traversals

The locations below the roots are the least set that is closed under following a pointer, stepping
over the elements of an array and entering a struct. A traversal with callbacks that have
everything copied gives each of them the callback of its kind, as long as pointers with one value
have one target type: of two that differ, the one that is met later is not followed.
-/

namespace CStrider.Traversal

open Mapping (Ptr)
open CStrider.Types (Typ Entry)

/-- The typed locations that can be reached from the roots. -/
inductive Reaches (E : Env) (heap : Ptr → Option Ptr) (roots : List Root) : Ptr → Typ → Prop
  | root {r : Root} : r ∈ roots → Reaches E heap roots r.a r.t
  | deref {a p : Ptr} {t : Typ} {te : Entry} : Reaches E heap roots a t → E.kind t = .ptr te →
      memoizedIsFunptr te = false → heap a = some p → p ≠ 0 → Reaches E heap roots p te.targetType
  | elem {a : Ptr} {t : Typ} {te : Entry} {i : Nat} : Reaches E heap roots a t →
      E.kind t = .array te → i < numArrayElems te →
      Reaches E heap roots (a + i * getSize te) te.arrbase
  | field {a : Ptr} {t u : Typ} {te : Entry} {n : Nat} {c : FieldVisit} :
      Reaches E heap roots a t → E.kind t = .struct te → te.func = .generated n → c ∈ E.body n t →
      c.type heap a = some u → Reaches E heap roots (a + c.inOff) u

/-- The memories that hold the heap. -/
def Holds (heap m : Ptr → Option Ptr) : Prop := ∀ a p, heap a = some p → m a = some p

/-- The reachable locations have a type of the table and are locations of objects of the heap, and
the lengths that the types of fields depend on are in the heap. -/
structure WellTyped (E : Env) (heap : Ptr → Option Ptr) (roots : List Root) : Prop where
  known : ∀ {a t}, Reaches E heap roots a t → E.kind t ≠ .missing
  nonNull : ∀ {a t}, Reaches E heap roots a t → a ≠ 0
  slot : ∀ {a t te}, Reaches E heap roots a t → E.kind t = .ptr te → ∃ p, heap a = some p
  field : ∀ {a t te n c}, Reaches E heap roots a t → E.kind t = .struct te →
    te.func = .generated n → c ∈ E.body n t →
    ∃ u, ∀ m, Holds heap m → c.type m a = some u

/-- Pointers with one value have one target type, or are function pointers. -/
def OneTargetType (E : Env) (heap : Ptr → Option Ptr) (roots : List Root) : Prop :=
  ∀ {a b t u te ue p}, Reaches E heap roots a t → Reaches E heap roots b u →
    E.kind t = .ptr te → E.kind u = .ptr ue → heap a = some p → heap b = some p → p ≠ 0 →
    memoizedIsFunptr te = memoizedIsFunptr ue ∧
      (memoizedIsFunptr te = false → te.targetType = ue.targetType)

/-- Callbacks that ask for every struct and every pointer but NULL to be followed, and store `*in`
into `*out`. -/
structure Copies {σ : Type} (cb : Callbacks σ) : Prop where
  struct : ∀ a t x w, (cb.perfactionStruct a t x w).1 = 1
  ptr : ∀ {a t x w p}, w.mem a = some p →
    (cb.perfactionPtr a t x w).1 = (if p = 0 then 0 else 1) ∧
      (cb.perfactionPtr a t x w).2.mem a = some p ∧
      ∀ q, (cb.perfactionPtr a t x w).2.mem x = some q → q = p

/-- A session that leaves the heap unchanged, and stays within mapped memory. -/
structure Intact {σ : Type} (E : Env) (cb : Callbacks σ) (heap : Ptr → Option Ptr) (w : World σ)
    (roots : List Root) : Prop where
  unchanged : ∀ {s}, (session E cb w roots).Reach s → Holds heap s.world.mem
  safe : ∀ {s}, (session E cb w roots).Reach s → s.status ≠ .crashed

namespace Program

variable {P : Program} {heap : Ptr → Option Ptr} {roots : List Root} {n y : Node} {a : Ptr}
  {t : Typ}

/-! ## The worklist of a complete traversal -/

/-- The answer of the callbacks. -/
def follow (P : Program) (heap : Ptr → Option Ptr) : Node → Bool
  | .visit a t =>
    match P.kind t with
    | .ptr _ => heap a ≠ some 0
    | _ => true
  | _ => true

/-- What a node leads to. -/
def leads (P : Program) (heap : Ptr → Option Ptr) (n : Node) : Multiset Node :=
  P.succ heap (P.follow heap n) n

/-- The memories in which a complete traversal takes a node. -/
def Whole (P : Program) (heap m : Ptr → Option Ptr) (n : Node) : Prop :=
  Holds heap m ∧ ∀ a t te, n = .visit a t → P.kind t = .ptr te → ∃ p, heap a = some p

abbrev Below (P : Program) (heap : Ptr → Option Ptr) (roots : List Root) : Node → Prop :=
  Worklist.Reach (P.leads heap) (start roots)

/-- A reachable location is visited. -/
theorem below_of_reaches (hw : WellTyped P.toEnv heap roots)
    (h : Reaches P.toEnv heap roots a t) : P.Below heap roots (.visit a t) := by
  induction h with
  | @root r hr => exact .start (Multiset.mem_coe.mpr (List.mem_map.mpr ⟨r, hr, rfl⟩))
  | @deref a p t te hr hk hf hp hp0 ih =>
    refine .next ih ?_
    simp [leads, follow, Env.succ, hk, hf, hp, hp0, hw.nonNull hr]
  | @elem a t te i hr hk hi ih =>
    refine .next ih ?_
    simp only [leads, Env.succ, hk, Env.elems]
    exact Multiset.mem_coe.mpr (List.mem_map.mpr ⟨i, List.mem_range.mpr hi, rfl⟩)
  | @field a t u te n c hr hk hf hc hu ih =>
    have task : P.Below heap roots (.task a t) := by
      refine .next ih ?_
      simp [leads, follow, Env.succ, hk, hw.nonNull hr]
    have stmt : P.Below heap roots (.stmt t c a) := by
      refine .next task ?_
      simp only [leads, Env.succ, hk, hf]
      exact Multiset.mem_coe.mpr (List.mem_map.mpr ⟨c, hc, rfl⟩)
    refine .next stmt ?_
    simp [leads, Env.succ, hu]

theorem reaches_next (hn : Reaches P.toEnv heap roots n.loc.1 n.loc.2) (hv : P.Valid n)
    (hy : y ∈ P.leads heap n) : Reaches P.toEnv heap roots y.loc.1 y.loc.2 ∧ P.Valid y := by
  unfold leads at hy
  cases n with
  | visit a t =>
    cases hk : P.kind t with
    | system => simp [Env.succ, hk] at hy
    | prim => simp [Env.succ, hk] at hy
    | missing => simp [Env.succ, hk] at hy
    | ptr te =>
      simp only [Env.succ, hk, follow] at hy
      split at hy
      · exact absurd hy (Multiset.notMem_zero y)
      next hgo =>
      cases hp : heap a with
      | none =>
        rw [hp] at hy
        exact absurd hy (Multiset.notMem_zero y)
      | some p =>
        simp only [hp] at hy
        obtain rfl := Multiset.mem_singleton.mp hy
        simp only [hp, not_or, decide_eq_false_iff_not, not_not, Option.some.injEq] at hgo
        exact ⟨.deref hn hk (by simpa using hgo.2.2) hp hgo.2.1, trivial⟩
    | array te =>
      simp only [Env.succ, hk, Env.elems] at hy
      obtain ⟨i, hi, rfl⟩ := List.mem_map.mp (Multiset.mem_coe.mp hy)
      exact ⟨.elem hn hk (List.mem_range.mp hi), trivial⟩
    | struct te =>
      simp only [Env.succ, hk] at hy
      split at hy
      · exact absurd hy (Multiset.notMem_zero y)
      · obtain rfl := Multiset.mem_singleton.mp hy
        exact ⟨hn, te, hk⟩
  | stmt gen c a =>
    obtain ⟨te, k, hk, hf, hc⟩ := hv
    simp only [Env.succ] at hy
    cases ht : c.type heap a with
    | none =>
      rw [ht] at hy
      exact absurd hy (Multiset.notMem_zero y)
    | some u =>
      rw [ht] at hy
      obtain rfl := Multiset.mem_singleton.mp hy
      exact ⟨.field hn hk hf hc ht, trivial⟩
  | task a t =>
    obtain ⟨te, hk⟩ := hv
    simp only [Env.succ, hk] at hy
    cases hf : te.func with
    | transformPrim =>
      rw [hf] at hy
      obtain rfl := Multiset.mem_singleton.mp hy
      exact ⟨hn, trivial⟩
    | transformFptr =>
      rw [hf] at hy
      obtain rfl := Multiset.mem_singleton.mp hy
      exact ⟨hn, trivial⟩
    | generated k =>
      rw [hf] at hy
      obtain ⟨c, hc, rfl⟩ := List.mem_map.mp (Multiset.mem_coe.mp hy)
      exact ⟨hn, te, k, hk, hf, hc⟩

/-- What is taken is at a reachable location. -/
theorem reaches_of_below (h : P.Below heap roots n) :
    Reaches P.toEnv heap roots n.loc.1 n.loc.2 ∧ P.Valid n := by
  induction h with
  | start hn =>
    obtain ⟨r, hr, rfl⟩ := List.mem_map.mp (Multiset.mem_coe.mp hn)
    exact ⟨.root hr, trivial⟩
  | next _ hy ih => exact reaches_next ih.1 ih.2 hy

/-! ## The traversal is complete -/

section Session

variable {σ : Type} {cb : Callbacks σ} {w : World σ} {s s' : State σ}
  {v : Worklist.State Node Ptr}

/-- The worklist of the session. -/
abbrev whole (P : Program) (heap : Ptr → Option Ptr) : Worklist Node Ptr :=
  P.worklist heap (P.Whole heap) fun a t go => go = P.follow heap (.visit a t)

theorem conforms_of_copies (h : Copies cb) :
    Conforms P.toEnv cb heap (P.Whole heap) fun a t go => go = P.follow heap (.visit a t) where
  reads := by
    intro m a t te p hnow hk hm
    obtain ⟨q, hq⟩ := hnow.2 a t te rfl hk
    rw [hq, ← hm, hnow.1 a q hq]
  ptr_in := by
    intro a t x w te hnow hk
    obtain ⟨q, hq⟩ := hnow.2 a t te rfl hk
    have hw := hnow.1 a q hq
    rw [(h.ptr hw).2.1, hw]
  ptr_out := by
    intro a t x w te p _ _ hp hp0 hx
    exact hp0 ((h.ptr hp).2.2 0 hx).symm
  any a t := ⟨_, rfl⟩
  ptr := by
    intro a t x w te p hnow hk hp
    obtain ⟨q, hq⟩ := hnow.2 a t te rfl hk
    obtain rfl : q = p := Option.some.inj ((hnow.1 a q hq).symm.trans hp)
    rw [(h.ptr hp).1]
    by_cases hq0 : q = 0
    · simp [follow, hk, hq, hq0]
    · simp [follow, hk, hq, hq0]
  struct := by
    intro a t x w te hk
    simp [h.struct, follow, hk]

/-- In a memory that holds the heap a reachable node leads to what it leads to in the heap. -/
theorem next_whole (hw : WellTyped P.toEnv heap roots) {l : Multiset Node}
    (hn : P.Below heap roots n) (hl : (P.whole heap).next n l) : l = P.leads heap n := by
  obtain ⟨hreach, hv⟩ := reaches_of_below hn
  obtain ⟨_, m, go, ⟨hold, hslot⟩, hans, rfl⟩ := hl
  unfold leads
  cases n with
  | visit a t =>
    have hreach : Reaches P.toEnv heap roots a t := hreach
    rw [hans a t rfl]
    cases hk : P.kind t with
    | system => simp only [Env.succ, hk]
    | prim => simp only [Env.succ, hk]
    | missing => simp only [Env.succ, hk]
    | ptr te =>
      obtain ⟨p, hp⟩ := hw.slot hreach hk
      simp only [Env.succ, hk, hp, hold a p hp]
    | array te => simp only [Env.succ, hk]
    | struct te => simp only [Env.succ, hk]
  | stmt gen c a =>
    have hreach : Reaches P.toEnv heap roots a gen := hreach
    obtain ⟨te, k, hk, hf, hc⟩ := hv
    obtain ⟨u, hu⟩ := hw.field hreach hk hf hc
    simp only [Env.succ, hu m hold, hu heap fun _ _ h => h]
  | task a t => rfl

theorem oneTarget_whole (hone : OneTargetType P.toEnv heap roots) :
    (P.whole heap).OneTarget (P.leads heap) (start roots) := by
  intro n n' k hn hn' hkey hkey'
  obtain ⟨a, t, te, rfl, hk, ha, hp, hp0⟩ := ptr_of_key hkey
  obtain ⟨b, u, ue, rfl, hk', hb, hp', _⟩ := ptr_of_key hkey'
  obtain ⟨hf, htarget⟩ := hone (reaches_of_below hn).1 (reaches_of_below hn').1 hk hk' hp hp' hp0
  simp only [leads, follow, Env.succ, hk, hk', hp, hp', ha, hb, ← hf]
  by_cases hfun : memoizedIsFunptr te = true
  · simp [hfun]
  · rw [Bool.not_eq_true] at hfun
    simp [hfun, htarget hfun]

/-- What is pending can be reached. -/
def AllBelow (P : Program) (heap : Ptr → Option Ptr) (roots : List Root)
    (v : Worklist.State Node Ptr) : Prop := ∀ n ∈ v.pending, P.Below heap roots n

theorem allBelow_step (hw : WellTyped P.toEnv heap roots) {v' : Worklist.State Node Ptr}
    (h : P.AllBelow heap roots v) (hv : (P.whole heap).Step v v') : P.AllBelow heap roots v' :=
  hv.pending (fun _ _ hn hl _ hy => .next hn (next_whole hw hn hl ▸ hy)) h

theorem whole_of_tracks (hw : WellTyped P.toEnv heap roots) {I : Worklist.State Node Ptr → Prop}
    (hI : ∀ {v}, I v → P.AllBelow heap roots v)
    (hold : ∀ {s}, (session P.toEnv cb w roots).Reach s → Holds heap s.world.mem)
    (h : Tracks P cb w roots I s v) (hn : s.nextNode = some n) : P.Whole heap s.world.mem n := by
  refine ⟨hold h.reach, ?_⟩
  rintro a t te rfl hk
  exact hw.slot (reaches_of_below (hI h.inv _ (mem_pending h.follows hn))).1 hk

/-- Every reachable location is visited by a session that has finished. -/
theorem received_of_reaches (hcb : Copies cb) (hw : WellTyped P.toEnv heap roots)
    (hone : OneTargetType P.toEnv heap roots) (hi : Intact P.toEnv cb heap w roots)
    (hs : (session P.toEnv cb w roots).Reach s) (hfin : s.Finished)
    (h : Reaches P.toEnv heap roots a t) : Received P.toEnv s.log a t := by
  obtain ⟨hrun, hstack, hqueue⟩ := hfin
  obtain ⟨v, hv⟩ := tracks_of_reach (conforms_of_copies hcb)
    (whole_of_tracks hw (fun h n hn => h.reach n (.inr hn)) hi.unchanged)
    (fun h => h.step (oneTarget_whole hone) fun _ _ => next_whole hw) Worklist.closed_start hs hrun
  have hpending : v.pending = 0 := by
    rw [hv.follows.pending, hstack, (Ring.contents_eq_nil _).mpr hqueue]
    rfl
  have seen := hv.inv.seen_of_reach hpending (below_of_reaches hw h)
  have visited : (a, t) ∈ (s.visits : Multiset (Ptr × Typ)) := by
    rw [← hv.follows.seen]
    exact (Multiset.mem_filterMap _ _).mpr ⟨_, seen, rfl⟩
  exact received_of_visited hs (by simp [hrun]) (a, t) visited

/-- Where no reachable type is stuck, the session comes to an end. -/
theorem halts_of_copies (hfin : {a | heap a ≠ none}.Finite) (hcb : Copies cb)
    (hw : WellTyped P.toEnv heap roots) (hi : Intact P.toEnv cb heap w roots)
    (hstuck : ∀ {a t}, Reaches P.toEnv heap roots a t → ¬ P.Stuck t) :
    (session P.toEnv cb w roots).Halts (initial w roots) := by
  have hrank : ∀ n l, P.Below heap roots n → (P.whole heap).key n = none →
      (P.whole heap).next n l → ∀ y ∈ l, P.level y < P.level n := by
    intro n l hn hkey hl y hy
    obtain ⟨hreach, hv⟩ := reaches_of_below hn
    rw [next_whole hw hn hl] at hy
    by_cases hptr : ∀ te, P.kind n.loc.2 ≠ .ptr te
    · exact (level_decreases hv (hstuck hreach) hptr hy).1
    obtain ⟨te, hk⟩ := not_forall_not.mp hptr
    cases n with
    | visit a t =>
      -- a slot without a key holds NULL, and is not followed
      have hk : P.kind t = .ptr te := hk
      have hreach : Reaches P.toEnv heap roots a t := hreach
      obtain ⟨p, hp⟩ := hw.slot hreach hk
      have hp0 : p = 0 := by
        by_contra hp0
        have hkey : P.key heap (.visit a t) = none := hkey
        rw [key_ptr hk (hw.nonNull hreach) hp, if_neg hp0] at hkey
        cases hkey
      simp [leads, follow, Env.succ, hk, hp, hp0] at hy
    | stmt gen c a =>
      obtain ⟨te', k, hk', _⟩ := hv
      cases hk.symm.trans hk'
    | task a t =>
      obtain ⟨te', hk'⟩ := hv
      cases hk.symm.trans hk'
  have wf := Worklist.wellFounded_step P.level (fun _ _ => mem_keys hfin) hrank
  exact halts_of_tracks (I := P.AllBelow heap roots) (conforms_of_copies hcb)
    (whole_of_tracks hw id hi.unchanged) (allBelow_step hw) wf (fun h hv => ⟨h, hv⟩)
    fun _ hn => .start hn

theorem finished_or_overflow (hsafe : s.status ≠ .crashed) (h : Traversal.step P.toEnv cb s = none) :
    s.Finished ∨ s.status = .overflow := by
  cases hst : s.status with
  | overflow => exact .inr rfl
  | crashed => exact absurd hst hsafe
  | running =>
    rw [Traversal.step, if_neg (by simp [hst])] at h
    split at h
    · cases h
    · cases h
    · next hstack =>
      split at h
      · cases h
      · next hq => exact .inl ⟨hst, hstack, Nat.eq_zero_of_not_pos hq⟩

end Session

end Program

end CStrider.Traversal
