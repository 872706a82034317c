import CStrider.Traversal.Refinement
import CStrider.Types.Constructors
import Mathlib.Data.Prod.Lex
import Mathlib.Data.Set.Finite.Basic

/-!
# When traversals end

A struct is entered by its generated function. A type that is neither built-in, pointer nor array
and is registered with `transform_prim` (a union, an enumeration, a typedef of something else than
a struct, an array of length zero) is put on the queue as well, and `transform_prim` visits it
again: it is **stuck**. Stuck types and types that contain themselves, which no C type does but an
id of `mktyparr` that two requests share may, are all that keeps a traversal of a finite heap from
ending.
-/

namespace CStrider.Traversal

open Mapping (Ptr)
open TaskQueue (QUEUESIZE)
open CStrider.Types (Typ Entry TypeTable Func)

/-- Visited, the type is enqueued, and its function visits it. -/
def Env.Stuck (E : Env) (t : Typ) : Prop :=
  ∃ te, E.kind t = .struct te ∧ ∀ n, te.func ≠ .generated n

/-- `u` is the type of the elements of an array `t`, or of a field of a struct `t`. -/
inductive Env.PartOf (E : Env) (u t : Typ) : Prop
  | elem {te : Entry} : E.kind t = .array te → te.arrbase = u → E.PartOf u t
  | field {te : Entry} {n : Nat} {c : FieldVisit} {m : Ptr → Option Ptr} {a : Ptr} :
    E.kind t = .struct te → te.func = .generated n → c ∈ E.body n t → c.type m a = some u →
      E.PartOf u t

/-- No type contains itself. -/
def Env.Grounded (E : Env) : Prop := ∀ t, ¬ Relation.TransGen E.PartOf t t

/-- `u` is the type of the elements of an array `t` that `transform_array` loops over. -/
def Env.ElementOf (E : Env) (u t : Typ) : Prop :=
  ∃ te, E.kind t = .array te ∧ 0 < numArrayElems te ∧ (getOutSize E.types te).isSome ∧
    te.arrbase = u

/-- The locations whose address is computed from NULL. -/
inductive FromNull (E : Env) : Ptr → Typ → Prop
  | null (t : Typ) : FromNull E 0 t
  | elem {a : Ptr} {t : Typ} {te : Entry} (i : Nat) : FromNull E a t → E.kind t = .array te →
      FromNull E (a + i * getSize te) te.arrbase
  | field {a : Ptr} {t u : Typ} {te : Entry} {n : Nat} {c : FieldVisit} {m : Ptr → Option Ptr} :
      FromNull E a t → E.kind t = .struct te → te.func = .generated n → c ∈ E.body n t →
      c.type m a = some u → FromNull E (a + c.inOff) u

/-- A session on a finite heap, in which NULL is not the address of an object. The callbacks, and
what is stored through the out-slots, leave the in-slots of the heap as they are, and no pointer
but NULL is mapped to NULL. -/
structure FiniteHeap {σ : Type} (E : Env) (cb : Callbacks σ) (heap : Ptr → Option Ptr)
    (w : World σ) (roots : List Root) : Prop where
  finite : {a | heap a ≠ none}.Finite
  null : ∀ {a t te}, FromNull E a t → E.kind t = .ptr te → a ≠ 0 → heap a = none
  reads : ∀ {s a t x fs te p}, (session E cb w roots).Reach s → s.stack = .visit a t x :: fs →
    E.kind t = .ptr te → s.world.mem a = some p → heap a = some p
  ptr_in : ∀ a t x w, (cb.perfactionPtr a t x w).2.mem a = w.mem a
  ptr_out : ∀ {a t x w p}, w.mem a = some p → p ≠ 0 →
    (cb.perfactionPtr a t x w).2.mem x ≠ some 0

/-- The memories in which a session on `heap` takes a node. -/
def Reads (E : Env) (heap m : Ptr → Option Ptr) (n : Node) : Prop :=
  ∀ a t te p, n = .visit a t → E.kind t = .ptr te → m a = some p → heap a = some p

/-- The location of a node. -/
def Node.loc : Node → Ptr × Typ
  | .visit a t => (a, t)
  | .task a t => (a, t)
  | .stmt t _ a => (a, t)

/-- Every sequential traversal of a finite heap makes finitely many visits. -/
def Env.Ends (E : Env) : Prop :=
  ∀ (σ : Type) (cb : Callbacks σ) (heap : Ptr → Option Ptr) (w : World σ) (roots : List Root),
    FiniteHeap E cb heap w roots → FinitelyManyVisits (session E cb w roots)

/-! ## How deep types are nested -/

namespace Env

variable {E : Env} {t u : Typ}

theorem Grounded.of_depth (depth : Typ → Nat) (h : ∀ {u t}, E.PartOf u t → depth u < depth t) :
    E.Grounded := by
  intro t ht
  have hlt : ∀ {u v}, Relation.TransGen E.PartOf u v → depth u < depth v := fun hp => by
    induction hp with
    | single hp => exact h hp
    | tail _ hp ih => exact ih.trans (h hp)
  exact Nat.lt_irrefl _ (hlt ht)

theorem PartOf.mem_types (h : E.PartOf u t) : t ∈ E.types.map Entry.type := by
  have mem {te : Entry} (hfind : E.types.find t = some te) : t ∈ E.types.map Entry.type := by
    by_contra hnot
    rw [TypeTable.find_eq_none.mpr hnot] at hfind
    cases hfind
  cases h with
  | elem hk => exact mem (find_of_kind (.inr (.inl hk)))
  | field hk => exact mem (find_of_kind (.inr (.inr hk)))

open Classical in
/-- The number of types of the table that `t` contains, with `t` itself. -/
noncomputable def depth (E : Env) (t : Typ) : Nat :=
  ((E.types.map Entry.type).toFinset.filter fun v => Relation.ReflTransGen E.PartOf v t).card

theorem Grounded.depth_lt (hE : E.Grounded) (h : E.PartOf u t) : E.depth u < E.depth t := by
  classical
  have sub : ∀ v, Relation.ReflTransGen E.PartOf v u → Relation.ReflTransGen E.PartOf v t :=
    fun _ hv => hv.tail h
  refine Finset.card_lt_card ((Finset.ssubset_iff_of_subset fun v hv => ?_).mpr ⟨t, ?_, ?_⟩)
  · obtain ⟨hmem, hv⟩ := Finset.mem_filter.mp hv
    exact Finset.mem_filter.mpr ⟨hmem, sub v hv⟩
  · exact Finset.mem_filter.mpr ⟨List.mem_toFinset.mpr h.mem_types, .refl⟩
  · exact fun ht => hE t (Relation.TransGen.tail' (Finset.mem_filter.mp ht).2 h)

/-- Types that do not contain themselves are nested to some depth. -/
noncomputable def Grounded.program (hE : E.Grounded) (hseq : E.parallel = false) : Program where
  toEnv := E
  sequential := hseq
  depth := E.depth
  depth_elem hk := hE.depth_lt (.elem hk rfl)
  depth_field hk hf hc hu := hE.depth_lt (.field hk hf hc hu)

end Env

/-! ## The ranks -/

namespace Program

variable {P : Program} {heap : Ptr → Option Ptr} {a : Ptr} {t : Typ} {n y : Node}

/-- How deep a node is in the nesting of types. -/
def level (P : Program) : Node → Nat
  | .visit _ t => 3 * P.depth t + 2
  | .task _ t => 3 * P.depth t + 1
  | .stmt t _ _ => 3 * P.depth t

open Classical in
/-- What is computed from NULL comes last. -/
noncomputable def rank (P : Program) (n : Node) : Nat ×ₗ Nat :=
  toLex (if FromNull P.toEnv n.loc.1 n.loc.2 then 0 else 1, P.level n)

/-- Where no value is followed, a node leads to nodes of a smaller level. -/
theorem level_decreases {m : Ptr → Option Ptr} {go : Bool} (hv : P.Valid n)
    (hstuck : ¬ P.Stuck n.loc.2) (hptr : ∀ te, P.kind n.loc.2 ≠ .ptr te) (hy : y ∈ P.succ m go n) :
    P.level y < P.level n ∧
      (FromNull P.toEnv n.loc.1 n.loc.2 → FromNull P.toEnv y.loc.1 y.loc.2) := by
  cases n with
  | visit a t =>
    simp only [Node.loc] at hptr ⊢
    cases hk : P.kind t with
    | system => simp [Env.succ, hk] at hy
    | prim => simp [Env.succ, hk] at hy
    | missing => simp [Env.succ, hk] at hy
    | ptr te => exact absurd hk (hptr te)
    | array te =>
      simp only [Env.succ, hk] at hy
      obtain ⟨i, _, rfl⟩ := List.mem_map.mp (Multiset.mem_coe.mp hy)
      have := P.depth_elem hk
      exact ⟨by simp only [level]; omega, fun h => .elem i h hk⟩
    | struct te =>
      simp only [Env.succ, hk] at hy
      split at hy
      · exact absurd hy (Multiset.notMem_zero y)
      · obtain rfl := Multiset.mem_singleton.mp hy
        exact ⟨Nat.lt_succ_self _, id⟩
  | stmt gen c a =>
    obtain ⟨te, k, hk, hf, hc⟩ := hv
    simp only [Env.succ] at hy
    cases ht : c.type m a with
    | none =>
      rw [ht] at hy
      exact absurd hy (Multiset.notMem_zero y)
    | some u =>
      rw [ht] at hy
      obtain rfl := Multiset.mem_singleton.mp hy
      have := P.depth_field hk hf hc ht
      exact ⟨by simp only [level]; omega, fun h => .field h hk hf hc ht⟩
  | task a t =>
    obtain ⟨te, hk⟩ := hv
    simp only [Env.succ, hk] at hy
    cases hf : te.func with
    | transformPrim => exact absurd ⟨te, hk, fun n => by rw [hf]; simp⟩ hstuck
    | transformFptr => exact absurd ⟨te, hk, fun n => by rw [hf]; simp⟩ hstuck
    | generated k =>
      rw [hf] at hy
      obtain ⟨c, _, rfl⟩ := List.mem_map.mp (Multiset.mem_coe.mp hy)
      exact ⟨Nat.lt_succ_self _, id⟩

theorem rank_lt (hlevel : P.level y < P.level n)
    (h : FromNull P.toEnv n.loc.1 n.loc.2 → FromNull P.toEnv y.loc.1 y.loc.2) :
    P.rank y < P.rank n := by
  unfold rank
  rw [Prod.Lex.lt_iff]
  dsimp only [ofLex_toLex]
  by_cases hn : FromNull P.toEnv n.loc.1 n.loc.2
  · rw [if_pos hn, if_pos (h hn)]
    exact .inr ⟨rfl, hlevel⟩
  · rw [if_neg hn]
    split
    · exact .inl Nat.zero_lt_one
    · exact .inr ⟨rfl, hlevel⟩

theorem rank_lt_of_null (hn : ¬ FromNull P.toEnv n.loc.1 n.loc.2)
    (hy : FromNull P.toEnv y.loc.1 y.loc.2) : P.rank y < P.rank n := by
  unfold rank
  rw [Prod.Lex.lt_iff, if_neg hn, if_pos hy]
  exact .inl Nat.zero_lt_one

/-- Without a key, a node leads to nodes of smaller rank. -/
theorem rank_decreases {m : Ptr → Option Ptr} {go : Bool} (hstuck : ∀ t, ¬ P.Stuck t)
    (hnull : ∀ {a t te}, FromNull P.toEnv a t → P.kind t = .ptr te → a ≠ 0 → heap a = none)
    (hkey : P.key heap n = none) (hv : P.Valid n) (hnow : Reads P.toEnv heap m n)
    (hy : y ∈ P.succ m go n) : P.rank y < P.rank n := by
  by_cases hptr : ∀ te, P.kind n.loc.2 ≠ .ptr te
  · obtain ⟨hlevel, h⟩ := level_decreases hv (hstuck _) hptr hy
    exact rank_lt hlevel h
  obtain ⟨te, hk⟩ := not_forall_not.mp hptr
  cases n with
  | visit a t =>
    simp only [Env.succ, show P.kind t = .ptr te from hk] at hy
    split at hy
    · exact absurd hy (Multiset.notMem_zero y)
    next hgo =>
    have ha : a ≠ 0 := fun h => hgo (.inl h)
    cases hm : m a with
    | none =>
      rw [hm] at hy
      exact absurd hy (Multiset.notMem_zero y)
    | some p =>
      rw [hm] at hy
      have hheap := hnow a t te p rfl hk hm
      -- a slot without a key holds NULL, and was not computed from NULL itself
      have hp : p = 0 := by
        by_contra hp
        simp [Env.key, show P.kind t = .ptr te from hk, ha, hheap, Option.filter_some, hp] at hkey
      have hnot : ¬ FromNull P.toEnv a t := by
        intro h
        rw [hnull h hk ha] at hheap
        cases hheap
      obtain rfl := Multiset.mem_singleton.mp hy
      subst hp
      exact rank_lt_of_null hnot (.null _)
  | stmt gen c a =>
    obtain ⟨te', k, hk', _⟩ := hv
    cases hk.symm.trans hk'
  | task a t =>
    obtain ⟨te', hk'⟩ := hv
    cases hk.symm.trans hk'

/-! ## Sessions without stuck types -/

section Session

variable {σ : Type} {cb : Callbacks σ} {w : World σ} {roots : List Root}

theorem conforms_of_finiteHeap (h : FiniteHeap P.toEnv cb heap w roots) :
    Conforms P.toEnv cb heap (Reads P.toEnv heap) fun _ _ _ => True where
  reads hnow hk hm := hnow _ _ _ _ rfl hk hm
  ptr_in _ _ := h.ptr_in _ _ _ _
  ptr_out _ _ := h.ptr_out
  any _ _ := ⟨true, trivial⟩
  ptr _ _ _ := trivial
  struct _ := trivial

/-- Every key is the value of a slot. -/
theorem mem_keys (h : {a | heap a ≠ none}.Finite) {n : Node} {k : Ptr}
    (hk : P.key heap n = some k) : k ∈ h.toFinset.image fun a => (heap a).getD 0 := by
  obtain ⟨a, t, te, _, _, _, hp, _⟩ := ptr_of_key hk
  refine Finset.mem_image.mpr ⟨a, h.mem_toFinset.mpr ?_, by rw [hp]; rfl⟩
  intro hnone
  rw [hnone] at hp
  cases hp

theorem reads_of_tracks {I : Worklist.State Node Ptr → Prop} {s : State σ}
    {v : Worklist.State Node Ptr} (h : FiniteHeap P.toEnv cb heap w roots)
    (hs : Tracks P cb w roots I s v) (hn : s.nextNode = some n) :
    Reads P.toEnv heap s.world.mem n := by
  rintro a t te p rfl hk hm
  obtain ⟨f, fs, hstack, hf⟩ := stack_of_nextNode hn fun _ _ => Node.noConfusion
  cases f with
  | visit b u x =>
    obtain ⟨rfl, rfl⟩ := visit_inj hf
    exact h.reads hs.reach hstack hk hm
  | stmt gen c b x => cases hf

/-- The session comes to an end. -/
theorem halts (hstuck : ∀ t, ¬ P.Stuck t) (h : FiniteHeap P.toEnv cb heap w roots) :
    (session P.toEnv cb w roots).Halts (initial w roots) := by
  have wf := Worklist.wellFounded_step (W := P.worklist heap (Reads P.toEnv heap) fun _ _ _ => True)
    (Q := fun _ => True) P.rank (fun _ _ => mem_keys h.finite) (by
      rintro n l _ hkey ⟨hv, m, go, hnow, _, rfl⟩ y hy
      exact rank_decreases hstuck h.null hkey hv hnow hy)
  exact halts_of_tracks (I := fun _ => True) (conforms_of_finiteHeap h) (reads_of_tracks h)
    (fun _ _ => trivial) wf (fun _ hv => ⟨fun _ _ => trivial, hv⟩) trivial

theorem finitelyManyVisits (hstuck : ∀ t, ¬ P.Stuck t) (h : FiniteHeap P.toEnv cb heap w roots) :
    FinitelyManyVisits (session P.toEnv cb w roots) := by
  obtain ⟨N, hN⟩ := (halts hstuck h).bounded fun s => s.visits.length
  refine ⟨N, fun s hs => ?_⟩
  obtain ⟨s₀, rfl, hlater⟩ := hs.later_init
  exact hN s hlater

end Session

end Program

/-! ## Sessions with a stuck type -/

/-- Callbacks that have every struct and every pointer but NULL followed. `perfaction_ptr` stores
`*in` into `*out`. -/
def copying : Callbacks Unit where
  perfactionPrim _ _ _ w := w
  perfactionStruct _ _ _ w := (1, w)
  perfactionPtr a _ x w :=
    match w.mem a with
    | some p =>
      (if p = 0 then 0 else 1,
        if (w.mem x).isSome then { w with mem := Function.update w.mem x (some p) } else w)
    | none => (0, w)
  perfactionPtrMapped _ _ lookup w := (lookup, w)

theorem copying_in (a : Ptr) (t : Typ) (x : Ptr) (w : World Unit) :
    (copying.perfactionPtr a t x w).2.mem a = w.mem a := by
  simp only [copying]
  split
  · next p hp =>
    dsimp only
    split
    · by_cases hax : a = x
      · subst hax
        exact (Function.update_self _ _ _).trans hp.symm
      · exact Function.update_of_ne hax _ _
    · rfl
  · rfl

theorem copying_stores {a : Ptr} {t : Typ} {x p q : Ptr} {w : World Unit} (hp : w.mem a = some p)
    (hq : (copying.perfactionPtr a t x w).2.mem x = some q) : q = p := by
  simp only [copying, hp] at hq
  split at hq
  · have hq : Function.update w.mem x (some p) x = some q := hq
    rw [Function.update_self] at hq
    exact (Option.some.inj hq).symm
  · next hx =>
    rw [hq] at hx
    exact absurd rfl hx

theorem copying_out {a : Ptr} {t : Typ} {x p : Ptr} {w : World Unit} (hp : w.mem a = some p)
    (hp0 : p ≠ 0) : (copying.perfactionPtr a t x w).2.mem x ≠ some 0 :=
  fun hx => hp0 (copying_stores hp hx).symm

section Stuck

variable {E : Env} {t : Typ} {w : World Unit} {s s' : State Unit}

/-- A stuck type is visited at 1, or the task for it is on the queue. -/
def Turning (t : Typ) (s : State Unit) : Prop :=
  s.status = .running ∧ (s.stack = [.visit 1 t 1] ∧ s.queue.contents = [] ∨
    s.stack = [] ∧ s.queue.contents = [⟨1, t, 1, false⟩])

theorem turning_initial : Turning t (initial w [⟨1, t, 1⟩]) :=
  ⟨rfl, .inl ⟨rfl, Ring.contents_empty _ _⟩⟩

/-- The visit puts the task on the queue. -/
theorem turning_visit {te : Entry} (hk : E.kind t = .struct te) (hrun : s.status = .running)
    (hstack : s.stack = [.visit 1 t 1]) (hqueue : s.queue.contents = []) :
    ∃ s', step E copying s = some s' ∧ s'.status = .running ∧ s'.stack = [] ∧
      s'.queue.contents = [⟨1, t, 1, false⟩] ∧ s'.visits = (1, t) :: s.visits := by
  have hcount : s.queue.count < QUEUESIZE := by
    rw [(Ring.contents_eq_nil _).mp hqueue]
    decide
  refine ⟨_, by rw [step, if_neg (by simp [hrun]), hstack], ?_⟩
  let s₀ := { s with stack := [], visits := (1, t) :: s.visits }.note (.struct 1 t)
  have henq : visit E copying 1 t 1 { s with stack := [] } =
      addtoqueue s₀ (some ⟨1, t, 1, false⟩) := by
    rw [visit_kind, hk]
    rfl
  rw [henq, addtoqueue_push (s := s₀) hcount]
  refine ⟨hrun, rfl, ?_, rfl⟩
  exact (Ring.contents_push _ _ hcount).trans (by rw [hqueue]; rfl)

/-- The task visits it again. -/
theorem turning_task (ht : E.Stuck t) (hrun : s.status = .running) (hstack : s.stack = [])
    (hqueue : s.queue.contents = [⟨1, t, 1, false⟩]) :
    ∃ s', step E copying s = some s' ∧ s'.status = .running ∧ s'.stack = [.visit 1 t 1] ∧
      s'.queue.contents = [] ∧ s'.visits = s.visits := by
  obtain ⟨te, hk, hf⟩ := ht
  have hcount : 0 < s.queue.count := by
    rw [← Ring.length_contents, hqueue]
    exact Nat.zero_lt_one
  have hpop := s.queue.contents_pop hcount
  rw [hqueue] at hpop
  obtain ⟨hhead, hrest⟩ := List.cons_eq_cons.mp hpop
  refine ⟨_, by rw [step, if_neg (by simp [hrun]), hstack]; exact dif_pos hcount, ?_⟩
  have hfind := Env.find_of_kind (.inr (.inr hk))
  simp only [callxformer, ← hhead, hfind, Bool.false_eq_true, if_false]
  cases hfunc : te.func with
  | transformPrim => exact ⟨hrun, rfl, hrest.symm, rfl⟩
  | transformFptr => exact ⟨hrun, rfl, hrest.symm, rfl⟩
  | generated n => exact absurd hfunc (hf n)

/-- Two steps are one more visit. -/
theorem turning_reach (ht : E.Stuck t) (n : Nat) :
    ∃ s, (session E copying w [⟨1, t, 1⟩]).Reach s ∧ s.status = .running ∧
      s.stack = [.visit 1 t 1] ∧ s.queue.contents = [] ∧ s.visits.length = n := by
  induction n with
  | zero => exact ⟨_, .init rfl, rfl, rfl, Ring.contents_empty _ _, rfl⟩
  | succ n ih =>
    obtain ⟨s, hs, hrun, hstack, hqueue, hlen⟩ := ih
    have ⟨te, hk, _⟩ := ht
    obtain ⟨s₁, hstep₁, hrun₁, hstack₁, hqueue₁, hv₁⟩ := turning_visit hk hrun hstack hqueue
    obtain ⟨s₂, hstep₂, hrun₂, hstack₂, hqueue₂, hv₂⟩ := turning_task ht hrun₁ hstack₁ hqueue₁
    refine ⟨s₂, .step () (.step () hs hstep₁) hstep₂, hrun₂, hstack₂, hqueue₂, ?_⟩
    rw [hv₂, hv₁, List.length_cons, hlen]

/-- The session never ends. -/
theorem endless (ht : E.Stuck t) :
    ¬ FinitelyManyVisits (session E copying w [⟨1, t, 1⟩]) := by
  rintro ⟨N, hN⟩
  obtain ⟨s, hs, _, _, _, hlen⟩ := turning_reach ht (N + 1)
  have hle := hN s hs
  omega

theorem turning (ht : E.Stuck t) (hs : (session E copying w [⟨1, t, 1⟩]).Reach s) :
    Turning t s := by
  induction hs with
  | init h =>
    obtain rfl := h
    exact turning_initial
  | step l _ hstep ih =>
    have ⟨te, hk, _⟩ := ht
    obtain ⟨hrun, ⟨hstack, hqueue⟩ | ⟨hstack, hqueue⟩⟩ := ih
    · obtain ⟨s₁, hstep₁, hrun₁, hstack₁, hqueue₁, _⟩ := turning_visit hk hrun hstack hqueue
      obtain rfl := Option.some.inj (hstep₁.symm.trans hstep)
      exact ⟨hrun₁, .inr ⟨hstack₁, hqueue₁⟩⟩
    · obtain ⟨s₁, hstep₁, hrun₁, hstack₁, hqueue₁, _⟩ := turning_task ht hrun hstack hqueue
      obtain rfl := Option.some.inj (hstep₁.symm.trans hstep)
      exact ⟨hrun₁, .inl ⟨hstack₁, hqueue₁⟩⟩

/-- Nothing is read in it: the heap can be empty. -/
theorem finiteHeap_stuck (ht : E.Stuck t) :
    FiniteHeap E copying (fun _ => none) w [⟨1, t, 1⟩] where
  finite := by simp
  null _ _ _ := rfl
  reads := by
    intro s a u x fs te p hs hstack hk _
    have ⟨te', hk', _⟩ := ht
    obtain ⟨_, ⟨hstack', _⟩ | ⟨hstack', _⟩⟩ := turning ht hs
    · rw [hstack] at hstack'
      cases hstack'
      cases hk.symm.trans hk'
    · rw [hstack] at hstack'
      cases hstack'
  ptr_in := copying_in
  ptr_out := copying_out

end Stuck

/-! ## Sessions with an array that contains itself -/

section Tower

variable {E : Env} {t : Typ} {w : World Unit} {s : State Unit}

/-- The next visit is of an array that contains itself. -/
def Descending (E : Env) (s : State Unit) : Prop :=
  s.status = .running ∧ ∃ t fs, s.stack = .visit 1 t 1 :: fs ∧ Relation.TransGen E.ElementOf t t

/-- It leads to a visit of its first element, which contains itself too. -/
theorem descending_step (hseq : E.parallel = false) (hs : Descending E s) :
    ∃ s', step E copying s = some s' ∧ Descending E s' ∧
      s'.visits.length = s.visits.length + 1 := by
  obtain ⟨hrun, t, fs, hstack, hcycle⟩ := hs
  obtain ⟨u, hpath, te, hk, hcount, hsize, rfl⟩ := Relation.TransGen.tail'_iff.mp hcycle
  obtain ⟨szOut, hout⟩ := Option.isSome_iff_exists.mp hsize
  have base : Relation.TransGen E.ElementOf te.arrbase te.arrbase :=
    Relation.TransGen.head' ⟨te, hk, hcount, hsize, rfl⟩ hpath
  refine ⟨_, by rw [step, if_neg (by simp [hrun]), hstack], ?_⟩
  rw [visit_kind, hk]
  dsimp only
  rw [Program.transformSplitArray_sequential hseq, transformArray,
    Env.find_of_kind (.inr (.inl hk))]
  simp only [hout]
  obtain ⟨n, hn⟩ := Nat.exists_eq_succ_of_ne_zero hcount.ne'
  refine ⟨⟨hrun, te.arrbase, (List.range n).map (fun i =>
    .visit (1 + i.succ * getSize te) te.arrbase (1 + i.succ * szOut)) ++ fs, ?_, base⟩, rfl⟩
  simp only [State.push, hn, List.range_succ_eq_map, List.map_cons, List.map_map, Nat.zero_mul,
    Nat.add_zero, List.cons_append]
  rfl

theorem descending_reach (hseq : E.parallel = false) (ht : Relation.TransGen E.ElementOf t t)
    (n : Nat) : ∃ s, (session E copying w [⟨1, t, 1⟩]).Reach s ∧ Descending E s ∧
      s.visits.length = n := by
  induction n with
  | zero => exact ⟨_, .init rfl, ⟨rfl, t, [], rfl, ht⟩, rfl⟩
  | succ n ih =>
    obtain ⟨s, hs, hdesc, hlen⟩ := ih
    obtain ⟨s', hstep, hdesc', hlen'⟩ := descending_step hseq hdesc
    exact ⟨s', .step () hs hstep, hdesc', by rw [hlen', hlen]⟩

theorem descending (hseq : E.parallel = false) (ht : Relation.TransGen E.ElementOf t t)
    (hs : (session E copying w [⟨1, t, 1⟩]).Reach s) : Descending E s := by
  induction hs with
  | init h =>
    obtain rfl := h
    exact ⟨rfl, t, [], rfl, ht⟩
  | step l _ hstep ih =>
    obtain ⟨s₁, hstep₁, hdesc, _⟩ := descending_step hseq ih
    obtain rfl := Option.some.inj (hstep₁.symm.trans hstep)
    exact hdesc

/-- The session never ends, and reads nothing. -/
theorem not_ends_of_element (hseq : E.parallel = false)
    (ht : Relation.TransGen E.ElementOf t t) : ¬ E.Ends := by
  intro hends
  have hheap : FiniteHeap E copying (fun _ => none) ⟨fun _ => none, ()⟩ [⟨1, t, 1⟩] := {
    finite := by simp
    null := fun _ _ _ => rfl
    reads := by
      intro s a u x fs te p hs hstack hk _
      obtain ⟨_, v, gs, hstack', hcycle⟩ := descending hseq ht hs
      obtain ⟨_, _, te', hk', _⟩ := Relation.TransGen.tail'_iff.mp hcycle
      rw [hstack] at hstack'
      cases hstack'
      cases hk.symm.trans hk'
    ptr_in := copying_in
    ptr_out := copying_out }
  obtain ⟨N, hN⟩ := hends Unit copying _ _ _ hheap
  obtain ⟨s, hs, _, hlen⟩ := descending_reach hseq ht (N + 1)
  have hle := hN s hs
  omega

end Tower

/-! ## When all traversals end -/

/-- `struct node { char c; struct node *next; }`, with the numbers 18 and 19. -/
def nodes : Env where
  types :=
    [⟨18, 0, 0, 16, .generated 0, -1, 19, 0, 0, 18, -1⟩,
      ⟨19, 0, 0, 8, .transformPrim, 18, 0, 0, 0, 19, -1⟩]
  mktyparr _ t := t
  body _ _ := [⟨0, 0, fun _ _ => some 0⟩, ⟨8, 8, fun _ _ => some 19⟩]
  bucket a := a
  parallel := false

theorem nodes_kind {t : Typ} {te : Entry}
    (h : nodes.kind t = .array te ∨ nodes.kind t = .struct te) : t = 18 ∧ te.func = .generated 0 := by
  have hfind := Env.find_of_kind (.inr h)
  have htype := Types.TypeTable.type_of_find hfind
  have hmem := Types.TypeTable.mem_of_find hfind
  simp only [nodes, List.mem_cons, List.not_mem_nil, or_false] at hmem
  rcases hmem with rfl | rfl
  · exact ⟨htype.symm, rfl⟩
  · obtain rfl : 19 = t := htype
    rcases h with h | h <;> cases h

/-- The types of a program without structs, with the table `types`. -/
def flat (types : TypeTable) (h : ∀ e ∈ types, e.arrlen = 0) : Program where
  types := types
  mktyparr _ t := t
  body _ _ := []
  bucket a := a
  parallel := false
  sequential := rfl
  depth _ := 0
  depth_elem := by
    intro t te hk
    have harr := Env.isArray_of_kind hk
    have hzero := h te (Types.TypeTable.mem_of_find (Env.find_of_kind (.inr (.inl hk))))
    simp [memoizedIsArray, hzero] at harr
  depth_field := by
    intro _ _ _ _ _ _ _ _ _ hc
    cases hc

end CStrider.Traversal
