import CStrider.Traversal.Complete

/-!
# Traversals in place

Where the old and the new version are the same, every root is visited in place, and the callbacks
leave memory alone, in-slot and out-slot are always the same, every pointer is mapped to itself,
and memory is the heap from the start to the end.
-/

namespace CStrider.Traversal

open Mapping (Ptr Table findMapping addMapping findMapping_addMapping findMapping_empty)
open TaskQueue (QUEUESIZE)
open CStrider.Types (Typ Entry TypeTable)

/-- Elements and fields have one place in both versions. -/
structure SameLayout (E : Env) : Prop where
  outSize : ∀ {t te}, E.kind t = .array te → getOutSize E.types te = some (getSize te)
  outOff : ∀ {n t c}, c ∈ E.body n t → c.outOff = c.inOff

/-- Called in place, the callbacks change no memory, nor where a known pointer leads. -/
structure KeepsHeap {σ : Type} (cb : Callbacks σ) : Prop where
  prim : ∀ a t w, (cb.perfactionPrim a t a w).mem = w.mem
  struct : ∀ a t w, (cb.perfactionStruct a t a w).2.mem = w.mem
  ptr : ∀ a t w, (cb.perfactionPtr a t a w).2.mem = w.mem
  mapped : ∀ a t l w, (cb.perfactionPtrMapped a t l w).1 = l ∧
    (cb.perfactionPtrMapped a t l w).2.mem = w.mem

def Frame.InPlace : Frame → Prop
  | .visit a _ x => x = a
  | .stmt _ c a x => x = a ∧ c.outOff = c.inOff

/-- What holds of a session in place. -/
structure Sound {σ : Type} (E : Env) (heap : Ptr → Option Ptr) (s : State σ) : Prop where
  mem : s.world.mem = heap
  mapped : ∀ k, findMapping E.bucket s.mappings k ≠ 0 → findMapping E.bucket s.mappings k = k
  stack : ∀ f ∈ s.stack, f.InPlace
  queue : ∀ t ∈ s.queue.contents, t.x = t.a ∧ t.issplit = false

section Steps

variable {σ : Type} {E : Env} {heap : Ptr → Option Ptr} {cb : Callbacks σ} {s s' : State σ}
  {a x : Ptr} {t : Typ} {te : Entry}

theorem Sound.push {fs : List Frame} (hs : Sound E heap s) (h : ∀ f ∈ fs, f.InPlace) :
    Sound E heap (s.push fs) :=
  ⟨hs.mem, hs.mapped, fun f hf => (List.mem_append.mp hf).elim (h f) (hs.stack f), hs.queue⟩

theorem Sound.stop {st : Status} (hs : Sound E heap s) : Sound E heap (s.stop st) :=
  ⟨hs.mem, hs.mapped, hs.stack, hs.queue⟩

theorem Sound.transformArray (hs : Sound E heap s) (hsame : SameLayout E)
    (hk : E.kind t = .array te) : Sound E heap (transformArray E a t a s) := by
  unfold Traversal.transformArray
  rw [Env.find_of_kind (.inr (.inl hk))]
  simp only [hsame.outSize hk]
  refine hs.push fun f hf => ?_
  obtain ⟨i, _, rfl⟩ := List.mem_map.mp hf
  exact rfl

theorem Sound.visitStruct (hs : Sound E heap s) (hcb : KeepsHeap cb) :
    Sound E heap (visitStruct cb a t a s) := by
  have mem := (hcb.struct a t s.world).trans hs.mem
  unfold Traversal.visitStruct
  generalize cb.perfactionStruct a t a s.world = r at mem
  have hs' : Sound E heap ({ s with world := r.2 }.note (.struct a t)) :=
    ⟨mem, hs.mapped, hs.stack, hs.queue⟩
  dsimp only
  split
  · unfold transformMakeEnq
    split
    · exact hs'
    · rw [addtoqueue_some]
      split
      · next hq =>
        refine ⟨mem, hs.mapped, hs.stack, fun task ht => ?_⟩
        have hcontents := Ring.contents_push s.queue ⟨a, t, a, false⟩ hq
        rcases List.mem_append.mp (hcontents ▸ ht) with ht | ht
        · exact hs.queue task ht
        · obtain rfl := List.mem_singleton.mp ht
          exact ⟨rfl, rfl⟩
      · exact hs'.stop
  · exact hs'

theorem Sound.followPtr {retc : Int} (hs : Sound E heap s) :
    Sound E heap (followPtr E te a a retc s) := by
  unfold Traversal.followPtr
  cases hp : s.world.mem a with
  | none => exact hs.stop
  | some p =>
    have hs' : Sound E heap { s with mappings := addMapping E.bucket s.mappings p p } := by
      refine ⟨hs.mem, fun k => ?_, hs.stack, hs.queue⟩
      dsimp only
      rw [findMapping_addMapping]
      split
      · next hk => exact fun _ => hk.1.symm
      · exact hs.mapped k
    dsimp only
    split
    · exact hs'
    · refine hs'.push fun f hf => ?_
      rw [List.mem_singleton.mp hf]
      exact rfl

theorem Sound.visitPtr (hs : Sound E heap s) (hcb : KeepsHeap cb) :
    Sound E heap (visitPtr E cb te a t a s) := by
  unfold Traversal.visitPtr
  split
  · exact hs
  cases hp : s.world.mem a with
  | none => exact hs.stop
  | some p =>
    dsimp only
    split
    · next hl =>
      obtain ⟨val, mem⟩ := hcb.mapped a t (findMapping E.bucket s.mappings p) s.world
      generalize cb.perfactionPtrMapped a t (findMapping E.bucket s.mappings p) s.world = r
        at val mem
      split
      · refine ⟨?_, hs.mapped, hs.stack, hs.queue⟩
        -- the mapped pointer is stored over itself
        show Function.update r.2.mem a (some r.1) = heap
        rw [val, hs.mapped p hl, mem, ← hp, Function.update_eq_self, hs.mem]
      · exact ⟨mem.trans hs.mem, hs.mapped, hs.stack, hs.queue⟩
    · have mem := (hcb.ptr a t s.world).trans hs.mem
      generalize cb.perfactionPtr a t a s.world = r at mem
      exact Sound.followPtr (s := { s with world := r.2 }.note (.ptr a t))
        ⟨mem, hs.mapped, hs.stack, hs.queue⟩

theorem Sound.visit (hs : Sound E heap s) (hcb : KeepsHeap cb) (hsame : SameLayout E)
    (hseq : E.parallel = false) : Sound E heap (visit E cb a t a s) := by
  have hs' : Sound E heap { s with visits := (a, t) :: s.visits } :=
    ⟨hs.mem, hs.mapped, hs.stack, hs.queue⟩
  rw [visit_kind]
  cases hk : E.kind t with
  | system => exact hs'
  | prim => exact ⟨(hcb.prim a t s.world).trans hs.mem, hs.mapped, hs.stack, hs.queue⟩
  | missing => exact hs'.stop
  | ptr te => exact hs'.visitPtr hcb
  | array te =>
    dsimp only
    rw [Program.transformSplitArray_sequential hseq]
    exact hs'.transformArray hsame hk
  | struct te => exact hs'.visitStruct hcb

theorem Sound.callxformer {task : Task} (hs : Sound E heap s) (hsame : SameLayout E)
    (hx : task.x = task.a) (hsplit : task.issplit = false) :
    Sound E heap (callxformer E task s) := by
  unfold Traversal.callxformer
  rw [hsplit]
  split
  · exact hs.stop
  · simp only [Bool.false_eq_true, if_false]
    split
    · refine hs.push fun f hf => ?_
      rw [List.mem_singleton.mp hf]
      exact hx
    · refine hs.push fun f hf => ?_
      rw [List.mem_singleton.mp hf]
      exact hx
    · refine hs.push fun f hf => ?_
      obtain ⟨c, hc, rfl⟩ := List.mem_map.mp hf
      exact ⟨hx, hsame.outOff hc⟩

theorem Sound.step (hs : Sound E heap s) (hcb : KeepsHeap cb) (hsame : SameLayout E)
    (hseq : E.parallel = false) (h : step E cb s = some s') : Sound E heap s' := by
  unfold Traversal.step at h
  split at h
  · cases h
  split at h
  · next a t x fs hstack =>
    have hx : x = a := hs.stack (.visit a t x) (hstack ▸ List.mem_cons_self)
    subst hx
    obtain rfl := Option.some.inj h
    refine Sound.visit (s := { s with stack := fs }) ⟨hs.mem, hs.mapped, ?_, hs.queue⟩ hcb hsame hseq
    exact fun f hf => hs.stack f (hstack ▸ List.mem_cons_of_mem _ hf)
  · next gen c a x fs hstack =>
    obtain ⟨hx, hoff⟩ : x = a ∧ c.outOff = c.inOff :=
      hs.stack (.stmt gen c a x) (hstack ▸ List.mem_cons_self)
    obtain rfl := Option.some.inj h
    have hs' : Sound E heap { s with stack := fs } :=
      ⟨hs.mem, hs.mapped, fun f hf => hs.stack f (hstack ▸ List.mem_cons_of_mem _ hf), hs.queue⟩
    unfold runStmt
    split
    · exact hs'.stop
    · refine hs'.push fun f hf => ?_
      rw [List.mem_singleton.mp hf, hx, hoff]
      exact rfl
  · split at h
    · next hq =>
      have hcontents := s.queue.contents_pop hq
      obtain ⟨hx, hsplit⟩ := hs.queue s.queue.head (hcontents ▸ List.mem_cons_self)
      obtain rfl := Option.some.inj h
      refine Sound.callxformer (s := { s with queue := s.queue.pop hq }) ?_ hsame hx hsplit
      exact ⟨hs.mem, hs.mapped, hs.stack,
        fun t ht => hs.queue t (hcontents ▸ List.mem_cons_of_mem _ ht)⟩
    · cases h

end Steps

/-! ## Sessions in place -/

section Session

variable {P : Program} {heap : Ptr → Option Ptr} {roots : List Root} {σ : Type} {cb : Callbacks σ}
  {w : World σ} {s s' : State σ} {n : Node}

theorem sound_of_reach (hcb : KeepsHeap cb) (hsame : SameLayout P.toEnv) (hw : w.mem = heap)
    (hroots : ∀ r ∈ roots, r.x = r.a) (hs : (session P.toEnv cb w roots).Reach s) :
    Sound P.toEnv heap s := by
  induction hs with
  | init h =>
    obtain rfl := h
    refine ⟨hw, fun _ hk => absurd findMapping_empty hk, fun f hf => ?_, fun t ht => ?_⟩
    · obtain ⟨r, hr, rfl⟩ := List.mem_map.mp hf
      exact hroots r hr
    · have nil : (initial w roots).queue.contents = [] := Ring.contents_empty _ _
      rw [nil] at ht
      cases ht
  | step l _ hstep ih => exact ih.step hcb hsame P.sequential hstep

/-- A visit in place of a location of the heap does not leave mapped memory. -/
theorem visit_safe {a : Ptr} {t : Typ} (hs : Sound P.toEnv heap s) (hcb : KeepsHeap cb)
    (hsame : SameLayout P.toEnv) (hrun : s.status ≠ .crashed) (hknown : P.kind t ≠ .missing)
    (hslot : ∀ te, P.kind t = .ptr te → ∃ p, heap a = some p) :
    (visit P.toEnv cb a t a s).status ≠ .crashed := by
  rw [visit_kind]
  cases hk : P.kind t with
  | system => exact hrun
  | prim => exact hrun
  | missing => exact absurd hk hknown
  | ptr te =>
    obtain ⟨p, hp⟩ := hslot te hk
    have hmem : s.world.mem a = some p := hs.mem ▸ hp
    dsimp only
    unfold visitPtr
    split
    · exact hrun
    rw [hmem]
    dsimp only
    split
    · obtain ⟨_, mem⟩ := hcb.mapped a t (findMapping P.bucket s.mappings p) s.world
      rw [if_pos (by rw [mem, hmem]; rfl)]
      exact hrun
    · have hmem' := (congrFun (hcb.ptr a t s.world) a).trans hmem
      simp only [followPtr, State.note, hmem']
      split
      · exact hrun
      · exact hrun
  | array te =>
    dsimp only
    rw [Program.transformSplitArray_sequential P.sequential, transformArray,
      Env.find_of_kind (.inr (.inl hk))]
    simp only [hsame.outSize hk]
    exact hrun
  | struct te =>
    dsimp only
    unfold visitStruct
    dsimp only
    split
    · unfold transformMakeEnq
      split
      · exact hrun
      · rw [addtoqueue_some]
        split
        · exact hrun
        · exact Status.noConfusion
    · exact hrun

theorem step_safe {v : Worklist.State Node Ptr} (hw : WellTyped P.toEnv heap roots)
    (hv : Program.Tracks P cb w roots (P.AllBelow heap roots) s v) (hs : Sound P.toEnv heap s)
    (hcb : KeepsHeap cb)
    (hsame : SameLayout P.toEnv) (hstep : step P.toEnv cb s = some s') : s'.status ≠ .crashed := by
  have below : ∀ n, s.nextNode = some n →
      Reaches P.toEnv heap roots n.loc.1 n.loc.2 ∧ P.Valid n := fun n hn =>
    Program.reaches_of_below (hv.inv n (Program.mem_pending hv.follows hn))
  have hrun : s.status ≠ .crashed := by
    rw [Program.step_running hstep]
    simp
  unfold step at hstep
  split at hstep
  · cases hstep
  split at hstep
  · next a t x fs hstack =>
    obtain ⟨hreach, _⟩ := below (.visit a t) (by rw [State.nextNode, hstack]; rfl)
    obtain rfl : x = a := hs.stack (.visit a t x) (hstack ▸ List.mem_cons_self)
    obtain rfl := Option.some.inj hstep
    exact visit_safe (s := { s with stack := fs })
      ⟨hs.mem, hs.mapped, fun f hf => hs.stack f (hstack ▸ List.mem_cons_of_mem _ hf), hs.queue⟩
      hcb hsame hrun (hw.known hreach) fun te hk => hw.slot hreach hk
  · next gen c a x fs hstack =>
    obtain ⟨hreach, te, n, hk, hf, hc⟩ := below (.stmt gen c a) (by rw [State.nextNode, hstack]; rfl)
    obtain ⟨u, hu⟩ := hw.field hreach hk hf hc
    have hu : c.type heap a = some u := hu heap fun _ _ h => h
    obtain rfl := Option.some.inj hstep
    simp only [runStmt, hs.mem, hu]
    exact hrun
  · next hstack =>
    split at hstep
    · next hq =>
      obtain ⟨_, te, hk⟩ :=
        below s.queue.head.node (by rw [State.nextNode, hstack]; exact if_pos hq)
      have hsplit := (hs.queue s.queue.head (s.queue.contents_pop hq ▸ List.mem_cons_self)).2
      obtain rfl := Option.some.inj hstep
      simp only [callxformer, Env.find_of_kind (.inr (.inr hk)), hsplit, Bool.false_eq_true, if_false]
      split
      · exact hrun
      · exact hrun
      · exact hrun
    · cases hstep

/-- **In place.** On a well-typed heap, a session in place leaves the heap as it is, and does not
leave it. -/
theorem intact_of_inPlace (hcopy : Copies cb) (hcb : KeepsHeap cb) (hsame : SameLayout P.toEnv)
    (hw : WellTyped P.toEnv heap roots) (hmem : w.mem = heap) (hroots : ∀ r ∈ roots, r.x = r.a) :
    Intact P.toEnv cb heap w roots := by
  have sound := fun {s} hs => sound_of_reach (s := s) hcb hsame hmem hroots hs
  have hold : ∀ {s}, (session P.toEnv cb w roots).Reach s → Holds heap s.world.mem := by
    intro s hs a p hp
    rw [(sound hs).mem, hp]
  refine ⟨hold, fun hs => ?_⟩
  induction hs with
  | init h =>
    obtain rfl := h
    exact Status.noConfusion
  | step l hs hstep _ =>
    obtain ⟨v, hv⟩ := Program.tracks_of_reach (Program.conforms_of_copies hcopy)
      (Program.whole_of_tracks hw id hold) (Program.allBelow_step hw) (fun _ hn => .start hn) hs
      (Program.step_running hstep)
    exact step_safe hw hv (sound hs) hcb hsame hstep

end Session

/-! ## A record and two pointers to it

`struct record` has a `char` as its first member. A `struct record *` at 16 and a `char *` at 8
both point to a record at 24. -/

namespace Record

/-- The entries of `struct record`, `struct record *` and `char *`. -/
def entry (type : Typ) (func : Types.Func) (target : Typ) : Entry :=
  { type := type, arrlen := 0, arrbase := 0, size := 8, func := func, targetType := target
    pointerTo := 0, numGenArgs := 0, args := 0, maintype := type, outType := -1 }

def program : Program where
  types := [entry 18 (.generated 0) (-1), entry 19 .transformPrim 18, entry 20 .transformPrim 0]
  mktyparr _ t := t
  body _ _ := [⟨0, 0, fun _ _ => some 0⟩]
  bucket a := a
  parallel := false
  sequential := rfl
  depth t := if t = 0 then 0 else 1
  depth_elem := by
    intro t te hk
    have harr := Env.isArray_of_kind hk
    have hmem := Types.TypeTable.mem_of_find (Env.find_of_kind (.inr (.inl hk)))
    simp only [List.mem_cons, List.not_mem_nil, or_false] at hmem
    rcases hmem with rfl | rfl | rfl <;> cases harr
  depth_field := by
    intro t te n c m a u hk _ hc hu
    rw [List.mem_singleton] at hc
    subst hc
    cases hu
    rw [if_pos rfl, if_neg]
    · exact Nat.zero_lt_one
    · rintro rfl
      cases hk

def heap (a : Ptr) : Option Ptr := if a = 8 ∨ a = 16 then some 24 else none

def world : World Unit := ⟨heap, ()⟩

/-- All locations that there are. -/
def locations : List (Ptr × Typ) := [(8, 20), (16, 19), (24, 18), (24, 0)]

variable {roots : List Root} {a : Ptr} {t : Typ}

theorem kind_cases {te : Entry} (h : program.kind t = .ptr te ∨ program.kind t = .array te ∨
    program.kind t = .struct te) :
    t = 18 ∧ program.kind t = .struct te ∨
      (t = 19 ∨ t = 20) ∧ program.kind t = .ptr te ∧ memoizedIsFunptr te = false ∧
        te.targetType = if t = 19 then 18 else 0 := by
  have hfind := Env.find_of_kind h
  have htype := Types.TypeTable.type_of_find hfind
  have hmem := Types.TypeTable.mem_of_find hfind
  simp only [program, List.mem_cons, List.not_mem_nil, or_false] at hmem
  rcases hmem with rfl | rfl | rfl
  · obtain rfl : 18 = t := htype
    exact .inl ⟨rfl, rfl⟩
  · obtain rfl : 19 = t := htype
    exact .inr ⟨.inl rfl, rfl, rfl, rfl⟩
  · obtain rfl : 20 = t := htype
    exact .inr ⟨.inr rfl, rfl, rfl, rfl⟩

theorem reaches_locations (hroots : ∀ r ∈ roots, (r.a, r.t) ∈ locations)
    (h : Reaches program.toEnv heap roots a t) : (a, t) ∈ locations := by
  induction h with
  | root hr => exact hroots _ hr
  | @deref a p t te _ hk _ hp _ _ =>
    have hp : p = 24 := by
      unfold heap at hp
      split at hp
      · exact (Option.some.inj hp).symm
      · cases hp
    rcases kind_cases (.inl hk) with ⟨rfl, hk'⟩ | ⟨rfl | rfl, _, _, htarget⟩
    · cases hk.symm.trans hk'
    · rw [hp, htarget]
      decide
    · rw [hp, htarget]
      decide
  | elem _ hk _ _ =>
    rcases kind_cases (.inr (.inl hk)) with ⟨rfl, hk'⟩ | ⟨_, hk', _⟩ <;> cases hk.symm.trans hk'
  | @field a t u te n c _ hk _ hc hu ih =>
    rcases kind_cases (.inr (.inr hk)) with ⟨rfl, _⟩ | ⟨_, hk', _⟩
    · obtain rfl := List.mem_singleton.mp hc
      cases hu
      have ha : a = 24 := by simpa [locations] using ih
      rw [ha]
      decide
    · cases hk.symm.trans hk'

/-- Pointers are only met as roots. -/
theorem root_of_ptr {te : Entry} (h : Reaches program.toEnv heap roots a t)
    (hk : program.kind t = .ptr te) : ∃ r ∈ roots, r.a = a ∧ r.t = t := by
  cases h with
  | root hr => exact ⟨_, hr, rfl, rfl⟩
  | deref _ hk' _ _ _ =>
    rcases kind_cases (.inl hk') with ⟨_, hk''⟩ | ⟨_, _, _, htarget⟩
    · cases hk'.symm.trans hk''
    · rw [htarget] at hk
      split at hk <;> cases hk
  | elem _ hk' _ =>
    rcases kind_cases (.inr (.inl hk')) with ⟨_, hk''⟩ | ⟨_, hk'', _⟩ <;> cases hk'.symm.trans hk''
  | field _ _ _ hc hu =>
    obtain rfl := List.mem_singleton.mp hc
    cases hu
    cases hk

theorem wellTyped (hroots : ∀ r ∈ roots, (r.a, r.t) ∈ locations) :
    WellTyped program.toEnv heap roots where
  known := by
    intro a t h hk
    have hmem := reaches_locations hroots h
    simp only [locations, List.mem_cons, Prod.mk.injEq, List.not_mem_nil, or_false] at hmem
    rcases hmem with ⟨_, rfl⟩ | ⟨_, rfl⟩ | ⟨_, rfl⟩ | ⟨_, rfl⟩ <;> cases hk
  nonNull := by
    rintro a t h rfl
    have hmem := reaches_locations hroots h
    simp [locations] at hmem
  slot := by
    intro a t te h hk
    have hmem := reaches_locations hroots h
    simp only [locations, List.mem_cons, Prod.mk.injEq, List.not_mem_nil, or_false] at hmem
    rcases hmem with ⟨rfl, _⟩ | ⟨rfl, _⟩ | ⟨_, rfl⟩ | ⟨_, rfl⟩
    · exact ⟨24, rfl⟩
    · exact ⟨24, rfl⟩
    · cases hk
    · cases hk
  field := by
    intro a t te n c _ _ _ hc
    obtain rfl := List.mem_singleton.mp hc
    exact ⟨0, fun _ _ => rfl⟩

theorem reaches_record (h : ⟨16, 19, 16⟩ ∈ roots) : Reaches program.toEnv heap roots 24 18 := by
  have root : Reaches program.toEnv heap roots 16 19 := .root h
  have target := root.deref (p := 24) (show program.kind 19 = .ptr _ from rfl) rfl rfl (by decide)
  exact target

theorem fromNull_zero (h : FromNull program.toEnv a t) : a = 0 := by
  induction h with
  | null t => rfl
  | elem i _ hk _ =>
    rcases kind_cases (.inr (.inl hk)) with ⟨_, hk'⟩ | ⟨_, hk', _⟩ <;> cases hk.symm.trans hk'
  | field _ _ _ hc _ ih =>
    obtain rfl := List.mem_singleton.mp hc
    exact ih

theorem finite_heap : {a | heap a ≠ none}.Finite := by
  refine (Set.toFinite {8, 16}).subset fun a ha => ?_
  by_contra hn
  exact ha (if_neg hn)

theorem sameLayout : SameLayout program.toEnv where
  outSize := by
    intro t te hk
    rcases kind_cases (.inr (.inl hk)) with ⟨rfl, hk'⟩ | ⟨_, hk', _⟩ <;> cases hk.symm.trans hk'
  outOff := by
    intro n t c hc
    obtain rfl := List.mem_singleton.mp hc
    rfl

theorem not_stuck : ¬ program.Stuck t := by
  rintro ⟨te, hk, hf⟩
  rcases kind_cases (.inr (.inr hk)) with ⟨rfl, hk'⟩ | ⟨_, hk', _⟩
  · cases hk
    exact hf 0 rfl
  · cases hk.symm.trans hk'

theorem copies_copying : Copies copying where
  struct _ _ _ _ := rfl
  ptr := by
    intro a t x w p hp
    refine ⟨?_, (copying_in a t x w).trans hp, fun q hq => copying_stores hp hq⟩
    simp [copying, hp]

theorem keepsHeap_copying : KeepsHeap copying where
  prim _ _ _ := rfl
  struct _ _ _ := rfl
  ptr a t w := by
    simp only [copying]
    split
    · next p hp =>
      dsimp only
      split
      · exact Function.update_eq_self_iff.mpr hp.symm
      · rfl
    · rfl
  mapped _ _ _ _ := ⟨rfl, rfl⟩

/-- Sessions that copy, in place, with any of the locations for roots. -/
theorem intact (hroots : ∀ r ∈ roots, (r.a, r.t) ∈ locations ∧ r.x = r.a) :
    Intact program.toEnv copying heap world roots :=
  intact_of_inPlace copies_copying keepsHeap_copying sameLayout
    (wellTyped fun r hr => (hroots r hr).1) rfl fun r hr => (hroots r hr).2

end Record

end CStrider.Traversal
