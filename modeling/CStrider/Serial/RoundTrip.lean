import CStrider.Serial.Ahead
import CStrider.Serial.Lockstep

/-!
# The round trip

Each step of the writer is followed by the reader on what the step has put into the file
(`follows_step`). Before such a step of the reader, those calls of `deserial_ptr` return whose
`visit` is done. So the reader of a whole checkpoint comes to the end with it, and what it has in
memory is a copy of the heap.
-/

namespace CStrider.Serial

open Mapping (Ptr findMapping findMapping_empty)
open Traversal
open CStrider.Types (Typ Entry)

variable {X : Processes} {c : Copy} {s s' : State File} {r r' : Reading} {file o rest : List UInt8}

/-! ## Calls that return -/

theorem returned_own {S : Setting} {te : CStrider.Types.Entry} {a x : Ptr} :
    (r.returned S te a x).base.world = r.base.world :=
  followPtr_world

section Settle

variable (X) in
/-- The session of the reader. -/
abbrev Processes.restore (file : List UInt8) : Sys Reading Unit :=
  Serial.restore X.S X.newSymbols X.A X.mem file (X.roots.map fun r => ⟨r.x, r.t, r.x⟩)

variable (X) in
/-- The session of the writer. -/
abbrev Processes.checkpoint : Sys (State File) Unit :=
  Serial.checkpoint X.S X.oldSymbols X.heap (X.roots.map fun r => ⟨r.a, r.t, r.a⟩)

/-- Calls return until the next action is one of the traversal. -/
theorem settle (hX : X.Restorable) (hc : c.Sound X.original) (h : Lockstep X c s r)
    (hr : (X.restore file).Reach r) : ∃ r', (X.restore file).Reach r' ∧ Lockstep X c s r' ∧
      r'.base.world = r.base.world ∧ (c.frames = [] → r'.calls = []) ∧
      stepIn X.S X.newSymbols X.A r' = advance X.S X.newSymbols X.A r' := by
  generalize hcalls : r.calls = ks
  induction ks generalizing r with
  | nil =>
    refine ⟨r, hr, h, rfl, fun _ => hcalls, ?_⟩
    rw [stepIn, if_neg (not_not.mpr h.running'), hcalls]
  | cons k ks ih =>
    by_cases hdepth : r.base.stack.length ≤ k.depth
    · have hstep : (X.restore file).step () r =
          some ({ r with calls := ks }.returned X.S k.te k.a k.x) := by
        show stepIn X.S X.newSymbols X.A r = _
        rw [stepIn, if_neg (not_not.mpr h.running'), hcalls]
        exact if_pos hdepth
      obtain ⟨r', hr', h', hworld, hnil, hadvance⟩ :=
        ih (h.returned hX hc hcalls) (.step () hr hstep) rfl
      exact ⟨r', hr', h', hworld.trans returned_own, hnil, hadvance⟩
    · refine ⟨r, hr, h, rfl, fun hfr => ?_, ?_⟩
      · rw [h.stack', hfr] at hdepth
        exact absurd (Nat.zero_le _) hdepth
      · rw [stepIn, if_neg (not_not.mpr h.running'), hcalls]
        exact if_neg hdepth

end Settle

/-! ## What is not written -/

section Lost

variable {w : World File} {S : Setting} {symbols : Registry.Symbols} {E : Env} {a x : Ptr}
  {t : CStrider.Types.Typ} {te : CStrider.Types.Entry}

theorem fwrite_lost {bs : Option (List UInt8)} (h : w.own = none) : (fwrite bs w).own = none := by
  rw [fwrite, h]
  rfl

theorem serialPrim_lost (h : w.own = none) : (serialPrim S a t w).own = none := fwrite_lost h

theorem serialPtr_lost (h : w.own = none) : (serialPtr S symbols a t w).2.own = none := by
  unfold serialPtr
  split
  · exact fwrite_lost h
  · split
    · exact fwrite_lost h
    · split
      · exact fwrite_lost (fwrite_lost h)
      · dsimp only
        split
        · exact fwrite_lost (serialPrim_lost h)
        · exact serialPrim_lost h

theorem serialPtrMapped_lost (h : w.own = none) :
    (serialPtrMapped S symbols a t w).own = none := by
  unfold serialPtrMapped
  split
  · exact fwrite_lost h
  · split
    · exact fwrite_lost (fwrite_lost h)
    · exact serialPrim_lost h

theorem visitPtr_lost (h : s.world.own = none) :
    (visitPtr E (serFuns S symbols) te a t x s).world.own = none := by
  unfold visitPtr
  split
  · exact h
  · split
    · exact h
    · dsimp only
      split
      · split
        · exact serialPtrMapped_lost h
        · exact serialPtrMapped_lost h
      · rw [followPtr_world]
        exact serialPtr_lost h

/-- A writer that has stopped to write does not start again. -/
theorem step_lost (h : s.world.own = none) (hstep : step E (serFuns S symbols) s = some s') :
    s'.world.own = none := by
  unfold step at hstep
  split at hstep
  · cases hstep
  · split at hstep
    · next hst =>
      cases hstep
      rw [visit_kind]
      split
      · exact h
      · exact serialPrim_lost h
      · exact h
      · exact visitPtr_lost h
      · rw [(schedules_transformSplitArray).world]
        exact h
      · unfold visitStruct
        dsimp only
        split
        · rw [(schedules_addtoqueue _).world]
          exact h
        · exact h
    · cases hstep
      rw [schedules_runStmt.world]
      exact h
    · split at hstep
      · cases hstep
        rw [schedules_callxformer.world]
        exact h
      · cases hstep

end Lost

/-! ## Runs -/

theorem lockstep_start (file : List UInt8) : Lockstep X (Copy.start X.original X.mem)
    (initial ⟨X.heap, some []⟩ (X.roots.map fun r => ⟨r.a, r.t, r.a⟩))
    ⟨initial ⟨X.mem, file⟩ (X.roots.map fun r => ⟨r.x, r.t, r.x⟩), [], [], false⟩ where
  running := rfl
  running' := rfl
  heap := rfl
  mem := rfl
  stack := by
    rw [Copy.start, List.map_map]
    exact List.map_map
  stack' := by
    rw [Copy.start, List.map_map]
    exact List.map_map
  queue := Ring.contents_empty _ _
  queue' := Ring.contents_empty _ _
  blocks := rfl
  given b hb := by cases hb
  self p hp := absurd findMapping_empty hp
  known p _ := iff_of_true findMapping_empty rfl
  moved p _ := findMapping_empty
  calls k hk := by cases hk

/-- **The reader keeps up.** What the writer has put into the file so far brings the reader to the
same point, whatever comes behind it. -/
theorem keeps_up (hX : X.Restorable) (hs : X.checkpoint.Reach s) (hrun : s.status = .running)
    (hown : s.world.own = some o) (rest : List UInt8) :
    ∃ c r, (X.restore (o ++ rest)).Reach r ∧
      Copy.Steps X.original (Copy.start X.original X.mem) c ∧ Lockstep X c s r ∧
      r.base.world.own = rest := by
  induction hs generalizing o rest with
  | init hinit =>
    subst hinit
    cases hown
    exact ⟨_, _, .init rfl, .refl, lockstep_start _, rfl⟩
  | @step s s' l hs hstep ih =>
    have hstep : step X.env (serFuns X.S X.oldSymbols) s = some s' := hstep
    have hrun₀ : s.status = .running := by
      by_contra hne
      rw [step, if_pos hne] at hstep
      cases hstep
    cases hown₀ : s.world.own with
    | none =>
      rw [step_lost hown₀ hstep] at hown
      cases hown
    | some f =>
      have hsound : ∀ {c}, Copy.Steps X.original (Copy.start X.original X.mem) c →
          c.Sound X.original := (Copy.sound_start hX.layout hX.blank).steps hX.layout
      obtain ⟨bs, rfl⟩ : ∃ bs, o = f ++ bs := by
        obtain ⟨c, r, -, hc, h, -⟩ := ih hrun₀ hown₀ []
        obtain ⟨f', bs, hf', ho, -⟩ := follows_step hX (hsound hc) h hstep hrun hown
        cases hown₀.symm.trans hf'
        exact ⟨bs, Option.some.inj (hown.symm.trans ho)⟩
      obtain ⟨c, r, hr, hc, h, hrest⟩ := ih hrun₀ hown₀ (bs ++ rest)
      rw [← List.append_assoc] at hr
      obtain ⟨r₁, hr₁, h₁, hworld, -, hadvance⟩ := settle hX (hsound hc) h hr
      obtain ⟨f', bs', hf', ho, hfollows⟩ := follows_step hX (hsound hc) h₁ hstep hrun hown
      cases hown₀.symm.trans hf'
      obtain rfl : bs = bs' := List.append_cancel_left (Option.some.inj (hown.symm.trans ho))
      obtain ⟨c', r', hc', hr', h', hrest'⟩ := hfollows rest (by rw [hworld, hrest])
      exact ⟨c', r', .step () hr₁ (hadvance.trans hr'), hc.trans hc', h', hrest'⟩

/-- The reader of a checkpoint comes to the end of it, and not further. -/
theorem reads_whole (hX : X.Restorable) (hs : X.checkpoint.Reach s) (hfin : s.Finished)
    (hown : s.world.own = some file) (rest : List UInt8) :
    ∃ r, (X.restore (file ++ rest)).Reach r ∧ r.Finished ∧ r.base.world.own = rest ∧
      ∃ moved B, X.original.IsCopy r.base.world.mem moved B := by
  obtain ⟨hrun, hstack, hcount⟩ := hfin
  obtain ⟨c, r, hr, hc, h, hrest⟩ := keeps_up hX hs hrun hown rest
  have hsound := (Copy.sound_start hX.layout hX.blank).steps hX.layout hc
  obtain ⟨r', hr', h', hworld, hcalls, -⟩ := settle hX hsound h hr
  have hframes : c.frames = [] := List.map_eq_nil_iff.mp (h.stack.symm.trans hstack)
  have htasks : c.tasks = [] := by
    apply List.map_eq_nil_iff.mp
    rw [← h.queue, ← List.length_eq_zero_iff, Ring.length_contents, hcount]
  have hcount' : r'.base.queue.count = 0 := by
    rw [← Ring.length_contents, h'.queue', htasks]
    rfl
  refine ⟨r', hr', ⟨⟨h'.running', ?_, hcount'⟩, hcalls hframes⟩, by rw [hworld, hrest], ?_⟩
  · rw [h'.stack', hframes]
    rfl
  · rw [h'.mem]
    exact ⟨_, _, hsound.isCopy hX.layout hframes htasks⟩

theorem Reading.Finished.final (h : r.Finished) : (X.restore file).step () r = none := by
  obtain ⟨⟨hrun, hstack, hcount⟩, hcalls⟩ := h
  show stepIn X.S X.newSymbols X.A r = none
  rw [stepIn, if_neg (not_not.mpr hrun), hcalls]
  dsimp only
  rw [advance, hstack]
  exact dif_neg (by omega)

theorem restore_init {r r' : Reading} (h : (X.restore file).init r) (h' : (X.restore file).init r') :
    r = r' :=
  h.trans h'.symm

/-! ## A node that points to itself

A variable at 8 (later at 16) has the address of a `struct node`, with a number, a pointer to a
node, a string, and the address of a variable `g` (at 300, later at 304). -/

namespace Knot

def entry (type : Typ) (size : Int) (func : Types.Func) (target : Typ) : Entry :=
  { type := type, arrlen := 0, arrbase := 0, size := size, func := func, targetType := target
    pointerTo := 0, numGenArgs := 0, args := 0, maintype := type, outType := -1 }

/-- The fields of a node. -/
def fields : List (Nat × Typ) := [(0, 2), (8, 19), (16, 20), (24, 21)]

def program : Program where
  types := [entry 2 8 .transformPrim (-1), entry 13 8 .transformPrim (-1),
    entry 17 1 .transformPrim (-1), entry 18 32 (.generated 0) (-1), entry 19 8 .transformPrim 18,
    entry 20 8 .transformPrim 17, entry 21 8 .transformPrim 2]
  mktyparr _ t := t
  body _ _ := fields.map fun f => ⟨f.1, f.1, fun _ _ => some f.2⟩
  bucket a := a
  parallel := false
  sequential := rfl
  depth t := if t = 18 then 1 else 0
  depth_elem := by
    intro t te hk
    have harr := Env.isArray_of_kind hk
    have hmem := Types.TypeTable.mem_of_find (Env.find_of_kind (.inr (.inl hk)))
    simp only [List.mem_cons, List.not_mem_nil, or_false] at hmem
    rcases hmem with rfl | rfl | rfl | rfl | rfl | rfl | rfl <;> cases harr
  depth_field := by
    intro t te n c m a u hk hf hc hu
    have htype := Types.TypeTable.type_of_find (Env.find_of_kind (.inr (.inr hk)))
    have hmem := Types.TypeTable.mem_of_find (Env.find_of_kind (.inr (.inr hk)))
    simp only [List.mem_cons, List.not_mem_nil, or_false] at hmem
    rcases hmem with rfl | rfl | rfl | rfl | rfl | rfl | rfl <;> cases hf
    obtain rfl : 18 = t := htype
    obtain ⟨f, hmem, rfl⟩ := List.mem_map.mp hc
    cases hu
    exact (by decide : ∀ f ∈ fields, (if f.2 = 18 then 1 else 0) < 1) f hmem

def heap : Ptr → Option Ptr
  | 8 => some 100
  | 100 => some 7
  | 108 => some 100
  | 116 => some 200
  | 124 => some 300
  | 200 => some 104
  | 201 => some 105
  | 202 => some 0
  | _ => none

/-- `malloc` that goes on behind all blocks. -/
def malloc (bs : List Span) (_ : Nat) : Ptr :=
  bs.foldr (fun b q => max (b.start + b.len + 1) q) 1000

/-- The table of a program with the variable `g`. -/
def symbols (g : Ptr) : Registry.Symbols := ⟨[⟨"g", g⟩], [⟨"g", g⟩], by simp, by simp, by simp⟩

def processes : Processes where
  S := ⟨program, 13, 17, 20⟩
  A := ⟨malloc, fun _ => 0, fun _ => 0⟩
  oldSymbols := symbols 300
  newSymbols := symbols 304
  heap := heap
  mem a := if a = 16 then some 0 else none
  roots := [⟨8, 19, 16⟩]
  Static y := y < 1000

/-- What the writer writes. -/
def bytes : List UInt8 :=
  wordBytes 8 100 ++ wordBytes 8 7 ++ wordBytes 8 100 ++
    (wordBytes 8 200 ++ wordBytes 4 3 ++ [104, 105, 0]) ++
    (wordBytes 8 SER_SYMBOL ++ wordBytes 4 2 ++ [103, 0])

theorem written : ∃ s, processes.checkpoint.Reach s ∧ s.Finished ∧ s.world.own = some bytes := by
  obtain ⟨s, hs, hfin, hown⟩ : ∃ s, processes.checkpoint.Reach s ∧
      (s.status = .running ∧ s.stack.isEmpty = true ∧ s.queue.count = 0) ∧
        s.world.own = some bytes :=
    Sys.exists_reach rfl (show (Sys.run _ (List.replicate 11 ()) _).any _ = true by decide +kernel)
  exact ⟨s, hs, ⟨hfin.1, List.isEmpty_iff.mp hfin.2.1, hfin.2.2⟩, hown⟩

/-! ### What the callbacks rely on -/

variable {a p : Ptr} {t : Typ} {te : Entry}

/-- All locations that there are. -/
def locations : List (Ptr × Typ) :=
  [(8, 19), (100, 18), (100, 2), (108, 19), (116, 20), (124, 21), (200, 17), (300, 2)]

theorem kind_cases (h : program.kind t = .ptr te ∨ program.kind t = .array te ∨
    program.kind t = .struct te) :
    t = 18 ∧ program.kind t = .struct te ∨
      program.kind t = .ptr te ∧ memoizedIsFunptr te = false ∧
        (t = 19 ∧ te.targetType = 18 ∨ t = 20 ∧ te.targetType = 17 ∨
          t = 21 ∧ te.targetType = 2) := by
  have hfind := Env.find_of_kind h
  have htype := Types.TypeTable.type_of_find hfind
  have hmem := Types.TypeTable.mem_of_find hfind
  simp only [program, List.mem_cons, List.not_mem_nil, or_false] at hmem
  rcases hmem with rfl | rfl | rfl | rfl | rfl | rfl | rfl
  · obtain rfl : 2 = t := htype
    rcases h with h | h | h <;> cases h
  · obtain rfl : 13 = t := htype
    rcases h with h | h | h <;> cases h
  · obtain rfl : 17 = t := htype
    rcases h with h | h | h <;> cases h
  · obtain rfl : 18 = t := htype
    exact .inl ⟨rfl, rfl⟩
  · obtain rfl : 19 = t := htype
    exact .inr ⟨rfl, rfl, .inl ⟨rfl, rfl⟩⟩
  · obtain rfl : 20 = t := htype
    exact .inr ⟨rfl, rfl, .inr (.inl ⟨rfl, rfl⟩)⟩
  · obtain rfl : 21 = t := htype
    exact .inr ⟨rfl, rfl, .inr (.inr ⟨rfl, rfl⟩)⟩

theorem not_array (h : program.kind t = .array te) : False := by
  rcases kind_cases (.inr (.inl h)) with ⟨rfl, h'⟩ | ⟨h', -⟩ <;> cases h.symm.trans h'

theorem eq_of_struct (h : program.kind t = .struct te) : t = 18 := by
  rcases kind_cases (.inr (.inr h)) with ⟨rfl, -⟩ | ⟨h', -⟩
  · rfl
  · cases h.symm.trans h'

theorem body_cases {d : FieldVisit} {n : Nat} {m : Ptr → Option Ptr} {u : Typ}
    (hd : d ∈ program.body n t) (hu : d.type m a = some u) :
    d.outOff = d.inOff ∧ (d.inOff, u) ∈ fields := by
  obtain ⟨f, hf, rfl⟩ := List.mem_map.mp hd
  cases hu
  exact ⟨rfl, hf⟩

/-- Where a pointer can be, and what it is. -/
theorem pointer_cases (hat : (a, t) ∈ locations) (hk : program.kind t = .ptr te)
    (hp : heap a = some p) : memoizedIsFunptr te = false ∧
      (t = 19 ∧ te.targetType = 18 ∧ p = 100 ∨ t = 20 ∧ te.targetType = 17 ∧ p = 200 ∨
        t = 21 ∧ te.targetType = 2 ∧ p = 300) := by
  rcases kind_cases (.inl hk) with ⟨rfl, h⟩ | ⟨-, hfun, htarget⟩
  · cases hk.symm.trans h
  · refine ⟨hfun, ?_⟩
    simp only [locations, List.mem_cons, Prod.mk.injEq, List.not_mem_nil, or_false] at hat
    rcases htarget with ⟨rfl, htarget⟩ | ⟨rfl, htarget⟩ | ⟨rfl, htarget⟩
    · obtain rfl | rfl : a = 8 ∨ a = 108 := by simpa using hat
      all_goals cases hp; exact .inl ⟨rfl, htarget, rfl⟩
    · obtain rfl : a = 116 := by simpa using hat
      cases hp
      exact .inr (.inl ⟨rfl, htarget, rfl⟩)
    · obtain rfl : a = 124 := by simpa using hat
      cases hp
      exact .inr (.inr ⟨rfl, htarget, rfl⟩)

theorem reaches_locations (h : processes.original.At a t) : (a, t) ∈ locations := by
  induction h with
  | root hr =>
    obtain rfl := List.mem_singleton.mp hr
    decide
  | @deref a p t te _ hk _ hp _ ih =>
    obtain ⟨-, ⟨-, ht, rfl⟩ | ⟨-, ht, rfl⟩ | ⟨-, ht, rfl⟩⟩ := pointer_cases ih hk hp <;>
      · rw [ht]
        decide
  | elem _ hk => exact (not_array hk).elim
  | @field a t u te n d _ hk _ hd hu ih =>
    obtain rfl := eq_of_struct hk
    obtain rfl : a = 100 := by simpa [locations] using ih
    exact (by decide : ∀ f ∈ fields, (100 + f.1, f.2) ∈ locations) _ (body_cases hd hu).2

theorem layout : processes.original.Layout where
  typed :=
    { known := by
        intro a t hat hk
        have hmem := reaches_locations hat
        simp only [locations, List.mem_cons, Prod.mk.injEq, List.not_mem_nil, or_false] at hmem
        rcases hmem with ⟨_, rfl⟩ | ⟨_, rfl⟩ | ⟨_, rfl⟩ | ⟨_, rfl⟩ | ⟨_, rfl⟩ | ⟨_, rfl⟩ | ⟨_, rfl⟩ |
          ⟨_, rfl⟩ <;> cases hk
      nonNull := by
        rintro a t hat rfl
        have hmem := reaches_locations hat
        simp [locations] at hmem
      slot := by
        intro a t te hat hk
        have hmem := reaches_locations hat
        simp only [locations, List.mem_cons, Prod.mk.injEq, List.not_mem_nil, or_false] at hmem
        rcases hmem with ⟨rfl, _⟩ | ⟨_, rfl⟩ | ⟨_, rfl⟩ | ⟨rfl, _⟩ | ⟨rfl, _⟩ | ⟨rfl, _⟩ | ⟨_, rfl⟩ |
          ⟨_, rfl⟩
        · exact ⟨100, rfl⟩
        · cases hk
        · cases hk
        · exact ⟨100, rfl⟩
        · exact ⟨200, rfl⟩
        · exact ⟨300, rfl⟩
        · cases hk
        · cases hk
      field := by
        intro a t te n d _ hk _ hd
        obtain ⟨f, -, rfl⟩ := List.mem_map.mp hd
        exact ⟨f.2, fun _ _ => rfl⟩ }
  slot := by
    intro a t hat _
    exact (by decide : ∀ l ∈ locations, 0 < processes.original.ext l.2) _ (reaches_locations hat)
  stride _ hk := (not_array hk).elim
  elem _ hk := (not_array hk).elim
  field := by
    intro a t u te n d hat hk _ hd hu
    obtain rfl := eq_of_struct hk
    exact (by decide : ∀ f ∈ fields, f.1 + processes.original.ext f.2 ≤
      processes.original.ext 18) _ (body_cases hd hu).2
  apart := by
    intro a t te n _ _ _
    have hfields : fields.Pairwise fun f g => f.1 + processes.original.ext f.2 ≤ g.1 := by decide
    refine List.pairwise_map.mpr (hfields.imp fun hfg u v hu hv => .inl ?_)
    cases hu
    cases hv
    exact hfg
  roots := List.pairwise_singleton _ _
  nonNull := by
    intro r hr
    obtain rfl := List.mem_singleton.mp hr
    decide
  static := by
    intro r hr y hy
    obtain rfl := List.mem_singleton.mp hr
    exact hy.2.trans_le (by decide)

theorem causal : Causal program.toEnv := by
  intro t te n ds es d m m' a a' u _ _ hbody _ hu
  have hd : d ∈ program.body n t := by
    rw [hbody]
    exact List.mem_append_right _ List.mem_cons_self
  obtain ⟨f, -, rfl⟩ := List.mem_map.mp hd
  exact hu

theorem le_malloc (bs : List Span) (n : Nat) : 1000 ≤ malloc bs n := by
  induction bs with
  | nil => exact le_rfl
  | cons b bs ih => exact ih.trans (le_max_right _ _)

theorem malloc_proper : Allocator.Proper processes.A processes.Static := by
  have hhigh : ∀ bs n, ∀ b ∈ bs, b.start + b.len < malloc bs n := by
    intro bs n b hb
    induction bs with
    | nil => cases hb
    | cons b' bs ih =>
      rcases List.mem_cons.mp hb with rfl | hb
      · exact Nat.le_max_left _ _
      · exact (ih hb).trans_le (le_max_right _ _)
  refine ⟨fun bs n => ?_, fun bs n y hy => ?_, fun bs n b hb => ⟨?_, fun y hy hy' => ?_⟩⟩
  · exact Nat.ne_of_gt (Nat.lt_of_lt_of_le (by decide : 0 < 1000) (le_malloc bs n))
  · exact Nat.not_lt.mpr ((le_malloc bs n).trans hy.1)
  · exact Nat.ne_of_lt ((Nat.le_add_right _ _).trans_lt (hhigh bs n b hb))
  · exact absurd (hhigh bs n b hb) (Nat.not_lt.mpr (hy.1.trans hy'.2.le))

theorem pointer_eq (h : processes.Pointer p) : p = 100 ∨ p = 200 ∨ p = 300 := by
  obtain ⟨-, a, t, te, hat, hk, hp⟩ := h
  obtain ⟨-, ⟨-, -, rfl⟩ | ⟨-, -, rfl⟩ | ⟨-, -, rfl⟩⟩ :=
    pointer_cases (reaches_locations hat) hk hp
  · exact .inl rfl
  · exact .inr (.inl rfl)
  · exact .inr (.inr rfl)

theorem restorable : processes.Restorable where
  layout := layout
  sameLayout :=
    { outSize := fun hk => (not_array hk).elim
      outOff := fun hd => (by
        obtain ⟨f, -, rfl⟩ := List.mem_map.mp hd
        rfl) }
  causal := causal
  blank := by
    intro r hr b u y hin
    obtain rfl := List.mem_singleton.mp hr
    cases hin with
    | self => exact ⟨fun _ _ => rfl, fun hk => by cases hk⟩
    | elem hk => exact (not_array hk).elim
    | field hk => cases hk
  primFits := by
    intro a t te v hat hk hfind hv
    have hmem := reaches_locations hat
    simp only [locations, List.mem_cons, Prod.mk.injEq, List.not_mem_nil, or_false] at hmem
    rcases hmem with ⟨_, rfl⟩ | ⟨_, rfl⟩ | ⟨rfl, rfl⟩ | ⟨_, rfl⟩ | ⟨_, rfl⟩ | ⟨_, rfl⟩ |
      ⟨rfl, rfl⟩ | ⟨rfl, rfl⟩
    · cases hk
    · cases hk
    · cases hfind
      cases hv
      decide
    · cases hk
    · cases hk
    · cases hk
    · cases hfind
      cases hv
      decide
    · cases hv
  ptrFits := by
    intro a t te p hat hk hp
    obtain ⟨-, ⟨-, -, rfl⟩ | ⟨-, -, rfl⟩ | ⟨-, -, rfl⟩⟩ :=
      pointer_cases (reaches_locations hat) hk hp <;> decide
  ptrSize := by
    intro a t te _ hk
    obtain ⟨-, -, ⟨rfl, -⟩ | ⟨rfl, -⟩ | ⟨rfl, -⟩⟩ | ⟨rfl, h⟩ := (kind_cases (.inl hk)).symm
    · cases hk
      rfl
    · cases hk
      rfl
    · cases hk
      rfl
    · cases hk.symm.trans h
  opaqueSize := rfl
  charNt := by
    intro a t te _ hk
    obtain ⟨-, -, ⟨rfl, h⟩ | ⟨rfl, h⟩ | ⟨rfl, h⟩⟩ | ⟨rfl, h⟩ := (kind_cases (.inl hk)).symm
    · rw [h]
      decide
    · rw [h]
      decide
    · rw [h]
      decide
    · cases hk.symm.trans h
  funptr := by
    intro a t te p hat hk hfun hp
    rw [(pointer_cases (reaches_locations hat) hk hp).1] at hfun
    cases hfun
  strings := by
    intro p bs hp hbs
    rcases pointer_eq hp with rfl | rfl | rfl
    · cases (by decide +kernel : stringAt heap 100 = none).symm.trans hbs
    · cases (by decide +kernel : stringAt heap 200 = some [104, 105]).symm.trans hbs
      decide
    · cases (by decide +kernel : stringAt heap 300 = none).symm.trans hbs
  oldNames := by
    intro e he
    obtain rfl := List.mem_singleton.mp he
    decide
  newNames := by
    intro e he
    obtain rfl := List.mem_singleton.mp he
    decide
  shortNames := by
    intro e he
    obtain rfl := List.mem_singleton.mp he
    decide
  malloc := malloc_proper
  zero := rfl
  token := by
    intro p hp
    rcases pointer_eq hp with rfl | rfl | rfl <;> decide
  blocks := by
    intro p hp bs n heq
    have hlow : 1000 ≤ p := heq ▸ le_malloc bs n
    rcases pointer_eq hp with rfl | rfl | rfl <;> exact absurd hlow (by decide)
  symbols := by
    intro p hp e he
    obtain rfl := List.mem_singleton.mp he
    rcases pointer_eq hp with rfl | rfl | rfl <;> decide

end Knot

/-! ## The results -/

/-- **The round trip.** The reader of a checkpoint, whatever follows it in the file, is at no time
in a state from which it does not come to the end of the checkpoint with a copy of the heap. -/
theorem round_trip (hX : X.Restorable) (hs : X.checkpoint.Reach s) (hfin : s.Finished)
    (hown : s.world.own = some file) (rest : List UInt8) (hr : (X.restore (file ++ rest)).Reach r) :
    ∃ r', (X.restore (file ++ rest)).Later r r' ∧ r'.Finished ∧ r'.base.world.own = rest ∧
      ∃ moved B, X.original.IsCopy r'.base.world.mem moved B := by
  obtain ⟨r', hr', hfin', hrest, hcopy⟩ := reads_whole hX hs hfin hown rest
  exact ⟨r', hr.later_of_final restore_init hr' hfin'.final, hfin', hrest, hcopy⟩

theorem round_trip_knot : ∃ r,
    (Knot.processes.restore (Knot.bytes ++ [])).Reach r ∧ r.Finished ∧
      r.base.world.own = [] ∧
      ∃ moved B, Knot.processes.original.IsCopy r.base.world.mem moved B := by
  obtain ⟨s, hs, hfin, hown⟩ := Knot.written
  obtain ⟨r, hlater, hr⟩ := round_trip Knot.restorable hs hfin hown [] (.init rfl)
  exact ⟨r, .later (.init rfl) hlater, hr⟩

/-- **A reader comes to the end of a file that was cut off only where an `fread` falls short.** -/
theorem truncated (hX : X.Restorable) (hs : X.checkpoint.Reach s) (hfin : s.Finished)
    {front lost : List UInt8} (hown : s.world.own = some (front ++ lost)) (hlost : lost ≠ [])
    (hr : (X.restore front).Reach r) (hfin' : r.Finished) : r.short = true := by
  by_contra hshort
  rw [Bool.not_eq_true] at hshort
  obtain ⟨r', hr', hdone, hrest, -⟩ := reads_whole hX hs hfin hown []
  have hahead : (X.restore (front ++ lost)).Reach (r.ahead lost) := reach_ahead hr hshort
  rw [List.append_nil] at hr'
  -- both are where the same reader comes to its end
  have hlater := hahead.later_of_final restore_init hr' hdone.final
  rcases hlater.cases with rfl | ⟨r₁, hstep, -⟩
  · exact hlost (List.append_eq_nil_iff.mp hrest).2
  · have hfinal : (X.restore (front ++ lost)).step () (r.ahead lost) = none :=
      Reading.Finished.final (r := r.ahead lost) hfin'
    cases hfinal.symm.trans hstep

/-- Without the symbol at its end the file is read to the end all the same. -/
theorem truncated_knot : ∃ r, (Knot.processes.restore (Knot.bytes.take 39)).Reach r ∧ r.Finished ∧
    r.short = true := by
  obtain ⟨r, hr, hfin⟩ : ∃ r, (Knot.processes.restore (Knot.bytes.take 39)).Reach r ∧
      r.base.status = .running ∧ r.base.stack.isEmpty = true ∧ r.base.queue.count = 0 ∧
        r.calls.isEmpty = true :=
    Sys.exists_reach rfl (show (Sys.run _ (List.replicate 12 ()) _).any _ = true by decide +kernel)
  obtain ⟨s, hs, hdone, hown⟩ := Knot.written
  have hr' : r.Finished :=
    ⟨⟨hfin.1, List.isEmpty_iff.mp hfin.2.1, hfin.2.2.1⟩, List.isEmpty_iff.mp hfin.2.2.2⟩
  exact ⟨r, hr, hr', truncated Knot.restorable hs hdone
    (hown.trans (congrArg some (List.take_append_drop 39 Knot.bytes).symm)) (by decide) hr hr'⟩

end CStrider.Serial
