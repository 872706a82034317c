import CStrider.Serial.Callbacks

/-!
# Writing and reading in lockstep
-/

namespace CStrider.Serial

open Mapping (Ptr findMapping addMapping findMapping_addMapping)
open Registry (Symbols)
open TaskQueue (QUEUESIZE)
open Traversal
open CStrider.Types (Typ Entry)

/-- A frame in the process that writes. -/
def oldFrame : Frame → Frame
  | .visit a t _ => .visit a t a
  | .stmt gen d a _ => .stmt gen d a a

/-- A frame in the process that reads. -/
def newFrame : Frame → Frame
  | .visit _ t x => .visit x t x
  | .stmt gen d _ x => .stmt gen d x x

def oldTask (k : Task) : Task := { k with x := k.a }

def newTask (k : Task) : Task := { k with a := k.x }

/-- The writer, the reader that has read what was written so far, and the copy are at the same
point. -/
structure Lockstep (X : Processes) (c : Copy) (s : State File) (r : Reading) : Prop where
  running : s.status = .running
  running' : r.base.status = .running
  heap : s.world.mem = X.heap
  mem : r.base.world.mem = c.mem
  stack : s.stack = c.frames.map oldFrame
  stack' : r.base.stack = c.frames.map newFrame
  queue : s.queue.contents = c.tasks.map oldTask
  queue' : r.base.queue.contents = c.tasks.map newTask
  blocks : r.blocks = c.blocks
  given : ∀ b ∈ c.blocks, ∃ bs n, b.start = X.A.malloc bs n
  self : ∀ p, findMapping X.env.bucket s.mappings p ≠ 0 →
    findMapping X.env.bucket s.mappings p = p
  known : ∀ p, X.original.Data p → (findMapping X.env.bucket s.mappings p = 0 ↔ c.moved p = 0)
  moved : ∀ p, X.Pointer p → findMapping X.env.bucket r.base.mappings p = c.moved p
  calls : ∀ k ∈ r.calls, k.x = k.a ∧ ∃ l ∈ c.visited, l.x = k.a ∧ ∃ te, X.env.kind l.t = .ptr te

/-- The reader can follow a step of the writer: it reads what the step writes, and takes a step. -/
def Follows (X : Processes) (c : Copy) (s s' : State File) (r : Reading) : Prop :=
  ∃ f bs, s.world.own = some f ∧ s'.world.own = some (f ++ bs) ∧
    ∀ rest, r.base.world.own = bs ++ rest → ∃ c' r', Copy.Steps X.original c c' ∧
      advance X.S X.newSymbols X.A r = some r' ∧ Lockstep X c' s' r' ∧ r'.base.world.own = rest

variable {X : Processes} {c : Copy} {s s' : State File} {r : Reading} {a p q x : Ptr} {t : Typ}
  {te : Entry} {fs : List Frame} {o : List UInt8}

/-! ## The mapping tables -/

/-- A translated pointer is none of the old pointers to data. -/
theorem not_pointer_of_value (hX : X.Restorable) (hc : c.Sound X.original)
    (h : Lockstep X c s r) (hv : c.value X.original p = some q) : ¬ X.Pointer q := by
  intro hq
  rcases Copy.translated_of_value hv with ⟨-, rfl⟩ | ⟨-, hsym⟩ | ⟨-, hm, rfl⟩
  · exact hq.1.1 rfl
  · obtain ⟨name, -, rfl⟩ := Option.map_eq_some_iff.mp hsym
    unfold Symbols.lookupKey at hq
    split at hq
    · next e he => exact hX.symbols hq e (Symbols.findName_eq_some.mp he).1 rfl
    · exact hq.1.1 rfl
  · obtain ⟨b, hb, hstart⟩ := (hc.moved p hm).block
    obtain ⟨bs, n, hgiven⟩ := h.given b hb
    exact hX.blocks hq bs n (hstart.symm.trans hgiven)

/-- The reader maps an address to itself that is no old pointer. -/
theorem Lockstep.selfMapped (h : Lockstep X c s r) (hq : ¬ X.Pointer q) :
    Lockstep X c s (r.addMapping X.S q q) :=
  { h with
    moved := by
      intro k hk
      have hne : k ≠ q := by
        rintro rfl
        exact hq hk
      show findMapping X.env.bucket (Mapping.addMapping X.env.bucket r.base.mappings q q) k = _
      rw [findMapping_addMapping, if_neg fun h0 => hne h0.1]
      exact h.moved k hk }

/-- A call of `deserial_ptr` returns. -/
theorem Lockstep.returned (hX : X.Restorable) (hc : c.Sound X.original) (h : Lockstep X c s r)
    {k : Call} {ks : List Call} (hk : r.calls = k :: ks) :
    Lockstep X c s ({ r with calls := ks }.returned X.S k.te k.a k.x) := by
  obtain ⟨hx, l, hl, hla, te, hkind⟩ := h.calls k (hk ▸ List.mem_cons_self)
  obtain ⟨v, hv, p, -, ⟨hprim, -⟩ | ⟨-, hvalue⟩⟩ := hc.filled l hl (.inr ⟨te, hkind⟩)
  · cases hkind.symm.trans hprim
  · have hrest : Lockstep X c s { r with calls := ks } :=
      { h with calls := fun k' hk' => h.calls k' (hk ▸ List.mem_cons_of_mem _ hk') }
    have hmem : ({ r with calls := ks } : Reading).base.world.mem k.a = some v := by
      rw [← hla, ← hv, ← h.mem]
    rw [hx, returned_of_mem hmem]
    exact hrest.selfMapped (not_pointer_of_value hX hc h hvalue)

/-! ## Visits -/

theorem transformArray_inPlace {σ : Type} {E : Env} {s : State σ} (hE : SameLayout E)
    (hk : E.kind t = .array te) : transformArray E a t a s =
      s.push ((List.range (numArrayElems te)).map fun i =>
        .visit (a + i * getSize te) te.arrbase (a + i * getSize te)) := by
  rw [transformArray, Env.find_of_kind (.inr (.inl hk))]
  simp only [hE.outSize hk]

section Pointers

variable (hX : X.Restorable) (hc : c.Sound X.original) (h : Lockstep X c s r)
include hX hc h

omit hX in
/-- The reader finds NULL where it is to visit a pointer. -/
theorem advance_ptr (hfr : c.frames = .visit a t x :: fs) (hk : X.env.kind t = .ptr te) :
    advance X.S X.newSymbols X.A r = some (deserialPtr X.S X.newSymbols X.A te x x
      (r.setStack (fs.map newFrame))) ∧ c.mem x = some 0 := by
  have hhead : .visit a t x ∈ c.frames := hfr ▸ List.mem_cons_self
  have hx : x ≠ 0 := (hc.frames _ hhead).2
  have hzero : c.mem x = some 0 := (hc.blank _ hhead a t x (.self a t x)).1 te hk
  have hstack : r.base.stack = .visit x t x :: fs.map newFrame := by
    rw [h.stack', hfr]
    rfl
  refine ⟨?_, hzero⟩
  have hmem : (r.setStack (fs.map newFrame)).base.world.mem x = some 0 := by
    rw [← hzero, ← h.mem]
    rfl
  rw [advance, hstack]
  dsimp only
  rw [visitIn, hk]
  dsimp only
  rw [visitPtrIn, if_neg hx, hmem]
  exact congrArg some (if_neg (not_not.mpr Mapping.findMapping_null))

omit hc in
theorem fresh_next (n : Nat) : c.Fresh X.original (r.next X.A n) where
  nonNull := hX.malloc.nonNull _ _
  static := hX.malloc.static _ _
  blocks := by
    rw [← h.blocks]
    exact hX.malloc.blocks _ _

/-- The reader stores the translation of a pointer that has one. -/
theorem Lockstep.token (hfr : c.frames = .visit a t x :: fs) (hk : X.env.kind t = .ptr te)
    (hp : X.heap a = some p) (hvalue : c.value X.original p = some q)
    (hrun : s'.status = .running) (hheap : s'.world.mem = X.heap)
    (hstack : s'.stack = fs.map oldFrame) (hqueue : s'.queue = s.queue)
    (hmappings : s'.mappings = s.mappings ∨
      ¬ X.original.Data p ∧ s'.mappings = addMapping X.env.bucket s.mappings p p)
    {rest : List UInt8} (hown : r.base.world.own = X.tokenBytes p ++ rest) :
    ∃ c' r', Copy.Steps X.original c c' ∧ advance X.S X.newSymbols X.A r = some r' ∧
      Lockstep X c' s' r' ∧ r'.base.world.own = rest := by
  obtain ⟨hadvance, hzero⟩ := advance_ptr hc h hfr hk
  have hat : X.original.At a t := (hc.frames (.visit a t x) (hfr ▸ List.mem_cons_self)).1
  have hsome : (((r.setStack (fs.map newFrame)).setFile rest).base.world.mem x).isSome := by
    show (r.base.world.mem x).isSome
    rw [h.mem, hzero]
    rfl
  have hunused (n : Nat) : ¬ (r.next X.A n).Has x := fun hx =>
    (hc.cover_head hX.layout hfr (.inr ⟨te, hk⟩)).ne' (hc.unused (fresh_next hX h n) hx)
  rw [deserialPtr_token (r := r.setStack (fs.map newFrame)) hX hat hk hp hvalue h.moved hsome
    hunused hown, returned_store hsome] at hadvance
  refine ⟨_, _, .single (.store hfr ⟨p, hp, .inr ⟨⟨te, hk⟩, hvalue⟩⟩), hadvance, ?_, rfl⟩
  refine Lockstep.selfMapped (c := { c with
    frames := fs, visited := ⟨a, t, x⟩ :: c.visited, mem := Function.update c.mem x (some q) }) ?_
    (not_pointer_of_value hX hc h hvalue)
  exact
    { h with
      running := hrun
      heap := hheap
      mem := by
        show Function.update r.base.world.mem x (some q) = _
        rw [h.mem]
      stack := hstack
      stack' := rfl
      queue := by
        rw [hqueue]
        exact h.queue
      self := by
        intro k hne
        rcases hmappings with heq | ⟨-, heq⟩
        · rw [heq] at hne ⊢
          exact h.self k hne
        · rw [heq, findMapping_addMapping] at hne ⊢
          split at hne
          · next hkp =>
            rw [if_pos hkp]
            exact hkp.1.symm
          · next hkp =>
            rw [if_neg hkp]
            exact h.self k hne
      known := by
        intro k hd
        rcases hmappings with heq | ⟨hdp, heq⟩
        · rw [heq]
          exact h.known k hd
        · have hne : k ≠ p := by
            rintro rfl
            exact hdp hd
          rw [heq, findMapping_addMapping, if_neg fun h0 => hne h0.1]
          exact h.known k hd
      calls := fun k hk' => by
        obtain ⟨hx, l, hl, hrest⟩ := h.calls k hk'
        exact ⟨hx, l, List.mem_cons_of_mem _ hl, hrest⟩ }

omit hX hc in
theorem value_of_unmapped (hd : X.original.Data p)
    (hnew : findMapping X.env.bucket s.mappings p = 0) : c.value X.original p = none :=
  Copy.value_eq_none.mpr ⟨hd, (h.known p hd).mp hnew⟩

/-- The copy after a block was given out for the pointer at `a`, and the pointer stored. -/
def mallocked (c : Copy) (a : Ptr) (t : Typ) (x p : Ptr) (b : Span) (frames : List Frame)
    (strs : List Span) (m : Ptr → Option Ptr) : Copy where
  frames := frames
  tasks := c.tasks
  visited := ⟨a, t, x⟩ :: c.visited
  strings := strs ++ c.strings
  blocks := b :: c.blocks
  mem := Function.update m x (some b.start)
  moved := Function.update c.moved p b.start

variable {n : Nat} {b : Span} {new : List Frame} {strs : List Span} {m : Ptr → Option Ptr}

omit hX hc h in
theorem steps_malloc (hfr : c.frames = .visit a t x :: fs) (hk : X.env.kind t = .ptr te)
    (hfun : memoizedIsFunptr te = false) (hp : X.heap a = some p)
    (hvalue : c.value X.original p = none) (hb : c.Fresh X.original b)
    (hfill : c.Fills X.original p te.targetType b new strs m) :
    Copy.Steps X.original c (mallocked c a t x p b (new ++ fs) strs m) := by
  refine .tail (.single (.malloc hfr hk hfun hp hvalue hb hfill)) (.store rfl ?_)
  refine ⟨p, hp, .inr ⟨⟨te, hk⟩, ?_⟩⟩
  obtain ⟨⟨hp0, hsym⟩, -⟩ := Copy.value_eq_none.mp hvalue
  simp only [Copy.value, if_neg hp0, hsym, Function.update_self, if_neg hb.nonNull]

omit hc in
/-- Writer and reader have met a new pointer. -/
theorem Lockstep.malloc (hd : X.original.Data p)
    (hnew : findMapping X.env.bucket s.mappings p = 0) (hk : X.env.kind t = .ptr te)
    (hb : b = r.next X.A n) (hrun : s'.status = .running) (hheap : s'.world.mem = X.heap)
    (hstack : s'.stack = (new ++ fs).map oldFrame) (hqueue : s'.queue = s.queue)
    (hmappings : s'.mappings = addMapping X.env.bucket s.mappings p p) {r' : Reading}
    (hrun' : r'.base.status = .running)
    (hmem' : r'.base.world.mem = Function.update m x (some b.start))
    (hstack' : r'.base.stack = (new ++ fs).map newFrame) (hqueue' : r'.base.queue = r.base.queue)
    (hblocks : r'.blocks = b :: r.blocks)
    (hmappings' : r'.base.mappings = addMapping X.env.bucket r.base.mappings p b.start)
    (hcalls : ∀ k ∈ r'.calls, k ∈ r.calls ∨ k.a = x ∧ k.x = x) :
    Lockstep X (mallocked c a t x p b (new ++ fs) strs m) s' r' where
  running := hrun
  running' := hrun'
  heap := hheap
  mem := hmem'
  stack := hstack
  stack' := hstack'
  queue := by
    rw [hqueue]
    exact h.queue
  queue' := by
    rw [hqueue']
    exact h.queue'
  blocks := by
    rw [hblocks, h.blocks]
    rfl
  given := by
    intro b' hb'
    rcases List.mem_cons.mp hb' with rfl | hb'
    · exact ⟨r.blocks, n, by rw [hb]; rfl⟩
    · exact h.given b' hb'
  self := by
    intro k hne
    rw [hmappings, findMapping_addMapping] at hne ⊢
    split at hne
    · next hkp =>
      rw [if_pos hkp]
      exact hkp.1.symm
    · next hkp =>
      rw [if_neg hkp]
      exact h.self k hne
  known := by
    intro k hdk
    show _ ↔ Function.update c.moved p b.start k = 0
    rw [hmappings, findMapping_addMapping]
    by_cases hkp : k = p
    · subst hkp
      rw [if_pos ⟨rfl, hd.1, hnew⟩, Function.update_self]
      have hb0 : b.start ≠ 0 := by
        rw [hb]
        exact hX.malloc.nonNull _ _
      exact iff_of_false hd.1 hb0
    · rw [if_neg fun h0 => hkp h0.1, Function.update_of_ne hkp]
      exact h.known k hdk
  moved := by
    intro k hptr
    show _ = Function.update c.moved p b.start k
    rw [hmappings', findMapping_addMapping]
    by_cases hkp : k = p
    · subst hkp
      have hzero : findMapping X.env.bucket r.base.mappings k = 0 := by
        rw [h.moved k hptr]
        exact (h.known k hd).mp hnew
      rw [if_pos ⟨rfl, hd.1, hzero⟩, Function.update_self]
    · rw [if_neg fun h0 => hkp h0.1, Function.update_of_ne hkp]
      exact h.moved k hptr
  calls := by
    intro k hk'
    rcases hcalls k hk' with hold | ⟨hka, hkx⟩
    · obtain ⟨hx, l, hl, hrest⟩ := h.calls k hold
      exact ⟨hx, l, List.mem_cons_of_mem _ hl, hrest⟩
    · exact ⟨hkx.trans hka.symm, _, List.mem_cons_self, hka.symm, te, hk⟩

/-- A string is in the file behind its pointer, and goes into a block at once. -/
theorem follow_string {bs rest : List UInt8} (hfr : c.frames = .visit a t x :: fs)
    (hk : X.env.kind t = .ptr te) (hp : X.heap a = some p) (hd : X.original.Data p)
    (hnew : findMapping X.env.bucket s.mappings p = 0) (hchar : te.targetType = X.S.TYPE_CHAR_NT)
    (hbs : stringAt X.heap p = some bs) (hrun : s'.status = .running)
    (hheap : s'.world.mem = X.heap) (hstack : s'.stack = fs.map oldFrame)
    (hqueue : s'.queue = s.queue)
    (hmappings : s'.mappings = addMapping X.env.bucket s.mappings p p)
    (hown : r.base.world.own = wordBytes 8 p ++ stringBytes bs ++ rest) :
    ∃ c' r', Copy.Steps X.original c c' ∧ advance X.S X.newSymbols X.A r = some r' ∧
      Lockstep X c' s' r' ∧ r'.base.world.own = rest := by
  obtain ⟨hadvance, hzero⟩ := advance_ptr hc h hfr hk
  have hhead : .visit a t x ∈ c.frames := hfr ▸ List.mem_cons_self
  have hat : X.original.At a t := (hc.frames _ hhead).1
  have hptr : X.Pointer p := ⟨hd, a, t, te, hat, hk, hp⟩
  have hvalue := value_of_unmapped h hd hnew
  have hlen := hX.strings hptr hbs
  have hfun : memoizedIsFunptr te = false := by
    rw [← Bool.not_eq_true]
    exact fun hf => hX.funptr hat hk hf hp hd
  obtain ⟨b, hb⟩ : ∃ b, b = r.next X.A (bs.length + 1) := ⟨_, rfl⟩
  obtain ⟨m, hm⟩ : ∃ m, m = putBytes (putBlock (fun _ => 0) c.mem b) b.start (bs ++ [0]) :=
    ⟨_, rfl⟩
  have hfresh : c.Fresh X.original b := hb ▸ fresh_next hX h _
  have hfill : c.Fills X.original p te.targetType b [] [b] m := by
    rw [hm]
    exact .string hchar hbs (by rw [hb]; rfl)
  have hm' : m = putBytes (putBlock X.A.content
      ((r.setStack (fs.map newFrame)).setFile (stringBytes bs ++ rest)).base.world.mem b) b.start
      (bs ++ [0]) := by
    rw [hm, hX.zero, ← h.mem]
    rfl
  have hx : (m x).isSome := by
    rw [hc.mem_malloc hfresh hfill (hc.cover_head hX.layout hfr (.inr ⟨te, hk⟩)), hzero]
    rfl
  rw [List.append_assoc] at hown
  rw [deserialPtr_new (r := r.setStack (fs.map newFrame)) hX hat hk hp hvalue h.moved hown,
    deserialNew_string (r := (r.setStack (fs.map newFrame)).setFile (stringBytes bs ++ rest))
      hchar hlen rfl hb hm' hx] at hadvance
  refine ⟨_, _, steps_malloc hfr hk hfun hp hvalue hfresh hfill, hadvance, ?_, rfl⟩
  have hself : ¬ X.Pointer b.start := by
    intro hptr'
    exact hX.blocks hptr' r.blocks (bs.length + 1) (by rw [hb]; rfl)
  refine Lockstep.selfMapped ?_ hself
  have hstack : s'.stack = ([] ++ fs).map oldFrame := hstack
  exact Lockstep.malloc hX h hd hnew hk hb hrun hheap hstack hqueue hmappings h.running' rfl rfl rfl
    rfl rfl fun k hk' => .inl hk'

omit hc h in
/-- The type of an object is known. -/
theorem target_entry (hat : X.original.At a t) (hk : X.env.kind t = .ptr te)
    (hfun : memoizedIsFunptr te = false) (hp : X.heap a = some p) (hd : X.original.Data p) :
    ∃ next, X.S.prog.types.find te.targetType = some next := by
  have htarget : X.original.At p te.targetType := hat.deref hk hfun hp hd.1
  cases hkind : X.env.kind te.targetType with
  | missing => exact absurd hkind (hX.layout.typed.known htarget)
  | system => exact absurd (target_of_kind hk hfun) (not_not.mpr (eq_of_kind_system hkind))
  | prim =>
    have hpos : 0 < X.original.ext te.targetType := hX.layout.slot htarget (.inl hkind)
    unfold Original.ext at hpos
    split at hpos
    · next next hnext => exact ⟨next, hnext⟩
    · exact absurd hpos (Nat.lt_irrefl 0)
  | ptr next => exact ⟨next, Env.find_of_kind (.inl hkind)⟩
  | array next => exact ⟨next, Env.find_of_kind (.inr (.inl hkind))⟩
  | struct next => exact ⟨next, Env.find_of_kind (.inr (.inr hkind))⟩

/-- An object is visited next in its new block, in a call that is still open. -/
theorem follow_object {rest : List UInt8} (hfr : c.frames = .visit a t x :: fs)
    (hk : X.env.kind t = .ptr te) (hp : X.heap a = some p) (hd : X.original.Data p)
    (hnew : findMapping X.env.bucket s.mappings p = 0) (hchar : te.targetType ≠ X.S.TYPE_CHAR_NT)
    (hrun : s'.status = .running) (hheap : s'.world.mem = X.heap)
    (hstack : s'.stack = .visit p te.targetType p :: fs.map oldFrame) (hqueue : s'.queue = s.queue)
    (hmappings : s'.mappings = addMapping X.env.bucket s.mappings p p)
    (hown : r.base.world.own = wordBytes 8 p ++ rest) :
    ∃ c' r', Copy.Steps X.original c c' ∧ advance X.S X.newSymbols X.A r = some r' ∧
      Lockstep X c' s' r' ∧ r'.base.world.own = rest := by
  obtain ⟨hadvance, hzero⟩ := advance_ptr hc h hfr hk
  have hhead : .visit a t x ∈ c.frames := hfr ▸ List.mem_cons_self
  have hat : X.original.At a t := (hc.frames _ hhead).1
  have hvalue := value_of_unmapped h hd hnew
  have hfun : memoizedIsFunptr te = false := by
    rw [← Bool.not_eq_true]
    exact fun hf => hX.funptr hat hk hf hp hd
  obtain ⟨next, hnext⟩ := target_entry hX hat hk hfun hp hd
  obtain ⟨b, hb⟩ : ∃ b, b = r.next X.A (toAlloc next) := ⟨_, rfl⟩
  obtain ⟨m, hm⟩ : ∃ m, m = putBlock (fun _ => 0) c.mem b := ⟨_, rfl⟩
  have hfresh : c.Fresh X.original b := hb ▸ fresh_next hX h _
  have hfill : c.Fills X.original p te.targetType b [.visit p te.targetType b.start] [] m := by
    rw [hm]
    refine .object hchar ?_
    rw [hb, Original.ext, show X.original.env.types.find te.targetType = some next from hnext]
    rfl
  have hm' : m = putBlock X.A.content
      ((r.setStack (fs.map newFrame)).setFile rest).base.world.mem b := by
    rw [hm, hX.zero, ← h.mem]
    rfl
  have hx : (m x).isSome := by
    rw [hc.mem_malloc hfresh hfill (hc.cover_head hX.layout hfr (.inr ⟨te, hk⟩)), hzero]
    rfl
  rw [deserialPtr_new (r := r.setStack (fs.map newFrame)) hX hat hk hp hvalue h.moved hown,
    deserialNew_object (r := (r.setStack (fs.map newFrame)).setFile rest) hchar hnext hb hm' hx]
    at hadvance
  refine ⟨_, _, steps_malloc hfr hk hfun hp hvalue hfresh hfill, hadvance, ?_, rfl⟩
  have hstack : s'.stack = (Frame.visit p te.targetType b.start :: fs).map oldFrame := hstack
  refine Lockstep.malloc hX h hd hnew hk hb hrun hheap hstack hqueue hmappings h.running' rfl rfl
    rfl rfl rfl fun k hk' => ?_
  rcases List.mem_cons.mp hk' with rfl | hk'
  · exact .inr ⟨rfl, rfl⟩
  · exact .inl hk'

/-- **A pointer.** -/
theorem follows_ptr {s₀ : State File} (hfr : c.frames = .visit a t x :: fs)
    (hk : X.env.kind t = .ptr te) (hrun : s₀.status = .running) (hworld : s₀.world = s.world)
    (hstack : s₀.stack = fs.map oldFrame) (hqueue : s₀.queue = s.queue)
    (hmappings : s₀.mappings = s.mappings)
    (hown : (visitPtr X.env (serFuns X.S X.oldSymbols) te a t a s₀).world.own = some o) :
    Follows X c s (visitPtr X.env (serFuns X.S X.oldSymbols) te a t a s₀) r := by
  have hat : X.original.At a t := (hc.frames (.visit a t x) (hfr ▸ List.mem_cons_self)).1
  obtain ⟨p, hp⟩ := hX.layout.typed.slot hat hk
  have hwrites := writes_ptr hX hat hk hp (by rw [hworld]; exact h.heap)
    (by rw [hmappings]; exact h.self) hown
  generalize visitPtr X.env (serFuns X.S X.oldSymbols) te a t a s₀ = s' at hown hwrites ⊢
  obtain ⟨hheap, hqueue', hstatus, f, bs, hf, ho, hw⟩ := hwrites
  rw [hworld] at hf
  rw [hqueue] at hqueue'
  rw [hrun] at hstatus
  refine ⟨f, bs, hf, hown.trans (congrArg some ho), fun rest hrest => ?_⟩
  cases hw with
  | token hknown hst hmap =>
    rw [hmappings] at hknown hmap
    obtain ⟨q, hq⟩ : ∃ q, c.value X.original p = some q := by
      rw [← Option.ne_none_iff_exists']
      intro hnone
      obtain ⟨hd, hmoved⟩ := Copy.value_eq_none.mp hnone
      exact hknown hd ((h.known p hd).mpr hmoved)
    exact h.token hX hc hfr hk hp hq hstatus hheap (hst.trans hstack) hqueue' hmap hrest
  | string hd hnew hchar hbs hst hmap =>
    rw [hmappings] at hnew hmap
    exact follow_string hX hc h hfr hk hp hd hnew hchar hbs hstatus hheap (hst.trans hstack) hqueue'
      hmap hrest
  | object hd hnew hchar hst hmap =>
    rw [hmappings] at hnew hmap
    rw [hstack] at hst
    exact follow_object hX hc h hfr hk hp hd hnew hchar hstatus hheap hst hqueue' hmap hrest

end Pointers

/-! ## The other visits -/

/-- Nothing changes but what there is to do. -/
structure Opened {σ : Type} (s s' : State σ) (fs : List Frame) (ks : List Task) : Prop where
  world : s'.world = s.world
  mappings : s'.mappings = s.mappings
  status : s'.status = .running
  stack : s'.stack = fs
  queue : s'.queue.contents = s.queue.contents ++ ks

theorem opened_addtoqueue {σ : Type} {s s₀ : State σ} {k : Task} {fs : List Frame}
    (h : Opened s s₀ fs []) (hroom : (addtoqueue s₀ (some k)).status = .running) :
    Opened s (addtoqueue s₀ (some k)) fs [k] := by
  by_cases hq : s₀.queue.count < QUEUESIZE
  · rw [addtoqueue_push hq]
    refine ⟨h.world, h.mappings, h.status, h.stack, ?_⟩
    rw [Ring.contents_push, h.queue, List.append_nil]
  · rw [addtoqueue_some, dif_neg hq] at hroom
    cases hroom

theorem opened_array {σ : Type} {E : Env} {s s₀ : State σ} {fs : List Frame} (hE : SameLayout E)
    (hseq : E.parallel = false) (hk : E.kind t = .array te) (h : Opened s s₀ fs []) :
    Opened s (transformSplitArray E a t a s₀) (((List.range (numArrayElems te)).map fun i =>
      .visit (a + i * getSize te) te.arrbase (a + i * getSize te)) ++ fs) [] := by
  rw [Program.transformSplitArray_sequential hseq, transformArray_inPlace hE hk]
  exact ⟨h.world, h.mappings, h.status, by rw [State.push, h.stack], h.queue⟩

section Visits

/-- A location without a slot leads to the same in both processes. -/
theorem follows_opens (h : Lockstep X c s r) {new : List Frame} {ks : List Task}
    (hfr : c.frames = .visit a t x :: fs) (hop : X.original.Opens a x t new ks)
    (hs : Opened s s' ((new ++ fs).map oldFrame) (ks.map oldTask))
    (hown : s'.world.own = some o) {r' : Reading}
    (hadvance : advance X.S X.newSymbols X.A r = some r')
    (hr : Opened r.base r'.base ((new ++ fs).map newFrame) (ks.map newTask))
    (hblocks : r'.blocks = r.blocks) (hcalls : r'.calls = r.calls) : Follows X c s s' r := by
  have hown' : s.world.own = some o := by rw [← hs.world, hown]
  refine ⟨o, [], hown', by rw [List.append_nil, hown], fun rest hrest => ?_⟩
  refine ⟨_, r', .single (.opens hfr hop), hadvance, ?_, by rw [hr.world, hrest]; rfl⟩
  exact
    { h with
      running := hs.status
      running' := hr.status
      heap := by rw [hs.world]; exact h.heap
      mem := by rw [hr.world]; exact h.mem
      stack := hs.stack
      stack' := hr.stack
      queue := by rw [hs.queue, h.queue, ← List.map_append]
      queue' := by rw [hr.queue, h.queue', ← List.map_append]
      blocks := hblocks.trans h.blocks
      self := by rw [hs.mappings]; exact h.self
      known := by rw [hs.mappings]; exact h.known
      moved := by rw [hr.mappings]; exact h.moved
      calls := fun k hk => by
        rw [hcalls] at hk
        obtain ⟨hx, l, hl, hrest⟩ := h.calls k hk
        exact ⟨hx, l, List.mem_cons_of_mem _ hl, hrest⟩ }

/-- What takes up memory has a size. -/
theorem getSize_pos (h : 0 < X.original.ext t) (hte : X.S.prog.types.find t = some te) :
    0 < getSize te := by
  rw [Original.ext, show X.original.env.types.find t = some te from hte] at h
  dsimp only at h
  refine Nat.pos_of_ne_zero fun h0 => ?_
  have hsize : (2 ^ 64 : Int) ∣ te.size := by
    unfold getSize toSizeT at h0
    omega
  have hprod : (2 ^ 32 : Int) ∣ te.arrlen * te.size :=
    ((by decide : (2 ^ 32 : Int) ∣ 2 ^ 64).trans hsize).mul_left te.arrlen
  have halloc : toAlloc te = 0 := by
    unfold toAlloc
    split
    · have hmod : (te.arrlen * te.size) % ((2 ^ 32 : Nat) : Int) = 0 :=
        Int.emod_eq_zero_of_dvd hprod
      rw [Int.bmod, hmod]
      rfl
    · exact h0
  exact h.ne' halloc

/-- A primitive location. -/
theorem follows_prim (hX : X.Restorable) (hc : c.Sound X.original) (h : Lockstep X c s r)
    (hfr : c.frames = .visit a t x :: fs) (hk : X.env.kind t = .prim)
    (hown : (serialPrim X.S a t s.world).own = some o) (hrun : s'.status = .running)
    (hworld : s'.world = serialPrim X.S a t s.world) (hstack : s'.stack = fs.map oldFrame)
    (hqueue : s'.queue = s.queue) (hmappings : s'.mappings = s.mappings) : Follows X c s s' r := by
  have hhead : .visit a t x ∈ c.frames := hfr ▸ List.mem_cons_self
  have hat : X.original.At a t := (hc.frames _ hhead).1
  obtain ⟨f, te, v, hf, hte, hv, rfl⟩ := serialPrim_own hown
  have hv : X.heap a = some v := by rw [← h.heap, hv]
  refine ⟨f, _, hf, by rw [hworld, hown], fun rest hrest => ?_⟩
  have hsome : (((r.setStack (fs.map newFrame)).setFile rest).base.world.mem x).isSome := by
    show (r.base.world.mem x).isSome
    rw [h.mem]
    exact (hc.blank _ hhead a t x (.self a t x)).2 hk
  have hadvance : advance X.S X.newSymbols X.A r =
      some (((r.setStack (fs.map newFrame)).setFile rest).setMem
        (Function.update r.base.world.mem x (some v))) := by
    have hst : r.base.stack = .visit x t x :: fs.map newFrame := by
      rw [h.stack', hfr]
      rfl
    have hsize : cstriderGetSize X.S.prog.toEnv t = some (getSize te) := by
      rw [cstriderGetSize, hte]
      rfl
    have hpos : 0 < getSize te := getSize_pos (hX.layout.slot hat (.inl hk)) hte
    have hread := fread_append (s := r.setStack (fs.map newFrame)) hrest
      (length_wordBytes (getSize te) v)
    have hnil : wordBytes (getSize te) v ≠ [] := by
      rw [← List.length_pos_iff, length_wordBytes]
      exact hpos
    rw [advance, hst]
    dsimp only
    rw [visitIn, hk]
    dsimp only
    rw [deserialPrim, hsize]
    dsimp only
    rw [hread, if_neg hnil, freadWord_append (s := r.setStack (fs.map newFrame)) hrest]
    dsimp only
    rw [store_of_isSome hsome, bytesWord_of_lt (hX.primFits hat hk hte hv)]
    rfl
  refine ⟨_, _, .single (.store hfr ⟨v, hv, .inl ⟨hk, rfl⟩⟩), hadvance, ?_, rfl⟩
  exact
    { h with
      running := hrun
      heap := by rw [hworld]; exact h.heap
      mem := by
        show Function.update r.base.world.mem x (some v) = _
        rw [h.mem]
      stack := hstack
      stack' := rfl
      queue := by rw [hqueue]; exact h.queue
      self := by rw [hmappings]; exact h.self
      known := by rw [hmappings]; exact h.known
      calls := fun k hk => by
        obtain ⟨hx, l, hl, hrest⟩ := h.calls k hk
        exact ⟨hx, l, List.mem_cons_of_mem _ hl, hrest⟩ }

variable (hX : X.Restorable) (hc : c.Sound X.original) (h : Lockstep X c s r)
include hX hc h

/-- **A visit.** -/
theorem follows_visit (hfr : c.frames = .visit a t x :: fs)
    (hs' : s' = visit X.env (serFuns X.S X.oldSymbols) a t a { s with stack := fs.map oldFrame })
    (hrun : s'.status = .running) (hown : s'.world.own = some o) : Follows X c s s' r := by
  have hhead : .visit a t x ∈ c.frames := hfr ▸ List.mem_cons_self
  obtain ⟨hat, hx⟩ := hc.frames _ hhead
  have hst : r.base.stack = .visit x t x :: fs.map newFrame := by
    rw [h.stack', hfr]
    rfl
  have hadvance : advance X.S X.newSymbols X.A r =
      some (visitIn X.S X.newSymbols X.A x t x (r.setStack (fs.map newFrame))) := by
    rw [advance, hst]
  rw [visit_kind] at hs'
  have hpop : Opened s { s with stack := fs.map oldFrame, visits := (a, t) :: s.visits }
      (fs.map oldFrame) [] :=
    ⟨rfl, rfl, h.running, rfl, (List.append_nil _).symm⟩
  have hpop' : Opened r.base (r.setStack (fs.map newFrame)).base (fs.map newFrame) [] :=
    ⟨rfl, rfl, h.running', rfl, (List.append_nil _).symm⟩
  unfold visitIn at hadvance
  cases hk : X.env.kind t with
  | system =>
    rw [hk] at hs' hadvance
    subst hs'
    exact follows_opens h hfr (.system hk) hpop hown hadvance hpop' rfl rfl
  | missing => exact absurd hk (hX.layout.typed.known hat)
  | prim =>
    rw [hk] at hs'
    subst hs'
    exact follows_prim hX hc h hfr hk hown hrun rfl rfl rfl rfl
  | ptr te =>
    rw [hk] at hs'
    subst hs'
    exact follows_ptr hX hc h hfr hk h.running rfl rfl rfl rfl hown
  | array te =>
    rw [hk] at hs' hadvance
    have hs := opened_array (a := a) hX.sameLayout X.S.prog.sequential hk hpop
    have hr := opened_array (a := x) hX.sameLayout X.S.prog.sequential hk hpop'
    subst hs'
    refine follows_opens h hfr (.array hk) ?_ hown hadvance ?_ rfl rfl
    · rw [List.map_append, List.map_map]
      exact hs
    · rw [List.map_append, List.map_map]
      exact hr
  | struct te =>
    rw [hk] at hs' hadvance
    have ha : a ≠ 0 := hX.layout.typed.nonNull hat
    have henq : ∀ {b : Ptr}, b ≠ 0 → transformMakeEnq b t b false = some ⟨b, t, b, false⟩ :=
      fun hb => if_neg hb
    have hvisit : s' = addtoqueue ({ s with
        stack := fs.map oldFrame, visits := (a, t) :: s.visits }.note (.struct a t))
        (some ⟨a, t, a, false⟩) := by
      rw [hs', ← henq ha]
      rfl
    have hnoted : Opened s ({ s with
        stack := fs.map oldFrame, visits := (a, t) :: s.visits }.note (.struct a t))
        (fs.map oldFrame) [] :=
      ⟨hpop.world, hpop.mappings, hpop.status, hpop.stack, hpop.queue⟩
    have hs := opened_addtoqueue hnoted (hvisit ▸ hrun)
    rw [← hvisit] at hs
    have hcount : r.base.queue.count = s.queue.count := by
      rw [← Ring.length_contents, ← Ring.length_contents, h.queue, h.queue', List.length_map,
        List.length_map]
    have hroom : s.queue.count < QUEUESIZE := by
      by_contra hfull
      have hq := hs.queue
      rw [hvisit, addtoqueue_some, dif_neg (by exact hfull)] at hq
      have hlen := congrArg List.length hq
      simp [State.stop, State.note] at hlen
    have hrun' : (addtoqueue (r.setStack (fs.map newFrame)).base
        (some ⟨x, t, x, false⟩)).status = .running := by
      rw [addtoqueue_push (by rw [← hcount] at hroom; exact hroom)]
      exact h.running'
    have hr := opened_addtoqueue hpop' hrun'
    have hadvance' : advance X.S X.newSymbols X.A r = some
        ⟨addtoqueue (r.setStack (fs.map newFrame)).base (some ⟨x, t, x, false⟩),
          r.blocks, r.calls, r.short⟩ := by
      rw [hadvance, ← henq hx]
      rfl
    exact follows_opens h hfr (.struct hk) hs hown hadvance' hr rfl rfl

/-- **A statement of a generated function.** The primitive fields in front of it are copied. -/
theorem follows_stmt {gen : Typ} {d : FieldVisit} (hfr : c.frames = .stmt gen d a x :: fs)
    (hs' : s' = runStmt d a a { s with stack := fs.map oldFrame })
    (hrun : s'.status = .running) (hown : s'.world.own = some o) : Follows X c s s' r := by
  have hhead : .stmt gen d a x ∈ c.frames := hfr ▸ List.mem_cons_self
  obtain ⟨⟨hat, -⟩, te, n, hk, hfunc, hd⟩ := hc.frames _ hhead
  have hst : r.base.stack = .stmt gen d x x :: fs.map newFrame := by
    rw [h.stack', hfr]
    rfl
  obtain ⟨u, hu⟩ : ∃ u, d.type X.heap a = some u := by
    rw [runStmt, show ({ s with stack := fs.map oldFrame } : State File).world.mem = X.heap
      from h.heap] at hs'
    cases hu : d.type X.heap a with
    | some u => exact ⟨u, rfl⟩
    | none =>
      rw [hu] at hs'
      rw [hs'] at hrun
      cases hrun
  have hu' : d.type r.base.world.mem x = some u := by
    have hord := hc.ordered
    rw [hfr] at hord
    obtain ⟨te', n', ds, es, hk', hfunc', hbody, hready⟩ := hord.1
    refine hX.causal hk' hfunc' hbody (fun d' hd' v hv hprim => ?_) hu
    -- the visit of an earlier field is done
    have hdue := hready d' hd'
    rcases hdue with ⟨l, -, heq⟩ | hdone
    · cases heq
    · obtain ⟨l, hl, heq⟩ := hdone v hv
      obtain ⟨ha, rfl, hx⟩ := by simpa only [Frame.visit.injEq] using heq
      obtain ⟨w, hw, p, hp, ⟨-, rfl⟩ | ⟨⟨te'', hk''⟩, -⟩⟩ := hc.filled _ hl (.inl hprim)
      · rw [h.mem, hx, hw, ha]
        exact hp.symm
      · cases hprim.symm.trans hk''
  have hoff : d.outOff = d.inOff := hX.sameLayout.outOff hd
  rw [runStmt, show ({ s with stack := fs.map oldFrame } : State File).world.mem = X.heap
    from h.heap, hu, hoff] at hs'
  have hadvance : advance X.S X.newSymbols X.A r = some
      ⟨(r.setStack (fs.map newFrame)).base.push [.visit (x + d.inOff) u (x + d.inOff)],
        r.blocks, r.calls, r.short⟩ := by
    rw [advance, hst]
    dsimp only
    rw [runStmt, show (r.setStack (fs.map newFrame)).base.world.mem = r.base.world.mem from rfl,
      hu', hoff]
  subst hs'
  have hown' : s.world.own = some o := hown
  refine ⟨o, [], hown', by rw [List.append_nil, hown], fun rest hrest => ?_⟩
  refine ⟨_, _, .single (.field hfr hu), hadvance, ?_, hrest⟩
  exact { h with stack := rfl, stack' := rfl }

omit hX in
/-- **A task.** -/
theorem follows_task (hfr : c.frames = []) {hq : 0 < s.queue.count}
    (hs' : s' = callxformer X.env s.queue.head { s with queue := s.queue.pop hq })
    (hown : s'.world.own = some o) : Follows X c s s' r := by
  have hcontents := h.queue
  rw [Ring.contents_pop _ hq] at hcontents
  obtain ⟨k, ks, hks⟩ : ∃ k ks, c.tasks = k :: ks := by
    cases hks : c.tasks with
    | nil =>
      rw [hks] at hcontents
      cases hcontents
    | cons k ks => exact ⟨k, ks, rfl⟩
  rw [hks, List.map_cons, List.cons.injEq] at hcontents
  obtain ⟨hat, hx, hwhole, te, hk⟩ := hc.tasks k (hks ▸ List.mem_cons_self)
  have hcontents' := h.queue'
  have hq' : 0 < r.base.queue.count := by
    rw [← Ring.length_contents, hcontents', hks, List.map_cons, List.length_cons]
    exact Nat.succ_pos _
  rw [Ring.contents_pop _ hq', hks, List.map_cons, List.cons.injEq] at hcontents'
  have hst : s.stack = [] := by rw [h.stack, hfr]; rfl
  have hst' : r.base.stack = [] := by rw [h.stack', hfr]; rfl
  have hfind : X.env.types.find k.t = some te := Env.find_of_kind (.inr (.inr hk))
  have hadvance : advance X.S X.newSymbols X.A r = some
      ⟨callxformer X.env r.base.queue.head { r.base with queue := r.base.queue.pop hq' },
        r.blocks, r.calls, r.short⟩ := by
    rw [advance, hst']
    exact dif_pos hq'
  rw [hcontents.1, callxformer, show (oldTask k).t = k.t from rfl, hfind] at hs'
  rw [hcontents'.1, callxformer, show (newTask k).t = k.t from rfl, hfind] at hadvance
  dsimp only at hs' hadvance
  rw [show (oldTask k).issplit = false from hwhole, if_neg Bool.false_ne_true] at hs'
  rw [show (newTask k).issplit = false from hwhole, if_neg Bool.false_ne_true] at hadvance
  obtain ⟨new, hen, hnew, hnew'⟩ : ∃ new, X.original.Enters k new ∧
      s' = { s with queue := s.queue.pop hq }.push (new.map oldFrame) ∧
      advance X.S X.newSymbols X.A r = some
        ⟨{ r.base with queue := r.base.queue.pop hq' }.push (new.map newFrame),
          r.blocks, r.calls, r.short⟩ := by
    cases hfunc : te.func with
    | generated n =>
      rw [hfunc] at hs' hadvance
      refine ⟨_, .fields hk hfunc, ?_, ?_⟩
      · rw [hs', List.map_map]
        rfl
      · rw [hadvance, List.map_map]
        rfl
    | transformPrim =>
      rw [hfunc] at hs' hadvance
      exact ⟨_, .again hk (by rw [hfunc]; simp), hs', hadvance⟩
    | transformFptr =>
      rw [hfunc] at hs' hadvance
      exact ⟨_, .again hk (by rw [hfunc]; simp), hs', hadvance⟩
  subst hnew
  have hown' : s.world.own = some o := hown
  refine ⟨o, [], hown', by rw [List.append_nil, hown], fun rest hrest => ?_⟩
  refine ⟨_, _, .single (.task hfr hks hen), hnew', ?_, hrest⟩
  exact
    { h with
      stack := by rw [State.push, hst, List.append_nil]
      stack' := by rw [State.push, hst', List.append_nil]
      queue := hcontents.2
      queue' := hcontents'.2 }

/-- **One step.** -/
theorem follows_step (hstep : Traversal.step X.env (serFuns X.S X.oldSymbols) s = some s')
    (hrun : s'.status = .running) (hown : s'.world.own = some o) : Follows X c s s' r := by
  rw [Traversal.step, if_neg (not_not.mpr h.running)] at hstep
  cases hfr : c.frames with
  | nil =>
    have hst : s.stack = [] := by rw [h.stack, hfr]; rfl
    rw [hst] at hstep
    dsimp only at hstep
    split at hstep
    · next hq =>
      rw [← hst] at hstep
      exact follows_task hc h hfr (Option.some.inj hstep).symm hown
    · cases hstep
  | cons f fs =>
    have hst := h.stack
    rw [hfr, List.map_cons] at hst
    cases f with
    | visit a t x =>
      rw [hst] at hstep
      exact follows_visit hX hc h hfr (Option.some.inj hstep).symm hrun hown
    | stmt gen d a x =>
      rw [hst] at hstep
      exact follows_stmt hX hc h hfr (Option.some.inj hstep).symm hrun hown

end Visits

end CStrider.Serial
