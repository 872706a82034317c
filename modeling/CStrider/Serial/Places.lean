import CStrider.Serial.Copying

/-!
# The places of a copy

What a state of the copy has to satisfy (`Copy.Sound`), and the part of it that is about places:
every step is at locations that can be reached, covers no address of the new memory twice, and
writes to no location that it is not at, so that what waits for its visit stays blank.
-/

namespace CStrider.Serial

open Mapping (Ptr)
open Traversal
open CStrider.Types (Typ Entry)

namespace Original

variable (O : Original)

/-- The frame is for a location, or a field of one, that can be reached. -/
def Placed : Frame → Prop
  | .visit a t x => O.At a t ∧ x ≠ 0
  | .stmt gen d a x => (O.At a gen ∧ x ≠ 0) ∧
    ∃ te n, O.env.kind gen = .struct te ∧ te.func = .generated n ∧ d ∈ O.env.body n gen

structure TaskPlaced (k : Task) : Prop where
  place : O.At k.a k.t
  nonNull : k.x ≠ 0
  whole : k.issplit = false
  struct : ∃ te, O.env.kind k.t = .struct te

/-- `D` has the visit, or it has the statement or what this visits. -/
def Due (D : Frame → Prop) : Frame → Prop
  | .visit a t x => D (.visit a t x)
  | .stmt gen d a x => D (.stmt gen d a x) ∨
    ∀ u, d.type O.heap a = some u → D (.visit (a + d.inOff) u (x + d.inOff))

/-- The statements for the fields in front of that of the frame are due. -/
def Ready (D : Frame → Prop) : Frame → Prop
  | .visit _ _ _ => True
  | .stmt gen d a x => ∃ te n ds es, O.env.kind gen = .struct te ∧ te.func = .generated n ∧
    O.env.body n gen = ds ++ d :: es ∧ ∀ d' ∈ ds, O.Due D (.stmt gen d' a x)

/-- Each frame is ready when the frames above it are done. -/
def Ordered : (Frame → Prop) → List Frame → Prop
  | _, [] => True
  | D, f :: fs => O.Ready D f ∧ Ordered (fun g => g = f ∨ D g) fs

variable {O} {D D' : Frame → Prop} {f : Frame} {fs new : List Frame} {ks : List Task} {k : Task}
  {a x q : Ptr} {t : Typ} {te : Entry}

theorem due_of (h : D f) : O.Due D f := by
  cases f with
  | visit a t x => exact h
  | stmt gen d a x => exact .inl h

theorem Due.trans (h : O.Due D f) (hD : ∀ g, D g → O.Due D' g) : O.Due D' f := by
  cases f with
  | visit a t x => exact hD _ h
  | stmt gen d a x =>
    rcases h with h | h
    · exact hD _ h
    · exact .inr fun u hu => hD (.visit _ u _) (h u hu)

theorem Ready.trans (h : O.Ready D f) (hD : ∀ g, D g → O.Due D' g) : O.Ready D' f := by
  cases f with
  | visit a t x => trivial
  | stmt gen d a x =>
    obtain ⟨te, n, ds, es, hk, hf, hbody, hds⟩ := h
    exact ⟨te, n, ds, es, hk, hf, hbody, fun d' hd' => (hds d' hd').trans hD⟩

theorem Ordered.trans (h : O.Ordered D fs) (hD : ∀ g, D g → O.Due D' g) : O.Ordered D' fs := by
  induction fs generalizing D D' with
  | nil => trivial
  | cons f fs ih =>
    refine ⟨h.1.trans hD, ih h.2 fun g hg => ?_⟩
    rcases hg with rfl | hg
    · exact due_of (.inl rfl)
    · exact (hD g hg).trans fun e he => due_of (.inr he)

/-- Visits on top of what is ordered. -/
theorem Ordered.visits (h : O.Ordered D fs) (hnew : ∀ f ∈ new, ∃ a t x, f = .visit a t x) :
    O.Ordered D (new ++ fs) := by
  induction new generalizing D with
  | nil => exact h
  | cons f new ih =>
    obtain ⟨a, t, x, rfl⟩ := hnew _ List.mem_cons_self
    refine ⟨trivial, ih (h.trans fun g hg => due_of (.inr hg)) fun f hf => ?_⟩
    exact hnew f (List.mem_cons_of_mem _ hf)

/-- The statements of a generated function. -/
theorem ordered_stmts {gen : Typ} {n : Nat} {ds es : List FieldVisit}
    (hk : O.env.kind gen = .struct te) (hf : te.func = .generated n)
    (hbody : O.env.body n gen = ds ++ es) (hds : ∀ d ∈ ds, D (.stmt gen d a x)) :
    O.Ordered D (es.map fun d => .stmt gen d a x) := by
  induction es generalizing ds D with
  | nil => trivial
  | cons d es ih =>
    refine ⟨⟨te, n, ds, es, hk, hf, hbody, fun d' hd' => due_of (hds d' hd')⟩, ?_⟩
    have hbody' : O.env.body n gen = (ds ++ [d]) ++ es := by
      rw [hbody, List.append_assoc]
      rfl
    refine ih hbody' fun d' hd' => ?_
    rcases List.mem_append.mp hd' with hd' | hd'
    · exact .inr (hds d' hd')
    · exact .inl (by rw [List.mem_singleton.mp hd'])

end Original

/-! ## Invariants -/

namespace Copy

variable (O : Original) (c : Copy)

/-- How often the locations that are to be visited, the slots that were and the strings cover an
address. -/
def cover (q : Ptr) : Nat :=
  Span.cover (c.frames.map O.frameSpan) q + Span.cover (c.tasks.map O.taskSpan) q +
    Span.cover (c.visited.map O.slotSpan) q + Span.cover c.strings q

/-- The visits that were made. -/
def Done (f : Frame) : Prop := ∃ r ∈ c.visited, f = .visit r.a r.t r.x

/-- The visits that were made and what is to be done. -/
def Seen (f : Frame) : Prop := f ∈ c.frames ∨ c.Done f

/-- How a pointer got its new address. -/
structure Target (p : Ptr) : Prop where
  data : O.Data p
  block : ∃ b ∈ c.blocks, b.start = c.moved p
  copied : ∃ a t x te, c.Seen (.visit a t x) ∧ O.env.kind t = .ptr te ∧ O.heap a = some p ∧
    if te.targetType = O.charNt then ∃ bs, stringAt O.heap p = some bs ∧
      stringAt c.mem (c.moved p) = some bs ∧ ⟨c.moved p, bs.length + 1⟩ ∈ c.strings
    else c.Seen (.visit p te.targetType (c.moved p))

structure Sound : Prop where
  frames : ∀ f ∈ c.frames, O.Placed f
  tasks : ∀ k ∈ c.tasks, O.TaskPlaced k
  visited : ∀ r ∈ c.visited, O.At r.a r.t
  apart : ∀ q, c.cover O q ≤ 1
  used : ∀ q, 0 < c.cover O q → O.Static q ∨ ∃ b ∈ c.blocks, b.Has q
  blank : ∀ f ∈ c.frames, O.On (O.Blank c.mem) f
  blankTasks : ∀ k ∈ c.tasks, O.Blank c.mem k.a k.t k.x
  filled : ∀ r ∈ c.visited, O.Slot r.t → ∃ v, c.mem r.x = some v ∧ c.Content O r.a r.t v
  ordered : O.Ordered c.Done c.frames
  elem : ∀ r ∈ c.visited, ∀ te i, O.env.kind r.t = .array te → i < numArrayElems te →
    c.Seen (.visit (r.a + i * getSize te) te.arrbase (r.x + i * getSize te))
  field : ∀ r ∈ c.visited, ∀ te n, O.env.kind r.t = .struct te → te.func = .generated n →
    ⟨r.a, r.t, r.x, false⟩ ∈ c.tasks ∨ ∀ d ∈ O.env.body n r.t, O.Due c.Seen (.stmt r.t d r.a r.x)
  roots : ∀ r ∈ O.roots, c.Seen (.visit r.a r.t r.x)
  moved : ∀ p, c.moved p ≠ 0 → c.Target O p
  injective : ∀ p p', c.moved p ≠ 0 → c.moved p = c.moved p' → p = p'

/-! ## Where a step puts things -/

section Cover

variable {O} {c} {c' : Copy} {fs new : List Frame} {ks : List Task} {k : Task} {a x q : Ptr}
  {t : Typ}

/-- What a visit leads to covers no more than its location. -/
theorem cover_opens (hO : O.Layout) (hat : O.At a t) (h : O.Opens a x t new ks) :
    Span.cover (new.map O.frameSpan) q + Span.cover (ks.map O.taskSpan) q +
      Span.cover [O.slotSpan ⟨a, t, x⟩] q ≤ Span.cover [O.place t x] q := by
  have hslot : ¬ O.Slot t → Span.cover [O.slotSpan ⟨a, t, x⟩] q = 0 := by
    intro hno
    rw [Span.cover_eq_zero]
    intro s hs
    rw [List.mem_singleton.mp hs, Original.slotSpan]
    split
    · next hk => exact absurd (.inl hk) hno
    · next hk => exact absurd (.inr ⟨_, hk⟩) hno
    · exact Span.not_has_empty 0
  cases h with
  | system hk =>
    rw [hslot (by rintro (h | ⟨te, h⟩) <;> cases hk.symm.trans h)]
    exact Nat.zero_le _
  | struct hk =>
    rw [hslot (by rintro (h | ⟨te, h⟩) <;> cases hk.symm.trans h)]
    simp [Original.taskSpan]
  | @array te hk =>
    rw [hslot (by rintro (h | ⟨te, h⟩) <;> cases hk.symm.trans h), List.map_map]
    apply Span.cover_le_of_within
    · rw [List.pairwise_map]
      apply List.pairwise_lt_range.imp
      intro i j hij z hz hz'
      have hstride := hO.stride hat hk
      have hmul : (i + 1) * getSize te ≤ j * getSize te := Nat.mul_le_mul_right _ hij
      simp only [Function.comp_apply, Original.frameSpan, Original.place, Span.Has] at hz hz'
      rw [Nat.succ_mul] at hmul
      omega
    · intro r hr z hz
      obtain ⟨i, hi, rfl⟩ := List.mem_map.mp hr
      have hsize := hO.elem hat hk (List.mem_range.mp hi)
      simp only [Function.comp_apply, Original.frameSpan, Original.place, Span.Has] at hz ⊢
      omega

/-- What a task leads to covers no more than the struct. -/
theorem cover_enters (hO : O.Layout) (hat : O.At k.a k.t) (h : O.Enters k new) :
    Span.cover (new.map O.frameSpan) q ≤ Span.cover [O.taskSpan k] q := by
  cases h with
  | again => exact Nat.le_refl _
  | @fields te n hk hf =>
    rw [List.map_map]
    apply Span.cover_le_of_within
    · rw [List.pairwise_map]
      apply (hO.apart hat hk hf).imp
      intro d e hde z hz hz'
      simp only [Function.comp_apply, Original.frameSpan] at hz hz'
      cases hu : d.type O.heap k.a with
      | none => rw [hu] at hz; exact Span.not_has_empty 0 hz
      | some u =>
        cases hv : e.type O.heap k.a with
        | none => rw [hv] at hz'; exact Span.not_has_empty 0 hz'
        | some v =>
          have hoff := hde u v hu hv
          simp only [hu, hv, Original.place, Span.Has] at hz hz'
          omega
    · intro r hr z hz
      obtain ⟨d, hd, rfl⟩ := List.mem_map.mp hr
      simp only [Function.comp_apply, Original.frameSpan] at hz
      cases hu : d.type O.heap k.a with
      | none => rw [hu] at hz; exact absurd hz (Span.not_has_empty 0)
      | some u =>
        have hsize := hO.field hat hk hf hd hu
        simp only [hu, Original.place, Original.taskSpan, Span.Has] at hz ⊢
        omega

theorem slotSpan_of_slot (h : O.Slot t) : O.slotSpan ⟨a, t, x⟩ = O.place t x := by
  rcases h with h | ⟨te, h⟩ <;> simp only [Original.slotSpan, h]

theorem Content.slot {v : Ptr} (h : c.Content O a t v) : O.Slot t := by
  obtain ⟨p, -, ⟨hk, -⟩ | ⟨hk, -⟩⟩ := h
  · exact .inl hk
  · exact .inr hk

/-- A step covers no more than before, but for the block that it gives out. -/
theorem Sound.cover_step (hO : O.Layout) (hc : c.Sound O) (h : c.Step O c') :
    (c'.blocks = c.blocks ∧ ∀ q, c'.cover O q ≤ c.cover O q) ∨
      ∃ b, c.Fresh O b ∧ c'.blocks = b :: c.blocks ∧
        ∀ q, c'.cover O q ≤ c.cover O q + Span.cover [b] q := by
  cases h with
  | @opens a x t fs new ks hfr hop =>
    left
    refine ⟨rfl, fun q => ?_⟩
    have hat := (hc.frames (.visit a t x) (hfr ▸ List.mem_cons_self)).1
    have hle := cover_opens (q := q) hO hat hop
    simp only [cover, hfr, List.map_append, List.map_cons, Span.cover_append,
      Span.cover_cons (l := fs.map O.frameSpan), Span.cover_cons (l := c.visited.map O.slotSpan),
      Original.frameSpan]
    omega
  | @store a x v t fs hfr hv =>
    left
    refine ⟨rfl, fun q => ?_⟩
    simp only [cover, hfr, List.map_cons, Span.cover_cons (l := fs.map O.frameSpan),
      Span.cover_cons (l := c.visited.map O.slotSpan), Original.frameSpan,
      slotSpan_of_slot hv.slot]
    omega
  | @malloc a x p t te fs new b strs m hfr hk hfun hp hnew hb hfill =>
    right
    refine ⟨b, hb, rfl, fun q => ?_⟩
    cases hfill with
    | string hu hbs hlen =>
      simp only [cover, hfr, List.map_cons, List.nil_append, List.cons_append,
        Span.cover_cons (l := c.strings)]
      omega
    | object hu hlen =>
      have hspan : O.place te.targetType b.start = b := by rw [Original.place, ← hlen]
      have hframes : Span.cover (O.place t x :: b :: fs.map O.frameSpan) q =
          Span.cover (O.place t x :: fs.map O.frameSpan) q + Span.cover [b] q := by
        rw [Span.cover_cons, Span.cover_cons (s := b), Span.cover_cons (l := fs.map O.frameSpan)]
        omega
      simp only [cover, hfr, List.map_cons, List.nil_append, List.cons_append, Original.frameSpan,
        hspan, hframes]
      omega
  | @field gen u d a x fs hfr hu =>
    left
    refine ⟨rfl, fun q => ?_⟩
    simp only [cover, hfr, List.map_cons, Original.frameSpan, hu]
    omega
  | @task k ks new hfr hks hen =>
    left
    refine ⟨rfl, fun q => ?_⟩
    have hle := cover_enters (q := q) hO (hc.tasks k (hks ▸ List.mem_cons_self)).place hen
    simp only [cover, hfr, hks, List.map_cons, List.map_nil, Span.cover_nil,
      Span.cover_cons (l := ks.map O.taskSpan)]
    omega

/-- A fresh block is not in use. -/
theorem Sound.unused {b : Span} (hc : c.Sound O) (hb : c.Fresh O b) (hq : b.Has q) :
    c.cover O q = 0 := by
  by_contra hpos
  rcases hc.used q (Nat.pos_of_ne_zero hpos) with hstatic | ⟨b', hb', hq'⟩
  · exact hb.static q hq hstatic
  · exact (hb.blocks b' hb').2 q hq hq'

theorem Sound.apart_step (hO : O.Layout) (hc : c.Sound O) (h : c.Step O c') (q : Ptr) :
    c'.cover O q ≤ 1 := by
  rcases hc.cover_step hO h with ⟨-, hle⟩ | ⟨b, hb, -, hle⟩
  · exact (hle q).trans (hc.apart q)
  · by_cases hq : b.Has q
    · have hone : Span.cover [b] q ≤ 1 := Span.cover_singleton_le
      have hzero := hc.unused hb hq
      have := hle q
      omega
    · have hzero : Span.cover [b] q = 0 :=
        Span.cover_eq_zero.mpr fun s hs => List.mem_singleton.mp hs ▸ hq
      exact (hle q).trans (by rw [hzero]; exact hc.apart q)

theorem Sound.used_step (hO : O.Layout) (hc : c.Sound O) (h : c.Step O c') (q : Ptr)
    (hq : 0 < c'.cover O q) : O.Static q ∨ ∃ b ∈ c'.blocks, b.Has q := by
  rcases hc.cover_step hO h with ⟨hblocks, hle⟩ | ⟨b, -, hblocks, hle⟩
  · rw [hblocks]
    exact hc.used q (Nat.lt_of_lt_of_le hq (hle q))
  · rw [hblocks]
    by_cases hb : b.Has q
    · exact .inr ⟨b, List.mem_cons_self, hb⟩
    · have hzero : Span.cover [b] q = 0 :=
        Span.cover_eq_zero.mpr fun s hs => List.mem_singleton.mp hs ▸ hb
      have := hle q
      rcases hc.used q (by omega) with hstatic | ⟨b', hb', hq'⟩
      · exact .inl hstatic
      · exact .inr ⟨b', List.mem_cons_of_mem _ hb', hq'⟩

theorem placed_opens (hat : O.At a t) (hx : x ≠ 0) (h : O.Opens a x t new ks) :
    (∀ f ∈ new, O.Placed f) ∧ ∀ k ∈ ks, O.TaskPlaced k := by
  cases h with
  | system => exact ⟨fun _ h => absurd h List.not_mem_nil, fun _ h => absurd h List.not_mem_nil⟩
  | struct hk =>
    refine ⟨fun _ h => absurd h List.not_mem_nil, fun k h => ?_⟩
    obtain rfl := List.mem_singleton.mp h
    exact ⟨hat, hx, rfl, _, hk⟩
  | array hk =>
    refine ⟨fun f h => ?_, fun _ h => absurd h List.not_mem_nil⟩
    obtain ⟨i, hi, rfl⟩ := List.mem_map.mp h
    exact ⟨hat.elem hk (List.mem_range.mp hi), fun h0 => hx (Nat.eq_zero_of_add_eq_zero_right h0)⟩

theorem placed_enters (hk : O.TaskPlaced k) (h : O.Enters k new) : ∀ f ∈ new, O.Placed f := by
  cases h with
  | fields hkind hfunc =>
    intro f h
    obtain ⟨d, hd, rfl⟩ := List.mem_map.mp h
    exact ⟨⟨hk.place, hk.nonNull⟩, _, _, hkind, hfunc, hd⟩
  | again =>
    intro f h
    obtain rfl := List.mem_singleton.mp h
    exact ⟨hk.place, hk.nonNull⟩

/-- A pointer without a translation is not met before, and is for data. -/
theorem value_eq_none {p : Ptr} : c.value O p = none ↔ O.Data p ∧ c.moved p = 0 := by
  unfold value Original.Data
  by_cases hp : p = 0
  · simp [hp]
  · cases hs : O.symbol p with
    | some q => simp [hp]
    | none => by_cases hm : c.moved p = 0 <;> simp [hp, hm]

theorem placed_fills {p : Ptr} {te : Entry} {b : Span} {strs : List Span} {m : Ptr → Option Ptr}
    (hat : O.At a t) (hk : O.env.kind t = .ptr te) (hfun : memoizedIsFunptr te = false)
    (hp : O.heap a = some p) (hnew : c.value O p = none) (hb : c.Fresh O b)
    (h : c.Fills O p te.targetType b new strs m) : ∀ f ∈ new, O.Placed f := by
  cases h with
  | string => exact fun _ h => absurd h List.not_mem_nil
  | object =>
    intro f h
    obtain rfl := List.mem_singleton.mp h
    exact ⟨hat.deref hk hfun hp (value_eq_none.mp hnew).1.1, hb.nonNull⟩

theorem Sound.placed_step (hc : c.Sound O) (h : c.Step O c') :
    (∀ f ∈ c'.frames, O.Placed f) ∧ (∀ k ∈ c'.tasks, O.TaskPlaced k) ∧
      ∀ r ∈ c'.visited, O.At r.a r.t := by
  have hhead : ∀ {f fs}, c.frames = f :: fs → O.Placed f := fun hfr =>
    hc.frames _ (hfr ▸ List.mem_cons_self)
  have htail : ∀ {f fs}, c.frames = f :: fs → ∀ g ∈ fs, O.Placed g := fun hfr g hg =>
    hc.frames g (hfr ▸ List.mem_cons_of_mem _ hg)
  cases h with
  | @opens a x t fs new ks hfr hop =>
    obtain ⟨hat, hx⟩ := hhead hfr
    obtain ⟨hnew, hks⟩ := placed_opens hat hx hop
    refine ⟨fun f hf => (List.mem_append.mp hf).elim (hnew f) (htail hfr f),
      fun k hk => (List.mem_append.mp hk).elim (hc.tasks k) (hks k), fun r hr => ?_⟩
    rcases List.mem_cons.mp hr with rfl | hr
    · exact hat
    · exact hc.visited r hr
  | @store a x v t fs hfr hv =>
    refine ⟨htail hfr, hc.tasks, fun r hr => ?_⟩
    rcases List.mem_cons.mp hr with rfl | hr
    · exact (hhead hfr).1
    · exact hc.visited r hr
  | @malloc a x p t te fs new b strs m hfr hk hfun hp hnew hb hfill =>
    refine ⟨fun f hf => ?_, hc.tasks, hc.visited⟩
    rcases List.mem_cons.mp hf with rfl | hf
    · exact hhead hfr
    · exact (List.mem_append.mp hf).elim (placed_fills (hhead hfr).1 hk hfun hp hnew hb hfill f)
        (htail hfr f)
  | @field gen u d a x fs hfr hu =>
    refine ⟨fun f hf => ?_, hc.tasks, hc.visited⟩
    rcases List.mem_cons.mp hf with rfl | hf
    · obtain ⟨⟨hat, hx⟩, te, n, hk, hfunc, hd⟩ := hhead hfr
      exact ⟨hat.field hk hfunc hd hu, fun h0 => hx (Nat.eq_zero_of_add_eq_zero_right h0)⟩
    · exact htail hfr f hf
  | @task k ks new hfr hks hen =>
    exact ⟨placed_enters (hc.tasks k (hks ▸ List.mem_cons_self)) hen,
      fun k' hk' => hc.tasks k' (hks ▸ List.mem_cons_of_mem _ hk'), hc.visited⟩

end Cover

/-! ## What a step writes -/

section Memory

variable {O} {c} {c' : Copy} {fs new : List Frame} {strs : List Span} {a x p q u v : Ptr}
  {t w : Typ} {te : Entry} {b : Span} {m : Ptr → Option Ptr} {f : Frame}

/-- Only the fresh block is written. -/
theorem Fills.mem (h : c.Fills O p w b new strs m) (hq : ¬ b.Has q) : m q = c.mem q := by
  cases h with
  | @string bs hu hbs hlen =>
    exact putBytes_putBlock (by rw [List.length_append, List.length_singleton, hlen]) hq
  | object => rw [putBlock, if_neg hq]

theorem Sound.mem_malloc (hc : c.Sound O) (hb : c.Fresh O b) (h : c.Fills O p w b new strs m)
    (hq : 0 < c.cover O q) : m q = c.mem q := by
  apply h.mem
  intro hbq
  have := hc.unused hb hbq
  omega

/-- The slot that the first frame is for. -/
theorem Sound.cover_head (hO : O.Layout) (hc : c.Sound O) (hfr : c.frames = .visit a t x :: fs)
    (ht : O.Slot t) : 0 < c.cover O x := by
  have hmem : .visit a t x ∈ c.frames := hfr ▸ List.mem_cons_self
  have hpos : 0 < Span.cover (c.frames.map O.frameSpan) x :=
    Span.cover_pos (List.mem_map_of_mem hmem)
      (Span.has_start (s := O.place t x) (hO.slot (hc.frames _ hmem).1 ht))
  unfold cover
  omega

/-- What is on no other slot than the first frame's. -/
theorem Sound.ne_slot (hO : O.Layout) (hc : c.Sound O) (hfr : c.frames = .visit a t x :: fs)
    (ht : O.Slot t) (hq : 0 < Span.cover (fs.map O.frameSpan) q +
      Span.cover (c.tasks.map O.taskSpan) q + Span.cover (c.visited.map O.slotSpan) q +
      Span.cover c.strings q) : q ≠ x := by
  rintro rfl
  have hat : O.At a t := (hc.frames (.visit a t q) (hfr ▸ List.mem_cons_self)).1
  have hhead : Span.cover [O.place t q] q = 1 :=
    Span.cover_singleton (Span.has_start (s := O.place t q) (hO.slot hat ht))
  have hle := hc.apart q
  simp only [cover, hfr, List.map_cons, Span.cover_cons (l := fs.map O.frameSpan),
    Original.frameSpan] at hle
  omega

theorem on_congr (hO : O.Layout) (h : O.On (O.Blank c.mem) f) (hf : O.Placed f)
    (hm : ∀ y, (O.frameSpan f).Has y → m y = c.mem y) : O.On (O.Blank m) f := by
  cases f with
  | visit a t x => exact Original.Blank.congr hO h hf.1 hm
  | stmt gen d a x =>
    obtain ⟨⟨hat, -⟩, te, n, hk, hfunc, hd⟩ := hf
    intro u hu
    simp only [Original.frameSpan, hu] at hm
    exact Original.Blank.congr hO (h u hu) (hat.field hk hfunc hd hu) hm

theorem blank_opens {ks : List Task} (h : O.Opens a x t new ks) (hbl : O.Blank m a t x) :
    (∀ f ∈ new, O.On (O.Blank m) f) ∧ ∀ k ∈ ks, O.Blank m k.a k.t k.x := by
  cases h with
  | system => exact ⟨fun _ h => absurd h List.not_mem_nil, fun _ h => absurd h List.not_mem_nil⟩
  | struct =>
    refine ⟨fun _ h => absurd h List.not_mem_nil, fun k h => ?_⟩
    obtain rfl := List.mem_singleton.mp h
    exact hbl
  | array hk =>
    refine ⟨fun f h => ?_, fun _ h => absurd h List.not_mem_nil⟩
    obtain ⟨i, hi, rfl⟩ := List.mem_map.mp h
    exact fun b u y hin => hbl b u y (.elem hk (List.mem_range.mp hi) hin)

theorem blank_enters {k : Task} (h : O.Enters k new) (hbl : O.Blank m k.a k.t k.x) :
    ∀ f ∈ new, O.On (O.Blank m) f := by
  cases h with
  | again =>
    intro f h
    obtain rfl := List.mem_singleton.mp h
    exact hbl
  | fields hkind hfunc =>
    intro f h
    obtain ⟨d, hd, rfl⟩ := List.mem_map.mp h
    exact fun u hu b v y hin => hbl b v y (.field hkind hfunc hd hu hin)

/-- A block for an object is blank. -/
theorem blank_fills (hO : O.Layout) (h : c.Fills O p w b new strs m) (hat : ∀ f ∈ new, O.Placed f) :
    ∀ f ∈ new, O.On (O.Blank m) f := by
  cases h with
  | string => exact fun _ h => absurd h List.not_mem_nil
  | object hu hlen =>
    intro f hf
    have hplaced := hat f hf
    obtain rfl := List.mem_singleton.mp hf
    apply hO.blank_of_zero hplaced.1
    intro y hy
    rw [Original.place, ← hlen] at hy
    rw [putBlock, if_pos hy]

theorem Sound.blank_step (hO : O.Layout) (hc : c.Sound O) (h : c.Step O c') :
    (∀ f ∈ c'.frames, O.On (O.Blank c'.mem) f) ∧ ∀ k ∈ c'.tasks, O.Blank c'.mem k.a k.t k.x := by
  have hhead : ∀ {f fs}, c.frames = f :: fs → O.On (O.Blank c.mem) f := fun hfr =>
    hc.blank _ (hfr ▸ List.mem_cons_self)
  have htail : ∀ {f fs}, c.frames = f :: fs → ∀ g ∈ fs, O.On (O.Blank c.mem) g := fun hfr g hg =>
    hc.blank g (hfr ▸ List.mem_cons_of_mem _ hg)
  -- what is still to be done keeps its memory
  have hframes : ∀ {m : Ptr → Option Ptr} {fs : List Frame}, (∀ g ∈ fs, g ∈ c.frames) →
      (∀ y, 0 < Span.cover (fs.map O.frameSpan) y + Span.cover (c.tasks.map O.taskSpan) y →
        m y = c.mem y) →
      (∀ g ∈ fs, O.On (O.Blank m) g) ∧ ∀ k ∈ c.tasks, O.Blank m k.a k.t k.x := by
    intro m fs hfs hm
    refine ⟨fun g hg => ?_, fun k hk => ?_⟩
    · refine on_congr hO (hc.blank g (hfs g hg)) (hc.frames g (hfs g hg)) fun y hy => hm y ?_
      exact Nat.add_pos_left (Span.cover_pos (List.mem_map_of_mem hg) hy) _
    · refine (hc.blankTasks k hk).congr hO (hc.tasks k hk).place fun y hy => hm y ?_
      exact Nat.add_pos_right _ (Span.cover_pos (List.mem_map_of_mem (f := O.taskSpan) hk) hy)
  cases h with
  | @opens a x t fs new ks hfr hop =>
    obtain ⟨hnew, hks⟩ := blank_opens hop (hhead hfr)
    exact ⟨fun f hf => (List.mem_append.mp hf).elim (hnew f) (htail hfr f),
      fun k hk => (List.mem_append.mp hk).elim (hc.blankTasks k) (hks k)⟩
  | @store a x v t fs hfr hv =>
    refine hframes (fun g hg => hfr ▸ List.mem_cons_of_mem _ hg) fun y hy => ?_
    dsimp only at hy
    exact Function.update_of_ne (hc.ne_slot hO hfr hv.slot (by omega)) _ _
  | @malloc a x p t te fs new b strs m hfr hk hfun hp hnew hb hfill =>
    have hold := hframes (m := m) (fun g hg => hg) fun y hy =>
      hc.mem_malloc hb hfill (by unfold cover; omega)
    have hplaced := placed_fills (hc.frames (.visit a t x) (hfr ▸ List.mem_cons_self)).1 hk hfun hp
      hnew hb hfill
    refine ⟨fun f hf => ?_, hold.2⟩
    rcases List.mem_cons.mp hf with rfl | hf
    · exact hold.1 _ (hfr ▸ List.mem_cons_self)
    · rcases List.mem_append.mp hf with hf | hf
      · exact blank_fills hO hfill hplaced f hf
      · exact hold.1 f (hfr ▸ List.mem_cons_of_mem _ hf)
  | @field gen u d a x fs hfr hu =>
    refine ⟨fun f hf => ?_, hc.blankTasks⟩
    rcases List.mem_cons.mp hf with rfl | hf
    · exact hhead hfr u hu
    · exact htail hfr f hf
  | @task k ks new hfr hks hen =>
    exact ⟨blank_enters hen (hc.blankTasks k (hks ▸ List.mem_cons_self)),
      fun k' hk' => hc.blankTasks k' (hks ▸ List.mem_cons_of_mem _ hk')⟩

end Memory

end Copy

end CStrider.Serial
