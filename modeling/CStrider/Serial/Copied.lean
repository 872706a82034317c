import CStrider.Serial.Places

/-!
# The copy is right

The slots that are done hold what they should, what is left to do leads to all that is missing, and
a pointer has one address for good. So when nothing is left to do, the new memory has a copy of all
that can be reached from the roots (`Original.IsCopy`).
-/

namespace CStrider.Serial

open Mapping (Ptr)
open Traversal
open CStrider.Types (Typ Entry)

namespace Copy

/-! ## What a step brings to an end -/

section Progress

variable {O : Original} {c c' : Copy} {a x p q v : Ptr} {t : Typ} {te : Entry} {b : Span}

/-- A translation is for good. -/
theorem value_step (h : c.Step O c') (hp : c.value O p = some q) : c'.value O p = some q := by
  cases h with
  | @malloc a x p' t te fs new b strs m hfr hk hfun hp' hnew hb hfill =>
    have hne : p ≠ p' := by
      rintro rfl
      cases hnew.symm.trans hp
    simp only [value, Function.update_of_ne hne]
    exact hp
  | opens => exact hp
  | store => exact hp
  | field => exact hp
  | task => exact hp

theorem content_step (h : c.Step O c') (hv : c.Content O a t v) : c'.Content O a t v := by
  obtain ⟨p, hp, hcon⟩ := hv
  exact ⟨p, hp, hcon.imp_right fun hptr => ⟨hptr.1, value_step h hptr.2⟩⟩

theorem Sound.filled_step (hO : O.Layout) (hc : c.Sound O) (h : c.Step O c') :
    ∀ r ∈ c'.visited, O.Slot r.t → ∃ v, c'.mem r.x = some v ∧ c'.Content O r.a r.t v := by
  have hold : ∀ r ∈ c.visited, O.Slot r.t → c'.mem r.x = c.mem r.x →
      ∃ v, c'.mem r.x = some v ∧ c'.Content O r.a r.t v := by
    intro r hr hslot hmem
    obtain ⟨v, hv, hcon⟩ := hc.filled r hr hslot
    exact ⟨v, hmem.trans hv, content_step h hcon⟩
  have hcover : ∀ r ∈ c.visited, O.Slot r.t → 0 < Span.cover (c.visited.map O.slotSpan) r.x := by
    intro r hr hslot
    apply Span.cover_pos (List.mem_map_of_mem hr)
    rw [slotSpan_of_slot (a := r.a) hslot]
    exact Span.has_start (s := O.place r.t r.x) (hO.slot (hc.visited r hr) hslot)
  cases h with
  | @opens a x t fs new ks hfr hop =>
    intro r hr hslot
    rcases List.mem_cons.mp hr with rfl | hr
    · rcases hslot with hk' | ⟨te, hk'⟩ <;> cases hop with
      | system hk => cases hk.symm.trans hk'
      | array hk => cases hk.symm.trans hk'
      | struct hk => cases hk.symm.trans hk'
    · exact hold r hr hslot rfl
  | @store a x v t fs hfr hv =>
    intro r hr hslot
    rcases List.mem_cons.mp hr with rfl | hr
    · exact ⟨v, Function.update_self _ _ _, hv⟩
    · refine hold r hr hslot (Function.update_of_ne ?_ _ _)
      have hpos := hcover r hr hslot
      exact hc.ne_slot hO hfr hv.slot (by omega)
  | @malloc a x p t te fs new b strs m hfr hk hfun hp hnew hb hfill =>
    intro r hr hslot
    have hpos := hcover r hr hslot
    exact hold r hr hslot (hc.mem_malloc hb hfill (by unfold cover; omega))
  | field => exact fun r hr hslot => hold r hr hslot rfl
  | task => exact fun r hr hslot => hold r hr hslot rfl

/-- What is to be done and what was done stay due. -/
theorem seen_step (h : c.Step O c') : ∀ f, c.Seen f → O.Due c'.Seen f := by
  intro f hf
  cases h with
  | @opens a x t fs new ks hfr hop =>
    rcases hf with hf | ⟨r, hr, rfl⟩
    · rw [hfr] at hf
      rcases List.mem_cons.mp hf with rfl | hf
      · exact Original.due_of (.inr ⟨_, List.mem_cons_self, rfl⟩)
      · exact Original.due_of (.inl (List.mem_append_right _ hf))
    · exact Original.due_of (.inr ⟨r, List.mem_cons_of_mem _ hr, rfl⟩)
  | @store a x v t fs hfr hv =>
    rcases hf with hf | ⟨r, hr, rfl⟩
    · rw [hfr] at hf
      rcases List.mem_cons.mp hf with rfl | hf
      · exact Original.due_of (.inr ⟨_, List.mem_cons_self, rfl⟩)
      · exact Original.due_of (.inl hf)
    · exact Original.due_of (.inr ⟨r, List.mem_cons_of_mem _ hr, rfl⟩)
  | @malloc a x p t te fs new b strs m hfr =>
    rcases hf with hf | hf
    · rw [hfr] at hf
      rcases List.mem_cons.mp hf with rfl | hf
      · exact Original.due_of (.inl List.mem_cons_self)
      · exact Original.due_of (.inl (List.mem_cons_of_mem _ (List.mem_append_right _ hf)))
    · exact Original.due_of (.inr hf)
  | @field gen u d a x fs hfr hu =>
    rcases hf with hf | hf
    · rw [hfr] at hf
      rcases List.mem_cons.mp hf with rfl | hf
      · refine .inr fun u' hu' => ?_
        obtain rfl : u = u' := Option.some.inj (hu.symm.trans hu')
        exact .inl List.mem_cons_self
      · exact Original.due_of (.inl (List.mem_cons_of_mem _ hf))
    · exact Original.due_of (.inr hf)
  | @task k ks new hfr hks hen =>
    rcases hf with hf | hf
    · rw [hfr] at hf
      cases hf
    · exact Original.due_of (.inr hf)

theorem seen_visit_step (h : c.Step O c') (hs : c.Seen (.visit a t x)) : c'.Seen (.visit a t x) :=
  seen_step h _ hs

theorem Sound.ordered_step (hc : c.Sound O) (h : c.Step O c') : O.Ordered c'.Done c'.frames := by
  have hord := hc.ordered
  cases h with
  | @opens a x t fs new ks hfr hop =>
    rw [hfr] at hord
    apply Original.Ordered.visits
    · apply hord.2.trans
      rintro g (rfl | ⟨r, hr, rfl⟩)
      · exact Original.due_of ⟨_, List.mem_cons_self, rfl⟩
      · exact Original.due_of ⟨r, List.mem_cons_of_mem _ hr, rfl⟩
    · intro f hf
      cases hop with
      | system => cases hf
      | struct => cases hf
      | array =>
        obtain ⟨i, -, rfl⟩ := List.mem_map.mp hf
        exact ⟨_, _, _, rfl⟩
  | @store a x v t fs hfr hv =>
    rw [hfr] at hord
    apply hord.2.trans
    rintro g (rfl | ⟨r, hr, rfl⟩)
    · exact Original.due_of ⟨_, List.mem_cons_self, rfl⟩
    · exact Original.due_of ⟨r, List.mem_cons_of_mem _ hr, rfl⟩
  | @malloc a x p t te fs new b strs m hfr hk hfun hp hnew hb hfill =>
    rw [hfr] at hord
    refine ⟨trivial, Original.Ordered.visits hord.2 fun f hf => ?_⟩
    cases hfill with
    | string => cases hf
    | object => exact ⟨_, _, _, List.mem_singleton.mp hf⟩
  | @field gen u d a x fs hfr hu =>
    rw [hfr] at hord
    refine ⟨trivial, hord.2.trans ?_⟩
    rintro g (rfl | hg)
    · refine .inr fun u' hu' => ?_
      obtain rfl : u = u' := Option.some.inj (hu.symm.trans hu')
      exact .inl rfl
    · exact Original.due_of (.inr hg)
  | @task k ks new hfr hks hen =>
    cases hen with
    | again => exact ⟨trivial, trivial⟩
    | fields hkind hfunc =>
      exact Original.ordered_stmts hkind hfunc (List.nil_append _).symm fun d hd =>
        absurd hd List.not_mem_nil

theorem Sound.elem_step (hc : c.Sound O) (h : c.Step O c') :
    ∀ r ∈ c'.visited, ∀ te i, O.env.kind r.t = .array te → i < numArrayElems te →
      c'.Seen (.visit (r.a + i * getSize te) te.arrbase (r.x + i * getSize te)) := by
  have hold : ∀ r ∈ c.visited, ∀ te i, O.env.kind r.t = .array te → i < numArrayElems te →
      c'.Seen (.visit (r.a + i * getSize te) te.arrbase (r.x + i * getSize te)) :=
    fun r hr te i hk hi => seen_visit_step h (hc.elem r hr te i hk hi)
  cases h with
  | @opens a x t fs new ks hfr hop =>
    intro r hr te i hk hi
    rcases List.mem_cons.mp hr with rfl | hr
    · cases hop with
      | system hk' => cases hk.symm.trans hk'
      | struct hk' => cases hk.symm.trans hk'
      | array hk' =>
        cases hk.symm.trans hk'
        exact .inl (List.mem_append_left _ (List.mem_map.mpr ⟨i, List.mem_range.mpr hi, rfl⟩))
    · exact hold r hr te i hk hi
  | @store a x v t fs hfr hv =>
    intro r hr te i hk hi
    rcases List.mem_cons.mp hr with rfl | hr
    · rcases hv.slot with hk' | ⟨te', hk'⟩ <;> cases hk.symm.trans hk'
    · exact hold r hr te i hk hi
  | malloc => exact hold
  | field => exact hold
  | task => exact hold

theorem Sound.field_step (hc : c.Sound O) (h : c.Step O c') :
    ∀ r ∈ c'.visited, ∀ te n, O.env.kind r.t = .struct te → te.func = .generated n →
      ⟨r.a, r.t, r.x, false⟩ ∈ c'.tasks ∨
        ∀ d ∈ O.env.body n r.t, O.Due c'.Seen (.stmt r.t d r.a r.x) := by
  -- a struct whose task stays where it is
  have hold : (∀ k ∈ c.tasks, k ∈ c'.tasks) → ∀ r ∈ c.visited, ∀ te n,
      O.env.kind r.t = .struct te → te.func = .generated n →
      ⟨r.a, r.t, r.x, false⟩ ∈ c'.tasks ∨
        ∀ d ∈ O.env.body n r.t, O.Due c'.Seen (.stmt r.t d r.a r.x) := by
    intro htasks r hr te n hk hf
    rcases hc.field r hr te n hk hf with htask | hdue
    · exact .inl (htasks _ htask)
    · exact .inr fun d hd => (hdue d hd).trans (seen_step h)
  cases h with
  | @opens a x t fs new ks hfr hop =>
    intro r hr te n hk hf
    rcases List.mem_cons.mp hr with rfl | hr
    · cases hop with
      | system hk' => cases hk.symm.trans hk'
      | array hk' => cases hk.symm.trans hk'
      | struct => exact .inl (List.mem_append_right _ List.mem_cons_self)
    · exact hold (fun k hk => List.mem_append_left _ hk) r hr te n hk hf
  | @store a x v t fs hfr hv =>
    intro r hr te n hk hf
    rcases List.mem_cons.mp hr with rfl | hr
    · rcases hv.slot with hk' | ⟨te', hk'⟩ <;> cases hk.symm.trans hk'
    · exact hold (fun k hk => hk) r hr te n hk hf
  | malloc => exact hold fun k hk => hk
  | field => exact hold fun k hk => hk
  | @task k ks new hfr hks hen =>
    intro r hr te n hk hf
    rcases hc.field r hr te n hk hf with htask | hdue
    · rw [hks] at htask
      rcases List.mem_cons.mp htask with rfl | htask
      · cases hen with
        | again hk' hno =>
          cases hk.symm.trans hk'
          exact absurd hf (hno n)
        | fields hk' hf' =>
          cases hk.symm.trans hk'
          cases hf.symm.trans hf'
          exact .inr fun d hd => Original.due_of (.inl (List.mem_map_of_mem hd))
      · exact .inl htask
    · exact .inr fun d hd => (hdue d hd).trans (seen_step (.task hfr hks hen))

/-- The first time that a pointer is met. -/
theorem target_malloc {fs new : List Frame} {strs : List Span} {m : Ptr → Option Ptr}
    (hk : O.env.kind t = .ptr te) (hp : O.heap a = some p) (hnew : c.value O p = none)
    (hfill : c.Fills O p te.targetType b new strs m) :
    Target O { c with
      frames := .visit a t x :: new ++ fs, strings := strs ++ c.strings, blocks := b :: c.blocks
      mem := m, moved := Function.update c.moved p b.start } p where
  data := (value_eq_none.mp hnew).1
  block := ⟨b, List.mem_cons_self, (Function.update_self p b.start c.moved).symm⟩
  copied := by
    refine ⟨a, t, x, te, .inl List.mem_cons_self, hk, hp, ?_⟩
    dsimp only
    rw [Function.update_self]
    cases hfill with
    | @string bs hu hbs hlen =>
      obtain ⟨hzero, hlt⟩ := charsAt_facts hbs
      rw [if_pos hu]
      refine ⟨bs, hbs, stringAt_putBytes hzero hlt, ?_⟩
      rw [← hlen]
      exact List.mem_cons_self
    | object hu hlen =>
      rw [if_neg hu]
      exact .inl (List.mem_cons_of_mem _ List.mem_cons_self)

theorem string_mem {bs : List UInt8} (hq : ⟨q, bs.length + 1⟩ ∈ c.strings)
    {m : Ptr → Option Ptr} (hm : ∀ y, 0 < Span.cover c.strings y → m y = c.mem y)
    (h : stringAt c.mem q = some bs) : stringAt m q = some bs :=
  charsAt_congr h fun y hy => hm y (Span.cover_pos hq hy)

/-- How a pointer got its address stays true. -/
theorem Sound.target_step (hO : O.Layout) (hc : c.Sound O) (h : c.Step O c') (hp : c.Target O p)
    (hmoved : c'.moved p = c.moved p) : c'.Target O p := by
  have hmem : ∀ y, 0 < Span.cover c.strings y → c'.mem y = c.mem y := by
    intro y hy
    cases h with
    | opens => rfl
    | field => rfl
    | task => rfl
    | @store a x v t fs hfr hv =>
      exact Function.update_of_ne (hc.ne_slot hO hfr hv.slot (by omega)) _ _
    | @malloc a x p t te fs new b strs m hfr hk hfun hp hnew hb hfill =>
      exact hc.mem_malloc hb hfill (by unfold cover; omega)
  have hstrings : ∀ s ∈ c.strings, s ∈ c'.strings := by
    intro s hs
    cases h with
    | malloc => exact List.mem_append_right _ hs
    | opens => exact hs
    | store => exact hs
    | field => exact hs
    | task => exact hs
  have hblocks : ∀ b ∈ c.blocks, b ∈ c'.blocks := by
    intro b hb
    cases h with
    | malloc => exact List.mem_cons_of_mem _ hb
    | opens => exact hb
    | store => exact hb
    | field => exact hb
    | task => exact hb
  obtain ⟨b, hb, hstart⟩ := hp.block
  obtain ⟨a, t, x, te, hseen, hk, hpa, hcopied⟩ := hp.copied
  refine ⟨hp.data, ⟨b, hblocks b hb, hstart.trans hmoved.symm⟩,
    a, t, x, te, seen_visit_step h hseen, hk, hpa, ?_⟩
  rw [hmoved]
  split at hcopied
  · next hchar =>
    obtain ⟨bs, hbs, hstr, hmem'⟩ := hcopied
    rw [if_pos hchar]
    exact ⟨bs, hbs, string_mem hmem' hmem hstr, hstrings _ hmem'⟩
  · next hchar =>
    rw [if_neg hchar]
    exact seen_visit_step h hcopied

theorem Sound.moved_step (hO : O.Layout) (hc : c.Sound O) (h : c.Step O c') :
    (∀ p, c'.moved p ≠ 0 → c'.Target O p) ∧
      ∀ p p', c'.moved p ≠ 0 → c'.moved p = c'.moved p' → p = p' := by
  have hstep := h
  cases h with
  | opens => exact ⟨fun p hp => hc.target_step hO hstep (hc.moved p hp) rfl, hc.injective⟩
  | store => exact ⟨fun p hp => hc.target_step hO hstep (hc.moved p hp) rfl, hc.injective⟩
  | field => exact ⟨fun p hp => hc.target_step hO hstep (hc.moved p hp) rfl, hc.injective⟩
  | task => exact ⟨fun p hp => hc.target_step hO hstep (hc.moved p hp) rfl, hc.injective⟩
  | @malloc a x p t te fs new b strs m hfr hk hfun hp hnew hb hfill =>
    -- no other pointer has been given this block
    have hother : ∀ p', c.moved p' ≠ 0 → c.moved p' ≠ b.start := by
      intro p' hp'
      obtain ⟨b', hb', hstart⟩ := (hc.moved p' hp').block
      rw [← hstart]
      exact (hb.blocks b' hb').1
    refine ⟨fun p' hp' => ?_, fun p₁ p₂ h₁ h₁₂ => ?_⟩
    · by_cases heq : p' = p
      · subst heq
        exact target_malloc hk hp hnew hfill
      · have hmoved : Function.update c.moved p b.start p' = c.moved p' :=
          Function.update_of_ne heq _ _
        exact hc.target_step hO hstep (hc.moved p' (fun h0 => hp' (hmoved.trans h0))) hmoved
    · dsimp only at h₁ h₁₂
      by_cases heq₁ : p₁ = p
      · by_cases heq₂ : p₂ = p
        · rw [heq₁, heq₂]
        · subst heq₁
          rw [Function.update_self, Function.update_of_ne heq₂] at h₁₂
          rw [Function.update_self, h₁₂] at h₁
          exact absurd h₁₂.symm (hother p₂ h₁)
      · rw [Function.update_of_ne heq₁] at h₁ h₁₂
        by_cases heq₂ : p₂ = p
        · subst heq₂
          rw [Function.update_self] at h₁₂
          exact absurd h₁₂ (hother p₁ h₁)
        · rw [Function.update_of_ne heq₂] at h₁₂
          exact hc.injective p₁ p₂ h₁ h₁₂

/-- **The invariants are kept.** -/
theorem Sound.step (hO : O.Layout) (hc : c.Sound O) (h : c.Step O c') : c'.Sound O where
  frames := (hc.placed_step h).1
  tasks := (hc.placed_step h).2.1
  visited := (hc.placed_step h).2.2
  apart := hc.apart_step hO h
  used := hc.used_step hO h
  blank := (hc.blank_step hO h).1
  blankTasks := (hc.blank_step hO h).2
  filled := hc.filled_step hO h
  ordered := hc.ordered_step h
  elem := hc.elem_step h
  field := hc.field_step h
  roots r hr := seen_visit_step h (hc.roots r hr)
  moved := (hc.moved_step hO h).1
  injective := (hc.moved_step hO h).2

end Progress

/-! ## From the start to the end -/

section Runs

variable {O : Original} {c c' : Copy} {m : Ptr → Option Ptr}

/-- Nothing has been copied yet. -/
def start (O : Original) (m : Ptr → Option Ptr) : Copy where
  frames := O.roots.map fun r => .visit r.a r.t r.x
  tasks := []
  visited := []
  strings := []
  blocks := []
  mem := m
  moved _ := 0

theorem sound_start (hO : O.Layout) (hm : ∀ r ∈ O.roots, O.Blank m r.a r.t r.x) :
    (start O m).Sound O := by
  have hcover : ∀ q, (start O m).cover O q =
      Span.cover (O.roots.map fun r => O.place r.t r.x) q := by
    intro q
    simp only [cover, start, List.map_map, List.map_nil, Span.cover_nil, Nat.add_zero]
    rfl
  have hroot : ∀ f ∈ (start O m).frames, ∃ r ∈ O.roots, f = .visit r.a r.t r.x := by
    intro f hf
    obtain ⟨r, hr, rfl⟩ := List.mem_map.mp hf
    exact ⟨r, hr, rfl⟩
  exact
    { frames := by
        intro f hf
        obtain ⟨r, hr, rfl⟩ := hroot f hf
        exact ⟨.root hr, hO.nonNull r hr⟩
      tasks := fun _ h => absurd h List.not_mem_nil
      visited := fun _ h => absurd h List.not_mem_nil
      apart := by
        intro q
        rw [hcover]
        exact Span.cover_le_one (List.pairwise_map.mpr hO.roots)
      used := by
        intro q hq
        rw [hcover] at hq
        obtain ⟨s, hs, hsq⟩ := Span.exists_of_cover_pos hq
        obtain ⟨r, hr, rfl⟩ := List.mem_map.mp hs
        exact .inl (hO.static r hr q hsq)
      blank := by
        intro f hf
        obtain ⟨r, hr, rfl⟩ := hroot f hf
        exact hm r hr
      blankTasks := fun _ h => absurd h List.not_mem_nil
      filled := fun _ h => absurd h List.not_mem_nil
      ordered := by
        rw [← List.append_nil (start O m).frames]
        have hnil : O.Ordered (start O m).Done [] := trivial
        apply hnil.visits
        intro f hf
        obtain ⟨r, -, rfl⟩ := hroot f hf
        exact ⟨_, _, _, rfl⟩
      elem := fun _ h => absurd h List.not_mem_nil
      field := fun _ h => absurd h List.not_mem_nil
      roots := fun r hr => .inl (List.mem_map_of_mem hr)
      moved := fun _ h => absurd rfl h
      injective := fun _ _ h => absurd rfl h }

/-- The states of a copy. -/
def Steps (O : Original) : Copy → Copy → Prop := Relation.ReflTransGen fun c c' => c.Step O c'

theorem Sound.steps (hO : O.Layout) (hc : c.Sound O) (h : Steps O c c') : c'.Sound O := by
  induction h with
  | refl => exact hc
  | tail _ hstep ih => exact ih.step hO hstep

end Runs

end Copy

/-! ## The finished copy -/

namespace Original

variable (O : Original)

/-- What becomes of a pointer. -/
def Translated (moved : Ptr → Ptr) (p q : Ptr) : Prop :=
  p = 0 ∧ q = 0 ∨ p ≠ 0 ∧ O.symbol p = some q ∨ O.Data p ∧ moved p ≠ 0 ∧ moved p = q

/-- Memory `m` has a copy of what is reachable from the roots. `B` relates the locations to their
copies, and `moved` has the new addresses of data. -/
structure IsCopy (m : Ptr → Option Ptr) (moved : Ptr → Ptr) (B : Ptr → Typ → Ptr → Prop) :
    Prop where
  roots : ∀ r ∈ O.roots, B r.a r.t r.x
  prim : ∀ {a t x}, B a t x → O.env.kind t = .prim → ∃ v, O.heap a = some v ∧ m x = some v
  ptr : ∀ {a t x te}, B a t x → O.env.kind t = .ptr te →
    ∃ p q, O.heap a = some p ∧ m x = some q ∧ O.Translated moved p q
  elem : ∀ {a t x te i}, B a t x → O.env.kind t = .array te → i < numArrayElems te →
    B (a + i * getSize te) te.arrbase (x + i * getSize te)
  field : ∀ {a t u x te n d}, B a t x → O.env.kind t = .struct te → te.func = .generated n →
    d ∈ O.env.body n t → d.type O.heap a = some u → B (a + d.inOff) u (x + d.inOff)
  /-- Where a pointer was met first, what it points to was copied. -/
  target : ∀ {p}, moved p ≠ 0 → ∃ a t x te, B a t x ∧ O.env.kind t = .ptr te ∧
    O.heap a = some p ∧
    if te.targetType = O.charNt then
      ∃ bs, stringAt O.heap p = some bs ∧ stringAt m (moved p) = some bs
    else B p te.targetType (moved p)
  /-- Pointers that differ still do. -/
  injective : ∀ {p p'}, moved p ≠ 0 → moved p = moved p' → p = p'
  /-- No slot is used twice. -/
  unshared : ∀ {a a' t t' x}, B a t x → B a' t' x → O.Slot t → O.Slot t' → a = a' ∧ t = t'

end Original

namespace Copy

variable {O : Original} {c : Copy} {p q : Ptr}

theorem translated_of_value (h : c.value O p = some q) : O.Translated c.moved p q := by
  unfold value at h
  split at h
  · next hp =>
    cases h
    exact .inl ⟨hp, rfl⟩
  · next hp =>
    split at h
    · next hs =>
      cases h
      exact .inr (.inl ⟨hp, hs⟩)
    · next hs =>
      split at h
      · cases h
      · next hm =>
        cases h
        exact .inr (.inr ⟨⟨hp, hs⟩, hm, rfl⟩)

/-- **A copy that has come to its end is right.** -/
theorem Sound.isCopy (hO : O.Layout) (hc : c.Sound O) (hframes : c.frames = [])
    (htasks : c.tasks = []) :
    O.IsCopy c.mem c.moved fun a t x => ⟨a, t, x⟩ ∈ c.visited := by
  have hseen : ∀ {a t x}, c.Seen (.visit a t x) → ⟨a, t, x⟩ ∈ c.visited := by
    rintro a t x (h | ⟨r, hr, heq⟩)
    · rw [hframes] at h
      cases h
    · cases heq
      exact hr
  have hdue : ∀ {gen d a x u}, O.Due c.Seen (.stmt gen d a x) → d.type O.heap a = some u →
      ⟨a + d.inOff, u, x + d.inOff⟩ ∈ c.visited := by
    rintro gen d a x u (h | h) hu
    · rcases h with h | ⟨r, -, heq⟩
      · rw [hframes] at h
        cases h
      · cases heq
    · exact hseen (h u hu)
  have hslot : ∀ {a t x}, ⟨a, t, x⟩ ∈ c.visited → O.Slot t →
      (O.slotSpan ⟨a, t, x⟩).Has x := by
    intro a t x h ht
    rw [slotSpan_of_slot ht]
    exact Span.has_start (s := O.place t x) (hO.slot (hc.visited _ h) ht)
  exact
    { roots := fun r hr => hseen (hc.roots r hr)
      prim := by
        intro a t x h hk
        obtain ⟨v, hv, p, hp, ⟨-, rfl⟩ | ⟨⟨te, hk'⟩, -⟩⟩ := hc.filled _ h (.inl hk)
        · exact ⟨v, hp, hv⟩
        · cases hk.symm.trans hk'
      ptr := by
        intro a t x te h hk
        obtain ⟨q, hq, p, hp, ⟨hk', -⟩ | ⟨-, hvalue⟩⟩ := hc.filled _ h (.inr ⟨te, hk⟩)
        · cases hk.symm.trans hk'
        · exact ⟨p, q, hp, hq, translated_of_value hvalue⟩
      elem := fun h hk hi => hseen (hc.elem _ h _ _ hk hi)
      field := by
        intro a t u x te n d h hk hf hd hu
        rcases hc.field _ h te n hk hf with htask | hall
        · rw [htasks] at htask
          cases htask
        · exact hdue (hall d hd) hu
      target := by
        intro p hp
        obtain ⟨a, t, x, te, hs, hk, hpa, hcopied⟩ := (hc.moved p hp).copied
        refine ⟨a, t, x, te, hseen hs, hk, hpa, ?_⟩
        split at hcopied
        · next hchar =>
          obtain ⟨bs, hbs, hm, -⟩ := hcopied
          rw [if_pos hchar]
          exact ⟨bs, hbs, hm⟩
        · next hchar =>
          rw [if_neg hchar]
          exact hseen hcopied
      injective := fun {p p'} h h' => hc.injective p p' h h'
      unshared := by
        intro a a' t t' x h h' ht ht'
        have hle : Span.cover (c.visited.map O.slotSpan) x ≤ 1 := by
          have := hc.apart x
          unfold cover at this
          omega
        cases Span.eq_of_cover_le_one hle h h' (hslot h ht) (hslot h' ht')
        exact ⟨rfl, rfl⟩ }

end Copy

end CStrider.Serial
