import CStrider.Gen.Symbols
import CStrider.Lib.Emission
import Mathlib.Data.Finset.Card

/-!
# Which orders the generator can write

A call of `write_rendered` ends below the keys that are **in progress**, started and not yet
written. A typedef calls for typedefs only, a struct for structs and typedefs, so that a key in
progress that is met again shows a cycle: of mentions between typedefs, or of containment. Where
there is no such cycle every call succeeds, and what it writes stands behind what it needs.

`Effect` says what a call does whenever it succeeds, `writeRendered_ok` when it does.
-/

namespace CStrider.Gen

open Relation (TransGen)

namespace Writer

/-- `k` is started and not yet written. -/
def InProgress (w : Writer) (k : Key) : Prop := k ∈ w.started ∧ k ∉ w.written

/-- What a call in soft mode leaves behind. -/
def Met (w : Writer) (k : Key) : Prop :=
  k ∈ w.written ∨ k.isTd = false ∧ k ∈ w.prototypeWritten

/-- `w'` comes after `w`, and all structs and unions that were defined meanwhile have `P`. -/
structure Step (P : Key → Prop) (w w' : Writer) : Prop where
  started : w.started ⊆ w'.started
  written : w.written ⊆ w'.written
  prototypeWritten : w.prototypeWritten ⊆ w'.prototypeWritten
  inProgress : ∀ k, w'.InProgress k ↔ w.InProgress k
  out : ∃ l, w'.out = w.out ++ l ∧ ∀ k, .defn k ∈ l → k.isTd = false → P k

section Step

variable {P Q : Key → Prop} {w w' w'' : Writer} {k : Key}

theorem Step.refl (w : Writer) : Step P w w :=
  ⟨List.Subset.refl _, List.Subset.refl _, List.Subset.refl _, fun _ => Iff.rfl,
    [], (List.append_nil _).symm, fun _ h => absurd h List.not_mem_nil⟩

theorem Step.trans (h : Step P w w') (h' : Step P w' w'') : Step P w w'' := by
  obtain ⟨l, hl, hP⟩ := h.out
  obtain ⟨l', hl', hP'⟩ := h'.out
  refine ⟨List.Subset.trans h.started h'.started, List.Subset.trans h.written h'.written,
    List.Subset.trans h.prototypeWritten h'.prototypeWritten,
    fun k => (h'.inProgress k).trans (h.inProgress k), l ++ l', ?_, fun k hk => ?_⟩
  · rw [hl', hl, List.append_assoc]
  · rcases List.mem_append.mp hk with hk | hk
    · exact hP k hk
    · exact hP' k hk

theorem Step.mono (h : Step P w w') (hPQ : ∀ k, P k → Q k) : Step Q w w' := by
  obtain ⟨l, hl, hP⟩ := h.out
  exact ⟨h.started, h.written, h.prototypeWritten, h.inProgress, l, hl,
    fun k hk hd => hPQ k (hP k hk hd)⟩

theorem Step.met (h : Step P w w') (hk : w.Met k) : w'.Met k :=
  hk.imp (fun hk => h.written hk) fun hk => ⟨hk.1, h.prototypeWritten hk.2⟩

end Step

end Writer

namespace Symbols

variable (G : Symbols)

/-! ## What a definition needs -/

/-- `k` mentions typedef `t`. -/
def Mentions (k t : Key) : Prop := t.isTd ∧ (t ∈ G.soft k ∨ t ∈ G.hard k)

def Hard (k d : Key) : Prop := d ∈ G.hard k

/-- `k` holds the struct or union `d` by value, itself or through one typedef. -/
def Holds (k d : Key) : Prop :=
  d.isTd = false ∧ (d ∈ G.hard k ∨ ∃ t ∈ G.hard k, t.isTd ∧ d ∈ G.hard t)

/-- `k` holds the struct or union `d` by value, itself or through any chain of typedefs. -/
inductive Contains (d : Key) : Key → Prop
  | direct {k : Key} : d.isTd = false → d ∈ G.hard k → Contains d k
  | typedef {k t : Key} : t ∈ G.hard k → t.isTd → Contains d t → Contains d k

/-- What `write_rendered` puts in front of a definition. -/
def Needs (k d : Key) : Prop := G.Mentions k d ∨ k.isTd = false ∧ G.Holds k d

/-- A relation between keys, read between their definitions. -/
def Defs (r : Key → Key → Prop) : Output → Output → Prop
  | .defn k, .defn d => r k d
  | _, _ => False

/-- Every typedef, struct and union is rendered. -/
def Rendered : Prop := ∀ k ∈ G.keys, k.isFn = false → G.rendered k

/-- The marks agree with each other, with the output and with the dependencies. -/
structure Tidy (w : Writer) : Prop where
  keys : ∀ {k}, k ∈ w.prototypeWritten → k ∈ G.keys ∧ k.isTd = false
  prototype : w.prototypeStarted ⊆ w.prototypeWritten
  soft : ∀ {k d}, k ∈ w.written → d ∈ G.soft k → w.Met d
  hard : ∀ {k d}, k ∈ w.written → d ∈ G.hard k → d.isTd → d ∈ w.written
  listed : ∀ {k}, k ∈ w.written → k.isFn = false → .defn k ∈ w.out
  defined : ∀ {k}, .defn k ∈ w.out → k ∈ w.written
  once : ∀ k, w.out.count (.defn k) ≤ 1

variable {G} {w w' : Writer} {k d : Key}

theorem Holds.hard (h : G.Holds k d) : TransGen G.Hard k d := by
  rcases h.2 with h | ⟨t, ht, _, hd⟩
  · exact .single h
  · exact .tail (.single ht) hd

theorem Holds.isFn (h : G.Holds k d) : d.isFn = false := by
  cases d with
  | fn f =>
    rcases h.2 with h | ⟨t, _, _, h⟩
    · exact absurd h G.hard_fn
    · exact absurd h G.hard_fn
  | _ => rfl

theorem isFn_of_isTd (h : k.isTd) : k.isFn = false := by
  cases k with
  | td => rfl
  | _ => cases h

/-- A typedef in `written` is all that `Met` leaves for it. -/
theorem Met.written (h : w.Met k) (hk : k.isTd) : k ∈ w.written := by
  rcases h with h | ⟨h, _⟩
  · exact h
  · rw [hk] at h
    cases h

theorem tidy_init : G.Tidy .init := by
  constructor <;> simp [Writer.init]

/-! ## Steps that change marks -/

theorem Tidy.start (h : G.Tidy w) (k : Key) : G.Tidy (w.start k) :=
  ⟨h.keys, h.prototype, h.soft, h.hard, h.listed, h.defined, h.once⟩

theorem inProgress_start (hk : k ∉ w.written) (d : Key) :
    (w.start k).InProgress d ↔ d = k ∨ w.InProgress d := by
  simp only [Writer.InProgress, Writer.start, List.mem_cons]
  constructor
  · rintro ⟨rfl | hd, hn⟩
    · exact .inl rfl
    · exact .inr ⟨hd, hn⟩
  · rintro (rfl | ⟨hd, hn⟩)
    · exact ⟨.inl rfl, hk⟩
    · exact ⟨.inr hd, hn⟩

section Define

variable {x : Output}

theorem define_fields : (w.define k x).started = w.started ∧
    (w.define k x).written = k :: w.written ∧
    (w.define k x).prototypeWritten = w.prototypeWritten ∧
    (w.define k x).prototypeStarted = w.prototypeStarted ∧
    (w.define k x).out = if k.isFn then w.out else w.out ++ [x] := by
  unfold Writer.define Writer.emit
  split <;> simp_all

/-- A definition is entered once its dependencies are met. -/
theorem Tidy.define (h : G.Tidy w) (hk : k ∉ w.written) (hx : k.isFn = false → x = .defn k)
    (soft : ∀ d ∈ G.soft k, w.Met d) (hard : ∀ d ∈ G.hard k, d.isTd → d ∈ w.written) :
    G.Tidy (w.define k x) := by
  obtain ⟨_, written, protoW, protoS, out⟩ := define_fields (w := w) (k := k) (x := x)
  have met : ∀ {d}, w.Met d → (w.define k x).Met d := by
    intro d hd
    rw [Writer.Met, written, protoW]
    exact hd.imp_left (List.mem_cons_of_mem k)
  constructor
  · rw [protoW]
    exact h.keys
  · rw [protoW, protoS]
    exact h.prototype
  · intro e d he hd
    rw [written] at he
    rcases List.mem_cons.mp he with rfl | he
    · exact met (soft d hd)
    · exact met (h.soft he hd)
  · intro e d he hd ht
    rw [written] at he ⊢
    rcases List.mem_cons.mp he with rfl | he
    · exact List.mem_cons_of_mem _ (hard d hd ht)
    · exact List.mem_cons_of_mem _ (h.hard he hd ht)
  · intro e he hf
    rw [written] at he
    rw [out]
    rcases List.mem_cons.mp he with rfl | he
    · simp [hf, hx hf]
    · split
      · exact h.listed he hf
      · exact List.mem_append_left _ (h.listed he hf)
  · intro e he
    rw [out] at he
    rw [written]
    split at he
    · exact List.mem_cons_of_mem _ (h.defined he)
    · next hf =>
      rw [hx (by simpa using hf)] at he
      rcases List.mem_append.mp he with he | he
      · exact List.mem_cons_of_mem _ (h.defined he)
      · obtain rfl := Output.defn.inj (List.mem_singleton.mp he)
        exact List.mem_cons_self
  · intro e
    rw [out]
    split
    · exact h.once e
    · next hf =>
      rw [hx (by simpa using hf), List.count_append, List.count_singleton]
      split
      · next heq =>
        obtain rfl : k = e := by simpa using heq
        have none : w.out.count (.defn k) = 0 :=
          List.count_eq_zero.mpr fun hm => hk (h.defined hm)
        omega
      · exact h.once e

/-- Starting `k`, handling its dependencies and defining it is one step. -/
theorem step_define {P Q : Key → Prop} (hs : k ∉ w.started) (hw : k ∉ w.written)
    (h : Writer.Step P (w.start k) w') (hx : k.isFn = false → x = .defn k) (hP : ∀ d, P d → Q d)
    (hQ : k.isTd = false → Q k) : Writer.Step Q w (w'.define k x) := by
  obtain ⟨started, written, protoW, _, out⟩ := define_fields (w := w') (k := k) (x := x)
  obtain ⟨l, hl, hlP⟩ := h.out
  refine ⟨?_, ?_, ?_, fun d => ?_, ?_⟩
  · rw [started]
    exact fun d hd => h.started (List.mem_cons_of_mem k hd)
  · rw [written]
    exact fun d hd => List.mem_cons_of_mem k (h.written hd)
  · rw [protoW]
    exact h.prototypeWritten
  · have before := (h.inProgress d).trans (inProgress_start hw d)
    simp only [Writer.InProgress, started, written, List.mem_cons, not_or] at before ⊢
    constructor
    · rintro ⟨hd, hne, hn⟩
      exact (before.mp ⟨hd, hn⟩).resolve_left hne
    · rintro ⟨hd, hn⟩
      have hne : d ≠ k := fun h => hs (h ▸ hd)
      obtain ⟨hd', hn'⟩ := before.mpr (.inr ⟨hd, hn⟩)
      exact ⟨hd', hne, hn'⟩
  · rw [out]
    change w'.out = w.out ++ l at hl
    split
    · exact ⟨l, hl, fun d hd ht => hP d (hlP d hd ht)⟩
    · next hf =>
      refine ⟨l ++ [x], by rw [hl, List.append_assoc], fun d hd ht => ?_⟩
      rcases List.mem_append.mp hd with hd | hd
      · exact hP d (hlP d hd ht)
      · rw [hx (by simpa using hf)] at hd
        obtain rfl := Output.defn.inj (List.mem_singleton.mp hd)
        exact hQ ht

end Define

section Prototype

theorem markPrototype_fields : (G.markPrototype k w).started = w.started ∧
    (G.markPrototype k w).written = w.written ∧
    (G.markPrototype k w).prototypeWritten = k :: w.prototypeWritten ∧
    (G.markPrototype k w).prototypeStarted = k :: w.prototypeStarted ∧
    ∃ l, (G.markPrototype k w).out = w.out ++ l ∧ ∀ d, .defn d ∉ l := by
  unfold markPrototype Writer.emit
  split
  · split
    · exact ⟨rfl, rfl, rfl, rfl, [], (List.append_nil _).symm, fun d => List.not_mem_nil⟩
    · exact ⟨rfl, rfl, rfl, rfl, [.proto k], rfl, fun d => by simp⟩
  · exact ⟨rfl, rfl, rfl, rfl, [], (List.append_nil _).symm, fun d => List.not_mem_nil⟩

theorem Tidy.markPrototype (h : G.Tidy w) (hk : k ∈ G.keys) (ht : k.isTd = false) :
    G.Tidy (G.markPrototype k w) := by
  obtain ⟨_, written, protoW, protoS, l, out, none⟩ := markPrototype_fields (G := G) (k := k) (w := w)
  have defn : ∀ d, .defn d ∈ (G.markPrototype k w).out ↔ .defn d ∈ w.out := by
    intro d
    rw [out, List.mem_append]
    exact or_iff_left (none d)
  constructor
  · intro d hd
    rw [protoW] at hd
    rcases List.mem_cons.mp hd with rfl | hd
    · exact ⟨hk, ht⟩
    · exact h.keys hd
  · rw [protoW, protoS]
    exact List.cons_subset_cons k h.prototype
  · intro e d he hd
    rw [written] at he
    rw [Writer.Met, written, protoW]
    exact (h.soft he hd).imp_right fun hd => ⟨hd.1, List.mem_cons_of_mem k hd.2⟩
  · rw [written]
    exact h.hard
  · intro e he hf
    rw [written] at he
    exact (defn e).mpr (h.listed he hf)
  · intro e he
    rw [written]
    exact h.defined ((defn e).mp he)
  · intro e
    rw [out, List.count_append, List.count_eq_zero.mpr (none e)]
    exact h.once e

theorem step_markPrototype {P : Key → Prop} : Writer.Step P w (G.markPrototype k w) := by
  obtain ⟨started, written, protoW, _, l, out, none⟩ :=
    markPrototype_fields (G := G) (k := k) (w := w)
  refine ⟨?_, ?_, ?_, fun d => ?_, l, out, fun d hd => absurd hd (none d)⟩
  · rw [started]
    exact List.Subset.refl _
  · rw [written]
    exact List.Subset.refl _
  · rw [protoW]
    exact List.subset_cons_self k _
  · rw [Writer.InProgress, Writer.InProgress, started, written]

/-- The branch for a prototype succeeds. -/
theorem writePrototype_ok (h : G.Tidy w) : ∃ w', G.writePrototype k w = .ok w' := by
  unfold writePrototype
  rw [if_neg fun hp => hp.1 (h.prototype hp.2)]
  split <;> exact ⟨_, rfl⟩

theorem writePrototype_effect (h : G.Tidy w) (hk : k ∈ G.keys) (ht : k.isTd = false)
    (hw : G.writePrototype k w = .ok w') :
    G.Tidy w' ∧ w'.Met k ∧ ∀ P, Writer.Step P w w' := by
  unfold writePrototype at hw
  split at hw
  · cases hw
  · split at hw
    · cases hw
      obtain ⟨_, _, protoW, _, _⟩ := markPrototype_fields (G := G) (k := k) (w := w)
      refine ⟨h.markPrototype hk ht, .inr ⟨ht, ?_⟩, fun P => step_markPrototype⟩
      rw [protoW]
      exact List.mem_cons_self
    · next hp =>
      cases hw
      exact ⟨h, .inr ⟨ht, not_not.mp hp⟩, fun P => .refl w⟩

end Prototype

/-! ## What a successful call does -/

/-- The structs and unions that a call may define. -/
def Reached (G : Symbols) (hard : Bool) (k d : Key) : Prop :=
  hard = true ∧ (d = k ∨ TransGen G.Holds k d)

/-- What `write_rendered hard k` does when it succeeds. -/
structure Effect (G : Symbols) (hard : Bool) (k : Key) (w w' : Writer) : Prop where
  step : Writer.Step (Reached G hard k) w w'
  tidy : G.Tidy w'
  soft : hard = false → w'.Met k
  hard : hard = true → k ∈ w'.written ∨ w.InProgress k
  typedef : k.isTd → k ∈ w'.written

/-- What `handle_deps hard k` does. -/
structure DepsEffect (G : Symbols) (hard : Bool) (k : Key) (w w' : Writer) : Prop where
  step : Writer.Step (fun d => hard = true ∧ TransGen G.Holds k d) w w'
  tidy : G.Tidy w'
  soft : ∀ d ∈ G.soft k, w'.Met d
  typedef : ∀ d ∈ G.hard k, d.isTd → d ∈ w'.written
  hard : hard = true → ∀ d, G.Holds k d → d ∈ w'.written ∨ w.InProgress d

/-- `write` does what `write_rendered` does. -/
structure Writes (G : Symbols) (write : Bool → Key → Writer → Except Failure Writer) : Prop where
  effect : ∀ {hard k w w'}, k ∈ G.keys → G.Tidy w → write hard k w = .ok w' →
    Effect G hard k w w'
  again : ∀ {hard k w w'}, k ∈ w.written → write hard k w = .ok w' → w' = w

section Deps

variable {write : Bool → Key → Writer → Except Failure Writer} {hard : Bool}

theorem except_bind_ok {α β : Type} {x : Except Failure α} {f : α → Except Failure β} {b : β}
    (h : (x >>= f) = .ok b) : ∃ a, x = .ok a ∧ f a = .ok b := by
  cases x with
  | error e => cases h
  | ok a => exact ⟨a, rfl, h⟩

/-- One dependency in soft mode. -/
theorem handleDep_soft (hwr : Writes G write) (hd : d ∈ G.keys) (ht : G.Tidy w)
    (h : G.handleDep write false w d = .ok w') :
    (∀ P, Writer.Step P w w') ∧ G.Tidy w' ∧ w'.Met d := by
  have h : write false d w = .ok w' := by simpa [handleDep] using h
  have e := hwr.effect hd ht h
  exact ⟨fun P => e.step.mono fun d hd => absurd hd.1 (by simp), e.tidy, e.soft rfl⟩

theorem Reached.holds {c e : Key} (hc : c.isTd = false) (hk : G.Holds k c)
    (h : Reached G true c e) : TransGen G.Holds k e := by
  rcases h.2 with rfl | h
  · exact .single hk
  · exact .head hk h

/-- The hard dependencies of typedef `t`, itself one of `k`. -/
theorem typedef_contents {t : Key} (hwr : Writes G write) (ht : t ∈ G.hard k) (hd : t.isTd)
    (hw : G.Tidy w) (hwt : t ∈ w.written)
    (h : (G.hard t).foldlM (fun w d => write true d w) w = .ok w') :
    Writer.Step (TransGen G.Holds k) w w' ∧ G.Tidy w' ∧
      ∀ e ∈ G.hard t, e.isTd = false → e ∈ w'.written ∨ w.InProgress e := by
  let I (s : Writer) := Writer.Step (TransGen G.Holds k) w s ∧ G.Tidy s
  let Q (e : Key) (s : Writer) := e.isTd = false → e ∈ s.written ∨ w.InProgress e
  have round : ∀ e ∈ G.hard t, ∀ s s', I s → write true e s = .ok s' →
      I s' ∧ Q e s' ∧ ∀ b, Q b s → Q b s' := by
    rintro e he s s' ⟨step, tidy⟩ hs
    cases het : e.isTd with
    | true =>
      -- the call for the typedef wrote its typedefs
      obtain rfl := hwr.again (step.written (hw.hard hwt he het)) hs
      exact ⟨⟨step, tidy⟩, fun h => absurd (het.symm.trans h) (by simp), fun b hb => hb⟩
    | false =>
      have eff := hwr.effect (G.hard_mem he) tidy hs
      have next : Writer.Step (TransGen G.Holds k) s s' :=
        eff.step.mono fun f hf => hf.holds het ⟨het, .inr ⟨t, ht, hd, he⟩⟩
      refine ⟨⟨step.trans next, eff.tidy⟩, fun _ => ?_, fun b hb hbt => ?_⟩
      · exact (eff.hard rfl).imp_right (step.inProgress e).mp
      · exact (hb hbt).imp_left fun hb => next.written hb
  obtain ⟨⟨step, tidy⟩, done⟩ := foldlM_rule round ⟨.refl w, hw⟩ h
  exact ⟨step, tidy, done⟩

/-- One hard dependency of `k` in hard mode. -/
theorem handleDep_hard (hwr : Writes G write) (hd : d ∈ G.hard k) (hw : G.Tidy w)
    (h : G.handleDep write true w d = .ok w') :
    Writer.Step (TransGen G.Holds k) w w' ∧ G.Tidy w' ∧ (d.isTd → d ∈ w'.written) ∧
      ∀ e, e.isTd = false → e = d ∨ (d.isTd ∧ e ∈ G.hard d) →
        e ∈ w'.written ∨ w.InProgress e := by
  cases ht : d.isTd with
  | true =>
    have h : (write false d w >>= fun w => (G.hard d).foldlM (fun w e => write true e w) w) =
        .ok w' := by simpa [handleDep, ht] using h
    obtain ⟨w₁, h₁, h₂⟩ := except_bind_ok h
    have eff := hwr.effect (G.hard_mem hd) hw h₁
    have first : Writer.Step (TransGen G.Holds k) w w₁ :=
      eff.step.mono fun f hf => absurd hf.1 (by simp)
    obtain ⟨step, tidy, done⟩ := typedef_contents hwr hd ht eff.tidy (eff.typedef ht) h₂
    refine ⟨first.trans step, tidy, fun _ => step.written (eff.typedef ht), fun e het he => ?_⟩
    rcases he with rfl | ⟨_, he⟩
    · rw [ht] at het
      cases het
    · exact (done e he het).imp_right (first.inProgress e).mp
  | false =>
    have h : write true d w = .ok w' := by simpa [handleDep, ht] using h
    have eff := hwr.effect (G.hard_mem hd) hw h
    refine ⟨eff.step.mono fun f hf => hf.holds ht ⟨ht, .inl hd⟩, eff.tidy, by simp,
      fun e het he => ?_⟩
    rcases he with rfl | ⟨h, _⟩
    · exact eff.hard rfl
    · cases h

/-- All dependencies of `k`. -/
theorem handleDeps_effect (hwr : Writes G write) (hw : G.Tidy w)
    (h : G.handleDeps write hard k w = .ok w') : DepsEffect G hard k w w' := by
  obtain ⟨w₁, h₁, h₂⟩ := except_bind_ok h
  obtain ⟨⟨step₁, tidy₁⟩, soft⟩ := foldlM_rule
    (I := fun s => (∀ P, Writer.Step P w s) ∧ G.Tidy s) (Q := fun d s => s.Met d)
    (fun d hd s s' ⟨step, tidy⟩ hs => by
      obtain ⟨step', tidy', met⟩ := handleDep_soft hwr (G.soft_mem hd) tidy hs
      exact ⟨⟨fun P => (step P).trans (step' P), tidy'⟩, met, fun b => (step' fun _ => True).met⟩)
    ⟨fun P => .refl w, hw⟩ h₁
  cases hard with
  | false =>
    obtain ⟨⟨step₂, tidy₂⟩, met⟩ := foldlM_rule
      (I := fun s => (∀ P, Writer.Step P w₁ s) ∧ G.Tidy s) (Q := fun d s => s.Met d)
      (fun d hd s s' ⟨step, tidy⟩ hs => by
        obtain ⟨step', tidy', met⟩ := handleDep_soft hwr (G.hard_mem hd) tidy hs
        exact ⟨⟨fun P => (step P).trans (step' P), tidy'⟩, met, fun b => (step' fun _ => True).met⟩)
      ⟨fun P => .refl w₁, tidy₁⟩ h₂
    refine ⟨(step₁ _).trans (step₂ _), tidy₂, fun d hd => (step₂ fun _ => True).met (soft d hd),
      fun d hd ht => Met.written (met d hd) ht, by simp⟩
  | true =>
    obtain ⟨⟨step₂, tidy₂⟩, done⟩ := foldlM_rule
      (I := fun s => Writer.Step (TransGen G.Holds k) w₁ s ∧ G.Tidy s)
      (Q := fun d s => (d.isTd → d ∈ s.written) ∧
        ∀ e, e.isTd = false → e = d ∨ (d.isTd ∧ e ∈ G.hard d) → e ∈ s.written ∨ w₁.InProgress e)
      (fun d hd s s' ⟨step, tidy⟩ hs => by
        obtain ⟨step', tidy', td, el⟩ := handleDep_hard hwr hd tidy hs
        refine ⟨⟨step.trans step', tidy'⟩, ⟨td, fun e het he => ?_⟩, fun b ⟨hb, hbe⟩ => ?_⟩
        · exact (el e het he).imp_right (step.inProgress e).mp
        · exact ⟨fun ht => step'.written (hb ht),
            fun e het he => (hbe e het he).imp_left fun h => step'.written h⟩)
      ⟨.refl w₁, tidy₁⟩ h₂
    have step : Writer.Step (fun d => True ∧ TransGen G.Holds k d) w w' :=
      (step₁ _).trans (step₂.mono fun d hd => ⟨trivial, hd⟩)
    refine ⟨step.mono fun d hd => ⟨rfl, hd.2⟩, tidy₂, fun d hd => step₂.met (soft d hd),
      fun d hd => (done d hd).1, fun _ d hd => ?_⟩
    have found : d ∈ w'.written ∨ w₁.InProgress d := by
      rcases hd.2 with h | ⟨t, ht, htd, h⟩
      · exact (done d h).2 d hd.1 (.inl rfl)
      · exact (done t ht).2 d hd.1 (.inr ⟨htd, h⟩)
    exact found.imp_right ((step₁ fun _ => True).inProgress d).mp

end Deps

/-- The two branches that end with the definition of `k`. -/
theorem define_effect {hard : Bool} {x : Output} (hs : k ∉ w.started) (hwk : k ∉ w.written)
    (deps : DepsEffect G hard k (w.start k) w') (hx : k.isFn = false → x = .defn k)
    (mode : k.isTd = false → hard = true) : Effect G hard k w (w'.define k x) := by
  have started : (w.start k).InProgress k := (inProgress_start hwk k).mpr (.inl rfl)
  have notYet : k ∉ w'.written := ((deps.step.inProgress k).mpr started).2
  have written : k ∈ (w'.define k x).written := by
    rw [define_fields.2.1]
    exact List.mem_cons_self
  exact
    { step := step_define hs hwk deps.step hx (fun d hd => ⟨hd.1, .inr hd.2⟩)
        fun ht => ⟨mode ht, .inl rfl⟩
      tidy := deps.tidy.define notYet hx deps.soft deps.typedef
      soft := fun _ => .inl written
      hard := fun _ => .inl written
      typedef := fun _ => written }

/-- `write_rendered` does what `Effect` says, with any fuel. -/
theorem writeRendered_writes (hr : G.Rendered) (n : Nat) : Writes G (G.writeRendered n) := by
  induction n with
  | zero =>
    constructor
    · intro hard k w w' _ _ h
      cases h
    · intro hard k w w' _ h
      cases h
  | succ n ih =>
    constructor
    · intro hard k w w' hk hw h
      rw [writeRendered] at h
      split at h
      · next hwk =>
        cases h
        exact ⟨.refl w, hw, fun _ => .inl hwk, fun _ => .inl hwk, fun _ => hwk⟩
      next hwk =>
      split at h
      · next hsk =>
        split at h
        · next ht =>
          split at h
          · cases h
          next hns =>
          obtain ⟨w₁, h₁, h₂⟩ := except_bind_ok h
          have deps := handleDeps_effect ih (hw.start k) h₁
          unfold finishTypedef at h₂
          split at h₂
          · cases h₂
            exact define_effect hns hwk deps (fun _ => rfl) fun hf => by simp [ht] at hf
          · cases h₂
        · next ht =>
          obtain ⟨tidy, met, step⟩ := writePrototype_effect hw hk (by simpa using ht) h
          refine ⟨step _, tidy, fun _ => met, fun hh => ?_, fun htd => absurd htd ht⟩
          rcases hsk with hsk | hsk
          · exact .inr ⟨hsk, hwk⟩
          · rw [hh] at hsk
            cases hsk
      · next hsk =>
        obtain ⟨hns, hmode⟩ := not_or.mp hsk
        obtain rfl : hard = true := by simpa using hmode
        obtain ⟨w₁, h₁, h₂⟩ := except_bind_ok h
        have deps := handleDeps_effect ih (hw.start k) h₁
        cases h₂
        exact define_effect hns hwk deps (fun hf => by rw [if_pos (hr k hk hf)]) fun _ => rfl
    · intro hard k w w' hk h
      rw [writeRendered, if_pos hk] at h
      cases h
      rfl

/-! ## When a call succeeds -/

/-- Typedef `t` mentions typedef `u`. -/
def MentionsTd (G : Symbols) (t u : Key) : Prop := t.isTd ∧ G.Mentions t u

def Acyclic (r : Key → Key → Prop) : Prop := ∀ k, ¬ TransGen r k k

def unstarted (G : Symbols) (w : Writer) : Nat := (G.keys.toFinset \ w.started.toFinset).card

theorem unstarted_le {P : Key → Prop} (h : Writer.Step P w w') : unstarted G w' ≤ unstarted G w :=
  Finset.card_le_card (Finset.sdiff_subset_sdiff (Finset.Subset.refl _)
    fun _ hd => List.mem_toFinset.mpr (h.started (List.mem_toFinset.mp hd)))

theorem unstarted_start (hk : k ∈ G.keys) (hs : k ∉ w.started) :
    unstarted G (w.start k) < unstarted G w := by
  refine Finset.card_lt_card (Finset.ssubset_iff_of_subset ?_ |>.mpr ⟨k, ?_, ?_⟩)
  · exact Finset.sdiff_subset_sdiff (Finset.Subset.refl _)
      fun _ hd => List.mem_toFinset.mpr (List.mem_cons_of_mem k (List.mem_toFinset.mp hd))
  · simp [hk, hs]
  · simp [Writer.start]

/-- The keys in progress when `write_rendered hard k` is called: typedefs that mention `k` if that
is a typedef, structs and functions that contain it if it is a struct to be defined. -/
structure Ready (G : Symbols) (hard : Bool) (k : Key) (w : Writer) : Prop where
  written : k.isTd → hard = true → k ∈ w.written
  typedef : k.isTd → ∀ t, t.isTd → w.InProgress t → TransGen G.MentionsTd t k
  element : k.isTd = false → hard = true → ∀ t, w.InProgress t →
    t.isTd = false ∧ TransGen G.Hard t k

/-- Definitions stand behind what they need. -/
def InOrder (G : Symbols) (w : Writer) : Prop := Before (Defs G.Needs) w.out

/-- `write` succeeds on the keys that can be in question, as long as less than `n` are unstarted. -/
def Succeeds (G : Symbols) (write : Bool → Key → Writer → Except Failure Writer) (n : Nat) : Prop :=
  ∀ {hard k w}, k ∈ G.keys → unstarted G w < n → G.Tidy w → InOrder G w → Ready G hard k w →
    ∃ w', write hard k w = .ok w' ∧ InOrder G w'

/-- What is in progress when the dependencies of `k` are handled, `k` itself included. -/
structure Below (G : Symbols) (hard : Bool) (k : Key) (w : Writer) : Prop where
  typedef : ∀ d, G.Mentions k d → ∀ t, t.isTd → w.InProgress t → TransGen G.MentionsTd t d
  noTypedef : hard = true → ∀ t, w.InProgress t → t.isTd = false
  element : hard = true → ∀ d, TransGen G.Hard k d → ∀ t, w.InProgress t → TransGen G.Hard t d

section Success

variable {write : Bool → Key → Writer → Except Failure Writer} {hard : Bool} {n : Nat}

/-- A state that the handling of dependencies can reach from `w`. -/
structure Reachable (G : Symbols) (w s : Writer) : Prop where
  step : Writer.Step (fun _ => True) w s
  tidy : G.Tidy s
  inOrder : InOrder G s

theorem Below.ready_soft {s : Writer} (hb : Below G hard k w) (hs : Reachable G w s)
    (hd : d ∈ G.soft k ∨ d ∈ G.hard k) : Ready G false d s := by
  refine ⟨fun _ h => Bool.noConfusion h, fun ht t htt hp => ?_, fun _ h => Bool.noConfusion h⟩
  exact hb.typedef d ⟨ht, hd⟩ t htt ((hs.step.inProgress t).mp hp)

theorem Below.ready_hard {s : Writer} (hb : Below G true k w) (hs : Reachable G w s)
    (ht : d.isTd = false) (hd : TransGen G.Hard k d) : Ready G true d s := by
  refine ⟨fun h => by simp [ht] at h, fun h => by simp [ht] at h, fun _ _ t hp => ?_⟩
  have hp := (hs.step.inProgress t).mp hp
  exact ⟨hb.noTypedef rfl t hp, hb.element rfl d hd t hp⟩

theorem handleDep_soft_ok {s : Writer} (hwr : Writes G write) (hsu : Succeeds G write n)
    (hn : unstarted G w < n) (hb : Below G hard k w) (hs : Reachable G w s)
    (hd : d ∈ G.soft k ∨ d ∈ G.hard k) :
    ∃ s', G.handleDep write false s d = .ok s' ∧ Reachable G w s' := by
  have hk : d ∈ G.keys := hd.elim G.soft_mem G.hard_mem
  obtain ⟨s', h, order⟩ := hsu hk (Nat.lt_of_le_of_lt (unstarted_le hs.step) hn) hs.tidy hs.inOrder
    (hb.ready_soft hs hd)
  have h : G.handleDep write false s d = .ok s' := by simpa [handleDep] using h
  obtain ⟨step, tidy, _⟩ := handleDep_soft hwr hk hs.tidy h
  exact ⟨s', h, hs.step.trans (step _), tidy, order⟩

theorem handleDep_hard_ok {s : Writer} (hwr : Writes G write) (hsu : Succeeds G write n)
    (hn : unstarted G w < n) (hb : Below G true k w) (hs : Reachable G w s) (hd : d ∈ G.hard k) :
    ∃ s', G.handleDep write true s d = .ok s' ∧ Reachable G w s' := by
  suffices ok : ∃ s', G.handleDep write true s d = .ok s' ∧ InOrder G s' by
    obtain ⟨s', h, order⟩ := ok
    obtain ⟨step, tidy, _⟩ := handleDep_hard hwr hd hs.tidy h
    exact ⟨s', h, hs.step.trans (step.mono fun _ _ => trivial), tidy, order⟩
  have few {s : Writer} (hs : Reachable G w s) : unstarted G s < n :=
    Nat.lt_of_le_of_lt (unstarted_le hs.step) hn
  cases ht : d.isTd with
  | false =>
    obtain ⟨s', h, order⟩ := hsu (G.hard_mem hd) (few hs) hs.tidy hs.inOrder
      (hb.ready_hard hs ht (.single hd))
    exact ⟨s', by simpa [handleDep, ht] using h, order⟩
  | true =>
    obtain ⟨s₁, h₁, order₁⟩ := hsu (G.hard_mem hd) (few hs) hs.tidy hs.inOrder
      (hb.ready_soft hs (.inr hd))
    have eff := hwr.effect (G.hard_mem hd) hs.tidy h₁
    have hs₁ : Reachable G w s₁ := ⟨hs.step.trans (eff.step.mono fun _ _ => trivial), eff.tidy, order₁⟩
    let I (s : Writer) := Reachable G w s ∧ d ∈ s.written
    have round : ∀ e ∈ G.hard d, ∀ s, I s → ∃ s', write true e s = .ok s' ∧ I s' := by
      rintro e he s ⟨hs, hds⟩
      have ready : Ready G true e s := by
        cases het : e.isTd with
        | false => exact hb.ready_hard hs het (.tail (.single hd) he)
        | true =>
          refine ⟨fun _ _ => hs.tidy.hard hds he het, fun _ t htt hp => ?_, fun h => ?_⟩
          · have := hb.noTypedef rfl t ((hs.step.inProgress t).mp hp)
            simp [htt] at this
          · simp [het] at h
      obtain ⟨s', h, order⟩ := hsu (G.hard_mem he) (few hs) hs.tidy hs.inOrder ready
      have eff := hwr.effect (G.hard_mem he) hs.tidy h
      exact ⟨s', h, ⟨hs.step.trans (eff.step.mono fun _ _ => trivial), eff.tidy, order⟩,
        eff.step.written hds⟩
    obtain ⟨s', h, hs', _⟩ := foldlM_exists round ⟨hs₁, eff.typedef ht⟩
    refine ⟨s', ?_, hs'.inOrder⟩
    have both : (write false d s >>= fun w => (G.hard d).foldlM (fun w e => write true e w) w) =
        .ok s' := by
      rw [h₁]
      exact h
    simpa [handleDep, ht] using both

theorem handleDeps_ok (hwr : Writes G write) (hsu : Succeeds G write n)
    (hn : unstarted G w < n) (hb : Below G hard k w) (hw : G.Tidy w) (ho : InOrder G w) :
    ∃ w', G.handleDeps write hard k w = .ok w' ∧ InOrder G w' := by
  obtain ⟨w₁, h₁, hr₁⟩ := foldlM_exists (l := G.soft k) (f := G.handleDep write false)
    (fun d hd s hs => handleDep_soft_ok hwr hsu hn hb hs (.inl hd)) ⟨.refl w, hw, ho⟩
  have second : ∃ w', (G.hard k).foldlM (G.handleDep write hard) w₁ = .ok w' ∧ Reachable G w w' := by
    cases hard with
    | false =>
      exact foldlM_exists (fun d hd s hs => handleDep_soft_ok hwr hsu hn hb hs (.inr hd)) hr₁
    | true => exact foldlM_exists (fun d hd s hs => handleDep_hard_ok hwr hsu hn hb hs hd) hr₁
  obtain ⟨w', h₂, hr₂⟩ := second
  refine ⟨w', ?_, hr₂.inOrder⟩
  rw [handleDeps, h₁]
  exact h₂

end Success

/-- Starting `k` when it is ready leaves its dependencies ready. -/
theorem Ready.below {hard : Bool} (h : Ready G hard k w) (hwk : k ∉ w.written)
    (mode : k.isTd = false → hard = true) : Below G hard k (w.start k) := by
  have started := inProgress_start hwk
  cases ht : k.isTd with
  | true =>
    have soft : hard ≠ true := fun hh => hwk (h.written ht hh)
    refine ⟨fun d hd t htt hp => ?_, fun hh => absurd hh soft, fun hh => absurd hh soft⟩
    rcases (started t).mp hp with rfl | hp
    · exact .single ⟨ht, hd⟩
    · exact .tail (h.typedef ht t htt hp) ⟨ht, hd⟩
  | false =>
    have inProgress : ∀ t, (w.start k).InProgress t →
        t.isTd = false ∧ Relation.ReflTransGen G.Hard t k := by
      intro t hp
      rcases (started t).mp hp with rfl | hp
      · exact ⟨ht, .refl⟩
      · exact (h.element ht (mode ht) t hp).imp_right TransGen.to_reflTransGen
    refine ⟨fun d hd t htt hp => ?_, fun _ t hp => (inProgress t hp).1, fun _ d hd t hp => ?_⟩
    · have := (inProgress t hp).1
      simp [htt] at this
    · exact .trans_right (inProgress t hp).2 hd

theorem InOrder.markPrototype (h : InOrder G w) : InOrder G (G.markPrototype k w) := by
  unfold Symbols.markPrototype Writer.emit
  split
  · split
    · exact h
    · exact h.append fun d hd => hd.elim
  · exact h

theorem InOrder.define {x : Output} (h : InOrder G w) (hw : G.Tidy w)
    (hx : k.isFn = false → x = .defn k) (needs : ∀ d, G.Needs k d → d ∈ w.written) :
    InOrder G (w.define k x) := by
  rw [InOrder, define_fields.2.2.2.2]
  split
  · exact h
  · next hf =>
    rw [hx (by simpa using hf)]
    refine h.append fun o ho => ?_
    cases o with
    | defn d =>
      refine hw.listed (needs d ho) ?_
      rcases ho with ho | ho
      · exact isFn_of_isTd ho.1
      · exact ho.2.isFn
    | _ => exact ho.elim

theorem DepsEffect.mentions {hard : Bool} (h : DepsEffect G hard k w w') (hd : G.Mentions k d) :
    d ∈ w'.written := by
  rcases hd.2 with hs | hh
  · exact Met.written (h.soft d hs) hd.1
  · exact h.typedef d hh hd.1

/-- A call succeeds where neither typedefs mention nor structs contain each other in a cycle. -/
theorem writeRendered_ok (hr : G.Rendered) (elements : Acyclic G.Hard)
    (typedefs : Acyclic G.MentionsTd) (n : Nat) : Succeeds G (G.writeRendered n) n := by
  induction n with
  | zero => exact fun _ h => absurd h (Nat.not_lt_zero _)
  | succ n ih =>
    intro hard k w hk hn hw ho hready
    have hwr := writeRendered_writes hr n
    rw [writeRendered]
    by_cases hwk : k ∈ w.written
    · exact ⟨w, by rw [if_pos hwk]; rfl, ho⟩
    rw [if_neg hwk]
    have few (hs : k ∉ w.started) : unstarted G (w.start k) < n :=
      Nat.lt_of_lt_of_le (unstarted_start hk hs) (Nat.le_of_lt_succ hn)
    cases ht : k.isTd with
    | true =>
      have soft : hard = false := by
        cases hard with
        | false => rfl
        | true => exact absurd (hready.written ht rfl) hwk
      have hs : k ∉ w.started := fun hs => typedefs k (hready.typedef ht k ht ⟨hs, hwk⟩)
      obtain ⟨w₁, h₁, order⟩ := handleDeps_ok hwr ih (few hs)
        (hready.below hwk fun h => by simp [ht] at h) (hw.start k) ho
      have deps := handleDeps_effect hwr (hw.start k) h₁
      refine ⟨w₁.define k (.defn k), ?_, order.define deps.tidy (fun _ => rfl) fun d hd => ?_⟩
      · simp only [soft, or_true, if_true, hs, if_false]
        rw [← soft, h₁]
        show G.finishTypedef k w₁ = _
        rw [finishTypedef, if_pos (hr k hk (isFn_of_isTd ht))]
        rfl
      · rcases hd with hd | ⟨h, _⟩
        · exact deps.mentions hd
        · simp [ht] at h
    | false =>
      cases hard with
      | false =>
        simp only [or_true, if_true, Bool.false_eq_true, if_false]
        obtain ⟨w', h⟩ := writePrototype_ok (k := k) hw
        refine ⟨w', h, ?_⟩
        unfold writePrototype at h
        split at h
        · cases h
        · split at h
          · cases h
            exact ho.markPrototype
          · cases h
            exact ho
      | true =>
        have hs : k ∉ w.started := fun hs =>
          elements k (hready.element ht rfl k ⟨hs, hwk⟩).2
        obtain ⟨w₁, h₁, order⟩ := handleDeps_ok hwr ih (few hs)
          (hready.below hwk fun _ => rfl) (hw.start k) ho
        have deps := handleDeps_effect hwr (hw.start k) h₁
        refine ⟨G.finish k w₁, ?_, order.define deps.tidy (fun hf => by rw [if_pos (hr k hk hf)])
          fun d hd => ?_⟩
        · simp only [hs, Bool.true_eq_false, or_self, if_false]
          rw [h₁]
          rfl
        · rcases hd with hd | ⟨_, hd⟩
          · exact deps.mentions hd
          -- what `k` holds and is in progress holds `k`
          · refine (deps.hard rfl d hd).resolve_right fun hp => ?_
            rcases (inProgress_start hwk d).mp hp with rfl | hp
            · exact elements d hd.hard
            · exact elements d ((hready.element ht rfl d hp).2.trans hd.hard)

end Symbols

end CStrider.Gen
