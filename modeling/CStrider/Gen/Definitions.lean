import CStrider.Gen.Order

/-!
# The definitions in the generated file

`write_ordered_symbols` from the first function to the last prototype, in any order in which the
table of prototypes can be iterated. Before the definition of a struct it writes those that the
struct holds itself or through one typedef, and what these hold in turn; what a struct contains
through a longer chain of typedefs is in front of it only if it is one of these.
-/

namespace CStrider.Gen

open Relation (TransGen)

namespace Symbols

variable {G : Symbols}

/-- A state between two calls from the top. -/
structure TopLevel (G : Symbols) (w : Writer) : Prop where
  tidy : G.Tidy w
  idle : ∀ k, ¬ w.InProgress k

theorem topLevel_init : G.TopLevel .init := by
  refine ⟨tidy_init, fun k hk => ?_⟩
  exact absurd hk.1 List.not_mem_nil

section Calls

variable {w w' : Writer} {k : Key}

/-- A call from the top, whenever it succeeds. -/
theorem TopLevel.write (hr : G.Rendered) (h : G.TopLevel w) (hk : k ∈ G.keys)
    (hw : G.write true k w = .ok w') : Effect G true k w w' ∧ G.TopLevel w' := by
  have eff := (writeRendered_writes hr G.fuel).effect hk h.tidy hw
  exact ⟨eff, eff.tidy, fun d hd => h.idle d ((eff.step.inProgress d).mp hd)⟩

theorem TopLevel.checkPrototypes (hr : G.Rendered) (h : G.TopLevel w)
    (hw : G.checkPrototypes w k = .ok w') :
    Writer.Step (fun _ => True) w w' ∧ G.TopLevel w' := by
  unfold Symbols.checkPrototypes at hw
  split at hw
  · next hp =>
    obtain ⟨eff, top⟩ := h.write hr (h.tidy.keys hp.1).1 hw
    exact ⟨eff.step.mono fun _ _ => trivial, top⟩
  · cases hw
    exact ⟨.refl w, h⟩

theorem TopLevel.checkAll (hr : G.Rendered) (h : G.TopLevel w) {order : List Key}
    (hw : order.foldlM G.checkPrototypes w = .ok w') :
    Writer.Step (fun _ => True) w w' ∧ G.TopLevel w' := by
  refine (foldlM_rule (I := fun s => Writer.Step (fun _ => True) w s ∧ G.TopLevel s)
    (Q := fun _ _ => True) ?_ ⟨.refl w, h⟩ hw).1
  rintro k _ s s' ⟨step, top⟩ hs
  obtain ⟨step', top'⟩ := top.checkPrototypes hr hs
  exact ⟨⟨step.trans step', top'⟩, trivial, fun _ h => h⟩

variable (hr : G.Rendered) (elements : Acyclic G.Hard) (typedefs : Acyclic G.MentionsTd)

include hr elements typedefs in
/-- A call from the top succeeds where there are no cycles. -/
theorem TopLevel.write_ok (h : G.TopLevel w) (ho : InOrder G w) (hk : k ∈ G.keys)
    (ht : k.isTd = false) : ∃ w', G.write true k w = .ok w' ∧ G.TopLevel w' ∧ InOrder G w' := by
  have few : unstarted G w < G.fuel := by
    refine Nat.lt_succ_of_le (Nat.le_trans (Finset.card_le_card Finset.sdiff_subset) ?_)
    rw [List.card_toFinset]
  have ready : Ready G true k w :=
    ⟨fun h => by simp [ht] at h, fun h => by simp [ht] at h, fun _ _ t hp => absurd hp (h.idle t)⟩
  obtain ⟨w', hw, order⟩ := writeRendered_ok hr elements typedefs G.fuel hk few h.tidy ho ready
  exact ⟨w', hw, (h.write hr hk hw).2, order⟩

include hr elements typedefs in
theorem writeOrderedSymbols_ok (order : List Key) :
    ∃ w, G.writeOrderedSymbols order = .ok w ∧ G.TopLevel w ∧ InOrder G w := by
  obtain ⟨w₁, h₁, top₁, order₁⟩ := foldlM_exists
    (l := G.xformFuns) (f := fun w f => G.write true (.fn f) w)
    (I := fun s => G.TopLevel s ∧ InOrder G s)
    (fun f hf s hs => hs.1.write_ok hr elements typedefs hs.2 (G.xform_mem hf) rfl)
    ⟨topLevel_init, Before.nil⟩
  obtain ⟨w₂, h₂, top₂, order₂⟩ := foldlM_exists (l := order) (f := G.checkPrototypes)
    (I := fun s => G.TopLevel s ∧ InOrder G s)
    (fun k _ s hs => by
      unfold Symbols.checkPrototypes
      split
      · next hp =>
        obtain ⟨hk, ht⟩ := hs.1.tidy.keys hp.1
        exact hs.1.write_ok hr elements typedefs hs.2 hk ht
      · exact ⟨s, rfl, hs⟩)
    ⟨top₁, order₁⟩
  refine ⟨w₂, ?_, top₂, order₂⟩
  rw [writeOrderedSymbols, writeFuns, h₁]
  exact h₂

end Calls

/-! ## The property and its condition -/

/-- `k` is a struct or union that contains `d`. -/
def ContainsEl (G : Symbols) (k d : Key) : Prop := k.isTd = false ∧ G.Contains d k

structure Written (G : Symbols) (out : List Output) : Prop where
  once : ∀ k, out.count (.defn k) ≤ 1
  typedefs : Before (Defs G.Mentions) out
  contents : Before (Defs G.ContainsEl) out

/-- The generated file comes out right, in whatever order the table is iterated. -/
def Correct (G : Symbols) : Prop :=
  ∀ order, G.Order order → ∃ w, G.writeOrderedSymbols order = .ok w ∧ Written G w.out

/-- No typedef mentions itself, and what a struct or union contains it also holds, directly or
through one typedef, or something that it holds does, and so on. -/
structure Orderly (G : Symbols) : Prop where
  typedefs : Acyclic G.MentionsTd
  contents : ∀ {k d}, G.ContainsEl k d → TransGen G.Holds k d

/-- Every typedef, struct and union is mentioned by a transformation function. -/
def Covered (G : Symbols) : Prop :=
  ∀ k ∈ G.keys, k.isFn = false → ∃ f ∈ G.xformFuns, k ∈ G.soft (.fn f)

theorem defs_needs {k d : Key} (h : TransGen G.Holds k d) (ht : k.isTd = false) :
    TransGen (Defs G.Needs) (.defn k) (.defn d) := by
  have one : ∀ k d, k.isTd = false → G.Holds k d → Defs G.Needs (.defn k) (.defn d) :=
    fun _ _ ht h => Or.inr ⟨ht, h⟩
  induction h using TransGen.head_induction_on with
  | single h => exact .single (one _ _ ht h)
  | head h _ ih => exact .head (one _ _ ht h) (ih h.1)

theorem correct_of_orderly (hr : G.Rendered) (elements : Acyclic G.Hard) (ho : Orderly G) :
    Correct G := by
  intro order _
  obtain ⟨w, hw, top, inOrder⟩ := writeOrderedSymbols_ok hr elements ho.typedefs order
  refine ⟨w, hw, top.tidy.once, ?_, ?_⟩
  · refine inOrder.mono fun y d h => ?_
    cases y <;> cases d <;> first | exact h.elim | exact .inl h
  · intro pre y post he d hd
    cases y <;> cases d <;> try exact hd.elim
    exact inOrder.trans pre _ post he _ (defs_needs (ho.contents hd) hd.1)

/-! ## Why the condition is needed -/

theorem Contains.element {k d : Key} (h : G.Contains d k) : d.isTd = false ∧ d.isFn = false := by
  induction h with
  | direct ht hd =>
    refine ⟨ht, ?_⟩
    cases d with
    | fn f => exact absurd hd G.hard_fn
    | _ => rfl
  | typedef _ _ _ ih => exact ih

theorem Contains.container {k d : Key} (h : G.Contains d k) : k ∈ G.keys ∧ k.isFn = false := by
  have hard : ∃ t, t ∈ G.hard k := by
    cases h with
    | direct _ hd => exact ⟨_, hd⟩
    | typedef ht _ _ => exact ⟨_, ht⟩
  obtain ⟨t, ht⟩ := hard
  refine ⟨G.hard_key ht, ?_⟩
  cases k with
  | fn f =>
    rw [G.fn_hard f] at ht
    exact absurd ht List.not_mem_nil
  | _ => rfl

/-- What the calls for the transformation functions leave behind. -/
structure FunsDone (G : Symbols) (w : Writer) : Prop where
  top : G.TopLevel w
  prototypesOnly : ∀ k, .defn k ∈ w.out → k.isTd = false → k.isFn
  met : ∀ f ∈ G.xformFuns, ∀ d ∈ G.soft (.fn f), w.Met d

theorem reached_fn {f : String} {k : Key} (h : Reached G true (.fn f) k) : k.isFn := by
  rcases h.2 with rfl | h
  · rfl
  · obtain ⟨e, he, _⟩ := TransGen.head'_iff.mp h
    rcases he.2 with he | ⟨t, he, _⟩
    · rw [G.fn_hard f] at he
      exact absurd he List.not_mem_nil
    · rw [G.fn_hard f] at he
      exact absurd he List.not_mem_nil

theorem funsDone {w : Writer} (hr : G.Rendered) (h : G.writeFuns = .ok w) : FunsDone G w := by
  have round : ∀ f ∈ G.xformFuns, ∀ s s',
      (G.TopLevel s ∧ ∀ k, .defn k ∈ s.out → k.isTd = false → k.isFn) →
      G.write true (.fn f) s = .ok s' →
      (G.TopLevel s' ∧ ∀ k, .defn k ∈ s'.out → k.isTd = false → k.isFn) ∧
      (∀ d ∈ G.soft (.fn f), s'.Met d) ∧
      ∀ g, (∀ d ∈ G.soft (.fn g), s.Met d) → ∀ d ∈ G.soft (.fn g), s'.Met d := by
    rintro f hf s s' ⟨top, only⟩ hs
    obtain ⟨eff, top'⟩ := top.write hr (G.xform_mem hf) hs
    refine ⟨⟨top', fun k hk ht => ?_⟩, fun d hd => ?_, fun g hg d hd => eff.step.met (hg d hd)⟩
    · obtain ⟨l, hl, hP⟩ := eff.step.out
      rw [hl] at hk
      rcases List.mem_append.mp hk with hk | hk
      · exact only k hk ht
      · exact reached_fn (hP k hk ht)
    · have written := (eff.hard rfl).resolve_right (top.idle _)
      exact top'.tidy.soft written hd
  obtain ⟨⟨top, only⟩, met⟩ := foldlM_rule round
    ⟨topLevel_init, fun k hk => absurd hk List.not_mem_nil⟩ h
  exact ⟨top, only, met⟩

section Converse

variable {w : Writer} {k d : Key}

theorem FunsDone.typedef (h : FunsDone G w) (hc : Covered G) (hk : k ∈ G.keys) (ht : k.isTd) :
    k ∈ w.written := by
  obtain ⟨f, hf, hd⟩ := hc k hk (isFn_of_isTd ht)
  exact Met.written (h.met f hf k hd) ht

theorem FunsDone.prototype (h : FunsDone G w) (hc : Covered G) (hk : k ∈ G.keys)
    (ht : k.isTd = false) (hf : k.isFn = false) : k ∈ w.prototypeWritten ∧ k ∉ w.written := by
  have notYet : k ∉ w.written := fun hw => by
    have := h.prototypesOnly k (h.top.tidy.listed hw hf) ht
    rw [hf] at this
    cases this
  obtain ⟨f, hfun, hd⟩ := hc k hk hf
  exact ⟨((h.met f hfun k hd).resolve_left notYet).2, notYet⟩

/-- The pass over the prototypes, when the functions are written. -/
theorem Correct.rest (hcor : Correct G) (h : G.writeFuns = .ok w) {order : List Key}
    (ho : w.prototypeWritten ⊆ order) :
    ∃ w', order.foldlM G.checkPrototypes w = .ok w' ∧ Written G w'.out := by
  obtain ⟨w', hw, written⟩ := hcor order fun v hv k hk => by
    obtain rfl : w = v := Except.ok.inj (h.symm.trans hv)
    exact ho hk
  rw [writeOrderedSymbols, h] at hw
  exact ⟨w', hw, written⟩

/-- A typedef that mentions itself is not behind what it mentions. -/
theorem Correct.typedefs (hr : G.Rendered) (hc : Covered G) (hcor : Correct G)
    (h : G.writeFuns = .ok w) : Acyclic G.MentionsTd := by
  intro t cycle
  have done := funsDone hr h
  obtain ⟨w', hw, written⟩ := hcor.rest h (List.Subset.refl _)
  obtain ⟨step, top⟩ := done.top.checkAll hr hw
  obtain ⟨u, _, hu⟩ := TransGen.tail'_iff.mp cycle
  have hk : t ∈ G.keys := hu.2.2.elim G.soft_mem G.hard_mem
  have listed : .defn t ∈ w'.out :=
    top.tidy.listed (step.written (done.typedef hc hk hu.2.1)) (isFn_of_isTd hu.2.1)
  refine written.typedefs.irrefl listed (written.once t) ?_
  exact cycle.lift Output.defn fun a b hab => hab.2

/-- The first prototype gets its definition behind what `handle_deps` writes. -/
theorem TopLevel.first {w' : Writer} (hr : G.Rendered) (h : G.TopLevel w) (hk : k ∈ G.keys)
    (hf : k.isFn = false) (hwk : k ∉ w.written) (hw : G.write true k w = .ok w') :
    ∃ l, w'.out = w.out ++ l ++ [.defn k] ∧
      ∀ d, .defn d ∈ l → d.isTd = false → TransGen G.Holds k d := by
  have hs : k ∉ w.started := fun hs => h.idle k ⟨hs, hwk⟩
  rw [Symbols.write, fuel, writeRendered, if_neg hwk, if_neg (by simp [hs])] at hw
  obtain ⟨w₁, h₁, h₂⟩ := except_bind_ok hw
  cases h₂
  have deps := handleDeps_effect (writeRendered_writes hr _) (h.tidy.start k) h₁
  obtain ⟨l, hl, hP⟩ := deps.step.out
  refine ⟨l, ?_, fun d hd ht => (hP d hd ht).2⟩
  rw [finish, define_fields.2.2.2.2, if_pos (hr k hk hf), hf, hl]
  rfl

/-- In the order that comes by `k` first, what `k` contains can only be written by `k`. -/
theorem Correct.contents (hr : G.Rendered) (hc : Covered G) (hcor : Correct G)
    (h : G.writeFuns = .ok w) (hd : G.ContainsEl k d) : TransGen G.Holds k d := by
  have done := funsDone hr h
  obtain ⟨hdt, hdf⟩ := hd.2.element
  obtain ⟨hk, hf⟩ := hd.2.container
  obtain ⟨proto, notYet⟩ := done.prototype hc hk hd.1 hf
  obtain ⟨w', hw, written⟩ := hcor.rest h (List.subset_cons_self k _)
  rw [List.foldlM_cons] at hw
  obtain ⟨w₁, h₁, h₂⟩ := except_bind_ok hw
  obtain ⟨_, top₁⟩ := done.top.checkPrototypes hr h₁
  rw [Symbols.checkPrototypes, if_pos ⟨proto, notYet⟩] at h₁
  obtain ⟨l, hl, hP⟩ := done.top.first hr hk hf notYet h₁
  obtain ⟨l', hl', _⟩ := (top₁.checkAll hr h₂).1.out
  have front : .defn d ∈ w.out ++ l := written.contents _ (.defn k) l'
    (by rw [hl', hl, List.append_assoc]; rfl) _ hd
  rcases List.mem_append.mp front with hm | hm
  · have := done.prototypesOnly d hm hdt
    rw [hdf] at this
    cases this
  · exact hP d hm hdt

theorem orderly_of_correct (hr : G.Rendered) (hc : Covered G) (hcor : Correct G) : Orderly G := by
  cases h : G.writeFuns with
  | error e =>
    obtain ⟨w, hw, _⟩ := hcor [] fun v hv => by simp [h] at hv
    rw [writeOrderedSymbols, h] at hw
    cases hw
  | ok w => exact ⟨hcor.typedefs hr hc h, hcor.contents hr hc h⟩

end Converse

/-! ## Every set of transformation functions -/

/-- `G'` has the elements of `G`, and functions of its own. -/
structure SameElements (G G' : Symbols) : Prop where
  keys : ∀ {k}, k.isFn = false → k ∈ G'.keys → k ∈ G.keys
  soft : ∀ {k}, k.isFn = false → G'.soft k = G.soft k
  hard : ∀ {k}, k.isFn = false → G'.hard k = G.hard k
  rendered : ∀ {k}, k.isFn = false → G'.rendered k = G.rendered k

section SameElements

variable {G' : Symbols}

theorem SameElements.refl (G : Symbols) : SameElements G G :=
  ⟨fun _ hk => hk, fun _ => rfl, fun _ => rfl, fun _ => rfl⟩

/-- No function is in the dependencies of hard kind, on either side. -/
theorem SameElements.hard_eq (h : SameElements G G') (k : Key) : G'.hard k = G.hard k := by
  cases k with
  | fn f => rw [G.fn_hard, G'.fn_hard]
  | _ => exact h.hard rfl

theorem SameElements.isRendered (h : SameElements G G') (hr : G.Rendered) : G'.Rendered := by
  intro k hk hf
  rw [h.rendered hf]
  exact hr k (h.keys hf hk) hf

theorem SameElements.hardRel (h : SameElements G G') : G'.Hard = G.Hard := by
  funext k d
  rw [Hard, Hard, h.hard_eq]

theorem SameElements.mentionsTd (h : SameElements G G') : G'.MentionsTd = G.MentionsTd := by
  funext t u
  by_cases ht : t.isTd
  · simp only [MentionsTd, Mentions, h.hard_eq, h.soft (isFn_of_isTd ht)]
  · simp only [MentionsTd, ht, Bool.false_eq_true, false_and]

theorem SameElements.holds (h : SameElements G G') : G'.Holds = G.Holds := by
  funext k d
  simp only [Holds, h.hard_eq]

theorem SameElements.contains (h : SameElements G G') {k d : Key} (hd : G'.Contains d k) :
    G.Contains d k := by
  induction hd with
  | direct ht hd => exact .direct ht (h.hard_eq _ ▸ hd)
  | typedef ht htd _ ih => exact .typedef (h.hard_eq _ ▸ ht) htd ih

theorem SameElements.symm_contains (h : SameElements G G') {k d : Key} (hd : G.Contains d k) :
    G'.Contains d k := by
  induction hd with
  | direct ht hd => exact .direct ht (h.hard_eq _ ▸ hd)
  | typedef ht htd _ ih => exact .typedef (h.hard_eq _ ▸ ht) htd ih

/-- The condition is one on the elements. -/
theorem SameElements.orderly (h : SameElements G G') : Orderly G' ↔ Orderly G := by
  constructor
  · intro ho
    refine ⟨h.mentionsTd ▸ ho.typedefs, fun {k d} hd => ?_⟩
    rw [← h.holds]
    exact ho.contents ⟨hd.1, h.symm_contains hd.2⟩
  · intro ho
    refine ⟨h.mentionsTd ▸ ho.typedefs, fun {k d} hd => ?_⟩
    rw [h.holds]
    exact ho.contents ⟨hd.1, h.contains hd.2⟩

/-- The elements of `G` with one function, which has a pointer to each of them. -/
def mentionAll (G : Symbols) (f : String) : Symbols where
  keys := .fn f :: G.keys
  soft
    | .fn g => if g = f then G.keys.filter (!·.isFn) else []
    | k => G.soft k
  hard := G.hard
  rendered := G.rendered
  prototypes := G.prototypes
  xformFuns := [f]
  soft_mem {k d} h := by
    cases k with
    | fn g =>
      simp only at h
      split at h
      · exact List.mem_cons_of_mem _ (List.mem_of_mem_filter h)
      · exact absurd h List.not_mem_nil
    | td | o => exact List.mem_cons_of_mem _ (G.soft_mem h)
  hard_mem h := List.mem_cons_of_mem _ (G.hard_mem h)
  hard_key h := List.mem_cons_of_mem _ (G.hard_key h)
  xform_mem h := by
    rw [List.mem_singleton.mp h]
    exact List.mem_cons_self
  fn_hard := G.fn_hard
  hard_fn := G.hard_fn

theorem sameElements_mentionAll (f : String) : SameElements G (G.mentionAll f) where
  keys {k} hf hk := by
    refine (List.mem_cons.mp hk).resolve_left fun h => ?_
    rw [h] at hf
    cases hf
  soft {k} hf := by
    cases k with
    | fn => cases hf
    | _ => rfl
  hard _ := rfl
  rendered _ := rfl

theorem covered_mentionAll (f : String) : Covered (G.mentionAll f) := by
  intro k hk hf
  refine ⟨f, List.mem_cons_self, ?_⟩
  have := sameElements_mentionAll (G := G) f |>.keys hf hk
  simpa [mentionAll, hf] using this

end SameElements

/-! ## Conditions that are easy to check -/

theorem acyclic_of_rank {r : Key → Key → Prop} (rank : Key → Nat)
    (h : ∀ k d, r k d → rank d < rank k) : Acyclic r := by
  have descends : ∀ k d, TransGen r k d → rank d < rank k := by
    intro k d hd
    induction hd with
    | single hd => exact h _ _ hd
    | tail _ hd ih => exact Nat.lt_trans (h _ _ hd) ih
  exact fun k cycle => Nat.lt_irrefl _ (descends k k cycle)

theorem acyclic_ofDeps {ds : Deps} {rendered prototypes : Key → Bool} {xformFuns : List String}
    {hf} (rank : Key → Nat) (h : ∀ p ∈ ds.hard, rank p.2 < rank p.1) :
    Acyclic (Symbols.ofDeps ds rendered prototypes xformFuns hf).Hard :=
  acyclic_of_rank rank fun _ _ hd => h _ (mem_findAll.mp hd)

/-- Without typedefs of typedefs there is no chain that is too long. -/
theorem orderly_of_flat (typedefs : Acyclic G.MentionsTd)
    (flat : ∀ t u, t.isTd → u ∈ G.hard t → u.isTd = false) : Orderly G := by
  refine ⟨typedefs, fun {k d} hd => .single ?_⟩
  obtain ⟨ht, hd⟩ := hd
  cases hd with
  | direct hdt hd => exact ⟨hdt, .inl hd⟩
  | @typedef _ t htk htd hd =>
    refine ⟨hd.element.1, .inr ⟨t, htk, htd, ?_⟩⟩
    cases hd with
    | direct _ hd => exact hd
    | typedef hu hut _ =>
      have := flat t _ htd hu
      rw [hut] at this
      cases this

/-- Elements, and a function that transforms `struct x`. -/
def program (es : List TopElem) : Deps :=
  (es.foldl (Deps.handleElem id) ⟨[], []⟩).addDep (.fn "_kitsune_transform_struct_x") false
    (.o "struct x")

/-- `struct s { int n; }; typedef struct s t; struct x { t f; };` -/
def typedefOnce : Symbols :=
  .ofDeps (program [.struct "s" [.int .int], .typeDef "t" (.struct "s" []),
    .struct "x" [.named "t" []]]) (fun _ => true) (fun k => !k.isTd)
    ["_kitsune_transform_struct_x"] (by decide)

/-- `struct s { int n; }; typedef struct s t; typedef t u; struct x { u f; };` -/
def typedefTwice : Symbols :=
  .ofDeps (program [.struct "s" [.int .int], .typeDef "t" (.struct "s" []),
    .typeDef "u" (.named "t" []), .struct "x" [.named "u" []]]) (fun _ => true) (fun k => !k.isTd)
    ["_kitsune_transform_struct_x"] (by decide)

/-- Smaller for what is contained. -/
def exampleRank : Key → Nat
  | .o s => if s = "struct x" then 3 else 0
  | .td s => if s = "u" then 2 else 1
  | .fn _ => 0

/-- The definitions come out right whatever the functions mention exactly when the elements are
orderly. -/
theorem definition_order_iff (hr : G.Rendered) (elements : Acyclic G.Hard) :
    (∀ G', SameElements G G' → Correct G') ↔ Orderly G := by
  constructor
  · intro hcor
    have same := sameElements_mentionAll (G := G) "f"
    refine same.orderly.mp ?_
    exact orderly_of_correct (same.isRendered hr) (covered_mentionAll "f") (hcor _ same)
  · intro ho G' same
    exact correct_of_orderly (same.isRendered hr) (same.hardRel ▸ elements) (same.orderly.mpr ho)

theorem definition_order_typedefOnce : Correct typedefOnce := by
  have elements : Acyclic typedefOnce.Hard := acyclic_ofDeps exampleRank (by decide)
  have soft : ∀ p ∈ (program [.struct "s" [.int .int], .typeDef "t" (.struct "s" []),
      .struct "x" [.named "t" []]]).soft, p.2.isTd = false := by decide
  have flat : ∀ t u, t.isTd → u ∈ typedefOnce.hard t → u.isTd = false := by
    intro t u ht hu
    have all : ∀ p ∈ (program [.struct "s" [.int .int], .typeDef "t" (.struct "s" []),
      .struct "x" [.named "t" []]]).hard, p.1.isTd → p.2.isTd = false := by decide
    exact all _ (mem_findAll.mp hu) ht
  refine (definition_order_iff (fun _ _ _ => rfl) elements).mpr ?_ _ (SameElements.refl _)
  refine orderly_of_flat (acyclic_of_rank exampleRank ?_) flat
  rintro t u ⟨ht, hu, hd⟩
  rcases hd with hd | hd
  · have := soft _ (mem_findAll.mp hd)
    rw [hu] at this
    cases this
  · have := flat t u ht hd
    rw [hu] at this
    cases this

/-- The member comes before its type: `u` is written for its dependencies, and these are typedef
`t`, not `struct s`. -/
theorem definition_order_fails : typedefTwice.Rendered ∧ Acyclic typedefTwice.Hard ∧
    ¬ Correct typedefTwice := by
  refine ⟨fun _ _ _ => rfl, acyclic_ofDeps exampleRank (by decide), fun h => ?_⟩
  obtain ⟨w, hw, written⟩ := h [.o "struct x", .o "struct s"] fun w hw => by
    have met : typedefTwice.writeFuns.toOption.map (·.prototypeWritten) = some [.o "struct x"] := by
      decide +kernel
    rw [hw] at met
    have met : w.prototypeWritten = [.o "struct x"] := Option.some.inj met
    simp [met]
  have out : (typedefTwice.writeOrderedSymbols [.o "struct x", .o "struct s"]).toOption.map (·.out) =
      some ([.proto (.o "struct x"), .proto (.o "struct s"), .defn (.td "t"), .defn (.td "u")] ++
        .defn (.o "struct x") :: [.defn (.o "struct s")]) := by
    decide +kernel
  rw [hw] at out
  have contains : typedefTwice.ContainsEl (.o "struct x") (.o "struct s") := by
    refine ⟨rfl, .typedef (t := .td "u") ?_ rfl (.typedef (t := .td "t") ?_ rfl (.direct rfl ?_))⟩
    all_goals exact mem_findAll.mpr (by decide)
  have front := written.contents _ _ _ (Option.some.inj out) (.defn (.o "struct s")) contains
  simp at front

end Symbols

end CStrider.Gen
