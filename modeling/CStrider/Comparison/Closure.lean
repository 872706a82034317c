import CStrider.Comparison.Fixpoint
import CStrider.Lib.Marking

/-!
# `computeChangeFixpoint` computes the closure of the dependencies

`mark_dependencies` is a depth-first marking of a graph whose nodes are the mappings in two modes,
deep and shallow. A hard dependency keeps the mode, and a pointer dependency goes on in the shallow
one. The tables of requirements are read once and then cleared, so that what is marked at the end
can be reached from what they held.
-/

namespace CStrider.Comparison

open Relation (ReflTransGen)

/-- `d` depends on `m`. -/
def Tables.Hard (t : Tables) (m d : Paths) : Prop := (m, d) ∈ t.hardDeps

/-- `d` depends on `m` through a pointer. -/
def Tables.Ptr (t : Tables) (m d : Paths) : Prop := (m, d) ∈ t.ptrDeps

/-- What `t'` requires is the closure of what `t` requires under the dependencies of `t`. -/
structure DependencyClosure (t t' : Tables) : Prop where
  full : ∀ m, m ∈ t'.requiresFullXform ↔
    ∃ m₀ ∈ t.requiresFullXform, ReflTransGen t.Hard m₀ m
  shallow : ∀ m, m ∈ t'.requiresShallowXform ↔
    ∃ m₀, (m₀ ∈ t.requiresShallowXform ∨ ∃ f ∈ t'.requiresFullXform, t.Ptr f m₀) ∧
      ReflTransGen (fun m d => t.Hard m d ∨ t.Ptr m d) m₀ m

/-! ## The graph of both modes -/

/-- Where the marking goes on from a mapping in one of the modes. -/
def Tables.LeadsTo (t : Tables) (x y : Bool × Paths) : Prop :=
  y.1 = x.1 ∧ t.Hard x.2 y.2 ∨ y.1 = false ∧ t.Ptr x.2 y.2

def Tables.marked (t : Tables) : Set (Bool × Paths) := {x | x.2 ∈ t.required x.1}

section

variable {t₀ t t' : Tables} {deep : Bool} {mapping : Paths}

theorem mem_marked {b : Bool} {m : Paths} : (b, m) ∈ t.marked ↔ m ∈ t.required b := Iff.rfl

theorem marked_require : (t.require deep mapping).marked = insert (deep, mapping) t.marked := by
  ext ⟨b, m⟩
  rw [Set.mem_insert_iff, mem_marked, mem_marked, mem_required_require,
    Prod.mk.injEq b m deep mapping]

theorem marked_cleared :
    { t with requiresFullXform := [], requiresShallowXform := [] }.marked = ∅ := by
  ext ⟨b, m⟩
  cases b <;> exact iff_of_false List.not_mem_nil (Set.notMem_empty _)

theorem marked_eq : t.marked = {y | ∃ m ∈ t.requiresFullXform, (true, m) = y} ∪
    {y | ∃ m ∈ t.requiresShallowXform, (false, m) = y} := by
  ext x
  constructor
  · intro hm
    obtain ⟨b, m⟩ := x
    cases b with
    | true => exact .inl ⟨m, hm, rfl⟩
    | false => exact .inr ⟨m, hm, rfl⟩
  · rintro (⟨m, hm, rfl⟩ | ⟨m, hm, rfl⟩)
    · exact hm
    · exact hm

/-- The marking leaves the dependencies alone. -/
structure SameDeps (t₀ t : Tables) : Prop where
  hard : t.hardDeps = t₀.hardDeps
  ptr : t.ptrDeps = t₀.ptrDeps

theorem Marks.sameDeps (h : Marks t t') (h₀ : SameDeps t₀ t) : SameDeps t₀ t' := by
  rw [h.frame]
  exact ⟨h₀.hard, h₀.ptr⟩

theorem leadsTo_iff {y : Bool × Paths} :
    t.LeadsTo (deep, mapping) y ↔
      y ∈ {y | ∃ d ∈ findAll t.hardDeps mapping, (deep, d) = y} ∪
        {y | ∃ d ∈ findAll t.ptrDeps mapping, (false, d) = y} := by
  obtain ⟨b, d⟩ := y
  constructor
  · rintro (⟨rfl, hd⟩ | ⟨rfl, hd⟩)
    · exact .inl ⟨d, mem_findAll.mpr hd, rfl⟩
    · exact .inr ⟨d, mem_findAll.mpr hd, rfl⟩
  · rintro (⟨d, hd, h⟩ | ⟨d, hd, h⟩)
    · obtain ⟨rfl, rfl⟩ := Prod.mk.inj h
      exact .inl ⟨rfl, mem_findAll.mp hd⟩
    · obtain ⟨rfl, rfl⟩ := Prod.mk.inj h
      exact .inr ⟨rfl, mem_findAll.mp hd⟩

/-- One call of `mark_dependencies` visits its mapping. -/
theorem markDependencies_explores {fuel : Nat} (h₀ : SameDeps t₀ t)
    (h : markDependencies fuel deep mapping t = some t') :
    SameDeps t₀ t' ∧ Explores t₀.LeadsTo {(deep, mapping)} t.marked t'.marked := by
  refine ⟨(markDependencies_marks h).sameDeps h₀, ?_⟩
  induction fuel generalizing deep mapping t t' with
  | zero => cases h
  | succ fuel ih =>
    rw [markDependencies_succ] at h
    split at h
    · next hmem =>
      obtain rfl := Option.some.inj h
      exact .nothing (Set.singleton_subset_iff.mpr hmem)
    · obtain ⟨t₁, hhard, hptr⟩ := Option.bind_eq_some_iff.mp h
      have round (b : Bool) (t d t') (h₀ : SameDeps t₀ t)
          (h : markDependencies fuel b d t = some t') :
          SameDeps t₀ t' ∧ Explores t₀.LeadsTo {(b, d)} t.marked t'.marked :=
        ⟨(markDependencies_marks h).sameDeps h₀, ih h₀ h⟩
      have required : SameDeps t₀ (t.require deep mapping) :=
        (marks_require t deep mapping).sameDeps h₀
      obtain ⟨h₁, hard⟩ := Explores.foldlM (round deep) required hhard
      obtain ⟨_, ptr⟩ := Explores.foldlM (round false) h₁ hptr
      rw [h₀.hard] at hard
      rw [h₁.ptr] at ptr
      exact .node (fun _ => leadsTo_iff) (marked_require ▸ hard.trans ptr)

/-- `computeChangeFixpoint` visits what its tables require, beginning with nothing marked. -/
theorem computeChangeFixpoint_explores {fuel : Nat} (h : computeChangeFixpoint fuel t = some t') :
    Explores t.LeadsTo t.marked ∅ t'.marked := by
  obtain ⟨t₁, hfull, hshallow⟩ := Option.bind_eq_some_iff.mp h
  have round (b : Bool) (s m s') (h₀ : SameDeps t s) (h : markDependencies fuel b m s = some s') :=
    markDependencies_explores h₀ h
  have cleared : SameDeps t { t with requiresFullXform := [], requiresShallowXform := [] } :=
    ⟨rfl, rfl⟩
  obtain ⟨h₁, full⟩ := Explores.foldlM (round true) cleared hfull
  obtain ⟨_, shallow⟩ := Explores.foldlM (round false) h₁ hshallow
  have explores := full.trans shallow
  rw [marked_cleared, ← marked_eq] at explores
  exact explores

/-! ## The two modes apart -/

/-- The deep mode is only reached by hard dependencies. -/
theorem hard_of_leadsTo {x y : Bool × Paths} (h : ReflTransGen t.LeadsTo x y) (hy : y.1 = true) :
    x.1 = true ∧ ReflTransGen t.Hard x.2 y.2 := by
  induction h with
  | refl => exact ⟨hy, .refl⟩
  | tail _ hstep ih =>
    rcases hstep with ⟨hmode, hdep⟩ | ⟨hmode, _⟩
    · obtain ⟨hx, hr⟩ := ih (hmode ▸ hy)
      exact ⟨hx, hr.tail hdep⟩
    · exact absurd (hmode.symm.trans hy) Bool.false_ne_true

/-- What is reached in the shallow mode is reached from a mapping that begins in it, or from one
where it is entered from the deep mode. -/
theorem shallow_of_leadsTo {x y : Bool × Paths} (h : ReflTransGen t.LeadsTo x y)
    (hy : y.1 = false) :
    ∃ m₀, (x = (false, m₀) ∨ ∃ f, ReflTransGen t.LeadsTo x (true, f) ∧ t.Ptr f m₀) ∧
      ReflTransGen (fun m d => t.Hard m d ∨ t.Ptr m d) m₀ y.2 := by
  induction h with
  | refl => exact ⟨x.2, .inl (Prod.ext hy rfl), .refl⟩
  | @tail z y hz hstep ih =>
    obtain ⟨mode, m⟩ := z
    cases mode with
    | true =>
      rcases hstep with ⟨hmode, _⟩ | ⟨_, hptr⟩
      · exact absurd (hy.symm.trans hmode) Bool.false_ne_true
      · exact ⟨y.2, .inr ⟨m, hz, hptr⟩, .refl⟩
    | false =>
      obtain ⟨m₀, hm₀, hr⟩ := ih rfl
      exact ⟨m₀, hm₀, hr.tail (hstep.imp And.right And.right)⟩

theorem leadsTo_of_shallow {m₀ m : Paths}
    (h : ReflTransGen (fun m d => t.Hard m d ∨ t.Ptr m d) m₀ m) :
    ReflTransGen t.LeadsTo (false, m₀) (false, m) :=
  h.lift (Prod.mk false) fun _ _ hstep => hstep.imp (And.intro rfl) (And.intro rfl)

theorem leadsTo_of_hard {m₀ m : Paths} (h : ReflTransGen t.Hard m₀ m) :
    ReflTransGen t.LeadsTo (true, m₀) (true, m) :=
  h.lift (Prod.mk true) fun _ _ hstep => .inl ⟨rfl, hstep⟩

theorem dependencyClosure_of_explores (h : Explores t.LeadsTo t.marked ∅ t'.marked) :
    DependencyClosure t t' where
  full m := by
    change (true, m) ∈ t'.marked ↔ _
    rw [h.mem_iff]
    constructor
    · rintro ⟨⟨b, m₀⟩, hm₀, hr⟩
      obtain ⟨rfl, hhard⟩ := hard_of_leadsTo hr rfl
      exact ⟨m₀, hm₀, hhard⟩
    · rintro ⟨m₀, hm₀, hr⟩
      exact ⟨(true, m₀), hm₀, leadsTo_of_hard hr⟩
  shallow m := by
    change (false, m) ∈ t'.marked ↔ _
    constructor
    · intro hm
      obtain ⟨x, hx, hr⟩ := h.mem_iff.mp hm
      obtain ⟨m₀, hm₀, hr'⟩ := shallow_of_leadsTo hr rfl
      refine ⟨m₀, ?_, hr'⟩
      rcases hm₀ with rfl | ⟨f, hf, hptr⟩
      · exact .inl hx
      · exact .inr ⟨f, h.mem_iff.mpr ⟨x, hx, hf⟩, hptr⟩
    · rintro ⟨m₀, hm₀, hr⟩
      have first : (false, m₀) ∈ t'.marked := by
        rcases hm₀ with hm₀ | ⟨f, hf, hptr⟩
        · exact h.started hm₀
        · exact h.closed (true, f) hf (Set.notMem_empty _) _ (.inr ⟨rfl, hptr⟩)
      obtain ⟨x, hx, hr'⟩ := h.mem_iff.mp first
      exact h.mem_iff.mpr ⟨x, hx, hr'.trans (leadsTo_of_shallow hr)⟩

end

/-- **`computeChangeFixpoint` computes the closure of the dependencies**: it comes to an end, and
whenever it does, exactly those mappings require a transformation that depend on one that did. -/
theorem computeChangeFixpoint_closure (t : Tables) :
    (∃ enough, ∀ fuel, enough ≤ fuel → ∃ t', computeChangeFixpoint fuel t = some t') ∧
      ∀ fuel t', computeChangeFixpoint fuel t = some t' → DependencyClosure t t' :=
  ⟨⟨_, fun _ hfuel => computeChangeFixpoint_isSome (Nat.lt_of_succ_le hfuel)⟩,
    fun _ _ h => dependencyClosure_of_explores (computeChangeFixpoint_explores h)⟩

end CStrider.Comparison
