import CStrider.Gen.Walk

/-!
# The generator only extends its tables

Whatever a function of the generator is called with, the tables it leaves are those it found with
a sequence of extensions behind them (`Extending`). `Returns` says in addition that it succeeds, and
with what.
-/

namespace CStrider.Gen

/-- `g'` is `g` after a sequence of extensions. -/
def Extends (g g' : GenCtx) : Prop := ∃ xs : List Extension, g' = xs.foldl (fun g x => x.apply g) g

/-- `g'` is `g` after a sequence of extensions with `E`. -/
def ExtendsBy (E : Extension → Prop) (g g' : GenCtx) : Prop :=
  ∃ xs : List Extension, (∀ x ∈ xs, E x) ∧ g' = xs.foldl (fun g x => x.apply g) g

/-- `m` only extends the tables, with `E`, and returns nothing but `Q`. -/
def Extending (E : Extension → Prop) {α : Type} (Q : α → Prop) (m : GenM α) : Prop :=
  ∀ g a g', m g = .ok (a, g') → ExtendsBy E g g' ∧ Q a

/-- `m` succeeds with `a`, from any tables. -/
def Returns {α : Type} (m : GenM α) (a : α) : Prop := ∀ g, ∃ g', m g = .ok (a, g')

section Rules

variable {E : Extension → Prop} {α β : Type}

theorem Extends.refl (g : GenCtx) : Extends g g := ⟨[], rfl⟩

theorem Extends.trans {g h k : GenCtx} : Extends g h → Extends h k → Extends g k := by
  rintro ⟨xs, rfl⟩ ⟨ys, rfl⟩
  exact ⟨xs ++ ys, by rw [List.foldl_append]⟩

theorem ExtendsBy.refl (g : GenCtx) : ExtendsBy E g g :=
  ⟨[], fun _ hx => absurd hx List.not_mem_nil, rfl⟩

theorem ExtendsBy.trans {g h k : GenCtx} : ExtendsBy E g h → ExtendsBy E h k → ExtendsBy E g k := by
  rintro ⟨xs, hxs, rfl⟩ ⟨ys, hys, rfl⟩
  refine ⟨xs ++ ys, fun x hx => ?_, by rw [List.foldl_append]⟩
  rcases List.mem_append.mp hx with hx | hx
  · exact hxs x hx
  · exact hys x hx

theorem bind_ok {m : GenM α} {k : α → GenM β} {g g'' : GenCtx} {b : β}
    (h : (m >>= k) g = .ok (b, g'')) : ∃ a g', m g = .ok (a, g') ∧ k a g' = .ok (b, g'') := by
  change (m g >>= fun p => k p.1 p.2) = _ at h
  cases hm : m g with
  | error e =>
    rw [hm] at h
    cases h
  | ok p =>
    rw [hm] at h
    exact ⟨p.1, p.2, rfl, h⟩

theorem bind_of_ok {m : GenM α} {k : α → GenM β} {g g' : GenCtx} {a : α} (h : m g = .ok (a, g')) :
    (m >>= k) g = k a g' := by
  change (m g >>= fun p => k p.1 p.2) = _
  rw [h]
  rfl

variable {Q : α → Prop} {R : β → Prop}

theorem Extending.pure {a : α} (ha : Q a) : Extending E Q (pure a : GenM α) := by
  intro g b g' h
  cases h
  exact ⟨.refl g, ha⟩

theorem Extending.throw (e : String) : Extending E Q (throw e : GenM α) := by
  intro g b g' h
  cases h

theorem Extending.bind {m : GenM α} {k : α → GenM β} (hm : Extending E Q m)
    (hk : ∀ a, Q a → Extending E R (k a)) : Extending E R (m >>= k) := by
  intro g b g'' h
  obtain ⟨a, g', ha, hb⟩ := bind_ok h
  obtain ⟨first, hQ⟩ := hm _ _ _ ha
  obtain ⟨second, hR⟩ := hk a hQ _ _ _ hb
  exact ⟨first.trans second, hR⟩

theorem Extending.extend {x : Extension} (hx : E x) :
    Extending E (fun _ => True) (extend x) := by
  intro g b g' h
  cases h
  exact ⟨⟨[x], List.forall_mem_singleton.mpr hx, rfl⟩, trivial⟩

/-- What `m` returns is what it returned from some tables. -/
theorem Extending.self {m : GenM α} (hm : Extending E Q m) :
    Extending E (fun a => ∃ g g', m g = .ok (a, g')) m :=
  fun g a g' h => ⟨(hm g a g' h).1, g, g', h⟩

theorem Extending.extends {m : GenM α} (hm : Extending (fun _ => True) Q m) {g g' : GenCtx} {a : α}
    (h : m g = .ok (a, g')) : Extends g g' := by
  obtain ⟨⟨xs, -, rfl⟩, -⟩ := hm g a g' h
  exact ⟨xs, rfl⟩

theorem Extending.unlessListed {n : Macro} {m : GenM Unit} (hm : Extending E (fun _ => True) m) :
    Extending E (fun _ => True) (unlessListed n m) := by
  intro g b g' h
  change (if g.Lists n then (Pure.pure () : GenM Unit) else m) g = _ at h
  split at h
  · exact Extending.pure (Q := fun _ => True) trivial _ _ _ h
  · exact hm _ _ _ h

theorem Returns.pure (a : α) : Returns (pure a : GenM α) a := fun g => ⟨g, rfl⟩

theorem Returns.bind {m : GenM α} {k : α → GenM β} {a : α} {b : β} (hm : Returns m a)
    (hk : Returns (k a) b) : Returns (m >>= k) b := by
  intro g
  obtain ⟨g', h⟩ := hm g
  obtain ⟨g'', h'⟩ := hk g'
  exact ⟨g'', (bind_of_ok h).trans h'⟩

theorem Returns.map {m : GenM α} {a : α} (f : α → β) (hm : Returns m a) :
    Returns (f <$> m) (f a) := by
  rw [← bind_pure_comp]
  exact hm.bind (.pure _)

theorem Returns.extend (x : Extension) : Returns (extend x) () := fun g => ⟨x.apply g, rfl⟩

theorem Returns.unlessListed {n : Macro} {m : GenM Unit} (hm : Returns m ()) :
    Returns (unlessListed n m) () := by
  intro g
  by_cases h : g.Lists n
  · refine ⟨g, ?_⟩
    change (if g.Lists n then (Pure.pure () : GenM Unit) else m) g = _
    rw [if_pos h]
    rfl
  · obtain ⟨g', hg⟩ := hm g
    refine ⟨g', ?_⟩
    change (if g.Lists n then (Pure.pure () : GenM Unit) else m) g = _
    rw [if_neg h, hg]

end Rules

/-! ## Instances -/

/-- The instance that `has_generics'` enters for a type `i` pointers and arrays below the field. -/
def Instance.behind (p0 p1 : PathElem) (args : List Macro) (i : Nat) : Instance where
  head := p0.typeMacro.ptrs i
  args
  main := p0.typeMacro.ptrs i
  mainOut := p0.typeMacro.out.ptrs i
  target := if i = 0 then .lit "-1" else .ofArgs (p0.typeMacro.ptrs (i - 1)) args
  targetOut := if i = 0 then .lit "-1" else (Macro.ofArgs (p0.typeMacro.ptrs (i - 1)) args).out
  ptrto := .lit "0"
  size0 := renderSizeof oldRename i p0
  size1 := renderSizeof newRename i p1
  func := .xform p0 p1

/-- The target of one, which is entered with it. -/
def Instance.pointed (p0 p1 : PathElem) (args : List Macro) (i : Nat) : Instance where
  head := p0.typeMacro.ptrs i
  args
  main := p0.typeMacro.ptrs i
  mainOut := (p0.typeMacro.ptrs i).out
  target := .lit "-1"
  targetOut := .lit "-1"
  ptrto := .ofArgs (p0.typeMacro.ptrs (i + 1)) args
  size0 := renderSizeof oldRename i p0
  size1 := renderSizeof newRename i p1
  func := .xform p0 p1

/-- All that is entered for an instance is that of one type. -/
def Instance.Formed (x : Instance) : Prop :=
  ∃ p0 p1 args i, x = .behind p0 p1 args i ∨ x = .pointed p0 p1 args i

section Generator

variable {E : Extension → Prop}

theorem extending_appendDeref (ptr : ∀ s, E (.ptr s)) (m : Macro) (d : Nat) :
    Extending E (fun n => (m.Rendered → n.Rendered) ∧
      (m.hasArrow = false → n = m.ptrs d)) (appendDeref m d) := by
  induction d generalizing m with
  | zero => exact .pure ⟨fun h => h, fun _ => rfl⟩
  | succ d ih =>
    rw [appendDeref]
    split
    · next arrow => exact .pure ⟨fun h => h, fun h => by simp [arrow] at h⟩
    · refine .bind (.unlessListed (.extend (ptr m))) fun _ _ g n g' h => ?_
      obtain ⟨extends', old, eq⟩ := ih m.ptr g n g' h
      exact ⟨extends', old, fun h => eq h⟩

theorem returns_appendDeref {m : Macro} (h : m.hasArrow = false) (d : Nat) :
    Returns (appendDeref m d) (m.ptrs d) := by
  induction d generalizing m with
  | zero => exact .pure m
  | succ d ih =>
    have hp : m.ptr.hasArrow = false := by rw [Macro.hasArrow, h]
    simp only [appendDeref, h, Bool.false_eq_true, ↓reduceIte]
    exact .bind (.unlessListed (.extend _)) (ih hp)

theorem extending_makeInstance (ptr : ∀ s, E (.ptr s)) (inst : ∀ x : Instance, x.Formed → E (.inst x))
    (p0 p1 : PathElem) (args : List Macro) (i : Nat) :
    Extending E GenericType.Rendered (makeInstance p0 p1 p0.typeMacro (p0.typeMacro.ptrs i)
      (p0.typeMacro.out.ptrs i) args i) := by
  refine .bind (.unlessListed (.bind (.extend (inst _ ⟨p0, p1, args, i, .inl rfl⟩)) fun _ _ => ?_))
    fun _ _ => .pure trivial
  split
  · exact .pure trivial
  · next hi =>
    refine .unlessListed (.bind (extending_appendDeref ptr _ _) fun n hn => .extend (inst _ ?_))
    refine ⟨p0, p1, args, i - 1, .inr ?_⟩
    rw [Instance.pointed, hn.2 p0.hasArrow_typeMacro, Nat.sub_add_cancel (Nat.pos_of_ne_zero hi)]

theorem extending_rules {env : Env} (ptr : ∀ s, E (.ptr s))
    (inst : ∀ x : Instance, x.Formed → E (.inst x))
    (set : ∀ t0 t1 f g g', generateEnqueue env t0 t1 g = .ok (f, g') → E (.setXform t0 t1 f)) :
    Rules env (Extending E) where
  pure := .pure
  throw := .throw
  bind := .bind
  setXform t0 t1 h := .bind h.self fun f hf => by
    obtain ⟨g, g', hf⟩ := hf
    exact .extend (set t0 t1 f g g' hf)
  appendDeref hs d g m g' h := by
    obtain ⟨extends', old, -⟩ := extending_appendDeref ptr _ d g m g' h
    exact ⟨extends', old hs⟩
  mainTypes p i := .bind (extending_appendDeref ptr _ i) fun m hm =>
    .bind (extending_appendDeref ptr _ i) fun n hn =>
      .pure (by rw [hm.2 p.hasArrow_typeMacro, hn.2 p.hasArrow_typeMacro])
  makeInstance := extending_makeInstance ptr inst

/-- With no condition on the extensions. -/
theorem extends_rules {env : Env} : Rules env (Extending fun _ => True) :=
  extending_rules (fun _ => trivial) (fun _ _ => trivial) fun _ _ _ _ _ _ => trivial

/-- However it goes, a run of the generator is a sequence of extensions. -/
theorem extends_generate {env : Env} {ms : List Matched} {g : GenCtx} {vss : List (List Visit)}
    {g' : GenCtx} (h : generate env ms g = .ok (vss, g')) : Extends g g' := by
  have any : Extending (fun _ => True) (fun _ => True) (generate env ms) :=
    walk_generate extends_rules fun e0 e1 info _ =>
      walk_type extends_rules e0 e1 info fun _ => .extend trivial
  exact any.extends h

end Generator

end CStrider.Gen
