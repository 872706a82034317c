import CStrider.Gen.Pairing

/-!
# What the tables say under a name

The generator knows a type by its text alone: what `has_generics'` wants to enter under a text that
is listed already is not entered, and its arguments are not stored. So what stands under a listed
text stays as it is in every later run (`Continues`, `continues_generate`). What a run enters before
it comes to a name of at least `n` characters is shorter than that, where `AgreeFrom n` holds.
-/

namespace CStrider.Gen

/-- The arguments stored in `stored_gen_args` under the text of `m`. -/
def GenCtx.argsOf (g : GenCtx) (m : Macro) : Option (List Macro) :=
  (g.storedGenArgs.find? fun x => x.1.text = m.text).map Prod.snd

/-- What is listed in `g` is listed in `g'`, with the same arguments. -/
structure Continues (g g' : GenCtx) : Prop where
  lists : ∀ m, g.Lists m → g'.Lists m
  argsOf : ∀ m, g.Lists m → g'.argsOf m = g.argsOf m

/-- `g` and `g'` say the same under all names of at least `n` characters. -/
def AgreeFrom (n : Nat) (g g' : GenCtx) : Prop :=
  ∀ m : Macro, n ≤ m.text.length → (g'.Lists m ↔ g.Lists m) ∧ g'.argsOf m = g.argsOf m

/-- Arguments are stored for listed names only. -/
def StoresListed (g : GenCtx) : Prop := ∀ x ∈ g.storedGenArgs, g.Lists x.1

/-! ## One extension -/

section Extension

variable {g g' g'' : GenCtx} {x : Extension} {m : Macro} {n : Nat}

theorem lists_apply : (x.apply g).Lists m ↔
    g.Lists m ∨ ∃ p, x.names = some p ∧ (m.text = p.1.text ∨ m.text = p.2.text) := by
  unfold GenCtx.Lists
  rw [macrotypes_apply, List.map_append, List.mem_append]
  cases x.names <;> simp

theorem Extends.lists (hm : g.Lists m) : Extends g g' → g'.Lists m := by
  rintro ⟨xs, rfl⟩
  induction xs generalizing g with
  | nil => exact hm
  | cons x xs ih => exact ih (lists_apply.mpr (.inl hm))

theorem argsOf_apply (h : ∀ i, x = .inst i → i.name.text ≠ m.text) :
    (x.apply g).argsOf m = g.argsOf m := by
  cases x with
  | setXform | ptr | elem => rfl
  | inst i =>
    have stored : ((Extension.inst i).apply g).storedGenArgs =
      g.storedGenArgs ++ [(i.name, i.args)] := rfl
    rw [GenCtx.argsOf, stored, List.find?_append, List.find?_cons_of_neg (by simpa using h i rfl),
      List.find?_nil, Option.or_none]
    rfl

theorem StoresListed.argsOf_eq_none (h : StoresListed g) (hm : ¬ g.Lists m) : g.argsOf m = none := by
  rw [GenCtx.argsOf, Option.map_eq_none_iff, List.find?_eq_none]
  intro x hx heq
  exact hm (by simpa [GenCtx.Lists, of_decide_eq_true heq] using h x hx)

/-- Where nothing is stored under its name, the arguments of an instance are found from then on. -/
theorem argsOf_inst {i : Instance} (hi : g.argsOf i.name = none) :
    ((Extension.inst i).apply g).argsOf i.name = some i.args := by
  have stored : ((Extension.inst i).apply g).storedGenArgs =
    g.storedGenArgs ++ [(i.name, i.args)] := rfl
  rw [GenCtx.argsOf, Option.map_eq_none_iff] at hi
  rw [GenCtx.argsOf, stored, List.find?_append, hi, Option.none_or, List.find?_singleton,
    if_pos (by simp)]
  rfl

theorem StoresListed.create : StoresListed gencontextCreate := fun _ hx => absurd hx List.not_mem_nil

theorem StoresListed.apply (h : StoresListed g) (x : Extension) : StoresListed (x.apply g) := by
  intro y hy
  rw [lists_apply]
  cases x with
  | setXform | ptr | elem => exact .inl (h y hy)
  | inst i =>
    rcases List.mem_append.mp (show y ∈ g.storedGenArgs ++ [(i.name, i.args)] from hy) with hy | hy
    · exact .inl (h y hy)
    · rw [List.mem_singleton.mp hy]
      exact .inr ⟨_, rfl, .inl rfl⟩

theorem StoresListed.extends (h : StoresListed g) : Extends g g' → StoresListed g' := by
  rintro ⟨xs, rfl⟩
  induction xs generalizing g with
  | nil => exact h
  | cons x xs ih => exact ih (h.apply x)

theorem Continues.refl (g : GenCtx) : Continues g g := ⟨fun _ h => h, fun _ _ => rfl⟩

theorem Continues.trans (h : Continues g g') (h' : Continues g' g'') : Continues g g'' :=
  ⟨fun m hm => h'.lists m (h.lists m hm),
    fun m hm => (h'.argsOf m (h.lists m hm)).trans (h.argsOf m hm)⟩

theorem Continues.apply (h : ∀ i, x = .inst i → ¬ g.Lists i.name) : Continues g (x.apply g) := by
  refine ⟨fun m hm => lists_apply.mpr (.inl hm), fun m hm => argsOf_apply fun i hi heq => ?_⟩
  refine h i hi ?_
  rwa [GenCtx.Lists, heq]

theorem AgreeFrom.refl (n : Nat) (g : GenCtx) : AgreeFrom n g g := fun _ _ => ⟨.rfl, rfl⟩

theorem AgreeFrom.trans (h : AgreeFrom n g g') (h' : AgreeFrom n g' g'') : AgreeFrom n g g'' :=
  fun m hm => ⟨(h' m hm).1.trans (h m hm).1, (h' m hm).2.trans (h m hm).2⟩

theorem AgreeFrom.mono {n' : Nat} (h : AgreeFrom n g g') (hn : n ≤ n') : AgreeFrom n' g g' :=
  fun m hm => h m (Nat.le_trans hn hm)

theorem AgreeFrom.apply (h : ∀ p, x.names = some p → p.1.text.length < n ∧ p.2.text.length < n) :
    AgreeFrom n g (x.apply g) := by
  intro m hm
  refine ⟨lists_apply.trans (or_iff_left ?_), argsOf_apply ?_⟩
  · rintro ⟨p, hp, heq | heq⟩
    · exact absurd (heq ▸ (h p hp).1) (Nat.not_lt.mpr hm)
    · exact absurd (heq ▸ (h p hp).2) (Nat.not_lt.mpr hm)
  · rintro i rfl heq
    exact absurd (heq ▸ (h _ rfl).1) (Nat.not_lt.mpr hm)

end Extension

/-! ## What is listed stays -/

/-- `m` changes nothing under the names that are listed, and returns nothing but `Q`. -/
def Continuing {α : Type} (Q : α → Prop) (m : GenM α) : Prop :=
  ∀ g a g', m g = .ok (a, g') → Continues g g' ∧ Q a

section Continuing

variable {α β : Type} {Q : α → Prop} {R : β → Prop}

theorem Continuing.pure {a : α} (ha : Q a) : Continuing Q (pure a : GenM α) := by
  intro g b g' h
  cases h
  exact ⟨.refl g, ha⟩

theorem Continuing.bind {m : GenM α} {k : α → GenM β} (hm : Continuing Q m)
    (hk : ∀ a, Q a → Continuing R (k a)) : Continuing R (m >>= k) := by
  intro g b g'' h
  obtain ⟨a, g', ha, hb⟩ := bind_ok h
  obtain ⟨first, hQ⟩ := hm _ _ _ ha
  obtain ⟨second, hR⟩ := hk a hQ _ _ _ hb
  exact ⟨first.trans second, hR⟩

theorem Continuing.extend {x : Extension} (hx : ∀ i, x ≠ .inst i) :
    Continuing (fun _ => True) (extend x) := by
  intro g b g' h
  cases h
  exact ⟨.apply fun i hi => absurd hi (hx i), trivial⟩

theorem unlessListed_cases {n : Macro} {act : GenM Unit} {g g' : GenCtx} {r : Unit}
    (h : unlessListed n act g = .ok (r, g')) :
    (g.Lists n ∧ g' = g) ∨ (¬ g.Lists n ∧ act g = .ok (r, g')) := by
  change (if g.Lists n then (Pure.pure () : GenM Unit) else act) g = _ at h
  split at h
  · next hn =>
    cases h
    exact .inl ⟨hn, rfl⟩
  · next hn => exact .inr ⟨hn, h⟩

theorem Continuing.unlessListed {n : Macro} {m : GenM Unit}
    (hm : Continuing (fun _ => True) m) : Continuing (fun _ => True) (unlessListed n m) := by
  intro g b g' h
  obtain ⟨-, rfl⟩ | ⟨-, h⟩ := unlessListed_cases h
  · exact ⟨.refl _, trivial⟩
  · exact hm g b g' h

theorem Continuing.appendDeref (s : Macro) (d : Nat) :
    Continuing (fun _ => True) (Gen.appendDeref s d) := by
  induction d generalizing s with
  | zero => exact .pure trivial
  | succ d ih =>
    rw [Gen.appendDeref]
    split
    · exact .pure trivial
    · exact .bind (.unlessListed (.extend fun i => by simp)) fun _ _ => ih s.ptr

/-- What `append_deref` lists are its pointers. -/
theorem listed_appendDeref {s m a : Macro} {d : Nat} {g g' : GenCtx}
    (h : Gen.appendDeref s d g = .ok (a, g')) (hm : g'.Lists m) :
    g.Lists m ∨ ∃ k < d, m.text = (s.ptrs (k + 1)).text ∨ m.text = (s.ptrs k).out.ptr.text := by
  induction d generalizing s g with
  | zero =>
    cases h
    exact .inl hm
  | succ d ih =>
    rw [Gen.appendDeref] at h
    split at h
    · cases h
      exact .inl hm
    · obtain ⟨_, g₁, h₁, h⟩ := bind_ok h
      rcases ih h with hl | ⟨k, hk, hl⟩
      · obtain ⟨-, rfl⟩ | ⟨-, h₁⟩ := unlessListed_cases h₁
        · exact .inl hl
        · cases h₁
          rcases lists_apply.mp hl with hl | ⟨p, ⟨⟩, hl⟩
          · exact .inl hl
          · exact .inr ⟨0, Nat.succ_pos d, hl⟩
      · exact .inr ⟨k + 1, Nat.succ_lt_succ hk, hl⟩

/-- An instance is no pointer of `append_deref`, on the way to which it stands. -/
theorem ofArgs_ne_appendDeref {s : Macro} {args : List Macro} {k d : Nat} (hk : k < d) :
    (Macro.ofArgs (s.ptrs d) args).text ≠ (s.ptrs (k + 1)).text ∧
      (Macro.ofArgs (s.ptrs d) args).text ≠ (s.ptrs k).out.ptr.text := by
  constructor
  · intro h
    have lengths := congrArg String.length h
    simp only [Macro.text, String.length_append, Macro.length_ptrs] at lengths
    have of : "_OF_".length = 4 := rfl
    omega
  · obtain ⟨j, rfl⟩ := Nat.exists_eq_add_of_lt hk
    obtain ⟨t, ht⟩ := ((s.ptrs k).ptr).text_ptrs j
    rw [show k + j + 1 = k + (j + 1) from rfl, Macro.ptrs_add, Macro.ptrs]
    simp only [Macro.text, ht, String.append_assoc]
    rw [Ne, String.append_right_inj, ← String.toList_inj]
    simp [String.toList_append]

/-- The target of an instance is entered where it is not listed; the pointers that are entered
before it do not list it. -/
theorem continuing_target (s : Macro) (args : List Macro) (d : Nat) {f : Macro → Instance}
    (hf : ∀ m, (f m).name = .ofArgs (s.ptrs d) args) :
    Continuing (fun _ => True) (unlessListed (.ofArgs (s.ptrs d) args) do
      let m ← appendDeref s d
      extend (.inst (f m))) := by
  intro g b g' h
  obtain ⟨-, rfl⟩ | ⟨new, h⟩ := unlessListed_cases h
  · exact ⟨.refl _, trivial⟩
  · obtain ⟨m, g₁, h₁, h⟩ := bind_ok h
    cases h
    refine ⟨(Continuing.appendDeref s d _ _ _ h₁).1.trans (.apply ?_), trivial⟩
    rintro _ ⟨⟩ listed
    rw [hf] at listed
    rcases listed_appendDeref h₁ listed with hl | ⟨k, hk, heq | heq⟩
    · exact new hl
    · exact (ofArgs_ne_appendDeref hk).1 heq
    · exact (ofArgs_ne_appendDeref hk).2 heq

/-- The end of `has_generics'` finds the instance listed and leaves it, or enters it. -/
theorem makeInstance_cases {p0 p1 : PathElem} {base main mainOut : Macro} {args : List Macro}
    {i : Nat} {g g' : GenCtx} {r : GenericType}
    (h : makeInstance p0 p1 base main mainOut args i g = .ok (r, g')) :
    r = .genOk (.ofArgs main args) ∧
      ((g.Lists (.ofArgs main args) ∧ g' = g) ∨ (¬ g.Lists (.ofArgs main args) ∧
        ∃ x : Instance, Continues ((Extension.inst x).apply g) g' ∧
          x.name = .ofArgs main args ∧ x.args = args)) := by
  obtain ⟨_, g₁, h₁, h₂⟩ := bind_ok h
  cases h₂
  refine ⟨rfl, ?_⟩
  obtain ⟨listed, rfl⟩ | ⟨new, h₁⟩ := unlessListed_cases h₁
  · exact .inl ⟨listed, rfl⟩
  · refine .inr ⟨new, ?_⟩
    obtain ⟨_, g₂, h₂, h₃⟩ := bind_ok h₁
    cases h₂
    split at h₃
    · cases h₃
      exact ⟨_, .refl _, rfl, rfl⟩
    · exact ⟨_, (continuing_target base args (i - 1) (fun _ => rfl) _ _ _ h₃).1, rfl, rfl⟩

/-- What is returned is known of the extensions. -/
theorem Continuing.returning {m : GenM α} (hm : Continuing Q m) {R : α → Prop}
    (hx : Extending (fun _ => True) R m) : Continuing R m :=
  fun g a g' h => ⟨(hm g a g' h).1, (hx g a g' h).2⟩

theorem continuing_rules {env : Env} : Rules env Continuing where
  pure := .pure
  throw e := fun g a g' h => by cases h
  bind := .bind
  setXform _ _ h := .bind h fun _ _ => .extend fun i => by simp
  appendDeref hs d := (Continuing.appendDeref _ d).returning
    ((extends_rules : Rules env _).appendDeref hs d)
  mainTypes p i := by
    refine Continuing.returning (Q := fun _ => True) ?_ ((extends_rules : Rules env _).mainTypes p i)
    exact .bind (.appendDeref _ i) fun _ _ => .bind (.appendDeref _ i) fun _ _ => .pure trivial
  makeInstance p0 p1 args i := fun g r g' h => by
    obtain ⟨rfl, ⟨-, rfl⟩ | ⟨new, x, rest, hx, -⟩⟩ := makeInstance_cases h
    · exact ⟨.refl _, trivial⟩
    · refine ⟨.trans (.apply ?_) rest, trivial⟩
      rintro _ ⟨⟩
      rwa [hx]

/-- Whatever results the generator goes on with, what is listed stays as it is. -/
theorem continues_generate {env : Env} {ms : List Matched} {g : GenCtx} {vss : List (List Visit)}
    {g' : GenCtx} (h : generate env ms g = .ok (vss, g')) : Continues g g' :=
  (walk_generate continuing_rules (fun e0 e1 info _ =>
    walk_type continuing_rules e0 e1 info fun _ => .extend fun i => by simp) _ _ _ h).1

end Continuing

/-! ## Names below a length -/

/-- `m` succeeds with `a`, from any tables, and enters names below `n` characters only. -/
def ReturnsBelow (n : Nat) {α : Type} (m : GenM α) (a : α) : Prop :=
  ∀ g, ∃ g', m g = .ok (a, g') ∧ AgreeFrom n g g'

section ReturnsBelow

variable {α β : Type} {n : Nat}

theorem ReturnsBelow.mono {n' : Nat} {m : GenM α} {a : α} (h : ReturnsBelow n m a) (hn : n ≤ n') :
    ReturnsBelow n' m a :=
  fun g => (h g).imp fun _ hg => ⟨hg.1, hg.2.mono hn⟩

theorem ReturnsBelow.pure (a : α) : ReturnsBelow n (pure a : GenM α) a :=
  fun g => ⟨g, rfl, .refl n g⟩

theorem ReturnsBelow.bind {m : GenM α} {k : α → GenM β} {a : α} {b : β} (hm : ReturnsBelow n m a)
    (hk : ReturnsBelow n (k a) b) : ReturnsBelow n (m >>= k) b := by
  intro g
  obtain ⟨g', h, agree⟩ := hm g
  obtain ⟨g'', h', agree'⟩ := hk g'
  exact ⟨g'', (bind_of_ok h).trans h', agree.trans agree'⟩

theorem ReturnsBelow.extend {x : Extension}
    (hx : ∀ p, x.names = some p → p.1.text.length < n ∧ p.2.text.length < n) :
    ReturnsBelow n (extend x) () :=
  fun g => ⟨x.apply g, rfl, .apply hx⟩

theorem ReturnsBelow.unlessListed {s : Macro} {m : GenM Unit} (hm : ReturnsBelow n m ()) :
    ReturnsBelow n (unlessListed s m) () := by
  intro g
  by_cases h : g.Lists s
  · refine ⟨g, ?_, .refl n g⟩
    change (if g.Lists s then (Pure.pure () : GenM Unit) else m) g = _
    rw [if_pos h]
    rfl
  · obtain ⟨g', hg, agree⟩ := hm g
    refine ⟨g', ?_, agree⟩
    change (if g.Lists s then (Pure.pure () : GenM Unit) else m) g = _
    rw [if_neg h, hg]

theorem returnsBelow_appendDeref {s : Macro} (h : s.hasArrow = false) {d : Nat}
    (hn : s.text.length + 4 * d + 4 < n) : ReturnsBelow n (appendDeref s d) (s.ptrs d) := by
  induction d generalizing s with
  | zero => exact .pure s
  | succ d ih =>
    have ptr : "_PTR".length = 4 := rfl
    have out : "_OUT".length = 4 := rfl
    have hp : s.ptr.hasArrow = false := by rw [Macro.hasArrow, h]
    simp only [appendDeref, h, Bool.false_eq_true, ↓reduceIte]
    refine .bind (.unlessListed (.extend ?_)) (ih hp ?_)
    · rintro _ ⟨⟩
      simp only [Macro.text, String.length_append]
      omega
    · simp only [Macro.text, String.length_append]
      omega

end ReturnsBelow

end CStrider.Gen
