import CStrider.Gen.Pairing

/-!
# What the generator asks of its list of names

Whether a row is entered depends on the names that `macrotypes` has already; nothing else in the
generator does. So a run is a list of requests that depends on the program alone (`Requesting`,
`asks_generate`), and the list of names is what the requests make of it. `Request.enter` answers
them with any notion of name: with the texts, as the generator does, or with the types themselves,
as if no two types were named alike.
-/

namespace CStrider.Gen

/-! ## Answers -/

/-- The name of the new version. `append_deref` puts the `_OUT` before the last `_PTR`. -/
def Macro.new : Macro → Macro
  | .ptr s => s.out.ptr
  | m => m.out

/-- What the generator does with `macrotypes` at a time. -/
inductive Request where
  /-- `render_type` under `AddMacro`, for both versions of an element -/
  | elem (e0 e1 : Elem)
  /-- `append_deref` -/
  | deref (s : Macro) (rendered : s.Rendered) (d : Nat)
  /-- the two calls for `maintype` and `maintype_out` -/
  | versions (base : Macro) (rendered : base.Rendered) (i : Nat)
  /-- the end of `has_generics'` -/
  | inst (base : Macro) (rendered : base.Rendered) (main : Macro) (args : List Macro) (i : Nat)

section Answers

variable {N : Type} [DecidableEq N] (nm : Macro → N)

/-- The two rows of a pointer or an instance. -/
def enterNew (m : Macro) (l : List N) : List N :=
  if nm m ∈ l then l else l ++ [nm m, nm m.new]

/-- `append_deref`. -/
def enterDeref (s : Macro) : Nat → List N → List N
  | 0, l => l
  | d + 1, l => if s.hasArrow then l else enterDeref s.ptr d (enterNew nm s.ptr l)

def Request.enter (q : Request) (l : List N) : List N :=
  match q with
  | .elem e0 e1 => l ++ [nm e0.typeMacro, nm e1.typeMacro.out]
  | .deref s _ d => enterDeref nm s d l
  | .versions base _ i => enterDeref nm base.out i (enterDeref nm base i l)
  | .inst base _ main args i =>
    let genren := Macro.ofArgs main args
    let target := Macro.ofArgs (base.ptrs (i - 1)) args
    if nm genren ∈ l then l
    else
      let l := l ++ [nm genren, nm genren.new]
      if i = 0 ∨ nm target ∈ l then l
      else enterDeref nm base (i - 1) l ++ [nm target, nm target.new]

/-- A list of requests, one after another. -/
def enterAll (rs : List Request) (l : List N) : List N := rs.foldl (fun l q => q.enter nm l) l

theorem enterAll_append (rs rs' : List Request) (l : List N) :
    enterAll nm (rs ++ rs') l = enterAll nm rs' (enterAll nm rs l) := List.foldl_append

end Answers

/-! ## Programs -/

/-- The enumerators of `enum TYPES`. -/
def GenCtx.names (g : GenCtx) : List String := g.macrotypes.map Macro.text

/-- `m` returns `a` and turns the list of names by `f`, whatever the tables are. -/
def Enters {α : Type} (m : GenM α) (a : α) (f : List String → List String) : Prop :=
  ∀ g, ∃ g', m g = .ok (a, g') ∧ g'.names = f g.names

/-- `m` fails, or it returns and makes its requests, as `r` says, whatever the tables are. -/
def Requesting {α : Type} (m : GenM α) (r : Except String (α × List Request)) : Prop :=
  ∀ g, (m g).map (fun p => (p.1, p.2.names)) =
    r.map fun p => (p.1, enterAll Macro.text p.2 g.names)

/-- `m` makes requests that do not depend on the tables, and returns nothing but `Q`. -/
def Asks {α : Type} (Q : α → Prop) (m : GenM α) : Prop :=
  ∃ r, Requesting m r ∧ ∀ a rs, r = .ok (a, rs) → Q a

section Rules

variable {α β : Type} {Q : α → Prop} {R : β → Prop}

theorem Enters.pure (a : α) : Enters (pure a) a id := fun g => ⟨g, rfl, rfl⟩

theorem Enters.bind {m : GenM α} {k : α → GenM β} {a : α} {b : β} {f f' : List String → List String}
    (hm : Enters m a f) (hk : Enters (k a) b f') : Enters (m >>= k) b (f' ∘ f) := by
  intro g
  obtain ⟨g', hg, hl⟩ := hm g
  obtain ⟨g'', hg', hl'⟩ := hk g'
  exact ⟨g'', (bind_of_ok hg).trans hg', by rw [hl', hl, Function.comp]⟩

theorem Enters.congr {m : GenM α} {a : α} {f f' : List String → List String} (h : Enters m a f)
    (hf : ∀ l, f l = f' l) : Enters m a f' := funext hf ▸ h

theorem Enters.extend (x : Extension) :
    Enters (extend x) () fun l => l ++ ((x.names.map fun p => [p.1.text, p.2.text]).getD []) := by
  intro g
  refine ⟨x.apply g, rfl, ?_⟩
  rw [GenCtx.names, macrotypes_apply, List.map_append]
  cases x.names <;> rfl

theorem Enters.unlessListed (n : Macro) {m : GenM Unit} {f : List String → List String}
    (hm : Enters m () f) : Enters (unlessListed n m) () fun l => if n.text ∈ l then l else f l := by
  intro g
  change ∃ g', (if n.text ∈ g.names then (Pure.pure () : GenM Unit) else m) g = _ ∧ _
  by_cases h : n.text ∈ g.names
  · rw [if_pos h]
    exact ⟨g, rfl, (if_pos h).symm⟩
  · rw [if_neg h]
    simpa only [if_neg h] using hm g

theorem requesting_ok {m : GenM α} {a : α} {rs : List Request} :
    Requesting m (.ok (a, rs)) ↔ Enters m a (enterAll Macro.text rs) := by
  constructor
  · intro h g
    have hg := h g
    cases hm : m g with
    | error e =>
      rw [hm] at hg
      cases hg
    | ok p =>
      rw [hm] at hg
      simp only [Except.map, Except.ok.injEq, Prod.mk.injEq] at hg
      exact ⟨p.2, by rw [← hg.1], hg.2⟩
  · intro h g
    obtain ⟨g', hm, hl⟩ := h g
    rw [hm]
    simp only [Except.map, hl]

theorem requesting_error {m : GenM α} {e : String} :
    Requesting m (.error e) ↔ ∀ g, m g = .error e := by
  constructor
  · intro h g
    have hg := h g
    cases hm : m g with
    | error e' =>
      rw [hm] at hg
      simpa [Except.map] using hg
    | ok p =>
      rw [hm] at hg
      cases hg
  · intro h g
    rw [h g]
    rfl

theorem Requesting.bind {m : GenM α} {k : α → GenM β} {a : α} {rs : List Request} {b : β}
    {rs' : List Request} (hm : Requesting m (.ok (a, rs))) (hk : Requesting (k a) (.ok (b, rs'))) :
    Requesting (m >>= k) (.ok (b, rs ++ rs')) := by
  have h := (requesting_ok.mp hm).bind (requesting_ok.mp hk)
  rwa [requesting_ok, show enterAll Macro.text (rs ++ rs') =
    enterAll Macro.text rs' ∘ enterAll Macro.text rs from funext (enterAll_append Macro.text rs rs')]

theorem Enters.asks {m : GenM α} {a : α} (rs : List Request) (h : Enters m a (enterAll Macro.text rs))
    (hQ : Q a) : Asks Q m := by
  refine ⟨_, requesting_ok.mpr h, ?_⟩
  rintro a' rs' ⟨⟩
  exact hQ

theorem Asks.pure {a : α} (h : Q a) : Asks Q (pure a) := Enters.asks [] (.pure a) h

theorem Asks.throw (e : String) : Asks Q (throw e : GenM α) :=
  ⟨.error e, fun _ => rfl, by rintro a rs ⟨⟩⟩

theorem Asks.bind {m : GenM α} {k : α → GenM β} (hm : Asks Q m) (hk : ∀ a, Q a → Asks R (k a)) :
    Asks R (m >>= k) := by
  obtain ⟨r, hm, hQ⟩ := hm
  cases r with
  | error e =>
    refine ⟨.error e, requesting_error.mpr fun g => ?_, by rintro a rs ⟨⟩⟩
    change (m g >>= fun p => k p.1 p.2) = _
    rw [requesting_error.mp hm g]
    rfl
  | ok p =>
    obtain ⟨a, rs⟩ := p
    obtain ⟨r, hk, hR⟩ := hk a (hQ a rs rfl)
    cases r with
    | error e =>
      refine ⟨.error e, requesting_error.mpr fun g => ?_, by rintro a rs ⟨⟩⟩
      obtain ⟨g', hg, -⟩ := requesting_ok.mp hm g
      exact (bind_of_ok hg).trans (requesting_error.mp hk g')
    | ok p => exact ⟨_, hm.bind hk, by rintro b rs ⟨⟩; exact hR p.1 p.2 rfl⟩

end Rules

/-! ### Requests -/

theorem asks_setXform (t0 t1 : KtTyp) (f : Func) :
    Asks (fun _ => True) (extend (.setXform t0 t1 f)) :=
  Enters.asks [] (fun _ => ⟨_, rfl, rfl⟩) trivial

theorem asks_elem (e0 e1 : Elem) (f : Func) : Asks (fun _ => True) (extend (.elem e0 e1 f)) :=
  Enters.asks [.elem e0 e1] (.extend _) trivial

/-- `append_deref` returns a name that does not depend on the tables either. -/
theorem appendDeref_enters (s : Macro) (d : Nat) :
    ∃ m, (s.Rendered → m.Rendered) ∧ (s.hasArrow = false → m = s.ptrs d) ∧
      Enters (appendDeref s d) m (enterDeref Macro.text s d) := by
  induction d generalizing s with
  | zero => exact ⟨s, fun h => h, fun _ => rfl, .pure s⟩
  | succ d ih =>
    cases ha : s.hasArrow with
    | true =>
      have stays : enterDeref Macro.text s (d + 1) = id := by
        funext l
        rw [enterDeref, if_pos ha, id]
      refine ⟨s, fun h => h, (nomatch ·), ?_⟩
      rw [stays, appendDeref, if_pos ha]
      exact .pure s
    | false =>
      obtain ⟨m, hm, heq, h⟩ := ih s.ptr
      have step : enterDeref Macro.text s (d + 1) =
          enterDeref Macro.text s.ptr d ∘ enterNew Macro.text s.ptr := by
        funext l
        rw [enterDeref, if_neg (by simp [ha]), Function.comp]
      refine ⟨m, hm, fun _ => heq (by rw [Macro.hasArrow, ha]), ?_⟩
      rw [step, appendDeref, if_neg (by simp [ha])]
      exact .bind (.unlessListed _ (.extend (.ptr s))) h

theorem asks_appendDeref {s : Macro} (h : s.Rendered) (d : Nat) :
    Asks Macro.Rendered (appendDeref s d) := by
  obtain ⟨m, hm, -, hs⟩ := appendDeref_enters s d
  exact Enters.asks [.deref s h d] hs (hm h)

theorem asks_mainTypes (p : PathElem) (i : Nat) :
    Asks (fun r => r = (p.typeMacro.ptrs i, p.typeMacro.out.ptrs i))
      (mainTypes p.typeMacro i) := by
  obtain ⟨m, -, hm, hms⟩ := appendDeref_enters p.typeMacro i
  obtain ⟨n, -, hn, hns⟩ := appendDeref_enters p.typeMacro.out i
  have both : Enters (mainTypes p.typeMacro i) (m, n)
      (enterDeref Macro.text p.typeMacro.out i ∘ enterDeref Macro.text p.typeMacro i) :=
    .bind hms (.congr (.bind hns (.pure (m, n))) fun _ => rfl)
  exact Enters.asks [.versions p.typeMacro p.rendered_typeMacro i] both
    (by rw [hm p.hasArrow_typeMacro, hn p.hasArrow_typeMacro])

/-- The end of `has_generics'` is one request. -/
theorem makeInstance_enters (p0 p1 : PathElem) {base : Macro} (h : base.Rendered)
    (main mainOut : Macro) (args : List Macro) (i : Nat) :
    Enters (makeInstance p0 p1 base main mainOut args i) (.genOk (.ofArgs main args))
      (Request.enter Macro.text (.inst base h main args i)) := by
  obtain ⟨m, -, -, hm⟩ := appendDeref_enters base (i - 1)
  cases i with
  | zero =>
    refine .congr (.bind (.unlessListed _ (.bind (.extend _) (.pure ()))) (.pure _)) fun l => ?_
    simp [Request.enter, Extension.names, Instance.name, Macro.new]
  | succ k =>
    refine .congr (.bind (.unlessListed _ (.bind (.extend _)
      (.unlessListed _ (.bind hm (.extend _))))) (.pure _)) fun l => ?_
    simp [Request.enter, Extension.names, Instance.name, Macro.new]

theorem asks_makeInstance (p0 p1 : PathElem) (args : List Macro) (i : Nat) :
    Asks GenericType.Rendered (makeInstance p0 p1 p0.typeMacro (p0.typeMacro.ptrs i)
      (p0.typeMacro.out.ptrs i) args i) :=
  Enters.asks [.inst p0.typeMacro p0.rendered_typeMacro (p0.typeMacro.ptrs i) args i]
    (makeInstance_enters p0 p1 p0.rendered_typeMacro _ _ _ i) trivial

theorem asks_rules {env : Env} : Rules env @Asks where
  pure := .pure
  throw := .throw
  bind := .bind
  setXform t0 t1 h := .bind h fun f _ => asks_setXform t0 t1 f
  appendDeref := asks_appendDeref
  mainTypes := asks_mainTypes
  makeInstance := asks_makeInstance

/-- What a program makes the generator ask depends on the program alone. -/
theorem asks_generate (env : Env) (ms : List Matched) : Asks (fun _ => True) (generate env ms) :=
  walk_generate asks_rules fun e0 e1 info _ =>
    walk_type asks_rules e0 e1 info (asks_elem e0 e1)

end CStrider.Gen
