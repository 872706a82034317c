import Mathlib.Data.List.Basic

/-!
# Runs of a computation with a state that can fail

`Runs m s a s'`: computation `m` takes state `s` to `s'` and gives `a`. One rule for each construct
takes a run apart into runs of its parts; runs that end in an error have nothing to say.
-/

namespace CStrider

variable {σ τ ε α β : Type}

def Runs (m : StateT σ (Except ε) α) (s : σ) (a : α) (s' : σ) : Prop := m s = .ok (a, s')

section

variable {s s' : σ} {a b : α}

@[simp] theorem runs_pure : Runs (pure a : StateT σ (Except ε) α) s b s' ↔ a = b ∧ s = s' := by
  constructor
  · intro h
    cases h
    exact ⟨rfl, rfl⟩
  · rintro ⟨rfl, rfl⟩
    rfl

@[simp] theorem runs_bind {m : StateT σ (Except ε) α} {f : α → StateT σ (Except ε) β} {b : β} :
    Runs (m >>= f) s b s' ↔ ∃ a s₁, Runs m s a s₁ ∧ Runs (f a) s₁ b s' := by
  change (m s >>= fun p => f p.1 p.2) = _ ↔ _
  unfold Runs
  cases m s with
  | error e => simp [bind, Except.bind]
  | ok p => simp [bind, Except.bind, Prod.ext_iff]

@[simp] theorem runs_get {b : σ} : Runs (get : StateT σ (Except ε) σ) s b s' ↔ s = b ∧ s = s' := by
  change Runs (pure s) s b s' ↔ _
  exact runs_pure

@[simp] theorem runs_modify {f : σ → σ} {u : Unit} :
    Runs (modify f : StateT σ (Except ε) Unit) s u s' ↔ f s = s' := by
  constructor
  · intro h
    cases h
    rfl
  · rintro rfl
    rfl

@[simp] theorem runs_throw {e : ε} :
    Runs (throw e : StateT σ (Except ε) α) s b s' ↔ False :=
  ⟨nofun, False.elim⟩

@[simp] theorem runs_lift {m : Except ε α} :
    Runs (liftM m : StateT σ (Except ε) α) s b s' ↔ m = .ok b ∧ s = s' := by
  cases m with
  | error e => exact ⟨nofun, nofun⟩
  | ok a =>
    rw [Except.ok.injEq]
    exact runs_pure

end

/-! ## A second state -/

section

variable {x x' : τ} {s s' : σ} {a b : α}

@[simp] theorem runs_run_pure :
    Runs ((pure a : StateT τ (StateT σ (Except ε)) α).run x) s (b, x') s' ↔
      a = b ∧ x = x' ∧ s = s' := by
  rw [StateT.run_pure, runs_pure, Prod.mk.injEq, and_assoc]

@[simp] theorem runs_run_bind {m : StateT τ (StateT σ (Except ε)) α}
    {f : α → StateT τ (StateT σ (Except ε)) β} {b : β} :
    Runs ((m >>= f).run x) s (b, x') s' ↔
      ∃ a x₁ s₁, Runs (m.run x) s (a, x₁) s₁ ∧ Runs ((f a).run x₁) s₁ (b, x') s' := by
  rw [StateT.run_bind, runs_bind]
  exact ⟨fun ⟨⟨a, x₁⟩, s₁, h⟩ => ⟨a, x₁, s₁, h⟩, fun ⟨a, x₁, s₁, h⟩ => ⟨(a, x₁), s₁, h⟩⟩

@[simp] theorem runs_run_get {y : τ} :
    Runs ((get : StateT τ (StateT σ (Except ε)) τ).run x) s (y, x') s' ↔
      x = y ∧ x = x' ∧ s = s' := by
  change Runs ((pure x : StateT τ (StateT σ (Except ε)) τ).run x) s (y, x') s' ↔ _
  exact runs_run_pure

@[simp] theorem runs_run_modify {f : τ → τ} {u : Unit} :
    Runs ((modify f : StateT τ (StateT σ (Except ε)) Unit).run x) s (u, x') s' ↔
      f x = x' ∧ s = s' := by
  rw [StateT.run_modify, runs_pure, Prod.mk.injEq]
  exact ⟨fun h => ⟨h.1.2, h.2⟩, fun h => ⟨⟨rfl, h.1⟩, h.2⟩⟩

@[simp] theorem runs_run_lift {m : StateT σ (Except ε) α} :
    Runs ((liftM m : StateT τ (StateT σ (Except ε)) α).run x) s (b, x') s' ↔
      Runs m s b s' ∧ x = x' := by
  change Runs (m >>= fun a => pure (a, x)) s (b, x') s' ↔ _
  simp only [runs_bind, runs_pure, Prod.mk.injEq]
  constructor
  · rintro ⟨a, s₁, hm, ⟨rfl, rfl⟩, rfl⟩
    exact ⟨hm, rfl⟩
  · rintro ⟨hm, rfl⟩
    exact ⟨b, s', hm, ⟨rfl, rfl⟩, rfl⟩

end

/-! ## Loops -/

/-- What holds when a loop begins and is kept by each round holds when it ends. `I` is about the
elements that are done. -/
theorem Runs.foldlM {f : β → α → StateT τ (StateT σ (Except ε)) β} {I : List α → β → τ → σ → Prop}
    {l : List α} {b b' : β} {x x' : τ} {s s' : σ}
    (step : ∀ pre a b x s b' x' s', I pre b x s → Runs ((f b a).run x) s (b', x') s' →
      I (pre ++ [a]) b' x' s')
    (h : I [] b x s) (hr : Runs ((l.foldlM f b).run x) s (b', x') s') : I l b' x' s' := by
  suffices rounds : ∀ pre l b x s, I pre b x s → Runs ((l.foldlM f b).run x) s (b', x') s' →
      I (pre ++ l) b' x' s' from rounds [] l b x s h hr
  intro pre l b x s h hr
  induction l generalizing pre b x s with
  | nil =>
    rw [List.foldlM_nil, runs_run_pure] at hr
    obtain ⟨rfl, rfl, rfl⟩ := hr
    rw [List.append_nil]
    exact h
  | cons a l ih =>
    rw [List.foldlM_cons, runs_run_bind] at hr
    obtain ⟨b₁, x₁, s₁, h₁, hr⟩ := hr
    have := ih (pre ++ [a]) b₁ x₁ s₁ (step pre a b x s b₁ x₁ s₁ h h₁) hr
    rwa [List.append_assoc] at this

/-- The same of `List.mapM`. `I` is about the elements that are done and their results. -/
theorem Runs.mapM {f : α → StateT σ (Except ε) β} {I : List α → List β → σ → Prop} {l : List α}
    {bs : List β} {s s' : σ}
    (step : ∀ pre a bs s b s', I pre bs s → Runs (f a) s b s' → I (pre ++ [a]) (bs ++ [b]) s')
    (h : I [] [] s) (hr : Runs (l.mapM f) s bs s') : I l bs s' := by
  suffices rounds : ∀ pre l bs bs' s s', I pre bs s → Runs (l.mapM f) s bs' s' →
      I (pre ++ l) (bs ++ bs') s' from rounds [] l [] bs s s' h hr
  intro pre l bs bs' s s' h hr
  induction l generalizing pre bs bs' s s' with
  | nil =>
    rw [List.mapM_nil, runs_pure] at hr
    obtain ⟨rfl, rfl⟩ := hr
    rw [List.append_nil, List.append_nil]
    exact h
  | cons a l ih =>
    simp only [List.mapM_cons, runs_bind, runs_pure] at hr
    obtain ⟨b, s₁, h₁, bs₁, s₂, hr, rfl, rfl⟩ := hr
    have := ih (pre ++ [a]) (bs ++ [b]) bs₁ s₁ s₂ (step pre a bs s b s₁ h h₁) hr
    rwa [List.append_assoc, List.append_assoc] at this

section

variable {f : α → Except ε β} {l : List α}

/-- Without a second state: a loop whose rounds all have a result. -/
theorem mapM_ok {g : α → β} (h : ∀ a ∈ l, f a = .ok (g a)) : l.mapM f = .ok (l.map g) := by
  induction l with
  | nil => rfl
  | cons a l ih =>
    rw [List.forall_mem_cons] at h
    rw [List.mapM_cons, h.1, ih h.2]
    rfl

theorem exists_ok_of_mapM {bs : List β} (h : l.mapM f = .ok bs) : ∀ a ∈ l, ∃ b, f a = .ok b := by
  induction l generalizing bs with
  | nil => exact fun _ ha => absurd ha List.not_mem_nil
  | cons a l ih =>
    rw [List.mapM_cons] at h
    cases hb : f a with
    | error e =>
      rw [hb] at h
      cases h
    | ok b =>
      cases hbs : l.mapM f with
      | error e =>
        rw [hb, hbs] at h
        cases h
      | ok bs => exact List.forall_mem_cons.mpr ⟨⟨b, hb⟩, ih hbs⟩

end

end CStrider
