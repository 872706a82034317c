import CStrider.Mapping.Model

/-!
# Each pointer value is transformed once

The bucket lock of a value is held from the search in the table until the new entry is there, so
that of all threads that meet the value one calls `perfaction_ptr` and the others find its entry.
This rests on the slot still holding the locked value when it is read again: `Separate` says that
no visit writes a slot that another visit reads.
-/

namespace CStrider.Mapping

/-- The calls of `perfaction_ptr` for the value `p`, with the pair and the value stored. -/
def ptrCalls (log : List Event) (p : Ptr) : List (Ptr × Ptr × Ptr) :=
  log.filterMap fun
    | .ptr a x q v => if q = p then some (a, x, v) else none
    | .mapped .. => none

/-- At most one call of `perfaction_ptr` for the value `p`; every other processed slot that held
`p` took the mapped branch, and all of them carry what that one call stored. -/
def TransformedOnce (s : State) (p : Ptr) : Prop :=
  (ptrCalls s.log p).length ≤ 1 ∧
    ∀ e ∈ s.log, e.value = p → ∃ b y v, ptrCalls s.log p = [(b, y, v)] ∧ s.mem e.out = v ∧
      (e = .ptr b y p v ∨ ∃ a x u, e = .mapped a x p u)

/-- Different in-slots have different out-slots. -/
def Slots.Paired (S : Slots) : Prop :=
  ∀ {a b x}, (a, x) ∈ S.pairs → (b, x) ∈ S.pairs → a = b

/-- No visit writes a slot that another one reads: an out-slot that is also an in-slot is visited
in place, and a value that is visited in place somewhere is visited in place everywhere. The
callbacks write no slot but their own out-slot. -/
structure Slots.Separate (S : Slots) (m : Ptr → Ptr) : Prop where
  paired : S.Paired
  inPlace : ∀ {a b x y}, (a, x) ∈ S.pairs → (b, y) ∈ S.pairs → x = b → x = a
  uniform : ∀ {a b y}, (a, a) ∈ S.pairs → (b, y) ∈ S.pairs → m a ≠ 0 → m b = m a → y = b
  confined : S.confined = true

section Invariant

variable (S : Slots) (m : Ptr → Ptr)

/-- The value whose bucket a thread has locked; nothing is locked for NULL. -/
def lockedKey : Phase → Option Ptr
  | .find _ _ e | .mapped _ _ e _ _ | .store _ _ e _ _ | .call _ _ e | .addArgs _ _ e
  | .addFind e _ _ | .addInsert e _ _ | .unlock e => some e
  | _ => none

/-- The bucket whose lock a thread holds. -/
def held (ph : Phase) : Option Nat :=
  (lockedKey ph).bind fun e => if e = 0 then none else some (S.bucket e)

/-- The thread has called `perfaction_ptr` for `p` and not yet entered the result. -/
def publishing (p : Ptr) : Phase → Prop
  | .addArgs _ _ e | .addFind e _ _ | .addInsert e _ _ => e = p
  | _ => False

/-- What a thread has learnt about the value it works on stays true while it holds the lock. -/
def Located (s : State) : Phase → Prop
  | .idle => True
  | .entered a x => (a, x) ∈ S.pairs
  | .lock a x e | .find a x e => (a, x) ∈ S.pairs ∧ e = m a
  | .mapped a x e p v | .store a x e p v => (a, x) ∈ S.pairs ∧ e = m a ∧ p = e ∧ e ≠ 0 ∧ v ≠ 0 ∧
      findMapping S.bucket s.table e = v
  | .call a x e => (a, x) ∈ S.pairs ∧ e = m a ∧
      (e ≠ 0 → findMapping S.bucket s.table e = 0 ∧ ptrCalls s.log e = [])
  | .addArgs a x e => (a, x) ∈ S.pairs ∧ e = m a ∧
      (e ≠ 0 → findMapping S.bucket s.table e = 0 ∧ ptrCalls s.log e = [(a, x, s.mem x)])
  | .addFind e k v => k = e ∧
      (e ≠ 0 → findMapping S.bucket s.table e = 0 ∧ ∃ a x, ptrCalls s.log e = [(a, x, v)])
  | .addInsert e k v => k = e ∧ e ≠ 0 ∧ findMapping S.bucket s.table e = 0 ∧
      ∃ a x, ptrCalls s.log e = [(a, x, v)]
  | .unlock _ => True

/-- The state of a value `p`: never met, transformed once and entered in the table, or
transformed by a thread that is about to enter it. -/
def KeyState (s : State) (p : Ptr) : Prop :=
  (ptrCalls s.log p = [] ∧ findMapping S.bucket s.table p = 0) ∨
    ∃ b y v, ptrCalls s.log p = [(b, y, v)] ∧ (b, y) ∈ S.pairs ∧ m b = p ∧ v ≠ 0 ∧ s.mem y = v ∧
      (findMapping S.bucket s.table p = v ∨ ∃ i, publishing p (s.phase i))

structure Inv (s : State) : Prop where
  owned : ∀ b i, s.owner b = some i ↔ held S (s.phase i) = some b
  slots : ∀ e ∈ S.pairs, s.mem e.1 = m e.1
  seed : findMapping S.bucket s.table seed = seed
  located : ∀ i, Located S m s (s.phase i)
  key : ∀ p, p ≠ 0 → p ≠ Mapping.seed → KeyState S m s p
  event : ∀ e ∈ s.log, e.value ≠ 0 → e.value ≠ Mapping.seed →
    (e.slot, e.out) ∈ S.pairs ∧ m e.slot = e.value ∧
      ∃ b y, ptrCalls s.log e.value = [(b, y, s.mem e.out)]

end Invariant

section Preservation

variable {S : Slots} {m : Ptr → Ptr} {s s' : State} {i : Nat} {ph : Phase}

theorem lockedKey_of_publishing {p : Ptr} (h : publishing p ph) : lockedKey ph = some p := by
  cases ph <;> simp_all [publishing, lockedKey]

/-- Two threads never hold the lock for the same value. -/
theorem Inv.exclusive (h : Inv S m s) {i j : Nat} {e : Ptr} (he : e ≠ 0)
    (hi : lockedKey (s.phase i) = some e) (hj : lockedKey (s.phase j) = some e) : i = j := by
  have owns : ∀ {k}, lockedKey (s.phase k) = some e → s.owner (S.bucket e) = some k :=
    fun hk => (h.owned _ _).mpr (by simp [held, hk, he])
  exact Option.some.inj ((owns hi).symm.trans (owns hj))

/-- What a value owes to the shared state: its entry in the table and its calls. -/
def SameKey (S : Slots) (s s' : State) (q : Ptr) : Prop :=
  findMapping S.bucket s'.table q = findMapping S.bucket s.table q ∧
    ptrCalls s'.log q = ptrCalls s.log q

theorem Located.frame (h : Located S m s ph)
    (hk : ∀ {e}, lockedKey ph = some e → e ≠ 0 → SameKey S s s' e)
    (hm : ∀ {a x e}, ph = .addArgs a x e → e ≠ 0 → s'.mem x = s.mem x) : Located S m s' ph := by
  cases ph with
  | idle | entered | lock | find | unlock => exact h
  | mapped | store =>
    obtain ⟨h1, h2, h3, h0, h4, h5⟩ := h
    exact ⟨h1, h2, h3, h0, h4, by rw [(hk rfl h0).1, h5]⟩
  | call =>
    obtain ⟨h1, h2, h3⟩ := h
    exact ⟨h1, h2, fun h0 => by rw [(hk rfl h0).1, (hk rfl h0).2]; exact h3 h0⟩
  | addArgs =>
    obtain ⟨h1, h2, h3⟩ := h
    exact ⟨h1, h2, fun h0 => by rw [(hk rfl h0).1, (hk rfl h0).2, hm rfl h0]; exact h3 h0⟩
  | addFind =>
    obtain ⟨h1, h2⟩ := h
    exact ⟨h1, fun h0 => by rw [(hk rfl h0).1, (hk rfl h0).2]; exact h2 h0⟩
  | addInsert =>
    obtain ⟨h1, h0, h2⟩ := h
    exact ⟨h1, h0, by rw [(hk rfl h0).1, (hk rfl h0).2]; exact h2⟩

/-- A step of thread `i` touches at most the value that it has locked. What is left to show of it
is what it does to that value, to the locks, and where it leaves the thread. -/
theorem Inv.of_frame (h : Inv S m s) (hphase : s'.phase = Function.update s.phase i ph)
    (hkey : ∀ q, q ≠ 0 → lockedKey (s.phase i) ≠ some q → SameKey S s s' q)
    (hin : ∀ e ∈ S.pairs, s'.mem e.1 = s.mem e.1)
    (hout : ∀ b y, (b, y) ∈ S.pairs → m b ≠ 0 → lockedKey (s.phase i) ≠ some (m b) →
      s'.mem y = s.mem y)
    (hlog : ∀ e ∈ s'.log, e ∈ s.log ∨ lockedKey (s.phase i) = some e.value)
    (owned : ∀ b j, s'.owner b = some j ↔ held S (s'.phase j) = some b)
    (seed : findMapping S.bucket s'.table Mapping.seed = Mapping.seed)
    (located : Located S m s' ph)
    (key : ∀ q, q ≠ 0 → q ≠ Mapping.seed → lockedKey (s.phase i) = some q → KeyState S m s' q)
    (event : ∀ e ∈ s'.log, e.value ≠ 0 → e.value ≠ Mapping.seed →
      lockedKey (s.phase i) = some e.value → (e.slot, e.out) ∈ S.pairs ∧ m e.slot = e.value ∧
        ∃ b y, ptrCalls s'.log e.value = [(b, y, s'.mem e.out)]) : Inv S m s' where
  owned := owned
  slots e he := (hin e he).trans (h.slots e he)
  seed := seed
  located j := by
    rw [hphase]
    by_cases hj : j = i
    · rw [hj, Function.update_self]
      exact located
    · rw [Function.update_of_ne hj]
      have free : ∀ {e}, lockedKey (s.phase j) = some e → e ≠ 0 →
          lockedKey (s.phase i) ≠ some e := fun hje h0 hie => hj (h.exclusive h0 hje hie)
      refine (h.located j).frame (fun hje h0 => hkey _ h0 (free hje h0)) fun {a x e} hje h0 => ?_
      have hl := h.located j
      rw [hje] at hl
      obtain ⟨hax, rfl, -⟩ := hl
      exact hout a x hax h0 (free (by rw [hje]; rfl) h0)
  key q h0 hs := by
    by_cases hq : lockedKey (s.phase i) = some q
    · exact key q h0 hs hq
    · obtain ⟨hfind, hcalls⟩ := hkey q h0 hq
      rcases h.key q h0 hs with ⟨hc, hf⟩ | ⟨b, y, v, hc, hby, hb, hv, hy, hf⟩
      · exact .inl ⟨hcalls.trans hc, hfind.trans hf⟩
      · refine .inr ⟨b, y, v, hcalls.trans hc, hby, hb, hv,
          (hout b y hby (hb ▸ h0) (hb ▸ hq)).trans hy, hf.imp hfind.trans fun ⟨j, hj⟩ => ⟨j, ?_⟩⟩
        rw [hphase, Function.update_of_ne]
        · exact hj
        · rintro rfl
          exact hq (lockedKey_of_publishing hj)
  event e he h0 hs := by
    by_cases hq : lockedKey (s.phase i) = some e.value
    · exact event e he h0 hs hq
    · obtain ⟨hax, ha, b, y, hc⟩ := h.event e ((hlog e he).resolve_right hq) h0 hs
      refine ⟨hax, ha, b, y, ?_⟩
      rw [(hkey _ h0 hq).2, hc, hout _ _ hax (ha ▸ h0) (ha ▸ hq)]

theorem Inv.owned_same (h : Inv S m s) (i : Nat) (ph : Phase)
    (hheld : held S ph = held S (s.phase i)) (b j : Nat) :
    s.owner b = some j ↔ held S (Function.update s.phase i ph j) = some b := by
  rw [h.owned]
  by_cases hj : j = i
  · rw [hj, Function.update_self, hheld]
  · rw [Function.update_of_ne hj]

/-- A step that leaves the slots, the table and the log as they are. -/
theorem Inv.of_quiet (h : Inv S m s) (hphase : s'.phase = Function.update s.phase i ph)
    (htable : s'.table = s.table) (hlog : s'.log = s.log)
    (hmem : ∀ e ∈ S.pairs, s'.mem e.1 = s.mem e.1 ∧ s'.mem e.2 = s.mem e.2)
    (owned : ∀ b j, s'.owner b = some j ↔ held S (s'.phase j) = some b)
    (hpub : ∀ q, q ≠ 0 → publishing q (s.phase i) → publishing q ph)
    (located : Located S m s' ph) : Inv S m s' := by
  refine h.of_frame hphase (fun q _ _ => by rw [SameKey, htable, hlog]; exact ⟨rfl, rfl⟩)
    (fun e he => (hmem e he).1) (fun b y hby _ _ => (hmem _ hby).2)
    (fun e he => .inl (hlog ▸ he)) owned (by rw [htable]; exact h.seed) located
    (fun q h0 hs _ => ?_) (fun e he h0 hs _ => ?_)
  · rw [KeyState, htable, hlog]
    refine (h.key q h0 hs).imp id fun ⟨b, y, v, hc, hby, hb, hv, hy, hf⟩ =>
      ⟨b, y, v, hc, hby, hb, hv, (hmem _ hby).2.trans hy, hf.imp id fun ⟨j, hj⟩ => ⟨j, ?_⟩⟩
    rw [hphase]
    by_cases hji : j = i
    · subst hji
      rw [Function.update_self]
      exact hpub q h0 hj
    · rwa [Function.update_of_ne hji]
  · obtain ⟨hax, ha, b, y, hc⟩ := h.event e (hlog ▸ he) h0 hs
    exact ⟨hax, ha, b, y, by rw [hlog, hc, (hmem _ hax).2]⟩

/-- `transform_map_wrlock` of the value that was read. -/
theorem Inv.lock_step {a x e : Ptr} {t : State} (h : Inv S m s) (hp : s.phase i = .lock a x e)
    (ht : wrlock S s i e = some t) : Inv S m (t.goto i (.find a x e)) := by
  have hl := h.located i
  rw [hp] at hl
  have same : t.mem = s.mem ∧ t.table = s.table ∧ t.log = s.log ∧ t.phase = s.phase := by
    unfold wrlock at ht
    split at ht
    · cases ht
      exact ⟨rfl, rfl, rfl, rfl⟩
    · split at ht <;> cases ht
      exact ⟨rfl, rfl, rfl, rfl⟩
  obtain ⟨hmem, htable, hlog, hphase⟩ := same
  refine h.of_quiet (i := i) (congrArg (Function.update · i _) hphase) htable hlog
    (fun _ _ => by simp only [State.goto, hmem, and_self]) (fun b j => ?_) (by simp [hp, publishing])
    hl
  unfold wrlock at ht
  split at ht
  · next h0 =>
    cases ht
    exact h.owned_same i _ (by simp [held, lockedKey, hp, h0]) b j
  · next h0 =>
    split at ht <;> cases ht
    next hfree =>
    simp only [State.goto]
    by_cases hj : j = i
    · subst hj
      have none_held : ∀ b, s.owner b ≠ some j := fun b hb => by
        simpa [hp, held, lockedKey] using (h.owned b j).mp hb
      by_cases hb : b = S.bucket e
      · simp [hb, held, lockedKey, h0]
      · simp [hb, held, lockedKey, h0, none_held b, Ne.symm hb]
    · rw [Function.update_of_ne hj, ← h.owned]
      by_cases hb : b = S.bucket e
      · simp [hb, hfree, Ne.symm hj]
      · rw [Function.update_of_ne hb]

/-- `transform_map_unlock` at the end of the visit. -/
theorem Inv.unlock_step {e : Ptr} (h : Inv S m s) (hp : s.phase i = .unlock e) :
    Inv S m ((unlock S s e).goto i .idle) := by
  unfold unlock
  split
  · next h0 =>
    exact h.of_quiet (i := i) rfl rfl rfl (fun _ _ => ⟨rfl, rfl⟩)
      (h.owned_same i _ (by simp [held, lockedKey, hp, h0])) (by simp [hp, publishing]) trivial
  · next h0 =>
    refine h.of_quiet (i := i) rfl rfl rfl (fun _ _ => ⟨rfl, rfl⟩) (fun b j => ?_)
      (by simp [hp, publishing]) trivial
    have own : held S (s.phase i) = some (S.bucket e) := by simp [hp, held, lockedKey, h0]
    have owner : s.owner (S.bucket e) = some i := (h.owned _ i).mpr own
    simp only [State.goto]
    by_cases hj : j = i
    · subst hj
      have only : b ≠ S.bucket e → s.owner b ≠ some j := fun hb hbj => by
        rw [h.owned, own] at hbj
        exact hb (Option.some.inj hbj).symm
      by_cases hb : b = S.bucket e
      · simp [hb, held, lockedKey]
      · simp [hb, held, lockedKey, only hb]
    · rw [Function.update_of_ne hj, ← h.owned]
      by_cases hb : b = S.bucket e
      · simp [hb, owner, Ne.symm hj]
      · rw [Function.update_of_ne hb]

/-- `find_mapping(*(void**)in)` under the lock: the slot still holds the locked value. -/
theorem Inv.find_step {a x e : Ptr} (h : Inv S m s) (hp : s.phase i = .find a x e) :
    Inv S m (s.goto i (if findMapping S.bucket s.table (s.mem a) ≠ 0 then
      .mapped a x e (s.mem a) (findMapping S.bucket s.table (s.mem a)) else .call a x e)) := by
  have hl := h.located i
  rw [hp] at hl
  obtain ⟨hax, rfl⟩ := hl
  have hme : s.mem a = m a := h.slots _ hax
  refine h.of_quiet (i := i) rfl rfl rfl (fun _ _ => ⟨rfl, rfl⟩) ?_ (by simp [hp, publishing]) ?_
  · refine h.owned_same i _ ?_
    split <;> simp [held, lockedKey, hp]
  · rw [hme]
    split
    · next hf =>
      exact ⟨hax, rfl, rfl, fun h0 => hf (by rw [h0]; rfl), hf, rfl⟩
    · next hf =>
      rw [not_not] at hf
      refine ⟨hax, rfl, fun h0 => ⟨hf, ?_⟩⟩
      have hs : m a ≠ Mapping.seed := fun hs => by
        rw [hs, h.seed] at hf
        exact absurd hf (by decide)
      rcases h.key _ h0 hs with ⟨hc, -⟩ | ⟨b, y, v, -, -, -, hv, -, hpub⟩
      · exact hc
      · rcases hpub with hfv | ⟨j, hj⟩
        · exact absurd (hfv.symm.trans hf) hv
        · -- whoever is publishing the value would hold the lock that this thread holds
          have hij := h.exclusive h0 (by rw [hp]; rfl) (lockedKey_of_publishing hj)
          rw [← hij, hp] at hj
          exact hj.elim

/-- `perfaction_ptr_mapped` changes no slot. -/
theorem Inv.mapped_step {a x e p v : Ptr} {m' : Ptr → Ptr} (h : Inv S m s) (hS : S.Separate m)
    (hp : s.phase i = .mapped a x e p v) (hok : S.mappedOk s.mem m') :
    Inv S m ({ s with mem := m' }.goto i (.store a x e p v)) := by
  have hl := h.located i
  rw [hp] at hl
  exact h.of_quiet (i := i) rfl rfl rfl (hok hS.confined)
    (h.owned_same i _ (by simp [held, lockedKey, hp])) (by simp [hp, publishing]) hl

/-- `*(void**)out = lookup`. The out-slot may be an in-slot only when the value is in place, and
then it gets the value it has. -/
theorem Inv.store_step {a x e p v : Ptr} (h : Inv S m s) (hS : S.Separate m)
    (hp : s.phase i = .store a x e p v) :
    Inv S m ({ s with
      mem := Function.update s.mem x v
      log := .mapped a x p v :: s.log }.goto i (.unlock e)) := by
  have hl := h.located i
  rw [hp] at hl
  obtain ⟨hax, rfl, rfl, h0, hv, hf⟩ := hl
  have hlock : lockedKey (s.phase i) = some (m a) := by rw [hp]; rfl
  -- the value was entered by the one call for it
  have origin : m a ≠ Mapping.seed → ∃ b y, ptrCalls s.log (m a) = [(b, y, v)] ∧
      (b, y) ∈ S.pairs ∧ m b = m a ∧ s.mem y = v := by
    intro hs
    rcases h.key _ h0 hs with ⟨-, hf0⟩ | ⟨b, y, u, hc, hby, hb, hu, hy, hfu | ⟨j, hj⟩⟩
    · exact absurd (hf.symm.trans hf0) hv
    · obtain rfl : u = v := hfu.symm.trans hf
      exact ⟨b, y, hc, hby, hb, hy⟩
    · have hij := h.exclusive h0 hlock (lockedKey_of_publishing hj)
      rw [← hij, hp] at hj
      exact hj.elim
  have kept : x = a → v = m a := by
    rintro rfl
    by_cases hs : m x = Mapping.seed
    · rw [hs, h.seed] at hf
      exact hf.symm.trans hs.symm
    · obtain ⟨b, y, -, hby, hb, hy⟩ := origin hs
      obtain rfl := hS.uniform hax hby h0 hb
      rw [← hy, h.slots _ hby, hb]
  refine h.of_frame (i := i) rfl (fun q _ _ => ⟨rfl, rfl⟩) (fun f hfp => ?_)
    (fun b y hby _ hb => ?_) (fun f hfl => ?_) (h.owned_same i _ (by simp [held, lockedKey, hp]))
    h.seed trivial (fun q hq0 hqs hq => ?_) (fun f hfl hf0 hfs hq => ?_)
  · show Function.update s.mem x v f.1 = s.mem f.1
    by_cases hfx : f.1 = x
    · have hxa := hS.inPlace hax hfp hfx.symm
      rw [hfx, Function.update_self, kept hxa, hxa, h.slots _ hax]
    · rw [Function.update_of_ne hfx]
  · refine Function.update_of_ne ?_ _ _
    rintro rfl
    exact hb (by rw [hlock, hS.paired hax hby])
  · rcases List.mem_cons.mp hfl with rfl | hfl
    · exact .inr hlock
    · exact .inl hfl
  · obtain rfl : m a = q := Option.some.inj (hlock.symm.trans hq)
    obtain ⟨b, y, hc, hby, hb, hy⟩ := origin hqs
    refine .inr ⟨b, y, v, hc, hby, hb, hv, ?_, .inl hf⟩
    show Function.update s.mem x v y = v
    by_cases hyx : y = x
    · rw [hyx, Function.update_self]
    · rw [Function.update_of_ne hyx, hy]
  · have hfv : m a = f.value := Option.some.inj (hlock.symm.trans hq)
    obtain ⟨b, y, hc, -⟩ := origin (hfv ▸ hfs)
    have hout : ptrCalls (.mapped a x (m a) v :: s.log) f.value = [(b, y, v)] := by
      rw [← hfv]
      exact hc
    rcases List.mem_cons.mp hfl with rfl | hfl
    · refine ⟨hax, rfl, b, y, hout.trans ?_⟩
      show [(b, y, v)] = [(b, y, Function.update s.mem x v x)]
      rw [Function.update_self]
    · obtain ⟨hfp, hfm, b', y', hc'⟩ := h.event f hfl hf0 hfs
      have hmem : s.mem f.out = v := by
        rw [← hfv, hc] at hc'
        simpa [eq_comm] using (congrArg (fun l => l.map (·.2.2)) hc')
      refine ⟨hfp, hfm, b, y, hout.trans ?_⟩
      show [(b, y, v)] = [(b, y, Function.update s.mem x v f.out)]
      by_cases hfx : f.out = x
      · rw [hfx, Function.update_self]
      · rw [Function.update_of_ne hfx, hmem]

theorem ptrCalls_ptr {log : List Event} {a x p v q : Ptr} :
    ptrCalls (.ptr a x p v :: log) q =
      if p = q then (a, x, v) :: ptrCalls log q else ptrCalls log q := by
  unfold ptrCalls
  split <;> simp_all

/-- `perfaction_ptr`, called for a value without entry and without earlier call. -/
theorem Inv.call_step {a x e : Ptr} {m' : Ptr → Ptr} (h : Inv S m s) (hS : S.Separate m)
    (hp : s.phase i = .call a x e) (hok : S.ptrOk a x s.mem m') :
    Inv S m ({ s with
      mem := m'
      log := .ptr a x (s.mem a) (m' x) :: s.log }.goto i (.addArgs a x e)) := by
  have hl := h.located i
  rw [hp] at hl
  obtain ⟨hax, rfl, hfresh⟩ := hl
  obtain ⟨hin, hnull, hother⟩ := hok
  have hlock : lockedKey (s.phase i) = some (m a) := by rw [hp]; rfl
  rw [h.slots _ hax] at hnull ⊢
  have hcall : m a ≠ 0 → ptrCalls (.ptr a x (m a) (m' x) :: s.log) (m a) = [(a, x, m' x)] :=
    fun h0 => by rw [ptrCalls_ptr, if_pos rfl, (hfresh h0).2]
  refine h.of_frame (i := i) rfl (fun q _ hq => ⟨rfl, ?_⟩) hin (fun b y hby _ hb => ?_)
    (fun f hfl => ?_) (h.owned_same i _ (by simp [held, lockedKey, hp])) h.seed
    ⟨hax, rfl, fun h0 => ⟨(hfresh h0).1, hcall h0⟩⟩ (fun q hq0 _ hq => ?_)
    (fun f hfl hf0 hfs hq => ?_)
  · exact ptrCalls_ptr.trans (if_neg fun hm => hq (by rw [hlock, hm]))
  · refine hother hS.confined _ hby ?_
    rintro rfl
    exact hb (by rw [hlock, hS.paired hax hby])
  · rcases List.mem_cons.mp hfl with rfl | hfl
    · exact .inr hlock
    · exact .inl hfl
  · obtain rfl : m a = q := Option.some.inj (hlock.symm.trans hq)
    refine .inr ⟨a, x, m' x, hcall hq0, hax, rfl, hnull hq0, rfl, .inr ⟨i, ?_⟩⟩
    simp [State.goto, publishing]
  · have hfv : m a = f.value := Option.some.inj (hlock.symm.trans hq)
    rcases List.mem_cons.mp hfl with rfl | hfl
    · exact ⟨hax, rfl, a, x, hcall hf0⟩
    · -- an earlier event for the value would have left a call
      obtain ⟨-, -, b, y, hc⟩ := h.event f hfl hf0 hfs
      rw [← hfv, (hfresh (hfv ▸ hf0)).2] at hc
      cases hc

/-- The arguments of `add_mapping` are the locked value and what the callback stored. -/
theorem Inv.addArgs_step {a x e : Ptr} (h : Inv S m s) (hp : s.phase i = .addArgs a x e) :
    Inv S m (s.goto i (.addFind e (s.mem a) (s.mem x))) := by
  have hl := h.located i
  rw [hp] at hl
  obtain ⟨hax, rfl, hcall⟩ := hl
  refine h.of_quiet (i := i) rfl rfl rfl (fun _ _ => ⟨rfl, rfl⟩)
    (h.owned_same i _ (by simp [held, lockedKey, hp])) (by simp [hp, publishing])
    ⟨h.slots _ hax, fun h0 => ⟨(hcall h0).1, a, x, (hcall h0).2⟩⟩

theorem Inv.addFind_step {e k v : Ptr} (h : Inv S m s) (hp : s.phase i = .addFind e k v) :
    Inv S m (s.goto i (if k = 0 ∨ findMapping S.bucket s.table k ≠ 0 then .unlock e
      else .addInsert e k v)) := by
  have hl := h.located i
  rw [hp] at hl
  obtain ⟨rfl, hcall⟩ := hl
  have held_same : ∀ ph, lockedKey ph = some k → held S ph = held S (s.phase i) :=
    fun ph hph => by rw [held, held, hph, hp]; rfl
  split
  · next hk =>
    refine h.of_quiet (i := i) rfl rfl rfl (fun _ _ => ⟨rfl, rfl⟩)
      (h.owned_same i _ (held_same _ rfl)) (fun q hq0 hq => ?_) trivial
    rw [hp] at hq
    obtain rfl : k = q := hq
    exact absurd (hcall hq0).1 (hk.resolve_left hq0)
  · next hk =>
    have h0 : k ≠ 0 := fun h0 => hk (.inl h0)
    exact h.of_quiet (i := i) rfl rfl rfl (fun _ _ => ⟨rfl, rfl⟩)
      (h.owned_same i _ (held_same _ rfl)) (by simp [hp, publishing])
      ⟨rfl, h0, (hcall h0).1, (hcall h0).2⟩

/-- `NXHASH_ADD_PTR`: the value has its entry. -/
theorem Inv.addInsert_step {e k v : Ptr} (h : Inv S m s) (hp : s.phase i = .addInsert e k v) :
    Inv S m ({ s with table := nxhashAdd S.bucket s.table k v }.goto i (.unlock e)) := by
  have hl := h.located i
  rw [hp] at hl
  obtain ⟨rfl, h0, hf, a, x, hc⟩ := hl
  have hlock : lockedKey (s.phase i) = some k := by rw [hp]; rfl
  have hs : k ≠ Mapping.seed := fun hs => by
    rw [hs, h.seed] at hf
    exact absurd hf (by decide)
  refine h.of_frame (i := i) rfl (fun q _ hq => ⟨findMapping_add_ne ?_, rfl⟩) (fun _ _ => rfl)
    (fun _ _ _ _ _ => rfl) (fun f hf => .inl hf)
    (h.owned_same i _ (by simp [held, lockedKey, hp]))
    ((findMapping_add_ne (Ne.symm hs)).trans h.seed) trivial (fun q hq0 hqs hq => ?_)
    (fun f hfl hf0 hfs _ => h.event f hfl hf0 hfs)
  · rintro rfl
    exact hq hlock
  · obtain rfl : k = q := Option.some.inj (hlock.symm.trans hq)
    rcases h.key k hq0 hqs with ⟨hc0, -⟩ | ⟨b, y, u, hc', hby, hb, hu, hy, -⟩
    · rw [hc0] at hc
      cases hc
    · obtain rfl : u = v := by
        rw [hc] at hc'
        simpa [eq_comm] using congrArg (fun l => l.map (·.2.2)) hc'
      exact .inr ⟨b, y, u, hc', hby, hb, hu, hy, .inl (findMapping_add_self h0)⟩

theorem Inv.step {l : Label} (h : Inv S m s) (hS : S.Separate m)
    (hst : Mapping.step S l s = some s') : Inv S m s' := by
  obtain ⟨i, c⟩ := l
  unfold Mapping.step at hst
  generalize hp : s.phase i = ph at hst
  have hl := h.located i
  rw [hp] at hl
  cases ph with
  | idle =>
    cases c with
    | visit a x =>
      simp only [stepAt] at hst
      split at hst <;> cases hst
      next hax =>
      exact h.of_quiet (i := i) rfl rfl rfl (fun _ _ => ⟨rfl, rfl⟩)
        (h.owned_same i _ (by simp [held, lockedKey, hp])) (by simp [hp, publishing]) hax
    | writes | none => cases hst
  | entered a x =>
    cases hst
    refine h.of_quiet (i := i) rfl rfl rfl (fun _ _ => ⟨rfl, rfl⟩) (h.owned_same i _ ?_)
      (by simp [hp, publishing]) ?_
    · split <;> simp [held, lockedKey, hp]
    · split
      · trivial
      · exact ⟨hl, h.slots _ hl⟩
  | lock a x e =>
    obtain ⟨t, ht, rfl⟩ := Option.map_eq_some_iff.mp hst
    exact h.lock_step hp ht
  | find a x e =>
    have := h.find_step hp
    simp only [stepAt] at hst
    split at hst <;> cases hst <;> next hf => simpa [hf] using this
  | mapped a x e p v =>
    simp only [stepAt] at hst
    split at hst <;> cases hst
    next hok => exact h.mapped_step hS hp hok
  | store a x e p v =>
    cases hst
    exact h.store_step hS hp
  | call a x e =>
    simp only [stepAt] at hst
    split at hst <;> cases hst
    next hok => exact h.call_step hS hp hok
  | addArgs a x e =>
    cases hst
    exact h.addArgs_step hp
  | addFind e k v =>
    have := h.addFind_step hp
    simp only [stepAt] at hst
    split at hst <;> cases hst <;> next hk => simpa only [hk, if_true, if_false] using this
  | addInsert e k v =>
    cases hst
    exact h.addInsert_step hp
  | unlock e =>
    cases hst
    exact h.unlock_step hp

theorem Inv.initial : Inv S m (Mapping.initial S m) where
  owned _ _ := by simp [Mapping.initial, held, lockedKey]
  slots _ _ := rfl
  seed := by simp [Mapping.initial, findMapping_seeded]
  located _ := trivial
  key q _ hs := .inl ⟨rfl, by simp [Mapping.initial, findMapping_seeded, hs]⟩
  event _ he := absurd he List.not_mem_nil

theorem Inv.reach (hS : S.Separate m) (h : (visits S m).Reach s) : Inv S m s :=
  Sys.Inductive.reach (K := fun _ => True)
    ⟨fun hs => hs ▸ Inv.initial, fun _ hs hst => hs.step hS hst⟩ (fun _ => trivial) h

end Preservation

/-! ## The theorem and its limits -/

/-- **Each pointer value is transformed once**, for every interleaving of the threads. -/
theorem transformed_once {S : Slots} {m : Ptr → Ptr} (hS : S.Separate m) {s : State}
    (h : (visits S m).Reach s) {p : Ptr} (h0 : p ≠ 0) (hs : p ≠ seed) : TransformedOnce s p := by
  have inv := Inv.reach hS h
  refine ⟨?_, fun e he hep => ?_⟩
  · rcases inv.key p h0 hs with ⟨hc, -⟩ | ⟨b, y, v, hc, -⟩ <;> simp [hc]
  · subst hep
    obtain ⟨-, -, b, y, hc⟩ := inv.event e he h0 hs
    refine ⟨b, y, s.mem e.out, hc, rfl, ?_⟩
    cases e with
    | mapped a x p u => exact .inr ⟨a, x, u, rfl⟩
    | ptr a x p v =>
      have hmem : (a, x, v) ∈ ptrCalls s.log p :=
        List.mem_filterMap.mpr ⟨_, he, by simp⟩
      have same : (a, x, v) = (b, y, s.mem x) := by
        rw [show ptrCalls s.log p = [(b, y, s.mem x)] from hc] at hmem
        exact List.mem_singleton.mp hmem
      cases same
      exact .inl rfl

/-- `k` steps of thread `i` that leave nothing to choose. -/
def steps (i k : Nat) : List Label := List.replicate k ⟨i, .none⟩

/-- Thread `0` calls `perfaction_ptr` for the first slot while thread `1` waits with the second
one, which holds the same value. -/
def sharedRun : List Label :=
  [⟨0, .visit 1 2⟩] ++ steps 0 3 ++ [⟨1, .visit 3 4⟩] ++ steps 1 1 ++
    [⟨0, .writes [(2, 200)]⟩] ++ steps 0 4 ++ steps 1 4

theorem transformed_once_shared :
    ∃ s, (visits ⟨[(1, 2), (3, 4)], id, true⟩ fun _ => 100).Reach s ∧ s.log.length = 2 ∧
      TransformedOnce s 100 := by
  obtain ⟨s, hr, hl⟩ : ∃ s, (visits ⟨[(1, 2), (3, 4)], id, true⟩ fun _ => 100).Reach s ∧
      s.log.length = 2 :=
    Sys.exists_reach rfl (show (Sys.run _ sharedRun _).any _ = true by decide +kernel)
  refine ⟨s, hr, hl, transformed_once ⟨?_, ?_, ?_, rfl⟩ hr (by decide) (by decide)⟩
  · intro a b x ha hb
    simp only [List.mem_cons, List.not_mem_nil, Prod.mk.injEq, or_false] at ha hb
    grind
  · intro a b x y ha hb
    simp only [List.mem_cons, List.not_mem_nil, Prod.mk.injEq, or_false] at ha hb
    grind
  · intro a b y ha
    simp only [List.mem_cons, List.not_mem_nil, Prod.mk.injEq, or_false] at ha
    grind

/-- A pair in place (`10`) holds the value of a pair with another out-slot (`11`, `12`). -/
def mixedSlots : Slots := ⟨[(10, 10), (11, 12), (13, 14)], id, true⟩

def mixedMem : Ptr → Ptr := fun a => if a = 13 then 200 else if a = 10 ∨ a = 11 then 100 else 0

/-- Thread `1` reads `in_elem` of the pair in place; before it locks, thread `0` stores the mapped
value `200` there and starts to transform `200` for another slot. -/
def mixedRun : List Label :=
  [⟨0, .visit 11 12⟩] ++ steps 0 3 ++ [⟨0, .writes [(12, 200)]⟩] ++ steps 0 4 ++
    [⟨1, .visit 10 10⟩] ++ steps 1 1 ++ [⟨0, .visit 10 10⟩] ++ steps 0 6 ++
    [⟨0, .visit 13 14⟩] ++ steps 0 3 ++ [⟨0, .writes [(14, 300)]⟩] ++ steps 1 3

/-- The callback for the second pair also writes the out-slot of the first. -/
def strayRun : List Label :=
  [⟨0, .visit 1 2⟩] ++ steps 0 3 ++ [⟨0, .writes [(2, 200)]⟩] ++ steps 0 4 ++
    [⟨0, .visit 3 4⟩] ++ steps 0 3 ++ [⟨0, .writes [(4, 201), (2, 202)]⟩]

/-- Neither assumption can be dropped: with a pair in place beside a pair that is not,
`perfaction_ptr` runs twice for one value, and with a callback that writes the out-slot of
another pair, that slot no longer carries what was stored for it. -/
theorem transformed_twice :
    (∃ s, (visits mixedSlots mixedMem).Reach s ∧ mixedSlots.Paired ∧ ¬ TransformedOnce s 200) ∧
    ∃ s, (visits ⟨[(1, 2), (3, 4)], id, false⟩ fun a => 100 + a).Reach s ∧
      (⟨[(1, 2), (3, 4)], id, false⟩ : Slots).Paired ∧ ¬ TransformedOnce s 101 := by
  constructor
  · obtain ⟨s, hr, hl⟩ : ∃ s, (visits mixedSlots mixedMem).Reach s ∧
        (ptrCalls s.log 200).length = 2 :=
      Sys.exists_reach rfl (show (Sys.run _ mixedRun _).any _ = true by decide +kernel)
    refine ⟨s, hr, ?_, fun h => ?_⟩
    · intro a b x ha hb
      simp only [mixedSlots, List.mem_cons, List.not_mem_nil, Prod.mk.injEq, or_false] at ha hb
      grind
    · have := h.1
      omega
  · obtain ⟨s, hr, hl⟩ : ∃ s, (visits ⟨[(1, 2), (3, 4)], id, false⟩ fun a => 100 + a).Reach s ∧
        (.ptr 1 2 101 200 ∈ s.log ∧ ptrCalls s.log 101 = [(1, 2, 200)] ∧ s.mem 2 = 202) :=
      Sys.exists_reach rfl (show (Sys.run _ strayRun _).any _ = true by decide +kernel)
    obtain ⟨hmem, hcalls, hout⟩ := hl
    refine ⟨s, hr, ?_, fun h => ?_⟩
    · intro a b x ha hb
      simp only [List.mem_cons, List.not_mem_nil, Prod.mk.injEq, or_false] at ha hb
      grind
    · obtain ⟨b, y, v, hc, hv, -⟩ := h.2 _ hmem rfl
      rw [hcalls] at hc
      cases hc
      exact absurd (hout.symm.trans hv) (by decide)

end CStrider.Mapping
