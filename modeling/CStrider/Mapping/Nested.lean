import CStrider.Lib.WaitFor
import CStrider.Mapping.Model

/-!
# Visits inside of callbacks

`visit` calls user code while it holds the lock of the bucket of its pointer, and this code may call
`visit` again, on any slot. A thread is then in several visits, innermost first; all but the
innermost are in a callback. There is nothing that callbacks have to keep to: they may write any
memory, and visit any slots.

A nested visit takes its bucket while the outer one keeps its own, in the order in which the heap
has the pointers. Threads that nest in one order of the buckets cannot block each other
(`deadlock_free`).
-/

namespace CStrider.Mapping.Nested

/-- The shared state. -/
structure State where
  mem : Ptr → Ptr
  table : Table
  owner : Nat → Option Nat
  calls : Nat → List Phase

def State.set (s : State) (i : Nat) (calls : List Phase) : State :=
  { s with calls := Function.update s.calls i calls }

theorem State.set_self (s : State) (i : Nat) (calls : List Phase) :
    (s.set i calls).calls i = calls := by
  simp only [set, Function.update_self]

theorem State.set_of_ne (s : State) {i j : Nat} (h : j ≠ i) (calls : List Phase) :
    (s.set i calls).calls j = s.calls j := by
  simp only [set, Function.update_of_ne h]

/-- The thread is in user code. -/
def inCallback : Phase → Bool
  | .mapped .. | .call .. => true
  | _ => false

section Step

variable (bucket : Ptr → Nat)

/-- The next action of thread `i` in its innermost visit. -/
def advance (i : Nat) (c : Choice) (s : State) (rest : List Phase) : Phase → Option State
  | .idle => none
  | .entered a x => some (s.set i (if a = 0 then rest else .lock a x (s.mem a) :: rest))
  | .lock a x e =>
    if e = 0 then some (s.set i (.find a x e :: rest))
    else match s.owner (bucket e) with
      | none => some ({ s with owner := Function.update s.owner (bucket e) (some i) }.set i
          (.find a x e :: rest))
      | some _ => none
  | .find a x e =>
    let lookup := findMapping bucket s.table (s.mem a)
    if lookup ≠ 0 then some (s.set i (.mapped a x e (s.mem a) lookup :: rest))
    else some (s.set i (.call a x e :: rest))
  | .mapped a x e p lookup =>
    some ({ s with mem := c.apply s.mem }.set i (.store a x e p lookup :: rest))
  | .store _ x e _ lookup =>
    some ({ s with mem := Function.update s.mem x lookup }.set i (.unlock e :: rest))
  | .call a x e => some ({ s with mem := c.apply s.mem }.set i (.addArgs a x e :: rest))
  | .addArgs a x e => some (s.set i (.addFind e (s.mem a) (s.mem x) :: rest))
  | .addFind e key addr =>
    if key = 0 ∨ findMapping bucket s.table key ≠ 0 then some (s.set i (.unlock e :: rest))
    else some (s.set i (.addInsert e key addr :: rest))
  | .addInsert e key addr =>
    some ({ s with table := nxhashAdd bucket s.table key addr }.set i (.unlock e :: rest))
  | .unlock e =>
    some ({ s with
      owner := if e = 0 then s.owner else Function.update s.owner (bucket e) none }.set i rest)

/-- A thread begins a visit when it is in none, or from within a callback. -/
def enter (i : Nat) (a x : Ptr) (s : State) : Option State :=
  match s.calls i with
  | [] => some (s.set i [.entered a x])
  | ph :: rest =>
    if inCallback ph then some (s.set i (.entered a x :: ph :: rest)) else none

def step (l : Label) (s : State) : Option State :=
  match l.choice with
  | .visit a x => enter l.thread a x s
  | c =>
    match s.calls l.thread with
    | [] => none
    | ph :: rest => advance bucket l.thread c s rest ph

/-- The state after `init` of a parallel session, with memory `m`. -/
def initial (m : Ptr → Ptr) : State where
  mem := m
  table := seeded bucket
  owner := fun _ => none
  calls := fun _ => []

/-- The visits of a parallel session that starts with memory `m`. -/
def visits (m : Ptr → Ptr) : Sys State Label where
  init s := s = initial bucket m
  step := step bucket

/-- Thread `i` has asked for the lock of bucket `b`. -/
def Waits (s : State) (i b : Nat) : Prop :=
  ∃ a x e rest, s.calls i = .lock a x e :: rest ∧ e ≠ 0 ∧ bucket e = b

/-- Threads of `A` wait for each other's bucket locks, or a thread for its own. -/
def Deadlocked (s : State) (A : Finset Nat) : Prop :=
  WaitFor.Deadlocked (Waits bucket s) s.owner A

/-- In this step no thread that holds buckets turns to a pointer whose bucket is not above them. -/
def Upward (lt : Nat → Nat → Prop) (l : Label) (s : State) : Prop :=
  ∀ a x rest, s.calls l.thread = .entered a x :: rest → a ≠ 0 → s.mem a ≠ 0 →
    ∀ b, s.owner b = some l.thread → lt b (bucket (s.mem a))

end Step

section Run

variable {bucket : Ptr → Nat} {s s' : State} {i : Nat} {l : Label}

/-- The outer visits of all threads are in callbacks. -/
def Nests (s : State) : Prop := ∀ i, ∀ ph ∈ (s.calls i).tail, inCallback ph = true

/-- What a step of thread `i` does: it changes its own calls only, gives no bucket to another
thread, and comes to a request only by reading its slot. -/
structure Moves (i : Nat) (s s' : State) : Prop where
  others : ∀ j, j ≠ i → s'.calls j = s.calls j
  owned : ∀ j, j ≠ i → ∀ b, s'.owner b = some j → s.owner b = some j
  request : ∀ a x e rest, s'.calls i = .lock a x e :: rest →
    s.calls i = .entered a x :: rest ∧ a ≠ 0 ∧ e = s.mem a ∧ s'.owner = s.owner
  outer : ∀ ph ∈ (s'.calls i).tail, inCallback ph = true

/-- A step that puts `ph` in the place of the innermost phase, and is no request. -/
theorem Moves.goto {rest : List Phase} {ph : Phase} {t : State} (hcalls : t.calls = s.calls)
    (howner : ∀ j, j ≠ i → ∀ b, t.owner b = some j → s.owner b = some j)
    (hrest : ∀ ph ∈ rest, inCallback ph = true) (hph : ∀ a x e, ph ≠ .lock a x e) :
    Moves i s (t.set i (ph :: rest)) where
  others j hj := by
    rw [State.set_of_ne _ hj, hcalls]
  owned := howner
  request a x e rest' h := by
    rw [State.set_self] at h
    exact absurd (List.cons.inj h).1 (hph a x e)
  outer ph h := by
    rw [State.set_self] at h
    exact hrest ph h

/-- A step back into the callback that made the visit. -/
theorem Moves.pop {rest : List Phase} {t : State} (hcalls : t.calls = s.calls)
    (howner : ∀ j, j ≠ i → ∀ b, t.owner b = some j → s.owner b = some j)
    (hrest : ∀ ph ∈ rest, inCallback ph = true) : Moves i s (t.set i rest) where
  others j hj := by
    rw [State.set_of_ne _ hj, hcalls]
  owned := howner
  request a x e rest' h := by
    rw [State.set_self] at h
    have hph := hrest _ (h ▸ List.mem_cons_self)
    cases hph
  outer ph h := by
    rw [State.set_self] at h
    exact hrest ph (List.mem_of_mem_tail h)

theorem moves_advance {c : Choice} {ph : Phase} {rest : List Phase}
    (hs : s.calls i = ph :: rest) (hrest : ∀ ph ∈ rest, inCallback ph = true)
    (h : advance bucket i c s rest ph = some s') : Moves i s s' := by
  cases ph with
  | idle => cases h
  | entered a x =>
    obtain rfl := Option.some.inj h
    by_cases ha : a = 0
    · rw [if_pos ha]
      exact .pop rfl (fun _ _ _ h => h) hrest
    · rw [if_neg ha]
      refine ⟨fun j hj => State.set_of_ne _ hj _, fun _ _ _ h => h, ?_, ?_⟩
      · intro a' x' e rest' h'
        rw [State.set_self, List.cons.injEq] at h'
        obtain ⟨hlock, rfl⟩ := h'
        injection hlock with haa hxx he
        subst haa hxx he
        exact ⟨hs, ha, rfl, rfl⟩
      · intro ph hph
        rw [State.set_self] at hph
        exact hrest ph hph
  | lock a x e =>
    simp only [advance] at h
    split at h
    · obtain rfl := Option.some.inj h
      exact .goto rfl (fun _ _ _ h => h) hrest (by simp)
    · split at h
      · obtain rfl := Option.some.inj h
        refine .goto rfl (fun j hj b hb => ?_) hrest (by simp)
        dsimp only at hb
        by_cases hbe : b = bucket e
        · rw [hbe, Function.update_self] at hb
          exact absurd (Option.some.inj hb).symm hj
        · rwa [Function.update_of_ne hbe] at hb
      · cases h
  | find | addFind =>
    simp only [advance] at h
    split at h
    · obtain rfl := Option.some.inj h
      exact .goto rfl (fun _ _ _ h => h) hrest (by simp)
    · obtain rfl := Option.some.inj h
      exact .goto rfl (fun _ _ _ h => h) hrest (by simp)
  | mapped | store | call | addArgs | addInsert =>
    obtain rfl := Option.some.inj h
    exact .goto rfl (fun _ _ _ h => h) hrest (by simp)
  | unlock e =>
    obtain rfl := Option.some.inj h
    refine .pop rfl (fun j _ b hb => ?_) hrest
    dsimp only at hb
    split at hb
    · exact hb
    · by_cases hbe : b = bucket e
      · rw [hbe, Function.update_self] at hb
        cases hb
      · rwa [Function.update_of_ne hbe] at hb

theorem moves_enter {a x : Ptr} (hn : Nests s) (h : enter i a x s = some s') : Moves i s s' := by
  unfold enter at h
  split at h
  · obtain rfl := Option.some.inj h
    exact .goto rfl (fun _ _ _ h => h) (by simp) (by simp)
  · next ph rest hs =>
    split at h
    · next hph =>
      obtain rfl := Option.some.inj h
      refine .goto rfl (fun _ _ _ h => h) (fun ph' hph' => ?_) (by simp)
      rcases List.mem_cons.mp hph' with rfl | hmem
      · exact hph
      · exact hn i ph' (by rw [hs]; exact hmem)
    · cases h

theorem moves (hn : Nests s) (h : step bucket l s = some s') : Moves l.thread s s' := by
  unfold step at h
  split at h
  · exact moves_enter hn h
  · split at h
    · cases h
    · next ph rest hs =>
      refine moves_advance hs (fun ph' hph' => ?_) h
      exact hn l.thread ph' (by rw [hs]; exact hph')

theorem nests_step (hn : Nests s) (h : step bucket l s = some s') : Nests s' := by
  have hm := moves hn h
  intro i
  by_cases hi : i = l.thread
  · subst hi
    exact hm.outer
  · rw [hm.others i hi]
    exact hn i

theorem ascending_step {lt : Nat → Nat → Prop} (hn : Nests s)
    (ha : WaitFor.Ascending (Waits bucket s) s.owner lt) (hup : Upward bucket lt l s)
    (h : step bucket l s = some s') : WaitFor.Ascending (Waits bucket s') s'.owner lt := by
  have hm := moves hn h
  rintro i r b ⟨a, x, e, rest, hcalls, he, rfl⟩ hown
  by_cases hi : i = l.thread
  · subst hi
    obtain ⟨hs, hna, rfl, howner⟩ := hm.request a x e rest hcalls
    exact hup a x rest hs hna he b (howner ▸ hown)
  · rw [hm.others i hi] at hcalls
    exact ha i _ b ⟨a, x, e, rest, hcalls, he, rfl⟩ (hm.owned i hi b hown)

/-- **Visits that are nested in one order of the buckets never block each other.** -/
theorem deadlock_free {lt : Nat → Nat → Prop} [IsStrictOrder Nat lt] {m : Ptr → Ptr}
    (hs : (visits bucket m).ReachBy (Upward bucket lt) s) (A : Finset Nat) :
    ¬ Deadlocked bucket s A := by
  have inv : Nests s ∧ WaitFor.Ascending (Waits bucket s) s.owner lt := by
    refine hs.invariant (I := fun s => Nests s ∧ WaitFor.Ascending (Waits bucket s) s.owner lt) ?_ ?_
    · rintro s rfl
      constructor
      · intro i ph hph
        cases hph
      · rintro i r b ⟨a, x, e, rest, hcalls, -⟩
        cases hcalls
    · intro l s s' ih hup h
      exact ⟨nests_step ih.1 h, ascending_step ih.1 ih.2 hup h⟩
  exact inv.2.not_deadlocked A

end Run

/-! ## Callbacks that visit nothing -/

section Flat

variable {S : Slots} {s s' : Mapping.State} {l : Label}

/-- The visits of a thread that is in one at most. -/
def one : Phase → List Phase
  | .idle => []
  | ph => [ph]

/-- A session of `Mapping.visits`. -/
def flat (s : Mapping.State) : State where
  mem := s.mem
  table := s.table
  owner := s.owner
  calls i := one (s.phase i)

theorem flat_goto (s : Mapping.State) (i : Nat) (ph : Phase) :
    flat (s.goto i ph) = (flat s).set i (one ph) := by
  simp only [flat, Mapping.State.goto, State.set, State.mk.injEq, true_and]
  funext j
  by_cases hj : j = i
  · subst hj
    simp only [Function.update_self]
  · simp only [Function.update_of_ne hj]

/-- What a callback writes is all that a label says in the midst of a visit. -/
theorem exists_writes (c : Choice) :
    ∃ c' : Choice, (∀ a x, c' ≠ .visit a x) ∧ ∀ m, c'.apply m = c.apply m := by
  cases c with
  | visit a x => exact ⟨.none, by simp, fun m => rfl⟩
  | writes ws => exact ⟨.writes ws, by simp, fun m => rfl⟩
  | none => exact ⟨.none, by simp, fun m => rfl⟩

/-- In the midst of a visit, `Mapping.stepAt` is `advance` without outer visits. -/
theorem advance_flat {i : Nat} {c c' : Choice} {ph : Phase} (hph : ph ≠ .idle)
    (hc : ∀ m, c'.apply m = c.apply m) (h : stepAt S i c s ph = some s') :
    advance S.bucket i c' (flat s) [] ph = some (flat s') := by
  cases ph with
  | idle => exact absurd rfl hph
  | entered a x =>
    obtain rfl := Option.some.inj h
    rw [flat_goto]
    by_cases ha : a = 0
    · simp only [advance, if_pos ha, one]
    · simp only [advance, if_neg ha, one, flat]
  | lock a x e =>
    obtain ⟨t, ht, rfl⟩ := Option.map_eq_some_iff.mp h
    rw [flat_goto]
    unfold wrlock at ht
    by_cases he : e = 0
    · rw [if_pos he] at ht
      obtain rfl := Option.some.inj ht
      simp only [advance, if_pos he, one]
    · rw [if_neg he] at ht
      cases hown : s.owner (S.bucket e) with
      | some j => simp [hown] at ht
      | none =>
        rw [hown] at ht
        obtain rfl := Option.some.inj ht
        simp only [advance, if_neg he, flat, hown, one]
  | find a x e =>
    simp only [stepAt] at h
    by_cases hl : findMapping S.bucket s.table (s.mem a) ≠ 0
    · rw [if_pos hl] at h
      obtain rfl := Option.some.inj h
      rw [flat_goto]
      exact if_pos hl
    · rw [if_neg hl] at h
      obtain rfl := Option.some.inj h
      rw [flat_goto]
      exact if_neg hl
  | mapped a x e p lookup =>
    simp only [stepAt] at h
    split at h
    · obtain rfl := Option.some.inj h
      rw [flat_goto]
      simp only [advance, flat, hc, one]
    · cases h
  | store a x e p lookup =>
    obtain rfl := Option.some.inj h
    rw [flat_goto]
    rfl
  | call a x e =>
    simp only [stepAt] at h
    split at h
    · obtain rfl := Option.some.inj h
      rw [flat_goto]
      simp only [advance, flat, hc, one]
    · cases h
  | addArgs a x e =>
    obtain rfl := Option.some.inj h
    rw [flat_goto]
    rfl
  | addFind e key addr =>
    simp only [stepAt] at h
    by_cases hk : key = 0 ∨ findMapping S.bucket s.table key ≠ 0
    · rw [if_pos hk] at h
      obtain rfl := Option.some.inj h
      rw [flat_goto]
      exact if_pos hk
    · rw [if_neg hk] at h
      obtain rfl := Option.some.inj h
      rw [flat_goto]
      exact if_neg hk
  | addInsert e key addr =>
    obtain rfl := Option.some.inj h
    rw [flat_goto]
    rfl
  | unlock e =>
    obtain rfl := Option.some.inj h
    rw [flat_goto]
    unfold unlock
    by_cases he : e = 0
    · simp only [advance, if_pos he, one]
    · simp only [advance, if_neg he, one, flat]

/-- The visits of `Mapping.visits` are visits here. -/
theorem step_flat (h : Mapping.step S l s = some s') :
    ∃ l', step S.bucket l' (flat s) = some (flat s') := by
  obtain ⟨i, c⟩ := l
  change stepAt S i c s (s.phase i) = some s' at h
  by_cases hph : s.phase i = .idle
  · rw [hph] at h
    cases c with
    | visit a x =>
      simp only [stepAt] at h
      split at h
      · obtain rfl := Option.some.inj h
        have calls : (flat s).calls i = [] := congrArg one hph
        refine ⟨⟨i, .visit a x⟩, ?_⟩
        rw [flat_goto]
        simp only [step, enter, calls, one]
      · cases h
    | writes | none => cases h
  · obtain ⟨c', hc', happly⟩ := exists_writes c
    have calls : (flat s).calls i = [s.phase i] := by
      change one (s.phase i) = _
      cases hs : s.phase i with
      | idle => exact absurd hs hph
      | _ => rfl
    refine ⟨⟨i, c'⟩, ?_⟩
    rw [← advance_flat hph happly h]
    cases c' with
    | visit a x => exact absurd rfl (hc' a x)
    | writes | none => simp only [step, calls]

theorem reach_flat {m : Ptr → Ptr} (h : (Mapping.visits S m).Reach s) :
    (visits S.bucket m).Reach (flat s) := by
  induction h with
  | init h =>
    obtain rfl := h
    exact .init rfl
  | step l _ hst ih =>
    obtain ⟨l', hl'⟩ := step_flat hst
    exact .step l' ih hl'

end Flat

/-! ## Two slots -/

/-- The slots 10 and 11 hold pointers of different buckets. -/
def twoSlots (a : Ptr) : Ptr := if a = 10 then 100 else if a = 11 then 101 else 0

/-- Thread `i` visits the slot `a`, and the slot `b` from the callback for it. -/
def nest (i : Nat) (a b : Ptr) : List Label :=
  [⟨i, .visit a a⟩, ⟨i, .none⟩, ⟨i, .none⟩, ⟨i, .none⟩, ⟨i, .visit b b⟩]

/-- Thread 0 holds bucket 100 and is in a visit of slot 11. -/
theorem deadlock_free_nested : ∃ s : State, s.owner 100 = some 0 ∧
    s.calls 0 = [.lock 11 11 101, .call 10 10 100] ∧ ∀ A ∈ [{0}, {0, 1}], ¬ Deadlocked id s A := by
  have start : (visits id twoSlots).ReachBy (Upward id (· < ·)) (initial id twoSlots) := .init rfl
  have entered := start.step ⟨0, .visit 10 10⟩ (fun _ _ _ h => nomatch h) rfl
  have lock := entered.step ⟨0, .none⟩ (fun _ _ _ _ _ _ _ h => nomatch h) rfl
  have find := lock.step ⟨0, .none⟩ (fun _ _ _ h => nomatch h) rfl
  have call := find.step ⟨0, .none⟩ (fun _ _ _ h => nomatch h) rfl
  have again := call.step ⟨0, .visit 11 11⟩ (fun _ _ _ h => nomatch h) rfl
  have request := again.step ⟨0, .none⟩ (fun a x rest h _ _ b hb => by
    have hb : b = 100 := by
      by_contra hne
      have hnone : (Function.update (fun _ => none) 100 (some 0) : Nat → Option Nat) b = some 0 := hb
      rw [Function.update_of_ne hne] at hnone
      cases hnone
    obtain rfl : 11 = a := by
      injection (List.cons.inj h).1
    subst hb
    decide) rfl
  exact ⟨_, rfl, rfl, fun A _ => deadlock_free request A⟩

/-- Two threads nest the slots in opposite orders: each waits for the bucket of the other. -/
theorem deadlock_reached : ∃ s, (visits id twoSlots).Reach s ∧ Deadlocked id s {0, 1} := by
  obtain ⟨s, hs, h₀, h₁, hown₀, hown₁⟩ : ∃ s, (visits id twoSlots).Reach s ∧
      (s.calls 0 = [.lock 11 11 101, .call 10 10 100] ∧
        s.calls 1 = [.lock 10 10 100, .call 11 11 101] ∧
        s.owner 100 = some 0 ∧ s.owner 101 = some 1) :=
    Sys.exists_reach rfl (show (Sys.run _
      (nest 0 10 11 ++ nest 1 11 10 ++ [⟨0, .none⟩, ⟨1, .none⟩]) _).any _ = true by decide +kernel)
  refine ⟨s, hs, ⟨0, by simp⟩, fun i hi => ?_⟩
  rw [Finset.mem_insert, Finset.mem_singleton] at hi
  rcases hi with rfl | rfl
  · exact ⟨101, ⟨11, 11, 101, _, h₀, by decide, rfl⟩, 1, by simp, hown₁⟩
  · exact ⟨100, ⟨10, 10, 100, _, h₁, by decide, rfl⟩, 0, by simp, hown₀⟩

end CStrider.Mapping.Nested
