import CStrider.Lib.WaitFor
import CStrider.Types.Discipline

/-!
# Deadlocks of the type constructors

A constructor waits with a bucket locked only where `mktypfromgenargs` calls itself, for the target
of its base type: the inner call locks the bucket of the target while the outer one keeps the bucket
of the base type, and both hold the expansion lock for reading. The inner call must not find a
bucket due for expansion when it is done, because it would wait for the outer one. A thread that
asks for a bucket lock of its own does not wait: it goes on without a lock for the inner call.
-/

namespace CStrider.Types.Threads

section Waiting

variable (H : Hashes) (s : State)

/-- Thread `i` has asked for bucket lock `m`. -/
def Asks (i m : Nat) : Prop :=
  ∃ f fs, s.calls i = f :: fs ∧ f.point = .wrlockBucket ∧ s.table.mutex H f.lockKey = m

/-- Thread `i` cannot go on before bucket lock `m` is released. -/
def Waits (i m : Nat) : Prop :=
  Asks H s i m ∧ s.locks.owner m ≠ none ∧ s.locks.owner m ≠ some i

/-- Thread `i` asks for a bucket lock that it has. -/
def AsksAgain (i : Nat) : Prop := ∃ m, Asks H s i m ∧ s.locks.owner m = some i

/-- Threads of `A` wait for each other's bucket locks. -/
def Deadlocked (A : Finset Nat) : Prop := WaitFor.Deadlocked (Waits H s) s.locks.owner A

/-- Thread `i` waits for the end of its own read lock. -/
def ExpandsInside (i : Nat) : Prop :=
  (∃ f fs found, s.calls i = f :: fs ∧ f.point = .wrlockExpand found) ∧ i ∈ s.locks.readers

variable {s} (lt : Nat → Nat → Prop) [DecidableRel lt]

/-- A nested call is for a target whose bucket lock is above those that the thread has, and finds no
bucket due for expansion when it is done. -/
def ascends (T : HashTable) (f : Frame) (fs : List Frame) : Bool :=
  match f.point, f.request with
  | .base _, .gen .. =>
    match T.entries.find f.lockKey with
    | some te =>
      te.targetType = -1 ||
        (f :: fs).all fun g => lt (T.mutex H g.lockKey) (T.mutex H te.targetType)
    | none => true
  | .test bkt _, _ => fs.isEmpty || !T.due H bkt
  | _, _ => true

/-- What each step of a run has to satisfy, for a strict order of the bucket locks. -/
def Upward (l : Label) (s : State) : Prop := Kept l s ∧ Innermost (ascends H lt s.table) l s

instance (l : Label) (s : State) : Decidable (Upward H lt l s) :=
  inferInstanceAs (Decidable (_ ∧ _))

end Waiting

section Run

variable {H : Hashes} {s s' : State} {l : Label} {f : Frame} {fs : List Frame}
  {lt : Nat → Nat → Prop}

section Conditions

variable [DecidableRel lt]

theorem Upward.due {bkt : Nat} {found : Option Entry} (h : Upward H lt l s)
    (hs : s.calls l.thread = f :: fs) (hp : f.point = .test bkt found)
    (hdue : s.table.due H bkt = true) : fs = [] := by
  have ascend := h.2 f fs hs
  rw [ascends, hp] at ascend
  simpa [hdue] using ascend

theorem Upward.nested {fell : Bool} {te : Entry} {t : Typ} {k : Int} {a : Nat}
    (h : Upward H lt l s) (hs : s.calls l.thread = f :: fs) (hp : f.point = .base fell)
    (hte : s.table.entries.find f.lockKey = some te) (hreq : f.request = .gen t k a)
    (htarget : te.targetType ≠ -1) :
    ∀ g ∈ f :: fs, lt (s.table.mutex H g.lockKey) (s.table.mutex H te.targetType) := by
  have ascend := h.2 f fs hs
  rw [ascends, hp, hreq, hte] at ascend
  simpa only [htarget, decide_false, Bool.false_or, List.all_eq_true, decide_eq_true_eq] using ascend

end Conditions

/-- The innermost call asks for a bucket lock above those of the outer ones, and for the expansion
lock only if there are none. -/
structure Pending (H : Hashes) (lt : Nat → Nat → Prop) (f : Frame) (fs : List Frame) : Prop where
  upward : f.point = .rdlockExpand ∨ f.point = .wrlockBucket →
    ∀ b ∈ held H fs, lt b (mutexOf H f.lockKey)
  outermost : ∀ found, f.point = .wrlockExpand found → fs = []

theorem pending_of_waits (h : f.point.waits = false) : Pending H lt f fs where
  upward hp := by rcases hp with hp | hp <;> rw [hp] at h <;> cases h
  outermost found hp := by
    rw [hp] at h
    cases h

def AllPending (H : Hashes) (lt : Nat → Nat → Prop) (fs : List Frame) : Prop :=
  ∀ f gs, fs = f :: gs → Pending H lt f gs

theorem allPending_cons (h : Pending H lt f fs) : AllPending H lt (f :: fs) := by
  intro g gs heq
  obtain ⟨rfl, rfl⟩ := List.cons.inj heq
  exact h

theorem Point.waits_of_new {p : Point} {new : Entry} (h : p.new? = some new) : p.waits = false := by
  cases p <;> first | rfl | cases h

theorem waits_build (id : Typ) (fell : Bool) (r : Request) : (build id fell r).waits = false := by
  cases r <;> rfl

theorem allPending_ret (h : ∀ g ∈ fs, ∃ te, g.point = .call te) : AllPending H lt (ret f fs) := by
  cases fs with
  | nil => exact fun g gs heq => nomatch heq
  | cons g fs =>
    simp only [ret]
    split
    · exact allPending_cons (pending_of_waits rfl)
    · obtain ⟨te, hg⟩ := h g List.mem_cons_self
      refine allPending_cons (pending_of_waits ?_)
      rw [hg]
      rfl

theorem allPending_derive {te : Entry} {pad : Int}
    (hnested : ∀ t k a, f.request = .gen t k a → te.targetType ≠ -1 →
      ∀ g ∈ f :: fs, lt (mutexOf H g.lockKey) (mutexOf H te.targetType)) :
    AllPending H lt (derive H pad f fs te) := by
  unfold derive
  split
  · exact allPending_cons (pending_of_waits rfl)
  · exact allPending_cons (pending_of_waits rfl)
  · next t k a hreq =>
    split
    · exact allPending_cons (pending_of_waits rfl)
    · next htarget =>
      refine allPending_cons ⟨fun _ b hb => ?_, fun _ hp => by cases hp⟩
      obtain ⟨g, hg, rfl⟩ := List.mem_map.mp hb
      rcases List.mem_cons.mp (List.mem_filter.mp hg).1 with rfl | hg
      · exact hnested t k a hreq htarget f List.mem_cons_self
      · exact hnested t k a hreq htarget g (List.mem_cons_of_mem f hg)

theorem allPending_turn [DecidableRel lt] {fs' : List Frame} (hacc : Accounted H s)
    (hup : Upward H lt l s)
    (hs : s.calls l.thread = f :: fs) (h : Pending H lt f fs) (ht : Turn H l s f fs fs') :
    AllPending H lt fs' := by
  have acc := hacc.accounts l.thread
  rw [hs] at acc
  cases ht with
  | lock hp => exact allPending_cons ⟨fun _ => h.upward (.inl hp), fun _ hp => by cases hp⟩
  | @due bkt found hp hdue =>
    exact allPending_cons ⟨nofun, fun _ _ => hup.due hs hp hdue⟩
  | plain hb hw => exact allPending_cons (pending_of_waits hw)
  | link hold hnew => exact allPending_cons (pending_of_waits (Point.waits_of_new hnew))
  | build | fall => exact allPending_cons (pending_of_waits (waits_build _ _ _))
  | resume found =>
    cases found with
    | some te => exact allPending_cons (pending_of_waits rfl)
    | none => exact allPending_ret acc.outer
  | @derive fell te hp hte =>
    refine allPending_derive fun t k a hreq ht => ?_
    have nested := hup.nested hs hp hte hreq ht
    simpa only [mutex_eq hacc.buckets] using nested

/-- The invariant of upward runs. -/
structure Upward.Inv (H : Hashes) (lt : Nat → Nat → Prop) (s : State) : Prop where
  accounted : Accounted H s
  pending : ∀ i, AllPending H lt (s.calls i)

/-- A bucket lock that a thread asks for is above those that it has. -/
theorem Upward.Inv.above {i m b : Nat} (h : Upward.Inv H lt s) (hask : Asks H s i m)
    (howner : s.locks.owner b = some i) : lt b m := by
  obtain ⟨f, fs, hs, hp, rfl⟩ := hask
  rw [(h.accounted.accounts i).owner, hs, held_cons, hp] at howner
  rw [mutex_eq h.accounted.buckets]
  exact (h.pending i f fs hs).upward (.inr hp) b howner

theorem Upward.Inv.not_asksAgain [Std.Irrefl lt] (h : Upward.Inv H lt s) (i : Nat) :
    ¬ AsksAgain H s i := by
  rintro ⟨m, hask, howner⟩
  exact Std.Irrefl.irrefl m (h.above hask howner)

theorem Upward.Inv.fresh [Std.Irrefl lt] (h : Upward.Inv H lt s) : Fresh H l s := by
  intro f fs hs
  cases hp : f.point with
  | wrlockBucket =>
    have other : s.locks.owner (s.table.mutex H f.lockKey) ≠ some l.thread := fun howner =>
      h.not_asksAgain l.thread ⟨_, ⟨f, fs, hs, hp, rfl⟩, howner⟩
    simp [relocks, hp, other]
  | _ => simp [relocks, hp]

theorem Upward.Inv.step [DecidableRel lt] [Std.Irrefl lt] (h : Upward.Inv H lt s)
    (hup : Upward H lt l s) (hst : step H l s = some s') : Upward.Inv H lt s' where
  accounted := h.accounted.step hup.1 h.fresh hst
  pending i := by
    by_cases hi : i = l.thread
    · subst hi
      unfold Threads.step at hst
      split at hst
      · cases hst
        rw [State.set_self]
        exact allPending_cons ⟨fun _ b hb => absurd hb List.not_mem_nil, fun _ _ => rfl⟩
      · next f fs hs =>
        exact allPending_turn h.accounted hup hs (h.pending _ f fs hs) (turn_advance hst)
    · rw [((moves h.accounted hup.1 h.fresh hst).others i hi).1]
      exact h.pending i

theorem Upward.Inv.ascending (h : Upward.Inv H lt s) :
    WaitFor.Ascending (Waits H s) s.locks.owner lt :=
  fun _ _ _ hwait howner => h.above hwait.1 howner

theorem Upward.Inv.not_expandsInside (h : Upward.Inv H lt s) (i : Nat) : ¬ ExpandsInside s i := by
  rintro ⟨⟨f, fs, found, hs, hp⟩, hreads⟩
  have readers := (h.accounted.accounts i).readers
  rw [hs, reading_cons, (h.pending i f fs hs).outermost found hp, hp] at readers
  exact List.count_eq_zero.mp readers hreads

/-- **No deadlock.** In runs that nest their bucket locks in one order and do not expand inside of
another call, no threads wait for each other in a circle, and no thread asks for a lock that it
has. -/
theorem constructors_deadlock_free [DecidableRel lt] [IsStrictOrder Nat lt]
    (hs : (constructors H).ReachBy (Upward H lt) s) :
    (∀ A, ¬ Deadlocked H s A) ∧ ∀ i, ¬ AsksAgain H s i ∧ ¬ ExpandsInside s i := by
  have init : ∀ {s}, Initial s → Upward.Inv H lt s := fun hi =>
    ⟨hi.accounted, fun i f fs hf => by rw [hi.calls] at hf; cases hf⟩
  have inv : Upward.Inv H lt s := hs.invariant init fun hI hC hst => hI.step hC hst
  exact ⟨inv.ascending.not_deadlocked, fun i => ⟨inv.not_asksAgain i, inv.not_expandsInside i⟩⟩

/-- `TYPE_SHORT_PTR` and `TYPE_SHORT_PTR_PTR` with their out types, from 18 on. -/
def shortPtrTypes : Generated :=
  { plainTypes with
    len := 22
    targetType := fun i => if i = 18 ∨ i = 19 then 7 else if i = 20 ∨ i = 21 then 18 else -1 }

/-- `mktypfromgenargs` on a type, and `mktyparr`, in a thread. -/
def genCall (i : Nat) (t : Typ) : Label := ⟨i, .gen t 1 64, 0⟩

def arrCall (i : Nat) (t : Typ) : Label := ⟨i, .arr 3 t, 0⟩

/-- Thread `i` is at the lock of the bucket of type `t`, which thread `j` has. -/
def refused (s : State) (i : Nat) (t : Typ) (j : Nat) : Bool :=
  match s.calls i with
  | ⟨.gen t' k a, id, .wrlockBucket⟩ :: _ =>
    lockKey id (.gen t' k a) = t ∧ s.locks.owner (s.table.mutex sourceHashes t) = some j
  | _ => false

theorem waits_of_refused {s : State} {i j : Nat} {t : Typ} (h : refused s i t j = true)
    (hij : j ≠ i) : Waits sourceHashes s i (s.table.mutex sourceHashes t) ∧
      s.locks.owner (s.table.mutex sourceHashes t) = some j := by
  unfold refused at h
  split at h
  · next hcalls =>
    obtain ⟨hkey, howner⟩ := of_decide_eq_true h
    refine ⟨⟨⟨_, _, hcalls, rfl, congrArg _ hkey⟩, ?_⟩, howner⟩
    rw [howner]
    exact ⟨nofun, some_ne (Ne.symm hij)⟩
  · cases h

/-- A nested call of one thread waits for a bucket that another thread has locked. -/
theorem constructors_deadlock_free_shortPtr : ∃ s : State,
    (s.calls 0).length = 2 ∧ refused s 0 7 1 = true ∧
    (∀ A, ¬ Deadlocked sourceHashes s A) ∧
      ∀ i, ¬ AsksAgain sourceHashes s i ∧ ¬ ExpandsInside s i := by
  obtain ⟨s, hs, hnested, hrefused⟩ : ∃ s,
      (constructors sourceHashes).ReachBy (Upward sourceHashes (· < ·)) s ∧
        ((s.calls 0).length = 2 ∧ refused s 0 7 1 = true) :=
    Sys.exists_reachBy (initial_idleOn (typeInit shortPtrTypes [] fun _ => -1).1)
      (show (Sys.runBy _ _ (List.replicate 3 (arrCall 1 7) ++ List.replicate 6 (genCall 0 18))
        _).any _ = true by decide +kernel)
  exact ⟨s, hnested, hrefused, constructors_deadlock_free hs⟩

/-- `TYPE_SHORT_PTR_OUT_PTR` has the bucket of `TYPE_SHORT`: `mktypfromgenargs` on it and on its
target `TYPE_SHORT_PTR`, in two threads, each wait for the bucket of the other. -/
theorem constructors_deadlock_reached : ∃ s, (constructors sourceHashes).Reach s ∧
    Deadlocked sourceHashes s {0, 1} := by
  obtain ⟨s, hs, h₀, h₁⟩ : ∃ s, (constructors sourceHashes).Reach s ∧
      (refused s 0 18 1 = true ∧ refused s 1 7 0 = true) :=
    Sys.exists_reach (initial_idleOn (typeInit shortPtrTypes [] fun _ => -1).1)
      (show (Sys.run _ (List.replicate 5 (genCall 0 21) ++ List.replicate 6 (genCall 1 18) ++
        [genCall 0 21]) _).any _ = true by decide +kernel)
  refine ⟨s, hs, Finset.insert_nonempty .., fun i hi => ?_⟩
  rcases Finset.mem_insert.mp hi with rfl | hi
  · obtain ⟨hwait, howner⟩ := waits_of_refused h₀ Nat.one_ne_zero
    exact ⟨_, hwait, 1, by simp, howner⟩
  · obtain rfl := Finset.mem_singleton.mp hi
    obtain ⟨hwait, howner⟩ := waits_of_refused h₁ Nat.zero_ne_one
    exact ⟨_, hwait, 0, by simp, howner⟩

end Run

end CStrider.Types.Threads
