import CStrider.Types.Locking

/-!
# Lock discipline of the type table

A thread that enters a type has to hold the lock of the bucket. `mktypptr` locks the bucket of its
new type; the other two constructors lock that of their base type, which shelters the insertion if
the two buckets share a lock.
-/

namespace CStrider.Types.Threads

section Discipline

variable (H : Hashes)

/-- A thread enters a type only while it holds the lock of the bucket, releases only locks that it
holds, and holds none when it is in no constructor. -/
structure Disciplined (s : State) : Prop where
  insert : ∀ {i f fs new}, s.calls i = f :: fs → f.point = .addToBkt new →
    s.locks.owner (s.table.mutex H new.type) = some i
  unlockBucket : ∀ {i f fs found}, s.calls i = f :: fs → f.point = .unlockBucket found →
    s.locks.owner (s.table.mutex H f.lockKey) = some i
  unlockExpand : ∀ {i f fs bkt found}, s.calls i = f :: fs → f.point = .unlockExpand bkt found →
    i ∈ s.locks.readers
  expand : ∀ {i f fs found}, s.calls i = f :: fs → f.point = .expand found →
    s.locks.writer = some i
  link : ∀ {i f fs new}, s.calls i = f :: fs → f.point = .link new → s.locks.linkOwner = some i
  idle : ∀ {i}, s.calls i = [] → (∀ m, s.locks.owner m ≠ some i) ∧ i ∉ s.locks.readers ∧
    s.locks.writer ≠ some i ∧ s.locks.linkOwner ≠ some i

/-- The id of a call that makes a new type has a bucket with the same lock as a type whose bucket
the thread has locked: its own base type, or that of an outer call. -/
def shelters (T : HashTable) (f : Frame) (fs : List Frame) : Bool :=
  match f.point with
  | .base _ =>
    (T.entries.find f.lockKey).isNone ||
      (f :: fs).any fun g => T.mutex H g.lockKey = T.mutex H f.id
  | _ => true

/-- What each step of a run has to satisfy. -/
def Sheltering (l : Label) (s : State) : Prop :=
  Kept l s ∧ Fresh H l s ∧ Innermost (shelters H s.table) l s

instance (l : Label) (s : State) : Decidable (Sheltering H l s) :=
  inferInstanceAs (Decidable (_ ∧ _ ∧ _))

/-- Each call that makes an entry has the lock for it, from its own bucket or from an outer call. -/
def Sheltered : List Frame → Prop
  | [] => True
  | f :: fs =>
    ((f.point.builds → mutexOf H f.id ∈ held H (f :: fs)) ∧
      ∀ new, f.point.new? = some new → new.type = f.id) ∧ Sheltered fs

variable {H} {s s' : State} {l : Label} {f : Frame} {fs : List Frame} {p : Point}

theorem Sheltering.base {fell : Bool} {te : Entry} (h : Sheltering H l s)
    (hs : s.calls l.thread = f :: fs) (hp : f.point = .base fell)
    (hte : s.table.entries.find f.lockKey = some te) :
    ∃ g ∈ f :: fs, s.table.mutex H g.lockKey = s.table.mutex H f.id := by
  have shelter := h.2.2 f fs hs
  rw [shelters, hp, hte] at shelter
  simpa only [Option.isNone_some, Bool.false_or, List.any_eq_true, decide_eq_true_eq] using shelter

theorem Point.of_new {new : Entry} (h : p.new? = some new) : p.builds = true ∧ p.locked = true := by
  cases p <;> first | exact ⟨rfl, rfl⟩ | cases h

theorem Sheltered.plain (h : Sheltered H fs) (hbuilds : p.builds = false) :
    Sheltered H ({ f with point := p } :: fs) := by
  refine ⟨⟨fun hb => ?_, fun new hn => ?_⟩, h⟩
  · rw [hbuilds] at hb
    cases hb
  · rw [(Point.of_new hn).1] at hbuilds
    cases hbuilds

theorem Sheltered.building (h : Sheltered H fs) (hmem : mutexOf H f.id ∈ held H (f :: fs))
    (hlocked : p.locked = f.point.locked) (hnew : ∀ new, p.new? = some new → new.type = f.id) :
    Sheltered H ({ f with point := p } :: fs) := by
  refine ⟨⟨fun _ => ?_, hnew⟩, h⟩
  rw [held_cons] at hmem ⊢
  rwa [hlocked]

theorem Sheltered.build (h : Sheltered H fs) (hp : f.point = .search) :
    Sheltered H ({ f with point := build f.id false f.request } :: fs) := by
  obtain ⟨request, id, point⟩ := f
  obtain rfl : point = .search := hp
  cases request with
  | ptr t =>
    have own : mutexOf H id ∈ held H (⟨.ptr t, id, .search⟩ :: fs) := by
      rw [held_cons]
      exact List.mem_cons_self
    refine h.building (f := ⟨.ptr t, id, .search⟩) own rfl fun new hn => ?_
    cases hn
    rfl
  | arr | gen => exact h.plain (p := .base false) rfl

theorem Sheltered.ret (h : Sheltered H (f :: fs)) : Sheltered H (ret f fs) := by
  cases fs with
  | nil => trivial
  | cons g fs =>
    simp only [Threads.ret]
    split
    · next te t k a hg _ =>
      refine h.2.2.building (h.2.1.1 (by rw [hg]; rfl)) (by rw [hg]; rfl) fun new hnew => ?_
      cases hnew
      rfl
    · exact h.2

theorem Sheltered.resume {found : Option Entry} (h : Sheltered H (f :: fs)) :
    Sheltered H (resume f fs found) := by
  cases found with
  | none => exact h.ret
  | some te => exact h.2.plain rfl

theorem Sheltered.derive {te : Entry} {pad : Int} (h : Sheltered H fs) (hp : f.point = .base false)
    (hmem : mutexOf H f.id ∈ held H (f :: fs)) : Sheltered H (derive H pad f fs te) := by
  have linking (new : Entry) (hnew : new.type = f.id) :
      Sheltered H ({ f with point := .wrlockLink new } :: fs) := by
    refine h.building hmem (by rw [hp]; rfl) fun new' hn => ?_
    cases hn
    exact hnew
  unfold Threads.derive
  split
  · exact linking _ rfl
  · exact linking _ rfl
  · split
    · exact linking _ rfl
    · have calling : Sheltered H ({ f with point := .call te } :: fs) :=
        h.building hmem (by rw [hp]; rfl) fun new hn => by cases hn
      exact ⟨⟨Bool.noConfusion, fun new hn => by cases hn⟩, calling⟩

theorem sheltered_turn {fs' : List Frame} (hacc : Accounted H s) (hsh : Sheltering H l s)
    (hs : s.calls l.thread = f :: fs) (h : Sheltered H (f :: fs)) (ht : Turn H l s f fs fs') :
    Sheltered H fs' := by
  have acc := hacc.accounts l.thread
  rw [hs] at acc
  cases ht with
  | lock | due => exact h.2.plain rfl
  | plain hb hw => exact h.2.plain hb
  | link hold hnew =>
    obtain ⟨builds, locked⟩ := Point.of_new hold
    refine h.2.building (h.1.1 builds) ?_ fun new hn => ?_
    · rw [locked, (Point.of_new hnew).2]
    · cases hnew.symm.trans hn
      exact h.1.2 _ hold
  | build hp => exact h.2.build hp
  | @fall te hp hrej =>
    have fell : build f.id true f.request = .base true := by
      cases hreq : f.request with
      | ptr t => exact absurd (hsh.1.compare hs hp hreq) hrej
      | arr | gen => rfl
    rw [fell]
    exact h.2.plain rfl
  | resume => exact h.resume
  | @derive fell te hp hte =>
    obtain rfl := hsh.1.base hs hp hte
    obtain ⟨g, hg, hmutex⟩ := hsh.base hs hp hte
    rw [mutex_eq hacc.buckets, mutex_eq hacc.buckets] at hmutex
    refine h.2.derive hp ?_
    have locked : g.point.locked := by
      rcases List.mem_cons.mp hg with rfl | hg
      · rw [hp]
        rfl
      · obtain ⟨te, hg⟩ := acc.outer g hg
        rw [hg]
        rfl
    exact hmutex ▸ List.mem_map_of_mem (List.mem_filter.mpr ⟨hg, locked⟩)
/-- The invariant of runs that shelter their insertions. -/
structure Sheltering.Inv (H : Hashes) (s : State) : Prop where
  accounted : Accounted H s
  sheltered : ∀ i, Sheltered H (s.calls i)

theorem Sheltering.Inv.step (h : Sheltering.Inv H s) (hsh : Sheltering H l s)
    (hst : step H l s = some s') : Sheltering.Inv H s' where
  accounted := h.accounted.step hsh.1 hsh.2.1 hst
  sheltered i := by
    by_cases hi : i = l.thread
    · subst hi
      unfold Threads.step at hst
      split at hst
      · cases hst
        rw [State.set_self]
        exact ⟨⟨Bool.noConfusion, fun _ hn => by cases hn⟩, trivial⟩
      · next f fs hs =>
        exact sheltered_turn h.accounted hsh hs (hs ▸ h.sheltered _) (turn_advance hst)
    · rw [((moves h.accounted hsh.1 hsh.2.1 hst).others i hi).1]
      exact h.sheltered i

theorem Sheltering.Inv.disciplined (h : Sheltering.Inv H s) : Disciplined H s where
  insert {i f fs new} hs hp := by
    have sheltered := h.sheltered i
    rw [hs] at sheltered
    have type : new.type = f.id := sheltered.1.2 new (by rw [hp]; rfl)
    rw [mutex_eq h.accounted.buckets, type, (h.accounted.accounts i).owner, hs]
    exact sheltered.1.1 (by rw [hp]; rfl)
  unlockBucket {i f fs found} hs hp := by
    rw [mutex_eq h.accounted.buckets, (h.accounted.accounts i).owner, hs, held_cons, hp]
    exact List.mem_cons_self
  unlockExpand {i f fs bkt found} hs hp := by
    rw [← List.count_pos_iff, (h.accounted.accounts i).readers, hs, reading_cons, hp]
    exact Nat.succ_pos _
  expand {i f fs found} hs hp := by
    rw [(h.accounted.accounts i).writer, hs]
    exact ⟨f, List.mem_cons_self, by rw [hp]; rfl⟩
  link {i f fs new} hs hp := by
    rw [(h.accounted.accounts i).link, hs]
    exact ⟨f, List.mem_cons_self, by rw [hp]; rfl⟩
  idle {i} hs := by
    have acc := h.accounted.accounts i
    rw [hs] at acc
    refine ⟨fun m hm => absurd ((acc.owner m).mp hm) List.not_mem_nil, ?_, fun hw => ?_, fun hl => ?_⟩
    · exact List.count_eq_zero.mp acc.readers
    · obtain ⟨f, hf, -⟩ := acc.writer.mp hw
      exact absurd hf List.not_mem_nil
    · obtain ⟨f, hf, -⟩ := acc.link.mp hl
      exact absurd hf List.not_mem_nil

/-- **Lock discipline.** Runs in which every new type is sheltered by the locked buckets keep the
discipline, whatever the hash functions and the interleaving. -/
theorem disciplined_of_sheltering (hs : (constructors H).ReachBy (Sheltering H) s) :
    Disciplined H s := by
  have init : ∀ {s}, Initial s → Sheltering.Inv H s := fun hi =>
    ⟨hi.accounted, fun i => by rw [hi.calls]; trivial⟩
  have inv : Sheltering.Inv H s := hs.invariant init fun hI hC hst => hI.step hC hst
  exact inv.disciplined

/-- A table of 1024 buckets. -/
def tableOf (entries : TypeTable) : HashTable where
  entries
  numItems := entries.length
  numBuckets := 1024
  expandMult _ := 0
  ineffExpands := 0
  noexpand := false

/-- No thread is in a constructor. -/
def idleOn (entries : TypeTable) : State where
  table := tableOf entries
  locks := ⟨fun _ => none, [], none, none⟩
  calls _ := []

theorem initial_idleOn (entries : TypeTable) : Initial (idleOn entries) :=
  ⟨rfl, ⟨0, rfl⟩, rfl, fun _ => rfl⟩

/-- All types in one bucket, and new ones under one id. -/
def oneBucket : Hashes := ⟨fun _ _ => 100, fun _ => 5⟩

/-- A thread makes an array type up to its insertion, while another one waits for the bucket. -/
theorem disciplined_of_sheltering_oneBucket : ∃ s : State,
    (∃ f ∈ s.calls 0, f.point.builds = true) ∧ s.locks.owner 5 = some 0 ∧
      (∃ f ∈ s.calls 1, f.point.waits = true) ∧ Disciplined oneBucket s := by
  let arr : Label := ⟨0, .arr 3 0, 0⟩
  let ptr : Label := ⟨1, .ptr 0, 0⟩
  obtain ⟨s, hs, hbuilds, howner, hwaits⟩ : ∃ s,
      (constructors oneBucket).ReachBy (Sheltering oneBucket) s ∧
        ((∃ f ∈ s.calls 0, f.point.builds = true) ∧ s.locks.owner 5 = some 0 ∧
          ∃ f ∈ s.calls 1, f.point.waits = true) :=
    Sys.exists_reachBy (initial_idleOn [builtin plainTypes (-1) 0])
      (show (Sys.runBy _ _ [arr, ptr, arr, arr, ptr, arr, arr, arr, arr] _).any _ = true by
        decide +kernel)
  exact ⟨s, hbuilds, howner, hwaits, disciplined_of_sheltering hs⟩
/-- The hash functions of the source. -/
def sourceHashes : Hashes := ⟨Request.key, xhashJen⟩

/-- What thread 0 inserts next goes into a bucket that it has not locked. -/
def insertsUnlocked (s : State) : Bool :=
  match s.calls 0 with
  | ⟨_, _, .addToBkt new⟩ :: _ => s.locks.owner (s.table.mutex sourceHashes new.type) ≠ some 0
  | _ => false

/-- `mktyparr(3, TYPE_CHAR)` locks the bucket of `TYPE_CHAR` and inserts into that of the new
type. -/
theorem disciplined_fails : ∃ s, (constructors sourceHashes).Reach s ∧
    insertsUnlocked s = true ∧ ¬ Disciplined sourceHashes s := by
  let arr : Label := ⟨0, .arr 3 0, 0⟩
  obtain ⟨s, hs, hunlocked⟩ : ∃ s, (constructors sourceHashes).Reach s ∧ insertsUnlocked s = true :=
    Sys.exists_reach (initial_idleOn (typeInit plainTypes [] fun _ => -1).1)
      (show (Sys.run _ (List.replicate 7 arr) _).any _ = true by decide +kernel)
  refine ⟨s, hs, hunlocked, fun disciplined => ?_⟩
  unfold insertsUnlocked at hunlocked
  split at hunlocked
  · next hcalls => exact of_decide_eq_true hunlocked (disciplined.insert hcalls rfl)
  · cases hunlocked

end Discipline

end CStrider.Types.Threads
