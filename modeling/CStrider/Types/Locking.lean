import CStrider.Types.Threads

/-!
# Locks of the type constructors

Every lock that a thread holds belongs to one of its calls: `held` and `reading` are what the points
of the calls say, and `Accounts` that the locks agree. This is so as long as no call goes on without
locks of its own: where a search finds the entry of another type, it has released them (`Kept`), and
where an outer call has its bucket lock, it gets none (`Fresh`).
-/

namespace CStrider.Types.Threads

/-! ## What a call holds -/

/-- The call holds the lock of the bucket of its `lockKey`. -/
def Point.locked : Point → Bool
  | .search | .unlockBucket _ | .base false | .call _ | .wrlockLink _ | .link _ | .addToBkt _
  | .setPointer => true
  | _ => false

/-- The call holds the expansion lock for reading. -/
def Point.reads : Point → Bool
  | .wrlockBucket | .unlockExpand .. => true
  | p => p.locked

/-- The call holds the expansion lock for writing. -/
def Point.expands : Point → Bool
  | .expand _ => true
  | _ => false

/-- The call holds the lock of the list of all entries. -/
def Point.links : Point → Bool
  | .link _ => true
  | _ => false

section Held

variable (H : Hashes)

def mutexOf (t : Typ) : Nat := H.hashv t % maxNumMutex

/-- The bucket locks that calls hold, innermost first. -/
def held (fs : List Frame) : List Nat :=
  (fs.filter fun f => f.point.locked).map fun f => mutexOf H f.lockKey

/-- How often calls hold the expansion lock for reading. -/
def reading (fs : List Frame) : Nat := fs.countP fun f => f.point.reads

/-- The locks of thread `i` are those that its calls hold; the outer calls wait for nested ones. -/
structure Accounts (k : Locks) (i : Nat) (fs : List Frame) : Prop where
  owner : ∀ m, k.owner m = some i ↔ m ∈ held H fs
  nodup : (held H fs).Nodup
  readers : k.readers.count i = reading fs
  writer : k.writer = some i ↔ ∃ f ∈ fs, f.point.expands
  link : k.linkOwner = some i ↔ ∃ f ∈ fs, f.point.links
  outer : ∀ f ∈ fs.tail, ∃ te, f.point = .call te

/-- The invariant. -/
structure Accounted (s : State) : Prop where
  buckets : maxNumMutex ∣ s.table.numBuckets
  accounts : ∀ i, Accounts H s.locks i (s.calls i)

end Held

/-- What the innermost call of a thread that moves satisfies, together with the outer ones. -/
def Innermost (q : Frame → List Frame → Bool) (l : Label) (s : State) : Prop :=
  ∀ f fs, s.calls l.thread = f :: fs → q f fs = true

instance (q : Frame → List Frame → Bool) (l : Label) (s : State) : Decidable (Innermost q l s) :=
  match hs : s.calls l.thread with
  | [] => isTrue fun _ _ h => nomatch hs.symm.trans h
  | f :: fs => decidable_of_iff (q f fs = true)
    ⟨fun hq f' fs' h => by
      obtain ⟨rfl, rfl⟩ := List.cons.inj (hs.symm.trans h)
      exact hq, fun h => h f fs hs⟩

/-- A call does not go on without its locks: `mktypptr` accepts what its search finds, and the other
constructors do not find their base type after they rejected something. -/
def keeps (T : HashTable) (f : Frame) : Bool :=
  match f.point with
  | .compare te =>
    match f.request with
    | .ptr t => accepts te (.ptr t)
    | .arr .. | .gen .. => true
  | .base true => (T.entries.find f.lockKey).isNone
  | _ => true

def Kept (l : Label) (s : State) : Prop := Innermost (fun f _ => keeps s.table f) l s

instance (l : Label) (s : State) : Decidable (Kept l s) := inferInstanceAs (Decidable (Innermost ..))

/-- The thread has the bucket lock that a call asks for. -/
def relocks (H : Hashes) (s : State) (i : Nat) (f : Frame) : Bool :=
  match f.point with
  | .wrlockBucket => s.locks.owner (s.table.mutex H f.lockKey) = some i
  | _ => false

/-- A thread does not ask for a bucket lock that it has. -/
def Fresh (H : Hashes) (l : Label) (s : State) : Prop :=
  Innermost (fun f _ => !relocks H s l.thread f) l s

instance (H : Hashes) (l : Label) (s : State) : Decidable (Fresh H l s) :=
  inferInstanceAs (Decidable (Innermost ..))

section Kept

variable {H : Hashes} {l : Label} {s : State} {f : Frame} {fs : List Frame} {te : Entry}

theorem Kept.compare {t : Typ} (h : Kept l s) (hs : s.calls l.thread = f :: fs)
    (hp : f.point = .compare te) (hreq : f.request = .ptr t) : accepts te f.request = true := by
  have keep : keeps s.table f = true := h f fs hs
  rw [keeps, hp, hreq] at keep
  rwa [hreq]

theorem Kept.base {fell : Bool} (h : Kept l s) (hs : s.calls l.thread = f :: fs)
    (hp : f.point = .base fell) (hte : s.table.entries.find f.lockKey = some te) : fell = false := by
  cases fell with
  | false => rfl
  | true =>
    have keep : keeps s.table f = true := h f fs hs
    rw [keeps, hp, hte] at keep
    cases keep

theorem Fresh.owner_ne (h : Fresh H l s) (hs : s.calls l.thread = f :: fs)
    (hp : f.point = .wrlockBucket) :
    s.locks.owner (s.table.mutex H f.lockKey) ≠ some l.thread := by
  have fresh : (!relocks H s l.thread f) = true := h f fs hs
  simpa [relocks, hp] using fresh

end Kept

/-! ## Lock operations -/

section Operations

variable {H : Hashes} {k : Locks} {i j m : Nat} {f : Frame} {fs : List Frame} {p : Point}

theorem mutex_eq {T : HashTable} (h : maxNumMutex ∣ T.numBuckets) (t : Typ) :
    T.mutex H t = mutexOf H t := Nat.mod_mod_of_dvd _ h

theorem held_cons : held H (f :: fs) =
    if f.point.locked then mutexOf H f.lockKey :: held H fs else held H fs := by
  unfold held
  rw [List.filter_cons]
  split <;> rfl

theorem reading_cons : reading (f :: fs) = reading fs + if f.point.reads then 1 else 0 :=
  List.countP_cons

/-- Nothing changes for thread `j`. -/
structure Apart (j : Nat) (k k' : Locks) : Prop where
  owner : ∀ m, k'.owner m = some j ↔ k.owner m = some j
  readers : k'.readers.count j = k.readers.count j
  writer : k'.writer = some j ↔ k.writer = some j
  link : k'.linkOwner = some j ↔ k.linkOwner = some j

theorem Apart.refl : Apart j k k := ⟨fun _ => .rfl, rfl, .rfl, .rfl⟩

theorem Apart.setOwner {o : Option Nat} (h : k.owner m ≠ some j) (ho : o ≠ some j) :
    Apart j k (k.setOwner m o) where
  owner m' := by
    by_cases hm : m' = m
    · subst hm
      simp only [Locks.setOwner, Function.update_self, ho, h]
    · simp only [Locks.setOwner, Function.update_of_ne hm]
  readers := rfl
  writer := .rfl
  link := .rfl

theorem Apart.setReaders {rs : List Nat} (h : rs.count j = k.readers.count j) :
    Apart j k (k.setReaders rs) := ⟨fun _ => .rfl, h, .rfl, .rfl⟩

theorem Apart.setWriter {o : Option Nat} (h : k.writer ≠ some j) (ho : o ≠ some j) :
    Apart j k (k.setWriter o) := ⟨fun _ => .rfl, rfl, iff_of_false ho h, .rfl⟩

theorem Apart.setLink {o : Option Nat} (h : k.linkOwner ≠ some j) (ho : o ≠ some j) :
    Apart j k (k.setLink o) := ⟨fun _ => .rfl, rfl, .rfl, iff_of_false ho h⟩

theorem Accounts.apart {k' : Locks} (h : Accounts H k j fs) (ha : Apart j k k') :
    Accounts H k' j fs where
  owner m := (ha.owner m).trans (h.owner m)
  nodup := h.nodup
  readers := ha.readers.trans h.readers
  writer := ha.writer.trans h.writer
  link := ha.link.trans h.link
  outer := h.outer

/-- An outer call waits for the one that it made. -/
theorem Accounts.outer_not (h : Accounts H k i (f :: fs)) {q : Point → Bool}
    (hq : ∀ te, q (.call te) = false) {g : Frame} (hg : g ∈ fs) : ¬ q g.point = true := by
  obtain ⟨te, hte⟩ := h.outer g hg
  rw [hte, hq]
  exact Bool.false_ne_true

/-- The call moves to a point where it holds the same locks. -/
theorem Accounts.move (h : Accounts H k i (f :: fs)) (hlocked : p.locked = f.point.locked)
    (hreads : p.reads = f.point.reads) (hexpands : p.expands = f.point.expands)
    (hlinks : p.links = f.point.links) : Accounts H k i ({ f with point := p } :: fs) where
  owner m := by
    rw [h.owner, held_cons, held_cons, hlocked]
    rfl
  nodup := by
    have nodup := h.nodup
    rw [held_cons] at nodup ⊢
    rwa [hlocked]
  readers := by rw [h.readers, reading_cons, reading_cons, hreads]
  writer := by
    rw [h.writer]
    simp only [List.exists_mem_cons_iff, hexpands]
  link := by
    rw [h.link]
    simp only [List.exists_mem_cons_iff, hlinks]
  outer := h.outer

/-- Only the owner of one mutex changes. -/
theorem Accounts.setOwner {m : Nat} {o : Option Nat} (h : Accounts H k i (f :: fs))
    (howner : ∀ m', (k.setOwner m o).owner m' = some i ↔
      m' ∈ held H ({ f with point := p } :: fs))
    (hnodup : (held H ({ f with point := p } :: fs)).Nodup) (hreads : p.reads = f.point.reads)
    (hexpands : p.expands = f.point.expands) (hlinks : p.links = f.point.links) :
    Accounts H (k.setOwner m o) i ({ f with point := p } :: fs) where
  owner := howner
  nodup := hnodup
  readers := h.readers.trans (by rw [reading_cons, reading_cons, hreads])
  writer := by
    refine h.writer.trans ?_
    simp only [List.exists_mem_cons_iff, hexpands]
  link := by
    refine h.link.trans ?_
    simp only [List.exists_mem_cons_iff, hlinks]
  outer := h.outer

theorem Accounts.wrlockBucket (h : Accounts H k i (f :: fs)) (hp : f.point = .wrlockBucket)
    (hfree : k.owner (mutexOf H f.lockKey) = none) :
    Accounts H (k.setOwner (mutexOf H f.lockKey) (some i)) i
      ({ f with point := .search } :: fs) := by
  have before : held H (f :: fs) = held H fs := by simp [held_cons, hp, Point.locked]
  have after : held H ({ f with point := .search } :: fs) = mutexOf H f.lockKey :: held H fs :=
    held_cons
  have fresh : mutexOf H f.lockKey ∉ held H fs := by
    rw [← before, ← h.owner, hfree]
    exact nofun
  refine h.setOwner (fun m => ?_) ?_ (by rw [hp]; rfl) (by rw [hp]; rfl) (by rw [hp]; rfl)
  · rw [after, List.mem_cons, ← before, ← h.owner]
    by_cases hm : m = mutexOf H f.lockKey
    · simp [Locks.setOwner, hm]
    · simp [Locks.setOwner, hm]
  · rw [after, List.nodup_cons]
    exact ⟨fresh, before ▸ h.nodup⟩

theorem Accounts.unlockBucket {found : Option Entry} {b : Nat} (h : Accounts H k i (f :: fs))
    (hp : f.point = .unlockBucket found) :
    Accounts H (k.setOwner (mutexOf H f.lockKey) none) i
      ({ f with point := .unlockExpand b found } :: fs) := by
  have before : held H (f :: fs) = mutexOf H f.lockKey :: held H fs := by
    simp [held_cons, hp, Point.locked]
  have after : held H ({ f with point := .unlockExpand b found } :: fs) = held H fs := held_cons
  have nodup := h.nodup
  rw [before, List.nodup_cons] at nodup
  refine h.setOwner (fun m => ?_) ?_ (by rw [hp]; rfl) (by rw [hp]; rfl) (by rw [hp]; rfl)
  · rw [after]
    by_cases hm : m = mutexOf H f.lockKey
    · subst hm
      simpa [Locks.setOwner] using nodup.1
    · have owner := h.owner m
      rw [before, List.mem_cons, or_iff_right hm] at owner
      simpa [Locks.setOwner, hm] using owner
  · rw [after]
    exact nodup.2

/-- Only the number of read locks changes. -/
theorem Accounts.setReaders {rs : List Nat} (h : Accounts H k i (f :: fs))
    (hrs : rs.count i = reading ({ f with point := p } :: fs)) (hlocked : p.locked = f.point.locked)
    (hexpands : p.expands = f.point.expands) (hlinks : p.links = f.point.links) :
    Accounts H (k.setReaders rs) i ({ f with point := p } :: fs) where
  owner m := by
    refine (h.owner m).trans ?_
    rw [held_cons, held_cons, hlocked]
    rfl
  nodup := by
    have nodup := h.nodup
    rw [held_cons] at nodup ⊢
    rwa [hlocked]
  readers := hrs
  writer := by
    refine h.writer.trans ?_
    simp only [List.exists_mem_cons_iff, hexpands]
  link := by
    refine h.link.trans ?_
    simp only [List.exists_mem_cons_iff, hlinks]
  outer := h.outer

theorem Accounts.rdlockExpand (h : Accounts H k i (f :: fs)) (hp : f.point = .rdlockExpand) :
    Accounts H (k.setReaders (i :: k.readers)) i ({ f with point := .wrlockBucket } :: fs) := by
  refine h.setReaders ?_ ?_ ?_ ?_
  · rw [List.count_cons_self, h.readers]
    simp [reading_cons, hp, Point.reads, Point.locked]
  all_goals rw [hp]; rfl

theorem Accounts.unlockExpand {b : Nat} {found : Option Entry} (h : Accounts H k i (f :: fs))
    (hp : f.point = .unlockExpand b found) :
    Accounts H (k.setReaders (k.readers.erase i)) i ({ f with point := .test b found } :: fs) := by
  refine h.setReaders ?_ ?_ ?_ ?_
  · rw [List.count_erase_self, h.readers]
    simp [reading_cons, hp, Point.reads, Point.locked]
  all_goals rw [hp]; rfl

theorem Accounts.wrlockExpand {found : Option Entry} (h : Accounts H k i (f :: fs))
    (hp : f.point = .wrlockExpand found) :
    Accounts H (k.setWriter (some i)) i ({ f with point := .expand found } :: fs) := by
  have moved : Accounts H k i ({ f with point := .test 0 found } :: fs) := by
    apply h.move <;> rw [hp] <;> rfl
  refine ⟨moved.owner, moved.nodup, moved.readers, ?_, h.link.trans ?_, h.outer⟩
  · simp [Locks.setWriter, Point.expands]
  · simp [hp, Point.links]

theorem Accounts.expand {found : Option Entry} {b : Nat} (h : Accounts H k i (f :: fs))
    (hp : f.point = .expand found) :
    Accounts H (k.setWriter none) i ({ f with point := .test b found } :: fs) := by
  refine ⟨fun m => (h.owner m).trans ?_, ?_, h.readers.trans ?_, ?_, h.link.trans ?_, h.outer⟩
  · simp [held_cons, hp, Point.locked]
  · have nodup := h.nodup
    simpa [held_cons, hp, Point.locked] using nodup
  · simp [reading_cons, hp, Point.reads, Point.locked]
  · refine iff_of_false nofun ?_
    rintro ⟨g, hg, hexpands⟩
    rcases List.mem_cons.mp hg with rfl | hg
    · cases hexpands
    · exact h.outer_not (fun _ => rfl) hg hexpands
  · simp [hp, Point.links]

theorem Accounts.wrlockLink {new : Entry} (h : Accounts H k i (f :: fs))
    (hp : f.point = .wrlockLink new) :
    Accounts H (k.setLink (some i)) i ({ f with point := .link new } :: fs) := by
  have moved : Accounts H k i ({ f with point := .wrlockLink new } :: fs) := by
    apply h.move <;> rw [hp]
  refine ⟨moved.owner, moved.nodup, moved.readers, h.writer.trans ?_, ?_, h.outer⟩
  · simp [hp, Point.expands]
  · simp [Locks.setLink, Point.links]

theorem Accounts.link_unlock {new : Entry} (h : Accounts H k i (f :: fs))
    (hp : f.point = .link new) :
    Accounts H (k.setLink none) i ({ f with point := .addToBkt new } :: fs) := by
  refine ⟨fun m => (h.owner m).trans ?_, ?_, h.readers.trans ?_, h.writer.trans ?_, ?_, h.outer⟩
  · simp [held_cons, hp, Point.locked, Frame.lockKey]
  · have nodup := h.nodup
    simpa [held_cons, hp, Point.locked, Frame.lockKey] using nodup
  · simp [reading_cons, hp, Point.reads, Point.locked]
  · simp [hp, Point.expands]
  · refine iff_of_false nofun ?_
    rintro ⟨g, hg, hlinks⟩
    rcases List.mem_cons.mp hg with rfl | hg
    · cases hlinks
    · exact h.outer_not (fun _ => rfl) hg hlinks

/-- A call that holds nothing begins or ends. -/
theorem accounts_cons_iff (hlocked : f.point.reads = false) (hexpands : f.point.expands = false)
    (hlinks : f.point.links = false) (houter : ∀ g ∈ fs, ∃ te, g.point = .call te) :
    Accounts H k i (f :: fs) ↔ Accounts H k i fs := by
  have unlocked : f.point.locked = false := by
    cases hp : f.point <;> rw [hp] at hlocked <;> first | rfl | exact hlocked
  have hheld : held H (f :: fs) = held H fs := by rw [held_cons, unlocked]; rfl
  have hreading : reading (f :: fs) = reading fs := by rw [reading_cons, hlocked]; rfl
  have hany (q : Point → Bool) (hq : q f.point = false) :
      (∃ g ∈ f :: fs, q g.point) ↔ ∃ g ∈ fs, q g.point := by
    simp [hq]
  constructor
  · rintro ⟨howner, hnodup, hreaders, hwriter, hlink, -⟩
    rw [hheld] at howner hnodup
    exact ⟨howner, hnodup, hreaders.trans hreading, hwriter.trans (hany _ hexpands),
      hlink.trans (hany _ hlinks), fun g hg => houter g (List.mem_of_mem_tail hg)⟩
  · rintro ⟨howner, hnodup, hreaders, hwriter, hlink, -⟩
    rw [← hheld] at howner hnodup
    exact ⟨howner, hnodup, hreaders.trans hreading.symm, hwriter.trans (hany _ hexpands).symm,
      hlink.trans (hany _ hlinks).symm, houter⟩

end Operations

/-! ## Steps -/

section Steps

variable {H : Hashes} {k : Locks} {i : Nat} {f : Frame} {fs : List Frame} {s s' : State} {l : Label}

theorem Accounts.ret (h : Accounts H k i (f :: fs)) (hreads : f.point.reads = false)
    (hexpands : f.point.expands = false) (hlinks : f.point.links = false) :
    Accounts H k i (ret f fs) := by
  have popped := (accounts_cons_iff hreads hexpands hlinks h.outer).mp h
  cases fs with
  | nil => exact popped
  | cons g fs =>
    simp only [Threads.ret]
    split
    · next te t n a hg _ => apply popped.move <;> rw [hg] <;> rfl
    · exact popped

theorem Accounts.resume {found : Option Entry} (h : Accounts H k i (f :: fs))
    (hreads : f.point.reads = false) (hexpands : f.point.expands = false)
    (hlinks : f.point.links = false) : Accounts H k i (resume f fs found) := by
  cases found with
  | none => exact h.ret hreads hexpands hlinks
  | some te =>
    have unlocked : f.point.locked = false := by
      cases hp : f.point <;> rw [hp] at hreads <;> first | rfl | exact hreads
    exact h.move unlocked.symm hreads.symm hexpands.symm hlinks.symm

theorem Accounts.build (h : Accounts H k i (f :: fs)) (hp : f.point = .search) :
    Accounts H k i ({ f with point := build f.id false f.request } :: fs) := by
  apply h.move <;> rw [hp] <;> cases f.request <;> rfl

theorem Accounts.derive {te : Entry} {pad : Int} (h : Accounts H k i (f :: fs))
    (hp : f.point = .base false) : Accounts H k i (derive H pad f fs te) := by
  have linking (new : Entry) : Accounts H k i ({ f with point := .wrlockLink new } :: fs) := by
    apply h.move <;> rw [hp] <;> rfl
  unfold Threads.derive
  split
  · exact linking _
  · exact linking _
  · split
    · exact linking _
    · have calling : Accounts H k i ({ f with point := .call te } :: fs) := by
        apply h.move <;> rw [hp] <;> rfl
      refine (accounts_cons_iff rfl rfl rfl fun g hg => ?_).mpr calling
      rcases List.mem_cons.mp hg with rfl | hg
      · exact ⟨te, rfl⟩
      · exact h.outer g hg

/-- What a step of thread `i` does: it changes the calls and locks of that thread only, and these
agree afterwards. -/
structure Moves (H : Hashes) (i : Nat) (s s' : State) : Prop where
  others : ∀ j, j ≠ i → s'.calls j = s.calls j ∧ Apart j s.locks s'.locks
  accounts : Accounts H s'.locks i (s'.calls i)
  buckets : maxNumMutex ∣ s'.table.numBuckets

theorem Moves.set {t : State} (hcalls : t.calls = s.calls)
    (hapart : ∀ j, j ≠ i → Apart j s.locks t.locks) (haccounts : Accounts H t.locks i fs)
    (hbuckets : maxNumMutex ∣ t.table.numBuckets) : Moves H i s (t.set i fs) where
  others j hj := ⟨by rw [State.set_of_ne _ hj, hcalls], hapart j hj⟩
  accounts := by
    rw [State.set_self]
    exact haccounts
  buckets := hbuckets

theorem Accounted.moves (h : Accounted H s) (hm : Moves H i s s') : Accounted H s' where
  buckets := hm.buckets
  accounts j := by
    by_cases hj : j = i
    · subst hj
      exact hm.accounts
    · obtain ⟨hcalls, hapart⟩ := hm.others j hj
      rw [hcalls]
      exact (h.accounts j).apart hapart

theorem some_ne {i j : Nat} (h : j ≠ i) : some i ≠ some j := fun he => h (Option.some.inj he).symm

/-- One case for each point of a call. -/
theorem moves_advance (h : Accounted H s) (hkept : Kept l s) (hfresh : Fresh H l s)
    (hs : s.calls l.thread = f :: fs) (hst : advance H l s f fs = some s') : Moves H l.thread s s' := by
  have acc := h.accounts l.thread
  rw [hs] at acc
  have same : ∀ j, j ≠ l.thread → Apart j s.locks s.locks := fun _ _ => .refl
  have fresh := hfresh.owner_ne hs
  unfold advance at hst
  simp only [mutex_eq h.buckets] at hst fresh
  cases hp : f.point with
  | rdlockExpand =>
    rw [hp] at hst
    obtain ⟨-, rfl⟩ := Option.ite_some_none_eq_some.mp hst
    refine .set rfl (fun j hj => .setReaders ?_) (acc.rdlockExpand hp) h.buckets
    rw [List.count_cons_of_ne (Ne.symm hj)]
  | wrlockBucket =>
    rw [hp] at hst
    simp only [if_neg (fresh hp)] at hst
    obtain ⟨hfree, rfl⟩ := Option.ite_some_none_eq_some.mp hst
    refine .set rfl (fun j hj => .setOwner ?_ (some_ne hj)) (acc.wrlockBucket hp hfree) h.buckets
    rw [hfree]
    exact nofun
  | search =>
    rw [hp] at hst
    simp only at hst
    split at hst <;> cases hst
    · exact .set rfl same (acc.move (by rw [hp]; rfl) (by rw [hp]; rfl) (by rw [hp]; rfl)
        (by rw [hp]; rfl)) h.buckets
    · exact .set rfl same (acc.build hp) h.buckets
  | unlockBucket found =>
    rw [hp] at hst
    obtain ⟨howner, rfl⟩ := Option.ite_some_none_eq_some.mp hst
    refine .set rfl (fun j hj => .setOwner ?_ nofun) (acc.unlockBucket hp) h.buckets
    rw [howner]
    exact some_ne hj
  | unlockExpand bkt found =>
    rw [hp] at hst
    obtain ⟨-, rfl⟩ := Option.ite_some_none_eq_some.mp hst
    refine .set rfl (fun j hj => .setReaders ?_) (acc.unlockExpand hp) h.buckets
    rw [List.count_erase_of_ne hj]
  | test bkt found =>
    rw [hp] at hst
    simp only at hst
    split at hst <;> cases hst
    · exact .set rfl same (acc.move (by rw [hp]; rfl) (by rw [hp]; rfl) (by rw [hp]; rfl)
        (by rw [hp]; rfl)) h.buckets
    · exact .set rfl same (acc.resume (by rw [hp]; rfl) (by rw [hp]; rfl) (by rw [hp]; rfl))
        h.buckets
  | wrlockExpand found =>
    rw [hp] at hst
    obtain ⟨⟨hfree, -⟩, rfl⟩ := Option.ite_some_none_eq_some.mp hst
    refine .set rfl (fun j hj => .setWriter ?_ (some_ne hj)) (acc.wrlockExpand hp) h.buckets
    rw [hfree]
    exact nofun
  | expand found =>
    rw [hp] at hst
    cases hst
    have writer : s.locks.writer = some l.thread :=
      acc.writer.mpr ⟨f, List.mem_cons_self, by rw [hp]; rfl⟩
    have expanded := acc.expand (b := 0) hp
    have released : Accounts _ _ _ (resume _ _ found) := expanded.resume rfl rfl rfl
    refine .set rfl (fun j hj => .setWriter ?_ nofun) ?_ (h.buckets.mul_right 2)
    · rw [writer]
      exact some_ne hj
    · cases found <;> exact released
  | compare te =>
    rw [hp] at hst
    simp only at hst
    split at hst <;> cases hst
    · exact .set rfl same (acc.ret (by rw [hp]; rfl) (by rw [hp]; rfl) (by rw [hp]; rfl)) h.buckets
    · next hrej =>
      have fell : build f.id true f.request = .base true := by
        cases hreq : f.request with
        | ptr t => exact absurd (hkept.compare hs hp hreq) hrej
        | arr | gen => rfl
      rw [fell]
      refine .set rfl same ?_ h.buckets
      apply acc.move <;> rw [hp] <;> rfl
  | base fell =>
    rw [hp] at hst
    obtain ⟨te, hte, rfl⟩ := Option.map_eq_some_iff.mp hst
    obtain rfl := hkept.base hs hp hte
    exact .set rfl same (acc.derive hp) h.buckets
  | call te =>
    rw [hp] at hst
    cases hst
  | wrlockLink new =>
    rw [hp] at hst
    obtain ⟨hfree, rfl⟩ := Option.ite_some_none_eq_some.mp hst
    refine .set rfl (fun j hj => .setLink ?_ (some_ne hj)) (acc.wrlockLink hp) h.buckets
    rw [hfree]
    exact nofun
  | link new =>
    rw [hp] at hst
    cases hst
    have owner : s.locks.linkOwner = some l.thread :=
      acc.link.mpr ⟨f, List.mem_cons_self, by rw [hp]; rfl⟩
    refine .set rfl (fun j hj => .setLink ?_ nofun) (acc.link_unlock hp) h.buckets
    rw [owner]
    exact some_ne hj
  | addToBkt new =>
    rw [hp] at hst
    cases hst
    refine .set rfl same ?_ h.buckets
    apply acc.move <;> rw [hp] <;> cases f.request <;> rfl
  | setPointer =>
    rw [hp] at hst
    simp only at hst
    split at hst
    · split at hst <;> cases hst
      refine .set rfl same ?_ h.buckets
      apply acc.move <;> rw [hp] <;> rfl
    all_goals cases hst

theorem moves (h : Accounted H s) (hkept : Kept l s) (hfresh : Fresh H l s)
    (hst : step H l s = some s') : Moves H l.thread s s' := by
  unfold step at hst
  split at hst
  · next hs =>
    cases hst
    have acc := h.accounts l.thread
    rw [hs] at acc
    refine .set rfl (fun _ _ => .refl) ?_ h.buckets
    exact (accounts_cons_iff rfl rfl rfl fun _ hg => absurd hg List.not_mem_nil).mpr acc
  · next f fs hs => exact moves_advance h hkept hfresh hs hst

theorem Accounted.step (h : Accounted H s) (hkept : Kept l s) (hfresh : Fresh H l s)
    (hst : step H l s = some s') : Accounted H s' := h.moves (Threads.moves h hkept hfresh hst)

theorem Initial.accounted (h : Initial s) : Accounted H s where
  buckets := by
    obtain ⟨n, hn⟩ := h.numBuckets
    rw [hn]
    exact Nat.dvd_mul_right _ _
  accounts i := by
    rw [h.locks, h.calls]
    have free := (Option.some_ne_none i).symm
    have idle (q : Point → Bool) : ¬ ∃ f ∈ ([] : List Frame), q f.point :=
      fun ⟨_, hf, _⟩ => absurd hf List.not_mem_nil
    exact ⟨fun _ => iff_of_false free List.not_mem_nil, List.nodup_nil, rfl,
      iff_of_false free (idle _), iff_of_false free (idle _), fun _ hf => absurd hf List.not_mem_nil⟩

end Steps

/-! ## Calls after a step -/

/-- The point is a request for a lock that can be refused for long, or comes before one. -/
def Point.waits : Point → Bool
  | .rdlockExpand | .wrlockBucket | .wrlockExpand _ => true
  | _ => false

/-- The call is about to make a new entry. -/
def Point.builds : Point → Bool
  | .call _ | .wrlockLink _ | .link _ | .addToBkt _ => true
  | _ => false

/-- The new entry. -/
def Point.new? : Point → Option Entry
  | .wrlockLink new | .link new | .addToBkt new => some new
  | _ => none

/-- What a step makes of the calls `f :: fs` of its thread. -/
inductive Turn (H : Hashes) (l : Label) (s : State) (f : Frame) (fs : List Frame) :
    List Frame → Prop
  | lock : f.point = .rdlockExpand → Turn H l s f fs ({ f with point := .wrlockBucket } :: fs)
  | due {bkt : Nat} {found : Option Entry} : f.point = .test bkt found → s.table.due H bkt = true →
    Turn H l s f fs ({ f with point := .wrlockExpand found } :: fs)
  | plain {p : Point} : p.builds = false → p.waits = false →
    Turn H l s f fs ({ f with point := p } :: fs)
  | link {p : Point} {new : Entry} : f.point.new? = some new → p.new? = some new →
    Turn H l s f fs ({ f with point := p } :: fs)
  | build : f.point = .search → Turn H l s f fs ({ f with point := build f.id false f.request } :: fs)
  | fall {te : Entry} : f.point = .compare te → ¬ accepts te f.request = true →
    Turn H l s f fs ({ f with point := build f.id true f.request } :: fs)
  | resume (found : Option Entry) : Turn H l s f fs (resume f fs found)
  | derive {fell : Bool} {te : Entry} : f.point = .base fell →
    s.table.entries.find f.lockKey = some te → Turn H l s f fs (derive H l.pad f fs te)

theorem turn_advance {H : Hashes} {l : Label} {s s' : State} {f : Frame} {fs : List Frame}
    (hst : advance H l s f fs = some s') : Turn H l s f fs (s'.calls l.thread) := by
  unfold advance at hst
  cases hp : f.point with
  | rdlockExpand =>
    rw [hp] at hst
    obtain ⟨-, rfl⟩ := Option.ite_some_none_eq_some.mp hst
    exact State.set_self .. ▸ .lock hp
  | wrlockBucket =>
    rw [hp] at hst
    simp only at hst
    split at hst
    · cases hst
      exact State.set_self .. ▸ .plain rfl rfl
    · obtain ⟨-, rfl⟩ := Option.ite_some_none_eq_some.mp hst
      exact State.set_self .. ▸ .plain rfl rfl
  | unlockBucket | unlockExpand | wrlockExpand =>
    rw [hp] at hst
    obtain ⟨-, rfl⟩ := Option.ite_some_none_eq_some.mp hst
    exact State.set_self .. ▸ .plain rfl rfl
  | search =>
    rw [hp] at hst
    simp only at hst
    split at hst <;> cases hst
    · exact State.set_self .. ▸ .plain rfl rfl
    · exact State.set_self .. ▸ .build hp
  | test bkt found =>
    rw [hp] at hst
    simp only at hst
    split at hst <;> cases hst
    · next hdue => exact State.set_self .. ▸ .due hp hdue
    · exact State.set_self .. ▸ .resume found
  | expand found =>
    rw [hp] at hst
    cases hst
    exact State.set_self .. ▸ .resume found
  | compare te =>
    rw [hp] at hst
    simp only at hst
    split at hst <;> cases hst
    · exact State.set_self .. ▸ .resume none
    · next hrej => exact State.set_self .. ▸ .fall hp hrej
  | base fell =>
    rw [hp] at hst
    obtain ⟨te, hte, rfl⟩ := Option.map_eq_some_iff.mp hst
    exact State.set_self .. ▸ .derive hp hte
  | call te =>
    rw [hp] at hst
    cases hst
  | wrlockLink new =>
    rw [hp] at hst
    obtain ⟨-, rfl⟩ := Option.ite_some_none_eq_some.mp hst
    exact State.set_self .. ▸ .link (by rw [hp]; rfl) rfl
  | link new =>
    rw [hp] at hst
    cases hst
    exact State.set_self .. ▸ .link (by rw [hp]; rfl) rfl
  | addToBkt new =>
    rw [hp] at hst
    cases hst
    rw [State.set_self]
    refine .plain ?_ ?_ <;> cases f.request <;> rfl
  | setPointer =>
    rw [hp] at hst
    simp only at hst
    split at hst
    · split at hst <;> cases hst
      exact State.set_self .. ▸ .plain rfl rfl
    all_goals cases hst

end CStrider.Types.Threads
