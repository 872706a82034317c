import CStrider.Mapping.Table
import CStrider.TaskQueue.Quiescence
import CStrider.Types.Table

/-!
# Sessions in one process (`init`, `visit_all`, `finish`)

The run-control state of the library is spread over static variables of `queue.c`, `transform.c`
and `cstrider_api.c`. A session takes it through `init`, a parallel traversal in which the threads
move by the steps of the task queues while they enter mappings and types, and `finish`. The tables
that the traversal fills are left open (`Complete`): whatever the traversal put there, `finish`
empties them.

All parts but one come back to where `init` found them: nothing ever clears `allqdone`.
-/

namespace CStrider.Session

open TaskQueue (Queue State initQueue launched)
open CStrider.Types (Generated Typ TypeTable typeInit)
open Mapping (Ptr Table seed addMapping)

/-- `NUM_THREADS` (`transform.c`). -/
abbrev NUM_THREADS : Nat := 4

/-- What the generator gives to a program: the arrays of the type table, with the initial
`ptsto_type_array`, and the root functions `visitalls`; and the hash of the mapping table. -/
structure Program where
  generated : Generated
  ptstoTypeArray : Typ → Typ
  visitalls : List Nat
  bucket : Ptr → Nat

/-- The static variables that control a session. A queue is `none` while its storage was never
initialised; an empty mapping table is `pxform_mappings_head == NULL`. -/
structure RunControl where
  isParallel : Bool
  queueArray : Nat → Option Queue
  allqdone : Bool
  launchedHelpers : Bool
  mappings : Table
  typeTable : TypeTable
  ptstoTypeArray : Typ → Typ
  visitAllHash : List Nat

section Operations

variable (P : Program)

/-- The state of the process before the first `init`. -/
def boot : RunControl where
  isParallel := false
  queueArray _ := none
  allqdone := false
  launchedHelpers := false
  mappings _ := []
  typeTable := []
  ptstoTypeArray := P.ptstoTypeArray
  visitAllHash := []

/-- `cstrider_type_init`. -/
def cstriderTypeInit (rc : RunControl) : RunControl :=
  let r := typeInit P.generated rc.typeTable rc.ptstoTypeArray
  { rc with typeTable := r.1, ptstoTypeArray := r.2 }

/-- `populate_visit_all`: one entry for each generated root, newest last. -/
def populateVisitAll (rc : RunControl) : RunControl :=
  { rc with visitAllHash := rc.visitAllHash ++ P.visitalls }

/-- `init_parallel_tbls`. -/
def initParallelTbls (rc : RunControl) : RunControl :=
  { rc with mappings := addMapping P.bucket rc.mappings seed seed }

/-- `transform_init`. -/
def transformInit (parallel : Bool) (rc : RunControl) : RunControl :=
  let rc := populateVisitAll P (cstriderTypeInit P { rc with isParallel := parallel })
  if parallel then initParallelTbls P rc else rc

/-- `launch_helpers`, which does nothing when the helpers run already. -/
def launchHelpers (rc : RunControl) : RunControl :=
  if rc.launchedHelpers then rc
  else
    { rc with
      launchedHelpers := true
      queueArray := fun i =>
        if i < (if rc.isParallel then NUM_THREADS else 1) then some initQueue
        else rc.queueArray i }

/-- `init`. -/
def init (parallel : Bool) (rc : RunControl) : RunControl :=
  launchHelpers (transformInit P parallel rc)

/-- `transform_free`: `cstrider_type_free`, `cstrider_visit_free`, `clear_pxform_mappings_head`. -/
def transformFree (rc : RunControl) : RunControl :=
  { rc with typeTable := [], visitAllHash := [], mappings := fun _ => [] }

/-- `finish`, once all threads have left `processqueue` and are joined. -/
def finish (rc : RunControl) : RunControl :=
  transformFree { rc with launchedHelpers := false }

end Operations

/-- The threads at the start of a parallel traversal from `rc`: the helpers are launched on the
queues of `rc`, and the main thread is back from `init`. -/
def threads (rc : RunControl) : State :=
  { launched NUM_THREADS rc.allqdone with queue := fun i => (rc.queueArray i).getD initQueue }

/-- The traversal from `rc` can end in the thread state `s`: all threads have left their loop. -/
def Ends (rc : RunControl) (s : State) : Prop :=
  (TaskQueue.session NUM_THREADS rc.allqdone).Later (threads rc) s ∧
    ∀ i < NUM_THREADS, s.pc i = .left

/-- A complete parallel session takes `rc` to `rc'`. -/
def Complete (P : Program) (rc rc' : RunControl) : Prop :=
  ∃ s mappings typeTable, Ends (init P true rc) s ∧
    rc' = finish { init P true rc with
      queueArray := fun i => if i < NUM_THREADS then some (s.queue i) else none
      allqdone := s.allqdone
      mappings := mappings
      typeTable := typeTable }

/-- `k` complete parallel sessions, one after another, lead to `rc`. -/
inductive Sessions (P : Program) : Nat → RunControl → Prop where
  | boot : Sessions P 0 (boot P)
  | next {k : Nat} {rc rc' : RunControl} : Sessions P k rc → Complete P rc rc' →
      Sessions P (k + 1) rc'

/-- The session that follows `rc` starts its traversal from the state of the first session, and
executes every task that is enqueued in it exactly once. -/
def Independent (P : Program) (rc : RunControl) : Prop :=
  init P true rc = init P true (boot P) ∧
    ∀ s, Ends (init P true rc) s → ∀ x, s.executed.count x = if x ∈ s.enqueued then 1 else 0

/-! ## What a session restores -/

section Restore

variable {P : Program} {k : Nat} {rc rc' : RunControl} {s : State}

/-- The state between sessions: empty tables, no helpers, and a `ptsto_type_array` as the
generator wrote it or as one `cstrider_type_init` left it. -/
structure Idle (P : Program) (k : Nat) (rc : RunControl) : Prop where
  launchedHelpers : rc.launchedHelpers = false
  mappings : rc.mappings = fun _ => []
  typeTable : rc.typeTable = []
  visitAllHash : rc.visitAllHash = []
  ptsto : rc.ptstoTypeArray = P.ptstoTypeArray ∨
    rc.ptstoTypeArray = (typeInit P.generated [] P.ptstoTypeArray).2
  queueArray : ∀ i, NUM_THREADS ≤ i → rc.queueArray i = none
  allqdone : rc.allqdone = decide (k ≠ 0)

theorem Idle.typeInit (h : Idle P k rc) :
    Types.typeInit P.generated rc.typeTable rc.ptstoTypeArray
      = Types.typeInit P.generated [] P.ptstoTypeArray := by
  rw [h.typeTable]
  rcases h.ptsto with hp | hp <;> rw [hp]
  exact Types.typeInit_again

/-- **What a later session starts from**: the state of the first session, but for `allqdone`. -/
theorem Idle.init (h : Idle P k rc) :
    init P true rc = { init P true (boot P) with allqdone := decide (k ≠ 0) } := by
  have hq : (fun i => if i < NUM_THREADS then some initQueue else rc.queueArray i)
      = fun i => if i < NUM_THREADS then some initQueue else none := by
    funext i
    split
    · rfl
    · next hi => exact h.queueArray i (Nat.le_of_not_lt hi)
  simp [Session.init, launchHelpers, transformInit, initParallelTbls, populateVisitAll,
    cstriderTypeInit, boot, h.launchedHelpers, h.mappings, h.visitAllHash, h.allqdone, h.typeInit, hq]

theorem Idle.threads (h : Idle P k rc) :
    threads (Session.init P true rc) = launched NUM_THREADS (decide (k ≠ 0)) := by
  rw [h.init]
  have hq : (fun i : Nat => (if i < NUM_THREADS then some initQueue else none : Option Queue).getD
      initQueue) = fun _ => initQueue := by
    funext i
    split <;> rfl
  simp [Session.threads, Session.init, launchHelpers, transformInit, initParallelTbls,
    populateVisitAll, cstriderTypeInit, boot, hq, launched]

theorem Idle.reach (h : Idle P k rc) (he : Ends (Session.init P true rc) s) :
    (TaskQueue.session NUM_THREADS (decide (k ≠ 0))).Reach s := by
  obtain ⟨hl, -⟩ := he
  rw [h.threads, h.init] at hl
  exact (Sys.Reach.init rfl).later hl

theorem idle_boot : Idle P 0 (boot P) :=
  ⟨rfl, rfl, rfl, rfl, .inl rfl, fun _ _ => rfl, rfl⟩

/-- A complete session restores everything but `allqdone`, which it sets. -/
theorem Idle.next (h : Idle P k rc) (hc : Complete P rc rc') : Idle P (k + 1) rc' := by
  obtain ⟨s, m, tt, he, rfl⟩ := hc
  have hdone : s.allqdone = true :=
    (TaskQueue.Safe.reach (h.reach he)).leaving 0 (by rw [he.2 0 (by decide)]; trivial)
  refine ⟨rfl, rfl, rfl, rfl, .inr ?_, fun i hi => if_neg (Nat.not_lt.mpr hi), ?_⟩
  · have := congrArg RunControl.ptstoTypeArray h.init
    exact this.trans rfl
  · simp [finish, transformFree, hdone]

theorem Sessions.idle (h : Sessions P k rc) : Idle P k rc := by
  induction h with
  | boot => exact idle_boot
  | next _ hc ih => exact ih.next hc

/-- **Only the first session is independent.** After `k` complete sessions the next one starts
where the first one did, and executes every task exactly once, if and only if `k` is `0`. -/
theorem independent_iff (h : Sessions P k rc) : Independent P rc ↔ k = 0 := by
  constructor
  · rintro ⟨hstart, -⟩
    have hdone := congrArg RunControl.allqdone (h.idle.init.symm.trans hstart)
    simpa [Session.init, launchHelpers, transformInit, initParallelTbls, populateVisitAll,
      cstriderTypeInit, boot] using hdone
  · rintro rfl
    refine ⟨?_, fun s he => ?_⟩
    · rw [h.idle.init]
      simp [Session.init, launchHelpers, transformInit, initParallelTbls, populateVisitAll,
        cstriderTypeInit, boot]
    · exact TaskQueue.executed_of_left (h.idle.reach he) (he.2 0 (by decide))

/-! ### Two sessions -/

def plainProgram : Program where
  generated := Types.plainTypes
  ptstoTypeArray _ := -1
  visitalls := []
  bucket := id

theorem first_session_independent : Independent plainProgram (boot plainProgram) :=
  (independent_iff .boot).mpr rfl

/-- `k` steps of thread `i` that enqueue nothing. -/
def turns (i k : Nat) : List TaskQueue.Label := List.replicate k ⟨i, false⟩

/-- A first session without tasks: all threads start, and helper `0` finds all queues empty. -/
def firstRun : List TaskQueue.Label :=
  turns 0 3 ++ turns 1 3 ++ turns 2 3 ++ turns 3 4 ++ turns 0 29 ++ turns 1 4 ++ turns 2 4 ++
    turns 3 4

/-- A second session: the helpers leave at once, and so does the main thread after it enqueued a
task for the queue of helper `0`. -/
def secondRun : List TaskQueue.Label :=
  turns 0 7 ++ turns 1 7 ++ turns 2 7 ++ [⟨3, true⟩] ++ turns 3 17

theorem second_session_loses_task : ∃ rc, Sessions plainProgram 1 rc ∧
    ¬ Independent plainProgram rc ∧
    ∃ s, Ends (init plainProgram true rc) s ∧ s.enqueued = [0] ∧ s.executed = [] := by
  have left : ∀ {s : State}, (∀ i ∈ List.range NUM_THREADS, s.pc i = .left) →
      ∀ i < NUM_THREADS, s.pc i = .left := fun h i hi => h i (List.mem_range.mpr hi)
  obtain ⟨s, hl, hs⟩ : ∃ s, (TaskQueue.session NUM_THREADS false).Later
      (launched NUM_THREADS false) s ∧ ∀ i ∈ List.range NUM_THREADS, s.pc i = .left :=
    Sys.exists_later (show (Sys.run _ firstRun _).any _ = true by decide +kernel)
  obtain ⟨s₂, hl₂, hs₂, hq⟩ : ∃ s, (TaskQueue.session NUM_THREADS true).Later
      (launched NUM_THREADS true) s ∧ ((∀ i ∈ List.range NUM_THREADS, s.pc i = .left) ∧
        s.enqueued = [0] ∧ s.executed = []) :=
    Sys.exists_later (show (Sys.run _ secondRun _).any _ = true by decide +kernel)
  have hends : Ends (init plainProgram true (boot plainProgram)) s := by
    refine ⟨?_, left hs⟩
    rw [idle_boot.threads, idle_boot.init]
    exact hl
  obtain ⟨rc, h⟩ : ∃ rc, Sessions plainProgram 1 rc :=
    ⟨_, .next .boot ⟨s, fun _ => [], [], hends, rfl⟩⟩
  have hends₂ : Ends (init plainProgram true rc) s₂ := by
    refine ⟨?_, left hs₂⟩
    rw [h.idle.threads, h.idle.init]
    exact hl₂
  refine ⟨rc, h, fun hi => ?_, s₂, hends₂, hq⟩
  have := hi.2 s₂ hends₂ 0
  rw [hq.1, hq.2] at this
  cases this

end Restore

end CStrider.Session
