import CStrider.Traversal.Locations

/-!
# The machine is a worklist traversal

One action of the machine takes one node from the worklist, or ends the session. `Acts` is what an
action on a node does to a session that goes on, one lemma for each branch of `visit`, and
`step_refines` puts them together.
-/

namespace CStrider.Traversal

open Mapping (Ptr Table findMapping addMapping findMapping_addMapping findMapping_empty)
open TaskQueue (QUEUESIZE)
open CStrider.Types (Typ Entry TypeTable Func TYPE_FUNPTR)

/-- The keys of the mapping table. -/
def marked (E : Env) (t : Table) : Set Ptr := fun k => findMapping E.bucket t k ≠ 0

/-- What a new mapping marks. -/
theorem marked_add {E : Env} {t : Table} {p q : Ptr} (hp : p ≠ 0) (hq : q ≠ 0)
    (h : findMapping E.bucket t p = 0) :
    marked E (addMapping E.bucket t p q) = insert p (marked E t) := by
  ext k
  rw [Set.mem_insert_iff]
  show findMapping E.bucket _ k ≠ 0 ↔ k = p ∨ findMapping E.bucket t k ≠ 0
  rw [findMapping_addMapping]
  by_cases hk : k = p
  · rw [if_pos ⟨hk, hp, h⟩]
    exact ⟨fun _ => .inl hk, fun _ => hq⟩
  · rw [if_neg fun h => hk h.1]
    exact ⟨.inr, fun h => h.resolve_left hk⟩

namespace Program

variable (P : Program) {σ : Type}

def GoodTask (t : Task) : Prop := t.issplit = false ∧ P.Valid t.node

/-- Frames and tasks are where they belong. -/
structure Wf (s : State σ) : Prop where
  stack : ∀ f ∈ s.stack, P.Valid f.node
  queue : ∀ t ∈ s.queue.contents, P.GoodTask t

variable (heap : Ptr → Option Ptr) (now : (Ptr → Option Ptr) → Node → Prop)
  (ans : Ptr → Typ → Bool → Prop)

/-- What an action that takes node `n` does to a session that goes on. -/
structure Acts (n : Node) (s s' : State σ) : Prop where
  put : ∃ fs ts, s'.stack = fs ++ s.stack ∧ s'.queue.contents = s.queue.contents ++ ts ∧
    (∀ f ∈ fs, P.Valid f.node) ∧ (∀ t ∈ ts, P.GoodTask t) ∧
    (P.worklist heap now ans).Take (marked P.toEnv s.mappings) n
      (fs.map Frame.node + ts.map Task.node) (marked P.toEnv s'.mappings)
  visits : s'.visits = s.visits

/-- An action on `n`, unless it ends the session. -/
def Act (n : Node) (s s' : State σ) : Prop :=
  s'.status = .running → P.Acts heap now ans n s s'

variable {P heap now ans} {s s' : State σ} {a x : Ptr} {t : Typ} {te : Entry} {n : Node}

theorem Act.stop {st : Status} (h : st ≠ .running) : P.Act heap now ans n s (s'.stop st) :=
  fun hr => absurd hr h

/-- A node without a key that leads to `fs` on the stack. -/
theorem Acts.push (fs : List Frame) (hkey : P.key heap n = none) (hv : P.Valid n)
    {m : Ptr → Option Ptr} (hnow : now m n) (go : Bool)
    (hans : ∀ a t, n = .visit a t → ans a t go)
    (hsucc : (fs.map Frame.node : Multiset Node) = P.succ m go n)
    (valid : ∀ f ∈ fs, P.Valid f.node) (hmap : s'.mappings = s.mappings)
    (hstack : s'.stack = fs ++ s.stack) (hqueue : s'.queue = s.queue)
    (hvisits : s'.visits = s.visits) : P.Acts heap now ans n s s' where
  put := by
    refine ⟨fs, [], hstack, by rw [hqueue, List.append_nil], valid, by simp, ?_⟩
    rw [hmap]
    refine .free hkey ⟨hv, m, go, hnow, hans, ?_⟩
    rw [← hsucc]
    simp
  visits := hvisits

/-- A node that leads to nothing. -/
theorem Acts.nothing (hkey : P.key heap n = none) (hv : P.Valid n) {m : Ptr → Option Ptr}
    (hnow : now m n) (go : Bool) (hans : ∀ a t, n = .visit a t → ans a t go)
    (hsucc : P.succ m go n = 0) (hmap : s'.mappings = s.mappings)
    (hstack : s'.stack = s.stack) (hqueue : s'.queue = s.queue)
    (hvisits : s'.visits = s.visits) : P.Acts heap now ans n s s' :=
  .push [] hkey hv hnow go hans hsucc.symm (by simp) hmap hstack hqueue hvisits

theorem visit_inj {a b : Ptr} {t u : Typ} (h : Node.visit a t = .visit b u) : a = b ∧ t = u := by
  cases h
  exact ⟨rfl, rfl⟩

theorem ans_visit {go : Bool} (h : ans a t go) :
    ∀ b u, Node.visit a t = .visit b u → ans b u go := by
  intro b u hn
  obtain ⟨rfl, rfl⟩ := visit_inj hn
  exact h

/-! ## The branches of `visit` -/

section Visit

variable {cb : Callbacks σ}

theorem transformSplitArray_sequential {E : Env} (h : E.parallel = false) (s : State σ) :
    transformSplitArray E a t x s = transformArray E a t x s := by
  unfold transformSplitArray
  rw [h]
  rfl

theorem transformArray_act {m : Ptr → Option Ptr} (hk : P.kind t = .array te)
    (hnow : now m (.visit a t)) (h : ∃ go, ans a t go) :
    P.Act heap now ans (.visit a t) s (transformArray P.toEnv a t x s) := by
  obtain ⟨go, hans⟩ := h
  unfold transformArray
  rw [Env.find_of_kind (.inr (.inl hk))]
  dsimp only
  cases getOutSize P.types te with
  | none => exact Act.stop (by simp)
  | some szOut =>
    intro _
    refine .push _ (by simp [Env.key, hk]) trivial hnow go (ans_visit hans) ?_ ?_ rfl rfl rfl
      rfl
    · simp [Env.succ, hk, Env.elems, Frame.node, Function.comp_def]
    · intro f hf
      obtain ⟨i, _, rfl⟩ := List.mem_map.mp hf
      exact trivial

theorem visitStruct_act (hcb : Conforms P.toEnv cb heap now ans)
    (hnow : now s.world.mem (.visit a t)) (hk : P.kind t = .struct te) :
    P.Act heap now ans (.visit a t) s (visitStruct cb a t x s) := by
  have answer : ans a t (decide ((cb.perfactionStruct a t x s.world).1 ≠ 0)) := hcb.struct hk
  have key : P.key heap (.visit a t) = none := by simp [Env.key, hk]
  unfold visitStruct
  generalize cb.perfactionStruct a t x s.world = r at answer
  dsimp only
  split
  · next hr =>
    unfold transformMakeEnq
    split
    · next ha =>
      intro _
      exact .nothing key trivial hnow _ (ans_visit answer) (by simp [Env.succ, hk, ha]) rfl rfl
        rfl rfl
    · next ha =>
      rw [addtoqueue_some]
      split
      · next hq =>
        refine fun _ => ⟨⟨[], [⟨a, t, x, false⟩], rfl, ?_, by simp, ?_, ?_⟩, rfl⟩
        · exact Ring.contents_push _ _ hq
        · intro t' ht'
          obtain rfl := List.mem_singleton.mp ht'
          exact ⟨rfl, te, hk⟩
        · refine .free key ⟨trivial, _, _, hnow, ans_visit answer, ?_⟩
          simp [Env.succ, hk, ha, hr, Task.node]
      · exact Act.stop (by simp)
  · next hr =>
    intro _
    exact .nothing key trivial hnow _ (ans_visit answer) (by simp [Env.succ, hk, not_not.mp hr])
      rfl rfl rfl rfl

theorem key_ptr {p : Ptr} (hk : P.kind t = .ptr te) (ha : a ≠ 0) (hp : heap a = some p) :
    P.key heap (.visit a t) = if p = 0 then none else some p := by
  simp [Env.key, hk, ha, hp, Option.filter_some]

theorem ptr_of_key {q : Ptr} (hkey : P.key heap n = some q) :
    ∃ a t te, n = .visit a t ∧ P.kind t = .ptr te ∧ a ≠ 0 ∧ heap a = some q ∧ q ≠ 0 := by
  cases n with
  | visit a t =>
    simp only [Env.key] at hkey
    split at hkey
    · next te hk =>
      split at hkey
      · cases hkey
      · next ha =>
        obtain ⟨hp, hq⟩ := Option.filter_eq_some_iff.mp hkey
        exact ⟨a, t, te, rfl, hk, ha, hp, by simpa using hq⟩
    · cases hkey
  | stmt gen c a => cases hkey
  | task a t => cases hkey

/-- A value that is new to the mapping table; `perfaction_ptr` was called in memory `m`. -/
theorem followPtr_act {p : Ptr} {retc : Int} {m : Ptr → Option Ptr} (hk : P.kind t = .ptr te)
    (ha : a ≠ 0) (hnow : now m (.visit a t)) (hm : m a = some p) (hheap : heap a = some p)
    (hin : s.world.mem a = some p) (hout : p ≠ 0 → s.world.mem x ≠ some 0)
    (hl : findMapping P.bucket s.mappings p = 0) (hans : ans a t (decide (retc ≠ 0))) :
    P.Act heap now ans (.visit a t) s (followPtr P.toEnv te a x retc s) := by
  have key := key_ptr hk ha hheap
  unfold followPtr
  rw [hin]
  cases hq : s.world.mem x with
  | none => exact Act.stop (by simp)
  | some q =>
    intro _
    have hnext : (P.worklist heap now ans).next (.visit a t)
        (((if retc = 0 ∨ memoizedIsFunptr te then [] else [Frame.visit p te.targetType q]).map
          Frame.node : List Node) + (([] : List Task).map Task.node : List Node)) := by
      refine ⟨trivial, m, _, hnow, ans_visit hans, ?_⟩
      by_cases hr : retc = 0 ∨ memoizedIsFunptr te
      · rcases hr with hr | hr <;> simp [Env.succ, hk, hr]
      · obtain ⟨h0, hf⟩ := not_or.mp hr
        simp [Env.succ, hk, ha, h0, hf, hm, Frame.node]
    have heq : (if retc = 0 ∨ memoizedIsFunptr te then
          { s with mappings := addMapping P.bucket s.mappings p q }
        else { s with mappings := addMapping P.bucket s.mappings p q }.push
          [.visit p te.targetType q]) =
        { s with
          mappings := addMapping P.bucket s.mappings p q
          stack := (if retc = 0 ∨ memoizedIsFunptr te then [] else [.visit p te.targetType q]) ++
            s.stack } := by
      split <;> rfl
    dsimp only
    rw [heq]
    refine ⟨⟨_, [], rfl, (List.append_nil _).symm, ?_, by simp, ?_⟩, rfl⟩
    · intro f hf
      split at hf
      · exact absurd hf List.not_mem_nil
      · rw [List.mem_singleton.mp hf]
        exact trivial
    · by_cases hp0 : p = 0
      · have hmap : addMapping P.bucket s.mappings p q = s.mappings := by
          rw [addMapping, if_pos hp0]
        rw [hmap]
        exact .free (key.trans (if_pos hp0)) hnext
      · have hq0 : q ≠ 0 := by
          rintro rfl
          exact hout hp0 hq
        rw [marked_add hp0 hq0 hl]
        exact .first (key.trans (if_neg hp0)) (fun h => h hl) hnext

theorem visitPtr_act (hcb : Conforms P.toEnv cb heap now ans)
    (hnow : now s.world.mem (.visit a t)) (hk : P.kind t = .ptr te) :
    P.Act heap now ans (.visit a t) s (visitPtr P.toEnv cb te a t x s) := by
  unfold visitPtr
  by_cases ha : a = 0
  · rw [if_pos ha]
    obtain ⟨go, hgo⟩ := hcb.any a t
    intro _
    exact .nothing (by simp [Env.key, hk, ha]) trivial hnow go (ans_visit hgo)
      (by simp [Env.succ, hk, ha]) rfl rfl rfl rfl
  rw [if_neg ha]
  cases hp : s.world.mem a with
  | none => exact Act.stop (by simp)
  | some p =>
    have hheap := hcb.reads hnow hk hp
    dsimp only
    split
    · next hl =>
      generalize cb.perfactionPtrMapped a t (findMapping P.bucket s.mappings p) s.world = r
      have hp0 : p ≠ 0 := by
        rintro rfl
        exact hl Mapping.findMapping_null
      split
      · refine fun _ => ⟨⟨[], [], rfl, (List.append_nil _).symm, by simp, by simp, ?_⟩,
          rfl⟩
        exact .again ((key_ptr hk ha hheap).trans (if_neg hp0)) hl
      · exact Act.stop (by simp)
    · next hl =>
      have answer : ans a t (decide ((cb.perfactionPtr a t x s.world).1 ≠ 0)) := hcb.ptr hnow hk hp
      have hin : (cb.perfactionPtr a t x s.world).2.mem a = some p := (hcb.ptr_in hnow hk).trans hp
      have hout : p ≠ 0 → (cb.perfactionPtr a t x s.world).2.mem x ≠ some 0 :=
        hcb.ptr_out hnow hk hp
      generalize cb.perfactionPtr a t x s.world = r at answer hin hout
      intro hrun
      have acts := followPtr_act (s := { s with world := r.2 }.note (.ptr a t)) hk ha hnow hp hheap
        hin hout (not_not.mp hl) answer hrun
      exact ⟨acts.put, acts.visits⟩

theorem visit_act (hcb : Conforms P.toEnv cb heap now ans)
    (hnow : now s.world.mem (.visit a t)) :
    P.Act heap now ans (.visit a t) { s with visits := (a, t) :: s.visits }
      (visit P.toEnv cb a t x s) := by
  obtain ⟨go, hgo⟩ := hcb.any a t
  rw [visit_kind]
  cases hk : P.kind t with
  | system =>
    intro _
    exact .nothing (by simp [Env.key, hk]) trivial hnow go (ans_visit hgo) (by simp [Env.succ, hk])
      rfl rfl rfl rfl
  | prim =>
    intro _
    exact .nothing (by simp [Env.key, hk]) trivial hnow go (ans_visit hgo) (by simp [Env.succ, hk])
      rfl rfl rfl rfl
  | missing => exact Act.stop (by simp)
  | ptr te => exact visitPtr_act hcb hnow hk
  | array te =>
    dsimp only
    rw [transformSplitArray_sequential P.sequential]
    exact transformArray_act hk hnow ⟨go, hgo⟩
  | struct te => exact visitStruct_act hcb hnow hk

end Visit

/-! ## Statements and tasks -/

theorem runStmt_act {gen : Typ} {c : FieldVisit} (hv : P.Valid (.stmt gen c a))
    (hnow : now s.world.mem (.stmt gen c a)) :
    P.Act heap now ans (.stmt gen c a) s (runStmt c a x s) := by
  unfold runStmt
  cases ht : c.type s.world.mem a with
  | none => exact Act.stop (by simp)
  | some t =>
    intro _
    refine .push _ rfl hv hnow true (fun _ _ h => by cases h) ?_ ?_ rfl rfl rfl
      rfl
    · simp [Env.succ, ht, Frame.node]
    · intro f hf
      rw [List.mem_singleton.mp hf]
      exact trivial

theorem callxformer_act {task : Task} (ht : P.GoodTask task) (hnow : now s.world.mem task.node) :
    P.Act heap now ans task.node s (callxformer P.toEnv task s) := by
  obtain ⟨a, t, x, issplit⟩ := task
  obtain ⟨hsplit, te, hk⟩ := ht
  dsimp only at hsplit hk hnow
  subst hsplit
  have hfind := Env.find_of_kind (.inr (.inr hk))
  have nobody : ∀ b u, Node.task a t = .visit b u → ans b u true := fun _ _ h => by cases h
  -- a function that visits the task again
  have again : P.succ s.world.mem true (.task a t) = {.visit a t} →
      P.Act heap now ans (.task a t) s (s.push [.visit a t x]) := by
    intro hsucc _
    refine .push [.visit a t x] rfl ⟨te, hk⟩ hnow true nobody hsucc.symm ?_ rfl rfl rfl
      rfl
    intro f hf
    rw [List.mem_singleton.mp hf]
    exact trivial
  unfold callxformer
  simp only [hfind, Bool.false_eq_true, if_false]
  cases hf : te.func with
  | transformPrim => exact again (by simp [Env.succ, hk, hf])
  | transformFptr => exact again (by simp [Env.succ, hk, hf])
  | generated n =>
    intro _
    refine .push _ rfl ⟨te, hk⟩ hnow true nobody ?_ ?_ rfl rfl rfl rfl
    · simp [Task.node, Env.succ, hk, hf, Function.comp_def, Frame.node]
    · intro f hmem
      obtain ⟨c, hc, rfl⟩ := List.mem_map.mp hmem
      exact ⟨te, n, hk, hf, hc⟩

/-! ## A step -/

end Program

/-- The worklist state `w` that session state `s` stands for. -/
structure Follows {σ : Type} (E : Env) (s : State σ) (w : Worklist.State Node Ptr) : Prop where
  pending : w.pending = s.stack.map Frame.node + s.queue.contents.map Task.node
  marked : w.marked = marked E s.mappings
  seen : w.seen.filterMap Node.visited = s.visits

namespace Program

variable {P : Program} {σ : Type} {heap : Ptr → Option Ptr} {now : (Ptr → Option Ptr) → Node → Prop}
  {ans : Ptr → Typ → Bool → Prop} {s s' : State σ} {n : Node}

/-- An action takes the node whose frame or task was taken off. -/
theorem Acts.follows {s₀ : State σ} {w : Worklist.State Node Ptr}
    (h : P.Acts heap now ans n s s') (hw : Follows P.toEnv s₀ w) (hmap : s.mappings = s₀.mappings)
    (hpending : (s₀.stack.map Frame.node + s₀.queue.contents.map Task.node : Multiset Node) =
      n ::ₘ (s.stack.map Frame.node + s.queue.contents.map Task.node))
    (hvisits : s.visits = n.visited.toList ++ s₀.visits) :
    ∃ w', (P.worklist heap now ans).Step w w' ∧ Follows P.toEnv s' w' := by
  obtain ⟨fs, ts, hstack, hqueue, _, _, take⟩ := h.put
  rw [hmap, ← hw.marked] at take
  refine ⟨⟨_, _, n ::ₘ w.seen⟩, ⟨n, _, _, hw.pending.trans hpending, take, rfl, rfl⟩, ?_, rfl, ?_⟩
  · rw [hstack, hqueue]
    simp only [List.map_append, ← Multiset.coe_add]
    rw [add_comm (s.queue.contents.map Task.node : Multiset Node)]
    exact add_add_add_comm (fs.map Frame.node : Multiset Node) _ _ _
  · rw [h.visits, hvisits]
    cases hv : n.visited with
    | none => rw [Multiset.filterMap_cons_none _ _ hv, hw.seen, Option.toList_none, List.nil_append]
    | some v =>
      rw [Multiset.filterMap_cons_some _ _ _ hv, hw.seen, Option.toList_some, List.singleton_append,
        Multiset.cons_coe]

theorem Acts.wf (h : P.Acts heap now ans n s s') (hs : P.Wf s) : P.Wf s' := by
  obtain ⟨fs, ts, hstack, hqueue, hfs, hts, _⟩ := h.put
  refine ⟨?_, ?_⟩
  · intro f hf
    rw [hstack] at hf
    exact (List.mem_append.mp hf).elim (hfs f) (hs.stack f)
  · intro t ht
    rw [hqueue] at ht
    exact (List.mem_append.mp ht).elim (hs.queue t) (hts t)

/-- A step of a session that goes on is a step of the worklist traversal. -/
theorem step_refines {cb : Callbacks σ} (hcb : Conforms P.toEnv cb heap now ans) (hs : P.Wf s)
    (hnow : ∀ n, s.nextNode = some n → now s.world.mem n)
    (hstep : step P.toEnv cb s = some s') (hrun : s'.status = .running) :
    P.Wf s' ∧ ∀ w, Follows P.toEnv s w →
      ∃ w', (P.worklist heap now ans).Step w w' ∧ Follows P.toEnv s' w' := by
  unfold step at hstep
  split at hstep
  · cases hstep
  split at hstep
  · next a t x fs hstack =>
    have hs₀ : P.Wf { s with stack := fs } :=
      ⟨fun f hf => hs.stack f (hstack ▸ List.mem_cons_of_mem _ hf), hs.queue⟩
    have hnow : now s.world.mem (.visit a t) := hnow _ (by rw [State.nextNode, hstack]; rfl)
    obtain rfl := Option.some.inj hstep
    have acts := visit_act (s := { s with stack := fs }) hcb hnow hrun
    refine ⟨acts.wf ⟨hs₀.stack, hs₀.queue⟩, fun w hw => ?_⟩
    refine acts.follows hw rfl ?_ rfl
    rw [hstack]
    rfl
  · next gen c a x fs hstack =>
    have hs₀ : P.Wf { s with stack := fs } :=
      ⟨fun f hf => hs.stack f (hstack ▸ List.mem_cons_of_mem _ hf), hs.queue⟩
    have hv : P.Valid (.stmt gen c a) := hs.stack (.stmt gen c a x) (hstack ▸ List.mem_cons_self)
    have hnow : now s.world.mem (.stmt gen c a) := hnow _ (by rw [State.nextNode, hstack]; rfl)
    obtain rfl := Option.some.inj hstep
    have acts : P.Acts heap now ans _ _ _ := runStmt_act (s := { s with stack := fs }) hv hnow hrun
    refine ⟨acts.wf hs₀, fun w hw => acts.follows hw rfl ?_ rfl⟩
    rw [hstack]
    rfl
  · next hstack =>
    split at hstep
    · next hq =>
      have hcontents := s.queue.contents_pop hq
      have hs₀ : P.Wf { s with queue := s.queue.pop hq } :=
        ⟨hs.stack, fun t ht => hs.queue t (hcontents ▸ List.mem_cons_of_mem _ ht)⟩
      have hnow : now s.world.mem s.queue.head.node :=
        hnow _ (by rw [State.nextNode, hstack]; exact if_pos hq)
      have good : P.GoodTask s.queue.head := hs.queue _ (hcontents ▸ List.mem_cons_self)
      obtain rfl := Option.some.inj hstep
      have acts : P.Acts heap now ans _ _ _ :=
        callxformer_act (s := { s with queue := s.queue.pop hq }) good hnow hrun
      refine ⟨acts.wf hs₀, fun w hw => acts.follows hw rfl ?_ rfl⟩
      rw [hcontents, hstack]
      rfl
    · cases hstep

theorem step_running {cb : Callbacks σ} (h : step P.toEnv cb s = some s') :
    s.status = .running := by
  by_contra hs
  rw [step, if_pos hs] at h
  cases h

/-! ## Sessions -/

section Sessions

variable {cb : Callbacks σ} {w : World σ} {roots : List Root} {v : Worklist.State Node Ptr}
  {I : Worklist.State Node Ptr → Prop}

def start (roots : List Root) : Multiset Node := (roots.map fun r => Node.visit r.a r.t : List Node)

/-- A session, and the worklist that it follows, with `I`. -/
structure Tracks (P : Program) (cb : Callbacks σ) (w : World σ) (roots : List Root)
    (I : Worklist.State Node Ptr → Prop) (s : State σ) (v : Worklist.State Node Ptr) : Prop where
  reach : (session P.toEnv cb w roots).Reach s
  wf : P.Wf s
  follows : Follows P.toEnv s v
  inv : I v

theorem mem_pending (h : Follows P.toEnv s v) (hn : s.nextNode = some n) : n ∈ v.pending := by
  rw [h.pending]
  unfold State.nextNode at hn
  split at hn
  · next f fs hstack =>
    obtain rfl := Option.some.inj hn
    rw [hstack]
    exact Multiset.mem_add.mpr (.inl (Multiset.mem_coe.mpr List.mem_cons_self))
  · split at hn
    · next hq =>
      obtain rfl := Option.some.inj hn
      rw [s.queue.contents_pop hq]
      exact Multiset.mem_add.mpr (.inr (Multiset.mem_coe.mpr List.mem_cons_self))
    · cases hn

/-- A statement or a visit is taken from the stack. -/
theorem stack_of_nextNode (hn : s.nextNode = some n) (h : ∀ a t, n ≠ .task a t) :
    ∃ f fs, s.stack = f :: fs ∧ f.node = n := by
  unfold State.nextNode at hn
  split at hn
  · next f fs hstack => exact ⟨f, fs, hstack, Option.some.inj hn⟩
  · split at hn
    · exact absurd (Option.some.inj hn).symm (h _ _)
    · cases hn

theorem tracks_initial (hinit : I ⟨start roots, ∅, 0⟩) :
    Tracks P cb w roots I (initial w roots) ⟨start roots, ∅, 0⟩ := by
  have nil : (initial w roots).queue.contents = [] := Ring.contents_empty _ _
  refine ⟨.init rfl, ⟨fun f hf => ?_, fun t ht => ?_⟩, ⟨?_, ?_, rfl⟩, hinit⟩
  · obtain ⟨r, _, rfl⟩ := List.mem_map.mp hf
    exact trivial
  · rw [nil] at ht
    cases ht
  · rw [nil]
    simp [start, initial, Function.comp_def, Frame.node]
  · refine (Set.eq_empty_of_forall_notMem fun k hk => ?_).symm
    exact absurd findMapping_empty (show findMapping P.bucket _ k ≠ 0 from hk)

variable (hcb : Conforms P.toEnv cb heap now ans)
  (hnow : ∀ {s v n}, Tracks P cb w roots I s v → s.nextNode = some n → now s.world.mem n)
  (hkeep : ∀ {v v'}, I v → (P.worklist heap now ans).Step v v' → I v')

include hcb hnow hkeep

theorem Tracks.step (h : Tracks P cb w roots I s v) (hstep : Traversal.step P.toEnv cb s = some s')
    (hrun : s'.status = .running) :
    ∃ v', (P.worklist heap now ans).Step v v' ∧ Tracks P cb w roots I s' v' := by
  obtain ⟨hwf, sim⟩ := step_refines hcb h.wf (fun _ => hnow h) hstep hrun
  obtain ⟨v', hv, hfollows⟩ := sim v h.follows
  exact ⟨v', hv, .step () h.reach hstep, hwf, hfollows, hkeep h.inv hv⟩

theorem tracks_of_reach (hinit : I ⟨start roots, ∅, 0⟩)
    (hs : (session P.toEnv cb w roots).Reach s) (hrun : s.status = .running) :
    ∃ v, Tracks P cb w roots I s v := by
  induction hs with
  | init h =>
    obtain rfl := h
    exact ⟨_, tracks_initial hinit⟩
  | step l hs hstep ih =>
    obtain ⟨v, hv⟩ := ih (step_running hstep)
    obtain ⟨v', _, hv'⟩ := hv.step hcb hnow hkeep hstep hrun
    exact ⟨v', hv'⟩

omit hcb hnow hkeep in
theorem step_eq_none {E : Env} (h : s.status ≠ .running) : Traversal.step E cb s = none := by
  rw [Traversal.step, if_pos h]

/-- A session comes to an end if its worklist does. -/
theorem halts_of_tracks {r : Worklist.State Node Ptr → Worklist.State Node Ptr → Prop}
    (wf : WellFounded r) (hr : ∀ {v v'}, I v → (P.worklist heap now ans).Step v v' → r v' v)
    (hinit : I ⟨start roots, ∅, 0⟩) :
    (session P.toEnv cb w roots).Halts (initial w roots) := by
  refine Sys.halts_of_sim wf (R := Tracks P cb w roots I) ?_ (tracks_initial hinit)
  intro s v s' h hstep
  by_cases hrun : s'.status = .running
  · obtain ⟨v', hv, h'⟩ := h.step hcb hnow hkeep hstep hrun
    exact .inr ⟨v', hr h.inv hv, h'⟩
  · exact .inl (step_eq_none hrun)

end Sessions

end Program

end CStrider.Traversal
