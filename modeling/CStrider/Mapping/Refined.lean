import CStrider.Mapping.Chains

/-!
# The accesses refine the visits

Each access is a step of `Mapping.visits` or none: a search and an insertion take effect with their
last access. So what is known of the visits holds of the accesses (`refines_visits`), and a bucket
whose lock is free is intact (`free_bucket`). The order of insertion is not: `race_lost`.
-/

namespace CStrider.Mapping.Accesses

open Uthash

variable {α : Type} {S : Setting} {c c' : State α} {chain : Nat → List α} {s s' : Mapping.State}
  {i : Nat} {q : Pc α} {m : Ptr → Ptr}

/-! ## Steps outside the table -/

theorem Pc.front_of_node {pc : Pc α} (h : pc.node = none) : pc.front = none ∧ pc.counted = 0 := by
  cases pc with
  | insert => cases h
  | outside | find | addFind | fault => exact ⟨rfl, rfl⟩

/-- A step that leaves the table alone, of a thread that is not inserting. The only locks that
change hands are its own. -/
theorem Sim.of_quiet (h : Sim S c chain s) (hhh : c'.hh = c.hh) (haddr : c'.addr = c.addr)
    (htbl : c'.tbl = c.tbl) (hhead : c'.head = c.head)
    (hpc : c'.pc = Function.update c.pc i q) (hnode : (c.pc i).node = none)
    (hnode' : q.node = none)
    (howner : ∀ b j, j ≠ i → (c'.owner b = some j ↔ c.owner b = some j))
    (hmem : s'.mem = c'.mem) (howner' : s'.owner = c'.owner) (hlog : s'.log = c'.log)
    (hphase : s'.phase = Function.update s.phase i q.phase) (htable : s'.table = s.table)
    (hknown : Local S c' chain q) : Sim S c' chain s' := by
  have hpc_self : c'.pc i = q := by rw [hpc, Function.update_self]
  have hpc_ne {j : Nat} (hj : j ≠ i) : c'.pc j = c.pc j := by rw [hpc, Function.update_of_ne hj]
  have hentry : entryOf c' = entryOf c := by
    unfold entryOf
    rw [hhh, haddr]
  have hinsert {j : Nat} {a : α} (hj : (c'.pc j).node = some a) :
      j ≠ i ∧ (c.pc j).node = some a := by
    by_cases hji : j = i
    · rw [hji, hpc_self, hnode'] at hj
      cases hj
    · exact ⟨hji, hpc_ne hji ▸ hj⟩
  -- what the owner of a lock adds to its bucket
  have hbucket (b : Nat) : c'.front b = c.front b ∧ c'.counted b = c.counted b := by
    unfold State.front State.counted
    cases ho : c.owner b with
    | none =>
      cases ho' : c'.owner b with
      | none => exact ⟨rfl, rfl⟩
      | some j =>
        by_cases hj : j = i
        · simpa [hj, hpc_self] using Pc.front_of_node hnode'
        · rw [howner b j hj, ho] at ho'
          cases ho'
    | some j =>
      by_cases hj : j = i
      · subst hj
        obtain ⟨hfront, hcounted⟩ := Pc.front_of_node hnode
        cases ho' : c'.owner b with
        | none => simp [hfront, hcounted]
        | some j' =>
          by_cases hj' : j' = j
          · simpa [hj', hpc_self, hfront, hcounted] using Pc.front_of_node hnode'
          · rw [howner b j' hj', ho] at ho'
            exact absurd (Option.some.inj ho').symm hj'
      · rw [(howner b j hj).mpr ho]
        simp [hpc_ne hj]
  refine ⟨hmem, howner', hlog, fun j => ?_, htbl ▸ h.size, ?_, fun b hb => ?_, fun b => ?_,
    fun j => ?_, fun j a hj => ?_, fun j j' a hj hj' => ?_, ?_, fun d hd => ?_⟩
  · rw [hphase]
    by_cases hj : j = i
    · rw [hj, Function.update_self, hpc_self]
    · rw [Function.update_of_ne hj, h.phase, hpc_ne hj]
  · rw [htbl, hhh]
    exact h.tail
  · obtain ⟨hfront, hcounted⟩ := hbucket b
    have hc := h.bucket b hb
    refine ⟨htbl ▸ hc.head, ?_, ?_, hc.nodup, hentry ▸ hc.keyed⟩
    · rw [htbl, hcounted]
      exact hc.count
    · rw [hhh, hfront]
      exact hc.linked
  · rw [hentry, htable]
    exact h.entries b
  · by_cases hj : j = i
    · rw [hj, hpc_self]
      exact hknown
    · have hknown := h.known j
      rw [hpc_ne hj]
      generalize c.pc j = pc at hknown
      cases pc with
      | outside => trivial
      | find | addFind => exact ⟨hknown.1, hknown.2.1, hknown.2.2.congr fun d _ => by rw [hentry]⟩
      | insert =>
        exact ⟨hknown.1, hknown.2.1, hknown.2.2.congr (by rw [haddr]) (by rw [hentry])
          (by rw [hhh]) fun d => by rw [hhh]; exact id⟩
      | fault => exact hknown
  · obtain ⟨-, hj⟩ := hinsert hj
    rw [hhh]
    exact h.node j a hj
  · exact h.apart j j' a (hinsert hj).2 (hinsert hj').2
  · rw [hhead, hentry]
    exact h.head
  · rw [hhh] at hd
    refine (h.alloc d hd).imp_right fun ⟨j, hj⟩ => ⟨j, ?_⟩
    rw [hpc_ne]
    · exact hj
    · rintro rfl
      rw [hnode] at hj
      cases hj

/-- A thread that is not inserting goes on inside the table. -/
theorem Sim.go_on (h : Sim S c chain s) (hnode : (c.pc i).node = none) (hnode' : q.node = none)
    (hphase : q.phase = (c.pc i).phase) (hknown : Local S c chain q) :
    Sim S (c.goto i q) chain s := by
  refine h.of_quiet (i := i) rfl rfl rfl rfl rfl hnode hnode' (fun _ _ _ => Iff.rfl) h.mem h.owner h.log
    ?_ rfl ?_
  · exact (Function.update_eq_self_iff.mpr (hphase.trans (h.phase i).symm)).symm
  · cases q with
    | outside => trivial
    | find | addFind => exact ⟨hknown.1, hknown.2.1, hknown.2.2.congr fun _ _ => rfl⟩
    | insert => cases hnode'
    | fault => exact hknown

variable [DecidableEq α] {l : Label α} {e k v : Ptr}

/-- `malloc` gives a block that no thread and no chain has. -/
theorem Sim.malloc_step (h : Sim S c chain s) (inv : Inv S.slots m s) {a : α}
    (hpc : c.pc i = .outside (.addInsert e k v)) (ha : c.hh a = none)
    (contents : Handle α Ptr) :
    Sim S (State.goto { c with hh := Function.update c.hh a (some contents) } i
      (.insert e k v a .addr)) chain s := by
  have hphase : s.phase i = .addInsert e k v := by rw [h.phase, hpc]; rfl
  have hloc := inv.located i
  rw [hphase] at hloc
  obtain ⟨rfl, he, -⟩ := hloc
  have hown := h.locked (i := i) inv he (by rw [hpc]; rfl)
  have hnone : ¬ (c.hh a).isSome = true := by simp [ha]
  have hnot (b : Nat) : a ∉ chain b := by
    intro hmem
    have hmap : entryOf c a ∈ (s.table b).map some := h.entries b ▸ List.mem_map_of_mem hmem
    obtain ⟨f, -, hf⟩ := List.mem_map.mp hmap
    exact hnone (isSome_of_entryOf hf.symm)
  have hlinks (d : α) (hd : d ≠ a) :
      bktLinks (Function.update c.hh a (some contents)) d = bktLinks c.hh d := by
    rw [bktLinks, Function.update_of_ne hd, bktLinks]
  have hs : Spares c { c with hh := Function.update c.hh a (some contents) } chain (S.bucket k)
      a := by
    refine .of_handles (by simp) (fun d hd => ?_) fun d hd _ => hlinks d hd
    rw [dataOf, Function.update_of_ne hd, dataOf]
  have hb := S.bucket_lt k
  have hc := h.bucket _ hb
  have hown' : (State.goto { c with hh := Function.update c.hh a (some contents) } i
      (.insert k k v a .addr)).owner (S.bucket k) = some i := hown
  have hda (d : α) (hd : d ∈ chain (S.bucket k)) : d ≠ a := fun hda => hnot _ (hda ▸ hd)
  refine h.of_spares (q := .insert k k v a .addr) inv hown hb hnot
    (fun j _ hja => hnone (h.node j a hja).1) ⟨hs.alloc, hs.entry, hs.addr, hs.links, hs.buckets⟩
    rfl rfl rfl h.mem h.owner h.log ?_ rfl ?_ (fun _ _ => ⟨rfl, rfl⟩) (fun d => by simp [Pc.node])
    ⟨hc.head, ?_, ?_, hc.nodup, fun d hd => ?_⟩ ?_ ⟨rfl, he, trivial⟩ (fun a' ha' => ?_) ?_
  · exact (Function.update_eq_self_iff.mpr hphase.symm).symm
  · obtain ⟨d, hd, hd_some⟩ := h.tail
    exact ⟨d, hd, hs.alloc d hd_some⟩
  · refine hc.count.trans ?_
    rw [State.counted, hown, State.counted, hown', Option.elim_some, Option.elim_some,
      State.goto_pc_self, hpc]
    rfl
  · have hlinked := hc.linked
    rw [State.front, hown, Option.bind_some, hpc] at hlinked
    rw [State.front, hown', Option.bind_some, State.goto_pc_self]
    exact hlinked.congr fun d hd => hlinks d (hda d hd)
  · obtain ⟨f, hf, hkey⟩ := hc.keyed d hd
    exact ⟨f, (hs.entry d (hda d hd)).trans hf, hkey⟩
  · rw [← h.entries]
    exact List.map_congr_left fun d hd => hs.entry d (hda d hd)
  · rw [hpc] at ha'
    cases ha'
  · rintro a' ⟨⟩
    exact ⟨rfl, by simp [State.goto]⟩

/-- A step is one of `Mapping.visits`, or none. -/
def Simulated (S : Setting) (c' : State α) (l : Label α) (s : Mapping.State) : Prop :=
  ∃ s' chain', (s' = s ∨ Mapping.step S.slots ⟨l.thread, l.choice⟩ s = some s') ∧
    Sim S c' chain' s'

omit [DecidableEq α] in
/-- A step outside the table that `Mapping.visits` makes as well. -/
theorem Sim.same_step (h : Sim S c chain s) {ph ph' : Phase} {mem : Ptr → Ptr} {log : List Event}
    (hpc : c.pc l.thread = .outside ph)
    (hst : Mapping.stepAt S.slots l.thread l.choice s ph =
      some (Mapping.State.goto { s with mem, log } l.thread ph')) :
    Simulated S (State.goto { c with mem, log } l.thread (.outside ph')) l s := by
  refine ⟨Mapping.State.goto { s with mem, log } l.thread ph', chain, .inr ?_,
    h.of_quiet (i := l.thread) (q := .outside ph') rfl rfl rfl rfl rfl (by rw [hpc]; rfl) rfl
      (fun _ _ _ => Iff.rfl) rfl h.owner rfl rfl rfl trivial⟩
  rw [Mapping.step, h.phase, hpc]
  exact hst

omit [DecidableEq α] in
/-- The same of a step that takes or returns a lock. -/
theorem Sim.owner_step (h : Sim S c chain s) {ph ph' : Phase} {o : Nat → Option Nat}
    (hpc : c.pc l.thread = .outside ph)
    (ho : ∀ b j, j ≠ l.thread → (o b = some j ↔ c.owner b = some j))
    (hst : Mapping.stepAt S.slots l.thread l.choice s ph =
      some (Mapping.State.goto { s with owner := o } l.thread ph')) :
    Simulated S (State.goto { c with owner := o } l.thread (.outside ph')) l s := by
  refine ⟨Mapping.State.goto { s with owner := o } l.thread ph', chain, .inr ?_,
    h.of_quiet (i := l.thread) (q := .outside ph') rfl rfl rfl rfl rfl (by rw [hpc]; rfl) rfl ho h.mem
      rfl h.log rfl rfl trivial⟩
  rw [Mapping.step, h.phase, hpc]
  exact hst

omit [DecidableEq α] in
/-- A search ends. -/
theorem Sim.leave (h : Sim S c chain s) {ph : Phase} (hnode : (c.pc l.thread).node = none)
    (hst : Mapping.stepAt S.slots l.thread l.choice s (c.pc l.thread).phase =
      some (s.goto l.thread ph)) :
    Simulated S (c.goto l.thread (.outside ph)) l s := by
  refine ⟨s.goto l.thread ph, chain, .inr ?_, h.of_quiet (i := l.thread) (q := .outside ph) rfl rfl
    rfl rfl rfl hnode rfl (fun _ _ _ => Iff.rfl) h.mem h.owner h.log rfl rfl trivial⟩
  rw [Mapping.step, h.phase]
  exact hst

omit [DecidableEq α] in
theorem Sim.move (h : Sim S c chain s) {ph ph' : Phase} (hpc : c.pc l.thread = .outside ph)
    (hst : Mapping.stepAt S.slots l.thread l.choice s ph = some (s.goto l.thread ph')) :
    Simulated S (c.goto l.thread (.outside ph')) l s := by
  refine h.leave (by rw [hpc]; rfl) ?_
  rw [hpc]
  exact hst

theorem Sim.outside_step (h : Sim S c chain s) (inv : Inv S.slots m s) {ph : Phase}
    (hpc : c.pc l.thread = .outside ph) (hst : outsideAt S l c ph = some c') :
    Simulated S c' l s := by
  have hloc := inv.located l.thread
  rw [h.phase, hpc] at hloc
  change Located S.slots m s ph at hloc
  have hmem := h.mem
  have hlog := h.log
  have hnode : (c.pc l.thread).node = none := by rw [hpc]; rfl
  have hkey {e : Ptr} (he : e ≠ 0) (hph : lockedKey ph = some e) :
      c.owner (S.bucket e) = some l.thread :=
    h.locked inv he (by rw [hpc]; exact hph)
  cases ph with
  | idle =>
    rw [outsideAt] at hst
    split at hst
    · next a x hc =>
      split at hst
      · next hax =>
        obtain rfl := Option.some.inj hst
        have hmem : (a, x) ∈ S.pairs := by simpa using hax
        refine h.move hpc ?_
        rw [hc, Mapping.stepAt]
        exact if_pos hmem
      · cases hst
    · cases hst
  | entered a x =>
    obtain rfl := Option.some.inj hst
    refine h.move hpc ?_
    rw [Mapping.stepAt, hmem]
  | lock a x e =>
    obtain ⟨c₁, hlock, rfl⟩ := Option.map_eq_some_iff.mp hst
    unfold wrlock at hlock
    split at hlock
    · next he =>
      obtain rfl := Option.some.inj hlock
      refine h.move hpc ?_
      rw [Mapping.stepAt, Mapping.wrlock, if_pos he, Option.map_some]
    · next he =>
      rw [h.bkt] at hlock
      split at hlock
      · next hfree =>
        obtain rfl := Option.some.inj hlock
        refine h.owner_step hpc (fun b j hj => ?_) ?_
        · by_cases hb : b = S.bucket e
          · simp [hb, hfree, Ne.symm hj]
          · rw [Function.update_of_ne hb]
        · have hfree' : s.owner (S.slots.bucket e) = none := h.owner ▸ hfree
          rw [Mapping.stepAt, Mapping.wrlock, if_neg he, hfree', h.owner]
          rfl
      · cases hlock
  | find a x e =>
    obtain ⟨hax, rfl⟩ := hloc
    have hslot : c.mem a = m a := hmem ▸ inv.slots _ hax
    obtain rfl := Option.some.inj hst
    by_cases hp : c.mem a = 0
    · rw [if_pos hp]
      refine h.move hpc ?_
      rw [Mapping.stepAt, hmem, hp, findMapping_null, if_neg (not_not.mpr rfl)]
    · rw [if_neg hp]
      exact ⟨s, chain, .inl rfl, h.go_on hnode rfl (by rw [hpc]; rfl) ⟨hslot, hslot ▸ hp, trivial⟩⟩
  | mapped a x e p lookup =>
    rw [outsideAt] at hst
    split at hst
    · next hok =>
      obtain rfl := Option.some.inj hst
      refine h.same_step hpc ?_
      rw [← hlog, Mapping.stepAt, hmem, if_pos hok]
    · cases hst
  | store a x e p lookup =>
    obtain rfl := Option.some.inj hst
    refine h.same_step hpc ?_
    rw [Mapping.stepAt, hmem, hlog]
  | call a x e =>
    rw [outsideAt] at hst
    split at hst
    · next hok =>
      obtain rfl := Option.some.inj hst
      refine h.same_step hpc ?_
      rw [Mapping.stepAt, hmem, if_pos hok, hlog]
    · cases hst
  | addArgs a x e =>
    obtain rfl := Option.some.inj hst
    refine h.move hpc ?_
    rw [Mapping.stepAt, hmem]
  | addFind e k v =>
    obtain ⟨rfl, -⟩ := hloc
    obtain rfl := Option.some.inj hst
    by_cases hk : k = 0
    · rw [if_pos hk]
      refine h.move hpc ?_
      rw [Mapping.stepAt, if_pos (.inl hk)]
    · rw [if_neg hk]
      exact ⟨s, chain, .inl rfl, h.go_on hnode rfl (by rw [hpc]; rfl) ⟨rfl, hk, trivial⟩⟩
  | addInsert e k v =>
    rw [outsideAt] at hst
    split at hst
    · next ha =>
      obtain rfl := Option.some.inj hst
      exact ⟨s, chain, .inl rfl, h.malloc_step inv hpc ha _⟩
    · cases hst
  | unlock e =>
    obtain rfl := Option.some.inj hst
    by_cases he : e = 0
    · rw [unlock, if_pos he]
      refine h.move hpc ?_
      rw [Mapping.stepAt, Mapping.unlock, if_pos he]
    · rw [unlock, if_neg he, h.bkt]
      refine h.owner_step hpc (fun b j hj => ?_) ?_
      · by_cases hb : b = S.bucket e
        · simp [hb, hkey he rfl, Ne.symm hj]
        · rw [Function.update_of_ne hb]
      · rw [Mapping.stepAt, Mapping.unlock, if_neg he, h.owner]
        rfl

/-- An access to the table succeeds, and is a step of `Mapping.visits` if the search or the insertion
ends with it. -/
theorem Sim.step (h : Sim S c chain s) (inv : Inv S.slots m s) (hst : Accesses.step S l c = some c') :
    Simulated S c' l s := by
  unfold Accesses.step at hst
  have hknown := h.known l.thread
  have hph := h.phase l.thread
  have hloc := inv.located l.thread
  generalize hpc : c.pc l.thread = pc at hst hknown hph
  rw [hph] at hloc
  cases pc with
  | outside ph => exact h.outside_step inv hpc hst
  | find a x e p w =>
    obtain ⟨rfl, he, hw⟩ := hknown
    obtain ⟨hax, hslot⟩ := hloc
    have hnode : (c.pc l.thread).node = none := by rw [hpc]; rfl
    dsimp only at hst
    rcases h.search_step he hw with ⟨w', hw', hknows⟩ | hdone
    · rw [hw'] at hst
      obtain rfl := Option.some.inj hst
      exact ⟨s, chain, .inl rfl, h.go_on hnode rfl (by rw [hpc]; rfl) ⟨rfl, he, hknows⟩⟩
    · rw [hdone] at hst
      obtain rfl := Option.some.inj hst
      have hmem : s.mem a = p := (inv.slots _ hax).trans hslot.symm
      refine h.leave hnode ?_
      rw [hpc]
      change Mapping.stepAt S.slots l.thread l.choice s (.find a x p) = _
      rw [Mapping.stepAt, hmem]
      change ite (findMapping S.bucket s.table p ≠ 0) _ _ = _
      split <;> rfl
  | addFind e k v w =>
    obtain ⟨rfl, he, hw⟩ := hknown
    have hnode : (c.pc l.thread).node = none := by rw [hpc]; rfl
    dsimp only at hst
    rcases h.search_step he hw with ⟨w', hw', hknows⟩ | hdone
    · rw [hw'] at hst
      obtain rfl := Option.some.inj hst
      exact ⟨s, chain, .inl rfl, h.go_on hnode rfl (by rw [hpc]; rfl) ⟨rfl, he, hknows⟩⟩
    · rw [hdone] at hst
      obtain rfl := Option.some.inj hst
      refine h.leave hnode ?_
      rw [hpc]
      change Mapping.stepAt S.slots l.thread l.choice s (.addFind k k v) = _
      rw [Mapping.stepAt]
      change ite (k = 0 ∨ findMapping S.bucket s.table k ≠ 0) _ _ = _
      by_cases hfound : findMapping S.bucket s.table k ≠ 0
      · rw [if_pos (.inr hfound), if_pos hfound]
      · rw [if_neg (not_or.mpr ⟨he, hfound⟩), if_neg hfound]
  | insert e k v a w =>
    obtain ⟨rfl, he, -⟩ := hknown
    dsimp only at hst
    by_cases hw : w = .hhHead
    · subst hw
      obtain rfl := Option.some.inj hst
      refine ⟨_, _, .inr ?_, h.link_step inv hpc⟩
      rw [Mapping.step, hph]
      rfl
    · obtain ⟨c₁, w', hok, h₁⟩ := h.insert_step inv hpc hw
      rw [hok] at hst
      obtain rfl := Option.some.inj hst
      exact ⟨s, chain, .inl rfl, h₁⟩
  | fault => exact hknown.elim

/-! ## The start -/

/-- The first call of `add_mapping` makes the table. -/
theorem addMapping_first (S : Setting) (a : α) (contents : Handle α Ptr) :
    Uthash.addMapping S.hash ⟨empty, fun _ => 0⟩ ⟨seed, seed, a, contents⟩ =
      some ⟨⟨Function.update (fun _ => none) a (some ⟨none, none, none, none, seed, S.hash seed⟩),
        some a, some { hashMakeTable uthashNxform a with
          buckets := Function.update (fun _ => ⟨none, 0, 0⟩) (S.bucket seed) ⟨some a, 1, 0⟩
          numItems := 1 }⟩, Function.update (fun _ => 0) a seed⟩ := by
  have hseed : seed ≠ 0 := by decide
  simp [Uthash.addMapping, hseed, Uthash.findMapping, hashFind, empty, malloc, hashAddKeyptr,
    Heap.setNext, Heap.assign, Heap.setKey, linkApp, Heap.setPrev, hashMakeTable, Heap.setHashv,
    hashAddToBkt, Heap.setHhNext, Heap.setHhPrev, Heap.onto, uthashNxform, Setting.bucket]

theorem seeded_eq (bucket : Ptr → Nat) :
    seeded bucket = Function.update (fun _ => []) (bucket seed) [⟨seed, seed⟩] := by
  rw [seeded, Mapping.addMapping, if_neg (by decide), if_pos findMapping_empty, nxhashAdd]

theorem Sim.initial (h : Initial S m c) : ∃ chain, Sim S c chain (Mapping.initial S.slots m) := by
  obtain ⟨⟨a, contents, hadd⟩, hmem, howner, hpc, hlog⟩ := h
  rw [addMapping_first] at hadd
  simp only [Option.some.injEq, Mappings.mk.injEq, Hash.mk.injEq] at hadd
  obtain ⟨⟨hhh, hhead, htbl⟩, haddr⟩ := hadd
  have hhandle : c.hh a = some ⟨none, none, none, none, seed, S.hash seed⟩ := by
    rw [← hhh, Function.update_self]
  have hentry : entryOf c a = some ⟨seed, seed⟩ := by
    rw [entryOf, dataOf, hhandle, ← haddr]
    simp
  have hfree (b : Nat) : c.front b = none ∧ c.counted b = 0 := by
    rw [State.front, State.counted, howner]
    exact ⟨rfl, rfl⟩
  refine ⟨Function.update (fun _ => []) (S.bucket seed) [a], hmem.symm, ?_, hlog.symm, fun i => ?_,
    ?_, ⟨a, ?_, ?_⟩, fun b _ => ?_, fun b => ?_, fun i => ?_, fun i d hd => ?_,
    fun i _ d hd _ => ?_, ?_, fun d hd => ?_⟩
  · funext b
    exact (howner b).symm
  · rw [hpc]
    rfl
  · rw [← htbl]
    rfl
  · rw [← htbl]
    rfl
  · rw [hhandle]
    rfl
  · obtain ⟨hfront, hcounted⟩ := hfree b
    by_cases hb : b = S.bucket seed
    · subst hb
      rw [Function.update_self]
      refine ⟨by rw [← htbl]; simp, by rw [hcounted, ← htbl]; simp, ⟨?_, trivial⟩,
        List.nodup_singleton a, fun d hd => ?_⟩
      · rw [bktLinks, hhandle, hfront]
        rfl
      · obtain rfl := List.mem_singleton.mp hd
        exact ⟨_, hentry, rfl⟩
    · rw [Function.update_of_ne hb]
      exact ⟨by rw [← htbl]; simp [hb], by rw [hcounted, ← htbl]; simp [hb], trivial,
        List.nodup_nil, fun d hd => by cases hd⟩
  · rw [Mapping.initial, seeded_eq]
    by_cases hb : b = S.bucket seed
    · subst hb
      simp [Setting.slots, hentry]
    · simp [Setting.slots, hb]
  · rw [hpc]
    trivial
  · rw [hpc] at hd
    cases hd
  · rw [hpc] at hd
    cases hd
  · rw [← hhead, Function.update_self]
    exact ⟨List.mem_singleton_self a, hentry⟩
  · refine .inl ⟨S.bucket seed, S.bucket_lt seed, ?_⟩
    rw [Function.update_self, List.mem_singleton]
    by_contra hda
    rw [← hhh, Function.update_of_ne hda] at hd
    cases hd

/-! ## Results -/

/-- Every state of the accesses stands for one of the visits. -/
theorem Sim.reach (hS : S.slots.Separate m) (h : (accesses S m).Reach c) :
    ∃ s chain, (visits S.slots m).Reach s ∧ Sim S c chain s := by
  induction h with
  | init hinit =>
    obtain ⟨chain, hsim⟩ := Sim.initial hinit
    exact ⟨_, chain, .init rfl, hsim⟩
  | step l _ hst ih =>
    obtain ⟨s, chain, hs, hsim⟩ := ih
    obtain ⟨s', chain', hs', hsim'⟩ := hsim.step (Inv.reach hS hs) hst
    rcases hs' with rfl | hnext
    · exact ⟨s', chain', hs, hsim'⟩
    · exact ⟨s', chain', .step _ hs hnext, hsim'⟩

/-- Each key of the table is there once, with an address. -/
def Keyed (t : Table) : Prop :=
  ∀ b, ((t b).map (·.key)).Nodup ∧ ∀ e ∈ t b, e.key ≠ 0 ∧ e.addr ≠ 0

section Keys

variable {t : Table} {bucket : Ptr → Nat}

theorem Keyed.find (h : Keyed t) {e : Entry} (he : e ∈ t (bucket e.key)) :
    findMapping bucket t e.key = e.addr := by
  obtain ⟨hnodup, hnz⟩ := h (bucket e.key)
  have hfind : (t (bucket e.key)).find? (fun f => f.key == e.key) = some e := by
    obtain ⟨l₁, l₂, hl⟩ := List.append_of_mem he
    rw [hl, List.map_append, List.map_cons, List.nodup_append] at hnodup
    rw [hl, List.find?_append, List.find?_cons_of_pos (by simp), List.find?_eq_none.mpr,
      Option.none_or]
    intro f hf
    simpa using hnodup.2.2 f.key (List.mem_map_of_mem hf) e.key List.mem_cons_self
  rw [findMapping, if_neg (hnz e he).1, hfind]

theorem Keyed.add (h : Keyed t) {k v : Ptr} (hk : k ≠ 0) (hv : v ≠ 0)
    (hnew : findMapping bucket t k = 0) : Keyed (nxhashAdd bucket t k v) := by
  intro b
  obtain ⟨hnodup, hnz⟩ := h b
  unfold nxhashAdd
  by_cases hb : b = bucket k
  · subst hb
    rw [Function.update_self, List.map_cons, List.nodup_cons]
    refine ⟨⟨fun hmem => ?_, hnodup⟩, fun e he => ?_⟩
    · obtain ⟨e, he, rfl⟩ := List.mem_map.mp hmem
      rw [h.find he] at hnew
      exact (hnz e he).2 hnew
    · rcases List.mem_cons.mp he with rfl | he
      · exact ⟨hk, hv⟩
      · exact hnz e he
  · rw [Function.update_of_ne hb]
    exact ⟨hnodup, hnz⟩

theorem mem_of_find (bucket : Ptr → Nat) {k : Ptr} (h : findMapping bucket t k ≠ 0) :
    ⟨k, findMapping bucket t k⟩ ∈ t (bucket k) := by
  unfold findMapping at h ⊢
  split at h
  · exact absurd rfl h
  · next hk =>
    rw [if_neg hk]
    cases hfind : (t (bucket k)).find? (fun e => e.key == k) with
    | none =>
      rw [hfind] at h
      exact absurd rfl h
    | some e =>
      obtain rfl : e.key = k := by simpa using List.find?_some hfind
      exact List.mem_of_find?_eq_some hfind

theorem keyed_seeded : Keyed (seeded bucket) := by
  intro b
  rw [seeded_eq]
  by_cases hb : b = bucket seed
  · rw [hb, Function.update_self]
    exact ⟨List.nodup_singleton _, by simp [seed]⟩
  · rw [Function.update_of_ne hb]
    exact ⟨List.nodup_nil, by simp⟩

/-- Only an insertion changes the table. -/
theorem table_of_step {T : Slots} {l : Mapping.Label} (hst : Mapping.step T l s = some s') :
    s'.table = s.table ∨ ∃ e k v, s.phase l.thread = .addInsert e k v ∧
      s'.table = nxhashAdd T.bucket s.table k v := by
  unfold Mapping.step at hst
  cases hp : s.phase l.thread with
  | addInsert e k v =>
    rw [hp] at hst
    obtain rfl := Option.some.inj hst
    exact .inr ⟨e, k, v, rfl, rfl⟩
  | lock a x e =>
    rw [hp] at hst
    obtain ⟨s₁, hlock, rfl⟩ := Option.map_eq_some_iff.mp hst
    unfold Mapping.wrlock at hlock
    split at hlock
    · exact .inl (congrArg (·.table) (Option.some.inj hlock).symm)
    · split at hlock
      · exact .inl (congrArg (·.table) (Option.some.inj hlock).symm)
      · cases hlock
  | unlock e =>
    rw [hp] at hst
    obtain rfl := Option.some.inj hst
    left
    unfold Mapping.unlock
    split <;> rfl
  | idle | entered | find | mapped | store | call | addArgs | addFind =>
    rw [hp] at hst
    simp only [Mapping.stepAt] at hst
    left
    repeat' split at hst
    all_goals cases hst
    all_goals rfl

theorem Keyed.reach {T : Slots} (hT : T.Separate m) (h : (visits T m).Reach s) :
    Keyed s.table := by
  refine Sys.Inductive.reach (K := Inv T m) (I := fun s => Keyed s.table) ⟨?_, ?_⟩
    (fun hs => Inv.reach hT hs) h
  · rintro s rfl
    exact keyed_seeded
  · intro l s s' inv hkeyed hst
    rcases table_of_step hst with htable | ⟨e, k, v, hp, htable⟩
    · rw [htable]
      exact hkeyed
    · rw [htable]
      have hloc := inv.located l.thread
      rw [hp] at hloc
      obtain ⟨rfl, hk, hnew, a, x, hcall⟩ := hloc
      refine hkeyed.add hk ?_ hnew
      have hseed : k ≠ seed := by
        rintro rfl
        rw [inv.seed] at hnew
        exact absurd hnew (by decide)
      rcases inv.key k hk hseed with ⟨hnone, -⟩ | ⟨b, y, u, hcall', -, -, hu, -⟩
      · rw [hcall] at hnone
        cases hnone
      · rw [hcall] at hcall'
        simp only [List.cons.injEq, Prod.mk.injEq] at hcall'
        exact hcall'.1.2.2 ▸ hu

end Keys

omit [DecidableEq α] in
theorem withHandles_pc {h : Option (Heap α Ptr)} (hst : withHandles c h = some c') :
    c'.pc = c.pc := by
  obtain ⟨_, -, rfl⟩ := Option.map_eq_some_iff.mp hst
  rfl

theorem insertAt_pc {key addr : Ptr} {a : α} {w : Insert α} {next : Option (Insert α)}
    (hst : insertAt S c key addr a w = some (c', next)) : c'.pc = c.pc := by
  cases w with
  | readTail | readTailAgain | tail | readNumItems | numItems | readCount | count | readHhHead
  | hhHead =>
    cases hst
    rfl
  | addr =>
    obtain ⟨_, -, heq⟩ := Option.map_eq_some_iff.mp hst
    cases heq
    rfl
  | next | key | prev | hashv | hhNext | hhPrev | headHhPrev =>
    obtain ⟨_, hc, heq⟩ := Option.map_eq_some_iff.mp hst
    cases heq
    exact withHandles_pc hc
  | tailNext tail =>
    obtain ⟨_, -, hst⟩ := Option.bind_eq_some_iff.mp hst
    obtain ⟨_, hc, heq⟩ := Option.map_eq_some_iff.mp hst
    cases heq
    exact withHandles_pc hc
  | readHhHeadAgain =>
    rw [insertAt] at hst
    split at hst <;> cases hst <;> rfl

/-- A step of one thread leaves the others where they are. -/
theorem pc_of_step (hst : Accesses.step S l c = some c') (hi : i ≠ l.thread) :
    c'.pc i = c.pc i := by
  have hgoto (c : State α) (q : Pc α) : (c.goto l.thread q).pc i = c.pc i :=
    Function.update_of_ne hi ..
  rw [Accesses.step] at hst
  split at hst
  · next ph _ =>
    have hunlock (e : Ptr) : (unlock S c e).pc = c.pc := by
      rw [unlock]
      split <;> rfl
    cases ph with
    | entered a x | find a x e | store a x e p lookup | addArgs a x e | addFind e key addr =>
      cases hst
      exact hgoto _ _
    | unlock e =>
      cases hst
      exact (hgoto _ _).trans (congrFun (hunlock e) i)
    | idle =>
      rw [outsideAt] at hst
      split at hst
      · split at hst
        · cases hst
          exact hgoto _ _
        · cases hst
      · cases hst
    | lock a x e =>
      obtain ⟨c₁, hlock, rfl⟩ := Option.map_eq_some_iff.mp hst
      refine (hgoto _ _).trans ?_
      rw [wrlock] at hlock
      split at hlock
      · cases hlock
        rfl
      · split at hlock
        · cases hlock
          rfl
        · cases hlock
    | mapped a x e p lookup | call a x e =>
      rw [outsideAt] at hst
      split at hst
      · cases hst
        exact hgoto _ _
      · cases hst
    | addInsert e key addr =>
      rw [outsideAt] at hst
      split at hst
      · cases hst
        exact hgoto _ _
      · cases hst
  · split at hst <;> cases hst <;> exact hgoto _ _
  · split at hst <;> cases hst <;> exact hgoto _ _
  · split at hst
    · cases hst
      exact hgoto _ _
    · next hins =>
      cases hst
      exact (hgoto _ _).trans (congrFun (insertAt_pc hins) i)
    · next hins =>
      cases hst
      exact (hgoto _ _).trans (congrFun (insertAt_pc hins) i)
  · cases hst

/-! ## Two threads in different buckets -/

/-- The table has the seed, in the entry `0`. -/
def start (S : Setting) (m : Ptr → Ptr) : State Nat where
  mem := m
  hh := Function.update (fun _ => none) 0 (some ⟨none, none, none, none, seed, S.hash seed⟩)
  addr := Function.update (fun _ => 0) 0 seed
  head := 0
  tbl := { hashMakeTable uthashNxform 0 with
    buckets := Function.update (fun _ => ⟨none, 0, 0⟩) (S.bucket seed) ⟨some 0, 1, 0⟩
    numItems := 1 }
  owner _ := none
  pc _ := .outside .idle
  log := []

theorem start_initial (S : Setting) (m : Ptr → Ptr) : Initial S m (start S m) :=
  ⟨⟨0, ⟨none, none, none, none, 0, 0⟩, addMapping_first S 0 _⟩, rfl, fun _ => rfl, fun _ => rfl,
    rfl⟩

/-- `k` steps of thread `i`, to which `malloc` gives the entry `10 + i`. -/
def steps (i k : Nat) (c : Choice) : List (Label Nat) :=
  List.replicate k ⟨i, c, 10 + i, ⟨none, none, none, none, 0, 0⟩⟩

/-- The pairs of slots of the two threads. -/
def raceSetting : Setting := ⟨[(1, 2), (3, 4)], id, true⟩

def raceMem : Ptr → Ptr := fun a => 100 + a

/-- Thread `1` adds its entry after thread `0` has read `tail` and before it assigns
`tail->next`. -/
def raceRun : List (Label Nat) :=
  steps 0 1 (.visit 1 2) ++ steps 0 4 .none ++ steps 0 1 (.writes [(2, 200)]) ++ steps 0 8 .none ++
    (steps 1 1 (.visit 3 4) ++ steps 1 4 .none ++ steps 1 1 (.writes [(4, 201)]) ++
      steps 1 23 .none) ++ steps 0 15 .none

/-- The order of insertion has lost an element: `HASH_ITER` would meet the seed and the entry of
thread `0` only. -/
def Lost (c : State Nat) : Prop :=
  c.pc 0 = .outside .idle ∧ c.pc 1 = .outside .idle ∧ c.log.length = 2 ∧
    (c.hh 0).map (·.next) = some (some 10) ∧ (c.hh 10).map (·.next) = some none ∧
    (c.hh 11).isSome = true

instance : DecidablePred Lost := fun c =>
  inferInstanceAs (Decidable (c.pc 0 = _ ∧ c.pc 1 = _ ∧ c.log.length = 2 ∧ _ ∧ _ ∧ _))

theorem race_lost : ∃ c, (accesses raceSetting raceMem).Reach c ∧ Lost c :=
  Sys.exists_reach (start_initial raceSetting raceMem)
    (show (Sys.run _ raceRun (start raceSetting raceMem)).any _ = true by decide +kernel)

theorem raceSetting_separate : raceSetting.slots.Separate raceMem := by
  have hpairs {a x : Ptr} (h : (a, x) ∈ raceSetting.slots.pairs) :
      a = 1 ∧ x = 2 ∨ a = 3 ∧ x = 4 := by
    simpa [Setting.slots, raceSetting] using h
  refine ⟨fun ha hb => ?_, fun ha hb => ?_, fun ha => ?_, rfl⟩
  · have := hpairs ha
    have := hpairs hb
    grind
  · have := hpairs ha
    have := hpairs hb
    grind
  · have := hpairs ha
    grind

end CStrider.Mapping.Accesses
