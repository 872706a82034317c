import CStrider.Types.Constructors

/-!
# Pointer-to links (`src/cstrider_api.c`)

An entry has the type that it points to in `target_type` and the type that points to it in
`pointer_to`. `cstrider_type_init` fills the second from the first: what round `i` leaves for its
target is in the target's entry if that is there, and in `ptsto_type_array` until it is. The
constructors copy the link of their base type, or leave a placeholder.
-/

namespace CStrider.Types

/-- `cstrider_get_ptrtype`; `none` where it exits. -/
def cstriderGetPtrtype (tt : TypeTable) (t : Typ) : Option Typ := (tt.find t).map Entry.targetType

/-- `cstrider_get_typ_ptstothis`; `none` where it exits. -/
def cstriderGetTypPtstothis (tt : TypeTable) (t : Typ) : Option Typ :=
  (tt.find t).map Entry.pointerTo

/-- Built-in types target built-in types, and what is in `ptsto_type_array` before
`cstrider_type_init` targets its index. -/
structure WellLinked (g : Generated) (ptsto : Typ → Typ) : Prop where
  target : ∀ i < g.len, g.targetType i = -1 ∨ ∃ j < g.len, g.targetType i = (j : Typ)
  ptsto : ∀ t < g.len, ptsto t = -1 ∨ ∃ j < g.len, ptsto t = (j : Typ) ∧ g.targetType j = (t : Typ)

/-- The type that points to `t` points to `t`, and there is one where there should be. -/
structure Linked (g : Generated) (h : History) : Prop where
  sound : ∀ {t p}, cstriderGetTypPtstothis h.table t = some p →
    p = -1 ∨ cstriderGetPtrtype h.table p = some t
  pointer : ∀ {t id}, (.ptr t, id) ∈ h.issued → cstriderGetTypPtstothis h.table t ≠ some (-1)
  builtin : ∀ i < g.len, g.targetType i ≠ -1 →
    cstriderGetTypPtstothis h.table (g.targetType i) ≠ some (-1)

/-- No pointer type is made, and the new entry copies no link: nothing points to the base type,
and the base type of a generic type is no pointer. -/
def Harmless (c : Call) (h : History) : Prop :=
  match c with
  | .ptr _ _ => False
  | .arr _ t _ => cstriderGetTypPtstothis h.table t = some (-1)
  | .gen t _ _ _ =>
    cstriderGetTypPtstothis h.table t = some (-1) ∧ cstriderGetPtrtype h.table t = some (-1)

/-! ## Links after `cstrider_type_init` -/

section TypeInit

variable {g : Generated} {ptsto : Typ → Typ} {n : Nat} {t : Typ}

/-- The link of `t`, in its entry or in the array. -/
def link (s : TypeTable × (Typ → Typ)) (t : Typ) : Typ :=
  ((s.1.find t).map Entry.pointerTo).getD (s.2 t)

theorem find_rounds_self : (rounds g ptsto n).1.find n = none := by
  rw [TypeTable.find_eq_none, (typeInit_rounds (Eq.refl (rounds g ptsto n))).1]
  simp only [List.mem_reverse, List.mem_map, List.mem_range]
  rintro ⟨i, hi, h⟩
  exact absurd (Int.ofNat_inj.mp h) (Nat.ne_of_lt hi)

/-- Entering a type does not change its link, nor that of another. -/
theorem link_add {tt : TypeTable} {array : Typ → Typ} (hn : tt.find n = none) :
    link (tt.add (builtin g (array n) n), array) = link (tt, array) := by
  funext t
  unfold link
  rw [TypeTable.find_add]
  by_cases h : (n : Typ) = t
  · subst h
    simp [builtin, hn]
  · simp [builtin, h]

theorem link_setPointerTo {tt : TypeTable} {array : Typ → Typ} {p : Typ}
    (h : (tt.find t).isSome = true) :
    link (tt.setPointerTo t p, array) = Function.update (link (tt, array)) t p := by
  obtain ⟨e, he⟩ := Option.isSome_iff_exists.mp h
  funext k
  unfold link
  rw [TypeTable.find_setPointerTo]
  by_cases hk : k = t
  · subst hk
    simp [he]
  · rw [Function.update_of_ne hk]
    simp [hk]

theorem link_array {tt : TypeTable} {array : Typ → Typ} {p : Typ}
    (h : ¬ (tt.find t).isSome = true) :
    link (tt, Function.update array t p) = Function.update (link (tt, array)) t p := by
  have hnone : tt.find t = none := by simpa using h
  funext k
  unfold link
  by_cases hk : k = t
  · subst hk
    simp [hnone]
  · simp [hk]

/-- Round `n` sets the link of its target, wherever that is. -/
theorem link_rounds_succ : link (rounds g ptsto (n + 1)) =
    if g.targetType n = -1 then link (rounds g ptsto n)
    else Function.update (link (rounds g ptsto n)) (g.targetType n) n := by
  have added : link ((rounds g ptsto n).1.add (builtin g ((rounds g ptsto n).2 n) n),
      (rounds g ptsto n).2) = link (rounds g ptsto n) := link_add find_rounds_self
  rw [rounds_succ, typeInitStep]
  split
  · exact added
  · split
    · next h => rw [link_setPointerTo h, added]
    · next h => rw [link_array h, added]

/-- A link comes from the array as it was, or leads to a type that points back. -/
theorem link_sound : link (rounds g ptsto n) t = ptsto t ∨
    ∃ j < n, link (rounds g ptsto n) t = (j : Typ) ∧ g.targetType j = t := by
  induction n with
  | zero => exact .inl rfl
  | succ n ih =>
    have earlier : link (rounds g ptsto n) t = ptsto t ∨
        ∃ j < n + 1, link (rounds g ptsto n) t = (j : Typ) ∧ g.targetType j = t :=
      ih.imp_right fun ⟨j, hj, hl⟩ => ⟨j, Nat.lt_succ_of_lt hj, hl⟩
    rw [link_rounds_succ]
    split
    · exact earlier
    · by_cases ht : t = g.targetType n
      · subst ht
        exact .inr ⟨n, Nat.lt_succ_self n, Function.update_self .., rfl⟩
      · rwa [Function.update_of_ne ht]

theorem natCast_ne (j : Nat) : (j : Typ) ≠ -1 := by
  have : (0 : Int) ≤ (j : Int) := Int.natCast_nonneg j
  exact fun h => absurd (h ▸ this) (by decide)

theorem link_targeted {i : Nat} (hi : i < n) (ht : g.targetType i ≠ -1) :
    link (rounds g ptsto n) (g.targetType i) ≠ -1 := by
  induction n with
  | zero => exact absurd hi (Nat.not_lt_zero i)
  | succ n ih =>
    rw [link_rounds_succ]
    by_cases hn : g.targetType i = g.targetType n
    · rw [if_neg (hn ▸ ht), hn, Function.update_self]
      exact natCast_ne n
    · have hin : i < n := by
        rcases Nat.lt_succ_iff_lt_or_eq.mp hi with hi | rfl
        · exact hi
        · exact absurd rfl hn
      split
      · exact ih hin
      · rw [Function.update_of_ne hn]
        exact ih hin

end TypeInit

/-! ## Links in a table -/

/-- The links of all entries, whichever of them a search returns: each is `-1` or a built-in type
that points back, and it is not `-1` where a built-in type points to the entry. -/
structure Links (g : Generated) (tt : TypeTable) : Prop where
  sound : ∀ e ∈ tt, e.pointerTo = -1 ∨
    ∃ j < g.len, e.pointerTo = (j : Typ) ∧ g.targetType j = e.type
  targeted : ∀ e ∈ tt, ∀ i < g.len, g.targetType i ≠ -1 → e.type = g.targetType i →
    e.pointerTo ≠ -1

section Links

variable {g : Generated} {ptsto : Typ → Typ} {tt : TypeTable} {trace : List (Request × Typ)}
  {e : Entry} {r : Request} {k t : Typ}

theorem find_of_mem (hnodup : (tt.map Entry.type).Nodup) (he : e ∈ tt) :
    tt.find e.type = some e := by
  obtain ⟨f, hf⟩ := TypeTable.exists_find (List.mem_map_of_mem he)
  rw [hf, List.inj_on_of_nodup_map hnodup (TypeTable.mem_of_find hf) he (TypeTable.type_of_find hf)]

theorem links_typeInit (hg : WellLinked g ptsto) : Links g (typeInit g [] ptsto).1 := by
  have keys := (typeInit_rounds (Eq.refl (rounds g ptsto g.len))).1
  have nodup : ((rounds g ptsto g.len).1.map Entry.type).Nodup := by
    rw [keys, List.nodup_reverse]
    exact List.nodup_range.map fun _ _ => Int.ofNat_inj.mp
  have pointerTo : ∀ e ∈ (rounds g ptsto g.len).1,
      e.pointerTo = link (rounds g ptsto g.len) e.type := by
    intro e he
    rw [link, find_of_mem nodup he]
    rfl
  constructor
  · intro e he
    rw [pointerTo e he]
    have sound : link (rounds g ptsto g.len) e.type = ptsto e.type ∨
        ∃ j < g.len, link (rounds g ptsto g.len) e.type = (j : Typ) ∧ g.targetType j = e.type :=
      link_sound
    rcases sound with h | h
    · rw [h]
      have hkey : e.type ∈ ((List.range g.len).map Nat.cast).reverse :=
        keys ▸ List.mem_map_of_mem he
      simp only [List.mem_reverse, List.mem_map, List.mem_range] at hkey
      obtain ⟨i, hi, hie⟩ := hkey
      exact hie ▸ hg.ptsto i hi
    · exact .inr h
  · intro e he i hi ht hie
    rw [pointerTo e he, hie]
    exact link_targeted hi ht

theorem Links.unlock (h : Links g tt) (x : Bool) : Links g (unlock x tt) := by
  cases x
  · exact h
  · exact ⟨fun e he => h.sound e (List.mem_reverse.mp he),
      fun e he => h.targeted e (List.mem_reverse.mp he)⟩

theorem Links.afterSearch (h : Links g tt) (o : Oracle) (found : Option Entry) :
    Links g (afterSearch o tt found) := by
  cases found
  · exact h
  · exact h.unlock _

/-- An entry with no link under the id of no built-in type. -/
theorem Links.add (h : Links g tt) (hg : WellLinked g ptsto) (hlink : e.pointerTo = -1)
    (fresh : ∀ i < g.len, e.type ≠ (i : Typ)) : Links g (tt.add e) where
  sound f hf := by
    rcases List.mem_cons.mp hf with rfl | hf
    · exact .inl hlink
    · exact h.sound f hf
  targeted f hf i hi ht hfi := by
    rcases List.mem_cons.mp hf with rfl | hf
    · rcases hg.target i hi with h' | ⟨j, hj, h'⟩
      · exact absurd h' ht
      · exact absurd (hfi.trans h') (fresh j hj)
    · exact h.targeted f hf i hi ht hfi

/-- Without collisions a search for the hash of a request finds the entry of the request. -/
theorem Sound.denotes_of_find (h : Sound g tt trace) {trace' : List (Request × Typ)}
    (hc : CollisionFree g trace') (hsub : ∀ x ∈ trace, x ∈ trace') (hr : (r, k) ∈ trace')
    (he : tt.find k = some e) : e.Denotes r := by
  have htype := TypeTable.type_of_find he
  rcases h.entry e (TypeTable.mem_of_find he) with ⟨i, hi, p, rfl⟩ | ⟨r', hr', hd⟩
  · exact absurd htype.symm (hc.fresh hr i hi)
  · rw [htype] at hr'
    rwa [hc.inj hr (hsub _ hr')]

/-- A search whose result is not accepted found nothing. -/
theorem Sound.afterSearch_eq (h : Sound g tt trace) {trace' : List (Request × Typ)}
    (hc : CollisionFree g (trace' ++ trace)) (hr : (r, k) ∈ trace') {q : Entry → Bool}
    (hq : ∀ e, e.Denotes r → q e = true) (hrej : ¬ (tt.find k).any q = true) (o : Oracle) :
    Types.afterSearch o tt (tt.find k) = tt := by
  cases he : tt.find k with
  | none => rfl
  | some e =>
    have denotes := h.denotes_of_find hc (fun _ => List.mem_append_right _)
      (List.mem_append_left _ hr) he
    exact absurd (by rw [he]; exact hq e denotes) hrej

theorem pointerTo_of_find {te : Entry} (h : cstriderGetTypPtstothis tt t = some (-1))
    (he : tt.find t = some te) : te.pointerTo = -1 := by
  rw [cstriderGetTypPtstothis, he] at h
  exact Option.some.inj h

theorem Links.mktyparr {o : Oracle} {n : Int} {m : Made} (h : Links g tt) (hs : Sound g tt trace)
    (hg : WellLinked g ptsto) (hc : CollisionFree g (m.trace ++ trace))
    (hp : cstriderGetTypPtstothis tt t = some (-1)) (hm : mktyparr o tt n t = some m) :
    Links g m.table := by
  unfold Types.mktyparr at hm
  simp only at hm
  split at hm
  · cases hm
    exact h.afterSearch o _
  · next hrej =>
    split at hm <;> cases hm
    next te hte =>
    have same := hs.afterSearch_eq hc (List.mem_singleton_self _)
      (fun e he => decide_eq_true (show _ ∧ _ from he))
      hrej o
    rw [same] at hte ⊢
    have noLink := pointerTo_of_find hp hte
    refine (h.add hg ?_ fun i hi => ?_).unlock _
    · exact noLink
    · exact hc.fresh (List.mem_append_left _ (List.mem_singleton_self _)) i hi

theorem Links.mktypfromgenargs {os : List Oracle} {n : Int} {a : Nat} {m : Made}
    (h : Links g tt) (hs : Sound g tt trace)
    (hg : WellLinked g ptsto) (hc : CollisionFree g (m.trace ++ trace))
    (hp : cstriderGetTypPtstothis tt t = some (-1)) (ht : cstriderGetPtrtype tt t = some (-1))
    (hm : mktypfromgenargs tt t n a os = some m) : Links g m.table := by
  cases os with
  | nil => cases hm
  | cons o os =>
    unfold Types.mktypfromgenargs at hm
    simp only at hm
    split at hm
    · cases hm
      exact h.afterSearch o _
    · next hrej =>
      split at hm
      · cases hm
      · next te hte =>
        obtain ⟨mt, hmt, rfl⟩ := Option.map_eq_some_iff.mp hm
        have same := hs.afterSearch_eq hc List.mem_cons_self
          (fun e he => decide_eq_true he.2) hrej o
        rw [same] at hte hmt
        have target : te.targetType = -1 := by
          rw [cstriderGetPtrtype, hte] at ht
          exact Option.some.inj ht
        rw [if_neg (not_not_intro target)] at hmt
        cases hmt
        have noLink := pointerTo_of_find hp hte
        refine (h.add hg ?_ fun i hi => ?_).unlock _
        · exact noLink
        · exact hc.fresh (List.mem_append_left _ List.mem_cons_self) i hi

theorem Links.make {c : Call} {h : History} {m : Made} (hl : Links g h.table)
    (hs : Sound g h.table h.trace) (hg : WellLinked g ptsto)
    (hc : CollisionFree g (m.trace ++ h.trace)) (harmless : Harmless c h)
    (hm : c.make h.table = some m) : Links g m.table := by
  cases c with
  | ptr t o => exact absurd harmless id
  | arr n t o => exact hl.mktyparr hs hg hc harmless hm
  | gen t n a os => exact hl.mktypfromgenargs hs hg hc harmless.1 harmless.2 hm

end Links

/-! ## Links in a history -/

section Histories

variable {g : Generated} {ptsto : Typ → Typ} {h : History}

theorem CollisionFree.of_append {trace trace' : List (Request × Typ)}
    (h : CollisionFree g (trace' ++ trace)) : CollisionFree g trace where
  inj hr hr' := h.inj (List.mem_append_right _ hr) (List.mem_append_right _ hr')
  functional hr hr' := h.functional (List.mem_append_right _ hr) (List.mem_append_right _ hr')
  fresh hr := h.fresh (List.mem_append_right _ hr)

/-- What a run of harmless calls keeps, as long as no hashes collide. -/
structure Kempt (g : Generated) (h : History) : Prop where
  links : CollisionFree g h.trace → Links g h.table
  noPtr : ∀ {t id}, (.ptr t, id) ∉ h.issued

theorem kempt (hg : WellLinked g ptsto) (hr : (histories g ptsto).ReachBy Harmless h) :
    Kempt g h := by
  induction hr with
  | init hi =>
    cases hi
    exact ⟨fun _ => links_typeInit hg, List.not_mem_nil⟩
  | step c hr harmless hst ih =>
    obtain ⟨m, hm, rfl⟩ := Option.map_eq_some_iff.mp hst
    have sound := (recorded_inductive.reach (fun _ => trivial) hr.reach).sound
    refine ⟨fun hc => (ih.links hc.of_append).make sound hg hc harmless hm, fun hid => ?_⟩
    rcases List.mem_cons.mp hid with heq | hid
    · cases c with
      | ptr => exact harmless
      | arr | gen => cases heq
    · exact ih.noPtr hid

instance : (c : Call) → (h : History) → Decidable (Harmless c h)
  | .ptr .., _ => inferInstanceAs (Decidable False)
  | .arr .., _ => inferInstanceAs (Decidable (_ = _))
  | .gen .., _ => inferInstanceAs (Decidable (_ ∧ _))

/-- **Pointer-to links.** The links are sound in every history of harmless calls without
collisions. -/
theorem linked_of_harmless (hg : WellLinked g ptsto)
    (hr : (histories g ptsto).ReachBy Harmless h) (hc : CollisionFree g h.trace) : Linked g h := by
  have recorded := recorded_inductive.reach (fun _ => trivial) hr.reach
  have law := recorded.law hc
  have links := (kempt hg hr).links hc
  have entry : ∀ {t p}, cstriderGetTypPtstothis h.table t = some p →
      ∃ e ∈ h.table, e.type = t ∧ e.pointerTo = p := by
    intro t p hp
    obtain ⟨e, he, rfl⟩ := Option.map_eq_some_iff.mp hp
    exact ⟨e, TypeTable.mem_of_find he, TypeTable.type_of_find he, rfl⟩
  refine ⟨fun hp => ?_, fun hid => absurd hid (kempt hg hr).noPtr, fun i hi ht hp => ?_⟩
  · obtain ⟨e, he, rfl, rfl⟩ := entry hp
    refine (links.sound e he).imp_right fun ⟨j, hj, hlink, htarget⟩ => ?_
    obtain ⟨p, hfind⟩ := law.builtin j hj
    rw [hlink, cstriderGetPtrtype, hfind, ← htarget]
    rfl
  · obtain ⟨e, he, htype, hlink⟩ := entry hp
    exact links.targeted e he i hi ht htype hlink

/-- A struct that nothing points to, and a pointer to `TYPE_CHAR`. -/
def charPtrTypes : Generated :=
  { plainTypes with len := 20, targetType := fun i => if i = 19 then 0 else -1 }

/-- An array of the struct, a generic type over it, and the array type once more. -/
def harmlessCalls : List Call :=
  [.arr 3 18 (padded 0), .gen 18 1 64 [padded 0], .arr 3 18 (padded 0)]

theorem linked_of_harmless_charPtr : ∃ h, (histories charPtrTypes fun _ => -1).Reach h ∧
    h.issued.length = 3 ∧ cstriderGetTypPtstothis h.table 0 = some 19 ∧ Linked charPtrTypes h := by
  have wellLinked : WellLinked charPtrTypes fun _ => -1 := by
    refine ⟨fun i _ => ?_, fun _ _ => .inl rfl⟩
    by_cases hi : i = 19
    · exact .inr ⟨0, by decide, by simp [charPtrTypes, hi]⟩
    · exact .inl (by simp [charPtrTypes, hi])
  obtain ⟨h, hr, hl, hp, hd⟩ : ∃ h, (histories charPtrTypes fun _ => -1).ReachBy Harmless h ∧
      (h.issued.length = 3 ∧ cstriderGetTypPtstothis h.table 0 = some 19 ∧
        Distinct 20 h.trace) :=
    Sys.exists_reachBy rfl (show (Sys.runBy _ _ harmlessCalls _).any _ = true by decide +kernel)
  exact ⟨h, hr.reach, hl, hp, linked_of_harmless wellLinked hr hd.collisionFree⟩

/-- `mktypptr(TYPE_CHAR)` enters a type with the placeholder `0` for the type that points to it:
`TYPE_CHAR`, which points nowhere. -/
theorem linked_fails : ∃ h, (histories plainTypes fun _ => -1).Reach h ∧
    CollisionFree plainTypes h.trace ∧ ¬ Linked plainTypes h := by
  obtain ⟨h, hr, hd, hp, ht⟩ : ∃ h, (histories plainTypes fun _ => -1).Reach h ∧
      (Distinct 18 h.trace ∧ cstriderGetTypPtstothis h.table 2791953481 = some 0 ∧
        cstriderGetPtrtype h.table 0 = some (-1)) :=
    Sys.exists_reach rfl (show (Sys.run _ [.ptr 0 (padded 0)] _).any _ = true by decide +kernel)
  refine ⟨h, hr, hd.collisionFree, fun linked => ?_⟩
  rcases linked.sound hp with h0 | hback
  · exact absurd h0 (by decide)
  · rw [ht] at hback
    cases hback

end Histories

end CStrider.Types
