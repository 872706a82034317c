import CStrider.Lib.System
import CStrider.Types.Table

/-!
# The type constructors `mktypptr`, `mktyparr`, `mktypfromgenargs` (`src/cstrider_api.c`)

A constructor hashes its arguments and returns the hash as the id of the type: it answers with
the entry that it finds under the hash if that has the right arguments, and enters a new one
otherwise, also when the entry it found is another type's. What a call depends on besides its
arguments is in an `Oracle`: the bytes of the hashed struct that are never assigned, and whether
the table is expanded when the call releases its bucket.
-/

namespace CStrider.Types

/-- What the constructors are asked for: a pointer to `t`, an array of `n` times `t`, the generic
type `t` with `k` arguments at `a`. -/
inductive Request where
  | ptr (t : Typ)
  | arr (n : Int) (t : Typ)
  | gen (t : Typ) (k : Int) (a : Nat)
  deriving DecidableEq, Repr

/-- The entry of the requested type. -/
def Entry.Denotes (e : Entry) : Request → Prop
  | .ptr t => e.arrlen = 0 ∧ e.targetType = t
  | .arr n t => e.arrlen = n ∧ e.arrbase = t
  | .gen t k a => e.maintype = t ∧ e.numGenArgs = k ∧ e.args = a

/-- The hash of a `typ`, a `hasharrcs` or a `hashgencs`, with `pad` in its padding bytes. -/
def Request.key (pad : Int) : Request → Typ
  | .ptr t => superFastHash (bytes 8 t)
  | .arr n t => superFastHash (bytes 4 n ++ bytes 4 pad ++ bytes 8 t)
  | .gen t k a => superFastHash (bytes 8 t ++ bytes 4 k ++ bytes 4 pad ++ bytes 8 a)

structure Oracle where
  pad : Int
  /-- expansion at the `XHASH_UNLOCK_RESV` of the branch that found an entry -/
  early : Bool
  /-- expansion at the one after `XHASH_ADD` -/
  late : Bool
  deriving Repr

/-- What a call leaves: the id, the table, and the requests made with their hashes, those of
nested calls included. -/
structure Made where
  id : Typ
  table : TypeTable
  trace : List (Request × Typ)

/-- `XHASH_UNLOCK_RESV`. -/
def unlock (x : Bool) (tt : TypeTable) : TypeTable := if x then tt.expand else tt

/-- The table with which a call goes on after its search found `te`, or nothing. -/
def afterSearch (o : Oracle) (tt : TypeTable) : Option Entry → TypeTable
  | some _ => unlock o.early tt
  | none => tt

/-- `mktypptr`; `none` where the entry of `type` is missing and `t->pointer_to` crashes. -/
def mktypptr (o : Oracle) (tt : TypeTable) (type : Typ) : Option Made :=
  let ptrto := (Request.ptr type).key o.pad
  let found := tt.find ptrto
  let tt := afterSearch o tt found
  if found.any fun te => te.targetType = type then
    some ⟨ptrto, tt, [(.ptr type, ptrto)]⟩
  else
    let new : Entry :=
      { type := ptrto, arrlen := 0, arrbase := 0, size := 8, func := .transformPrim
        targetType := type, pointerTo := 0, numGenArgs := 0, args := 0, maintype := ptrto
        outType := ptrto }
    if ((tt.add new).find type).isSome then
      some ⟨ptrto, unlock o.late ((tt.add new).setPointerTo type ptrto), [(.ptr type, ptrto)]⟩
    else none

/-- `mktyparr`; `none` where it exits because the base type is missing. -/
def mktyparr (o : Oracle) (tt : TypeTable) (arrlen : Int) (type : Typ) : Option Made :=
  let combo := (Request.arr arrlen type).key o.pad
  let found := tt.find combo
  let tt := afterSearch o tt found
  if found.any fun te => te.arrlen = arrlen ∧ te.arrbase = type then
    some ⟨combo, tt, [(.arr arrlen type, combo)]⟩
  else
    match tt.find type with
    | none => none
    | some te =>
      let new : Entry := { te with type := combo, arrlen := arrlen, arrbase := type }
      some ⟨combo, unlock o.late (tt.add new), [(.arr arrlen type, combo)]⟩

/-- `mktypfromgenargs`, one oracle for each level of the pointer tower; `none` also where the
oracles do not reach its bottom. -/
def mktypfromgenargs (tt : TypeTable) (t : Typ) (numargs : Int) (genargs : Nat) :
    List Oracle → Option Made
  | [] => none
  | o :: os =>
    let combo := (Request.gen t numargs genargs).key o.pad
    let found := tt.find combo
    let tt := afterSearch o tt found
    if found.any fun te => te.numGenArgs = numargs ∧ te.args = genargs then
      some ⟨combo, tt, [(.gen t numargs genargs, combo)]⟩
    else
      match tt.find t with
      | none => none
      | some te =>
        let target : Option Made :=
          if te.targetType ≠ -1 then mktypfromgenargs tt te.targetType numargs genargs os
          else some ⟨te.targetType, tt, []⟩
        target.map fun m =>
          let new : Entry :=
            { te with
              type := combo, outType := te.type, targetType := m.id, numGenArgs := numargs
              args := genargs, maintype := t }
          ⟨combo, unlock o.late (m.table.add new), (.gen t numargs genargs, combo) :: m.trace⟩

/-! ## Histories of calls -/

inductive Call where
  | ptr (t : Typ) (o : Oracle)
  | arr (n : Int) (t : Typ) (o : Oracle)
  | gen (t : Typ) (k : Int) (a : Nat) (os : List Oracle)
  deriving Repr

def Call.request : Call → Request
  | .ptr t _ => .ptr t
  | .arr n t _ => .arr n t
  | .gen t k a _ => .gen t k a

def Call.make (tt : TypeTable) : Call → Option Made
  | .ptr t o => mktypptr o tt t
  | .arr n t o => mktyparr o tt n t
  | .gen t k a os => mktypfromgenargs tt t k a os

/-- The table with its history: the ids that the calls returned, and all requests made. -/
structure History where
  table : TypeTable
  issued : List (Request × Typ)
  trace : List (Request × Typ)

/-- Any sequence of constructor calls after `cstrider_type_init`. -/
def histories (g : Generated) (ptsto : Typ → Typ) : Sys History Call where
  init h := h = ⟨(typeInit g [] ptsto).1, [], []⟩
  step c h := (c.make h.table).map fun m =>
    ⟨m.table, (c.request, m.id) :: h.issued, m.trace ++ h.trace⟩

/-- The law of hash-consing. -/
structure Law (g : Generated) (h : History) : Prop where
  issued : ∀ {r id}, (r, id) ∈ h.issued → ∃ e, h.table.find id = some e ∧ e.Denotes r
  builtin : ∀ i < g.len, ∃ p, h.table.find i = some (builtin g p i)
  functional : ∀ {r id id'}, (r, id) ∈ h.issued → (r, id') ∈ h.issued → id = id'

/-- The hashes tell the requests apart from each other and from the built-in types, and do not
depend on the padding. -/
structure CollisionFree (g : Generated) (trace : List (Request × Typ)) : Prop where
  inj : ∀ {r r' k}, (r, k) ∈ trace → (r', k) ∈ trace → r = r'
  functional : ∀ {r k k'}, (r, k) ∈ trace → (r, k') ∈ trace → k = k'
  fresh : ∀ {r k}, (r, k) ∈ trace → ∀ i < g.len, k ≠ (i : Typ)

/-- The same, in a form that can be computed. -/
def Distinct (len : Nat) (trace : List (Request × Typ)) : Prop :=
  ∀ x ∈ trace, (∀ y ∈ trace, x.1 = y.1 ↔ x.2 = y.2) ∧ ∀ i ∈ List.range len, x.2 ≠ (i : Typ)

instance (len : Nat) (trace : List (Request × Typ)) : Decidable (Distinct len trace) :=
  inferInstanceAs (Decidable (∀ x ∈ trace, (∀ y ∈ trace, _ ↔ _) ∧ ∀ i ∈ List.range len, _))

theorem Distinct.collisionFree {g : Generated} {trace : List (Request × Typ)}
    (h : Distinct g.len trace) : CollisionFree g trace where
  inj hr hr' := ((h _ hr).1 _ hr').mpr rfl
  functional hr hr' := ((h _ hr).1 _ hr').mp rfl
  fresh hr i hi := (h _ hr).2 i (List.mem_range.mpr hi)

/-- Every entry is a built-in type or was made for a request that was made under its key. -/
structure Sound (g : Generated) (tt : TypeTable) (trace : List (Request × Typ)) : Prop where
  entry : ∀ e ∈ tt, (∃ i < g.len, ∃ p, e = builtin g p i) ∨ ∃ r, (r, e.type) ∈ trace ∧ e.Denotes r
  builtin : ∀ i < g.len, (i : Typ) ∈ tt.map Entry.type
  made : ∀ {r k}, (r, k) ∈ trace → k ∈ tt.map Entry.type

section Soundness

variable {g : Generated} {tt : TypeTable} {trace : List (Request × Typ)} {r : Request} {k t p : Typ}
  {e : Entry}

theorem Entry.Denotes.pointerTo (h : e.Denotes r) : ({ e with pointerTo := p } : Entry).Denotes r := by
  cases r <;> exact h

theorem Sound.unlock (h : Sound g tt trace) (x : Bool) : Sound g (unlock x tt) trace := by
  cases x
  · exact h
  · refine ⟨fun e he => h.entry e (List.mem_reverse.mp he), fun i hi => ?_, fun hr => ?_⟩
    · simpa [Types.unlock, TypeTable.expand] using h.builtin i hi
    · simpa [Types.unlock, TypeTable.expand] using h.made hr

theorem Sound.afterSearch (h : Sound g tt trace) (o : Oracle) (found : Option Entry) :
    Sound g (afterSearch o tt found) trace := by
  cases found
  · exact h
  · exact h.unlock _

/-- A request that is answered from the table. -/
theorem Sound.hit (h : Sound g tt trace) (hk : k ∈ tt.map Entry.type) :
    Sound g tt ((r, k) :: trace) where
  entry e he := (h.entry e he).imp id fun ⟨r', hr', hd⟩ => ⟨r', List.mem_cons_of_mem _ hr', hd⟩
  builtin := h.builtin
  made hr := by
    rcases List.mem_cons.mp hr with heq | hr
    · cases heq
      exact hk
    · exact h.made hr

/-- A request for which a new entry is made. -/
theorem Sound.add (h : Sound g tt trace) (he : e.Denotes r) :
    Sound g (tt.add e) ((r, e.type) :: trace) where
  entry f hf := by
    rcases List.mem_cons.mp hf with rfl | hf
    · exact .inr ⟨r, List.mem_cons_self, he⟩
    · exact (h.entry f hf).imp id fun ⟨r', hr', hd⟩ => ⟨r', List.mem_cons_of_mem _ hr', hd⟩
  builtin i hi := List.mem_cons_of_mem _ (h.builtin i hi)
  made hr := by
    rcases List.mem_cons.mp hr with heq | hr
    · cases heq
      exact List.mem_cons_self
    · exact List.mem_cons_of_mem _ (h.made hr)

theorem Sound.setPointerTo (h : Sound g tt trace) : Sound g (tt.setPointerTo t p) trace where
  entry e he := by
    rcases TypeTable.mem_setPointerTo he with he | ⟨f, hf, rfl⟩
    · exact h.entry e he
    · refine (h.entry f hf).imp ?_ fun ⟨r, hr, hd⟩ => ⟨r, hr, hd.pointerTo⟩
      rintro ⟨i, hi, q, rfl⟩
      exact ⟨i, hi, p, rfl⟩
  builtin i hi := by
    rw [TypeTable.map_type_setPointerTo]
    exact h.builtin i hi
  made hr := by
    rw [TypeTable.map_type_setPointerTo]
    exact h.made hr

theorem keys_afterSearch (o : Oracle) (found : Option Entry) :
    (afterSearch o tt found).map Entry.type = tt.map Entry.type ∨
      (afterSearch o tt found).map Entry.type = (tt.map Entry.type).reverse := by
  cases found with
  | none => exact .inl rfl
  | some te =>
    simp only [Types.afterSearch, Types.unlock]
    split
    · exact .inr List.map_reverse
    · exact .inl rfl

theorem mem_keys_afterSearch (o : Oracle) {q : Entry → Bool} (h : (tt.find k).any q = true) :
    k ∈ (afterSearch o tt (tt.find k)).map Entry.type := by
  obtain ⟨te, hte, -⟩ := (Option.any_eq_true _ _).mp h
  have hmem : k ∈ tt.map Entry.type :=
    List.mem_map.mpr ⟨te, TypeTable.mem_of_find hte, TypeTable.type_of_find hte⟩
  have hkeys : (afterSearch o tt (tt.find k)).map Entry.type = tt.map Entry.type ∨
      (afterSearch o tt (tt.find k)).map Entry.type = (tt.map Entry.type).reverse :=
    keys_afterSearch o _
  rcases hkeys with hk | hk <;> rw [hk]
  · exact hmem
  · exact List.mem_reverse.mpr hmem

/-- What a constructor call leaves of a sound table. -/
def Kept (g : Generated) (trace : List (Request × Typ)) (r : Request) (m : Made) : Prop :=
  Sound g m.table (m.trace ++ trace) ∧ (r, m.id) ∈ m.trace

/-- The branch of a constructor that has found an entry. -/
theorem Sound.found {o : Oracle} {q : Entry → Bool} (h : Sound g tt trace)
    (hacc : (tt.find k).any q = true) :
    Kept g trace r ⟨k, Types.afterSearch o tt (tt.find k), [(r, k)]⟩ :=
  ⟨(h.afterSearch o _).hit (mem_keys_afterSearch o hacc), List.mem_singleton_self _⟩

theorem Sound.mktypptr {o : Oracle} {m : Made} (h : Sound g tt trace)
    (hm : mktypptr o tt t = some m) : Kept g trace (.ptr t) m := by
  unfold Types.mktypptr at hm
  simp only at hm
  split at hm
  · next hacc =>
    cases hm
    exact h.found hacc
  · split at hm <;> cases hm
    refine ⟨((h.afterSearch o _).add (e := _) ?_).setPointerTo.unlock _, List.mem_singleton_self _⟩
    exact ⟨rfl, rfl⟩

theorem Sound.mktyparr {o : Oracle} {n : Int} {m : Made} (h : Sound g tt trace)
    (hm : mktyparr o tt n t = some m) : Kept g trace (.arr n t) m := by
  unfold Types.mktyparr at hm
  simp only at hm
  split at hm
  · next hacc =>
    cases hm
    exact h.found hacc
  · split at hm <;> cases hm
    refine ⟨((h.afterSearch o _).add ?_).unlock _, List.mem_singleton_self _⟩
    exact ⟨rfl, rfl⟩

/-- The induction is on the oracles, that is on the levels of the pointer tower. -/
theorem Sound.mktypfromgenargs {n : Int} {a : Nat} {os : List Oracle} {m : Made}
    (h : Sound g tt trace) (hm : mktypfromgenargs tt t n a os = some m) :
    Kept g trace (.gen t n a) m := by
  induction os generalizing tt t m with
  | nil => cases hm
  | cons o os ih =>
    unfold Types.mktypfromgenargs at hm
    simp only at hm
    split at hm
    · next hacc =>
      cases hm
      exact h.found hacc
    · split at hm
      · cases hm
      · next te hte =>
        obtain ⟨mt, hmt, rfl⟩ := Option.map_eq_some_iff.mp hm
        have target : Sound g mt.table (mt.trace ++ trace) := by
          split at hmt
          · exact (ih (h.afterSearch o _) hmt).1
          · cases hmt
            exact h.afterSearch o _
        exact ⟨(target.add (r := .gen t n a) ⟨rfl, rfl, rfl⟩).unlock _, List.mem_cons_self⟩

theorem Sound.make {c : Call} {m : Made} (h : Sound g tt trace) (hm : c.make tt = some m) :
    Kept g trace c.request m := by
  cases c with
  | ptr t o => exact h.mktypptr hm
  | arr n t o => exact h.mktyparr hm
  | gen t n a os => exact h.mktypfromgenargs hm

theorem Sound.typeInit {ptsto : Typ → Typ} : Sound g (typeInit g [] ptsto).1 [] := by
  obtain ⟨hkeys, hentry⟩ := typeInit_rounds (Eq.refl ((List.range g.len).foldl _ ([], ptsto)))
  refine ⟨fun e he => .inl (hentry e he), fun i hi => ?_, fun hr => absurd hr List.not_mem_nil⟩
  rw [Types.typeInit, hkeys, List.mem_reverse, List.mem_map]
  exact ⟨i, List.mem_range.mpr hi, rfl⟩

end Soundness

/-! ### What new entries take over -/

section Inheritance

/-- A property of entries that the constructors pass on to the entries they make, and that does not
depend on `pointer_to`. -/
structure Inherited (P : Entry → Prop) : Prop where
  pointerTo : ∀ {e p}, P e → P { e with pointerTo := p }
  ptr : ∀ id t, P
    { type := id, arrlen := 0, arrbase := 0, size := 8, func := .transformPrim, targetType := t
      pointerTo := 0, numGenArgs := 0, args := 0, maintype := id, outType := id }
  arr : ∀ {e} id n t, P e → P { e with type := id, arrlen := n, arrbase := t }
  gen : ∀ {e} id target n a t, P e → (e.targetType = -1 → target = -1) →
    (e.targetType ≠ -1 → target ≠ -1) → P
      { e with
        type := id, outType := e.type, targetType := target, numGenArgs := n, args := a
        maintype := t }

theorem superFastHash_ne (data : List UInt8) : superFastHash data ≠ -1 := by
  unfold superFastHash
  split
  · decide
  · exact fun h => absurd (h ▸ Int.natCast_nonneg _ : (0 : Int) ≤ -1) (by decide)

theorem key_ne (r : Request) (pad : Int) : r.key pad ≠ -1 := by
  cases r <;> exact superFastHash_ne _

variable {P : Entry → Prop} {tt : TypeTable} {t : Typ} {n : Int}

theorem forall_mem_unlock (h : ∀ e ∈ tt, P e) (x : Bool) : ∀ e ∈ unlock x tt, P e := by
  cases x
  · exact h
  · exact fun e he => h e (List.mem_reverse.mp he)

theorem forall_mem_afterSearch (h : ∀ e ∈ tt, P e) (o : Oracle) (found : Option Entry) :
    ∀ e ∈ afterSearch o tt found, P e := by
  cases found
  · exact h
  · exact forall_mem_unlock h _

theorem Inherited.setPointerTo (hP : Inherited P) {p : Typ} (h : ∀ e ∈ tt, P e) :
    ∀ e ∈ tt.setPointerTo t p, P e := by
  intro e he
  rcases TypeTable.mem_setPointerTo he with he | ⟨f, hf, rfl⟩
  · exact h e he
  · exact hP.pointerTo (h f hf)

theorem Inherited.mktypptr (hP : Inherited P) (h : ∀ e ∈ tt, P e) {o : Oracle} {m : Made}
    (hm : mktypptr o tt t = some m) : ∀ e ∈ m.table, P e := by
  unfold Types.mktypptr at hm
  simp only at hm
  have searched := forall_mem_afterSearch h o (tt.find ((Request.ptr t).key o.pad))
  split at hm
  · cases hm
    exact searched
  · split at hm <;> cases hm
    exact forall_mem_unlock (hP.setPointerTo (List.forall_mem_cons.mpr ⟨hP.ptr _ _, searched⟩)) _

theorem Inherited.mktyparr (hP : Inherited P) (h : ∀ e ∈ tt, P e) {o : Oracle} {m : Made}
    (hm : mktyparr o tt n t = some m) : ∀ e ∈ m.table, P e := by
  unfold Types.mktyparr at hm
  simp only at hm
  have searched := forall_mem_afterSearch h o (tt.find ((Request.arr n t).key o.pad))
  split at hm
  · cases hm
    exact searched
  · split at hm <;> cases hm
    next te hte =>
    have base := searched te (TypeTable.mem_of_find hte)
    exact forall_mem_unlock (List.forall_mem_cons.mpr ⟨hP.arr _ _ _ base, searched⟩) _

/-- The induction is on the levels of the pointer tower. -/
theorem Inherited.mktypfromgenargs (hP : Inherited P) (h : ∀ e ∈ tt, P e) {a : Nat}
    {os : List Oracle} {m : Made} (hm : mktypfromgenargs tt t n a os = some m) :
    (∀ e ∈ m.table, P e) ∧ m.id ≠ -1 := by
  induction os generalizing tt t m with
  | nil => cases hm
  | cons o os ih =>
    unfold Types.mktypfromgenargs at hm
    simp only at hm
    have searched := forall_mem_afterSearch h o (tt.find ((Request.gen t n a).key o.pad))
    split at hm
    · cases hm
      exact ⟨searched, key_ne (.gen t n a) o.pad⟩
    · split at hm
      · cases hm
      · next te hte =>
        obtain ⟨mt, hmt, rfl⟩ := Option.map_eq_some_iff.mp hm
        have base := searched te (TypeTable.mem_of_find hte)
        refine ⟨?_, key_ne (.gen t n a) o.pad⟩
        split at hmt
        · next htarget =>
          obtain ⟨made, id⟩ := ih searched hmt
          have new := hP.gen ((Request.gen t n a).key o.pad) mt.id n a t base
            (fun h => absurd h htarget) fun _ => id
          exact forall_mem_unlock (List.forall_mem_cons.mpr ⟨new, made⟩) _
        · next htarget =>
          cases hmt
          have new := hP.gen ((Request.gen t n a).key o.pad) te.targetType n a t base id id
          exact forall_mem_unlock (List.forall_mem_cons.mpr ⟨new, searched⟩) _

theorem Inherited.make (hP : Inherited P) (h : ∀ e ∈ tt, P e) {c : Call} {m : Made}
    (hm : c.make tt = some m) : ∀ e ∈ m.table, P e := by
  cases c with
  | ptr t o => exact hP.mktypptr h hm
  | arr n t o => exact hP.mktyparr h hm
  | gen t n a os => exact (hP.mktypfromgenargs h hm).1

/-- What holds of all built-in entries and is inherited holds in every history. -/
theorem Inherited.reach (hP : Inherited P) {g : Generated} {ptsto : Typ → Typ} {h : History}
    (builtins : ∀ i < g.len, ∀ p, P (builtin g p i)) (hr : (histories g ptsto).Reach h) :
    ∀ e ∈ h.table, P e := by
  have inv : (histories g ptsto).Inductive (fun _ => True) (fun h => ∀ e ∈ h.table, P e) := by
    constructor
    · rintro h rfl e he
      obtain ⟨i, hi, p, rfl⟩ := (typeInit_rounds (Eq.refl (rounds g ptsto g.len))).2 e he
      exact builtins i hi p
    · intro c h h' _ hall hst
      obtain ⟨m, hm, rfl⟩ := Option.map_eq_some_iff.mp hst
      exact hP.make hall hm
  exact inv.reach (fun _ => trivial) hr

end Inheritance

section Histories

variable {g : Generated} {ptsto : Typ → Typ} {h : History}

/-- The invariant of all histories. -/
structure Recorded (g : Generated) (h : History) : Prop where
  sound : Sound g h.table h.trace
  issued : ∀ x ∈ h.issued, x ∈ h.trace

theorem recorded_inductive : (histories g ptsto).Inductive (fun _ => True) (Recorded g) where
  init := by
    rintro h rfl
    exact ⟨Sound.typeInit, fun x hx => absurd hx List.not_mem_nil⟩
  step := by
    intro c h h' _ hr hst
    obtain ⟨m, hm, rfl⟩ := Option.map_eq_some_iff.mp hst
    obtain ⟨sound, id⟩ := hr.sound.make hm
    refine ⟨sound, fun x hx => List.mem_append.mpr ?_⟩
    rcases List.mem_cons.mp hx with rfl | hx
    · exact .inl id
    · exact .inr (hr.issued x hx)

theorem Recorded.law (hr : Recorded g h) (hc : CollisionFree g h.trace) : Law g h where
  issued := by
    intro r id hid
    have htrace := hr.issued _ hid
    obtain ⟨e, he⟩ := TypeTable.exists_find (hr.sound.made htrace)
    refine ⟨e, he, ?_⟩
    have htype := TypeTable.type_of_find he
    rcases hr.sound.entry e (TypeTable.mem_of_find he) with ⟨i, hi, p, rfl⟩ | ⟨r', hr', hd⟩
    · exact absurd htype.symm (hc.fresh htrace i hi)
    · rw [htype] at hr'
      rwa [hc.inj htrace hr']
  builtin := by
    intro i hi
    obtain ⟨e, he⟩ := TypeTable.exists_find (hr.sound.builtin i hi)
    have htype := TypeTable.type_of_find he
    rcases hr.sound.entry e (TypeTable.mem_of_find he) with ⟨j, hj, p, rfl⟩ | ⟨r', hr', -⟩
    · obtain rfl : j = i := Int.ofNat_inj.mp htype
      exact ⟨p, he⟩
    · exact absurd htype (hc.fresh hr' i hi)
  functional := fun h1 h2 => hc.functional (hr.issued _ h1) (hr.issued _ h2)

/-- **Hash-consing without collisions.** In every history whose requests get distinct hashes,
distinct from the built-in ids and independent of the padding, all ids look up to what they were
returned for. -/
theorem law_of_collisionFree (hr : (histories g ptsto).Reach h)
    (hc : CollisionFree g h.trace) : Law g h :=
  (recorded_inductive.reach (fun _ => trivial) hr).law hc

/-- Oracles without expansion. -/
def padded (pad : Int) : Oracle := ⟨pad, false, false⟩

/-- A pointer type, a generic type over it with its nested request, an array type, and the pointer
type once more. -/
def nestedCalls : List Call :=
  [.ptr 0 (padded 0), .gen 2791953481 1 64 [padded 0, padded 0], .arr 3 0 (padded 0),
    .ptr 0 (padded 0)]

theorem law_of_collisionFree_nested :
    ∃ h, (histories plainTypes fun _ => -1).Reach h ∧ h.issued.length = 4 ∧ Law plainTypes h := by
  obtain ⟨h, hr, hl, hf⟩ : ∃ h, (histories plainTypes fun _ => -1).Reach h ∧
      (h.issued.length = 4 ∧ Distinct 18 h.trace) :=
    Sys.exists_reach rfl (show (Sys.run _ nestedCalls _).any _ = true by decide +kernel)
  exact ⟨h, hr, hl, law_of_collisionFree hr hf.collisionFree⟩

/-- The law fails for two lengths of an array with one hash, whatever the padding, and for two
equal requests with different padding. -/
theorem law_fails :
    (∃ h, (histories plainTypes fun _ => -1).Reach h ∧ (∀ x ∈ h.issued, x.2 = 23142384) ∧
      ¬ Law plainTypes h) ∧
    ∃ h, (histories plainTypes fun _ => -1).Reach h ∧ (∀ x ∈ h.issued, x.1 = .arr 3 0) ∧
      ¬ Law plainTypes h := by
  constructor
  · obtain ⟨h, hr, hid, hmem, hfind⟩ : ∃ h, (histories plainTypes fun _ => -1).Reach h ∧
        ((∀ x ∈ h.issued, x.2 = 23142384) ∧ (.arr 136572 0, 23142384) ∈ h.issued ∧
          (h.table.find 23142384).map Entry.arrlen = some 337389) :=
      Sys.exists_reach rfl (show (Sys.run _
        [.arr 136572 0 (padded 0), .arr 337389 0 (padded 0)] _).any _ = true by decide +kernel)
    refine ⟨h, hr, hid, fun law => ?_⟩
    obtain ⟨e, he, hd⟩ := law.issued hmem
    rw [he] at hfind
    exact absurd ((Option.some.inj hfind).symm.trans hd.1) (by decide)
  · obtain ⟨h, hr, hreq, hids⟩ : ∃ h, (histories plainTypes fun _ => -1).Reach h ∧
        ((∀ x ∈ h.issued, x.1 = .arr 3 0) ∧ ∃ x ∈ h.issued, ∃ y ∈ h.issued, x.2 ≠ y.2) :=
      Sys.exists_reach rfl (show (Sys.run _
        [.arr 3 0 (padded 0), .arr 3 0 (padded 1)] _).any _ = true by decide +kernel)
    refine ⟨h, hr, hreq, fun law => ?_⟩
    obtain ⟨⟨r, id⟩, hx, ⟨r', id'⟩, hy, hne⟩ := hids
    obtain rfl : r = .arr 3 0 := hreq _ hx
    obtain rfl : r' = .arr 3 0 := hreq _ hy
    exact hne (law.functional hx hy)

end Histories

end CStrider.Types
