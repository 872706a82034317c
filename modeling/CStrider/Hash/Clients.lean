import CStrider.Hash.Runs
import CStrider.Mapping.Table
import CStrider.Types.Table
import Mathlib.Data.List.Find

/-!
# The tables of `src/cstrider_api.c` are hashes

`Mapping.Table` and `Types.TypeTable`, on which the results about mappings and types rest, are lists
of entries. Here the same calls are made on a hash: `find_mapping` and `get_typeinfo_from_table`
give on it what they give on the lists. For the mapping table this is so for whatever function the
lists use to pick a bucket; for the type table the list turns around when the hash expands.
-/

namespace CStrider.Uthash

open Mapping (Ptr)
open CStrider.Types (Typ TypeTable)

variable {α : Type} [DecidableEq α]

section Keys

variable {κ : Type} {c : Config} {hash : κ → Nat} {V : View α κ} {u : Hash α κ} {a : α} {k : κ}

/-- The hash has the elements of `V`, and no other element is allocated. -/
structure Hash.Alone (c : Config) (hash : κ → Nat) (u : Hash α κ) (V : View α κ) : Prop where
  sound : u.Sound hash V
  locked : u.Locked c
  alloc : ∀ a, (u.hh a).isSome = true ↔ a ∈ V.order

omit [DecidableEq α] in
theorem Hash.alone_empty (key : α → κ) :
    (empty : Hash α κ).Alone c hash ⟨[], [], key, List.nodup_nil, .nil⟩ :=
  ⟨⟨rfl, fun _ => rfl, fun hne => absurd rfl hne⟩, fun _ _ ht => (by cases ht), by simp [empty]⟩

/-- Where adding does not expand, the new element is first in rank. -/
theorem Hash.Alone.add (h : u.Alone c hash V) (ha : u.hh a = none) (hc : c.expands = false)
    (contents : Handle α κ) (k : κ) :
    ∃ u₁ u' hV, malloc u a contents = some u₁ ∧ hashAddKeyptr c hash u₁ k a = some u' ∧
      u'.Alone c hash (V.add a k hV) := by
  have hnot : a ∉ V.order := by
    rw [← h.alloc, ha]
    exact Bool.false_ne_true
  have hs : Hash.Sound hash { u with hh := Function.update u.hh a (some contents) } V := by
    refine h.sound.congr fun d hd => Function.update_of_ne ?_ _ _
    rintro rfl
    exact hnot hd
  obtain ⟨u', he, hu', hlock, hsome, -⟩ :=
    hs.add (c := c) h.locked hnot (by simp)
      (fun hexpands => by rw [hc] at hexpands; cases hexpands) k
  refine ⟨_, u', hnot, by rw [malloc, ha], he, ?_, hlock, fun d => ?_⟩
  · rcases hu' with hu' | ⟨hexpands, -⟩
    · exact hu'
    · rw [hc] at hexpands
      cases hexpands
  · rw [hsome, View.mem_add]
    by_cases hd : d = a
    · simp [hd]
    · simp [hd, h.alloc]

/-- A search for the new key finds the new element. -/
theorem View.find_add [DecidableEq κ] (hV : a ∉ V.order) (k k' : κ) :
    ((V.add a k hV).ranks.find? fun d => (V.add a k hV).key d = k') =
      if k = k' then some a else V.ranks.find? fun d => V.key d = k' := by
  have hrest : (V.ranks.find? fun d => (V.add a k hV).key d = k') =
      V.ranks.find? fun d => V.key d = k' :=
    List.find?_congr fun d hd => by rw [View.key_add_of_mem hV (V.perm.mem_iff.mp hd)]
  have hranks : (V.add a k hV).ranks = a :: V.ranks := rfl
  rw [hranks, List.find?_cons, View.key_add_self, hrest]
  by_cases hk : k = k' <;> simp [hk]

end Keys

/-! ## The mapping table -/

section Mappings

/-- `pxform_mappings_head`, and the field `addr` of the entries. -/
structure Mappings (α : Type) where
  table : Hash α Ptr
  addr : α → Ptr

variable (hash : Ptr → Nat)

/-- `find_mapping`. -/
def findMapping (m : Mappings α) (key : Ptr) : Option Ptr :=
  if key = 0 then some 0
  else (hashFind hash m.table key).map fun
    | some e => m.addr e
    | none => 0

/-- A call `add_mapping(key, addr)`, in which `malloc` would give `e`. -/
structure AddMapping (α : Type) where
  key : Ptr
  addr : Ptr
  e : α
  contents : Handle α Ptr

/-- `add_mapping`. -/
def addMapping (m : Mappings α) (call : AddMapping α) : Option (Mappings α) :=
  if call.key = 0 then some m
  else do
    let r ← findMapping hash m call.key
    if r = 0 then
      let u ← malloc m.table call.e call.contents
      let u ← hashAddKeyptr uthashNxform hash u call.key call.e
      some ⟨u, Function.update m.addr call.e call.addr⟩
    else some m

variable {hash} {m : Mappings α} {t : Mapping.Table} {bucket : Ptr → Nat}

/-- A search of the hash and one of the lists find the same address. -/
def Mappings.Agree (hash : Ptr → Nat) (bucket : Ptr → Nat) (m : Mappings α) (t : Mapping.Table) :
    Prop :=
  ∃ V : View α Ptr, m.table.Alone uthashNxform hash V ∧
    ∀ k, (V.ranks.find? fun a => V.key a = k).map m.addr =
      ((t (bucket k)).find? fun e => e.key == k).map (·.addr)

omit [DecidableEq α] in
theorem Mappings.Agree.find (h : m.Agree hash bucket t) (k : Ptr) :
    findMapping hash m k = some (Mapping.findMapping bucket t k) := by
  obtain ⟨V, hu, hk⟩ := h
  unfold findMapping Mapping.findMapping
  split
  · rfl
  · rw [hu.sound.find, Option.map_some, Option.some.injEq]
    specialize hk k
    cases hV : V.ranks.find? fun a => V.key a = k with
    | none =>
      rw [hV, Option.map_none, eq_comm, Option.map_eq_none_iff] at hk
      rw [hk]
    | some a =>
      rw [hV, Option.map_some, eq_comm, Option.map_eq_some_iff] at hk
      obtain ⟨e, he, haddr⟩ := hk
      rw [he]
      exact haddr.symm

theorem Mappings.Agree.add (h : m.Agree hash bucket t) {call : AddMapping α}
    (hfresh : m.table.hh call.e = none) :
    ∃ m', addMapping hash m call = some m' ∧
      m'.Agree hash bucket (Mapping.addMapping bucket t call.key call.addr) ∧
      ∀ a, a ≠ call.e → m.table.hh a = none → m'.table.hh a = none := by
  have hfind := h.find call.key
  unfold addMapping Mapping.addMapping
  by_cases hkey : call.key = 0
  · exact ⟨m, if_pos hkey, by rwa [if_pos hkey], fun _ _ => id⟩
  rw [if_neg hkey, if_neg hkey, hfind, Option.bind_eq_bind, Option.bind_some]
  by_cases hnew : Mapping.findMapping bucket t call.key = 0
  · rw [if_pos hnew, if_pos hnew]
    obtain ⟨V, hu, hk⟩ := h
    obtain ⟨u₁, u', hV, he₁, he', hu'⟩ := hu.add hfresh rfl call.contents
      call.key
    dsimp only [Option.bind_eq_bind]
    rw [he₁, Option.bind_some, he', Option.bind_some]
    refine ⟨_, rfl, ⟨_, hu', fun k => ?_⟩, fun a ha hnone => ?_⟩
    · dsimp only
      rw [View.find_add, Mapping.nxhashAdd]
      by_cases hk' : call.key = k
      · subst hk'
        simp
      · rw [if_neg hk']
        have haddr : (V.ranks.find? fun a => V.key a = k).map
            (Function.update m.addr call.e call.addr) =
              (V.ranks.find? fun a => V.key a = k).map m.addr := by
          refine Option.map_congr fun d hd => Function.update_of_ne ?_ _ _
          rintro rfl
          exact hV (V.perm.mem_iff.mp (List.mem_of_find?_eq_some hd))
        rw [haddr, hk k]
        by_cases hb : bucket k = bucket call.key
        · rw [hb, Function.update_self, List.find?_cons_of_neg (by simpa using hk')]
        · rw [Function.update_of_ne hb]
    · rw [← Option.not_isSome_iff_eq_none, hu'.alloc, View.mem_add, ← hu.alloc, hnone]
      simpa using ha
  · exact ⟨m, if_neg hnew, by rwa [if_neg hnew], fun _ _ => id⟩

theorem Mappings.Agree.run (h : m.Agree hash bucket t) {calls : List (AddMapping α)}
    (hfresh : ∀ call ∈ calls, m.table.hh call.e = none) (hdistinct : (calls.map (·.e)).Nodup) :
    ∃ m', calls.foldlM (addMapping hash) m = some m' ∧ m'.Agree hash bucket
      (calls.foldl (fun t call => Mapping.addMapping bucket t call.key call.addr) t) := by
  induction calls generalizing m t with
  | nil => exact ⟨m, rfl, h⟩
  | cons call calls ih =>
    obtain ⟨hnot, hdistinct⟩ := List.nodup_cons.mp hdistinct
    obtain ⟨m₁, he₁, h₁, hnone⟩ := h.add (hfresh call List.mem_cons_self)
    obtain ⟨m', he', h'⟩ := ih h₁ (fun c hc => by
      refine hnone c.e (fun heq => hnot ?_) (hfresh c (List.mem_cons_of_mem call hc))
      exact List.mem_map.mpr ⟨c, hc, heq⟩) hdistinct
    exact ⟨m', by rw [List.foldlM_cons, he₁, Option.bind_eq_bind, Option.bind_some, he'], h'⟩

/-- After any calls of `add_mapping`, `find_mapping` on the hash finds what it finds on the lists of
`Mapping.Table`, when `malloc` gives a new block each time. -/
theorem find_mapping_refines (hash bucket : Ptr → Nat) {calls : List (AddMapping α)}
    (hdistinct : (calls.map (·.e)).Nodup) :
    ∃ m, calls.foldlM (addMapping hash) ⟨empty, fun _ => 0⟩ = some m ∧ ∀ k,
      findMapping hash m k = some (Mapping.findMapping bucket
        (calls.foldl (fun t call => Mapping.addMapping bucket t call.key call.addr) fun _ => [])
        k) := by
  have hinit : Mappings.Agree hash bucket (⟨empty, fun _ => 0⟩ : Mappings α) fun _ => [] :=
    ⟨_, Hash.alone_empty fun _ => 0, fun _ => rfl⟩
  obtain ⟨m, he, hm⟩ := hinit.run (fun _ _ => rfl) hdistinct
  exact ⟨m, he, hm.find⟩

/-- A key that is mapped twice. -/
def twice : List (AddMapping Nat) :=
  let contents : Handle Nat Ptr := ⟨none, none, none, none, 0, 0⟩
  [⟨24, 48, 1, contents⟩, ⟨24, 56, 2, contents⟩]

theorem find_mapping_refines_twice :
    ∃ m, twice.foldlM (addMapping id) ⟨empty, fun _ => 0⟩ = some m ∧ ∀ k,
      findMapping id m k = some (Mapping.findMapping (fun _ => 0)
        (twice.foldl (fun t call => Mapping.addMapping (fun _ => 0) t call.key call.addr)
          fun _ => []) k) :=
  find_mapping_refines id (fun _ => 0) (by decide)

end Mappings

/-! ## The type table -/

section Types

/-- `type_hashtbl`, and the entries but for their handles. -/
structure TypeHash (α : Type) where
  table : Hash α Typ
  entry : α → Types.Entry

/-- What is done with the type table. -/
inductive TypeCall (α : Type) where
  /-- `malloc` gives `a`, for `XHASH_ADD` -/
  | add (e : Types.Entry) (a : α) (contents : Handle α Typ)
  /-- the end of `XHASH_UNLOCK_RESV` -/
  | unlock (k : Typ)
  /-- `pointer_to` of the entry that a search finds -/
  | setPointerTo (t p : Typ)

variable (hash : Typ → Nat)

/-- `get_typeinfo_from_table`. -/
def getTypeinfoFromTable (m : TypeHash α) (t : Typ) : Option (Option Types.Entry) :=
  (hashFind hash m.table t).map fun r => r.map m.entry

def TypeCall.run (m : TypeHash α) : TypeCall α → Option (TypeHash α)
  | .add e a contents => do
    let u ← malloc m.table a contents
    let u ← hashAddKeyptr uthashXform hash u e.type a
    some ⟨u, Function.update m.entry a e⟩
  | .unlock k => do
    let u ← xhashUnlock hash m.table k
    some { m with table := u }
  | .setPointerTo t p => do
    let r ← hashFind hash m.table t
    match r with
    | some a => some { m with
        entry := Function.update m.entry a { m.entry a with pointerTo := p } }
    | none => some m

/-- The same on a list, which turns around if there is an expansion. -/
def TypeCall.Step : TypeCall α → TypeTable → TypeTable → Prop
  | .add e _ _, tt, tt' => tt' = tt.add e
  | .unlock _, tt, tt' => tt' = tt ∨ tt' = tt.expand
  | .setPointerTo t p, tt, tt' => tt' = tt.setPointerTo t p

/-- What the list can be after the calls. -/
def Outcome : List (TypeCall α) → TypeTable → TypeTable → Prop
  | [], tt, tt' => tt' = tt
  | call :: calls, tt, tt' => ∃ tt₁, call.Step tt tt₁ ∧ Outcome calls tt₁ tt'

variable {hash} {m : TypeHash α} {tt : TypeTable}

/-- The entries by rank are the list. -/
structure TypeHash.Agree (hash : Typ → Nat) (m : TypeHash α) (tt : TypeTable) (V : View α Typ) :
    Prop where
  alone : m.table.Alone uthashXform hash V
  list : tt = V.ranks.map m.entry
  key : ∀ a ∈ V.ranks, (m.entry a).type = V.key a

theorem setPointerTo_map {l : List α} {entry : α → Types.Entry} {key : α → Typ} {t p : Typ}
    (hl : l.Nodup) (hkey : ∀ a ∈ l, (entry a).type = key a) :
    TypeTable.setPointerTo t p (l.map entry) =
      match l.find? fun a => key a = t with
      | some a => l.map (Function.update entry a { entry a with pointerTo := p })
      | none => l.map entry := by
  induction l with
  | nil => rfl
  | cons a l ih =>
    obtain ⟨hnot, hl⟩ := List.nodup_cons.mp hl
    have hkey_a := hkey a List.mem_cons_self
    rw [List.map_cons, TypeTable.setPointerTo, List.find?_cons]
    by_cases hat : key a = t
    · have hrest : l.map (Function.update entry a { entry a with pointerTo := p }) =
          l.map entry := by
        refine List.map_congr_left fun d hd => Function.update_of_ne ?_ _ _
        rintro rfl
        exact hnot hd
      rw [if_pos (hkey_a.trans hat)]
      simp only [hat, decide_true, List.map_cons, Function.update_self, hrest]
    · rw [if_neg (hkey_a ▸ hat), ih hl fun d hd => hkey d (List.mem_cons_of_mem a hd)]
      simp only [hat, decide_false]
      cases hfind : l.find? fun a => key a = t with
      | none => rfl
      | some d =>
        have hda : a ≠ d := by
          rintro rfl
          exact hnot (List.mem_of_find?_eq_some hfind)
        simp only [List.map_cons, Function.update_of_ne hda]

variable {V : View α Typ}

omit [DecidableEq α] in
theorem TypeHash.Agree.find (h : m.Agree hash tt V) (t : Typ) :
    getTypeinfoFromTable hash m t = some (tt.find t) := by
  rw [getTypeinfoFromTable, h.alone.sound.find, h.list, Option.map_some, TypeTable.find,
    List.find?_map]
  congr 2
  refine List.find?_congr fun a ha => ?_
  rw [Function.comp_apply, h.key a ha]
  by_cases hk : V.key a = t <;> simp [hk]

/-- The elements that a call allocates. -/
def TypeCall.allocates : TypeCall α → Option α
  | .add _ a _ => some a
  | _ => none

theorem TypeHash.Agree.add (h : m.Agree hash tt V) {a : α} (ha : m.table.hh a = none)
    (e : Types.Entry) (contents : Handle α Typ) :
    ∃ m' hV, (TypeCall.add e a contents).run hash m = some m' ∧
      m'.Agree hash (tt.add e) (V.add a e.type hV) ∧
      ∀ d, a ≠ d → m.table.hh d = none → m'.table.hh d = none := by
  obtain ⟨u₁, u', hV, he₁, he', hu'⟩ := h.alone.add ha rfl contents e.type
  have hold {d : α} (hd : d ∈ V.ranks) : d ≠ a := by
    rintro rfl
    exact hV (V.perm.mem_iff.mp hd)
  refine ⟨⟨u', Function.update m.entry a e⟩, hV, ?_, ⟨hu', ?_, fun d hd => ?_⟩,
    fun d hd hnone => ?_⟩
  · rw [TypeCall.run, he₁, Option.bind_eq_bind, Option.bind_some, he']
    rfl
  · have hrest : V.ranks.map (Function.update m.entry a e) = V.ranks.map m.entry :=
      List.map_congr_left fun d hd => Function.update_of_ne (hold hd) _ _
    change e :: tt = Function.update m.entry a e a :: V.ranks.map (Function.update m.entry a e)
    rw [Function.update_self, hrest, ← h.list]
  · dsimp only
    rcases List.mem_cons.mp hd with rfl | hd
    · rw [Function.update_self, View.key_add_self]
    · rw [Function.update_of_ne (hold hd), View.key_add_of_mem hV (V.perm.mem_iff.mp hd),
        h.key d hd]
  · rw [← Option.not_isSome_iff_eq_none, hu'.alloc, View.mem_add, ← h.alone.alloc, hnone]
    simpa using Ne.symm hd

theorem TypeHash.Agree.step (h : m.Agree hash tt V) (hV : V.order ≠ [])
    (hlen : V.order.length < 2 ^ 32) {call : TypeCall α}
    (hfresh : ∀ a, call.allocates = some a → m.table.hh a = none) :
    ∃ m' tt' V', call.run hash m = some m' ∧ call.Step tt tt' ∧ m'.Agree hash tt' V' ∧
      V'.order ≠ [] ∧ V'.order.length = V.order.length + call.allocates.toList.length ∧
      ∀ a, call.allocates ≠ some a → m.table.hh a = none → m'.table.hh a = none := by
  cases call with
  | add e a contents =>
    obtain ⟨m', hnot, he, hm', hnone⟩ := h.add (hfresh a rfl) e contents
    exact ⟨m', _, _, he, rfl, hm', by simp [View.add], List.length_append,
      fun d hd => hnone d fun heq => hd (heq ▸ rfl)⟩
  | unlock k =>
    obtain ⟨u', he, hu', hlock, hsome, -⟩ := h.alone.sound.unlock h.alone.locked hV hlen k
    have hnone (a : α) (ha : m.table.hh a = none) : u'.hh a = none := by
      rw [← Option.not_isSome_iff_eq_none, hsome, ha]
      exact Bool.false_ne_true
    have halloc (a : α) : (u'.hh a).isSome = true ↔ a ∈ V.order := by
      rw [hsome, h.alone.alloc]
    have hrun : TypeCall.run hash m (.unlock k) = some { m with table := u' } := by
      rw [TypeCall.run, he]
      rfl
    rcases hu' with hu' | hu'
    · exact ⟨_, tt, V, hrun, .inl rfl, ⟨⟨hu', hlock, halloc⟩, h.list, h.key⟩, hV, rfl,
        fun a _ => hnone a⟩
    · refine ⟨_, tt.expand, V.turn, hrun, .inr rfl, ⟨⟨hu', hlock, halloc⟩, ?_, fun a ha => ?_⟩, hV,
        rfl, fun a _ => hnone a⟩
      · rw [h.list]
        exact List.map_reverse.symm
      · exact h.key a (List.mem_reverse.mp ha)
  | setPointerTo t p =>
    have hmap := setPointerTo_map (t := t) (p := p)
      (V.perm.nodup_iff.mpr V.nodup) h.key
    rw [← h.list] at hmap
    have hfind := h.alone.sound.find t
    cases hr : V.ranks.find? fun a => V.key a = t with
    | none =>
      rw [hr] at hmap hfind
      refine ⟨m, tt.setPointerTo t p, V, ?_, rfl, ⟨h.alone, hmap.trans h.list, h.key⟩, hV, rfl,
        fun a _ => id⟩
      rw [TypeCall.run, hfind]
      rfl
    | some a =>
      rw [hr] at hmap hfind
      refine ⟨{ m with entry := Function.update m.entry a { m.entry a with pointerTo := p } },
        tt.setPointerTo t p, V, ?_, rfl, ⟨h.alone, hmap, fun d hd => ?_⟩, hV, rfl,
        fun a _ => id⟩
      · rw [TypeCall.run, hfind]
        rfl
      · by_cases hda : d = a
        · subst hda
          simp [h.key d hd]
        · simp [hda, h.key d hd]

theorem TypeHash.Agree.run (h : m.Agree hash tt V) (hV : V.order ≠ []) {calls : List (TypeCall α)}
    (hlen : V.order.length + (calls.filterMap TypeCall.allocates).length < 2 ^ 32)
    (hfresh : ∀ a ∈ calls.filterMap TypeCall.allocates, m.table.hh a = none)
    (hdistinct : (calls.filterMap TypeCall.allocates).Nodup) :
    ∃ m' tt' V', calls.foldlM (TypeCall.run hash) m = some m' ∧ Outcome calls tt tt' ∧
      m'.Agree hash tt' V' := by
  induction calls generalizing m tt V with
  | nil => exact ⟨m, tt, V, rfl, rfl, h⟩
  | cons call calls ih =>
    have hcall (a : α) (ha : call.allocates = some a) :
        m.table.hh a = none ∧ a ∉ calls.filterMap TypeCall.allocates := by
      rw [List.filterMap_cons_some ha] at hfresh hdistinct
      exact ⟨hfresh a List.mem_cons_self, (List.nodup_cons.mp hdistinct).1⟩
    have hsub : (calls.filterMap TypeCall.allocates).Sublist
        ((call :: calls).filterMap TypeCall.allocates) :=
      (List.sublist_cons_self call calls).filterMap _
    obtain ⟨m₁, tt₁, V₁, he₁, hstep, h₁, hV₁, hlen₁, hnone⟩ :=
      h.step hV (lt_of_le_of_lt (Nat.le_add_right _ _) hlen) fun a ha => (hcall a ha).1
    have hcount : ((call :: calls).filterMap TypeCall.allocates).length =
        call.allocates.toList.length + (calls.filterMap TypeCall.allocates).length := by
      rw [List.filterMap_cons]
      cases call.allocates <;> simp [Nat.add_comm]
    rw [hcount, ← Nat.add_assoc, ← hlen₁] at hlen
    obtain ⟨m', tt', V', he', hout, h'⟩ := ih h₁ hV₁ hlen (fun a ha =>
      hnone a (fun heq => (hcall a heq).2 ha) (hfresh a (hsub.subset ha))) (hdistinct.sublist hsub)
    exact ⟨m', tt', V', by rw [List.foldlM_cons, he₁, Option.bind_eq_bind, Option.bind_some, he'],
      ⟨tt₁, hstep, hout⟩, h'⟩

/-- Once the type table has its first entry, `get_typeinfo_from_table` on the hash finds what it
finds on a list with the same calls that turns around at expansions, when `malloc` gives a new block
each time, and the number of entries is an `unsigned`. -/
theorem type_table_refines (hash : Typ → Nat) (e : Types.Entry) (a : α) (contents : Handle α Typ)
    {calls : List (TypeCall α)}
    (hdistinct : ((TypeCall.add e a contents :: calls).filterMap TypeCall.allocates).Nodup)
    (hlen : ((TypeCall.add e a contents :: calls).filterMap TypeCall.allocates).length < 2 ^ 32) :
    ∃ m tt, (TypeCall.add e a contents :: calls).foldlM (TypeCall.run hash)
        ⟨empty, fun _ => e⟩ = some m ∧
      Outcome (.add e a contents :: calls) [] tt ∧
      ∀ t, getTypeinfoFromTable hash m t = some (tt.find t) := by
  have hinit : TypeHash.Agree hash (⟨empty, fun _ => e⟩ : TypeHash α) [] _ :=
    ⟨Hash.alone_empty fun _ => 0, rfl, fun _ ha => by cases ha⟩
  have hcons : (TypeCall.add e a contents :: calls).filterMap TypeCall.allocates =
      a :: calls.filterMap TypeCall.allocates := List.filterMap_cons_some rfl
  rw [hcons, List.nodup_cons] at hdistinct
  rw [hcons, List.length_cons, Nat.add_comm] at hlen
  obtain ⟨m₁, hV, he₁, h₁, hnone⟩ := hinit.add rfl e contents
  obtain ⟨m, tt, V, he, hout, h⟩ := h₁.run (by simp [View.add]) hlen (fun d hd => by
    refine hnone d ?_ rfl
    rintro rfl
    exact hdistinct.1 hd) hdistinct.2
  refine ⟨m, tt, ?_, ⟨_, rfl, hout⟩, h.find⟩
  rw [List.foldlM_cons, he₁, Option.bind_eq_bind, Option.bind_some, he]

/-- The entry of `char`. -/
def charEntry : Types.Entry := ⟨0, 0, 0, 1, .transformPrim, -1, 0, 0, 0, 0, -1⟩

/-- Nine entries more, the types of which are in the bucket of `char`, and the unlocking that expands
the table. -/
def charCalls : List (TypeCall Nat) :=
  (List.range' 1 9).map (fun i =>
    .add ⟨1024 * i, 0, 0, 8, .transformPrim, 0, 0, 0, 0, -1, -1⟩ (i + 1)
      ⟨none, none, none, none, 0, 0⟩) ++ [.setPointerTo 0 1024, .unlock 1024]

theorem type_table_refines_char :
    ∃ m tt, (.add charEntry 1 ⟨none, none, none, none, 0, 0⟩ :: charCalls).foldlM
        (TypeCall.run Int.toNat) ⟨empty, fun _ => charEntry⟩ = some m ∧
      Outcome (.add charEntry 1 ⟨none, none, none, none, 0, 0⟩ :: charCalls) [] tt ∧
      ∀ t, getTypeinfoFromTable Int.toNat m t = some (tt.find t) :=
  type_table_refines Int.toNat charEntry 1 ⟨none, none, none, none, 0, 0⟩ (by decide) (by decide)

example : ((((TypeCall.add charEntry 1 ⟨none, none, none, none, 0, 0⟩ :: charCalls).foldlM
    (TypeCall.run Int.toNat) ⟨empty, fun _ => charEntry⟩).bind (·.table.tbl)).map
      (·.numBuckets)) = some 2048 := by
  decide +kernel

end Types

end CStrider.Uthash
