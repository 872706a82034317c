import CStrider.Lib.Keyed
import CStrider.Mapping.Table
import Mathlib.Data.PEquiv

/-!
# The symbol registry (`cstrider_register_key` of `src/cstrider_api.c`)

Every entry is on two hash tables, by its name and by its address. An entry is added only when
neither its name nor its address is known, so that the tables are a partial bijection at any time
(`Symbols.toPEquiv`). A registration whose name and address are both known adds nothing: the two
assertions look at either half alone, and not at whether the halves belong to one entry.
-/

namespace CStrider.Registry

open Mapping (Ptr)

/-- `hash_entry`, with the fields that the lookups read. -/
structure HashEntry where
  name : String
  addr : Ptr
  deriving DecidableEq, Repr

/-- `name_to_addr_hash` and `addr_to_name_hash`. -/
structure Symbols where
  nameToAddr : List HashEntry
  addrToName : List HashEntry
  same : ∀ e, e ∈ addrToName ↔ e ∈ nameToAddr
  names : (nameToAddr.map (·.name)).Nodup
  addrs : (addrToName.map (·.addr)).Nodup

namespace Symbols

/-- The registry at the start of the process. -/
def empty : Symbols := ⟨[], [], by simp, by simp, by simp⟩

variable (s : Symbols)

/-- `HASH_FIND(hh_name, ..)`. -/
def findName (key : String) : Option HashEntry := s.nameToAddr.find? (·.name = key)

/-- `HASH_FIND(hh_addr, ..)`. -/
def findAddr (addr : Ptr) : Option HashEntry := s.addrToName.find? (·.addr = addr)

/-- `lookup_key`. -/
def lookupKey (key : String) : Ptr :=
  match s.findName key with
  | some e => e.addr
  | none => 0

/-- `lookup_addr`. -/
def lookupAddr (addr : Ptr) : Option String := (s.findAddr addr).map (·.name)

variable {s} {e : HashEntry} {key : String} {addr : Ptr}

theorem findName_eq_some : s.findName key = some e ↔ e ∈ s.nameToAddr ∧ e.name = key :=
  Keyed.find?_eq_some s.names

theorem findAddr_eq_some : s.findAddr addr = some e ↔ e ∈ s.nameToAddr ∧ e.addr = addr := by
  rw [← s.same]
  exact Keyed.find?_eq_some s.addrs

theorem lookupAddr_eq_some : s.lookupAddr addr = some key ↔ ⟨key, addr⟩ ∈ s.nameToAddr := by
  rw [lookupAddr, Option.map_eq_some_iff]
  constructor
  · rintro ⟨⟨n, a⟩, he, rfl⟩
    obtain ⟨hmem, rfl⟩ := findAddr_eq_some.mp he
    exact hmem
  · intro he
    exact ⟨_, findAddr_eq_some.mpr ⟨he, rfl⟩, rfl⟩

theorem lookupKey_of_mem (he : ⟨key, addr⟩ ∈ s.nameToAddr) : s.lookupKey key = addr := by
  rw [lookupKey, findName_eq_some.mpr ⟨he, rfl⟩]

variable (s) in
/-- What the registry is for: a partial bijection between names and addresses. -/
def toPEquiv : PEquiv String Ptr where
  toFun key := (s.findName key).map (·.addr)
  invFun addr := s.lookupAddr addr
  inv key addr := by
    rw [lookupAddr_eq_some, Option.map_eq_some_iff]
    constructor
    · intro he
      exact ⟨_, findName_eq_some.mpr ⟨he, rfl⟩, rfl⟩
    · rintro ⟨⟨n, a⟩, he, rfl⟩
      obtain ⟨hmem, rfl⟩ := findName_eq_some.mp he
      exact hmem

theorem toPEquiv_eq_some : s.toPEquiv key = some addr ↔ ⟨key, addr⟩ ∈ s.nameToAddr :=
  s.toPEquiv.eq_some_iff.symm.trans lookupAddr_eq_some

end Symbols

/-! ## Registration -/

open Symbols

/-- `cstrider_register_key`; `none` where an assertion fails. -/
def cstriderRegisterKey (s : Symbols) (key : String) (addr : Ptr) : Option Symbols :=
  let existsKey := s.findAddr addr
  let existsAddr := s.findName key
  if h : existsKey.isSome ∨ existsAddr.isSome then
    if existsKey.isSome ∧ existsAddr.isSome then some s else none
  else
    have fresh : existsKey = none ∧ existsAddr = none := by simpa using h
    some
      { nameToAddr := s.nameToAddr ++ [⟨key, addr⟩]
        addrToName := s.addrToName ++ [⟨key, addr⟩]
        same := by simp [s.same]
        names := by
          have hname : ∀ e ∈ s.nameToAddr, e.name ≠ key := by
            simpa [existsAddr, findName] using fresh.2
          simpa [List.nodup_append, s.names] using hname
        addrs := by
          have haddr : ∀ e ∈ s.addrToName, e.addr ≠ addr := by
            simpa [existsKey, findAddr] using fresh.1
          simpa [List.nodup_append, s.addrs] using haddr }

/-- A registration that returns has found both halves, or it has added the entry. -/
theorem register_cases {s s' : Symbols} {key : String} {addr : Ptr}
    (h : cstriderRegisterKey s key addr = some s') :
    (s' = s ∧ (∃ a, ⟨key, a⟩ ∈ s.nameToAddr) ∧ ∃ k, ⟨k, addr⟩ ∈ s.nameToAddr) ∨
      s'.nameToAddr = s.nameToAddr ++ [⟨key, addr⟩] := by
  simp only [cstriderRegisterKey] at h
  split at h
  · split at h
    · next hboth =>
      obtain ⟨⟨k, a⟩, he⟩ := Option.isSome_iff_exists.mp hboth.1
      obtain ⟨⟨n, b⟩, he'⟩ := Option.isSome_iff_exists.mp hboth.2
      obtain ⟨hmem, rfl⟩ := findAddr_eq_some.mp he
      obtain ⟨hmem', rfl⟩ := findName_eq_some.mp he'
      exact .inl ⟨(Option.some.inj h).symm, ⟨b, hmem'⟩, ⟨k, hmem⟩⟩
    · cases h
  · right
    rw [← Option.some.inj h]

/-- The calls in their order; `none` where one of them does not return. -/
def registerAll : List (String × Ptr) → Symbols → Option Symbols
  | [], s => some s
  | c :: cs, s => (cstriderRegisterKey s c.1 c.2).bind (registerAll cs)

theorem registerAll_append (cs ds : List (String × Ptr)) (s : Symbols) :
    registerAll (cs ++ ds) s = (registerAll cs s).bind (registerAll ds) := by
  induction cs generalizing s with
  | nil => rfl
  | cons c cs ih => simp only [List.cons_append, registerAll, Option.bind_assoc, ih]

/-- What the calls `cs` want of the registry `s`, and what follows from it. -/
structure Bijective (cs : List (String × Ptr)) (s : Symbols) : Prop where
  forward : ∀ c ∈ cs, s.lookupKey c.1 = c.2
  backward : ∀ c ∈ cs, s.lookupAddr c.2 = some c.1
  inverse : ∀ e ∈ s.nameToAddr, s.lookupAddr (s.lookupKey e.name) = some e.name
  unshared : ∀ e ∈ s.nameToAddr, ∀ e' ∈ s.nameToAddr, e.addr = e'.addr → e.name = e'.name

/-- No name comes with two addresses, and no address with two names. -/
def Consistent (cs : List (String × Ptr)) : Prop := ∀ c ∈ cs, ∀ d ∈ cs, c.1 = d.1 ↔ c.2 = d.2

section History

variable {cs : List (String × Ptr)} {s : Symbols}

/-- All entries come from calls. -/
theorem entries_of_registerAll (h : registerAll cs empty = some s) {e : HashEntry}
    (he : e ∈ s.nameToAddr) : (e.name, e.addr) ∈ cs := by
  induction cs using List.reverseRecOn generalizing s with
  | nil =>
    obtain rfl := Option.some.inj h
    cases he
  | append_singleton cs c ih =>
    rw [registerAll_append] at h
    obtain ⟨t, ht, hc⟩ := Option.bind_eq_some_iff.mp h
    have hc : cstriderRegisterKey t c.1 c.2 = some s := by simpa [registerAll] using hc
    rcases register_cases hc with ⟨rfl, -, -⟩ | hadd
    · exact List.mem_append_left _ (ih ht he)
    · rw [hadd] at he
      rcases List.mem_append.mp he with he | he
      · exact List.mem_append_left _ (ih ht he)
      · obtain rfl := List.mem_singleton.mp he
        simp

/-- Consistent calls all find their entry. -/
theorem mem_of_registerAll (h : registerAll cs empty = some s) (hcs : Consistent cs)
    {c : String × Ptr} (hc : c ∈ cs) : ⟨c.1, c.2⟩ ∈ s.nameToAddr := by
  induction cs using List.reverseRecOn generalizing s with
  | nil => cases hc
  | append_singleton cs d ih =>
    rw [registerAll_append] at h
    obtain ⟨t, ht, hd⟩ := Option.bind_eq_some_iff.mp h
    have hd : cstriderRegisterKey t d.1 d.2 = some s := by simpa [registerAll] using hd
    have hcs' : Consistent cs := fun c hc d hd =>
      hcs c (List.mem_append_left _ hc) d (List.mem_append_left _ hd)
    rcases register_cases hd with ⟨rfl, ⟨a, ha⟩, -⟩ | hadd
    · rcases List.mem_append.mp hc with hc | hc
      · exact ih ht hcs' hc
      · obtain rfl := List.mem_singleton.mp hc
        -- the entry of that name comes from a call, which has the same address
        have hcall := List.mem_append_left [c] (entries_of_registerAll ht ha)
        obtain rfl : a = c.2 := (hcs _ hcall c (by simp)).mp rfl
        exact ha
    · rw [hadd]
      rcases List.mem_append.mp hc with hc | hc
      · exact List.mem_append_left _ (ih ht hcs' hc)
      · obtain rfl := List.mem_singleton.mp hc
        simp

/-- Consistent calls register the partial bijection that they list. -/
theorem toPEquiv_of_consistent (h : registerAll cs empty = some s) (hcs : Consistent cs)
    {key : String} {addr : Ptr} : s.toPEquiv key = some addr ↔ (key, addr) ∈ cs := by
  rw [toPEquiv_eq_some]
  constructor
  · intro he
    exact entries_of_registerAll h he
  · intro hc
    exact mem_of_registerAll h hcs hc

/-- **The registry is the bijection that was registered exactly when the calls name one.** -/
theorem bijective_iff (h : registerAll cs empty = some s) : Bijective cs s ↔ Consistent cs := by
  constructor
  · intro hb c hc d hd
    constructor
    · intro hname
      rw [← hb.forward c hc, ← hb.forward d hd, hname]
    · intro haddr
      have hback := hb.backward c hc
      rw [haddr, hb.backward d hd] at hback
      exact (Option.some.inj hback).symm
  · intro hcs
    refine ⟨?_, ?_, ?_, ?_⟩
    · intro c hc
      exact lookupKey_of_mem (mem_of_registerAll h hcs hc)
    · intro c hc
      exact lookupAddr_eq_some.mpr (mem_of_registerAll h hcs hc)
    · intro e he
      rw [lookupKey_of_mem he]
      exact lookupAddr_eq_some.mpr he
    · intro e he e' he' haddr
      have hfwd := toPEquiv_eq_some.mpr he
      have hfwd' := toPEquiv_eq_some.mpr he'
      rw [haddr] at hfwd
      exact s.toPEquiv.inj hfwd hfwd'

end History

/-- Registering a symbol once more. -/
theorem bijective_again : ∃ s, registerAll [("x", 8), ("y", 16), ("x", 8)] empty = some s ∧
    (Bijective [("x", 8), ("y", 16), ("x", 8)] s ↔ Consistent [("x", 8), ("y", 16), ("x", 8)]) :=
  ⟨⟨[⟨"x", 8⟩, ⟨"y", 16⟩], [⟨"x", 8⟩, ⟨"y", 16⟩], by simp, by simp, by simp⟩, by rfl,
    bijective_iff (by rfl)⟩

/-- The name of one symbol is registered again with the address of another. -/
theorem bijective_fails : ∃ s, registerAll [("x", 8), ("y", 16), ("x", 16)] empty = some s ∧
    ¬ Bijective [("x", 8), ("y", 16), ("x", 16)] s := by
  refine ⟨⟨[⟨"x", 8⟩, ⟨"y", 16⟩], [⟨"x", 8⟩, ⟨"y", 16⟩], by simp, by simp, by simp⟩, by rfl, ?_⟩
  intro h
  exact absurd (h.forward ("x", 16) (by simp)) (by decide)

end CStrider.Registry
