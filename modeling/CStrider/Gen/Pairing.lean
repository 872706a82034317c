import CStrider.Gen.Extends
import CStrider.Lib.System
import CStrider.Types.Table

/-!
# Old and new versions of a type in the numbering

The generator enters each type of the program as two rows, the old version and behind it the new
one, and the generated `cstrider_out_type_internal` leads from one to the other by the parity of
the index. There are eighteen built-in types, so every old version has an even index; the emitted
function takes the odd ones for old.
-/

namespace CStrider.Gen

open CStrider.Types (Typ TypeTable Generated typeInit)

/-- The emitted `cstrider_is_prim`; `TYPE_pthread_mutex_t` and `TYPE_FILE_PTR` are `-1` there. -/
def isPrim (x : Typ) : Bool := (0 ≤ x && x ≤ 15) || x == 17 || x == -1

/-- The emitted `cstrider_out_type_internal`. -/
def outTypeInternal (x : Typ) : Typ :=
  if isPrim x then -1 else if x.tmod 2 = 0 then -1 else x + 1

/-- `cstrider_get_out_size`; `none` where it exits. -/
def getOutSize (tt : TypeTable) (t : Typ) : Option Int := do
  let te ← tt.find t
  if te.outType ≠ -1 then
    let teo ← tt.find te.outType
    return teo.size
  else
    return te.size

/-! ## The emitted arrays -/

/-- What the C compiler makes of the texts in the tables. -/
structure Compiled where
  sizeof : String → Int
  func : Option Func → Types.Func
  /-- the address of the copied `janky` array of an instance -/
  args : Macro → Nat

/-- The value of an enumerator of `enum TYPES`, or of a number. -/
def GenCtx.number (g : GenCtx) (m : Macro) : Typ :=
  if m = .lit "-1" then -1
  else if m = .lit "0" then 0
  else g.macrotypes.findIdx (· = m)

/-- The arrays of the generated file, with the `-1` that `write_ordered_symbols` puts last. -/
def GenCtx.emit (g : GenCtx) (c : Compiled) : Generated where
  len := g.sizes.length + 1
  sizes i := (g.sizes[i]?.map c.sizeof).getD (-1)
  func i := c.func (g.funs[i]?.join)
  targetType i := (g.targetType[i]?.map g.number).getD (-1)
  numGenArgs i :=
    ((g.storedNumGenArgs.reverse.find? fun x => g.number x.1 = i).map fun x => (x.2 : Int)).getD 0
  args i := ((g.storedGenArgs.reverse.find? fun x => g.number x.1 = i).map fun x => c.args x.1).getD 0
  mainType i := (g.maintype[i]?.map g.number).getD (-1)
  outTypeInternal := outTypeInternal

/-! ## Sequences of extensions -/

/-- The names of the old and the new version that an extension enters. -/
def Extension.names : Extension → Option (Macro × Macro)
  | .setXform .. => none
  | .ptr s => some (s.ptr, s.out.ptr)
  | .elem e0 e1 _ => some (e0.typeMacro, e1.typeMacro.out)
  | .inst i => some (i.name, i.name.out)

/-- The tables, and the indices that old and new version of each type got. -/
structure Numbering where
  ctx : GenCtx
  versions : List (Nat × Nat)

/-- Any sequence of extensions of the tables of `gencontext_create`. -/
def extensions : Sys Numbering Extension where
  init s := s = ⟨gencontextCreate, []⟩
  step x s :=
    let n := s.ctx.macrotypes.length
    some ⟨x.apply s.ctx, s.versions ++ (x.names.map fun _ => (n, n + 1)).toList⟩

section Tables

variable {g : GenCtx} {x : Extension}

/-- The old version is entered first, at the end of the list, and the new one behind it. -/
theorem macrotypes_apply : (x.apply g).macrotypes =
    g.macrotypes ++ ((x.names.map fun p => [p.1, p.2]).getD []) := by
  cases x <;> simp [Extension.apply, Extension.names, GenCtx.addPtr, GenCtx.addElem,
    GenCtx.addInstance, GenCtx.populate, GenCtx.addMacro, GenCtx.addFun, GenCtx.addSizeOf]

/-- All seven lists have the same length, and it is even. -/
structure Aligned (g : GenCtx) : Prop where
  even : g.macrotypes.length % 2 = 0
  maintype : g.maintype.length = g.macrotypes.length
  targetType : g.targetType.length = g.macrotypes.length
  ptrtomeType : g.ptrtomeType.length = g.macrotypes.length
  arrlens : g.arrlens.length = g.macrotypes.length
  sizes : g.sizes.length = g.macrotypes.length
  funs : g.funs.length = g.macrotypes.length

theorem aligned_create : Aligned gencontextCreate := by constructor <;> rfl

theorem Aligned.apply (h : Aligned g) : Aligned (x.apply g) := by
  obtain ⟨h, h1, h2, h3, h4, h5, h6⟩ := h
  cases x <;> constructor <;>
    simp only [Extension.apply, GenCtx.addPtr, GenCtx.addElem, GenCtx.addInstance, GenCtx.populate,
      GenCtx.addMacro, GenCtx.addFun, GenCtx.addSizeOf, List.length_append, List.length_cons,
      List.length_nil] <;> omega

end Tables

section Runs

variable {s : Numbering}

theorem aligned (h : extensions.Reach s) : Aligned s.ctx := by
  have inv : extensions.Inductive (fun _ => True) (fun s => Aligned s.ctx) := by
    constructor
    · rintro s rfl
      exact aligned_create
    · intro x s s' _ hs hst
      cases hst
      exact hs.apply
  exact inv.reach (fun _ => trivial) h

/-- Every version got an even index behind the built-in types, its new version the next one. -/
def Paired (s : Numbering) : Prop :=
  18 ≤ s.ctx.macrotypes.length ∧ ∀ p ∈ s.versions,
    18 ≤ p.1 ∧ p.1 % 2 = 0 ∧ p.2 = p.1 + 1 ∧ p.2 < s.ctx.macrotypes.length

/-- The tables of every run of the generator come from a sequence of extensions. -/
theorem reach_of_generate {env : Env} {ms : List Matched} {vss : List (List Visit)} {g : GenCtx}
    (h : generate env ms gencontextCreate = .ok (vss, g)) :
    ∃ versions, extensions.Reach ⟨g, versions⟩ := by
  obtain ⟨xs, rfl⟩ := extends_generate h
  clear h
  induction xs using List.reverseRecOn with
  | nil => exact ⟨[], .init rfl⟩
  | append_singleton xs x ih =>
    obtain ⟨versions, hr⟩ := ih
    rw [List.foldl_append]
    exact ⟨_, .step x hr rfl⟩

theorem paired (h : extensions.Reach s) : Paired s := by
  have inv : extensions.Inductive (fun s => Aligned s.ctx) Paired := by
    constructor
    · rintro s rfl
      exact ⟨Nat.le_refl 18, fun p hp => absurd hp List.not_mem_nil⟩
    · rintro x s s' hal ⟨hlen, hs⟩ hst
      cases hst
      refine ⟨?_, fun p hp => ?_⟩
      · rw [macrotypes_apply, List.length_append]
        exact Nat.le_add_right_of_le hlen
      · rw [macrotypes_apply, List.length_append]
        rcases List.mem_append.mp hp with hp | hp
        · obtain ⟨h1, h2, h3, h4⟩ := hs p hp
          exact ⟨h1, h2, h3, Nat.lt_add_right _ h4⟩
        · cases hn : x.names with
          | none => simp [hn] at hp
          | some q =>
            simp only [hn, Option.map_some, Option.toList_some, List.mem_singleton] at hp
            subst hp
            exact ⟨hlen, hal.even, rfl, by simp⟩
  exact inv.reach aligned h

/-- On an old version the emitted function finds no new one. -/
theorem outTypeInternal_even {i : Nat} (h : i % 2 = 0) : outTypeInternal i = -1 := by
  have even : (i : Int).tmod 2 = 0 := by
    rw [Int.tmod_eq_emod_of_nonneg (Int.natCast_nonneg i)]
    omega
  rw [outTypeInternal, if_pos even, ite_self]

/-- The entry that `cstrider_type_init` leaves for one of the emitted types. -/
theorem find_typeInit {g : Generated} {ptsto : Typ → Typ} {i : Nat} (hi : i < g.len) :
    ∃ p, (typeInit g [] ptsto).1.find i = some (Types.builtin g p i) := by
  obtain ⟨keys, entries⟩ := Types.typeInit_rounds (Eq.refl (Types.rounds g ptsto g.len))
  change (typeInit g [] ptsto).1.map Types.Entry.type = _ at keys
  change ∀ e ∈ (typeInit g [] ptsto).1, _ at entries
  have mem : (i : Typ) ∈ (typeInit g [] ptsto).1.map Types.Entry.type := by
    rw [keys, List.mem_reverse]
    exact List.mem_map.mpr ⟨i, List.mem_range.mpr hi, rfl⟩
  obtain ⟨e, he⟩ := TypeTable.exists_find mem
  obtain ⟨k, _, p, rfl⟩ := entries e (TypeTable.mem_of_find he)
  have hk : (k : Typ) = i := TypeTable.type_of_find he
  obtain rfl : k = i := by exact_mod_cast hk
  exact ⟨p, he⟩

theorem isPrim_eq_false {i : Nat} (h : 18 ≤ i) : isPrim i = false := by
  have above : ¬ (i : Int) ≤ 15 ∧ (i : Int) ≠ 17 ∧ (i : Int) ≠ -1 := by omega
  simp only [isPrim, Bool.or_eq_false_iff, Bool.and_eq_false_iff, decide_eq_false_iff_not,
    beq_eq_false_iff_ne]
  exact ⟨⟨.inr above.1, above.2.1⟩, above.2.2⟩

/-- No old version leads to its new one, and its out size is its own size. -/
theorem out_type_lost (h : extensions.Reach s) {i j : Nat} (hv : (i, j) ∈ s.versions)
    (c : Compiled) (ptsto : Typ → Typ) :
    isPrim i = false ∧ outTypeInternal i ≠ j ∧
      getOutSize (typeInit (s.ctx.emit c) [] ptsto).1 i = (s.ctx.sizes[i]?).map c.sizeof := by
  obtain ⟨_, pairs⟩ := paired h
  obtain ⟨builtin, even, hj, hlt⟩ := pairs _ hv
  simp only at builtin even hj hlt
  have lost : outTypeInternal i = -1 := outTypeInternal_even even
  refine ⟨isPrim_eq_false builtin, ?_, ?_⟩
  · rw [lost]
    exact fun h => absurd (Int.natCast_nonneg j) (h ▸ by decide)
  · have hi : i < s.ctx.sizes.length := by
      rw [(aligned h).sizes]
      omega
    obtain ⟨p, hp⟩ : ∃ p, (typeInit (s.ctx.emit c) [] ptsto).1.find i =
        some (Types.builtin (s.ctx.emit c) p i) := find_typeInit (Nat.lt_succ_of_lt hi)
    have out : (Types.builtin (s.ctx.emit c) p i).outType = -1 := lost
    have size : (Types.builtin (s.ctx.emit c) p i).size = c.sizeof s.ctx.sizes[i] := by
      simp [Types.builtin, GenCtx.emit, hi]
    simp [getOutSize, hp, out, size, hi]

/-- A struct that grew from 16 to 24 bytes. -/
def grownList : Compiled where
  sizeof t := if t = "sizeof(struct _kitsune_new_rename_list)" then 24 else 16
  func _ := .transformPrim
  args _ := 0

def matchedList : Extension :=
  .elem (.struct "list") (.struct "list") (.xform (.struct "list") (.struct "list"))

theorem list_out_type_lost : ∃ s, extensions.Reach s ∧ (18, 19) ∈ s.versions ∧
    s.ctx.macrotypes[18]?.map Macro.text = some "TYPE_STRUCT_list" ∧
    s.ctx.macrotypes[19]?.map Macro.text = some "TYPE_STRUCT_list_OUT" ∧
    outTypeInternal 18 ≠ 19 ∧
    getOutSize (typeInit (s.ctx.emit grownList) [] fun _ => 0).1 18 = some 16 ∧
    s.ctx.sizes[19]?.map grownList.sizeof = some 24 :=
  Sys.exists_reach rfl
    (show (Sys.run extensions [matchedList] ⟨gencontextCreate, []⟩).any _ = true by decide +kernel)

theorem out_type_lost_list : ∃ s, extensions.Reach s ∧ (18, 19) ∈ s.versions ∧
    outTypeInternal 18 ≠ 19 := by
  obtain ⟨s, hs, hv⟩ : ∃ s, extensions.Reach s ∧ (18, 19) ∈ s.versions :=
    Sys.exists_reach rfl
      (show (Sys.run extensions [matchedList] ⟨gencontextCreate, []⟩).any _ = true by decide +kernel)
  exact ⟨s, hs, hv, (out_type_lost hs hv grownList fun _ => 0).2.1⟩

end Runs

end CStrider.Gen
