import CStrider.Lib.Keyed
import CStrider.Traversal.Model

/-!
# The registered roots (`register_root` of `src/cstrider_api.c`)

`HASH_FIND_PTR` takes a pointer to the key. `deregister_root` gives it `&in`, and looks up the
address that it was called with; `register_root` gives it `in` itself, and so looks up whatever the
root's cell holds. A call therefore comes with the contents of the cell at that time, and with the
choice among entries of one key, which the history of the buckets makes.
-/

namespace CStrider.Registry

open Mapping (Ptr)
open CStrider.Types (Typ)
open Traversal (Root)

/-- `el_t`. -/
structure El where
  key : Ptr
  t : Typ
  deriving DecidableEq, Repr

/-- `visit_all_registered_hash`, in the order in which `HASH_ITER` takes the entries. -/
abbrev Roots := List El

/-- `HASH_FIND_PTR`. -/
def hashFindPtr (pick : Nat) (tbl : Roots) (key : Ptr) : Option Nat :=
  Keyed.findKey El.key pick tbl key

/-- `register_root(in, t)`, where the cell at `in` holds `contents`. -/
def registerRoot (pick : Nat) (a : Ptr) (t : Typ) (contents : Ptr) (tbl : Roots) : Roots :=
  match hashFindPtr pick tbl contents with
  | some _ => tbl
  | none => tbl ++ [⟨a, t⟩]

/-- `deregister_root(in)`. -/
def deregisterRoot (pick : Nat) (a : Ptr) (tbl : Roots) : Roots :=
  match hashFindPtr pick tbl a with
  | some d => tbl.eraseIdx d
  | none => tbl

/-- The second loop of `visit_all`. -/
def visitAllRegistered (tbl : Roots) : List Root := tbl.map fun e => ⟨e.key, e.t, e.key⟩

/-! ## Histories -/

inductive Op where
  | register (a : Ptr) (t : Typ) (contents : Ptr)
  | deregister (a : Ptr)
  deriving DecidableEq, Repr

/-- A call, with the entry that its search would meet. -/
structure Call where
  op : Op
  pick : Nat
  deriving DecidableEq, Repr

def Call.run (c : Call) (tbl : Roots) : Roots :=
  match c.op with
  | .register a t contents => registerRoot c.pick a t contents tbl
  | .deregister a => deregisterRoot c.pick a tbl

/-- The table after the calls. -/
def registered (calls : List Call) : Roots := calls.foldl (fun tbl c => c.run tbl) []

/-- What registration is for: the roots by their address, with the type of the first registration
since the last deregistration. -/
abbrev RootMap := Ptr → Option Typ

def Op.apply (m : RootMap) : Op → RootMap
  | .register a t _ => if (m a).isSome then m else Function.update m a (some t)
  | .deregister a => Function.update m a none

/-- The roots that the calls ask for. -/
def wanted (calls : List Call) : RootMap := calls.foldl (fun m c => c.op.apply m) fun _ => none

/-- The table has one entry for each root of `m`, with its type, and none for other addresses. -/
def Exact (tbl : Roots) (m : RootMap) : Prop :=
  ∀ a, tbl.filter (fun e => e.key = a) = ((m a).map fun t => ⟨a, t⟩).toList

/-- `Exact`, and `visit_all` visits each root of `m` once, and nothing else. -/
structure Keyed (tbl : Roots) (m : RootMap) : Prop where
  exact : Exact tbl m
  visited : ∀ a, (visitAllRegistered tbl).countP (fun r => r.a = a) = if (m a).isSome then 1 else 0

section Step

variable {tbl : Roots} {m : RootMap}

theorem Exact.mem_iff (h : Exact tbl m) {e : El} : e ∈ tbl ↔ m e.key = some e.t := by
  have hmem : e ∈ tbl ↔ e ∈ tbl.filter (fun e' => e'.key = e.key) := by simp
  rw [hmem, h e.key]
  cases m e.key with
  | none => simp
  | some t =>
    obtain ⟨a, u⟩ := e
    simp [eq_comm]

theorem Exact.keyed (h : Exact tbl m) : Keyed tbl m := by
  refine ⟨h, fun a => ?_⟩
  have hcount : (visitAllRegistered tbl).countP (fun r => r.a = a) =
      (tbl.filter (fun e => e.key = a)).length := by
    rw [visitAllRegistered, List.countP_map, List.countP_eq_length_filter]
    rfl
  rw [hcount, h a]
  cases m a <;> rfl

/-- A search meets the roots. -/
theorem Exact.hashFindPtr_isSome (h : Exact tbl m) (pick : Nat) (a : Ptr) :
    (hashFindPtr pick tbl a).isSome ↔ (m a).isSome := by
  rw [hashFindPtr, Keyed.findKey_isSome]
  constructor
  · rintro ⟨e, he, rfl⟩
    rw [h.mem_iff.mp he]
    rfl
  · intro ha
    obtain ⟨t, ht⟩ := Option.isSome_iff_exists.mp ha
    exact ⟨⟨a, t⟩, h.mem_iff.mpr ht, rfl⟩

/-- `deregister_root` keeps the table exact, whatever the history. -/
theorem Exact.deregister (h : Exact tbl m) (pick : Nat) (a : Ptr) :
    Exact (deregisterRoot pick a tbl) ((Op.deregister a).apply m) := by
  unfold deregisterRoot
  cases hfind : hashFindPtr pick tbl a with
  | none =>
    have hnone : m a = none := by
      rw [← Option.not_isSome_iff_eq_none, ← h.hashFindPtr_isSome pick a, hfind]
      simp
    simpa [Op.apply, ← hnone] using h
  | some i =>
    obtain ⟨l₁, e, l₂, rfl, rfl, herase⟩ := Keyed.findKey_some hfind
    intro b
    have hb := h b
    rw [List.filter_append, List.filter_cons] at hb
    simp only [herase, List.filter_append, Op.apply]
    by_cases hkey : e.key = b
    · subst hkey
      -- the entry that goes was the only one with its key
      rw [Function.update_self]
      have hlen := congrArg List.length hb
      have hle : ((m e.key).map fun t => (⟨e.key, t⟩ : El)).toList.length ≤ 1 := by
        cases m e.key <;> simp
      simp only [decide_true, if_true, List.length_append, List.length_cons] at hlen
      have h₁ : (l₁.filter fun e' => e'.key = e.key).length = 0 := by omega
      have h₂ : (l₂.filter fun e' => e'.key = e.key).length = 0 := by omega
      rw [List.eq_nil_of_length_eq_zero h₁, List.eq_nil_of_length_eq_zero h₂]
      rfl
    · rw [Function.update_of_ne (Ne.symm hkey)]
      simpa [hkey] using hb

/-- `register_root` keeps it exact only where the address that the cell holds is a root exactly
when its own address is. -/
theorem Exact.register (h : Exact tbl m) (pick : Nat) (a : Ptr) (t : Typ) (c : Ptr) :
    Exact (registerRoot pick a t c tbl) ((Op.register a t c).apply m) ↔
      ((m c).isSome ↔ (m a).isSome) := by
  have hfound := h.hashFindPtr_isSome pick c
  unfold registerRoot
  cases hfind : hashFindPtr pick tbl c with
  | some i =>
    have hc : (m c).isSome := hfound.mp (by rw [hfind]; rfl)
    by_cases ha : (m a).isSome
    · rw [Op.apply, if_pos ha]
      exact ⟨fun _ => iff_of_true hc ha, fun _ => h⟩
    · rw [Op.apply, if_neg ha]
      -- the root is wanted, but not entered
      refine iff_of_false ?_ fun h' => ha (h'.mp hc)
      intro h'
      have hmem : ⟨a, t⟩ ∈ tbl := h'.mem_iff.mpr (Function.update_self a _ m)
      exact ha (by rw [h.mem_iff.mp hmem]; rfl)
  | none =>
    have hc : ¬ (m c).isSome := by
      rw [← hfound, hfind]
      simp
    by_cases ha : (m a).isSome
    · rw [Op.apply, if_pos ha]
      -- the root is there, and is entered again
      refine iff_of_false ?_ fun h' => hc (h'.mpr ha)
      intro h'
      have hlen := congrArg List.length (h' a)
      rw [List.filter_append, h a] at hlen
      simp at hlen
    · rw [Op.apply, if_neg ha]
      refine iff_of_true ?_ (iff_of_false hc ha)
      intro b
      rw [List.filter_append, h b]
      by_cases hb : a = b
      · subst hb
        rw [Option.not_isSome_iff_eq_none.mp ha, Function.update_self]
        simp
      · rw [Function.update_of_ne (Ne.symm hb)]
        simp [hb]

end Step

section History

theorem registered_append (calls : List Call) (c : Call) :
    registered (calls ++ [c]) = c.run (registered calls) := by
  simp [registered]

theorem wanted_append (calls : List Call) (c : Call) :
    wanted (calls ++ [c]) = c.op.apply (wanted calls) := by
  simp [wanted]

/-- Each `register_root` that `calls` begin with up to some point finds the address that the root's
cell holds among the roots exactly when the root's own address is. -/
def CellsAgree (calls : List Call) : Prop :=
  ∀ past a t contents pick, past ++ [⟨.register a t contents, pick⟩] <+: calls →
    ((wanted past contents).isSome ↔ (wanted past a).isSome)

theorem exact_of_cellsAgree {calls : List Call} (h : CellsAgree calls) :
    Exact (registered calls) (wanted calls) := by
  induction calls using List.reverseRecOn with
  | nil =>
    intro a
    rfl
  | append_singleton calls c ih =>
    have hpast : CellsAgree calls := fun past a t contents pick hp =>
      h past a t contents pick (hp.trans (List.prefix_append _ _))
    rw [registered_append, wanted_append]
    obtain ⟨op, pick⟩ := c
    cases op with
    | register a t contents =>
      exact ((ih hpast).register pick a t contents).mpr (h calls a t contents pick List.prefix_rfl)
    | deregister a => exact (ih hpast).deregister pick a

/-- **The registered roots are a set keyed by address, all along a history, exactly when in each
`register_root` the cell agrees with its address.** -/
theorem keyed_iff (calls : List Call) :
    (∀ past, past <+: calls → Keyed (registered past) (wanted past)) ↔ CellsAgree calls := by
  constructor
  · intro h past a t contents pick hp
    have hbefore := (h past ((List.prefix_append _ _).trans hp)).exact
    have hafter := (h _ hp).exact
    rw [registered_append, wanted_append] at hafter
    exact (hbefore.register pick a t contents).mp hafter
  · intro h past hp
    apply Exact.keyed
    apply exact_of_cellsAgree
    intro past' a t contents pick hp'
    exact h past' a t contents pick (hp'.trans hp)

/-- A second root whose cell points to the first one is not entered. -/
theorem keyed_fails :
    ¬ Keyed (registered [⟨.register 8 18 0, 0⟩, ⟨.register 16 19 8, 0⟩])
      (wanted [⟨.register 8 18 0, 0⟩, ⟨.register 16 19 8, 0⟩]) := by
  intro h
  have hexact := h.exact 16
  revert hexact
  decide

end History

end CStrider.Registry
