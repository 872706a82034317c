import CStrider.Gen.Faithful
import CStrider.Gen.Rows

/-!
# Unions

`has_union` is there so that no union is traversed. It looks through pointers and pointer arrays,
but not through arrays, as `countderef` and `use_array` do, and for a typedef it is asked about the
name of the typedef and not about its body. What a call of `visit` leads to at run time is a
relation on type expressions (`VisitStep`), read off the entries that the run time has for their
types.
-/

namespace CStrider.Gen

open Relation (ReflTransGen TransGen)

/-! ## What a visit leads to -/

/-- The element whose name it is, behind pointers. -/
def Macro.elem? : Macro → Option Elem
  | .lit (.elem e) => some e
  | .ptr m => m.elem?
  | _ => none

/-- A type of the running program. -/
inductive RtType where
  /-- `-1`, which `visit` skips -/
  | system
  /-- an enumerator, with its row -/
  | row (m : Macro)
  /-- the type that `mktypfromgenargs` makes of an enumerator, with other arguments -/
  | generic (m : Macro)
  | mktypptr (t : RtType)
  | mktyparr (len : LenExpr) (t : RtType)

/-- The types that expressions in a generated function have at run time. -/
def TypeExpr.type : TypeExpr → RtType
  | .name m => if m.text ∈ overridden then .system else .row m
  | .mktypfromgenargs m => if m.text ∈ overridden then .system else .generic m
  | .mktypptr e => .mktypptr e.type
  | .mktyparr len e => .mktyparr len e.type

/-- The element at the bottom of a type. -/
def RtType.elem? : RtType → Option Elem
  | .system => none
  | .row (.ofArgs m _) => m.elem?
  | .row m | .generic m => m.elem?
  | .mktypptr t | .mktyparr _ t => t.elem?

/-- The results of the comparison, with the calls of `visit` in the generated functions. -/
abbrev Program := List (Matched × List Visit)

section Visits

variable (env : Env) (prog : Program)

/-- The row of `e` has a generated function, and `visit` is called in it with type `x`. -/
def Calls (e : Elem) (x : TypeExpr) : Prop :=
  ∃ e1 info vs p0 p1, (Matched.type e e1 info, vs) ∈ prog ∧ Found env e e1 (.xform p0 p1) ∧
    ∃ v ∈ vs, v.type = x

/-- A call of `visit` with the first type can make one with the second: lengths that are read at run
time may be anything, and pointers are neither `NULL` nor taken for function pointers.
`transform_prim` and `transform_fptr` call `visit` with the same type again, which is left out. -/
inductive VisitStep : RtType → RtType → Prop
  /-- the row of a pointer has the type below as its target -/
  | deref (m : Macro) : VisitStep (.row m.ptr) (.row m)
  | derefInst (m : Macro) (args : List Macro) :
      VisitStep (.row (.ofArgs m.ptr args)) (.row (.ofArgs m args))
  | derefGen (m : Macro) : VisitStep (.generic m.ptr) (.generic m)
  | mktypptr (t : RtType) : VisitStep (.mktypptr t) t
  | element {len : LenExpr} {t : RtType} (h : len ≠ .int 0) : VisitStep (.mktyparr len t) t
  /-- but for its length, the entry of an array is that of its elements, and with length 0 it is no
  array for `visit` -/
  | empty {len : LenExpr} {t u : RtType} (h : ∀ n, len = .int n → n = 0) :
      VisitStep t u → VisitStep (.mktyparr len t) u
  | call {e : Elem} {x : TypeExpr} (h : Calls env prog e x) :
      VisitStep (.row (.lit (.elem e))) x.type
  /-- the row of an instance, also the one without a target that is made for its pointer -/
  | callInst {e : Elem} {m : Macro} {args : List Macro} {x : TypeExpr} (hm : m.elem? = some e)
      (h : Calls env prog e x) : VisitStep (.row (.ofArgs m args)) x.type
  | callGen {e : Elem} {x : TypeExpr} (h : Calls env prog e x) :
      VisitStep (.generic (.lit (.elem e))) x.type

/-- `TYPE_UNION_u`, also with generic arguments. -/
def RtType.isUnion : RtType → Bool
  | .row (.lit (.elem (.union _))) | .row (.ofArgs (.lit (.elem (.union _))) _)
  | .generic (.lit (.elem (.union _))) => true
  | _ => false

/-- A call of `visit` with type `t` leads to one with the type of a union. -/
def LeadsToUnion (t : RtType) : Prop :=
  ∃ u, ReflTransGen (VisitStep env prog) t u ∧ u.isUnion = true

end Visits

/-! ## Types around a union -/

/-- A union in both versions, below pointers, arrays, pointer arrays and typedefs. -/
inductive AroundUnion (ms : List Matched) : KtTyp → KtTyp → Prop
  | union (n0 n1 : String) (gs0 gs1 : List GenDesc) :
      AroundUnion ms (.union n0 gs0) (.union n1 gs1)
  | ptr {t0 t1 : KtTyp} (g0 g1 : Option String) (m0 m1 : MemMgmt) :
      AroundUnion ms t0 t1 → AroundUnion ms (.ptr t0 g0 m0) (.ptr t1 g1 m1)
  | ptrArray {t0 t1 : KtTyp} (len0 len1 : ArrayLen) (m0 m1 : MemMgmt) :
      AroundUnion ms t0 t1 → AroundUnion ms (.ptrArray t0 len0 m0) (.ptrArray t1 len1 m1)
  | array {t0 t1 : KtTyp} (len0 len1 : ArrayLen) :
      AroundUnion ms t0 t1 → AroundUnion ms (.array t0 len0) (.array t1 len1)
  | typedef {n0 n1 : String} (gs0 gs1 : List GenDesc)
      (found : ∃ b0 b1, .type (.typedef n0) (.typedef n1) (.typedef b0 b1) ∈ ms)
      (bodies : ∀ n1 b0 b1, .type (.typedef n0) (.typedef n1) (.typedef b0 b1) ∈ ms →
        AroundUnion ms b0 b1) :
      AroundUnion ms (.named n0 gs0) (.named n1 gs1)

/-- The element below pointers and arrays. -/
def KtTyp.elem? : KtTyp → Option Elem
  | .ptr t _ _ | .ptrArray t _ _ | .array t _ => t.elem?
  | .named nm _ => some (.typedef nm)
  | .struct nm _ => some (.struct nm)
  | .union nm _ => some (.union nm)
  | _ => none

/-- An array of length 0, with no pointer above or below it. -/
def KtTyp.emptyArray (t : KtTyp) : Bool :=
  match t.spine with
  | .array (.int 0) :: ws | .ptrArray (.int 0) :: ws => !ws.contains .ptr
  | _ => false

/-- A union below pointers and pointer arrays alone. -/
def KtTyp.pointsToUnion : KtTyp → Bool
  | .union .. => true
  | .ptr t _ _ | .ptrArray t _ _ => t.pointsToUnion
  | _ => false

/-- `has_generics'` names a static instance of the typedef below pointers and arrays. -/
def Instantiated (env : Env) (t0 t1 : KtTyp) : Prop :=
  ∃ n0 n1 g gs0 gs1, t0.bottom = .named n0 (g :: gs0) ∧ t1.bottom = .named n1 gs1 ∧
    env.xformGenerics (.xform (.typedef n0) (.typedef n1)) ≠ [] ∧ isGentType g = false

/-- The name of the type is defined to `-1` where it is visited. -/
def Overridden (env : Env) (t0 t1 : KtTyp) : Prop :=
  ∃ nm, t0.elem? = some (.typedef nm) ∧ ¬ Instantiated env t0 t1 ∧
    ((Macro.lit (.elem (.typedef nm))).ptrs (t0.spine.count .ptr)).text ∈ overridden

/-- Below all typedefs there is a union, and not only as the element of an array of length 0, and
none of the types on the way is overridden. -/
inductive HoldsUnion (env : Env) (ms : List Matched) : KtTyp → KtTyp → Prop
  | union {t0 t1 : KtTyp} {nm : String} (h : t0.elem? = some (.union nm))
      (he : t0.emptyArray = false) : HoldsUnion env ms t0 t1
  | typedef {t0 t1 b0 b1 : KtTyp} {nm : String} {e1 : Elem} (h : t0.elem? = some (.typedef nm))
      (own : ¬ Overridden env t0 t1)
      (hm : .type (.typedef nm) e1 (.typedef b0 b1) ∈ ms) :
      HoldsUnion env ms b0 b1 → HoldsUnion env ms t0 t1

/-- Where the generator writes a call of `visit` for a type. -/
inductive Place where
  | field (fname0 fname1 : String)
  | globalVar
  | typedefBody (nm0 nm1 : String)

/-- The calls of `visit` that are generated there for a type. -/
def Place.visits (env : Env) (t0 t1 : KtTyp) : Place → GenM (List Visit)
  | .field f0 f1 => Option.toList <$> generateFieldXform env f0 f1 t0 t1
  | .globalVar => generateTransFunc env (.var t0 t1)
  | .typedefBody nm0 nm1 => generateAutoBody env (.typedef nm0) (.typedef nm1) (.typedef t0 t1)

/-- `has_union` is asked about the type itself. -/
def Place.tested : Place → Bool
  | .typedefBody .. => false
  | _ => true

/-! ## What leads to a union -/

section Leads

variable {env : Env} {prog : Program} {t u : RtType} {y : TypeExpr} {e : Elem}

theorem LeadsToUnion.head (h : VisitStep env prog t u) (hu : LeadsToUnion env prog u) :
    LeadsToUnion env prog t := by
  obtain ⟨v, hv, union⟩ := hu
  exact ⟨v, ReflTransGen.head h hv, union⟩

/-- A step keeps the element at the bottom, or calls its function. -/
theorem VisitStep.elem (h : VisitStep env prog t u) (ht : t.elem? = some e) :
    u.elem? = some e ∨ ∃ x, Calls env prog e x ∧ u = x.type := by
  induction h with
  | deref m =>
    left
    cases m with
    | ofArgs => cases ht
    | _ => exact ht
  | derefInst | derefGen | mktypptr | element => exact .inl ht
  | empty _ _ ih => exact ih ht
  | @call _ x hc | @callGen _ x hc =>
    cases ht
    exact .inr ⟨x, hc, rfl⟩
  | @callInst _ _ _ x hm hc =>
    obtain rfl := Option.some.inj (hm.symm.trans ht)
    exact .inr ⟨x, hc, rfl⟩

theorem step_row (hc : Calls env prog e y) : ∀ {m : Macro}, m.elem? = some e →
    TransGen (VisitStep env prog) (.row m) y.type ∧
      TransGen (VisitStep env prog) (.generic m) y.type
  | .lit (.elem _), hm => by
    cases hm
    exact ⟨.single (.call hc), .single (.callGen hc)⟩
  | .ptr m, hm => by
    obtain ⟨row, gen⟩ := step_row hc (m := m) hm
    exact ⟨.head (.deref m) row, .head (.derefGen m) gen⟩

/-- Whatever is made of the name of an element leads to what its function visits. -/
theorem step_calls (ht : t.elem? = some e) (hc : Calls env prog e y) :
    TransGen (VisitStep env prog) t y.type := by
  induction t with
  | system => cases ht
  | row m =>
    cases m with
    | ofArgs m args => exact .single (.callInst ht hc)
    | lit | ptr => exact (step_row hc ht).1
    | _ => cases ht
  | generic m => exact (step_row hc ht).2
  | mktypptr t ih => exact .head (.mktypptr t) (ih ht)
  | mktyparr len t ih =>
    by_cases hlen : len = .int 0
    · -- the entry is that of the elements, so its first step is theirs
      obtain ⟨z, hz, hzy⟩ := TransGen.head'_iff.mp (ih ht)
      refine TransGen.head' (.empty (fun n hn => ?_) hz) hzy
      rw [hlen] at hn
      exact (LenExpr.int.inj hn).symm
    · exact .head (.element hlen) (ih ht)

/-- Above a typedef, it only matters what the function of the typedef visits. -/
theorem leads_iff_calls {nm : String} (ht : t.elem? = some (.typedef nm)) :
    LeadsToUnion env prog t ↔
      ∃ y, Calls env prog (.typedef nm) y ∧ LeadsToUnion env prog y.type := by
  constructor
  · rintro ⟨u, hu, union⟩
    induction hu using ReflTransGen.head_induction_on with
    | refl =>
      -- the type of a union has a union at the bottom
      unfold RtType.isUnion at union
      split at union <;> first | cases ht | cases union
    | head h hu ih =>
      rcases h.elem ht with hy | ⟨y, hc, rfl⟩
      · exact ih hy
      · exact ⟨_, hc, _, hu, union⟩
  · rintro ⟨y, hc, u, hu, union⟩
    exact ⟨u, (step_calls ht hc).to_reflTransGen.trans hu, union⟩

variable {nm : String}

theorem leads_unionPtrs (d : Nat) :
    LeadsToUnion env prog (.row ((Macro.lit (.elem (.union nm))).ptrs d)) := by
  have ptrs (m : Macro) (hm : LeadsToUnion env prog (.row m)) :
      LeadsToUnion env prog (.row (m.ptrs d)) := by
    induction d generalizing m with
    | zero => exact hm
    | succ d ih => exact ih m.ptr (hm.head (.deref m))
  exact ptrs _ ⟨_, .refl, rfl⟩

theorem leads_mktypptr : LeadsToUnion env prog (.mktypptr t) ↔ LeadsToUnion env prog t := by
  refine ⟨?_, fun h => h.head (.mktypptr t)⟩
  rintro ⟨u, hu, union⟩
  rcases hu.cases_head with rfl | ⟨y, hy, hu⟩
  · cases union
  · cases hy
    exact ⟨u, hu, union⟩

theorem leads_mktyparr_union (hu : ∀ y, ¬ Calls env prog (.union nm) y) (len : LenExpr) (d : Nat) :
    LeadsToUnion env prog (.mktyparr len (.row ((Macro.lit (.elem (.union nm))).ptrs d))) ↔
      len ≠ .int 0 ∨ 0 < d := by
  constructor
  · rintro ⟨v, hv, union⟩
    by_contra hno
    obtain ⟨hlen, hd⟩ := not_or.mp hno
    obtain rfl : d = 0 := by omega
    rcases hv.cases_head with rfl | ⟨y, hy, -⟩
    · cases union
    · cases hy with
      | element h => exact hlen h
      | empty _ hy =>
        cases hy with
        | call hc => exact hu _ hc
  · intro h
    by_cases hlen : len = .int 0
    · obtain ⟨d, rfl⟩ : ∃ k, d = k + 1 := ⟨d - 1, by have := h.resolve_left (absurd hlen ·); omega⟩
      rw [Macro.ptrs_succ, hlen]
      exact (leads_unionPtrs d).head (.empty (fun n hn => (LenExpr.int.inj hn).symm) (.deref _))
    · exact (leads_unionPtrs d).head (.element hlen)

/-- Below pointers and arrays of the type `-1` there is nothing. -/
theorem not_leads_system : ¬ LeadsToUnion env prog .system := by
  rintro ⟨u, hu, union⟩
  rcases hu.cases_head with rfl | ⟨y, hy, -⟩
  · cases union
  · cases hy

theorem not_leads_wrap {x : TypeExpr} (hx : x.type = .system) (a : ArrType) :
    ¬ LeadsToUnion env prog (a.wrap x).type := by
  have array (len : LenExpr) : ¬ LeadsToUnion env prog (.mktyparr len .system) := by
    rintro ⟨u, hu, union⟩
    rcases hu.cases_head with rfl | ⟨y, hy, hu⟩
    · cases union
    · cases hy with
      | element => exact not_leads_system ⟨u, hu, union⟩
      | empty _ hy => cases hy
  cases a with
  | arrayNone => exact hx ▸ not_leads_system
  | arrayPlain len =>
    rw [ArrType.wrap, TypeExpr.type, hx]
    exact array len
  | arrayPtr len =>
    rw [ArrType.wrap, TypeExpr.type, TypeExpr.type, hx]
    exact fun h => array len (leads_mktypptr.mp h)

end Leads

/-! ## What is emitted -/

/-- `m` returns nothing but `Q`, from any tables. -/
def Yields {α : Type} (Q : α → Prop) (m : GenM α) : Prop := ∀ g a g', m g = .ok (a, g') → Q a

section Yields

variable {α β : Type} {Q : α → Prop} {R : β → Prop}

theorem Yields.any (m : GenM α) : Yields (fun _ => True) m := fun _ _ _ _ => trivial

theorem Yields.pure {a : α} (h : Q a) : Yields Q (pure a : GenM α) := by
  intro g b g' hb
  cases hb
  exact h

theorem Yields.throw (e : String) : Yields Q (throw e : GenM α) := by
  intro g b g' hb
  cases hb

theorem Yields.bind {m : GenM α} {k : α → GenM β} (hm : Yields Q m)
    (hk : ∀ a, Q a → Yields R (k a)) : Yields R (m >>= k) := by
  intro g b g'' h
  obtain ⟨a, g', ha, hb⟩ := bind_ok h
  exact hk a (hm g a g' ha) g' b g'' hb

theorem Yields.map {m : GenM α} (f : α → β) (hm : Yields (fun a => R (f a)) m) :
    Yields R (f <$> m) := by
  rw [← bind_pure_comp]
  exact hm.bind fun _ h => .pure h

theorem Returns.yields {m : GenM α} {a : α} (h : Returns m a) : Yields (· = a) m := by
  intro g b g' hb
  obtain ⟨g'', ha⟩ := h g
  rw [ha] at hb
  cases hb
  rfl

end Yields

/-- Both versions have the same pointers and arrays above a union, or above a typedef that is
incomplete in neither. -/
inductive Over (env : Env) : KtTyp → KtTyp → Prop
  | union (n0 n1 : String) (gs0 gs1 : List GenDesc) : Over env (.union n0 gs0) (.union n1 gs1)
  | typedef {n0 n1 : String} (gs0 gs1 : List GenDesc) (old : env.incompleteOld n0 = none)
      (new : env.incompleteNew n1 = none) : Over env (.named n0 gs0) (.named n1 gs1)
  | ptr {t0 t1 : KtTyp} (g0 g1 : Option String) (m0 m1 : MemMgmt) :
      Over env t0 t1 → Over env (.ptr t0 g0 m0) (.ptr t1 g1 m1)
  | ptrArray {t0 t1 : KtTyp} (len0 len1 : ArrayLen) (m0 m1 : MemMgmt) :
      Over env t0 t1 → Over env (.ptrArray t0 len0 m0) (.ptrArray t1 len1 m1)
  | array {t0 t1 : KtTyp} (len0 len1 : ArrayLen) :
      Over env t0 t1 → Over env (.array t0 len0) (.array t1 len1)

section Emitted

variable {env : Env} {t0 t1 : KtTyp} {e : Elem}

theorem Over.elem (h : Over env t0 t1) : ∃ nm, t0.elem? = some (.union nm) ∨
    t0.elem? = some (.typedef nm) := by
  induction h with
  | union n0 => exact ⟨n0, .inl rfl⟩
  | @typedef n0 => exact ⟨n0, .inr rfl⟩
  | ptr _ _ _ _ _ ih | ptrArray _ _ _ _ _ ih | array _ _ _ ih => exact ih

theorem Over.renderMacro (h : Over env t0 t1) (he : t0.elem? = some e) :
    Returns (renderMacro t0 false) (.lit (.elem e)) := by
  induction h with
  | union | typedef =>
    cases he
    exact .pure _
  | ptr _ _ _ _ h ih =>
    rw [renderMacro_ptr fun k hk => by subst hk; cases h]
    exact ih he
  | ptrArray _ _ _ _ h ih =>
    rw [renderMacro_ptrArray fun k hk => by subst hk; cases h]
    exact ih he
  | array _ _ _ ih => exact ih he

theorem Over.countderef (h : Over env t0 t1) :
    countderef env t0 t1 = t0.spine.count .ptr := by
  induction h with
  | union | typedef => rfl
  | @ptr t0 t1 g0 g1 m0 m1 h ih =>
    have one : Gen.countderef env (.ptr t0 g0 m0) (.ptr t1 g1 m1) =
        1 + Gen.countderef env t0 t1 := by
      rw [Gen.countderef]
      simp only [Env.newTyp]
      cases h with
      | typedef _ _ old =>
        simp only [Env.oldTyp, old, Option.map_none, Option.getD_none]
        rfl
      | _ => rfl
    rw [one, ih, KtTyp.spine, List.count_cons_self]
    exact Nat.add_comm ..
  | ptrArray _ _ _ _ _ ih | array _ _ _ ih =>
    rw [Gen.countderef, KtTyp.spine, List.count_cons_of_ne (by simp)]
    exact ih

/-- The names that are given are those of static instances of the typedef below, behind
pointers. -/
def GenericType.Over (e : Elem) (instantiated : Prop) : GenericType → Prop
  | .genOk m => instantiated ∧ ∃ k args, m = .ofArgs ((Macro.lit (.elem e)).ptrs k) args
  | .genMakeMe | .genNone => ¬ instantiated

theorem instantiated_named {n0 n1 : String} {gs0 gs1 : List GenDesc} :
    Instantiated env (.named n0 gs0) (.named n1 gs1) ↔
      env.xformGenerics (.xform (.typedef n0) (.typedef n1)) ≠ [] ∧
        ∃ g gs, gs0 = g :: gs ∧ isGentType g = false := by
  constructor
  · rintro ⟨_, _, g, gs, _, ⟨⟩, ⟨⟩, hx, hg⟩
    exact ⟨hx, g, gs, rfl, hg⟩
  · rintro ⟨hx, g, gs, rfl, hg⟩
    exact ⟨n0, n1, g, gs, gs1, rfl, rfl, hx, hg⟩

theorem yields_genericInstance {n0 n1 : String} {gs0 gs1 : List GenDesc} {args : GenM (List Macro)}
    {i : Nat} : Yields
      (GenericType.Over (.typedef n0) (Instantiated env (.named n0 gs0) (.named n1 gs1)))
      (genericInstance env (.named n0 gs0) (.named n1 gs1) args i) := by
  rw [instantiated_named]
  unfold genericInstance
  simp only [KtTyp.pathElem]
  split
  · next none => exact .pure fun h => h.1 none
  · next generic =>
    split
    · exact .throw _
    · next g gs hgs =>
      split
      · next hg =>
        refine .pure ?_
        rintro ⟨-, _, _, hgs', hg'⟩
        rw [show gs0 = g :: gs from hgs] at hgs'
        cases hgs'
        rw [hg] at hg'
        cases hg'
      · next hg =>
        have base : Returns (Gen.renderMacro (.named n0 gs0) false) (.lit (.elem (.typedef n0))) :=
          .pure _
        refine base.yields.bind fun base hbase => ?_
        subst hbase
        refine (returns_appendDeref rfl i).yields.bind fun main hmain => ?_
        subst hmain
        refine (Yields.any _).bind fun _ _ => (Yields.any _).bind fun args _ => ?_
        refine (Yields.any _).bind fun _ _ => .pure ⟨⟨generic, g, gs, hgs, ?_⟩, i, args, rfl⟩
        simpa using hg

theorem Over.hasGenerics (h : Over env t0 t1) (he : t0.elem? = some e) (i : Nat) :
    Yields (fun r => r.Over e (Instantiated env t0 t1) ∧ ((∃ nm, e = .union nm) → r = .genNone))
      (hasGenerics' env t0 t1 i) := by
  induction h generalizing i with
  | union n0 n1 gs0 gs1 =>
    rw [hasGenerics']
    refine .pure ⟨?_, fun _ => rfl⟩
    rintro ⟨_, _, _, _, _, ⟨⟩, _⟩
  | @typedef n0 n1 gs0 gs1 old new =>
    cases he
    rw [hasGenerics', old]
    simp only [Env.newTyp, new, Option.map_none, Option.getD_none]
    intro g r g' hr
    exact ⟨yields_genericInstance g r g' hr, fun hu => by obtain ⟨nm, hnm⟩ := hu; cases hnm⟩
  | ptr _ _ _ _ _ ih | ptrArray _ _ _ _ _ ih | array _ _ _ ih =>
    rw [hasGenerics']
    exact ih he (i + 1)

theorem Macro.elem?_ptrs {m : Macro} (h : m.elem? = some e) (d : Nat) :
    (m.ptrs d).elem? = some e := by
  induction d generalizing m with
  | zero => exact h
  | succ d ih => exact ih h

theorem RtType.elem?_row (e : Elem) (d : Nat) :
    (RtType.row ((Macro.lit (.elem e)).ptrs d)).elem? = some e := by
  cases d with
  | zero => rfl
  | succ d =>
    rw [Macro.ptrs_succ]
    exact Macro.elem?_ptrs (m := .lit (.elem e)) rfl d

/-- Unions and instances are not overridden. -/
theorem union_not_overridden (nm : String) (d : Nat) :
    ((Macro.lit (.elem (.union nm))).ptrs d).text ∉ overridden := by
  obtain ⟨s, hs⟩ := (Macro.lit (.elem (.union nm))).text_ptrs d
  rw [hs, Macro.text, Label.text]
  simp only [overridden, List.mem_cons, List.not_mem_nil, or_false, ← String.toList_inj,
    String.toList_append]
  simp

theorem instance_not_overridden (m : Macro) (args : List Macro) :
    (Macro.ofArgs m args).text ∉ overridden := by
  intro h
  have inner : "_OF_".toList <:+: (Macro.ofArgs m args).text.toList := by
    rw [Macro.text, String.toList_append, String.toList_append]
    exact List.infix_append _ _ _
  have none : ∀ s ∈ overridden, ¬ "_OF_".toList <:+: s.toList := by
    simp only [overridden, List.forall_mem_cons]
    refine ⟨?_, ?_, ?_, fun s hs => absurd hs List.not_mem_nil⟩ <;> decide +kernel
  exact none _ h inner

/-- What the array of a type is made of: `-1` if its name is overridden, and else a type with the
same element at the bottom. -/
theorem Over.elemType (h : Over env t0 t1) (he : t0.elem? = some e) :
    Yields (fun x => (Overridden env t0 t1 ∧ x.type = .system) ∨
      (¬ Overridden env t0 t1 ∧ x.type.elem? = some e ∧ ((∃ nm, e = .union nm) →
        x.type = .row ((Macro.lit (.elem e)).ptrs (t0.spine.count .ptr))))) (elemType env t0 t1) := by
  have overridden_iff (plain : ¬ Instantiated env t0 t1) : Overridden env t0 t1 ↔
      ((Macro.lit (.elem e)).ptrs (t0.spine.count .ptr)).text ∈ overridden := by
    constructor
    · rintro ⟨nm, hnm, -, own⟩
      obtain rfl := Option.some.inj (he.symm.trans hnm)
      exact own
    · intro own
      obtain ⟨nm, hnm | hnm⟩ := h.elem
      · obtain rfl := Option.some.inj (he.symm.trans hnm)
        exact absurd own (union_not_overridden nm _)
      · obtain rfl := Option.some.inj (he.symm.trans hnm)
        exact ⟨nm, he, plain, own⟩
  refine (h.hasGenerics he 0).bind fun r hr => ?_
  obtain ⟨above, plain⟩ := hr
  cases r with
  | genOk m =>
    obtain ⟨instantiated, k, args, rfl⟩ := above
    refine .pure (.inr ⟨fun h => ?_, ?_, fun hu => nomatch plain hu⟩)
    · obtain ⟨_, _, not, _⟩ := h
      exact not instantiated
    · rw [TypeExpr.type, if_neg (instance_not_overridden _ _)]
      exact Macro.elem?_ptrs (m := .lit (.elem e)) rfl k
  | genMakeMe =>
    refine (h.renderMacro he).yields.bind fun m hm => ?_
    subst hm
    refine (returns_appendDeref rfl _).yields.bind fun m hm => ?_
    subst hm
    refine .pure ?_
    rw [h.countderef, overridden_iff above, TypeExpr.type]
    by_cases own : ((Macro.lit (.elem e)).ptrs (t0.spine.count .ptr)).text ∈ overridden
    · exact .inl ⟨own, if_pos own⟩
    · rw [if_neg own]
      exact .inr ⟨own, Macro.elem?_ptrs (m := .lit (.elem e)) rfl _, fun hu => nomatch plain hu⟩
  | genNone =>
    refine (Yields.any _).bind fun _ _ => ?_
    refine (h.renderMacro he).yields.bind fun m hm => ?_
    subst hm
    refine (returns_appendDeref rfl _).yields.bind fun m hm => ?_
    subst hm
    refine .pure ?_
    rw [h.countderef, overridden_iff above, TypeExpr.type]
    by_cases own : ((Macro.lit (.elem e)).ptrs (t0.spine.count .ptr)).text ∈ overridden
    · exact .inl ⟨own, if_pos own⟩
    · rw [if_neg own]
      exact .inr ⟨own, RtType.elem?_row e _, fun _ => rfl⟩

/-- The array that `use_array` finds is the outermost constructor, or is below a pointer. -/
theorem Over.useArray (h : Over env t0 t1) : Yields (fun a => a = .arrayNone ∧ t0.spine = [] ∨
    .ptr ∈ t0.spine ∨ ∃ len ws, (a = .arrayPlain len ∧ t0.spine = .array len.len :: ws) ∨
      a = .arrayPtr len ∧ t0.spine = .ptrArray len.len :: ws) (useArray t0 t1) := by
  have lengths (len : ArrayLen) : Yields (fun l => len = LenExpr.len l) (lenToString len) := by
    cases len with
    | int | field => exact .pure rfl
    | unknown | nullterm => exact .throw _
  cases h with
  | union | typedef => exact .pure (.inl ⟨rfl, rfl⟩)
  | ptr =>
    intro g a g' _
    exact .inr (.inl List.mem_cons_self)
  | @ptrArray t0 t1 len0 len1 m0 m1 h =>
    rw [Gen.useArray]
    refine .map _ fun g l g' hl => ?_
    obtain rfl := lengths len0 g l g' hl
    exact .inr (.inr ⟨l, t0.spine, .inr ⟨rfl, rfl⟩⟩)
  | @array t0 t1 len0 len1 h =>
    rw [Gen.useArray]
    refine .map _ fun g l g' hl => ?_
    obtain rfl := lengths len0 g l g' hl
    exact .inr (.inr ⟨l, t0.spine, .inl ⟨rfl, rfl⟩⟩)

end Emitted

/-! ## A type around a union -/

section Around

variable {rules : List XformRule} {env : Env} {ms : List Matched} {prog : Program} {t0 t1 : KtTyp}
  {u : String} {g g' : GenCtx}

theorem emptyArray_of_ptr (h : .ptr ∈ t0.spine) : t0.emptyArray = false := by
  unfold KtTyp.emptyArray
  split
  · next ws hs => simpa [hs] using h
  · next ws hs => simpa [hs] using h
  · rfl

theorem emptyArray_of_array {len : LenExpr} {ws : List Wrapper}
    (h : t0.spine = .array len.len :: ws ∨ t0.spine = .ptrArray len.len :: ws) :
    t0.emptyArray = false ↔ len ≠ .int 0 ∨ 0 < t0.spine.count .ptr := by
  unfold KtTyp.emptyArray
  rcases h with h | h <;> rw [h]
  all_goals
    cases len with
    | int n =>
      by_cases hn : n = 0
      · subst hn
        simp [LenExpr.len, List.count_pos_iff]
      · simp [LenExpr.len, hn]
    | field f => simp [LenExpr.len]

theorem leads_visitType_union (hu : ∀ y, ¬ Calls env prog (.union u) y) (h : Over env t0 t1)
    (he : t0.elem? = some (.union u)) :
    Yields (fun x => LeadsToUnion env prog x.type ↔ t0.emptyArray = false)
      (visitType env t0 t1) := by
  refine (h.elemType he).bind fun typ htyp => ?_
  have htyp : typ.type = .row ((Macro.lit (.elem (.union u))).ptrs (t0.spine.count .ptr)) := by
    rcases htyp with ⟨⟨nm, hnm, _⟩, _⟩ | ⟨-, -, htyp⟩
    · rw [he] at hnm
      cases hnm
    · exact htyp ⟨u, rfl⟩
  refine h.useArray.bind fun a ha => .pure ?_
  have plain (len : LenExpr) : (ArrType.wrap typ (.arrayPlain len)).type = .mktyparr len
      (.row ((Macro.lit (.elem (.union u))).ptrs (t0.spine.count .ptr))) := by
    rw [ArrType.wrap, TypeExpr.type, htyp]
  have ptr (len : LenExpr) : (ArrType.wrap typ (.arrayPtr len)).type = .mktypptr (.mktyparr len
      (.row ((Macro.lit (.elem (.union u))).ptrs (t0.spine.count .ptr)))) := by
    rw [ArrType.wrap, TypeExpr.type, TypeExpr.type, htyp]
  rcases ha with ⟨rfl, hs⟩ | hptr | ⟨len, ws, ⟨rfl, hs⟩ | ⟨rfl, hs⟩⟩
  · refine iff_of_true ?_ (by rw [KtTyp.emptyArray, hs])
    rw [ArrType.wrap, htyp]
    exact leads_unionPtrs _
  · have hd : 0 < t0.spine.count .ptr := List.count_pos_iff.mpr hptr
    refine iff_of_true ?_ (emptyArray_of_ptr hptr)
    cases a with
    | arrayNone =>
      rw [ArrType.wrap, htyp]
      exact leads_unionPtrs _
    | arrayPlain len =>
      rw [plain]
      exact (leads_mktyparr_union hu len _).mpr (.inr hd)
    | arrayPtr len =>
      rw [ptr]
      exact leads_mktypptr.mpr ((leads_mktyparr_union hu len _).mpr (.inr hd))
  · rw [plain]
    exact (leads_mktyparr_union hu len _).trans (emptyArray_of_array (.inl hs)).symm
  · rw [ptr]
    exact leads_mktypptr.trans
      ((leads_mktyparr_union hu len _).trans (emptyArray_of_array (.inr hs)).symm)

theorem AroundUnion.incomplete (h : AroundUnion ms t0 t1) :
    t0.incomplete = none ∧ t1.incomplete = none := by
  induction h with
  | array _ _ _ ih => exact ih
  | _ => exact ⟨rfl, rfl⟩

theorem AroundUnion.over (hms : ∀ m ∈ ms, Compared rules env m) (h : AroundUnion ms t0 t1) :
    Over env t0 t1 := by
  induction h with
  | union n0 n1 gs0 gs1 => exact .union n0 n1 gs0 gs1
  | ptr g0 g1 m0 m1 _ ih => exact .ptr g0 g1 m0 m1 ih
  | ptrArray len0 len1 m0 m1 _ ih => exact .ptrArray len0 len1 m0 m1 ih
  | array len0 len1 _ ih => exact .array len0 len1 ih
  | typedef gs0 gs1 found bodies =>
    obtain ⟨b0, b1, hm⟩ := found
    obtain ⟨-, old, new⟩ := hms _ hm
    have complete := (bodies _ b0 b1 hm).incomplete
    exact .typedef gs0 gs1 (old.trans complete.1) (new.trans complete.2)

/-- The functions are generated one by one. -/
theorem forall₂_generate {vss : List (List Visit)} (h : generate env ms g = .ok (vss, g')) :
    List.Forall₂ (fun m vs => ∃ g g', generateTransFunc env m g = .ok (vs, g')) ms vss := by
  induction ms generalizing g vss with
  | nil =>
    cases h
    exact .nil
  | cons m ms ih =>
    obtain ⟨vs, g₁, hvs, hrest⟩ := bind_ok h
    obtain ⟨vss, g₂, hvss, hpure⟩ := bind_ok hrest
    cases hpure
    exact .cons ⟨g, g₁, hvs⟩ (ih hvss)

/-- Each result of the comparison has a function in the program. -/
theorem exists_visits {vss : List (List Visit)} (h : generate env ms g = .ok (vss, g')) {m : Matched}
    (hm : m ∈ ms) : ∃ vs, (m, vs) ∈ ms.zip vss := by
  have length_eq : ms.length = vss.length := (forall₂_generate h).length_eq
  rw [← List.map_fst_zip length_eq.le] at hm
  obtain ⟨⟨_, vs⟩, hvs, rfl⟩ := List.mem_map.mp hm
  exact ⟨vs, hvs⟩

theorem not_calls_union (hms : ∀ m ∈ ms, Compared rules env m) {vss : List (List Visit)}
    (h : generate env ms g = .ok (vss, g')) (y : TypeExpr) :
    ¬ Calls env (ms.zip vss) (.union u) y := by
  rintro ⟨e1, info, vs, p0, p1, hvs, -, v, hv, -⟩
  obtain ⟨g, g', hgen⟩ := List.forall₂_zip (forall₂_generate h) hvs
  have compared := hms _ (List.of_mem_zip hvs).1
  match e1, info, compared with
  | .union n1, .union, _ =>
    -- nothing is generated in the function of a union
    have none : Yields (· = []) (generateTransFunc env (.type (.union u) (.union n1) .union)) :=
      (Yields.any _).bind fun f _ => (Yields.any _).bind fun _ _ => .pure rfl
    rw [none g vs g' hgen] at hv
    cases hv

theorem found_typedef {n0 n1 : String} (old : env.incompleteOld n0 = none)
    (new : env.incompleteNew n1 = none) :
    Found env (.typedef n0) (.typedef n1) (.xform (.typedef n0) (.typedef n1)) := by
  have flat : generateEnqueue env (Elem.typedef n0).typ (Elem.typedef n1).typ =
      enqueueFlat (env.oldTyp (.named n0 [])) (env.newTyp (.named n1 [])) := rfl
  rw [Found, flat, Env.oldTyp, Env.newTyp, old, new]
  rfl

/-- The function of a typedef calls `visit` once, for its body. -/
theorem calls_typedef_iff (hms : ∀ m ∈ ms, Compared rules env m) {vss : List (List Visit)}
    (h : generate env ms g = .ok (vss, g')) {nm : String} (complete : env.incompleteOld nm = none)
    {R : TypeExpr → Prop} {H : KtTyp → KtTyp → Prop}
    (bodies : ∀ n1 b0 b1, .type (.typedef nm) (.typedef n1) (.typedef b0 b1) ∈ ms →
      Yields (fun x => R x ↔ H b0 b1) (visitType env b0 b1)) :
    (∃ y, Calls env (ms.zip vss) (.typedef nm) y ∧ R y) ↔
      ∃ e1 b0 b1, .type (.typedef nm) e1 (.typedef b0 b1) ∈ ms ∧ H b0 b1 := by
  -- the one visit of a result, and what is known of its type
  have visit (n1 : String) (b0 b1 : KtTyp) (vs : List Visit)
      (hvs : (Matched.type (.typedef nm) (.typedef n1) (.typedef b0 b1), vs) ∈ ms.zip vss) :
      ∃ x, vs = [⟨"", x, ""⟩] ∧ (R x ↔ H b0 b1) := by
    obtain ⟨g, g', hgen⟩ := List.forall₂_zip (forall₂_generate h) hvs
    have body := bodies n1 b0 b1 (List.of_mem_zip hvs).1
    have one : Yields (fun vs => ∃ x, vs = [⟨"", x, ""⟩] ∧ (R x ↔ H b0 b1))
        (generateTransFunc env (.type (.typedef nm) (.typedef n1) (.typedef b0 b1))) :=
      (Yields.any _).bind fun f _ => (Yields.any _).bind fun _ _ =>
        body.bind fun x hx => .pure ⟨x, rfl, hx⟩
    exact one g vs g' hgen
  constructor
  · rintro ⟨y, ⟨e1, info, vs, p0, p1, hvs, -, v, hv, rfl⟩, hR⟩
    have hm := (List.of_mem_zip hvs).1
    have compared := hms _ hm
    match e1, info, compared with
    | .typedef n1, .typedef b0 b1, _ =>
      obtain ⟨x, rfl, hx⟩ := visit n1 b0 b1 vs hvs
      obtain rfl := List.mem_singleton.mp hv
      exact ⟨.typedef n1, b0, b1, hm, hx.mp hR⟩
  · rintro ⟨e1, b0, b1, hm, hH⟩
    have compared := hms _ hm
    match e1, compared with
    | .typedef n1, ⟨same, old, new⟩ =>
      obtain ⟨vs, hvs⟩ := exists_visits h hm
      obtain ⟨x, rfl, hx⟩ := visit n1 b0 b1 vs hvs
      refine ⟨x, ⟨.typedef n1, _, _, .typedef nm, .typedef n1, hvs, ?_, _, List.mem_singleton_self _,
        rfl⟩, hx.mpr hH⟩
      have both := sameIncomplete_of_compareTypes same
      rw [← old, ← new, complete] at both
      generalize hnew : env.incompleteNew n1 = incomplete at both
      cases both
      exact found_typedef complete hnew

theorem holdsUnion_iff_of_union (he : t0.elem? = some (.union u)) :
    HoldsUnion env ms t0 t1 ↔ t0.emptyArray = false := by
  refine ⟨fun h => ?_, .union he⟩
  cases h with
  | union _ h => exact h
  | typedef h => rw [he] at h; cases h

theorem holdsUnion_iff_of_typedef {nm : String} (he : t0.elem? = some (.typedef nm)) :
    HoldsUnion env ms t0 t1 ↔ ¬ Overridden env t0 t1 ∧
      ∃ e1 b0 b1, .type (.typedef nm) e1 (.typedef b0 b1) ∈ ms ∧ HoldsUnion env ms b0 b1 := by
  constructor
  · intro h
    cases h with
    | union h => rw [he] at h; cases h
    | typedef h own hm hb =>
      rw [he] at h
      cases h
      exact ⟨own, _, _, _, hm, hb⟩
  · rintro ⟨own, e1, b0, b1, hm, hb⟩
    exact .typedef he own hm hb

theorem elem?_wrap (a : ArrType) (x : TypeExpr) : (a.wrap x).type.elem? = x.type.elem? := by
  cases a <;> rfl

/-- Where the code generated for a type around a union visits a union. The induction is for the
element at the bottom; what is above it is in `Over`. -/
theorem leads_visitType (hms : ∀ m ∈ ms, Compared rules env m) {vss : List (List Visit)}
    (hgen : generate env ms g = .ok (vss, g')) (h : AroundUnion ms t0 t1) :
    Yields (fun x => LeadsToUnion env (ms.zip vss) x.type ↔ HoldsUnion env ms t0 t1)
      (visitType env t0 t1) := by
  have step {t0 t1 : KtTyp} (above : Over env t0 t1)
      (bottom : (∃ u, t0.elem? = some (.union u)) ∨
        ∃ nm, t0.elem? = some (.typedef nm) ∧ env.incompleteOld nm = none ∧
          ∀ n1 b0 b1, .type (.typedef nm) (.typedef n1) (.typedef b0 b1) ∈ ms →
            Yields (fun x => LeadsToUnion env (ms.zip vss) x.type ↔ HoldsUnion env ms b0 b1)
              (visitType env b0 b1)) :
      Yields (fun x => LeadsToUnion env (ms.zip vss) x.type ↔ HoldsUnion env ms t0 t1)
        (visitType env t0 t1) := by
    rcases bottom with ⟨u, he⟩ | ⟨nm, he, complete, bodies⟩
    · rw [holdsUnion_iff_of_union he]
      exact leads_visitType_union (not_calls_union hms hgen) above he
    · refine (above.elemType he).bind fun typ htyp => (Yields.any _).bind fun a _ => .pure ?_
      rw [holdsUnion_iff_of_typedef he]
      rcases htyp with ⟨own, htyp⟩ | ⟨own, htyp, -⟩
      · exact iff_of_false (not_leads_wrap htyp a) fun h => h.1 own
      · rw [leads_iff_calls ((elem?_wrap a typ).trans htyp),
          calls_typedef_iff hms hgen complete bodies, and_iff_right own]
  refine step (h.over hms) ?_
  induction h with
  | union n0 n1 gs0 gs1 => exact .inl ⟨n0, rfl⟩
  | ptr _ _ _ _ _ ih | ptrArray _ _ _ _ _ ih | array _ _ _ ih => exact ih
  | @typedef n0 n1 gs0 gs1 found bodies ih =>
    obtain ⟨b0, b1, hm⟩ := found
    have complete : env.incompleteOld n0 = none :=
      (hms _ hm).2.1.trans (bodies n1 b0 b1 hm).incomplete.1
    exact .inr ⟨n0, rfl, complete, fun n1 b0 b1 hm =>
      step ((bodies n1 b0 b1 hm).over hms) (ih n1 b0 b1 hm)⟩

/-- None of the calls `vs` leads to a visit of a union. -/
def NeverVisited (env : Env) (prog : Program) (vs : List Visit) : Prop :=
  ∀ v ∈ vs, ¬ LeadsToUnion env prog v.type.type

theorem neverVisited_singleton {v : Visit} :
    NeverVisited env prog [v] ↔ ¬ LeadsToUnion env prog v.type.type := List.forall_mem_singleton

theorem AroundUnion.hasUnion_eq (h : AroundUnion ms t0 t1) : hasUnion t0 t1 = t0.pointsToUnion := by
  induction h with
  | ptr _ _ _ _ _ ih | ptrArray _ _ _ _ _ ih => exact ih
  | _ => rfl

theorem yields_visits (hms : ∀ m ∈ ms, Compared rules env m) {vss : List (List Visit)}
    (hgen : generate env ms g = .ok (vss, g')) (h : AroundUnion ms t0 t1) (place : Place) :
    Yields (fun vs => NeverVisited env (ms.zip vss) vs ↔
      place.tested = true ∧ t0.pointsToUnion = true ∨ ¬ HoldsUnion env ms t0 t1)
      (place.visits env t0 t1) := by
  have leads := leads_visitType hms hgen h
  have hasUnion_eq := h.hasUnion_eq
  have skipped : NeverVisited env (ms.zip vss) [] := fun v hv => absurd hv List.not_mem_nil
  cases place with
  | field f0 f1 =>
    simp only [Place.visits, generateFieldXform, Place.tested, true_and]
    by_cases hskip : t0.pointsToUnion = true
    · rw [hasUnion_eq, if_pos hskip]
      exact .map _ (.pure (iff_of_true skipped (.inl hskip)))
    · rw [hasUnion_eq, if_neg hskip]
      refine .map _ (leads.bind fun x hx => .pure ?_)
      rw [Option.toList_some, neverVisited_singleton, hx]
      simp [hskip]
  | globalVar =>
    by_cases hskip : t0.pointsToUnion = true
    · refine (Yields.any _).bind fun typ _ => ?_
      rw [hasUnion_eq, if_pos hskip]
      exact .pure (iff_of_true skipped (.inl ⟨rfl, hskip⟩))
    · have body : Place.globalVar.visits env t0 t1 =
          visitType env t0 t1 >>= fun x => pure [⟨"", x, ""⟩] := by
        simp [Place.visits, generateTransFunc, visitType, hasUnion_eq, hskip]
      rw [body]
      refine leads.bind fun x hx => .pure ?_
      rw [neverVisited_singleton, hx]
      simp [hskip]
  | typedefBody n0 n1 =>
    refine leads.bind fun x hx => .pure ?_
    rw [neverVisited_singleton, hx]
    simp [Place.tested]

end Around

/-! ## A struct with unions -/

/-- `union u *`. -/
def unionPtr : KtTyp := .ptr (.union "u" []) none .defaultMalloc

/-- `union u [3]`. -/
def unionArray : KtTyp := .array (.union "u" []) (.int 3)

/-- `u_t`. -/
def unionTypedef : KtTyp := .named "u_t" []

def unionFields : List FieldMatch :=
  [.auto "p" "p" unionPtr unionPtr, .auto "a" "a" unionArray unionArray,
    .auto "t" "t" unionTypedef unionTypedef]

/-- The name of `u_t`. -/
def unionTypedefElem : Elem := Elem.typedef "u_t"

/-- `typedef union u u_t; struct s { union u *p; union u a[3]; u_t t; }`. -/
def unionResults : List Matched :=
  [.type (.union "u") (.union "u") .union,
    .type unionTypedefElem unionTypedefElem (.typedef (.union "u" []) (.union "u" [])),
    .type (.struct "s") (.struct "s") (.struct unionFields)]

theorem compared_unionResults : ∀ m ∈ unionResults, Compared [] plainEnv m := by
  simp only [unionResults, List.mem_cons, List.not_mem_nil, or_false, forall_eq_or_imp, forall_eq]
  exact ⟨trivial, ⟨rfl, rfl, rfl⟩, trivial⟩

theorem aroundUnion_unionTypedef : AroundUnion unionResults unionTypedef unionTypedef := by
  refine .typedef [] []
    ⟨.union "u" [], .union "u" [], by simp [unionResults, unionTypedefElem]⟩ fun n1 b0 b1 hm => ?_
  obtain ⟨rfl, rfl, rfl⟩ : n1 = "u_t" ∧ b0 = .union "u" [] ∧ b1 = .union "u" [] := by
    simpa [unionResults, unionTypedefElem] using hm
  exact .union "u" "u" [] []

theorem exists_ok {α : Type} {m : GenM α} {g : GenCtx} (h : (m g).isOk = true) :
    ∃ a g', m g = .ok (a, g') := by
  cases hm : m g with
  | error e =>
    rw [hm] at h
    cases h
  | ok p => exact ⟨p.1, p.2, rfl⟩

/-- `pthread_mutex_t`. -/
def mutexTypedef : KtTyp := .named "pthread_mutex_t" []

def mutexElem : Elem := Elem.typedef "pthread_mutex_t"

/-- `typedef union { ... } pthread_mutex_t;`. -/
def mutexResults : List Matched :=
  [.type (.union "m") (.union "m") .union,
    .type mutexElem mutexElem (.typedef (.union "m" []) (.union "m" []))]

theorem compared_mutexResults : ∀ m ∈ mutexResults, Compared [] plainEnv m := by
  simp only [mutexResults, List.mem_cons, List.not_mem_nil, or_false, forall_eq_or_imp, forall_eq]
  exact ⟨trivial, rfl, rfl, rfl⟩

end CStrider.Gen
