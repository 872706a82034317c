import CStrider.Serial.Copied

/-!
# What the callbacks write and read

A pointer that has a new address is in the file as a token, and one that is new has its string
behind it, or what is written when the object is visited. The reader makes of a token the new
address, and of a pointer that is new a block. What this rests on, beside a well-typed heap, is in
`Processes.Restorable`: contents have the size of their type, the sizes of strings are an `int`,
and, since old and new addresses share the mapping table of the reader, no pointer of the old heap
has a value that an address of the new one can have.
-/

namespace CStrider.Serial

open Mapping (Ptr findMapping addMapping findMapping_addMapping)
open Registry (Symbols)
open Traversal
open CStrider.Types (Typ Entry)

/-- Two processes of a program: the memory and the symbols that `checkpoint` finds, and those that
`do_deserialize` finds. A root has its locations in both; `Static` is the memory of the second that
no `malloc` gives out. -/
structure Processes where
  S : Setting
  A : Allocator
  oldSymbols : Symbols
  newSymbols : Symbols
  heap : Ptr → Option Ptr
  mem : Ptr → Option Ptr
  roots : List Root
  Static : Ptr → Prop

/-- `malloc` gives out memory that is not in use. -/
structure Allocator.Proper (A : Allocator) (Static : Ptr → Prop) : Prop where
  nonNull : ∀ bs n, A.malloc bs n ≠ 0
  static : ∀ bs n y, (Span.mk (A.malloc bs n) n).Has y → ¬ Static y
  blocks : ∀ bs n, ∀ b ∈ bs, b.start ≠ A.malloc bs n ∧
    ∀ y, (Span.mk (A.malloc bs n) n).Has y → ¬ b.Has y

/-- The type of a field is that of the source if the primitive fields before it are. -/
def Causal (E : Env) : Prop :=
  ∀ {t : Typ} {te : Entry} {n : Nat} {ds es : List FieldVisit} {d : FieldVisit}
    {m m' : Ptr → Option Ptr} {a a' : Ptr} {u : Typ}, E.kind t = .struct te →
    te.func = .generated n → E.body n t = ds ++ d :: es →
    (∀ d' ∈ ds, ∀ v, d'.type m a = some v → E.kind v = .prim →
      m' (a' + d'.inOff) = m (a + d'.inOff)) →
    d.type m a = some u → d.type m' a' = some u

namespace Processes

variable (X : Processes)

abbrev env : Env := X.S.prog.toEnv

/-- What is to be copied. -/
def original : Original where
  env := X.env
  heap := X.heap
  roots := X.roots
  symbol p := (X.oldSymbols.lookupAddr p).map X.newSymbols.lookupKey
  charNt := X.S.TYPE_CHAR_NT
  Static := X.Static

/-- The pointers to data that the writer meets. -/
def Pointer (p : Ptr) : Prop :=
  X.original.Data p ∧ ∃ a t te, X.original.At a t ∧ X.env.kind t = .ptr te ∧ X.heap a = some p

/-- What the callbacks rely on. -/
structure Restorable : Prop where
  layout : X.original.Layout
  sameLayout : SameLayout X.env
  causal : Causal X.env
  blank : ∀ r ∈ X.roots, X.original.Blank X.mem r.a r.t r.x
  /-- Contents fit their types. -/
  primFits : ∀ {a t te v}, X.original.At a t → X.env.kind t = .prim →
    X.env.types.find t = some te → X.heap a = some v → v < 256 ^ getSize te
  ptrFits : ∀ {a t te p}, X.original.At a t → X.env.kind t = .ptr te → X.heap a = some p →
    p < 256 ^ 8
  ptrSize : ∀ {a t te}, X.original.At a t → X.env.kind t = .ptr te → getSize te = 8
  opaqueSize : cstriderGetSize X.env X.S.TYPE_OPAQUE_PTR = some 8
  /-- The one type of strings is the target of the one type of pointers to them. -/
  charNt : ∀ {a t te}, X.original.At a t → X.env.kind t = .ptr te →
    (te.targetType = X.S.TYPE_CHAR_NT ↔ t = X.S.TYPE_CHAR_NT_PTR)
  /-- Functions are symbols. -/
  funptr : ∀ {a t te p}, X.original.At a t → X.env.kind t = .ptr te → memoizedIsFunptr te = true →
    X.heap a = some p → ¬ X.original.Data p
  strings : ∀ {p bs}, X.Pointer p → stringAt X.heap p = some bs → bs.length + 1 < 2 ^ 31
  oldNames : Named X.oldSymbols
  newNames : Named X.newSymbols
  shortNames : ∀ e ∈ X.oldSymbols.nameToAddr, (cString e.name).length + 1 < 2 ^ 31
  malloc : X.A.Proper X.Static
  zero : X.A.content = fun _ => 0
  /-- An old address of data is none that a pointer can have in the second process, nor the mark of
  a symbol. -/
  token : ∀ {p}, X.Pointer p → p ≠ SER_SYMBOL
  blocks : ∀ {p}, X.Pointer p → ∀ bs n, p ≠ X.A.malloc bs n
  symbols : ∀ {p}, X.Pointer p → ∀ e ∈ X.newSymbols.nameToAddr, p ≠ e.addr

end Processes

/-! ## What the writer writes -/

section Write

variable {X : Processes} {w : World File} {o : List UInt8} {s s' : State File}
  {a p : Ptr} {t : Typ} {te : Entry}

theorem fwrite_own {bs : Option (List UInt8)} (h : (fwrite bs w).own = some o) :
    ∃ f b, w.own = some f ∧ bs = some b ∧ o = f ++ b := by
  obtain ⟨f, hf, hb⟩ := Option.bind_eq_some_iff.mp h
  obtain ⟨b, hbs, hfb⟩ := Option.map_eq_some_iff.mp hb
  exact ⟨f, b, hf, hbs, hfb.symm⟩

@[simp] theorem fwrite_mem {bs : Option (List UInt8)} : (fwrite bs w).mem = w.mem := rfl

@[simp] theorem serialPrim_mem {S : Setting} : (serialPrim S a t w).mem = w.mem := rfl

@[simp] theorem serialCharStr_mem {bs : Option (List UInt8)} :
    (serialCharStr bs w).mem = w.mem := rfl

@[simp] theorem serialWriteToken_mem {i : Nat} : (serialWriteToken i w).mem = w.mem := rfl

theorem serialPrim_own {S : Setting} (h : (serialPrim S a t w).own = some o) :
    ∃ f te v, w.own = some f ∧ S.prog.types.find t = some te ∧ w.mem a = some v ∧
      o = f ++ wordBytes (getSize te) v := by
  obtain ⟨f, b, hf, hb, rfl⟩ := fwrite_own h
  obtain ⟨sz, hsz, hv⟩ := Option.bind_eq_some_iff.mp hb
  obtain ⟨te, hte, rfl⟩ := Option.map_eq_some_iff.mp hsz
  obtain ⟨v, hva, rfl⟩ := Option.map_eq_some_iff.mp hv
  exact ⟨f, te, v, hf, hte, hva, rfl⟩

theorem serialPtr_mem {S : Setting} {symbols : Symbols} :
    (serialPtr S symbols a t w).2.mem = w.mem := by
  unfold serialPtr
  split
  · rfl
  · split
    · rfl
    · split
      · rfl
      · dsimp only
        split
        · rfl
        · rfl

theorem serialPtrMapped_mem {S : Setting} {symbols : Symbols} :
    (serialPtrMapped S symbols a t w).mem = w.mem := by
  unfold serialPtrMapped
  split
  · rfl
  · split
    · rfl
    · rfl

/-- A string in the file. -/
def stringBytes (bs : List UInt8) : List UInt8 := wordBytes 4 (bs.length + 1) ++ (bs ++ [0])

variable (X) in
/-- What is in the file for a pointer that has a translation. -/
def Processes.tokenBytes (p : Ptr) : List UInt8 :=
  if p = 0 then wordBytes 8 0
  else
    match X.oldSymbols.lookupAddr p with
    | some name => wordBytes 8 SER_SYMBOL ++ stringBytes (cString name)
    | none => wordBytes 8 p

theorem tokenBytes_data (h : X.original.Data p) : X.tokenBytes p = wordBytes 8 p := by
  have hnone : X.oldSymbols.lookupAddr p = none := Option.map_eq_none_iff.mp h.2
  simp only [Processes.tokenBytes, if_neg h.1, hnone]

theorem charStr_name (hX : X.Restorable) {name : String}
    (h : X.oldSymbols.lookupAddr p = some name) :
    charStr (cString name) = some (stringBytes (cString name)) :=
  charStr_short (hX.shortNames _ (Symbols.lookupAddr_eq_some.mp h))

variable (hX : X.Restorable) (hat : X.original.At a t) (hk : X.env.kind t = .ptr te)
  (hp : X.heap a = some p) (hw : w.mem = X.heap)
include hX hat hk hp hw

theorem serialPrim_ptr (h : (serialPrim X.S a t w).own = some o) :
    ∃ f, w.own = some f ∧ o = f ++ wordBytes 8 p := by
  obtain ⟨f, te', v, hf, hte, hv, rfl⟩ := serialPrim_own h
  obtain rfl : te' = te := Option.some.inj (hte.symm.trans (Env.find_of_kind (.inl hk)))
  obtain rfl : v = p := by
    rw [hw] at hv
    exact Option.some.inj (hv.symm.trans hp)
  rw [hX.ptrSize hat hk]
  exact ⟨f, hf, rfl⟩

theorem serialPtrMapped_own (hp0 : p ≠ 0)
    (h : (serialPtrMapped X.S X.oldSymbols a t w).own = some o) :
    ∃ f, w.own = some f ∧ o = f ++ X.tokenBytes p := by
  unfold serialPtrMapped at h
  rw [hw, hp] at h
  dsimp only at h
  rw [Processes.tokenBytes, if_neg hp0]
  cases hsym : X.oldSymbols.lookupAddr p with
  | some name =>
    rw [hsym] at h
    obtain ⟨f₁, b, hf₁, hb, rfl⟩ := fwrite_own h
    obtain ⟨f, b', hf, hb', rfl⟩ := fwrite_own hf₁
    rw [Option.bind_some, charStr_name hX hsym] at hb
    cases hb
    cases hb'
    exact ⟨f, hf, List.append_assoc _ _ _⟩
  | none =>
    rw [hsym] at h
    exact serialPrim_ptr hX hat hk hp hw h

/-- `serial_ptr` writes a token, and behind a new pointer to a string the string. -/
theorem serialPtr_own (h : (serialPtr X.S X.oldSymbols a t w).2.own = some o) :
    ∃ f, w.own = some f ∧
      (¬ X.original.Data p ∧ (serialPtr X.S X.oldSymbols a t w).1 = 0 ∧
          o = f ++ X.tokenBytes p ∨
        X.original.Data p ∧ te.targetType = X.S.TYPE_CHAR_NT ∧
          (serialPtr X.S X.oldSymbols a t w).1 = 0 ∧
          (∃ bs, stringAt X.heap p = some bs ∧ o = f ++ (wordBytes 8 p ++ stringBytes bs)) ∨
        X.original.Data p ∧ te.targetType ≠ X.S.TYPE_CHAR_NT ∧
          (serialPtr X.S X.oldSymbols a t w).1 = 1 ∧ o = f ++ wordBytes 8 p) := by
  unfold serialPtr at h ⊢
  rw [hw, hp] at h ⊢
  dsimp only at h ⊢
  by_cases hp0 : p = 0
  · rw [if_pos hp0] at h ⊢
    obtain ⟨f, b, hf, hb, rfl⟩ := fwrite_own h
    cases hb
    refine ⟨f, hf, .inl ⟨fun hd => hd.1 hp0, rfl, ?_⟩⟩
    rw [Processes.tokenBytes, if_pos hp0]
  · rw [if_neg hp0] at h ⊢
    cases hsym : X.oldSymbols.lookupAddr p with
    | some name =>
      rw [hsym] at h
      obtain ⟨f₁, b, hf₁, hb, rfl⟩ := fwrite_own h
      obtain ⟨f, b', hf, hb', rfl⟩ := fwrite_own hf₁
      rw [Option.bind_some, charStr_name hX hsym] at hb
      rw [hX.opaqueSize] at hb'
      cases hb
      cases hb'
      refine ⟨f, hf, .inl ⟨?_, rfl, ?_⟩⟩
      · intro hd
        have hnone := Option.map_eq_none_iff.mp hd.2
        cases hsym.symm.trans hnone
      · simp only [Processes.tokenBytes, if_neg hp0, hsym, List.append_assoc]
    | none =>
      have hd : X.original.Data p := ⟨hp0, Option.map_eq_none_iff.mpr hsym⟩
      rw [hsym] at h
      dsimp only at h ⊢
      by_cases hchar : t = X.S.TYPE_CHAR_NT_PTR
      · rw [if_pos hchar] at h ⊢
        obtain ⟨f₁, b, hf₁, hb, rfl⟩ := fwrite_own h
        obtain ⟨f, hf, rfl⟩ := serialPrim_ptr hX hat hk hp hw hf₁
        obtain ⟨bs, hbs, hstr⟩ := Option.bind_eq_some_iff.mp hb
        rw [serialPrim_mem, hw] at hbs
        rw [charStr_short (hX.strings ⟨hd, a, t, te, hat, hk, hp⟩ hbs)] at hstr
        cases hstr
        refine ⟨f, hf, .inr (.inl ⟨hd, (hX.charNt hat hk).mpr hchar, rfl, bs, hbs, ?_⟩)⟩
        exact List.append_assoc _ _ _
      · rw [if_neg hchar] at h ⊢
        obtain ⟨f, hf, rfl⟩ := serialPrim_ptr hX hat hk hp hw h
        exact ⟨f, hf, .inr (.inr ⟨hd, fun hc => hchar ((hX.charNt hat hk).mp hc), rfl, rfl⟩)⟩

omit hX hat hk hp hw in
variable (X) in
/-- What `visit` does for a pointer `p` whose target type is `u`, when it writes `bs`. -/
inductive WritesPtr (p : Ptr) (u : Typ) (s s' : State File) : List UInt8 → Prop
  | token : (X.original.Data p → findMapping X.env.bucket s.mappings p ≠ 0) →
    s'.stack = s.stack →
    (s'.mappings = s.mappings ∨
      ¬ X.original.Data p ∧ s'.mappings = addMapping X.env.bucket s.mappings p p) →
    WritesPtr p u s s' (X.tokenBytes p)
  | string {bs : List UInt8} : X.original.Data p → findMapping X.env.bucket s.mappings p = 0 →
    u = X.S.TYPE_CHAR_NT → stringAt X.heap p = some bs → s'.stack = s.stack →
    s'.mappings = addMapping X.env.bucket s.mappings p p →
    WritesPtr p u s s' (wordBytes 8 p ++ stringBytes bs)
  | object : X.original.Data p → findMapping X.env.bucket s.mappings p = 0 →
    u ≠ X.S.TYPE_CHAR_NT → s'.stack = .visit p u p :: s.stack →
    s'.mappings = addMapping X.env.bucket s.mappings p p →
    WritesPtr p u s s' (wordBytes 8 p)

end Write

section Kinds

variable {E : Env} {t : Typ} {te : Entry}

theorem eq_of_kind_system (h : E.kind t = .system) : t = -1 := by
  by_contra hne
  rw [Env.kind, if_neg hne] at h
  split at h
  · cases h
  · split at h
    · cases h
    · split at h
      · cases h
      · split at h
        · cases h
        · cases h

/-- Pointers to what `visit` passes over are function pointers. -/
theorem target_of_kind (h : E.kind t = .ptr te) (hfun : memoizedIsFunptr te = false) :
    te.targetType ≠ -1 := by
  have hptr : memoizedIsPtr te = true := by
    unfold Env.kind at h
    split at h
    · cases h
    · split at h
      · cases h
      · split at h
        · cases h
        · split at h
          · next hptr =>
            cases h
            exact hptr
          · split at h
            · cases h
            · cases h
  simp only [memoizedIsFunptr, decide_eq_false_iff_not, not_or] at hfun
  simp only [memoizedIsPtr, decide_eq_true_eq] at hptr
  rcases hptr.1 with htarget | htype | hfunc
  · exact htarget
  · exact absurd htype hfun.1
  · exact absurd hfunc hfun.2

end Kinds

section Follow

variable {σ : Type} {E : Env} {cb : Callbacks σ} {te : Entry} {a x p p' q : Ptr} {t : Typ}
  {s : State σ} {retc : Int}

theorem followPtr_stop (hp : s.world.mem a = some p) (hq : s.world.mem x = some q) :
    followPtr E te a x 0 s = { s with mappings := addMapping E.bucket s.mappings p q } := by
  rw [followPtr, hp, hq]
  exact if_pos (.inl rfl)

theorem followPtr_go (hp : s.world.mem a = some p) (hq : s.world.mem x = some q) (h : retc ≠ 0)
    (hfun : memoizedIsFunptr te = false) : followPtr E te a x retc s =
      { s with mappings := addMapping E.bucket s.mappings p q }.push [.visit p te.targetType q] := by
  rw [followPtr, hp, hq]
  exact if_neg (by simp [h, hfun])

theorem followPtr_world : (followPtr E te a x retc s).world = s.world := by
  unfold followPtr
  split
  · dsimp only
    split
    · rfl
    · rfl
  · rfl

/-- A pointer that is not mapped. -/
theorem visitPtr_new (ha : a ≠ 0) (hp : s.world.mem a = some p)
    (hnew : findMapping E.bucket s.mappings p = 0) {ret : Int} {w : World σ}
    (hret : cb.perfactionPtr a t x s.world = (ret, w)) :
    visitPtr E cb te a t x s = followPtr E te a x ret ({ s with world := w }.note (.ptr a t)) := by
  rw [visitPtr, if_neg ha, hp]
  dsimp only
  rw [if_neg (not_not.mpr hnew), hret]

/-- A pointer that is mapped. -/
theorem visitPtr_known (ha : a ≠ 0) (hp : s.world.mem a = some p)
    (hnew : findMapping E.bucket s.mappings p ≠ 0) {w : World σ}
    (hret : cb.perfactionPtrMapped a t (findMapping E.bucket s.mappings p) s.world = (q, w))
    (hx : (w.mem x).isSome) :
    visitPtr E cb te a t x s =
      { s with world := { w with mem := Function.update w.mem x (some q) } }.note
        (.ptrMapped a t) := by
  rw [visitPtr, if_neg ha, hp]
  dsimp only
  rw [if_pos hnew, hret]
  exact if_pos hx

end Follow

section Visit

variable {X : Processes} {o : List UInt8} {s : State File} {a p : Ptr} {t : Typ} {te : Entry}

/-- A pointer in the writer. -/
theorem writes_ptr (hX : X.Restorable) (hat : X.original.At a t) (hk : X.env.kind t = .ptr te)
    (hp : X.heap a = some p) (hmem : s.world.mem = X.heap)
    (hself : ∀ k, findMapping X.env.bucket s.mappings k ≠ 0 →
      findMapping X.env.bucket s.mappings k = k)
    (h : (visitPtr X.env (serFuns X.S X.oldSymbols) te a t a s).world.own = some o) :
    let s' := visitPtr X.env (serFuns X.S X.oldSymbols) te a t a s
    s'.world.mem = X.heap ∧ s'.queue = s.queue ∧ s'.status = s.status ∧
      ∃ f bs, s.world.own = some f ∧ o = f ++ bs ∧ WritesPtr X p te.targetType s s' bs := by
  have ha : a ≠ 0 := hX.layout.typed.nonNull hat
  have hslot : s.world.mem a = some p := by rw [hmem, hp]
  dsimp only
  by_cases hnew : findMapping X.env.bucket s.mappings p = 0
  · obtain ⟨ret, w, hret⟩ : ∃ ret w, serialPtr X.S X.oldSymbols a t s.world = (ret, w) :=
      ⟨_, _, rfl⟩
    have hw : w.mem = X.heap := by
      have hwmem : (serialPtr X.S X.oldSymbols a t s.world).2.mem = s.world.mem := serialPtr_mem
      rw [hret] at hwmem
      exact hwmem.trans hmem
    have hslot' : ({ s with world := w }.note (.ptr a t) : State File).world.mem a = some p := by
      show w.mem a = some p
      rw [hw, hp]
    rw [visitPtr_new ha hslot hnew hret] at h ⊢
    have hown : (serialPtr X.S X.oldSymbols a t s.world).2.own = some o := by
      rw [followPtr_world] at h
      rw [hret]
      exact h
    obtain ⟨f, hf, hcases⟩ := serialPtr_own hX hat hk hp hmem hown
    rw [hret] at hcases
    rcases hcases with ⟨hd, rfl, ho⟩ | ⟨hd, hchar, rfl, bs, hbs, ho⟩ | ⟨hd, hchar, rfl, ho⟩
    · rw [followPtr_stop hslot' hslot']
      exact ⟨hw, rfl, rfl, f, _, hf, ho,
        .token (fun hd' => absurd hd' hd) rfl (.inr ⟨hd, rfl⟩)⟩
    · rw [followPtr_stop hslot' hslot']
      exact ⟨hw, rfl, rfl, f, _, hf, ho, .string hd hnew hchar hbs rfl rfl⟩
    · have hfun : memoizedIsFunptr te = false := by
        rw [← Bool.not_eq_true]
        exact fun hf => hX.funptr hat hk hf hp hd
      rw [followPtr_go hslot' hslot' Int.one_ne_zero hfun]
      exact ⟨hw, rfl, rfl, f, _, hf, ho, .object hd hnew hchar rfl rfl⟩
  · have hp0 : p ≠ 0 := by
      rintro rfl
      exact hnew rfl
    obtain ⟨w, hret⟩ : ∃ w, serialPtrMapped X.S X.oldSymbols a t s.world = w := ⟨_, rfl⟩
    have hw : w.mem = X.heap := by
      rw [← hret, serialPtrMapped_mem, hmem]
    have hsome : (w.mem a).isSome := by
      rw [hw, hp]
      rfl
    have hcall : (serFuns X.S X.oldSymbols).perfactionPtrMapped a t
        (findMapping X.env.bucket s.mappings p) s.world = (p, w) := by
      rw [hself p hnew, ← hret]
      rfl
    rw [visitPtr_known ha hslot hnew hcall hsome] at h ⊢
    obtain ⟨f, hf, ho⟩ := serialPtrMapped_own hX hat hk hp hmem hp0 (by rw [hret]; exact h)
    refine ⟨?_, rfl, rfl, f, _, hf, ho, .token (fun _ => hnew) rfl (.inl rfl)⟩
    show Function.update w.mem a (some p) = X.heap
    rw [hw]
    exact Function.update_eq_self_iff.mpr hp.symm

end Visit

/-! ## What the reader makes of it -/

section Read

variable {X : Processes} {c : Copy} {r : Reading} {rest bs : List UInt8} {a b x p q v : Ptr}
  {t : Typ} {te : Entry}

theorem store_of_isSome (h : (r.base.world.mem x).isSome) :
    r.store x v = r.setMem (Function.update r.base.world.mem x (some v)) := if_pos h

/-- When `deserial_ptr` returns, the new pointer is mapped to itself. -/
theorem returned_of_mem {S : Setting} (h : r.base.world.mem x = some v) :
    r.returned S te x x = r.addMapping S v v := by
  rw [Reading.returned, followPtr_stop h h]
  rfl

theorem returned_store {S : Setting} (h : (r.base.world.mem x).isSome) :
    (r.store x v).returned S te x x =
      (r.setMem (Function.update r.base.world.mem x (some v))).addMapping S v v := by
  rw [store_of_isSome h]
  exact returned_of_mem (Function.update_self _ _ _)

/-- The block that `malloc` gives out next. -/
def Reading.next (A : Allocator) (r : Reading) (n : Nat) : Span := ⟨A.malloc r.blocks n, n⟩

/-- A block that is freed again leaves what was stored elsewhere. -/
theorem free_store {b : Span} {m : Ptr → Option Ptr} (hx : (r.base.world.mem x).isSome)
    (hb : ¬ b.Has x) (hm : ∀ y, ¬ b.Has y → m y = r.base.world.mem y) :
    ({ r.setMem m with blocks := b :: r.blocks }.store x v).free b r.base.world.mem =
      r.store x v := by
  have hmem : (fun y => if b.Has y then r.base.world.mem y else Function.update m x (some v) y) =
      Function.update r.base.world.mem x (some v) := by
    funext y
    by_cases hyx : y = x
    · rw [hyx, if_neg hb, Function.update_self, Function.update_self]
    · rw [Function.update_of_ne hyx, Function.update_of_ne hyx]
      split
      · rfl
      · next hy => exact hm y hy
  have hx' : (m x).isSome := by
    rw [hm x hb]
    exact hx
  rw [store_of_isSome hx, store_of_isSome hx', ← hmem]
  rfl

theorem deserialPtr_token (hX : X.Restorable) (hat : X.original.At a t)
    (hk : X.env.kind t = .ptr te) (hp : X.heap a = some p)
    (hvalue : c.value X.original p = some q)
    (hmoved : ∀ k, X.Pointer k → findMapping X.env.bucket r.base.mappings k = c.moved k)
    (hx : (r.base.world.mem x).isSome) (hfresh : ∀ n, ¬ (r.next X.A n).Has x)
    (hown : r.base.world.own = X.tokenBytes p ++ rest) :
    deserialPtr X.S X.newSymbols X.A te x x r = ((r.setFile rest).store x q).returned X.S te x x := by
  unfold Copy.value at hvalue
  by_cases hp0 : p = 0
  · rw [if_pos hp0] at hvalue
    rw [Processes.tokenBytes, if_pos hp0] at hown
    obtain rfl := Option.some.inj hvalue
    unfold deserialPtr
    rw [freadWord_append hown]
    rfl
  rw [if_neg hp0] at hvalue
  cases hsym : X.oldSymbols.lookupAddr p with
  | some name =>
    have hentry := Symbols.lookupAddr_eq_some.mp hsym
    obtain rfl : X.newSymbols.lookupKey name = q := by
      have hsymbol : X.original.symbol p = some (X.newSymbols.lookupKey name) := by
        simp only [Processes.original, hsym, Option.map_some]
      rw [hsymbol] at hvalue
      exact Option.some.inj hvalue
    have hzero := hX.oldNames _ hentry
    have hshort : (cString name).length + 1 < 2 ^ 31 := hX.shortNames _ hentry
    have hname : lookupChars X.newSymbols (cString name) = X.newSymbols.lookupKey name :=
      lookupChars_cString hX.newNames hzero
    rw [Processes.tokenBytes, if_neg hp0, hsym] at hown
    dsimp only at hown
    rw [List.append_assoc] at hown
    have hword : bytesWord (wordBytes 8 SER_SYMBOL) = SER_SYMBOL := bytesWord_of_lt (by decide)
    have hstring := deserialCharStr_append (A := X.A)
      (s := r.setFile (stringBytes (cString name) ++ rest)) hshort rfl rfl
    have hread {m : Ptr → Option Ptr} {b : Ptr} :
        stringAt (putBytes m b (cString name ++ [0])) b = some (cString name) := by
      refine stringAt_putBytes ?_ (by omega)
      rw [cString_name hzero]
      exact hzero
    unfold deserialPtr
    rw [freadWord_append hown]
    dsimp only
    rw [hword, if_pos rfl, hstring]
    dsimp only [Reading.setMem]
    rw [hread]
    dsimp only
    rw [hname]
    refine congrArg (Reading.returned X.S te x x) ?_
    exact free_store (r := r.setFile rest) hx (hfresh _) fun y => putBytes_putBlock (by simp)
  | none =>
    have hd : X.original.Data p := ⟨hp0, Option.map_eq_none_iff.mpr hsym⟩
    have hptr : X.Pointer p := ⟨hd, a, t, te, hat, hk, hp⟩
    have hq : c.moved p ≠ 0 ∧ c.moved p = q := by
      rw [hd.2] at hvalue
      dsimp only at hvalue
      split at hvalue
      · cases hvalue
      · next h => exact ⟨h, Option.some.inj hvalue⟩
    rw [tokenBytes_data hd] at hown
    have hword : bytesWord (wordBytes 8 p) = p := bytesWord_of_lt (hX.ptrFits hat hk hp)
    have hmap : findMapping X.S.prog.bucket (r.setFile rest).base.mappings p = c.moved p :=
      hmoved p hptr
    unfold deserialPtr
    rw [freadWord_append hown]
    dsimp only
    rw [hword, if_neg (hX.token hptr), if_neg hp0, hmap, if_pos hq.1, hq.2]

theorem deserialPtr_new (hX : X.Restorable) (hat : X.original.At a t)
    (hk : X.env.kind t = .ptr te) (hp : X.heap a = some p)
    (hvalue : c.value X.original p = none)
    (hmoved : ∀ k, X.Pointer k → findMapping X.env.bucket r.base.mappings k = c.moved k)
    (hown : r.base.world.own = wordBytes 8 p ++ rest) :
    deserialPtr X.S X.newSymbols X.A te x x r = deserialNew X.S X.A te x x p (r.setFile rest) := by
  obtain ⟨hd, hnew⟩ := Copy.value_eq_none.mp hvalue
  have hptr : X.Pointer p := ⟨hd, a, t, te, hat, hk, hp⟩
  have hword : bytesWord (wordBytes 8 p) = p := bytesWord_of_lt (hX.ptrFits hat hk hp)
  have hmap : findMapping X.S.prog.bucket (r.setFile rest).base.mappings p = c.moved p :=
    hmoved p hptr
  unfold deserialPtr
  rw [freadWord_append hown]
  dsimp only
  rw [hword, if_neg (hX.token hptr), if_neg hd.1, hmap, if_neg (not_not.mpr hnew)]

theorem deserialNew_string (hu : te.targetType = X.S.TYPE_CHAR_NT) (hlen : bs.length + 1 < 2 ^ 31)
    (hown : r.base.world.own = stringBytes bs ++ rest) {b : Span} {m : Ptr → Option Ptr}
    (hb : b = r.next X.A (bs.length + 1))
    (hm : m = putBytes (putBlock X.A.content r.base.world.mem b) b.start (bs ++ [0]))
    (hx : (m x).isSome) :
    deserialNew X.S X.A te x x p r =
      ({ (r.setFile rest).setMem (Function.update m x (some b.start)) with
          blocks := b :: r.blocks }.addMapping X.S p b.start).addMapping X.S b.start b.start := by
  rw [deserialNew, if_pos hu, deserialCharStr_append hlen hown hb, ← hm]
  dsimp only
  rw [store_of_isSome (by exact hx)]
  exact returned_of_mem (Function.update_self _ _ _)

theorem deserialNew_object {next : Entry} (hu : te.targetType ≠ X.S.TYPE_CHAR_NT)
    (hfind : X.S.prog.types.find te.targetType = some next) {b : Span} {m : Ptr → Option Ptr}
    (hb : b = r.next X.A (toAlloc next)) (hm : m = putBlock X.A.content r.base.world.mem b)
    (hx : (m x).isSome) :
    deserialNew X.S X.A te x x p r =
      let s := { r.setMem (Function.update m x (some b.start)) with
          blocks := b :: r.blocks }.addMapping X.S p b.start
      { s with
        calls := ⟨r.base.stack.length, te, x, x⟩ :: r.calls
        base := s.base.push [.visit b.start te.targetType b.start] } := by
  rw [deserialNew, if_neg hu, hfind]
  subst hb hm
  dsimp only
  rw [store_of_isSome hx]
  rfl

end Read

end CStrider.Serial
