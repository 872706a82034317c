import CStrider.Gen.Requests
import CStrider.Gen.Spelling

/-!
# Names of runtime types

The generator knows a runtime type by its name. `append_deref` and `has_generics'` look a name up
before they enter it; `render_type` under `AddMacro` does not. `Run.macrotypes` is what the run
enters and emits, `Run.types` are the types that the program uses. The emitted list names every type
once (`Run.Injective`) exactly when the program matches no element twice and what it declares is not
spelled like another type (`Run.Unambiguous`).
-/

namespace CStrider.Gen

/-- A program that the generator gets through. -/
structure Run where
  env : Env
  results : List Matched
  visits : List (List Visit)
  requests : List Request
  asked : Requesting (generate env results) (.ok (visits, requests))

/-! ## Types of a program -/

/-- The pointers that `append_deref` makes of `s`, each with its new version. -/
def pointers (s : Macro) : Nat → List Macro
  | 0 => []
  | d + 1 => if s.hasArrow then [] else s.ptr :: s.ptr.new :: pointers s.ptr d

namespace Request

def oldElem : Request → Option Elem
  | .elem e0 _ => some e0
  | _ => none

def newElem : Request → Option Elem
  | .elem _ e1 => some e1
  | _ => none

/-- The types that are asked for. -/
def types : Request → List Macro
  | .elem e0 e1 => [e0.typeMacro, e1.typeMacro.out]
  | .deref s _ d => pointers s d
  -- the first pointer to the new version is the new version of the first pointer
  | .versions base _ i => pointers base i ++ pointers base.out.ptr (i - 1)
  | .inst base _ main args i =>
    let genren := Macro.ofArgs main args
    let target := Macro.ofArgs (base.ptrs (i - 1)) args
    [genren, genren.new] ++ if i = 0 then [] else pointers base (i - 1) ++ [target, target.new]

end Request

namespace Run

variable (r : Run)

/-- The runtime types that the program uses. -/
def types : List Macro := builtins.map Prod.fst ++ r.requests.flatMap Request.types

/-- `macrotypes`, the enumerators of `enum TYPES`. -/
def macrotypes : List String := enterAll Macro.text r.requests (builtins.map fun p => p.1.text)

/-- No enumerator occurs twice, and no two types share one. -/
structure Injective : Prop where
  once : r.macrotypes.Nodup
  own : ∀ m ∈ r.types, ∀ n ∈ r.types, m.text = n.text → m = n

/-- Every element is matched once, and with the endings with which the program uses it no declared
name and no instance is spelled like another type. -/
structure Unambiguous : Prop where
  old : (r.requests.filterMap Request.oldElem).Nodup
  new : (r.requests.filterMap Request.newElem).Nodup
  /-- no typedef is `BOOL` -/
  builtin : ∀ s ∈ builtinTexts, ∀ nm w v, (Macro.lit s).ends w ∈ r.types →
    (Kind.typedef.type nm).ends v ∈ r.types → s ++ endText w ≠ "TYPE_" ++ nm ++ endText v
  /-- no typedef is `STRUCT_x` beside a struct `x` -/
  tag : ∀ k ≠ Kind.typedef, ∀ nm nm' w v, (k.type nm).ends w ∈ r.types →
    (Kind.typedef.type nm').ends v ∈ r.types →
      k.lead ++ nm ++ endText w ≠ "TYPE_" ++ nm' ++ endText v
  /-- no name is `foo_PTR` beside a pointer to a `foo` of its kind -/
  kind : ∀ (k : Kind) nm nm' w v, (k.type nm).ends w ∈ r.types → (k.type nm').ends v ∈ r.types →
    nm ++ endText w = nm' ++ endText v → nm = nm'
  /-- no instance is `list_OF_A_PTR` beside a pointer to a `list_OF_A` -/
  inst : ∀ m args x w v, Stem x → (Macro.ofArgs m args).ends w ∈ r.types → x.ends v ∈ r.types →
    (Macro.ofArgs m args).text ++ endText w = x.text ++ endText v → x = .ofArgs m args

end Run

/-- Every program that the generator gets through is a run, and its names are those of the
tables. -/
theorem exists_run {env : Env} {ms : List Matched} {vss : List (List Visit)} {g : GenCtx}
    (h : generate env ms gencontextCreate = .ok (vss, g)) :
    ∃ r : Run, r.env = env ∧ r.results = ms ∧ r.visits = vss ∧ g.names = r.macrotypes := by
  obtain ⟨res, asked, -⟩ := asks_generate env ms
  cases res with
  | error e =>
    rw [requesting_error.mp asked] at h
    cases h
  | ok p =>
    obtain ⟨g', hg, hl⟩ := requesting_ok.mp asked gencontextCreate
    rw [hg] at h
    cases h
    exact ⟨⟨env, ms, p.1, p.2, asked⟩, rfl, rfl, rfl, hl⟩

/-! ## Stems of the types -/

section Stems

variable {m s : Macro} {d : Nat}

theorem stemmed_pointers (h : s.hasArrow = false → Stemmed s) (hm : m ∈ pointers s d) :
    Stemmed m := by
  induction d generalizing s with
  | zero => cases hm
  | succ d ih =>
    rw [pointers] at hm
    split at hm
    · cases hm
    · next arrow =>
      have hs := h (Bool.eq_false_iff.mpr arrow)
      rcases List.mem_cons.mp hm with rfl | hm
      · exact hs.ptr
      · rcases List.mem_cons.mp hm with rfl | hm
        · exact hs.out.ptr
        · exact ih (fun _ => hs.ptr) hm

theorem stemmed_types {q : Request} (hm : m ∈ q.types) : Stemmed m := by
  cases q with
  | elem e0 e1 =>
    rcases List.mem_pair.mp hm with rfl | rfl
    · exact stemmed_typeMacro e0
    · exact (stemmed_typeMacro e1).out
  | deref s rendered d => exact stemmed_pointers rendered.stemmed hm
  | versions base rendered i =>
    rcases List.mem_append.mp hm with hm | hm
    · exact stemmed_pointers rendered.stemmed hm
    · have first : base.out.ptr.hasArrow = false → Stemmed base.out.ptr := fun arrow =>
        (rendered.stemmed arrow).out.ptr
      exact stemmed_pointers first hm
  | inst base rendered main args i =>
    have pair {g a} (hm : m ∈ [Macro.ofArgs g a, (Macro.ofArgs g a).new]) : Stemmed m := by
      rcases List.mem_pair.mp hm with rfl | rfl
      · exact (Stem.inst g a).stemmed
      · exact (Stem.inst g a).stemmed.out
    rcases List.mem_append.mp hm with hm | hm
    · exact pair hm
    · split at hm
      · cases hm
      · rcases List.mem_append.mp hm with hm | hm
        · exact stemmed_pointers rendered.stemmed hm
        · exact pair hm

theorem stemmed_of_mem {r : Run} (hm : m ∈ r.types) : Stemmed m := by
  rcases List.mem_append.mp hm with hm | hm
  · have builtin : ∀ m ∈ builtins.map Prod.fst, ∃ s ∈ builtinTexts, m = .lit (.builtin s) := by
      decide +kernel
    obtain ⟨s, hs, rfl⟩ := builtin m hm
    exact (Stem.builtin hs).stemmed
  · obtain ⟨q, -, hq⟩ := List.mem_flatMap.mp hm
    exact stemmed_types hq

end Stems

/-! ## Lists that only grow -/

section Growing

variable {N : Type} [DecidableEq N] (nm : Macro → N)

theorem prefix_enterNew (m : Macro) (l : List N) : l <+: enterNew nm m l := by
  unfold enterNew
  split
  · exact List.prefix_rfl
  · exact List.prefix_append _ _

theorem mem_enterNew (m : Macro) (l : List N) : nm m ∈ enterNew nm m l := by
  unfold enterNew
  split
  · assumption
  · simp

theorem prefix_enterDeref (s : Macro) (d : Nat) (l : List N) : l <+: enterDeref nm s d l := by
  induction d generalizing s l with
  | zero => exact List.prefix_rfl
  | succ d ih =>
    rw [enterDeref]
    split
    · exact List.prefix_rfl
    · exact (prefix_enterNew nm s.ptr l).trans (ih s.ptr _)

theorem prefix_enter (q : Request) (l : List N) : l <+: q.enter nm l := by
  cases q with
  | elem e0 e1 => exact List.prefix_append _ _
  | deref s old d => exact prefix_enterDeref nm s d l
  | versions base old i =>
    exact (prefix_enterDeref nm base i l).trans (prefix_enterDeref nm base.out i _)
  | inst base old main args i =>
    simp only [Request.enter]
    split
    · exact List.prefix_rfl
    · split
      · exact List.prefix_append _ _
      · apply (List.prefix_append l _).trans
        apply (prefix_enterDeref nm base (i - 1) _).trans
        exact List.prefix_append _ _

end Growing

/-! ## Names that tell the types apart -/

section Apart

-- `all` is what is entered in the end
variable {all : List Macro} (own : ∀ m ∈ all, ∀ n ∈ all, m.text = n.text → m = n)
include own

theorem mem_text_iff {m : Macro} {l : List Macro} (hm : m ∈ all) (hl : l ⊆ all) :
    m.text ∈ l.map Macro.text ↔ m ∈ l := by
  constructor
  · intro h
    obtain ⟨n, hn, ht⟩ := List.mem_map.mp h
    exact own n (hl hn) m hm ht ▸ hn
  · exact List.mem_map_of_mem

theorem enterNew_text {m : Macro} {l : List Macro} (h : enterNew id m l ⊆ all) :
    enterNew Macro.text m (l.map Macro.text) = (enterNew id m l).map Macro.text := by
  have entered : m ∈ all := h (mem_enterNew id m l)
  have listed := mem_text_iff own entered fun _ hn => h ((prefix_enterNew id m l).subset hn)
  unfold enterNew
  by_cases hm : m ∈ l
  · rw [if_pos (listed.mpr hm), id, if_pos hm]
  · rw [if_neg (mt listed.mp hm), id, if_neg hm, List.map_append]
    rfl

theorem enterDeref_text {s : Macro} {d : Nat} {l : List Macro} (h : enterDeref id s d l ⊆ all) :
    enterDeref Macro.text s d (l.map Macro.text) = (enterDeref id s d l).map Macro.text := by
  induction d generalizing s l with
  | zero => rfl
  | succ d ih =>
    rw [enterDeref] at h ⊢
    rw [enterDeref]
    split at h
    · next ha => rw [if_pos ha, if_pos ha]
    · next ha =>
      rw [if_neg ha, if_neg ha, enterNew_text own, ih h]
      exact fun _ hn => h ((prefix_enterDeref id s.ptr d _).subset hn)

theorem enter_text {q : Request} {l : List Macro} (h : q.enter id l ⊆ all) :
    q.enter Macro.text (l.map Macro.text) = (q.enter id l).map Macro.text := by
  cases q with
  | elem e0 e1 =>
    rw [Request.enter, Request.enter, List.map_append]
    rfl
  | deref s old d => exact enterDeref_text own h
  | versions base old i =>
    have first : enterDeref id base i l ⊆ all := fun _ hn =>
      h ((prefix_enterDeref id base.out i _).subset hn)
    rw [Request.enter, Request.enter, enterDeref_text own first]
    exact enterDeref_text own h
  | inst base old main args i =>
    simp only [Request.enter, id] at h ⊢
    by_cases hg : Macro.ofArgs main args ∈ l
    · rw [if_pos hg, if_pos (List.mem_map_of_mem hg)]
    rw [if_neg hg] at h ⊢
    generalize hl : l ++ [Macro.ofArgs main args, (Macro.ofArgs main args).new] = l' at h ⊢
    have text_l' : l.map Macro.text ++ [(Macro.ofArgs main args).text,
        (Macro.ofArgs main args).new.text] = l'.map Macro.text := by
      rw [← hl, List.map_append]
      rfl
    have entered : l' ⊆ all → (Macro.ofArgs main args).text ∉ l.map Macro.text := fun hs =>
      mt (mem_text_iff own (hs (by simp [← hl])) fun _ hn => hs (by simp [← hl, hn])).mp hg
    by_cases ht : i = 0 ∨ Macro.ofArgs (base.ptrs (i - 1)) args ∈ l'
    · rw [if_pos ht] at h ⊢
      rw [if_neg (entered h), text_l', if_pos (ht.imp_right List.mem_map_of_mem)]
    · rw [if_neg ht] at h ⊢
      have derefs : enterDeref id base (i - 1) l' ⊆ all := fun _ hn =>
        h (List.mem_append_left _ hn)
      have sub : l' ⊆ all := fun _ hn => derefs ((prefix_enterDeref id base (i - 1) l').subset hn)
      have target := mem_text_iff own (h (List.mem_append_right _ List.mem_cons_self)) sub
      rw [if_neg (entered sub), text_l', if_neg (mt (Or.imp_right target.mp) ht),
        enterDeref_text own derefs, List.map_append]
      rfl

theorem enterAll_text {rs : List Request} {l : List Macro} (h : enterAll id rs l ⊆ all) :
    enterAll Macro.text rs (l.map Macro.text) = (enterAll id rs l).map Macro.text := by
  induction rs using List.reverseRecOn with
  | nil => rfl
  | append_singleton rs q ih =>
    rw [enterAll_append] at h ⊢
    rw [enterAll_append]
    have before : enterAll id rs l ⊆ all := fun _ hn => h ((prefix_enter id q _).subset hn)
    rw [ih before]
    exact enter_text own h

end Apart

/-! ## Types that are entered once -/

/-- A pointer or an instance, which is entered together with its new version. -/
def Macro.isPaired : Macro → Bool
  | .ptr s => !s.isOut
  | .ofArgs _ _ => true
  | _ => false

/-- Nothing is entered twice, and pointers and instances only with their new version. -/
structure Tidy (l : List Macro) : Prop where
  nodup : l.Nodup
  paired : ∀ m : Macro, m.isPaired → (m ∈ l ↔ m.new ∈ l)

section Tidy

variable {l : List Macro} {m n : Macro}

theorem isPaired_ptr {s : Macro} (h : s.isOut = false) : s.ptr.isPaired = true := by
  rw [Macro.isPaired, h]
  rfl

/-- No pointer and no instance is the new version of one. -/
theorem isPaired_new (h : m.isPaired) : m.new.isPaired = false := by
  cases m with
  | ptr | ofArgs => rfl
  | _ => cases h

theorem new_injective (hm : m.isPaired) (hn : n.isPaired) (h : m.new = n.new) : m = n := by
  cases m with
  | ptr s =>
    cases n with
    | ptr t => exact congrArg Macro.ptr (Macro.out.inj (Macro.ptr.inj h))
    | ofArgs => cases h
    | _ => cases hn
  | ofArgs =>
    cases n with
    | ptr => cases h
    | ofArgs => exact Macro.out.inj h
    | _ => cases hn
  | _ => cases hm

theorem Tidy.append_pair (h : Tidy l) (hm : m.isPaired) (hml : m ∉ l) :
    Tidy (l ++ [m, m.new]) := by
  have distinct : m ≠ m.new := fun e => by
    have unpaired := isPaired_new hm
    rw [← e, hm] at unpaired
    cases unpaired
  have new_notMem : m.new ∉ l := mt (h.paired m hm).mpr hml
  constructor
  · rw [List.nodup_append]
    refine ⟨h.nodup, by simpa using distinct, ?_⟩
    rintro a ha b hb rfl
    rcases List.mem_pair.mp hb with rfl | rfl
    · exact hml ha
    · exact new_notMem ha
  · intro n hn
    have apart : n ≠ m.new := fun e => by
      rw [e, isPaired_new hm] at hn
      cases hn
    have apart' : n.new ≠ m := fun e => by
      rw [← e, isPaired_new hn] at hm
      cases hm
    have same : n.new = m.new ↔ n = m := ⟨new_injective hn hm, fun e => e ▸ rfl⟩
    simp only [List.mem_append, List.mem_pair, apart, apart', same, h.paired n hn, or_false,
      false_or]

theorem Tidy.enterNew (h : Tidy l) (hm : m.isPaired) : Tidy (enterNew id m l) := by
  unfold CStrider.Gen.enterNew
  split
  · exact h
  · next hml => exact h.append_pair hm hml

theorem Tidy.enterDeref {s : Macro} (h : Tidy l) (hs : s.isOut = false) (d : Nat) :
    Tidy (enterDeref id s d l) := by
  induction d generalizing s l with
  | zero => exact h
  | succ d ih =>
    rw [CStrider.Gen.enterDeref]
    split
    · exact h
    · exact ih (h.enterNew (isPaired_ptr hs)) rfl

/-- Behind the pointers to the old version, the first pointer to the new one is listed. -/
theorem Tidy.enterVersions_succ {base : Macro} (h : Tidy l) (hb : base.isOut = false)
    (arrow : ¬ base.hasArrow) (k : Nat) :
    CStrider.Gen.enterDeref id base.out (k + 1) (CStrider.Gen.enterDeref id base (k + 1) l) =
      CStrider.Gen.enterDeref id base.out.ptr k (CStrider.Gen.enterDeref id base (k + 1) l) := by
  have listed : base.ptr ∈ CStrider.Gen.enterDeref id base (k + 1) l := by
    rw [CStrider.Gen.enterDeref, if_neg arrow]
    exact (prefix_enterDeref id base.ptr k _).subset (mem_enterNew id base.ptr l)
  have new_listed := ((h.enterDeref hb (k + 1)).paired base.ptr (isPaired_ptr hb)).mp listed
  have stays : CStrider.Gen.enterNew id base.out.ptr (CStrider.Gen.enterDeref id base (k + 1) l) =
      CStrider.Gen.enterDeref id base (k + 1) l := if_pos new_listed
  rw [CStrider.Gen.enterDeref, if_neg (show ¬ base.out.hasArrow from arrow), stays]

theorem enterDeref_arrow {s : Macro} (arrow : s.hasArrow) (d : Nat) : enterDeref id s d l = l := by
  cases d with
  | zero => rfl
  | succ d => rw [CStrider.Gen.enterDeref, if_pos arrow]

theorem Tidy.enterVersions {base : Macro} (h : Tidy l) (hb : base.isOut = false) (i : Nat) :
    Tidy (CStrider.Gen.enterDeref id base.out i (CStrider.Gen.enterDeref id base i l)) := by
  have olds := h.enterDeref hb i
  cases i with
  | zero => exact h
  | succ k =>
    by_cases arrow : base.hasArrow
    · rw [enterDeref_arrow (s := base.out) arrow]
      exact olds
    · rw [h.enterVersions_succ hb arrow]
      exact olds.enterDeref rfl k

theorem mem_enterDeref {s : Macro} {d : Nat} (h : n ∈ enterDeref id s d l) :
    n ∈ l ∨ n ∈ pointers s d := by
  induction d generalizing s l with
  | zero => exact .inl h
  | succ d ih =>
    rw [CStrider.Gen.enterDeref] at h
    rw [pointers]
    split at h
    · exact .inl h
    · next arrow =>
      rw [if_neg arrow]
      rcases ih h with h | h
      · unfold CStrider.Gen.enterNew at h
        split at h
        · exact .inl h
        · rcases List.mem_append.mp h with h | h
          · exact .inl h
          · rcases List.mem_pair.mp h with rfl | rfl
            · exact .inr List.mem_cons_self
            · exact .inr (List.mem_cons_of_mem _ List.mem_cons_self)
      · exact .inr (List.mem_cons_of_mem _ (List.mem_cons_of_mem _ h))

theorem ofArgs_notMem_pointers {s : Macro} {d : Nat} {args : List Macro} :
    .ofArgs m args ∉ pointers s d := by
  induction d generalizing s with
  | zero => exact List.not_mem_nil
  | succ d ih =>
    rw [pointers]
    split
    · exact List.not_mem_nil
    · simp [Macro.new, ih]

theorem Tidy.enterInst {base : Macro} (h : Tidy l) (rendered : base.Rendered) (main : Macro)
    (args : List Macro) (i : Nat) : Tidy ((Request.inst base rendered main args i).enter id l) := by
  simp only [Request.enter, id]
  split
  · exact h
  · next hg =>
    have first := h.append_pair (m := .ofArgs main args) rfl hg
    split
    · exact first
    · next ht =>
      have derefs := first.enterDeref rendered.isOut_eq_false (i - 1)
      apply derefs.append_pair (m := .ofArgs (base.ptrs (i - 1)) args) rfl
      intro hm
      rcases mem_enterDeref hm with hm | hm
      · exact ht (.inr hm)
      · exact ofArgs_notMem_pointers hm

theorem Tidy.append_elem {e0 e1 : Elem} (h : Tidy l) (h0 : e0.typeMacro ∉ l)
    (h1 : e1.typeMacro.out ∉ l) : Tidy (l ++ [e0.typeMacro, e1.typeMacro.out]) := by
  constructor
  · rw [List.nodup_append]
    refine ⟨h.nodup, by simp [Elem.typeMacro], ?_⟩
    rintro a ha b hb rfl
    rcases List.mem_pair.mp hb with rfl | rfl
    · exact h0 ha
    · exact h1 ha
  · intro m hm
    cases m with
    | ptr | ofArgs => simpa [Elem.typeMacro, Macro.new] using h.paired _ hm
    | _ => cases hm

theorem tidy_builtins : Tidy (builtins.map Prod.fst) := by
  constructor
  · decide
  · intro m hm
    cases m with
    | ptr | ofArgs => simp [builtins, typeCharNT, typeFunptr, typeOpaquePtr, Macro.new]
    | _ => cases hm

end Tidy

/-! ### Elements -/

def Macro.oldElem : Macro → Option Elem
  | .lit (.elem e) => some e
  | _ => none

def Macro.newElem : Macro → Option Elem
  | .out (.lit (.elem e)) => some e
  | _ => none

section Elements

variable {l : List Macro}

/-- The elements among the types are those of the requests `select` finds. -/
structure Selects (f : Macro → Option Elem) (select : Request → Option Elem) : Prop where
  ptr : ∀ s : Macro, f s.ptr = none
  inst : ∀ m args, f (.ofArgs m args) = none
  instNew : ∀ m args, f (Macro.ofArgs m args).out = none
  elem : ∀ e0 e1 : Elem,
    [e0.typeMacro, e1.typeMacro.out].filterMap f = (select (.elem e0 e1)).toList
  deref : ∀ s old d, select (.deref s old d) = none
  versions : ∀ base old i, select (.versions base old i) = none
  generic : ∀ base old main args i, select (.inst base old main args i) = none

theorem selects_old : Selects Macro.oldElem Request.oldElem := by
  constructor <;> intros <;> rfl

theorem selects_new : Selects Macro.newElem Request.newElem := by
  constructor <;> intros <;> rfl

variable {f : Macro → Option Elem} {select : Request → Option Elem}

theorem filterMap_enterDeref (hf : Selects f select) (s : Macro) (d : Nat) :
    (enterDeref id s d l).filterMap f = l.filterMap f := by
  induction d generalizing s l with
  | zero => rfl
  | succ d ih =>
    rw [enterDeref]
    split
    · rfl
    · rw [ih, enterNew]
      split
      · rfl
      · simp [hf.ptr, Macro.new]

theorem filterMap_enter (hf : Selects f select) (q : Request) :
    (q.enter id l).filterMap f = l.filterMap f ++ (select q).toList := by
  cases q with
  | elem e0 e1 =>
    rw [Request.enter, List.filterMap_append]
    exact congrArg _ (hf.elem e0 e1)
  | deref s old d =>
    rw [hf.deref, Option.toList_none, List.append_nil]
    exact filterMap_enterDeref hf s d
  | versions base old i =>
    rw [hf.versions, Option.toList_none, List.append_nil, Request.enter, filterMap_enterDeref hf,
      filterMap_enterDeref hf]
  | inst base old main args i =>
    rw [hf.generic, Option.toList_none, List.append_nil]
    simp only [Request.enter, id]
    have pair : ∀ m : List Macro, ∀ a b,
        (m ++ [Macro.ofArgs a b, (Macro.ofArgs a b).new]).filterMap f
        = m.filterMap f := fun m a b => by simp [hf.inst, hf.instNew, Macro.new]
    split
    · rfl
    · split
      · exact pair _ _ _
      · rw [pair, filterMap_enterDeref hf, pair]

theorem filterMap_enterAll (hf : Selects f select) (rs : List Request) :
    (enterAll id rs l).filterMap f = l.filterMap f ++ rs.filterMap select := by
  induction rs using List.reverseRecOn with
  | nil => exact (List.append_nil _).symm
  | append_singleton rs q ih =>
    rw [enterAll_append, List.filterMap_append, ← List.append_assoc, ← ih]
    change (q.enter id _).filterMap f = _
    rw [filterMap_enter hf]
    cases h : select q <;> simp [h]

/-- If no element is matched twice, no type is entered twice. -/
theorem tidy_enterAll {rs : List Request} (old : (rs.filterMap Request.oldElem).Nodup)
    (new : (rs.filterMap Request.newElem).Nodup) :
    Tidy (enterAll id rs (builtins.map Prod.fst)) := by
  induction rs using List.reverseRecOn with
  | nil => exact tidy_builtins
  | append_singleton rs q ih =>
    rw [List.filterMap_append, List.nodup_append] at old new
    have before := ih old.1 new.1
    rw [enterAll_append]
    change Tidy (q.enter id _)
    cases q with
    | elem e0 e1 =>
      apply before.append_elem
      · intro h
        have twice := List.mem_filterMap.mpr ⟨_, h, (rfl : Macro.oldElem e0.typeMacro = some e0)⟩
        rw [filterMap_enterAll selects_old] at twice
        exact old.2.2 e0 twice e0 (by simp [Request.oldElem]) rfl
      · intro h
        have twice := List.mem_filterMap.mpr
          ⟨_, h, (rfl : Macro.newElem e1.typeMacro.out = some e1)⟩
        rw [filterMap_enterAll selects_new] at twice
        exact new.2.2 e1 twice e1 (by simp [Request.newElem]) rfl
    | deref s h d => exact before.enterDeref h.isOut_eq_false d
    | versions base h i => exact before.enterVersions h.isOut_eq_false i
    | inst base h main args i => exact before.enterInst h main args i

end Elements

/-! ## The types that are entered -/

section Entered

variable {l : List Macro} {n : Macro}

theorem Tidy.mem_enter (h : Tidy l) {q : Request} (hn : n ∈ q.enter id l) :
    n ∈ l ∨ n ∈ q.types := by
  cases q with
  | elem e0 e1 => exact List.mem_append.mp hn
  | deref s rendered d => exact mem_enterDeref hn
  | versions base rendered i =>
    change n ∈ CStrider.Gen.enterDeref id base.out i (CStrider.Gen.enterDeref id base i l) at hn
    change _ ∨ n ∈ pointers base i ++ pointers base.out.ptr (i - 1)
    have rest : n ∈ l ∨ n ∈ pointers base i ∨ n ∈ pointers base.out.ptr (i - 1) := by
      cases i with
      | zero => exact .inl hn
      | succ k =>
        by_cases arrow : base.hasArrow
        · rw [enterDeref_arrow (s := base.out) arrow] at hn
          exact (mem_enterDeref hn).imp_right .inl
        · rw [h.enterVersions_succ rendered.isOut_eq_false arrow] at hn
          rcases mem_enterDeref hn with hn | hn
          · exact (mem_enterDeref hn).imp_right .inl
          · exact .inr (.inr hn)
    exact rest.imp_right List.mem_append.mpr
  | inst base rendered main args i =>
    simp only [Request.enter, id] at hn
    rw [Request.types]
    split at hn
    · exact .inl hn
    · split at hn
      · rcases List.mem_append.mp hn with hn | hn
        · exact .inl hn
        · exact .inr (List.mem_append_left _ hn)
      · next ht =>
        rw [if_neg fun hi => ht (.inl hi)]
        rcases List.mem_append.mp hn with hn | hn
        · rcases mem_enterDeref hn with hn | hn
          · rcases List.mem_append.mp hn with hn | hn
            · exact .inl hn
            · exact .inr (List.mem_append_left _ hn)
          · exact .inr (List.mem_append_right _ (List.mem_append_left _ hn))
        · exact .inr (List.mem_append_right _ (List.mem_append_right _ hn))

theorem mem_types_of_enterAll {rs : List Request} (old : (rs.filterMap Request.oldElem).Nodup)
    (new : (rs.filterMap Request.newElem).Nodup)
    (hn : n ∈ enterAll id rs (builtins.map Prod.fst)) :
    n ∈ builtins.map Prod.fst ++ rs.flatMap Request.types := by
  induction rs using List.reverseRecOn with
  | nil => exact List.mem_append_left _ hn
  | append_singleton rs q ih =>
    rw [List.filterMap_append] at old new
    have old_before := (List.nodup_append.mp old).1
    have new_before := (List.nodup_append.mp new).1
    rw [enterAll_append] at hn
    rw [List.flatMap_append, ← List.append_assoc]
    rcases (tidy_enterAll old_before new_before).mem_enter hn with hn | hn
    · exact List.mem_append_left _ (ih old_before new_before hn)
    · exact List.mem_append_right _ (by simpa using hn)

end Entered

/-! ## The enumeration -/

section Once

variable {rs : List Request} {l : List String}

theorem prefix_enterAll (rs : List Request) : l <+: enterAll Macro.text rs l := by
  induction rs using List.reverseRecOn with
  | nil => exact List.prefix_rfl
  | append_singleton rs q ih =>
    rw [enterAll_append]
    exact ih.trans (prefix_enter Macro.text q _)

/-- What a request enters without a look, it enters once. -/
theorem nodup_of_enterAll (name : Elem → Macro) {select : Request → Option Elem}
    (entered : ∀ q e, select q = some e → ∀ l, ∃ ts, q.enter Macro.text l = l ++ ts ∧
      (name e).text ∈ ts)
    (h : (enterAll Macro.text rs l).Nodup) : (rs.filterMap select).Nodup := by
  induction rs using List.reverseRecOn with
  | nil => exact List.nodup_nil
  | append_singleton rs q ih =>
    rw [enterAll_append] at h
    change (q.enter Macro.text _).Nodup at h
    have before := ih (h.sublist (prefix_enter Macro.text q _).sublist)
    rw [List.filterMap_append, List.nodup_append]
    refine ⟨before, ?_, ?_⟩
    · cases hq : select q <;> simp [hq]
    · rintro e he e' he' rfl
      have hq : select q = some e := by simpa using he'
      obtain ⟨ts, eq, mem⟩ := entered q e hq (enterAll Macro.text rs l)
      rw [eq, List.nodup_append] at h
      obtain ⟨q', hq', sel⟩ := List.mem_filterMap.mp he
      obtain ⟨rs', rs'', rfl⟩ := List.append_of_mem hq'
      obtain ⟨ts', eq', mem'⟩ := entered q' e sel (enterAll Macro.text rs' l)
      refine h.2.2 (name e).text ?_ _ mem rfl
      rw [enterAll_append]
      apply (prefix_enterAll rs'').subset
      change _ ∈ q'.enter Macro.text _
      rw [eq']
      exact List.mem_append_right _ mem'

end Once

namespace Run

variable {r : Run} {x y : Macro} {w v : List Ending}

/-- Where names tell the types apart, the emitted list is that of the types that are entered. -/
theorem macrotypes_eq {all : List Macro} (own : ∀ m ∈ all, ∀ n ∈ all, m.text = n.text → m = n)
    (h : enterAll id r.requests (builtins.map Prod.fst) ⊆ all) :
    r.macrotypes = (enterAll id r.requests (builtins.map Prod.fst)).map Macro.text :=
  enterAll_text own h

/-- Two stems that are spelled alike behind their endings are one. -/
theorem Unambiguous.stem_eq (h : r.Unambiguous) (hx : Stem x) (hy : Stem y)
    (hm : x.ends w ∈ r.types) (hn : y.ends v ∈ r.types)
    (ht : x.text ++ endText w = y.text ++ endText v) : x = y := by
  -- a built-in type or a name of another kind beside a declared name
  have builtin {s k nm w v} (hs : s ∈ builtinTexts) (hm : (Macro.lit s).ends w ∈ r.types)
      (hn : (Kind.type nm k).ends v ∈ r.types) :
      (Macro.lit s).text ++ endText w ≠ (k.type nm).text ++ endText v := by
    by_cases hk : k = .typedef
    · subst hk
      rw [text_type]
      exact h.builtin s hs nm w v hm hn
    · exact builtin_ne_type hs hk
  have tag {k nm nm' w v} (hk : k ≠ .typedef) (hm : (Kind.type nm k).ends w ∈ r.types)
      (hn : (Kind.typedef.type nm').ends v ∈ r.types) :
      (k.type nm).text ++ endText w ≠ (Kind.typedef.type nm').text ++ endText v := by
    rw [text_type, text_type]
    exact h.tag k hk nm nm' w v hm hn
  cases hx with
  | builtin hs =>
    cases hy with
    | builtin ht' => exact congrArg (fun s : String => Macro.lit s) (eq_of_builtin hs ht' ht)
    | declared k nm => exact absurd ht (builtin hs hm hn)
    | inst m args => exact h.inst m args _ v w (.builtin hs) hn hm ht.symm
    | notImplemented => exact absurd ht (notImplemented_ne_builtin hs)
  | declared k nm =>
    cases hy with
    | builtin hs => exact absurd ht.symm (builtin hs hn hm)
    | declared l nm' =>
      have same : k = l := by
        by_cases hk : k = .typedef
        · by_cases hl : l = .typedef
          · rw [hk, hl]
          · subst hk
            exact absurd ht.symm (tag hl hn hm)
        · by_cases hl : l = .typedef
          · subst hl
            exact absurd ht (tag hk hm hn)
          · exact kind_eq_of_text hk hl ht
      subst same
      rw [text_type, text_type, String.append_assoc, String.append_assoc,
        String.append_right_inj] at ht
      rw [h.kind k nm nm' w v hm hn ht]
    | inst m args => exact h.inst m args _ v w (.declared k nm) hn hm ht.symm
    | notImplemented => exact absurd ht notImplemented_ne_type
  | inst m args => exact (h.inst m args _ w v hy hm hn ht).symm
  | notImplemented =>
    cases hy with
    | builtin hs => exact absurd ht.symm (notImplemented_ne_builtin hs)
    | declared k nm => exact absurd ht.symm notImplemented_ne_type
    | inst m args => exact h.inst m args _ v w .notImplemented hn hm ht.symm
    | notImplemented => rfl

theorem Unambiguous.injective (h : r.Unambiguous) : r.Injective := by
  have own : ∀ m ∈ r.types, ∀ n ∈ r.types, m.text = n.text → m = n := by
    intro m hm n hn ht
    obtain ⟨x, w, hx, rfl⟩ := stemmed_of_mem hm
    obtain ⟨y, v, hy, rfl⟩ := stemmed_of_mem hn
    rw [text_ends, text_ends] at ht
    obtain rfl : x = y := h.stem_eq hx hy hm hn ht
    rw [endText_injective ((String.append_right_inj x.text).mp ht)]
  have entered : enterAll id r.requests (builtins.map Prod.fst) ⊆ r.types :=
    fun _ hn => mem_types_of_enterAll h.old h.new hn
  refine ⟨?_, own⟩
  rw [macrotypes_eq own entered]
  exact (tidy_enterAll h.old h.new).nodup.map_on fun m hm n hn =>
    own m (entered hm) n (entered hn)

theorem Injective.stem_eq (h : r.Injective) (hx : Stem x) (hy : Stem y)
    (hm : x.ends w ∈ r.types) (hn : y.ends v ∈ r.types)
    (ht : x.text ++ endText w = y.text ++ endText v) : x = y := by
  apply hx.eq_of_ends hy
  apply h.own _ hm _ hn
  rwa [text_ends, text_ends]

theorem Injective.unambiguous (h : r.Injective) : r.Unambiguous where
  old := nodup_of_enterAll Elem.typeMacro (by
    rintro (_ | _ | _ | _) e ⟨⟩ l
    exact ⟨_, rfl, List.mem_cons_self⟩) h.once
  new := nodup_of_enterAll (fun e => e.typeMacro.out) (by
    rintro (_ | _ | _ | _) e ⟨⟩ l
    exact ⟨_, rfl, by simp⟩) h.once
  builtin s hs nm w v hm hn ht := by
    cases h.stem_eq (.builtin hs) (.declared .typedef nm) hm hn ht
  tag k hk nm nm' w v hm hn ht := by
    have same : k.type nm = Kind.typedef.type nm' := by
      apply h.stem_eq (.declared k nm) (.declared .typedef nm') hm hn
      rw [text_type, text_type]
      exact ht
    cases k with
    | typedef => exact hk rfl
    | _ => cases same
  kind k nm nm' w v hm hn ht := by
    have same : k.type nm = k.type nm' := by
      apply h.stem_eq (.declared k nm) (.declared k nm') hm hn
      rw [text_type, text_type, String.append_assoc, String.append_assoc, ht]
    cases k <;> cases same <;> rfl
  inst m args x w v hx hm hn ht := (h.stem_eq (.inst m args) hx hm hn ht).symm

/-- `typedef int BOOL`. -/
def boolTypedef : Elem := Elem.typedef "BOOL"

/-- `typedef int BOOL; BOOL flag;`, the same in both versions. -/
def boolFlag : Run where
  env := { incompleteOld := fun _ => none, incompleteNew := fun _ => none,
           xformGenerics := fun _ => [] }
  results := [.var boolTypedef.typ boolTypedef.typ,
    .type boolTypedef boolTypedef (.typedef (.int .int) (.int .int))]
  visits := [[⟨"", .name boolTypedef.typeMacro, ""⟩], [⟨"", .name IKind.int.typeMacro, ""⟩]]
  requests := [.deref boolTypedef.typeMacro trivial 0, .elem boolTypedef boolTypedef,
    .deref IKind.int.typeMacro IKind.int.rendered_typeMacro 0]
  asked := by
    refine requesting_ok.mpr fun g => ⟨_, rfl, ?_⟩
    change ((g.macrotypes ++ [_]) ++ [_]).map Macro.text = _
    rw [List.append_assoc, List.map_append]
    rfl

end Run

end CStrider.Gen
