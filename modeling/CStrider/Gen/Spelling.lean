import CStrider.Gen.Walk
import Mathlib.Data.List.Induction

/-!
# How the names of runtime types are spelled

A name is a stem and any number of `_PTR` and `_OUT` behind it. The stem is a built-in type, a
generic instance, or a name that the program declares, behind a lead for its kind. The leads keep
tags and generic parameters apart from each other and from the built-in types, but typedefs have
nothing between `TYPE_` and their name, and any declared name may look as if it had endings.
-/

namespace CStrider.Gen

/-! ## Endings -/

inductive Ending where
  | ptr
  | out
  deriving DecidableEq

def Ending.text : Ending → String
  | .ptr => "_PTR"
  | .out => "_OUT"

def endText : List Ending → String
  | [] => ""
  | e :: w => e.text ++ endText w

def Macro.ends (m : Macro) : List Ending → Macro
  | [] => m
  | .ptr :: w => m.ptr.ends w
  | .out :: w => m.out.ends w

/-- The name without its endings. -/
def Macro.bare : Macro → Macro
  | .ptr m | .out m => m.bare
  | m => m

/-! ## Stems -/

/-- The kinds of names that a program declares; a `param` is the parameter of a generic type. -/
inductive Kind where
  | typedef | struct | union | enum | param
  deriving DecidableEq

def Kind.lead : Kind → String
  | .typedef => "TYPE_"
  | .struct => "TYPE_STRUCT_"
  | .union => "TYPE_UNION_"
  | .enum => "TYPE_ENUM_"
  | .param => "gen_"

/-- The type that is declared as `nm`. -/
def Kind.type (nm : String) : Kind → Macro
  | .typedef => .lit (.elem (.typedef nm))
  | .struct => .lit (.elem (.struct nm))
  | .union => .lit (.elem (.union nm))
  | .enum => .lit (.elem (.enum nm))
  | .param => .genArg nm

inductive Stem : Macro → Prop
  | builtin {s : String} : s ∈ builtinTexts → Stem (.lit s)
  | declared (k : Kind) (nm : String) : Stem (k.type nm)
  | inst (m : Macro) (args : List Macro) : Stem (.ofArgs m args)
  | notImplemented : Stem .notImplemented

/-- `m` is a stem with endings. -/
def Stemmed (m : Macro) : Prop := ∃ x w, Stem x ∧ m = x.ends w

section

variable {m x y : Macro} {v w : List Ending} {k l : Kind} {nm s t : String}

theorem ends_append : m.ends (w ++ v) = (m.ends w).ends v := by
  induction w generalizing m with
  | nil => rfl
  | cons e w ih => cases e <;> exact ih

theorem text_ends : (m.ends w).text = m.text ++ endText w := by
  induction w generalizing m with
  | nil => exact String.append_empty.symm
  | cons e w ih =>
    cases e <;> rw [Macro.ends, ih, endText, Ending.text, Macro.text, String.append_assoc]

theorem bare_ends : (m.ends w).bare = m.bare := by
  induction w generalizing m with
  | nil => rfl
  | cons e w ih => cases e <;> exact ih

theorem Stem.bare_eq (h : Stem x) : x.bare = x := by
  cases h with
  | declared k => cases k <;> rfl
  | _ => rfl

/-- A name is put together in one way only. -/
theorem Stem.eq_of_ends (hx : Stem x) (hy : Stem y) (h : x.ends w = y.ends v) : x = y := by
  rw [← hx.bare_eq, ← bare_ends (w := w), h, bare_ends, hy.bare_eq]

theorem text_type : (k.type nm).text = k.lead ++ nm := by cases k <;> rfl

theorem Stem.stemmed (h : Stem m) : Stemmed m := ⟨m, [], h, rfl⟩

theorem Stemmed.ptr (h : Stemmed m) : Stemmed m.ptr := by
  obtain ⟨x, w, hx, rfl⟩ := h
  refine ⟨x, w ++ [.ptr], hx, ?_⟩
  rw [ends_append]
  rfl

theorem Stemmed.out (h : Stemmed m) : Stemmed m.out := by
  obtain ⟨x, w, hx, rfl⟩ := h
  refine ⟨x, w ++ [.out], hx, ?_⟩
  rw [ends_append]
  rfl

theorem stemmed_typeMacro (e : Elem) : Stemmed e.typeMacro := by
  cases e with
  | typedef nm => exact (Stem.declared .typedef nm).stemmed
  | struct nm => exact (Stem.declared .struct nm).stemmed
  | union nm => exact (Stem.declared .union nm).stemmed
  | enum nm => exact (Stem.declared .enum nm).stemmed

/-- `append_deref` leaves a name with `->` alone. -/
theorem Macro.Rendered.stemmed (h : m.Rendered) (arrow : m.hasArrow = false) : Stemmed m := by
  induction m using Macro.bare.induct with
  | case1 m ih => exact (ih h arrow).ptr
  | case2 m ih => exact h.elim
  | case3 m ptr out =>
    cases m with
    | lit s =>
      cases s with
      | builtin s => exact (Stem.builtin h).stemmed
      | elem e => exact stemmed_typeMacro e
    | ptr m => exact absurd rfl (ptr m)
    | out m => exact absurd rfl (out m)
    | ofArgs m args => exact (Stem.inst m args).stemmed
    | genArg g => exact (Stem.declared .param g).stemmed
    | genArgType g => cases arrow
    | notImplemented => exact Stem.notImplemented.stemmed

/-! ## Texts -/

/-- One of the two texts is a beginning of the other. -/
def Alike (s t : String) : Prop := s.toList <+: t.toList ∨ t.toList <+: s.toList

instance : Decidable (Alike s t) := inferInstanceAs (Decidable (_ ∨ _))

theorem beginning (s s' : String) : s.toList <+: (s ++ s').toList := by
  rw [String.toList_append]
  exact List.prefix_append _ _

theorem alike_of_append {s' t' : String} (h : s ++ s' = t ++ t') : Alike s t :=
  List.prefix_or_prefix_of_prefix (h ▸ beginning s s') (beginning t t')

theorem endText_injective (h : endText w = endText v) : w = v := by
  have starts (e : Ending) (w : List Ending) : endText (e :: w) ≠ "" := by
    rw [endText, ne_eq, String.append_eq_empty_iff]
    rintro ⟨h, -⟩
    exact absurd h (by cases e <;> decide)
  have apart : ∀ e f : Ending, Alike e.text f.text → e = f := by
    rintro (_ | _) (_ | _) <;> decide
  induction w generalizing v with
  | nil =>
    cases v with
    | nil => rfl
    | cons f v => exact absurd h.symm (starts f v)
  | cons e w ih =>
    cases v with
    | nil => exact absurd h (starts e w)
    | cons f v =>
      obtain rfl : e = f := apart e f (alike_of_append h)
      rw [ih ((String.append_right_inj e.text).mp h)]

theorem endText_concat (w : List Ending) (e : Ending) :
    endText (w ++ [e]) = endText w ++ e.text := by
  induction w with
  | nil => cases e <;> rfl
  | cons f w ih => rw [List.cons_append, endText, ih, endText, String.append_assoc]

theorem append_ending_inj {e f : Ending} (h : s ++ e.text = t ++ f.text) : s = t ∧ e = f := by
  have len (e : Ending) : e.text.toList.length = 4 := by cases e <;> rfl
  have lists := congrArg String.toList h
  rw [String.toList_append, String.toList_append] at lists
  obtain ⟨same, ending⟩ := List.append_inj' lists (by rw [len, len])
  refine ⟨String.toList_inj.mp same, ?_⟩
  revert ending
  cases e <;> cases f <;> decide

/-- No built-in type is another one with endings: `TYPE_OPAQUE` is none. -/
theorem endings_eq_nil (hs : s ∈ builtinTexts) (ht : t ∈ builtinTexts) (h : s = t ++ endText w) :
    w = [] := by
  have ended : ∀ s ∈ builtinTexts, ∀ e : Ending, e.text.toList <:+ s.toList →
      s = "TYPE_OPAQUE" ++ "_PTR" ∧ e = .ptr := by
    rintro s hs (_ | _) <;> revert s <;> decide +kernel
  have final (t : String) (e : Ending) : e.text.toList <:+ (t ++ e.text).toList := by
    rw [String.toList_append]
    exact List.suffix_append _ _
  induction w using List.reverseRecOn with
  | nil => rfl
  | append_singleton w e =>
    rw [endText_concat, ← String.append_assoc] at h
    obtain ⟨eq, rfl⟩ := ended s hs e (h ▸ final _ e)
    have rest : t ++ endText w = "TYPE_OPAQUE" :=
      (append_ending_inj (f := .ptr) (h.symm.trans eq)).1
    induction w using List.reverseRecOn with
    | nil =>
      rw [endText, String.append_empty] at rest
      exact absurd (rest ▸ ht) (by decide)
    | append_singleton w f =>
      rw [endText_concat, ← String.append_assoc] at rest
      have unended : ¬ f.text.toList <:+ "TYPE_OPAQUE".toList := by cases f <;> decide
      exact absurd (rest ▸ final _ f) unended

/-- Behind a built-in type no ending makes another one. -/
theorem eq_of_builtin (hs : s ∈ builtinTexts) (ht : t ∈ builtinTexts)
    (h : s ++ endText w = t ++ endText v) : s = t := by
  induction w using List.reverseRecOn generalizing v with
  | nil =>
    rw [endText, String.append_empty] at h
    rw [endings_eq_nil hs ht h, endText, String.append_empty] at h
    exact h
  | append_singleton w e ih =>
    induction v using List.reverseRecOn with
    | nil =>
      rw [endText, String.append_empty] at h
      rw [endings_eq_nil ht hs h.symm, endText, String.append_empty] at h
      exact h
    | append_singleton v f =>
      rw [endText_concat, endText_concat, ← String.append_assoc, ← String.append_assoc] at h
      exact ih (append_ending_inj h).1

/-- No built-in type begins as a tag or a parameter does. -/
theorem builtin_ne_type (hs : s ∈ builtinTexts) (hk : k ≠ .typedef) :
    (Macro.lit s).text ++ endText w ≠ (k.type nm).text ++ endText v := by
  have unlike : ∀ s ∈ builtinTexts, ∀ k ≠ Kind.typedef, ¬ Alike s k.lead := by
    intro s hs k hk
    cases k with
    | typedef => exact absurd rfl hk
    | _ => revert s; decide +kernel
  intro h
  rw [text_type, String.append_assoc] at h
  exact unlike s hs k hk (alike_of_append h)

/-- Only a typedef may begin as a name of another kind. -/
theorem kind_eq_of_text (hk : k ≠ .typedef) (hl : l ≠ .typedef) {nm' : String}
    (h : (k.type nm).text ++ endText w = (l.type nm').text ++ endText v) : k = l := by
  have unlike : ∀ k l : Kind, k ≠ .typedef → l ≠ .typedef → Alike k.lead l.lead → k = l := by
    intro k l
    cases k <;> cases l <;> decide
  rw [text_type, text_type, String.append_assoc, String.append_assoc] at h
  exact unlike k l hk hl (alike_of_append h)

theorem notImplemented_ne_builtin (hs : s ∈ builtinTexts) :
    (Macro.lit s).text ++ endText w ≠ Macro.notImplemented.text ++ endText v := by
  have unlike : ∀ s ∈ builtinTexts, ¬ Alike s "NOT IMPLEMENTED" := by decide +kernel
  exact fun h => unlike s hs (alike_of_append h)

theorem notImplemented_ne_type :
    (k.type nm).text ++ endText w ≠ Macro.notImplemented.text ++ endText v := by
  have unlike : ¬ Alike k.lead "NOT IMPLEMENTED" := by cases k <;> decide
  intro h
  rw [text_type, String.append_assoc] at h
  exact unlike (alike_of_append h)

end

end CStrider.Gen
