import CStrider.Text.Mappings

/-!
# The notation of generic annotations

`Descriptor` and `Mappings` are the descriptors of an annotation as they are written, with the
blanks between their parts, `text` is what is written and `value` what it means.
-/

namespace CStrider.Text

open Gen

/-- What `trim` takes away. -/
structure Blanks where
  text : Str
  isBlank : ∀ c ∈ text, isSpace c = true

def Blanks.none : Blanks := ⟨[], fun _ h => absurd h List.not_mem_nil⟩

inductive Keyword where
  | struct | union | enum | typedef

def Keyword.text : Keyword → Str
  | .struct => "struct".toList
  | .union => "union".toList
  | .enum => "enum".toList
  | .typedef => "typedef".toList

def Keyword.type (nm : String) (genIn : List GenDesc) : Keyword → KtTyp
  | .struct => .struct nm genIn
  | .union => .union nm genIn
  | .enum => .enum nm
  | .typedef => .named nm genIn

/-- The name of a type. -/
inductive TypeName where
  | primitive (p : Str × KtTyp) (known : p ∈ primitives)
  | keyword (k : Keyword) (blanks : Blanks) (nm : CIdentifier)
  | bare (nm : CIdentifier) (notKnown : primitives.lookup nm.text = none)

namespace TypeName

def text : TypeName → Str
  | primitive p _ => p.1
  | keyword k blanks nm => k.text ++ ' ' :: blanks.text ++ nm.text
  | bare nm _ => nm.text

def type (genIn : List GenDesc) : TypeName → KtTyp
  | primitive p _ => p.2
  | keyword k _ nm => k.type (String.ofList nm.text) genIn
  | bare nm _ => .named (String.ofList nm.text) genIn

/-- Primitive types and enumerations have no arguments. -/
def TakesArgs : TypeName → Prop
  | primitive _ _ => False
  | keyword .enum _ _ => False
  | _ => True

end TypeName

mutual

inductive Descriptor where
  /-- `@name` -/
  | generic (nm : CIdentifier)
  /-- `[opaque]` -/
  | ptrOpaque
  | name (main : TypeName)
  /-- `main<args>` -/
  | applied (main : TypeName) (takesArgs : main.TakesArgs) (blanks : Blanks) (args : Mappings)
  /-- `d*` -/
  | star (d : Descriptor) (blanks : Blanks)

/-- A list of descriptors, which is not empty. -/
inductive Mappings where
  | last (before : Blanks) (d : Descriptor) (after : Blanks)
  | cons (before : Blanks) (d : Descriptor) (after : Blanks) (rest : Mappings)

end

mutual

def Descriptor.text : Descriptor → Str
  | .generic nm => '@' :: nm.text
  | .ptrOpaque => "[opaque]".toList
  | .name main => main.text
  | .applied main _ blanks args => main.text ++ blanks.text ++ '<' :: args.text ++ ['>']
  | .star d blanks => d.text ++ blanks.text ++ ['*']

def Mappings.text : Mappings → Str
  | .last before d after => before.text ++ d.text ++ after.text
  | .cons before d after rest => before.text ++ d.text ++ after.text ++ ',' :: rest.text

end

mutual

def Descriptor.value : Descriptor → GenDesc
  | .generic nm => .otherGenericBinding (String.ofList nm.text)
  | .ptrOpaque => .programType (.ptrOpaque (.void none))
  | .name main => .programType (main.type [])
  | .applied main _ _ args => .programType (main.type args.value)
  | .star d _ => .ptrTo d.value

def Mappings.value : Mappings → List GenDesc
  | .last _ d _ => [d.value]
  | .cons _ d _ rest => d.value :: rest.value

end

/-! ## Trimming -/

/-- Neither end of `t` is a blank. -/
structure Solid (t : Str) : Prop where
  head : ∃ c s, t = c :: s ∧ isSpace c = false
  last : ∃ s c, t = s ++ [c] ∧ isSpace c = false

theorem trim_of_solid {t : Str} (h : Solid t) (before after : Blanks) :
    trim (before.text ++ t ++ after.text) = t := by
  have hfront : (before.text ++ t ++ after.text).dropWhile isSpace = t ++ after.text := by
    obtain ⟨c, s, rfl, hc⟩ := h.head
    rw [List.append_assoc, List.dropWhile_append_of_pos before.isBlank, List.cons_append,
      List.dropWhile_cons_of_neg (by rw [hc]; decide)]
  rw [trim, hfront]
  obtain ⟨s, c, rfl, hc⟩ := h.last
  have hafter : ∀ c ∈ after.text.reverse, isSpace c = true :=
    fun c hc => after.isBlank c (List.mem_reverse.mp hc)
  rw [List.rdropWhile, List.reverse_append, List.dropWhile_append_of_pos hafter,
    List.reverse_concat, List.dropWhile_cons_of_neg (by rw [hc]; decide), ← List.reverse_concat,
    List.reverse_reverse]

theorem isSpace_of_isIdentChar {c : Char} (h : isIdentChar c = true) : isSpace c = false := by
  rw [isSpace]
  simp only [Bool.or_eq_false_iff, decide_eq_false_iff_not]
  refine ⟨⟨?_, ?_⟩, ?_⟩ <;> (rintro rfl; exact absurd h (by decide))

/-! ## Words -/

/-- What the name of a type consists of. -/
structure IsWord (t : Str) : Prop where
  head : t.head?.any isIdentChar = true
  last : t.getLast?.any isIdentChar = true
  chars : t.all (fun c => isIdentChar c || isSpace c) = true

theorem isWord_primitive {p : Str × KtTyp} (h : p ∈ primitives) : IsWord p.1 where
  head := (by decide : ∀ p ∈ primitives, p.1.head?.any isIdentChar = true) p h
  last := (by decide : ∀ p ∈ primitives, p.1.getLast?.any isIdentChar = true) p h
  chars := (by decide : ∀ p ∈ primitives, p.1.all (fun c => isIdentChar c || isSpace c) = true) p h

theorem isWord_keyword (k : Keyword) : IsWord k.text := by
  cases k <;> exact ⟨by decide, by decide, by decide⟩

theorem isWord_identifier (nm : CIdentifier) : IsWord nm.text where
  head := nm.isIdentChar_of_mem List.mem_cons_self
  last := by
    rw [List.getLast?_eq_some_getLast nm.text_ne_nil]
    exact nm.isIdentChar_of_mem (List.getLast_mem nm.text_ne_nil)
  chars := List.all_eq_true.mpr fun c hc => by rw [nm.isIdentChar_of_mem hc, Bool.true_or]

namespace IsWord

variable {t u : Str}

theorem ne_nil (h : IsWord t) : t ≠ [] := by
  rintro rfl
  cases h.head

theorem append (ht : IsWord t) (blanks : Blanks) (hu : IsWord u) :
    IsWord (t ++ ' ' :: blanks.text ++ u) where
  head := by
    rw [List.append_assoc, List.head?_append_of_ne_nil _ ht.ne_nil]
    exact ht.head
  last := by
    rw [List.getLast?_append_of_ne_nil _ hu.ne_nil]
    exact hu.last
  chars := by
    rw [List.all_append, List.all_append, List.all_cons, ht.chars, hu.chars, Bool.true_and,
      Bool.and_true]
    exact List.all_eq_true.mpr fun c hc => by rw [blanks.isBlank c hc, Bool.or_true]

theorem solid (h : IsWord t) : Solid t := by
  obtain ⟨c, hc, hident⟩ := (Option.any_eq_true _ _).mp h.head
  obtain ⟨c', hc', hident'⟩ := (Option.any_eq_true _ _).mp h.last
  exact ⟨⟨c, t.tail, List.eq_cons_of_mem_head? hc, isSpace_of_isIdentChar hident⟩,
    ⟨t.dropLast, c', (List.dropLast_append_getLast? c' hc').symm, isSpace_of_isIdentChar hident'⟩⟩

/-- A word has no brackets and no commas. -/
theorem notMem (h : IsWord t) {c : Char} (hident : isIdentChar c = false)
    (hspace : isSpace c = false) : c ∉ t := by
  intro hc
  have hchar := List.all_eq_true.mp h.chars c hc
  rw [hident, hspace] at hchar
  cases hchar

end IsWord

theorem TypeName.isWord (main : TypeName) : IsWord main.text := by
  cases main with
  | primitive p known => exact isWord_primitive known
  | keyword k blanks nm => exact (isWord_keyword k).append blanks (isWord_identifier nm)
  | bare nm notKnown => exact isWord_identifier nm

/-! ## Names of types -/

theorem lookup_primitive {p : Str × KtTyp} (h : p ∈ primitives) :
    primitives.lookup p.1 = some p.2 := by
  simp only [primitives, List.mem_cons, List.not_mem_nil, or_false] at h
  rcases h with rfl | rfl | rfl | rfl | rfl | rfl | rfl | rfl | rfl | rfl | rfl | rfl | rfl | rfl |
    rfl <;> rfl

theorem lookup_keyword (k : Keyword) (u : Str) : primitives.lookup (k.text ++ ' ' :: u) = none := by
  have hnot : ∀ p ∈ primitives, (k.text ++ [' ']).isPrefixOf p.1 = false := by cases k <;> decide
  refine List.lookup_eq_none_iff.mpr fun p hp => bne_iff_ne.mpr ?_
  intro heq
  have hstarts : (k.text ++ [' ']).isPrefixOf p.1 = true :=
    List.isPrefixOf_iff_prefix.mpr ⟨u, by rw [← heq, List.append_assoc, List.singleton_append]⟩
  exact Bool.false_ne_true ((hnot p hp).symm.trans hstarts)

theorem startsWith_keyword (k : Keyword) {u : Str} (hu : u ≠ []) :
    stringStartsWith (k.text ++ ' ' :: u) (k.text ++ [' ']) = true := by
  have hpos := List.length_pos_of_ne_nil hu
  rw [stringStartsWith, Bool.and_eq_true, decide_eq_true_iff, List.isPrefixOf_iff_prefix]
  constructor
  · simp only [List.length_append, List.length_cons, List.length_nil]
    omega
  · exact ⟨u, by rw [List.append_assoc, List.singleton_append]⟩

theorem startsWith_other {k k' : Keyword} (h : k ≠ k') (u : Str) :
    stringStartsWith (k.text ++ ' ' :: u) (k'.text ++ [' ']) = false := by
  rw [stringStartsWith, Bool.and_eq_false_iff]
  refine .inr ?_
  cases k <;> cases k' <;> first | exact absurd rfl h | rfl

/-- A word of its own does not start with a keyword. -/
theorem startsWith_of_notMem (k : Keyword) {s : Str} (h : ' ' ∉ s) :
    stringStartsWith s (k.text ++ [' ']) = false := by
  have hnot : (k.text ++ [' ']).isPrefixOf s = false := by
    refine Bool.eq_false_iff.mpr fun hstarts => h ?_
    have hsub := (List.isPrefixOf_iff_prefix.mp hstarts).subset
    exact hsub (List.mem_append_right _ List.mem_cons_self)
  rw [stringStartsWith, hnot, Bool.and_false]

theorem bindingType_of_notKnown {s : Str} (genargs : List GenDesc)
    (h : primitives.lookup s = none) :
    bindingType s genargs =
      if stringStartsWith s (Keyword.struct.text ++ [' ']) then
        .struct (String.ofList (trim (stringRemovePrefix s (Keyword.struct.text ++ [' '])))) genargs
      else if stringStartsWith s (Keyword.union.text ++ [' ']) then
        .union (String.ofList (trim (stringRemovePrefix s (Keyword.union.text ++ [' '])))) genargs
      else if stringStartsWith s (Keyword.enum.text ++ [' ']) then
        .enum (String.ofList (trim (stringRemovePrefix s (Keyword.enum.text ++ [' ']))))
      else if stringStartsWith s (Keyword.typedef.text ++ [' ']) then
        .named (String.ofList (trim (stringRemovePrefix s (Keyword.typedef.text ++ [' '])))) genargs
      else
        .named (String.ofList s) genargs := by
  rw [bindingType, h]
  rfl

theorem removePrefix_keyword (k : Keyword) (u : Str) :
    stringRemovePrefix (k.text ++ ' ' :: u) (k.text ++ [' ']) = u := by
  rw [stringRemovePrefix, List.append_cons k.text ' ' u, List.drop_left]

theorem bindingType_keyword (k : Keyword) {u : Str} (hu : u ≠ []) (genargs : List GenDesc) :
    bindingType (k.text ++ ' ' :: u) genargs = k.type (String.ofList (trim u)) genargs := by
  rw [bindingType_of_notKnown genargs (lookup_keyword k u)]
  cases k <;>
    simp [startsWith_keyword _ hu, startsWith_other, removePrefix_keyword, Keyword.type]

theorem bindingType_text (main : TypeName) (genargs : List GenDesc) :
    bindingType main.text genargs = main.type genargs := by
  cases main with
  | primitive p known =>
    rw [TypeName.text, bindingType, lookup_primitive known]
    rfl
  | keyword k blanks nm =>
    have hnm : trim (blanks.text ++ nm.text) = nm.text := by
      have h := trim_of_solid (isWord_identifier nm).solid blanks .none
      rwa [Blanks.none, List.append_nil] at h
    rw [TypeName.text, List.append_assoc, List.cons_append,
      bindingType_keyword k (List.append_ne_nil_of_right_ne_nil _ nm.text_ne_nil), hnm]
    rfl
  | bare nm notKnown =>
    have hblank : ' ' ∉ nm.text := nm.notMem_text (by decide)
    rw [TypeName.text, bindingType_of_notKnown genargs notKnown]
    simp only [startsWith_of_notMem _ hblank]
    rfl

theorem parseGenericBindingType_text (main : TypeName) {genargs : List GenDesc}
    (h : main.TakesArgs ∨ genargs = []) (error : String → Except String Unit) :
    parseGenericBindingType main.text genargs error = .ok (main.type genargs) := by
  have htrim : trim main.text = main.text := by
    have h := trim_of_solid main.isWord.solid .none .none
    rwa [Blanks.none, List.append_nil, List.nil_append] at h
  rw [parseGenericBindingType, htrim, bindingType_text]
  rcases h with htakes | rfl
  · match main, htakes with
    | .keyword .struct _ _, _ | .keyword .union _ _, _ | .keyword .typedef _ _, _ | .bare _ _, _ =>
      rfl
  · cases main.type [] <;> rfl

/-! ## Commas and brackets -/

theorem passes_word {t : Str} (h : IsWord t) : angleBrackets.Passes t := by
  refine Brackets.passes_of_plain fun c hc => ⟨?_, ?_, ?_⟩ <;> rintro rfl
  · exact h.notMem (by decide) (by decide) hc
  · exact h.notMem (by decide) (by decide) hc
  · exact h.notMem (by decide) (by decide) hc

theorem passes_blanks (blanks : Blanks) : angleBrackets.Passes blanks.text :=
  Brackets.passes_of_plain fun _ hc => by
    have hspace := blanks.isBlank _ hc
    refine ⟨?_, ?_, ?_⟩ <;> (rintro rfl; exact absurd hspace (by decide))

/-- One character that is neither a bracket nor a comma. -/
theorem passes_char {c : Char} (h : c ≠ '<' ∧ c ≠ '>' ∧ c ≠ ',') : angleBrackets.Passes [c] :=
  Brackets.passes_of_plain fun _ hc => List.mem_singleton.mp hc ▸ h

mutual

/-- No comma and no bracket of a nested level is seen from outside. -/
theorem Descriptor.passes : ∀ d : Descriptor, angleBrackets.Passes d.text
  | .generic nm => (passes_char (c := '@') (by decide)).append (passes_word (isWord_identifier nm))
  | .ptrOpaque => by
    have hword : IsWord "opaque".toList := ⟨by decide, by decide, by decide⟩
    have h := (passes_char (c := '[') (by decide)).append (passes_word hword)
    exact h.append (passes_char (c := ']') (by decide))
  | .name main => passes_word main.isWord
  | .applied main _ blanks args => by
    have hargs : angleBrackets.Passes ('<' :: args.text ++ ['>']) := args.passesInside.enclosed
    have h := ((passes_word main.isWord).append (passes_blanks blanks)).append hargs
    rwa [List.cons_append, ← List.cons_append, ← List.append_assoc] at h
  | .star d blanks => (d.passes.append (passes_blanks blanks)).append (passes_char (by decide))

theorem Mappings.passesInside : ∀ ds : Mappings, angleBrackets.PassesInside ds.text
  | .last before d after =>
    (((passes_blanks before).append d.passes).append (passes_blanks after)).inside
  | .cons before d after rest => by
    have hd := (((passes_blanks before).append d.passes).append (passes_blanks after)).inside
    have hrest := Brackets.passesInside_sep.append rest.passesInside
    exact hd.append hrest

end

/-- The pieces between the commas of an annotation. -/
def Mappings.items : Mappings → List Str
  | .last before d after => [before.text ++ d.text ++ after.text]
  | .cons before d after rest => (before.text ++ d.text ++ after.text) :: rest.items

theorem splitOutside_text :
    ∀ ds : Mappings, angleBrackets.splitOutside [] 0 ds.text = some ds.items
  | .last before d after => Brackets.splitOutside_of_passes
      (((passes_blanks before).append d.passes).append (passes_blanks after))
  | .cons before d after rest => by
    have hd := ((passes_blanks before).append d.passes).append (passes_blanks after)
    have h := Brackets.splitOutside_append (s := rest.text) hd
    rw [splitOutside_text rest] at h
    exact h

theorem commaSplit_text (ds : Mappings) : commaSplit ds.text = .ok ds.items := by
  rw [commaSplit, splitOutside_text]

/-! ## The way back -/

theorem solid_append {t u v : Str} (ht : Solid t) (hv : Solid v) : Solid (t ++ u ++ v) := by
  obtain ⟨c, s, rfl, hc⟩ := ht.head
  obtain ⟨s', c', rfl, hc'⟩ := hv.last
  exact ⟨⟨c, s ++ u ++ (s' ++ [c']), by simp only [List.cons_append], hc⟩,
    ⟨c :: s ++ u ++ s', c', by simp only [List.append_assoc], hc'⟩⟩

theorem solid_char {c : Char} (h : isSpace c = false) : Solid [c] :=
  ⟨⟨c, [], rfl, h⟩, ⟨[], c, rfl, h⟩⟩

theorem Descriptor.solid : ∀ d : Descriptor, Solid d.text
  | .generic nm => by
    have h := solid_append (u := []) (solid_char (c := '@') (by decide))
      (isWord_identifier nm).solid
    rwa [List.append_nil] at h
  | .ptrOpaque => ⟨⟨_, _, rfl, by decide⟩, ⟨"[opaque".toList, ']', rfl, by decide⟩⟩
  | .name main => main.isWord.solid
  | .applied main _ blanks args => by
    have h := solid_append (u := blanks.text ++ '<' :: args.text) main.isWord.solid
      (solid_char (c := '>') (by decide))
    rwa [← List.append_assoc] at h
  | .star d blanks => solid_append d.solid (solid_char (by decide))

theorem parseTypeDesc_of_word {desc s t : Str} (h : trim desc = s ++ t) (ht : IsWord t) :
    parseTypeDesc desc =
      if (s ++ t).head? = some '@' then
        .ok (.otherGenericBinding (String.ofList (s ++ t).tail))
      else do
        return .programType (← parseGenericBindingType (s ++ t) [] bindingError) := by
  obtain ⟨c, hc, hident⟩ := (Option.any_eq_true _ _).mp ht.last
  have hlast : (trim desc).getLast? = some c := by
    rw [h, List.getLast?_append_of_ne_nil _ ht.ne_nil, hc]
  have hne : ∀ c', isIdentChar c' = false → c ≠ c' :=
    fun _ hc' heq => Bool.false_ne_true (hc'.symm.trans (heq ▸ hident))
  rw [parseTypeDesc_of_last hlast (hne _ (by decide)) (hne _ (by decide)) (hne _ (by decide)), h]

mutual

theorem parseTypeDesc_text : ∀ (d : Descriptor) (before after : Blanks),
    parseTypeDesc (before.text ++ d.text ++ after.text) = .ok d.value
  | .generic nm, before, after => by
    have htrim := trim_of_solid (Descriptor.generic nm).solid before after
    exact parseTypeDesc_of_word (s := ['@']) htrim (isWord_identifier nm)
  | .ptrOpaque, before, after =>
    parseTypeDesc_opaque (trim_of_solid Descriptor.ptrOpaque.solid before after)
  | .name main, before, after => by
    have htrim : trim (before.text ++ main.text ++ after.text) = [] ++ main.text :=
      trim_of_solid main.isWord.solid before after
    have hat : main.text.head? ≠ some '@' := by
      intro hat
      have hhead := main.isWord.head
      rw [hat] at hhead
      exact absurd hhead (by decide)
    show parseTypeDesc (before.text ++ main.text ++ after.text) = _
    rw [parseTypeDesc_of_word htrim main.isWord, List.nil_append, if_neg hat,
      parseGenericBindingType_text main (.inr rfl)]
    rfl
  | .applied main takesArgs blanks args, before, after => by
    have htrim := trim_of_solid (Descriptor.applied main takesArgs blanks args).solid before after
    have hmain : trim (main.text ++ blanks.text) = main.text :=
      trim_of_solid main.isWord.solid .none blanks
    have hangle : '<' ∉ main.text ++ blanks.text := by
      rw [List.mem_append, not_or]
      exact ⟨main.isWord.notMem (by decide) (by decide),
        fun h => absurd (blanks.isBlank _ h) (by decide)⟩
    rw [parseTypeDesc_args htrim hangle, hmain, parseMappings_eq (commaSplit_text args),
      mapM_items args]
    show (do return GenDesc.programType (← parseGenericBindingType _ args.value bindingError)) = _
    rw [parseGenericBindingType_text main (.inl takesArgs)]
    rfl
  | .star d blanks, before, after => by
    have htrim := trim_of_solid (Descriptor.star d blanks).solid before after
    have hd : parseTypeDesc (d.text ++ blanks.text) = .ok d.value :=
      parseTypeDesc_text d .none blanks
    rw [parseTypeDesc_star htrim, hd]
    rfl

theorem mapM_items : ∀ ds : Mappings, ds.items.mapM parseTypeDesc = .ok ds.value
  | .last before d after => by
    rw [Mappings.items, List.mapM_cons, parseTypeDesc_text d before after]
    rfl
  | .cons before d after rest => by
    rw [Mappings.items, List.mapM_cons, parseTypeDesc_text d before after, mapM_items rest]
    rfl

end

/-- The descriptors of an annotation are parsed back, whatever blanks they are written with. -/
theorem parseMappings_text (ds : Mappings) : parseMappings ds.text = .ok ds.value := by
  rw [parseMappings_eq (commaSplit_text ds), mapM_items ds]

end CStrider.Text
