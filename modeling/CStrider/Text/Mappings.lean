import CStrider.Gen.Kt
import CStrider.Lib.Nesting
import CStrider.Text.Identifiers
import Mathlib.Data.List.DropRight

/-!
# The parser of generic annotations (`cil/ciltoktt.ml`)

An annotation lists what the parameters of a generic type are bound to. `parseMappings` splits it at
the commas outside of angle brackets, and `parse_type_desc` takes a piece apart from its last
character: a star, the bracket that closes the arguments of a type, or the end of a name.
-/

namespace CStrider.Text

open Gen

/-! ## Strings (`common/kttools.ml`) -/

/-- `is_space` of `trim`. -/
def isSpace (c : Char) : Bool := c = ' ' || c = '\t' || c = '\n'

/-- `trim`. -/
def trim (s : Str) : Str := (s.dropWhile isSpace).rdropWhile isSpace

/-- `string_starts_with`, with a pattern that is shorter than the string. -/
def stringStartsWith (s pattern : Str) : Bool :=
  decide (pattern.length < s.length) && pattern.isPrefixOf s

/-- `string_remove_prefix`. -/
def stringRemovePrefix (s pre : Str) : Str := s.drop pre.length

/-! ## Types (`common/kttypes.ml`) -/

/-- The strings that `parseGenericBindingType` knows. -/
def primitives : List (Str × KtTyp) :=
  [("char".toList, .int .char),
    ("signed char".toList, .int .schar),
    ("unsigned char".toList, .int .uchar),
    ("_Bool".toList, .int .bool),
    ("int".toList, .int .int),
    ("unsigned int".toList, .int .uint),
    ("short".toList, .int .short),
    ("unsigned short".toList, .int .ushort),
    ("long".toList, .int .long),
    ("unsigned long".toList, .int .ulong),
    ("long long".toList, .int .longLong),
    ("unsigned long long".toList, .int .ulongLong),
    ("float".toList, .float .float),
    ("double".toList, .float .double),
    ("long double".toList, .float .longDouble)]

/-- `result` of `parseGenericBindingType`. -/
def bindingType (s : Str) (genargs : List GenDesc) : KtTyp :=
  match primitives.lookup s with
  | some t => t
  | none =>
    if stringStartsWith s "struct ".toList then
      .struct (String.ofList (trim (stringRemovePrefix s "struct ".toList))) genargs
    else if stringStartsWith s "union ".toList then
      .union (String.ofList (trim (stringRemovePrefix s "union ".toList))) genargs
    else if stringStartsWith s "enum ".toList then
      .enum (String.ofList (trim (stringRemovePrefix s "enum ".toList)))
    else if stringStartsWith s "typedef ".toList then
      .named (String.ofList (trim (stringRemovePrefix s "typedef ".toList))) genargs
    else
      .named (String.ofList s) genargs

/-- `parseGenericBindingType`. -/
def parseGenericBindingType (s : Str) (genargs : List GenDesc)
    (error : String → Except String Unit) : Except String KtTyp := do
  let result := bindingType (trim s) genargs
  match result with
  | .float _ | .int _ =>
    if ¬ genargs.isEmpty then error "Primitive types cannot accept generic arguments."
  | _ => pure ()
  pure result

/-! ## The parser -/

/-- `is_c_identifier`, which is still to be implemented. -/
def isCIdentifier (_ : Str) : Bool := true

/-- Commas in angle brackets. -/
def angleBrackets : Brackets Char where
  left := '<'
  right := '>'
  sep := ','
  left_ne_right := by decide
  left_ne_sep := by decide
  right_ne_sep := by decide

/-- `commaSplit` of `parseMappings`. -/
def commaSplit (s : Str) : Except String (List Str) :=
  match angleBrackets.splitOutside [] 0 s with
  | some items => .ok items
  | none => .error
    "unable to parse generic type annotation... unexpected right angle brace (>)"

theorem length_le_of_commaSplit {s item : Str} {items : List Str} (h : commaSplit s = .ok items)
    (hitem : item ∈ items) : item.length ≤ s.length := by
  rw [commaSplit] at h
  split at h
  · next hsplit =>
    obtain rfl := Except.ok.inj h
    have hlen := Brackets.length_le_of_splitOutside hsplit hitem
    rwa [List.length_nil, Nat.zero_add] at hlen
  · cases h

theorem length_trim_le (s : Str) : (trim s).length ≤ s.length :=
  (List.rdropWhile_prefix isSpace _).length_le.trans
    (List.dropWhile_suffix isSpace).length_le

/-- The callback of `parse_type_desc`. -/
def bindingError (s : String) : Except String Unit := .error ("Error: " ++ s)

mutual

/-- `parseMappings`. -/
def parseMappings (s : Str) : Except String (List GenDesc) :=
  match h : commaSplit s with
  | .error e => .error e
  | .ok items => items.attach.mapM fun item =>
    have := length_le_of_commaSplit h item.2
    parseTypeDesc item.1
termination_by 2 * s.length + 1

/-- `parse_type_desc`. -/
def parseTypeDesc (desc : Str) : Except String GenDesc :=
  have := length_trim_le desc
  if hnil : trim desc = [] then
    .error "index out of bounds"
  else
    have := List.length_pos_of_ne_nil hnil
    if (trim desc).getLast? = some '*' then do
      return .ptrTo (← parseTypeDesc (trim desc).dropLast)
    else if (trim desc).getLast? = some '>' then
      match (trim desc).idxOf? '<' with
      | none => .error "unable to parse generic type annotation... missing left angle brace (<)"
      | some langleIndex =>
        let mainT := trim ((trim desc).take langleIndex)
        if !isCIdentifier mainT then
          .error ("unable to parse generic type annotation... expected type name (" ++
            String.ofList mainT ++ ")")
        else do
          let genArgs ← parseMappings ((trim desc).drop (langleIndex + 1)).dropLast
          return .programType (← parseGenericBindingType mainT genArgs bindingError)
    else if (trim desc).getLast? = some ']' then
      if (trim desc).head? = some '[' then
        let annot := (trim desc).tail.dropLast
        if annot = "opaque".toList then
          .ok (.programType (.ptrOpaque (.void none)))
        else
          .error ("unrecognized annotation: " ++ String.ofList annot)
      else
        .error "unable to parse generic type mapping... missing left angle brace ([)"
    else if (trim desc).head? = some '@' then
      .ok (.otherGenericBinding (String.ofList (trim desc).tail))
    else do
      return .programType (← parseGenericBindingType (trim desc) [] bindingError)
termination_by 2 * desc.length
decreasing_by
  · rw [List.length_dropLast]
    omega
  · rw [List.length_dropLast, List.length_drop]
    omega

end

/-! ## What each ending means -/

theorem idxOf?_append {c : Char} {s t : Str} (h : c ∉ s) :
    (s ++ c :: t).idxOf? c = some s.length := by
  induction s with
  | nil => rw [List.nil_append, List.idxOf?_cons, if_pos (beq_self_eq_true c), List.length_nil]
  | cons c' s ih =>
    rw [List.mem_cons, not_or] at h
    rw [List.cons_append, List.idxOf?_cons, if_neg (by simpa using Ne.symm h.1), ih h.2,
      Option.map_some, List.length_cons]

section

variable {desc t main args : Str} {items : List Str}

theorem parseMappings_eq (h : commaSplit t = .ok items) :
    parseMappings t = items.mapM parseTypeDesc := by
  rw [parseMappings]
  split
  · next h' => cases h.symm.trans h'
  · next h' =>
    obtain rfl := Except.ok.inj (h.symm.trans h')
    exact (List.mapM_subtype fun _ _ => rfl).trans (by rw [List.unattach_attach])

theorem parseTypeDesc_star (h : trim desc = t ++ ['*']) :
    parseTypeDesc desc = (do return .ptrTo (← parseTypeDesc t)) := by
  have hlast : (trim desc).getLast? = some '*' := by rw [h, List.getLast?_concat]
  rw [parseTypeDesc, dif_neg (h ▸ List.concat_ne_nil '*' t), if_pos hlast, h, List.dropLast_concat]

theorem parseTypeDesc_args (h : trim desc = main ++ '<' :: args ++ ['>']) (hmain : '<' ∉ main) :
    parseTypeDesc desc = (do
      let genArgs ← parseMappings args
      return .programType (← parseGenericBindingType (trim main) genArgs bindingError)) := by
  have hlast : (trim desc).getLast? = some '>' := by rw [h, List.getLast?_concat]
  have hindex : (trim desc).idxOf? '<' = some main.length := by
    rw [h, List.append_assoc, List.cons_append, idxOf?_append hmain]
  have hmainT : (trim desc).take main.length = main := by
    rw [h, List.append_assoc, List.take_left]
  have hargs : ((trim desc).drop (main.length + 1)).dropLast = args := by
    rw [h, List.append_assoc, List.drop_append, List.cons_append]
    simp
  rw [parseTypeDesc, dif_neg (h ▸ List.concat_ne_nil '>' _), hlast, if_neg (by decide),
    if_pos rfl, hindex]
  dsimp only
  rw [hmainT, hargs]
  rfl

theorem parseTypeDesc_opaque (h : trim desc = "[opaque]".toList) :
    parseTypeDesc desc = .ok (.programType (.ptrOpaque (.void none))) := by
  rw [parseTypeDesc, dif_neg (h ▸ by decide)]
  simp only [h]
  rfl

/-- The end of a name. -/
theorem parseTypeDesc_of_last {c : Char} (h : (trim desc).getLast? = some c) (hstar : c ≠ '*')
    (hangle : c ≠ '>') (hsquare : c ≠ ']') :
    parseTypeDesc desc =
      if (trim desc).head? = some '@' then
        .ok (.otherGenericBinding (String.ofList (trim desc).tail))
      else do
        return .programType (← parseGenericBindingType (trim desc) [] bindingError) := by
  have hnil : trim desc ≠ [] := by
    intro hnil
    rw [hnil] at h
    cases h
  rw [parseTypeDesc, dif_neg hnil, h, if_neg (fun h => hstar (Option.some.inj h)),
    if_neg (fun h => hangle (Option.some.inj h)), if_neg (fun h => hsquare (Option.some.inj h))]

end

end CStrider.Text
