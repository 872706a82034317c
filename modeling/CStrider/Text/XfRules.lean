import CStrider.Text.XfParser

/-!
# Files of transformation rules (`tools/xflang.ml`)

`parseXFRules` reads the rules that the programmer gives. Which rules some file has is a matter of
the names in their paths and of the braces in their code (`accepted_iff`). The tools print a path
with a dot between its elements, and the lexer takes dots into a name without a keyword; so what
they print is read back where only the last element of a path has such a name
(`parse_printRules`).
-/

namespace CStrider.Text

open Comparison (XfElem XfRule Path)
open Lexing (Ends ends_cons)

/-! ## Reading and printing -/

/-- `parseXFRules`, given what is in the file. -/
def parseXFRules : Option Str → Except String (Option String × List XfRule)
  | none => .ok (none, [])
  | some s =>
    match main (tokens .XFCode s).1 with
    | .ok v => .ok v
    | .error .parseError => .error "Parsing.Parse_error"
    | .error .lexer => .error ((tokens .XFCode s).2.getD "")
    | .error (.failure e) => .error e

def printPathElem : XfElem → String
  | .struct s => "struct " ++ s
  | .union s => "union " ++ s
  | .typedef s => "typedef " ++ s
  | .enum s => "enum " ++ s
  | .field s | .var s => s

def pathToString (p : Path) : String := ".".intercalate (p.map printPathElem).reverse

def ruleToString : XfRule → String
  | .xform fromPath toPath _ => pathToString fromPath ++ " -> " ++ pathToString toPath
  | .init toPath _ => "INIT " ++ pathToString toPath

/-! ## What can be written down -/

def FormedElem : XfElem → Prop
  | .struct s | .union s | .typedef s | .enum s => TypeWord s.toList
  | .field s | .var s => Key s.toList

/-- A path begins with a variable or with a type, and a variable is nowhere else. -/
inductive FormedPath : Path → Prop
  | root {e} : FormedElem e → (∀ s, e ≠ .field s) → FormedPath [e]
  | inner {e p} : FormedElem e → (∀ s, e ≠ .var s) → FormedPath p → FormedPath (e :: p)

def FormedRule : XfRule → Prop
  | .xform fromPath toPath code =>
    FormedPath fromPath ∧ FormedPath toPath ∧ ∀ c ∈ code, Balanced c.toList
  | .init toPath code => FormedPath toPath ∧ Balanced code.toList

/-- What a file of rules can say. -/
structure FormedFile (v : Option String × List XfRule) : Prop where
  preamble : ∀ c ∈ v.1, Balanced c.toList
  rules : ∀ r ∈ v.2, FormedRule r

/-! ## The tokens of paths -/

def elemToken : XfElem → Token
  | .struct s => .STRUCT s
  | .union s => .UNION s
  | .typedef s => .TYPEDEF s
  | .enum s => .ENUM s
  | .field s | .var s => .NAME s

/-- What may stand behind an element so that it ends there. -/
def Follows : XfElem → Str → Prop
  | .field _, s | .var _, s => Behind s
  | .struct _, s | .union _, s | .typedef _, s | .enum _, s => Ends typeChar s

variable {s dot : Str} {e : XfElem} {p f t : Path} {r : XfRule} {code : String}
  {v : Option String × List XfRule}

theorem Behind.follows (h : Behind s) : Follows e s := by
  have htype : Ends typeChar s := by
    intro c hc
    have hname := h.ends c hc
    simp only [nameChar, Bool.or_eq_false_iff] at hname
    exact hname.1.1.1.1
  cases e with
  | field | var => exact h
  | struct | union | typedef | enum => exact htype

theorem tokens_elem (he : FormedElem e) (hs : Follows e s) :
    tokens .XFCode ((printPathElem e).toList ++ s) =
      withToken (elemToken e) (tokens .XFCode s) := by
  have htype : ∀ {keyword : Str} {k : String → Token} {name : String},
      (keyword, k) ∈ typeKeywords → TypeWord name.toList → Ends typeChar s →
      tokens .XFCode ((String.ofList keyword ++ name).toList ++ s) =
        withToken (k name) (tokens .XFCode s) := by
    intro keyword k name hk hname hs
    rw [String.toList_append, String.toList_ofList, tokens_type hk hname hs, String.ofList_toList]
  have hname : ∀ {name : String}, Key name.toList → Behind s →
      tokens .XFCode (name.toList ++ s) = withToken (.NAME name) (tokens .XFCode s) := by
    intro name hk hs
    rw [tokens_name hk hs, String.ofList_toList]
  cases e with
  | struct name => exact htype (.head _) he hs
  | union name => exact htype (.tail _ (.head _)) he hs
  | typedef name => exact htype (.tail _ (.tail _ (.head _))) he hs
  | enum name => exact htype (.tail _ (.tail _ (.tail _ (.head _)))) he hs
  | field name => exact hname he hs
  | var name => exact hname he hs

/-- A path with the given separator. -/
def pathText (dot : Str) : Path → Str
  | [] => []
  | [e] => (printPathElem e).toList
  | e :: p => pathText dot p ++ (dot ++ (printPathElem e).toList)

def pathTokens : Path → List Token
  | [] => []
  | [e] => [elemToken e]
  | e :: p => pathTokens p ++ [.DOT, elemToken e]

theorem FormedPath.ne_nil (h : FormedPath p) : p ≠ [] := by
  cases h <;> exact List.cons_ne_nil _ _

theorem pathText_cons (hp : p ≠ []) :
    pathText dot (e :: p) = pathText dot p ++ (dot ++ (printPathElem e).toList) :=
  pathText.eq_3 dot e p hp

theorem pathTokens_cons (hp : p ≠ []) : pathTokens (e :: p) = pathTokens p ++ [.DOT, elemToken e] :=
  pathTokens.eq_3 e p hp

/-- The separator is read as a dot, and each element but the last ends in front of it. -/
structure Separates (dot : Str) (p : Path) : Prop where
  isDot (s : Str) : tokens .XFCode (dot ++ s) = withToken .DOT (tokens .XFCode s)
  ends (s : Str) : ∀ e ∈ p.tail, Follows e (dot ++ s)

theorem tokens_path (hp : FormedPath p) (hdot : Separates dot p)
    (hs : ∀ e ∈ p.head?, Follows e s) :
    tokens .XFCode (pathText dot p ++ s) = withTokens (pathTokens p) (tokens .XFCode s) := by
  induction hp generalizing s with
  | root he _ => exact tokens_elem he (hs _ rfl)
  | @inner e p he _ hp ih =>
    have hsep : Separates dot p :=
      ⟨hdot.isDot, fun s e' he' => hdot.ends s e' (List.mem_of_mem_tail he')⟩
    have hleaf : ∀ e' ∈ p.head?, Follows e' (dot ++ ((printPathElem e).toList ++ s)) :=
      fun e' he' => hdot.ends _ e' (List.mem_of_mem_head? he')
    rw [pathText_cons hp.ne_nil, pathTokens_cons hp.ne_nil, List.append_assoc, List.append_assoc,
      ih hsep hleaf, hdot.isDot, tokens_elem he (hs _ rfl), withTokens_append, withTokens_append,
      List.append_assoc]
    rfl

/-- `path` reads an element without knowing whether it is a variable. -/
def rawElem : XfElem → XfElem
  | .var s => .field s
  | e => e

theorem pathElem_elemToken (e : XfElem) : pathElem (elemToken e) = some (rawElem e) := by
  cases e <;> rfl

theorem isPath_pathTokens (hp : FormedPath p) : IsPath (pathTokens p) (p.map rawElem) := by
  induction hp with
  | root _ _ => exact .elem (pathElem_elemToken _)
  | @inner e p _ _ hp ih =>
    rw [pathTokens_cons hp.ne_nil]
    exact ih.dot (pathElem_elemToken e)

theorem fixPath_cons (hp : p ≠ []) : fixPath (e :: p) = e :: fixPath p := by
  obtain ⟨root, rest, hrev⟩ := List.exists_cons_of_ne_nil (mt List.reverse_eq_nil_iff.mp hp)
  rw [fixPath, fixPath, List.reverse_cons, hrev, List.cons_append]
  cases root <;> simp

theorem fixPath_rawElem (hp : FormedPath p) : fixPath (p.map rawElem) = p := by
  induction hp with
  | @root e _ hroot =>
    cases e with
    | field s => exact absurd rfl (hroot s)
    | var | struct | union | typedef | enum => rfl
  | @inner e p _ hinner hp ih =>
    have hraw : rawElem e = e := by
      cases e with
      | var s => exact absurd rfl (hinner s)
      | field | struct | union | typedef | enum => rfl
    rw [List.map_cons, fixPath_cons (by simpa using hp.ne_nil), ih, hraw]

/-! ## The tokens of rules -/

/-- The paths of a label. -/
def rulePaths : XfRule → List Path
  | .xform fromPath toPath _ => [fromPath, toPath]
  | .init toPath _ => [toPath]

def ruleCode : XfRule → Option String
  | .xform _ _ code => code
  | .init _ code => some code

def labelTokens : XfRule → List Token
  | .xform fromPath toPath _ => pathTokens fromPath ++ .XFORM :: pathTokens toPath
  | .init toPath _ => .INIT :: pathTokens toPath

/-- A block of code. -/
def blockTokens (c : String) : List Token := .STARTC :: (c.toList.map .CCHAR ++ [.ENDC])

/-- What stands behind a label. -/
def codeTokens : Option String → List Token
  | none => []
  | some c => .COLON :: blockTokens c

def rulesTokens : List XfRule → List Token
  | [] => [.EOF]
  | r :: rs => labelTokens r ++ codeTokens (ruleCode r) ++ rulesTokens rs

def fileTokens (v : Option String × List XfRule) : List Token :=
  (v.1.map blockTokens).getD [] ++ rulesTokens v.2

variable {rs : List XfRule}

theorem FormedRule.paths (h : FormedRule r) : ∀ p ∈ rulePaths r, FormedPath p := by
  cases r with
  | xform f t code =>
    intro p hp
    rcases List.mem_pair.mp hp with rfl | rfl
    · exact h.1
    · exact h.2.1
  | init t code =>
    intro p hp
    cases List.mem_singleton.mp hp
    exact h.1

theorem FormedRule.balanced (h : FormedRule r) : ∀ c ∈ ruleCode r, Balanced c.toList := by
  cases r with
  | xform f t code => exact h.2.2
  | init t code =>
    intro c hc
    cases hc
    exact h.2

theorem isLabel_labelTokens (h : FormedRule r) : IsLabel (labelTokens r) (rulePaths r) := by
  have hpath : ∀ p ∈ rulePaths r,
      IsPath (pathTokens p) (p.map rawElem) ∧ fixPath (p.map rawElem) = p :=
    fun p hp => ⟨isPath_pathTokens (h.paths p hp), fixPath_rawElem (h.paths p hp)⟩
  cases r with
  | xform f t code =>
    obtain ⟨⟨hf, hfix⟩, ⟨ht, htfix⟩⟩ := And.intro (hpath f (.head _)) (hpath t (.tail _ (.head _)))
    have hlabel := IsLabel.xform hf ht
    rwa [hfix, htfix] at hlabel
  | init t code =>
    obtain ⟨ht, htfix⟩ := hpath t (.head _)
    have hlabel := IsLabel.init ht
    rwa [htfix] at hlabel

theorem isBody_map (s : Str) : IsBody (s.map .CCHAR ++ [.ENDC]) s := by
  induction s with
  | nil => exact .endc
  | cons c s ih => exact ih.char

theorem isBlock_blockTokens (c : String) : IsBlock (blockTokens c) c := by
  have hblock := IsBlock.startc (isBody_map c.toList)
  rwa [String.ofList_toList] at hblock

theorem isDecl_tokens (h : FormedRule r) :
    IsDecl (labelTokens r ++ codeTokens (ruleCode r)) [r] := by
  have hmake : makeRule (ruleCode r) (rulePaths r) = .ok r := by cases r <;> rfl
  have hlabel := isLabel_labelTokens h
  cases hc : ruleCode r with
  | none =>
    rw [hc] at hmake
    rw [codeTokens, List.append_nil]
    exact .label hlabel hmake
  | some c =>
    rw [hc] at hmake
    rw [codeTokens, List.append_cons]
    refine .block (.colon hlabel) (isBlock_blockTokens c) ?_
    rw [List.mapM_cons, hmake]
    rfl

theorem isRules_rulesTokens (h : ∀ r ∈ rs, FormedRule r) : IsRules (rulesTokens rs) rs := by
  induction rs with
  | nil => exact .eof
  | cons r rs ih =>
    rw [List.forall_mem_cons] at h
    exact .decl (isDecl_tokens h.1) (ih h.2)

theorem isMain_fileTokens (hv : FormedFile v) : IsMain (fileTokens v) v := by
  obtain ⟨preamble, rs⟩ := v
  have hrules := isRules_rulesTokens hv.rules
  cases preamble with
  | none => exact .rules hrules
  | some c => exact .block (isBlock_blockTokens c) hrules

/-! ## Texts of rules -/

/-- A block of code, on lines of its own. -/
def blockText (c : String) : Str := '{' :: c.toList ++ ['}', '\n']

def codeText : Option String → Str
  | none => ['\n']
  | some c => ':' :: ' ' :: blockText c

def rulesText (label : XfRule → Str) : List XfRule → Str
  | [] => []
  | r :: rs => label r ++ codeText (ruleCode r) ++ rulesText label rs

/-- A file with a line for each rule. -/
def fileText (label : XfRule → Str) (v : Option String × List XfRule) : Str :=
  (v.1.map blockText).getD [] ++ rulesText label v.2

theorem tokens_newline : tokens .XFCode ('\n' :: s) = tokens .XFCode s := tokens_blank (.inr rfl)

theorem tokens_blockText (h : Balanced code.toList) :
    tokens .XFCode (blockText code ++ s) = withTokens (blockTokens code) (tokens .XFCode s) := by
  have hsplit : blockText code ++ s = '{' :: code.toList ++ '}' :: ('\n' :: s) := by
    rw [blockText, List.append_assoc]
    rfl
  rw [hsplit, tokens_block h, tokens_newline, withTokens_append]
  rfl

theorem tokens_codeText {code : Option String} (h : ∀ c ∈ code, Balanced c.toList) :
    tokens .XFCode (codeText code ++ s) = withTokens (codeTokens code) (tokens .XFCode s) := by
  cases code with
  | none => exact tokens_newline
  | some c =>
    have hsplit : codeText (some c) ++ s = [':'] ++ (' ' :: (blockText c ++ s)) := rfl
    rw [hsplit, tokens_COLON, tokens_blank (.inl rfl), tokens_blockText (h c rfl)]
    rfl

theorem behind_codeText {code : Option String} : Behind (codeText code ++ s) := by
  cases code with
  | none => exact behind_of_ne_blank rfl (by decide)
  | some code => exact behind_of_ne_blank rfl (by decide)

/-- The lexer reads a label as it should, in front of what may stand there. -/
def Reads (label : XfRule → Str) (r : XfRule) : Prop := ∀ s, Behind s →
  tokens .XFCode (label r ++ s) = withTokens (labelTokens r) (tokens .XFCode s)

theorem tokens_rulesText {label : XfRule → Str} (hcode : ∀ r ∈ rs, FormedRule r)
    (hlabel : ∀ r ∈ rs, Reads label r) :
    tokens .XFCode (rulesText label rs) = (rulesTokens rs, none) := by
  induction rs with
  | nil => exact tokens_eof
  | cons r rs ih =>
    rw [List.forall_mem_cons] at hcode hlabel
    rw [rulesText, rulesTokens, List.append_assoc, hlabel.1 _ behind_codeText,
      tokens_codeText hcode.1.balanced, ih hcode.2 hlabel.2, withTokens_append]
    rfl

/-- A file is read back if the lexer reads its labels as it should. -/
theorem parse_fileText {label : XfRule → Str} (hv : FormedFile v)
    (hlabel : ∀ r ∈ v.2, Reads label r) : parseXFRules (some (fileText label v)) = .ok v := by
  have htokens : tokens .XFCode (fileText label v) = (fileTokens v, none) := by
    have hrules := tokens_rulesText hv.rules hlabel
    obtain ⟨preamble, rs⟩ := v
    cases preamble with
    | none => exact hrules
    | some c =>
      have hblock := tokens_blockText (s := rulesText label rs) (hv.preamble c rfl)
      rw [hrules] at hblock
      exact hblock
  have hmain : main (fileTokens v) = .ok v :=
    main_iff.mpr ⟨fileTokens v, [], (List.append_nil _).symm, isMain_fileTokens hv⟩
  rw [parseXFRules, htokens, hmain]

/-! ## Labels -/

/-- A label whose paths have the given separator. -/
def labelText (dot : Str) : XfRule → Str
  | .xform fromPath toPath _ =>
    pathText dot fromPath ++ ([' ', '-', '>', ' '] ++ pathText dot toPath)
  | .init toPath _ => ['I', 'N', 'I', 'T'] ++ (' ' :: pathText dot toPath)

theorem reads_labelText (hr : FormedRule r) (hdot : ∀ p ∈ rulePaths r, Separates dot p) :
    Reads (labelText dot) r := by
  intro s hs
  have hpath : ∀ p ∈ rulePaths r, ∀ s, Behind s →
      tokens .XFCode (pathText dot p ++ s) = withTokens (pathTokens p) (tokens .XFCode s) :=
    fun p hp s hs => tokens_path (hr.paths p hp) (hdot p hp) fun _ _ => hs.follows
  cases r with
  | xform f t code =>
    have hbehind : Behind (' ' :: '-' :: '>' :: ' ' :: (pathText dot t ++ s)) := behind_blank rfl
    have harrow : tokens .XFCode (['-', '>'] ++ (' ' :: (pathText dot t ++ s))) =
        withTokens (.XFORM :: pathTokens t) (tokens .XFCode s) := by
      rw [tokens_XFORM, tokens_blank (.inl rfl), hpath t (.tail _ (.head _)) s hs]
      rfl
    rw [labelText, labelTokens, List.append_assoc, List.append_assoc]
    refine (hpath f (.head _) _ hbehind).trans ?_
    rw [tokens_blank (.inl rfl)]
    refine (congrArg _ harrow).trans ?_
    rw [withTokens_append]
  | init t code =>
    rw [labelText, labelTokens, List.append_assoc]
    refine (tokens_INIT (ends_cons rfl)).trans ?_
    rw [tokens_blank (.inl rfl)]
    exact congrArg (withToken .INIT) (hpath t (.head _) s hs)

/-- With a blank in front of it a dot separates any elements. -/
theorem separates_blank (p : Path) : Separates [' ', '.'] p := by
  refine ⟨fun s => ?_, fun s e _ => (behind_blank rfl).follows⟩
  exact (tokens_blank (.inl rfl)).trans tokens_DOT

/-- An element with a keyword. -/
def TypeElem : XfElem → Prop
  | .struct _ | .union _ | .typedef _ | .enum _ => True
  | .field _ | .var _ => False

/-- A dot alone does not end a name. -/
theorem separates_dot (h : ∀ e ∈ p.tail, TypeElem e) : Separates ['.'] p := by
  refine ⟨fun s => tokens_DOT, fun s e he => ?_⟩
  have hends : Ends typeChar (['.'] ++ s) := ends_cons rfl
  cases e with
  | field name => exact (h _ he).elim
  | var name => exact (h _ he).elim
  | struct | union | typedef | enum => exact hends

theorem toList_pathToString (p : Path) : (pathToString p).toList = pathText ['.'] p := by
  induction p with
  | nil => rfl
  | cons e p ih =>
    cases p with
    | nil => rfl
    | cons e' p =>
      have hne : ((e' :: p).map printPathElem).reverse ≠ [] := by simp
      rw [pathText_cons (List.cons_ne_nil e' p), ← ih, pathToString, pathToString, List.map_cons,
        List.reverse_cons, String.intercalate_append_of_ne_nil hne (List.cons_ne_nil _ _),
        String.toList_append, String.toList_append, List.append_assoc]
      rfl

theorem toList_ruleToString (r : XfRule) : (ruleToString r).toList = labelText ['.'] r := by
  cases r with
  | xform f t code =>
    rw [ruleToString, labelText, String.toList_append, String.toList_append, List.append_assoc,
      toList_pathToString, toList_pathToString]
    rfl
  | init t code =>
    rw [ruleToString, labelText, String.toList_append, toList_pathToString]
    rfl

/-- The rules as the tools print them, with their code. -/
def printRules : Option String × List XfRule → Str := fileText fun r => (ruleToString r).toList

/-- **The tools read the rules that they print**, where only the last element of a path has a name
without a keyword. -/
theorem parse_printRules (hv : FormedFile v)
    (hnames : ∀ r ∈ v.2, ∀ p ∈ rulePaths r, ∀ e ∈ p.tail, TypeElem e) :
    parseXFRules (some (printRules v)) = .ok v := by
  refine parse_fileText hv fun r hr s hs => ?_
  rw [toList_ruleToString]
  exact reads_labelText (hv.rules r hr) (fun p hp => separates_dot (hnames r hr p hp)) s hs

/-- A field that is renamed, and a static variable with its initial value. -/
def sampleFile : Option String × List XfRule :=
  (some "int resized;",
    [.xform [.field "used", .struct "dict"] [.field "size", .struct "dict"] none,
      .init [.var "dict.c/ratio"] "if (resized) \x7b*local_out = 5;\x7d"])

theorem parse_sampleFile : parseXFRules (some (printRules sampleFile)) = .ok sampleFile := by
  have hdict : FormedPath [.struct "dict"] :=
    .root ⟨⟨'d', _, rfl, rfl⟩, List.all_eq_true.mp rfl⟩ (by simp)
  have hfield : ∀ name ∈ ["used", "size"], FormedPath [.field name, .struct "dict"] := by
    simp only [List.mem_cons, List.not_mem_nil, or_false]
    rintro name (rfl | rfl)
    · exact .inner ⟨⟨⟨'u', _, rfl, rfl⟩, List.all_eq_true.mp rfl⟩, by decide, by decide⟩
        (by simp) hdict
    · exact .inner ⟨⟨⟨'s', _, rfl, rfl⟩, List.all_eq_true.mp rfl⟩, by decide, by decide⟩
        (by simp) hdict
  have hratio : FormedPath [.var "dict.c/ratio"] :=
    .root ⟨⟨⟨'d', _, rfl, rfl⟩, List.all_eq_true.mp rfl⟩, by decide, by decide⟩ (by simp)
  refine parse_printRules ⟨?_, ?_⟩ ?_
  · rintro c ⟨⟩
    rfl
  · simp only [sampleFile, List.mem_cons, List.not_mem_nil, or_false]
    rintro r (rfl | rfl)
    · exact ⟨hfield _ (.head _), hfield _ (.tail _ (.head _)), by simp⟩
    · exact ⟨hratio, rfl⟩
  · simp [sampleFile, rulePaths, TypeElem]

/-- A path through two fields is printed as one that has a dot in the name of its field. -/
example : pathToString [.field "y", .field "x", .struct "s"] =
    pathToString [.field "x.y", .struct "s"] := by decide

/-! ## What is accepted -/

section Accepted

variable {ts us rest rest' : List Token} {tok : Token} {l : List Path} {ls : List (List Path)}
  {code code' : Str} {c : String}

theorem Lexed.tail (h : Lexed (tok :: ts)) (htok : tok ≠ .STARTC) : tok.Admissible ∧ Lexed ts := by
  cases h with
  | cons hadm hts => exact ⟨hadm, hts⟩
  | block | unclosed => exact absurd rfl htok

theorem code_unique (h : code.map Token.CCHAR ++ .ENDC :: rest =
    code'.map Token.CCHAR ++ .ENDC :: rest') : code = code' ∧ rest = rest' := by
  induction code generalizing code' with
  | nil =>
    cases code' with
    | nil => exact ⟨rfl, (List.cons.inj h).2⟩
    | cons c' code' => cases (List.cons.inj h).1
  | cons c code ih =>
    cases code' with
    | nil => cases (List.cons.inj h).1
    | cons c' code' =>
      obtain ⟨hc, hcode⟩ := List.cons.inj h
      obtain ⟨rfl, hrest⟩ := ih hcode
      cases hc
      exact ⟨rfl, hrest⟩

theorem eq_of_isBody (h : IsBody ts code) : ts = code.map .CCHAR ++ [.ENDC] := by
  induction h with
  | char _ ih => rw [ih, List.map_cons, List.cons_append]
  | endc => rfl

theorem balanced_of_isBlock (h : IsBlock us c) (hl : Lexed (us ++ rest)) :
    Balanced c.toList ∧ Lexed rest := by
  cases h with
  | @startc us code hcode =>
    rw [String.toList_ofList]
    have heq : Token.STARTC :: us ++ rest = .STARTC :: (code.map .CCHAR ++ .ENDC :: rest) := by
      rw [eq_of_isBody hcode, List.cons_append, List.append_assoc, List.singleton_append]
    generalize Token.STARTC :: us ++ rest = all at hl heq
    cases hl with
    | nil => cases heq
    | cons htok _ =>
      cases (List.cons.inj heq).1
      exact htok.elim
    | block hbalanced hrest =>
      obtain ⟨rfl, rfl⟩ := code_unique (List.cons.inj heq).2
      exact ⟨hbalanced, hrest⟩
    | @unclosed code' =>
      -- the block ends, and so does not take all tokens
      have hmem : Token.ENDC ∈ code'.map Token.CCHAR := by
        rw [(List.cons.inj heq).2]
        exact List.mem_append_right _ List.mem_cons_self
      obtain ⟨_, _, hc⟩ := List.mem_map.mp hmem
      cases hc

theorem formedElem_of_pathElem (h : pathElem tok = some e) (htok : tok.Admissible) :
    FormedElem e ∧ ∀ name, e ≠ .var name := by
  unfold pathElem at h
  split at h
  all_goals cases h
  all_goals exact ⟨htok, fun _ => by simp⟩

theorem formedPath_of_isPath (h : IsPath us p) (hl : Lexed (us ++ rest)) :
    p ≠ [] ∧ FormedPath (fixPath p) ∧ Lexed rest := by
  induction h generalizing rest with
  | @elem tok e he =>
    obtain ⟨htok, hrest⟩ := hl.tail (fresh_of_pathElem he).2.2
    obtain ⟨hformed, -⟩ := formedElem_of_pathElem he htok
    refine ⟨List.cons_ne_nil _ _, ?_, hrest⟩
    cases e with
    | field name => exact .root (e := .var name) hformed (by simp)
    | struct | union | typedef | enum | var => exact .root hformed (by simp)
  | @dot us p tok e _ he ih =>
    rw [List.append_assoc] at hl
    obtain ⟨hne, hp, hdot⟩ := ih hl
    obtain ⟨htok, hrest⟩ := (hdot.tail (by simp)).2.tail (fresh_of_pathElem he).2.2
    obtain ⟨hformed, hvar⟩ := formedElem_of_pathElem he htok
    rw [fixPath_cons hne]
    exact ⟨List.cons_ne_nil _ _, .inner hformed hvar hp, hrest⟩

theorem formed_of_isLabel (h : IsLabel us l) (hl : Lexed (us ++ rest)) :
    (∀ p ∈ l, FormedPath p) ∧ Lexed rest := by
  cases h with
  | xform hf ht =>
    rw [List.append_assoc] at hl
    obtain ⟨-, hfrom, hl⟩ := formedPath_of_isPath hf hl
    obtain ⟨-, hto, hrest⟩ := formedPath_of_isPath ht (hl.tail (by simp)).2
    exact ⟨by simp [hfrom, hto], hrest⟩
  | init hp | assert hp =>
    obtain ⟨-, hto, hrest⟩ := formedPath_of_isPath hp (hl.tail (by simp)).2
    exact ⟨by simp [hto], hrest⟩

theorem formed_of_isLabels (h : IsLabels us ls) (hl : Lexed (us ++ rest)) :
    (∀ l ∈ ls, ∀ p ∈ l, FormedPath p) ∧ Lexed rest := by
  induction h generalizing rest with
  | colon hlabel =>
    rw [List.append_assoc] at hl
    obtain ⟨hpaths, hl⟩ := formed_of_isLabel hlabel hl
    exact ⟨by simpa using hpaths, (hl.tail (by simp)).2⟩
  | comma hlabel _ ih =>
    rw [List.append_assoc] at hl
    obtain ⟨hpaths, hl⟩ := formed_of_isLabel hlabel hl
    obtain ⟨hall, hrest⟩ := ih (hl.tail (by simp)).2
    exact ⟨List.forall_mem_cons.mpr ⟨hpaths, hall⟩, hrest⟩

theorem formedRule_of_makeRule {code : Option String} (hcode : ∀ c ∈ code, Balanced c.toList)
    (hl : ∀ p ∈ l, FormedPath p) (h : makeRule code l = .ok r) : FormedRule r := by
  unfold makeRule at h
  split at h
  · cases h
    exact ⟨hl _ (.head _), hl _ (.tail _ (.head _)), hcode⟩
  · split at h
    · cases h
      exact ⟨hl _ (.head _), hcode _ rfl⟩
    · cases h
  · cases h

theorem formedRule_of_mapM {code : Option String} (hcode : ∀ c ∈ code, Balanced c.toList)
    (hls : ∀ l ∈ ls, ∀ p ∈ l, FormedPath p) (h : ls.mapM (makeRule code) = .ok rs) :
    ∀ r ∈ rs, FormedRule r := by
  induction ls generalizing rs with
  | nil =>
    cases h
    simp
  | cons l ls ih =>
    rw [List.forall_mem_cons] at hls
    rw [List.mapM_cons] at h
    cases hr : makeRule code l with
    | error e =>
      rw [hr] at h
      cases h
    | ok r =>
      cases hrs : ls.mapM (makeRule code) with
      | error e =>
        rw [hr, hrs] at h
        cases h
      | ok rs' =>
        rw [hr, hrs] at h
        cases h
        exact List.forall_mem_cons.mpr ⟨formedRule_of_makeRule hcode hls.1 hr, ih hls.2 hrs⟩

theorem formed_of_isDecl (h : IsDecl us rs) (hl : Lexed (us ++ rest)) :
    (∀ r ∈ rs, FormedRule r) ∧ Lexed rest := by
  cases h with
  | block hlabels hblock hrs =>
    rw [List.append_assoc] at hl
    obtain ⟨hpaths, hl⟩ := formed_of_isLabels hlabels hl
    obtain ⟨hcode, hrest⟩ := balanced_of_isBlock hblock hl
    exact ⟨formedRule_of_mapM (by simpa using hcode) hpaths hrs, hrest⟩
  | label hlabel hr =>
    obtain ⟨hpaths, hrest⟩ := formed_of_isLabel hlabel hl
    exact ⟨by simpa using formedRule_of_makeRule (by simp) hpaths hr, hrest⟩

theorem formed_of_isRules (h : IsRules us rs) (hl : Lexed (us ++ rest)) :
    ∀ r ∈ rs, FormedRule r := by
  induction h with
  | eof => simp
  | decl hdecl _ ih =>
    rw [List.append_assoc] at hl
    obtain ⟨hrs, hl⟩ := formed_of_isDecl hdecl hl
    exact List.forall_mem_append.mpr ⟨hrs, ih hl⟩

theorem formedFile_of_isMain (h : IsMain us v) (hl : Lexed (us ++ rest)) : FormedFile v := by
  cases h with
  | block hblock hrules =>
    rw [List.append_assoc] at hl
    obtain ⟨hcode, hl⟩ := balanced_of_isBlock hblock hl
    exact ⟨by simpa using hcode, formed_of_isRules hrules hl⟩
  | rules hrules => exact ⟨by simp, formed_of_isRules hrules hl⟩

theorem formedFile_of_parse (h : parseXFRules (some s) = .ok v) : FormedFile v := by
  have hmain : main (tokens .XFCode s).1 = .ok v := by
    rw [parseXFRules] at h
    split at h
    · next hmain =>
      cases h
      exact hmain
    · cases h
    · cases h
    · cases h
  obtain ⟨us, rest, heq, hus⟩ := main_iff.mp hmain
  exact formedFile_of_isMain hus (heq ▸ lexed s)

/-- **What a file of rules can say**: the parser returns what it returns for some file, exactly if
all its paths and all its code can be written down. -/
theorem accepted_iff : (∃ s, parseXFRules (some s) = .ok v) ↔ FormedFile v := by
  constructor
  · rintro ⟨s, hs⟩
    exact formedFile_of_parse hs
  · intro hv
    exact ⟨fileText (labelText [' ', '.']) v, parse_fileText hv fun r hr =>
      reads_labelText (hv.rules r hr) fun p _ => separates_blank p⟩

end Accepted

end CStrider.Text
