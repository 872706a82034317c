import CStrider.Lib.Split
import CStrider.Text.Identifiers

/-!
# The keys of variables (`common/ktdecl.ml`)

A variable goes by its name and up to three prefixes: a namespace, the source file of a static
variable, and the function of a local one. `render_var_key` puts them in front of the name, each
with a separator behind it, and `parse_var_key` takes them off again. The separator of the file name
is the one between directories.
-/

namespace CStrider.Text

/-- Namespace, file, function and name. -/
abbrev VarParts := Option Str × Option Str × Option Str × Str

/-- `get_prefix` of `parse_var_key`, with `Str.split` at the character `d`. -/
def getPrefix (s : Str) (d : Char) : Option Str × Str :=
  match split d s with
  | [pre, s'] => (some pre, s')
  | _ => (none, s)

/-- `parse_var_key`. -/
def parseVarKey (k : Str) : VarParts :=
  let (ns, n') := getPrefix k '@'
  let (filename, n'') := getPrefix n' '/'
  let (funcname, n''') := getPrefix n'' '#'
  (ns, filename, funcname, n''')

/-- `add_suffix`. -/
def addSuffix (s : Str) (suffix : Option Str) (separator : Char) : Str :=
  match suffix with
  | some p => s ++ p ++ [separator]
  | none => s

/-- `render_var_key`. -/
def renderVarKey : VarParts → Str
  | (ns, filename, funcname, varname) =>
    let k := addSuffix [] ns '@'
    let k' := addSuffix k filename '/'
    let k'' := addSuffix k' funcname '#'
    k'' ++ varname

/-- `rmsubdir`. -/
def rmsubdir : Str → Str
  | '.' :: '.' :: '/' :: k => rmsubdir k
  | k => k

/-! ## Variables -/

/-- A variable of a C program. -/
structure Variable where
  ns : Option CIdentifier
  filename : Option Str
  funcname : Option CIdentifier
  varname : CIdentifier

def Variable.parts (v : Variable) : VarParts :=
  (v.ns.map CIdentifier.text, v.filename, v.funcname.map CIdentifier.text, v.varname.text)

/-- The file name cannot be taken for anything else: it has no directories, and `parse_var_key`
finds the separator of the namespace where there is one, and only there. -/
structure Decodable (ns : Option CIdentifier) (filename : Str) : Prop where
  nonempty : filename ≠ []
  noSlash : '/' ∉ filename
  inNamespace : ns.isSome → '@' ∉ filename
  alone : ns = none → filename ≠ ['.', '.'] ∧ (skipOne '@' filename).count '@' ≠ 1

/-! ## Prefixes -/

section

variable {d : Char} {p s t u : Str}

theorem getPrefix_some (hp : p ≠ []) (hd : d ∉ p) (ht : t ≠ []) (hdt : d ∉ t) :
    getPrefix (p ++ d :: t) d = (some p, t) := by
  rw [getPrefix, split, skipOne_append hp, skipOne_of_notMem hd, pieces_append hd,
    pieces_of_notMem ht hdt]

theorem getPrefix_of_length (h : (split d s).length ≠ 2) : getPrefix s d = (none, s) := by
  unfold getPrefix
  split
  · next heq => exact absurd (congrArg List.length heq) h
  · rfl

theorem getPrefix_of_notMem (hs : s ≠ []) (hd : d ∉ s) : getPrefix s d = (none, s) := by
  refine getPrefix_of_length ?_
  rw [split, skipOne_of_notMem hd, pieces_of_notMem hs hd, List.length_singleton]
  decide

theorem getPrefix_none (hu : u ≠ []) (h : (skipOne d u).count d ≠ 1) (ht : t ≠ []) (hd : d ∉ t) :
    getPrefix (u ++ t) d = (none, u ++ t) := by
  refine getPrefix_of_length ?_
  rw [split, skipOne_append hu, length_pieces ht hd]
  omega

/-- Two pieces have one delimiter between them. -/
theorem getPrefix_isSome (hu : u ≠ []) (h : (skipOne d u).count d = 1) (ht : t ≠ []) (hd : d ∉ t) :
    (getPrefix (u ++ t) d).1.isSome := by
  have hlen : (split d (u ++ t)).length = 2 := by
    rw [split, skipOne_append hu, length_pieces ht hd, h]
  rw [getPrefix]
  match hps : split d (u ++ t), hlen with
  | [p, q], _ => rfl

theorem notMem_of_getPrefix (h : (getPrefix s d).1 = some p) : d ∉ p := by
  unfold getPrefix at h
  split at h
  · next pre s' heq =>
    obtain rfl := Option.some.inj h
    have hmem : pre ∈ split d s := heq ▸ List.mem_cons_self
    exact notMem_of_mem_pieces hmem
  · cases h

/-- Nothing is removed from a key that does not begin with the directory above. -/
theorem rmsubdir_of_ne {c : Char} (h : c ≠ '.') : rmsubdir (c :: s) = c :: s := by
  rw [rmsubdir.eq_def]
  split
  · next heq => exact absurd (List.cons.inj heq).1 h
  · rfl

theorem rmsubdir_file (hslash : '/' ∉ s) (hdots : s ≠ ['.', '.']) :
    rmsubdir (s ++ '/' :: t) = s ++ '/' :: t := by
  match s, hslash, hdots with
  | [], _, _ => exact rmsubdir_of_ne (by decide)
  | [c], _, _ =>
    by_cases hc : c = '.'
    · subst hc
      rfl
    · exact rmsubdir_of_ne hc
  | [c, c'], _, hdots =>
    rw [rmsubdir.eq_def]
    split
    · next heq =>
      injection heq with hc heq
      injection heq with hc' _
      exact absurd (by rw [hc, hc']) hdots
    · rfl
  | c :: c' :: c'' :: s, hslash, _ =>
    rw [rmsubdir.eq_def]
    split
    · next heq =>
      injection heq with _ heq
      injection heq with _ heq
      injection heq with hc'' _
      exact absurd (hc'' ▸ List.mem_cons_of_mem c (List.mem_cons_of_mem c' List.mem_cons_self))
        hslash
    · rfl

end

/-! ## Keys -/

theorem CIdentifier.rmsubdir_text (i : CIdentifier) (s : Str) :
    rmsubdir (i.text ++ s) = i.text ++ s :=
  rmsubdir_of_ne fun hdot => absurd i.isStart (hdot ▸ by decide)

theorem addSuffix_eq (s : Str) (suffix : Option Str) (separator : Char) :
    addSuffix s suffix separator = s ++ addSuffix [] suffix separator := by
  cases suffix with
  | none => exact (List.append_nil s).symm
  | some p => exact List.append_assoc s p [separator]

section

variable {k k₁ k₂ k₃ : Str} {ns filename funcname : Option Str}

theorem parseVarKey_eq (hns : getPrefix k '@' = (ns, k₁))
    (hfile : getPrefix k₁ '/' = (filename, k₂)) (hfunc : getPrefix k₂ '#' = (funcname, k₃)) :
    parseVarKey k = (ns, filename, funcname, k₃) := by
  rw [parseVarKey, hns]
  dsimp only
  rw [hfile]
  dsimp only
  rw [hfunc]

theorem namespace_of_parseVarKey (h : parseVarKey k = (ns, filename, funcname, k₃)) :
    (getPrefix k '@').1 = ns :=
  congrArg Prod.fst h

theorem filename_of_parseVarKey (h : parseVarKey k = (ns, filename, funcname, k₃))
    (hk : (getPrefix k '@').2 = k₁) : (getPrefix k₁ '/').1 = filename :=
  hk ▸ congrArg (fun parts => parts.2.1) h

end

namespace Variable

/-- The key without namespace and file name. -/
def tail (v : Variable) : Str :=
  addSuffix [] (v.funcname.map CIdentifier.text) '#' ++ v.varname.text

variable (v : Variable)

theorem renderVarKey_parts :
    renderVarKey v.parts =
      addSuffix [] (v.ns.map CIdentifier.text) '@' ++ (addSuffix [] v.filename '/' ++ v.tail) := by
  rw [parts, renderVarKey, tail, addSuffix_eq _ (v.funcname.map _), addSuffix_eq _ v.filename]
  simp only [List.append_assoc]

theorem tail_ne_nil : v.tail ≠ [] :=
  List.append_ne_nil_of_right_ne_nil _ v.varname.text_ne_nil

theorem notMem_tail {d : Char} (h : isIdentChar d = false) (hd : d ≠ '#') : d ∉ v.tail := by
  rw [tail, List.mem_append, not_or]
  refine ⟨?_, v.varname.notMem_text h⟩
  cases v.funcname with
  | none => exact List.not_mem_nil
  | some g =>
    intro hmem
    rcases List.mem_append.mp hmem with hmem | hmem
    · exact g.notMem_text h hmem
    · exact hd (List.mem_singleton.mp hmem)

theorem at_notMem_tail : '@' ∉ v.tail := v.notMem_tail (by decide) (by decide)

theorem slash_notMem_tail : '/' ∉ v.tail := v.notMem_tail (by decide) (by decide)

theorem rmsubdir_tail : rmsubdir v.tail = v.tail := by
  rw [tail]
  cases v.funcname with
  | none => exact List.append_nil v.varname.text ▸ v.varname.rmsubdir_text []
  | some g =>
    show rmsubdir (g.text ++ ['#'] ++ _) = _
    rw [List.append_assoc, g.rmsubdir_text]
    exact (List.append_assoc _ _ _).symm

/-- The function is found whatever else the variable goes by. -/
theorem getPrefix_tail :
    getPrefix v.tail '#' = (v.funcname.map CIdentifier.text, v.varname.text) := by
  have hvar : '#' ∉ v.varname.text := v.varname.notMem_text (by decide)
  rw [tail]
  cases v.funcname with
  | none => exact getPrefix_of_notMem v.varname.text_ne_nil hvar
  | some g =>
    show getPrefix (g.text ++ ['#'] ++ _) '#' = _
    rw [List.append_assoc]
    exact getPrefix_some g.text_ne_nil (g.notMem_text (by decide)) v.varname.text_ne_nil hvar

theorem getPrefix_at_tail : getPrefix v.tail '@' = (none, v.tail) :=
  getPrefix_of_notMem v.tail_ne_nil v.at_notMem_tail

theorem getPrefix_slash_tail : getPrefix v.tail '/' = (none, v.tail) :=
  getPrefix_of_notMem v.tail_ne_nil v.slash_notMem_tail

theorem at_notMem_file {f : Str} (h : '@' ∉ f) : '@' ∉ f ++ '/' :: v.tail := by
  rw [List.mem_append, List.mem_cons, not_or, not_or]
  exact ⟨h, by decide, v.at_notMem_tail⟩

end Variable

theorem count_skipOne_file {f : Str} (hf : f ≠ []) :
    (skipOne '@' (f ++ ['/'])).count '@' = (skipOne '@' f).count '@' := by
  rw [skipOne_append hf, List.count_append]
  rfl

/-- The first step of `parse_var_key` where nothing in the rest of the key is taken for the end of a
namespace. -/
theorem getPrefix_namespace (ns : Option CIdentifier) {t : Str} (ht : t ≠ [])
    (hsome : ns.isSome → '@' ∉ t) (hnone : ns = none → getPrefix (rmsubdir t) '@' = (none, t)) :
    getPrefix (rmsubdir (addSuffix [] (ns.map CIdentifier.text) '@' ++ t)) '@' =
      (ns.map CIdentifier.text, t) := by
  cases ns with
  | none => exact hnone rfl
  | some i =>
    show getPrefix (rmsubdir (i.text ++ ['@'] ++ t)) '@' = _
    rw [List.append_assoc, i.rmsubdir_text]
    exact getPrefix_some i.text_ne_nil (i.notMem_text (by decide)) ht (hsome rfl)

section

variable {v : Variable} {f : Str}

theorem key_of_noFile (hfile : v.filename = none) :
    renderVarKey v.parts = addSuffix [] (v.ns.map CIdentifier.text) '@' ++ v.tail := by
  rw [v.renderVarKey_parts, hfile]
  rfl

theorem key_of_file (hfile : v.filename = some f) :
    renderVarKey v.parts =
      addSuffix [] (v.ns.map CIdentifier.text) '@' ++ (f ++ '/' :: v.tail) := by
  rw [v.renderVarKey_parts, hfile, List.append_cons f]
  rfl

theorem decodes_of_noFile (hfile : v.filename = none) :
    parseVarKey (rmsubdir (renderVarKey v.parts)) = v.parts := by
  have hns := getPrefix_namespace v.ns v.tail_ne_nil (fun _ => v.at_notMem_tail)
    fun _ => v.rmsubdir_tail.symm ▸ v.getPrefix_at_tail
  rw [key_of_noFile hfile, parseVarKey_eq hns v.getPrefix_slash_tail v.getPrefix_tail,
    Variable.parts, hfile]

theorem decodes_of_decodable (hfile : v.filename = some f) (h : Decodable v.ns f) :
    parseVarKey (rmsubdir (renderVarKey v.parts)) = v.parts := by
  have hns : getPrefix (rmsubdir (addSuffix [] (v.ns.map CIdentifier.text) '@' ++
      (f ++ '/' :: v.tail))) '@' = (v.ns.map CIdentifier.text, f ++ '/' :: v.tail) := by
    refine getPrefix_namespace v.ns (List.append_ne_nil_of_left_ne_nil h.nonempty _)
      (fun hsome => ?_) fun hnone => ?_
    · exact v.at_notMem_file (h.inNamespace hsome)
    · obtain ⟨hdots, hcount⟩ := h.alone hnone
      rw [rmsubdir_file h.noSlash hdots, List.append_cons]
      exact getPrefix_none (List.append_ne_nil_of_left_ne_nil h.nonempty _)
        (count_skipOne_file h.nonempty ▸ hcount) v.tail_ne_nil v.at_notMem_tail
  have hslash := getPrefix_some h.nonempty h.noSlash v.tail_ne_nil v.slash_notMem_tail
  rw [key_of_file hfile, parseVarKey_eq hns hslash v.getPrefix_tail, Variable.parts, hfile]

/-! ## What is lost -/

theorem noSlash_of_decodes (hfile : v.filename = some f)
    (h : parseVarKey (rmsubdir (renderVarKey v.parts)) = v.parts) : '/' ∉ f :=
  notMem_of_getPrefix ((filename_of_parseVarKey h rfl).trans hfile)

/-- An empty file name leaves a separator at the beginning, and `Str.split` skips that. -/
theorem ne_nil_of_decodes (hfile : v.filename = some f)
    (h : parseVarKey (rmsubdir (renderVarKey v.parts)) = v.parts) : f ≠ [] := by
  rintro rfl
  have hat : '@' ∉ '/' :: v.tail := v.at_notMem_file List.not_mem_nil
  have hns := getPrefix_namespace v.ns (List.cons_ne_nil '/' v.tail) (fun _ => hat) fun _ => by
    rw [rmsubdir_of_ne (by decide)]
    exact getPrefix_of_notMem (List.cons_ne_nil _ _) hat
  have hslash : getPrefix ('/' :: v.tail) '/' = (none, '/' :: v.tail) := by
    refine getPrefix_of_length ?_
    rw [split, skipOne, if_pos rfl, pieces_of_notMem v.tail_ne_nil v.slash_notMem_tail,
      List.length_singleton]
    decide
  rw [key_of_file hfile, List.nil_append] at h
  have hnone := filename_of_parseVarKey h (congrArg Prod.snd hns)
  rw [hslash, hfile] at hnone
  cases hnone

/-- Behind a namespace every other `@` makes a third piece. -/
theorem at_notMem_of_decodes {i : CIdentifier} (hfile : v.filename = some f) (hns : v.ns = some i)
    (h : parseVarKey (rmsubdir (renderVarKey v.parts)) = v.parts) : '@' ∉ f := by
  intro hat
  have hpos : 0 < f.count '@' := List.count_pos_iff.mpr hat
  have hkey : rmsubdir (renderVarKey v.parts) = (i.text ++ '@' :: f ++ ['/']) ++ v.tail := by
    rw [key_of_file hfile, hns]
    show rmsubdir (i.text ++ ['@'] ++ _) = _
    rw [List.append_assoc, i.rmsubdir_text]
    simp only [List.append_assoc, List.cons_append, List.nil_append]
  have hcount : (skipOne '@' (i.text ++ '@' :: f ++ ['/'])).count '@' ≠ 1 := by
    rw [List.append_assoc, skipOne_append i.text_ne_nil, List.cons_append, List.count_append,
      List.count_cons_self, List.count_append]
    omega
  rw [hkey] at h
  have hnone := namespace_of_parseVarKey h
  rw [getPrefix_none (by simp) hcount v.tail_ne_nil v.at_notMem_tail, hns] at hnone
  cases hnone

theorem ne_dots_of_decodes (hfile : v.filename = some f) (hns : v.ns = none)
    (h : parseVarKey (rmsubdir (renderVarKey v.parts)) = v.parts) : f ≠ ['.', '.'] := by
  rintro rfl
  have hkey : rmsubdir (renderVarKey v.parts) = v.tail := by
    rw [key_of_file hfile, hns]
    exact v.rmsubdir_tail
  rw [hkey] at h
  have hnone := filename_of_parseVarKey h (congrArg Prod.snd v.getPrefix_at_tail)
  rw [v.getPrefix_slash_tail, hfile] at hnone
  cases hnone

/-- One `@` where there is no namespace is taken for the end of one. -/
theorem count_ne_of_decodes (hfile : v.filename = some f) (hns : v.ns = none)
    (h : parseVarKey (rmsubdir (renderVarKey v.parts)) = v.parts) :
    (skipOne '@' f).count '@' ≠ 1 := by
  intro hcount
  have hnil := ne_nil_of_decodes hfile h
  have hkey : rmsubdir (renderVarKey v.parts) = (f ++ ['/']) ++ v.tail := by
    rw [key_of_file hfile, hns, ← List.append_cons]
    exact rmsubdir_file (noSlash_of_decodes hfile h) (ne_dots_of_decodes hfile hns h)
  rw [hkey] at h
  have hsome := getPrefix_isSome (List.append_ne_nil_of_left_ne_nil hnil ['/'])
    (count_skipOne_file hnil ▸ hcount) v.tail_ne_nil v.at_notMem_tail
  rw [namespace_of_parseVarKey h, hns] at hsome
  cases hsome

theorem decodable_of_decodes (hfile : v.filename = some f)
    (h : parseVarKey (rmsubdir (renderVarKey v.parts)) = v.parts) : Decodable v.ns f where
  nonempty := ne_nil_of_decodes hfile h
  noSlash := noSlash_of_decodes hfile h
  inNamespace hsome := by
    obtain ⟨i, hns⟩ := Option.isSome_iff_exists.mp hsome
    exact at_notMem_of_decodes hfile hns h
  alone hns := ⟨ne_dots_of_decodes hfile hns h, count_ne_of_decodes hfile hns h⟩

end

/-- The key of a variable decodes to what it was made of if and only if its file name, where it has
one, is decodable. -/
theorem decodes_iff (v : Variable) :
    parseVarKey (rmsubdir (renderVarKey v.parts)) = v.parts ↔
      ∀ f, v.filename = some f → Decodable v.ns f := by
  constructor
  · exact fun h f hfile => decodable_of_decodes hfile h
  · intro h
    cases hfile : v.filename with
    | none => exact decodes_of_noFile hfile
    | some f => exact decodes_of_decodable hfile (h f hfile)

/-- `x`, static in `src/main.c`, decodes to a variable without a file. -/
theorem directory_lost :
    ¬ ∀ v : Variable, (∀ f, v.filename = some f → ['.', '.', '/'].isPrefixOf f = false) →
      parseVarKey (rmsubdir (renderVarKey v.parts)) = v.parts := by
  intro h
  let x : CIdentifier := ⟨'x', [], by decide, fun c hc => absurd hc List.not_mem_nil⟩
  have hdecodes := h ⟨none, some "src/main.c".toList, none, x⟩
    fun f hf => Option.some.inj hf ▸ by decide
  exact absurd hdecodes (by decide)

end CStrider.Text
