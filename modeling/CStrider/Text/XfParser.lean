import CStrider.Comparison.Model
import CStrider.Text.XfLexer

/-!
# The grammar of transformation rules (`tools/xfparser.mly`)

The grammar is that of the parser generator, with one constructor for each production, and gives
each sentence its value. `main` is a parser that looks one token ahead. Both are there because the
first says what the tool reads, and the second can be run; `main_iff` has that they agree.
-/

namespace CStrider.Text

open Comparison (XfElem XfRule Path)

/-! ## Values -/

/-- What ends the parser: a token that does not fit, an exception of the lexer, or one of an
action. -/
inductive Stop where
  | parseError
  | lexer
  | failure (e : String)

def makeRule (code : Option String) : List Path → Except Stop XfRule
  | [f, t] => .ok (.xform f t code)
  | [s] =>
    match code with
    | some c => .ok (.init s c)
    | none => .error (.failure "INIT blocks must include initialization code")
  | _ => .error (.failure "Xfparser.make_rule: Unexpected set of paths")

/-- A path that begins with a name begins with a variable. -/
def fixPath (p : Path) : Path :=
  match p.reverse with
  | .field name :: rest => (.var name :: rest).reverse
  | _ => p

def pathElem : Token → Option XfElem
  | .STRUCT s => some (.struct s)
  | .UNION s => some (.union s)
  | .TYPEDEF s => some (.typedef s)
  | .ENUM s => some (.enum s)
  | .NAME s => some (.field s)
  | _ => none

/-! ## The grammar -/

/-- `path`. -/
inductive IsPath : List Token → Path → Prop
  | dot {ts p t e} : IsPath ts p → pathElem t = some e → IsPath (ts ++ [.DOT, t]) (e :: p)
  | elem {t e} : pathElem t = some e → IsPath [t] [e]

/-- `xform_label_single`. -/
inductive IsLabel : List Token → List Path → Prop
  | xform {ts us f p} : IsPath ts f → IsPath us p →
    IsLabel (ts ++ .XFORM :: us) [fixPath f, fixPath p]
  | init {ts p} : IsPath ts p → IsLabel (.INIT :: ts) [fixPath p]
  | assert {ts p} : IsPath ts p → IsLabel (.ASSERT :: ts) [fixPath p]

/-- `xform_label_multiple`. -/
inductive IsLabels : List Token → List (List Path) → Prop
  | comma {ts us l ls} : IsLabel ts l → IsLabels us ls → IsLabels (ts ++ .COMMA :: us) (l :: ls)
  | colon {ts l} : IsLabel ts l → IsLabels (ts ++ [.COLON]) [l]

/-- `c_body`. -/
inductive IsBody : List Token → Str → Prop
  | char {ts c code} : IsBody ts code → IsBody (.CCHAR c :: ts) (c :: code)
  | endc : IsBody [.ENDC] []

/-- `c_block`. -/
inductive IsBlock : List Token → String → Prop
  | startc {ts code} : IsBody ts code → IsBlock (.STARTC :: ts) (String.ofList code)

/-- `xform_decl`. -/
inductive IsDecl : List Token → List XfRule → Prop
  | block {ts us ls s rs} : IsLabels ts ls → IsBlock us s → ls.mapM (makeRule (some s)) = .ok rs →
    IsDecl (ts ++ us) rs
  | label {ts l r} : IsLabel ts l → makeRule none l = .ok r → IsDecl ts [r]

/-- `rules`. -/
inductive IsRules : List Token → List XfRule → Prop
  | decl {ts us rs rs'} : IsDecl ts rs → IsRules us rs' → IsRules (ts ++ us) (rs ++ rs')
  | eof : IsRules [.EOF] []

/-- `main`. -/
inductive IsMain : List Token → Option String × List XfRule → Prop
  | block {ts us s rs} : IsBlock ts s → IsRules us rs → IsMain (ts ++ us) (some s, rs)
  | rules {ts rs} : IsRules ts rs → IsMain ts (none, rs)

/-! ## The parser -/

/-- A path that has begun. -/
def pathRest (p : Path) : List Token → Except Stop (Path × List Token)
  | [] => .error .lexer
  | [.DOT] => .error .lexer
  | .DOT :: t :: ts =>
    match pathElem t with
    | some e => pathRest (e :: p) ts
    | none => .error .parseError
  | t :: ts => .ok (p, t :: ts)

def path : List Token → Except Stop (Path × List Token)
  | [] => .error .lexer
  | t :: ts =>
    match pathElem t with
    | some e => pathRest [e] ts
    | none => .error .parseError

def xformLabelSingle : List Token → Except Stop (List Path × List Token)
  | .INIT :: ts => (path ts).map fun r => ([fixPath r.1], r.2)
  | .ASSERT :: ts => (path ts).map fun r => ([fixPath r.1], r.2)
  | ts =>
    match path ts with
    | .ok (f, .XFORM :: ts) => (path ts).map fun r => ([fixPath f, fixPath r.1], r.2)
    | .ok _ => .error .parseError
    | .error e => .error e

def cBody : List Token → Except Stop (Str × List Token)
  | .CCHAR c :: ts => (cBody ts).map fun r => (c :: r.1, r.2)
  | .ENDC :: ts => .ok ([], ts)
  | [] => .error .lexer
  | _ => .error .parseError

def cBlock : List Token → Except Stop (String × List Token)
  | .STARTC :: ts => (cBody ts).map fun r => (String.ofList r.1, r.2)
  | [] => .error .lexer
  | _ => .error .parseError

section Labels

variable {ts us vs rest : List Token} {t : Token} {p q : Path} {l : List Path} {code : Str}
  {s : String}

theorem map_ok {α β : Type} {f : α → β} {x : Except Stop α} {b : β} (h : x.map f = .ok b) :
    ∃ a, x = .ok a ∧ f a = b := by
  cases x with
  | error e => cases h
  | ok a => exact ⟨a, rfl, Except.ok.inj h⟩

theorem pathRest_sound (hq : IsPath us q) (h : pathRest q ts = .ok (p, rest)) :
    ∃ vs, ts = vs ++ rest ∧ IsPath (us ++ vs) p := by
  fun_induction pathRest q ts generalizing us with
  | case1 => cases h
  | case2 => cases h
  | case3 q t ts e he ih =>
    obtain ⟨vs, rfl, hpath⟩ := ih (hq.dot he) h
    exact ⟨.DOT :: t :: vs, rfl, by simpa using hpath⟩
  | case4 => cases h
  | case5 q t ts =>
    cases h
    exact ⟨[], rfl, by rwa [List.append_nil]⟩

theorem path_sound (h : path ts = .ok (p, rest)) : ∃ us, ts = us ++ rest ∧ IsPath us p := by
  unfold path at h
  split at h
  · cases h
  · next t ts =>
    split at h
    · next e he =>
      obtain ⟨vs, rfl, hpath⟩ := pathRest_sound (.elem he) h
      exact ⟨t :: vs, rfl, hpath⟩
    · cases h

/-- A path that has been read is what the parser is in the middle of. -/
theorem path_append (hp : IsPath us p) (vs : List Token) : path (us ++ vs) = pathRest p vs := by
  induction hp generalizing vs with
  | elem he =>
    rw [List.singleton_append, path, he]
  | @dot us p t e _ he ih =>
    rw [List.append_assoc, ih, List.cons_append, List.singleton_append, pathRest, he]

theorem path_complete (hp : IsPath us p) (ht : t ≠ .DOT) :
    path (us ++ t :: ts) = .ok (p, t :: ts) := by
  rw [path_append hp]
  cases t <;> first | rfl | exact absurd rfl ht

theorem xformLabelSingle_sound (h : xformLabelSingle ts = .ok (l, rest)) :
    ∃ us, ts = us ++ rest ∧ IsLabel us l := by
  unfold xformLabelSingle at h
  split at h
  · obtain ⟨⟨p, rest'⟩, hp, heq⟩ := map_ok h
    obtain ⟨us, rfl, hpath⟩ := path_sound hp
    cases heq
    exact ⟨_ :: us, rfl, .init hpath⟩
  · obtain ⟨⟨p, rest'⟩, hp, heq⟩ := map_ok h
    obtain ⟨us, rfl, hpath⟩ := path_sound hp
    cases heq
    exact ⟨_ :: us, rfl, .assert hpath⟩
  · split at h
    · next f ts' hf =>
      obtain ⟨⟨p, rest'⟩, hp, heq⟩ := map_ok h
      obtain ⟨us, rfl, hfrom⟩ := path_sound hf
      obtain ⟨vs, rfl, hto⟩ := path_sound hp
      cases heq
      exact ⟨us ++ .XFORM :: vs, by simp, .xform hfrom hto⟩
    · cases h
    · cases h

/-- A path begins with one of its elements. -/
theorem IsPath.head (h : IsPath us p) : ∃ t vs e, us = t :: vs ∧ pathElem t = some e := by
  induction h with
  | elem he => exact ⟨_, [], _, rfl, he⟩
  | dot _ _ ih =>
    obtain ⟨t, vs, e, rfl, he⟩ := ih
    exact ⟨t, _, e, rfl, he⟩

theorem xformLabelSingle_complete (h : IsLabel us l) (ht : t ≠ .DOT) :
    xformLabelSingle (us ++ t :: ts) = .ok (l, t :: ts) := by
  cases h with
  | init hp =>
    rw [List.cons_append, xformLabelSingle, path_complete hp ht]
    rfl
  | assert hp =>
    rw [List.cons_append, xformLabelSingle, path_complete hp ht]
    rfl
  | @xform us vs f p hf hp =>
    have hfrom : path (us ++ .XFORM :: (vs ++ t :: ts)) = .ok (f, .XFORM :: (vs ++ t :: ts)) :=
      path_complete hf (by simp)
    obtain ⟨t', us', e, rfl, he⟩ := hf.head
    have hsplit : (t' :: us') ++ .XFORM :: vs ++ t :: ts =
        (t' :: us') ++ .XFORM :: (vs ++ t :: ts) := by simp
    rw [hsplit, xformLabelSingle, hfrom]
    · dsimp only
      rw [path_complete hp ht]
      rfl
    · rintro ts' heq
      cases heq
      cases he
    · rintro ts' heq
      cases heq
      cases he

theorem cBody_sound (h : cBody ts = .ok (code, rest)) : ∃ us, ts = us ++ rest ∧ IsBody us code := by
  fun_induction cBody ts generalizing code with
  | case1 c ts ih =>
    obtain ⟨⟨code', rest'⟩, hbody, heq⟩ := map_ok h
    cases heq
    obtain ⟨us, rfl, hcode⟩ := ih hbody
    exact ⟨_ :: us, rfl, hcode.char⟩
  | case2 ts =>
    cases h
    exact ⟨[.ENDC], rfl, .endc⟩
  | case3 => cases h
  | case4 => cases h

theorem cBody_complete (h : IsBody us code) : cBody (us ++ rest) = .ok (code, rest) := by
  induction h with
  | char _ ih =>
    rw [List.cons_append, cBody, ih]
    rfl
  | endc => rfl

theorem cBlock_sound (h : cBlock ts = .ok (s, rest)) : ∃ us, ts = us ++ rest ∧ IsBlock us s := by
  unfold cBlock at h
  split at h
  · obtain ⟨⟨code, rest'⟩, hbody, heq⟩ := map_ok h
    cases heq
    obtain ⟨us, rfl, hcode⟩ := cBody_sound hbody
    exact ⟨_ :: us, rfl, .startc hcode⟩
  · cases h
  · cases h

theorem cBlock_complete (h : IsBlock us s) : cBlock (us ++ rest) = .ok (s, rest) := by
  cases h with
  | startc hcode =>
    rw [List.cons_append, cBlock, cBody_complete hcode]
    rfl

end Labels

/-! ## Declarations -/

theorem IsLabel.ne_nil {ts : List Token} {l : List Path} (h : IsLabel ts l) : ts ≠ [] := by
  cases h with
  | xform => exact List.append_ne_nil_of_right_ne_nil _ (List.cons_ne_nil _ _)
  | init => exact List.cons_ne_nil _ _
  | assert => exact List.cons_ne_nil _ _

theorem length_lt_of_xformLabelSingle {ts rest : List Token} {l : List Path}
    (h : xformLabelSingle ts = .ok (l, rest)) : rest.length < ts.length := by
  obtain ⟨us, rfl, hlabel⟩ := xformLabelSingle_sound h
  rw [List.length_append]
  exact Nat.lt_add_of_pos_left (List.length_pos_iff.mpr hlabel.ne_nil)

/-- What stands behind a label of a list. -/
def labelsRest : List Token → Except Stop (List (List Path) × List Token)
  | .COLON :: ts => .ok ([], ts)
  | .COMMA :: ts =>
    match _h : xformLabelSingle ts with
    | .ok (l, ts') => (labelsRest ts').map fun r => (l :: r.1, r.2)
    | .error e => .error e
  | [] => .error .lexer
  | _ => .error .parseError
termination_by ts => ts.length
decreasing_by exact Nat.lt_succ_of_lt (length_lt_of_xformLabelSingle ‹_›)

/-- Whether the label at hand is the first of a list. -/
def startsList : List Token → Bool
  | .COMMA :: _ => true
  | .COLON :: _ => true
  | _ => false

def xformDecl (ts : List Token) : Except Stop (List XfRule × List Token) :=
  match xformLabelSingle ts with
  | .error e => .error e
  | .ok (l, ts) =>
    if startsList ts then
      match labelsRest ts with
      | .error e => .error e
      | .ok (ls, ts) =>
        match cBlock ts with
        | .error e => .error e
        | .ok (s, ts) => ((l :: ls).mapM (makeRule (some s))).map fun rs => (rs, ts)
    else (makeRule none l).map fun r => ([r], ts)

section Decls

variable {ts us vs rest : List Token} {t : Token} {l : List Path} {ls : List (List Path)}
  {rs : List XfRule} {v : Option String × List XfRule}

theorem labelsRest_sound (hl : IsLabel us l) (h : labelsRest ts = .ok (ls, rest)) :
    ∃ vs, ts = vs ++ rest ∧ IsLabels (us ++ vs) (l :: ls) := by
  fun_induction labelsRest ts generalizing us l ls with
  | case1 ts =>
    cases h
    exact ⟨[.COLON], rfl, .colon hl⟩
  | case2 ts l' ts' hl' ih =>
    obtain ⟨⟨ls', rest'⟩, hrest, heq⟩ := map_ok h
    cases heq
    obtain ⟨us', rfl, hlabel⟩ := xformLabelSingle_sound hl'
    obtain ⟨vs, rfl, hlabels⟩ := ih hlabel hrest
    exact ⟨.COMMA :: (us' ++ vs), by simp, .comma hl hlabels⟩
  | case3 => cases h
  | case4 => cases h
  | case5 => cases h

/-- A list of labels is read when its first label is. -/
theorem labelsRest_complete (h : IsLabels us ls) : ∃ l ls' vs vs', ls = l :: ls' ∧ us = vs ++ vs' ∧
    IsLabel vs l ∧ startsList vs' = true ∧ ∀ rest, labelsRest (vs' ++ rest) = .ok (ls', rest) := by
  induction h with
  | @colon us l hl =>
    refine ⟨l, [], us, [.COLON], rfl, rfl, hl, rfl, fun rest => ?_⟩
    rw [List.singleton_append, labelsRest]
  | @comma us vs l ls hl _ ih =>
    obtain ⟨l', ls', ws, ws', rfl, rfl, hl', hstarts, hrest⟩ := ih
    refine ⟨l, l' :: ls', us, .COMMA :: (ws ++ ws'), rfl, rfl, hl, rfl, fun rest => ?_⟩
    have hlabel : xformLabelSingle (ws ++ ws' ++ rest) = .ok (l', ws' ++ rest) := by
      cases ws' with
      | nil => cases hstarts
      | cons t ws' =>
        rw [List.append_assoc, List.cons_append]
        refine xformLabelSingle_complete hl' ?_
        rintro rfl
        cases hstarts
    rw [List.cons_append, labelsRest]
    split
    · next heq =>
      cases heq.symm.trans hlabel
      rw [hrest]
      rfl
    · next heq => cases heq.symm.trans hlabel

theorem xformDecl_sound (h : xformDecl ts = .ok (rs, rest)) :
    ∃ us, ts = us ++ rest ∧ IsDecl us rs := by
  unfold xformDecl at h
  split at h
  · cases h
  · next l ts' hl =>
    obtain ⟨us, rfl, hlabel⟩ := xformLabelSingle_sound hl
    split at h
    · split at h
      · cases h
      · next ls ts'' hls =>
        obtain ⟨vs, rfl, hlabels⟩ := labelsRest_sound hlabel hls
        split at h
        · cases h
        · next s ts''' hs =>
          obtain ⟨ws, rfl, hblock⟩ := cBlock_sound hs
          obtain ⟨rs', hrs, heq⟩ := map_ok h
          cases heq
          exact ⟨us ++ vs ++ ws, by simp, .block hlabels hblock hrs⟩
    · obtain ⟨r, hr, heq⟩ := map_ok h
      cases heq
      exact ⟨us, rfl, .label hlabel hr⟩

/-- A token that can stand behind a declaration. -/
def Fresh (t : Token) : Prop := t ≠ .DOT ∧ startsList [t] = false

theorem startsList_cons : startsList (t :: ts) = startsList [t] := by
  cases t <;> rfl

theorem xformDecl_complete (h : IsDecl us rs) (ht : Fresh t) :
    xformDecl (us ++ t :: ts) = .ok (rs, t :: ts) := by
  cases h with
  | @label us l r hl hr =>
    rw [xformDecl, xformLabelSingle_complete hl ht.1]
    dsimp only
    rw [startsList_cons, ht.2, if_neg Bool.false_ne_true, hr]
    rfl
  | @block us vs ls s rs hls hs hrs =>
    obtain ⟨l, ls', ws, ws', rfl, rfl, hl, hstarts, hrest⟩ := labelsRest_complete hls
    cases ws' with
    | nil => cases hstarts
    | cons t' ws' =>
      have hlabel : xformLabelSingle (ws ++ t' :: ws' ++ vs ++ t :: ts) =
          .ok (l, t' :: ws' ++ (vs ++ t :: ts)) := by
        rw [List.append_assoc, List.append_assoc, List.cons_append]
        refine xformLabelSingle_complete hl ?_
        rintro rfl
        cases hstarts
      rw [xformDecl, hlabel]
      dsimp only
      rw [List.cons_append, startsList_cons, ← startsList_cons, hstarts, if_pos rfl,
        ← List.cons_append, hrest]
      dsimp only
      rw [cBlock_complete hs]
      dsimp only
      rw [hrs]
      rfl

theorem fresh_of_pathElem {e : XfElem} (h : pathElem t = some e) :
    Fresh t ∧ t ≠ .EOF ∧ t ≠ .STARTC := by
  unfold pathElem at h
  split at h
  · simp [Fresh, startsList]
  · simp [Fresh, startsList]
  · simp [Fresh, startsList]
  · simp [Fresh, startsList]
  · simp [Fresh, startsList]
  · cases h

theorem IsDecl.head (h : IsDecl us rs) :
    ∃ t vs, us = t :: vs ∧ Fresh t ∧ t ≠ .EOF ∧ t ≠ .STARTC := by
  have hlabel : ∀ {us l}, IsLabel us l →
      ∃ t vs, us = t :: vs ∧ Fresh t ∧ t ≠ .EOF ∧ t ≠ .STARTC := by
    rintro us l (⟨hf, -⟩ | hp | hp)
    · obtain ⟨t, vs, e, rfl, he⟩ := hf.head
      exact ⟨t, _, rfl, fresh_of_pathElem he⟩
    · exact ⟨.INIT, _, rfl, ⟨by simp, rfl⟩, by simp, by simp⟩
    · exact ⟨.ASSERT, _, rfl, ⟨by simp, rfl⟩, by simp, by simp⟩
  cases h with
  | label hl _ => exact hlabel hl
  | block hls _ _ =>
    cases hls with
    | comma hl _ =>
      obtain ⟨t, vs, rfl, ht⟩ := hlabel hl
      exact ⟨t, _, rfl, ht⟩
    | colon hl =>
      obtain ⟨t, vs, rfl, ht⟩ := hlabel hl
      exact ⟨t, _, rfl, ht⟩

theorem length_lt_of_xformDecl (h : xformDecl ts = .ok (rs, rest)) : rest.length < ts.length := by
  obtain ⟨us, rfl, hdecl⟩ := xformDecl_sound h
  obtain ⟨t, vs, rfl, -⟩ := hdecl.head
  rw [List.length_append]
  exact Nat.lt_add_of_pos_left (Nat.succ_pos _)

end Decls

/-! ## Files -/

def rules (ts : List Token) : Except Stop (List XfRule) :=
  if ts.head? = some .EOF then .ok []
  else
    match _h : xformDecl ts with
    | .error e => .error e
    | .ok (rs, ts') => (rules ts').map (rs ++ ·)
termination_by ts.length
decreasing_by exact length_lt_of_xformDecl ‹_›

def main (ts : List Token) : Except Stop (Option String × List XfRule) :=
  if ts.head? = some .STARTC then
    match cBlock ts with
    | .error e => .error e
    | .ok (s, ts) => (rules ts).map fun rs => (some s, rs)
  else (rules ts).map fun rs => (none, rs)

section Files

variable {ts us rest : List Token} {rs : List XfRule} {v : Option String × List XfRule}

theorem rules_sound (h : rules ts = .ok rs) : ∃ us rest, ts = us ++ rest ∧ IsRules us rs := by
  fun_induction rules ts generalizing rs with
  | case1 ts heof =>
    cases h
    obtain ⟨rest, rfl⟩ := List.head?_eq_some_iff.mp heof
    exact ⟨[.EOF], rest, rfl, .eof⟩
  | case2 => cases h
  | case3 ts _ rs' ts' hdecl ih =>
    obtain ⟨rs'', hrest, heq⟩ := map_ok h
    cases heq
    obtain ⟨us, rfl, hus⟩ := xformDecl_sound hdecl
    obtain ⟨vs, rest, rfl, hvs⟩ := ih hrest
    exact ⟨us ++ vs, rest, by simp, .decl hus hvs⟩

theorem IsRules.head (h : IsRules us rs) : ∃ t vs, us = t :: vs ∧ Fresh t ∧ t ≠ .STARTC := by
  cases h with
  | eof => exact ⟨.EOF, [], rfl, ⟨by simp, rfl⟩, by simp⟩
  | decl hd _ =>
    obtain ⟨t, vs, rfl, ht, -, hne⟩ := hd.head
    exact ⟨t, _, rfl, ht, hne⟩

theorem rules_complete (h : IsRules us rs) (rest : List Token) : rules (us ++ rest) = .ok rs := by
  induction h with
  | eof =>
    rw [rules]
    exact if_pos rfl
  | @decl us vs rs rs' hd hvs ih =>
    obtain ⟨t, us', rfl, -, heof, -⟩ := hd.head
    obtain ⟨t', vs', rfl, hfresh, -⟩ := hvs.head
    have hdecl : xformDecl (t :: us' ++ t' :: vs' ++ rest) = .ok (rs, t' :: vs' ++ rest) := by
      rw [List.append_assoc]
      exact xformDecl_complete hd hfresh
    have hhead : (t :: us' ++ t' :: vs' ++ rest).head? ≠ some .EOF := fun h =>
      heof (Option.some.inj h)
    rw [rules, if_neg hhead]
    split
    · next heq => cases heq.symm.trans hdecl
    · next heq =>
      cases heq.symm.trans hdecl
      rw [ih]
      rfl

/-- **The parser reads what the grammar derives**, with the value that the grammar gives it. -/
theorem main_iff : main ts = .ok v ↔ ∃ us rest, ts = us ++ rest ∧ IsMain us v := by
  constructor
  · intro h
    unfold main at h
    split at h
    · split at h
      · cases h
      · next s ts' hs =>
        obtain ⟨rs, hrs, heq⟩ := map_ok h
        cases heq
        obtain ⟨us, rfl, hblock⟩ := cBlock_sound hs
        obtain ⟨vs, rest, rfl, hrules⟩ := rules_sound hrs
        exact ⟨us ++ vs, rest, by simp, .block hblock hrules⟩
    · obtain ⟨rs, hrs, heq⟩ := map_ok h
      cases heq
      obtain ⟨us, rest, rfl, hrules⟩ := rules_sound hrs
      exact ⟨us, rest, rfl, .rules hrules⟩
  · rintro ⟨us, rest, rfl, hmain⟩
    cases hmain with
    | @block us vs s rs hs hrs =>
      have hblock : cBlock (us ++ vs ++ rest) = .ok (s, vs ++ rest) := by
        rw [List.append_assoc]
        exact cBlock_complete hs
      cases hs with
      | @startc us code hcode =>
        have hhead : (Token.STARTC :: us ++ vs ++ rest).head? = some .STARTC := rfl
        rw [main, if_pos hhead, hblock]
        dsimp only
        rw [rules_complete hrs]
        rfl
    | rules hrs =>
      obtain ⟨t, vs, rfl, -, hne⟩ := hrs.head
      have hhead : (t :: vs ++ rest).head? ≠ some .STARTC := fun h => hne (Option.some.inj h)
      rw [main, if_neg hhead, rules_complete hrs]
      rfl

end Files

end CStrider.Text
