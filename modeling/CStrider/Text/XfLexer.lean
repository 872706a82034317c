import CStrider.Lib.Lexing
import CStrider.Text.Identifiers

/-!
# The tokens of transformation rules (`tools/xflexer.mll`, `lex_func` of `tools/xflang.ml`)

A file of rules has names and paths, and C code between braces. The lexer is in one of two states,
and each token says in which state the next one is read (`code_state`): in code every character is a
token, and the braces are counted.
-/

namespace CStrider.Text

open Lexing (Rule literal ident after anyOne best munch munch_eq length_lt_of_munch Ends ends_cons
  ident_append ident_ne after_append eq_of_prefix literal_ne literal_lt literal_append)

/-! ## The lexer -/

inductive Token where
  | STARTC | ENDC
  | XFORM | INIT | ASSERT | DOT | COMMA | COLON
  | STRUCT (name : String)
  | UNION (name : String)
  | TYPEDEF (name : String)
  | ENUM (name : String)
  | NAME (name : String)
  | CCHAR (c : Char)
  | EOF
  deriving DecidableEq, Repr

/-- `code_state`. -/
inductive CodeState where
  | XFCode
  | CCode (pcount : Nat)

/-- What a rule of `xftoken` does. -/
inductive Lexeme where
  | token (t : Token) (st : CodeState)
  | failwith (e : String)
  | skip

def nameStart (c : Char) : Bool := c = '$' || c = '_' || c.isAlpha

/-- The characters of the names of types. -/
def typeChar (c : Char) : Bool := nameStart c || c.isDigit

/-- The keys of variables are names, too. -/
def nameChar (c : Char) : Bool := typeChar c || c = '#' || c = '/' || c = '@' || c = '.'

def fixedRule (w : Str) (t : Token) (st : CodeState) : Rule Char Lexeme :=
  ⟨literal w, fun _ => .token t st⟩

def typeRule (keyword : Str) (t : String → Token) : Rule Char Lexeme :=
  ⟨after keyword (ident nameStart typeChar),
    fun w => .token (t (String.ofList (w.drop keyword.length))) .XFCode⟩

/-- `xftoken`, but for its rule for the end of the file. -/
def xftokenRules : List (Rule Char Lexeme) :=
  [fixedRule ['{'] .STARTC (.CCode 1),
    ⟨literal ['}'], fun _ => .failwith "unexpected"⟩,
    fixedRule ['-', '>'] .XFORM .XFCode,
    fixedRule ['I', 'N', 'I', 'T'] .INIT .XFCode,
    fixedRule ['A', 'S', 'S', 'E', 'R', 'T'] .ASSERT .XFCode,
    fixedRule ['.'] .DOT .XFCode,
    typeRule ['s', 't', 'r', 'u', 'c', 't', ' '] .STRUCT,
    typeRule ['u', 'n', 'i', 'o', 'n', ' '] .UNION,
    typeRule ['t', 'y', 'p', 'e', 'd', 'e', 'f', ' '] .TYPEDEF,
    typeRule ['e', 'n', 'u', 'm', ' '] .ENUM,
    fixedRule [','] .COMMA .XFCode,
    fixedRule [':'] .COLON .XFCode,
    ⟨ident nameStart nameChar, fun w => .token (.NAME (String.ofList w)) .XFCode⟩,
    ⟨anyOne, fun _ => .skip⟩]

def xftoken (s : Str) : Except String ((Token × CodeState) × Str) :=
  if s = [] then .ok ((.EOF, .XFCode), [])
  else
    match _h : munch xftokenRules s with
    | some (.token t st, s') => .ok ((t, st), s')
    | some (.failwith e, _) => .error e
    | some (.skip, s') => xftoken s'
    | none => .error "lexing: empty token"
termination_by s.length
decreasing_by exact length_lt_of_munch ‹_›

def ccode (pcount : Nat) : Str → Except String ((Token × CodeState) × Str)
  | [] => .error "lexing: empty token"
  | '{' :: s => .ok ((.CCHAR '{', .CCode (pcount + 1)), s)
  | '}' :: s =>
    if pcount = 1 then .ok ((.ENDC, .XFCode), s) else .ok ((.CCHAR '}', .CCode (pcount - 1)), s)
  | c :: s => .ok ((.CCHAR c, .CCode pcount), s)

/-- `lex_func`, with the tokenizer that is due. -/
def lexFunc : CodeState → Str → Except String ((Token × CodeState) × Str)
  | .XFCode => xftoken
  | .CCode pcount => ccode pcount

theorem length_lt_of_xftoken {s s' : Str} {t : Token} {st : CodeState}
    (h : xftoken s = .ok ((t, st), s')) (ht : t ≠ .EOF) : s'.length < s.length := by
  fun_induction xftoken s with
  | case1 =>
    cases h
    exact absurd rfl ht
  | case2 s _ t st s' hm =>
    cases h
    exact length_lt_of_munch hm
  | case3 => cases h
  | case4 s _ s₁ hm ih => exact Nat.lt_trans (ih h) (length_lt_of_munch hm)
  | case5 => cases h

theorem length_lt_of_ccode {pcount : Nat} {s s' : Str} {t : Token} {st : CodeState}
    (h : ccode pcount s = .ok ((t, st), s')) : s'.length < s.length := by
  unfold ccode at h
  split at h
  · cases h
  · cases h
    exact Nat.lt_succ_self _
  · split at h <;>
      · cases h
        exact Nat.lt_succ_self _
  · cases h
    exact Nat.lt_succ_self _

theorem length_lt_of_lexFunc {s s' : Str} {t : Token} {st st' : CodeState}
    (h : lexFunc st s = .ok ((t, st'), s')) (ht : t ≠ .EOF) : s'.length < s.length := by
  cases st with
  | XFCode => exact length_lt_of_xftoken h ht
  | CCode pcount => exact length_lt_of_ccode h

/-- The tokens up to `EOF`, or up to where the lexer fails. -/
def tokens (st : CodeState) (s : Str) : List Token × Option String :=
  match _h : lexFunc st s with
  | .error e => ([], some e)
  | .ok ((t, st'), s') =>
    if _ht : t = .EOF then ([t], none)
    else ((t :: (tokens st' s').1), (tokens st' s').2)
termination_by s.length
decreasing_by all_goals exact length_lt_of_lexFunc ‹_› ‹_›

/-! ## Tokens one by one -/

variable {s t w : Str} {st st' : CodeState} {tok : Token} {c : Char} {n : Nat}

/-- Tokens in front of others. -/
def withTokens (ts : List Token) (r : List Token × Option String) : List Token × Option String :=
  (ts ++ r.1, r.2)

abbrev withToken (tok : Token) (r : List Token × Option String) : List Token × Option String :=
  withTokens [tok] r

theorem withTokens_append (ts us : List Token) (r : List Token × Option String) :
    withTokens ts (withTokens us r) = withTokens (ts ++ us) r := by
  rw [withTokens, withTokens, withTokens, List.append_assoc]

theorem tokens_eq (st : CodeState) (s : Str) : tokens st s =
    match lexFunc st s with
    | .error e => ([], some e)
    | .ok ((tok, st'), t) =>
      if tok = .EOF then ([tok], none) else withToken tok (tokens st' t) := by
  rw [tokens]
  split
  · next h => rw [h]
  · next h => rw [h]; rfl

theorem tokens_of_lexFunc (h : lexFunc st s = .ok ((tok, st'), t)) (htok : tok ≠ .EOF) :
    tokens st s = withToken tok (tokens st' t) := by
  rw [tokens_eq, h]
  exact if_neg htok

theorem ne_nil_of_munch {l : Lexeme} (h : munch xftokenRules s = some (l, t)) : s ≠ [] := by
  rintro rfl
  exact absurd (length_lt_of_munch h) (Nat.not_lt_zero _)

theorem xftoken_token (h : munch xftokenRules s = some (.token tok st', t)) :
    xftoken s = .ok ((tok, st'), t) := by
  rw [xftoken, if_neg (ne_nil_of_munch h)]
  split
  · next heq =>
    cases heq.symm.trans h
    rfl
  · next heq => cases heq.symm.trans h
  · next heq => cases heq.symm.trans h
  · next heq => cases heq.symm.trans h

theorem xftoken_skip (h : munch xftokenRules s = some (.skip, t)) : xftoken s = xftoken t := by
  rw [xftoken, if_neg (ne_nil_of_munch h)]
  split
  · next heq => cases heq.symm.trans h
  · next heq => cases heq.symm.trans h
  · next heq =>
    cases heq.symm.trans h
    rfl
  · next heq => cases heq.symm.trans h

theorem tokens_eof : tokens .XFCode [] = ([.EOF], none) := by
  have heof : lexFunc .XFCode [] = .ok ((.EOF, .XFCode), []) := by
    show xftoken [] = _
    rw [xftoken, if_pos rfl]
  rw [tokens_eq, heof]
  rfl

theorem tokens_of_munch (h : munch xftokenRules s = some (.token tok st', t)) (htok : tok ≠ .EOF) :
    tokens .XFCode s = withToken tok (tokens st' t) :=
  tokens_of_lexFunc (xftoken_token h) htok

theorem tokens_of_skip (h : munch xftokenRules s = some (.skip, t)) :
    tokens .XFCode s = tokens .XFCode t := by
  rw [tokens_eq, tokens_eq, show lexFunc .XFCode s = _ from xftoken_skip h]
  rfl

/-! ## Which rule takes what -/

theorem tokens_fixed {t : Token}
    (h : (w, t, st) ∈ [(['{'], Token.STARTC, CodeState.CCode 1), (['-', '>'], .XFORM, .XFCode),
      (['.'], .DOT, .XFCode), ([','], .COMMA, .XFCode), ([':'], .COLON, .XFCode)]) :
    tokens .XFCode (w ++ s) = withToken t (tokens st s) := by
  have hlt : s.length < s.length + 1 + 1 := by omega
  simp only [List.mem_cons, Prod.mk.injEq, List.not_mem_nil, or_false] at h
  rcases h with ⟨rfl, rfl, rfl⟩ | ⟨rfl, rfl, rfl⟩ | ⟨rfl, rfl, rfl⟩ | ⟨rfl, rfl, rfl⟩ |
    ⟨rfl, rfl, rfl⟩
  all_goals
    refine tokens_of_munch ?_ (by simp)
    simp [munch, best, xftokenRules, fixedRule, typeRule, literal, after, ident, anyOne, nameStart,
      hlt]

theorem tokens_XFORM :
    tokens .XFCode (['-', '>'] ++ s) = withToken .XFORM (tokens .XFCode s) :=
  tokens_fixed (by simp)

theorem tokens_DOT : tokens .XFCode (['.'] ++ s) = withToken .DOT (tokens .XFCode s) :=
  tokens_fixed (by simp)

theorem tokens_COLON : tokens .XFCode ([':'] ++ s) = withToken .COLON (tokens .XFCode s) :=
  tokens_fixed (by simp)

theorem tokens_blank (h : c = ' ' ∨ c = '\n') : tokens .XFCode (c :: s) = tokens .XFCode s := by
  apply tokens_of_skip
  rcases h with rfl | rfl
  all_goals
    simp [munch, best, xftokenRules, fixedRule, typeRule, literal, after, ident, anyOne, nameStart]

/-- The name of a type. -/
structure TypeWord (w : Str) : Prop where
  start : ∃ c t, w = c :: t ∧ nameStart c = true
  rest : ∀ c ∈ w, typeChar c = true

theorem TypeWord.ident (h : TypeWord w) (hs : Ends typeChar s) :
    ident nameStart typeChar (w ++ s) = some w.length := by
  obtain ⟨c, t, rfl, hc⟩ := h.start
  exact ident_append hc (fun x hx => h.rest x (List.mem_cons_of_mem _ hx)) hs

/-- The keywords in front of the names of types. -/
def typeKeywords : List (Str × (String → Token)) :=
  [(['s', 't', 'r', 'u', 'c', 't', ' '], .STRUCT), (['u', 'n', 'i', 'o', 'n', ' '], .UNION),
    (['t', 'y', 'p', 'e', 'd', 'e', 'f', ' '], .TYPEDEF), (['e', 'n', 'u', 'm', ' '], .ENUM)]

/-- Next to the rule for a keyword, the rule for names has the longest match, which stops at the
blank. -/
theorem others_le_keyword {keyword : Str} {t : String → Token} (h : (keyword, t) ∈ typeKeywords) :
    (∀ n, t n ≠ .EOF) ∧ ∃ pre post, xftokenRules = pre ++ typeRule keyword t :: post ∧
      ∀ q ∈ pre ++ post, ∀ m, q.pattern (keyword ++ s) = some m → m ≤ keyword.length := by
  simp only [typeKeywords, List.mem_cons, Prod.mk.injEq, List.not_mem_nil, or_false] at h
  rcases h with ⟨rfl, rfl⟩ | ⟨rfl, rfl⟩ | ⟨rfl, rfl⟩ | ⟨rfl, rfl⟩
  case' inl => refine ⟨by simp, xftokenRules.take 6, xftokenRules.drop 7, rfl, ?_⟩
  case' inr.inl => refine ⟨by simp, xftokenRules.take 7, xftokenRules.drop 8, rfl, ?_⟩
  case' inr.inr.inl => refine ⟨by simp, xftokenRules.take 8, xftokenRules.drop 9, rfl, ?_⟩
  case' inr.inr.inr => refine ⟨by simp, xftokenRules.take 9, xftokenRules.drop 10, rfl, ?_⟩
  all_goals
    simp only [xftokenRules, List.take, List.drop, List.cons_append, List.nil_append,
      List.mem_cons, List.not_mem_nil, or_false]
    rintro q (rfl | rfl | rfl | rfl | rfl | rfl | rfl | rfl | rfl | rfl | rfl | rfl | rfl) m hm <;>
      cases hm
    -- the rule for names, and the one for any character
    · exact Nat.le_of_ble_eq_true rfl
    · exact Nat.le_of_ble_eq_true rfl

theorem tokens_type {keyword : Str} {t : String → Token} (h : (keyword, t) ∈ typeKeywords)
    (hw : TypeWord w) (hs : Ends typeChar s) :
    tokens .XFCode (keyword ++ w ++ s) = withToken (t (String.ofList w)) (tokens .XFCode s) := by
  obtain ⟨hne, pre, post, hrs, hothers⟩ := others_le_keyword (s := w ++ s) h
  rw [← List.append_assoc] at hothers
  have hr : (typeRule keyword t).pattern (keyword ++ w ++ s) = some (keyword ++ w).length := by
    rw [List.append_assoc, List.length_append]
    exact after_append (hw.ident hs)
  have hw0 : 0 < w.length := by
    obtain ⟨c, t, rfl, -⟩ := hw.start
    exact Nat.succ_pos _
  have hlt : keyword.length < (keyword ++ w).length := by
    rw [List.length_append]
    exact Nat.lt_add_of_pos_right hw0
  have hmunch := munch_eq hrs hr (List.append_ne_nil_of_right_ne_nil _ (List.length_pos_iff.mp hw0))
    (fun q hq m hm => Nat.lt_of_le_of_lt (hothers q (List.mem_append_left _ hq) m hm) hlt)
    (fun q hq m hm => Nat.le_trans (hothers q (List.mem_append_right _ hq) m hm) (Nat.le_of_lt hlt))
  rw [show (typeRule keyword t).action (keyword ++ w) = .token (t (String.ofList w)) .XFCode by
    simp [typeRule]] at hmunch
  exact tokens_of_munch hmunch (hne _)

/-! ### Names -/

/-- A word that the lexer takes for one. -/
structure Word (w : Str) : Prop where
  start : ∃ c t, w = c :: t ∧ nameStart c = true
  rest : ∀ c ∈ w, nameChar c = true

/-- A word that is not one of the two that the lexer has rules for. -/
structure Key (w : Str) : Prop where
  word : Word w
  ne_init : ['I', 'N', 'I', 'T'] ≠ w
  ne_assert : ['A', 'S', 'S', 'E', 'R', 'T'] ≠ w

/-- What stands behind a word does not go on with it, nor has it the name of a type. -/
structure Behind (s : Str) : Prop where
  ends : Ends nameChar s
  noName : ∀ c s', s = ' ' :: c :: s' → nameStart c = false

theorem behind_blank (h : nameStart c = false) : Behind (' ' :: c :: s) := by
  refine ⟨ends_cons rfl, fun d s' heq => ?_⟩
  cases heq
  exact h

theorem behind_of_ne_blank (h : nameChar c = false) (hc : c ≠ ' ') : Behind (c :: s) :=
  ⟨ends_cons h, fun _ _ heq => absurd (List.cons.inj heq).1 hc⟩

theorem Word.ident (h : Word w) (hs : Ends nameChar s) :
    ident nameStart nameChar (w ++ s) = some w.length := by
  obtain ⟨c, t, rfl, hc⟩ := h.start
  exact ident_append hc (fun x hx => h.rest x (List.mem_cons_of_mem _ hx)) hs

theorem after_keyword {keyword : Str} (hk : ∀ c ∈ keyword, nameChar c = true) (hw : Word w)
    (hs : Behind s) :
    after (keyword ++ [' ']) (Lexing.ident nameStart typeChar) (w ++ s) = none := by
  unfold after
  split
  · next hp =>
    obtain ⟨rfl, s', rfl⟩ := eq_of_prefix hk rfl hw.rest hs.ends hp
    have hsplit : keyword ++ ' ' :: s' = (keyword ++ [' ']) ++ s' := List.append_cons _ _ _
    rw [hsplit, List.drop_left]
    cases s' with
    | nil => rfl
    | cons c s' =>
      rw [ident_ne (hs.noName c s' rfl)]
      rfl
  · rfl

theorem ne_of_nameStart {d : Char} (hc : nameStart c = true) (hd : nameStart d = false) :
    d ≠ c := by
  rintro rfl
  exact Bool.false_ne_true (hd.symm.trans hc)

theorem tokens_name (hk : Key w) (hs : Behind s) :
    tokens .XFCode (w ++ s) = withToken (.NAME (String.ofList w)) (tokens .XFCode s) := by
  obtain ⟨hw, hinit, hassert⟩ := hk
  obtain ⟨c, t, rfl, hc⟩ := hw.start
  have hsymbol : ∀ {d : Char} {v : Str} {m : Nat}, nameStart d = false →
      literal (d :: v) (c :: t ++ s) = some m → m < (c :: t).length := by
    intro d v m hd hm
    rw [List.cons_append, literal_ne (ne_of_nameStart hc hd)] at hm
    cases hm
  have htype : ∀ (keyword : Str) {m : Nat}, (∀ c ∈ keyword, nameChar c = true) →
      after (keyword ++ [' ']) (Lexing.ident nameStart typeChar) (c :: t ++ s) = some m →
      m < (c :: t).length := by
    intro keyword m hk hm
    rw [after_keyword hk hw hs] at hm
    cases hm
  refine tokens_of_munch (munch_eq
    (show xftokenRules = xftokenRules.take 12 ++ _ :: xftokenRules.drop 13 from rfl)
    (hw.ident hs.ends) (List.cons_ne_nil c t) ?_ ?_) (by simp)
  · simp only [xftokenRules, List.take, List.mem_cons, List.not_mem_nil, or_false]
    rintro q (rfl | rfl | rfl | rfl | rfl | rfl | rfl | rfl | rfl | rfl | rfl | rfl) m hm
    · exact hsymbol rfl hm
    · exact hsymbol rfl hm
    · exact hsymbol rfl hm
    · exact literal_lt (List.all_eq_true.mp rfl) hs.ends hinit hm
    · exact literal_lt (List.all_eq_true.mp rfl) hs.ends hassert hm
    · exact hsymbol rfl hm
    · exact htype ['s', 't', 'r', 'u', 'c', 't'] (List.all_eq_true.mp rfl) hm
    · exact htype ['u', 'n', 'i', 'o', 'n'] (List.all_eq_true.mp rfl) hm
    · exact htype ['t', 'y', 'p', 'e', 'd', 'e', 'f'] (List.all_eq_true.mp rfl) hm
    · exact htype ['e', 'n', 'u', 'm'] (List.all_eq_true.mp rfl) hm
    · exact hsymbol rfl hm
    · exact hsymbol rfl hm
  · simp only [xftokenRules, List.drop, List.mem_cons, List.not_mem_nil, or_false]
    rintro q rfl m hm
    cases hm
    exact Nat.succ_le_succ (Nat.zero_le _)

/-- `INIT` is not taken for a name. -/
theorem tokens_INIT (hs : Ends nameChar s) :
    tokens .XFCode (['I', 'N', 'I', 'T'] ++ s) = withToken .INIT (tokens .XFCode s) := by
  have hword : literal ['I', 'N', 'I', 'T'] (['I', 'N', 'I', 'T'] ++ s) = some 4 := literal_append
  have hid : Lexing.ident nameStart nameChar (['I', 'N', 'I', 'T'] ++ s) = some 4 :=
    ident_append rfl (List.all_eq_true.mp rfl) hs
  refine tokens_of_munch (munch_eq
    (show xftokenRules = xftokenRules.take 3 ++ _ :: xftokenRules.drop 4 from rfl)
    hword (List.cons_ne_nil _ _) ?_ ?_) (by simp)
  · simp only [xftokenRules, List.take, List.mem_cons, List.not_mem_nil, or_false]
    rintro q (rfl | rfl | rfl) m hm <;> cases hm
  · simp only [xftokenRules, List.drop, List.mem_cons, List.not_mem_nil, or_false]
    rintro q (rfl | rfl | rfl | rfl | rfl | rfl | rfl | rfl | rfl | rfl) m hm
    · cases hm
    · cases hm
    · cases hm
    · cases hm
    · cases hm
    · cases hm
    · cases hm
    · cases hm
    · cases hid.symm.trans hm
      exact Nat.le_refl 4
    · cases hm
      decide

/-! ## Code -/

/-- The depth of braces behind a piece of code; `none` where it closes more than were open. -/
def depthAfter : Nat → Str → Option Nat
  | n, [] => some n
  | n, c :: s =>
    if c = '{' then depthAfter (n + 1) s
    else if c = '}' then if n = 0 then none else depthAfter (n - 1) s
    else depthAfter n s

/-- Every brace of the code has its partner in it. -/
def Balanced (code : Str) : Prop := depthAfter 0 code = some 0

theorem ccode_char (hleft : c ≠ '{') (hright : c ≠ '}') :
    lexFunc (.CCode n) (c :: s) = .ok ((.CCHAR c, .CCode n), s) := by
  show ccode n (c :: s) = _
  rw [ccode]
  · exact hleft
  · exact hright

theorem ccode_right :
    lexFunc (.CCode (n + 2)) ('}' :: s) = .ok ((.CCHAR '}', .CCode (n + 1)), s) := by
  show ccode (n + 2) ('}' :: s) = _
  rw [ccode, if_neg (Nat.succ_succ_ne_one n)]
  rfl

/-- Code goes through the lexer as it is, and the braces in it are counted. -/
theorem tokens_code {k : Nat} {code : Str} (h : depthAfter n code = some k) :
    tokens (.CCode (n + 1)) (code ++ s) =
      withTokens (code.map .CCHAR) (tokens (.CCode (k + 1)) s) := by
  induction code generalizing n with
  | nil =>
    cases h
    rfl
  | cons c code ih =>
    rw [depthAfter] at h
    rw [List.cons_append]
    by_cases hleft : c = '{'
    · subst hleft
      rw [if_pos rfl] at h
      have hlex : lexFunc (.CCode (n + 1)) ('{' :: (code ++ s)) =
          .ok ((.CCHAR '{', .CCode (n + 1 + 1)), code ++ s) := rfl
      rw [tokens_of_lexFunc hlex (by simp), ih h]
      rfl
    · rw [if_neg hleft] at h
      by_cases hright : c = '}'
      · subst hright
        rw [if_pos rfl] at h
        cases n with
        | zero => cases h
        | succ n =>
          rw [if_neg (Nat.succ_ne_zero n), Nat.add_sub_cancel] at h
          rw [tokens_of_lexFunc ccode_right (by simp), ih h]
          rfl
      · rw [if_neg hright] at h
        rw [tokens_of_lexFunc (ccode_char hleft hright) (by simp), ih h]
        rfl

theorem tokens_ENDC : tokens (.CCode 1) ('}' :: s) = withToken .ENDC (tokens .XFCode s) := by
  have hlex : lexFunc (.CCode 1) ('}' :: s) = .ok ((.ENDC, .XFCode), s) := rfl
  exact tokens_of_lexFunc hlex (by simp)

/-- A block of code. -/
theorem tokens_block {code : Str} (h : Balanced code) :
    tokens .XFCode ('{' :: code ++ '}' :: s) =
      withToken .STARTC (withTokens (code.map .CCHAR) (withToken .ENDC (tokens .XFCode s))) := by
  rw [List.cons_append, ← List.singleton_append, tokens_fixed List.mem_cons_self, tokens_code h,
    tokens_ENDC]

/-- How the lexer goes through a block of code: up to the brace that closes it, or, where there is
none, to its failure at the end. -/
inductive CodeRead (n : Nat) (s : Str) : Prop
  | closed (code s' : Str) : s = code ++ '}' :: s' → depthAfter n code = some 0 →
    tokens (.CCode (n + 1)) s =
      withTokens (code.map .CCHAR) (withToken .ENDC (tokens .XFCode s')) → CodeRead n s
  | unclosed : tokens (.CCode (n + 1)) s = (s.map .CCHAR, some "lexing: empty token") → CodeRead n s

theorem codeRead (n : Nat) (s : Str) : CodeRead n s := by
  induction s generalizing n with
  | nil =>
    refine .unclosed ?_
    rw [tokens_eq]
    rfl
  | cons c s ih =>
    -- a character that is passed on, and the depth behind it
    have pass {m : Nat} (hlex : lexFunc (.CCode (n + 1)) (c :: s) =
        .ok ((.CCHAR c, .CCode (m + 1)), s))
        (hdepth : ∀ code, depthAfter n (c :: code) = depthAfter m code) : CodeRead n (c :: s) := by
      have htoken := tokens_of_lexFunc hlex (by simp)
      cases ih m with
      | closed code s' hs hcode htokens =>
        refine .closed (c :: code) s' (congrArg (c :: ·) hs) ((hdepth code).trans hcode) ?_
        rw [htoken, htokens]
        rfl
      | unclosed htokens =>
        refine .unclosed ?_
        rw [htoken, htokens]
        rfl
    by_cases hleft : c = '{'
    · subst hleft
      have hlex : lexFunc (.CCode (n + 1)) ('{' :: s) = .ok ((.CCHAR '{', .CCode (n + 1 + 1)), s) :=
        rfl
      exact pass hlex fun code => by rw [depthAfter, if_pos rfl]
    · by_cases hright : c = '}'
      · subst hright
        cases n with
        | zero => exact .closed [] s rfl rfl tokens_ENDC
        | succ n =>
          refine pass ccode_right fun code => ?_
          rw [depthAfter, if_neg hleft, if_pos rfl, if_neg (Nat.succ_ne_zero n),
            Nat.add_sub_cancel]
      · exact pass (ccode_char hleft hright) fun code => by
          rw [depthAfter, if_neg hleft, if_neg hright]

/-! ## The tokens of any text -/

/-- What the lexer reads outside of code. -/
def Token.Admissible : Token → Prop
  | .STRUCT name | .UNION name | .TYPEDEF name | .ENUM name => TypeWord name.toList
  | .NAME name => Key name.toList
  | .STARTC | .ENDC | .CCHAR _ => False
  | .XFORM | .INIT | .ASSERT | .DOT | .COMMA | .COLON | .EOF => True

/-- The tokens of a text, up to the end or to a failure. -/
inductive Lexed : List Token → Prop
  | nil : Lexed []
  | cons {t ts} : t.Admissible → Lexed ts → Lexed (t :: ts)
  | block {code ts} : Balanced code → Lexed ts → Lexed (.STARTC :: (code.map .CCHAR ++ .ENDC :: ts))
  | unclosed {code : Str} : Lexed (.STARTC :: code.map .CCHAR)

theorem typeWord_of_after {keyword : Str}
    (h : after keyword (ident nameStart typeChar) s = some n) :
    TypeWord ((s.take n).drop keyword.length) := by
  obtain ⟨m, hm, heq⟩ := Lexing.after_sound h
  obtain ⟨c, t, htake, hc, ht⟩ := Lexing.ident_sound hm
  rw [heq, htake]
  refine ⟨⟨c, t, rfl, hc⟩, fun x hx => ?_⟩
  rcases List.mem_cons.mp hx with rfl | hx
  · exact Bool.or_eq_true_iff.mpr (.inl hc)
  · exact ht x hx

theorem word_of_ident (h : ident nameStart nameChar s = some n) : Word (s.take n) := by
  obtain ⟨c, t, htake, hc, ht⟩ := Lexing.ident_sound h
  rw [htake]
  refine ⟨⟨c, t, rfl, hc⟩, fun x hx => ?_⟩
  rcases List.mem_cons.mp hx with rfl | hx
  · simp [nameChar, typeChar, hc]
  · exact ht x hx

/-- A match that is one of the lexer's words is a match of the rule for that word. -/
theorem ne_take_of_literal (hn : n ≤ s.length) (h : ∀ m, literal w s = some m → m < n) :
    w ≠ s.take n := by
  rintro rfl
  have hlt := h _ (if_pos (List.take_prefix n s))
  rw [List.length_take_of_le hn] at hlt
  exact Nat.lt_irrefl n hlt

/-- Each rule gives what it should, and the one for names leaves the lexer's words to theirs. -/
theorem admissible_of_munch (h : munch xftokenRules s = some (.token tok st, t)) :
    tok.Admissible ∧ st = .XFCode ∨ tok = .STARTC ∧ st = .CCode 1 := by
  obtain ⟨i, r, n, hi, hr, hact, hless⟩ := Lexing.munch_sound h
  have htype : ∀ {keyword : Str} {k : String → Token}, r = typeRule keyword k →
      (∀ w, (k (String.ofList w)).Admissible ↔ TypeWord w) → tok.Admissible ∧ st = .XFCode := by
    rintro keyword k rfl hk
    cases hact
    exact ⟨(hk _).mpr (typeWord_of_after hr), rfl⟩
  match i with
  | 0 =>
    cases hi
    cases hact
    exact .inr ⟨rfl, rfl⟩
  | 1 =>
    cases hi
    cases hact
  | 2 | 3 | 4 | 5 | 10 | 11 =>
    cases hi
    cases hact
    exact .inl ⟨trivial, rfl⟩
  | 6 | 7 | 8 | 9 =>
    cases hi
    exact .inl (htype rfl fun w => by rw [Token.Admissible, String.toList_ofList])
  | 12 =>
    cases hi
    cases hact
    have hle := Lexing.le_length_of_ident hr
    refine .inl ⟨?_, rfl⟩
    rw [Token.Admissible, String.toList_ofList]
    exact ⟨word_of_ident hr, ne_take_of_literal hle (hless 3 _ (by decide) rfl),
      ne_take_of_literal hle (hless 4 _ (by decide) rfl)⟩
  | 13 =>
    cases hi
    cases hact
  | i + 14 => cases hi

theorem admissible_of_xftoken (h : xftoken s = .ok ((tok, st), t)) :
    tok.Admissible ∧ st = .XFCode ∨ tok = .STARTC ∧ st = .CCode 1 := by
  fun_induction xftoken s with
  | case1 =>
    cases h
    exact .inl ⟨trivial, rfl⟩
  | case2 s _ tok st t hm =>
    cases h
    exact admissible_of_munch hm
  | case3 => cases h
  | case4 s _ s₁ hm ih => exact ih h
  | case5 => cases h

/-- The text is shorter behind each token. -/
theorem lexed (s : Str) : Lexed (tokens .XFCode s).1 := by
  induction hn : s.length using Nat.strongRecOn generalizing s with
  | ind n ih =>
    subst hn
    rw [tokens_eq]
    split
    · exact .nil
    · next tok st t hlex =>
      by_cases heof : tok = .EOF
      · subst heof
        rw [if_pos rfl]
        exact .cons trivial .nil
      · rw [if_neg heof]
        have hlt := length_lt_of_lexFunc hlex heof
        rcases admissible_of_xftoken hlex with ⟨htok, rfl⟩ | ⟨rfl, rfl⟩
        · exact .cons htok (ih _ hlt t rfl)
        · cases codeRead 0 t with
          | closed code t' ht hcode htokens =>
            rw [htokens]
            refine .block hcode (ih _ (Nat.lt_trans ?_ hlt) t' rfl)
            rw [ht, List.length_append, List.length_cons]
            omega
          | unclosed htokens =>
            rw [htokens]
            exact .unclosed

end CStrider.Text
