import Mathlib.Data.List.Basic

/-!
# C identifiers

The tools pass the names of program elements around as strings and put them into other strings. What
they do with these depends on the characters that an identifier does not have.
-/

namespace CStrider.Text

/-- An OCaml string. -/
abbrev Str := List Char

/-- A letter or an underscore. -/
def isIdentStart (c : Char) : Bool := c.isAlpha || c = '_'

def isIdentChar (c : Char) : Bool := c.isAlphanum || c = '_'

structure CIdentifier where
  start : Char
  rest : Str
  isStart : isIdentStart start = true
  isRest : ∀ c ∈ rest, isIdentChar c = true

def CIdentifier.text (i : CIdentifier) : Str := i.start :: i.rest

namespace CIdentifier

theorem text_ne_nil (i : CIdentifier) : i.text ≠ [] := List.cons_ne_nil _ _

theorem isIdentChar_of_mem (i : CIdentifier) {c : Char} (h : c ∈ i.text) :
    isIdentChar c = true := by
  rcases List.mem_cons.mp h with rfl | h
  · have hstart := i.isStart
    simp only [isIdentStart, isIdentChar, Char.isAlphanum, Bool.or_eq_true] at hstart ⊢
    exact hstart.imp_left .inl
  · exact i.isRest c h

theorem notMem_text (i : CIdentifier) {d : Char} (h : isIdentChar d = false) : d ∉ i.text :=
  fun hd => Bool.false_ne_true (h.symm.trans (i.isIdentChar_of_mem hd))

end CIdentifier

end CStrider.Text
