import CStrider.Serial.Model
import Mathlib.Data.List.Find
import Mathlib.Data.List.TakeWhile

/-!
# Strings in memory and in the file

A string is where its bytes and a zero are, and depends on no other memory. What `serial_char_str`
writes is what `deserial_char_str` reads, whatever comes behind it, as long as the length is an
`int`; and the name of a symbol leads to the entry of that name.
-/

namespace CStrider.Serial

open Mapping (Ptr)
open Registry (Symbols)
open Traversal

variable {m m' : Ptr → Option Ptr} {n : Nat} {q : Ptr} {bs rest : List UInt8}

/-! ## In memory -/

theorem charsAt_facts (h : charsAt m n q = some bs) : 0 ∉ bs ∧ bs.length < n := by
  induction n generalizing q bs with
  | zero => cases h
  | succ n ih =>
    simp only [charsAt] at h
    split at h
    · cases h
    · split at h
      · cases h
        exact ⟨List.not_mem_nil, Nat.succ_pos n⟩
      · next v hv hne =>
        obtain ⟨cs, hcs, rfl⟩ := Option.map_eq_some_iff.mp h
        obtain ⟨hzero, hlen⟩ := ih hcs
        refine ⟨fun hmem => ?_, Nat.succ_lt_succ hlen⟩
        rcases List.mem_cons.mp hmem with h0 | hmem
        · exact hne h0.symm
        · exact hzero hmem

theorem charsAt_congr (h : charsAt m n q = some bs)
    (hm : ∀ y, (Span.mk q (bs.length + 1)).Has y → m' y = m y) : charsAt m' n q = some bs := by
  induction n generalizing q bs with
  | zero => cases h
  | succ n ih =>
    have hq : m' q = m q := hm q (Span.has_start (s := ⟨q, _⟩) (Nat.succ_pos _))
    simp only [charsAt, hq] at h ⊢
    split at h
    · cases h
    · next v hv =>
      split at h
      · next h0 =>
        rw [if_pos h0]
        exact h
      · next hne =>
        obtain ⟨cs, hcs, rfl⟩ := Option.map_eq_some_iff.mp h
        rw [if_neg hne, ih hcs]
        · rfl
        · intro y hy
          refine hm y ⟨?_, ?_⟩
          · exact (Nat.le_succ q).trans hy.1
          · have hlt := hy.2
            simp only [List.length_cons] at hlt ⊢
            omega

/-- The bytes of a string and a zero are that string. -/
theorem charsAt_of_bytes (hzero : 0 ∉ bs) (hlen : bs.length < n)
    (hm : ∀ i b, (bs ++ [0])[i]? = some b → m (q + i) = some b.toNat) :
    charsAt m n q = some bs := by
  induction n generalizing q bs with
  | zero => cases hlen
  | succ n ih =>
    cases bs with
    | nil =>
      have hq : m q = some 0 := hm 0 0 rfl
      simp only [charsAt, hq]
      rfl
    | cons b bs =>
      have hq : m q = some b.toNat := hm 0 b rfl
      have hb : UInt8.ofNat b.toNat = b := UInt8.ofNat_toNat
      have hne : b ≠ 0 := fun h0 => hzero (h0 ▸ List.mem_cons_self)
      have hrest : charsAt m n (q + 1) = some bs := by
        apply ih
        · exact fun h0 => hzero (List.mem_cons_of_mem _ h0)
        · exact Nat.lt_of_succ_lt_succ hlen
        · intro i c hc
          rw [Nat.add_assoc, Nat.add_comm 1 i]
          exact hm (i + 1) c hc
      simp only [charsAt, hq, hb, if_neg hne, hrest, Option.map_some]

theorem stringAt_putBytes (hzero : 0 ∉ bs) (hlen : bs.length < 2 ^ 64) :
    stringAt (putBytes m q (bs ++ [0])) q = some bs := by
  apply charsAt_of_bytes hzero hlen
  intro i b hb
  have hi : i < (bs ++ [0]).length := (List.getElem?_eq_some_iff.mp hb).1
  have hspan : (Span.mk q (bs ++ [0]).length).Has (q + i) :=
    ⟨Nat.le_add_right _ _, Nat.add_lt_add_left hi q⟩
  rw [putBytes, if_pos hspan, Nat.add_sub_cancel_left, hb]
  rfl

/-- What is put into a block changes nothing else. -/
theorem putBytes_putBlock {content : Ptr → Ptr} {b : Span} {y : Ptr} (hbs : bs.length = b.len)
    (hy : ¬ b.Has y) : putBytes (putBlock content m b) b.start bs y = m y := by
  rw [putBytes, hbs, if_neg hy, putBlock, if_neg hy]

/-! ## In the file -/

theorem toSizeT_toInt (h : n < 2 ^ 31) : toSizeT (toInt n) = n := by
  have hint : toInt n = n := Int.bmod_eq_of_le (by omega) (by omega)
  have hmod : (n : Int) % 2 ^ 64 = n := Int.emod_eq_of_lt (by omega) (by omega)
  rw [hint]
  unfold toSizeT
  rw [hmod, Int.toNat_natCast]

theorem charStr_short (h : bs.length + 1 < 2 ^ 31) :
    charStr bs = some (wordBytes 4 (bs.length + 1) ++ (bs ++ [0])) := by
  have hall : (bs ++ [0]).take (bs.length + 1) = bs ++ [0] := by
    rw [← List.length_singleton (a := (0 : UInt8)), ← List.length_append, List.take_length]
  simp only [charStr, toSizeT_toInt h, Nat.le_refl, if_true, hall]

theorem fread_append {s : Reading} (hs : s.base.world.own = bs ++ rest) (hn : bs.length = n) :
    s.fread n = (bs, s.setFile rest) := by
  subst hn
  simp [Reading.fread, hs, Reading.setFile]

theorem freadWord_append {s : Reading} {v w : Nat}
    (hs : s.base.world.own = wordBytes n w ++ rest) :
    s.freadWord n v = (bytesWord (wordBytes n w), s.setFile rest) := by
  have hrest : (wordBytes n v).drop (wordBytes n w).length = [] := by
    rw [length_wordBytes, List.drop_eq_nil_iff, length_wordBytes]
  rw [Reading.freadWord, fread_append hs (length_wordBytes n w)]
  dsimp only
  rw [hrest, List.append_nil]

/-- `deserial_char_str` behind `serial_char_str`. -/
theorem deserialCharStr_append {A : Allocator} {s : Reading} (h : bs.length + 1 < 2 ^ 31)
    (hs : s.base.world.own = wordBytes 4 (bs.length + 1) ++ (bs ++ [0]) ++ rest) {b : Span}
    (hb : b = ⟨A.malloc s.blocks (bs.length + 1), bs.length + 1⟩) :
    s.deserialCharStr A = (b, { (s.setFile rest).setMem
      (putBytes (putBlock A.content s.base.world.mem b) b.start (bs ++ [0])) with
        blocks := b :: s.blocks }) := by
  have hword : bytesWord (wordBytes 4 (bs.length + 1)) = bs.length + 1 :=
    bytesWord_of_lt (h.trans (by decide))
  have hlen : (bs ++ [0]).length = bs.length + 1 := by
    rw [List.length_append, List.length_singleton]
  rw [List.append_assoc] at hs
  rw [Reading.deserialCharStr, freadWord_append hs, hword]
  dsimp only
  rw [toSizeT_toInt h, Reading.freadBlock]
  have hown : ((s.setFile (bs ++ [0] ++ rest)).malloc A (bs.length + 1)).2.base.world.own =
      bs ++ [0] ++ rest := rfl
  rw [fread_append hown hlen]
  subst hb
  rfl

/-! ## Names -/

/-- Names have no zero in them. -/
def Named (symbols : Symbols) : Prop :=
  ∀ e ∈ symbols.nameToAddr, 0 ∉ e.name.toUTF8.data.toList

theorem cString_name {name : String} (h : 0 ∉ name.toUTF8.data.toList) :
    cString name = name.toUTF8.data.toList := by
  rw [cString, upToZero, List.takeWhile_eq_self_iff]
  intro b hb
  simpa using fun h0 : b = 0 => h (h0 ▸ hb)

theorem lookupChars_cString {symbols : Symbols} {name : String} (hs : Named symbols)
    (h : 0 ∉ name.toUTF8.data.toList) :
    lookupChars symbols (cString name) = symbols.lookupKey name := by
  have hfind : (symbols.nameToAddr.find? fun e => cString e.name = cString name) =
      symbols.findName name := by
    apply List.find?_congr
    intro e he
    rw [decide_eq_decide, cString_name h, cString_name (hs e he)]
    constructor
    · intro heq
      apply String.toByteArray_inj.mp
      apply ByteArray.ext
      exact Array.toList_inj.mp heq
    · intro heq
      rw [heq]
  cases hname : symbols.findName name with
  | none => simp only [lookupChars, Symbols.lookupKey, hfind, hname]
  | some e => simp only [lookupChars, Symbols.lookupKey, hfind, hname]

end CStrider.Serial
