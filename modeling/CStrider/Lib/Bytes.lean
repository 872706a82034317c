import Mathlib.Data.List.Basic
import Mathlib.Tactic.Ring

/-!
# Words and strings in byte streams

A word of `n` bytes is written with its lowest byte first, and read as the number that it is
(`bytesWord_of_lt`). Strings end at a zero byte (`upToZero`).
-/

namespace CStrider

/-- The lowest `n` bytes of a number. -/
def wordBytes : Nat → Nat → List UInt8
  | 0, _ => []
  | n + 1, v => UInt8.ofNat v :: wordBytes n (v / 256)

/-- The number that the bytes are. -/
def bytesWord : List UInt8 → Nat
  | [] => 0
  | b :: bs => b.toNat + 256 * bytesWord bs

/-- The bytes in front of the first zero. -/
def upToZero (bs : List UInt8) : List UInt8 := bs.takeWhile (· ≠ 0)

@[simp] theorem length_wordBytes (n v : Nat) : (wordBytes n v).length = n := by
  induction n generalizing v with
  | zero => rfl
  | succ n ih => simp only [wordBytes, List.length_cons, ih]

/-- What is read of a word that was written. -/
theorem bytesWord_wordBytes (n v : Nat) : bytesWord (wordBytes n v) = v % 256 ^ n := by
  induction n generalizing v with
  | zero => simp only [wordBytes, bytesWord, pow_zero, Nat.mod_one]
  | succ n ih =>
    simp only [wordBytes, bytesWord, ih]
    calc (UInt8.ofNat v).toNat + 256 * (v / 256 % 256 ^ n)
        = v % 256 + 256 * (v / 256 % 256 ^ n) := rfl
      _ = v % (256 * 256 ^ n) := (Nat.mod_mul).symm
      _ = v % 256 ^ (n + 1) := by rw [pow_succ, Nat.mul_comm]

theorem bytesWord_of_lt {n v : Nat} (h : v < 256 ^ n) : bytesWord (wordBytes n v) = v := by
  rw [bytesWord_wordBytes, Nat.mod_eq_of_lt h]

end CStrider
