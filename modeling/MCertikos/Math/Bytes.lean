/-
# Byte arrays with little-endian words

A fixed-length array of bytes, read and written as 32-bit little-endian words or as single bits.
-/

import Mathlib.Algebra.Ring.Nat
import Mathlib.Data.List.Basic
import Mathlib.Data.Nat.Notation
import Mathlib.Tactic.Common

namespace MCertikos.Math

abbrev Bytes (n : ℕ) := Fin n → BitVec 8

namespace Bytes

variable {n : ℕ}

def byte (b : Bytes n) (j : ℕ) : BitVec 8 := if h : j < n then b ⟨j, h⟩ else 0

def wordByte (w : BitVec 32) (k : ℕ) : BitVec 8 := w.extractLsb' (8 * k) 8

def word (b : Bytes n) (i : ℕ) : BitVec 32 :=
  b.byte (4 * i + 3) ++ b.byte (4 * i + 2) ++ b.byte (4 * i + 1) ++ b.byte (4 * i)

def setWord (b : Bytes n) (i : ℕ) (w : BitVec 32) : Bytes n :=
  fun j => if j.val / 4 = i then wordByte w (j.val % 4) else b j

variable {b : Bytes n} {w : BitVec 32}

theorem byte_setWord_same {i k : ℕ} (hk : k < 4) (hi : 4 * i + 4 ≤ n) :
    (b.setWord i w).byte (4 * i + k) = wordByte w k := by
  have hlt : 4 * i + k < n := by omega
  have hdiv : (4 * i + k) / 4 = i := by omega
  have hmod : (4 * i + k) % 4 = k := by omega
  simp [byte, setWord, hlt, hdiv, hmod]

theorem byte_setWord_ne {i i' k : ℕ} (hk : k < 4) (hne : i' ≠ i) :
    (b.setWord i w).byte (4 * i' + k) = b.byte (4 * i' + k) := by
  have hdiv : (4 * i' + k) / 4 = i' := by omega
  simp [byte, setWord, hdiv, hne]

theorem append_wordByte (w : BitVec 32) :
    wordByte w 3 ++ wordByte w 2 ++ wordByte w 1 ++ wordByte w 0 = w := by
  ext k hk
  simp only [wordByte, BitVec.getElem_append, BitVec.getElem_extractLsb']
  grind

@[simp] theorem word_setWord {i : ℕ} (hi : 4 * i + 4 ≤ n) : (b.setWord i w).word i = w := by
  have hlow : (b.setWord i w).byte (4 * i) = wordByte w 0 :=
    byte_setWord_same (k := 0) (by omega) hi
  rw [word, byte_setWord_same (by omega) hi, byte_setWord_same (by omega) hi,
    byte_setWord_same (by omega) hi, hlow, append_wordByte]

theorem word_setWord_of_ne {i i' : ℕ} (hne : i' ≠ i) : (b.setWord i w).word i' = b.word i' := by
  have hlow : (b.setWord i w).byte (4 * i') = b.byte (4 * i') :=
    byte_setWord_ne (k := 0) (by omega) hne
  rw [word, byte_setWord_ne (by omega) hne, byte_setWord_ne (by omega) hne,
    byte_setWord_ne (by omega) hne, hlow, word]

def setWords (b : Bytes n) (first : ℕ) (f : ℕ → BitVec 32) : ℕ → Bytes n
  | 0 => b
  | count + 1 => (b.setWords first f count).setWord (first + count) (f count)

variable {f : ℕ → BitVec 32}

theorem word_setWords {first count i : ℕ} (hi : i < count) (hn : 4 * (first + count) ≤ n) :
    (b.setWords first f count).word (first + i) = f i := by
  induction count with
  | zero => omega
  | succ count ih =>
    by_cases heq : i = count
    · subst heq
      exact word_setWord (by omega)
    · rw [setWords, word_setWord_of_ne (by omega)]
      exact ih (by omega) (by omega)

theorem word_setWords_of_lt {first count i : ℕ} (hi : i < first) :
    (b.setWords first f count).word i = b.word i := by
  induction count with
  | zero => rfl
  | succ count ih => rw [setWords, word_setWord_of_ne (by omega), ih]

theorem word_setWords_of_le {first count i : ℕ} (hi : first + count ≤ i) :
    (b.setWords first f count).word i = b.word i := by
  induction count with
  | zero => rfl
  | succ count ih => rw [setWords, word_setWord_of_ne (by omega), ih (by omega)]

@[simp] theorem word_zero (i : ℕ) : word (fun _ => 0 : Bytes n) i = 0 := by
  have hbyte : ∀ j, byte (fun _ => 0 : Bytes n) j = 0 := by
    intro j
    rw [byte, dite_eq_ite, ite_self]
  rw [word, hbyte, hbyte, hbyte, hbyte]
  rfl

def memmove (b : Bytes n) (first m : ℕ) (src : ℕ → BitVec 8) : Bytes n :=
  fun j => if first ≤ j.val ∧ j.val < first + m then src (j.val - first) else b j

/-! ## Bits -/

def bitMask (i : ℕ) : BitVec 8 := 1#8 <<< (i % 8)

def setByte (b : Bytes n) (j : ℕ) (value : BitVec 8) : Bytes n :=
  fun k => if k.val = j then value else b k

def testBit (b : Bytes n) (i : ℕ) : Bool := b.byte (i / 8) &&& bitMask i != 0

def orBit (b : Bytes n) (i : ℕ) : Bytes n := b.setByte (i / 8) (b.byte (i / 8) ||| bitMask i)

def clearBit (b : Bytes n) (i : ℕ) : Bytes n :=
  b.setByte (i / 8) (b.byte (i / 8) &&& ~~~ bitMask i)

theorem byte_setByte {j : ℕ} {value : BitVec 8} (hj : j < n) (k : ℕ) :
    (b.setByte j value).byte k = if k = j then value else b.byte k := by
  by_cases hk : k = j
  · subst hk
    simp [byte, setByte, hj]
  · simp [byte, setByte, hk]

theorem testBit_eq_getLsbD (b : Bytes n) (i : ℕ) :
    b.testBit i = (b.byte (i / 8)).getLsbD (i % 8) := by
  have hmask : BitVec.twoPow 8 (i % 8) ≠ 0#8 := by
    have hlt : i % 8 < 8 := Nat.mod_lt _ (by decide)
    generalize i % 8 = k at hlt
    revert hlt k
    decide
  rw [testBit, show bitMask i = BitVec.twoPow 8 (i % 8) from rfl, BitVec.and_twoPow]
  by_cases hbit : (b.byte (i / 8)).getLsbD (i % 8) = true
  · simp [hbit, hmask]
  · simp [hbit]

theorem getLsbD_bitMask (i j : ℕ) : (bitMask i).getLsbD j = decide (j = i % 8) := by
  have hlt : i % 8 < 8 := Nat.mod_lt _ (by decide)
  rw [show bitMask i = BitVec.twoPow 8 (i % 8) from rfl, BitVec.getLsbD_twoPow]
  grind

theorem testBit_orBit {i : ℕ} (hi : i < 8 * n) (j : ℕ) :
    (b.orBit i).testBit j = (b.testBit j || decide (j = i)) := by
  rw [testBit_eq_getLsbD, testBit_eq_getLsbD, orBit, byte_setByte (by omega)]
  by_cases hbyte : j / 8 = i / 8
  · rw [if_pos hbyte, BitVec.getLsbD_or, getLsbD_bitMask, hbyte]
    congr 1
    rw [decide_eq_decide]
    omega
  · have hne : j ≠ i := fun h => hbyte (h ▸ rfl)
    simp [hbyte, hne]

theorem testBit_clearBit {i : ℕ} (hi : i < 8 * n) (j : ℕ) :
    (b.clearBit i).testBit j = (b.testBit j && decide (j ≠ i)) := by
  have hj : j % 8 < 8 := Nat.mod_lt _ (by decide)
  rw [testBit_eq_getLsbD, testBit_eq_getLsbD, clearBit, byte_setByte (by omega)]
  by_cases hbyte : j / 8 = i / 8
  · rw [if_pos hbyte, BitVec.getLsbD_and, BitVec.getLsbD_not, getLsbD_bitMask, hbyte]
    have hiff : j % 8 = i % 8 ↔ j = i := by omega
    simp [hj, hiff]
  · have hne : j ≠ i := fun h => hbyte (h ▸ rfl)
    simp [hbyte, hne]

end Bytes

end MCertikos.Math
