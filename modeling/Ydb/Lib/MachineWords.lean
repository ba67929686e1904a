import Mathlib.Algebra.Group.Int.Defs
import Mathlib.Algebra.Group.Nat.Defs
import Mathlib.Data.List.Basic

/-!
# Machine words

The value of a signed integer of 32 bits. A string of bytes read as a word of 64 bits,
the first byte least significant, and the bytes of a word; words and strings are
compared bit by bit.
-/

namespace Ydb.Lib

/-- What a signed integer of 32 bits holds after it is assigned. -/
def int4Value (x : Int) : Int := x.bmod (2 ^ 32)

theorem int4Value_of_lt {x : Int} (low : -2 ^ 31 ≤ x) (high : x < 2 ^ 31) : int4Value x = x :=
  Int.bmod_eq_of_le (by omega) (by omega)

/-- A bit of a string of bytes. Behind the end of the string all bits are clear. -/
def bitAt (bytes : List UInt8) (j : Nat) : Bool :=
  (bytes.getD (j / 8) 0).toBitVec.getLsbD (j % 8)

/-- The bytes as a word; those behind the eighth are lost. -/
def word : List UInt8 → BitVec 64
  | [] => 0
  | b :: bytes => b.toBitVec.setWidth 64 ||| (word bytes <<< 8)

/-- The eight bytes of a word. -/
def wordBytes (w : BitVec 64) : List UInt8 :=
  (List.range 8).map fun i => UInt8.ofBitVec ((w >>> (8 * i)).setWidth 8)

theorem bitAt_cons (b : UInt8) (bytes : List UInt8) (j : Nat) :
    bitAt (b :: bytes) j = if j < 8 then b.toBitVec.getLsbD j else bitAt bytes (j - 8) := by
  by_cases first : j < 8
  · simp [bitAt, Nat.div_eq_of_lt first, Nat.mod_eq_of_lt first, first]
  · have turn : j / 8 = (j - 8) / 8 + 1 := by omega
    have offset : j % 8 = (j - 8) % 8 := by omega
    simp [bitAt, turn, offset, first]

theorem getLsbD_word (bytes : List UInt8) (j : Nat) :
    (word bytes).getLsbD j = (decide (j < 64) && bitAt bytes j) := by
  induction bytes generalizing j with
  | nil => simp [word, bitAt]
  | cons b bytes ih =>
    rw [bitAt_cons]
    simp only [word, BitVec.getLsbD_or, BitVec.getLsbD_setWidth, BitVec.getLsbD_shiftLeft,
      ih]
    by_cases first : j < 8
    · have inside : j < 64 := by omega
      simp [first, inside]
    · have outside : b.toBitVec.getLsbD j = false := BitVec.getLsbD_of_ge _ _ (by omega)
      by_cases inside : j < 64
      · have shifted : j - 8 < 64 := by omega
        simp [first, inside, outside, shifted]
      · simp [first, inside, outside]

@[simp] theorem length_wordBytes (w : BitVec 64) : (wordBytes w).length = 8 := by simp [wordBytes]

theorem bitAt_wordBytes {w : BitVec 64} {j : Nat} (inside : j < 64) :
    bitAt (wordBytes w) j = w.getLsbD j := by
  have byte : j / 8 < 8 := by omega
  have bit : j % 8 < 8 := by omega
  simp [bitAt, wordBytes, byte, bit, Nat.div_add_mod]

/-- A word is read back from its bytes. -/
theorem word_wordBytes (w : BitVec 64) : word (wordBytes w) = w := by
  apply BitVec.eq_of_getLsbD_eq
  intro j inside
  rw [getLsbD_word, bitAt_wordBytes inside, decide_eq_true inside, Bool.true_and]

/-! ## Parts of a string -/

theorem bitAt_of_le {bytes : List UInt8} {j : Nat} (beyond : 8 * bytes.length ≤ j) :
    bitAt bytes j = false := by
  have outside : bytes.length ≤ j / 8 := by omega
  simp [bitAt, outside]

theorem bitAt_drop (bytes : List UInt8) (n j : Nat) : bitAt (bytes.drop n) j = bitAt bytes (8 * n + j) := by
  have byte : (8 * n + j) / 8 = n + j / 8 := by omega
  have bit : (8 * n + j) % 8 = j % 8 := by omega
  simp [bitAt, byte, bit]

theorem bitAt_take (bytes : List UInt8) (n j : Nat) :
    bitAt (bytes.take n) j = (decide (j < 8 * n) && bitAt bytes j) := by
  by_cases inside : j < 8 * n
  · have byte : j / 8 < n := by omega
    simp [bitAt, byte, inside]
  · have beyond : 8 * (bytes.take n).length ≤ j := by
      rw [List.length_take]
      omega
    simp [bitAt_of_le beyond, inside]

theorem bitAt_append (front back : List UInt8) (j : Nat) :
    bitAt (front ++ back) j =
      if j < 8 * front.length then bitAt front j else bitAt back (j - 8 * front.length) := by
  by_cases inside : j < 8 * front.length
  · have byte : j / 8 < front.length := by omega
    simp [bitAt, List.getElem?_append_left byte, byte, inside]
  · have byte : front.length ≤ j / 8 := by omega
    have place : (j - 8 * front.length) / 8 = j / 8 - front.length := by omega
    have bit : (j - 8 * front.length) % 8 = j % 8 := by omega
    simp [bitAt, List.getElem?_append_right byte, inside, place, bit]

theorem word_ext {bytes other : List UInt8} (same : ∀ j < 64, bitAt bytes j = bitAt other j) :
    word bytes = word other := by
  apply BitVec.eq_of_getLsbD_eq
  intro j inside
  rw [getLsbD_word, getLsbD_word, same j inside]

/-- Only eight bytes make up a word. -/
theorem word_take (bytes : List UInt8) : word (bytes.take 8) = word bytes := by
  apply word_ext
  intro j inside
  rw [bitAt_take, decide_eq_true (by omega), Bool.true_and]

theorem word_append (front back : List UInt8) :
    word (front ++ back) = word front ||| (word back <<< (8 * front.length)) := by
  apply BitVec.eq_of_getLsbD_eq
  intro j inside
  rw [getLsbD_word, BitVec.getLsbD_or, BitVec.getLsbD_shiftLeft, getLsbD_word, getLsbD_word, bitAt_append]
  by_cases first : j < 8 * front.length
  · simp [first, inside]
  · have none : bitAt front j = false := bitAt_of_le (by omega)
    have shifted : j - 8 * front.length < 64 := by omega
    simp [first, inside, none, shifted]

theorem word_drop {bytes : List UInt8} (short : bytes.length ≤ 8) (n : Nat) :
    word (bytes.drop n) = word bytes >>> (8 * n) := by
  apply BitVec.eq_of_getLsbD_eq
  intro j inside
  rw [getLsbD_word, BitVec.getLsbD_ushiftRight, getLsbD_word, bitAt_drop]
  by_cases within : 8 * n + j < 64
  · simp [inside, within]
  · have none : bitAt bytes (8 * n + j) = false := bitAt_of_le (by omega)
    simp [none]

/-! ## Setting a bit -/

/-- The bytes with one more bit set. -/
def setBit (bytes : List UInt8) (j : Nat) : List UInt8 :=
  bytes.set (j / 8) ⟨(bytes.getD (j / 8) 0).toBitVec ||| BitVec.twoPow 8 (j % 8)⟩

@[simp] theorem length_setBit (bytes : List UInt8) (j : Nat) : (setBit bytes j).length = bytes.length := by
  simp [setBit]

theorem bitAt_setBit {bytes : List UInt8} {i : Nat} (stored : i < 8 * bytes.length) (j : Nat) :
    bitAt (setBit bytes i) j = (bitAt bytes j || decide (j = i)) := by
  have byte : i / 8 < bytes.length := by omega
  by_cases sameByte : i / 8 = j / 8
  · have sameBit : i % 8 = j % 8 ↔ j = i := by omega
    simp only [bitAt, setBit]
    rw [← sameByte, List.getD_eq_getElem?_getD, List.getElem?_set_self byte]
    have inside : i % 8 < 8 := Nat.mod_lt _ (by decide)
    simp only [Option.getD_some, BitVec.getLsbD_or, BitVec.getLsbD_twoPow, inside, decide_true, Bool.true_and,
      List.getD_eq_getElem?_getD, sameBit]
  · have distinct : j ≠ i := by
      intro same
      exact sameByte (by rw [same])
    simp [bitAt, setBit, List.getElem?_set_ne sameByte, distinct]

theorem bitAt_replicate (n j : Nat) : bitAt (List.replicate n 0) j = false := by
  have byte : (List.replicate n (0 : UInt8)).getD (j / 8) 0 = 0 := by
    rw [List.getD_eq_getElem?_getD, List.getElem?_replicate]
    split <;> rfl
  rw [bitAt, byte]
  exact BitVec.getLsbD_zero

/-! ## Words and bytes of ones -/

/-- A word is all ones when its bytes have no clear bit among the first 64. -/
theorem word_eq_allOnes_iff (bytes : List UInt8) :
    word bytes = BitVec.allOnes 64 ↔ ∀ j < 64, bitAt bytes j = true := by
  constructor
  · intro ones j inside
    have bit := getLsbD_word bytes j
    rw [ones, BitVec.getLsbD_allOnes, decide_eq_true inside, Bool.true_and] at bit
    exact bit.symm
  · intro ones
    apply BitVec.eq_of_getLsbD_eq
    intro j inside
    rw [getLsbD_word, BitVec.getLsbD_allOnes, ones j inside, Bool.and_true]

theorem bitAt_of_byte_ones {bytes : List UInt8} {j : Nat} (ones : bytes.getD (j / 8) 0 = 0xFF) :
    bitAt bytes j = true := by
  have inside : j % 8 < 8 := Nat.mod_lt _ (by decide)
  have table : ∀ i < 8, (0xFF : UInt8).toBitVec.getLsbD i = true := by decide
  rw [bitAt, ones]
  exact table _ inside

end Ydb.Lib
