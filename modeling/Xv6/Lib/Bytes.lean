import Mathlib.Data.Nat.Bitwise
import Mathlib.Data.UInt
import Mathlib.Logic.Function.Basic

/-!
Memory as a function from addresses to bytes: numbers in little-endian order, copies of a stretch of memory, and
single bits.
-/

namespace Bytes

abbrev Memory := Nat → UInt8

-- The byte `k` of the number `v`.
def byte (v k : Nat) : UInt8 :=
  UInt8.ofNat (v / 256 ^ k)

def get16 (m : Memory) (i : Nat) : Nat :=
  (m i).toNat + 256 * (m (i + 1)).toNat

def get32 (m : Memory) (i : Nat) : Nat :=
  (m i).toNat + 256 * (m (i + 1)).toNat + 65536 * (m (i + 2)).toNat + 16777216 * (m (i + 3)).toNat

-- `memmove(m + i, src, n)`
def copy (m : Memory) (i n : Nat) (src : Memory) : Memory := fun j =>
  if i ≤ j ∧ j < i + n then src (j - i) else m j

def put32 (m : Memory) (i v : Nat) : Memory :=
  copy m i 4 (byte v)

variable {m m' src : Memory} {i j n v : Nat}

theorem byte_toNat (v k : Nat) : (byte v k).toNat = v / 256 ^ k % 256 := by
  simp [byte]

theorem get16_lt (m : Memory) (i : Nat) : get16 m i < 2 ^ 16 := by
  have := (m i).toNat_lt
  have := (m (i + 1)).toNat_lt
  unfold get16
  omega

theorem get32_lt (m : Memory) (i : Nat) : get32 m i < 2 ^ 32 := by
  have := (m i).toNat_lt
  have := (m (i + 1)).toNat_lt
  have := (m (i + 2)).toNat_lt
  have := (m (i + 3)).toNat_lt
  unfold get32
  omega

theorem get16_eq (h : ∀ k < 2, m (i + k) = byte v k) : get16 m i = v % 2 ^ 16 := by
  have h0 := h 0 (by omega)
  have h1 := h 1 (by omega)
  rw [add_zero] at h0
  simp only [get16, h0, h1, byte_toNat]
  omega

theorem get32_eq (h : ∀ k < 4, m (i + k) = byte v k) : get32 m i = v % 2 ^ 32 := by
  have h0 := h 0 (by omega)
  have h1 := h 1 (by omega)
  have h2 := h 2 (by omega)
  have h3 := h 3 (by omega)
  rw [add_zero] at h0
  simp only [get32, h0, h1, h2, h3, byte_toNat]
  omega

theorem get16_congr (h : ∀ k < 2, m' (i + k) = m (i + k)) : get16 m' i = get16 m i := by
  have h0 := h 0 (by omega)
  rw [add_zero] at h0
  simp only [get16, h0, h 1 (by omega)]

theorem get32_congr (h : ∀ k < 4, m' (i + k) = m (i + k)) : get32 m' i = get32 m i := by
  have h0 := h 0 (by omega)
  rw [add_zero] at h0
  simp only [get32, h0, h 1 (by omega), h 2 (by omega), h 3 (by omega)]

theorem copy_of_mem (h : j < n) : copy m i n src (i + j) = src j := by
  unfold copy
  rw [if_pos (by omega)]
  congr 1
  omega

theorem copy_of_notMem (h : ¬ (i ≤ j ∧ j < i + n)) : copy m i n src j = m j :=
  if_neg h

theorem get32_put32 (hv : v < 2 ^ 32) : get32 (put32 m i v) i = v := by
  rw [get32_eq (v := v)]
  . exact Nat.mod_eq_of_lt hv
  . intro k hk
    exact copy_of_mem hk

theorem get32_put32_of_disjoint (h : i + 4 ≤ j ∨ j + 4 ≤ i) : get32 (put32 m j v) i = get32 m i := by
  apply get32_congr
  intro k hk
  apply copy_of_notMem
  omega

-- The bit `k` of the byte at `i / 8`, counted from the start of the memory.
def mask (k : Nat) : UInt8 :=
  UInt8.ofNat (2 ^ (k % 8))

def testBit (m : Memory) (k : Nat) : Bool :=
  m (k / 8) &&& mask k ≠ 0

def setBit (m : Memory) (k : Nat) : Memory :=
  Function.update m (k / 8) (m (k / 8) ||| mask k)

def clearBit (m : Memory) (k : Nat) : Memory :=
  Function.update m (k / 8) (m (k / 8) &&& ~~~mask k)

theorem mask_toNat (k : Nat) : (mask k).toNat = 2 ^ (k % 8) := by
  have : 2 ^ (k % 8) < 2 ^ 8 := Nat.pow_lt_pow_right (by omega) (by omega)
  simp only [mask, UInt8.toNat_ofNat']
  exact Nat.mod_eq_of_lt this

theorem and_mask_ne_zero (x : UInt8) (k : Nat) : x &&& mask k ≠ 0 ↔ x.toNat.testBit (k % 8) = true := by
  rw [ne_eq, ← UInt8.toNat_inj, UInt8.toNat_and, mask_toNat, Nat.and_two_pow]
  cases x.toNat.testBit (k % 8) <;> simp

theorem testBit_not (x : UInt8) {k : Nat} (hk : k < 8) : (~~~x).toNat.testBit k = !x.toNat.testBit k := by
  have h : (~~~x.toBitVec).getLsbD k = !x.toBitVec.getLsbD k := by
    simp [hk]
  exact h

theorem testBit_eq (m : Memory) (k : Nat) : testBit m k = (m (k / 8)).toNat.testBit (k % 8) := by
  rw [Bool.eq_iff_iff, ← and_mask_ne_zero]
  simp [testBit]

theorem testBit_setBit (m : Memory) (j k : Nat) : testBit (setBit m k) j = (testBit m j || decide (j = k)) := by
  simp only [testBit_eq, setBit]
  by_cases h : j / 8 = k / 8
  . have hjk : j = k ↔ k % 8 = j % 8 := by omega
    rw [h, Function.update_self, UInt8.toNat_or, Nat.testBit_or, mask_toNat, Nat.testBit_two_pow]
    simp only [hjk]
  . have hjk : j ≠ k := by
      rintro rfl
      exact h rfl
    rw [Function.update_of_ne h]
    simp [hjk]

theorem testBit_clearBit (m : Memory) (j k : Nat) : testBit (clearBit m k) j = (testBit m j && decide (j ≠ k)) := by
  simp only [testBit_eq, clearBit]
  by_cases h : j / 8 = k / 8
  . have hjk : j ≠ k ↔ ¬ k % 8 = j % 8 := by omega
    rw [h, Function.update_self, UInt8.toNat_and, Nat.testBit_and, testBit_not _ (by omega), mask_toNat,
      Nat.testBit_two_pow]
    simp [hjk]
  . have hjk : j ≠ k := by
      rintro rfl
      exact h rfl
    rw [Function.update_of_ne h]
    simp [hjk]

end Bytes
