import Mathlib.Data.Nat.Bitwise

/-!
Words of the 64-bit machine as natural numbers, and the bit-field macros and
address arithmetic of `utils/macros.h`, `vmm/vmm.h` and `vmm.c`.
-/

namespace Raccoon

/-- Unsigned 64-bit addition, subtraction and multiplication. -/
def wadd (x y : ℕ) : ℕ := (x + y) % 2 ^ 64
def wsub (x y : ℕ) : ℕ := (x + 2 ^ 64 - y) % 2 ^ 64
def wmul (x y : ℕ) : ℕ := x * y % 2 ^ 64

theorem wadd_eq {x y : ℕ} (h : x + y < 2 ^ 64) : wadd x y = x + y := Nat.mod_eq_of_lt h

theorem wsub_eq {x y : ℕ} (h : y ≤ x) (hx : x < 2 ^ 64) : wsub x y = x - y := by
  unfold wsub
  omega

theorem wmul_eq {x y : ℕ} (h : x * y < 2 ^ 64) : wmul x y = x * y := Nat.mod_eq_of_lt h

/-- `MASK(n)` and `SHIFTR(x, n, shift)`. -/
def mask (n : ℕ) : ℕ := 1 <<< n - 1
def shiftr (x n shift : ℕ) : ℕ := (x >>> shift) &&& mask n

theorem shiftr_eq (x n shift : ℕ) : shiftr x n shift = x / 2 ^ shift % 2 ^ n := by
  rw [shiftr, mask, Nat.one_shiftLeft, Nat.and_two_pow_sub_one_eq_mod, Nat.shiftRight_eq_div_pow]

def maskL0 : ℕ := mask 12
def archPageSize : ℕ := 0x1000
def archNEntry : ℕ := 512
def recursiveMappingEntry : ℕ := 50

/-- `x & CLEAN_BITS_MASK`. -/
def cleanBits (x : ℕ) : ℕ := x &&& (2 ^ 64 - 1 - 0xfff)

def craftAddr (l4 l3 l2 l1 l0 : ℕ) : ℕ :=
  (l0 ||| (l1 <<< 12) ||| (l2 <<< 21) ||| (l3 <<< 30) ||| (l4 <<< 39)) % 2 ^ 64

theorem or_shiftLeft {a k : ℕ} (h : a < 2 ^ k) (b : ℕ) : a ||| (b <<< k) = a + 2 ^ k * b := by
  rw [Nat.or_comm, Nat.shiftLeft_eq, Nat.mul_comm, ← Nat.two_pow_add_eq_or_of_lt h, Nat.add_comm]

theorem craftAddr_eq {l4 l3 l2 l1 l0 : ℕ} (h4 : l4 < 512) (h3 : l3 < 512) (h2 : l2 < 512)
    (h1 : l1 < 512) (h0 : l0 < 4096) :
    craftAddr l4 l3 l2 l1 l0 = l0 + 4096 * (l1 + 512 * (l2 + 512 * (l3 + 512 * l4))) := by
  have e1 : l0 ||| (l1 <<< 12) = l0 + 2 ^ 12 * l1 := or_shiftLeft (by omega) l1
  have e2 : (l0 + 2 ^ 12 * l1) ||| (l2 <<< 21) = l0 + 2 ^ 12 * l1 + 2 ^ 21 * l2 :=
    or_shiftLeft (by omega) l2
  have e3 : (l0 + 2 ^ 12 * l1 + 2 ^ 21 * l2) ||| (l3 <<< 30) =
      l0 + 2 ^ 12 * l1 + 2 ^ 21 * l2 + 2 ^ 30 * l3 := or_shiftLeft (by omega) l3
  have e4 : (l0 + 2 ^ 12 * l1 + 2 ^ 21 * l2 + 2 ^ 30 * l3) ||| (l4 <<< 39) =
      l0 + 2 ^ 12 * l1 + 2 ^ 21 * l2 + 2 ^ 30 * l3 + 2 ^ 39 * l4 := or_shiftLeft (by omega) l4
  rw [craftAddr, e1, e2, e3, e4]
  omega

/-- The number of the page with the given table indices. -/
def pageNumber (l4 l3 l2 l1 : ℕ) : ℕ := l1 + 512 * (l2 + 512 * (l3 + 512 * l4))

theorem pageNumber_carry1 (l4 l3 l2 : ℕ) : pageNumber l4 l3 l2 512 = pageNumber l4 l3 (l2 + 1) 0 := by
  simp only [pageNumber]; omega

theorem pageNumber_carry2 (l4 l3 : ℕ) : pageNumber l4 l3 512 0 = pageNumber l4 (l3 + 1) 0 0 := by
  simp only [pageNumber]; omega

theorem pageNumber_carry3 (l4 : ℕ) : pageNumber l4 512 0 0 = pageNumber (l4 + 1) 0 0 0 := by
  simp only [pageNumber]; omega

theorem cleanBits_mod (x : ℕ) : cleanBits x = 4096 * (x / 4096 % 2 ^ 52) := by
  have hmask : (2 ^ 64 - 1 - 0xfff : ℕ) = (2 ^ 52 - 1) <<< 12 := by decide
  have hshift : 4096 * (x / 4096 % 2 ^ 52) = (x / 2 ^ 12 % 2 ^ 52) <<< 12 := by
    rw [Nat.shiftLeft_eq]
    omega
  apply Nat.eq_of_testBit_eq
  intro i
  rw [cleanBits, hmask, hshift, Nat.testBit_and, Nat.testBit_shiftLeft, Nat.testBit_shiftLeft,
    Nat.testBit_two_pow_sub_one, Nat.testBit_mod_two_pow, Nat.testBit_div_two_pow]
  by_cases hi : 12 ≤ i
  · have hs : i - 12 + 12 = i := by omega
    rw [hs, Bool.and_comm, Bool.and_assoc]
  · simp [hi]

end Raccoon
