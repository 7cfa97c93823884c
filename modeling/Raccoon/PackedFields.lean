import Mathlib.Algebra.Group.Nat.Defs
import Mathlib.Data.List.Basic

/-!
Words that are packed from fields, each with its width, the lowest one first.
-/

namespace Raccoon.PackedFields

def pack : List (ℕ × ℕ) → ℕ
  | [] => 0
  | (k, f) :: fields => f + 2 ^ k * pack fields

def width : List (ℕ × ℕ) → ℕ
  | [] => 0
  | (k, _) :: fields => k + width fields

def Fits (fields : List (ℕ × ℕ)) : Prop := ∀ p ∈ fields, p.2 < 2 ^ p.1

variable {fields low mid high : List (ℕ × ℕ)}

theorem pack_lt (h : Fits fields) : pack fields < 2 ^ width fields := by
  induction fields with
  | nil => exact Nat.one_pos
  | cons p fields ih =>
    have hp := h p (.head _)
    have hrest : pack fields + 1 ≤ 2 ^ width fields := ih fun q hq => h q (.tail _ hq)
    have hmul := Nat.mul_le_mul_left (2 ^ p.1) hrest
    rw [pack, width, Nat.pow_add]
    rw [Nat.mul_add, Nat.mul_one] at hmul
    omega

theorem pack_append : pack (low ++ high) = pack low + 2 ^ width low * pack high := by
  induction low with
  | nil => simp [pack, width]
  | cons p low ih =>
    rw [List.cons_append, pack, pack, width, ih, Nat.mul_add, ← Nat.mul_assoc, ← Nat.pow_add, Nat.add_assoc]

/-- Fields next to each other are read back together. -/
theorem slice_pack (h : Fits fields) (i n : ℕ) :
    pack fields / 2 ^ width (fields.take i) % 2 ^ width ((fields.drop i).take n) = pack ((fields.drop i).take n) := by
  have hlow : pack (fields.take i) < _ := pack_lt fun p hp => h p (List.mem_of_mem_take hp)
  have hmid : pack ((fields.drop i).take n) < _ :=
    pack_lt fun p hp => h p (List.mem_of_mem_drop (List.mem_of_mem_take hp))
  have hsplit : pack fields = pack (fields.take i) + 2 ^ width (fields.take i) * (pack ((fields.drop i).take n) +
      2 ^ width ((fields.drop i).take n) * pack ((fields.drop i).drop n)) := by
    rw [← pack_append, List.take_append_drop, ← pack_append, List.take_append_drop]
  rw [hsplit, Nat.add_mul_div_left _ _ (Nat.two_pow_pos _), Nat.div_eq_of_lt hlow, Nat.zero_add,
    Nat.add_mul_mod_self_left, Nat.mod_eq_of_lt hmid]

/-- A bit of a word is a bit of the field it falls into. -/
theorem bit_of_slice {w i k f j : ℕ} (hf : w / 2 ^ i % 2 ^ k = f) (hj : j < k) : w.testBit (i + j) = f.testBit j := by
  rw [← hf, Nat.testBit_mod_two_pow, Nat.testBit_div_two_pow, decide_eq_true hj, Bool.true_and, Nat.add_comm]

theorem slice_of_slice {w i k f j l : ℕ} (hf : w / 2 ^ i % 2 ^ k = f) (hj : j + l ≤ k) :
    w / 2 ^ (i + j) % 2 ^ l = f / 2 ^ j % 2 ^ l := by
  apply Nat.eq_of_testBit_eq
  intro b
  by_cases hb : b < l
  · have hbit := bit_of_slice (j := j + b) hf (by omega)
    rw [Nat.testBit_mod_two_pow, Nat.testBit_mod_two_pow, Nat.testBit_div_two_pow, Nat.testBit_div_two_pow,
      decide_eq_true hb, Bool.true_and, Bool.true_and, Nat.add_comm b j, ← hbit]
    congr 1
    omega
  · rw [Nat.testBit_mod_two_pow, Nat.testBit_mod_two_pow, decide_eq_false hb, Bool.false_and, Bool.false_and]

end Raccoon.PackedFields
