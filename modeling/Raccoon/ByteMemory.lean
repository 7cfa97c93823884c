import Mathlib.Data.Nat.Notation
import Mathlib.Logic.Function.Basic
import Mathlib.Tactic.Ring

/-!
The bytes of a memory of 64-bit words, and pieces that are laid over a memory
one after the other.
-/

namespace Raccoon.ByteMemory

/-- Byte `i` of a little-endian word. -/
def wordByte (w i : ℕ) : ℕ := w / 2 ^ (8 * i) % 2 ^ 8

def putByte (w i b : ℕ) : ℕ := w / 2 ^ (8 * i + 8) * 2 ^ (8 * i + 8) + (b * 2 ^ (8 * i) + w % 2 ^ (8 * i))

section Word

variable {w b i j : ℕ}

theorem putByte_mod (w i b : ℕ) : putByte w i b % 2 ^ (8 * i) = w % 2 ^ (8 * i) := by
  have hsplit : putByte w i b = w % 2 ^ (8 * i) + 2 ^ (8 * i) * (w / 2 ^ (8 * i + 8) * 2 ^ 8 + b) := by
    rw [putByte, Nat.pow_add]
    ring
  rw [hsplit, Nat.add_mul_mod_self_left, Nat.mod_mod]

theorem putByte_div (w i : ℕ) (hb : b < 2 ^ 8) : putByte w i b / 2 ^ (8 * i + 8) = w / 2 ^ (8 * i + 8) := by
  have hlow : w % 2 ^ (8 * i) < 2 ^ (8 * i) := Nat.mod_lt _ (Nat.two_pow_pos _)
  have hle : (b + 1) * 2 ^ (8 * i) ≤ 2 ^ 8 * 2 ^ (8 * i) := Nat.mul_le_mul_right _ hb
  have hlt : b * 2 ^ (8 * i) + w % 2 ^ (8 * i) < 2 ^ (8 * i + 8) := by
    rw [Nat.pow_add]
    rw [Nat.add_mul] at hle
    omega
  rw [putByte, Nat.mul_comm, Nat.mul_add_div (Nat.two_pow_pos _), Nat.div_eq_of_lt hlt, Nat.add_zero]

theorem wordByte_putByte (w i : ℕ) (hb : b < 2 ^ 8) : wordByte (putByte w i b) i = b := by
  have hlow : w % 2 ^ (8 * i) < 2 ^ (8 * i) := Nat.mod_lt _ (Nat.two_pow_pos _)
  have hsplit : putByte w i b = 2 ^ (8 * i) * (b + 2 ^ 8 * (w / 2 ^ (8 * i + 8))) + w % 2 ^ (8 * i) := by
    rw [putByte, Nat.pow_add]
    ring
  rw [wordByte, hsplit, Nat.mul_add_div (Nat.two_pow_pos _), Nat.div_eq_of_lt hlow, Nat.add_zero,
    Nat.add_mul_mod_self_left, Nat.mod_eq_of_lt hb]

/-- A byte below `i` depends on the low bits only, and one above on the high bits. -/
theorem wordByte_putByte_ne (w : ℕ) (hb : b < 2 ^ 8) (hne : j ≠ i) : wordByte (putByte w i b) j = wordByte w j := by
  rcases Nat.lt_or_gt_of_ne hne with hlt | hgt
  · have hlow (v : ℕ) : wordByte v j = v % 2 ^ (8 * i) / 2 ^ (8 * j) % 2 ^ 8 := by
      have hexp : 8 * i = 8 * j + 8 + 8 * (i - j - 1) := by omega
      rw [wordByte, hexp, Nat.pow_add _ (8 * j + 8), Nat.pow_add, Nat.mul_assoc, Nat.mod_mul_right_div_self,
        Nat.mod_mul_right_mod]
    rw [hlow, putByte_mod, ← hlow]
  · have hhigh (v : ℕ) : wordByte v j = v / 2 ^ (8 * i + 8) / 2 ^ (8 * (j - i - 1)) % 2 ^ 8 := by
      have hexp : 8 * j = 8 * i + 8 + 8 * (j - i - 1) := by omega
      rw [wordByte, Nat.div_div_eq_div_mul, ← Nat.pow_add, ← hexp]
    rw [hhigh, putByte_div w i hb, ← hhigh]

end Word

/-- Memory holds the word at each address that is a multiple of 8. -/
def byteAt (mem : ℕ → ℕ) (x : ℕ) : ℕ := wordByte (mem (8 * (x / 8))) (x % 8)

def setByte (mem : ℕ → ℕ) (x b : ℕ) : ℕ → ℕ :=
  Function.update mem (8 * (x / 8)) (putByte (mem (8 * (x / 8))) (x % 8) b)

section Memory

variable {mem mem' : ℕ → ℕ} {x y b : ℕ}

theorem byteAt_congr (h : mem' (8 * (x / 8)) = mem (8 * (x / 8))) : byteAt mem' x = byteAt mem x := by
  rw [byteAt, byteAt, h]

theorem byteAt_zero (h : mem (8 * (x / 8)) = 0) : byteAt mem x = 0 := by
  rw [byteAt, h, wordByte, Nat.zero_div, Nat.zero_mod]

theorem byteAt_setByte_self (mem : ℕ → ℕ) (x : ℕ) (hb : b < 2 ^ 8) : byteAt (setByte mem x b) x = b := by
  rw [byteAt, setByte, Function.update_self]
  exact wordByte_putByte _ _ hb

theorem byteAt_setByte_ne (mem : ℕ → ℕ) (hb : b < 2 ^ 8) (hne : y ≠ x) :
    byteAt (setByte mem x b) y = byteAt mem y := by
  by_cases hword : 8 * (y / 8) = 8 * (x / 8)
  · have hbyte : y % 8 ≠ x % 8 := by omega
    rw [byteAt, setByte, hword, Function.update_self, wordByte_putByte_ne _ hb hbyte, byteAt, hword]
  · exact byteAt_congr (Function.update_of_ne hword ..)

end Memory

/-- The items that take the places from `start` on. -/
structure Piece (β : Type) where
  start : ℕ
  length : ℕ
  content : ℕ → β

section Overlay

variable {β : Type} {f : ℕ → β} {p q : Piece β} {ps : List (Piece β)} {x n : ℕ}

def Piece.Covers (p : Piece β) (x : ℕ) : Prop := p.start ≤ x ∧ x < p.start + p.length

instance (p : Piece β) (x : ℕ) : Decidable (p.Covers x) := inferInstanceAs (Decidable (_ ∧ _))

def Piece.Apart (p q : Piece β) : Prop := ∀ x, p.Covers x → ¬ q.Covers x

def lay (f : ℕ → β) (p : Piece β) : ℕ → β := fun x => if p.Covers x then p.content (x - p.start) else f x

def overlay (f : ℕ → β) (ps : List (Piece β)) : ℕ → β := ps.foldl lay f

/-- The first `n` items of a piece. -/
def Piece.take (p : Piece β) (n : ℕ) : Piece β := { p with length := n }

theorem lay_zero (f : ℕ → β) (p : Piece β) : lay f (p.take 0) = f := by
  funext x
  exact if_neg fun h => absurd h.2 (Nat.not_lt_of_le h.1)

theorem lay_succ (f : ℕ → β) (p : Piece β) (n : ℕ) :
    lay f (p.take (n + 1)) = Function.update (lay f (p.take n)) (p.start + n) (p.content n) := by
  funext x
  by_cases hx : x = p.start + n
  · subst hx
    rw [Function.update_self, lay, if_pos ⟨Nat.le_add_right .., Nat.lt_succ_self _⟩]
    exact congrArg p.content (Nat.add_sub_cancel_left ..)
  · have hcovers : (p.take (n + 1)).Covers x ↔ (p.take n).Covers x := by
      simp only [Piece.Covers, Piece.take]
      omega
    rw [Function.update_of_ne hx, lay, lay]
    simp only [hcovers]
    rfl

theorem overlay_snoc (f : ℕ → β) (ps : List (Piece β)) (p : Piece β) :
    overlay f (ps ++ [p]) = lay (overlay f ps) p := List.foldl_append ..

theorem overlay_outside (h : ∀ p ∈ ps, ¬ p.Covers x) : overlay f ps x = f x := by
  induction ps generalizing f with
  | nil => rfl
  | cons p ps ih =>
    have hp : lay f p x = f x := if_neg (h p (List.mem_cons_self ..))
    exact (ih fun q hq => h q (List.mem_cons_of_mem _ hq)).trans hp

/-- Where the pieces are apart, their order does not matter. -/
theorem overlay_covered (hps : ps.Pairwise Piece.Apart) (hp : p ∈ ps) (hx : p.Covers x) :
    overlay f ps x = p.content (x - p.start) := by
  induction ps generalizing f with
  | nil => cases hp
  | cons q ps ih =>
    obtain ⟨hq, hps⟩ := List.pairwise_cons.mp hps
    rcases List.mem_cons.mp hp with rfl | hp
    · have hrest : overlay (lay f p) ps x = lay f p x := overlay_outside fun q hmem => hq q hmem x hx
      exact hrest.trans (if_pos hx)
    · exact ih hps hp

end Overlay

end Raccoon.ByteMemory
