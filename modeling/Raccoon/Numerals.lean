import Mathlib.Algebra.Ring.Nat
import Mathlib.Data.Nat.Log

/-!
Positional numerals, written from the last digit to the first.
-/

namespace Raccoon.Numerals

variable {α : Type}

/-- `for (; x; x /= base) *--s = digit(x % base);` for at most `n` rounds. -/
def prepend (base : ℕ) (digit : ℕ → α) : ℕ → ℕ → List α → List α
  | 0, _, s => s
  | n + 1, x, s => if x = 0 then s else prepend base digit n (x / base) (digit (x % base) :: s)

variable {base : ℕ} {digit : ℕ → α}

@[simp] theorem prepend_zero (n : ℕ) (s : List α) : prepend base digit n 0 s = s := by
  cases n <;> rfl

theorem length_prepend (hbase : 1 < base) {n x : ℕ} (hn : x ≤ n) (hx : x ≠ 0) (s : List α) :
    (prepend base digit n x s).length = Nat.log base x + 1 + s.length := by
  induction n generalizing x s with
  | zero => omega
  | succ n ih =>
    rw [prepend, if_neg hx]
    have hdiv : x / base < x := Nat.div_lt_self (by omega) hbase
    by_cases hlt : x < base
    · rw [Nat.div_eq_of_lt hlt, prepend_zero, Nat.log_of_lt hlt, List.length_cons]
      omega
    · have hle : base ≤ x := by omega
      have hne : x / base ≠ 0 := (Nat.div_pos hle (by omega)).ne'
      rw [ih (by omega) hne, Nat.log_of_one_lt_of_le hbase hle, List.length_cons]
      omega

/-- With the usual digits, what is written is the canonical numeral. -/
theorem prepend_eq_toDigits {digit : ℕ → Char} (hbase : 1 < base) (hdigit : ∀ d < base, digit d = Nat.digitChar d)
    {n x : ℕ} (hn : x ≤ n) (hx : x ≠ 0) (s : List Char) :
    prepend base digit n x s = Nat.toDigits base x ++ s := by
  induction n generalizing x s with
  | zero => omega
  | succ n ih =>
    rw [prepend, if_neg hx, hdigit _ (Nat.mod_lt _ (by omega)), Nat.toDigits_eq_if hbase]
    have hdiv : x / base < x := Nat.div_lt_self (by omega) hbase
    by_cases hlt : x < base
    · rw [if_pos hlt, Nat.div_eq_of_lt hlt, prepend_zero, Nat.mod_eq_of_lt hlt]
      rfl
    · have hne : x / base ≠ 0 := (Nat.div_pos (by omega) (by omega)).ne'
      rw [if_neg hlt, ih (by omega) hne, List.append_assoc]
      rfl

section FromTop

variable {k m i : ℕ}

def digitAt (base m i : ℕ) : ℕ := m / base ^ i % base

/-- The digits at the positions `k`, ..., `0`. -/
def fromTop (base : ℕ) : ℕ → ℕ → List ℕ
  | 0, m => [digitAt base m 0]
  | k + 1, m => digitAt base m (k + 1) :: fromTop base k m

theorem digitAt_lt (hbase : 0 < base) : digitAt base m i < base := Nat.mod_lt _ hbase

theorem digitAt_zero (base m : ℕ) : digitAt base m 0 = m % base := by rw [digitAt, Nat.pow_zero, Nat.div_one]

theorem digitAt_succ (base m i : ℕ) : digitAt base m (i + 1) = digitAt base (m / base) i := by
  rw [digitAt, digitAt, Nat.div_div_eq_div_mul, Nat.pow_succ']

theorem digitAt_top (h : m < base ^ (k + 1)) : digitAt base m k = m / base ^ k := by
  rw [Nat.pow_succ] at h
  exact Nat.mod_eq_of_lt (Nat.div_lt_of_lt_mul h)

theorem digitAt_mod (base m : ℕ) (hi : i < k) : digitAt base (m % base ^ k) i = digitAt base m i := by
  obtain ⟨d, rfl⟩ := Nat.exists_eq_add_of_lt hi
  rw [digitAt, digitAt, show i + d + 1 = i + (d + 1) by omega, Nat.pow_add, Nat.mod_mul_right_div_self,
    Nat.mod_mod_of_dvd _ ⟨base ^ d, Nat.pow_succ'⟩]

theorem digitAt_eq_zero (h : m < base ^ i) : digitAt base m i = 0 := by
  rw [digitAt, Nat.div_eq_of_lt h, Nat.zero_mod]

theorem fromTop_congr {m' : ℕ} (h : ∀ i ≤ k, digitAt base m i = digitAt base m' i) :
    fromTop base k m = fromTop base k m' := by
  induction k with
  | zero => rw [fromTop, fromTop, h 0 le_rfl]
  | succ k ih => rw [fromTop, fromTop, h (k + 1) le_rfl, ih fun i hi => h i (by omega)]

theorem fromTop_mod (base k m : ℕ) : fromTop base k (m % base ^ (k + 1)) = fromTop base k m :=
  fromTop_congr fun _ hi => digitAt_mod base m (Nat.lt_succ_of_le hi)

theorem fromTop_succ (base k m : ℕ) : fromTop base (k + 1) m = fromTop base k (m / base) ++ [m % base] := by
  induction k with
  | zero => rw [fromTop, fromTop, fromTop, digitAt_succ, digitAt_zero base m, List.singleton_append]
  | succ k ih => rw [fromTop, ih, digitAt_succ, fromTop, List.cons_append]

theorem fromTop_eq_map (base k m : ℕ) : fromTop base k m = (List.range (k + 1)).reverse.map (digitAt base m) := by
  induction k with
  | zero => rfl
  | succ k ih => rw [fromTop, ih, List.range_succ (n := k + 1), List.reverse_concat, List.map_cons]

theorem top_mem_fromTop (base k m : ℕ) : digitAt base m k ∈ fromTop base k m := by
  cases k with
  | zero => exact List.mem_singleton.mpr rfl
  | succ k => exact List.mem_cons_self

theorem lt_of_mem_fromTop (hbase : 0 < base) {t : ℕ} (ht : t ∈ fromTop base k m) : t < base := by
  induction k with
  | zero =>
    rw [List.mem_singleton.mp ht]
    exact digitAt_lt hbase
  | succ k ih =>
    rcases List.mem_cons.mp ht with rfl | ht
    · exact digitAt_lt hbase
    · exact ih ht

/-- Without leading zeros, the digits are those of the canonical numeral. -/
theorem toDigits_eq_fromTop (hbase : 1 < base) (m : ℕ) :
    Nat.toDigits base m = (fromTop base (Nat.log base m) m).map Nat.digitChar := by
  induction m using Nat.strong_induction_on with
  | _ m ih =>
    rw [Nat.toDigits_eq_if hbase]
    by_cases hlt : m < base
    · rw [if_pos hlt, Nat.log_of_lt hlt, fromTop, digitAt_zero, Nat.mod_eq_of_lt hlt]
      rfl
    · have hle : base ≤ m := by omega
      rw [if_neg hlt, Nat.log_of_one_lt_of_le hbase hle, fromTop_succ, ih _ (Nat.div_lt_self (by omega) hbase),
        List.map_append]
      rfl

end FromTop

section Value

variable {m n : ℕ} {value : Char → ℕ}

theorem mem_toDigits (hbase : 1 < base) {m : ℕ} {c : Char} (h : c ∈ Nat.toDigits base m) :
    ∃ d < base, c = Nat.digitChar d := by
  rw [toDigits_eq_fromTop hbase] at h
  obtain ⟨d, hd, rfl⟩ := List.mem_map.mp h
  exact ⟨d, lt_of_mem_fromTop (by omega) hd, rfl⟩

/-- Reading the digits of a numeral from the first to the last gives its number. -/
theorem foldl_toDigits (hbase : 1 < base) (hvalue : ∀ d < base, value (Nat.digitChar d) = d) (m : ℕ) :
    (Nat.toDigits base m).foldl (fun n c => n * base + value c) 0 = m := by
  induction m using Nat.strong_induction_on with
  | _ m ih =>
    rw [Nat.toDigits_eq_if hbase]
    by_cases hlt : m < base
    · rw [if_pos hlt, List.foldl_cons, List.foldl_nil, hvalue m hlt, Nat.zero_mul, Nat.zero_add]
    · rw [if_neg hlt, List.foldl_append, ih _ (Nat.div_lt_self (by omega) hbase), List.foldl_cons, List.foldl_nil,
        hvalue _ (Nat.mod_lt _ (by omega)), Nat.div_add_mod']

/-- Cutting off each sum is cutting off the last one. -/
theorem foldl_mod (base m : ℕ) (value : α → ℕ) (ds : List α) (n : ℕ) :
    ds.foldl (fun n d => (n * base + value d) % m) (n % m) = ds.foldl (fun n d => n * base + value d) n % m := by
  induction ds generalizing n with
  | nil => rfl
  | cons d ds ih =>
    have hmod : (n % m * base + value d) % m = (n * base + value d) % m := by
      rw [Nat.add_mod, Nat.mod_mul_mod, ← Nat.add_mod]
    rw [List.foldl_cons, List.foldl_cons, hmod, ih]

theorem foldl_mod_toDigits (hbase : 1 < base) (hvalue : ∀ d < base, value (Nat.digitChar d) = d) (m n : ℕ) :
    (Nat.toDigits base n).foldl (fun n c => (n * base + value c) % m) 0 = n % m := by
  conv_lhs => rw [← Nat.zero_mod m, foldl_mod]
  rw [foldl_toDigits hbase hvalue]

end Value

end Raccoon.Numerals
