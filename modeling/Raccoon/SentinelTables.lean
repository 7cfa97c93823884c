import Raccoon.Loops
import Mathlib.Data.List.GetD

/-!
Tables of a fixed size that are filled from the front and end at the first
empty entry, and loops that look for that end.
-/

namespace Raccoon.SentinelTables

open Loops Outcome

variable {E ε ρ σ : Type}

/-- A table with the entries of a list in front, and `blank` ones behind them. -/
def pad (blank : E) (l : List E) (i : ℕ) : E := l.getD i blank

section Code

variable (e : ε) (table : ℕ → E) (ends : E → Bool) (body : ℕ → E → σ → Outcome ε ρ σ)

/-- `for (; !ends(table[i]); i++) body`, with `n` entries of the table from `i` on. Reading the one behind them
is the failure `e`. -/
def scan : ℕ → ℕ → σ → Outcome ε ρ σ
  | 0, _, _ => .fail e
  | n + 1, i, s => if ends (table i) then .next s else body i (table i) s >>= scan n (i + 1)

def walk : ℕ → List E → σ → Outcome ε ρ σ
  | _, [], s => .next s
  | i, x :: xs, s => if ends x then .next s else body i x s >>= walk (i + 1) xs

end Code

variable {e : ε} {table : ℕ → E} {ends : E → Bool} {body : ℕ → E → σ → Outcome ε ρ σ} {blank : E} {l : List E}
  {size i n : ℕ} {s : σ}

def Ended (ends : E → Bool) (table : ℕ → E) (size i : ℕ) : Prop := ∃ z, i ≤ z ∧ z < size ∧ ends (table z) = true

theorem Ended.next (h : Ended ends table size i) (hi : ends (table i) = false) : Ended ends table size (i + 1) := by
  obtain ⟨z, hiz, hz, hend⟩ := h
  refine ⟨z, ?_, hz, hend⟩
  rcases Nat.eq_or_lt_of_le hiz with rfl | hlt
  · rw [hi] at hend
    cases hend
  · exact hlt

theorem pad_of_lt (h : i < l.length) : pad blank l i = l[i] := List.getD_eq_getElem l blank h

theorem pad_of_le (h : l.length ≤ i) : pad blank l i = blank := List.getD_eq_default l blank h

/-- A loop over a table that ends is the loop over the list it is filled from. -/
theorem scan_eq_walk (hblank : ends blank = true) (h : Ended ends (pad blank l) size i) :
    scan e (pad blank l) ends body (size - i) i s = walk ends body i (l.drop i) s := by
  have hlt : i < size := by
    obtain ⟨z, hiz, hz, -⟩ := h
    omega
  obtain ⟨n, hn⟩ : ∃ n, size - i = n + 1 := ⟨size - i - 1, by omega⟩
  induction n generalizing i s with
  | zero =>
    obtain ⟨z, hiz, hz, hend⟩ := h
    obtain rfl : z = i := by omega
    rw [hn, scan, if_pos hend]
    by_cases hl : z < l.length
    · rw [pad_of_lt hl] at hend
      rw [List.drop_eq_getElem_cons hl, walk, if_pos hend]
    · rw [List.drop_eq_nil_of_le (by omega), walk]
  | succ n ih =>
    rw [hn, scan]
    by_cases hl : i < l.length
    · rw [List.drop_eq_getElem_cons hl, walk, pad_of_lt hl]
      by_cases hend : ends l[i] = true
      · rw [if_pos hend, if_pos hend]
      · rw [if_neg hend, if_neg hend]
        have hnext : Ended ends (pad blank l) size (i + 1) := h.next (by rw [pad_of_lt hl]; simpa using hend)
        have hn' : size - (i + 1) = n + 1 := by omega
        cases body i l[i] s with
        | fail _ => rfl
        | done _ => rfl
        | next s' =>
          rw [next_bind, next_bind, ← hn']
          exact ih hnext (by omega) hn'
    · rw [pad_of_le (by omega), if_pos hblank, List.drop_eq_nil_of_le (by omega), walk]

/-- A loop that goes on at every entry leaves a table without an end. -/
theorem scan_overrun (hnone : ∀ z, i ≤ z → z < i + n → ends (table z) = false)
    (hbody : ∀ z s, i ≤ z → z < i + n → ∃ s', body z (table z) s = .next s') :
    scan e table ends body n i s = .fail e := by
  induction n generalizing i s with
  | zero => rfl
  | succ n ih =>
    obtain ⟨s', hs'⟩ := hbody i s le_rfl (by omega)
    rw [scan, if_neg (by rw [hnone i le_rfl (by omega)]; decide), hs', next_bind]
    exact ih (fun z hz hlt => hnone z (by omega) (by omega)) fun z s hz hlt => hbody z s (by omega) (by omega)

end Raccoon.SentinelTables
