import Raccoon.Loops

/-!
Counting down consecutive free cells. A counter starts at `n`, drops at every
free cell and is reset by an occupied one; it finds the first stretch of
`n + 1` free cells.
-/

namespace Raccoon.FreeRuns

variable (free : ℕ → Prop) (n : ℕ)

/-- The last `n + 1` cells up to `c` are free. -/
def RunEnds (c : ℕ) : Prop := n ≤ c ∧ ∀ j ≤ n, free (c - j)

/-- The first stretch of `n + 1` free cells ends at `c`. -/
def FirstRun (c : ℕ) : Prop := RunEnds free n c ∧ ∀ c' < c, ¬ RunEnds free n c'

def countdown [DecidablePred free] : ℕ → ℕ
  | 0 => n
  | c + 1 => if free c then countdown c - 1 else n

variable {free n} {c : ℕ}

theorem countdown_spec [DecidablePred free] (h : ∀ c' < c, ¬ RunEnds free n c') :
    ∃ k ≤ c, countdown free n c + k = n ∧ (∀ j < k, free (c - (j + 1))) ∧
      (k < c → k < n → ¬ free (c - (k + 1))) := by
  induction c with
  | zero => exact ⟨0, le_rfl, rfl, by omega, by omega⟩
  | succ c ih =>
    obtain ⟨k, hk, hsum, hrun, hstop⟩ := ih fun c' hc' => h c' (Nat.lt_succ_of_lt hc')
    have hsub (j : ℕ) : c + 1 - (j + 1) = c - j := Nat.add_sub_add_right c 1 j
    by_cases hf : free c
    · have hfrom (j : ℕ) (hj : j ≤ k) : free (c - j) := by
        cases j with
        | zero => exact hf
        | succ j => exact hrun j hj
      have hpos : countdown free n c ≠ 0 := fun hz =>
        h c (Nat.lt_succ_self c) ⟨by omega, fun j hj => hfrom j (by omega)⟩
      refine ⟨k + 1, by omega, ?_, fun j hj => hsub j ▸ hfrom j (by omega), fun h1 h2 => ?_⟩
      · rw [countdown, if_pos hf]
        omega
      · rw [hsub]
        exact hstop (by omega) (by omega)
    · exact ⟨0, Nat.zero_le _, by rw [countdown, if_neg hf, Nat.add_zero], by omega, fun _ _ => hf⟩

/-- A free cell at counter zero ends the first stretch. -/
theorem runEnds_iff [DecidablePred free] (h : ∀ c' < c, ¬ RunEnds free n c') :
    RunEnds free n c ↔ free c ∧ countdown free n c = 0 := by
  obtain ⟨k, hk, hsum, hrun, hstop⟩ := countdown_spec h
  constructor
  · rintro ⟨hn, hall⟩
    refine ⟨hall 0 (Nat.zero_le _), ?_⟩
    by_contra hz
    exact hstop (by omega) (by omega) (hall (k + 1) (by omega))
  · rintro ⟨hf, hz⟩
    refine ⟨by omega, fun j hj => ?_⟩
    cases j with
    | zero => exact hf
    | succ j => exact hrun j (by omega)

theorem exists_firstRun : (∃ c, FirstRun free n c) ↔ ∃ c, RunEnds free n c := by
  exact ⟨fun ⟨c, hc, _⟩ => ⟨c, hc⟩, Loops.exists_first⟩

theorem FirstRun.unique {c' : ℕ} (h : FirstRun free n c) (h' : FirstRun free n c') : c = c' := by
  rcases Nat.lt_trichotomy c c' with hlt | he | hgt
  · exact absurd h.1 (h'.2 c hlt)
  · exact he
  · exact absurd h'.1 (h.2 c' hgt)

end Raccoon.FreeRuns
