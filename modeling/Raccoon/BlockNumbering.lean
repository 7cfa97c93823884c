import Mathlib.Algebra.BigOperators.Group.List.Basic
import Mathlib.Algebra.Ring.Nat
import Mathlib.Data.List.Pairwise

/-!
The items of a list of disjoint blocks, numbered through from the first block
on.
-/

namespace Raccoon.BlockNumbering

/-- The items `start, …, start + count - 1`. -/
structure Block where
  start : ℕ
  count : ℕ
deriving DecidableEq, Repr

namespace Block

def Contains (b : Block) (p : ℕ) : Prop := b.start ≤ p ∧ p < b.start + b.count

def Apart (b c : Block) : Prop := b.start + b.count ≤ c.start ∨ c.start + c.count ≤ b.start

end Block

def total (bs : List Block) : ℕ := (bs.map Block.count).sum

def nth : List Block → ℕ → Option ℕ
  | [], _ => none
  | b :: bs, i => if i < b.count then some (b.start + i) else nth bs (i - b.count)

variable {b c : Block} {bs : List Block} {i j p : ℕ}

theorem Block.Apart.not_contains (h : b.Apart c) (hb : b.Contains p) : ¬ c.Contains p := by
  unfold Apart at h
  unfold Contains at *
  omega

theorem mem_of_nth (h : nth bs i = some p) : ∃ b ∈ bs, b.Contains p := by
  induction bs generalizing i with
  | nil => cases h
  | cons b bs ih =>
    rw [nth] at h
    by_cases hi : i < b.count
    · rw [if_pos hi] at h
      cases h
      exact ⟨b, List.mem_cons_self .., by unfold Block.Contains; omega⟩
    · rw [if_neg hi] at h
      obtain ⟨c, hc, hp⟩ := ih h
      exact ⟨c, List.mem_cons_of_mem _ hc, hp⟩

theorem nth_inj (hd : bs.Pairwise Block.Apart) (hi : nth bs i = some p) (hj : nth bs j = some p) : i = j := by
  induction bs generalizing i j with
  | nil => cases hi
  | cons b bs ih =>
    obtain ⟨hb, hd⟩ := List.pairwise_cons.mp hd
    have hrest {k : ℕ} (hk : nth bs k = some p) : ¬ b.Contains p := fun hc => by
      obtain ⟨c, hc', hp⟩ := mem_of_nth hk
      exact (hb c hc').not_contains hc hp
    have hhead {k : ℕ} (hk : k < b.count) (he : b.start + k = p) : b.Contains p := by
      unfold Block.Contains
      omega
    rw [nth] at hi hj
    by_cases h1 : i < b.count <;> by_cases h2 : j < b.count
    · rw [if_pos h1, Option.some.injEq] at hi
      rw [if_pos h2, Option.some.injEq] at hj
      omega
    · rw [if_pos h1, Option.some.injEq] at hi
      rw [if_neg h2] at hj
      exact absurd (hhead h1 hi) (hrest hj)
    · rw [if_neg h1] at hi
      rw [if_pos h2, Option.some.injEq] at hj
      exact absurd (hhead h2 hj) (hrest hi)
    · rw [if_neg h1] at hi
      rw [if_neg h2] at hj
      have := ih hd hi hj
      omega

end Raccoon.BlockNumbering
