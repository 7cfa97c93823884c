import Mathlib.Data.List.Basic
import Raccoon.Loops

/-!
Reads and writes of arrays that fail outside of them. What an array holds is
given by the list of its elements, split at the index of the access.
-/

namespace Raccoon.Buffers

open Loops Outcome

variable {α ε ρ : Type} {k : ℕ}

/-- `a[i]`, or the failure `e` where there is nothing to read. -/
def load (e : ε) (a : List α) (i : ℕ) : Outcome ε ρ α :=
  match a[i]? with
  | some c => .next c
  | none => .fail e

/-- `a[i] = c;` -/
def store (e : ε) (a : Vector α k) (i : ℕ) (c : α) : Outcome ε ρ (Vector α k) :=
  if h : i < k then .next (a.set i c) else .fail e

variable {e : ε} {a : Vector α k} {pre post : List α} {x : α}

@[simp] theorem load_append : (load e (pre ++ x :: post) pre.length : Outcome ε ρ α) = .next x := by
  simp [load]

@[simp] theorem load_cons_zero : (load e (x :: post) 0 : Outcome ε ρ α) = .next x := rfl

@[simp] theorem load_cons_succ (i : ℕ) : (load e (x :: post) (i + 1) : Outcome ε ρ α) = load e post i := rfl

theorem store_append (h : a.toList = pre ++ x :: post) (c : α) :
    ∃ a', (store e a pre.length c : Outcome ε ρ _) = .next a' ∧ a'.toList = pre ++ c :: post := by
  have hk : pre.length < k := by
    have := congrArg List.length h
    simp only [Vector.length_toList, List.length_append, List.length_cons] at this
    omega
  refine ⟨a.set pre.length c, dif_pos hk, ?_⟩
  rw [Vector.toList_set, h]
  simp

theorem load_of_getElem? {i : ℕ} (h : a[i]? = some x) : (load e a.toList i : Outcome ε ρ α) = .next x := by
  have hlist : a.toList[i]? = some x := by simpa using h
  rw [load, hlist]

theorem store_of_lt {i : ℕ} (h : i < k) (c : α) :
    ∃ a', (store e a i c : Outcome ε ρ _) = .next a' ∧ ∀ j : ℕ, a'[j]? = if j = i then some c else a[j]? := by
  refine ⟨a.set i c, dif_pos h, fun j => ?_⟩
  rw [Vector.getElem?_set]
  by_cases hj : j = i
  · rw [if_pos hj, if_pos hj.symm]
  · rw [if_neg hj, if_neg (Ne.symm hj)]

end Raccoon.Buffers
