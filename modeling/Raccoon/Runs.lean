import Mathlib.Algebra.Group.Nat.Defs
import Mathlib.Data.List.Basic

/-!
Runs of labelled transition systems, with the labels of their steps in order.
-/

namespace Raccoon.Runs

variable {S L : Type}

/-- The steps `h` lead from `s₀` to a state. -/
inductive Run (step : S → L → S → Prop) (s₀ : S) : List L → S → Prop
  | nil : Run step s₀ [] s₀
  | snoc (h : List L) (s s' : S) (a : L) : Run step s₀ h s → step s a s' → Run step s₀ (h ++ [a]) s'

variable {step : S → L → S → Prop} {s₀ s s' : S} {h h' : List L}

/-- The invariant rule, with the labels so far. -/
theorem Run.invariant (Inv : List L → S → Prop) (hrun : Run step s₀ h s) (hinit : Inv [] s₀)
    (hstep : ∀ h s a s', Inv h s → step s a s' → Inv (h ++ [a]) s') : Inv h s := by
  induction hrun with
  | nil => exact hinit
  | snoc h s s' a _ hs ih => exact hstep h s a s' ih hs

theorem Run.trans {t : S} (hrun : Run step s₀ h s) (hrun' : Run step s h' t) : Run step s₀ (h ++ h') t := by
  induction hrun' with
  | nil => rwa [List.append_nil]
  | snoc h' s s' a _ hs ih =>
    rw [← List.append_assoc]
    exact .snoc _ _ _ _ ih hs

theorem Run.mono {step' : S → L → S → Prop} (hrun : Run step s₀ h s)
    (hstep : ∀ s a s', step s a s' → step' s a s') : Run step' s₀ h s := by
  induction hrun with
  | nil => exact .nil
  | snoc h s s' a _ hs ih => exact .snoc _ _ _ _ ih (hstep _ _ _ hs)

theorem Run.of_snoc {a : L} (hrun : Run step s₀ (h ++ [a]) s') : ∃ s, Run step s₀ h s ∧ step s a s' := by
  generalize hh : h ++ [a] = h' at hrun
  cases hrun with
  | nil => simp at hh
  | snoc h₁ s _ b hr hs =>
    obtain ⟨rfl, hab⟩ := List.append_inj' hh rfl
    obtain rfl := List.singleton_inj.mp hab
    exact ⟨s, hr, hs⟩

def exec (next : S → L → Option S) : S → List L → Option S
  | s, [] => some s
  | s, a :: h => (next s a).bind fun s' => exec next s' h

theorem run_of_exec (next : S → L → Option S) (he : exec next s h = some s') :
    Run (fun s a s' => next s a = some s') s h s' := by
  induction h generalizing s with
  | nil =>
    cases he
    exact .nil
  | cons a h ih =>
    obtain ⟨t, ht, he⟩ := Option.bind_eq_some_iff.mp he
    exact Run.trans (h := [a]) (.snoc [] s t a .nil ht) (ih he)

end Raccoon.Runs
