import Mathlib.Data.List.Basic

/-!
Things that one holder at a time may have: histories of acquisitions and
releases, who holds what after a history, and how a table of owners keeps up
with it.
-/

namespace Raccoon.Ownership

inductive Event (N C : Type) where
  | acquire (n : N) (c : C)
  | release (n : N) (c : C)
deriving DecidableEq

variable {N C : Type}

/-- `c` has acquired `n` in the history and has not released it since. -/
def Holds (h : List (Event N C)) (n : N) (c : C) : Prop :=
  ∃ before after, h = before ++ .acquire n c :: after ∧ .release n c ∉ after

variable {h : List (Event N C)} {n m : N} {c d : C}

theorem not_holds_nil : ¬ Holds ([] : List (Event N C)) n c := by
  rintro ⟨before, after, he, -⟩
  cases before <;> cases he

theorem holds_of_mem (hn : .acquire n c ∈ h) (hr : .release n c ∉ h) : Holds h n c := by
  obtain ⟨before, after, rfl⟩ := List.append_of_mem hn
  exact ⟨before, after, rfl, fun hm => hr (List.mem_append_right _ (List.mem_cons_of_mem _ hm))⟩

theorem holds_snoc {e : Event N C} :
    Holds (h ++ [e]) n c ↔ e = .acquire n c ∨ (Holds h n c ∧ e ≠ .release n c) := by
  constructor
  · rintro ⟨before, after, he, hafter⟩
    rcases List.eq_nil_or_concat after with rfl | ⟨after, e', rfl⟩
    · exact .inl (List.singleton_inj.mp (List.append_inj' he rfl).2)
    · rw [List.concat_eq_append, ← List.cons_append, ← List.append_assoc] at he
      obtain ⟨rfl, hlast⟩ := List.append_inj' he rfl
      obtain rfl := List.singleton_inj.mp hlast
      simp only [List.concat_eq_append, List.mem_append, List.mem_singleton, not_or] at hafter
      exact .inr ⟨⟨before, after, rfl, hafter.1⟩, Ne.symm hafter.2⟩
  · rintro (rfl | ⟨⟨before, after, rfl, hafter⟩, hne⟩)
    · exact ⟨h, [], rfl, List.not_mem_nil⟩
    · refine ⟨before, after ++ [e], by simp, ?_⟩
      simp only [List.mem_append, List.mem_singleton, not_or]
      exact ⟨hafter, Ne.symm hne⟩

theorem holds_acquire : Holds (h ++ [.acquire m d]) n c ↔ (n = m ∧ c = d) ∨ Holds h n c := by
  rw [holds_snoc]
  simp only [Event.acquire.injEq, reduceCtorEq, ne_eq, not_false_eq_true, and_true, eq_comm]

theorem holds_release : Holds (h ++ [.release m d]) n c ↔ Holds h n c ∧ ¬ (n = m ∧ c = d) := by
  rw [holds_snoc]
  simp only [reduceCtorEq, false_or, ne_eq, Event.release.injEq, eq_comm]

/-- Nothing was acquired while somebody held it, or released by anybody but its holder. -/
inductive Exclusive : List (Event N C) → Prop
  | nil : Exclusive []
  | acquire (h : List (Event N C)) (n : N) (c : C) : Exclusive h → (∀ d, ¬ Holds h n d) →
      Exclusive (h ++ [.acquire n c])
  | release (h : List (Event N C)) (n : N) (c : C) : Exclusive h → Holds h n c → Exclusive (h ++ [.release n c])

theorem Exclusive.not_holds (h' : Exclusive (h ++ [.acquire n c])) : ¬ Holds h n d := by
  generalize hl : h ++ [.acquire n c] = l at h'
  cases h' with
  | nil => simp at hl
  | acquire h m e _ hfree =>
    obtain ⟨rfl, hlast⟩ := List.append_inj' hl rfl
    cases List.singleton_inj.mp hlast
    exact hfree d
  | release h m e _ _ => cases List.singleton_inj.mp (List.append_inj' hl rfl).2

theorem Exclusive.unique (h' : Exclusive h) (hc : Holds h n c) (hd : Holds h n d) : c = d := by
  induction h' with
  | nil => exact absurd hc not_holds_nil
  | acquire h m e _ hfree ih =>
    rcases holds_acquire.mp hc with ⟨rfl, rfl⟩ | hc'
    · rcases holds_acquire.mp hd with ⟨-, rfl⟩ | hd'
      · rfl
      · exact absurd hd' (hfree d)
    · rcases holds_acquire.mp hd with ⟨rfl, -⟩ | hd'
      · exact absurd hc' (hfree c)
      · exact ih hc' hd'
  | release h m e _ _ ih => exact ih (holds_release.mp hc).1 (holds_release.mp hd).1

/-- A table of owners after a history. -/
structure Keeps (Owns : N → C → Prop) (h : List (Event N C)) : Prop where
  exclusive : Exclusive h
  owner : ∀ n c, Owns n c ↔ Holds h n c

variable {Owns Owns' : N → C → Prop}

theorem keeps_nil (hfree : ∀ n c, ¬ Owns n c) : Keeps Owns [] where
  exclusive := .nil
  owner n c := iff_of_false (hfree n c) not_holds_nil

theorem Keeps.acquire (hk : Keeps Owns h) (hfree : ∀ c, ¬ Owns m c)
    (hstep : ∀ n c, Owns' n c ↔ (n = m ∧ c = d) ∨ Owns n c) : Keeps Owns' (h ++ [.acquire m d]) where
  exclusive := .acquire h m d hk.exclusive fun c hc => hfree c ((hk.owner m c).mpr hc)
  owner n c := by rw [hstep, hk.owner, holds_acquire]

theorem Keeps.release (hk : Keeps Owns h) (hown : Owns m d)
    (hstep : ∀ n c, Owns' n c ↔ Owns n c ∧ ¬ (n = m ∧ c = d)) : Keeps Owns' (h ++ [.release m d]) where
  exclusive := .release h m d hk.exclusive ((hk.owner m d).mp hown)
  owner n c := by rw [hstep, hk.owner, holds_release]

theorem Keeps.unique (hk : Keeps Owns h) (hc : Owns n c) (hd : Owns n d) : c = d :=
  hk.exclusive.unique ((hk.owner n c).mp hc) ((hk.owner n d).mp hd)

end Raccoon.Ownership
