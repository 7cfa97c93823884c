import Mathlib.Data.Set.Basic

/-!
Memory as who has its frames: a manager hands out the frames it owns, to hold
tables or to lie behind pages. Frames of others may lie behind any pages.
-/

namespace Raccoon.FrameOwnership

@[ext]
structure Memory (P F : Type) where
  free : Set F
  tables : Set F
  behind : P → Option F

variable {P F : Type}

/-- A frame of the manager is free, holds a table or lies behind one page. -/
structure Exclusive (owned : Set F) (s : Memory P F) : Prop where
  free_tables : ∀ f ∈ s.free, f ∉ s.tables
  behind_free : ∀ p f, s.behind p = some f → f ∈ owned → f ∉ s.free
  behind_tables : ∀ p f, s.behind p = some f → f ∈ owned → f ∉ s.tables
  behind_inj : ∀ p q f, s.behind p = some f → s.behind q = some f → f ∈ owned → p = q

/-- The pages of a range that had no frame get one each, and free frames become tables. -/
structure Maps (range : Set P) (s s' : Memory P F) : Prop where
  kept : ∀ p, (p ∈ range → s.behind p ≠ none) → s'.behind p = s.behind p
  new : ∀ p ∈ range, s.behind p = none → ∃ f ∈ s.free, s'.behind p = some f ∧ f ∉ s'.free ∧ f ∉ s'.tables
  distinct : ∀ p ∈ range, ∀ q ∈ range, s.behind p = none → s.behind q = none → s'.behind p = s'.behind q → p = q
  grown : s.tables ⊆ s'.tables
  tables : ∀ f ∈ s'.tables, f ∈ s.tables ∨ f ∈ s.free
  free : s'.free ⊆ s.free
  apart : ∀ f ∈ s'.free, f ∉ s'.tables

/-- The pages of a range lose their frames, and those of the manager are free again. -/
structure Unmaps (owned : Set F) (range : Set P) (s s' : Memory P F) : Prop where
  lost : ∀ p ∈ range, s'.behind p = none
  kept : ∀ p ∉ range, s'.behind p = s.behind p
  tables : s'.tables = s.tables
  free : ∀ f, f ∈ s'.free ↔ f ∈ s.free ∨ f ∈ owned ∧ ∃ p ∈ range, s.behind p = some f

inductive Change (P : Type) where
  | maps (range : Set P)
  | unmaps (range : Set P)

def Step (owned : Set F) (s : Memory P F) (c : Change P) (s' : Memory P F) : Prop :=
  match c with
  | .maps range => Maps range s s'
  | .unmaps range => Unmaps owned range s s'

variable {owned : Set F} {range : Set P} {s s' : Memory P F}

theorem Maps.cases (hm : Maps range s s') {p : P} {f : F} (hf : s'.behind p = some f) :
    s.behind p = some f ∨ (p ∈ range ∧ s.behind p = none ∧ f ∈ s.free ∧ f ∉ s'.free ∧ f ∉ s'.tables) := by
  by_cases hp : p ∈ range ∧ s.behind p = none
  · obtain ⟨g, hg, hbehind, hfree, htables⟩ := hm.new p hp.1 hp.2
    obtain rfl := Option.some.inj (hf.symm.trans hbehind)
    exact .inr ⟨hp.1, hp.2, hg, hfree, htables⟩
  · exact .inl ((hm.kept p fun hr hn => hp ⟨hr, hn⟩).symm.trans hf)

theorem Exclusive.maps (he : Exclusive owned s) (hm : Maps range s s') : Exclusive owned s' := by
  refine ⟨hm.apart, fun p f hf ho hfree => ?_, fun p f hf ho htable => ?_, fun p q f hp hq ho => ?_⟩
  · rcases hm.cases hf with hold | ⟨-, -, -, hnot, -⟩
    · exact he.behind_free p f hold ho (hm.free hfree)
    · exact hnot hfree
  · rcases hm.cases hf with hold | ⟨-, -, -, -, hnot⟩
    · rcases hm.tables f htable with ht | hfree
      · exact he.behind_tables p f hold ho ht
      · exact he.behind_free p f hold ho hfree
    · exact hnot htable
  · rcases hm.cases hp with hp' | ⟨hpr, hpn, hpf, -⟩
    · rcases hm.cases hq with hq' | ⟨-, -, hqf, -⟩
      · exact he.behind_inj p q f hp' hq' ho
      · exact absurd hqf (he.behind_free p f hp' ho)
    · rcases hm.cases hq with hq' | ⟨hqr, hqn, -⟩
      · exact absurd hpf (he.behind_free q f hq' ho)
      · exact hm.distinct p hpr q hqr hpn hqn (hp.trans hq.symm)

theorem Exclusive.unmaps (he : Exclusive owned s) (hu : Unmaps owned range s s') : Exclusive owned s' := by
  have hold {p : P} {f : F} (hf : s'.behind p = some f) : p ∉ range ∧ s.behind p = some f := by
    have hp : p ∉ range := fun hp => by
      rw [hu.lost p hp] at hf
      cases hf
    exact ⟨hp, (hu.kept p hp).symm.trans hf⟩
  refine ⟨fun f hf ht => ?_, fun p f hf ho hfree => ?_, fun p f hf ho ht => ?_, fun p q f hp hq ho => ?_⟩
  · rw [hu.tables] at ht
    rcases (hu.free f).mp hf with hf | ⟨ho, p, -, hp⟩
    · exact he.free_tables f hf ht
    · exact he.behind_tables p f hp ho ht
  · obtain ⟨hp, hf⟩ := hold hf
    rcases (hu.free f).mp hfree with hfree | ⟨-, q, hq, hqf⟩
    · exact he.behind_free p f hf ho hfree
    · exact hp (he.behind_inj p q f hf hqf ho ▸ hq)
  · rw [hu.tables] at ht
    exact he.behind_tables p f (hold hf).2 ho ht
  · exact he.behind_inj p q f (hold hp).2 (hold hq).2 ho

theorem Exclusive.step {c : Change P} (he : Exclusive owned s) (hs : Step owned s c s') : Exclusive owned s' := by
  cases c with
  | maps range => exact he.maps hs
  | unmaps range => exact he.unmaps hs

/-- Nothing changes where nothing is mapped. -/
theorem Exclusive.stays (he : Exclusive owned s) : Maps ∅ s s where
  kept _ _ := rfl
  new _ hp := absurd hp (Set.notMem_empty _)
  distinct _ hp := absurd hp (Set.notMem_empty _)
  grown := subset_rfl
  tables _ := .inl
  free := subset_rfl
  apart := he.free_tables

end Raccoon.FrameOwnership
