import Mathlib.Data.List.Infix
import Mathlib.Data.Nat.Notation

/-!
Trees of tables stored in a flat memory. A table is an array of cells, a
non-zero entry of a table points to a child table, and a table is named by the
path of indices that leads to it from the root. The lemmas say what a write to
one entry does to every path, provided that different paths lead to different
tables.
-/

namespace Raccoon.TableTree

/-- Where the entries of a table lie in memory and which table an entry points to. -/
structure Layout (Table Addr Word : Type) where
  arity : ℕ
  cell : Table → ℕ → Addr
  child : Word → Table
  cell_inj : ∀ {t u : Table} {i j : ℕ}, i < arity → j < arity → cell t i = cell u j → t = u ∧ i = j

variable {Table Addr Word : Type} (L : Layout Table Addr Word)

def follow (mem : Addr → Word) (t : Table) : List ℕ → Table
  | [] => t
  | i :: q => follow mem (L.child (mem (L.cell t i))) q

variable {L} {mem mem' : Addr → Word} {t : Table}

@[simp] theorem follow_nil : follow L mem t [] = t := rfl

@[simp] theorem follow_cons (i : ℕ) (q : List ℕ) :
    follow L mem t (i :: q) = follow L mem (L.child (mem (L.cell t i))) q := rfl

theorem follow_append (q r : List ℕ) :
    follow L mem t (q ++ r) = follow L mem (follow L mem t q) r := by
  induction q generalizing t with
  | nil => rfl
  | cons i q ih => exact ih

variable (L) [Zero Word]

def Live (mem : Addr → Word) (t : Table) : List ℕ → Prop
  | [] => True
  | i :: q => mem (L.cell t i) ≠ 0 ∧ Live mem (L.child (mem (L.cell t i))) q

instance Live.decidable [DecidableEq Word] (mem : Addr → Word) :
    ∀ (t : Table) (q : List ℕ), Decidable (Live L mem t q)
  | _, [] => isTrue trivial
  | t, i :: q => @instDecidableAnd _ _ inferInstance (Live.decidable mem (L.child (mem (L.cell t i))) q)

variable {L}

@[simp] theorem live_nil : Live L mem t [] := trivial

@[simp] theorem live_cons (i : ℕ) (q : List ℕ) :
    Live L mem t (i :: q) ↔ mem (L.cell t i) ≠ 0 ∧ Live L mem (L.child (mem (L.cell t i))) q := Iff.rfl

theorem live_append (q r : List ℕ) :
    Live L mem t (q ++ r) ↔ Live L mem t q ∧ Live L mem (follow L mem t q) r := by
  induction q generalizing t with
  | nil => simp
  | cons i q ih => simp [ih, and_assoc]

theorem Live.initial {q r : List ℕ} (h : Live L mem t r) (hq : q <+: r) : Live L mem t q := by
  obtain ⟨s, rfl⟩ := hq
  exact ((live_append q s).mp h).1

theorem path_congr (q : List ℕ)
    (h : ∀ q' i q'', q = q' ++ i :: q'' → Live L mem t q' →
      mem' (L.cell (follow L mem t q') i) = mem (L.cell (follow L mem t q') i)) :
    (Live L mem' t q ↔ Live L mem t q) ∧ (Live L mem t q → follow L mem' t q = follow L mem t q) := by
  induction q generalizing t with
  | nil => simp
  | cons i q ih =>
    have h0 : mem' (L.cell t i) = mem (L.cell t i) := h [] i q rfl live_nil
    by_cases hz : mem (L.cell t i) = 0
    · simp [h0, hz]
    · have hrest := ih (t := L.child (mem (L.cell t i))) fun q' j q'' he hl =>
        h (i :: q') j q'' (by rw [he]; rfl) ⟨hz, hl⟩
      simp only [live_cons, follow_cons, h0]
      exact ⟨and_congr_right fun _ => hrest.1, fun hl => hrest.2 hl.2⟩

section Tree

variable (L mem t) (Adm : List ℕ → Prop)

/-- Different admissible paths lead to different tables. -/
def Separated : Prop :=
  ∀ q r, Adm q → Adm r → Live L mem t q → Live L mem t r → follow L mem t q = follow L mem t r → q = r

/-- `mem'` has the entries of `mem` in every table of the tree, but perhaps not entry `j` at path `q₀`. -/
def AgreesExcept (mem' : Addr → Word) (q₀ : List ℕ) (j : ℕ) : Prop :=
  ∀ q i, Adm q → Live L mem t q → i < L.arity → (q ≠ q₀ ∨ i ≠ j) →
    mem' (L.cell (follow L mem t q) i) = mem (L.cell (follow L mem t q) i)

variable {L mem t Adm} {q₀ : List ℕ} {j : ℕ}

/-- The paths that do not go through the changed entry are as before. -/
theorem AgreesExcept.path (h : AgreesExcept L mem t Adm mem' q₀ j)
    (hpre : ∀ q r, q <+: r → Adm r → Adm q) (hlt : ∀ q i, Adm (q ++ [i]) → i < L.arity)
    {q : List ℕ} (hq : Adm q) (hn : ¬ q₀ ++ [j] <+: q) :
    (Live L mem' t q ↔ Live L mem t q) ∧ (Live L mem t q → follow L mem' t q = follow L mem t q) := by
  refine path_congr q fun q' i q'' he hl => ?_
  have hadm : Adm (q' ++ [i]) := hpre _ q ⟨q'', by rw [he]; simp⟩ hq
  refine h q' i (hpre _ _ (List.prefix_append _ _) hadm) hl (hlt _ _ hadm) ?_
  by_contra hc
  obtain ⟨rfl, rfl⟩ : q' = q₀ ∧ i = j := by simpa using hc
  exact hn ⟨q'', by rw [he]; simp⟩

/-- A write below the lowest tables changes no path. -/
theorem AgreesExcept.path_of_bottom (h : AgreesExcept L mem t Adm mem' q₀ j)
    (hpre : ∀ q r, q <+: r → Adm r → Adm q) (hlt : ∀ q i, Adm (q ++ [i]) → i < L.arity)
    (hbot : ¬ Adm (q₀ ++ [j])) {q : List ℕ} (hq : Adm q) :
    (Live L mem' t q ↔ Live L mem t q) ∧ (Live L mem t q → follow L mem' t q = follow L mem t q) :=
  h.path hpre hlt hq fun hp => hbot (hpre _ _ hp hq)

/-- Pointing an unused entry to a blank table adds that one path to the tree. -/
theorem AgreesExcept.path_of_insert (h : AgreesExcept L mem t Adm mem' q₀ j)
    (hpre : ∀ q r, q <+: r → Adm r → Adm q) (hlt : ∀ q i, Adm (q ++ [i]) → i < L.arity)
    (hadm : Adm (q₀ ++ [j])) (hlive : Live L mem t q₀) (hold : mem (L.cell (follow L mem t q₀) j) = 0)
    (hnew : mem' (L.cell (follow L mem t q₀) j) ≠ 0)
    (hblank : ∀ i < L.arity, mem' (L.cell (L.child (mem' (L.cell (follow L mem t q₀) j))) i) = 0)
    {q : List ℕ} (hq : Adm q) :
    (Live L mem' t q ↔ Live L mem t q ∨ q = q₀ ++ [j]) ∧
      (Live L mem t q → follow L mem' t q = follow L mem t q) ∧
      follow L mem' t (q₀ ++ [j]) = L.child (mem' (L.cell (follow L mem t q₀) j)) := by
  have h₀ : Adm q₀ := hpre _ _ (List.prefix_append _ _) hadm
  have hself : ¬ q₀ ++ [j] <+: q₀ := fun hp => by
    have hlen := hp.length_le
    simp only [List.length_append, List.length_cons, List.length_nil] at hlen
    omega
  obtain ⟨hl₀, hf₀⟩ := h.path hpre hlt h₀ hself
  have hlive' : Live L mem' t q₀ := hl₀.mpr hlive
  have hfollow : follow L mem' t (q₀ ++ [j]) = L.child (mem' (L.cell (follow L mem t q₀) j)) := by
    rw [follow_append, hf₀ hlive]
    rfl
  by_cases hp : q₀ ++ [j] <+: q
  · obtain ⟨r, rfl⟩ := hp
    have hdead : ¬ Live L mem t (q₀ ++ [j] ++ r) := fun hl => by
      have hj := ((live_append q₀ [j]).mp (hl.initial (List.prefix_append _ _))).2
      exact hj.1 hold
    refine ⟨?_, fun hl => absurd hl hdead, hfollow⟩
    cases r with
    | nil =>
      simp only [List.append_nil, or_true, iff_true]
      refine (live_append q₀ [j]).mpr ⟨hlive', ?_, trivial⟩
      rwa [hf₀ hlive]
    | cons i r =>
      have hi : i < L.arity := hlt (q₀ ++ [j]) i (hpre _ _ ⟨r, by simp⟩ hq)
      have hne : q₀ ++ [j] ++ i :: r ≠ q₀ ++ [j] := by simp
      simp only [hdead, hne, or_self, iff_false]
      intro hl
      have hc := ((live_append (q₀ ++ [j]) (i :: r)).mp hl).2
      rw [hfollow] at hc
      exact hc.1 (hblank i hi)
  · obtain ⟨hl, hf⟩ := h.path hpre hlt hq hp
    have hne : q ≠ q₀ ++ [j] := fun he => hp (he ▸ List.prefix_rfl)
    exact ⟨by simp [hl, hne], hf, hfollow⟩

end Tree

end Raccoon.TableTree
