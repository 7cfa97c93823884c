import Raccoon.TableScan
import Raccoon.FreeRuns

/-!
What the three searches return and when they return at all. A search that has
gone down to a table never comes back from it: its index goes around the
table until an entry ends the search.
-/

namespace Raccoon.Mmu

open TableTree Loops Outcome Machine Level FreeRuns

section Searches

variable {A S : Type} {m : Machine A} {visit : Level → ℕ → S → ℕ → Action S} {final : S → ℕ}
  {l : Level} {a r : ℕ} {s : S}

theorem upper_step (hwf : WellFormed m.mem m.root) (hne : l ≠ plm1)
    (hvisit : ∀ e, visit l a s e = if e = 0 then .ret a else .descend)
    (hl : Live pageTables m.mem m.root (l.path a)) :
    Returns (scanStep visit final m) ⟨l, a, s⟩ r ↔
      (¬ Live pageTables m.mem m.root (l.inner.path a) ∧ r = a) ∨
      (Live pageTables m.mem m.root (l.inner.path a) ∧
        Returns (scanStep visit final m) ⟨l.inner, a, s⟩ r) := by
  have hstep := scanStep_of_live visit final s hwf hl
  rw [hvisit] at hstep
  by_cases he : entryAt m l a = 0
  · rw [if_pos he] at hstep
    have hdead : ¬ Live pageTables m.mem m.root (l.inner.path a) := fun hc => ((live_inner hne).mp hc).2 he
    simp only [returns_done_iff hstep, hdead, not_false_eq_true, true_and, false_and, or_false]
  · rw [if_neg he] at hstep
    have hlive : Live pageTables m.mem m.root (l.inner.path a) := (live_inner hne).mpr ⟨hl, he⟩
    simp only [returns_of_next hstep, hlive, not_true_eq_false, true_and, false_and, false_or]

theorem upper_returns (hwf : WellFormed m.mem m.root)
    (hvisit : ∀ l e, l ≠ plm1 → visit l a s e = if e = 0 then .ret a else .descend) :
    Returns (scanStep visit final m) ⟨plm4, a, s⟩ r ↔
      (¬ Live pageTables m.mem m.root (plm1.path a) ∧ r = a) ∨
      (Live pageTables m.mem m.root (plm1.path a) ∧
        Returns (scanStep visit final m) ⟨plm1, a, s⟩ r) := by
  have h3 : Live pageTables m.mem m.root (plm2.path a) → Live pageTables m.mem m.root (plm3.path a) :=
    fun h => ((live_inner (l := plm3) (by decide)).mp h).1
  have h2 : Live pageTables m.mem m.root (plm1.path a) → Live pageTables m.mem m.root (plm2.path a) :=
    fun h => ((live_inner (l := plm2) (by decide)).mp h).1
  rw [upper_step hwf (by decide) (fun e => hvisit plm4 e (by decide)) live_nil]
  by_cases hl3 : Live pageTables m.mem m.root (plm3.path a)
  · rw [Level.inner, upper_step hwf (by decide) (fun e => hvisit plm3 e (by decide)) hl3]
    by_cases hl2 : Live pageTables m.mem m.root (plm2.path a)
    · rw [Level.inner, upper_step hwf (by decide) (fun e => hvisit plm2 e (by decide)) hl2]
      simp [Level.inner, hl3, hl2]
    · have hl1 := mt h2 hl2
      simp [Level.inner, hl3, hl2, hl1]
  · have hl1 := mt (h3 ∘ h2) hl3
    simp [Level.inner, hl3, hl1]

/-- Entry `c` counted around the page table of `base` from the entry of `base`. -/
def around (m : Machine A) (base c : ℕ) : ℕ := tableEntry m (plm1.path base) ((plm1.index base + c) % 512)

variable {base size : ℕ}

theorem entryAt_around (c : ℕ) : entryAt m plm1 (plm1.rotate base c) = around m base c := entryAt_rotate c

theorem searchEmptySpace_iff (hwf : WellFormed m.mem m.root) : SearchEmptySpace m base r ↔
    (¬ Live pageTables m.mem m.root (plm1.path base) ∧ r = base) ∨
    (Live pageTables m.mem m.root (plm1.path base) ∧
      ∃ c, around m base c = 0 ∧ (∀ c' < c, around m base c' ≠ 0) ∧ r = plm1.rotate base c) := by
  rw [SearchEmptySpace, upper_returns hwf fun l e hl => by rw [searchEmptySpaceVisit, if_neg hl]]
  refine or_congr_right (and_congr_right fun hl => ?_)
  have hstep (c : ℕ) := scanStep_of_live searchEmptySpaceVisit (fun _ => 0) ()
    hwf ((live_rotate c).mpr hl)
  simp only [searchEmptySpaceVisit, entryAt_around, if_true, bump_rotate] at hstep
  have hseq := returns_seq_iff (scanStep searchEmptySpaceVisit (fun _ => 0) m) (r := r)
    (fun c => ⟨plm1, plm1.rotate base c, ()⟩) (fun c => around m base c = 0) (plm1.rotate base)
    (fun c _ hz => by rw [hstep, if_pos hz]) (fun c _ hz => by rw [hstep, if_neg hz])
  rwa [rotate_zero] at hseq

/-- The address that `search_available` returns when a stretch of unused entries ends `c` entries
after the one of `base`. -/
def lookBack (base size c : ℕ) : ℕ :=
  wsub (plm1.rotate base c) (wmul (wsub (pageNum size) 1) archPageSize)

theorem searchAvailable_iff (hwf : WellFormed m.mem m.root) : SearchAvailable m base size r ↔
    (¬ Live pageTables m.mem m.root (plm1.path base) ∧ r = base) ∨
    (Live pageTables m.mem m.root (plm1.path base) ∧
      ∃ c, FirstRun (fun i => around m base i = 0) (pageNum size) c ∧ r = lookBack base size c) := by
  rw [SearchAvailable, upper_returns hwf fun l e hl => by rw [searchAvailableVisit, if_neg hl]]
  refine or_congr_right (and_congr_right fun hl => ?_)
  have hstep (c temp : ℕ) := scanStep_of_live (searchAvailableVisit (pageNum size))
    (fun _ => 0) temp hwf ((live_rotate c).mpr hl)
  simp only [searchAvailableVisit, entryAt_around, if_true, bump_rotate] at hstep
  have hseq := returns_seq_iff (scanStep (searchAvailableVisit (pageNum size)) (fun _ => 0) m) (r := r)
    (fun c => ⟨plm1, plm1.rotate base c, countdown (fun i => around m base i = 0) (pageNum size) c⟩)
    (RunEnds (fun i => around m base i = 0) (pageNum size)) (lookBack base size)
    (fun c hmin hend => by
      obtain ⟨hf, hz⟩ := (runEnds_iff hmin).mp hend
      rw [hstep, if_pos hf, if_pos hz]
      rfl)
    (fun c hmin hend => by
      rw [hstep, countdown]
      by_cases hf : around m base c = 0
      · have hz : ¬ countdown (fun i => around m base i = 0) (pageNum size) c = 0 := fun hz =>
          hend ((runEnds_iff hmin).mpr ⟨hf, hz⟩)
        rw [if_pos hf, if_pos hf, if_neg hz]
      · rw [if_neg hf, if_neg hf])
  rw [rotate_zero, countdown] at hseq
  rw [hseq]
  simp only [FirstRun, and_assoc]

end Searches

end Raccoon.Mmu
