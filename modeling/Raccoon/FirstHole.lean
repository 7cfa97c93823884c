import Mathlib.Order.Bounds.Defs
import Raccoon.SearchAvailable

/-!
Which page `search_empty_space` returns. It sees the first hole only if that
lies in the page table of the base; past the end of the table its index goes
back to entries below the base.
-/

namespace Raccoon.Mmu

open TableTree Loops Outcome Machine Level

section Holes

variable {A : Type} {m : Machine A} {base r x c j : ℕ}

/-- A page that is not mapped, from the base up to the top of its 48-bit space. -/
structure Hole (m : Machine A) (base x : ℕ) : Prop where
  above : base ≤ x
  aligned : x % 4096 = 0
  space : x / 2 ^ 48 = base / 2 ^ 48
  unmapped : Unmapped m x

/-- What `search_empty_space` promises of its result. -/
structure FirstHole (m : Machine A) (base r : ℕ) : Prop where
  least : r ≠ 0 → IsLeast {x | Hole m base x} r
  none : r = 0 → ∀ x, ¬ Hole m base x

/-- The first hole lies in the two megabytes of the base, and is not page 0; or these are full; or there is no hole,
and the search takes page 0 for the answer after it has gone around the first table. -/
def HoleSeen (m : Machine A) (base : ℕ) : Prop :=
  ((∃ x, base ≤ x ∧ x / 2 ^ 21 = base / 2 ^ 21 ∧ Unmapped m x) ∧ ¬ (base = 0 ∧ Unmapped m 0)) ∨
  (∀ x, x / 2 ^ 21 = base / 2 ^ 21 → ¬ Unmapped m x) ∨
  (base < 2 ^ 21 ∧ Unmapped m 0 ∧ ∀ x, ¬ Hole m base x)

theorem unmapped_region (hl : Live pageTables m.mem m.root (plm1.path base)) (hx : x / 2 ^ 21 = base / 2 ^ 21) :
    Unmapped m x ↔ tableEntry m (plm1.path base) (plm1.index x) = 0 := by
  have hp : plm1.path x = plm1.path base := by
    simp only [path, index, unit, shift, List.cons.injEq, and_true]
    omega
  rw [unmapped_iff, entryAt, hp]
  exact ⟨fun h => h hl, fun h _ => h⟩

/-- Page `j` of the two megabytes of the base. -/
def tablePage (base j : ℕ) : ℕ := 4096 * (512 * (base / 2 ^ 21) + j)

theorem tablePage_region (base : ℕ) (hj : j < 512) : tablePage base j / 2 ^ 21 = base / 2 ^ 21 ∧
    plm1.index (tablePage base j) = j := by
  simp only [tablePage, index, unit, shift]
  omega

theorem tablePage_index (hbase : base % 4096 = 0) : tablePage base (plm1.index base) = base := by
  simp only [tablePage, index, unit, shift]
  omega

theorem rotate_tablePage (hbase : base % 4096 = 0) (c : ℕ) :
    plm1.rotate base c = tablePage base ((plm1.index base + c) % 512) := by
  simp only [tablePage, rotate, assign, index, unit, shift]
  omega

theorem unmapped_tablePage (hl : Live pageTables m.mem m.root (plm1.path base)) (hj : j < 512) :
    Unmapped m (tablePage base j) ↔ tableEntry m (plm1.path base) j = 0 := by
  obtain ⟨hregion, hindex⟩ := tablePage_region base hj
  rw [unmapped_region hl hregion, hindex]

theorem searchEmptySpace_missing (hwf : WellFormed m.mem m.root)
    (hl : ¬ Live pageTables m.mem m.root (plm1.path base)) : SearchEmptySpace m base r ↔ r = base := by
  simp [searchEmptySpace_iff hwf, hl]

theorem searchEmptySpace_first (hwf : WellFormed m.mem m.root) (hbase : base % 4096 = 0)
    (hl : Live pageTables m.mem m.root (plm1.path base)) (hz : around m base c = 0)
    (hmin : ∀ c' < c, around m base c' ≠ 0) :
    SearchEmptySpace m base r ↔ r = tablePage base ((plm1.index base + c) % 512) := by
  rw [searchEmptySpace_iff hwf, ← rotate_tablePage hbase]
  constructor
  · rintro (⟨hdead, -⟩ | ⟨-, c', hz', hmin', rfl⟩)
    · exact absurd hl hdead
    · rcases Nat.lt_trichotomy c c' with hlt | rfl | hgt
      · exact absurd hz (hmin' c hlt)
      · rfl
      · exact absurd hz' (hmin c' hgt)
  · rintro rfl
    exact .inr ⟨hl, c, hz, hmin, rfl⟩

/-- A page table that is missing is seen: the base itself is the hole. -/
theorem missing_iff (hwf : WellFormed m.mem m.root) (hbase : base % 4096 = 0)
    (hl : ¬ Live pageTables m.mem m.root (plm1.path base)) :
    (∀ r, SearchEmptySpace m base r → FirstHole m base r) ↔ HoleSeen m base := by
  have hun : Unmapped m base := (unmapped_iff base).mpr fun h => absurd h hl
  have hhole : Hole m base base := ⟨Nat.le_refl base, hbase, rfl, hun⟩
  simp only [searchEmptySpace_missing hwf hl, forall_eq]
  constructor
  · intro hfirst
    exact .inl ⟨⟨base, Nat.le_refl base, rfl, hun⟩, fun hzero => hfirst.none hzero.1 base hhole⟩
  · rintro (⟨-, hpage⟩ | hfull | ⟨-, -, hnone⟩)
    · refine ⟨fun _ => ⟨hhole, fun x hx => hx.above⟩, fun hzero => ?_⟩
      exact absurd ⟨hzero, hzero ▸ hun⟩ hpage
    · exact absurd hun (hfull base rfl)
    · exact absurd hhole (hnone base)

/-- A hole in the page table, at or above the base, is the first one. -/
theorem above_iff (hwf : WellFormed m.mem m.root) (hbase : base % 4096 = 0)
    (hl : Live pageTables m.mem m.root (plm1.path base)) (hz : around m base c = 0)
    (hmin : ∀ c' < c, around m base c' ≠ 0) (hin : plm1.index base + c < 512) :
    (∀ r, SearchEmptySpace m base r → FirstHole m base r) ↔ HoleSeen m base := by
  simp only [searchEmptySpace_first hwf hbase hl hz hmin, forall_eq, Nat.mod_eq_of_lt hin]
  obtain ⟨hregion, hindex⟩ := tablePage_region base hin
  have hun : Unmapped m (tablePage base (plm1.index base + c)) := by
    rw [unmapped_tablePage hl hin]
    rwa [around, Nat.mod_eq_of_lt hin] at hz
  have hbelow := tablePage_index hbase
  have hle : base ≤ tablePage base (plm1.index base + c) := by
    rw [tablePage] at hbelow ⊢
    omega
  have hleast : IsLeast {x | Hole m base x} (tablePage base (plm1.index base + c)) := by
    refine ⟨⟨hle, by rw [tablePage]; omega, by omega, hun⟩, fun x hx => ?_⟩
    have habove := hx.above
    have haligned := hx.aligned
    by_contra hlt
    -- a hole before it would be an entry that the search has passed over
    rw [tablePage] at hbelow hlt
    have hsame : x / 2 ^ 21 = base / 2 ^ 21 := by omega
    have hentry := (unmapped_region hl hsame).mp hx.unmapped
    have hxi : plm1.index x = plm1.index base + (x - base) / 4096 := by
      simp only [index, unit, shift] at hbelow ⊢
      omega
    refine hmin ((x - base) / 4096) (by omega) ?_
    rw [around, ← hxi, Nat.mod_eq_of_lt (index_lt ..)]
    exact hentry
  constructor
  · intro hfirst
    refine .inl ⟨⟨_, hle, hregion, hun⟩, ?_⟩
    rintro ⟨hzero, hpage⟩
    have hhole : Hole m base base := ⟨Nat.le_refl base, hbase, rfl, hzero ▸ hpage⟩
    have hzero' : tablePage base (plm1.index base + c) = 0 := by
      have hle' := hleast.2 hhole
      omega
    exact hfirst.none hzero' base hhole
  · intro hseen
    refine ⟨fun _ => hleast, fun hzero => ?_⟩
    have hbase0 : base = 0 := by omega
    rcases hseen with ⟨-, hpage⟩ | hfull | ⟨-, -, hnone⟩
    · exact absurd ⟨hbase0, hzero ▸ hun⟩ hpage
    · exact absurd hun (hfull _ hregion)
    · exact hnone

/-- Behind the last entry the search goes on below the base. -/
theorem below_iff (hwf : WellFormed m.mem m.root) (hbase : base % 4096 = 0)
    (hl : Live pageTables m.mem m.root (plm1.path base)) (hz : around m base c = 0)
    (hmin : ∀ c' < c, around m base c' ≠ 0) (hout : 512 ≤ plm1.index base + c) :
    (∀ r, SearchEmptySpace m base r → FirstHole m base r) ↔ HoleSeen m base := by
  simp only [searchEmptySpace_first hwf hbase hl hz hmin, forall_eq]
  have hi := plm1.index_lt base
  have hround : c < 512 := by
    by_contra hge
    refine hmin (c - 512) (by omega) ?_
    rwa [around, show (plm1.index base + (c - 512)) % 512 = (plm1.index base + c) % 512 by omega]
  obtain ⟨j, hj⟩ : ∃ j, plm1.index base + c = 512 + j := ⟨plm1.index base + c - 512, by omega⟩
  have hj' : (plm1.index base + c) % 512 = j := by omega
  have hjlt : j < 512 := by omega
  rw [around, hj'] at hz
  rw [hj']
  obtain ⟨hregion, -⟩ := tablePage_region base hjlt
  have hbelow := tablePage_index hbase
  have hlow : tablePage base j < base := by
    rw [tablePage] at hbelow ⊢
    omega
  have hun : Unmapped m (tablePage base j) := (unmapped_tablePage hl hjlt).mpr hz
  have hused (k : ℕ) (hk : plm1.index base ≤ k) (hk' : k < 512) : tableEntry m (plm1.path base) k ≠ 0 := by
    have hpassed := hmin (k - plm1.index base) (by omega)
    rwa [around, show (plm1.index base + (k - plm1.index base)) % 512 = k by omega] at hpassed
  have hnone (x : ℕ) (hx : base ≤ x) (hsame : x / 2 ^ 21 = base / 2 ^ 21) : ¬ Unmapped m x := by
    rw [unmapped_region hl hsame]
    refine hused _ ?_ (index_lt ..)
    simp only [index, unit, shift]
    omega
  constructor
  · intro hfirst
    have hzero : tablePage base j = 0 := by
      by_contra hne
      have habove := (hfirst.least hne).1.above
      omega
    exact .inr (.inr ⟨by omega, hzero ▸ hun, hfirst.none hzero⟩)
  · rintro (⟨⟨x, hx, hsame, hfree⟩, -⟩ | hfull | ⟨hsmall, hpage, hall⟩)
    · exact absurd hfree (hnone x hx hsame)
    · exact absurd hun (hfull _ hregion)
    · have hzero : tablePage base j = 0 := by
        have hentry := (unmapped_region hl (show 0 / 2 ^ 21 = base / 2 ^ 21 by omega)).mp hpage
        -- entry 0 is the first one after the end of the table
        have hj0 : j = 0 := by
          by_contra hne
          refine hmin (512 - plm1.index base) (by omega) ?_
          rwa [around, show (plm1.index base + (512 - plm1.index base)) % 512 = plm1.index 0 by
            rw [Nat.add_sub_cancel' hi.le]
            rfl]
        rw [tablePage]
        omega
      exact ⟨fun hne => absurd hzero hne, fun _ => hall⟩

/-- A full page table keeps the search going for ever. -/
theorem full_iff (hwf : WellFormed m.mem m.root) (hl : Live pageTables m.mem m.root (plm1.path base))
    (hused : ∀ c, around m base c ≠ 0) :
    (∀ r, SearchEmptySpace m base r → FirstHole m base r) ↔ HoleSeen m base := by
  refine iff_of_true (fun r hr => ?_) (.inr (.inl fun x hx => ?_))
  · rcases (searchEmptySpace_iff hwf).mp hr with ⟨hdead, -⟩ | ⟨-, c, hz, -⟩
    · exact absurd hl hdead
    · exact absurd hz (hused c)
  · rw [unmapped_region hl hx]
    have hi := plm1.index_lt base
    have hentry := hused (plm1.index x + 512 - plm1.index base)
    rwa [around, show (plm1.index base + (plm1.index x + 512 - plm1.index base)) % 512 = plm1.index x by
      have := plm1.index_lt x
      omega] at hentry

/-- `search_empty_space` returns the first hole exactly if the first hole is one that it sees. -/
theorem searchEmptySpace_firstHole_iff (hwf : WellFormed m.mem m.root) (hbase : base % 4096 = 0) :
    (∀ r, SearchEmptySpace m base r → FirstHole m base r) ↔ HoleSeen m base := by
  by_cases hl : Live pageTables m.mem m.root (plm1.path base)
  · by_cases hfree : ∃ c, around m base c = 0
    · obtain ⟨c, hz, hmin⟩ := exists_first hfree
      rcases Nat.lt_or_ge (plm1.index base + c) 512 with hin | hout
      · exact above_iff hwf hbase hl hz hmin hin
      · exact below_iff hwf hbase hl hz hmin hout
    · exact full_iff hwf hl fun c hc => hfree ⟨c, hc⟩
  · exact missing_iff hwf hbase hl

end Holes

theorem searchEmptySpace_firstHole_blank : SearchEmptySpace blankMachine 0x8000000000 0x8000000000 ∧
    FirstHole blankMachine 0x8000000000 0x8000000000 := by
  have hrun : SearchEmptySpace blankMachine 0x8000000000 0x8000000000 :=
    (searchEmptySpace_iff blankMachine_tables.1).mpr (.inl ⟨by decide, rfl⟩)
  refine ⟨hrun, (searchEmptySpace_firstHole_iff blankMachine_tables.1 (by decide)).mpr ?_ _ hrun⟩
  refine .inl ⟨⟨0x8000000000, ?_⟩, fun hzero => absurd hzero.1 (by decide)⟩
  exact ⟨Nat.le_refl _, rfl, (unmapped_iff _).mpr fun hl => absurd hl (by decide)⟩

/-- With entry 0 of the first page table of slot 1 as the only one unused, a search from its second page returns
the first. -/
theorem searchEmptySpace_below : ¬ ∀ (m : Machine (List ℕ)) (base r : ℕ), WellFormed m.mem m.root → base % 4096 = 0 →
    SearchEmptySpace m base r → FirstHole m base r := by
  intro hall
  let g : ℕ → ℕ → ℕ := fun _ j => if j = 0 then 0 else 0x6003
  have hwf := branch_wellFormed (g := g) []
  have hpath : plm1.path 0x8000001000 = [1, 0, 0] := by decide
  have hindex : plm1.index 0x8000001000 = 1 := by decide
  have hl : Live pageTables (branchMachine g []).mem (branchMachine g []).root (plm1.path 0x8000001000) :=
    hpath ▸ branch_live [] (by decide)
  have hentry (c : ℕ) : around (branchMachine g []) 0x8000001000 c = g 0 ((1 + c) % 512) := by
    rw [around, hpath, hindex, branch_entry [] (by decide) (Nat.mod_lt _ (by decide))]
  have hmin : ∀ c' < 511, around (branchMachine g []) 0x8000001000 c' ≠ 0 := by
    intro c' hc'
    rw [hentry, show g 0 ((1 + c') % 512) = 0x6003 from if_neg (by omega)]
    decide
  have hfound := (searchEmptySpace_first (r := 0x8000000000) hwf (by decide) hl (hentry 511) hmin).mpr (by decide)
  have hfirst := hall _ 0x8000001000 0x8000000000 hwf (by decide) hfound
  exact absurd (hfirst.least (by decide)).1.above (by decide)

end Raccoon.Mmu
