import Raccoon.SearchTermination

/-!
When the space that `search_available` returns is free. The search accepts a
missing table whatever the size, and its index wraps inside one page table, so
the stretch it has counted need not lie where it looks back to.
-/

namespace Raccoon.Mmu

open TableTree Loops Outcome Machine Level FreeRuns

section Space

variable {A : Type} {m : Machine A} {base size a c : ℕ}

def Unmapped (m : Machine A) (x : ℕ) : Prop := leaf m.mem m.root (x / 4096 % 2 ^ 36) = 0

/-- What `search_available` promises of a non-zero result: free pages at or above the base. -/
structure FreeSpace (m : Machine A) (base size a : ℕ) : Prop where
  above : base ≤ a
  aligned : a % 4096 = 0
  bound : a + size ≤ 2 ^ 64
  unmapped : ∀ x, a ≤ x → x < a + size → Unmapped m x

theorem pagePath_page (x : ℕ) : pagePath (x / 4096 % 2 ^ 36) = plm1.path x := by
  simp only [pagePath, path, index, unit, shift, List.cons.injEq, and_true]
  omega

theorem unmapped_iff (x : ℕ) : Unmapped m x ↔
    (Live pageTables m.mem m.root (plm1.path x) → entryAt m plm1 x = 0) := by
  have hi : x / 4096 % 2 ^ 36 % 512 = plm1.index x := by
    simp only [index, unit, shift]
    omega
  rw [Unmapped, leaf, pagePath_page, hi]
  by_cases hl : Live pageTables m.mem m.root (plm1.path x)
  · rw [if_pos hl]
    exact ⟨fun h _ => h, fun h => h hl⟩
  · rw [if_neg hl]
    exact ⟨fun _ h => absurd h hl, fun _ => rfl⟩

theorem unmapped_of_entry {x : ℕ} (htable : x / 2 ^ 21 = base / 2 ^ 21)
    (h : tableEntry m (plm1.path base) (plm1.index x) = 0) : Unmapped m x := by
  refine (unmapped_iff x).mpr fun _ => ?_
  have hp : plm1.path x = plm1.path base := by
    simp only [path, index, unit, shift, List.cons.injEq, and_true]
    omega
  rwa [entryAt, hp]

/-- The result is free space: the first stretch of unused entries around the page table does not go
past the end of the table, or it is the stretch at the base itself, found in the second round; or the
result is zero. Where the page table is missing, the range at the base is free. -/
structure SafeSearch (m : Machine A) (base size : ℕ) : Prop where
  missing : ¬ Live pageTables m.mem m.root (plm1.path base) → base = 0 ∨ FreeSpace m base size base
  table : Live pageTables m.mem m.root (plm1.path base) → ∀ c,
    FirstRun (fun i => around m base i = 0) (pageNum size) c →
      plm1.index base + c < 512 ∨
      (c = 511 + pageNum size ∧ plm1.index base + pageNum size ≤ 512) ∨
      512 * (base / 2 ^ 21) + (plm1.index base + c) % 512 + 1 = pageNum size

theorem pageNum_bounds (h : 0 < size) : 4096 * (pageNum size - 1) < size ∧ size ≤ 4096 * pageNum size := by
  unfold pageNum archPageSize
  split <;> omega

theorem lookBack_eq (hbase : base % 4096 = 0) (hlt : base < 2 ^ 64) (hsize : size < 2 ^ 64) (hpos : 0 < size) :
    let last := 512 * (base / 2 ^ 21) + (plm1.index base + c) % 512
    lookBack base size c =
      if pageNum size - 1 ≤ last then 4096 * (last - (pageNum size - 1))
      else 2 ^ 64 - 4096 * (pageNum size - 1 - last) := by
  intro last
  obtain ⟨h1, h2⟩ := pageNum_bounds hpos
  have hn : 0 < pageNum size := by omega
  have hrot : plm1.rotate base c = 4096 * last := by
    simp only [rotate, assign, index, unit, shift, last]
    omega
  have hlast : last < 2 ^ 52 := by
    have := plm1.index_lt base
    omega
  have hsub : wsub (pageNum size) 1 = pageNum size - 1 := wsub_eq hn (by omega)
  have hmul : wmul (pageNum size - 1) archPageSize = 4096 * (pageNum size - 1) := by
    unfold archPageSize
    rw [wmul_eq (by omega)]
    omega
  rw [lookBack, hrot, hsub, hmul, wsub]
  split <;> omega

theorem freeSpace_of_entries {lo : ℕ} (hlt : base < 2 ^ 64) (hbase : base % 4096 = 0) (hpos : 0 < size)
    (hlo : plm1.index base ≤ lo) (hhi : lo + pageNum size ≤ 512)
    (hfree : ∀ j < pageNum size, tableEntry m (plm1.path base) (lo + j) = 0) :
    FreeSpace m base size (4096 * (512 * (base / 2 ^ 21) + lo)) := by
  obtain ⟨-, hsize⟩ := pageNum_bounds hpos
  simp only [index, unit, shift] at hlo
  refine ⟨by omega, by omega, by omega, fun x hx hx' => ?_⟩
  have hi : plm1.index x = lo + (x / 4096 - (512 * (base / 2 ^ 21) + lo)) := by
    simp only [index, unit, shift]
    omega
  exact unmapped_of_entry (by omega) (hi ▸ hfree _ (by omega))

theorem entry_of_runEnds {n : ℕ} (h : RunEnds (fun i => around m base i = 0) n c) {j : ℕ} (hj : j ≤ n) :
    tableEntry m (plm1.path base) ((plm1.index base + c - j) % 512) = 0 := by
  have hn := h.1
  rw [Nat.add_sub_assoc (hj.trans hn)]
  exact h.2 j hj

theorem runEnds_of_entries {n : ℕ} (hn : n ≤ c)
    (h : ∀ j ≤ n, tableEntry m (plm1.path base) ((plm1.index base + c - j) % 512) = 0) :
    RunEnds (fun i => around m base i = 0) n c :=
  ⟨hn, fun j hj => by
    have := h j hj
    rwa [Nat.add_sub_assoc (hj.trans hn)] at this⟩

/-- Whether the space that the search looks back to is free, for the first stretch it finds. -/
theorem lookBack_iff (hbase : base % 4096 = 0) (hlt : base < 2 ^ 64) (hsize : size < 2 ^ 64) (hpos : 0 < size)
    (hc : FirstRun (fun i => around m base i = 0) (pageNum size) c) :
    (lookBack base size c ≠ 0 → FreeSpace m base size (lookBack base size c)) ↔
      plm1.index base + c < 512 ∨
      (c = 511 + pageNum size ∧ plm1.index base + pageNum size ≤ 512) ∨
      512 * (base / 2 ^ 21) + (plm1.index base + c) % 512 + 1 = pageNum size := by
  obtain ⟨hrun, hmin⟩ := hc
  obtain ⟨hn1, hn2⟩ := pageNum_bounds hpos
  have hn : 0 < pageNum size := by omega
  have hcn := hrun.1
  rw [lookBack_eq hbase hlt hsize hpos]
  by_cases hin : plm1.index base + c < 512
  · -- the stretch lies inside the table
    refine iff_of_true (fun _ => ?_) (.inl hin)
    have hlast : 512 * (base / 2 ^ 21) + (plm1.index base + c) % 512 - (pageNum size - 1) =
        512 * (base / 2 ^ 21) + (plm1.index base + c - (pageNum size - 1)) := by omega
    rw [if_pos (by omega), hlast]
    refine freeSpace_of_entries hlt hbase hpos (by omega) (by omega) fun j hj => ?_
    have := entry_of_runEnds hrun (j := pageNum size - 1 - j) (by omega)
    rwa [show (plm1.index base + c - (pageNum size - 1 - j)) % 512 =
      plm1.index base + c - (pageNum size - 1) + j by omega] at this
  · rw [or_iff_right hin]
    constructor
    · intro h
      have hs := plm1.index_lt base
      have hbelow : plm1.index base = base / 2 ^ 12 % 512 := rfl
      by_cases hz : 512 * (base / 2 ^ 21) + (plm1.index base + c) % 512 + 1 = pageNum size
      · exact .inr hz
      refine .inl ?_
      by_cases hle : pageNum size - 1 ≤ 512 * (base / 2 ^ 21) + (plm1.index base + c) % 512
      · rw [if_pos hle] at h
        have habove := (h (by omega)).above
        -- a stretch that wraps and still starts at or above the base starts at the base
        have hw : (plm1.index base + c) % 512 = plm1.index base + pageNum size - 1 := by
          by_contra hne
          refine hmin ((plm1.index base + c) % 512 - plm1.index base) (by omega)
            (runEnds_of_entries (by omega) fun j hj => ?_)
          have := entry_of_runEnds hrun hj
          rwa [show (plm1.index base + ((plm1.index base + c) % 512 - plm1.index base) - j) % 512 =
            (plm1.index base + c - j) % 512 by omega]
        refine ⟨?_, by omega⟩
        by_contra hne
        refine hmin (511 + pageNum size) (by omega) (runEnds_of_entries (by omega) fun j hj => ?_)
        have := entry_of_runEnds hrun hj
        rwa [show (plm1.index base + (511 + pageNum size) - j) % 512 = (plm1.index base + c - j) % 512 by omega]
      · -- the subtraction wraps, and the range leaves the address space
        rw [if_neg hle] at h
        have := (h (by omega)).bound
        omega
    · rintro (⟨rfl, hfit⟩ | hz)
      · -- found in the second round, the stretch starts at the base
        intro _
        have hs := plm1.index_lt base
        have hlast : 512 * (base / 2 ^ 21) + (plm1.index base + (511 + pageNum size)) % 512 -
            (pageNum size - 1) = 512 * (base / 2 ^ 21) + plm1.index base := by omega
        rw [if_pos (by omega), hlast]
        refine freeSpace_of_entries hlt hbase hpos le_rfl hfit fun j hj => ?_
        have := entry_of_runEnds hrun (j := pageNum size - 1 - j) (by omega)
        rwa [show (plm1.index base + (511 + pageNum size) - (pageNum size - 1 - j)) % 512 =
          plm1.index base + j by omega] at this
      · intro hne
        rw [if_pos (by omega)] at hne
        omega

theorem SafeSearch.free (h : SafeSearch m base size) (hwf : WellFormed m.mem m.root) (hbase : base % 4096 = 0)
    (hlt : base < 2 ^ 64) (hpos : 0 < size) (hsize : size < 2 ^ 64) (ha : SearchAvailable m base size a)
    (hne : a ≠ 0) : FreeSpace m base size a := by
  rcases (searchAvailable_iff hwf).mp ha with ⟨hl, he⟩ | ⟨hl, c, hc, he⟩
  · rw [he] at hne ⊢
    exact (h.missing hl).resolve_left hne
  · rw [he] at hne ⊢
    exact (lookBack_iff hbase hlt hsize hpos hc).mpr (h.table hl c hc) hne

/-- `search_available` returns free space from a base exactly under the condition of `SafeSearch`. -/
theorem searchAvailable_free_iff (hwf : WellFormed m.mem m.root) (hbase : base % 4096 = 0)
    (hlt : base < 2 ^ 64) (hpos : 0 < size) (hsize : size < 2 ^ 64) :
    (∀ a, SearchAvailable m base size a → a ≠ 0 → FreeSpace m base size a) ↔ SafeSearch m base size := by
  refine ⟨fun h => ⟨fun hl => ?_, fun hl c hc => ?_⟩,
    fun h a => h.free hwf hbase hlt hpos hsize⟩
  · exact or_iff_not_imp_left.mpr (h base ((searchAvailable_iff hwf).mpr (.inl ⟨hl, rfl⟩)))
  · exact (lookBack_iff hbase hlt hsize hpos hc).mp
      (h _ ((searchAvailable_iff hwf).mpr (.inr ⟨hl, c, hc, rfl⟩)))

theorem searchAvailable_free_blank : SearchAvailable blankMachine 0x8000000000 0x1000 0x8000000000 ∧
    FreeSpace blankMachine 0x8000000000 0x1000 0x8000000000 := by
  have hslot {x : ℕ} (h : x / 2 ^ 39 = 1) : ¬ Live pageTables blankMachine.mem blankMachine.root (plm1.path x) := by
    have h4 : plm4.index x = 1 := by
      simp only [index, unit, shift, h]
    rw [path, h4]
    exact fun hl => hl.1 (by decide)
  have hsafe : SafeSearch blankMachine 0x8000000000 0x1000 := by
    refine ⟨fun _ => .inr ⟨le_rfl, by decide, by decide, fun x hx hx' => ?_⟩, fun hl => absurd hl (hslot (by decide))⟩
    exact (unmapped_iff x).mpr fun hl => absurd hl (hslot (by omega))
  have hfound : SearchAvailable blankMachine 0x8000000000 0x1000 0x8000000000 :=
    (searchAvailable_iff blankMachine_tables.1).mpr (.inl ⟨hslot (by decide), rfl⟩)
  exact ⟨hfound, (searchAvailable_free_iff blankMachine_tables.1 (by decide) (by decide) (by decide) (by decide)).mpr
    hsafe _ hfound (by decide)⟩

theorem branch_slot0 {g : ℕ → ℕ → ℕ} {x : ℕ} (frames : List ℕ) (h : plm4.index x = 0) :
    entryAt (branchMachine g frames) plm4 x = 0 := by
  rw [entryAt, tableEntry, h, branch_mem, branch_root]
  exact (branchMem_root (by decide) (by decide)).trans (if_neg (by decide))

theorem branch_mapped : ¬ Unmapped (branchMachine (fun _ _ => 0x6003) []) 0x8000000000 := by
  intro hun
  have hpath : plm1.path 0x8000000000 = [1, 0, 0] := by decide
  have hindex : plm1.index 0x8000000000 = 0 := by decide
  have hz := (unmapped_iff _).mp hun (hpath ▸ branch_live [] (by decide))
  rw [entryAt, hpath, hindex, branch_entry [] (by decide) (by decide)] at hz
  cases hz

/-- The range of two pages below slot 1, whose page table is missing, runs into a mapped page. -/
theorem searchAvailable_overlaps : ¬ ∀ (m : Machine (List ℕ)) (base size a : ℕ), WellFormed m.mem m.root →
    base % 4096 = 0 → base < 2 ^ 64 → 0 < size → size < 2 ^ 64 → SearchAvailable m base size a → a ≠ 0 →
    FreeSpace m base size a := by
  intro hall
  have hwf := branch_wellFormed (g := fun _ _ => 0x6003) []
  have hmissing : ¬ Live pageTables (branchMachine (fun _ _ => 0x6003) []).mem
      (branchMachine (fun _ _ => 0x6003) []).root (plm1.path 0x7ffffff000) := fun hl =>
    hl.1 (branch_slot0 [] (by decide))
  have hfree := hall _ 0x7ffffff000 0x2000 0x7ffffff000 hwf (by decide) (by decide) (by decide) (by decide)
    ((searchAvailable_iff hwf).mpr (.inl ⟨hmissing, rfl⟩)) (by decide)
  exact branch_mapped (hfree.unmapped 0x8000000000 (by decide) (by decide))

end Space

section Allocation

variable {A : Type} [FrameSource A] {m m' : Machine A} {size flags a : ℕ}

/-- The bits of `map_flags` as page-table attributes. -/
def convertToArchFlags (flags : ℕ) : ℕ :=
  (if flags &&& 1 ≠ 0 then 1 else 0) ||| (if flags &&& 2 ≠ 0 then 2 else 0) |||
    (if flags &&& 4 ≠ 0 then 4 else 0) ||| (if flags &&& 8 ≠ 0 then 1 <<< 9 else 0) |||
    (if flags &&& 16 ≠ 0 then 1 <<< 63 else 0) ||| (if flags &&& 32 ≠ 0 then 1 <<< 10 else 0)

/-- `space_alloc(size, flags)` returns `a` and leaves the machine `m'`. -/
def SpaceAlloc (m : Machine A) (size flags a : ℕ) (m' : Machine A) : Prop :=
  SearchAvailable m (craftAddr 0 0 0 1 0) size a ∧
    if a = 0 then m' = m else kmmap a size (convertToArchFlags flags) m = .ok m'

/-- Under the condition of `SafeSearch` an allocation lies on pages that were not mapped. -/
theorem spaceAlloc_unmapped (hwf : WellFormed m.mem m.root) (hpos : 0 < size) (hsize : size < 2 ^ 64)
    (hsafe : SafeSearch m (craftAddr 0 0 0 1 0) size) (h : SpaceAlloc m size flags a m') (hne : a ≠ 0)
    (x : ℕ) (hx : a ≤ x) (hx' : x < a + size) : Unmapped m x := by
  have hbase : craftAddr 0 0 0 1 0 = 0x1000 := by decide
  rw [hbase] at hsafe
  have ha := h.1
  rw [hbase] at ha
  exact (hsafe.free hwf (by decide) (by decide) hpos hsize ha hne).unmapped x hx hx'

end Allocation

end Raccoon.Mmu
