import Mathlib.Data.List.Perm.Subperm
import Raccoon.Access
import Raccoon.Kmunmap

/-!
`space_alloc` followed by `space_free`. Allocation rounds the size up and goes on
through any number of page tables; `kmunmap` rounds down, gets no further than one
page table, and keeps the bits above the frame number in what it gives back.
-/

namespace Raccoon.Mmu

open TableTree Loops Outcome Machine Level

section Code

variable {A : Type} [FrameSource A]

def spaceFree (addr size : ℕ) (m : Machine A) : Except Stuck (Machine A × List ℕ) :=
  kmunmap addr size .memToUpper m

end Code

section Place

variable {A : Type} {m : Machine A} {size a : ℕ}

/-- Where the allocator of virtual space can end up: in the first page table, or so far below its start that
the range runs past the last address. -/
theorem searchAvailable_place (hwf : WellFormed m.mem m.root) (hpos : 0 < size) (hsize : size < 2 ^ 64)
    (h : SearchAvailable m (craftAddr 0 0 0 1 0) size a) :
    a % 4096 = 0 ∧ a < 2 ^ 64 ∧ (a < 2 ^ 21 ∨ 2 ^ 64 < a + size) := by
  have hbase : craftAddr 0 0 0 1 0 = 0x1000 := by decide
  rw [hbase] at h
  rcases (searchAvailable_iff hwf).mp h with ⟨-, he⟩ | ⟨-, c, -, he⟩
  · omega
  · obtain ⟨h1, h2⟩ := pageNum_bounds hpos
    rw [lookBack_eq (by decide) (by decide) hsize hpos] at he
    split at he <;> omega

end Place

section Allocation

variable {A : Type} [FrameSource A] {m m₁ m₂ : Machine A} {size flags a P : ℕ} {freed : List ℕ}

structure Allocated (m : Machine A) (a size flags : ℕ) (m₁ : Machine A) : Prop where
  wf : WellFormed m₁.mem m₁.root
  used : ∀ P, P < 2 ^ 36 → Meets a size P → TreePage P ∧ leaf m₁.mem m₁.root P ≠ 0
  kept : ∀ P, TreePage P → ¬ Meets a size P → leaf m₁.mem m₁.root P = leaf m.mem m.root P
  new : ∀ P, P < 2 ^ 36 → Meets a size P → leaf m.mem m.root P = 0 →
    ∃ f < 2 ^ 52, leaf m₁.mem m₁.root P = f ||| convertToArchFlags flags ||| 1

theorem spaceAlloc_allocated (hwf : WellFormed m.mem m.root) (hfresh : Fresh m) (hsize : size < 2 ^ 64)
    (halloc : SpaceAlloc m size flags a m₁) (ha : a ≠ 0)
    (hslot : ∀ P, P < 2 ^ 36 → Meets a size P → P / 2 ^ 27 ≠ recursiveMappingEntry) :
    Allocated m a size flags m₁ := by
  have hrun := halloc.2
  rw [if_neg ha] at hrun
  have hlock : m.kmmapLock = 0 := by
    by_contra hheld
    rw [kmmap, if_pos hheld] at hrun
    cases hrun
  rcases kmmap_cases hwf hfresh hlock (convertToArchFlags_entryFlags flags) hsize hslot with hc | ⟨m', n, hok, h, -⟩
  · rw [hrun] at hc
    cases hc
  · rw [hrun] at hok
    obtain rfl := Except.ok.inj hok
    have hin {P : ℕ} (hlt : P < 2 ^ 36) (hP : Meets a size P) :
        TreePage P ∧ a % 2 ^ 48 / 4096 ≤ P ∧ P < visitedEnd a size := by
      obtain ⟨hlo, hhi⟩ := meets_iff.mp hP
      exact ⟨⟨hlt, hslot P hlt hP⟩, hlo, lt_min hhi hlt⟩
    constructor <;> simp only [releaseKmmap_mem, releaseKmmap_root]
    · exact h.wf
    · intro P hlt hP
      obtain ⟨htree, hlo, hhi⟩ := hin hlt hP
      exact ⟨htree, used_of_mapped h htree hlo hhi⟩
    · intro P htree hP
      refine h.kept P htree ?_
      rw [meets_iff] at hP
      have := htree.1
      unfold visitedEnd
      omega
    · intro P hlt hP hz
      obtain ⟨htree, hlo, hhi⟩ := hin hlt hP
      obtain ⟨i, -, f, hf, -, he⟩ := h.new P htree hlo hhi hz
      exact ⟨f, (hfresh.aligned i f hf).2, he⟩

/-- What `space_free` owes the allocation that led from `m` to `m₁`: the range is unmapped, the frames of
the leaves the allocation created are given back, each once, and nothing else is. -/
structure Undone (m m₁ : Machine A) (a size : ℕ) (m₂ : Machine A) (freed : List ℕ) : Prop where
  unmapped : ∀ P, Meets a size P → leaf m₂.mem m₂.root P = 0
  kept : ∀ P, TreePage P → ¬ Meets a size P → leaf m₂.mem m₂.root P = leaf m.mem m.root P
  frames : ∃ pages : List ℕ, pages.Nodup ∧
    (∀ P, P ∈ pages ↔ Meets a size P ∧ leaf m.mem m.root P = 0 ∧ leaf m₁.mem m₁.root P ≠ 0) ∧
    freed = pages.map fun P => 4096 * frameOf (leaf m₁.mem m₁.root P)
  given : m₂.frames = freed.foldl (fun frames a => FrameSource.freeFrame a frames) m₁.frames

/-- The pages at `a` were not mapped, they are whole pages of one page table, and no attribute was asked
for that lies above the frame number. -/
structure Reversible (m : Machine A) (a size flags : ℕ) : Prop where
  data : flags &&& 16 = 0
  whole : ∀ P, P < 2 ^ 36 → Meets a size P → Inside (a % 2 ^ 48) size P
  table : ∀ P, Inside (a % 2 ^ 48) size P → P / 512 = a % 2 ^ 48 / 4096 / 512
  free : ∀ P, Meets a size P → leaf m.mem m.root P = 0

theorem inside_iff (ha : a % 4096 = 0) : Inside (a % 2 ^ 48) size P ↔
    a % 2 ^ 48 / 4096 ≤ P ∧ P < a % 2 ^ 48 / 4096 + size / 4096 := by
  unfold Inside
  omega

/-- The page after the last one has the indices of page 0. -/
theorem leaf_wrap (mem : PhysMem) (f : ℕ) : leaf mem f (2 ^ 36) = leaf mem f 0 := rfl

theorem convertToArchFlags_lt (h : flags &&& 16 = 0) : convertToArchFlags flags < 2 ^ 52 := by
  have hbit (c : Prop) [Decidable c] {x : ℕ} (hx : x < 2 ^ 52) : (if c then x else 0) < 2 ^ 52 := by
    split
    · exact hx
    · decide
  rw [convertToArchFlags, h, if_neg (not_not.mpr rfl), Nat.or_zero]
  refine Nat.or_lt_two_pow (Nat.or_lt_two_pow (Nat.or_lt_two_pow (Nat.or_lt_two_pow ?_ ?_) ?_) ?_) ?_
  all_goals exact hbit _ (by decide)

theorem convertToArchFlags_execute (h : flags &&& 16 ≠ 0) : (convertToArchFlags flags).testBit 63 = true := by
  have h63 : (1 <<< 63).testBit 63 = true := by decide
  simp only [convertToArchFlags, if_pos h, Nat.testBit_or, h63, Bool.or_true, Bool.true_or]

/-- How far `kmunmap` gets: it is done in the first page table, or it fails at its end. -/
theorem spaceFree_cases (hwf : WellFormed m₁.mem m₁.root) (ha : a % 4096 = 0) (hsize : size < 2 ^ 64)
    (htree : TreePage (a % 2 ^ 48 / 4096))
    (hl : Live pageTables m₁.mem m₁.root (pagePath (a % 2 ^ 48 / 4096))) :
    (∃ r, spaceFree a size m₁ = .ok r ∧
      Unmapping m₁ (a % 2 ^ 48 / 4096) (a % 2 ^ 48 / 4096 + size / 4096) r.1 r.2 ∧
      a % 2 ^ 48 / 4096 + size / 4096 ≤ 512 * (a % 2 ^ 48 / 4096 / 512 + 1)) ∨
    (512 * (a % 2 ^ 48 / 4096 / 512 + 1) < a % 2 ^ 48 / 4096 + size / 4096 ∧
      (TablesHidden m₁ → ∃ e, spaceFree a size m₁ = .error e)) := by
  have hpart : sizeFromPage a size = size := by
    rw [sizeFromPage, shiftr_eq, if_neg]
    omega
  have hfirst : firstWhole (a % 2 ^ 48) = a % 2 ^ 48 / 4096 := if_pos (by omega)
  have hbase : a % 2 ^ 48 = rangeBase a size .memToUpper % 2 ^ 48 := rfl
  have hcases := kmunmap_cases hwf hbase htree hpart.symm hsize hl
  rw [hfirst] at hcases
  rcases hcases with ⟨hn, hrun⟩ | hdone | hcross
  · rw [hn]
    exact .inl ⟨(m₁, []), hrun, .refl hwf le_rfl, by omega⟩
  · exact .inl hdone
  · exact .inr hcross

omit [FrameSource A] in
/-- If the range runs past the last page, the page after that is the first one, which the allocation kept. -/
theorem Allocated.wrap (h : Allocated m a size flags m₁) (hP : Meets a size P)
    (hend : a % 2 ^ 48 / 4096 + size / 4096 ≤ 512 * (a % 2 ^ 48 / 4096 / 512 + 1)) (ha : a % 4096 = 0)
    (hlast : ¬ P < 2 ^ 36) : P = 2 ^ 36 ∧ 0 < a % 2 ^ 48 / 4096 ∧ leaf m₁.mem m₁.root 0 = leaf m.mem m.root 0 := by
  rw [meets_iff] at hP
  refine ⟨by omega, by omega, h.kept 0 ⟨by decide, by decide⟩ fun hzero => ?_⟩
  rw [meets_iff] at hzero
  omega

theorem Allocated.undone (h : Allocated m a size flags m₁) (ha : a % 4096 = 0) (hr : Reversible m a size flags)
    (hun : Unmapping m₁ (a % 2 ^ 48 / 4096) (a % 2 ^ 48 / 4096 + size / 4096) m₂ freed)
    (hend : a % 2 ^ 48 / 4096 + size / 4096 ≤ 512 * (a % 2 ^ 48 / 4096 / 512 + 1)) :
    Undone m m₁ a size m₂ freed := by
  have hwhole {P : ℕ} (hlt : P < 2 ^ 36) (hP : Meets a size P) := (inside_iff ha).mp (hr.whole P hlt hP)
  have hmem (P : ℕ) : P ∈ List.range' (a % 2 ^ 48 / 4096) (size / 4096) ↔
      Meets a size P ∧ leaf m.mem m.root P = 0 ∧ leaf m₁.mem m₁.root P ≠ 0 := by
    rw [List.mem_range'_1]
    constructor
    · intro hin
      have hP : Meets a size P := meets_iff.mpr (by omega)
      exact ⟨hP, hr.free P hP, (h.used P (by omega) hP).2⟩
    · rintro ⟨hP, hz, hne⟩
      by_cases hlt : P < 2 ^ 36
      · exact hwhole hlt hP
      · obtain ⟨rfl, -, hzero⟩ := h.wrap hP hend ha hlt
        exact absurd (hzero.trans hz) hne
  refine ⟨fun P hP => ?_, fun P htree hP => ?_, ⟨_, List.nodup_range', hmem, ?_⟩, hun.frames⟩
  · by_cases hlt : P < 2 ^ 36
    · rw [hun.leaves P (h.used P hlt hP).1, if_pos (hwhole hlt hP)]
    · obtain ⟨rfl, hpos, hzero⟩ := h.wrap hP hend ha hlt
      rw [leaf_wrap, hun.leaves 0 ⟨by decide, by decide⟩, if_neg (by omega), hzero, ← leaf_wrap]
      exact hr.free _ hP
  · rw [hun.leaves P htree, if_neg, h.kept P htree hP]
    rw [meets_iff] at hP
    omega
  · rw [hun.given, Nat.add_sub_cancel_left]
    refine List.map_congr_left fun P hin => cleanBits_frame ?_
    obtain ⟨hP, hz, -⟩ := (hmem P).mp hin
    have hlt := List.mem_range'_1.mp hin
    obtain ⟨f, hf, he⟩ := h.new P (by omega) hP hz
    have hword : f ||| convertToArchFlags flags ||| 1 < 2 ^ 52 :=
      Nat.or_lt_two_pow (Nat.or_lt_two_pow hf (convertToArchFlags_lt hr.data)) (by decide)
    rw [he, Nat.div_eq_of_lt hword, Nat.zero_mod]

theorem Undone.reversible (h : Allocated m a size flags m₁) (ha : a % 4096 = 0)
    (hun : Unmapping m₁ (a % 2 ^ 48 / 4096) (a % 2 ^ 48 / 4096 + size / 4096) m₂ freed)
    (hend : a % 2 ^ 48 / 4096 + size / 4096 ≤ 512 * (a % 2 ^ 48 / 4096 / 512 + 1))
    (hu : Undone m m₁ a size m₂ freed) : Reversible m a size flags := by
  -- a page that is not cleared would still be mapped
  have hwhole : ∀ P, P < 2 ^ 36 → Meets a size P → Inside (a % 2 ^ 48) size P := by
    intro P hlt hP
    obtain ⟨htree, hused⟩ := h.used P hlt hP
    rw [inside_iff ha]
    by_contra hout
    have hleaf := hun.leaves P htree
    rw [if_neg hout] at hleaf
    exact hused (hleaf.symm.trans (hu.unmapped P hP))
  have hzero (hP : Meets a size (2 ^ 36)) : leaf m.mem m.root 0 = 0 := by
    obtain ⟨-, hpos, hkept⟩ := h.wrap hP hend ha (lt_irrefl _)
    have hleaf := hun.leaves 0 ⟨by decide, by decide⟩
    rw [if_neg (by omega)] at hleaf
    rw [← hkept, ← hleaf, ← leaf_wrap]
    exact hu.unmapped _ hP
  obtain ⟨pages, hnodup, hpages, hfreed⟩ := hu.frames
  have hgiven := hun.given
  rw [Nat.add_sub_cancel_left] at hgiven
  have hfree : ∀ P, Meets a size P → leaf m.mem m.root P = 0 := by
    intro P hP
    by_cases hlt : P < 2 ^ 36
    · by_contra hne
      -- as many frames are given back as there are pages, so every page was new
      have hlen : pages.length = size / 4096 := by
        have := congrArg List.length (hfreed.symm.trans hgiven)
        simpa using this
      have hin : P ∈ List.range' (a % 2 ^ 48 / 4096) (size / 4096) :=
        List.mem_range'_1.mpr ((inside_iff ha).mp (hwhole P hlt hP))
      have hsub : pages ⊆ (List.range' (a % 2 ^ 48 / 4096) (size / 4096)).erase P := by
        intro Q hQ
        obtain ⟨hmeets, hz, hused⟩ := (hpages Q).mp hQ
        have hQP : Q ≠ P := fun hc => hne (hc ▸ hz)
        rw [List.mem_erase_of_ne hQP, List.mem_range'_1]
        by_cases hltQ : Q < 2 ^ 36
        · exact (inside_iff ha).mp (hwhole Q hltQ hmeets)
        · obtain ⟨rfl, -, hkept⟩ := h.wrap hmeets hend ha hltQ
          exact absurd (hkept.trans (hzero hmeets)) hused
      have hle := (List.Nodup.subperm hnodup hsub).length_le
      rw [List.length_erase_of_mem hin, List.length_range', hlen] at hle
      have := List.length_pos_of_mem hin
      rw [List.length_range'] at this
      omega
    · obtain ⟨rfl, -⟩ := h.wrap hP hend ha hlt
      exact hzero hP
  refine ⟨?_, hwhole, fun P hP => ?_, hfree⟩
  · by_contra hexec
    have hfirst : Meets a size (a % 2 ^ 48 / 4096) := meets_iff.mpr (by omega)
    obtain ⟨f, -, he⟩ := h.new _ (by omega) hfirst (hfree _ hfirst)
    have hmem : cleanBits (leaf m₁.mem m₁.root (a % 2 ^ 48 / 4096)) ∈ freed := by
      rw [hgiven]
      refine List.mem_map_of_mem (List.mem_range'_1.mpr ?_)
      exact (inside_iff ha).mp (hwhole _ (by omega) hfirst)
    rw [hfreed] at hmem
    obtain ⟨Q, -, hQ⟩ := List.mem_map.mp hmem
    have hlarge : (cleanBits (leaf m₁.mem m₁.root (a % 2 ^ 48 / 4096))).testBit 63 = true := by
      rw [he, cleanBits, Nat.testBit_and, Nat.testBit_or, Nat.testBit_or, convertToArchFlags_execute hexec,
        Bool.or_true, Bool.true_or, Bool.true_and]
      decide
    have hframe : 4096 * frameOf (leaf m₁.mem m₁.root Q) < 2 ^ 63 := by
      unfold frameOf
      omega
    rw [← hQ, Nat.testBit_lt_two_pow hframe] at hlarge
    cases hlarge
  · rw [inside_iff ha] at hP
    omega

/-- `space_free` undoes `space_alloc` on the allocations of `Reversible`, and on no others while the tables
are not mapped at their physical addresses. -/
theorem spaceFree_undoes_iff (hwf : WellFormed m.mem m.root) (hfresh : Fresh m) (hpos : 0 < size)
    (hsize : size < 2 ^ 64) (halloc : SpaceAlloc m size flags a m₁) (hne : a ≠ 0) :
    (Reversible m a size flags → ∃ m₂ freed, spaceFree a size m₁ = .ok (m₂, freed) ∧
      Undone m m₁ a size m₂ freed) ∧
    (TablesHidden m₁ → size ≤ 2 ^ 47 →
      (∃ m₂ freed, spaceFree a size m₁ = .ok (m₂, freed) ∧ Undone m m₁ a size m₂ freed) →
      Reversible m a size flags) := by
  obtain ⟨ha, hlt, hplace⟩ := searchAvailable_place hwf hpos hsize halloc.1
  have hfirst : Meets a size (a % 2 ^ 48 / 4096) := meets_iff.mpr (by omega)
  constructor
  · intro hr
    -- all pages are in the page table of the first one, which is the first or the last of all
    have hslot : ∀ P, P < 2 ^ 36 → Meets a size P → P / 2 ^ 27 ≠ recursiveMappingEntry := by
      intro P hltP hP
      have htable := hr.table P (hr.whole P hltP hP)
      have hlast (hover : 2 ^ 64 < a + size) : (2 ^ 36 - 1) / 512 = a % 2 ^ 48 / 4096 / 512 :=
        hr.table _ (hr.whole _ (by decide) (meets_iff.mpr (by omega)))
      unfold recursiveMappingEntry
      omega
    have h := spaceAlloc_allocated hwf hfresh hsize halloc hne hslot
    obtain ⟨htree, hused⟩ := h.used _ (by omega) hfirst
    rcases spaceFree_cases h.wf ha hsize htree (live_of_leaf hused) with ⟨r, hrun, hun, hend⟩ | ⟨hcross, -⟩
    · exact ⟨r.1, r.2, hrun, h.undone ha hr hun hend⟩
    · have := hr.table (512 * (a % 2 ^ 48 / 4096 / 512 + 1)) ((inside_iff ha).mpr (by omega))
      omega
  · rintro hhidden hmost ⟨m₂, freed, hrun, hu⟩
    have htree : TreePage (a % 2 ^ 48 / 4096) := by
      unfold TreePage recursiveMappingEntry
      omega
    have hmap := halloc.2
    rw [if_neg hne] at hmap
    obtain ⟨hwf', -, -, hused⟩ := kmmap_grows hwf hfresh (convertToArchFlags_entryFlags flags) hsize hmap
    have hl := (hused _ hfirst (by omega)).initial (List.prefix_append _ _)
    rcases spaceFree_cases hwf' ha hsize htree hl with ⟨r, hr, hun, hend⟩ | ⟨-, herr⟩
    · have hslot : ∀ P, P < 2 ^ 36 → Meets a size P → P / 2 ^ 27 ≠ recursiveMappingEntry := by
        intro P _
        refine Meets.slot_ne ?_
        unfold recursiveMappingEntry
        omega
      rw [hrun] at hr
      cases hr
      exact hu.reversible (spaceAlloc_allocated hwf hfresh hsize halloc hne hslot) ha hun hend
    · obtain ⟨e, he⟩ := herr hhidden
      rw [he] at hrun
      cases hrun

end Allocation

section Blank

theorem blankMachine_search (size : ℕ) : SearchAvailable blankMachine 0x1000 size 0x1000 := by
  have hmissing : ¬ Live pageTables blankMachine.mem blankMachine.root (plm1.path 0x1000) := by decide +kernel
  exact (searchAvailable_iff blankMachine_tables.1).mpr (.inl ⟨hmissing, rfl⟩)

theorem spaceFree_undoes_page : ∃ m₁ m₂ freed, SpaceAlloc blankMachine 0x1000 3 0x1000 m₁ ∧
    spaceFree 0x1000 0x1000 m₁ = .ok (m₂, freed) ∧ Undone blankMachine m₁ 0x1000 0x1000 m₂ freed := by
  have hrun : kmmap 0x1000 0x1000 3 blankMachine = .ok _ := ok_of_isOk (by decide +kernel) blankMachine
  have halloc : SpaceAlloc blankMachine 0x1000 3 0x1000 _ := ⟨blankMachine_search _, hrun⟩
  have honly (P : ℕ) (hP : Meets 0x1000 0x1000 P) : P = 1 := by
    rw [meets_iff] at hP
    omega
  obtain ⟨m₂, freed, hfree⟩ := (spaceFree_undoes_iff blankMachine_tables.1 blankMachine_fresh (by decide) (by decide)
    halloc (by decide)).1 ⟨by decide, fun P _ hP => honly P hP ▸ by decide, fun P hP => by unfold Inside at hP; omega,
      fun P hP => honly P hP ▸ by decide +kernel⟩
  exact ⟨_, m₂, freed, halloc, hfree⟩

/-- One byte: the page that was mapped for it stays. -/
theorem spaceFree_leaves_page : ¬ ∀ (m m₁ : Machine (List ℕ)) (size flags a : ℕ), WellFormed m.mem m.root → Fresh m →
    0 < size → size < 2 ^ 64 → SpaceAlloc m size flags a m₁ → a ≠ 0 →
    ∃ m₂ freed, spaceFree a size m₁ = .ok (m₂, freed) ∧ Undone m m₁ a size m₂ freed := by
  intro hall
  have hrun : kmmap 0x1000 1 3 blankMachine = .ok _ := ok_of_isOk (by decide +kernel) blankMachine
  have halloc : SpaceAlloc blankMachine 1 3 0x1000 _ := ⟨blankMachine_search _, hrun⟩
  obtain ⟨m₂, freed, hfree, hu⟩ := hall _ _ 1 3 0x1000 blankMachine_tables.1 blankMachine_fresh (by decide) (by decide)
    halloc (by decide)
  have hnone (m₁ : Machine (List ℕ)) : spaceFree 0x1000 1 m₁ = .ok (m₁, []) := by
    rw [spaceFree, kmunmap]
    exact if_pos (.inl (by decide))
  rw [hnone] at hfree
  cases hfree
  have hleft : leaf ((kmmap 0x1000 1 3 blankMachine).toOption.getD blankMachine).mem
      ((kmmap 0x1000 1 3 blankMachine).toOption.getD blankMachine).root 1 ≠ 0 := by decide +kernel
  exact hleft (hu.unmapped 1 (meets_iff.mpr (by decide)))

end Blank

end Raccoon.Mmu
