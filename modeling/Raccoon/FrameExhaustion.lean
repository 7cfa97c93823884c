import Raccoon.FramePlacement

/-!
When `get_frame` finds no frame. `init_pmm` clears a word for the last frames
of the bitmap, but the search looks at whole words only.
-/

namespace Raccoon.FrameAllocator

open BlockNumbering Runs

variable {rs : List MmapEntry} {p : Pmm} {memmap : List MmapEntry} {bitmap : Bitmap} {h : List Call} {f : ℕ}

/-- `get_frame` returns whenever the bit of some frame is clear, and panics only if all are set. -/
structure ExhaustedOnly (p : Pmm) : Prop where
  returns : (∃ f < p.nframes, readFrame p.bitmap f = false) → ∃ a p', getFrame p = some (a, p')
  panics : getFrame p = none → ∀ f < p.nframes, readFrame p.bitmap f = true

/-- The frames that are free can be had exactly if there are none, or one of them is in the whole words. -/
theorem exhaustedOnly_iff (hmap : UsableMap memmap) (hrun : Run Step (start memmap bitmap) h p) (honce : p.once = true)
    (b : Bitmap) : ExhaustedOnly { p with bitmap := b } ↔
      (∀ f < p.nframes, readFrame b f = true) ∨ ∃ f < 64 * (p.nframes / 64), readFrame b f = false := by
  have ht : Tables (memmap.filter usable) p := .run hmap hrun
  have hset : p.isBitmapSet = true := (ht.late honce).1
  have hpages : p.nframes = pages (memmap.filter usable) := ht.nframes.trans (total_frames _)
  constructor
  · rintro ⟨hreturns, -⟩
    by_cases hall : ∀ f < p.nframes, readFrame b f = true
    · exact .inl hall
    · have hclear : ∃ f < p.nframes, readFrame b f = false := by simpa using hall
      obtain ⟨a, p', hs⟩ := hreturns hclear
      obtain ⟨f, hf, hfree, -⟩ := getFrame_late (p := { p with bitmap := b }) hset hs
      exact .inr ⟨f, hf, hfree⟩
  · rintro (hall | hword)
    · refine ⟨fun ⟨f, hf, hclear⟩ => ?_, fun _ => hall⟩
      exact absurd ((hall f hf).symm.trans hclear) (by simp)
    · have hsome : ∃ a p', getFrame { p with bitmap := b } = some (a, p') := by
        -- the first clear bit has an address
        classical
        obtain ⟨hlt, hfree⟩ := Nat.find_spec hword
        have hbelow : ∀ g < Nat.find hword, readFrame b g = true := by
          intro g hg
          by_contra hc
          exact Nat.find_min hword hg ⟨hg.trans hlt, by simpa using hc⟩
        obtain ⟨a, ha⟩ := hmap.exists_frameAddress (f := Nat.find hword) (by omega)
        rw [← ht.pgSize, ← ht.available] at ha
        exact ⟨a, _, getFrame_of_clear (p := { p with bitmap := b }) hset hlt hfree hbelow ha⟩
      refine ⟨fun _ => hsome, fun hnone => ?_⟩
      obtain ⟨a, p', hs⟩ := hsome
      rw [hnone] at hs
      cases hs

theorem exhaustedOnly_block : ExhaustedOnly { initPmm (start block fun _ => 0) with bitmap := fun _ => 0 } :=
  (exhaustedOnly_iff block_usable block_initPmm rfl _).mpr (.inr ⟨0, by decide, by decide⟩)

/-- Forty frames, none of which has been given. -/
def smallMap : List MmapEntry := [⟨0x100000, 0x28000, 1⟩]

theorem free_frames_missed : ¬ ∀ (memmap : List MmapEntry) (bitmap : Bitmap) (h : List Call) (p : Pmm) (b : Bitmap),
    UsableMap memmap → Run Step (start memmap bitmap) h p → p.once = true → ExhaustedOnly { p with bitmap := b } := by
  intro hall
  have hmap : UsableMap smallMap := by
    refine ⟨by decide, fun r hr => ?_, List.pairwise_singleton _ _⟩
    obtain rfl := List.mem_singleton.mp hr
    constructor <;> decide
  have hrun : Run Step (start smallMap fun _ => 0) [.initPmm] (initPmm (start smallMap fun _ => 0)) :=
    .snoc [] _ _ _ .nil rfl
  obtain ⟨a, p', hs⟩ := (hall smallMap _ _ _ (fun _ => 0) hmap hrun rfl).returns ⟨0, by decide, by decide⟩
  have hnone : getFrame { initPmm (start smallMap fun _ => 0) with bitmap := fun _ => 0 } = none := by decide +kernel
  rw [hnone] at hs
  cases hs

end Raccoon.FrameAllocator
