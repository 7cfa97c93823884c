import Raccoon.FrameAllocator
import Raccoon.Ownership
import Raccoon.Runs

/-!
No frame is handed out twice. The counters and the bitmap number the frames in
the same way only in the first region: there the counters leave out the last
frame, so the bits that `init_pmm` sets are those of the frames given so far
only as long as these come from the first region.
-/

namespace Raccoon.FrameAllocator

open BlockNumbering Ownership Runs

inductive Call where
  | getFrame (a : ℕ)
  | initPmm
  | freeFrame (a : ℕ)
deriving DecidableEq

/-- A call of the allocator; `getFrame a` is one that returns `a`. -/
def Step (p : Pmm) (c : Call) (p' : Pmm) : Prop :=
  match c with
  | .getFrame a => getFrame p = some (a, p')
  | .initPmm => p' = initPmm p
  | .freeFrame a => p' = freeFrame p a

def next (p : Pmm) : Call → Option Pmm
  | .getFrame a => (getFrame p).bind fun x => if x.1 = a then some x.2 else none
  | .initPmm => some (initPmm p)
  | .freeFrame a => some (freeFrame p a)

theorem step_of_next {p p' : Pmm} {c : Call} (h : next p c = some p') : Step p c p' := by
  cases c with
  | getFrame a =>
    obtain ⟨x, hx, h⟩ := Option.bind_eq_some_iff.mp h
    obtain ⟨ha, hp⟩ := Option.ite_none_right_eq_some.mp h
    rw [Step, hx, ← ha, ← Option.some.inj hp]
  | initPmm => exact (Option.some.inj h).symm
  | freeFrame a => exact (Option.some.inj h).symm

theorem exists_run {s : Pmm} {h : List Call} (he : (exec next s h).isSome = true) : ∃ p, Run Step s h p := by
  obtain ⟨p, hp⟩ := Option.isSome_iff_exists.mp he
  exact ⟨p, (run_of_exec _ hp).mono fun _ _ _ => step_of_next⟩

/-- After `set_memory_map` and `get_size_in_bits(4096)`. -/
def start (memmap : List MmapEntry) (bitmap : Bitmap) : Pmm :=
  (getSizeInBits 4096 {
    memmap := memmap
    pgSize := 0
    isBitmapSet := false
    nframes := 0
    numberOfFramesWithoutBitmap := 0
    numberOfFramesWithoutBitmapInC := 0
    prevI := 0
    available := []
    locDatas := []
    bitmap := bitmap
    once := false }).2

def event : Call → Option (Event ℕ Unit)
  | .getFrame a => some (.acquire a ())
  | .initPmm => none
  | .freeFrame a => some (.release a ())

def events (h : List Call) : List (Event ℕ Unit) := h.filterMap event

/-- The frame has been returned by `get_frame` and not been freed since. -/
def Outstanding (h : List Call) (a : ℕ) : Prop := Holds (events h) a ()

/-- Every frame that is freed was outstanding. -/
def FreesOutstanding (h : List Call) : Prop :=
  ∀ before a after, h = before ++ .freeFrame a :: after → Outstanding before a

/-- `init_pmm` is called while all frames given so far come from the first region. -/
def InFirstRegion (p : Pmm) (c : Call) : Prop := c = .initPmm → p.once = false → p.prevI = 0

/-- The part of the bitmap that `get_frame` searches has a clear bit, and the address of no frame up to
that bit wraps. -/
def InRange (p : Pmm) : Call → Prop
  | .getFrame _ => p.isBitmapSet = true →
      ∃ f < 64 * (p.nframes / 64), readFrame p.bitmap f = false ∧ NoWrap p.available (f + 1)
  | _ => True

instance (p : Pmm) (c : Call) : Decidable (InFirstRegion p c) :=
  inferInstanceAs (Decidable (c = .initPmm → p.once = false → p.prevI = 0))

instance (p : Pmm) : (c : Call) → Decidable (InRange p c)
  | .getFrame _ => inferInstanceAs (Decidable (p.isBitmapSet = true →
      ∃ f < 64 * (p.nframes / 64), readFrame p.bitmap f = false ∧ NoWrap p.available (f + 1)))
  | .initPmm => inferInstanceAs (Decidable True)
  | .freeFrame _ => inferInstanceAs (Decidable True)

def CarefulStep (p : Pmm) (c : Call) (p' : Pmm) : Prop := Step p c p' ∧ InFirstRegion p c ∧ InRange p c

section History

variable {h : List Call} {a b : ℕ} {c : Call}

theorem events_snoc : events (h ++ [c]) = events h ++ (event c).toList := by
  rw [events, List.filterMap_append, List.filterMap_cons]
  cases event c <;> rfl

theorem outstanding_getFrame : Outstanding (h ++ [.getFrame a]) b ↔ b = a ∨ Outstanding h b := by
  simp only [Outstanding, events_snoc, event, Option.toList_some, holds_acquire, and_true]

theorem outstanding_freeFrame : Outstanding (h ++ [.freeFrame a]) b ↔ Outstanding h b ∧ b ≠ a := by
  simp only [Outstanding, events_snoc, event, Option.toList_some, holds_release, and_true, ne_eq]

theorem outstanding_initPmm : Outstanding (h ++ [.initPmm]) b ↔ Outstanding h b := by
  simp only [Outstanding, events_snoc, event, Option.toList_none, List.append_nil]

theorem freesOutstanding_of_notMem (hf : ∀ a, .freeFrame a ∉ h) : FreesOutstanding h :=
  fun before a after he => absurd (by simp [he]) (hf a)

theorem freesOutstanding_snoc :
    FreesOutstanding (h ++ [c]) ↔ FreesOutstanding h ∧ ∀ a, c = .freeFrame a → Outstanding h a := by
  constructor
  · intro hf
    refine ⟨fun before a after he => hf before a (after ++ [c]) (by rw [he]; simp), ?_⟩
    rintro a rfl
    exact hf h a [] rfl
  · rintro ⟨hf, hlast⟩ before a after he
    rcases List.eq_nil_or_concat after with rfl | ⟨after, c', rfl⟩
    · obtain ⟨rfl, hc⟩ := List.append_inj' he rfl
      exact hlast a (List.singleton_inj.mp hc)
    · rw [List.concat_eq_append, ← List.cons_append, ← List.append_assoc] at he
      exact hf before a after (List.append_inj' he rfl).1

end History

section Phases

/-- Before `init_pmm`: the outstanding frames come from the regions already left, or are among the
first of the current one. -/
structure Early (rs : List MmapEntry) (h : List Call) (p : Pmm) : Prop where
  once : p.once = false
  unset : p.isBitmapSet = false
  pgSize : p.pgSize = 4096
  available : p.available = rs
  nframes : p.nframes = total (rs.map frames)
  locDatas : p.locDatas = []
  room : ∀ r, rs[p.prevI]? = some r → p.numberOfFramesWithoutBitmapInC < r.length / 4096
  count : p.prevI = 0 → p.numberOfFramesWithoutBitmap = p.numberOfFramesWithoutBitmapInC
  given : ∀ a, Outstanding h a → ∃ z r t, rs[z]? = some r ∧ a = r.base + 4096 * t ∧ t < r.length / 4096 ∧
    (z < p.prevI ∨ (z = p.prevI ∧ t < p.numberOfFramesWithoutBitmapInC))

/-- After `init_pmm`: the bit of every outstanding frame is set. -/
structure Late (rs : List MmapEntry) (h : List Call) (p : Pmm) : Prop where
  once : p.once = true
  set : p.isBitmapSet = true
  pgSize : p.pgSize = 4096
  available : p.available = rs
  nframes : p.nframes = total (rs.map frames)
  locDatas : p.locDatas = localise 4096 0 rs
  given : ∀ a, Outstanding h a → ∃ i q, nth (rs.map frames) i = some q ∧ a = 4096 * q ∧ readFrame p.bitmap i = true

variable {rs : List MmapEntry} {h : List Call} {p p' : Pmm} {a : ℕ}

theorem disjoint_of_ne (hd : rs.Pairwise fun r s => r.base + r.length ≤ s.base ∨ s.base + s.length ≤ r.base)
    {z w : ℕ} {r s : MmapEntry} (hr : rs[z]? = some r) (hs : rs[w]? = some s) (hne : z ≠ w) :
    r.base + r.length ≤ s.base ∨ s.base + s.length ≤ r.base := by
  obtain ⟨hz, rfl⟩ := List.getElem?_eq_some_iff.mp hr
  obtain ⟨hw, rfl⟩ := List.getElem?_eq_some_iff.mp hs
  rcases Nat.lt_or_gt_of_ne hne with hlt | hgt
  · exact List.pairwise_iff_getElem.mp hd z w hz hw hlt
  · exact (List.pairwise_iff_getElem.mp hd w z hw hz hgt).symm

theorem eq_or_apart (hd : rs.Pairwise fun r s => r.base + r.length ≤ s.base ∨ s.base + s.length ≤ r.base)
    {r s : MmapEntry} (hr : r ∈ rs) (hs : s ∈ rs) :
    r = s ∨ r.base + r.length ≤ s.base ∨ s.base + s.length ≤ r.base := by
  have hsymm : Std.Symm fun r s : MmapEntry => r.base + r.length ≤ s.base ∨ s.base + s.length ≤ r.base :=
    ⟨fun _ _ h => h.symm⟩
  exact or_iff_not_imp_left.mpr (hd.forall hr hs)

theorem early_start {memmap : List MmapEntry} (hmap : UsableMap memmap) (bitmap : Bitmap) :
    Early (memmap.filter usable) [] (start memmap bitmap) where
  once := rfl
  unset := rfl
  pgSize := rfl
  available := rfl
  nframes := by
    simp only [start, getSizeInBits, total, List.map_map]
    rfl
  locDatas := rfl
  room r hr := by
    have hreg := hmap.region r (List.mem_of_getElem? hr)
    have hl := hreg.length
    have hp := hreg.pos
    simp only [start, getSizeInBits]
    omega
  count _ := rfl
  given a ha := absurd ha not_holds_nil

theorem Early.getFrame (hregion : ∀ r ∈ rs, Region r)
    (hd : rs.Pairwise fun r s => r.base + r.length ≤ s.base ∨ s.base + s.length ≤ r.base) (he : Early rs h p)
    (hs : getFrame p = some (a, p')) : ¬ Outstanding h a ∧ Early rs (h ++ [.getFrame a]) p' := by
  have hav := he.available
  -- the frame has number `t` in its region, and `get_frame` has returned the smaller ones only
  obtain ⟨k, r, t, hr, rfl, ht, hk, rfl, -⟩ := getFrame_early (hav ▸ hregion) he.unset he.pgSize (hav ▸ he.room) hs
  rw [hav] at hr
  refine ⟨fun hout => ?_, ?_⟩
  · obtain ⟨z, s, u, hs, hau, hu, hz⟩ := he.given _ hout
    by_cases hne : z = p.prevI + k
    · obtain rfl : r = s := Option.some.inj (hr.symm.trans (hne ▸ hs))
      omega
    · have hdisj := disjoint_of_ne hd hs hr hne
      omega
  · refine ⟨he.once, he.unset, he.pgSize, he.available, he.nframes, he.locDatas, fun s hs => ?_,
      fun h0 => ?_, fun b hb => ?_⟩
    · obtain rfl : r = s := Option.some.inj (hr.symm.trans hs)
      exact ht
    · have hcount := he.count (by dsimp only at h0; omega)
      dsimp only at h0 ⊢
      omega
    · dsimp only
      rcases outstanding_getFrame.mp hb with rfl | hb
      · exact ⟨_, r, t, hr, rfl, by omega, .inr ⟨rfl, by omega⟩⟩
      · obtain ⟨z, s, u, hs, hau, hu, hz⟩ := he.given b hb
        exact ⟨z, s, u, hs, hau, hu, by omega⟩

theorem Early.freeFrame (he : Early rs h p) : Early rs (h ++ [.freeFrame a]) (freeFrame p a) := by
  have hsame : freeIn p.pgSize (cleanBits a) p.locDatas p.bitmap = p.bitmap := by rw [he.locDatas, freeIn]
  rw [FrameAllocator.freeFrame, hsame]
  exact { he with given := fun b hb => he.given b (outstanding_freeFrame.mp hb).1 }

theorem Early.initPmm (hregion : ∀ r ∈ rs, Region r) (he : Early rs h p) (hfirst : p.prevI = 0) :
    Late rs (h ++ [.initPmm]) (initPmm p) := by
  rw [FrameAllocator.initPmm, he.once, if_neg (by simp)]
  refine ⟨rfl, rfl, he.pgSize, he.available, he.nframes, ?_, fun b hb => ?_⟩
  · dsimp only
    rw [he.pgSize, he.available]
  · obtain ⟨z, r, t, hr, rfl, ht, hz⟩ := he.given b (outstanding_initPmm.mp hb)
    obtain ⟨rfl, hlt⟩ : z = 0 ∧ t < p.numberOfFramesWithoutBitmap := by
      have hcount := he.count hfirst
      omega
    obtain ⟨rest, rfl⟩ : ∃ rest, rs = r :: rest := by
      cases rs with
      | nil => cases hr
      | cons s rest => exact ⟨rest, by rw [Option.some.inj hr]⟩
    have htotal : t < p.nframes := by
      rw [he.nframes, total, List.map_cons, List.map_cons, List.sum_cons]
      exact Nat.lt_of_lt_of_le ht (Nat.le_add_right ..)
    refine ⟨t, r.base / 4096 + t, ?_, ?_, ?_⟩
    · rw [List.map_cons, nth]
      exact if_pos ht
    · have hb := (hregion r (List.mem_cons_self ..)).base
      omega
    · dsimp only
      rw [readFrame_flipFrames, readFrame, if_pos (by omega)]
      simp [hlt]

theorem Late.getFrame (hregion : ∀ r ∈ rs, Region r) (hd : (rs.map frames).Pairwise Block.Apart) (hl : Late rs h p)
    (hrange : InRange p (.getFrame a)) (hs : getFrame p = some (a, p')) :
    ¬ Outstanding h a ∧ Late rs (h ++ [.getFrame a]) p' := by
  obtain ⟨f, -, hfree, hmin, haddress, rfl⟩ := getFrame_late hl.set hs
  obtain ⟨g, -, hg, hwrap⟩ := hrange hl.set
  rw [hl.available] at hwrap
  rw [hl.pgSize, hl.available, frameAddress_eq hregion hwrap (Nat.lt_succ_of_le (hmin g hg))] at haddress
  obtain ⟨q, hq, rfl⟩ := Option.map_eq_some_iff.mp haddress
  have hother : ∀ b, Outstanding h b → ∃ i q', nth (rs.map frames) i = some q' ∧ b = 4096 * q' ∧
      readFrame p.bitmap i = true ∧ i ≠ f := by
    intro b hb
    obtain ⟨i, q', hi, hbq, hset⟩ := hl.given b hb
    refine ⟨i, q', hi, hbq, hset, ?_⟩
    rintro rfl
    exact absurd (hset.symm.trans hfree) (by simp)
  refine ⟨fun hout => ?_, { hl with given := fun b hb => ?_ }⟩
  · obtain ⟨i, q', hi, hbq, -, hif⟩ := hother _ hout
    obtain rfl : q' = q := by omega
    exact hif (nth_inj hd hi hq)
  · rcases outstanding_getFrame.mp hb with rfl | hb
    · refine ⟨f, q, hq, rfl, ?_⟩
      rw [readFrame_flipFrame, hfree]
      simp
    · obtain ⟨i, q', hi, hbq, hset, hif⟩ := hother b hb
      refine ⟨i, q', hi, hbq, ?_⟩
      rw [readFrame_flipFrame, hset]
      simp [hif]

theorem Late.freeFrame (hregion : ∀ r ∈ rs, Region r) (hd : (rs.map frames).Pairwise Block.Apart) (hl : Late rs h p)
    (hout : Outstanding h a) : Late rs (h ++ [.freeFrame a]) (freeFrame p a) := by
  obtain ⟨i, q, hi, rfl, -⟩ := hl.given a hout
  have hclean : cleanBits (4096 * q) = 4096 * q := by
    obtain ⟨_, hb, hq⟩ := mem_of_nth hi
    obtain ⟨r, hr, rfl⟩ := List.mem_map.mp hb
    have hin := (hregion r hr).inside
    have hbase := (hregion r hr).base
    simp only [Block.Contains, frames] at hq
    rw [cleanBits_mod]
    omega
  refine { hl with given := fun b hb => ?_ }
  obtain ⟨hb, hne⟩ := outstanding_freeFrame.mp hb
  obtain ⟨j, q', hj, rfl, hset⟩ := hl.given b hb
  refine ⟨j, q', hj, rfl, ?_⟩
  dsimp only [FrameAllocator.freeFrame]
  rw [hclean, hl.pgSize, hl.locDatas]
  rcases freeIn_cases hregion hd 0 p.bitmap with he | ⟨i', hi', he⟩
  · rw [he, hset]
  · have hji : j ≠ i' := by
      rintro rfl
      exact hne (congrArg (4096 * ·) (Option.some.inj (hj.symm.trans hi')))
    rw [he, readFrame_flipFrame, hset, Nat.zero_add]
    simp [hji]

theorem Late.initPmm (hl : Late rs h p) : Late rs (h ++ [.initPmm]) (initPmm p) := by
  rw [FrameAllocator.initPmm, if_pos hl.once]
  exact { hl with given := fun b hb => hl.given b (outstanding_initPmm.mp hb) }

def Kept (rs : List MmapEntry) (h : List Call) (p : Pmm) : Prop :=
  FreesOutstanding h → Exclusive (events h) ∧ (Early rs h p ∨ Late rs h p)

theorem kept_start {memmap : List MmapEntry} (hmap : UsableMap memmap) (bitmap : Bitmap) :
    Kept (memmap.filter usable) [] (start memmap bitmap) :=
  fun _ => ⟨.nil, .inl (early_start hmap bitmap)⟩

theorem Kept.step {c : Call} (hregion : ∀ r ∈ rs, Region r)
    (hd : rs.Pairwise fun r s => r.base + r.length ≤ s.base ∨ s.base + s.length ≤ r.base) (hk : Kept rs h p)
    (hs : Step p c p') (hfirst : InFirstRegion p c) (hrange : Late rs h p → InRange p c) : Kept rs (h ++ [c]) p' := by
  have hapart := apart_of_disjoint hregion hd
  intro hf
  obtain ⟨hf, hlast⟩ := freesOutstanding_snoc.mp hf
  obtain ⟨hex, hphase⟩ := hk hf
  rw [events_snoc]
  cases c with
  | getFrame a =>
    obtain ⟨hnew, hphase⟩ : ¬ Outstanding h a ∧
        (Early rs (h ++ [.getFrame a]) p' ∨ Late rs (h ++ [.getFrame a]) p') := by
      rcases hphase with he | hl
      · exact (he.getFrame hregion hd hs).imp_right .inl
      · exact (hl.getFrame hregion hapart (hrange hl) hs).imp_right .inr
    exact ⟨hex.acquire _ a () fun _ => hnew, hphase⟩
  | initPmm =>
    obtain rfl := hs
    refine ⟨(List.append_nil _).symm ▸ hex, .inr ?_⟩
    rcases hphase with he | hl
    · exact he.initPmm hregion (hfirst rfl he.once)
    · exact hl.initPmm
  | freeFrame a =>
    obtain rfl := hs
    have hout := hlast a rfl
    exact ⟨hex.release _ a () hout, hphase.imp Early.freeFrame (Late.freeFrame hregion hapart · hout)⟩

end Phases

section Runs

variable {memmap : List MmapEntry} {bitmap : Bitmap} {h : List Call} {p : Pmm}

theorem frames_exclusive (hmap : UsableMap memmap)
    (hrun : Run CarefulStep (start memmap bitmap) h p)
    (hfrees : FreesOutstanding h) : Exclusive (events h) :=
  have hkept := hrun.invariant (Kept (memmap.filter usable)) (kept_start hmap bitmap)
    fun _ _ _ _ hk ⟨hs, hfirst, hrange⟩ => hk.step hmap.region hmap.disjoint hs hfirst fun _ => hrange
  (hkept hfrees).1

def block : List MmapEntry := [⟨0x100000, 0x40000, 1⟩]

theorem block_usable : UsableMap block := by
  refine ⟨by decide, fun r hr => ?_, List.pairwise_singleton _ _⟩
  obtain rfl := List.mem_singleton.mp hr
  constructor <;> decide

theorem block_initPmm : Run Step (start block fun _ => 0) [.initPmm] (initPmm (start block fun _ => 0)) :=
  .snoc [] _ _ _ .nil rfl

def reused : List Call :=
  [.getFrame 0x100000, .initPmm, .getFrame 0x101000] ++ [.freeFrame 0x100000] ++ [.getFrame 0x100000]

theorem frames_exclusive_block : UsableMap block ∧ FreesOutstanding reused ∧ Exclusive (events reused) ∧
    ∃ p, Run CarefulStep (start block fun _ => 0) reused p := by
  have hfrees : FreesOutstanding reused := by
    refine freesOutstanding_snoc.mpr ⟨freesOutstanding_snoc.mpr ⟨freesOutstanding_of_notMem (by simp), ?_⟩, by simp⟩
    rintro a ⟨rfl⟩
    exact holds_of_mem (by decide) (by decide)
  have he : (exec (fun p c => if InFirstRegion p c ∧ InRange p c then next p c else none)
      (start block fun _ => 0) reused).isSome = true := by decide +kernel
  obtain ⟨p, hp⟩ := Option.isSome_iff_exists.mp he
  have hrun : Run CarefulStep (start block fun _ => 0) reused p := (run_of_exec _ hp).mono fun p c p' hs =>
    have ⟨hcareful, hs⟩ := Option.ite_none_right_eq_some.mp hs
    ⟨step_of_next hs, hcareful⟩
  exact ⟨block_usable, hfrees, frames_exclusive block_usable hrun hfrees, p, hrun⟩

/-- If the regions are sorted by address, only `init_pmm` has to be called in time. -/
theorem frames_exclusive_sorted (hmap : UsableMap memmap)
    (hasc : (memmap.filter usable).Pairwise fun r s => r.base + r.length ≤ s.base)
    (hrun : Run (fun p c p' => Step p c p' ∧ InFirstRegion p c) (start memmap bitmap) h p)
    (hfrees : FreesOutstanding h) : Exclusive (events h) := by
  have hkept := hrun.invariant (Kept (memmap.filter usable)) (kept_start hmap bitmap) ?_
  · exact (hkept hfrees).1
  rintro h p c p' hk ⟨hs, hfirst⟩
  refine hk.step hmap.region hmap.disjoint hs hfirst fun hl => ?_
  cases c with
  | getFrame a =>
    intro hset
    obtain ⟨f, hlt, hclear, -⟩ := getFrame_late hset hs
    refine ⟨f, hlt, hclear, ?_⟩
    rw [hl.available]
    rw [hl.nframes] at hlt
    exact noWrap_of_ascending hmap.region hasc (by omega)
  | initPmm => trivial
  | freeFrame a => trivial

/-- A region of one frame, which the counters leave out, and a larger one. -/
def splitMap : List MmapEntry := [⟨0x1000, 0x1000, 1⟩, ⟨0x100000, 0x40000, 1⟩]

/-- `init_pmm` sets the bit of the frame that was left out. -/
theorem frames_given_twice :
    UsableMap splitMap ∧
    (∃ p, Run Step (start splitMap fun _ => 0) [.getFrame 0x100000, .initPmm, .getFrame 0x100000] p) ∧
    FreesOutstanding [.getFrame 0x100000, .initPmm, .getFrame 0x100000] ∧
    ¬ Exclusive (events [.getFrame 0x100000, .initPmm, .getFrame 0x100000]) := by
  refine ⟨⟨by decide, fun r hr => ?_, by decide⟩, exists_run (by decide +kernel),
    freesOutstanding_of_notMem (by simp), fun hex => ?_⟩
  · obtain rfl | rfl : r = _ ∨ r = _ := by simpa [splitMap, usable] using hr
    all_goals constructor <;> decide
  · exact Exclusive.not_holds (h := [.acquire 0x100000 ()]) hex (holds_of_mem (c := ()) (by decide) (by decide))

/-- Frames near the end of the address space before those at its start. -/
def swappedMap : List MmapEntry := [⟨2 ^ 64 - 0x20000, 0x10000, 1⟩, ⟨0, 0x40000, 1⟩]

/-- The frames of the first region, and 16 of the second. -/
def swapped : List Call :=
  [.getFrame (2 ^ 64 - 0x20000), .initPmm] ++
    (List.range 15).map (fun i => .getFrame (2 ^ 64 - 0x1f000 + 0x1000 * i)) ++
    (List.range 16).map (fun i => .getFrame (0x1000 * i))

/-- If the regions are not sorted, the address of a frame may wrap. -/
theorem frames_given_twice_swapped :
    UsableMap swappedMap ∧
    (∃ p, Run (fun p c p' => Step p c p' ∧ InFirstRegion p c) (start swappedMap fun _ => 0)
      (swapped ++ [.getFrame 0]) p) ∧
    ¬ Exclusive (events (swapped ++ [.getFrame 0])) := by
  refine ⟨⟨by decide, fun r hr => ?_, by decide⟩, ?_, fun hex => ?_⟩
  · obtain rfl | rfl : r = _ ∨ r = _ := by simpa [swappedMap, usable] using hr
    all_goals constructor <;> decide
  · have he : (exec (fun p c => if InFirstRegion p c then next p c else none)
        (start swappedMap fun _ => 0) (swapped ++ [.getFrame 0])).isSome = true := by decide +kernel
    obtain ⟨p, hp⟩ := Option.isSome_iff_exists.mp he
    refine ⟨p, (run_of_exec _ hp).mono fun p c p' hs => ?_⟩
    obtain ⟨hfirst, hs⟩ := Option.ite_none_right_eq_some.mp hs
    exact ⟨step_of_next hs, hfirst⟩
  · rw [events_snoc] at hex
    exact Exclusive.not_holds hex (holds_of_mem (c := ()) (by decide +kernel) (by decide +kernel))

end Runs

end Raccoon.FrameAllocator
