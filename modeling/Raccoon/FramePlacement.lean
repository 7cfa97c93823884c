import Raccoon.FrameClearing

/-!
Where the frames of `get_frame` lie if the regions are not made of whole pages.
The base is rounded up, but the length is not shortened by what the rounding
skips, so the last page that a region counts may end after the region does.
-/

namespace Raccoon.FrameAllocator

open BlockNumbering Runs

structure Stretch (r : MmapEntry) : Prop where
  pos : 0 < r.length
  fits : r.length < 2 ^ 64
  inside : r.base + r.length ≤ 2 ^ 64

/-- The memory maps of regions of any base and length. -/
structure LoaderMap (memmap : List MmapEntry) : Prop where
  few : (memmap.filter usable).length < 20
  region : ∀ r ∈ memmap.filter usable, Stretch r
  disjoint : (memmap.filter usable).Pairwise fun r s => r.base + r.length ≤ s.base ∨ s.base + s.length ≤ r.base

def InUsable (rs : List MmapEntry) (a : ℕ) : Prop := ∃ r ∈ rs, r.base ≤ a ∧ a + 4096 ≤ r.base + r.length

instance (rs : List MmapEntry) (a : ℕ) : Decidable (InUsable rs a) :=
  inferInstanceAs (Decidable (∃ r ∈ rs, r.base ≤ a ∧ a + 4096 ≤ r.base + r.length))

def roundUp (x : ℕ) : ℕ := (x + 4095) / 4096 * 4096

/-- The rounded base and the length do not add up to more than the address space, and what they add up to is
not less than a page. -/
def LimitExact (r : MmapEntry) : Prop := roundUp r.base + r.length ≤ 2 ^ 64 ∧ (r.base = 0 → 4096 ≤ r.length)

/-- The last page that region `r` counts ends in the region; or it is never handed out, since the counters
leave it out and its number is not among those, below `numbers`, that get to the region. -/
def LastFits (r : MmapEntry) (numbers : ℕ) : Prop :=
  4096 ≤ r.length → roundUp r.base - r.base ≤ r.length % 4096 ∨
    (r.length % 4096 = 0 ∧ numbers < r.length / 4096)

/-- Where the address of a frame wraps when it is computed from the base of region `r`, it is one of a region. -/
def WrapsInside (all : List MmapEntry) (r : MmapEntry) (numbers : ℕ) : Prop :=
  ∀ n < numbers, 2 ^ 64 ≤ roundUp r.base + 4096 * n → InUsable all (roundUp r.base + 4096 * n - 2 ^ 64)

/-- What the map has to satisfy if the numbers below `numbers` get to its first region. Those that get to the
next one do not wrap at this one, and drop by the pages that it counts. -/
def Placed (all : List MmapEntry) : List MmapEntry → ℕ → Prop
  | [], _ => True
  | r :: rs, numbers => LimitExact r ∧ LastFits r numbers ∧ WrapsInside all r numbers ∧
      Placed all rs (min numbers ((2 ^ 64 - roundUp r.base) / 4096) - r.length / 4096)

section Rounding

variable {r : MmapEntry} {n x : ℕ}

theorem roundUp_spec (x : ℕ) : x ≤ roundUp x ∧ roundUp x < x + 4096 ∧ roundUp x % 4096 = 0 := by
  unfold roundUp
  omega

theorem align_eq (hx : x < 2 ^ 64) : align 4096 x = roundUp x % 2 ^ 64 := by
  have hclean := cleanBits_mod x
  simp only [align, and_pages, roundUp]
  split
  case isTrue => omega
  case isFalse =>
    unfold wadd
    omega

theorem frameIn_eq (hr : Stretch r) : frameIn 4096 r n = (roundUp r.base + 4096 * n) % 2 ^ 64 := by
  have hin := hr.inside
  have hp := hr.pos
  rw [frameIn, align_eq (by omega)]
  unfold wadd wmul
  omega

theorem lastIn_eq (hr : Stretch r) (h : LimitExact r) : lastIn 4096 r = roundUp r.base + r.length - 4096 := by
  obtain ⟨hfits, hzero⟩ := h
  have hin := hr.inside
  have hp := hr.pos
  obtain ⟨hle, -, hmod⟩ := roundUp_spec r.base
  have hfloor : 4096 ≤ roundUp r.base + r.length := by
    by_cases hb : r.base = 0
    · exact (hzero hb).trans (Nat.le_add_left ..)
    · omega
  rw [lastIn, align_eq (by omega)]
  unfold wsub wadd
  omega

/-- Where the sum of the rounded base and the length wraps, every page there is passes the check. -/
theorem lastIn_of_overflow (hr : Stretch r) (h : 2 ^ 64 < roundUp r.base + r.length) (n : ℕ) :
    frameIn 4096 r n < lastIn 4096 r := by
  have hin := hr.inside
  have hp := hr.pos
  obtain ⟨hle, hlt, hmod⟩ := roundUp_spec r.base
  rw [frameIn_eq hr, lastIn, align_eq (by omega)]
  unfold wsub wadd
  omega

theorem early_room (hr : Stretch r) (h : LimitExact r) (hn : 4096 * n < r.length) :
    frameIn 4096 r n < lastIn 4096 r ↔ 4096 * (n + 1) < r.length := by
  have hfits := h.1
  rw [frameIn_eq hr, lastIn_eq hr h]
  omega

theorem frameAddress_step {rs : List MmapEntry} (hr : Stretch r) (h : LimitExact r) (hn : n < 2 ^ 52) :
    frameAddress 4096 n (r :: rs) =
      if 2 ^ 64 ≤ roundUp r.base + 4096 * n then some (roundUp r.base + 4096 * n - 2 ^ 64)
      else if n < r.length / 4096 then some (roundUp r.base + 4096 * n)
      else frameAddress 4096 (n - r.length / 4096) rs := by
  have hfits := h.1
  have hp := hr.pos
  obtain ⟨hle, -, hmod⟩ := roundUp_spec r.base
  rw [frameAddress_cons, if_neg hp.ne', frameIn_eq hr, lastIn_eq hr h]
  by_cases hwrap : 2 ^ 64 ≤ roundUp r.base + 4096 * n
  · have he : (roundUp r.base + 4096 * n) % 2 ^ 64 = roundUp r.base + 4096 * n - 2 ^ 64 := by omega
    rw [if_pos hwrap, he, if_pos (by omega)]
  · have he : (roundUp r.base + 4096 * n) % 2 ^ 64 = roundUp r.base + 4096 * n := by omega
    rw [if_neg hwrap, he]
    by_cases hlt : n < r.length / 4096
    · rw [if_pos hlt, if_pos (by omega)]
    · have hzero := h.2
      rw [if_neg hlt, if_neg (by omega), wsub_eq (by omega) (by omega)]

end Rounding

section Map

variable {all rs : List MmapEntry} {r : MmapEntry} {a n numbers : ℕ}

/-- A frame that begins in a region lies in that one or in none. -/
theorem ends_inside (hd : all.Pairwise fun r s => r.base + r.length ≤ s.base ∨ s.base + s.length ≤ r.base)
    (hr : r ∈ all) (hhi : a < r.base + r.length) (h : InUsable all a) :
    a + 4096 ≤ r.base + r.length := by
  obtain ⟨s, hs, hle, hend⟩ := h
  rcases eq_or_apart hd hr hs with rfl | hapart
  · exact hend
  · omega

def EarlyInside (all : List MmapEntry) (r : MmapEntry) : Prop :=
  ∀ n, 4096 * (n + 1) < r.length → InUsable all (roundUp r.base + 4096 * n)

/-- The addresses of the frames with the numbers below `numbers` lie in the regions. -/
def LateInside (all rs : List MmapEntry) (numbers : ℕ) : Prop :=
  ∀ f < numbers, ∀ a, frameAddress 4096 f rs = some a → InUsable all a

theorem LastFits.page (hr : r ∈ all) (h : LastFits r numbers) (hn : n < r.length / 4096)
    (hlast : 4096 * (n + 1) < r.length ∨ n < numbers) : InUsable all (roundUp r.base + 4096 * n) := by
  obtain ⟨hle, hlt, -⟩ := roundUp_spec r.base
  refine ⟨r, hr, by omega, ?_⟩
  rcases h (by omega) with hpad | ⟨hwhole, hless⟩ <;> omega

theorem Placed.inside (hregion : ∀ r ∈ all, Stretch r) (hall : ∀ r ∈ rs, r ∈ all) (hn : numbers ≤ 2 ^ 52)
    (h : Placed all rs numbers) : (∀ r ∈ rs, LimitExact r ∧ EarlyInside all r) ∧ LateInside all rs numbers := by
  induction rs generalizing numbers with
  | nil => exact ⟨by simp, fun f _ a ha => by cases ha⟩
  | cons r rs ih =>
    obtain ⟨hlimit, hlast, hwraps, hrest⟩ := h
    obtain ⟨hr, hrs⟩ := List.forall_mem_cons.mp hall
    obtain ⟨hearly, hlate⟩ := ih hrs (by omega) hrest
    obtain ⟨-, -, hmod⟩ := roundUp_spec r.base
    have hfits := hlimit.1
    refine ⟨List.forall_mem_cons.mpr ⟨⟨hlimit, fun n hn => ?_⟩, hearly⟩, fun f hf a ha => ?_⟩
    · exact hlast.page hr (by omega) (.inl hn)
    · rw [frameAddress_step (hregion r hr) hlimit (by omega)] at ha
      split at ha
      case isTrue hwrap =>
        rw [← Option.some.inj ha]
        exact hwraps f hf hwrap
      case isFalse hwrap =>
        split at ha
        case isTrue hlt =>
          rw [← Option.some.inj ha]
          exact hlast.page hr hlt (.inr hf)
        case isFalse hge => exact hlate _ (by omega) a ha

theorem placed_of_inside (hregion : ∀ r ∈ all, Stretch r)
    (hd : all.Pairwise fun r s => r.base + r.length ≤ s.base ∨ s.base + s.length ≤ r.base)
    (hall : ∀ r ∈ rs, r ∈ all) (hn : numbers ≤ 2 ^ 52) (hearly : ∀ r ∈ rs, LimitExact r ∧ EarlyInside all r)
    (hlate : LateInside all rs numbers) : Placed all rs numbers := by
  induction rs generalizing numbers with
  | nil => trivial
  | cons r rs ih =>
    obtain ⟨hr, hrs⟩ := List.forall_mem_cons.mp hall
    obtain ⟨⟨hlimit, hpages⟩, hearly⟩ := List.forall_mem_cons.mp hearly
    obtain ⟨hle, hlt, hmod⟩ := roundUp_spec r.base
    have hstep (f : ℕ) (hf : f < numbers) : frameAddress 4096 f (r :: rs) = _ :=
      frameAddress_step (hregion r hr) hlimit (by omega)
    have hfits := hlimit.1
    refine ⟨hlimit, ?_, ?_, ih hrs ?_ hearly ?_⟩
    · intro hlarge
      -- the last page that the region counts
      by_contra hc
      rw [not_or, not_and, not_lt] at hc
      have hlast : InUsable all (roundUp r.base + 4096 * (r.length / 4096 - 1)) := by
        by_cases hwhole : r.length % 4096 = 0
        · have hcounted := hc.2 hwhole
          refine hlate (r.length / 4096 - 1) (by omega) _ ?_
          rw [hstep _ (by omega), if_neg (by omega), if_pos (by omega)]
        · exact hpages _ (by omega)
      have hend := ends_inside hd hr (by omega) hlast
      omega
    · intro n hn hwrap
      refine hlate n hn _ ?_
      rw [hstep n hn, if_pos hwrap]
    · omega
    · intro f hf a ha
      refine hlate (f + r.length / 4096) (by omega) a ?_
      rw [hstep _ (by omega), if_neg (by omega), if_neg (by omega), Nat.add_sub_cancel]
      exact ha

end Map

section Counters

variable {p p' : Pmm} {a : ℕ}

/-- Without a bitmap the next frame to be tried in region `k` has number `n` there, and the regions since that of
the last frame have no room. -/
structure NextUp (p : Pmm) (k n : ℕ) : Prop where
  le : p.prevI ≤ k
  count : n = if k > p.prevI then 0 else p.numberOfFramesWithoutBitmapInC
  full : ∀ j, p.prevI ≤ j → j < k → ∀ s, p.available[j]? = some s →
    ¬ frameIn 4096 s (if j > p.prevI then 0 else p.numberOfFramesWithoutBitmapInC) < lastIn 4096 s

theorem getFrame_early_iff (hunset : p.isBitmapSet = false) (hsize : p.pgSize = 4096)
    (hpos : ∀ r ∈ p.available, r.length ≠ 0) : getFrame p = some (a, p') ↔
      ∃ k n r, NextUp p k n ∧ p.available[k]? = some r ∧ frameIn 4096 r n < lastIn 4096 r ∧ a = frameIn 4096 r n ∧
        p' = { p with
          prevI := k
          numberOfFramesWithoutBitmapInC := n + 1
          numberOfFramesWithoutBitmap := p.numberOfFramesWithoutBitmap + 1 } := by
  rw [getFrame, if_neg (by simp [hunset]), Option.map_eq_some_iff, hsize]
  simp only [earlySearch_eq_some (le_refl p.prevI), List.getElem?_drop]
  constructor
  · rintro ⟨_, ⟨k, r, n, hr, hn, hroom, hbefore, rfl⟩, he⟩
    obtain ⟨rfl, rfl⟩ := Prod.mk.inj he
    refine ⟨p.prevI + k, n, r, ⟨Nat.le_add_right .., hn, fun j hle hlt s hs => ?_⟩, hr, hroom, rfl, rfl⟩
    obtain ⟨d, rfl⟩ := Nat.exists_eq_add_of_le hle
    exact (hbefore d (by omega) s hs).2 (by omega)
  · rintro ⟨k, n, r, ⟨hle, hn, hfull⟩, hr, hroom, rfl, rfl⟩
    obtain ⟨d, rfl⟩ := Nat.exists_eq_add_of_le hle
    refine ⟨_, ⟨d, r, n, hr, hn, hroom, fun j hj s hs => ⟨hpos s (List.mem_of_getElem? hs), fun hlt => ?_⟩, rfl⟩, rfl⟩
    exact hfull _ (Nat.le_add_right ..) (by omega) s hs

end Counters

section Pages

variable {rs : List MmapEntry} {f : ℕ}

/-- The pages that `get_size_in_bits` counts. -/
def pages (rs : List MmapEntry) : ℕ := (rs.map fun r => r.length / 4096).sum

theorem pages_cons (r : MmapEntry) (rs : List MmapEntry) : pages (r :: rs) = r.length / 4096 + pages rs := rfl

theorem pages_le (hregion : ∀ r ∈ rs, Stretch r)
    (hd : rs.Pairwise fun r s => r.base + r.length ≤ s.base ∨ s.base + s.length ≤ r.base) : pages rs ≤ 2 ^ 52 := by
  have hbytes : total (rs.map fun r => ⟨r.base, r.length⟩) ≤ 2 ^ 64 := by
    refine total_le (List.pairwise_map.mpr hd) fun b hb => ?_
    obtain ⟨r, hr, rfl⟩ := List.mem_map.mp hb
    exact (hregion r hr).inside
  have hle : 4096 * pages rs ≤ total (rs.map fun r => ⟨r.base, r.length⟩) := by
    clear hbytes hd hregion
    induction rs with
    | nil => exact Nat.zero_le _
    | cons r rs ih =>
      have htotal : total ((r :: rs).map fun r => (⟨r.base, r.length⟩ : Block)) =
          r.length + total (rs.map fun r => ⟨r.base, r.length⟩) := rfl
      rw [pages_cons]
      omega
  omega

/-- Every number that is counted leads to an address, if need be to one that has wrapped. -/
theorem exists_frameAddress (hregion : ∀ r ∈ rs, Stretch r) (hlimit : ∀ r ∈ rs, LimitExact r) (hf : f < pages rs)
    (hfits : f < 2 ^ 52) : ∃ a, frameAddress 4096 f rs = some a := by
  induction rs generalizing f with
  | nil => exact absurd hf (Nat.not_lt_zero f)
  | cons r rs ih =>
    obtain ⟨hr, hrs⟩ := List.forall_mem_cons.mp hregion
    obtain ⟨hlr, hlrs⟩ := List.forall_mem_cons.mp hlimit
    rw [pages_cons] at hf
    rw [frameAddress_step hr hlr hfits]
    split
    case isTrue => exact ⟨_, rfl⟩
    case isFalse =>
      split
      case isTrue => exact ⟨_, rfl⟩
      case isFalse => exact ih hrs hlrs (by omega) (by omega)

theorem total_frames (rs : List MmapEntry) : total (rs.map frames) = pages rs := by
  rw [total, List.map_map]
  rfl

theorem UsableMap.loaderMap {memmap : List MmapEntry} (hmap : UsableMap memmap) : LoaderMap memmap where
  few := hmap.few
  region r hr := ⟨(hmap.region r hr).pos, (hmap.region r hr).fits, (hmap.region r hr).inside⟩
  disjoint := hmap.disjoint

/-- For regions of whole pages the limit is always exact. -/
theorem UsableMap.exists_frameAddress {memmap : List MmapEntry} (hmap : UsableMap memmap)
    (hf : f < pages (memmap.filter usable)) : ∃ a, frameAddress 4096 f (memmap.filter usable) = some a := by
  have hle := pages_le hmap.loaderMap.region hmap.disjoint
  refine FrameAllocator.exists_frameAddress hmap.loaderMap.region (fun r hr => ?_) hf (by omega)
  have hbase := (hmap.region r hr).base
  have hlength := (hmap.region r hr).length
  have hpos := (hmap.region r hr).pos
  have hin := (hmap.region r hr).inside
  unfold LimitExact roundUp
  omega

end Pages

section Calls

/-- Every address that `get_frame` returns is the one of a page that lies in a region. -/
def ReturnsUsable (rs : List MmapEntry) (h : List Call) : Prop :=
  ∀ a, .getFrame a ∈ h → a % 4096 = 0 ∧ InUsable rs a

/-- Between two calls. The counter has not passed the region. -/
structure Counting (rs : List MmapEntry) (p : Pmm) : Prop where
  pgSize : p.pgSize = 4096
  available : p.available = rs
  nframes : p.nframes = pages rs
  room : p.isBitmapSet = false → ∀ r, rs[p.prevI]? = some r → 4096 * p.numberOfFramesWithoutBitmapInC < r.length

variable {rs : List MmapEntry} {p p' : Pmm} {memmap : List MmapEntry} {bitmap : Bitmap} {h : List Call} {r : MmapEntry}
  {a k n : ℕ}

theorem counting_start (hmap : LoaderMap memmap) (bitmap : Bitmap) :
    Counting (memmap.filter usable) (start memmap bitmap) where
  pgSize := rfl
  available := rfl
  nframes := rfl
  room _ r hr := (hmap.region r (List.mem_of_getElem? hr)).pos

theorem InUsable.lt (hregion : ∀ r ∈ rs, Stretch r) (h : InUsable rs a) : a < 2 ^ 64 := by
  obtain ⟨r, hr, -, hend⟩ := h
  have hin := (hregion r hr).inside
  omega

theorem Counting.getFrame (hregion : ∀ r ∈ rs, Stretch r) (hearly : ∀ r ∈ rs, LimitExact r ∧ EarlyInside rs r)
    (hlate : LateInside rs rs (64 * (pages rs / 64))) (hc : Counting rs p) (hs : getFrame p = some (a, p')) :
    (a % 4096 = 0 ∧ InUsable rs a) ∧ Counting rs p' := by
  have hav := hc.available
  cases hset : p.isBitmapSet with
  | false =>
    have hpos : ∀ r ∈ p.available, r.length ≠ 0 := fun r hr => (hregion r (hav ▸ hr)).pos.ne'
    obtain ⟨k, n, r, ⟨hle, hn, -⟩, hr, hroom, rfl, rfl⟩ := (getFrame_early_iff hset hc.pgSize hpos).mp hs
    rw [hav] at hr
    have hmem := List.mem_of_getElem? hr
    obtain ⟨hlimit, hinside⟩ := hearly r hmem
    have hcount : 4096 * n < r.length := by
      split at hn
      case isTrue =>
        have hp := (hregion r hmem).pos
        omega
      case isFalse hk =>
        obtain rfl : k = p.prevI := by omega
        rw [hn]
        exact hc.room hset r hr
    have hnext := (early_room (hregion r hmem) hlimit hcount).mp hroom
    have husable := hinside n hnext
    refine ⟨⟨frameIn_mod r n, ?_⟩, hc.pgSize, hav, hc.nframes, fun _ s hs => ?_⟩
    · rwa [frameIn_eq (hregion r hmem), Nat.mod_eq_of_lt (husable.lt hregion)]
    · obtain rfl : r = s := Option.some.inj (hr.symm.trans hs)
      exact hnext
  | true =>
    obtain ⟨f, hf, -, -, haddress, rfl⟩ := getFrame_late hset hs
    rw [hc.nframes] at hf
    rw [hc.pgSize, hav] at haddress
    refine ⟨⟨?_, hlate f hf a haddress⟩, { hc with }⟩
    obtain ⟨r, n, -, rfl⟩ := (frameAddress_iff 4096 f).mp haddress
    exact frameIn_mod r n

theorem Counting.initPmm (hc : Counting rs p) : Counting rs (initPmm p) := by
  rw [FrameAllocator.initPmm]
  split
  case isTrue => exact hc
  case isFalse => exact { hc with room := fun hset => Bool.noConfusion hset }

theorem Counting.run (hmap : LoaderMap memmap)
    (hearly : ∀ r ∈ memmap.filter usable, LimitExact r ∧ EarlyInside (memmap.filter usable) r)
    (hlate : LateInside (memmap.filter usable) (memmap.filter usable) (64 * (pages (memmap.filter usable) / 64)))
    (hrun : Run Step (start memmap bitmap) h p) :
    ReturnsUsable (memmap.filter usable) h ∧ Counting (memmap.filter usable) p := by
  refine hrun.invariant (fun h p => ReturnsUsable (memmap.filter usable) h ∧ Counting (memmap.filter usable) p)
    ⟨fun a ha => absurd ha (List.not_mem_nil), counting_start hmap bitmap⟩ ?_
  rintro h p c p' ⟨hret, hc⟩ hs
  have hsnoc (hlast : ∀ a, c = .getFrame a → a % 4096 = 0 ∧ InUsable (memmap.filter usable) a) :
      ReturnsUsable (memmap.filter usable) (h ++ [c]) := by
    intro a ha
    rcases List.mem_append.mp ha with ha | ha
    · exact hret a ha
    · exact hlast a (List.mem_singleton.mp ha).symm
  cases c with
  | getFrame a =>
    obtain ⟨ha, hc'⟩ := hc.getFrame hmap.region hearly hlate hs
    refine ⟨hsnoc ?_, hc'⟩
    rintro b ⟨rfl⟩
    exact ha
  | initPmm =>
    obtain rfl := hs
    exact ⟨hsnoc nofun, hc.initPmm⟩
  | freeFrame a =>
    obtain rfl := hs
    exact ⟨hsnoc nofun, { hc with }⟩

end Calls

section Reached

structure Waiting (rs : List MmapEntry) (p : Pmm) (k n : ℕ) : Prop where
  unset : p.isBitmapSet = false
  pgSize : p.pgSize = 4096
  available : p.available = rs
  next : NextUp p k n

def Reached (rs : List MmapEntry) (s₀ : Pmm) (k n : ℕ) : Prop := ∃ h p, Run Step s₀ h p ∧ Waiting rs p k n

variable {rs : List MmapEntry} {s₀ p : Pmm} {r : MmapEntry} {k n : ℕ}

theorem Waiting.getFrame (hpos : ∀ r ∈ rs, r.length ≠ 0) (hw : Waiting rs p k n) (hr : rs[k]? = some r)
    (hroom : frameIn 4096 r n < lastIn 4096 r) :
    ∃ p', getFrame p = some (frameIn 4096 r n, p') ∧ Waiting rs p' k (n + 1) := by
  obtain ⟨hunset, hsize, rfl, hnext⟩ := hw
  refine ⟨_, (getFrame_early_iff hunset hsize hpos).mpr ⟨k, n, r, hnext, hr, hroom, rfl, rfl⟩,
    hunset, hsize, rfl, le_rfl, (if_neg (Nat.lt_irrefl k)).symm, fun j hle hlt => absurd hlt (Nat.not_lt.mpr hle)⟩

theorem Waiting.skip (hw : Waiting rs p k n) (hr : rs[k]? = some r) (hfull : ¬ frameIn 4096 r n < lastIn 4096 r) :
    Waiting rs p (k + 1) 0 := by
  obtain ⟨hunset, hsize, rfl, hle, rfl, hbefore⟩ := hw
  refine ⟨hunset, hsize, rfl, Nat.le_succ_of_le hle, (if_pos (Nat.lt_succ_of_le hle)).symm, fun j hj hlt s hs => ?_⟩
  rcases Nat.lt_succ_iff_lt_or_eq.mp hlt with hlt | rfl
  · exact hbefore j hj hlt s hs
  · obtain rfl : r = s := Option.some.inj (hr.symm.trans hs)
    exact hfull

theorem Reached.skip (hk : Reached rs s₀ k n) (hr : rs[k]? = some r) (hfull : ¬ frameIn 4096 r n < lastIn 4096 r) :
    Reached rs s₀ (k + 1) 0 := by
  obtain ⟨h, p, hrun, hw⟩ := hk
  exact ⟨h, p, hrun, hw.skip hr hfull⟩

section Returns

variable (hpos : ∀ r ∈ rs, r.length ≠ 0) (hall : ∀ h p, Run Step s₀ h p → ReturnsUsable rs h) (hr : rs[k]? = some r)

include hpos hall hr

theorem Reached.next (hk : Reached rs s₀ k n) (hroom : frameIn 4096 r n < lastIn 4096 r) :
    InUsable rs (frameIn 4096 r n) ∧ Reached rs s₀ k (n + 1) := by
  obtain ⟨h, p, hrun, hw⟩ := hk
  obtain ⟨p', hs, hw'⟩ := hw.getFrame hpos hr hroom
  have hrun' : Run Step s₀ (h ++ [.getFrame (frameIn 4096 r n)]) p' := .snoc _ _ _ _ hrun hs
  exact ⟨(hall _ _ hrun' _ (List.mem_append_right _ (List.mem_singleton_self _))).2, _, _, hrun', hw'⟩

theorem Reached.upTo (hk : Reached rs s₀ k 0) (hroom : ∀ m < n, frameIn 4096 r m < lastIn 4096 r) :
    Reached rs s₀ k n := by
  induction n with
  | zero => exact hk
  | succ n ih => exact ((ih fun m hm => hroom m (Nat.lt_succ_of_lt hm)).next hpos hall hr (hroom n n.lt_succ_self)).2

theorem Reached.usable (hk : Reached rs s₀ k 0) (hroom : ∀ m ≤ n, frameIn 4096 r m < lastIn 4096 r) :
    InUsable rs (frameIn 4096 r n) :=
  ((hk.upTo hpos hall hr fun m hm => hroom m hm.le).next hpos hall hr (hroom n le_rfl)).1

end Returns

variable (hregion : ∀ r ∈ rs, Stretch r)
  (hd : rs.Pairwise fun r s => r.base + r.length ≤ s.base ∨ s.base + s.length ≤ r.base)
  (hall : ∀ h p, Run Step s₀ h p → ReturnsUsable rs h)

include hregion hd hall

theorem limitExact_of_reached (hk : Reached rs s₀ k 0) (hr : rs[k]? = some r) : LimitExact r := by
  have hmem := List.mem_of_getElem? hr
  have hstretch := hregion r hmem
  have hpos : ∀ r ∈ rs, r.length ≠ 0 := fun r hr => (hregion r hr).pos.ne'
  obtain ⟨hle, hlt, hmod⟩ := roundUp_spec r.base
  have hin := hstretch.inside
  have hp := hstretch.pos
  constructor
  · by_contra hover
    rw [not_le] at hover
    -- the addresses run through the whole address space, and get to the page that the region begins in
    have husable := hk.usable hpos hall hr (n := 2 ^ 52 - 1) fun m _ => lastIn_of_overflow hstretch hover m
    have haddress : frameIn 4096 r (2 ^ 52 - 1) = roundUp r.base - 4096 := by
      rw [frameIn_eq hstretch]
      omega
    rw [haddress] at husable
    have hend := ends_inside hd hmem (by omega) husable
    obtain ⟨s, hs, hle', hend'⟩ := husable
    rcases eq_or_apart hd hs hmem with rfl | hapart <;> omega
  · intro hbase
    by_contra hshort
    have hround : roundUp r.base = 0 := by
      rw [hbase]
      rfl
    have hroom : ∀ m ≤ 0, frameIn 4096 r m < lastIn 4096 r := by
      intro m hm
      obtain rfl := Nat.le_zero.mp hm
      rw [frameIn_eq hstretch, lastIn, align_eq (by omega), hround]
      unfold wsub wadd
      omega
    have husable := hk.usable hpos hall hr hroom
    rw [frameIn_eq hstretch, hround] at husable
    have hend := ends_inside hd hmem (by omega) husable
    omega

theorem earlyInside_of_reached (hk : Reached rs s₀ k 0) (hr : rs[k]? = some r) :
    EarlyInside rs r ∧ Reached rs s₀ (k + 1) 0 := by
  have hlimit := limitExact_of_reached hregion hd hall hk hr
  have hmem := List.mem_of_getElem? hr
  have hstretch := hregion r hmem
  have hpos : ∀ r ∈ rs, r.length ≠ 0 := fun r hr => (hregion r hr).pos.ne'
  have hp := hstretch.pos
  have hroom (m : ℕ) (hm : 4096 * (m + 1) < r.length) : frameIn 4096 r m < lastIn 4096 r :=
    (early_room hstretch hlimit (by omega)).mpr hm
  constructor
  · intro n hn
    have husable := hk.usable hpos hall hr (n := n) fun m hm => hroom m (by omega)
    have hfits := hlimit.1
    rwa [frameIn_eq hstretch, Nat.mod_eq_of_lt (by omega)] at husable
  · have hlast := hk.upTo hpos hall hr (n := (r.length - 1) / 4096) fun m hm => hroom m (by omega)
    refine hlast.skip hr fun hlt => ?_
    have hnext := (early_room hstretch hlimit (by omega)).mp hlt
    omega

end Reached

section Giving

/-- After `init_pmm`, with the numbers below `n` given and no other one. -/
structure Giving (rs : List MmapEntry) (p : Pmm) (n : ℕ) : Prop where
  set : p.isBitmapSet = true
  pgSize : p.pgSize = 4096
  available : p.available = rs
  nframes : p.nframes = pages rs
  bits : ∀ g < 64 * (pages rs / 64), readFrame p.bitmap g = decide (g < n)

variable {rs : List MmapEntry} {p p' : Pmm} {memmap : List MmapEntry} {bitmap : Bitmap} {f a n : ℕ}

theorem Giving.getFrame (hg : Giving rs p f) (hf : f < 64 * (pages rs / 64)) (ha : frameAddress 4096 f rs = some a) :
    ∃ p', getFrame p = some (a, p') ∧ Giving rs p' (f + 1) := by
  have hclear : readFrame p.bitmap f = false := by simp [hg.bits f hf]
  have hbelow : ∀ g < f, readFrame p.bitmap g = true := fun g hlt => by simp [hg.bits g (hlt.trans hf), hlt]
  rw [← hg.pgSize, ← hg.available] at ha
  refine ⟨_, getFrame_of_clear hg.set (by rwa [hg.nframes]) hclear hbelow ha, { hg with bits := fun i hi => ?_ }⟩
  rw [readFrame_flipFrame, hg.bits i hi]
  by_cases hif : i = f
  · simp [hif]
  · rw [decide_eq_false hif, Bool.xor_false]
    exact decide_eq_decide.mpr (by omega)

theorem giving_initPmm (memmap : List MmapEntry) (bitmap : Bitmap) :
    Giving (memmap.filter usable) (initPmm (start memmap bitmap)) 0 where
  set := rfl
  pgSize := rfl
  available := rfl
  nframes := rfl
  bits g hg := by
    have hword : g / 64 < (start memmap bitmap).nframes / 64 + 1 := by
      change g / 64 < pages (memmap.filter usable) / 64 + 1
      omega
    change readFrame (fun i => if i < (start memmap bitmap).nframes / 64 + 1 then 0 else bitmap i) g = _
    rw [readFrame, if_pos hword]
    simp

theorem exists_giving (hmap : LoaderMap memmap) (bitmap : Bitmap) (hlimit : ∀ r ∈ memmap.filter usable, LimitExact r)
    (hn : n ≤ 64 * (pages (memmap.filter usable) / 64)) :
    ∃ h p, Run Step (start memmap bitmap) h p ∧ Giving (memmap.filter usable) p n := by
  induction n with
  | zero => exact ⟨[.initPmm], _, .snoc [] _ _ _ .nil rfl, giving_initPmm memmap bitmap⟩
  | succ n ih =>
    obtain ⟨h, p, hrun, hg⟩ := ih (Nat.le_of_succ_le hn)
    have hpages := pages_le hmap.region hmap.disjoint
    obtain ⟨a, ha⟩ := exists_frameAddress (f := n) hmap.region hlimit (by omega) (by omega)
    obtain ⟨p', hs, hg'⟩ := hg.getFrame hn ha
    exact ⟨_, p', .snoc h p p' (.getFrame a) hrun hs, hg'⟩

end Giving

section Placement

variable {memmap : List MmapEntry}

theorem reached_start (memmap : List MmapEntry) (bitmap : Bitmap) :
    Reached (memmap.filter usable) (start memmap bitmap) 0 0 :=
  ⟨[], _, .nil, rfl, rfl, rfl, le_rfl, rfl, fun j _ hj => absurd hj (Nat.not_lt_zero j)⟩

/-- Whatever is called, the frames lie in the regions; exactly if the map satisfies `Placed`. -/
theorem returnsUsable_iff (hmap : LoaderMap memmap) (bitmap : Bitmap) :
    (∀ h p, Run Step (start memmap bitmap) h p → ReturnsUsable (memmap.filter usable) h) ↔
      Placed (memmap.filter usable) (memmap.filter usable) (64 * (pages (memmap.filter usable) / 64)) := by
  have hpages := pages_le hmap.region hmap.disjoint
  constructor
  · intro hall
    have hreached : ∀ k ≤ (memmap.filter usable).length, Reached (memmap.filter usable) (start memmap bitmap) k 0 := by
      intro k
      induction k with
      | zero => exact fun _ => reached_start memmap bitmap
      | succ k ih =>
        intro hk
        exact (earlyInside_of_reached hmap.region hmap.disjoint hall (ih (Nat.le_of_succ_le hk))
          (List.getElem?_eq_getElem hk)).2
    have hearly : ∀ r ∈ memmap.filter usable, LimitExact r ∧ EarlyInside (memmap.filter usable) r := by
      intro r hr
      obtain ⟨k, hk⟩ := List.mem_iff_getElem?.mp hr
      have hlt := (List.getElem?_eq_some_iff.mp hk).1
      have hkr := hreached k hlt.le
      exact ⟨limitExact_of_reached hmap.region hmap.disjoint hall hkr hk,
        (earlyInside_of_reached hmap.region hmap.disjoint hall hkr hk).1⟩
    refine placed_of_inside hmap.region hmap.disjoint (fun r hr => hr) (by omega) hearly fun f hf a ha => ?_
    obtain ⟨h, p, hrun, hg⟩ := exists_giving hmap bitmap (fun r hr => (hearly r hr).1) hf.le
    obtain ⟨p', hs, -⟩ := hg.getFrame hf ha
    exact (hall _ _ (.snoc h p p' (.getFrame a) hrun hs) a (List.mem_append_right _ (List.mem_singleton_self _))).2
  · intro hplaced h p hrun
    obtain ⟨hearly, hlate⟩ := hplaced.inside hmap.region (fun r hr => hr) (by omega)
    exact (Counting.run hmap hearly hlate hrun).1

theorem returnsUsable_block : LoaderMap block ∧
    ∀ h p, Run Step (start block fun _ => 0) h p → ReturnsUsable (block.filter usable) h := by
  have hmap : LoaderMap block := by
    refine ⟨by decide, fun r hr => ?_, List.pairwise_singleton _ _⟩
    obtain rfl := List.mem_singleton.mp hr
    constructor <;> decide
  have hplaced : Placed (block.filter usable) (block.filter usable) (64 * (pages (block.filter usable) / 64)) := by
    refine ⟨⟨by decide, by decide⟩, fun _ => .inl (by decide), fun n hn hwrap => ?_, trivial⟩
    have hfew : n < 64 := hn
    have hround : roundUp 0x100000 = 0x100000 := by decide
    rw [hround] at hwrap
    omega
  exact ⟨hmap, (returnsUsable_iff hmap _).mpr hplaced⟩

def skewedMap : List MmapEntry := [⟨0x100800, 0x2400, 1⟩]

/-- The second frame ends after the region does. -/
theorem frame_ends_outside : ¬ ∀ (memmap : List MmapEntry) (bitmap : Bitmap) (h : List Call) (p : Pmm),
    LoaderMap memmap → Run Step (start memmap bitmap) h p → ReturnsUsable (memmap.filter usable) h := by
  intro hall
  have hmap : LoaderMap skewedMap := by
    refine ⟨by decide, fun r hr => ?_, List.pairwise_singleton _ _⟩
    obtain rfl := List.mem_singleton.mp hr
    constructor <;> decide
  obtain ⟨p, hrun⟩ := exists_run (s := start skewedMap fun _ => 0) (h := [.getFrame 0x101000, .getFrame 0x102000])
    (by decide +kernel)
  have husable := (hall skewedMap _ _ p hmap hrun 0x102000 (by decide)).2
  exact absurd husable (by decide)

end Placement

end Raccoon.FrameAllocator
