import Raccoon.FramesExclusive
import Mathlib.Data.Fintype.Card

/-!
The numbers of the frames. `get_frame` goes from a number to an address by a
running subtraction over `available`, and `free_frame` goes back by the prefix
sums that `init_pmm` has left in `loc_datas`.
-/

namespace Raccoon.BlockNumbering

variable {b : Block} {bs : List Block} {i n p : ℕ}

theorem exists_nth (h : i < total bs) : ∃ p, nth bs i = some p := by
  induction bs generalizing i with
  | nil => exact absurd h (Nat.not_lt_zero i)
  | cons b bs ih =>
    have htotal : total (b :: bs) = b.count + total bs := rfl
    rw [nth]
    by_cases hi : i < b.count
    · exact ⟨_, if_pos hi⟩
    · rw [if_neg hi]
      exact ih (by omega)

theorem nth_of_contains (hb : b ∈ bs) (hp : b.Contains p) : ∃ i < total bs, nth bs i = some p := by
  induction bs with
  | nil => cases hb
  | cons c bs ih =>
    have htotal : total (c :: bs) = c.count + total bs := rfl
    rcases List.mem_cons.mp hb with rfl | hb
    · unfold Block.Contains at hp
      refine ⟨p - b.start, by omega, ?_⟩
      rw [nth, if_pos (by omega)]
      congr 1
      omega
    · obtain ⟨i, hi, hnth⟩ := ih hb
      refine ⟨c.count + i, by omega, ?_⟩
      rw [nth, if_neg (by omega), Nat.add_sub_cancel_left]
      exact hnth

theorem lt_total (h : nth bs i = some p) : i < total bs := by
  induction bs generalizing i with
  | nil => cases h
  | cons b bs ih =>
    have htotal : total (b :: bs) = b.count + total bs := rfl
    rw [nth] at h
    by_cases hi : i < b.count
    · omega
    · rw [if_neg hi] at h
      have hrest := ih h
      omega

/-- Blocks that are apart have no more items than the space they lie in. -/
theorem total_le (hd : bs.Pairwise Block.Apart) (hin : ∀ b ∈ bs, b.start + b.count ≤ n) : total bs ≤ n := by
  choose p hp using fun i : Fin (total bs) => exists_nth i.isLt
  have hlt (i : Fin (total bs)) : p i < n := by
    obtain ⟨b, hb, hle⟩ := mem_of_nth (hp i)
    have hend := hin b hb
    unfold Block.Contains at hle
    omega
  have hinj : Function.Injective fun i => (⟨p i, hlt i⟩ : Fin n) := by
    intro i j hij
    have he : p i = p j := congrArg Fin.val hij
    exact Fin.ext (nth_inj hd (hp i) (he ▸ hp j))
  simpa using Fintype.card_le_of_injective _ hinj

end Raccoon.BlockNumbering

namespace Raccoon.FrameAllocator

open BlockNumbering Runs

/-- The number that `free_frame` computes for the address in each region that holds it. -/
def frameNumbers (pgSize addr : ℕ) : List LocalisationData → List ℕ
  | [] => []
  | d :: ds =>
    if d.length = 0 then []
    else if addr ≥ wadd d.alignedBase d.length ∨ addr < d.alignedBase then frameNumbers pgSize addr ds
    else (d.firstFrameNumber + (addr - d.alignedBase) / pgSize) :: frameNumbers pgSize addr ds

theorem freeIn_eq_foldl (pgSize addr : ℕ) (ds : List LocalisationData) (bitmap : Bitmap) :
    freeIn pgSize addr ds bitmap = (frameNumbers pgSize addr ds).foldl flipFrame bitmap := by
  induction ds generalizing bitmap with
  | nil => rfl
  | cons d ds ih =>
    rw [freeIn, frameNumbers]
    split
    case isTrue => rfl
    case isFalse =>
      split
      case isTrue => exact ih bitmap
      case isFalse => exact ih _

theorem flipFrame_flipFrame (bitmap : Bitmap) (f : ℕ) : flipFrame (flipFrame bitmap f) f = bitmap := by
  simp only [flipFrame, Function.update_self, Function.update_idem, BitVec.xor_assoc, BitVec.xor_self,
    BitVec.xor_zero, Function.update_eq_self]

section Regions

variable {r : MmapEntry} {rs : List MmapEntry} {i n q off : ℕ}

theorem frameNumbers_skip (hr : Region r) (h : ¬ (frames r).Contains q) :
    frameNumbers 4096 (4096 * q) (localise 4096 off (r :: rs)) =
      frameNumbers 4096 (4096 * q) (localise 4096 (off + r.length / 4096) rs) := by
  have hb := hr.base
  have hl := hr.length
  have hp := hr.pos
  have hin := hr.inside
  have hskip : 4096 * q ≥ wadd r.base r.length ∨ 4096 * q < r.base := by
    simp only [Block.Contains, frames] at h
    unfold wadd
    omega
  rw [localise_cons hr, frameNumbers, if_neg hp.ne']
  exact if_pos hskip

theorem frameNumbers_eq_nil (hregion : ∀ r ∈ rs, Region r) (h : ∀ b ∈ rs.map frames, ¬ b.Contains q) (off : ℕ) :
    frameNumbers 4096 (4096 * q) (localise 4096 off rs) = [] := by
  induction rs generalizing off with
  | nil => rfl
  | cons r rs ih =>
    obtain ⟨hr, hrs⟩ := List.forall_mem_cons.mp hregion
    rw [List.map_cons] at h
    obtain ⟨hhead, hrest⟩ := List.forall_mem_cons.mp h
    rw [frameNumbers_skip hr hhead]
    exact ih hrs hrest _

/-- `free_frame` finds the number that leads `get_frame` to the address. -/
theorem frameNumbers_of_nth (hregion : ∀ r ∈ rs, Region r) (hd : (rs.map frames).Pairwise Block.Apart)
    (hlow : ∀ r ∈ rs, r.base + r.length < 2 ^ 64) (hi : nth (rs.map frames) i = some q) (off : ℕ) :
    frameNumbers 4096 (4096 * q) (localise 4096 off rs) = [off + i] := by
  induction rs generalizing i off with
  | nil => cases hi
  | cons r rs ih =>
    obtain ⟨hr, hrs⟩ := List.forall_mem_cons.mp hregion
    obtain ⟨hlr, hlrs⟩ := List.forall_mem_cons.mp hlow
    rw [List.map_cons] at hd
    obtain ⟨hhead, hd⟩ := List.pairwise_cons.mp hd
    have hb := hr.base
    have hl := hr.length
    have hp := hr.pos
    have hstart : (frames r).start = r.base / 4096 := rfl
    have hcount : (frames r).count = r.length / 4096 := rfl
    rw [List.map_cons, nth] at hi
    by_cases hlt : i < (frames r).count
    · rw [if_pos hlt, Option.some.injEq] at hi
      have hcontains : (frames r).Contains q := by
        unfold Block.Contains
        omega
      have hinside : ¬ (4096 * q ≥ wadd r.base r.length ∨ 4096 * q < r.base) := by
        rw [wadd_eq hlr]
        omega
      have hrest : frameNumbers 4096 (4096 * q) (localise 4096 (off + r.length / 4096) rs) = [] :=
        frameNumbers_eq_nil hrs (fun b hb' => (hhead b hb').not_contains hcontains) _
      have hnumber : off + (4096 * q - r.base) / 4096 = off + i := by omega
      rw [localise_cons hr, frameNumbers, if_neg hp.ne']
      dsimp only
      rw [if_neg hinside, hrest, hnumber]
    · rw [if_neg hlt] at hi
      -- the address lies in a later region, so the first one does not hold it
      obtain ⟨c, hc, hcq⟩ := mem_of_nth hi
      rw [frameNumbers_skip hr fun h => (hhead c hc).not_contains h hcq, ih hrs hd hlrs hi]
      congr 1
      omega

theorem noWrap_of_low (hbase : ∀ r ∈ rs, r.base ≤ 2 ^ 52) (hn : 4096 * n ≤ 2 ^ 63) : NoWrap rs n := by
  induction rs generalizing n with
  | nil => trivial
  | cons r rs ih =>
    obtain ⟨hr, hrs⟩ := List.forall_mem_cons.mp hbase
    exact ⟨by omega, ih hrs (by omega)⟩

theorem total_low (hlow : ∀ r ∈ rs, r.base + r.length ≤ 2 ^ 52) : total (rs.map frames) ≤ 2 ^ 40 * rs.length := by
  induction rs with
  | nil => exact Nat.zero_le _
  | cons r rs ih =>
    obtain ⟨hr, hrs⟩ := List.forall_mem_cons.mp hlow
    have htotal : total ((r :: rs).map frames) = r.length / 4096 + total (rs.map frames) := rfl
    have hrest := ih hrs
    rw [List.length_cons]
    omega

/-- The addresses of the pages of the regions. -/
def PageAddress (rs : List MmapEntry) (a : ℕ) : Prop :=
  a % 4096 = 0 ∧ ∃ r ∈ rs, r.base ≤ a ∧ a < r.base + r.length

theorem pageAddress_of_nth (hregion : ∀ r ∈ rs, Region r) (h : nth (rs.map frames) i = some q) :
    PageAddress rs (4096 * q) := by
  obtain ⟨b, hb, hq⟩ := mem_of_nth h
  obtain ⟨r, hr, rfl⟩ := List.mem_map.mp hb
  have hbase := (hregion r hr).base
  have hlength := (hregion r hr).length
  simp only [Block.Contains, frames] at hq
  exact ⟨Nat.mul_mod_right 4096 q, r, hr, by omega, by omega⟩

theorem exists_nth_of_pageAddress (hregion : ∀ r ∈ rs, Region r) {a : ℕ} (h : PageAddress rs a) :
    ∃ i < total (rs.map frames), ∃ q, nth (rs.map frames) i = some q ∧ a = 4096 * q := by
  obtain ⟨ha, r, hr, hle, hlt⟩ := h
  have hbase := (hregion r hr).base
  have hlength := (hregion r hr).length
  have hcontains : (frames r).Contains (a / 4096) := by
    simp only [Block.Contains, frames]
    omega
  obtain ⟨i, hi, hnth⟩ := nth_of_contains (List.mem_map_of_mem hr) hcontains
  exact ⟨i, hi, _, hnth, by omega⟩

theorem only_region (hd : rs.Pairwise fun r s => r.base + r.length ≤ s.base ∨ s.base + s.length ≤ r.base)
    {a : ℕ} (h : PageAddress rs a) : ∃! r, r ∈ rs ∧ r.base ≤ a ∧ a < r.base + r.length := by
  obtain ⟨-, r, hr, hle, hlt⟩ := h
  refine ⟨r, ⟨hr, hle, hlt⟩, fun s ⟨hs, hle', hlt'⟩ => ?_⟩
  rcases eq_or_apart hd hs hr with he | hapart
  · exact he
  · omega

end Regions

/-- The tables that `get_size_in_bits` and `init_pmm` leave. -/
structure Tables (rs : List MmapEntry) (p : Pmm) : Prop where
  pgSize : p.pgSize = 4096
  available : p.available = rs
  nframes : p.nframes = total (rs.map frames)
  late : p.once = true → p.isBitmapSet = true ∧ p.locDatas = localise 4096 0 rs

variable {rs : List MmapEntry} {p p' : Pmm} {memmap : List MmapEntry} {bitmap : Bitmap} {h : List Call}

theorem tables_start (hmap : UsableMap memmap) (bitmap : Bitmap) :
    Tables (memmap.filter usable) (start memmap bitmap) where
  pgSize := rfl
  available := rfl
  nframes := (early_start hmap bitmap).nframes
  late h := nomatch h

theorem Tables.getFrame {a : ℕ} (ht : Tables rs p) (hs : getFrame p = some (a, p')) : Tables rs p' := by
  rw [FrameAllocator.getFrame] at hs
  by_cases hset : p.isBitmapSet = true
  · rw [if_pos hset] at hs
    obtain ⟨-, hs⟩ := Option.ite_none_right_eq_some.mp hs
    obtain ⟨b, -, hs⟩ := Option.map_eq_some_iff.mp hs
    obtain ⟨-, rfl⟩ := Prod.mk.inj hs
    exact { ht with }
  · rw [if_neg hset] at hs
    obtain ⟨x, -, hs⟩ := Option.map_eq_some_iff.mp hs
    obtain ⟨-, rfl⟩ := Prod.mk.inj hs
    exact { ht with }

theorem Tables.initPmm (ht : Tables rs p) : Tables rs (initPmm p) := by
  rw [FrameAllocator.initPmm]
  split
  case isTrue => exact ht
  case isFalse =>
    refine { ht with late := fun _ => ⟨rfl, ?_⟩ }
    dsimp only
    rw [ht.pgSize, ht.available]

theorem Tables.run (hmap : UsableMap memmap) (hrun : Run Step (start memmap bitmap) h p) :
    Tables (memmap.filter usable) p := by
  refine hrun.invariant (fun _ p => Tables (memmap.filter usable) p) (tables_start hmap bitmap) ?_
  intro _ p c p' ht hs
  cases c with
  | getFrame a => exact ht.getFrame hs
  | initPmm =>
    obtain rfl := hs
    exact ht.initPmm
  | freeFrame a =>
    obtain rfl := hs
    exact { ht with }

section Late

variable (hregion : ∀ r ∈ rs, Region r) (hlow : ∀ r ∈ rs, r.base + r.length ≤ 2 ^ 52) (hfew : rs.length < 20)
  (ht : Tables rs p)

include hregion hlow hfew ht

theorem frameAddress_of_lt {n : ℕ} (hn : n < p.nframes) :
    ∃ q, nth (rs.map frames) n = some q ∧ frameAddress p.pgSize n p.available = some (4096 * q) := by
  have htotal := total_low hlow
  have hwrap : NoWrap rs (total (rs.map frames)) :=
    noWrap_of_low (fun r hr => (Nat.le_add_right ..).trans (hlow r hr)) (by omega)
  rw [ht.nframes] at hn
  obtain ⟨q, hq⟩ := exists_nth hn
  refine ⟨q, hq, ?_⟩
  rw [ht.pgSize, ht.available, frameAddress_eq hregion hwrap hn, hq, Option.map_some]

omit hfew in
theorem frameNumbers_of_number (hd : rs.Pairwise fun r s => r.base + r.length ≤ s.base ∨ s.base + s.length ≤ r.base)
    (honce : p.once = true) {n q : ℕ} (hq : nth (rs.map frames) n = some q) :
    frameNumbers p.pgSize (cleanBits (4096 * q)) p.locDatas = [n] := by
  have hclean : cleanBits (4096 * q) = 4096 * q := by
    obtain ⟨-, r, hr, -, hlt⟩ := pageAddress_of_nth hregion hq
    have hin := hlow r hr
    rw [cleanBits_mod]
    omega
  have hlow' : ∀ r ∈ rs, r.base + r.length < 2 ^ 64 := fun r hr => (hlow r hr).trans_lt (by decide)
  rw [hclean, ht.pgSize, (ht.late honce).2, frameNumbers_of_nth hregion (apart_of_disjoint hregion hd) hlow' hq,
    Nat.zero_add]

end Late

theorem freeFrame_undoes_getFrame (hmap : UsableMap memmap)
    (hlow : ∀ r ∈ memmap.filter usable, r.base + r.length ≤ 2 ^ 52)
    (hrun : Run Step (start memmap bitmap) h p) (honce : p.once = true) (b : Bitmap) :
    (∀ a p', getFrame { p with bitmap := b } = some (a, p') →
      (∃ f < p.nframes, readFrame b f = false ∧ readFrame p'.bitmap f = true ∧
        ∀ g ≠ f, readFrame p'.bitmap g = readFrame b g) ∧
      a % 4096 = 0 ∧ (∃! r, r ∈ memmap.filter usable ∧ r.base ≤ a ∧ a < r.base + r.length) ∧
      freeFrame p' a = { p with bitmap := b }) ∧
    (∀ n < p.nframes, ∃ a, frameAddress p.pgSize n p.available = some a ∧ PageAddress (memmap.filter usable) a ∧
      frameNumbers p.pgSize (cleanBits a) p.locDatas = [n]) ∧
    (∀ a, PageAddress (memmap.filter usable) a → ∃ n < p.nframes,
      frameNumbers p.pgSize (cleanBits a) p.locDatas = [n] ∧ frameAddress p.pgSize n p.available = some a) := by
  have ht : Tables (memmap.filter usable) p := .run hmap hrun
  have hregion := hmap.region
  refine ⟨fun a p' hs => ?_, fun n hn => ?_, fun a ha => ?_⟩
  · obtain ⟨f, hf, hclear, -, haddress, rfl⟩ := getFrame_late (p := { p with bitmap := b }) (ht.late honce).1 hs
    dsimp only at hf hclear haddress ⊢
    have hlt : f < p.nframes := by omega
    obtain ⟨q, hq, hqa⟩ := frameAddress_of_lt hregion hlow hmap.few ht hlt
    obtain rfl : 4096 * q = a := Option.some.inj (hqa.symm.trans haddress)
    have hpage := pageAddress_of_nth hregion hq
    refine ⟨⟨f, hlt, hclear, ?_, fun g hg => ?_⟩, hpage.1, only_region hmap.disjoint hpage, ?_⟩
    · rw [readFrame_flipFrame, hclear]
      simp
    · rw [readFrame_flipFrame]
      simp [hg]
    · rw [freeFrame]
      dsimp only
      rw [freeIn_eq_foldl, frameNumbers_of_number hregion hlow ht hmap.disjoint honce hq, List.foldl_cons,
        List.foldl_nil, flipFrame_flipFrame]
  · obtain ⟨q, hq, hqa⟩ := frameAddress_of_lt hregion hlow hmap.few ht hn
    exact ⟨_, hqa, pageAddress_of_nth hregion hq, frameNumbers_of_number hregion hlow ht hmap.disjoint honce hq⟩
  · obtain ⟨n, hn, q, hq, rfl⟩ := exists_nth_of_pageAddress hregion ha
    rw [← ht.nframes] at hn
    obtain ⟨q', hq', hqa⟩ := frameAddress_of_lt hregion hlow hmap.few ht hn
    obtain rfl : q = q' := Option.some.inj (hq.symm.trans hq')
    exact ⟨n, hn, frameNumbers_of_number hregion hlow ht hmap.disjoint honce hq, hqa⟩

/-- The second of two regions, the first of which lies above it. -/
def twoRegions : List MmapEntry := [⟨0x200000, 0x3000, 1⟩, ⟨0x100000, 0x40000, 1⟩]

theorem freeFrame_undoes_getFrame_second : ∃ p p', UsableMap twoRegions ∧
    Run Step (start twoRegions fun _ => 0) [.initPmm] p ∧
    getFrame { p with bitmap := fun _ => 0b111 } = some (0x100000, p') ∧
    freeFrame p' 0x100000 = { p with bitmap := fun _ => 0b111 } := by
  have hmap : UsableMap twoRegions := by
    refine ⟨by decide, fun r hr => ?_, by decide⟩
    obtain rfl | rfl : r = _ ∨ r = _ := by simpa [twoRegions, usable] using hr
    all_goals constructor <;> decide
  have hlow : ∀ r ∈ twoRegions.filter usable, r.base + r.length ≤ 2 ^ 52 := by decide
  have hrun : Run Step (start twoRegions fun _ => 0) [.initPmm] (initPmm (start twoRegions fun _ => 0)) :=
    .snoc [] _ _ _ .nil rfl
  have hget : (getFrame { initPmm (start twoRegions fun _ => 0) with bitmap := fun _ => 0b111 }).map Prod.fst =
      some 0x100000 := by decide +kernel
  obtain ⟨⟨a, p'⟩, hp, rfl⟩ := Option.map_eq_some_iff.mp hget
  exact ⟨_, p', hmap, hrun, hp, ((freeFrame_undoes_getFrame hmap hlow hrun rfl _).1 _ _ hp).2.2.2⟩

end Raccoon.FrameAllocator
