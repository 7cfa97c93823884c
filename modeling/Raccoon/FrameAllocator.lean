import Raccoon.Words
import Raccoon.BlockNumbering

/-!
The physical memory manager: a counter for each usable region as long as there
is no bitmap, and a bitmap over the frames of all regions afterwards. The
bitmap words are a store of their own, and that `get_frame` clears the frame it
returns is left to the memory it works on.
-/

namespace Raccoon.FrameAllocator

open BlockNumbering

structure MmapEntry where
  base : ℕ
  length : ℕ
  type : ℕ
deriving DecidableEq, Repr

structure LocalisationData where
  alignedBase : ℕ
  length : ℕ
  firstFrameNumber : ℕ
deriving DecidableEq, Repr

abbrev Bitmap := ℕ → BitVec 64

/-- The static variables of the physical memory manager, with the tables as far as they are filled. -/
structure Pmm where
  memmap : List MmapEntry
  pgSize : ℕ
  isBitmapSet : Bool
  nframes : ℕ
  numberOfFramesWithoutBitmap : ℕ
  numberOfFramesWithoutBitmapInC : ℕ
  prevI : ℕ
  available : List MmapEntry
  locDatas : List LocalisationData
  bitmap : Bitmap
  once : Bool

section Code

def align (pgSize addr : ℕ) : ℕ :=
  let temp := addr &&& wmul (2 ^ 64 - 1) pgSize
  if temp = addr then temp else wadd temp pgSize

def flipFrame (bitmap : Bitmap) (frame : ℕ) : Bitmap :=
  Function.update bitmap (frame / 64) (bitmap (frame / 64) ^^^ (1#64 <<< (frame % 64)))

def readFrame (bitmap : Bitmap) (frame : ℕ) : Bool := (bitmap (frame / 64)).getLsbD (frame % 64)

def usable (x : MmapEntry) : Bool := x.type &&& 1 ≠ 0 ∧ x.type ^^^ 1 = 0

def getSizeInBits (pageSize : ℕ) (p : Pmm) : ℕ × Pmm :=
  let available := p.memmap.filter usable
  let totalFrames := (available.map fun x => x.length / pageSize).sum
  (totalFrames, { p with pgSize := pageSize, available := available, nframes := totalFrames })

/-- The search for a frame before there is a bitmap, at region `i`: the region it ends in, the frames
given from that region, and the frame. -/
def earlySearch (pgSize prevI : ℕ) : ℕ → ℕ → List MmapEntry → Option (ℕ × ℕ × ℕ)
  | _, _, [] => none
  | i, inC, r :: rs =>
    if r.length = 0 then none
    else
      let inC := if i > prevI then 0 else inC
      let currentFrame := wadd (align pgSize r.base) (wmul inC pgSize)
      if currentFrame < wsub (wadd (align pgSize r.base) r.length) pgSize then some (i, inC + 1, currentFrame)
      else earlySearch pgSize prevI (i + 1) inC rs

/-- `while (i < n && bitmap_addr[i] == ~0) i++`, with `n - i` rounds left. -/
def firstWord (bitmap : Bitmap) : ℕ → ℕ → ℕ
  | 0, i => i
  | n + 1, i => if bitmap i = BitVec.allOnes 64 then firstWord bitmap n (i + 1) else i

/-- `while (word & (1 << j)) j++`, for at most `n` rounds. -/
def firstBit (word : BitVec 64) : ℕ → ℕ → ℕ
  | 0, j => j
  | n + 1, j => if word.getLsbD j then firstBit word n (j + 1) else j

/-- The address of the frame with number `curFrameN`. -/
def frameAddress (pgSize : ℕ) : ℕ → List MmapEntry → Option ℕ
  | _, [] => none
  | curFrameN, r :: rs =>
    if r.length = 0 then none
    else
      let currentFrame := wadd (align pgSize r.base) (wmul curFrameN pgSize)
      if currentFrame ≤ wsub (wadd (align pgSize r.base) r.length) pgSize then some currentFrame
      else frameAddress pgSize (wsub curFrameN (r.length / pgSize)) rs

/-- A call that finds no frame does not return. -/
def getFrame (p : Pmm) : Option (ℕ × Pmm) :=
  if p.isBitmapSet then
    let i := firstWord p.bitmap (p.nframes / 64) 0
    if i ≠ p.nframes / 64 then
      let curFrameN := i * 64 + firstBit (p.bitmap i) 64 0
      (frameAddress p.pgSize curFrameN p.available).map fun a => (a, { p with bitmap := flipFrame p.bitmap curFrameN })
    else none
  else
    (earlySearch p.pgSize p.prevI p.prevI p.numberOfFramesWithoutBitmapInC (p.available.drop p.prevI)).map
      fun x => (x.2.2, { p with
        prevI := x.1
        numberOfFramesWithoutBitmapInC := x.2.1
        numberOfFramesWithoutBitmap := p.numberOfFramesWithoutBitmap + 1 })

/-- `flip_frame(i)` for the first `n` frames. -/
def flipFrames (bitmap : Bitmap) : ℕ → Bitmap
  | 0 => bitmap
  | n + 1 => flipFrame (flipFrames bitmap n) n

/-- The table that `free_frame` looks addresses up in. -/
def localise (pgSize : ℕ) : ℕ → List MmapEntry → List LocalisationData
  | _, [] => []
  | currentNframes, r :: rs =>
    if r.length = 0 then []
    else
      let base := align pgSize r.base
      let length := wsub r.length (wsub base r.base)
      ⟨base, length, currentNframes⟩ :: localise pgSize (currentNframes + length / 0x1000) rs

def initPmm (p : Pmm) : Pmm :=
  if p.once then p
  else { p with
    once := true
    isBitmapSet := true
    bitmap := flipFrames (fun i => if i < p.nframes / 64 + 1 then 0 else p.bitmap i) p.numberOfFramesWithoutBitmap
    locDatas := localise p.pgSize 0 p.available }

/-- The loop of `free_frame`: the frame is flipped in every region that holds the address. -/
def freeIn (pgSize addr : ℕ) : List LocalisationData → Bitmap → Bitmap
  | [], bitmap => bitmap
  | d :: ds, bitmap =>
    if d.length = 0 then bitmap
    else if addr ≥ wadd d.alignedBase d.length ∨ addr < d.alignedBase then freeIn pgSize addr ds bitmap
    else freeIn pgSize addr ds (flipFrame bitmap (d.firstFrameNumber + (addr - d.alignedBase) / pgSize))

def freeFrame (p : Pmm) (address : ℕ) : Pmm :=
  { p with bitmap := freeIn p.pgSize (cleanBits address) p.locDatas p.bitmap }

end Code

section Bits

variable {bitmap : Bitmap} {f g n i : ℕ}

theorem readFrame_flipFrame : readFrame (flipFrame bitmap f) g = (readFrame bitmap g ^^ decide (g = f)) := by
  unfold readFrame flipFrame
  by_cases hw : g / 64 = f / 64
  · have hbit : (1#64 <<< (f % 64)).getLsbD (g % 64) = decide (g = f) := by
      rw [BitVec.getLsbD_shiftLeft, BitVec.getLsbD_one]
      by_cases h : g = f
      · subst h
        simp [Nat.mod_lt]
      · simp only [h, decide_false, Bool.and_eq_false_iff, Bool.not_eq_false', decide_eq_true_eq,
          decide_eq_false_iff_not]
        omega
    rw [hw, Function.update_self, BitVec.getLsbD_xor, hbit]
  · have hne : g ≠ f := fun h => hw (h ▸ rfl)
    rw [Function.update_of_ne hw]
    simp [hne]

theorem readFrame_flipFrames : readFrame (flipFrames bitmap n) g = (readFrame bitmap g ^^ decide (g < n)) := by
  induction n with
  | zero => simp [flipFrames]
  | succ n ih =>
    rw [flipFrames, readFrame_flipFrame, ih, Bool.xor_assoc]
    congr 1
    by_cases hlt : g < n
    · simp [hlt, hlt.ne, Nat.lt_succ_of_lt hlt]
    · by_cases he : g = n
      · simp [he]
      · have hgt : ¬ g < n + 1 := by omega
        simp [hlt, he, hgt]

theorem firstWord_spec (bitmap : Bitmap) (n i : ℕ) : i ≤ firstWord bitmap n i ∧ firstWord bitmap n i ≤ i + n ∧
    (firstWord bitmap n i ≠ i + n → bitmap (firstWord bitmap n i) ≠ BitVec.allOnes 64) ∧
    ∀ w, i ≤ w → w < firstWord bitmap n i → bitmap w = BitVec.allOnes 64 := by
  induction n generalizing i with
  | zero =>
    rw [firstWord]
    exact ⟨le_rfl, le_rfl, fun h => absurd rfl h, fun w h1 h2 => by omega⟩
  | succ n ih =>
    rw [firstWord]
    by_cases h : bitmap i = BitVec.allOnes 64
    · rw [if_pos h]
      obtain ⟨h1, h2, h3, h4⟩ := ih (i + 1)
      refine ⟨by omega, by omega, fun hne => h3 (by omega), fun w hw1 hw2 => ?_⟩
      rcases Nat.eq_or_lt_of_le hw1 with rfl | hlt
      · exact h
      · exact h4 w hlt hw2
    · rw [if_neg h]
      exact ⟨le_rfl, by omega, fun _ => h, fun w h1 h2 => by omega⟩

theorem firstBit_spec {word : BitVec 64} {n j k : ℕ} (hj : j ≤ k) (hk : k < j + n) (h : word.getLsbD k = false) :
    firstBit word n j ≤ k ∧ word.getLsbD (firstBit word n j) = false := by
  induction n generalizing j with
  | zero => omega
  | succ n ih =>
    rw [firstBit]
    by_cases hb : word.getLsbD j = true
    · rw [if_pos hb]
      have hne : j ≠ k := by
        rintro rfl
        rw [h] at hb
        cases hb
      exact ih (by omega) (by omega)
    · rw [if_neg hb]
      exact ⟨hj, by simpa using hb⟩

theorem exists_clear {word : BitVec 64} (h : word ≠ BitVec.allOnes 64) : ∃ k < 64, word.getLsbD k = false := by
  by_contra hc
  refine h (BitVec.eq_of_getLsbD_eq fun i hi => ?_)
  rw [BitVec.getLsbD_allOnes]
  by_contra hne
  exact hc ⟨i, hi, by simpa [hi] using hne⟩

/-- `get_frame` chooses the first clear bit of the words it looks at. -/
theorem first_clear {n f : ℕ} (hn : firstWord bitmap n 0 ≠ n)
    (hf : firstWord bitmap n 0 * 64 + firstBit (bitmap (firstWord bitmap n 0)) 64 0 = f) :
    readFrame bitmap f = false ∧ f < 64 * n ∧ ∀ g, readFrame bitmap g = false → f ≤ g := by
  obtain ⟨-, hle, hword, hbelow⟩ := firstWord_spec bitmap n 0
  generalize firstWord bitmap n 0 = w at hn hf hle hword hbelow
  obtain ⟨k, hk, hclear⟩ := exists_clear (hword (by omega))
  obtain ⟨hbk, hbit⟩ := firstBit_spec (Nat.zero_le k) (by omega : k < 0 + 64) hclear
  have hdiv : f / 64 = w := by omega
  have hmod : f % 64 = firstBit (bitmap w) 64 0 := by omega
  refine ⟨?_, by omega, fun g hg => ?_⟩
  · rw [readFrame, hdiv, hmod]
    exact hbit
  · rw [readFrame] at hg
    rcases Nat.lt_trichotomy (g / 64) w with hlt | heq | hgt
    · rw [hbelow _ (Nat.zero_le _) hlt, BitVec.getLsbD_allOnes] at hg
      have hlt64 : g % 64 < 64 := Nat.mod_lt g (by omega)
      simp [hlt64] at hg
    · rw [heq] at hg
      have hmin := (firstBit_spec (Nat.zero_le (g % 64)) (by omega : g % 64 < 0 + 64) hg).1
      omega
    · omega

theorem getFrame_late {p p' : Pmm} {a : ℕ} (hset : p.isBitmapSet = true) (hs : getFrame p = some (a, p')) :
    ∃ f < 64 * (p.nframes / 64), readFrame p.bitmap f = false ∧ (∀ g, readFrame p.bitmap g = false → f ≤ g) ∧
      frameAddress p.pgSize f p.available = some a ∧ p' = { p with bitmap := flipFrame p.bitmap f } := by
  rw [getFrame, if_pos hset] at hs
  obtain ⟨hne, hs⟩ := Option.ite_none_right_eq_some.mp hs
  obtain ⟨b, haddress, hs⟩ := Option.map_eq_some_iff.mp hs
  obtain ⟨rfl, rfl⟩ := Prod.mk.inj hs
  obtain ⟨hclear, hlt, hmin⟩ := first_clear hne rfl
  exact ⟨_, hlt, hclear, hmin, haddress, rfl⟩

/-- `get_frame` returns the address of the first clear bit. -/
theorem getFrame_of_clear {p : Pmm} {a : ℕ} (hset : p.isBitmapSet = true) (hf : f < 64 * (p.nframes / 64))
    (hclear : readFrame p.bitmap f = false) (hbelow : ∀ g < f, readFrame p.bitmap g = true)
    (ha : frameAddress p.pgSize f p.available = some a) :
    getFrame p = some (a, { p with bitmap := flipFrame p.bitmap f }) := by
  have hword : firstWord p.bitmap (p.nframes / 64) 0 ≠ p.nframes / 64 := by
    intro hall
    have hfull := (firstWord_spec p.bitmap (p.nframes / 64) 0).2.2.2 (f / 64) (Nat.zero_le _) (by omega)
    have hlt : f % 64 < 64 := Nat.mod_lt f (by decide)
    rw [readFrame, hfull, BitVec.getLsbD_allOnes] at hclear
    simp [hlt] at hclear
  obtain ⟨hclear', -, hmin⟩ := first_clear hword rfl
  have hf' := hmin f hclear
  generalize hg : firstWord p.bitmap (p.nframes / 64) 0 * 64 +
    firstBit (p.bitmap (firstWord p.bitmap (p.nframes / 64) 0)) 64 0 = g at hclear' hf'
  obtain rfl : g = f := by
    by_contra hne
    exact absurd ((hbelow g (by omega)).symm.trans hclear') (by simp)
  rw [getFrame, if_pos hset]
  dsimp only
  rw [if_pos hword, hg, ha, Option.map_some]

end Bits

section Regions

/-- A stretch of whole pages of the physical address space. -/
structure Region (r : MmapEntry) : Prop where
  base : r.base % 4096 = 0
  length : r.length % 4096 = 0
  pos : 0 < r.length
  fits : r.length < 2 ^ 64
  inside : r.base + r.length ≤ 2 ^ 64

def frames (r : MmapEntry) : Block := ⟨r.base / 4096, r.length / 4096⟩

/-- The memory maps that the loader passes. -/
structure UsableMap (memmap : List MmapEntry) : Prop where
  few : (memmap.filter usable).length < 20
  region : ∀ r ∈ memmap.filter usable, Region r
  disjoint : (memmap.filter usable).Pairwise fun r s => r.base + r.length ≤ s.base ∨ s.base + s.length ≤ r.base

/-- The address of none of the next `n` frames wraps when it is computed from the base of a region. -/
def NoWrap : List MmapEntry → ℕ → Prop
  | [], _ => True
  | r :: rs, n => r.base + 4096 * n ≤ 2 ^ 64 ∧ NoWrap rs (n - r.length / 4096)

instance NoWrap.decidable : (rs : List MmapEntry) → (n : ℕ) → Decidable (NoWrap rs n)
  | [], _ => inferInstanceAs (Decidable True)
  | _ :: rs, _ => @instDecidableAnd _ _ _ (NoWrap.decidable rs _)

variable {r : MmapEntry} {rs : List MmapEntry} {n i off p : ℕ} {bitmap : Bitmap}

theorem apart_of_disjoint (hregion : ∀ r ∈ rs, Region r)
    (hd : rs.Pairwise fun r s => r.base + r.length ≤ s.base ∨ s.base + s.length ≤ r.base) :
    (rs.map frames).Pairwise Block.Apart := by
  rw [List.pairwise_map]
  refine hd.imp_of_mem fun {r s} hr hs h => ?_
  have h1 := (hregion r hr).base
  have h2 := (hregion s hs).base
  simp only [Block.Apart, frames]
  omega

theorem and_pages (x : ℕ) : x &&& wmul (2 ^ 64 - 1) 4096 = cleanBits x := by
  have hmask : wmul (2 ^ 64 - 1) 4096 = 2 ^ 64 - 1 - 0xfff := by decide
  rw [hmask, cleanBits]

namespace Region

theorem align (h : Region r) : align 4096 r.base = r.base := by
  have hclean : cleanBits r.base = r.base := by
    have hb := h.base
    have hi := h.inside
    have hp := h.pos
    rw [cleanBits_mod]
    omega
  simp only [FrameAllocator.align, and_pages, hclean, if_true]

theorem limit (h : Region r) : wsub (wadd (FrameAllocator.align 4096 r.base) r.length) 4096 =
    r.base + r.length - 4096 := by
  have hl := h.length
  have hp := h.pos
  have hi := h.inside
  rw [h.align, wsub, wadd]
  omega

theorem address (h : Region r) (hn : r.base + 4096 * n < 2 ^ 64) :
    wadd (FrameAllocator.align 4096 r.base) (wmul n 4096) = r.base + 4096 * n := by
  have hmul : wmul n 4096 = 4096 * n := by rw [wmul_eq (by omega), Nat.mul_comm]
  rw [h.align, hmul, wadd_eq hn]

end Region

theorem base_add_total (hregion : ∀ r ∈ rs, Region r) (hasc : rs.Pairwise fun r s => r.base + r.length ≤ s.base)
    (hbase : ∀ r ∈ rs, n ≤ r.base) (hn : n ≤ 2 ^ 64) : n + 4096 * total (rs.map frames) ≤ 2 ^ 64 := by
  induction rs generalizing n with
  | nil => simpa [total] using hn
  | cons r rs ih =>
    obtain ⟨hr, hrs⟩ := List.forall_mem_cons.mp hregion
    obtain ⟨hhead, hasc⟩ := List.pairwise_cons.mp hasc
    have hrest := ih hrs hasc hhead hr.inside
    have hle := hbase r (List.mem_cons_self ..)
    have htotal : total ((r :: rs).map frames) = r.length / 4096 + total (rs.map frames) := rfl
    omega

theorem noWrap_of_ascending (hregion : ∀ r ∈ rs, Region r)
    (hasc : rs.Pairwise fun r s => r.base + r.length ≤ s.base) (hn : n ≤ total (rs.map frames)) : NoWrap rs n := by
  induction rs generalizing n with
  | nil => trivial
  | cons r rs ih =>
    obtain ⟨hr, hrs⟩ := List.forall_mem_cons.mp hregion
    obtain ⟨hhead, hasc⟩ := List.pairwise_cons.mp hasc
    have hrest := base_add_total hrs hasc hhead hr.inside
    have htotal : total ((r :: rs).map frames) = r.length / 4096 + total (rs.map frames) := rfl
    exact ⟨by omega, ih hrs hasc (by omega)⟩

/-- The bitmap numbers the frames of all regions through. -/
theorem frameAddress_eq (hregion : ∀ r ∈ rs, Region r) (hwrap : NoWrap rs n) (hi : i < n) :
    frameAddress 4096 i rs = (nth (rs.map frames) i).map (4096 * ·) := by
  induction rs generalizing i n with
  | nil => rfl
  | cons r rs ih =>
    obtain ⟨hr, hrs⟩ := List.forall_mem_cons.mp hregion
    have hb := hr.base
    have hl := hr.length
    have hp := hr.pos
    have hin := hr.inside
    rw [frameAddress, if_neg (by omega), hr.limit, hr.address (by have := hwrap.1; omega), List.map_cons, nth]
    have hstart : (frames r).start = r.base / 4096 := rfl
    have hcount : (frames r).count = r.length / 4096 := rfl
    rw [hstart, hcount]
    by_cases hlt : i < r.length / 4096
    · rw [if_pos (by omega), if_pos hlt, Option.map_some]
      congr 1
      omega
    · have hsub : wsub i (r.length / 4096) = i - r.length / 4096 :=
        wsub_eq (by omega) (by have := hwrap.1; omega)
      rw [if_neg (by omega), if_neg hlt, hsub]
      exact ih hrs hwrap.2 (by omega)

theorem localise_cons (hr : Region r) : localise 4096 off (r :: rs) =
    ⟨r.base, r.length, off⟩ :: localise 4096 (off + r.length / 4096) rs := by
  have hp := hr.pos
  have hin := hr.inside
  have hlen : wsub r.length (wsub r.base r.base) = r.length := by
    rw [wsub_eq le_rfl (by omega), Nat.sub_self, wsub_eq (Nat.zero_le _) hr.fits, Nat.sub_zero]
  simp only [localise, if_neg hp.ne', hr.align, hlen]

/-- `free_frame` on a frame flips the bit of the frame, or none at the end of the address space. -/
theorem freeIn_cases (hregion : ∀ r ∈ rs, Region r) (hd : (rs.map frames).Pairwise Block.Apart) (off : ℕ)
    (bitmap : Bitmap) :
    freeIn 4096 (4096 * p) (localise 4096 off rs) bitmap = bitmap ∨
      ∃ i, nth (rs.map frames) i = some p ∧
        freeIn 4096 (4096 * p) (localise 4096 off rs) bitmap = flipFrame bitmap (off + i) := by
  induction rs generalizing off bitmap with
  | nil => exact .inl rfl
  | cons r rs ih =>
    obtain ⟨hr, hrs⟩ := List.forall_mem_cons.mp hregion
    rw [List.map_cons] at hd
    obtain ⟨hhead, hd⟩ := List.pairwise_cons.mp hd
    have hb := hr.base
    have hl := hr.length
    have hp := hr.pos
    have hin := hr.inside
    rw [localise_cons hr, freeIn, if_neg hp.ne']
    dsimp only
    by_cases hskip : 4096 * p ≥ wadd r.base r.length ∨ 4096 * p < r.base
    · rw [if_pos hskip]
      refine (ih hrs hd _ bitmap).imp id fun ⟨i, hi, he⟩ => ⟨(frames r).count + i, ?_, ?_⟩
      · rw [List.map_cons, nth, if_neg (by omega), Nat.add_sub_cancel_left]
        exact hi
      · rw [he, Nat.add_assoc]
        rfl
    · rw [if_neg hskip]
      have hcontains : (frames r).Contains p := by
        simp only [Block.Contains, frames]
        unfold wadd at hskip
        omega
      have hnth : nth ((r :: rs).map frames) (p - (frames r).start) = some p := by
        unfold Block.Contains at hcontains
        rw [List.map_cons, nth, if_pos (by omega)]
        congr 1
        omega
      have hnumber : off + (4096 * p - r.base) / 4096 = off + (p - (frames r).start) := by
        dsimp only [frames]
        omega
      rw [hnumber]
      rcases ih hrs hd (off + r.length / 4096) (flipFrame bitmap (off + (p - (frames r).start))) with he | ⟨i, hi, -⟩
      · exact .inr ⟨_, hnth, he⟩
      · -- no other region holds the frame
        obtain ⟨b, hb, hp⟩ := mem_of_nth hi
        exact absurd hp ((hhead b hb).not_contains hcontains)

/-- Where the counters find a frame: next in the region of the last one, or first of a later region. -/
theorem earlySearch_cases {prevI inC i' inC' a : ℕ} (hregion : ∀ r ∈ rs, Region r) (hprev : prevI ≤ i)
    (hin : i = prevI → ∀ r, rs[0]? = some r → inC < r.length / 4096)
    (h : earlySearch 4096 prevI i inC rs = some (i', inC', a)) :
    ∃ k r, rs[k]? = some r ∧ i' = i + k ∧
      ((i' = prevI ∧ inC' = inC + 1 ∧ a = r.base + 4096 * inC ∧ inC + 1 < r.length / 4096) ∨
        (prevI < i' ∧ inC' = 1 ∧ a = r.base ∧ 1 < r.length / 4096)) := by
  induction rs generalizing i inC with
  | nil => cases h
  | cons r rs ih =>
    obtain ⟨hr, hrs⟩ := List.forall_mem_cons.mp hregion
    have hb := hr.base
    have hl := hr.length
    have hp := hr.pos
    have hlim := hr.inside
    have hc : (if i > prevI then 0 else inC) < r.length / 4096 := by
      split
      case isTrue => omega
      case isFalse => exact hin (by omega) r rfl
    rw [earlySearch, if_neg hp.ne'] at h
    dsimp only at h
    generalize hgen : (if i > prevI then 0 else inC) = c at h hc
    rw [hr.address (by omega), hr.limit] at h
    by_cases hlt : r.base + 4096 * c < r.base + r.length - 4096
    · rw [if_pos hlt, Option.some.injEq, Prod.mk.injEq, Prod.mk.injEq] at h
      obtain ⟨hi', hc', ha⟩ := h
      subst hi' hc' ha
      refine ⟨0, r, rfl, rfl, ?_⟩
      by_cases hi : i > prevI
      · rw [if_pos hi] at hgen
        subst hgen
        exact .inr ⟨hi, rfl, rfl, by omega⟩
      · rw [if_neg hi] at hgen
        subst hgen
        exact .inl ⟨by omega, rfl, rfl, by omega⟩
    · rw [if_neg hlt] at h
      obtain ⟨k, s, hs, hi', hcases⟩ := ih hrs (by omega) (by omega) h
      refine ⟨k + 1, s, hs, by omega, ?_⟩
      rcases hcases with ⟨he, -⟩ | hlater
      · omega
      · exact .inr hlater

/-- A region that the search leaves behind has no frame left but its last. -/
theorem earlySearch_skips {prevI inC i i' inC' a : ℕ} (hregion : ∀ r ∈ rs, Region r) (hprev : prevI ≤ i)
    (hin : i = prevI → ∀ r, rs[0]? = some r → inC < r.length / 4096)
    (h : earlySearch 4096 prevI i inC rs = some (i', inC', a)) {j : ℕ} (hj : i + j < i') {s : MmapEntry}
    (hs : rs[j]? = some s) : s.length / 4096 ≤ (if i + j = prevI then inC else 0) + 1 := by
  induction rs generalizing i inC j with
  | nil => cases h
  | cons r rs ih =>
    obtain ⟨hr, hrs⟩ := List.forall_mem_cons.mp hregion
    have hb := hr.base
    have hl := hr.length
    have hp := hr.pos
    have hlim := hr.inside
    have hc : (if i > prevI then 0 else inC) < r.length / 4096 := by
      split
      case isTrue => omega
      case isFalse => exact hin (by omega) r rfl
    rw [earlySearch, if_neg hp.ne'] at h
    dsimp only at h
    have hgen : (if i > prevI then 0 else inC) = if i = prevI then inC else 0 := by
      by_cases he : i = prevI
      · simp [he]
      · rw [if_pos (by omega), if_neg he]
    rw [hgen] at h hc
    generalize hcv : (if i = prevI then inC else 0) = c at h hc
    rw [hr.address (by omega), hr.limit] at h
    by_cases hlt : r.base + 4096 * c < r.base + r.length - 4096
    · rw [if_pos hlt, Option.some.injEq, Prod.mk.injEq] at h
      omega
    · rw [if_neg hlt] at h
      cases j with
      | zero =>
        obtain rfl : r = s := Option.some.inj hs
        have hi : i + 0 = i := Nat.add_zero i
        rw [hi, hcv]
        omega
      | succ j =>
        have hrest := ih hrs (by omega) (by omega) h (j := j) (by omega) hs
        rw [if_neg (by omega)] at hrest
        rw [if_neg (by omega)]
        exact hrest

theorem getFrame_early {p p' : Pmm} {a : ℕ} (hregion : ∀ r ∈ p.available, Region r)
    (hunset : p.isBitmapSet = false) (hsize : p.pgSize = 4096)
    (hroom : ∀ r, p.available[p.prevI]? = some r → p.numberOfFramesWithoutBitmapInC < r.length / 4096)
    (hs : getFrame p = some (a, p')) : ∃ k r t, p.available[p.prevI + k]? = some r ∧ a = r.base + 4096 * t ∧
      t + 1 < r.length / 4096 ∧ ((k = 0 ∧ t = p.numberOfFramesWithoutBitmapInC) ∨ (0 < k ∧ t = 0)) ∧
      p' = { p with
        prevI := p.prevI + k
        numberOfFramesWithoutBitmapInC := t + 1
        numberOfFramesWithoutBitmap := p.numberOfFramesWithoutBitmap + 1 } ∧
      ∀ j < k, ∀ s, p.available[p.prevI + j]? = some s →
        s.length / 4096 ≤ (if j = 0 then p.numberOfFramesWithoutBitmapInC else 0) + 1 := by
  rw [getFrame, if_neg (by simp [hunset])] at hs
  obtain ⟨⟨i', inC', a'⟩, hsearch, hs⟩ := Option.map_eq_some_iff.mp hs
  obtain ⟨rfl, rfl⟩ := Prod.mk.inj hs
  rw [hsize] at hsearch
  have hdrop : ∀ r ∈ p.available.drop p.prevI, Region r := fun r hr => hregion r (List.mem_of_mem_drop hr)
  have hin : p.prevI = p.prevI → ∀ r, (p.available.drop p.prevI)[0]? = some r →
      p.numberOfFramesWithoutBitmapInC < r.length / 4096 := fun _ r hr => hroom r (by simpa using hr)
  obtain ⟨k, r, hr, rfl, hcases⟩ := earlySearch_cases hdrop le_rfl hin hsearch
  rw [List.getElem?_drop] at hr
  have hskip : ∀ j < k, ∀ s, p.available[p.prevI + j]? = some s →
      s.length / 4096 ≤ (if j = 0 then p.numberOfFramesWithoutBitmapInC else 0) + 1 := by
    intro j hj s hsj
    have hle := earlySearch_skips hdrop le_rfl hin hsearch (j := j) (by omega) (by rwa [List.getElem?_drop])
    simpa using hle
  rcases hcases with ⟨hi, rfl, rfl, hlt⟩ | ⟨hi, rfl, rfl, hlt⟩
  · exact ⟨k, r, _, hr, rfl, hlt, .inl ⟨by omega, rfl⟩, rfl, hskip⟩
  · exact ⟨k, r, 0, hr, rfl, hlt, .inr ⟨by omega, rfl⟩, rfl, hskip⟩

end Regions

end Raccoon.FrameAllocator
