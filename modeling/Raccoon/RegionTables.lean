import Raccoon.FramesExclusive
import Raccoon.SentinelTables

/-!
The tables `available` and `loc_datas` of twenty entries each. Nothing counts
their entries: `get_size_in_bits` stores as many as there are usable regions,
and the loops of the other functions stop at the first empty entry.
-/

namespace Raccoon.FrameAllocator

open Loops Outcome SentinelTables Runs

def tableSize : ℕ := 20

/-- A read or a store behind the end of a table. -/
inductive Overrun where
  | available
  | locDatas

/-- The static variables, with the tables as arrays. -/
structure Statics where
  memmap : List MmapEntry
  pgSize : ℕ
  isBitmapSet : Bool
  nframes : ℕ
  numberOfFramesWithoutBitmap : ℕ
  numberOfFramesWithoutBitmapInC : ℕ
  prevI : ℕ
  available : ℕ → MmapEntry
  locDatas : ℕ → LocalisationData
  bitmap : Bitmap
  once : Bool

section Code

variable {ρ σ : Type}

/-- The loop of `get_size_in_bits`, with the frames so far, the number of stored entries and the table. -/
def fill (pageSize : ℕ) : List MmapEntry → ℕ × ℕ × (ℕ → MmapEntry) → Outcome Overrun Empty (ℕ × ℕ × (ℕ → MmapEntry))
  | [], s => .next s
  | x :: xs, (totalFrames, availableEntries, available) =>
    if usable x then
      if availableEntries < tableSize then
        fill pageSize xs (totalFrames + x.length / pageSize, availableEntries + 1,
          Function.update available availableEntries x)
      else .fail .available
    else fill pageSize xs (totalFrames, availableEntries, available)

def fillTables (pageSize : ℕ) (s : Statics) : Outcome Overrun Empty Statics := do
  let x ← fill pageSize s.memmap (0, 0, s.available)
  .next { s with pgSize := pageSize, available := x.2.2, nframes := x.1 }

def scanAvailable (s : Statics) : (ℕ → MmapEntry → σ → Outcome Overrun ρ σ) → ℕ → ℕ → σ → Outcome Overrun ρ σ :=
  scan .available s.available fun r => r.length = 0

def scanLocDatas (s : Statics) : (ℕ → LocalisationData → σ → Outcome Overrun ρ σ) → ℕ → ℕ → σ → Outcome Overrun ρ σ :=
  scan .locDatas s.locDatas fun d => d.length = 0

def earlyBody (pgSize prevI i : ℕ) (r : MmapEntry) (inC : ℕ) : Outcome Overrun (ℕ × ℕ × ℕ) ℕ :=
  let inC := if i > prevI then 0 else inC
  let currentFrame := wadd (align pgSize r.base) (wmul inC pgSize)
  if currentFrame < wsub (wadd (align pgSize r.base) r.length) pgSize then .done (i, inC + 1, currentFrame)
  else .next inC

def lateBody (pgSize : ℕ) (_ : ℕ) (r : MmapEntry) (curFrameN : ℕ) : Outcome Overrun ℕ ℕ :=
  let currentFrame := wadd (align pgSize r.base) (wmul curFrameN pgSize)
  if currentFrame ≤ wsub (wadd (align pgSize r.base) r.length) pgSize then .done currentFrame
  else .next (wsub curFrameN (r.length / pgSize))

/-- What `get_frame` returns, or `none` where it panics. -/
def getFrameIn (s : Statics) : Outcome Overrun Empty (Option (ℕ × Statics)) :=
  if s.isBitmapSet then
    let i := firstWord s.bitmap (s.nframes / 64) 0
    if i ≠ s.nframes / 64 then
      let curFrameN := i * 64 + firstBit (s.bitmap i) 64 0
      match scanAvailable s (lateBody s.pgSize) tableSize 0 curFrameN with
      | .fail e => .fail e
      | .done a => .next (some (a, { s with bitmap := flipFrame s.bitmap curFrameN }))
      | .next _ => .next none
    else .next none
  else
    match scanAvailable s (earlyBody s.pgSize s.prevI) (tableSize - s.prevI) s.prevI s.numberOfFramesWithoutBitmapInC with
    | .fail e => .fail e
    | .done x => .next (some (x.2.2, { s with
        prevI := x.1
        numberOfFramesWithoutBitmapInC := x.2.1
        numberOfFramesWithoutBitmap := s.numberOfFramesWithoutBitmap + 1 }))
    | .next _ => .next none

def initBody (pgSize i : ℕ) (r : MmapEntry) (x : ℕ × (ℕ → LocalisationData)) :
    Outcome Overrun Empty (ℕ × (ℕ → LocalisationData)) :=
  if i < tableSize then
    let base := align pgSize r.base
    let length := wsub r.length (wsub base r.base)
    .next (x.1 + length / 0x1000, Function.update x.2 i ⟨base, length, x.1⟩)
  else .fail .locDatas

def initPmmIn (s : Statics) : Outcome Overrun Empty Statics :=
  if s.once then .next s
  else do
    let x ← scanAvailable s (initBody s.pgSize) tableSize 0 (0, s.locDatas)
    .next { s with
      once := true
      isBitmapSet := true
      bitmap := flipFrames (fun i => if i < s.nframes / 64 + 1 then 0 else s.bitmap i) s.numberOfFramesWithoutBitmap
      locDatas := x.2 }

def freeBody (pgSize addr : ℕ) (_ : ℕ) (d : LocalisationData) (bitmap : Bitmap) : Outcome Overrun Empty Bitmap :=
  if addr ≥ wadd d.alignedBase d.length ∨ addr < d.alignedBase then .next bitmap
  else .next (flipFrame bitmap (d.firstFrameNumber + (addr - d.alignedBase) / pgSize))

def freeFrameIn (s : Statics) (address : ℕ) : Outcome Overrun Empty Statics := do
  let bitmap ← scanLocDatas s (freeBody s.pgSize (cleanBits address)) tableSize 0 s.bitmap
  .next { s with bitmap := bitmap }

end Code

section Bounds

/-- After `set_memory_map` and `get_size_in_bits(4096)`. -/
def startIn (memmap : List MmapEntry) (bitmap : Bitmap) : Outcome Overrun Empty Statics :=
  fillTables 4096 {
    memmap := memmap
    pgSize := 0
    isBitmapSet := false
    nframes := 0
    numberOfFramesWithoutBitmap := 0
    numberOfFramesWithoutBitmapInC := 0
    prevI := 0
    available := fun _ => ⟨0, 0, 0⟩
    locDatas := fun _ => ⟨0, 0, 0⟩
    bitmap := bitmap
    once := false }

def StepIn (s : Statics) (c : Call) (s' : Statics) : Prop :=
  match c with
  | .getFrame a => getFrameIn s = .next (some (a, s'))
  | .initPmm => initPmmIn s = .next s'
  | .freeFrame a => freeFrameIn s a = .next s'

structure Bounded (s : Statics) : Prop where
  getFrame : ∀ e, getFrameIn s ≠ .fail e
  initPmm : ∀ e, initPmmIn s ≠ .fail e
  freeFrame : ∀ a e, freeFrameIn s a ≠ .fail e

/-- The tables are filled and used within their bounds, whatever is called. -/
def NeverOverrun (memmap : List MmapEntry) (bitmap : Bitmap) : Prop :=
  ∃ s, startIn memmap bitmap = .next s ∧ ∀ h s', Run StepIn s h s' → Bounded s'

end Bounds

def blankEntry : MmapEntry := ⟨0, 0, 0⟩
def blankData : LocalisationData := ⟨0, 0, 0⟩

def tables (p : Pmm) : Statics where
  memmap := p.memmap
  pgSize := p.pgSize
  isBitmapSet := p.isBitmapSet
  nframes := p.nframes
  numberOfFramesWithoutBitmap := p.numberOfFramesWithoutBitmap
  numberOfFramesWithoutBitmapInC := p.numberOfFramesWithoutBitmapInC
  prevI := p.prevI
  available := pad blankEntry p.available
  locDatas := pad blankData p.locDatas
  bitmap := p.bitmap
  once := p.once

section Walks

variable {rs : List MmapEntry} {ds : List LocalisationData} {l xs : List MmapEntry} {i k off total pgSize : ℕ}

theorem update_pad {E : Type} {blank : E} {l : List E} (x : E) :
    Function.update (pad blank l) l.length x = pad blank (l ++ [x]) := by
  funext i
  rcases Nat.lt_trichotomy i l.length with hlt | rfl | hgt
  · rw [Function.update_of_ne hlt.ne, pad_of_lt hlt, pad_of_lt (by simp; omega), List.getElem_append_left hlt]
  · rw [Function.update_self, pad_of_lt (by simp), List.getElem_concat_length rfl]
  · rw [Function.update_of_ne hgt.ne', pad_of_le hgt.le, pad_of_le (by simp; omega)]

/-- The usable entries are stored one behind the other as long as the table has room. -/
theorem fill_eq (pageSize total : ℕ) (l xs : List MmapEntry) : fill pageSize xs (total, l.length, pad blankEntry l) =
    if l.length + (xs.filter usable).length ≤ tableSize ∨ xs.filter usable = [] then
      .next (total + ((xs.filter usable).map fun x => x.length / pageSize).sum, l.length + (xs.filter usable).length,
        pad blankEntry (l ++ xs.filter usable))
    else .fail .available := by
  induction xs generalizing l total with
  | nil => simp [fill]
  | cons x xs ih =>
    rw [fill]
    by_cases hu : usable x = true
    · rw [if_pos hu, List.filter_cons_of_pos hu]
      by_cases hroom : l.length < tableSize
      · have hlen : l.length + 1 = (l ++ [x]).length := by simp
        have hfits : l.length + (x :: xs.filter usable).length ≤ tableSize ↔
            (l ++ [x]).length + (xs.filter usable).length ≤ tableSize ∨ xs.filter usable = [] := by
          have hnil : xs.filter usable = [] ↔ (xs.filter usable).length = 0 := List.length_eq_zero_iff.symm
          rw [hnil, List.length_append, List.length_cons, List.length_singleton]
          omega
        rw [if_pos hroom, update_pad, hlen, ih]
        simp only [reduceCtorEq, or_false, hfits, List.map_cons, List.sum_cons, List.append_assoc, List.singleton_append]
        split
        · have hcount : l.length + 1 + (xs.filter usable).length = l.length + ((xs.filter usable).length + 1) := by omega
          rw [List.length_append, List.length_singleton, hcount, List.length_cons, Nat.add_assoc]
        · rfl
      · have hover : ¬ (l.length + (x :: xs.filter usable).length ≤ tableSize ∨ x :: xs.filter usable = []) := by
          simp
          omega
        rw [if_neg hroom, if_neg hover]
    · rw [if_neg hu, List.filter_cons_of_neg hu]
      exact ih total l

theorem walk_early (pgSize prevI : ℕ) (rs : List MmapEntry) (i inC : ℕ) :
    (walk (fun r => r.length = 0) (earlyBody pgSize prevI) i rs inC).Ends (fun _ => False)
      (fun x => earlySearch pgSize prevI i inC rs = some x) fun _ => earlySearch pgSize prevI i inC rs = none := by
  induction rs generalizing i inC with
  | nil => rfl
  | cons r rs ih =>
    rw [walk, earlySearch]
    by_cases hlen : r.length = 0
    · simp [hlen]
    · simp only [hlen, decide_false, Bool.false_eq_true, if_false, earlyBody]
      generalize (if i > prevI then 0 else inC) = c
      split
      · rfl
      · exact ih (i + 1) c

theorem walk_late (pgSize : ℕ) (rs : List MmapEntry) (i f : ℕ) :
    (walk (fun r => r.length = 0) (lateBody pgSize) i rs f).Ends (fun _ => False)
      (fun a => frameAddress pgSize f rs = some a) fun _ => frameAddress pgSize f rs = none := by
  induction rs generalizing i f with
  | nil => rfl
  | cons r rs ih =>
    rw [walk, frameAddress]
    by_cases hlen : r.length = 0
    · simp [hlen]
    · simp only [hlen, decide_false, Bool.false_eq_true, if_false, lateBody]
      split
      · rfl
      · exact ih (i + 1) _

theorem walk_free (pgSize addr : ℕ) (ds : List LocalisationData) (i : ℕ) (bitmap : Bitmap) :
    walk (fun d => d.length = 0) (freeBody pgSize addr) i ds bitmap = .next (freeIn pgSize addr ds bitmap) := by
  induction ds generalizing i bitmap with
  | nil => rfl
  | cons d ds ih =>
    rw [walk, freeIn]
    by_cases hlen : d.length = 0
    · simp [hlen]
    · simp only [hlen, decide_false, Bool.false_eq_true, if_false, freeBody]
      split
      · exact ih (i + 1) _
      · exact ih (i + 1) _

theorem walk_init (pgSize : ℕ) (rs : List MmapEntry) (i off : ℕ) (t : ℕ → LocalisationData)
    (hroom : i + rs.length ≤ tableSize) :
    ∃ off', walk (fun r => r.length = 0) (initBody pgSize) i rs (off, t) =
      .next (off', fun j => if j < i then t j else (localise pgSize off rs).getD (j - i) (t j)) := by
  induction rs generalizing i off t with
  | nil => exact ⟨off, by simp [walk, localise]⟩
  | cons r rs ih =>
    rw [List.length_cons] at hroom
    rw [walk, localise]
    by_cases hlen : r.length = 0
    · exact ⟨off, by simp [hlen]⟩
    · simp only [hlen, decide_false, Bool.false_eq_true, if_false, initBody]
      rw [if_pos (by omega), next_bind]
      obtain ⟨off', hwalk⟩ := ih (i + 1) (off + wsub r.length (wsub (align pgSize r.base) r.base) / 0x1000)
        (Function.update t i ⟨align pgSize r.base, wsub r.length (wsub (align pgSize r.base) r.base), off⟩) (by omega)
      refine ⟨off', hwalk.trans ?_⟩
      congr 2
      funext j
      rcases Nat.lt_trichotomy j i with hlt | rfl | hgt
      · rw [if_pos (by omega), if_pos hlt, Function.update_of_ne hlt.ne]
      · rw [if_pos (by omega), if_neg (by omega), Function.update_self, Nat.sub_self, List.getD_cons_zero]
      · obtain ⟨k, rfl⟩ : ∃ k, j = i + 1 + k := ⟨j - (i + 1), by omega⟩
        have hk : i + 1 + k - i = k + 1 := by omega
        rw [if_neg (by omega), if_neg (by omega), Function.update_of_ne (by omega), hk, Nat.add_sub_cancel_left,
          List.getD_cons_succ]

theorem earlySearch_nonempty {prevI inC : ℕ} {x : ℕ × ℕ × ℕ} (h : earlySearch pgSize prevI i inC rs = some x)
    (hk : i + k ≤ x.1) : (pad blankEntry rs k).length ≠ 0 := by
  induction rs generalizing i inC k with
  | nil => cases h
  | cons r rs ih =>
    rw [earlySearch] at h
    obtain ⟨hlen, h⟩ := Option.ite_none_left_eq_some.mp h
    cases k with
    | zero => exact hlen
    | succ k =>
      dsimp only at h
      generalize (if i > prevI then 0 else inC) = c at h
      split at h
      · cases h
        dsimp only at hk
        omega
      · exact ih h (by omega)

theorem length_localise (h : (pad blankEntry rs k).length = 0) : (localise pgSize off rs).length ≤ k := by
  induction rs generalizing k off with
  | nil => simp [localise]
  | cons r rs ih =>
    rw [localise]
    split
    · simp
    · cases k with
      | zero => contradiction
      | succ k =>
        have hle : (localise pgSize (off + wsub r.length (wsub (align pgSize r.base) r.base) / 0x1000) rs).length ≤ k :=
          ih h
        simpa using hle

end Walks

section Refinement

variable {p p' : Pmm} {s s' : Statics} {h : List Call} {memmap : List MmapEntry} {bitmap : Bitmap} {a : ℕ}

/-- Both tables end, and the next search begins before the end of the first one. -/
structure Terminated (p : Pmm) : Prop where
  few : p.available.length ≤ tableSize
  available : Ended (fun r => r.length = 0) (pad blankEntry p.available) tableSize p.prevI
  locDatas : Ended (fun d => d.length = 0) (pad blankData p.locDatas) tableSize 0
  unset : p.once = false → p.locDatas = []

theorem Terminated.all (ht : Terminated p) :
    Ended (fun r => r.length = 0) (pad blankEntry p.available) tableSize 0 := by
  obtain ⟨z, -, hz, hend⟩ := ht.available
  exact ⟨z, Nat.zero_le z, hz, hend⟩

theorem scanAvailable_eq {ρ σ : Type} (body : ℕ → MmapEntry → σ → Outcome Overrun ρ σ) {i : ℕ} (x : σ)
    (h : Ended (fun r => r.length = 0) (pad blankEntry p.available) tableSize i) :
    scanAvailable (tables p) body (tableSize - i) i x = walk (fun r => r.length = 0) body i (p.available.drop i) x :=
  scan_eq_walk rfl h

theorem scan_early (ht : Terminated p) :
    (scanAvailable (tables p) (earlyBody p.pgSize p.prevI) (tableSize - p.prevI) p.prevI
      p.numberOfFramesWithoutBitmapInC).Ends (fun _ => False)
      (fun x => earlySearch p.pgSize p.prevI p.prevI p.numberOfFramesWithoutBitmapInC (p.available.drop p.prevI) = some x)
      fun _ => earlySearch p.pgSize p.prevI p.prevI p.numberOfFramesWithoutBitmapInC (p.available.drop p.prevI) = none := by
  rw [scanAvailable_eq _ _ ht.available]
  exact walk_early p.pgSize p.prevI (p.available.drop p.prevI) p.prevI p.numberOfFramesWithoutBitmapInC

theorem scan_late (ht : Terminated p) (f : ℕ) : (scanAvailable (tables p) (lateBody p.pgSize) tableSize 0 f).Ends
    (fun _ => False) (fun a => frameAddress p.pgSize f p.available = some a)
    fun _ => frameAddress p.pgSize f p.available = none := by
  have hscan := scanAvailable_eq (lateBody p.pgSize) f ht.all
  rw [List.drop_zero] at hscan
  have hwalk := walk_late p.pgSize p.available 0 f
  rwa [← hscan] at hwalk

theorem getFrameIn_eq (ht : Terminated p) :
    getFrameIn (tables p) = .next ((getFrame p).map fun x => (x.1, tables x.2)) := by
  rw [getFrameIn, getFrame]
  by_cases hset : p.isBitmapSet = true
  · have hset' : (tables p).isBitmapSet = true := hset
    rw [if_pos hset, if_pos hset']
    dsimp only
    by_cases hword : firstWord p.bitmap (p.nframes / 64) 0 ≠ p.nframes / 64
    · have hword' : firstWord (tables p).bitmap ((tables p).nframes / 64) 0 ≠ (tables p).nframes / 64 := hword
      rw [if_pos hword, if_pos hword']
      dsimp only [tables]
      generalize firstWord p.bitmap (p.nframes / 64) 0 * 64 +
        firstBit (p.bitmap (firstWord p.bitmap (p.nframes / 64) 0)) 64 0 = f
      have hscan := scan_late ht f
      dsimp only [tables] at hscan
      split
      case h_1 e hs =>
        rw [hs] at hscan
        exact hscan.elim
      case h_2 a hs =>
        rw [hs] at hscan
        rw [(ends_done a).mp hscan]
        rfl
      case h_3 x hs =>
        rw [hs] at hscan
        rw [(ends_next x).mp hscan]
        rfl
    · have hword' : ¬ firstWord (tables p).bitmap ((tables p).nframes / 64) 0 ≠ (tables p).nframes / 64 := hword
      rw [if_neg hword, if_neg hword']
      rfl
  · have hset' : ¬ (tables p).isBitmapSet = true := hset
    rw [if_neg hset, if_neg hset']
    have hscan := scan_early ht
    dsimp only [tables] at hscan ⊢
    split
    case h_1 e hs =>
      rw [hs] at hscan
      exact hscan.elim
    case h_2 x hs =>
      rw [hs] at hscan
      rw [(ends_done x).mp hscan]
      rfl
    case h_3 x hs =>
      rw [hs] at hscan
      rw [(ends_next x).mp hscan]
      rfl

theorem initPmmIn_eq (ht : Terminated p) : initPmmIn (tables p) = .next (tables (initPmm p)) := by
  rw [initPmmIn, initPmm]
  by_cases honce : p.once = true
  · have honce' : (tables p).once = true := honce
    rw [if_pos honce, if_pos honce']
  · have honce' : ¬ (tables p).once = true := honce
    rw [if_neg honce, if_neg honce']
    have hscan := scanAvailable_eq (initBody p.pgSize) (0, pad blankData p.locDatas) ht.all
    rw [List.drop_zero] at hscan
    obtain ⟨off, hwalk⟩ := walk_init p.pgSize p.available 0 0 (pad blankData p.locDatas)
      ((Nat.zero_add _).le.trans ht.few)
    rw [hwalk] at hscan
    have hdatas : (fun j => if j < 0 then pad blankData p.locDatas j
        else (localise p.pgSize 0 p.available).getD (j - 0) (pad blankData p.locDatas j)) =
        pad blankData (localise p.pgSize 0 p.available) := by
      funext j
      rw [ht.unset (by simpa using honce)]
      rfl
    rw [hdatas] at hscan
    dsimp only [tables] at hscan ⊢
    rw [Nat.sub_zero] at hscan
    rw [hscan]
    rfl

theorem freeFrameIn_eq (ht : Terminated p) (a : ℕ) : freeFrameIn (tables p) a = .next (tables (freeFrame p a)) := by
  have hscan : scanLocDatas (tables p) (freeBody p.pgSize (cleanBits a)) (tableSize - 0) 0 p.bitmap =
      walk (fun d => d.length = 0) (freeBody p.pgSize (cleanBits a)) 0 (p.locDatas.drop 0) p.bitmap :=
    scan_eq_walk rfl ht.locDatas
  rw [List.drop_zero, walk_free, Nat.sub_zero] at hscan
  dsimp only [tables] at hscan
  rw [freeFrameIn, freeFrame]
  dsimp only [tables]
  rw [hscan]
  rfl

theorem Terminated.getFrame (ht : Terminated p) (hs : getFrame p = some (a, p')) : Terminated p' := by
  rw [FrameAllocator.getFrame] at hs
  by_cases hset : p.isBitmapSet = true
  · rw [if_pos hset] at hs
    obtain ⟨-, hs⟩ := Option.ite_none_right_eq_some.mp hs
    obtain ⟨b, -, hs⟩ := Option.map_eq_some_iff.mp hs
    obtain ⟨-, rfl⟩ := Prod.mk.inj hs
    exact { ht with }
  · rw [if_neg hset] at hs
    obtain ⟨x, hx, hs⟩ := Option.map_eq_some_iff.mp hs
    obtain ⟨-, rfl⟩ := Prod.mk.inj hs
    obtain ⟨z, hz, hlt, hend⟩ := ht.available
    refine { ht with available := ⟨z, ?_, hlt, hend⟩ }
    dsimp only
    by_contra hpast
    -- the entry the table ends at would have been passed
    obtain ⟨k, rfl⟩ : ∃ k, z = p.prevI + k := ⟨z - p.prevI, by omega⟩
    have hne := earlySearch_nonempty hx (k := k) (by omega)
    rw [pad, List.getD_eq_getElem?_getD, List.getElem?_drop, ← List.getD_eq_getElem?_getD] at hne
    exact hne (by simpa [pad] using hend)

theorem Terminated.initPmm (ht : Terminated p) : Terminated (initPmm p) := by
  rw [FrameAllocator.initPmm]
  split
  case isTrue => exact ht
  case isFalse =>
    obtain ⟨z, -, hz, hend⟩ := ht.available
    have hlen : (pad blankEntry p.available z).length = 0 := by simpa using hend
    refine { ht with locDatas := ⟨z, Nat.zero_le z, hz, ?_⟩, unset := fun hset => Bool.noConfusion hset }
    dsimp only
    rw [pad_of_le (length_localise hlen)]
    rfl

theorem stepIn_iff (ht : Terminated p) {c : Call} :
    StepIn (tables p) c s' ↔ ∃ p', Step p c p' ∧ s' = tables p' := by
  cases c with
  | getFrame a =>
    rw [StepIn, getFrameIn_eq ht]
    simp only [Step, Outcome.next.injEq, Option.map_eq_some_iff, Prod.mk.injEq, Prod.exists]
    constructor
    · rintro ⟨b, p', hs, rfl, rfl⟩
      exact ⟨p', hs, rfl⟩
    · rintro ⟨p', hs, rfl⟩
      exact ⟨a, p', hs, rfl, rfl⟩
  | initPmm =>
    rw [StepIn, initPmmIn_eq ht]
    simp only [Step, Outcome.next.injEq, exists_eq_left, eq_comm]
  | freeFrame a =>
    rw [StepIn, freeFrameIn_eq ht]
    simp only [Step, Outcome.next.injEq, exists_eq_left, eq_comm]

theorem Terminated.step (ht : Terminated p) {c : Call} (hs : Step p c p') : Terminated p' := by
  cases c with
  | getFrame a => exact ht.getFrame hs
  | initPmm =>
    obtain rfl := hs
    exact ht.initPmm
  | freeFrame a =>
    obtain rfl := hs
    exact { ht with }

theorem Terminated.bounded (ht : Terminated p) : Bounded (tables p) where
  getFrame e h := by
    rw [getFrameIn_eq ht] at h
    cases h
  initPmm e h := by
    rw [initPmmIn_eq ht] at h
    cases h
  freeFrame a e h := by
    rw [freeFrameIn_eq ht] at h
    cases h

theorem run_tables (ht : Terminated p) (hrun : Run StepIn (tables p) h s') :
    ∃ p', Run Step p h p' ∧ s' = tables p' ∧ Terminated p' := by
  refine hrun.invariant (fun h s => ∃ p', Run Step p h p' ∧ s = tables p' ∧ Terminated p') ⟨p, .nil, rfl, ht⟩ ?_
  rintro h _ c s' ⟨p₁, hp, rfl, ht₁⟩ hs
  obtain ⟨p₂, hs₂, rfl⟩ := (stepIn_iff ht₁).mp hs
  exact ⟨p₂, .snoc _ _ _ _ hp hs₂, rfl, ht₁.step hs₂⟩

end Refinement

section Overruns

variable {memmap : List MmapEntry} {bitmap : Bitmap}

theorem startIn_eq : startIn memmap bitmap = if (memmap.filter usable).length ≤ tableSize then
    .next (tables (start memmap bitmap)) else .fail .available := by
  have hfill := fill_eq 4096 0 [] memmap
  have hblank : pad blankEntry [] = fun _ => ⟨0, 0, 0⟩ := rfl
  have hfits : ([] : List MmapEntry).length + (memmap.filter usable).length ≤ tableSize ∨ memmap.filter usable = [] ↔
      (memmap.filter usable).length ≤ tableSize := by
    rw [List.length_nil, Nat.zero_add, or_iff_left_iff_imp]
    intro hnil
    simp [hnil]
  rw [hblank, List.length_nil, Nat.zero_add, Nat.zero_add, List.nil_append] at hfill
  rw [List.length_nil, Nat.zero_add] at hfits
  rw [startIn, fillTables]
  dsimp only
  rw [hfill]
  by_cases hfew : (memmap.filter usable).length ≤ tableSize
  · rw [if_pos (hfits.mpr hfew), if_pos hfew]
    rfl
  · rw [if_neg fun h => hfew (hfits.mp h), if_neg hfew]
    rfl

theorem terminated_start (h : (memmap.filter usable).length < tableSize ∨
    ((memmap.filter usable).length = tableSize ∧ ∃ r ∈ memmap.filter usable, r.length = 0)) :
    Terminated (start memmap bitmap) := by
  have hblank : Ended (fun d => d.length = 0) (pad blankData []) tableSize 0 := ⟨0, le_rfl, by decide, rfl⟩
  rcases h with hlt | ⟨heq, r, hr, hlen⟩
  · exact ⟨hlt.le, ⟨_, Nat.zero_le _, hlt, by rw [start, getSizeInBits, pad_of_le le_rfl]; rfl⟩, hblank, fun _ => rfl⟩
  · obtain ⟨z, hz, rfl⟩ := List.mem_iff_getElem.mp hr
    refine ⟨heq.le, ⟨z, Nat.zero_le z, heq ▸ hz, ?_⟩, hblank, fun _ => rfl⟩
    have hentry : pad blankEntry (start memmap bitmap).available z = (memmap.filter usable)[z] := pad_of_lt hz
    simpa [hentry] using hlen

/-- With twenty regions that are not empty the loop of `init_pmm` reads the entry behind the table. -/
theorem initPmmIn_overrun (hfull : (memmap.filter usable).length = tableSize)
    (hpos : ∀ r ∈ memmap.filter usable, r.length ≠ 0) :
    initPmmIn (tables (start memmap bitmap)) = .fail .available := by
  have hover : scanAvailable (tables (start memmap bitmap)) (initBody 4096) tableSize 0
      (0, (tables (start memmap bitmap)).locDatas) = .fail .available := by
    apply scan_overrun
    · intro z _ hz
      rw [Nat.zero_add, ← hfull] at hz
      have hentry : (tables (start memmap bitmap)).available z = (memmap.filter usable)[z] := pad_of_lt hz
      simpa [hentry] using hpos _ (List.getElem_mem hz)
    · intro z x _ hz
      rw [initBody, if_pos (by omega)]
      exact ⟨_, rfl⟩
  have honce : ¬ (tables (start memmap bitmap)).once = true := Bool.false_ne_true
  rw [initPmmIn, if_neg honce]
  exact congrArg (· >>= _) hover

theorem not_neverOverrun (hfull : (memmap.filter usable).length = tableSize)
    (hpos : ∀ r ∈ memmap.filter usable, r.length ≠ 0) : ¬ NeverOverrun memmap bitmap := by
  rintro ⟨s, hs, hrun⟩
  rw [startIn_eq, if_pos hfull.le] at hs
  cases hs
  exact (hrun [] _ .nil).initPmm _ (initPmmIn_overrun hfull hpos)

/-- The tables are kept to exactly if the usable regions leave an entry free, or one of twenty is empty. -/
theorem neverOverrun_iff (memmap : List MmapEntry) (bitmap : Bitmap) : NeverOverrun memmap bitmap ↔
    (memmap.filter usable).length < tableSize ∨
      ((memmap.filter usable).length = tableSize ∧ ∃ r ∈ memmap.filter usable, r.length = 0) := by
  constructor
  · intro hnever
    by_contra hfull
    by_cases hfew : (memmap.filter usable).length ≤ tableSize
    · have hlen : (memmap.filter usable).length = tableSize := by omega
      have hpos : ∀ r ∈ memmap.filter usable, r.length ≠ 0 := fun r hr hz => hfull (.inr ⟨hlen, r, hr, hz⟩)
      exact not_neverOverrun hlen hpos hnever
    · obtain ⟨s, hs, -⟩ := hnever
      rw [startIn_eq, if_neg hfew] at hs
      cases hs
  · intro h
    have hfew : (memmap.filter usable).length ≤ tableSize := by omega
    refine ⟨_, startIn_eq.trans (if_pos hfew), fun calls s' hrun => ?_⟩
    obtain ⟨p, -, rfl, ht⟩ := run_tables (terminated_start h) hrun
    exact ht.bounded

def fullMap : List MmapEntry := (List.range 20).map fun i => ⟨0x100000 + 0x2000 * i, 0x1000, 1⟩

theorem full_tables_overrun : ¬ ∀ (memmap : List MmapEntry) (bitmap : Bitmap), NeverOverrun memmap bitmap := by
  intro hall
  have hpos : ∀ r ∈ fullMap.filter usable, r.length ≠ 0 := by decide
  exact not_neverOverrun (by decide) hpos (hall fullMap fun _ => 0)

end Overruns

end Raccoon.FrameAllocator
