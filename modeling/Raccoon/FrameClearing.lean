import Raccoon.FrameNumbers
import Raccoon.Loops

/-!
The clearing of a frame by `get_frame`. The loop runs between two addresses of
the window onto the first 2 GiB that the loader has set up. The second of them
wraps for the last frame of the window, and both leave the window after it.
-/

namespace Raccoon.FrameAllocator

open Loops Outcome Runs

/-- The words of the physical memory, the one at address `8 * w` under `w`. -/
abbrev Memory := ℕ → BitVec 64

def stivaleBase : ℕ := 0xffffffff80000000

def physicalToStivale (x : ℕ) : ℕ := wadd x stivaleBase

section Code

variable (outside : ℕ → Memory → Memory)

/-- `*i = 0`, where `outside` is what the write does if it misses the window. -/
def zeroWord (i : ℕ) (memory : Memory) : Memory :=
  if stivaleBase ≤ i then Function.update memory ((i - stivaleBase) / 8) 0 else outside i memory

def clearRound (s : ℕ × Memory) : Outcome Unit Empty (ℕ × Memory) := .next (wadd s.1 8, zeroWord outside s.1 s.2)

/-- The clearing loop, with more rounds than it needs. -/
def clearFrame (pgSize currentFrame : ℕ) (memory : Memory) : Outcome Unit Empty (ℕ × Memory) :=
  let last := physicalToStivale (wadd currentFrame pgSize)
  whileLoop () (fun s => s.1 < last) (clearRound outside) 512 (physicalToStivale currentFrame, memory)

/-- `get_frame` with the memory it clears the frame in. -/
def getFrameCleared (p : Pmm) (memory : Memory) : Option (Outcome Unit Empty (ℕ × Pmm × Memory)) :=
  (getFrame p).map fun x => do
    let s ← clearFrame outside p.pgSize x.1 memory
    .next (x.1, x.2, s.2)

end Code

def InFrame (a w : ℕ) : Prop := a / 8 ≤ w ∧ w < a / 8 + 512

instance (a w : ℕ) : Decidable (InFrame a w) := inferInstanceAs (Decidable (_ ∧ _))

/-- The loop ends, the words of the frame are zero and the others are what they were. -/
def ClearedOnly (a : ℕ) (before : Memory) (o : Outcome Unit Empty (ℕ × Pmm × Memory)) : Prop :=
  ∃ p after, o = .next (a, p, after) ∧ ∀ w, after w = if InFrame a w then 0 else before w

section Loop

variable {outside : ℕ → Memory → Memory} {a : ℕ} {memory : Memory}

/-- The loop from `i` on, with `n` words to go and `k` words behind it. -/
theorem clear_ends {i last : ℕ} (Inv : ℕ → Memory → Prop) {n : ℕ} (hn : n ≤ 512) (hi : i + 8 * n = last)
    (hlast : last < 2 ^ 64) (hstep : ∀ k < n, ∀ m, Inv k m → Inv (k + 1) (zeroWord outside (i + 8 * k) m))
    (h : Inv 0 memory) : ∃ m, whileLoop () (fun s => s.1 < last) (clearRound outside) 512 (i, memory) =
      .next (last, m) ∧ Inv n m := by
  let Inv' (s : ℕ × Memory) : Prop := ∃ k ≤ n, s.1 = i + 8 * k ∧ Inv k s.2
  have hpos : ∀ s, Inv' s → decide (s.1 < last) = true → 0 < (last - s.1) / 8 := by
    rintro s ⟨k, hk, hs, -⟩ hc
    rw [decide_eq_true_eq] at hc
    omega
  have hbody : ∀ s, Inv' s → decide (s.1 < last) = true → (clearRound outside s).Ends (fun _ => False)
      (fun _ => False) fun s' => Inv' s' ∧ (last - s'.1) / 8 < (last - s.1) / 8 := by
    rintro s ⟨k, hk, hs, hinv⟩ hc
    rw [decide_eq_true_eq] at hc
    have hnext : wadd s.1 8 = s.1 + 8 := wadd_eq (by omega)
    refine ⟨⟨k + 1, by omega, hnext.trans (by omega), ?_⟩, ?_⟩
    · dsimp only
      rw [hs]
      exact hstep k (by omega) _ hinv
    · dsimp only
      omega
  have hends := whileLoop_ends Inv' _ hpos hbody ⟨0, Nat.zero_le n, rfl, h⟩
    (show (last - (i, memory).1) / 8 ≤ 512 by dsimp only; omega) (e := ())
  cases hw : whileLoop () (fun s => s.1 < last) (clearRound outside) 512 (i, memory) with
  | fail _ =>
    rw [hw] at hends
    exact hends.elim
  | done _ =>
    rw [hw] at hends
    exact hends.elim
  | next s =>
    rw [hw] at hends
    obtain ⟨⟨k, hk, hs, hinv⟩, hexit⟩ := hends
    obtain rfl : k = n := by
      rw [decide_eq_false_iff_not] at hexit
      omega
    exact ⟨s.2, congrArg Outcome.next (Prod.ext (hs.trans hi) rfl), hinv⟩

variable (memory) in
/-- Below the last frame of the window the loop stays in the window. -/
theorem clearFrame_low (ha : a % 4096 = 0) (hlow : a < 0x7ffff000) : ∃ s, clearFrame outside 4096 a memory = .next s ∧
    ∀ w, s.2 w = if InFrame a w then 0 else memory w := by
  have hfirst : physicalToStivale a = stivaleBase + a := by
    rw [physicalToStivale, wadd_eq (by unfold stivaleBase; omega), Nat.add_comm]
  have hlast : physicalToStivale (wadd a 4096) = stivaleBase + a + 8 * 512 := by
    rw [wadd_eq (by omega), physicalToStivale, wadd_eq (by unfold stivaleBase; omega)]
    omega
  have hstep : ∀ k < 512, ∀ m : Memory, (∀ w, m w = if a / 8 ≤ w ∧ w < a / 8 + k then 0 else memory w) →
      ∀ w, zeroWord outside (stivaleBase + a + 8 * k) m w =
        if a / 8 ≤ w ∧ w < a / 8 + (k + 1) then 0 else memory w := by
    intro k hk m hm w
    have hword : (stivaleBase + a + 8 * k - stivaleBase) / 8 = a / 8 + k := by omega
    rw [zeroWord, if_pos (by omega), hword]
    by_cases hw : w = a / 8 + k
    · rw [hw, Function.update_self, if_pos (by omega)]
    · rw [Function.update_of_ne hw, hm w]
      exact if_congr (by omega) rfl rfl
  have hinit : ∀ w, memory w = if a / 8 ≤ w ∧ w < a / 8 + 0 then 0 else memory w :=
    fun w => (if_neg (by omega)).symm
  obtain ⟨m, hm, hinv⟩ := clear_ends _ le_rfl hlast.symm (by rw [hlast]; unfold stivaleBase; omega) hstep hinit
  exact ⟨_, by rw [clearFrame, hfirst]; exact hm, hinv⟩

variable (memory) in
/-- From the last frame of the window on no word of the frame is written. -/
theorem clearFrame_high (ha : a % 4096 = 0) (hhigh : 0x7ffff000 ≤ a) (hlt : a < 2 ^ 64)
    (hmiss : ∀ i < stivaleBase, ∀ m w, InFrame a w → outside i m w = m w) :
    ∃ s, clearFrame outside 4096 a memory = .next s ∧ ∀ w, InFrame a w → s.2 w = memory w := by
  rcases Nat.eq_or_lt_of_le hhigh with rfl | hhigh
  · -- the end of the loop is at address 0
    have hlast : physicalToStivale (wadd 0x7ffff000 4096) = 0 := by decide
    refine ⟨(physicalToStivale 0x7ffff000, memory), ?_, fun w _ => rfl⟩
    rw [clearFrame, hlast]
    exact whileLoop_exit (by simp) 512
  · have hfirst : physicalToStivale a = a - 0x80000000 := by
      unfold physicalToStivale wadd stivaleBase
      omega
    have hlast : physicalToStivale (wadd a 4096) = a - 0x80000000 + 8 * 512 := by
      unfold physicalToStivale wadd stivaleBase
      omega
    have hstep : ∀ k < 512, ∀ m : Memory, (∀ w, InFrame a w → m w = memory w) →
        ∀ w, InFrame a w → zeroWord outside (a - 0x80000000 + 8 * k) m w = memory w := by
      intro k hk m hm w hw
      have hmissed : a - 0x80000000 + 8 * k < stivaleBase := by
        unfold stivaleBase
        omega
      rw [zeroWord, if_neg (by omega), hmiss _ hmissed m w hw]
      exact hm w hw
    obtain ⟨m, hm, hinv⟩ := clear_ends (fun _ m => ∀ w, InFrame a w → m w = memory w) le_rfl hlast.symm
      (by omega) hstep fun w _ => rfl
    exact ⟨_, by rw [clearFrame, hfirst]; exact hm, hinv⟩

end Loop

section Turn

/-- The address of frame `n` of a region, and the last one that the region has. -/
def frameIn (pgSize : ℕ) (r : MmapEntry) (n : ℕ) : ℕ := wadd (align pgSize r.base) (wmul n pgSize)

def lastIn (pgSize : ℕ) (r : MmapEntry) : ℕ := wsub (wadd (align pgSize r.base) r.length) pgSize

/-- The first region with room for the frame that is counted for it, and that frame. -/
def FirstRegion (room : MmapEntry → ℕ → Prop) (rs : List MmapEntry) (count : ℕ → ℕ) (r : MmapEntry) (n : ℕ) : Prop :=
  ∃ k, rs[k]? = some r ∧ n = count k ∧ room r n ∧
    ∀ j ≤ k, ∀ s, rs[j]? = some s → s.length ≠ 0 ∧ (j < k → ¬ room s (count j))

/-- Frame `n` of region `r` is next in turn: without a bitmap by the counters, which go on in region `prev_i`;
with it by the first clear bit, whose number drops by the frames of each region. -/
def NextInTurn (p : Pmm) (r : MmapEntry) (n : ℕ) : Prop :=
  if p.isBitmapSet then
    ∃ f < 64 * (p.nframes / 64), readFrame p.bitmap f = false ∧ (∀ g < f, readFrame p.bitmap g = true) ∧
      FirstRegion (fun r n => frameIn p.pgSize r n ≤ lastIn p.pgSize r) p.available
        (fun k => (p.available.take k).foldl (fun n s => wsub n (s.length / p.pgSize)) f) r n
  else FirstRegion (fun r n => frameIn p.pgSize r n < lastIn p.pgSize r) (p.available.drop p.prevI)
    (fun k => if k = 0 then p.numberOfFramesWithoutBitmapInC else 0) r n

variable {room : MmapEntry → ℕ → Prop} {rs : List MmapEntry} {count : ℕ → ℕ} {r s : MmapEntry} {n a : ℕ} {p : Pmm}

theorem align_mod (x : ℕ) : align 4096 x % 4096 = 0 := by
  have hclean := cleanBits_mod x
  simp only [align, and_pages]
  split
  case isTrue => omega
  case isFalse =>
    unfold wadd
    omega

theorem frameIn_mod (r : MmapEntry) (n : ℕ) : frameIn 4096 r n % 4096 = 0 := by
  have h := align_mod r.base
  unfold frameIn wadd wmul
  omega

theorem firstRegion_nil : ¬ FirstRegion room [] count r n := by
  rintro ⟨k, hk, -⟩
  simp at hk

theorem firstRegion_cons : FirstRegion room (s :: rs) count r n ↔ s.length ≠ 0 ∧
    ((room s (count 0) ∧ r = s ∧ n = count 0) ∨
      (¬ room s (count 0) ∧ FirstRegion room rs (fun k => count (k + 1)) r n)) := by
  constructor
  · rintro ⟨k, hk, hn, hroom, hbefore⟩
    refine ⟨(hbefore 0 (Nat.zero_le k) s rfl).1, ?_⟩
    cases k with
    | zero =>
      obtain rfl : s = r := Option.some.inj hk
      subst hn
      exact .inl ⟨hroom, rfl, rfl⟩
    | succ k =>
      refine .inr ⟨(hbefore 0 (Nat.zero_le _) s rfl).2 (Nat.succ_pos k), k, hk, hn, hroom, fun j hj t ht => ?_⟩
      obtain ⟨hlen, hfull⟩ := hbefore (j + 1) (Nat.succ_le_succ hj) t ht
      exact ⟨hlen, fun hlt => hfull (Nat.succ_lt_succ hlt)⟩
  · rintro ⟨hlen, ⟨hroom, rfl, rfl⟩ | ⟨hfull, k, hk, hn, hroom, hbefore⟩⟩
    · refine ⟨0, rfl, rfl, hroom, fun j hj t ht => ?_⟩
      obtain rfl : j = 0 := Nat.le_zero.mp hj
      obtain rfl : r = t := Option.some.inj ht
      exact ⟨hlen, fun hlt => absurd hlt (Nat.lt_irrefl 0)⟩
    · refine ⟨k + 1, hk, hn, hroom, fun j hj t ht => ?_⟩
      cases j with
      | zero =>
        obtain rfl : s = t := Option.some.inj ht
        exact ⟨hlen, fun _ => hfull⟩
      | succ j =>
        obtain ⟨hlen', hfull'⟩ := hbefore j (Nat.le_of_succ_le_succ hj) t ht
        exact ⟨hlen', fun hlt => hfull' (Nat.lt_of_succ_lt_succ hlt)⟩

theorem frameAddress_cons (pgSize f : ℕ) : frameAddress pgSize f (s :: rs) = if s.length = 0 then none
    else if frameIn pgSize s f ≤ lastIn pgSize s then some (frameIn pgSize s f)
    else frameAddress pgSize (wsub f (s.length / pgSize)) rs := rfl

theorem earlySearch_cons (pgSize prevI i inC : ℕ) : earlySearch pgSize prevI i inC (s :: rs) =
    if s.length = 0 then none
    else if frameIn pgSize s (if i > prevI then 0 else inC) < lastIn pgSize s then
      some (i, (if i > prevI then 0 else inC) + 1, frameIn pgSize s (if i > prevI then 0 else inC))
    else earlySearch pgSize prevI (i + 1) (if i > prevI then 0 else inC) rs := rfl

theorem frameAddress_iff (pgSize f : ℕ) : frameAddress pgSize f rs = some a ↔
    ∃ r n, FirstRegion (fun r n => frameIn pgSize r n ≤ lastIn pgSize r) rs
      (fun k => (rs.take k).foldl (fun n s => wsub n (s.length / pgSize)) f) r n ∧ frameIn pgSize r n = a := by
  induction rs generalizing f with
  | nil => exact iff_of_false (by simp [frameAddress]) fun ⟨r, n, h, _⟩ => firstRegion_nil h
  | cons s rs ih =>
    simp only [frameAddress_cons, firstRegion_cons, List.take_zero, List.foldl_nil, List.take_succ_cons, List.foldl_cons]
    by_cases hlen : s.length = 0
    · simp [hlen]
    · rw [if_neg hlen]
      by_cases hroom : frameIn pgSize s f ≤ lastIn pgSize s
      · rw [if_pos hroom]
        simp [hlen, hroom]
      · rw [if_neg hroom, ih]
        simp [hlen, hroom]

/-- The search ends at the first region with room; it starts in region `prevI` or after it. -/
theorem earlySearch_eq_some {pgSize prevI i inC : ℕ} {x : ℕ × ℕ × ℕ} (hi : prevI ≤ i) :
    earlySearch pgSize prevI i inC rs = some x ↔ ∃ k r n, rs[k]? = some r ∧ n = (if i + k > prevI then 0 else inC) ∧
      frameIn pgSize r n < lastIn pgSize r ∧
      (∀ j ≤ k, ∀ s, rs[j]? = some s → s.length ≠ 0 ∧
        (j < k → ¬ frameIn pgSize s (if i + j > prevI then 0 else inC) < lastIn pgSize s)) ∧
      x = (i + k, n + 1, frameIn pgSize r n) := by
  induction rs generalizing i inC with
  | nil =>
    refine iff_of_false (by simp [earlySearch]) ?_
    rintro ⟨k, r, n, h, -⟩
    simp at h
  | cons s rs ih =>
    have hcount (j : ℕ) : (if i + 1 + j > prevI then 0 else if i > prevI then 0 else inC) =
        if i + (j + 1) > prevI then 0 else inC := by rw [if_pos (by omega), if_pos (by omega)]
    rw [earlySearch_cons]
    by_cases hlen : s.length = 0
    · rw [if_pos hlen]
      refine iff_of_false (by simp) ?_
      rintro ⟨k, r, n, -, -, -, hbefore, -⟩
      exact (hbefore 0 (Nat.zero_le k) s rfl).1 hlen
    · rw [if_neg hlen]
      by_cases hroom : frameIn pgSize s (if i > prevI then 0 else inC) < lastIn pgSize s
      · rw [if_pos hroom]
        constructor
        · intro hx
          refine ⟨0, s, _, rfl, rfl, hroom, fun j hj t ht => ?_, (Option.some.inj hx).symm⟩
          obtain rfl : j = 0 := Nat.le_zero.mp hj
          obtain rfl : s = t := Option.some.inj ht
          exact ⟨hlen, fun hlt => absurd hlt (Nat.lt_irrefl 0)⟩
        · rintro ⟨k, r, n, hr, rfl, -, hbefore, rfl⟩
          cases k with
          | zero =>
            obtain rfl : s = r := Option.some.inj hr
            rfl
          | succ k => exact absurd hroom ((hbefore 0 (Nat.zero_le _) s rfl).2 (Nat.succ_pos k))
      · rw [if_neg hroom, ih (by omega)]
        simp only [hcount]
        constructor
        · rintro ⟨k, r, n, hr, hn, hlt, hbefore, rfl⟩
          refine ⟨k + 1, r, n, hr, hn, hlt, fun j hj t ht => ?_, by rw [Nat.add_assoc, Nat.add_comm 1 k]⟩
          cases j with
          | zero =>
            obtain rfl : s = t := Option.some.inj ht
            exact ⟨hlen, fun _ => hroom⟩
          | succ j =>
            obtain ⟨hlen', hfull⟩ := hbefore j (Nat.le_of_succ_le_succ hj) t ht
            exact ⟨hlen', fun hlt => hfull (Nat.lt_of_succ_lt_succ hlt)⟩
        · rintro ⟨k, r, n, hr, hn, hlt, hbefore, rfl⟩
          cases k with
          | zero =>
            obtain rfl : s = r := Option.some.inj hr
            exact absurd (hn ▸ hlt) hroom
          | succ k =>
            refine ⟨k, r, n, hr, hn, hlt, fun j hj t ht => ?_, by rw [Nat.add_assoc, Nat.add_comm 1 k]⟩
            obtain ⟨hlen', hfull⟩ := hbefore (j + 1) (Nat.succ_le_succ hj) t ht
            exact ⟨hlen', fun hlt => hfull (Nat.succ_lt_succ hlt)⟩

variable (rs) in
theorem earlySearch_iff (pgSize prevI i inC : ℕ) (hi : prevI ≤ i) :
    (∃ x, earlySearch pgSize prevI i inC rs = some x ∧ x.2.2 = a) ↔
    ∃ r n, FirstRegion (fun r n => frameIn pgSize r n < lastIn pgSize r) rs
      (fun k => if i + k > prevI then 0 else inC) r n ∧ frameIn pgSize r n = a := by
  constructor
  · rintro ⟨x, hx, rfl⟩
    obtain ⟨k, r, n, hr, hn, hroom, hbefore, rfl⟩ := (earlySearch_eq_some hi).mp hx
    exact ⟨r, n, ⟨k, hr, hn, hroom, hbefore⟩, rfl⟩
  · rintro ⟨r, n, ⟨k, hr, hn, hroom, hbefore⟩, rfl⟩
    exact ⟨_, (earlySearch_eq_some hi).mpr ⟨k, r, n, hr, hn, hroom, hbefore, rfl⟩, rfl⟩

/-- The frame next in turn is the one that `get_frame` returns. -/
theorem getFrame_iff : (∃ p', getFrame p = some (a, p')) ↔ ∃ r n, NextInTurn p r n ∧ frameIn p.pgSize r n = a := by
  unfold NextInTurn
  by_cases hset : p.isBitmapSet = true
  · simp only [hset, if_true]
    constructor
    · rintro ⟨p', hs⟩
      obtain ⟨f, hf, hclear, hmin, haddress, -⟩ := getFrame_late hset hs
      obtain ⟨r, n, hfirst, hn⟩ := (frameAddress_iff p.pgSize f).mp haddress
      have hbelow : ∀ g < f, readFrame p.bitmap g = true := by
        intro g hg
        by_contra hc
        have := hmin g (by simpa using hc)
        omega
      exact ⟨r, n, ⟨f, hf, hclear, hbelow, hfirst⟩, hn⟩
    · rintro ⟨r, n, ⟨f, hf, hclear, hbelow, hfirst⟩, hn⟩
      have haddress := (frameAddress_iff p.pgSize f).mpr ⟨r, n, hfirst, hn⟩
      exact ⟨_, getFrame_of_clear hset hf hclear hbelow haddress⟩
  · have hsearch := earlySearch_iff (a := a) (p.available.drop p.prevI) p.pgSize p.prevI p.prevI
      p.numberOfFramesWithoutBitmapInC le_rfl
    have hcount : (fun k => if p.prevI + k > p.prevI then 0 else p.numberOfFramesWithoutBitmapInC) =
        fun k => if k = 0 then p.numberOfFramesWithoutBitmapInC else 0 := by
      funext k
      by_cases hk : k = 0
      · simp [hk]
      · rw [if_pos (by omega), if_neg hk]
    rw [hcount] at hsearch
    simp only [hset, if_false, Bool.false_eq_true]
    rw [← hsearch, getFrame, if_neg hset]
    constructor
    · rintro ⟨p', hs⟩
      obtain ⟨x, hx, hs⟩ := Option.map_eq_some_iff.mp hs
      exact ⟨x, hx, congrArg Prod.fst hs⟩
    · rintro ⟨x, hx, rfl⟩
      exact ⟨_, by rw [hx]; rfl⟩

end Turn

section Cleared

variable {p p' : Pmm} {outside : ℕ → Memory → Memory} {memory : Memory} {a : ℕ}

theorem getFrameCleared_iff {o : Outcome Unit Empty (ℕ × Pmm × Memory)} :
    getFrameCleared outside p memory = some o ↔ ∃ a p', getFrame p = some (a, p') ∧
      (do let s ← clearFrame outside p.pgSize a memory
          .next (a, p', s.2)) = o := by
  rw [getFrameCleared, Option.map_eq_some_iff, Prod.exists]

theorem not_cleared_of_high (hsize : p.pgSize = 4096) (hs : getFrame p = some (a, p')) (ha : a % 4096 = 0)
    (hlt : a < 2 ^ 64) (hmiss : ∀ i < stivaleBase, ∀ m w, InFrame a w → outside i m w = m w) (hhigh : 0x7ffff000 ≤ a) :
    ∃ o, getFrameCleared outside p (fun _ => 1) = some o ∧ ¬ ∃ a, ClearedOnly a (fun _ => 1) o := by
  obtain ⟨s, hc, hsame⟩ := clearFrame_high (fun _ => 1) ha hhigh hlt hmiss
  refine ⟨.next (a, p', s.2), getFrameCleared_iff.mpr ⟨a, p', hs, ?_⟩, ?_⟩
  · rw [hsize, hc]
    rfl
  · rintro ⟨_, _, after, he, hcleared⟩
    cases he
    have hin : InFrame a (a / 8) := ⟨le_rfl, by omega⟩
    have hone := hcleared (a / 8)
    rw [if_pos hin, hsame _ hin] at hone
    exact absurd hone (by decide)

/-- `get_frame` clears the frame it returns, and only it, exactly if the frame ends below 2 GiB. -/
theorem frame_cleared_iff (hsize : p.pgSize = 4096)
    (hmiss : ∀ a p', getFrame p = some (a, p') → ∀ i < stivaleBase, ∀ m w, InFrame a w → outside i m w = m w) :
    (∀ memory o, getFrameCleared outside p memory = some o → ∃ a, ClearedOnly a memory o) ↔
      ∀ r n, NextInTurn p r n → frameIn p.pgSize r n < 0x7ffff000 := by
  constructor
  · intro hall r n hturn
    by_contra hhigh
    obtain ⟨p', hs⟩ := getFrame_iff.mpr ⟨r, n, hturn, rfl⟩
    have ha : frameIn p.pgSize r n % 4096 = 0 := hsize ▸ frameIn_mod r n
    have hlt : frameIn p.pgSize r n < 2 ^ 64 := Nat.mod_lt _ (by decide)
    obtain ⟨o, ho, hnot⟩ := not_cleared_of_high hsize hs ha hlt (hmiss _ _ hs) (Nat.le_of_not_lt hhigh)
    exact hnot (hall _ _ ho)
  · intro hlow memory o ho
    obtain ⟨a, p', hs, rfl⟩ := getFrameCleared_iff.mp ho
    obtain ⟨r, n, hturn, rfl⟩ := getFrame_iff.mp ⟨p', hs⟩
    obtain ⟨s, hc, hcleared⟩ : ∃ s, clearFrame outside 4096 (frameIn p.pgSize r n) memory = .next s ∧
        ∀ w, s.2 w = if InFrame (frameIn p.pgSize r n) w then 0 else memory w :=
      clearFrame_low memory (hsize ▸ frameIn_mod r n) (hlow r n hturn)
    refine ⟨_, p', s.2, ?_, hcleared⟩
    rw [← hsize] at hc
    rw [hc]
    rfl

theorem frame_cleared_block : ∃ o, getFrameCleared (fun _ m => m) (start block fun _ => 0) (fun _ => 1) = some o ∧
    ∃ a, ClearedOnly a (fun _ => 1) o := by
  have hall : ∀ memory o, getFrameCleared (fun _ m => m) (start block fun _ => 0) memory = some o →
      ∃ a, ClearedOnly a memory o := by
    apply (frame_cleared_iff rfl fun _ _ _ _ _ _ _ _ => rfl).mpr
    rintro r n ⟨k, hk, rfl, -⟩
    cases k with
    | zero =>
      obtain rfl := Option.some.inj hk
      decide
    | succ k => cases hk
  have hsome : (getFrame (start block fun _ => 0)).isSome = true := by decide +kernel
  obtain ⟨⟨a, p'⟩, hs⟩ := Option.isSome_iff_exists.mp hsome
  exact ⟨_, getFrameCleared_iff.mpr ⟨a, p', hs, rfl⟩, hall _ _ (getFrameCleared_iff.mpr ⟨a, p', hs, rfl⟩)⟩

/-- The last 64 frames of the window of the loader. -/
def edgeMap : List MmapEntry := [⟨0x7ffc0000, 0x40000, 1⟩]

def edgeCalls : List Call := .initPmm :: (List.range 63).map fun i => .getFrame (0x7ffc0000 + 0x1000 * i)

/-- The 64th of them is returned as it was. -/
theorem edge_not_cleared : UsableMap edgeMap ∧ ∃ p p', Run Step (start edgeMap fun _ => 0) edgeCalls p ∧
    getFrame p = some (0x7ffff000, p') ∧
    ∃ o, getFrameCleared (fun _ m => m) p (fun _ => 1) = some o ∧ ¬ ∃ a, ClearedOnly a (fun _ => 1) o := by
  have hmap : UsableMap edgeMap := by
    refine ⟨by decide, fun r hr => ?_, List.pairwise_singleton _ _⟩
    obtain rfl := List.mem_singleton.mp hr
    constructor <;> decide
  have he : (exec next (start edgeMap fun _ => 0) (edgeCalls ++ [.getFrame 0x7ffff000])).isSome = true := by
    decide +kernel
  obtain ⟨p', hp⟩ := exists_run he
  obtain ⟨p, hrun, hs⟩ := hp.of_snoc
  have hsize : p.pgSize = 4096 := (Tables.run hmap hrun).pgSize
  exact ⟨hmap, p, p', hrun, hs, not_cleared_of_high hsize hs (by decide) (by decide) (fun _ _ _ _ _ => rfl) le_rfl⟩

end Cleared

end Raccoon.FrameAllocator
