import Raccoon.FrameNumbers
import Mathlib.Algebra.Ring.Parity

/-!
`free_frame` on any address. It flips the bits that the table of `init_pmm`
gives for the page, whatever they are.
-/

namespace Raccoon.FrameAllocator

open BlockNumbering Runs

/-- Bit `f` is the one that `get_frame` gives the page of address `a` out by. -/
def StandsFor (p : Pmm) (a f : ℕ) : Prop :=
  f < p.nframes ∧ frameAddress p.pgSize f p.available = some (4096 * (a / 4096))

/-- The bits of the page are clear after the call, and the others what they were. -/
def FreesOnly (p : Pmm) (a : ℕ) : Prop :=
  ∀ g, readFrame (freeFrame p a).bitmap g = true ↔ readFrame p.bitmap g = true ∧ ¬ StandsFor p a g

/-- The entry holds the page at `a`, as frame `f`. -/
def LocalisationData.Leads (d : LocalisationData) (pgSize a f : ℕ) : Prop :=
  d.alignedBase ≤ a ∧ a < wadd d.alignedBase d.length ∧ d.firstFrameNumber + (a - d.alignedBase) / pgSize = f

instance (d : LocalisationData) (pgSize a f : ℕ) : Decidable (d.Leads pgSize a f) :=
  inferInstanceAs (Decidable (_ ∧ _ ∧ _))

/-- The number of entries of `loc_datas`, up to its end, that lead from the page of `a` to bit `f`. -/
def hits (p : Pmm) (a f : ℕ) : ℕ :=
  (p.locDatas.takeWhile fun d => d.length ≠ 0).countP fun d => d.Leads p.pgSize (4096 * (a / 4096)) f

variable {rs : List MmapEntry} {p : Pmm} {memmap : List MmapEntry} {bitmap : Bitmap} {h : List Call} {a f g pgSize : ℕ}

section Bits

variable {b b' : Bitmap}

theorem bitmap_ext (h : ∀ g, readFrame b g = readFrame b' g) : b = b' := by
  funext w
  apply BitVec.eq_of_getLsbD_eq
  intro i hi
  have hbit := h (64 * w + i)
  have hdiv : (64 * w + i) / 64 = w := by omega
  have hmod : (64 * w + i) % 64 = i := by omega
  rwa [readFrame, readFrame, hdiv, hmod] at hbit

theorem readFrame_foldl (l : List ℕ) :
    readFrame (l.foldl flipFrame b) g = (readFrame b g ^^ decide (Odd (l.count g))) := by
  induction l generalizing b with
  | nil => simp
  | cons f l ih =>
    rw [List.foldl_cons, ih, readFrame_flipFrame, Bool.xor_assoc]
    congr 1
    by_cases he : f = g
    · subst he
      by_cases hodd : Odd (l.count f) <;> simp [Nat.odd_add_one, hodd]
    · rw [List.count_cons_of_ne he, decide_eq_false (Ne.symm he), Bool.false_xor]

end Bits

theorem count_frameNumbers (pgSize a : ℕ) (ds : List LocalisationData) : (frameNumbers pgSize a ds).count f =
    (ds.takeWhile fun d => d.length ≠ 0).countP fun d => d.Leads pgSize a f := by
  induction ds with
  | nil => rfl
  | cons d ds ih =>
    rw [frameNumbers, List.takeWhile_cons]
    by_cases hlen : d.length = 0
    · simp [hlen]
    · have hkept : decide (d.length ≠ 0) = true := by simpa using hlen
      rw [if_neg hlen, if_pos hkept, List.countP_cons, ← ih]
      by_cases hout : a ≥ wadd d.alignedBase d.length ∨ a < d.alignedBase
      · have hnot : ¬ d.Leads pgSize a f := by
          unfold LocalisationData.Leads
          omega
        rw [if_pos hout]
        simp [hnot]
      · have hleads : d.Leads pgSize a f ↔ d.firstFrameNumber + (a - d.alignedBase) / pgSize = f := by
          unfold LocalisationData.Leads
          omega
        rw [if_neg hout, List.count_cons]
        simp [hleads]

theorem readFrame_freeFrame (ha : a < 2 ^ 64) :
    readFrame (freeFrame p a).bitmap g = (readFrame p.bitmap g ^^ decide (Odd (hits p a g))) := by
  have hclean : cleanBits a = 4096 * (a / 4096) := by
    rw [cleanBits_mod]
    omega
  rw [freeFrame]
  dsimp only
  rw [freeIn_eq_foldl, readFrame_foldl, count_frameNumbers, hclean, hits]

theorem freesOnly_iff_hits (ha : a < 2 ^ 64) :
    FreesOnly p a ↔ ∀ g, Odd (hits p a g) ↔ StandsFor p a g ∧ readFrame p.bitmap g = true := by
  refine forall_congr' fun g => ?_
  rw [readFrame_freeFrame ha]
  by_cases hodd : Odd (hits p a g) <;> cases readFrame p.bitmap g <;> simp [hodd]

theorem freeFrame_twice (ha : a < 2 ^ 64) :
    freeFrame (freeFrame p a) a = freeFrame p a ↔ ∀ g, ¬ Odd (hits p a g) := by
  have hsame : hits (freeFrame p a) a = hits p a := rfl
  constructor
  · intro he g hodd
    have hbit : readFrame (freeFrame (freeFrame p a) a).bitmap g = readFrame (freeFrame p a).bitmap g := by rw [he]
    rw [readFrame_freeFrame ha, hsame] at hbit
    simp [hodd] at hbit
  · intro heven
    have hbitmap : (freeFrame (freeFrame p a) a).bitmap = (freeFrame p a).bitmap := by
      apply bitmap_ext
      intro g
      rw [readFrame_freeFrame ha, hsame]
      simp [heven g]
    exact congrArg (fun b => { p with bitmap := b }) hbitmap

section Regions

variable (hregion : ∀ r ∈ rs, Region r)

include hregion

theorem exists_nth_iff : (∃ i, nth (rs.map frames) i = some (a / 4096)) ↔ ∃ r ∈ rs, r.base ≤ a ∧ a < r.base + r.length := by
  constructor
  · rintro ⟨i, hi⟩
    obtain ⟨b, hb, hcontains⟩ := mem_of_nth hi
    obtain ⟨r, hr, rfl⟩ := List.mem_map.mp hb
    have hbase := (hregion r hr).base
    have hlength := (hregion r hr).length
    simp only [Block.Contains, frames] at hcontains
    exact ⟨r, hr, by omega, by omega⟩
  · rintro ⟨r, hr, hle, hlt⟩
    have hbase := (hregion r hr).base
    have hlength := (hregion r hr).length
    have hcontains : (frames r).Contains (a / 4096) := by
      simp only [Block.Contains, frames]
      omega
    obtain ⟨i, -, hi⟩ := nth_of_contains (List.mem_map_of_mem hr) hcontains
    exact ⟨i, hi⟩

variable (hlow : ∀ r ∈ rs, r.base + r.length ≤ 2 ^ 52) (ht : Tables rs p)

include hlow ht

theorem standsFor_iff (hfew : rs.length < 20) : StandsFor p a g ↔ nth (rs.map frames) g = some (a / 4096) := by
  constructor
  · rintro ⟨hg, hga⟩
    obtain ⟨q, hq, haddress⟩ := frameAddress_of_lt hregion hlow hfew ht hg
    have hsame : 4096 * q = 4096 * (a / 4096) := Option.some.inj (haddress.symm.trans hga)
    obtain rfl : q = a / 4096 := by omega
    exact hq
  · intro hnth
    have hg : g < p.nframes := ht.nframes ▸ lt_total hnth
    obtain ⟨q, hq, haddress⟩ := frameAddress_of_lt hregion hlow hfew ht hg
    obtain rfl : q = a / 4096 := Option.some.inj (hq.symm.trans hnth)
    exact ⟨hg, haddress⟩

/-- The table leads to the bit of the page, once, and to no other one. -/
theorem odd_hits_iff (hd : rs.Pairwise fun r s => r.base + r.length ≤ s.base ∨ s.base + s.length ≤ r.base)
    (honce : p.once = true) (ha : a < 2 ^ 64) :
    Odd (hits p a g) ↔ nth (rs.map frames) g = some (a / 4096) := by
  have hpage : cleanBits (4096 * (a / 4096)) = 4096 * (a / 4096) := by
    rw [cleanBits_mod]
    omega
  rw [hits, ← count_frameNumbers]
  by_cases hin : ∃ n, nth (rs.map frames) n = some (a / 4096)
  · obtain ⟨n, hn⟩ := hin
    have hnumbers := frameNumbers_of_number hregion hlow ht hd honce hn
    rw [hpage] at hnumbers
    rw [hnumbers]
    by_cases he : n = g
    · simp [← he, hn]
    · have hne : nth (rs.map frames) g ≠ some (a / 4096) :=
        fun hg => he (nth_inj (apart_of_disjoint hregion hd) hn hg)
      simp [he, hne]
  · have hoff : ∀ b ∈ rs.map frames, ¬ b.Contains (a / 4096) := by
      intro b hb hc
      obtain ⟨n, -, hn⟩ := nth_of_contains hb hc
      exact hin ⟨n, hn⟩
    rw [ht.pgSize, (ht.late honce).2, frameNumbers_eq_nil hregion hoff]
    simpa using fun hg => hin ⟨g, hg⟩

end Regions

/-- `free_frame` only frees exactly if the bits that the table leads to are the set ones among those of the page.
If the regions consist of pages, this is so exactly if the page is not free already; and a second call does nothing
only for a page of no region. -/
theorem freesOnly_iff (hrun : Run Step (start memmap bitmap) h p) (honce : p.once = true) (b : Bitmap)
    (ha : a < 2 ^ 64) :
    (FreesOnly { p with bitmap := b } a ↔ ∀ g, Odd (hits p a g) ↔ StandsFor p a g ∧ readFrame b g = true) ∧
    (freeFrame (freeFrame { p with bitmap := b } a) a = freeFrame { p with bitmap := b } a ↔
      ∀ g, ¬ Odd (hits p a g)) ∧
    (UsableMap memmap → (∀ r ∈ memmap.filter usable, r.base + r.length ≤ 2 ^ 52) →
      (FreesOnly { p with bitmap := b } a ↔ ∀ g, StandsFor p a g → readFrame b g = true) ∧
      (freeFrame (freeFrame { p with bitmap := b } a) a = freeFrame { p with bitmap := b } a ↔
        ¬ ∃ r ∈ memmap.filter usable, r.base ≤ a ∧ a < r.base + r.length)) := by
  have hfrees : FreesOnly { p with bitmap := b } a ↔ ∀ g, Odd (hits p a g) ↔ StandsFor p a g ∧ readFrame b g = true :=
    freesOnly_iff_hits ha
  have htwice : freeFrame (freeFrame { p with bitmap := b } a) a = freeFrame { p with bitmap := b } a ↔
      ∀ g, ¬ Odd (hits p a g) := freeFrame_twice ha
  refine ⟨hfrees, htwice, fun hmap hlow => ?_⟩
  have ht : Tables (memmap.filter usable) p := .run hmap hrun
  have hodd (g : ℕ) : Odd (hits p a g) ↔ nth ((memmap.filter usable).map frames) g = some (a / 4096) :=
    odd_hits_iff hmap.region hlow ht hmap.disjoint honce ha
  have hstands (g : ℕ) : StandsFor p a g ↔ nth ((memmap.filter usable).map frames) g = some (a / 4096) :=
    standsFor_iff hmap.region hlow ht hmap.few
  rw [hfrees, htwice, ← exists_nth_iff hmap.region, not_exists]
  exact ⟨forall_congr' fun g => by rw [hodd, hstands]; tauto, forall_congr' fun g => by rw [hodd]⟩

/-- An address within the second frame, when all frames are given. -/
theorem freesOnly_block :
    FreesOnly { initPmm (start block fun _ => 0) with bitmap := fun _ => BitVec.allOnes 64 } 0x101080 := by
  have ha : 0x101080 < 2 ^ 64 := by decide
  apply ((freesOnly_iff block_initPmm rfl (fun _ => BitVec.allOnes 64) ha).2.2 block_usable (by decide)).1.mpr
  intro g _
  rw [readFrame, BitVec.getLsbD_allOnes]
  exact decide_eq_true (Nat.mod_lt g (by decide))

theorem free_frame_allocated : ¬ ∀ (memmap : List MmapEntry) (bitmap : Bitmap) (h : List Call) (p : Pmm) (b : Bitmap)
    (a : ℕ), Run Step (start memmap bitmap) h p → p.once = true → a < 2 ^ 64 → FreesOnly { p with bitmap := b } a := by
  intro hall
  have hfrees := hall block _ _ _ (fun _ => 0) 0x100000 block_initPmm rfl (by decide) 0
  have hset : readFrame (freeFrame { initPmm (start block fun _ => 0) with bitmap := fun _ => 0 } 0x100000).bitmap 0 =
      true := by decide +kernel
  exact absurd (hfrees.mp hset).1 (by decide)

end Raccoon.FrameAllocator
