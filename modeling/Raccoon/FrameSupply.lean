import Raccoon.FrameClearing
import Raccoon.FrameFreeing
import Raccoon.Machine

/-!
What the memory manager relies on about the allocator of frames, and that the
allocator keeps to it once `init_pmm` has made its tables. Its memory lies below
the last frame of the window of the loader, as `get_frame` clears no other frame.
-/

namespace Raccoon.FrameSupply

open BlockNumbering FrameAllocator Mmu

/-- The frame with a number will be handed out. -/
def Spare {A : Type} [FrameSource A] (s : A) (f : ℕ) : Prop := ∃ n, nthFrame s n = some (4096 * f)

/-- An allocator of a set of frames, by their numbers, that hands each out once until it is given back. -/
class LawfulFrames (A : Type) [FrameSource A] where
  owned : ℕ → Prop
  frame : ∀ (s : A) n a, nthFrame s n = some a → a % 4096 = 0 ∧ a < 2 ^ 52 ∧ owned (a / 4096)
  once : ∀ (s : A) i j a, nthFrame s i = some a → nthFrame s j = some a → i = j
  given : ∀ (s : A) f, owned f → ¬ Spare s f → ∀ g, Spare (FrameSource.freeFrame (4096 * f) s) g ↔ g = f ∨ Spare s g
  foreign : ∀ (s : A) f, ¬ owned f → f < 2 ^ 40 → ∀ g, Spare (FrameSource.freeFrame (4096 * f) s) g ↔ Spare s g

section Supply

variable {A : Type} [FrameSource A] {s s' : A} {f g n k : ℕ}

/-- After `k` frames, what was to come is to come or was among them. -/
theorem spare_later (hsupply : ∀ i, nthFrame s' i = nthFrame s (k + i)) (h : Spare s' f) : Spare s f := by
  obtain ⟨n, hn⟩ := h
  exact ⟨k + n, hsupply n ▸ hn⟩

variable [LawfulFrames A]

theorem not_spare_of_drawn {i a : ℕ} (hsupply : ∀ i, nthFrame s' i = nthFrame s (k + i)) (hi : i < k)
    (ha : nthFrame s i = some a) : ¬ Spare s' (a / 4096) := by
  rintro ⟨n, hn⟩
  have haligned := (LawfulFrames.frame s i a ha).1
  have hpage : 4096 * (a / 4096) = a := by omega
  rw [hsupply, hpage] at hn
  have := LawfulFrames.once s i (k + n) a ha hn
  omega

theorem Spare.owned (h : Spare s f) : LawfulFrames.owned A f := by
  obtain ⟨n, hn⟩ := h
  have howned := (LawfulFrames.frame s n _ hn).2.2
  rwa [Nat.mul_div_cancel_left f (by decide)] at howned

end Supply

/-- The usable regions of a memory map, all of them where `get_frame` clears the frames. -/
structure MemoryMap where
  regions : List MmapEntry
  few : regions.length < 20
  region : ∀ r ∈ regions, Region r
  low : ∀ r ∈ regions, r.base + r.length ≤ 0x7ffff000
  disjoint : regions.Pairwise fun r s => r.base + r.length ≤ s.base ∨ s.base + s.length ≤ r.base

theorem MemoryMap.small (map : MemoryMap) (r : MmapEntry) (hr : r ∈ map.regions) : r.base + r.length ≤ 2 ^ 52 :=
  (map.low r hr).trans (by decide)

/-- The allocator behind `init_pmm`. -/
structure Ready (map : MemoryMap) where
  pmm : Pmm
  tables : Tables map.regions pmm
  once : pmm.once = true

namespace Ready

variable {map : MemoryMap} {p : Pmm} {a f g i : ℕ}

theorem once_getFrame {p' : Pmm} (hs : getFrame p = some (a, p')) : p'.once = p.once := by
  rw [getFrame] at hs
  split at hs
  · obtain ⟨-, hs⟩ := Option.ite_none_right_eq_some.mp hs
    obtain ⟨b, -, hs⟩ := Option.map_eq_some_iff.mp hs
    obtain ⟨-, rfl⟩ := Prod.mk.inj hs
    rfl
  · obtain ⟨x, -, hs⟩ := Option.map_eq_some_iff.mp hs
    obtain ⟨-, rfl⟩ := Prod.mk.inj hs
    rfl

def next (s : Ready map) : Option (ℕ × Ready map) :=
  match h : getFrame s.pmm with
  | some x => some (x.1, ⟨x.2, s.tables.getFrame h, (once_getFrame h).trans s.once⟩)
  | none => none

instance : FrameSource (Ready map) where
  getFrame := next
  freeFrame a s := ⟨freeFrame s.pmm a, { s.tables with }, s.once⟩

theorem next_eq_some {s s' : Ready map} : next s = some (a, s') ↔ getFrame s.pmm = some (a, s'.pmm) := by
  rw [next]
  split
  case h_1 x h =>
    constructor
    · intro he
      obtain ⟨rfl, rfl⟩ := Prod.mk.inj (Option.some.inj he)
      exact h
    · intro he
      obtain rfl := Option.some.inj (h.symm.trans he)
      rfl
  case h_2 h => simp [h]

/-- Frame `f` has the number `i` in the bitmap. -/
def Numbered (map : MemoryMap) (i f : ℕ) : Prop := nth (map.regions.map frames) i = some f

/-- The bitmap says that it is free, in the part of the bitmap that is searched. -/
def Clear (s : Ready map) (i : ℕ) : Prop := i < 64 * (s.pmm.nframes / 64) ∧ readFrame s.pmm.bitmap i = false

theorem Clear.numbered {s : Ready map} (h : Clear s i) : ∃ f, Numbered map i f ∧
    frameAddress s.pmm.pgSize i s.pmm.available = some (4096 * f) :=
  frameAddress_of_lt map.region map.small map.few s.tables (Nat.lt_of_lt_of_le h.1 (Nat.mul_div_le ..))

/-- `get_frame` takes the first clear bit. -/
theorem next_cases {s s' : Ready map} (h : next s = some (a, s')) : ∃ i f, Numbered map i f ∧ a = 4096 * f ∧
    Clear s i ∧ (∀ j, Clear s j → i ≤ j) ∧ ∀ j, Clear s' j ↔ Clear s j ∧ j ≠ i := by
  obtain ⟨i, hi, hclear, hmin, haddress, hs'⟩ := getFrame_late (s.tables.late s.once).1 (next_eq_some.mp h)
  have hc : Clear s i := ⟨hi, hclear⟩
  obtain ⟨f, hf, hfa⟩ := hc.numbered
  refine ⟨i, f, hf, Option.some.inj (haddress.symm.trans hfa), hc, fun j hj => hmin j hj.2, fun j => ?_⟩
  rw [Clear, Clear, hs']
  dsimp only
  rw [readFrame_flipFrame]
  by_cases hj : j = i
  · subst hj
    simp [hclear]
  · simp [hj]

theorem next_of_clear {s : Ready map} (h : Clear s i) (hmin : ∀ j, Clear s j → i ≤ j) :
    ∃ f s', Numbered map i f ∧ next s = some (4096 * f, s') ∧ ∀ j, Clear s' j ↔ Clear s j ∧ j ≠ i := by
  obtain ⟨f, hf, hfa⟩ := h.numbered
  have hbelow : ∀ j < i, readFrame s.pmm.bitmap j = true := by
    intro j hj
    by_contra hc
    have := hmin j ⟨by have := h.1; omega, by simpa using hc⟩
    omega
  have hget := getFrame_of_clear (s.tables.late s.once).1 h.1 h.2 hbelow hfa
  obtain ⟨s', hs'⟩ : ∃ s' : Ready map, s'.pmm = { s.pmm with bitmap := flipFrame s.pmm.bitmap i } :=
    ⟨⟨_, s.tables.getFrame hget, s.once⟩, rfl⟩
  have hnext : next s = some (4096 * f, s') := next_eq_some.mpr (hs' ▸ hget)
  refine ⟨f, s', hf, hnext, fun j => ?_⟩
  obtain ⟨i', f', -, -, hc, hmin', hclear⟩ := next_cases hnext
  obtain rfl : i' = i := Nat.le_antisymm (hmin' i h) (hmin i' hc)
  exact hclear j

theorem Numbered.inj (h : Numbered map i f) (h' : Numbered map i g) : f = g := Option.some.inj (h.symm.trans h')

theorem Numbered.unique {j : ℕ} (h : Numbered map i f) (h' : Numbered map j f) : i = j :=
  nth_inj (apart_of_disjoint map.region map.disjoint) h h'

theorem clear_of_nthFrame {s : Ready map} {n : ℕ} (h : nthFrame s n = some a) :
    ∃ i f, Numbered map i f ∧ a = 4096 * f ∧ Clear s i := by
  induction n generalizing s with
  | zero =>
    obtain ⟨⟨b, s'⟩, hs, rfl⟩ := Option.map_eq_some_iff.mp h
    obtain ⟨i, f, hf, ha, hc, -⟩ := next_cases hs
    exact ⟨i, f, hf, ha, hc⟩
  | succ n ih =>
    obtain ⟨⟨b, s'⟩, hs, h⟩ := Option.bind_eq_some_iff.mp h
    obtain ⟨i, f, hf, ha, hc⟩ := ih h
    obtain ⟨_, _, -, -, -, -, hclear⟩ := next_cases hs
    exact ⟨i, f, hf, ha, ((hclear i).mp hc).1⟩

/-- Frames are handed out in the order of the bits: by induction on how far the first bits are known to be set. -/
theorem spare_of_clear {s : Ready map} (hf : Numbered map i f) (h : Clear s i) : Spare s f := by
  suffices hall : ∀ d (s : Ready map), Clear s i → (∀ j, Clear s j → i - d ≤ j) → Spare s f from
    hall i s h fun j _ => by omega
  intro d
  induction d with
  | zero =>
    intro s h hmin
    obtain ⟨g, s', hg, hs, -⟩ := next_of_clear h hmin
    exact ⟨0, by rw [nthFrame_zero hs, hf.inj hg]⟩
  | succ d ih =>
    intro s h hmin
    by_cases hlow : Clear s (i - (d + 1)) ∧ i - (d + 1) ≠ i
    · obtain ⟨g, s', -, hs, hclear⟩ := next_of_clear hlow.1 hmin
      obtain ⟨n, hn⟩ := ih s' ((hclear i).mpr ⟨h, hlow.2.symm⟩) fun j hj => by
        have hj := (hclear j).mp hj
        have := hmin j hj.1
        omega
      exact ⟨n + 1, by rw [nthFrame_succ hs, hn]⟩
    · refine ih s h fun j hj => ?_
      have hle := hmin j hj
      by_contra hlt
      obtain rfl : j = i - (d + 1) := by omega
      exact hlow ⟨hj, by omega⟩

theorem spare_iff {s : Ready map} : Spare s f ↔ ∃ i, Numbered map i f ∧ Clear s i := by
  constructor
  · rintro ⟨n, hn⟩
    obtain ⟨i, g, hg, hfg, hc⟩ := clear_of_nthFrame hn
    obtain rfl : f = g := by omega
    exact ⟨i, hg, hc⟩
  · rintro ⟨i, hf, hc⟩
    exact spare_of_clear hf hc

/-- What is handed out is not handed out again. -/
theorem nthFrame_once {s : Ready map} {j : ℕ} (hi : nthFrame s i = some a) (hj : nthFrame s j = some a) : i = j := by
  -- a later frame has another bit than the first one
  have hfirst (s : Ready map) (n : ℕ) (h0 : nthFrame s 0 = some a) (hn : nthFrame s (n + 1) = some a) : False := by
    obtain ⟨⟨b, s'⟩, hs, rfl⟩ := Option.map_eq_some_iff.mp h0
    rw [nthFrame_succ hs] at hn
    obtain ⟨i, f, hf, hb, -, -, hclear⟩ := next_cases hs
    obtain ⟨i', f', hf', hb', hc⟩ := clear_of_nthFrame hn
    dsimp only at hb hb'
    obtain rfl : f = f' := by omega
    exact ((hclear i').mp hc).2 (hf'.unique hf)
  induction i generalizing s j with
  | zero =>
    cases j with
    | zero => rfl
    | succ j => exact (hfirst s j hi hj).elim
  | succ i ih =>
    cases j with
    | zero => exact (hfirst s i hj hi).elim
    | succ j =>
      obtain ⟨⟨b, s'⟩, hs, hi⟩ := Option.bind_eq_some_iff.mp hi
      rw [nthFrame_succ hs] at hj
      rw [ih hi hj]

/-- `free_frame` clears the bit of a frame whose bit is set, and changes no bit else. -/
theorem clear_freeFrame {s : Ready map} (hf : f < 2 ^ 40) (j : ℕ) :
    Clear (FrameSource.freeFrame (4096 * f) s) j ↔
      j < 64 * (s.pmm.nframes / 64) ∧ (readFrame s.pmm.bitmap j = false ↔ ¬ Numbered map j f) := by
  have hodd : Odd (hits s.pmm (4096 * f) j) ↔ Numbered map j f := by
    rw [odd_hits_iff map.region map.small s.tables map.disjoint s.once (by omega), Nat.mul_div_cancel_left f (by decide)]
    rfl
  have hbit : readFrame (freeFrame s.pmm (4096 * f)).bitmap j =
      (readFrame s.pmm.bitmap j ^^ decide (Odd (hits s.pmm (4096 * f) j))) := readFrame_freeFrame (by omega)
  have hsame : Clear (FrameSource.freeFrame (4096 * f) s) j ↔
      j < 64 * (s.pmm.nframes / 64) ∧ readFrame (freeFrame s.pmm (4096 * f)).bitmap j = false := Iff.rfl
  rw [hsame, hbit]
  by_cases hn : Numbered map j f
  · cases readFrame s.pmm.bitmap j <;> simp [hodd, hn]
  · cases readFrame s.pmm.bitmap j <;> simp [hodd, hn]

/-- The frames in the part of the bitmap that is searched. -/
def Owned (map : MemoryMap) (f : ℕ) : Prop :=
  ∃ i, Numbered map i f ∧ i < 64 * (total (map.regions.map frames) / 64)

theorem Clear.owned {s : Ready map} (h : Clear s i) (hf : Numbered map i f) : Owned map f :=
  ⟨i, hf, s.tables.nframes ▸ h.1⟩

theorem Numbered.low (hf : Numbered map i f) : 4096 * f < 0x7ffff000 := by
  obtain ⟨b, hb, hcontains⟩ := mem_of_nth hf
  obtain ⟨r, hr, rfl⟩ := List.mem_map.mp hb
  have hlow := map.low r hr
  have hbase := (map.region r hr).base
  have hlength := (map.region r hr).length
  simp only [Block.Contains, frames] at hcontains
  omega

theorem Owned.lt (h : Owned map f) : f < 2 ^ 40 := by
  obtain ⟨i, hf, -⟩ := h
  have := hf.low
  omega

theorem spare_freeFrame {s : Ready map} (hf : Owned map f) (hspare : ¬ Spare s f) :
    Spare (FrameSource.freeFrame (4096 * f) s) g ↔ g = f ∨ Spare s g := by
  have hlt := hf.lt
  obtain ⟨i, hi, hin⟩ := hf
  rw [spare_iff, spare_iff]
  constructor
  · rintro ⟨j, hg, hc⟩
    obtain ⟨hj, hbit⟩ := (clear_freeFrame hlt j).mp hc
    by_cases hn : Numbered map j f
    · exact .inl (hg.inj hn)
    · exact .inr ⟨j, hg, hj, hbit.mpr hn⟩
  · rintro (rfl | ⟨j, hg, hc⟩)
    · rw [← s.tables.nframes] at hin
      exact ⟨i, hi, (clear_freeFrame hlt i).mpr
        ⟨hin, fun hbit => absurd (spare_of_clear hi ⟨hin, hbit⟩) hspare, fun hn => absurd hi hn⟩⟩
    · have hn : ¬ Numbered map j f := fun hn => hspare (spare_of_clear hn hc)
      exact ⟨j, hg, (clear_freeFrame hlt j).mpr ⟨hc.1, fun _ => hn, fun _ => hc.2⟩⟩

theorem spare_freeFrame_foreign {s : Ready map} (hf : ¬ Owned map f) (hlt : f < 2 ^ 40) :
    Spare (FrameSource.freeFrame (4096 * f) s) g ↔ Spare s g := by
  have hsame (j : ℕ) : Clear (FrameSource.freeFrame (4096 * f) s) j ↔ Clear s j := by
    rw [clear_freeFrame hlt, Clear]
    refine and_congr_right fun hj => ?_
    have hn : ¬ Numbered map j f := fun hn => hf ⟨j, hn, s.tables.nframes ▸ hj⟩
    simp [hn]
  simp only [spare_iff, hsame]

instance : LawfulFrames (Ready map) where
  owned := Owned map
  frame s n a h := by
    obtain ⟨i, f, hf, rfl, hc⟩ := clear_of_nthFrame h
    have howned := hc.owned hf
    have hlt := howned.lt
    rw [Nat.mul_div_cancel_left f (by decide)]
    exact ⟨Nat.mul_mod_right .., by omega, howned⟩
  once s i j a := nthFrame_once
  given s f hf hspare g := spare_freeFrame hf hspare
  foreign s f hf hlt g := spare_freeFrame_foreign hf hlt

section Clearing

variable (outside : ℕ → Memory → Memory) (mem : PhysMem)

/-- The words that the loop in `get_frame` writes, of the memory the page tables are in. -/
def words (mem : PhysMem) : Memory := fun w => BitVec.ofNat 64 (mem (8 * w))

/-- The loop leaves the words of `zeroFrame`. -/
theorem clearFrame_zeroFrame (ha : a % 4096 = 0) (hlow : a < 0x7ffff000) :
    ∃ i, clearFrame outside 4096 a (words mem) = .next (i, words (zeroFrame mem a)) := by
  obtain ⟨⟨i, after⟩, hs, hcleared⟩ : ∃ s, clearFrame outside 4096 a (words mem) = .next s ∧
      ∀ w, s.2 w = if InFrame a w then 0 else words mem w := clearFrame_low (words mem) ha hlow
  obtain rfl : after = words (zeroFrame mem a) := by
    funext w
    refine (hcleared w).trans ?_
    by_cases hw : InFrame a w
    · have hin : 8 * w / 4096 = a / 4096 := by
        obtain ⟨hfirst, hlast⟩ := hw
        omega
      rw [if_pos hw, words, zeroFrame, if_pos hin]
      rfl
    · have hout : 8 * w / 4096 ≠ a / 4096 := by
        intro hin
        exact hw ⟨by omega, by omega⟩
      rw [if_neg hw, words, words, zeroFrame, if_neg hout]
  exact ⟨i, hs⟩

/-- `get_frame` with its loop is `next` and `zeroFrame`. -/
theorem getFrameCleared_next {s s' : Ready map} (h : next s = some (a, s')) :
    getFrameCleared outside s.pmm (words mem) = some (.next (a, s'.pmm, words (zeroFrame mem a))) := by
  obtain ⟨i, f, hf, rfl, -⟩ := next_cases h
  obtain ⟨j, hj⟩ := clearFrame_zeroFrame outside mem (Nat.mul_mod_right 4096 f) hf.low
  refine getFrameCleared_iff.mpr ⟨_, _, next_eq_some.mp h, ?_⟩
  rw [s.tables.pgSize, hj]
  rfl

end Clearing

end Ready

/-- Every state of the allocator behind `init_pmm` is one. -/
theorem exists_ready {memmap : List MmapEntry} {bitmap : Bitmap} {h : List Call} {p : Pmm} (hmap : UsableMap memmap)
    (hlow : ∀ r ∈ memmap.filter usable, r.base + r.length ≤ 0x7ffff000)
    (hrun : Runs.Run Step (start memmap bitmap) h p) (honce : p.once = true) :
    ∃ s : Ready ⟨memmap.filter usable, hmap.few, hmap.region, hlow, hmap.disjoint⟩, s.pmm = p :=
  ⟨⟨p, .run hmap hrun, honce⟩, rfl⟩

end Raccoon.FrameSupply
