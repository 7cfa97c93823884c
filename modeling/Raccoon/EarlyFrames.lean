import Raccoon.FramesExclusive

/-!
The frames that `bootstrap_arch` takes for the bitmap. They are contiguous as
long as they come from one region, and the last frame of a region is never
among them.
-/

namespace Raccoon.FrameAllocator

open BlockNumbering

/-- The frames that `n` calls of `get_frame` return, all of which succeed. -/
def earlyFrames (p : Pmm) : ℕ → Option (List ℕ × Pmm)
  | 0 => some ([], p)
  | n + 1 => (earlyFrames p n).bind fun x => (getFrame x.2).map fun y => (x.1 ++ [y.1], y.2)

/-- The frames that `bootstrap_arch` takes before it calls `init_pmm`. -/
def bootstrapFrames (memmap : List MmapEntry) (bitmap : Bitmap) : Option (List ℕ × Pmm) :=
  let p := start memmap bitmap
  earlyFrames p (p.nframes / 4096 + 1)

/-- The bytes of `bitmap_addr[0..nframes/64]`, with the bitmap at the frame `first`. -/
def BitmapByte (first nframes b : ℕ) : Prop := ∃ i ≤ nframes / 64, ∃ o < 8, b = wadd first (8 * i + o)

def InFrames (frames : List ℕ) (b : ℕ) : Prop := ∃ a ∈ frames, a ≤ b ∧ b < a + 4096

/-- The first region of more than one frame. -/
def firstLarge (rs : List MmapEntry) : Option MmapEntry := rs.find? fun r => 1 < r.length / 4096

variable {rs : List MmapEntry} {p p' : Pmm} {fs : List ℕ} {r : MmapEntry} {z n : ℕ}

/-- Where the frames come from, with `r` the region that the first of them comes from. -/
structure Contiguous (rs : List MmapEntry) (z : ℕ) (r : MmapEntry) (p : Pmm) (fs : List ℕ) : Prop where
  region : rs[z]? = some r
  large : 1 < r.length / 4096
  small : ∀ j < z, ∀ s, rs[j]? = some s → s.length / 4096 ≤ 1
  unset : p.isBitmapSet = false
  pgSize : p.pgSize = 4096
  available : p.available = rs
  room : ∀ s, rs[p.prevI]? = some s → p.numberOfFramesWithoutBitmapInC < s.length / 4096
  first : fs.head? = some r.base
  given : ∀ a ∈ fs, ∃ (w : ℕ) (s : MmapEntry) (t : ℕ), rs[w]? = some s ∧ a = s.base + 4096 * t ∧ t + 1 < s.length / 4096
  place : (p.prevI = z ∧ p.numberOfFramesWithoutBitmapInC = fs.length ∧ ∀ t < fs.length, r.base + 4096 * t ∈ fs) ∨
    (z < p.prevI ∧ ∀ t, t + 1 < r.length / 4096 → r.base + 4096 * t ∈ fs)

theorem Contiguous.getFrame (hregion : ∀ r ∈ rs, Region r) (h : Contiguous rs z r p fs) {a : ℕ}
    (hs : getFrame p = some (a, p')) : Contiguous rs z r p' (fs ++ [a]) := by
  have hav := h.available
  obtain ⟨k, s, t, hsk, rfl, ht, hk, rfl, hskip⟩ := getFrame_early (hav ▸ hregion) h.unset h.pgSize (hav ▸ h.room) hs
  rw [hav] at hsk hskip
  have hfirst : (fs ++ [s.base + 4096 * t]).head? = some r.base := by
    rw [List.head?_append, h.first]
    rfl
  refine ⟨h.region, h.large, h.small, h.unset, h.pgSize, hav, ?_, hfirst, ?_, ?_⟩
  · intro s' hs'
    obtain rfl : s = s' := Option.some.inj (hsk.symm.trans hs')
    exact ht
  · intro b hb
    rcases List.mem_append.mp hb with hb | hb
    · exact h.given b hb
    · exact ⟨_, s, t, hsk, List.mem_singleton.mp hb, ht⟩
  · have hold {t' : ℕ} (hm : r.base + 4096 * t' ∈ fs) : r.base + 4096 * t' ∈ fs ++ [s.base + 4096 * t] :=
      List.mem_append_left _ hm
    rcases h.place with ⟨hz, hlen, hmem⟩ | ⟨hz, hmem⟩
    · rcases hk with ⟨rfl, rfl⟩ | ⟨hk, rfl⟩
      · -- the next frame of the same region
        obtain rfl : r = s := Option.some.inj (h.region.symm.trans (hz ▸ hsk))
        refine .inl ⟨hz, by simp [hlen], fun t' ht' => ?_⟩
        rw [List.length_append, List.length_singleton] at ht'
        rcases Nat.lt_succ_iff_lt_or_eq.mp ht' with hlt | rfl
        · exact hold (hmem t' hlt)
        · rw [hlen]
          exact List.mem_append_right _ (List.mem_singleton_self _)
      · -- the region has given all its frames but the last
        have hall := hskip 0 hk r (hz ▸ h.region)
        rw [if_pos rfl] at hall
        refine .inr ⟨by dsimp only; omega, fun t' ht' => hold (hmem t' (by omega))⟩
    · exact .inr ⟨by dsimp only; omega, fun t' ht' => hold (hmem t' ht')⟩

theorem contiguous_first (hregion : ∀ r ∈ rs, Region r) (hunset : p.isBitmapSet = false) (hsize : p.pgSize = 4096)
    (hav : p.available = rs) (hprev : p.prevI = 0) (hin : p.numberOfFramesWithoutBitmapInC = 0) {a : ℕ}
    (hs : getFrame p = some (a, p')) : ∃ z r, Contiguous rs z r p' [a] := by
  have hroom : ∀ r, p.available[p.prevI]? = some r → p.numberOfFramesWithoutBitmapInC < r.length / 4096 := by
    intro r hr
    rw [hav] at hr
    have hreg := hregion r (List.mem_of_getElem? hr)
    have hl := hreg.length
    have hp := hreg.pos
    omega
  obtain ⟨k, r, t, hr, rfl, ht, hk, rfl, hskip⟩ := getFrame_early (hav ▸ hregion) hunset hsize hroom hs
  obtain rfl : t = 0 := by omega
  rw [hav, hprev, Nat.zero_add] at hr
  have hsmall : ∀ j < k, ∀ s, rs[j]? = some s → s.length / 4096 ≤ 1 := by
    intro j hj s hsj
    have hle := hskip j hj s (by rwa [hav, hprev, Nat.zero_add])
    rwa [hin, ite_self] at hle
  refine ⟨k, r, hr, by omega, hsmall, hunset, hsize, hav, ?_, rfl, ?_, .inl ⟨?_, rfl, ?_⟩⟩
  · intro s hs'
    dsimp only at hs'
    rw [hprev, Nat.zero_add] at hs'
    obtain rfl : r = s := Option.some.inj (hr.symm.trans hs')
    exact ht
  · intro b hb
    exact ⟨k, r, 0, hr, List.mem_singleton.mp hb, ht⟩
  · dsimp only
    omega
  · intro t ht
    obtain rfl : t = 0 := by simpa using ht
    exact List.mem_singleton_self _

theorem earlyFrames_contiguous (hregion : ∀ r ∈ rs, Region r) (hunset : p.isBitmapSet = false)
    (hsize : p.pgSize = 4096) (hav : p.available = rs) (hprev : p.prevI = 0)
    (hin : p.numberOfFramesWithoutBitmapInC = 0) (h : earlyFrames p (n + 1) = some (fs, p')) :
    fs.length = n + 1 ∧ ∃ z r, Contiguous rs z r p' fs := by
  induction n generalizing fs p' with
  | zero =>
    simp only [earlyFrames, Option.bind_some, List.nil_append] at h
    obtain ⟨⟨a, p₁⟩, hg, he⟩ := Option.map_eq_some_iff.mp h
    obtain ⟨rfl, rfl⟩ := Prod.mk.inj he
    exact ⟨rfl, contiguous_first hregion hunset hsize hav hprev hin hg⟩
  | succ n ih =>
    rw [earlyFrames] at h
    obtain ⟨⟨fs₀, p₀⟩, h₀, h⟩ := Option.bind_eq_some_iff.mp h
    obtain ⟨⟨a, p₁⟩, hg, he⟩ := Option.map_eq_some_iff.mp h
    obtain ⟨rfl, rfl⟩ := Prod.mk.inj he
    obtain ⟨hlen, z, r, hc⟩ := ih h₀
    exact ⟨by simp [hlen], z, r, hc.getFrame hregion hg⟩

theorem Contiguous.firstLarge (h : Contiguous rs z r p fs) : firstLarge rs = some r := by
  obtain ⟨hz, hr⟩ := List.getElem?_eq_some_iff.mp h.region
  apply List.find?_eq_some_iff_getElem.mpr
  refine ⟨by simpa using h.large, z, hz, hr, fun j hj => ?_⟩
  have hle := h.small j hj _ (List.getElem?_eq_getElem (hj.trans hz))
  simpa using hle

/-- The early frames hold the bitmap exactly if the region of the first of them has that many frames
besides its last one. -/
theorem bitmap_reserved_iff {memmap : List MmapEntry} {bitmap : Bitmap} (hmap : UsableMap memmap)
    (h : bootstrapFrames memmap bitmap = some (fs, p)) :
    (∀ b, BitmapByte (fs.headD 0) (start memmap bitmap).nframes b → InFrames fs b) ↔
      ∃ r, firstLarge (memmap.filter usable) = some r ∧
        (start memmap bitmap).nframes / 32768 + 1 < r.length / 4096 := by
  obtain ⟨hlen, z, r, hc⟩ := earlyFrames_contiguous hmap.region rfl rfl rfl rfl rfl h
  generalize (start memmap bitmap).nframes = nframes at hlen ⊢
  have hreg := hmap.region r (List.mem_of_getElem? hc.region)
  have hbase := hreg.base
  have hin := hreg.inside
  have hwhole := hreg.length
  have hhead : fs.headD 0 = r.base := by rw [List.headD_eq_head?_getD, hc.first, Option.getD_some]
  rw [hhead, hc.firstLarge]
  constructor
  · intro hall
    refine ⟨r, rfl, ?_⟩
    by_contra hshort
    -- the last frame of the region holds bytes of the bitmap, and it is not an early frame
    obtain ⟨c, hlast⟩ : ∃ c, r.length = 4096 * (c + 1) := by
      have hlarge := hc.large
      exact ⟨r.length / 4096 - 1, by omega⟩
    have haddress : r.base + 4096 * c = wadd r.base (8 * (512 * c) + 0) := by
      rw [wadd_eq (by omega)]
      omega
    obtain ⟨a, ha, hle, hlt⟩ := hall (r.base + 4096 * c) ⟨512 * c, by omega, 0, by decide, haddress⟩
    obtain ⟨w, s, t, hs, rfl, ht⟩ := hc.given a ha
    by_cases hw : w = z
    · obtain rfl : r = s := Option.some.inj (hc.region.symm.trans (hw ▸ hs))
      omega
    · have hdisj := disjoint_of_ne hmap.disjoint hs hc.region hw
      have hwhole' := (hmap.region s (List.mem_of_getElem? hs)).length
      have hbase' := (hmap.region s (List.mem_of_getElem? hs)).base
      omega
  · rintro ⟨s, hs, hfits⟩ b ⟨i, hi, o, ho, rfl⟩
    obtain rfl : r = s := Option.some.inj hs
    have hpage : (8 * i + o) / 4096 ≤ nframes / 32768 := by omega
    rw [wadd_eq (by omega)]
    refine ⟨r.base + 4096 * ((8 * i + o) / 4096), ?_, by omega, by omega⟩
    rcases hc.place with ⟨-, -, hmem⟩ | ⟨-, hmem⟩
    · exact hmem _ (by omega)
    · exact hmem _ (by omega)

theorem bitmap_reserved_block : ∃ fs p, bootstrapFrames block (fun _ => 0) = some (fs, p) ∧
    ∀ b, BitmapByte (fs.headD 0) (start block fun _ => 0).nframes b → InFrames fs b := by
  have hsome : (bootstrapFrames block fun _ => 0).isSome = true := by decide +kernel
  obtain ⟨⟨fs, p⟩, hp⟩ := Option.isSome_iff_exists.mp hsome
  exact ⟨fs, p, hp, (bitmap_reserved_iff block_usable hp).mpr ⟨_, rfl, by decide⟩⟩

/-- A region of two frames, of which one is given, before one of 32768. -/
def shortMap : List MmapEntry := [⟨0x1000, 0x2000, 1⟩, ⟨0x100000, 0x8000000, 1⟩]

theorem bitmap_not_reserved : ∃ fs p, UsableMap shortMap ∧ bootstrapFrames shortMap (fun _ => 0) = some (fs, p) ∧
    BitmapByte (fs.headD 0) (start shortMap fun _ => 0).nframes 0x2000 ∧ ¬ InFrames fs 0x2000 := by
  have hmap : UsableMap shortMap := by
    refine ⟨by decide, fun r hr => ?_, by decide⟩
    obtain rfl | rfl : r = _ ∨ r = _ := by simpa [shortMap, usable] using hr
    all_goals constructor <;> decide
  have hfs : (bootstrapFrames shortMap fun _ => 0).map Prod.fst =
      some [0x1000, 0x100000, 0x101000, 0x102000, 0x103000, 0x104000, 0x105000, 0x106000, 0x107000] := by
    decide +kernel
  obtain ⟨⟨fs, p⟩, hp, rfl⟩ := Option.map_eq_some_iff.mp hfs
  refine ⟨_, p, hmap, hp, ⟨512, by decide, 0, by decide, by decide⟩, ?_⟩
  rintro ⟨a, ha, hle, hlt⟩
  simp only [List.mem_cons, List.not_mem_nil, or_false] at ha
  omega

end Raccoon.FrameAllocator
