import Raccoon.Access
import Raccoon.ByteMemory

/-!
Byte accesses through the page tables, and the pages that a loader maps and
fills: each has a fresh frame of its own, so that what is written to one byte is
seen at that byte only.
-/

namespace Raccoon.Mmu

open TableTree Loops Outcome Machine ByteMemory

namespace Machine

variable {A ρ : Type}

/-- The byte that an access to `va` finds. -/
def visible (m : Machine A) (va : ℕ) : Option ℕ := (translate m.mem m.cr3 va).map (byteAt m.mem)

def loadByte (m : Machine A) (va : ℕ) : Outcome Stuck ρ ℕ :=
  match m.visible va with
  | some b => .next b
  | none => .fail (.pageFault va)

def storeByte (m : Machine A) (va b : ℕ) : Outcome Stuck ρ (Machine A) :=
  match translate m.mem m.cr3 va with
  | some x => .next { m with mem := setByte m.mem x b }
  | none => .fail (.pageFault va)

/-- A little-endian number of `n` bytes. -/
def loadValue (m : Machine A) (va : ℕ) : ℕ → Outcome Stuck ρ ℕ
  | 0 => .next 0
  | n + 1 => do
    let b ← m.loadByte va
    let rest ← loadValue m (va + 1) n
    .next (b + 2 ^ 8 * rest)

theorem loadByte_of_visible {m : Machine A} {va b : ℕ} (h : m.visible va = some b) :
    (m.loadByte va : Outcome Stuck ρ ℕ) = .next b := by rw [loadByte, h]

theorem storeByte_of_translate {m : Machine A} {va x : ℕ} (b : ℕ) (h : translate m.mem m.cr3 va = some x) :
    (m.storeByte va b : Outcome Stuck ρ _) = .next { m with mem := setByte m.mem x b } := by rw [storeByte, h]

end Machine

section Translation

variable {mem : PhysMem} {cr3 va x : ℕ}

theorem translate_of_leaf (hwf : WellFormed mem (frameOf cr3)) (hc : canonical va = true)
    (hP : TreePage (va % 2 ^ 48 / 4096)) (hleaf : (leaf mem (frameOf cr3) (va % 2 ^ 48 / 4096)).testBit 0 = true) :
    translate mem cr3 va = some (4096 * frameOf (leaf mem (frameOf cr3) (va % 2 ^ 48 / 4096)) + va % 4096) := by
  have hl : Live pageTables mem (frameOf cr3) (pagePath (va % 2 ^ 48 / 4096)) := live_of_leaf (ne_zero_of_bit hleaf)
  have hq := pagePath_proper hP
  have hlinked := hwf.linked hq.length hq.index hl
  rw [leaf_of_live hl] at hleaf ⊢
  obtain ⟨hpath, hindex⟩ := pagePath_address va
  rw [hpath] at hlinked hleaf ⊢
  rw [hindex] at hleaf ⊢
  exact translate_of_walk hc hlinked hleaf

/-- A walk that succeeds has gone through the tables of the tree. -/
theorem walk_of_translate (hwf : WellFormed mem (frameOf cr3)) {i4 i3 i2 i1 : ℕ} (hq : Proper [i4, i3, i2])
    (h4 : va / 2 ^ 39 % 512 = i4) (h3 : va / 2 ^ 30 % 512 = i3) (h2 : va / 2 ^ 21 % 512 = i2)
    (h1 : va / 2 ^ 12 % 512 = i1) (h : translate mem cr3 va ≠ none) :
    Live pageTables mem (frameOf cr3) [i4, i3, i2] ∧
      (mem (4096 * follow pageTables mem (frameOf cr3) [i4, i3, i2] + 8 * i1)).testBit 0 = true := by
  have hlink {q : List ℕ} {i : ℕ} (hp : q ++ [i] <+: [i4, i3, i2]) (hl : Live pageTables mem (frameOf cr3) q) :=
    hwf.link q i (hq.initial hp) hl
  simp only [translate, h4, h3, h2, h1] at h
  split at h
  · exact absurd rfl h
  split at h
  · exact absurd rfl h
  rename_i hp4
  rw [Bool.or_eq_true, not_or, Bool.not_eq_true', Bool.not_eq_false] at hp4
  have hl4 : Live pageTables mem (frameOf cr3) [i4] := ⟨ne_zero_of_bit hp4.1, trivial⟩
  split at h
  · exact absurd rfl h
  rename_i hp3
  rw [Bool.not_eq_true', Bool.not_eq_false] at hp3
  have hl3 : Live pageTables mem (frameOf cr3) [i4, i3] := ⟨hl4.1, ne_zero_of_bit hp3, trivial⟩
  have hlink3 := hlink (q := [i4]) (i := i3) ⟨[i2], rfl⟩ hl4 (ne_zero_of_bit hp3)
  split at h
  · rename_i hhuge
    exact absurd (hlink3.2.symm.trans hhuge) (by decide)
  split at h
  · exact absurd rfl h
  rename_i hp2
  rw [Bool.not_eq_true', Bool.not_eq_false] at hp2
  have hlink2 := hlink (q := [i4, i3]) (i := i2) ⟨[], rfl⟩ hl3 (ne_zero_of_bit hp2)
  split at h
  · rename_i hhuge
    exact absurd (hlink2.2.symm.trans hhuge) (by decide)
  split at h
  · exact absurd rfl h
  rename_i hp1
  rw [Bool.not_eq_true', Bool.not_eq_false] at hp1
  exact ⟨⟨hl4.1, hl3.2.1, ne_zero_of_bit hp2, trivial⟩, hp1⟩

/-- What the hardware reaches outside the recursive slot, it reaches through the leaf of the page. -/
theorem leaf_of_translate (hwf : WellFormed mem (frameOf cr3)) (hP : TreePage (va % 2 ^ 48 / 4096))
    (h : translate mem cr3 va = some x) : (leaf mem (frameOf cr3) (va % 2 ^ 48 / 4096)).testBit 0 = true ∧
      x = 4096 * frameOf (leaf mem (frameOf cr3) (va % 2 ^ 48 / 4096)) + va % 4096 := by
  have hne : translate mem cr3 va ≠ none := h ▸ Option.some_ne_none x
  obtain ⟨hpath, hindex⟩ := pagePath_address va
  obtain ⟨hl, hlast⟩ := walk_of_translate hwf (hpath ▸ pagePath_proper hP) rfl rfl rfl rfl hne
  have hbit : (leaf mem (frameOf cr3) (va % 2 ^ 48 / 4096)).testBit 0 = true := by
    rw [leaf_of_live (hpath ▸ hl), hpath, hindex]
    exact hlast
  exact ⟨hbit, Option.some.inj (h.symm.trans (translate_of_leaf hwf (canonical_of_translate hne) hP hbit))⟩

/-- An address stays where it is as long as the leaf of its page does. -/
theorem translate_congr {mem' : PhysMem} (hwf : WellFormed mem (frameOf cr3)) (hwf' : WellFormed mem' (frameOf cr3))
    (hP : TreePage (va % 2 ^ 48 / 4096)) (hleaf : leaf mem' (frameOf cr3) (va % 2 ^ 48 / 4096) =
      leaf mem (frameOf cr3) (va % 2 ^ 48 / 4096)) (h : translate mem cr3 va = some x) :
    translate mem' cr3 va = some x := by
  obtain ⟨hbit, rfl⟩ := leaf_of_translate hwf hP h
  rw [← hleaf] at hbit ⊢
  exact translate_of_leaf hwf' (canonical_of_translate (h ▸ Option.some_ne_none _)) hP hbit

end Translation

section Stores

variable {A ρ : Type} [FrameSource A] {m m' : Machine A} {va x b : ℕ}

/-- Memory behind `va` that is neither a table nor one of the allocator's frames. -/
structure Settled (m : Machine A) (va : ℕ) : Prop where
  page : TreePage (va % 2 ^ 48 / 4096)
  frame : ∃ x, translate m.mem m.cr3 va = some x ∧ ¬ TableFrame m.mem m.root (x / 4096) ∧
    ∀ n a, nthFrame m.frames n = some a → a / 4096 ≠ x / 4096

/-- What a store to memory that is no table keeps. -/
structure SameTables (m m' : Machine A) : Prop where
  cr3 : m'.cr3 = m.cr3
  lock : m'.kmmapLock = m.kmmapLock
  frames : m'.frames = m.frames
  wf : WellFormed m'.mem m'.root
  tables : ∀ t, TableFrame m'.mem m'.root t ↔ TableFrame m.mem m.root t
  leaf : ∀ P, TreePage P → leaf m'.mem m'.root P = leaf m.mem m.root P

omit [FrameSource A] in
theorem sameTables_of_outside (hwf : WellFormed m.mem m.root) {mem : PhysMem}
    (hout : ∀ x, TableFrame m.mem m.root (x / 4096) → mem x = m.mem x) : SameTables m { m with mem := mem } := by
  obtain ⟨hwf', hlive, hfollow, hleaf⟩ := hwf.outside _ hout
  refine ⟨rfl, rfl, rfl, hwf', fun t => ⟨?_, ?_⟩, hleaf⟩
  · rintro ⟨q, hq, hl, rfl⟩
    have hl' := (hlive q hq).mp hl
    exact ⟨q, hq, hl', (hfollow q hq hl').symm⟩
  · rintro ⟨q, hq, hl, rfl⟩
    exact ⟨q, hq, (hlive q hq).mpr hl, hfollow q hq hl⟩

omit [FrameSource A] in
theorem sameTables_setByte (hwf : WellFormed m.mem m.root) (hx : ¬ TableFrame m.mem m.root (x / 4096)) (b : ℕ) :
    SameTables m { m with mem := setByte m.mem x b } := by
  refine sameTables_of_outside hwf fun y hy => Function.update_of_ne (fun hc => hx ?_) ..
  have hframe : x / 4096 = y / 4096 := by omega
  rwa [hframe]

omit [FrameSource A] in
theorem SameTables.root (h : SameTables m m') : m'.root = m.root := by rw [Machine.root, h.cr3, Machine.root]

theorem SameTables.fresh (h : SameTables m m') (hfresh : Fresh m) : Fresh m' := by
  constructor <;> simp only [h.frames, h.tables]
  exacts [hfresh.aligned, hfresh.apart, hfresh.distinct]

omit [FrameSource A] in
theorem SameTables.translate (h : SameTables m m') (hwf : WellFormed m.mem m.root) (hP : TreePage (va % 2 ^ 48 / 4096))
    (ht : translate m.mem m.cr3 va = some x) : translate m'.mem m'.cr3 va = some x := by
  have hwf' := h.wf
  have hleaf := h.leaf _ hP
  rw [h.root] at hwf' hleaf
  rw [h.cr3]
  exact translate_congr hwf hwf' hP hleaf ht

theorem SameTables.settled (h : SameTables m m') (hwf : WellFormed m.mem m.root) (hs : Settled m va) :
    Settled m' va := by
  obtain ⟨x, hx, hnot, hframes⟩ := hs.frame
  refine ⟨hs.page, x, h.translate hwf hs.page hx, mt (h.tables _).mp hnot, ?_⟩
  rwa [h.frames]

end Stores

section Loading

variable {A ρ : Type} [FrameSource A] {m₀ m m' : Machine A} {pages : ℕ → Prop} {image : ℕ → ℕ} {k n va b size : ℕ}

/-- From `m₀` to `m` exactly `pages` were mapped, each to a frame of its own out of the first `k` of the allocator,
and `image` is what was written there. -/
structure Loaded (m₀ m : Machine A) (pages : ℕ → Prop) (image : ℕ → ℕ) (k : ℕ) : Prop where
  cr3 : m.cr3 = m₀.cr3
  lock : m.kmmapLock = 0
  wf : WellFormed m.mem m.root
  fresh : Fresh m
  supply : ∀ i, nthFrame m.frames i = nthFrame m₀.frames (k + i)
  tables : ∀ t, TableFrame m.mem m.root t → TableFrame m₀.mem m₀.root t ∨ Drawn m₀ k t
  rest : ∀ x, ¬ TableFrame m.mem m.root (x / 4096) → ¬ Drawn m₀ k (x / 4096) → m.mem x = m₀.mem x
  kept : ∀ P, TreePage P → ¬ pages P → leaf m.mem m.root P = leaf m₀.mem m₀.root P
  lower : ∀ P, pages P → P < 2 ^ 35 ∧ TreePage P ∧ leaf m₀.mem m₀.root P = 0
  frame : ∀ P, pages P → ∃ i < k, ∃ a, nthFrame m₀.frames i = some a ∧ ¬ TableFrame m.mem m.root (a / 4096) ∧
    leaf m.mem m.root P = a ||| 7 ||| 1
  distinct : ∀ P Q, pages P → pages Q → leaf m.mem m.root P = leaf m.mem m.root Q → P = Q
  bytes : ∀ v, pages (v / 4096) →
    byteAt m.mem (4096 * frameOf (leaf m.mem m.root (v / 4096)) + v % 4096) = image v
  blank : ∀ v, ¬ pages (v / 4096) → image v = 0

theorem Loaded.refl (hwf : WellFormed m.mem m.root) (hfresh : Fresh m) (hlock : m.kmmapLock = 0) :
    Loaded m m (fun _ => False) (fun _ => 0) 0 where
  cr3 := rfl
  lock := hlock
  wf := hwf
  fresh := hfresh
  supply i := by rw [Nat.zero_add]
  tables _ h := .inl h
  rest _ _ _ := rfl
  kept _ _ _ := rfl
  lower _ h := h.elim
  frame _ h := h.elim
  distinct _ _ h := h.elim
  bytes _ h := h.elim
  blank _ _ := rfl

theorem Loaded.root (h : Loaded m₀ m pages image k) : m.root = m₀.root := by rw [Machine.root, h.cr3, Machine.root]

theorem leafFlags : EntryFlags 7 := ⟨by decide, by decide⟩

/-- The frame behind a page that was mapped. -/
theorem Loaded.page_frame (h₀ : Fresh m₀) (h : Loaded m₀ m pages image k) {P : ℕ} (hP : pages P) :
    ∃ i < k, ∃ a, nthFrame m₀.frames i = some a ∧ a % 4096 = 0 ∧ ¬ TableFrame m.mem m.root (a / 4096) ∧
      leaf m.mem m.root P = a ||| 7 ||| 1 ∧ frameOf (leaf m.mem m.root P) = a / 4096 := by
  obtain ⟨i, hi, a, ha, hnot, he⟩ := h.frame P hP
  obtain ⟨hal, hlt⟩ := h₀.aligned i a ha
  refine ⟨i, hi, a, ha, hal, hnot, he, ?_⟩
  rw [he]
  exact (leafFlags.link hal hlt).2

theorem Loaded.frame_inj (h₀ : Fresh m₀) (h : Loaded m₀ m pages image k) {P Q : ℕ} (hP : pages P) (hQ : pages Q)
    (he : frameOf (leaf m.mem m.root P) = frameOf (leaf m.mem m.root Q)) : P = Q := by
  obtain ⟨i, -, a, -, ha, -, hPa, hfa⟩ := h.page_frame h₀ hP
  obtain ⟨j, -, b, -, hb, -, hQb, hfb⟩ := h.page_frame h₀ hQ
  have hab : a = b := by omega
  exact h.distinct P Q hP hQ (by rw [hPa, hQb, hab])

theorem Loaded.translate_page (h : Loaded m₀ m pages image k) (hv : pages (va / 4096)) :
    translate m.mem m.cr3 va = some (4096 * frameOf (leaf m.mem m.root (va / 4096)) + va % 4096) := by
  obtain ⟨hlow, htree, -⟩ := h.lower _ hv
  obtain ⟨i, -, a, -, -, he⟩ := h.frame _ hv
  have hmod : va % 2 ^ 48 / 4096 = va / 4096 := by omega
  have hcan : canonical va = true := by
    simp only [canonical, Bool.or_eq_true, decide_eq_true_eq]
    omega
  have hbit : (leaf m.mem m.root (va / 4096)).testBit 0 = true := by
    rw [he]
    simp
  have ht := translate_of_leaf h.wf hcan (hmod.symm ▸ htree) (hmod.symm ▸ hbit)
  rwa [hmod] at ht

theorem Loaded.visible_page (h : Loaded m₀ m pages image k) (hv : pages (va / 4096)) :
    m.visible va = some (image va) := by
  rw [visible, h.translate_page hv, Option.map_some, h.bytes va hv]

/-- What lies neither in a table nor in a frame of the allocator is not touched. -/
theorem Loaded.visible_settled (h₀ : WellFormed m₀.mem m₀.root) (h : Loaded m₀ m pages image k) (hs : Settled m₀ va) :
    m.visible va = m₀.visible va := by
  obtain ⟨x, hx, hnot, hframes⟩ := hs.frame
  have hused := ne_zero_of_bit (leaf_of_translate h₀ hs.page hx).1
  have hout : ¬ pages (va % 2 ^ 48 / 4096) := fun hp => hused (h.lower _ hp).2.2
  have hwf := h.wf
  have hleaf := h.kept _ hs.page hout
  rw [h.root] at hwf hleaf
  have hx' := translate_congr h₀ hwf hs.page hleaf hx
  have hdrawn : ¬ Drawn m₀ k (x / 4096) := fun ⟨i, _, a, ha, he⟩ => hframes i a ha he.symm
  have hword : m.mem (8 * (x / 8)) = m₀.mem (8 * (x / 8)) := by
    have hframe : 8 * (x / 8) / 4096 = x / 4096 := by omega
    apply h.rest <;> rw [hframe]
    · exact fun ht => (h.tables _ ht).elim hnot hdrawn
    · exact hdrawn
  rw [visible, h.cr3, hx', visible, hx, Option.map_some, Option.map_some, byteAt_congr hword]

/-- A byte stored to a page that was mapped changes the image at this byte. -/
theorem Loaded.storeByte (h₀ : Fresh m₀) (h : Loaded m₀ m pages image k) (hv : pages (va / 4096)) (hb : b < 2 ^ 8) :
    ∃ m', (m.storeByte va b : Outcome Stuck ρ _) = .next m' ∧ Loaded m₀ m' pages (Function.update image va b) k := by
  obtain ⟨i, hi, a, ha, hal, hnot, -, hf⟩ := h.page_frame h₀ hv
  have hx := h.translate_page hv
  generalize hxe : 4096 * frameOf (leaf m.mem m.root (va / 4096)) + va % 4096 = x at hx
  have hframe : x / 4096 = a / 4096 := by omega
  have hsame := sameTables_setByte h.wf (hframe ▸ hnot) b
  refine ⟨_, storeByte_of_translate b hx, ?_⟩
  have hleaf {P : ℕ} (hP : pages P) := hsame.leaf P (h.lower P hP).2.1
  refine ⟨h.cr3, h.lock, hsame.wf, hsame.fresh h.fresh, h.supply, fun t ht => h.tables t ((hsame.tables t).mp ht),
    fun y hy hd => ?_, fun P hP hout => (hsame.leaf P hP).trans (h.kept P hP hout), h.lower, fun P hP => ?_,
    fun P Q hP hQ he => ?_, fun v hp => ?_, fun v hp => ?_⟩
  · rw [← h.rest y (mt (hsame.tables _).mpr hy) hd]
    refine Function.update_of_ne (fun hc => hd ⟨i, hi, a, ha, ?_⟩) ..
    omega
  · obtain ⟨j, hj, c, hc, hnc, he⟩ := h.frame P hP
    exact ⟨j, hj, c, hc, mt (hsame.tables _).mp hnc, (hleaf hP).trans he⟩
  · rw [hleaf hP, hleaf hQ] at he
    exact h.distinct P Q hP hQ he
  · rw [hleaf hp]
    by_cases he : v = va
    · subst he
      rw [hxe, Function.update_self]
      exact byteAt_setByte_self m.mem x hb
    · rw [Function.update_of_ne he, ← h.bytes v hp]
      apply byteAt_setByte_ne m.mem hb
      -- another byte of the same frame is another byte of the same page
      intro hc
      have hpage := h.frame_inj h₀ hp hv (by omega)
      omega
  · have hne : v ≠ va := fun he => hp (he ▸ hv)
    rw [Function.update_of_ne hne]
    exact h.blank v hp

/-- What `kmmap` does to a page that was mapped before, and to one that was not. -/
theorem Loaded.mapped_page (h₀ : Fresh m₀) (h : Loaded m₀ m pages image k) {lo hi P : ℕ}
    (hm : Mapped m.grabKmmap m' 7 lo hi n) :
    (pages P → leaf m'.mem m'.root P = leaf m.mem m.root P ∧ ∃ i < k, ∃ a, nthFrame m₀.frames i = some a ∧
      ¬ TableFrame m'.mem m'.root (a / 4096) ∧ ¬ Drawn m n (a / 4096) ∧ leaf m'.mem m'.root P = a ||| 7 ||| 1 ∧
      frameOf (leaf m'.mem m'.root P) = a / 4096) ∧
    (¬ pages P → TreePage P → lo ≤ P → P < hi → leaf m₀.mem m₀.root P = 0 → leaf m.mem m.root P = 0 ∧
      ∃ i < n, ∃ a, nthFrame m.frames i = some a ∧ ¬ TableFrame m'.mem m'.root (a / 4096) ∧
        leaf m'.mem m'.root P = a ||| 7 ||| 1 ∧ frameOf (leaf m'.mem m'.root P) = a / 4096) := by
  constructor
  · intro hP
    obtain ⟨i, hi, a, ha, -, hnot, he, hf⟩ := h.page_frame h₀ hP
    have hused : leaf m.mem m.root P ≠ 0 := he ▸ ne_zero_of_bit (b := 0) (by simp)
    have hkept : leaf m'.mem m'.root P = leaf m.mem m.root P := hm.kept P (h.lower P hP).2.1 (.inr (.inr hused))
    have hdrawn : ¬ Drawn m n (a / 4096) := not_drawn_of_earlier h₀ h.supply hi ha
    exact ⟨hkept, i, hi, a, ha, fun ht => (hm.tables _ ht).elim hnot hdrawn, hdrawn, hkept.trans he, hkept ▸ hf⟩
  · intro hP htree hlo hhi hz
    have hunused : leaf m.mem m.root P = 0 := (h.kept P htree hP).trans hz
    obtain ⟨i, hi, a, ha, hnot, he⟩ := hm.new P htree hlo hhi hunused
    obtain ⟨hal, hlt⟩ := h.fresh.aligned i a ha
    refine ⟨hunused, i, hi, a, ha, hnot, he, ?_⟩
    rw [he]
    exact (leafFlags.link hal hlt).2

/-- `kmmap` on pages that are all unused, or were mapped before, adds them with zeroes for their bytes. -/
theorem Loaded.kmmap (h₀ : Fresh m₀) (h : Loaded m₀ m pages image k) (hsize : 1 ≤ size)
    (hlow : va + size ≤ 2 ^ 47) (hslot : ∀ P, Meets va size P → P / 2 ^ 27 ≠ recursiveMappingEntry)
    (hunused : ∀ P, Meets va size P → leaf m₀.mem m₀.root P = 0)
    (hget : kmmap va size 7 m ≠ .error .outOfMemory) : ∃ m' n, kmmap va size 7 m = .ok m' ∧
      Loaded m₀ m' (fun P => pages P ∨ Meets va size P) image (k + n) := by
  obtain ⟨m₁, n, hrun, hm⟩ := kmmap_mapped h.wf h.fresh h.lock leafFlags (by omega) hslot hget
  have htree {P : ℕ} (hP : Meets va size P) : TreePage P := hP.tree (by omega) hslot
  have hpage (P : ℕ) := h.mapped_page (P := P) h₀ hm
  have hold {P : ℕ} (hP : pages P) := (hpage P).1 hP
  have hnew {P : ℕ} (hout : ¬ pages P) (hP : Meets va size P) :=
    (hpage P).2 hout (htree hP) (meets_iff.mp hP).1 (meets_iff.mp hP).2 (hunused P hP)
  -- the frames of earlier pages are not given out again
  have hmixed {P Q : ℕ} (hP : pages P) (hout : ¬ pages Q) (hQ : Meets va size Q) :
      leaf m₁.mem m₁.root P ≠ leaf m₁.mem m₁.root Q := by
    obtain ⟨-, i, -, a, -, -, hdrawn, -, hfa⟩ := hold hP
    obtain ⟨-, j, hj, c, hc, -, -, hfc⟩ := hnew hout hQ
    intro he
    rw [he, hfc] at hfa
    exact hdrawn ⟨j, hj, c, hc, hfa.symm⟩
  refine ⟨m₁.releaseKmmap, n, hrun, ?_⟩
  constructor
  all_goals try simp only [releaseKmmap_mem, releaseKmmap_cr3, releaseKmmap_root, releaseKmmap_frames]
  case cr3 => exact hm.cr3.trans h.cr3
  case lock =>
    have hheld : m₁.kmmapLock = 1 := hm.lock
    simp [releaseKmmap, hheld]
  case wf => exact hm.wf
  case fresh => exact hm.fresh.releaseKmmap
  case supply =>
    intro i
    rw [hm.supply, Nat.add_assoc]
    exact h.supply (n + i)
  case tables =>
    intro t ht
    rcases hm.tables t ht with ht | hd
    · exact (h.tables t ht).imp_right fun hd => hd.mono (Nat.le_add_right k n)
    · exact .inr (Drawn.later hd h.supply)
  case rest =>
    intro x hx hd
    rw [hm.cleared.rest x hx fun hm => hd (Drawn.later hm h.supply)]
    exact h.rest x (fun ht => hx (hm.grown _ ht)) fun hk => hd (hk.mono (Nat.le_add_right k n))
  case kept =>
    intro P hP hout
    obtain ⟨hpages, hmeets⟩ := not_or.mp hout
    rw [hm.kept P hP (by rw [meets_iff] at hmeets; omega)]
    exact h.kept P hP hpages
  case lower =>
    rintro P (hP | hP)
    · exact h.lower P hP
    · have hlt := (meets_iff.mp hP).2
      exact ⟨by omega, htree hP, hunused P hP⟩
  case frame =>
    intro P hP
    by_cases hpages : pages P
    · obtain ⟨-, i, hi, a, ha, hnot, -, he, -⟩ := hold hpages
      exact ⟨i, by omega, a, ha, hnot, he⟩
    · obtain ⟨-, i, hi, a, ha, hnot, he, -⟩ := hnew hpages (hP.resolve_left hpages)
      exact ⟨k + i, by omega, a, h.supply i ▸ ha, hnot, he⟩
  case distinct =>
    intro P Q hP hQ he
    by_cases hpages : pages P <;> by_cases hqages : pages Q
    · rw [(hold hpages).1, (hold hqages).1] at he
      exact h.distinct P Q hpages hqages he
    · exact absurd he (hmixed hpages hqages (hQ.resolve_left hqages))
    · exact absurd he.symm (hmixed hqages hpages (hP.resolve_left hpages))
    · have hP' := hP.resolve_left hpages
      have hQ' := hQ.resolve_left hqages
      exact hm.distinct P Q (htree hP') (htree hQ') (meets_iff.mp hP').1 (meets_iff.mp hP').2 (meets_iff.mp hQ').1
        (meets_iff.mp hQ').2 (hnew hpages hP').1 (hnew hqages hQ').1 he
  case bytes =>
    intro v hv
    by_cases hpages : pages (v / 4096)
    · obtain ⟨hleaf, i, -, a, -, hnot, hdrawn, -, hf⟩ := hold hpages
      have hword : 8 * ((4096 * frameOf (leaf m₁.mem m₁.root (v / 4096)) + v % 4096) / 8) / 4096 = a / 4096 := by
        omega
      rw [← h.bytes v hpages, ← hleaf]
      apply byteAt_congr
      apply hm.cleared.rest <;> rw [hword]
      · exact hnot
      · exact hdrawn
    · obtain ⟨-, i, hi, a, ha, hnot, -, hf⟩ := hnew hpages (hv.resolve_left hpages)
      have hword : 8 * ((4096 * frameOf (leaf m₁.mem m₁.root (v / 4096)) + v % 4096) / 8) / 4096 = a / 4096 := by
        omega
      rw [h.blank v hpages]
      apply byteAt_zero
      apply hm.cleared.blank <;> rw [hword]
      · exact hnot
      · exact ⟨i, hi, a, ha, rfl⟩
  case blank =>
    intro v hv
    exact h.blank v fun hp => hv (.inl hp)

end Loading

end Raccoon.Mmu
