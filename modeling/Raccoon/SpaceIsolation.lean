import Raccoon.SpaceCalls
import Raccoon.SpaceCreation

/-!
The cores call in any order. A frame of the allocator is reached in one space
at most, and what one space maps, unmaps or stores is not seen in another.
-/

namespace Raccoon.AddressSpaces

open BlockNumbering FrameOwnership FrameSupply Mmu Runs TableTree

variable {A : Type} [FrameSource A] [LawfulFrames A]
  {k : Loader} {s s' s₀ s₁ : System A} {y r core : ℕ} {h h' : List Action}

/-- A new space has no page of its own yet. -/
theorem create_maps (h : Sound k s) (hnone : s.pmaps core = none) (hs : s.create k core = some s') :
    Tables k s'.mem s'.pmaps ∧ Maps ∅ (view k s) (view k s') ∧
      ∀ y r, s.pmaps y = some r → s'.pmaps y = some r ∧ Untouched k s s'.mem y := by
  obtain ⟨⟨p, frames⟩, hget, hs⟩ := Option.bind_eq_some_iff.mp hs
  obtain ⟨mem, hcreate, hs⟩ := Option.bind_eq_some_iff.mp hs
  obtain rfl := Option.some.inj hs
  have hfirst := nthFrame_zero hget
  obtain ⟨haligned, hlt, -⟩ := LawfulFrames.frame s.frames 0 p hfirst
  have hframe : frameOf p = p / 4096 := by unfold frameOf; omega
  have hspare := spare_of_nthFrame hfirst
  rw [← hframe] at hspare
  have hnot := h.exclusive.free_tables (frameOf p) hspare
  have hdir : p / 4096 ≠ k.dir := hframe ▸ (dir_ne fun hk => hnot (.inl hk)).symm
  have hc : Created k (frameOf p) s.mem mem := hframe ▸ created_of_createPageDirectory haligned hlt hdir hcreate
  have hsupply (i : ℕ) : nthFrame frames i = nthFrame s.frames (1 + i) := by
    rw [Nat.add_comm, nthFrame_succ hget]
  have hkernel : ¬ KernelFrame k s.mem (frameOf p) := fun hk => hnot (.inl hk)
  obtain ⟨-, -, hkept⟩ := h.tables.changesIn hnot hc.rest
  have htables {t : ℕ} := hc.mem_tablesIn (t := t) h.tables hnot hnone
  have hold {y r : ℕ} (hy : s.pmaps y = some r) : Function.update s.pmaps core (some p) y = some r := by
    rwa [Function.update_of_ne]
    rintro rfl
    rw [hnone] at hy
    cases hy
  refine ⟨hc.tables h.tables hnot, ⟨fun q _ => ?_, fun q hq => absurd hq (Set.notMem_empty _),
    fun q hq => absurd hq (Set.notMem_empty _), fun t ht => htables.mpr (.inr ht), fun t ht => ?_,
    fun f hf => spare_later hsupply hf, fun f hf ht => ?_⟩, fun y r hy => ⟨hold hy,
      fun r hy => hkept y r hy, fun P f x hb ho hx => ?_⟩⟩
  · by_cases hq : q.1 = core
    · have hbefore : (view k s).behind q = none := by simp [view, hq, hnone]
      rw [hbefore]
      refine behind_of_dead (r := p) (by rw [hq]; exact Function.update_self ..) fun hP hl => ?_
      have hroot := hc.own_root hkernel h.tables.kernel (pagePath_proper hP.1) (own_pagePath hP) hl
      cases hroot
    · exact behind_congr (Function.update_of_ne hq ..) fun r hr hP => (hkept q.1 r hr).leaves q.2 hP.1
  · rcases htables.mp ht with rfl | ht
    · exact .inr hspare
    · exact .inl ht
  · rcases htables.mp ht with rfl | ht
    · exact not_spare_of_drawn hsupply Nat.one_pos hfirst (hframe ▸ hf)
    · exact h.exclusive.free_tables f (spare_later hsupply hf) ht
  · refine hc.rest x fun he => ?_
    rw [← hx, he] at hb ho
    exact h.exclusive.behind_free _ _ hb ho hspare

omit [LawfulFrames A] in
/-- A frame that a private page reaches is behind that page. -/
theorem Tables.behind_of_translate {va x : ℕ} (h : Tables k s.mem s.pmaps) (hy : s.pmaps y = some r)
    (hP : PrivatePage k (va % 2 ^ 48 / 4096)) (hx : translate s.mem r va = some x) :
    (view k s).behind (y, va % 2 ^ 48 / 4096) = some (x / 4096) := by
  obtain ⟨hbit, rfl⟩ := leaf_of_translate (h.space y r hy).wf hP.1 hx
  exact behind_eq_some.mpr ⟨r, hy, hP, ne_zero_of_bit hbit, by dsimp only; omega⟩

/-- Storing where a page leads changes no table. -/
theorem store_maps {va x w : ℕ} (h : Sound k s) (hy : s.pmaps y = some r) (hP : PrivatePage k (va % 2 ^ 48 / 4096))
    (hx : translate s.mem r va = some x) (ho : LawfulFrames.owned A (x / 4096)) :
    Tables k (Function.update s.mem x w) s.pmaps ∧
      Maps ∅ (view k s) (view k { s with mem := Function.update s.mem x w }) ∧
      ∀ z, z ≠ y → Untouched k s (Function.update s.mem x w) z := by
  have hbehind := h.tables.behind_of_translate hy hP hx
  have hchange : ChangesIn (x / 4096) s.mem (Function.update s.mem x w) := by
    intro z hz
    rw [Function.update_of_ne]
    rintro rfl
    exact hz rfl
  obtain ⟨htables, hsame, hkept⟩ := h.tables.changesIn (h.exclusive.behind_tables _ _ hbehind ho) hchange
  have hview : view k { s with mem := Function.update s.mem x w } = view k s :=
    view_ext rfl hsame fun p => behind_congr rfl fun r hr hP => (hkept p.1 r hr).leaves p.2 hP.1
  refine ⟨htables, hview.symm ▸ h.exclusive.stays, fun z hz => ⟨fun r hr => hkept z r hr, fun P f x' hb hof hx' => ?_⟩⟩
  refine hchange x' fun he => hz ?_
  rw [← hx', he] at hb
  exact (Prod.mk.inj (h.exclusive.behind_inj _ _ _ hb hbehind ho)).1

section Step

theorem Untouched.refl (h : Sound k s) (y : ℕ) : Untouched k s s.mem y where
  kept r hy := ⟨h.tables.space y r hy, fun _ _ _ => ⟨.rfl, fun _ => rfl⟩, fun _ _ => rfl⟩
  memory _ _ _ _ _ _ := rfl

/-- A call changes who has the frames, and leaves the other spaces as they are. -/
theorem Sound.step {a : Action} (h : Sound k s) (hs : Step k s a s') :
    Sound k s' ∧ FrameOwnership.Step {f | LawfulFrames.owned A f} (view k s) a.change (view k s') ∧
      ∀ y r, (a.space = y → a.call = .enable) → s.pmaps y = some r → s'.pmaps y = some r ∧ Untouched k s s'.mem y := by
  have hother {y : ℕ} (hne : a.call ≠ .enable) (hy : a.space = y → a.call = .enable) : y ≠ a.space :=
    fun he => hne (hy he.symm)
  obtain ⟨core, space, call⟩ := a
  cases call with
  | create =>
    obtain ⟨-, hnone, hs⟩ := hs
    obtain ⟨htables, hmaps, hkept⟩ := create_maps h hnone hs
    exact ⟨⟨htables, h.exclusive.maps hmaps⟩, hmaps, fun y r _ hy => hkept y r hy⟩
  | enable =>
    obtain ⟨-, rfl⟩ := hs
    exact ⟨⟨h.tables, h.exclusive⟩, h.exclusive.stays, fun y r _ hy => ⟨hy, .refl h y⟩⟩
  | kmmap addr size flags =>
    obtain ⟨r, m, hin, hflags, hrange, hrun, rfl⟩ := hs
    obtain ⟨htables, hmaps, hkept⟩ := kmmap_maps h hin.1 hflags hrange hrun
    exact ⟨⟨htables, h.exclusive.maps hmaps⟩, hmaps, fun y r hq hy => ⟨hy, hkept y (hother nofun hq)⟩⟩
  | kmunmap addr size direction =>
    obtain ⟨r, m, freed, hin, hrange, hsafe, hmapped, hrun, rfl⟩ := hs
    obtain ⟨htables, hunmaps, hkept⟩ := kmunmap_unmaps h hin.1 rfl hrange hsafe hmapped hrun
    exact ⟨⟨htables, h.exclusive.unmaps hunmaps⟩, hunmaps, fun y r hq hy => ⟨hy, hkept y (hother nofun hq)⟩⟩
  | store va w =>
    obtain ⟨r, x, hin, hP, hx, ho, rfl⟩ := hs
    obtain ⟨htables, hmaps, hkept⟩ := store_maps (w := w) h hin.1 hP hx ho
    exact ⟨⟨htables, h.exclusive.maps hmaps⟩, hmaps, fun y r hq hy => ⟨hy, hkept y (hother nofun hq)⟩⟩

/-- The loader's tables, before any core has an address space of its own. -/
structure Start (k : Loader) (s : System A) : Prop where
  kernel : KernelTables k s.mem
  none : ∀ y, s.pmaps y = none
  apart : ∀ f, Spare s.frames f → ¬ KernelFrame k s.mem f

theorem Start.sound (h : Start k s) : Sound k s := by
  have hbehind {p : ℕ × ℕ} {f : ℕ} (hf : (view k s).behind p = some f) : False := by
    obtain ⟨r, hr, -⟩ := behind_eq_some.mp hf
    rw [h.none] at hr
    cases hr
  refine ⟨⟨h.kernel, fun y r hy => ?_, fun y z r r' hy => ?_⟩, fun f hf ht => ?_, fun p f hf => (hbehind hf).elim,
    fun p f hf => (hbehind hf).elim, fun p q f hf => (hbehind hf).elim⟩
  · rw [h.none] at hy
    cases hy
  · rw [h.none] at hy
    cases hy
  · obtain hk | ⟨y, r, hy, -⟩ := ht
    · exact h.apart f hf hk
    · rw [h.none] at hy
      cases hy

theorem Sound.run (h₀ : Sound k s₀) (hrun : Run (Step k) s₀ h s) :
    Sound k s ∧ Run (FrameOwnership.Step {f | LawfulFrames.owned A f}) (view k s₀) (h.map Action.change) (view k s) := by
  refine hrun.invariant (fun h s => Sound k s ∧ Run (FrameOwnership.Step {f | LawfulFrames.owned A f}) (view k s₀)
    (h.map Action.change) (view k s)) ⟨h₀, .nil⟩ ?_
  rintro h s a s' ⟨hs, hr⟩ hstep
  obtain ⟨hs', hchange, -⟩ := hs.step hstep
  rw [List.map_append]
  exact ⟨hs', .snoc _ _ _ _ hr hchange⟩

/-- A call of the space `y` other than to load it. -/
def Busy (y : ℕ) (a : Action) : Prop := a.space = y ∧ a.call ≠ .enable

/-- While the other spaces run, a space keeps its pages and what is behind them. -/
theorem Sound.quiet (h₁ : Sound k s₁) (hy : s₁.pmaps y = some r)
    (hrun : Run (fun s a s' => Step k s a s' ∧ ¬ Busy y a) s₁ h' s) :
    Sound k s ∧ s.pmaps y = some r ∧
      (∀ P, TreePage P → leaf s.mem (frameOf r) P = leaf s₁.mem (frameOf r) P) ∧
      ∀ P f x, (view k s₁).behind (y, P) = some f → LawfulFrames.owned A f → x / 4096 = f → s.mem x = s₁.mem x := by
  refine hrun.invariant (fun _ s => Sound k s ∧ s.pmaps y = some r ∧
    (∀ P, TreePage P → leaf s.mem (frameOf r) P = leaf s₁.mem (frameOf r) P) ∧
    ∀ P f x, (view k s₁).behind (y, P) = some f → LawfulFrames.owned A f → x / 4096 = f → s.mem x = s₁.mem x)
    ⟨h₁, hy, fun _ _ => rfl, fun _ _ _ _ _ _ => rfl⟩ ?_
  rintro h s a s' ⟨hs, hys, hleaves, hmem⟩ ⟨hstep, hquiet⟩
  obtain ⟨hs', -, hothers⟩ := hs.step hstep
  obtain ⟨hys', hun⟩ := hothers y r (fun he => by_contra fun hne => hquiet ⟨he, hne⟩) hys
  refine ⟨hs', hys', fun P hP => (((hun.kept r hys).leaves P hP).trans (hleaves P hP)), fun P f x hb ho hx => ?_⟩
  have hbs : (view k s).behind (y, P) = some f := by
    obtain ⟨r', hr', hP, hne, hf⟩ := behind_eq_some.mp hb
    obtain rfl := Option.some.inj (hy.symm.trans hr')
    refine behind_eq_some.mpr ⟨r, hys, hP, ?_, ?_⟩
    · rwa [hleaves P hP.1]
    · rwa [hleaves P hP.1]
  exact (hun.memory P f x hbs ho hx).trans (hmem P f x hb ho hx)

end Step

section Spaces

/-- A frame of the allocator that a private page reaches is not free, holds no table, and is reached through no other
page, in this space or another. -/
theorem Sound.reaches (h : Sound k s) {va x : ℕ} (hy : s.pmaps y = some r)
    (hP : PrivatePage k (va % 2 ^ 48 / 4096)) (hx : translate s.mem r va = some x)
    (ho : LawfulFrames.owned A (x / 4096)) :
    ¬ Spare s.frames (x / 4096) ∧ x / 4096 ∉ tablesIn k s.mem s.pmaps ∧
      ∀ z r' va' x', s.pmaps z = some r' → PrivatePage k (va' % 2 ^ 48 / 4096) → translate s.mem r' va' = some x' →
        x' / 4096 = x / 4096 → z = y ∧ va' % 2 ^ 48 / 4096 = va % 2 ^ 48 / 4096 := by
  have hbehind := h.tables.behind_of_translate hy hP hx
  refine ⟨h.exclusive.behind_free _ _ hbehind ho, h.exclusive.behind_tables _ _ hbehind ho, ?_⟩
  intro z r' va' x' hz hP' hx' he
  have hbehind' := h.tables.behind_of_translate hz hP' hx'
  exact Prod.mk.inj (h.exclusive.behind_inj _ _ _ (he ▸ hbehind') hbehind ho)

end Spaces

section Block

theorem block_few : FrameAllocator.block.length < 20 := by decide

theorem block_region : ∀ r ∈ FrameAllocator.block, FrameAllocator.Region r := fun r hr =>
  FrameAllocator.block_usable.region r hr

theorem block_low : ∀ r ∈ FrameAllocator.block, r.base + r.length ≤ 0x7ffff000 := by decide

theorem block_disjoint : FrameAllocator.block.Pairwise fun r s =>
    r.base + r.length ≤ s.base ∨ s.base + s.length ≤ r.base := by decide

def blockMap : MemoryMap := ⟨FrameAllocator.block, block_few, block_region, block_low, block_disjoint⟩

theorem block_tables : FrameAllocator.Tables blockMap.regions
    (FrameAllocator.initPmm (FrameAllocator.start FrameAllocator.block fun _ => 0)) :=
  .run FrameAllocator.block_usable FrameAllocator.block_initPmm

theorem block_once : (FrameAllocator.initPmm (FrameAllocator.start FrameAllocator.block fun _ => 0)).once = true := rfl

theorem block_spare {s : Ready blockMap} {f : ℕ} (h : Spare s f) : 0x100 ≤ f := by
  obtain ⟨i, hi, -⟩ := Spare.owned h
  obtain ⟨b, hb, hcontains⟩ := mem_of_nth hi
  obtain rfl : b = ⟨0x100, 0x40⟩ := List.mem_singleton.mp hb
  exact hcontains.1

theorem loader_low : 1 < 2 ^ 19 := by decide

/-- The kernel in the last slot. -/
def blockLoader : Loader := ⟨1, fun i => i == 511, loader_low, rfl, rfl⟩

def loaderMem : PhysMem := fun x => if x = 0x1ff8 then 0x2003 else 0

theorem loader_path {q : List ℕ} (hq : Shared blockLoader q) (hl : Live pageTables loaderMem 1 q) :
    q = [] ∨ q = [511] := by
  cases q with
  | nil => exact .inl rfl
  | cons i p =>
    obtain rfl : i = 511 := eq_of_beq (hq.head i rfl)
    cases p with
    | nil => exact .inr rfl
    | cons j p =>
      have hchild : frameOf (loaderMem (4096 * 1 + 8 * 511)) = 2 := by decide
      have hne := hl.2.1
      rw [pageTables_cell, pageTables_child, pageTables_cell, hchild, loaderMem] at hne
      exact absurd (if_neg (by omega)) hne

theorem loader_kernel : KernelTables blockLoader loaderMem := by
  refine ⟨fun i _ hi => ?_, fun i _ _ _ hi => ?_, fun q i hqi hl hne => ?_, fun q r hq hr hlq hlr he => ?_⟩
  · obtain rfl : i = 511 := eq_of_beq hi
    decide
  · have hi' : i ≠ 511 := ne_of_beq_false hi
    exact if_neg (by unfold blockLoader; omega)
  · rcases loader_path (hqi.initial (List.prefix_append _ _)) hl with rfl | rfl
    · obtain rfl : i = 511 := eq_of_beq (hqi.head i rfl)
      decide
    · have hframe : follow pageTables loaderMem 1 [511] = 2 := by decide
      rw [show blockLoader.dir = 1 from rfl, hframe, loaderMem] at hne
      exact absurd (if_neg (by omega)) hne
  · rcases loader_path hq hlq with rfl | rfl <;> rcases loader_path hr hlr with rfl | rfl
    · rfl
    · exact absurd he (by decide)
    · exact absurd he (by decide)
    · rfl

def blockSystem : System (Ready blockMap) := ⟨loaderMem, ⟨_, block_tables, block_once⟩, 0, fun _ => none, fun _ => none⟩

theorem blockSystem_start : Start blockLoader blockSystem := by
  refine ⟨loader_kernel, fun _ => rfl, fun f hf => ?_⟩
  have hlow := block_spare hf
  rintro ⟨q, hq, hl, rfl⟩
  rcases loader_path hq hl with rfl | rfl
  · exact absurd hlow (by decide)
  · exact absurd hlow (by decide)

def withSpace (core : ℕ) (s : System (Ready blockMap)) : System (Ready blockMap) := (s.create blockLoader core).getD s

def withPage (r : ℕ) (s : System (Ready blockMap)) : System (Ready blockMap) :=
  s.after ((kmmap 0x5000 0x1000 2 (s.machine r)).toOption.getD (s.machine r))

/-- Two cores with a space each. The first one has a page with a word in it. -/
def written : System (Ready blockMap) :=
  let s := withPage 0x100000 (withSpace 1 (withSpace 0 blockSystem))
  { s with mem := Function.update s.mem 0x105008 7 }

theorem step_withSpace {core : ℕ} {s : System (Ready blockMap)} (hnone : s.pmaps core = none)
    (hok : (s.create blockLoader core).isSome = true) : Step blockLoader s ⟨core, core, .create⟩ (withSpace core s) := by
  obtain ⟨s', hs'⟩ := Option.isSome_iff_exists.mp hok
  refine ⟨rfl, hnone, ?_⟩
  rw [withSpace, hs', Option.getD_some]

theorem only_page (P : ℕ) (h : Meets 0x5000 0x1000 P) : P = 5 := by
  rw [meets_iff] at h
  omega

theorem step_withPage {core : ℕ} {s : System (Ready blockMap)} (hin : s.In core core r)
    (hok : (kmmap 0x5000 0x1000 2 (s.machine r)).isOk = true) :
    Step blockLoader s ⟨core, core, .kmmap 0x5000 0x1000 2⟩ (withPage r s) := by
  refine ⟨r, _, hin, ⟨by decide, by decide⟩, ⟨by decide, fun P hP => ?_, fun P hP => ?_⟩,
    Loops.ok_of_isOk hok (s.machine r), rfl⟩
  · rw [only_page P hP]
    decide
  · rw [only_page P hP]
    decide

theorem written_run : Run (Step blockLoader) blockSystem
    [⟨0, 0, .create⟩, ⟨1, 1, .create⟩, ⟨0, 0, .kmmap 0x5000 0x1000 2⟩, ⟨0, 0, .store 0x5008 7⟩] written := by
  have h₀ : (blockSystem.create blockLoader 0).isSome = true := by decide +kernel
  have hnone : (withSpace 0 blockSystem).pmaps 1 = none := by decide +kernel
  have h₁ : ((withSpace 0 blockSystem).create blockLoader 1).isSome = true := by decide +kernel
  have hin : (withSpace 1 (withSpace 0 blockSystem)).In 0 0 0x100000 := ⟨by decide +kernel, by decide +kernel⟩
  have h₂ : (kmmap 0x5000 0x1000 2 ((withSpace 1 (withSpace 0 blockSystem)).machine 0x100000)).isOk = true := by
    decide +kernel
  have hpage : translate (withPage 0x100000 (withSpace 1 (withSpace 0 blockSystem))).mem 0x100000 0x5008 =
    some 0x105008 := by decide +kernel
  have hnumber : nth (blockMap.regions.map FrameAllocator.frames) 5 = some 0x105 := by decide
  have howned : Ready.Owned blockMap 0x105 := ⟨5, hnumber, by decide⟩
  refine .snoc [_, _, _] _ _ _ (.snoc [_, _] _ _ _ (.snoc [_] _ _ _ (.snoc [] _ _ _ .nil
    (step_withSpace rfl h₀)) (step_withSpace hnone h₁)) (step_withPage hin h₂)) ?_
  exact ⟨0x100000, 0x105008, ⟨by decide +kernel, by decide +kernel⟩, ⟨by decide, rfl⟩, hpage, howned, rfl⟩

/-- The second space gets a page at the same address. -/
theorem second_run : Run (fun s a s' => Step blockLoader s a s' ∧ ¬ Busy 0 a) written
    [⟨1, 1, .kmmap 0x5000 0x1000 2⟩] (withPage 0x101000 written) := by
  have hin : written.In 1 1 0x101000 := ⟨by decide +kernel, by decide +kernel⟩
  have hok : (kmmap 0x5000 0x1000 2 (written.machine 0x101000)).isOk = true := by decide +kernel
  exact .snoc [] _ _ _ .nil ⟨step_withPage hin hok, fun hb => absurd hb.1 (by decide)⟩

end Block

end Raccoon.AddressSpaces
