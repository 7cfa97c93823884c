import Raccoon.AddressSpaces
import Raccoon.MemoryLocks

/-!
The calls that create, load, map and unmap, by the cores in any order: a frame
of the allocator is behind a page of at most one space.
-/

namespace Raccoon.AddressSpaces

open FrameOwnership FrameSupply Mmu Runs TableTree

variable {A : Type} [FrameSource A]

/-- The range stays in the address space, in slots that each space has for itself. -/
structure PrivateRange (k : Loader) (base size : ℕ) : Prop where
  fits : base % 2 ^ 48 + size ≤ 2 ^ 48
  slot : ∀ P, Meets base size P → P / 2 ^ 27 ≠ recursiveMappingEntry
  shared : ∀ P, Meets base size P → k.kernel (P / 2 ^ 27) = false

inductive Call where
  | create
  | enable
  | kmmap (addr size flags : ℕ)
  | kmunmap (addr size : ℕ) (direction : MemDirection)
  | store (va w : ℕ)

/-- A call of a core, in the space that the core `space` has created. -/
structure Action where
  core : ℕ
  space : ℕ
  call : Call

/-- The pages a call is about. -/
def Action.change (a : Action) : Change (ℕ × ℕ) :=
  match a.call with
  | .create | .enable | .store _ _ => .maps ∅
  | .kmmap addr size _ => .maps {p | p.1 = a.space ∧ Meets addr size p.2}
  | .kmunmap addr size direction =>
    .unmaps {p | p.1 = a.space ∧ Inside (rangeBase addr size direction % 2 ^ 48) size p.2}

/-- The core has loaded the page directory `r` that the core `y` has created. -/
def System.In (s : System A) (core y r : ℕ) : Prop := s.pmaps y = some r ∧ s.cr3 core = some r

/-- A call that returns. What is unmapped has been mapped, in ranges that `kmunmap` is exact on, and what is stored
goes to memory that the allocator has given out. -/
def Step [LawfulFrames A] (k : Loader) (s : System A) (a : Action) (s' : System A) : Prop :=
  match a.call with
  | .create => a.space = a.core ∧ s.pmaps a.core = none ∧ s.create k a.core = some s'
  | .enable => s.pmaps a.space ≠ none ∧ s' = s.enable a.core a.space
  | .kmmap addr size flags => ∃ r m, s.In a.core a.space r ∧ Attributes flags ∧ PrivateRange k addr size ∧
      kmmap addr size flags (s.machine r) = .ok m ∧ s' = s.after m
  | .kmunmap addr size direction => ∃ r m freed, s.In a.core a.space r ∧
      PrivateRange k (rangeBase addr size direction % 2 ^ 48) size ∧
      UnmapSafe (s.machine r) (rangeBase addr size direction % 2 ^ 48) size ∧
      (0 < size → ∀ P, Meets (rangeBase addr size direction % 2 ^ 48) size P → leaf s.mem (frameOf r) P ≠ 0) ∧
      kmunmap addr size direction (s.machine r) = .ok (m, freed) ∧ s' = s.after m
  | .store va w => ∃ r x, s.In a.core a.space r ∧ PrivatePage k (va % 2 ^ 48 / 4096) ∧
      translate s.mem r va = some x ∧ LawfulFrames.owned A (x / 4096) ∧
      s' = { s with mem := Function.update s.mem x w }

/-- Who has the frames: the pages are those that the spaces have for themselves. -/
def view (k : Loader) (s : System A) : Memory (ℕ × ℕ) ℕ where
  free := {f | Spare s.frames f}
  tables := tablesIn k s.mem s.pmaps
  behind p := (s.pmaps p.1).bind fun r =>
    if PrivatePage k p.2 ∧ leaf s.mem (frameOf r) p.2 ≠ 0 then some (frameOf (leaf s.mem (frameOf r) p.2)) else none

variable {k : Loader} {s s' s₀ s₁ : System A} {y r P f : ℕ} {p : ℕ × ℕ} {h : List Action}

section View

theorem behind_eq_some : (view k s).behind p = some f ↔ ∃ r, s.pmaps p.1 = some r ∧ PrivatePage k p.2 ∧
    leaf s.mem (frameOf r) p.2 ≠ 0 ∧ frameOf (leaf s.mem (frameOf r) p.2) = f := by
  simp only [view, Option.bind_eq_some_iff, Option.ite_none_right_eq_some, Option.some.injEq, and_assoc]

theorem behind_eq_none (hy : s.pmaps p.1 = some r) (hP : PrivatePage k p.2) :
    (view k s).behind p = none ↔ leaf s.mem (frameOf r) p.2 = 0 := by
  simp [view, hy, hP]

theorem behind_off (hP : ¬ PrivatePage k p.2) : (view k s).behind p = none := by
  cases hb : (view k s).behind p with
  | none => rfl
  | some f =>
    obtain ⟨r, -, hP', -⟩ := behind_eq_some.mp hb
    exact absurd hP' hP

theorem behind_of_dead {q : ℕ × ℕ} (hy : s.pmaps q.1 = some r)
    (hdead : PrivatePage k q.2 → ¬ Live pageTables s.mem (frameOf r) (pagePath q.2)) : (view k s).behind q = none := by
  by_cases hP : PrivatePage k q.2
  · exact (behind_eq_none hy hP).mpr (if_neg (hdead hP))
  · exact behind_off hP

theorem behind_congr (hy : s'.pmaps p.1 = s.pmaps p.1) (hleaf : ∀ r, s.pmaps p.1 = some r → PrivatePage k p.2 →
    leaf s'.mem (frameOf r) p.2 = leaf s.mem (frameOf r) p.2) : (view k s').behind p = (view k s).behind p := by
  by_cases hP : PrivatePage k p.2
  · cases hr : s.pmaps p.1 with
    | none => simp [view, hy, hr]
    | some r => simp only [view, hy, hr, Option.bind_some, hleaf r hr hP]
  · rw [behind_off hP, behind_off hP]

theorem view_ext (hframes : s'.frames = s.frames) (htables : tablesIn k s'.mem s'.pmaps = tablesIn k s.mem s.pmaps)
    (hbehind : ∀ p, (view k s').behind p = (view k s).behind p) : view k s' = view k s :=
  Memory.ext (by simp only [view, hframes]) htables (funext hbehind)

theorem view_congr (hmem : s'.mem = s.mem) (hframes : s'.frames = s.frames) (hpmaps : s'.pmaps = s.pmaps) :
    view k s' = view k s := by
  unfold view
  rw [hmem, hframes, hpmaps]

end View

variable [LawfulFrames A]

/-- The tables of the spaces are in order, and the frames of the allocator are in one place each. -/
structure Sound (k : Loader) (s : System A) : Prop where
  tables : Tables k s.mem s.pmaps
  exclusive : Exclusive {f | LawfulFrames.owned A f} (view k s)

theorem spare_of_nthFrame {s : A} {i a : ℕ} (ha : nthFrame s i = some a) : Spare s (a / 4096) := by
  have haligned := (LawfulFrames.frame s i a ha).1
  have hpage : 4096 * (a / 4096) = a := by omega
  exact ⟨i, by rw [hpage, ha]⟩

theorem Sound.fresh (h : Sound k s) (hy : s.pmaps y = some r) : Fresh (s.machine r) where
  aligned n a ha := ⟨(LawfulFrames.frame s.frames n a ha).1, (LawfulFrames.frame s.frames n a ha).2.1⟩
  apart _ a ha ht := h.exclusive.free_tables (a / 4096) (spare_of_nthFrame ha) (.inr ⟨y, r, hy, ht⟩)
  distinct i j a hi hj := LawfulFrames.once s.frames i j a hi hj

/-- Neither the tables of a space nor the memory of the allocator behind its pages have changed. -/
structure Untouched (k : Loader) (s : System A) (mem' : PhysMem) (z : ℕ) : Prop where
  kept : ∀ r, s.pmaps z = some r → Kept k (frameOf r) s.mem mem'
  memory : ∀ P f x, (view k s).behind (z, P) = some f → LawfulFrames.owned A f → x / 4096 = f → mem' x = s.mem x

/-- A call in the space of `y` that is confined to it, and that maps or unmaps pages of that space. -/
theorem Sound.confined {m : Machine A} {free : Set ℕ} (h : Sound k s) (hy : s.pmaps y = some r)
    (hfree : free ⊆ {f | Spare s.frames f}) (hc : Confined k free (frameOf r) s.mem m.mem) :
    Tables k m.mem s.pmaps ∧ tablesIn k s.mem s.pmaps ⊆ tablesIn k m.mem s.pmaps ∧
      (∀ t ∈ tablesIn k m.mem s.pmaps, t ∈ tablesIn k s.mem s.pmaps ∨ t ∈ free ∧ TableFrame m.mem (frameOf r) t) ∧
      (∀ p, p.1 ≠ y → (view k (s.after m)).behind p = (view k s).behind p) ∧ ∀ z, z ≠ y → Untouched k s m.mem z := by
  have hfree' : ∀ t ∈ free, t ∉ tablesIn k s.mem s.pmaps := fun t ht => h.exclusive.free_tables t (hfree ht)
  have hkept {z r' : ℕ} (hz : s.pmaps z = some r') (hne : z ≠ y) := h.tables.kept hfree' hy hc hz hne
  refine ⟨h.tables.confined hfree' hy hc, h.tables.grown hfree' hy hc, fun t ht => h.tables.new hfree' hy hc ht,
    fun p hp => behind_congr rfl fun r' hz hP => (hkept hz hp).leaves p.2 hP.1,
    fun z hne => ⟨fun r' hz => hkept hz hne, ?_⟩⟩
  rintro P f x hb ho rfl
  have htable : ¬ TableFrame s.mem (frameOf r) (x / 4096) := fun ht =>
    h.exclusive.behind_tables _ _ hb ho (.inr ⟨y, r, hy, ht⟩)
  have hspare : x / 4096 ∉ free := fun hf => h.exclusive.behind_free _ _ hb ho (hfree hf)
  exact hc.rest x (hc.not_tableFrame htable hspare) hspare

section Map

variable {m : Machine A} {addr size flags lo hi n : ℕ}

omit [LawfulFrames A] in
theorem PrivateRange.page (h : PrivateRange k addr size) (hP : Meets addr size P) : PrivatePage k P :=
  ⟨hP.tree h.fits h.slot, h.shared P hP⟩

theorem confined_of_mapped (h : Sound k s) (hy : s.pmaps y = some r)
    (hm : Mapped (s.machine r).grabKmmap m flags lo hi n) (he : Extends flags (s.machine r) m)
    (hpages : ∀ P, TreePage P → lo ≤ P → P < hi → PrivatePage k P) :
    Confined k {f | Spare s.frames f} (frameOf r) s.mem m.mem := by
  have hroot : m.root = frameOf r := congrArg frameOf hm.cr3
  have hdrawn {t : ℕ} (hd : Drawn (s.machine r).grabKmmap n t) : Spare s.frames t := by
    obtain ⟨i, -, a, ha, rfl⟩ := hd
    exact spare_of_nthFrame ha
  refine ⟨hroot ▸ hm.wf, fun t ht => hroot ▸ hm.grown t ht, fun t ht => ?_, fun i hi hk => ?_, fun P hP hnot => ?_,
    fun x hx hfree => ?_⟩
  · exact (hm.tables t (hroot ▸ ht)).imp_right hdrawn
  · have hused : pathEntry s.mem (frameOf r) [] i ≠ 0 := by
      rw [pathEntry, if_pos live_nil, follow_nil, (h.tables.space y r hy).slots i hi hk]
      exact h.tables.kernel.used i hi hk
    have hkept := he.kept [] i proper_nil hi hused
    rw [pathEntry, if_pos live_nil, pathEntry, if_pos live_nil, follow_nil, follow_nil, hroot] at hkept
    exact hkept
  · have hout : P < lo ∨ hi ≤ P := by
      by_contra hc
      exact hnot (hpages P hP (by omega) (by omega))
    have hkept := hm.kept P hP (by tauto)
    rw [hroot] at hkept
    exact hkept
  · exact hm.cleared.rest x (by rwa [hroot]) fun hd => hfree (hdrawn hd)

/-- What `kmmap` does, in terms of frames. -/
theorem maps_of_mapped (h : Sound k s) (hy : s.pmaps y = some r) (hflags : EntryFlags flags)
    (hm : Mapped (s.machine r).grabKmmap m flags lo hi n) (he : Extends flags (s.machine r) m)
    (hpages : ∀ P, TreePage P → lo ≤ P → P < hi → PrivatePage k P) :
    Tables k m.mem s.pmaps ∧
      Maps {p | p.1 = y ∧ TreePage p.2 ∧ lo ≤ p.2 ∧ p.2 < hi} (view k s) (view k (s.after m)) ∧
      ∀ z, z ≠ y → Untouched k s m.mem z := by
  have hroot : m.root = frameOf r := congrArg frameOf hm.cr3
  obtain ⟨htables, hgrown, hnew, hothers, huntouched⟩ :=
    h.confined hy subset_rfl (confined_of_mapped h hy hm he hpages)
  have hframe {i a : ℕ} (ha : nthFrame s.frames i = some a) : frameOf (a ||| flags ||| 1) = a / 4096 := by
    obtain ⟨haligned, hlt, -⟩ := LawfulFrames.frame s.frames i a ha
    exact (hflags.link haligned hlt).2
  have hleaf {p : ℕ × ℕ} (hp : p.1 = y ∧ TreePage p.2 ∧ lo ≤ p.2 ∧ p.2 < hi) (hnone : (view k s).behind p = none) :
      leaf s.mem (frameOf r) p.2 = 0 :=
    (behind_eq_none (hp.1.symm ▸ hy) (hpages p.2 hp.2.1 hp.2.2.1 hp.2.2.2)).mp hnone
  have hgiven {p : ℕ × ℕ} (hp : p.1 = y ∧ TreePage p.2 ∧ lo ≤ p.2 ∧ p.2 < hi) (hnone : (view k s).behind p = none) :
      ∃ i < n, ∃ a, nthFrame s.frames i = some a ∧ ¬ TableFrame m.mem (frameOf r) (a / 4096) ∧
        leaf m.mem (frameOf r) p.2 = a ||| flags ||| 1 ∧ (view k (s.after m)).behind p = some (a / 4096) := by
    obtain ⟨i, hi, a, ha, hnot, he⟩ := hm.new p.2 hp.2.1 hp.2.2.1 hp.2.2.2 (hleaf hp hnone)
    rw [hroot] at hnot he
    have hne : leaf m.mem (frameOf r) p.2 ≠ 0 := by
      rw [he]
      exact ne_zero_of_bit (b := 0) (by simp)
    exact ⟨i, hi, a, ha, hnot, he, behind_eq_some.mpr ⟨r, hp.1.symm ▸ hy,
      hpages p.2 hp.2.1 hp.2.2.1 hp.2.2.2, hne, (congrArg frameOf he).trans (hframe ha)⟩⟩
  refine ⟨htables, ⟨fun p hp => ?_, fun p hp hnone => ?_, fun p hp q hq hpn hqn he => ?_, hgrown,
    fun t ht => (hnew t ht).imp_right And.left, fun f hf => spare_later hm.supply hf, fun f hf ht => ?_⟩, huntouched⟩
  · by_cases hy' : p.1 = y
    · refine behind_congr rfl fun r' hr' hP => ?_
      obtain rfl := Option.some.inj (hy.symm.trans (hy' ▸ hr'))
      have hout : p.2 < lo ∨ hi ≤ p.2 ∨ leaf s.mem (frameOf r) p.2 ≠ 0 := by
        by_contra hc
        exact hp ⟨hy', hP.1, by omega, by omega⟩ ((behind_eq_none hr' hP).mpr (by tauto))
      have hkept := hm.kept p.2 hP.1 hout
      rw [hroot] at hkept
      exact hkept
    · exact hothers p hy'
  · obtain ⟨i, hi, a, ha, hnot, -, hbehind⟩ := hgiven hp hnone
    refine ⟨a / 4096, spare_of_nthFrame ha, hbehind, not_spare_of_drawn hm.supply hi ha, fun ht => ?_⟩
    rcases hnew _ ht with ht | ⟨-, ht⟩
    · exact h.exclusive.free_tables _ (spare_of_nthFrame ha) ht
    · exact hnot ht
  · obtain ⟨i, -, a, ha, -, hleafp, hbehindp⟩ := hgiven hp hpn
    obtain ⟨j, -, b, hb, -, hleafq, hbehindq⟩ := hgiven hq hqn
    have hab : a / 4096 = b / 4096 := Option.some.inj (hbehindp.symm.trans (he.trans hbehindq))
    have haligned := (LawfulFrames.frame s.frames i a ha).1
    have hbligned := (LawfulFrames.frame s.frames j b hb).1
    obtain rfl : a = b := by omega
    refine Prod.ext (hp.1.trans hq.1.symm) (hm.distinct p.2 q.2 hp.2.1 hq.2.1 hp.2.2.1 hp.2.2.2 hq.2.2.1 hq.2.2.2
      (hleaf hp hpn) (hleaf hq hqn) ?_)
    rw [hroot, hleafp, hleafq]
  · rcases hnew f ht with ht | ⟨-, ht⟩
    · exact h.exclusive.free_tables f (spare_later hm.supply hf) ht
    · obtain ⟨i, hi⟩ := hf
      have hapart := hm.fresh.apart i (4096 * f) hi
      rw [Nat.mul_div_cancel_left f (by decide), hroot] at hapart
      exact hapart ht

theorem kmmap_maps (h : Sound k s) (hy : s.pmaps y = some r) (hflags : Attributes flags)
    (hin : PrivateRange k addr size) (hrun : kmmap addr size flags (s.machine r) = .ok m) :
    Tables k m.mem s.pmaps ∧ Maps {p | p.1 = y ∧ Meets addr size p.2} (view k s) (view k (s.after m)) ∧
      ∀ z, z ≠ y → Untouched k s m.mem z := by
  have hsize : size < 2 ^ 64 := by
    have := hin.fits
    omega
  obtain hfail | ⟨m₁, n, hrun', hm, he⟩ := kmmap_cases (h.tables.space y r hy).wf (h.fresh hy) (kmmap_lock hrun).1
    hflags.entryFlags hsize fun P _ hP => hin.slot P hP
  · rw [hrun] at hfail
    cases hfail
  · obtain rfl := Except.ok.inj (hrun.symm.trans hrun')
    have hend : visitedEnd addr size = (addr % 2 ^ 48 + max size 1 - 1) / 4096 + 1 := by
      have := hin.fits
      unfold visitedEnd
      omega
    have hpages : {p : ℕ × ℕ | p.1 = y ∧ TreePage p.2 ∧ addr % 2 ^ 48 / 4096 ≤ p.2 ∧ p.2 < visitedEnd addr size} =
        {p | p.1 = y ∧ Meets addr size p.2} := by
      ext p
      rw [Set.mem_ofPred_eq, Set.mem_ofPred_eq, meets_iff, hend]
      exact and_congr_right fun _ => ⟨And.right, fun hp => ⟨(hin.page (meets_iff.mpr hp)).1, hp⟩⟩
    have hprivate : ∀ P, TreePage P → addr % 2 ^ 48 / 4096 ≤ P → P < visitedEnd addr size → PrivatePage k P :=
      fun P _ hlo hhi => hin.page (meets_iff.mpr ⟨hlo, hend ▸ hhi⟩)
    obtain ⟨htables, hmaps, huntouched⟩ := maps_of_mapped h hy hflags.entryFlags hm he hprivate
    have hafter : view k (s.after m₁.releaseKmmap) = view k (s.after m₁) := by
      refine view_congr ?_ ?_ ?_
      · rw [System.after_mem, System.after_mem, Machine.releaseKmmap_mem]
      · rw [System.after_frames, System.after_frames, Machine.releaseKmmap_frames]
      · rw [System.after_pmaps, System.after_pmaps]
    rw [hafter, Machine.releaseKmmap_mem]
    exact ⟨htables, hpages ▸ hmaps, huntouched⟩

end Map

section Unmap

variable {m₀ m m' : Machine A} {addr size first stop base size₁ : ℕ} {direction : MemDirection} {freed : List ℕ}

/-- Frames that are given back one after the other, those of the allocator once each. -/
theorem spare_foldl {s : A} {fs : List ℕ} (hlt : ∀ f ∈ fs, f < 2 ^ 40)
    (hspare : ∀ f ∈ fs, LawfulFrames.owned A f → ¬ Spare s f)
    (honce : fs.Pairwise fun f g => LawfulFrames.owned A f → f ≠ g) (g : ℕ) :
    Spare (fs.foldl (fun s f => FrameSource.freeFrame (4096 * f) s) s) g ↔
      Spare s g ∨ LawfulFrames.owned A g ∧ g ∈ fs := by
  induction fs generalizing s with
  | nil => simp
  | cons f fs ih =>
    obtain ⟨hf, hlt⟩ := List.forall_mem_cons.mp hlt
    obtain ⟨hfspare, hspare⟩ := List.forall_mem_cons.mp hspare
    obtain ⟨hfonce, honce⟩ := List.pairwise_cons.mp honce
    rw [List.foldl_cons, List.mem_cons]
    by_cases hown : LawfulFrames.owned A f
    · have hgiven := LawfulFrames.given s f hown (hfspare hown)
      rw [ih hlt (fun x hx hox hsp => ?_) honce, hgiven g]
      · constructor
        · rintro ((rfl | hg) | hg)
          · exact .inr ⟨hown, .inl rfl⟩
          · exact .inl hg
          · exact .inr ⟨hg.1, .inr hg.2⟩
        · rintro (hg | ⟨ho, rfl | hg⟩)
          · exact .inl (.inr hg)
          · exact .inl (.inl rfl)
          · exact .inr ⟨ho, hg⟩
      · rcases (hgiven x).mp hsp with rfl | hsp
        · exact hfonce x hx hown rfl
        · exact hspare x hx hox hsp
    · have hforeign := LawfulFrames.foreign s f hown hf
      rw [ih hlt (fun x hx hox hsp => hspare x hx hox ((hforeign x).mp hsp)) honce, hforeign g]
      constructor
      · rintro (hg | hg)
        · exact .inl hg
        · exact .inr ⟨hg.1, .inr hg.2⟩
      · rintro (hg | ⟨ho, rfl | hg⟩)
        · exact .inl hg
        · exact absurd ho hown
        · exact .inr ⟨ho, hg⟩

/-- Memory that holds no table is as before. -/
def Outside (m₀ m : Machine A) : Prop := ∀ x, ¬ TableFrame m₀.mem m₀.root (x / 4096) → m.mem x = m₀.mem x

omit [LawfulFrames A] in
theorem kmunmapL1_outside {v : KmunmapVars A} {l4 l3 l2 l1 : ℕ} (h4 : l4 < 512) (hne : l4 ≠ recursiveMappingEntry)
    (h3 : l3 < 512) (h2 : l2 < 512) (h1 : l1 < 512) (hl : Live pageTables m₀.mem m₀.root [l4, l3, l2])
    (h : Unmapping m₀ first stop v.m v.freed) (hout : Outside m₀ v.m) :
    (kmunmapL1 l4 l3 l2 l1 v).Ends (fun _ => False) (fun r => Outside m₀ r.1) fun v' => Outside m₀ v'.m := by
  have hq : Proper [l4, l3, l2] := proper_of_index (by simp) (by simp [h3, h2]) h4 hne
  have hlv := (h.live _ hq).mpr hl
  unfold kmunmapL1
  by_cases hz : v.l0 = 0
  · have haddr := translate_l1 h.wf.self h4 h3 h2 h1 (h.wf.linked hq.length hq.index hlv)
    have hfollow : follow pageTables v.m.mem (frameOf v.m.cr3) [l4, l3, l2] = _ := h.follow _ hq hl
    rw [hfollow] at haddr
    generalize hx : 4096 * follow pageTables m₀.mem m₀.root [l4, l3, l2] + 8 * l1 = x at haddr
    have hstored : ∀ z, ¬ TableFrame m₀.mem m₀.root (z / 4096) → Function.update v.m.mem x 0 z = m₀.mem z := by
      intro z hz'
      have hxz : z ≠ x := by
        rintro rfl
        exact hz' ⟨_, hq, hl, by omega⟩
      rw [Function.update_of_ne hxz]
      exact hout z hz'
    have hstore : ((v.m.freeFrame (v.m.mem x)).store (craftAddr recursiveMappingEntry l4 l3 l2 (l1 * 8)) 0 :
        Loops.Outcome Stuck (Machine A × List ℕ) _) =
          .next { v.m.freeFrame (v.m.mem x) with mem := Function.update v.m.mem x 0 } :=
      Machine.store_of_translate 0 haddr
    rw [if_pos hz]
    dsimp only
    rw [Machine.load_of_translate haddr, Loops.Outcome.next_bind, hstore, Loops.Outcome.next_bind,
      Loops.Outcome.next_bind]
    generalize wsub v.size archPageSize = rest
    dsimp only
    by_cases hdone : rest < archPageSize
    · rw [if_pos hdone]
      exact hstored
    · rw [if_neg hdone]
      exact hstored
  · rw [if_neg hz, Loops.Outcome.next_bind]
    dsimp only
    split
    · exact hout
    · exact hout

omit [LawfulFrames A] in
/-- Inside one page table `kmunmap` writes that table only. -/
theorem kmunmap_outside (hwf : WellFormed m.mem m.root) (hbase : base = rangeBase addr size direction % 2 ^ 48)
    (hP : TreePage (base / 4096)) (hsize : size₁ = sizeFromPage (rangeBase addr size direction) size)
    (hlt : size₁ < 2 ^ 64) (hl : Live pageTables m.mem m.root (pagePath (base / 4096)))
    (hfit : firstWhole base + size₁ / 4096 ≤ 512 * (base / 4096 / 512 + 1))
    (hrun : kmunmap addr size direction m = .ok (m', freed)) : Outside m m' := by
  have hl0 : shiftr (rangeBase addr size direction) 12 0 = base % 4096 := by
    rw [shiftr_eq]
    omega
  rw [kmunmap, ← hsize, hl0, shiftr_eq, shiftr_eq, shiftr_eq, shiftr_eq] at hrun
  split at hrun
  case isTrue => exact (Prod.mk.inj (Except.ok.inj hrun)).1 ▸ fun _ _ => rfl
  case isFalse hsmall =>
    unfold archPageSize at hsmall
    have hpage : pageNumber (rangeBase addr size direction / 2 ^ 39 % 2 ^ 9)
        (rangeBase addr size direction / 2 ^ 30 % 2 ^ 9) (rangeBase addr size direction / 2 ^ 21 % 2 ^ 9)
        (rangeBase addr size direction / 2 ^ 12 % 2 ^ 9) = base / 4096 := by
      unfold pageNumber
      omega
    have h4 : rangeBase addr size direction / 2 ^ 39 % 2 ^ 9 < 512 := Nat.mod_lt _ (by decide)
    have h3 : rangeBase addr size direction / 2 ^ 30 % 2 ^ 9 < 512 := Nat.mod_lt _ (by decide)
    have h2 : rangeBase addr size direction / 2 ^ 21 % 2 ^ 9 < 512 := Nat.mod_lt _ (by decide)
    have h1 : rangeBase addr size direction / 2 ^ 12 % 2 ^ 9 < 512 := Nat.mod_lt _ (by decide)
    generalize rangeBase addr size direction / 2 ^ 39 % 2 ^ 9 = l4 at *
    generalize rangeBase addr size direction / 2 ^ 30 % 2 ^ 9 = l3 at *
    generalize rangeBase addr size direction / 2 ^ 21 % 2 ^ 9 = l2 at *
    generalize rangeBase addr size direction / 2 ^ 12 % 2 ^ 9 = l1 at *
    rw [← hpage] at hP hl
    rw [(pagePath_pageNumber h4 h3 h2 h1).1] at hl
    obtain ⟨-, hne⟩ := tree_index h3 h2 h1 hP
    have hfirst : base / 4096 ≤ firstWhole base := by unfold firstWhole; split <;> omega
    have hinit : UnmapInv m base size₁ (pageNumber l4 l3 l2 l1) ⟨m, l3, l2, l1, base % 4096, size₁, []⟩ :=
      ⟨.refl hwf (hpage ▸ hfirst), hpage.ge, (if_pos hpage).symm, by dsimp only; omega, by dsimp only; omega⟩
    have htable := Loops.forLoop_ends (kmunmapL1 l4 l3 l2) (F := fun _ => False) (R := fun r => Outside m r.1)
      (N := archNEntry) (fun i v => UnmapInv m base size₁ (pageNumber l4 l3 l2 i) v ∧ Outside m v.m)
      (fun i v hi hv => ((kmunmapL1_ends hlt h4 h3 h2 hi (treePage_pageNumber h4 hne h3 h2 hi) hl hv.1).and
        (kmunmapL1_outside h4 hne h3 h2 hi hl hv.1.cleared hv.2)).mono (fun _ h => h.1) (fun _ h => h.2) fun _ h => h)
      l1 ⟨m, l3, l2, l1, base % 4096, size₁, []⟩ h1.le ⟨hinit, fun _ _ => rfl⟩
    obtain ⟨hdone, -⟩ := kmunmap_nest (v := (⟨m, l3, l2, l1, base % 4096, size₁, []⟩ : KmunmapVars A))
      h4 h3 h2 rfl rfl
    cases hloop : Loops.forLoop (kmunmapL1 l4 l3 l2) (archNEntry - l1) l1
      (⟨m, l3, l2, l1, base % 4096, size₁, []⟩ : KmunmapVars A) with
    | fail e =>
      rw [hloop] at htable
      exact htable.elim
    | done x =>
      rw [hloop] at htable
      rw [hdone x hloop] at hrun
      obtain rfl := Except.ok.inj hrun
      exact htable
    | next v =>
      rw [hloop] at htable
      obtain ⟨hv, -⟩ := htable
      have hleft := hv.left
      have hmore := hv.more
      unfold pageNumber archNEntry at hleft
      unfold pageNumber at hpage
      omega

omit [LawfulFrames A] in
theorem kmunmap_unmapping (hwf : WellFormed m.mem m.root) (hbase : base = rangeBase addr size direction % 2 ^ 48)
    (hin : PrivateRange k base size) (hsafe : UnmapSafe m base size)
    (hmapped : 0 < size → ∀ P, Meets base size P → leaf m.mem m.root P ≠ 0)
    (hrun : kmunmap addr size direction m = .ok (m', freed)) :
    ∃ first n, Unmapping m first (first + n) m' freed ∧ Outside m m' ∧
      ∀ P, Inside base size P ↔ first ≤ P ∧ P < first + n := by
  have hfits := hin.fits
  have hmeets : Meets base size (base / 4096) := meets_iff.mpr (by omega)
  have hlt : sizeFromPage (rangeBase addr size direction) size < 2 ^ 64 := sizeFromPage_lt (by omega)
  have htotal := sizeFromPage_of_reach hbase (by omega) hsafe.reach
  have hfirst : firstWhole base = if base % 4096 = 0 then base / 4096 else base / 4096 + 1 := rfl
  have hinside (P : ℕ) : Inside base size P ↔ firstWhole base ≤ P ∧
      P < firstWhole base + sizeFromPage (rangeBase addr size direction) size / 4096 := by
    unfold Inside
    split at hfirst <;> omega
  refine ⟨firstWhole base, sizeFromPage (rangeBase addr size direction) size / 4096, ?_⟩
  rw [← and_assoc]
  refine ⟨?_, hinside⟩
  rcases Nat.eq_zero_or_pos size with rfl | hpos
  · have hzero : sizeFromPage (rangeBase addr 0 direction) 0 = 0 := by
      split at hfirst <;> omega
    have hnone : kmunmap addr 0 direction m = .ok (m, []) := by
      rw [kmunmap, hzero]
      exact if_pos (.inl (Nat.zero_le _))
    obtain ⟨rfl, rfl⟩ := Prod.mk.inj (Except.ok.inj (hrun.symm.trans hnone))
    rw [hzero]
    exact ⟨.refl hwf le_rfl, fun _ _ => rfl⟩
  · have hl := live_of_leaf (hmapped hpos _ hmeets)
    rcases kmunmap_cases hwf hbase (hin.page hmeets).1 rfl hlt hl with
      ⟨hn, hnone⟩ | ⟨r, hr, hunmapping, hfit⟩ | ⟨hcross, -⟩
    · obtain ⟨rfl, rfl⟩ := Prod.mk.inj (Except.ok.inj (hrun.symm.trans hnone))
      rw [hn]
      exact ⟨.refl hwf le_rfl, fun _ _ => rfl⟩
    · obtain rfl := Except.ok.inj (hrun.symm.trans hr)
      exact ⟨hunmapping, kmunmap_outside hwf hbase (hin.page hmeets).1 rfl hlt hl hfit hrun⟩
    · -- the last whole page would lie in a later page table
      have hlast := hsafe.table (firstWhole base + sizeFromPage (rangeBase addr size direction) size / 4096 - 1)
        ((hinside _).mpr (by split at hfirst <;> omega))
      split at hfirst <;> omega

omit [LawfulFrames A] in
theorem tableFrame_of_unmapping {t : ℕ} (h : Unmapping m first stop m' freed) :
    TableFrame m'.mem m'.root t ↔ TableFrame m.mem m.root t := by
  constructor
  · rintro ⟨q, hq, hl, rfl⟩
    have hl' := (h.live q hq).mp hl
    exact ⟨q, hq, hl', (h.follow q hq hl').symm⟩
  · rintro ⟨q, hq, hl, rfl⟩
    exact ⟨q, hq, (h.live q hq).mpr hl, h.follow q hq hl⟩

omit [LawfulFrames A] in
theorem confined_of_unmapping (h : Unmapping (s.machine r) first stop m' freed) (hout : Outside (s.machine r) m')
    (hpages : ∀ P, TreePage P → first ≤ P → P < stop → PrivatePage k P) (hk : k.kernel recursiveMappingEntry = false) :
    Confined k ∅ (frameOf r) s.mem m'.mem := by
  have hroot : m'.root = frameOf r := congrArg frameOf h.cr3
  have htables {t : ℕ} : TableFrame m'.mem (frameOf r) t ↔ TableFrame s.mem (frameOf r) t := by
    have hsame := tableFrame_of_unmapping (t := t) h
    rw [hroot] at hsame
    exact hsame
  refine ⟨hroot ▸ h.wf, fun t ht => htables.mpr ht, fun t ht => .inl (htables.mp ht), fun i hi hki => ?_,
    fun P hP hnot => ?_, fun x hx _ => hout x fun ht => hx (htables.mpr ht)⟩
  · have hi' : i ≠ recursiveMappingEntry := by
      rintro rfl
      rw [hk] at hki
      cases hki
    exact h.upper [] i (proper_of_index (by simp) (by simp) hi hi') live_nil
  · have hleaf := h.leaves P hP
    rw [hroot, if_neg fun hin => hnot (hpages P hP hin.1 hin.2)] at hleaf
    exact hleaf

theorem kmunmap_unmaps (h : Sound k s) (hy : s.pmaps y = some r)
    (hbase : base = rangeBase addr size direction % 2 ^ 48) (hin : PrivateRange k base size)
    (hsafe : UnmapSafe (s.machine r) base size)
    (hmapped : 0 < size → ∀ P, Meets base size P → leaf s.mem (frameOf r) P ≠ 0)
    (hrun : kmunmap addr size direction (s.machine r) = .ok (m', freed)) :
    Tables k m'.mem s.pmaps ∧ Unmaps {f | LawfulFrames.owned A f} {p | p.1 = y ∧ Inside base size p.2}
      (view k s) (view k (s.after m')) ∧ ∀ z, z ≠ y → Untouched k s m'.mem z := by
  obtain ⟨first, n, hu, hout, hinside⟩ :=
    kmunmap_unmapping (h.tables.space y r hy).wf hbase hin hsafe hmapped hrun
  have hroot : m'.root = frameOf r := congrArg frameOf hu.cr3
  have hmeets {P : ℕ} (hP : Inside base size P) : Meets base size P := by
    have hfits := hin.fits
    refine ⟨4096 * P, ?_, ?_, by omega⟩ <;> unfold Inside at hP <;> omega
  have hpage {P : ℕ} (hP : P ∈ List.range' first n) : Inside base size P :=
    (hinside P).mpr (by simpa using List.mem_range'_1.mp hP)
  have hbehind {P : ℕ} (hP : Inside base size P) :
      (view k s).behind (y, P) = some (frameOf (leaf s.mem (frameOf r) P)) :=
    behind_eq_some.mpr ⟨r, hy, hin.page (hmeets hP), hmapped (by unfold Inside at hP; omega) P (hmeets hP), rfl⟩
  have hc := confined_of_unmapping (k := k) hu hout
    (fun P _ hlo hhi => hin.page (hmeets ((hinside P).mpr ⟨hlo, hhi⟩))) k.self
  obtain ⟨htables, hgrown, hnew, hothers, huntouched⟩ := h.confined hy (Set.empty_subset _) hc
  have hframes : m'.frames = ((List.range' first n).map fun P => frameOf (leaf s.mem (frameOf r) P)).foldl
      (fun s f => FrameSource.freeFrame (4096 * f) s) s.frames := by
    have hclean : (List.range' first n).map (fun P => cleanBits (leaf s.mem (frameOf r) P)) =
        ((List.range' first n).map fun P => frameOf (leaf s.mem (frameOf r) P)).map (4096 * ·) := by
      rw [List.map_map]
      exact List.map_congr_left fun P hP => cleanBits_frame (hsafe.frame P (hpage hP))
    have hgiven : freed = (List.range' first n).map fun P => cleanBits (leaf s.mem (frameOf r) P) := by
      rw [hu.given, Nat.add_sub_cancel_left]
      rfl
    rw [hu.frames, hgiven, hclean, List.foldl_map]
    rfl
  refine ⟨htables, ⟨fun p hp => ?_, fun p hp => ?_, ?_, fun f => ?_⟩, huntouched⟩
  · have hleaf := hu.leaves p.2 (hin.page (hmeets hp.2)).1
    rw [hroot, if_pos ((hinside p.2).mp hp.2)] at hleaf
    exact (behind_eq_none (hp.1.symm ▸ hy) (hin.page (hmeets hp.2))).mpr hleaf
  · by_cases hy' : p.1 = y
    · refine behind_congr rfl fun r' hr' hP => ?_
      obtain rfl := Option.some.inj (hy.symm.trans (hy' ▸ hr'))
      have hleaf := hu.leaves p.2 hP.1
      rw [hroot, if_neg fun hin' => hp ⟨hy', (hinside p.2).mpr hin'⟩] at hleaf
      exact hleaf
    · exact hothers p hy'
  · exact Set.Subset.antisymm (fun t ht => (hnew t ht).resolve_right fun hc => hc.1) hgrown
  · have hlist (f : ℕ) : f ∈ (List.range' first n).map (fun P => frameOf (leaf s.mem (frameOf r) P)) ↔
        ∃ p ∈ {p : ℕ × ℕ | p.1 = y ∧ Inside base size p.2}, (view k s).behind p = some f := by
      rw [List.mem_map]
      constructor
      · rintro ⟨P, hP, rfl⟩
        exact ⟨(y, P), ⟨rfl, hpage hP⟩, hbehind (hpage hP)⟩
      · rintro ⟨⟨z, P⟩, ⟨rfl, hP⟩, hf⟩
        exact ⟨P, List.mem_range'_1.mpr ((hinside P).mp hP), Option.some.inj ((hbehind hP).symm.trans hf)⟩
    change Spare m'.frames f ↔ _
    rw [hframes, spare_foldl ?_ ?_ ?_ f, hlist]
    · rfl
    · intro g hg
      obtain ⟨P, -, rfl⟩ := List.mem_map.mp hg
      exact Nat.mod_lt _ (by decide)
    · intro g hg ho
      obtain ⟨p, -, hp⟩ := (hlist g).mp hg
      exact h.exclusive.behind_free p g hp ho
    · rw [List.pairwise_map]
      refine List.Pairwise.imp_of_mem ?_ (List.nodup_range' : (List.range' first n).Nodup)
      intro P Q hP hQ hne ho he
      have hsame := h.exclusive.behind_inj _ _ _ (hbehind (hpage hP)) (he ▸ hbehind (hpage hQ)) ho
      exact hne (Prod.mk.inj hsame).2

end Unmap

end Raccoon.AddressSpaces
