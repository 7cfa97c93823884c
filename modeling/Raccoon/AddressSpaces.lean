import Raccoon.FrameOwnership
import Raccoon.FrameSupply
import Raccoon.Kmunmap
import Raccoon.LoadedPages

/-!
The address spaces of the cores. A new page directory is a copy of the loader's
one, so all spaces share the tables behind its slots. The other slots, and slot
0, are private: what is done there in one space is not seen in another.
-/

namespace Raccoon.AddressSpaces

open FrameOwnership FrameSupply Mmu Runs TableTree

/-- The frame of the loader's page directory, and the slots of it that the spaces share. -/
structure Loader where
  dir : ℕ
  kernel : ℕ → Bool
  low : dir < 2 ^ 19
  zero : kernel 0 = false
  self : kernel recursiveMappingEntry = false

/-- Memory, the allocator and the lock of `kmmap`, the page directories that the cores have created, and the ones
they have loaded. -/
structure System (A : Type) where
  mem : PhysMem
  frames : A
  kmmapLock : ℕ
  pmaps : ℕ → Option ℕ
  cr3 : ℕ → Option ℕ

namespace System

variable {A : Type}

/-- The machine that a core with the page directory `r` works on. -/
def machine (s : System A) (r : ℕ) : Machine A := ⟨s.mem, r, s.frames, s.kmmapLock⟩

def after (s : System A) (m : Machine A) : System A := { s with mem := m.mem, frames := m.frames, kmmapLock := m.kmmapLock }

@[simp] theorem after_mem (s : System A) (m : Machine A) : (s.after m).mem = m.mem := rfl

@[simp] theorem after_frames (s : System A) (m : Machine A) : (s.after m).frames = m.frames := rfl

@[simp] theorem after_pmaps (s : System A) (m : Machine A) : (s.after m).pmaps = s.pmaps := rfl

/-- `pmap = create_page_directory(); store_pmap(pmap, core); mov cr3, pmap` -/
def create [FrameSource A] (k : Loader) (core : ℕ) (s : System A) : Option (System A) := do
  let (p, frames) ← FrameSource.getFrame s.frames
  let mem ← createPageDirectory (zeroFrame s.mem p) (physicalToStivale (4096 * k.dir)) p
  some { s with
    mem := mem
    frames := frames
    pmaps := Function.update s.pmaps core (some p)
    cr3 := Function.update s.cr3 core (some p) }

/-- `enable_mapping(load_pmap(y))` -/
def enable (core y : ℕ) (s : System A) : System A := { s with cr3 := Function.update s.cr3 core (s.pmaps y) }

end System

instance (P : ℕ) : Decidable (TreePage P) := inferInstanceAs (Decidable (_ ∧ _))

/-- Pages of the slots that each space has for itself. -/
def PrivatePage (k : Loader) (P : ℕ) : Prop := TreePage P ∧ k.kernel (P / 2 ^ 27) = false

instance (k : Loader) (P : ℕ) : Decidable (PrivatePage k P) := inferInstanceAs (Decidable (_ ∧ _))

/-- Paths to the tables of such slots, and to the directory itself. -/
def Own (k : Loader) (q : List ℕ) : Prop := ∀ i, q.head? = some i → k.kernel i = false

/-- Paths to the loader's directory and to the tables that it shares. -/
structure Shared (k : Loader) (q : List ℕ) : Prop where
  proper : Proper q
  head : ∀ i, q.head? = some i → k.kernel i = true

def KernelFrame (k : Loader) (mem : PhysMem) (t : ℕ) : Prop :=
  ∃ q, Shared k q ∧ Live pageTables mem k.dir q ∧ follow pageTables mem k.dir q = t

/-- The shared part of the loader's tables. -/
structure KernelTables (k : Loader) (mem : PhysMem) : Prop where
  used : ∀ i < 512, k.kernel i = true → mem (4096 * k.dir + 8 * i) ≠ 0
  blank : ∀ i < 512, i ≠ 0 → i ≠ recursiveMappingEntry → k.kernel i = false → mem (4096 * k.dir + 8 * i) = 0
  link : ∀ q i, Shared k (q ++ [i]) → Live pageTables mem k.dir q →
    mem (4096 * follow pageTables mem k.dir q + 8 * i) ≠ 0 →
    Link (mem (4096 * follow pageTables mem k.dir q + 8 * i))
  separated : Separated pageTables mem k.dir (Shared k)

/-- The tables of a space, which has the shared slots of the loader. -/
structure SpaceTables (k : Loader) (mem : PhysMem) (f : ℕ) : Prop where
  wf : WellFormed mem f
  slots : ∀ i < 512, k.kernel i = true → mem (4096 * f + 8 * i) = mem (4096 * k.dir + 8 * i)
  loader : ¬ TableFrame mem f k.dir

section Paths

variable {k : Loader} {mem mem' : PhysMem} {f g i t P : ℕ} {q : List ℕ}

theorem own_nil (k : Loader) : Own k [] := fun _ h => by cases h

theorem Own.initial {p : List ℕ} (hp : p <+: q) (h : Own k q) : Own k p := by
  obtain ⟨r, rfl⟩ := hp
  cases p with
  | nil => exact own_nil k
  | cons a p => exact fun i hi => h i hi

theorem own_or_kernel (k : Loader) (q : List ℕ) : Own k q ∨ ∃ i p, q = i :: p ∧ k.kernel i = true := by
  cases q with
  | nil => exact .inl (own_nil k)
  | cons i p =>
    cases hi : k.kernel i with
    | false => exact .inl fun j hj => Option.some.inj hj ▸ hi
    | true => exact .inr ⟨i, p, rfl, hi⟩

theorem Own.not_kernel (h : Own k (i :: q)) : k.kernel i ≠ true := by simp [h i rfl]

theorem Shared.initial {p : List ℕ} (hp : p <+: q) (h : Shared k q) : Shared k p := by
  refine ⟨h.proper.initial hp, ?_⟩
  obtain ⟨r, rfl⟩ := hp
  cases p with
  | nil => exact fun _ h => by cases h
  | cons a p => exact fun i hi => h.head i hi

theorem shared_cons (hp : Proper (i :: q)) (hi : k.kernel i = true) : Shared k (i :: q) :=
  ⟨hp, fun _ hj => Option.some.inj hj ▸ hi⟩

theorem own_pagePath (h : PrivatePage k P) : Own k (pagePath P) := by
  have hslot : P / 2 ^ 27 % 512 = P / 2 ^ 27 := by
    have := h.1.1
    omega
  intro i hi
  obtain rfl : P / 2 ^ 27 % 512 = i := Option.some.inj hi
  rw [hslot]
  exact h.2

theorem kernel_pagePath (hP : TreePage P) (h : ¬ PrivatePage k P) : ∃ i p, pagePath P = i :: p ∧ k.kernel i = true := by
  have hslot : P / 2 ^ 27 % 512 = P / 2 ^ 27 := by
    have := hP.1
    omega
  refine ⟨_, _, rfl, ?_⟩
  rw [hslot]
  exact eq_true_of_ne_false fun hc => h ⟨hP, hc⟩

/-- Two directories with the same entry lead to the same tables behind it. -/
theorem same_slot (h : mem (4096 * f + 8 * i) = mem (4096 * g + 8 * i)) (q : List ℕ) :
    (Live pageTables mem f (i :: q) ↔ Live pageTables mem g (i :: q)) ∧
      follow pageTables mem f (i :: q) = follow pageTables mem g (i :: q) := by
  simp only [live_cons, follow_cons, pageTables_cell, h, and_self]

theorem SpaceTables.kernel_path (h : SpaceTables k mem f) (hp : Proper (i :: q)) (hi : k.kernel i = true) :
    (Live pageTables mem f (i :: q) ↔ Live pageTables mem k.dir (i :: q)) ∧
      follow pageTables mem f (i :: q) = follow pageTables mem k.dir (i :: q) :=
  same_slot (h.slots i (hp.index i (by simp)) hi) q

/-- A table of a space is one of its own, or one that the loader shares. -/
theorem SpaceTables.tableFrame (h : SpaceTables k mem f) (ht : TableFrame mem f t) :
    (∃ q, Proper q ∧ Own k q ∧ Live pageTables mem f q ∧ follow pageTables mem f q = t) ∨ KernelFrame k mem t := by
  obtain ⟨q, hq, hl, he⟩ := ht
  rcases own_or_kernel k q with ho | ⟨i, p, rfl, hi⟩
  · exact .inl ⟨q, hq, ho, hl, he⟩
  · obtain ⟨hlive, hfollow⟩ := h.kernel_path hq hi
    exact .inr ⟨i :: p, shared_cons hq hi, hlive.mp hl, hfollow ▸ he⟩

/-- What the loader shares is a table of every space, but for the loader's directory. -/
theorem SpaceTables.of_kernelFrame (h : SpaceTables k mem f) (ht : KernelFrame k mem t) : t = k.dir ∨ TableFrame mem f t := by
  obtain ⟨q, hq, hl, rfl⟩ := ht
  cases q with
  | nil => exact .inl rfl
  | cons i p =>
    obtain ⟨hlive, hfollow⟩ := h.kernel_path hq.proper (hq.head i rfl)
    exact .inr ⟨i :: p, hq.proper, hlive.mpr hl, hfollow⟩

theorem SpaceTables.own_not_kernel (h : SpaceTables k mem f) (hq : Proper q) (ho : Own k q)
    (hl : Live pageTables mem f q) : ¬ KernelFrame k mem (follow pageTables mem f q) := by
  rintro ⟨p, hp, hlp, he⟩
  cases p with
  | nil => exact h.loader ⟨q, hq, hl, he.symm⟩
  | cons i p =>
    have hi := hp.head i rfl
    obtain ⟨hlive, hfollow⟩ := h.kernel_path hp.proper hi
    obtain rfl := h.wf.separated q (i :: p) hq hp.proper hl (hlive.mpr hlp) (hfollow.trans he).symm
    exact ho.not_kernel hi

theorem kernelFrame_dir (k : Loader) (mem : PhysMem) : KernelFrame k mem k.dir :=
  ⟨[], ⟨proper_nil, fun _ h => by cases h⟩, live_nil, rfl⟩

end Paths

/-- What a space keeps of its tables when memory changes elsewhere. -/
structure Kept (k : Loader) (g : ℕ) (mem mem' : PhysMem) : Prop where
  space : SpaceTables k mem' g
  own : ∀ q, Proper q → Own k q → (Live pageTables mem' g q ↔ Live pageTables mem g q) ∧
    (Live pageTables mem g q → follow pageTables mem' g q = follow pageTables mem g q)
  leaves : ∀ P, TreePage P → leaf mem' g P = leaf mem g P

/-- Memory that changes in one frame only. -/
def ChangesIn (f : ℕ) (mem mem' : PhysMem) : Prop := ∀ x, x / 4096 ≠ f → mem' x = mem x

section ChangesIn

variable {k : Loader} {mem mem' : PhysMem} {f g i t : ℕ} {q : List ℕ}

theorem ChangesIn.cell (hc : ChangesIn f mem mem') (hg : g ≠ f) (hi : i < 512) :
    mem' (4096 * g + 8 * i) = mem (4096 * g + 8 * i) := hc _ (by omega)

theorem ChangesIn.shared_path (hc : ChangesIn f mem mem') (hf : ¬ KernelFrame k mem f) (hq : Shared k q) :
    (Live pageTables mem' k.dir q ↔ Live pageTables mem k.dir q) ∧
      (Live pageTables mem k.dir q → follow pageTables mem' k.dir q = follow pageTables mem k.dir q) := by
  refine path_congr q fun p i r he hl => ?_
  have hpi : p ++ [i] <+: q := ⟨r, by rw [he]; simp⟩
  have hp : Shared k p := hq.initial ((List.prefix_append _ _).trans hpi)
  exact hc.cell (fun hf' => hf ⟨p, hp, hl, hf'⟩) (hq.initial hpi).proper.last

theorem ChangesIn.kernelFrame (hc : ChangesIn f mem mem') (hf : ¬ KernelFrame k mem f) :
    KernelFrame k mem' t ↔ KernelFrame k mem t := by
  constructor
  · rintro ⟨q, hq, hl, rfl⟩
    obtain ⟨hlive, hfollow⟩ := hc.shared_path hf hq
    exact ⟨q, hq, hlive.mp hl, (hfollow (hlive.mp hl)).symm⟩
  · rintro ⟨q, hq, hl, rfl⟩
    obtain ⟨hlive, hfollow⟩ := hc.shared_path hf hq
    exact ⟨q, hq, hlive.mpr hl, hfollow hl⟩

theorem dir_ne (hf : ¬ KernelFrame k mem f) : k.dir ≠ f := by
  rintro rfl
  exact hf (kernelFrame_dir k mem)

theorem ChangesIn.kernelTables (hc : ChangesIn f mem mem') (hf : ¬ KernelFrame k mem f) (hk : KernelTables k mem) :
    KernelTables k mem' := by
  have hdir := dir_ne hf
  refine ⟨fun i hi hi' => ?_, fun i hi h0 h50 hi' => ?_, fun q i hqi hl hne => ?_, fun q r hq hr hlq hlr he => ?_⟩
  · rw [hc.cell hdir hi]
    exact hk.used i hi hi'
  · rw [hc.cell hdir hi]
    exact hk.blank i hi h0 h50 hi'
  · have hq : Shared k q := hqi.initial (List.prefix_append _ _)
    obtain ⟨hlive, hfollow⟩ := hc.shared_path hf hq
    have hl' := hlive.mp hl
    have hcell := hc.cell (fun hf' => hf ⟨q, hq, hl', hf'⟩) hqi.proper.last
    rw [hfollow hl', hcell] at hne ⊢
    exact hk.link q i hqi hl' hne
  · obtain ⟨hliveq, hfollowq⟩ := hc.shared_path hf hq
    obtain ⟨hliver, hfollowr⟩ := hc.shared_path hf hr
    rw [hfollowq (hliveq.mp hlq), hfollowr (hliver.mp hlr)] at he
    exact hk.separated q r hq hr (hliveq.mp hlq) (hliver.mp hlr) he

/-- A space that has no table in the frame does not change. -/
theorem ChangesIn.kept (hc : ChangesIn f mem mem') (hf : ¬ KernelFrame k mem f) (hg : SpaceTables k mem g)
    (hgf : ¬ TableFrame mem g f) : Kept k g mem mem' ∧ ∀ t, TableFrame mem' g t ↔ TableFrame mem g t := by
  obtain ⟨hwf, hlive, hfollow, hleaves⟩ := hg.wf.outside mem' fun x hx => hc x fun he => hgf (he ▸ hx)
  have htables (t : ℕ) : TableFrame mem' g t ↔ TableFrame mem g t := by
    constructor
    · rintro ⟨q, hq, hl, rfl⟩
      have hl' := (hlive q hq).mp hl
      exact ⟨q, hq, hl', (hfollow q hq hl').symm⟩
    · rintro ⟨q, hq, hl, rfl⟩
      exact ⟨q, hq, (hlive q hq).mpr hl, hfollow q hq hl⟩
  have hgne : g ≠ f := by
    rintro rfl
    exact hgf ⟨[], proper_nil, live_nil, rfl⟩
  refine ⟨⟨⟨hwf, fun i hi hki => ?_, fun ht => hg.loader ((htables _).mp ht)⟩,
    fun q hq _ => ⟨hlive q hq, hfollow q hq⟩, hleaves⟩, htables⟩
  rw [hc.cell hgne hi, hc.cell (dir_ne hf) hi]
  exact hg.slots i hi hki

end ChangesIn

section Confined

variable {k : Loader} {mem mem' : PhysMem} {free : Set ℕ} {f g t : ℕ}

/-- A change of memory by a call in the space of the directory in frame `f`: it writes the tables of that space and
free frames only, some of which become tables. -/
structure Confined (k : Loader) (free : Set ℕ) (f : ℕ) (mem mem' : PhysMem) : Prop where
  wf : WellFormed mem' f
  grown : ∀ t, TableFrame mem f t → TableFrame mem' f t
  tables : ∀ t, TableFrame mem' f t → TableFrame mem f t ∨ t ∈ free
  slots : ∀ i < 512, k.kernel i = true → mem' (4096 * f + 8 * i) = mem (4096 * f + 8 * i)
  shared : ∀ P, TreePage P → ¬ PrivatePage k P → leaf mem' f P = leaf mem f P
  rest : ∀ x, ¬ TableFrame mem' f (x / 4096) → x / 4096 ∉ free → mem' x = mem x

/-- The frames in `free` hold no table of the space, and its own tables are not tables of the space in `f`. -/
structure Apart (k : Loader) (free : Set ℕ) (mem : PhysMem) (g f : ℕ) : Prop where
  free : ∀ t ∈ free, ¬ TableFrame mem g t
  own : ∀ q, Proper q → Own k q → Live pageTables mem g q → ¬ TableFrame mem f (follow pageTables mem g q)

theorem Confined.not_tableFrame (h : Confined k free f mem mem') (ht : ¬ TableFrame mem f t) (hfree : t ∉ free) :
    ¬ TableFrame mem' f t := fun hc => (h.tables t hc).elim ht hfree

/-- The words in the own tables of another space. -/
theorem Confined.own_cell (h : Confined k free f mem mem') (ha : Apart k free mem g f) {q : List ℕ} (hq : Proper q)
    (ho : Own k q) (hl : Live pageTables mem g q) {i : ℕ} (hi : i < 512) :
    mem' (4096 * follow pageTables mem g q + 8 * i) = mem (4096 * follow pageTables mem g q + 8 * i) := by
  have hframe : (4096 * follow pageTables mem g q + 8 * i) / 4096 = follow pageTables mem g q := by omega
  have hfree : follow pageTables mem g q ∉ free := fun hc => ha.free _ hc ⟨q, hq, hl, rfl⟩
  have hnot := h.not_tableFrame (ha.own q hq ho hl) hfree
  exact h.rest _ (by rwa [hframe]) (by rwa [hframe])

theorem Confined.own_path (h : Confined k free f mem mem') (ha : Apart k free mem g f) {q : List ℕ} (hq : Proper q)
    (ho : Own k q) : (Live pageTables mem' g q ↔ Live pageTables mem g q) ∧
      (Live pageTables mem g q → follow pageTables mem' g q = follow pageTables mem g q) := by
  refine path_congr q fun p i r he hl => ?_
  have hpi : p ++ [i] <+: q := ⟨r, by rw [he]; simp⟩
  have hp : p <+: q := (List.prefix_append _ _).trans hpi
  exact h.own_cell ha (hq.initial hp) (ho.initial hp) hl (hq.initial hpi).last

theorem Confined.dir_cell (h : Confined k free f mem mem') (hf : SpaceTables k mem f) (hdir : k.dir ∉ free) {i : ℕ}
    (hi : i < 512) : mem' (4096 * k.dir + 8 * i) = mem (4096 * k.dir + 8 * i) := by
  have hframe : (4096 * k.dir + 8 * i) / 4096 = k.dir := by omega
  have hnot := h.not_tableFrame hf.loader hdir
  exact h.rest _ (by rwa [hframe]) (by rwa [hframe])

theorem Confined.kernel_slot (h : Confined k free f mem mem') (hf : SpaceTables k mem f) (hg : SpaceTables k mem g)
    (ha : Apart k free mem g f) {i : ℕ} (hi : i < 512) (hk : k.kernel i = true) :
    mem' (4096 * g + 8 * i) = mem' (4096 * f + 8 * i) := by
  have hcell := h.own_cell ha proper_nil (own_nil k) live_nil hi
  rw [follow_nil] at hcell
  rw [hcell, hg.slots i hi hk, h.slots i hi hk, hf.slots i hi hk]

/-- A call in one space leaves the other spaces as they are. -/
theorem Confined.kept (h : Confined k free f mem mem') (hf : SpaceTables k mem f) (hg : SpaceTables k mem g)
    (ha : Apart k free mem g f) (hdir : k.dir ∉ free) : Kept k g mem mem' := by
  have hown {q : List ℕ} (hq : Proper q) (ho : Own k q) := h.own_path ha hq ho
  have hkernel {i : ℕ} {q : List ℕ} (hq : Proper (i :: q)) (hk : k.kernel i = true) :=
    same_slot (h.kernel_slot hf hg ha (hq.index i (by simp)) hk) q
  have hroot {i : ℕ} (hi : i < 512) : mem' (4096 * g + 8 * i) = mem (4096 * g + 8 * i) :=
    h.own_cell ha proper_nil (own_nil k) live_nil hi
  have hdirFrame : ¬ TableFrame mem' f k.dir := h.not_tableFrame hf.loader hdir
  -- an own table is not behind a shared slot
  have hcross {q p : List ℕ} {i : ℕ} (hq : Proper q) (ho : Own k q) (hl : Live pageTables mem' g q)
      (hp : Proper (i :: p)) (hk : k.kernel i = true) (hlp : Live pageTables mem' g (i :: p)) :
      follow pageTables mem' g q ≠ follow pageTables mem' g (i :: p) := by
    have hl' := (hown hq ho).1.mp hl
    rw [(hown hq ho).2 hl', (hkernel hp hk).2]
    intro he
    exact h.not_tableFrame (ha.own q hq ho hl') (fun hc => ha.free _ hc ⟨q, hq, hl', rfl⟩)
      ⟨i :: p, hp, (hkernel hp hk).1.mp hlp, he.symm⟩
  refine ⟨⟨⟨⟨?_, ?_⟩, ?_, ?_⟩, fun i hi hk => ?_, ?_⟩, fun q hq ho => hown hq ho, fun P hP => ?_⟩
  · rw [hroot (by decide)]
    exact hg.wf.self.link
  · rw [hroot (by decide)]
    exact hg.wf.self.back
  · intro q i hqi hl hne
    have hq : Proper q := hqi.initial (List.prefix_append _ _)
    rcases own_or_kernel k q with ho | ⟨j, p, rfl, hj⟩
    · have hl' := (hown hq ho).1.mp hl
      rw [(hown hq ho).2 hl', h.own_cell ha hq ho hl' hqi.last] at hne ⊢
      exact hg.wf.link q i hqi hl' hne
    · obtain ⟨hlive, hfollow⟩ := hkernel hq hj
      rw [hfollow] at hne ⊢
      exact h.wf.link _ i hqi (hlive.mp hl) hne
  · intro q r hq hr hlq hlr he
    rcases own_or_kernel k q with hoq | ⟨i, p, rfl, hi⟩ <;> rcases own_or_kernel k r with hor | ⟨j, s, rfl, hj⟩
    · have hlq' := (hown hq hoq).1.mp hlq
      have hlr' := (hown hr hor).1.mp hlr
      rw [(hown hq hoq).2 hlq', (hown hr hor).2 hlr'] at he
      exact hg.wf.separated q r hq hr hlq' hlr' he
    · exact absurd he (hcross hq hoq hlq hr hj hlr)
    · exact absurd he.symm (hcross hr hor hlr hq hi hlq)
    · rw [(hkernel hq hi).2, (hkernel hr hj).2] at he
      exact h.wf.separated _ _ hq hr ((hkernel hq hi).1.mp hlq) ((hkernel hr hj).1.mp hlr) he
  · rw [hroot hi, h.dir_cell hf hdir hi]
    exact hg.slots i hi hk
  · rintro ⟨q, hq, hl, he⟩
    rcases own_or_kernel k q with ho | ⟨i, p, rfl, hi⟩
    · have hl' := (hown hq ho).1.mp hl
      exact hg.loader ⟨q, hq, hl', ((hown hq ho).2 hl').symm.trans he⟩
    · exact hdirFrame ⟨_, hq, (hkernel hq hi).1.mp hl, (hkernel hq hi).2.symm.trans he⟩
  · have hq := pagePath_proper hP
    by_cases hprivate : PrivatePage k P
    · have ho := own_pagePath hprivate
      unfold leaf
      by_cases hl : Live pageTables mem g (pagePath P)
      · rw [if_pos hl, if_pos ((hown hq ho).1.mpr hl), (hown hq ho).2 hl]
        exact h.own_cell ha hq ho hl (Nat.mod_lt _ (by decide))
      · rw [if_neg hl, if_neg (mt (hown hq ho).1.mp hl)]
    · obtain ⟨i, p, hpath, hi⟩ := kernel_pagePath hP hprivate
      have hafter : leaf mem' g P = leaf mem' f P := by
        obtain ⟨hlive, hfollow⟩ := hkernel (hpath ▸ hq) hi
        unfold leaf
        rw [hpath, if_congr hlive rfl rfl, hfollow]
      have hbefore : leaf mem g P = leaf mem f P := by
        obtain ⟨hlive, hfollow⟩ := hg.kernel_path (hpath ▸ hq) hi
        obtain ⟨hlive', hfollow'⟩ := hf.kernel_path (hpath ▸ hq) hi
        unfold leaf
        rw [hpath, if_congr (hlive.trans hlive'.symm) rfl rfl, hfollow, hfollow']
      rw [hafter, hbefore, h.shared P hP hprivate]

theorem Confined.active (h : Confined k free f mem mem') (hf : SpaceTables k mem f) (hdir : k.dir ∉ free) :
    SpaceTables k mem' f := by
  refine ⟨h.wf, fun i hi hk => ?_, h.not_tableFrame hf.loader hdir⟩
  rw [h.slots i hi hk, hf.slots i hi hk, h.dir_cell hf hdir hi]

theorem Confined.kernelTables (h : Confined k free f mem mem') (hf : SpaceTables k mem f) (hdir : k.dir ∉ free)
    (hk : KernelTables k mem) : KernelTables k mem' := by
  have hactive := h.active hf hdir
  refine ⟨fun i hi hi' => ?_, fun i hi h0 h50 hi' => ?_, fun q i hqi hl hne => ?_, fun q r hq hr hlq hlr he => ?_⟩
  · rw [h.dir_cell hf hdir hi]
    exact hk.used i hi hi'
  · rw [h.dir_cell hf hdir hi]
    exact hk.blank i hi h0 h50 hi'
  · cases q with
    | nil =>
      have hcell := h.dir_cell hf hdir hqi.proper.last
      rw [follow_nil, hcell] at hne ⊢
      exact hk.link [] i hqi live_nil hne
    | cons j p =>
      have hq : Shared k (j :: p) := hqi.initial (List.prefix_append _ _)
      obtain ⟨hlive, hfollow⟩ := hactive.kernel_path hq.proper (hq.head j rfl)
      rw [← hfollow] at hne ⊢
      exact h.wf.link _ i hqi.proper (hlive.mpr hl) hne
  · cases q with
    | nil =>
      cases r with
      | nil => rfl
      | cons j s =>
        obtain ⟨hlive, hfollow⟩ := hactive.kernel_path hr.proper (hr.head j rfl)
        exact absurd ⟨_, hr.proper, hlive.mpr hlr, hfollow.trans he.symm⟩ hactive.loader
    | cons i p =>
      obtain ⟨hliveq, hfollowq⟩ := hactive.kernel_path hq.proper (hq.head i rfl)
      cases r with
      | nil => exact absurd ⟨_, hq.proper, hliveq.mpr hlq, hfollowq.trans he⟩ hactive.loader
      | cons j s =>
        obtain ⟨hliver, hfollowr⟩ := hactive.kernel_path hr.proper (hr.head j rfl)
        rw [← hfollowq, ← hfollowr] at he
        exact h.wf.separated _ _ hq.proper hr.proper (hliveq.mpr hlq) (hliver.mpr hlr) he

end Confined

/-- The tables of all spaces: their own ones are in different frames. -/
structure Tables (k : Loader) (mem : PhysMem) (pmaps : ℕ → Option ℕ) : Prop where
  kernel : KernelTables k mem
  space : ∀ y r, pmaps y = some r → SpaceTables k mem (frameOf r)
  apart : ∀ y z r r', pmaps y = some r → pmaps z = some r' → y ≠ z → ∀ q, Proper q → Own k q →
    Live pageTables mem (frameOf r) q → ¬ TableFrame mem (frameOf r') (follow pageTables mem (frameOf r) q)

/-- The frames that hold a table. -/
def tablesIn (k : Loader) (mem : PhysMem) (pmaps : ℕ → Option ℕ) : Set ℕ :=
  {t | KernelFrame k mem t ∨ ∃ y r, pmaps y = some r ∧ TableFrame mem (frameOf r) t}

section Tables

variable {k : Loader} {mem mem' : PhysMem} {pmaps : ℕ → Option ℕ} {free : Set ℕ} {y z r r' t : ℕ}

theorem Tables.apartFrom (h : Tables k mem pmaps) (hfree : ∀ t ∈ free, t ∉ tablesIn k mem pmaps) (hy : pmaps y = some r)
    (hz : pmaps z = some r') (hne : z ≠ y) : Apart k free mem (frameOf r') (frameOf r) :=
  ⟨fun t ht hc => hfree t ht (.inr ⟨z, r', hz, hc⟩), h.apart z y r' r hz hy hne⟩

theorem dir_not_free (hfree : ∀ t ∈ free, t ∉ tablesIn k mem pmaps) : k.dir ∉ free := fun hc =>
  hfree _ hc (.inl (kernelFrame_dir k mem))

theorem Tables.kept (h : Tables k mem pmaps) (hfree : ∀ t ∈ free, t ∉ tablesIn k mem pmaps) (hy : pmaps y = some r)
    (hc : Confined k free (frameOf r) mem mem') (hz : pmaps z = some r') (hne : z ≠ y) :
    Kept k (frameOf r') mem mem' :=
  hc.kept (h.space y r hy) (h.space z r' hz) (h.apartFrom hfree hy hz hne) (dir_not_free hfree)

theorem Tables.confined (h : Tables k mem pmaps) (hfree : ∀ t ∈ free, t ∉ tablesIn k mem pmaps) (hy : pmaps y = some r)
    (hc : Confined k free (frameOf r) mem mem') : Tables k mem' pmaps := by
  have hdir := dir_not_free hfree
  have hactive := hc.active (h.space y r hy) hdir
  have hkept {z r' : ℕ} (hz : pmaps z = some r') (hne : z ≠ y) := h.kept hfree hy hc hz hne
  -- an own table of another space is not a table of this one
  have hforeign {z r' : ℕ} {q : List ℕ} (hz : pmaps z = some r') (hne : z ≠ y) (hq : Proper q) (ho : Own k q)
      (hl : Live pageTables mem (frameOf r') q) :
      ¬ TableFrame mem' (frameOf r) (follow pageTables mem (frameOf r') q) :=
    hc.not_tableFrame (h.apart z y r' r hz hy hne q hq ho hl) fun hf => hfree _ hf (.inr ⟨z, r', hz, q, hq, hl, rfl⟩)
  refine ⟨hc.kernelTables (h.space y r hy) hdir h.kernel, fun z r' hz => ?_, ?_⟩
  · by_cases hne : z = y
    · subst hne
      obtain rfl := Option.some.inj (hy.symm.trans hz)
      exact hactive
    · exact (hkept hz hne).space
  · intro z z' r₁ r₂ hz hz' hne q hq ho hl
    by_cases hzy : z = y
    · subst hzy
      obtain rfl := Option.some.inj (hy.symm.trans hz)
      intro ht
      rcases (hkept hz' hne.symm).space.tableFrame ht with ⟨p, hp, hop, hlp, he⟩ | hkernel
      · obtain ⟨hlive, hfollow⟩ := (hkept hz' hne.symm).own p hp hop
        rw [hfollow (hlive.mp hlp)] at he
        exact hforeign hz' hne.symm hp hop (hlive.mp hlp) (he ▸ ⟨q, hq, hl, rfl⟩)
      · exact hactive.own_not_kernel hq ho hl hkernel
    · obtain ⟨hlive, hfollow⟩ := (hkept hz hzy).own q hq ho
      have hl' := hlive.mp hl
      have hnot := hforeign hz hzy hq ho hl'
      rw [hfollow hl']
      by_cases hzy' : z' = y
      · subst hzy'
        obtain rfl := Option.some.inj (hy.symm.trans hz')
        exact hnot
      · intro ht
        rcases (hkept hz' hzy').space.tableFrame ht with ⟨p, hp, hop, hlp, he⟩ | hkernel
        · obtain ⟨hlivep, hfollowp⟩ := (hkept hz' hzy').own p hp hop
          rw [hfollowp (hlivep.mp hlp)] at he
          exact h.apart z z' r₁ r₂ hz hz' hne q hq ho hl' ⟨p, hp, hlivep.mp hlp, he⟩
        · rcases hactive.of_kernelFrame hkernel with hd | ht'
          · exact (h.space z r₁ hz).loader ⟨q, hq, hl', hd⟩
          · exact hnot ht'

theorem Tables.grown (h : Tables k mem pmaps) (hfree : ∀ t ∈ free, t ∉ tablesIn k mem pmaps) (hy : pmaps y = some r)
    (hc : Confined k free (frameOf r) mem mem') : tablesIn k mem pmaps ⊆ tablesIn k mem' pmaps := by
  have hkernel {t : ℕ} (ht : KernelFrame k mem t) : t ∈ tablesIn k mem' pmaps := by
    rcases (h.space y r hy).of_kernelFrame ht with rfl | ht
    · exact .inl (kernelFrame_dir k mem')
    · exact .inr ⟨y, r, hy, hc.grown t ht⟩
  rintro t (ht | ⟨z, r', hz, ht⟩)
  · exact hkernel ht
  · by_cases hne : z = y
    · subst hne
      obtain rfl := Option.some.inj (hy.symm.trans hz)
      exact .inr ⟨z, r, hz, hc.grown t ht⟩
    · rcases (h.space z r' hz).tableFrame ht with ⟨q, hq, ho, hl, rfl⟩ | ht
      · obtain ⟨hlive, hfollow⟩ := (h.kept hfree hy hc hz hne).own q hq ho
        exact .inr ⟨z, r', hz, q, hq, hlive.mpr hl, hfollow hl⟩
      · exact hkernel ht

/-- Only the space of the call can have got a new table. -/
theorem Tables.new (h : Tables k mem pmaps) (hfree : ∀ t ∈ free, t ∉ tablesIn k mem pmaps) (hy : pmaps y = some r)
    (hc : Confined k free (frameOf r) mem mem') (ht : t ∈ tablesIn k mem' pmaps) :
    t ∈ tablesIn k mem pmaps ∨ t ∈ free ∧ TableFrame mem' (frameOf r) t := by
  have hactive {t : ℕ} (ht : TableFrame mem' (frameOf r) t) :
      t ∈ tablesIn k mem pmaps ∨ t ∈ free ∧ TableFrame mem' (frameOf r) t :=
    (hc.tables t ht).imp (fun ht => .inr ⟨y, r, hy, ht⟩) fun hf => ⟨hf, ht⟩
  have hkernel {t : ℕ} (ht : KernelFrame k mem' t) :
      t ∈ tablesIn k mem pmaps ∨ t ∈ free ∧ TableFrame mem' (frameOf r) t := by
    rcases (hc.active (h.space y r hy) (dir_not_free hfree)).of_kernelFrame ht with rfl | ht
    · exact .inl (.inl (kernelFrame_dir k mem))
    · exact hactive ht
  rcases ht with ht | ⟨z, r', hz, ht⟩
  · exact hkernel ht
  · by_cases hne : z = y
    · subst hne
      obtain rfl := Option.some.inj (hy.symm.trans hz)
      exact hactive ht
    · rcases (h.kept hfree hy hc hz hne).space.tableFrame ht with ⟨q, hq, ho, hl, rfl⟩ | ht
      · obtain ⟨hlive, hfollow⟩ := (h.kept hfree hy hc hz hne).own q hq ho
        exact .inl (.inr ⟨z, r', hz, q, hq, hlive.mp hl, (hfollow (hlive.mp hl)).symm⟩)
      · exact hkernel ht

theorem Tables.changesIn {f : ℕ} (h : Tables k mem pmaps) (hf : f ∉ tablesIn k mem pmaps) (hc : ChangesIn f mem mem') :
    Tables k mem' pmaps ∧ tablesIn k mem' pmaps = tablesIn k mem pmaps ∧
      ∀ y r, pmaps y = some r → Kept k (frameOf r) mem mem' := by
  have hkernel : ¬ KernelFrame k mem f := fun hk => hf (.inl hk)
  have hkept {y r : ℕ} (hy : pmaps y = some r) :=
    hc.kept hkernel (h.space y r hy) fun ht => hf (.inr ⟨y, r, hy, ht⟩)
  refine ⟨⟨hc.kernelTables hkernel h.kernel, fun y r hy => (hkept hy).1.space, ?_⟩, ?_, fun y r hy => (hkept hy).1⟩
  · intro y z r r' hy hz hne q hq ho hl ht
    obtain ⟨hlive, hfollow⟩ := (hkept hy).1.own q hq ho
    rw [hfollow (hlive.mp hl)] at ht
    exact h.apart y z r r' hy hz hne q hq ho (hlive.mp hl) (((hkept hz).2 _).mp ht)
  · ext t
    refine or_congr (hc.kernelFrame hkernel) (exists_congr fun y => exists_congr fun r => and_congr_right fun hy => ?_)
    exact (hkept hy).2 t

end Tables

end Raccoon.AddressSpaces
