import Raccoon.Mmu

/-!
Page directories map themselves at `RECURSIVE_MAPPING_ENTRY`. A walk through
that slot stays in the directory, so a crafted pointer reaches an entry of a
page table instead of a byte of a page.
-/

namespace Raccoon.Mmu

open TableTree

/-- The loader maps `[0xffffffff80000000, 2^64)` to the first two gigabytes of memory. -/
def stivaleBase : ℕ := 0xffffffff80000000

def physicalToStivale (x : ℕ) : ℕ := wadd x stivaleBase

def readStivale (mem : PhysMem) (va : ℕ) : Option ℕ :=
  if stivaleBase ≤ va then some (mem (va - stivaleBase)) else none

def writeStivale (mem : PhysMem) (va w : ℕ) : Option PhysMem :=
  if stivaleBase ≤ va then some (Function.update mem (va - stivaleBase) w) else none

theorem writeStivale_eq_some {mem mem' : PhysMem} {va w : ℕ} : writeStivale mem va w = some mem' ↔
    stivaleBase ≤ va ∧ mem' = Function.update mem (va - stivaleBase) w := by
  rw [writeStivale]
  by_cases h : stivaleBase ≤ va <;> simp [h, eq_comm]

theorem writeStivale_of_le {mem : PhysMem} {va w : ℕ} (h : stivaleBase ≤ va) :
    writeStivale mem va w = some (Function.update mem (va - stivaleBase) w) := if_pos h

/-- `for (i = 0; i < 512; i++) new_pd[i] = limine_page_directory_addr[i]`, with `n` rounds left. -/
def copyDirectory (limine newPd : ℕ) : ℕ → ℕ → PhysMem → Option PhysMem
  | 0, _, mem => some mem
  | n + 1, i, mem => do
    let w ← readStivale mem (wadd limine (8 * i))
    let mem ← writeStivale mem (wadd newPd (8 * i)) w
    copyDirectory limine newPd n (i + 1) mem

/-- `create_page_directory` on the frame `newPdp` that `get_frame` returned. It is `none` when an
access leaves the loader's window. -/
def createPageDirectory (mem : PhysMem) (limine newPdp : ℕ) : Option PhysMem := do
  let newPd := physicalToStivale newPdp
  let mem ← copyDirectory limine newPd 512 0 mem
  let mem ← writeStivale mem (wadd newPd (8 * recursiveMappingEntry)) (newPdp ||| 3 ||| 4)
  writeStivale mem newPd 0

theorem copyDirectory_succeeds {limine newPd : ℕ} (hl : stivaleBase ≤ limine) (hl' : limine + 4096 ≤ 2 ^ 64)
    (hp : stivaleBase ≤ newPd) (hp' : newPd + 4096 ≤ 2 ^ 64) (n i : ℕ) (hi : i + n ≤ 512) (mem : PhysMem) :
    ∃ mem', copyDirectory limine newPd n i mem = some mem' := by
  induction n generalizing i mem with
  | zero => exact ⟨mem, rfl⟩
  | succ n ih =>
    have hr : wadd limine (8 * i) = limine + 8 * i := wadd_eq (by omega)
    have hw : wadd newPd (8 * i) = newPd + 8 * i := wadd_eq (by omega)
    obtain ⟨mem', hmem'⟩ := ih (i + 1) (by omega)
      (Function.update mem (newPd + 8 * i - stivaleBase) (mem (limine + 8 * i - stivaleBase)))
    refine ⟨mem', ?_⟩
    rw [copyDirectory, hr, hw, readStivale, if_pos (hl.trans (Nat.le_add_right _ _)), Option.bind_eq_bind,
      Option.bind_some, writeStivale_of_le (hp.trans (Nat.le_add_right _ _)), Option.bind_eq_bind,
      Option.bind_some]
    exact hmem'

theorem createPageDirectory_succeeds {limine p : ℕ} (hl : stivaleBase ≤ limine)
    (hl' : limine + 4096 ≤ 2 ^ 64) (hp : p + 4096 ≤ 2 ^ 31) (mem : PhysMem) :
    ∃ mem', createPageDirectory mem limine p = some mem' := by
  have he : physicalToStivale p = p + stivaleBase := wadd_eq (by unfold stivaleBase; omega)
  have hw : wadd (p + stivaleBase) (8 * recursiveMappingEntry) =
      p + stivaleBase + 8 * recursiveMappingEntry :=
    wadd_eq (by unfold stivaleBase recursiveMappingEntry; omega)
  have hbase : stivaleBase ≤ p + stivaleBase := Nat.le_add_left _ _
  have hslot : stivaleBase ≤ p + stivaleBase + 8 * recursiveMappingEntry := hbase.trans (Nat.le_add_right _ _)
  obtain ⟨mem', hmem'⟩ := copyDirectory_succeeds hl hl' hbase (by unfold stivaleBase; omega) 512 0 (by omega) mem
  rw [createPageDirectory, he, hw, hmem', Option.bind_eq_bind, Option.bind_some, writeStivale_of_le hslot,
    Option.bind_some]
  exact ⟨_, writeStivale_of_le hbase⟩

/-- Slot 50 of the table in frame `f` links to `f` itself. -/
structure SelfMapped (mem : PhysMem) (f : ℕ) : Prop where
  link : Link (mem (4096 * f + 8 * recursiveMappingEntry))
  back : frameOf (mem (4096 * f + 8 * recursiveMappingEntry)) = f

theorem selfEntry_link {p : ℕ} (hp : p % 4096 = 0) : Link (p ||| 3 ||| 4) := by
  have h7 : p.testBit 7 = false := by
    rw [Nat.testBit_eq_decide_div_mod_eq, decide_eq_false_iff_not]; omega
  exact ⟨by simp, by simp [Nat.testBit_or, h7]; decide⟩

theorem or_low {p b : ℕ} (hp : p % 4096 = 0) (hb : b < 4096) : p ||| b = p + b := by
  have he : p = 2 ^ 12 * (p / 4096) := by omega
  rw [he]
  exact (Nat.two_pow_add_eq_or_of_lt hb _).symm

theorem frameOf_or {p b : ℕ} (hp : p % 4096 = 0) (hlt : p < 2 ^ 52) (hb : b < 4096) :
    frameOf (p ||| b) = p / 4096 := by
  rw [or_low hp hb, frameOf]
  omega

theorem createPageDirectory_self {mem mem' : PhysMem} {limine p : ℕ} (hp : p < 2 ^ 64)
    (h : createPageDirectory mem limine p = some mem') :
    p + 8 * recursiveMappingEntry < 2 ^ 31 ∧ mem' (p + 8 * recursiveMappingEntry) = p ||| 3 ||| 4 := by
  simp only [createPageDirectory, Option.bind_eq_bind, Option.bind_eq_some_iff] at h
  obtain ⟨m₁, -, m₂, h₂, h₃⟩ := h
  obtain ⟨hb₂, rfl⟩ := writeStivale_eq_some.mp h₂
  obtain ⟨hb₃, rfl⟩ := writeStivale_eq_some.mp h₃
  have hbase : physicalToStivale p - stivaleBase = p ∧ p < 2 ^ 31 := by
    unfold physicalToStivale wadd stivaleBase at hb₃ ⊢
    omega
  have hslot : wadd (physicalToStivale p) (8 * recursiveMappingEntry) - stivaleBase =
      p + 8 * recursiveMappingEntry ∧ p + 8 * recursiveMappingEntry < 2 ^ 31 := by
    unfold physicalToStivale wadd stivaleBase recursiveMappingEntry at hb₂ ⊢
    omega
  refine ⟨hslot.2, ?_⟩
  rw [hbase.1, hslot.1, Function.update_of_ne (by unfold recursiveMappingEntry; omega), Function.update_self]

/-- A memory that still holds in slot 50 what `create_page_directory` stored there is self-mapped. -/
theorem createPageDirectory_selfMapped {mem₀ mem₁ mem : PhysMem} {limine p : ℕ} (hp : p < 2 ^ 64)
    (hal : p % 4096 = 0) (h : createPageDirectory mem₀ limine p = some mem₁)
    (hmem : mem (p + 8 * recursiveMappingEntry) = mem₁ (p + 8 * recursiveMappingEntry)) :
    SelfMapped mem (frameOf p) ∧ 4096 * frameOf p = p := by
  obtain ⟨hlt, hself⟩ := createPageDirectory_self hp h
  have hf : 4096 * frameOf p = p := by rw [frameOf]; omega
  refine ⟨⟨?_, ?_⟩, hf⟩
  · rw [hf, hmem, hself]
    exact selfEntry_link hal
  · rw [hf, hmem, hself, Nat.or_assoc, frameOf_or hal (by omega) (by decide), frameOf]
    omega

section Pointers

variable {mem : PhysMem} {cr3 : ℕ}

theorem SelfMapped.linked {f : ℕ} (h : SelfMapped mem f) (q : List ℕ) :
    Linked mem f (recursiveMappingEntry :: q) ↔ Linked mem f q := by
  simp [h.link, h.back]

theorem SelfMapped.follow {f : ℕ} (h : SelfMapped mem f) (q : List ℕ) :
    follow pageTables mem f (recursiveMappingEntry :: q) = follow pageTables mem f q := by
  simp [h.back]

theorem translate_l4 (h : SelfMapped mem (frameOf cr3)) {i : ℕ} (hi : i < 512) :
    translate mem cr3 (craftAddr recursiveMappingEntry recursiveMappingEntry recursiveMappingEntry
      recursiveMappingEntry (i * 8)) = some (4096 * follow pageTables mem (frameOf cr3) [] + 8 * i) := by
  have hl : Linked mem (frameOf cr3) [50, 50, 50, 50] :=
    (h.linked _).mpr ((h.linked _).mpr ((h.linked _).mpr ((h.linked _).mpr linked_nil)))
  rw [recursiveMappingEntry, translate_craftAddr (by decide) (by decide) (by decide) (by decide) (by omega) hl,
    ← recursiveMappingEntry, h.follow, h.follow, h.follow, h.follow, Nat.mul_comm i]

theorem translate_l3 (h : SelfMapped mem (frameOf cr3)) {l4 i : ℕ} (h4 : l4 < 512) (hi : i < 512)
    (hl : Linked mem (frameOf cr3) [l4]) :
    translate mem cr3 (craftAddr recursiveMappingEntry recursiveMappingEntry recursiveMappingEntry
      l4 (i * 8)) = some (4096 * follow pageTables mem (frameOf cr3) [l4] + 8 * i) := by
  have hl' : Linked mem (frameOf cr3) [50, 50, 50, l4] :=
    (h.linked _).mpr ((h.linked _).mpr ((h.linked _).mpr hl))
  rw [recursiveMappingEntry, translate_craftAddr (by decide) (by decide) (by decide) h4 (by omega) hl',
    ← recursiveMappingEntry, h.follow, h.follow, h.follow, Nat.mul_comm i]

theorem translate_l2 (h : SelfMapped mem (frameOf cr3)) {l4 l3 i : ℕ} (h4 : l4 < 512) (h3 : l3 < 512)
    (hi : i < 512) (hl : Linked mem (frameOf cr3) [l4, l3]) :
    translate mem cr3 (craftAddr recursiveMappingEntry recursiveMappingEntry l4 l3 (i * 8)) =
      some (4096 * follow pageTables mem (frameOf cr3) [l4, l3] + 8 * i) := by
  have hl' : Linked mem (frameOf cr3) [50, 50, l4, l3] := (h.linked _).mpr ((h.linked _).mpr hl)
  rw [recursiveMappingEntry, translate_craftAddr (by decide) (by decide) h4 h3 (by omega) hl',
    ← recursiveMappingEntry, h.follow, h.follow, Nat.mul_comm i]

theorem translate_l1 (h : SelfMapped mem (frameOf cr3)) {l4 l3 l2 i : ℕ} (h4 : l4 < 512) (h3 : l3 < 512)
    (h2 : l2 < 512) (hi : i < 512) (hl : Linked mem (frameOf cr3) [l4, l3, l2]) :
    translate mem cr3 (craftAddr recursiveMappingEntry l4 l3 l2 (i * 8)) =
      some (4096 * follow pageTables mem (frameOf cr3) [l4, l3, l2] + 8 * i) := by
  have hl' : Linked mem (frameOf cr3) [50, l4, l3, l2] := (h.linked _).mpr hl
  rw [recursiveMappingEntry, translate_craftAddr (by decide) h4 h3 h2 (by omega) hl',
    ← recursiveMappingEntry, h.follow, Nat.mul_comm i]

end Pointers

/-- Cutting an address into its fields and crafting it again gives it back. -/
theorem craftAddr_split {addr : ℕ} (h : addr < 2 ^ 48) :
    craftAddr (shiftr addr 9 39) (shiftr addr 9 30) (shiftr addr 9 21) (shiftr addr 9 12)
      (addr &&& maskL0) = addr := by
  have h0 : addr &&& maskL0 = addr % 4096 := Nat.and_two_pow_sub_one_eq_mod addr 12
  simp only [shiftr_eq, h0]
  rw [craftAddr_eq] <;> omega

/-- Through a page directory of `create_page_directory`, a crafted pointer of each level reaches
the entry that the direct walk of its indices finds. -/
theorem recursive_walk_faithful {mem₀ mem₁ mem : PhysMem} {limine p : ℕ} (hp : p < 2 ^ 64)
    (hal : p % 4096 = 0) (hcreate : createPageDirectory mem₀ limine p = some mem₁)
    (hmem : mem (p + 8 * recursiveMappingEntry) = mem₁ (p + 8 * recursiveMappingEntry)) :
    (∀ l4 l3 l2 l1, l4 < 512 → l3 < 512 → l2 < 512 → l1 < 512 → Linked mem (frameOf p) [l4, l3, l2] →
      translate mem p (craftAddr 50 l4 l3 l2 (l1 * 8)) =
        some (4096 * follow pageTables mem (frameOf p) [l4, l3, l2] + 8 * l1)) ∧
    (∀ l4 l3 l2, l4 < 512 → l3 < 512 → l2 < 512 → Linked mem (frameOf p) [l4, l3] →
      translate mem p (craftAddr 50 50 l4 l3 (l2 * 8)) =
        some (4096 * follow pageTables mem (frameOf p) [l4, l3] + 8 * l2)) ∧
    (∀ l4 l3, l4 < 512 → l3 < 512 → Linked mem (frameOf p) [l4] →
      translate mem p (craftAddr 50 50 50 l4 (l3 * 8)) =
        some (4096 * follow pageTables mem (frameOf p) [l4] + 8 * l3)) ∧
    (∀ l4, l4 < 512 → translate mem p (craftAddr 50 50 50 50 (l4 * 8)) = some (p + 8 * l4)) ∧
    (∀ addr, addr < 2 ^ 48 → craftAddr (shiftr addr 9 39) (shiftr addr 9 30) (shiftr addr 9 21)
      (shiftr addr 9 12) (addr &&& maskL0) = addr) := by
  obtain ⟨hself, hf⟩ := createPageDirectory_selfMapped hp hal hcreate hmem
  refine ⟨fun l4 l3 l2 l1 h4 h3 h2 h1 hl => translate_l1 hself h4 h3 h2 h1 hl,
    fun l4 l3 l2 h4 h3 h2 hl => translate_l2 hself h4 h3 h2 hl,
    fun l4 l3 h4 h3 hl => translate_l3 hself h4 h3 hl, fun l4 h4 => ?_, fun _ => craftAddr_split⟩
  have h := translate_l4 hself h4
  rwa [follow_nil, hf] at h

/-- The directory at 0x1000 with a table of each level below its first entry. -/
def threeTables (mem : PhysMem) : PhysMem := fun x =>
  if x = 0x1000 then 0x2003 else if x = 0x2000 then 0x3003 else if x = 0x3000 then 0x4003 else mem x

theorem recursive_walk_faithful_blank : ∃ mem,
    createPageDirectory (fun _ => 0) stivaleBase 0x1000 = some mem ∧
      translate (threeTables mem) 0x1000 (craftAddr 50 0 0 0 (5 * 8)) = some (0x4000 + 8 * 5) ∧
      translate (threeTables mem) 0x1000 (craftAddr 50 50 0 0 (6 * 8)) = some (0x3000 + 8 * 6) ∧
      translate (threeTables mem) 0x1000 (craftAddr 50 50 50 50 (7 * 8)) = some (0x1000 + 8 * 7) := by
  obtain ⟨mem, hmem⟩ := createPageDirectory_succeeds (p := 0x1000) (le_refl stivaleBase) (by decide)
    (by decide) fun _ => 0
  have hroot : frameOf 0x1000 = 1 := by decide
  have hframe4 : frameOf 0x2003 = 2 := by decide
  have hframe3 : frameOf 0x3003 = 3 := by decide
  have hframe2 : frameOf 0x4003 = 4 := by decide
  have hentry4 : threeTables mem (4096 * 1 + 8 * 0) = 0x2003 := rfl
  have hentry3 : threeTables mem (4096 * 2 + 8 * 0) = 0x3003 := rfl
  have hentry2 : threeTables mem (4096 * 3 + 8 * 0) = 0x4003 := rfl
  have hlink {e : ℕ} (h0 : e.testBit 0 = true) (h7 : e.testBit 7 = false) : Link e := ⟨h0, h7⟩
  have hlinked3 : Linked (threeTables mem) (frameOf 0x1000) [0, 0] := by
    rw [linked_cons, linked_cons, hroot, hentry4, hframe4, hentry3]
    exact ⟨hlink (by decide) (by decide), hlink (by decide) (by decide), trivial⟩
  have hlinked2 : Linked (threeTables mem) (frameOf 0x1000) [0, 0, 0] := by
    rw [linked_cons, linked_cons, linked_cons, hroot, hentry4, hframe4, hentry3, hframe3, hentry2]
    exact ⟨hlink (by decide) (by decide), hlink (by decide) (by decide), hlink (by decide) (by decide), trivial⟩
  have hslot : threeTables mem (0x1000 + 8 * recursiveMappingEntry) = mem (0x1000 + 8 * recursiveMappingEntry) := rfl
  obtain ⟨h1, h2, -, h4, -⟩ := recursive_walk_faithful (by decide) (by decide) hmem hslot
  have hlevel1 := h1 0 0 0 5 (by decide) (by decide) (by decide) (by decide) hlinked2
  have hlevel2 := h2 0 0 6 (by decide) (by decide) (by decide) hlinked3
  simp only [follow_cons, follow_nil, pageTables_child, pageTables_cell, hroot, hentry4, hframe4, hentry3, hframe3,
    hentry2, hframe2] at hlevel1
  simp only [follow_cons, follow_nil, pageTables_child, pageTables_cell, hroot, hentry4, hframe4, hentry3,
    hframe3] at hlevel2
  exact ⟨mem, hmem, hlevel1, hlevel2, h4 7 (by decide)⟩

end Raccoon.Mmu
