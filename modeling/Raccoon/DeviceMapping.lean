import Raccoon.MapPhysical

/-!
`kmmap_physical`, the mapping of a stretch of physical memory such as the
registers of the interrupt controllers. The physical address, the size that is
left and the page move together through the nest.
-/

namespace Raccoon.Mmu

open TableTree Loops Outcome Machine

section Proof

variable {A : Type} [FrameSource A] {m₀ m m' : Machine A} {addr physicalAddr size flags first P : ℕ}

/-- From `m₀` to `m` the pages in `[first, P)` have got the physical memory from `physicalAddr` on. New tables
were made of frames of the allocator, and no other leaf has changed. -/
structure Translated (m₀ m : Machine A) (physicalAddr flags first P : ℕ) : Prop where
  cr3 : m.cr3 = m₀.cr3
  wf : WellFormed m.mem m.root
  fresh : Fresh m
  drawn : ∃ n, (∀ i, nthFrame m.frames i = nthFrame m₀.frames (n + i)) ∧
    ∀ t, TableFrame m.mem m.root t → TableFrame m₀.mem m₀.root t ∨ Drawn m₀ n t
  leaves : ∀ Q, TreePage Q → leaf m.mem m.root Q =
    if first ≤ Q ∧ Q < P then wadd physicalAddr (4096 * (Q - first)) ||| flags ||| 1 else leaf m₀.mem m₀.root Q

theorem Translated.refl (hwf : WellFormed m.mem m.root) (hfresh : Fresh m) :
    Translated m m physicalAddr flags first first where
  cr3 := rfl
  wf := hwf
  fresh := hfresh
  drawn := ⟨0, fun i => by rw [Nat.zero_add], fun _ ht => .inl ht⟩
  leaves Q _ := (if_neg (by omega)).symm

theorem Translated.table (h : Translated m₀ m physicalAddr flags first P) (hg : Grows m m')
    (hleaf : ∀ Q, TreePage Q → leaf m'.mem m'.root Q = leaf m.mem m.root Q) :
    Translated m₀ m' physicalAddr flags first P := by
  obtain ⟨n, hsupply, htables⟩ := h.drawn
  obtain ⟨k, hsupply', htables', -⟩ := hg.drawn
  refine ⟨hg.cr3.trans h.cr3, hg.wf, hg.fresh, ⟨n + k, fun i => ?_, fun t ht => ?_⟩,
    fun Q hQ => (hleaf Q hQ).trans (h.leaves Q hQ)⟩
  · rw [hsupply', hsupply, Nat.add_assoc]
  · rcases htables' t ht with ht | hd
    · exact (htables t ht).imp_right fun hd => hd.mono (Nat.le_add_right n k)
    · exact .inr (hd.later hsupply)

theorem Translated.write (h : Translated m₀ m physicalAddr flags first P) (hle : first ≤ P)
    (hm' : LeafWritten m P (wadd physicalAddr (4096 * (P - first)) ||| flags ||| 1) m') :
    Translated m₀ m' physicalAddr flags first (P + 1) := by
  obtain ⟨n, hsupply, htables⟩ := h.drawn
  refine ⟨hm'.cr3.trans h.cr3, hm'.wf, hm'.fresh h.fresh,
    ⟨n, fun i => hm'.frames ▸ hsupply i, fun t ht => htables t ((hm'.tables t).mp ht)⟩, fun Q hQ => ?_⟩
  by_cases he : Q = P
  · subst he
    rw [hm'.self, if_pos ⟨hle, Q.lt_succ_self⟩]
  · have hrange : (first ≤ Q ∧ Q < P + 1) ↔ (first ≤ Q ∧ Q < P) := by omega
    rw [hm'.other Q hQ he, h.leaves Q hQ, if_congr hrange rfl rfl]

/-- The invariant of the nest about to visit page `P`: the physical address is as far ahead of the first one as
the page is of the first page. -/
structure TranslateInv (m₀ : Machine A) (physicalAddr size flags first P : ℕ) (m : Machine A)
    (v : KmmapPhysicalVars) : Prop where
  done : Translated m₀ m physicalAddr flags first P
  le : first ≤ P
  offset : v.l0 = 0
  physical : v.physicalAddr = wadd physicalAddr (4096 * (P - first))
  pos : 0 < v.size
  rest : 4096 * (P - first) + v.size = size

theorem kmmapPhysical_translateInvariant (hlt : size < 2 ^ 64)
    (htree : ∀ i, 4096 * i < size → TreePage (first + i)) :
    PageInvariant (kmmapPhysicalPage flags)
      (fun s => Translated m₀ s.1 physicalAddr flags first (first + (size + 4095) / 4096))
      (TranslateInv m₀ physicalAddr size flags first) where
  tree {P m v} h := by
    obtain ⟨k, rfl⟩ := Nat.exists_eq_add_of_le h.le
    have hpos := h.pos
    have hrest := h.rest
    exact htree k (by omega)
  wf h := h.done.wf
  fresh h := h.done.fresh
  table h hg hleaf := ⟨h.done.table hg hleaf, h.le, h.offset, h.physical, h.pos, h.rest⟩
  body {P m v} h hl := by
    obtain ⟨k, rfl⟩ := Nat.exists_eq_add_of_le h.le
    have hpos := h.pos
    have hrest := h.rest
    have hphysical := h.physical
    refine (kmmapPhysicalPage_ends h.done.wf (htree k (by omega)) hl h.offset (by omega)).mono
      (fun _ h => h.elim) ?_ ?_
    · rintro s ⟨hlast, -, hm'⟩
      rw [hphysical] at hm'
      have hend : first + (size + 4095) / 4096 = first + k + 1 := by omega
      rw [hend]
      exact h.done.write h.le hm'
    · rintro ⟨m', v'⟩ ⟨hmore, rfl, hm'⟩
      rw [hphysical] at hm'
      refine ⟨⟨h.done.write h.le hm', h.le.step, rfl, ?_, ?_, ?_⟩, hm'.live⟩
      · dsimp only
        rw [hphysical]
        unfold wadd
        omega
      · exact Nat.sub_pos_of_lt hmore
      · dsimp only
        omega

/-- `kmmap_physical` gives the pages of the range consecutive pages of physical memory, whatever their leaves were
before, and changes no other leaf. -/
theorem kmmapPhysical_translates (hwf : WellFormed m.mem m.root) (hfresh : Fresh m) (hflags : Attributes flags)
    (haddr : addr % 4096 = 0) (hphysical : physicalAddr < 2 ^ 64) (hpos : 0 < size)
    (hsize : addr % 2 ^ 48 + size ≤ 2 ^ 48)
    (hslot : ∀ i, 4096 * i < size → (addr % 2 ^ 48 / 4096 + i) / 2 ^ 27 ≠ recursiveMappingEntry)
    (hget : kmmapPhysical addr physicalAddr size flags m ≠ .error .outOfMemory) :
    ∃ m' written n, kmmapPhysical addr physicalAddr size flags m = .ok (m', written) ∧ m'.cr3 = m.cr3 ∧
      WellFormed m'.mem m'.root ∧ (∀ i, nthFrame m'.frames i = nthFrame m.frames (n + i)) ∧
      (∀ t, TableFrame m'.mem m'.root t → TableFrame m.mem m.root t ∨ Drawn m n t) ∧
      (∀ i, 4096 * i < size → leaf m'.mem m'.root (addr % 2 ^ 48 / 4096 + i) =
        wadd physicalAddr (4096 * i) ||| flags ||| 1) ∧
      ∀ Q, TreePage Q → (∀ i, 4096 * i < size → Q ≠ addr % 2 ^ 48 / 4096 + i) →
        leaf m'.mem m'.root Q = leaf m.mem m.root Q := by
  have htree : ∀ i, 4096 * i < size → TreePage (addr % 2 ^ 48 / 4096 + i) :=
    fun i hi => ⟨by omega, hslot i hi⟩
  have hoffset : shiftr addr 12 0 = 0 := by rw [shiftr_eq]; omega
  have hstart : physicalAddr = wadd physicalAddr (4096 * (addr % 2 ^ 48 / 4096 - addr % 2 ^ 48 / 4096)) := by
    rw [Nat.sub_self, Nat.mul_zero, wadd_eq (by omega), Nat.add_zero]
  have hinv : PageInvariant (kmmapPhysicalPage flags) _ (TranslateInv m physicalAddr size flags _) :=
    kmmapPhysical_translateInvariant (by omega) htree
  have hend := hinv.ends hflags.entryFlags addr m
    ⟨physicalAddr, shiftr addr 12 0, size, []⟩
    ⟨.refl hwf hfresh, le_rfl, hoffset, hstart, hpos, by rw [Nat.sub_self, Nat.mul_zero, Nat.zero_add]⟩
  rw [kmmapPhysical] at hget ⊢
  cases hrun : overPages (kmmapPhysicalPage flags) flags addr m ⟨physicalAddr, shiftr addr 12 0, size, []⟩ with
  | fail e =>
    rw [hrun] at hend hget
    obtain rfl : e = .outOfMemory := hend
    exact absurd rfl hget
  | next c => rw [hrun] at hend; exact hend.elim
  | done s =>
    rw [hrun] at hend
    have hdone : Translated m s.1 physicalAddr flags _ _ := hend
    obtain ⟨n, hsupply, htables⟩ := hdone.drawn
    refine ⟨s.1, s.2, n, rfl, hdone.cr3, hdone.wf, hsupply, htables, fun i hi => ?_, fun Q hQ hout => ?_⟩
    · rw [hdone.leaves _ (htree i hi), if_pos (by omega), Nat.add_sub_cancel_left]
    · refine (hdone.leaves Q hQ).trans (if_neg fun hin => ?_)
      exact hout (Q - addr % 2 ^ 48 / 4096) (by omega) (by omega)

end Proof

/-- The registers of an interrupt controller, two pages at `0xfee00000`. -/
theorem kmmapPhysical_translates_blank : ∃ m' written,
    kmmapPhysical 0x1ff000 0xfee00000 0x2000 2 blankMachine = .ok (m', written) ∧ WellFormed m'.mem m'.root ∧
      leaf m'.mem m'.root 0x1ff = 0xfee00003 ∧ leaf m'.mem m'.root 0x200 = 0xfee01003 := by
  have hget : kmmapPhysical 0x1ff000 0xfee00000 0x2000 2 blankMachine ≠ .error .outOfMemory :=
    ne_error_of_isOk (by decide +kernel) _
  obtain ⟨m', written, -, hrun, -, hwf, -, -, hleaves, -⟩ := kmmapPhysical_translates blankMachine_tables.1
    blankMachine_fresh ⟨by decide, by decide⟩ (by decide) (by decide) (by decide) (by decide)
    (fun i hi => by unfold recursiveMappingEntry; omega) hget
  exact ⟨m', written, hrun, hwf, hleaves 0 (by decide), hleaves 1 (by decide)⟩

end Raccoon.Mmu
