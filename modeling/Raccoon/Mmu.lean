import Raccoon.Words
import Raccoon.TableTree

/-!
Physical memory and the 4-level walk of the memory management unit. Only the
translation is modelled: the kernel runs in supervisor mode and the source
never sets the write-protect bit, so permission bits do not stop its accesses.
-/

namespace Raccoon.Mmu

open TableTree

/-- The 64-bit word at each physical address that is a multiple of 8. -/
abbrev PhysMem := ℕ → ℕ

/-- Bits 12 to 51 of an entry: the number of the frame it points to. -/
def frameOf (e : ℕ) : ℕ := e / 4096 % 2 ^ 40

/-- Page tables are frames of 512 words. -/
def pageTables : Layout ℕ ℕ ℕ where
  arity := 512
  cell f i := 4096 * f + 8 * i
  child := frameOf
  cell_inj := by
    intro t u i j hi hj h
    omega

@[simp] theorem pageTables_arity : pageTables.arity = 512 := rfl
@[simp] theorem pageTables_cell (f i : ℕ) : pageTables.cell f i = 4096 * f + 8 * i := rfl
@[simp] theorem pageTables_child (e : ℕ) : pageTables.child e = frameOf e := rfl

def canonical (va : ℕ) : Bool := va < 2 ^ 47 || (2 ^ 64 - 2 ^ 47 ≤ va && va < 2 ^ 64)

/-- The physical address the hardware reaches for `va`, or `none` for a page fault. Bit 0 of an
entry is the present bit; bit 7 selects a huge page at levels 3 and 2 and is reserved at level 4. -/
def translate (mem : PhysMem) (cr3 va : ℕ) : Option ℕ :=
  let e4 := mem (4096 * frameOf cr3 + 8 * (va / 2 ^ 39 % 512))
  let e3 := mem (4096 * frameOf e4 + 8 * (va / 2 ^ 30 % 512))
  let e2 := mem (4096 * frameOf e3 + 8 * (va / 2 ^ 21 % 512))
  let e1 := mem (4096 * frameOf e2 + 8 * (va / 2 ^ 12 % 512))
  if !canonical va then none
  else if !e4.testBit 0 || e4.testBit 7 then none
  else if !e3.testBit 0 then none
  else if e3.testBit 7 then some (e3 / 2 ^ 30 % 2 ^ 22 * 2 ^ 30 + va % 2 ^ 30)
  else if !e2.testBit 0 then none
  else if e2.testBit 7 then some (e2 / 2 ^ 21 % 2 ^ 31 * 2 ^ 21 + va % 2 ^ 21)
  else if !e1.testBit 0 then none
  else some (4096 * frameOf e1 + va % 4096)

theorem canonical_of_translate {mem : PhysMem} {cr3 va : ℕ} (h : translate mem cr3 va ≠ none) :
    canonical va = true := by
  by_contra hc
  rw [Bool.not_eq_true] at hc
  simp [translate, hc] at h

def load (mem : PhysMem) (cr3 va : ℕ) : Option ℕ := (translate mem cr3 va).map mem

def store (mem : PhysMem) (cr3 va w : ℕ) : Option PhysMem :=
  (translate mem cr3 va).map fun a => Function.update mem a w

/-- An entry the hardware walks through to a next table. -/
def Link (e : ℕ) : Prop := e.testBit 0 = true ∧ e.testBit 7 = false

instance (e : ℕ) : Decidable (Link e) := inferInstanceAs (Decidable (_ ∧ _))

theorem ne_zero_of_bit {e b : ℕ} (h : e.testBit b = true) : e ≠ 0 := by
  rintro rfl
  rw [Nat.zero_testBit] at h
  cases h

theorem Link.ne {e : ℕ} (h : Link e) : e ≠ 0 := ne_zero_of_bit h.1

def Linked (mem : PhysMem) (t : ℕ) : List ℕ → Prop
  | [] => True
  | i :: q => Link (mem (4096 * t + 8 * i)) ∧ Linked mem (frameOf (mem (4096 * t + 8 * i))) q

variable {mem : PhysMem} {t : ℕ}

@[simp] theorem linked_nil : Linked mem t [] := trivial

@[simp] theorem linked_cons (i : ℕ) (q : List ℕ) : Linked mem t (i :: q) ↔
    Link (mem (4096 * t + 8 * i)) ∧ Linked mem (frameOf (mem (4096 * t + 8 * i))) q := Iff.rfl

theorem linked_append (q r : List ℕ) :
    Linked mem t (q ++ r) ↔ Linked mem t q ∧ Linked mem (follow pageTables mem t q) r := by
  induction q generalizing t with
  | nil => simp
  | cons i q ih => simp [ih, and_assoc]

/-- The last entry of the walk only has to be present. -/
theorem translate_of_walk {cr3 va : ℕ} (hc : canonical va = true)
    (h : Linked mem (frameOf cr3) [va / 2 ^ 39 % 512, va / 2 ^ 30 % 512, va / 2 ^ 21 % 512])
    (hlast : (mem (4096 * follow pageTables mem (frameOf cr3)
      [va / 2 ^ 39 % 512, va / 2 ^ 30 % 512, va / 2 ^ 21 % 512] + 8 * (va / 2 ^ 12 % 512))).testBit 0 = true) :
    translate mem cr3 va = some (4096 * frameOf (mem (4096 * follow pageTables mem (frameOf cr3)
      [va / 2 ^ 39 % 512, va / 2 ^ 30 % 512, va / 2 ^ 21 % 512] + 8 * (va / 2 ^ 12 % 512))) + va % 4096) := by
  obtain ⟨⟨p4, h4⟩, ⟨p3, h3⟩, ⟨p2, h2⟩, -⟩ := h
  simp only [follow_cons, follow_nil, pageTables_cell, pageTables_child] at hlast ⊢
  simp only [translate, hc, p4, h4, p3, h3, p2, h2, hlast, Bool.not_true, Bool.or_self, Bool.false_eq_true,
    ↓reduceIte]

theorem translate_of_linked {cr3 va : ℕ} (hc : canonical va = true)
    (h : Linked mem (frameOf cr3)
      [va / 2 ^ 39 % 512, va / 2 ^ 30 % 512, va / 2 ^ 21 % 512, va / 2 ^ 12 % 512]) :
    translate mem cr3 va = some (4096 * follow pageTables mem (frameOf cr3)
      [va / 2 ^ 39 % 512, va / 2 ^ 30 % 512, va / 2 ^ 21 % 512, va / 2 ^ 12 % 512] + va % 4096) := by
  obtain ⟨hwalk, hlast, -⟩ := (linked_append [va / 2 ^ 39 % 512, va / 2 ^ 30 % 512, va / 2 ^ 21 % 512] _).mp h
  exact translate_of_walk hc hwalk hlast.1

theorem translate_clear {cr3 va x : ℕ} (h : translate mem cr3 va = none) :
    translate (Function.update mem x 0) cr3 va = none := by
  have hcell (y : ℕ) : Function.update mem x 0 y = 0 ∨ Function.update mem x 0 y = mem y := by
    by_cases hy : y = x
    · exact .inl (hy ▸ Function.update_self ..)
    · exact .inr (Function.update_of_ne hy ..)
  simp only [translate] at h ⊢
  rcases hcell (4096 * frameOf cr3 + 8 * (va / 2 ^ 39 % 512)) with h4 | h4
  · simp only [h4, Nat.zero_testBit, Bool.not_false, Bool.true_or, if_true, ite_self]
  rw [h4]
  generalize mem (4096 * frameOf cr3 + 8 * (va / 2 ^ 39 % 512)) = e4 at h ⊢
  rcases hcell (4096 * frameOf e4 + 8 * (va / 2 ^ 30 % 512)) with h3 | h3
  · simp only [h3, Nat.zero_testBit, Bool.not_false, if_true, ite_self]
  rw [h3]
  generalize mem (4096 * frameOf e4 + 8 * (va / 2 ^ 30 % 512)) = e3 at h ⊢
  rcases hcell (4096 * frameOf e3 + 8 * (va / 2 ^ 21 % 512)) with h2 | h2
  · simp only [h2, Nat.zero_testBit, Bool.not_false, if_true]
    split_ifs at h ⊢ <;> rfl
  rw [h2]
  generalize mem (4096 * frameOf e3 + 8 * (va / 2 ^ 21 % 512)) = e2 at h ⊢
  rcases hcell (4096 * frameOf e2 + 8 * (va / 2 ^ 12 % 512)) with h1 | h1
  · simp only [h1, Nat.zero_testBit, Bool.not_false, if_true]
    split_ifs at h ⊢ <;> rfl
  rw [h1]
  exact h

/-- The walk of a crafted address goes through the indices it was made of. -/
theorem translate_craftAddr {cr3 a b c d o : ℕ} (ha : a < 256) (hb : b < 512) (hc : c < 512)
    (hd : d < 512) (ho : o < 4096) (h : Linked mem (frameOf cr3) [a, b, c, d]) :
    translate mem cr3 (craftAddr a b c d o) =
      some (4096 * follow pageTables mem (frameOf cr3) [a, b, c, d] + o) := by
  have he := craftAddr_eq (show a < 512 by omega) hb hc hd ho
  have ea : craftAddr a b c d o / 2 ^ 39 % 512 = a := by omega
  have eb : craftAddr a b c d o / 2 ^ 30 % 512 = b := by omega
  have ec : craftAddr a b c d o / 2 ^ 21 % 512 = c := by omega
  have ed : craftAddr a b c d o / 2 ^ 12 % 512 = d := by omega
  have eo : craftAddr a b c d o % 4096 = o := by omega
  have hcan : canonical (craftAddr a b c d o) = true := by
    simp only [canonical, Bool.or_eq_true, decide_eq_true_eq]
    left
    omega
  have := translate_of_linked hcan (show Linked mem (frameOf cr3) _ by rw [ea, eb, ec, ed]; exact h)
  rwa [ea, eb, ec, ed, eo] at this

end Raccoon.Mmu
