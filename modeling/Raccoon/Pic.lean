import Mathlib.Data.List.Basic
import Mathlib.Logic.Function.Basic
import Mathlib.Algebra.Group.Nat.Defs

/-!
Interrupt controllers of eight lines each, the lowest one first, and a pair of
them: a slave on a line of the master. Requests are edges that are kept until
they are acknowledged.
-/

namespace Raccoon.Pic

/-- The word that the data port takes next. -/
inductive Stage where
  | icw2
  | icw3
  | icw4
  | ready
deriving DecidableEq

structure Chip where
  stage : Stage
  single : Bool
  fourth : Bool
  base : ℕ
  cascade : ℕ
  autoEoi : Bool
  imr : ℕ → Bool
  irr : ℕ → Bool
  isr : ℕ → Bool

def noLine : ℕ → Bool := fun _ => false

/-- The first of the eight lines. -/
def first (p : ℕ → Bool) : Option ℕ := (List.range 8).find? p

theorem first_eq_some {p : ℕ → Bool} {i : ℕ} : first p = some i ↔ p i = true ∧ i < 8 ∧ ∀ j < i, p j = false := by
  simp [first, List.find?_range_eq_some]

theorem first_eq_none {p : ℕ → Bool} : first p = none ↔ ∀ i < 8, p i = false := by
  simp [first]

namespace Chip

variable {c : Chip} {i : ℕ}

/-- The first line that is requested and not masked, if no line up to it is in service. -/
def pending (c : Chip) : Option ℕ :=
  (first fun i => c.irr i && !c.imr i).filter fun i => (List.range (i + 1)).all fun j => !c.isr j

def acknowledge (i : ℕ) (c : Chip) : Chip :=
  { c with
    irr := Function.update c.irr i false
    isr := if c.autoEoi then c.isr else Function.update c.isr i true }

/-- The end of the first interrupt in service. -/
def eoi (c : Chip) : Chip :=
  match first c.isr with
  | some i => { c with isr := Function.update c.isr i false }
  | none => c

/-- A byte to the first port. Rotations, ends of given lines and the third command word are left out. -/
def command (d : ℕ) (c : Chip) : Chip :=
  if d.testBit 4 then
    { c with
      stage := .icw2
      single := d.testBit 1
      fourth := d.testBit 0
      autoEoi := false
      imr := noLine
      irr := noLine
      isr := noLine }
  else if d.testBit 3 then c
  else if d / 2 ^ 5 = 1 then c.eoi
  else c

/-- A byte to the second port. -/
def data (d : ℕ) (c : Chip) : Chip :=
  match c.stage with
  | .icw2 => { c with base := d / 8 * 8, stage := if !c.single then .icw3 else if c.fourth then .icw4 else .ready }
  | .icw3 => { c with cascade := d, stage := if c.fourth then .icw4 else .ready }
  | .icw4 => { c with autoEoi := d.testBit 1, stage := .ready }
  | .ready => { c with imr := d.testBit }

def request (i : ℕ) (c : Chip) : Chip := { c with irr := Function.update c.irr i true }

theorem pending_eq_some : c.pending = some i ↔
    first (fun i => c.irr i && !c.imr i) = some i ∧ ∀ j ≤ i, c.isr j = false := by
  simp only [pending, Option.filter_eq_some_iff, List.all_eq_true, List.mem_range, Nat.lt_succ_iff, Bool.not_eq_true']

theorem eoi_only (hi : i < 8) (h : c.isr = Function.update noLine i true) : c.eoi = { c with isr := noLine } := by
  have hfirst : first c.isr = some i := by
    refine first_eq_some.mpr ⟨?_, hi, fun j hj => ?_⟩
    · rw [h, Function.update_self]
    · rw [h, Function.update_of_ne (by omega), noLine]
  have hnone : Function.update c.isr i false = noLine := by
    rw [h, Function.update_idem]
    exact Function.update_eq_self i noLine
  rw [eoi, hfirst]
  dsimp only
  rw [hnone]

end Chip

structure Pair where
  master : Chip
  slave : Chip

namespace Pair

/-- The line of the master is that of the slave. -/
def behind (p : Pair) (i : ℕ) : Bool := p.master.cascade.testBit i && p.slave.cascade % 8 == i

/-- The master with the request of its slave. -/
def inputs (p : Pair) : Chip :=
  { p.master with irr := fun i => p.master.irr i || p.behind i && p.slave.pending.isSome }

/-- The processor takes the vector. -/
def accept (p : Pair) : Option (ℕ × Pair) := do
  let i ← p.inputs.pending
  if p.behind i then
    let j ← p.slave.pending
    some (p.slave.base + j, ⟨p.master.acknowledge i, p.slave.acknowledge j⟩)
  else some (p.master.base + i, ⟨p.master.acknowledge i, p.slave⟩)

def outb (port d : ℕ) (p : Pair) : Pair :=
  if port = 0x20 then { p with master := p.master.command d }
  else if port = 0x21 then { p with master := p.master.data d }
  else if port = 0xA0 then { p with slave := p.slave.command d }
  else if port = 0xA1 then { p with slave := p.slave.data d }
  else p

end Pair

end Raccoon.Pic
