import Mathlib.Logic.Function.Basic
import Raccoon.Madt

/-!
`redirect_interrupts`. The pin that is written is counted from the ISA
interrupt, and the one that is meant from the global interrupt.
-/

namespace Raccoon.InterruptRouting

open CoreLaunch Madt

structure InterruptSourceOverride where
  irq : BitVec 8
  globalSystemInterrupt : BitVec 32
deriving DecidableEq

/-- Of the registers that the index byte of the I/O APIC selects, 240 are for redirection entries. -/
structure IoapicEntry where
  base : BitVec 32
  maxRedirection : ℕ
  addressable : maxRedirection < 120

/-- `apic_info` with at least one local APIC, of which it has the `ACPI_id`. -/
structure ApicInfo where
  lapics : Slots (BitVec 8) maxCore
  lapicsPos : 0 < lapics.count
  ioapic : IoapicEntry
  interrupt : Slots InterruptSourceOverride maxCore

def ApicInfo.acpiId (a : ApicInfo) : BitVec 8 := a.lapics.entries.get ⟨0, a.lapicsPos⟩

/-- The registers of the I/O APIC by their index. -/
abbrev Registers := BitVec 8 → BitVec 32

def cpuWriteIoAPIC (reg value : BitVec 32) (r : Registers) : Registers := Function.update r (reg.setWidth 8) value

/-- `irq` is a signed character. -/
def Redirected (a : IoapicEntry) (o : InterruptSourceOverride) : Prop :=
  a.base < o.globalSystemInterrupt ∧ (o.irq.signExtend 64).toNat ≤ a.maxRedirection

instance (a : IoapicEntry) (o : InterruptSourceOverride) : Decidable (Redirected a o) :=
  inferInstanceAs (Decidable (_ ∧ _))

def redirectInterrupt (a : ApicInfo) (r : Registers) (o : InterruptSourceOverride) : Registers :=
  if Redirected a.ioapic o then
    let value := (o.irq.signExtend 32 + 32) ||| 1 <<< 13
    let reg := 0x10 + (o.irq.signExtend 32 - a.ioapic.base) * 2
    cpuWriteIoAPIC (reg + 1) (a.acpiId.signExtend 32) (cpuWriteIoAPIC reg value r)
  else r

def redirectInterrupts (a : ApicInfo) (r : Registers) : Registers :=
  a.interrupt.entries.foldl (redirectInterrupt a) r

section Purpose

/-- The two registers of redirection entry `n`. -/
def lowRegister (n : ℕ) : BitVec 8 := BitVec.ofNat 8 (0x10 + 2 * n)
def highRegister (n : ℕ) : BitVec 8 := lowRegister n + 1

def vector (v : BitVec 32) : BitVec 8 := v.setWidth 8
def destination (v : BitVec 32) : BitVec 8 := (v >>> 24).setWidth 8

def InRange (a : IoapicEntry) (o : InterruptSourceOverride) : Prop :=
  a.base.toNat ≤ o.globalSystemInterrupt.toNat ∧
    o.globalSystemInterrupt.toNat ≤ a.base.toNat + a.maxRedirection

instance (a : IoapicEntry) (o : InterruptSourceOverride) : Decidable (InRange a o) :=
  inferInstanceAs (Decidable (_ ∧ _))

/-- The pin that an override in range is for. -/
def pin (a : IoapicEntry) (o : InterruptSourceOverride) : ℕ := o.globalSystemInterrupt.toNat - a.base.toNat

/-- Every override in range has its entry, and the other entries are as they were. -/
structure Routed (a : ApicInfo) (r r' : Registers) : Prop where
  named : ∀ o ∈ a.interrupt.entries, InRange a.ioapic o →
    vector (r' (lowRegister (pin a.ioapic o))) = o.irq + 32 ∧
      destination (r' (highRegister (pin a.ioapic o))) = a.acpiId
  unnamed : ∀ n ≤ a.ioapic.maxRedirection, (∀ o ∈ a.interrupt.entries, InRange a.ioapic o → pin a.ioapic o ≠ n) →
    r' (lowRegister n) = r (lowRegister n) ∧ r' (highRegister n) = r (highRegister n)

end Purpose

/-- The pin that is written for the override. -/
def writtenPin (a : IoapicEntry) (o : InterruptSourceOverride) : ℕ := (o.irq.toNat + 2 ^ 32 - a.base.toNat) % 128

/-- When the interrupts are routed, whatever the registers were. -/
structure Routable (a : ApicInfo) : Prop where
  destination : ∀ o ∈ a.interrupt.entries, InRange a.ioapic o → a.acpiId = 0 ∨ a.acpiId = 0xff
  own : ∀ o ∈ a.interrupt.entries, InRange a.ioapic o → o.globalSystemInterrupt.toNat % 128 = o.irq.toNat ∧
    ∃ o' ∈ a.interrupt.entries, o'.irq = o.irq ∧ Redirected a.ioapic o'
  others : ∀ o' ∈ a.interrupt.entries, Redirected a.ioapic o' → writtenPin a.ioapic o' ≤ a.ioapic.maxRedirection →
    ∃ o ∈ a.interrupt.entries, InRange a.ioapic o ∧ pin a.ioapic o = writtenPin a.ioapic o'

section Registers

variable {a : IoapicEntry} {o o' : InterruptSourceOverride} {n k : ℕ}

theorem signExtend_toNat {w : ℕ} {x : BitVec 8} (hx : x.toNat < 128) (hw : 8 ≤ w) : (x.signExtend w).toNat = x.toNat := by
  have hmsb : x.msb = false := by
    rw [BitVec.msb_eq_decide]
    exact decide_eq_false (by omega)
  have hpow : 2 ^ 8 ≤ 2 ^ w := Nat.pow_le_pow_right (by omega) hw
  rw [BitVec.toNat_signExtend, hmsb, if_neg Bool.false_ne_true, Nat.add_zero, BitVec.toNat_setWidth]
  exact Nat.mod_eq_of_lt (by omega)

/-- A negative character is beyond every pin. -/
theorem Redirected.irq_lt (h : Redirected a o) : o.irq.toNat < 128 := by
  have hmax := h.2
  have hlt := a.addressable
  have hirq := o.irq.isLt
  by_contra hneg
  have hmsb : o.irq.msb = true := by
    rw [BitVec.msb_eq_decide]
    exact decide_eq_true (by omega)
  rw [BitVec.toNat_signExtend, hmsb, if_pos rfl] at hmax
  omega

theorem lowRegister_inj (hn : n < 128) (hk : k < 128) : lowRegister n = lowRegister k ↔ n = k := by
  rw [lowRegister, lowRegister, ← BitVec.toNat_inj, BitVec.toNat_ofNat, BitVec.toNat_ofNat]
  omega

theorem highRegister_inj (hn : n < 128) (hk : k < 128) : highRegister n = highRegister k ↔ n = k := by
  rw [highRegister, highRegister, BitVec.add_left_inj, lowRegister_inj hn hk]

theorem lowRegister_ne_high : lowRegister n ≠ highRegister k := by
  rw [highRegister, lowRegister, lowRegister, ne_eq, ← BitVec.toNat_inj, BitVec.toNat_add, BitVec.toNat_ofNat,
    BitVec.toNat_ofNat, show (1 : BitVec 8).toNat = 1 from rfl]
  omega

theorem writtenPin_lt : writtenPin a o < 128 := Nat.mod_lt _ (by decide)

theorem pin_lt (h : InRange a o) : pin a o < 120 := by
  have hmax := h.2
  have hlt := a.addressable
  rw [pin]
  omega

theorem register_eq (h : Redirected a o) :
    (0x10 + (o.irq.signExtend 32 - a.base) * 2).setWidth 8 = lowRegister (writtenPin a o) := by
  have hirq := h.irq_lt
  have hbase := a.base.isLt
  have h16 : (0x10 : BitVec 32).toNat = 16 := rfl
  have h2 : (2 : BitVec 32).toNat = 2 := rfl
  apply BitVec.eq_of_toNat_eq
  simp only [BitVec.toNat_setWidth, BitVec.toNat_add, BitVec.toNat_mul, BitVec.toNat_sub, h16, h2,
    signExtend_toNat hirq (show 8 ≤ 32 by decide), lowRegister, writtenPin, BitVec.toNat_ofNat]
  omega

/-- The pin that is written is the one of the interrupt. -/
theorem writtenPin_inj (h : Redirected a o) (h' : Redirected a o') : writtenPin a o = writtenPin a o' ↔ o.irq = o'.irq := by
  have hirq := h.irq_lt
  have hirq' := h'.irq_lt
  have hbase := a.base.isLt
  rw [← BitVec.toNat_inj, writtenPin, writtenPin]
  omega

theorem pin_eq_writtenPin (h : InRange a o) (h' : Redirected a o') :
    pin a o = writtenPin a o' ↔ o.globalSystemInterrupt.toNat % 128 = o'.irq.toNat := by
  have hirq := h'.irq_lt
  have hbase := a.base.isLt
  have hlow := h.1
  have hlt := pin_lt h
  rw [pin] at hlt
  rw [pin, writtenPin]
  omega

end Registers

section Run

/-- What is written for an interrupt. -/
def lowValue (irq : BitVec 8) : BitVec 32 := (irq.signExtend 32 + 32) ||| 1 <<< 13

theorem vector_lowValue : ∀ irq, vector (lowValue irq) = irq + 32 := by decide +kernel

/-- The whole register is a sign-extended byte. -/
theorem destination_signExtend : ∀ id : BitVec 8, destination (id.signExtend 32) = id ↔ id = 0 ∨ id = 0xff := by
  decide +kernel

variable {a : ApicInfo} {o : InterruptSourceOverride} {l : List InterruptSourceOverride} {r : Registers} {n : ℕ}

theorem redirectInterrupt_redirected (h : Redirected a.ioapic o) : redirectInterrupt a r o =
    Function.update (Function.update r (lowRegister (writtenPin a.ioapic o)) (lowValue o.irq))
      (highRegister (writtenPin a.ioapic o)) (a.acpiId.signExtend 32) := by
  have hhigh (v : BitVec 32) : (v + 1).setWidth 8 = v.setWidth 8 + 1 := BitVec.setWidth_add _ _ (by decide)
  rw [redirectInterrupt, if_pos h]
  simp only [cpuWriteIoAPIC, hhigh, register_eq h]
  rfl

theorem redirectInterrupt_other (hn : n < 128) (h : Redirected a.ioapic o → writtenPin a.ioapic o ≠ n) :
    redirectInterrupt a r o (lowRegister n) = r (lowRegister n) ∧
      redirectInterrupt a r o (highRegister n) = r (highRegister n) := by
  by_cases ho : Redirected a.ioapic o
  · have hne := (h ho).symm
    rw [redirectInterrupt_redirected ho]
    constructor
    · rw [Function.update_of_ne lowRegister_ne_high,
        Function.update_of_ne (mt (lowRegister_inj hn writtenPin_lt).mp hne)]
    · rw [Function.update_of_ne (mt (highRegister_inj hn writtenPin_lt).mp hne),
        Function.update_of_ne lowRegister_ne_high.symm]
  · rw [redirectInterrupt, if_neg ho]
    exact ⟨rfl, rfl⟩

theorem foldl_unwritten (hn : n < 128) (h : ∀ o ∈ l, Redirected a.ioapic o → writtenPin a.ioapic o ≠ n) :
    l.foldl (redirectInterrupt a) r (lowRegister n) = r (lowRegister n) ∧
      l.foldl (redirectInterrupt a) r (highRegister n) = r (highRegister n) := by
  induction l generalizing r with
  | nil => exact ⟨rfl, rfl⟩
  | cons o l ih =>
    obtain ⟨hlow, hhigh⟩ := ih (r := redirectInterrupt a r o) fun o' ho' => h o' (List.mem_cons_of_mem _ ho')
    obtain ⟨hlow', hhigh'⟩ := redirectInterrupt_other (r := r) hn (h o List.mem_cons_self)
    exact ⟨hlow.trans hlow', hhigh.trans hhigh'⟩

theorem foldl_written (ho : o ∈ l) (h : Redirected a.ioapic o) :
    l.foldl (redirectInterrupt a) r (lowRegister (writtenPin a.ioapic o)) = lowValue o.irq ∧
      l.foldl (redirectInterrupt a) r (highRegister (writtenPin a.ioapic o)) = a.acpiId.signExtend 32 := by
  induction l generalizing r o with
  | nil => exact absurd ho List.not_mem_nil
  | cons o' l ih =>
    by_cases hlast : ∃ o'' ∈ l, Redirected a.ioapic o'' ∧ writtenPin a.ioapic o'' = writtenPin a.ioapic o
    · obtain ⟨o'', hmem, hred, hpin⟩ := hlast
      rw [← hpin, ← (writtenPin_inj hred h).mp hpin]
      exact ih hmem hred
    · have hrest : ∀ o'' ∈ l, Redirected a.ioapic o'' → writtenPin a.ioapic o'' ≠ writtenPin a.ioapic o :=
        fun o'' hmem hred hpin => hlast ⟨o'', hmem, hred, hpin⟩
      obtain rfl : o = o' := (List.mem_cons.mp ho).resolve_right fun hmem => hrest o hmem h rfl
      obtain ⟨hlow, hhigh⟩ := foldl_unwritten (r := redirectInterrupt a r o) writtenPin_lt hrest
      rw [List.foldl_cons, hlow, hhigh, redirectInterrupt_redirected h, Function.update_self,
        Function.update_of_ne lowRegister_ne_high, Function.update_self]
      exact ⟨rfl, rfl⟩

end Run

section Claim

variable {a : ApicInfo}

theorem Routable.routed (h : Routable a) (r : Registers) : Routed a r (redirectInterrupts a r) where
  named := by
    intro o ho hin
    obtain ⟨hgsi, o', ho', hirq, hred⟩ := h.own o ho hin
    have hpin := (pin_eq_writtenPin hin hred).mpr (hirq ▸ hgsi)
    obtain ⟨hlow, hhigh⟩ := foldl_written (r := r) ho' hred
    rw [hpin, redirectInterrupts, hlow, hhigh, vector_lowValue, hirq]
    exact ⟨rfl, (destination_signExtend _).mpr (h.destination o ho hin)⟩
  unnamed := by
    intro n hn hnone
    refine foldl_unwritten (by have := a.ioapic.addressable; omega) fun o' ho' hred hpin => ?_
    obtain ⟨o, ho, hin, hpin'⟩ := h.others o' ho' hred (hpin ▸ hn)
    exact hnone o ho hin (hpin'.trans hpin)

/-- The entry of an override in range is written only for the interrupt of its own number. -/
theorem routable_own (h : ∀ r, Routed a r (redirectInterrupts a r)) {o : InterruptSourceOverride}
    (ho : o ∈ a.interrupt.entries) (hin : InRange a.ioapic o) :
    o.globalSystemInterrupt.toNat % 128 = o.irq.toNat ∧
      (∃ o' ∈ a.interrupt.entries, o'.irq = o.irq ∧ Redirected a.ioapic o') ∧ (a.acpiId = 0 ∨ a.acpiId = 0xff) := by
  have hpin : pin a.ioapic o < 128 := (pin_lt hin).trans (by decide)
  obtain ⟨o', ho', hred, hwritten⟩ : ∃ o' ∈ a.interrupt.entries, Redirected a.ioapic o' ∧
      writtenPin a.ioapic o' = pin a.ioapic o := by
    by_contra hnone
    obtain ⟨hlow, -⟩ := foldl_unwritten (r := fun _ => (o.irq + 33).setWidth 32) hpin
      fun o' ho' hred hw => hnone ⟨o', ho', hred, hw⟩
    obtain ⟨hvec, -⟩ := (h fun _ => (o.irq + 33).setWidth 32).named o ho hin
    have hne : ∀ irq : BitVec 8, vector ((irq + 33).setWidth 32) ≠ irq + 32 := by decide +kernel
    rw [redirectInterrupts, hlow] at hvec
    exact hne _ hvec
  obtain ⟨hlow, hhigh⟩ := foldl_written (a := a) (r := fun _ => 0) ho' hred
  obtain ⟨hvec, hdest⟩ := (h fun _ => 0).named o ho hin
  rw [← hwritten, redirectInterrupts, hlow, vector_lowValue, BitVec.add_left_inj] at hvec
  rw [← hwritten, redirectInterrupts, hhigh, destination_signExtend] at hdest
  exact ⟨hvec ▸ (pin_eq_writtenPin hin hred).mp hwritten.symm, ⟨o', ho', hvec, hred⟩, hdest⟩

/-- The interrupts are routed from every state of the registers exactly if global and ISA numbers agree as far as
they are used. -/
theorem routed_iff : (∀ r, Routed a r (redirectInterrupts a r)) ↔ Routable a := by
  refine ⟨fun h => ⟨?_, ?_, ?_⟩, Routable.routed⟩
  · intro o ho hin
    exact (routable_own h ho hin).2.2
  · intro o ho hin
    obtain ⟨hgsi, hred, -⟩ := routable_own h ho hin
    exact ⟨hgsi, hred⟩
  · intro o' ho' hred hmax
    by_contra hnone
    obtain ⟨hlow, -⟩ := foldl_written (a := a) (r := fun _ => lowValue o'.irq + 1) ho' hred
    obtain ⟨hsame, -⟩ := (h fun _ => lowValue o'.irq + 1).unnamed _ hmax
      fun o ho hin hpin => hnone ⟨o, ho, hin, hpin⟩
    have hne : ∀ irq, lowValue irq ≠ lowValue irq + 1 := by decide +kernel
    rw [redirectInterrupts, hlow] at hsame
    exact hne _ hsame

end Claim

/-- The timer of ISA interrupt 0 on global interrupt 2. -/
def timerOverride : ApicInfo where
  lapics := ⟨[0], by decide⟩
  lapicsPos := by decide
  ioapic := ⟨0, 23, by decide⟩
  interrupt := ⟨[⟨0, 2⟩], by decide⟩

theorem timer_on_pin_zero :
    timerOverride.interrupt.entries.Pairwise (fun o o' => o.globalSystemInterrupt ≠ o'.globalSystemInterrupt) ∧
      redirectInterrupts timerOverride (fun _ => 0) (lowRegister 2) = 0 ∧
      vector (redirectInterrupts timerOverride (fun _ => 0) (lowRegister 0)) = 32 ∧
      ¬ Routed timerOverride (fun _ => 0) (redirectInterrupts timerOverride fun _ => 0) := by
  refine ⟨by decide, by decide, by decide, fun h => ?_⟩
  obtain ⟨hvec, -⟩ := h.named ⟨0, 2⟩ (by decide) (by decide)
  exact absurd hvec (by decide)

end Raccoon.InterruptRouting
