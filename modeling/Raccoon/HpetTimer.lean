import Raccoon.Rsdt

/-!
`hpet.c`: the period is what the first HPET table leads to, and stays zero
without one. The conversion to ticks multiplies before it divides.
-/

namespace Raccoon.HpetTimer

open Madt Rsdt Traced

/-- The static variables of `hpet.c`. -/
structure Timer where
  once : Bool
  hpetRegisterAddress : ℕ
  period : ℕ
deriving DecidableEq

def Timer.atBoot : Timer := ⟨false, 0, 0⟩

/-- Where `map_physical` puts the registers at a physical address, and what is read from the first of them. -/
structure Device where
  mapped : ℕ → ℕ
  capabilities : ℕ → BitVec 64

section Code

variable {α : Type} (m : Memory) (dev : Device)

def shiftR (x n shift : ℕ) : ℕ := x / 2 ^ shift % 2 ^ n

def hpetInit (h : ℕ) (t : Timer) : Except Stop Timer :=
  if t.once then .ok t
  else do
    let addressSpaceId ← loadWord kernelMap m (h + 40) 1
    if addressSpaceId ≠ 0 then .error .halted
    else do
      let address ← loadWord kernelMap m (h + 44) 8
      .ok ⟨true, dev.mapped address, shiftR (dev.capabilities address).toNat 32 32⟩

/-- No result is a division by zero. -/
def hpetMsToTick (t : Timer) (ms : ℕ) : Option ℕ :=
  if t.period = 0 then none else some (ms * 1000000000000 % 2 ^ 64 / t.period)

/-- The handlers of `parse_RSDT`, of which the second has the timer for its own. -/
def onMadt (parseMadt : ℕ → α → Except Stop α) (h : ℕ) (s : Timer × α) : Except Stop (Timer × α) :=
  (s.1, ·) <$> parseMadt h s.2

def onHpet (h : ℕ) (s : Timer × α) : Except Stop (Timer × α) := (·, s.2) <$> hpetInit m dev h s.1

/-- `parse_RSDT` on the tables at hand, from the start of the kernel. -/
def timerRun (parseMadt : ℕ → α → Except Stop α) (v : Statics) (a : α) : Traced Event Stop (Timer × α) :=
  parseRsdt m (onMadt parseMadt) (onHpet m dev) v (Timer.atBoot, a)

end Code

section Purpose

variable (m : Memory) (dev : Device)

/-- The RSDT that the descriptor leads to. -/
def rsdtUsed (v : Statics) : ℕ :=
  match loadWord kernelMap m (v.descRsdp20 + 16) 4 with
  | .ok r => r
  | .error _ => 0

def tables (v : Statics) : List ℕ :=
  (List.range (rsdtEntries (tableAt m (rsdtUsed m v)).length)).map (entry m (rsdtUsed m v))

/-- The upper half of the capability register of the HPET table at `p`. -/
def tablePeriod (p : ℕ) : ℕ := (dev.capabilities ((tableAt m p).value 44 8)).toNat / 2 ^ 32

def firstHpet (ps : List ℕ) : Option ℕ := ps.find? fun p => signature m p = hpet

/-- The timer after the table at `p`. -/
def timerOf (p : ℕ) : Timer := ⟨true, dev.mapped ((tableAt m p).value 44 8), tablePeriod m dev p⟩

end Purpose

section Run

variable {α : Type} {m : Memory} {dev : Device} {parseMadt : ℕ → α → Except Stop α} {p : ℕ}

theorem tablePeriod_lt (m : Memory) (dev : Device) (p : ℕ) : tablePeriod m dev p < 2 ^ 32 := by
  have := (dev.capabilities ((tableAt m p).value 44 8)).isLt
  rw [tablePeriod]
  omega

theorem hpetInit_spent {h : ℕ} {t : Timer} (ht : t.once = true) : hpetInit m dev h t = .ok t := if_pos ht

theorem loadWord_ok {x n w : ℕ} (hn : 0 < n) (hx : p + x + n ≤ 2 ^ 64)
    (h : loadWord kernelMap m (physicalToStivale p + x) n = .ok w) :
    p + x + n ≤ 2 ^ 31 ∧ w = (tableAt m p).value x n := by
  by_cases hin : p + x + n ≤ 2 ^ 31
  · rw [loadWord_window hin, Except.ok.injEq] at h
    exact ⟨hin, h.symm⟩
  · rw [loadWord_outside (Nat.lt_of_not_le hin) hn hx] at h
    cases h

theorem hpetInit_fresh {t t' : Timer} (hp : p < 2 ^ 32) (ht : t.once = false)
    (h : hpetInit m dev (physicalToStivale p) t = .ok t') : t' = timerOf m dev p := by
  rw [hpetInit, if_neg (by rw [ht]; exact Bool.false_ne_true)] at h
  cases hs : loadWord kernelMap m (physicalToStivale p + 40) 1 with
  | error e =>
    rw [hs] at h
    cases h
  | ok space =>
    rw [hs, ok_bind] at h
    split at h
    · cases h
    · cases ha : loadWord kernelMap m (physicalToStivale p + 44) 8 with
      | error e =>
        rw [ha] at h
        cases h
      | ok address =>
        have haddr := (loadWord_ok (by decide) (by omega) ha).2
        have hper : shiftR (dev.capabilities address).toNat 32 32 = tablePeriod m dev p := by
          have hlt := tablePeriod_lt m dev p
          rw [haddr, shiftR]
          exact Nat.mod_eq_of_lt hlt
        rw [ha, ok_bind, Except.ok.injEq, hper, haddr] at h
        exact h.symm

theorem map_ok {α β : Type} {f : α → β} {x : Except Stop α} {b : β} (h : f <$> x = .ok b) :
    ∃ a, x = .ok a ∧ b = f a := by
  cases x with
  | error e => cases h
  | ok a => exact ⟨a, rfl, (Except.ok.inj h).symm⟩

/-- The first HPET table sets the timer, and no other table changes it. -/
theorem visit_timer {s s' : Timer × α} (hp : p < 2 ^ 32)
    (h : (visit m (onMadt parseMadt) (onHpet m dev) p s).Returns s') :
    s'.1 = if signature m p = hpet ∧ s.1.once = false then timerOf m dev p else s.1 := by
  rw [visit] at h
  replace h := h.of_emit_bind.of_emit_bind
  split at h
  · split at h
    · next ha =>
      obtain ⟨a, -, rfl⟩ := map_ok h.of_emit_bind
      have hne : ¬ (signature m p = hpet ∧ s.1.once = false) := by
        rintro ⟨hh, -⟩
        exact absurd (ha.symm.trans hh) (by decide)
      rw [if_neg hne]
    · split at h
      · next hh =>
        obtain ⟨t, ht, rfl⟩ := map_ok h.of_emit_bind
        cases hs : s.1.once with
        | true =>
          rw [hpetInit_spent hs, Except.ok.injEq] at ht
          rw [if_neg (fun hc => Bool.noConfusion hc.2), ← ht]
        | false => rw [if_pos ⟨hh, rfl⟩, hpetInit_fresh hp hs ht]
      · next hh =>
        cases h
        rw [if_neg fun hc => hh hc.1]
  · cases h

theorem visitAll_spent {ps : List ℕ} (hps : ∀ p ∈ ps, p < 2 ^ 32) {s s' : Timer × α} (ht : s.1.once = true)
    (h : (visitAll m (onMadt parseMadt) (onHpet m dev) ps s).Returns s') : s'.1 = s.1 := by
  induction ps generalizing s with
  | nil =>
    cases h
    rfl
  | cons p ps ih =>
    obtain ⟨s₁, h₁, h⟩ := h.of_bind
    have hs₁ := visit_timer (hps p List.mem_cons_self) h₁
    rw [if_neg (fun hc => Bool.noConfusion (ht.symm.trans hc.2))] at hs₁
    rw [ih (fun q hq => hps q (List.mem_cons_of_mem _ hq)) (hs₁ ▸ ht) h, hs₁]

theorem visitAll_timer {ps : List ℕ} (hps : ∀ p ∈ ps, p < 2 ^ 32) {s s' : Timer × α} (ht : s.1.once = false)
    (h : (visitAll m (onMadt parseMadt) (onHpet m dev) ps s).Returns s') :
    s'.1 = (firstHpet m ps).elim s.1 (timerOf m dev) := by
  induction ps generalizing s with
  | nil =>
    cases h
    rfl
  | cons p ps ih =>
    obtain ⟨s₁, h₁, h⟩ := h.of_bind
    have hs₁ := visit_timer (hps p List.mem_cons_self) h₁
    have hps' : ∀ q ∈ ps, q < 2 ^ 32 := fun q hq => hps q (List.mem_cons_of_mem _ hq)
    by_cases hh : signature m p = hpet
    · rw [if_pos ⟨hh, ht⟩] at hs₁
      rw [visitAll_spent hps' (hs₁ ▸ rfl) h, hs₁, firstHpet, List.find?_cons_of_pos (by simpa using hh)]
      rfl
    · rw [if_neg fun hc => hh hc.1] at hs₁
      rw [ih hps' (hs₁ ▸ ht) h, hs₁, firstHpet, firstHpet, List.find?_cons_of_neg (by simpa using hh)]

end Run

section Returns

variable {σ : Type} {m : Memory} {parseMadt hpetInit : ℕ → σ → Except Stop σ} {rsdt n i : ℕ} {s s' : σ}

theorem parseTable_returns {p : ℕ} (hp : p < 2 ^ 32)
    (h : (parseTable m parseMadt hpetInit (physicalToStivale p) s).Returns s') :
    (visit m parseMadt hpetInit p s).Returns s' := by
  by_cases hin : InWindow m p
  · rwa [parseTable_window hin] at h
  · rw [Returns, (parseTable_outside parseMadt hpetInit s hin hp).2] at h
    cases h

/-- A loop that gets to its end has read its entries and tables where they are. -/
theorem parseEntries_returns (hr : rsdt < 2 ^ 32) (hi : 4 * i ≤ 2 ^ 31)
    (h : (parseEntries m parseMadt hpetInit (physicalToStivale rsdt) n i s).Returns s') :
    (visitAll m parseMadt hpetInit ((List.range' i n).map (entry m rsdt)) s).Returns s' := by
  induction n generalizing i s with
  | zero => exact h
  | succ n ih =>
    rw [parseEntries, Nat.add_assoc (physicalToStivale rsdt)] at h
    obtain ⟨p, hp, htable⟩ := h.of_lift_bind
    obtain ⟨s₁, h₁, hrest⟩ := htable.of_bind
    obtain ⟨hbound, hentry⟩ := loadWord_ok (p := rsdt) (x := 36 + 4 * i) (by omega) (by omega) hp
    obtain rfl : p = entry m rsdt i := hentry
    rw [List.range'_succ, List.map_cons, visitAll]
    exact (parseTable_returns entry_lt h₁).bind (ih (by omega) hrest)

theorem parseRsdt_returns {v : Statics} (h : (parseRsdt m parseMadt hpetInit v s).Returns s') :
    (visitAll m parseMadt hpetInit (tables m v) s).Returns s' := by
  rw [parseRsdt] at h
  obtain ⟨r, hr, hrsdt⟩ := h.of_lift_bind
  obtain ⟨length, hlen, hloop⟩ := hrsdt.of_lift_bind
  have hused : rsdtUsed m v = r := by rw [rsdtUsed, hr]
  have hlt : r < 2 ^ 32 := loadWord_lt hr
  have hlength : length = (tableAt m r).length := (loadWord_ok (by omega) (by omega) hlen).2
  rw [tables, hused, List.range_eq_range', ← hlength]
  exact parseEntries_returns hlt (by omega) hloop.of_emit_bind

/-- The other direction, from a descriptor at `d`. -/
theorem visitAll_returns {d r : ℕ} (hd : d + 20 ≤ 2 ^ 31) (hr : (tableAt m d).value 16 4 = r) (hhead : r + 8 ≤ 2 ^ 31)
    (hlen : 36 ≤ (tableAt m r).length) (hent : EntriesInWindow m parseMadt hpetInit (listed m r) (r + 36) s)
    (h : (visitAll m parseMadt hpetInit (listed m r) s).Returns s') :
    (parseRsdt m parseMadt hpetInit ⟨true, physicalToStivale d⟩ s).Returns s' := by
  rw [(parseRsdt_eq_iff (by omega) (by omega)).mpr ⟨⟨hd, hr⟩, hhead, hlen, hent⟩]
  exact h

end Returns

section Conversion

/-- A product that wraps gives another quotient. -/
theorem wrap_div_eq_iff {x p : ℕ} (hp : 0 < p) (hlt : p ≤ 2 ^ 64) : x % 2 ^ 64 / p = x / p ↔ x < 2 ^ 64 := by
  refine ⟨fun h => ?_, fun h => by rw [Nat.mod_eq_of_lt h]⟩
  by_contra hx
  have hdown : x % 2 ^ 64 + p ≤ x := by omega
  have hstep := Nat.div_le_div_right (c := p) hdown
  rw [Nat.add_div_right _ hp, h] at hstep
  exact Nat.not_succ_le_self _ hstep

variable {α : Type} {m : Memory} {dev : Device} {parseMadt : ℕ → α → Except Stop α} {v : Statics} {a a' : α} {t : Timer}

theorem timerRun_timer (h : (timerRun m dev parseMadt v a).Returns (t, a')) :
    t = (firstHpet m (tables m v)).elim Timer.atBoot (timerOf m dev) := by
  refine visitAll_timer (fun p hp => ?_) rfl (parseRsdt_returns h)
  obtain ⟨i, -, rfl⟩ := List.mem_map.mp hp
  exact entry_lt

/-- The conversion is exact from the first HPET table on, for the times whose product fits. -/
theorem hpetMsToTick_exact_iff (h : (timerRun m dev parseMadt v a).Returns (t, a')) (ms : ℕ) :
    (t.period ≠ 0 ∧ hpetMsToTick t ms = some (ms * 1000000000000 / t.period)) ↔
      (∃ p, firstHpet m (tables m v) = some p ∧ tablePeriod m dev p ≠ 0) ∧ ms ≤ 18446744 := by
  have ht := timerRun_timer h
  cases hf : firstHpet m (tables m v) with
  | none =>
    rw [hf, Option.elim_none] at ht
    subst ht
    simp [Timer.atBoot]
  | some p =>
    rw [hf, Option.elim_some] at ht
    have hper : t.period = tablePeriod m dev p := by rw [ht]; rfl
    have hlt := tablePeriod_lt m dev p
    rw [hper, hpetMsToTick, hper]
    by_cases hz : tablePeriod m dev p = 0
    · simp [hz]
    · have hms : ms * 1000000000000 < 2 ^ 64 ↔ ms ≤ 18446744 := by omega
      rw [if_neg hz, Option.some.injEq, wrap_div_eq_iff (Nat.pos_of_ne_zero hz) (by omega), hms]
      simp [hz]

end Conversion

section Machines

/-- The descriptor is the RSDP of the machine. -/
def found : Statics := ⟨true, physicalToStivale 0xe0000⟩

def emptyHpet : List (BitVec 8) := hpet ++ [56, 0, 0, 0, 1, 0xc8] ++ List.replicate 36 0 ++ [0xd0, 0xfe]

/-- Registers that tick every 10 ns. -/
def tenNs : Device := ⟨fun _ => 0x8000000000, fun _ => 0x009896808086a201⟩

theorem timerRun_machine {table : List (BitVec 8)} {s : Timer × Unit}
    (hdesc : (tableAt (machineMemory 0xf0 table) 0xe0000).value 16 4 = 0x1000)
    (hlen : 36 ≤ (tableAt (machineMemory 0xf0 table) 0x1000).length)
    (hlist : listed (machineMemory 0xf0 table) 0x1000 = [0x2000]) (hin : InWindow (machineMemory 0xf0 table) 0x2000)
    (h : (visit (machineMemory 0xf0 table) (onMadt returns) (onHpet (machineMemory 0xf0 table) tenNs) 0x2000
      (Timer.atBoot, ())).Returns s) : (timerRun (machineMemory 0xf0 table) tenNs returns found ()).Returns s := by
  refine visitAll_returns (d := 0xe0000) (r := 0x1000) (by decide) hdesc (by decide) hlen ?_ ?_
  · rw [hlist]
    exact ⟨by decide, hin, fun _ _ => trivial⟩
  · rw [hlist]
    exact h.bind rfl

theorem no_hpet_divides_by_zero :
    (timerRun (machineMemory 0xf0 emptyMadt) tenNs returns found ()).Returns (Timer.atBoot, ()) ∧
      Timer.atBoot.period = 0 ∧ hpetMsToTick Timer.atBoot 10 = none :=
  ⟨timerRun_machine (by decide) (by decide) (by decide) (by decide) rfl, rfl, rfl⟩

theorem timerRun_tenNs :
    (timerRun (machineMemory 0xf0 emptyHpet) tenNs returns found ()).Returns (⟨true, 0x8000000000, 10000000⟩, ()) := by
  refine timerRun_machine (by decide) (by decide) (by decide) (by decide) ?_
  rfl

theorem hpetMsToTick_exact_iff_ten : hpetMsToTick ⟨true, 0x8000000000, 10000000⟩ 10 = some 1000000 :=
  ((hpetMsToTick_exact_iff timerRun_tenNs 10).mpr ⟨⟨0x2000, by decide, by decide⟩, by decide⟩).2

end Machines

end Raccoon.HpetTimer
