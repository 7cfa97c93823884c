import Mathlib.Data.Int.Basic
import Raccoon.Loops
import Raccoon.CoreLaunch

/-!
`parse_MADT` on arbitrary table contents. The cursor moves by a signed byte of
the table, so that it may stand still or go back.
-/

namespace Raccoon.Madt

open Loops Outcome CoreLaunch

/-- The bytes at and around the address of a table. -/
structure Table where
  byte : ℤ → BitVec 8

/-- `n` bytes at `p` as a little-endian number. -/
def Table.value (t : Table) (p : ℤ) : ℕ → ℕ
  | 0 => 0
  | n + 1 => (t.byte p).toNat + 2 ^ 8 * t.value (p + 1) n

def Table.length (t : Table) : ℕ := t.value 4 4

def Table.checksum (t : Table) : Bool := (List.range t.length).foldl (fun sum (i : ℕ) => sum + t.byte i) 0 == 0

structure LapicEntry where
  acpiProcessorId : ℕ
  acpiId : ℕ
  flags : ℕ

structure IoapicEntry where
  id : ℕ
  address : ℕ
  base : ℕ

structure InterruptSourceOverride where
  bus : ℕ
  irq : ℕ
  globalSystemInterrupt : ℕ
  flags : ℕ

structure LapicNmi where
  acpiProcessorId : ℕ
  flags : ℕ
  lint : ℕ

/-- An array of `n` entries that is filled from the front. -/
structure Slots (α : Type) (n : ℕ) where
  entries : List α
  bounded : entries.length ≤ n

def Slots.count {α : Type} {n : ℕ} (s : Slots α n) : ℕ := s.entries.length

def Slots.push {α : Type} {n : ℕ} (s : Slots α n) (a : α) : Option (Slots α n) :=
  if h : s.entries.length < n then
    some ⟨s.entries ++ [a], by rw [List.length_append]; exact h⟩
  else none

structure ApicInfo where
  lapics : Slots LapicEntry maxCore
  lapicAddress : ℕ
  ioapic : IoapicEntry
  interrupt : Slots InterruptSourceOverride maxCore
  nmis : Slots LapicNmi 10

inductive Trap where
  | outOfTable
  | outOfArray
deriving DecidableEq

structure Cursor where
  ptr : ℤ
  apicInfo : ApicInfo

def madtEntryStart : ℤ := 0x2c

section Code

variable {ρ : Type} (t : Table)

def read (p : ℤ) (n : ℕ) : Outcome Trap ρ ℕ :=
  if 0 ≤ p ∧ p + n ≤ t.length then .next (t.value p n) else .fail .outOfTable

def store {α : Type} {n : ℕ} (s : Slots α n) (a : α) : Outcome Trap ρ (Slots α n) :=
  match s.push a with
  | some s => .next s
  | none => .fail .outOfArray

def madtEntry (p : ℤ) (a : ApicInfo) : Outcome Trap ρ ApicInfo := do
  let kind ← read t p 1
  match kind with
  | 0 => do
    let enabled ← read t (p + 4) 1
    if enabled % 2 = 1 then do
      let _ ← read t (p + 2) 6
      let lapics ← store a.lapics ⟨t.value (p + 2) 1, t.value (p + 3) 1, t.value (p + 4) 4⟩
      .next { a with lapics := lapics }
    else .next a
  | 1 => do
    let id ← read t (p + 1) 1
    let address ← read t (p + 4) 4
    let base ← read t (p + 8) 4
    .next { a with ioapic := ⟨id, address, base⟩ }
  | 2 => do
    let _ ← read t (p + 2) 8
    let interrupt ← store a.interrupt
      ⟨t.value (p + 2) 1, t.value (p + 3) 1, t.value (p + 4) 4, t.value (p + 8) 2⟩
    .next { a with interrupt := interrupt }
  | 4 => do
    let _ ← read t (p + 2) 4
    let nmis ← store a.nmis ⟨t.value (p + 2) 1, t.value (p + 3) 2, t.value (p + 5) 1⟩
    .next { a with nmis := nmis }
  | 5 => do
    let address ← read t (p + 4) 8
    .next { a with lapicAddress := address }
  | _ => .next a

def madtStep (s : Cursor) : Outcome Trap ApicInfo Cursor := do
  let length ← read t 4 4
  if s.ptr < length then do
    let a ← madtEntry t s.ptr s.apicInfo
    let _ ← read t (s.ptr + 1) 1
    .next ⟨s.ptr + (t.byte (s.ptr + 1)).toInt, a⟩
  else .done s.apicInfo

/-- `n` rounds of the loop, after the address of the local APIC. -/
def parseMadt (n : ℕ) (a : ApicInfo) : Outcome Trap ApicInfo Cursor := do
  let address ← read t 36 4
  runFor (madtStep t) n ⟨madtEntryStart, { a with lapicAddress := address }⟩

end Code

section Entries

variable (t : Table)

/-- The entry at `p` adds a core, an interrupt override or a non-maskable interrupt. -/
def IsCore (p : ℤ) : Prop := t.value p 1 = 0 ∧ t.value (p + 4) 1 % 2 = 1
def IsOverride (p : ℤ) : Prop := t.value p 1 = 2
def IsNmi (p : ℤ) : Prop := t.value p 1 = 4

instance : DecidablePred (IsCore t) := fun _ => inferInstanceAs (Decidable (_ ∧ _))
instance : DecidablePred (IsOverride t) := fun _ => inferInstanceAs (Decidable (_ = _))
instance : DecidablePred (IsNmi t) := fun _ => inferInstanceAs (Decidable (_ = _))

/-- The number of bytes that are read from the entry at `p`, whatever length it gives. -/
def extent (p : ℤ) : ℕ :=
  match t.value p 1 with
  | 0 => if t.value (p + 4) 1 % 2 = 1 then 8 else 5
  | 1 => 12
  | 2 => 10
  | 4 => 6
  | 5 => 12
  | _ => 2

def next (p : ℤ) : ℤ := p + (t.byte (p + 1)).toInt

/-- The entries from `p` on are at the positions `ps`, and the last one leads to the end of the table. -/
inductive Chain : ℤ → List ℤ → Prop where
  | last {p : ℤ} (h : t.length ≤ p) : Chain p []
  | entry {p : ℤ} {ps : List ℤ} (h : p < t.length) (hps : Chain (next t p) ps) : Chain p (p :: ps)

structure Room (a : ApicInfo) (ps : List ℤ) : Prop where
  inside : ∀ p ∈ ps, 0 ≤ p ∧ p + extent t p ≤ t.length
  cores : a.lapics.count + ps.countP (IsCore t) ≤ maxCore
  overrides : a.interrupt.count + ps.countP (IsOverride t) ≤ maxCore
  nmis : a.nmis.count + ps.countP (IsNmi t) ≤ 10

/-- The entry at `p` is inside the table, and there is room for what it adds. -/
structure Fits (a : ApicInfo) (p : ℤ) : Prop where
  begins : 0 ≤ p
  ends : p + extent t p ≤ t.length
  cores : IsCore t p → a.lapics.count < maxCore
  overrides : IsOverride t p → a.interrupt.count < maxCore
  nmis : IsNmi t p → a.nmis.count < 10

structure Counted (p : ℤ) (a a' : ApicInfo) : Prop where
  cores : a'.lapics.count = a.lapics.count + if IsCore t p then 1 else 0
  overrides : a'.interrupt.count = a.interrupt.count + if IsOverride t p then 1 else 0
  nmis : a'.nmis.count = a.nmis.count + if IsNmi t p then 1 else 0

end Entries

variable {ρ : Type} {t : Table} {p : ℤ} {a : ApicInfo}

theorem read_ends (t : Table) (p : ℤ) (n : ℕ) : (read t p n : Outcome Trap ρ ℕ).Ends
    (fun _ => ¬ (0 ≤ p ∧ p + n ≤ t.length)) (fun _ => False)
    (fun v => v = t.value p n ∧ 0 ≤ p ∧ p + n ≤ t.length) := by
  rw [read]
  split
  · rename_i h
    exact ⟨rfl, h⟩
  · rename_i h
    exact h

theorem store_ends {α : Type} {n : ℕ} (s : Slots α n) (x : α) :
    (store s x : Outcome Trap ρ (Slots α n)).Ends (fun _ => ¬ s.count < n) (fun _ => False)
      (fun s' => s.count < n ∧ s'.count = s.count + 1) := by
  rw [store, Slots.push]
  by_cases h : s.entries.length < n
  · rw [dif_pos h]
    exact ⟨h, by simp [Slots.count]⟩
  · rw [dif_neg h]
    exact h

theorem entry_read_ends {d : ℤ} {n : ℕ} {f : ℕ → Outcome Trap ρ ApicInfo} {R : ρ → Prop} {Q : ApicInfo → Prop}
    (hd : 0 ≤ d) (hext : d + n ≤ extent t p)
    (hf : 0 ≤ p + d → p + d + n ≤ t.length → (f (t.value (p + d) n)).Ends (fun _ => ¬ Fits t a p) R Q) :
    (read t (p + d) n >>= f).Ends (fun _ => ¬ Fits t a p) R Q := by
  refine ((read_ends t (p + d) n).mono (fun _ h hfits => h ?_) (fun _ h => h.elim) fun _ h => h).bind ?_
  · have hb := hfits.begins
    have he := hfits.ends
    omega
  · rintro v ⟨rfl, h0, h⟩
    exact hf h0 h

/-- What one entry does, when the read of its length is still to come. -/
def Done (t : Table) (p : ℤ) (a a' : ApicInfo) : Prop := (p + 2 ≤ t.length → Fits t a p) ∧ Counted t p a a'

theorem done_other (h0 : 0 ≤ p) (hext : p + 2 ≤ t.length → p + extent t p ≤ t.length) (hcore : ¬ IsCore t p)
    (hover : ¬ IsOverride t p) (hnmi : ¬ IsNmi t p) {a' : ApicInfo} (hcores : a'.lapics = a.lapics)
    (hovers : a'.interrupt = a.interrupt) (hnmis : a'.nmis = a.nmis) : Done t p a a' := by
  refine ⟨fun h => ⟨h0, hext h, fun h => absurd h hcore, fun h => absurd h hover, fun h => absurd h hnmi⟩, ?_, ?_, ?_⟩
  · rw [if_neg hcore, hcores, Nat.add_zero]
  · rw [if_neg hover, hovers, Nat.add_zero]
  · rw [if_neg hnmi, hnmis, Nat.add_zero]

theorem madtEntry_ends (t : Table) (p : ℤ) (a : ApicInfo) (hp : p < t.length) :
    (madtEntry t p a : Outcome Trap ρ ApicInfo).Ends (fun _ => ¬ Fits t a p) (fun _ => False) (Done t p a) := by
  rw [madtEntry]
  refine ((read_ends t p 1).mono (fun _ h hfits => h ⟨hfits.begins, by omega⟩) (fun _ h => h) fun _ h => h).bind ?_
  rintro kind ⟨hkind, h0, -⟩
  have hcore (h : kind ≠ 0) : ¬ IsCore t p := fun hc => h (hkind.trans hc.1)
  have hover (h : kind ≠ 2) : ¬ IsOverride t p := fun hc => h (hkind.trans hc)
  have hnmi (h : kind ≠ 4) : ¬ IsNmi t p := fun hc => h (hkind.trans hc)
  split
  · have hext : extent t p = if t.value (p + 4) 1 % 2 = 1 then 8 else 5 := by
      simp only [extent, ← hkind]
    refine entry_read_ends (d := 4) (by decide) (by rw [hext]; split <;> decide) fun _ h5 => ?_
    by_cases hbit : t.value (p + 4) 1 % 2 = 1
    · have hyes : IsCore t p := ⟨hkind.symm, hbit⟩
      rw [if_pos hbit] at hext
      rw [if_pos hbit]
      refine entry_read_ends (d := 2) (by decide) (by rw [hext]; decide) fun _ h8 => ?_
      refine ((store_ends _ _).mono (fun _ h hfits => h (hfits.cores hyes)) (fun _ h => h) fun _ h => h).bind ?_
      rintro s' ⟨hlt, hs'⟩
      refine ⟨fun _ => ⟨h0, by omega, fun _ => hlt, fun h => absurd h (hover (by decide)),
        fun h => absurd h (hnmi (by decide))⟩, ?_, ?_, ?_⟩
      · rw [if_pos hyes]
        exact hs'
      · rw [if_neg (hover (by decide))]
        rfl
      · rw [if_neg (hnmi (by decide))]
        rfl
    · rw [if_neg hbit] at hext
      rw [if_neg hbit]
      exact done_other h0 (fun _ => by omega) (fun h => hbit h.2) (hover (by decide)) (hnmi (by decide)) rfl rfl rfl
  · have hext : extent t p = 12 := by simp only [extent, ← hkind]
    refine entry_read_ends (d := 1) (by decide) (by rw [hext]; decide) fun _ _ => ?_
    refine entry_read_ends (d := 4) (by decide) (by rw [hext]; decide) fun _ _ => ?_
    refine entry_read_ends (d := 8) (by decide) (by rw [hext]; decide) fun _ h12 => ?_
    exact done_other h0 (fun _ => by omega) (hcore (by decide)) (hover (by decide)) (hnmi (by decide)) rfl rfl rfl
  · have hext : extent t p = 10 := by simp only [extent, ← hkind]
    have hyes : IsOverride t p := hkind.symm
    refine entry_read_ends (d := 2) (by decide) (by rw [hext]; decide) fun _ h10 => ?_
    refine ((store_ends _ _).mono (fun _ h hfits => h (hfits.overrides hyes)) (fun _ h => h) fun _ h => h).bind ?_
    rintro s' ⟨hlt, hs'⟩
    refine ⟨fun _ => ⟨h0, by omega, fun h => absurd h (hcore (by decide)), fun _ => hlt,
      fun h => absurd h (hnmi (by decide))⟩, ?_, ?_, ?_⟩
    · rw [if_neg (hcore (by decide))]
      rfl
    · rw [if_pos hyes]
      exact hs'
    · rw [if_neg (hnmi (by decide))]
      rfl
  · have hext : extent t p = 6 := by simp only [extent, ← hkind]
    have hyes : IsNmi t p := hkind.symm
    refine entry_read_ends (d := 2) (by decide) (by rw [hext]; decide) fun _ h6 => ?_
    refine ((store_ends _ _).mono (fun _ h hfits => h (hfits.nmis hyes)) (fun _ h => h) fun _ h => h).bind ?_
    rintro s' ⟨hlt, hs'⟩
    refine ⟨fun _ => ⟨h0, by omega, fun h => absurd h (hcore (by decide)), fun h => absurd h (hover (by decide)),
      fun _ => hlt⟩, ?_, ?_, ?_⟩
    · rw [if_neg (hcore (by decide))]
      rfl
    · rw [if_neg (hover (by decide))]
      rfl
    · rw [if_pos hyes]
      exact hs'
  · have hext : extent t p = 12 := by simp only [extent, ← hkind]
    refine entry_read_ends (d := 4) (by decide) (by rw [hext]; decide) fun _ h12 => ?_
    exact done_other h0 (fun _ => by omega) (hcore (by decide)) (hover (by decide)) (hnmi (by decide)) rfl rfl rfl
  · rename_i hne0 hne1 hne2 hne4 hne5
    have hext : extent t p = 2 := by
      rw [extent, ← hkind]
      split
      · exact absurd rfl hne0
      · exact absurd rfl hne1
      · exact absurd rfl hne2
      · exact absurd rfl hne4
      · exact absurd rfl hne5
      · rfl
    exact done_other h0 (fun _ => by omega) (hcore hne0) (hover hne2) (hnmi hne4) rfl rfl rfl

section Loop

variable {a' : ApicInfo} {ps : List ℤ}

theorem madtStep_done (hlen : 40 ≤ t.length) (hp : t.length ≤ p) : madtStep t ⟨p, a⟩ = .done a := by
  rw [madtStep, read, if_pos (by omega), next_bind]
  exact if_neg (Int.not_lt.mpr hp)

theorem madtStep_ends (hlen : 40 ≤ t.length) (hp : p < t.length) : (madtStep t ⟨p, a⟩).Ends
    (fun _ => ¬ Fits t a p) (fun _ => False)
    (fun s => Fits t a p ∧ s.ptr = next t p ∧ Counted t p a s.apicInfo) := by
  rw [madtStep, read, if_pos (by omega), next_bind]
  change (if p < t.length then _ else _ : Outcome _ _ _).Ends _ _ _
  rw [if_pos hp]
  refine (madtEntry_ends t p a hp).bind fun a' ⟨hfits, hcount⟩ => ?_
  refine ((read_ends t (p + 1) 1).mono (fun _ h hf => h ⟨?_, ?_⟩) (fun _ h => h) fun _ h => h).bind ?_
  · have hb := hf.begins
    omega
  · have he := hf.ends
    have hext : 2 ≤ extent t p := by
      rw [extent]
      split
      · split <;> decide
      all_goals decide
    omega
  · rintro _ ⟨-, -, h2⟩
    exact ⟨hfits (by omega), rfl, hcount⟩

theorem room_nil (t : Table) (a : ApicInfo) : Room t a [] :=
  ⟨fun _ hp => absurd hp List.not_mem_nil, a.lapics.bounded, a.interrupt.bounded, a.nmis.bounded⟩

theorem countP_cons_ite (P : ℤ → Prop) [DecidablePred P] (p : ℤ) (ps : List ℤ) :
    (p :: ps).countP (P ·) = ps.countP (P ·) + if P p then 1 else 0 := by
  rw [List.countP_cons]
  simp

theorem Room.fits (h : Room t a (p :: ps)) : Fits t a p := by
  have hone {P : Prop} [Decidable P] {x y m : ℕ} (hx : x + (y + if P then 1 else 0) ≤ m) (hP : P) : x < m := by
    rw [if_pos hP] at hx
    omega
  obtain ⟨hin, hcores, hovers, hnmis⟩ := h
  rw [countP_cons_ite] at hcores hovers hnmis
  have hfits := hin p (List.mem_cons_self ..)
  exact ⟨hfits.1, hfits.2, hone hcores, hone hovers, hone hnmis⟩

theorem room_cons (h : Counted t p a a') : Room t a (p :: ps) ↔ Fits t a p ∧ Room t a' ps := by
  constructor
  · intro hroom
    have hfits := hroom.fits
    obtain ⟨hin, hcores, hovers, hnmis⟩ := hroom
    rw [countP_cons_ite] at hcores hovers hnmis
    refine ⟨hfits, ⟨fun q hq => hin q (List.mem_cons_of_mem _ hq), ?_, ?_, ?_⟩⟩
    · rw [h.cores]
      omega
    · rw [h.overrides]
      omega
    · rw [h.nmis]
      omega
  · rintro ⟨hfits, hin, hcores, hovers, hnmis⟩
    rw [h.cores] at hcores
    rw [h.overrides] at hovers
    rw [h.nmis] at hnmis
    refine ⟨List.forall_mem_cons.mpr ⟨⟨hfits.begins, hfits.ends⟩, hin⟩, ?_, ?_, ?_⟩
    all_goals
      rw [countP_cons_ite]
      omega

theorem chain_of_run (hlen : 40 ≤ t.length) {n : ℕ} {r : ApicInfo} (h : runFor (madtStep t) n ⟨p, a⟩ = .done r) :
    ∃ ps, Chain t p ps ∧ Room t a ps := by
  induction n generalizing p a with
  | zero => cases h
  | succ n ih =>
    by_cases hp : p < t.length
    · have hstep := madtStep_ends (a := a) hlen hp
      rw [runFor_succ] at h
      cases hc : madtStep t ⟨p, a⟩ with
      | fail e =>
        rw [hc] at h
        cases h
      | done r =>
        rw [hc] at hstep
        exact hstep.elim
      | next s =>
        rw [hc] at h hstep
        obtain ⟨ptr, a'⟩ := s
        obtain ⟨hfits, rfl, hcount⟩ := hstep
        obtain ⟨ps, hchain, hroom⟩ := ih h
        exact ⟨p :: ps, .entry hp hchain, (room_cons hcount).mpr ⟨hfits, hroom⟩⟩
    · exact ⟨[], .last (Int.not_lt.mp hp), room_nil t a⟩

theorem run_of_chain (hlen : 40 ≤ t.length) (hchain : Chain t p ps) (hroom : Room t a ps) :
    ∃ r, Returns (madtStep t) ⟨p, a⟩ r := by
  induction hchain generalizing a with
  | last hp => exact ⟨a, returns_of_done (madtStep_done hlen hp)⟩
  | @entry p ps hp hps ih =>
    have hstep := madtStep_ends (a := a) hlen hp
    cases hc : madtStep t ⟨p, a⟩ with
    | fail e =>
      rw [hc] at hstep
      exact absurd hroom.fits hstep
    | done r =>
      rw [hc] at hstep
      exact hstep.elim
    | next s =>
      rw [hc] at hstep
      obtain ⟨ptr, a'⟩ := s
      obtain ⟨-, rfl, hcount⟩ := hstep
      obtain ⟨r, hr⟩ := ih ((room_cons hcount).mp hroom).2
      exact ⟨r, (returns_of_next hc).mpr hr⟩

end Loop

/-- The parser comes to an end, inside the table and the arrays, exactly if the entries, each at the
distance that the one before gives, lead past the end of the table and there is room for them. -/
theorem madt_safe_iff (t : Table) (a : ApicInfo) : (∃ n r, parseMadt t n a = .done r) ↔
    40 ≤ t.length ∧ ∃ ps, Chain t madtEntryStart ps ∧ Room t a ps := by
  by_cases hlen : 40 ≤ t.length
  · have hparse (n : ℕ) : parseMadt t n a =
        runFor (madtStep t) n ⟨madtEntryStart, { a with lapicAddress := t.value 36 4 }⟩ := by
      rw [parseMadt, read, if_pos (by omega), next_bind]
    rw [and_iff_right hlen]
    constructor
    · rintro ⟨n, r, h⟩
      rw [hparse] at h
      obtain ⟨ps, hchain, hin, hcores, hovers, hnmis⟩ := chain_of_run hlen h
      exact ⟨ps, hchain, hin, hcores, hovers, hnmis⟩
    · rintro ⟨ps, hchain, hin, hcores, hovers, hnmis⟩
      obtain ⟨r, n, hr⟩ := run_of_chain (a := { a with lapicAddress := t.value 36 4 }) hlen hchain
        ⟨hin, hcores, hovers, hnmis⟩
      exact ⟨n, r, (hparse n).trans hr⟩
  · refine iff_of_false ?_ fun h => hlen h.1
    rintro ⟨n, r, h⟩
    rw [parseMadt, read, if_neg (by omega), fail_bind] at h
    cases h

def tableOf (bytes : List (BitVec 8)) : Table := ⟨fun i => if 0 ≤ i then bytes.getD i.toNat 0 else 0⟩

def emptySlots (α : Type) (n : ℕ) : Slots α n := ⟨[], Nat.zero_le n⟩

def noInfo : ApicInfo := ⟨emptySlots _ _, 0, ⟨0, 0, 0⟩, emptySlots _ _, emptySlots _ _⟩

/-- A table of 46 bytes, with a single entry of a kind that is skipped, and whose length is 0. -/
def stuckTable : Table := tableOf
  ([65, 80, 73, 67, 46, 0, 0, 0, 4, 174] ++ List.replicate 34 0 ++ [3, 0])

theorem parse_stuck : stuckTable.checksum = true ∧ ¬ ∃ n r, parseMadt stuckTable n noInfo = .done r := by
  refine ⟨by decide, ?_⟩
  rintro ⟨n, r, h⟩
  have hparse : parseMadt stuckTable n noInfo = runFor (madtStep stuckTable) n ⟨madtEntryStart, noInfo⟩ := rfl
  have hstep (s : Cursor) (hs : s.ptr = madtEntryStart) :
      ∃ s', madtStep stuckTable s = .next s' ∧ s'.ptr = madtEntryStart := by
    obtain ⟨ptr, a⟩ := s
    obtain rfl := hs
    exact ⟨⟨madtEntryStart, a⟩, rfl, rfl⟩
  exact not_returns_of_invariant (·.ptr = madtEntryStart) hstep rfl ⟨n, hparse ▸ h⟩

end Raccoon.Madt
