import Raccoon.Madt

/-!
What `parse_MADT` extracts from a table that is a list of well-formed entries.
All fields are at their offsets but the identifier of the I/O APIC, for which
the length of the entry is taken.
-/

namespace Raccoon.Madt

open Loops Outcome CoreLaunch

def littleEndian (bytes : List (BitVec 8)) : ℕ := bytes.foldr (fun b v => b.toNat + 2 ^ 8 * v) 0

/-- The bytes that an entry of the type has at least. -/
def entrySize : ℕ → ℕ
  | 0 => 8
  | 1 => 12
  | 2 => 10
  | 4 => 6
  | 5 => 12
  | _ => 2

/-- An entry that gives its true length. -/
structure Entry where
  kind : BitVec 8
  payload : List (BitVec 8)
  short : 2 + payload.length < 128
  complete : entrySize kind.toNat ≤ 2 + payload.length

namespace Entry

def length (e : Entry) : ℕ := 2 + e.payload.length

def bytes (e : Entry) : List (BitVec 8) := e.kind :: BitVec.ofNat 8 e.length :: e.payload

/-- The field of `n` bytes at the offset. -/
def field (e : Entry) (offset n : ℕ) : ℕ := littleEndian ((e.bytes.drop offset).take n)

def type (e : Entry) : ℕ := e.kind.toNat

def lapic (e : Entry) : Option LapicEntry :=
  if e.type = 0 ∧ e.field 4 4 % 2 = 1 then some ⟨e.field 2 1, e.field 3 1, e.field 4 4⟩ else none

/-- The I/O APIC of an entry, with its identifier at the offset. -/
def ioapic (idOffset : ℕ) (e : Entry) : Option IoapicEntry :=
  if e.type = 1 then some ⟨e.field idOffset 1, e.field 4 4, e.field 8 4⟩ else none

def interrupt (e : Entry) : Option InterruptSourceOverride :=
  if e.type = 2 then some ⟨e.field 2 1, e.field 3 1, e.field 4 4, e.field 8 2⟩ else none

def nmi (e : Entry) : Option LapicNmi :=
  if e.type = 4 then some ⟨e.field 2 1, e.field 3 2, e.field 5 1⟩ else none

def lapicAddress (e : Entry) : Option ℕ := if e.type = 5 then some (e.field 4 8) else none

end Entry

/-- The bytes from `p` on. -/
def Holds (t : Table) (p : ℤ) (bytes : List (BitVec 8)) : Prop :=
  ∀ (i : ℕ) (b : BitVec 8), bytes[i]? = some b → t.byte (p + i) = b

/-- A table of the entries, as many as there is room for. -/
structure TableOf (t : Table) (es : List Entry) : Prop where
  length : t.length = 44 + (es.flatMap Entry.bytes).length
  entries : Holds t madtEntryStart (es.flatMap Entry.bytes)
  cores : (es.filterMap Entry.lapic).length ≤ maxCore
  overrides : (es.filterMap Entry.interrupt).length ≤ maxCore
  nmis : (es.filterMap Entry.nmi).length ≤ 10

/-- What the entries say, over the address of the local APIC in the header and a table of zeros. -/
structure Extracted (idOffset header : ℕ) (es : List Entry) (a : ApicInfo) : Prop where
  lapics : a.lapics.entries = es.filterMap Entry.lapic
  lapicAddress : a.lapicAddress = (es.filterMap Entry.lapicAddress).getLast?.getD header
  ioapic : a.ioapic = (es.filterMap (Entry.ioapic idOffset)).getLast?.getD ⟨0, 0, 0⟩
  interrupt : a.interrupt.entries = es.filterMap Entry.interrupt
  nmis : a.nmis.entries = es.filterMap Entry.nmi

variable {ρ : Type} {t : Table} {p : ℤ} {a a' : ApicInfo} {e : Entry} {es done : List Entry} {header : ℕ}

section Bytes

variable {bytes more : List (BitVec 8)}

theorem Holds.append (h : Holds t p (bytes ++ more)) : Holds t p bytes ∧ Holds t (p + bytes.length) more := by
  refine ⟨fun i b hb => h i b ?_, fun i b hb => ?_⟩
  · obtain ⟨hi, -⟩ := List.getElem?_eq_some_iff.mp hb
    rwa [List.getElem?_append_left hi]
  · have hi : p + bytes.length + i = p + ((bytes.length + i : ℕ) : ℤ) := by omega
    rw [hi]
    apply h
    rwa [List.getElem?_append_right (Nat.le_add_right ..), Nat.add_sub_cancel_left]

theorem value_eq_littleEndian (h : Holds t p bytes) {n : ℕ} (offset : ℕ) (hin : offset + n ≤ bytes.length) :
    t.value (p + offset) n = littleEndian ((bytes.drop offset).take n) := by
  induction n generalizing offset with
  | zero => rfl
  | succ n ih =>
    have hlt : offset < bytes.length := by omega
    have hbyte := h offset _ (List.getElem?_eq_getElem hlt)
    have hnext : p + offset + 1 = p + ((offset + 1 : ℕ) : ℤ) := by omega
    rw [Table.value, hbyte, hnext, ih (offset + 1) (by omega), List.drop_eq_getElem_cons hlt, List.take_succ_cons]
    rfl

theorem read_eq {n : ℕ} (h0 : 0 ≤ p) (h : p + n ≤ t.length) : (read t p n : Outcome Trap ρ ℕ) = .next (t.value p n) :=
  if_pos ⟨h0, h⟩

theorem length_bytes (e : Entry) : e.bytes.length = e.length := by
  rw [Entry.bytes, Entry.length, List.length_cons, List.length_cons]
  omega

/-- A field of the entry at `p`, whatever it is read for. -/
theorem Holds.field (h : Holds t p e.bytes) (offset n : ℕ) (hin : offset + n ≤ e.length) :
    t.value (p + offset) n = e.field offset n :=
  value_eq_littleEndian h offset (by rwa [length_bytes])

theorem field_flags (h : 8 ≤ e.length) : e.field 4 4 % 2 = e.field 4 1 % 2 := by
  rw [← length_bytes] at h
  have hlt : 4 < e.bytes.length := by omega
  rw [Entry.field, Entry.field, List.drop_eq_getElem_cons hlt, List.take_succ_cons, List.take_succ_cons,
    littleEndian, littleEndian, List.foldr_cons, List.foldr_cons]
  omega

end Bytes

section Step

theorem store_eq {α : Type} {n : ℕ} {s : Slots α n} {x : α} (h : s.entries.length < n) :
    ∃ s' : Slots α n, (store s x : Outcome Trap ρ (Slots α n)) = .next s' ∧ s'.entries = s.entries ++ [x] := by
  rw [store, Slots.push, dif_pos h]
  exact ⟨_, rfl, rfl⟩

/-- What an entry adds. -/
structure Applied (e : Entry) (a a' : ApicInfo) : Prop where
  lapics : a'.lapics.entries = a.lapics.entries ++ e.lapic.toList
  lapicAddress : a'.lapicAddress = e.lapicAddress.getD a.lapicAddress
  ioapic : a'.ioapic = (e.ioapic 1).getD a.ioapic
  interrupt : a'.interrupt.entries = a.interrupt.entries ++ e.interrupt.toList
  nmis : a'.nmis.entries = a.nmis.entries ++ e.nmi.toList

theorem Extracted.snoc (h : Extracted 1 header done a) (hs : Applied e a a') : Extracted 1 header (done ++ [e]) a' := by
  have hone {α : Type} (f : Entry → Option α) : (done ++ [e]).filterMap f = done.filterMap f ++ (f e).toList := by
    rw [List.filterMap_append, List.filterMap_cons]
    cases f e <;> rfl
  have hlast {α : Type} (l : List α) (o : Option α) (d : α) :
      o.getD (l.getLast?.getD d) = (l ++ o.toList).getLast?.getD d := by
    cases o <;> simp
  refine ⟨?_, ?_, ?_, ?_, ?_⟩
  · rw [hs.lapics, h.lapics, hone]
  · rw [hs.lapicAddress, h.lapicAddress, hone, hlast]
  · rw [hs.ioapic, h.ioapic, hone, hlast]
  · rw [hs.interrupt, h.interrupt, hone]
  · rw [hs.nmis, h.nmis, hone]

/-- There is room for what the entry adds. -/
structure HasRoom (e : Entry) (a : ApicInfo) : Prop where
  lapics : a.lapics.entries.length + e.lapic.toList.length ≤ maxCore
  interrupt : a.interrupt.entries.length + e.interrupt.toList.length ≤ maxCore
  nmis : a.nmis.entries.length + e.nmi.toList.length ≤ 10

section Kinds

variable (h0 : 0 ≤ p) (hend : p + e.length ≤ t.length) (h : Holds t p e.bytes)

include h0 hend h

theorem Holds.read (offset n : ℕ) (hin : offset + n ≤ e.length) :
    (read t (p + offset) n : Outcome Trap ρ ℕ) = .next (e.field offset n) := by
  rw [← h.field offset n hin]
  exact read_eq (by omega) (by omega)

theorem Holds.kind : (Madt.read t p 1 : Outcome Trap ρ ℕ) = .next e.type := by
  have hlen : e.length = 2 + e.payload.length := rfl
  have hread := h.read (ρ := ρ) h0 hend 0 1 (by omega)
  have hzero : p + ((0 : ℕ) : ℤ) = p := by omega
  rw [hzero] at hread
  rw [hread]
  simp [Entry.field, Entry.bytes, littleEndian, Entry.type]

theorem lapicEntry_applied (htype : e.type = 0) (hlen : 8 ≤ e.length)
    (hroom : a.lapics.entries.length + e.lapic.toList.length ≤ maxCore) :
    ∃ a', (madtEntry t p a : Outcome Trap ρ ApicInfo) = .next a' ∧ Applied e a a' := by
  have h41 : (read t (p + 4) 1 : Outcome Trap ρ ℕ) = .next (e.field 4 1) := h.read h0 hend 4 1 (by omega)
  have h26 : (read t (p + 2) 6 : Outcome Trap ρ ℕ) = .next (e.field 2 6) := h.read h0 hend 2 6 (by omega)
  have hf2 : t.value (p + 2) 1 = e.field 2 1 := h.field 2 1 (by omega)
  have hf3 : t.value (p + 3) 1 = e.field 3 1 := h.field 3 1 (by omega)
  have hf4 : t.value (p + 4) 4 = e.field 4 4 := h.field 4 4 (by omega)
  have hflags := field_flags hlen
  rw [madtEntry, h.kind h0 hend, next_bind, htype, h41, next_bind]
  by_cases hbit : e.field 4 1 % 2 = 1
  · have hlapic : e.lapic = some ⟨e.field 2 1, e.field 3 1, e.field 4 4⟩ := if_pos ⟨htype, hflags.trans hbit⟩
    rw [hlapic] at hroom
    obtain ⟨s, hs, hentries⟩ := store_eq (ρ := ρ) (x := ⟨e.field 2 1, e.field 3 1, e.field 4 4⟩)
      (Nat.lt_of_succ_le hroom)
    rw [if_pos hbit, h26, next_bind, hf2, hf3, hf4, hs, next_bind]
    refine ⟨_, rfl, ?_⟩
    constructor <;> simp [hentries, hlapic, Entry.lapicAddress, Entry.ioapic, Entry.interrupt, Entry.nmi, htype]
  · have hlapic : e.lapic = none := if_neg fun hc => hbit (hflags.symm.trans hc.2)
    rw [if_neg hbit]
    refine ⟨_, rfl, ?_⟩
    constructor <;> simp [hlapic, Entry.lapicAddress, Entry.ioapic, Entry.interrupt, Entry.nmi, htype]

theorem ioapicEntry_applied (htype : e.type = 1) (hlen : 12 ≤ e.length) :
    ∃ a', (madtEntry t p a : Outcome Trap ρ ApicInfo) = .next a' ∧ Applied e a a' := by
  have h11 : (read t (p + 1) 1 : Outcome Trap ρ ℕ) = .next (e.field 1 1) := h.read h0 hend 1 1 (by omega)
  have h44 : (read t (p + 4) 4 : Outcome Trap ρ ℕ) = .next (e.field 4 4) := h.read h0 hend 4 4 (by omega)
  have h84 : (read t (p + 8) 4 : Outcome Trap ρ ℕ) = .next (e.field 8 4) := h.read h0 hend 8 4 (by omega)
  rw [madtEntry, h.kind h0 hend, next_bind, htype, h11, next_bind, h44, next_bind, h84, next_bind]
  refine ⟨_, rfl, ?_⟩
  constructor <;> simp [Entry.lapic, Entry.lapicAddress, Entry.ioapic, Entry.interrupt, Entry.nmi, htype]

theorem interruptEntry_applied (htype : e.type = 2) (hlen : 10 ≤ e.length)
    (hroom : a.interrupt.entries.length + e.interrupt.toList.length ≤ maxCore) :
    ∃ a', (madtEntry t p a : Outcome Trap ρ ApicInfo) = .next a' ∧ Applied e a a' := by
  have h28 : (read t (p + 2) 8 : Outcome Trap ρ ℕ) = .next (e.field 2 8) := h.read h0 hend 2 8 (by omega)
  have hf2 : t.value (p + 2) 1 = e.field 2 1 := h.field 2 1 (by omega)
  have hf3 : t.value (p + 3) 1 = e.field 3 1 := h.field 3 1 (by omega)
  have hf4 : t.value (p + 4) 4 = e.field 4 4 := h.field 4 4 (by omega)
  have hf8 : t.value (p + 8) 2 = e.field 8 2 := h.field 8 2 (by omega)
  have hover : e.interrupt = some ⟨e.field 2 1, e.field 3 1, e.field 4 4, e.field 8 2⟩ := if_pos htype
  rw [hover] at hroom
  obtain ⟨s, hs, hentries⟩ := store_eq (ρ := ρ) (x := ⟨e.field 2 1, e.field 3 1, e.field 4 4, e.field 8 2⟩)
    (Nat.lt_of_succ_le hroom)
  rw [madtEntry, h.kind h0 hend, next_bind, htype, h28, next_bind, hf2, hf3, hf4, hf8, hs, next_bind]
  refine ⟨_, rfl, ?_⟩
  constructor <;> simp [hentries, hover, Entry.lapic, Entry.lapicAddress, Entry.ioapic, Entry.nmi, htype]

theorem nmiEntry_applied (htype : e.type = 4) (hlen : 6 ≤ e.length)
    (hroom : a.nmis.entries.length + e.nmi.toList.length ≤ 10) :
    ∃ a', (madtEntry t p a : Outcome Trap ρ ApicInfo) = .next a' ∧ Applied e a a' := by
  have h24 : (read t (p + 2) 4 : Outcome Trap ρ ℕ) = .next (e.field 2 4) := h.read h0 hend 2 4 (by omega)
  have hf2 : t.value (p + 2) 1 = e.field 2 1 := h.field 2 1 (by omega)
  have hf3 : t.value (p + 3) 2 = e.field 3 2 := h.field 3 2 (by omega)
  have hf5 : t.value (p + 5) 1 = e.field 5 1 := h.field 5 1 (by omega)
  have hnmi : e.nmi = some ⟨e.field 2 1, e.field 3 2, e.field 5 1⟩ := if_pos htype
  rw [hnmi] at hroom
  obtain ⟨s, hs, hentries⟩ := store_eq (ρ := ρ) (x := ⟨e.field 2 1, e.field 3 2, e.field 5 1⟩)
    (Nat.lt_of_succ_le hroom)
  rw [madtEntry, h.kind h0 hend, next_bind, htype, h24, next_bind, hf2, hf3, hf5, hs, next_bind]
  refine ⟨_, rfl, ?_⟩
  constructor <;> simp [hentries, hnmi, Entry.lapic, Entry.lapicAddress, Entry.ioapic, Entry.interrupt, htype]

theorem addressEntry_applied (htype : e.type = 5) (hlen : 12 ≤ e.length) :
    ∃ a', (madtEntry t p a : Outcome Trap ρ ApicInfo) = .next a' ∧ Applied e a a' := by
  have h48 : (read t (p + 4) 8 : Outcome Trap ρ ℕ) = .next (e.field 4 8) := h.read h0 hend 4 8 (by omega)
  rw [madtEntry, h.kind h0 hend, next_bind, htype, h48, next_bind]
  refine ⟨_, rfl, ?_⟩
  constructor <;> simp [Entry.lapic, Entry.lapicAddress, Entry.ioapic, Entry.interrupt, Entry.nmi, htype]

theorem madtEntry_applied (hroom : HasRoom e a) :
    ∃ a', (madtEntry t p a : Outcome Trap ρ ApicInfo) = .next a' ∧ Applied e a a' := by
  have hsize : entrySize e.type ≤ e.length := e.complete
  unfold entrySize at hsize
  split at hsize
  case h_1 htype => exact lapicEntry_applied h0 hend h htype hsize hroom.lapics
  case h_2 htype => exact ioapicEntry_applied h0 hend h htype hsize
  case h_3 htype => exact interruptEntry_applied h0 hend h htype hsize hroom.interrupt
  case h_4 htype => exact nmiEntry_applied h0 hend h htype hsize hroom.nmis
  case h_5 htype => exact addressEntry_applied h0 hend h htype hsize
  case h_6 h0' h1 h2 h4 h5 =>
    -- any other type is skipped
    refine ⟨a, ?_, ?_⟩
    · rw [madtEntry, h.kind h0 hend, next_bind]
      split <;> first | contradiction | rfl
    · constructor <;> simp [Entry.lapic, Entry.lapicAddress, Entry.ioapic, Entry.interrupt, Entry.nmi,
        show e.type ≠ 0 from h0', show e.type ≠ 1 from h1, show e.type ≠ 2 from h2, show e.type ≠ 4 from h4,
        show e.type ≠ 5 from h5]

end Kinds

theorem madtStep_applied (hlen : 40 ≤ t.length) (h0 : 0 ≤ p) (hend : p + e.length ≤ t.length) (h : Holds t p e.bytes)
    (hroom : HasRoom e a) : ∃ a', madtStep t ⟨p, a⟩ = .next ⟨p + e.length, a'⟩ ∧ Applied e a a' := by
  obtain ⟨a', ha', happlied⟩ := madtEntry_applied (ρ := ApicInfo) h0 hend h hroom
  have hshort := e.short
  have helen : e.length = 2 + e.payload.length := rfl
  have hbyte : t.byte (p + 1) = BitVec.ofNat 8 e.length := h 1 _ rfl
  have hint : (BitVec.ofNat 8 e.length).toInt = e.length := by
    rw [BitVec.toInt_eq_toNat_of_lt (by rw [BitVec.toNat_ofNat]; omega), BitVec.toNat_ofNat]
    omega
  refine ⟨a', ?_, happlied⟩
  rw [madtStep, read_eq (by decide) (by omega), next_bind]
  change (if p < t.length then _ else _ : Outcome _ _ _) = _
  rw [if_pos (by omega), ha', next_bind]
  dsimp only
  rw [read_eq (by omega) (by omega), next_bind, hbyte, hint]

end Step

section Run

variable (done) in
theorem run_entries (hlen : 40 ≤ t.length) (h0 : 0 ≤ p) (hend : t.length = p + (es.flatMap Entry.bytes).length)
    (h : Holds t p (es.flatMap Entry.bytes)) (hcores : ((done ++ es).filterMap Entry.lapic).length ≤ maxCore)
    (hovers : ((done ++ es).filterMap Entry.interrupt).length ≤ maxCore)
    (hnmis : ((done ++ es).filterMap Entry.nmi).length ≤ 10) (ha : Extracted 1 header done a) :
    ∃ r, Returns (madtStep t) ⟨p, a⟩ r ∧ Extracted 1 header (done ++ es) r := by
  induction es generalizing p a done with
  | nil =>
    rw [List.flatMap_nil, List.length_nil] at hend
    refine ⟨a, returns_of_done (madtStep_done hlen (by omega)), ?_⟩
    rwa [List.append_nil]
  | cons e es ih =>
    rw [List.flatMap_cons] at h hend
    rw [List.length_append, length_bytes] at hend
    obtain ⟨hhead, hrest⟩ := h.append
    rw [length_bytes] at hrest
    have hsplit : done ++ e :: es = (done ++ [e]) ++ es := by rw [List.append_assoc, List.singleton_append]
    have hroom : HasRoom e a := by
      have hle {α : Type} {f : Entry → Option α} {m : ℕ} (hm : ((done ++ e :: es).filterMap f).length ≤ m) :
          (done.filterMap f).length + (f e).toList.length ≤ m := by
        rw [List.filterMap_append, List.length_append, List.filterMap_cons] at hm
        cases hf : f e with
        | none =>
          rw [hf] at hm
          exact Nat.le_trans (Nat.le_add_right ..) hm
        | some x =>
          rw [hf] at hm
          exact Nat.le_trans (Nat.add_le_add_left (Nat.succ_le_succ (Nat.zero_le _)) _) hm
      refine ⟨?_, ?_, ?_⟩
      · rw [ha.lapics]
        exact hle hcores
      · rw [ha.interrupt]
        exact hle hovers
      · rw [ha.nmis]
        exact hle hnmis
    obtain ⟨a', hstep, happlied⟩ := madtStep_applied hlen h0 (by omega) hhead hroom
    rw [hsplit] at hcores hovers hnmis ⊢
    obtain ⟨r, hr, hextracted⟩ := ih (done ++ [e]) (by omega) (by omega) hrest hcores hovers hnmis
      (ha.snoc happlied)
    exact ⟨r, (returns_of_next hstep).mpr hr, hextracted⟩

theorem parseMadt_eq (hlen : 40 ≤ t.length) (n : ℕ) (a : ApicInfo) : parseMadt t n a =
    runFor (madtStep t) n ⟨madtEntryStart, { a with lapicAddress := t.value 36 4 }⟩ := by
  rw [parseMadt, read_eq (by decide) (by omega), next_bind]

/-- What the parser makes of the entries. -/
theorem parse_entries (h : TableOf t es) : ∃ n r, parseMadt t n noInfo = .done r ∧ Extracted 1 (t.value 36 4) es r := by
  have hlen := h.length
  have hstart : Extracted 1 (t.value 36 4) [] { noInfo with lapicAddress := t.value 36 4 } :=
    ⟨rfl, rfl, rfl, rfl, rfl⟩
  obtain ⟨r, ⟨n, hn⟩, hr⟩ := run_entries [] (by omega) (by decide) (by rw [hlen]; rfl) h.entries h.cores
    h.overrides h.nmis hstart
  exact ⟨n, r, (parseMadt_eq (by omega) n noInfo).trans hn, hr⟩

/-- The identifier at offset 1 is the length of the entry. -/
theorem field_length (e : Entry) : e.field 1 1 = e.length := by
  have hshort := e.short
  have hlen : e.length = 2 + e.payload.length := rfl
  simp only [Entry.field, Entry.bytes, littleEndian, List.drop_succ_cons, List.drop_zero, List.take_succ_cons,
    List.take_zero, List.foldr_cons, List.foldr_nil, BitVec.toNat_ofNat]
  omega

/-- The last I/O APIC entry gives its own length as the identifier. -/
def IdIsLength (es : List Entry) : Prop :=
  ∀ e, (es.filter fun e => e.type = 1).getLast? = some e → e.field 2 1 = e.length

theorem ioapic_getLast (idOffset : ℕ) (es : List Entry) : (es.filterMap (Entry.ioapic idOffset)).getLast? =
    (es.filter fun e => e.type = 1).getLast?.map fun e => ⟨e.field idOffset 1, e.field 4 4, e.field 8 4⟩ := by
  have hmap : es.filterMap (Entry.ioapic idOffset) = (es.filter fun e => e.type = 1).map
      fun e => ⟨e.field idOffset 1, e.field 4 4, e.field 8 4⟩ := by
    induction es with
    | nil => rfl
    | cons e es ih =>
      rw [List.filterMap_cons, List.filter_cons, Entry.ioapic, ih]
      by_cases h : e.type = 1 <;> simp [h]
  rw [hmap, List.getLast?_map]

theorem Extracted.id_iff {header : ℕ} (h : Extracted 1 header es a) : Extracted 2 header es a ↔ IdIsLength es := by
  have hioapic := h.ioapic
  rw [ioapic_getLast] at hioapic
  have hsame : Extracted 2 header es a ↔ a.ioapic = (es.filterMap (Entry.ioapic 2)).getLast?.getD ⟨0, 0, 0⟩ :=
    ⟨fun h => h.ioapic, fun hio => { h with ioapic := hio }⟩
  rw [hsame, hioapic, ioapic_getLast, IdIsLength]
  cases (es.filter fun e => e.type = 1).getLast? with
  | none => simp
  | some e => simp [field_length, eq_comm]

theorem madt_extracted_iff (h : TableOf t es) :
    (∃ n r, parseMadt t n noInfo = .done r ∧ Extracted 2 (t.value 36 4) es r) ↔ IdIsLength es := by
  obtain ⟨n, r, hn, hr⟩ := parse_entries h
  have hlen := h.length
  constructor
  · rintro ⟨n', r', hn', hr'⟩
    rw [parseMadt_eq (by omega)] at hn hn'
    obtain rfl : r' = r := Returns.unique ⟨n, hn⟩ ⟨n', hn'⟩
    exact hr.id_iff.mp hr'
  · intro hid
    exact ⟨n, r, hn, hr.id_iff.mpr hid⟩

theorem holds_tableOf (header bytes : List (BitVec 8)) : Holds (tableOf (header ++ bytes)) header.length bytes := by
  intro i b hb
  obtain ⟨hi, rfl⟩ := List.getElem?_eq_some_iff.mp hb
  have hnat : ((header.length : ℤ) + i).toNat = header.length + i := by omega
  rw [tableOf]
  dsimp only
  rw [if_pos (by omega), hnat, List.getD_eq_getElem?_getD, List.getElem?_append_right (Nat.le_add_right ..),
    Nat.add_sub_cancel_left, hb, Option.getD_some]

/-- A local APIC, an I/O APIC with the identifier, and an override of the timer interrupt. -/
def entriesWith (id : BitVec 8) : List Entry := [
  ⟨0, [0, 0, 1, 0, 0, 0], by decide, by decide⟩,
  ⟨1, [id, 0, 0, 0, 192, 254, 0, 0, 0, 0], by simp, by simp [entrySize]⟩,
  ⟨2, [0, 0, 2, 0, 0, 0, 0, 0], by decide, by decide⟩]

def tableHeader : List (BitVec 8) :=
  [65, 80, 73, 67, 74, 0, 0, 0] ++ List.replicate 28 0 ++ [0, 0, 224, 254, 1, 0, 0, 0]

def tableWith (id : BitVec 8) : Table := tableOf (tableHeader ++ (entriesWith id).flatMap Entry.bytes)

theorem tableOf_with (id : BitVec 8) : TableOf (tableWith id) (entriesWith id) :=
  ⟨rfl, holds_tableOf tableHeader _, by decide +revert, by decide +revert, by decide +revert⟩

theorem madt_extracted_twelve : ∃ n r, parseMadt (tableWith 12) n noInfo = .done r ∧
    Extracted 2 ((tableWith 12).value 36 4) (entriesWith 12) r := by
  apply (madt_extracted_iff (tableOf_with 12)).mpr
  rintro e ⟨⟩
  rfl

/-- The I/O APIC has the identifier 0, and its length is recorded. -/
theorem ioapic_id_lost : TableOf (tableWith 0) (entriesWith 0) ∧
    (∃ n r, parseMadt (tableWith 0) n noInfo = .done r ∧ r.ioapic.id = 12) ∧
    ¬ ∃ n r, parseMadt (tableWith 0) n noInfo = .done r ∧
      Extracted 2 ((tableWith 0).value 36 4) (entriesWith 0) r := by
  obtain ⟨n, r, hn, hr⟩ := parse_entries (tableOf_with 0)
  refine ⟨tableOf_with 0, ⟨n, r, hn, congrArg IoapicEntry.id hr.ioapic⟩, ?_⟩
  rw [madt_extracted_iff (tableOf_with 0)]
  intro hid
  exact absurd (hid _ rfl) (by decide)

end Run

end Raccoon.Madt
