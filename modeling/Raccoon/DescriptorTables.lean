import Mathlib.Logic.Function.Basic
import Raccoon.PackedFields

/-!
The segment and interrupt descriptors as the kernel packs them and as the
processor takes them apart, and the tables that `setup_gdt` and `setup_idt` fill.
-/

namespace Raccoon.DescriptorTables

open PackedFields

section Code

structure GdtEntry where
  limit0_15 : BitVec 16
  base0_15 : BitVec 16
  base16_23 : BitVec 8
  flags : BitVec 8
  limit16_19 : BitVec 4
  granularity : BitVec 4
  base24_31 : BitVec 8
deriving DecidableEq

def createGdtEntry (base limit : BitVec 32) (granularity flags : BitVec 8) : GdtEntry where
  limit0_15 := limit.setWidth 16
  base0_15 := base.setWidth 16
  base16_23 := (base >>> 16).setWidth 8
  flags := flags
  limit16_19 := (limit >>> 16).setWidth 4
  granularity := granularity.setWidth 4
  base24_31 := (base >>> 24).setWidth 8

def gdtSegment : BitVec 8 := 0b00010000
def gdtPresent : BitVec 8 := 0b10000000
def gdtUser : BitVec 8 := 0b01100000
def gdtExecutable : BitVec 8 := 0b00001000
def gdtReadwrite : BitVec 8 := 0b00000010
def gdtLongModeGranularity : BitVec 8 := 0b0010

def gdtKernelCode : ℕ := 1
def gdtKernelData : ℕ := 2
def gdtUserData : ℕ := 4
def gdtUserCode : ℕ := 5

def quickEntry (flags granularity : BitVec 8) : GdtEntry := createGdtEntry 0 0 granularity flags

/-- The entries in the order of their indices. -/
def setupGdt : List GdtEntry :=
  [createGdtEntry 0 0 0 0,
    quickEntry (gdtPresent ||| gdtSegment ||| gdtReadwrite ||| gdtExecutable) gdtLongModeGranularity,
    quickEntry (gdtPresent ||| gdtSegment ||| gdtReadwrite) 0,
    createGdtEntry 0 0 0 0,
    quickEntry (gdtPresent ||| gdtSegment ||| gdtReadwrite ||| gdtUser) 0,
    quickEntry (gdtPresent ||| gdtSegment ||| gdtReadwrite ||| gdtExecutable ||| gdtUser) gdtLongModeGranularity]

structure IdtEntry where
  offset0_16 : BitVec 16
  codeSegment : BitVec 16
  ist : BitVec 8
  attributes : BitVec 8
  offset16_32 : BitVec 16
  offset32_63 : BitVec 32
  zero : BitVec 32
deriving DecidableEq

def createIdtEntry (handler : BitVec 64) (ist idtFlags : BitVec 8) : IdtEntry where
  offset0_16 := handler.setWidth 16
  codeSegment := BitVec.ofNat 16 (gdtKernelCode * 8)
  ist := ist
  attributes := idtFlags
  offset16_32 := (handler >>> 16).setWidth 16
  offset32_63 := (handler >>> 32).setWidth 32
  zero := 0

def idtPresent : BitVec 8 := 0b10000000
def idtInterrupt : BitVec 8 := 0b00001110

/-- The stubs of the assembly, by the number in their names. -/
inductive Label where
  | isr (n : ℕ)
  | irq (n : ℕ)
deriving DecidableEq

/-- The gates that `setup_idt` sets, in its order. -/
def gates : List (ℕ × Label) :=
  (List.range 32).map (fun n => (n, .isr n)) ++ [(0 + 32, .irq 0), (127, .isr 127), (129, .isr 129)]

/-- The table is zero before. -/
def setupIdt (address : Label → BitVec 64) : ℕ → IdtEntry :=
  gates.foldl (fun idt g => Function.update idt g.1 (createIdtEntry (address g.2) 0 (idtPresent ||| idtInterrupt)))
    fun _ => ⟨0, 0, 0, 0, 0, 0, 0⟩

end Code

section Processor

def GdtEntry.fields (e : GdtEntry) : List (ℕ × ℕ) :=
  [(16, e.limit0_15.toNat), (16, e.base0_15.toNat), (8, e.base16_23.toNat), (8, e.flags.toNat),
    (4, e.limit16_19.toNat), (4, e.granularity.toNat), (8, e.base24_31.toNat)]

def IdtEntry.fields (e : IdtEntry) : List (ℕ × ℕ) :=
  [(16, e.offset0_16.toNat), (16, e.codeSegment.toNat), (8, e.ist.toNat), (8, e.attributes.toNat),
    (16, e.offset16_32.toNat), (32, e.offset32_63.toNat), (32, e.zero.toNat)]

/-- The bytes of a packed entry, as a number. -/
def GdtEntry.word (e : GdtEntry) : ℕ := pack e.fields

def IdtEntry.word (e : IdtEntry) : ℕ := pack e.fields

/-- A segment as the processor reads it. -/
structure Segment where
  base : BitVec 32
  limit : BitVec 20
  present : Bool
  dpl : BitVec 2
  /-- A code or data segment, not one of the system. -/
  plain : Bool
  executable : Bool
  /-- Conforming code, or data that grows down. -/
  conforming : Bool
  /-- Readable code, or writable data. -/
  writable : Bool
  accessed : Bool
  long : Bool
  /-- A default operand size of 32 bits. -/
  big : Bool
  /-- The limit counts pages. -/
  pages : Bool
deriving DecidableEq

def segment (w : ℕ) : Segment where
  base := BitVec.ofNat 32 (w / 2 ^ 16 % 2 ^ 24 + 2 ^ 24 * (w / 2 ^ 56 % 2 ^ 8))
  limit := BitVec.ofNat 20 (w % 2 ^ 16 + 2 ^ 16 * (w / 2 ^ 48 % 2 ^ 4))
  present := w.testBit 47
  dpl := BitVec.ofNat 2 (w / 2 ^ 45)
  plain := w.testBit 44
  executable := w.testBit 43
  conforming := w.testBit 42
  writable := w.testBit 41
  accessed := w.testBit 40
  long := w.testBit 53
  big := w.testBit 54
  pages := w.testBit 55

/-- A gate as the processor reads it. -/
structure Gate where
  offset : BitVec 64
  selector : BitVec 16
  ist : BitVec 3
  kind : BitVec 4
  dpl : BitVec 2
  present : Bool
deriving DecidableEq

def gate (w : ℕ) : Gate where
  offset := BitVec.ofNat 64 (w % 2 ^ 16 + 2 ^ 16 * (w / 2 ^ 48 % 2 ^ 48))
  selector := BitVec.ofNat 16 (w / 2 ^ 16)
  ist := BitVec.ofNat 3 (w / 2 ^ 32)
  kind := BitVec.ofNat 4 (w / 2 ^ 40)
  dpl := BitVec.ofNat 2 (w / 2 ^ 45)
  present := w.testBit 47

end Processor

section RoundTrips

theorem fits_gdt (e : GdtEntry) : Fits e.fields := by
  intro p hp
  simp only [GdtEntry.fields, List.mem_cons, List.not_mem_nil, or_false] at hp
  rcases hp with rfl | rfl | rfl | rfl | rfl | rfl | rfl <;> exact BitVec.isLt _

theorem fits_idt (e : IdtEntry) : Fits e.fields := by
  intro p hp
  simp only [IdtEntry.fields, List.mem_cons, List.not_mem_nil, or_false] at hp
  rcases hp with rfl | rfl | rfl | rfl | rfl | rfl | rfl <;> exact BitVec.isLt _

/-- The fields of a gate, where the processor looks for them. -/
theorem word_createIdtEntry (handler : BitVec 64) (ist idtFlags : BitVec 8) :
    (createIdtEntry handler ist idtFlags).word % 2 ^ 16 = handler.toNat % 2 ^ 16 ∧
    (createIdtEntry handler ist idtFlags).word / 2 ^ 16 % 2 ^ 16 = 8 ∧
    (createIdtEntry handler ist idtFlags).word / 2 ^ 32 % 2 ^ 8 = ist.toNat ∧
    (createIdtEntry handler ist idtFlags).word / 2 ^ 40 % 2 ^ 8 = idtFlags.toNat ∧
    (createIdtEntry handler ist idtFlags).word / 2 ^ 48 % 2 ^ 48 = handler.toNat / 2 ^ 16 := by
  have hslice := slice_pack (fits_idt (createIdtEntry handler ist idtFlags))
  have hlt := handler.isLt
  have hlow : (createIdtEntry handler ist idtFlags).word / 2 ^ 0 % 2 ^ 16 = _ := hslice 0 1
  have hselector : (createIdtEntry handler ist idtFlags).word / 2 ^ 16 % 2 ^ 16 = _ := hslice 1 1
  have hist : (createIdtEntry handler ist idtFlags).word / 2 ^ 32 % 2 ^ 8 = _ := hslice 2 1
  have hflags : (createIdtEntry handler ist idtFlags).word / 2 ^ 40 % 2 ^ 8 = _ := hslice 3 1
  have hhigh : (createIdtEntry handler ist idtFlags).word / 2 ^ 48 % 2 ^ 48 = _ := hslice 4 2
  refine ⟨?_, hselector, ?_, ?_, ?_⟩
  · simpa [IdtEntry.fields, createIdtEntry, pack] using hlow
  · simpa [IdtEntry.fields, createIdtEntry, pack] using hist
  · simpa [IdtEntry.fields, createIdtEntry, pack] using hflags
  · rw [hhigh]
    simp only [IdtEntry.fields, createIdtEntry, pack, List.drop_succ_cons, List.drop_zero, List.take_succ_cons,
      List.take_zero, BitVec.toNat_setWidth, BitVec.toNat_ushiftRight, Nat.shiftRight_eq_div_pow]
    omega

/-- The processor reads the handler's address and the flags that a gate was made from. -/
theorem gate_createIdtEntry (handler : BitVec 64) (ist idtFlags : BitVec 8) :
    gate (createIdtEntry handler ist idtFlags).word =
      ⟨handler, 8, ist.setWidth 3, idtFlags.setWidth 4, idtFlags.extractLsb' 5 2, idtFlags.getLsbD 7⟩ := by
  obtain ⟨hlow, hselector, hist, hflags, hhigh⟩ := word_createIdtEntry handler ist idtFlags
  generalize (createIdtEntry handler ist idtFlags).word = w at *
  have hlt := handler.isLt
  have hpresent : w.testBit (40 + 7) = idtFlags.toNat.testBit 7 := bit_of_slice hflags (by decide)
  unfold gate
  congr 1
  · apply BitVec.eq_of_toNat_eq
    rw [BitVec.toNat_ofNat, hlow, hhigh]
    omega
  · apply BitVec.eq_of_toNat_eq
    rw [BitVec.toNat_ofNat, hselector]
    rfl
  · apply BitVec.eq_of_toNat_eq
    rw [BitVec.toNat_ofNat, BitVec.toNat_setWidth, ← hist]
    omega
  · apply BitVec.eq_of_toNat_eq
    rw [BitVec.toNat_ofNat, BitVec.toNat_setWidth, ← hflags]
    omega
  · apply BitVec.eq_of_toNat_eq
    rw [BitVec.toNat_ofNat, BitVec.extractLsb'_toNat, Nat.shiftRight_eq_div_pow]
    exact slice_of_slice (j := 5) (l := 2) hflags (by decide)

theorem word_createGdtEntry (base limit : BitVec 32) (granularity flags : BitVec 8) :
    (createGdtEntry base limit granularity flags).word % 2 ^ 16 = limit.toNat % 2 ^ 16 ∧
    (createGdtEntry base limit granularity flags).word / 2 ^ 16 % 2 ^ 24 = base.toNat % 2 ^ 24 ∧
    (createGdtEntry base limit granularity flags).word / 2 ^ 40 % 2 ^ 8 = flags.toNat ∧
    (createGdtEntry base limit granularity flags).word / 2 ^ 48 % 2 ^ 4 = limit.toNat / 2 ^ 16 % 2 ^ 4 ∧
    (createGdtEntry base limit granularity flags).word / 2 ^ 52 % 2 ^ 4 = granularity.toNat % 2 ^ 4 ∧
    (createGdtEntry base limit granularity flags).word / 2 ^ 56 % 2 ^ 8 = base.toNat / 2 ^ 24 := by
  have hslice := slice_pack (fits_gdt (createGdtEntry base limit granularity flags))
  have hlt := base.isLt
  have hlimit0 : (createGdtEntry base limit granularity flags).word / 2 ^ 0 % 2 ^ 16 = _ := hslice 0 1
  have hbase0 : (createGdtEntry base limit granularity flags).word / 2 ^ 16 % 2 ^ 24 = _ := hslice 1 2
  have hflags : (createGdtEntry base limit granularity flags).word / 2 ^ 40 % 2 ^ 8 = _ := hslice 3 1
  have hlimit1 : (createGdtEntry base limit granularity flags).word / 2 ^ 48 % 2 ^ 4 = _ := hslice 4 1
  have hgranularity : (createGdtEntry base limit granularity flags).word / 2 ^ 52 % 2 ^ 4 = _ := hslice 5 1
  have hbase1 : (createGdtEntry base limit granularity flags).word / 2 ^ 56 % 2 ^ 8 = _ := hslice 6 1
  refine ⟨?_, ?_, ?_, ?_, ?_, ?_⟩
  · simpa [GdtEntry.fields, createGdtEntry, pack] using hlimit0
  · rw [hbase0]
    simp only [GdtEntry.fields, createGdtEntry, pack, List.drop_succ_cons, List.drop_zero, List.take_succ_cons,
      List.take_zero, BitVec.toNat_setWidth, BitVec.toNat_ushiftRight, Nat.shiftRight_eq_div_pow]
    omega
  · simpa [GdtEntry.fields, createGdtEntry, pack] using hflags
  · simpa [GdtEntry.fields, createGdtEntry, pack, Nat.shiftRight_eq_div_pow] using hlimit1
  · simpa [GdtEntry.fields, createGdtEntry, pack] using hgranularity
  · rw [hbase1]
    simp only [GdtEntry.fields, createGdtEntry, pack, List.drop_succ_cons, List.drop_zero, List.take_succ_cons,
      List.take_zero, BitVec.toNat_setWidth, BitVec.toNat_ushiftRight, Nat.shiftRight_eq_div_pow]
    omega

/-- The processor reads the base and the flags that an entry was made from, and 20 bits of the limit. -/
theorem segment_createGdtEntry (base limit : BitVec 32) (granularity flags : BitVec 8) :
    segment (createGdtEntry base limit granularity flags).word =
      ⟨base, limit.setWidth 20, flags.getLsbD 7, flags.extractLsb' 5 2, flags.getLsbD 4, flags.getLsbD 3,
        flags.getLsbD 2, flags.getLsbD 1, flags.getLsbD 0, granularity.getLsbD 1, granularity.getLsbD 2,
        granularity.getLsbD 3⟩ := by
  obtain ⟨hlimit0, hbase0, hflags, hlimit1, hgranularity, hbase1⟩ := word_createGdtEntry base limit granularity flags
  generalize (createGdtEntry base limit granularity flags).word = w at *
  have hlt := base.isLt
  have hbit {j : ℕ} (hj : j < 8) : w.testBit (40 + j) = flags.toNat.testBit j := bit_of_slice hflags hj
  have hhigh {j : ℕ} (hj : j < 4) : w.testBit (52 + j) = granularity.toNat.testBit j := by
    have hslice : w.testBit (52 + j) = (granularity.toNat % 2 ^ 4).testBit j := bit_of_slice hgranularity hj
    rwa [Nat.testBit_mod_two_pow, decide_eq_true hj, Bool.true_and] at hslice
  unfold segment
  congr 1
  · apply BitVec.eq_of_toNat_eq
    rw [BitVec.toNat_ofNat, hbase0, hbase1]
    omega
  · apply BitVec.eq_of_toNat_eq
    rw [BitVec.toNat_ofNat, hlimit0, hlimit1, BitVec.toNat_setWidth]
    omega
  · exact hbit (j := 7) (by decide)
  · apply BitVec.eq_of_toNat_eq
    rw [BitVec.toNat_ofNat, BitVec.extractLsb'_toNat, Nat.shiftRight_eq_div_pow]
    exact slice_of_slice (j := 5) (l := 2) hflags (by decide)
  · exact hbit (j := 4) (by decide)
  · exact hbit (j := 3) (by decide)
  · exact hbit (j := 2) (by decide)
  · exact hbit (j := 1) (by decide)
  · exact hbit (j := 0) (by decide)
  · exact hhigh (j := 1) (by decide)
  · exact hhigh (j := 2) (by decide)
  · exact hhigh (j := 3) (by decide)

/-- A table filled entry by entry is read back by the keys, where no key comes twice. -/
theorem foldl_update {α β : Type} (make : α → β) {entries : List (ℕ × α)} (hkeys : (entries.map Prod.fst).Nodup)
    (table : ℕ → β) (v : ℕ) :
    entries.foldl (fun t e => Function.update t e.1 (make e.2)) table v =
      ((entries.lookup v).map make).getD (table v) := by
  induction entries generalizing table with
  | nil => rfl
  | cons e entries ih =>
    obtain ⟨k, a⟩ := e
    obtain ⟨hk, hkeys⟩ := List.nodup_cons.mp hkeys
    rw [List.foldl_cons, ih hkeys]
    by_cases hv : v = k
    · subst hv
      have hnone : entries.lookup v = none := by
        rw [List.lookup_eq_none_iff]
        intro p hp
        rw [bne_iff_ne]
        rintro rfl
        exact hk (List.mem_map.mpr ⟨p, hp, rfl⟩)
      rw [hnone, List.lookup_cons_self]
      exact Function.update_self ..
    · rw [List.lookup_cons, beq_eq_false_iff_ne.mpr hv, Function.update_of_ne hv]

/-- The stub that the gate of a vector leads to. -/
def stubOf (v : ℕ) : Option Label := gates.lookup v

theorem gates_nodup : (gates.map Prod.fst).Nodup := by decide

/-- The gate that the processor finds for each vector, wherever the stubs are linked: in the kernel's code segment,
with interrupts disabled behind it, or not present. -/
theorem gate_setupIdt (address : Label → BitVec 64) (v : ℕ) :
    gate (setupIdt address v).word = match stubOf v with
      | some l => ⟨address l, 8, 0, 0b1110, 0, true⟩
      | none => ⟨0, 0, 0, 0, 0, false⟩ := by
  rw [setupIdt, foldl_update (fun l => createIdtEntry (address l) 0 (idtPresent ||| idtInterrupt)) gates_nodup, ← stubOf]
  cases stubOf v with
  | none =>
    have hzero : gate (⟨0, 0, 0, 0, 0, 0, 0⟩ : IdtEntry).word = ⟨0, 0, 0, 0, 0, false⟩ := by decide
    exact hzero
  | some l =>
    rw [Option.map_some, Option.getD_some, gate_createIdtEntry]
    congr 1

/-- The segment of the gates is present, privileged, executable and of 64 bits. -/
theorem segment_kernelCode : setupGdt[gdtKernelCode]?.map (fun e => segment e.word) =
    some ⟨0, 0, true, 0, true, true, false, true, false, true, false, false⟩ := by
  decide

end RoundTrips

end Raccoon.DescriptorTables
