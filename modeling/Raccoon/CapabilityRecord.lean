import Raccoon.Capabilities
import Raccoon.ParserBounds

/-!
The capability table from its file to the lookups. The parser fills the first
entry only, and the loops of `capability_recorder.c` read the names of all 64.
-/

namespace Raccoon.CapabilityRecord

open Loops Outcome Capabilities CapabilityFile

def maxCapabilities : ℕ := 64

def framebufferName : CString := ⟨"framebuffer".toList, by decide⟩

/-- An entry as the parser leaves it, the core number of which is still 0. -/
def entryOf (c : CapabilityFile.Capability) : Capabilities.Capability :=
  ⟨c.name.map CString.upTo, c.beginAddr, c.endAddr, 0⟩

/-- `init_capabilities_record` on the empty table, or none where it reads an unset name. -/
def initCapabilitiesRecord (file : List Char) (currentSystem : CString) (beginAddr endAddr : ℕ) :
    Outcome Trap Empty (Option (List Capabilities.Capability)) := do
  let caps ← fillCapabilities file (fun _ => noCapability) maxCapabilities currentSystem
  .next (Capabilities.initCapabilitiesRecord framebufferName beginAddr endAddr
    ((List.range maxCapabilities).map fun i => entryOf (caps i)))

/-- A lookup that reads no unset name, and finds nothing where there is nothing. -/
def Defined (lookup : List Capabilities.Capability → Option (List Capabilities.Capability × ℕ)) (name : CString)
    (caps : List Capabilities.Capability) : Prop :=
  ∃ caps' r, lookup caps = some (caps', r) ∧ ((∀ c ∈ caps, c.name ≠ some name) → r = 0)

/-- The table is filled, with every entry free and the range of the framebuffer, and all lookups are defined. -/
def LookupsDefined (file : List Char) (currentSystem : CString) (beginAddr endAddr : ℕ) : Prop :=
  ∃ caps, initCapabilitiesRecord file currentSystem beginAddr endAddr = .next (some caps) ∧
    (∀ c ∈ caps, c.coreNumber = -1) ∧
    (∀ c ∈ caps, c.name = some framebufferName → c.beginAddr = beginAddr ∧ c.endAddr = endAddr) ∧
    ∀ name core, Defined (getCapability name core) name caps ∧ Defined (releaseCapability name core) name caps

variable {file : List Char} {currentSystem : CString} {beginAddr endAddr max : ℕ}

theorem unset_name_read {caps : List Capabilities.Capability} (h : ∃ c ∈ caps, c.name = none) :
    Capabilities.initCapabilitiesRecord framebufferName beginAddr endAddr caps = none := by
  induction caps with
  | nil =>
    obtain ⟨c, hc, -⟩ := h
    cases hc
  | cons c caps ih =>
    rw [Capabilities.initCapabilitiesRecord]
    cases hname : c.name with
    | none => rfl
    | some name =>
      obtain ⟨c', hc', hnone⟩ := h
      rcases List.mem_cons.mp hc' with rfl | hc'
      · rw [hname] at hnone
        cases hnone
      · simp only [Option.bind_eq_bind, Option.bind_some, ih ⟨c', hc', hnone⟩, Option.bind_none]

theorem fillCapabilities_rest {caps caps' : ℕ → CapabilityFile.Capability}
    (h : (fillCapabilities file caps max currentSystem : Outcome Trap Empty _) = .next caps') :
    ∀ j, j ≠ 0 → caps' j = caps j := by
  by_cases hreads : ReadsInside (toLines file) currentSystem.chars
  · have hends := fillCapabilities_ends (ρ := Empty) hreads caps max
    rw [h] at hends
    exact fun j hj => hends j fun h0 => absurd h0 hj
  · rw [fillCapabilities, getSection_fails hreads, fail_bind] at h
    cases h

/-- The second name is read, and it is not set, whatever the file holds. -/
theorem initCapabilitiesRecord_unset {caps : Option (List Capabilities.Capability)}
    (h : initCapabilitiesRecord file currentSystem beginAddr endAddr = .next caps) : caps = none := by
  rw [initCapabilitiesRecord] at h
  cases hfill : (fillCapabilities file (fun _ => noCapability) maxCapabilities currentSystem :
      Outcome Trap Empty _) with
  | fail e =>
    rw [hfill] at h
    cases h
  | done r => exact r.elim
  | next caps' =>
    rw [hfill, next_bind] at h
    obtain rfl := Outcome.next.inj h
    have hsecond := fillCapabilities_rest hfill 1 (by decide)
    apply unset_name_read
    refine ⟨entryOf (caps' 1), List.mem_map.mpr ⟨1, List.mem_range.mpr (by decide), rfl⟩, ?_⟩
    rw [hsecond]
    rfl

theorem lookups_never_defined (file : List Char) (currentSystem : CString) (beginAddr endAddr : ℕ) :
    ¬ LookupsDefined file currentSystem beginAddr endAddr := by
  rintro ⟨caps, hinit, -⟩
  cases initCapabilitiesRecord_unset hinit

/-- A file with one capability is read, and the name of the second entry after it. -/
theorem one_capability_unset : fileOf amd64 [serial] " amd64\n".toList =
      "BEGIN amd64\nCAPABILITY serial\n    ADDRESS 0 1000\n    IOperms wr\nEND amd64\n".toList ∧
    initCapabilitiesRecord (fileOf amd64 [serial] " amd64\n".toList) amd64.string 0xe0000000 0xe0400000 =
      .next none ∧
    ¬ LookupsDefined (fileOf amd64 [serial] " amd64\n".toList) amd64.string 0xe0000000 0xe0400000 := by
  have hfill := fillCapabilities_eq (ρ := Empty) amd64 serial [] " amd64\n".toList (fun _ => noCapability)
    (by decide : 0 < maxCapabilities)
  have hinit : initCapabilitiesRecord (fileOf amd64 [serial] " amd64\n".toList) amd64.string 0xe0000000 0xe0400000 =
      .next none := by
    have hrun : ∃ caps, initCapabilitiesRecord (fileOf amd64 [serial] " amd64\n".toList) amd64.string
        0xe0000000 0xe0400000 = .next caps := by
      rw [initCapabilitiesRecord, hfill]
      exact ⟨_, rfl⟩
    obtain ⟨caps, hcaps⟩ := hrun
    rw [hcaps, initCapabilitiesRecord_unset hcaps]
  refine ⟨by decide +kernel, hinit, ?_⟩
  rintro ⟨caps, hsome, -⟩
  rw [hinit] at hsome
  cases hsome

end Raccoon.CapabilityRecord
