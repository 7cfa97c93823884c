import Raccoon.Launch

/-!
What the launches of `kernel_main` come to. A core starts a program when it jumps
to the entry point in a mapping that the program has been loaded into, its own or
that of the core it has waited for.
-/

namespace Raccoon.Launch

open TableTree Loops Outcome Mmu CoreLaunch KernelMain ElfLoader

section Starts

variable {A : Type} [FrameSource A] (parsed : Init) (files : List File) (space : ℕ → Machine A) (coreId : ℕ)

/-- Core `c` comes to the end of `entry_launch`, in the address space that it has when it begins. -/
def Jumps (c : ℕ) (name : CString) : Prop :=
  ∃ entry m', EntryLaunch files name c (space c) [.storeEntry c entry, .jump c entry] m'

/-- The programs that the cores start when the boot core has left `kernel_main` so. A core that is there for
`entry_launch` asks for its own program; one that waits for another core goes where that has stored its entry point. -/
inductive Starts (r : Launches × Leave) : ℕ → CString → Prop
  | launched (i : ℕ) (name : CString) : i ∈ r.1.launched → parsed.programs i = some name →
      Jumps files space i name → Starts r i name
  | own (name : CString) : r.2 = .entryLaunch → parsed.programs coreId = some name →
      Jumps files space coreId name → Starts r coreId name
  | joined (y entry : ℕ) (name : CString) (events : List Event) (m' : Machine A) : r.2 = .join y →
      y ∈ r.1.launched → parsed.programs y = some name → EntryLaunch files name y (space y) events m' →
      .storeEntry y entry ∈ events → entry ≠ 0 → Starts r coreId name

/-- Every core is looked at, every core but the boot core is launched once and starts its own program from its file,
and the boot core starts no other program than its own. -/
structure LaunchedOnce (r : Launches × Leave) : Prop where
  visited : r.1.visited = List.range parsed.requiredCores
  launched : ∀ i < parsed.requiredCores, Launchable parsed coreId i →
    r.1.launched.count i = 1 ∧ ∃ name, Starts parsed files space coreId r i name
  others : ∀ c name, Starts parsed files space coreId r c name →
    c = coreId ∨ c < parsed.requiredCores ∧ Launchable parsed coreId c
  own : ∀ c name, Starts parsed files space coreId r c name → parsed.programs c = some name
  loaded : ∀ c name, c ∈ r.1.launched ∨ c = coreId ∧ r.2 = .entryLaunch → parsed.programs c = some name →
    OnlyLoaded files name c (space c)
  program : ∀ k, r.2 ≠ .noProgram k

end Starts

section Condition

variable {A : Type} [FrameSource A]

/-- The file is there and is an executable with its segments in the address space, and the space of core `c` has room
for them, for the allocations of `init_protocol` and for the stack. -/
def Startable (files : List File) (name : CString) (c : ℕ) (m : Machine A) : Prop :=
  ∃ M m₁ m₂ m₃, getFile files name = some M ∧ Accepted M ∧ 58 ≤ M.size ∧
    AllOk M.clear m M.clear.programsCount ∧ machineAt M.clear m M.clear.programsCount = some m₁ ∧
    InitProtocol m₁ m₂ ∧ kmmap (0x10000 + 0x3000 * c) 0x2000 7 m₂ = .ok m₃ ∧
    ∀ i < M.clear.programsCount, M.clear.value (M.clear.program i) 4 = elfProgramHeaderLoad →
      InAddressSpace (M.clear.value (M.clear.program i + 16) 8) (M.clear.value (M.clear.program i + 40) 8)

/-- The boot core has a program that no core from 1 on has. -/
def AloneWith (parsed : Init) (coreId : ℕ) (name : CString) : Prop :=
  parsed.programs coreId = some name ∧ name ≠ hang ∧
    ∀ y, 1 ≤ y → y < parsed.requiredCores → parsed.programs y ≠ some name

/-- No two cores to be launched have one program, the messages fit, the boot core has a program, and the files of the
programs can be started. -/
structure LaunchesAll (parsed : Init) (files : List File) (space : ℕ → Machine A) (entryLaunch coreId : ℕ) : Prop where
  apart : ∀ i < parsed.requiredCores, Launchable parsed coreId i → ¬ Shared parsed i
  names : ∀ i < parsed.requiredCores, LaunchFits parsed i
  program : coreId < maxCore ∧ (parsed.programs coreId).isSome = true
  ownName : OwnFits parsed entryLaunch coreId
  startable : ∀ i < parsed.requiredCores, Launchable parsed coreId i → ∀ name, parsed.programs i = some name →
    Startable files name i (space i)
  ownFile : ∀ name, AloneWith parsed coreId name →
    (getFile files name = none → translate (space coreId).mem (space coreId).cr3 nullBegin = none) ∧
      ∀ M, getFile files name = some M → Enterable M (space coreId)

end Condition

section Jump

variable {A : Type} [FrameSource A] {files : List File} {name : CString} {c : ℕ} {space : ℕ → Machine A}

theorem startable_of_jumps (hwf : WellFormed (space c).mem (space c).root) (hfresh : Fresh (space c))
    (hpresent : Present (space c)) (hloaded : OnlyLoaded files name c (space c)) (h : Jumps files space c name) :
    Startable files name c (space c) := by
  obtain ⟨entry, m₃, hlaunch⟩ := h
  cases hlaunch with
  | entered m₂ _ _ hstored hstack =>
    obtain ⟨N, hN, hacc, -⟩ := hloaded.loaded _ _ hstored (List.cons_ne_nil _ _)
    cases hstored with
    | stored M m₁ _ _ hM hmap hinit =>
      obtain rfl := Option.some.inj (hM.symm.trans hN)
      rcases enterable_of_onlyLoaded hwf hfresh hpresent hloaded hM with ⟨-, hrej, -⟩ | ⟨-, hsize, hall, hspace⟩
      · cases hrej.symm.trans hacc
      · have hends := mapElf64_accepted hacc hsize (space c)
        rw [hmap] at hends
        exact ⟨M, m₁, m₂, m₃, hM, hacc, hsize, hall, hends.1, hinit, hstack, hspace ⟨m₁, m₂, hends.1, hinit⟩⟩

theorem Startable.onlyLoaded (hwf : WellFormed (space c).mem (space c).root) (hfresh : Fresh (space c))
    (hpresent : Present (space c)) (h : Startable files name c (space c)) : OnlyLoaded files name c (space c) := by
  obtain ⟨M, m₁, m₂, m₃, hM, hacc, hsize, hall, hat, hinit, hstack, hspace⟩ := h
  refine onlyLoaded_of_enterable hwf hfresh hpresent (fun hnone => ?_) fun N hN => ?_
  · cases hM.symm.trans hnone
  · obtain rfl := Option.some.inj (hM.symm.trans hN)
    exact .inr ⟨hacc, hsize, hall, fun _ => hspace⟩

theorem Startable.jumps (h : Startable files name c (space c)) : Jumps files space c name := by
  obtain ⟨M, m₁, m₂, m₃, hM, hacc, hsize, hall, hat, hinit, hstack, -⟩ := h
  have hin : 24 + 8 ≤ M.clear.size := Nat.le_trans (by decide) hsize
  have hread := read_base (ρ := Empty) M.clear 24 8
  rw [if_pos hin] at hread
  exact ⟨_, m₃, .entered m₂ m₃ _ (.stored M m₁ m₂ _ hM (mapElf64_next hacc hsize hall hat) hinit hread) hstack⟩

end Jump

section Main

variable {A : Type} [FrameSource A] {parsed : Init} {files : List File} {space : ℕ → Machine A}
  {entryLaunch coreId coreNumber c i : ℕ} {l : Leave}

theorem mem_launchesTo {n : ℕ} : i ∈ (launchesTo parsed coreId n).launched ↔ i < n ∧ Launchable parsed coreId i := by
  simp [launchesTo]

theorem count_launchesTo {n : ℕ} (hi : i < n) (hl : Launchable parsed coreId i) :
    (launchesTo parsed coreId n).launched.count i = 1 :=
  List.count_eq_one_of_mem (List.nodup_range.filter _) (mem_launchesTo.mpr ⟨hi, hl⟩)

theorem AloneWith.leaves {name : CString} (halone : AloneWith parsed coreId name)
    (hleave : LeavesOwn parsed entryLaunch coreId l) (hprogram : ∀ k, l ≠ .noProgram k) : l = .entryLaunch := by
  obtain ⟨hname, hne, hother⟩ := halone
  cases hleave with
  | noProgram hno => exact absurd rfl (hprogram coreId)
  | halt _ hp => exact absurd (Option.some.inj (hname.symm.trans hp)) hne
  | entryLaunch => rfl
  | join p y _ hp _ h1 h2 hy => exact absurd (hy.trans (hp.symm.trans hname)) (hother y h1 h2)

theorem AloneWith.of_leaves {name : CString} (hleave : LeavesOwn parsed entryLaunch coreId .entryLaunch)
    (hname : parsed.programs coreId = some name) : AloneWith parsed coreId name := by
  cases hleave with
  | entryLaunch p _ hp hne hother =>
    obtain rfl := Option.some.inj (hp.symm.trans hname)
    exact ⟨hp, hne, hother⟩

/-- When the boot core comes to its own program with all the others launched, the rest depends on their files. -/
theorem launchedOnce_iff (hleave : LeavesOwn parsed entryLaunch coreId l)
    (hall : ∀ i < parsed.requiredCores, (parsed.programs i).isSome = true)
    (hwf : ∀ c, WellFormed (space c).mem (space c).root) (hfresh : ∀ c, Fresh (space c))
    (hpresent : ∀ c, Present (space c)) :
    LaunchedOnce parsed files space coreId (launchesTo parsed coreId parsed.requiredCores, l) ↔
      (coreId < maxCore ∧ (parsed.programs coreId).isSome = true) ∧
      (∀ i < parsed.requiredCores, Launchable parsed coreId i → ∀ name, parsed.programs i = some name →
        Startable files name i (space i)) ∧
      ∀ name, AloneWith parsed coreId name →
        (getFile files name = none → translate (space coreId).mem (space coreId).cr3 nullBegin = none) ∧
          ∀ M, getFile files name = some M → Enterable M (space coreId) := by
  constructor
  · intro h
    refine ⟨hleave.program_iff.mp h.program, fun i hi hl name hname => ?_, fun name halone => ?_⟩
    · have hloaded := h.loaded i name (.inl (mem_launchesTo.mpr ⟨hi, hl⟩)) hname
      obtain ⟨name', hstarts⟩ := (h.launched i hi hl).2
      cases hstarts with
      | launched _ _ _ hname' hjumps =>
        obtain rfl := Option.some.inj (hname.symm.trans hname')
        exact startable_of_jumps (hwf i) (hfresh i) (hpresent i) hloaded hjumps
      | own => exact absurd rfl hl.1
      | joined => exact absurd rfl hl.1
    · have hlast : l = .entryLaunch := halone.leaves hleave h.program
      have hloaded := h.loaded coreId name (.inr ⟨rfl, hlast⟩) halone.1
      refine ⟨fun hno => ?_, fun M hM => enterable_of_onlyLoaded (hwf _) (hfresh _) (hpresent _) hloaded hM⟩
      by_contra hpage
      exact hloaded.defined (.noFile hno hpage)
  · rintro ⟨hprogram, hfiles, hownFile⟩
    refine ⟨rfl, fun i hi hl => ?_, fun c name hstarts => ?_, fun c name hstarts => ?_, fun c name hruns hname => ?_,
      hleave.program_iff.mpr hprogram⟩
    · obtain ⟨name, hname⟩ := Option.isSome_iff_exists.mp (hall i hi)
      exact ⟨count_launchesTo hi hl, name,
        .launched i name (mem_launchesTo.mpr ⟨hi, hl⟩) hname (hfiles i hi hl name hname).jumps⟩
    · cases hstarts with
      | launched _ _ hmem => exact .inr (mem_launchesTo.mp hmem)
      | own => exact .inl rfl
      | joined => exact .inl rfl
    · cases hstarts with
      | launched _ _ _ hname => exact hname
      | own _ _ hname => exact hname
      | joined y entry _ events m' hjoin _ hname =>
        cases hjoin
        cases hleave with
        | join p _ _ hp _ _ _ hy => exact hp.trans (hy.symm.trans hname)
    · rcases hruns with hmem | ⟨rfl, hlast⟩
      · obtain ⟨hi, hl⟩ := mem_launchesTo.mp hmem
        exact (hfiles c hi hl name hname).onlyLoaded (hwf c) (hfresh c) (hpresent c)
      · cases hlast
        obtain ⟨hnone, hsome⟩ := hownFile name (.of_leaves hleave hname)
        exact onlyLoaded_of_enterable (hwf c) (hfresh c) (hpresent c) hnone hsome

end Main

section Sample

def server : CString := ⟨"server".toList, by decide⟩

/-- A table that gives these programs to the cores from 0 on. -/
def initOf (programs : List CString) : Init := ⟨programs.length, fun i => programs[i]?⟩

def sampleFiles : List File := [⟨editor, userModule⟩, ⟨server, userModule⟩]

/-- After the segment of `userModule`, and after the first and the second allocation of `init_protocol` behind it. -/
def loadedMachine : Machine (List ℕ) :=
  (machineAt userModule.clear coreMachine userModule.clear.programsCount).getD coreMachine
def userCopyMachine : Machine (List ℕ) := (kmmap 0x2000 capabilitiesSize 5 loadedMachine).toOption.getD loadedMachine
def userProtocolMachine : Machine (List ℕ) := (kmmap 0x4000 protocolSize 5 userCopyMachine).toOption.getD userCopyMachine

theorem userModule_startable : Startable sampleFiles server 1 coreMachine := by
  have hat : machineAt userModule.clear coreMachine userModule.clear.programsCount = some loadedMachine := by
    have hsome : (machineAt userModule.clear coreMachine userModule.clear.programsCount).isSome = true := by
      decide +kernel
    obtain ⟨m₁, hm₁⟩ := Option.isSome_iff_exists.mp hsome
    rw [loadedMachine, hm₁, Option.getD_some]
  obtain ⟨calls, hcalls, hbits, -⟩ := machineAt_run coreMachine_wellFormed coreMachine_fresh hat
  obtain ⟨hwf, hfresh⟩ := run_tables coreMachine_wellFormed coreMachine_fresh hcalls
  have hpresent := coreMachine_present.run coreMachine_wellFormed coreMachine_fresh hcalls hbits
  have hcopy : kmmap 0x2000 capabilitiesSize 5 loadedMachine = .ok userCopyMachine := ok_of_isOk (by decide +kernel) _
  have hprotocol : kmmap 0x4000 protocolSize 5 userCopyMachine = .ok userProtocolMachine :=
    ok_of_isOk (by decide +kernel) _
  obtain ⟨hwf', -⟩ := kmmap_grows hwf hfresh ⟨by decide, by decide⟩ (by decide) hcopy
  have hfirst : SpaceAlloc loadedMachine capabilitiesSize protocolFlags 0x2000 userCopyMachine :=
    spaceAlloc_of_firstRun hwf (by decide +kernel) (by decide) (c := 1)
      (by unfold FreeRuns.FirstRun FreeRuns.RunEnds; decide +kernel) (by decide) (by decide) hcopy
  have hsecond : SpaceAlloc userCopyMachine protocolSize protocolFlags 0x4000 userProtocolMachine :=
    spaceAlloc_of_firstRun hwf' (by decide +kernel) (by decide) (c := 3)
      (by unfold FreeRuns.FirstRun FreeRuns.RunEnds; decide +kernel) (by decide) (by decide) hprotocol
  have hinit := initProtocol_of_allocs hwf hfresh hpresent hfirst hsecond (by decide) (by decide) (by decide) (by decide)
  have hstack : kmmap (0x10000 + 0x3000 * 1) 0x2000 7 userProtocolMachine =
      .ok ((kmmap (0x10000 + 0x3000 * 1) 0x2000 7 userProtocolMachine).toOption.getD userProtocolMachine) :=
    ok_of_isOk (by decide +kernel) _
  exact ⟨userModule, loadedMachine, userProtocolMachine, _, rfl, userModule_accepted, by decide +kernel,
    userModule_allOk, hat, hinit, hstack, fun i hi _ => userModule_inAddressSpace i hi⟩

end Sample

end Raccoon.Launch
