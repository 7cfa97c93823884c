import Raccoon.ElfLoader
import Raccoon.Access
import Raccoon.KernelMain

/-!
`entry_launch`, and the cores that wait for the entry point it stores. What
`map_elf_64` has found out about the module does not come back to its caller.
-/

namespace Raccoon.Launch

open TableTree Loops Outcome Mmu Runs ElfLoader KernelMain

structure File where
  name : CString
  module : Module

/-- `my_strcmp` of `initfs.c`: whether the strings differ. -/
def myStrcmp : List Char → List Char → Bool
  | a :: as, b :: bs => if a ≠ b then true else myStrcmp as bs
  | [], [] => false
  | _, _ => true

def getFile (files : List File) (name : CString) : Option Module :=
  (files.find? fun f => !myStrcmp f.name.chars name.chars).map File.module

/-- Where `f->begin` is read if there is no such file. -/
def nullBegin : ℕ := 128

def capabilitiesSize : ℕ := 64 * 32
def protocolSize : ℕ := 40

/-- `MAP_PRESENT | MAP_USER` -/
def protocolFlags : ℕ := 1 ||| 4

inductive Event where
  | storeEntry (core entry : ℕ)
  | jump (core entry : ℕ)
deriving DecidableEq

section Code

variable {A : Type} [FrameSource A]

/-- The hardware reaches all `n` bytes at `a`. -/
def Reachable (m : Machine A) (a n : ℕ) : Prop := ∀ i < n, translate m.mem m.cr3 (wadd a i) ≠ none

/-- `init_protocol` returns. The contents of the two allocations are not followed. -/
def InitProtocol (m m' : Machine A) : Prop :=
  ∃ copy m₁ protocol, SpaceAlloc m capabilitiesSize protocolFlags copy m₁ ∧
    SpaceAlloc m₁ protocolSize protocolFlags protocol m' ∧ copy ≠ 0 ∧ protocol ≠ 0 ∧
    Reachable m' copy capabilitiesSize ∧ Reachable m' protocol protocolSize

variable (files : List File) (name : CString) (c : ℕ)

/-- `entry_launch` on core `c`, up to some point: what it has done by then that other cores or the program see. -/
inductive EntryLaunch (m : Machine A) : List Event → Machine A → Prop
  | quiet : EntryLaunch m [] m
  | stored (M : Module) (m₁ m₂ : Machine A) (entry : ℕ) : getFile files name = some M →
      (mapElf64 M m : Outcome Trap Empty (Machine A)) = .next m₁ → InitProtocol m₁ m₂ →
      (read M.clear (M.base + 24) 8 : Outcome Trap Empty ℕ) = .next entry →
      EntryLaunch m [.storeEntry c entry] m₂
  | entered (m₂ m₃ : Machine A) (entry : ℕ) : EntryLaunch m [.storeEntry c entry] m₂ →
      kmmap (0x10000 + 0x3000 * c) 0x2000 7 m₂ = .ok m₃ →
      EntryLaunch m [.storeEntry c entry, .jump c entry] m₃

/-- A run of `entry_launch` that takes what it finds at address 0 for a file, or leaves the module or the pages
of its segments. -/
inductive Undefined (m : Machine A) : Prop
  | noFile : getFile files name = none → translate m.mem m.cr3 nullBegin ≠ none → Undefined m
  | loader (M : Module) (e : Trap) : getFile files name = some M →
      (mapElf64 M m : Outcome Trap Empty (Machine A)) = .fail e → e.Bad → Undefined m
  | header (M : Module) (m₁ m₂ : Machine A) (e : Trap) : getFile files name = some M →
      (mapElf64 M m : Outcome Trap Empty (Machine A)) = .next m₁ → InitProtocol m₁ m₂ →
      (read M.clear (M.base + 24) 8 : Outcome Trap Empty ℕ) = .fail e → Undefined m

end Code

section Claim

variable {A : Type} [FrameSource A]

/-- `check_elf` returns 1. -/
def Accepted (M : Module) : Prop := (checkElf M.clear : Outcome Trap Empty Bool) = .next true

/-- Every byte of every segment to be loaded is mapped. -/
def Loaded (M : Module) (m : Machine A) : Prop :=
  ∀ i < M.programsCount, M.value (M.program i) 4 = elfProgramHeaderLoad →
    ∀ x < M.value (M.program i + 40) 8, translate m.mem m.cr3 (M.value (M.program i + 16) 8 + x) ≠ none

/-- An entry point is stored or jumped to only if there is a file, `check_elf` accepted it and its segments are
mapped. -/
structure OnlyLoaded (files : List File) (name : CString) (c : ℕ) (m : Machine A) : Prop where
  defined : ¬ Undefined files name m
  loaded : ∀ events m', EntryLaunch files name c m events m' → events ≠ [] →
    ∃ M, getFile files name = some M ∧ Accepted M ∧ Loaded M.clear m'

/-- The addresses from `a` on that are in a half of the address space. -/
def InAddressSpace (a n : ℕ) : Prop := n = 0 ∨ a + n ≤ 2 ^ 47 ∨ (2 ^ 64 - 2 ^ 47 ≤ a ∧ a + n ≤ 2 ^ 64)

/-- The module is accepted, can be loaded without harm, and has all its segments in the address space. For the
other modules, something else has to keep the run from its end. -/
def Enterable (M : Module) (m : Machine A) : Prop :=
  (5 < M.size ∧ (checkElf M.clear : Outcome Trap Empty Bool) = .next false ∧ ¬ ∃ m', InitProtocol m m') ∨
    (Accepted M ∧ 58 ≤ M.size ∧ AllOk M.clear m M.clear.programsCount ∧
      ((∃ m₁ m₂, machineAt M.clear m M.clear.programsCount = some m₁ ∧ InitProtocol m₁ m₂) →
        ∀ i < M.clear.programsCount, M.clear.value (M.clear.program i) 4 = elfProgramHeaderLoad →
          InAddressSpace (M.clear.value (M.clear.program i + 16) 8) (M.clear.value (M.clear.program i + 40) 8)))

end Claim

section Segments

variable {A : Type} [FrameSource A] {M : Module} {m m₁ m₂ m' : Machine A} {calls : List MapCall} {n : ℕ}

theorem canonical_iff {a : ℕ} (ha : a < 2 ^ 64) :
    (∀ x < n, canonical (a + x) = true) ↔ InAddressSpace a n := by
  simp only [canonical, Bool.or_eq_true, Bool.and_eq_true, decide_eq_true_eq, InAddressSpace]
  constructor
  · intro h
    by_cases hz : n = 0
    · exact .inl hz
    · have hfirst := h 0 (by omega)
      have hlast := h (n - 1) (by omega)
      by_cases hlow : a + n ≤ 2 ^ 47
      · exact .inr (.inl hlow)
      · by_cases hhigh : 2 ^ 64 - 2 ^ 47 ≤ a
        · exact .inr (.inr ⟨hhigh, by omega⟩)
        · have hmiddle := h (2 ^ 47 - a) (by omega)
          omega
  · intro h x hx
    omega

/-- The calls of `kmmap` for the segments, and the pages they have given entries to. -/
theorem machineAt_run (hwf : WellFormed m.mem m.root) (hfresh : Fresh m) (hat : machineAt M m n = some m') :
    ∃ calls, Run MapStep m calls m' ∧ (∀ c ∈ calls, c.archFlags.testBit 0 = true) ∧
      ∀ i < n, M.value (M.program i) 4 = elfProgramHeaderLoad →
        ∀ P, Meets (M.value (M.program i + 16) 8) (M.value (M.program i + 40) 8) P → P < 2 ^ 36 → Used m' P := by
  induction n generalizing m' with
  | zero =>
    cases hat
    exact ⟨[], .nil, by simp, fun i hi => absurd hi (Nat.not_lt_zero i)⟩
  | succ n ih =>
    obtain ⟨m₁, hat₁, hmapped⟩ := Option.bind_eq_some_iff.mp hat
    obtain ⟨calls, hcalls, hbits, hused⟩ := ih hat₁
    rw [mapped] at hmapped
    by_cases hload : M.value (M.program n) 4 = elfProgramHeaderLoad
    · rw [if_pos hload] at hmapped
      have hrun : kmmap (M.value (M.program n + 16) 8) (M.value (M.program n + 40) 8) 7 m₁ = .ok m' := by
        cases hr : kmmap (M.value (M.program n + 16) 8) (M.value (M.program n + 40) 8) 7 m₁ with
        | error e =>
          rw [hr] at hmapped
          cases hmapped
        | ok m₃ =>
          rw [hr] at hmapped
          cases hmapped
          rfl
      have hflags : EntryFlags 7 := ⟨by decide, by decide⟩
      obtain ⟨hwf₁, hfresh₁⟩ := run_tables hwf hfresh hcalls
      obtain ⟨hwf', -, he, hnew⟩ := kmmap_grows hwf₁ hfresh₁ hflags (value_lt M _ 8) hrun
      have hbit : (7 : ℕ).testBit 0 = true := by decide
      refine ⟨_, .snoc _ _ _ _ hcalls (.kmmap (value_lt M _ 8) hflags hrun),
        List.forall_mem_append.mpr ⟨hbits, List.forall_mem_singleton.mpr hbit⟩, fun i hi hl P hP hlt => ?_⟩
      rcases Nat.lt_succ_iff_lt_or_eq.mp hi with hi | rfl
      · exact he.used hwf₁.self hwf'.self (hused i hi hl P hP hlt)
      · exact hnew P hP hlt
    · rw [if_neg hload] at hmapped
      obtain rfl := Option.some.inj hmapped
      refine ⟨calls, hcalls, hbits, fun i hi hl => ?_⟩
      rcases Nat.lt_succ_iff_lt_or_eq.mp hi with hi | rfl
      · exact hused i hi hl
      · exact absurd hl hload

/-- Every entry in use is present. -/
def Present (m : Machine A) : Prop := ∀ P < 2 ^ 36, Allows m P 0

omit [FrameSource A] in
theorem mapped_of_used {a x : ℕ} (hwf : WellFormed m.mem m.root) (hpresent : Present m) (ha : a < 2 ^ 64)
    (hspace : InAddressSpace a n) (hused : ∀ P, Meets a n P → P < 2 ^ 36 → Used m P) (hx : x < n) :
    translate m.mem m.cr3 (a + x) ≠ none := by
  have hlt : (a + x) % 2 ^ 48 / 4096 < 2 ^ 36 := by omega
  have hmeets : Meets a n ((a + x) % 2 ^ 48 / 4096) := by
    refine ⟨(a + x) % 2 ^ 48, ?_, ?_, rfl⟩
    all_goals
      unfold InAddressSpace at hspace
      omega
  exact translate_of_used hwf ((canonical_iff ha).mpr hspace x hx) (hused _ hmeets hlt) (hpresent _ hlt)

theorem Present.run (h : Present m) (hwf : WellFormed m.mem m.root) (hfresh : Fresh m) (hcalls : Run MapStep m calls m')
    (hbits : ∀ c ∈ calls, c.archFlags.testBit 0 = true) : Present m' :=
  fun P hP => run_allows hwf hfresh hcalls hbits (h P hP)

/-- When the loop over the headers and some more calls have returned, the segments are mapped exactly if they are
in the address space. -/
theorem loaded_iff (hwf : WellFormed m.mem m.root) (hfresh : Fresh m) (hpresent : Present m)
    (hat : machineAt M m M.programsCount = some m₁) (hcalls : Run MapStep m₁ calls m')
    (hbits : ∀ c ∈ calls, c.archFlags.testBit 0 = true) :
    Loaded M m' ↔ ∀ i < M.programsCount, M.value (M.program i) 4 = elfProgramHeaderLoad →
      InAddressSpace (M.value (M.program i + 16) 8) (M.value (M.program i + 40) 8) := by
  obtain ⟨calls₁, hcalls₁, hbits₁, hused⟩ := machineAt_run hwf hfresh hat
  obtain ⟨hwf₁, hfresh₁⟩ := run_tables hwf hfresh hcalls₁
  obtain ⟨hwf', -⟩ := run_tables hwf₁ hfresh₁ hcalls
  have hpresent' := (hpresent.run hwf hfresh hcalls₁ hbits₁).run hwf₁ hfresh₁ hcalls hbits
  refine forall_congr' fun i => imp_congr_right fun hi => imp_congr_right fun hload => ?_
  have hva : M.value (M.program i + 16) 8 < 2 ^ 64 := value_lt M (M.program i + 16) 8
  constructor
  · intro h
    exact (canonical_iff hva).mp fun x hx => canonical_of_translate (h x hx)
  · intro hspace x hx
    exact mapped_of_used hwf' hpresent' hva hspace
      (fun P hP hlt => run_used hwf₁ hfresh₁ hcalls (hused i hi hload P hP hlt)) hx

end Segments

section Run

variable {A : Type} [FrameSource A] {M : Module} {m m₁ m₂ m' : Machine A}

theorem InitProtocol.run (h : InitProtocol m m') :
    ∃ calls, Run MapStep m calls m' ∧ ∀ c ∈ calls, c.archFlags.testBit 0 = true := by
  obtain ⟨copy, m₁, protocol, hcopy, hprotocol, -⟩ := h
  have hfirst : Run MapStep m [.spaceAlloc capabilitiesSize protocolFlags] m₁ :=
    .snoc [] _ _ _ .nil (.spaceAlloc (by decide) hcopy)
  refine ⟨_, .snoc _ _ _ _ hfirst (.spaceAlloc (by decide) hprotocol), fun c hc => ?_⟩
  simp only [List.cons_append, List.nil_append, List.mem_cons, List.not_mem_nil, or_false] at hc
  rcases hc with rfl | rfl
  · exact (by decide : (convertToArchFlags protocolFlags).testBit 0 = true)
  · exact (by decide : (convertToArchFlags protocolFlags).testBit 0 = true)

theorem read_ends (M : Module) (a n : ℕ) :
    (read M a n : Outcome Trap Empty ℕ).Ends Trap.Bad (fun _ => False) fun _ => True := by
  rw [ElfLoader.read]
  split
  · trivial
  · trivial

theorem checkMagics_ends (M : Module) (cs : List ℕ) (i : ℕ) :
    (checkMagics M cs i : Outcome Trap Empty Bool).Ends Trap.Bad (fun _ => False) fun _ => True := by
  induction cs generalizing i with
  | nil => trivial
  | cons c cs ih =>
    rw [checkMagics]
    refine (read_ends M _ 1).bind fun b _ => ?_
    split
    · trivial
    · exact ih (i + 1)

theorem checkElf_ends (M : Module) :
    (checkElf M : Outcome Trap Empty Bool).Ends Trap.Bad (fun _ => False) fun _ => True := by
  rw [checkElf]
  refine (checkMagics_ends M _ 0).bind fun magics _ => ?_
  split
  · trivial
  · refine (read_ends M _ 1).bind fun elfClass _ => ?_
    split
    · trivial
    · exact (read_ends M _ 2).bind fun _ _ => trivial

/-- `map_elf_64` on an accepted module. -/
theorem mapElf64_accepted (hacc : Accepted M) (hsize : 58 ≤ M.size) (m : Machine A) :
    (mapElf64 M m : Outcome Trap Empty (Machine A)).Ends
      (fun e => (e.Bad ∧ ¬ AllOk M.clear m M.clear.programsCount) ∨
        (¬ e.Bad ∧ AllOk M.clear m M.clear.programsCount ∧ machineAt M.clear m M.clear.programsCount = none))
      (fun _ => False)
      (fun m' => machineAt M.clear m M.clear.programsCount = some m' ∧ AllOk M.clear m M.clear.programsCount) := by
  have hclear : 58 ≤ M.clear.size := hsize
  rw [mapElf64, if_pos (by omega), mapElf, hacc, next_bind, if_neg (by decide), read_base, if_pos hclear,
    next_bind]
  exact programs_ends hclear m M.clear.programsCount

/-- A module that is not accepted comes back from `map_elf_64` as it went in. -/
theorem mapElf64_rejected (hsize : 5 < M.size) (hrej : (checkElf M.clear : Outcome Trap Empty Bool) = .next false)
    (m : Machine A) : (mapElf64 M m : Outcome Trap Empty (Machine A)) = .next m := by
  rw [mapElf64, if_pos hsize, mapElf, hrej, next_bind, if_pos (by decide)]

theorem EntryLaunch.past {files : List File} {name : CString} {c : ℕ} {events : List Event}
    (h : EntryLaunch files name c m events m') (hne : events ≠ []) :
    ∃ M m₁, getFile files name = some M ∧ (mapElf64 M m : Outcome Trap Empty (Machine A)) = .next m₁ ∧
      (∃ m₂, InitProtocol m₁ m₂) ∧ ∃ calls, Run MapStep m₁ calls m' ∧ ∀ c ∈ calls, c.archFlags.testBit 0 = true := by
  induction h with
  | quiet => exact absurd rfl hne
  | stored M m₁ m₂ entry hM hmap hinit =>
    exact ⟨M, m₁, hM, hmap, ⟨m₂, hinit⟩, hinit.run⟩
  | entered m₂ m₃ entry _ hstack ih =>
    obtain ⟨M, m₁, hM, hmap, hinit, calls, hcalls, hbits⟩ := ih (by simp)
    have hbit : (7 : ℕ).testBit 0 = true := by decide
    exact ⟨M, m₁, hM, hmap, hinit, _, .snoc _ _ _ _ hcalls (.kmmap (by decide) ⟨by decide, by decide⟩ hstack),
      List.forall_mem_append.mpr ⟨hbits, List.forall_mem_singleton.mpr hbit⟩⟩

end Run

section Main

variable {A : Type} [FrameSource A] {files : List File} {name : CString} {c : ℕ} {M : Module} {m : Machine A}

theorem onlyLoaded_of_enterable (hwf : WellFormed m.mem m.root) (hfresh : Fresh m) (hpresent : Present m)
    (hnone : getFile files name = none → translate m.mem m.cr3 nullBegin = none)
    (hsome : ∀ M, getFile files name = some M → Enterable M m) : OnlyLoaded files name c m := by
  constructor
  · rintro (⟨hno, hpage⟩ | ⟨M, e, hM, hmap, hbad⟩ | ⟨M, m₁, m₂, e, hM, hmap, hinit, hread⟩)
    · exact hpage (hnone hno)
    · rcases hsome M hM with ⟨hsize, hrej, -⟩ | ⟨hacc, hsize, hall, -⟩
      · rw [mapElf64_rejected hsize hrej] at hmap
        cases hmap
      · have hends := mapElf64_accepted hacc hsize m
        rw [hmap] at hends
        rcases hends with ⟨-, hno⟩ | ⟨hgood, -⟩
        · exact hno hall
        · exact hgood hbad
    · rcases hsome M hM with ⟨hsize, hrej, hblocked⟩ | ⟨hacc, hsize, -⟩
      · rw [mapElf64_rejected hsize hrej] at hmap
        obtain rfl := Outcome.next.inj hmap
        exact hblocked ⟨m₂, hinit⟩
      · have hin : 24 + 8 ≤ M.clear.size := Nat.le_trans (by decide) hsize
        have hbase := read_base (ρ := Empty) M.clear 24 8
        rw [if_pos hin] at hbase
        cases hread.symm.trans hbase
  · intro events m' h hne
    obtain ⟨M, m₁, hM, hmap, ⟨m₂, hinit⟩, calls, hcalls, hbits⟩ := h.past hne
    rcases hsome M hM with ⟨hsize, hrej, hblocked⟩ | ⟨hacc, hsize, -, hspace⟩
    · rw [mapElf64_rejected hsize hrej] at hmap
      obtain rfl := Outcome.next.inj hmap
      exact absurd ⟨m₂, hinit⟩ hblocked
    · have hends := mapElf64_accepted hacc hsize m
      rw [hmap] at hends
      exact ⟨M, hM, hacc, (loaded_iff hwf hfresh hpresent hends.1 hcalls hbits).mpr (hspace ⟨m₁, m₂, hends.1, hinit⟩)⟩

theorem OnlyLoaded.good (h : OnlyLoaded files name c m) (hM : getFile files name = some M) {e : Trap}
    (hmap : (mapElf64 M m : Outcome Trap Empty (Machine A)) = .fail e) : ¬ e.Bad :=
  fun hbad => h.defined (.loader M e hM hmap hbad)

theorem OnlyLoaded.blocked (h : OnlyLoaded files name c m) (hM : getFile files name = some M) (hsize : 5 < M.size)
    (hrej : (checkElf M.clear : Outcome Trap Empty Bool) = .next false) : ¬ ∃ m', InitProtocol m m' := by
  rintro ⟨m', hinit⟩
  have hmap := mapElf64_rejected hsize hrej m
  cases hread : (read M.clear (M.base + 24) 8 : Outcome Trap Empty ℕ) with
  | fail e => exact h.defined (.header M m m' e hM hmap hinit hread)
  | done r => exact r.elim
  | next entry =>
    obtain ⟨N, hN, hacc, -⟩ := h.loaded _ m' (.stored M m m' entry hM hmap hinit hread) (by simp)
    obtain rfl := Option.some.inj (hM.symm.trans hN)
    rw [Accepted, hrej] at hacc
    cases hacc

theorem OnlyLoaded.headers (h : OnlyLoaded files name c m) (hM : getFile files name = some M) (hsize : 5 < M.size)
    (hacc : Accepted M) : 58 ≤ M.size ∧ AllOk M.clear m M.clear.programsCount := by
  have h58 : 58 ≤ M.size := by
    by_contra hsmall
    have hclear : ¬ 56 + 2 ≤ M.clear.size := hsmall
    refine h.good hM (e := .outOfModule) ?_ trivial
    rw [mapElf64, if_pos hsize, mapElf, hacc, next_bind, if_neg (by decide), read_base, if_neg hclear]
    rfl
  have hends := mapElf64_accepted hacc h58 m
  refine ⟨h58, ?_⟩
  cases hmap : (mapElf64 M m : Outcome Trap Empty (Machine A)) with
  | fail e =>
    rw [hmap] at hends
    exact hends.elim (fun hno => absurd hno.1 (h.good hM hmap)) fun hall => hall.2.1
  | done r => exact r.elim
  | next m₁ =>
    rw [hmap] at hends
    exact hends.2

theorem mapElf64_next {m₁ : Machine A} (hacc : Accepted M) (hsize : 58 ≤ M.size)
    (hall : AllOk M.clear m M.clear.programsCount) (hat : machineAt M.clear m M.clear.programsCount = some m₁) :
    (mapElf64 M m : Outcome Trap Empty (Machine A)) = .next m₁ := by
  have hends := mapElf64_accepted hacc hsize m
  cases hmap : (mapElf64 M m : Outcome Trap Empty (Machine A)) with
  | fail e =>
    rw [hmap, hat] at hends
    rcases hends with ⟨-, hno⟩ | ⟨-, -, hnone⟩
    · exact absurd hall hno
    · cases hnone
  | done r => exact r.elim
  | next m' =>
    rw [hmap] at hends
    exact congrArg _ (Option.some.inj (hends.1.symm.trans hat))

theorem enterable_of_onlyLoaded (hwf : WellFormed m.mem m.root) (hfresh : Fresh m) (hpresent : Present m)
    (h : OnlyLoaded files name c m) (hM : getFile files name = some M) : Enterable M m := by
  have hsize : 5 < M.size := by
    by_contra hsmall
    exact h.good hM (if_neg hsmall) trivial
  cases hcheck : (checkElf M.clear : Outcome Trap Empty Bool) with
  | fail e =>
    have hends := checkElf_ends M.clear
    rw [hcheck] at hends
    have hmap : (mapElf64 M m : Outcome Trap Empty (Machine A)) = .fail e := by
      rw [mapElf64, if_pos hsize, mapElf, hcheck]
      rfl
    exact absurd hends (h.good hM hmap)
  | done r => exact r.elim
  | next elf =>
    cases elf with
    | false => exact .inl ⟨hsize, hcheck, h.blocked hM hsize hcheck⟩
    | true =>
      obtain ⟨h58, hall⟩ := h.headers hM hsize hcheck
      refine .inr ⟨hcheck, h58, hall, ?_⟩
      rintro ⟨m₁, m₂, hat, hinit⟩
      have hin : 24 + 8 ≤ M.clear.size := Nat.le_trans (by decide) h58
      have hread := read_base (ρ := Empty) M.clear 24 8
      rw [if_pos hin] at hread
      have hstored := EntryLaunch.stored (c := c) M m₁ m₂ _ hM (mapElf64_next hcheck h58 hall hat) hinit hread
      obtain ⟨N, hN, -, hloaded⟩ := h.loaded _ m₂ hstored (by simp)
      obtain rfl := Option.some.inj (hM.symm.trans hN)
      obtain ⟨calls, hcalls, hbits⟩ := hinit.run
      exact (loaded_iff hwf hfresh hpresent hat hcalls hbits).mp hloaded

/-- `entry_launch` enters loaded programs only, exactly if it faults on a missing file, and the file is an
executable with its segments in the address space. -/
theorem only_loaded_entered_iff (hwf : WellFormed m.mem m.root) (hfresh : Fresh m) (hpresent : Present m) :
    OnlyLoaded files name c m ↔ (getFile files name = none → translate m.mem m.cr3 nullBegin = none) ∧
      ∀ M, getFile files name = some M → Enterable M m := by
  constructor
  · intro h
    refine ⟨fun hno => ?_, fun M hM => enterable_of_onlyLoaded hwf hfresh hpresent h hM⟩
    by_contra hpage
    exact h.defined (.noFile hno hpage)
  · rintro ⟨hnone, hsome⟩
    exact onlyLoaded_of_enterable hwf hfresh hpresent hnone hsome

end Main

section Cores

/-- What the cores share: the table of entry points and, for each core, the mapping that its launch has made.
A running core runs the program that some core has loaded, in the mapping of that core. -/
structure Cores (A : Type) where
  entries : ℕ → ℕ
  mapping : ℕ → Option (Machine A)
  running : ℕ → Option ℕ

inductive CoreAction (A : Type) where
  | launch (c : ℕ) (m : Machine A)
  | join (c y : ℕ)

variable {A : Type}

def Cores.apply (s : Cores A) : Event → Cores A
  | .storeEntry c entry => { s with entries := Function.update s.entries c entry }
  | .jump c _ => { s with running := Function.update s.running c (some c) }

variable [FrameSource A] (parsed : Init) (files : List File)

/-- A core that waits for the entry point of core `y` in `kernel_main` goes on when it is not zero. -/
inductive CoreStep (s : Cores A) : CoreAction A → Cores A → Prop
  | launch (c : ℕ) (m m' : Machine A) (name : CString) (events : List Event) : parsed.programs c = some name →
      EntryLaunch files name c m events m' → events ≠ [] →
      CoreStep s (.launch c m) (events.foldl Cores.apply { s with mapping := Function.update s.mapping c (some m') })
  | join (c y : ℕ) : s.entries y ≠ 0 →
      CoreStep s (.join c y) { s with running := Function.update s.running c (some y) }

/-- A step in which a launch, if it is one, meets the condition. -/
def LoadedStep (s : Cores A) (a : CoreAction A) (s' : Cores A) : Prop :=
  CoreStep parsed files s a s' ∧
    ∀ c m name, a = .launch c m → parsed.programs c = some name → OnlyLoaded files name c m

/-- Core `y` has loaded an executable. -/
def HasLoaded (s : Cores A) (y : ℕ) : Prop :=
  ∃ name M m, parsed.programs y = some name ∧ getFile files name = some M ∧ Accepted M ∧
    s.mapping y = some m ∧ Loaded M.clear m

def bootCores : Cores A := ⟨fun _ => 0, fun _ => none, fun _ => none⟩

structure CoresInv (s : Cores A) : Prop where
  entries : ∀ y, s.entries y ≠ 0 → HasLoaded parsed files s y
  running : ∀ c y, s.running c = some y → HasLoaded parsed files s y

variable {parsed files} {s s' : Cores A} {a : CoreAction A} {h : List (CoreAction A)}

theorem EntryLaunch.apply {name : CString} {c : ℕ} {events : List Event} {m m' : Machine A} (s : Cores A)
    (h : EntryLaunch files name c m events m') : (events.foldl Cores.apply s).mapping = s.mapping ∧
      (∀ y, y ≠ c → (events.foldl Cores.apply s).entries y = s.entries y) ∧
      ∀ d y, (events.foldl Cores.apply s).running d = some y → s.running d = some y ∨ y = c := by
  have hentry (entry y : ℕ) (hy : y ≠ c) : Function.update s.entries c entry y = s.entries y :=
    Function.update_of_ne hy ..
  cases h with
  | quiet => exact ⟨rfl, fun _ _ => rfl, fun _ _ h => .inl h⟩
  | stored M m₁ m₂ entry => exact ⟨rfl, hentry entry, fun _ _ h => .inl h⟩
  | entered m₂ m₃ entry =>
    refine ⟨rfl, hentry entry, fun d y hd => ?_⟩
    change Function.update s.running c (some c) d = some y at hd
    by_cases hdc : d = c
    · rw [hdc, Function.update_self] at hd
      exact .inr (Option.some.inj hd).symm
    · rw [Function.update_of_ne hdc] at hd
      exact .inl hd

theorem CoresInv.step (hs : CoresInv parsed files s) (hstep : LoadedStep parsed files s a s') :
    CoresInv parsed files s' := by
  obtain ⟨hcore, hloaded⟩ := hstep
  cases hcore with
  | launch c m m' name events hname hlaunch hne =>
    obtain ⟨M, hM, hacc, hmapped⟩ := (hloaded c m name rfl hname).loaded events m' hlaunch hne
    obtain ⟨hmapping, hentries, hrunning⟩ := hlaunch.apply { s with mapping := Function.update s.mapping c (some m') }
    have hself : HasLoaded parsed files
        (events.foldl Cores.apply { s with mapping := Function.update s.mapping c (some m') }) c :=
      ⟨name, M, m', hname, hM, hacc, by rw [hmapping]; exact Function.update_self .., hmapped⟩
    -- a launch leaves the mappings of the other cores alone
    have hother (y : ℕ) (hy : y ≠ c) (h : HasLoaded parsed files s y) : HasLoaded parsed files
        (events.foldl Cores.apply { s with mapping := Function.update s.mapping c (some m') }) y := by
      obtain ⟨name, M, m₁, hname, hM, hacc, hm, hmapped⟩ := h
      refine ⟨name, M, m₁, hname, hM, hacc, ?_, hmapped⟩
      rw [hmapping]
      exact (Function.update_of_ne hy ..).trans hm
    constructor
    · intro y hy
      by_cases hyc : y = c
      · exact hyc ▸ hself
      · rw [hentries y hyc] at hy
        exact hother y hyc (hs.entries y hy)
    · intro d y hd
      by_cases hyc : y = c
      · exact hyc ▸ hself
      · exact hother y hyc (hs.running d y ((hrunning d y hd).resolve_right hyc))
  | join c y hy =>
    refine ⟨hs.entries, fun d z hd => ?_⟩
    change Function.update s.running c (some y) d = some z at hd
    by_cases hdc : d = c
    · rw [hdc, Function.update_self] at hd
      exact Option.some.inj hd ▸ hs.entries y hy
    · rw [Function.update_of_ne hdc] at hd
      exact hs.running d z hd

/-- Where every launch meets the condition, no core ever runs a program that is not loaded, whether it has
launched it or has waited for another core to do so. -/
theorem running_loaded (hrun : Run (LoadedStep parsed files) bootCores h s) {c y : ℕ} (hc : s.running c = some y) :
    HasLoaded parsed files s y := by
  have hinv := hrun.invariant (fun _ s => CoresInv parsed files s) ⟨fun y hy => absurd rfl hy, fun c y hc => by cases hc⟩
    fun _ _ _ _ hi hstep => hi.step hstep
  exact hinv.running c y hc

end Cores

section Blank

/-- A new page directory with frames for a whole launch. -/
def coreMachine : Machine (List ℕ) :=
  { blankMachine with frames := [0x2000, 0x3000, 0x4000, 0x5000, 0x6000, 0x7000, 0x8000, 0x9000] }

theorem coreMachine_wellFormed : WellFormed coreMachine.mem coreMachine.root := blankMachine_tables.1

theorem coreMachine_fresh : Fresh coreMachine := fresh_of_blank 8 (by decide)

theorem coreMachine_present : Present coreMachine := by
  refine fun P hP => ⟨hP, fun q i hq hne => ?_⟩
  obtain ⟨hlen, hidx, hi⟩ := walk_index hq
  have hself := coreMachine_wellFormed.self
  rw [← pathEntry_treePath hself] at hne ⊢
  have hlive : Live pageTables coreMachine.mem coreMachine.root (treePath q) := by
    by_contra hdead
    exact hne (if_neg hdead)
  have hroot : treePath q = [] := by
    refine live_blank (fun j _ hj => if_neg ?_) (treePath_proper hlen hidx) hlive
    have hframe : coreMachine.root = 1 := by decide
    rw [hframe]
    unfold recursiveMappingEntry at hj
    omega
  rw [hroot, pathEntry, if_pos live_nil, follow_nil] at hne ⊢
  have he : coreMachine.mem (4096 * coreMachine.root + 8 * i) = 0x1003 := by
    by_contra hother
    exact hne (if_neg fun hx => hother (if_pos hx))
  rw [he]
  decide

def editor : CString := ⟨"editor".toList, by decide⟩

def editorFile (M : Module) : List File := [⟨editor, M⟩]

theorem userModule_accepted : Accepted userModule :=
  (checkElf_eq (clear_elf ⟨by decide +kernel, by decide +kernel, by decide +kernel⟩)).trans (if_pos (by decide +kernel))

theorem userModule_allOk : AllOk userModule.clear coreMachine userModule.clear.programsCount := by
  have hcount : userModule.clear.programsCount = 1 := by decide +kernel
  intro i hi m' _
  obtain rfl : i = 0 := by omega
  exact ⟨by decide +kernel, fun _ => by decide +kernel, fun _ _ _ => ⟨by decide +kernel, by decide +kernel,
    by decide +kernel, .inl (by decide +kernel)⟩⟩

theorem userModule_inAddressSpace (i : ℕ) (hi : i < userModule.clear.programsCount) :
    InAddressSpace (userModule.clear.value (userModule.clear.program i + 16) 8)
      (userModule.clear.value (userModule.clear.program i + 40) 8) := by
  have hcount : userModule.clear.programsCount = 1 := by decide +kernel
  obtain rfl : i = 0 := by omega
  exact .inr (.inl (by decide +kernel))

theorem userModule_enterable : Enterable userModule coreMachine :=
  .inr ⟨userModule_accepted, by decide +kernel, userModule_allOk, fun _ i hi _ => userModule_inAddressSpace i hi⟩

theorem only_loaded_entered_user : OnlyLoaded (editorFile userModule) editor 1 coreMachine := by
  refine (only_loaded_entered_iff coreMachine_wellFormed coreMachine_fresh coreMachine_present).mpr
    ⟨fun hnone => ?_, fun M hM => ?_⟩
  · cases hnone
  · obtain rfl : userModule = M := Option.some.inj hM
    exact userModule_enterable

/-- A file that is no executable. -/
def textModule : Module := moduleOf (List.replicate 64 0x41) (by decide)

section Protocol

variable {A : Type} [FrameSource A] {m m₁ m₂ m' : Machine A} {size a b c : ℕ}

/-- An allocation of one page where a table for the first pages is there. -/
theorem spaceAlloc_of_firstRun (hwf : WellFormed m.mem m.root)
    (hlive : Live pageTables m.mem m.root (Level.plm1.path 0x1000)) (hpages : pageNum size = 1)
    (hfirst : FreeRuns.FirstRun (fun i => around m 0x1000 i = 0) 1 c) (ha : lookBack 0x1000 size c = a) (hne : a ≠ 0)
    (hrun : kmmap a size 5 m = .ok m') : SpaceAlloc m size protocolFlags a m' := by
  have hbase : craftAddr 0 0 0 1 0 = 0x1000 := by decide
  refine ⟨?_, by rw [if_neg hne]; exact hrun⟩
  rw [hbase]
  exact (searchAvailable_iff hwf).mpr (.inr ⟨hlive, c, hpages ▸ hfirst, ha.symm⟩)

/-- The two allocations of `init_protocol`, with what they give in the lower half. -/
theorem initProtocol_of_allocs (hwf : WellFormed m.mem m.root) (hfresh : Fresh m) (hpresent : Present m)
    (hcopy : SpaceAlloc m capabilitiesSize protocolFlags a m₁) (hprotocol : SpaceAlloc m₁ protocolSize protocolFlags b m₂)
    (ha : a ≠ 0) (hb : b ≠ 0) (halow : a + capabilitiesSize ≤ 2 ^ 47) (hblow : b + protocolSize ≤ 2 ^ 47) :
    InitProtocol m m₂ := by
  have hflags : EntryFlags (convertToArchFlags protocolFlags) := ⟨by decide, by decide⟩
  have hbit : (convertToArchFlags protocolFlags).testBit 0 = true := by decide
  have hrun₁ : kmmap a capabilitiesSize (convertToArchFlags protocolFlags) m = .ok m₁ := by
    have h := hcopy.2
    rwa [if_neg ha] at h
  have hrun₂ : kmmap b protocolSize (convertToArchFlags protocolFlags) m₁ = .ok m₂ := by
    have h := hprotocol.2
    rwa [if_neg hb] at h
  have hsize : capabilitiesSize < 2 ^ 64 := by decide
  have hsize' : protocolSize < 2 ^ 64 := by decide
  obtain ⟨hwf₁, hfresh₁, he₁, hused₁⟩ := kmmap_grows hwf hfresh hflags hsize hrun₁
  obtain ⟨hwf₂, -, he₂, hused₂⟩ := kmmap_grows hwf₁ hfresh₁ hflags hsize' hrun₂
  have hpresent₁ : Present m₁ := hpresent.run hwf hfresh (.snoc [] _ _ _ .nil (.kmmap hsize hflags hrun₁))
    (List.forall_mem_singleton.mpr hbit)
  have hpresent₂ : Present m₂ := hpresent₁.run hwf₁ hfresh₁ (.snoc [] _ _ _ .nil (.kmmap hsize' hflags hrun₂))
    (List.forall_mem_singleton.mpr hbit)
  refine ⟨a, m₁, b, hcopy, hprotocol, ha, hb, fun i hi => ?_, fun i hi => ?_⟩
  · rw [wadd_eq (by omega)]
    exact mapped_of_used hwf₂ hpresent₂ (by omega) (.inr (.inl halow))
      (fun P hP hlt => he₂.used hwf₁.self hwf₂.self (hused₁ P hP hlt)) hi
  · rw [wadd_eq (by omega)]
    exact mapped_of_used hwf₂ hpresent₂ (by omega) (.inr (.inl hblow)) hused₂ hi

end Protocol

/-- After the first and the second allocation of `init_protocol`. -/
def copyMachine : Machine (List ℕ) := (kmmap 0x1000 capabilitiesSize 5 coreMachine).toOption.getD coreMachine
def protocolMachine : Machine (List ℕ) := (kmmap 0x3000 protocolSize 5 copyMachine).toOption.getD copyMachine

theorem coreMachine_protocol : InitProtocol coreMachine protocolMachine := by
  have hcopy : kmmap 0x1000 capabilitiesSize 5 coreMachine = .ok copyMachine := ok_of_isOk (by decide +kernel) _
  have hprotocol : kmmap 0x3000 protocolSize 5 copyMachine = .ok protocolMachine := ok_of_isOk (by decide +kernel) _
  have hbase : craftAddr 0 0 0 1 0 = 0x1000 := by decide
  have hfirst : SpaceAlloc coreMachine capabilitiesSize protocolFlags 0x1000 copyMachine := by
    refine ⟨?_, hcopy⟩
    rw [hbase]
    exact (searchAvailable_iff coreMachine_wellFormed).mpr (.inl ⟨by decide +kernel, rfl⟩)
  have hflags : EntryFlags 5 := ⟨by decide, by decide⟩
  obtain ⟨hwf, -⟩ := kmmap_grows coreMachine_wellFormed coreMachine_fresh hflags (by decide) hcopy
  have hsecond : SpaceAlloc copyMachine protocolSize protocolFlags 0x3000 protocolMachine :=
    spaceAlloc_of_firstRun hwf (by decide +kernel) (by decide) (c := 2)
      (by unfold FreeRuns.FirstRun FreeRuns.RunEnds; decide +kernel) (by decide) (by decide) hprotocol
  exact initProtocol_of_allocs coreMachine_wellFormed coreMachine_fresh coreMachine_present hfirst hsecond (by decide)
    (by decide) (by decide) (by decide)

/-- Text is entered like a program. -/
theorem text_entered : ¬ OnlyLoaded (editorFile textModule) editor 1 coreMachine ∧
    ∃ m', EntryLaunch (editorFile textModule) editor 1 coreMachine
      [.storeEntry 1 0x4141414141414141, .jump 1 0x4141414141414141] m' := by
  have hM : getFile (editorFile textModule) editor = some textModule := rfl
  have hfirst : textModule.clear.value 0 1 = 0x41 := by decide +kernel
  have hentry : textModule.clear.value 24 8 = 0x4141414141414141 := by decide +kernel
  have hrej : (checkElf textModule.clear : Outcome Trap Empty Bool) = .next false := by
    rw [checkElf, elfHeaderMagic, checkMagics, read_base, if_pos (by decide +kernel), next_bind, hfirst,
      if_pos (by decide), next_bind, if_pos (by decide)]
  have hread : (read textModule.clear (textModule.base + 24) 8 : Outcome Trap Empty ℕ) = .next 0x4141414141414141 := by
    have hbase := read_base (ρ := Empty) textModule.clear 24 8
    rw [if_pos (by decide +kernel), hentry] at hbase
    exact hbase
  have hstored : EntryLaunch (editorFile textModule) editor 1 coreMachine [.storeEntry 1 0x4141414141414141]
      protocolMachine :=
    .stored textModule coreMachine protocolMachine _ hM (mapElf64_rejected (by decide +kernel) hrej coreMachine)
      coreMachine_protocol hread
  constructor
  · intro h
    obtain ⟨M, hN, hacc, -⟩ := h.loaded _ _ hstored (by simp)
    obtain rfl : textModule = M := Option.some.inj hN
    rw [Accepted, hrej] at hacc
    cases hacc
  · have hstack : kmmap (0x10000 + 0x3000 * 1) 0x2000 7 protocolMachine =
        .ok ((kmmap (0x10000 + 0x3000 * 1) 0x2000 7 protocolMachine).toOption.getD protocolMachine) :=
      ok_of_isOk (by decide +kernel) _
    exact ⟨_, .entered protocolMachine _ _ hstored hstack⟩

end Blank

end Raccoon.Launch
