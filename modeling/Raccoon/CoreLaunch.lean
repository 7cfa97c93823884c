import Mathlib.Data.Finset.Card
import Raccoon.Runs

/-!
How the boot processor launches the other cores: every core has a mailbox that
it empties and polls, and `kernel_main` stores the launch order there. A core
counts itself as booted before it has emptied its mailbox, and it finds the
mailbox by an id that reads 0 as long as some core is being initialised.
-/

namespace Raccoon.CoreLaunch

open Runs

inductive Slot where
  | null
  | one
  | entryLaunch
deriving DecidableEq

/-- Where an application processor is in `_start_core`. -/
inductive ApPc where
  | start
  | locked
  | initialising
  | initialised
  | counted
  | released
  | storing (k : ℕ)
  | polling
  | testNull (k : ℕ)
  | notNull
  | testOne (k : ℕ)
  | found
  | calling (k : ℕ)
  | launched
  | crashed
deriving DecidableEq

/-- Where the boot processor is, from the end of `launch_APs` on. -/
inductive BootPc where
  | waiting
  | setting (i : ℕ)
  | launching (i : ℕ)
  | finished
deriving DecidableEq

def maxCore : ℕ := 32

/-- The LAPIC ids of the cores and the number of cores that the init file asks for. -/
structure Config where
  aps : Finset ℕ
  bsp : ℕ
  requiredCores : ℕ
  apsLt : ∀ i ∈ aps, i < maxCore
  bspNotMem : bsp ∉ aps

def Config.cpuCount (cfg : Config) : ℕ := cfg.aps.card + 1

structure State where
  smpStatus : Bool
  bootedCpusCount : ℕ
  bootLock : Bool
  launchingAddresses : ℕ → Slot
  boot : BootPc
  pc : ℕ → ApPc
  /-- The booted cores for which `kernel_main` has stored an order that they have not read yet. -/
  pending : ℕ → Bool

namespace State

/-- `COREID` on the core with LAPIC id `j`. -/
def coreId (s : State) (j : ℕ) : ℕ := if s.smpStatus then j else 0

def goto (s : State) (j : ℕ) (p : ApPc) : State := { s with pc := Function.update s.pc j p }

def put (s : State) (k : ℕ) (v : Slot) : State :=
  { s with launchingAddresses := Function.update s.launchingAddresses k v }

end State

def coreStep (j : ℕ) (s : State) : Option State :=
  match s.pc j with
  | .start => if s.bootLock then none else some ({ s with bootLock := true }.goto j .locked)
  | .locked => some ({ s with smpStatus := false }.goto j .initialising)
  | .initialising => some ({ s with smpStatus := true }.goto j .initialised)
  | .initialised => some ({ s with bootedCpusCount := (s.bootedCpusCount + 1) % 256 }.goto j .counted)
  | .counted => some ({ s with bootLock := false }.goto j .released)
  | .released => some (s.goto j (.storing (s.coreId j)))
  | .storing k => some ((s.put k .null).goto j .polling)
  | .polling => some (s.goto j (.testNull (s.coreId j)))
  | .testNull k => some (s.goto j (if s.launchingAddresses k = .null then .polling else .notNull))
  | .notNull => some (s.goto j (.testOne (s.coreId j)))
  | .testOne k => some (s.goto j (if s.launchingAddresses k = .one then .polling else .found))
  | .found => some (s.goto j (.calling (s.coreId j)))
  | .calling k =>
    if s.launchingAddresses k = .entryLaunch then
      some ({ s with pending := if k = j then Function.update s.pending j false else s.pending }.goto j .launched)
    else some (s.goto j .crashed)
  | .launched => none
  | .crashed => none

/-- One step of the boot processor; in `kernel_main` it stores the order of core `i`. -/
def bootStep (cfg : Config) (s : State) : Option State :=
  match s.boot with
  | .waiting => some { s with boot := if s.bootedCpusCount = cfg.cpuCount then .setting 0 else .waiting }
  | .setting i =>
    if i < maxCore then some { s.put i .one with boot := .setting (i + 1) }
    else some { s with boot := if cfg.requiredCores ≤ cfg.cpuCount then .launching 0 else .finished }
  | .launching i =>
    if i < cfg.requiredCores then
      if s.coreId cfg.bsp = i then some { s with boot := .launching (i + 1) }
      else some { s.put i .entryLaunch with
        boot := .launching (i + 1)
        pending := if i ∈ cfg.aps then Function.update s.pending i true else s.pending }
    else some { s with boot := .finished }
  | .finished => none

/-- `kernel_main` goes on without an order for core `i`, which is to hang. -/
def skipStep (cfg : Config) (s : State) : Option State :=
  match s.boot with
  | .launching i => if i < cfg.requiredCores then some { s with boot := .launching (i + 1) } else none
  | _ => none

/-- `kernel_main` leaves its loop to run a program that another core has loaded. -/
def leaveStep (s : State) : Option State :=
  match s.boot with
  | .launching _ => some { s with boot := .finished }
  | _ => none

inductive Action where
  | boot
  | skip
  | leave
  | core (j : ℕ)
deriving DecidableEq

def step (cfg : Config) (s : State) : Action → Option State
  | .boot => bootStep cfg s
  | .skip => skipStep cfg s
  | .leave => leaveStep s
  | .core j => if j ∈ cfg.aps then coreStep j s else none

/-- After `launch_APs`, with no core started yet. -/
def start : State where
  smpStatus := true
  bootedCpusCount := 1
  bootLock := false
  launchingAddresses _ := .null
  boot := .waiting
  pc _ := .start
  pending _ := false

/-- The core has incremented `booted_cpus_count`. -/
def ApPc.hasCounted : ApPc → Bool
  | start | locked | initialising | initialised => false
  | _ => true

/-- The core has emptied its mailbox. -/
def ApPc.hasEmptied : ApPc → Bool
  | start | locked | initialising | initialised | counted | released | storing _ => false
  | _ => true

/-- Core `i` has emptied its mailbox, and no core is about to empty the slot of `i` for its own. -/
def Settled (cfg : Config) (s : State) (i : ℕ) : Prop :=
  (s.pc i).hasEmptied ∧ ∀ j ∈ cfg.aps, s.pc j ≠ .storing i

instance (cfg : Config) (s : State) (i : ℕ) : Decidable (Settled cfg s i) :=
  inferInstanceAs (Decidable (_ ∧ ∀ j ∈ cfg.aps, s.pc j ≠ .storing i))

/-- `kernel_main` does not store the order of a core before its mailbox has settled. -/
def Patient (cfg : Config) (s : State) (a : Action) : Prop :=
  a = .boot → ∀ i ∈ cfg.aps, s.boot = .launching i → i < cfg.requiredCores → Settled cfg s i

instance (cfg : Config) (s : State) (a : Action) : Decidable (Patient cfg s a) :=
  inferInstanceAs (Decidable (a = .boot → ∀ i ∈ cfg.aps, s.boot = .launching i → i < cfg.requiredCores →
    Settled cfg s i))

def PatientStep (cfg : Config) (s : State) (a : Action) (s' : State) : Prop :=
  step cfg s a = some s' ∧ Patient cfg s a

section Core

variable {s s' : State} {j : ℕ}

structure CoreStep (j : ℕ) (s s' : State) : Prop where
  boot : s'.boot = s.boot
  other : ∀ i, i ≠ j → s'.pc i = s.pc i
  count : ((s'.pc j).hasCounted = (s.pc j).hasCounted ∧ s'.bootedCpusCount = s.bootedCpusCount) ∨
    ((s.pc j).hasCounted = false ∧ (s'.pc j).hasCounted = true ∧
      s'.bootedCpusCount = (s.bootedCpusCount + 1) % 256)
  status : s'.smpStatus = true ∨ s'.pc j = .initialising ∨
    (s'.smpStatus = s.smpStatus ∧ s.pc j ≠ .initialising)
  storing : ∀ k, s'.pc j = .storing k → s.pc j = .released ∧ k = s.coreId j
  slot : ∀ k, s'.launchingAddresses k = s.launchingAddresses k ∨ s.pc j = .storing k
  emptied : (s.pc j).hasEmptied → (s'.pc j).hasEmptied
  pending : ∀ i, s'.pending i → s.pending i

/-- A step that moves the core on, from a state `t` that differs from `s` in what it has written. -/
theorem coreStep_goto {t : State} {p : ApPc} (hpc : t.pc = s.pc) (hboot : t.boot = s.boot)
    (hcount : (p.hasCounted = (s.pc j).hasCounted ∧ t.bootedCpusCount = s.bootedCpusCount) ∨
      ((s.pc j).hasCounted = false ∧ p.hasCounted = true ∧ t.bootedCpusCount = (s.bootedCpusCount + 1) % 256))
    (hstatus : t.smpStatus = true ∨ p = .initialising ∨ (t.smpStatus = s.smpStatus ∧ s.pc j ≠ .initialising))
    (hstoring : ∀ k, p = .storing k → s.pc j = .released ∧ k = s.coreId j)
    (hslot : ∀ k, t.launchingAddresses k = s.launchingAddresses k ∨ s.pc j = .storing k)
    (hemptied : (s.pc j).hasEmptied → p.hasEmptied) (hpending : ∀ i, t.pending i → s.pending i) :
    CoreStep j s (t.goto j p) := by
  have hself : (t.goto j p).pc j = p := Function.update_self ..
  refine ⟨hboot, fun i hi => ?_, ?_, ?_, ?_, hslot, ?_, hpending⟩
  · rw [← hpc]
    exact Function.update_of_ne hi ..
  · rwa [hself]
  · rwa [hself]
  · rwa [hself]
  · rwa [hself]

theorem coreStep_move {p : ApPc} (hcount : p.hasCounted = (s.pc j).hasCounted) (hinit : s.pc j ≠ .initialising)
    (hstoring : ∀ k, p = .storing k → s.pc j = .released ∧ k = s.coreId j)
    (hemptied : (s.pc j).hasEmptied → p.hasEmptied) : CoreStep j s (s.goto j p) :=
  coreStep_goto rfl rfl (.inl ⟨hcount, rfl⟩) (.inr (.inr ⟨rfl, hinit⟩)) hstoring (fun _ => .inl rfl) hemptied
    fun _ h => h

theorem coreStep_cases (h : coreStep j s = some s') : CoreStep j s s' := by
  unfold coreStep at h
  cases hpc : s.pc j with
  | start =>
    rw [hpc] at h
    obtain ⟨-, rfl⟩ := Option.ite_none_left_eq_some.mp h |>.imp id Option.some.inj
    exact coreStep_goto rfl rfl (.inl ⟨by rw [hpc]; rfl, rfl⟩) (.inr (.inr ⟨rfl, by simp [hpc]⟩)) (by simp)
      (fun _ => .inl rfl) (by simp [hpc, ApPc.hasEmptied]) fun _ h => h
  | locked =>
    rw [hpc] at h
    obtain rfl := Option.some.inj h
    exact coreStep_goto rfl rfl (.inl ⟨by rw [hpc]; rfl, rfl⟩) (.inr (.inl rfl)) (by simp)
      (fun _ => .inl rfl) (by simp [hpc, ApPc.hasEmptied]) fun _ h => h
  | initialising =>
    rw [hpc] at h
    obtain rfl := Option.some.inj h
    exact coreStep_goto rfl rfl (.inl ⟨by rw [hpc]; rfl, rfl⟩) (.inl rfl) (by simp)
      (fun _ => .inl rfl) (by simp [hpc, ApPc.hasEmptied]) fun _ h => h
  | initialised =>
    rw [hpc] at h
    obtain rfl := Option.some.inj h
    exact coreStep_goto rfl rfl (.inr ⟨by rw [hpc]; rfl, rfl, rfl⟩) (.inr (.inr ⟨rfl, by simp [hpc]⟩)) (by simp)
      (fun _ => .inl rfl) (by simp [hpc, ApPc.hasEmptied]) fun _ h => h
  | counted =>
    rw [hpc] at h
    obtain rfl := Option.some.inj h
    exact coreStep_goto rfl rfl (.inl ⟨by rw [hpc]; rfl, rfl⟩) (.inr (.inr ⟨rfl, by simp [hpc]⟩)) (by simp)
      (fun _ => .inl rfl) (by simp [hpc, ApPc.hasEmptied]) fun _ h => h
  | storing k =>
    rw [hpc] at h
    obtain rfl := Option.some.inj h
    refine coreStep_goto rfl rfl (.inl ⟨by rw [hpc]; rfl, rfl⟩) (.inr (.inr ⟨rfl, by simp [hpc]⟩)) (by simp)
      (fun i => ?_) (by simp [ApPc.hasEmptied]) fun _ h => h
    by_cases hi : i = k
    · exact .inr (hi ▸ hpc)
    · exact .inl (Function.update_of_ne hi ..)
  | calling k =>
    rw [hpc] at h
    dsimp only at h
    by_cases hk : s.launchingAddresses k = .entryLaunch
    · rw [if_pos hk] at h
      obtain rfl := Option.some.inj h
      refine coreStep_goto rfl rfl (.inl ⟨by rw [hpc]; rfl, rfl⟩) (.inr (.inr ⟨rfl, by simp [hpc]⟩)) (by simp)
        (fun _ => .inl rfl) (by simp [ApPc.hasEmptied]) fun i hi => ?_
      dsimp only at hi
      by_cases hkj : k = j
      · rw [if_pos hkj] at hi
        by_cases hij : i = j
        · subst hij
          simp at hi
        · rwa [Function.update_of_ne hij] at hi
      · rwa [if_neg hkj] at hi
    · rw [if_neg hk] at h
      obtain rfl := Option.some.inj h
      exact coreStep_move (by rw [hpc]; rfl) (by simp [hpc]) (by simp) (by simp [ApPc.hasEmptied])
  | released =>
    rw [hpc] at h
    obtain rfl := Option.some.inj h
    exact coreStep_move (by rw [hpc]; rfl) (by simp [hpc]) (fun k hk => ⟨hpc, (ApPc.storing.inj hk).symm⟩)
      (by simp [hpc, ApPc.hasEmptied])
  | polling | notNull | found =>
    rw [hpc] at h
    obtain rfl := Option.some.inj h
    exact coreStep_move (by rw [hpc]; rfl) (by simp [hpc]) (by simp) (by simp [ApPc.hasEmptied])
  | testNull k | testOne k =>
    rw [hpc] at h
    obtain rfl := Option.some.inj h
    split <;> exact coreStep_move (by rw [hpc]; rfl) (by simp [hpc]) (by simp) (by simp [ApPc.hasEmptied])
  | launched | crashed =>
    rw [hpc] at h
    cases h

end Core

section Invariant

variable {cfg : Config} {s s' : State} {i j : ℕ}

def booted (cfg : Config) (s : State) : Finset ℕ := cfg.aps.filter fun j => (s.pc j).hasCounted

structure Inv (cfg : Config) (s : State) : Prop where
  count : s.bootedCpusCount = (booted cfg s).card + 1
  past : s.boot ≠ .waiting → ∀ j ∈ cfg.aps, (s.pc j).hasCounted
  status : s.smpStatus = false → ∃ j ∈ cfg.aps, s.pc j = .initialising
  order : ∀ i, s.pending i → (∃ k, s.boot = .launching k) ∨ s.boot = .finished
  kept : ∀ i, s.pending i → i ∈ cfg.aps ∧ s.launchingAddresses i = .entryLaunch ∧ Settled cfg s i

theorem inv_start : Inv cfg start where
  count := by simp [booted, start, ApPc.hasCounted]
  past h := absurd rfl h
  status h := by cases h
  order i h := by cases h
  kept i h := by cases h

theorem card_aps (cfg : Config) : cfg.aps.card ≤ maxCore := by
  have hsub : cfg.aps ⊆ Finset.range maxCore := fun i hi => Finset.mem_range.mpr (cfg.apsLt i hi)
  simpa using Finset.card_le_card hsub

/-- When all cores are booted, none is being initialised and `COREID` is the LAPIC id. -/
theorem Inv.coreId (h : Inv cfg s) (hboot : s.boot ≠ .waiting) (j : ℕ) : s.coreId j = j := by
  rw [State.coreId, if_pos]
  by_contra hc
  obtain ⟨k, hk, hpc⟩ := h.status (by simpa using hc)
  have := h.past hboot k hk
  rw [hpc] at this
  cases this

theorem Inv.core (h : Inv cfg s) (hj : j ∈ cfg.aps) (hs : CoreStep j s s') : Inv cfg s' := by
  have hmono (i : ℕ) (hi : (s.pc i).hasCounted) : (s'.pc i).hasCounted := by
    by_cases hij : i = j
    · subst hij
      rcases hs.count with ⟨he, -⟩ | ⟨-, he, -⟩
      · rwa [he]
      · exact he
    · rwa [hs.other i hij]
  refine ⟨?_, fun hb i hi => hmono i (h.past (hs.boot ▸ hb) i hi), fun hst => ?_, fun i hp => ?_, fun i hp => ?_⟩
  · rcases hs.count with ⟨he, hn⟩ | ⟨hold, hnew, hn⟩
    · have hsame : booted cfg s' = booted cfg s := Finset.filter_congr fun i _ => by
        by_cases hij : i = j
        · rw [hij, he]
        · rw [hs.other i hij]
      rw [hn, hsame, h.count]
    · have hnot : j ∉ booted cfg s := fun hm => by simp [booted, hold] at hm
      have hins : booted cfg s' = insert j (booted cfg s) := by
        ext i
        by_cases hij : i = j
        · simp [booted, hij, hj, hnew]
        · simp [booted, hij, hs.other i hij]
      have hcard : (booted cfg s).card ≤ cfg.aps.card := Finset.card_filter_le ..
      have hmax := card_aps cfg
      unfold maxCore at hmax
      rw [hn, hins, Finset.card_insert_of_notMem hnot, h.count, Nat.mod_eq_of_lt (by omega)]
  · rcases hs.status with ht | hpc | ⟨he, hne⟩
    · rw [ht] at hst
      cases hst
    · exact ⟨j, hj, hpc⟩
    · obtain ⟨k, hk, hpc⟩ := h.status (he ▸ hst)
      have hkj : k ≠ j := fun hkj => hne (hkj ▸ hpc)
      exact ⟨k, hk, (hs.other k hkj).trans hpc⟩
  · rw [hs.boot]
    exact h.order i (hs.pending i hp)
  · have hpend := hs.pending i hp
    obtain ⟨hi, hslot, hempty, hnone⟩ := h.kept i hpend
    have hboot : s.boot ≠ .waiting := by
      rcases h.order i hpend with ⟨k, hb⟩ | hb <;> simp [hb]
    refine ⟨hi, ?_, ?_, fun k hk hpc => ?_⟩
    · rcases hs.slot i with he | hpc
      · rw [he, hslot]
      · exact absurd hpc (hnone j hj)
    · by_cases hij : i = j
      · subst hij
        exact hs.emptied hempty
      · rwa [hs.other i hij]
    · by_cases hkj : k = j
      · subst hkj
        -- a core that sets out for its mailbox finds its own
        obtain ⟨hrel, he⟩ := hs.storing i hpc
        rw [h.coreId hboot] at he
        subst he
        rw [hrel] at hempty
        cases hempty
      · exact hnone k hk ((hs.other k hkj).symm.trans hpc)

theorem Inv.of_boot (h : Inv cfg s) (hpc : s'.pc = s.pc) (hstatus : s'.smpStatus = s.smpStatus)
    (hcount : s'.bootedCpusCount = s.bootedCpusCount)
    (hpast : s'.boot ≠ .waiting → ∀ j ∈ cfg.aps, (s.pc j).hasCounted)
    (horder : ∀ i, s'.pending i → (∃ k, s'.boot = .launching k) ∨ s'.boot = .finished)
    (hkept : ∀ i, s'.pending i → i ∈ cfg.aps ∧ s'.launchingAddresses i = .entryLaunch ∧ Settled cfg s i) :
    Inv cfg s' := by
  refine ⟨?_, by rwa [hpc], by rw [hstatus, hpc]; exact h.status, horder, fun i hi => ?_⟩
  · rw [hcount, h.count, booted, booted, hpc]
  · rw [Settled, hpc]
    exact hkept i hi

theorem Inv.quiet (h : Inv cfg s) (hl : ∀ k, s.boot ≠ .launching k) (hf : s.boot ≠ .finished) (i : ℕ) :
    ¬ s.pending i := fun hp => by
  rcases h.order i hp with ⟨k, hk⟩ | hk
  · exact hl k hk
  · exact hf hk

theorem Inv.boot (h : Inv cfg s) (hs : bootStep cfg s = some s')
    (hpatient : ∀ i, s.boot = .launching i → i < cfg.requiredCores → i ∈ cfg.aps → Settled cfg s i) :
    Inv cfg s' := by
  unfold bootStep at hs
  cases hb : s.boot with
  | waiting =>
    rw [hb] at hs
    obtain rfl := Option.some.inj hs
    have hquiet := h.quiet (by simp [hb]) (by simp [hb])
    refine h.of_boot rfl rfl rfl (fun hne j hj => ?_) (fun i hp => absurd hp (hquiet i))
      fun i hp => absurd hp (hquiet i)
    have hall : s.bootedCpusCount = cfg.cpuCount := by
      by_contra hc
      exact hne (if_neg hc)
    have heq : booted cfg s = cfg.aps := by
      refine Finset.eq_of_subset_of_card_le (Finset.filter_subset ..) ?_
      have := h.count
      unfold Config.cpuCount at hall
      omega
    have hmem : j ∈ booted cfg s := heq ▸ hj
    exact (Finset.mem_filter.mp hmem).2
  | setting i =>
    rw [hb] at hs
    have hquiet := h.quiet (by simp [hb]) (by simp [hb])
    have hpast := h.past (by simp [hb])
    dsimp only at hs
    by_cases hi : i < maxCore
    · rw [if_pos hi] at hs
      obtain rfl := Option.some.inj hs
      exact h.of_boot rfl rfl rfl (fun _ => hpast) (fun i hp => absurd hp (hquiet i))
        fun i hp => absurd hp (hquiet i)
    · rw [if_neg hi] at hs
      obtain rfl := Option.some.inj hs
      exact h.of_boot rfl rfl rfl (fun _ => hpast) (fun i hp => absurd hp (hquiet i))
        fun i hp => absurd hp (hquiet i)
  | launching i =>
    rw [hb] at hs
    have hpast := h.past (by simp [hb])
    dsimp only at hs
    by_cases hi : i < cfg.requiredCores
    · rw [if_pos hi] at hs
      by_cases hc : s.coreId cfg.bsp = i
      · rw [if_pos hc] at hs
        obtain rfl := Option.some.inj hs
        exact h.of_boot rfl rfl rfl (fun _ => hpast) (fun _ _ => .inl ⟨_, rfl⟩) h.kept
      · rw [if_neg hc] at hs
        obtain rfl := Option.some.inj hs
        refine h.of_boot rfl rfl rfl (fun _ => hpast) (fun _ _ => .inl ⟨_, rfl⟩) fun k hk => ?_
        by_cases hki : k = i
        · subst hki
          have hmem : k ∈ cfg.aps := by
            by_contra hm
            dsimp only at hk
            rw [if_neg hm] at hk
            exact hm (h.kept k hk).1
          exact ⟨hmem, Function.update_self .., hpatient k hb hi hmem⟩
        · have hold : s.pending k := by
            dsimp only at hk
            split at hk
            · rwa [Function.update_of_ne hki] at hk
            · exact hk
          obtain ⟨hmem, hslot, hset⟩ := h.kept k hold
          exact ⟨hmem, (Function.update_of_ne hki ..).trans hslot, hset⟩
    · rw [if_neg hi] at hs
      obtain rfl := Option.some.inj hs
      exact h.of_boot rfl rfl rfl (fun _ => hpast) (fun _ _ => .inr rfl) h.kept
  | finished =>
    rw [hb] at hs
    cases hs

theorem Inv.skip (h : Inv cfg s) (hs : skipStep cfg s = some s') : Inv cfg s' := by
  unfold skipStep at hs
  split at hs
  case h_1 i hb =>
    obtain ⟨-, hs⟩ := Option.ite_none_right_eq_some.mp hs
    obtain rfl := Option.some.inj hs
    exact h.of_boot rfl rfl rfl (fun _ => h.past (by simp [hb])) (fun _ _ => .inl ⟨_, rfl⟩) h.kept
  case h_2 => cases hs

theorem Inv.leave (h : Inv cfg s) (hs : leaveStep s = some s') : Inv cfg s' := by
  unfold leaveStep at hs
  split at hs
  case h_1 i hb =>
    obtain rfl := Option.some.inj hs
    exact h.of_boot rfl rfl rfl (fun _ => h.past (by simp [hb])) (fun _ _ => .inr rfl) h.kept
  case h_2 => cases hs

theorem inv_step {a : Action} (h : Inv cfg s) (hs : PatientStep cfg s a s') : Inv cfg s' := by
  obtain ⟨hstep, hpatient⟩ := hs
  cases a with
  | boot => exact h.boot hstep fun i hb hi hmem => hpatient rfl i hmem hb hi
  | skip => exact h.skip hstep
  | leave => exact h.leave hstep
  | core j =>
    obtain ⟨hj, hcore⟩ := Option.ite_none_right_eq_some.mp hstep
    exact h.core hj (coreStep_cases hcore)

end Invariant

/-- No launch order is lost in a run in which `kernel_main` waits for the mailboxes to settle. -/
theorem launch_kept {cfg : Config} {h : List Action} {s : State} (hrun : Run (PatientStep cfg) start h s)
    (i : ℕ) (hp : s.pending i) : s.launchingAddresses i = .entryLaunch := by
  have hinv := hrun.invariant (fun _ s => Inv cfg s) inv_start fun h s a s' hi hs => inv_step hi hs
  exact (hinv.kept i hp).2.1

/-- A boot processor with id 0 and one application processor with id 1. -/
def pair : Config where
  aps := {1}
  bsp := 0
  requiredCores := 2
  apsLt := by decide
  bspNotMem := by decide

/-- The core counts itself, and the boot processor goes on up to the order for it. -/
def hasty : List Action :=
  List.replicate 4 (.core 1) ++ List.replicate 36 .boot ++ List.replicate 3 (.core 1)

/-- The core empties its mailbox before the boot processor goes on. -/
def patient : List Action := List.replicate 7 (.core 1) ++ List.replicate 36 .boot

theorem launch_kept_pair : ∃ s, Run (PatientStep pair) start patient s ∧ s.pending 1 = true ∧
    s.launchingAddresses 1 = .entryLaunch := by
  cases he : exec (fun s a => if Patient pair s a then step pair s a else none) start patient with
  | none => exact absurd (congrArg Option.isSome he) (by decide +kernel)
  | some s =>
    have hp : (exec (fun s a => if Patient pair s a then step pair s a else none) start patient).map
        (fun s => s.pending 1) = some true := by decide +kernel
    rw [he] at hp
    have hrun : Run (PatientStep pair) start patient s := (run_of_exec _ he).mono fun s a s' hs =>
      let ⟨hpatient, hstep⟩ := Option.ite_none_right_eq_some.mp hs
      ⟨hstep, hpatient⟩
    exact ⟨s, hrun, Option.some.inj hp, launch_kept hrun 1 (Option.some.inj hp)⟩

/-- The core empties its mailbox when its order is already there. -/
theorem launch_lost : ¬ ∀ (cfg : Config) (h : List Action) (s : State),
    Run (fun s a s' => step cfg s a = some s') start h s →
    ∀ i, s.pending i → s.launchingAddresses i = .entryLaunch := by
  intro hall
  cases he : exec (step pair) start hasty with
  | none => exact absurd (congrArg Option.isSome he) (by decide +kernel)
  | some s =>
    have hs : (exec (step pair) start hasty).map (fun s => (s.pending 1, s.launchingAddresses 1)) =
        some (true, .null) := by decide +kernel
    rw [he] at hs
    obtain ⟨hp, hslot⟩ := Prod.mk.inj (Option.some.inj hs)
    have hkept := hall pair hasty s (run_of_exec _ he) 1 hp
    rw [hslot] at hkept
    cases hkept

end Raccoon.CoreLaunch
