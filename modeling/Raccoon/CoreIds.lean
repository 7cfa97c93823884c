import Mathlib.Algebra.Group.Int.Defs
import Raccoon.CoreLaunch

/-!
The indices that the cores use into the tables with one entry a core. A core
that boots stores its page directory under its LAPIC id; everything else is
found under `COREID`, which reads 0 as long as some core is being initialised.
-/

namespace Raccoon.CoreIds

open Runs
open CoreLaunch (maxCore)

/-- The LAPIC ids of the table: those of the application processors, and that of the boot processor. -/
structure SmpTable where
  aps : Finset ℕ
  bsp : ℕ
  bspNotMem : bsp ∉ aps
  idLt : ∀ i ∈ insert bsp aps, i < 2 ^ 32
  cpuCountLe : aps.card + 1 ≤ maxCore

def SmpTable.cpuCount (smp : SmpTable) : ℕ := smp.aps.card + 1

def SmpTable.cores (smp : SmpTable) : Finset ℕ := insert smp.bsp smp.aps

inductive Table where
  | pmaps
  | lockLevel
  | programs
  | entries
  | launchingAddresses
deriving DecidableEq

/-- A core has used an index, and had counted itself as booted by then. -/
structure Use where
  core : ℕ
  table : Table
  index : ℤ
  booted : Bool
deriving DecidableEq

/-- Where an application processor is in `_start_core`. -/
inductive Phase where
  | waiting
  | locked
  | initialising
  | mapped
  | initialised
  | counted
  | released
deriving DecidableEq

/-- Where the boot processor is: before and after it stores its page directory, in `launch_APs`, waiting for
the others, and in `kernel_main`. -/
inductive BootPhase where
  | starting
  | mapped
  | launching
  | waiting
  | kernelMain
deriving DecidableEq

structure State where
  smpStatus : Bool
  bootedCpusCount : ℕ
  bottleneck : Bool
  boot : BootPhase
  phase : ℕ → Phase
  uses : List Use

namespace Phase

def hasCounted : Phase → Bool
  | counted | released => true
  | _ => false

/-- Between `BEGIN_BOTTLENECK` and `END_BOTTLENECK`. -/
def inBottleneck : Phase → Bool
  | waiting | released => false
  | _ => true

/-- While `smp_status` is 0. -/
def clearsStatus : Phase → Bool
  | initialising | mapped => true
  | _ => false

end Phase

/-- The boot processor has let the others start. -/
def BootPhase.hasLaunched : BootPhase → Bool
  | waiting | kernelMain => true
  | _ => false

def BootPhase.hasCounted : BootPhase → Bool
  | starting | mapped => false
  | _ => true

namespace State

/-- `COREID` on the core with LAPIC id `j`: the upper 8 bits of the register hold the lower 8 bits of the id. -/
def coreId (s : State) (j : ℕ) : ℕ := if s.smpStatus then j % 2 ^ 8 else 0

def goto (s : State) (j : ℕ) (p : Phase) : State := { s with phase := Function.update s.phase j p }

end State

section Code

/-- A `uint32_t` as an `int`. -/
def asInt (n : ℕ) : ℤ := if n < 2 ^ 31 then n else (n : ℤ) - 2 ^ 32

variable (smp : SmpTable)

def booted (s : State) (j : ℕ) : Bool := if j = smp.bsp then s.boot.hasCounted else (s.phase j).hasCounted

def use (s : State) (j : ℕ) (t : Table) (index : ℤ) : State :=
  { s with uses := ⟨j, t, index, booted smp s j⟩ :: s.uses }

/-- The tables that a core indexes with `COREID`: the level of the interrupt lock with every message, its mailbox
once it is out of the bottleneck, and the tables of `kernel_main` and `entry_launch`. -/
def indexed (s : State) (j : ℕ) : List Table :=
  if j = smp.bsp then
    match s.boot with
    | .starting | .mapped | .launching => [.lockLevel]
    | .waiting => []
    | .kernelMain => [.lockLevel, .programs, .entries]
  else if j ∈ smp.aps then
    match s.phase j with
    | .waiting | .locked => []
    | .initialising | .mapped | .initialised | .counted => [.lockLevel]
    | .released =>
      if s.boot = .kernelMain then [.launchingAddresses, .lockLevel, .programs, .entries] else [.launchingAddresses]
  else []

/-- `store_pmap` takes the id as an `int`. -/
def storePmap (s : State) (j lapicId : ℕ) : State := use smp s j .pmaps (asInt lapicId)

def coreStep (j : ℕ) (s : State) : Option State :=
  match s.phase j with
  | .waiting =>
    if s.boot.hasLaunched ∧ ¬ s.bottleneck then some ({ s with bottleneck := true }.goto j .locked) else none
  | .locked => some ({ s with smpStatus := false }.goto j .initialising)
  | .initialising => some ((storePmap smp s j j).goto j .mapped)
  | .mapped => some ({ s with smpStatus := true }.goto j .initialised)
  | .initialised => some ({ s with bootedCpusCount := (s.bootedCpusCount + 1) % 256 }.goto j .counted)
  | .counted => some ({ s with bottleneck := false }.goto j .released)
  | .released => none

def bootStep (s : State) : Option State :=
  match s.boot with
  | .starting => some { storePmap smp s smp.bsp 0 with boot := .mapped }
  | .mapped => some { s with smpStatus := true, boot := .launching }
  | .launching => some { s with boot := .waiting }
  | .waiting => if s.bootedCpusCount = smp.cpuCount then some { s with boot := .kernelMain } else none
  | .kernelMain => none

inductive Action where
  | boot
  | core (j : ℕ)
  | index (j : ℕ) (t : Table)
deriving DecidableEq

def step (s : State) : Action → Option State
  | .boot => bootStep smp s
  | .core j => if j ∈ smp.aps then coreStep smp j s else none
  | .index j t => if t ∈ indexed smp s j then some (use smp s j t (s.coreId j)) else none

def start : State where
  smpStatus := false
  bootedCpusCount := 1
  bottleneck := false
  boot := .starting
  phase _ := .waiting
  uses := []

end Code

/-- The tables are indexed within their bounds, booted cores use different indices, and the core numbers that
`kernel_main` launches are those of booted cores. -/
structure Separate (smp : SmpTable) (s : State) : Prop where
  bounded : ∀ u ∈ s.uses, 0 ≤ u.index ∧ u.index < maxCore
  distinct : ∀ u ∈ s.uses, ∀ v ∈ s.uses, u.booted → v.booted → u.core ≠ v.core → u.index ≠ v.index
  launched : s.boot = .kernelMain → ∀ i < smp.cpuCount, ∃ j ∈ smp.cores, booted smp s j ∧ s.coreId j = i

/-- The ids that `COREID` can read are the core numbers. -/
def Contiguous (smp : SmpTable) : Prop := ∀ i < smp.cpuCount, i ∈ smp.aps ∨ i = smp.bsp % 2 ^ 8

/-- A core that is out of the bottleneck does not read `COREID` while another one is being initialised. -/
def Undisturbed (s : State) : Action → Prop
  | .index j _ => s.phase j = .released → s.smpStatus = true ∨ j % 2 ^ 8 = 0
  | _ => True

instance (s : State) : DecidablePred (Undisturbed s)
  | .index _ _ => inferInstanceAs (Decidable (_ → _ ∨ _))
  | .boot => isTrue trivial
  | .core _ => isTrue trivial

def UndisturbedStep (smp : SmpTable) (s : State) (a : Action) (s' : State) : Prop :=
  step smp s a = some s' ∧ Undisturbed s a

section Ids

variable {smp : SmpTable} {j : ℕ}

theorem asInt_of_lt {n : ℕ} (h : n < 2 ^ 31) : asInt n = n := if_pos h

/-- The numbers that can be read are as many as the cores, so none of them is read twice. -/
theorem Contiguous.ids (h : Contiguous smp) :
    (∀ j ∈ smp.aps, j < smp.cpuCount) ∧ smp.bsp % 2 ^ 8 < smp.cpuCount ∧ smp.bsp % 2 ^ 8 ∉ smp.aps := by
  have hsub : Finset.range smp.cpuCount ⊆ insert (smp.bsp % 2 ^ 8) smp.aps := fun i hi => by
    rcases h i (Finset.mem_range.mp hi) with hm | rfl
    · exact Finset.mem_insert_of_mem hm
    · exact Finset.mem_insert_self ..
  have hcard : (insert (smp.bsp % 2 ^ 8) smp.aps).card ≤ (Finset.range smp.cpuCount).card := by
    rw [Finset.card_range]
    exact Finset.card_insert_le ..
  have heq := Finset.eq_of_subset_of_card_le hsub hcard
  have hlt {i : ℕ} (hi : i ∈ insert (smp.bsp % 2 ^ 8) smp.aps) : i < smp.cpuCount := Finset.mem_range.mp (heq ▸ hi)
  refine ⟨fun j hj => hlt (Finset.mem_insert_of_mem hj), hlt (Finset.mem_insert_self ..), fun hm => ?_⟩
  rw [Finset.insert_eq_of_mem hm] at heq
  have hc := congrArg Finset.card heq
  rw [Finset.card_range, SmpTable.cpuCount] at hc
  omega

theorem Contiguous.core_lt (h : Contiguous smp) (hj : j ∈ smp.cores) : j % 2 ^ 8 < smp.cpuCount := by
  obtain ⟨haps, hbsp, -⟩ := h.ids
  rcases Finset.mem_insert.mp hj with rfl | hj
  · exact hbsp
  · exact (Nat.mod_le j _).trans_lt (haps j hj)

theorem Contiguous.core_inj (h : Contiguous smp) {k : ℕ} (hj : j ∈ smp.cores) (hk : k ∈ smp.cores) (hne : j ≠ k) :
    j % 2 ^ 8 ≠ k % 2 ^ 8 := by
  obtain ⟨haps, -, hbsp⟩ := h.ids
  have hmax := smp.cpuCountLe
  unfold maxCore at hmax
  have hself {i : ℕ} (hi : i ∈ smp.aps) : i % 2 ^ 8 = i := by
    have hlt := haps i hi
    unfold SmpTable.cpuCount at hlt
    omega
  rcases Finset.mem_insert.mp hj with rfl | hj <;> rcases Finset.mem_insert.mp hk with rfl | hk
  · exact absurd rfl hne
  · rw [hself hk]
    exact fun he => hbsp (he ▸ hk)
  · rw [hself hj]
    exact fun he => hbsp (he ▸ hj)
  · rwa [hself hj, hself hk]

end Ids

section Invariant

variable {smp : SmpTable} {s s' t : State} {i j : ℕ} {p : Phase}

def counted (smp : SmpTable) (s : State) : Finset ℕ := smp.aps.filter fun j => (s.phase j).hasCounted

/-- An index of the core `j`: 0, the number that `COREID` reads there, or the id itself while it boots. -/
def IndexOf (smp : SmpTable) (u : Use) : Prop :=
  u.core ∈ smp.cores ∧ (u.index = 0 ∨ u.index = (u.core % 2 ^ 8 : ℕ) ∨
    (u.core ∈ smp.aps ∧ u.index = asInt u.core))

structure Inv (smp : SmpTable) (s : State) : Prop where
  status : s.smpStatus = false → s.boot.hasCounted = false ∨ ∃ j ∈ smp.aps, (s.phase j).clearsStatus
  early : ∀ j ∈ smp.aps, s.phase j ≠ .waiting → s.boot.hasLaunched
  lock : ∀ j ∈ smp.aps, (s.phase j).inBottleneck → s.bottleneck = true
  alone : ∀ i ∈ smp.aps, ∀ j ∈ smp.aps, (s.phase i).inBottleneck → (s.phase j).inBottleneck → i = j
  count : s.bootedCpusCount = (counted smp s).card + 1
  past : s.boot = .kernelMain → ∀ j ∈ smp.aps, (s.phase j).hasCounted
  index : ∀ u ∈ s.uses, IndexOf smp u
  own : ∀ u ∈ s.uses, u.booted → u.index = (u.core % 2 ^ 8 : ℕ)

theorem inv_start : Inv smp start where
  status _ := .inl rfl
  early _ _ h := absurd rfl h
  lock _ _ h := by cases h
  alone _ _ _ _ h := by cases h
  count := by simp [counted, start, Phase.hasCounted]
  past h := by cases h
  index _ h := by cases h
  own _ h := by cases h

/-- A step that moves a core on, from a state `t` that differs from `s` in what it has written. -/
theorem Inv.goto (h : Inv smp s) (hj : j ∈ smp.aps) (hphase : t.phase = s.phase) (hboot : t.boot = s.boot)
    (hlaunched : s.boot.hasLaunched)
    (hstatus : t.smpStatus = true ∨ p.clearsStatus ∨ (t.smpStatus = s.smpStatus ∧ (s.phase j).clearsStatus = false))
    (hlock : t.bottleneck = false → s.bottleneck = false ∨ (s.phase j).inBottleneck)
    (hin : p.inBottleneck → t.bottleneck = true ∧ ((s.phase j).inBottleneck ∨ s.bottleneck = false))
    (hcount : (p.hasCounted = (s.phase j).hasCounted ∧ t.bootedCpusCount = s.bootedCpusCount) ∨
      ((s.phase j).hasCounted = false ∧ p.hasCounted = true ∧ t.bootedCpusCount = (s.bootedCpusCount + 1) % 256))
    (hindex : ∀ u ∈ t.uses, IndexOf smp u) (hown : ∀ u ∈ t.uses, u.booted → u.index = (u.core % 2 ^ 8 : ℕ)) :
    Inv smp (t.goto j p) := by
  have hself : (t.goto j p).phase j = p := Function.update_self ..
  have hother (i : ℕ) (hi : i ≠ j) : (t.goto j p).phase i = s.phase i := by
    rw [← hphase]
    exact Function.update_of_ne hi ..
  -- another core in the bottleneck keeps this one out of it
  have hout (hp : p.inBottleneck) (i : ℕ) (hi : i ∈ smp.aps) (hne : i ≠ j) : ¬ (s.phase i).inBottleneck := fun hb => by
    rcases (hin hp).2 with hbj | hfree
    · exact hne (h.alone i hi j hj hb hbj)
    · have hheld := h.lock i hi hb
      rw [hfree] at hheld
      cases hheld
  refine ⟨fun hst => ?_, fun i hi hw => ?_, fun i hi hb => ?_, fun i hi k hk hbi hbk => ?_, ?_, fun hb i hi => ?_,
    hindex, hown⟩
  · change t.smpStatus = false at hst
    change t.boot.hasCounted = false ∨ _
    rcases hstatus with ht | hp | ⟨he, hclear⟩
    · rw [ht] at hst
      cases hst
    · exact .inr ⟨j, hj, by rwa [hself]⟩
    · rw [hboot]
      rcases h.status (he ▸ hst) with hb | ⟨k, hk, hc⟩
      · exact .inl hb
      · have hkj : k ≠ j := fun hkj => by rw [hkj, hclear] at hc; cases hc
        exact .inr ⟨k, hk, by rwa [hother k hkj]⟩
  · change t.boot.hasLaunched = true
    rwa [hboot]
  · by_cases hij : i = j
    · rw [hij, hself] at hb
      exact (hin hb).1
    · rw [hother i hij] at hb
      by_contra hfree
      rcases hlock (by simpa [State.goto] using hfree) with hs | hbj
      · rw [h.lock i hi hb] at hs
        cases hs
      · exact hij (h.alone i hi j hj hb hbj)
  · by_cases hij : i = j <;> by_cases hkj : k = j
    · rw [hij, hkj]
    · rw [hij, hself] at hbi
      rw [hother k hkj] at hbk
      exact absurd hbk (hout hbi k hk hkj)
    · rw [hkj, hself] at hbk
      rw [hother i hij] at hbi
      exact absurd hbi (hout hbk i hi hij)
    · rw [hother i hij] at hbi
      rw [hother k hkj] at hbk
      exact h.alone i hi k hk hbi hbk
  · change t.bootedCpusCount = _
    rcases hcount with ⟨he, hn⟩ | ⟨hold, hnew, hn⟩
    · have hsame : counted smp (t.goto j p) = counted smp s := Finset.filter_congr fun i _ => by
        by_cases hij : i = j
        · rw [hij, hself, he]
        · rw [hother i hij]
      rw [hn, hsame, h.count]
    · have hnot : j ∉ counted smp s := fun hm => by simp [counted, hold] at hm
      have hins : counted smp (t.goto j p) = insert j (counted smp s) := by
        ext i
        by_cases hij : i = j
        · simp [counted, hij, hj, hself, hnew]
        · simp [counted, hij, hother i hij]
      have hcard : (counted smp s).card ≤ smp.aps.card := Finset.card_filter_le ..
      have hmax := smp.cpuCountLe
      unfold maxCore at hmax
      rw [hn, hins, Finset.card_insert_of_notMem hnot, h.count, Nat.mod_eq_of_lt (by omega)]
  · change t.boot = .kernelMain at hb
    rw [hboot] at hb
    have hold := h.past hb i hi
    by_cases hij : i = j
    · rw [hij, hself]
      rw [hij] at hold
      rcases hcount with ⟨he, -⟩ | ⟨-, he, -⟩
      · rwa [he]
      · exact he
    · rwa [hother i hij]

theorem Inv.uses (h : Inv smp s) {t : Table} {index : ℤ}
    (hindex : IndexOf smp ⟨j, t, index, booted smp s j⟩) (hown : booted smp s j → index = (j % 2 ^ 8 : ℕ)) :
    Inv smp (use smp s j t index) := by
  refine ⟨h.status, h.early, h.lock, h.alone, h.count, h.past, fun u hu => ?_, fun u hu hb => ?_⟩
  · rcases List.mem_cons.mp hu with rfl | hu
    · exact hindex
    · exact h.index u hu
  · rcases List.mem_cons.mp hu with rfl | hu
    · exact hown hb
    · exact h.own u hu hb

theorem Inv.pmaps (h : Inv smp s) (hcore : j ∈ smp.cores) {k : ℕ} (hk : k = 0 ∨ (j ∈ smp.aps ∧ k = j))
    (hboot : booted smp s j = false) : Inv smp (storePmap smp s j k) := by
  apply h.uses
  · refine ⟨hcore, ?_⟩
    rcases hk with rfl | ⟨hj, rfl⟩
    · exact .inl (asInt_of_lt (n := 0) (by decide))
    · exact .inr (.inr ⟨hj, rfl⟩)
  · intro hc
    rw [hboot] at hc
    cases hc

theorem booted_ap (hj : j ∈ smp.aps) : booted smp s j = (s.phase j).hasCounted :=
  if_neg fun (he : j = smp.bsp) => smp.bspNotMem (he ▸ hj)

theorem Inv.core (h : Inv smp s) (hj : j ∈ smp.aps) (hs : coreStep smp j s = some s') : Inv smp s' := by
  have hrun (hw : s.phase j ≠ .waiting) := h.early j hj hw
  unfold coreStep at hs
  cases hp : s.phase j with
  | waiting =>
    rw [hp] at hs
    obtain ⟨⟨hlaunched, hfree⟩, hs⟩ := Option.ite_none_right_eq_some.mp hs
    obtain rfl := Option.some.inj hs
    have hbottleneck : s.bottleneck = false := by simpa using hfree
    exact h.goto hj rfl rfl hlaunched (.inr (.inr ⟨rfl, by rw [hp]; rfl⟩)) (fun hc => by cases hc)
      (fun _ => ⟨rfl, .inr hbottleneck⟩) (.inl ⟨by rw [hp]; rfl, rfl⟩) h.index h.own
  | locked =>
    rw [hp] at hs
    obtain rfl := Option.some.inj hs
    have hb : (s.phase j).inBottleneck = true := by rw [hp]; rfl
    exact h.goto hj rfl rfl (hrun (by simp [hp])) (.inr (.inl rfl)) .inl (fun _ => ⟨h.lock j hj hb, .inl hb⟩)
      (.inl ⟨by rw [hp]; rfl, rfl⟩) h.index h.own
  | initialising =>
    rw [hp] at hs
    obtain rfl := Option.some.inj hs
    have hboot : booted smp s j = false := by rw [booted_ap hj, hp]; rfl
    have hmem : j ∈ smp.cores := Finset.mem_insert_of_mem hj
    have huses : Inv smp (storePmap smp s j j) := h.pmaps hmem (.inr ⟨hj, rfl⟩) hboot
    have hphase : (storePmap smp s j j).phase j = .initialising := hp
    generalize storePmap smp s j j = u at huses hphase ⊢
    have hu : (u.phase j).inBottleneck = true := by rw [hphase]; rfl
    exact huses.goto hj rfl rfl (huses.early j hj (by simp [hphase])) (.inr (.inl rfl)) .inl
      (fun _ => ⟨huses.lock j hj hu, .inl hu⟩) (.inl ⟨by rw [hphase]; rfl, rfl⟩) huses.index huses.own
  | mapped =>
    rw [hp] at hs
    obtain rfl := Option.some.inj hs
    have hb : (s.phase j).inBottleneck = true := by rw [hp]; rfl
    exact h.goto hj rfl rfl (hrun (by simp [hp])) (.inl rfl) .inl (fun _ => ⟨h.lock j hj hb, .inl hb⟩)
      (.inl ⟨by rw [hp]; rfl, rfl⟩) h.index h.own
  | initialised =>
    rw [hp] at hs
    obtain rfl := Option.some.inj hs
    have hb : (s.phase j).inBottleneck = true := by rw [hp]; rfl
    exact h.goto hj rfl rfl (hrun (by simp [hp])) (.inr (.inr ⟨rfl, by rw [hp]; rfl⟩)) .inl
      (fun _ => ⟨h.lock j hj hb, .inl hb⟩) (.inr ⟨by rw [hp]; rfl, rfl, rfl⟩) h.index h.own
  | counted =>
    rw [hp] at hs
    obtain rfl := Option.some.inj hs
    have hb : (s.phase j).inBottleneck = true := by rw [hp]; rfl
    exact h.goto hj rfl rfl (hrun (by simp [hp])) (.inr (.inr ⟨rfl, by rw [hp]; rfl⟩)) (fun _ => .inr hb)
      (fun hc => by cases hc) (.inl ⟨by rw [hp]; rfl, rfl⟩) h.index h.own
  | released =>
    rw [hp] at hs
    cases hs

theorem Inv.boot (h : Inv smp s) (hs : bootStep smp s = some s') : Inv smp s' := by
  have hbsp : smp.bsp ∈ smp.cores := Finset.mem_insert_self ..
  -- before `launch_APs` is done the others wait
  have hwait (hb : s.boot.hasLaunched = false) (j : ℕ) (hj : j ∈ smp.aps) : s.phase j = .waiting := by
    by_contra hw
    have := h.early j hj hw
    rw [hb] at this
    cases this
  unfold bootStep at hs
  cases hb : s.boot with
  | starting =>
    rw [hb] at hs
    obtain rfl := Option.some.inj hs
    have hboot : booted smp s smp.bsp = false := by rw [booted, if_pos rfl, hb]; rfl
    have huses : Inv smp (storePmap smp s smp.bsp 0) := h.pmaps hbsp (.inl rfl) hboot
    refine ⟨fun _ => .inl rfl, fun j hj hw => ?_, h.lock, h.alone, h.count, fun hc => (by cases hc), huses.index,
      huses.own⟩
    exact absurd (hwait (by rw [hb]; rfl) j hj) hw
  | mapped =>
    rw [hb] at hs
    obtain rfl := Option.some.inj hs
    refine ⟨fun hc => (by cases hc), fun j hj hw => ?_, h.lock, h.alone, h.count, fun hc => (by cases hc), h.index,
      h.own⟩
    exact absurd (hwait (by rw [hb]; rfl) j hj) hw
  | launching =>
    rw [hb] at hs
    obtain rfl := Option.some.inj hs
    refine ⟨fun hst => ?_, fun _ _ _ => rfl, h.lock, h.alone, h.count, fun hc => (by cases hc), h.index, h.own⟩
    rcases h.status hst with hc | hc
    · rw [hb] at hc
      cases hc
    · exact .inr hc
  | waiting =>
    rw [hb] at hs
    obtain ⟨hall, hs⟩ := Option.ite_none_right_eq_some.mp hs
    obtain rfl := Option.some.inj hs
    have heq : counted smp s = smp.aps := by
      refine Finset.eq_of_subset_of_card_le (Finset.filter_subset ..) ?_
      have hcount := h.count
      unfold SmpTable.cpuCount at hall
      omega
    refine ⟨fun hst => ?_, fun _ _ _ => rfl, h.lock, h.alone, h.count, fun _ j hj => ?_, h.index, h.own⟩
    · rcases h.status hst with hc | hc
      · rw [hb] at hc
        cases hc
      · exact .inr hc
    · have hmem : j ∈ counted smp s := heq ▸ hj
      exact (Finset.mem_filter.mp hmem).2
  | kernelMain =>
    rw [hb] at hs
    cases hs

theorem not_hasCounted {p : Phase} (h : p.clearsStatus) : p.inBottleneck ∧ p.hasCounted = false := by
  cases p <;> first | exact ⟨rfl, rfl⟩ | cases h

/-- A booted core that may use an index reads its own number, but for the time in which a later core is being
initialised. -/
theorem Inv.coreId (h : Inv smp s) {t : Table} (ht : t ∈ indexed smp s j) (hb : booted smp s j)
    (hquiet : s.phase j = .released → s.smpStatus = true ∨ j % 2 ^ 8 = 0) : s.coreId j = j % 2 ^ 8 := by
  have hown (hst : s.smpStatus = true) : s.coreId j = j % 2 ^ 8 := if_pos hst
  by_cases hj : j = smp.bsp
  · rw [booted, if_pos hj] at hb
    rw [indexed, if_pos hj] at ht
    apply hown
    by_contra hc
    rcases h.status (by simpa using hc) with hcount | ⟨k, hk, hclear⟩
    · rw [hb] at hcount
      cases hcount
    · obtain ⟨hin, hnot⟩ := not_hasCounted hclear
      have hlaunched := h.early k hk fun hw => by rw [hw] at hin; cases hin
      cases hboot : s.boot with
      | starting | mapped | launching =>
        rw [hboot] at hlaunched
        cases hlaunched
      | waiting =>
        rw [hboot] at ht
        cases ht
      | kernelMain =>
        rw [h.past hboot k hk] at hnot
        cases hnot
  · have haps : j ∈ smp.aps := by
      by_contra hno
      rw [indexed, if_neg hj, if_neg hno] at ht
      cases ht
    rw [booted_ap haps] at hb
    cases hp : s.phase j with
    | waiting | locked | initialising | mapped | initialised =>
      rw [hp] at hb
      cases hb
    | counted =>
      apply hown
      by_contra hc
      rcases h.status (by simpa using hc) with hcount | ⟨k, hk, hclear⟩
      · have hlaunched := h.early j haps (by simp [hp])
        cases hboot : s.boot <;> rw [hboot] at hcount hlaunched <;> cases hcount <;> cases hlaunched
      · -- both would be in the bottleneck
        obtain ⟨hin, hnot⟩ := not_hasCounted hclear
        have hkj := h.alone k hk j haps hin (by rw [hp]; rfl)
        rw [hkj, hp] at hnot
        cases hnot
    | released =>
      rcases hquiet hp with hst | hz
      · exact hown hst
      · rw [State.coreId, hz]
        exact ite_self 0

theorem core_of_indexed {t : Table} (ht : t ∈ indexed smp s j) : j ∈ smp.cores := by
  rw [indexed] at ht
  split at ht
  case isTrue hj => exact hj ▸ Finset.mem_insert_self ..
  case isFalse =>
    split at ht
    case isTrue hj => exact Finset.mem_insert_of_mem hj
    case isFalse => cases ht

theorem inv_step {a : Action} (h : Inv smp s) (hs : UndisturbedStep smp s a s') : Inv smp s' := by
  obtain ⟨hstep, hquiet⟩ := hs
  cases a with
  | boot => exact h.boot hstep
  | core j =>
    obtain ⟨hj, hcore⟩ := Option.ite_none_right_eq_some.mp hstep
    exact h.core hj hcore
  | index j t =>
    obtain ⟨ht, hs⟩ := Option.ite_none_right_eq_some.mp hstep
    obtain rfl := Option.some.inj hs
    have hcore := core_of_indexed ht
    refine h.uses ⟨hcore, ?_⟩ fun hb => ?_
    · by_cases hst : s.smpStatus = true
      · exact .inr (.inl (congrArg _ (if_pos hst)))
      · exact .inl (congrArg _ (if_neg hst))
    · exact congrArg _ (h.coreId ht hb hquiet)

theorem Inv.separate (h : Inv smp s) (hsmp : Contiguous smp) : Separate smp s := by
  have hmax := smp.cpuCountLe
  obtain ⟨haps, -, -⟩ := hsmp.ids
  refine ⟨fun u hu => ?_, fun u hu v hv hbu hbv hne => ?_, fun hb i hi => ?_⟩
  · obtain ⟨hcore, hindex⟩ := h.index u hu
    have hlt := hsmp.core_lt hcore
    unfold SmpTable.cpuCount at hlt
    rcases hindex with he | he | ⟨hap, he⟩
    · rw [he]
      exact ⟨le_rfl, by decide⟩
    · omega
    · have hid := haps u.core hap
      unfold SmpTable.cpuCount at hid
      unfold maxCore at hmax
      rw [he, asInt_of_lt (by omega)]
      unfold maxCore
      omega
  · rw [h.own u hu hbu, h.own v hv hbv]
    exact_mod_cast hsmp.core_inj (h.index u hu).1 (h.index v hv).1 hne
  · have hst : s.smpStatus = true := by
      by_contra hc
      rcases h.status (by simpa using hc) with hcount | ⟨k, hk, hclear⟩
      · rw [hb] at hcount
        cases hcount
      · have hnot := (not_hasCounted hclear).2
        rw [h.past hb k hk] at hnot
        cases hnot
    rcases hsmp i hi with hm | rfl
    · have hlt := haps i hm
      unfold SmpTable.cpuCount at hlt
      unfold maxCore at hmax
      refine ⟨i, Finset.mem_insert_of_mem hm, (booted_ap hm).trans (h.past hb i hm), ?_⟩
      rw [State.coreId, if_pos hst]
      omega
    · refine ⟨smp.bsp, Finset.mem_insert_self .., ?_, if_pos hst⟩
      rw [booted, if_pos rfl, hb]
      rfl

end Invariant

/-- With contiguous ids, and no core out of the bottleneck that reads `COREID` while another one is being
initialised, the cores keep to their own entries of the tables. -/
theorem tables_separate {smp : SmpTable} (hsmp : Contiguous smp) {h : List Action} {s : State}
    (hrun : Run (UndisturbedStep smp) start h s) : Separate smp s := by
  have hinv := hrun.invariant (fun _ s => Inv smp s) inv_start fun _ _ _ _ hi hs => inv_step hi hs
  exact hinv.separate hsmp

/-- A boot processor with id 0 and one application processor with id 1. -/
def pair : SmpTable where
  aps := {1}
  bsp := 0
  bspNotMem := CoreLaunch.pair.bspNotMem
  idLt := by decide
  cpuCountLe := by decide

def bootAll : List Action := List.replicate 3 .boot ++ List.replicate 6 (.core 1) ++ [.boot]

/-- Both cores index their own entries after the boot. -/
def pairRun : List Action := bootAll ++ [.index 1 .launchingAddresses, .index 0 .programs]

theorem tables_separate_pair : ∃ s, Run (UndisturbedStep pair) start pairRun s ∧ s.boot = .kernelMain ∧
    Separate pair s := by
  have hsmp : Contiguous pair := fun i hi => by
    have hlt : i < 2 := hi
    obtain rfl | rfl : i = 0 ∨ i = 1 := by omega
    · exact .inr (by decide)
    · exact .inl (by decide)
  let next := fun s a => if Undisturbed s a then step pair s a else none
  cases he : exec next start pairRun with
  | none => exact absurd (congrArg Option.isSome he) (by decide +kernel)
  | some s =>
    have hb : (exec next start pairRun).map State.boot = some .kernelMain := by decide +kernel
    rw [he] at hb
    have hrun : Run (UndisturbedStep pair) start pairRun s := (run_of_exec next he).mono fun s a s' hs =>
      let ⟨hquiet, hstep⟩ := Option.ite_none_right_eq_some.mp hs
      ⟨hstep, hquiet⟩
    exact ⟨s, hrun, Option.some.inj hb, tables_separate hsmp hrun⟩

/-- A boot processor with id 0 and three application processors. -/
def quad : SmpTable where
  aps := {1, 2, 3}
  bsp := 0
  bspNotMem := by decide
  idLt := by decide
  cpuCountLe := by decide

/-- The first two look for their mailboxes while the third one is being initialised. -/
def disturbed : List Action :=
  List.replicate 3 .boot ++ List.replicate 6 (.core 1) ++ List.replicate 6 (.core 2) ++ List.replicate 2 (.core 3) ++
    [.index 1 .launchingAddresses, .index 2 .launchingAddresses]

/-- A boot processor with id 0 and one application processor with id 40. -/
def sparse : SmpTable where
  aps := {40}
  bsp := 0
  bspNotMem := by decide
  idLt := by decide
  cpuCountLe := by decide

/-- The application processor stores its page directory. -/
def overrun : List Action := List.replicate 3 .boot ++ List.replicate 3 (.core 40)

/-- Booted cores share a mailbox, and an id from 32 on is an index out of the table. -/
theorem tables_shared :
    (¬ ∀ h s, Run (fun s a s' => step quad s a = some s') start h s → Separate quad s) ∧
      ¬ ∀ h s, Run (fun s a s' => step sparse s a = some s') start h s → Separate sparse s := by
  constructor
  · intro hall
    cases he : exec (step quad) start disturbed with
    | none => exact absurd (congrArg Option.isSome he) (by decide +kernel)
    | some s =>
      have huses : (exec (step quad) start disturbed).map (fun s => s.uses.take 2) =
          some [⟨2, .launchingAddresses, 0, true⟩, ⟨1, .launchingAddresses, 0, true⟩] := by decide +kernel
      rw [he] at huses
      have huse {u : Use} (hu : u ∈ [⟨2, .launchingAddresses, 0, true⟩, ⟨1, .launchingAddresses, 0, true⟩]) :
          u ∈ s.uses := List.mem_of_mem_take (Option.some.inj huses ▸ hu)
      have hsep := hall disturbed s (run_of_exec _ he)
      exact hsep.distinct _ (huse (.head _)) _ (huse (.tail _ (.head _))) rfl rfl (by decide) rfl
  · intro hall
    cases he : exec (step sparse) start overrun with
    | none => exact absurd (congrArg Option.isSome he) (by decide +kernel)
    | some s =>
      have huses : (exec (step sparse) start overrun).map (fun s => s.uses.take 1) =
          some [⟨40, .pmaps, 40, false⟩] := by decide +kernel
      rw [he] at huses
      have hu : ⟨40, .pmaps, 40, false⟩ ∈ s.uses :=
        List.mem_of_mem_take (Option.some.inj huses ▸ List.mem_singleton_self _)
      have hsep := hall overrun s (run_of_exec _ he)
      exact absurd (hsep.bounded _ hu).2 (by decide)

end Raccoon.CoreIds
