import Mathlib.Combinatorics.Enumerative.DyckWord

/-!
The interrupt lock: a level for each core, and nothing that remembers whether
interrupts were enabled when the level left zero. Balanced uses of the lock are
Dyck words, `U` for `lock_ints` and `D` for `unlock_ints`.
-/

namespace Raccoon.InterruptLock

open DyckStep

structure Ints where
  lockLevel : ℕ → ℕ
  enabled : ℕ → Bool

/-- How a call fails to return. -/
inductive Stop where
  | halted (s : Ints)
  | recursion

section Code

def enableInts (core : ℕ) (s : Ints) : Ints := { s with enabled := Function.update s.enabled core true }

def disableInts (core : ℕ) (s : Ints) : Ints := { s with enabled := Function.update s.enabled core false }

def setLevel (core level : ℕ) (s : Ints) : Ints := { s with lockLevel := Function.update s.lockLevel core level }

/-- At level 255 the assertion logs a panic message, which calls `lock_ints` again at level 255. -/
def lockInts (core : ℕ) (s : Ints) : Except Stop Ints :=
  if s.lockLevel core ≠ 255 then
    let s := setLevel core (s.lockLevel core + 1) s
    .ok (if s.lockLevel core = 1 then disableInts core s else s)
  else .error .recursion

/-- `if(!(--(lock_level[COREID]))) enable_ints();` -/
def release (core : ℕ) (s : Ints) : Ints :=
  let s := setLevel core (s.lockLevel core - 1) s
  if s.lockLevel core = 0 then enableInts core s else s

/-- At level 0 the assertion logs a panic message, disables the interrupts and halts. -/
def unlockInts (core : ℕ) (s : Ints) : Except Stop Ints :=
  if s.lockLevel core ≠ 0 then .ok (release core s)
  else do
    let s ← lockInts core s
    .error (.halted (disableInts core (release core s)))

def call (core : ℕ) (s : Ints) : DyckStep → Except Stop Ints
  | U => lockInts core s
  | D => unlockInts core s

def run (core : ℕ) (s : Ints) (calls : List DyckStep) : Except Stop Ints := calls.foldlM (call core) s

end Code

variable {core : ℕ} {s s' : Ints} {calls : List DyckStep}

/-- The level does not rise above 255. -/
def Shallow (level : ℕ) (calls : List DyckStep) : Prop :=
  ∀ i, level + (calls.take i).count U ≤ 255 + (calls.take i).count D

def Balanced (calls : List DyckStep) : Prop := ∀ i, (calls.take i).count D ≤ (calls.take i).count U

theorem forall_take_append {P : List DyckStep → Prop} {x : DyckStep} :
    (∀ i, P ((calls ++ [x]).take i)) ↔ (∀ i, P (calls.take i)) ∧ P (calls ++ [x]) := by
  constructor
  · intro h
    refine ⟨fun i => ?_, ?_⟩
    · by_cases hi : i ≤ calls.length
      · have ht := h i
        rwa [List.take_append_of_le_length hi] at ht
      · have ht := h calls.length
        rw [List.take_append_of_le_length le_rfl, List.take_length] at ht
        rwa [List.take_of_length_le (by omega)]
    · have ht := h (calls.length + 1)
      rwa [List.take_of_length_le (by simp)] at ht
  · rintro ⟨h, hlast⟩ i
    by_cases hi : i ≤ calls.length
    · rw [List.take_append_of_le_length hi]
      exact h i
    · rw [List.take_of_length_le (by simp; omega)]
      exact hlast

/-- The state with another level and flag of one core. -/
def withCore (core level : ℕ) (flag : Bool) (s : Ints) : Ints :=
  ⟨Function.update s.lockLevel core level, Function.update s.enabled core flag⟩

theorem withCore_self : withCore core (s.lockLevel core) (s.enabled core) s = s := by
  rw [withCore, Function.update_eq_self, Function.update_eq_self]

theorem lockInts_withCore {level : ℕ} {flag : Bool} (h : level ≠ 255) :
    lockInts core (withCore core level flag s) = .ok (withCore core (level + 1) (level ≠ 0 && flag) s) := by
  by_cases hz : level = 0
  · simp [lockInts, withCore, setLevel, disableInts, hz]
  · simp [lockInts, withCore, setLevel, h, hz]

theorem unlockInts_withCore {level : ℕ} {flag : Bool} (h : level ≠ 0) :
    unlockInts core (withCore core level flag s) = .ok (withCore core (level - 1) (level = 1 || flag) s) := by
  by_cases ho : level = 1
  · simp [unlockInts, release, withCore, setLevel, enableInts, ho]
  · have hs : level - 1 ≠ 0 := by omega
    simp [unlockInts, release, withCore, setLevel, h, ho, hs]

theorem run_append {x : DyckStep} : run core s (calls ++ [x]) = (run core s calls).bind fun s' => call core s' x := by
  rw [run, List.foldlM_append]
  simp only [List.foldlM_cons, List.foldlM_nil, bind_pure]
  rfl

/-- The flag after some calls from a level: it is lost when the level leaves zero. -/
def flagAfter (level : ℕ) (flag : Bool) (calls : List DyckStep) : Bool :=
  if 0 < level ∨ calls = [] then flag else decide (calls.count U = calls.count D)

theorem balanced_append {x : DyckStep} :
    Balanced (calls ++ [x]) ↔ Balanced calls ∧ (calls ++ [x]).count D ≤ (calls ++ [x]).count U :=
  forall_take_append (P := fun l => l.count D ≤ l.count U)

theorem shallow_append {level : ℕ} {x : DyckStep} :
    Shallow level (calls ++ [x]) ↔
      Shallow level calls ∧ level + (calls ++ [x]).count U ≤ 255 + (calls ++ [x]).count D :=
  forall_take_append (P := fun l => level + l.count U ≤ 255 + l.count D)

theorem Balanced.le (h : Balanced calls) : calls.count D ≤ calls.count U := by
  have hle := h calls.length
  rwa [List.take_length] at hle

theorem count_lock : (calls ++ [U]).count U = calls.count U + 1 ∧ (calls ++ [U]).count D = calls.count D := by
  simp [List.count_append]

theorem count_unlock : (calls ++ [D]).count U = calls.count U ∧ (calls ++ [D]).count D = calls.count D + 1 := by
  simp [List.count_append]

theorem flagAfter_lock {level : ℕ} {flag : Bool} (h : Balanced calls) :
    flagAfter level flag (calls ++ [U]) =
      (level + calls.count U - calls.count D ≠ 0 && flagAfter level flag calls) := by
  have hle := h.le
  by_cases hl : 0 < level
  · have hpos : level + calls.count U - calls.count D ≠ 0 := by omega
    simp [flagAfter, hl, hpos]
  · obtain rfl : level = 0 := by omega
    have hne : calls.count U + 1 ≠ calls.count D := by omega
    by_cases hz : calls = []
    · subst hz
      simp [flagAfter]
    · simp only [flagAfter, lt_self_iff_false, false_or, hz, List.append_eq_nil_iff, List.cons_ne_self, and_self,
        if_false, count_lock.1, count_lock.2, hne, decide_false, Nat.zero_add]
      by_cases he : calls.count U = calls.count D
      · simp [he]
      · simp [he]

theorem flagAfter_unlock {level : ℕ} {flag : Bool} (h : Balanced (calls ++ [D])) :
    flagAfter level flag (calls ++ [D]) =
      (level + calls.count U - calls.count D = 1 || flagAfter level flag calls) := by
  have hle := h.le
  rw [count_unlock.1, count_unlock.2] at hle
  by_cases hl : 0 < level
  · have hne : level + calls.count U - calls.count D ≠ 1 := by omega
    simp [flagAfter, hl, hne]
  · obtain rfl : level = 0 := by omega
    have hz : calls ≠ [] := by
      rintro rfl
      simp at hle
    have hne : calls.count U ≠ calls.count D := by omega
    have hiff : calls.count U = calls.count D + 1 ↔ calls.count U - calls.count D = 1 := by omega
    simp [flagAfter, hz, hne, hiff]

theorem run_shallow {level : ℕ} {flag : Bool} (hb : Balanced calls) (h : Shallow level calls) :
    run core (withCore core level flag s) calls =
      .ok (withCore core (level + calls.count U - calls.count D) (flagAfter level flag calls) s) := by
  induction calls using List.reverseRecOn with
  | nil =>
    rw [flagAfter, if_pos (.inr rfl)]
    rfl
  | append_singleton calls x ih =>
    obtain ⟨hb', hlast⟩ := balanced_append.mp hb
    obtain ⟨h', hmax⟩ := shallow_append.mp h
    have hle := hb'.le
    rw [run_append, ih hb' h', Except.bind]
    cases x with
    | U =>
      rw [count_lock.1, count_lock.2] at hmax ⊢
      rw [call, lockInts_withCore (by omega), flagAfter_lock hb']
      congr 2
      omega
    | D =>
      rw [count_unlock.1, count_unlock.2] at hlast ⊢
      rw [call, unlockInts_withCore (by omega), flagAfter_unlock hb]
      rfl

theorem shallow_of_run {level : ℕ} {flag : Bool} (hb : Balanced calls) (hlevel : level ≤ 255)
    (h : run core (withCore core level flag s) calls = .ok s') : Shallow level calls := by
  induction calls using List.reverseRecOn generalizing s' with
  | nil =>
    intro i
    simpa using hlevel
  | append_singleton calls x ih =>
    obtain ⟨hb', -⟩ := balanced_append.mp hb
    rw [run_append] at h
    cases hr : run core (withCore core level flag s) calls with
    | error e =>
      rw [hr] at h
      cases h
    | ok t =>
      have hs := ih hb' hr
      apply shallow_append.mpr
      refine ⟨hs, ?_⟩
      have hle := hb'.le
      have hmax := hs calls.length
      rw [List.take_length] at hmax
      cases x with
      | U =>
        rw [run_shallow hb' hs] at h
        rw [count_lock.1, count_lock.2]
        by_contra hc
        have htop : level + calls.count U - calls.count D = 255 := by omega
        rw [htop] at h
        simp [Except.bind, call, lockInts, withCore] at h
      | D =>
        rw [count_unlock.1, count_unlock.2]
        omega

/-- A balanced sequence leaves a core as it was exactly if it is not nested too deeply and does not take
the level from 0 while interrupts are disabled. -/
theorem balanced_transparent_iff (calls : DyckWord) (hlevel : s.lockLevel core < 255) :
    (∃ s', run core s calls.toList = .ok s' ∧ s'.lockLevel core = s.lockLevel core ∧
      s'.enabled core = s.enabled core) ↔
    Shallow (s.lockLevel core) calls.toList ∧ (calls = 0 ∨ 0 < s.lockLevel core ∨ s.enabled core = true) := by
  have hb : Balanced calls.toList := calls.count_D_le_count_U
  have heq : calls.toList.count U = calls.toList.count D := calls.count_U_eq_count_D
  have hnil : calls.toList = [] ↔ calls = 0 := DyckWord.toList_eq_nil
  have hrun (h : Shallow (s.lockLevel core) calls.toList) : run core s calls.toList =
      .ok (withCore core (s.lockLevel core) (flagAfter (s.lockLevel core) (s.enabled core) calls.toList) s) := by
    have hr : run core (withCore core _ (s.enabled core) s) _ = _ := run_shallow hb h
    rwa [withCore_self, heq, Nat.add_sub_cancel] at hr
  have hflag : flagAfter (s.lockLevel core) (s.enabled core) calls.toList = s.enabled core ↔
      calls = 0 ∨ 0 < s.lockLevel core ∨ s.enabled core = true := by
    by_cases hz : calls.toList = []
    · exact iff_of_true (if_pos (.inr hz)) (.inl (hnil.mp hz))
    · have hne : calls ≠ 0 := fun h => hz (hnil.mpr h)
      by_cases hp : 0 < s.lockLevel core
      · exact iff_of_true (if_pos (.inl hp)) (.inr (.inl hp))
      · rw [flagAfter, if_neg (by simp [hp, hz]), decide_eq_true heq]
        simp only [hne, hp, false_or, eq_comm]
  constructor
  · rintro ⟨s', hs', -, hsame⟩
    have hshallow : Shallow (s.lockLevel core) calls.toList := by
      rw [← withCore_self (s := s)] at hs'
      exact shallow_of_run hb hlevel.le hs'
    rw [hrun hshallow] at hs'
    obtain rfl := Except.ok.inj hs'
    have hsame : flagAfter (s.lockLevel core) (s.enabled core) calls.toList = s.enabled core := by
      simpa [withCore] using hsame
    exact ⟨hshallow, hflag.mp hsame⟩
  · rintro ⟨hshallow, hkept⟩
    refine ⟨_, hrun hshallow, ?_, ?_⟩
    · simp [withCore]
    · simpa [withCore] using hflag.mpr hkept

/-- A single log message. -/
def message : DyckWord := DyckWord.nest 0

/-- Interrupts as they are when the boot code starts. -/
def boot : Ints := ⟨fun _ => 0, fun _ => false⟩

theorem balanced_transparent_message : ∃ s', run 0 ⟨fun _ => 0, fun _ => true⟩ message.toList = .ok s' ∧
    s'.lockLevel 0 = 0 ∧ s'.enabled 0 = true := by
  apply (balanced_transparent_iff message (by decide)).mpr
  refine ⟨?_, .inr (.inr rfl)⟩
  have hrun : run 0 (withCore 0 0 true ⟨fun _ => 0, fun _ => true⟩) message.toList = .ok _ := rfl
  exact shallow_of_run message.count_D_le_count_U (by decide) hrun

theorem boot_message_enables : ¬ ∀ (core : ℕ) (s : Ints) (calls : DyckWord), s.lockLevel core < 255 →
    ∃ s', run core s calls.toList = .ok s' ∧ s'.lockLevel core = s.lockLevel core ∧
      s'.enabled core = s.enabled core := by
  intro h
  obtain ⟨s', hs', -, hflag⟩ := h 0 boot message (by decide)
  obtain rfl := Except.ok.inj hs'
  exact absurd hflag (by decide)

end Raccoon.InterruptLock
