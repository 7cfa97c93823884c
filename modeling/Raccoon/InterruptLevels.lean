import Raccoon.InterruptLock
import Raccoon.Runs
import Mathlib.Data.List.DropRight

/-!
`set_ints`, calls of the lock on several cores in any order, and what the
assertions of the lock do when it is misused: their message takes it again.
-/

namespace Raccoon.InterruptLock

open DyckStep Runs

inductive Call where
  | lock
  | unlock
  | set (intLevel : Fin 256)
deriving DecidableEq

section Code

def setInts (core intLevel : ℕ) (s : Ints) : Ints :=
  let s := setLevel core intLevel s
  if s.lockLevel core = 0 then enableInts core s else disableInts core s

def perform (core : ℕ) (s : Ints) : Call → Except Stop Ints
  | .lock => lockInts core s
  | .unlock => unlockInts core s
  | .set intLevel => .ok (setInts core intLevel s)

/-- What `lock_ints` does below level 255. -/
def acquire (core : ℕ) (s : Ints) : Ints :=
  let s := setLevel core (s.lockLevel core + 1) s
  if s.lockLevel core = 1 then disableInts core s else s

/-- The calls with the ones that their assertions make, at most `depth` of them within one another. The lock of
the printer comes free, and printing changes neither level nor flag. -/
def nested (core : ℕ) : ℕ → DyckStep → Ints → Except Stop Ints
  | 0, _, _ => .error .recursion
  | depth + 1, c, s =>
    -- `LOG_PANIC(__FALSE); disable_ints(); halt();`
    let fails : Except Stop Ints := do
      let s ← nested core depth U s
      let s ← nested core depth D s
      .error (.halted (disableInts core s))
    match c with
    | U => if s.lockLevel core ≠ 255 then .ok (acquire core s) else fails
    | D => if s.lockLevel core ≠ 0 then .ok (release core s) else fails

end Code

section Agreement

/-- The call is not one that an assertion of the lock stops. -/
def Proper (core : ℕ) (s : Ints) : Call → Prop
  | .lock => s.lockLevel core ≠ 255
  | .unlock => s.lockLevel core ≠ 0
  | .set _ => True

inductive Step (n : ℕ) (s : Ints) : ℕ × Call → Ints → Prop
  | call {core : ℕ} {c : Call} {s' : Ints} : core < n → Proper core s c → perform core s c = .ok s' →
      Step n s (core, c) s'

def callsOn (core : ℕ) (h : List (ℕ × Call)) : List Call := (h.filter fun e => e.1 = core).map Prod.snd

def Call.isSet : Call → Bool
  | .set _ => true
  | _ => false

def since (calls : List Call) : List Call := calls.rtakeWhile fun c => !c.isSet

/-- The value of the last `set_ints`, or the level at the start. -/
def lastSet (calls : List Call) : ℕ :=
  match (calls.rdropWhile fun c => !c.isSet).getLast? with
  | some (.set intLevel) => intLevel
  | _ => 0

def levelAfter (calls : List Call) : ℤ :=
  lastSet calls + (since calls).count .lock - (since calls).count .unlock

variable {core n : ℕ} {s s' s₀ : Ints} {c : Call} {calls : List Call} {h : List (ℕ × Call)}

def nextLevel (level : ℕ) : Call → ℕ
  | .lock => level + 1
  | .unlock => level - 1
  | .set intLevel => intLevel

def nextFlag (level : ℕ) (flag : Bool) : Call → Bool
  | .lock => level ≠ 0 && flag
  | .unlock => level = 1 || flag
  | .set intLevel => (intLevel : ℕ) = 0

theorem setInts_eq (intLevel : ℕ) : setInts core intLevel s = withCore core intLevel (intLevel = 0) s := by
  by_cases hz : intLevel = 0
  · simp [setInts, withCore, setLevel, enableInts, hz]
  · simp [setInts, withCore, setLevel, disableInts, hz]

theorem perform_proper (h : Proper core s c) : perform core s c =
    .ok (withCore core (nextLevel (s.lockLevel core) c) (nextFlag (s.lockLevel core) (s.enabled core) c) s) := by
  cases c with
  | lock =>
    have hl : lockInts core (withCore core _ (s.enabled core) s) = _ := lockInts_withCore h
    rwa [withCore_self] at hl
  | unlock =>
    have hu : unlockInts core (withCore core _ (s.enabled core) s) = _ := unlockInts_withCore h
    rwa [withCore_self] at hu
  | set intLevel => rw [perform, setInts_eq]; rfl

theorem levelAfter_lock : levelAfter (calls ++ [.lock]) = levelAfter calls + 1 := by
  simp [levelAfter, lastSet, since, Call.isSet]
  omega

theorem levelAfter_unlock : levelAfter (calls ++ [.unlock]) = levelAfter calls - 1 := by
  simp [levelAfter, lastSet, since, Call.isSet]
  omega

theorem levelAfter_set (intLevel : Fin 256) : levelAfter (calls ++ [.set intLevel]) = (intLevel : ℕ) := by
  simp [levelAfter, lastSet, since, Call.isSet]

theorem callsOn_self : callsOn core (h ++ [(core, c)]) = callsOn core h ++ [c] := by simp [callsOn]

theorem callsOn_other {other : ℕ} (hne : core ≠ other) : callsOn other (h ++ [(core, c)]) = callsOn other h := by
  simp [callsOn, hne]

structure Agrees (core : ℕ) (calls : List Call) (s : Ints) : Prop where
  flag : s.enabled core = true ↔ s.lockLevel core = 0
  level : (s.lockLevel core : ℤ) = levelAfter calls
  byte : s.lockLevel core < 256

theorem Agrees.next (ha : Agrees core calls s) (hproper : Proper core s c) :
    Agrees core (calls ++ [c])
      (withCore core (nextLevel (s.lockLevel core) c) (nextFlag (s.lockLevel core) (s.enabled core) c) s) := by
  obtain ⟨hflag, hlevel, hbyte⟩ := ha
  cases c with
  | lock =>
    have hne : s.lockLevel core ≠ 255 := hproper
    constructor
    · simp only [withCore, nextFlag, nextLevel, Function.update_self, Bool.and_eq_true, hflag]
      simp
    · simp only [withCore, nextLevel, Function.update_self, levelAfter_lock]
      omega
    · simp only [withCore, nextLevel, Function.update_self]
      omega
  | unlock =>
    have hne : s.lockLevel core ≠ 0 := hproper
    constructor
    · simp only [withCore, nextFlag, nextLevel, Function.update_self, Bool.or_eq_true, hflag, decide_eq_true_eq]
      omega
    · simp only [withCore, nextLevel, Function.update_self, levelAfter_unlock]
      omega
    · simp only [withCore, nextLevel, Function.update_self]
      omega
  | set intLevel =>
    constructor
    · simp [withCore, nextFlag, nextLevel]
    · simp only [withCore, nextLevel, Function.update_self, levelAfter_set]
    · simp only [withCore, nextLevel, Function.update_self]
      exact intLevel.isLt

theorem Agrees.other {other level : ℕ} {flag : Bool} (ha : Agrees other calls s) (hne : other ≠ core) :
    Agrees other calls (withCore core level flag s) := by
  obtain ⟨hflag, hlevel, hbyte⟩ := ha
  constructor <;> simp only [withCore, Function.update_of_ne hne]
  exacts [hflag, hlevel, hbyte]

theorem agrees_run (hstart : ∀ core < n, s₀.lockLevel core = 0 ∧ s₀.enabled core = true)
    (hrun : Run (Step n) s₀ h s) : ∀ core < n, Agrees core (callsOn core h) s := by
  refine hrun.invariant (fun h s => ∀ core < n, Agrees core (callsOn core h) s) ?_ ?_
  · intro core hcore
    obtain ⟨hlevel, hflag⟩ := hstart core hcore
    exact ⟨by simp [hlevel, hflag], by rw [hlevel]; rfl, by rw [hlevel]; decide⟩
  · rintro h s ⟨core, c⟩ s' hinv ⟨hcore, hproper, hs'⟩ other hother
    rw [perform_proper hproper] at hs'
    obtain rfl := Except.ok.inj hs'
    by_cases he : core = other
    · subst he
      rw [callsOn_self]
      exact (hinv core hcore).next hproper
    · rw [callsOn_other he]
      exact (hinv other hother).other (Ne.symm he)

/-- After any call in a run without misuse, the flag of the core agrees with its level, the level is what the
calls on the core say, and the other cores are as they were. -/
theorem levels_agree (hstart : ∀ core < n, s₀.lockLevel core = 0 ∧ s₀.enabled core = true)
    (hrun : Run (Step n) s₀ h s) (hcore : core < n) (hproper : Proper core s c) :
    ∃ s', perform core s c = .ok s' ∧ (s'.enabled core = true ↔ s'.lockLevel core = 0) ∧
      (s'.lockLevel core : ℤ) = levelAfter (callsOn core (h ++ [(core, c)])) ∧
      ∀ other, other ≠ core → s'.lockLevel other = s.lockLevel other ∧ s'.enabled other = s.enabled other := by
  have ha := (agrees_run hstart hrun core hcore).next hproper
  refine ⟨_, perform_proper hproper, ha.flag, ?_, fun other hne => ?_⟩
  · rw [callsOn_self]
    exact ha.level
  · simp [withCore, hne]

def fresh : Ints := ⟨fun _ => 0, fun _ => true⟩

/-- The first of two cores locks twice, the second one sets its level in between. -/
def mixedCalls : List (ℕ × Call) := [(0, .lock), (1, .set 3), (0, .lock)]

theorem mixedCalls_run : ∃ s, Run (Step 2) fresh mixedCalls s ∧ s.lockLevel 0 = 2 ∧ s.lockLevel 1 = 3 := by
  have hfirst : Run (Step 2) fresh [(0, .lock)] _ := .snoc [] _ _ _ .nil (.call (by decide) (by simp [Proper, fresh]) rfl)
  have hset : Run (Step 2) fresh [(0, .lock), (1, .set 3)] _ := .snoc _ _ _ _ hfirst (.call (by decide) trivial rfl)
  refine ⟨_, .snoc _ _ _ _ hset (.call (by decide) ?_ rfl), ?_⟩
  · simp [Proper, fresh, setInts, setLevel, disableInts]
  · simp [fresh, setInts, setLevel, disableInts]

theorem levels_agree_mixed : ∃ s s', Run (Step 2) fresh mixedCalls s ∧ perform 0 s .unlock = .ok s' ∧
    s'.lockLevel 0 = 1 ∧ s'.enabled 0 = false ∧ s'.lockLevel 1 = 3 := by
  obtain ⟨s, hrun, hzero, hone⟩ := mixedCalls_run
  have hproper : Proper 0 s .unlock := by simp [Proper, hzero]
  obtain ⟨s', hs', hflag, hlevel, hothers⟩ := levels_agree (by simp [fresh]) hrun (by decide) hproper
  have hafter : levelAfter (callsOn 0 (mixedCalls ++ [(0, .unlock)])) = 1 := by decide
  rw [hafter] at hlevel
  have hl : s'.lockLevel 0 = 1 := by omega
  refine ⟨s, s', hrun, hs', hl, ?_, ?_⟩
  · rw [hl] at hflag
    simpa using hflag
  · rw [(hothers 1 (by decide)).1, hone]

end Agreement

section Misuse

variable {core depth : ℕ} {s : Ints} {c : DyckStep}

/-- `lock_ints` at level 255 and `unlock_ints` at level 0. -/
def Misused (core : ℕ) (s : Ints) : DyckStep → Prop
  | U => s.lockLevel core = 255
  | D => s.lockLevel core = 0

/-- After finitely many nested calls the core halts, with interrupts disabled and at the level it had. -/
def StopsCleanly (core : ℕ) (s : Ints) (c : DyckStep) : Prop :=
  ∃ depth s', nested core depth c s = .error (.halted s') ∧ s'.enabled core = false ∧
    s'.lockLevel core = s.lockLevel core

theorem nested_lock (h : s.lockLevel core ≠ 255) : nested core (depth + 1) U s = .ok (acquire core s) := by
  rw [nested]
  exact if_pos h

theorem nested_unlock (h : s.lockLevel core ≠ 0) : nested core (depth + 1) D s = .ok (release core s) := by
  rw [nested]
  exact if_pos h

/-- The message of the assertion calls `lock_ints` at the same level. -/
theorem nested_top (h : s.lockLevel core = 255) : nested core depth U s = .error .recursion := by
  induction depth with
  | zero => rfl
  | succ depth ih =>
    rw [nested, ih]
    exact if_neg (by simpa using h)

theorem acquire_level : (acquire core s).lockLevel core = s.lockLevel core + 1 := by
  by_cases hz : s.lockLevel core = 0 <;> simp [acquire, setLevel, disableInts, hz]

/-- Two calls within one another are all that a call ever makes, unless it never returns. -/
theorem nested_eq_call (core depth : ℕ) (c : DyckStep) (s : Ints) :
    nested core (depth + 2) c s = call core s c := by
  cases c with
  | U =>
    by_cases h : s.lockLevel core = 255
    · rw [nested_top h]
      simp [call, lockInts, h]
    · rw [nested_lock h]
      simp [call, lockInts, acquire, h]
  | D =>
    by_cases h : s.lockLevel core = 0
    · have hlock : s.lockLevel core ≠ 255 := by omega
      have hone : (acquire core s).lockLevel core ≠ 0 := by
        rw [acquire_level]
        omega
      rw [nested, nested_lock hlock]
      simp only [bind, Except.bind, nested_unlock hone]
      simp [call, unlockInts, lockInts, acquire, h, bind, Except.bind]
    · rw [nested_unlock h]
      simp [call, unlockInts, h]

/-- The misuse that stops the core cleanly is `unlock_ints` at level 0. -/
theorem stopsCleanly_iff (h : Misused core s c) : StopsCleanly core s c ↔ c = D := by
  cases c with
  | U =>
    refine iff_of_false ?_ (by decide)
    rintro ⟨depth, s', hrun, -⟩
    rw [nested_top h] at hrun
    cases hrun
  | D =>
    have hzero : s.lockLevel core = 0 := h
    refine iff_of_true ⟨2, disableInts core (release core (acquire core s)), ?_, ?_⟩ rfl
    · rw [nested_eq_call]
      simp [call, unlockInts, lockInts, acquire, hzero, bind, Except.bind]
    · simp [release, acquire, setLevel, disableInts, enableInts, hzero]

theorem stopsCleanly_unlock : StopsCleanly 0 boot D := by
  have hmisused : Misused 0 boot D := rfl
  exact (stopsCleanly_iff hmisused).mpr rfl

/-- A core that has locked as often as the level can count. -/
def deepest : Ints := ⟨fun _ => 255, fun _ => false⟩

theorem deepest_never_halts : ¬ ∀ (core : ℕ) (s : Ints) (c : DyckStep), Misused core s c → StopsCleanly core s c := by
  intro h
  obtain ⟨depth, s', hrun, -⟩ := h 0 deepest U rfl
  rw [nested_top rfl] at hrun
  cases hrun

end Misuse

end Raccoon.InterruptLock
