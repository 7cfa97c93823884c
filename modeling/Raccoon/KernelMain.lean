import Raccoon.CStrings
import Raccoon.Loops
import Raccoon.CoreLaunch
import Raccoon.Printing

/-!
The launch loop of `kernel_main`. Where it finds the program of a core on a
lower-numbered one, it is the boot core itself that goes off to run it. The
programs are named in messages, and a long name does not fit their buffer; the
messages that hold numbers only always do and are left out.
-/

namespace Raccoon.KernelMain

open Loops Outcome CoreLaunch Printing

/-- `strcmp` of `string.c`. -/
def strcmp : List Char → List Char → Bool
  | a :: as, b :: bs => if a = b then strcmp as bs else true
  | [], [] => false
  | _, _ => true

theorem strcmp_eq_false {as bs : List Char} : strcmp as bs = false ↔ as = bs := by
  induction as generalizing bs with
  | nil => cases bs <;> simp [strcmp]
  | cons a as ih =>
    cases bs with
    | nil => simp [strcmp]
    | cons b bs =>
      by_cases h : a = b
      · simp [strcmp, h, ih]
      · simp [strcmp, h]

/-- The table that `parse_init` returns, with the strings that its pointers lead to. -/
structure Init where
  requiredCores : ℕ
  programs : ℕ → Option CString

def hang : CString := ⟨"HANG".toList, by decide⟩

/-- What the boot core has done: the cores it has looked at, and those it has stored `entry_launch` for. -/
structure Launches where
  visited : List ℕ
  launched : List ℕ
deriving DecidableEq

/-- How the boot core leaves `kernel_main`: it waits for the entry point of core `y` and jumps there in
the mapping of `y`, it runs `entry_launch`, it halts, or it reads a program that is not there. -/
inductive Leave where
  | join (y : ℕ)
  | entryLaunch
  | halt
  | noProgram (k : ℕ)
  | panic
deriving DecidableEq

/-- The buffer of a message has been left. -/
inductive Overrun where
  | overrun
deriving DecidableEq

def launchingMessage : CString := ⟨"Launching init: {s} for core {d}.".toList, by decide⟩

def runningMessage : CString :=
  ⟨"Program {s} is already running, jumping at {x} with stack at {x} of size {x}.".toList, by decide +kernel⟩

section Code

variable (parsed : Init) (entryLaunch : ℕ)

def logInfo {ρ : Type} (format : CString) (args : List Arg) : Outcome Overrun ρ Unit :=
  if fits format args then .next () else .fail .overrun

/-- `parsed.programs[k]` as an argument of `strcmp`. -/
def program (s : Launches) (k : ℕ) : Outcome Overrun (Launches × Leave) CString :=
  match if k < maxCore then parsed.programs k else none with
  | some p => .next p
  | none => .done (s, .noProgram k)

def joinSame (s : Launches) (i y : ℕ) (_ : Unit) : Outcome Overrun (Launches × Leave) Unit := do
  let q ← program parsed s y
  let p ← program parsed s i
  if strcmp q.chars p.chars then .next () else .done (s, .join y)

def launchCore (coreId i : ℕ) (s : Launches) : Outcome Overrun (Launches × Leave) Launches := do
  let s : Launches := { s with visited := s.visited ++ [i] }
  let p ← program parsed s i
  if strcmp p.chars hang.chars then do
    logInfo launchingMessage [.string p, .size i]
    if coreId = i then .next s
    else do
      forLoop (joinSame parsed s i) (i - 1) 1 ()
      .next { s with launched := s.launched ++ [i] }
  else .next s

/-- The inner loop of the last section, which says that the program is running before it goes there. -/
def joinOwn (s : Launches) (coreId y : ℕ) (_ : Unit) : Outcome Overrun (Launches × Leave) Unit := do
  let q ← program parsed s y
  let p ← program parsed s coreId
  if strcmp q.chars p.chars then .next ()
  else do
    logInfo runningMessage [.string q, .size entryLaunch, .size (0x10000 + 0x3000 * coreId), .size 0x1980]
    .done (s, .join y)

def ownProgram (coreId : ℕ) (s : Launches) : Outcome Overrun (Launches × Leave) Empty := do
  let p ← program parsed s coreId
  if strcmp p.chars hang.chars then do
    forLoop (joinOwn parsed entryLaunch s coreId) (parsed.requiredCores - 1) 1 ()
    .done (s, .entryLaunch)
  else .done (s, .halt)

def kernelMain (coreId coreNumber : ℕ) : Outcome Overrun (Launches × Leave) Empty :=
  if parsed.requiredCores > coreNumber then .done (⟨[], []⟩, .panic)
  else do
    let s ← forLoop (launchCore parsed coreId) parsed.requiredCores 0 ⟨[], []⟩
    ownProgram parsed entryLaunch coreId s

end Code

variable {parsed : Init} {s : Launches} {entryLaunch coreId coreNumber i k n : ℕ} {p q : CString}

theorem program_next (hk : k < maxCore) (hp : parsed.programs k = some p) : program parsed s k = .next p := by
  rw [program, if_pos hk, hp]

theorem strcmp_string : strcmp p.chars q.chars = false ↔ p = q := by
  rw [strcmp_eq_false]
  exact ⟨CString.ext, congrArg CString.chars⟩

theorem strcmp_ne : strcmp p.chars q.chars = true ↔ p ≠ q := by
  rw [← Bool.not_eq_false, Ne, strcmp_string]

/-- A scan for the first core from 1 to `n - 1` with the program `p`, where `found` says how it ends there. -/
theorem scan_ends {F : Overrun → Prop} {R : Launches × Leave → Prop}
    {body : ℕ → Unit → Outcome Overrun (Launches × Leave) Unit} {found : ℕ → Outcome Overrun (Launches × Leave) Unit}
    (hbody : ∀ y < n, ∀ u, body y u = if parsed.programs y = some p then found y else .next ())
    (hfound : ∀ y, 1 ≤ y → y < n → parsed.programs y = some p → (found y).Ends F R fun _ => False) :
    (forLoop body (n - 1) 1 ()).Ends F R fun _ => ∀ y, 1 ≤ y → y < n → parsed.programs y ≠ some p := by
  by_cases hz : n = 0
  · subst hz
    intro y _ hy
    omega
  · have hloop := forLoop_ends body (F := F) (R := R) (N := n)
      (fun m _ => 1 ≤ m ∧ ∀ y, 1 ≤ y → y < m → parsed.programs y ≠ some p) ?_ 1 () (by omega)
      ⟨le_rfl, fun y h1 h2 => by omega⟩
    · exact hloop.mono (fun _ h => h) (fun _ h => h) fun _ h => h.2
    · rintro y u hy ⟨h1, hprev⟩
      rw [hbody y hy u]
      by_cases h : parsed.programs y = some p
      · rw [if_pos h]
        exact (hfound y h1 hy h).mono (fun _ h => h) (fun _ h => h) fun _ h => h.elim
      · rw [if_neg h]
        refine ⟨by omega, fun y' h1' h2 => ?_⟩
        rcases Nat.lt_succ_iff_lt_or_eq.mp h2 with hlt | rfl
        · exact hprev y' h1' hlt
        · exact h

theorem joinSame_eq (hi : i < maxCore) (hp : parsed.programs i = some p) {y : ℕ} (hy : y < maxCore)
    (hq : (parsed.programs y).isSome = true) (u : Unit) :
    joinSame parsed s i y u = if parsed.programs y = some p then .done (s, .join y) else .next () := by
  obtain ⟨q, hq⟩ := Option.isSome_iff_exists.mp hq
  rw [joinSame, program_next hy hq, next_bind, program_next hi hp, next_bind, hq]
  by_cases h : q = p
  · rw [if_pos (congrArg some h), strcmp_string.mpr h]
    rfl
  · rw [if_neg fun he => h (Option.some.inj he), if_pos (strcmp_ne.mpr h)]

theorem joinLoop_ends (hn : n ≤ maxCore) (hall : ∀ y < n, (parsed.programs y).isSome = true) (hi : i < maxCore)
    (hp : parsed.programs i = some p) :
    (forLoop (joinSame parsed s i) (n - 1) 1 ()).Ends (fun _ => False)
      (fun r => ∃ y, 1 ≤ y ∧ y < n ∧ parsed.programs y = some p ∧ r = (s, .join y))
      (fun _ => ∀ y, 1 ≤ y → y < n → parsed.programs y ≠ some p) :=
  scan_ends (fun y hy u => joinSame_eq hi hp (hy.trans_le hn) (hall y hy) u) fun y h1 h2 he => ⟨y, h1, h2, he, rfl⟩

/-- The message about the program of core `i` fits: the name with the digits of the core has at most 472 characters. -/
def LaunchFits (parsed : Init) (i : ℕ) : Prop :=
  ∀ p, parsed.programs i = some p → p ≠ hang → p.length + (Nat.log 10 i + 1) ≤ 472

theorem launching_fits_iff : fits launchingMessage [.string p, .size i] = true ↔
    p.length + (Nat.log 10 i + 1) ≤ 472 := by
  have hdir : directives launchingMessage.chars = ['s', 'd'] := by decide +kernel
  have hlit : literals launchingMessage.chars = 27 := by decide +kernel
  refine (fits_iff hdir hlit (by simp [Takes])).trans ?_
  simp only [List.zipWith_cons_cons, List.zipWith_nil_left, List.sum_cons, List.sum_nil, argWidth, if_true]
  omega

/-- Another core below it, but core 0, has the program of core `i`. -/
def Shared (parsed : Init) (i : ℕ) : Prop := ∃ y, 1 ≤ y ∧ y < i ∧ parsed.programs y = parsed.programs i

/-- Core `i` is to be launched by the boot core. -/
def Launchable (parsed : Init) (coreId i : ℕ) : Prop := i ≠ coreId ∧ parsed.programs i ≠ some hang

instance : DecidablePred (Launchable parsed coreId) := fun _ => inferInstanceAs (Decidable (_ ∧ _))

/-- What the boot core has done after the first `n` cores. -/
def launchesTo (parsed : Init) (coreId n : ℕ) : Launches :=
  ⟨List.range n, (List.range n).filter fun i => Launchable parsed coreId i⟩

theorem launchesTo_succ (parsed : Init) (coreId n : ℕ) : launchesTo parsed coreId (n + 1) =
    ⟨List.range n ++ [n], (launchesTo parsed coreId n).launched ++ if Launchable parsed coreId n then [n] else []⟩ := by
  rw [launchesTo, launchesTo, List.range_succ, List.filter_append]
  congr 2
  by_cases h : Launchable parsed coreId n <;> simp [h]

theorem launchCore_ends (hreq : parsed.requiredCores ≤ maxCore)
    (hall : ∀ i < parsed.requiredCores, (parsed.programs i).isSome = true) (hi : i < parsed.requiredCores) :
    (launchCore parsed coreId i (launchesTo parsed coreId i)).Ends (fun _ => ¬ LaunchFits parsed i)
      (fun r => LaunchFits parsed i ∧ (Launchable parsed coreId i ∧ Shared parsed i) ∧
        ∃ y, r = (⟨List.range i ++ [i], (launchesTo parsed coreId i).launched⟩, .join y))
      (fun s => s = launchesTo parsed coreId (i + 1) ∧ LaunchFits parsed i ∧
        ¬ (Launchable parsed coreId i ∧ Shared parsed i)) := by
  obtain ⟨p, hp⟩ := Option.isSome_iff_exists.mp (hall i hi)
  have hmax : i < maxCore := hi.trans_le hreq
  rw [launchCore]
  dsimp only
  rw [program_next hmax hp, next_bind, launchesTo_succ]
  by_cases hh : p = hang
  · have hno : ¬ Launchable parsed coreId i := fun h => h.2 (by rw [hp, hh])
    have hfits : LaunchFits parsed i := fun q hq hne => absurd (Option.some.inj (hq.symm.trans hp) ▸ hh) hne
    rw [if_neg (by simp [strcmp_string.mpr hh])]
    exact ⟨by simp [hno, launchesTo], hfits, fun h => hno h.1⟩
  · rw [if_pos (strcmp_ne.mpr hh), logInfo]
    by_cases hlen : p.length + (Nat.log 10 i + 1) ≤ 472
    · have hfits : LaunchFits parsed i := fun q hq _ => Option.some.inj (hp.symm.trans hq) ▸ hlen
      rw [if_pos (launching_fits_iff.mpr hlen), next_bind]
      by_cases hc : coreId = i
      · have hno : ¬ Launchable parsed coreId i := fun h => h.1 hc.symm
        rw [if_pos hc]
        exact ⟨by simp [hno, launchesTo], hfits, fun h => hno h.1⟩
      · have hyes : Launchable parsed coreId i := ⟨Ne.symm hc, by simpa [hp] using hh⟩
        rw [if_neg hc]
        have hscan := joinLoop_ends (s := ⟨List.range i ++ [i], (launchesTo parsed coreId i).launched⟩) hmax.le
          (fun y hy => hall y (hy.trans hi)) hmax hp
        refine (hscan.mono (fun _ h => h.elim) ?_ fun _ h => h).bind fun u hu => ?_
        · rintro r ⟨y, h1, h2, he, rfl⟩
          exact ⟨hfits, ⟨hyes, y, h1, h2, by rw [he, hp]⟩, y, rfl⟩
        · exact ⟨by simp [hyes, launchesTo], hfits, fun ⟨_, y, h1, h2, he⟩ => hu y h1 h2 (he.trans hp)⟩
    · rw [if_neg fun h => hlen (launching_fits_iff.mp h), fail_bind]
      exact fun hfits => hlen (hfits p hp hh)

variable (coreId) in
/-- The launch loop: it stops at the first core whose program is on a lower-numbered core, or has too long a name. -/
theorem launchLoop_ends (hreq : parsed.requiredCores ≤ maxCore)
    (hall : ∀ i < parsed.requiredCores, (parsed.programs i).isSome = true) :
    (forLoop (launchCore parsed coreId) parsed.requiredCores 0 ⟨[], []⟩).Ends
      (fun _ => ∃ i < parsed.requiredCores, ¬ LaunchFits parsed i ∧
        ∀ j < i, ¬ (Launchable parsed coreId j ∧ Shared parsed j))
      (fun r => ∃ i < parsed.requiredCores, (∀ j ≤ i, LaunchFits parsed j) ∧
        (Launchable parsed coreId i ∧ Shared parsed i) ∧
        ∃ y, r = (⟨List.range i ++ [i], (launchesTo parsed coreId i).launched⟩, .join y))
      (fun s => s = launchesTo parsed coreId parsed.requiredCores ∧ ∀ i < parsed.requiredCores,
        LaunchFits parsed i ∧ ¬ (Launchable parsed coreId i ∧ Shared parsed i)) := by
  apply forLoop_ends (launchCore parsed coreId) (N := parsed.requiredCores)
    (fun n s => s = launchesTo parsed coreId n ∧ ∀ i < n,
      LaunchFits parsed i ∧ ¬ (Launchable parsed coreId i ∧ Shared parsed i)) _ 0 _
    (Nat.zero_le _) ⟨rfl, fun i hi => by omega⟩
  rintro i s hi ⟨rfl, hprev⟩
  refine (launchCore_ends hreq hall hi).mono (fun _ h => ⟨i, hi, h, fun j hj => (hprev j hj).2⟩) ?_ ?_
  · rintro r ⟨hfits, hdiverts, hr⟩
    refine ⟨i, hi, fun j hj => ?_, hdiverts, hr⟩
    rcases Nat.lt_or_eq_of_le hj with hlt | rfl
    · exact (hprev j hlt).1
    · exact hfits
  · rintro s ⟨rfl, hfits, hnot⟩
    refine ⟨rfl, fun i' hi' => ?_⟩
    rcases Nat.lt_succ_iff_lt_or_eq.mp hi' with hlt | rfl
    · exact hprev i' hlt
    · exact ⟨hfits, hnot⟩

/-- The message of the last section fits: the length of the name and the hexadecimal digits of the two addresses are at
most 424 characters. -/
def RunningFits (entryLaunch coreId length : ℕ) : Prop :=
  length + (Nat.log 16 entryLaunch + 1) + (Nat.log 16 (0x10000 + 0x3000 * coreId) + 1) ≤ 424

theorem running_fits_iff : fits runningMessage
    [.string p, .size entryLaunch, .size (0x10000 + 0x3000 * coreId), .size 0x1980] = true ↔
      RunningFits entryLaunch coreId p.length := by
  have hdir : directives runningMessage.chars = ['s', 'x', 'x', 'x'] := by decide +kernel
  have hlit : literals runningMessage.chars = 65 := by decide +kernel
  have hx : 'x' ≠ 'd' := by decide
  have hsize : Nat.log 16 0x1980 = 3 := Nat.log_eq_of_pow_le_of_lt_pow (by decide) (by decide)
  refine (fits_iff hdir hlit (by simp [Takes])).trans ?_
  simp only [List.zipWith_cons_cons, List.zipWith_nil_left, List.sum_cons, List.sum_nil, argWidth, if_neg hx, hsize,
    RunningFits]
  omega

/-- How the boot core leaves the last section. -/
inductive LeavesOwn (parsed : Init) (entryLaunch coreId : ℕ) : Leave → Prop where
  | noProgram : (coreId < maxCore → parsed.programs coreId = none) →
      LeavesOwn parsed entryLaunch coreId (.noProgram coreId)
  | halt : coreId < maxCore → parsed.programs coreId = some hang → LeavesOwn parsed entryLaunch coreId .halt
  | entryLaunch (p : CString) : coreId < maxCore → parsed.programs coreId = some p → p ≠ hang →
      (∀ y, 1 ≤ y → y < parsed.requiredCores → parsed.programs y ≠ some p) →
      LeavesOwn parsed entryLaunch coreId .entryLaunch
  | join (p : CString) (y : ℕ) : coreId < maxCore → parsed.programs coreId = some p → p ≠ hang → 1 ≤ y →
      y < parsed.requiredCores → parsed.programs y = some p → RunningFits entryLaunch coreId p.length →
      LeavesOwn parsed entryLaunch coreId (.join y)

theorem LeavesOwn.program_iff {l : Leave} (h : LeavesOwn parsed entryLaunch coreId l) :
    (∀ k, l ≠ .noProgram k) ↔ coreId < maxCore ∧ (parsed.programs coreId).isSome = true := by
  cases h with
  | noProgram hno =>
    refine iff_of_false (fun hne => hne coreId rfl) fun ⟨hc, hsome⟩ => ?_
    rw [hno hc] at hsome
    cases hsome
  | halt hc hp => exact iff_of_true (fun k hk => by cases hk) ⟨hc, hp ▸ rfl⟩
  | entryLaunch p hc hp => exact iff_of_true (fun k hk => by cases hk) ⟨hc, hp ▸ rfl⟩
  | join p y hc hp => exact iff_of_true (fun k hk => by cases hk) ⟨hc, hp ▸ rfl⟩

/-- The boot core finds its own program on another core, and the message that says so fits. -/
def OwnFits (parsed : Init) (entryLaunch coreId : ℕ) : Prop :=
  ∀ p, coreId < maxCore → parsed.programs coreId = some p → p ≠ hang →
    (∃ y, 1 ≤ y ∧ y < parsed.requiredCores ∧ parsed.programs y = some p) → RunningFits entryLaunch coreId p.length

variable (entryLaunch coreId s) in
theorem ownProgram_ends (hreq : parsed.requiredCores ≤ maxCore)
    (hall : ∀ i < parsed.requiredCores, (parsed.programs i).isSome = true) :
    (ownProgram parsed entryLaunch coreId s).Ends (fun _ => ¬ OwnFits parsed entryLaunch coreId)
      (fun r => OwnFits parsed entryLaunch coreId ∧ r.1 = s ∧ LeavesOwn parsed entryLaunch coreId r.2)
      (fun _ => False) := by
  have hnone (hno : coreId < maxCore → parsed.programs coreId = none) : OwnFits parsed entryLaunch coreId :=
    fun p hc hp => by cases (hno hc).symm.trans hp
  rw [ownProgram, program]
  by_cases hc : coreId < maxCore
  · rw [if_pos hc]
    cases hp : parsed.programs coreId with
    | none => exact ⟨hnone fun _ => hp, rfl, .noProgram fun _ => hp⟩
    | some p =>
      rw [next_bind]
      have hown (hfits : p ≠ hang → (∃ y, 1 ≤ y ∧ y < parsed.requiredCores ∧ parsed.programs y = some p) →
          RunningFits entryLaunch coreId p.length) : OwnFits parsed entryLaunch coreId := by
        intro q _ hq hne hy
        obtain rfl := Option.some.inj (hp.symm.trans hq)
        exact hfits hne hy
      by_cases hh : p = hang
      · rw [if_neg (by simp [strcmp_string.mpr hh])]
        exact ⟨hown fun hne => absurd hh hne, rfl, .halt hc (hh ▸ hp)⟩
      · rw [if_pos (strcmp_ne.mpr hh)]
        have hbody (y : ℕ) (hy : y < parsed.requiredCores) (u : Unit) : joinOwn parsed entryLaunch s coreId y u =
            if parsed.programs y = some p then
              (logInfo runningMessage [.string p, .size entryLaunch, .size (0x10000 + 0x3000 * coreId), .size 0x1980] >>=
                fun _ => .done (s, .join y))
            else .next () := by
          obtain ⟨q, hq⟩ := Option.isSome_iff_exists.mp (hall y hy)
          rw [joinOwn, program_next (hy.trans_le hreq) hq, next_bind, program_next hc hp, next_bind, hq]
          by_cases h : q = p
          · rw [if_pos (congrArg some h), strcmp_string.mpr h, h]
            rfl
          · rw [if_neg fun he => h (Option.some.inj he), if_pos (strcmp_ne.mpr h)]
        have hscan := scan_ends (F := fun _ => ¬ OwnFits parsed entryLaunch coreId)
          (R := fun r => OwnFits parsed entryLaunch coreId ∧ r.1 = s ∧ LeavesOwn parsed entryLaunch coreId r.2) hbody
          fun y h1 h2 hy => by
            rw [logInfo]
            by_cases hrun : RunningFits entryLaunch coreId p.length
            · rw [if_pos (running_fits_iff.mpr hrun), next_bind]
              exact ⟨hown fun _ _ => hrun, rfl, .join p y hc hp hh h1 h2 hy hrun⟩
            · rw [if_neg fun h => hrun (running_fits_iff.mp h), fail_bind]
              exact fun hfits => hrun (hfits p hc hp hh ⟨y, h1, h2, hy⟩)
        refine hscan.bind fun u hu => ?_
        exact ⟨hown fun _ ⟨y, h1, h2, hy⟩ => absurd hy (hu y h1 h2), rfl, .entryLaunch p hc hp hh hu⟩
  · rw [if_neg hc]
    exact ⟨hnone fun h => absurd h hc, rfl, .noProgram fun h => absurd h hc⟩

variable (entryLaunch coreId) in
/-- Where there is a program for each core, the boot core overruns a message, goes off for another core, or comes to
its own program with all the others launched. -/
theorem kernelMain_ends (hcores : parsed.requiredCores ≤ coreNumber) (hreq : parsed.requiredCores ≤ maxCore)
    (hall : ∀ i < parsed.requiredCores, (parsed.programs i).isSome = true) :
    (kernelMain parsed entryLaunch coreId coreNumber).Ends
      (fun _ => (∃ i < parsed.requiredCores, ¬ LaunchFits parsed i ∧
          ∀ j < i, ¬ (Launchable parsed coreId j ∧ Shared parsed j)) ∨
        ((∀ i < parsed.requiredCores, ¬ (Launchable parsed coreId i ∧ Shared parsed i)) ∧
          ¬ OwnFits parsed entryLaunch coreId))
      (fun r => (∃ i < parsed.requiredCores, (∀ j ≤ i, LaunchFits parsed j) ∧
          (Launchable parsed coreId i ∧ Shared parsed i) ∧
          ∃ y, r = (⟨List.range i ++ [i], (launchesTo parsed coreId i).launched⟩, .join y)) ∨
        ((∀ i < parsed.requiredCores, LaunchFits parsed i ∧ ¬ (Launchable parsed coreId i ∧ Shared parsed i)) ∧
          OwnFits parsed entryLaunch coreId ∧ r.1 = launchesTo parsed coreId parsed.requiredCores ∧
          LeavesOwn parsed entryLaunch coreId r.2))
      (fun _ => False) := by
  rw [kernelMain, if_neg (Nat.not_lt.mpr hcores)]
  refine ((launchLoop_ends coreId hreq hall).mono (fun _ h => .inl h) (fun _ h => .inl h) fun _ h => h).bind ?_
  rintro s ⟨rfl, hnone⟩
  refine (ownProgram_ends _ entryLaunch coreId hreq hall).mono (fun _ h => .inr ⟨fun i hi => (hnone i hi).2, h⟩)
    (fun r h => .inr ⟨hnone, h⟩) fun _ h => h

/-- All messages up to the place where the boot core leaves its launch loop fit, and so does that of the last section
if it gets that far. -/
def MessagesFit (parsed : Init) (entryLaunch coreId : ℕ) : Prop :=
  (∀ i < parsed.requiredCores, (∀ j < i, ¬ (Launchable parsed coreId j ∧ Shared parsed j)) → LaunchFits parsed i) ∧
    ((∀ i < parsed.requiredCores, ¬ (Launchable parsed coreId i ∧ Shared parsed i)) → OwnFits parsed entryLaunch coreId)

/-- With a program for each core, only the last section can read one that is not there, and only if the
boot core gets that far. -/
theorem no_program_iff (hcores : parsed.requiredCores ≤ coreNumber) (hreq : parsed.requiredCores ≤ maxCore)
    (hall : ∀ i < parsed.requiredCores, (parsed.programs i).isSome = true) :
    (∃ s l, kernelMain parsed entryLaunch coreId coreNumber = .done (s, l) ∧ ∀ k, l ≠ .noProgram k) ↔
      MessagesFit parsed entryLaunch coreId ∧
        ((coreId < maxCore ∧ (parsed.programs coreId).isSome = true) ∨
          ∃ i < parsed.requiredCores, Launchable parsed coreId i ∧ Shared parsed i) := by
  have hends := kernelMain_ends entryLaunch coreId hcores hreq hall
  cases hrun : kernelMain parsed entryLaunch coreId coreNumber with
  | next e => exact e.elim
  | fail e =>
    rw [hrun] at hends
    refine iff_of_false (fun ⟨s, l, h, _⟩ => by cases h) fun ⟨hfits, _⟩ => ?_
    rcases hends with ⟨i, hi, hlong, hbefore⟩ | ⟨hnone, hlong⟩
    · exact hlong (hfits.1 i hi hbefore)
    · exact hlong (hfits.2 hnone)
  | done r =>
    rw [hrun] at hends
    rcases hends with ⟨i, hi, hfits, hdiverts, y, rfl⟩ | ⟨hloop, hown, hr, hleave⟩
    · refine iff_of_true ⟨_, _, rfl, fun k hk => by cases hk⟩ ⟨⟨fun j _ hbefore => hfits j ?_, fun hnone => ?_⟩, ?_⟩
      · by_contra hlt
        exact hbefore i (by omega) hdiverts
      · exact absurd hdiverts (hnone i hi)
      · exact .inr ⟨i, hi, hdiverts⟩
    · have hmessages : MessagesFit parsed entryLaunch coreId := ⟨fun i hi _ => (hloop i hi).1, fun _ => hown⟩
      have hleaves : (∃ s l, Outcome.done (ε := Overrun) (σ := Empty) r = .done (s, l) ∧ ∀ k, l ≠ .noProgram k) ↔
          ∀ k, r.2 ≠ .noProgram k :=
        ⟨fun ⟨s, l, h, hne⟩ => by cases h; exact hne, fun h => ⟨r.1, r.2, rfl, h⟩⟩
      have hdiverts : ¬ ∃ i < parsed.requiredCores, Launchable parsed coreId i ∧ Shared parsed i :=
        fun ⟨i, hi, h⟩ => (hloop i hi).2 h
      rw [hleaves, and_iff_right hmessages, or_iff_left hdiverts]
      exact hleave.program_iff

end Raccoon.KernelMain
