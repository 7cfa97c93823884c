import Mathlib.Algebra.Group.Nat.Defs
import Raccoon.CStrings
import Raccoon.InterruptLevels

/-!
Messages of several cores on one serial line. A core takes the interrupt lock,
then the lock of the printer, and polls the transmitter before every byte.
Interrupts bring messages of their own. Every core reads its own `COREID`, as
after the boot.
-/

namespace Raccoon.SerialLog

open InterruptLock (Ints lockInts unlockInts withCore)
open Runs

/-- The strings that a message passes to `write_string`, in order. -/
structure Message where
  strings : List CString
deriving DecidableEq

section Code

/-- The characters that `com_write` puts, up to a NUL and `size` at most. -/
def comWrite : List Char → ℕ → List Char
  | c :: buffer, size + 1 => if c = '\x00' then [] else c :: comWrite buffer size
  | _, _ => []

/-- `write_string` passes `(size_t)(-1)`. -/
def writeString (x : CString) : List Char := comWrite x.bytes (2 ^ 64 - 1)

def Message.text (m : Message) : List Char := m.strings.flatMap writeString

/-- Where a core is in a message. -/
inductive Pc where
  | next
  | grabbing (m : Message)
  | polling (m : Message) (rest : List Char)
  | writing (m : Message) (c : Char) (rest : List Char)
  | unlocking
deriving DecidableEq

/-- What a core has to do: a message, or the return to where an interrupt or exception found it. -/
inductive Item where
  | message (m : Message)
  | iret (flag : Bool) (pc : Pc)
deriving DecidableEq

structure State where
  ints : Ints
  lock : ℕ
  /-- The byte that the transmitter has not sent yet. -/
  thr : Option Char
  line : List Char
  pc : ℕ → Pc
  todo : ℕ → List Item

def State.goto (s : State) (c : ℕ) (p : Pc) : State := { s with pc := Function.update s.pc c p }

def State.leave (s : State) (c : ℕ) (items : List Item) : State :=
  { s with todo := Function.update s.todo c items }

/-- `while(!__sync_bool_compare_and_swap(.., 0, 1));`, one turn. -/
def grabLock (s : State) (c : ℕ) (m : Message) : State :=
  if s.lock = 0 then { s with lock := 1 }.goto c (.polling m m.text) else s

/-- `lock--` on 16 bits. -/
def releaseLock (s : State) : State := { s with lock := (s.lock + 2 ^ 16 - 1) % 2 ^ 16 }

def setFlag (c : ℕ) (flag : Bool) (i : Ints) : Ints := { i with enabled := Function.update i.enabled c flag }

def coreStep (c : ℕ) (s : State) : Option State :=
  match s.pc c with
  | .next =>
    match s.todo c with
    | [] => none
    | .message m :: items =>
      match lockInts c s.ints with
      | .ok i => some (({ s with ints := i }.goto c (.grabbing m)).leave c items)
      | .error _ => none
    | .iret flag pc :: items => some (({ s with ints := setFlag c flag s.ints }.goto c pc).leave c items)
  | .grabbing m => some (grabLock s c m)
  -- `com_wait_write`, one turn, or `set_lock_print` when nothing is left to write
  | .polling _ [] => some ((releaseLock s).goto c .unlocking)
  | .polling m (x :: rest) => some (if s.thr = none then s.goto c (.writing m x rest) else s)
  | .writing m x rest => some ({ s with thr := some x }.goto c (.polling m rest))
  | .unlocking =>
    match unlockInts c s.ints with
    | .ok i => some ({ s with ints := i }.goto c .next)
    | .error _ => none

/-- A gate clears the interrupt flag, and the handler writes its messages before it returns. -/
def enter (c : ℕ) (messages : List Message) (s : State) : State :=
  ({ s with ints := setFlag c false s.ints }.goto c .next).leave c
    (messages.map Item.message ++ Item.iret (s.ints.enabled c) (s.pc c) :: s.todo c)

def transmit (s : State) : Option State := s.thr.map fun x => { s with thr := none, line := s.line ++ [x] }

inductive Action where
  | core (c : ℕ)
  | transmit
  | interrupt (c : ℕ) (messages : List Message)
  /-- An exception, which the interrupt flag does not hold back. -/
  | exception (c : ℕ) (messages : List Message)
deriving DecidableEq

def Action.isException : Action → Bool
  | .exception _ _ => true
  | _ => false

def step (s : State) : Action → Option State
  | .core c => coreStep c s
  | .transmit => transmit s
  | .interrupt c messages => if s.ints.enabled c then some (enter c messages s) else none
  | .exception c messages => some (enter c messages s)

end Code

section Steps

variable {s s' : State} {c d : ℕ}

/-- The state with another level and flag of one core. -/
def State.withCore (s : State) (c level : ℕ) (flag : Bool) : State :=
  { s with ints := InterruptLock.withCore c level flag s.ints }

/-- What one step of a core can do. -/
inductive CoreStep (c : ℕ) (s : State) : State → Prop
  | lock (m : Message) (items : List Item) : s.pc c = .next → s.todo c = .message m :: items →
      s.ints.lockLevel c ≠ 255 →
      CoreStep c s (((s.withCore c (s.ints.lockLevel c + 1)
        (s.ints.lockLevel c ≠ 0 && s.ints.enabled c)).goto c (.grabbing m)).leave c items)
  | iret (flag : Bool) (pc : Pc) (items : List Item) : s.pc c = .next → s.todo c = .iret flag pc :: items →
      CoreStep c s (((s.withCore c (s.ints.lockLevel c) flag).goto c pc).leave c items)
  | grab (m : Message) : s.pc c = .grabbing m → s.lock = 0 →
      CoreStep c s ({ s with lock := 1 }.goto c (.polling m m.text))
  | release (m : Message) : s.pc c = .polling m [] → CoreStep c s ((releaseLock s).goto c .unlocking)
  | poll (m : Message) (x : Char) (rest : List Char) : s.pc c = .polling m (x :: rest) → s.thr = none →
      CoreStep c s (s.goto c (.writing m x rest))
  | write (m : Message) (x : Char) (rest : List Char) : s.pc c = .writing m x rest →
      CoreStep c s ({ s with thr := some x }.goto c (.polling m rest))
  | unlock : s.pc c = .unlocking → s.ints.lockLevel c ≠ 0 →
      CoreStep c s ((s.withCore c (s.ints.lockLevel c - 1)
        (s.ints.lockLevel c = 1 || s.ints.enabled c)).goto c .next)
  /-- A turn of a loop that waits. -/
  | spin : CoreStep c s s

theorem lockInts_self (h : s.ints.lockLevel c ≠ 255) : lockInts c s.ints =
    .ok (withCore c (s.ints.lockLevel c + 1) (s.ints.lockLevel c ≠ 0 && s.ints.enabled c) s.ints) := by
  have hl : lockInts c (withCore c _ (s.ints.enabled c) s.ints) = _ := InterruptLock.lockInts_withCore h
  rwa [InterruptLock.withCore_self] at hl

theorem unlockInts_self (h : s.ints.lockLevel c ≠ 0) : unlockInts c s.ints =
    .ok (withCore c (s.ints.lockLevel c - 1) (s.ints.lockLevel c = 1 || s.ints.enabled c) s.ints) := by
  have hu : unlockInts c (withCore c _ (s.ints.enabled c) s.ints) = _ := InterruptLock.unlockInts_withCore h
  rwa [InterruptLock.withCore_self] at hu

theorem lockInts_top (h : s.ints.lockLevel c = 255) : lockInts c s.ints = .error .recursion :=
  if_neg (not_not.mpr h)

theorem unlockInts_bottom (h : s.ints.lockLevel c = 0) : ∃ e, unlockInts c s.ints = .error e := by
  rw [unlockInts, if_neg (not_not.mpr h)]
  cases hl : lockInts c s.ints with
  | ok i => exact ⟨_, rfl⟩
  | error e => exact ⟨_, rfl⟩

theorem setFlag_eq (flag : Bool) (i : Ints) : setFlag c flag i = withCore c (i.lockLevel c) flag i := by
  rw [setFlag, withCore, Function.update_eq_self]

theorem coreStep_cases (h : coreStep c s = some s') : CoreStep c s s' := by
  unfold coreStep at h
  cases hpc : s.pc c with
  | next =>
    rw [hpc] at h
    cases htodo : s.todo c with
    | nil =>
      rw [htodo] at h
      cases h
    | cons item items =>
      rw [htodo] at h
      cases item with
      | message m =>
        dsimp only at h
        by_cases hl : s.ints.lockLevel c = 255
        · rw [lockInts_top hl] at h
          cases h
        · rw [lockInts_self hl] at h
          cases h
          exact .lock m items hpc htodo hl
      | iret flag pc =>
        dsimp only at h
        rw [setFlag_eq] at h
        cases h
        exact .iret flag pc items hpc htodo
  | grabbing m =>
    rw [hpc] at h
    dsimp only at h
    unfold grabLock at h
    by_cases hl : s.lock = 0
    · rw [if_pos hl] at h
      cases h
      exact .grab m hpc hl
    · rw [if_neg hl] at h
      cases h
      exact .spin
  | polling m rest =>
    rw [hpc] at h
    cases rest with
    | nil =>
      cases h
      exact .release m hpc
    | cons x rest =>
      dsimp only at h
      by_cases ht : s.thr = none
      · rw [if_pos ht] at h
        cases h
        exact .poll m x rest hpc ht
      · rw [if_neg ht] at h
        cases h
        exact .spin
  | writing m x rest =>
    rw [hpc] at h
    cases h
    exact .write m x rest hpc
  | unlocking =>
    rw [hpc] at h
    dsimp only at h
    by_cases hl : s.ints.lockLevel c = 0
    · obtain ⟨e, he⟩ := unlockInts_bottom hl
      rw [he] at h
      cases h
    · rw [unlockInts_self hl] at h
      cases h
      exact .unlock hpc hl

end Steps

section Fields

variable (s : State) (c d level : ℕ) (flag : Bool) (p : Pc) (items : List Item)

@[simp] theorem goto_ints : (s.goto c p).ints = s.ints := rfl
@[simp] theorem goto_lock : (s.goto c p).lock = s.lock := rfl
@[simp] theorem goto_thr : (s.goto c p).thr = s.thr := rfl
@[simp] theorem goto_line : (s.goto c p).line = s.line := rfl
@[simp] theorem goto_todo : (s.goto c p).todo = s.todo := rfl
@[simp] theorem goto_pc : (s.goto c p).pc d = if d = c then p else s.pc d := Function.update_apply ..

@[simp] theorem leave_ints : (s.leave c items).ints = s.ints := rfl
@[simp] theorem leave_lock : (s.leave c items).lock = s.lock := rfl
@[simp] theorem leave_thr : (s.leave c items).thr = s.thr := rfl
@[simp] theorem leave_line : (s.leave c items).line = s.line := rfl
@[simp] theorem leave_pc : (s.leave c items).pc = s.pc := rfl
@[simp] theorem leave_todo : (s.leave c items).todo d = if d = c then items else s.todo d :=
  Function.update_apply ..

@[simp] theorem withCore_lockLevel :
    (s.withCore c level flag).ints.lockLevel d = if d = c then level else s.ints.lockLevel d :=
  Function.update_apply ..
@[simp] theorem withCore_enabled :
    (s.withCore c level flag).ints.enabled d = if d = c then flag else s.ints.enabled d :=
  Function.update_apply ..
@[simp] theorem withCore_lock : (s.withCore c level flag).lock = s.lock := rfl
@[simp] theorem withCore_thr : (s.withCore c level flag).thr = s.thr := rfl
@[simp] theorem withCore_line : (s.withCore c level flag).line = s.line := rfl
@[simp] theorem withCore_pc : (s.withCore c level flag).pc = s.pc := rfl
@[simp] theorem withCore_todo : (s.withCore c level flag).todo = s.todo := rfl

@[simp] theorem releaseLock_ints : (releaseLock s).ints = s.ints := by rw [releaseLock]
@[simp] theorem releaseLock_pc : (releaseLock s).pc = s.pc := by rw [releaseLock]
@[simp] theorem releaseLock_thr : (releaseLock s).thr = s.thr := by rw [releaseLock]
@[simp] theorem releaseLock_line : (releaseLock s).line = s.line := by rw [releaseLock]
@[simp] theorem releaseLock_todo : (releaseLock s).todo = s.todo := by rw [releaseLock]

end Fields

section Accounts

/-- The message that a core has taken up and not yet written in full. -/
def Pc.inHand : Pc → List Message
  | .grabbing m | .polling m _ | .writing m _ _ => [m]
  | _ => []

/-- What the core with the lock of the printer has still to write. -/
def Pc.holding : Pc → Option (Message × List Char)
  | .polling m rest => some (m, rest)
  | .writing m x rest => some (m, x :: rest)
  | _ => none

def Item.messages : Item → List Message
  | .message m => [m]
  | .iret _ _ => []

def messages (items : List Item) : List Message := items.flatMap Item.messages

/-- The messages of a handler that has interrupted the core. -/
def Action.handlers (c : ℕ) : Action → List (List Message)
  | .interrupt d ms => if d = c then [ms] else []
  | _ => []

def handlersOn (c : ℕ) (h : List Action) : List (List Message) := h.flatMap (Action.handlers c)

/-- The messages of a core in the order of its program, with those of each handler put in somewhere in one
piece. -/
inductive Inserted (own : List Message) : List (List Message) → List Message → Prop
  | own : Inserted own [] own
  | insert (hs : List (List Message)) (a ms b : List Message) : Inserted own hs (a ++ b) →
      Inserted own (hs ++ [ms]) (a ++ ms ++ b)

def printedOn (c : ℕ) (printed : List (ℕ × Message)) : List Message :=
  (printed.filter fun e => e.1 = c).map Prod.snd

def textOf (printed : List (ℕ × Message)) : List Char := printed.flatMap fun e => e.2.text

end Accounts

section Invariant

/-- Messages only, no lock is taken, and a core at a level above zero has interrupts disabled. -/
structure Start (s : State) : Prop where
  idle : ∀ c, s.pc c = .next
  plain : ∀ c, ∀ i ∈ s.todo c, ∃ m, i = .message m
  lock : s.lock = 0
  thr : s.thr = none
  line : s.line = []
  levels : ∀ c, s.ints.lockLevel c < 255
  masked : ∀ c, s.ints.lockLevel c ≠ 0 → s.ints.enabled c = false

/-- The line holds whole messages, and a part of the one that is being written. -/
inductive Printer (s : State) (printed : List (ℕ × Message)) : Prop
  | free : s.lock = 0 → (∀ c, (s.pc c).holding = none) → s.line ++ s.thr.toList = textOf printed →
      Printer s printed
  | held (c : ℕ) (m : Message) (sent rest : List Char) : s.lock = 1 → (s.pc c).holding = some (m, rest) →
      (∀ d, d ≠ c → (s.pc d).holding = none) → m.text = sent ++ rest →
      s.line ++ s.thr.toList = textOf printed ++ sent →
      (∀ x more, s.pc c = .writing m x more → s.thr = none) → Printer s printed

structure Inv (s₀ : State) (h : List Action) (s : State) (printed : List (ℕ × Message)) : Prop where
  levels : ∀ c, s.ints.lockLevel c = s₀.ints.lockLevel c + if s.pc c = .next then 0 else 1
  masked : ∀ c, s.ints.lockLevel c ≠ 0 → s.ints.enabled c = false
  saved : ∀ c, ∀ i ∈ s.todo c, (∃ m, i = .message m) ∨ (i = .iret true .next ∧ s₀.ints.lockLevel c = 0)
  printer : Printer s printed
  accounts : ∀ c, Inserted (messages (s₀.todo c)) (handlersOn c h)
    (printedOn c printed ++ (s.pc c).inHand ++ messages (s.todo c))

variable {s₀ s s' : State} {h : List Action} {printed : List (ℕ × Message)} {c : ℕ}

theorem Start.inv (hs : Start s₀) : Inv s₀ [] s₀ [] where
  levels c := by rw [if_pos (hs.idle c), Nat.add_zero]
  masked := hs.masked
  saved c i hi := .inl (hs.plain c i hi)
  printer := by
    refine .free hs.lock (fun c => ?_) ?_
    · rw [hs.idle c]
      rfl
    · rw [hs.line, hs.thr]
      rfl
  accounts c := by
    rw [hs.idle c]
    exact .own

theorem Printer.congr (hp : Printer s printed) (hlock : s'.lock = s.lock) (hthr : s'.thr = s.thr)
    (hline : s'.line = s.line)
    (hpc : ∀ d, s'.pc d = s.pc d ∨ ((s'.pc d).holding = none ∧ (s.pc d).holding = none)) : Printer s' printed := by
  have hholding (d : ℕ) : (s'.pc d).holding = (s.pc d).holding := by
    rcases hpc d with he | ⟨hn, ho⟩
    · rw [he]
    · rw [hn, ho]
  cases hp with
  | free hl hnone htext =>
    refine .free (hlock.trans hl) (fun d => ?_) ?_
    · rw [hholding, hnone]
    · rwa [hline, hthr]
  | held c m sent rest hl hc hother hsplit htext hwriting =>
    refine .held c m sent rest (hlock.trans hl) ?_ (fun d hd => ?_) hsplit ?_ fun x more hw => ?_
    · rw [hholding, hc]
    · rw [hholding, hother d hd]
    · rwa [hline, hthr]
    · rcases hpc c with he | ⟨hn, -⟩
      · rw [hthr, hwriting x more (he ▸ hw)]
      · rw [hw] at hn
        cases hn

theorem Printer.holder {m : Message} {rest : List Char} (hp : Printer s printed)
    (hc : (s.pc c).holding = some (m, rest)) :
    s.lock = 1 ∧ (∀ d, d ≠ c → (s.pc d).holding = none) ∧
      (∀ x more, s.pc c = .writing m x more → s.thr = none) ∧
      ∃ sent, m.text = sent ++ rest ∧ s.line ++ s.thr.toList = textOf printed ++ sent := by
  cases hp with
  | free hl hnone htext =>
    rw [hnone c] at hc
    cases hc
  | held c' m' sent rest' hl hc' hother hsplit htext hwriting =>
    obtain rfl : c = c' := by
      by_contra hne
      rw [hother c hne] at hc
      cases hc
    rw [hc'] at hc
    obtain ⟨rfl, rfl⟩ := Prod.mk.inj (Option.some.inj hc)
    exact ⟨hl, hother, hwriting, sent, hsplit, htext⟩

theorem textOf_append (printed : List (ℕ × Message)) (c : ℕ) (m : Message) :
    textOf (printed ++ [(c, m)]) = textOf printed ++ m.text := by
  simp [textOf]

theorem printedOn_append (printed : List (ℕ × Message)) (c d : ℕ) (m : Message) :
    printedOn d (printed ++ [(c, m)]) = printedOn d printed ++ if c = d then [m] else [] := by
  by_cases hd : c = d
  · simp [printedOn, hd]
  · simp [printedOn, hd]

theorem Printer.grab {m : Message} (hp : Printer s printed) (hl : s.lock = 0) :
    Printer ({ s with lock := 1 }.goto c (.polling m m.text)) printed := by
  cases hp with
  | held c' m' sent rest hl' => omega
  | free _ hnone htext =>
    refine .held c m [] m.text rfl ?_ (fun d hd => ?_) rfl ?_ fun x more hw => ?_
    · simp [Pc.holding]
    · simp [hd, hnone d]
    · simpa using htext
    · simp at hw

theorem Printer.release {m : Message} (hp : Printer s printed) (hpc : s.pc c = .polling m []) :
    Printer ((releaseLock s).goto c .unlocking) (printed ++ [(c, m)]) := by
  obtain ⟨hl, hother, -, sent, hsplit, htext⟩ := hp.holder (c := c) (by rw [hpc]; rfl)
  refine .free ?_ (fun d => ?_) ?_
  · simp [releaseLock, hl]
  · by_cases hd : d = c
    · simp [hd, Pc.holding]
    · simpa [hd] using hother d hd
  · rw [textOf_append, hsplit, List.append_nil, ← htext]
    simp

theorem Printer.poll {m : Message} {x : Char} {rest : List Char} (hp : Printer s printed)
    (hpc : s.pc c = .polling m (x :: rest)) (hthr : s.thr = none) :
    Printer (s.goto c (.writing m x rest)) printed := by
  obtain ⟨hl, hother, -, sent, hsplit, htext⟩ := hp.holder (c := c) (by rw [hpc]; rfl)
  refine .held c m sent (x :: rest) hl ?_ (fun d hd => ?_) hsplit htext fun _ _ _ => hthr
  · simp [Pc.holding]
  · simpa [hd] using hother d hd

theorem Printer.write {m : Message} {x : Char} {rest : List Char} (hp : Printer s printed)
    (hpc : s.pc c = .writing m x rest) :
    Printer ({ s with thr := some x }.goto c (.polling m rest)) printed := by
  obtain ⟨hl, hother, hwriting, sent, hsplit, htext⟩ := hp.holder (c := c) (by rw [hpc]; rfl)
  -- the transmitter is empty, so no byte is lost
  rw [hwriting x rest hpc] at htext
  refine .held c m (sent ++ [x]) rest hl ?_ (fun d hd => ?_) ?_ ?_ fun y more hw => ?_
  · simp [Pc.holding]
  · simpa [hd] using hother d hd
  · rw [hsplit, List.append_assoc, List.singleton_append]
  · rw [← List.append_assoc, ← htext]
    simp
  · simp at hw

theorem Printer.transmit {x : Char} (hp : Printer s printed) (hthr : s.thr = some x) :
    Printer { s with thr := none, line := s.line ++ [x] } printed := by
  have hsame : s.line ++ [x] ++ (none : Option Char).toList = s.line ++ s.thr.toList := by
    rw [hthr]
    simp
  cases hp with
  | free hl hnone htext => exact .free hl hnone (hsame.trans htext)
  | held c m sent rest hl hc hother hsplit htext hwriting =>
    exact .held c m sent rest hl hc hother hsplit (hsame.trans htext) fun _ _ _ => rfl

/-- A step of one core, by what becomes of its level, its flag and its messages. -/
theorem Inv.of_core {p : Pc} {items : List Item} {level : ℕ} {flag : Bool} {printed' : List (ℕ × Message)}
    (hi : Inv s₀ h s printed) (hprinter : Printer s' printed') (hints : s'.ints = (s.withCore c level flag).ints)
    (hpc : ∀ d, s'.pc d = if d = c then p else s.pc d) (htodo : ∀ d, s'.todo d = if d = c then items else s.todo d)
    (hlevel : level = s₀.ints.lockLevel c + if p = .next then 0 else 1) (hflag : level ≠ 0 → flag = false)
    (hitems : ∀ i ∈ items, i ∈ s.todo c) (hother : ∀ d, d ≠ c → printedOn d printed' = printedOn d printed)
    (hsame : printedOn c printed' ++ (p.inHand ++ messages items) =
      printedOn c printed ++ ((s.pc c).inHand ++ messages (s.todo c))) : Inv s₀ h s' printed' := by
  refine ⟨fun d => ?_, fun d hl => ?_, fun d i hd => ?_, hprinter, fun d => ?_⟩
  · rw [hints, hpc, withCore_lockLevel]
    by_cases hd : d = c
    · rw [if_pos hd, if_pos hd, hd, hlevel]
    · rw [if_neg hd, if_neg hd, hi.levels d]
  · rw [hints, withCore_lockLevel] at hl
    rw [hints, withCore_enabled]
    by_cases hd : d = c
    · rw [if_pos hd] at hl ⊢
      exact hflag hl
    · rw [if_neg hd] at hl ⊢
      exact hi.masked d hl
  · rw [htodo] at hd
    by_cases hdc : d = c
    · rw [if_pos hdc] at hd
      exact hi.saved d i (hdc ▸ hitems i hd)
    · rw [if_neg hdc] at hd
      exact hi.saved d i hd
  · have hd := hi.accounts d
    rw [hpc, htodo]
    by_cases hdc : d = c
    · subst hdc
      rwa [if_pos rfl, if_pos rfl, List.append_assoc, hsame, ← List.append_assoc]
    · rwa [if_neg hdc, if_neg hdc, hother d hdc]

theorem todo_same (d : ℕ) : s.todo d = if d = c then s.todo c else s.todo d := by
  by_cases hd : d = c
  · rw [if_pos hd, hd]
  · rw [if_neg hd]

theorem withCore_same : s.ints = (s.withCore c (s.ints.lockLevel c) (s.ints.enabled c)).ints :=
  InterruptLock.withCore_self.symm

theorem Inv.core (hi : Inv s₀ h s printed) (hs : CoreStep c s s') : ∃ printed', Inv s₀ h s' printed' := by
  have hlevel := hi.levels c
  have hmasked := hi.masked c
  have hquiet {p : Pc} {t : State} (hpc : ∀ d, t.pc d = if d = c then p else s.pc d)
      (hold : (s.pc c).holding = none) (hnew : p.holding = none) (d : ℕ) :
      t.pc d = s.pc d ∨ ((t.pc d).holding = none ∧ (s.pc d).holding = none) := by
    rw [hpc]
    by_cases hd : d = c
    · rw [if_pos hd, hd]
      exact .inr ⟨hnew, hold⟩
    · rw [if_neg hd]
      exact .inl rfl
  cases hs with
  | lock m items hpc htodo hl =>
    rw [hpc, if_pos rfl, Nat.add_zero] at hlevel
    refine ⟨printed, hi.of_core (p := .grabbing m) (hi.printer.congr rfl rfl rfl ?_) rfl (by simp)
      (leave_todo _ c · items) (by simp [hlevel]) (fun _ => ?_) (fun i hm => ?_) (fun _ _ => rfl) ?_⟩
    · exact hquiet (p := .grabbing m) (by simp) (by rw [hpc]; rfl) rfl
    · by_cases hz : s.ints.lockLevel c = 0
      · simp [hz]
      · simp [hmasked hz]
    · rw [htodo]
      exact .tail _ hm
    · rw [hpc, htodo]
      rfl
  | iret flag pc items hpc htodo =>
    rw [hpc, if_pos rfl, Nat.add_zero] at hlevel
    obtain ⟨m, hm⟩ | ⟨he, hz⟩ := hi.saved c (.iret flag pc) (by rw [htodo]; exact .head _)
    · cases hm
    · obtain ⟨rfl, rfl⟩ := Item.iret.inj he
      refine ⟨printed, hi.of_core (p := .next) (hi.printer.congr rfl rfl rfl ?_) rfl (by simp)
        (leave_todo _ c · items) (by simp [hlevel]) (fun hl => ?_) (fun i hm => ?_) (fun _ _ => rfl) ?_⟩
      · exact hquiet (p := .next) (by simp) (by rw [hpc]; rfl) rfl
      · omega
      · rw [htodo]
        exact .tail _ hm
      · rw [hpc, htodo]
        rfl
  | grab m hpc hl =>
    rw [hpc, if_neg (by simp)] at hlevel
    refine ⟨printed, hi.of_core (p := .polling m m.text) (hi.printer.grab hl) withCore_same (by simp)
      todo_same (by simp [hlevel]) hmasked (fun _ => id) (fun _ _ => rfl) ?_⟩
    · rw [hpc]
      rfl
  | release m hpc =>
    rw [hpc, if_neg (by simp)] at hlevel
    refine ⟨printed ++ [(c, m)], hi.of_core (p := .unlocking) (hi.printer.release hpc)
      (by rw [goto_ints, releaseLock_ints]; exact withCore_same) (by simp)
      (fun d => by rw [goto_todo, releaseLock_todo]; exact todo_same d) (by simp [hlevel]) hmasked (fun _ => id) (fun d hd => ?_) ?_⟩
    · rw [printedOn_append, if_neg (Ne.symm hd), List.append_nil]
    · rw [printedOn_append, if_pos rfl, hpc, List.append_assoc]
      rfl
  | poll m x rest hpc hthr =>
    rw [hpc, if_neg (by simp)] at hlevel
    refine ⟨printed, hi.of_core (p := .writing m x rest) (hi.printer.poll hpc hthr) withCore_same (by simp)
      todo_same (by simp [hlevel]) hmasked (fun _ => id) (fun _ _ => rfl) ?_⟩
    · rw [hpc]
      rfl
  | write m x rest hpc =>
    rw [hpc, if_neg (by simp)] at hlevel
    refine ⟨printed, hi.of_core (p := .polling m rest) (hi.printer.write hpc) withCore_same (by simp)
      todo_same (by simp [hlevel]) hmasked (fun _ => id) (fun _ _ => rfl) ?_⟩
    · rw [hpc]
      rfl
  | unlock hpc hl =>
    rw [hpc, if_neg (by simp)] at hlevel
    refine ⟨printed, hi.of_core (p := .next) (hi.printer.congr rfl rfl rfl ?_) rfl (by simp)
      todo_same (by simp [hlevel]) (fun hne => ?_) (fun _ => id) (fun _ _ => rfl) ?_⟩
    · exact hquiet (p := .next) (by simp) (by rw [hpc]; rfl) rfl
    · have hone : s.ints.lockLevel c ≠ 1 := by omega
      simp [hone, hmasked hl]
    · rw [hpc]
      rfl
  | spin => exact ⟨printed, hi⟩

theorem messages_enter (ms : List Message) (flag : Bool) (p : Pc) (items : List Item) :
    messages (ms.map Item.message ++ Item.iret flag p :: items) = ms ++ messages items := by
  rw [messages, List.flatMap_append, List.flatMap_map, List.flatMap_cons]
  simp [Item.messages, messages]

/-- A core takes interrupts between two messages only. -/
theorem Inv.idle_of_enabled (hi : Inv s₀ h s printed) (hen : s.ints.enabled c = true) :
    s.pc c = .next ∧ s₀.ints.lockLevel c = 0 := by
  have hz : s.ints.lockLevel c = 0 := by
    by_contra hne
    rw [hi.masked c hne] at hen
    cases hen
  have hlevel := hi.levels c
  by_cases hpc : s.pc c = .next
  · rw [if_pos hpc] at hlevel
    exact ⟨hpc, by omega⟩
  · rw [if_neg hpc] at hlevel
    omega

theorem handlersOn_append (d : ℕ) (a : Action) : handlersOn d (h ++ [a]) = handlersOn d h ++ a.handlers d := by
  simp [handlersOn]

theorem Inv.quiet {a : Action} (hi : Inv s₀ h s printed) (ha : ∀ d, a.handlers d = []) :
    Inv s₀ (h ++ [a]) s printed :=
  ⟨hi.levels, hi.masked, hi.saved, hi.printer, fun d => by
    rw [handlersOn_append, ha, List.append_nil]
    exact hi.accounts d⟩

theorem Inv.interrupt (hi : Inv s₀ h s printed) (hen : s.ints.enabled c = true) (ms : List Message) :
    Inv s₀ (h ++ [.interrupt c ms]) (enter c ms s) printed := by
  obtain ⟨hpc, hz⟩ := hi.idle_of_enabled hen
  have hpcs (d : ℕ) : (enter c ms s).pc d = s.pc d := by
    by_cases hd : d = c
    · simp [enter, hd, hpc]
    · simp [enter, hd]
  refine ⟨fun d => ?_, fun d hl => ?_, fun d i hd => ?_, ?_, fun d => ?_⟩
  · rw [hpcs]
    exact hi.levels d
  · by_cases hd : d = c
    · simp [enter, setFlag, hd]
    · simpa [enter, setFlag, hd] using hi.masked d hl
  · by_cases hdc : d = c
    · subst hdc
      simp only [enter, leave_todo, if_true, List.mem_append, List.mem_map, List.mem_cons] at hd
      rcases hd with ⟨m, -, rfl⟩ | rfl | hd
      · exact .inl ⟨m, rfl⟩
      · exact .inr ⟨by rw [hen, hpc], hz⟩
      · exact hi.saved d i hd
    · exact hi.saved d i (by simpa [enter, hdc] using hd)
  · exact hi.printer.congr rfl rfl rfl fun d => .inl (hpcs d)
  · have hd := hi.accounts d
    rw [handlersOn_append, hpcs]
    by_cases hdc : d = c
    · subst hdc
      rw [hpc] at hd ⊢
      have hins := Inserted.insert _ (printedOn d printed) ms _ (by simpa [Pc.inHand] using hd)
      simpa [enter, messages_enter, Action.handlers, Pc.inHand] using hins
    · simpa [enter, Action.handlers, hdc, Ne.symm hdc] using hd

/-- A step that no exception causes. -/
def Regular (s : State) (a : Action) (s' : State) : Prop :=
  step s a = some s' ∧ a.isException = false

theorem Inv.step {a : Action} (hi : Inv s₀ h s printed) (hs : Regular s a s') :
    ∃ printed', Inv s₀ (h ++ [a]) s' printed' := by
  obtain ⟨hs, hregular⟩ := hs
  cases a with
  | core c =>
    obtain ⟨printed', hi'⟩ := hi.core (coreStep_cases hs)
    exact ⟨printed', hi'.quiet fun d => rfl⟩
  | transmit =>
    obtain ⟨x, hx, rfl⟩ := Option.map_eq_some_iff.mp hs
    have hi' : Inv s₀ h { s with thr := none, line := s.line ++ [x] } printed :=
      ⟨hi.levels, hi.masked, hi.saved, hi.printer.transmit hx, hi.accounts⟩
    exact ⟨printed, hi'.quiet fun d => rfl⟩
  | interrupt c ms =>
    obtain ⟨hen, hs⟩ := Option.ite_none_right_eq_some.mp hs
    obtain rfl := Option.some.inj hs
    exact ⟨printed, hi.interrupt hen ms⟩
  | exception c ms => cases hregular

theorem Inv.of_run (hs : Start s₀) (hrun : Run Regular s₀ h s) : ∃ printed, Inv s₀ h s printed :=
  hrun.invariant (fun h s => ∃ printed, Inv s₀ h s printed) ⟨[], hs.inv⟩ fun h s a s' hi hstep => by
    obtain ⟨printed, hi⟩ := hi
    exact hi.step hstep

/-- The line holds whole messages and a part of at most one more, and every message of every core is there, in
hand or to come, in the order of its program. -/
def Whole (s₀ : State) (h : List Action) (s : State) : Prop :=
  ∃ (printed : List (ℕ × Message)) (sent : List Char),
    s.line ++ s.thr.toList = textOf printed ++ sent ∧
    (sent ≠ [] → ∃ c m rest, (s.pc c).holding = some (m, rest) ∧ m.text = sent ++ rest) ∧
    ∀ c, Inserted (messages (s₀.todo c)) (handlersOn c h)
      (printedOn c printed ++ (s.pc c).inHand ++ messages (s.todo c))

/-- No order of the cores, the transmitter and the interrupts tears a message apart or loses one. -/
theorem log_whole (hs : Start s₀) (hrun : Run Regular s₀ h s) : Whole s₀ h s := by
  obtain ⟨printed, hi⟩ := Inv.of_run hs hrun
  cases hi.printer with
  | free hl hnone htext => exact ⟨printed, [], by rwa [List.append_nil], fun hne => absurd rfl hne, hi.accounts⟩
  | held c m sent rest hl hc hother hsplit htext =>
    exact ⟨printed, sent, htext, fun _ => ⟨c, m, rest, hc, hsplit⟩, hi.accounts⟩

theorem hello_nonzero : '\x00' ∉ ['h', 'i'] := by decide

/-- The message of a core. -/
def hello : Message := ⟨[⟨['h', 'i'], hello_nonzero⟩]⟩

/-- Two cores with a message each, and interrupts enabled. -/
def pair : State where
  ints := ⟨fun _ => 0, fun _ => true⟩
  lock := 0
  thr := none
  line := []
  pc _ := .next
  todo c := if c < 2 then [.message hello] else []

theorem start_pair : Start pair where
  idle _ := rfl
  plain c i hi := by
    have todo : pair.todo c = if c < 2 then [.message hello] else [] := rfl
    rw [todo] at hi
    by_cases hc : c < 2
    · rw [if_pos hc] at hi
      exact ⟨hello, List.mem_singleton.mp hi⟩
    · rw [if_neg hc] at hi
      exact absurd hi List.not_mem_nil
  lock := rfl
  thr := rfl
  line := rfl
  levels _ := Nat.zero_lt_succ 254
  masked _ h := absurd rfl h

/-- Core 1 is interrupted, core 0 writes its first character, and core 1 waits. -/
def turns : List Action :=
  [.interrupt 1 [hello], .core 0, .core 0, .core 0, .core 0, .transmit, .core 1, .core 1]

def regularStep (s : State) (a : Action) : Option State := if a.isException then none else step s a

theorem run_regular (he : exec regularStep s₀ h = some s) : Run Regular s₀ h s :=
  (run_of_exec _ he).mono fun s a s' hs => by
    obtain ⟨hregular, hstep⟩ := Option.ite_none_left_eq_some.mp hs
    exact ⟨hstep, by simpa using hregular⟩

theorem exec_turns : ∃ s, exec regularStep pair turns = some s ∧ s.line = ['h'] ∧
    (s.pc 0).holding = some (hello, ['i']) ∧ s.pc 1 = .grabbing hello ∧ s.lock = 1 := by
  cases he : exec regularStep pair turns with
  | none => exact absurd (congrArg Option.isSome he) (by decide +kernel)
  | some s =>
    have hs : (exec regularStep pair turns).map (fun s => (s.line, (s.pc 0).holding, s.pc 1, s.lock)) =
        some (['h'], some (hello, ['i']), .grabbing hello, 1) := by decide +kernel
    rw [he] at hs
    simp only [Option.map_some, Option.some.injEq, Prod.mk.injEq] at hs
    exact ⟨s, rfl, hs⟩

theorem log_whole_pair : ∃ s, s.line = ['h'] ∧ Whole pair turns s := by
  obtain ⟨s, he, hline, -⟩ := exec_turns
  exact ⟨s, hline, log_whole start_pair (run_regular he)⟩

end Invariant

end Raccoon.SerialLog
