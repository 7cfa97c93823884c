import Mathlib.Algebra.BigOperators.Group.Finset.Basic
import Raccoon.SerialLog

/-!
The cores cannot come to a deadlock over the printer: what is left of the work
falls with every step that is not a turn of a waiting loop, and there is such a
step until all messages are written.
-/

namespace Raccoon.SerialLog

open Runs

variable {s₀ s s' : State} {h : List Action} {printed : List (ℕ × Message)} {c n : ℕ}

/-- More than the steps that are left to a core where it is. -/
def Pc.work : Pc → ℕ
  | .next => 0
  | .grabbing m => 3 * m.text.length + 3
  | .polling _ rest => 3 * rest.length + 2
  | .writing _ _ rest => 3 * rest.length + 4
  | .unlocking => 1

def Item.work : Item → ℕ
  | .message m => 3 * m.text.length + 4
  | .iret _ pc => pc.work + 1

def State.coreWork (s : State) (c : ℕ) : ℕ := (s.pc c).work + ((s.todo c).map Item.work).sum

def State.work (n : ℕ) (s : State) : ℕ := ∑ c ∈ Finset.range n, s.coreWork c + s.thr.toList.length

/-- The cores from `n` on have nothing to do. -/
def Within (n : ℕ) (s : State) : Prop := ∀ c, n ≤ c → s.pc c = .next ∧ s.todo c = []

def Done (s : State) : Prop := (∀ c, s.pc c = .next ∧ s.todo c = []) ∧ s.thr = none

/-- A step towards the end. -/
def Advances (n : ℕ) (s s' : State) : Prop :=
  ∃ a, Regular s a s' ∧ (∀ d, a.handlers d = []) ∧ Within n s' ∧ s'.work n < s.work n

theorem sum_change {f g : ℕ → ℕ} (hc : c < n) (hother : ∀ d, d ≠ c → g d = f d) :
    ∑ d ∈ Finset.range n, g d + f c = ∑ d ∈ Finset.range n, f d + g c := by
  have hmem := Finset.mem_range.mpr hc
  rw [← Finset.add_sum_erase _ f hmem, ← Finset.add_sum_erase _ g hmem,
    Finset.sum_congr rfl fun d hd => hother d (Finset.ne_of_mem_erase hd), Nat.add_right_comm,
    Nat.add_right_comm (f c), Nat.add_comm (g c)]

theorem Advances.core {p : Pc} {q : List Item} (hw : Within n s) (hc : c < n)
    (hs : coreStep c s = some s') (hpc : ∀ d, s'.pc d = if d = c then p else s.pc d)
    (htodo : ∀ d, s'.todo d = if d = c then q else s.todo d)
    (hless : p.work + (q.map Item.work).sum + s'.thr.toList.length < s.coreWork c + s.thr.toList.length) :
    Advances n s s' := by
  refine ⟨.core c, ⟨hs, rfl⟩, fun d => rfl, fun d hd => ?_, ?_⟩
  · have hne : d ≠ c := by omega
    rw [hpc, htodo, if_neg hne, if_neg hne]
    exact hw d hd
  · have hsum := sum_change (f := s.coreWork) (g := s'.coreWork) hc fun d hd => by
      rw [State.coreWork, hpc, htodo, if_neg hd, if_neg hd, State.coreWork]
    have hat : s'.coreWork c = p.work + (q.map Item.work).sum := by
      rw [State.coreWork, hpc, htodo, if_pos rfl, if_pos rfl]
    unfold State.work
    omega

theorem Advances.stay {p : Pc} (hw : Within n s) (hc : c < n) (hs : coreStep c s = some s')
    (hpc : ∀ d, s'.pc d = if d = c then p else s.pc d) (htodo : s'.todo = s.todo)
    (hless : p.work + s'.thr.toList.length < (s.pc c).work + s.thr.toList.length) : Advances n s s' := by
  refine .core hw hc hs hpc (q := s.todo c) (fun d => ?_) ?_
  · rw [htodo]
    exact todo_same d
  · unfold State.coreWork
    omega

theorem advance_transmit {x : Char} (hw : Within n s) (hthr : s.thr = some x) : ∃ s', Advances n s s' := by
  refine ⟨{ s with thr := none, line := s.line ++ [x] }, .transmit, ⟨?_, rfl⟩, fun d => rfl, hw, ?_⟩
  · rw [step, transmit, hthr]
    rfl
  · simp [State.work, hthr, State.coreWork]

theorem Within.lt (hw : Within n s) (hc : ¬ (s.pc c = .next ∧ s.todo c = [])) : c < n := by
  by_contra hn
  exact hc (hw c (by omega))

theorem coreStep_grab {m : Message} (hpc : s.pc c = .grabbing m) (hl : s.lock = 0) :
    coreStep c s = some ({ s with lock := 1 }.goto c (.polling m m.text)) := by
  rw [coreStep, hpc]
  exact congrArg some (if_pos hl)

theorem coreStep_poll {m : Message} {x : Char} {rest : List Char} (hpc : s.pc c = .polling m (x :: rest))
    (hthr : s.thr = none) : coreStep c s = some (s.goto c (.writing m x rest)) := by
  rw [coreStep, hpc]
  exact congrArg some (if_pos hthr)

theorem coreStep_write {m : Message} {x : Char} {rest : List Char} (hpc : s.pc c = .writing m x rest) :
    coreStep c s = some ({ s with thr := some x }.goto c (.polling m rest)) := by
  rw [coreStep, hpc]

theorem coreStep_release {m : Message} (hpc : s.pc c = .polling m []) :
    coreStep c s = some ((releaseLock s).goto c .unlocking) := by
  rw [coreStep, hpc]

theorem coreStep_lock {m : Message} {items : List Item} (hpc : s.pc c = .next) (htodo : s.todo c = .message m :: items)
    (hl : s.ints.lockLevel c ≠ 255) : coreStep c s = some (((s.withCore c (s.ints.lockLevel c + 1)
      (s.ints.lockLevel c ≠ 0 && s.ints.enabled c)).goto c (.grabbing m)).leave c items) := by
  rw [coreStep, hpc, htodo]
  dsimp only
  rw [lockInts_self hl]
  rfl

theorem coreStep_unlock (hpc : s.pc c = .unlocking) (hl : s.ints.lockLevel c ≠ 0) :
    coreStep c s = some ((s.withCore c (s.ints.lockLevel c - 1)
      (s.ints.lockLevel c = 1 || s.ints.enabled c)).goto c .next) := by
  rw [coreStep, hpc]
  dsimp only
  rw [unlockInts_self hl]
  rfl

theorem advance_holder {m : Message} {rest : List Char} (hw : Within n s)
    (hc : (s.pc c).holding = some (m, rest)) : ∃ s', Advances n s s' := by
  have hlt : c < n := hw.lt fun hidle => by
    rw [hidle.1] at hc
    cases hc
  cases hpc : s.pc c with
  | next | grabbing m' | unlocking =>
    rw [hpc] at hc
    cases hc
  | writing m' x more =>
    refine ⟨_, .stay (p := .polling m' more) hw hlt (coreStep_write hpc) (by simp) rfl ?_⟩
    simp only [hpc, Pc.work, goto_thr, Option.toList_some, List.length_singleton]
    omega
  | polling m' more =>
    cases more with
    | nil =>
      refine ⟨_, .stay (p := .unlocking) hw hlt (coreStep_release hpc) (by simp) (by simp) ?_⟩
      simp only [hpc, Pc.work, goto_thr, releaseLock_thr, List.length_nil]
      omega
    | cons x more =>
      cases hthr : s.thr with
      | some y => exact advance_transmit hw hthr
      | none =>
        refine ⟨_, .stay (p := .writing m' x more) hw hlt (coreStep_poll hpc hthr) (by simp) rfl ?_⟩
        simp only [hpc, Pc.work, goto_thr, List.length_cons]
        omega

theorem Inv.advance_free (hi : Inv s₀ h s printed) (hs : Start s₀) (hw : Within n s) (hl : s.lock = 0)
    (hnone : ∀ c, (s.pc c).holding = none) (hc : ¬ (s.pc c = .next ∧ s.todo c = [])) :
    ∃ s', Advances n s s' := by
  have hlt := hw.lt hc
  have hlevel := hi.levels c
  have htop := hs.levels c
  cases hpc : s.pc c with
  | polling m rest | writing m x rest =>
    have hn := hnone c
    rw [hpc] at hn
    cases hn
  | grabbing m =>
    refine ⟨_, .stay (p := .polling m m.text) hw hlt (coreStep_grab hpc hl) (by simp) rfl ?_⟩
    simp only [hpc, Pc.work, goto_thr]
    omega
  | unlocking =>
    rw [hpc, if_neg (by simp)] at hlevel
    refine ⟨_, .stay (p := .next) hw hlt (coreStep_unlock hpc (by omega)) (by simp) rfl ?_⟩
    simp only [hpc, Pc.work, goto_thr, withCore_thr]
    omega
  | next =>
    rw [hpc, if_pos rfl] at hlevel
    cases htodo : s.todo c with
    | nil => exact absurd ⟨hpc, htodo⟩ hc
    | cons item items =>
      cases item with
      | message m =>
        refine ⟨_, .core (p := .grabbing m) (q := items) hw hlt (coreStep_lock hpc htodo (by omega)) (by simp)
          (by simp) ?_⟩
        simp only [State.coreWork, hpc, htodo, Pc.work, Item.work, leave_thr, goto_thr, withCore_thr, List.map_cons,
          List.sum_cons]
        omega
      | iret flag pc =>
        refine ⟨_, .core (p := pc) (q := items) hw hlt (by rw [coreStep, hpc, htodo]) (by simp) (by simp) ?_⟩
        simp only [State.coreWork, hpc, htodo, Pc.work, Item.work, leave_thr, goto_thr, List.map_cons, List.sum_cons]
        omega

theorem Inv.advance (hi : Inv s₀ h s printed) (hs : Start s₀) (hw : Within n s) :
    Done s ∨ ∃ s', Advances n s s' := by
  cases hi.printer with
  | held c m sent rest hl hc => exact .inr (advance_holder hw hc)
  | free hl hnone htext =>
    cases hthr : s.thr with
    | some x => exact .inr (advance_transmit hw hthr)
    | none =>
      by_cases hall : ∀ c, s.pc c = .next ∧ s.todo c = []
      · exact .inl ⟨hall, hthr⟩
      · obtain ⟨c, hc⟩ := not_forall.mp hall
        exact .inr (hi.advance_free hs hw hl hnone hc)

/-- Without further interrupts, some order of the steps leads to the end. -/
theorem Inv.finish (hi : Inv s₀ h s printed) (hs : Start s₀) (hw : Within n s) :
    ∃ h' s', Run Regular s h' s' ∧ (∀ d, handlersOn d h' = []) ∧ Done s' := by
  induction hk : s.work n using Nat.strong_induction_on generalizing h s printed with
  | _ k ih =>
    subst hk
    rcases hi.advance hs hw with hdone | ⟨t, a, hstep, hquiet, hwt, hless⟩
    · exact ⟨[], s, .nil, fun d => rfl, hdone⟩
    · obtain ⟨printed', hi'⟩ := hi.step hstep
      obtain ⟨h', s', hrun, hnone, hdone⟩ := ih _ hless hi' hwt rfl
      have hone : Run Regular s ([] ++ [a]) t := .snoc [] s t a .nil hstep
      refine ⟨_, s', hone.trans hrun, fun d => ?_, hdone⟩
      have hd := hnone d
      rw [handlersOn] at hd ⊢
      rw [List.flatMap_append, hd]
      simp [hquiet]

theorem Within.mono {n' : ℕ} (hw : Within n s) (hle : n ≤ n') : Within n' s := fun c hc => hw c (by omega)

theorem CoreStep.within (hs : CoreStep c s s') (hw : Within n s) : Within (max n (c + 1)) s' := by
  intro d hd
  have hne : d ≠ c := by omega
  have hidle := hw d (by omega)
  cases hs <;> simpa [hne] using hidle

theorem within_of_run (hfin : Within n s₀) (hrun : Run Regular s₀ h s) : ∃ n', Within n' s := by
  refine hrun.invariant (fun _ s => ∃ n', Within n' s) ⟨n, hfin⟩ fun h s a s' hn hstep => ?_
  obtain ⟨n', hw⟩ := hn
  cases a with
  | core c => exact ⟨_, (coreStep_cases hstep.1).within hw⟩
  | transmit =>
    obtain ⟨x, hx, rfl⟩ := Option.map_eq_some_iff.mp hstep.1
    exact ⟨n', hw⟩
  | interrupt c ms =>
    obtain ⟨hen, hs⟩ := Option.ite_none_right_eq_some.mp hstep.1
    obtain rfl := Option.some.inj hs
    refine ⟨max n' (c + 1), fun d hd => ?_⟩
    have hne : d ≠ c := by omega
    simpa [enter, hne] using hw d (by omega)
  | exception c ms => cases hstep.2

/-- Some order of the steps, without further interrupts, puts every message of every core on the line. -/
def Completes (s₀ : State) (h : List Action) (s : State) : Prop :=
  ∃ h' s' printed, Run Regular s h' s' ∧ (∀ d, handlersOn d h' = []) ∧ Done s' ∧ s'.line = textOf printed ∧
    ∀ c, Inserted (messages (s₀.todo c)) (handlersOn c h) (printedOn c printed)

/-- A core that waits for the printer does not wait for itself, nor for a core that can be interrupted, and there
is no deadlock. -/
theorem log_completes (hs : Start s₀) (hfin : Within n s₀) (hrun : Run Regular s₀ h s) :
    (∀ c m, s.pc c = .grabbing m → s.lock ≠ 0 →
      ∃ d, d ≠ c ∧ (s.pc d).holding.isSome ∧ s.ints.enabled d = false) ∧ Completes s₀ h s := by
  obtain ⟨printed, hi⟩ := Inv.of_run hs hrun
  refine ⟨fun c m hpc hl => ?_, ?_⟩
  · cases hi.printer with
    | free hl' => exact absurd hl' hl
    | held d m' sent rest hl' hd =>
      have hne : d ≠ c := by
        rintro rfl
        rw [hpc] at hd
        cases hd
      refine ⟨d, hne, by rw [hd]; rfl, hi.masked d ?_⟩
      have hbusy : s.pc d ≠ .next := by
        intro hn
        rw [hn] at hd
        cases hd
      rw [hi.levels, if_neg hbusy]
      omega
  · obtain ⟨n', hw⟩ := within_of_run hfin hrun
    obtain ⟨h', s', hrun', hnone, hdone⟩ := hi.finish hs hw
    obtain ⟨printed', hi'⟩ := Inv.of_run hs (hrun.trans hrun')
    have hidle (c : ℕ) : (s'.pc c).holding = none := by
      rw [(hdone.1 c).1]
      rfl
    refine ⟨h', s', printed', hrun', hnone, hdone, ?_, fun c => ?_⟩
    · cases hi'.printer with
      | free _ _ htext =>
        rw [hdone.2] at htext
        simpa using htext
      | held c m sent rest _ hc =>
        rw [hidle c] at hc
        cases hc
    · have hacc := hi'.accounts c
      rw [(hdone.1 c).1, (hdone.1 c).2, handlersOn, List.flatMap_append] at hacc
      change Inserted _ (handlersOn c h ++ handlersOn c h') _ at hacc
      rw [hnone, List.append_nil] at hacc
      simpa [Pc.inHand, messages] using hacc

theorem log_completes_pair : ∃ s, s.pc 1 = .grabbing hello ∧
    (∃ d, d ≠ 1 ∧ (s.pc d).holding.isSome ∧ s.ints.enabled d = false) ∧ Completes pair turns s := by
  obtain ⟨s, he, -, -, hwaits, hlock⟩ := exec_turns
  have hfin : Within 2 pair := fun c hc => ⟨rfl, if_neg (by omega)⟩
  obtain ⟨hholder, hcompletes⟩ := log_completes start_pair hfin (run_regular he)
  exact ⟨s, hwaits, hholder 1 hello hwaits (by omega), hcompletes⟩

end Raccoon.SerialLog
