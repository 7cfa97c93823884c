import Raccoon.SerialLog

/-!
An exception in the middle of a message. Its handler logs, and waits for the
lock that its own core holds.
-/

namespace Raccoon.SerialLog

open Runs

variable {s₀ s s' : State} {h h' : List Action} {c d : ℕ}

/-- The item does not lead back into a message that holds the lock of the printer. -/
def Item.Clean : Item → Prop
  | .message _ => True
  | .iret _ pc => pc.holding = none

/-- Behind the item, the core waits for the lock of the printer. -/
def Item.Bars : Item → Prop
  | .message _ => True
  | .iret _ pc => ∃ m, pc = .grabbing m

/-- Wherever the core goes on, it comes to wait for the lock of the printer. -/
def Barred (s : State) (c : ℕ) : Prop :=
  (∃ m, s.pc c = .grabbing m) ∨
  ∃ items i rest, s.todo c = items ++ i :: rest ∧ (∀ j ∈ items, j.Clean) ∧ i.Bars

/-- Core `c` holds the lock of the printer, and waits for it. -/
structure Silent (c : ℕ) (text : List Char) (s : State) : Prop where
  taken : s.lock ≠ 0
  nobody : ∀ d, (s.pc d).holding = none
  clean : ∀ d, d ≠ c → ∀ i ∈ s.todo d, i.Clean
  barred : Barred s c
  text : s.line ++ s.thr.toList = text

variable {text : List Char}

theorem Silent.core (hi : Silent c text s) (hs : CoreStep d s s') : Silent c text s' := by
  have hnone := hi.nobody d
  cases hs with
  | lock m items hpc htodo hl =>
    refine ⟨hi.taken, fun e => ?_, fun e he i hm => ?_, ?_, hi.text⟩
    · by_cases hed : e = d
      · simp [hed, Pc.holding]
      · simpa [hed] using hi.nobody e
    · by_cases hed : e = d
      · subst hed
        exact hi.clean e he i (by rw [htodo]; exact List.mem_cons_of_mem _ (by simpa using hm))
      · exact hi.clean e he i (by simpa [hed] using hm)
    · by_cases hcd : c = d
      · exact .inl ⟨m, by simp [hcd]⟩
      · simpa [Barred, hcd] using hi.barred
  | iret flag pc items hpc htodo =>
    -- the core that is barred returns to where it waits, or to another handler that is barred
    have hto : pc.holding = none ∧ (c = d → (∃ m, pc = .grabbing m) ∨
        ∃ before i rest, items = before ++ i :: rest ∧ (∀ j ∈ before, j.Clean) ∧ i.Bars) := by
      by_cases hcd : c = d
      · subst hcd
        rcases hi.barred with ⟨m, hm⟩ | ⟨before, i, rest, hsplit, hclean, hbars⟩
        · rw [hpc] at hm
          cases hm
        · rw [htodo] at hsplit
          cases before with
          | nil =>
            obtain ⟨rfl, rfl⟩ := List.cons.inj hsplit
            obtain ⟨m, rfl⟩ := hbars
            exact ⟨rfl, fun _ => .inl ⟨m, rfl⟩⟩
          | cons j before =>
            obtain ⟨rfl, rfl⟩ := List.cons.inj hsplit
            exact ⟨hclean _ (.head _), fun _ => .inr ⟨before, i, rest, rfl, fun k hk => hclean k (.tail _ hk), hbars⟩⟩
      · exact ⟨hi.clean d (Ne.symm hcd) (.iret flag pc) (by rw [htodo]; exact .head _), fun he => absurd he hcd⟩
    refine ⟨hi.taken, fun e => ?_, fun e he i hm => ?_, ?_, hi.text⟩
    · by_cases hed : e = d
      · simpa [hed] using hto.1
      · simpa [hed] using hi.nobody e
    · by_cases hed : e = d
      · subst hed
        exact hi.clean e he i (by rw [htodo]; exact List.mem_cons_of_mem _ (by simpa using hm))
      · exact hi.clean e he i (by simpa [hed] using hm)
    · by_cases hcd : c = d
      · simpa [Barred, hcd] using hto.2 hcd
      · simpa [Barred, hcd] using hi.barred
  | grab m hpc hl => exact absurd hl hi.taken
  | release m hpc | poll m x rest hpc hthr | write m x rest hpc =>
    rw [hpc] at hnone
    cases hnone
  | unlock hpc hl =>
    refine ⟨hi.taken, fun e => ?_, fun e he i hm => hi.clean e he i (by simpa using hm), ?_, hi.text⟩
    · by_cases hed : e = d
      · simp [hed, Pc.holding]
      · simpa [hed] using hi.nobody e
    · by_cases hcd : c = d
      · subst hcd
        rcases hi.barred with ⟨m, hm⟩ | hbar
        · rw [hpc] at hm
          cases hm
        · exact .inr (by simpa using hbar)
      · simpa [Barred, hcd] using hi.barred
  | spin => exact hi

theorem barred_enter (m : Message) (ms : List Message) : Barred (enter c (m :: ms) s) c := by
  refine .inr ⟨[], .message m, ms.map Item.message ++ Item.iret (s.ints.enabled c) (s.pc c) :: s.todo c, ?_, ?_,
    trivial⟩
  · simp [enter]
  · simp

theorem Barred.enter (hb : Barred s c) (hnone : (s.pc c).holding = none) (ms : List Message) :
    Barred (enter c ms s) c := by
  cases ms with
  | cons m ms => exact barred_enter m ms
  | nil =>
    rcases hb with ⟨m, hm⟩ | ⟨items, i, rest, hsplit, hclean, hbars⟩
    · exact .inr ⟨[], .iret (s.ints.enabled c) (s.pc c), s.todo c, by simp [SerialLog.enter], by simp, m, hm⟩
    · refine .inr ⟨.iret (s.ints.enabled c) (s.pc c) :: items, i, rest, by simp [SerialLog.enter, hsplit], ?_, hbars⟩
      intro j hj
      rcases List.mem_cons.mp hj with rfl | hj
      · exact hnone
      · exact hclean j hj

theorem Silent.enter (hi : Silent c text s) (d : ℕ) (ms : List Message) : Silent c text (enter d ms s) := by
  refine ⟨hi.taken, fun e => ?_, fun e he i hm => ?_, ?_, hi.text⟩
  · by_cases hed : e = d
    · simp [SerialLog.enter, hed, Pc.holding]
    · simpa [SerialLog.enter, hed] using hi.nobody e
  · by_cases hed : e = d
    · subst hed
      simp only [SerialLog.enter, leave_todo, if_true, List.mem_append, List.mem_map, List.mem_cons] at hm
      rcases hm with ⟨m, -, rfl⟩ | rfl | hm
      · trivial
      · exact hi.nobody e
      · exact hi.clean e he i hm
    · exact hi.clean e he i (by simpa [SerialLog.enter, hed] using hm)
  · by_cases hcd : c = d
    · subst hcd
      exact hi.barred.enter (hi.nobody c) ms
    · simpa [Barred, SerialLog.enter, hcd] using hi.barred

theorem Silent.step {a : Action} (hi : Silent c text s) (hs : step s a = some s') : Silent c text s' := by
  cases a with
  | core d => exact hi.core (coreStep_cases hs)
  | transmit =>
    obtain ⟨x, hx, rfl⟩ := Option.map_eq_some_iff.mp hs
    refine ⟨hi.taken, hi.nobody, hi.clean, hi.barred, ?_⟩
    rw [← hi.text, hx]
    simp
  | interrupt d ms =>
    obtain ⟨-, hs⟩ := Option.ite_none_right_eq_some.mp hs
    obtain rfl := Option.some.inj hs
    exact hi.enter d ms
  | exception d ms =>
    obtain rfl := Option.some.inj hs
    exact hi.enter d ms

/-- An exception whose handler logs, in the middle of a message, is the end of the log: no core ever puts another
byte on the line. -/
theorem exception_silences (hs : Start s₀) (hrun : Run Regular s₀ h s) (hc : (s.pc c).holding ≠ none)
    (m : Message) (ms : List Message)
    (hrun' : Run (fun s a s' => step s a = some s') (enter c (m :: ms) s) h' s') :
    s'.line ++ s'.thr.toList = s.line ++ s.thr.toList := by
  obtain ⟨printed, hi⟩ := Inv.of_run hs hrun
  obtain ⟨⟨m', rest⟩, hheld⟩ := Option.ne_none_iff_exists'.mp hc
  obtain ⟨hlock, hother, -⟩ := hi.printer.holder hheld
  have hsilent : Silent c (s.line ++ s.thr.toList) (enter c (m :: ms) s) := by
    refine ⟨?_, fun d => ?_, fun d hd i hm => ?_, barred_enter m ms, rfl⟩
    · simp [enter, hlock]
    · by_cases hd : d = c
      · simp [enter, hd, Pc.holding]
      · simpa [enter, hd] using hother d hd
    · rcases hi.saved d i (by simpa [enter, hd] using hm) with ⟨m, rfl⟩ | ⟨rfl, -⟩
      · trivial
      · rfl
  exact (hrun'.invariant (fun _ s' => Silent c (s.line ++ s.thr.toList) s') hsilent
    fun h s a s' hi hstep => hi.step hstep).text

/-- Core 0 takes an exception, and both cores wait. -/
def waits : List Action := [.core 0, .core 0, .core 1, .core 0]

theorem exception_silences_pair : ∃ s s', s.line = ['h'] ∧
    Run (fun s a s' => step s a = some s') (enter 0 [hello] s) waits s' ∧
    s'.line ++ s'.thr.toList = s.line ++ s.thr.toList := by
  obtain ⟨s, he, hline, hheld, -⟩ := exec_turns
  have hsome : ((exec regularStep pair turns).bind fun s => exec step (enter 0 [hello] s) waits).isSome = true := by
    decide +kernel
  rw [he] at hsome
  obtain ⟨s', hs'⟩ := Option.isSome_iff_exists.mp hsome
  have hc : (s.pc 0).holding ≠ none := by
    rw [hheld]
    simp
  exact ⟨s, s', hline, run_of_exec _ hs',
    exception_silences start_pair (run_regular he) hc hello [] (run_of_exec _ hs')⟩

end Raccoon.SerialLog
