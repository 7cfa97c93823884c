import Raccoon.Pic
import Raccoon.Runs

/-!
The interrupt lines of the boot loader, `irq.c`. The end of an interrupt is sent
to the first controller only, whichever of the two the line belongs to.
-/

namespace Raccoon.BootInterrupts

open Pic Runs

def irqRemap (p : Pair) : Pair :=
  [(0x20, 0x11), (0xA0, 0x11), (0x21, 0x20), (0xA1, 0x28), (0x21, 0x04), (0xA1, 0x02), (0x21, 0x01), (0xA1, 0x01),
    (0x21, 0x00), (0xA1, 0x00)].foldl (fun p w => p.outb w.1 w.2) p

inductive Stub where
  | isr (n : ℕ)
  | irq (n : ℕ)
deriving DecidableEq

structure Gate where
  stub : Stub
  gatetype : ℕ
deriving DecidableEq

/-- The gates that are present. Those of type `0b1110` are entered with the interrupts off. -/
def idtInit (v : ℕ) : Option Gate :=
  if v ≤ 19 then some ⟨.isr v, 0b1111⟩
  else if 32 ≤ v ∧ v ≤ 47 then some ⟨.irq v, 0b1110⟩
  else none

/-- What `change_args` leaves in `tab`. -/
def changeArgs (nberr code : ℕ) : ℕ × ℕ := (code, nberr)

structure Boot where
  pics : Pair
  tab : ℕ × ℕ
  enabled : Bool

/-- A line is raised, its vector is taken, its handler in `jumptableirq` has run, or there is no stub for it. -/
inductive Event where
  | request (n : ℕ)
  | interrupt (v : ℕ)
  | handled (n : ℕ)
  | lost (v : ℕ)

def raise (n : ℕ) (p : Pair) : Pair :=
  if n < 8 then { p with master := p.master.request n } else { p with slave := p.slave.request (n - 8) }

/-- The stub of a line passes its number, and `Basic_irq_handling` ends with `outb(0x20, 0x20)`. -/
def Step (s : Boot) (a : Event) (s' : Boot) : Prop :=
  match a with
  | .request n => n < 16 ∧ n ≠ 2 ∧ s' = { s with pics := raise n s.pics }
  | .interrupt v => s.enabled = true ∧ idtInit v = some ⟨.irq v, 0b1110⟩ ∧
      ∃ p, s.pics.accept = some (v, p) ∧ s' = ⟨p, changeArgs v 0, false⟩
  | .handled n => s.enabled = false ∧ s.tab.2 - 32 = n ∧ n < 16 ∧
      s' = { s with pics := s.pics.outb 0x20 0x20, enabled := true }
  | .lost v => s.enabled = true ∧ idtInit v ≠ some ⟨.irq v, 0b1110⟩ ∧ (∃ p, s.pics.accept = some (v, p)) ∧ s' = s

/-- Lines that are requested and taken in order, those of the slave as long as they are before all taken of it. -/
structure Arbiter where
  requested : ℕ → Bool
  limit : ℕ

inductive Line where
  | request (n : ℕ)
  | take (n : ℕ)
deriving DecidableEq

namespace Arbiter

def heard (a : Arbiter) (n : ℕ) : Bool := a.requested n && (decide (n < 8) || decide (n < a.limit))

def next (a : Arbiter) : Option ℕ := [0, 1, 8, 9, 10, 11, 12, 13, 14, 15, 3, 4, 5, 6, 7].find? a.heard

def request (n : ℕ) (a : Arbiter) : Arbiter := { a with requested := Function.update a.requested n true }

def take (n : ℕ) (a : Arbiter) : Arbiter :=
  ⟨Function.update a.requested n false, if n < 8 then a.limit else n⟩

def Step (a : Arbiter) (l : Line) (a' : Arbiter) : Prop :=
  match l with
  | .request n => a' = a.request n
  | .take n => a.next = some n ∧ a' = a.take n

def taken (h : List Line) : List ℕ :=
  h.filterMap fun
    | .take n => some n
    | .request _ => none

variable {a a₀ : Arbiter} {n : ℕ} {h : List Line}

theorem next_heard (hn : a.next = some n) : n < 16 ∧ a.requested n = true ∧ (8 ≤ n → n < a.limit) := by
  have hmem := List.mem_of_find?_eq_some hn
  have hheard := List.find?_some hn
  simp only [heard, Bool.and_eq_true, Bool.or_eq_true, decide_eq_true_eq] at hheard
  simp only [List.mem_cons, List.not_mem_nil, or_false] at hmem
  exact ⟨by omega, hheard.1, fun h8 => hheard.2.resolve_left (by omega)⟩

/-- The lines of the slave come down, and no request is served twice. -/
structure Kept (a₀ : Arbiter) (h : List Line) (a : Arbiter) : Prop where
  down : ((taken h).filter fun n => 8 ≤ n).Pairwise (· > ·)
  above : ∀ n ∈ taken h, 8 ≤ n → a.limit ≤ n
  once : ∀ n, h.count (.take n) + (a.requested n).toNat ≤ h.count (.request n) + (a₀.requested n).toNat

theorem Kept.step {l : Line} {a' : Arbiter} (hk : Kept a₀ h a) (hs : Step a l a') : Kept a₀ (h ++ [l]) a' := by
  cases l with
  | request m =>
    obtain rfl := hs
    have htaken : taken (h ++ [.request m]) = taken h := by simp [taken]
    refine ⟨htaken ▸ hk.down, htaken ▸ hk.above, fun n => ?_⟩
    have hn := hk.once n
    simp only [List.count_append, List.count_singleton, beq_iff_eq, reduceCtorEq, if_false, Line.request.injEq, request]
    by_cases hm : m = n
    · subst hm
      rw [Function.update_self, if_pos rfl]
      have := Bool.toNat_le (a.requested m)
      simp only [Bool.toNat_true]
      omega
    · rw [Function.update_of_ne (Ne.symm hm), if_neg hm]
      omega
  | take m =>
    obtain ⟨hnext, rfl⟩ := hs
    obtain ⟨-, hreq, hlimit⟩ := next_heard hnext
    have htaken : taken (h ++ [.take m]) = taken h ++ [m] := by simp [taken]
    refine ⟨?_, fun n hn h8 => ?_, fun n => ?_⟩
    · rw [htaken, List.filter_append, List.pairwise_append]
      refine ⟨hk.down, by by_cases hm : 8 ≤ m <;> simp [hm], fun x hx y hy => ?_⟩
      obtain ⟨hx, hx8⟩ := List.mem_filter.mp hx
      obtain ⟨hy, hy8⟩ := List.mem_filter.mp hy
      obtain rfl := List.mem_singleton.mp hy
      have hle := hk.above x hx (by simpa using hx8)
      have hlt := hlimit (by simpa using hy8)
      omega
    · rw [htaken] at hn
      rcases List.mem_append.mp hn with hn | hn
      · have hle := hk.above n hn h8
        unfold take
        dsimp only
        split
        · exact hle
        · have := hlimit (by omega)
          omega
      · obtain rfl := List.mem_singleton.mp hn
        unfold take
        dsimp only
        refine Nat.le_of_eq ?_
        rw [if_neg (by omega)]
    · have hn := hk.once n
      simp only [List.count_append, List.count_singleton, beq_iff_eq, reduceCtorEq, if_false, Line.take.injEq, take]
      by_cases hm : m = n
      · subst hm
        rw [Function.update_self, if_pos rfl, Bool.toNat_false]
        rw [hreq, Bool.toNat_true] at hn
        omega
      · rw [Function.update_of_ne (Ne.symm hm), if_neg hm]
        omega

theorem Kept.of_run (hrun : Run Step a₀ h a) : Kept a₀ h a :=
  hrun.invariant (fun h a => Kept a₀ h a) ⟨.nil, fun _ hn => absurd hn List.not_mem_nil, fun n => by simp⟩
    fun _ _ _ _ hk hs => hk.step hs

end Arbiter

section Chips

/-- A chip behind its four initialisation words and an empty mask. -/
structure Programmed (base cascade : ℕ) (c : Chip) : Prop where
  ready : c.stage = .ready
  base : c.base = base
  cascade : c.cascade = cascade
  autoEoi : c.autoEoi = false
  imr : c.imr = noLine

structure Remapped (p : Pair) : Prop where
  master : Programmed 32 4 p.master
  slave : Programmed 40 2 p.slave
  line : p.master.irr 2 = false

variable {p : Pair} {c : Chip} {i j n : ℕ}

theorem irqRemap_remapped (p : Pair) : Remapped (irqRemap p) ∧ (irqRemap p).master.isr = noLine ∧
    (irqRemap p).slave.isr = noLine ∧ (irqRemap p).master.irr = noLine ∧ (irqRemap p).slave.irr = noLine := by
  have hmask : Nat.testBit 0x00 = noLine := funext Nat.zero_testBit
  exact ⟨⟨⟨rfl, rfl, rfl, rfl, hmask⟩, ⟨rfl, rfl, rfl, rfl, hmask⟩, rfl⟩, rfl, rfl, rfl, rfl⟩

/-- The lines as the arbiter sees them. -/
def arbiter (p : Pair) : Arbiter where
  requested n := if n < 8 then p.master.irr n else p.slave.irr (n - 8)
  limit := 8 + (first p.slave.isr).getD 8

def served (n : ℕ) (p : Pair) : Pair :=
  if n < 8 then ⟨p.master.acknowledge n, p.slave⟩ else ⟨p.master.acknowledge 2, p.slave.acknowledge (n - 8)⟩

/-- The line of the master that a line comes in on. -/
def inlet (n : ℕ) : ℕ := if n < 8 then n else 2

theorem lt_limit (hj : j < 8) : j < (first c.isr).getD 8 ↔ ∀ i ≤ j, c.isr i = false := by
  cases hf : first c.isr with
  | none => exact ⟨fun _ i hi => first_eq_none.mp hf i (by omega), fun _ => hj⟩
  | some m =>
    obtain ⟨hm, -, hbelow⟩ := first_eq_some.mp hf
    refine ⟨fun hlt i hi => hbelow i (Nat.lt_of_le_of_lt hi hlt), fun hall => ?_⟩
    by_contra hle
    have hfalse := hall m (by simpa using hle)
    rw [hm] at hfalse
    cases hfalse

theorem slave_pending (hr : Remapped p) : p.slave.pending = first fun j => (arbiter p).heard (8 + j) := by
  have hheard {j : ℕ} (hj : j < 8) : (arbiter p).heard (8 + j) = true ↔
      p.slave.irr j = true ∧ ∀ i ≤ j, p.slave.isr i = false := by
    have hlimit := lt_limit (c := p.slave) hj
    have hsub : 8 + j - 8 = j := by omega
    have hge : ¬ 8 + j < 8 := by omega
    simp only [Arbiter.heard, arbiter, hsub, hge, if_false, decide_false, Bool.false_or, Bool.and_eq_true,
      decide_eq_true_eq, Nat.add_lt_add_iff_left, hlimit]
  refine Option.ext fun i => ?_
  rw [Chip.pending_eq_some, first_eq_some, first_eq_some, hr.slave.imr]
  simp only [noLine, Bool.not_false, Bool.and_true]
  constructor
  · rintro ⟨⟨hi, hi8, hbelow⟩, hfree⟩
    refine ⟨(hheard hi8).mpr ⟨hi, hfree⟩, hi8, fun j hj => ?_⟩
    by_contra hc
    have hreq := ((hheard (j := j) (by omega)).mp (by simpa using hc)).1
    rw [hbelow j hj] at hreq
    cases hreq
  · rintro ⟨hi, hi8, hbelow⟩
    obtain ⟨hreq, hfree⟩ := (hheard hi8).mp hi
    refine ⟨⟨hreq, hi8, fun j hj => ?_⟩, hfree⟩
    by_contra hc
    have hheard' := (hheard (j := j) (by omega)).mpr ⟨by simpa using hc, fun i hi => hfree i (by omega)⟩
    rw [hbelow j hj] at hheard'
    cases hheard'

theorem master_pending (hr : Remapped p) (hisr : p.master.isr = noLine) : p.inputs.pending = first p.inputs.irr := by
  have himr : p.inputs.imr = noLine := hr.master.imr
  have hisr' : p.inputs.isr = noLine := hisr
  refine Option.ext fun i => ?_
  rw [Chip.pending_eq_some, himr, hisr']
  simp only [noLine, Bool.not_false, Bool.and_true, implies_true, and_true]

/-- The processor gets the vector of the line that the arbiter takes next. -/
theorem accept_eq (hr : Remapped p) (hisr : p.master.isr = noLine) :
    p.accept = (arbiter p).next.map fun n => (32 + n, served n p) := by
  have hbehind (i : ℕ) : p.behind i = decide (i = 2) := by
    rw [Pair.behind, hr.master.cascade, hr.slave.cascade]
    by_cases hi : i = 2
    · subst hi
      rfl
    · have hne : (2 % 8 == i) = false := by simpa using Ne.symm hi
      rw [hne, Bool.and_false, decide_eq_false hi]
  have hown {i : ℕ} (hi : i ≠ 2) (h8 : i < 8) : p.inputs.irr i = (arbiter p).heard i := by
    simp only [Pair.inputs, hbehind, hi, decide_false, Bool.false_and, Bool.or_false, Arbiter.heard, arbiter, h8,
      if_true, decide_true, Bool.true_or, Bool.and_true]
  have hslave : p.inputs.irr 2 = p.slave.pending.isSome := by
    simp only [Pair.inputs, hbehind, decide_true, Bool.true_and, hr.line, Bool.false_or]
  have hinlet : [2].find? p.inputs.irr = p.slave.pending.map fun _ => 2 := by
    rw [List.find?_cons, hslave]
    cases p.slave.pending <;> rfl
  have hlow : [0, 1].find? p.inputs.irr = [0, 1].find? (arbiter p).heard := by
    simp only [List.find?_cons, hown (i := 0) (by decide) (by decide), hown (i := 1) (by decide) (by decide),
      List.find?_nil]
  have hhigh : [3, 4, 5, 6, 7].find? p.inputs.irr = [3, 4, 5, 6, 7].find? (arbiter p).heard := by
    simp only [List.find?_cons, hown (i := 3) (by decide) (by decide), hown (i := 4) (by decide) (by decide),
      hown (i := 5) (by decide) (by decide), hown (i := 6) (by decide) (by decide),
      hown (i := 7) (by decide) (by decide), List.find?_nil]
  have hfirst : first p.inputs.irr = ([0, 1].find? p.inputs.irr).or
      (([2].find? p.inputs.irr).or ([3, 4, 5, 6, 7].find? p.inputs.irr)) := by
    rw [← List.find?_append, ← List.find?_append]
    rfl
  have hsecond : [8, 9, 10, 11, 12, 13, 14, 15].find? (arbiter p).heard = p.slave.pending.map (8 + ·) := by
    rw [slave_pending hr]
    exact List.find?_map (f := (8 + ·)) (l := List.range 8)
  have hnext : (arbiter p).next = ([0, 1].find? (arbiter p).heard).or
      ((p.slave.pending.map (8 + ·)).or ([3, 4, 5, 6, 7].find? (arbiter p).heard)) := by
    rw [← hsecond, ← List.find?_append, ← List.find?_append]
    rfl
  have hdirect {i : ℕ} (hi : i ≠ 2) (h8 : i < 8) (hp : p.inputs.pending = some i) :
      p.accept = some (32 + i, served i p) := by
    rw [Pair.accept, hp, Option.bind_eq_bind, Option.bind_some, hbehind, decide_eq_false hi,
      if_neg Bool.false_ne_true, hr.master.base, served, if_pos h8]
  rw [hnext, ← hlow]
  have hpending := master_pending hr hisr
  rw [hfirst] at hpending
  cases hl : [0, 1].find? p.inputs.irr with
  | some i =>
    have hmem := List.mem_of_find?_eq_some hl
    simp only [List.mem_cons, List.not_mem_nil, or_false] at hmem
    rw [hl, Option.some_or] at hpending
    exact hdirect (by omega) (by omega) hpending
  | none =>
    rw [hl, Option.none_or, hinlet] at hpending
    rw [Option.none_or]
    cases hs : p.slave.pending with
    | some j =>
      rw [hs, Option.map_some, Option.some_or] at hpending
      rw [Pair.accept, hpending, Option.bind_eq_bind, Option.bind_some, hbehind, decide_eq_true rfl,
        if_pos rfl, hs]
      have hge : ¬ 8 + j < 8 := by omega
      have hsub : 8 + j - 8 = j := by omega
      simp only [Option.bind_some, Option.map_some, Option.some_or, served, hge, hsub, if_false,
        hr.slave.base, Option.some.injEq, Prod.mk.injEq, and_true]
      omega
    | none =>
      rw [hs, Option.map_none, Option.none_or, hhigh] at hpending
      rw [Option.map_none, Option.none_or]
      cases hh : [3, 4, 5, 6, 7].find? (arbiter p).heard with
      | some i =>
        have hmem := List.mem_of_find?_eq_some hh
        simp only [List.mem_cons, List.not_mem_nil, or_false] at hmem
        rw [hh] at hpending
        exact hdirect (by omega) (by omega) hpending
      | none =>
        rw [hh] at hpending
        rw [Pair.accept, hpending]
        rfl

theorem Programmed.acknowledge {base cascade : ℕ} (h : Programmed base cascade c) :
    Programmed base cascade (c.acknowledge i) := ⟨h.ready, h.base, h.cascade, h.autoEoi, h.imr⟩

theorem Programmed.isr_acknowledge {base cascade : ℕ} (h : Programmed base cascade c) :
    (c.acknowledge i).isr = Function.update c.isr i true := by
  change (if c.autoEoi = true then c.isr else Function.update c.isr i true) = _
  rw [if_neg (by rw [h.autoEoi]; exact Bool.false_ne_true)]

theorem remapped_served (hr : Remapped p) : Remapped (served n p) ∧
    (served n p).master.isr = Function.update p.master.isr (inlet n) true := by
  unfold served inlet
  have hline (i : ℕ) : Function.update p.master.irr i false 2 = false := by
    by_cases hi : 2 = i
    · subst hi
      exact Function.update_self ..
    · rw [Function.update_of_ne hi, hr.line]
  split
  · exact ⟨⟨hr.master.acknowledge, hr.slave, hline n⟩, hr.master.isr_acknowledge⟩
  · exact ⟨⟨hr.master.acknowledge, hr.slave.acknowledge, hline 2⟩, hr.master.isr_acknowledge⟩

theorem arbiter_served (hr : Remapped p) (hn : (arbiter p).next = some n) :
    arbiter (served n p) = (arbiter p).take n := by
  obtain ⟨h16, -, hlimit⟩ := Arbiter.next_heard hn
  unfold served Arbiter.take
  by_cases h8 : n < 8
  · rw [if_pos h8, if_pos h8]
    refine congrArg₂ Arbiter.mk (funext fun m => ?_) rfl
    by_cases hm : m = n
    · subst hm
      rw [Function.update_self, if_pos h8]
      exact Function.update_self ..
    · rw [Function.update_of_ne hm]
      dsimp only [arbiter, Chip.acknowledge]
      rw [Function.update_of_ne hm]
  · rw [if_neg h8, if_neg h8]
    have hfree := (lt_limit (c := p.slave) (j := n - 8) (by omega)).mp (by
      have := hlimit (by omega)
      unfold arbiter at this
      dsimp only at this
      omega)
    have hfirst : first (p.slave.acknowledge (n - 8)).isr = some (n - 8) := by
      rw [hr.slave.isr_acknowledge]
      refine first_eq_some.mpr ⟨Function.update_self .., by omega, fun j hj => ?_⟩
      rw [Function.update_of_ne (by omega)]
      exact hfree j (by omega)
    refine congrArg₂ Arbiter.mk (funext fun m => ?_) ?_
    · by_cases hm : m = n
      · subst hm
        rw [Function.update_self, if_neg h8]
        exact Function.update_self ..
      · rw [Function.update_of_ne hm]
        dsimp only [arbiter, Chip.acknowledge]
        by_cases hm8 : m < 8
        · rw [if_pos hm8, if_pos hm8]
          by_cases hm2 : m = 2
          · subst hm2
            rw [Function.update_self, hr.line]
          · rw [Function.update_of_ne hm2]
        · rw [if_neg hm8, if_neg hm8, Function.update_of_ne (by omega)]
    · rw [hfirst, Option.getD_some]
      omega

theorem remapped_raise (hr : Remapped p) (hn : n ≠ 2) : Remapped (raise n p) ∧
    (raise n p).master.isr = p.master.isr ∧ arbiter (raise n p) = (arbiter p).request n := by
  unfold raise
  by_cases h8 : n < 8
  · rw [if_pos h8]
    refine ⟨⟨⟨hr.master.ready, hr.master.base, hr.master.cascade, hr.master.autoEoi, hr.master.imr⟩, hr.slave, ?_⟩,
      rfl, congrArg₂ Arbiter.mk (funext fun m => ?_) rfl⟩
    · exact (Function.update_of_ne (Ne.symm hn) ..).trans hr.line
    · dsimp only [arbiter, Chip.request]
      by_cases hm : m = n
      · subst hm
        rw [Function.update_self, if_pos h8, Function.update_self]
      · rw [Function.update_of_ne hm, Function.update_of_ne hm]
  · rw [if_neg h8]
    refine ⟨⟨hr.master, ⟨hr.slave.ready, hr.slave.base, hr.slave.cascade, hr.slave.autoEoi, hr.slave.imr⟩, hr.line⟩,
      rfl, congrArg₂ Arbiter.mk (funext fun m => ?_) rfl⟩
    dsimp only [arbiter, Chip.request]
    by_cases hm : m = n
    · subst hm
      rw [Function.update_self, if_neg h8, Function.update_self]
    · rw [Function.update_of_ne hm]
      by_cases hm8 : m < 8
      · rw [if_pos hm8, if_pos hm8]
      · rw [if_neg hm8, if_neg hm8, Function.update_of_ne (by omega)]

theorem outb_eoi (p : Pair) : p.outb 0x20 0x20 = { p with master := p.master.eoi } := rfl

theorem arbiter_irqRemap (p : Pair) : arbiter (irqRemap p) = ⟨noLine, 16⟩ := by
  obtain ⟨-, -, hisr, hmaster, hslave⟩ := irqRemap_remapped p
  have hnone : first noLine = none := first_eq_none.mpr fun _ _ => rfl
  refine congrArg₂ Arbiter.mk (funext fun m => ?_) ?_
  · rw [hmaster, hslave]
    exact ite_self _
  · rw [hisr, hnone]
    rfl

end Chips

section Runs

def Event.line : Event → Option Line
  | .request n => some (.request n)
  | .interrupt v => some (.take (v - 32))
  | .handled _ => none
  | .lost _ => none

def Event.handler : Event → Option ℕ
  | .handled n => some n
  | .request _ => none
  | .interrupt _ => none
  | .lost _ => none

variable {s s' : Boot} {h : List Event} {p : Pair}

/-- The line whose handler runs. -/
def running (s : Boot) : List ℕ := if s.enabled then [] else [s.tab.2 - 32]

structure Inv (s : Boot) : Prop where
  remapped : Remapped s.pics
  idle : s.enabled = true → s.pics.master.isr = noLine
  busy : s.enabled = false → ∃ n < 16, s.tab.2 = 32 + n ∧ s.pics.master.isr = Function.update noLine (inlet n) true

theorem Inv.accept {v : ℕ} {q : Pair} (hi : Inv s) (he : s.enabled = true) (ha : s.pics.accept = some (v, q)) :
    ∃ n < 16, (arbiter s.pics).next = some n ∧ v = 32 + n ∧ q = served n s.pics := by
  rw [accept_eq hi.remapped (hi.idle he)] at ha
  obtain ⟨n, hn, hv⟩ := Option.map_eq_some_iff.mp ha
  obtain ⟨rfl, rfl⟩ := Prod.mk.inj hv
  exact ⟨n, (Arbiter.next_heard hn).1, hn, rfl, rfl⟩

theorem idtInit_irq {n : ℕ} (hn : n < 16) : idtInit (32 + n) = some ⟨.irq (32 + n), 0b1110⟩ := by
  rw [idtInit, if_neg (by omega), if_pos (by omega)]

/-- A step of the boot loader is a step of the arbiter, or none. -/
theorem Inv.step {a : Event} (hi : Inv s) (hs : Step s a s') : Inv s' ∧ (∀ v, a ≠ .lost v) ∧
    Run Arbiter.Step (arbiter s.pics) a.line.toList (arbiter s'.pics) ∧
    a.handler.toList ++ running s' = running s ++ Arbiter.taken a.line.toList := by
  cases a with
  | request n =>
    obtain ⟨-, hn, rfl⟩ := hs
    obtain ⟨hr, hisr, hreq⟩ := remapped_raise hi.remapped hn
    exact ⟨⟨hr, fun he => hisr.trans (hi.idle he), fun he => by
      obtain ⟨m, hm, ht, hm'⟩ := hi.busy he
      exact ⟨m, hm, ht, hisr.trans hm'⟩⟩, nofun, .snoc [] _ _ _ .nil hreq, (List.append_nil _).symm⟩
  | interrupt v =>
    obtain ⟨he, -, q, ha, rfl⟩ := hs
    obtain ⟨n, hn, hnext, rfl, rfl⟩ := hi.accept he ha
    obtain ⟨hr, hisr⟩ := remapped_served (n := n) hi.remapped
    have hsub : 32 + n - 32 = n := by omega
    refine ⟨⟨hr, nofun, fun _ => ⟨n, hn, rfl, ?_⟩⟩, nofun, ?_, ?_⟩
    · dsimp only
      rw [hisr, hi.idle he]
    · rw [Event.line, hsub]
      exact .snoc [] _ _ _ .nil ⟨hnext, arbiter_served hi.remapped hnext⟩
    · rw [running, running, he]
      rfl
  | handled n =>
    obtain ⟨he, ht, hn, rfl⟩ := hs
    obtain ⟨m, hm, -, hisr⟩ := hi.busy he
    have hinlet : inlet m < 8 := by
      unfold inlet
      split <;> omega
    have heoi := Chip.eoi_only hinlet hisr
    have hr := hi.remapped
    rw [outb_eoi, heoi]
    refine ⟨⟨⟨⟨hr.master.ready, hr.master.base, hr.master.cascade, hr.master.autoEoi, hr.master.imr⟩, hr.slave,
      hr.line⟩, fun _ => rfl, nofun⟩, nofun, .nil, ?_⟩
    rw [running, running, he, ← ht]
    rfl
  | lost v =>
    obtain ⟨he, hgate, ⟨q, ha⟩, -⟩ := hs
    obtain ⟨n, hn, -, rfl, -⟩ := hi.accept he ha
    exact absurd (idtInit_irq hn) hgate

theorem Inv.run {tab : ℕ × ℕ} (hrun : Run Step ⟨irqRemap p, tab, true⟩ h s) : Inv s ∧ (∀ v, .lost v ∉ h) ∧
    Run Arbiter.Step ⟨noLine, 16⟩ (h.filterMap Event.line) (arbiter s.pics) ∧
    h.filterMap Event.handler ++ running s = Arbiter.taken (h.filterMap Event.line) := by
  obtain ⟨hr, hisr, -⟩ := irqRemap_remapped p
  refine hrun.invariant (fun h s => Inv s ∧ (∀ v, .lost v ∉ h) ∧
    Run Arbiter.Step ⟨noLine, 16⟩ (h.filterMap Event.line) (arbiter s.pics) ∧
    h.filterMap Event.handler ++ running s = Arbiter.taken (h.filterMap Event.line))
    ⟨⟨hr, fun _ => hisr, nofun⟩, fun _ => List.not_mem_nil, arbiter_irqRemap p ▸ .nil, rfl⟩ ?_
  rintro h s a s' ⟨hi, hlost, hlines, hhandlers⟩ hstep
  obtain ⟨hi', hnot, hline, hhandler⟩ := hi.step hstep
  have hsplit {β : Type} (f : Event → Option β) : (h ++ [a]).filterMap f = h.filterMap f ++ (f a).toList := by
    rw [List.filterMap_append]
    cases hf : f a <;> simp [hf]
  refine ⟨hi', fun v hv => ?_, ?_, ?_⟩
  · rcases List.mem_append.mp hv with hv | hv
    · exact hlost v hv
    · exact hnot v (List.mem_singleton.mp hv).symm
  · rw [hsplit]
    exact hlines.trans hline
  · rw [hsplit, hsplit, List.append_assoc, hhandler, ← List.append_assoc, hhandlers, Arbiter.taken, Arbiter.taken,
      ← List.filterMap_append]
    rfl

/-- The interrupts of the boot loader are those of an arbiter that hears a line of the slave only before all those
it has taken of it; each is handled by the handler of its line, and none is without a gate. -/
theorem irqs_taken {tab : ℕ × ℕ} (hrun : Run Step ⟨irqRemap p, tab, true⟩ h s) :
    Run Arbiter.Step ⟨noLine, 16⟩ (h.filterMap Event.line) (arbiter s.pics) ∧ (∀ v, .lost v ∉ h) ∧
      h.filterMap Event.handler ++ running s = Arbiter.taken (h.filterMap Event.line) ∧
      (s.enabled = true → ∀ v, (∃ s', Step s (.interrupt v) s') ↔
        ∃ n, (arbiter s.pics).next = some n ∧ v = 32 + n) ∧
      (s.enabled = false → ∃ n s', Step s (.handled n) s') := by
  obtain ⟨hi, hlost, hlines, hhandlers⟩ := Inv.run hrun
  refine ⟨hlines, hlost, hhandlers, fun he v => ⟨?_, ?_⟩, fun he => ?_⟩
  · rintro ⟨s', -, -, q, ha, -⟩
    obtain ⟨n, -, hn, hv, -⟩ := hi.accept he ha
    exact ⟨n, hn, hv⟩
  · rintro ⟨n, hn, rfl⟩
    refine ⟨_, he, idtInit_irq (Arbiter.next_heard hn).1, served n s.pics, ?_, rfl⟩
    rw [accept_eq hi.remapped (hi.idle he), hn, Option.map_some]
  · obtain ⟨n, hn, ht, -⟩ := hi.busy he
    exact ⟨n, _, he, by omega, hn, rfl⟩

/-- No request is served twice, and the lines of the slave are served at most once each, from the last one down. -/
theorem slave_heard_once {tab : ℕ × ℕ} (hrun : Run Step ⟨irqRemap p, tab, true⟩ h s) :
    ((h.filterMap Event.handler).filter fun n => 8 ≤ n).Pairwise (· > ·) ∧
      ∀ n, (h.filterMap Event.handler).count n ≤ (h.filterMap Event.line).count (.request n) := by
  obtain ⟨-, -, hlines, hhandlers⟩ := Inv.run hrun
  have hk := Arbiter.Kept.of_run hlines
  have hsub : (h.filterMap Event.handler).Sublist (Arbiter.taken (h.filterMap Event.line)) :=
    hhandlers ▸ List.sublist_append_left ..
  refine ⟨hk.down.sublist (hsub.filter _), fun n => ?_⟩
  have hcount : (Arbiter.taken (h.filterMap Event.line)).count n = (h.filterMap Event.line).count (.take n) := by
    generalize h.filterMap Event.line = l
    induction l with
    | nil => rfl
    | cons x l ih =>
      cases x with
      | request m => simpa [Arbiter.taken, List.count_cons] using ih
      | take m =>
        have hstep : Arbiter.taken (.take m :: l) = m :: Arbiter.taken l := rfl
        rw [hstep, List.count_cons, List.count_cons, ih]
        simp
  have honce := hk.once n
  have hle := hsub.count_le n
  rw [hcount] at hle
  simp only [noLine, Bool.toNat_false] at honce
  omega

def bootPics : Pair :=
  ⟨⟨.ready, false, false, 0, 0, false, noLine, noLine, noLine⟩, ⟨.ready, false, false, 0, 0, false, noLine, noLine, noLine⟩⟩

/-- A line is raised, taken, and its handler has run. -/
def serving (n : ℕ) : List Event := [.request n, .interrupt (32 + n), .handled n]

def afterServing (n : ℕ) (p : Pair) : Pair := (served n (raise n p)).outb 0x20 0x20

theorem serving_run {p : Pair} {tab : ℕ × ℕ} {n : ℕ} (hn : n < 16) (h2 : n ≠ 2)
    (haccept : (raise n p).accept = some (32 + n, served n (raise n p)))
    (hgate : idtInit (32 + n) = some ⟨.irq (32 + n), 0b1110⟩) :
    Run Step ⟨p, tab, true⟩ (serving n) ⟨afterServing n p, changeArgs (32 + n) 0, true⟩ := by
  have hraise : Step ⟨p, tab, true⟩ (.request n) ⟨raise n p, tab, true⟩ := ⟨hn, h2, rfl⟩
  have htake : Step ⟨raise n p, tab, true⟩ (.interrupt (32 + n))
      ⟨served n (raise n p), changeArgs (32 + n) 0, false⟩ := ⟨rfl, hgate, _, haccept, rfl⟩
  have hdone : Step ⟨served n (raise n p), changeArgs (32 + n) 0, false⟩ (.handled n)
      ⟨afterServing n p, changeArgs (32 + n) 0, true⟩ := ⟨rfl, Nat.add_sub_cancel_left .., hn, rfl⟩
  exact .snoc [_, _] _ _ _ (.snoc [_] _ _ _ (.snoc [] _ _ _ .nil hraise) htake) hdone

/-- A line of the slave, and the clock after it. -/
def clockEvents : List Event := serving 9 ++ serving 8

def clockDone : Boot := ⟨afterServing 8 (afterServing 9 (irqRemap bootPics)), changeArgs 40 0, true⟩

theorem clock_run : Run Step ⟨irqRemap bootPics, (0, 0), true⟩ clockEvents clockDone :=
  (serving_run (by decide) (by decide) rfl (by decide)).trans (serving_run (by decide) (by decide) rfl (by decide))

theorem irqs_taken_clock :
    Run Arbiter.Step ⟨noLine, 16⟩ (clockEvents.filterMap Event.line) (arbiter clockDone.pics) ∧
      clockEvents.filterMap Event.handler ++ running clockDone =
        Arbiter.taken (clockEvents.filterMap Event.line) := by
  obtain ⟨hlines, -, hhandlers, -⟩ := irqs_taken clock_run
  exact ⟨hlines, hhandlers⟩

theorem slave_heard_once_clock :
    ((clockEvents.filterMap Event.handler).filter fun n => 8 ≤ n).Pairwise (· > ·) ∧
      (clockEvents.filterMap Event.handler).filter (fun n => 8 ≤ n) = [9, 8] ∧
      ∀ n, (clockEvents.filterMap Event.handler).count n ≤ (clockEvents.filterMap Event.line).count (.request n) := by
  obtain ⟨hdown, honce⟩ := slave_heard_once clock_run
  exact ⟨hdown, by decide, honce⟩

end Runs

end Raccoon.BootInterrupts
