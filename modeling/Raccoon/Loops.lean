import Mathlib.Algebra.Group.Int.Defs
import Mathlib.Algebra.Group.Nat.Defs
import Mathlib.Data.Nat.Find

/-!
Imperative loops that may return early, fail, or run for ever, with their
rules of pre- and postconditions. A bounded loop is a structural recursion on
the iterations left; an unbounded one is a step function run for some number
of steps.
-/

namespace Raccoon.Loops

/-- How a piece of straight-line code ends: it stops abnormally, it returns
from the enclosing function, or it falls through to the next statement. -/
inductive Outcome (ε ρ σ : Type) where
  | fail (e : ε)
  | done (r : ρ)
  | next (s : σ)
deriving DecidableEq, Repr

variable {ε ρ σ τ : Type}

namespace Outcome

def bind : Outcome ε ρ σ → (σ → Outcome ε ρ τ) → Outcome ε ρ τ
  | fail e, _ => fail e
  | done r, _ => done r
  | next s, f => f s

instance : Monad (Outcome ε ρ) where
  pure := next
  bind := bind

@[simp] theorem fail_bind (e : ε) (f : σ → Outcome ε ρ τ) : (fail e : Outcome ε ρ σ) >>= f = fail e := rfl
@[simp] theorem done_bind (r : ρ) (f : σ → Outcome ε ρ τ) : (done r : Outcome ε ρ σ) >>= f = done r := rfl
@[simp] theorem next_bind (s : σ) (f : σ → Outcome ε ρ τ) : (next s : Outcome ε ρ σ) >>= f = f s := rfl
@[simp] theorem pure_eq (s : σ) : (pure s : Outcome ε ρ σ) = next s := rfl

/-- The ways a run may end: `F` for failures, `R` for returns, `Q` for falling through. -/
def Ends (o : Outcome ε ρ σ) (F : ε → Prop) (R : ρ → Prop) (Q : σ → Prop) : Prop :=
  match o with
  | fail e => F e
  | done r => R r
  | next s => Q s

variable {F F' : ε → Prop} {R R' : ρ → Prop} {Q Q' : σ → Prop}

@[simp] theorem ends_fail (e : ε) : (fail e : Outcome ε ρ σ).Ends F R Q ↔ F e := Iff.rfl
@[simp] theorem ends_done (r : ρ) : (done r : Outcome ε ρ σ).Ends F R Q ↔ R r := Iff.rfl
@[simp] theorem ends_next (s : σ) : (next s : Outcome ε ρ σ).Ends F R Q ↔ Q s := Iff.rfl

theorem Ends.mono {o : Outcome ε ρ σ} (h : o.Ends F R Q) (hF : ∀ e, F e → F' e)
    (hR : ∀ r, R r → R' r) (hQ : ∀ s, Q s → Q' s) : o.Ends F' R' Q' := by
  cases o with
  | fail e => exact hF e h
  | done r => exact hR r h
  | next s => exact hQ s h

theorem Ends.and {o : Outcome ε ρ σ} (h : o.Ends F R Q) (h' : o.Ends F' R' Q') :
    o.Ends (fun e => F e ∧ F' e) (fun r => R r ∧ R' r) fun s => Q s ∧ Q' s := by
  cases o <;> exact ⟨h, h'⟩

theorem Ends.bind {o : Outcome ε ρ σ} {f : σ → Outcome ε ρ τ} {P : τ → Prop}
    (h : o.Ends F R Q) (hf : ∀ s, Q s → (f s).Ends F R P) : (o >>= f).Ends F R P := by
  cases o with
  | fail e => exact h
  | done r => exact h
  | next s => exact hf s h

end Outcome

open Outcome

/-- `for (; i < N; i++) body`, entered with `n = N - i` iterations left. -/
def forLoop (body : ℕ → σ → Outcome ε ρ σ) : ℕ → ℕ → σ → Outcome ε ρ σ
  | 0, _, s => .next s
  | n + 1, i, s => body i s >>= forLoop body n (i + 1)

theorem forLoop_head {body : ℕ → σ → Outcome ε ρ σ} {N i : ℕ} (hi : i < N) (s : σ) :
    forLoop body (N - i) i s = body i s >>= forLoop body (N - (i + 1)) (i + 1) := by
  obtain ⟨n, hn⟩ : ∃ n, N - i = n + 1 := ⟨N - i - 1, by omega⟩
  have hn' : N - (i + 1) = n := by omega
  rw [hn, hn', forLoop]

/-- The invariant rule of a bounded loop. -/
theorem forLoop_ends (body : ℕ → σ → Outcome ε ρ σ) {F : ε → Prop} {R : ρ → Prop} {N : ℕ}
    (Inv : ℕ → σ → Prop)
    (hbody : ∀ i s, i < N → Inv i s → (body i s).Ends F R (Inv (i + 1)))
    (i : ℕ) (s : σ) (hi : i ≤ N) (h : Inv i s) :
    (forLoop body (N - i) i s).Ends F R (Inv N) := by
  generalize hn : N - i = n
  induction n generalizing i s with
  | zero =>
    obtain rfl : i = N := by omega
    exact h
  | succ n ih =>
    have hlt : i < N := by omega
    exact (hbody i s hlt h).bind fun s' hs' => ih (i + 1) s' hlt hs' (by omega)

/-- `while (cond) body` inside a function, for at most `n` rounds; after them it fails with `e`. -/
def whileLoop (e : ε) (cond : σ → Bool) (body : σ → Outcome ε ρ σ) : ℕ → σ → Outcome ε ρ σ
  | 0, s => if cond s then .fail e else .next s
  | n + 1, s => if cond s then body s >>= whileLoop e cond body n else .next s

theorem whileLoop_exit {e : ε} {cond : σ → Bool} {body : σ → Outcome ε ρ σ} {s : σ} (h : cond s = false) (n : ℕ) :
    whileLoop e cond body n s = .next s := by
  cases n with
  | zero => rw [whileLoop, h, if_neg Bool.false_ne_true]
  | succ n => rw [whileLoop, h, if_neg Bool.false_ne_true]

theorem whileLoop_round {e : ε} {cond : σ → Bool} {body : σ → Outcome ε ρ σ} {s s' : σ} (h : cond s = true)
    (hs : body s = .next s') (n : ℕ) : whileLoop e cond body (n + 1) s = whileLoop e cond body n s' := by
  rw [whileLoop, if_pos h, hs, next_bind]

/-- The invariant rule of a loop that a measure bounds: it has as many rounds left as it needs. -/
theorem whileLoop_ends {e : ε} {cond : σ → Bool} {body : σ → Outcome ε ρ σ} {F : ε → Prop} {R : ρ → Prop}
    (Inv : σ → Prop) (m : σ → ℕ) (hpos : ∀ s, Inv s → cond s = true → 0 < m s)
    (hbody : ∀ s, Inv s → cond s = true → (body s).Ends F R fun s' => Inv s' ∧ m s' < m s)
    {n : ℕ} {s : σ} (hs : Inv s) (hn : m s ≤ n) :
    (whileLoop e cond body n s).Ends F R fun s' => Inv s' ∧ cond s' = false := by
  induction n generalizing s with
  | zero =>
    have hc : cond s = false := by
      by_contra hc
      have := hpos s hs (by simpa using hc)
      omega
    rw [whileLoop_exit hc]
    exact ⟨hs, hc⟩
  | succ n ih =>
    by_cases hc : cond s = true
    · rw [whileLoop, if_pos hc]
      exact (hbody s hs hc).bind fun s' ⟨hs', hlt⟩ => ih hs' (by omega)
    · rw [whileLoop, if_neg hc]
      exact ⟨hs, by simpa using hc⟩

/-- `n` iterations of an unbounded loop with the given body. -/
def runFor (step : σ → Outcome ε ρ σ) : ℕ → σ → Outcome ε ρ σ
  | 0, s => .next s
  | n + 1, s => step s >>= runFor step n

/-- The loop entered at `s` returns `r` after finitely many steps. -/
def Returns (step : σ → Outcome ε ρ σ) (s : σ) (r : ρ) : Prop := ∃ n, runFor step n s = .done r

section Unbounded

variable {step : σ → Outcome ε ρ σ} {s s' : σ} {r r' : ρ}

@[simp] theorem runFor_zero : runFor step 0 s = .next s := rfl

theorem runFor_succ (n : ℕ) : runFor step (n + 1) s = step s >>= runFor step n := rfl

theorem returns_of_done (h : step s = .done r) : Returns step s r := ⟨1, by simp [runFor, h]⟩

theorem returns_of_next (h : step s = .next s') : Returns step s r ↔ Returns step s' r := by
  constructor
  · rintro ⟨n, hn⟩
    cases n with
    | zero => cases hn
    | succ n => exact ⟨n, by simpa [runFor, h] using hn⟩
  · rintro ⟨n, hn⟩
    exact ⟨n + 1, by simpa [runFor, h] using hn⟩

theorem returns_done_iff (h : step s = .done r) : Returns step s r' ↔ r' = r := by
  constructor
  · rintro ⟨n, hn⟩
    cases n with
    | zero => cases hn
    | succ n =>
      rw [runFor_succ, h] at hn
      cases hn
      rfl
  · rintro rfl
    exact returns_of_done h

/-- A loop that runs another one to its end and goes on from what that returns. -/
theorem Returns.nested {α : Type} (body : τ → Outcome ε α τ) (run : τ → σ) (k : α → Outcome ε ρ σ) {t : τ}
    (h : Returns step (run t) r) (hfail : ∀ t e, body t = .fail e → step (run t) = .fail e)
    (hdone : ∀ t a, body t = .done a → step (run t) = k a)
    (hnext : ∀ t t', body t = .next t' → step (run t) = .next (run t')) :
    ∃ a, Returns body t a ∧ (k a = .done r ∨ ∃ s', k a = .next s' ∧ Returns step s' r) := by
  obtain ⟨n, hn⟩ := h
  induction n generalizing t with
  | zero => cases hn
  | succ n ih =>
    rw [runFor_succ] at hn
    cases hb : body t with
    | fail e =>
      rw [hfail t e hb] at hn
      cases hn
    | done a =>
      rw [hdone t a hb] at hn
      refine ⟨a, returns_of_done hb, ?_⟩
      cases hk : k a with
      | fail e =>
        rw [hk] at hn
        cases hn
      | done r' =>
        rw [hk] at hn
        cases hn
        exact .inl rfl
      | next s' =>
        rw [hk] at hn
        exact .inr ⟨s', rfl, n, hn⟩
    | next t' =>
      rw [hnext t t' hb] at hn
      obtain ⟨a, ha, hk⟩ := ih hn
      exact ⟨a, (returns_of_next hb).mpr ha, hk⟩

/-- The invariant rule of an unbounded loop: it says what a returned value satisfies. -/
theorem Returns.invariant (Inv : σ → Prop) (R : ρ → Prop)
    (hstep : ∀ s, Inv s → (step s).Ends (fun _ => True) R Inv)
    (hs : Inv s) (h : Returns step s r) : R r := by
  obtain ⟨n, hn⟩ := h
  induction n generalizing s with
  | zero => cases hn
  | succ n ih =>
    rw [runFor_succ] at hn
    have he := hstep s hs
    cases hc : step s with
    | fail e => rw [hc] at hn; cases hn
    | done r₀ =>
      rw [hc] at hn he
      cases hn
      exact he
    | next s₀ =>
      rw [hc] at hn he
      exact ih he hn

theorem Returns.unique (h : Returns step s r) (h' : Returns step s r') : r' = r := by
  refine Returns.invariant (fun s => Returns step s r) (· = r) (fun s hs => ?_) h h'
  cases hc : step s with
  | fail e => trivial
  | done r₀ => exact ((returns_done_iff hc).mp hs).symm
  | next s₀ => exact (returns_of_next hc).mp hs

/-- A loop that keeps an invariant under which it always continues never returns. -/
theorem not_returns_of_invariant (Inv : σ → Prop)
    (hstep : ∀ s, Inv s → ∃ s', step s = .next s' ∧ Inv s') (hs : Inv s) : ¬ Returns step s r := by
  intro h
  refine Returns.invariant Inv (fun _ => False) (fun s hi => ?_) hs h
  obtain ⟨s', he, hi'⟩ := hstep s hi
  simpa [he] using hi'

def Reaches (step : σ → Outcome ε ρ σ) (s s' : σ) : Prop := ∃ n, runFor step n s = .next s'

theorem Reaches.refl : Reaches step s s := ⟨0, rfl⟩

theorem Reaches.head {t : σ} (h : step s = .next s') (ht : Reaches step s' t) : Reaches step s t := by
  obtain ⟨n, hn⟩ := ht
  exact ⟨n + 1, by simp [runFor, h, hn]⟩

theorem Reaches.returns_iff (h : Reaches step s s') : Returns step s r ↔ Returns step s' r := by
  obtain ⟨n, hn⟩ := h
  induction n generalizing s with
  | zero => cases hn; rfl
  | succ n ih =>
    rw [runFor_succ] at hn
    cases hc : step s with
    | fail e => rw [hc] at hn; cases hn
    | done r => rw [hc] at hn; cases hn
    | next t =>
      rw [hc] at hn
      exact (returns_of_next hc).trans (ih hn)

theorem exists_first {P : ℕ → Prop} (h : ∃ c, P c) : ∃ c, P c ∧ ∀ c' < c, ¬ P c' := by
  classical
  exact ⟨Nat.find h, Nat.find_spec h, fun _ => Nat.find_min h⟩

variable (step) in
theorem reaches_seq (st : ℕ → σ) (n : ℕ) (h : ∀ c < n, step (st c) = .next (st (c + 1))) :
    Reaches step (st 0) (st n) := by
  induction n generalizing st with
  | zero => exact .refl
  | succ n ih =>
    exact .head (h 0 (Nat.succ_pos n)) (ih (fun c => st (c + 1)) fun c hc => h (c + 1) (Nat.succ_lt_succ hc))

theorem not_returns_seq (st : ℕ → σ) (h : ∀ c, step (st c) = .next (st (c + 1))) :
    ¬ Returns step (st 0) r :=
  not_returns_of_invariant (fun s => ∃ c, s = st c) (fun _ ⟨c, hc⟩ => ⟨_, hc ▸ h c, c + 1, rfl⟩) ⟨0, rfl⟩

variable (step) in
/-- A loop that walks along a sequence of states until the first one with property `stop`. -/
theorem returns_seq_iff (st : ℕ → σ) (stop : ℕ → Prop) (res : ℕ → ρ)
    (hstop : ∀ c, (∀ c' < c, ¬ stop c') → stop c → step (st c) = .done (res c))
    (hgo : ∀ c, (∀ c' < c, ¬ stop c') → ¬ stop c → step (st c) = .next (st (c + 1))) :
    Returns step (st 0) r ↔ ∃ c, stop c ∧ (∀ c' < c, ¬ stop c') ∧ r = res c := by
  by_cases hex : ∃ c, stop c
  · obtain ⟨c, hc, hmin⟩ := exists_first hex
    have hreach := reaches_seq step st c fun c' hc' =>
      hgo c' (fun c'' hc'' => hmin c'' (Nat.lt_trans hc'' hc')) (hmin c' hc')
    rw [hreach.returns_iff, returns_done_iff (hstop c hmin hc)]
    constructor
    · rintro rfl
      exact ⟨c, hc, hmin, rfl⟩
    · rintro ⟨c₁, hc₁, hmin₁, rfl⟩
      rcases Nat.lt_trichotomy c c₁ with hlt | rfl | hgt
      · exact absurd hc (hmin₁ c hlt)
      · rfl
      · exact absurd hc₁ (hmin c₁ hgt)
  · rw [not_exists] at hex
    exact iff_of_false (not_returns_seq st fun c => hgo c (fun c' _ => hex c') (hex c)) fun ⟨c, hc, _⟩ => hex c hc

end Unbounded

section Results

variable {ε α : Type} {x : Except ε α}

theorem ok_of_isOk (h : x.isOk = true) (d : α) : x = .ok (x.toOption.getD d) := by
  cases x with
  | ok a => rfl
  | error e => cases h

theorem ne_error_of_isOk (h : x.isOk = true) (e : ε) : x ≠ .error e := by
  rintro rfl
  cases h

end Results

end Raccoon.Loops
