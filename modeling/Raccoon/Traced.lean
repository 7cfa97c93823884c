import Mathlib.Data.List.Basic

/-!
Computations that may fail and that leave a trace of events, which a failure
does not take back.
-/

namespace Raccoon

structure Traced (ω ε σ : Type) where
  trace : List ω
  result : Except ε σ

namespace Traced

variable {ω ε σ τ : Type}

theorem ext {x y : Traced ω ε σ} (ht : x.trace = y.trace) (hr : x.result = y.result) : x = y := by
  cases x
  cases y
  cases ht
  cases hr
  rfl

def bind (x : Traced ω ε σ) (f : σ → Traced ω ε τ) : Traced ω ε τ :=
  match x.result with
  | .error e => ⟨x.trace, .error e⟩
  | .ok s => ⟨x.trace ++ (f s).trace, (f s).result⟩

instance : Monad (Traced ω ε) where
  pure s := ⟨[], .ok s⟩
  bind := bind

def lift (r : Except ε σ) : Traced ω ε σ := ⟨[], r⟩

def emit (e : ω) : Traced ω ε Unit := ⟨[e], .ok ()⟩

@[simp] theorem lift_ok_bind (s : σ) (f : σ → Traced ω ε τ) : (lift (.ok s) >>= f) = f s := rfl
@[simp] theorem lift_error_bind (e : ε) (f : σ → Traced ω ε τ) : (lift (.error e) >>= f) = ⟨[], .error e⟩ := rfl
@[simp] theorem pure_bind (s : σ) (f : σ → Traced ω ε τ) : ((pure s : Traced ω ε σ) >>= f) = f s := rfl
@[simp] theorem lift_result (r : Except ε σ) : (lift r : Traced ω ε σ).result = r := rfl
@[simp] theorem lift_trace (r : Except ε σ) : (lift r : Traced ω ε σ).trace = [] := rfl
@[simp] theorem pure_result (s : σ) : (pure s : Traced ω ε σ).result = .ok s := rfl

@[simp] theorem emit_bind_trace (e : ω) (f : Unit → Traced ω ε τ) :
    (emit e >>= f).trace = e :: (f ()).trace := rfl

@[simp] theorem emit_bind_result (e : ω) (f : Unit → Traced ω ε τ) : (emit e >>= f).result = (f ()).result := rfl

theorem bind_of_ok {x : Traced ω ε σ} {s : σ} (h : x.result = .ok s) (f : σ → Traced ω ε τ) :
    x >>= f = ⟨x.trace ++ (f s).trace, (f s).result⟩ := by
  change bind x f = _
  rw [bind, h]

theorem bind_of_error {x : Traced ω ε σ} {e : ε} (h : x.result = .error e) (f : σ → Traced ω ε τ) :
    x >>= f = ⟨x.trace, .error e⟩ := by
  change bind x f = _
  rw [bind, h]

theorem bind_right_inj {x : Traced ω ε σ} {f g : σ → Traced ω ε τ} :
    x >>= f = x >>= g ↔ ∀ s, x.result = .ok s → f s = g s := by
  cases h : x.result with
  | error e => simp [bind_of_error h]
  | ok s =>
    rw [bind_of_ok h, bind_of_ok h]
    simp only [mk.injEq, List.append_cancel_left_eq, Except.ok.injEq, forall_eq']
    exact ⟨fun hfg => ext hfg.1 hfg.2, fun hfg => by rw [hfg]; exact ⟨rfl, rfl⟩⟩

theorem emit_bind_eq_iff {a b : ω} {f g : Unit → Traced ω ε τ} :
    emit a >>= f = emit b >>= g ↔ a = b ∧ f () = g () := by
  constructor
  · intro h
    have htrace : a :: (f ()).trace = b :: (g ()).trace := congrArg Traced.trace h
    have hresult : (emit a >>= f).result = (emit b >>= g).result := congrArg Traced.result h
    rw [List.cons.injEq] at htrace
    exact ⟨htrace.1, ext htrace.2 hresult⟩
  · rintro ⟨rfl, h⟩
    exact bind_right_inj.mpr fun _ _ => h

theorem error_ne_emit_bind {a : ω} {e : ε} {f : Unit → Traced ω ε τ} : (⟨[], .error e⟩ : Traced ω ε τ) ≠ emit a >>= f := by
  intro h
  have htrace : [] = a :: (f ()).trace := congrArg Traced.trace h
  cases htrace

/-- The run gets to its end, with the value. -/
def Returns (x : Traced ω ε σ) (s : σ) : Prop := x.result = .ok s

theorem Returns.of_bind {x : Traced ω ε σ} {f : σ → Traced ω ε τ} {t : τ} (h : (x >>= f).Returns t) :
    ∃ s, x.Returns s ∧ (f s).Returns t := by
  rw [Returns] at h
  cases hx : x.result with
  | error e => rw [bind_of_error hx] at h; cases h
  | ok s => rw [bind_of_ok hx] at h; exact ⟨s, hx, h⟩

theorem Returns.of_lift_bind {x : Except ε σ} {f : σ → Traced ω ε τ} {t : τ} (h : (lift x >>= f).Returns t) :
    ∃ s, x = .ok s ∧ (f s).Returns t := h.of_bind

theorem Returns.of_emit_bind {e : ω} {f : Unit → Traced ω ε τ} {t : τ} (h : (emit e >>= f).Returns t) :
    (f ()).Returns t := h

theorem Returns.bind {x : Traced ω ε σ} {f : σ → Traced ω ε τ} {s : σ} {t : τ} (hx : x.Returns s)
    (h : (f s).Returns t) : (x >>= f).Returns t := by
  rw [Returns, bind_of_ok hx]
  exact h

theorem length_le_bind (x : Traced ω ε σ) (f : σ → Traced ω ε τ) : x.trace.length ≤ (x >>= f).trace.length := by
  cases h : x.result with
  | error e => exact Nat.le_of_eq (by rw [bind_of_error h])
  | ok s =>
    rw [bind_of_ok h, List.length_append]
    exact Nat.le_add_right _ _

/-- A run that has failed does not catch up with a longer one. -/
theorem bind_ne_of_length {x y : Traced ω ε σ} {e : ε} (hx : x.result = .error e)
    (hlt : x.trace.length < y.trace.length) (f g : σ → Traced ω ε τ) : x >>= f ≠ y >>= g := by
  intro heq
  have hy := length_le_bind y g
  rw [← heq, bind_of_error hx] at hy
  exact Nat.not_le.mpr hlt hy

end Traced

end Raccoon
