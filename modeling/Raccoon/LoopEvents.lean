import Raccoon.Loops

/-!
Events of a loop, in the order in which they happen and also when the run
fails later. The rules are for code that asks questions on its way, each of
which it may not survive: an event happens where the answer is yes.
-/

namespace Raccoon.Loops

open Outcome

variable {ε ρ σ τ E X : Type}

/-- The events after a piece of code, where it gets to its end. -/
def Outcome.events (o : Outcome ε ρ σ) (after : σ → List E) : List E :=
  match o with
  | next s => after s
  | _ => []

/-- The events of `forLoop body`, given those of its body. -/
def forEvents (body : ℕ → σ → Outcome ε ρ σ) (ev : ℕ → σ → List E) : ℕ → ℕ → σ → List E
  | 0, _, _ => []
  | n + 1, i, s => ev i s ++ (body i s).events (forEvents body ev n (i + 1))

section Questions

variable (ask : X → Option Bool)

def AllNo (xs : List X) : Prop := ∀ x ∈ xs, ask x = some false

/-- The first question that is not answered no, if there is one, is not answered yes either. -/
def NeverYes : List X → Prop
  | [] => True
  | x :: xs => ask x ≠ some true ∧ (ask x = some false → NeverYes xs)

instance NeverYes.decidable : ∀ xs, Decidable (NeverYes ask xs)
  | [] => isTrue trivial
  | _ :: xs => @instDecidableAnd _ _ inferInstance (@instDecidableForall _ _ inferInstance (NeverYes.decidable xs))

variable {ask}

theorem allNo_append {xs ys : List X} : AllNo ask (xs ++ ys) ↔ AllNo ask xs ∧ AllNo ask ys := List.forall_mem_append

theorem neverYes_append (xs ys : List X) :
    NeverYes ask (xs ++ ys) ↔ NeverYes ask xs ∧ (AllNo ask xs → NeverYes ask ys) := by
  induction xs with
  | nil => simp [NeverYes, AllNo]
  | cons x xs ih =>
    by_cases hx : ask x = some false
    · simp [NeverYes, AllNo, hx, ih]
    · simp [NeverYes, AllNo, hx]

end Questions

section Rules

variable {ask : X → Option Bool} {B : E → Prop} {xs ys : List X} {Fin Fin' : Prop} {Q : σ → Prop} {P : τ → Prop}
  {o : Outcome ε ρ σ} {ev : List E}

/-- The code with outcome `o` asks `xs` in order and has the events `ev`, the first of which satisfies `B`. Without
an event it fails only at a question that is not answered no, and it returns only where `Fin` holds. -/
structure Asks (ask : X → Option Bool) (B : E → Prop) (xs : List X) (Fin : Prop) (Q : σ → Prop)
    (o : Outcome ε ρ σ) (ev : List E) : Prop where
  silent : ev = [] ↔ NeverYes ask xs
  first : ∀ e ∈ ev.head?, B e
  ends : ev = [] → o.Ends (fun _ => ¬ AllNo ask xs) (fun _ => Fin) fun s => AllNo ask xs ∧ Q s

theorem Asks.of_ends (h : o.Ends (fun _ => False) (fun _ => Fin) Q) : Asks ask B [] Fin Q o [] where
  silent := iff_of_true rfl trivial
  first := by simp
  ends _ := h.mono (fun _ h => h.elim) (fun _ h => h) fun _ h => ⟨by simp [AllNo], h⟩

/-- If the first event is always a bad one, all events are good only where there is none. -/
theorem Asks.forall_iff {G : E → Prop} (h : Asks ask (¬ G ·) xs Fin Q o ev) :
    (∀ e ∈ ev, G e) ↔ NeverYes ask xs := by
  rw [← h.silent]
  cases ev with
  | nil => simp
  | cons e rest =>
    have hbad : ¬ G e := h.first e rfl
    exact iff_of_false (fun hall => hbad (hall e List.mem_cons_self)) nofun

theorem Asks.mono {Q' : σ → Prop} (h : Asks ask B xs Fin Q o ev) (hfin : Fin → Fin') (hQ : ∀ s, Q s → Q' s) :
    Asks ask B xs Fin' Q' o ev where
  silent := h.silent
  first := h.first
  ends hev := (h.ends hev).mono (fun _ h => h) (fun _ h => hfin h) fun s h => ⟨h.1, hQ s h.2⟩

theorem Asks.map {f : σ → τ} (h : Asks ask B xs Fin Q o ev) (hf : ∀ s, Q s → P (f s)) :
    Asks ask B xs Fin P (o >>= fun s => next (f s)) ev where
  silent := h.silent
  first := h.first
  ends hev := by
    have hends := h.ends hev
    cases o with
    | fail e => exact hends
    | done r => exact hends
    | next s => exact ⟨hends.1, hf s hends.2⟩

/-- A return of the first part asks nothing of the second. -/
theorem Asks.bind {f : σ → Outcome ε ρ τ} {after : σ → List E} (h : Asks ask B xs Fin Q o ev)
    (hf : ∀ s, Q s → Asks ask B ys Fin' P (f s) (after s)) (hys : Fin → ys = []) (hfin : Fin → Fin') :
    Asks ask B (xs ++ ys) Fin' P (o >>= f) (ev ++ o.events after) := by
  by_cases hev : ev = []
  · subst hev
    have hxs := h.silent.mp rfl
    have hends := h.ends rfl
    cases o with
    | fail e =>
      have hno : ¬ AllNo ask xs := hends
      exact ⟨iff_of_true rfl ((neverYes_append xs ys).mpr ⟨hxs, fun hc => absurd hc hno⟩), by simp [events],
        fun _ => fun hc => hno (allNo_append.mp hc).1⟩
    | done r =>
      obtain rfl := hys hends
      rw [List.append_nil]
      exact ⟨iff_of_true rfl hxs, by simp [events], fun _ => hfin hends⟩
    | next s =>
      obtain ⟨hall, hs⟩ : AllNo ask xs ∧ Q s := hends
      obtain ⟨hsilent, hfirst, hends'⟩ := hf s hs
      refine ⟨hsilent.trans ?_, hfirst, fun hnone => (hends' hnone).mono (fun _ hc ha => hc (allNo_append.mp ha).2)
        (fun _ h => h) fun _ ⟨ha, hP⟩ => ⟨allNo_append.mpr ⟨hall, ha⟩, hP⟩⟩
      rw [neverYes_append]
      exact ⟨fun hy => ⟨hxs, fun _ => hy⟩, fun hy => hy.2 hall⟩
  · obtain ⟨u, rest, rfl⟩ := List.exists_cons_of_ne_nil hev
    refine ⟨iff_of_false nofun fun hc => ?_, h.first, nofun⟩
    exact hev (h.silent.mpr ((neverYes_append xs ys).mp hc).1)

variable {body : ℕ → σ → Outcome ε ρ σ} {evs : ℕ → σ → List E} {N : ℕ}

/-- The rule of a bounded loop: iteration `i` asks `cs i`, and once one has returned no later one has anything
to ask. -/
theorem forEvents_asks (cs : ℕ → List X) (Stop : ℕ → Prop) (Inv : ℕ → σ → Prop)
    (hstop : ∀ i j, i < j → Stop i → cs j = [])
    (hbody : ∀ i s, i < N → Inv i s → Asks ask B (cs i) (Stop i) (Inv (i + 1)) (body i s) (evs i s))
    (i : ℕ) (s : σ) (hi : i ≤ N) (h : Inv i s) :
    Asks ask B ((List.range' i (N - i)).flatMap cs) (∃ j, j < N ∧ Stop j) (Inv N)
      (forLoop body (N - i) i s) (forEvents body evs (N - i) i s) := by
  generalize hn : N - i = n
  induction n generalizing i s with
  | zero =>
    obtain rfl : i = N := by omega
    exact .of_ends h
  | succ n ih =>
    have hlt : i < N := by omega
    rw [List.range'_succ, List.flatMap_cons]
    refine (hbody i s hlt h).bind (fun s' hs' => ih (i + 1) s' hlt hs' (by omega)) (fun hdone => ?_)
      fun hdone => ⟨i, hlt, hdone⟩
    refine List.flatMap_eq_nil_iff.mpr fun j hj => hstop i j ?_ hdone
    have := (List.mem_range'_1.mp hj).1
    omega

end Rules

end Raccoon.Loops
