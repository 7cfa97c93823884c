import Raccoon.Kmunmap
import Raccoon.Traced

/-!
The reads of `is_frame_empty`, in order. The loop looks at the entry before it
looks at the index, so an empty table is read one entry too far.
-/

namespace Raccoon.Mmu

open Loops

section Code

/-- `*p`, where `read` says what is at each address and where a read faults. -/
def readWord (read : ℕ → Option ℕ) (va : ℕ) : Traced ℕ Stuck ℕ := do
  Traced.emit va
  match read va with
  | some w => pure w
  | none => Traced.lift (.error (.pageFault va))

/-- `while (frame[i] == 0 && i < 512) i++`, with the addresses it reads. -/
def scanReads (read : ℕ → Option ℕ) (frame : ℕ) : ℕ → ℕ → Traced ℕ Stuck ℕ
  | 0, i => pure i
  | n + 1, i => do
    let w ← readWord read (wadd frame (8 * i))
    if w = 0 ∧ i < archNEntry then scanReads read frame n (i + 1) else pure i

def frameReads (read : ℕ → Option ℕ) (frame : ℕ) : Traced ℕ Stuck Bool := do
  let i ← scanReads read (cleanBits frame) (archNEntry + 1) 0
  pure (i = archNEntry)

end Code

section Refinement

variable {A ρ : Type} {m : Machine A}

/-- How a run ends, without its trace. -/
def outcomeOf {σ : Type} : Except Stuck σ → Outcome Stuck ρ σ
  | .ok s => .next s
  | .error e => .fail e

theorem outcomeOf_bind {ω σ τ : Type} (x : Traced ω Stuck σ) (f : σ → Traced ω Stuck τ) :
    (outcomeOf (x >>= f).result : Outcome Stuck ρ τ) = outcomeOf x.result >>= fun s => outcomeOf (f s).result := by
  cases h : x.result with
  | error e =>
    rw [Traced.bind_of_error h]
    rfl
  | ok s =>
    rw [Traced.bind_of_ok h]
    rfl

theorem readWord_load (va : ℕ) :
    (outcomeOf (readWord (load m.mem m.cr3) va).result : Outcome Stuck ρ ℕ) = m.load va := by
  rw [readWord, Traced.emit_bind_result, Machine.load]
  cases Mmu.load m.mem m.cr3 va <;> rfl

theorem scanReads_scanZero (frame n i : ℕ) :
    (outcomeOf (scanReads (load m.mem m.cr3) frame n i).result : Outcome Stuck ρ ℕ) = scanZero m frame n i := by
  induction n generalizing i with
  | zero => rfl
  | succ n ih =>
    rw [scanReads, outcomeOf_bind, readWord_load, scanZero]
    congr 1
    funext w
    split
    · exact ih _
    · rfl

/-- Without its trace, it is the `is_frame_empty` that `kmunmap` asks. -/
theorem frameReads_isFrameEmpty (frame : ℕ) :
    (outcomeOf (frameReads (load m.mem m.cr3) frame).result : Outcome Stuck ρ Bool) = isFrameEmpty m frame := by
  rw [frameReads, outcomeOf_bind, scanReads_scanZero]
  rfl

end Refinement

section Reads

variable {read : ℕ → Option ℕ} {frame va w n i k a : ℕ}

theorem readWord_of_some (h : read va = some w) : readWord read va = ⟨[va], .ok w⟩ := by
  rw [readWord, h]
  rfl

theorem readWord_of_none (h : read va = none) : readWord read va = ⟨[va], .error (.pageFault va)⟩ := by
  rw [readWord, h]
  rfl

/-- The scan from index `i` has looked at the entries up to `k` and stopped there. -/
structure StopsAt (read : ℕ → Option ℕ) (frame i k : ℕ) (run : Traced ℕ Stuck ℕ) : Prop where
  lower : i ≤ k
  upper : k ≤ 512
  zero : ∀ j, i ≤ j → j < k → read (wadd frame (8 * j)) = some 0
  last : k < 512 → read (wadd frame (8 * k)) ≠ some 0
  trace : run.trace = (List.range' i (k + 1 - i)).map fun j => wadd frame (8 * j)
  result : ∀ r, run.result = .ok r → r = k

theorem StopsAt.here {run : Traced ℕ Stuck ℕ} (hi : i ≤ 512) (hlast : i < 512 → read (wadd frame (8 * i)) ≠ some 0)
    (htrace : run.trace = [wadd frame (8 * i)]) (hresult : ∀ r, run.result = .ok r → r = i) :
    StopsAt read frame i i run where
  lower := Nat.le_refl i
  upper := hi
  zero j h1 h2 := absurd h1 (Nat.not_le.mpr h2)
  last := hlast
  trace := by rw [htrace, Nat.add_sub_cancel_left, List.range'_one, List.map_singleton]
  result := hresult

/-- The scan stops at the first entry that is not zero, and at the latest behind the last one, which it reads too. -/
theorem scanReads_stops (read : ℕ → Option ℕ) (frame : ℕ) (hi : i ≤ 512) (hn : 512 - i < n) :
    ∃ k, StopsAt read frame i k (scanReads read frame n i) := by
  induction n generalizing i with
  | zero => omega
  | succ n ih =>
    rw [scanReads]
    cases hread : read (wadd frame (8 * i)) with
    | none =>
      rw [readWord_of_none hread, Traced.bind_of_error rfl]
      exact ⟨i, .here hi (fun _ => by simp [hread]) rfl nofun⟩
    | some w =>
      rw [readWord_of_some hread, Traced.bind_of_ok rfl]
      by_cases hgo : w = 0 ∧ i < archNEntry
      · rw [if_pos hgo]
        have hlt : i < 512 := hgo.2
        obtain ⟨k, hk⟩ := ih (i := i + 1) (by omega) (by omega)
        have hlower := hk.lower
        refine ⟨k, by omega, hk.upper, fun j h1 h2 => ?_, hk.last, ?_, hk.result⟩
        · by_cases hj : j = i
          · rw [hj, hread, hgo.1]
          · exact hk.zero j (by omega) h2
        · obtain ⟨d, rfl⟩ := Nat.exists_eq_add_of_le hlower
          rw [hk.trace, show i + 1 + d + 1 - i = d + 1 + 1 by omega, show i + 1 + d + 1 - (i + 1) = d + 1 by omega,
            List.range'_succ (n := d + 1), List.map_cons, List.singleton_append]
      · rw [if_neg hgo]
        refine ⟨i, .here hi (fun hlt hz => hgo ⟨?_, hlt⟩) rfl fun r hr => ?_⟩
        · rw [hread] at hz
          exact Option.some.inj hz
        · exact (Except.ok.inj hr).symm

end Reads

/-- The address of the 4K frame that contains the one given. -/
def frameBase (frame : BitVec 64) : ℕ := 4096 * (frame.toNat / 4096)

theorem cleanBits_frameBase (frame : BitVec 64) : cleanBits frame.toNat = frameBase frame := by
  have hlt := frame.isLt
  rw [cleanBits_mod, frameBase, Nat.mod_eq_of_lt (by omega)]

/-- Index 512 is not in the frame, also where the addition wraps around. -/
theorem wadd_mem_frame_iff (frame : BitVec 64) {k : ℕ} (hk : k ≤ 512) :
    (∃ j < 512, wadd (frameBase frame) (8 * k) = frameBase frame + 8 * j) ↔ k < 512 := by
  have hlt := frame.isLt
  rw [frameBase]
  constructor
  · rintro ⟨j, hj, heq⟩
    rw [wadd] at heq
    omega
  · intro hk
    exact ⟨k, hk, wadd_eq (by omega)⟩

theorem frameReads_stops (read : ℕ → Option ℕ) (frame : BitVec 64) : ∃ k ≤ 512,
    (frameReads read frame.toNat).trace = (List.range (k + 1)).map (fun j => wadd (frameBase frame) (8 * j)) ∧
    (k = 512 ↔ ∀ j < 512, read (frameBase frame + 8 * j) = some 0) ∧
    ∀ empty, (frameReads read frame.toNat).result = .ok empty → (empty = true ↔ k = 512) := by
  obtain ⟨k, hk⟩ := scanReads_stops read (frameBase frame) (n := archNEntry + 1) (Nat.zero_le 512)
    (by decide)
  have hword (j : ℕ) (hj : j < 512) : wadd (frameBase frame) (8 * j) = frameBase frame + 8 * j := by
    have hlt := frame.isLt
    rw [frameBase]
    exact wadd_eq (by omega)
  have hrange : (scanReads read (frameBase frame) (archNEntry + 1) 0).trace =
      (List.range (k + 1)).map fun j => wadd (frameBase frame) (8 * j) := by
    rw [hk.trace, List.range_eq_range', Nat.sub_zero]
  refine ⟨k, hk.upper, ?_, ⟨?_, ?_⟩, ?_⟩
  · rw [frameReads, cleanBits_frameBase]
    cases hrun : (scanReads read (frameBase frame) (archNEntry + 1) 0).result with
    | error e => rw [Traced.bind_of_error hrun, hrange]
    | ok i =>
      rw [Traced.bind_of_ok hrun, hrange]
      exact List.append_nil _
  · rintro rfl j hj
    rw [← hword j hj]
    exact hk.zero j (Nat.zero_le j) hj
  · intro hall
    by_contra hne
    have hupper := hk.upper
    have hlt : k < 512 := by omega
    exact hk.last hlt (hword k hlt ▸ hall k hlt)
  · intro empty hempty
    rw [frameReads, cleanBits_frameBase] at hempty
    obtain ⟨i, hi, hpure⟩ := Traced.Returns.of_bind hempty
    obtain rfl := hk.result i hi
    obtain rfl : decide (i = archNEntry) = empty := Except.ok.inj hpure
    exact decide_eq_true_iff

/-- `is_frame_empty` keeps to its frame, with the right answer, exactly if the frame is not empty. -/
theorem frameReads_exact_iff (read : ℕ → Option ℕ) (frame : BitVec 64) :
    ((∀ a ∈ (frameReads read frame.toNat).trace, ∃ j < 512, a = frameBase frame + 8 * j) ∧
      ∀ empty, (frameReads read frame.toNat).result = .ok empty →
        (empty = true ↔ ∀ j < 512, read (frameBase frame + 8 * j) = some 0)) ↔
    ∃ j < 512, read (frameBase frame + 8 * j) ≠ some 0 := by
  obtain ⟨k, hk, htrace, hzero, hanswer⟩ := frameReads_stops read frame
  have hempty : (∃ j < 512, read (frameBase frame + 8 * j) ≠ some 0) ↔ k < 512 := by
    rw [Nat.lt_iff_le_and_ne, and_iff_right hk, ne_eq, hzero]
    simp only [not_forall, exists_prop, ne_eq]
  have hinside : (∀ a ∈ (frameReads read frame.toNat).trace, ∃ j < 512, a = frameBase frame + 8 * j) ↔ k < 512 := by
    rw [htrace, List.forall_mem_map]
    constructor
    · intro hall
      exact (wadd_mem_frame_iff frame hk).mp (hall k (List.mem_range.mpr (Nat.lt_succ_self k)))
    · intro hlt j hj
      have hle := List.mem_range.mp hj
      exact (wadd_mem_frame_iff frame (by omega)).mpr (by omega)
  rw [hinside, hempty, and_iff_left_iff_imp]
  exact fun _ empty h => (hanswer empty h).trans hzero

/-- An empty frame at 0x1000 is left at 0x2000. -/
theorem empty_frame_overread : ¬ ∀ (read : ℕ → Option ℕ) (frame : BitVec 64),
    (∀ a ∈ (frameReads read frame.toNat).trace, ∃ j < 512, a = frameBase frame + 8 * j) ∧
      ∀ empty, (frameReads read frame.toNat).result = .ok empty →
        (empty = true ↔ ∀ j < 512, read (frameBase frame + 8 * j) = some 0) := by
  intro hall
  obtain ⟨k, hk, htrace, hzero, -⟩ := frameReads_stops (fun _ => some 0) 0x1000
  obtain rfl : k = 512 := hzero.mpr fun _ _ => rfl
  have hlast : 512 < 512 := (wadd_mem_frame_iff 0x1000 hk).mp
    ((hall (fun _ => some 0) 0x1000).1 _ (htrace ▸ List.mem_map_of_mem (List.mem_range.mpr (Nat.lt_succ_self 512))))
  exact absurd hlast (by decide)

end Raccoon.Mmu
