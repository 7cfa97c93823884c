import Mathlib.Algebra.Group.Nat.Defs
import Mathlib.Data.List.Nodup

/-!
Registers and a stack of 64-bit words that grows down through a memory of
bytes. What lies on the stack is read as a list of words from its top.
-/

namespace Raccoon.StackMachine

abbrev Memory := ℕ → BitVec 8

def byteOf (v : BitVec 64) (i : ℕ) : BitVec 8 := BitVec.ofNat 8 (v.toNat / 256 ^ i)

def store64 (m : Memory) (a : ℕ) (v : BitVec 64) : Memory := fun x =>
  if a ≤ x ∧ x < a + 8 then byteOf v (x - a) else m x

def load16 (m : Memory) (a : ℕ) : BitVec 16 := BitVec.ofNat 16 ((m a).toNat + (m (a + 1)).toNat * 256)

def load64 (m : Memory) (a : ℕ) : BitVec 64 :=
  BitVec.ofNat 64 ((m a).toNat + (m (a + 1)).toNat * 256 + (m (a + 2)).toNat * 256 ^ 2 + (m (a + 3)).toNat * 256 ^ 3 +
    (m (a + 4)).toNat * 256 ^ 4 + (m (a + 5)).toNat * 256 ^ 5 + (m (a + 6)).toNat * 256 ^ 6 +
    (m (a + 7)).toNat * 256 ^ 7)

variable {m m' : Memory} {a b : ℕ} {v : BitVec 64}

theorem store64_at {i : ℕ} (hi : i < 8) : store64 m a v (a + i) = byteOf v i := by
  rw [store64, if_pos ⟨by omega, by omega⟩, Nat.add_sub_cancel_left]

theorem store64_of_not_mem {x : ℕ} (hx : x < a ∨ a + 8 ≤ x) : store64 m a v x = m x :=
  if_neg (by omega)

theorem load64_store64 : load64 (store64 m a v) a = v := by
  apply BitVec.eq_of_toNat_eq
  have h0 : store64 m a v a = byteOf v 0 := store64_at (i := 0) (by decide)
  have hv := v.isLt
  simp only [load64, h0, store64_at (m := m) (a := a) (v := v) (i := 1) (by decide),
    store64_at (m := m) (a := a) (v := v) (i := 2) (by decide), store64_at (m := m) (a := a) (v := v) (i := 3) (by decide),
    store64_at (m := m) (a := a) (v := v) (i := 4) (by decide), store64_at (m := m) (a := a) (v := v) (i := 5) (by decide),
    store64_at (m := m) (a := a) (v := v) (i := 6) (by decide), store64_at (m := m) (a := a) (v := v) (i := 7) (by decide),
    byteOf, BitVec.toNat_ofNat]
  omega

theorem load64_congr (h : ∀ x, a ≤ x → x < a + 8 → m' x = m x) : load64 m' a = load64 m a := by
  have h0 : m' a = m a := h a (by omega) (by omega)
  simp only [load64, h0, h (a + 1) (by omega) (by omega), h (a + 2) (by omega) (by omega),
    h (a + 3) (by omega) (by omega), h (a + 4) (by omega) (by omega), h (a + 5) (by omega) (by omega),
    h (a + 6) (by omega) (by omega), h (a + 7) (by omega) (by omega)]

theorem load16_eq : load16 m a = (load64 m a).setWidth 16 := by
  apply BitVec.eq_of_toNat_eq
  simp only [load16, load64, BitVec.toNat_ofNat, BitVec.toNat_setWidth]
  omega

/-- The words from an address upwards. -/
def words (m : Memory) (a : ℕ) : ℕ → List (BitVec 64)
  | 0 => []
  | n + 1 => load64 m a :: words m (a + 8) n

theorem words_congr {n : ℕ} (h : ∀ x, a ≤ x → x < a + 8 * n → m' x = m x) : words m' a n = words m a n := by
  induction n generalizing a with
  | zero => rfl
  | succ n ih =>
    rw [words, words, load64_congr fun x hx hx' => h x hx (by omega), ih fun x hx hx' => h x (by omega) (by omega)]

theorem length_words (m : Memory) (a n : ℕ) : (words m a n).length = n := by
  induction n generalizing a with
  | zero => rfl
  | succ n ih => rw [words, List.length_cons, ih]

theorem words_add (m : Memory) (a k n : ℕ) : words m a (k + n) = words m a k ++ words m (a + 8 * k) n := by
  induction k generalizing a with
  | zero => simp [words]
  | succ k ih =>
    rw [Nat.add_right_comm, words, words, ih, List.cons_append]
    congr 3
    omega

theorem getElem?_words {k n : ℕ} (hk : k < n) : (words m a n)[k]? = some (load64 m (a + 8 * k)) := by
  induction n generalizing a k with
  | zero => omega
  | succ n ih =>
    cases k with
    | zero => rfl
    | succ k =>
      rw [words, List.getElem?_cons_succ, ih (by omega)]
      congr 2
      omega

/-- A machine with registers of a type. -/
structure Stack (R : Type) where
  reg : R → BitVec 64
  sp : ℕ
  mem : Memory

variable {R : Type}

def push (s : Stack R) (w : BitVec 64) : Stack R := { s with sp := s.sp - 8, mem := store64 s.mem (s.sp - 8) w }

def pushAll (s : Stack R) (ws : List (BitVec 64)) : Stack R := ws.foldl push s

variable {s : Stack R} {ws : List (BitVec 64)}

@[simp] theorem push_reg (w : BitVec 64) : (push s w).reg = s.reg := rfl

theorem pushAll_reg : (pushAll s ws).reg = s.reg := by
  induction ws generalizing s with
  | nil => rfl
  | cons w ws ih => exact ih

theorem pushAll_append (vs : List (BitVec 64)) : pushAll s (ws ++ vs) = pushAll (pushAll s ws) vs := List.foldl_append

theorem pushAll_sp : (pushAll s ws).sp = s.sp - 8 * ws.length := by
  induction ws generalizing s with
  | nil => rfl
  | cons w ws ih =>
    rw [pushAll, List.foldl_cons, ← pushAll, ih, push, List.length_cons]
    dsimp only
    omega

theorem pushAll_above (h : 8 * ws.length ≤ s.sp) {x : ℕ} (hx : s.sp ≤ x) : (pushAll s ws).mem x = s.mem x := by
  induction ws generalizing s with
  | nil => rfl
  | cons w ws ih =>
    rw [List.length_cons] at h
    rw [pushAll, List.foldl_cons, ← pushAll, ih (by dsimp only [push]; omega) (by dsimp only [push]; omega)]
    exact store64_of_not_mem (by omega)

theorem pushAll_below {x : ℕ} (hx : x < s.sp - 8 * ws.length) : (pushAll s ws).mem x = s.mem x := by
  induction ws generalizing s with
  | nil => rfl
  | cons w ws ih =>
    rw [List.length_cons] at hx
    rw [pushAll, List.foldl_cons, ← pushAll, ih (by dsimp only [push]; omega)]
    exact store64_of_not_mem (by omega)

/-- What has been pushed lies on the stack, the last word at its top. -/
theorem words_pushAll (h : 8 * ws.length ≤ s.sp) (n : ℕ) :
    words (pushAll s ws).mem (pushAll s ws).sp (ws.length + n) = ws.reverse ++ words s.mem s.sp n := by
  induction ws generalizing s n with
  | nil => simp [pushAll]
  | cons w ws ih =>
    rw [List.length_cons] at h
    have hstep : (push s w).sp = s.sp - 8 := rfl
    have hrest := ih (s := push s w) (by omega) (n + 1)
    rw [pushAll, List.foldl_cons, ← pushAll, List.length_cons, Nat.add_right_comm, Nat.add_assoc, hrest, words]
    have hback : (push s w).sp + 8 = s.sp := by omega
    have htop : load64 (push s w).mem (push s w).sp = w := load64_store64
    have hkept : words (push s w).mem s.sp n = words s.mem s.sp n :=
      words_congr fun x hx hx' => store64_of_not_mem (by omega)
    rw [htop, hback, hkept, List.reverse_cons, List.append_assoc, List.singleton_append]

variable [DecidableEq R]

def pop (s : Stack R) (r : R) : Stack R :=
  { s with reg := Function.update s.reg r (load64 s.mem s.sp), sp := s.sp + 8 }

def popAll (s : Stack R) (rs : List R) : Stack R := rs.foldl pop s

variable {rs : List R}

theorem popAll_mem : (popAll s rs).mem = s.mem := by
  induction rs generalizing s with
  | nil => rfl
  | cons r rs ih => exact ih

theorem popAll_sp : (popAll s rs).sp = s.sp + 8 * rs.length := by
  induction rs generalizing s with
  | nil => rfl
  | cons r rs ih =>
    rw [popAll, List.foldl_cons, ← popAll, ih, pop, List.length_cons]
    dsimp only
    omega

theorem popAll_reg_of_not_mem {r : R} (hr : r ∉ rs) : (popAll s rs).reg r = s.reg r := by
  induction rs generalizing s with
  | nil => rfl
  | cons q rs ih =>
    rw [List.mem_cons, not_or] at hr
    rw [popAll, List.foldl_cons, ← popAll, ih hr.2]
    exact Function.update_of_ne hr.1 ..

/-- The registers come to hold the words of the stack, the first one its top. -/
theorem map_popAll (hrs : rs.Nodup) : rs.map (popAll s rs).reg = words s.mem s.sp rs.length := by
  induction rs generalizing s with
  | nil => rfl
  | cons r rs ih =>
    obtain ⟨hr, hrs⟩ := List.nodup_cons.mp hrs
    rw [List.map_cons, popAll, List.foldl_cons, ← popAll, ih hrs, popAll_reg_of_not_mem hr, List.length_cons, words]
    congr 1
    exact Function.update_self ..

/-- Registers that are pushed, and popped off an untouched stack in the other order, are what they were. -/
theorem popAll_pushAll {t : Stack R} (hrs : rs.Nodup) (hroom : 8 * rs.length ≤ s.sp)
    (hsp : t.sp = (pushAll s (rs.reverse.map s.reg)).sp)
    (hmem : ∀ x, t.sp ≤ x → t.mem x = (pushAll s (rs.reverse.map s.reg)).mem x) :
    ∀ r ∈ rs, (popAll t rs).reg r = s.reg r := by
  have hlen : (rs.reverse.map s.reg).length = rs.length := by rw [List.length_map, List.length_reverse]
  have hpushed := words_pushAll (hlen ▸ hroom : 8 * (rs.reverse.map s.reg).length ≤ s.sp) 0
  have hpopped := map_popAll (s := t) hrs
  rw [words_congr fun x hx _ => hmem x hx, hsp] at hpopped
  rw [hlen, Nat.add_zero, words, List.append_nil, ← List.map_reverse, List.reverse_reverse] at hpushed
  exact List.map_inj_left.mp (hpopped.trans hpushed)

end Raccoon.StackMachine
