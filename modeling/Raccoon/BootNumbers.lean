import Mathlib.Data.Int.Notation
import Raccoon.Buffers
import Raccoon.CStrings
import Raccoon.Numerals

/-!
The number printers of the boot loader, `scrn.c`, and the formats that use
them, on 32-bit integers. A signed operation fails when it overflows, and
`va_arg` when the caller passed no such argument.
-/

namespace Raccoon.BootNumbers

open Loops Outcome Buffers Numerals

inductive Stop where
  | overflow
  | outside
  | argument
  | running
deriving DecidableEq

inductive Device where
  | screen
  | serial
deriving DecidableEq

/-- The array of `puthex`, which is the same one in each call, and the bytes given to `putch` and to `Send_char`. -/
structure Output where
  arr : Vector (BitVec 8) 9
  sent : List (Device × BitVec 8)

namespace Output

def send (d : Device) (c : BitVec 8) (o : Output) : Output := { o with sent := o.sent ++ [(d, c)] }

def sendAll (d : Device) (text : List (BitVec 8)) (o : Output) : Output :=
  { o with sent := o.sent ++ text.map (d, ·) }

end Output

/-- What a caller passes behind a format. -/
inductive Arg where
  | int (v : BitVec 32)
  | long (v : BitVec 64)
  | string (s : CString)
deriving DecidableEq

def byte (c : Char) : BitVec 8 := BitVec.ofNat 8 c.toNat

section Code

variable {ρ : Type}

/-- An `int`, or the failure where the value is none. -/
def int (x : ℤ) : Outcome Stop ρ ℤ := if -2 ^ 31 ≤ x ∧ x < 2 ^ 31 then .next x else .fail .overflow

variable (d : Device)

/-- One round of the first loop of `putint`, on `nb` and `count`. -/
def growCount (s : ℤ × ℤ) : Outcome Stop ρ (ℤ × ℤ) := do
  let count ← int (s.2 * 10)
  .next (s.1.tdiv 10, count)

structure Digits where
  count : ℤ
  x : ℕ
  saved : ℤ
  output : Output

/-- One round of the second loop of `putint`. -/
def printDigit (s : Digits) : Outcome Stop ρ Digits :=
  if 1 ≤ s.x then do
    let c ← int (s.saved.tdiv s.count + 48)
    let product ← int (s.saved.tdiv s.count * s.count)
    let saved ← int (s.saved - product)
    .next { s with count := s.count.tdiv 10, saved := saved, output := s.output.send d (BitVec.ofInt 8 c) }
  else .next { s with count := s.count.tdiv 10, x := s.x + 1 }

def printInt (nb : BitVec 32) (o : Output) : Outcome Stop ρ Output :=
  if nb.toInt = 0 then .next (o.send d (byte '0'))
  else do
    let saved := nb.toInt
    let (nb, o) ← if nb.toInt < 0 then do
        let nb ← int (nb.toInt * -1)
        .next (nb, o.send d (byte '-'))
      else .next (nb.toInt, o)
    let (_, count) ← whileLoop .running (fun s : ℤ × ℤ => 0 < s.1) growCount 32 (nb, 1)
    let s ← whileLoop .running (fun s : Digits => 0 < s.count) (printDigit d) 32 ⟨count, 0, saved, o⟩
    .next s.output

def putint (nb : BitVec 32) : Output → Outcome Stop ρ Output := printInt .screen nb

def sputint (nb : BitVec 32) : Output → Outcome Stop ρ Output := printInt .serial nb

section Hex

variable {k : ℕ}

structure Hex (k : ℕ) where
  nb : ℤ
  arr : Vector (BitVec 8) k
  i : ℕ

def storeDigit (s : Hex k) : Outcome Stop ρ (Hex k) := do
  let temp := s.nb.tmod 16
  let arr ← store .outside s.arr s.i (BitVec.ofInt 8 (if temp < 10 then temp + 48 else temp + 55))
  .next { nb := s.nb.tdiv 16, arr := arr, i := s.i + 1 }

def strlen : List (BitVec 8) → Outcome Stop ρ ℕ
  | [] => .fail .outside
  | c :: str => if c = 0 then .next 0 else do
    let retval ← strlen str
    .next (retval + 1)

/-- `for (; i >= 0; i--) putch(arr[i]);` -/
def sendDown (arr : List (BitVec 8)) : ℕ → Output → Outcome Stop ρ Output
  | 0, o => do
    let c ← load .outside arr 0
    .next (o.send d c)
  | i + 1, o => do
    let c ← load .outside arr (i + 1)
    sendDown arr i (o.send d c)

def printHex (nb : ℤ) (arr : Vector (BitVec 8) k) (o : Output) : Outcome Stop ρ (Vector (BitVec 8) k × Output) := do
  let s ← whileLoop .running (fun s : Hex k => 0 < s.nb) storeDigit 8 ⟨nb, arr, 0⟩
  let i ← strlen s.arr.toList
  let o ← sendDown d s.arr.toList i o
  .next (s.arr, o)

/-- A string literal of `k` zeros. -/
def zeros (k : ℕ) : Vector (BitVec 8) (k + 1) := (Vector.replicate k (byte '0')).push 0

def puthex (nb : BitVec 32) (o : Output) : Outcome Stop ρ Output := do
  let (arr, o) ← printHex .screen nb.toInt o.arr o
  .next { o with arr := arr }

def sputhex (nb : BitVec 32) (o : Output) : Outcome Stop ρ Output := do
  let (_, o) ← printHex .serial nb.toNat (zeros 8) o
  .next o

def sputHex (nb : BitVec 32) (o : Output) : Outcome Stop ρ Output := do
  let (_, o) ← printHex .serial nb.toNat (zeros 16) o
  .next o

end Hex

/-- `while (val > 0)` over the bits of `nb`, from the one of `val` down -/
def printBin (val nb : ℕ) (o : Output) : Outcome Stop ρ Output := do
  let s ← whileLoop .running (fun s : ℕ × Output => 0 < s.1)
    (fun s => .next (s.1 >>> 1, s.2.send d (if nb &&& s.1 = 0 then byte '0' else byte '1'))) 32 (val, o)
  .next s.2

def putbin (nb : BitVec 32) : Output → Outcome Stop ρ Output := printBin .screen 0b10000000 nb.toNat

def putBin (nb : BitVec 64) : Output → Outcome Stop ρ Output := printBin .screen 0b1000000000000000 nb.toNat

def sputbin (nb : BitVec 32) : Output → Outcome Stop ρ Output := printBin .serial 0b10000000 nb.toNat

def vaInt : List Arg → Outcome Stop ρ (BitVec 32 × List Arg)
  | .int v :: args => .next (v, args)
  | _ => .fail .argument

def vaLong : List Arg → Outcome Stop ρ (BitVec 64 × List Arg)
  | .long v :: args => .next (v, args)
  | _ => .fail .argument

def vaString : List Arg → Outcome Stop ρ (CString × List Arg)
  | .string s :: args => .next (s, args)
  | _ => .fail .argument

/-- `printer(va_arg(ap, type));` -/
def pass {α : Type} (va : List Arg → Outcome Stop ρ (α × List Arg)) (printer : α → Output → Outcome Stop ρ Output)
    (args : List Arg) (o : Output) : Outcome Stop ρ (List Arg × Output) := do
  let (v, args) ← va args
  let o ← printer v o
  .next (args, o)

def puts (text : CString) (o : Output) : Outcome Stop ρ Output := .next (o.sendAll d (text.chars.map byte))

def directive (f : Char) (args : List Arg) (o : Output) : Outcome Stop ρ (List Arg × Output) :=
  if f = 'c' then pass vaInt (fun v o => .next (o.send .screen (v.setWidth 8))) args o
  else if f = 's' then pass vaString (puts .screen) args o
  else if f = 'd' then pass vaInt putint args o
  else if f = 'u' then pass vaInt putint args o
  else if f = 'x' then pass vaInt puthex args o
  else if f = 'b' then pass vaInt putbin args o
  else if f = 'B' then pass vaLong putBin args o
  else .next (args, o.send .screen (byte f))

def serialDirective (f : Char) (args : List Arg) (o : Output) : Outcome Stop ρ (List Arg × Output) :=
  if f = 'c' then pass vaInt (fun v o => .next (o.send .serial (v.setWidth 8))) args o
  else if f = 's' then pass vaString (puts .serial) args o
  else if f = 'd' then pass vaInt sputint args o
  else if f = 'u' then pass vaInt sputint args o
  else if f = 'x' then pass vaInt sputhex args o
  else if f = 'X' then pass vaLong (fun v => sputHex (v.setWidth 32)) args o
  else if f = 'b' then pass vaInt sputbin args o
  else .next (args, o.send .serial (byte f))

/-- The walk along a format. Behind a `%` at its end, the terminator is the directive and is stepped over. -/
def format (directive : Char → List Arg → Output → Outcome Stop ρ (List Arg × Output)) :
    List Char → List Arg → Output → Outcome Stop ρ Output
  | [], _, o => .next o
  | c :: str, args, o =>
    if c = '%' then
      match str with
      | [] => .fail .outside
      | f :: str => do
        let (args, o) ← directive f args o
        format directive str args o
    else format directive str args (o.send d (byte c))

def printf (str : CString) (args : List Arg) : Output → Outcome Stop ρ Output :=
  format .screen directive str.chars args

def sprintf (str : CString) (args : List Arg) : Output → Outcome Stop ρ Output :=
  format .serial serialDirective str.chars args

end Code

/-- The canonical decimal of a number. -/
def numeral (n : ℤ) : List Char := (if n < 0 then ['-'] else []) ++ Nat.toDigits 10 n.natAbs

section Decimal

variable {ρ : Type} {d : Device} {o : Output} {x : ℤ} {m c k n : ℕ} {nb : BitVec 32} {text text' : List (BitVec 8)}

@[simp] theorem sendAll_nil : o.sendAll d [] = o := by simp [Output.sendAll]

theorem sendAll_cons (b : BitVec 8) : o.sendAll d (b :: text) = (o.send d b).sendAll d text := by
  simp [Output.sendAll, Output.send]

theorem sendAll_inj : o.sendAll d text = o.sendAll d text' ↔ text = text' := by
  have hpair : Function.Injective fun b : BitVec 8 => (d, b) := fun a b hab => (Prod.mk.injEq .. ▸ hab).2
  simp only [Output.sendAll, Output.mk.injEq, true_and, List.append_cancel_left_eq]
  exact (List.map_injective_iff.mpr hpair).eq_iff

theorem int_next (hlow : -2 ^ 31 ≤ x) (hhigh : x < 2 ^ 31) : (int x : Outcome Stop ρ ℤ) = .next x := if_pos ⟨hlow, hhigh⟩

theorem growCount_eq (m c : ℕ) : (growCount (m, c) : Outcome Stop ρ _) =
    if c * 10 < 2 ^ 31 then .next (((m / 10 : ℕ) : ℤ), ((c * 10 : ℕ) : ℤ)) else .fail .overflow := by
  rw [growCount]
  by_cases h : c * 10 < 2 ^ 31
  · rw [int_next (by omega) (by omega), if_pos h, next_bind]
    rfl
  · rw [int, if_neg (by omega), if_neg h, fail_bind]

/-- The first loop makes `count` the power of ten behind the number, if that is an `int`. -/
theorem growCount_loop (hm : 0 < m) (hc : 0 < c) (hn : Nat.log 10 m + 1 ≤ n) :
    (whileLoop .running (fun s : ℤ × ℤ => 0 < s.1) growCount n (m, c) : Outcome Stop ρ _) =
      if c * 10 ^ (Nat.log 10 m + 1) < 2 ^ 31 then .next (0, ((c * 10 ^ (Nat.log 10 m + 1) : ℕ) : ℤ))
      else .fail .overflow := by
  induction n generalizing m c with
  | zero => omega
  | succ n ih =>
    rw [whileLoop, if_pos (by simpa using hm), growCount_eq]
    by_cases hsmall : m < 10
    · rw [Nat.log_of_lt hsmall, Nat.zero_add, Nat.pow_one, Nat.div_eq_of_lt hsmall]
      by_cases hfit : c * 10 < 2 ^ 31
      · rw [if_pos hfit, if_pos hfit, next_bind, whileLoop_exit (by simp)]
        rfl
      · rw [if_neg hfit, if_neg hfit, fail_bind]
    · have hlog : Nat.log 10 m = Nat.log 10 (m / 10) + 1 := Nat.log_of_one_lt_of_le (by decide) (by omega)
      have hpow : c * 10 ^ (Nat.log 10 m + 1) = c * 10 * 10 ^ (Nat.log 10 (m / 10) + 1) := by
        rw [hlog, Nat.pow_succ 10 (Nat.log 10 (m / 10) + 1), Nat.mul_assoc, Nat.mul_comm 10]
      rw [hpow]
      by_cases hfit : c * 10 < 2 ^ 31
      · rw [if_pos hfit, next_bind, ih (by omega) (by omega) (by omega)]
      · have hbig : c * 10 ≤ c * 10 * 10 ^ (Nat.log 10 (m / 10) + 1) := Nat.le_mul_of_pos_right _ (Nat.pow_pos (by decide))
        rw [if_neg hfit, if_neg (by omega), fail_bind]

/-- The byte sent for a digit of a number with the sign `σ`. -/
def digitByte (σ : ℤ) (t : ℕ) : BitVec 8 := BitVec.ofInt 8 (σ * t + 48)

theorem digitByte_one : ∀ t < 10, digitByte 1 t = byte (Nat.digitChar t) := by decide

theorem digitByte_neg : ∀ t < 10, digitByte (-1) t = byte (Nat.digitChar t) → t = 0 := by decide

theorem digitChar_ne_minus : ∀ t < 10, byte (Nat.digitChar t) ≠ byte '-' := by decide

theorem printDigit_eq {σ : ℤ} (hσ : σ = 1 ∨ σ = -1) (hm : m < 10 ^ 9) :
    (printDigit d ⟨((10 ^ k : ℕ) : ℤ), 1, σ * m, o⟩ : Outcome Stop ρ _) =
      .next ⟨((10 ^ k / 10 : ℕ) : ℤ), 1, σ * (m % 10 ^ k : ℕ), o.send d (digitByte σ (m / 10 ^ k))⟩ := by
  have hquot : (σ * m).tdiv ((10 ^ k : ℕ) : ℤ) = σ * (m / 10 ^ k : ℕ) := by
    rcases hσ with rfl | rfl
    · rw [Int.one_mul, Int.one_mul, Int.ofNat_tdiv]
    · rw [Int.neg_one_mul, Int.neg_one_mul, Int.neg_tdiv, Int.ofNat_tdiv]
  have hmul : ((m / 10 ^ k : ℕ) : ℤ) * ((10 ^ k : ℕ) : ℤ) = ((m - m % 10 ^ k : ℕ) : ℤ) := by
    rw [← Int.natCast_mul, Nat.div_mul_self_eq_mod_sub_self]
  have hq : m / 10 ^ k ≤ m := Nat.div_le_self ..
  have hr : m % 10 ^ k ≤ m := Nat.mod_le ..
  rw [printDigit, if_pos le_rfl]
  dsimp only
  have hten : ((10 ^ k : ℕ) : ℤ).tdiv 10 = ((10 ^ k / 10 : ℕ) : ℤ) := rfl
  rw [hquot, Int.mul_assoc, hmul, hten, digitByte]
  clear hquot hmul hten
  generalize m / 10 ^ k = q at *
  generalize m % 10 ^ k = r at *
  rcases hσ with rfl | rfl
  · rw [int_next (by omega) (by omega), next_bind, int_next (by omega) (by omega), next_bind,
      int_next (by omega) (by omega), next_bind]
    congr 2
    omega
  · rw [int_next (by omega) (by omega), next_bind, int_next (by omega) (by omega), next_bind,
      int_next (by omega) (by omega), next_bind]
    congr 2
    omega

theorem count_pos (k : ℕ) : decide ((0 : ℤ) < ((10 ^ k : ℕ) : ℤ)) = true :=
  decide_eq_true (Int.natCast_pos.mpr (Nat.pow_pos (by decide)))

theorem printDigit_loop {σ : ℤ} (hσ : σ = 1 ∨ σ = -1) (hm : m < 10 ^ 9) (hk : m < 10 ^ (k + 1)) (hn : k + 1 ≤ n) :
    (whileLoop .running (fun s : Digits => 0 < s.count) (printDigit d) n ⟨((10 ^ k : ℕ) : ℤ), 1, σ * m, o⟩ :
      Outcome Stop ρ _) = .next ⟨0, 1, 0, o.sendAll d ((fromTop 10 k m).map (digitByte σ))⟩ := by
  induction k generalizing m o n with
  | zero =>
    obtain ⟨n, rfl⟩ := Nat.exists_eq_add_of_le' hn
    rw [whileLoop_round (by simp) (printDigit_eq hσ hm), whileLoop_exit (by simp)]
    simp [fromTop, digitAt_top hk, sendAll_cons, Nat.mod_one]
  | succ k ih =>
    obtain ⟨n, rfl⟩ := Nat.exists_eq_add_of_le' (show 1 ≤ n by omega)
    have hdiv : 10 ^ (k + 1) / 10 = 10 ^ k := by rw [Nat.pow_succ, Nat.mul_div_cancel _ (by decide)]
    have hpos : 0 < 10 ^ (k + 1) := Nat.pow_pos (by decide)
    have hmod : m % 10 ^ (k + 1) < 10 ^ (k + 1) := Nat.mod_lt _ hpos
    have hle : m % 10 ^ (k + 1) ≤ m := Nat.mod_le ..
    rw [whileLoop_round (by exact count_pos _) (printDigit_eq hσ hm), hdiv, ih (by omega) hmod (by omega), fromTop_mod, fromTop,
      digitAt_top hk, List.map_cons, sendAll_cons]

theorem printInt_small (h : nb.toInt.natAbs < 10 ^ 9) : (printInt d nb o : Outcome Stop ρ Output) =
    .next (o.sendAll d ((if nb.toInt < 0 then [byte '-'] else []) ++
      (fromTop 10 (Nat.log 10 nb.toInt.natAbs) nb.toInt.natAbs).map (digitByte nb.toInt.sign))) := by
  have hsign := Int.sign_mul_natAbs nb.toInt
  have hpos (hne : nb.toInt ≠ 0) : 0 < nb.toInt.natAbs := Int.natAbs_pos.mpr hne
  generalize hm : nb.toInt.natAbs = m at *
  rw [printInt]
  by_cases h0 : nb.toInt = 0
  · rw [if_pos h0, if_neg (by omega), show m = 0 by omega, h0]
    rfl
  have hm0 := hpos h0
  have hlog : Nat.log 10 m < 9 := Nat.log_lt_of_lt_pow hm0.ne' h
  have hcount : 10 ^ (Nat.log 10 m + 1) ≤ 10 ^ 9 := Nat.pow_le_pow_right (by decide) hlog
  have hgrow : (whileLoop .running (fun s : ℤ × ℤ => 0 < s.1) growCount 32 ((m : ℤ), 1) : Outcome Stop ρ _) =
      .next (0, ((10 ^ (Nat.log 10 m + 1) : ℕ) : ℤ)) := by
    have hloop := growCount_loop (ρ := ρ) (m := m) (c := 1) (n := 32) hm0 (by decide) (by omega)
    rwa [Nat.one_mul, if_pos (by omega)] at hloop
  have hsecond (o : Output) : (whileLoop .running (fun s : Digits => 0 < s.count) (printDigit d) 32
      ⟨((10 ^ (Nat.log 10 m + 1) : ℕ) : ℤ), 0, nb.toInt, o⟩ : Outcome Stop ρ _) =
      .next ⟨0, 1, 0, o.sendAll d ((fromTop 10 (Nat.log 10 m) m).map (digitByte nb.toInt.sign))⟩ := by
    have hcases : nb.toInt.sign = 1 ∨ nb.toInt.sign = -1 := by
      rcases lt_trichotomy nb.toInt 0 with hlt | heq | hgt
      · exact .inr (Int.sign_eq_neg_one_of_neg hlt)
      · exact absurd heq h0
      · exact .inl (Int.sign_eq_one_of_pos hgt)
    have hfirst : (printDigit d ⟨((10 ^ (Nat.log 10 m + 1) : ℕ) : ℤ), 0, nb.toInt, o⟩ : Outcome Stop ρ _) =
        .next ⟨((10 ^ Nat.log 10 m : ℕ) : ℤ), 1, nb.toInt.sign * m, o⟩ := by
      rw [hsign, printDigit, if_neg (show ¬ 1 ≤ 0 by decide)]
      dsimp only
      rw [show ((10 ^ (Nat.log 10 m + 1) : ℕ) : ℤ).tdiv 10 = ((10 ^ (Nat.log 10 m + 1) / 10 : ℕ) : ℤ) from rfl,
        Nat.pow_succ, Nat.mul_div_cancel _ (by decide)]
    rw [whileLoop_round (by exact count_pos _) hfirst]
    exact printDigit_loop hcases h (Nat.lt_pow_succ_log_self (by decide) m) (by omega)
  rw [if_neg h0]
  dsimp only
  by_cases hneg : nb.toInt < 0
  · have hnb : nb.toInt * -1 = (m : ℤ) := by omega
    rw [if_pos hneg, if_pos hneg, hnb, int_next (by omega) (by omega), next_bind, next_bind, hgrow, next_bind,
      hsecond, next_bind, List.singleton_append, sendAll_cons]
  · have hnb : nb.toInt = (m : ℤ) := by omega
    rw [← hnb] at hgrow
    rw [if_neg hneg, if_neg hneg, next_bind, List.nil_append, hgrow, next_bind, hsecond, next_bind]

/-- With ten digits, `count` overflows. -/
theorem printInt_large (h : 10 ^ 9 ≤ nb.toInt.natAbs) : (printInt d nb o : Outcome Stop ρ Output) = .fail .overflow := by
  have hlt := BitVec.toInt_lt (x := nb)
  have hle := BitVec.le_toInt nb
  generalize hm : nb.toInt.natAbs = m at *
  have hm0 : 0 < m := by omega
  have hlog : 9 ≤ Nat.log 10 m := Nat.le_log_of_pow_le (by decide) h
  have hlog' : Nat.log 10 m < 10 := Nat.log_lt_of_lt_pow hm0.ne' (by omega)
  have hbig : 10 ^ 10 ≤ 10 ^ (Nat.log 10 m + 1) := Nat.pow_le_pow_right (by decide) (by omega)
  have hloop := growCount_loop (ρ := ρ) (m := m) (c := 1) (n := 32) hm0 (by decide) (by omega)
  rw [Nat.one_mul, if_neg (by omega)] at hloop
  rw [printInt, if_neg (by omega)]
  dsimp only
  by_cases hneg : nb.toInt < 0
  · rw [if_pos hneg]
    by_cases hmin : m = 2 ^ 31
    · rw [int, if_neg (by omega), fail_bind]
    · have hnb : nb.toInt * -1 = (m : ℤ) := by omega
      rw [hnb, int_next (by omega) (by omega), next_bind, next_bind]
      exact hloop ▸ rfl
  · have hnb : nb.toInt = (m : ℤ) := by omega
    rw [if_neg hneg, next_bind, hnb]
    exact hloop ▸ rfl

theorem numeral_bytes (x : ℤ) : (numeral x).map byte = (if x < 0 then [byte '-'] else []) ++
    (fromTop 10 (Nat.log 10 x.natAbs) x.natAbs).map fun t => byte (Nat.digitChar t) := by
  rw [numeral, toDigits_eq_fromTop (by decide), List.map_append, List.map_map]
  split <;> rfl

theorem printInt_iff : (printInt d nb o : Outcome Stop ρ Output) = .next (o.sendAll d ((numeral nb.toInt).map byte)) ↔
    0 ≤ nb.toInt ∧ nb.toInt < 10 ^ 9 := by
  by_cases hlarge : 10 ^ 9 ≤ nb.toInt.natAbs
  · rw [printInt_large hlarge]
    exact iff_of_false (by simp) (by omega)
  rw [printInt_small (by omega), next.injEq, sendAll_inj, numeral_bytes, List.append_cancel_left_eq, List.map_inj_left]
  generalize hm : nb.toInt.natAbs = m at *
  rcases lt_trichotomy nb.toInt 0 with hneg | hzero | hpos
  · -- The first digit is not 0, and has the sign of the number.
    rw [Int.sign_eq_neg_one_of_neg hneg]
    refine iff_of_false (fun hall => ?_) (by omega)
    have htop : digitAt 10 m (Nat.log 10 m) = 0 :=
      digitByte_neg _ (digitAt_lt (by decide)) (hall _ (top_mem_fromTop ..))
    rw [digitAt_top (Nat.lt_pow_succ_log_self (by decide) m)] at htop
    have hle : 10 ^ Nat.log 10 m ≤ m := Nat.pow_log_le_self 10 (by omega)
    exact absurd htop (Nat.div_pos hle (Nat.pow_pos (by decide))).ne'
  · obtain rfl : m = 0 := by omega
    rw [hzero]
    exact iff_of_true (by decide) (by decide)
  · rw [Int.sign_eq_one_of_pos hpos]
    exact iff_of_true (fun t ht => digitByte_one t (lt_of_mem_fromTop (by decide) ht)) (by omega)

/-- `%u` passes the value on as an `int`. -/
theorem printInt_unsigned_iff : (printInt d nb o : Outcome Stop ρ Output) =
    .next (o.sendAll d ((Nat.toDigits 10 nb.toNat).map byte)) ↔ nb.toNat < 10 ^ 9 := by
  have hrange := BitVec.toInt_eq_toNat_cond nb
  by_cases hsmall : 2 * nb.toNat < 2 ^ 32
  · rw [if_pos hsmall] at hrange
    have hnum : numeral nb.toInt = Nat.toDigits 10 nb.toNat := by
      rw [hrange, numeral, if_neg (by omega), List.nil_append, Int.natAbs_natCast]
    rw [← hnum, printInt_iff]
    omega
  · rw [if_neg hsmall] at hrange
    have hlt := nb.isLt
    refine iff_of_false (fun heq => ?_) (by omega)
    by_cases hlarge : 10 ^ 9 ≤ nb.toInt.natAbs
    · rw [printInt_large hlarge] at heq
      exact absurd heq (by simp)
    rw [printInt_small (by omega), next.injEq, sendAll_inj, if_pos (by omega), List.singleton_append,
      toDigits_eq_fromTop (by decide), List.map_map] at heq
    have hmem : byte '-' ∈ (fromTop 10 (Nat.log 10 nb.toNat) nb.toNat).map (byte ∘ Nat.digitChar) :=
      heq ▸ List.mem_cons_self
    obtain ⟨t, ht, hminus⟩ := List.mem_map.mp hmem
    exact digitChar_ne_minus t (lt_of_mem_fromTop (by decide) ht) hminus

theorem format_literal {run : Char → List Arg → Output → Outcome Stop ρ (List Arg × Output)} {b : Char}
    {str : List Char} {args : List Arg} (h : b ≠ '%') :
    format d run (b :: str) args o = format d run str args (o.send d (byte b)) := by
  cases str <;> simp [format, h]

/-- A directive is run with what the characters before it have left. -/
theorem format_directive {run : Char → List Arg → Output → Outcome Stop ρ (List Arg × Output)} {f : Char}
    {literal str : List Char} {args : List Arg} (h : '%' ∉ literal) :
    format d run (literal ++ '%' :: f :: str) args o =
      run f args (o.sendAll d (literal.map byte)) >>= fun s => format d run str s.1 s.2 := by
  induction literal generalizing o with
  | nil =>
    rw [List.nil_append, format, if_pos rfl, List.map_nil, sendAll_nil]
  | cons c literal ih =>
    obtain ⟨hc, hrest⟩ := not_or.mp (List.mem_cons.not.mp h)
    rw [List.cons_append, format_literal (Ne.symm hc), ih hrest, List.map_cons, sendAll_cons]

theorem pass_int_iff {printer : BitVec 32 → Output → Outcome Stop ρ Output} {args : List Arg} {o' : Output} :
    pass vaInt printer (.int nb :: args) o = .next (args, o') ↔ printer nb o = .next o' := by
  cases h : printer nb o <;> simp [pass, vaInt, h]

theorem directive_u_iff {args : List Arg} : (directive 'u' (.int nb :: args) o : Outcome Stop ρ _) =
    .next (args, o.sendAll .screen ((Nat.toDigits 10 nb.toNat).map byte)) ↔ nb.toNat < 10 ^ 9 := by
  rw [directive, if_neg (by decide), if_neg (by decide), if_neg (by decide), if_pos rfl, pass_int_iff]
  exact printInt_unsigned_iff

theorem serialDirective_u_iff {args : List Arg} : (serialDirective 'u' (.int nb :: args) o : Outcome Stop ρ _) =
    .next (args, o.sendAll .serial ((Nat.toDigits 10 nb.toNat).map byte)) ↔ nb.toNat < 10 ^ 9 := by
  rw [serialDirective, if_neg (by decide), if_neg (by decide), if_neg (by decide), if_pos rfl, pass_int_iff]
  exact printInt_unsigned_iff

end Decimal

/-- The decimals are right for the numbers of at most nine digits without a sign. -/
theorem decimals_canonical_iff (o : Output) :
    (∀ n : BitVec 32, (putint n o : Outcome Stop Empty Output) =
      .next (o.sendAll .screen ((numeral n.toInt).map byte)) ↔ 0 ≤ n.toInt ∧ n.toInt < 10 ^ 9) ∧
    (∀ n : BitVec 32, (sputint n o : Outcome Stop Empty Output) =
      .next (o.sendAll .serial ((numeral n.toInt).map byte)) ↔ 0 ≤ n.toInt ∧ n.toInt < 10 ^ 9) ∧
    (∀ (v : BitVec 32) (args : List Arg), (directive 'u' (.int v :: args) o : Outcome Stop Empty _) =
      .next (args, o.sendAll .screen ((Nat.toDigits 10 v.toNat).map byte)) ↔ v.toNat < 10 ^ 9) ∧
    ∀ (v : BitVec 32) (args : List Arg), (serialDirective 'u' (.int v :: args) o : Outcome Stop Empty _) =
      .next (args, o.sendAll .serial ((Nat.toDigits 10 v.toNat).map byte)) ↔ v.toNat < 10 ^ 9 :=
  ⟨fun _ => printInt_iff, fun _ => printInt_iff, fun _ _ => directive_u_iff, fun _ _ => serialDirective_u_iff⟩

theorem putint_negative : ¬ ∀ (n : BitVec 32) (o : Output), (putint n o : Outcome Stop Empty Output) =
    .next (o.sendAll .screen ((numeral n.toInt).map byte)) := by
  intro hall
  have hright := printInt_iff.mp (hall (-5) ⟨zeros 8, []⟩)
  exact absurd hright.1 (by decide)

example : (putint (-5) ⟨zeros 8, []⟩ : Outcome Stop Empty Output) =
    .next ⟨zeros 8, [(.screen, byte '-'), (.screen, byte '+')]⟩ := rfl

end Raccoon.BootNumbers
