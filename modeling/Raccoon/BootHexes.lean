import Mathlib.Data.List.Chain
import Mathlib.Data.Nat.Digits.Lemmas
import Raccoon.BootConsole
import Raccoon.BootNumbers

/-!
The hexadecimal printers of the boot loader over a sequence of calls. The
array of `puthex` keeps the digits of the calls before.
-/

namespace Raccoon.BootHexes

open Loops Outcome Buffers Numerals BootNumbers

variable {ρ : Type}

def hexByte (t : ℕ) : BitVec 8 := byte ("0123456789ABCDEF".toList.getD t '0')

/-- The eight upper-case digits of a value, the most significant first. -/
def hexDigits (n : BitVec 32) : List (BitVec 8) := (fromTop 16 7 n.toNat).map hexByte

/-- The number of hexadecimal digits, where 0 has none. -/
def hexLength (n : BitVec 32) : ℕ := (Nat.digits 16 n.toNat).length

theorem hexByte_ne_zero (t : ℕ) : hexByte t ≠ 0 := by
  have hsmall : ∀ t < 16, hexByte t ≠ 0 := by decide
  by_cases ht : t < 16
  · exact hsmall t ht
  · have hnone : "0123456789ABCDEF".toList[t]? = none := List.getElem?_eq_none (Nat.le_of_not_lt ht)
    rw [hexByte, List.getD_eq_getElem?_getD, hnone]
    decide

theorem hexByte_inj : ∀ a < 16, ∀ b < 16, hexByte a = hexByte b → a = b := by decide

theorem storeDigit_byte : ∀ t : ℕ, t < 16 → BitVec.ofInt 8 (if (t : ℤ) < 10 then (t : ℤ) + 48 else t + 55) = hexByte t := by decide

section Array

variable {k n m i : ℕ} {arr : Vector (BitVec 8) (k + 1)} {f g : ℕ → ℕ} {d : Device} {o : Output}

/-- The array has the digits `f`, the least significant first, and the terminator behind them. -/
structure Holds (arr : Vector (BitVec 8) (k + 1)) (f : ℕ → ℕ) : Prop where
  digit : ∀ j < k, arr[j]? = some (hexByte (f j))
  terminator : arr[k]? = some 0

/-- The digits of `m`, and where it has none those of `f`. -/
def overwrite (m : ℕ) (f : ℕ → ℕ) (j : ℕ) : ℕ := if j < (Nat.digits 16 m).length then digitAt 16 m j else f j

theorem Holds.congr (h : Holds arr f) (hfg : ∀ j < k, f j = g j) : Holds arr g :=
  ⟨fun j hj => by rw [← hfg j hj, h.digit j hj], h.terminator⟩

theorem zeros_holds (k : ℕ) : Holds (zeros k) fun _ => 0 := by
  refine ⟨fun j hj => ?_, ?_⟩
  · rw [zeros, Vector.getElem?_push, if_neg (by omega), Vector.getElem?_eq_getElem hj, Vector.getElem_replicate]
    rfl
  · rw [zeros, Vector.getElem?_push, if_pos rfl]

theorem storeDigit_eq (hi : i < k) (h : Holds arr f) :
    ∃ arr', (storeDigit ⟨(m : ℤ), arr, i⟩ : Outcome Stop ρ _) = .next ⟨((m / 16 : ℕ) : ℤ), arr', i + 1⟩ ∧
      Holds arr' fun j => if j = i then m % 16 else f j := by
  have htemp : (m : ℤ).tmod 16 = ((m % 16 : ℕ) : ℤ) := rfl
  obtain ⟨arr', hstore, hget⟩ := store_of_lt (e := Stop.outside) (ρ := ρ) (a := arr) (show i < k + 1 by omega)
    (hexByte (m % 16))
  refine ⟨arr', ?_, fun j hj => ?_, ?_⟩
  · rw [storeDigit, htemp, storeDigit_byte _ (Nat.mod_lt _ (by decide)), hstore, next_bind]
    rfl
  · rw [hget]
    split
    · rfl
    · exact h.digit j hj
  · rw [hget, if_neg (by omega), h.terminator]

/-- The first loop stores the digits from index `i` on, and nothing behind them. -/
theorem storeDigit_loop (hm : m < 16 ^ n) (hi : i + n ≤ k) (h : Holds arr f) :
    ∃ s, (whileLoop .running (fun s : Hex (k + 1) => 0 < s.nb) storeDigit n ⟨(m : ℤ), arr, i⟩ : Outcome Stop ρ _) =
      .next s ∧ Holds s.arr fun j => if i ≤ j ∧ j < i + (Nat.digits 16 m).length then digitAt 16 m (j - i) else f j := by
  induction n generalizing m i arr f with
  | zero =>
    obtain rfl : m = 0 := by omega
    refine ⟨_, whileLoop_exit (by simp) _, h.congr fun j _ => ?_⟩
    rw [Nat.digits_zero, List.length_nil, if_neg (by omega)]
  | succ n ih =>
    rcases Nat.eq_zero_or_pos m with rfl | hpos
    · refine ⟨_, whileLoop_exit (by simp) _, h.congr fun j _ => ?_⟩
      rw [Nat.digits_zero, List.length_nil, if_neg (by omega)]
    · obtain ⟨arr₁, hround, h₁⟩ := storeDigit_eq (ρ := ρ) (m := m) (show i < k by omega) h
      have hdiv : m / 16 < 16 ^ n := Nat.div_lt_of_lt_mul (by rwa [← Nat.pow_succ'])
      obtain ⟨s, hloop, hs⟩ := ih hdiv (show i + 1 + n ≤ k by omega) h₁
      refine ⟨s, by rw [whileLoop_round (by simpa using hpos) hround, hloop], hs.congr fun j _ => ?_⟩
      rw [Nat.digits_def' (by decide) hpos, List.length_cons]
      by_cases hj : j = i
      · subst hj
        rw [if_neg (by omega), if_pos rfl, if_pos (by omega), Nat.sub_self, digitAt_zero]
      · by_cases hin : i + 1 ≤ j ∧ j < i + 1 + (Nat.digits 16 (m / 16)).length
        · rw [if_pos hin, if_pos (by omega), show j - i = j - (i + 1) + 1 by omega, digitAt_succ]
        · rw [if_neg hin, if_neg hj, if_neg (by omega)]

theorem strlen_eq {l : List (BitVec 8)} (hne : ∀ j < n, ∃ b ≠ 0, l[j]? = some b) (hnul : l[n]? = some 0) :
    (strlen l : Outcome Stop ρ ℕ) = .next n := by
  induction n generalizing l with
  | zero =>
    cases l with
    | nil => exact absurd hnul (by simp)
    | cons c l =>
      obtain rfl : c = 0 := by simpa using hnul
      rw [strlen, if_pos rfl]
  | succ n ih =>
    cases l with
    | nil => exact absurd hnul (by simp)
    | cons c l =>
      obtain ⟨b, hb, hc⟩ := hne 0 (by omega)
      obtain rfl : c = b := by simpa using hc
      have hrest := ih (l := l) (fun j hj => by simpa using hne (j + 1) (by omega)) (by simpa using hnul)
      rw [strlen, if_neg hb, hrest, next_bind]

theorem sendDown_eq {str : List (BitVec 8)} {b : ℕ → BitVec 8} (h : ∀ j ≤ i, str[j]? = some (b j)) :
    (sendDown d str i o : Outcome Stop ρ Output) = .next (o.sendAll d ((List.range (i + 1)).reverse.map b)) := by
  induction i generalizing o with
  | zero =>
    rw [sendDown, load, h 0 le_rfl]
    simp [sendAll_cons]
  | succ i ih =>
    rw [sendDown, load, h (i + 1) le_rfl, next_bind, ih fun j hj => h j (by omega), List.range_succ (n := i + 1),
      List.reverse_concat, List.map_cons, sendAll_cons]

/-- A printer sends the terminator and then the digits of the array, the stored ones and the old ones. -/
theorem printHex_eq {x : ℤ} (hnb : x < 16 ^ 8) (hk : 8 ≤ k) (h : Holds arr f) :
    ∃ arr', (printHex d x arr o : Outcome Stop ρ _) = .next (arr',
        o.sendAll d (0 :: (List.range k).reverse.map fun j => hexByte (overwrite x.toNat f j))) ∧
      Holds arr' (overwrite x.toNat f) := by
  have hloop : ∃ s, (whileLoop .running (fun s : Hex (k + 1) => 0 < s.nb) storeDigit 8 ⟨x, arr, 0⟩ :
      Outcome Stop ρ _) = .next s ∧ Holds s.arr (overwrite x.toNat f) := by
    rcases Int.lt_or_le 0 x with hpos | hneg
    · have hcast : x = (x.toNat : ℤ) := (Int.toNat_of_nonneg hpos.le).symm
      obtain ⟨s, hs, hholds⟩ := storeDigit_loop (ρ := ρ) (m := x.toNat) (n := 8) (i := 0) (by omega) (by omega) h
      rw [← hcast] at hs
      refine ⟨s, hs, hholds.congr fun j _ => ?_⟩
      simp [overwrite]
    · refine ⟨_, whileLoop_exit (by simpa using hneg) _, h.congr fun j _ => ?_⟩
      rw [overwrite, Int.toNat_of_nonpos hneg, Nat.digits_zero, List.length_nil, if_neg (Nat.not_lt_zero j)]
  obtain ⟨s, hs, hholds⟩ := hloop
  have hget {j : ℕ} (hj : j < k) : s.arr.toList[j]? = some (hexByte (overwrite x.toNat f j)) := by
    rw [Vector.getElem?_toList, hholds.digit j hj]
  have hnul : s.arr.toList[k]? = some 0 := by rw [Vector.getElem?_toList, hholds.terminator]
  have hlen : (strlen s.arr.toList : Outcome Stop ρ ℕ) = .next k :=
    strlen_eq (fun j hj => ⟨_, hexByte_ne_zero _, hget hj⟩) hnul
  obtain ⟨top, rfl⟩ := Nat.exists_eq_add_of_le' (show 1 ≤ k by omega)
  refine ⟨s.arr, ?_, hholds⟩
  rw [printHex, hs, next_bind, hlen, next_bind, sendDown, load, hnul, next_bind,
    sendDown_eq fun j hj => hget (Nat.lt_succ_of_le hj), sendAll_cons]
  rfl

end Array

/-- The terminator is no digit: the console ignores it. -/
theorem putch_terminator {attrib : BitVec 32} {t : BootConsole.Console} (hx : t.csrX < 80) (hy : t.csrY < 25) :
    (BootConsole.putch attrib 0 t : Outcome BootConsole.Stop ρ _) = .next t := by
  have hcase : (BootConsole.putchCase attrib 0 t : Outcome BootConsole.Stop ρ _) = .next t := by
    simp [BootConsole.putchCase]
  rw [BootConsole.putch, hcase, next_bind, if_neg (by omega), BootConsole.scroll, if_neg (by omega)]

def SendsOf (d : Device) (r : Outcome Stop ρ Output) (o : Output) (digits : List (BitVec 8)) : Prop :=
  ∃ o', r = .next o' ∧ o'.sent = o.sent ++ (0 :: digits).map (d, ·)

/-- Both printers send the digits of the value, behind the terminator that each of them starts with. -/
def Agree (n : BitVec 32) (o : Output) : Prop :=
  SendsOf .screen (puthex n o : Outcome Stop Empty Output) o (hexDigits n) ∧
    SendsOf .serial (sputhex n o : Outcome Stop Empty Output) o (hexDigits n)

/-- They agree in each call of a sequence of calls of `puthex`. -/
def AllAgree : List (BitVec 32) → Output → Prop
  | [], _ => True
  | n :: ns, o => Agree n o ∧ ∃ o', (puthex n o : Outcome Stop Empty Output) = .next o' ∧ AllAgree ns o'

section History

variable {n : BitVec 32} {ns : List (BitVec 32)} {o : Output} {f : ℕ → ℕ} {p m j : ℕ}

theorem hexDigits_eq_map (n : BitVec 32) :
    hexDigits n = (List.range 8).reverse.map fun j => hexByte (digitAt 16 n.toNat j) := by
  rw [hexDigits, fromTop_eq_map, List.map_map]
  rfl

theorem digitAt_of_length_le (h : (Nat.digits 16 m).length ≤ j) : digitAt 16 m j = 0 :=
  digitAt_eq_zero (Nat.lt_of_lt_of_le (Nat.lt_base_pow_length_digits (by decide)) (Nat.pow_le_pow_right (by decide) h))

theorem overwrite_zero (m : ℕ) : overwrite m (fun _ => 0) = digitAt 16 m := by
  funext j
  rw [overwrite]
  split
  · rfl
  · next h => rw [digitAt_of_length_le (by omega)]

theorem sputhex_sends (n : BitVec 32) (o : Output) : SendsOf .serial (sputhex n o : Outcome Stop ρ _) o (hexDigits n) := by
  obtain ⟨arr', hprint, -⟩ := printHex_eq (ρ := ρ) (d := .serial) (o := o) (x := n.toNat) (by have := n.isLt; omega)
    le_rfl (zeros_holds 8)
  refine ⟨_, by rw [sputhex, hprint, next_bind], ?_⟩
  rw [Int.toNat_natCast, overwrite_zero, hexDigits_eq_map]
  rfl

/-- What `puthex` sends and keeps, whatever its array has. -/
theorem puthex_sends (h : Holds o.arr f) : ∃ o', (puthex n o : Outcome Stop ρ Output) = .next o' ∧
    o'.sent = o.sent ++
      (0 :: (List.range 8).reverse.map fun j => hexByte (overwrite n.toInt.toNat f j)).map (.screen, ·) ∧
    Holds o'.arr (overwrite n.toInt.toNat f) := by
  obtain ⟨arr', hprint, hholds⟩ := printHex_eq (ρ := ρ) (d := .screen) (o := o) (x := n.toInt)
    (by have := BitVec.toInt_lt (x := n); omega) le_rfl h
  exact ⟨_, by rw [puthex, hprint, next_bind], rfl, hholds⟩

theorem overwrite_lt (hf : ∀ j, f j < 16) : overwrite m f j < 16 := by
  rw [overwrite]
  split
  · exact digitAt_lt (by decide)
  · exact hf j

theorem agree_iff (h : Holds o.arr f) (hf : ∀ j, f j < 16) :
    Agree n o ↔ ∀ j < 8, overwrite n.toInt.toNat f j = digitAt 16 n.toNat j := by
  obtain ⟨o', hput, hsent, -⟩ := puthex_sends (ρ := Empty) (n := n) h
  have hscreen : Function.Injective fun b : BitVec 8 => (Device.screen, b) := fun a b hab => (Prod.mk.injEq .. ▸ hab).2
  have hsends : SendsOf .screen (puthex n o : Outcome Stop Empty Output) o (hexDigits n) ↔
      ∀ j < 8, hexByte (overwrite n.toInt.toNat f j) = hexByte (digitAt 16 n.toNat j) := by
    simp only [SendsOf, hput, next.injEq, exists_eq_left', hsent, List.append_cancel_left_eq,
      (List.map_injective_iff.mpr hscreen).eq_iff, List.cons.injEq, true_and, hexDigits_eq_map, List.map_inj_left,
      List.mem_reverse, List.mem_range]
  rw [Agree, hsends, and_iff_left (sputhex_sends n o)]
  exact forall₂_congr fun j _ =>
    ⟨hexByte_inj _ (overwrite_lt hf) _ (digitAt_lt (by decide)), fun heq => congrArg hexByte heq⟩

/-- After a right call for `p`, the next call is right if it stores at least as many digits. -/
theorem overwrite_eq_iff (hp : p < 2 ^ 31) :
    (∀ j < 8, overwrite n.toInt.toNat (digitAt 16 p) j = digitAt 16 n.toNat j) ↔
    n.toNat < 2 ^ 31 ∧ (Nat.digits 16 p).length ≤ hexLength n := by
  have hcond := BitVec.toInt_eq_toNat_cond n
  have hlt := n.isLt
  by_cases hsmall : n.toNat < 2 ^ 31
  · have hnat : n.toInt.toNat = n.toNat := by
      rw [hcond, if_pos (by omega), Int.toNat_natCast]
    rw [hnat, and_iff_right hsmall]
    constructor
    · intro hall
      by_contra hless
      have hp0 : p ≠ 0 := by
        rintro rfl
        exact hless (Nat.zero_le _)
      have hdigits := Nat.length_digits 16 p (by decide) hp0
      have hlog : Nat.log 16 p < 8 := Nat.log_lt_of_lt_pow hp0 (by omega)
      have htop := hall (Nat.log 16 p) hlog
      rw [hexLength] at hless
      rw [overwrite, if_neg (by omega), digitAt_of_length_le (m := n.toNat) (by omega),
        digitAt_top (Nat.lt_pow_succ_log_self (by decide) p)] at htop
      exact absurd htop (Nat.div_pos (Nat.pow_log_le_self 16 hp0) (Nat.pow_pos (by decide))).ne'
    · intro hle j _
      rw [hexLength] at hle
      rw [overwrite]
      split
      · rfl
      · rw [digitAt_of_length_le (by omega), digitAt_of_length_le (by omega)]
  · refine iff_of_false (fun hall => ?_) fun hboth => hsmall hboth.1
    have hzero : n.toInt.toNat = 0 := by
      rw [hcond, if_neg (by omega)]
      omega
    have htop := hall 7 (by decide)
    rw [hzero, overwrite, Nat.digits_zero, List.length_nil, if_neg (by decide), digitAt, digitAt] at htop
    omega

theorem allAgree_iff (hp : p < 2 ^ 31) (h : Holds o.arr (digitAt 16 p)) : AllAgree ns o ↔
    (∀ n ∈ ns, n.toNat < 2 ^ 31) ∧ ((Nat.digits 16 p).length :: ns.map hexLength).IsChain (· ≤ ·) := by
  induction ns generalizing o p with
  | nil => simp [AllAgree]
  | cons n ns ih =>
    have hright := agree_iff (n := n) h fun j => digitAt_lt (by decide)
    rw [overwrite_eq_iff hp] at hright
    obtain ⟨o', hput, -, hkept⟩ := puthex_sends (ρ := Empty) (n := n) h
    rw [AllAgree, List.map_cons, List.isChain_cons_cons, List.forall_mem_cons]
    simp only [hput, next.injEq, exists_eq_left']
    by_cases hok : n.toNat < 2 ^ 31 ∧ (Nat.digits 16 p).length ≤ hexLength n
    · have hn : Holds o'.arr (digitAt 16 n.toNat) := hkept.congr fun j hj => (overwrite_eq_iff hp).mpr hok j hj
      rw [and_iff_right (hright.mpr hok), ih hok.1 hn, and_iff_right hok.1, and_iff_right hok.2]
      rfl
    · exact iff_of_false (fun hall => hok (hright.mp hall.1)) fun hall => hok ⟨hall.1.1, hall.2.1⟩

end History

/-- The printers agree over a whole history when no value is negative as an `int` or shorter than the one before it. -/
theorem hexes_agree_iff (sent : List (Device × BitVec 8)) (ns : List (BitVec 32)) : AllAgree ns ⟨zeros 8, sent⟩ ↔
    (∀ n ∈ ns, n.toNat < 2 ^ 31) ∧ (ns.map hexLength).IsChain (· ≤ ·) := by
  have hboot : Holds (zeros 8) (digitAt 16 0) := (zeros_holds 8).congr fun j _ => (digitAt_of_length_le (Nat.zero_le j)).symm
  rw [allAgree_iff (o := ⟨zeros 8, sent⟩) (by decide) hboot, Nat.digits_zero, List.length_nil, List.isChain_cons]
  simp

/-- After 0x10, the value 1 is printed as 00000011. -/
theorem short_after_long : ¬ ∀ (ns : List (BitVec 32)) (sent : List (Device × BitVec 8)), AllAgree ns ⟨zeros 8, sent⟩ := by
  intro hall
  have hchain := ((hexes_agree_iff [] [0x10, 1]).mp (hall [0x10, 1] [])).2
  simp [hexLength] at hchain

end Raccoon.BootHexes
