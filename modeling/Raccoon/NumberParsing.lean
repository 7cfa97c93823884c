import Raccoon.CapabilityFile
import Raccoon.FormatRendering
import Raccoon.InitFile

/-!
`strtoul` and `atou` on what `decX` and `dec` leave in the arrays of their
callers. Both parsers read the array from the pointer that the printer returns.
-/

namespace Raccoon.NumberParsing

open Loops Outcome Numerals FormatRendering CapabilityFile

variable {ρ : Type} {x i : ℕ} {c : Char} {t : List Char}

theorem hexDigit_digitChar : ∀ d < 16, isHex (Nat.digitChar d) = true ∧ hexDigit (Nat.digitChar d) = d := by decide

theorem decDigit_digitChar : ∀ d < 10, (Nat.digitChar d).toNat - '0'.toNat = d := by decide

/-- Behind a numeral of base 16, `strtoul` stops at the first character that is no digit. -/
theorem strtoul_toDigits (hx : x < 2 ^ 64) (hc : isHex c = false) :
    (strtoul 16 (Nat.toDigits 16 x ++ c :: t) 0 : Outcome Trap ρ _) = .next (x, c :: t) := by
  have hhex : ∀ d ∈ Nat.toDigits 16 x, isHex d = true := by
    intro d hd
    obtain ⟨k, hk, rfl⟩ := mem_toDigits (by decide) hd
    exact (hexDigit_digitChar k hk).1
  rw [strtoul_span hhex hc, foldl_mod_toDigits (by decide) fun d hd => (hexDigit_digitChar d hd).2, Nat.mod_eq_of_lt hx]

/-- Behind a decimal, `atou` stops at the first character that is no digit, with the number as an `uint32_t`. -/
theorem scanDigits_toDigits (hc : c.isDigit = false) : (InitFile.scanDigits (Nat.toDigits 10 x ++ c :: rest) 0 i :
    Outcome InitFile.Trap ρ _) = .next (x % 2 ^ 32, i + (Nat.toDigits 10 x).length) := by
  have hdec : ∀ d ∈ Nat.toDigits 10 x, d.isDigit = true := fun _ =>
    Nat.isDigit_of_mem_toDigits (by decide) (Nat.le_refl 10)
  have hstep (n : ℕ) (d : Char) (hd : d ∈ Nat.toDigits 10 x) :
      (n * 10 + d.toNat - '0'.toNat) % 2 ^ 32 = (n * 10 + (d.toNat - '0'.toNat)) % 2 ^ 32 := by
    obtain ⟨k, hk, rfl⟩ := mem_toDigits (by decide) hd
    rw [Nat.add_sub_assoc (by rw [Nat.toNat_digitChar_of_lt_ten hk]; exact Nat.le_add_right ..)]
  rw [InitFile.scanDigits_span hdec hc, List.foldl_ext _ _ 0 hstep,
    foldl_mod_toDigits (by decide) decDigit_digitChar]

/-- The printers write the numeral and the terminator inside the array, and the parsers give the number back with
the pointer at the terminator. -/
theorem printed_numbers_parse (n : BitVec 64) (stack : Digits) :
    (∃ s buffer rest, (decXTo n.toNat (29, stack) : Outcome Stop Empty _) = .next (s, buffer) ∧
      buffer.toList.drop s = Nat.toDigits 16 n.toNat ++ nul :: rest ∧
      (strtoul 16 (buffer.toList.drop s) 0 : Outcome Trap Empty _) = .next (n.toNat, nul :: rest)) ∧
    ∃ s buffer rest, (decTo n.toNat (29, stack) : Outcome Stop Empty _) = .next (s, buffer) ∧
      buffer.toList.drop s = Nat.toDigits 10 n.toNat ++ nul :: rest ∧
      ∃ p, (InitFile.atou buffer.toList s : Outcome InitFile.Trap Empty _) = .next (n.toNat % 2 ^ 32, p) ∧
        buffer.toList.drop p = nul :: rest := by
  constructor
  · obtain ⟨⟨s, buffer⟩, hprint, rest, hrest⟩ := decXTo_spec (ρ := Empty) n.isLt stack
    have hparse := strtoul_toDigits (ρ := Empty) (t := rest) n.isLt (show isHex nul = false by decide)
    exact ⟨s, buffer, rest, hprint, hrest, hrest ▸ hparse⟩
  · obtain ⟨⟨s, buffer⟩, hprint, rest, hrest⟩ := decTo_spec (ρ := Empty) n.isLt stack
    refine ⟨s, buffer, rest, hprint, hrest, _, by rw [InitFile.atou, hrest, scanDigits_toDigits (by decide)], ?_⟩
    rw [← List.drop_drop, hrest, List.drop_left, nul]

end Raccoon.NumberParsing
