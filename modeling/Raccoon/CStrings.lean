import Mathlib.Data.Int.Notation
import Mathlib.Data.List.Basic
import Mathlib.Data.List.TakeWhile

/-!
Strings that end at the first NUL, by the characters before it.
-/

namespace Raccoon

/-- A `char *` that the source reads up to the terminating NUL. -/
structure CString where
  chars : List Char
  nonzero : '\x00' ∉ chars
deriving DecidableEq

namespace CString

variable {a b : CString}

theorem ext (h : a.chars = b.chars) : a = b := by
  cases a
  cases b
  cases h
  rfl

def length (a : CString) : ℕ := a.chars.length

/-- The string at a pointer, with what follows it in memory. -/
def upTo (l : List Char) : CString := ⟨l.takeWhile (· ≠ '\x00'), fun h => by
  simpa using List.mem_takeWhile_imp h⟩

/-- The string in memory. Nothing may be read behind its NUL. -/
def bytes (s : CString) : List Char := s.chars ++ ['\x00']

end CString

/-- Replacing a character changes nothing where it does not occur. -/
theorem map_replace_of_not_mem {l : List Char} {a : Char} (b : Char) (h : a ∉ l) :
    (l.map fun c => if c = a then b else c) = l := by
  have hid : ∀ c ∈ l, (if c = a then b else c) = c := by
    intro c hc
    apply if_neg
    rintro rfl
    exact h hc
  rw [List.map_congr_left hid, List.map_id']

/-- The character a pointer into a string points to. -/
def peek : List Char → ℤ
  | [] => 0
  | c :: _ => c.toNat

/-- `second_strcmp` walks along both strings while they agree. -/
def secondStrcmp : List Char → List Char → ℤ
  | a :: as, b :: bs => if a = b then secondStrcmp as bs else peek (a :: as) - peek (b :: bs)
  | as, bs => peek as - peek bs

theorem secondStrcmp_eq_zero {as bs : List Char} (ha : '\x00' ∉ as) (hb : '\x00' ∉ bs) :
    secondStrcmp as bs = 0 ↔ as = bs := by
  have hpos {c : Char} {l : List Char} (h : '\x00' ∉ c :: l) : c.toNat ≠ 0 := fun hc =>
    h (List.mem_cons.mpr (.inl (Char.toNat_inj.mp hc.symm)))
  induction as generalizing bs with
  | nil =>
    cases bs with
    | nil => simp [secondStrcmp, peek]
    | cons b bs =>
      have := hpos hb
      simp only [secondStrcmp, peek, reduceCtorEq, iff_false]
      omega
  | cons a as ih =>
    cases bs with
    | nil =>
      have := hpos ha
      simp only [secondStrcmp, peek, reduceCtorEq, iff_false]
      omega
    | cons b bs =>
      have hrest : secondStrcmp as bs = 0 ↔ as = bs :=
        ih (fun h => ha (List.mem_cons_of_mem _ h)) fun h => hb (List.mem_cons_of_mem _ h)
      rw [secondStrcmp]
      by_cases he : a = b
      · rw [if_pos he, hrest]
        simp [he]
      · rw [if_neg he]
        refine iff_of_false (fun hz => he (Char.toNat_inj.mp ?_)) (by simp [he])
        simp only [peek] at hz
        omega

theorem secondStrcmp_iff {a b : CString} : secondStrcmp a.chars b.chars = 0 ↔ a = b := by
  rw [secondStrcmp_eq_zero a.nonzero b.nonzero]
  exact ⟨CString.ext, congrArg CString.chars⟩

end Raccoon
