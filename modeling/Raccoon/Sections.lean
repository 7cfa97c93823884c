import Raccoon.CapabilityFile
import Mathlib.Data.List.TakeWhile

/-!
Files of several sections. `get_section` looks at the first one only, takes
every beginning of its name for its name, and ends it before the first line
that begins with `END`.
-/

namespace Raccoon.CapabilityFile

open Loops Outcome

/-- A section has at least one line. -/
structure Section where
  name : Name
  first : Name
  more : List Name

def bodyText (ls : List Name) : List Char := ls.flatMap fun l => l.chars ++ [nul]

namespace Section

def body (s : Section) : List Char := bodyText (s.first :: s.more)

/-- What stands behind the body. -/
def tail (s : Section) : List Char := endWord ++ (' ' :: s.name.chars ++ [nul])

def text (s : Section) : List Char := beginWord ++ (s.name.chars ++ nul :: (s.body ++ s.tail))

end Section

/-- The file with its lines ended by NUL characters. -/
def sectionsText (ss : List Section) : List Char := ss.flatMap Section.text

/-- The bounds of the lines of the section with the name: the second is the NUL that ends the last line. -/
def bodyBounds (name : List Char) : List Section → Option (Ptr × Ptr)
  | [] => none
  | s :: ss =>
    if s.name.chars = name then some (s.body ++ (s.tail ++ sectionsText ss), nul :: (s.tail ++ sectionsText ss))
    else bodyBounds name ss

/-- The name is that of the first section, in which no line but the first begins with `END`; or it is the name
of no section and the name of the first one does not begin with it. -/
def FirstOrNone (name : List Char) : List Section → Prop
  | [] => False
  | s :: ss =>
    if s.name.chars = name then ∀ l ∈ s.more, ¬ endWord <+: l.chars
    else ¬ name <+: s.name.chars ∧ ∀ s' ∈ ss, s'.name.chars ≠ name

variable {ρ : Type} {name : List Char} {ss : List Section}

theorem bodyText_cons (l : Name) (ls : List Name) : bodyText (l :: ls) = l.chars ++ nul :: bodyText ls := by
  rw [bodyText, List.flatMap_cons, List.append_assoc]
  rfl

def startsEnd (l : Name) : Bool := endWord.isPrefixOf l.chars

/-- The scan stops before the first line after `l` that begins with `END`, at the latest behind the last line. -/
theorem findEnd_body (l : Name) (ls : List Name) (t : List Char) :
    (findEnd (bodyText (l :: ls) ++ (endWord ++ t)) : Outcome Trap ρ Ptr) =
      .next (nul :: (bodyText (ls.dropWhile (!startsEnd ·)) ++ (endWord ++ t))) := by
  induction ls generalizing l with
  | nil =>
    rw [bodyText_cons, List.append_assoc, List.cons_append, findEnd_skip l.oneLine.1]
    change findEnd ((nul :: endWord) ++ t) = _
    rw [List.cons_append, findEnd, ← List.cons_append, strncmp_append, next_bind, if_neg Bool.false_ne_true]
    rfl
  | cons l' ls ih =>
    have hdiffers : (strncmp (nul :: (bodyText (l' :: ls) ++ (endWord ++ t))) (nul :: endWord) :
        Outcome Trap ρ Bool) = .next (!startsEnd l') := by
      rw [strncmp, if_neg (not_not_intro rfl), bodyText_cons, List.append_assoc, List.cons_append]
      exact strncmp_line (by decide)
    rw [bodyText_cons, List.append_assoc, List.cons_append, findEnd_skip l.oneLine.1, findEnd, hdiffers, next_bind]
    by_cases hend : startsEnd l' = true
    · rw [hend, List.dropWhile_cons_of_neg (by simp [hend])]
      rfl
    · rw [Bool.not_eq_true] at hend
      rw [hend, List.dropWhile_cons_of_pos (by simp [hend])]
      exact ih l'

theorem dropWhile_body_iff (ls : List Name) (t : List Char) :
    bodyText (ls.dropWhile (!startsEnd ·)) ++ t = t ↔ ∀ l ∈ ls, ¬ endWord <+: l.chars := by
  have hstarts (l : Name) : (!startsEnd l) = true ↔ ¬ endWord <+: l.chars := by
    rw [startsEnd, Bool.not_eq_true', ← Bool.not_eq_true, List.isPrefixOf_iff_prefix]
  have hempty (ls : List Name) : bodyText ls = [] ↔ ls = [] := by
    cases ls with
    | nil => exact iff_of_true rfl rfl
    | cons l ls => simp [bodyText_cons]
  rw [List.append_left_eq_self, hempty, List.dropWhile_eq_nil_iff]
  exact forall₂_congr fun l _ => hstarts l

theorem bodyBounds_eq_none_iff : bodyBounds name ss = none ↔ ∀ s ∈ ss, s.name.chars ≠ name := by
  induction ss with
  | nil => simp [bodyBounds]
  | cons s ss ih =>
    rw [bodyBounds, List.forall_mem_cons]
    by_cases hname : s.name.chars = name
    · simp [hname]
    · rw [if_neg hname, ih]
      simp [hname]

theorem bodyBounds_length {b e : Ptr} (h : bodyBounds name ss = some (b, e)) :
    b.length < (sectionsText ss).length := by
  induction ss with
  | nil => cases h
  | cons s ss ih =>
    have htext : sectionsText (s :: ss) = s.text ++ sectionsText ss := List.flatMap_cons
    rw [bodyBounds] at h
    by_cases hname : s.name.chars = name
    · rw [if_pos hname] at h
      obtain ⟨rfl, -⟩ := Prod.mk.inj (Option.some.inj h)
      rw [htext, Section.text]
      simp only [List.length_append, List.length_cons]
      omega
    · rw [if_neg hname] at h
      have hlt := ih h
      rw [htext, List.length_append]
      omega

/-- What `get_section` returns on a file that begins with the section. -/
theorem getSection_first (s : Section) (t : List Char) (name : CString) :
    (getSection (s.text ++ t) name : Outcome Trap ρ _) = .next (if name.chars <+: s.name.chars then
      some (s.body ++ (s.tail ++ t), nul :: (bodyText (s.more.dropWhile (!startsEnd ·)) ++ (s.tail ++ t)))
      else none) := by
  have hbegin : s.text ++ t = beginWord ++ (s.name.chars ++ nul :: (s.body ++ (s.tail ++ t))) := by
    simp only [Section.text, List.append_assoc, List.cons_append]
  rw [getSection, hbegin, strncmp_append, next_bind, if_neg Bool.false_ne_true]
  dsimp only
  rw [List.drop_left' (by decide), strncmp_line name.nonzero, next_bind]
  by_cases hname : name.chars <+: s.name.chars
  · rw [if_pos hname, List.isPrefixOf_iff_prefix.mpr hname]
    obtain ⟨more, hmore⟩ := hname
    have hnul : nul ∉ more := fun h => s.name.oneLine.1 (hmore ▸ List.mem_append_right _ h)
    have hne : s.body ++ (s.tail ++ t) ≠ [] := by
      rw [Section.body, bodyText_cons]
      simp
    have htail : s.tail ++ t = endWord ++ (' ' :: s.name.chars ++ [nul] ++ t) := by
      rw [Section.tail, List.append_assoc]
    rw [← hmore, List.append_assoc, List.drop_left' (by rfl), skipLine_span hnul, next_bind]
    simp only [Bool.not_true, Bool.false_eq_true, if_false]
    rw [if_neg hne, Section.body, htail, findEnd_body, next_bind]
  · have hdiffers : name.chars.isPrefixOf s.name.chars = false := by
      rw [← Bool.not_eq_true, List.isPrefixOf_iff_prefix]
      exact hname
    rw [if_neg hname, hdiffers]
    rfl

theorem getSection_iff (ss : List Section) (name : CString) :
    (getSection (sectionsText ss) name : Outcome Trap Empty _) = .next (bodyBounds name.chars ss) ↔
      FirstOrNone name.chars ss := by
  cases ss with
  | nil => exact iff_of_false (fun h => nomatch h) id
  | cons s ss =>
    have htext : sectionsText (s :: ss) = s.text ++ sectionsText ss := List.flatMap_cons
    rw [htext, getSection_first, Outcome.next.injEq, bodyBounds, FirstOrNone]
    by_cases hname : s.name.chars = name.chars
    · have hbegins : name.chars <+: s.name.chars := hname ▸ List.prefix_rfl
      rw [if_pos hbegins, if_pos hname, if_pos hname, Option.some.injEq, Prod.mk.injEq, List.cons.injEq,
        dropWhile_body_iff]
      simp
    · rw [if_neg hname, if_neg hname]
      by_cases hbegins : name.chars <+: s.name.chars
      · -- the bounds of the first section, whose name only begins with the one looked for
        rw [if_pos hbegins]
        refine iff_of_false (fun h => ?_) fun h => h.1 hbegins
        have hlt := bodyBounds_length h.symm
        simp only [List.length_append] at hlt
        omega
      · rw [if_neg hbegins, eq_comm, bodyBounds_eq_none_iff]
        simp [hbegins]

/-- Two sections, the name of the second of which begins the name of the first. -/
def twoSections : List Section :=
  [⟨⟨"amd64x".toList, by decide, by decide⟩, ⟨"CAPABILITY a".toList, by decide, by decide⟩, []⟩,
    ⟨amd64, ⟨"CAPABILITY b".toList, by decide, by decide⟩, []⟩]

/-- The section found is the first one, not the one with the name. -/
theorem getSection_prefix : ∃ first last,
    (getSection (sectionsText twoSections) amd64.string : Outcome Trap Empty _) = .next (some (first, last)) ∧
    "CAPABILITY a".toList <+: first ∧
    (getSection (sectionsText twoSections) amd64.string : Outcome Trap Empty _) ≠
      .next (bodyBounds amd64.string.chars twoSections) := by
  have hnot : ¬ FirstOrNone amd64.string.chars twoSections := by
    rw [twoSections, FirstOrNone, if_neg (by decide)]
    exact fun h => h.1 (by decide)
  have hfirst := getSection_first (ρ := Empty) (twoSections.get ⟨0, by decide⟩)
    (sectionsText twoSections.tail) amd64.string
  rw [if_pos (by decide)] at hfirst
  exact ⟨_, _, hfirst, by decide, fun h => hnot ((getSection_iff _ _).mp h)⟩

end Raccoon.CapabilityFile
