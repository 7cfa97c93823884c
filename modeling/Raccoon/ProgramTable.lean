import Raccoon.InitFile

/-!
The programs that `kernel_main` reads from the table of `parse_init`. The header
of the file says how many there are, and the lines say which.
-/

namespace Raccoon.InitFile

open Loops Outcome CoreLaunch KernelMain

/-- The table with the strings that its pointers lead to. -/
def Parsed.init (r : Parsed) : Init where
  requiredCores := r.requiredCores
  programs k := (r.programs k).map fun p => .upTo (r.buffer.drop p)

def fileCores (content : List Char) : ℕ := number ((toText content).drop 6)

/-- The programs in the lines of a file. -/
def fileTable (content : List Char) : ℕ → Option (List Char) :=
  table (entries (((toText content).drop 6).splitOn nul).tail)

variable {content l : List Char} {r : Parsed} {es : List (ℕ × List Char)} {ls : List (List Char)}
  {entryLaunch coreId coreNumber i k : ℕ}

theorem table_mem (h : table es k = some l) : ∃ e ∈ es, e.1 = k := by
  induction es using List.reverseRecOn with
  | nil => cases h
  | append_singleton es e ih =>
    rw [table_snoc] at h
    by_cases hk : k = e.1
    · exact ⟨e, List.mem_append_right _ (List.mem_singleton_self e), hk.symm⟩
    · rw [Function.update_of_ne hk] at h
      obtain ⟨e', he', hk'⟩ := ih h
      exact ⟨e', List.mem_append_left _ he', hk'⟩

theorem entries_lt (h : Readable ls) : ∀ e ∈ entries ls, e.1 < maxCore := by
  fun_induction entries ls with
  | case1 l' ls ih =>
    rw [Readable, if_pos rfl] at h
    exact ih h
  | case2 l l' ls hne hall ih =>
    rw [Readable, if_neg hne, if_pos hall] at h
    exact List.forall_mem_cons.mpr ⟨h.1.1, ih h.2.2⟩
  | case3 l l' ls hne hall ih =>
    rw [Readable, if_neg hne, if_neg hall] at h
    exact List.forall_mem_cons.mpr ⟨h.1.1, ih h.2⟩
  | case4 => exact fun e he => absurd he List.not_mem_nil

theorem parseInit_done (h : parseInit content = .done r) :
    r.requiredCores = fileCores content ∧ r.named = fileTable content ∧
      ∀ k l, fileTable content k = some l → k < maxCore := by
  by_cases hpre : cores <+: toText content
  · obtain ⟨rest, ht⟩ := hpre
    have hrest : (toText content).drop 6 = rest := by
      rw [← ht]
      rfl
    rw [fileCores, fileTable, hrest]
    rcases digits_or rest with hdigit | hall
    · have hreads := parseInit_reads ht.symm hdigit
      by_cases hread : Readable (rest.splitOn nul).tail
      · obtain ⟨r', hr', hcores, hnamed⟩ := hreads.done hread
        obtain rfl := Outcome.done.inj (h.symm.trans hr')
        refine ⟨hcores, hnamed, fun k l hk => ?_⟩
        obtain ⟨e, he, rfl⟩ := table_mem hk
        exact entries_lt hread e he
      · rw [hreads.fail hread] at h
        cases h
    · rw [parseInit_no_number ht.symm hall] at h
      cases h
  · rw [parseInit_no_header hpre] at h
    split at h
    · cases h
    · cases h

theorem init_programs (r : Parsed) (k : ℕ) : (r.init.programs k).map CString.chars = r.named k := by
  rw [Parsed.init, Parsed.named, Option.map_map]
  rfl

theorem chars_injective : Function.Injective (Option.map CString.chars) :=
  Option.map_injective fun _ _ => CString.ext

/-- The boot core takes the program of core `i` for one that a lower-numbered core runs. -/
def Diverts (content : List Char) (coreId i : ℕ) : Prop :=
  i ≠ coreId ∧ fileTable content i ≠ some hang.chars ∧
    ∃ y, 1 ≤ y ∧ y < i ∧ fileTable content y = fileTable content i

/-- The program of core `i` with the digits of the core is no longer than 472 characters. -/
def LaunchLogged (content : List Char) (i : ℕ) : Prop :=
  ∀ l, fileTable content i = some l → l ≠ hang.chars → l.length + (Nat.log 10 i + 1) ≤ 472

/-- The program of the boot core, where another core has it too, is short enough for the message that says so. -/
def OwnLogged (content : List Char) (entryLaunch coreId : ℕ) : Prop :=
  ∀ l, fileTable content coreId = some l → l ≠ hang.chars →
    (∃ y, 1 ≤ y ∧ y < fileCores content ∧ fileTable content y = some l) → RunningFits entryLaunch coreId l.length

section Named

variable (hnamed : r.named = fileTable content)

include hnamed

theorem fileTable_eq_iff (a b : ℕ) :
    fileTable content a = fileTable content b ↔ r.init.programs a = r.init.programs b := by
  rw [← hnamed, ← init_programs, ← init_programs, chars_injective.eq_iff]

theorem fileTable_some_iff (a : ℕ) (p : CString) :
    fileTable content a = some p.chars ↔ r.init.programs a = some p := by
  rw [← hnamed, ← init_programs, ← Option.map_some, chars_injective.eq_iff]

theorem fileTable_string (h : fileTable content k = some l) : ∃ p : CString, p.chars = l ∧ r.init.programs k = some p := by
  rw [← hnamed, ← init_programs] at h
  obtain ⟨p, hp, rfl⟩ := Option.map_eq_some_iff.mp h
  exact ⟨p, rfl, hp⟩

theorem diverts_iff : Diverts content coreId i ↔ Launchable r.init coreId i ∧ Shared r.init i := by
  simp only [Diverts, Launchable, Shared, fileTable_eq_iff hnamed, ne_eq, fileTable_some_iff hnamed, and_assoc]

theorem isSome_iff (k : ℕ) : (r.init.programs k).isSome = (fileTable content k).isSome := by
  rw [← hnamed, ← init_programs, Option.isSome_map]

omit hnamed in
theorem chars_ne_hang (p : CString) : p.chars ≠ hang.chars ↔ p ≠ hang :=
  not_congr ⟨CString.ext, congrArg CString.chars⟩

theorem launchLogged_iff : LaunchLogged content i ↔ LaunchFits r.init i := by
  constructor
  · intro h p hp hne
    exact h p.chars ((fileTable_some_iff hnamed i p).mpr hp) ((chars_ne_hang p).mpr hne)
  · intro h l hl hne
    obtain ⟨p, rfl, hp⟩ := fileTable_string hnamed hl
    exact h p hp ((chars_ne_hang p).mp hne)

theorem ownLogged_iff (hreq : r.requiredCores = fileCores content)
    (hmax : ∀ k l, fileTable content k = some l → k < maxCore) :
    OwnLogged content entryLaunch coreId ↔ OwnFits r.init entryLaunch coreId := by
  have hcores : r.init.requiredCores = fileCores content := hreq
  constructor
  · rintro h p - hp hne ⟨y, h1, h2, hy⟩
    exact h p.chars ((fileTable_some_iff hnamed coreId p).mpr hp) ((chars_ne_hang p).mpr hne)
      ⟨y, h1, hcores ▸ h2, (fileTable_some_iff hnamed y p).mpr hy⟩
  · rintro h l hl hne ⟨y, h1, h2, hy⟩
    obtain ⟨p, rfl, hp⟩ := fileTable_string hnamed hl
    exact h p (hmax coreId _ hl) hp ((chars_ne_hang p).mp hne) ⟨y, h1, hcores ▸ h2, (fileTable_some_iff hnamed y p).mp hy⟩

end Named

def pair : List Char := "CORES 2\n0 editor\n1 HANG\n".toList

/-- The sample in the comment of `parse_init.c`. -/
def sample : List Char := "CORES 4\n1 pid0\n2 HANG\n3 HANG\n4 HANG\n".toList

end Raccoon.InitFile
