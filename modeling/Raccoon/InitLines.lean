import Raccoon.ProgramTable

/-!
What `parse_init` makes of a well-formed file. The entries are written into the
table in the order of the lines, and the strings that they point to end at the
NUL characters that have taken the place of the line feeds.
-/

namespace Raccoon.InitFile

open Loops Outcome CoreLaunch

/-- The digits of a decimal numeral. -/
structure Decimal where
  digits : List Char
  nonempty : digits ≠ []
  decimal : ∀ d ∈ digits, d.isDigit = true

def Decimal.value (n : Decimal) : ℕ := n.digits.foldl (fun n c => n * 10 + (c.toNat - '0'.toNat)) 0

structure ProgramName where
  chars : List Char
  oneLine : nul ∉ chars ∧ '\n' ∉ chars

inductive InitLine where
  | blank
  | program (index : Decimal) (name : ProgramName)

namespace InitLine

def text : InitLine → List Char
  | blank => []
  | program index name => index.digits ++ ' ' :: name.chars

/-- The core of a line and the program for it. -/
def entry : InitLine → Option (ℕ × List Char)
  | blank => none
  | program index name => some (index.value, name.chars)

end InitLine

def initFile (n : Decimal) (ls : List InitLine) : List Char :=
  cores ++ (n.digits ++ '\n' :: ls.flatMap fun l => l.text ++ ['\n'])

variable {ρ : Type} {l t : List Char} {k i : ℕ} {es : List (ℕ × List Char)} {ls : List (List Char)}

section Numbers

theorem digit_ge {c : Char} (h : c.isDigit = true) : '0'.toNat ≤ c.toNat := by
  rw [Char.isDigit, Bool.and_eq_true, decide_eq_true_eq, decide_eq_true_eq] at h
  exact h.1

theorem foldl_digits {ds : List Char} (hds : ∀ d ∈ ds, d.isDigit = true) (m n : ℕ) :
    ds.foldl (fun n c => (n * 10 + c.toNat - '0'.toNat) % m) (n % m) =
      ds.foldl (fun n c => n * 10 + (c.toNat - '0'.toNat)) n % m := by
  induction ds generalizing n with
  | nil => rfl
  | cons d ds ih =>
    obtain ⟨hd, hds⟩ := List.forall_mem_cons.mp hds
    have hge := digit_ge hd
    have hmod : (n % m * 10 + d.toNat - '0'.toNat) % m = (n * 10 + (d.toNat - '0'.toNat)) % m := by
      rw [Nat.add_sub_assoc hge, Nat.add_mod, Nat.mod_mul_mod, ← Nat.add_mod]
    rw [List.foldl_cons, List.foldl_cons, hmod, ih hds]

theorem number_decimal (n : Decimal) {c : Char} (hc : c.isDigit = false) :
    number (n.digits ++ c :: t) = n.value % 2 ^ 32 := by
  rw [number_append n.decimal hc, number, List.takeWhile_eq_self_iff.mpr n.decimal, ← Nat.zero_mod (2 ^ 32),
    foldl_digits n.decimal]
  rfl

end Numbers

section Text

theorem nul_not_mem_text (l : InitLine) : nul ∉ l.text := by
  cases l with
  | blank => exact List.not_mem_nil
  | program index name =>
    have hspace : nul ≠ ' ' := by decide
    simp [InitLine.text, nul_not_mem_digits index.decimal, hspace, name.oneLine.1]

theorem toText_append (a b : List Char) : toText (a ++ b) = toText a ++ toText b := List.map_append

theorem toText_of_not_mem (h : '\n' ∉ l) : toText l = l := map_replace_of_not_mem nul h

theorem newline_not_mem_digits {ds : List Char} (hds : ∀ d ∈ ds, d.isDigit = true) : '\n' ∉ ds :=
  fun h => absurd (hds _ h) (by decide)

theorem newline_not_mem_text (l : InitLine) : '\n' ∉ l.text := by
  cases l with
  | blank => exact List.not_mem_nil
  | program index name =>
    have hspace : '\n' ≠ ' ' := by decide
    simp [InitLine.text, newline_not_mem_digits index.decimal, hspace, name.oneLine.2]

theorem toText_lines (ls : List InitLine) : toText (ls.flatMap fun l => l.text ++ ['\n']) =
    (ls.map InitLine.text).flatMap fun l => l ++ [nul] := by
  induction ls with
  | nil => rfl
  | cons l ls ih =>
    rw [List.flatMap_cons, toText_append, toText_append, toText_of_not_mem (newline_not_mem_text l), ih]
    rfl

theorem splitOn_lines (h : ∀ l ∈ ls, nul ∉ l) : (ls.flatMap fun l => l ++ [nul]).splitOn nul = ls ++ [[]] := by
  induction ls with
  | nil => rfl
  | cons l ls ih =>
    obtain ⟨hl, hls⟩ := List.forall_mem_cons.mp h
    rw [List.flatMap_cons, List.append_assoc, List.singleton_append, List.splitOn_append_cons_self_of_not_mem hl,
      ih hls, List.cons_append]

theorem toText_initFile (n : Decimal) (ls : List InitLine) : toText (initFile n ls) =
    cores ++ (n.digits ++ nul :: (ls.map InitLine.text).flatMap fun l => l ++ [nul]) := by
  rw [initFile, toText_append, toText_append, toText_of_not_mem (newline_not_mem_digits n.decimal), ← toText_lines]
  rfl

end Text

section Entries

/-- The lines of a file with the empty one behind its last line feed. -/
def fileLines (ls : List InitLine) : List (List Char) := ls.map InitLine.text ++ [[]]

theorem fileLines_cons (l : InitLine) (ls : List InitLine) : ∃ l' ls', fileLines ls = l' :: ls' ∧
    fileLines (l :: ls) = l.text :: l' :: ls' := by
  cases ls with
  | nil => exact ⟨[], [], rfl, rfl⟩
  | cons l' ls => exact ⟨l'.text, fileLines ls, rfl, rfl⟩

theorem text_program (index : Decimal) (name : ProgramName) : (InitLine.program index name).text ≠ [] ∧
    ¬ (InitLine.program index name).text.all Char.isDigit = true := by
  have hspace : ' '.isDigit = false := by decide
  refine ⟨by simp [InitLine.text], fun hall => ?_⟩
  rw [InitLine.text, List.all_append, List.all_cons, hspace, Bool.false_and, Bool.and_false] at hall
  cases hall

theorem entries_lines {ls : List InitLine} (h : ∀ e ∈ ls.filterMap InitLine.entry, e.1 < maxCore) :
    entries (fileLines ls) = ls.filterMap InitLine.entry ∧
      (Readable (fileLines ls) ↔ ∀ e ∈ ls.filterMap InitLine.entry, Acceptable e.1 e.2) := by
  induction ls with
  | nil => exact ⟨rfl, iff_of_true rfl fun e he => absurd he List.not_mem_nil⟩
  | cons l ls ih =>
    obtain ⟨l', ls', hls, hcons⟩ := fileLines_cons l ls
    rw [hls] at ih
    rw [hcons]
    cases l with
    | blank =>
      obtain ⟨hentries, hread⟩ := ih h
      exact ⟨hentries, hread⟩
    | program index name =>
      obtain ⟨hne, hall⟩ := text_program index name
      have hfilter : (InitLine.program index name :: ls).filterMap InitLine.entry =
          (index.value, name.chars) :: ls.filterMap InitLine.entry := rfl
      rw [hfilter] at h ⊢
      obtain ⟨hlt, hrest⟩ := List.forall_mem_cons.mp h
      obtain ⟨hentries, hread⟩ := ih hrest
      have hsmall : maxCore ≤ 2 ^ 32 := by decide
      have hnumber : number (InitLine.program index name).text = index.value := by
        rw [InitLine.text, number_decimal index (by decide)]
        exact Nat.mod_eq_of_lt (hlt.trans_le hsmall)
      have hname : ((InitLine.program index name).text.dropWhile Char.isDigit).tail = name.chars := by
        rw [InitLine.text, List.dropWhile_append_of_pos index.decimal, List.dropWhile_cons_of_neg (by decide),
          List.tail_cons]
      rw [entries, if_neg hne, if_neg hall, Readable, if_neg hne, if_neg hall, hnumber, hname, hentries, hread,
        List.forall_mem_cons]
      exact ⟨rfl, Iff.rfl⟩

theorem table_of_mem (hnodup : (es.map Prod.fst).Nodup) (h : (k, l) ∈ es) : table es k = some l := by
  induction es using List.reverseRecOn with
  | nil => cases h
  | append_singleton es e ih =>
    obtain ⟨i, l'⟩ := e
    rw [table_snoc]
    rw [List.map_append, List.map_singleton, List.nodup_append] at hnodup
    rcases List.mem_append.mp h with hmem | hlast
    · have hne : k ≠ i := hnodup.2.2 k (List.mem_map_of_mem hmem) i (List.mem_singleton_self i)
      rw [Function.update_of_ne hne]
      exact ih hnodup.1 hmem
    · obtain ⟨rfl, rfl⟩ := Prod.mk.inj (List.mem_singleton.mp hlast)
      exact Function.update_self ..

theorem table_eq_none (h : ∀ e ∈ es, e.1 ≠ k) : table es k = none := by
  cases ht : table es k with
  | none => rfl
  | some l =>
    obtain ⟨e, he, hk⟩ := table_mem ht
    exact absurd hk (h e he)

end Entries

section Terminated

/-- Behind every pointer of the table there is a NUL. -/
def Terminated (r : Parsed) : Prop := ∀ k p, r.programs k = some p → nul ∈ r.buffer.drop p

theorem mem_set_drop {b : List Char} {p j : ℕ} (hj : j < b.length) (h : nul ∈ b.drop p) : nul ∈ (b.set j nul).drop p := by
  rw [List.drop_set]
  split
  case isTrue => exact h
  case isFalse hle =>
    apply List.mem_set
    rw [List.length_drop]
    omega

theorem logProgram_ends (index : ℕ) (l : List Char) : (logProgram index l : Outcome Trap ρ Unit).Ends (fun _ => True)
    (fun _ => False) (fun _ => nul ∈ l) := by
  rw [logProgram_eq]
  split
  case isTrue h => exact h.1
  case isFalse => trivial

theorem readAt_ends (b : List Char) (i : ℕ) : (readAt b i : Outcome Trap ρ Char).Ends (fun _ => True) (fun _ => False)
    (fun _ => True) := by
  rw [readAt]
  cases b[i]? <;> trivial

theorem scanDigits_ends (l : List Char) (n i : ℕ) : (scanDigits l n i : Outcome Trap ρ (ℕ × ℕ)).Ends (fun _ => True)
    (fun _ => False) (fun x => x.2 < i + l.length) := by
  induction l generalizing n i with
  | nil => trivial
  | cons c l ih =>
    rw [scanDigits]
    split
    case isTrue =>
      refine (ih _ (i + 1)).mono (fun _ h => h) (fun _ h => h) fun x hx => ?_
      rw [List.length_cons]
      omega
    case isFalse =>
      rw [List.length_cons]
      exact Nat.lt_add_of_pos_right (Nat.succ_pos _)

theorem lineStep_terminated (s : Scan) (h : Terminated s.parsed) :
    (lineStep s).Ends (fun _ => True) Terminated fun s' => Terminated s'.parsed := by
  obtain ⟨ptr, parsed⟩ := s
  rw [lineStep]
  cases ptr with
  | none => exact h
  | some i =>
    dsimp only at h ⊢
    split
    case isFalse => exact h
    case isTrue hi =>
      refine ((readAt_ends _ i).mono (fun _ h => h) (fun _ h => h.elim) fun _ h => h).bind fun c _ => ?_
      split
      case isTrue => exact h
      case isFalse =>
        rw [atou]
        refine ((scanDigits_ends _ 0 i).mono (fun _ h => h) (fun _ h => h.elim) fun _ h => h).bind ?_
        rintro ⟨index, j⟩ hj
        rw [List.length_drop] at hj
        have hj : j < parsed.buffer.length := by omega
        split
        case isFalse => trivial
        case isTrue =>
          refine ((logProgram_ends _ _).mono (fun _ h => h) (fun _ h => h.elim) fun _ h => h).bind fun _ hmem => ?_
          intro k p hp
          dsimp only at hp ⊢
          by_cases hk : k = index
          · rw [hk, Function.update_self] at hp
            obtain rfl := Option.some.inj hp
            exact mem_set_drop hj hmem
          · rw [Function.update_of_ne hk] at hp
            exact mem_set_drop hj (h k p hp)

/-- Whatever the file holds, the strings of the table end inside it. -/
theorem parseInit_terminated {content : List Char} {r : Parsed} (h : parseInit content = .done r) : Terminated r := by
  by_cases hpre : cores <+: toText content
  · rw [parseInit] at h
    dsimp only at h
    rw [strncmp_eq, List.drop_zero, if_pos hpre, next_bind, if_neg Bool.false_ne_true, atou] at h
    have hends := scanDigits_ends (ρ := Parsed) ((toText content).drop 6) 0 6
    cases hd : (scanDigits ((toText content).drop 6) 0 6 : Outcome Trap Parsed (ℕ × ℕ)) with
    | fail e =>
      rw [hd] at h
      cases h
    | done r' =>
      rw [hd] at hends
      exact hends.elim
    | next x =>
      rw [hd, next_bind] at h
      refine Returns.invariant (fun s => Terminated s.parsed) Terminated lineStep_terminated ?_ ⟨_, h⟩
      intro k p hp
      cases hp
  · rw [parseInit_no_header hpre] at h
    split at h
    · cases h
    · cases h

theorem Parsed.string_of_named {r : Parsed} (hr : Terminated r) (h : r.named k = some l) :
    ∃ p, r.programs k = some p ∧ ∃ t, r.buffer.drop p = l ++ nul :: t := by
  obtain ⟨p, hp, rfl⟩ := Option.map_eq_some_iff.mp h
  refine ⟨p, hp, ?_⟩
  obtain ⟨l, t, hsplit, hl⟩ := List.eq_append_cons_of_mem (hr k p hp)
  exact ⟨t, by rw [hsplit, takeWhile_nul hl]⟩

end Terminated

/-- The lines of such a file are what the loop comes to. -/
theorem initFile_reads (n : Decimal) (ls : List InitLine) :
    Reads (parseInit (initFile n ls)) (n.value % 2 ^ 32) [] (fileLines ls) := by
  have hlines : ((n.digits ++ nul :: (ls.map InitLine.text).flatMap fun l => l ++ [nul]).splitOn nul).tail =
      fileLines ls := by
    rw [List.splitOn_append_cons_self_of_not_mem (nul_not_mem_digits n.decimal), List.tail_cons, splitOn_lines, fileLines]
    exact List.forall_mem_map.mpr fun l _ => nul_not_mem_text l
  have hdigit : ∃ c ∈ n.digits ++ nul :: (ls.map InitLine.text).flatMap fun l => l ++ [nul], c.isDigit = false :=
    ⟨nul, List.mem_append_right _ (List.mem_cons_self ..), by decide⟩
  have hreads := parseInit_reads (toText_initFile n ls) hdigit
  rwa [hlines, number_decimal n (by decide)] at hreads

/-- The scan reads such a file back as it stands, if the names leave room for the digits of their numbers in the
messages about them. -/
theorem parse_init_faithful (n : Decimal) (ls : List InitLine)
    (hdistinct : ((ls.filterMap InitLine.entry).map Prod.fst).Nodup)
    (hlt : ∀ e ∈ ls.filterMap InitLine.entry, e.1 < maxCore) :
    (∃ r, parseInit (initFile n ls) = .done r ∧ r.requiredCores = n.value % 2 ^ 32 ∧
      (∀ index name, .program index name ∈ ls →
        ∃ p, r.programs index.value = some p ∧ ∃ t, r.buffer.drop p = name.chars ++ nul :: t) ∧
      ∀ k, (∀ index name, .program index name ∈ ls → index.value ≠ k) → r.programs k = none) ↔
    ∀ index name, .program index name ∈ ls → Nat.log 10 index.value + 1 + name.chars.length ≤ 490 := by
  obtain ⟨hentries, hread⟩ := entries_lines hlt
  have hreads := initFile_reads n ls
  have hmem {index : Decimal} {name : ProgramName} (h : .program index name ∈ ls) :
      (index.value, name.chars) ∈ ls.filterMap InitLine.entry := List.mem_filterMap.mpr ⟨_, h, rfl⟩
  have hprogram {e : ℕ × List Char} (he : e ∈ ls.filterMap InitLine.entry) :
      ∃ index name, .program index name ∈ ls ∧ e = (index.value, name.chars) := by
    obtain ⟨l, hl, hentry⟩ := List.mem_filterMap.mp he
    cases l with
    | blank => cases hentry
    | program index name => exact ⟨index, name, hl, (Option.some.inj hentry).symm⟩
  constructor
  · rintro ⟨r, hr, -⟩ index name h
    have hall : Readable (fileLines ls) := by
      by_contra hnot
      cases hr.symm.trans (hreads.fail hnot)
    exact (hread.mp hall _ (hmem h)).2
  · intro hnames
    have hall : Readable (fileLines ls) := by
      refine hread.mpr fun e he => ⟨hlt e he, ?_⟩
      obtain ⟨index, name, h, rfl⟩ := hprogram he
      exact hnames index name h
    obtain ⟨r, hr, hcores, hnamed⟩ := hreads.done hall
    rw [List.nil_append, hentries] at hnamed
    refine ⟨r, hr, hcores, fun index name h => ?_, fun k hk => ?_⟩
    · apply Parsed.string_of_named (parseInit_terminated hr)
      rw [hnamed]
      exact table_of_mem hdistinct (hmem h)
    · have hnone : r.named k = none := by
        rw [hnamed]
        apply table_eq_none
        intro e he
        obtain ⟨index, name, h, rfl⟩ := hprogram he
        exact hk index name h
      exact Option.map_eq_none_iff.mp hnone

def zeros : Decimal := ⟨"00".toList, by decide, List.all_eq_true.mp rfl⟩

def one : Decimal := ⟨"1".toList, by decide, List.all_eq_true.mp rfl⟩

def editor : ProgramName := ⟨"editor".toList, by decide, by decide⟩

/-- Two lines out of order, with a blank one between them. -/
def swappedLines : List InitLine :=
  [.program one ⟨"HANG".toList, by decide, by decide⟩, .blank, .program zeros editor]

theorem parse_init_swapped : ∃ r, parseInit "CORES 2\n1 HANG\n\n00 editor\n".toList = .done r ∧
    r.requiredCores = 2 ∧ ∃ p, r.programs 0 = some p ∧ ∃ t, r.buffer.drop p = "editor".toList ++ nul :: t := by
  have hnames (index : Decimal) (name : ProgramName) (h : .program index name ∈ swappedLines) :
      Nat.log 10 index.value + 1 + name.chars.length ≤ 490 := by
    simp only [swappedLines, List.mem_cons, InitLine.program.injEq, reduceCtorEq, List.not_mem_nil, or_false,
      false_or] at h
    rcases h with ⟨rfl, rfl⟩ | ⟨rfl, rfl⟩ <;> decide +kernel
  obtain ⟨r, hr, hcores, hprograms, -⟩ := (parse_init_faithful ⟨"2".toList, by decide, List.all_eq_true.mp rfl⟩
    swappedLines (by decide) (by decide)).mpr hnames
  exact ⟨r, hr, hcores, hprograms zeros editor (by simp [swappedLines])⟩

def longName : ProgramName := ⟨List.replicate 490 'A', by decide +kernel, by decide +kernel⟩

/-- The message about a name of 490 characters overruns its buffer. -/
theorem name_overruns : ¬ ∃ r, parseInit (initFile one [.program zeros longName]) = .done r := by
  have hlt : ∀ e ∈ [.program zeros longName].filterMap InitLine.entry, e.1 < maxCore := by decide
  have hcut : ¬ Readable (fileLines [.program zeros longName]) := by
    rw [(entries_lines hlt).2]
    exact fun h => absurd (h _ (List.mem_singleton_self _)).2 (by decide +kernel)
  rintro ⟨r, hr⟩
  cases hr.symm.trans ((initFile_reads one _).fail hcut)

end Raccoon.InitFile
