import Mathlib.Data.List.TakeWhile
import Raccoon.KernelMain
import Raccoon.Printing

/-!
`parse_init` on arbitrary file contents. A pointer into the file is an offset,
and the first access outside the file, the table of programs or the buffer of a
log message ends a run. At the level of lines the scan reads one entry per line,
but takes the next line for the program of a line of digits.
-/

namespace Raccoon.InitFile

open Loops Outcome CoreLaunch KernelMain Printing

inductive Trap where
  | outOfBounds
  | panic
deriving DecidableEq

def nul : Char := '\x00'

section Code

variable {ρ : Type}

def readAt (b : List Char) (i : ℕ) : Outcome Trap ρ Char :=
  match b[i]? with
  | some c => .next c
  | none => .fail .outOfBounds

/-- `strncmp(ptr, s, strlen(s))`, which does not stop at a NUL. -/
def strncmp (b : List Char) (i : ℕ) : List Char → Outcome Trap ρ Bool
  | [] => .next false
  | c :: cs => do
    let a ← readAt b i
    if a ≠ c then .next true else strncmp b (i + 1) cs

def scanDigits : List Char → ℕ → ℕ → Outcome Trap ρ (ℕ × ℕ)
  | [], _, _ => .fail .outOfBounds
  | c :: cs, n, i =>
    if c.isDigit then scanDigits cs ((n * 10 + c.toNat - '0'.toNat) % 2 ^ 32) (i + 1) else .next (n, i)

/-- The number at `i`, and the offset after it. -/
def atou (b : List Char) (i : ℕ) : Outcome Trap ρ (ℕ × ℕ) := scanDigits (b.drop i) 0 i

def scanLine : List Char → ℕ → Option ℕ
  | [], _ => none
  | c :: cs, i => if c = nul then some (i + 1) else scanLine cs (i + 1)

def getNextLine (b : List Char) (i : ℕ) : Option ℕ := scanLine (b.drop i) i

/-- What a log message reads of a string argument. -/
def scanString : List Char → Outcome Trap ρ Unit
  | [] => .fail .outOfBounds
  | c :: cs => if c = nul then .next () else scanString cs

def programMessage : CString := ⟨"Core {d} -> {s}".toList, by decide⟩

/-- The message about the program at a pointer. -/
def logProgram (index : ℕ) (program : List Char) : Outcome Trap ρ Unit := do
  scanString program
  if fits programMessage [.size index, .string (.upTo program)] then .next () else .fail .outOfBounds

/-- The result, with the file that its pointers lead into. -/
structure Parsed where
  requiredCores : ℕ
  programs : ℕ → Option ℕ
  buffer : List Char

structure Scan where
  ptr : Option ℕ
  parsed : Parsed

def lineStep (s : Scan) : Outcome Trap Parsed Scan :=
  match s.ptr with
  | none => .done s.parsed
  | some i =>
    if i < s.parsed.buffer.length then do
      let c ← readAt s.parsed.buffer i
      if c = nul then .next { s with ptr := getNextLine s.parsed.buffer i }
      else do
        let (index, i) ← atou s.parsed.buffer i
        if index < maxCore then do
          logProgram index (s.parsed.buffer.drop (i + 1))
          let buffer := s.parsed.buffer.set i nul
          .next ⟨getNextLine buffer (i + 1), { s.parsed with
            programs := Function.update s.parsed.programs index (some (i + 1))
            buffer := buffer }⟩
        else .fail .outOfBounds
    else .done s.parsed

def toText (content : List Char) : List Char := content.map fun c => if c = '\n' then nul else c

def cores : List Char := "CORES ".toList

/-- Every round of the loop moves the pointer on, so that the rounds do not run out. -/
def parseInit (content : List Char) : Outcome Trap Parsed Scan := do
  let b := toText content
  let differs ← strncmp b 0 cores
  if differs then .fail .panic
  else do
    let (requiredCores, _) ← atou b 6
    runFor lineStep (b.length + 1) ⟨getNextLine b 6, requiredCores, fun _ => none, b⟩

end Code

section Lines

/-- The number at the beginning of a line, as a 32-bit integer. -/
def number (l : List Char) : ℕ :=
  (l.takeWhile Char.isDigit).foldl (fun n c => (n * 10 + c.toNat - '0'.toNat) % 2 ^ 32) 0

/-- The entries of a list of lines, the last of which has no terminator. -/
def entries : List (List Char) → List (ℕ × List Char)
  | l :: l' :: ls =>
    if l = [] then entries (l' :: ls)
    else if l.all Char.isDigit then (number l, l') :: entries ls
    else (number l, (l.dropWhile Char.isDigit).tail) :: entries (l' :: ls)
  | _ => []

/-- The number is below `MAX_CORE`, and with the digits of the number the program is no longer than 490 characters,
so that the message about it fits its buffer. -/
def Acceptable (index : ℕ) (program : List Char) : Prop :=
  index < maxCore ∧ Nat.log 10 index + 1 + program.length ≤ 490

instance (index : ℕ) (program : List Char) : Decidable (Acceptable index program) := inferInstanceAs (Decidable (_ ∧ _))

/-- The entries are acceptable, and neither an entry nor the program of a line of digits is cut off by the end of
the file. -/
def Readable : List (List Char) → Prop
  | l :: l' :: ls =>
    if l = [] then Readable (l' :: ls)
    else if l.all Char.isDigit then Acceptable (number l) l' ∧ ls ≠ [] ∧ Readable ls
    else Acceptable (number l) (l.dropWhile Char.isDigit).tail ∧ Readable (l' :: ls)
  | [l] => l = []
  | [] => True

/-- The program of each core: the last entry for it counts. -/
def table (es : List (ℕ × List Char)) : ℕ → Option (List Char) :=
  es.foldl (fun t e => Function.update t e.1 (some e.2)) fun _ => none

end Lines

variable {ρ : Type} {b cs ds t l : List Char} {c : Char} {i n : ℕ}

theorem scanDigits_span (hds : ∀ d ∈ ds, d.isDigit = true) (hc : c.isDigit = false) (n i : ℕ) :
    (scanDigits (ds ++ c :: t) n i : Outcome Trap ρ _) =
      .next (ds.foldl (fun n c => (n * 10 + c.toNat - '0'.toNat) % 2 ^ 32) n, i + ds.length) := by
  induction ds generalizing n i with
  | nil => simp [scanDigits, hc]
  | cons d ds ih =>
    have hd := hds d (List.mem_cons_self ..)
    rw [List.cons_append, scanDigits, if_pos hd, ih fun d hd => hds d (List.mem_cons_of_mem _ hd)]
    simp only [List.foldl_cons, List.length_cons]
    congr 2
    omega

theorem scanDigits_end (hds : ∀ d ∈ ds, d.isDigit = true) (n i : ℕ) :
    (scanDigits ds n i : Outcome Trap ρ _) = .fail .outOfBounds := by
  induction ds generalizing n i with
  | nil => rfl
  | cons d ds ih =>
    rw [scanDigits, if_pos (hds d (List.mem_cons_self ..))]
    exact ih (fun d hd => hds d (List.mem_cons_of_mem _ hd)) _ _

theorem scanLine_span (hl : nul ∉ l) (i : ℕ) : scanLine (l ++ nul :: t) i = some (i + l.length + 1) := by
  induction l generalizing i with
  | nil => simp [scanLine]
  | cons c l ih =>
    have hc : c ≠ nul := fun h => hl (h ▸ List.mem_cons_self ..)
    rw [List.cons_append, scanLine, if_neg hc, ih fun h => hl (List.mem_cons_of_mem _ h)]
    congr 1
    simp only [List.length_cons]
    omega

theorem scanLine_end (hl : nul ∉ l) (i : ℕ) : scanLine l i = none := by
  induction l generalizing i with
  | nil => rfl
  | cons c l ih =>
    have hc : c ≠ nul := fun h => hl (h ▸ List.mem_cons_self ..)
    rw [scanLine, if_neg hc]
    exact ih (fun h => hl (List.mem_cons_of_mem _ h)) _

theorem scanString_eq (l : List Char) :
    (scanString l : Outcome Trap ρ Unit) = if nul ∈ l then .next () else .fail .outOfBounds := by
  induction l with
  | nil => rfl
  | cons c l ih =>
    rw [scanString, ih]
    by_cases hc : c = nul
    · simp [hc]
    · simp [hc, Ne.symm hc]

theorem programMessage_fits_iff (index : ℕ) (s : CString) :
    fits programMessage [.size index, .string s] = true ↔ Nat.log 10 index + 1 + s.length ≤ 490 := by
  have hdir : directives programMessage.chars = ['d', 's'] := by decide +kernel
  have hlit : literals programMessage.chars = 9 := by decide +kernel
  refine (fits_iff hdir hlit (by simp [Takes])).trans ?_
  simp only [List.zipWith_cons_cons, List.zipWith_nil_left, List.sum_cons, List.sum_nil, argWidth, if_true]
  omega

theorem logProgram_eq (index : ℕ) (l : List Char) : (logProgram index l : Outcome Trap ρ Unit) =
    if nul ∈ l ∧ Nat.log 10 index + 1 + (l.takeWhile (· ≠ nul)).length ≤ 490 then .next ()
    else .fail .outOfBounds := by
  have hfits := programMessage_fits_iff index (.upTo l)
  rw [logProgram, scanString_eq]
  by_cases hl : nul ∈ l
  · rw [if_pos hl, next_bind]
    by_cases hle : Nat.log 10 index + 1 + (l.takeWhile (· ≠ nul)).length ≤ 490
    · rw [if_pos (hfits.mpr hle), if_pos ⟨hl, hle⟩]
    · rw [if_neg fun h => hle (hfits.mp h), if_neg fun h => hle h.2]
  · rw [if_neg hl, fail_bind, if_neg fun h => hl h.1]

theorem logProgram_cut {index : ℕ} (hl : nul ∉ l) : (logProgram index l : Outcome Trap ρ Unit) = .fail .outOfBounds := by
  rw [logProgram_eq, if_neg fun h => hl h.1]

theorem takeWhile_nul (hl : nul ∉ l) (t : List Char) : (l ++ nul :: t).takeWhile (· ≠ nul) = l := by
  have hall : ∀ c ∈ l, decide (c ≠ nul) = true := fun c hc => decide_eq_true fun h => hl (h ▸ hc)
  rw [List.takeWhile_append_of_pos hall, List.takeWhile_cons_of_neg (by simp), List.append_nil]

theorem digits_split (cs : List Char) : (∀ d ∈ cs, d.isDigit = true) ∨
    ∃ ds c t, cs = ds ++ c :: t ∧ (∀ d ∈ ds, d.isDigit = true) ∧ c.isDigit = false := by
  induction cs with
  | nil => exact .inl fun d hd => absurd hd List.not_mem_nil
  | cons c cs ih =>
    by_cases hc : c.isDigit = true
    · rcases ih with hall | ⟨ds, c', t, rfl, hds, hc'⟩
      · exact .inl (List.forall_mem_cons.mpr ⟨hc, hall⟩)
      · exact .inr ⟨c :: ds, c', t, rfl, List.forall_mem_cons.mpr ⟨hc, hds⟩, hc'⟩
    · exact .inr ⟨[], c, cs, rfl, fun d hd => absurd hd List.not_mem_nil, by simpa using hc⟩

theorem nul_not_mem_digits (hds : ∀ d ∈ ds, d.isDigit = true) : nul ∉ ds := fun h => absurd (hds _ h) (by decide)

theorem drop_succ (h : b.drop i = c :: t) : b.drop (i + 1) = t := by
  rw [← List.drop_drop, h]
  rfl

theorem number_append (hds : ∀ d ∈ ds, d.isDigit = true) (hc : c.isDigit = false) :
    number (ds ++ c :: l) = number ds := by
  rw [number, number, List.takeWhile_append_of_pos hds, List.takeWhile_cons_of_neg (by simp [hc]), List.append_nil,
    List.takeWhile_eq_self_iff.mpr hds]

theorem readAt_drop (h : b.drop i = c :: t) : (readAt b i : Outcome Trap ρ Char) = .next c := by
  have hc : b[i]? = some c := by
    rw [← List.head?_drop, h]
    rfl
  rw [readAt, hc]

section Step

variable {parsed : Parsed}

theorem lineStep_none : lineStep ⟨none, parsed⟩ = .done parsed := rfl

theorem lineStep_end (h : parsed.buffer.drop i = []) : lineStep ⟨some i, parsed⟩ = .done parsed := by
  rw [lineStep]
  dsimp only
  rw [if_neg (Nat.not_lt.mpr (List.drop_eq_nil_iff.mp h))]

theorem lt_length (h : b.drop i = c :: t) : i < b.length := by
  by_contra hge
  rw [List.drop_eq_nil_of_le (Nat.le_of_not_lt hge)] at h
  cases h

theorem lineStep_blank (h : parsed.buffer.drop i = nul :: t) :
    lineStep ⟨some i, parsed⟩ = .next ⟨some (i + 1), parsed⟩ := by
  rw [lineStep]
  dsimp only
  rw [if_pos (lt_length h), readAt_drop h, next_bind, if_pos rfl, getNextLine, h, scanLine, if_pos rfl]

theorem lineStep_line (h : parsed.buffer.drop i = c :: t) (hc : c ≠ nul) : lineStep ⟨some i, parsed⟩ =
    (scanDigits (c :: t) 0 i >>= fun x => if x.1 < maxCore then do
        logProgram x.1 (parsed.buffer.drop (x.2 + 1))
        .next ⟨getNextLine (parsed.buffer.set x.2 nul) (x.2 + 1), { parsed with
          programs := Function.update parsed.programs x.1 (some (x.2 + 1))
          buffer := parsed.buffer.set x.2 nul }⟩
      else .fail .outOfBounds) := by
  rw [lineStep]
  dsimp only
  rw [if_pos (lt_length h), readAt_drop h, next_bind, if_neg hc, atou, h]

/-- The end of the digits is inside the file, and what follows their terminator ends in the file. -/
theorem lineStep_entry (h : parsed.buffer.drop i = ds ++ c :: (l ++ nul :: t))
    (hds : ∀ d ∈ ds, d.isDigit = true) (hc : c.isDigit = false) (hfirst : ds ≠ [] ∨ c ≠ nul) (hl : nul ∉ l) :
    lineStep ⟨some i, parsed⟩ = if Acceptable (number (ds ++ c :: l)) l then
      .next ⟨some (i + ds.length + 1 + l.length + 1), { parsed with
        programs := Function.update parsed.programs (number (ds ++ c :: l)) (some (i + ds.length + 1))
        buffer := parsed.buffer.set (i + ds.length) nul }⟩
      else .fail .outOfBounds := by
  have hnumber : ds.foldl (fun n c => (n * 10 + c.toNat - '0'.toNat) % 2 ^ 32) 0 = number (ds ++ c :: l) := by
    rw [number, List.takeWhile_append_of_pos hds, List.takeWhile_cons_of_neg (by simp [hc]), List.append_nil]
  have hrest : parsed.buffer.drop (i + ds.length + 1) = l ++ nul :: t := by
    rw [Nat.add_assoc, ← List.drop_drop, h, ← List.drop_drop, List.drop_left]
    rfl
  have hset : (parsed.buffer.set (i + ds.length) nul).drop (i + ds.length + 1) = l ++ nul :: t := by
    rw [List.drop_set_of_lt (Nat.lt_succ_self _), hrest]
  obtain ⟨c₀, t₀, hcons, hc₀⟩ : ∃ c₀ t₀, ds ++ c :: (l ++ nul :: t) = c₀ :: t₀ ∧ c₀ ≠ nul := by
    cases ds with
    | nil => exact ⟨c, _, rfl, hfirst.resolve_left (by simp)⟩
    | cons d ds => exact ⟨d, _, rfl, fun he => nul_not_mem_digits hds (he ▸ List.mem_cons_self ..)⟩
  rw [lineStep_line (h.trans hcons) hc₀, ← hcons, scanDigits_span hds hc, next_bind, hnumber]
  have hmem : nul ∈ l ++ nul :: t := List.mem_append_right _ (List.mem_cons_self ..)
  dsimp only
  rw [hrest, logProgram_eq, takeWhile_nul hl, getNextLine, hset, scanLine_span hl]
  by_cases hlt : number (ds ++ c :: l) < maxCore
  · rw [if_pos hlt]
    by_cases hle : Nat.log 10 (number (ds ++ c :: l)) + 1 + l.length ≤ 490
    · rw [if_pos ⟨hmem, hle⟩, next_bind, if_pos ⟨hlt, hle⟩]
    · rw [if_neg fun h => hle h.2, fail_bind, if_neg fun h => hle h.2]
  · rw [if_neg hlt, if_neg fun h => hlt h.1]

/-- A last line without a terminator is read past the end of the file. -/
theorem lineStep_cut (h : parsed.buffer.drop i = c :: t) (hc : c ≠ nul)
    (hcut : (∀ d ∈ c :: t, d.isDigit = true) ∨
      ∃ ds c' t', c :: t = ds ++ c' :: t' ∧ (∀ d ∈ ds, d.isDigit = true) ∧ c'.isDigit = false ∧ nul ∉ t') :
    lineStep ⟨some i, parsed⟩ = .fail .outOfBounds := by
  rw [lineStep_line h hc]
  rcases hcut with hall | ⟨ds, c', t', hcons, hds, hc', ht'⟩
  · rw [scanDigits_end hall, fail_bind]
  · have hrest : parsed.buffer.drop (i + ds.length + 1) = t' := by
      rw [Nat.add_assoc, ← List.drop_drop, h, hcons, ← List.drop_drop, List.drop_left]
      rfl
    rw [hcons, scanDigits_span hds hc', next_bind]
    dsimp only
    rw [hrest, logProgram_cut ht', fail_bind, ite_self]

end Step

/-- The string at the pointer of core `k`. -/
def Parsed.named (r : Parsed) (k : ℕ) : Option (List Char) :=
  (r.programs k).map fun p => (r.buffer.drop p).takeWhile (· ≠ nul)

/-- The strings of the table end before the offset `i`, so that a write from there on leaves them. -/
def EndBefore (r : Parsed) (i : ℕ) : Prop :=
  ∀ k p, r.programs k = some p → p + ((r.buffer.drop p).takeWhile (· ≠ nul)).length < i

theorem takeWhile_set {P : Char → Bool} {a : Char} {l : List Char} {j : ℕ} (h : (l.takeWhile P).length < j) :
    (l.set j a).takeWhile P = l.takeWhile P := by
  induction l generalizing j with
  | nil => rfl
  | cons c l ih =>
    obtain ⟨j, rfl⟩ := Nat.exists_eq_add_one_of_ne_zero (Nat.ne_zero_of_lt h)
    rw [List.set_cons_succ]
    by_cases hc : P c = true
    · rw [List.takeWhile_cons_of_pos hc, List.length_cons] at h
      rw [List.takeWhile_cons_of_pos hc, List.takeWhile_cons_of_pos hc, ih (Nat.lt_of_succ_lt_succ h)]
    · rw [List.takeWhile_cons_of_neg hc, List.takeWhile_cons_of_neg hc]

theorem string_set {p j : ℕ} (h : p + ((b.drop p).takeWhile (· ≠ nul)).length < j) (a : Char) :
    ((b.set j a).drop p).takeWhile (· ≠ nul) = (b.drop p).takeWhile (· ≠ nul) := by
  rw [List.drop_set, if_neg (by omega)]
  exact takeWhile_set (by omega)

theorem table_snoc (es : List (ℕ × List Char)) (k : ℕ) (l : List Char) :
    table (es ++ [(k, l)]) = Function.update (table es) k (some l) := by
  rw [table, List.foldl_append]
  rfl

section Entry

variable {parsed : Parsed} {es : List (ℕ × List Char)} {k p j : ℕ}

/-- An entry adds a program whose string is behind the others. -/
theorem named_entry (hend : EndBefore parsed i) (hnamed : parsed.named = table es) (hj : i ≤ j)
    (hp : ((parsed.buffer.set j nul).drop p).takeWhile (· ≠ nul) = l) :
    ({ parsed with
      programs := Function.update parsed.programs k (some p)
      buffer := parsed.buffer.set j nul } : Parsed).named = table (es ++ [(k, l)]) := by
  funext k'
  rw [table_snoc, Parsed.named]
  dsimp only
  by_cases hk : k' = k
  · subst hk
    rw [Function.update_self, Function.update_self, Option.map_some, hp]
  · rw [Function.update_of_ne hk, Function.update_of_ne hk, ← hnamed, Parsed.named]
    cases hq : parsed.programs k' with
    | none => rfl
    | some q => rw [Option.map_some, Option.map_some, string_set ((hend k' q hq).trans_le hj)]

theorem endBefore_entry {i' : ℕ} (hend : EndBefore parsed i) (hj : i ≤ j) (hi : i ≤ i')
    (hp : p + (((parsed.buffer.set j nul).drop p).takeWhile (· ≠ nul)).length < i') :
    EndBefore { parsed with
      programs := Function.update parsed.programs k (some p)
      buffer := parsed.buffer.set j nul } i' := by
  intro k' q hq
  dsimp only at hq ⊢
  by_cases hk : k' = k
  · rw [hk, Function.update_self] at hq
    obtain rfl := Option.some.inj hq
    exact hp
  · rw [Function.update_of_ne hk] at hq
    have hlt := hend k' q hq
    rw [string_set (hlt.trans_le hj)]
    exact hlt.trans_le hi

end Entry

/-- What the loop makes of the lines `ls` that are left. -/
structure Reads (o : Outcome Trap Parsed Scan) (required : ℕ) (es : List (ℕ × List Char)) (ls : List (List Char)) :
    Prop where
  done : Readable ls → ∃ r, o = .done r ∧ r.requiredCores = required ∧ r.named = table (es ++ entries ls)
  fail : ¬ Readable ls → o = .fail .outOfBounds

variable {o : Outcome Trap Parsed Scan} {required : ℕ} {es : List (ℕ × List Char)} {ls : List (List Char)}

theorem Reads.blank (h : Reads o required es ls) (hls : ls ≠ []) : Reads o required es ([] :: ls) := by
  obtain ⟨l, ls, rfl⟩ := List.exists_cons_of_ne_nil hls
  exact ⟨h.done, h.fail⟩

theorem Reads.cut (ho : o = .fail .outOfBounds) (hls : ¬ Readable ls) : Reads o required es ls :=
  ⟨fun h => absurd h hls, fun _ => ho⟩

theorem Reads.digits {l : List Char} (hds : ∀ d ∈ ds, d.isDigit = true) (hne : ds ≠ []) (hls : ls ≠ [])
    (ho : Acceptable (number ds) l → Reads o required (es ++ [(number ds, l)]) ls)
    (hfail : ¬ Acceptable (number ds) l → o = .fail .outOfBounds) : Reads o required es (ds :: l :: ls) := by
  have hall : ds.all Char.isDigit = true := List.all_eq_true.mpr hds
  refine ⟨fun h => ?_, fun h => ?_⟩
  · rw [Readable, if_neg hne, if_pos hall] at h
    obtain ⟨r, hr, hcores, hnamed⟩ := (ho h.1).done h.2.2
    refine ⟨r, hr, hcores, ?_⟩
    rw [hnamed, entries, if_neg hne, if_pos hall, List.append_assoc, List.singleton_append]
  · by_cases hlt : Acceptable (number ds) l
    · refine (ho hlt).fail fun hread => h ?_
      rw [Readable, if_neg hne, if_pos hall]
      exact ⟨hlt, hls, hread⟩
    · exact hfail hlt

theorem Reads.entry (hds : ∀ d ∈ ds, d.isDigit = true) (hc : c.isDigit = false) (hls : ls ≠ [])
    (ho : Acceptable (number (ds ++ c :: l)) l → Reads o required (es ++ [(number (ds ++ c :: l), l)]) ls)
    (hfail : ¬ Acceptable (number (ds ++ c :: l)) l → o = .fail .outOfBounds) :
    Reads o required es ((ds ++ c :: l) :: ls) := by
  have hne : ds ++ c :: l ≠ [] := by simp
  have hall : ¬ (ds ++ c :: l).all Char.isDigit = true := by simp [hc]
  have hrest : ((ds ++ c :: l).dropWhile Char.isDigit).tail = l := by
    rw [List.dropWhile_append_of_pos hds, List.dropWhile_cons_of_neg (by simp [hc]), List.tail_cons]
  obtain ⟨l', ls, rfl⟩ := List.exists_cons_of_ne_nil hls
  refine ⟨fun h => ?_, fun h => ?_⟩
  · rw [Readable, if_neg hne, if_neg hall, hrest] at h
    obtain ⟨r, hr, hcores, hnamed⟩ := (ho h.1).done h.2
    refine ⟨r, hr, hcores, ?_⟩
    rw [hnamed, entries, if_neg hne, if_neg hall, hrest, List.append_assoc, List.singleton_append]
  · by_cases hlt : Acceptable (number (ds ++ c :: l)) l
    · refine (ho hlt).fail fun hread => h ?_
      rw [Readable, if_neg hne, if_neg hall, hrest]
      exact ⟨hlt, hread⟩
    · exact hfail hlt

theorem not_readable_cut {c₀ : Char} {t₀ : List Char} (hc₀ : c₀ ≠ nul) (hsplit : c₀ :: t₀ = ds ++ c :: t)
    (hds : ∀ d ∈ ds, d.isDigit = true) (ht : nul ∉ t) : ¬ Readable ((c₀ :: t₀).splitOn nul) := by
  by_cases hcn : c = nul
  · subst hcn
    have hall : ds.all Char.isDigit = true := List.all_eq_true.mpr hds
    have hne : ds ≠ [] := by
      rintro rfl
      exact hc₀ (List.cons.inj hsplit).1
    rw [hsplit, List.splitOn_append_cons_self_of_not_mem (nul_not_mem_digits hds), List.splitOn_eq_singleton ht,
      Readable, if_neg hne, if_pos hall]
    exact fun h => h.2.1 rfl
  · have hline : nul ∉ c₀ :: t₀ := by
      rw [hsplit, List.mem_append, List.mem_cons, not_or, not_or]
      exact ⟨nul_not_mem_digits hds, Ne.symm hcn, ht⟩
    rw [List.splitOn_eq_singleton hline, Readable]
    exact List.cons_ne_nil c₀ t₀

theorem entry_read {n : ℕ} {parsed : Parsed} (h : parsed.buffer.drop i = ds ++ c :: (l ++ nul :: t))
    (hds : ∀ d ∈ ds, d.isDigit = true) (hc : c.isDigit = false) (hfirst : ds ≠ [] ∨ c ≠ nul) (hl : nul ∉ l)
    (hend : EndBefore parsed i) (hnamed : parsed.named = table es)
    (ih : ∀ parsed' i', parsed'.buffer.drop i' = t → EndBefore parsed' i' →
      parsed'.named = table (es ++ [(number (ds ++ c :: l), l)]) →
      Reads (runFor lineStep n ⟨some i', parsed'⟩) parsed'.requiredCores
        (es ++ [(number (ds ++ c :: l), l)]) (t.splitOn nul))
    (hlt : Acceptable (number (ds ++ c :: l)) l) :
    Reads (lineStep ⟨some i, parsed⟩ >>= runFor lineStep n) parsed.requiredCores
      (es ++ [(number (ds ++ c :: l), l)]) (t.splitOn nul) := by
  have hrest : (parsed.buffer.set (i + ds.length) nul).drop (i + ds.length + 1) = l ++ nul :: t := by
    rw [List.drop_set_of_lt (Nat.lt_add_one _), Nat.add_assoc, ← List.drop_drop, h, ← List.drop_drop,
      List.drop_left]
    rfl
  have hname : ((parsed.buffer.set (i + ds.length) nul).drop (i + ds.length + 1)).takeWhile (· ≠ nul) = l := by
    rw [hrest, takeWhile_nul hl]
  rw [lineStep_entry h hds hc hfirst hl, if_pos hlt, next_bind]
  apply ih
  · rw [Nat.add_assoc _ l.length, ← List.drop_drop, hrest, ← List.drop_drop, List.drop_left]
    rfl
  · apply endBefore_entry hend (Nat.le_add_right ..) (by omega)
    rw [hname]
    omega
  · exact named_entry hend hnamed (Nat.le_add_right ..) hname

/-- The loop over the lines, by the length of what is left of the file. -/
theorem lines_read (n : ℕ) (parsed : Parsed) (i : ℕ) (es : List (ℕ × List Char)) (cs : List Char)
    (hcs : parsed.buffer.drop i = cs) (hn : cs.length < n) (hend : EndBefore parsed i)
    (hnamed : parsed.named = table es) :
    Reads (runFor lineStep n ⟨some i, parsed⟩) parsed.requiredCores es (cs.splitOn nul) := by
  induction n generalizing parsed i es cs with
  | zero => omega
  | succ n ih =>
    rw [runFor_succ]
    cases cs with
    | nil =>
      rw [lineStep_end hcs, done_bind]
      exact ⟨fun _ => ⟨parsed, rfl, rfl, by simpa [entries] using hnamed⟩, fun h => absurd rfl h⟩
    | cons c₀ t₀ =>
      by_cases hc₀ : c₀ = nul
      · subst hc₀
        rw [lineStep_blank hcs, next_bind]
        have hblank := ih parsed (i + 1) es t₀ (drop_succ hcs) (Nat.lt_of_succ_lt_succ hn)
          (fun k p hp => (hend k p hp).trans (Nat.lt_succ_self i)) hnamed
        exact hblank.blank (List.splitOn_ne_nil nul t₀)
      · rcases digits_split (c₀ :: t₀) with hall | ⟨ds, c, t, hsplit, hds, hc⟩
        · rw [lineStep_cut hcs hc₀ (.inl hall), fail_bind, List.splitOn_eq_singleton (nul_not_mem_digits hall)]
          exact .cut rfl (by simp [Readable])
        · by_cases ht : nul ∈ t
          · obtain ⟨l, t', rfl, hl⟩ := List.eq_append_cons_of_mem ht
            have hdrop := hcs.trans hsplit
            have hfirst : ds ≠ [] ∨ c ≠ nul := by
              cases ds with
              | nil => exact .inr fun he => hc₀ ((List.cons.inj hsplit).1.trans he)
              | cons d ds => exact .inl (List.cons_ne_nil d ds)
            have hlen : t'.length < n := by
              rw [hsplit] at hn
              simp only [List.length_append, List.length_cons] at hn
              omega
            have hnext := entry_read (n := n) hdrop hds hc hfirst hl hend hnamed fun parsed' i' h' hend' hnamed' =>
              ih parsed' i' _ t' h' hlen hend' hnamed'
            have hfail (hge : ¬ Acceptable (number (ds ++ c :: l)) l) :
                lineStep ⟨some i, parsed⟩ >>= runFor lineStep n = .fail .outOfBounds := by
              rw [lineStep_entry hdrop hds hc hfirst hl, if_neg hge, fail_bind]
            have hne := List.splitOn_ne_nil nul t'
            by_cases hcn : c = nul
            · subst hcn
              rw [hsplit, List.splitOn_append_cons_self_of_not_mem (nul_not_mem_digits hds),
                List.splitOn_append_cons_self_of_not_mem hl]
              rw [number_append hds hc] at hnext hfail
              exact .digits hds (hfirst.resolve_right fun h => h rfl) hne hnext hfail
            · have hline : nul ∉ ds ++ c :: l := by
                rw [List.mem_append, List.mem_cons, not_or, not_or]
                exact ⟨nul_not_mem_digits hds, Ne.symm hcn, hl⟩
              rw [hsplit, ← List.cons_append, ← List.append_assoc, List.splitOn_append_cons_self_of_not_mem hline]
              exact .entry hds hc hne hnext hfail
          · rw [lineStep_cut hcs hc₀ (.inr ⟨ds, c, t, hsplit, hds, hc, ht⟩), fail_bind]
            exact .cut rfl (not_readable_cut hc₀ hsplit hds ht)

theorem strncmp_eq (b cs : List Char) (i : ℕ) : (strncmp b i cs : Outcome Trap ρ Bool) =
    if cs <+: b.drop i then .next false else if b.drop i <+: cs then .fail .outOfBounds else .next true := by
  induction cs generalizing i with
  | nil => rw [strncmp, if_pos List.nil_prefix]
  | cons c cs ih =>
    rw [strncmp]
    cases h : b.drop i with
    | nil =>
      have hread : (readAt b i : Outcome Trap ρ Char) = .fail .outOfBounds := by
        rw [readAt, List.getElem?_eq_none (List.drop_eq_nil_iff.mp h)]
      rw [hread, fail_bind, if_neg (by simp), if_pos List.nil_prefix]
    | cons a t =>
      rw [readAt_drop h, next_bind, ih, drop_succ h]
      simp only [List.cons_prefix_cons]
      by_cases hac : a = c
      · simp [hac]
      · simp [hac, Ne.symm hac]

theorem parseInit_reads {content rest : List Char} (h : toText content = cores ++ rest)
    (hrest : ∃ c ∈ rest, c.isDigit = false) :
    Reads (parseInit content) (number rest) [] (rest.splitOn nul).tail := by
  have hdrop : (toText content).drop 6 = rest := by
    rw [h]
    rfl
  have hcmp : (strncmp (toText content) 0 cores : Outcome Trap Parsed Bool) = .next false := by
    rw [strncmp_eq, if_pos]
    rw [h]
    exact List.prefix_append ..
  obtain ⟨c, t, ds, rfl, hds, hc⟩ : ∃ c t ds, rest = ds ++ c :: t ∧ (∀ d ∈ ds, d.isDigit = true) ∧
      c.isDigit = false := by
    rcases digits_split rest with hall | ⟨ds, c, t, he, hds, hc⟩
    · obtain ⟨c, hmem, hc⟩ := hrest
      rw [hall c hmem] at hc
      cases hc
    · exact ⟨c, t, ds, he, hds, hc⟩
  have hnumber : ds.foldl (fun n c => (n * 10 + c.toNat - '0'.toNat) % 2 ^ 32) 0 = number (ds ++ c :: t) := by
    rw [number_append hds hc, number, List.takeWhile_eq_self_iff.mpr hds]
  rw [parseInit]
  dsimp only
  rw [hcmp, next_bind, if_neg Bool.false_ne_true, atou, hdrop, scanDigits_span hds hc, next_bind, hnumber,
    getNextLine, hdrop]
  dsimp only
  generalize ds ++ c :: t = rest at hdrop ⊢
  by_cases hnul : nul ∈ rest
  · obtain ⟨l, t', rfl, hl⟩ := List.eq_append_cons_of_mem hnul
    rw [scanLine_span hl, List.splitOn_append_cons_self_of_not_mem hl, List.tail_cons]
    have hskip : (toText content).drop (6 + l.length + 1) = t' := by
      rw [Nat.add_assoc, ← List.drop_drop, hdrop, ← List.drop_drop, List.drop_left]
      rfl
    have hlen : t'.length < (toText content).length + 1 := by
      rw [← hskip, List.length_drop]
      omega
    apply lines_read _ ⟨_, fun _ => none, toText content⟩ _ [] t' hskip hlen
    · intro k p hp
      cases hp
    · rfl
  · rw [scanLine_end hnul, List.splitOn_eq_singleton hnul, List.tail_cons, runFor_succ, lineStep_none, done_bind]
    exact ⟨fun _ => ⟨_, rfl, rfl, rfl⟩, fun h => absurd trivial h⟩

theorem parseInit_no_number {content rest : List Char} (h : toText content = cores ++ rest)
    (hall : ∀ d ∈ rest, d.isDigit = true) : parseInit content = .fail .outOfBounds := by
  rw [parseInit]
  dsimp only
  rw [strncmp_eq, List.drop_zero, h, if_pos (List.prefix_append ..), next_bind, if_neg Bool.false_ne_true, atou]
  rw [show (cores ++ rest).drop 6 = rest from rfl, scanDigits_end hall, fail_bind]

theorem parseInit_no_header {content : List Char} (h : ¬ cores <+: toText content) :
    parseInit content = if toText content <+: cores then .fail .outOfBounds else .fail .panic := by
  rw [parseInit]
  dsimp only
  rw [strncmp_eq, List.drop_zero, if_neg h]
  split
  · rfl
  · rfl

theorem digits_or (cs : List Char) : (∃ c ∈ cs, c.isDigit = false) ∨ ∀ d ∈ cs, d.isDigit = true := by
  rcases digits_split cs with hall | ⟨ds, c, t, rfl, -, hc⟩
  · exact .inr hall
  · exact .inl ⟨c, List.mem_append_right _ (List.mem_cons_self ..), hc⟩

/-- The files that are read within their bounds: the header and its number end inside the file, and so
does every line with an entry, which is acceptable. -/
structure SafeFile (content : List Char) : Prop where
  header : toText content <+: cores → toText content = cores
  lines : ∀ rest, toText content = cores ++ rest →
    (∃ c ∈ rest, c.isDigit = false) ∧ Readable (rest.splitOn nul).tail

theorem safeFile_iff {content rest : List Char} (h : toText content = cores ++ rest) :
    SafeFile content ↔ (∃ c ∈ rest, c.isDigit = false) ∧ Readable (rest.splitOn nul).tail := by
  refine ⟨fun hs => hs.lines rest h, fun hs => ⟨fun hp => ?_, fun rest' h' => ?_⟩⟩
  · exact hp.eq_of_length (hp.length_le.antisymm (List.IsPrefix.length_le ⟨rest, h.symm⟩))
  · obtain rfl := List.append_cancel_left (h.symm.trans h')
    exact hs

/-- The run ends, by returning a table or in a panic, and has not left the file or the table. -/
def Safe (o : Outcome Trap Parsed Scan) : Prop := (∃ r, o = .done r) ∨ o = .fail .panic

theorem not_safe : ¬ Safe (.fail .outOfBounds) := by
  rintro (⟨r, hr⟩ | he)
  · cases hr
  · cases he

theorem parse_init_safe_iff (content : List Char) : Safe (parseInit content) ↔ SafeFile content := by
  by_cases hpre : cores <+: toText content
  · obtain ⟨rest, h⟩ := hpre
    rw [safeFile_iff h.symm]
    rcases digits_or rest with hrest | hall
    · have hreads := parseInit_reads h.symm hrest
      by_cases hread : Readable (rest.splitOn nul).tail
      · obtain ⟨r, hr, -⟩ := hreads.done hread
        exact iff_of_true (.inl ⟨r, hr⟩) ⟨hrest, hread⟩
      · rw [hreads.fail hread]
        exact iff_of_false not_safe fun hs => hread hs.2
    · rw [parseInit_no_number h.symm hall]
      refine iff_of_false not_safe fun ⟨⟨c, hmem, hc⟩, _⟩ => ?_
      rw [hall c hmem] at hc
      cases hc
  · rw [parseInit_no_header hpre]
    by_cases hcut : toText content <+: cores
    · rw [if_pos hcut]
      exact iff_of_false not_safe fun hs => hpre (hs.header hcut ▸ List.prefix_rfl)
    · rw [if_neg hcut]
      exact iff_of_true (.inr rfl) ⟨fun hc => absurd hc hcut, fun rest h => absurd ⟨rest, h.symm⟩ hpre⟩

/-- A last line without a line feed is read past the end of the file, and a large number is stored
outside the table. -/
theorem files_overrun : ¬ Safe (parseInit "CORES 2\n0 pid0\n1 HANG".toList) ∧
    ¬ Safe (parseInit "CORES 2\n0 pid0\n32 HANG\n".toList) := by
  have hfirst : parseInit "CORES 2\n0 pid0\n1 HANG".toList = .fail .outOfBounds := rfl
  have hsecond : parseInit "CORES 2\n0 pid0\n32 HANG\n".toList = .fail .outOfBounds := rfl
  rw [hfirst, hsecond]
  exact ⟨not_safe, not_safe⟩

end Raccoon.InitFile
