import Mathlib.Data.List.Forall2
import Raccoon.CStrings
import Raccoon.Numerals

/-!
`printf` renders into a buffer of 500 bytes on its stack, and `sprintf` does
not look at the size. What is written is as long as the literal characters and
the rendered arguments together, and a terminator.
-/

namespace Raccoon.Printing

open Numerals

/-- What a caller passes for a directive. -/
inductive Arg where
  | size (d : ℕ)
  | string (s : CString)
deriving DecidableEq

def hexDigits : List Char := ['0', '1', '2', '3', '4', '5', '6', '7', '8', '9', 'a', 'b', 'c', 'd', 'e', 'f']

def dec (x : ℕ) : List Char :=
  if x = 0 then ['0'] else prepend 10 (fun d => Char.ofNat ('0'.toNat + d)) x x []

def decX (x : ℕ) : List Char :=
  if x = 0 then ['0'] else prepend 16 (fun d => hexDigits.getD d '0') x x []

/-- The text for a directive and the arguments left; a directive without a matching argument has none. -/
def directive (f : Char) (args : List Arg) : Option (List Char × List Arg) :=
  if f = 'd' then
    match args with
    | .size d :: args => some (dec d, args)
    | _ => none
  else if f = 'x' then
    match args with
    | .size d :: args => some ('0' :: 'x' :: decX d, args)
    | _ => none
  else if f = 's' then
    match args with
    | .string s :: args => some (s.chars, args)
    | _ => none
  else some ([], args)

def copy : ℕ → List Char → List (ℕ × Char)
  | _, [] => []
  | buff, c :: text => (buff, c) :: copy (buff + 1) text

/-- The bytes that `sprintf` writes, in order, with their addresses. -/
def sprintf : List Char → ℕ → List Arg → Option (List (ℕ × Char))
  | [], buff, _ => some [(buff, '\x00')]
  | '{' :: f :: '}' :: format, buff, args => do
    let (text, args) ← directive f args
    let writes ← sprintf format (buff + text.length) args
    some (copy buff text ++ writes)
  | c :: format, buff, args => do
    let writes ← sprintf format (buff + 1) args
    some ((buff, c) :: writes)

def bufferSize : ℕ := 500

/-- What `printf` writes to its buffer, by offset. -/
def printf (format : CString) (args : List Arg) : Option (List (ℕ × Char)) := sprintf format.chars 0 args

/-- The characters of a format outside its directives. -/
def literals : List Char → ℕ
  | [] => 0
  | '{' :: _ :: '}' :: format => literals format
  | _ :: format => literals format + 1

/-- The directives of a format that take an argument. -/
def directives : List Char → List Char
  | [] => []
  | '{' :: f :: '}' :: format => if f = 'd' ∨ f = 'x' ∨ f = 's' then f :: directives format else directives format
  | _ :: format => directives format

/-- The width of an argument: its decimal digits, `0x` and its hexadecimal digits, or the string. -/
def argWidth (f : Char) : Arg → ℕ
  | .size d => if f = 'd' then Nat.log 10 d + 1 else Nat.log 16 d + 3
  | .string s => s.length

def textWidth (format : List Char) (args : List Arg) : ℕ :=
  literals format + (List.zipWith argWidth (directives format) args).sum

theorem length_dec (x : ℕ) : (dec x).length = Nat.log 10 x + 1 := by
  by_cases hx : x = 0
  · simp [dec, hx]
  · rw [dec, if_neg hx, length_prepend (by decide) le_rfl hx, List.length_nil, Nat.add_zero]

theorem length_decX (x : ℕ) : (decX x).length = Nat.log 16 x + 1 := by
  by_cases hx : x = 0
  · simp [decX, hx]
  · rw [decX, if_neg hx, length_prepend (by decide) le_rfl hx, List.length_nil, Nat.add_zero]

theorem numerals_fit {x : ℕ} (hx : x < 2 ^ 64) : (dec x).length + 1 ≤ 29 ∧ (decX x).length + 1 ≤ 29 := by
  have h10 : Nat.log 10 x < 20 := Nat.log_lt_of_lt_pow' (by decide) (by omega)
  have h16 : Nat.log 16 x < 16 := Nat.log_lt_of_lt_pow' (by decide) (by omega)
  rw [length_dec, length_decX]
  omega

theorem copy_addresses (buff : ℕ) (text : List Char) :
    (copy buff text).map Prod.fst = List.range' buff text.length := by
  induction text generalizing buff with
  | nil => rfl
  | cons c text ih => simp [copy, ih, List.range'_succ]

variable {f : Char} {format : List Char} {buff : ℕ} {args rest : List Arg} {text : List Char}
  {writes : List (ℕ × Char)}

theorem directive_cases (h : directive f args = some (text, rest)) :
    ((f = 'd' ∨ f = 'x' ∨ f = 's') ∧ ∃ a, args = a :: rest ∧ text.length = argWidth f a) ∨
    (¬ (f = 'd' ∨ f = 'x' ∨ f = 's') ∧ rest = args ∧ text = []) := by
  unfold directive at h
  by_cases hd : f = 'd'
  · rw [if_pos hd] at h
    rcases args with _ | ⟨⟨d⟩ | _, args⟩ <;> cases h
    exact .inl ⟨.inl hd, _, rfl, by rw [argWidth, if_pos hd, length_dec]⟩
  rw [if_neg hd] at h
  by_cases hx : f = 'x'
  · rw [if_pos hx] at h
    rcases args with _ | ⟨⟨d⟩ | _, args⟩ <;> cases h
    refine .inl ⟨.inr (.inl hx), _, rfl, ?_⟩
    rw [argWidth, if_neg hd, List.length_cons, List.length_cons, length_decX]
  rw [if_neg hx] at h
  by_cases hs : f = 's'
  · rw [if_pos hs] at h
    rcases args with _ | ⟨_ | ⟨s⟩, args⟩ <;> cases h
    exact .inl ⟨.inr (.inr hs), _, rfl, rfl⟩
  rw [if_neg hs] at h
  cases h
  exact .inr ⟨by simp [hd, hx, hs], rfl, rfl⟩

theorem textWidth_directive (h : directive f args = some (text, rest)) :
    textWidth ('{' :: f :: '}' :: format) args = text.length + textWidth format rest := by
  rcases directive_cases h with ⟨hf, a, rfl, hlen⟩ | ⟨hf, rfl, rfl⟩
  · simp only [textWidth, literals, directives, if_pos hf, List.zipWith_cons_cons, List.sum_cons, hlen]
    omega
  · simp only [textWidth, literals, directives, if_neg hf, List.length_nil, Nat.zero_add]

/-- `sprintf` writes one byte after the other, up to the terminator. -/
theorem sprintf_addresses (h : sprintf format buff args = some writes) :
    writes.map Prod.fst = List.range' buff (textWidth format args + 1) := by
  fun_induction sprintf format buff args generalizing writes with
  | case1 buff args =>
    cases h
    simp [textWidth, literals, directives]
  | case2 f format buff args ih =>
    obtain ⟨⟨text, rest⟩, hd, h⟩ := Option.bind_eq_some_iff.mp h
    obtain ⟨writes', hw, h⟩ := Option.bind_eq_some_iff.mp h
    cases h
    rw [List.map_append, copy_addresses, ih text rest hw, textWidth_directive hd, Nat.add_assoc,
      List.range'_append_1]
  | case3 c format buff args hc ih =>
    obtain ⟨writes', hw, h⟩ := Option.bind_eq_some_iff.mp h
    cases h
    have hwidth : textWidth (c :: format) args = textWidth format args + 1 := by
      rw [textWidth, textWidth, literals, directives]
      · omega
      · exact hc
      · exact hc
    rw [List.map_cons, ih hw, hwidth]
    rfl

theorem length_printf {format : CString} (h : printf format args = some writes) :
    writes.length = textWidth format.chars args + 1 := by
  rw [← List.length_map Prod.fst, sprintf_addresses h, List.length_range']

/-- What `printf` is given fits its buffer exactly when the text leaves room for the terminator. -/
theorem printf_fits_iff {format : CString} (h : printf format args = some writes) :
    (writes.length ≤ bufferSize ∧ ∀ w ∈ writes, w.1 < bufferSize) ↔ textWidth format.chars args ≤ 499 := by
  have hlen := length_printf h
  unfold bufferSize
  constructor
  · rintro ⟨hle, -⟩
    omega
  · intro hle
    refine ⟨by omega, fun w hw => ?_⟩
    have hmem : w.1 ∈ writes.map Prod.fst := List.mem_map_of_mem hw
    rw [sprintf_addresses h, List.mem_range'_1] at hmem
    omega

/-- The argument is of the kind that the directive reads. -/
def Takes (f : Char) : Arg → Prop
  | .size _ => f ≠ 's'
  | .string _ => f = 's'

theorem directive_of_takes (h : List.Forall₂ Takes (directives ('{' :: f :: '}' :: format)) args) :
    ∃ text rest, directive f args = some (text, rest) ∧ List.Forall₂ Takes (directives format) rest := by
  rw [directives] at h
  unfold directive
  by_cases hf : f = 'd' ∨ f = 'x' ∨ f = 's'
  · rw [if_pos hf] at h
    obtain ⟨a, args, ha, hrest, rfl⟩ := List.forall₂_cons_left_iff.mp h
    rcases hf with rfl | rfl | rfl
    · cases a with
      | size d => exact ⟨_, args, rfl, hrest⟩
      | string s => exact absurd (show 'd' = 's' from ha) (by decide)
    · cases a with
      | size d => exact ⟨_, args, rfl, hrest⟩
      | string s => exact absurd (show 'x' = 's' from ha) (by decide)
    · cases a with
      | size d => exact absurd rfl ha
      | string s => exact ⟨_, args, rfl, hrest⟩
  · rw [if_neg hf] at h
    simp only [not_or] at hf
    rw [if_neg hf.1, if_neg hf.2.1, if_neg hf.2.2]
    exact ⟨_, args, rfl, h⟩

variable (buff) in
theorem sprintf_of_takes (h : List.Forall₂ Takes (directives format) args) :
    ∃ writes, sprintf format buff args = some writes := by
  fun_induction sprintf format buff args with
  | case1 buff args => exact ⟨_, rfl⟩
  | case2 f format buff args ih =>
    obtain ⟨text, rest, hd, hrest⟩ := directive_of_takes h
    obtain ⟨writes, hw⟩ := ih text rest hrest
    exact ⟨copy buff text ++ writes, by simp [hd, hw]⟩
  | case3 c format buff args hc ih =>
    rw [directives] at h
    · obtain ⟨writes, hw⟩ := ih h
      exact ⟨(buff, c) :: writes, by simp [hw]⟩
    · exact hc

/-- `printf` stays in its buffer. -/
def fits (format : CString) (args : List Arg) : Bool :=
  match printf format args with
  | some writes => writes.length ≤ bufferSize
  | none => false

theorem fits_iff {format : CString} {fs : List Char} {n : ℕ} (hdir : directives format.chars = fs)
    (hlit : literals format.chars = n) (h : List.Forall₂ Takes fs args) :
    fits format args = true ↔ n + (List.zipWith argWidth fs args).sum ≤ 499 := by
  obtain ⟨writes, hw⟩ := sprintf_of_takes 0 (hdir ▸ h)
  have hprintf : printf format args = some writes := hw
  rw [fits, hprintf]
  dsimp only
  rw [length_printf hprintf, decide_eq_true_eq, textWidth, hdir, hlit]
  exact Nat.succ_le_succ_iff

/-- An argument that is read as a `size_t`. -/
def sizeT (x : ℕ) : Arg := .size (x % 2 ^ 64)

/-- The message of a `LOG_` macro. Behind a write outside the buffer nothing can be said; the texts that the macro
puts in front of each message are short. -/
def log (format : CString) (args : List Arg) : Option Unit := if fits format args then some () else none

theorem log_bind {α : Type} {format : CString} (h : fits format args = true) (k : Unit → Option α) :
    (log format args >>= k) = k () := by
  rw [log, if_pos h]
  rfl

theorem log_overruns {α : Type} {format : CString} (h : ¬ fits format args = true) (k : Unit → Option α) :
    (log format args >>= k) = none := by
  rw [log, if_neg h]
  rfl

/-- What `syscall_handler` logs of the registers of its caller. -/
def parameters : CString where
  chars := "syscall_id: {x}\nfirst parameter: {x}\nsecond parameter: {x}\nthird parameter: {x}\n".toList
  nonzero := by decide +kernel

/-- What `syscall_handler` logs for a number that it does not know. -/
def unknownSyscall : CString := ⟨"Unknown syscall: {x}\n".toList, by decide⟩

/-- What `syscall_handler` logs before it takes a capability. -/
def acquiring : CString := ⟨"Acquiring capability: {s}\n".toList, by decide⟩

/-- What `syscall_handler` logs before it gives a capability back. -/
def releasing : CString := ⟨"Releasing capability: {s}\n".toList, by decide⟩

/-- What `log_stackframe` logs, for 22 registers. -/
def stackframe : CString where
  chars := "Stackframe :\n".toList ++
    "r15 : {x}\tr14 : {x}\tr13 : {x}\tr12 : {x}\n".toList ++
    "r11 : {x}\tr10 : {x}\tr9 : {x}\tr8 : {x}\n".toList ++
    "rbp : {x}\trdi : {x}\trsi : {x}\n".toList ++
    "rdx : {x}\trcx : {x}\trbx : {x}\n".toList ++
    "rax : {x}\tint_no : {x}\t err_code : {x}\n".toList ++
    "rip : {x}\tcs : {x}\trflags : {x}\n".toList ++
    "prev. rsp : {x} \tss : {x}".toList
  nonzero := by decide +kernel

theorem printf_fits_name : ∃ writes, printf acquiring [.string ⟨['d', 'i', 's', 'k'], by decide⟩] = some writes ∧
    writes.length ≤ bufferSize ∧ ∀ w ∈ writes, w.1 < bufferSize := by
  cases h : printf acquiring [.string ⟨['d', 'i', 's', 'k'], by decide⟩] with
  | none => exact absurd (congrArg Option.isSome h) (by decide +kernel)
  | some writes => exact ⟨writes, rfl, (printf_fits_iff h).mpr (by decide +kernel)⟩

def longName : CString := ⟨List.replicate 500 'A', fun h => absurd (List.eq_of_mem_replicate h) (by decide)⟩

/-- The caller of the system call chooses a name of 500 bytes. -/
theorem printf_overruns : ¬ ∀ (format : CString) (args : List Arg) (writes : List (ℕ × Char)),
    printf format args = some writes → writes.length ≤ bufferSize ∧ ∀ w ∈ writes, w.1 < bufferSize := by
  intro hall
  cases h : printf acquiring [.string longName] with
  | none => exact absurd (congrArg Option.isSome h) (by decide +kernel)
  | some writes =>
    have hle := (hall _ _ writes h).1
    rw [length_printf h] at hle
    exact absurd hle (by decide +kernel)

/-- A caller of the system calls 1 and 2 overruns the buffer with a name of 477 bytes or more. -/
theorem name_fits_iff {name : CString} {format : CString} (hf : format = acquiring ∨ format = releasing) :
    fits format [.string name] = true ↔ name.length ≤ 476 := by
  have hdir : directives format.chars = ['s'] := by
    rcases hf with rfl | rfl <;> decide +kernel
  have hlit : literals format.chars = 23 := by
    rcases hf with rfl | rfl <;> decide +kernel
  refine (fits_iff hdir hlit (by simp [Takes])).trans ?_
  simp only [List.zipWith_cons_cons, List.zipWith_nil_left, List.sum_singleton, argWidth]
  omega

theorem width_sizeT (f : Char) (x : ℕ) : argWidth f (sizeT x) ≤ 20 := by
  have hx : x % 2 ^ 64 < 2 ^ 64 := Nat.mod_lt _ (Nat.two_pow_pos _)
  have h10 : Nat.log 10 (x % 2 ^ 64) < 20 := Nat.log_lt_of_lt_pow' (by decide) (by omega)
  have h16 : Nat.log 16 (x % 2 ^ 64) < 16 := Nat.log_lt_of_lt_pow' (by decide) (by omega)
  rw [sizeT, argWidth]
  split <;> omega

theorem parameters_fit (a b c d : ℕ) : fits parameters [sizeT a, sizeT b, sizeT c, sizeT d] = true := by
  have hdir : directives parameters.chars = ['x', 'x', 'x', 'x'] := by decide +kernel
  have hlit : literals parameters.chars = 68 := by decide +kernel
  have ha := width_sizeT 'x' a
  have hb := width_sizeT 'x' b
  have hc := width_sizeT 'x' c
  have hd := width_sizeT 'x' d
  refine (fits_iff hdir hlit (by simp [Takes, sizeT])).mpr ?_
  simp only [List.zipWith_cons_cons, List.zipWith_nil_left, List.sum_cons, List.sum_nil]
  omega

theorem unknownSyscall_fits (a : ℕ) : fits unknownSyscall [sizeT a] = true := by
  have hdir : directives unknownSyscall.chars = ['x'] := by decide +kernel
  have hlit : literals unknownSyscall.chars = 18 := by decide +kernel
  have ha := width_sizeT 'x' a
  refine (fits_iff hdir hlit (by simp [Takes, sizeT])).mpr ?_
  simp only [List.zipWith_cons_cons, List.zipWith_nil_left, List.sum_cons, List.sum_nil]
  omega

/-- The register dump overruns the buffer when the registers have more than 274 hexadecimal digits together. -/
theorem stackframe_log_fits_iff {regs : List ℕ} (hregs : regs.length = 22)
    (h : printf stackframe (regs.map .size) = some writes) :
    writes.length ≤ bufferSize ↔ (regs.map fun r => Nat.log 16 r + 1).sum ≤ 274 := by
  have hlit : literals stackframe.chars = 181 := by decide +kernel
  have hdir : directives stackframe.chars = List.replicate 22 'x' := by decide +kernel
  have hsum (l : List ℕ) : (List.zipWith argWidth (List.replicate l.length 'x') (l.map .size)).sum =
      (l.map fun r => Nat.log 16 r + 1).sum + 2 * l.length := by
    induction l with
    | nil => rfl
    | cons r l ih =>
      simp only [List.length_cons, List.replicate_succ, List.map_cons, List.zipWith_cons_cons, List.sum_cons, ih]
      rw [argWidth, if_neg (by decide)]
      omega
  have hwidth := hsum regs
  rw [hregs, ← hdir] at hwidth
  rw [length_printf h, textWidth, hlit, hwidth]
  unfold bufferSize
  omega

theorem stackframe_fits_iff {regs : List ℕ} (hregs : regs.length = 22) :
    fits stackframe (regs.map .size) = true ↔ (regs.map fun r => Nat.log 16 r + 1).sum ≤ 274 := by
  have hdir : directives stackframe.chars = List.replicate 22 'x' := by decide +kernel
  have htakes : List.Forall₂ Takes (directives stackframe.chars) (regs.map .size) := by
    have hx : 'x' ≠ 's' := by decide
    rw [hdir, ← hregs]
    clear hregs hdir
    induction regs with
    | nil => exact .nil
    | cons r regs ih => exact .cons hx ih
  obtain ⟨writes, hw⟩ := sprintf_of_takes 0 htakes
  have hprintf : printf stackframe (regs.map .size) = some writes := hw
  rw [fits, hprintf, decide_eq_true_eq]
  exact stackframe_log_fits_iff hregs hprintf

end Raccoon.Printing
