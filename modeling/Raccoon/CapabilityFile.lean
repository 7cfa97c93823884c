import Raccoon.CStrings
import Raccoon.Loops
import Raccoon.Numerals

/-!
`fill_capabilities` on files of the documented form. A pointer into the file is
the text from there to the end of the file. The inner loop over the attributes
of a capability does not stop at the next one.
-/

namespace Raccoon.CapabilityFile

open Loops Outcome

abbrev Ptr := List Char

inductive Trap where
  | outOfFile
  | outOfTable
  | outOfFuel
  | panic
deriving DecidableEq

def nul : Char := '\x00'

@[ext] structure Capability where
  name : Option Ptr
  beginAddr : ℕ
  endAddr : ℕ
  ioPerms : ℕ
deriving DecidableEq

def ioRead : ℕ := 1
def ioWrite : ℕ := 2

def isHex (c : Char) : Bool := c.isDigit || ('a' ≤ c && c ≤ 'f') || ('A' ≤ c && c ≤ 'F')

def hexDigit (c : Char) : ℕ :=
  if c.isDigit then c.toNat - '0'.toNat
  else if 'a' ≤ c ∧ c ≤ 'f' then c.toNat - 'a'.toNat + 10
  else c.toNat - 'A'.toNat + 10

def isSeparator (c : Char) : Bool := c = ' ' || c = '\t' || c = ':' || c = '-'

def beginWord : List Char := "BEGIN ".toList
def endWord : List Char := "END".toList
def addressWord : List Char := "    ADDRESS ".toList
def permsWord : List Char := "    IOperms ".toList

/-- The first ten characters of `"CAPABILITY "`, which are those that are compared. -/
def capabilityWord : List Char := "CAPABILITY".toList

section Code

variable {ρ : Type}

def toLines (file : List Char) : Ptr := file.map fun c => if c = '\n' then nul else c

/-- `strncmp(ptr, s, n)` for the `n` characters `s`, which does not stop at a NUL. -/
def strncmp : Ptr → List Char → Outcome Trap ρ Bool
  | _, [] => .next false
  | [], _ :: _ => .fail .outOfFile
  | a :: as, c :: cs => if a ≠ c then .next true else strncmp as cs

/-- `while (P(*ptr)) ptr++`. -/
def skipWhile (P : Char → Bool) : Ptr → Outcome Trap ρ Ptr
  | [] => .fail .outOfFile
  | c :: cs => if P c then skipWhile P cs else .next (c :: cs)

/-- `while (*ptr != '\0') ptr++; ptr++`. -/
def skipLine (ptr : Ptr) : Outcome Trap ρ Ptr := do
  let ptr ← skipWhile (· ≠ nul) ptr
  .next (ptr.drop 1)

/-- The scan for the end of the section. -/
def findEnd : Ptr → Outcome Trap ρ Ptr
  | [] => .fail .panic
  | c :: cs => do
    let differs ← strncmp (c :: cs) (nul :: endWord)
    if differs then findEnd cs else .next (c :: cs)

/-- The bounds of the section, or none for `{0, 0}`. The scan for the end of the first line looks at the
character before the pointer, which is not a NUL when it begins. -/
def getSection (file : Ptr) (sectionName : CString) : Outcome Trap ρ (Option (Ptr × Ptr)) := do
  let differs ← strncmp file beginWord
  if differs then .next none
  else do
    let ptr := file.drop 6
    let differs ← strncmp ptr sectionName.chars
    if differs then .next none
    else do
      let ptr ← skipLine (ptr.drop sectionName.length)
      if ptr = [] then .next none
      else do
        let last ← findEnd ptr
        .next (some (ptr, last))

def strtoul (base : ℕ) : Ptr → ℕ → Outcome Trap ρ (ℕ × Ptr)
  | [], _ => .fail .outOfFile
  | c :: cs, n => if isHex c then strtoul base cs ((n * base + hexDigit c) % 2 ^ 64) else .next (n, c :: cs)

structure Fill where
  ptr : Ptr
  currentIndex : ℕ
  caps : ℕ → Capability

/-- A store into the current entry of a table of `max` entries. -/
def Fill.store (max : ℕ) (s : Fill) (ptr : Ptr) (f : Capability → Capability) : Outcome Trap ρ Fill :=
  if s.currentIndex < max then
    .next { s with ptr := ptr, caps := Function.update s.caps s.currentIndex (f (s.caps s.currentIndex)) }
  else .fail .outOfTable

def address (max : ℕ) (s : Fill) : Outcome Trap ρ Fill := do
  let (first, ptr) ← strtoul 16 (s.ptr.drop 12) 0
  let s ← s.store max ptr fun c => { c with beginAddr := first }
  let str ← skipWhile isHex s.ptr
  let ptr ← skipWhile isSeparator str
  let (last, ptr) ← strtoul 16 ptr 0
  let s ← s.store max ptr fun c => { c with endAddr := last }
  let str ← skipWhile isHex str
  .next { s with ptr := str }

def ioPerms (max : ℕ) (s : Fill) : Outcome Trap ρ Fill := do
  let ptr := s.ptr.drop 12
  let notRw ← strncmp ptr "rw".toList
  let notWr ← if notRw then strncmp ptr "wr".toList else .next false
  let s ← if ¬ notWr then s.store max (ptr.drop 2) fun c => { c with ioPerms := ioRead ||| ioWrite }
    else do
      let notR ← strncmp ptr "r".toList
      if ¬ notR then s.store max (ptr.drop 1) fun c => { c with ioPerms := ioRead }
      else do
        let notW ← strncmp ptr "w".toList
        if ¬ notW then s.store max (ptr.drop 1) fun c => { c with ioPerms := ioWrite }
        else .fail .panic
  let ptr ← skipWhile isSeparator s.ptr
  match ptr with
  | [] => .fail .outOfFile
  | c :: _ => if c ≠ nul then .fail .panic else .next { s with ptr := ptr }

def attributeLine (max : ℕ) (s : Fill) : Outcome Trap ρ Fill := do
  let noAddress ← strncmp s.ptr addressWord
  let s ← if noAddress then .next s else address max s
  let noPerms ← strncmp s.ptr permsWord
  let s ← if noPerms then .next s else ioPerms max s
  let ptr ← skipLine s.ptr
  .next { s with ptr := ptr }

def before (last : Ptr) (s : Fill) : Bool := last.length < s.ptr.length

def capabilityLine (last : Ptr) (max n : ℕ) (s : Fill) : Outcome Trap ρ Fill := do
  let differs ← strncmp s.ptr capabilityWord
  if differs then .next { s with ptr := s.ptr.drop 1 }
  else do
    let ptr := s.ptr.drop 10
    if s.currentIndex ≥ max then .fail .panic
    else do
      let s ← s.store max ptr fun c => { c with name := some (ptr.drop 1) }
      let ptr ← skipLine s.ptr
      whileLoop .outOfFuel (before last) (attributeLine max) n { s with ptr := ptr }

/-- Every round of a loop moves the pointer on, so that there are no more rounds than characters. -/
def fillCapabilities (file : List Char) (caps : ℕ → Capability) (max : ℕ) (currentSystem : CString) :
    Outcome Trap ρ (ℕ → Capability) := do
  let bounds ← getSection (toLines file) currentSystem
  match bounds with
  | none => .fail .panic
  | some (first, last) =>
    if first = last then .fail .panic
    else do
      let s ← whileLoop .outOfFuel (before last) (capabilityLine last max file.length) file.length ⟨first, 0, caps⟩
      .next s.caps

end Code

section Files

inductive Perms where
  | r
  | w
  | rw
  | wr

def Perms.text : Perms → List Char
  | r => "r".toList
  | w => "w".toList
  | rw => "rw".toList
  | wr => "wr".toList

def Perms.value : Perms → ℕ
  | r => ioRead
  | w => ioWrite
  | rw => ioRead ||| ioWrite
  | wr => ioRead ||| ioWrite

structure Hex where
  digits : List Char
  nonempty : digits ≠ []
  hex : ∀ d ∈ digits, isHex d = true
  bound : digits.foldl (fun n d => n * 16 + hexDigit d) 0 < 2 ^ 64

def Hex.value (h : Hex) : ℕ := h.digits.foldl (fun n d => n * 16 + hexDigit d) 0

inductive Attribute where
  | address (first last : Hex)
  | ioPerms (p : Perms)

def Attribute.text : Attribute → List Char
  | address first last => addressWord ++ first.digits ++ ' ' :: last.digits
  | ioPerms p => permsWord ++ p.text

def Attribute.apply (c : Capability) : Attribute → Capability
  | address first last => { c with beginAddr := first.value, endAddr := last.value }
  | ioPerms p => { c with ioPerms := p.value }

/-- The text of one line. -/
structure Name where
  chars : List Char
  oneLine : nul ∉ chars ∧ '\n' ∉ chars

def Name.string (n : Name) : CString := ⟨n.chars, n.oneLine.1⟩

structure Entry where
  name : Name
  attributes : List Attribute

inductive Line where
  | capability (name : Name)
  | attr (a : Attribute)

def Line.text : Line → List Char
  | capability name => capabilityWord ++ ' ' :: name.chars
  | attr a => a.text

/-- What the inner loop makes of a line: it does nothing for a further capability. -/
def Line.apply (c : Capability) : Line → Capability
  | capability _ => c
  | attr a => a.apply c

def Entry.lines (e : Entry) : List Line := .capability e.name :: e.attributes.map .attr

def render (terminator : Char) (ls : List Line) : List Char := ls.flatMap fun l => l.text ++ [terminator]

/-- The file: a section, its entries, and anything from a line that begins with `END` on. -/
def fileOf (system : Name) (es : List Entry) (rest : List Char) : List Char :=
  beginWord ++ system.chars ++ '\n' :: (render '\n' (es.flatMap Entry.lines) ++ (endWord ++ rest))

def Entry.fill (e : Entry) (c : Capability) : Capability := e.attributes.foldl Attribute.apply c

/-- A table entry is what the entry of the file says it should be, if it was `old` before. -/
structure Entry.Recorded (e : Entry) (old c : Capability) : Prop where
  name : ∃ ptr, c.name = some ptr ∧ ptr.takeWhile (· ≠ nul) = e.name.chars
  beginAddr : c.beginAddr = (e.fill old).beginAddr
  endAddr : c.endAddr = (e.fill old).endAddr
  ioPerms : c.ioPerms = (e.fill old).ioPerms

end Files

variable {ρ : Type} {c : Char} {l t ds : List Char}

theorem strncmp_append (l t : List Char) : (strncmp (l ++ t) l : Outcome Trap ρ Bool) = .next false := by
  induction l with
  | nil => cases t <;> rfl
  | cons c l ih =>
    rw [List.cons_append, strncmp, if_neg (not_not_intro rfl)]
    exact ih

theorem strncmp_line {s : List Char} (hs : nul ∉ s) :
    (strncmp (l ++ nul :: t) s : Outcome Trap ρ Bool) = .next (!s.isPrefixOf l) := by
  induction s generalizing l with
  | nil => cases l <;> rfl
  | cons c s ih =>
    obtain ⟨hc, hs⟩ := List.ne_and_not_mem_of_not_mem_cons hs
    cases l with
    | nil => exact if_pos hc
    | cons d l =>
      rw [List.cons_append, strncmp, List.isPrefixOf]
      by_cases he : d = c
      · rw [if_neg (not_not_intro he), ih hs, he, beq_self_eq_true, Bool.true_and]
      · rw [if_pos he, beq_eq_false_iff_ne.mpr (Ne.symm he), Bool.false_and, Bool.not_false]

theorem skipWhile_span {P : Char → Bool} (hl : ∀ d ∈ l, P d = true) (hc : P c = false) :
    (skipWhile P (l ++ c :: t) : Outcome Trap ρ Ptr) = .next (c :: t) := by
  induction l with
  | nil => rw [List.nil_append, skipWhile, hc, if_neg Bool.false_ne_true]
  | cons d l ih =>
    rw [List.cons_append, skipWhile, if_pos (hl d (List.mem_cons_self ..))]
    exact ih fun d hd => hl d (List.mem_cons_of_mem _ hd)

theorem skipLine_span (hl : nul ∉ l) : (skipLine (l ++ nul :: t) : Outcome Trap ρ Ptr) = .next t := by
  have hall : ∀ d ∈ l, decide (d ≠ nul) = true := fun d hd => decide_eq_true fun h => hl (h ▸ hd)
  rw [skipLine, skipWhile_span hall (by simp), next_bind, List.drop_succ_cons, List.drop_zero]

theorem strtoul_span {base : ℕ} (hds : ∀ d ∈ ds, isHex d = true) (hc : isHex c = false) (n : ℕ) :
    (strtoul base (ds ++ c :: t) n : Outcome Trap ρ (ℕ × Ptr)) =
      .next (ds.foldl (fun n d => (n * base + hexDigit d) % 2 ^ 64) n, c :: t) := by
  induction ds generalizing n with
  | nil => rw [List.nil_append, strtoul, hc, if_neg Bool.false_ne_true, List.foldl_nil]
  | cons d ds ih =>
    rw [List.cons_append, strtoul, if_pos (hds d (List.mem_cons_self ..))]
    exact ih (fun d hd => hds d (List.mem_cons_of_mem _ hd)) _

theorem strtoul_hex (h : Hex) (hc : isHex c = false) :
    (strtoul 16 (h.digits ++ c :: t) 0 : Outcome Trap ρ (ℕ × Ptr)) = .next (h.value, c :: t) := by
  rw [strtoul_span h.hex hc, ← Nat.zero_mod (2 ^ 64), Numerals.foldl_mod, Nat.mod_eq_of_lt h.bound]
  rfl

theorem hex_not_separator (h : isHex c = true) : isSeparator c = false := by
  rw [← Bool.not_eq_true]
  intro hs
  simp only [isSeparator, Bool.or_eq_true, decide_eq_true_eq] at hs
  rcases hs with ((rfl | rfl) | rfl) | rfl
  all_goals revert h; decide

section Lines

variable {caps : ℕ → Capability} {i max : ℕ}

theorem store_eq {s : Fill} (hi : s.currentIndex < max) (ptr : Ptr) (f : Capability → Capability) :
    (s.store max ptr f : Outcome Trap ρ Fill) = .next { s with
      ptr := ptr
      caps := Function.update s.caps s.currentIndex (f (s.caps s.currentIndex)) } := if_pos hi

theorem address_eq (hi : i < max) (first last : Hex) :
    (address max ⟨(Attribute.address first last).text ++ nul :: t, i, caps⟩ : Outcome Trap ρ Fill) = .next ⟨' ' :: (last.digits ++ nul :: t), i,
      Function.update caps i ((Attribute.address first last).apply (caps i))⟩ := by
  have hdrop : ((Attribute.address first last).text ++ nul :: t).drop 12 =
      first.digits ++ ' ' :: (last.digits ++ nul :: t) := by
    rw [Attribute.text, List.append_assoc, List.append_assoc]
    exact List.drop_left' (by decide)
  have hspace : isHex ' ' = false := by decide
  have hnul : isHex nul = false := by decide
  have hstop : (skipWhile isHex (' ' :: (last.digits ++ nul :: t)) : Outcome Trap ρ Ptr) =
      .next (' ' :: (last.digits ++ nul :: t)) := skipWhile_span (l := []) (by simp) hspace
  have hskip : (skipWhile isSeparator (' ' :: (last.digits ++ nul :: t)) : Outcome Trap ρ Ptr) =
      .next (last.digits ++ nul :: t) := by
    obtain ⟨d, ds, hds⟩ := List.exists_cons_of_ne_nil last.nonempty
    have hd : isHex d = true := last.hex d (hds ▸ List.mem_cons_self ..)
    have hsep : isSeparator d = false := hex_not_separator hd
    rw [skipWhile, if_pos (by decide), hds, List.cons_append, skipWhile, hsep, if_neg Bool.false_ne_true]
  rw [address]
  dsimp only
  rw [hdrop, strtoul_hex first hspace, next_bind]
  dsimp only
  rw [store_eq hi, next_bind]
  dsimp only
  rw [hstop, next_bind, hskip, next_bind, strtoul_hex last hnul, next_bind]
  dsimp only
  rw [store_eq hi, next_bind]
  dsimp only
  rw [hstop, next_bind, Function.update_idem, Function.update_self]
  rfl

theorem ioPerms_eq (hi : i < max) (p : Perms) : (ioPerms max ⟨(Attribute.ioPerms p).text ++ nul :: t, i, caps⟩ :
    Outcome Trap ρ Fill) = .next ⟨nul :: t, i, Function.update caps i ((Attribute.ioPerms p).apply (caps i))⟩ := by
  have hdrop : ((Attribute.ioPerms p).text ++ nul :: t).drop 12 = p.text ++ nul :: t := by
    rw [Attribute.text, List.append_assoc]
    exact List.drop_left' (by decide)
  rw [ioPerms]
  dsimp only
  rw [hdrop]
  simp only [store_eq, hi]
  cases p <;> rfl

theorem not_mem_hex {c : Char} (hc : c = nul ∨ c = '\n') (h : Hex) : c ∉ h.digits := by
  intro hm
  have hhex := h.hex c hm
  rcases hc with rfl | rfl <;> exact absurd hhex (by decide)

/-- No line holds a character that ends one. -/
theorem not_mem_line {c : Char} (hc : c = nul ∨ c = '\n') (l : Line) : c ∉ l.text := by
  have hspace : c ≠ ' ' := by rcases hc with rfl | rfl <;> decide
  have hwords : c ∉ capabilityWord ∧ c ∉ addressWord ∧ c ∉ permsWord := by rcases hc with rfl | rfl <;> decide
  cases l with
  | capability name =>
    have hname : c ∉ name.chars := by
      rcases hc with rfl | rfl
      · exact name.oneLine.1
      · exact name.oneLine.2
    simp [Line.text, hwords, hspace, hname]
  | attr a =>
    cases a with
    | address first last => simp [Line.text, Attribute.text, hwords, hspace, not_mem_hex hc]
    | ioPerms p =>
      have hperms : c ∉ p.text := by rcases hc with rfl | rfl <;> cases p <;> decide
      simp [Line.text, Attribute.text, hwords, hperms]

theorem nul_not_mem_line (l : Line) : nul ∉ l.text := not_mem_line (.inl rfl) l

theorem attributeLine_capability (name : Name) : (attributeLine max ⟨(Line.capability name).text ++ nul :: t, i, caps⟩ :
    Outcome Trap ρ Fill) = .next ⟨t, i, caps⟩ := by
  have haddress : (strncmp ((Line.capability name).text ++ nul :: t) addressWord : Outcome Trap ρ Bool) =
      .next true := rfl
  have hperms : (strncmp ((Line.capability name).text ++ nul :: t) permsWord : Outcome Trap ρ Bool) =
      .next true := rfl
  rw [attributeLine]
  dsimp only
  rw [haddress, next_bind, if_pos rfl, next_bind]
  dsimp only
  rw [hperms, next_bind, if_pos rfl, next_bind, skipLine_span (nul_not_mem_line _), next_bind]

theorem attributeLine_address (hi : i < max) (first last : Hex) :
    (attributeLine max ⟨(Attribute.address first last).text ++ nul :: t, i, caps⟩ : Outcome Trap ρ Fill) =
      .next ⟨t, i, Function.update caps i ((Attribute.address first last).apply (caps i))⟩ := by
  have haddress : (strncmp ((Attribute.address first last).text ++ nul :: t) addressWord : Outcome Trap ρ Bool) =
      .next false := by
    rw [Attribute.text, List.append_assoc, List.append_assoc, strncmp_append]
  have hperms : (strncmp (' ' :: (last.digits ++ nul :: t)) permsWord : Outcome Trap ρ Bool) = .next true := by
    obtain ⟨d, ds, hds⟩ := List.exists_cons_of_ne_nil last.nonempty
    have hd : d ≠ ' ' := by
      rintro rfl
      exact absurd (last.hex ' ' (hds ▸ List.mem_cons_self ..)) (by decide)
    rw [hds]
    change (if ' ' ≠ ' ' then _ else if d ≠ ' ' then _ else _ : Outcome Trap ρ Bool) = _
    rw [if_neg (not_not_intro rfl), if_pos hd]
  have hrest : nul ∉ ' ' :: last.digits := by
    have hspace : nul ≠ ' ' := by decide
    simp [hspace, not_mem_hex (.inl rfl)]
  rw [attributeLine]
  dsimp only
  rw [haddress, next_bind, if_neg Bool.false_ne_true, address_eq hi, next_bind]
  dsimp only
  rw [hperms, next_bind, if_pos rfl, next_bind, ← List.cons_append, skipLine_span hrest, next_bind]

theorem attributeLine_ioPerms (hi : i < max) (p : Perms) :
    (attributeLine max ⟨(Attribute.ioPerms p).text ++ nul :: t, i, caps⟩ : Outcome Trap ρ Fill) =
      .next ⟨t, i, Function.update caps i ((Attribute.ioPerms p).apply (caps i))⟩ := by
  have haddress : (strncmp ((Attribute.ioPerms p).text ++ nul :: t) addressWord : Outcome Trap ρ Bool) =
      .next true := rfl
  have hperms : (strncmp ((Attribute.ioPerms p).text ++ nul :: t) permsWord : Outcome Trap ρ Bool) = .next false := by
    rw [Attribute.text, List.append_assoc, strncmp_append]
  rw [attributeLine]
  dsimp only
  rw [haddress, next_bind, if_pos rfl, next_bind]
  dsimp only
  rw [hperms, next_bind, if_neg Bool.false_ne_true, ioPerms_eq hi, next_bind,
    ← List.nil_append (nul :: t), skipLine_span List.not_mem_nil, next_bind]

theorem attributeLine_eq (hi : i < max) (l : Line) :
    (attributeLine max ⟨l.text ++ nul :: t, i, caps⟩ : Outcome Trap ρ Fill) = .next ⟨t, i, Function.update caps i (l.apply (caps i))⟩ := by
  cases l with
  | capability name =>
    rw [attributeLine_capability, Line.apply, Function.update_eq_self]
  | attr a =>
    cases a with
    | address first last => exact attributeLine_address hi first last
    | ioPerms p => exact attributeLine_ioPerms hi p

end Lines

section Loops

variable {caps : ℕ → Capability} {i : ℕ} {ls : List Line} {rest : List Char}

theorem line_length (l : Line) : 1 ≤ l.text.length := by
  cases l with
  | capability name =>
    simp only [Line.text, List.length_append, List.length_cons]
    omega
  | attr a =>
    cases a with
    | address first last =>
      simp only [Line.text, Attribute.text, List.length_append, List.length_cons]
      omega
    | ioPerms p =>
      have hword : permsWord.length = 12 := by decide
      simp only [Line.text, Attribute.text, List.length_append]
      omega

theorem render_cons (l : Line) (ls : List Line) : render c (l :: ls) = l.text ++ c :: render c ls := by
  rw [render, List.flatMap_cons, List.append_assoc]
  rfl

theorem before_line (l : Line) : before (nul :: rest) ⟨render nul (l :: ls) ++ rest, i, caps⟩ = true := by
  have hlen := line_length l
  simp only [before, render_cons, List.length_cons, List.length_append, decide_eq_true_eq]
  omega

theorem before_end : before (nul :: rest) ⟨rest, i, caps⟩ = false := by
  simp [before]

theorem attributes_read {max n : ℕ} (hi : i < max) (hn : ls.length ≤ n) (caps : ℕ → Capability) :
    (whileLoop .outOfFuel (before (nul :: rest)) (attributeLine max) n ⟨render nul ls ++ rest, i, caps⟩ :
      Outcome Trap ρ Fill) = .next ⟨rest, i, Function.update caps i (ls.foldl Line.apply (caps i))⟩ := by
  induction ls generalizing n caps with
  | nil =>
    rw [List.foldl_nil, Function.update_eq_self]
    exact whileLoop_exit before_end n
  | cons l ls ih =>
    obtain ⟨n, rfl⟩ := Nat.exists_eq_add_one_of_ne_zero (Nat.ne_zero_of_lt hn)
    have hline : (attributeLine max ⟨render nul (l :: ls) ++ rest, i, caps⟩ : Outcome Trap ρ Fill) =
        .next ⟨render nul ls ++ rest, i, Function.update caps i (l.apply (caps i))⟩ := by
      rw [render_cons, List.append_assoc, List.cons_append, attributeLine_eq hi]
    rw [whileLoop_round (before_line l) hline, ih (Nat.le_of_succ_le_succ hn), Function.update_idem,
      Function.update_self, List.foldl_cons]

theorem length_render (ls : List Line) : ls.length ≤ (render c ls).length := by
  induction ls with
  | nil => exact Nat.zero_le _
  | cons l ls ih =>
    rw [render_cons, List.length_append, List.length_cons, List.length_cons]
    omega

theorem section_read {name : Name} {max m n : ℕ} (hi : i < max) (hn : ls.length ≤ n) (caps : ℕ → Capability) :
    (whileLoop .outOfFuel (before (nul :: rest)) (capabilityLine (nul :: rest) max n) (m + 1)
      ⟨render nul (.capability name :: ls) ++ rest, i, caps⟩ : Outcome Trap ρ Fill) =
    .next ⟨rest, i, Function.update caps i (ls.foldl Line.apply
      { caps i with name := some (name.chars ++ nul :: (render nul ls ++ rest)) })⟩ := by
  have htext : render nul (.capability name :: ls) ++ rest =
      capabilityWord ++ (' ' :: name.chars ++ nul :: (render nul ls ++ rest)) := by
    rw [render_cons, Line.text, List.append_assoc, List.append_assoc]
    rfl
  have hline : (capabilityLine (nul :: rest) max n ⟨render nul (.capability name :: ls) ++ rest, i, caps⟩ :
      Outcome Trap ρ Fill) = .next ⟨rest, i, Function.update caps i (ls.foldl Line.apply
        { caps i with name := some (name.chars ++ nul :: (render nul ls ++ rest)) })⟩ := by
    have hrest : nul ∉ ' ' :: name.chars := by
      have hspace : nul ≠ ' ' := by decide
      simp [hspace, name.oneLine.1]
    rw [capabilityLine]
    dsimp only
    rw [htext, strncmp_append, next_bind, if_neg Bool.false_ne_true, List.drop_left' (by decide),
      if_neg (Nat.not_le.mpr hi)]
    rw [store_eq hi, next_bind]
    dsimp only
    rw [skipLine_span hrest, next_bind, attributes_read hi hn, Function.update_idem, Function.update_self]
    rfl
  rw [whileLoop_round (before_line _) hline]
  exact whileLoop_exit before_end m

end Loops

section Section

variable {ls : List Line} {rest : List Char}

theorem findEnd_skip (hl : nul ∉ l) : (findEnd (l ++ nul :: t) : Outcome Trap ρ Ptr) = findEnd (nul :: t) := by
  induction l with
  | nil => rfl
  | cons c l ih =>
    have hc : c ≠ nul := fun h => hl (h ▸ List.mem_cons_self ..)
    rw [List.cons_append, findEnd, strncmp, if_pos hc, next_bind, if_pos rfl]
    exact ih fun h => hl (List.mem_cons_of_mem _ h)

theorem findEnd_line (l : Line) : (findEnd (nul :: (l.text ++ t)) : Outcome Trap ρ Ptr) = findEnd (l.text ++ t) := by
  have hdiffers : (strncmp (nul :: (l.text ++ t)) (nul :: endWord) : Outcome Trap ρ Bool) = .next true := by
    cases l with
    | capability name => rfl
    | attr a => cases a <;> rfl
  rw [findEnd, hdiffers, next_bind, if_pos rfl]

theorem findEnd_lines (l : Line) (ls : List Line) :
    (findEnd (render nul (l :: ls) ++ (endWord ++ rest)) : Outcome Trap ρ Ptr) =
      .next (nul :: (endWord ++ rest)) := by
  induction ls generalizing l with
  | nil =>
    rw [render_cons, List.append_assoc, List.cons_append, findEnd_skip (nul_not_mem_line l)]
    change findEnd ((nul :: endWord) ++ rest) = _
    rw [List.cons_append, findEnd, ← List.cons_append, strncmp_append, next_bind, if_neg Bool.false_ne_true]
  | cons l' ls ih =>
    rw [render_cons, List.append_assoc, List.cons_append, findEnd_skip (nul_not_mem_line l), render_cons,
      List.append_assoc, findEnd_line, ← List.append_assoc, ← render_cons]
    exact ih l'

theorem getSection_eq (system : Name) (l : Line) (ls : List Line) (rest : List Char) :
    (getSection (beginWord ++ system.chars ++ nul :: (render nul (l :: ls) ++ (endWord ++ rest))) system.string :
      Outcome Trap ρ _) = .next (some (render nul (l :: ls) ++ (endWord ++ rest), nul :: (endWord ++ rest))) := by
  have hne : render nul (l :: ls) ++ (endWord ++ rest) ≠ [] := by
    rw [render_cons]
    simp
  have hskip : (skipLine (nul :: (render nul (l :: ls) ++ (endWord ++ rest))) : Outcome Trap ρ Ptr) =
      .next (render nul (l :: ls) ++ (endWord ++ rest)) := skipLine_span (l := []) List.not_mem_nil
  rw [getSection, List.append_assoc, strncmp_append, next_bind, if_neg Bool.false_ne_true]
  dsimp only
  rw [List.drop_left' (by decide), Name.string, strncmp_append, next_bind, if_neg Bool.false_ne_true,
    List.drop_left' (by rfl), hskip, next_bind, if_neg hne, findEnd_lines, next_bind]

theorem toLines_append (a b : List Char) : toLines (a ++ b) = toLines a ++ toLines b := List.map_append

theorem toLines_of_not_mem (h : '\n' ∉ l) : toLines l = l := map_replace_of_not_mem nul h

theorem toLines_render (ls : List Line) : toLines (render '\n' ls) = render nul ls := by
  induction ls with
  | nil => rfl
  | cons l ls ih =>
    rw [render_cons, render_cons, toLines_append, toLines_of_not_mem (not_mem_line (.inr rfl) l), ← ih]
    rfl

theorem toLines_file (system : Name) (es : List Entry) (rest : List Char) : toLines (fileOf system es rest) =
    beginWord ++ system.chars ++ nul :: (render nul (es.flatMap Entry.lines) ++ (endWord ++ toLines rest)) := by
  have hbegin : '\n' ∉ beginWord := by decide
  have hend : '\n' ∉ endWord := by decide
  rw [fileOf, toLines_append, toLines_append, toLines_of_not_mem hbegin, toLines_of_not_mem system.oneLine.2]
  change _ ++ nul :: toLines _ = _
  rw [toLines_append, toLines_append, toLines_render, toLines_of_not_mem hend]

end Section

section Entries

variable {system : Name} {e : Entry} {es : List Entry} {rest : List Char} {caps : ℕ → Capability} {max : ℕ}

theorem apply_name (a : Attribute) (c : Capability) (x : Option Ptr) :
    a.apply { c with name := x } = { a.apply c with name := x } := by
  cases a <;> rfl

theorem fill_name (e : Entry) (c : Capability) (x : Option Ptr) :
    e.fill { c with name := x } = { e.fill c with name := x } := by
  obtain ⟨name, as⟩ := e
  rw [Entry.fill, Entry.fill]
  dsimp only
  induction as generalizing c with
  | nil => rfl
  | cons a as ih =>
    rw [List.foldl_cons, List.foldl_cons, apply_name, ih]

def fillAll (es : List Entry) (c : Capability) : Capability := es.foldl (fun c e => e.fill c) c

theorem fillAll_name (es : List Entry) (c : Capability) (x : Option Ptr) :
    fillAll es { c with name := x } = { fillAll es c with name := x } := by
  rw [fillAll, fillAll]
  induction es generalizing c with
  | nil => rfl
  | cons e es ih =>
    rw [List.foldl_cons, List.foldl_cons, fill_name, ih]

theorem foldl_lines (es : List Entry) (c : Capability) :
    (es.flatMap Entry.lines).foldl Line.apply c = fillAll es c := by
  rw [fillAll]
  induction es generalizing c with
  | nil => rfl
  | cons e es ih =>
    rw [List.flatMap_cons, List.foldl_append, ih, List.foldl_cons, Entry.lines, List.foldl_cons, List.foldl_map]
    rfl

/-- The text behind the word of the first entry, to the end of the file. -/
def firstName (e : Entry) (es : List Entry) (rest : List Char) : Ptr :=
  e.name.chars ++ nul :: (render nul (e.attributes.map .attr ++ es.flatMap Entry.lines) ++
    (endWord ++ toLines rest))

/-- All entries are read into the first capability, under the name of the first entry. -/
theorem fillCapabilities_eq (system : Name) (e : Entry) (es : List Entry) (rest : List Char)
    (caps : ℕ → Capability) (hmax : 0 < max) :
    (fillCapabilities (fileOf system (e :: es) rest) caps max system.string : Outcome Trap ρ _) =
      .next (Function.update caps 0 { fillAll (e :: es) (caps 0) with name := some (firstName e es rest) }) := by
  have hlines : (e :: es).flatMap Entry.lines =
      .capability e.name :: (e.attributes.map .attr ++ es.flatMap Entry.lines) := rfl
  have hlen : (e.attributes.map Line.attr ++ es.flatMap Entry.lines).length + 1 ≤
      (fileOf system (e :: es) rest).length := by
    have hrender := length_render (c := '\n') ((e :: es).flatMap Entry.lines)
    rw [hlines, List.length_cons] at hrender
    rw [fileOf, hlines]
    simp only [List.length_append, List.length_cons] at hrender ⊢
    omega
  have hne : render nul ((e :: es).flatMap Entry.lines) ++ (endWord ++ toLines rest) ≠
      nul :: (endWord ++ toLines rest) := by
    intro he
    have hbefore : before (nul :: (endWord ++ toLines rest)) ⟨render nul (.capability e.name ::
        (e.attributes.map .attr ++ es.flatMap Entry.lines)) ++ (endWord ++ toLines rest), 0, caps⟩ = true :=
      before_line _
    rw [← hlines, before, he] at hbefore
    simp at hbefore
  rw [fillCapabilities, toLines_file, hlines, getSection_eq, next_bind, ← hlines]
  dsimp only
  rw [if_neg hne, hlines]
  obtain ⟨m, hm⟩ := Nat.exists_eq_add_one_of_ne_zero (Nat.ne_zero_of_lt (Nat.lt_of_succ_le hlen))
  rw [hm] at hlen ⊢
  rw [section_read hmax (by omega), next_bind]
  dsimp only
  have hfold (c : Capability) : (e.attributes.map Line.attr ++ es.flatMap Entry.lines).foldl Line.apply c =
      fillAll (e :: es) c := by
    rw [← foldl_lines]
    rfl
  rw [hfold, fillAll_name]
  rfl

/-- The entries of the section are in the table, one after the other, and the rest of the table is as before. -/
def AllRecorded (es : List Entry) (caps caps' : ℕ → Capability) : Prop :=
  (∀ j (hj : j < es.length), (es.get ⟨j, hj⟩).Recorded (caps j) (caps' j)) ∧
    ∀ j, es.length ≤ j → caps' j = caps j

theorem takeWhile_firstName (e : Entry) (es : List Entry) (rest : List Char) :
    (firstName e es rest).takeWhile (· ≠ nul) = e.name.chars := by
  have hall : ∀ c ∈ e.name.chars, decide (c ≠ nul) = true := fun c hc =>
    decide_eq_true fun h => e.name.oneLine.1 (h ▸ hc)
  rw [firstName, List.takeWhile_append_of_pos hall, List.takeWhile_cons_of_neg (by simp), List.append_nil]

theorem recorded_first {c : Capability} : e.Recorded c { fillAll (e :: es) c with name := some (firstName e es rest) } ↔
    fillAll es (e.fill c) = e.fill c := by
  have hname : (fillAll es (e.fill c)).name = (e.fill c).name := by
    have hkeep := congrArg Capability.name (fillAll_name es (e.fill c) (e.fill c).name)
    exact hkeep
  constructor
  · rintro ⟨-, hbegin, hend, hperms⟩
    exact Capability.ext hname hbegin hend hperms
  · intro h
    have hcons : fillAll (e :: es) c = e.fill c := h
    rw [hcons]
    exact ⟨⟨_, rfl, takeWhile_firstName e es rest⟩, rfl, rfl, rfl⟩

/-- What the loops leave in the table is right exactly if the later entries were there before, and their
lines change nothing in the first one. -/
theorem recorded_update_iff (e : Entry) (es : List Entry) (rest : List Char) (caps : ℕ → Capability) :
    AllRecorded (e :: es) caps
        (Function.update caps 0 { fillAll (e :: es) (caps 0) with name := some (firstName e es rest) }) ↔
      fillAll es (e.fill (caps 0)) = e.fill (caps 0) ∧
        ∀ j (hj : j < es.length), (es.get ⟨j, hj⟩).Recorded (caps (j + 1)) (caps (j + 1)) := by
  constructor
  · rintro ⟨hrec, -⟩
    refine ⟨?_, fun j hj => ?_⟩
    · have hfirst := hrec 0 (Nat.succ_pos _)
      rw [Function.update_self] at hfirst
      exact recorded_first.mp hfirst
    · have hlater := hrec (j + 1) (Nat.succ_lt_succ hj)
      rw [Function.update_of_ne (Nat.succ_ne_zero j)] at hlater
      exact hlater
  · rintro ⟨hfirst, hlater⟩
    refine ⟨fun j hj => ?_, fun j hj => ?_⟩
    · cases j with
      | zero =>
        rw [Function.update_self]
        exact recorded_first.mpr hfirst
      | succ j =>
        rw [Function.update_of_ne (Nat.succ_ne_zero j)]
        exact hlater j (Nat.lt_of_succ_lt_succ hj)
    · apply Function.update_of_ne
      exact Nat.ne_zero_of_lt hj

theorem all_recorded_iff (system : Name) (e : Entry) (es : List Entry) (rest : List Char) (caps : ℕ → Capability)
    (hmax : (e :: es).length ≤ max) :
    (∃ caps', (fillCapabilities (fileOf system (e :: es) rest) caps max system.string :
        Outcome Trap Empty _) = .next caps' ∧ AllRecorded (e :: es) caps caps') ↔
      fillAll es (e.fill (caps 0)) = e.fill (caps 0) ∧
        ∀ j (hj : j < es.length), (es.get ⟨j, hj⟩).Recorded (caps (j + 1)) (caps (j + 1)) := by
  rw [fillCapabilities_eq system e es rest caps (Nat.lt_of_lt_of_le (Nat.succ_pos _) hmax), ← recorded_update_iff]
  constructor
  · rintro ⟨caps', hrun, hrec⟩
    rwa [Outcome.next.inj hrun]
  · intro hrec
    exact ⟨_, rfl, hrec⟩

def amd64 : Name := ⟨"amd64".toList, by decide, by decide⟩

def hex (digits : List Char) (hne : digits ≠ []) (hd : ∀ d ∈ digits, isHex d = true)
    (hlt : digits.foldl (fun n d => n * 16 + hexDigit d) 0 < 2 ^ 64) : Hex := ⟨digits, hne, hd, hlt⟩

def framebuffer : Entry := ⟨⟨"framebuffer".toList, by decide, by decide⟩,
  [.address (hex "0000000000000000".toList (by decide) (List.all_eq_true.mp rfl) (by decide))
    (hex "0000000000000000".toList (by decide) (List.all_eq_true.mp rfl) (by decide))]⟩

def serial : Entry := ⟨⟨"serial".toList, by decide, by decide⟩,
  [.address (hex "0".toList (by decide) (List.all_eq_true.mp rfl) (by decide))
    (hex "1000".toList (by decide) (List.all_eq_true.mp rfl) (by decide)),
    .ioPerms .wr]⟩

def noCapability : Capability := ⟨none, 0, 0, 0⟩

theorem all_recorded_serial : ∃ caps', (fillCapabilities (fileOf amd64 [serial] []) (fun _ => noCapability) 64
    amd64.string : Outcome Trap Empty _) = .next caps' ∧ AllRecorded [serial] (fun _ => noCapability) caps' :=
  (all_recorded_iff amd64 serial [] [] _ (by decide)).mpr ⟨rfl, fun j hj => absurd hj (Nat.not_lt_zero j)⟩

/-- In an empty table only a section with one capability is recorded. -/
theorem fresh_recorded_iff (hfresh : ∀ j, (caps j).name = none) (e : Entry) (es : List Entry) (rest : List Char) :
    AllRecorded (e :: es) caps
        (Function.update caps 0 { fillAll (e :: es) (caps 0) with name := some (firstName e es rest) }) ↔ es = [] := by
  rw [recorded_update_iff]
  constructor
  · rintro ⟨-, hlater⟩
    cases es with
    | nil => rfl
    | cons e' es =>
      obtain ⟨ptr, hptr, -⟩ := (hlater 0 (Nat.succ_pos _)).name
      rw [hfresh] at hptr
      cases hptr
  · rintro rfl
    exact ⟨rfl, fun j hj => absurd hj (Nat.not_lt_zero j)⟩

def capabilities : List Char :=
  ["BEGIN amd64", "CAPABILITY framebuffer", "    ADDRESS 0000000000000000 0000000000000000", "CAPABILITY serial",
    "    ADDRESS 0 1000", "    IOperms wr", "END amd64"].flatMap fun l => l.toList ++ ['\n']

/-- The framebuffer gets the addresses and the permissions of the serial port, which is not recorded. -/
theorem serial_not_recorded : capabilities = fileOf amd64 [framebuffer, serial] " amd64\n".toList ∧
    ∃ caps', (fillCapabilities capabilities (fun _ => noCapability) 64 amd64.string : Outcome Trap Empty _) =
      .next caps' ∧ (caps' 0).endAddr = 0x1000 ∧ (caps' 0).ioPerms = 3 ∧ caps' 1 = noCapability ∧
      ¬ AllRecorded [framebuffer, serial] (fun _ => noCapability) caps' := by
  have hfile : capabilities = fileOf amd64 [framebuffer, serial] " amd64\n".toList := by decide +kernel
  refine ⟨hfile, ?_⟩
  rw [hfile, fillCapabilities_eq amd64 framebuffer [serial] _ _ (by decide)]
  refine ⟨_, rfl, rfl, rfl, rfl, ?_⟩
  rw [fresh_recorded_iff fun _ => rfl]
  exact List.cons_ne_nil serial []

end Entries

end Raccoon.CapabilityFile
