import Raccoon.BootConsole
import Raccoon.BootNumbers

/-!
The handlers of the interrupt lines in the boot loader, `irq.c`, on its console.
The keyboard has one, which looks up what to print in a table.
-/

namespace Raccoon.BootHandlers

open Loops Outcome Buffers BootConsole
open BootNumbers (Arg Output byte format_directive format_literal directive_u_iff numeral)

def keymap : List (BitVec 8) :=
  [0, 0, byte '&', byte 'e', byte '"', 0x27, byte '(', byte '-', byte 'e',
   byte '_', byte 'c', byte 'a', byte ')', byte '=', 0, 0, byte 'a', byte 'z', byte 'e',
   byte 'r', byte 't', byte 'y', byte 'u', byte 'i', byte 'o', byte 'p', 0, byte '$', 0, 0, byte 'q',
   byte 's', byte 'd', byte 'f', byte 'g', byte 'h', byte 'j', byte 'k', byte 'l', byte 'm',
   byte 'u', 0, 0, byte '*', byte 'w', byte 'x', byte 'c', byte 'v', byte 'b', byte 'n', byte ',', byte ';',
   byte ':', byte '!', 0, byte '*', 0, byte ' ', 0, byte ' ', 0, 0,
   0, 0, 0, 0, 0, 0, 0, 0, 0, 0,
   0, 0, 0, 0, byte '-', 0, 0, 0, byte '+', 0, 0, 0, 0, 0, 0, 0,
   0]

section Code

variable {ρ : Type} (attrib : BitVec 32)

def puts (text : List Char) (t : Console) : Outcome Stop ρ Console :=
  callAll attrib (text.map fun c => .putch (byte c)) t

/-- On the byte that the keyboard has for port `0x60`. -/
def keyboardHandling (scancode : BitVec 8) (t : Console) : Outcome Stop ρ Console :=
  if scancode = 1 then supprl attrib t
  else if scancode = 0x1C then putch attrib (byte '\n') t
  else if scancode = 0x8E then suppr attrib t
  else if scancode ∈ [0xA0, 0xA2, 0xA3, 0x91, 0x94, 0x96, 0x97] then .next t
  else if scancode = 29 then puts attrib ['C', 'T', 'R', 'L'] t
  else do
    let c ← load .outside keymap scancode.toNat
    putch attrib c t

def triggered : CString := ⟨"IRQ %u triggered\n".toList, by decide⟩

/-- `printf("IRQ %u triggered\n", n);`, each byte of which goes to `putch`. -/
def printfTriggered (n : BitVec 32) (t : Console) : Outcome Stop ρ Console :=
  match (BootNumbers.printf triggered [.int n] ⟨BootNumbers.zeros 8, []⟩ : Outcome _ Empty Output) with
  | .next o => callAll attrib (o.sent.map fun s => .putch s.2) t
  | .fail _ => .fail .outside
  | .done e => nomatch e

def irqe0 (_ : BitVec 8) (t : Console) : Outcome Stop ρ Console := .next t

def irqe1 : BitVec 8 → Console → Outcome Stop ρ Console := keyboardHandling attrib

def irqe2 (_ : BitVec 8) : Console → Outcome Stop ρ Console := printfTriggered attrib 2

def irqe3 (_ : BitVec 8) : Console → Outcome Stop ρ Console := printfTriggered attrib 3

def irqe4 (_ : BitVec 8) : Console → Outcome Stop ρ Console := printfTriggered attrib 4

def irqe5 (_ : BitVec 8) : Console → Outcome Stop ρ Console := printfTriggered attrib 5

def irqe6 (_ : BitVec 8) : Console → Outcome Stop ρ Console := printfTriggered attrib 6

def irqe7 (_ : BitVec 8) : Console → Outcome Stop ρ Console := printfTriggered attrib 7

def irqe8 (_ : BitVec 8) : Console → Outcome Stop ρ Console := printfTriggered attrib 8

def irqe9 (_ : BitVec 8) : Console → Outcome Stop ρ Console := printfTriggered attrib 9

def irqe10 (_ : BitVec 8) : Console → Outcome Stop ρ Console := printfTriggered attrib 10

def irqe11 (_ : BitVec 8) : Console → Outcome Stop ρ Console := printfTriggered attrib 11

def irqe12 (_ : BitVec 8) : Console → Outcome Stop ρ Console := printfTriggered attrib 12

def irqe13 (_ : BitVec 8) : Console → Outcome Stop ρ Console := printfTriggered attrib 13

def irqe14 (_ : BitVec 8) : Console → Outcome Stop ρ Console := printfTriggered attrib 14

def irqe15 (_ : BitVec 8) : Console → Outcome Stop ρ Console := printfTriggered attrib 15

def jumptableirq : List (BitVec 8 → Console → Outcome Stop ρ Console) :=
  [irqe0, irqe1 attrib, irqe2 attrib, irqe3 attrib, irqe4 attrib, irqe5 attrib, irqe6 attrib, irqe7 attrib,
   irqe8 attrib, irqe9 attrib, irqe10 attrib, irqe11 attrib, irqe12 attrib, irqe13 attrib, irqe14 attrib,
   irqe15 attrib]

/-- The handlers of lines, each with the code that the keyboard has by then. -/
def handleAll : List (ℕ × BitVec 8) → Console → Outcome Stop ρ Console
  | [], t => .next t
  | (n, scancode) :: lines, t =>
    match (jumptableirq attrib)[n]? with
    | some handler => handler scancode t >>= handleAll lines
    | none => .fail .outside

end Code

/-- What a key does on the console. There are codes that are not in the table. -/
def keyCalls (scancode : BitVec 8) : Option (List Call) :=
  if scancode = 1 then some [.supprl]
  else if scancode = 0x1C then some [.putch (byte '\n')]
  else if scancode = 0x8E then some [.suppr]
  else if scancode ∈ [0xA0, 0xA2, 0xA3, 0x91, 0x94, 0x96, 0x97] then some []
  else if scancode = 29 then some (['C', 'T', 'R', 'L'].map fun c => .putch (byte c))
  else keymap[scancode.toNat]?.map fun c => [.putch c]

def triggeredText (n : ℕ) : List Char := "IRQ ".toList ++ Nat.toDigits 10 n ++ " triggered\n".toList

def lineCalls (n : ℕ) (scancode : BitVec 8) : Option (List Call) :=
  if n = 0 then some []
  else if n = 1 then keyCalls scancode
  else some ((triggeredText n).map fun c => .putch (byte c))

section Proof

variable {ρ : Type} {a : BitVec 32} {t : Console} {n : ℕ} {scancode : BitVec 8}

def perform (a : BitVec 32) (cs : Option (List Call)) (t : Console) : Outcome Stop ρ Console :=
  match cs with
  | some cs => callAll a cs t
  | none => .fail .outside

theorem callAll_one (c : Call) : (callAll a [c] t : Outcome Stop ρ _) = call a c t := by
  rw [callAll]
  cases call a c t <;> rfl

theorem keyboardHandling_eq : (keyboardHandling a scancode t : Outcome Stop ρ _) = perform a (keyCalls scancode) t := by
  unfold keyboardHandling keyCalls
  split
  · exact (callAll_one .supprl).symm
  split
  · exact (callAll_one (.putch _)).symm
  split
  · exact (callAll_one .suppr).symm
  split
  · rfl
  split
  · rfl
  rw [load]
  cases keymap[scancode.toNat]? with
  | none => rfl
  | some c => exact (callAll_one (.putch c)).symm

/-- The codes that the handler knows by themselves, and those of the table. -/
theorem keyCalls_eq_none : keyCalls scancode = none ↔
    0x59 ≤ scancode.toNat ∧ scancode ∉ [0x8E, 0xA0, 0xA2, 0xA3, 0x91, 0x94, 0x96, 0x97] := by
  revert scancode
  decide

theorem format_plain {str : List Char} {args : List Arg} {o : Output} (h : '%' ∉ str) :
    (BootNumbers.format .screen BootNumbers.directive str args o : Outcome BootNumbers.Stop ρ _) =
      .next (o.sendAll .screen (str.map byte)) := by
  induction str generalizing o with
  | nil => rw [BootNumbers.format, List.map_nil, BootNumbers.sendAll_nil]
  | cons c str ih =>
    obtain ⟨hc, hstr⟩ := not_or.mp (List.mem_cons.not.mp h)
    rw [format_literal (Ne.symm hc), ih hstr, List.map_cons, BootNumbers.sendAll_cons]

theorem printfTriggered_eq (hn : n < 10 ^ 9) : (printfTriggered a (BitVec.ofNat 32 n) t : Outcome Stop ρ _) =
    callAll a ((triggeredText n).map fun c => .putch (byte c)) t := by
  have hnat : (BitVec.ofNat 32 n).toNat = n := by
    rw [BitVec.toNat_ofNat]
    omega
  have hchars : triggered.chars = "IRQ ".toList ++ '%' :: 'u' :: " triggered\n".toList := rfl
  have hprint : (BootNumbers.printf triggered [.int (BitVec.ofNat 32 n)] ⟨BootNumbers.zeros 8, []⟩ :
      Outcome _ Empty Output) = .next (Output.sendAll .screen ((triggeredText n).map byte) ⟨BootNumbers.zeros 8, []⟩) := by
    rw [BootNumbers.printf, hchars, format_directive (by decide), directive_u_iff.mpr (by rwa [hnat]), next_bind,
      format_plain (by decide), hnat]
    simp only [Output.sendAll, triggeredText, List.map_append, List.append_assoc]
  rw [printfTriggered, hprint]
  simp only [Output.sendAll, List.nil_append, List.map_map]
  rfl

theorem jumptableirq_lines : (jumptableirq a : List (BitVec 8 → Console → Outcome Stop ρ Console)) =
    irqe0 :: irqe1 a :: (List.range' 2 14).map fun k _ => printfTriggered a (BitVec.ofNat 32 k) := rfl

/-- The handler of a line runs the calls of the line. -/
theorem jumptableirq_eq {f : BitVec 8 → Console → Outcome Stop ρ Console} (hf : (jumptableirq a)[n]? = some f) :
    n < 16 ∧ f scancode t = perform a (lineCalls n scancode) t := by
  have hn : n < 16 := (List.getElem?_eq_some_iff.mp hf).1
  refine ⟨hn, ?_⟩
  rw [jumptableirq_lines] at hf
  rcases n with - | - | n
  · obtain rfl := Option.some.inj hf
    rw [lineCalls, if_pos rfl, irqe0, perform, callAll]
  · obtain rfl := Option.some.inj hf
    rw [lineCalls, if_neg (by decide), if_pos rfl, irqe1, keyboardHandling_eq]
  · rw [List.getElem?_cons_succ, List.getElem?_cons_succ, List.getElem?_map, List.getElem?_range' (by omega)] at hf
    obtain rfl := Option.some.inj hf
    have hline : 2 + 1 * n = n + 2 := by omega
    have hc : lineCalls (n + 2) scancode = some ((triggeredText (n + 2)).map fun c => .putch (byte c)) := by
      rw [lineCalls, if_neg (by omega), if_neg (by omega)]
    dsimp only
    rw [hline, hc]
    exact printfTriggered_eq (by omega)

theorem lineCalls_eq_none : lineCalls n scancode = none ↔ n = 1 ∧ keyCalls scancode = none := by
  unfold lineCalls
  by_cases h0 : n = 0
  · simp [h0]
  · by_cases h1 : n = 1
    · simp [h1]
    · simp [h0, h1]

theorem handleAll_cons (hn : n < 16) (lines : List (ℕ × BitVec 8)) :
    (handleAll a ((n, scancode) :: lines) t : Outcome Stop ρ _) =
      perform a (lineCalls n scancode) t >>= handleAll a lines := by
  have hlen : n < (jumptableirq a : List (BitVec 8 → Console → Outcome Stop ρ Console)).length := hn
  rw [handleAll, List.getElem?_eq_getElem hlen]
  dsimp only
  rw [(jumptableirq_eq (List.getElem?_eq_getElem hlen)).2]

/-- A code that the keyboard handler knows. -/
def Known (scancode : BitVec 8) : Prop :=
  scancode.toNat < 0x59 ∨ scancode ∈ [0x8E, 0xA0, 0xA2, 0xA3, 0x91, 0x94, 0x96, 0x97]

theorem lineCalls_ne_none : lineCalls n scancode ≠ none ↔ (n = 1 → Known scancode) := by
  rw [Ne, lineCalls_eq_none, keyCalls_eq_none, Known]
  constructor
  · intro h h1
    by_contra hk
    obtain ⟨hlt, hmem⟩ := not_or.mp hk
    exact h ⟨h1, by omega, hmem⟩
  · rintro h ⟨h1, hlt, hmem⟩
    rcases h h1 with hk | hk
    · omega
    · exact hmem hk

theorem handleAll_spec {term : Terminal} {lines : List (ℕ × BitVec 8)} (h : Refines t term)
    (hlines : ∀ x ∈ lines, x.1 < 16) :
    ((∃ t', (handleAll a lines t : Outcome Stop ρ _) = .next t') ↔ ∀ x ∈ lines, x.1 = 1 → Known x.2) ∧
      ∀ t', (handleAll a lines t : Outcome Stop ρ _) = .next t' → Refines t' ((lines.flatMap fun x =>
        (lineCalls x.1 x.2).getD []).foldl (fun t c => t.call (blank a) (glyph a) c) term) := by
  induction lines generalizing t term with
  | nil =>
    refine ⟨⟨fun _ _ hx => absurd hx List.not_mem_nil, fun _ => ⟨t, rfl⟩⟩, fun t' ht => ?_⟩
    cases ht
    exact h
  | cons x lines ih =>
    obtain ⟨n, scancode⟩ := x
    obtain ⟨hn, hlines⟩ := List.forall_mem_cons.mp hlines
    rw [handleAll_cons hn, List.forall_mem_cons, List.flatMap_cons, List.foldl_append]
    cases hc : lineCalls n scancode with
    | none =>
      have hunknown : ¬ (n = 1 → Known scancode) := fun hk => lineCalls_ne_none.mpr hk hc
      refine ⟨⟨?_, fun hk => absurd hk.1 hunknown⟩, ?_⟩
      · rintro ⟨t', ht⟩
        cases ht
      · intro t' ht
        cases ht
    | some cs =>
      have hknown : n = 1 → Known scancode := lineCalls_ne_none.mp (by rw [hc]; exact Option.some_ne_none cs)
      obtain ⟨t₁, ht₁, h₁⟩ := callAll_spec (ρ := ρ) (a := a) h cs
      rw [perform, ht₁, next_bind]
      obtain ⟨hiff, hrefines⟩ := ih h₁ hlines
      exact ⟨hiff.trans ⟨fun hk => ⟨hknown, hk⟩, And.right⟩, hrefines⟩

end Proof

section Inside

/-- Whatever lines are handled in which order, the console is the terminal of their calls, and no handler leaves its
tables but that of the keyboard, on a code that it does not know. -/
theorem handlers_inside_iff (attrib : BitVec 32) (s : Console) (hx : s.csrX < 80) (hy : s.csrY < 25)
    (lines : List (ℕ × BitVec 8)) (hlines : ∀ x ∈ lines, x.1 < 16) :
    ((∃ s', (handleAll attrib lines s : Outcome Stop Empty Console) = .next s') ↔
      ∀ x ∈ lines, x.1 = 1 → Known x.2) ∧
      ∀ s', (handleAll attrib lines s : Outcome Stop Empty Console) = .next s' →
        Refines s' ((lines.flatMap fun x => (lineCalls x.1 x.2).getD []).foldl
          (fun t c => t.call (blank attrib) (glyph attrib) c) (terminalOf s hx hy)) :=
  handleAll_spec (refines_terminalOf s hx hy) hlines

/-- The release of a key that is not in the table. -/
theorem handlers_inside_release : ¬ ∃ s', (handleAll 0x0f [(0, 0), (1, 0x1E), (1, 0x9E)]
    ⟨Vector.replicate 4000 0, 79, 24⟩ : Outcome Stop Empty Console) = .next s' := by
  obtain ⟨hiff, -⟩ := handlers_inside_iff 0x0f ⟨Vector.replicate 4000 0, 79, 24⟩ (show 79 < 80 by decide)
    (show 24 < 25 by decide) [(0, 0), (1, 0x1E), (1, 0x9E)] (by decide)
  intro hs
  exact absurd (hiff.mp hs (1, 0x9E) (by decide) rfl) (by unfold Known; decide)

end Inside

end Raccoon.BootHandlers
