import Raccoon.Buffers

/-!
The console of the boot loader, `scrn.c`, on the bytes of the text memory.
Every access fails outside of its 2000 cells.
-/

namespace Raccoon.BootConsole

open Loops Outcome Buffers

inductive Stop where
  | outside
  | running
deriving DecidableEq

/-- The memory at `textmemptr`: a byte for the character and one for the attribute of each cell. -/
abbrev Screen := Vector (BitVec 8) 4000

structure Console where
  screen : Screen
  csrX : ℕ
  csrY : ℕ

inductive Call where
  | putch (c : BitVec 8)
  | suppr
  | supprl
  | cls

section Code

variable {ρ : Type}

def memcpy : ℕ → ℕ → ℕ → Screen → Outcome Stop ρ Screen
  | 0, _, _, s => .next s
  | count + 1, dest, src, s => do
    let b ← load .outside s.toList src
    let s ← store .outside s dest b
    memcpy count (dest + 1) (src + 1) s

/-- `textmemptr[i] = val;` -/
def storeCell (i : ℕ) (val : BitVec 16) (s : Screen) : Outcome Stop ρ Screen := do
  let s ← store .outside s (2 * i) (val.setWidth 8)
  store .outside s (2 * i + 1) ((val >>> 8).setWidth 8)

def memsetw : ℕ → ℕ → BitVec 16 → Screen → Outcome Stop ρ Screen
  | 0, _, _, s => .next s
  | count + 1, dest, val, s => do
    let s ← storeCell dest val s
    memsetw count (dest + 1) val s

variable (attrib : BitVec 32)

/-- `c | attrib << 8` as an `unsigned short` -/
def glyph (c : BitVec 8) : BitVec 16 := (c.setWidth 32 ||| attrib <<< 8).setWidth 16

def blank : BitVec 16 := glyph attrib 0x20

def scroll (t : Console) : Outcome Stop ρ Console :=
  if 25 ≤ t.csrY then do
    let temp := t.csrY - 25 + 1
    let rows := (25 + 2 ^ 32 - temp) % 2 ^ 32
    let screen ← memcpy (rows * 80 * 2) 0 (temp * 80 * 2) t.screen
    let screen ← memsetw 80 (rows * 80) (blank attrib) screen
    .next { t with screen := screen, csrY := 25 - 1 }
  else .next t

def cls (t : Console) : Outcome Stop ρ Console := do
  let screen ← forLoop (fun i => memsetw 80 (i * 80) (blank attrib)) 25 0 t.screen
  .next { screen := screen, csrX := 0, csrY := 0 }

/-- The cases of `putch`, before the cursor is checked. -/
def putchCase (c : BitVec 8) (t : Console) : Outcome Stop ρ Console :=
  if c = 0x08 then .next (if t.csrX ≠ 0 then { t with csrX := t.csrX - 1 } else t)
  else if c = 0x09 then .next { t with csrX := (t.csrX + 8) &&& 0xfffffff8 }
  else if c = 0x0d then .next { t with csrX := 0 }
  else if c = 0x0a then .next { t with csrX := 0, csrY := t.csrY + 1 }
  else if 0x20 ≤ c then do
    let screen ← storeCell (t.csrY * 80 + t.csrX) (glyph attrib c) t.screen
    .next { t with screen := screen, csrX := t.csrX + 1 }
  else .next t

def putch (c : BitVec 8) (t : Console) : Outcome Stop ρ Console := do
  let t ← putchCase attrib c t
  scroll attrib (if 80 ≤ t.csrX then { t with csrX := 0, csrY := t.csrY + 1 } else t)

def suppr (t : Console) : Outcome Stop ρ Console :=
  if t.csrX ≠ 0 then do
    let t ← putch attrib 0x20 { t with csrX := t.csrX - 1 }
    .next { t with csrX := t.csrX - 1 }
  else .next t

/-- `while (csr_x != 0)`, for at most as many rounds as there are columns. -/
def supprl (t : Console) : Outcome Stop ρ Console :=
  whileLoop .running (fun t : Console => t.csrX ≠ 0) (suppr attrib) 80 t

def call : Call → Console → Outcome Stop ρ Console
  | .putch c => putch attrib c
  | .suppr => suppr attrib
  | .supprl => supprl attrib
  | .cls => cls attrib

def callAll : List Call → Console → Outcome Stop ρ Console
  | [], t => .next t
  | c :: cs, t => call attrib c t >>= callAll cs

end Code

/-- A terminal of 25 rows and 80 columns, with its cursor inside. -/
structure Terminal where
  cells : Fin 25 → Fin 80 → BitVec 16
  x : Fin 80
  y : Fin 25

namespace Terminal

variable (blank : BitVec 16) (glyph : BitVec 8 → BitVec 16)

/-- Below the last row, the rows move up by one and the last one is blank. -/
def lineFeed (t : Terminal) : Terminal :=
  if h : t.y.val + 1 < 25 then { t with x := 0, y := ⟨t.y + 1, h⟩ }
  else { cells := fun r c => if h : r.val + 1 < 25 then t.cells ⟨r + 1, h⟩ c else blank, x := 0, y := t.y }

/-- To the column, or to the next line if there is none. -/
def column (x : ℕ) (t : Terminal) : Terminal := if h : x < 80 then { t with x := ⟨x, h⟩ } else t.lineFeed blank

def write (g : BitVec 16) (t : Terminal) : Terminal :=
  { t with cells := fun r c => if r = t.y ∧ c = t.x then g else t.cells r c }

def putch (c : BitVec 8) (t : Terminal) : Terminal :=
  if c = 0x08 then t.column blank (t.x - 1 : ℕ)
  else if c = 0x09 then t.column blank ((t.x / 8 + 1) * 8)
  else if c = 0x0d then t.column blank 0
  else if c = 0x0a then t.lineFeed blank
  else if 0x20 ≤ c then (t.write (glyph c)).column blank (t.x + 1)
  else t

/-- The cell before the cursor is blank, and the cursor is on it. -/
def suppr (t : Terminal) : Terminal :=
  if t.x.val = 0 then t else write blank { t with x := ⟨t.x - 1, by omega⟩ }

/-- The cells before the cursor are blank, and the cursor is on the first. -/
def supprl (t : Terminal) : Terminal :=
  { t with cells := fun r c => if r = t.y ∧ c < t.x then blank else t.cells r c, x := 0 }

def cls : Terminal := { cells := fun _ _ => blank, x := 0, y := 0 }

def call : Call → Terminal → Terminal
  | .putch c => putch blank glyph c
  | .suppr => suppr blank
  | .supprl => supprl blank
  | .cls => fun _ => cls blank

end Terminal

section Memory

variable {ρ : Type} {s : Screen} {v : BitVec 16} {n p q i : ℕ}

/-- The two bytes of a cell. -/
def cell (s : Screen) (i : ℕ) : Option (BitVec 8) × Option (BitVec 8) := (s[2 * i]?, s[2 * i + 1]?)

def bytesOf (v : BitVec 16) : Option (BitVec 8) × Option (BitVec 8) := (some (v.setWidth 8), some ((v >>> 8).setWidth 8))

/-- Copying down reads every byte before it is overwritten. -/
theorem memcpy_spec (hle : p ≤ q) (hsrc : q + n ≤ 4000) :
    ∃ s', (memcpy n p q s : Outcome Stop ρ _) = .next s' ∧
      ∀ j : ℕ, s'[j]? = if p ≤ j ∧ j < p + n then s[j + (q - p)]? else s[j]? := by
  induction n generalizing p q s with
  | zero => exact ⟨s, rfl, fun j => by rw [if_neg (by omega)]⟩
  | succ n ih =>
    have hget : s[q]? = some s[q] := Vector.getElem?_eq_getElem (by omega)
    obtain ⟨s₁, hs₁, hset⟩ := store_of_lt (e := Stop.outside) (ρ := ρ) (a := s) (show p < 4000 by omega) s[q]
    obtain ⟨s₂, hs₂, hcopy⟩ := ih (s := s₁) (p := p + 1) (q := q + 1) (by omega) (by omega)
    refine ⟨s₂, by rw [memcpy, load_of_getElem? hget, next_bind, hs₁, next_bind, hs₂], fun j => ?_⟩
    rw [hcopy, hset, hset]
    by_cases hj : j = p
    · rw [if_neg (by omega), if_pos hj, if_pos (by omega), ← hget]
      congr 1
      omega
    · by_cases hin : p + 1 ≤ j ∧ j < p + 1 + n
      · rw [if_pos hin, if_neg (by omega), if_pos (by omega), Nat.add_sub_add_right]
      · rw [if_neg hin, if_neg hj, if_neg (by omega)]

theorem storeCell_spec (hi : i < 2000) :
    ∃ s', (storeCell i v s : Outcome Stop ρ _) = .next s' ∧
      ∀ j, cell s' j = if j = i then bytesOf v else cell s j := by
  obtain ⟨s₁, hs₁, hlow⟩ := store_of_lt (e := Stop.outside) (ρ := ρ) (a := s) (show 2 * i < 4000 by omega)
    (v.setWidth 8)
  obtain ⟨s₂, hs₂, hhigh⟩ := store_of_lt (e := Stop.outside) (ρ := ρ) (a := s₁) (show 2 * i + 1 < 4000 by omega)
    ((v >>> 8).setWidth 8)
  refine ⟨s₂, by rw [storeCell, hs₁, next_bind, hs₂], fun j => ?_⟩
  rw [cell, hhigh, hhigh, hlow, hlow]
  by_cases hj : j = i
  · subst hj
    rw [if_pos rfl, if_neg (by omega), if_pos rfl, if_pos rfl, bytesOf]
  · rw [if_neg hj, if_neg (by omega), if_neg (by omega), if_neg (by omega), if_neg (by omega), cell]

theorem memsetw_spec (hdest : p + n ≤ 2000) :
    ∃ s', (memsetw n p v s : Outcome Stop ρ _) = .next s' ∧
      ∀ j, cell s' j = if p ≤ j ∧ j < p + n then bytesOf v else cell s j := by
  induction n generalizing p s with
  | zero => exact ⟨s, rfl, fun j => by rw [if_neg (by omega)]⟩
  | succ n ih =>
    obtain ⟨s₁, hs₁, hset⟩ := storeCell_spec (ρ := ρ) (s := s) (v := v) (show p < 2000 by omega)
    obtain ⟨s₂, hs₂, hmore⟩ := ih (s := s₁) (p := p + 1) (by omega)
    refine ⟨s₂, by rw [memsetw, hs₁, next_bind, hs₂], fun j => ?_⟩
    rw [hmore, hset]
    by_cases hj : j = p
    · rw [if_neg (by omega), if_pos hj, if_pos (by omega)]
    · rw [if_neg hj]
      exact if_congr (by omega) rfl rfl

end Memory

section Refinement

variable {ρ : Type} {a : BitVec 32} {s : Console} {t : Terminal}

/-- The screen shows the cells. -/
def Shows (s : Screen) (cells : Fin 25 → Fin 80 → BitVec 16) : Prop :=
  ∀ (r : Fin 25) (c : Fin 80), cell s (r * 80 + c) = bytesOf (cells r c)

structure Refines (s : Console) (t : Terminal) : Prop where
  screen : Shows s.screen t.cells
  csrX : s.csrX = t.x
  csrY : s.csrY = t.y

theorem scroll_spec {cells : Fin 25 → Fin 80 → BitVec 16} (h : Shows s.screen cells) (hy : s.csrY = 25) :
    ∃ screen, (scroll a s : Outcome Stop ρ _) = .next { s with screen := screen, csrY := 24 } ∧
      Shows screen fun r c => if h : r.val + 1 < 25 then cells ⟨r + 1, h⟩ c else blank a := by
  obtain ⟨s₁, hs₁, hcopy⟩ := memcpy_spec (ρ := ρ) (s := s.screen) (n := 3840) (p := 0) (q := 160)
    (by decide) (by decide)
  obtain ⟨s₂, hs₂, hset⟩ := memsetw_spec (ρ := ρ) (s := s₁) (v := blank a) (n := 80) (p := 1920) (by decide)
  refine ⟨s₂, ?_, fun r c => ?_⟩
  · rw [scroll, if_pos (Nat.le_of_eq hy.symm), hy]
    simp only [Nat.reduceSub, Nat.reduceAdd, Nat.reducePow, Nat.reduceMod, Nat.reduceMul, hs₁, next_bind, hs₂]
  · have hc := c.isLt
    have hr := r.isLt
    rw [hset]
    dsimp only
    by_cases hlast : r.val + 1 < 25
    · have hrow := h ⟨r + 1, hlast⟩ c
      rw [if_neg (by omega), dif_pos hlast, ← hrow, cell, hcopy, hcopy, if_pos (by omega), if_pos (by omega), cell]
      simp only [Prod.mk.injEq]
      exact ⟨by congr 1; omega, by congr 1; omega⟩
    · rw [if_pos (by omega), dif_neg hlast]

/-- A line feed, with the cursor already in the row below. -/
theorem lineFeed_spec (h : Shows s.screen t.cells) (hx : s.csrX = 0) (hy : s.csrY = t.y + 1) :
    ∃ s', (scroll a s : Outcome Stop ρ _) = .next s' ∧ Refines s' (t.lineFeed (blank a)) := by
  have hrow := t.y.isLt
  by_cases hlast : t.y.val + 1 < 25
  · refine ⟨s, by rw [scroll, if_neg (by omega)], ?_⟩
    rw [Terminal.lineFeed, dif_pos hlast]
    exact ⟨h, hx, hy⟩
  · obtain ⟨screen, hs, hshows⟩ := scroll_spec (ρ := ρ) (a := a) h (by omega)
    refine ⟨_, hs, ?_⟩
    rw [Terminal.lineFeed, dif_neg hlast]
    exact ⟨hshows, hx, show 24 = t.y.val by omega⟩

/-- The check of the cursor at the end of `putch`, from any column. -/
theorem column_spec (h : Shows s.screen t.cells) (hy : s.csrY = t.y) :
    ∃ s', (scroll a (if 80 ≤ s.csrX then { s with csrX := 0, csrY := s.csrY + 1 } else s) : Outcome Stop ρ _) =
      .next s' ∧ Refines s' (t.column (blank a) s.csrX) := by
  have hrow := t.y.isLt
  rw [Terminal.column]
  by_cases hx : s.csrX < 80
  · rw [if_neg (by omega), dif_pos hx, scroll, if_neg (by omega)]
    exact ⟨s, rfl, h, rfl, hy⟩
  · rw [if_pos (by omega), dif_neg hx]
    exact lineFeed_spec h rfl (congrArg (· + 1) hy)

theorem tab_column : ∀ x < 80, (x + 8) &&& 0xfffffff8 = (x / 8 + 1) * 8 := by decide

theorem putch_spec (h : Refines s t) (c : BitVec 8) :
    ∃ s', (putch a c s : Outcome Stop ρ _) = .next s' ∧
      Refines s' (t.putch (blank a) (glyph a) c) := by
  obtain ⟨hscreen, hx, hy⟩ := h
  have hcol := t.x.isLt
  have hrow := t.y.isLt
  rw [putch, putchCase, Terminal.putch]
  by_cases h08 : c = 0x08
  · rw [if_pos h08, if_pos h08, next_bind]
    have hback : (if s.csrX ≠ 0 then { s with csrX := s.csrX - 1 } else s) = { s with csrX := t.x - 1 } := by
      split
      · rw [hx]
      · next h0 =>
        have h1 : t.x.val - 1 = s.csrX := by omega
        rw [h1]
    rw [hback]
    exact column_spec (s := { s with csrX := t.x - 1 }) hscreen hy
  rw [if_neg h08, if_neg h08]
  by_cases h09 : c = 0x09
  · rw [if_pos h09, if_pos h09, next_bind, hx, tab_column _ hcol]
    exact column_spec (s := { s with csrX := (t.x / 8 + 1) * 8 }) hscreen hy
  rw [if_neg h09, if_neg h09]
  by_cases h0d : c = 0x0d
  · rw [if_pos h0d, if_pos h0d, next_bind]
    exact column_spec (s := { s with csrX := 0 }) hscreen hy
  rw [if_neg h0d, if_neg h0d]
  by_cases h0a : c = 0x0a
  · rw [if_pos h0a, if_pos h0a, next_bind, if_neg (show ¬ 80 ≤ 0 by decide)]
    exact lineFeed_spec hscreen rfl (congrArg (· + 1) hy)
  rw [if_neg h0a, if_neg h0a]
  by_cases h20 : 0x20 ≤ c
  · obtain ⟨screen, hs, hset⟩ := storeCell_spec (ρ := ρ) (s := s.screen) (v := glyph a c)
      (show s.csrY * 80 + s.csrX < 2000 by omega)
    have hshows : Shows screen (t.write (glyph a c)).cells := by
      intro r k
      have hk := k.isLt
      rw [hset, Terminal.write]
      dsimp only
      by_cases heq : r = t.y ∧ k = t.x
      · rw [if_pos heq, if_pos (by rw [heq.1, heq.2, hy, hx])]
      · rw [if_neg heq, if_neg, hscreen r k]
        intro hidx
        exact heq ⟨Fin.ext (by omega), Fin.ext (by omega)⟩
    rw [if_pos h20, if_pos h20, hs, next_bind, next_bind, hx]
    exact column_spec (s := { s with screen := screen, csrX := t.x + 1 }) hshows hy
  · have hsame : t.column (blank a) s.csrX = t := by
      rw [Terminal.column, dif_pos (by omega)]
      simp only [hx]
    have hcheck := column_spec (ρ := ρ) (a := a) (s := s) (t := t) hscreen hy
    rw [if_neg h20, if_neg h20, next_bind]
    rwa [hsame] at hcheck

theorem suppr_spec (h : Refines s t) :
    ∃ s', (suppr a s : Outcome Stop ρ _) = .next s' ∧ Refines s' (t.suppr (blank a)) := by
  have hcol := t.x.isLt
  have hx := h.csrX
  rw [suppr, Terminal.suppr]
  by_cases h0 : t.x.val = 0
  · rw [if_neg (by omega), if_pos h0]
    exact ⟨s, rfl, h⟩
  · have hback : Refines { s with csrX := s.csrX - 1 } { t with x := ⟨t.x - 1, by omega⟩ } :=
      ⟨h.screen, congrArg (· - 1) hx, h.csrY⟩
    obtain ⟨s₁, hs₁, h₁⟩ := putch_spec (ρ := ρ) (a := a) hback 0x20
    have hput (u : Terminal) (hu : u.x.val + 1 < 80) : u.putch (blank a) (glyph a) 0x20 =
        { u.write (blank a) with x := ⟨u.x + 1, hu⟩ } := by
      have hother : ¬ ((0x20 : BitVec 8) = 0x08 ∨ (0x20 : BitVec 8) = 0x09 ∨ (0x20 : BitVec 8) = 0x0d ∨
        (0x20 : BitVec 8) = 0x0a) := by decide
      simp only [not_or] at hother
      rw [Terminal.putch, if_neg hother.1, if_neg hother.2.1, if_neg hother.2.2.1, if_neg hother.2.2.2,
        if_pos (by decide), Terminal.column]
      exact dif_pos hu
    have hstop : t.x.val - 1 + 1 < 80 := by omega
    rw [hput _ hstop] at h₁
    rw [if_pos (by omega), if_neg h0, hs₁, next_bind]
    have hx₁ : s₁.csrX = t.x.val - 1 + 1 := h₁.csrX
    exact ⟨_, rfl, h₁.screen, show s₁.csrX - 1 = t.x.val - 1 by omega, h₁.csrY⟩

/-- One more cell before the cursor is blank already. -/
theorem Terminal.supprl_suppr {blank : BitVec 16} (h : t.x.val ≠ 0) : (t.suppr blank).supprl blank = t.supprl blank := by
  rw [Terminal.suppr, if_neg h]
  simp only [Terminal.supprl, Terminal.write, Terminal.mk.injEq, and_true]
  funext r c
  by_cases hr : r = t.y
  · simp only [hr, true_and, Fin.lt_def, Fin.ext_iff]
    by_cases hc : c.val < t.x.val - 1
    · rw [if_pos hc, if_pos (by omega)]
    · rw [if_neg hc]
      exact if_congr (by omega) rfl rfl
  · simp only [hr, false_and, if_false]

theorem Terminal.supprl_zero {blank : BitVec 16} (h : t.x.val = 0) : t.supprl blank = t := by
  obtain ⟨cells, x, y⟩ := t
  obtain rfl : x = 0 := Fin.ext h
  simp only [Terminal.supprl, Fin.not_lt_zero, and_false, if_false]

theorem supprl_rounds {n : ℕ} (h : Refines s t) (hn : t.x ≤ n) :
    ∃ s', (whileLoop .running (fun t : Console => t.csrX ≠ 0) (suppr a) n s : Outcome Stop ρ _) = .next s' ∧
      Refines s' (t.supprl (blank a)) := by
  induction n generalizing s t with
  | zero =>
    have h0 : t.x.val = 0 := by omega
    have hx : s.csrX = 0 := h.csrX.trans h0
    exact ⟨s, whileLoop_exit (by simp [hx]) 0, by rwa [Terminal.supprl_zero h0]⟩
  | succ n ih =>
    by_cases h0 : t.x.val = 0
    · have hx : s.csrX = 0 := h.csrX.trans h0
      exact ⟨s, whileLoop_exit (by simp [hx]) _, by rwa [Terminal.supprl_zero h0]⟩
    · have hx : s.csrX ≠ 0 := fun hs => h0 (h.csrX.symm.trans hs)
      obtain ⟨s₁, hs₁, h₁⟩ := suppr_spec (ρ := ρ) (a := a) h
      have hless : ((t.suppr (blank a)).x : ℕ) ≤ n := by
        rw [Terminal.suppr, if_neg h0]
        change t.x.val - 1 ≤ n
        omega
      obtain ⟨s₂, hs₂, h₂⟩ := ih h₁ hless
      rw [Terminal.supprl_suppr h0] at h₂
      exact ⟨s₂, by rw [whileLoop_round (by simp [hx]) hs₁, hs₂], h₂⟩

/-- After `n` rounds of the loop of `cls`, the first `n` rows are blank. -/
theorem blankRows_ends {n : ℕ} (hn : n ≤ 25) (v : BitVec 16) (screen : Screen) :
    (forLoop (fun i => memsetw 80 (i * 80) v) n 0 screen : Outcome Stop ρ _).Ends (fun _ => False) (fun _ => False)
      fun screen => ∀ j < n * 80, cell screen j = bytesOf v := by
  have hbody (i : ℕ) (screen : Screen) (hi : i < n) (hdone : ∀ j < i * 80, cell screen j = bytesOf v) :
      (memsetw 80 (i * 80) v screen : Outcome Stop ρ _).Ends (fun _ => False) (fun _ => False)
        fun screen => ∀ j < (i + 1) * 80, cell screen j = bytesOf v := by
    obtain ⟨screen', hs, hset⟩ := memsetw_spec (ρ := ρ) (s := screen) (v := v) (n := 80) (p := i * 80) (by omega)
    rw [hs]
    intro j hj
    rw [hset]
    split
    · rfl
    · exact hdone j (by omega)
  exact forLoop_ends _ (fun i screen => ∀ j < i * 80, cell screen j = bytesOf v) hbody 0 screen (Nat.zero_le n)
    fun j hj => absurd hj (by omega)

theorem cls_spec : ∃ s', (cls a s : Outcome Stop ρ _) = .next s' ∧ Refines s' (Terminal.cls (blank a)) := by
  have hrows := blankRows_ends (ρ := ρ) (Nat.le_refl 25) (blank a) s.screen
  cases hloop : (forLoop (fun i => memsetw 80 (i * 80) (blank a)) 25 0 s.screen : Outcome Stop ρ _) with
  | fail e =>
    rw [hloop] at hrows
    exact hrows.elim
  | done r =>
    rw [hloop] at hrows
    exact hrows.elim
  | next screen =>
    rw [hloop] at hrows
    refine ⟨_, by rw [cls, hloop, next_bind], fun r c => hrows _ ?_, rfl, rfl⟩
    have hr := r.isLt
    have hc := c.isLt
    omega

theorem call_spec (h : Refines s t) (c : Call) :
    ∃ s', (call a c s : Outcome Stop ρ _) = .next s' ∧ Refines s' (t.call (blank a) (glyph a) c) := by
  cases c with
  | putch c => exact putch_spec h c
  | suppr => exact suppr_spec h
  | supprl => exact supprl_rounds h (Nat.le_of_lt t.x.isLt)
  | cls => exact cls_spec

theorem callAll_spec (h : Refines s t) (cs : List Call) :
    ∃ s', (callAll a cs s : Outcome Stop ρ _) = .next s' ∧
      Refines s' (cs.foldl (fun t c => t.call (blank a) (glyph a) c) t) := by
  induction cs generalizing s t with
  | nil => exact ⟨s, rfl, h⟩
  | cons c cs ih =>
    obtain ⟨s₁, hs₁, h₁⟩ := call_spec (ρ := ρ) (a := a) h c
    obtain ⟨s₂, hs₂, h₂⟩ := ih h₁
    exact ⟨s₂, by rw [callAll, hs₁, next_bind, hs₂], h₂⟩

end Refinement

section Claim

/-- The cell of two bytes. -/
def cellOf (low high : BitVec 8) : BitVec 16 := BitVec.ofNat 16 (low.toNat + 2 ^ 8 * high.toNat)

theorem bytesOf_cellOf (low high : BitVec 8) : bytesOf (cellOf low high) = (some low, some high) := by
  have hl := low.isLt
  have hh := high.isLt
  simp only [bytesOf, cellOf, Prod.mk.injEq, Option.some.injEq]
  constructor
  · apply BitVec.eq_of_toNat_eq
    rw [BitVec.toNat_setWidth, BitVec.toNat_ofNat]
    omega
  · apply BitVec.eq_of_toNat_eq
    rw [BitVec.toNat_setWidth, BitVec.toNat_ushiftRight, BitVec.toNat_ofNat, Nat.shiftRight_eq_div_pow]
    omega

/-- The terminal that the screen and the cursor stand for. -/
def terminalOf (s : Console) (hx : s.csrX < 80) (hy : s.csrY < 25) : Terminal where
  cells r c := cellOf s.screen[2 * (r.val * 80 + c.val)] s.screen[2 * (r.val * 80 + c.val) + 1]
  x := ⟨s.csrX, hx⟩
  y := ⟨s.csrY, hy⟩

theorem refines_terminalOf (s : Console) (hx : s.csrX < 80) (hy : s.csrY < 25) : Refines s (terminalOf s hx hy) := by
  refine ⟨fun r c => ?_, rfl, rfl⟩
  have hr := r.isLt
  have hc := c.isLt
  rw [terminalOf, bytesOf_cellOf, cell, Vector.getElem?_eq_getElem (by omega), Vector.getElem?_eq_getElem (by omega)]

/-- Every run of calls stays in the text memory and leaves the screen of the terminal, with the cursor inside. -/
theorem console_refines_terminal (attrib : BitVec 32) (s : Console) (hx : s.csrX < 80) (hy : s.csrY < 25)
    (cs : List Call) : ∃ s', (callAll attrib cs s : Outcome Stop Empty Console) = .next s' ∧
      s'.csrX < 80 ∧ s'.csrY < 25 ∧
      Refines s' (cs.foldl (fun t c => t.call (blank attrib) (glyph attrib) c) (terminalOf s hx hy)) := by
  obtain ⟨s', hs, h⟩ := callAll_spec (ρ := Empty) (a := attrib) (refines_terminalOf s hx hy) cs
  exact ⟨s', hs, h.csrX ▸ Fin.isLt _, h.csrY ▸ Fin.isLt _, h⟩

theorem console_refines_terminal_boot : ∃ s', (callAll 0x0f [.putch 0x41, .putch 0x0a, .suppr, .supprl, .cls]
      ⟨Vector.replicate 4000 0, 79, 24⟩ : Outcome Stop Empty Console) = .next s' ∧ s'.csrX < 80 ∧ s'.csrY < 25 := by
  obtain ⟨s', hs, hx, hy, -⟩ := console_refines_terminal 0x0f ⟨Vector.replicate 4000 0, 79, 24⟩
    (show 79 < 80 by decide) (show 24 < 25 by decide) [.putch 0x41, .putch 0x0a, .suppr, .supprl, .cls]
  exact ⟨s', hs, hx, hy⟩

end Claim

section Cells

variable {t : Terminal} {blank : BitVec 16} {glyph : BitVec 8 → BitVec 16} {c : BitVec 8}

/-- A cell has the character in its low byte and the attribute in its high byte. -/
theorem bytesOf_glyph (attrib : BitVec 32) (c : BitVec 8) :
    bytesOf (BootConsole.glyph attrib c) = (some c, some (attrib.setWidth 8)) := by
  simp only [bytesOf, BootConsole.glyph, Prod.mk.injEq, Option.some.injEq]
  constructor
  · apply BitVec.eq_of_getLsbD_eq
    intro i hi
    simp [hi]
  · apply BitVec.eq_of_getLsbD_eq
    intro i hi
    have hword : 8 + i < 16 := by omega
    simp [hi, hword]

theorem Terminal.column_cells (h : t.y.val + 1 < 25) (x : ℕ) : (t.column blank x).cells = t.cells := by
  rw [Terminal.column]
  split
  · rfl
  · rw [Terminal.lineFeed, dif_pos h]

/-- Above the last row, where nothing scrolls, a byte that is not printable changes no cell. -/
theorem Terminal.putch_control_cells (h : t.y.val + 1 < 25) (hc : ¬ 0x20 ≤ c) :
    (t.putch blank glyph c).cells = t.cells := by
  rw [Terminal.putch, if_neg hc]
  split
  · exact column_cells h _
  split
  · exact column_cells h _
  split
  · exact column_cells h _
  split
  · rw [Terminal.lineFeed, dif_pos h]
  · rfl

/-- A printable byte changes the cell at the cursor. -/
theorem Terminal.putch_printable_cells (h : t.y.val + 1 < 25) (hc : 0x20 ≤ c) :
    (t.putch blank glyph c).cells = (t.write (glyph c)).cells := by
  have hne {k : BitVec 8} (hk : ¬ 0x20 ≤ k) : c ≠ k := fun heq => hk (heq ▸ hc)
  rw [Terminal.putch, if_neg (hne (by decide)), if_neg (hne (by decide)), if_neg (hne (by decide)),
    if_neg (hne (by decide)), if_pos hc]
  exact column_cells (t := t.write (glyph c)) h _

end Cells

end Raccoon.BootConsole
