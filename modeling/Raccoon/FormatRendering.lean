import Mathlib.Data.List.Forall2
import Mathlib.Data.Nat.Digits.Defs
import Raccoon.Buffers
import Raccoon.Printing

/-!
`sprintf` of the kernel on its memory: the format is read byte by byte with a
look at the two bytes that follow, the numerals are made in a local array, and
every access may fail.
-/

namespace Raccoon.FormatRendering

open CString (bytes)
open Loops Outcome Buffers Numerals Printing

inductive Stop where
  | outside
  | badArgument
  | running
deriving DecidableEq

/-- `char buffer[30]` -/
abbrev Digits := Vector Char 30

structure State (n : ℕ) where
  out : Vector Char n
  buff : ℕ
  args : List Arg

section Code

variable {ρ : Type} {n : ℕ}

/-- `*--s = c;` -/
def pushDigit (c : Char) (p : ℕ × Digits) : Outcome Stop ρ (ℕ × Digits) :=
  if p.1 = 0 then .fail .outside
  else do
    let buffer ← store .outside p.2 (p.1 - 1) c
    .next (p.1 - 1, buffer)

/-- `for (; x; x /= base)`, for at most `n` rounds. -/
def pushDigits (base : ℕ) (digit : ℕ → Char) : ℕ → ℕ → ℕ × Digits → Outcome Stop ρ (ℕ × Digits)
  | 0, _, p => .next p
  | n + 1, x, p =>
    if x = 0 then .next p
    else do
      let p ← pushDigit (digit (x % base)) p
      pushDigits base digit n (x / base) p

def numeral (base : ℕ) (digit : ℕ → Char) (x : ℕ) (p : ℕ × Digits) : Outcome Stop ρ (ℕ × Digits) := do
  let p ← pushDigit '\x00' p
  let p ← if x = 0 then pushDigit '0' p else .next p
  pushDigits base digit x x p

def decTo (x : ℕ) (p : ℕ × Digits) : Outcome Stop ρ (ℕ × Digits) :=
  numeral 10 (fun d => Char.ofNat ('0'.toNat + d)) x p

def decXTo (x : ℕ) (p : ℕ × Digits) : Outcome Stop ρ (ℕ × Digits) :=
  numeral 16 (fun d => hexDigits.getD d '0') x p

/-- `*(buff++) = c;` -/
def put (c : Char) (s : State n) : Outcome Stop ρ (State n) := do
  let out ← store .outside s.out s.buff c
  .next { s with out := out, buff := s.buff + 1 }

/-- `while (*str) *(buff++) = *(str++);` -/
def copyOut : List Char → State n → Outcome Stop ρ (State n)
  | [], _ => .fail .outside
  | c :: str, s =>
    if c = '\x00' then .next s
    else do
      let s ← put c s
      copyOut str s

/-- The `switch`. The local array starts with whatever is on the stack. -/
def directiveTo (stack : Digits) (f : Char) (s : State n) : Outcome Stop ρ (State n) :=
  if f = 'd' then
    match s.args with
    | .size d :: args => do
      let newbuff ← decTo d (29, stack)
      copyOut (newbuff.2.toList.drop newbuff.1) { s with args := args }
    | _ => .fail .badArgument
  else if f = 'x' then
    match s.args with
    | .size d :: args => do
      let s ← put '0' { s with args := args }
      let s ← put 'x' s
      let newbuff ← decXTo d (29, stack)
      copyOut (newbuff.2.toList.drop newbuff.1) s
    | _ => .fail .badArgument
  else if f = 's' then
    match s.args with
    | .string str :: args => copyOut (bytes str) { s with args := args }
    | _ => .fail .badArgument
  else .next s

/-- `*format == '{' && format[1] && format[2] == '}'` -/
def isGroup (format : List Char) : Outcome Stop ρ Bool := do
  let c ← load .outside format 0
  if c = '{' then do
    let f ← load .outside format 1
    if f ≠ '\x00' then do
      let close ← load .outside format 2
      .next (close = '}')
    else .next false
  else .next false

/-- The loop, for at most `k` rounds, with what the local array has in each. -/
def sprintfLoop (stack : ℕ → Digits) : ℕ → List Char → State n → Outcome Stop ρ (State n)
  | 0, _, _ => .fail .running
  | k + 1, format, s => do
    let c ← load .outside format 0
    if c = '\x00' then .next s
    else do
      let group ← isGroup format
      if group then do
        let f ← load .outside format 1
        let s ← directiveTo (stack k) f s
        sprintfLoop stack k (format.drop 3) s
      else do
        let s ← put c s
        sprintfLoop stack k (format.drop 1) s

/-- `k` bounds the rounds of the loop. -/
def sprintfTo (stack : ℕ → Digits) (k : ℕ) (format : List Char) (s : State n) : Outcome Stop ρ (State n) := do
  let s ← sprintfLoop stack k format s
  let out ← store .outside s.out s.buff '\x00'
  .next { s with out := out }

end Code

section Purpose

/-- The text for a directive, and the arguments left. -/
def argument (f : Char) (args : List Arg) : Option (List Char × List Arg) :=
  if f = 'd' then
    match args with
    | .size d :: args => some (Nat.toDigits 10 d, args)
    | _ => none
  else if f = 'x' then
    match args with
    | .size d :: args => some ('0' :: 'x' :: Nat.toDigits 16 d, args)
    | _ => none
  else if f = 's' then
    match args with
    | .string s :: args => some (s.chars, args)
    | _ => none
  else some ([], args)

/-- What a format stands for: its groups from left to right, and the other characters as they are. -/
def render : List Char → List Arg → Option (List Char)
  | [], _ => some []
  | '{' :: f :: '}' :: format, args => do
    let (text, args) ← argument f args
    let rest ← render format args
    some (text ++ rest)
  | c :: format, args => (c :: ·) <$> render format args

/-- The argument is of the type that the directive reads. -/
def Accepts (f : Char) : Arg → Prop
  | .size d => (f = 'd' ∨ f = 'x') ∧ d < 2 ^ 64
  | .string _ => f = 's'

end Purpose

section LocalArray

variable {ρ : Type} {base : ℕ} {digit : ℕ → Char} {p : ℕ × Digits} {c : Char}

/-- The text at the pointer. -/
def written (p : ℕ × Digits) : List Char := p.2.toList.drop p.1

theorem length_written (hp : p.1 ≤ 30) : (written p).length + p.1 = 30 := by
  rw [written, List.length_drop, Vector.length_toList]
  omega

theorem pushDigit_spec (hp : p.1 ≤ 30) (h0 : p.1 ≠ 0) (c : Char) :
    ∃ p', (pushDigit c p : Outcome Stop ρ _) = .next p' ∧ p'.1 ≤ 30 ∧ written p' = c :: written p := by
  have hlt : p.1 - 1 < p.2.toList.length := by
    rw [Vector.length_toList]
    omega
  have hnext : p.1 - 1 + 1 = p.1 := by omega
  have hsplit : p.2.toList = p.2.toList.take (p.1 - 1) ++ p.2.toList[p.1 - 1] :: written p := by
    have hdrop := List.drop_eq_getElem_cons hlt
    rw [hnext] at hdrop
    rw [written, ← hdrop, List.take_append_drop]
  have hlen : (p.2.toList.take (p.1 - 1)).length = p.1 - 1 := List.length_take_of_le hlt.le
  obtain ⟨buffer, hs, hbuffer⟩ := store_append (e := Stop.outside) (ρ := ρ) hsplit c
  rw [hlen] at hs
  refine ⟨(p.1 - 1, buffer), by rw [pushDigit, if_neg h0, hs, next_bind], by simp only; omega, ?_⟩
  rw [written, hbuffer, List.drop_left' hlen]

theorem length_le_prepend {α : Type} (digit : ℕ → α) (n x : ℕ) (s : List α) :
    s.length ≤ (prepend base digit n x s).length := by
  induction n generalizing x s with
  | zero => exact Nat.le_refl _
  | succ n ih =>
    rw [prepend]
    split
    · exact Nat.le_refl _
    · exact (Nat.le_succ _).trans (ih (x / base) (digit (x % base) :: s))

/-- The pointer does not leave the array if the numeral fits. -/
theorem pushDigits_spec {x : ℕ} (n : ℕ) (hp : p.1 ≤ 30) (hfit : (prepend base digit n x (written p)).length ≤ 30) :
    ∃ p', (pushDigits base digit n x p : Outcome Stop ρ _) = .next p' ∧ p'.1 ≤ 30 ∧
      written p' = prepend base digit n x (written p) := by
  induction n generalizing x p with
  | zero => exact ⟨p, rfl, hp, rfl⟩
  | succ n ih =>
    rw [pushDigits, prepend]
    rw [prepend] at hfit
    split at hfit
    · next hx =>
      rw [if_pos hx, if_pos hx]
      exact ⟨p, rfl, hp, rfl⟩
    · next hx =>
      have hroom := length_written hp
      have hgrow := (length_le_prepend digit n (x / base) (digit (x % base) :: written p)).trans hfit
      rw [List.length_cons] at hgrow
      obtain ⟨p', hs, hp', hw⟩ := pushDigit_spec (ρ := ρ) hp (by omega) (digit (x % base))
      rw [← hw] at hfit
      obtain ⟨p'', hs', hp'', hw'⟩ := ih hp' hfit
      rw [if_neg hx, if_neg hx, hs, next_bind, ← hw]
      exact ⟨p'', hs', hp'', hw'⟩

theorem numeral_spec {x : ℕ} (hbase : 1 < base) (hdigit : ∀ d < base, digit d = Nat.digitChar d)
    (hfit : (Nat.toDigits base x).length ≤ 28) (stack : Digits) :
    ∃ p', (numeral base digit x (29, stack) : Outcome Stop ρ _) = .next p' ∧
      ∃ junk, written p' = Nat.toDigits base x ++ '\x00' :: junk := by
  obtain ⟨p, hs, hp, hw⟩ := pushDigit_spec (ρ := ρ) (p := (29, stack)) (show 29 ≤ 30 by decide)
    (show 29 ≠ 0 by decide) '\x00'
  have hlen : (written p).length = 2 := by
    have := length_written (p := (29, stack)) (show 29 ≤ 30 by decide)
    rw [hw, List.length_cons]
    simp only at this
    omega
  have hroom := length_written hp
  rw [numeral, hs, next_bind]
  by_cases hx : x = 0
  · subst hx
    obtain ⟨p', hs', -, hw'⟩ := pushDigit_spec (ρ := ρ) hp (by omega) '0'
    refine ⟨p', by rw [if_pos rfl, hs', next_bind]; rfl, _, by rw [hw', hw, Nat.toDigits_zero]; rfl⟩
  · have hprep := prepend_eq_toDigits hbase hdigit (Nat.le_refl x) hx (written p)
    obtain ⟨p', hs', -, hw'⟩ := pushDigits_spec (ρ := ρ) x hp
      (by rw [hprep, List.length_append]; omega)
    exact ⟨p', by rw [if_neg hx]; exact hs', _, by rw [hw', hprep, hw]⟩

theorem length_toDigits {x : ℕ} (hx : x < 2 ^ 64) :
    (Nat.toDigits 10 x).length ≤ 28 ∧ (Nat.toDigits 16 x).length ≤ 28 :=
  ⟨Nat.toDigits_length 10 x 28 (by decide) (hx.trans (by decide)),
    Nat.toDigits_length 16 x 28 (by decide) (hx.trans (by decide))⟩

theorem digitChar_ne_zero : ∀ d < 16, Nat.digitChar d ≠ '\x00' := by decide

theorem zero_not_mem_toDigits (hbase : 1 < base) (hle : base ≤ 16) (x : ℕ) : '\x00' ∉ Nat.toDigits base x := by
  intro h
  obtain ⟨d, hd, heq⟩ := mem_toDigits hbase h
  exact digitChar_ne_zero d (hd.trans_le hle) heq.symm

theorem decTo_spec {x : ℕ} (hx : x < 2 ^ 64) (stack : Digits) :
    ∃ p', (decTo x (29, stack) : Outcome Stop ρ _) = .next p' ∧
      ∃ junk, p'.2.toList.drop p'.1 = Nat.toDigits 10 x ++ '\x00' :: junk :=
  numeral_spec (by decide) (by decide) (length_toDigits hx).1 stack

theorem decXTo_spec {x : ℕ} (hx : x < 2 ^ 64) (stack : Digits) :
    ∃ p', (decXTo x (29, stack) : Outcome Stop ρ _) = .next p' ∧
      ∃ junk, p'.2.toList.drop p'.1 = Nat.toDigits 16 x ++ '\x00' :: junk :=
  numeral_spec (by decide) (by decide) (length_toDigits hx).2 stack

end LocalArray

section Output

variable {ρ : Type} {n : ℕ} {pre rest : List Char} {args : List Arg} {s : State n} {c f : Char}

/-- What has been written is in front, and the arguments from here on are left. -/
structure At (pre rest : List Char) (args : List Arg) (s : State n) : Prop where
  out : s.out.toList = pre ++ rest
  buff : s.buff = pre.length
  args : s.args = args

theorem At.put (h : At pre rest args s) (hr : 0 < rest.length) (c : Char) :
    ∃ s', (put c s : Outcome Stop ρ _) = .next s' ∧ At (pre ++ [c]) (rest.drop 1) args s' := by
  obtain ⟨x, rest, rfl⟩ := List.exists_cons_of_length_pos hr
  obtain ⟨out, hs, hout⟩ := store_append (e := Stop.outside) (ρ := ρ) h.out c
  refine ⟨{ s with out := out, buff := pre.length + 1 }, by rw [FormatRendering.put, h.buff, hs, next_bind], ?_, ?_, h.args⟩
  · simp only [hout, List.append_assoc, List.singleton_append, List.drop_one, List.tail_cons]
  · simp only [List.length_append, List.length_singleton]

theorem At.copyOut {text : List Char} (hz : '\x00' ∉ text) (h : At pre rest args s) (hr : text.length ≤ rest.length)
    (junk : List Char) : ∃ s', (copyOut (text ++ '\x00' :: junk) s : Outcome Stop ρ _) = .next s' ∧
      At (pre ++ text) (rest.drop text.length) args s' := by
  induction text generalizing pre rest s with
  | nil => exact ⟨s, rfl, by rwa [List.append_nil]⟩
  | cons c text ih =>
    rw [List.length_cons] at hr
    obtain ⟨s₁, hs₁, h₁⟩ := h.put (ρ := ρ) (by omega) c
    have hlen : text.length ≤ (rest.drop 1).length := by
      rw [List.length_drop]
      omega
    obtain ⟨s₂, hs₂, h₂⟩ := ih (fun hm => hz (List.mem_cons_of_mem _ hm)) h₁ hlen
    rw [List.append_assoc, List.drop_drop, Nat.add_comm] at h₂
    refine ⟨s₂, ?_, h₂⟩
    rw [List.cons_append, FormatRendering.copyOut, if_neg (ne_of_mem_of_not_mem List.mem_cons_self hz), hs₁, next_bind, hs₂]

/-- The text that a directive stands for is put out by the code, if the argument is what it reads. -/
theorem directiveTo_spec {format : List Char} (ha : List.Forall₂ Accepts (directives ('{' :: f :: '}' :: format)) args) :
    ∃ text args', argument f args = some (text, args') ∧ List.Forall₂ Accepts (directives format) args' ∧
      ∀ (stack : Digits) (pre rest : List Char) (s : State n), At pre rest args s → text.length ≤ rest.length →
        ∃ s', (directiveTo stack f s : Outcome Stop ρ _) = .next s' ∧
          At (pre ++ text) (rest.drop text.length) args' s' := by
  rw [directives] at ha
  by_cases hf : f = 'd' ∨ f = 'x' ∨ f = 's'
  · rw [if_pos hf] at ha
    obtain ⟨a, args, hacc, htail, rfl⟩ := List.forall₂_cons_left_iff.mp ha
    cases a with
    | size d =>
      obtain ⟨hdx, hd⟩ := hacc
      rcases hdx with rfl | rfl
      · refine ⟨Nat.toDigits 10 d, args, rfl, htail, fun stack pre rest s h hr => ?_⟩
        obtain ⟨p, hp, junk, hw⟩ := decTo_spec (ρ := ρ) hd stack
        obtain ⟨s', hs', h'⟩ := At.copyOut (ρ := ρ) (s := { s with args := args })
          (zero_not_mem_toDigits (by decide) (by decide) d) ⟨h.out, h.buff, rfl⟩ hr junk
        refine ⟨s', ?_, h'⟩
        rw [directiveTo, if_pos rfl, h.args]
        simp only [hp, next_bind, hw, hs']
      · refine ⟨'0' :: 'x' :: Nat.toDigits 16 d, args, rfl, htail, fun stack pre rest s h hr => ?_⟩
        rw [List.length_cons, List.length_cons] at hr
        obtain ⟨s₁, hs₁, h₁⟩ := At.put (ρ := ρ) (s := { s with args := args }) ⟨h.out, h.buff, rfl⟩ (by omega) '0'
        obtain ⟨s₂, hs₂, h₂⟩ := h₁.put (ρ := ρ) (by rw [List.length_drop]; omega) 'x'
        obtain ⟨p, hp, junk, hw⟩ := decXTo_spec (ρ := ρ) hd stack
        rw [List.drop_drop] at h₂
        obtain ⟨s', hs', h'⟩ := h₂.copyOut (ρ := ρ) (zero_not_mem_toDigits (show 1 < 16 by decide) (by decide) d)
          (by rw [List.length_drop]; omega) junk
        rw [List.drop_drop, List.append_assoc, List.append_assoc] at h'
        refine ⟨s', ?_, ?_⟩
        · unfold directiveTo
          rw [if_neg (by decide), if_pos rfl, h.args]
          simp only [hs₁, hs₂, hp, next_bind, hw, hs']
        · have hlen : ('0' :: 'x' :: Nat.toDigits 16 d).length = 1 + 1 + (Nat.toDigits 16 d).length := by
            rw [List.length_cons, List.length_cons]
            omega
          rw [hlen]
          exact h'
    | string str =>
      obtain rfl : f = 's' := hacc
      refine ⟨str.chars, args, rfl, htail, fun stack pre rest s h hr => ?_⟩
      obtain ⟨s', hs', h'⟩ := At.copyOut (ρ := ρ) (s := { s with args := args }) str.nonzero ⟨h.out, h.buff, rfl⟩ hr []
      refine ⟨s', ?_, h'⟩
      unfold directiveTo
      rw [if_neg (by decide), if_neg (by decide), if_pos rfl, h.args]
      exact hs'
  · rw [if_neg hf] at ha
    obtain ⟨hd, hx, hs⟩ : f ≠ 'd' ∧ f ≠ 'x' ∧ f ≠ 's' := by simpa [not_or] using hf
    refine ⟨[], args, ?_, ha, fun stack pre rest s h _ => ⟨s, ?_, ?_⟩⟩
    · unfold argument
      rw [if_neg hd, if_neg hx, if_neg hs]
    · unfold directiveTo
      rw [if_neg hd, if_neg hx, if_neg hs]
    · rwa [List.append_nil]

theorem isGroup_false {format : List Char} (hz : '\x00' ∉ c :: format)
    (hc : ∀ f format', c = '{' → format = f :: '}' :: format' → False) :
    (isGroup (c :: format ++ ['\x00']) : Outcome Stop ρ Bool) = .next false := by
  rw [isGroup, List.cons_append, load_cons_zero, next_bind]
  by_cases hopen : c = '{'
  · rw [if_pos hopen, load_cons_succ]
    match format, hc with
    | [], _ => rfl
    | [f], _ =>
      have hf : f ≠ '\x00' := fun h => hz (by simp [h])
      rw [List.cons_append, load_cons_zero, next_bind, if_pos hf]
      rfl
    | f :: g :: format, hc =>
      have hf : f ≠ '\x00' := fun h => hz (by simp [h])
      have hg : g ≠ '}' := fun h => hc f format hopen (by rw [h])
      rw [List.cons_append, load_cons_zero, next_bind, if_pos hf]
      exact congrArg _ (decide_eq_false hg)
  · rw [if_neg hopen]

theorem isGroup_true {format : List Char} (hf : f ≠ '\x00') :
    (isGroup ('{' :: f :: '}' :: format) : Outcome Stop ρ Bool) = .next true := by
  rw [isGroup, load_cons_zero, next_bind, if_pos rfl, load_cons_succ, load_cons_zero, next_bind, if_pos hf]
  rfl

/-- One round for each group and each other character. -/
theorem sprintfLoop_spec {format : List Char} (hz : '\x00' ∉ format)
    (ha : List.Forall₂ Accepts (directives format) args) :
    ∃ text, render format args = some text ∧ ∀ (stack : ℕ → Digits) (k : ℕ) (pre rest : List Char) (s : State n),
      At pre rest args s → text.length ≤ rest.length → format.length < k →
        ∃ s', (sprintfLoop stack k (format ++ ['\x00']) s : Outcome Stop ρ _) = .next s' ∧
          At (pre ++ text) (rest.drop text.length) [] s' := by
  induction format, args using render.induct with
  | case1 args =>
    obtain rfl : args = [] := List.forall₂_nil_left_iff.mp ha
    refine ⟨[], rfl, fun stack k pre rest s h _ hk => ⟨s, ?_, by rwa [List.append_nil]⟩⟩
    obtain ⟨k, rfl⟩ : ∃ j, k = j + 1 := ⟨k - 1, by omega⟩
    rfl
  | case2 f format args ih =>
    obtain ⟨text, args', harg, hrest, hdir⟩ := directiveTo_spec (ρ := ρ) (n := n) ha
    have hf : f ≠ '\x00' := fun h => hz (by simp [h])
    obtain ⟨more, hmore, hloop⟩ := ih args' (fun h => hz (by simp [h])) hrest
    refine ⟨text ++ more, ?_, fun stack k pre rest s h hr hk => ?_⟩
    · rw [render, harg]
      simp [hmore]
    · obtain ⟨k, rfl⟩ : ∃ j, k = j + 1 := ⟨k - 1, by omega⟩
      rw [List.length_append] at hr
      obtain ⟨s₁, hs₁, h₁⟩ := hdir (stack k) pre rest s h (by omega)
      have hroom : more.length ≤ (rest.drop text.length).length := by
        rw [List.length_drop]
        omega
      obtain ⟨s₂, hs₂, h₂⟩ := hloop stack k _ _ s₁ h₁ hroom (by simp only [List.length_cons] at hk; omega)
      refine ⟨s₂, ?_, ?_⟩
      · simp only [List.cons_append, sprintfLoop, load_cons_zero, load_cons_succ, next_bind, isGroup_true hf, hs₁,
          List.drop_succ_cons, List.drop_zero, hs₂]
        rfl
      · rwa [List.append_assoc, List.drop_drop, ← List.length_append] at h₂
  | case3 c format args hc ih =>
    have hdirs : directives (c :: format) = directives format := by
      rw [directives]
      exact hc
    have hne : c ≠ '\x00' := fun h => hz (by simp [h])
    obtain ⟨text, htext, hloop⟩ := ih (fun h => hz (List.mem_cons_of_mem _ h)) (hdirs ▸ ha)
    refine ⟨c :: text, ?_, fun stack k pre rest s h hr hk => ?_⟩
    · rw [render, htext]
      · rfl
      · exact hc
    · obtain ⟨k, rfl⟩ : ∃ j, k = j + 1 := ⟨k - 1, by omega⟩
      rw [List.length_cons] at hr hk
      obtain ⟨s₁, hs₁, h₁⟩ := h.put (ρ := ρ) (by omega) c
      obtain ⟨s₂, hs₂, h₂⟩ := hloop stack k _ _ s₁ h₁ (by rw [List.length_drop]; omega) (by omega)
      refine ⟨s₂, ?_, ?_⟩
      · have hgroup := isGroup_false (ρ := ρ) hz hc
        rw [List.cons_append] at hgroup
        simp only [List.cons_append, sprintfLoop, load_cons_zero, next_bind, if_neg hne, hgroup, hs₁,
          List.drop_succ_cons, List.drop_zero, hs₂]
        rfl
      · rwa [List.append_assoc, List.drop_drop, Nat.add_comm] at h₂

/-- `sprintf` ends within a round for each byte of the format, with the rendered text and its NUL in the buffer, no
other byte of it changed, and no argument left. -/
theorem sprintfTo_renders (format : CString) (args : List Arg)
    (ha : List.Forall₂ Accepts (directives format.chars) args) :
    ∃ text, render format.chars args = some text ∧
      ∀ (n : ℕ) (out : Vector Char n) (stack : ℕ → Digits), text.length < n →
        ∃ out', (sprintfTo stack (format.length + 1) (bytes format) ⟨out, 0, args⟩ : Outcome Stop Empty _) =
            .next ⟨out', text.length, []⟩ ∧
          out'.toList = text ++ '\x00' :: out.toList.drop (text.length + 1) := by
  obtain ⟨text, htext, -⟩ := sprintfLoop_spec (ρ := Empty) (n := 0) format.nonzero ha
  refine ⟨text, htext, fun n out stack hn => ?_⟩
  obtain ⟨text', htext', hloop⟩ := sprintfLoop_spec (ρ := Empty) (n := n) format.nonzero ha
  obtain rfl : text' = text := Option.some.inj (htext'.symm.trans htext)
  obtain ⟨s, hs, h⟩ := hloop stack (format.length + 1) [] out.toList ⟨out, 0, args⟩ ⟨rfl, rfl, rfl⟩
    (by rw [Vector.length_toList]; omega) (Nat.lt_succ_self _)
  rw [List.nil_append] at h
  have hroom : 0 < (out.toList.drop text'.length).length := by
    rw [List.length_drop, Vector.length_toList]
    omega
  obtain ⟨x, rest, hrest⟩ := List.exists_cons_of_length_pos hroom
  have hout := h.out
  rw [hrest] at hout
  obtain ⟨out', hstore, hout'⟩ := store_append (e := Stop.outside) (ρ := Empty) hout '\x00'
  refine ⟨out', ?_, ?_⟩
  · rw [sprintfTo, CString.bytes, hs, next_bind, h.buff, hstore, next_bind, h.args]
  · rw [hout', ← List.drop_drop, hrest]
    rfl

theorem sprintfTo_renders_hex : ∃ text, render "a{x}{d}{{}}".toList [.size 255, .size 0] = some text ∧
    ∀ (n : ℕ) (out : Vector Char n) (stack : ℕ → Digits), text.length < n →
      ∃ out', (sprintfTo stack 12 (bytes ⟨"a{x}{d}{{}}".toList, by decide⟩) ⟨out, 0, [.size 255, .size 0]⟩ :
          Outcome Stop Empty _) = .next ⟨out', text.length, []⟩ ∧
        out'.toList = text ++ '\x00' :: out.toList.drop (text.length + 1) := by
  refine sprintfTo_renders ⟨"a{x}{d}{{}}".toList, by decide⟩ [.size 255, .size 0] ?_
  have hdirs : directives "a{x}{d}{{}}".toList = ['x', 'd'] := by decide
  rw [hdirs]
  exact .cons ⟨.inr rfl, by decide⟩ (.cons ⟨.inl rfl, by decide⟩ .nil)

example : render "a{x}{d}{{}}".toList [.size 255, .size 0] = some "a0xff0\x7d".toList := by decide

end Output

section Lists

variable {f : Char} {format : List Char} {args : List Arg} {text : List Char}

theorem dec_eq_toDigits (x : ℕ) : dec x = Nat.toDigits 10 x := by
  by_cases hx : x = 0
  · subst hx
    rfl
  · rw [dec, if_neg hx, prepend_eq_toDigits (by decide) (by decide) (Nat.le_refl x) hx, List.append_nil]

theorem decX_eq_toDigits (x : ℕ) : decX x = Nat.toDigits 16 x := by
  by_cases hx : x = 0
  · subst hx
    rfl
  · rw [decX, if_neg hx, prepend_eq_toDigits (by decide) (by decide) (Nat.le_refl x) hx, List.append_nil]

theorem directive_eq_argument : directive f args = argument f args := by
  rcases args with _ | ⟨_ | _, _⟩ <;> simp only [directive, argument, dec_eq_toDigits, decX_eq_toDigits]

theorem copy_append (buff : ℕ) (text more : List Char) :
    copy buff (text ++ more) = copy buff text ++ copy (buff + text.length) more := by
  induction text generalizing buff with
  | nil => rfl
  | cons c text ih =>
    rw [List.cons_append, copy, ih, copy, List.length_cons, Nat.add_assoc, Nat.add_comm 1]
    rfl

/-- What the list of writes says of `sprintf` is that they put down the rendered text. -/
theorem sprintf_eq_copy (buff : ℕ) : sprintf format buff args =
    (render format args).map fun text => copy buff (text ++ ['\x00']) := by
  induction format, args using render.induct generalizing buff with
  | case1 args => rfl
  | case2 f format args ih =>
    rw [sprintf, render, directive_eq_argument]
    cases argument f args with
    | none => rfl
    | some p =>
      have hrest := ih p.2 (buff + p.1.length)
      simp only [Option.bind_eq_bind, Option.bind_some, hrest]
      cases render format p.2 with
      | none => rfl
      | some text => simp [copy_append, Nat.add_assoc]
  | case3 c format args hc ih =>
    rw [sprintf, render, ih (buff + 1)]
    · cases render format args <;> rfl
    · exact hc
    · exact hc

end Lists

end Raccoon.FormatRendering
