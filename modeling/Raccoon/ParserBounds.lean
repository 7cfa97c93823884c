import Raccoon.CapabilityFile
import Mathlib.Data.List.Infix

/-!
The capability parser on arbitrary file contents. Once `get_section` has found
the end of the section, the NUL there stops every loop; before that the search
may leave the file.
-/

namespace Raccoon.CapabilityFile

open Loops Outcome

/-- What the search for the end of the section looks for. -/
def endMarker : List Char := nul :: endWord

/-- The text ends within a marker. -/
def CutMarker (t : List Char) : Prop := ∃ k, 0 < k ∧ k < 4 ∧ endMarker.take k <:+ t

/-- The file does not end within the line that the section begins with, and either there is a marker behind
that line or the file does not end within one. -/
def ReadsInside (text : Ptr) (name : List Char) : Prop :=
  ¬ text <+: beginWord ++ name ∧
    ∀ rest, text = beginWord ++ (name ++ rest) →
      ∃ line t, rest = line ++ nul :: t ∧ nul ∉ line ∧ (endMarker <:+: t ∨ ¬ CutMarker t)

/-- The pointer stands before the rest `e` of the text, which a NUL precedes, or right behind that NUL. -/
def Before (e p : Ptr) : Prop := ∃ pre, p = pre ++ nul :: e

def Within (e p : Ptr) : Prop := p = e ∨ Before e p

variable {ρ : Type} {e p s t : List Char} {c : Char}

theorem strncmp_eq (l s : List Char) : (strncmp l s : Outcome Trap ρ Bool) =
    if s <+: l then .next false else if l <+: s then .fail .outOfFile else .next true := by
  induction s generalizing l with
  | nil =>
    rw [if_pos List.nil_prefix]
    cases l <;> rfl
  | cons c s ih =>
    cases l with
    | nil => rw [if_neg (by simp), if_pos List.nil_prefix, strncmp]
    | cons d l =>
      rw [strncmp, ih]
      simp only [List.cons_prefix_cons]
      by_cases h : d = c
      · simp [h]
      · simp [h, Ne.symm h]

section Search

theorem length_endMarker : endMarker.length = 4 := by decide

theorem cutMarker_cons : CutMarker (c :: t) ↔ (c :: t <+: endMarker ∧ ¬ endMarker <+: c :: t) ∨ CutMarker t := by
  have hlen := length_endMarker
  constructor
  · rintro ⟨k, hpos, hlt, hsuffix⟩
    rcases List.suffix_cons_iff.mp hsuffix with he | hsuffix
    · refine .inl ⟨he ▸ List.take_prefix k endMarker, fun h => ?_⟩
      have hle := h.length_le
      rw [← he, List.length_take] at hle
      omega
    · exact .inr ⟨k, hpos, hlt, hsuffix⟩
  · rintro (⟨hbegins, hnot⟩ | ⟨k, hpos, hlt, hsuffix⟩)
    · have hle := hbegins.length_le
      have htake := List.prefix_iff_eq_take.mp hbegins
      refine ⟨(c :: t).length, Nat.succ_pos _, ?_, htake ▸ List.suffix_rfl⟩
      by_contra hge
      exact hnot (hbegins.eq_of_length (by omega) ▸ List.prefix_rfl)
    · exact ⟨k, hpos, hlt, hsuffix.trans (List.suffix_cons c t)⟩

theorem findEnd_cons (c : Char) (cs : List Char) : (findEnd (c :: cs) : Outcome Trap ρ Ptr) =
    if endMarker <+: c :: cs then .next (c :: cs) else if c :: cs <+: endMarker then .fail .outOfFile
    else findEnd cs := by
  rw [findEnd]
  change (strncmp (c :: cs) endMarker >>= _) = _
  rw [strncmp_eq]
  split
  · rfl
  · split <;> rfl

/-- The three ways the search for the end of the section ends. -/
theorem findEnd_cases (t : List Char) :
    (∃ e, endMarker <:+: t ∧ Before e t ∧ (findEnd t : Outcome Trap ρ Ptr) = .next (nul :: e)) ∨
    (¬ endMarker <:+: t ∧ CutMarker t ∧ (findEnd t : Outcome Trap ρ Ptr) = .fail .outOfFile) ∨
    (¬ endMarker <:+: t ∧ ¬ CutMarker t ∧ (findEnd t : Outcome Trap ρ Ptr) = .fail .panic) := by
  induction t with
  | nil =>
    refine .inr (.inr ⟨by decide, ?_, rfl⟩)
    rintro ⟨k, hpos, -, hsuffix⟩
    have hnil := List.suffix_nil.mp hsuffix
    rw [List.take_eq_nil_iff] at hnil
    rcases hnil with rfl | hnil
    · exact absurd hpos (Nat.lt_irrefl 0)
    · cases hnil
  | cons c cs ih =>
    rw [findEnd_cons, List.infix_cons_iff, cutMarker_cons]
    by_cases hmarker : endMarker <+: c :: cs
    · obtain ⟨r, hr⟩ := hmarker
      have hcs : c :: cs = nul :: (endWord ++ r) := hr.symm
      rw [if_pos ⟨r, hr⟩]
      exact .inl ⟨endWord ++ r, .inl ⟨r, hr⟩, ⟨[], hcs⟩, congrArg Outcome.next hcs⟩
    · rw [if_neg hmarker]
      by_cases hcut : c :: cs <+: endMarker
      · have hshort : ¬ endMarker <:+: cs := fun h => by
          have hle := hcut.length_le
          have hle' := h.length_le
          rw [List.length_cons] at hle
          omega
        rw [if_pos hcut]
        exact .inr (.inl ⟨not_or.mpr ⟨hmarker, hshort⟩, .inl ⟨hcut, hmarker⟩, rfl⟩)
      · rw [if_neg hcut]
        rcases ih with ⟨e, hin, ⟨pre, hpre⟩, he⟩ | ⟨hin, hc, he⟩ | ⟨hin, hc, he⟩
        · exact .inl ⟨e, .inr hin, ⟨c :: pre, by rw [hpre]; rfl⟩, he⟩
        · exact .inr (.inl ⟨not_or.mpr ⟨hmarker, hin⟩, .inr hc, he⟩)
        · exact .inr (.inr ⟨not_or.mpr ⟨hmarker, hin⟩, not_or.mpr ⟨fun h => hcut h.1, hc⟩, he⟩)

theorem skipLine_cut (h : nul ∉ t) : (skipLine t : Outcome Trap ρ Ptr) = .fail .outOfFile := by
  have hall (t : List Char) (h : nul ∉ t) :
      (skipWhile (· ≠ nul) t : Outcome Trap ρ Ptr) = .fail .outOfFile := by
    induction t with
    | nil => rfl
    | cons c t ih =>
      obtain ⟨hc, ht⟩ := List.ne_and_not_mem_of_not_mem_cons h
      rw [skipWhile, if_pos (decide_eq_true (Ne.symm hc))]
      exact ih ht
  rw [skipLine, hall t h, fail_bind]

/-- `get_section` behind the line that the section begins with. -/
theorem getSection_line (name : CString) (rest : List Char) :
    (getSection (beginWord ++ (name.chars ++ rest)) name : Outcome Trap ρ _) = (skipLine rest >>= fun ptr =>
      if ptr = [] then .next none else findEnd ptr >>= fun last => .next (some (ptr, last))) := by
  rw [getSection, strncmp_append, next_bind, if_neg Bool.false_ne_true]
  dsimp only
  rw [List.drop_left' (by decide), strncmp_append, next_bind, if_neg Bool.false_ne_true, List.drop_left' (by rfl)]

/-- The bounds of a section lie in the text, and the second is at a NUL. -/
def Bounds (text : Ptr) (b : Option (Ptr × Ptr)) : Prop :=
  ∀ first last, b = some (first, last) → first.length ≤ text.length ∧ ∃ e, last = nul :: e ∧ Before e first

/-- `get_section` on a text that does not go on behind the name. -/
theorem getSection_other {text : Ptr} {name : CString} (h : ¬ beginWord ++ name.chars <+: text) :
    (getSection text name : Outcome Trap ρ _) =
      if text <+: beginWord ++ name.chars then .fail .outOfFile else .next none := by
  rw [getSection, strncmp_eq]
  by_cases hbegin : beginWord <+: text
  · obtain ⟨t, rfl⟩ := hbegin
    rw [List.prefix_append_right_inj] at h
    have hcut : beginWord ++ t <+: beginWord ++ name.chars ↔ t <+: name.chars := List.prefix_append_right_inj beginWord
    rw [if_pos (List.prefix_append ..), next_bind, if_neg Bool.false_ne_true, if_congr hcut rfl rfl]
    dsimp only
    rw [List.drop_left' (by decide), strncmp_eq, if_neg h]
    split <;> rfl
  · rw [if_neg hbegin]
    by_cases hcut : text <+: beginWord
    · rw [if_pos hcut, if_pos (hcut.trans (List.prefix_append ..))]
      rfl
    · have hnot : ¬ text <+: beginWord ++ name.chars := fun ht =>
        (List.prefix_or_prefix_of_prefix ht (List.prefix_append beginWord name.chars)).elim hcut hbegin
      rw [if_neg hcut, if_neg hnot]
      rfl

theorem getSection_ends {text : Ptr} {name : CString} (h : ReadsInside text name.chars) :
    (getSection text name : Outcome Trap ρ _).Ends (· = .panic) (fun _ => False) (Bounds text) := by
  obtain ⟨hcut, hline⟩ := h
  by_cases hbegin : beginWord ++ name.chars <+: text
  · obtain ⟨rest, rfl⟩ := hbegin
    rw [List.append_assoc] at hline ⊢
    obtain ⟨line, t, rfl, hl, ht⟩ := hline rest rfl
    rw [getSection_line, skipLine_span hl, next_bind]
    by_cases hnil : t = []
    · rw [if_pos hnil]
      exact fun first last h => nomatch h
    · rw [if_neg hnil]
      rcases findEnd_cases (ρ := ρ) t with ⟨e, -, hbefore, he⟩ | ⟨hin, hc, -⟩ | ⟨-, -, he⟩
      · rw [he]
        rintro first last ⟨⟩
        refine ⟨?_, e, rfl, hbefore⟩
        simp only [List.length_append, List.length_cons]
        omega
      · exact absurd ht (not_or.mpr ⟨hin, not_not_intro hc⟩)
      · rw [he]
        rfl
  · rw [getSection_other hbegin, if_neg hcut]
    exact fun first last h => nomatch h

theorem getSection_fails {text : Ptr} {name : CString} (h : ¬ ReadsInside text name.chars) :
    (getSection text name : Outcome Trap ρ _) = .fail .outOfFile := by
  by_cases hbegin : beginWord ++ name.chars <+: text
  · obtain ⟨rest, rfl⟩ := hbegin
    rw [List.append_assoc] at h ⊢
    rw [getSection_line]
    by_cases hnul : nul ∈ rest
    · obtain ⟨line, t, rfl, hl⟩ := List.eq_append_cons_of_mem hnul
      have hnot : ¬ (endMarker <:+: t ∨ ¬ CutMarker t) := by
        refine fun ht => h ⟨fun hp => ?_, fun rest' he => ⟨line, t, ?_, hl, ht⟩⟩
        · have hle := hp.length_le
          simp only [List.length_append, List.length_cons] at hle
          omega
        · exact (List.append_cancel_left (List.append_cancel_left he)).symm
      rw [not_or, not_not] at hnot
      have hnil : t ≠ [] := by
        rintro rfl
        obtain ⟨k, hpos, -, hsuffix⟩ := hnot.2
        rw [List.suffix_nil, List.take_eq_nil_iff] at hsuffix
        rcases hsuffix with rfl | hnil
        · exact absurd hpos (Nat.lt_irrefl 0)
        · cases hnil
      rw [skipLine_span hl, next_bind, if_neg hnil]
      rcases findEnd_cases (ρ := ρ) t with ⟨e, hin, -, -⟩ | ⟨-, -, he⟩ | ⟨-, hc, -⟩
      · exact absurd hin hnot.1
      · rw [he, fail_bind]
      · exact absurd hnot.2 hc
    · rw [skipLine_cut hnul, fail_bind]
  · rw [getSection_other hbegin]
    apply if_pos
    by_contra hcut
    exact h ⟨hcut, fun rest he => absurd ⟨rest, by rw [he, List.append_assoc]⟩ hbegin⟩

end Search

section Pointers

theorem Before.length (h : Before e p) : e.length < p.length := by
  obtain ⟨pre, rfl⟩ := h
  rw [List.length_append, List.length_cons]
  omega

theorem skipWhile_ends {P : Char → Bool} (hP : P nul = false) (h : Before e p) :
    (skipWhile P p : Outcome Trap ρ Ptr).Ends (fun _ => False) (fun _ => False)
      fun p' => Before e p' ∧ p'.length ≤ p.length := by
  obtain ⟨pre, rfl⟩ := h
  induction pre with
  | nil =>
    rw [List.nil_append, skipWhile, hP, if_neg Bool.false_ne_true]
    exact ⟨⟨[], rfl⟩, le_rfl⟩
  | cons c pre ih =>
    rw [List.cons_append, skipWhile]
    split
    case isTrue => exact ih.mono (fun _ h => h) (fun _ h => h) fun p' h => ⟨h.1, h.2.trans (Nat.le_succ _)⟩
    case isFalse => exact ⟨⟨c :: pre, rfl⟩, le_rfl⟩

theorem strtoul_ends (base n : ℕ) (h : Before e p) :
    (strtoul base p n : Outcome Trap ρ (ℕ × Ptr)).Ends (fun _ => False) (fun _ => False)
      fun x => Before e x.2 ∧ x.2.length ≤ p.length := by
  obtain ⟨pre, rfl⟩ := h
  induction pre generalizing n with
  | nil =>
    rw [List.nil_append, strtoul, if_neg (by decide)]
    exact ⟨⟨[], rfl⟩, le_rfl⟩
  | cons c pre ih =>
    rw [List.cons_append, strtoul]
    split
    case isTrue => exact (ih _).mono (fun _ h => h) (fun _ h => h) fun x h => ⟨h.1, h.2.trans (Nat.le_succ _)⟩
    case isFalse => exact ⟨⟨c :: pre, rfl⟩, le_rfl⟩

theorem strncmp_ends {w : List Char} (hw : nul ∉ w) (h : Before e p) :
    (strncmp p w : Outcome Trap ρ Bool).Ends (fun _ => False) (fun _ => False)
      fun differs => differs = false → Before e (p.drop w.length) := by
  obtain ⟨pre, rfl⟩ := h
  rw [strncmp_line hw]
  intro hdiffers
  rw [Bool.not_eq_false', List.isPrefixOf_iff_prefix] at hdiffers
  obtain ⟨more, rfl⟩ := hdiffers
  exact ⟨more, by rw [List.append_assoc, List.drop_left]⟩

theorem skipLine_ends (h : Before e p) : (skipLine p : Outcome Trap ρ Ptr).Ends (fun _ => False) (fun _ => False)
    fun p' => Within e p' ∧ p'.length < p.length := by
  obtain ⟨pre, rfl⟩ := h
  by_cases hnul : nul ∈ pre
  · obtain ⟨l, more, rfl, hl⟩ := List.eq_append_cons_of_mem hnul
    rw [List.append_assoc, List.cons_append, skipLine_span hl]
    refine ⟨.inr ⟨more, rfl⟩, ?_⟩
    simp only [List.length_append, List.length_cons]
    omega
  · rw [skipLine_span hnul]
    exact ⟨.inl rfl, Before.length ⟨pre, rfl⟩⟩

end Pointers

section Fill

/-- The pointer has not left the section by more than its end, and no entry of the table but the first is written. -/
structure Filled (e : Ptr) (caps : ℕ → Capability) (max n : ℕ) (s : Fill) : Prop where
  within : Within e s.ptr
  length : s.ptr.length ≤ n
  index : s.currentIndex = 0
  rest : ∀ j, (j = 0 → max = 0) → s.caps j = caps j

variable {caps : ℕ → Capability} {n max : ℕ} {s : Fill}

theorem Filled.move (h : Filled e caps max n s) {ptr : Ptr} (hptr : Within e ptr) (hn : ptr.length ≤ n) :
    Filled e caps max n { s with ptr := ptr } := ⟨hptr, hn, h.index, h.rest⟩

theorem Filled.store (h : Filled e caps max n s) (hmax : 0 < max) {ptr : Ptr} (hptr : Before e ptr) (hn : ptr.length ≤ n)
    (f : Capability → Capability) : (s.store max ptr f : Outcome Trap ρ Fill).Ends (fun _ => False) (fun _ => False)
      fun s' => Filled e caps max n s' ∧ s'.ptr = ptr := by
  rw [store_eq (h.index ▸ hmax)]
  refine ⟨⟨.inr hptr, hn, h.index, fun j hj => ?_⟩, rfl⟩
  have hne : j ≠ 0 := fun h0 => hmax.ne' (hj h0)
  dsimp only
  rw [h.index, Function.update_of_ne hne]
  exact h.rest j hj

/-- The end of a piece of the parser that does not fail. -/
theorem ends_weaken {σ : Type} {o : Outcome Trap ρ σ} {Q : σ → Prop} (h : o.Ends (fun _ => False) (fun _ => False) Q) :
    o.Ends (· = .panic) (fun _ => False) Q := h.mono (fun _ h => h.elim) (fun _ h => h) fun _ h => h

theorem address_ends (h : Filled e caps max n s) (hmax : 0 < max) (hp : Before e (s.ptr.drop 12)) :
    (address max s : Outcome Trap ρ Fill).Ends (fun _ => False) (fun _ => False)
      fun s' => Filled e caps max n s' ∧ Before e s'.ptr := by
  have hdrop : (s.ptr.drop 12).length ≤ n := by
    rw [List.length_drop]
    exact (Nat.sub_le ..).trans h.length
  rw [address]
  refine (strtoul_ends 16 0 hp).bind ?_
  rintro ⟨first, ptr⟩ ⟨hptr, hlen⟩
  refine (h.store hmax hptr (hlen.trans hdrop) _).bind ?_
  rintro s₁ ⟨h₁, rfl⟩
  refine (skipWhile_ends (by decide) hptr).bind ?_
  rintro str ⟨hstr, hstrLen⟩
  refine (skipWhile_ends (by decide) hstr).bind ?_
  rintro ptr' ⟨hptr', hlen'⟩
  refine (strtoul_ends 16 0 hptr').bind ?_
  rintro ⟨last, ptr''⟩ ⟨hptr'', hlen''⟩
  dsimp only at hptr'' hlen'' ⊢
  refine (h₁.store hmax hptr'' (hlen''.trans (hlen'.trans (hstrLen.trans h₁.length))) _).bind ?_
  rintro s₂ ⟨h₂, -⟩
  refine (skipWhile_ends (by decide) hstr).bind ?_
  rintro str' ⟨hstr', hstrLen'⟩
  exact ⟨h₂.move (.inr hstr') (hstrLen'.trans (hstrLen.trans h₁.length)), hstr'⟩

/-- Behind the permissions, the line has to end. -/
theorem permsEnd_ends (s' : Fill) (h' : Filled e caps max n s' ∧ Before e s'.ptr) : (do
    let ptr ← skipWhile isSeparator s'.ptr
    match ptr with
    | [] => .fail .outOfFile
    | c :: _ => if c ≠ nul then .fail .panic else .next { s' with ptr := ptr } : Outcome Trap ρ Fill).Ends
      (· = .panic) (fun _ => False) fun s' => Filled e caps max n s' ∧ Before e s'.ptr := by
  refine (ends_weaken (skipWhile_ends (by decide) h'.2)).bind ?_
  rintro ptr ⟨hbefore, hlen⟩
  cases ptr with
  | nil => exact absurd hbefore.length (Nat.not_lt_zero _)
  | cons c cs =>
    dsimp only
    split
    case isTrue => rfl
    case isFalse => exact ⟨h'.1.move (.inr hbefore) (hlen.trans h'.1.length), hbefore⟩

theorem ioPerms_ends (h : Filled e caps max n s) (hmax : 0 < max) (hp : Before e (s.ptr.drop 12)) :
    (ioPerms max s : Outcome Trap ρ Fill).Ends (· = .panic) (fun _ => False)
      fun s' => Filled e caps max n s' ∧ Before e s'.ptr := by
  have hdrop (k : ℕ) : ((s.ptr.drop 12).drop k).length ≤ n := by
    rw [List.length_drop, List.length_drop]
    exact (Nat.sub_le ..).trans ((Nat.sub_le ..).trans h.length)
  -- the permissions, one or two letters of them
  have hstore (k : ℕ) (hk : Before e ((s.ptr.drop 12).drop k)) (f : Capability → Capability) :
      (s.store max ((s.ptr.drop 12).drop k) f : Outcome Trap ρ Fill).Ends (· = .panic) (fun _ => False)
        fun s' => Filled e caps max n s' ∧ Before e s'.ptr :=
    (h.store hmax hk (hdrop k) f).mono (fun _ h => h.elim) (fun _ h => h) fun s' hs' => ⟨hs'.1, hs'.2 ▸ hk⟩
  rw [ioPerms]
  refine (ends_weaken (strncmp_ends (w := "rw".toList) (by decide) hp)).bind fun notRw hrw => ?_
  cases notRw with
  | false => exact (hstore 2 (hrw rfl) _).bind permsEnd_ends
  | true =>
    refine (ends_weaken (strncmp_ends (w := "wr".toList) (by decide) hp)).bind fun notWr hwr => ?_
    cases notWr with
    | false => exact (hstore 2 (hwr rfl) _).bind permsEnd_ends
    | true =>
      refine (ends_weaken (strncmp_ends (w := "r".toList) (by decide) hp)).bind fun notR hr => ?_
      cases notR with
      | false => exact (hstore 1 (hr rfl) _).bind permsEnd_ends
      | true =>
        refine (ends_weaken (strncmp_ends (w := "w".toList) (by decide) hp)).bind fun notW hw => ?_
        cases notW with
        | false => exact (hstore 1 (hw rfl) _).bind permsEnd_ends
        | true => rfl

theorem attributeLine_ends (h : Filled e caps max n s) (hmax : 0 < max) (hp : Before e s.ptr) :
    (attributeLine max s : Outcome Trap ρ Fill).Ends (· = .panic) (fun _ => False)
      fun s' => Filled e caps max n s' ∧ s'.ptr.length < s.ptr.length := by
  have hstart : Filled e caps max s.ptr.length s := ⟨h.within, le_rfl, h.index, h.rest⟩
  have hline (s₂ : Fill) (h₂ : Filled e caps max s.ptr.length s₂ ∧ Before e s₂.ptr) : (do
      let ptr ← skipLine s₂.ptr
      .next { s₂ with ptr := ptr } : Outcome Trap ρ Fill).Ends (· = .panic) (fun _ => False)
        fun s' => Filled e caps max n s' ∧ s'.ptr.length < s.ptr.length := by
    refine (ends_weaken (skipLine_ends h₂.2)).bind fun ptr ⟨hwithin, hlt⟩ => ?_
    have hlt := hlt.trans_le h₂.1.length
    exact ⟨⟨hwithin, hlt.le.trans h.length, h₂.1.index, h₂.1.rest⟩, hlt⟩
  have hperms (s₁ : Fill) (h₁ : Filled e caps max s.ptr.length s₁ ∧ Before e s₁.ptr) : (do
      let noPerms ← strncmp s₁.ptr permsWord
      let s₂ ← if noPerms then .next s₁ else ioPerms max s₁
      let ptr ← skipLine s₂.ptr
      .next { s₂ with ptr := ptr } : Outcome Trap ρ Fill).Ends (· = .panic) (fun _ => False)
        fun s' => Filled e caps max n s' ∧ s'.ptr.length < s.ptr.length := by
    refine (ends_weaken (strncmp_ends (w := permsWord) (by decide) h₁.2)).bind fun noPerms hword => ?_
    cases noPerms with
    | true => exact hline s₁ h₁
    | false => exact (ioPerms_ends h₁.1 hmax (hword rfl)).bind hline
  rw [attributeLine]
  refine (ends_weaken (strncmp_ends (w := addressWord) (by decide) hp)).bind fun noAddress hword => ?_
  cases noAddress with
  | true => exact hperms s ⟨hstart, hp⟩
  | false => exact (ends_weaken (address_ends hstart hmax (hword rfl))).bind hperms

theorem before_of_cond (h : Filled e caps max n s) (hc : before (nul :: e) s = true) : Before e s.ptr := by
  rcases h.within with he | hbefore
  · rw [before, decide_eq_true_eq, he, List.length_cons] at hc
    omega
  · exact hbefore

theorem attributes_end {m : ℕ} (h : Filled e caps max n s) (hmax : 0 < max) (hn : n ≤ m) :
    (whileLoop .outOfFuel (before (nul :: e)) (attributeLine max) m s : Outcome Trap ρ Fill).Ends (· = .panic)
      (fun _ => False) (Filled e caps max n) := by
  refine (whileLoop_ends (Filled e caps max n) (fun s => s.ptr.length) (fun s _ hc => ?_) (fun s hs hc => ?_) h
    (h.length.trans hn)).mono (fun _ h => h) (fun _ h => h) fun s' h => h.1
  · rw [before, decide_eq_true_eq] at hc
    exact Nat.zero_lt_of_lt hc
  · exact attributeLine_ends hs hmax (before_of_cond hs hc)

theorem capabilityLine_ends {m : ℕ} (h : Filled e caps max n s) (hn : n ≤ m) (hc : before (nul :: e) s = true) :
    (capabilityLine (nul :: e) max m s : Outcome Trap ρ Fill).Ends (· = .panic) (fun _ => False)
      fun s' => Filled e caps max n s' ∧ s'.ptr.length < s.ptr.length := by
  have hp := before_of_cond h hc
  rw [capabilityLine]
  refine (ends_weaken (strncmp_ends (w := capabilityWord) (by decide) hp)).bind fun differs hword => ?_
  split
  case isTrue =>
    obtain ⟨pre, hpre⟩ := hp
    rw [before, decide_eq_true_eq, hpre, List.length_append, List.length_cons] at hc
    obtain ⟨c, pre, rfl⟩ := List.exists_cons_of_length_pos (by omega : 0 < pre.length)
    have hdrop : s.ptr.drop 1 = pre ++ nul :: e := by rw [hpre]; rfl
    have hlt : (s.ptr.drop 1).length < s.ptr.length := by
      rw [hdrop, hpre]
      exact Nat.lt_succ_self _
    exact ⟨h.move (.inr ⟨pre, hdrop⟩) (hlt.le.trans h.length), hlt⟩
  case isFalse hno =>
    have hptr : Before e (s.ptr.drop 10) := hword (by simpa using hno)
    have hlen : (s.ptr.drop 10).length ≤ s.ptr.length := by
      rw [List.length_drop]
      exact Nat.sub_le ..
    have hstart : Filled e caps max s.ptr.length s := ⟨h.within, le_rfl, h.index, h.rest⟩
    dsimp only
    split
    case isTrue => rfl
    case isFalse hroom =>
      have hmax : 0 < max := by
        rw [h.index] at hroom
        omega
      refine (ends_weaken (hstart.store hmax hptr hlen _)).bind ?_
      rintro s₁ ⟨h₁, hs₁⟩
      refine (ends_weaken (skipLine_ends (hs₁ ▸ hptr))).bind ?_
      rintro ptr ⟨hwithin, hlt⟩
      have hlt : ptr.length < s.ptr.length := hlt.trans_le h₁.length
      have hinner : Filled e caps max ptr.length { s₁ with ptr := ptr } := ⟨hwithin, le_rfl, h₁.index, h₁.rest⟩
      refine (attributes_end hinner hmax ?_).mono (fun _ h => h) (fun _ h => h) fun s' h' => ?_
      · exact hlt.le.trans (h.length.trans hn)
      · exact ⟨⟨h'.within, h'.length.trans (hlt.le.trans h.length), h'.index, h'.rest⟩, h'.length.trans_lt hlt⟩

/-- Behind a section that is there the parser comes to an end, and writes the first entry at most. -/
theorem fillCapabilities_ends {file : List Char} {name : CString}
    (h : ReadsInside (toLines file) name.chars) (caps : ℕ → Capability) (max : ℕ) :
    (fillCapabilities file caps max name : Outcome Trap ρ (ℕ → Capability)).Ends (· = .panic) (fun _ => False)
      fun caps' => ∀ j, (j = 0 → max = 0) → caps' j = caps j := by
  have hlines : (toLines file).length = file.length := List.length_map _
  rw [fillCapabilities]
  refine (getSection_ends h).bind fun bounds hbounds => ?_
  cases bounds with
  | none => rfl
  | some b =>
    obtain ⟨first, last⟩ := b
    obtain ⟨hlen, e, rfl, hfirst⟩ := hbounds first last rfl
    rw [hlines] at hlen
    dsimp only
    split
    case isTrue => rfl
    case isFalse =>
      have hstart : Filled e caps max file.length ⟨first, 0, caps⟩ := ⟨.inr hfirst, hlen, rfl, fun j _ => rfl⟩
      refine (whileLoop_ends (Filled e caps max file.length) (fun s => s.ptr.length) (fun s _ hc => ?_)
        (fun s hs hc => capabilityLine_ends hs le_rfl hc) hstart hlen).bind fun s' hs' => hs'.1.rest
      rw [before, decide_eq_true_eq] at hc
      exact Nat.zero_lt_of_lt hc

end Fill

/-- The parser comes to an end, by filling the table or in a panic, and has not left the file or the table. -/
def Safe (max : ℕ) (caps : ℕ → Capability) (o : Outcome Trap Empty (ℕ → Capability)) : Prop :=
  o = .fail .panic ∨ ∃ caps', o = .next caps' ∧ ∀ j, max ≤ j → caps' j = caps j

theorem fill_capabilities_safe_iff (file : List Char) (caps : ℕ → Capability) (max : ℕ) (name : CString) :
    Safe max caps (fillCapabilities file caps max name) ↔ ReadsInside (toLines file) name.chars := by
  constructor
  · intro hsafe
    by_contra hnot
    have hfail : (fillCapabilities file caps max name : Outcome Trap Empty _) = .fail .outOfFile := by
      rw [fillCapabilities, getSection_fails hnot, fail_bind]
    rw [hfail] at hsafe
    rcases hsafe with he | ⟨caps', he, -⟩
    · cases he
    · cases he
  · intro h
    have hends := fillCapabilities_ends (ρ := Empty) h caps max
    cases hrun : (fillCapabilities file caps max name : Outcome Trap Empty (ℕ → Capability)) with
    | fail e =>
      rw [hrun] at hends
      exact .inl (congrArg Outcome.fail hends)
    | done r => exact r.elim
    | next caps' =>
      rw [hrun] at hends
      exact .inr ⟨caps', rfl, fun j hj => hends j fun h0 => Nat.le_zero.mp (h0 ▸ hj)⟩

/-- The section is cut off behind its first line feed. -/
theorem cut_section_overruns : ¬ Safe 64 (fun _ => noCapability)
    (fillCapabilities "BEGIN amd64\nCAPABILITY serial\n".toList (fun _ => noCapability) 64 amd64.string) := by
  have hrun : (fillCapabilities "BEGIN amd64\nCAPABILITY serial\n".toList (fun _ => noCapability) 64 amd64.string :
      Outcome Trap Empty _) = .fail .outOfFile := rfl
  rw [hrun]
  rintro (he | ⟨caps', he, -⟩)
  · cases he
  · cases he

end Raccoon.CapabilityFile
