import Raccoon.TableLoops

/-!
`kmmap`: the pages that meet the requested range get a leaf, and nothing else
changes.
-/

namespace Raccoon.Mmu

open TableTree Loops Outcome Machine

/-- `offset_l0` and `size` of `kmmap`. -/
structure KmmapVars where
  l0 : ℕ
  size : ℕ

section Code

variable {A : Type} [FrameSource A]

def kmmapPage (flags entry : ℕ) (m : Machine A) (v : KmmapVars) :
    Outcome Stuck (Machine A) (Machine A × KmmapVars) := do
  let m ← m.ensureEntry entry flags
  let spaceLeft := wsub archPageSize v.l0
  if spaceLeft ≥ v.size then .done m.releaseKmmap
  else .next (m, { l0 := 0, size := wsub v.size spaceLeft })

/-- A caller that finds the lock held spins for ever on a single core. -/
def kmmap (addr size flags : ℕ) (m : Machine A) : Except Stuck (Machine A) :=
  if m.kmmapLock ≠ 0 then .error .lockHeld
  else
    match overPages (kmmapPage flags) flags addr m.grabKmmap ⟨addr &&& maskL0, size⟩ with
    | .fail e => .error e
    | .done m => .ok m
    | .next c => .ok c.m.releaseKmmap

end Code

/-- Page `P` meets the range `[addr, addr + max size 1)` of the 48-bit address space. -/
def Meets (addr size P : ℕ) : Prop :=
  ∃ x, addr % 2 ^ 48 ≤ x ∧ x < addr % 2 ^ 48 + max size 1 ∧ x / 4096 = P

section Proof

variable {A : Type} [FrameSource A] {m₀ m m' : Machine A} {flags lo hi n : ℕ}

/-- From `m₀` to `m` exactly the pages in `[lo, hi)` were given a leaf, out of the first `n` frames
of the allocator. -/
structure Mapped (m₀ m : Machine A) (flags lo hi n : ℕ) : Prop where
  le : lo ≤ hi
  cr3 : m.cr3 = m₀.cr3
  lock : m.kmmapLock = m₀.kmmapLock
  wf : WellFormed m.mem m.root
  fresh : Fresh m
  supply : ∀ i, nthFrame m.frames i = nthFrame m₀.frames (n + i)
  grown : ∀ t, TableFrame m₀.mem m₀.root t → TableFrame m.mem m.root t
  tables : ∀ t, TableFrame m.mem m.root t → TableFrame m₀.mem m₀.root t ∨ Drawn m₀ n t
  cleared : Cleared m₀ m n
  kept : ∀ P, TreePage P → (P < lo ∨ hi ≤ P ∨ leaf m₀.mem m₀.root P ≠ 0) →
    leaf m.mem m.root P = leaf m₀.mem m₀.root P
  new : ∀ P, TreePage P → lo ≤ P → P < hi → leaf m₀.mem m₀.root P = 0 →
    ∃ i < n, ∃ a, nthFrame m₀.frames i = some a ∧ ¬ TableFrame m.mem m.root (a / 4096) ∧
      leaf m.mem m.root P = a ||| flags ||| 1
  distinct : ∀ P Q, TreePage P → TreePage Q → lo ≤ P → P < hi → lo ≤ Q → Q < hi →
    leaf m₀.mem m₀.root P = 0 → leaf m₀.mem m₀.root Q = 0 → leaf m.mem m.root P = leaf m.mem m.root Q → P = Q

theorem Mapped.refl (hwf : WellFormed m.mem m.root) (hfresh : Fresh m) : Mapped m m flags lo lo 0 where
  le := le_rfl
  cr3 := rfl
  lock := rfl
  wf := hwf
  fresh := hfresh
  supply i := by rw [Nat.zero_add]
  grown _ h := h
  tables _ h := .inl h
  cleared := .refl m
  kept _ _ _ := rfl
  new P _ h1 h2 := by omega
  distinct P Q _ _ h1 h2 := by omega

theorem frame_ext {i j a b : ℕ} (h : Fresh m₀) (ha : nthFrame m₀.frames i = some a)
    (hb : nthFrame m₀.frames j = some b) (he : a / 4096 = b / 4096) : i = j := by
  have h1 := (h.aligned i a ha).1
  have h2 := (h.aligned j b hb).1
  obtain rfl : a = b := by omega
  exact h.distinct i j a ha hb

theorem Drawn.later {f k : ℕ} (hd : Drawn m n f) (hsupply : ∀ i, nthFrame m.frames i = nthFrame m₀.frames (k + i)) :
    Drawn m₀ (k + n) f := by
  obtain ⟨i, hi, a, ha, he⟩ := hd
  exact ⟨k + i, by omega, a, hsupply i ▸ ha, he⟩

theorem Drawn.mono {f k : ℕ} (hd : Drawn m k f) (hle : k ≤ n) : Drawn m n f := by
  obtain ⟨i, hi, ha⟩ := hd
  exact ⟨i, hi.trans_le hle, ha⟩

/-- A frame that was drawn before is not drawn again. -/
theorem not_drawn_of_earlier {i a k : ℕ} (h₀ : Fresh m₀)
    (hsupply : ∀ i, nthFrame m.frames i = nthFrame m₀.frames (k + i)) (hi : i < k)
    (ha : nthFrame m₀.frames i = some a) : ¬ Drawn m n (a / 4096) := by
  rintro ⟨j, -, b, hb, he⟩
  have := frame_ext h₀ ha (hsupply j ▸ hb) he
  omega

/-- Memory that is cleared in two stages, where tables stay tables. -/
theorem Cleared.trans {k : ℕ} (h : Cleared m₀ m n) (h' : Cleared m m' k)
    (hgrown : ∀ t, TableFrame m.mem m.root t → TableFrame m'.mem m'.root t)
    (hsupply : ∀ i, nthFrame m.frames i = nthFrame m₀.frames (n + i)) : Cleared m₀ m' (n + k) := by
  refine ⟨fun x hx hd => ?_, fun x hx hd => ?_⟩
  · by_cases hm : Drawn m k (x / 4096)
    · exact h'.blank x hx hm
    · rw [h'.rest x hx hm]
      refine h.blank x (fun ht => hx (hgrown _ ht)) ?_
      obtain ⟨i, hi, a, ha, he⟩ := hd
      by_cases hlt : i < n
      · exact ⟨i, hlt, a, ha, he⟩
      · have hi' : n + (i - n) = i := by omega
        exact absurd ⟨i - n, by omega, a, (hsupply _).trans (hi'.symm ▸ ha), he⟩ hm
  · rw [h'.rest x hx fun hm => hd (hm.later hsupply)]
    exact h.rest x (fun ht => hx (hgrown _ ht)) fun hm => hd (hm.mono (Nat.le_add_right n k))

theorem Mapped.table (h₀ : Fresh m₀) (h : Mapped m₀ m flags lo hi n) (hg : Grows m m')
    (hleaf : ∀ P, TreePage P → leaf m'.mem m'.root P = leaf m.mem m.root P) :
    ∃ k, Mapped m₀ m' flags lo hi k := by
  obtain ⟨k, hsupply, htables, hcleared⟩ := hg.drawn
  refine ⟨n + k, h.le, hg.cr3.trans h.cr3, hg.lock.trans h.lock, hg.wf, hg.fresh, fun i => ?_,
    fun t ht => hg.tables t (h.grown t ht), fun t ht => ?_, h.cleared.trans hcleared hg.tables h.supply,
    fun P hP hout => (hleaf P hP).trans (h.kept P hP hout), fun P hP hlo hhi hz => ?_, ?_⟩
  · rw [hsupply, h.supply, Nat.add_assoc]
  · rcases htables t ht with ht | hd
    · exact (h.tables t ht).imp_right fun hd => hd.mono (Nat.le_add_right n k)
    · exact .inr (hd.later h.supply)
  · obtain ⟨i, hi, a, ha, hnot, he⟩ := h.new P hP hlo hhi hz
    refine ⟨i, by omega, a, ha, fun hT => ?_, (hleaf P hP).trans he⟩
    exact (htables _ hT).elim hnot (not_drawn_of_earlier h₀ h.supply hi ha)
  · intro P Q hP hQ
    rw [hleaf P hP, hleaf Q hQ]
    exact h.distinct P Q hP hQ

theorem Mapped.skip (h : Mapped m₀ m flags lo hi n) (hP : TreePage hi)
    (hused : leaf m.mem m.root hi ≠ 0) : Mapped m₀ m flags lo (hi + 1) n := by
  have hold : leaf m₀.mem m₀.root hi ≠ 0 := h.kept hi hP (.inr (.inl le_rfl)) ▸ hused
  have hne {Q : ℕ} (hz : leaf m₀.mem m₀.root Q = 0) : Q ≠ hi := fun he => hold (he ▸ hz)
  refine ⟨h.le.step, h.cr3, h.lock, h.wf, h.fresh, h.supply, h.grown, h.tables, h.cleared,
    fun P hP hout => h.kept P hP (by omega),
    fun P hP hlo hhi hz => h.new P hP hlo ?_ hz, fun P Q hP hQ h1 h2 h3 h4 hz hz' => ?_⟩
  · have := hne hz
    omega
  · have := hne hz
    have := hne hz'
    exact h.distinct P Q hP hQ h1 (by omega) h3 (by omega) hz hz'

theorem Mapped.give (h₀ : Fresh m₀) (hflags : EntryFlags flags) (h : Mapped m₀ m flags lo hi n)
    (hP : TreePage hi) (hunused : leaf m.mem m.root hi = 0) (hg : Grows m m') {a : ℕ}
    (ha : nthFrame m.frames 0 = some a) (hsupply : ∀ i, nthFrame m'.frames i = nthFrame m.frames (i + 1))
    (htables : ∀ t, TableFrame m'.mem m'.root t → TableFrame m.mem m.root t) (hcleared : Cleared m m' 1)
    (hself : leaf m'.mem m'.root hi = a ||| flags ||| 1)
    (hother : ∀ P, TreePage P → P ≠ hi → leaf m'.mem m'.root P = leaf m.mem m.root P) :
    Mapped m₀ m' flags lo (hi + 1) (n + 1) := by
  have ha₀ : nthFrame m₀.frames n = some a := h.supply 0 ▸ ha
  -- no earlier page received the frame `a`
  have hdiff : ∀ P, TreePage P → lo ≤ P → P < hi → leaf m₀.mem m₀.root P = 0 →
      leaf m.mem m.root P ≠ a ||| flags ||| 1 := by
    intro P hP hlo hhi hz he
    obtain ⟨i, hi, b, hb, -, heb⟩ := h.new P hP hlo hhi hz
    have hfa := (hflags.link (h₀.aligned n a ha₀).1 (h₀.aligned n a ha₀).2).2
    have hfb := (hflags.link (h₀.aligned i b hb).1 (h₀.aligned i b hb).2).2
    rw [← heb, he, hfa] at hfb
    have := frame_ext h₀ ha₀ hb hfb
    omega
  refine ⟨h.le.step, hg.cr3.trans h.cr3, hg.lock.trans h.lock, hg.wf, hg.fresh, fun i => ?_,
    fun t ht => hg.tables t (h.grown t ht),
    fun t ht => (h.tables t (htables t ht)).imp_right fun hd => hd.mono (Nat.le_succ n),
    h.cleared.trans hcleared hg.tables h.supply,
    fun P hP hout => ?_, fun P hP hlo hhi hz => ?_, fun P Q hP hQ h1 h2 h3 h4 hz hz' he => ?_⟩
  · rw [hsupply, h.supply]
    congr 1
    omega
  · by_cases he : P = hi
    · subst he
      rw [h.kept P hP (.inr (.inl le_rfl))] at hunused
      have := h.le
      omega
    · rw [hother P hP he]
      exact h.kept P hP (by omega)
  · by_cases he : P = hi
    · subst he
      exact ⟨n, by omega, a, ha₀, fun hT => h.fresh.apart 0 a ha (htables _ hT), hself⟩
    · obtain ⟨i, hi, b, hb, hnot, heb⟩ := h.new P hP hlo (by omega) hz
      exact ⟨i, by omega, b, hb, fun hT => hnot (htables _ hT), (hother P hP he).trans heb⟩
  · by_cases hPe : P = hi <;> by_cases hQe : Q = hi
    · rw [hPe, hQe]
    · rw [hPe, hself, hother Q hQ hQe] at he
      exact absurd he.symm (hdiff Q hQ h3 (by omega) hz')
    · rw [hQe, hself, hother P hP hPe] at he
      exact absurd he (hdiff P hP h1 (by omega) hz)
    · rw [hother P hP hPe, hother Q hQ hQe] at he
      exact h.distinct P Q hP hQ h1 (by omega) h3 (by omega) hz hz' he

theorem Mapped.leaf {ρ : Type} (h₀ : Fresh m₀) (hflags : EntryFlags flags) {P entry : ℕ}
    (h : Mapped m₀ m flags lo P n) (he : Extends flags m₀ m) (hP : TreePage P)
    (hptr : PointsTo m.cr3 entry (pagePath P) (P % 512))
    (hl : Live pageTables m.mem m.root (pagePath P)) :
    (m.ensureEntry entry flags : Outcome Stuck ρ _).Ends (· = .outOfMemory) (fun _ => False) fun m' =>
      Live pageTables m'.mem m'.root (pagePath P) ∧ Extends flags m₀ m' ∧ ∃ k, Mapped m₀ m' flags lo (P + 1) k := by
  have hq := pagePath_proper hP
  refine (ensureEntry_leaf hptr h.wf h.fresh hq rfl (Nat.mod_lt _ (by decide)) hl).mono (fun _ h => h)
    (fun _ h => h) ?_
  rintro m' (⟨rfl, hne⟩ | ⟨hz, hg, hext, a, ha, hsupply, htables, hcleared, hself, hother⟩)
  · exact ⟨hl, he, n, h.skip hP ((leaf_of_live hl).trans_ne hne)⟩
  · refine ⟨hg.live _ hq hl, he.trans hext, n + 1,
      h.give h₀ hflags hP ((leaf_of_live hl).trans hz) hg ha hsupply htables hcleared (hself P rfl rfl)
        fun Q hQ hne => hother Q hQ (page_ne hQ hP hne)⟩

/-- What is left of the range when the nest is about to visit page `P`: after the first page the offset is
zero and the rest starts at `P`. -/
def RangeLeft (addr size P : ℕ) (v : KmmapVars) : Prop :=
  (P = addr % 2 ^ 48 / 4096 ∧ v.l0 = addr % 4096 ∧ v.size = size) ∨
    (addr % 2 ^ 48 / 4096 < P ∧ v.l0 = 0 ∧ 0 < v.size ∧ 4096 * P + v.size = addr % 2 ^ 48 + size)

/-- The invariant of the nest of `kmmap`, about to visit page `P`. -/
structure KmmapInv (m₀ : Machine A) (flags addr size P : ℕ) (m : Machine A) (v : KmmapVars) : Prop where
  mapped : ∃ n, Mapped m₀ m flags (addr % 2 ^ 48 / 4096) P n
  cursor : RangeLeft addr size P v

variable {addr size P : ℕ}

theorem meets_iff : Meets addr size P ↔
    addr % 2 ^ 48 / 4096 ≤ P ∧ P < (addr % 2 ^ 48 + max size 1 - 1) / 4096 + 1 := by
  constructor
  · rintro ⟨x, h1, h2, rfl⟩
    omega
  · rintro ⟨h1, h2⟩
    by_cases he : P = addr % 2 ^ 48 / 4096
    · exact ⟨addr % 2 ^ 48, le_rfl, by omega, he.symm⟩
    · exact ⟨4096 * P, by omega, by omega, by omega⟩

theorem Meets.slot_ne (hslot : addr % 2 ^ 48 + max size 1 ≤ recursiveMappingEntry * 2 ^ 39 ∨
    (recursiveMappingEntry + 1) * 2 ^ 39 ≤ addr % 2 ^ 48) (hP : Meets addr size P) :
    P / 2 ^ 27 ≠ recursiveMappingEntry := by
  rw [meets_iff] at hP
  unfold recursiveMappingEntry at *
  omega

theorem RangeLeft.meets {v : KmmapVars} (h : RangeLeft addr size P v) : Meets addr size P := by
  refine meets_iff.mpr ?_
  rcases h with ⟨hP, -, -⟩ | ⟨hP, -, hpos, he⟩ <;> omega

/-- Whatever the visit does to the page's entry, it ends the call at the last page that meets the range
and goes to the next page before. -/
theorem kmmapPage_ends {v : KmmapVars} {entry : ℕ} {Q : Machine A → Prop} (hv : RangeLeft addr size P v)
    (hsize : size < 2 ^ 64)
    (hentry : (m.ensureEntry entry flags : Outcome Stuck (Machine A) _).Ends (· = .outOfMemory) (fun _ => False) Q) :
    (kmmapPage flags entry m v).Ends (· = .outOfMemory)
      (fun r => ∃ m', r = m'.releaseKmmap ∧ (addr % 2 ^ 48 + max size 1 - 1) / 4096 = P ∧ Q m')
      fun s => RangeLeft addr size (P + 1) s.2 ∧ Q s.1 := by
  have hspace : wsub archPageSize v.l0 = 4096 - v.l0 := by
    refine wsub_eq ?_ (by decide)
    unfold archPageSize
    rcases hv with ⟨-, hl0, -⟩ | ⟨-, hl0, -⟩ <;> omega
  refine (hentry.mono (fun _ h => h) (fun _ h => h.elim) fun _ h => h).bind fun m' hm' => ?_
  simp only [hspace]
  split
  case isTrue hdone =>
    refine ⟨m', rfl, ?_, hm'⟩
    rcases hv with ⟨hP, hl0, hleft⟩ | ⟨hP, hl0, hpos, hleft⟩ <;> omega
  case isFalse hmore =>
    have hrest : wsub v.size (4096 - v.l0) = v.size - (4096 - v.l0) := by
      refine wsub_eq (by omega) ?_
      rcases hv with ⟨-, -, hleft⟩ | ⟨hP, -, -, hleft⟩ <;> omega
    rw [hrest]
    refine ⟨.inr ?_, hm'⟩
    dsimp only
    rcases hv with ⟨hP, hl0, hleft⟩ | ⟨hP, hl0, hpos, hleft⟩ <;> omega

theorem Meets.tree (hsize : addr % 2 ^ 48 + size ≤ 2 ^ 48)
    (hslot : ∀ P, Meets addr size P → P / 2 ^ 27 ≠ recursiveMappingEntry) (h : Meets addr size P) :
    TreePage P := by
  refine ⟨?_, hslot P h⟩
  obtain ⟨x, -, hx, rfl⟩ := h
  omega

/-- Where the pages end that a call visits: after the range, or after the last page there is. -/
def visitedEnd (addr size : ℕ) : ℕ := min ((addr % 2 ^ 48 + max size 1 - 1) / 4096 + 1) (2 ^ 36)

theorem kmmap_nestInvariant (h₀ : Fresh m₀) (hflags : EntryFlags flags) (hsize : size < 2 ^ 64)
    (hslot : ∀ P, P < 2 ^ 36 → Meets addr size P → P / 2 ^ 27 ≠ recursiveMappingEntry) :
    NestInvariant flags (kmmapPage flags)
      (fun m' => ∃ m n, m' = m.releaseKmmap ∧
        Mapped m₀ m flags (addr % 2 ^ 48 / 4096) (visitedEnd addr size) n ∧ Extends flags m₀ m)
      (fun P m v => KmmapInv m₀ flags addr size P m v ∧ Extends flags m₀ m) where
  wf h := h.1.mapped.choose_spec.wf
  fresh h := h.1.mapped.choose_spec.fresh
  table h hg he hleaf := ⟨⟨h.1.mapped.choose_spec.table h₀ hg hleaf, h.1.cursor⟩, h.2.trans he⟩
  body {P m v} hP h hl := by
    obtain ⟨⟨⟨n, hmapped⟩, hv⟩, he⟩ := h
    have hleaf := hmapped.leaf (ρ := Machine A) h₀ hflags he ⟨hP, hslot P hP hv.meets⟩
      (leafPointer_pointsTo m.cr3 P) hl
    refine (kmmapPage_ends hv hsize hleaf).mono (fun _ h => h) ?_ fun s h => ?_
    · rintro r ⟨m', rfl, hlast, -, he', k, hm'⟩
      have hend : visitedEnd addr size = P + 1 := by
        rw [visitedEnd, hlast]
        exact Nat.min_eq_left hP
      exact ⟨m', k, rfl, hend ▸ hm', he'⟩
    · obtain ⟨hv', hl', he', hm'⟩ := h
      exact ⟨⟨⟨hm', hv'⟩, he'⟩, hl'⟩

theorem used_of_mapped (h : Mapped m₀ m flags lo hi n) (hP : TreePage P) (hlo : lo ≤ P) (hhi : P < hi) :
    leaf m.mem m.root P ≠ 0 := by
  by_cases hz : leaf m₀.mem m₀.root P = 0
  · obtain ⟨i, -, a, -, -, he⟩ := h.new P hP hlo hhi hz
    rw [he]
    exact ne_zero_of_bit (b := 0) (by simp)
  · exact (h.kept P hP (.inr (.inr hz))).trans_ne hz

/-- A call that finds the lock free either is short of a frame or maps the pages of the range that there are. -/
theorem kmmap_cases (hwf : WellFormed m.mem m.root) (hfresh : Fresh m) (hlock : m.kmmapLock = 0)
    (hflags : EntryFlags flags) (hsize : size < 2 ^ 64)
    (hslot : ∀ P, P < 2 ^ 36 → Meets addr size P → P / 2 ^ 27 ≠ recursiveMappingEntry) :
    kmmap addr size flags m = .error .outOfMemory ∨
    ∃ m' n, kmmap addr size flags m = .ok m'.releaseKmmap ∧
      Mapped m.grabKmmap m' flags (addr % 2 ^ 48 / 4096) (visitedEnd addr size) n ∧ Extends flags m m' := by
  have hl0 : addr &&& maskL0 = addr % 4096 := Nat.and_two_pow_sub_one_eq_mod addr 12
  have hend := overPages_ends (kmmap_nestInvariant hfresh.grabKmmap hflags hsize hslot) hflags addr m.grabKmmap
    ⟨addr % 4096, size⟩ ⟨⟨⟨0, .refl hwf hfresh.grabKmmap⟩, .inl ⟨rfl, rfl, rfl⟩⟩, .refl _⟩
  rw [kmmap, if_neg (by simp [hlock]), hl0]
  cases hrun : overPages (kmmapPage flags) flags addr m.grabKmmap ⟨addr % 4096, size⟩ with
  | fail e =>
    rw [hrun] at hend
    obtain rfl : e = .outOfMemory := hend
    exact .inl rfl
  | done r =>
    rw [hrun] at hend
    obtain ⟨m', n, rfl, hm', he⟩ := hend
    exact .inr ⟨m', n, rfl, hm', he.kept, he.new⟩
  | next c =>
    rw [hrun] at hend
    obtain ⟨⟨⟨n, hm'⟩, hv⟩, he⟩ := hend
    have hall : visitedEnd addr size = 2 ^ 36 := Nat.min_eq_right (meets_iff.mp hv.meets).2.le
    exact .inr ⟨c.m, n, rfl, hall ▸ hm', he.kept, he.new⟩

theorem kmmap_mapped (hwf : WellFormed m.mem m.root) (hfresh : Fresh m) (hlock : m.kmmapLock = 0)
    (hflags : EntryFlags flags) (hsize : addr % 2 ^ 48 + size ≤ 2 ^ 48)
    (hslot : ∀ P, Meets addr size P → P / 2 ^ 27 ≠ recursiveMappingEntry)
    (hget : kmmap addr size flags m ≠ .error .outOfMemory) :
    ∃ m' n, kmmap addr size flags m = .ok m'.releaseKmmap ∧ Mapped m.grabKmmap m' flags
      (addr % 2 ^ 48 / 4096) ((addr % 2 ^ 48 + max size 1 - 1) / 4096 + 1) n := by
  have hend : visitedEnd addr size = (addr % 2 ^ 48 + max size 1 - 1) / 4096 + 1 := by
    unfold visitedEnd
    omega
  obtain ⟨m', n, hrun, hm', -⟩ :=
    (kmmap_cases hwf hfresh hlock hflags (by omega) fun P _ => hslot P).resolve_left hget
  exact ⟨m', n, hrun, hend ▸ hm'⟩

theorem kmmap_wellFormed (hwf : WellFormed m.mem m.root) (hfresh : Fresh m) (hlock : m.kmmapLock = 0)
    (hflags : EntryFlags flags) (hsize : addr % 2 ^ 48 + size ≤ 2 ^ 48)
    (hslot : ∀ P, Meets addr size P → P / 2 ^ 27 ≠ recursiveMappingEntry)
    (hok : (kmmap addr size flags m).isOk = true) (d : Machine A) :
    WellFormed ((kmmap addr size flags m).toOption.getD d).mem ((kmmap addr size flags m).toOption.getD d).root ∧
      Fresh ((kmmap addr size flags m).toOption.getD d) := by
  obtain ⟨m', n, hrun, hm'⟩ := kmmap_mapped hwf hfresh hlock hflags hsize hslot (ne_error_of_isOk hok _)
  rw [hrun, Except.toOption, Option.getD_some, releaseKmmap_root, releaseKmmap_mem]
  exact ⟨hm'.wf, hm'.fresh.releaseKmmap⟩

/-- `kmmap` gives a leaf to every page that meets the range, a fresh frame to each that had none,
and changes no other leaf. -/
theorem kmmap_maps_range (hwf : WellFormed m.mem m.root) (hfresh : Fresh m) (hlock : m.kmmapLock = 0)
    (hflags : Attributes flags) (hsize : addr % 2 ^ 48 + size ≤ 2 ^ 48)
    (hslot : ∀ P, Meets addr size P → P / 2 ^ 27 ≠ recursiveMappingEntry)
    (hget : kmmap addr size flags m ≠ .error .outOfMemory) :
    ∃ m' n, kmmap addr size flags m = .ok m' ∧ m'.cr3 = m.cr3 ∧ WellFormed m'.mem m'.root ∧
      (∀ i, nthFrame m'.frames i = nthFrame m.frames (n + i)) ∧
      (∀ P, Meets addr size P → leaf m'.mem m'.root P ≠ 0) ∧
      (∀ P, Meets addr size P → leaf m.mem m.root P = 0 → ∃ i < n, ∃ a, nthFrame m.frames i = some a ∧
        ¬ TableFrame m'.mem m'.root (a / 4096) ∧ leaf m'.mem m'.root P = a ||| flags ||| 1) ∧
      (∀ P Q, Meets addr size P → Meets addr size Q → leaf m.mem m.root P = 0 → leaf m.mem m.root Q = 0 →
        leaf m'.mem m'.root P = leaf m'.mem m'.root Q → P = Q) ∧
      ∀ P, TreePage P → (¬ Meets addr size P ∨ leaf m.mem m.root P ≠ 0) →
        leaf m'.mem m'.root P = leaf m.mem m.root P := by
  obtain ⟨m', n, hrun, h⟩ := kmmap_mapped hwf hfresh hlock hflags.entryFlags hsize hslot hget
  have htree {P : ℕ} (hP : Meets addr size P) : TreePage P := hP.tree hsize hslot
  have hnew {P : ℕ} (hP : Meets addr size P) (hz : leaf m.mem m.root P = 0) :=
    h.new P (htree hP) (meets_iff.mp hP).1 (meets_iff.mp hP).2 hz
  refine ⟨m'.releaseKmmap, n, hrun, ?_⟩
  simp only [releaseKmmap_mem, releaseKmmap_cr3, releaseKmmap_root, releaseKmmap_frames]
  refine ⟨h.cr3, h.wf, h.supply, fun P hP => ?_, fun P hP hz => hnew hP hz,
    fun P Q hP hQ => h.distinct P Q (htree hP) (htree hQ) (meets_iff.mp hP).1 (meets_iff.mp hP).2
      (meets_iff.mp hQ).1 (meets_iff.mp hQ).2, fun P hP hout => h.kept P hP ?_⟩
  · exact used_of_mapped h (htree hP) (meets_iff.mp hP).1 (meets_iff.mp hP).2
  · rw [meets_iff] at hout
    rcases hout with hout | hne
    · omega
    · exact .inr (.inr hne)

end Proof

section Blank

/-- Memory whose second frame is a directory with nothing but its own slot. -/
def blankMem : PhysMem := fun x => if x = 0x1190 then 0x1003 else 0

def blankMachine : Machine (List ℕ) := ⟨blankMem, 0x1000, [0x2000, 0x3000, 0x4000, 0x5000, 0x6000], 0⟩

theorem blankMachine_tables : WellFormed blankMachine.mem blankMachine.root ∧
    ∀ t, TableFrame blankMachine.mem blankMachine.root t → t = 1 := by
  have hroot : blankMachine.root = 1 := by decide
  rw [hroot]
  refine wellFormed_of_blank ⟨by decide, by decide⟩ fun i _ hne => if_neg ?_
  unfold recursiveMappingEntry at hne
  omega

theorem fresh_of_blank (k : ℕ) (hk : k ≤ 8) :
    Fresh { blankMachine with frames := (List.range k).map fun n => 0x1000 * (n + 2) } := by
  have hnth (n a : ℕ) (h : nthFrame ((List.range k).map fun n => 0x1000 * (n + 2)) n = some a) :
      n < 8 ∧ a = 0x1000 * (n + 2) := by
    rw [nthFrame_list, List.getElem?_map, Option.map_eq_some_iff] at h
    obtain ⟨i, hi, rfl⟩ := h
    obtain ⟨hlt, rfl⟩ := List.getElem?_eq_some_iff.mp hi
    rw [List.length_range] at hlt
    rw [List.getElem_range]
    exact ⟨hlt.trans_le hk, rfl⟩
  refine ⟨fun n a h => ?_, fun n a h hT => ?_, fun i j a hi hj => ?_⟩
  · have := hnth n a h
    omega
  · have := hnth n a h
    have := blankMachine_tables.2 _ hT
    omega
  · have := hnth i a hi
    have := hnth j a hj
    omega

theorem blankMachine_fresh : Fresh blankMachine := fresh_of_blank 5 (by decide)

/-- With frames for three pages in two tables. -/
def rangeMachine : Machine (List ℕ) :=
  { blankMachine with frames := [0x2000, 0x3000, 0x4000, 0x5000, 0x6000, 0x7000, 0x8000] }

theorem kmmap_maps_range_blank : ∃ m', kmmap 0x1FF800 0x2000 2 rangeMachine = .ok m' ∧
    WellFormed m'.mem m'.root ∧ (∀ P, 511 ≤ P → P ≤ 513 → leaf m'.mem m'.root P ≠ 0) ∧
    leaf m'.mem m'.root 511 ≠ leaf m'.mem m'.root 513 := by
  have hget : kmmap 0x1FF800 0x2000 2 rangeMachine ≠ .error .outOfMemory := ne_error_of_isOk (by decide +kernel) _
  obtain ⟨m', -, hrun, -, hwf, -, hmapped, -, hdistinct, -⟩ := kmmap_maps_range (m := rangeMachine)
    blankMachine_tables.1 (fresh_of_blank 7 (by decide)) rfl ⟨by decide, by decide⟩ (by omega)
    (fun P => Meets.slot_ne (.inl (by decide))) hget
  have hmeets (P : ℕ) (hlow : 511 ≤ P) (hhigh : P ≤ 513) : Meets 0x1FF800 0x2000 P := meets_iff.mpr (by omega)
  refine ⟨m', hrun, hwf, fun P hlow hhigh => hmapped P (hmeets P hlow hhigh), fun he => ?_⟩
  have hsame := hdistinct 511 513 (hmeets _ (by decide) (by decide)) (hmeets _ (by decide) (by decide))
    (by decide +kernel) (by decide +kernel) he
  cases hsame

end Blank

end Raccoon.Mmu
