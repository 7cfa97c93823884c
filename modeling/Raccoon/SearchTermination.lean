import Raccoon.SearchReturns
import Raccoon.Kmmap

/-!
Which searches return. `search_empty_space` needs an unused entry in the page
table it goes down to, `search_available` a stretch of them, and `get_size`
circles in a table without used entries until the size reaches the stop value,
which it never does within one unit of `2^64`.
-/

namespace Raccoon.Mmu

open TableTree Loops Outcome Machine Level FreeRuns

section Termination

variable {A : Type} {m : Machine A} {l : Level} {a s stop : ℕ}

/-- The first used entry, counted around the table of level `l` from the entry of `a`, is the `c`-th. -/
def FirstUsed (m : Machine A) (l : Level) (a c : ℕ) : Prop :=
  entryAt m l (l.rotate a c) ≠ 0 ∧ ∀ c' < c, entryAt m l (l.rotate a c') = 0

def Blank (m : Machine A) (q : List ℕ) : Prop := ∀ j < 512, tableEntry m q j = 0

/-- `get_size` comes to a table without used entries and a stop value its size never reaches. -/
inductive Endless (m : Machine A) (stop : ℕ) : Level → ℕ → Prop where
  | blank {l : Level} {a : ℕ} (hblank : Blank m (l.path a)) (hstop : 2 ^ 64 - l.unit < stop) :
      Endless m stop l a
  | down {l : Level} {a c : ℕ} (hne : l ≠ plm1) (hc : FirstUsed m l a c)
      (h : Endless m stop l.inner (l.rotate a c)) : Endless m stop l a

theorem Endless.large (h : Endless m stop l a) : 2 ^ 63 < stop := by
  induction h with
  | @blank l _ _ hstop =>
    cases l <;> simp only [unit, shift] at hstop <;> omega
  | down _ _ _ ih => exact ih

theorem FirstUsed.unique {c c' : ℕ} (h : FirstUsed m l a c) (h' : FirstUsed m l a c') : c = c' := by
  rcases Nat.lt_trichotomy c c' with hlt | he | hgt
  · exact absurd (h'.2 c hlt) h.1
  · exact he
  · exact absurd (h.2 c' hgt) h'.1

theorem blank_iff : Blank m (l.path a) ↔ ∀ c, entryAt m l (l.rotate a c) = 0 := by
  constructor
  · intro h c
    rw [entryAt_rotate]
    exact h _ (Nat.mod_lt _ (by decide))
  · intro h j hj
    have hi := l.index_lt a
    have hc := h (j + 512 - l.index a)
    rw [entryAt_rotate] at hc
    have hj' : (l.index a + (j + 512 - l.index a)) % 512 = j := by omega
    rwa [hj'] at hc

theorem firstUsed_or_blank : (∃ c < 512, FirstUsed m l a c) ∨ Blank m (l.path a) := by
  by_cases h : ∃ c, entryAt m l (l.rotate a c) ≠ 0
  · obtain ⟨c, hc, hmin⟩ := exists_first h
    refine .inl ⟨c, ?_, hc, fun c' hc' => not_not.mp (hmin c' hc')⟩
    -- entries 512 apart are the same, so the first used one is less than a table away
    by_contra hge
    refine hmin (c % 512) (by omega) ?_
    rw [entryAt_rotate] at hc ⊢
    rwa [Nat.add_mod_mod]
  · rw [not_exists] at h
    exact .inr (blank_iff.mpr fun c => not_not.mp (h c))

/-- The size after `c` unused entries of one level. -/
def sizeAfter (l : Level) (s c : ℕ) : ℕ := (s + c * l.unit) % 2 ^ 64

theorem sizeAfter_zero (h : s < 2 ^ 64) : sizeAfter l s 0 = s := by
  rw [sizeAfter, Nat.zero_mul, Nat.add_zero, Nat.mod_eq_of_lt h]

theorem wadd_sizeAfter (c : ℕ) : wadd (sizeAfter l s c) l.unit = sizeAfter l s (c + 1) := by
  rw [wadd, sizeAfter, sizeAfter, Nat.mod_add_mod, Nat.succ_mul, Nat.add_assoc]

theorem getSize_step (hwf : WellFormed m.mem m.root) (hl : Live pageTables m.mem m.root (l.path a)) (c : ℕ) :
    scanStep (getSizeVisit stop) id m ⟨l, l.rotate a c, sizeAfter l s c⟩ =
      if entryAt m l (l.rotate a c) = 0 then
        if stop ≤ sizeAfter l s (c + 1) then .done (sizeAfter l s (c + 1))
        else .next ⟨l, l.rotate a (c + 1), sizeAfter l s (c + 1)⟩
      else if l = plm1 then .done (sizeAfter l s c)
      else .next ⟨l.inner, l.rotate a c, sizeAfter l s c⟩ := by
  rw [scanStep_of_live _ _ _ hwf ((live_rotate c).mpr hl), getSizeVisit, wadd_sizeAfter, bump_rotate]
  split_ifs <;> rfl

theorem getSize_blank (hwf : WellFormed m.mem m.root) (hl : Live pageTables m.mem m.root (l.path a))
    (hs : s % l.unit = 0) (hlt : s < 2 ^ 64) (hblank : Blank m (l.path a)) :
    (∃ r, Returns (scanStep (getSizeVisit stop) id m) ⟨l, a, s⟩ r) ↔ stop ≤ 2 ^ 64 - l.unit := by
  have hzero := blank_iff.mp hblank
  have hseq (r : ℕ) := returns_seq_iff (scanStep (getSizeVisit stop) id m) (r := r)
    (fun c => ⟨l, l.rotate a c, sizeAfter l s c⟩) (fun c => stop ≤ sizeAfter l s (c + 1))
    (fun c => sizeAfter l s (c + 1))
    (fun c _ hc => by rw [getSize_step hwf hl, if_pos (hzero c), if_pos hc])
    (fun c _ hc => by rw [getSize_step hwf hl, if_pos (hzero c), if_neg hc])
  rw [rotate_zero, sizeAfter_zero hlt] at hseq
  simp only [hseq]
  obtain ⟨M, hM, htwo⟩ : ∃ M, 2 ^ 64 = l.unit * M ∧ 2 ≤ M := by
    cases l
    exacts [⟨2 ^ 25, by decide⟩, ⟨2 ^ 34, by decide⟩, ⟨2 ^ 43, by decide⟩, ⟨2 ^ 52, by decide⟩]
  obtain ⟨k, rfl⟩ := Nat.dvd_of_mod_eq_zero hs
  have hsize (c : ℕ) : sizeAfter l (l.unit * k) c = l.unit * ((k + c) % M) := by
    rw [sizeAfter, hM, Nat.mul_comm c, ← Nat.mul_add, Nat.mul_mod_mul_left]
  have hlast : 2 ^ 64 - l.unit = l.unit * (M - 1) := by rw [hM, Nat.mul_sub_one]
  rw [hlast]
  constructor
  · rintro ⟨r, c, hc, -⟩
    rw [hsize] at hc
    exact hc.trans (Nat.mul_le_mul_left _ (Nat.le_sub_one_of_lt (Nat.mod_lt _ (by omega))))
  · intro hle
    have hk : k < M := by
      rw [hM] at hlt
      exact Nat.lt_of_mul_lt_mul_left hlt
    obtain ⟨c, hc, hmin⟩ := exists_first (P := fun c => stop ≤ sizeAfter l (l.unit * k) (c + 1))
      ⟨2 * M - 2 - k, by
        have he : (k + (2 * M - 2 - k + 1)) % M = M - 1 := by
          have : k + (2 * M - 2 - k + 1) = M + (M - 1) := by omega
          rw [this, Nat.add_mod_left, Nat.mod_eq_of_lt (by omega)]
        rwa [hsize, he]⟩
    exact ⟨_, c, hc, hmin, rfl⟩

/-- `s` is a multiple of the unit, as small as the levels above leave it. -/
structure Counted (l : Level) (s : ℕ) : Prop where
  unit : s % l.unit = 0
  bound : s + 512 * l.unit ≤ 2 ^ 48

/-- Induction from the page tables up. -/
theorem Level.inner_induction {P : Level → Prop} (step : ∀ l, (l ≠ plm1 → P l.inner) → P l) (l : Level) : P l := by
  have h1 : P plm1 := step plm1 fun hne => absurd rfl hne
  have h2 : P plm2 := step plm2 fun _ => h1
  have h3 : P plm3 := step plm3 fun _ => h2
  cases l with
  | plm4 => exact step plm4 fun _ => h3
  | plm3 => exact h3
  | plm2 => exact h2
  | plm1 => exact h1

theorem unit_inner (h : l ≠ plm1) : l.unit = 512 * l.inner.unit := by
  cases l <;> first | rfl | exact absurd rfl h

theorem Counted.sizeAfter_eq (h : Counted l s) {c : ℕ} (hc : c ≤ 512) : sizeAfter l s c = s + c * l.unit := by
  have hle := Nat.mul_le_mul_right l.unit hc
  have := h.bound
  rw [sizeAfter, Nat.mod_eq_of_lt]
  omega

theorem Counted.inner (h : Counted l s) (hne : l ≠ plm1) {c : ℕ} (hc : c < 512) :
    Counted l.inner (s + c * l.unit) := by
  have hu := unit_inner hne
  have hdvd : l.inner.unit ∣ l.unit := ⟨512, by rw [hu, Nat.mul_comm]⟩
  constructor
  · exact Nat.mod_eq_zero_of_dvd
      (Nat.dvd_add (Nat.dvd_trans hdvd (Nat.dvd_of_mod_eq_zero h.unit)) (Nat.dvd_mul_left_of_dvd hdvd c))
  · have hle := Nat.mul_le_mul_right l.unit (Nat.succ_le_of_lt hc)
    have := h.bound
    rw [Nat.succ_mul] at hle
    omega

variable (stop) in
/-- The unused entries before the first used one, at index `c`: the size reaches the stop value on them, or the
search is at the used entry with all of them counted. -/
theorem getSize_unused (hwf : WellFormed m.mem m.root) (hl : Live pageTables m.mem m.root (l.path a))
    (hs : Counted l s) {c : ℕ} (hc : c < 512) (hused : FirstUsed m l a c) :
    (∃ c' < c, stop ≤ s + (c' + 1) * l.unit ∧ ∀ r, Returns (scanStep (getSizeVisit stop) id m) ⟨l, a, s⟩ r ↔
      r = s + (c' + 1) * l.unit) ∨
    ((∀ c' < c, s + (c' + 1) * l.unit < stop) ∧ ∀ r, Returns (scanStep (getSizeVisit stop) id m) ⟨l, a, s⟩ r ↔
      if l = plm1 then r = s + c * l.unit
      else Returns (scanStep (getSizeVisit stop) id m) ⟨l.inner, l.rotate a c, s + c * l.unit⟩ r) := by
  have hupos : 0 < l.unit := Nat.two_pow_pos _
  have hlt : s < 2 ^ 64 := by have := hs.bound; omega
  have hstart : ((⟨l, l.rotate a 0, sizeAfter l s 0⟩ : ScanState ℕ)) = ⟨l, a, s⟩ := by
    rw [rotate_zero, sizeAfter_zero hlt]
  have hstep {c' : ℕ} (hc' : c' < c) : scanStep (getSizeVisit stop) id m ⟨l, l.rotate a c', sizeAfter l s c'⟩ =
      if stop ≤ s + (c' + 1) * l.unit then .done (s + (c' + 1) * l.unit)
      else .next ⟨l, l.rotate a (c' + 1), sizeAfter l s (c' + 1)⟩ := by
    rw [getSize_step hwf hl, if_pos (hused.2 c' hc'), hs.sizeAfter_eq (show c' + 1 ≤ 512 by omega)]
  by_cases hearly : ∃ c' < c, stop ≤ s + (c' + 1) * l.unit
  · obtain ⟨c', ⟨hlt', hstop⟩, hmin⟩ := exists_first hearly
    have hreach := reaches_seq (scanStep (getSizeVisit stop) id m)
      (fun c => ⟨l, l.rotate a c, sizeAfter l s c⟩) c' fun c'' hc'' => by
        rw [hstep (hc''.trans hlt'), if_neg fun h => hmin c'' hc'' ⟨hc''.trans hlt', h⟩]
    rw [hstart] at hreach
    refine .inl ⟨c', hlt', hstop, fun r => ?_⟩
    rw [hreach.returns_iff, returns_done_iff ((hstep hlt').trans (if_pos hstop))]
  · have hbelow : ∀ c' < c, s + (c' + 1) * l.unit < stop := fun c' hc' =>
      Nat.lt_of_not_le fun h => hearly ⟨c', hc', h⟩
    have hreach := reaches_seq (scanStep (getSizeVisit stop) id m)
      (fun c => ⟨l, l.rotate a c, sizeAfter l s c⟩) c fun c'' hc'' => by
        rw [hstep hc'', if_neg (Nat.not_le.mpr (hbelow c'' hc''))]
    rw [hstart] at hreach
    have hlast : scanStep (getSizeVisit stop) id m ⟨l, l.rotate a c, sizeAfter l s c⟩ = _ := getSize_step hwf hl c
    rw [if_neg hused.1, hs.sizeAfter_eq hc.le] at hlast
    refine .inr ⟨hbelow, fun r => ?_⟩
    rw [hreach.returns_iff, hs.sizeAfter_eq hc.le]
    by_cases hne : l = plm1
    · rw [if_pos hne] at hlast
      rw [if_pos hne, returns_done_iff hlast]
    · rw [if_neg hne] at hlast
      rw [if_neg hne, returns_of_next hlast]

theorem getSize_returns_step (hwf : WellFormed m.mem m.root) (hl : Live pageTables m.mem m.root (l.path a))
    (hs : Counted l s)
    (ih : ∀ a s, l ≠ plm1 → Live pageTables m.mem m.root (l.inner.path a) → Counted l.inner s →
      ((∃ r, Returns (scanStep (getSizeVisit stop) id m) ⟨l.inner, a, s⟩ r) ↔ ¬ Endless m stop l.inner a)) :
    (∃ r, Returns (scanStep (getSizeVisit stop) id m) ⟨l, a, s⟩ r) ↔ ¬ Endless m stop l a := by
  have hupos : 0 < l.unit := Nat.two_pow_pos _
  have hlt : s < 2 ^ 64 := by have := hs.bound; omega
  rcases firstUsed_or_blank (m := m) (l := l) (a := a) with ⟨c, hc, hused⟩ | hblank
  · have hnot : ¬ Blank m (l.path a) := fun hb => hused.1 (blank_iff.mp hb c)
    rcases getSize_unused stop hwf hl hs hc hused with ⟨c', hlt', hstop, hret⟩ | ⟨-, hret⟩
    · -- the size reaches the stop value before a used entry
      refine iff_of_true ⟨_, (hret _).mpr rfl⟩ fun hend => ?_
      have hle := Nat.mul_le_mul_right l.unit (show c' + 1 ≤ 512 by omega)
      have := hend.large
      have := hs.bound
      omega
    · simp only [hret]
      by_cases hne : l = plm1
      · simp only [hne, if_true]
        refine iff_of_true ⟨_, rfl⟩ fun hend => ?_
        cases hne
        cases hend with
        | blank hb => exact hnot hb
        | down h => exact h rfl
      · have hlive : Live pageTables m.mem m.root (l.inner.path (l.rotate a c)) :=
          (live_inner hne).mpr ⟨(live_rotate c).mpr hl, hused.1⟩
        simp only [hne, if_false]
        rw [ih _ _ hne hlive (hs.inner hne hc)]
        refine not_congr ⟨fun h => .down hne hused h, fun hend => ?_⟩
        cases hend with
        | blank hb => exact absurd hb hnot
        | down _ hc' h => exact hc'.unique hused ▸ h
  · rw [getSize_blank hwf hl hs.unit hlt hblank]
    constructor
    · intro hle hend
      cases hend with
      | blank _ hstop => omega
      | down _ hc _ => exact hc.1 (blank_iff.mp hblank _)
    · intro hend
      by_contra hgt
      exact hend (.blank hblank (by omega))

theorem getSize_returns_iff (hwf : WellFormed m.mem m.root) (hl : Live pageTables m.mem m.root (l.path a))
    (hs : Counted l s) :
    (∃ r, Returns (scanStep (getSizeVisit stop) id m) ⟨l, a, s⟩ r) ↔ ¬ Endless m stop l a := by
  induction l using Level.inner_induction generalizing a s with
  | step l ih => exact getSize_returns_step hwf hl hs fun a s hne hl hs => ih hne hl hs

variable {base size r : ℕ}

theorem around_free_iff {n : ℕ} : (∃ c, RunEnds (fun i => around m base i = 0) n c) ↔
    ∃ i < 512, ∀ j ≤ n, tableEntry m (plm1.path base) ((i + j) % 512) = 0 := by
  have hi := plm1.index_lt base
  constructor
  · rintro ⟨c, hn, hfree⟩
    refine ⟨(plm1.index base + (c - n)) % 512, Nat.mod_lt _ (by decide), fun j hj => ?_⟩
    have he : ((plm1.index base + (c - n)) % 512 + j) % 512 = (plm1.index base + (c - (n - j))) % 512 := by omega
    rw [he]
    exact hfree (n - j) (Nat.sub_le _ _)
  · rintro ⟨i, hlt, hfree⟩
    refine ⟨i + 512 - plm1.index base + n, by omega, fun j hj => ?_⟩
    have he : (plm1.index base + (i + 512 - plm1.index base + n - j)) % 512 = (i + (n - j)) % 512 := by omega
    change tableEntry m (plm1.path base) _ = 0
    rw [he]
    exact hfree (n - j) (Nat.sub_le _ _)

theorem searchEmptySpace_returns (hwf : WellFormed m.mem m.root) : (∃ r, SearchEmptySpace m base r) ↔
    (Live pageTables m.mem m.root (plm1.path base) → ∃ j < 512, tableEntry m (plm1.path base) j = 0) := by
  simp only [searchEmptySpace_iff hwf]
  by_cases hl : Live pageTables m.mem m.root (plm1.path base)
  · have hfree : (∃ c, around m base c = 0) ↔ ∃ j < 512, tableEntry m (plm1.path base) j = 0 := by
      have hi := plm1.index_lt base
      refine ⟨fun ⟨c, hc⟩ => ⟨_, Nat.mod_lt _ (by decide), hc⟩,
        fun ⟨j, hj, hz⟩ => ⟨j + 512 - plm1.index base, ?_⟩⟩
      have he : (plm1.index base + (j + 512 - plm1.index base)) % 512 = j := by omega
      change tableEntry m (plm1.path base) _ = 0
      rwa [he]
    simp only [hl, not_true_eq_false, false_and, true_and, false_or, true_imp_iff, ← hfree]
    constructor
    · rintro ⟨r, c, hc, -⟩
      exact ⟨c, hc⟩
    · intro h
      obtain ⟨c, hc, hmin⟩ := exists_first h
      exact ⟨_, c, hc, hmin, rfl⟩
  · simp [hl]

theorem searchAvailable_returns (hwf : WellFormed m.mem m.root) : (∃ r, SearchAvailable m base size r) ↔
    (Live pageTables m.mem m.root (plm1.path base) →
      ∃ i < 512, ∀ j ≤ pageNum size, tableEntry m (plm1.path base) ((i + j) % 512) = 0) := by
  simp only [searchAvailable_iff hwf]
  by_cases hl : Live pageTables m.mem m.root (plm1.path base)
  · simp only [hl, not_true_eq_false, false_and, true_and, false_or, true_imp_iff, ← around_free_iff,
      ← exists_firstRun]
    exact ⟨fun ⟨_, c, hc, _⟩ => ⟨c, hc⟩, fun ⟨c, hc⟩ => ⟨_, c, hc, rfl⟩⟩
  · simp [hl]

/-- The searches all return exactly when the page table of the base, if there is one, has a stretch of
unused entries around it that is one longer than the size, and `get_size` meets no blank table with a
stop value out of reach. No loop condition ever fails, so none of them ends at the top. -/
theorem searches_return_iff (hwf : WellFormed m.mem m.root) (base size stop : ℕ) :
    ((∃ r, SearchEmptySpace m base r) ∧ (∃ r, SearchAvailable m base size r) ∧ (∃ r, GetSize m base stop r) ↔
      (Live pageTables m.mem m.root (plm1.path base) →
        ∃ i < 512, ∀ j ≤ pageNum size, tableEntry m (plm1.path base) ((i + j) % 512) = 0) ∧
      ¬ Endless m stop plm4 base) ∧
    ∀ (l : Level) (a : ℕ), l.index a < archNEntry := by
  refine ⟨?_, fun l a => l.index_lt a⟩
  have hsize : (∃ r, GetSize m base stop r) ↔ ¬ Endless m stop plm4 base :=
    getSize_returns_iff hwf live_nil ⟨by decide, by decide⟩
  rw [searchEmptySpace_returns hwf, searchAvailable_returns hwf, hsize]
  refine ⟨fun h => h.2, fun h => ⟨fun hl => ?_, h⟩⟩
  obtain ⟨i, hi, hfree⟩ := h.1 hl
  have := hfree 0 (Nat.zero_le _)
  exact ⟨i, hi, by rwa [Nat.add_zero, Nat.mod_eq_of_lt hi] at this⟩

end Termination

theorem searches_return_blank : (∃ r, SearchEmptySpace blankMachine 0x8000000000 r) ∧
    (∃ r, SearchAvailable blankMachine 0x8000000000 0x1000 r) ∧
    ∃ r, GetSize blankMachine 0x8000000000 0x1000 r :=
  (searches_return_iff blankMachine_tables.1 0x8000000000 0x1000 0x1000).1.mpr
    ⟨fun hl => absurd hl (by decide), fun h => absurd h.large (by decide)⟩

section Branch

/-- Memory with two page tables for the first four megabytes of slot 1, filled by `g`. -/
def branchMem (g : ℕ → ℕ → ℕ) : PhysMem := fun x =>
  if x = 0x1190 then 0x1003
  else if x = 0x1008 then 0x2003
  else if x = 0x2000 then 0x3003
  else if x = 0x3000 then 0x4003
  else if x = 0x3008 then 0x5003
  else if 0x4000 ≤ x ∧ x < 0x6000 then g (x / 4096 - 4) (x % 4096 / 8)
  else 0

def branchMachine (g : ℕ → ℕ → ℕ) (frames : List ℕ) : Machine (List ℕ) := ⟨branchMem g, 0x1000, frames, 0⟩

variable {g : ℕ → ℕ → ℕ}

theorem branchMem_root {i : ℕ} (hi : i < 512) (hne : i ≠ recursiveMappingEntry) :
    branchMem g (4096 * 1 + 8 * i) = if i = 1 then 0x2003 else 0 := by
  unfold recursiveMappingEntry at hne
  unfold branchMem
  split_ifs <;> omega

theorem branchMem_l3 {i : ℕ} (hi : i < 512) : branchMem g (4096 * 2 + 8 * i) = if i = 0 then 0x3003 else 0 := by
  unfold branchMem
  split_ifs <;> omega

theorem branchMem_l2 {i : ℕ} (hi : i < 512) : branchMem g (4096 * 3 + 8 * i) =
    if i = 0 then 0x4003 else if i = 1 then 0x5003 else 0 := by
  unfold branchMem
  split_ifs <;> omega

theorem branchMem_l1 {t i : ℕ} (ht : t < 2) (hi : i < 512) : branchMem g (4096 * (4 + t) + 8 * i) = g t i := by
  have hd : (4096 * (4 + t) + 8 * i) / 4096 - 4 = t := by omega
  have hm : (4096 * (4 + t) + 8 * i) % 4096 / 8 = i := by omega
  unfold branchMem
  rw [if_neg (by omega), if_neg (by omega), if_neg (by omega), if_neg (by omega), if_neg (by omega),
    if_pos (by omega), hd, hm]

theorem branchMem_self : branchMem g (4096 * 1 + 8 * recursiveMappingEntry) = 0x1003 := rfl

theorem branchMem_tables {q : List ℕ} (hq : Proper q) (hl : Live pageTables (branchMem g) 1 q) :
    (q = [] ∧ follow pageTables (branchMem g) 1 q = 1) ∨ (q = [1] ∧ follow pageTables (branchMem g) 1 q = 2) ∨
    (q = [1, 0] ∧ follow pageTables (branchMem g) 1 q = 3) ∨
    ∃ t < 2, q = [1, 0, t] ∧ follow pageTables (branchMem g) 1 q = 4 + t := by
  have h1 : frameOf 0x2003 = 2 := by decide
  have h2 : frameOf 0x3003 = 3 := by decide
  have h3 : frameOf 0x4003 = 4 := by decide
  have h4 : frameOf 0x5003 = 5 := by decide
  rcases q with _ | ⟨i, q⟩
  · exact .inl ⟨rfl, rfl⟩
  have hi : i < 512 := hq.index i (by simp)
  have hne : i ≠ recursiveMappingEntry := by simpa using hq.head
  rw [live_cons, pageTables_cell, pageTables_child, branchMem_root hi hne] at hl
  obtain rfl : i = 1 := by
    by_contra hc
    exact hl.1 (if_neg hc)
  rw [follow_cons, pageTables_cell, pageTables_child, branchMem_root hi hne, if_pos rfl, h1]
  rw [if_pos rfl, h1] at hl
  rcases q with _ | ⟨j, q⟩
  · exact .inr (.inl ⟨rfl, rfl⟩)
  have hj : j < 512 := hq.index j (by simp)
  rw [live_cons, pageTables_cell, pageTables_child, branchMem_l3 hj] at hl
  obtain rfl : j = 0 := by
    by_contra hc
    exact hl.2.1 (if_neg hc)
  rw [follow_cons, pageTables_cell, pageTables_child, branchMem_l3 hj, if_pos rfl, h2]
  rw [if_pos rfl, h2] at hl
  rcases q with _ | ⟨t, q⟩
  · exact .inr (.inr (.inl ⟨rfl, rfl⟩))
  have ht : t < 512 := hq.index t (by simp)
  obtain rfl : q = [] := by
    have := hq.length
    simp only [List.length_cons] at this
    exact List.eq_nil_of_length_eq_zero (by omega)
  rw [live_cons, pageTables_cell, pageTables_child, branchMem_l2 ht] at hl
  rw [follow_cons, pageTables_cell, pageTables_child, branchMem_l2 ht, follow_nil]
  refine .inr (.inr (.inr ?_))
  by_cases h0 : t = 0
  · subst h0
    exact ⟨0, by decide, rfl, h3⟩
  · by_cases h1 : t = 1
    · subst h1
      exact ⟨1, by decide, rfl, h4⟩
    · rw [if_neg h0, if_neg h1] at hl
      exact absurd rfl hl.2.2.1

theorem branchMem_wellFormed : WellFormed (branchMem g) 1 := by
  refine ⟨⟨by rw [branchMem_self]; decide, by rw [branchMem_self]; decide⟩, fun q i hq hl hne => ?_,
    fun q r hq hr hlq hlr he => ?_⟩
  · have hi := hq.last
    rcases branchMem_tables (hq.initial (List.prefix_append _ _)) hl with
      ⟨rfl, hf⟩ | ⟨rfl, hf⟩ | ⟨rfl, hf⟩ | ⟨t, -, rfl, -⟩
    · have hslot : i ≠ recursiveMappingEntry := by simpa using hq.head
      rw [hf, branchMem_root hi hslot] at hne ⊢
      obtain rfl := (ite_ne_right_iff.mp hne).1
      decide
    · rw [hf, branchMem_l3 hi] at hne ⊢
      obtain rfl := (ite_ne_right_iff.mp hne).1
      decide
    · rw [hf, branchMem_l2 hi] at hne ⊢
      by_cases h0 : i = 0
      · rw [if_pos h0]
        decide
      · rw [if_neg h0] at hne ⊢
        obtain rfl := (ite_ne_right_iff.mp hne).1
        decide
    · exact absurd hq.length (by simp)
  · rcases branchMem_tables hq hlq with ⟨rfl, hf⟩ | ⟨rfl, hf⟩ | ⟨rfl, hf⟩ | ⟨t, ht, rfl, hf⟩ <;>
      rcases branchMem_tables hr hlr with ⟨rfl, hg⟩ | ⟨rfl, hg⟩ | ⟨rfl, hg⟩ | ⟨u, hu, rfl, hg⟩ <;>
      have hfg := hf.symm.trans (he.trans hg) <;>
      first | rfl | omega | (obtain rfl : t = u := by omega); rfl

theorem branchMem_path {t : ℕ} (ht : t < 2) : Live pageTables (branchMem g) 1 [1, 0, t] ∧
    follow pageTables (branchMem g) 1 [1, 0, t] = 4 + t := by
  have h1 : branchMem g (4096 * 1 + 8 * 1) = 0x2003 := branchMem_root (by decide) (by decide)
  have h2 : branchMem g (4096 * 2 + 8 * 0) = 0x3003 := branchMem_l3 (by decide)
  have h3 := branchMem_l2 (g := g) (show t < 512 by omega)
  have hf1 : frameOf 0x2003 = 2 := by decide
  have hf2 : frameOf 0x3003 = 3 := by decide
  simp only [live_cons, live_nil, follow_cons, follow_nil, pageTables_cell, pageTables_child, h1, h2, h3, hf1, hf2]
  rcases (show t = 0 ∨ t = 1 by omega) with rfl | rfl <;> decide

theorem branch_mem (frames : List ℕ) : (branchMachine g frames).mem = branchMem g := rfl

theorem branch_root (frames : List ℕ) : (branchMachine g frames).root = 1 := by
  change frameOf 0x1000 = 1
  decide

theorem branch_wellFormed (frames : List ℕ) :
    WellFormed (branchMachine g frames).mem (branchMachine g frames).root := by
  rw [branch_mem, branch_root]
  exact branchMem_wellFormed

theorem branch_live {t : ℕ} (frames : List ℕ) (ht : t < 2) :
    Live pageTables (branchMachine g frames).mem (branchMachine g frames).root [1, 0, t] := by
  rw [branch_mem, branch_root]
  exact (branchMem_path ht).1

theorem branch_entry {t j : ℕ} (frames : List ℕ) (ht : t < 2) (hj : j < 512) :
    tableEntry (branchMachine g frames) [1, 0, t] j = g t j := by
  rw [tableEntry, branch_root, branch_mem, (branchMem_path ht).2, branchMem_l1 ht hj]

/-- From the start of a full page table no search for an unused entry returns. -/
theorem searches_stuck : ¬ ∀ (m : Machine (List ℕ)) (base size stop : ℕ), WellFormed m.mem m.root →
    (∃ r, SearchEmptySpace m base r) ∧ (∃ r, SearchAvailable m base size r) ∧ ∃ r, GetSize m base stop r := by
  intro hall
  have hwf := branch_wellFormed (g := fun _ _ => 0x6003) []
  have hpath : plm1.path 0x8000000000 = [1, 0, 0] := by decide
  obtain ⟨j, hj, hz⟩ := (searchEmptySpace_returns hwf).mp (hall _ 0x8000000000 0x1000 0x1000 hwf).1
    (hpath ▸ branch_live [] (by decide))
  rw [hpath, branch_entry [] (by decide) hj] at hz
  cases hz

end Branch

end Raccoon.Mmu
