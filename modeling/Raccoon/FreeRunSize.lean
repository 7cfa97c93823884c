import Raccoon.SearchAvailable

/-!
What `get_size` measures. It adds up the unused entries in front of the first
used one, in one table of each level, from the index that the base has there.
That is the free run at the base as long as every entry is counted where its
region lies and nothing is mapped in the parts of regions that are passed over.
-/

namespace Raccoon.Mmu

open TableTree Loops Outcome Machine Level

section Blocks

variable {A : Type} {m : Machine A} {l k : Level} {a x : ℕ}

theorem level_congr (h : x / l.unit = a / l.unit) : l.path x = l.path a ∧ l.index x = l.index a := by
  cases l <;> simp only [path, index, unit, shift, List.cons.injEq, and_true, true_and] at h ⊢ <;> omega

theorem upper_live (hlt : l.unit < k.unit) (hl : Live pageTables m.mem m.root (l.path a)) :
    Live pageTables m.mem m.root (k.path a) ∧ entryAt m k a ≠ 0 := by
  have h4 (h : Live pageTables m.mem m.root (plm3.path a)) := (live_inner (l := plm4) (by decide)).mp h
  have h3 (h : Live pageTables m.mem m.root (plm2.path a)) := (live_inner (l := plm3) (by decide)).mp h
  have h2 (h : Live pageTables m.mem m.root (plm1.path a)) := (live_inner (l := plm2) (by decide)).mp h
  cases k <;> cases l <;> first | exact absurd hlt (by decide) | skip
  · exact h4 hl
  · exact h4 (h3 hl).1
  · exact h4 (h3 (h2 hl).1).1
  · exact h3 hl
  · exact h3 (h2 hl).1
  · exact h2 hl

/-- No page below an unused entry is mapped. -/
theorem unmapped_of_unused (hz : entryAt m l a = 0) (hx : x / l.unit = a / l.unit) : Unmapped m x := by
  obtain ⟨hp, hi⟩ := level_congr hx
  have hzero : entryAt m l x = 0 := by rw [entryAt, hp, hi]; exact hz
  refine (unmapped_iff x).mpr fun hlive => ?_
  by_cases hne : l = plm1
  · exact hne ▸ hzero
  · have hlt : plm1.unit < l.unit := by cases l <;> first | exact absurd rfl hne | decide
    exact absurd hzero (upper_live hlt hlive).2

end Blocks

section Sizes

variable {A : Type} {m : Machine A} {l : Level} {a s stop r : ℕ}

/-- `get_size` ends on unused entries that reach the stop value, or gets to the first used entry below it. -/
theorem getSize_cases (hwf : WellFormed m.mem m.root) (hl : Live pageTables m.mem m.root (l.path a))
    (hs : Counted l s) (hlt : s < stop) (h : Returns (scanStep (getSizeVisit stop) id m) ⟨l, a, s⟩ r) :
    (∃ k, (∀ j < k, entryAt m l (l.rotate a j) = 0) ∧ stop ≤ s + k * l.unit ∧ stop ≤ r) ∨
    ∃ c < 512, FirstUsed m l a c ∧ s + c * l.unit < stop ∧
      if l = plm1 then r = s + c * l.unit
      else Returns (scanStep (getSizeVisit stop) id m) ⟨l.inner, l.rotate a c, s + c * l.unit⟩ r := by
  rcases firstUsed_or_blank (m := m) (l := l) (a := a) with ⟨c, hc, hused⟩ | hblank
  · rcases getSize_unused stop hwf hl hs hc hused with ⟨c', hlt', hstop, hret⟩ | ⟨hbelow, hret⟩
    · exact .inl ⟨c' + 1, fun j hj => hused.2 j (by omega), hstop, (hret r).mp h ▸ hstop⟩
    · have hcount : s + c * l.unit < stop := by
        cases c with
        | zero => rwa [Nat.zero_mul, Nat.add_zero]
        | succ c => exact hbelow c (Nat.lt_succ_self c)
      exact .inr ⟨c, hc, hused, hcount, (hret r).mp h⟩
  · -- without a used entry only the stop value ends the search
    have hspos : s < 2 ^ 64 := by
      have := hs.bound
      omega
    have hzero := blank_iff.mp hblank
    have hseq := returns_seq_iff (scanStep (getSizeVisit stop) id m) (r := r)
      (fun c => ⟨l, l.rotate a c, sizeAfter l s c⟩) (fun c => stop ≤ sizeAfter l s (c + 1))
      (fun c => sizeAfter l s (c + 1))
      (fun c _ hc => by rw [getSize_step hwf hl, if_pos (hzero c), if_pos hc])
      (fun c _ hc => by rw [getSize_step hwf hl, if_pos (hzero c), if_neg hc])
    rw [rotate_zero, sizeAfter_zero hspos] at hseq
    obtain ⟨c, hstop, -, rfl⟩ := hseq.mp h
    exact .inl ⟨c + 1, fun j _ => hzero j, hstop.trans (Nat.mod_le _ _), hstop⟩

theorem getSize_ge (hwf : WellFormed m.mem m.root) (hl : Live pageTables m.mem m.root (l.path a)) (hs : Counted l s)
    (hlt : s < stop) (h : Returns (scanStep (getSizeVisit stop) id m) ⟨l, a, s⟩ r) : s ≤ r := by
  induction l using Level.inner_induction generalizing a s with
  | step l ih =>
    rcases getSize_cases hwf hl hs hlt h with ⟨k, -, -, hr⟩ | ⟨c, hc, hused, hcount, hr⟩
    · omega
    · by_cases hne : l = plm1
      · rw [if_pos hne] at hr
        omega
      · rw [if_neg hne] at hr
        have hlive : Live pageTables m.mem m.root (l.inner.path (l.rotate a c)) :=
          (live_inner hne).mpr ⟨(live_rotate c).mpr hl, hused.1⟩
        have := ih hne hlive (hs.inner hne hc) hcount hr
        omega

end Sizes

section Layout

variable {A : Type} {m : Machine A} {l : Level} {limit a c e k s stop r x : ℕ}

/-- The end of the 48-bit space of an address. -/
def spaceTop (a : ℕ) : ℕ := (a / 2 ^ 48 + 1) * 2 ^ 48

theorem spaceTop_mono {b : ℕ} (h : a ≤ b) : spaceTop a ≤ spaceTop b :=
  Nat.mul_le_mul_right _ (Nat.succ_le_succ (Nat.div_le_div_right h))

theorem lt_spaceTop (a : ℕ) : a < spaceTop a := by
  unfold spaceTop
  omega

/-- Counting in place, from `a` in a table of level `l` to the first used leaf `e`, or to the limit if that comes first:
no count goes past the end of its table, in the region of a used entry that is come to from unused ones nothing is
mapped in front of the place where the count goes on, and nothing is mapped between the last region counted and the
limit. -/
inductive InPlace (m : Machine A) (limit : ℕ) : Level → ℕ → ℕ → Prop where
  | leaf {a c : ℕ} (hc : FirstUsed m plm1 a c) (hin : plm1.index a + c < 512) (hlt : a + c * plm1.unit < limit) :
      InPlace m limit plm1 a (a + c * plm1.unit)
  | down {l : Level} {a c e : ℕ} (hne : l ≠ plm1) (hc : FirstUsed m l a c) (hin : l.index a + c < 512)
      (hlt : a + c * l.unit < limit)
      (hpassed : c ≠ 0 → ∀ x, x / l.unit = a / l.unit + c → x < a + c * l.unit → Unmapped m x)
      (h : InPlace m limit l.inner (a + c * l.unit) e) : InPlace m limit l a e
  | covered {l : Level} {a k : ℕ} (hunused : ∀ j < k, entryAt m l (l.rotate a j) = 0) (hin : l.index a + k ≤ 512)
      (hreach : limit ≤ a + k * l.unit)
      (hrest : ∀ x, (a / l.unit + k) * l.unit ≤ x → x < limit → x < spaceTop a → Unmapped m x) :
      InPlace m limit l a limit

/-- The count comes to the end of a table, all of it unused from the index of the address on, with the limit further
on: it goes back to entry 0 of the table. -/
inductive Wraps (m : Machine A) (limit : ℕ) : Level → ℕ → Prop where
  | here {l : Level} {a : ℕ} (hunused : ∀ j, l.index a + j < 512 → entryAt m l (l.rotate a j) = 0)
      (hmore : a + (512 - l.index a) * l.unit < limit) : Wraps m limit l a
  | down {l : Level} {a c : ℕ} (hne : l ≠ plm1) (hc : FirstUsed m l a c) (hin : l.index a + c < 512)
      (hlt : a + c * l.unit < limit) (h : Wraps m limit l.inner (a + c * l.unit)) : Wraps m limit l a

theorem rotate_add (h : l.index a + c < 512) : l.rotate a c = a + c * l.unit := by
  cases l <;> simp only [rotate, assign, index, unit, shift] at h ⊢ <;> omega

theorem Level.unit_pos (l : Level) : 0 < l.unit := Nat.two_pow_pos _

theorem live_used (hne : l ≠ plm1) (hl : Live pageTables m.mem m.root (l.path a)) (hc : FirstUsed m l a c)
    (hin : l.index a + c < 512) : Live pageTables m.mem m.root (l.inner.path (a + c * l.unit)) := by
  rw [← rotate_add hin]
  exact (live_inner hne).mpr ⟨(live_rotate c).mpr hl, hc.1⟩

theorem aligned_add (ha : a % 4096 = 0) (l : Level) (c : ℕ) : (a + c * l.unit) % 4096 = 0 := by
  cases l <;> simp only [unit, shift] <;> omega

/-- The unused entries stand for pages that are not mapped, up to the region behind them. -/
theorem unmapped_before (hunused : ∀ j < k, entryAt m l (l.rotate a j) = 0) (hin : l.index a + k ≤ 512) (hax : a ≤ x)
    (hx : x / l.unit < a / l.unit + k) : Unmapped m x := by
  have hle : a / l.unit ≤ x / l.unit := Nat.div_le_div_right hax
  refine unmapped_of_unused (hunused (x / l.unit - a / l.unit) (by omega)) ?_
  rw [rotate_add (by omega), Nat.add_mul_div_right _ _ l.unit_pos]
  omega

/-- A used entry below the limit is not among unused ones that reach it. -/
theorem FirstUsed.not_covered (hc : FirstUsed m l a c) (hlt : a + c * l.unit < limit)
    (hunused : ∀ j < k, entryAt m l (l.rotate a j) = 0) (hreach : limit ≤ a + k * l.unit) : False := by
  refine hc.1 (hunused c ?_)
  by_contra hge
  have := Nat.mul_le_mul_right l.unit (Nat.le_of_not_lt hge)
  omega

/-- If the table below the entry of the address is there, the count goes straight down to it. -/
theorem InPlace.up (hne : l ≠ plm1) (hl : Live pageTables m.mem m.root (l.inner.path a)) (hlt : a < limit)
    (h : InPlace m limit l.inner a e) : InPlace m limit l a e := by
  have hsame : a + 0 * l.unit = a := by rw [Nat.zero_mul, Nat.add_zero]
  have hused : entryAt m l (l.rotate a 0) ≠ 0 := by
    rw [rotate_zero]
    exact ((live_inner hne).mp hl).2
  refine .down hne ⟨hused, fun _ hc => nomatch hc⟩ (l.index_lt a) (by rwa [hsame]) (absurd rfl) ?_
  rwa [hsame]

/-- Where the count ends: nothing is mapped up to there, and below the limit it is at a mapped page of the table. -/
theorem InPlace.free (h : InPlace m limit l a e) (hl : Live pageTables m.mem m.root (l.path a)) (ha : a % 4096 = 0)
    (hlt : a < limit) : (∀ x, a ≤ x → x < e → x < spaceTop a → Unmapped m x) ∧
      (e = limit ∨ (a ≤ e ∧ e < limit ∧ e / (512 * l.unit) = a / (512 * l.unit) ∧ ¬ Unmapped m e)) := by
  induction h with
  | @leaf a c hc hin hlt' =>
    refine ⟨fun x hax hx _ => unmapped_before hc.2 hin.le hax ?_, .inr ⟨Nat.le_add_right .., hlt', ?_, fun hun => ?_⟩⟩
    · simp only [unit, shift] at hx ⊢
      omega
    · simp only [index, unit, shift] at hin ⊢
      omega
    · rw [← rotate_add hin, unmapped_iff] at hun
      exact hc.1 (hun ((live_rotate c).mpr hl))
  | @down l a c e hne hc hin hlt' hpassed _ ih =>
    obtain ⟨hfree, hend⟩ := ih (live_used hne hl hc hin) (aligned_add ha l c) hlt'
    refine ⟨fun x hax hx htop => ?_, hend.imp id ?_⟩
    · rcases Nat.lt_or_ge x (a + c * l.unit) with hbefore | hafter
      · have hle : x / l.unit ≤ a / l.unit + c := by
          rw [← Nat.add_mul_div_right _ _ l.unit_pos]
          exact Nat.div_le_div_right hbefore.le
        rcases Nat.lt_or_ge (x / l.unit) (a / l.unit + c) with hless | hge
        · exact unmapped_before hc.2 hin.le hax hless
        · refine hpassed ?_ x (by omega) hbefore
          rintro rfl
          omega
      · exact hfree x hafter hx (htop.trans_le (spaceTop_mono (Nat.le_add_right ..)))
    · rintro ⟨hle, hless, hsame, hused⟩
      refine ⟨by omega, hless, ?_, hused⟩
      rw [← unit_inner hne] at hsame
      cases l <;> simp only [index, unit, shift] at hin hsame ⊢ <;> omega
  | @covered l a k hunused hin hreach hrest =>
    refine ⟨fun x hax hx htop => ?_, .inl rfl⟩
    rcases Nat.lt_or_ge (x / l.unit) (a / l.unit + k) with hless | hge
    · exact unmapped_before hunused hin hax hless
    · exact hrest x ((Nat.le_div_iff_mul_le l.unit_pos).mp hge) hx htop

/-- What `get_size` adds up in place. -/
theorem InPlace.size (hwf : WellFormed m.mem m.root) (h : InPlace m limit l a e)
    (hl : Live pageTables m.mem m.root (l.path a)) (hs : Counted l s) (hlimit : a + stop = limit + s) (hlt : a < limit)
    (hr : Returns (scanStep (getSizeVisit stop) id m) ⟨l, a, s⟩ r) :
    (e < limit ∧ a + r = e + s) ∨ (e = limit ∧ stop ≤ r) := by
  induction h generalizing s with
  | @leaf a c hc hin hlt' =>
    rcases getSize_cases hwf hl hs (by omega) hr with ⟨k, hunused, hreach, -⟩ | ⟨c', -, hc', -, hr⟩
    · exact (hc.not_covered hlt' hunused (by omega)).elim
    · obtain rfl := hc.unique hc'
      rw [if_pos rfl] at hr
      exact .inl ⟨hlt', by omega⟩
  | @down l a c e hne hc hin hlt' hpassed _ ih =>
    rcases getSize_cases hwf hl hs (by omega) hr with ⟨k, hunused, hreach, -⟩ | ⟨c', hlt'', hc', -, hr⟩
    · exact (hc.not_covered hlt' hunused (by omega)).elim
    · obtain rfl := hc.unique hc'
      rw [if_neg hne, rotate_add hin] at hr
      have hsum := ih (live_used hne hl hc hin) (hs.inner hne hlt'') (by omega) hlt' hr
      omega
  | @covered l a k hunused hin hreach hrest =>
    rcases getSize_cases hwf hl hs (by omega) hr with ⟨-, -, -, hstop⟩ | ⟨c, -, hc, hcount, -⟩
    · exact .inr ⟨rfl, hstop⟩
    · exact (hc.not_covered (by omega) hunused hreach).elim

/-- Unused entries that reach the limit are counted in place up to the end of the table. -/
theorem covered_or_wraps (hlt : a < limit) (hunused : ∀ j < k, entryAt m l (l.rotate a j) = 0)
    (hreach : limit ≤ a + k * l.unit) (hfree : ∀ x, a ≤ x → x < limit → x < spaceTop a → Unmapped m x) :
    (∃ e, InPlace m limit l a e) ∨ Wraps m limit l a := by
  have hindex := l.index_lt a
  rcases Nat.lt_or_ge (a + (512 - l.index a) * l.unit) limit with hmore | hin
  · refine .inr (.here (fun j hj => hunused j ?_) hmore)
    by_contra hge
    have := Nat.mul_le_mul_right l.unit (show k ≤ 512 - l.index a by omega)
    omega
  · have hmin : limit ≤ a + min k (512 - l.index a) * l.unit := by
      rcases Nat.le_total k (512 - l.index a) with hle | hle
      · rwa [Nat.min_eq_left hle]
      · rwa [Nat.min_eq_right hle]
    refine .inl ⟨limit, .covered (fun j hj => hunused j (by omega)) (by omega) hmin fun x hx hxl htop =>
      hfree x ?_ hxl htop⟩
    -- at least one region has been counted, and it ends behind `a`
    have hpos : 0 < min k (512 - l.index a) := by
      by_contra hzero
      rw [Nat.eq_zero_of_not_pos hzero] at hmin
      omega
    have hregion := Nat.lt_mul_div_succ a l.unit_pos
    have := Nat.mul_le_mul_right l.unit (show a / l.unit + 1 ≤ a / l.unit + min k (512 - l.index a) by omega)
    rw [Nat.mul_comm] at hregion
    omega

/-- If nothing is mapped in what has been counted, the count was in place, or has gone past the end of a table. -/
theorem inPlace_or_wraps (hwf : WellFormed m.mem m.root) (hl : Live pageTables m.mem m.root (l.path a))
    (hs : Counted l s) (hlimit : a + stop = limit + s) (hlt : a < limit)
    (hr : Returns (scanStep (getSizeVisit stop) id m) ⟨l, a, s⟩ r)
    (hfree : ∀ x, a ≤ x → x + s < a + r → x < limit → x < spaceTop a → Unmapped m x) :
    (∃ e, InPlace m limit l a e) ∨ Wraps m limit l a := by
  induction l using Level.inner_induction generalizing a s with
  | step l ih =>
    rcases getSize_cases hwf hl hs (by omega) hr with ⟨k, hunused, hreach, hstop⟩ | ⟨c, hc, hused, hcount, hr⟩
    · exact covered_or_wraps hlt hunused (by omega) fun x hx hxl htop => hfree x hx (by omega) hxl htop
    · rcases Nat.lt_or_ge (l.index a + c) 512 with hin | hout
      · have hlt' : a + c * l.unit < limit := by omega
        by_cases hne : l = plm1
        · subst hne
          exact .inl ⟨_, .leaf hused hin hlt'⟩
        · rw [if_neg hne, rotate_add hin] at hr
          have hlive := live_used hne hl hused hin
          have hcounted := hs.inner hne hc
          have hge := getSize_ge hwf hlive hcounted hcount hr
          have htop : spaceTop (a + c * l.unit) = spaceTop a := by
            cases l <;> simp only [spaceTop, index, unit, shift] at hin ⊢ <;> omega
          refine (ih hne hlive hcounted (by omega) hlt' hr fun x hax hx hxl hxt =>
            hfree x (by omega) (by omega) hxl (htop ▸ hxt)).imp ?_ fun hw => .down hne hused hin hlt' hw
          rintro ⟨e, he⟩
          refine ⟨e, .down hne hused hin hlt' (fun hpos x hx hxlt => hfree x ?_ (by omega) (by omega) ?_) he⟩
          · by_contra hlt''
            have := Nat.div_le_div_right (c := l.unit) (Nat.le_of_not_le hlt'')
            omega
          · exact htop ▸ hxlt.trans (lt_spaceTop _)
      · refine .inr (.here (fun j hj => hused.2 j (by omega)) ?_)
        have := Nat.mul_le_mul_right l.unit (show 512 - l.index a ≤ c by omega)
        omega

/-- A search that never returns goes around a table. -/
theorem Endless.wraps (h : Endless m stop l a) (hs : Counted l s) (hlimit : a + stop = limit + s) :
    Wraps m limit l a := by
  induction h generalizing s with
  | @blank l a hblank hstop =>
    refine .here (fun j _ => blank_iff.mp hblank j) ?_
    have hle := Nat.mul_le_mul_right l.unit (Nat.sub_le 512 (l.index a))
    have := hs.bound
    omega
  | @down l a c hne hc h ih =>
    have hbound := hs.bound
    have hlarge := h.large
    have hindex := l.index_lt a
    rcases Nat.lt_or_ge (l.index a + c) 512 with hin | hout
    · have hle := Nat.mul_le_mul_right l.unit (show c ≤ 512 by omega)
      rw [rotate_add hin] at ih
      have hcounted : Counted l.inner (s + c * l.unit) := hs.inner hne (by omega)
      exact .down hne hc hin (by omega) (ih hcounted (by omega))
    · refine .here (fun j hj => hc.2 j (by omega)) ?_
      have hle := Nat.mul_le_mul_right l.unit (Nat.sub_le 512 (l.index a))
      omega

end Layout

section Claim

variable {A : Type} {m : Machine A} {base stop s : ℕ}

/-- No page is mapped in the `d` bytes at the base. There is none behind the top. -/
def FreeFor (m : Machine A) (base d : ℕ) : Prop := ∀ x, base ≤ x → x < base + d → x < spaceTop base → Unmapped m x

/-- A mapped page, or the top. -/
def EndsAt (m : Machine A) (base d : ℕ) : Prop :=
  base + d = spaceTop base ∨ (base + d < spaceTop base ∧ ¬ Unmapped m (base + d))

/-- What `get_size` promises of the size that it returns. -/
structure FreeRun (m : Machine A) (base stop s : ℕ) : Prop where
  free : FreeFor m base (min s stop)
  ends : s < stop → EndsAt m base s

theorem InPlace.freeRun {e : ℕ} (hwf : WellFormed m.mem m.root) (hbase : base % 4096 = 0) (hpos : 0 < stop)
    (h : InPlace m (base + stop) plm4 base e) (hs : GetSize m base stop s) : FreeRun m base stop s := by
  obtain ⟨hfree, hend⟩ := h.free live_nil hbase (by omega)
  rcases h.size hwf live_nil ⟨by decide, by decide⟩ rfl (by omega) hs with ⟨hlt, he⟩ | ⟨rfl, hstop⟩
  · obtain rfl : e = base + s := by omega
    refine ⟨fun x hx hx' htop => hfree x hx (by omega) htop, fun _ => .inr ?_⟩
    rcases hend with he | ⟨-, -, hsame, hused⟩
    · omega
    · refine ⟨?_, hused⟩
      simp only [unit, shift] at hsame
      rw [spaceTop]
      omega
  · exact ⟨fun x hx hx' htop => hfree x hx (by omega) htop, fun hlt => absurd hstop (Nat.not_le.mpr hlt)⟩

/-- `get_size` measures the free run if it counts in place or never returns; and only then, short of a count that goes
around a table. -/
theorem getSize_freeRun_iff (hwf : WellFormed m.mem m.root) (hbase : base % 4096 = 0) (hpos : 0 < stop) :
    ((∃ e, InPlace m (base + stop) plm4 base e) ∨ Endless m stop plm4 base →
      ∀ s, GetSize m base stop s → FreeRun m base stop s) ∧
    ((∀ s, GetSize m base stop s → FreeRun m base stop s) →
      (∃ e, InPlace m (base + stop) plm4 base e) ∨ Wraps m (base + stop) plm4 base) := by
  have hcounted : Counted plm4 0 := ⟨by decide, by decide⟩
  have hreturns : (∃ s, GetSize m base stop s) ↔ ¬ Endless m stop plm4 base :=
    getSize_returns_iff hwf live_nil hcounted
  constructor
  · rintro (⟨e, he⟩ | hend) s hs
    · exact he.freeRun hwf hbase hpos hs
    · exact absurd hend (hreturns.mp ⟨s, hs⟩)
  · intro hall
    by_cases hend : Endless m stop plm4 base
    · exact .inr (hend.wraps hcounted rfl)
    · obtain ⟨s, hs⟩ := hreturns.mpr hend
      exact inPlace_or_wraps hwf live_nil hcounted rfl (by omega) hs fun x hx hx' hxl htop =>
        (hall s hs).free x hx (by omega) htop

end Claim

/-- The first pages of slot 1: two unused, and one in use. -/
def thirdUsed (t j : ℕ) : ℕ := if t = 0 ∧ j < 2 then 0 else 0x6003

/-- Slot 0 without tables and the two pages behind it. -/
theorem getSize_freeRun_slot : GetSize (branchMachine thirdUsed []) 0 0x10000000000 0x8000002000 ∧
    FreeRun (branchMachine thirdUsed []) 0 0x10000000000 0x8000002000 := by
  have hrun : GetSize (branchMachine thirdUsed []) 0 0x10000000000 0x8000002000 := ⟨7, by decide +kernel⟩
  refine ⟨hrun, (getSize_freeRun_iff (branch_wellFormed []) rfl (by decide)).1 (.inl ⟨0x8000002000, ?_⟩) _ hrun⟩
  have hlive : Live pageTables (branchMachine thirdUsed []).mem (branchMachine thirdUsed []).root
      (plm1.path 0x8000000000) := branch_live [] (by decide)
  have hpages : InPlace (branchMachine thirdUsed []) 0x10000000000 plm1 0x8000000000 0x8000002000 :=
    .leaf (c := 2) ⟨by decide +kernel, by decide +kernel⟩ (by decide) (by decide)
  refine .down (c := 1) (by decide) ⟨by decide +kernel, by decide +kernel⟩ (by decide) (by decide) ?_ ?_
  · intro _ x hx hlt
    simp only [unit, shift] at hx hlt
    omega
  · have htables : InPlace (branchMachine thirdUsed []) 0x10000000000 plm2 0x8000000000 0x8000002000 :=
      hpages.up (by decide) hlive (by decide)
    exact htables.up (by decide) (upper_live (l := plm1) (by decide) hlive).1 (by decide)

/-- The last page of slot 0, whose tables are missing, is measured as 512 gigabytes, up to the end of slot 1. -/
theorem getSize_overcounts : ¬ ∀ (m : Machine (List ℕ)) (base stop s : ℕ), WellFormed m.mem m.root →
    base % 4096 = 0 → 0 < stop → GetSize m base stop s → FreeRun m base stop s := by
  intro hall
  have hwf := branch_wellFormed (g := fun _ _ => 0x6003) []
  have hstep : scanStep (getSizeVisit 0x2000) id _ ⟨plm4, plm4.rotate 0x7ffffff000 0, sizeAfter plm4 0 0⟩ = _ :=
    getSize_step hwf live_nil 0
  rw [rotate_zero, if_pos (branch_slot0 [] (by decide)), if_pos (by decide)] at hstep
  have hrun := hall _ 0x7ffffff000 0x2000 _ hwf (by decide) (by decide) (returns_of_done hstep)
  exact branch_mapped (hrun.free 0x8000000000 (by decide) (by decide) (by decide))

end Raccoon.Mmu
