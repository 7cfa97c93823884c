import Raccoon.Kmunmap
import Raccoon.LoopEvents
import Raccoon.TableScan

/-!
The tables that `kmunmap` unlinks. It asks `is_frame_empty` at the end of every
table that the range goes past and gives back the address of the entry in place
of the frame of the table.
-/

namespace Raccoon.Mmu

open TableTree Loops Outcome Machine Level

/-- An entry above the last level is about to be cleared: the memory, the pointer to the entry and the entry. -/
structure Unlink where
  mem : PhysMem
  entry : ℕ
  old : ℕ

/-- The frame that `free_frame((uintptr_t)entry)` is about. -/
def Unlink.freed (u : Unlink) : ℕ := cleanBits u.entry

section Code

variable {A : Type} [FrameSource A]

abbrev KmunmapOutcome (A σ : Type) := Outcome Stuck (Machine A × List ℕ) σ

def unlinks (m : Machine A) (entry : ℕ) : List Unlink :=
  (m.load entry : KmunmapOutcome A ℕ).events fun e =>
    (isFrameEmpty m e : KmunmapOutcome A Bool).events fun empty => if empty then [⟨m.mem, entry, e⟩] else []

def unlinksL2 (l4 l3 l2 : ℕ) (v : KmunmapVars A) : List Unlink :=
  (forLoop (kmunmapL1 l4 l3 l2) (archNEntry - v.l1) v.l1 v).events fun v =>
    unlinks v.m (craftAddr recursiveMappingEntry recursiveMappingEntry l4 l3 (l2 * 8))

def unlinksL3 (l4 l3 : ℕ) (v : KmunmapVars A) : List Unlink :=
  forEvents (kmunmapL2 l4 l3) (unlinksL2 l4 l3) (archNEntry - v.l2) v.l2 v ++
    (forLoop (kmunmapL2 l4 l3) (archNEntry - v.l2) v.l2 v).events fun v =>
      unlinks v.m (craftAddr recursiveMappingEntry recursiveMappingEntry recursiveMappingEntry l4 (l3 * 8))

def unlinksL4 (l4 : ℕ) (v : KmunmapVars A) : List Unlink :=
  forEvents (kmunmapL3 l4) (unlinksL3 l4) (archNEntry - v.l3) v.l3 v ++
    (forLoop (kmunmapL3 l4) (archNEntry - v.l3) v.l3 v).events fun v =>
      unlinks v.m (craftAddr recursiveMappingEntry recursiveMappingEntry recursiveMappingEntry
        recursiveMappingEntry (l4 * 8))

/-- The entries above the last level that a call of `kmunmap` clears, in order, also if it faults later. -/
def kmunmapUnlinks (addr size : ℕ) (direction : MemDirection) (m : Machine A) : List Unlink :=
  let addr := rangeBase addr size direction
  let l0 := shiftr addr 12 0
  let size := sizeFromPage addr size
  if size ≤ archPageSize - 1 ∨ size ≤ l0 then []
  else forEvents kmunmapL4 unlinksL4 (archNEntry - shiftr addr 9 39) (shiftr addr 9 39)
    ⟨m, shiftr addr 9 30, shiftr addr 9 21, shiftr addr 9 12, l0, size, []⟩

omit [FrameSource A] in
theorem scanZero_ends {ρ : Type} {m : Machine A} {frame n i : ℕ} :
    (scanZero m frame n i : Outcome Stuck ρ ℕ).Ends (fun _ => True) (fun _ => False) fun k =>
      k ≤ i + n ∧ ∀ j, i ≤ j → j < k → (m.load (wadd frame (8 * j)) : Outcome Stuck ρ ℕ) = .next 0 := by
  induction n generalizing i with
  | zero => exact ⟨le_rfl, fun j h1 h2 => by omega⟩
  | succ n ih =>
    rw [scanZero]
    cases hload : (m.load (wadd frame (8 * i)) : Outcome Stuck ρ ℕ) with
    | fail e => trivial
    | done r =>
      rw [Machine.load] at hload
      split at hload <;> cases hload
    | next w =>
      rw [next_bind]
      by_cases hz : w = 0 ∧ i < archNEntry
      · rw [if_pos hz]
        refine ih.mono (fun _ h => h) (fun _ h => h) ?_
        rintro k ⟨hk, hread⟩
        refine ⟨by omega, fun j h1 h2 => ?_⟩
        by_cases he : j = i
        · rw [he, hload, hz.1]
        · exact hread j (by omega) h2
      · rw [if_neg hz]
        exact ⟨by omega, fun j h1 h2 => by omega⟩

omit [FrameSource A] in
theorem isFrameEmpty_ends {ρ : Type} {m : Machine A} {e : ℕ} :
    (isFrameEmpty m e : Outcome Stuck ρ Bool).Ends (fun _ => True) (fun _ => False) fun empty =>
      empty = true → ∀ j < 512, (m.load (wadd (cleanBits e) (8 * j)) : Outcome Stuck ρ ℕ) = .next 0 := by
  rw [isFrameEmpty]
  refine scanZero_ends.bind fun k hends he j hj => hends.2 j (Nat.zero_le j) ?_
  have hk : k = archNEntry := of_decide_eq_true he
  rwa [hk]

omit [FrameSource A] in
theorem scanZero_congr {ρ : Type} {m m' : Machine A} (hmem : m'.mem = m.mem) (hcr3 : m'.cr3 = m.cr3) (frame n i : ℕ) :
    (scanZero m' frame n i : Outcome Stuck ρ ℕ) = scanZero m frame n i := by
  induction n generalizing i with
  | zero => rfl
  | succ n ih =>
    rw [scanZero, scanZero]
    simp only [Machine.load, hmem, hcr3, ih]

omit [FrameSource A] in
theorem isFrameEmpty_congr {ρ : Type} {m m' : Machine A} (hmem : m'.mem = m.mem) (hcr3 : m'.cr3 = m.cr3) (e : ℕ) :
    (isFrameEmpty m' e : Outcome Stuck ρ Bool) = isFrameEmpty m e := by
  rw [isFrameEmpty, isFrameEmpty, scanZero_congr hmem hcr3]

/-- The record is that of the code: an entry is cleared where an unlinking is recorded, and only there. -/
theorem unlinkEmpty_cases (m : Machine A) (entry : ℕ) :
    (unlinkEmpty m entry : KmunmapOutcome A (Machine A)).Ends (fun _ => True) (fun _ => False) fun m' =>
      (unlinks m entry = [] ∧ m' = m) ∨
      ∃ x, translate m.mem m.cr3 entry = some x ∧ unlinks m entry = [⟨m.mem, entry, m.mem x⟩] ∧
        m' = { m with
          mem := Function.update m.mem x 0
          frames := FrameSource.freeFrame (cleanBits entry) m.frames } := by
  rw [unlinkEmpty, unlinks]
  cases ht : translate m.mem m.cr3 entry with
  | none =>
    rw [load_of_fault ht]
    trivial
  | some x =>
    rw [load_of_translate ht, next_bind, events]
    have hempty := isFrameEmpty_ends (ρ := Machine A × List ℕ) (m := m) (e := m.mem x)
    cases hrun : (isFrameEmpty m (m.mem x) : KmunmapOutcome A Bool) with
    | fail e => trivial
    | done r => rw [hrun] at hempty; exact hempty.elim
    | next empty =>
      cases empty with
      | false => exact .inl ⟨rfl, rfl⟩
      | true =>
        rw [next_bind, if_pos rfl, store_of_translate 0 ht]
        exact .inr ⟨x, rfl, rfl, rfl⟩

end Code

section Tables

variable {A : Type}

/-- Where the leaf of page `P` lies in physical memory. -/
def leafCell (m : Machine A) (P : ℕ) : ℕ :=
  4096 * follow pageTables m.mem m.root (pagePath P) + 8 * (P % 512)

/-- The machine with the leaves of the pages in `[first, stop)` zero. -/
def withoutLeaves (m : Machine A) (first stop : ℕ) : Machine A :=
  { m with mem := fun x => if ∃ P ∈ List.range' first (stop - first), x = leafCell m P then 0 else m.mem x }

theorem withoutLeaves_self (m : Machine A) (first : ℕ) : (withoutLeaves m first first).mem = m.mem := by
  simp [withoutLeaves]

theorem withoutLeaves_succ (m : Machine A) {first P : ℕ} (h : first ≤ P) :
    (withoutLeaves m first (P + 1)).mem = Function.update (withoutLeaves m first P).mem (leafCell m P) 0 := by
  funext x
  by_cases hx : x = leafCell m P
  · rw [hx, Function.update_self]
    exact if_pos ⟨P, List.mem_range'_1.mpr (by omega), rfl⟩
  · rw [Function.update_of_ne hx]
    refine if_congr ⟨fun ⟨Q, hQ, he⟩ => ⟨Q, ?_, he⟩, fun ⟨Q, hQ, he⟩ => ⟨Q, ?_, he⟩⟩ rfl rfl
    · have hne : Q ≠ P := fun hc => hx (hc ▸ he)
      rw [List.mem_range'_1] at hQ ⊢
      omega
    · rw [List.mem_range'_1] at hQ ⊢
      omega

/-- A table of the level above `level` ends with page `page`, and so does what its entry points to. -/
structure TableEnd where
  page : ℕ
  level : Level
deriving DecidableEq, Repr

/-- The ends of tables in `[lo, hi)` that a range up to page `stop` goes past, for the tables that the entries
of `levels` point to. -/
def tableEnds (levels : List Level) (stop lo hi : ℕ) : List TableEnd :=
  (List.range' lo (hi - lo)).flatMap fun P =>
    if P + 1 < stop then (levels.filter fun l => 4096 * (P + 1) % l.unit = 0).map (TableEnd.mk P) else []

/-- The answer of `is_frame_empty` at the end of a table when the pages of the range up to there are unmapped;
there is none if it faults. -/
def saysEmpty (m : Machine A) (first : ℕ) (t : TableEnd) : Option Bool :=
  match (isFrameEmpty (withoutLeaves m first (t.page + 1)) (entryAt m t.level (4096 * t.page)) :
    KmunmapOutcome A Bool) with
  | .next empty => some empty
  | _ => none

/-- At the first end of a table that the pages `[first, stop)` go past and where `is_frame_empty` does not say
no, it faults. -/
def NoneEmpty (m : Machine A) (first stop : ℕ) : Prop :=
  NeverYes (saysEmpty m first) (tableEnds [plm2, plm3, plm4] stop first stop)

instance (m : Machine A) (first stop : ℕ) : Decidable (NoneEmpty m first stop) :=
  inferInstanceAs (Decidable (NeverYes ..))

theorem tableEnds_append (levels : List Level) (stop : ℕ) {lo mid hi : ℕ} (h : lo ≤ mid) (h' : mid ≤ hi) :
    tableEnds levels stop lo mid ++ tableEnds levels stop mid hi = tableEnds levels stop lo hi := by
  have hn : hi - lo = (mid - lo) + (hi - mid) := by omega
  have hm : lo + 1 * (mid - lo) = mid := by omega
  rw [tableEnds, tableEnds, tableEnds, hn, ← List.range'_append, hm, List.flatMap_append]

theorem tableEnds_eq_nil {levels : List Level} {stop lo hi : ℕ} (h : stop ≤ lo + 1 ∨ hi ≤ lo) :
    tableEnds levels stop lo hi = [] := by
  refine List.flatMap_eq_nil_iff.mpr fun P hP => if_neg ?_
  have := List.mem_range'_1.mp hP
  omega

theorem tableEnds_stop (levels : List Level) {stop lo hi : ℕ} (h : lo ≤ stop) (h' : stop ≤ hi) :
    tableEnds levels stop lo hi = tableEnds levels stop lo stop := by
  have hrest : tableEnds levels stop stop hi = [] := tableEnds_eq_nil (.inl (Nat.le_succ stop))
  rw [← tableEnds_append levels stop h h', hrest, List.append_nil]

/-- The tables in a row at one level cut what is above them into pieces. -/
theorem tableEnds_flatMap (levels : List Level) (stop lo : ℕ) {pos : ℕ → ℕ} (hpos : ∀ i, pos i ≤ pos (i + 1))
    (i n : ℕ) (hi : pos i ≤ lo) :
    ((List.range' i n).flatMap fun j => tableEnds levels stop (max lo (pos j)) (pos (j + 1))) =
      tableEnds levels stop lo (max lo (pos (i + n))) := by
  induction n with
  | zero =>
    rw [Nat.add_zero, Nat.max_eq_left hi]
    exact (tableEnds_eq_nil (.inr le_rfl)).symm
  | succ n ih =>
    rw [List.range'_concat, List.flatMap_append, ih, Nat.one_mul, List.flatMap_singleton, ← Nat.add_assoc]
    have hnext := hpos (i + n)
    by_cases hle : lo ≤ pos (i + n + 1)
    · rw [Nat.max_eq_right hle]
      exact tableEnds_append levels stop (Nat.le_max_left ..) (by omega)
    · have hlast : max lo (pos (i + n)) = lo := by omega
      have hlast' : max lo (pos (i + n + 1)) = lo := by omega
      rw [hlast, hlast', tableEnds_eq_nil (.inr le_rfl), tableEnds_eq_nil (.inr (by omega))]
      rfl

theorem tableEnds_concat (levels : List Level) (l : Level) {stop lo hi : ℕ} (hlt : lo < hi)
    (hend : 4096 * hi % l.unit = 0) (honly : 4096 * (hi - lo) ≤ l.unit) :
    tableEnds levels stop lo hi ++ (if hi < stop then [⟨hi - 1, l⟩] else []) =
      tableEnds (levels ++ [l]) stop lo hi := by
  obtain ⟨P, rfl⟩ : ∃ P, hi = P + 1 := ⟨hi - 1, by omega⟩
  have hbefore : tableEnds (levels ++ [l]) stop lo P = tableEnds levels stop lo P := by
    refine List.flatMap_congr fun Q hQ => ?_
    have hQ := List.mem_range'_1.mp hQ
    have hno : ¬ 4096 * (Q + 1) % l.unit = 0 := by
      cases l <;> simp only [unit, shift] at hend honly ⊢ <;> omega
    rw [List.filter_append, List.filter_singleton, decide_eq_false hno, cond_false, List.append_nil]
  have hlast (ls : List Level) : tableEnds ls stop P (P + 1) =
      if P + 1 < stop then (ls.filter fun l => 4096 * (P + 1) % l.unit = 0).map (TableEnd.mk P) else [] := by
    rw [tableEnds, Nat.add_sub_cancel_left, List.range'_one, List.flatMap_singleton]
  rw [← tableEnds_append levels stop (Nat.le_of_lt_succ hlt) P.le_succ,
    ← tableEnds_append (levels ++ [l]) stop (Nat.le_of_lt_succ hlt) P.le_succ, hbefore, hlast, hlast,
    List.append_assoc]
  by_cases hstop : P + 1 < stop
  · rw [if_pos hstop, if_pos hstop, if_pos hstop, List.filter_append, List.filter_singleton, decide_eq_true hend,
      cond_true, List.map_append]
    rfl
  · rw [if_neg hstop, if_neg hstop, if_neg hstop, List.append_nil]

end Tables

section Reclaim

variable {A : Type} {m : Machine A} {l : Level} {a : ℕ}

/-- The table was empty, and it is its frame that is given back. -/
structure Reclaimed (u : Unlink) : Prop where
  empty : ∀ i < 512, u.mem (4096 * frameOf u.old + 8 * i) = 0
  frame : u.freed = 4096 * frameOf u.old

theorem pointer_bits (l : Level) (a : ℕ) : l.pointer a < 2 ^ 47 ∧ l.pointer a % 4096 = 8 * l.index a := by
  have h4 := plm4.index_lt a
  have h3 := plm3.index_lt a
  have h2 := plm2.index_lt a
  have h1 := plm1.index_lt a
  cases l <;> rw [pointer, recursiveMappingEntry,
    craftAddr_eq (by omega) (by omega) (by omega) (by omega) (by omega)] <;> omega

/-- If the address given back were that of the frame, `is_frame_empty` would have read the entry itself. -/
theorem not_reclaimed {ρ : Type} (hwf : WellFormed m.mem m.root) (hl : Live pageTables m.mem m.root (l.path a))
    (he : entryAt m l a ≠ 0)
    (hempty : (isFrameEmpty m (entryAt m l a) : Outcome Stuck ρ Bool) = .next true) :
    ¬ Reclaimed ⟨m.mem, l.pointer a, entryAt m l a⟩ := by
  intro h
  have hframe : cleanBits (l.pointer a) = 4096 * frameOf (entryAt m l a) := h.frame
  obtain ⟨hlow, hbits⟩ := pointer_bits l a
  have hread := isFrameEmpty_ends (ρ := ρ) (m := m) (e := entryAt m l a)
  rw [hempty] at hread
  have hread : ∀ j < 512, (m.load (wadd (cleanBits (entryAt m l a)) (8 * j)) : Outcome Stuck ρ ℕ) = .next 0 :=
    hread rfl
  -- an address that can be read has no bits above those of the frame
  have hcan : canonical (cleanBits (entryAt m l a)) = true := by
    refine canonical_of_translate fun hfault : translate m.mem m.cr3 _ = none => ?_
    have hfirst : wadd (cleanBits (entryAt m l a)) (8 * 0) = cleanBits (entryAt m l a) := by
      rw [cleanBits_mod]
      exact wadd_eq (by omega)
    have h0 := hread 0 (by decide)
    rw [hfirst, load_of_fault hfault] at h0
    cases h0
  have hself : wadd (cleanBits (entryAt m l a)) (8 * l.index a) = l.pointer a := by
    simp only [canonical, Bool.or_eq_true, Bool.and_eq_true, decide_eq_true_eq] at hcan
    rw [cleanBits_mod] at hframe hcan ⊢
    unfold frameOf at hframe
    unfold wadd
    omega
  have hzero := hread (l.index a) (l.index_lt a)
  rw [hself, load_pointer hwf hl] at hzero
  exact he (Outcome.next.inj hzero)

end Reclaim

section Sweep

variable {A : Type} [FrameSource A] {m₀ : Machine A} {base size₁ P : ℕ} {v : KmunmapVars A}

/-- The invariant of the nest about to visit page `P`, up to the first table that is unlinked. -/
structure SweepInv (m₀ : Machine A) (base size₁ P : ℕ) (v : KmunmapVars A) : Prop where
  unmap : UnmapInv m₀ base size₁ P v
  mem : v.m.mem = (withoutLeaves m₀ (base / 4096) P).mem

/-- A range of whole pages, all of them mapped. -/
structure WholeRange (m₀ : Machine A) (base size₁ : ℕ) : Prop where
  aligned : base % 4096 = 0
  size : size₁ < 2 ^ 64
  fits : base + size₁ ≤ 2 ^ 48
  tree : ∀ P, base / 4096 ≤ P → P < base / 4096 + size₁ / 4096 → TreePage P
  mapped : ∀ P, base / 4096 ≤ P → P < base / 4096 + size₁ / 4096 → leaf m₀.mem m₀.root P ≠ 0

theorem SweepInv.lt (h : SweepInv m₀ base size₁ P v) (hr : WholeRange m₀ base size₁) :
    P < base / 4096 + size₁ / 4096 := by
  have hfirst : firstWhole base = base / 4096 := if_pos hr.aligned
  have hleft := h.unmap.left
  have hmore := h.unmap.more
  have hbase := h.unmap.base_le
  rw [hfirst] at hleft
  omega

theorem SweepInv.offset (h : SweepInv m₀ base size₁ P v) (hr : WholeRange m₀ base size₁) : v.l0 = 0 := by
  rw [h.unmap.l0, hr.aligned, ite_self]

theorem kmunmapL1_sweep (hr : WholeRange m₀ base size₁) {l4 l3 l2 l1 : ℕ} (h4 : l4 < 512) (h3 : l3 < 512)
    (h2 : l2 < 512) (h1 : l1 < 512) (h : SweepInv m₀ base size₁ (pageNumber l4 l3 l2 l1) v) :
    (kmunmapL1 l4 l3 l2 l1 v).Ends (fun _ => False)
      (fun _ => base / 4096 + size₁ / 4096 ≤ pageNumber l4 l3 l2 (l1 + 1))
      (SweepInv m₀ base size₁ (pageNumber l4 l3 l2 (l1 + 1))) := by
  have hnext : pageNumber l4 l3 l2 (l1 + 1) = pageNumber l4 l3 l2 l1 + 1 := by unfold pageNumber; omega
  have hbase := h.unmap.base_le
  have hlt := h.lt hr
  have hP := hr.tree _ hbase hlt
  have hlive := live_of_leaf (hr.mapped _ hbase hlt)
  obtain ⟨hp, hm⟩ := pagePath_pageNumber h4 h3 h2 h1
  rw [hp] at hlive
  have hfirst : firstWhole base = base / 4096 := if_pos hr.aligned
  have hends := kmunmapL1_ends hr.size h4 h3 h2 h1 hP hlive h.unmap
  suffices hmem : (kmunmapL1 l4 l3 l2 l1 v).Ends (fun _ => True) (fun _ => True) fun v' =>
      v'.m.mem = (withoutLeaves m₀ (base / 4096) (pageNumber l4 l3 l2 l1 + 1)).mem by
    refine (hends.and hmem).mono (fun _ h => h.1) (fun r ⟨⟨_, hr⟩, _⟩ => ?_) fun v' ⟨hv, hm⟩ => ⟨hv, hnext ▸ hm⟩
    rw [hfirst] at hr
    omega
  have hcr3 := h.unmap.cleared.cr3
  have hroot : v.m.root = m₀.root := congrArg frameOf hcr3
  have hproper : Proper [l4, l3, l2] := hp ▸ pagePath_proper hP
  have hfollow := h.unmap.cleared.follow _ hproper hlive
  have hlive' := (h.unmap.cleared.live _ hproper).mpr hlive
  have hwf := h.unmap.cleared.wf
  have haddr : translate v.m.mem v.m.cr3 (craftAddr recursiveMappingEntry l4 l3 l2 (l1 * 8)) =
      some (4096 * follow pageTables v.m.mem v.m.root [l4, l3, l2] + 8 * l1) :=
    translate_l1 hwf.self h4 h3 h2 h1 (hwf.linked hproper.length hproper.index hlive')
  have hcell : 4096 * follow pageTables v.m.mem v.m.root [l4, l3, l2] + 8 * l1 =
      leafCell m₀ (pageNumber l4 l3 l2 l1) := by rw [leafCell, hp, hm, hfollow]
  rw [hcell] at haddr
  rw [withoutLeaves_succ m₀ hbase, ← h.mem, kmunmapL1, if_pos (h.offset hr)]
  dsimp only
  generalize craftAddr recursiveMappingEntry l4 l3 l2 (l1 * 8) = entry at haddr ⊢
  generalize leafCell m₀ (pageNumber l4 l3 l2 l1) = x at haddr ⊢
  generalize wsub v.size archPageSize = rest
  have hstore (e : ℕ) : ((v.m.freeFrame e).store entry 0 : KmunmapOutcome A _) =
      .next { v.m.freeFrame e with mem := Function.update v.m.mem x 0 } := store_of_translate 0 haddr
  rw [load_of_translate haddr, next_bind, hstore, next_bind, next_bind]
  split
  case isTrue => trivial
  case isFalse => rfl

theorem kmunmapTable_sweep (hr : WholeRange m₀ base size₁) {l4 l3 l2 : ℕ} (h4 : l4 < 512) (h3 : l3 < 512)
    (h2 : l2 < 512) (h1 : v.l1 < 512) (h : SweepInv m₀ base size₁ (pageNumber l4 l3 l2 v.l1) v) :
    (forLoop (kmunmapL1 l4 l3 l2) (archNEntry - v.l1) v.l1 v).Ends (fun _ => False)
      (fun _ => base / 4096 + size₁ / 4096 ≤ pageNumber l4 l3 l2 512)
      (SweepInv m₀ base size₁ (pageNumber l4 l3 l2 512)) := by
  refine forLoop_ends _ (fun i v => SweepInv m₀ base size₁ (pageNumber l4 l3 l2 i) v) (fun i v hi hv => ?_)
    v.l1 v h1.le h
  change i < 512 at hi
  refine (kmunmapL1_sweep hr h4 h3 h2 hi hv).mono (fun _ h => h) (fun _ h => h.trans ?_) fun _ h => h
  unfold pageNumber
  omega

theorem path_page (P : ℕ) : plm1.path (4096 * P) = pagePath P := by
  simp only [path, index, unit, shift, pagePath, List.cons.injEq, and_true]
  omega

theorem path_ancestor {l : Level} (hl : l ≠ plm1) (P : ℕ) :
    l.path (4096 * P) ++ [l.index (4096 * P)] <+: pagePath P := by
  rw [← path_page]
  cases l with
  | plm4 => exact ⟨[plm3.index _, plm2.index _], rfl⟩
  | plm3 => exact ⟨[plm2.index _], rfl⟩
  | plm2 => exact ⟨[], rfl⟩
  | plm1 => exact absurd rfl hl

/-- At the end of a table nothing happens if `is_frame_empty` says no. -/
theorem unlinkEmpty_asks {l : Level} (hl : l ≠ plm1) (hP : TreePage P) (hmapped : leaf m₀.mem m₀.root P ≠ 0)
    (h : SweepInv m₀ base size₁ (P + 1) v) {entry : ℕ} (hentry : l.pointer (4096 * P) = entry) :
    Asks (saysEmpty m₀ (base / 4096)) (¬ Reclaimed ·) [⟨P, l⟩] False (· = v.m)
      (unlinkEmpty v.m entry : KmunmapOutcome A (Machine A)) (unlinks v.m entry) := by
  subst hentry
  have hproper := (pagePath_proper hP).initial (path_ancestor hl P)
  have hq : Proper (l.path (4096 * P)) := hproper.initial (List.prefix_append _ _)
  obtain ⟨hlive₀, hnz₀, -⟩ := (live_append _ _).mp ((live_of_leaf hmapped).initial (path_ancestor hl P))
  have hroot : v.m.root = m₀.root := congrArg frameOf h.unmap.cleared.cr3
  have hlive := (h.unmap.cleared.live _ hq).mpr hlive₀
  have hsame : entryAt v.m l (4096 * P) = entryAt m₀ l (4096 * P) := by
    rw [entryAt, entryAt, tableEntry, tableEntry, h.unmap.cleared.follow _ hq hlive₀]
    exact h.unmap.cleared.upper _ _ hproper hlive₀
  have hne : entryAt v.m l (4096 * P) ≠ 0 := hsame.trans_ne hnz₀
  have hload := load_pointer (ρ := Machine A × List ℕ) h.unmap.cleared.wf hlive
  have hask : (isFrameEmpty (withoutLeaves m₀ (base / 4096) (P + 1)) (entryAt m₀ l (4096 * P)) :
      KmunmapOutcome A Bool) = isFrameEmpty v.m (entryAt v.m l (4096 * P)) := by
    rw [hsame, isFrameEmpty_congr h.mem h.unmap.cleared.cr3]
  have hkind := isFrameEmpty_ends (ρ := Machine A × List ℕ) (m := v.m) (e := entryAt v.m l (4096 * P))
  rw [unlinkEmpty, unlinks, hload, next_bind, events]
  cases hrun : (isFrameEmpty v.m (entryAt v.m l (4096 * P)) : KmunmapOutcome A Bool) with
  | fail e =>
    have hanswer : saysEmpty m₀ (base / 4096) ⟨P, l⟩ = none := by rw [saysEmpty, hask, hrun]
    refine ⟨iff_of_true rfl ⟨by simp [hanswer], by simp [hanswer]⟩, by simp [events], fun _ => ?_⟩
    simp [AllNo, hanswer]
  | done r => rw [hrun] at hkind; exact hkind.elim
  | next empty =>
    have hanswer : saysEmpty m₀ (base / 4096) ⟨P, l⟩ = some empty := by rw [saysEmpty, hask, hrun]
    cases empty with
    | false => exact ⟨iff_of_true rfl ⟨by simp [hanswer], fun _ => trivial⟩, by simp [events], fun _ => ⟨by simp [AllNo, hanswer], rfl⟩⟩
    | true =>
      refine ⟨iff_of_false (List.cons_ne_nil _ _) fun hc => hc.1 hanswer, fun u hu => ?_,
        fun hnil => absurd hnil (List.cons_ne_nil _ _)⟩
      obtain rfl : Unlink.mk v.m.mem (l.pointer (4096 * P)) (entryAt v.m l (4096 * P)) = u := Option.some.inj hu
      exact not_reclaimed h.unmap.cleared.wf hlive hne hrun

theorem SweepInv.restart (h : SweepInv m₀ base size₁ P v) (l3 l2 l1 : ℕ) :
    SweepInv m₀ base size₁ P { v with l3 := l3, l2 := l2, l1 := l1 } :=
  ⟨⟨h.unmap.cleared, h.unmap.base_le, h.unmap.l0, h.unmap.left, h.unmap.more⟩, h.mem⟩

/-- The end of a table at page `hi`, after the loop over its entries. -/
theorem tableEnd_asks (hr : WholeRange m₀ base size₁) {l : Level} (hl : l ≠ plm1) {lo hi : ℕ}
    (hbase : base / 4096 ≤ lo) (hlt : lo < hi) {entry : ℕ} (hentry : l.pointer (4096 * (hi - 1)) = entry)
    (h : SweepInv m₀ base size₁ hi v) {Q : KmunmapVars A → Prop} (f : Machine A → KmunmapVars A) (hf : Q (f v.m)) :
    Asks (saysEmpty m₀ (base / 4096)) (¬ Reclaimed ·)
      (if hi < base / 4096 + size₁ / 4096 then [⟨hi - 1, l⟩] else []) (base / 4096 + size₁ / 4096 ≤ hi) Q
      (unlinkEmpty v.m entry >>= fun m => (.next (f m) : KmunmapOutcome A _)) (unlinks v.m entry) := by
  have hstop := h.lt hr
  obtain ⟨P, rfl⟩ : ∃ P, hi = P + 1 := ⟨hi - 1, by omega⟩
  have hin : base / 4096 ≤ P ∧ P < base / 4096 + size₁ / 4096 := by omega
  rw [if_pos hstop]
  have hasks := unlinkEmpty_asks hl (hr.tree P hin.1 hin.2) (hr.mapped P hin.1 hin.2) h hentry
  exact (hasks.mono False.elim fun m hm => hm).map fun m hm => hm ▸ hf

omit [FrameSource A] in
/-- The loop over the entries of a table above the last level: entry `i` covers the pages from `pos i` on. -/
theorem tableLoop_asks (levels : List Level) {stop i : ℕ} (lo : ℕ) {ask : TableEnd → Option Bool} {B : Unlink → Prop}
    (pos : ℕ → ℕ) {body : ℕ → KmunmapVars A → KmunmapOutcome A (KmunmapVars A)}
    {evs : ℕ → KmunmapVars A → List Unlink} (hpos : ∀ i j, i ≤ j → pos i ≤ pos j) (Inv : ℕ → KmunmapVars A → Prop)
    (hbody : ∀ i v, i < 512 → Inv i v → Asks ask B (tableEnds levels stop (max lo (pos i)) (pos (i + 1)))
      (stop ≤ pos (i + 1)) (Inv (i + 1)) (body i v) (evs i v))
    (hi : i < 512) (hlo : pos i ≤ lo) (hend : lo ≤ pos 512) (h : Inv i v) :
    Asks ask B (tableEnds levels stop lo (pos 512)) (stop ≤ pos 512) (Inv 512)
      (forLoop body (archNEntry - i) i v) (forEvents body evs (archNEntry - i) i v) := by
  have hloop := forEvents_asks (fun i => tableEnds levels stop (max lo (pos i)) (pos (i + 1)))
    (fun i => stop ≤ pos (i + 1)) Inv (fun i j hij hdone => ?_) hbody i v hi.le h
  · have hlast : i + (512 - i) = 512 := by omega
    rw [tableEnds_flatMap levels stop lo (fun i => hpos i _ i.le_succ) i _ hlo, hlast, Nat.max_eq_right hend] at hloop
    exact hloop.mono (fun ⟨j, hj, hdone⟩ => hdone.trans (hpos _ _ hj)) fun _ h => h
  · have := hpos (i + 1) j hij
    exact tableEnds_eq_nil (.inl (by omega))

theorem pointer_last2 {l4 l3 l2 : ℕ} (h4 : l4 < 512) (h3 : l3 < 512) (h2 : l2 < 512) :
    plm2.pointer (4096 * (pageNumber l4 l3 l2 512 - 1)) =
      craftAddr recursiveMappingEntry recursiveMappingEntry l4 l3 (l2 * 8) := by
  have e4 : plm4.index (4096 * (pageNumber l4 l3 l2 512 - 1)) = l4 := by
    simp only [index, unit, shift, pageNumber]; omega
  have e3 : plm3.index (4096 * (pageNumber l4 l3 l2 512 - 1)) = l3 := by
    simp only [index, unit, shift, pageNumber]; omega
  have e2 : plm2.index (4096 * (pageNumber l4 l3 l2 512 - 1)) = l2 := by
    simp only [index, unit, shift, pageNumber]; omega
  rw [pointer, e4, e3, e2]

theorem pointer_last3 {l4 l3 : ℕ} (h4 : l4 < 512) (h3 : l3 < 512) :
    plm3.pointer (4096 * (pageNumber l4 l3 512 0 - 1)) =
      craftAddr recursiveMappingEntry recursiveMappingEntry recursiveMappingEntry l4 (l3 * 8) := by
  have e4 : plm4.index (4096 * (pageNumber l4 l3 512 0 - 1)) = l4 := by
    simp only [index, unit, shift, pageNumber]; omega
  have e3 : plm3.index (4096 * (pageNumber l4 l3 512 0 - 1)) = l3 := by
    simp only [index, unit, shift, pageNumber]; omega
  rw [pointer, e4, e3]

theorem pointer_last4 {l4 : ℕ} (h4 : l4 < 512) : plm4.pointer (4096 * (pageNumber l4 512 0 0 - 1)) =
    craftAddr recursiveMappingEntry recursiveMappingEntry recursiveMappingEntry recursiveMappingEntry (l4 * 8) := by
  have e4 : plm4.index (4096 * (pageNumber l4 512 0 0 - 1)) = l4 := by
    simp only [index, unit, shift, pageNumber]; omega
  rw [pointer, e4]

theorem kmunmapL2_asks (hr : WholeRange m₀ base size₁) {l4 l3 l2 : ℕ} (h4 : l4 < 512) (h3 : l3 < 512)
    (h2 : l2 < 512) (h1 : v.l1 < 512) (h : SweepInv m₀ base size₁ (pageNumber l4 l3 l2 v.l1) v) :
    Asks (saysEmpty m₀ (base / 4096)) (¬ Reclaimed ·)
      (tableEnds [plm2] (base / 4096 + size₁ / 4096) (pageNumber l4 l3 l2 v.l1) (pageNumber l4 l3 l2 512))
      (base / 4096 + size₁ / 4096 ≤ pageNumber l4 l3 l2 512)
      (fun v' => SweepInv m₀ base size₁ (pageNumber l4 l3 l2 512) v' ∧ v'.l1 = 0)
      (kmunmapL2 l4 l3 l2 v) (unlinksL2 l4 l3 l2 v) := by
  have hlt : pageNumber l4 l3 l2 v.l1 < pageNumber l4 l3 l2 512 := by unfold pageNumber; omega
  have hnone : tableEnds [] (base / 4096 + size₁ / 4096) (pageNumber l4 l3 l2 v.l1) (pageNumber l4 l3 l2 512) = [] :=
    List.flatMap_eq_nil_iff.mpr fun P _ => by simp
  rw [← List.nil_append [plm2], ← tableEnds_concat [] plm2 hlt (by simp only [unit, shift, pageNumber]; omega)
    (by simp only [unit, shift, pageNumber]; omega), hnone]
  refine (Asks.of_ends (kmunmapTable_sweep hr h4 h3 h2 h1 h)).bind (fun v' hv' => ?_) (fun hdone => ?_) id
  · exact tableEnd_asks hr (by decide) h.unmap.base_le hlt (pointer_last2 h4 h3 h2) hv'
      (fun m => { v' with m := m, l1 := 0 }) ⟨hv'.restart v'.l3 v'.l2 0, rfl⟩
  · exact if_neg (by omega)

theorem kmunmapL3_asks (hr : WholeRange m₀ base size₁) {l4 l3 : ℕ} (h4 : l4 < 512) (h3 : l3 < 512)
    (h2 : v.l2 < 512) (h1 : v.l1 < 512) (h : SweepInv m₀ base size₁ (pageNumber l4 l3 v.l2 v.l1) v) :
    Asks (saysEmpty m₀ (base / 4096)) (¬ Reclaimed ·)
      (tableEnds [plm2, plm3] (base / 4096 + size₁ / 4096) (pageNumber l4 l3 v.l2 v.l1) (pageNumber l4 l3 512 0))
      (base / 4096 + size₁ / 4096 ≤ pageNumber l4 l3 512 0)
      (fun v' => SweepInv m₀ base size₁ (pageNumber l4 l3 512 0) v' ∧ v'.l2 = 0 ∧ v'.l1 = 0)
      (kmunmapL3 l4 l3 v) (unlinksL3 l4 l3 v) := by
  have hlt : pageNumber l4 l3 v.l2 v.l1 < pageNumber l4 l3 512 0 := by unfold pageNumber; omega
  rw [← List.singleton_append, ← tableEnds_concat [plm2] plm3 hlt (by simp only [unit, shift, pageNumber]; omega)
    (by simp only [unit, shift, pageNumber]; omega)]
  -- only the first round starts in the middle of a page table
  refine (tableLoop_asks [plm2] (pageNumber l4 l3 v.l2 v.l1) (fun i => pageNumber l4 l3 i 0)
    (fun i j hij => by unfold pageNumber; omega)
    (fun i v' => SweepInv m₀ base size₁ (pageNumber l4 l3 i v'.l1) v' ∧ v'.l1 < 512 ∧ (i = 512 → v'.l1 = 0) ∧
      pageNumber l4 l3 i v'.l1 = max (pageNumber l4 l3 v.l2 v.l1) (pageNumber l4 l3 i 0))
    ?_ h2 (by unfold pageNumber; omega) hlt.le
    ⟨h, h1, by omega, by unfold pageNumber; omega⟩).bind ?_ (fun hdone => if_neg (by omega)) id
  · rintro i v' hi ⟨hv', hv1, -, hpage⟩
    rw [← hpage, ← pageNumber_carry1]
    refine (kmunmapL2_asks hr h4 h3 hi hv1 hv').mono id ?_
    rintro s ⟨hs, h0⟩
    rw [h0, ← pageNumber_carry1]
    exact ⟨hs, by decide, fun _ => rfl, by unfold pageNumber at hpage ⊢; omega⟩
  · rintro v' ⟨hv', -, h0, -⟩
    rw [h0 rfl] at hv'
    exact tableEnd_asks hr (by decide) h.unmap.base_le hlt (pointer_last3 h4 h3) hv'
      (fun m => { v' with m := m, l2 := 0 }) ⟨hv'.restart v'.l3 0 v'.l1, rfl, h0 rfl⟩

theorem kmunmapL4_asks (hr : WholeRange m₀ base size₁) {l4 : ℕ} (h4 : l4 < 512) (h3 : v.l3 < 512) (h2 : v.l2 < 512)
    (h1 : v.l1 < 512) (h : SweepInv m₀ base size₁ (pageNumber l4 v.l3 v.l2 v.l1) v) :
    Asks (saysEmpty m₀ (base / 4096)) (¬ Reclaimed ·)
      (tableEnds [plm2, plm3, plm4] (base / 4096 + size₁ / 4096) (pageNumber l4 v.l3 v.l2 v.l1)
        (pageNumber l4 512 0 0))
      (base / 4096 + size₁ / 4096 ≤ pageNumber l4 512 0 0)
      (fun v' => SweepInv m₀ base size₁ (pageNumber l4 512 0 0) v' ∧ v'.l3 = 0 ∧ v'.l2 = 0 ∧ v'.l1 = 0)
      (kmunmapL4 l4 v) (unlinksL4 l4 v) := by
  have hlt : pageNumber l4 v.l3 v.l2 v.l1 < pageNumber l4 512 0 0 := by unfold pageNumber; omega
  have hlevels : [plm2, plm3, plm4] = [plm2, plm3] ++ [plm4] := rfl
  rw [hlevels, ← tableEnds_concat [plm2, plm3] plm4 hlt (by simp only [unit, shift, pageNumber]; omega)
    (by simp only [unit, shift, pageNumber]; omega)]
  refine (tableLoop_asks [plm2, plm3] (pageNumber l4 v.l3 v.l2 v.l1) (fun i => pageNumber l4 i 0 0)
    (fun i j hij => by unfold pageNumber; omega)
    (fun i v' => SweepInv m₀ base size₁ (pageNumber l4 i v'.l2 v'.l1) v' ∧ v'.l2 < 512 ∧ v'.l1 < 512 ∧
      (i = 512 → v'.l2 = 0 ∧ v'.l1 = 0) ∧
      pageNumber l4 i v'.l2 v'.l1 = max (pageNumber l4 v.l3 v.l2 v.l1) (pageNumber l4 i 0 0))
    ?_ h3 (by unfold pageNumber; omega) hlt.le
    ⟨h, h2, h1, by omega, by unfold pageNumber; omega⟩).bind ?_ (fun hdone => if_neg (by omega)) id
  · rintro i v' hi ⟨hv', hv2, hv1, -, hpage⟩
    rw [← hpage, ← pageNumber_carry2]
    refine (kmunmapL3_asks hr h4 hi hv2 hv1 hv').mono id ?_
    rintro s ⟨hs, h02, h01⟩
    rw [h02, h01, ← pageNumber_carry2]
    exact ⟨hs, by decide, by decide, fun _ => ⟨rfl, rfl⟩, by unfold pageNumber at hpage ⊢; omega⟩
  · rintro v' ⟨hv', -, -, h0, -⟩
    rw [(h0 rfl).1, (h0 rfl).2] at hv'
    exact tableEnd_asks hr (by decide) h.unmap.base_le hlt (pointer_last4 h4) hv'
      (fun m => { v' with m := m, l3 := 0 }) ⟨hv'.restart 0 v'.l2 v'.l1, rfl, h0 rfl⟩

/-- Whenever the call clears an entry above the last level, the table was empty and its frame is given back. -/
def ReclaimsTables (m : Machine A) (addr size : ℕ) (direction : MemDirection) : Prop :=
  ∀ u ∈ kmunmapUnlinks addr size direction m, Reclaimed u

theorem kmunmap_asks {l4 : ℕ} (hr : WholeRange m₀ base size₁) (hmore : 4096 ≤ size₁) (h4 : l4 < 512) (h3 : v.l3 < 512)
    (h2 : v.l2 < 512) (h1 : v.l1 < 512) (hpage : pageNumber l4 v.l3 v.l2 v.l1 = base / 4096)
    (h : SweepInv m₀ base size₁ (base / 4096) v) :
    Asks (saysEmpty m₀ (base / 4096)) (¬ Reclaimed ·)
      (tableEnds [plm2, plm3, plm4] (base / 4096 + size₁ / 4096) (base / 4096) (base / 4096 + size₁ / 4096))
      (base / 4096 + size₁ / 4096 ≤ pageNumber 512 0 0 0) (fun _ => True)
      (forLoop kmunmapL4 (archNEntry - l4) l4 v) (forEvents kmunmapL4 unlinksL4 (archNEntry - l4) l4 v) := by
  have hfits := hr.fits
  have hlast : base / 4096 + size₁ / 4096 ≤ pageNumber 512 0 0 0 := by unfold pageNumber; omega
  rw [← tableEnds_stop [plm2, plm3, plm4] (Nat.le_add_right ..) hlast]
  refine (tableLoop_asks [plm2, plm3, plm4] (base / 4096) (fun i => pageNumber i 0 0 0)
    (fun i j hij => by unfold pageNumber; omega)
    (fun i v' => SweepInv m₀ base size₁ (pageNumber i v'.l3 v'.l2 v'.l1) v' ∧ v'.l3 < 512 ∧ v'.l2 < 512 ∧
      v'.l1 < 512 ∧ pageNumber i v'.l3 v'.l2 v'.l1 = max (base / 4096) (pageNumber i 0 0 0))
    (fun i v' hi ⟨hv', hv3, hv2, hv1, hpage⟩ => ?_) h4 (by unfold pageNumber at *; omega) (by omega)
    ⟨hpage ▸ h, h3, h2, h1, by unfold pageNumber at *; omega⟩).mono id fun _ _ => trivial
  rw [← hpage, ← pageNumber_carry3]
  refine (kmunmapL4_asks hr hi hv3 hv2 hv1 hv').mono id fun s ⟨hs, h03, h02, h01⟩ => ?_
  rw [h03, h02, h01, ← pageNumber_carry3]
  exact ⟨hs, by decide, by decide, by decide, by unfold pageNumber at hpage ⊢; omega⟩

/-- `kmunmap` reclaims the tables it unlinks as long as it unlinks none: up to the first end of a table where
`is_frame_empty` does not say no, and there it faults. -/
theorem kmunmap_reclaims_iff {addr size : ℕ} {direction : MemDirection} (hwf : WellFormed m₀.mem m₀.root)
    (hbase : base = rangeBase addr size direction % 2 ^ 48) (haligned : base % 4096 = 0) (hsize : base + size ≤ 2 ^ 48)
    (hslot : ∀ P, Inside base size P → P / 2 ^ 27 ≠ recursiveMappingEntry)
    (hmapped : ∀ P, Inside base size P → leaf m₀.mem m₀.root P ≠ 0) :
    ReclaimsTables m₀ addr size direction ↔ NoneEmpty m₀ (base / 4096) ((base + size) / 4096) := by
  have hl0 : shiftr (rangeBase addr size direction) 12 0 = 0 := by rw [shiftr_eq]; omega
  have hsame : sizeFromPage (rangeBase addr size direction) size = size := by
    rw [sizeFromPage, hl0, if_neg (not_not.mpr rfl)]
  have hstop : (base + size) / 4096 = base / 4096 + size / 4096 := by omega
  rw [ReclaimsTables, NoneEmpty, kmunmapUnlinks, hsame, hl0, hstop]
  by_cases hsmall : size ≤ archPageSize - 1 ∨ size ≤ 0
  · have hnone : tableEnds [plm2, plm3, plm4] (base / 4096 + size / 4096) (base / 4096)
        (base / 4096 + size / 4096) = [] := tableEnds_eq_nil (.inl (by unfold archPageSize at hsmall; omega))
    rw [if_pos hsmall, hnone]
    exact iff_of_true (by simp) trivial
  · rw [if_neg hsmall, shiftr_eq, shiftr_eq, shiftr_eq, shiftr_eq]
    unfold archPageSize at hsmall
    have hin {P : ℕ} (hlo : base / 4096 ≤ P) (hhi : P < base / 4096 + size / 4096) : Inside base size P := by
      unfold Inside
      omega
    have hr : WholeRange m₀ base size := ⟨haligned, by omega, hsize, fun P hlo hhi => ⟨by omega, hslot P (hin hlo hhi)⟩,
      fun P hlo hhi => hmapped P (hin hlo hhi)⟩
    have hfirst : firstWhole base = base / 4096 := if_pos haligned
    have hpage : pageNumber (rangeBase addr size direction / 2 ^ 39 % 2 ^ 9)
        (rangeBase addr size direction / 2 ^ 30 % 2 ^ 9) (rangeBase addr size direction / 2 ^ 21 % 2 ^ 9)
        (rangeBase addr size direction / 2 ^ 12 % 2 ^ 9) = base / 4096 := by
      unfold pageNumber
      omega
    exact (kmunmap_asks hr (by omega) (Nat.mod_lt _ (by decide)) (Nat.mod_lt _ (by decide)) (Nat.mod_lt _ (by decide))
      (Nat.mod_lt _ (by decide)) hpage
      ⟨⟨.refl hwf hfirst.ge, le_rfl, by rw [haligned, ite_self], by dsimp only; omega, by dsimp only; omega⟩,
        (withoutLeaves_self m₀ _).symm⟩).forall_iff

end Sweep

section Mapped

theorem kmunmap_reclaims_iff_last : ReclaimsTables mappedMachine 0x1fe000 0x2000 .memToUpper := by
  have honly (P : ℕ) (h : Inside 0x1fe000 0x2000 P) : P = 510 ∨ P = 511 := by
    unfold Inside at h
    omega
  refine (kmunmap_reclaims_iff mappedMachine_wellFormed rfl (by decide) (by decide) (fun P hP => ?_)
    fun P hP => ?_).mpr (by decide +kernel)
  · rcases honly P hP with rfl | rfl <;> decide
  · rcases honly P hP with rfl | rfl
    · rw [mappedMachine_leaves.1]
      decide
    · rw [mappedMachine_leaves.2]
      decide

def wideMachine : Machine (List ℕ) :=
  { blankMachine with frames := [0x2000, 0x3000, 0x4000, 0x5000, 0x6000, 0x7000, 0x8000, 0x9000] }

/-- The page table of pages 0 to 511 is at the physical address `0x4000`. -/
def lowMachine : Machine (List ℕ) := (kmmap 0x4000 0x2000 2 wideMachine).toOption.getD blankMachine

/-- The virtual pages 4 and 5, the last page of the first page table and the page after it are mapped. -/
def coveredMachine : Machine (List ℕ) := (kmmap 0x1ff000 0x2000 2 lowMachine).toOption.getD blankMachine

theorem coveredMachine_wellFormed : WellFormed coveredMachine.mem coveredMachine.root := by
  have hfresh : Fresh wideMachine := fresh_of_blank 8 (by decide)
  have hlow : WellFormed lowMachine.mem lowMachine.root ∧ Fresh lowMachine :=
    kmmap_wellFormed (m := wideMachine) blankMachine_tables.1 hfresh rfl ⟨by decide, by decide⟩ (by omega)
      (fun P => Meets.slot_ne (.inl (by decide))) (by decide +kernel) _
  exact (kmmap_wellFormed hlow.1 hlow.2 (by decide +kernel) ⟨by decide, by decide⟩ (by omega)
    (fun P => Meets.slot_ne (.inl (by decide))) (by decide +kernel) _).1

/-- `is_frame_empty` reads the blank page at the virtual address `0x4000`: the page table of page 4 is unlinked, and
the address of its entry is given back. -/
theorem table_in_use_unlinked : ¬ ∀ (m : Machine (List ℕ)) (addr size : ℕ) (direction : MemDirection),
    WellFormed m.mem m.root → rangeBase addr size direction % 4096 = 0 →
    rangeBase addr size direction + size ≤ 2 ^ 48 →
    (∀ P, Inside (rangeBase addr size direction) size P → P / 2 ^ 27 ≠ recursiveMappingEntry) →
    (∀ P, Inside (rangeBase addr size direction) size P → leaf m.mem m.root P ≠ 0) →
    ReclaimsTables m addr size direction := by
  intro hall
  have honly (P : ℕ) (h : Inside (rangeBase 0x1ff000 0x2000 .memToUpper) 0x2000 P) : P = 511 ∨ P = 512 := by
    simp only [Inside, rangeBase] at h
    omega
  have hall := hall coveredMachine 0x1ff000 0x2000 .memToUpper coveredMachine_wellFormed (by decide) (by decide)
    (fun P hP => by rcases honly P hP with rfl | rfl <;> decide)
    (fun P hP => by rcases honly P hP with rfl | rfl <;> decide +kernel)
  have htrace : (kmunmapUnlinks 0x1ff000 0x2000 .memToUpper coveredMachine).map (fun u => (u.freed, u.old)) =
      [(craftAddr recursiveMappingEntry recursiveMappingEntry 0 0 0, 0x4003)] := by decide +kernel
  obtain ⟨u, hu, he⟩ := List.mem_map.mp (htrace ▸ List.mem_singleton_self _)
  obtain ⟨hfreed, hold⟩ := Prod.mk.inj he
  have hframe := (hall u hu).frame
  rw [hfreed, hold] at hframe
  exact absurd hframe (by decide)

end Mapped

end Raccoon.Mmu
