import Raccoon.Kmmap

/-!
`kmunmap`. It gives back the whole pages of a range as long as the size does
not run below zero and the range stays in one page table. At the end of a page
table `is_frame_empty` reads the physical address of the table as if it were a
virtual one.
-/

namespace Raccoon.Mmu

open TableTree Loops Outcome Machine

inductive MemDirection where
  | memToUpper
  | memToLower
deriving DecidableEq, Repr

/-- The machine, the loop indices, what is left of the size, and the frames given back so far. -/
structure KmunmapVars (A : Type) where
  m : Machine A
  l3 : ℕ
  l2 : ℕ
  l1 : ℕ
  l0 : ℕ
  size : ℕ
  freed : List ℕ

section Code

variable {A ρ : Type} [FrameSource A]

/-- `while (frame[i] == 0 && i < 512) i++`, which reads before it compares. -/
def scanZero (m : Machine A) (frame : ℕ) : ℕ → ℕ → Outcome Stuck ρ ℕ
  | 0, i => .next i
  | n + 1, i => do
    let w ← m.load (wadd frame (8 * i))
    if w = 0 ∧ i < archNEntry then scanZero m frame n (i + 1) else .next i

def isFrameEmpty (m : Machine A) (frame : ℕ) : Outcome Stuck ρ Bool := do
  let i ← scanZero m (cleanBits frame) (archNEntry + 1) 0
  .next (i = archNEntry)

/-- What happens at the end of each table: the entry that points to it is dropped if it is empty. -/
def unlinkEmpty (m : Machine A) (entry : ℕ) : Outcome Stuck ρ (Machine A) := do
  let e ← m.load entry
  let empty ← isFrameEmpty m e
  if empty then
    let m ← m.store entry 0
    .next (m.freeFrame entry)
  else .next m

def kmunmapL1 (l4 l3 l2 l1 : ℕ) (v : KmunmapVars A) :
    Outcome Stuck (Machine A × List ℕ) (KmunmapVars A) := do
  let v ← if v.l0 = 0 then do
      let entry := craftAddr recursiveMappingEntry l4 l3 l2 (l1 * 8)
      let e ← v.m.load entry
      let m ← (v.m.freeFrame e).store entry 0
      .next { v with m := m, size := wsub v.size archPageSize, freed := v.freed ++ [cleanBits e] }
    else .next v
  if v.size < archPageSize then .done (v.m, v.freed)
  else .next { v with l0 := 0 }

def kmunmapL2 (l4 l3 l2 : ℕ) (v : KmunmapVars A) :
    Outcome Stuck (Machine A × List ℕ) (KmunmapVars A) := do
  let v ← forLoop (kmunmapL1 l4 l3 l2) (archNEntry - v.l1) v.l1 v
  let m ← unlinkEmpty v.m (craftAddr recursiveMappingEntry recursiveMappingEntry l4 l3 (l2 * 8))
  .next { v with m := m, l1 := 0 }

def kmunmapL3 (l4 l3 : ℕ) (v : KmunmapVars A) :
    Outcome Stuck (Machine A × List ℕ) (KmunmapVars A) := do
  let v ← forLoop (kmunmapL2 l4 l3) (archNEntry - v.l2) v.l2 v
  let m ← unlinkEmpty v.m (craftAddr recursiveMappingEntry recursiveMappingEntry recursiveMappingEntry
    l4 (l3 * 8))
  .next { v with m := m, l2 := 0 }

def kmunmapL4 (l4 : ℕ) (v : KmunmapVars A) :
    Outcome Stuck (Machine A × List ℕ) (KmunmapVars A) := do
  let v ← forLoop (kmunmapL3 l4) (archNEntry - v.l3) v.l3 v
  let m ← unlinkEmpty v.m (craftAddr recursiveMappingEntry recursiveMappingEntry recursiveMappingEntry
    recursiveMappingEntry (l4 * 8))
  .next { v with m := m, l3 := 0 }

/-- The lowest address of the range. -/
def rangeBase (addr size : ℕ) : MemDirection → ℕ
  | .memToUpper => addr
  | .memToLower => wsub addr size

/-- The size without the part of the range that lies in a first partial page. -/
def sizeFromPage (addr size : ℕ) : ℕ :=
  if shiftr addr 12 0 ≠ 0 then wsub size (wsub archPageSize (shiftr addr 12 0)) else size

/-- The machine afterwards and the frames of the cleared leaves, in order. -/
def kmunmap (addr size : ℕ) (direction : MemDirection) (m : Machine A) :
    Except Stuck (Machine A × List ℕ) :=
  let addr := rangeBase addr size direction
  let l0 := shiftr addr 12 0
  let size := sizeFromPage addr size
  if size ≤ archPageSize - 1 ∨ size ≤ l0 then .ok (m, [])
  else
    match forLoop kmunmapL4 (archNEntry - shiftr addr 9 39) (shiftr addr 9 39)
      ⟨m, shiftr addr 9 30, shiftr addr 9 21, shiftr addr 9 12, l0, size, []⟩ with
    | .fail e => .error e
    | .done r => .ok r
    | .next v => .ok (v.m, v.freed)

end Code

/-- Page `P` lies wholly inside `[base, base + size)`. -/
def Inside (base size P : ℕ) : Prop := base ≤ 4096 * P ∧ 4096 * P + 4096 ≤ base + size

instance (base size P : ℕ) : Decidable (Inside base size P) := inferInstanceAs (Decidable (_ ∧ _))

section Proof

variable {A : Type} [FrameSource A] {m₀ m : Machine A} {freed : List ℕ} {first P : ℕ}

/-- The pages in `[first, P)` have lost their leaves, and nothing else has changed. -/
structure Unmapping (m₀ : Machine A) (first P : ℕ) (m : Machine A) (freed : List ℕ) : Prop where
  cr3 : m.cr3 = m₀.cr3
  wf : WellFormed m.mem m.root
  live : ∀ r, Proper r → (Live pageTables m.mem m.root r ↔ Live pageTables m₀.mem m₀.root r)
  follow : ∀ r, Proper r → Live pageTables m₀.mem m₀.root r →
    follow pageTables m.mem m.root r = follow pageTables m₀.mem m₀.root r
  upper : ∀ q i, Proper (q ++ [i]) → Live pageTables m₀.mem m₀.root q →
    m.mem (4096 * TableTree.follow pageTables m₀.mem m₀.root q + 8 * i) =
      m₀.mem (4096 * TableTree.follow pageTables m₀.mem m₀.root q + 8 * i)
  leaves : ∀ Q, TreePage Q → leaf m.mem m.root Q = if first ≤ Q ∧ Q < P then 0 else leaf m₀.mem m₀.root Q
  given : freed = (List.range' first (P - first)).map fun Q => cleanBits (leaf m₀.mem m₀.root Q)
  frames : m.frames = freed.foldl (fun frames a => FrameSource.freeFrame a frames) m₀.frames
  faults : ∀ va, translate m₀.mem m₀.cr3 va = none → translate m.mem m.cr3 va = none

theorem Unmapping.refl (hwf : WellFormed m.mem m.root) (h : P ≤ first) : Unmapping m first P m [] where
  cr3 := rfl
  wf := hwf
  live _ _ := Iff.rfl
  follow _ _ _ := rfl
  upper _ _ _ _ := rfl
  leaves Q _ := (if_neg (by omega)).symm
  given := by rw [Nat.sub_eq_zero_of_le h]; rfl
  frames := rfl
  faults _ h := h

theorem Unmapping.skip (h : Unmapping m₀ first P m freed) (hP : P < first) :
    Unmapping m₀ first (P + 1) m freed := by
  have hr : P + 1 - first = P - first := by omega
  refine ⟨h.cr3, h.wf, h.live, h.follow, h.upper, fun Q hQ => ?_, hr ▸ h.given, h.frames, h.faults⟩
  rw [h.leaves Q hQ, if_neg (by omega), if_neg (by omega)]

theorem Unmapping.clear (h : Unmapping m₀ first P m freed) (hfirst : first ≤ P) (hP : TreePage P)
    (hl : Live pageTables m₀.mem m₀.root (pagePath P)) {entry : ℕ}
    (hptr : PointsTo m₀.cr3 entry (pagePath P) (P % 512)) {ρ : Type} :
    ∃ m', (m.load entry : Outcome Stuck ρ ℕ) = .next (leaf m₀.mem m₀.root P) ∧
      ((m.freeFrame (leaf m₀.mem m₀.root P)).store entry 0 : Outcome Stuck ρ _) = .next m' ∧
      Unmapping m₀ first (P + 1) m' (freed ++ [cleanBits (leaf m₀.mem m₀.root P)]) := by
  have hq := pagePath_proper hP
  have hj : P % 512 < 512 := Nat.mod_lt _ (by decide)
  have hroot : m.root = m₀.root := congrArg frameOf h.cr3
  have hlm : Live pageTables m.mem m.root (pagePath P) := (h.live _ hq).mpr hl
  have hptr' : PointsTo m.cr3 entry (pagePath P) (P % 512) := h.cr3 ▸ hptr
  have haddr : translate m.mem m.cr3 entry =
      some (4096 * TableTree.follow pageTables m.mem m.root (pagePath P) + 8 * (P % 512)) :=
    hptr' m.mem h.wf.self (h.wf.linked hq.length hq.index hlm)
  have hold : leaf m.mem m.root P = leaf m₀.mem m₀.root P := by rw [h.leaves P hP, if_neg (by omega)]
  have hload := (leaf_of_live hlm).symm.trans hold
  generalize hx : 4096 * TableTree.follow pageTables m.mem m.root (pagePath P) + 8 * (P % 512) = x at haddr hload
  have hset : LeafSet m.mem m.root P 0 (Function.update m.mem x 0) := hx ▸ h.wf.setLeaf hP hlm 0
  refine ⟨{ m.freeFrame (leaf m₀.mem m₀.root P) with mem := Function.update m.mem x 0 }, ?_, ?_, ?_⟩
  · rw [load_of_translate haddr, hload]
  · exact store_of_translate 0 haddr
  · refine ⟨h.cr3, hset.wf, fun r hr => (hset.live r hr).trans (h.live r hr), fun r hr hlr => ?_,
      fun q i hqi hlq => ?_, fun Q hQ => ?_, ?_, ?_, fun va hva => translate_clear (h.faults va hva)⟩
    · exact (hset.follow r hr ((h.live r hr).mpr hlr)).trans (h.follow r hr hlr)
    · have hq' : Proper q := hqi.initial (List.prefix_append _ _)
      have hsame := hset.upper q i hqi ((h.live q hq').mpr hlq)
      rw [h.follow q hq' hlq] at hsame
      exact hsame.trans (h.upper q i hqi hlq)
    · by_cases he : Q = P
      · subst he
        rw [if_pos ⟨hfirst, Nat.lt_succ_self _⟩]
        exact hset.self
      · have hrange : (first ≤ Q ∧ Q < P + 1) ↔ (first ≤ Q ∧ Q < P) := by omega
        rw [if_congr hrange rfl rfl, ← h.leaves Q hQ]
        exact hset.other Q hQ he
    · have hn : P + 1 - first = P - first + 1 := by omega
      have hlast : first + (P - first) = P := by omega
      rw [hn, List.range'_concat, Nat.one_mul, hlast, List.map_append, ← h.given]
      rfl
    · rw [List.foldl_append, ← h.frames]
      rfl

/-- The first page that starts inside the range. -/
def firstWhole (base : ℕ) : ℕ := if base % 4096 = 0 then base / 4096 else base / 4096 + 1

variable {base size₁ : ℕ} {v : KmunmapVars A}

/-- The invariant of the innermost loop about to visit page `P`, with `size₁` the size from the first
whole page on. -/
structure UnmapInv (m₀ : Machine A) (base size₁ P : ℕ) (v : KmunmapVars A) : Prop where
  cleared : Unmapping m₀ (firstWhole base) P v.m v.freed
  base_le : base / 4096 ≤ P
  l0 : v.l0 = if P = base / 4096 then base % 4096 else 0
  left : v.size + 4096 * (P - firstWhole base) = size₁
  more : 4096 ≤ v.size

theorem kmunmapL1_ends (hlt : size₁ < 2 ^ 64) {l4 l3 l2 l1 : ℕ} (h4 : l4 < 512) (h3 : l3 < 512)
    (h2 : l2 < 512) (h1 : l1 < 512) (hP : TreePage (pageNumber l4 l3 l2 l1))
    (hl : Live pageTables m₀.mem m₀.root [l4, l3, l2])
    (h : UnmapInv m₀ base size₁ (pageNumber l4 l3 l2 l1) v) :
    (kmunmapL1 l4 l3 l2 l1 v).Ends (fun _ => False)
      (fun r => Unmapping m₀ (firstWhole base) (firstWhole base + size₁ / 4096) r.1 r.2 ∧
        firstWhole base + size₁ / 4096 = pageNumber l4 l3 l2 l1 + 1)
      (UnmapInv m₀ base size₁ (pageNumber l4 l3 l2 (l1 + 1))) := by
  have hnext : pageNumber l4 l3 l2 (l1 + 1) = pageNumber l4 l3 l2 l1 + 1 := by unfold pageNumber; omega
  obtain ⟨hp, hm⟩ := pagePath_pageNumber h4 h3 h2 h1
  rw [hnext]
  generalize pageNumber l4 l3 l2 l1 = P at *
  obtain ⟨hcleared, hbase, hl0, hleft, hmore⟩ := h
  have hfirst : firstWhole base = if base % 4096 = 0 then base / 4096 else base / 4096 + 1 := rfl
  unfold kmunmapL1
  by_cases hz : v.l0 = 0
  · have hle : firstWhole base ≤ P := by
      split_ifs at hfirst hl0 <;> omega
    have hptr : PointsTo m₀.cr3 (craftAddr recursiveMappingEntry l4 l3 l2 (l1 * 8)) (pagePath P) (P % 512) := by
      rw [hp, hm]
      exact fun mem hself hlink => translate_l1 hself h4 h3 h2 h1 hlink
    obtain ⟨m', hload, hstore, hcleared'⟩ := hcleared.clear (ρ := Machine A × List ℕ) hle hP (hp ▸ hl) hptr
    obtain ⟨rest, hrest⟩ := Nat.exists_eq_add_of_le' hmore
    have hsub : wsub v.size archPageSize = rest := by
      rw [archPageSize, wsub_eq hmore (by omega), hrest, Nat.add_sub_cancel]
    rw [if_pos hz]
    dsimp only
    rw [hload, next_bind, hstore, next_bind, next_bind, hsub]
    dsimp only
    by_cases hdone : rest < archPageSize
    · have hn : firstWhole base + size₁ / 4096 = P + 1 := by
        unfold archPageSize at hdone
        omega
      rw [if_pos hdone, hn]
      exact ⟨hcleared', rfl⟩
    · rw [if_neg hdone]
      exact ⟨hcleared', by omega, (if_neg (by omega)).symm, by dsimp only; omega, Nat.not_lt.mp hdone⟩
  · have he : P = base / 4096 := by
      by_contra hc
      exact hz (hl0.trans (if_neg hc))
    rw [if_pos he] at hl0
    rw [if_neg (hl0 ▸ hz)] at hfirst
    have hgo : ¬ v.size < archPageSize := Nat.not_lt.mpr hmore
    rw [if_neg hz, next_bind]
    dsimp only
    rw [if_neg hgo]
    exact ⟨hcleared.skip (by omega), by omega, (if_neg (by omega)).symm, by dsimp only; omega, hmore⟩

theorem kmunmapTable_ends (hlt : size₁ < 2 ^ 64) {l4 l3 l2 l1 : ℕ} (h4 : l4 < 512)
    (hne : l4 ≠ recursiveMappingEntry) (h3 : l3 < 512) (h2 : l2 < 512) (h1 : l1 < 512)
    (hl : Live pageTables m₀.mem m₀.root [l4, l3, l2])
    (h : UnmapInv m₀ base size₁ (pageNumber l4 l3 l2 l1) v) :
    (forLoop (kmunmapL1 l4 l3 l2) (archNEntry - l1) l1 v).Ends (fun _ => False)
      (fun r => Unmapping m₀ (firstWhole base) (firstWhole base + size₁ / 4096) r.1 r.2 ∧
        firstWhole base + size₁ / 4096 ≤ pageNumber l4 l3 l2 512)
      (UnmapInv m₀ base size₁ (pageNumber l4 l3 l2 512)) := by
  refine forLoop_ends _ (fun i v => UnmapInv m₀ base size₁ (pageNumber l4 l3 l2 i) v) (fun i v hi hv => ?_)
    l1 v h1.le h
  change i < 512 at hi
  have htree := treePage_pageNumber h4 hne h3 h2 hi
  refine (kmunmapL1_ends hlt h4 h3 h2 hi htree hl hv).mono (fun _ h => h) (fun r ⟨hr, he⟩ => ⟨hr, ?_⟩)
    fun _ h => h
  rw [he]
  unfold pageNumber
  omega

/-- No entry above the last level, read as an address, is mapped. -/
def TablesHidden (m : Machine A) : Prop :=
  ∀ q i, Proper (q ++ [i]) → Live pageTables m.mem m.root q →
    translate m.mem m.cr3 (cleanBits (m.mem (4096 * follow pageTables m.mem m.root q + 8 * i))) = none

omit [FrameSource A] in
theorem isFrameEmpty_of_fault {ρ : Type} {e : ℕ} (h : translate m.mem m.cr3 (cleanBits e) = none) :
    (isFrameEmpty m e : Outcome Stuck ρ Bool) = .fail (.pageFault (cleanBits e)) := by
  have hfirst : wadd (cleanBits e) (8 * 0) = cleanBits e := by
    rw [cleanBits_mod]
    exact wadd_eq (by omega)
  rw [isFrameEmpty, scanZero, hfirst, load_of_fault h]
  rfl

/-- At the end of a page table whose physical address is not mapped `is_frame_empty` faults. -/
theorem unlinkEmpty_faults {ρ : Type} (h : Unmapping m₀ first P m freed) (hhidden : TablesHidden m₀)
    {l4 l3 l2 : ℕ} (h4 : l4 < 512) (hne : l4 ≠ recursiveMappingEntry) (h3 : l3 < 512) (h2 : l2 < 512)
    (hl : Live pageTables m₀.mem m₀.root [l4, l3]) :
    ∃ e, (unlinkEmpty m (craftAddr recursiveMappingEntry recursiveMappingEntry l4 l3 (l2 * 8)) :
      Outcome Stuck ρ _) = .fail e := by
  have hp : Proper [l4, l3, l2] := proper_of_index (by simp) (by simp [h3, h2]) h4 hne
  have hq : Proper [l4, l3] := hp.initial ⟨[l2], rfl⟩
  have hlm : Live pageTables m.mem m.root [l4, l3] := (h.live _ hq).mpr hl
  have haddr : translate m.mem m.cr3 (craftAddr recursiveMappingEntry recursiveMappingEntry l4 l3 (l2 * 8)) =
      some (4096 * TableTree.follow pageTables m.mem m.root [l4, l3] + 8 * l2) :=
    translate_l2 h.wf.self h4 h3 h2 (h.wf.linked hq.length hq.index hlm)
  have hentry : m.mem (4096 * TableTree.follow pageTables m.mem m.root [l4, l3] + 8 * l2) =
      m₀.mem (4096 * TableTree.follow pageTables m₀.mem m₀.root [l4, l3] + 8 * l2) := by
    rw [h.follow _ hq hl]
    exact h.upper [l4, l3] l2 hp hl
  have hfault := h.faults _ (hhidden [l4, l3] l2 hp hl)
  rw [← hentry] at hfault
  exact ⟨_, by rw [unlinkEmpty, load_of_translate haddr, next_bind, isFrameEmpty_of_fault hfault, fail_bind]⟩

theorem kmunmap_nest {l4 l3 l2 : ℕ} (h4 : l4 < archNEntry) (h3 : v.l3 < archNEntry) (h2 : v.l2 < archNEntry)
    (hl3 : v.l3 = l3) (hl2 : v.l2 = l2) :
    (∀ r, forLoop (kmunmapL1 l4 l3 l2) (archNEntry - v.l1) v.l1 v = .done r →
      forLoop kmunmapL4 (archNEntry - l4) l4 v = .done r) ∧
    ∀ e, kmunmapL2 l4 l3 l2 v = .fail e → forLoop kmunmapL4 (archNEntry - l4) l4 v = .fail e := by
  subst hl3 hl2
  rw [forLoop_head h4, kmunmapL4, forLoop_head h3, kmunmapL3, forLoop_head h2]
  refine ⟨fun r hr => ?_, fun e he => ?_⟩
  · rw [kmunmapL2, hr]
    rfl
  · rw [he]
    rfl

theorem kmunmap_run {l4 l3 l2 l1 : ℕ} (h4 : l4 < 512) (h3 : l3 < 512) (h2 : l2 < 512) (h1 : l1 < 512)
    (hwf : WellFormed m.mem m.root) (hP : TreePage (pageNumber l4 l3 l2 l1))
    (hl : Live pageTables m.mem m.root [l4, l3, l2]) (hb : pageNumber l4 l3 l2 l1 = base / 4096)
    (hlt : size₁ < 2 ^ 64) (hmore : 4096 ≤ size₁) :
    (∃ r, forLoop kmunmapL4 (archNEntry - l4) l4 ⟨m, l3, l2, l1, base % 4096, size₁, []⟩ = .done r ∧
      Unmapping m (firstWhole base) (firstWhole base + size₁ / 4096) r.1 r.2 ∧
      firstWhole base + size₁ / 4096 ≤ pageNumber l4 l3 l2 512) ∨
    (pageNumber l4 l3 l2 512 < firstWhole base + size₁ / 4096 ∧ (TablesHidden m →
      ∃ e, forLoop kmunmapL4 (archNEntry - l4) l4 ⟨m, l3, l2, l1, base % 4096, size₁, []⟩ = .fail e)) := by
  obtain ⟨-, hne⟩ := tree_index h3 h2 h1 hP
  have hfirst : base / 4096 ≤ firstWhole base := by unfold firstWhole; split <;> omega
  have hinit : UnmapInv m base size₁ (pageNumber l4 l3 l2 l1) ⟨m, l3, l2, l1, base % 4096, size₁, []⟩ :=
    ⟨.refl hwf (hb ▸ hfirst), hb.ge, (if_pos hb).symm, by dsimp only; omega, hmore⟩
  obtain ⟨hdone, hfail⟩ := kmunmap_nest (v := (⟨m, l3, l2, l1, base % 4096, size₁, []⟩ : KmunmapVars A))
    h4 h3 h2 rfl rfl
  have htable := kmunmapTable_ends hlt h4 hne h3 h2 h1 hl hinit
  cases hrun : forLoop (kmunmapL1 l4 l3 l2) (archNEntry - l1) l1
    (⟨m, l3, l2, l1, base % 4096, size₁, []⟩ : KmunmapVars A) with
  | fail e =>
    rw [hrun] at htable
    exact htable.elim
  | done r =>
    rw [hrun] at htable
    exact .inl ⟨r, hdone r hrun, htable⟩
  | next v =>
    rw [hrun] at htable
    refine .inr ⟨?_, fun hhidden => ?_⟩
    · have := htable.left
      have := htable.more
      omega
    · obtain ⟨e, he⟩ := unlinkEmpty_faults (ρ := Machine A × List ℕ) htable.cleared hhidden h4 hne h3 h2
        (hl.initial ⟨[l2], rfl⟩)
      exact ⟨e, hfail e (by rw [kmunmapL2, hrun, next_bind, he, fail_bind])⟩

/-- The whole run, where the page of the base has a page table. -/
theorem kmunmap_cases {addr size : ℕ} {direction : MemDirection} (hwf : WellFormed m.mem m.root)
    (hbase : base = rangeBase addr size direction % 2 ^ 48) (hP : TreePage (base / 4096))
    (hsize : size₁ = sizeFromPage (rangeBase addr size direction) size) (hlt : size₁ < 2 ^ 64)
    (hl : Live pageTables m.mem m.root (pagePath (base / 4096))) :
    (size₁ / 4096 = 0 ∧ kmunmap addr size direction m = .ok (m, [])) ∨
    (∃ r, kmunmap addr size direction m = .ok r ∧
      Unmapping m (firstWhole base) (firstWhole base + size₁ / 4096) r.1 r.2 ∧
      firstWhole base + size₁ / 4096 ≤ 512 * (base / 4096 / 512 + 1)) ∨
    (512 * (base / 4096 / 512 + 1) < firstWhole base + size₁ / 4096 ∧
      (TablesHidden m → ∃ e, kmunmap addr size direction m = .error e)) := by
  have hl0 : shiftr (rangeBase addr size direction) 12 0 = base % 4096 := by
    rw [shiftr_eq]
    omega
  rw [kmunmap, ← hsize, hl0, shiftr_eq, shiftr_eq, shiftr_eq, shiftr_eq]
  by_cases hsmall : size₁ ≤ archPageSize - 1 ∨ size₁ ≤ base % 4096
  · refine .inl ⟨?_, if_pos hsmall⟩
    unfold archPageSize at hsmall
    omega
  · rw [if_neg hsmall]
    unfold archPageSize at hsmall
    have hpage : pageNumber (rangeBase addr size direction / 2 ^ 39 % 2 ^ 9)
        (rangeBase addr size direction / 2 ^ 30 % 2 ^ 9) (rangeBase addr size direction / 2 ^ 21 % 2 ^ 9)
        (rangeBase addr size direction / 2 ^ 12 % 2 ^ 9) = base / 4096 := by
      unfold pageNumber
      omega
    have h4 : rangeBase addr size direction / 2 ^ 39 % 2 ^ 9 < 512 := Nat.mod_lt _ (by decide)
    have h3 : rangeBase addr size direction / 2 ^ 30 % 2 ^ 9 < 512 := Nat.mod_lt _ (by decide)
    have h2 : rangeBase addr size direction / 2 ^ 21 % 2 ^ 9 < 512 := Nat.mod_lt _ (by decide)
    have h1 : rangeBase addr size direction / 2 ^ 12 % 2 ^ 9 < 512 := Nat.mod_lt _ (by decide)
    obtain ⟨hp, -⟩ := pagePath_pageNumber h4 h3 h2 h1
    have hend : pageNumber (rangeBase addr size direction / 2 ^ 39 % 2 ^ 9)
        (rangeBase addr size direction / 2 ^ 30 % 2 ^ 9) (rangeBase addr size direction / 2 ^ 21 % 2 ^ 9) 512 =
        512 * (base / 4096 / 512 + 1) := by
      unfold pageNumber at hpage ⊢
      omega
    rw [← hend]
    refine .inr ((kmunmap_run h4 h3 h2 h1 hwf (hpage ▸ hP) (hp ▸ hpage ▸ hl) hpage hlt (by omega)).imp ?_ ?_)
    · rintro ⟨r, hr, hcleared⟩
      exact ⟨r, by rw [hr], hcleared⟩
    · rintro ⟨hcross, hfail⟩
      exact ⟨hcross, fun hhidden => (hfail hhidden).imp fun e he => by rw [he]⟩

/-- What `kmunmap` is for: exactly the whole pages of the range lose their leaves, and the frames that
these held are given back, each once. -/
structure Unmaps (m : Machine A) (base size : ℕ) (m' : Machine A) (freed : List ℕ) : Prop where
  leaves : ∀ P, TreePage P →
    leaf m'.mem m'.root P = if Inside base size P then 0 else leaf m.mem m.root P
  frames : ∃ pages : List ℕ, pages.Nodup ∧ (∀ P, P ∈ pages ↔ Inside base size P) ∧
    freed = pages.map fun P => 4096 * frameOf (leaf m.mem m.root P)
  given : m'.frames = freed.foldl (fun frames a => FrameSource.freeFrame a frames) m.frames

/-- The range reaches a page boundary, its whole pages share the page table of its first page, and
their leaves have no bit above the frame number. -/
structure UnmapSafe (m : Machine A) (base size : ℕ) : Prop where
  reach : base % 4096 = 0 ∨ 4096 - base % 4096 ≤ size
  table : ∀ P, Inside base size P → P / 512 = base / 4096 / 512
  frame : ∀ P, Inside base size P → leaf m.mem m.root P / 2 ^ 52 % 2 ^ 12 = 0

theorem sizeFromPage_of_reach {addr size : ℕ} (hbase : base = addr % 2 ^ 48) (hsize : size < 2 ^ 64)
    (h : base % 4096 = 0 ∨ 4096 - base % 4096 ≤ size) :
    4096 * firstWhole base + sizeFromPage addr size = base + size := by
  have hl0 : shiftr addr 12 0 = base % 4096 := by rw [shiftr_eq]; omega
  have hpart : wsub archPageSize (base % 4096) = 4096 - base % 4096 :=
    wsub_eq (by unfold archPageSize; omega) (by decide)
  rw [firstWhole, sizeFromPage, hl0, hpart]
  by_cases hz : base % 4096 = 0
  · rw [if_pos hz, if_neg (not_not.mpr hz)]
    omega
  · have hle := h.resolve_left hz
    rw [if_neg hz, if_pos hz, wsub_eq hle hsize]
    omega

/-- Without a page boundary in the range the size runs below zero. -/
theorem sizeFromPage_of_not_reach {addr size : ℕ} (hbase : base = addr % 2 ^ 48)
    (h : ¬ (base % 4096 = 0 ∨ 4096 - base % 4096 ≤ size)) : 2 ^ 63 ≤ sizeFromPage addr size := by
  have hl0 : shiftr addr 12 0 = base % 4096 := by rw [shiftr_eq]; omega
  have hpart : wsub archPageSize (base % 4096) = 4096 - base % 4096 :=
    wsub_eq (by unfold archPageSize; omega) (by decide)
  rw [sizeFromPage, hl0, hpart, if_pos (by omega), wsub]
  omega

theorem sizeFromPage_lt {addr size : ℕ} (h : size < 2 ^ 64) : sizeFromPage addr size < 2 ^ 64 := by
  unfold sizeFromPage wsub
  split <;> omega

theorem cleanBits_frame {e : ℕ} (h : e / 2 ^ 52 % 2 ^ 12 = 0) : cleanBits e = 4096 * frameOf e := by
  rw [cleanBits_mod, frameOf]
  omega

theorem Unmapping.unmaps {size n : ℕ} {m' : Machine A} (h : Unmapping m first (first + n) m' freed)
    (hin : ∀ P, Inside base size P ↔ first ≤ P ∧ P < first + n)
    (hframe : ∀ P, Inside base size P → leaf m.mem m.root P / 2 ^ 52 % 2 ^ 12 = 0) :
    Unmaps m base size m' freed := by
  have hmem : ∀ P, P ∈ List.range' first (first + n - first) ↔ Inside base size P := fun P => by
    rw [List.mem_range'_1, hin]
    omega
  refine ⟨fun P hP => ?_, ⟨_, List.nodup_range', hmem, ?_⟩, h.frames⟩
  · rw [h.leaves P hP, if_congr (hin P) rfl rfl]
  · rw [h.given]
    exact List.map_congr_left fun P hP => cleanBits_frame (hframe P ((hmem P).mp hP))

/-- `kmunmap` does what it is for on the ranges of `UnmapSafe`, and on no others while the tables
are not mapped at their physical addresses. -/
theorem kmunmap_exact {addr size : ℕ} {direction : MemDirection} (hwf : WellFormed m.mem m.root)
    (hbase : base = rangeBase addr size direction % 2 ^ 48) (hsize : base + size ≤ 2 ^ 48)
    (hslot : ∀ P, Meets base size P → P / 2 ^ 27 ≠ recursiveMappingEntry)
    (hmapped : 0 < size → ∀ P, Meets base size P → leaf m.mem m.root P ≠ 0) :
    (UnmapSafe m base size → ∃ m' freed, kmunmap addr size direction m = .ok (m', freed) ∧
      Unmaps m base size m' freed) ∧
    (TablesHidden m → leaf m.mem m.root (base / 4096) ≠ 0 →
      (∃ m' freed, kmunmap addr size direction m = .ok (m', freed) ∧ Unmaps m base size m' freed) →
      UnmapSafe m base size) := by
  have hmeets : Meets base size (base / 4096) := meets_iff.mpr (by omega)
  have hP : TreePage (base / 4096) := ⟨by omega, hslot _ hmeets⟩
  have hlt : sizeFromPage (rangeBase addr size direction) size < 2 ^ 64 := sizeFromPage_lt (by omega)
  have hin (hreach : base % 4096 = 0 ∨ 4096 - base % 4096 ≤ size) (P : ℕ) : Inside base size P ↔
      firstWhole base ≤ P ∧ P < firstWhole base + sizeFromPage (rangeBase addr size direction) size / 4096 := by
    have htotal := sizeFromPage_of_reach hbase (by omega) hreach
    have hfirst : firstWhole base = if base % 4096 = 0 then base / 4096 else base / 4096 + 1 := rfl
    unfold Inside
    split at hfirst <;> omega
  constructor
  · intro hsafe
    have htotal := sizeFromPage_of_reach hbase (by omega) hsafe.reach
    have hin := hin hsafe.reach
    rcases Nat.eq_zero_or_pos size with rfl | hpos
    · have hzero : sizeFromPage (rangeBase addr 0 direction) 0 = 0 := by
        unfold firstWhole at htotal
        split at htotal <;> omega
      rw [hzero] at hin
      refine ⟨m, [], ?_, (Unmapping.refl hwf le_rfl).unmaps hin hsafe.frame⟩
      rw [kmunmap, hzero]
      exact if_pos (.inl (Nat.zero_le _))
    · rcases kmunmap_cases hwf hbase hP rfl hlt (live_of_leaf (hmapped hpos _ hmeets)) with
        ⟨hn, hrun⟩ | ⟨r, hrun, hr, -⟩ | ⟨hcross, -⟩
      · rw [hn] at hin
        exact ⟨m, [], hrun, (Unmapping.refl hwf le_rfl).unmaps hin hsafe.frame⟩
      · exact ⟨r.1, r.2, hrun, hr.unmaps hin hsafe.frame⟩
      · -- the last whole page would lie in a later page table
        have hfirst : firstWhole base ≤ base / 4096 + 1 := by unfold firstWhole; split <;> omega
        have hlast := hsafe.table (firstWhole base +
          sizeFromPage (rangeBase addr size direction) size / 4096 - 1) ((hin _).mpr (by omega))
        omega
  · rintro hhidden hleaf ⟨m', freed, hrun, hunmaps⟩
    have hfirst : base / 4096 ≤ firstWhole base := by unfold firstWhole; split <;> omega
    have hreach : sizeFromPage (rangeBase addr size direction) size < 2 ^ 63 →
        base % 4096 = 0 ∨ 4096 - base % 4096 ≤ size := fun hlt => by
      by_contra hc
      exact absurd hlt (Nat.not_lt.mpr (sizeFromPage_of_not_reach hbase hc))
    rcases kmunmap_cases hwf hbase hP rfl hlt (live_of_leaf hleaf) with ⟨hn, -⟩ | ⟨r, hr, hcleared, hend⟩ | ⟨-, herr⟩
    · have hreach := hreach (by omega)
      have hnone : ∀ P, ¬ Inside base size P := fun P => by
        rw [hin hreach, hn]
        omega
      exact ⟨hreach, fun P h => absurd h (hnone P), fun P h => absurd h (hnone P)⟩
    · have hreach := hreach (by omega)
      refine ⟨hreach, fun P h => ?_, fun P h => ?_⟩
      · rw [hin hreach] at h
        omega
      · -- a frame number has 40 bits, and every address given back is one of a frame
        obtain ⟨pages, -, -, hpages⟩ := hunmaps.frames
        rw [hr] at hrun
        cases hrun
        have hmem : cleanBits (leaf m.mem m.root P) ∈ freed := by
          rw [show freed = _ from hcleared.given]
          refine List.mem_map_of_mem (List.mem_range'_1.mpr ?_)
          have := (hin hreach P).mp h
          omega
        rw [hpages] at hmem
        obtain ⟨Q, -, hQ⟩ := List.mem_map.mp hmem
        rw [cleanBits_mod, frameOf] at hQ
        omega
    · obtain ⟨e, he⟩ := herr hhidden
      rw [he] at hrun
      cases hrun

end Proof

section Mapped

/-- The last two pages of the first page table are mapped. -/
def mappedMachine : Machine (List ℕ) := (kmmap 0x1fe000 0x2000 2 blankMachine).toOption.getD blankMachine

theorem mappedMachine_wellFormed : WellFormed mappedMachine.mem mappedMachine.root :=
  (kmmap_wellFormed blankMachine_tables.1 blankMachine_fresh rfl ⟨by decide, by decide⟩ (by omega)
    (fun P => Meets.slot_ne (.inl (by decide))) (by decide +kernel) _).1

theorem mappedMachine_leaves : leaf mappedMachine.mem mappedMachine.root 510 = 0x5003 ∧
    leaf mappedMachine.mem mappedMachine.root 511 = 0x6003 := by decide +kernel

theorem kmunmap_exact_page : ∃ m' freed,
    kmunmap 0x1fe000 0x1000 .memToUpper mappedMachine = .ok (m', freed) ∧
      Unmaps mappedMachine 0x1fe000 0x1000 m' freed := by
  have honly (P : ℕ) (h : Meets 0x1fe000 0x1000 P ∨ Inside 0x1fe000 0x1000 P) : P = 510 := by
    rw [meets_iff] at h
    unfold Inside at h
    omega
  refine (kmunmap_exact mappedMachine_wellFormed (by decide) (by omega) (fun P hP => ?_)
    fun _ P hP => ?_).1 ⟨.inl (by decide), fun P hP => ?_, fun P hP => ?_⟩
  · rw [honly P (.inl hP)]
    decide
  · rw [honly P (.inl hP), mappedMachine_leaves.1]
    decide
  · rw [honly P (.inr hP)]
  · rw [honly P (.inr hP), mappedMachine_leaves.1]
    decide

/-- Eight bytes inside page 510: page 511 loses its leaf, and then the walk faults. -/
theorem kmunmap_overruns : ¬ ∀ (m : Machine (List ℕ)) (addr size : ℕ) (direction : MemDirection),
    WellFormed m.mem m.root → rangeBase addr size direction % 2 ^ 48 + size ≤ 2 ^ 48 →
    (∀ P, Meets (rangeBase addr size direction) size P → P / 2 ^ 27 ≠ recursiveMappingEntry) →
    (∀ P, Meets (rangeBase addr size direction) size P → leaf m.mem m.root P ≠ 0) →
    ∃ m' freed, kmunmap addr size direction m = .ok (m', freed) ∧
      Unmaps m (rangeBase addr size direction % 2 ^ 48) size m' freed := by
  intro hall
  have honly (P : ℕ) (h : Meets (rangeBase 0x1fe008 8 .memToUpper) 8 P) : P = 510 := by
    rw [meets_iff, rangeBase] at h
    omega
  obtain ⟨m', freed, hrun, -⟩ := hall mappedMachine 0x1fe008 8 .memToUpper mappedMachine_wellFormed (by decide)
    (fun P hP => by rw [honly P hP]; decide) fun P hP => by rw [honly P hP, mappedMachine_leaves.1]; decide
  have hstuck : (kmunmap 0x1fe008 8 .memToUpper mappedMachine).isOk = false := by decide +kernel
  rw [hrun] at hstuck
  cases hstuck

end Mapped

end Raccoon.Mmu
