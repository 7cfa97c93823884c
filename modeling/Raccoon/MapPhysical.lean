import Raccoon.FreeRunSize

/-!
`map_physical` looks for free space with `search_empty_space` and `get_size`
and hands it to `kmmap_physical`, which overwrites whatever leaves it meets. The
space is free as long as `get_size` counts in place in every hole on the way to
the first one with room, and that one lies before the recursive slot.
-/

namespace Raccoon.Mmu

open TableTree Loops Outcome Machine Level

structure KmmapPhysicalVars where
  physicalAddr : ℕ
  l0 : ℕ
  size : ℕ
  written : List ℕ

/-- `map_physical` between two accesses to the page tables: in a search for an unused entry, or
measuring the space at an address. -/
inductive MapState where
  | search (st : ScanState Unit)
  | measure (address : ℕ) (st : ScanState ℕ)
deriving DecidableEq, Repr

section Code

variable {A : Type} [FrameSource A]

def kmmapPhysicalPage (flags entry : ℕ) (m : Machine A) (v : KmmapPhysicalVars) :
    Outcome Stuck (Machine A × List ℕ) (Machine A × KmmapPhysicalVars) := do
  let spaceLeft := wsub archPageSize v.l0
  let _ ← m.load entry
  let m ← m.store entry (v.physicalAddr ||| flags ||| 1)
  if spaceLeft ≥ v.size then .done (m, v.written ++ [entry])
  else .next (m, {
    physicalAddr := wadd v.physicalAddr spaceLeft
    l0 := 0
    size := wsub v.size spaceLeft
    written := v.written ++ [entry] })

/-- The machine afterwards and the pointers to the leaves that were written, in order. -/
def kmmapPhysical (addr physicalAddr size flags : ℕ) (m : Machine A) : Except Stuck (Machine A × List ℕ) :=
  match overPages (kmmapPhysicalPage flags) flags addr m ⟨physicalAddr, shiftr addr 12 0, size, []⟩ with
  | .fail e => .error e
  | .done r => .ok r
  | .next c => .ok (c.m, c.vars.written)

omit [FrameSource A] in
/-- The search loop of `map_physical`; it returns the address to map at. -/
def mapStep (m : Machine A) (size : ℕ) : MapState → Outcome Stuck ℕ MapState
  | .search st =>
    match scanStep searchEmptySpaceVisit (fun _ => 0) m st with
    | .fail e => .fail e
    | .done address => if address = 0 then .done 0 else .next (.measure address ⟨plm4, address, 0⟩)
    | .next st => .next (.search st)
  | .measure address st =>
    match scanStep (getSizeVisit size) id m st with
    | .fail e => .fail e
    | .done space =>
      if space < size then .next (.search ⟨plm4, wadd address space, ()⟩) else .done address
    | .next st => .next (.measure address st)

def mapStart : MapState := .search ⟨plm4, craftAddr 1 0 0 0 0, ()⟩

/-- `map_physical(physical_addr, size)` returns `r`, leaves the machine `m'` and has written the leaves
that the pointers `written` point to. -/
def MapPhysical (m : Machine A) (physicalAddr size r : ℕ) (m' : Machine A) (written : List ℕ) : Prop :=
  Returns (mapStep m size) mapStart r ∧ kmmapPhysical r physicalAddr size 2 m = .ok (m', written)

end Code

section Room

variable {A : Type} {m : Machine A} {limit a c e h size r : ℕ} {l : Level}

/-- The first page from `a` on that is not mapped, in the two megabytes of `a`. -/
structure NextHole (m : Machine A) (a h : ℕ) : Prop where
  above : a ≤ h
  aligned : h % 4096 = 0
  near : h / 2 ^ 21 = a / 2 ^ 21
  unmapped : Unmapped m h
  first : ∀ x, a ≤ x → x < h → ¬ Unmapped m x

/-- From `a` on there is a hole with `size` bytes in place before the recursive slot; or a smaller one in place, and
such room from its end on. -/
inductive RoomFrom (m : Machine A) (size : ℕ) : ℕ → Prop where
  | taken {a h : ℕ} (hhole : NextHole m a h) (hroom : InPlace m (h + size) plm4 h (h + size))
      (hslot : h + size ≤ recursiveMappingEntry * 2 ^ 39) : RoomFrom m size a
  | next {a h e : ℕ} (hhole : NextHole m a h) (hrun : InPlace m (h + size) plm4 h e) (hlt : e < h + size)
      (hrest : RoomFrom m size e) : RoomFrom m size a

theorem unmapped_around (hl : Live pageTables m.mem m.root (plm1.path a)) (hin : plm1.index a + c < 512) :
    Unmapped m (a + c * plm1.unit) ↔ around m a c = 0 := by
  rw [← rotate_add hin, unmapped_iff, entryAt_around]
  exact ⟨fun h => h ((live_rotate c).mpr hl), fun h _ => h⟩

/-- `search_empty_space` finds the hole. -/
theorem NextHole.found (hwf : WellFormed m.mem m.root) (ha : a % 4096 = 0) (hhole : NextHole m a h)
    (hr : SearchEmptySpace m a r) : r = h := by
  rcases (searchEmptySpace_iff hwf).mp hr with ⟨hdead, rfl⟩ | ⟨hl, c, hz, hmin, rfl⟩
  · by_contra hne
    have hlt : r < h := Nat.lt_of_le_of_ne hhole.above hne
    exact hhole.first r le_rfl hlt ((unmapped_iff r).mpr fun hl => absurd hl hdead)
  · obtain ⟨j, hj, hin⟩ : ∃ j, h = a + j * plm1.unit ∧ plm1.index a + j < 512 := by
      have habove := hhole.above
      have haligned := hhole.aligned
      have hnear := hhole.near
      refine ⟨(h - a) / 4096, ?_, ?_⟩ <;> simp only [index, unit, shift] <;> omega
    have hfree : around m a j = 0 := (unmapped_around hl hin).mp (hj ▸ hhole.unmapped)
    rcases Nat.lt_trichotomy c j with hlt | rfl | hgt
    · refine absurd ((unmapped_around hl (by omega)).mpr hz) (hhole.first _ (Nat.le_add_right ..) ?_)
      rw [hj]
      exact Nat.add_lt_add_left (Nat.mul_lt_mul_of_pos_right hlt plm1.unit_pos) a
    · rw [rotate_add hin, hj]
    · exact absurd hfree (hmin j hgt)

theorem InPlace.aligned (hrun : InPlace m limit l a e) (ha : a % 4096 = 0) : e = limit ∨ e % 4096 = 0 := by
  induction hrun with
  | leaf => exact .inr (aligned_add ha plm1 _)
  | down _ _ _ _ _ _ ih => exact ih (aligned_add ha _ _)
  | covered => exact .inl rfl

/-- The search in the loop of `map_physical`, and what follows. -/
theorem search_returns (hr : Returns (mapStep m size) (.search ⟨plm4, a, ()⟩) r) : ∃ address,
    SearchEmptySpace m a address ∧
      (address ≠ 0 → Returns (mapStep m size) (.measure address ⟨plm4, address, 0⟩) r) := by
  obtain ⟨address, hsearch, hk⟩ := hr.nested (scanStep searchEmptySpaceVisit (fun _ => 0) m) MapState.search
    (fun address => if address = 0 then .done 0 else .next (MapState.measure address ⟨plm4, address, 0⟩))
    (fun st e h => by rw [mapStep, h]) (fun st address h => by rw [mapStep, h]) fun st st' h => by rw [mapStep, h]
  refine ⟨address, hsearch, fun hne => ?_⟩
  rw [if_neg hne] at hk
  rcases hk with hk | ⟨s, hk, hs⟩
  · cases hk
  · cases hk
    exact hs

theorem measure_returns (hr : Returns (mapStep m size) (.measure a ⟨plm4, a, 0⟩) r) : ∃ space, GetSize m a size space ∧
    if space < size then Returns (mapStep m size) (.search ⟨plm4, wadd a space, ()⟩) r else r = a := by
  obtain ⟨space, hspace, hk⟩ := hr.nested (scanStep (getSizeVisit size) id m) (MapState.measure a)
    (fun space => if space < size then .next (MapState.search ⟨plm4, wadd a space, ()⟩) else .done a)
    (fun st e h => by rw [mapStep, h]) (fun st space h => by rw [mapStep, h]) fun st st' h => by rw [mapStep, h]
  refine ⟨space, hspace, ?_⟩
  by_cases hlt : space < size
  · rw [if_pos hlt] at hk ⊢
    rcases hk with hk | ⟨s, hk, hs⟩
    · cases hk
    · cases hk
      exact hs
  · rw [if_neg hlt] at hk ⊢
    rcases hk with hk | ⟨s, hk, -⟩
    · cases hk
      rfl
    · cases hk

/-- The pages in `[lo, hi)` lie outside the recursive slot and have no leaf. -/
def FreePages (m : Machine A) (lo hi : ℕ) : Prop :=
  ∀ P, lo ≤ P → P < hi → TreePage P ∧ leaf m.mem m.root P = 0

theorem InPlace.freePages (hroom : InPlace m (a + size) plm4 a (a + size)) (ha : a % 4096 = 0) (hpos : 0 < size)
    (hslot : a + size ≤ recursiveMappingEntry * 2 ^ 39) : FreePages m (a / 4096) ((a + size + 4095) / 4096) := by
  obtain ⟨hfree, -⟩ := hroom.free live_nil ha (by omega)
  intro P hlo hhi
  unfold recursiveMappingEntry at hslot
  have htop : 4096 * P < spaceTop a := by
    rw [spaceTop]
    omega
  have hpage : 4096 * P / 4096 % 2 ^ 36 = P := by omega
  have hun := hfree (4096 * P) (by omega) (by omega) htop
  rw [Unmapped, hpage] at hun
  refine ⟨⟨by omega, ?_⟩, hun⟩
  unfold recursiveMappingEntry
  omega

/-- The address that `map_physical` takes is that of the room. -/
theorem RoomFrom.taken_free (hwf : WellFormed m.mem m.root) (hpos : 0 < size) (hroom : RoomFrom m size a)
    (ha : a % 4096 = 0) (hlow : 0 < a) (htop : a < 2 ^ 48)
    (hr : Returns (mapStep m size) (.search ⟨plm4, a, ()⟩) r) :
    r % 4096 = 0 ∧ r + size ≤ recursiveMappingEntry * 2 ^ 39 ∧
      FreePages m (r / 4096) ((r + size + 4095) / 4096) := by
  induction hroom with
  | @taken a h hhole hroom hslot =>
    obtain ⟨address, hsearch, hmeasure⟩ := search_returns hr
    obtain rfl := hhole.found hwf ha hsearch
    have habove := hhole.above
    obtain ⟨space, hspace, hk⟩ := measure_returns (hmeasure (by omega))
    rcases hroom.size hwf live_nil ⟨by decide, by decide⟩ rfl (by omega) hspace with ⟨hlt, -⟩ | ⟨-, hge⟩
    · exact absurd hlt (Nat.lt_irrefl _)
    · rw [if_neg (Nat.not_lt.mpr hge)] at hk
      subst hk
      exact ⟨hhole.aligned, hslot, hroom.freePages hhole.aligned hpos hslot⟩
  | @next a h e hhole hrun hlt _ ih =>
    obtain ⟨address, hsearch, hmeasure⟩ := search_returns hr
    obtain rfl := hhole.found hwf ha hsearch
    have habove := hhole.above
    have hnear := hhole.near
    obtain ⟨space, hspace, hk⟩ := measure_returns (hmeasure (by omega))
    rcases hrun.size hwf live_nil ⟨by decide, by decide⟩ rfl (by omega) hspace with ⟨-, he⟩ | ⟨he, -⟩
    · obtain ⟨-, hend⟩ := hrun.free live_nil hhole.aligned (by omega)
      rcases hend with hend | ⟨hle, -, hsame, -⟩
      · omega
      · simp only [unit, shift] at hsame
        have hnext : wadd address space = e := (wadd_eq (by omega)).trans (by omega)
        have haligned : e % 4096 = 0 := (hrun.aligned hhole.aligned).resolve_left hlt.ne
        rw [if_pos (by omega), hnext] at hk
        exact ih haligned (by omega) (by omega) hk
    · omega

end Room

section Overwrite

variable {A : Type} [FrameSource A] {m : Machine A} {lo hi P size r : ℕ}

/-- The leaf of page `P` has become `w`, and nothing else in the tree has changed. -/
structure LeafWritten (m : Machine A) (P w : ℕ) (m' : Machine A) : Prop where
  cr3 : m'.cr3 = m.cr3
  frames : m'.frames = m.frames
  wf : WellFormed m'.mem m'.root
  live : Live pageTables m'.mem m'.root (pagePath P)
  tables : ∀ t, TableFrame m'.mem m'.root t ↔ TableFrame m.mem m.root t
  self : leaf m'.mem m'.root P = w
  other : ∀ Q, TreePage Q → Q ≠ P → leaf m'.mem m'.root Q = leaf m.mem m.root Q

theorem LeafWritten.fresh {m' : Machine A} {w : ℕ} (h : LeafWritten m P w m') (hfresh : Fresh m) : Fresh m' := by
  constructor <;> rw [h.frames]
  · exact hfresh.aligned
  · exact fun n a ha => (h.tables _).not.mpr (hfresh.apart n a ha)
  · exact hfresh.distinct

omit [FrameSource A] in
theorem store_leaf {ρ : Type} (hwf : WellFormed m.mem m.root) (hP : TreePage P)
    (hl : Live pageTables m.mem m.root (pagePath P)) (w : ℕ) :
    (m.store (leafPointer P) w : Outcome Stuck ρ _).Ends (fun _ => False) (fun _ => False) (LeafWritten m P w) := by
  have hq := pagePath_proper hP
  have haddr := leafPointer_pointsTo m.cr3 P m.mem hwf.self (hwf.linked hq.length hq.index hl)
  rw [store_of_translate w haddr, ends_next]
  have hset := hwf.setLeaf hP hl w
  refine ⟨rfl, rfl, hset.wf, (hset.live _ hq).mpr hl, fun t => ⟨?_, ?_⟩, hset.self, hset.other⟩
  · rintro ⟨q, hq', hlq, rfl⟩
    have hlq' := (hset.live q hq').mp hlq
    exact ⟨q, hq', hlq', (hset.follow q hq' hlq').symm⟩
  · rintro ⟨q, hq', hlq, rfl⟩
    exact ⟨q, hq', (hset.live q hq').mpr hlq, hset.follow q hq' hlq⟩

omit [FrameSource A] in
/-- From the start of a page the visit writes its leaf; it ends the call with the last page of the range. -/
theorem kmmapPhysicalPage_ends {flags : ℕ} {v : KmmapPhysicalVars} (hwf : WellFormed m.mem m.root) (hP : TreePage P)
    (hl : Live pageTables m.mem m.root (pagePath P)) (hoffset : v.l0 = 0) (hlt : v.size < 2 ^ 64) :
    (kmmapPhysicalPage flags (leafPointer P) m v).Ends (fun _ => False)
      (fun s => v.size ≤ 4096 ∧ s.2 = v.written ++ [leafPointer P] ∧
        LeafWritten m P (v.physicalAddr ||| flags ||| 1) s.1)
      fun s => 4096 < v.size ∧
        s.2 = ⟨wadd v.physicalAddr 4096, 0, v.size - 4096, v.written ++ [leafPointer P]⟩ ∧
        LeafWritten m P (v.physicalAddr ||| flags ||| 1) s.1 := by
  have hq := pagePath_proper hP
  have haddr := leafPointer_pointsTo m.cr3 P m.mem hwf.self (hwf.linked hq.length hq.index hl)
  have hspace : wsub archPageSize v.l0 = 4096 := by rw [hoffset]; rfl
  rw [kmmapPhysicalPage, load_of_translate haddr, next_bind, hspace]
  refine ((store_leaf hwf hP hl _).mono (fun _ h => h.elim) (fun _ h => h.elim) fun _ h => h).bind fun m' hm' => ?_
  by_cases hlast : 4096 ≥ v.size
  · rw [if_pos hlast]
    exact ⟨hlast, rfl, hm'⟩
  · have hsize : wsub v.size 4096 = v.size - 4096 := wsub_eq (by omega) hlt
    rw [if_neg hlast, hsize]
    exact ⟨by omega, rfl, hm'⟩

/-- The invariant of the nest of `kmmap_physical`, about to visit page `P` of the pages from `lo` to `hi`. -/
structure OverwriteInv (lo hi P : ℕ) (m : Machine A) (v : KmmapPhysicalVars) : Prop where
  wf : WellFormed m.mem m.root
  fresh : Fresh m
  offset : v.l0 = 0
  pos : 0 < v.size
  le : lo ≤ P
  rest : 4096 * P + v.size ≤ 4096 * hi
  written : ∀ entry ∈ v.written, ∃ Q, lo ≤ Q ∧ Q < P ∧ entry = leafPointer Q

theorem OverwriteInv.append {v : KmmapPhysicalVars} (h : OverwriteInv lo hi P m v) {entry : ℕ}
    (he : entry ∈ v.written ++ [leafPointer P]) : ∃ Q, lo ≤ Q ∧ Q < P + 1 ∧ entry = leafPointer Q := by
  rcases List.mem_append.mp he with he | he
  · obtain ⟨Q, h1, h2, h3⟩ := h.written entry he
    exact ⟨Q, h1, by omega, h3⟩
  · exact ⟨P, h.le, P.lt_succ_self, List.mem_singleton.mp he⟩

theorem kmmapPhysical_pageInvariant (htree : ∀ P, lo ≤ P → P < hi → TreePage P) (hhi : hi ≤ 2 ^ 36) :
    PageInvariant (A := A) (kmmapPhysicalPage 2)
      (fun s => ∀ entry ∈ s.2, ∃ Q, lo ≤ Q ∧ Q < hi ∧ entry = leafPointer Q) (OverwriteInv lo hi) where
  tree h := htree _ h.le (by have := h.pos; have := h.rest; omega)
  wf h := h.wf
  fresh h := h.fresh
  table h hg _ := ⟨hg.wf, hg.fresh, h.offset, h.pos, h.le, h.rest, h.written⟩
  body {P m v} h hl := by
    have hpos := h.pos
    have hrest := h.rest
    have hP := htree P h.le (by omega)
    refine (kmmapPhysicalPage_ends h.wf hP hl h.offset (by omega)).mono (fun _ h => h.elim) ?_ ?_
    · rintro s ⟨-, hs, -⟩ entry he
      rw [hs] at he
      obtain ⟨Q, h1, h2, h3⟩ := h.append he
      exact ⟨Q, h1, by omega, h3⟩
    · rintro ⟨m', v'⟩ ⟨hmore, rfl, hm'⟩
      refine ⟨⟨hm'.wf, hm'.fresh h.fresh, rfl, ?_, h.le.step, ?_, fun entry he => h.append he⟩, hm'.live⟩ <;>
        dsimp only <;> omega

/-- `map_physical` writes no leaf that was in use, provided that `get_size` counts in place on the way to room. -/
theorem mapPhysical_unused {physicalAddr : ℕ} {m' : Machine A} {written : List ℕ}
    (hwf : WellFormed m.mem m.root) (hfresh : Fresh m) (hpos : 0 < size) (hroom : RoomFrom m size 0x8000000000)
    (h : MapPhysical m physicalAddr size r m' written) :
    ∀ entry ∈ written, ∃ P, TreePage P ∧ entry = leafPointer P ∧ leaf m.mem m.root P = 0 := by
  obtain ⟨hr, hrun⟩ := h
  obtain ⟨haligned, hslot, hfree⟩ := hroom.taken_free hwf hpos (by decide) (by decide) (by decide) hr
  unfold recursiveMappingEntry at hslot
  have hflags : EntryFlags 2 := ⟨by decide, by decide⟩
  have hoffset : shiftr r 12 0 = 0 := by rw [shiftr_eq]; omega
  have hfirst : r % 2 ^ 48 / 4096 = r / 4096 := by omega
  have hend := (kmmapPhysical_pageInvariant (fun P h1 h2 => (hfree P h1 h2).1) (by omega)).ends hflags r m
    ⟨physicalAddr, shiftr r 12 0, size, []⟩
    ⟨hwf, hfresh, hoffset, hpos, hfirst.ge, by rw [hfirst]; dsimp only; omega, by simp⟩
  rw [kmmapPhysical] at hrun
  cases ho : overPages (kmmapPhysicalPage 2) 2 r m ⟨physicalAddr, shiftr r 12 0, size, []⟩ with
  | fail e => rw [ho] at hrun; cases hrun
  | next c => rw [ho] at hend; exact hend.elim
  | done s =>
    rw [ho] at hrun hend
    cases hrun
    intro entry he
    obtain ⟨Q, h1, h2, h3⟩ := hend entry he
    exact ⟨Q, (hfree Q h1 h2).1, h3, (hfree Q h1 h2).2⟩

theorem branch_fresh (g : ℕ → ℕ → ℕ) : Fresh (branchMachine g []) := by
  have hnone (n a : ℕ) : nthFrame (branchMachine g []).frames n ≠ some a := by
    rw [branchMachine, nthFrame_list]
    simp
  exact ⟨fun n a h => absurd h (hnone n a), fun n a h => absurd h (hnone n a), fun i _ a h => absurd h (hnone i a)⟩

/-- Two unused pages, one in use, and five unused ones. -/
def twoHoles (t j : ℕ) : ℕ := if t = 0 ∧ j ≠ 2 ∧ j < 8 then 0 else 0x6003

theorem twoHoles_inPlace {limit a e : ℕ} (ha : plm1.path a = [1, 0, 0]) (hlt : a < limit)
    (h : InPlace (branchMachine twoHoles []) limit plm1 a e) : InPlace (branchMachine twoHoles []) limit plm4 a e := by
  have hlive : Live pageTables (branchMachine twoHoles []).mem (branchMachine twoHoles []).root (plm1.path a) :=
    ha ▸ branch_live [] (by decide)
  have h2 : InPlace (branchMachine twoHoles []) limit plm2 a e := h.up (by decide) hlive hlt
  have h3 : InPlace (branchMachine twoHoles []) limit plm3 a e :=
    h2.up (by decide) (upper_live (l := plm1) (by decide) hlive).1 hlt
  exact h3.up (by decide) (upper_live (l := plm1) (by decide) hlive).1 hlt

/-- The second hole has room for three pages. -/
theorem twoHoles_room : RoomFrom (branchMachine twoHoles []) 0x3000 0x8000000000 := by
  have hfirst : NextHole (branchMachine twoHoles []) 0x8000000000 0x8000000000 :=
    ⟨le_rfl, rfl, rfl, by unfold Unmapped; decide +kernel, fun x hx hx' => absurd hx (Nat.not_le.mpr hx')⟩
  have hsecond : NextHole (branchMachine twoHoles []) 0x8000002000 0x8000003000 := by
    refine ⟨by decide, rfl, rfl, by unfold Unmapped; decide +kernel, fun x hx hx' => ?_⟩
    have hpage : x / 4096 % 2 ^ 36 = 0x8000002 := by omega
    rw [Unmapped, hpage]
    decide +kernel
  have hsmall : InPlace (branchMachine twoHoles []) 0x8000003000 plm1 0x8000000000 0x8000002000 :=
    .leaf (c := 2) ⟨by decide +kernel, by decide +kernel⟩ (by decide) (by decide)
  have hlarge : InPlace (branchMachine twoHoles []) 0x8000006000 plm1 0x8000003000 0x8000006000 := by
    refine .covered (k := 3) (by decide +kernel) (by decide) (by decide) fun x hx hx' => ?_
    simp only [unit, shift] at hx
    omega
  exact .next hfirst (twoHoles_inPlace rfl (by decide) hsmall) (by decide)
    (.taken hsecond (twoHoles_inPlace rfl (by decide) hlarge) (by decide))

theorem mapPhysical_unused_holes : ∃ m' written,
    MapPhysical (branchMachine twoHoles []) 0 0x3000 0x8000003000 m' written ∧
    written = [leafPointer 0x8000003, leafPointer 0x8000004, leafPointer 0x8000005] ∧
    ∀ entry ∈ written, ∃ P, TreePage P ∧ entry = leafPointer P ∧
      leaf (branchMachine twoHoles []).mem (branchMachine twoHoles []).root P = 0 := by
  have hreturns : Returns (mapStep (branchMachine twoHoles []) 0x3000) mapStart 0x8000003000 :=
    ⟨21, by decide +kernel⟩
  have hwritten : (kmmapPhysical 0x8000003000 0 0x3000 2 (branchMachine twoHoles [])).map Prod.snd =
      .ok [leafPointer 0x8000003, leafPointer 0x8000004, leafPointer 0x8000005] := by decide +kernel
  cases hrun : kmmapPhysical 0x8000003000 0 0x3000 2 (branchMachine twoHoles []) with
  | error e => rw [hrun] at hwritten; cases hwritten
  | ok s =>
    rw [hrun] at hwritten
    exact ⟨s.1, s.2, ⟨hreturns, hrun⟩, Except.ok.inj hwritten,
      mapPhysical_unused (branch_wellFormed []) (branch_fresh _) (by decide) twoHoles_room ⟨hreturns, hrun⟩⟩

theorem leafPointer_inj {Q : ℕ} (hP : P < 2 ^ 36) (hQ : Q < 2 ^ 36) (h : leafPointer P = leafPointer Q) :
    P = Q := by
  rw [leafPointer, leafPointer, craftAddr_eq (by decide) (by omega) (by omega) (by omega) (by omega),
    craftAddr_eq (by decide) (by omega) (by omega) (by omega) (by omega)] at h
  omega

/-- A page table with its first and last entry unused, and the page after it in use. -/
def splitEntry (t j : ℕ) : ℕ := if t = 0 ∧ (j = 0 ∨ j = 511) then 0 else 0x6003

/-- The last page of the table and the first one are counted as two pages in a row. -/
theorem mapPhysical_overwrites : ¬ ∀ (m : Machine (List ℕ)) (physicalAddr size r : ℕ) (m' : Machine (List ℕ))
    (written : List ℕ), WellFormed m.mem m.root → Fresh m → physicalAddr % 4096 = 0 → 0 < size → size < 2 ^ 64 →
    MapPhysical m physicalAddr size r m' written →
    ∀ entry ∈ written, ∃ P, TreePage P ∧ entry = leafPointer P ∧ leaf m.mem m.root P = 0 := by
  intro hall
  have hreturns : Returns (mapStep (branchMachine splitEntry []) 0x2000) mapStart 0x80001ff000 :=
    ⟨530, by decide +kernel⟩
  have hwritten : (kmmapPhysical 0x80001ff000 0 0x2000 2 (branchMachine splitEntry [])).map Prod.snd =
      .ok [leafPointer 0x80001ff, leafPointer 0x8000200] := by decide +kernel
  cases hrun : kmmapPhysical 0x80001ff000 0 0x2000 2 (branchMachine splitEntry []) with
  | error e => rw [hrun] at hwritten; cases hwritten
  | ok s =>
    rw [hrun] at hwritten
    have hs : s.2 = [leafPointer 0x80001ff, leafPointer 0x8000200] := Except.ok.inj hwritten
    obtain ⟨P, hP, he, hz⟩ := hall _ 0 0x2000 _ s.1 s.2 (branch_wellFormed []) (branch_fresh _) (by decide) (by decide)
      (by decide) ⟨hreturns, hrun⟩ (leafPointer 0x8000200) (by rw [hs]; simp)
    obtain rfl := leafPointer_inj (by decide) hP.1 he
    have hpath : pagePath 0x8000200 = [1, 0, 1] := by decide
    rw [leaf_of_live (hpath ▸ branch_live [] (by decide)), hpath] at hz
    exact absurd ((branch_entry (g := splitEntry) [] (by decide) (by decide)).symm.trans hz) (by decide)

end Overwrite

end Raccoon.Mmu
