import Raccoon.Runs
import Raccoon.SearchAvailable

/-!
The access a mapping gives. The hardware asks all four entries on the walk to a
page, and `kmmap` only writes those that are unused, so what a call grants
depends on the entries that earlier calls have left on the way.
-/

namespace Raccoon.Mmu

open TableTree Loops Outcome Machine Runs

/-- The writable and the user bit. -/
def accessBits : List ℕ := [1, 2]

/-- The indices of the four entries on the walk to page `P`. -/
def walkIndices (P : ℕ) : List ℕ := pagePath P ++ [P % 512]

inductive MapCall where
  | kmmap (addr size flags : ℕ)
  | spaceAlloc (size flags : ℕ)

/-- The attributes that a call hands to `kmmap`. -/
def MapCall.archFlags : MapCall → ℕ
  | .kmmap _ _ flags => flags
  | .spaceAlloc _ flags => convertToArchFlags flags

theorem EntryFlags.lor {x y : ℕ} (hx : EntryFlags x) (hy : EntryFlags y) : EntryFlags (x ||| y) :=
  ⟨by rw [frameOf_lor, hx.frame, hy.frame, Nat.or_zero], by rw [Nat.testBit_or, hx.small, hy.small, Bool.or_false]⟩

theorem entryFlags_ite {c : Prop} [Decidable c] {x : ℕ} (hx : EntryFlags x) : EntryFlags (if c then x else 0) := by
  split
  · exact hx
  · exact ⟨by decide, by decide⟩

theorem convertToArchFlags_entryFlags (flags : ℕ) : EntryFlags (convertToArchFlags flags) := by
  refine .lor (.lor (.lor (.lor (.lor ?_ ?_) ?_) ?_) ?_) ?_
  all_goals exact entryFlags_ite ⟨by decide, by decide⟩

section Access

variable {A ρ : Type} {m m' : Machine A} {P b flags : ℕ}

/-- The hardware grants what bit `b` stands for in page `P`. -/
def Grants (m : Machine A) (P b : ℕ) : Prop :=
  P < 2 ^ 36 ∧ ∀ q i, q ++ [i] <+: walkIndices P → (pathEntry m.mem m.root q i).testBit b = true

/-- The entries in use on the walk to page `P` have bit `b`. -/
def Allows (m : Machine A) (P b : ℕ) : Prop :=
  P < 2 ^ 36 ∧ ∀ q i, q ++ [i] <+: walkIndices P → pathEntry m.mem m.root q i ≠ 0 →
    (pathEntry m.mem m.root q i).testBit b = true

def Used (m : Machine A) (P : ℕ) : Prop := Live pageTables m.mem m.root (walkIndices P)

theorem walk_index {q : List ℕ} {i : ℕ} (h : q ++ [i] <+: walkIndices P) :
    q.length ≤ 3 ∧ (∀ j ∈ q, j < 512) ∧ i < 512 := by
  have hidx : ∀ j ∈ walkIndices P, j < 512 := by
    intro j hj
    simp only [walkIndices, pagePath, List.cons_append, List.nil_append, List.mem_cons, List.not_mem_nil,
      or_false] at hj
    omega
  have hmem {j : ℕ} (hj : j ∈ q ++ [i]) : j < 512 := hidx j (h.subset hj)
  refine ⟨?_, fun j hj => hmem (List.mem_append_left _ hj), hmem (by simp)⟩
  have hlen := h.length_le
  rw [List.length_append] at hlen
  exact Nat.le_of_succ_le_succ hlen

theorem pathEntry_ne_zero {mem : PhysMem} {f : ℕ} {q : List ℕ} {i : ℕ} :
    pathEntry mem f q i ≠ 0 ↔ Live pageTables mem f (q ++ [i]) := by
  rw [live_append, pathEntry]
  by_cases hl : Live pageTables mem f q
  · simp [hl]
  · simp [hl]

theorem Used.entry (h : Used m P) {q : List ℕ} {i : ℕ} (hq : q ++ [i] <+: walkIndices P) :
    pathEntry m.mem m.root q i ≠ 0 := pathEntry_ne_zero.mpr (h.initial hq)

theorem Extends.access (h : Extends flags m m') (hself : SelfMapped m.mem m.root)
    (hself' : SelfMapped m'.mem m'.root) (hb : flags.testBit b = true) {q : List ℕ} {i : ℕ}
    (hq : q ++ [i] <+: walkIndices P) (hused : pathEntry m'.mem m'.root q i ≠ 0) :
    (pathEntry m'.mem m'.root q i).testBit b = true ↔
      (pathEntry m.mem m.root q i ≠ 0 → (pathEntry m.mem m.root q i).testBit b = true) := by
  obtain ⟨hlen, hidx, hi⟩ := walk_index hq
  have hproper := treePath_proper hlen hidx
  rw [← pathEntry_treePath hself'] at hused ⊢
  rw [← pathEntry_treePath hself]
  by_cases hz : pathEntry m.mem m.root (treePath q) i = 0
  · simp [hz, h.new _ i hproper hi hz hused b hb]
  · rw [h.kept _ i hproper hi hz, imp_iff_right hz]

theorem Extends.used (h : Extends flags m m') (hself : SelfMapped m.mem m.root)
    (hself' : SelfMapped m'.mem m'.root) (hused : Used m P) : Used m' P := by
  have hlast : pagePath P ++ [P % 512] <+: walkIndices P := List.prefix_rfl
  obtain ⟨hlen, hidx, hi⟩ := walk_index hlast
  have hentry := hused.entry hlast
  rw [← pathEntry_treePath hself] at hentry
  have hkept := h.kept _ _ (treePath_proper hlen hidx) hi hentry
  rw [pathEntry_treePath hself'] at hkept
  exact pathEntry_ne_zero.mp (hkept.trans_ne hentry)

theorem Extends.allows (h : Extends flags m m') (hself : SelfMapped m.mem m.root)
    (hself' : SelfMapped m'.mem m'.root) (hb : flags.testBit b = true) (ha : Allows m P b) : Allows m' P b :=
  ⟨ha.1, fun q i hq hne => (h.access hself hself' hb hq hne).mpr (ha.2 q i hq)⟩

theorem Extends.grants_iff (h : Extends flags m m') (hself : SelfMapped m.mem m.root)
    (hself' : SelfMapped m'.mem m'.root) (hb : flags.testBit b = true) (hused : P < 2 ^ 36 → Used m' P) :
    Grants m' P b ↔ Allows m P b := by
  refine and_congr_right fun hP => forall_congr' fun q => forall_congr' fun i => imp_congr_right fun hq => ?_
  exact h.access hself hself' hb hq ((hused hP).entry hq)

/-- The hardware reaches an address whose page is in use, if the last entry on the way is present. -/
theorem translate_of_used {va : ℕ} (hwf : WellFormed m.mem m.root) (hc : canonical va = true)
    (hused : Used m (va % 2 ^ 48 / 4096)) (hallow : Allows m (va % 2 ^ 48 / 4096) 0) :
    translate m.mem m.cr3 va ≠ none := by
  obtain ⟨hpath, hindex⟩ := pagePath_address va
  have hlast : pagePath (va % 2 ^ 48 / 4096) ++ [va % 2 ^ 48 / 4096 % 512] <+: walkIndices (va % 2 ^ 48 / 4096) :=
    List.prefix_rfl
  obtain ⟨hlen, hidx, -⟩ := walk_index hlast
  have hl : Live pageTables m.mem m.root (pagePath (va % 2 ^ 48 / 4096)) := hused.initial (List.prefix_append _ _)
  have hbit := hallow.2 _ _ hlast (hused.entry hlast)
  have hlinked := hwf.linked hlen hidx hl
  rw [pathEntry, if_pos hl, hindex] at hbit
  rw [hpath] at hlinked hbit
  rw [translate_of_walk hc hlinked hbit]
  exact Option.some_ne_none _

end Access

section Call

variable {A ρ : Type} [FrameSource A] {m₀ m m' : Machine A} {P entry flags addr size : ℕ}

/-- The visit of a page leaves it in use, also inside the recursive slot, where its entry is one of a table
higher up. -/
theorem ensureEntry_page (hptr : PointsTo m.cr3 entry (pagePath P) (P % 512)) (hP : P < 2 ^ 36)
    (hwf : WellFormed m.mem m.root) (hfresh : Fresh m) (hl : Live pageTables m.mem m.root (pagePath P))
    (hflags : EntryFlags flags) :
    (m.ensureEntry entry flags : Outcome Stuck ρ _).Ends (· = .outOfMemory) (fun _ => False) fun m' =>
      Grows m m' ∧ Extends flags m m' ∧ Live pageTables m'.mem m'.root (pagePath P) ∧ Used m' P := by
  by_cases hslot : P / 2 ^ 27 = recursiveMappingEntry
  · have hpath : pagePath P = recursiveMappingEntry :: [P / 2 ^ 18 % 512, P / 2 ^ 9 % 512] := by
      rw [pagePath, hslot]
      rfl
    have hlen : (treePath (pagePath P)).length ≤ 2 := by
      rw [hpath, treePath_self]
      exact treePath_length _
    obtain ⟨hq, hidx, hi⟩ := walk_index (P := P) (q := pagePath P) List.prefix_rfl
    refine (ensureEntry_walk hptr hwf hfresh hq hlen hidx hi hl hflags).mono (fun _ h => h) (fun _ h => h) ?_
    rintro m' ⟨hg, he, hl', -⟩
    exact ⟨hg, he, hl'.initial (List.prefix_append _ _), hl'⟩
  · have hproper := pagePath_proper ⟨hP, hslot⟩
    refine (ensureEntry_leaf hptr hwf hfresh hproper rfl (Nat.mod_lt _ (by decide)) hl).mono (fun _ h => h)
      (fun _ h => h) ?_
    rintro m' (⟨rfl, hne⟩ | ⟨-, hg, he, a, -, -, -, -, hleaf, -⟩)
    · exact ⟨.refl hwf hfresh, .refl m', hl, (live_append _ _).mpr ⟨hl, hne, trivial⟩⟩
    · refine ⟨hg, he, hg.live _ hproper hl, pathEntry_ne_zero.mp ?_⟩
      have hlast : pathEntry m'.mem m'.root (pagePath P) (P % 512) = a ||| flags ||| 1 := hleaf P rfl rfl
      rw [hlast]
      exact ne_zero_of_bit (b := 0) (by simp)

structure AccessInv (m₀ : Machine A) (flags addr size P : ℕ) (m : Machine A) : Prop where
  wf : WellFormed m.mem m.root
  fresh : Fresh m
  grown : Extends flags m₀ m
  used : ∀ Q, addr % 2 ^ 48 / 4096 ≤ Q → Q < P → Used m Q

theorem AccessInv.grow (h : AccessInv m₀ flags addr size P m) (hg : Grows m m') (he : Extends flags m m') :
    AccessInv m₀ flags addr size P m' :=
  ⟨hg.wf, hg.fresh, h.grown.trans he, fun Q hlo hhi => he.used h.wf.self hg.wf.self (h.used Q hlo hhi)⟩

theorem access_nestInvariant (m₀ : Machine A) (addr : ℕ) (hflags : EntryFlags flags) (hsize : size < 2 ^ 64) :
    NestInvariant flags (kmmapPage flags)
      (fun r => ∃ m, r = m.releaseKmmap ∧
        AccessInv m₀ flags addr size ((addr % 2 ^ 48 + max size 1 - 1) / 4096 + 1) m)
      (fun P m v => AccessInv m₀ flags addr size P m ∧ RangeLeft addr size P v) where
  wf h := h.1.wf
  fresh h := h.1.fresh
  table h hg he _ := ⟨h.1.grow hg he, h.2⟩
  body {P m v} hP h hl := by
    obtain ⟨h, hv⟩ := h
    have hentry := ensureEntry_page (ρ := Machine A) (leafPointer_pointsTo m.cr3 P) hP h.wf h.fresh hl hflags
    -- after the visit the pages up to `P` are in use
    have hnext {m' : Machine A} (hg : Grows m m') (he : Extends flags m m') (hused : Used m' P) :
        AccessInv m₀ flags addr size (P + 1) m' := by
      have h' := h.grow hg he
      refine ⟨h'.wf, h'.fresh, h'.grown, fun Q hlo hhi => ?_⟩
      rcases Nat.lt_succ_iff_lt_or_eq.mp hhi with hlt | rfl
      · exact h'.used Q hlo hlt
      · exact hused
    refine (kmmapPage_ends hv hsize hentry).mono (fun _ h => h) ?_ fun s h => ?_
    · rintro r ⟨m', rfl, hlast, hg, he, -, hused⟩
      exact ⟨m', rfl, hlast ▸ hnext hg he hused⟩
    · obtain ⟨hv', hg, he, hl', hused⟩ := h
      exact ⟨⟨hnext hg he hused, hv'⟩, hl'⟩

omit [FrameSource A] in
theorem Extends.releaseKmmap (h : Extends flags m m') : Extends flags m m'.releaseKmmap := by
  constructor <;> simp only [releaseKmmap_mem, releaseKmmap_root]
  exacts [h.kept, h.new]

/-- What a call of `kmmap` that returns has done, whatever its range. -/
theorem kmmap_grows (hwf : WellFormed m.mem m.root) (hfresh : Fresh m) (hflags : EntryFlags flags)
    (hsize : size < 2 ^ 64) (hrun : kmmap addr size flags m = .ok m') :
    WellFormed m'.mem m'.root ∧ Fresh m' ∧ Extends flags m m' ∧
      ∀ P, Meets addr size P → P < 2 ^ 36 → Used m' P := by
  have hl0 : addr &&& maskL0 = addr % 4096 := Nat.and_two_pow_sub_one_eq_mod addr 12
  have hend := overPages_ends (access_nestInvariant m.grabKmmap addr hflags hsize) hflags addr
    m.grabKmmap ⟨addr % 4096, size⟩ ⟨⟨hwf, hfresh.grabKmmap, .refl _, by omega⟩, .inl ⟨rfl, rfl, rfl⟩⟩
  have hdone {n : ℕ} {m₁ : Machine A} (h : AccessInv m.grabKmmap flags addr size n m₁)
      (hn : ∀ P, Meets addr size P → P < 2 ^ 36 → P < n) :
      WellFormed m₁.releaseKmmap.mem m₁.releaseKmmap.root ∧ Fresh m₁.releaseKmmap ∧
        Extends flags m m₁.releaseKmmap ∧ ∀ P, Meets addr size P → P < 2 ^ 36 → Used m₁.releaseKmmap P := by
    refine ⟨?_, h.fresh.releaseKmmap, Extends.releaseKmmap ⟨h.grown.kept, h.grown.new⟩, fun P hP hlt => ?_⟩
    · rw [releaseKmmap_mem, releaseKmmap_root]
      exact h.wf
    · rw [Used, releaseKmmap_mem, releaseKmmap_root]
      exact h.used P (meets_iff.mp hP).1 (hn P hP hlt)
  rw [kmmap, hl0] at hrun
  split at hrun
  case isTrue => cases hrun
  case isFalse =>
    split at hrun
    case h_1 => cases hrun
    case h_2 r hnest =>
      cases hrun
      rw [hnest] at hend
      obtain ⟨m₁, rfl, h⟩ := hend
      exact hdone h fun P hP _ => (meets_iff.mp hP).2
    case h_3 c hnest =>
      cases hrun
      rw [hnest] at hend
      exact hdone hend.1 fun P _ hlt => hlt

end Call

section Calls

variable {A : Type} [FrameSource A] {m₀ m m' : Machine A} {P b flags addr size : ℕ} {calls : List MapCall}

/-- One call that returns, for a caller that leaves the frame field and the size bit to `kmmap`. -/
inductive MapStep (m : Machine A) : MapCall → Machine A → Prop
  | kmmap {addr size flags : ℕ} {m' : Machine A} : size < 2 ^ 64 → EntryFlags flags →
      kmmap addr size flags m = .ok m' → MapStep m (.kmmap addr size flags) m'
  | spaceAlloc {size flags a : ℕ} {m' : Machine A} : size < 2 ^ 64 → SpaceAlloc m size flags a m' →
      MapStep m (.spaceAlloc size flags) m'

theorem MapStep.grows {c : MapCall} (hwf : WellFormed m.mem m.root) (hfresh : Fresh m) (h : MapStep m c m') :
    WellFormed m'.mem m'.root ∧ Fresh m' ∧ Extends c.archFlags m m' := by
  cases h with
  | kmmap hsize hflags hrun =>
    obtain ⟨hwf', hfresh', he, -⟩ := kmmap_grows hwf hfresh hflags hsize hrun
    exact ⟨hwf', hfresh', he⟩
  | spaceAlloc hsize halloc =>
    obtain ⟨-, hrun⟩ := halloc
    split at hrun
    · subst hrun
      exact ⟨hwf, hfresh, .refl _⟩
    · obtain ⟨hwf', hfresh', he, -⟩ := kmmap_grows hwf hfresh (convertToArchFlags_entryFlags _) hsize hrun
      exact ⟨hwf', hfresh', he⟩

theorem run_tables (hwf : WellFormed m₀.mem m₀.root) (hfresh : Fresh m₀) (hcalls : Run MapStep m₀ calls m) :
    WellFormed m.mem m.root ∧ Fresh m := by
  refine hcalls.invariant (fun _ m => WellFormed m.mem m.root ∧ Fresh m) ⟨hwf, hfresh⟩ ?_
  intro _ m c m' ⟨hwf, hfresh⟩ hstep
  obtain ⟨hwf', hfresh', -⟩ := hstep.grows hwf hfresh
  exact ⟨hwf', hfresh'⟩

theorem run_allows (hwf : WellFormed m₀.mem m₀.root) (hfresh : Fresh m₀) (hcalls : Run MapStep m₀ calls m)
    (hask : ∀ c ∈ calls, c.archFlags.testBit b = true) (ha : Allows m₀ P b) : Allows m P b := by
  have hinv := hcalls.invariant
    (fun calls m => (WellFormed m.mem m.root ∧ Fresh m) ∧
      ((∀ c ∈ calls, c.archFlags.testBit b = true) → Allows m P b)) ⟨⟨hwf, hfresh⟩, fun _ => ha⟩ ?_
  · exact hinv.2 hask
  · intro calls m c m' ⟨⟨hwf, hfresh⟩, ha⟩ hstep
    obtain ⟨hwf', hfresh', he⟩ := hstep.grows hwf hfresh
    refine ⟨⟨hwf', hfresh'⟩, fun hask => ?_⟩
    exact he.allows hwf.self hwf'.self (hask c (by simp)) (ha fun c hc => hask c (List.mem_append_left _ hc))

theorem run_used (hwf : WellFormed m₀.mem m₀.root) (hfresh : Fresh m₀) (hcalls : Run MapStep m₀ calls m)
    (hused : Used m₀ P) : Used m P := by
  have hinv := hcalls.invariant (fun _ m => (WellFormed m.mem m.root ∧ Fresh m) ∧ Used m P)
    ⟨⟨hwf, hfresh⟩, hused⟩ ?_
  · exact hinv.2
  · intro _ m c m' ⟨⟨hwf, hfresh⟩, hused⟩ hstep
    obtain ⟨hwf', hfresh', he⟩ := hstep.grows hwf hfresh
    exact ⟨⟨hwf', hfresh'⟩, he.used hwf.self hwf'.self hused⟩

theorem kmmap_grants_iff (hwf : WellFormed m.mem m.root) (hfresh : Fresh m) (hflags : EntryFlags flags)
    (hsize : size < 2 ^ 64) (hrun : kmmap addr size flags m = .ok m') (hP : Meets addr size P)
    (hb : flags.testBit b = true) : Grants m' P b ↔ Allows m P b := by
  obtain ⟨hwf', -, he, hused⟩ := kmmap_grows hwf hfresh hflags hsize hrun
  exact he.grants_iff hwf.self hwf'.self hb (hused P hP)

/-- If every call of a run asks for the access, the next one grants it where the run started without
entries that forbid it. -/
theorem run_grants (hwf : WellFormed m₀.mem m₀.root) (hfresh : Fresh m₀) (hcalls : Run MapStep m₀ calls m)
    (hask : ∀ c ∈ calls, c.archFlags.testBit b = true) (ha : Allows m₀ P b) (hflags : EntryFlags flags)
    (hsize : size < 2 ^ 64) (hrun : kmmap addr size flags m = .ok m') (hP : Meets addr size P)
    (hb : flags.testBit b = true) : Grants m' P b := by
  obtain ⟨hwf', hfresh'⟩ := run_tables hwf hfresh hcalls
  exact (kmmap_grants_iff hwf' hfresh' hflags hsize hrun hP hb).mpr (run_allows hwf hfresh hcalls hask ha)

/-- In any run of mapping calls, the next call of `kmmap` grants the access it is asked for exactly if
the entries that are in use on the way to its pages already allow it. -/
theorem kmmap_access_iff (hwf : WellFormed m₀.mem m₀.root) (hfresh : Fresh m₀) (hcalls : Run MapStep m₀ calls m)
    (hflags : EntryFlags flags) (hsize : size < 2 ^ 64) (hrun : kmmap addr size flags m = .ok m') :
    (∀ P, Meets addr size P → ∀ b ∈ accessBits, flags.testBit b = true → Grants m' P b) ↔
      ∀ P, Meets addr size P → ∀ b ∈ accessBits, flags.testBit b = true → Allows m P b := by
  obtain ⟨hwf, hfresh⟩ := run_tables hwf hfresh hcalls
  exact forall_congr' fun P => forall_congr' fun hP => forall₂_congr fun b _ => imp_congr_right fun hb =>
    kmmap_grants_iff hwf hfresh hflags hsize hrun hP hb

end Calls

section Launch

/-- A new page directory with frames for the calls of a launch. -/
def launchMachine : Machine (List ℕ) :=
  { blankMachine with frames := [0x2000, 0x3000, 0x4000, 0x5000, 0x6000, 0x7000] }

theorem launchMachine_wellFormed : WellFormed launchMachine.mem launchMachine.root := blankMachine_tables.1

theorem launchMachine_fresh : Fresh launchMachine := fresh_of_blank 6 (by decide)

theorem launchMachine_search : SearchAvailable launchMachine 0x1000 0x1000 0x1000 := by
  have hmissing : ¬ Live pageTables launchMachine.mem launchMachine.root (Level.plm1.path 0x1000) := by decide +kernel
  exact (searchAvailable_iff launchMachine_wellFormed).mpr (.inl ⟨hmissing, rfl⟩)

/-- The first call of `init_protocol` has mapped a page, present and for the user. -/
def protocolMachine : Machine (List ℕ) := (kmmap 0x1000 0x1000 5 launchMachine).toOption.getD launchMachine

def stackMachine : Machine (List ℕ) := (kmmap 0x10000 0x2000 7 protocolMachine).toOption.getD protocolMachine

theorem kmmap_access_launch : ∃ m', kmmap 0x10000 0x2000 7 launchMachine = .ok m' ∧
    ∀ P, Meets 0x10000 0x2000 P → Grants m' P 1 ∧ Grants m' P 2 := by
  have hallow (P : ℕ) (hP : Meets 0x10000 0x2000 P) (b : ℕ) : Allows launchMachine P b := by
    have hlt := meets_iff.mp hP
    refine ⟨by omega, fun q i hq hne => ?_⟩
    have hfirst : P / 2 ^ 27 % 512 = 0 := by omega
    have hl := pathEntry_ne_zero.mp hne
    cases q with
    | nil =>
      obtain rfl : i = P / 2 ^ 27 % 512 := (List.cons_prefix_cons.mp hq).1
      rw [hfirst] at hl
      exact absurd rfl hl.1
    | cons j q =>
      obtain rfl : j = P / 2 ^ 27 % 512 := (List.cons_prefix_cons.mp hq).1
      rw [hfirst] at hl
      exact absurd rfl hl.1
  have hrun := ok_of_isOk (x := kmmap 0x10000 0x2000 7 launchMachine) (by decide +kernel) launchMachine
  have hflags : EntryFlags 7 := ⟨by decide, by decide⟩
  have hgrant := (kmmap_access_iff launchMachine_wellFormed launchMachine_fresh .nil hflags (by decide) hrun).mpr
    fun P hP b _ _ => hallow P hP b
  exact ⟨_, hrun, fun P hP => ⟨hgrant P hP 1 (by decide) (by decide), hgrant P hP 2 (by decide) (by decide)⟩⟩

/-- The stack that `entry_launch` maps after `init_protocol` is not writable: the table above it was created
for pages that only have to be present and for the user. -/
theorem stack_not_writable : ¬ ∀ (m₀ m m' : Machine (List ℕ)) (calls : List MapCall) (addr size flags : ℕ),
    WellFormed m₀.mem m₀.root → Fresh m₀ → Run MapStep m₀ calls m → EntryFlags flags → 0 < size → size < 2 ^ 64 →
    kmmap addr size flags m = .ok m' →
    ∀ P, Meets addr size P → ∀ b ∈ accessBits, flags.testBit b = true → Grants m' P b := by
  intro hall
  have hprotocol : kmmap 0x1000 0x1000 5 launchMachine = .ok protocolMachine := ok_of_isOk (by decide +kernel) _
  have hstack : kmmap 0x10000 0x2000 7 protocolMachine = .ok stackMachine := ok_of_isOk (by decide +kernel) _
  have hcalls : Run MapStep launchMachine [.spaceAlloc 0x1000 5] protocolMachine :=
    .snoc [] _ _ _ .nil (.spaceAlloc (a := 0x1000) (by decide) ⟨launchMachine_search, hprotocol⟩)
  have hgrant := hall launchMachine protocolMachine stackMachine _ 0x10000 0x2000 7 launchMachine_wellFormed
    launchMachine_fresh hcalls ⟨by decide, by decide⟩ (by decide) (by decide) hstack 16 (meets_iff.mpr (by decide)) 1
    (by decide) (by decide)
  have hbit : (pathEntry stackMachine.mem stackMachine.root [] 0).testBit 1 = false := by decide +kernel
  rw [hgrant.2 [] 0 ⟨_, rfl⟩] at hbit
  cases hbit

end Launch

end Raccoon.Mmu
