import Raccoon.Loops
import Raccoon.PageTables

/-!
The state the virtual memory manager works on: physical memory, the root of
the page tables, the physical allocator and the lock of `kmmap`. The allocator
is a parameter, and every access goes through the hardware walk.
-/

namespace Raccoon.Mmu

open TableTree Loops

/-- `get_frame` and `free_frame`. An exhausted allocator returns no frame. -/
class FrameSource (A : Type) where
  getFrame : A → Option (ℕ × A)
  freeFrame : ℕ → A → A

/-- Why a run of the memory manager does not get to its return. -/
inductive Stuck where
  | pageFault (va : ℕ)
  | outOfMemory
  | lockHeld
deriving DecidableEq, Repr

structure Machine (A : Type) where
  mem : PhysMem
  cr3 : ℕ
  frames : A
  kmmapLock : ℕ

namespace Machine

variable {A ρ : Type}

/-- The frame of the page directory in use. -/
def root (m : Machine A) : ℕ := frameOf m.cr3

def load (m : Machine A) (va : ℕ) : Outcome Stuck ρ ℕ :=
  match Mmu.load m.mem m.cr3 va with
  | some w => .next w
  | none => .fail (.pageFault va)

def store (m : Machine A) (va w : ℕ) : Outcome Stuck ρ (Machine A) :=
  match Mmu.store m.mem m.cr3 va w with
  | some mem => .next { m with mem := mem }
  | none => .fail (.pageFault va)

theorem load_of_translate {m : Machine A} {va x : ℕ} (h : translate m.mem m.cr3 va = some x) :
    (m.load va : Outcome Stuck ρ ℕ) = .next (m.mem x) := by rw [load, Mmu.load, h]; rfl

theorem load_of_fault {m : Machine A} {va : ℕ} (h : translate m.mem m.cr3 va = none) :
    (m.load va : Outcome Stuck ρ ℕ) = .fail (.pageFault va) := by rw [load, Mmu.load, h]; rfl

theorem store_of_translate {m : Machine A} {va x : ℕ} (w : ℕ) (h : translate m.mem m.cr3 va = some x) :
    (m.store va w : Outcome Stuck ρ _) = .next { m with mem := Function.update m.mem x w } := by
  rw [store, Mmu.store, h]; rfl

def grabKmmap (m : Machine A) : Machine A := { m with kmmapLock := 1 }
def releaseKmmap (m : Machine A) : Machine A := { m with kmmapLock := (m.kmmapLock + 2 ^ 16 - 1) % 2 ^ 16 }

@[simp] theorem releaseKmmap_mem (m : Machine A) : m.releaseKmmap.mem = m.mem := by rw [releaseKmmap]

@[simp] theorem releaseKmmap_cr3 (m : Machine A) : m.releaseKmmap.cr3 = m.cr3 := by rw [releaseKmmap]

@[simp] theorem releaseKmmap_root (m : Machine A) : m.releaseKmmap.root = m.root := by rw [root, root, releaseKmmap_cr3]

@[simp] theorem releaseKmmap_frames (m : Machine A) : m.releaseKmmap.frames = m.frames := by rw [releaseKmmap]

end Machine

/-- `get_frame` clears the 512 words of the frame it returns. -/
def zeroFrame (mem : PhysMem) (a : ℕ) : PhysMem := fun x => if x / 4096 = a / 4096 then 0 else mem x

section Supply

variable {A : Type} [FrameSource A]

/-- The frame that the `n`-th call of `get_frame` from now returns. -/
def nthFrame (a : A) : ℕ → Option ℕ
  | 0 => (FrameSource.getFrame a).map Prod.fst
  | n + 1 => (FrameSource.getFrame a).bind fun x => nthFrame x.2 n

theorem nthFrame_succ {a a' : A} {x : ℕ} (h : FrameSource.getFrame a = some (x, a')) (n : ℕ) :
    nthFrame a (n + 1) = nthFrame a' n := by simp [nthFrame, h]

theorem nthFrame_zero {a a' : A} {x : ℕ} (h : FrameSource.getFrame a = some (x, a')) :
    nthFrame a 0 = some x := by simp [nthFrame, h]

/-- The simplest allocator hands out the frames of a list. -/
instance : FrameSource (List ℕ) where
  getFrame
    | [] => none
    | a :: l => some (a, l)
  freeFrame := List.cons

theorem nthFrame_list (l : List ℕ) (n : ℕ) : nthFrame l n = l[n]? := by
  induction l generalizing n with
  | nil => cases n <;> rfl
  | cons a l ih =>
    cases n with
    | zero => rfl
    | succ n => exact ih n

/-- The frames still to be handed out are page aligned, distinct and not in use as tables. -/
structure Fresh (m : Machine A) : Prop where
  aligned : ∀ n a, nthFrame m.frames n = some a → a % 4096 = 0 ∧ a < 2 ^ 52
  apart : ∀ n a, nthFrame m.frames n = some a → ¬ TableFrame m.mem m.root (a / 4096)
  distinct : ∀ i j a, nthFrame m.frames i = some a → nthFrame m.frames j = some a → i = j

end Supply

namespace Machine

variable {A ρ : Type} [FrameSource A]

def getFrame (m : Machine A) : Outcome Stuck ρ (ℕ × Machine A) :=
  match FrameSource.getFrame m.frames with
  | some (a, frames) => .next (a, { m with mem := zeroFrame m.mem a, frames := frames })
  | none => .fail .outOfMemory

/-- `free_frame` drops the low bits of what it is given. -/
def freeFrame (m : Machine A) (address : ℕ) : Machine A :=
  { m with frames := FrameSource.freeFrame (cleanBits address) m.frames }

/-- `if (*entry == 0) *entry = get_frame() | flags | 1;` -/
def ensureEntry (m : Machine A) (entry flags : ℕ) : Outcome Stuck ρ (Machine A) := do
  let e ← m.load entry
  if e = 0 then
    let (a, m) ← m.getFrame
    m.store entry (a ||| flags ||| 1)
  else .next m

end Machine

section Growth

variable {A : Type} [FrameSource A]

/-- Frame number `f` is one of the next `k` frames of the allocator. -/
def Drawn (m : Machine A) (k f : ℕ) : Prop := ∃ i < k, ∃ a, nthFrame m.frames i = some a ∧ f = a / 4096

/-- Outside the tables, the memory of `k` frames that were drawn is blank, and the rest is as before. -/
structure Cleared (m m' : Machine A) (k : ℕ) : Prop where
  blank : ∀ x, ¬ TableFrame m'.mem m'.root (x / 4096) → Drawn m k (x / 4096) → m'.mem x = 0
  rest : ∀ x, ¬ TableFrame m'.mem m'.root (x / 4096) → ¬ Drawn m k (x / 4096) → m'.mem x = m.mem x

/-- What creating tables and leaves from fresh frames keeps. -/
structure Grows (m m' : Machine A) : Prop where
  cr3 : m'.cr3 = m.cr3
  lock : m'.kmmapLock = m.kmmapLock
  wf : WellFormed m'.mem m'.root
  fresh : Fresh m'
  live : ∀ q, Proper q → Live pageTables m.mem m.root q → Live pageTables m'.mem m'.root q
  tables : ∀ t, TableFrame m.mem m.root t → TableFrame m'.mem m'.root t
  drawn : ∃ k, (∀ i, nthFrame m'.frames i = nthFrame m.frames (k + i)) ∧
    (∀ t, TableFrame m'.mem m'.root t → TableFrame m.mem m.root t ∨ Drawn m k t) ∧ Cleared m m' k

end Growth

section Steps

variable {A ρ : Type} [FrameSource A] {m : Machine A} {q : List ℕ} {j entry flags : ℕ}

theorem not_drawn_zero (m : Machine A) (f : ℕ) : ¬ Drawn m 0 f := fun ⟨_, hi, _⟩ => absurd hi (Nat.not_lt_zero _)

theorem Cleared.refl (m : Machine A) : Cleared m m 0 :=
  ⟨fun _ _ h => absurd h (not_drawn_zero m _), fun _ _ _ => rfl⟩

theorem Grows.refl (hwf : WellFormed m.mem m.root) (hfresh : Fresh m) : Grows m m :=
  ⟨rfl, rfl, hwf, hfresh, fun _ _ h => h, fun _ h => h, 0, fun i => by rw [Nat.zero_add], fun _ h => .inl h,
    .refl m⟩

/-- Attribute bits a caller may ask for. -/
structure Attributes (flags : ℕ) : Prop where
  low : flags < 4096
  small : flags.testBit 7 = false

/-- Flags outside the frame field of an entry, which may have attributes above it. -/
structure EntryFlags (flags : ℕ) : Prop where
  frame : frameOf flags = 0
  small : flags.testBit 7 = false

theorem Attributes.entryFlags (h : Attributes flags) : EntryFlags flags :=
  ⟨by rw [frameOf, Nat.div_eq_of_lt h.low, Nat.zero_mod], h.small⟩

theorem frameOf_lor (x y : ℕ) : frameOf (x ||| y) = frameOf x ||| frameOf y := by
  unfold frameOf
  rw [← Nat.shiftRight_eq_div_pow _ 12, ← Nat.shiftRight_eq_div_pow _ 12, ← Nat.shiftRight_eq_div_pow _ 12,
    Nat.shiftRight_or_distrib, Nat.or_mod_two_pow]

theorem EntryFlags.link (h : EntryFlags flags) {a : ℕ} (ha : a % 4096 = 0) (hlt : a < 2 ^ 52) :
    Link (a ||| flags ||| 1) ∧ frameOf (a ||| flags ||| 1) = a / 4096 := by
  have h7 : a.testBit 7 = false := by
    rw [Nat.testBit_eq_decide_div_mod_eq, decide_eq_false_iff_not]; omega
  refine ⟨⟨by simp, by simp [Nat.testBit_or, h7, h.small]; decide⟩, ?_⟩
  have hone : frameOf 1 = 0 := by decide
  rw [frameOf_lor, frameOf_lor, h.frame, hone, Nat.or_zero, Nat.or_zero]
  unfold frameOf
  omega

/-- A pointer that reaches entry `j` of the table at path `q` in every self-mapped tree. -/
def PointsTo (cr3 entry : ℕ) (q : List ℕ) (j : ℕ) : Prop :=
  ∀ mem, SelfMapped mem (frameOf cr3) → Linked mem (frameOf cr3) q →
    translate mem cr3 entry = some (4096 * follow pageTables mem (frameOf cr3) q + 8 * j)

theorem PointsTo.treePath {cr3 entry : ℕ} {q : List ℕ} {j : ℕ} (h : PointsTo cr3 entry q j) :
    PointsTo cr3 entry (treePath q) j := by
  intro mem hself hlink
  rw [follow_treePath hself]
  exact h mem hself ((linked_treePath hself q).mp hlink)

/-- The pointer through which the source reaches the leaf of page `P`. -/
def leafPointer (P : ℕ) : ℕ :=
  craftAddr recursiveMappingEntry (P / 2 ^ 27 % 512) (P / 2 ^ 18 % 512) (P / 2 ^ 9 % 512) (P % 512 * 8)

omit [FrameSource A] in
theorem leafPointer_pointsTo (cr3 P : ℕ) : PointsTo cr3 (leafPointer P) (pagePath P) (P % 512) :=
  fun _ hself hlink => translate_l1 hself (Nat.mod_lt _ (by decide)) (Nat.mod_lt _ (by decide))
    (Nat.mod_lt _ (by decide)) (Nat.mod_lt _ (by decide)) hlink

theorem zeroFrame_of_ne {mem : PhysMem} {a x : ℕ} (h : x / 4096 ≠ a / 4096) : zeroFrame mem a x = mem x :=
  if_neg h

theorem flag_of_entry (a : ℕ) (b : ℕ) (hb : flags.testBit b = true) : (a ||| flags ||| 1).testBit b = true := by
  rw [Nat.testBit_or, Nat.testBit_or, hb, Bool.or_true, Bool.true_or]

/-- Entry `i` of the table at path `q`, zero where there is no table. -/
def pathEntry (mem : PhysMem) (f : ℕ) (q : List ℕ) (i : ℕ) : ℕ :=
  if Live pageTables mem f q then mem (4096 * follow pageTables mem f q + 8 * i) else 0

theorem pathEntry_treePath {mem : PhysMem} {f : ℕ} (h : SelfMapped mem f) (q : List ℕ) (i : ℕ) :
    pathEntry mem f (treePath q) i = pathEntry mem f q i := by
  simp only [pathEntry, live_treePath h, follow_treePath h]

/-- The entries in use are kept, and the new ones have the flags. -/
structure Extends (flags : ℕ) (m m' : Machine A) : Prop where
  kept : ∀ q i, Proper q → i < 512 → pathEntry m.mem m.root q i ≠ 0 →
    pathEntry m'.mem m'.root q i = pathEntry m.mem m.root q i
  new : ∀ q i, Proper q → i < 512 → pathEntry m.mem m.root q i = 0 → pathEntry m'.mem m'.root q i ≠ 0 →
    ∀ b, flags.testBit b = true → (pathEntry m'.mem m'.root q i).testBit b = true

omit [FrameSource A] in
theorem Extends.refl (m : Machine A) : Extends flags m m :=
  ⟨fun _ _ _ _ _ => rfl, fun _ _ _ _ hz hne => absurd hz hne⟩

omit [FrameSource A] in
theorem Extends.trans {m' m'' : Machine A} (h : Extends flags m m') (h' : Extends flags m' m'') :
    Extends flags m m'' := by
  refine ⟨fun q i hq hi hne => ?_, fun q i hq hi hz hne b hb => ?_⟩
  · have hkept := h.kept q i hq hi hne
    rw [h'.kept q i hq hi (hkept.trans_ne hne), hkept]
  · by_cases hz' : pathEntry m'.mem m'.root q i = 0
    · exact h'.new q i hq hi hz' hne b hb
    · rw [h'.kept q i hq hi hz']
      exact h.new q i hq hi hz hz' b hb

/-- Either the entry is in use and nothing changes, or it receives the next frame of the allocator. -/
theorem ensureEntry_cases (hptr : PointsTo m.cr3 entry q j) (hwf : WellFormed m.mem m.root)
    (hfresh : Fresh m) (hq : Proper q) (hl : Live pageTables m.mem m.root q) :
    (m.ensureEntry entry flags : Outcome Stuck ρ _).Ends (· = .outOfMemory) (fun _ => False) fun m' =>
      (m' = m ∧ m.mem (4096 * follow pageTables m.mem m.root q + 8 * j) ≠ 0) ∨
      (m.mem (4096 * follow pageTables m.mem m.root q + 8 * j) = 0 ∧
        ∃ a frames, FrameSource.getFrame m.frames = some (a, frames) ∧
          m' = { m with
            mem := Function.update (zeroFrame m.mem a)
              (4096 * follow pageTables m.mem m.root q + 8 * j) (a ||| flags ||| 1)
            frames := frames }) := by
  have haddr : translate m.mem m.cr3 entry = some (4096 * follow pageTables m.mem m.root q + 8 * j) :=
    hptr m.mem hwf.self (hwf.linked hq.length hq.index hl)
  simp only [Machine.ensureEntry, Machine.load_of_translate haddr, Outcome.next_bind]
  by_cases he : m.mem (4096 * follow pageTables m.mem m.root q + 8 * j) = 0
  · rw [if_pos he]
    cases hg : FrameSource.getFrame m.frames with
    | none => simp [Machine.getFrame, hg]
    | some x =>
      obtain ⟨a, frames⟩ := x
      -- clearing the new frame does not disturb the walk to the entry
      have hout := hwf.outside (zeroFrame m.mem a) fun x hx => zeroFrame_of_ne fun hc =>
        hfresh.apart 0 a (nthFrame_zero hg) (hc ▸ hx)
      have haddr' : translate (zeroFrame m.mem a) m.cr3 entry =
          some (4096 * follow pageTables (zeroFrame m.mem a) m.root q + 8 * j) :=
        hptr _ hout.1.self (hout.1.linked hq.length hq.index ((hout.2.1 q hq).mpr hl))
      rw [hout.2.2.1 q hq hl] at haddr'
      simp only [Machine.getFrame, hg, Outcome.next_bind]
      rw [Machine.store_of_translate _ (by exact haddr'), Outcome.ends_next]
      exact .inr ⟨he, a, frames, rfl, rfl⟩
  · rw [if_neg he]
    exact .inl ⟨rfl, he⟩

omit [FrameSource A] in
theorem agreesExcept_fresh (hwf : WellFormed m.mem m.root) {a e : ℕ}
    (ha : ¬ TableFrame m.mem m.root (a / 4096)) (hq : Proper q) (hl : Live pageTables m.mem m.root q)
    (hj : j < 512) : AgreesExcept pageTables m.mem m.root Proper
      (Function.update (zeroFrame m.mem a) (4096 * follow pageTables m.mem m.root q + 8 * j) e) q j := by
  refine hwf.agreesExcept _ hq hl hj fun x hx hT => ?_
  rw [Function.update_of_ne hx, zeroFrame_of_ne fun hc => ha (hc ▸ hT)]

omit [FrameSource A] in
/-- Writing an unused entry adds that entry to the tree, and at most one table without entries. -/
theorem extends_of_write {m' : Machine A} {e : ℕ} (hroot : m'.root = m.root) (hl : Live pageTables m.mem m.root q)
    (hold : m.mem (4096 * follow pageTables m.mem m.root q + 8 * j) = 0)
    (hag : AgreesExcept pageTables m.mem m.root Proper m'.mem q j)
    (hnew : m'.mem (4096 * follow pageTables m.mem m.root q + 8 * j) = e)
    (hbits : ∀ b, flags.testBit b = true → e.testBit b = true)
    (hlive : ∀ r, Proper r → (Live pageTables m'.mem m.root r ↔ Live pageTables m.mem m.root r ∨ r = q ++ [j]))
    (hfollow : ∀ r, Proper r → Live pageTables m.mem m.root r →
      follow pageTables m'.mem m.root r = follow pageTables m.mem m.root r)
    (hblank : Proper (q ++ [j]) → ∀ i < 512, m'.mem (4096 * follow pageTables m'.mem m.root (q ++ [j]) + 8 * i) = 0) :
    Extends flags m m' := by
  have hother {r : List ℕ} {i : ℕ} (hr : Proper r) (hi : i < 512) (hlr : Live pageTables m.mem m.root r)
      (hne : r ≠ q ∨ i ≠ j) : pathEntry m'.mem m'.root r i = pathEntry m.mem m.root r i := by
    have he := hag r i hr hlr hi hne
    simp only [pageTables_cell] at he
    rw [pathEntry, hroot, if_pos ((hlive r hr).mpr (.inl hlr)), hfollow r hr hlr, he, pathEntry, if_pos hlr]
  have hzero : pathEntry m.mem m.root q j = 0 := by rw [pathEntry, if_pos hl, hold]
  refine ⟨fun r i hr hi hne => ?_, fun r i hr hi hz hne b hb => ?_⟩
  · have hlr : Live pageTables m.mem m.root r := by
      by_contra hdead
      exact hne (if_neg hdead)
    apply hother hr hi hlr
    by_contra hc
    obtain ⟨rfl, rfl⟩ : r = q ∧ i = j := by simpa using hc
    exact hne hzero
  · by_cases hlr : Live pageTables m.mem m.root r
    · by_cases hrq : r ≠ q ∨ i ≠ j
      · rw [hother hr hi hlr hrq] at hne
        exact absurd hz hne
      · obtain ⟨rfl, rfl⟩ : r = q ∧ i = j := by simpa using hrq
        rw [pathEntry, hroot, if_pos ((hlive r hr).mpr (.inl hlr)), hfollow r hr hlr, hnew]
        exact hbits b hb
    · rw [pathEntry, hroot] at hne
      split at hne
      · rename_i hlr'
        obtain rfl := ((hlive r hr).mp hlr').resolve_left hlr
        exact absurd (hblank hr i hi) hne
      · exact absurd rfl hne

/-- A fresh frame stays fresh as long as only earlier frames became tables. -/
theorem Fresh.next {m' : Machine A} (h : Fresh m) {a : ℕ} {frames : A}
    (hg : FrameSource.getFrame m.frames = some (a, frames)) (hf : m'.frames = frames)
    (ht : ∀ t, TableFrame m'.mem m'.root t → TableFrame m.mem m.root t ∨ t = a / 4096) : Fresh m' := by
  have hnth (n : ℕ) : nthFrame m'.frames n = nthFrame m.frames (n + 1) := by
    rw [hf, nthFrame_succ hg]
  refine ⟨fun n b hb => h.aligned (n + 1) b (hnth n ▸ hb), fun n b hb hT => ?_, fun i k b hi hk => ?_⟩
  · rw [hnth] at hb
    rcases ht _ hT with hT' | he
    · exact h.apart (n + 1) b hb hT'
    · have hab : b = a := by
        have h1 := (h.aligned (n + 1) b hb).1
        have h2 := (h.aligned 0 a (nthFrame_zero hg)).1
        omega
      have := h.distinct (n + 1) 0 b hb (hab ▸ nthFrame_zero hg)
      omega
  · have := h.distinct (i + 1) (k + 1) b (hnth i ▸ hi) (hnth k ▸ hk)
    omega

theorem Fresh.grabKmmap (h : Fresh m) : Fresh m.grabKmmap := ⟨h.aligned, h.apart, h.distinct⟩

theorem Fresh.releaseKmmap (h : Fresh m) : Fresh m.releaseKmmap := by
  constructor <;> simp only [Machine.releaseKmmap_mem, Machine.releaseKmmap_root, Machine.releaseKmmap_frames]
  exacts [h.aligned, h.apart, h.distinct]

/-- The write of an entry into a table, after the clearing of a frame, as it looks outside the tables. -/
theorem cleared_of_write {a e : ℕ} {frames : A} (hg : FrameSource.getFrame m.frames = some (a, frames))
    (hj : j < 512) (htable : TableFrame (Function.update (zeroFrame m.mem a)
      (4096 * follow pageTables m.mem m.root q + 8 * j) e) m.root (follow pageTables m.mem m.root q)) :
    Cleared m { m with
      mem := Function.update (zeroFrame m.mem a) (4096 * follow pageTables m.mem m.root q + 8 * j) e
      frames := frames } 1 := by
  have hout (x : ℕ) (hx : ¬ TableFrame (Function.update (zeroFrame m.mem a)
      (4096 * follow pageTables m.mem m.root q + 8 * j) e) m.root (x / 4096)) :
      Function.update (zeroFrame m.mem a) (4096 * follow pageTables m.mem m.root q + 8 * j) e x =
        zeroFrame m.mem a x := by
    refine Function.update_of_ne (fun hc => hx ?_) ..
    have hframe : x / 4096 = follow pageTables m.mem m.root q := by omega
    rwa [hframe]
  refine ⟨fun x hx hd => (hout x hx).trans ?_, fun x hx hd => (hout x hx).trans (zeroFrame_of_ne fun hc => hd ?_)⟩
  · obtain ⟨i, hi, b, hb, he⟩ := hd
    obtain rfl : i = 0 := by omega
    obtain rfl := Option.some.inj ((nthFrame_zero hg).symm.trans hb)
    exact if_pos he
  · exact ⟨0, Nat.one_pos, a, nthFrame_zero hg, hc⟩

/-- At an upper level the entry leads to a table afterwards, and no leaf has changed. -/
theorem ensureEntry_table (hptr : PointsTo m.cr3 entry q j) (hwf : WellFormed m.mem m.root)
    (hfresh : Fresh m) (hqj : Proper (q ++ [j])) (hl : Live pageTables m.mem m.root q)
    (hflags : EntryFlags flags) :
    (m.ensureEntry entry flags : Outcome Stuck ρ _).Ends (· = .outOfMemory) (fun _ => False) fun m' =>
      Grows m m' ∧ Extends flags m m' ∧ Live pageTables m'.mem m'.root (q ++ [j]) ∧
        ∀ P, TreePage P → leaf m'.mem m'.root P = leaf m.mem m.root P := by
  have hq : Proper q := hqj.initial (List.prefix_append _ _)
  refine (ensureEntry_cases hptr hwf hfresh hq hl).mono (fun _ h => h) (fun _ h => h) ?_
  rintro m' (⟨rfl, hne⟩ | ⟨hold, a, frames, hg, rfl⟩)
  · exact ⟨.refl hwf hfresh, .refl m', (live_append q [j]).mpr ⟨hl, hne, trivial⟩, fun _ _ => rfl⟩
  · have hslot : q ≠ [] ∨ j ≠ recursiveMappingEntry := by
      by_contra hc
      obtain ⟨rfl, rfl⟩ : q = [] ∧ j = recursiveMappingEntry := by simpa using hc
      exact hqj.head rfl
    obtain ⟨hal, hlt⟩ := hfresh.aligned 0 a (nthFrame_zero hg)
    have hnot := hfresh.apart 0 a (nthFrame_zero hg)
    obtain ⟨hlink, hframe⟩ := hflags.link hal hlt
    have hag := agreesExcept_fresh (e := a ||| flags ||| 1) hwf hnot hq hl hqj.last
    have hblank : ∀ i < 512, Function.update (zeroFrame m.mem a)
        (4096 * follow pageTables m.mem m.root q + 8 * j) (a ||| flags ||| 1)
        (4096 * frameOf (a ||| flags ||| 1) + 8 * i) = 0 := by
      intro i hi
      rw [hframe, Function.update_of_ne, zeroFrame, if_pos (by omega)]
      intro hc
      obtain ⟨he, -⟩ := pageTables.cell_inj (t := a / 4096) hi hqj.last hc
      exact hnot ⟨q, hq, hl, he.symm⟩
    have hin := hwf.insert_table hqj hl hold hag (selfMapped_of_agrees hwf.self hag hslot)
      (Function.update_self _ _ _) hlink (by rwa [hframe]) hblank
    obtain ⟨hwf', hlive, hfollow, hchild, hleaf⟩ := hin
    have htab : ∀ t, TableFrame (Function.update (zeroFrame m.mem a)
        (4096 * follow pageTables m.mem m.root q + 8 * j) (a ||| flags ||| 1)) m.root t →
        TableFrame m.mem m.root t ∨ t = a / 4096 := by
      rintro t ⟨r, hr, hlr, rfl⟩
      rcases (hlive r hr).mp hlr with hlr' | rfl
      · exact .inl ⟨r, hr, hlr', (hfollow r hr hlr').symm⟩
      · exact .inr (hchild.trans hframe)
    have hkept (r : List ℕ) (hr : Proper r) (hlr : Live pageTables m.mem m.root r) : TableFrame
        (Function.update (zeroFrame m.mem a) (4096 * follow pageTables m.mem m.root q + 8 * j) (a ||| flags ||| 1))
        m.root (follow pageTables m.mem m.root r) := ⟨r, hr, (hlive r hr).mpr (.inl hlr), hfollow r hr hlr⟩
    refine ⟨⟨rfl, rfl, hwf', hfresh.next hg rfl htab, fun r hr hlr => (hlive r hr).mpr (.inl hlr), ?_,
      1, fun i => ?_, fun t ht => (htab t ht).imp_right fun he => ⟨0, by decide, a, nthFrame_zero hg, he⟩,
      cleared_of_write hg hqj.last (hkept q hq hl)⟩, ?_, (hlive _ hqj).mpr (.inr rfl), hleaf⟩
    · rintro t ⟨r, hr, hlr, rfl⟩
      exact hkept r hr hlr
    · rw [Nat.add_comm 1 i]
      exact (nthFrame_succ hg i).symm
    · refine extends_of_write (by rfl) hl hold hag (Function.update_self _ _ _) (flag_of_entry a) hlive hfollow ?_
      intro _ i hi
      dsimp only
      rw [hchild]
      exact hblank i hi

/-- The same for a path through the recursive slot, whose own entry is always in use. -/
theorem ensureEntry_walk (hptr : PointsTo m.cr3 entry q j) (hwf : WellFormed m.mem m.root)
    (hfresh : Fresh m) (hq : q.length ≤ 3) (hlen : (treePath q).length ≤ 2) (hidx : ∀ i ∈ q, i < 512)
    (hj : j < 512) (hl : Live pageTables m.mem m.root q) (hflags : EntryFlags flags) :
    (m.ensureEntry entry flags : Outcome Stuck ρ _).Ends (· = .outOfMemory) (fun _ => False) fun m' =>
      Grows m m' ∧ Extends flags m m' ∧ Live pageTables m'.mem m'.root (q ++ [j]) ∧
        ∀ P, TreePage P → leaf m'.mem m'.root P = leaf m.mem m.root P := by
  have hl' : Live pageTables m.mem m.root (treePath q) := (live_treePath hwf.self q).mpr hl
  by_cases hslot : treePath q = [] ∧ j = recursiveMappingEntry
  · obtain ⟨hq, rfl⟩ := hslot
    have hself := Link.ne hwf.self.link
    have hptr' : PointsTo m.cr3 entry [] recursiveMappingEntry := hq ▸ hptr.treePath
    refine (ensureEntry_cases hptr' hwf hfresh proper_nil live_nil).mono (fun _ h => h) (fun _ h => h) ?_
    rintro m' (⟨rfl, hne⟩ | ⟨hz, -⟩)
    · refine ⟨.refl hwf hfresh, .refl m', (live_append q _).mpr ⟨hl, ?_, trivial⟩, fun _ _ => rfl⟩
      rw [← follow_treePath hwf.self, hq]
      exact hne
    · exact absurd hz hself
  · have hstep := ensureEntry_table (ρ := ρ) hptr.treePath hwf hfresh
      ((treePath_proper hq hidx).snoc hlen hj hslot) hl' hflags
    refine hstep.mono (fun _ h => h) (fun _ h => h) fun m' ⟨hg, he, hlive, hleaf⟩ => ⟨hg, he, ?_, hleaf⟩
    have hself := hg.wf.self
    obtain ⟨hq, hlast⟩ := (live_append _ _).mp hlive
    rw [follow_treePath hself] at hlast
    exact (live_append q [j]).mpr ⟨(live_treePath hself q).mp hq, hlast⟩

/-- At the last level the leaf is in use afterwards; a leaf that was unused received a fresh frame. -/
theorem ensureEntry_leaf (hptr : PointsTo m.cr3 entry q j) (hwf : WellFormed m.mem m.root)
    (hfresh : Fresh m) (hq : Proper q) (hlen : q.length = 3) (hj : j < 512)
    (hl : Live pageTables m.mem m.root q) :
    (m.ensureEntry entry flags : Outcome Stuck ρ _).Ends (· = .outOfMemory) (fun _ => False) fun m' =>
      (m' = m ∧ m.mem (4096 * follow pageTables m.mem m.root q + 8 * j) ≠ 0) ∨
      (m.mem (4096 * follow pageTables m.mem m.root q + 8 * j) = 0 ∧ Grows m m' ∧ Extends flags m m' ∧
        ∃ a, nthFrame m.frames 0 = some a ∧ (∀ i, nthFrame m'.frames i = nthFrame m.frames (i + 1)) ∧
          (∀ t, TableFrame m'.mem m'.root t → TableFrame m.mem m.root t) ∧ Cleared m m' 1 ∧
          (∀ P, pagePath P = q → P % 512 = j → leaf m'.mem m'.root P = a ||| flags ||| 1) ∧
          ∀ P, TreePage P → (pagePath P ≠ q ∨ P % 512 ≠ j) →
            leaf m'.mem m'.root P = leaf m.mem m.root P) := by
  refine (ensureEntry_cases hptr hwf hfresh hq hl).mono (fun _ h => h) (fun _ h => h) ?_
  rintro m' (⟨rfl, hne⟩ | ⟨hold, a, frames, hg, rfl⟩)
  · exact .inl ⟨rfl, hne⟩
  · have hslot : q ≠ [] ∨ j ≠ recursiveMappingEntry := .inl fun hc => by simp [hc] at hlen
    have hnot := hfresh.apart 0 a (nthFrame_zero hg)
    have hag := agreesExcept_fresh (e := a ||| flags ||| 1) hwf hnot hq hl hj
    obtain ⟨hwf', hlive, hfollow, hleaf⟩ :=
      hwf.write_leaf hq hlen hl hag (selfMapped_of_agrees hwf.self hag hslot)
    have htab : ∀ t, TableFrame (Function.update (zeroFrame m.mem a)
        (4096 * follow pageTables m.mem m.root q + 8 * j) (a ||| flags ||| 1)) m.root t →
        TableFrame m.mem m.root t := by
      rintro t ⟨r, hr, hlr, rfl⟩
      have hlr' := (hlive r hr).mp hlr
      exact ⟨r, hr, hlr', (hfollow r hr hlr').symm⟩
    have hkept (r : List ℕ) (hr : Proper r) (hlr : Live pageTables m.mem m.root r) : TableFrame
        (Function.update (zeroFrame m.mem a) (4096 * follow pageTables m.mem m.root q + 8 * j) (a ||| flags ||| 1))
        m.root (follow pageTables m.mem m.root r) := ⟨r, hr, (hlive r hr).mpr hlr, hfollow r hr hlr⟩
    have hclear := cleared_of_write hg hj (hkept q hq hl)
    refine .inr ⟨hold, ⟨rfl, rfl, hwf', hfresh.next hg rfl fun t ht => .inl (htab t ht),
      fun r hr hlr => (hlive r hr).mpr hlr, ?_, 1, fun i => ?_, fun t ht => .inl (htab t ht), hclear⟩, ?_,
      a, nthFrame_zero hg, fun i => (nthFrame_succ hg i).symm, htab, hclear, ?_, hleaf⟩
    · rintro t ⟨r, hr, hlr, rfl⟩
      exact hkept r hr hlr
    · rw [Nat.add_comm 1 i]
      exact (nthFrame_succ hg i).symm
    · have hbot : ¬ Proper (q ++ [j]) := fun hp => by
        have := hp.length
        simp only [List.length_append, hlen, List.length_cons, List.length_nil] at this
        omega
      refine extends_of_write (by rfl) hl hold hag (Function.update_self _ _ _) (flag_of_entry a) ?_ hfollow
        fun hp => absurd hp hbot
      intro r hr
      rw [hlive r hr, or_iff_left]
      rintro rfl
      exact hbot hr
    · rintro P rfl rfl
      refine (leaf_of_live ((hlive _ hq).mpr hl)).trans ?_
      rw [hfollow _ hq hl]
      exact Function.update_self _ _ _

end Steps

end Raccoon.Mmu
