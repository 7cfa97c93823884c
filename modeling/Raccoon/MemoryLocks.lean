import Raccoon.SearchAvailable

/-!
The locks of `space_alloc` and `kmmap`. A lock counts up from zero where it is
taken and down where it is released, so it can be taken again after exactly one
release.
-/

namespace Raccoon.Mmu

open TableTree Loops Outcome Machine Level

/-- A machine with the lock of `space_alloc`. -/
structure LockedMachine (A : Type) where
  machine : Machine A
  spaceAllocLock : ℕ

section Code

variable {A : Type} [FrameSource A]

def grabSpaceAlloc (s : LockedMachine A) : LockedMachine A := { s with spaceAllocLock := 1 }

def releaseSpaceAlloc (s : LockedMachine A) : LockedMachine A :=
  { s with spaceAllocLock := (s.spaceAllocLock + 2 ^ 16 - 1) % 2 ^ 16 }

/-- `space_alloc`, where `search_available` has returned `address`. A caller that finds a lock held spins. -/
def spaceAlloc (address size flags : ℕ) (s : LockedMachine A) : Except Stuck (ℕ × LockedMachine A) :=
  if s.spaceAllocLock ≠ 0 then .error .lockHeld
  else
    let s := grabSpaceAlloc s
    if address = 0 then .ok (0, s)
    else do
      let m ← kmmap address size (convertToArchFlags flags) s.machine
      .ok (address, releaseSpaceAlloc { s with machine := m })

end Code

section Locks

variable {A X ρ : Type} [FrameSource A] {m m' : Machine A} {entry flags addr size : ℕ}

omit [FrameSource A] in
theorem store_lock (va w : ℕ) : (m.store va w : Outcome Stuck ρ _).Ends (fun _ => True) (fun _ => False)
    fun m' => m'.kmmapLock = m.kmmapLock := by
  rw [Machine.store]
  split
  · rfl
  · trivial

theorem getFrame_lock : (m.getFrame : Outcome Stuck ρ _).Ends (fun _ => True) (fun _ => False)
    fun x => x.2.kmmapLock = m.kmmapLock := by
  rw [Machine.getFrame]
  split
  · rfl
  · trivial

omit [FrameSource A] in
theorem load_lock (va : ℕ) : (m.load va : Outcome Stuck ρ _).Ends (fun _ => True) (fun _ => False) fun _ => True := by
  rw [Machine.load]
  split
  · trivial
  · trivial

theorem ensureEntry_lock (entry flags : ℕ) : (m.ensureEntry entry flags : Outcome Stuck ρ _).Ends (fun _ => True)
    (fun _ => False) fun m' => m'.kmmapLock = m.kmmapLock := by
  rw [Machine.ensureEntry]
  refine (load_lock entry).bind fun e _ => ?_
  split
  · refine getFrame_lock.bind fun x hx => ?_
    exact (store_lock entry _).mono (fun _ h => h) (fun _ h => h) fun _ h => h.trans hx
  · rfl

theorem overPages_lock {page : ℕ → Machine A → X → Outcome Stuck ρ (Machine A × X)} {R : ρ → Prop} {n : ℕ}
    (hpage : ∀ entry m x, m.kmmapLock = n → (page entry m x).Ends (fun _ => True) R fun s => s.1.kmmapLock = n)
    (hm : m.kmmapLock = n) (x : X) :
    (overPages page flags addr m x).Ends (fun _ => True) R fun c => c.m.kmmapLock = n := by
  have hentry (c : Cursor A X) (hc : c.m.kmmapLock = n) (e : ℕ) : (c.m.ensureEntry e flags : Outcome Stuck ρ _).Ends
      (fun _ => True) R fun m' => m'.kmmapLock = n :=
    (ensureEntry_lock e flags).mono (fun _ h => h) (fun _ h => h.elim) fun _ h => h.trans hc
  have hfor (body : ℕ → Cursor A X → Outcome Stuck ρ (Cursor A X))
      (hbody : ∀ i c, c.m.kmmapLock = n → (body i c).Ends (fun _ => True) R fun c' => c'.m.kmmapLock = n)
      (k i : ℕ) (c : Cursor A X) (hc : c.m.kmmapLock = n) :
      (forLoop body k i c).Ends (fun _ => True) R fun c' => c'.m.kmmapLock = n := by
    induction k generalizing i c with
    | zero => exact hc
    | succ k ih => exact (hbody i c hc).bind fun c' hc' => ih (i + 1) c' hc'
  have h1 (l4 l3 l2 i : ℕ) (c : Cursor A X) (hc : c.m.kmmapLock = n) :
      (overL1 page l4 l3 l2 i c).Ends (fun _ => True) R fun c' => c'.m.kmmapLock = n :=
    (hpage _ _ _ hc).bind fun s hs => hs
  have h2 (l4 l3 i : ℕ) (c : Cursor A X) (hc : c.m.kmmapLock = n) :
      (overL2 page flags l4 l3 i c).Ends (fun _ => True) R fun c' => c'.m.kmmapLock = n :=
    (hentry c hc _).bind fun m' hm' => (hfor _ (h1 l4 l3 i) _ _ _ hm').bind fun c' hc' => hc'
  have h3 (l4 i : ℕ) (c : Cursor A X) (hc : c.m.kmmapLock = n) :
      (overL3 page flags l4 i c).Ends (fun _ => True) R fun c' => c'.m.kmmapLock = n :=
    (hentry c hc _).bind fun m' hm' => (hfor _ (h2 l4 i) _ _ _ hm').bind fun c' hc' => hc'
  have h4 (i : ℕ) (c : Cursor A X) (hc : c.m.kmmapLock = n) :
      (overL4 page flags i c).Ends (fun _ => True) R fun c' => c'.m.kmmapLock = n :=
    (hentry c hc _).bind fun m' hm' => (hfor _ (h3 i) _ _ _ hm').bind fun c' hc' => hc'
  exact hfor _ h4 _ _ _ hm

omit [FrameSource A] in
theorem releaseKmmap_lock (h : m.kmmapLock = 1) : m.releaseKmmap.kmmapLock = 0 := by simp [releaseKmmap, h]

theorem kmmapPage_lock (flags entry : ℕ) (v : KmmapVars) (h : m.kmmapLock = 1) :
    (kmmapPage flags entry m v).Ends (fun _ => True) (fun m' => m'.kmmapLock = 0) fun s => s.1.kmmapLock = 1 := by
  refine ((ensureEntry_lock entry flags).mono (fun _ h => h) (fun _ h => h.elim) fun _ h => h).bind fun m' hm' => ?_
  have hheld : m'.kmmapLock = 1 := hm'.trans h
  dsimp only
  split
  · exact releaseKmmap_lock hheld
  · exact hheld

/-- Every call of `kmmap` that returns has taken the lock and released it once. -/
theorem kmmap_lock (hrun : kmmap addr size flags m = .ok m') : m.kmmapLock = 0 ∧ m'.kmmapLock = 0 := by
  rw [kmmap] at hrun
  split at hrun
  case isTrue => cases hrun
  case isFalse hfree =>
    have hends : (overPages (kmmapPage flags) flags addr m.grabKmmap ⟨addr &&& maskL0, size⟩).Ends (fun _ => True)
        (fun m' => m'.kmmapLock = 0) fun c => c.m.kmmapLock = 1 :=
      overPages_lock (fun entry m v h => kmmapPage_lock flags entry v h) rfl _
    refine ⟨by simpa using hfree, ?_⟩
    split at hrun
    case h_1 => cases hrun
    case h_2 r hnest =>
      cases hrun
      rw [hnest] at hends
      exact hends
    case h_3 c hnest =>
      cases hrun
      rw [hnest] at hends
      exact releaseKmmap_lock hends

/-- The locks that a call of `space_alloc` has taken are free again when it returns. -/
def LocksReleased (address size flags : ℕ) (s : LockedMachine A) : Prop :=
  ∀ a s', spaceAlloc address size flags s = .ok (a, s') →
    s'.spaceAllocLock = 0 ∧ s'.machine.kmmapLock = s.machine.kmmapLock

/-- `kmmap` always releases its lock, and `space_alloc` does exactly if an address has been found. -/
theorem locksReleased_iff (s : LockedMachine A) (address size flags : ℕ) :
    (∀ addr m', kmmap addr size flags s.machine = .ok m' → m'.kmmapLock = 0) ∧
      (LocksReleased address size flags s ↔ address ≠ 0 ∨ s.spaceAllocLock ≠ 0) := by
  refine ⟨fun addr m' hrun => (kmmap_lock hrun).2, ?_⟩
  by_cases hheld : s.spaceAllocLock ≠ 0
  · refine iff_of_true (fun a s' hrun => ?_) (.inr hheld)
    rw [spaceAlloc, if_pos hheld] at hrun
    cases hrun
  · by_cases hfound : address = 0
    · refine iff_of_false (fun h => ?_) (by simp [hfound, hheld])
      have hrun : spaceAlloc address size flags s = .ok (0, grabSpaceAlloc s) := by
        rw [spaceAlloc, if_neg hheld]
        exact if_pos hfound
      exact absurd (h _ _ hrun).1 (by simp [grabSpaceAlloc])
    · refine iff_of_true (fun a s' hrun => ?_) (.inl hfound)
      rw [spaceAlloc, if_neg hheld] at hrun
      dsimp only at hrun
      rw [if_neg hfound] at hrun
      cases hmap : kmmap address size (convertToArchFlags flags) (grabSpaceAlloc s).machine with
      | error e =>
        rw [hmap] at hrun
        cases hrun
      | ok m' =>
        rw [hmap] at hrun
        cases hrun
        obtain ⟨hfree, hreleased⟩ := kmmap_lock hmap
        exact ⟨by simp [releaseSpaceAlloc, grabSpaceAlloc], hreleased.trans hfree.symm⟩

/-- With the address that `search_available` returns, these are the calls of `SpaceAlloc`. -/
theorem spaceAlloc_calls {s s' : LockedMachine A} {address a : ℕ}
    (hsearch : SearchAvailable s.machine (craftAddr 0 0 0 1 0) size address)
    (hrun : spaceAlloc address size flags s = .ok (a, s')) : SpaceAlloc s.machine size flags a s'.machine := by
  rw [spaceAlloc] at hrun
  split at hrun
  case isTrue => cases hrun
  case isFalse =>
    dsimp only at hrun
    split at hrun
    case isTrue hz =>
      cases hrun
      exact ⟨hz ▸ hsearch, by rw [if_pos rfl]; rfl⟩
    case isFalse hne =>
      cases hmap : kmmap address size (convertToArchFlags flags) (grabSpaceAlloc s).machine with
      | error e =>
        rw [hmap] at hrun
        cases hrun
      | ok m' =>
        rw [hmap] at hrun
        cases hrun
        refine ⟨hsearch, ?_⟩
        rw [if_neg hne]
        exact hmap

end Locks

section Full

/-- A directory with one page table, of which only the first and the last entry are free. -/
def fullTableMem : PhysMem := fun x =>
  if x = 0x1190 then 0x1003
  else if x = 0x1000 then 0x2003
  else if x = 0x2000 then 0x3003
  else if x = 0x3000 then 0x4003
  else if 0x4008 ≤ x ∧ x < 0x4ff8 then 0x6003
  else 0

def fullTableMachine : Machine (List ℕ) := ⟨fullTableMem, 0x1000, [], 0⟩

theorem fullTable_search : SearchAvailable fullTableMachine (craftAddr 0 0 0 1 0) 0x1000 0 := ⟨520, by decide +kernel⟩

/-- A call that finds no space keeps the lock, and the next one waits for it. -/
theorem lock_kept : ¬ ∀ (s : LockedMachine (List ℕ)) (address size flags : ℕ),
    SearchAvailable s.machine (craftAddr 0 0 0 1 0) size address → LocksReleased address size flags s := by
  intro hall
  have hrun : spaceAlloc 0 0x1000 1 ⟨fullTableMachine, 0⟩ = .ok (0, ⟨fullTableMachine, 1⟩) := rfl
  exact absurd (hall ⟨fullTableMachine, 0⟩ 0 0x1000 1 fullTable_search _ _ hrun).1 (by decide)

end Full

end Raccoon.Mmu
