import Raccoon.Machine

/-!
The four nested loops that `kmmap` and `kmmap_physical` share. They visit the
pages from a first one upwards, create the tables on the way and leave what is
done with a page to their innermost body.
-/

namespace Raccoon.Mmu

open TableTree Loops Outcome

/-- The indices at which the inner loops start next, and the variables of the innermost body. -/
structure Cursor (A X : Type) where
  m : Machine A
  l3 : ℕ
  l2 : ℕ
  l1 : ℕ
  vars : X

section Loops

variable {A X ρ : Type} [FrameSource A]
  (page : ℕ → Machine A → X → Outcome Stuck ρ (Machine A × X)) (flags : ℕ)

def overL1 (l4 l3 l2 l1 : ℕ) (c : Cursor A X) : Outcome Stuck ρ (Cursor A X) := do
  let (m, vars) ← page (craftAddr recursiveMappingEntry l4 l3 l2 (l1 * 8)) c.m c.vars
  .next { c with m := m, vars := vars }

def overL2 (l4 l3 l2 : ℕ) (c : Cursor A X) : Outcome Stuck ρ (Cursor A X) := do
  let m ← c.m.ensureEntry (craftAddr recursiveMappingEntry recursiveMappingEntry l4 l3 (l2 * 8)) flags
  let c ← forLoop (overL1 page l4 l3 l2) (archNEntry - c.l1) c.l1 { c with m := m }
  .next { c with l1 := 0 }

def overL3 (l4 l3 : ℕ) (c : Cursor A X) : Outcome Stuck ρ (Cursor A X) := do
  let m ← c.m.ensureEntry (craftAddr recursiveMappingEntry recursiveMappingEntry recursiveMappingEntry
    l4 (l3 * 8)) flags
  let c ← forLoop (overL2 page flags l4 l3) (archNEntry - c.l2) c.l2 { c with m := m }
  .next { c with l2 := 0 }

def overL4 (l4 : ℕ) (c : Cursor A X) : Outcome Stuck ρ (Cursor A X) := do
  let m ← c.m.ensureEntry (craftAddr recursiveMappingEntry recursiveMappingEntry recursiveMappingEntry
    recursiveMappingEntry (l4 * 8)) flags
  let c ← forLoop (overL3 page flags l4) (archNEntry - c.l3) c.l3 { c with m := m }
  .next { c with l3 := 0 }

/-- The whole nest, entered at the page of `addr`. -/
def overPages (addr : ℕ) (m : Machine A) (vars : X) : Outcome Stuck ρ (Cursor A X) :=
  forLoop (overL4 page flags) (archNEntry - shiftr addr 9 39) (shiftr addr 9 39)
    ⟨m, shiftr addr 9 30, shiftr addr 9 21, shiftr addr 9 12, vars⟩

end Loops

section Rule

variable {A X ρ : Type} [FrameSource A] {page : ℕ → Machine A → X → Outcome Stuck ρ (Machine A × X)}
  {flags : ℕ} {R : ρ → Prop} {Inv : ℕ → Machine A → X → Prop}

/-- `Inv P` holds when the nest is about to visit page `P`: it survives the creation of a table, and
the body either returns or takes it to the next page. -/
structure PageInvariant (page : ℕ → Machine A → X → Outcome Stuck ρ (Machine A × X)) (R : ρ → Prop)
    (Inv : ℕ → Machine A → X → Prop) : Prop where
  tree : ∀ {P m x}, Inv P m x → TreePage P
  wf : ∀ {P m x}, Inv P m x → WellFormed m.mem m.root
  fresh : ∀ {P m x}, Inv P m x → Fresh m
  table : ∀ {P m m' x}, Inv P m x → Grows m m' →
    (∀ Q, TreePage Q → leaf m'.mem m'.root Q = leaf m.mem m.root Q) → Inv P m' x
  body : ∀ {P m x}, Inv P m x → Live pageTables m.mem m.root (pagePath P) →
    (page (leafPointer P) m x).Ends (· = .outOfMemory) R fun s =>
      Inv (P + 1) s.1 s.2 ∧ Live pageTables s.1.mem s.1.root (pagePath P)

/-- An invariant of the nest for any range, also through the recursive slot and past the last page. It
follows the entries as well: the tables that are created have the flags. -/
structure NestInvariant (flags : ℕ) (page : ℕ → Machine A → X → Outcome Stuck ρ (Machine A × X)) (R : ρ → Prop)
    (Inv : ℕ → Machine A → X → Prop) : Prop where
  wf : ∀ {P m x}, Inv P m x → WellFormed m.mem m.root
  fresh : ∀ {P m x}, Inv P m x → Fresh m
  table : ∀ {P m m' x}, Inv P m x → Grows m m' → Extends flags m m' →
    (∀ Q, TreePage Q → leaf m'.mem m'.root Q = leaf m.mem m.root Q) → Inv P m' x
  body : ∀ {P m x}, P < 2 ^ 36 → Inv P m x → Live pageTables m.mem m.root (pagePath P) →
    (page (leafPointer P) m x).Ends (· = .outOfMemory) R fun s =>
      Inv (P + 1) s.1 s.2 ∧ Live pageTables s.1.mem s.1.root (pagePath P)

theorem PageInvariant.nest (h : PageInvariant page R Inv) : NestInvariant flags page R Inv where
  wf := h.wf
  fresh := h.fresh
  table hc hg _ hleaf := h.table hc hg hleaf
  body _ := h.body

theorem tree_index {l4 l3 l2 l1 : ℕ} (h3 : l3 < 512) (h2 : l2 < 512) (h1 : l1 < 512)
    (h : TreePage (pageNumber l4 l3 l2 l1)) : l4 < 512 ∧ l4 ≠ recursiveMappingEntry := by
  obtain ⟨hlt, hne⟩ := h
  unfold pageNumber at hlt hne
  omega

theorem proper_of_index {l4 : ℕ} {q : List ℕ} (hlen : q.length ≤ 2) (hq : ∀ i ∈ q, i < 512) (h4 : l4 < 512)
    (hne : l4 ≠ recursiveMappingEntry) : Proper (l4 :: q) := by
  refine ⟨Nat.succ_le_succ hlen, ?_, by simpa using hne⟩
  simpa [h4] using hq

theorem overL1_ends (h : NestInvariant flags page R Inv) {l4 l3 l2 : ℕ} (h4 : l4 < 512) (h3 : l3 < 512)
    (h2 : l2 < 512) {l1 : ℕ} (h1 : l1 < 512) {c : Cursor A X}
    (hc : Inv (pageNumber l4 l3 l2 l1) c.m c.vars) (hl : Live pageTables c.m.mem c.m.root [l4, l3, l2]) :
    (overL1 page l4 l3 l2 l1 c).Ends (· = .outOfMemory) R fun c' =>
      Inv (pageNumber l4 l3 l2 (l1 + 1)) c'.m c'.vars ∧
        Live pageTables c'.m.mem c'.m.root [l4, l3, l2] := by
  obtain ⟨hp, hm⟩ := pagePath_pageNumber h4 h3 h2 h1
  have hptr : leafPointer (pageNumber l4 l3 l2 l1) = craftAddr recursiveMappingEntry l4 l3 l2 (l1 * 8) := by
    simp only [pagePath, List.cons.injEq, and_true] at hp
    rw [leafPointer, hp.1, hp.2.1, hp.2.2, hm]
  have hlast : pageNumber l4 l3 l2 l1 < 2 ^ 36 := by unfold pageNumber; omega
  have hb := h.body hlast hc (by rwa [hp])
  rw [hp, hptr] at hb
  refine hb.bind fun s hs => ?_
  have hn : pageNumber l4 l3 l2 (l1 + 1) = pageNumber l4 l3 l2 l1 + 1 := by unfold pageNumber; omega
  rw [hn]
  exact hs

theorem overL2_ends (h : NestInvariant flags page R Inv) (hflags : EntryFlags flags) {l4 l3 l2 : ℕ}
    (h4 : l4 < 512) (h3 : l3 < 512) (h2 : l2 < 512) {c : Cursor A X}
    (h1 : c.l1 < 512) (hc : Inv (pageNumber l4 l3 l2 c.l1) c.m c.vars)
    (hl : Live pageTables c.m.mem c.m.root [l4, l3]) :
    (overL2 page flags l4 l3 l2 c).Ends (· = .outOfMemory) R fun c' =>
      Inv (pageNumber l4 l3 (l2 + 1) 0) c'.m c'.vars ∧ c'.l1 = 0 ∧
        Live pageTables c'.m.mem c'.m.root [l4, l3] := by
  have hptr : PointsTo c.m.cr3 (craftAddr recursiveMappingEntry recursiveMappingEntry l4 l3 (l2 * 8)) [l4, l3] l2 :=
    fun mem hself hlink => translate_l2 hself h4 h3 h2 hlink
  have htable := ensureEntry_walk (ρ := ρ) hptr (h.wf hc) (h.fresh hc) (by simp) (treePath_length _)
    (by simp [h4, h3]) h2 hl hflags
  refine (htable.mono (fun _ h => h) (fun _ h => h.elim) fun _ h => h).bind fun m' ⟨hg, he, hl', hleaf⟩ => ?_
  have hloop := forLoop_ends (overL1 page l4 l3 l2) (F := (· = .outOfMemory)) (R := R) (N := 512)
    (fun i c => Inv (pageNumber l4 l3 l2 i) c.m c.vars ∧ Live pageTables c.m.mem c.m.root [l4, l3, l2])
    (fun i s hi hs => overL1_ends h h4 h3 h2 hi hs.1 hs.2) c.l1 { c with m := m' } h1.le
    ⟨h.table hc hg he hleaf, hl'⟩
  refine hloop.bind fun c' ⟨hc', hl''⟩ => ⟨?_, rfl, hl''.initial ⟨[l2], rfl⟩⟩
  rwa [pageNumber_carry1] at hc'

theorem overL3_ends (h : NestInvariant flags page R Inv) (hflags : EntryFlags flags) {l4 l3 : ℕ}
    (h4 : l4 < 512) (h3 : l3 < 512) {c : Cursor A X} (h2 : c.l2 < 512)
    (h1 : c.l1 < 512) (hc : Inv (pageNumber l4 l3 c.l2 c.l1) c.m c.vars)
    (hl : Live pageTables c.m.mem c.m.root [l4]) :
    (overL3 page flags l4 l3 c).Ends (· = .outOfMemory) R fun c' =>
      Inv (pageNumber l4 (l3 + 1) 0 0) c'.m c'.vars ∧ c'.l2 = 0 ∧ c'.l1 = 0 ∧
        Live pageTables c'.m.mem c'.m.root [l4] := by
  have hptr : PointsTo c.m.cr3 (craftAddr recursiveMappingEntry recursiveMappingEntry recursiveMappingEntry
      l4 (l3 * 8)) [l4] l3 := fun mem hself hlink => translate_l3 hself h4 h3 hlink
  have htable := ensureEntry_walk (ρ := ρ) hptr (h.wf hc) (h.fresh hc) (by simp)
    ((treePath_length _).trans (by simp)) (by simp [h4]) h3 hl hflags
  refine (htable.mono (fun _ h => h) (fun _ h => h.elim) fun _ h => h).bind fun m' ⟨hg, he, hl', hleaf⟩ => ?_
  -- only the first round starts in the middle of a page table
  have hloop := forLoop_ends (overL2 page flags l4 l3) (F := (· = .outOfMemory)) (R := R) (N := 512)
    (fun i c => Inv (pageNumber l4 l3 i c.l1) c.m c.vars ∧ c.l1 < 512 ∧ (i = 512 → c.l1 = 0) ∧
      Live pageTables c.m.mem c.m.root [l4, l3])
    (fun i s hi hs => (overL2_ends h hflags h4 h3 hi hs.2.1 hs.1 hs.2.2.2).mono (fun _ h => h)
      (fun _ h => h) fun s' ⟨hs', h0, hl⟩ => ⟨by rwa [h0], by omega, fun _ => h0, hl⟩)
    c.l2 { c with m := m' } h2.le ⟨h.table hc hg he hleaf, h1, by omega, hl'⟩
  refine hloop.bind fun c' ⟨hc', _, h0, hl''⟩ => ⟨?_, rfl, h0 rfl, hl''.initial ⟨[l3], rfl⟩⟩
  rwa [h0 rfl, pageNumber_carry2] at hc'

theorem overL4_ends (h : NestInvariant flags page R Inv) (hflags : EntryFlags flags) {l4 : ℕ} (h4 : l4 < 512)
    {c : Cursor A X} (h3 : c.l3 < 512) (h2 : c.l2 < 512) (h1 : c.l1 < 512)
    (hc : Inv (pageNumber l4 c.l3 c.l2 c.l1) c.m c.vars) :
    (overL4 page flags l4 c).Ends (· = .outOfMemory) R fun c' =>
      Inv (pageNumber (l4 + 1) 0 0 0) c'.m c'.vars ∧ c'.l3 = 0 ∧ c'.l2 = 0 ∧ c'.l1 = 0 := by
  have hptr : PointsTo c.m.cr3 (craftAddr recursiveMappingEntry recursiveMappingEntry recursiveMappingEntry
      recursiveMappingEntry (l4 * 8)) [] l4 := fun mem hself _ => translate_l4 hself h4
  have htable := ensureEntry_walk (ρ := ρ) hptr (h.wf hc) (h.fresh hc) (by simp)
    ((treePath_length _).trans (by simp)) (by simp) h4 live_nil hflags
  refine (htable.mono (fun _ h => h) (fun _ h => h.elim) fun _ h => h).bind fun m' ⟨hg, he, hl', hleaf⟩ => ?_
  have hloop := forLoop_ends (overL3 page flags l4) (F := (· = .outOfMemory)) (R := R) (N := 512)
    (fun i c => Inv (pageNumber l4 i c.l2 c.l1) c.m c.vars ∧ c.l2 < 512 ∧ c.l1 < 512 ∧
      (i = 512 → c.l2 = 0 ∧ c.l1 = 0) ∧ Live pageTables c.m.mem c.m.root [l4])
    (fun i s hi hs => (overL3_ends h hflags h4 hi hs.2.1 hs.2.2.1 hs.1 hs.2.2.2.2).mono (fun _ h => h)
      (fun _ h => h) fun s' ⟨hs', h02, h01, hl⟩ =>
        ⟨by rwa [h02, h01], by omega, by omega, fun _ => ⟨h02, h01⟩, hl⟩)
    c.l3 { c with m := m' } h3.le ⟨h.table hc hg he hleaf, h2, h1, by omega, hl'⟩
  refine hloop.bind fun c' ⟨hc', _, _, h0, _⟩ => ⟨?_, rfl, h0 rfl⟩
  rwa [(h0 rfl).1, (h0 rfl).2, pageNumber_carry3] at hc'

/-- The rule of the nest: it ends by a return of its body, or after the last page there is. -/
theorem overPages_ends (h : NestInvariant flags page R Inv) (hflags : EntryFlags flags) (addr : ℕ)
    (m : Machine A) (vars : X) (hinit : Inv (addr % 2 ^ 48 / 4096) m vars) :
    (overPages page flags addr m vars).Ends (· = .outOfMemory) R fun c => Inv (2 ^ 36) c.m c.vars := by
  simp only [overPages, shiftr_eq]
  have hloop := forLoop_ends (overL4 page flags) (F := (· = .outOfMemory)) (R := R) (N := 512)
    (fun i c => Inv (pageNumber i c.l3 c.l2 c.l1) c.m c.vars ∧ c.l3 < 512 ∧ c.l2 < 512 ∧ c.l1 < 512 ∧
      (i = 512 → c.l3 = 0 ∧ c.l2 = 0 ∧ c.l1 = 0))
    (fun i s hi hs => (overL4_ends h hflags hi hs.2.1 hs.2.2.1 hs.2.2.2.1 hs.1).mono (fun _ h => h)
      (fun _ h => h) fun s' ⟨hs', h03, h02, h01⟩ =>
        ⟨by rwa [h03, h02, h01], by omega, by omega, by omega, fun _ => ⟨h03, h02, h01⟩⟩)
    (addr / 2 ^ 39 % 2 ^ 9) ⟨m, addr / 2 ^ 30 % 2 ^ 9, addr / 2 ^ 21 % 2 ^ 9, addr / 2 ^ 12 % 2 ^ 9, vars⟩
    (Nat.le_of_lt (Nat.mod_lt _ (by decide)))
    ⟨?_, Nat.mod_lt _ (by decide), Nat.mod_lt _ (by decide), Nat.mod_lt _ (by decide), by omega⟩
  · refine hloop.mono (fun _ h => h) (fun _ h => h) fun c ⟨hc, _, _, _, h0⟩ => ?_
    rwa [(h0 rfl).1, (h0 rfl).2.1, (h0 rfl).2.2] at hc
  · have hp : pageNumber (addr / 2 ^ 39 % 2 ^ 9) (addr / 2 ^ 30 % 2 ^ 9) (addr / 2 ^ 21 % 2 ^ 9)
        (addr / 2 ^ 12 % 2 ^ 9) = addr % 2 ^ 48 / 4096 := by unfold pageNumber; omega
    rw [hp]
    exact hinit

theorem PageInvariant.ends (h : PageInvariant page R Inv) (hflags : EntryFlags flags) (addr : ℕ)
    (m : Machine A) (vars : X) (hinit : Inv (addr % 2 ^ 48 / 4096) m vars) :
    (overPages page flags addr m vars).Ends (· = .outOfMemory) R fun _ => False :=
  (overPages_ends h.nest hflags addr m vars hinit).mono (fun _ h => h) (fun _ h => h) fun _ hc =>
    absurd (h.tree hc).1 (lt_irrefl _)

end Rule

end Raccoon.Mmu
