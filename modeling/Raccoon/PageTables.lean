import Raccoon.RecursiveMapping

/-!
Well-formed page-table trees. A path of at most three indices names a table of
the tree; the first index is never the recursive slot. A page is named by its
number, the virtual address divided by the page size.
-/

namespace Raccoon.Mmu

open TableTree

/-- Paths to the tables of the tree. -/
structure Proper (q : List ℕ) : Prop where
  length : q.length ≤ 3
  index : ∀ i ∈ q, i < 512
  head : q.head? ≠ some recursiveMappingEntry

theorem Proper.initial {q r : List ℕ} (hq : q <+: r) (h : Proper r) : Proper q := by
  obtain ⟨s, rfl⟩ := hq
  refine ⟨?_, fun i hi => h.index i (List.mem_append_left _ hi), ?_⟩
  · have := h.length
    simp only [List.length_append] at this
    omega
  · cases q with
    | nil => simp
    | cons a q => simpa using h.head

theorem Proper.last {q : List ℕ} {i : ℕ} (h : Proper (q ++ [i])) : i < 512 := h.index i (by simp)

theorem Proper.snoc {q : List ℕ} {j : ℕ} (h : Proper q) (hlen : q.length ≤ 2) (hj : j < 512)
    (hslot : ¬ (q = [] ∧ j = recursiveMappingEntry)) : Proper (q ++ [j]) := by
  refine ⟨?_, fun i hi => ?_, ?_⟩
  · rw [List.length_append]
    exact Nat.succ_le_succ hlen
  · rcases List.mem_append.mp hi with hi | hi
    · exact h.index i hi
    · rwa [List.mem_singleton.mp hi]
  · cases q with
    | nil => simpa using hslot
    | cons i q => exact h.head

theorem proper_nil : Proper [] := ⟨by simp, by simp, by simp⟩

/-- The directory in frame `f` maps itself, a non-zero entry above the last level links to a next
table, and different paths lead to different tables. -/
structure WellFormed (mem : PhysMem) (f : ℕ) : Prop where
  self : SelfMapped mem f
  link : ∀ q i, Proper (q ++ [i]) → Live pageTables mem f q →
    mem (4096 * follow pageTables mem f q + 8 * i) ≠ 0 →
    Link (mem (4096 * follow pageTables mem f q + 8 * i))
  separated : Separated pageTables mem f Proper

def TableFrame (mem : PhysMem) (f t : ℕ) : Prop :=
  ∃ q, Proper q ∧ Live pageTables mem f q ∧ follow pageTables mem f q = t

def pagePath (page : ℕ) : List ℕ := [page / 2 ^ 27 % 512, page / 2 ^ 18 % 512, page / 2 ^ 9 % 512]

/-- Pages of the address space outside the recursive slot. -/
def TreePage (page : ℕ) : Prop := page < 2 ^ 36 ∧ page / 2 ^ 27 ≠ recursiveMappingEntry

/-- The last-level entry of a page, zero where a table above it is missing. -/
def leaf (mem : PhysMem) (f page : ℕ) : ℕ :=
  if Live pageTables mem f (pagePath page) then
    mem (4096 * follow pageTables mem f (pagePath page) + 8 * (page % 512))
  else 0

theorem live_blank {mem : PhysMem} {f : ℕ}
    (h : ∀ i < 512, i ≠ recursiveMappingEntry → mem (4096 * f + 8 * i) = 0) {q : List ℕ} (hq : Proper q)
    (hl : Live pageTables mem f q) : q = [] := by
  cases q with
  | nil => rfl
  | cons i q =>
    have hi : i ≠ recursiveMappingEntry := by simpa using hq.head
    exact absurd (h i (hq.index i (by simp)) hi) hl.1

theorem wellFormed_of_blank {mem : PhysMem} {f : ℕ} (hself : SelfMapped mem f)
    (h : ∀ i < 512, i ≠ recursiveMappingEntry → mem (4096 * f + 8 * i) = 0) :
    WellFormed mem f ∧ ∀ t, TableFrame mem f t → t = f := by
  refine ⟨⟨hself, fun q i hq hl hne => ?_, fun q r hq hr hlq hlr _ => ?_⟩, ?_⟩
  · obtain rfl := live_blank h (hq.initial (List.prefix_append _ _)) hl
    have hi : i ≠ recursiveMappingEntry := by simpa using hq.head
    exact absurd (h i hq.last hi) hne
  · rw [live_blank h hq hlq, live_blank h hr hlr]
  · rintro t ⟨q, hq, hl, rfl⟩
    rw [live_blank h hq hl]
    rfl

theorem leaf_of_live {mem : PhysMem} {f page : ℕ} (h : Live pageTables mem f (pagePath page)) :
    leaf mem f page = mem (4096 * follow pageTables mem f (pagePath page) + 8 * (page % 512)) := if_pos h

theorem live_of_leaf {mem : PhysMem} {f page : ℕ} (h : leaf mem f page ≠ 0) :
    Live pageTables mem f (pagePath page) := by
  by_contra hdead
  exact h (if_neg hdead)

theorem pagePath_proper {page : ℕ} (h : TreePage page) : Proper (pagePath page) := by
  refine ⟨by simp [pagePath], ?_, ?_⟩
  · intro i hi
    simp only [pagePath, List.mem_cons, List.not_mem_nil, or_false] at hi
    omega
  · obtain ⟨hlt, hne⟩ := h
    simp only [pagePath, List.head?_cons, ne_eq, Option.some.injEq]
    omega

theorem pagePath_address (va : ℕ) :
    pagePath (va % 2 ^ 48 / 4096) = [va / 2 ^ 39 % 512, va / 2 ^ 30 % 512, va / 2 ^ 21 % 512] ∧
      va % 2 ^ 48 / 4096 % 512 = va / 2 ^ 12 % 512 := by
  simp only [pagePath, List.cons.injEq, and_true]
  omega

theorem pagePath_pageNumber {l4 l3 l2 l1 : ℕ} (h4 : l4 < 512) (h3 : l3 < 512) (h2 : l2 < 512) (h1 : l1 < 512) :
    pagePath (pageNumber l4 l3 l2 l1) = [l4, l3, l2] ∧ pageNumber l4 l3 l2 l1 % 512 = l1 := by
  have e4 : pageNumber l4 l3 l2 l1 / 2 ^ 27 % 512 = l4 := by unfold pageNumber; omega
  have e3 : pageNumber l4 l3 l2 l1 / 2 ^ 18 % 512 = l3 := by unfold pageNumber; omega
  have e2 : pageNumber l4 l3 l2 l1 / 2 ^ 9 % 512 = l2 := by unfold pageNumber; omega
  exact ⟨by rw [pagePath, e4, e3, e2], by unfold pageNumber; omega⟩

theorem treePage_pageNumber {l4 l3 l2 l1 : ℕ} (h4 : l4 < 512) (hne : l4 ≠ recursiveMappingEntry)
    (h3 : l3 < 512) (h2 : l2 < 512) (h1 : l1 < 512) : TreePage (pageNumber l4 l3 l2 l1) := by
  unfold TreePage pageNumber
  omega

theorem page_ext {P Q : ℕ} (hP : P < 2 ^ 36) (hQ : Q < 2 ^ 36) (hp : pagePath P = pagePath Q)
    (hm : P % 512 = Q % 512) : P = Q := by
  simp only [pagePath, List.cons.injEq, and_true] at hp
  omega

theorem page_ne {P Q : ℕ} (hP : TreePage P) (hQ : TreePage Q) (hne : P ≠ Q) :
    pagePath P ≠ pagePath Q ∨ P % 512 ≠ Q % 512 := by
  by_contra hc
  obtain ⟨hp, hm⟩ : pagePath P = pagePath Q ∧ P % 512 = Q % 512 := by simpa using hc
  exact hne (page_ext hP.1 hQ.1 hp hm)

section Tree

variable {mem mem' : PhysMem} {f : ℕ}

/-- In a well-formed tree the pointers that the source dereferences do not fault, also those that
go through the recursive slot more often than the level asks for. -/
theorem WellFormed.linked (h : WellFormed mem f) {q : List ℕ} (hlen : q.length ≤ 3)
    (hidx : ∀ i ∈ q, i < 512) (hl : Live pageTables mem f q) : Linked mem f q := by
  induction q with
  | nil => trivial
  | cons i q ih =>
    by_cases hi : i = recursiveMappingEntry
    · subst hi
      have hl' : Live pageTables mem f q := by simpa [h.self.back] using hl.2
      exact (h.self.linked q).mpr
        (ih (Nat.le_of_succ_le hlen) (fun j hj => hidx j (List.mem_cons_of_mem _ hj)) hl')
    · have hprop : Proper (i :: q) := ⟨hlen, hidx, by simpa using hi⟩
      -- without the recursive slot in front, every prefix of the path is a path of the tree
      suffices ∀ r, r <+: i :: q → Linked mem f r from this _ List.prefix_rfl
      intro r
      induction r using List.reverseRecOn with
      | nil => intro _; trivial
      | append_singleton r j ihr =>
        intro hr
        have hr' : r <+: i :: q := (List.prefix_append r [j]).trans hr
        have hlj : Live pageTables mem f (r ++ [j]) := hl.initial hr
        have hj : mem (4096 * follow pageTables mem f r + 8 * j) ≠ 0 := ((live_append r [j]).mp hlj).2.1
        exact (linked_append r [j]).mpr
          ⟨ihr hr', h.link r j (hprop.initial hr) (hl.initial hr') hj, trivial⟩

/-- The path of the tree that a path through the recursive slot comes back to. -/
def treePath (q : List ℕ) : List ℕ := q.dropWhile (· = recursiveMappingEntry)

theorem treePath_self (q : List ℕ) : treePath (recursiveMappingEntry :: q) = treePath q :=
  List.dropWhile_cons_of_pos (decide_eq_true rfl)

theorem treePath_of_ne {i : ℕ} (h : i ≠ recursiveMappingEntry) (q : List ℕ) : treePath (i :: q) = i :: q :=
  List.dropWhile_cons_of_neg (by simpa using h)

theorem treePath_index {q : List ℕ} (h : ∀ i ∈ q, i < 512) : ∀ i ∈ treePath q, i < 512 :=
  fun i hi => h i ((List.dropWhile_sublist _).subset hi)

theorem treePath_length (q : List ℕ) : (treePath q).length ≤ q.length := (List.dropWhile_sublist _).length_le

theorem treePath_proper {q : List ℕ} (hlen : q.length ≤ 3) (hidx : ∀ i ∈ q, i < 512) : Proper (treePath q) := by
  refine ⟨(treePath_length q).trans hlen, treePath_index hidx, fun hc => ?_⟩
  have hhead := List.head?_dropWhile_not (· = recursiveMappingEntry) q
  rw [← treePath, hc] at hhead
  exact absurd rfl (of_decide_eq_false hhead)

theorem follow_treePath (h : SelfMapped mem f) (q : List ℕ) :
    follow pageTables mem f (treePath q) = follow pageTables mem f q := by
  induction q with
  | nil => rfl
  | cons i q ih =>
    by_cases hi : i = recursiveMappingEntry
    · rw [hi, treePath_self, ih, h.follow]
    · rw [treePath_of_ne hi]

theorem live_treePath (h : SelfMapped mem f) (q : List ℕ) :
    Live pageTables mem f (treePath q) ↔ Live pageTables mem f q := by
  induction q with
  | nil => rfl
  | cons i q ih =>
    by_cases hi : i = recursiveMappingEntry
    · rw [hi, treePath_self, ih, live_cons, pageTables_cell, pageTables_child, h.back]
      exact (and_iff_right (Link.ne h.link)).symm
    · rw [treePath_of_ne hi]

theorem linked_treePath (h : SelfMapped mem f) (q : List ℕ) : Linked mem f (treePath q) ↔ Linked mem f q := by
  induction q with
  | nil => rfl
  | cons i q ih =>
    by_cases hi : i = recursiveMappingEntry
    · rw [hi, treePath_self, ih, h.linked]
    · rw [treePath_of_ne hi]

theorem proper_index (q : List ℕ) (i : ℕ) (h : Proper (q ++ [i])) : i < pageTables.arity := h.last

variable (mem') in
/-- A write that touches no word of the tables but one entry. -/
theorem WellFormed.agreesExcept (h : WellFormed mem f) {q : List ℕ} {j : ℕ} (hq : Proper q)
    (hl : Live pageTables mem f q) (hj : j < 512)
    (hmem : ∀ x, x ≠ 4096 * follow pageTables mem f q + 8 * j → TableFrame mem f (x / 4096) →
      mem' x = mem x) : AgreesExcept pageTables mem f Proper mem' q j := by
  intro r i hr hlr hi hne
  refine hmem _ (fun he => ?_) ⟨r, hr, hlr, ?_⟩
  · obtain ⟨hf, rfl⟩ := pageTables.cell_inj hi hj he
    have hrq := h.separated r q hr hq hlr hl hf
    simp [hrq] at hne
  · simp only [pageTables_cell, pageTables_arity] at hi ⊢
    omega

theorem selfMapped_of_agrees {q : List ℕ} {j : ℕ} (h : SelfMapped mem f)
    (hag : AgreesExcept pageTables mem f Proper mem' q j) (hslot : q ≠ [] ∨ j ≠ recursiveMappingEntry) :
    SelfMapped mem' f := by
  have he := hag [] recursiveMappingEntry proper_nil live_nil (by decide) (hslot.imp Ne.symm Ne.symm)
  simp only [pageTables_cell, follow_nil] at he
  exact ⟨by rw [he]; exact h.link, by rw [he]; exact h.back⟩

variable (mem') in
/-- A change of memory outside the tables changes nothing the tree says. -/
theorem WellFormed.outside (h : WellFormed mem f)
    (hmem : ∀ x, TableFrame mem f (x / 4096) → mem' x = mem x) :
    WellFormed mem' f ∧
      (∀ r, Proper r → (Live pageTables mem' f r ↔ Live pageTables mem f r)) ∧
      (∀ r, Proper r → Live pageTables mem f r → follow pageTables mem' f r = follow pageTables mem f r) ∧
      ∀ P, TreePage P → leaf mem' f P = leaf mem f P := by
  have hcell : ∀ r i, Proper r → Live pageTables mem f r → i < 512 →
      mem' (4096 * follow pageTables mem f r + 8 * i) = mem (4096 * follow pageTables mem f r + 8 * i) := by
    intro r i hr hl hi
    exact hmem _ ⟨r, hr, hl, by omega⟩
  have hpath (r : List ℕ) (hr : Proper r) : (Live pageTables mem' f r ↔ Live pageTables mem f r) ∧
      (Live pageTables mem f r → follow pageTables mem' f r = follow pageTables mem f r) := path_congr r
    fun r' i r'' he hl => by
      have hri : Proper (r' ++ [i]) := hr.initial ⟨r'', by rw [he]; simp⟩
      exact hcell r' i (hri.initial (List.prefix_append _ _)) hl hri.last
  refine ⟨⟨⟨?_, ?_⟩, ?_, ?_⟩, fun r hr => (hpath r hr).1, fun r hr => (hpath r hr).2, ?_⟩
  · have := hcell [] recursiveMappingEntry proper_nil live_nil (by decide)
    rw [follow_nil] at this
    rw [this]
    exact h.self.link
  · have := hcell [] recursiveMappingEntry proper_nil live_nil (by decide)
    rw [follow_nil] at this
    rw [this]
    exact h.self.back
  · intro r i hri hlr hne
    have hr : Proper r := hri.initial (List.prefix_append _ _)
    have hlr' := (hpath r hr).1.mp hlr
    rw [(hpath r hr).2 hlr', hcell r i hr hlr' hri.last] at hne ⊢
    exact h.link r i hri hlr' hne
  · intro r s hr hs hlr hls he
    have hlr' := (hpath r hr).1.mp hlr
    have hls' := (hpath s hs).1.mp hls
    rw [(hpath r hr).2 hlr', (hpath s hs).2 hls'] at he
    exact h.separated r s hr hs hlr' hls' he
  · intro P hP
    have hpr := pagePath_proper hP
    unfold leaf
    by_cases hlP : Live pageTables mem f (pagePath P)
    · rw [if_pos hlP, if_pos ((hpath _ hpr).1.mpr hlP), (hpath _ hpr).2 hlP]
      exact hcell _ _ hpr hlP (Nat.mod_lt _ (by decide))
    · rw [if_neg hlP, if_neg (mt (hpath _ hpr).1.mp hlP)]

/-- Overwriting a last-level entry changes the leaf of one page and nothing else. -/
theorem WellFormed.write_leaf (h : WellFormed mem f) {q : List ℕ} {j : ℕ} (hq : Proper q)
    (hlen : q.length = 3) (hl : Live pageTables mem f q)
    (hag : AgreesExcept pageTables mem f Proper mem' q j) (hself : SelfMapped mem' f) :
    WellFormed mem' f ∧
      (∀ r, Proper r → (Live pageTables mem' f r ↔ Live pageTables mem f r)) ∧
      (∀ r, Proper r → Live pageTables mem f r → follow pageTables mem' f r = follow pageTables mem f r) ∧
      ∀ P, TreePage P → (pagePath P ≠ q ∨ P % 512 ≠ j) → leaf mem' f P = leaf mem f P := by
  have hbot : ¬ Proper (q ++ [j]) := fun hp => by
    have := hp.length
    simp only [List.length_append, hlen, List.length_cons, List.length_nil] at this
    omega
  have hpath (r : List ℕ) (hr : Proper r) :=
    hag.path_of_bottom (fun _ _ hp hr => Proper.initial hp hr) proper_index hbot hr
  refine ⟨⟨hself, ?_, ?_⟩, fun r hr => (hpath r hr).1, fun r hr => (hpath r hr).2, ?_⟩
  · intro r i hri hlr hne
    have hr : Proper r := hri.initial (List.prefix_append _ _)
    have hlr' := (hpath r hr).1.mp hlr
    have hrq : r ≠ q ∨ i ≠ j := by
      left
      rintro rfl
      have := hri.length
      simp only [List.length_append, hlen, List.length_cons, List.length_nil] at this
      omega
    have he := hag r i hr hlr' hri.last hrq
    simp only [pageTables_cell] at he
    rw [(hpath r hr).2 hlr', he] at hne ⊢
    exact h.link r i hri hlr' hne
  · intro r s hr hs hlr hls he
    have hlr' := (hpath r hr).1.mp hlr
    have hls' := (hpath s hs).1.mp hls
    rw [(hpath r hr).2 hlr', (hpath s hs).2 hls'] at he
    exact h.separated r s hr hs hlr' hls' he
  · intro P hP hne
    have hpr := pagePath_proper hP
    unfold leaf
    by_cases hlP : Live pageTables mem f (pagePath P)
    · rw [if_pos hlP, if_pos ((hpath _ hpr).1.mpr hlP), (hpath _ hpr).2 hlP]
      exact hag _ _ hpr hlP (Nat.mod_lt _ (by decide)) hne
    · rw [if_neg hlP, if_neg (mt (hpath _ hpr).1.mp hlP)]

/-- The tree after the leaf of page `P` has been overwritten by `w`. -/
structure LeafSet (mem : PhysMem) (f P w : ℕ) (mem' : PhysMem) : Prop where
  wf : WellFormed mem' f
  live : ∀ r, Proper r → (Live pageTables mem' f r ↔ Live pageTables mem f r)
  follow : ∀ r, Proper r → Live pageTables mem f r → follow pageTables mem' f r = follow pageTables mem f r
  upper : ∀ q i, Proper (q ++ [i]) → Live pageTables mem f q →
    mem' (4096 * TableTree.follow pageTables mem f q + 8 * i) = mem (4096 * TableTree.follow pageTables mem f q + 8 * i)
  self : leaf mem' f P = w
  other : ∀ Q, TreePage Q → Q ≠ P → leaf mem' f Q = leaf mem f Q

theorem WellFormed.setLeaf (h : WellFormed mem f) {P : ℕ} (hP : TreePage P) (hl : Live pageTables mem f (pagePath P))
    (w : ℕ) : LeafSet mem f P w
      (Function.update mem (4096 * follow pageTables mem f (pagePath P) + 8 * (P % 512)) w) := by
  have hq := pagePath_proper hP
  have hag := h.agreesExcept (Function.update mem (4096 * follow pageTables mem f (pagePath P) + 8 * (P % 512)) w)
    hq hl (Nat.mod_lt P (by decide)) fun x hx _ => Function.update_of_ne hx _ _
  obtain ⟨hwf, hlive, hfollow, hother⟩ :=
    h.write_leaf hq rfl hl hag (selfMapped_of_agrees h.self hag (.inl (by simp [pagePath])))
  refine ⟨hwf, hlive, hfollow, fun q i hqi hlq => ?_, ?_, fun Q hQ hne => hother Q hQ (page_ne hQ hP hne)⟩
  · -- a table above the last level
    have hne : q ≠ pagePath P := fun he => by
      have hlen := hqi.length
      simp [he, pagePath] at hlen
    exact hag q i (hqi.initial (List.prefix_append _ _)) hlq hqi.last (.inl hne)
  · rw [leaf_of_live ((hlive _ hq).mpr hl), hfollow _ hq hl, Function.update_self]

/-- Linking an unused entry to a blank frame adds one table and changes no leaf. -/
theorem WellFormed.insert_table (h : WellFormed mem f) {q : List ℕ} {j e : ℕ} (hqj : Proper (q ++ [j]))
    (hl : Live pageTables mem f q) (hold : mem (4096 * follow pageTables mem f q + 8 * j) = 0)
    (hag : AgreesExcept pageTables mem f Proper mem' q j) (hself : SelfMapped mem' f)
    (hnew : mem' (4096 * follow pageTables mem f q + 8 * j) = e) (hlink : Link e)
    (hfresh : ¬ TableFrame mem f (frameOf e)) (hblank : ∀ i < 512, mem' (4096 * frameOf e + 8 * i) = 0) :
    WellFormed mem' f ∧
      (∀ r, Proper r → (Live pageTables mem' f r ↔ Live pageTables mem f r ∨ r = q ++ [j])) ∧
      (∀ r, Proper r → Live pageTables mem f r → follow pageTables mem' f r = follow pageTables mem f r) ∧
      follow pageTables mem' f (q ++ [j]) = frameOf e ∧
      ∀ P, TreePage P → leaf mem' f P = leaf mem f P := by
  have hne : e ≠ 0 := hlink.ne
  have hpath (r : List ℕ) (hr : Proper r) :=
    hag.path_of_insert (fun _ _ hp hr => Proper.initial hp hr) proper_index hqj hl hold
      (by simpa only [pageTables_cell, hnew] using hne)
      (by simpa only [pageTables_cell, pageTables_child, hnew, pageTables_arity] using hblank) hr
  have hlive (r : List ℕ) (hr : Proper r) := (hpath r hr).1
  have hfollow (r : List ℕ) (hr : Proper r) := (hpath r hr).2.1
  have hchild : follow pageTables mem' f (q ++ [j]) = frameOf e := by
    simpa only [pageTables_cell, pageTables_child, hnew] using (hpath _ hqj).2.2
  have hq : Proper q := hqj.initial (List.prefix_append _ _)
  have hdead : ¬ Live pageTables mem f (q ++ [j]) := fun hc => ((live_append q [j]).mp hc).2.1 hold
  refine ⟨⟨hself, ?_, ?_⟩, hlive, hfollow, hchild, ?_⟩
  · intro r i hri hlr hnz
    have hr : Proper r := hri.initial (List.prefix_append _ _)
    rcases (hlive r hr).mp hlr with hlr' | rfl
    · by_cases hrq : r ≠ q ∨ i ≠ j
      · have he := hag r i hr hlr' hri.last hrq
        simp only [pageTables_cell] at he
        rw [hfollow r hr hlr', he] at hnz ⊢
        exact h.link r i hri hlr' hnz
      · obtain ⟨rfl, rfl⟩ : r = q ∧ i = j := by simpa using hrq
        rwa [hfollow r hr hlr', hnew]
    · rw [hchild] at hnz
      exact absurd (hblank i hri.last) hnz
  · intro r s hr hs hlr hls he
    have hcross : ∀ u, Proper u → Live pageTables mem f u →
        follow pageTables mem' f u ≠ follow pageTables mem' f (q ++ [j]) := by
      intro u hu hlu hc
      rw [hfollow u hu hlu, hchild] at hc
      exact hfresh ⟨u, hu, hlu, hc⟩
    rcases (hlive r hr).mp hlr with hlr' | rfl <;> rcases (hlive s hs).mp hls with hls' | rfl
    · rw [hfollow r hr hlr', hfollow s hs hls'] at he
      exact h.separated r s hr hs hlr' hls' he
    · exact absurd he (hcross r hr hlr')
    · exact absurd he.symm (hcross s hs hls')
    · rfl
  · intro P hP
    have hpr := pagePath_proper hP
    unfold leaf
    by_cases hlP : Live pageTables mem f (pagePath P)
    · rw [if_pos hlP, if_pos ((hlive _ hpr).mpr (.inl hlP)), hfollow _ hpr hlP]
      refine hag _ _ hpr hlP (Nat.mod_lt _ (by decide)) (.inl fun hc => ?_)
      have := hqj.length
      rw [← hc] at this
      simp [pagePath] at this
    · rw [if_neg hlP]
      split
      case isFalse => rfl
      case isTrue hlP' =>
        rcases (hlive _ hpr).mp hlP' with hc | hc
        · exact absurd hc hlP
        · rw [hc, hchild]
          exact hblank _ (Nat.mod_lt _ (by decide))

end Tree

end Raccoon.Mmu
