import Raccoon.AddressSpaces

/-!
`create_page_directory` makes an address space: the frame it draws becomes a
directory, and no other table changes.
-/

namespace Raccoon.AddressSpaces

open Mmu TableTree

variable {k : Loader} {mem mem' : PhysMem} {f g d p n i t : ℕ} {q : List ℕ}

section Copy

/-- The rounds from `i` on copy their entries, and write nothing else. -/
theorem copyDirectory_mem (hd : d < 2 ^ 19) (hp : p % 4096 = 0) (hlow : p < 2 ^ 31) (hne : p / 4096 ≠ d)
    (hi : i + n ≤ 512) (h : copyDirectory (4096 * d + stivaleBase) (p + stivaleBase) n i mem = some mem') :
    (∀ x, x / 4096 ≠ p / 4096 → mem' x = mem x) ∧ (∀ j < i, mem' (p + 8 * j) = mem (p + 8 * j)) ∧
      ∀ j, i ≤ j → j < i + n → mem' (p + 8 * j) = mem (4096 * d + 8 * j) := by
  induction n generalizing i mem with
  | zero =>
    obtain rfl := Option.some.inj h
    exact ⟨fun _ _ => rfl, fun _ _ => rfl, fun j h1 h2 => by omega⟩
  | succ n ih =>
    have hr : wadd (4096 * d + stivaleBase) (8 * i) = 4096 * d + 8 * i + stivaleBase := by
      rw [wadd_eq (by unfold stivaleBase; omega)]
      omega
    have hw : wadd (p + stivaleBase) (8 * i) = p + 8 * i + stivaleBase := by
      rw [wadd_eq (by unfold stivaleBase; omega)]
      omega
    rw [copyDirectory, hr, hw, readStivale, if_pos (Nat.le_add_left _ _), Option.bind_eq_bind, Option.bind_some,
      writeStivale_of_le (Nat.le_add_left _ _), Option.bind_eq_bind, Option.bind_some, Nat.add_sub_cancel,
      Nat.add_sub_cancel] at h
    obtain ⟨hrest, hbelow, hcopied⟩ := ih (by omega) h
    refine ⟨fun x hx => ?_, fun j hj => ?_, fun j h1 h2 => ?_⟩
    · rw [hrest x hx, Function.update_of_ne]
      rintro rfl
      omega
    · rw [hbelow j (by omega), Function.update_of_ne (by omega)]
    · by_cases hij : j = i
      · rw [hbelow j (by omega), hij, Function.update_self]
      · rw [hcopied j (by omega) (by omega), Function.update_of_ne fun he => hne (by omega)]

/-- Memory with a new directory in frame `f`. -/
structure Created (k : Loader) (f : ℕ) (mem mem' : PhysMem) : Prop where
  lt : f < 2 ^ 40
  rest : ChangesIn f mem mem'
  zero : mem' (4096 * f) = 0
  self : mem' (4096 * f + 8 * recursiveMappingEntry) = 4096 * f ||| 3 ||| 4
  slots : ∀ i < 512, i ≠ 0 → i ≠ recursiveMappingEntry → mem' (4096 * f + 8 * i) = mem (4096 * k.dir + 8 * i)

theorem created_of_createPageDirectory (hp : p % 4096 = 0) (hlt : p < 2 ^ 52) (hne : p / 4096 ≠ k.dir)
    (h : createPageDirectory (zeroFrame mem p) (physicalToStivale (4096 * k.dir)) p = some mem') :
    Created k (p / 4096) mem mem' := by
  have hlow := k.low
  have hdir : physicalToStivale (4096 * k.dir) = 4096 * k.dir + stivaleBase := wadd_eq (by unfold stivaleBase; omega)
  rw [createPageDirectory, hdir] at h
  obtain ⟨m₁, hcopy, h⟩ := Option.bind_eq_some_iff.mp h
  obtain ⟨m₂, hself, hzero⟩ := Option.bind_eq_some_iff.mp h
  obtain ⟨hb, rfl⟩ := writeStivale_eq_some.mp hzero
  obtain ⟨-, rfl⟩ := writeStivale_eq_some.mp hself
  have hp' : p < 2 ^ 31 := by
    unfold physicalToStivale wadd stivaleBase at hb
    omega
  have hpd : physicalToStivale p = p + stivaleBase := wadd_eq (by unfold stivaleBase; omega)
  have hslot : wadd (p + stivaleBase) (8 * recursiveMappingEntry) - stivaleBase = p + 8 * recursiveMappingEntry := by
    rw [wadd_eq (by unfold stivaleBase recursiveMappingEntry; omega)]
    omega
  rw [hpd] at hcopy ⊢
  rw [hslot, Nat.add_sub_cancel]
  obtain ⟨hrest, -, hcopied⟩ := copyDirectory_mem k.low hp hp' hne (by omega) hcopy
  have hpage : 4096 * (p / 4096) = p := by omega
  refine ⟨by omega, fun x hx => ?_, ?_, ?_, fun i hi h0 h50 => ?_⟩
  · have hx0 : x ≠ p := by
      rintro rfl
      exact hx rfl
    have hx50 : x ≠ p + 8 * recursiveMappingEntry := by
      rintro rfl
      unfold recursiveMappingEntry at hx
      omega
    rw [Function.update_of_ne hx0, Function.update_of_ne hx50, hrest x hx, zeroFrame_of_ne hx]
  · rw [hpage, Function.update_self]
  · rw [hpage, Function.update_of_ne (by unfold recursiveMappingEntry; omega), Function.update_self]
  · rw [hpage, Function.update_of_ne (by omega), Function.update_of_ne (by omega), hcopied i (by omega) (by omega),
      zeroFrame_of_ne (by omega)]

end Copy

section New

/-- The new directory leads to the tables that the loader shares, and to none else. -/
theorem Created.path (hc : Created k f mem mem') (hf : ¬ KernelFrame k mem f) (hk : KernelTables k mem)
    (hq : Proper (i :: q)) (hl : Live pageTables mem' f (i :: q)) : Shared k (i :: q) ∧
      Live pageTables mem k.dir (i :: q) ∧ follow pageTables mem' f (i :: q) = follow pageTables mem k.dir (i :: q) := by
  have hi : i < 512 := hq.index i (by simp)
  have h50 : i ≠ recursiveMappingEntry := by simpa using hq.head
  have h0 : i ≠ 0 := by
    rintro rfl
    exact hl.1 hc.zero
  have hentry : mem' (4096 * f + 8 * i) = mem' (4096 * k.dir + 8 * i) := by
    rw [hc.slots i hi h0 h50, hc.rest.cell (dir_ne hf) hi]
  obtain ⟨hlive, hfollow⟩ := same_slot hentry q
  have hki : k.kernel i = true := by
    refine eq_true_of_ne_false fun hb => hl.1 ?_
    rw [pageTables_cell, hc.slots i hi h0 h50]
    exact hk.blank i hi h0 h50 hb
  have hshared := shared_cons hq hki
  obtain ⟨hlive', hfollow'⟩ := hc.rest.shared_path hf hshared
  have hl' := hlive'.mp (hlive.mp hl)
  exact ⟨hshared, hl', hfollow.trans (hfollow' hl')⟩

theorem Created.own_root (hc : Created k f mem mem') (hf : ¬ KernelFrame k mem f) (hk : KernelTables k mem)
    (hq : Proper q) (ho : Own k q) (hl : Live pageTables mem' f q) : q = [] := by
  cases q with
  | nil => rfl
  | cons i p => exact absurd ((hc.path hf hk hq hl).1.head i rfl) ho.not_kernel

theorem Created.tableFrame (hc : Created k f mem mem') (hf : ¬ KernelFrame k mem f) (hk : KernelTables k mem)
    (ht : TableFrame mem' f t) : t = f ∨ KernelFrame k mem t ∧ t ≠ k.dir := by
  obtain ⟨q, hq, hl, rfl⟩ := ht
  cases q with
  | nil => exact .inl rfl
  | cons i p =>
    obtain ⟨hshared, hl', hfollow⟩ := hc.path hf hk hq hl
    refine .inr ⟨⟨_, hshared, hl', hfollow.symm⟩, fun hd => ?_⟩
    have hroot := hk.separated (i :: p) [] hshared (Shared.initial (List.nil_prefix) hshared) hl' live_nil
      (hfollow.symm.trans hd)
    cases hroot

theorem Created.spaceTables (hc : Created k f mem mem') (hf : ¬ KernelFrame k mem f) (hk : KernelTables k mem) :
    SpaceTables k mem' f := by
  have hself : SelfMapped mem' f := by
    have hlt := hc.lt
    have haligned : 4096 * f % 4096 = 0 := Nat.mul_mod_right ..
    refine ⟨?_, ?_⟩
    · rw [hc.self]
      exact selfEntry_link haligned
    · rw [hc.self, Nat.or_assoc, frameOf_or haligned (by omega) (by decide)]
      exact Nat.mul_div_cancel_left f (by decide)
  refine ⟨⟨hself, fun q i hqi hl hne => ?_, fun q r hq hr hlq hlr he => ?_⟩, fun i hi hki => ?_, fun ht => ?_⟩
  · have hq : Proper q := hqi.initial (List.prefix_append _ _)
    cases q with
    | nil =>
      -- the entry of the loader's directory
      obtain ⟨hshared, -, -⟩ := hc.path hf hk hqi ⟨hne, live_nil⟩
      have hi := hqi.last
      have h50 : i ≠ recursiveMappingEntry := by simpa using hqi.head
      have h0 : i ≠ 0 := by
        rintro rfl
        exact hne hc.zero
      rw [follow_nil, hc.slots i hi h0 h50] at hne ⊢
      exact hk.link [] i hshared live_nil hne
    | cons j p =>
      obtain ⟨hshared, hl', hfollow⟩ := hc.path hf hk hq hl
      have hcell := hc.rest.cell (fun hf' => hf ⟨_, hshared, hl', hf'⟩) hqi.last
      rw [hfollow, hcell] at hne ⊢
      exact hk.link (j :: p) i (shared_cons hqi (hshared.head j rfl)) hl' hne
  · cases q with
    | nil =>
      cases r with
      | nil => rfl
      | cons j s =>
        obtain ⟨hshared, hl', hfollow⟩ := hc.path hf hk hr hlr
        exact absurd ⟨_, hshared, hl', (he.trans hfollow).symm⟩ hf
    | cons i p =>
      obtain ⟨hshared, hl', hfollow⟩ := hc.path hf hk hq hlq
      cases r with
      | nil => exact absurd ⟨_, hshared, hl', hfollow.symm.trans he⟩ hf
      | cons j s =>
        obtain ⟨hshared', hl'', hfollow'⟩ := hc.path hf hk hr hlr
        rw [hfollow, hfollow'] at he
        exact hk.separated _ _ hshared hshared' hl' hl'' he
  · have h0 : i ≠ 0 := by
      rintro rfl
      rw [k.zero] at hki
      cases hki
    have h50 : i ≠ recursiveMappingEntry := by
      rintro rfl
      rw [k.self] at hki
      cases hki
    rw [hc.slots i hi h0 h50, hc.rest.cell (dir_ne hf) hi]
  · rcases hc.tableFrame hf hk ht with hd | ⟨-, hd⟩
    · exact dir_ne hf hd
    · exact hd rfl

end New

section Tables

variable {pmaps : ℕ → Option ℕ} {core r : ℕ}

theorem pmaps_update {y : ℕ} (h : Function.update pmaps core (some p) y = some r) :
    y = core ∧ r = p ∨ y ≠ core ∧ pmaps y = some r := by
  by_cases hy : y = core
  · subst hy
    rw [Function.update_self] at h
    exact .inl ⟨rfl, (Option.some.inj h).symm⟩
  · rw [Function.update_of_ne hy] at h
    exact .inr ⟨hy, h⟩

/-- A frame that holds no table becomes the directory of a new space. -/
theorem Created.tables (hc : Created k (frameOf p) mem mem') (h : Tables k mem pmaps)
    (hf : frameOf p ∉ tablesIn k mem pmaps) : Tables k mem' (Function.update pmaps core (some p)) := by
  have hkernel : ¬ KernelFrame k mem (frameOf p) := fun hk => hf (.inl hk)
  have hkept {y r : ℕ} (hy : pmaps y = some r) :=
    hc.rest.kept hkernel (h.space y r hy) fun ht => hf (.inr ⟨y, r, hy, ht⟩)
  refine ⟨hc.rest.kernelTables hkernel h.kernel, fun y r hy => ?_, fun y z r r' hy hz hne q hq ho hl ht => ?_⟩
  · rcases pmaps_update hy with ⟨rfl, rfl⟩ | ⟨-, hy⟩
    · exact hc.spaceTables hkernel h.kernel
    · exact (hkept hy).1.space
  · rcases pmaps_update hy with ⟨rfl, rfl⟩ | ⟨-, hold⟩
    · rcases pmaps_update hz with ⟨rfl, -⟩ | ⟨-, hz⟩
      · exact hne rfl
      · obtain rfl := hc.own_root hkernel h.kernel hq ho hl
        exact hf (.inr ⟨z, r', hz, ((hkept hz).2 _).mp ht⟩)
    · obtain ⟨hlive, hfollow⟩ := (hkept hold).1.own q hq ho
      have hl' := hlive.mp hl
      rw [hfollow hl'] at ht
      rcases pmaps_update hz with ⟨rfl, rfl⟩ | ⟨-, hz⟩
      · rcases hc.tableFrame hkernel h.kernel ht with he | ⟨hk, -⟩
        · exact hf (.inr ⟨y, r, hold, q, hq, hl', he⟩)
        · exact (h.space y r hold).own_not_kernel hq ho hl' hk
      · exact h.apart y z r r' hold hz hne q hq ho hl' (((hkept hz).2 _).mp ht)

theorem Created.mem_tablesIn (hc : Created k (frameOf p) mem mem') (h : Tables k mem pmaps)
    (hf : frameOf p ∉ tablesIn k mem pmaps) (hcore : pmaps core = none) :
    t ∈ tablesIn k mem' (Function.update pmaps core (some p)) ↔ t = frameOf p ∨ t ∈ tablesIn k mem pmaps := by
  have hkernel : ¬ KernelFrame k mem (frameOf p) := fun hk => hf (.inl hk)
  have hkept {y r : ℕ} (hy : pmaps y = some r) :=
    hc.rest.kept hkernel (h.space y r hy) fun ht => hf (.inr ⟨y, r, hy, ht⟩)
  constructor
  · rintro (ht | ⟨y, r, hy, ht⟩)
    · exact .inr (.inl ((hc.rest.kernelFrame hkernel).mp ht))
    · rcases pmaps_update hy with ⟨rfl, rfl⟩ | ⟨-, hy⟩
      · exact (hc.tableFrame hkernel h.kernel ht).imp_right fun hk => .inl hk.1
      · exact .inr (.inr ⟨y, r, hy, ((hkept hy).2 t).mp ht⟩)
  · rintro (rfl | ht | ⟨y, r, hy, ht⟩)
    · exact .inr ⟨core, p, Function.update_self .., [], proper_nil, live_nil, rfl⟩
    · exact .inl ((hc.rest.kernelFrame hkernel).mpr ht)
    · have hyc : y ≠ core := by
        rintro rfl
        rw [hcore] at hy
        cases hy
      exact .inr ⟨y, r, by rw [Function.update_of_ne hyc, hy], ((hkept hy).2 t).mpr ht⟩

end Tables

end Raccoon.AddressSpaces
