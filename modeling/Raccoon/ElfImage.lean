import Raccoon.ElfLoader
import Raccoon.LoadedPages

/-!
`map_elf_64` as it acts on memory: it reads the module and copies its segments
through the page tables. The image it leaves is the program's, whatever the
order of the segments.
-/

namespace Raccoon.ElfImage

open Loops Outcome Mmu Machine ByteMemory ElfLoader

section Code

variable {A ρ : Type}

def checkMagics (hdr : ℕ) (m : Machine A) : List ℕ → ℕ → Outcome Stuck ρ Bool
  | [], _ => .next true
  | c :: cs, i => do
    let b ← m.loadByte (hdr + i)
    if b ≠ c then .next false else checkMagics hdr m cs (i + 1)

/-- The result, and the machine after the write to the identification. -/
def checkElf (hdr : ℕ) (m : Machine A) : Outcome Stuck ρ (Bool × Machine A) := do
  let m ← m.storeByte (hdr + 5) 0
  let magics ← checkMagics hdr m elfHeaderMagic 0
  if ¬ magics then .next (false, m)
  else do
    let elfClass ← m.loadValue (hdr + 4) 1
    if elfClass ≠ elfClass64 then .next (false, m)
    else do
      let objectType ← m.loadValue (hdr + 16) 2
      .next (objectType = elfTypeExecutable, m)

def copyByte (dest src i : ℕ) (m : Machine A) : Outcome Stuck ρ (Machine A) := do
  let b ← m.loadByte (wadd src i)
  m.storeByte (wadd dest i) b

def memcpy (dest src n : ℕ) (m : Machine A) : Outcome Stuck ρ (Machine A) := forLoop (copyByte dest src) n 0 m

variable [FrameSource A]

def mapSection (phdr filePos : ℕ) (m : Machine A) : Outcome Stuck ρ (Machine A) := do
  let type ← m.loadValue phdr 4
  if type ≠ elfProgramHeaderLoad then .next m
  else do
    let virtualAddress ← m.loadValue (phdr + 16) 8
    let memorySize ← m.loadValue (phdr + 40) 8
    match kmmap virtualAddress memorySize 7 m with
    | .error e => .fail e
    | .ok m => do
      let virtualAddress ← m.loadValue (phdr + 16) 8
      let fileOffset ← m.loadValue (phdr + 8) 8
      let fileSize ← m.loadValue (phdr + 32) 8
      memcpy virtualAddress (wadd fileOffset filePos) fileSize m

/-- One round of the loop, which reads the header anew. -/
def mapProgram (hdr i : ℕ) (m : Machine A) : Outcome Stuck (Machine A) (Machine A) := do
  let programsCount ← m.loadValue (hdr + 56) 2
  if ¬ i < programsCount then .done m
  else do
    let programsOffset ← m.loadValue (hdr + 32) 8
    let programsSize ← m.loadValue (hdr + 54) 2
    mapSection (wadd (programOffset programsOffset programsSize i) hdr) hdr m

/-- The counter and the count are both 16 bits wide, so that the loop ends before the counter wraps round. -/
def mapElf64 (hdr : ℕ) (m : Machine A) : Except Stuck (Machine A) :=
  match (do
    let (elf, m) ← checkElf hdr m
    if ¬ elf then .done m else forLoop (mapProgram hdr) (2 ^ 16) 0 m : Outcome Stuck (Machine A) (Machine A)) with
  | .fail e => .error e
  | .done m => .ok m
  | .next m => .ok m

end Code

section Program

variable {A : Type} (M : Module)

def virtualAddress (i : ℕ) : ℕ := M.value (M.program i + 16) 8
def memorySize (i : ℕ) : ℕ := M.value (M.program i + 40) 8
def fileOffset (i : ℕ) : ℕ := M.value (M.program i + 8) 8
def fileSize (i : ℕ) : ℕ := M.value (M.program i + 32) 8

/-- Program header `i` is there and asks for loading. -/
def IsLoad (i : ℕ) : Prop := i < M.programsCount ∧ M.value (M.program i) 4 = elfProgramHeaderLoad

instance (i : ℕ) : Decidable (IsLoad M i) := inferInstanceAs (Decidable (_ ∧ _))

/-- Byte `x` of the address space is one of the segment's. -/
def InSegment (i x : ℕ) : Prop := virtualAddress M i ≤ x ∧ x < virtualAddress M i + memorySize M i

/-- The program headers are in the file, and the segments have their file bytes in the file and pages in the
user's half that are free. -/
structure Loadable (m : Machine A) : Prop where
  header : 58 ≤ M.size
  programs : ∀ i < M.programsCount, M.program i + 56 ≤ M.size
  sizes : ∀ i, IsLoad M i → 1 ≤ memorySize M i ∧ fileSize M i ≤ memorySize M i
  source : ∀ i, IsLoad M i → fileOffset M i + fileSize M i ≤ M.size
  user : ∀ i, IsLoad M i → virtualAddress M i + memorySize M i ≤ 2 ^ 47
  slot : ∀ i, IsLoad M i → ∀ x, InSegment M i x → x / 2 ^ 39 ≠ recursiveMappingEntry
  apart : ∀ i j, IsLoad M i → IsLoad M j → i ≠ j → ∀ x, InSegment M i x → ¬ InSegment M j x
  unmapped : ∀ i, IsLoad M i → ∀ x, InSegment M i x → leaf m.mem m.root (x / 4096) = 0

/-- What the segment puts over the zeroes. -/
def piece (i : ℕ) : Piece ℕ := ⟨virtualAddress M i, fileSize M i, fun k => (M.byte (fileOffset M i + k)).toNat⟩

/-- The headers before header `n` that ask for loading. -/
def loads (n : ℕ) : List ℕ := (List.range n).filter fun i => M.value (M.program i) 4 = elfProgramHeaderLoad

def image (n : ℕ) : ℕ → ℕ := overlay (fun _ => 0) ((loads M n).map (piece M))

def segmentPages (n P : ℕ) : Prop := ∃ i ∈ loads M n, Meets (virtualAddress M i) (memorySize M i) P

end Program

section Module

variable {A ρ : Type} {M : Module} {m : Machine A} {off n i : ℕ}

/-- The module's bytes are in memory at its address. -/
def Shown (M : Module) (m : Machine A) : Prop := ∀ i < M.size, m.visible (M.base + i) = some (M.byte i).toNat

theorem Shown.loadValue (h : Shown M m) (hoff : off + n ≤ M.size) :
    (m.loadValue (M.base + off) n : Outcome Stuck ρ ℕ) = .next (M.value off n) := by
  induction n generalizing off with
  | zero =>
    rw [Machine.loadValue, Module.value]
  | succ n ih =>
    have hrest : (m.loadValue (M.base + (off + 1)) n : Outcome Stuck ρ ℕ) = .next (M.value (off + 1) n) := ih (by omega)
    rw [Machine.loadValue, loadByte_of_visible (h off (by omega)), next_bind, Nat.add_assoc, hrest, next_bind,
      Module.value]

/-- Where the run on the module's contents falls through with `s`, the run on memory does so with `f s`. -/
def Agrees {σ σ' : Type} (f : σ → σ') (o : Outcome Trap ρ σ) (o' : Outcome Stuck ρ σ') : Prop :=
  ∀ s, o = .next s → o' = .next (f s)

theorem agrees_next {σ σ' : Type} (f : σ → σ') (s : σ) : Agrees f (.next s : Outcome Trap ρ σ) (.next (f s)) :=
  fun _ h => by
    cases h
    rfl

theorem Agrees.bind {σ τ τ' : Type} {f : τ → τ'} {o : Outcome Trap ρ σ} {o' : Outcome Stuck ρ σ}
    {g : σ → Outcome Trap ρ τ} {g' : σ → Outcome Stuck ρ τ'} (h : Agrees id o o') (hg : ∀ s, Agrees f (g s) (g' s)) :
    Agrees f (o >>= g) (o' >>= g') := by
  intro t ht
  cases o with
  | fail e => cases ht
  | done r => cases ht
  | next s =>
    rw [h s rfl]
    exact hg s t ht

theorem Shown.read (h : Shown M m) (off n : ℕ) :
    Agrees id (read M (M.base + off) n : Outcome Trap ρ ℕ) (m.loadValue (M.base + off) n) := by
  intro v hv
  rw [read_base] at hv
  by_cases hoff : off + n ≤ M.size
  · rw [if_pos hoff] at hv
    cases hv
    exact h.loadValue hoff
  · rw [if_neg hoff] at hv
    cases hv

theorem Shown.checkMagics (h : Shown M m) (cs : List ℕ) (i : ℕ) :
    Agrees id (ElfLoader.checkMagics M cs i : Outcome Trap ρ Bool) (checkMagics M.base m cs i) := by
  induction cs generalizing i with
  | nil => exact agrees_next id true
  | cons c cs ih =>
    have hbyte : (m.loadValue (M.base + i) 1 : Outcome Stuck ρ ℕ) = m.loadByte (M.base + i) := by
      rw [Machine.loadValue]
      cases (m.loadByte (M.base + i) : Outcome Stuck ρ ℕ) <;> simp [Machine.loadValue]
    rw [ElfLoader.checkMagics, ElfImage.checkMagics, ← hbyte]
    refine (h.read i 1).bind fun b => ?_
    split
    · exact agrees_next id false
    · exact ih (i + 1)

/-- `check_elf` answers on memory what it answers on the contents that it leaves. -/
theorem Shown.checkElf {m₁ : Machine A} (h : Shown M m₁)
    (hstore : (m.storeByte (M.base + 5) 0 : Outcome Stuck ρ _) = .next m₁) :
    Agrees (fun elf => (elf, m₁)) (ElfLoader.checkElf M : Outcome Trap ρ Bool) (checkElf M.base m) := by
  rw [ElfLoader.checkElf, ElfImage.checkElf, hstore, next_bind]
  refine (h.checkMagics elfHeaderMagic 0).bind fun magics => ?_
  split
  · exact agrees_next _ false
  · refine (h.read 4 1).bind fun elfClass => ?_
    split
    · exact agrees_next _ false
    · exact (h.read 16 2).bind fun objectType => agrees_next _ _

/-- A module that is accepted by its contents is accepted in memory. -/
theorem Shown.accepted {m₁ : Machine A} (h : Shown M m₁) (helf : M.Elf) (hsize : 18 ≤ M.size)
    (hstore : (m.storeByte (M.base + 5) 0 : Outcome Stuck ρ _) = .next m₁) :
    (ElfImage.checkElf M.base m : Outcome Stuck ρ _) = .next (true, m₁) := by
  apply h.checkElf hstore true
  rw [checkElf_eq (ρ := ρ) helf, if_pos hsize]

theorem segmentPages_zero (M : Module) : segmentPages M 0 = fun _ => False := by
  funext P
  simp [segmentPages, loads]

theorem image_zero (M : Module) : image M 0 = fun _ => 0 := rfl

theorem loads_succ (M : Module) (n : ℕ) : loads M (n + 1) =
    if M.value (M.program n) 4 = elfProgramHeaderLoad then loads M n ++ [n] else loads M n := by
  rw [loads, List.range_succ, List.filter_append]
  by_cases h : M.value (M.program n) 4 = elfProgramHeaderLoad
  · simp [h, loads]
  · simp [h, loads]

theorem loads_skip (h : M.value (M.program n) 4 ≠ elfProgramHeaderLoad) : loads M (n + 1) = loads M n := by
  rw [loads_succ, if_neg h]

theorem segmentPages_load (h : M.value (M.program n) 4 = elfProgramHeaderLoad) :
    segmentPages M (n + 1) = fun P => segmentPages M n P ∨ Meets (virtualAddress M n) (memorySize M n) P := by
  funext P
  simp only [segmentPages, loads_succ, if_pos h, List.mem_append, List.mem_singleton, or_and_right, exists_or,
    exists_eq_left]

theorem image_load (h : M.value (M.program n) 4 = elfProgramHeaderLoad) :
    image M (n + 1) = lay (image M n) (piece M n) := by
  rw [image, loads_succ, if_pos h, List.map_append]
  exact overlay_snoc ..

theorem segmentPages_skip (h : M.value (M.program n) 4 ≠ elfProgramHeaderLoad) :
    segmentPages M (n + 1) = segmentPages M n := by
  funext P
  rw [segmentPages, segmentPages, loads_skip h]

theorem image_skip (h : M.value (M.program n) 4 ≠ elfProgramHeaderLoad) : image M (n + 1) = image M n := by
  rw [image, image, loads_skip h]

theorem mem_loads : i ∈ loads M n ↔ i < n ∧ M.value (M.program i) 4 = elfProgramHeaderLoad := by
  simp [loads]

/-- The file bytes of different segments go to different places. -/
theorem pieces_apart (h : Loadable M m) : ((loads M M.programsCount).map (piece M)).Pairwise Piece.Apart := by
  have hin {i x : ℕ} (hi : i ∈ loads M M.programsCount) (hx : (piece M i).Covers x) : IsLoad M i ∧ InSegment M i x := by
    have hload : IsLoad M i := mem_loads.mp hi
    have hsizes := (h.sizes i hload).2
    have hend := hx.2
    simp only [piece] at hend
    exact ⟨hload, hx.1, by omega⟩
  have hnodup : (loads M M.programsCount).Nodup := List.nodup_range.filter _
  refine List.pairwise_map.mpr (hnodup.imp_of_mem fun hi hj hne x hx hx' => ?_)
  exact h.apart _ _ (hin hi hx).1 (hin hj hx').1 hne x (hin hi hx).2 (hin hj hx').2

theorem image_file (h : Loadable M m) (hi : IsLoad M i) {j : ℕ} (hj : j < fileSize M i) :
    image M M.programsCount (virtualAddress M i + j) = (M.byte (fileOffset M i + j)).toNat := by
  have hmem : piece M i ∈ (loads M M.programsCount).map (piece M) := List.mem_map_of_mem (mem_loads.mpr hi)
  have hcover : (piece M i).Covers (virtualAddress M i + j) := ⟨Nat.le_add_right .., Nat.add_lt_add_left hj _⟩
  refine (overlay_covered (pieces_apart h) hmem hcover).trans ?_
  simp only [piece, Nat.add_sub_cancel_left]

/-- The tail of a segment is not covered by its own file bytes, nor by another segment. -/
theorem image_tail (h : Loadable M m) (hi : IsLoad M i) {j : ℕ} (hj : fileSize M i ≤ j) (hlt : j < memorySize M i) :
    image M M.programsCount (virtualAddress M i + j) = 0 := by
  refine overlay_outside fun p hp hcover => ?_
  obtain ⟨i', hi', rfl⟩ := List.mem_map.mp hp
  have hload : IsLoad M i' := mem_loads.mp hi'
  have hsizes := (h.sizes i' hload).2
  obtain ⟨hlo, hhi⟩ := hcover
  simp only [piece] at hlo hhi
  have hown : InSegment M i (virtualAddress M i + j) := ⟨Nat.le_add_right .., Nat.add_lt_add_left hlt _⟩
  have hother : InSegment M i' (virtualAddress M i + j) := ⟨hlo, by omega⟩
  by_cases he : i' = i
  · subst he
    omega
  · exact h.apart i i' hi hload (Ne.symm he) _ hown hother

theorem Loadable.tree (h : Loadable M m) (hi : IsLoad M i) {x : ℕ} (hx : InSegment M i x) : TreePage (x / 4096) := by
  have huser := h.user i hi
  have hslot := h.slot i hi x hx
  have hend := hx.2
  refine ⟨by omega, ?_⟩
  rwa [Nat.div_div_eq_div_mul]

end Module

section Run

variable {A ρ : Type} [FrameSource A] {M : Module} {m₀ m m₁ : Machine A} {i k : ℕ}

/-- The machine after `check_elf` has accepted a module that can be loaded. -/
structure Accepted (M : Module) (m : Machine A) : Prop where
  wf : WellFormed m.mem m.root
  fresh : Fresh m
  lock : m.kmmapLock = 0
  settled : ∀ i < M.size, Settled m (M.base + i)
  shown : Shown M m
  loadable : Loadable M m

theorem Accepted.shown_of_loaded (h₀ : Accepted M m₀) {pages : ℕ → Prop} {f : ℕ → ℕ}
    (h : Loaded m₀ m pages f k) : Shown M m :=
  fun i hi => (h.visible_settled h₀.wf (h₀.settled i hi)).trans (h₀.shown i hi)

theorem in_segment (h₀ : Accepted M m₀) (hi : IsLoad M i) {j : ℕ} (hj : j < fileSize M i) :
    InSegment M i (virtualAddress M i + j) := by
  have hsizes := (h₀.loadable.sizes i hi).2
  exact ⟨Nat.le_add_right .., by omega⟩

/-- The copy puts the file bytes over the image. -/
theorem memcpy_ends (h₀ : Accepted M m₀) (hi : IsLoad M i) {pages : ℕ → Prop} {f : ℕ → ℕ}
    (h : Loaded m₀ m pages f k) (hpages : ∀ x, InSegment M i x → pages (x / 4096)) :
    (memcpy (virtualAddress M i) (wadd (fileOffset M i) M.base) (fileSize M i) m :
      Outcome Stuck ρ (Machine A)).Ends (fun _ => False) (fun _ => False)
      fun m' => Loaded m₀ m' pages (lay f (piece M i)) k := by
  have hfits := M.fits
  have hsource := h₀.loadable.source i hi
  have huser := h₀.loadable.user i hi
  apply forLoop_ends (N := fileSize M i) _ (fun j m' => Loaded m₀ m' pages (lay f ((piece M i).take j)) k) _ 0 m
    (Nat.zero_le _)
  · rwa [lay_zero]
  · intro j m' hj hm'
    have hin := in_segment h₀ hi hj
    have hread : wadd (wadd (fileOffset M i) M.base) j = M.base + (fileOffset M i + j) := by
      rw [wadd_eq (x := fileOffset M i) (by omega), wadd_eq (by omega)]
      omega
    have hwrite : wadd (virtualAddress M i) j = virtualAddress M i + j := by
      refine wadd_eq ?_
      have := hin.2
      omega
    obtain ⟨m'', hstore, hm''⟩ := hm'.storeByte (ρ := ρ) h₀.fresh (hpages _ hin) (M.byte (fileOffset M i + j)).isLt
    rw [copyByte, hread, hwrite, loadByte_of_visible (h₀.shown_of_loaded hm' _ (by omega)), next_bind, hstore]
    exact (lay_succ f (piece M i) j).symm ▸ hm''

theorem meets_segment (h₀ : Accepted M m₀) (hi : IsLoad M i) {P : ℕ} :
    Meets (virtualAddress M i) (memorySize M i) P ↔ ∃ x, InSegment M i x ∧ x / 4096 = P := by
  have hsizes := (h₀.loadable.sizes i hi).1
  have huser := h₀.loadable.user i hi
  have hmod : virtualAddress M i % 2 ^ 48 = virtualAddress M i := by omega
  have hmax : max (memorySize M i) 1 = memorySize M i := by omega
  simp only [Meets, InSegment, hmod, hmax, and_assoc]

theorem kmmap_segment (h₀ : Accepted M m₀) (hi : IsLoad M i) {pages : ℕ → Prop} {f : ℕ → ℕ}
    (h : Loaded m₀ m pages f k) (hget : kmmap (virtualAddress M i) (memorySize M i) 7 m ≠ .error .outOfMemory) :
    ∃ m' n, kmmap (virtualAddress M i) (memorySize M i) 7 m = .ok m' ∧
      Loaded m₀ m' (fun P => pages P ∨ Meets (virtualAddress M i) (memorySize M i) P) f (k + n) := by
  refine h.kmmap h₀.fresh (h₀.loadable.sizes i hi).1 (h₀.loadable.user i hi) (fun P hP => ?_) (fun P hP => ?_) hget
  · obtain ⟨x, hx, rfl⟩ := (meets_segment h₀ hi).mp hP
    exact (h₀.loadable.tree hi hx).2
  · obtain ⟨x, hx, rfl⟩ := (meets_segment h₀ hi).mp hP
    exact h₀.loadable.unmapped i hi x hx

/-- One program header: its pages are added, and its file bytes are put over the image. -/
theorem mapSection_ends (h₀ : Accepted M m₀) (hi : i < M.programsCount)
    (h : Loaded m₀ m (segmentPages M i) (image M i) k) :
    (mapSection (wadd (M.program i) M.base) M.base m : Outcome Stuck ρ (Machine A)).Ends (· = .outOfMemory)
      (fun _ => False) fun m' => ∃ k', Loaded m₀ m' (segmentPages M (i + 1)) (image M (i + 1)) k' := by
  have hfits := M.fits
  have hfile := h₀.loadable.programs i hi
  have hphdr : wadd (M.program i) M.base = M.base + M.program i := by
    rw [wadd_eq (by omega), Nat.add_comm]
  have hfield {m' : Machine A} {pages : ℕ → Prop} {f : ℕ → ℕ} {k' : ℕ} (hm' : Loaded m₀ m' pages f k') (d n : ℕ)
      (hd : d + n ≤ 56) : (m'.loadValue (M.base + M.program i + d) n : Outcome Stuck ρ ℕ) =
        .next (M.value (M.program i + d) n) := by
    rw [Nat.add_assoc]
    exact (h₀.shown_of_loaded hm').loadValue (by omega)
  rw [mapSection, hphdr, (h₀.shown_of_loaded h).loadValue (by omega), next_bind]
  by_cases hload : M.value (M.program i) 4 = elfProgramHeaderLoad
  · have hsegment : IsLoad M i := ⟨hi, hload⟩
    rw [if_neg (not_not_intro hload), hfield h 16 8 (by omega), next_bind, hfield h 40 8 (by omega), next_bind]
    by_cases hget : Mmu.kmmap (M.value (M.program i + 16) 8) (M.value (M.program i + 40) 8) 7 m = .error .outOfMemory
    · rw [hget]
      rfl
    · obtain ⟨m', n, hrun, hm'⟩ := kmmap_segment h₀ hsegment h hget
      rw [show Mmu.kmmap (M.value (M.program i + 16) 8) (M.value (M.program i + 40) 8) 7 m = .ok m' from hrun]
      dsimp only
      rw [hfield hm' 16 8 (by omega), next_bind, hfield hm' 8 8 (by omega), next_bind, hfield hm' 32 8 (by omega),
        next_bind, segmentPages_load hload, image_load hload]
      have hcopy := memcpy_ends (ρ := ρ) h₀ hsegment hm' fun x hx => .inr ((meets_segment h₀ hsegment).mpr ⟨x, hx, rfl⟩)
      exact hcopy.mono (fun _ h => h.elim) (fun _ h => h) fun m'' hm'' => ⟨k + n, hm''⟩
  · rw [if_pos hload, ends_next, segmentPages_skip hload, image_skip hload]
    exact ⟨k, h⟩

theorem programs_ends (h₀ : Accepted M m₀) :
    (forLoop (mapProgram M.base) (2 ^ 16) 0 m₀).Ends (· = .outOfMemory)
      (fun m => ∃ k, Loaded m₀ m (segmentPages M M.programsCount) (image M M.programsCount) k) fun _ => False := by
  have hheader := h₀.loadable.header
  have hcount : M.programsCount < 2 ^ 16 := value_lt M 56 2
  have hloop := forLoop_ends (N := 2 ^ 16) (mapProgram M.base) (F := (· = .outOfMemory))
    (R := fun m => ∃ k, Loaded m₀ m (segmentPages M M.programsCount) (image M M.programsCount) k)
    (fun i m => i ≤ M.programsCount ∧ ∃ k, Loaded m₀ m (segmentPages M i) (image M i) k) ?_ 0 m₀ (Nat.zero_le _) ?_
  · exact hloop.mono (fun _ h => h) (fun _ h => h) fun _ h => absurd h.1 (Nat.not_le_of_lt hcount)
  · rintro i m - ⟨hle, k, h⟩
    have hfield (d n : ℕ) (hd : d + n ≤ 58) : (m.loadValue (M.base + d) n : Outcome Stuck (Machine A) ℕ) =
        .next (M.value d n) := (h₀.shown_of_loaded h).loadValue (by omega)
    have hread : (m.loadValue (M.base + 56) 2 : Outcome Stuck (Machine A) ℕ) = .next M.programsCount :=
      hfield 56 2 (by omega)
    rw [mapProgram, hread, next_bind]
    by_cases hi : i < M.programsCount
    · rw [if_neg (not_not_intro hi), hfield 32 8 (by omega), next_bind, hfield 54 2 (by omega), next_bind]
      exact (mapSection_ends h₀ hi h).mono (fun _ h => h) (fun _ h => h.elim) fun _ h => ⟨hi, h⟩
    · rw [if_pos hi]
      obtain rfl : i = M.programsCount := Nat.le_antisymm hle (Nat.le_of_not_lt hi)
      exact ⟨k, h⟩
  · rw [segmentPages_zero, image_zero]
    exact ⟨Nat.zero_le _, 0, .refl h₀.wf h₀.fresh h₀.lock⟩

omit [FrameSource A] in
/-- Whatever `check_elf` answers, it has stored one byte. -/
theorem checkElf_ends (hdr : ℕ) (m : Machine A) : (checkElf hdr m : Outcome Stuck ρ _).Ends (fun _ => True)
    (fun _ => True) fun s => (m.storeByte (hdr + 5) 0 : Outcome Stuck ρ _) = .next s.2 := by
  have hany {σ : Type} (o : Outcome Stuck ρ σ) : o.Ends (fun _ => True) (fun _ => True) fun _ => True := by
    cases o <;> trivial
  rw [checkElf]
  cases hstore : (m.storeByte (hdr + 5) 0 : Outcome Stuck ρ _) with
  | fail e => trivial
  | done r => trivial
  | next m' =>
    rw [next_bind]
    refine (hany _).bind fun magics _ => ?_
    split
    · rfl
    · refine (hany _).bind fun elfClass _ => ?_
      split
      · rfl
      · exact (hany _).bind fun _ _ => rfl

/-- The machine after `check_elf` differs in one byte of the module. -/
theorem checkElf_sameTables (hwf : WellFormed m.mem m.root) (hsettled : Settled m (M.base + 5))
    (h : (checkElf M.base m : Outcome Stuck ρ _) = .next (true, m₁)) : SameTables m m₁ := by
  obtain ⟨x, hx, hnot, -⟩ := hsettled.frame
  have hstore := checkElf_ends (ρ := ρ) M.base m
  rw [h, ends_next, storeByte_of_translate 0 hx] at hstore
  obtain rfl : { m with mem := setByte m.mem x 0 } = m₁ := by injection hstore
  exact sameTables_setByte hwf hnot 0

/-- After `map_elf_64` every segment shows its file bytes with zeroes behind them, and no other page has changed,
unless `kmmap` runs out of frames. -/
theorem loaded_image (hwf : WellFormed m.mem m.root) (hfresh : Fresh m) (hlock : m.kmmapLock = 0)
    (hsettled : ∀ i < M.size, Settled m (M.base + i))
    (hcheck : (checkElf M.base m : Outcome Stuck (Machine A) _) = .next (true, m₁)) (hshown : Shown M m₁)
    (hload : Loadable M m) (hget : mapElf64 M.base m ≠ .error .outOfMemory) :
    ∃ m', mapElf64 M.base m = .ok m' ∧
      (∀ i, IsLoad M i →
        (∀ j < fileSize M i, m'.visible (virtualAddress M i + j) = some (M.byte (fileOffset M i + j)).toNat) ∧
        ∀ j, fileSize M i ≤ j → j < memorySize M i → m'.visible (virtualAddress M i + j) = some 0) ∧
      ∀ P, TreePage P → (∀ i, IsLoad M i → ∀ x, InSegment M i x → x / 4096 ≠ P) →
        leaf m'.mem m'.root P = leaf m.mem m.root P := by
  have hheader := hload.header
  have hsame := checkElf_sameTables hwf (hsettled 5 (by omega)) hcheck
  have hloadable : Loadable M m₁ :=
    { hload with unmapped := fun i hi x hx => (hsame.leaf _ (hload.tree hi hx)).trans (hload.unmapped i hi x hx) }
  have h₀ : Accepted M m₁ := ⟨hsame.wf, hsame.fresh hfresh, hsame.lock.trans hlock,
    fun i hi => hsame.settled hwf (hsettled i hi), hshown, hloadable⟩
  have hrun : (do
      let (elf, m) ← checkElf M.base m
      if ¬ elf then .done m else forLoop (mapProgram M.base) (2 ^ 16) 0 m : Outcome Stuck (Machine A) (Machine A)) =
        forLoop (mapProgram M.base) (2 ^ 16) 0 m₁ := by
    rw [hcheck, next_bind]
    rfl
  have hends := programs_ends h₀
  rw [mapElf64, hrun] at hget ⊢
  cases hloop : forLoop (mapProgram M.base) (2 ^ 16) 0 m₁ with
  | fail e =>
    rw [hloop] at hget hends
    exact absurd (congrArg Except.error hends) hget
  | next m' =>
    rw [hloop] at hends
    exact hends.elim
  | done m' =>
    rw [hloop] at hends
    obtain ⟨k, h⟩ := hends
    have hshows {i j : ℕ} (hi : IsLoad M i) (hj : j < memorySize M i) :
        m'.visible (virtualAddress M i + j) = some (image M M.programsCount (virtualAddress M i + j)) :=
      h.visible_page ⟨i, mem_loads.mpr hi, (meets_segment h₀ hi).mpr
        ⟨_, ⟨Nat.le_add_right .., Nat.add_lt_add_left hj _⟩, rfl⟩⟩
    refine ⟨m', rfl, fun i hi => ⟨fun j hj => ?_, fun j hj hlt => ?_⟩, fun P hP hout => ?_⟩
    · rw [hshows hi (hj.trans_le (hload.sizes i hi).2), image_file hload hi hj]
    · rw [hshows hi hlt, image_tail hload hi hj hlt]
    · rw [h.kept P hP, hsame.leaf P hP]
      rintro ⟨i, hmem, hmeets⟩
      obtain ⟨x, hx, hxP⟩ := (meets_segment h₀ (mem_loads.mp hmem)).mp hmeets
      exact hout i (mem_loads.mp hmem) x hx hxP

end Run

section TwoSegments

def loadHeader (fileOffset virtualAddress fileSize memorySize : ℕ) : List (BitVec 8) :=
  [1, 0, 0, 0] ++ zeros 4 ++ le8 fileOffset ++ le8 virtualAddress ++ zeros 8 ++ le8 fileSize ++ le8 memorySize ++
    zeros 8

/-- Two segments that share a page, the later one in front. -/
def twoSegments : Module := moduleOf ([0x7f, 0x45, 0x4c, 0x46, 2] ++ zeros 11 ++ [2, 0] ++ zeros 14 ++ le8 64 ++
  zeros 14 ++ [56, 0, 2, 0] ++ zeros 6 ++ loadHeader 0 0x5040 16 32 ++ loadHeader 64 0x5000 16 48) (by decide +kernel)

def bootMachine : Machine (List ℕ) :=
  { blankMachine with frames := [0x2000, 0x3000, 0x4000, 0x5000, 0x6000, 0x7000, 0x8000, 0x9000] }

/-- The module's page is mapped to frame 5. -/
def mappedMachine : Machine (List ℕ) := (kmmap twoSegments.base 0x1000 3 bootMachine).toOption.getD bootMachine

/-- The module in memory, with a byte that `check_elf` clears. -/
def moduleMachine : Machine (List ℕ) :=
  { mappedMachine with
    mem := fun x =>
      if x / 4096 = 5 then twoSegments.value (x % 4096) 8 + (if x = 0x5000 then 2 ^ 40 else 0)
      else mappedMachine.mem x }

theorem mappedMachine_tables : WellFormed mappedMachine.mem mappedMachine.root ∧ Fresh mappedMachine ∧
    ¬ TableFrame mappedMachine.mem mappedMachine.root 5 := by
  have hfresh : Fresh bootMachine := fresh_of_blank 8 (by decide)
  have hbase : twoSegments.base = 0xffffffff80100000 := rfl
  have hflags : EntryFlags 3 := ⟨by decide, by decide⟩
  have hok : (kmmap twoSegments.base 0x1000 3 bootMachine).isOk = true := by decide +kernel
  have hwf : WellFormed bootMachine.mem bootMachine.root := blankMachine_tables.1
  have hslot (P : ℕ) : Meets twoSegments.base 0x1000 P → P / 2 ^ 27 ≠ recursiveMappingEntry :=
    Meets.slot_ne (.inr (by decide))
  obtain ⟨m', n, hrun, hm'⟩ :=
    kmmap_mapped hwf hfresh rfl hflags (by omega) hslot (ne_error_of_isOk hok Stuck.outOfMemory)
  have hmapped : mappedMachine = m'.releaseKmmap := Except.ok.inj ((ok_of_isOk hok bootMachine).symm.trans hrun)
  have hleaf : leaf mappedMachine.mem mappedMachine.root 0xffff80100 = 0x5003 := by decide +kernel
  have hunused : leaf bootMachine.mem bootMachine.root 0xffff80100 = 0 := by decide +kernel
  rw [hmapped, releaseKmmap_mem, releaseKmmap_root] at hleaf ⊢
  obtain ⟨i, -, a, ha, hnot, he⟩ := hm'.new 0xffff80100 (by unfold TreePage recursiveMappingEntry; omega) (by omega)
    (by omega) hunused
  obtain ⟨hal, hlt⟩ := hfresh.aligned i a ha
  have hframe : a / 4096 = 5 := by
    rw [← (hflags.link hal hlt).2, ← he, hleaf]
    rfl
  exact ⟨hm'.wf, hm'.fresh.releaseKmmap, hframe ▸ hnot⟩

theorem moduleMachine_tables : SameTables mappedMachine moduleMachine := by
  obtain ⟨hwf, -, hnot⟩ := mappedMachine_tables
  refine sameTables_of_outside hwf fun x hx => if_neg ?_
  rintro hc
  exact hnot (hc ▸ hx)

theorem moduleMachine_settled : ∀ i < twoSegments.size, Settled moduleMachine (twoSegments.base + i) := by
  have hsize : twoSegments.size = 176 := by decide +kernel
  have hbase : twoSegments.base = 0xffffffff80100000 := rfl
  have hreach : ∀ i < 176,
      translate moduleMachine.mem moduleMachine.cr3 (twoSegments.base + i) = some (0x5000 + i) := by decide +kernel
  have hframes : moduleMachine.frames = [0x6000, 0x7000, 0x8000, 0x9000] := by decide +kernel
  obtain ⟨-, -, hnot⟩ := mappedMachine_tables
  intro i hi
  rw [hsize] at hi
  have hframe : (0x5000 + i) / 4096 = 5 := by omega
  refine ⟨by unfold TreePage recursiveMappingEntry; omega, _, hreach i hi, ?_, fun n a ha => ?_⟩
  · rw [hframe, moduleMachine_tables.tables]
    exact hnot
  · rw [hframes, nthFrame_list] at ha
    match n, ha with
    | 0, rfl | 1, rfl | 2, rfl | 3, rfl => rw [hframe]; decide

theorem twoSegments_loadable : Loadable twoSegments moduleMachine := by
  have hcount : twoSegments.programsCount = 2 := by decide +kernel
  have hprogram0 : twoSegments.program 0 = 64 := by decide +kernel
  have hprogram1 : twoSegments.program 1 = 120 := by decide +kernel
  have hsegment {i : ℕ} (hi : IsLoad twoSegments i) :
      (i = 0 ∧ virtualAddress twoSegments i = 0x5040 ∧ memorySize twoSegments i = 32 ∧ fileSize twoSegments i = 16 ∧
        fileOffset twoSegments i = 0) ∨
      (i = 1 ∧ virtualAddress twoSegments i = 0x5000 ∧ memorySize twoSegments i = 48 ∧ fileSize twoSegments i = 16 ∧
        fileOffset twoSegments i = 64) := by
    have hlt := hi.1
    rw [hcount] at hlt
    match i, hlt with
    | 0, _ => exact .inl (by decide +kernel)
    | 1, _ => exact .inr (by decide +kernel)
  have hsize : twoSegments.size = 176 := by decide +kernel
  have hunmapped : leaf moduleMachine.mem moduleMachine.root 5 = 0 := by decide +kernel
  constructor
  case header => omega
  case programs =>
    intro i hi
    rw [hcount] at hi
    match i, hi with
    | 0, _ => omega
    | 1, _ => omega
  case sizes =>
    intro i hi
    have := hsegment hi
    omega
  case source =>
    intro i hi
    have := hsegment hi
    omega
  case user =>
    intro i hi
    have := hsegment hi
    omega
  case slot =>
    rintro i hi x ⟨hlo, hhi⟩
    have := hsegment hi
    unfold recursiveMappingEntry
    omega
  case apart =>
    rintro i j hi hj hne x ⟨hlo, hhi⟩ ⟨hlo', hhi'⟩
    have := hsegment hi
    have := hsegment hj
    omega
  case unmapped =>
    rintro i hi x ⟨hlo, hhi⟩
    have := hsegment hi
    have hpage : x / 4096 = 5 := by omega
    rw [hpage]
    exact hunmapped

theorem twoSegments_shown : Shown twoSegments { moduleMachine with mem := setByte moduleMachine.mem 0x5005 0 } := by
  have hsize : twoSegments.size = 176 := by decide +kernel
  rw [Shown, hsize]
  decide +kernel

theorem twoSegments_accepted : (checkElf twoSegments.base moduleMachine : Outcome Stuck (Machine (List ℕ)) _) =
    .next (true, { moduleMachine with mem := setByte moduleMachine.mem 0x5005 0 }) := by
  have helf : twoSegments.Elf := ⟨by decide +kernel, by decide +kernel, by decide +kernel⟩
  exact twoSegments_shown.accepted helf (by decide +kernel) (storeByte_of_translate 0 (by decide +kernel))

theorem loaded_image_two : ∃ m', mapElf64 twoSegments.base moduleMachine = .ok m' ∧
    m'.visible 0x5000 = some 1 ∧ m'.visible 0x5010 = some 0 := by
  obtain ⟨hwf, hfresh, -⟩ := mappedMachine_tables
  have hsame := moduleMachine_tables
  obtain ⟨m', hrun, himage, -⟩ := loaded_image hsame.wf (hsame.fresh hfresh) (by decide +kernel) moduleMachine_settled
    twoSegments_accepted twoSegments_shown twoSegments_loadable (ne_error_of_isOk (by decide +kernel) _)
  have hload : IsLoad twoSegments 1 := by decide +kernel
  have hfirst := (himage 1 hload).1 0 (by decide +kernel)
  have htail := (himage 1 hload).2 16 (by decide +kernel) (by decide +kernel)
  have hva : virtualAddress twoSegments 1 = 0x5000 := by decide +kernel
  have hbyte : (twoSegments.byte (fileOffset twoSegments 1 + 0)).toNat = 1 := by decide +kernel
  rw [hva, hbyte] at hfirst
  rw [hva] at htail
  exact ⟨m', hrun, hfirst, htail⟩

end TwoSegments

end Raccoon.ElfImage
