import Raccoon.Kmmap

/-!
`map_elf_64` on arbitrary module contents. The copies of the segments are
checked byte by byte: they may read the module only, and write only to pages of
the lower half that `kmmap` has mapped for the segment.
-/

namespace Raccoon.ElfLoader

open Loops Outcome Mmu

/-- A module at its address, in the kernel's half of the address space; `byte i` is the content of
`begin + i`. -/
structure Module where
  byte : ℕ → BitVec 8
  base : ℕ
  size : ℕ
  kernelHalf : 2 ^ 47 ≤ base
  fits : base + size ≤ 2 ^ 64

inductive Trap where
  | outOfModule
  | badWrite
  | stuck (e : Stuck)

/-- `n` bytes at offset `i` as a little-endian number. -/
def Module.value (M : Module) (i : ℕ) : ℕ → ℕ
  | 0 => 0
  | n + 1 => (M.byte i).toNat + 2 ^ 8 * M.value (i + 1) n

theorem value_lt (M : Module) (i n : ℕ) : M.value i n < 2 ^ (8 * n) := by
  induction n generalizing i with
  | zero => exact Nat.one_pos
  | succ n ih =>
    have hbyte := (M.byte i).isLt
    have hrest := ih (i + 1)
    rw [Module.value, Nat.mul_succ, Nat.pow_add]
    omega

theorem value_congr {M N : Module} {i n : ℕ} (h : ∀ k < n, M.byte (i + k) = N.byte (i + k)) :
    M.value i n = N.value i n := by
  induction n generalizing i with
  | zero => rfl
  | succ n ih =>
    have hrest : M.value (i + 1) n = N.value (i + 1) n := ih fun k hk => by
      rw [Nat.add_assoc, Nat.add_comm 1 k]
      exact h (k + 1) (Nat.succ_lt_succ hk)
    rw [Module.value, Module.value, hrest]
    exact congrArg (fun b => b.toNat + _) (h 0 (Nat.succ_pos n))

attribute [irreducible] Module.value

def elfHeaderMagic : List ℕ := [0x7f, 0x45, 0x4c, 0x46]
def elfClass64 : ℕ := 2
def elfTypeExecutable : ℕ := 2
def elfProgramHeaderLoad : ℕ := 1

/-- The pages to which `kmmap` gives a leaf. -/
def Covers (addr size P : ℕ) : Prop :=
  addr % 2 ^ 48 / 4096 ≤ P ∧ P < (addr % 2 ^ 48 + max size 1 - 1) / 4096 + 1 ∧ TreePage P

instance (addr size P : ℕ) : Decidable (Covers addr size P) := inferInstanceAs (Decidable (_ ∧ _ ∧ _ < _ ∧ _ ≠ _))

section Code

variable {ρ A : Type} [FrameSource A] (M : Module)

def read (a n : ℕ) : Outcome Trap ρ ℕ :=
  if M.base ≤ a ∧ a + n ≤ M.base + M.size then .next (M.value (a - M.base) n) else .fail .outOfModule

def checkMagics : List ℕ → ℕ → Outcome Trap ρ Bool
  | [], _ => .next true
  | c :: cs, i => do
    let b ← read M (M.base + i) 1
    if b ≠ c then .next false else checkMagics cs (i + 1)

/-- The write of `check_elf` to the identification. -/
def Module.clear : Module := { M with byte := Function.update M.byte 5 0 }

def checkElf : Outcome Trap ρ Bool := do
  let magics ← checkMagics M elfHeaderMagic 0
  if ¬ magics then .next false
  else do
    let elfClass ← read M (M.base + 4) 1
    if elfClass ≠ elfClass64 then .next false
    else do
      let objectType ← read M (M.base + 16) 2
      .next (objectType = elfTypeExecutable)

def copyByte (addr size src i : ℕ) (_ : Unit) : Outcome Trap ρ Unit := do
  let _ ← read M (wadd src i) 1
  if wadd addr i < 2 ^ 47 ∧ Covers addr size (wadd addr i / 4096) then .next () else .fail .badWrite

def mapSection (phdr : ℕ) (m : Machine A) : Outcome Trap ρ (Machine A) := do
  let type ← read M phdr 4
  if type ≠ elfProgramHeaderLoad then .next m
  else do
    let virtualAddress ← read M (phdr + 16) 8
    let memorySize ← read M (phdr + 40) 8
    match kmmap virtualAddress memorySize 7 m with
    | .error e => .fail (.stuck e)
    | .ok m => do
      let fileOffset ← read M (phdr + 8) 8
      let fileSize ← read M (phdr + 32) 8
      forLoop (copyByte M virtualAddress memorySize (wadd fileOffset M.base)) fileSize 0 ()
      .next m

/-- The offset of program header `i`, where the product is an `int`. -/
def programOffset (programsOffset programsSize i : ℕ) : ℕ :=
  (((programsOffset : ℤ) + Int.bmod (i * programsSize) (2 ^ 32)) % 2 ^ 64).toNat

def mapProgram (i : ℕ) (m : Machine A) : Outcome Trap ρ (Machine A) := do
  let programsOffset ← read M (M.base + 32) 8
  let programsSize ← read M (M.base + 54) 2
  mapSection M (wadd (programOffset programsOffset programsSize i) M.base) m

/-- The module as `check_elf` leaves it. -/
def mapElf (m : Machine A) : Outcome Trap ρ (Machine A) := do
  let elf ← checkElf M
  if ¬ elf then .next m
  else do
    let programsCount ← read M (M.base + 56) 2
    forLoop (mapProgram M) programsCount 0 m

def mapElf64 (m : Machine A) : Outcome Trap ρ (Machine A) :=
  if 5 < M.size then mapElf M.clear m else .fail .outOfModule

end Code

section Headers

variable {A : Type} [FrameSource A] (M : Module)

/-- The contents on which `check_elf` returns 1. -/
structure Module.Elf : Prop where
  magics : ∀ i (hi : i < elfHeaderMagic.length), M.value i 1 = elfHeaderMagic.get ⟨i, hi⟩
  elfClass : M.value 4 1 = elfClass64
  objectType : M.value 16 2 = elfTypeExecutable

def Module.programsCount : ℕ := M.value 56 2

def Module.program (i : ℕ) : ℕ := programOffset (M.value 32 8) (M.value 54 2) i

/-- The file bytes of a segment are in a module of `moduleSize` bytes, and they are copied to pages below
the recursive slot or between it and the kernel's half, none of them behind the last page of the segment. -/
structure Loadable (moduleSize virtualAddress memorySize fileOffset fileSize : ℕ) : Prop where
  source : fileOffset + fileSize ≤ moduleSize
  lower : virtualAddress + fileSize ≤ 2 ^ 47
  covered : (virtualAddress + fileSize - 1) / 4096 ≤ (virtualAddress + max memorySize 1 - 1) / 4096
  user : virtualAddress + fileSize ≤ recursiveMappingEntry * 2 ^ 39 ∨
    (recursiveMappingEntry + 1) * 2 ^ 39 ≤ virtualAddress

/-- What `kmmap` makes of the machine for the header at offset `off`, if it returns. -/
def mapped (off : ℕ) (m : Machine A) : Option (Machine A) :=
  if M.value off 4 = elfProgramHeaderLoad then
    (kmmap (M.value (off + 16) 8) (M.value (off + 40) 8) 7 m).toOption
  else some m

/-- The header at offset `off` is in the module, and its segment can be loaded. -/
structure ProgramOk (off : ℕ) (m : Machine A) : Prop where
  type : off + 4 ≤ M.size
  header : M.value off 4 = elfProgramHeaderLoad → off + 48 ≤ M.size
  segment : M.value off 4 = elfProgramHeaderLoad → mapped M off m ≠ none → M.value (off + 32) 8 ≠ 0 →
    Loadable M.size (M.value (off + 16) 8) (M.value (off + 40) 8) (M.value (off + 8) 8) (M.value (off + 32) 8)

/-- The machine when program header `i` is reached, if it is. -/
def machineAt (m : Machine A) : ℕ → Option (Machine A)
  | 0 => some m
  | i + 1 => machineAt m i >>= mapped M (M.program i)

end Headers

def Trap.Bad : Trap → Prop
  | outOfModule => True
  | badWrite => True
  | stuck _ => False

/-- The run ends in some way, and has not read outside the module or written where it should not. -/
def Safe {ρ σ : Type} (o : Outcome Trap ρ σ) : Prop := o.Ends (fun e => ¬ e.Bad) (fun _ => True) fun _ => True

variable {ρ A : Type} [FrameSource A] {M : Module} {m : Machine A} {x n off i : ℕ}

theorem read_base (M : Module) (x n : ℕ) : (read M (M.base + x) n : Outcome Trap ρ ℕ) =
    if x + n ≤ M.size then .next (M.value x n) else .fail .outOfModule := by
  have hcond : (M.base ≤ M.base + x ∧ M.base + x + n ≤ M.base + M.size) ↔ x + n ≤ M.size := by omega
  rw [read, Nat.add_sub_cancel_left]
  simp only [hcond]

/-- The first field of a header decides whether its address wraps round. -/
theorem read_header (hoff : off < 2 ^ 64) (hn : 0 < n) : (read M (wadd off M.base) n : Outcome Trap ρ ℕ) =
    if off + n ≤ M.size then .next (M.value off n) else .fail .outOfModule := by
  have hfits := M.fits
  have hbase := M.kernelHalf
  by_cases hin : off + n ≤ M.size
  · have hadd : wadd off M.base = M.base + off := by
      rw [wadd_eq (by omega), Nat.add_comm]
    rw [hadd, read_base]
  · rw [if_neg hin, read, if_neg]
    unfold wadd
    omega

section Copy

variable {va ms fo fs : ℕ}

/-- Byte `i` of a copy is read from the module and written to a page of the segment. -/
def ByteOk (M : Module) (va ms fo i : ℕ) : Prop :=
  (M.base ≤ wadd (wadd fo M.base) i ∧ wadd (wadd fo M.base) i + 1 ≤ M.base + M.size) ∧
    wadd va i < 2 ^ 47 ∧ Covers va ms (wadd va i / 4096)

theorem copyByte_ends (M : Module) (va ms fo i : ℕ) (u : Unit) :
    (copyByte M va ms (wadd fo M.base) i u : Outcome Trap ρ Unit).Ends (fun e => e.Bad ∧ ¬ ByteOk M va ms fo i)
      (fun _ => False) (fun _ => ByteOk M va ms fo i) := by
  rw [copyByte, read]
  by_cases hsrc : M.base ≤ wadd (wadd fo M.base) i ∧ wadd (wadd fo M.base) i + 1 ≤ M.base + M.size
  · rw [if_pos hsrc, next_bind]
    split
    · rename_i hdst
      exact ⟨hsrc, hdst⟩
    · rename_i hdst
      exact ⟨trivial, fun h => hdst h.2⟩
  · rw [if_neg hsrc]
    exact ⟨trivial, fun h => hsrc h.1⟩

theorem source_iff (hfo : fo < 2 ^ 64) (hfs : fs < 2 ^ 64) (hpos : fs ≠ 0) :
    (∀ i < fs, M.base ≤ wadd (wadd fo M.base) i ∧ wadd (wadd fo M.base) i + 1 ≤ M.base + M.size) ↔
      fo + fs ≤ M.size := by
  have hfits := M.fits
  have hbase := M.kernelHalf
  unfold wadd
  constructor
  · intro h
    by_contra hgt
    have hfirst := h 0 (by omega)
    have hend := h (M.size - fo) (by omega)
    omega
  · intro h i hi
    omega

theorem lower_iff (hva : va < 2 ^ 64) (hfs : fs < 2 ^ 64) (hpos : fs ≠ 0) :
    (∀ i < fs, wadd va i < 2 ^ 47) ↔ va + fs ≤ 2 ^ 47 := by
  unfold wadd
  constructor
  · intro h
    by_contra hgt
    have hfirst := h 0 (by omega)
    have hend := h (2 ^ 47 - va) (by omega)
    omega
  · intro h i hi
    omega

theorem covers_iff (hlow : va + fs ≤ 2 ^ 47) (hpos : fs ≠ 0) : (∀ i < fs, Covers va ms (wadd va i / 4096)) ↔
    (va + fs - 1) / 4096 ≤ (va + max ms 1 - 1) / 4096 ∧
      (va + fs ≤ recursiveMappingEntry * 2 ^ 39 ∨ (recursiveMappingEntry + 1) * 2 ^ 39 ≤ va) := by
  have hmod : va % 2 ^ 48 = va := Nat.mod_eq_of_lt (by omega)
  have hadd (i : ℕ) (hi : i < fs) : wadd va i = va + i := wadd_eq (by omega)
  unfold Covers TreePage recursiveMappingEntry
  rw [hmod]
  constructor
  · intro h
    have hlast := h (fs - 1) (by omega)
    rw [hadd _ (by omega)] at hlast
    refine ⟨by omega, ?_⟩
    by_contra hslot
    have hin := h (50 * 2 ^ 39 - va) (by omega)
    rw [hadd _ (by omega)] at hin
    omega
  · intro h i hi
    rw [hadd i hi]
    omega

theorem bytesOk_iff (hva : va < 2 ^ 64) (hfo : fo < 2 ^ 64) (hfs : fs < 2 ^ 64) :
    (∀ i < fs, ByteOk M va ms fo i) ↔ (fs ≠ 0 → Loadable M.size va ms fo fs) := by
  by_cases hz : fs = 0
  · subst hz
    exact iff_of_true (fun i hi => absurd hi (Nat.not_lt_zero i)) fun h => absurd rfl h
  · rw [forall_prop_of_true hz]
    constructor
    · intro h
      have hsource := (source_iff hfo hfs hz).mp fun i hi => (h i hi).1
      have hlower := (lower_iff hva hfs hz).mp fun i hi => (h i hi).2.1
      obtain ⟨hcovered, huser⟩ := (covers_iff hlower hz).mp fun i hi => (h i hi).2.2
      exact ⟨hsource, hlower, hcovered, huser⟩
    · rintro ⟨hsource, hlower, hcovered, huser⟩ i hi
      exact ⟨(source_iff hfo hfs hz).mpr hsource i hi, (lower_iff hva hfs hz).mpr hlower i hi,
        (covers_iff hlower hz).mpr ⟨hcovered, huser⟩ i hi⟩

theorem copy_ends (M : Module) (va ms fo fs : ℕ) :
    (forLoop (copyByte M va ms (wadd fo M.base)) fs 0 () : Outcome Trap ρ Unit).Ends
      (fun e => e.Bad ∧ ¬ ∀ i < fs, ByteOk M va ms fo i) (fun _ => False)
      (fun _ => ∀ i < fs, ByteOk M va ms fo i) := by
  apply forLoop_ends (N := fs) _ (fun n _ => ∀ i < n, ByteOk M va ms fo i) _ 0 () (Nat.zero_le fs)
    fun i hi => absurd hi (Nat.not_lt_zero i)
  intro i u hi hprev
  refine (copyByte_ends M va ms fo i u).mono (fun e h => ⟨h.1, fun hall => h.2 (hall i hi)⟩) (fun _ h => h) ?_
  intro _ hbyte j hj
  rcases Nat.lt_succ_iff_lt_or_eq.mp hj with hlt | rfl
  · exact hprev j hlt
  · exact hbyte

theorem segment_ends (M : Module) {va fo fs : ℕ} (hva : va < 2 ^ 64) (hfo : fo < 2 ^ 64) (hfs : fs < 2 ^ 64) (ms : ℕ)
    {σ : Type} (m : σ) : (forLoop (copyByte M va ms (wadd fo M.base)) fs 0 () >>= fun _ => .next m :
      Outcome Trap ρ σ).Ends (fun e => e.Bad ∧ ¬ (fs ≠ 0 → Loadable M.size va ms fo fs))
      (fun _ => False) (fun m' => (fs ≠ 0 → Loadable M.size va ms fo fs) ∧ m' = m) := by
  rw [← bytesOk_iff hva hfo hfs]
  exact (copy_ends M va ms fo fs).bind fun _ h => ⟨h, rfl⟩

end Copy

theorem read_field {d : ℕ} (hoff : off + 4 ≤ M.size) : (read M (wadd off M.base + d) n : Outcome Trap ρ ℕ) =
    if off + d + n ≤ M.size then .next (M.value (off + d) n) else .fail .outOfModule := by
  have hfits := M.fits
  have hadd : wadd off M.base + d = M.base + (off + d) := by
    rw [wadd_eq (by omega)]
    omega
  rw [hadd, read_base]

/-- One program header: where it goes wrong the condition fails, and else the condition holds and the run
goes on with the machine that `kmmap` leaves, or stops in `kmmap`. -/
theorem mapSection_ends (M : Module) (off : ℕ) (m : Machine A) (hoff : off < 2 ^ 64) :
    (mapSection M (wadd off M.base) m : Outcome Trap ρ (Machine A)).Ends
      (fun e => (e.Bad ∧ ¬ ProgramOk M off m) ∨ (¬ e.Bad ∧ ProgramOk M off m ∧ mapped M off m = none))
      (fun _ => False) (fun m' => ProgramOk M off m ∧ mapped M off m = some m') := by
  rw [mapSection, read_header hoff (by decide)]
  by_cases h4 : off + 4 ≤ M.size
  · rw [if_pos h4, next_bind]
    by_cases hload : M.value off 4 = elfProgramHeaderLoad
    · rw [if_neg (not_not_intro hload), read_field h4, read_field h4]
      by_cases h48 : off + 40 + 8 ≤ M.size
      · rw [if_pos (by omega), next_bind, if_pos h48, next_bind]
        cases hrun : kmmap (M.value (off + 16) 8) (M.value (off + 40) 8) 7 m with
        | error e =>
          have hmapped : mapped M off m = none := by
            rw [mapped, if_pos hload, hrun]
            rfl
          exact .inr ⟨not_false, ⟨h4, fun _ => h48, fun _ h => absurd hmapped h⟩, hmapped⟩
        | ok m' =>
          have hmapped : mapped M off m = some m' := by
            rw [mapped, if_pos hload, hrun]
            rfl
          dsimp only
          rw [read_field h4, if_pos (by omega), next_bind, read_field h4, if_pos (by omega), next_bind]
          have hcopy := segment_ends (ρ := ρ) M (value_lt M (off + 16) 8) (value_lt M (off + 8) 8)
            (value_lt M (off + 32) 8) (M.value (off + 40) 8) m'
          apply hcopy.mono
          · rintro e ⟨hbad, hno⟩
            exact .inl ⟨hbad, fun hok => hno (hok.segment hload (hmapped ▸ Option.some_ne_none m'))⟩
          · exact fun _ h => h
          · rintro m₁ ⟨hseg, rfl⟩
            exact ⟨⟨h4, fun _ => h48, fun _ _ => hseg⟩, hmapped⟩
      · by_cases h24 : off + 16 + 8 ≤ M.size
        · rw [if_pos h24, next_bind, if_neg h48]
          exact .inl ⟨trivial, fun h => h48 (h.header hload)⟩
        · rw [if_neg h24]
          exact .inl ⟨trivial, fun h => h48 (h.header hload)⟩
    · have hmapped : mapped M off m = some m := if_neg hload
      rw [if_pos hload]
      exact ⟨⟨h4, fun h => absurd h hload, fun h => absurd h hload⟩, hmapped⟩
  · rw [if_neg h4]
    exact .inl ⟨trivial, fun h => h4 h.type⟩

section Programs

theorem programOffset_lt (programsOffset programsSize i : ℕ) :
    programOffset programsOffset programsSize i < 2 ^ 64 := by
  unfold programOffset
  omega

theorem mapProgram_eq (hsize : 58 ≤ M.size) (i : ℕ) (m : Machine A) :
    (mapProgram M i m : Outcome Trap ρ (Machine A)) = mapSection M (wadd (M.program i) M.base) m := by
  rw [mapProgram, read_base, if_pos (by omega), next_bind, read_base, if_pos (by omega), next_bind]
  rfl

def AllOk (M : Module) (m : Machine A) (n : ℕ) : Prop :=
  ∀ i < n, ∀ m', machineAt M m i = some m' → ProgramOk M (M.program i) m'

theorem machineAt_stop {j : ℕ} (hnone : machineAt M m i = none) (hj : i ≤ j) : machineAt M m j = none := by
  induction j, hj using Nat.le_induction with
  | base => exact hnone
  | succ j _ ih =>
    rw [machineAt, ih]
    rfl

theorem AllOk.succ {m' : Machine A} (h : AllOk M m i) (hat : machineAt M m i = some m')
    (hok : ProgramOk M (M.program i) m') : AllOk M m (i + 1) := by
  intro j hj m₁ hm₁
  rcases Nat.lt_succ_iff_lt_or_eq.mp hj with hlt | rfl
  · exact h j hlt m₁ hm₁
  · obtain rfl := Option.some.inj (hat.symm.trans hm₁)
    exact hok

theorem AllOk.stop (h : AllOk M m i) (hnone : machineAt M m i = none) : AllOk M m n := by
  intro j _ m' hm'
  by_cases hlt : j < i
  · exact h j hlt m' hm'
  · rw [machineAt_stop hnone (Nat.le_of_not_lt hlt)] at hm'
    cases hm'

/-- The loop over the program headers: where it goes wrong the condition fails, and else it ends with the
machine that the calls of `kmmap` leave, or stops in one of them. -/
theorem programs_ends (hsize : 58 ≤ M.size) (m : Machine A) (count : ℕ) :
    (forLoop (mapProgram M) count 0 m : Outcome Trap ρ (Machine A)).Ends
      (fun e => (e.Bad ∧ ¬ AllOk M m count) ∨ (¬ e.Bad ∧ AllOk M m count ∧ machineAt M m count = none))
      (fun _ => False) (fun m' => machineAt M m count = some m' ∧ AllOk M m count) := by
  apply forLoop_ends (mapProgram M) (R := fun _ : ρ => False) (N := count)
    (fun i m' => machineAt M m i = some m' ∧ AllOk M m i) _ 0 m (Nat.zero_le _)
    ⟨rfl, fun i hi => absurd hi (Nat.not_lt_zero i)⟩
  rintro i m' hi ⟨hat, hprev⟩
  rw [mapProgram_eq hsize]
  refine (mapSection_ends M (M.program i) m' (programOffset_lt ..)).mono ?_ (fun _ h => h) ?_
  · rintro e (⟨hbad, hno⟩ | ⟨hgood, hok, hstuck⟩)
    · exact .inl ⟨hbad, fun hall => hno (hall i hi m' hat)⟩
    · have hnone : machineAt M m (i + 1) = none := by
        rw [machineAt, hat]
        exact hstuck
      exact .inr ⟨hgood, (hprev.succ hat hok).stop hnone, machineAt_stop hnone hi⟩
  · rintro m₁ ⟨hok, hm₁⟩
    refine ⟨?_, hprev.succ hat hok⟩
    rw [machineAt, hat]
    exact hm₁

end Programs

section Check

theorem checkMagics_eq (cs : List ℕ) (i : ℕ) (hi : i ≤ M.size)
    (hcs : ∀ k (hk : k < cs.length), M.value (i + k) 1 = cs.get ⟨k, hk⟩) :
    (checkMagics M cs i : Outcome Trap ρ Bool) =
      if i + cs.length ≤ M.size then .next true else .fail .outOfModule := by
  induction cs generalizing i with
  | nil => rw [checkMagics, List.length_nil, Nat.add_zero, if_pos hi]
  | cons c cs ih =>
    rw [checkMagics, read_base, List.length_cons]
    by_cases h1 : i + 1 ≤ M.size
    · have hc : M.value i 1 = c := hcs 0 (Nat.succ_pos _)
      rw [if_pos h1, next_bind, hc, if_neg (not_not_intro rfl), ih (i + 1) h1 fun k hk => ?_]
      · have hlen : i + 1 + cs.length = i + (cs.length + 1) := by omega
        rw [hlen]
      · have hnext := hcs (k + 1) (Nat.succ_lt_succ hk)
        rw [Nat.add_assoc, Nat.add_comm 1 k]
        exact hnext
    · rw [if_neg h1, fail_bind, if_neg (by omega)]

theorem checkElf_eq (h : M.Elf) : (checkElf M : Outcome Trap ρ Bool) =
    if 18 ≤ M.size then .next true else .fail .outOfModule := by
  have hmagics : (checkMagics M elfHeaderMagic 0 : Outcome Trap ρ Bool) =
      if 4 ≤ M.size then .next true else .fail .outOfModule :=
    checkMagics_eq elfHeaderMagic 0 (Nat.zero_le _) fun k hk => by
      rw [Nat.zero_add]
      exact h.magics k hk
  rw [checkElf, hmagics]
  by_cases h4 : 4 ≤ M.size
  · rw [if_pos h4, next_bind, if_neg (by decide), read_base]
    by_cases h5 : 4 + 1 ≤ M.size
    · rw [if_pos h5, next_bind, if_neg (not_not_intro h.elfClass), read_base]
      by_cases h18 : 18 ≤ M.size
      · rw [if_pos h18, next_bind, if_pos h18, h.objectType]
        rfl
      · rw [if_neg h18, fail_bind, if_neg h18]
    · rw [if_neg h5, fail_bind, if_neg (by omega)]
  · rw [if_neg h4, fail_bind, if_neg (by omega)]

theorem clear_elf (h : M.Elf) : M.clear.Elf := by
  have hvalue {i n : ℕ} (hout : i + n ≤ 5 ∨ 5 < i) : M.clear.value i n = M.value i n :=
    value_congr fun k hk => Function.update_of_ne (by omega) ..
  refine ⟨fun i hi => ?_, ?_, ?_⟩
  · have hlt : i < 4 := hi
    rw [hvalue (by omega)]
    exact h.magics i hi
  · rw [hvalue (by omega)]
    exact h.elfClass
  · rw [hvalue (by omega)]
    exact h.objectType

end Check

theorem Safe.iff_of_ends {σ : Type} {o : Outcome Trap ρ σ} {P : Prop}
    (h : o.Ends (fun e => e.Bad ↔ ¬ P) (fun _ => False) fun _ => P) : Safe o ↔ P := by
  cases o with
  | fail e => exact (not_congr h).trans not_not
  | done r => exact h.elim
  | next s => exact iff_of_true trivial h

/-- The loader stays inside the module and inside the pages of its segments exactly if the header is in
the module and every program header that is reached, because `kmmap` has returned for those before it, is
in the module and asks for a copy of file bytes to pages of its own. -/
theorem elf_loader_safe_iff (M : Module) (h : M.Elf) (m : Machine A) :
    Safe (mapElf64 M m : Outcome Trap Empty (Machine A)) ↔
      58 ≤ M.size ∧ AllOk M.clear m M.clear.programsCount := by
  have hbad : ¬ Safe (.fail .outOfModule : Outcome Trap Empty (Machine A)) := fun hsafe => hsafe trivial
  rw [mapElf64]
  by_cases h5 : 5 < M.size
  · rw [if_pos h5, mapElf, checkElf_eq (clear_elf h)]
    have hclear : M.clear.size = M.size := rfl
    by_cases h18 : 18 ≤ M.clear.size
    · rw [if_pos h18, next_bind, if_neg (by decide), read_base]
      by_cases h58 : 56 + 2 ≤ M.clear.size
      · have hends := programs_ends (ρ := Empty) h58 m M.clear.programsCount
        have hsafe := Safe.iff_of_ends (hends.mono (fun e he => ?_) (fun _ h => h) fun _ h => h.2)
        · rw [if_pos h58, next_bind]
          exact hsafe.trans (and_iff_right h58).symm
        · rcases he with ⟨hbad, hno⟩ | ⟨hgood, hall, -⟩
          · exact iff_of_true hbad hno
          · exact iff_of_false hgood (not_not_intro hall)
      · rw [if_neg h58, fail_bind]
        exact iff_of_false hbad fun hok => h58 hok.1
    · rw [if_neg h18, fail_bind]
      exact iff_of_false hbad fun hok => h18 (by omega)
  · rw [if_neg h5]
    exact iff_of_false hbad fun hok => h5 (by omega)

theorem covered_mapped {m' : Machine A} {addr size P : ℕ} (hwf : WellFormed m.mem m.root) (hfresh : Fresh m)
    (hlock : m.kmmapLock = 0) (hsize : addr % 2 ^ 48 + size ≤ 2 ^ 48)
    (hslot : ∀ P, Meets addr size P → P / 2 ^ 27 ≠ recursiveMappingEntry) (hrun : kmmap addr size 7 m = .ok m')
    (hP : Covers addr size P) : leaf m'.mem m'.root P ≠ 0 := by
  have hflags : EntryFlags 7 := ⟨by decide, by decide⟩
  have hget : kmmap addr size 7 m ≠ .error .outOfMemory := by
    rw [hrun]
    exact fun hc => by cases hc
  obtain ⟨m₁, n, hok, h⟩ := kmmap_mapped hwf hfresh hlock hflags hsize hslot hget
  rw [hrun] at hok
  obtain rfl := Except.ok.inj hok
  obtain ⟨hlo, hhi, htree⟩ := hP
  rw [Machine.releaseKmmap_mem, Machine.releaseKmmap_root]
  exact used_of_mapped h htree hlo hhi

def le8 (n : ℕ) : List (BitVec 8) := (List.range 8).map fun k => BitVec.ofNat 8 (n / 2 ^ (8 * k))

def zeros (n : ℕ) : List (BitVec 8) := List.replicate n 0

/-- An executable of one segment, all of it in the file. -/
def oneSegment (virtualAddress fileSize : ℕ) : List (BitVec 8) :=
  [0x7f, 0x45, 0x4c, 0x46, 2] ++ zeros 11 ++ [2, 0] ++ zeros 14 ++ le8 64 ++ zeros 14 ++ [56, 0, 1, 0] ++ zeros 6 ++
    ([1, 0, 0, 0] ++ zeros 4 ++ le8 0 ++ le8 virtualAddress ++ zeros 8 ++ le8 fileSize ++ le8 fileSize ++ zeros 8)

def moduleOf (bytes : List (BitVec 8)) (h : bytes.length ≤ 2 ^ 16) : Module where
  byte i := bytes.getD i 0
  base := 0xffffffff80100000
  size := bytes.length
  kernelHalf := by decide
  fits := by omega

def userModule : Module := moduleOf (oneSegment 0x5000 16) (by decide)

theorem userModule_safe : Safe (mapElf64 userModule blankMachine : Outcome Trap Empty (Machine (List ℕ))) := by
  have helf : userModule.Elf := ⟨by decide +kernel, by decide +kernel, by decide +kernel⟩
  have hcount : userModule.clear.programsCount = 1 := by decide +kernel
  refine (elf_loader_safe_iff userModule helf blankMachine).mpr ⟨by decide, ?_⟩
  intro i hi m' hm'
  obtain rfl : i = 0 := by omega
  refine ⟨by decide +kernel, fun _ => by decide +kernel, fun _ _ _ => ⟨by decide +kernel, by decide +kernel,
    by decide +kernel, .inl (by decide +kernel)⟩⟩

def kernelModule : Module := moduleOf (oneSegment 0xffffffff80000000 16) (by decide)

instance : DecidablePred Trap.Bad := fun e =>
  match e with
  | .outOfModule => isTrue trivial
  | .badWrite => isTrue trivial
  | .stuck _ => isFalse not_false

instance {σ : Type} (o : Outcome Trap ρ σ) : Decidable (Safe o) :=
  match o with
  | .fail e => inferInstanceAs (Decidable (¬ e.Bad))
  | .done _ => isTrue trivial
  | .next _ => isTrue trivial

/-- A segment at an address of the kernel is copied there. -/
theorem kernel_overwritten : kernelModule.Elf ∧
    ¬ Safe (mapElf64 kernelModule blankMachine : Outcome Trap Empty (Machine (List ℕ))) :=
  ⟨⟨by decide +kernel, by decide +kernel, by decide +kernel⟩, by decide +kernel⟩

end Raccoon.ElfLoader
