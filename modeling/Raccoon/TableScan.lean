import Raccoon.Machine

/-!
The searches through the page tables: `get_size`, `search_empty_space` and
`search_available`. Their four loops count in the 9-bit fields of a union with
the address, so an index that is incremented at 511 goes back to 0.
-/

namespace Raccoon.Mmu

open TableTree Loops Outcome Machine

inductive Level where
  | plm4
  | plm3
  | plm2
  | plm1
deriving DecidableEq, Repr

namespace Level

def shift : Level → ℕ
  | plm4 => 39
  | plm3 => 30
  | plm2 => 21
  | plm1 => 12

def unit (l : Level) : ℕ := 2 ^ l.shift

/-- The field `address.offset` of the level. -/
def index (l : Level) (a : ℕ) : ℕ := a / l.unit % 512

/-- An assignment to the field keeps nine bits. -/
def assign (l : Level) (a v : ℕ) : ℕ := a - l.index a * l.unit + v % 512 * l.unit

def bump (l : Level) (a : ℕ) : ℕ := l.assign a (l.index a + 1)

def inner : Level → Level
  | plm4 => plm3
  | plm3 => plm2
  | _ => plm1

/-- The indices that lead to the table of the level. -/
def path : Level → ℕ → List ℕ
  | plm4, _ => []
  | plm3, a => [plm4.index a]
  | plm2, a => [plm4.index a, plm3.index a]
  | plm1, a => [plm4.index a, plm3.index a, plm2.index a]

def pointer : Level → ℕ → ℕ
  | plm4, a => craftAddr recursiveMappingEntry recursiveMappingEntry recursiveMappingEntry
      recursiveMappingEntry (plm4.index a * 8)
  | plm3, a => craftAddr recursiveMappingEntry recursiveMappingEntry recursiveMappingEntry
      (plm4.index a) (plm3.index a * 8)
  | plm2, a => craftAddr recursiveMappingEntry recursiveMappingEntry (plm4.index a) (plm3.index a)
      (plm2.index a * 8)
  | plm1, a => craftAddr recursiveMappingEntry (plm4.index a) (plm3.index a) (plm2.index a)
      (plm1.index a * 8)

end Level

open Level

/-- What a search does with the entry it looks at. -/
inductive Action (S : Type) where
  | ret (r : ℕ)
  | skip (s : S)
  | descend

structure ScanState (S : Type) where
  level : Level
  address : ℕ
  acc : S
deriving DecidableEq, Repr

section Code

variable {A S : Type}

/-- One iteration of the innermost loop that is running, or the step out of it. -/
def scanStep (visit : Level → ℕ → S → ℕ → Action S) (final : S → ℕ) (m : Machine A) (st : ScanState S) :
    Outcome Stuck ℕ (ScanState S) :=
  if st.level.index st.address < archNEntry then do
    let e ← m.load (st.level.pointer st.address)
    match visit st.level st.address st.acc e with
    | .ret r => .done r
    | .skip s => .next ⟨st.level, st.level.bump st.address, s⟩
    | .descend => .next ⟨st.level.inner, st.address, st.acc⟩
  else
    match st.level with
    | plm4 => .done (final st.acc)
    | plm3 => .next ⟨plm4, plm4.bump (plm3.assign st.address 0), st.acc⟩
    | plm2 => .next ⟨plm3, plm3.bump (plm2.assign st.address 0), st.acc⟩
    | plm1 => .next ⟨plm2, plm2.bump (plm1.assign st.address 0), st.acc⟩

def getSizeVisit (stop : ℕ) (l : Level) (_ size e : ℕ) : Action ℕ :=
  if e = 0 then
    if wadd size l.unit ≥ stop then .ret (wadd size l.unit) else .skip (wadd size l.unit)
  else if l = plm1 then .ret size
  else .descend

def searchEmptySpaceVisit (l : Level) (address : ℕ) (_ : Unit) (e : ℕ) : Action Unit :=
  if e = 0 then .ret address
  else if l = plm1 then .skip ()
  else .descend

/-- `page_num`, the size in pages rounded up. -/
def pageNum (size : ℕ) : ℕ := size / archPageSize + if size % archPageSize ≠ 0 then 1 else 0

def searchAvailableVisit (pageNum : ℕ) (l : Level) (address temp e : ℕ) : Action ℕ :=
  if l = plm1 then
    if e = 0 then
      if temp = 0 then .ret (wsub address (wmul (wsub pageNum 1) archPageSize)) else .skip (temp - 1)
    else .skip pageNum
  else if e = 0 then .ret address
  else .descend

/-- `get_size(base, stop)` returns `r`. -/
def GetSize (m : Machine A) (base stop r : ℕ) : Prop :=
  Returns (scanStep (getSizeVisit stop) id m) ⟨plm4, base, 0⟩ r

/-- `search_empty_space(base)` returns `r`. -/
def SearchEmptySpace (m : Machine A) (base r : ℕ) : Prop :=
  Returns (scanStep searchEmptySpaceVisit (fun _ => 0) m) ⟨plm4, base, ()⟩ r

/-- `search_available(base, size)` returns `r`. -/
def SearchAvailable (m : Machine A) (base size r : ℕ) : Prop :=
  Returns (scanStep (searchAvailableVisit (pageNum size)) (fun _ => 0) m) ⟨plm4, base, pageNum size⟩ r

end Code

namespace Level

/-- The address with the field of the level moved on by `c` entries, around the table. -/
def rotate (l : Level) (a c : ℕ) : ℕ := l.assign a (l.index a + c)

theorem index_lt (l : Level) (a : ℕ) : l.index a < 512 := Nat.mod_lt _ (by decide)

theorem rotate_zero (l : Level) (a : ℕ) : l.rotate a 0 = a := by
  cases l <;> simp only [rotate, assign, index, unit, shift] <;> omega

theorem index_rotate (l : Level) (a c : ℕ) : l.index (l.rotate a c) = (l.index a + c) % 512 := by
  cases l <;> simp only [rotate, assign, index, unit, shift] <;> omega

theorem bump_rotate (l : Level) (a c : ℕ) : l.bump (l.rotate a c) = l.rotate a (c + 1) := by
  cases l <;> simp only [bump, rotate, assign, index, unit, shift] <;> omega

theorem path_rotate (l : Level) (a c : ℕ) : l.path (l.rotate a c) = l.path a := by
  cases l <;> simp only [path, List.cons.injEq, and_true, rotate, assign, index, unit, shift] <;> omega

theorem path_inner {l : Level} (h : l ≠ plm1) (a : ℕ) : l.inner.path a = l.path a ++ [l.index a] := by
  cases l <;> first | rfl | exact absurd rfl h

theorem path_length (l : Level) (a : ℕ) : (l.path a).length ≤ 3 := by
  cases l <;> simp [path]

theorem path_index (l : Level) (a : ℕ) : ∀ i ∈ l.path a, i < 512 := by
  cases l <;> simp [path, index_lt]

end Level

section Steps

variable {A S : Type} {m : Machine A} {visit : Level → ℕ → S → ℕ → Action S} {final : S → ℕ}
  {l : Level} {a : ℕ} {s : S}

def tableEntry (m : Machine A) (q : List ℕ) (j : ℕ) : ℕ := m.mem (4096 * follow pageTables m.mem m.root q + 8 * j)

def entryAt (m : Machine A) (l : Level) (a : ℕ) : ℕ := tableEntry m (l.path a) (l.index a)

theorem entryAt_rotate (c : ℕ) :
    entryAt m l (l.rotate a c) = tableEntry m (l.path a) ((l.index a + c) % 512) := by
  rw [entryAt, path_rotate, index_rotate]

theorem translate_pointer (hwf : WellFormed m.mem m.root) (hl : Live pageTables m.mem m.root (l.path a)) :
    translate m.mem m.cr3 (l.pointer a) =
      some (4096 * follow pageTables m.mem m.root (l.path a) + 8 * l.index a) := by
  have hlink := hwf.linked (l.path_length a) (l.path_index a) hl
  cases l with
  | plm4 => exact translate_l4 hwf.self (index_lt ..)
  | plm3 => exact translate_l3 hwf.self (index_lt ..) (index_lt ..) hlink
  | plm2 => exact translate_l2 hwf.self (index_lt ..) (index_lt ..) (index_lt ..) hlink
  | plm1 => exact translate_l1 hwf.self (index_lt ..) (index_lt ..) (index_lt ..) (index_lt ..) hlink

theorem load_pointer {ρ : Type} (hwf : WellFormed m.mem m.root) (hl : Live pageTables m.mem m.root (l.path a)) :
    (m.load (l.pointer a) : Outcome Stuck ρ ℕ) = .next (entryAt m l a) :=
  load_of_translate (translate_pointer hwf hl)

variable (visit final s) in
/-- The counters never reach `ARCH_N_ENTRY`: every step visits an entry. -/
theorem scanStep_of_live (hwf : WellFormed m.mem m.root) (hl : Live pageTables m.mem m.root (l.path a)) :
    scanStep visit final m ⟨l, a, s⟩ =
      match visit l a s (entryAt m l a) with
      | .ret r => .done r
      | .skip s => .next ⟨l, l.bump a, s⟩
      | .descend => .next ⟨l.inner, a, s⟩ := by
  have hi : l.index a < archNEntry := index_lt ..
  rw [scanStep, if_pos hi]
  dsimp only
  rw [load_pointer hwf hl, next_bind]

theorem live_inner (h : l ≠ plm1) : Live pageTables m.mem m.root (l.inner.path a) ↔
    Live pageTables m.mem m.root (l.path a) ∧ entryAt m l a ≠ 0 := by
  rw [path_inner h, live_append]
  simp [entryAt, tableEntry]

theorem live_rotate (c : ℕ) : Live pageTables m.mem m.root (l.path (l.rotate a c)) ↔
    Live pageTables m.mem m.root (l.path a) := by rw [path_rotate]

end Steps

end Raccoon.Mmu
