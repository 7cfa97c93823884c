import Raccoon.MadtEntries
import Raccoon.Traced

/-!
`parse_RSDP` and `parse_RSDT`: from the address that the loader gives to the
tables of the firmware, across the change of page tables between the two.
-/

namespace Raccoon.Rsdt

open Loops Outcome Madt Traced

/-- The bytes of the physical memory. -/
abbrev Memory := ℕ → BitVec 8

/-- Where the first 2 GiB of memory are mapped. -/
def higherHalf : ℕ := 0xffffffff80000000

def physicalToStivale (x : ℕ) : ℕ := (x + higherHalf) % 2 ^ 64

/-- The page tables of the loader: the identity, and the higher half. -/
def loaderPhysical (v : ℕ) : ℕ := if higherHalf ≤ v then v - higherHalf else v

def loaderMap (v : ℕ) : Option ℕ := some (loaderPhysical v)

/-- The page tables after `create_page_directory`, which drops the identity. -/
def kernelMap (v : ℕ) : Option ℕ := if higherHalf ≤ v then some (v - higherHalf) else none

inductive Stop where
  | pageFault
  | halted
deriving DecidableEq

inductive Event where
  | rsdt (p : ℕ)
  | table (p : ℕ)
  | checked (p : ℕ)
  | madt (p : ℕ)
  | hpet (p : ℕ)
deriving DecidableEq

/-- The static variables of `rsdt.c` that lead to the tables. -/
structure Statics where
  once : Bool
  descRsdp20 : ℕ

def atBoot : Statics := ⟨false, 0⟩

def rsdPtr : List (BitVec 8) := [0x52, 0x53, 0x44, 0x20, 0x50, 0x54, 0x52, 0x20]
def apic : List (BitVec 8) := [0x41, 0x50, 0x49, 0x43]
def hpet : List (BitVec 8) := [0x48, 0x50, 0x45, 0x54]

section Code

/-- Whether the strings differ. -/
def strcmp : List (BitVec 8) → List (BitVec 8) → Bool
  | a :: as, b :: bs => if a ≠ 0 ∧ b ≠ 0 ∧ a = b then strcmp as bs else a ≠ b
  | _, _ => true

def load (map : ℕ → Option ℕ) (m : Memory) (v : ℕ) : Except Stop (BitVec 8) :=
  match map (v % 2 ^ 64) with
  | some p => .ok (m p)
  | none => .error .pageFault

/-- The bytes of an access, from the first one on. -/
def loadBytes (map : ℕ → Option ℕ) (m : Memory) (v : ℕ) : ℕ → Except Stop (List (BitVec 8))
  | 0 => .ok []
  | n + 1 => do
    let b ← load map m v
    let bs ← loadBytes map m (v + 1) n
    .ok (b :: bs)

def loadWord (map : ℕ → Option ℕ) (m : Memory) (v n : ℕ) : Except Stop ℕ := littleEndian <$> loadBytes map m v n

variable (m : Memory)

def parseRsdp (rsdpAddress : ℕ) (s : Statics) : Except Stop Statics :=
  if s.once then .ok s
  else do
    let revision ← load loaderMap m (s.descRsdp20 + 15)
    let desc := if revision ≠ 0 then rsdpAddress else s.descRsdp20
    let rsdpString ← loadBytes loaderMap m rsdpAddress 8
    if strcmp (rsdpString ++ [0]) (rsdPtr ++ [0]) then .error .halted
    else .ok ⟨true, physicalToStivale desc⟩

/-- The loop of `checksum` at index `i`, with `n` bytes left. -/
def checksumFrom (h : ℕ) : ℕ → ℕ → BitVec 8 → Except Stop Bool
  | 0, _, sum => .ok (sum == 0)
  | n + 1, i, sum => do
    let b ← load kernelMap m (h + i)
    checksumFrom h n (i + 1) (sum + b)

def checksum (h : ℕ) : Except Stop Bool := do
  let length ← loadWord kernelMap m (h + 4) 4
  checksumFrom m h length 0 0

variable {σ : Type} (parseMadt hpetInit : ℕ → σ → Except Stop σ)

/-- The body of the loop of `parse_RSDT`. -/
def parseTable (h : ℕ) (s : σ) : Traced Event Stop σ := do
  let name ← lift (loadBytes kernelMap m h 4)
  let _ ← emit (.table h)
  let valid ← lift (checksum m h)
  let _ ← emit (.checked h)
  if !valid then lift (.error .halted)
  else if !strcmp (name ++ [0]) (apic ++ [0]) then do
    let _ ← emit (.madt h)
    lift (parseMadt h s)
  else if !strcmp (name ++ [0]) (hpet ++ [0]) then do
    let _ ← emit (.hpet h)
    lift (hpetInit h s)
  else pure s

/-- The loop at index `i`, with `n` entries left. -/
def parseEntries (rsdt : ℕ) : ℕ → ℕ → σ → Traced Event Stop σ
  | 0, _, s => pure s
  | n + 1, i, s => do
    let p ← lift (loadWord kernelMap m (rsdt + 36 + 4 * i) 4)
    let s ← parseTable m parseMadt hpetInit (physicalToStivale p) s
    parseEntries rsdt n (i + 1) s

def rsdtEntries (length : ℕ) : ℕ := (length + 2 ^ 64 - 36) % 2 ^ 64 / 4

def parseRsdt (v : Statics) (s : σ) : Traced Event Stop σ := do
  let rsdtAddress ← lift (loadWord kernelMap m (v.descRsdp20 + 16) 4)
  let rsdt := physicalToStivale rsdtAddress
  let length ← lift (loadWord kernelMap m (rsdt + 4) 4)
  let _ ← emit (.rsdt rsdt)
  parseEntries m parseMadt hpetInit rsdt (rsdtEntries length) 0 s

def findTables (rsdpAddress : ℕ) (s : σ) : Traced Event Stop σ := do
  let v ← lift (parseRsdp m rsdpAddress atBoot)
  parseRsdt m parseMadt hpetInit v s

end Code

section Purpose

variable (m : Memory)

/-- The table at a physical address. -/
def tableAt (p : ℕ) : Table := ⟨fun x => m (p + x).toNat⟩

/-- What the RSDP points to, which is where the loader has mapped it. -/
def rsdtOf (rsdpAddress : ℕ) : ℕ := (tableAt m (loaderPhysical rsdpAddress)).value 16 4

def signature (p : ℕ) : List (BitVec 8) := (List.range 4).map fun i => m (p + i)

def entry (p i : ℕ) : ℕ := (tableAt m p).value (36 + 4 * i : ℕ) 4

/-- The tables that the RSDT at `p` lists. -/
def listed (p : ℕ) : List ℕ := (List.range (((tableAt m p).length - 36) / 4)).map (entry m p)

variable {σ : Type} (parseMadt hpetInit : ℕ → σ → Except Stop σ)

/-- The table at `p` is checked, and then handled by the function for its signature. -/
def visit (p : ℕ) (s : σ) : Traced Event Stop σ := do
  let _ ← emit (.table (physicalToStivale p))
  let _ ← emit (.checked (physicalToStivale p))
  if (tableAt m p).checksum then
    if signature m p = apic then do
      let _ ← emit (.madt (physicalToStivale p))
      lift (parseMadt (physicalToStivale p) s)
    else if signature m p = hpet then do
      let _ ← emit (.hpet (physicalToStivale p))
      lift (hpetInit (physicalToStivale p) s)
    else pure s
  else lift (.error .halted)

def visitAll : List ℕ → σ → Traced Event Stop σ
  | [], s => pure s
  | p :: ps, s => do
    let s ← visit m parseMadt hpetInit p s
    visitAll ps s

/-- The tables of the RSDT that the RSDP points to, each once and in order. -/
def visitListed (rsdpAddress : ℕ) (s : σ) : Traced Event Stop σ := do
  let _ ← emit (.rsdt (physicalToStivale (rsdtOf m rsdpAddress)))
  visitAll m parseMadt hpetInit (listed m (rsdtOf m rsdpAddress)) s

end Purpose

section Window

variable {m : Memory} {p x n : ℕ}

theorem physicalToStivale_add : (physicalToStivale p + x) % 2 ^ 64 = physicalToStivale (p + x) := by
  simp only [physicalToStivale, higherHalf]
  omega

theorem physicalToStivale_of_lt (h : p < 2 ^ 31) : physicalToStivale p = p + higherHalf := by
  simp only [physicalToStivale, higherHalf]
  omega

theorem physicalToStivale_lt (h : 2 ^ 31 ≤ p) (hp : p < 2 ^ 64) : physicalToStivale p < higherHalf := by
  simp only [physicalToStivale, higherHalf]
  omega

theorem load_window (h : p + x < 2 ^ 31) : load kernelMap m (physicalToStivale p + x) = .ok (m (p + x)) := by
  rw [load, physicalToStivale_add, physicalToStivale_of_lt h, kernelMap, if_pos (Nat.le_add_left _ _),
    Nat.add_sub_cancel]

theorem load_outside (h : 2 ^ 31 ≤ p + x) (hx : p + x < 2 ^ 64) :
    load kernelMap m (physicalToStivale p + x) = .error .pageFault := by
  rw [load, physicalToStivale_add, kernelMap, if_neg (Nat.not_le.mpr (physicalToStivale_lt h hx))]

theorem loadBytes_window (h : p + x + n ≤ 2 ^ 31) :
    loadBytes kernelMap m (physicalToStivale p + x) n = .ok ((List.range n).map fun i => m (p + x + i)) := by
  induction n generalizing x with
  | zero => rfl
  | succ n ih =>
    have ih := ih (x := x + 1) (by omega)
    rw [← Nat.add_assoc] at ih
    have hrest : (List.range (n + 1)).map (fun i => m (p + x + i)) =
        m (p + x) :: (List.range n).map fun i => m (p + (x + 1) + i) := by
      rw [List.range_succ_eq_map, List.map_cons, List.map_map]
      congr 1
      apply List.map_congr_left
      intro i _
      simp only [Function.comp]
      congr 1
      omega
    rw [hrest]
    simp only [loadBytes, load_window (show p + x < 2 ^ 31 by omega), ih]
    rfl

theorem loadBytes_outside (h : 2 ^ 31 < p + x + n) (hn : 0 < n) (hx : p + x + n ≤ 2 ^ 64) :
    loadBytes kernelMap m (physicalToStivale p + x) n = .error .pageFault := by
  induction n generalizing x with
  | zero => omega
  | succ n ih =>
    by_cases hp : p + x < 2 ^ 31
    · have ih := ih (x := x + 1) (by omega) (by omega) (by omega)
      rw [← Nat.add_assoc] at ih
      simp only [loadBytes, load_window hp, ih]
      rfl
    · simp only [loadBytes, load_outside (m := m) (show 2 ^ 31 ≤ p + x by omega) (by omega)]
      rfl

theorem littleEndian_window : littleEndian ((List.range n).map fun i => m (p + x + i)) = (tableAt m p).value x n := by
  induction n generalizing x with
  | zero => rfl
  | succ n ih =>
    have ih := ih (x := x + 1)
    have hstep : ((x : ℤ) + 1) = ((x + 1 : ℕ) : ℤ) := by omega
    rw [List.range_succ_eq_map, List.map_cons, List.map_map, Table.value, hstep, ← ih]
    simp only [littleEndian, List.foldr_cons, Nat.add_zero, tableAt]
    congr 3
    apply List.map_congr_left
    intro i _
    simp only [Function.comp]
    congr 1
    omega

theorem loadWord_window (h : p + x + n ≤ 2 ^ 31) :
    loadWord kernelMap m (physicalToStivale p + x) n = .ok ((tableAt m p).value x n) := by
  rw [loadWord, loadBytes_window h, ← littleEndian_window]
  rfl

theorem loadWord_outside (h : 2 ^ 31 < p + x + n) (hn : 0 < n) (hx : p + x + n ≤ 2 ^ 64) :
    loadWord kernelMap m (physicalToStivale p + x) n = .error .pageFault := by
  rw [loadWord, loadBytes_outside h hn hx]
  rfl

theorem checksumFrom_window {i : ℕ} {sum : BitVec 8} (h : p + i + n ≤ 2 ^ 31) :
    checksumFrom m (physicalToStivale p) n i sum =
      .ok ((List.range' i n).foldl (fun sum (i : ℕ) => sum + (tableAt m p).byte i) sum == 0) := by
  induction n generalizing i sum with
  | zero => rfl
  | succ n ih =>
    rw [checksumFrom, load_window (by omega), List.range'_succ, List.foldl_cons]
    exact ih (by omega)

theorem checksumFrom_outside {i : ℕ} {sum : BitVec 8} (h : 2 ^ 31 < p + i + n) (hn : 0 < n) (hx : p + i + n ≤ 2 ^ 64) :
    checksumFrom m (physicalToStivale p) n i sum = .error .pageFault := by
  induction n generalizing i sum with
  | zero => omega
  | succ n ih =>
    by_cases hp : p + i < 2 ^ 31
    · rw [checksumFrom, load_window hp]
      exact ih (by omega) (by omega) (by omega)
    · rw [checksumFrom, load_outside (by omega) (by omega)]
      rfl

end Window

section Tables

variable {m : Memory} {σ : Type} {parseMadt hpetInit : ℕ → σ → Except Stop σ} {p : ℕ} {s : σ}

theorem strcmp_same_length {as bs : List (BitVec 8)} (hb : 0 ∉ bs) (hl : as.length = bs.length) :
    strcmp (as ++ [0]) (bs ++ [0]) = decide (as ≠ bs) := by
  induction as generalizing bs with
  | nil =>
    obtain rfl : bs = [] := List.length_eq_zero_iff.mp hl.symm
    rfl
  | cons a as ih =>
    cases bs with
    | nil => cases hl
    | cons b bs =>
      have hrest := ih (fun h => hb (List.mem_cons_of_mem _ h)) (Nat.succ.inj hl)
      have hbz : b ≠ 0 := fun h => hb (h ▸ List.mem_cons_self)
      by_cases hab : a = b
      · subst hab
        rw [List.cons_append, List.cons_append, strcmp, if_pos ⟨hbz, hbz, rfl⟩, hrest]
        simp
      · simp [strcmp, hab]

/-- All of the table that the checksum covers is mapped, and the head of its header. -/
def InWindow (m : Memory) (p : ℕ) : Prop := p + max 8 (tableAt m p).length ≤ 2 ^ 31

instance : Decidable (InWindow m p) := inferInstanceAs (Decidable (_ ≤ _))

theorem loadBytes_signature (h : p + 4 ≤ 2 ^ 31) :
    loadBytes kernelMap m (physicalToStivale p) 4 = .ok (signature m p) := by
  have hb := loadBytes_window (m := m) (p := p) (x := 0) (n := 4) h
  rwa [Nat.add_zero, Nat.add_zero] at hb

theorem value_lt (t : Table) (q : ℤ) (n : ℕ) : t.value q n < 2 ^ (8 * n) := by
  induction n generalizing q with
  | zero => exact Nat.one_pos
  | succ n ih =>
    have hb := (t.byte q).isLt
    have hrest := ih (q + 1)
    rw [Table.value, Nat.mul_succ, Nat.pow_add]
    omega

theorem length_lt (t : Table) : t.length < 2 ^ 32 := value_lt t 4 4

theorem checksum_window (h : InWindow m p) : checksum m (physicalToStivale p) = .ok (tableAt m p).checksum := by
  have hp : p + max 8 (tableAt m p).length ≤ 2 ^ 31 := h
  have hlen : loadWord kernelMap m (physicalToStivale p + 4) 4 = .ok (tableAt m p).length :=
    loadWord_window (by omega)
  rw [checksum, hlen]
  change checksumFrom m (physicalToStivale p) (tableAt m p).length 0 0 = _
  rw [checksumFrom_window (by omega), ← List.range_eq_range']
  rfl

theorem checksum_outside (h : ¬ InWindow m p) (hp : p < 2 ^ 32) :
    checksum m (physicalToStivale p) = .error .pageFault := by
  have h : ¬ p + max 8 (tableAt m p).length ≤ 2 ^ 31 := h
  have hlen := length_lt (tableAt m p)
  by_cases hp8 : p + 8 ≤ 2 ^ 31
  · have hword : loadWord kernelMap m (physicalToStivale p + 4) 4 = .ok (tableAt m p).length :=
      loadWord_window (by omega)
    rw [checksum, hword]
    exact checksumFrom_outside (by omega) (by omega) (by omega)
  · have hword : loadWord kernelMap m (physicalToStivale p + 4) 4 = .error .pageFault :=
      loadWord_outside (by omega) (by omega) (by omega)
    rw [checksum, hword]
    rfl

theorem signature_length : (signature m p).length = 4 := by simp [signature]

theorem parseTable_window (h : InWindow m p) :
    parseTable m parseMadt hpetInit (physicalToStivale p) s = visit m parseMadt hpetInit p s := by
  have hp : p + max 8 (tableAt m p).length ≤ 2 ^ 31 := h
  have hname {name : List (BitVec 8)} (hz : 0 ∉ name) (hl : name.length = 4) :
      strcmp (signature m p ++ [0]) (name ++ [0]) = decide (signature m p ≠ name) :=
    strcmp_same_length hz (signature_length.trans hl.symm)
  rw [parseTable, visit, loadBytes_signature (by omega), checksum_window h]
  simp only [lift_ok_bind]
  rw [hname (by decide) rfl, hname (by decide) rfl]
  refine bind_right_inj.mpr fun _ _ => bind_right_inj.mpr fun _ _ => ?_
  cases (tableAt m p).checksum with
  | false => rfl
  | true =>
    simp only [ne_eq, decide_not, Bool.not_not, decide_eq_true_eq, Bool.not_true, Bool.false_eq_true, if_false, if_true]

theorem visit_length : 1 < (visit m parseMadt hpetInit p s).trace.length := by
  rw [visit, emit_bind_trace, emit_bind_trace, List.length_cons, List.length_cons]
  exact Nat.succ_lt_succ (Nat.succ_pos _)

variable (parseMadt hpetInit s) in
/-- Outside of the window, the run ends before the table is checked. -/
theorem parseTable_outside (h : ¬ InWindow m p) (hp : p < 2 ^ 32) :
    (parseTable m parseMadt hpetInit (physicalToStivale p) s).trace.length ≤ 1 ∧
      (parseTable m parseMadt hpetInit (physicalToStivale p) s).result = .error .pageFault := by
  rw [parseTable]
  by_cases hp4 : p + 4 ≤ 2 ^ 31
  · rw [loadBytes_signature hp4, checksum_outside h hp]
    exact ⟨Nat.le_refl 1, rfl⟩
  · have hname := loadBytes_outside (m := m) (p := p) (x := 0) (n := 4) (by omega) (by omega) (by omega)
    rw [Nat.add_zero] at hname
    rw [hname]
    exact ⟨Nat.zero_le 1, rfl⟩

theorem parseTable_bind_iff {τ : Type} {f g : σ → Traced Event Stop τ} (hp : p < 2 ^ 32) :
    parseTable m parseMadt hpetInit (physicalToStivale p) s >>= f = visit m parseMadt hpetInit p s >>= g ↔
      InWindow m p ∧ ∀ s', (visit m parseMadt hpetInit p s).result = .ok s' → f s' = g s' := by
  by_cases h : InWindow m p
  · rw [parseTable_window h, bind_right_inj]
    exact (and_iff_right h).symm
  · obtain ⟨htrace, hresult⟩ := parseTable_outside parseMadt hpetInit s h hp
    refine iff_of_false ?_ fun hw => h hw.1
    intro heq
    exact bind_ne_of_length hresult (Nat.lt_of_le_of_lt htrace visit_length) f g heq

end Tables

section Discovery

variable (m : Memory) {σ : Type} (parseMadt hpetInit : ℕ → σ → Except Stop σ)

/-- The tables that are reached are in the window, and so are the entries that name them, from `q` on. -/
def EntriesInWindow : List ℕ → ℕ → σ → Prop
  | [], _, _ => True
  | p :: ps, q, s => q + 4 ≤ 2 ^ 31 ∧ InWindow m p ∧
      ∀ s', (visit m parseMadt hpetInit p s).result = .ok s' → EntriesInWindow ps (q + 4) s'

/-- The code gets from the RSDP at the address to the tables that its RSDT lists. -/
structure Discoverable (rsdpAddress : ℕ) (s : σ) : Prop where
  descriptor : if m 15 ≠ 0 then rsdpAddress + 20 ≤ 2 ^ 31 else (tableAt m 0).value 16 4 = rsdtOf m rsdpAddress
  header : rsdtOf m rsdpAddress + 8 ≤ 2 ^ 31
  length : 36 ≤ (tableAt m (rsdtOf m rsdpAddress)).length
  entries : EntriesInWindow m parseMadt hpetInit (listed m (rsdtOf m rsdpAddress)) (rsdtOf m rsdpAddress + 36) s

variable {m parseMadt hpetInit} {rsdt i n : ℕ} {s : σ}

theorem entry_lt : entry m rsdt i < 2 ^ 32 := value_lt _ _ 4

theorem parseEntries_iff (hr : rsdt < 2 ^ 32) (hn : i + n < 2 ^ 32) :
    parseEntries m parseMadt hpetInit (physicalToStivale rsdt) n i s =
        visitAll m parseMadt hpetInit ((List.range' i n).map (entry m rsdt)) s ↔
      EntriesInWindow m parseMadt hpetInit ((List.range' i n).map (entry m rsdt))
        (rsdt + 36 + 4 * i) s := by
  induction n generalizing i s with
  | zero => exact iff_of_true rfl trivial
  | succ n ih =>
    rw [parseEntries, Nat.add_assoc (physicalToStivale rsdt), List.range'_succ, List.map_cons, visitAll,
      EntriesInWindow]
    by_cases hq : rsdt + 36 + 4 * i + 4 ≤ 2 ^ 31
    · rw [loadWord_window (x := 36 + 4 * i) (by omega), lift_ok_bind, ← entry,
        parseTable_bind_iff entry_lt]
      refine Iff.trans (and_congr_right fun _ => ?_) (and_iff_right hq).symm
      refine forall_congr' fun s' => imp_congr_right fun _ => ?_
      exact ih (by omega)
    · rw [loadWord_outside (x := 36 + 4 * i) (by omega) (by omega) (by omega), lift_error_bind]
      refine iff_of_false ?_ fun h => hq h.1
      intro heq
      have hlen := visit_length.trans_le (length_le_bind (visit m parseMadt hpetInit (entry m rsdt i) s)
        (visitAll m parseMadt hpetInit ((List.range' (i + 1) n).map (entry m rsdt))))
      rw [← heq] at hlen
      exact Nat.not_lt_zero _ hlen

/-- A table that is looked at shows in the trace or fails. -/
theorem parseTable_bind_ne_pure {τ : Type} {p : ℕ} (hp : p < 2 ^ 32) (f : σ → Traced Event Stop τ) (t : τ) :
    parseTable m parseMadt hpetInit (physicalToStivale p) s >>= f ≠ pure t := by
  intro heq
  by_cases h : InWindow m p
  · have hlen := length_le_bind (visit m parseMadt hpetInit p s) f
    rw [← parseTable_window h, heq, parseTable_window h] at hlen
    exact Nat.not_lt_zero _ (visit_length.trans_le hlen)
  · obtain ⟨-, hresult⟩ := parseTable_outside parseMadt hpetInit s h hp
    rw [bind_of_error hresult] at heq
    cases congrArg Traced.result heq

theorem littleEndian_lt (bytes : List (BitVec 8)) : littleEndian bytes < 2 ^ (8 * bytes.length) := by
  induction bytes with
  | nil => exact Nat.one_pos
  | cons b bytes ih =>
    have hb := b.isLt
    have hstep : littleEndian (b :: bytes) = b.toNat + 2 ^ 8 * littleEndian bytes := rfl
    rw [hstep, List.length_cons, Nat.mul_succ, Nat.pow_add]
    omega

theorem loadBytes_length {map : ℕ → Option ℕ} {v : ℕ} {bytes : List (BitVec 8)} (h : loadBytes map m v n = .ok bytes) :
    bytes.length = n := by
  induction n generalizing v bytes with
  | zero =>
    cases h
    rfl
  | succ n ih =>
    rw [loadBytes] at h
    cases hb : load map m v with
    | error e => rw [hb] at h; cases h
    | ok b =>
      cases hbs : loadBytes map m (v + 1) n with
      | error e => rw [hb, hbs] at h; cases h
      | ok bs =>
        rw [hb, hbs] at h
        cases h
        exact congrArg (· + 1) (ih hbs)

theorem loadWord_lt {map : ℕ → Option ℕ} {v w : ℕ} (h : loadWord map m v n = .ok w) : w < 2 ^ (8 * n) := by
  rw [loadWord] at h
  cases hb : loadBytes map m v n with
  | error e => rw [hb] at h; cases h
  | ok bytes =>
    rw [hb] at h
    cases h
    exact loadBytes_length hb ▸ littleEndian_lt bytes

/-- An RSDT that is shorter than its header lists nothing, but the loop runs. -/
theorem parseEntries_succ_ne : parseEntries m parseMadt hpetInit (physicalToStivale rsdt) (n + 1) i s ≠ pure s := by
  intro heq
  rw [parseEntries] at heq
  cases hw : loadWord kernelMap m (physicalToStivale rsdt + 36 + 4 * i) 4 with
  | error e =>
    rw [hw, lift_error_bind] at heq
    cases congrArg Traced.result heq
  | ok p =>
    rw [hw, lift_ok_bind] at heq
    exact parseTable_bind_ne_pure (loadWord_lt hw) _ _ heq

theorem rsdtEntries_of_le (h : 36 ≤ n) (hn : n < 2 ^ 32) : rsdtEntries n = (n - 36) / 4 := by
  rw [rsdtEntries]
  omega

theorem rsdtEntries_of_lt (h : n < 36) : ∃ k, rsdtEntries n = k + 1 :=
  ⟨rsdtEntries n - 1, by rw [rsdtEntries]; omega⟩

variable {rsdpAddress : ℕ}

theorem ok_bind {α β : Type} (a : α) (f : α → Except Stop β) : (Except.ok a >>= f) = f a := rfl

/-- The descriptor is not the RSDP if the byte at address 15, which is read through a null pointer, is zero. -/
theorem parseRsdp_atBoot (h : loadBytes loaderMap m rsdpAddress 8 = .ok rsdPtr) :
    parseRsdp m rsdpAddress atBoot = .ok ⟨true, physicalToStivale (if m 15 ≠ 0 then rsdpAddress else 0)⟩ := by
  have hnull : load loaderMap m (atBoot.descRsdp20 + 15) = .ok (m 15) := rfl
  have heq : strcmp (rsdPtr ++ [0]) (rsdPtr ++ [0]) = false := by decide
  rw [parseRsdp, if_neg (by decide), hnull, h, ok_bind, ok_bind, heq]
  rfl

theorem parseRsdt_iff {d : ℕ} (hd : d < 2 ^ 32) {s : σ} :
    (parseEntries m parseMadt hpetInit (physicalToStivale d) (rsdtEntries (tableAt m d).length) 0 s =
      visitAll m parseMadt hpetInit (listed m d) s) ↔
    36 ≤ (tableAt m d).length ∧ EntriesInWindow m parseMadt hpetInit (listed m d) (d + 36) s := by
  have hlen := length_lt (tableAt m d)
  by_cases hl : 36 ≤ (tableAt m d).length
  · rw [rsdtEntries_of_le hl hlen, listed, List.range_eq_range', parseEntries_iff hd (by omega)]
    exact (and_iff_right hl).symm
  · obtain ⟨k, hk⟩ := rsdtEntries_of_lt (Nat.lt_of_not_le hl)
    have hnil : listed m d = [] := by
      rw [listed, show ((tableAt m d).length - 36) / 4 = 0 by omega]
      rfl
    rw [hk, hnil]
    exact iff_of_false parseEntries_succ_ne fun h => hl h.1

theorem descriptor_iff : (if m 15 ≠ 0 then rsdpAddress + 20 ≤ 2 ^ 31 else
      (tableAt m 0).value 16 4 = rsdtOf m rsdpAddress) ↔
    (if m 15 ≠ 0 then rsdpAddress else 0) + 20 ≤ 2 ^ 31 ∧
      (tableAt m (if m 15 ≠ 0 then rsdpAddress else 0)).value 16 4 = rsdtOf m rsdpAddress := by
  by_cases h : m 15 ≠ 0
  · rw [if_pos h, if_pos h]
    refine iff_self_and.mpr fun hr => ?_
    have hlow : ¬ higherHalf ≤ rsdpAddress := by
      rw [higherHalf]
      omega
    rw [rsdtOf, loaderPhysical, if_neg hlow]
  · rw [if_neg h, if_neg h]
    exact (and_iff_right (by decide)).symm

theorem rsdtOf_lt : rsdtOf m rsdpAddress < 2 ^ 32 := value_lt _ _ 4

theorem physicalToStivale_inj {p q : ℕ} (hp : p < 2 ^ 32) (hq : q < 2 ^ 32)
    (h : physicalToStivale p = physicalToStivale q) : p = q := by
  simp only [physicalToStivale, higherHalf] at h
  omega

/-- From a descriptor at `d`, the tables are those of the RSDT at `r`. -/
theorem parseRsdt_eq_iff {d r : ℕ} (hd : d + 20 ≤ 2 ^ 64) (hr : r < 2 ^ 32) :
    parseRsdt m parseMadt hpetInit ⟨true, physicalToStivale d⟩ s =
      (do let _ ← emit (.rsdt (physicalToStivale r)); visitAll m parseMadt hpetInit (listed m r) s) ↔
    (d + 20 ≤ 2 ^ 31 ∧ (tableAt m d).value 16 4 = r) ∧ r + 8 ≤ 2 ^ 31 ∧ 36 ≤ (tableAt m r).length ∧
      EntriesInWindow m parseMadt hpetInit (listed m r) (r + 36) s := by
  rw [parseRsdt]
  by_cases hdw : d + 20 ≤ 2 ^ 31
  · have hword : loadWord kernelMap m (physicalToStivale d + 16) 4 = .ok ((tableAt m d).value 16 4) :=
      loadWord_window (by omega)
    have hlt : (tableAt m d).value 16 4 < 2 ^ 32 := value_lt _ _ 4
    rw [hword, lift_ok_bind]
    generalize (tableAt m d).value 16 4 = r' at hlt ⊢
    by_cases hr8 : r' + 8 ≤ 2 ^ 31
    · have hlen : loadWord kernelMap m (physicalToStivale r' + 4) 4 = .ok (tableAt m r').length :=
        loadWord_window (by omega)
      dsimp only
      rw [hlen, lift_ok_bind]
      rw [emit_bind_eq_iff, Event.rsdt.injEq]
      by_cases heq : r' = r
      · subst heq
        rw [parseRsdt_iff hlt]
        exact ⟨fun h => ⟨⟨hdw, rfl⟩, hr8, h.2⟩, fun h => ⟨rfl, h.2.2⟩⟩
      · exact iff_of_false (fun h => heq (physicalToStivale_inj hlt hr h.1)) fun h => heq h.1.2
    · have hlen : loadWord kernelMap m (physicalToStivale r' + 4) 4 = .error .pageFault :=
        loadWord_outside (by omega) (by omega) (by omega)
      dsimp only
      rw [hlen, lift_error_bind]
      refine iff_of_false error_ne_emit_bind ?_
      rintro ⟨⟨-, rfl⟩, h8, -⟩
      exact hr8 h8
  · have hword : loadWord kernelMap m (physicalToStivale d + 16) 4 = .error .pageFault :=
      loadWord_outside (by omega) (by omega) (by omega)
    rw [hword, lift_error_bind]
    exact iff_of_false error_ne_emit_bind fun h => hdw h.1.1

/-- An RSDP with its signature, inside the address space. -/
structure IsRsdp (m : Memory) (rsdpAddress : ℕ) : Prop where
  signature : loadBytes loaderMap m rsdpAddress 8 = .ok rsdPtr
  inside : rsdpAddress + 20 ≤ 2 ^ 64

theorem findTables_eq_iff (h : IsRsdp m rsdpAddress) :
    findTables m parseMadt hpetInit rsdpAddress s = visitListed m parseMadt hpetInit rsdpAddress s ↔
      Discoverable m parseMadt hpetInit rsdpAddress s := by
  have hd : (if m 15 ≠ 0 then rsdpAddress else 0) + 20 ≤ 2 ^ 64 := by
    split
    · exact h.inside
    · decide
  rw [findTables, parseRsdp_atBoot h.signature, lift_ok_bind, visitListed, parseRsdt_eq_iff hd rsdtOf_lt,
    ← descriptor_iff]
  exact ⟨fun ⟨hdesc, hhead, hlen, hent⟩ => ⟨hdesc, hhead, hlen, hent⟩, fun ⟨hdesc, hhead, hlen, hent⟩ =>
    ⟨hdesc, hhead, hlen, hent⟩⟩

end Discovery

/-- A memory with the byte at address 15, an RSDP of revision 2 at 0xe0000, its RSDT at 0x1000 and a table at
0x2000. -/
def machineMemory (byte15 : BitVec 8) (table : List (BitVec 8)) : Memory := fun a =>
  if a = 15 then byte15
  else if 0xe0000 ≤ a then (rsdPtr ++ [0, 0, 0, 0, 0, 0, 0, 2, 0x00, 0x10, 0, 0]).getD (a - 0xe0000) 0
  else if 0x2000 ≤ a then table.getD (a - 0x2000) 0
  else if 0x1024 ≤ a then [0x00, 0x20, 0, 0].getD (a - 0x1024) 0
  else if a = 0x1004 then 40
  else 0

def emptyMadt : List (BitVec 8) := apic ++ [44, 0, 0, 0, 0, 0xb7]

def returns (_ : ℕ) (_ : Unit) : Except Stop Unit := .ok ()

theorem machineMemory_isRsdp (b : BitVec 8) (table : List (BitVec 8)) : IsRsdp (machineMemory b table) 0xe0000 :=
  ⟨rfl, by decide⟩

theorem findTables_through_null : IsRsdp (machineMemory 0 emptyMadt) 0xe0000 ∧
    findTables (machineMemory 0 emptyMadt) returns returns 0xe0000 () ≠
      visitListed (machineMemory 0 emptyMadt) returns returns 0xe0000 () := by
  refine ⟨machineMemory_isRsdp 0 emptyMadt, fun heq => ?_⟩
  rw [findTables, parseRsdp_atBoot (machineMemory_isRsdp 0 emptyMadt).signature, lift_ok_bind, visitListed,
    parseRsdt_eq_iff (by decide) rsdtOf_lt] at heq
  exact absurd heq.1.2 (by decide)

theorem findTables_eq_iff_bios : findTables (machineMemory 0xf0 emptyMadt) returns returns 0xe0000 () =
    visitListed (machineMemory 0xf0 emptyMadt) returns returns 0xe0000 () := by
  refine (findTables_eq_iff (machineMemory_isRsdp 0xf0 emptyMadt)).mpr ⟨by decide, by decide, by decide, ?_⟩
  have hlist : listed (machineMemory 0xf0 emptyMadt) (rsdtOf (machineMemory 0xf0 emptyMadt) 0xe0000) = [0x2000] := by
    decide
  rw [hlist]
  exact ⟨by decide, by decide, fun _ _ => trivial⟩

end Raccoon.Rsdt
