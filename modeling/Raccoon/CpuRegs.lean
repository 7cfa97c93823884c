import Raccoon.CStrings
import Raccoon.Loops
import Raccoon.Runs
import Mathlib.Logic.Function.Basic

/-!
The register cache: for each core a row of sixteen columns, four of which have
names. It stands for a map from cores and names to values.
-/

namespace Raccoon.CpuRegs

open Loops Outcome Runs

def maxCore : ℕ := 32
def maxRegisters : ℕ := 16

/-- A `NULL` name is `none`. -/
structure PairNameValue where
  name : Option CString
  value : UInt64

structure Cache where
  table : ℕ → ℕ → PairNameValue
  isInit : Bool

inductive Trap where
  | outsideTable
  | unsetName

section Code

/-- `my_strcmp` of `cpu_regs.c`: whether the strings differ. -/
def myStrcmp : List Char → List Char → Bool
  | a :: as, b :: bs => if a ≠ b then true else myStrcmp as bs
  | [], [] => false
  | _, _ => true

def idtr : CString := ⟨"idtr".toList, by decide⟩
def gdtr : CString := ⟨"gdtr".toList, by decide⟩
def cr3 : CString := ⟨"cr3".toList, by decide⟩
def rflags : CString := ⟨"rflags".toList, by decide⟩

/-- `table[core][i] = x;` -/
def store (core i : ℕ) (x : PairNameValue) (c : Cache) : Cache :=
  { c with table := Function.update c.table core (Function.update (c.table core) i x) }

/-- `table[core][i].name = name;` -/
def setName (core i : ℕ) (name : CString) (c : Cache) : Cache :=
  store core i { c.table core i with name := some name } c

/-- `table[core][i].value = value;` -/
def setValue (core i : ℕ) (value : UInt64) (c : Cache) : Cache := store core i { c.table core i with value := value } c

def nameRow (c : Cache) (i : ℕ) : Cache := setName i 3 rflags (setName i 2 cr3 (setName i 1 gdtr (setName i 0 idtr c)))

def initCpuRegs (c : Cache) : Cache :=
  if c.isInit then c else (List.range maxCore).foldl nameRow { c with isInit := true }

variable {ρ : Type}

/-- `!my_strcmp(table[core][i].name, id)` -/
def isNamed (core i : ℕ) (id : CString) (c : Cache) : Outcome Trap ρ Bool :=
  if core < maxCore ∧ i < maxRegisters then
    match (c.table core i).name with
    | none => .fail .unsetName
    | some name => .next !myStrcmp name.chars id.chars
  else .fail .outsideTable

/-- The loop over the columns, with what is done at the one of that name. -/
def search (core : ℕ) (id : CString) (found : ℕ → Cache → ρ) : ℕ → ℕ → Cache → Outcome Trap ρ Cache :=
  forLoop fun i c => do
    if ← isNamed core i id c then .done (found i c) else .next c

def structCpuRegsInterfaceSet (id : CString) (value : UInt64) (core : ℕ) (c : Cache) : Except Trap (Bool × Cache) :=
  match search core id (fun i c => setValue core i value c) maxCore 0 (initCpuRegs c) with
  | .fail e => .error e
  | .done c => .ok (true, c)
  | .next c => .ok (false, c)

/-- The value is `none` where 0 is returned and `*value` left as it is. -/
def structCpuRegsInterfaceGet (id : CString) (core : ℕ) (c : Cache) : Except Trap (Option UInt64 × Cache) :=
  match search core id (fun i c => ((c.table core i).value, c)) maxCore 0 (initCpuRegs c) with
  | .fail e => .error e
  | .done (value, c) => .ok (some value, c)
  | .next c => .ok (none, c)

end Code

section Map

def registers : List CString := [idtr, gdtr, cr3, rflags]

/-- The cells as a map: a value for each core and name. -/
def view (c : Cache) (core : ℕ) (id : CString) : UInt64 :=
  if id ∈ registers then (c.table core (registers.idxOf id)).value else 0

def put (core : ℕ) (id : CString) (value : UInt64) (f : ℕ → CString → UInt64) : ℕ → CString → UInt64 :=
  Function.update f core (Function.update (f core) id value)

/-- Setting and getting are the operations of a map on the registered names, and do nothing for other names. -/
structure ActsAsMap (c : Cache) (core : ℕ) (id : CString) (value : UInt64) : Prop where
  set : ∃ c', structCpuRegsInterfaceSet id value core c = .ok (decide (id ∈ registers), c') ∧
    view c' = if id ∈ registers then put core id value (view c) else view c
  get : ∃ c', structCpuRegsInterfaceGet id core c = .ok (if id ∈ registers then some (view c core id) else none, c') ∧
    view c' = view c
  get_set : id ∈ registers → ∀ r c', structCpuRegsInterfaceSet id value core c = .ok (r, c') →
    ∃ c'', structCpuRegsInterfaceGet id core c' = .ok (some value, c'')

/-- The table as the kernel starts. -/
def zeroed : Cache := ⟨fun _ _ => ⟨none, 0⟩, false⟩

inductive Access where
  | set (id : CString) (value : UInt64) (core : ℕ)
  | get (id : CString) (core : ℕ)

inductive Step (c : Cache) : Access → Cache → Prop
  | set {id : CString} {value : UInt64} {core : ℕ} {r : Bool} {c' : Cache} : core < maxCore →
      structCpuRegsInterfaceSet id value core c = .ok (r, c') → Step c (.set id value core) c'
  | get {id : CString} {core : ℕ} {r : Option UInt64} {c' : Cache} : core < maxCore →
      structCpuRegsInterfaceGet id core c = .ok (r, c') → Step c (.get id core) c'

end Map

variable {ρ : Type} {c c' : Cache} {core other i j k n : ℕ} {id name : CString} {value : UInt64}

theorem myStrcmp_eq_false {as bs : List Char} : myStrcmp as bs = false ↔ as = bs := by
  induction as generalizing bs with
  | nil => cases bs <;> simp [myStrcmp]
  | cons a as ih =>
    cases bs with
    | nil => simp [myStrcmp]
    | cons b bs =>
      by_cases hab : a = b
      · simp [myStrcmp, hab, ih]
      · simp [myStrcmp, hab]

theorem not_myStrcmp : (!myStrcmp name.chars id.chars) = decide (name = id) := by
  by_cases h : name = id
  · subst h
    simp [myStrcmp_eq_false.mpr rfl]
  · have hne : myStrcmp name.chars id.chars ≠ false := fun hf => h (CString.ext (myStrcmp_eq_false.mp hf))
    simpa [h] using hne

theorem store_table {x : PairNameValue} :
    (store core i x c).table other j = if other = core ∧ j = i then x else c.table other j := by
  by_cases hcore : other = core
  · subst hcore
    by_cases hi : j = i
    · simp [store, hi]
    · simp [store, hi]
  · simp [store, hcore]

theorem nameRow_table : (nameRow c k).table core i =
    if core = k ∧ i < registers.length then { c.table core i with name := registers[i]? } else c.table core i := by
  by_cases hcore : core = k
  · subst hcore
    rcases i with _ | _ | _ | _ | i
    case succ.succ.succ.succ =>
      have hi : ¬ i + 1 + 1 + 1 + 1 < 4 := by omega
      simp [nameRow, setName, store_table, registers, hi]
    all_goals simp [nameRow, setName, store_table, registers]
  · simp [nameRow, setName, store_table, hcore]

theorem nameRow_isInit : (nameRow c k).isInit = c.isInit := rfl

theorem nameRows_table : ((List.range n).foldl nameRow c).table core i =
    if core < n ∧ i < registers.length then { c.table core i with name := registers[i]? } else c.table core i := by
  induction n with
  | zero => simp
  | succ n ih =>
    rw [List.range_succ, List.foldl_append, List.foldl_cons, List.foldl_nil, nameRow_table, ih]
    by_cases hi : i < registers.length
    · by_cases hlt : core < n
      · have hne : core ≠ n := by omega
        have hlt' : core < n + 1 := by omega
        simp [hi, hlt, hne, hlt']
      · by_cases he : core = n
        · simp [hi, he]
        · have hlt' : ¬ core < n + 1 := by omega
          simp [hlt, he, hlt']
    · simp [hi]

theorem nameRows_isInit : ((List.range n).foldl nameRow c).isInit = c.isInit := by
  induction n with
  | zero => rfl
  | succ n ih => rw [List.range_succ, List.foldl_append, List.foldl_cons, List.foldl_nil, nameRow_isInit, ih]

/-- The rows of all cores have their names, and only those. -/
structure Named (c : Cache) : Prop where
  isInit : c.isInit = true
  names : ∀ core < maxCore, ∀ i, (c.table core i).name = registers[i]?

def Valid (c : Cache) : Prop := c = zeroed ∨ Named c

theorem named_init (h : Valid c) : Named (initCpuRegs c) := by
  rcases h with rfl | h
  · refine ⟨nameRows_isInit, fun core hcore i => ?_⟩
    rw [initCpuRegs, if_neg (by decide), nameRows_table]
    by_cases hi : i < registers.length
    · rw [if_pos ⟨hcore, hi⟩]
    · rw [if_neg (fun h => hi h.2), List.getElem?_eq_none (by omega)]
      rfl
  · rwa [initCpuRegs, if_pos h.isInit]

theorem view_init (h : Valid c) : view (initCpuRegs c) = view c := by
  rcases h with rfl | h
  · funext core id
    by_cases hid : id ∈ registers
    · rw [view, view, if_pos hid, if_pos hid, initCpuRegs, if_neg (by decide), nameRows_table]
      split <;> rfl
    · rw [view, view, if_neg hid, if_neg hid]
  · rw [initCpuRegs, if_pos h.isInit]

theorem isNamed_next (h : Named c) (hcore : core < maxCore) (hi : i < registers.length) :
    (isNamed core i id c : Outcome Trap ρ Bool) = .next (decide (registers[i] = id)) := by
  have hcols : i < maxRegisters := lt_trans hi (by decide)
  rw [isNamed, if_pos ⟨hcore, hcols⟩, h.names core hcore, List.getElem?_eq_getElem hi]
  exact congrArg _ not_myStrcmp

theorem isNamed_unset (h : Named c) (hcore : core < maxCore) :
    (isNamed core registers.length id c : Outcome Trap ρ Bool) = .fail .unsetName := by
  rw [isNamed, if_pos ⟨hcore, by decide⟩, h.names core hcore]
  rfl

/-- The search goes through the columns that have names, and reads the next one if it has not found the name. -/
theorem search_from {found : ℕ → Cache → ρ} (h : Named c) (hcore : core < maxCore) (hi : i ≤ registers.length) :
    search core id found (maxCore - i) i c =
      if id ∈ registers.drop i then .done (found (i + (registers.drop i).idxOf id) c) else .fail .unsetName := by
  have hcores : registers.length < maxCore := by decide
  induction hi using Nat.decreasingInduction with
  | self =>
    rw [search, forLoop_head hcores, isNamed_unset h hcore]
    simp
  | of_succ i hi ih =>
    rw [search, forLoop_head (by omega), isNamed_next h hcore hi, List.drop_eq_getElem_cons hi]
    by_cases he : registers[i] = id
    · simp [he]
    · have hne : id ≠ registers[i] := Ne.symm he
      have hidx : i + (registers[i] :: registers.drop (i + 1)).idxOf id = i + 1 + (registers.drop (i + 1)).idxOf id := by
        rw [List.idxOf_cons_ne _ he]
        omega
      rw [search] at ih
      simp only [he, hne, decide_false, next_bind, Bool.false_eq_true, if_false, List.mem_cons, false_or, ih, hidx]

theorem search_eq {found : ℕ → Cache → ρ} (h : Valid c) (hcore : core < maxCore) :
    search core id found maxCore 0 (initCpuRegs c) =
      if id ∈ registers then .done (found (registers.idxOf id) (initCpuRegs c)) else .fail .unsetName := by
  have hs : search core id found (maxCore - 0) 0 (initCpuRegs c) = _ :=
    search_from (named_init h) hcore (Nat.zero_le _)
  rwa [List.drop_zero, Nat.zero_add] at hs

theorem set_registered (h : Valid c) (hcore : core < maxCore) (hid : id ∈ registers) :
    structCpuRegsInterfaceSet id value core c =
      .ok (true, setValue core (registers.idxOf id) value (initCpuRegs c)) := by
  rw [structCpuRegsInterfaceSet, search_eq h hcore, if_pos hid]

theorem get_registered (h : Valid c) (hcore : core < maxCore) (hid : id ∈ registers) :
    structCpuRegsInterfaceGet id core c = .ok (some (view c core id), initCpuRegs c) := by
  rw [structCpuRegsInterfaceGet, search_eq h hcore, if_pos hid, ← view_init h, view, if_pos hid]

theorem set_unknown (h : Valid c) (hcore : core < maxCore) (hid : id ∉ registers) :
    structCpuRegsInterfaceSet id value core c = .error .unsetName := by
  rw [structCpuRegsInterfaceSet, search_eq h hcore, if_neg hid]

theorem get_unknown (h : Valid c) (hcore : core < maxCore) (hid : id ∉ registers) :
    structCpuRegsInterfaceGet id core c = .error .unsetName := by
  rw [structCpuRegsInterfaceGet, search_eq h hcore, if_neg hid]

theorem put_self (f : ℕ → CString → UInt64) : put core id value f core id = value := by simp [put]

theorem view_setValue (hid : id ∈ registers) :
    view (setValue core (registers.idxOf id) value c) = put core id value (view c) := by
  funext other name
  by_cases hname : name ∈ registers
  · rw [view, if_pos hname, setValue, store_table]
    by_cases hcore : other = core
    · subst hcore
      by_cases he : name = id
      · subst he
        simp [put_self]
      · have hne : registers.idxOf name ≠ registers.idxOf id := fun h => he ((List.idxOf_inj hname).mp h)
        simp [put, view, hne, he, hname]
    · simp [put, view, hcore, hname]
  · have hne : name ≠ id := by
      rintro rfl
      exact hname hid
    by_cases hcore : other = core
    · simp [put, view, hcore, hname, hne]
    · simp [put, view, hcore, hname]

theorem Named.setValue (h : Named c) : Named (setValue core i value c) := by
  refine ⟨h.isInit, fun other hother j => ?_⟩
  rw [CpuRegs.setValue, store_table]
  split
  case isTrue he =>
    obtain ⟨rfl, rfl⟩ := he
    exact h.names other hother j
  case isFalse => exact h.names other hother j

def Access.apply (f : ℕ → CString → UInt64) : Access → ℕ → CString → UInt64
  | .set id value core => put core id value f
  | .get _ _ => f

theorem Step.map {a : Access} (h : Valid c) (hs : Step c a c') : Named c' ∧ view c' = a.apply (view c) := by
  cases hs with
  | @set id value core r _ hcore hset =>
    by_cases hid : id ∈ registers
    · rw [set_registered h hcore hid] at hset
      cases hset
      refine ⟨(named_init h).setValue, ?_⟩
      rw [view_setValue hid, view_init h]
      rfl
    · rw [set_unknown h hcore hid] at hset
      cases hset
  | @get id core r _ hcore hget =>
    by_cases hid : id ∈ registers
    · rw [get_registered h hcore hid] at hget
      cases hget
      exact ⟨named_init h, view_init h⟩
    · rw [get_unknown h hcore hid] at hget
      cases hget

theorem run_map {accesses : List Access} (hrun : Run Step zeroed accesses c) :
    Valid c ∧ view c = accesses.foldl Access.apply fun _ _ => 0 := by
  refine hrun.invariant (fun accesses c => Valid c ∧ view c = accesses.foldl Access.apply fun _ _ => 0)
    ⟨.inl rfl, ?_⟩ ?_
  · funext core id
    simp [view, zeroed]
  · rintro accesses c a c' ⟨hvalid, hview⟩ hs
    obtain ⟨hnamed, hmap⟩ := hs.map hvalid
    refine ⟨.inr hnamed, ?_⟩
    rw [hmap, hview, List.foldl_append]
    rfl

/-- After any run, the cache acts as a map exactly on the registered names. -/
theorem actsAsMap_iff {accesses : List Access} (hrun : Run Step zeroed accesses c) (hcore : core < maxCore) :
    ActsAsMap c core id value ↔ id ∈ registers := by
  obtain ⟨h, -⟩ := run_map hrun
  constructor
  · rintro ⟨⟨c', hset, -⟩, -, -⟩
    by_contra hid
    rw [set_unknown h hcore hid] at hset
    cases hset
  · intro hid
    have hset : view (setValue core (registers.idxOf id) value (initCpuRegs c)) = put core id value (view c) := by
      rw [view_setValue hid, view_init h]
    refine ⟨⟨setValue core (registers.idxOf id) value (initCpuRegs c), ?_, ?_⟩, ⟨initCpuRegs c, ?_, view_init h⟩, ?_⟩
    · rw [set_registered h hcore hid, decide_eq_true hid]
    · rw [hset, if_pos hid]
    · rw [get_registered h hcore hid, if_pos hid]
    · intro _ r c' hrun
      rw [set_registered h hcore hid] at hrun
      cases hrun
      have hnamed : Named (setValue core (registers.idxOf id) value (initCpuRegs c)) := (named_init h).setValue
      refine ⟨initCpuRegs (setValue core (registers.idxOf id) value (initCpuRegs c)), ?_⟩
      rw [get_registered (.inr hnamed) hcore hid, hset, put_self]

theorem actsAsMap_cr3 : ActsAsMap zeroed 3 cr3 0x1000 := by
  have hiff : ActsAsMap zeroed 3 cr3 0x1000 ↔ cr3 ∈ registers := actsAsMap_iff .nil (by decide)
  exact hiff.mpr (by decide)

def cr4 : CString := ⟨"cr4".toList, by decide⟩

theorem cr4_reads_unset : ¬ ∀ (c : Cache) (accesses : List Access) (core : ℕ) (id : CString) (value : UInt64),
    Run Step zeroed accesses c → core < maxCore → ActsAsMap c core id value := by
  intro h
  obtain ⟨⟨c', hset, -⟩, -, -⟩ := h zeroed [] 0 cr4 0 .nil (by decide)
  rw [set_unknown (.inl rfl) (by decide) (by decide)] at hset
  cases hset

end Raccoon.CpuRegs
