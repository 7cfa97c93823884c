import Raccoon.Buffers
import Raccoon.Launch

/-!
The registry of the initrd's files, `initfs.c`: fixed buffers for the names,
and a search that compares them byte by byte.
-/

namespace Raccoon.InitFs

open CString (bytes)
open Loops Outcome Buffers

/-- `MAX_FILES_IN_INITRD` -/
def maxFilesInInitrd : ℕ := 32

/-- `MAX_FILENAME_SIZE` -/
def maxFilenameSize : ℕ := 128

inductive Stop where
  | outside
  | panic
deriving DecidableEq

structure File where
  name : Vector Char maxFilenameSize
  begin : UInt64
  «end» : UInt64
  cursor : UInt64
deriving DecidableEq

structure Registry where
  initrdFiles : Vector File maxFilesInInitrd
  fileCount : ℕ
deriving DecidableEq

/-- The static variables of `initfs.c` before the first call. -/
def noFiles : Registry where
  initrdFiles := Vector.replicate _ { name := Vector.replicate _ '\x00', begin := 0, «end» := 0, cursor := 0 }
  fileCount := 0

section Code

variable {ρ : Type} {k : ℕ}

/-- The loop of `my_strncpy` at index `i`, which is `left` below its bound. -/
def copyFrom (src : List Char) : ℕ → ℕ → Vector Char k → Outcome Stop ρ (Vector Char k)
  | 0, i, dest => store .outside dest i '\x00'
  | left + 1, i, dest => do
    let c ← load .outside src i
    if c = '\x00' then store .outside dest i '\x00'
    else
      let dest ← store .outside dest i c
      copyFrom src left (i + 1) dest

def myStrncpy (dest : Vector Char k) (src : List Char) (n : ℕ) : Outcome Stop ρ (Vector Char k) :=
  copyFrom src ((n + 2 ^ 64 - 1) % 2 ^ 64) 0 dest

/-- The second string is read only where the first one has not ended, and once more at the end. -/
def myStrcmp : List Char → List Char → Outcome Stop ρ Bool
  | [], _ => .fail .outside
  | a :: as, bs => do
    let b ← load .outside bs 0
    if a ≠ '\x00' ∧ b ≠ '\x00' then
      if a ≠ b then .next true else myStrcmp as bs.tail
    else .next (a ≠ b)

def registerNewFile (name : List Char) (begin «end» : UInt64) (r : Registry) : Outcome Stop ρ Registry :=
  if h : r.fileCount < maxFilesInInitrd then do
    let name ← myStrncpy r.initrdFiles[r.fileCount].name name maxFilenameSize
    .next {
      initrdFiles := r.initrdFiles.set r.fileCount { name, begin, «end», cursor := 0 }
      fileCount := r.fileCount + 1 }
  else .fail .panic

def compareFile (name : List Char) (r : Registry) (i : ℕ) (_ : Unit) : Outcome Stop (Option ℕ) Unit :=
  if h : i < maxFilesInInitrd then do
    let differ ← myStrcmp r.initrdFiles[i].name.toList name
    if !differ then .done (some i) else .next ()
  else .fail .outside

/-- `get_file` returns the index of the record, or none for `NULL`. -/
def getFile (name : List Char) (r : Registry) : Outcome Stop (Option ℕ) Unit := do
  forLoop (compareFile name r) r.fileCount 0 ()
  .done none

end Code

/-- The arguments of a call of `register_new_file`. -/
structure Registration where
  name : CString
  begin : UInt64
  «end» : UInt64

def registerAll {ρ : Type} : List Registration → Registry → Outcome Stop ρ Registry
  | [], r => .next r
  | f :: l, r => registerNewFile (bytes f.name) f.begin f.end r >>= registerAll l

section Names

variable {ρ : Type} {k : ℕ}

theorem ne_zero_of_mem {s : CString} {c : Char} (h : c ∈ s.chars) : c ≠ '\x00' := by
  rintro rfl
  exact s.nonzero h

/-- The buffer holds the string, whatever follows its NUL. -/
def Holds (a : List Char) (s : CString) : Prop := ∃ junk, a = bytes s ++ junk

/-- What is copied so far is in front; the buffer has room for the rest and its NUL. -/
theorem copyFrom_spec {todo : List Char} (hz : ∀ c ∈ todo, c ≠ '\x00') {left : ℕ} (hl : todo.length ≤ left)
    {pre rest : List Char} {a : Vector Char k} (ha : a.toList = pre ++ rest) (hr : todo.length < rest.length) :
    ∃ a' junk, (copyFrom (pre ++ todo ++ ['\x00']) left pre.length a : Outcome Stop ρ _) = .next a' ∧
      a'.toList = pre ++ todo ++ '\x00' :: junk := by
  induction todo generalizing left pre rest a with
  | nil =>
    obtain ⟨x, post, rfl⟩ : ∃ x post, rest = x :: post := List.exists_cons_of_length_pos hr
    obtain ⟨a', hs, ha'⟩ := store_append (e := Stop.outside) (ρ := ρ) ha '\x00'
    refine ⟨a', post, ?_, by rw [ha', List.append_nil]⟩
    cases left with
    | zero => exact hs
    | succ left => rw [copyFrom, List.append_nil, load_append, next_bind, if_pos rfl, hs]
  | cons c todo ih =>
    obtain ⟨x, post, rfl⟩ : ∃ x post, rest = x :: post := List.exists_cons_of_length_pos (by omega)
    obtain ⟨left, rfl⟩ : ∃ n, left = n + 1 := ⟨left - 1, by simp only [List.length_cons] at hl; omega⟩
    obtain ⟨a', hs, ha'⟩ := store_append (e := Stop.outside) (ρ := ρ) ha c
    simp only [List.length_cons] at hl hr
    have hsplit (t : List Char) : pre ++ c :: t = pre ++ [c] ++ t := by simp
    have hrest : todo.length ≤ left := by omega
    have hnext : a'.toList = pre ++ [c] ++ post := by rw [ha', hsplit]
    obtain ⟨a'', junk, hc, ha''⟩ := ih (fun d hd => hz d (List.mem_cons_of_mem _ hd)) hrest hnext (by omega)
    refine ⟨a'', junk, ?_, by rw [ha'', hsplit todo]⟩
    rw [copyFrom, List.append_assoc, List.cons_append, load_append, next_bind,
      if_neg (hz c List.mem_cons_self), hs, next_bind]
    simpa using hc

theorem myStrncpy_holds (a : Vector Char maxFilenameSize) {s : CString} (h : s.length < maxFilenameSize) :
    ∃ a', (myStrncpy a (bytes s) maxFilenameSize : Outcome Stop ρ _) = .next a' ∧ Holds a'.toList s := by
  have hlen : s.chars.length < maxFilenameSize := h
  have hroom : s.chars.length ≤ maxFilenameSize - 1 := by omega
  have hall : a.toList = [] ++ a.toList := rfl
  obtain ⟨a', junk, hc, ha⟩ := copyFrom_spec (ρ := ρ) (fun c hc => ne_zero_of_mem hc) hroom hall
    (by rwa [Vector.length_toList])
  exact ⟨a', hc, junk, by simpa [CString.bytes] using ha⟩

theorem myStrcmp_spec {as bs : List Char} (ha : ∀ c ∈ as, c ≠ '\x00') (hb : ∀ c ∈ bs, c ≠ '\x00') (junk : List Char) :
    (myStrcmp (as ++ '\x00' :: junk) (bs ++ ['\x00']) : Outcome Stop ρ Bool) = .next (as ≠ bs) := by
  induction as generalizing bs with
  | nil =>
    cases bs with
    | nil => simp [myStrcmp, load]
    | cons b bs => simp [myStrcmp, load, (hb b List.mem_cons_self).symm]
  | cons a as ih =>
    have ha' := ha a List.mem_cons_self
    cases bs with
    | nil => simp [myStrcmp, load, ha']
    | cons b bs =>
      have hb' := hb b List.mem_cons_self
      have hrest := ih (fun c hc => ha c (List.mem_cons_of_mem _ hc)) fun c hc => hb c (List.mem_cons_of_mem _ hc)
      by_cases hab : a = b
      · subst hab
        simpa [myStrcmp, load, ha'] using hrest
      · simp [myStrcmp, load, ha', hb', hab]

theorem Holds.myStrcmp {a : List Char} {s : CString} (h : Holds a s) (n : CString) :
    (myStrcmp a (bytes n) : Outcome Stop ρ Bool) = .next (s ≠ n) := by
  obtain ⟨junk, rfl⟩ := h
  have he : s.chars ≠ n.chars ↔ s ≠ n := not_congr ⟨CString.ext, congrArg _⟩
  rw [CString.bytes, CString.bytes, List.append_assoc, List.cons_append, List.nil_append,
    myStrcmp_spec (fun c hc => ne_zero_of_mem hc) fun c hc => ne_zero_of_mem hc]
  simp only [he]

end Names

section Registry

variable {ρ : Type} {l : List Registration} {r : Registry}

structure Record (f : Registration) (file : File) : Prop where
  name : Holds file.name.toList f.name
  begin : file.begin = f.begin
  «end» : file.end = f.end

/-- The registry after the registrations `l`. -/
structure Registered (l : List Registration) (r : Registry) : Prop where
  count : r.fileCount = l.length
  bound : l.length ≤ maxFilesInInitrd
  record : ∀ i (hi : i < l.length) (h : i < maxFilesInInitrd), Record l[i] r.initrdFiles[i]

theorem registered_nil : Registered [] noFiles := ⟨rfl, by decide, fun _ hi _ => absurd hi (Nat.not_lt_zero _)⟩

theorem Registered.register (h : Registered l r) {f : Registration} (hl : l.length < maxFilesInInitrd)
    (hf : f.name.length < maxFilenameSize) :
    ∃ r', (registerNewFile (bytes f.name) f.begin f.end r : Outcome Stop ρ Registry) = .next r' ∧
      Registered (l ++ [f]) r' := by
  have hc : r.fileCount < maxFilesInInitrd := h.count ▸ hl
  obtain ⟨name, hn, hname⟩ := myStrncpy_holds (ρ := ρ) r.initrdFiles[r.fileCount].name hf
  have hlen : (l ++ [f]).length = l.length + 1 := by simp
  have hcount := h.count
  refine ⟨_, by rw [registerNewFile, dif_pos hc, hn, next_bind], ?_, by omega, ?_⟩
  · simp only [hcount, hlen]
  intro i hi hb
  rw [hlen] at hi
  rcases Nat.lt_succ_iff_lt_or_eq.mp hi with hi | rfl
  · simpa [List.getElem_append_left hi, Vector.getElem_set, hcount, hi.ne'] using h.record i hi hb
  · simp only [Vector.getElem_set, hcount, if_true, List.getElem_concat_length]
    exact ⟨hname, rfl, rfl⟩

theorem Registered.registerAll (h : Registered l r) {l' : List Registration}
    (hl : (l ++ l').length ≤ maxFilesInInitrd) (hf : ∀ f ∈ l', f.name.length < maxFilenameSize) :
    ∃ r', (registerAll l' r : Outcome Stop ρ Registry) = .next r' ∧ Registered (l ++ l') r' := by
  induction l' generalizing l r with
  | nil => exact ⟨r, rfl, by rwa [List.append_nil]⟩
  | cons f l' ih =>
    rw [List.length_append, List.length_cons] at hl
    obtain ⟨r', hr, h'⟩ := h.register (ρ := ρ) (by omega) (hf f List.mem_cons_self)
    obtain ⟨r'', hr', h''⟩ := ih h' (by simp; omega) fun g hg => hf g (List.mem_cons_of_mem _ hg)
    rw [List.append_assoc] at h''
    exact ⟨r'', by rw [InitFs.registerAll, hr, next_bind, hr'], h''⟩

/-- The search has passed the names before index `i`. -/
theorem Registered.search (h : Registered l r) (n : CString) {left i : ℕ} (hi : left + i = l.length)
    (hpast : ∀ j, j < i → ∀ h : j < l.length, l[j].name ≠ n) :
    (forLoop (compareFile (bytes n) r) left i () >>= fun _ => .done none : Outcome Stop (Option ℕ) Unit) =
      .done (l.findIdx? (·.name = n)) := by
  induction left generalizing i with
  | zero =>
    have hnone : l.findIdx? (·.name = n) = none := by
      apply List.findIdx?_eq_none_iff.mpr
      intro f hf
      obtain ⟨j, hj, rfl⟩ := List.getElem_of_mem hf
      exact decide_eq_false (hpast j (by omega) hj)
    rw [forLoop, next_bind, hnone]
  | succ left ih =>
    have hb := h.bound
    have hil : i < l.length := by omega
    rw [forLoop, compareFile, dif_pos (by omega : i < maxFilesInInitrd), (h.record i hil (by omega)).name.myStrcmp, next_bind]
    by_cases he : l[i].name = n
    · have hsome : l.findIdx? (·.name = n) = some i :=
        List.findIdx?_eq_some_iff_getElem.mpr ⟨hil, by simpa using he, fun j hj => by simpa using hpast j hj _⟩
      simp [he, hsome]
    · rw [decide_eq_true he, Bool.not_true, if_neg Bool.false_ne_true, next_bind]
      apply ih (by omega)
      intro j hj hjl
      rcases Nat.lt_succ_iff_lt_or_eq.mp hj with hj | rfl
      · exact hpast j hj hjl
      · exact he

theorem Registered.getFile (h : Registered l r) (n : CString) :
    getFile (bytes n) r = .done (l.findIdx? (·.name = n)) := by
  rw [InitFs.getFile, h.count]
  exact h.search n rfl fun j hj => absurd hj (Nat.not_lt_zero j)

theorem registerNewFile_keeps {name : List Char} {b e : UInt64} {r' : Registry} {i : ℕ} (hi : i < maxFilesInInitrd)
    (hc : i < r.fileCount) (h : (registerNewFile name b e r : Outcome Stop ρ Registry) = .next r') :
    r'.initrdFiles[i] = r.initrdFiles[i] ∧ i < r'.fileCount := by
  rw [registerNewFile] at h
  split at h
  · cases hn : (myStrncpy r.initrdFiles[r.fileCount].name name maxFilenameSize : Outcome Stop ρ _) with
    | next a =>
      rw [hn, next_bind, next.injEq] at h
      subst h
      exact ⟨Vector.getElem_set_ne ‹_› hi hc.ne', Nat.lt_succ_of_lt hc⟩
    | done a => rw [hn, done_bind] at h; cases h
    | fail e => rw [hn, fail_bind] at h; cases h
  · cases h

theorem registerAll_keeps {r' : Registry} {i : ℕ} (hi : i < maxFilesInInitrd) (hc : i < r.fileCount)
    (h : (registerAll l r : Outcome Stop ρ Registry) = .next r') : r'.initrdFiles[i] = r.initrdFiles[i] := by
  induction l generalizing r with
  | nil =>
    cases h
    rfl
  | cons f l ih =>
    rw [registerAll] at h
    cases hr : (registerNewFile (bytes f.name) f.begin f.end r : Outcome Stop ρ _) with
    | next r₁ =>
      obtain ⟨hkeep, hc₁⟩ := registerNewFile_keeps hi hc hr
      rw [hr, next_bind] at h
      rw [ih hc₁ h, hkeep]
    | done a => rw [hr, done_bind] at h; cases h
    | fail e => rw [hr, fail_bind] at h; cases h

end Registry

/-- Up to 32 files with names that fit are all registered; `get_file` finds the first of the name, and later
registrations of any kind leave the records alone. -/
theorem getFile_finds_first (l : List Registration) (hl : l.length ≤ maxFilesInInitrd)
    (hf : ∀ f ∈ l, f.name.length < maxFilenameSize) :
    ∃ r, (registerAll l noFiles : Outcome Stop Empty Registry) = .next r ∧
      (∀ n, getFile (bytes n) r = .done (l.findIdx? (·.name = n))) ∧
      ∀ i (hi : i < l.length) (h : i < maxFilesInInitrd),
        r.initrdFiles[i].begin = l[i].begin ∧ r.initrdFiles[i].end = l[i].end ∧
        ∀ l' r', (registerAll l' r : Outcome Stop Empty Registry) = .next r' →
          r'.initrdFiles[i] = r.initrdFiles[i] := by
  obtain ⟨r, hr, h⟩ := registered_nil.registerAll (ρ := Empty) (show ([] ++ l).length ≤ maxFilesInInitrd from hl) hf
  rw [List.nil_append] at h
  refine ⟨r, hr, h.getFile, fun i hi hb => ⟨(h.record i hi hb).begin, (h.record i hi hb).end, ?_⟩⟩
  intro l' r' hr'
  exact registerAll_keeps hb (h.count ▸ hi) hr'

/-- `init`, `initrd` and a second `init`. -/
def threeFiles : List Registration :=
  [⟨⟨"init".toList, by decide⟩, 1, 2⟩, ⟨⟨"initrd".toList, by decide⟩, 3, 4⟩, ⟨⟨"init".toList, by decide⟩, 5, 6⟩]

theorem getFile_finds_first_three : ∃ r, (registerAll threeFiles noFiles : Outcome Stop Empty Registry) = .next r ∧
    getFile "init\x00".toList r = .done (some 0) ∧ getFile ['\x00'] r = .done none := by
  obtain ⟨r, hr, hfind, -⟩ := getFile_finds_first threeFiles (by decide) (by decide)
  exact ⟨r, hr, hfind ⟨"init".toList, by decide⟩, hfind ⟨[], by decide⟩⟩

theorem launch_myStrcmp {as bs : List Char} : Launch.myStrcmp as bs = decide (as ≠ bs) := by
  induction as generalizing bs with
  | nil => cases bs <;> simp [Launch.myStrcmp]
  | cons a as ih =>
    cases bs with
    | nil => simp [Launch.myStrcmp]
    | cons b bs =>
      by_cases hab : a = b
      · simp [Launch.myStrcmp, hab, ih]
      · simp [Launch.myStrcmp, hab]

/-- The registry refines the list of files that `entry_launch` looks its program up in. -/
theorem Registered.refinesLaunch {l : List Registration} {r : Registry} (h : Registered l r) {files : List Launch.File}
    (hl : l.map (·.name) = files.map (·.name)) (n : CString) :
    ∃ o : Option ℕ, InitFs.getFile (bytes n) r = .done o ∧
      Launch.getFile files n = o.bind fun i => files[i]?.map (·.module) := by
  have hname (f : Launch.File) : (!Launch.myStrcmp f.name.chars n.chars) = decide (f.name = n) := by
    have he : f.name.chars = n.chars ↔ f.name = n := ⟨CString.ext, congrArg _⟩
    simp [launch_myStrcmp, he]
  have hidx : l.findIdx? (·.name = n) = files.findIdx? (·.name = n) := by
    have hl' := congrArg (List.findIdx? (· = n)) hl
    rwa [List.findIdx?_map, List.findIdx?_map] at hl'
  refine ⟨_, h.getFile n, ?_⟩
  simp only [Launch.getFile, hname, hidx, List.find?_eq_bind_findIdx?_getElem?]
  cases files.findIdx? (·.name = n) <;> rfl

end Raccoon.InitFs
