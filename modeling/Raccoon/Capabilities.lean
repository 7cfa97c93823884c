import Mathlib.Data.List.Nodup
import Raccoon.CStrings
import Raccoon.Ownership
import Raccoon.Printing
import Raccoon.Runs

/-!
The capability table and the two system calls on it. Whatever the calls and
whichever cores issue them, the table keeps up with the history of successful
calls: a capability is owned by the core that took it and has not given it
back. But a call logs the name before it looks it up, and a long one is written
behind the buffer of the message.
-/

namespace Raccoon.Capabilities

open Ownership Printing Runs

/-- The name is null in an entry that was not filled; `core_number` is -1 in a free one. -/
structure Capability where
  name : Option CString
  beginAddr : ℕ
  endAddr : ℕ
  coreNumber : ℤ
deriving DecidableEq

/-- The part of `init_capabilities_record` after the table has been read from its file. -/
def initCapabilitiesRecord (framebuffer : CString) (beginAddr endAddr : ℕ) :
    List Capability → Option (List Capability)
  | [] => some []
  | c :: caps => do
    let entry ← c.name
    let c := if secondStrcmp entry.chars framebuffer.chars = 0 then
      { c with beginAddr := beginAddr, endAddr := endAddr } else c
    let caps ← initCapabilitiesRecord framebuffer beginAddr endAddr caps
    some ({ c with coreNumber := -1 } :: caps)

/-- The loop over the table: the first entry of the name gets the core number that `update` says, if any.
A null name on the way is dereferenced. -/
def atNamed (name : CString) (update : ℤ → Option ℤ) : List Capability → Option (List Capability × ℕ)
  | [] => some ([], 0)
  | c :: caps => do
    let entry ← c.name
    if secondStrcmp entry.chars name.chars = 0 then
      match update c.coreNumber with
      | some n => some ({ c with coreNumber := n } :: caps, 1)
      | none => some (c :: caps, 0)
    else
      let (caps, r) ← atNamed name update caps
      some (c :: caps, r)

def getCapability (name : CString) (coreNumber : ℤ) : List Capability → Option (List Capability × ℕ) :=
  atNamed name fun n => if n = -1 then some coreNumber else none

def releaseCapability (name : CString) (coreNumber : ℤ) : List Capability → Option (List Capability × ℕ) :=
  atNamed name fun n => if n = coreNumber then some (-1) else none

/-- The conversion of a core id to the type of `core_number`. -/
def int16 (x : ℕ) : ℤ := Int.bmod x (2 ^ 16)

structure SyscallPack where
  syscallId : ℕ
  arg1 : ℕ
  arg2 : ℕ
  arg3 : ℕ

/-- A system call, with the strings in the memory of its caller, where there are any, and the id of the core it
runs on. -/
structure Syscall where
  pack : SyscallPack
  string : ℕ → Option CString
  coreId : Fin 256

def Syscall.name (call : Syscall) : Option CString := call.string call.pack.arg1

def syscallHandler (call : Syscall) (caps : List Capability) : Option (List Capability × ℕ) := do
  let pack := call.pack
  log parameters [sizeT pack.syscallId, sizeT pack.arg1, sizeT pack.arg2, sizeT pack.arg3]
  if pack.syscallId = 1 then
    let name ← call.name
    log acquiring [.string name]
    getCapability name (int16 call.coreId) caps
  else if pack.syscallId = 2 then
    let name ← call.name
    log releasing [.string name]
    releaseCapability name (int16 call.coreId) caps
  else
    log unknownSyscall [sizeT pack.syscallId]
    some (caps, pack.arg1)

/-- One system call and what it returns. -/
def Answers (caps : List Capability) (x : Syscall × ℕ) (caps' : List Capability) : Prop :=
  syscallHandler x.1 caps = some (caps', x.2)

/-- Every entry has a name of its own. -/
structure Named (caps : List Capability) : Prop where
  filled : ∀ e ∈ caps, e.name ≠ none
  distinct : (caps.map Capability.name).Nodup

def Free (caps : List Capability) (n : CString) : Prop := ∃ e ∈ caps, e.name = some n ∧ e.coreNumber = -1

def Owns (caps : List Capability) (n : CString) (c : Fin 256) : Prop :=
  ∃ e ∈ caps, e.name = some n ∧ e.coreNumber = (c : ℕ)

def assign (n : CString) (core : ℤ) (caps : List Capability) : List Capability :=
  caps.map fun e => if e.name = some n then { e with coreNumber := core } else e

section Table

variable {caps : List Capability} {n m : CString} {core : ℤ}

theorem int16_core (c : Fin 256) : int16 c = (c : ℕ) := by
  have hlt := c.isLt
  exact Int.bmod_eq_of_le (by omega) (by omega)

theorem assign_of_not_mem (h : ∀ e ∈ caps, e.name ≠ some n) : assign n core caps = caps := by
  conv_rhs => rw [← List.map_id caps]
  exact List.map_congr_left fun e he => if_neg (h e he)

theorem initCapabilitiesRecord_free {framebuffer : CString} {b e : ℕ} (hfilled : ∀ c ∈ caps, c.name ≠ none) :
    ∃ caps', initCapabilitiesRecord framebuffer b e caps = some caps' ∧
      caps'.map Capability.name = caps.map Capability.name ∧ ∀ c ∈ caps', c.coreNumber = -1 := by
  induction caps with
  | nil => exact ⟨[], rfl, rfl, by simp⟩
  | cons c caps ih =>
    obtain ⟨entry, hentry⟩ := Option.ne_none_iff_exists'.mp (hfilled c (List.mem_cons_self ..))
    obtain ⟨caps', hrun, hnames, hfree⟩ := ih fun c h => hfilled c (List.mem_cons_of_mem _ h)
    rw [initCapabilitiesRecord, hentry]
    simp only [Option.bind_eq_bind, Option.bind_some, hrun]
    refine ⟨_, rfl, ?_, fun c hc => ?_⟩
    · rw [List.map_cons, List.map_cons, hnames]
      split <;> simp [hentry]
    · rcases List.mem_cons.mp hc with rfl | hc
      · rfl
      · exact hfree c hc

theorem atNamed_cases (hnamed : Named caps) (name : CString) (update : ℤ → Option ℤ) :
    ∃ caps' r, atNamed name update caps = some (caps', r) ∧
      ((∃ e ∈ caps, e.name = some name ∧ ∃ n, update e.coreNumber = some n ∧ r = 1 ∧ caps' = assign name n caps) ∨
        ((∀ e ∈ caps, e.name = some name → update e.coreNumber = none) ∧ r = 0 ∧ caps' = caps)) := by
  induction caps with
  | nil => exact ⟨[], 0, rfl, .inr ⟨by simp, rfl, rfl⟩⟩
  | cons c caps ih =>
    obtain ⟨entry, hentry⟩ := Option.ne_none_iff_exists'.mp (hnamed.filled c (List.mem_cons_self ..))
    have hdistinct := hnamed.distinct
    rw [List.map_cons, List.nodup_cons] at hdistinct
    have hrest : ∀ e ∈ caps, e.name ≠ c.name := fun e he h => hdistinct.1 (h ▸ List.mem_map_of_mem he)
    rw [atNamed, hentry]
    simp only [Option.bind_eq_bind, Option.bind_some, secondStrcmp_iff]
    by_cases he : entry = name
    · subst he
      rw [if_pos rfl]
      cases hu : update c.coreNumber with
      | some n =>
        refine ⟨_, _, rfl, .inl ⟨c, List.mem_cons_self .., hentry, n, hu, rfl, ?_⟩⟩
        have htail : assign entry n caps = caps := assign_of_not_mem fun e he => hentry ▸ hrest e he
        rw [assign, List.map_cons, if_pos hentry]
        exact congrArg₂ List.cons (by rw [hentry]) htail.symm
      | none =>
        refine ⟨_, _, rfl, .inr ⟨fun e hmem hname => ?_, rfl, rfl⟩⟩
        rcases List.mem_cons.mp hmem with rfl | hmem
        · exact hu
        · exact absurd (hname.trans hentry.symm) (hrest e hmem)
    · rw [if_neg he]
      have hne : c.name ≠ some name := fun h => he (Option.some.inj (hentry.symm.trans h))
      obtain ⟨caps', r, hrun, hcases⟩ := ih ⟨fun e h => hnamed.filled e (List.mem_cons_of_mem _ h), hdistinct.2⟩
      rw [hrun]
      refine ⟨_, _, rfl, ?_⟩
      rcases hcases with ⟨e, hmem, hname, n, hu, rfl, rfl⟩ | ⟨hnone, rfl, rfl⟩
      · refine .inl ⟨e, List.mem_cons_of_mem _ hmem, hname, n, hu, rfl, ?_⟩
        rw [assign, assign, List.map_cons, if_neg hne]
      · refine .inr ⟨fun e hmem hname => ?_, rfl, rfl⟩
        rcases List.mem_cons.mp hmem with rfl | hmem
        · exact absurd hname hne
        · exact hnone e hmem hname

theorem named_assign (h : Named caps) : Named (assign n core caps) := by
  have hname (e : Capability) : (if e.name = some n then { e with coreNumber := core } else e).name = e.name := by
    split <;> rfl
  refine ⟨fun e he => ?_, ?_⟩
  · obtain ⟨e', he', rfl⟩ := List.mem_map.mp he
    rw [hname]
    exact h.filled e' he'
  · rw [assign, List.map_map, show Capability.name ∘ _ = Capability.name from funext hname]
    exact h.distinct

theorem coreNumber_assign {k : ℤ} (hmem : ∃ e ∈ caps, e.name = some n) :
    (∃ e ∈ assign n core caps, e.name = some m ∧ e.coreNumber = k) ↔
      (m = n ∧ k = core) ∨ (m ≠ n ∧ ∃ e ∈ caps, e.name = some m ∧ e.coreNumber = k) := by
  simp only [assign, List.mem_map, exists_exists_and_eq_and]
  by_cases hm : m = n
  · subst hm
    simp only [true_and, ne_eq, not_true_eq_false, false_and, or_false]
    constructor
    · rintro ⟨e, -, hname, hcore⟩
      by_cases he : e.name = some m
      · rw [if_pos he] at hcore
        exact hcore.symm
      · rw [if_neg he] at hname
        exact absurd hname he
    · rintro rfl
      obtain ⟨e, he, hname⟩ := hmem
      exact ⟨e, he, by rw [if_pos hname]; exact hname, by rw [if_pos hname]⟩
  · simp only [hm, false_and, ne_eq, not_false_eq_true, true_and, false_or]
    refine exists_congr fun e => and_congr_right fun _ => ?_
    by_cases he : e.name = some n
    · rw [if_pos he]
      simp [he, Ne.symm hm]
    · rw [if_neg he]

theorem coreNumber_other {k : ℤ} (hne : m ≠ n) :
    (∃ e ∈ assign n core caps, e.name = some m ∧ e.coreNumber = k) ↔
      ∃ e ∈ caps, e.name = some m ∧ e.coreNumber = k := by
  by_cases hmem : ∃ e ∈ caps, e.name = some n
  · rw [coreNumber_assign hmem]
    simp [hne]
  · rw [assign_of_not_mem fun e he hname => hmem ⟨e, he, hname⟩]

theorem coreNumber_unique (hnamed : Named caps) {e e' : Capability} (he : e ∈ caps) (he' : e' ∈ caps)
    (h : e.name = e'.name) : e = e' := List.inj_on_of_nodup_map hnamed.distinct he he' h

theorem Free.not_owns (hnamed : Named caps) (h : Free caps n) (c : Fin 256) : ¬ Owns caps n c := by
  rintro ⟨e, he, hname, hcore⟩
  obtain ⟨e', he', hname', hcore'⟩ := h
  obtain rfl := coreNumber_unique hnamed he he' (hname.trans hname'.symm)
  omega

theorem Owns.unique (hnamed : Named caps) {c d : Fin 256} (hc : Owns caps n c) (hd : Owns caps n d) : c = d := by
  obtain ⟨e, he, hname, hcore⟩ := hc
  obtain ⟨e', he', hname', hcore'⟩ := hd
  obtain rfl := coreNumber_unique hnamed he he' (hname.trans hname'.symm)
  omega

end Table

section Calls

variable {caps : List Capability} {n : CString} {h : List (Syscall × ℕ)}

theorem getCapability_cases (hnamed : Named caps) (name : CString) (c : Fin 256) :
    ∃ caps' r, getCapability name (int16 c) caps = some (caps', r) ∧
      ((Free caps name ∧ r = 1 ∧ caps' = assign name (c : ℕ) caps) ∨ (¬ Free caps name ∧ r = 0 ∧ caps' = caps)) := by
  obtain ⟨caps', r, hrun, ⟨e, he, hname, k, hu, hr, hcaps⟩ | ⟨hnone, hr, hcaps⟩⟩ :=
    atNamed_cases hnamed name fun n => if n = -1 then some (int16 c) else none
  · obtain ⟨hfree, hk⟩ := Option.ite_none_right_eq_some.mp hu
    rw [int16_core, Option.some.injEq] at hk
    exact ⟨caps', r, hrun, .inl ⟨⟨e, he, hname, hfree⟩, hr, hk ▸ hcaps⟩⟩
  · refine ⟨caps', r, hrun, .inr ⟨?_, hr, hcaps⟩⟩
    rintro ⟨e, he, hname, hfree⟩
    have := hnone e he hname
    rw [if_pos hfree] at this
    cases this

theorem releaseCapability_cases (hnamed : Named caps) (name : CString) (c : Fin 256) :
    ∃ caps' r, releaseCapability name (int16 c) caps = some (caps', r) ∧
      ((Owns caps name c ∧ r = 1 ∧ caps' = assign name (-1) caps) ∨ (¬ Owns caps name c ∧ r = 0 ∧ caps' = caps)) := by
  obtain ⟨caps', r, hrun, ⟨e, he, hname, k, hu, hr, hcaps⟩ | ⟨hnone, hr, hcaps⟩⟩ :=
    atNamed_cases hnamed name fun n => if n = int16 c then some (-1) else none
  · obtain ⟨hown, hk⟩ := Option.ite_none_right_eq_some.mp hu
    rw [int16_core] at hown
    exact ⟨caps', r, hrun, .inl ⟨⟨e, he, hname, hown⟩, hr, Option.some.inj hk ▸ hcaps⟩⟩
  · refine ⟨caps', r, hrun, .inr ⟨?_, hr, hcaps⟩⟩
    rintro ⟨e, he, hname, hown⟩
    have := hnone e he hname
    rw [if_pos (hown.trans (int16_core c).symm)] at this
    cases this

/-- The name that the system calls 1 and 2 log is a string, and its message fits. -/
def Loggable (call : Syscall) : Prop :=
  call.pack.syscallId = 1 ∨ call.pack.syscallId = 2 → ∃ n, call.name = some n ∧ n.length ≤ 476

theorem syscallHandler_eq (call : Syscall) (caps : List Capability) : syscallHandler call caps =
    if call.pack.syscallId = 1 then
      call.name.bind fun n => if n.length ≤ 476 then getCapability n (int16 call.coreId) caps else none
    else if call.pack.syscallId = 2 then
      call.name.bind fun n => if n.length ≤ 476 then releaseCapability n (int16 call.coreId) caps else none
    else some (caps, call.pack.arg1) := by
  have hlog (format n : CString) (hf : format = acquiring ∨ format = releasing) (k : Option (List Capability × ℕ)) :
      (log format [.string n] >>= fun _ => k) = if n.length ≤ 476 then k else none := by
    by_cases hn : n.length ≤ 476
    · rw [if_pos hn, log_bind ((name_fits_iff hf).mpr hn)]
    · rw [if_neg hn, log_overruns fun h => hn ((name_fits_iff hf).mp h)]
  unfold syscallHandler
  dsimp only
  rw [log_bind (parameters_fit ..)]
  simp only [hlog acquiring _ (.inl rfl), hlog releasing _ (.inr rfl)]
  rw [log_bind (unknownSyscall_fits _)]
  rfl

/-- A call that overruns the buffer has no answer. -/
theorem not_loggable {call : Syscall} (h : ¬ Loggable call) (caps : List Capability) :
    syscallHandler call caps = none := by
  simp only [Loggable, Classical.not_imp, not_exists, not_and] at h
  obtain ⟨hid, hno⟩ := h
  have hnone (k : CString → Option (List Capability × ℕ)) :
      (call.name.bind fun n => if n.length ≤ 476 then k n else none) = none := by
    cases hname : call.name with
    | none => rfl
    | some n => exact if_neg (hno n hname)
  rw [syscallHandler_eq, hnone, hnone]
  rcases hid with h1 | h2
  · rw [if_pos h1]
  · rw [if_neg (by omega), if_pos h2]

/-- What a system call does: it takes a free capability, gives back one of the caller, or changes nothing. -/
inductive Effect (caps : List Capability) (call : Syscall) : List Capability → ℕ → Prop where
  | taken (n : CString) : call.pack.syscallId = 1 → call.name = some n → Free caps n →
      Effect caps call (assign n (call.coreId : ℕ) caps) 1
  | released (n : CString) : call.pack.syscallId = 2 → call.name = some n → Owns caps n call.coreId →
      Effect caps call (assign n (-1) caps) 1
  | refused (n : CString) : call.name = some n → (call.pack.syscallId = 1 → ¬ Free caps n) →
      (call.pack.syscallId = 2 → ¬ Owns caps n call.coreId) →
      (call.pack.syscallId = 1 ∨ call.pack.syscallId = 2) → Effect caps call caps 0
  | unknown : call.pack.syscallId ≠ 1 → call.pack.syscallId ≠ 2 → Effect caps call caps call.pack.arg1

theorem syscallHandler_cases (hnamed : Named caps) {call : Syscall} (hlog : Loggable call) :
    ∃ caps' r, syscallHandler call caps = some (caps', r) ∧ Effect caps call caps' r := by
  rw [syscallHandler_eq]
  by_cases h1 : call.pack.syscallId = 1
  · obtain ⟨n, hname, hn⟩ := hlog (.inl h1)
    rw [if_pos h1, hname, Option.bind_some, if_pos hn]
    obtain ⟨caps', r, hrun, ⟨hfree, rfl, rfl⟩ | ⟨hfree, rfl, rfl⟩⟩ := getCapability_cases hnamed n call.coreId
    · exact ⟨_, _, hrun, .taken n h1 hname hfree⟩
    · exact ⟨_, _, hrun, .refused n hname (fun _ => hfree) (fun h2 => by omega) (.inl h1)⟩
  rw [if_neg h1]
  by_cases h2 : call.pack.syscallId = 2
  · obtain ⟨n, hname, hn⟩ := hlog (.inr h2)
    rw [if_pos h2, hname, Option.bind_some, if_pos hn]
    obtain ⟨caps', r, hrun, ⟨hown, rfl, rfl⟩ | ⟨hown, rfl, rfl⟩⟩ := releaseCapability_cases hnamed n call.coreId
    · exact ⟨_, _, hrun, .released n h2 hname hown⟩
    · exact ⟨_, _, hrun, .refused n hname (fun h => absurd h h1) (fun _ => hown) (.inr h2)⟩
  rw [if_neg h2]
  exact ⟨caps, _, rfl, .unknown h1 h2⟩

theorem loggable_of_answers {x : Syscall × ℕ} {caps' : List Capability} (h : Answers caps x caps') :
    Loggable x.1 := by
  by_contra hno
  cases (not_loggable hno caps).symm.trans h

/-- What a system call and its answer mean for the owners. -/
def event : Syscall × ℕ → Option (Event CString (Fin 256))
  | (call, r) => call.name.bind fun n =>
    if r = 1 ∧ call.pack.syscallId = 1 then some (.acquire n call.coreId)
    else if r = 1 ∧ call.pack.syscallId = 2 then some (.release n call.coreId)
    else none

def events (h : List (Syscall × ℕ)) : List (Event CString (Fin 256)) := h.filterMap event

theorem Free.mem (h : Free caps n) : ∃ e ∈ caps, e.name = some n :=
  let ⟨e, he, hname, _⟩ := h
  ⟨e, he, hname⟩

theorem Owns.mem {c : Fin 256} (h : Owns caps n c) : ∃ e ∈ caps, e.name = some n :=
  let ⟨e, he, hname, _⟩ := h
  ⟨e, he, hname⟩

theorem event_quiet {call : Syscall} {r : ℕ}
    (h : r = 0 ∨ (call.pack.syscallId ≠ 1 ∧ call.pack.syscallId ≠ 2)) : event (call, r) = none := by
  rw [event]
  cases call.name with
  | none => rfl
  | some n => rw [Option.bind_some, if_neg (by omega), if_neg (by omega)]

theorem run_keeps {caps₀ : List Capability} (hnamed : Named caps₀) (hfree : ∀ e ∈ caps₀, e.coreNumber = -1)
    (hrun : Run Answers caps₀ h caps) : Named caps ∧ Keeps (Owns caps) (events h) := by
  refine hrun.invariant (fun h caps => Named caps ∧ Keeps (Owns caps) (events h)) ⟨hnamed, keeps_nil ?_⟩ ?_
  · rintro n c ⟨e, he, -, hcore⟩
    have := hfree e he
    omega
  · rintro h caps ⟨call, r⟩ caps' ⟨hn, hk⟩ hcall
    have hlog : Loggable call := loggable_of_answers hcall
    obtain ⟨caps'', r', hcall', heffect⟩ := syscallHandler_cases hn hlog
    obtain ⟨rfl, rfl⟩ := Prod.mk.inj (Option.some.inj (hcall.symm.trans hcall'))
    have hevents : events (h ++ [(call, r)]) = events h ++ (event (call, r)).toList := by
      rw [events, List.filterMap_append, List.filterMap_cons]
      cases event (call, r) <;> rfl
    rw [hevents]
    cases heffect with
    | taken n h1 hname hf =>
      refine ⟨named_assign hn, ?_⟩
      rw [event, hname, Option.bind_some, if_pos ⟨rfl, h1⟩]
      refine hk.acquire (hf.not_owns hn) fun n c => (coreNumber_assign hf.mem).trans ?_
      constructor
      · rintro (⟨rfl, hc⟩ | ⟨-, ho⟩)
        · exact .inl ⟨rfl, by omega⟩
        · exact .inr ho
      · rintro (⟨rfl, rfl⟩ | ho)
        · exact .inl ⟨rfl, rfl⟩
        · refine .inr ⟨?_, ho⟩
          rintro rfl
          exact hf.not_owns hn c ho
    | released n h2 hname ho =>
      refine ⟨named_assign hn, ?_⟩
      rw [event, hname, Option.bind_some, if_neg (by omega), if_pos ⟨rfl, h2⟩]
      refine hk.release ho fun n c => (coreNumber_assign ho.mem).trans ?_
      constructor
      · rintro (⟨-, hc⟩ | ⟨hne, ho⟩)
        · omega
        · exact ⟨ho, fun h => hne h.1⟩
      · rintro ⟨ho', hne⟩
        refine .inr ⟨?_, ho'⟩
        rintro rfl
        exact hne ⟨rfl, ho'.unique hn ho⟩
    | refused =>
      rw [event_quiet (.inl rfl), Option.toList_none, List.append_nil]
      exact ⟨hn, hk⟩
    | unknown h1 h2 =>
      rw [event_quiet (.inr ⟨h1, h2⟩), Option.toList_none, List.append_nil]
      exact ⟨hn, hk⟩

/-- A call gets the answer that the owners give it, and what it changes is the owner of its name. -/
structure AnswersRight (caps : List Capability) (call : Syscall) (caps' : List Capability) (r : ℕ) : Prop where
  get : call.pack.syscallId = 1 → ∃ n, call.name = some n ∧ (r = 0 ∨ r = 1) ∧ (r = 1 ↔ Free caps n) ∧
    (r = 1 → Owns caps' n call.coreId)
  release : call.pack.syscallId = 2 → ∃ n, call.name = some n ∧ (r = 0 ∨ r = 1) ∧
    (r = 1 ↔ Owns caps n call.coreId) ∧ (r = 1 → Free caps' n)
  refused : r = 0 → caps' = caps
  others : ∀ n, call.name ≠ some n → (∀ c, Owns caps' n c ↔ Owns caps n c) ∧ (Free caps' n ↔ Free caps n)

theorem Effect.answersRight {call : Syscall} {caps' : List Capability} {r : ℕ} (h : Effect caps call caps' r) :
    AnswersRight caps call caps' r := by
  cases h with
  | taken n h1 hname hf =>
    have howner : Owns (assign n (call.coreId : ℕ) caps) n call.coreId := (coreNumber_assign hf.mem).mpr (.inl ⟨rfl, rfl⟩)
    refine ⟨fun _ => ⟨n, hname, .inr rfl, ⟨fun _ => hf, fun _ => rfl⟩, fun _ => howner⟩, fun h2 => by omega,
      fun h => by omega, fun m hm => ?_⟩
    have hne : m ≠ n := fun he => hm (he ▸ hname)
    exact ⟨fun c => coreNumber_other hne, coreNumber_other hne⟩
  | released n h2 hname ho =>
    have hfree : Free (assign n (-1) caps) n := (coreNumber_assign ho.mem).mpr (.inl ⟨rfl, rfl⟩)
    refine ⟨fun h1 => by omega, fun _ => ⟨n, hname, .inr rfl, ⟨fun _ => ho, fun _ => rfl⟩, fun _ => hfree⟩,
      fun h => by omega, fun m hm => ?_⟩
    have hne : m ≠ n := fun he => hm (he ▸ hname)
    exact ⟨fun c => coreNumber_other hne, coreNumber_other hne⟩
  | refused n hname hget hrelease _ =>
    exact ⟨fun h1 => ⟨n, hname, .inl rfl, ⟨fun h => by omega, fun hf => absurd hf (hget h1)⟩, fun h => by omega⟩,
      fun h2 => ⟨n, hname, .inl rfl, ⟨fun h => by omega, fun ho => absurd ho (hrelease h2)⟩, fun h => by omega⟩,
      fun _ => rfl, fun _ _ => ⟨fun _ => Iff.rfl, Iff.rfl⟩⟩
  | unknown h1 h2 =>
    exact ⟨fun h => absurd h h1, fun h => absurd h h2, fun _ => rfl, fun _ _ => ⟨fun _ => Iff.rfl, Iff.rfl⟩⟩

end Calls

end Raccoon.Capabilities
