import Raccoon.Capabilities
import Raccoon.InterruptDispatch

/-!
System calls from the `syscall` instruction of user code over the stub and
`arch_syscall_handler` to the table of capabilities and back. The kernel goes on
with the stack of the caller and with the names in its memory, and has nothing to
fall back on where these are not mapped.
-/

namespace Raccoon.SystemCalls

open Capabilities DescriptorTables Instructions Ownership Runs StackMachine

/-- The cores share the table of capabilities. -/
abbrev Core := Cpu (List Capability)

section Code

def msrLstar : ℕ := 0xC0000082
def msrSyscallFlagMask : ℕ := 0xC0000084

/-- `wrmsr` and `rdmsr` have a register for each half. -/
def asmWriteMsr (n : ℕ) (value : BitVec 64) (msr : ℕ → BitVec 64) : ℕ → BitVec 64 :=
  let low := value.setWidth 32
  let high := (value >>> 32).setWidth 32
  Function.update msr n (high ++ low)

def asmReadMsr (n : ℕ) (msr : ℕ → BitVec 64) : BitVec 64 :=
  let low := (msr n).extractLsb' 0 32
  let high := (msr n).extractLsb' 32 32
  (high.setWidth 64 <<< 32) ||| low.setWidth 64

def syscallInitialize (stub : BitVec 64) (msr : ℕ → BitVec 64) : ℕ → BitVec 64 :=
  let msr := asmWriteMsr msrEfer (asmReadMsr msrEfer msr ||| 1) msr
  let msr := asmWriteMsr msrStar ((BitVec.ofNat 64 (gdtKernelCode * 8) <<< 32) |||
    (BitVec.ofNat 64 (((gdtUserData - 1) * 8) ||| gdtUserCode) <<< 48)) msr
  let msr := asmWriteMsr msrLstar stub msr
  asmWriteMsr msrSyscallFlagMask 0 msr

def saveRegs : List (Instr Unit) :=
  [.push .rbx, .push .rcx, .push .rdx, .push .rsi, .push .rdi, .push .rbp, .push .r8, .push .r9, .push .r10,
    .push .r11, .push .r12, .push .r13, .push .r14, .push .r15]

def popRegs : List (Instr Unit) :=
  [.pop .r15, .pop .r14, .pop .r13, .pop .r12, .pop .r11, .pop .r10, .pop .r9, .pop .r8, .pop .rbp, .pop .rdi,
    .pop .rsi, .pop .rdx, .pop .rcx, .pop .rbx]

def syscallStub : List (Instr Unit) := [.subRsp 128] ++ saveRegs ++ [.call ()] ++ popRegs ++ [.addRsp 128, .sysret]

/-- The `syscall` instruction, with `rip` behind it. -/
def enter (c : Core) : Option Core :=
  let base := (c.msr msrStar).extractLsb' 32 16
  if (c.msr msrEfer).getLsbD 0 then
    some { c with
      reg := Function.update (Function.update c.reg .rcx c.rip) .r11 c.rflags
      rip := c.msr msrLstar
      cs := base &&& 0xFFFC
      ss := base + 8
      rflags := c.rflags &&& ~~~ c.msr msrSyscallFlagMask }
  else none

/-- The registers that `arch_syscall_handler` reads. -/
def pack (reg : Reg → BitVec 64) : SyscallPack :=
  ⟨(reg .r15).toNat, (reg .rdi).toNat, (reg .rsi).toNat, (reg .r8).toNat⟩

theorem byte_ne_nul : ∀ b : BitVec 8, b ≠ 0 → '\x00' ≠ Char.ofNat b.toNat := by decide

/-- The pages of a caller, as the kernel finds them mapped. What can be written can be read. -/
structure Mapping where
  readable : ℕ → Bool
  writable : ℕ → Bool

/-- The string at an address, in `n` bytes at most. A byte that is not mapped cannot be read. -/
def stringAt (readable : ℕ → Bool) (mem : Memory) : ℕ → ℕ → Option CString
  | 0, _ => none
  | n + 1, a =>
    if readable a then
      if h : mem a = 0 then some ⟨[], List.not_mem_nil⟩
      else (stringAt readable mem n (a + 1)).map fun s => ⟨Char.ofNat (mem a).toNat :: s.chars, by
        rw [List.mem_cons, not_or]
        exact ⟨byte_ne_nul _ h, s.nonzero⟩⟩
    else none

-- what compiled code does besides, the stack that it takes for that, and the memory of the caller that is mapped
variable (work : Core → Core) (depth : ℕ) (mapped : Mapping)

/-- A system call with the registers and the memory of its caller. -/
def request (core : Fin 256) (reg : Reg → BitVec 64) (mem : Memory) : Syscall :=
  ⟨pack reg, stringAt mapped.readable mem (2 ^ 64), core⟩

def archSyscallHandler (core : Fin 256) (c : Core) : Option Core :=
  (syscallHandler (request mapped core c.reg c.mem) c.world).map fun x =>
    let c := work c
    { c with reg := Function.update c.reg .rax (BitVec.ofNat 64 x.2), world := x.1 }

/-- The stack below the red zone of the caller can be written, for the registers and for the handler. -/
def StackMapped (sp : ℕ) : Prop := ∀ x < 112 + depth, mapped.writable (sp - 240 - depth + x) = true

instance (sp : ℕ) : Decidable (StackMapped depth mapped sp) := inferInstanceAs (Decidable (∀ x < 112 + depth, _))

/-- A system call of a core, where the stub is found at its address only. The kernel does not come back from a fault on
the stack. -/
def systemCall (stub : BitVec 64) (core : Fin 256) (c : Core) : Option Core :=
  (enter c).bind fun e =>
    if e.rip = stub ∧ StackMapped depth mapped e.sp then
      run (fun _ => archSyscallHandler work mapped core) InterruptDispatch.codeSelector syscallStub e
    else none

end Code

section Msrs

variable {n m : ℕ} {msr : ℕ → BitVec 64} {stub value : BitVec 64}

theorem asmWriteMsr_eq : asmWriteMsr n value msr = Function.update msr n value := by
  rw [asmWriteMsr]
  congr 1
  apply BitVec.eq_of_getLsbD_eq
  intro i hi
  simp only [BitVec.getLsbD_append, BitVec.getLsbD_setWidth, BitVec.getLsbD_ushiftRight]
  by_cases h : i < 32
  · simp [h]
  · have hlt : i - 32 < 32 := by omega
    have hback : 32 + (i - 32) = i := by omega
    simp [h, hlt, hback]

theorem asmReadMsr_eq : asmReadMsr n msr = msr n := by
  apply BitVec.eq_of_getLsbD_eq
  intro i hi
  simp only [asmReadMsr, BitVec.getLsbD_or, BitVec.getLsbD_shiftLeft, BitVec.getLsbD_setWidth, BitVec.getLsbD_extractLsb']
  by_cases h : i < 32
  · simp [h, hi]
  · have hlt : i - 32 < 32 := by omega
    have hlt' : i - 32 < 64 := by omega
    have hback : 32 + (i - 32) = i := by omega
    simp [h, hlt, hlt', hback, hi]

theorem syscallInitialize_efer : (syscallInitialize stub msr msrEfer).getLsbD 0 = true := by
  simp [syscallInitialize, asmWriteMsr_eq, msrEfer, msrStar, msrLstar, msrSyscallFlagMask]

theorem syscallInitialize_star : syscallInitialize stub msr msrStar = 0x1D000800000000 := by
  simp [syscallInitialize, asmWriteMsr_eq, msrEfer, msrStar, msrLstar, msrSyscallFlagMask,
    gdtKernelCode, gdtUserData, gdtUserCode]

theorem syscallInitialize_lstar : syscallInitialize stub msr msrLstar = stub := by
  simp [syscallInitialize, asmWriteMsr_eq, msrLstar, msrSyscallFlagMask]

theorem syscallInitialize_mask : syscallInitialize stub msr msrSyscallFlagMask = 0 := by
  simp [syscallInitialize, asmWriteMsr_eq]

end Msrs

section Calls

/-- Compiled code keeps the stack from its pointer upwards, and the model specific registers. -/
structure Polite (work : Core → Core) : Prop where
  sp : ∀ c, (work c).sp = c.sp
  above : ∀ c x, c.sp ≤ x → (work c).mem x = c.mem x
  msr : ∀ c, (work c).msr = c.msr

/-- The stack has room for the red zone and the registers. -/
def Room (c : Core) : Prop := 240 ≤ c.sp

/-- A call with an answer, and the processor behind it: only `rax`, `rcx`, `r11` and the flags have changed of what
user code sees, and what lies below its red zone. -/
structure Answered (c : Core) (caps : List Capability) (r : ℕ) (c' : Core) : Prop where
  rax : c'.reg .rax = BitVec.ofNat 64 r
  rcx : c'.reg .rcx = c.rip
  r11 : c'.reg .r11 = c.rflags
  reg : ∀ q, q ≠ .rax → q ≠ .rcx → q ≠ .r11 → c'.reg q = c.reg q
  sp : c'.sp = c.sp
  above : ∀ x, c.sp - 128 ≤ x → c'.mem x = c.mem x
  rip : c'.rip = c.rip
  cs : c'.cs = 0x2F
  ss : c'.ss = 0x27
  rflags : c'.rflags = (c.rflags &&& 0x3C7FD7) ||| 2
  msr : c'.msr = c.msr
  world : c'.world = caps

variable {work : Core → Core} {depth : ℕ} {mapped : Mapping} {stub : BitVec 64} {core : Fin 256} {c e : Core}
  {msr : ℕ → BitVec 64} {caps : List Capability} {r : ℕ}

/-- The registers from the lowest address upwards. -/
def frameRegs : List Reg := [.r15, .r14, .r13, .r12, .r11, .r10, .r9, .r8, .rbp, .rdi, .rsi, .rdx, .rcx, .rbx]

theorem mem_frameRegs (q : Reg) : q ∈ frameRegs ↔ q ≠ .rax := by
  cases q <;> decide

/-- The processor as the handler finds it. -/
def atCall (e : Core) : Core :=
  { e with toStack := pushAll { e.toStack with sp := e.sp - 128 } (frameRegs.reverse.map e.reg) }

theorem atCall_sp : (atCall e).sp = e.sp - 240 := by
  have hsp : (atCall e).sp = e.sp - 128 - 8 * (frameRegs.reverse.map e.reg).length := pushAll_sp
  have hlen : (frameRegs.reverse.map e.reg).length = 14 := rfl
  omega

theorem atCall_reg : (atCall e).reg = e.reg := pushAll_reg

theorem atCall_mem (hroom : Room e) {x : ℕ} (hx : x < e.sp - 240 ∨ e.sp - 128 ≤ x) : (atCall e).mem x = e.mem x := by
  have hlen : (frameRegs.reverse.map e.reg).length = 14 := rfl
  rcases hx with hx | hx
  · exact pushAll_below (s := { e.toStack with sp := e.sp - 128 }) (by dsimp only; omega)
  · rw [Room] at hroom
    exact pushAll_above (s := { e.toStack with sp := e.sp - 128 }) (by dsimp only; omega) hx

/-- The stub gives the handler the registers and runs to its end behind it. -/
theorem run_syscallStub {call : Unit → Core → Option Core} {selectable : BitVec 16 → Bool} :
    run call selectable syscallStub e =
      (call () (atCall e)).bind (run call selectable (popRegs ++ [.addRsp 128, .sysret])) := by
  have hsave : saveRegs = frameRegs.reverse.map .push := rfl
  rw [syscallStub, List.append_assoc, List.append_assoc, List.append_assoc, hsave, List.singleton_append, run_cons,
    Instructions.exec, Option.bind_some, run_append, run_pushes, Option.bind_some, List.singleton_append, run_cons,
    Instructions.exec, atCall]

/-- The end of the stub. -/
theorem run_back {call : Unit → Core → Option Core} {selectable : BitVec 16 → Bool} {d : Core}
    (hefer : (d.msr msrEfer).getLsbD 0 = true) (hstar : d.msr msrStar = 0x1D000800000000) :
    run call selectable (popRegs ++ [.addRsp 128, .sysret]) d =
      if Mmu.canonical ((popAll d.toStack frameRegs).reg .rcx).toNat then some
        { d with
          toStack := { popAll d.toStack frameRegs with sp := d.sp + 240 }
          rip := (popAll d.toStack frameRegs).reg .rcx
          cs := 0x2F
          rflags := ((popAll d.toStack frameRegs).reg .r11 &&& 0x3C7FD7) ||| 2
          ss := 0x27 }
      else none := by
  have hpop : popRegs = frameRegs.map .pop := rfl
  rw [run_append, hpop, run_pops, Option.bind_some, run_cons, Instructions.exec, Option.bind_some,
    run_cons, Instructions.exec]
  dsimp only
  rw [hstar, hefer, popAll_sp, popAll_mem]
  by_cases hcanonical : Mmu.canonical ((popAll d.toStack frameRegs).reg .rcx).toNat = true
  · rw [if_pos ⟨rfl, hcanonical⟩, if_pos hcanonical]
    rfl
  · rw [if_neg fun h => hcanonical h.2, if_neg hcanonical]
    rfl

/-- The processor behind the instruction `syscall`. -/
def entered (c : Core) (stub : BitVec 64) : Core :=
  { c with
    reg := Function.update (Function.update c.reg .rcx c.rip) .r11 c.rflags
    rip := stub
    cs := 8
    ss := 16 }

theorem enter_eq (hmsr : c.msr = syscallInitialize stub msr) : enter c = some (entered c stub) := by
  have hflags : c.rflags &&& ~~~ (0 : BitVec 64) = c.rflags := by
    change c.rflags &&& ~~~ 0#64 = c.rflags
    rw [BitVec.not_zero, BitVec.and_allOnes]
  have hcs : BitVec.extractLsb' 32 16 (0x1D000800000000 : BitVec 64) &&& 0xFFFC = 8 := by decide
  have hss : BitVec.extractLsb' 32 16 (0x1D000800000000 : BitVec 64) + 8 = 16 := by decide
  rw [enter, hmsr, syscallInitialize_efer, syscallInitialize_star, syscallInitialize_lstar, syscallInitialize_mask,
    if_pos rfl, hflags, hcs, hss, entered, hmsr]

theorem pack_entered : pack (entered c stub).reg = pack c.reg := rfl

/-- What the processor goes on with behind an answer. -/
def behind (work : Core → Core) (e : Core) (x : List Capability × ℕ) : Core :=
  let t := work (atCall e)
  let s := popAll { t.toStack with reg := Function.update t.reg .rax (BitVec.ofNat 64 x.2) } frameRegs
  { t with
    toStack := { s with sp := t.sp + 240 }
    world := x.1
    rip := s.reg .rcx
    cs := 0x2F
    rflags := (s.reg .r11 &&& 0x3C7FD7) ||| 2
    ss := 0x27 }

variable {x : List Capability × ℕ}

theorem behind_mem : (behind work e x).mem = (work (atCall e)).mem := popAll_mem

theorem behind_rax : (behind work e x).reg .rax = BitVec.ofNat 64 x.2 := by
  have hrax : Reg.rax ∉ frameRegs := by decide
  rw [behind]
  dsimp only
  rw [popAll_reg_of_not_mem hrax]
  dsimp only
  rw [Function.update_self]

theorem behind_rip : (behind work e x).rip = (behind work e x).reg .rcx := rfl

theorem behind_rflags : (behind work e x).rflags = ((behind work e x).reg .r11 &&& 0x3C7FD7) ||| 2 := rfl

theorem behind_reg (hwork : Polite work) (hroom : Room e) : ∀ q ∈ frameRegs, (behind work e x).reg q = e.reg q := by
  refine popAll_pushAll (s := { e.toStack with sp := e.sp - 128 }) (by decide) ?_ ?_ ?_
  · have hlen : frameRegs.length = 14 := rfl
    rw [Room] at hroom
    dsimp only
    omega
  · exact hwork.sp _
  · intro y hy
    exact hwork.above _ y (Nat.le_trans (Nat.le_of_eq (hwork.sp _).symm) hy)

/-- A system call is answered if the stack is mapped, the handler answers, and the address behind the instruction is
canonical. -/
theorem systemCall_eq (hmsr : c.msr = syscallInitialize stub msr) (hwork : Polite work) (hroom : Room c) :
    systemCall work depth mapped stub core c =
      if StackMapped depth mapped c.sp then
        (syscallHandler (request mapped core c.reg (atCall (entered c stub)).mem) c.world).bind fun x =>
          if Mmu.canonical c.rip.toNat then some (behind work (entered c stub) x) else none
      else none := by
  have hrequest : request mapped core (atCall (entered c stub)).reg (atCall (entered c stub)).mem =
      request mapped core c.reg (atCall (entered c stub)).mem := by
    rw [request, atCall_reg, pack_entered, request]
  have hworld : (atCall (entered c stub)).world = c.world := rfl
  have hkept : (work (atCall (entered c stub))).msr = syscallInitialize stub msr := (hwork.msr _).trans hmsr
  rw [systemCall, enter_eq hmsr, Option.bind_some]
  by_cases hmapped : StackMapped depth mapped c.sp
  · rw [if_pos hmapped, if_pos ⟨rfl, hmapped⟩, run_syscallStub, archSyscallHandler, hrequest, hworld]
    cases syscallHandler (request mapped core c.reg (atCall (entered c stub)).mem) c.world with
    | none => rfl
    | some x =>
      have hrcx : (behind work (entered c stub) x).reg .rcx = c.rip :=
        (behind_reg hwork (e := entered c stub) hroom .rcx (by decide)).trans rfl
      rw [Option.map_some, Option.bind_some, Option.bind_some, run_back]
      · rw [← hrcx]
        rfl
      · dsimp only
        rw [hkept, syscallInitialize_efer]
      · dsimp only
        rw [hkept, syscallInitialize_star]
  · rw [if_neg hmapped, if_neg fun h => hmapped h.2]

theorem behind_above (hwork : Polite work) (hroom : Room e) {y : ℕ} (hy : e.sp - 128 ≤ y) :
    (behind work e x).mem y = e.mem y := by
  have hle : (atCall e).sp ≤ y := by
    rw [atCall_sp]
    omega
  rw [behind_mem, hwork.above _ y hle, atCall_mem hroom (.inr hy)]

theorem answered_behind (hwork : Polite work) (hroom : Room c) (x : List Capability × ℕ) :
    Answered c x.1 x.2 (behind work (entered c stub) x) := by
  have hroom' : Room (entered c stub) := hroom
  have hreg (q : Reg) (hq : q ≠ .rax) : (behind work (entered c stub) x).reg q = (entered c stub).reg q :=
    behind_reg hwork hroom' q ((mem_frameRegs q).mpr hq)
  have hr11 := hreg .r11 (by decide)
  have hsp : (behind work (entered c stub) x).sp = (atCall (entered c stub)).sp + 240 :=
    congrArg (fun n => n + 240) (hwork.sp _)
  have hsp' : (atCall (entered c stub)).sp = c.sp - 240 := atCall_sp
  rw [Room] at hroom
  exact {
    rax := behind_rax
    rcx := hreg .rcx (by decide)
    r11 := hr11
    reg := fun q hrax hrcx hr11 => by
      rw [hreg q hrax, entered]
      dsimp only
      rw [Function.update_of_ne hr11, Function.update_of_ne hrcx]
    sp := by omega
    above := fun y hy => behind_above hwork hroom' hy
    rip := behind_rip.trans (hreg .rcx (by decide))
    cs := rfl
    ss := rfl
    rflags := by
      rw [behind_rflags, hr11]
      rfl
    msr := hwork.msr _
    world := rfl }

/-- Memory as a call finds it: the stub has pushed registers below the red zone. -/
def SeenBy (c : Core) (m : Memory) : Prop := ∀ x, x < c.sp - 240 ∨ c.sp - 128 ≤ x → m x = c.mem x

theorem seenBy_atCall (hroom : Room c) : SeenBy c (atCall (entered c stub)).mem := fun _ hx =>
  atCall_mem (e := entered c stub) hroom hx

theorem disk_noNul : '\x00' ∉ ['d', 'i', 's', 'k'] := by decide

def disk : CString := ⟨['d', 'i', 's', 'k'], disk_noNul⟩

/-- The name is stored at 0x2000. -/
def takerMemory : Memory := fun x =>
  if x = 0x2000 then 0x64 else if x = 0x2001 then 0x69 else if x = 0x2002 then 0x73 else if x = 0x2003 then 0x6B else 0

/-- A processor that asks for the capability of that name. -/
def taker : Core :=
  ⟨⟨Function.update (Function.update (fun _ => 0) .r15 1) .rdi 0x2000, 0x1000, takerMemory⟩, 1, 0x2B, 0x23, 0,
    syscallInitialize 0x1000 fun _ => 0, [⟨some disk, 0, 0, -1⟩]⟩

/-- The stack lies below 0x1000 and the name in the page at 0x2000, which is only read. -/
def takerMapped : Mapping := ⟨fun x => x < 0x1000 || (0x2000 ≤ x && x < 0x3000), fun x => x < 0x1000⟩

theorem named_disk : Named [⟨some disk, 0, 0, -1⟩] := ⟨by simp, by simp⟩

theorem id_polite : Polite id := ⟨fun _ => rfl, fun _ _ _ => rfl, fun _ => rfl⟩

theorem room_taker : Room taker := by
  rw [Room]
  decide

theorem stackMapped_taker : StackMapped 512 takerMapped taker.sp := by
  intro x hx
  have hsp : taker.sp = 0x1000 := rfl
  rw [hsp]
  exact decide_eq_true (by omega)

/-- The stub does not reach the name. -/
theorem name_taker (m : Memory) (hm : SeenBy taker m) : (request takerMapped 3 taker.reg m).name = some disk := by
  have hmem (x : ℕ) (hx : 0x2000 ≤ x) : m x = takerMemory x := by
    have hlow : taker.sp - 128 ≤ 0x2000 := by decide
    exact hm x (.inr (Nat.le_trans hlow hx))
  have h0 : m 0x2000 = 0x64 := hmem _ (by decide)
  have h1 : m 0x2001 = 0x69 := hmem _ (by decide)
  have h2 : m 0x2002 = 0x73 := hmem _ (by decide)
  have h3 : m 0x2003 = 0x6B := hmem _ (by decide)
  have h4 : m 0x2004 = 0 := hmem _ (by decide)
  have hfuel : 2 ^ 64 = (2 ^ 64 - 5) + 1 + 1 + 1 + 1 + 1 := by decide
  have harg : (pack taker.reg).arg1 = 0x2000 := by decide
  rw [Syscall.name, request, harg, hfuel]
  simp only [stringAt, h0, h1, h2, h3, h4]
  rfl

theorem loggable_taker (m : Memory) (hm : SeenBy taker m) : Loggable (request takerMapped 3 taker.reg m) :=
  fun _ => ⟨disk, name_taker m hm, by decide⟩

end Calls

section Machines

/-- The cores of a machine, the memory that each has mapped, and the table they share. -/
structure Machine where
  cpus : Fin 256 → Cpu Unit
  mapped : Fin 256 → Mapping
  caps : List Capability

/-- What the processor of a core and the kernel see of the machine. -/
def Machine.core (s : Machine) (i : Fin 256) : Core :=
  let c := s.cpus i
  ⟨c.toStack, c.rip, c.cs, c.ss, c.rflags, c.msr, s.caps⟩

def Machine.leave (s : Machine) (i : Fin 256) (c : Core) : Machine :=
  { s with
    cpus := Function.update s.cpus i ⟨c.toStack, c.rip, c.cs, c.ss, c.rflags, c.msr, ()⟩
    caps := c.world }

/-- A system call: the core and what it has mapped, before and after. -/
structure Call where
  core : Fin 256
  mapped : Mapping
  before : Core
  after : Core

/-- Between the system calls user code does on all cores what it can without privileges, and the kernel may map memory.
A system call is one step: the handler does not lock the table of capabilities, so nothing may come in between. -/
abbrev Move := Option Call

def Step (work : Core → Core) (depth : ℕ) (stub : BitVec 64) (s : Machine) (a : Move) (s' : Machine) : Prop :=
  (a = none ∧ s'.caps = s.caps ∧ ∀ i, (s'.cpus i).msr = (s.cpus i).msr) ∨
  ∃ i c', a = some ⟨i, s.mapped i, s.core i, c'⟩ ∧ Room (s.core i) ∧
    systemCall work depth (s.mapped i) stub i (s.core i) = some c' ∧ s' = s.leave i c'

/-- A system call as the core that made it sees it, and as the handler does. -/
structure Made (x : Call) (y : Syscall × ℕ) : Prop where
  request : ∃ m, SeenBy x.before m ∧ y.1 = request x.mapped x.core x.before.reg m
  rax : (x.after.reg .rax).toNat = y.2
  answered : Answered x.before x.after.world y.2 x.after

variable {work : Core → Core} {depth : ℕ} {stub : BitVec 64} {s s₀ s' : Machine} {h : List Move}
  {caps caps' : List Capability} {reg : Reg → BitVec 64} {call : Syscall} {r : ℕ} {a : Move}

theorem answer_lt (hnamed : Named caps) (hpack : call.pack = pack reg)
    (hcall : syscallHandler call caps = some (caps', r)) : r < 2 ^ 64 := by
  have hlog : Loggable call := loggable_of_answers (x := (call, r)) hcall
  obtain ⟨_, _, hcall', heffect⟩ := syscallHandler_cases hnamed hlog
  obtain ⟨rfl, rfl⟩ := Prod.mk.inj (Option.some.inj (hcall.symm.trans hcall'))
  cases heffect with
  | taken => decide
  | released => decide
  | refused => decide
  | unknown =>
    rw [hpack]
    exact (reg .rdi).isLt

/-- What every step keeps. -/
structure Inv (stub : BitVec 64) (caps₀ : List Capability) (h : List Move) (s : Machine) : Prop where
  msr : ∀ i, ∃ msr, (s.cpus i).msr = syscallInitialize stub msr
  calls : ∃ calls, List.Forall₂ Made (h.filterMap id) calls ∧ Run Answers caps₀ calls s.caps

/-- The system call of a core is a call of the handler. -/
theorem made_of_systemCall {i : Fin 256} {c' : Core} {msr : ℕ → BitVec 64} (hwork : Polite work)
    (hnamed : Named s.caps) (hmsr : (s.cpus i).msr = syscallInitialize stub msr) (hroom : Room (s.core i))
    (hcall : systemCall work depth (s.mapped i) stub i (s.core i) = some c') :
    ∃ y, Made ⟨i, s.mapped i, s.core i, c'⟩ y ∧ Answers s.caps y c'.world := by
  rw [systemCall_eq hmsr hwork hroom, Option.ite_none_right_eq_some, Option.bind_eq_some_iff] at hcall
  obtain ⟨-, x, hx, hback⟩ := hcall
  obtain ⟨-, hback⟩ := Option.ite_none_right_eq_some.mp hback
  obtain rfl := Option.some.inj hback
  have hanswered : Answered (s.core i) x.1 x.2 (behind work (entered (s.core i) stub) x) :=
    answered_behind hwork hroom x
  refine ⟨(request (s.mapped i) i (s.core i).reg (atCall (entered (s.core i) stub)).mem, x.2), ?_, hx⟩
  exact {
    request := ⟨_, seenBy_atCall hroom, rfl⟩
    rax := by
      dsimp only
      rw [hanswered.rax, BitVec.toNat_ofNat, Nat.mod_eq_of_lt (answer_lt hnamed rfl hx)]
    answered := hanswered }

theorem Inv.step {caps₀ : List Capability} (hwork : Polite work) (hnamed : Named caps₀)
    (hfree : ∀ e ∈ caps₀, e.coreNumber = -1) (hi : Inv stub caps₀ h s)
    (hs : Step work depth stub s a s') : Inv stub caps₀ (h ++ [a]) s' := by
  obtain ⟨calls, hmade, hrun⟩ := hi.calls
  rcases hs with ⟨rfl, hcaps, hkept⟩ | ⟨i, c', rfl, hroom, hcall, rfl⟩
  · constructor
    · intro i
      rw [hkept]
      exact hi.msr i
    · rw [hcaps]
      exact ⟨calls, by simpa using hmade, hrun⟩
  · obtain ⟨msr, hmsr⟩ := hi.msr i
    obtain ⟨y, hy, hanswers⟩ := made_of_systemCall hwork (run_keeps hnamed hfree hrun).1 hmsr hroom hcall
    constructor
    · intro j
      by_cases hj : j = i
      · subst hj
        refine ⟨msr, ?_⟩
        have hupdated : ((s.leave j c').cpus j).msr = c'.msr := by
          rw [Machine.leave]
          dsimp only
          rw [Function.update_self]
        rw [hupdated, hy.answered.msr]
        exact hmsr
      · have hother : (s.leave i c').cpus j = s.cpus j := Function.update_of_ne hj ..
        rw [hother]
        exact hi.msr j
    · refine ⟨calls ++ [y], ?_, .snoc _ _ _ _ hrun hanswers⟩
      rw [List.filterMap_append]
      exact List.rel_append hmade (.cons hy .nil)

def takers : Machine :=
  ⟨fun _ => ⟨taker.toStack, 1, 0x2B, 0x23, 0, taker.msr, ()⟩, fun _ => takerMapped, taker.world⟩

end Machines

end Raccoon.SystemCalls
