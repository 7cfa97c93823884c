import Raccoon.InterruptStubs
import Raccoon.Printing

/-!
Interrupts of kernel code, from the gate of a vector over its stub and the
function attached to it back to where they came from. The handlers of the kernel
log, and do not return from a message that they wait for in vain or that does not
fit its buffer.
-/

namespace Raccoon.InterruptDispatch

open DescriptorTables Instructions InterruptStubs Printing StackMachine

section Code

/-- A core, with the number of interrupts that its local APIC has been told the end of. -/
abbrev Core := Cpu ℕ

/-- A function for `attach_isr`. The frame is on top of the stack, and a function that halts does not return. -/
abbrev Isr := Core → Option Core

/-- `isr[regs.int_no]` and the call. Where nothing is attached, the frame is logged and the core halts. -/
def callIsr (isr : ℕ → Option Isr) (c : Core) : Option Core :=
  match isr (readFrame c.mem c.sp).intNo.toNat with
  | some f => f c
  | none => none

def cpuSendEoi (c : Core) : Core := { c with world := c.world + 1 }

def isrHandler (isr : ℕ → Option Isr) (c : Core) : Option Core := callIsr isr c

def irqHandler (isr : ℕ → Option Isr) (c : Core) : Option Core := (callIsr isr c).map cpuSendEoi

def handlers (isr : ℕ → Option Isr) : Target → Core → Option Core
  | .isrHandler => isrHandler isr
  | .irqHandler => irqHandler isr

/-- The stubs are found where the gates lead. -/
structure Linked where
  address : Label → BitVec 64
  text : BitVec 64 → Option (List (Instr Target))
  linked : ∀ g ∈ gates, text (address g.2) = some (stub g.2)

/-- The processor takes a selector of the GDT for a present code segment of 64 bits and of the selector's level. -/
def codeSelector (selector : BitVec 16) : Bool :=
  !selector.getLsbD 2 &&
    match setupGdt[selector.toNat / 8]? with
    | some e =>
      let s := segment e.word
      s.present && s.plain && s.executable && s.long && s.dpl.toNat == selector.toNat % 4
    | none => false

/-- A vector with an error code or without, while kernel code runs. Without an interrupt gate there is a fault. -/
def serve (k : Linked) (isr : ℕ → Option Isr) (v : ℕ) (err : Option (BitVec 64)) (c : Core) : Option Core :=
  let g := gate (setupIdt k.address v).word
  if g.present && g.kind == 0b1110 && codeSelector g.selector then
    match k.text g.offset with
    | some code => run (handlers isr) codeSelector code (enter g err c)
    | none => none
  else none

def attachIsr (interruptNumber : ℕ) (isrToAdd : Isr) (isr : ℕ → Option Isr) : ℕ → Option Isr :=
  Function.update isr interruptNumber (some isrToAdd)

section Exceptions

-- what compiled code does to the registers and to the stack below it, whether the interrupted code holds the print
-- lock, its level of the interrupt lock, and the address of a page fault
variable (work : Core → Core) (held : Bool) (level cr2 : ℕ)

/-- A `LOG_` macro of a handler. The print lock does not come free while the code that holds it is interrupted, and
`lock_ints` does not return from level 255. -/
def logMessage (format : CString) (args : List Arg) : Isr := fun c =>
  if held = false ∧ level ≠ 255 ∧ fits format args then some (work c) else none

def regs (c : Core) : StackFrame := readFrame c.mem c.sp

/-- What `log_stackframe` shows of a frame. -/
def registers (f : StackFrame) : List ℕ :=
  frameRegs.map (fun r => (f.reg r).toNat) ++ [f.intNo.toNat, f.errCode.toNat, f.rip.toNat, f.cs.toNat, f.rflags.toNat,
    f.useresp.toNat, f.ss.toNat]

def logStackframe : Isr := fun c => logMessage work held level stackframe ((registers (regs c)).map .size) c

def dumpMessage : CString := ⟨"Keep kalm, don't panik. Here is a dump of the registers :".toList, by decide +kernel⟩
def divByZeroMessage : CString := ⟨"Interrupt number : {d} (Div by 0)".toList, by decide⟩
def gpfMessage : CString := ⟨"Interrupt number : {d} (GPF)".toList, by decide⟩
def pageFaultMessage : CString := ⟨"Interrupt number : {d} (Page Fault)".toList, by decide⟩
def reasonMessage : CString := ⟨"Page Fault due to: {s} | {s} | {s}".toList, by decide⟩
def addressMessage : CString := ⟨"Faulty address is {x}".toList, by decide⟩
def debugMessage : CString := ⟨"Debugging instruction {x}".toList, by decide⟩
def debugEndMessage : CString := ⟨"End of Debug".toList, by decide⟩
def breakpointMessage : CString := ⟨"Breakpoint at {x}".toList, by decide⟩
def breakpointEndMessage : CString := ⟨"End of breakpoint".toList, by decide⟩
def debugModeMessage : CString := ⟨"Switching debug mode. Current is {s}".toList, by decide⟩
def invalidOpcodeMessage : CString := ⟨"Invalid opcode at {x}".toList, by decide⟩

/-- Behind the dump the core halts. -/
def panicCommonStub : Isr := fun c => do
  let c ← logMessage work held level dumpMessage [] c
  let _ ← logStackframe work held level c
  none

def kDivByZero : Isr := fun c => do
  let c ← logMessage work held level divByZeroMessage [.size (regs c).intNo.toNat] c
  panicCommonStub work held level c

def kGpf : Isr := fun c => do
  let c ← logMessage work held level gpfMessage [.size (regs c).intNo.toNat] c
  panicCommonStub work held level c

def violation : CString := ⟨"Page protection violation".toList, by decide⟩
def notPresent : CString := ⟨"Not present page".toList, by decide⟩
def writeAccess : CString := ⟨"Write access".toList, by decide⟩
def readAccess : CString := ⟨"Read Access".toList, by decide⟩
def userspace : CString := ⟨"Fault in userspace".toList, by decide⟩
def privileged : CString := ⟨"Fault in privileged segment".toList, by decide⟩

def kPageFault : Isr := fun c => do
  let c ← logMessage work held level pageFaultMessage [.size (regs c).intNo.toNat] c
  let errCode := (regs c).errCode
  let c ← logMessage work held level reasonMessage [.string (if errCode.getLsbD 0 then violation else notPresent),
    .string (if errCode.getLsbD 1 then writeAccess else readAccess),
    .string (if errCode.getLsbD 2 then userspace else privileged)] c
  let c ← logMessage work held level addressMessage [.size cr2] c
  panicCommonStub work held level c

def kDebug : Isr := fun c => do
  let c ← logMessage work held level debugMessage [.size (regs c).rip.toNat] c
  let c ← logStackframe work held level c
  logMessage work held level debugEndMessage [] c

def kBreakpoint : Isr := fun c => do
  let c ← logMessage work held level breakpointMessage [.size (regs c).rip.toNat] c
  let c ← logStackframe work held level c
  logMessage work held level breakpointEndMessage [] c

def enabled : CString := ⟨"enabled".toList, by decide⟩
def disabled : CString := ⟨"disabled".toList, by decide⟩

/-- `regs->rflags ^= (1 << 8)` -/
def changeDebugMode : Isr := fun c => do
  let c ← logMessage work held level debugModeMessage
    [.string (if (regs c).rflags.getLsbD 8 then enabled else disabled)] c
  some { c with mem := store64 c.mem (c.sp + 152) (load64 c.mem (c.sp + 152) ^^^ 0x100) }

def kInvalidOpcode : Isr := fun c => do
  let c ← logMessage work held level invalidOpcodeMessage [.size (regs c).rip.toNat] c
  panicCommonStub work held level c

def attachKernelExceptions (isr : ℕ → Option Isr) : ℕ → Option Isr :=
  let isr := attachIsr 0 (kDivByZero work held level) isr
  let isr := attachIsr 1 (kDebug work held level) isr
  let isr := attachIsr 3 (kBreakpoint work held level) isr
  let isr := attachIsr 6 (kInvalidOpcode work held level) isr
  let isr := attachIsr 13 (kGpf work held level) isr
  let isr := attachIsr 14 (kPageFault work held level cr2) isr
  attachIsr 127 (changeDebugMode work held level) isr

end Exceptions

end Code

section Service

/-- What a stub pushes below what the processor has pushed. -/
def imms : Label → List ℕ
  | .isr n => if isErrcode n then [n] else [128, n]
  | .irq n => [0, n + 32]

def target : Label → Target
  | .isr _ => .isrHandler
  | .irq _ => .irqHandler

/-- The vector that a stub is for. -/
def number : Label → ℕ
  | .isr n => n
  | .irq n => n + 32

/-- The stub leaves the error code to the processor. -/
def takesErrorCode : Label → Bool
  | .isr n => isErrcode n
  | .irq _ => false

def acknowledge : Label → Core → Core
  | .isr _ => id
  | .irq _ => cpuSendEoi

@[simp] theorem acknowledge_mem (l : Label) (c : Core) : (acknowledge l c).mem = c.mem := by cases l <;> rfl

@[simp] theorem acknowledge_sp (l : Label) (c : Core) : (acknowledge l c).sp = c.sp := by cases l <;> rfl

theorem mem_gates {v : ℕ} {l : Label} (hl : stubOf v = some l) : (v, l) ∈ gates := by
  obtain ⟨before, after, hsplit, -⟩ := List.lookup_eq_some_iff.mp hl
  rw [hsplit]
  exact List.mem_append_right _ (.head _)

theorem number_of_stubOf {v : ℕ} {l : Label} (hl : stubOf v = some l) : number l = v ∧ v < 256 := by
  have hall : ∀ e ∈ gates, number e.2 = e.1 ∧ e.1 < 256 := by decide
  exact hall _ (mem_gates hl)

variable {k : Linked} {isr : ℕ → Option Isr} {v : ℕ} {l : Label} {err : Option (BitVec 64)} {c : Core}

theorem stub_eq (l : Label) : ∃ code, stub l = (imms l).map .pushImm ++ saveContext ++ [.call (target l)] ++ code ∧
    ∀ call selectable (c : Core), run call selectable code c = resume selectable (readFrame c.mem c.sp) c := by
  cases l with
  | isr n =>
    refine ⟨loadContext ++ [.addRsp 16, .iretq], ?_, fun call selectable c => run_leave c⟩
    rw [stub, imms]
    by_cases he : isErrcode n
    · rw [if_pos he, if_pos he]
      rfl
    · rw [if_neg he, if_neg he]
      rfl
  | irq n => exact ⟨loadContext ++ [.addRsp 16, .sti, .iretq], rfl, fun call selectable c => run_leave_sti c⟩

variable (k isr err c) in
/-- A vector with a gate runs its handler on the frame, and goes on with what the frame says then. -/
theorem serve_eq (hl : stubOf v = some l) : ∃ g, serve k isr v err c =
    (handlers isr (target l) (entered g err (imms l) c)).bind fun c' =>
      resume codeSelector (readFrame c'.mem c'.sp) c' := by
  obtain ⟨code, hstub, hcode⟩ := stub_eq l
  have hg := gate_setupIdt k.address v
  rw [hl] at hg
  have hselector : codeSelector 8 = true := by decide
  refine ⟨⟨k.address l, 8, 0, 0b1110, 0, true⟩, ?_⟩
  unfold serve
  rw [hg]
  simp only [hselector, Bool.and_self, beq_self_eq_true, if_true, k.linked _ (mem_gates hl)]
  rw [hstub, run_append, run_append, run_entered, Option.bind_some, run_cons, exec, Option.bind_assoc]
  congr 1
  funext c'
  exact hcode _ _ c'

theorem serve_none (hl : stubOf v = none) : serve k isr v err c = none := by
  have hg := gate_setupIdt k.address v
  rw [hl] at hg
  unfold serve
  rw [hg]
  rfl

theorem toNat_vector (hl : stubOf v = some l) : (BitVec.ofNat 64 v).toNat = v := by
  have hlt := (number_of_stubOf hl).2
  rw [BitVec.toNat_ofNat, Nat.mod_eq_of_lt (by omega)]

theorem handlers_eq {intNo : BitVec 64} (hint : (readFrame c.mem c.sp).intNo = intNo) :
    handlers isr (target l) c = ((isr intNo.toNat).bind fun f => f c).map (acknowledge l) := by
  have hcall : callIsr isr c = (isr intNo.toNat).bind fun f => f c := by
    rw [callIsr, hint]
    cases isr intNo.toNat <;> rfl
  cases l with
  | isr n => simp [target, handlers, isrHandler, acknowledge, hcall]
  | irq n => simp [target, handlers, irqHandler, acknowledge, hcall]

theorem codes_matched (hl : stubOf v = some l) (hcode : err.isSome = takesErrorCode l) :
    ∃ errCode, err.toList ++ (imms l).map (BitVec.ofNat 64) = [errCode, BitVec.ofNat 64 v] ∧
      (∀ x, err = some x → errCode = x) ∧ (∀ n, l = .isr n → err = none → errCode = 128) := by
  obtain ⟨hnumber, -⟩ := number_of_stubOf hl
  cases l with
  | isr n =>
    obtain rfl : n = v := hnumber
    rw [takesErrorCode] at hcode
    by_cases he : isErrcode n
    · rw [he] at hcode
      obtain ⟨x, rfl⟩ := Option.isSome_iff_exists.mp hcode
      exact ⟨x, by simp [imms, he], fun y hy => Option.some.inj hy, by simp⟩
    · obtain rfl : err = none := by simpa [he] using hcode
      exact ⟨128, by simp [imms, he], by simp, by simp⟩
  | irq n =>
    obtain rfl : err = none := by simpa [takesErrorCode] using hcode
    obtain rfl : n + 32 = v := hnumber
    exact ⟨0, by simp [imms], by simp, by simp⟩

variable (k isr) in
/-- The function attached to a vector finds the interrupted context in the frame, with the error code of the
processor where there is one, and what it leaves in the frame is where the processor goes on. -/
theorem frame_served (hl : stubOf v = some l) (hcode : err.isSome = takesErrorCode l) (hroom : Room c) :
    ∃ e errCode, readFrame e.mem e.sp = context v errCode c ∧
      ((∀ x, err = some x → errCode = x) ∧ (∀ n, l = .isr n → err = none → errCode = 128)) ∧ e.sp + 176 ≤ c.sp ∧
      (∀ x, c.sp ≤ x → e.mem x = c.mem x) ∧ serve k isr v err c = ((isr v).bind fun f => f e).bind fun c' =>
        resume codeSelector (readFrame c'.mem c'.sp) (acknowledge l c') := by
  obtain ⟨errCode, hwords, herr⟩ := codes_matched hl hcode
  obtain ⟨g, hserve⟩ := serve_eq k isr err c hl
  have hframe := readFrame_entered (g := g) hroom hwords
  have hint : (readFrame (entered g err (imms l) c).mem (entered g err (imms l) c).sp).intNo = BitVec.ofNat 64 v := by
    rw [hframe]
    rfl
  have hlen : (pushedWords err (imms l) c).length = 22 := by
    rw [← List.length_reverse, pushedWords_eq hwords]
    rfl
  refine ⟨entered g err (imms l) c, errCode, hframe, herr, ?_, fun x hx => entered_above hroom (by omega) hx, ?_⟩
  · have hsp : (entered g err (imms l) c).sp = c.sp / 16 * 16 - 8 * (pushedWords err (imms l) c).length := pushAll_sp
    have hle := hroom.1
    omega
  · rw [hserve, handlers_eq hint, toNat_vector hl]
    cases (isr v).bind fun f => f (entered g err (imms l) c) with
    | none => rfl
    | some c' => cases l <;> rfl

end Service

section Refinement

/-- Kernel code runs, on a stack with room for what an interrupt pushes. -/
structure InKernel (c : Core) : Prop where
  room : Room c
  cs : c.cs = 8

/-- A handler as what it makes of the `stackframe`. -/
abbrev Effect := StackFrame → Option StackFrame

/-- The function returns when the effect does, with the frame changed by it and all above the frame untouched. -/
structure Implements (f : Isr) (effect : Effect) : Prop where
  halts : ∀ c, f c = none ↔ effect (readFrame c.mem c.sp) = none
  frame : ∀ c c', f c = some c' → effect (readFrame c.mem c.sp) = some (readFrame c'.mem c'.sp)
  above : ∀ c c' x, f c = some c' → c.sp + 176 ≤ x → c'.mem x = c.mem x

/-- The processor goes on with what a frame says, and what lay above its stack pointer is untouched. -/
structure GoesOn (f : StackFrame) (c c' : Core) : Prop where
  reg : c'.reg = f.reg
  sp : c'.sp = f.useresp.toNat
  rip : c'.rip = f.rip
  cs : c'.cs = f.cs
  ss : c'.ss = f.ss
  rflags : c'.rflags = f.rflags
  above : ∀ x, c.sp ≤ x → c'.mem x = c.mem x

variable {k : Linked} {isr : ℕ → Option Isr} {v : ℕ} {l : Label} {err : Option (BitVec 64)} {c : Core} {f : Isr}
  {effect : Effect}

/-- For the interrupted code an interrupt is the effect of the handler on its context, with the error code of the
processor where the exception has one. -/
theorem interrupt_refines (hl : stubOf v = some l) (hcode : err.isSome = takesErrorCode l) (hc : InKernel c)
    (hisr : isr v = some f) (hf : Implements f effect) :
    ∃ errCode, (∀ x, err = some x → errCode = x) ∧
      (serve k isr v err c = none ↔ ∀ g, effect (context v errCode c) = some g → codeSelector g.cs = false) ∧
      ∀ c', serve k isr v err c = some c' → ∃ g, effect (context v errCode c) = some g ∧ GoesOn g c c' := by
  obtain ⟨e, errCode, hframe, ⟨herr, -⟩, hbelow, habove, hserve⟩ := frame_served k isr hl hcode hc.room
  refine ⟨errCode, herr, ?_⟩
  rw [hserve, hisr, Option.bind_some, ← hframe]
  cases hfe : f e with
  | none =>
    rw [(hf.halts e).mp hfe]
    simp
  | some c' =>
    have hg := hf.frame e c' hfe
    rw [hg, Option.bind_some, resume]
    constructor
    · simp
    · intro c'' hc''
      split at hc''
      · obtain rfl := Option.some.inj hc''
        refine ⟨_, rfl, ⟨rfl, rfl, rfl, rfl, rfl, rfl, fun x hx => ?_⟩⟩
        rw [acknowledge_mem, hf.above e c' x hfe (by omega), habove x hx]
      · cases hc''

/-- The stubs behind each other, by their vectors. -/
def loadedAddress (l : Label) : BitVec 64 := BitVec.ofNat 64 (0x1000 + number l)

def loadedText (a : BitVec 64) : Option (List (Instr Target)) := (stubOf (a.toNat - 0x1000)).map stub

theorem loaded_linked : ∀ g ∈ gates, loadedText (loadedAddress g.2) = some (stub g.2) := by decide

def loaded : Linked := ⟨loadedAddress, loadedText, loaded_linked⟩

/-- A processor that is about to execute address 1. -/
def atOne : Core := ⟨⟨fun _ => 0, 1024, fun _ => 0⟩, 1, 8, 16, 0, fun _ => 0, 0⟩

theorem inKernel_atOne : InKernel atOne := ⟨⟨by decide, by decide⟩, rfl⟩

theorem some_implements : Implements some some where
  halts c := by simp
  frame c c' hc' := by rw [Option.some.inj hc']
  above c c' x hc' _ := by rw [Option.some.inj hc']

theorem interrupt_refines_page_fault : ∃ errCode, (∀ x : BitVec 64, some 2 = some x → errCode = x) ∧
    (serve loaded (fun _ => some some) 14 (some 2) atOne = none ↔
      ∀ g, some (context 14 errCode atOne) = some g → codeSelector g.cs = false) ∧
    ∀ c', serve loaded (fun _ => some some) 14 (some 2) atOne = some c' →
      ∃ g, some (context 14 errCode atOne) = some g ∧ GoesOn g atOne c' :=
  interrupt_refines (l := .isr 14) rfl rfl inKernel_atOne rfl some_implements

end Refinement

section Transparency

/-- The exceptions for which the processor pushes an error code. -/
def pushesErrorCode (v : ℕ) : Bool := v ∈ [8, 10, 11, 12, 13, 14, 17, 21, 29, 30]

/-- The processor is where it was, with some flags. What lies above its stack pointer is untouched. -/
structure Returned (c : Core) (rflags : BitVec 64) (c' : Core) : Prop where
  reg : c'.reg = c.reg
  sp : c'.sp = c.sp
  rip : c'.rip = c.rip
  cs : c'.cs = c.cs
  ss : c'.ss = c.ss
  rflags : c'.rflags = rflags
  above : ∀ x, c.sp ≤ x → c'.mem x = c.mem x

/-- The code that is interrupted does not see it. -/
def Transparent (k : Linked) (isr : ℕ → Option Isr) (v : ℕ) : Prop :=
  ∀ err c, err.isSome = pushesErrorCode v → InKernel c →
    ∃ c', serve k isr v err c = some c' ∧ Returned c c.rflags c'

variable {k : Linked} {isr : ℕ → Option Isr} {v : ℕ} {l : Label} {err : Option (BitVec 64)} {c e : Core} {f : Isr}

/-- A frame that holds the interrupted context, but for the flags. -/
theorem resume_context {errCode flags : BitVec 64} (hc : InKernel c)
    (hframe : readFrame e.mem e.sp = { context v errCode c with rflags := flags })
    (habove : ∀ x, c.sp ≤ x → e.mem x = c.mem x) :
    ∃ c', resume codeSelector (readFrame e.mem e.sp) e = some c' ∧ Returned c flags c' := by
  have hsp : (BitVec.ofNat 64 c.sp).toNat = c.sp := by
    rw [BitVec.toNat_ofNat, Nat.mod_eq_of_lt hc.room.2]
  have hselector : codeSelector 8 = true := by decide
  have hcs : codeSelector { context v errCode c with rflags := flags }.cs = true := by
    dsimp only [context]
    rw [hc.cs, hselector]
  rw [hframe, resume, if_pos hcs]
  exact ⟨_, rfl, ⟨rfl, hsp, rfl, rfl, rfl, rfl, habove⟩⟩

theorem takesErrorCode_eq (hl : stubOf v = some l) (hv : v ∉ [17, 21, 29, 30]) :
    pushesErrorCode v = takesErrorCode l := by
  have hall : ∀ g ∈ gates, g.1 ∉ [17, 21, 29, 30] → pushesErrorCode g.1 = takesErrorCode g.2 := by decide
  exact hall _ (mem_gates hl) hv

/-- What is in the place of the error code, where the processor has pushed none. -/
def CodeOf (l : Label) (err : Option (BitVec 64)) (errCode : BitVec 64) : Prop :=
  (∀ x, err = some x → errCode = x) ∧ (∀ n, l = .isr n → err = none → errCode = 128)

/-- A handler that changes the flags of the frame at most, of a vector whose stub and exception agree on the error
code. -/
theorem served_flags {effect : Effect} {flags : BitVec 64} (hl : stubOf v = some l)
    (hcode : err.isSome = takesErrorCode l) (hc : InKernel c) (hisr : isr v = some f) (hf : Implements f effect)
    (heffect : ∀ errCode, CodeOf l err errCode →
      effect (context v errCode c) = some { context v errCode c with rflags := flags }) :
    ∃ c', serve k isr v err c = some c' ∧ Returned c flags c' := by
  obtain ⟨e, errCode, hframe, herr, hbelow, habove, hserve⟩ := frame_served k isr hl hcode hc.room
  have heff := heffect errCode herr
  rw [← hframe] at heff
  obtain ⟨e', he'⟩ := Option.ne_none_iff_exists'.mp ((hf.halts e).not.mpr (heff ▸ Option.some_ne_none _))
  have hframe' := Option.some.inj (heff.symm.trans (hf.frame e e' he'))
  rw [hframe] at hframe'
  have hkept (x : ℕ) (hx : c.sp ≤ x) : (acknowledge l e').mem x = c.mem x := by
    rw [acknowledge_mem, hf.above e e' x he' (by omega), habove x hx]
  obtain ⟨c', hresume, hret⟩ := resume_context (e := acknowledge l e') (v := v) hc
    (by rw [acknowledge_mem, acknowledge_sp]; exact hframe'.symm) hkept
  rw [acknowledge_mem, acknowledge_sp] at hresume
  refine ⟨c', ?_, hret⟩
  rw [hserve, hisr, Option.bind_some, he', Option.bind_some]
  exact hresume

/-- A handler that does not return from the interrupted context. -/
theorem served_none {effect : Effect} (hl : stubOf v = some l) (hcode : err.isSome = takesErrorCode l)
    (hc : InKernel c) (hisr : isr v = some f) (hf : Implements f effect)
    (heffect : ∀ errCode, CodeOf l err errCode → effect (context v errCode c) = none) : serve k isr v err c = none := by
  obtain ⟨e, errCode, hframe, herr, -, -, hserve⟩ := frame_served k isr hl hcode hc.room
  have heff := heffect errCode herr
  rw [← hframe] at heff
  rw [hserve, hisr, Option.bind_some, (hf.halts e).mpr heff]
  rfl

/-- Where an exception with an error code has a stub without one. -/
theorem stub_shifted (hl : stubOf v = some l) (hv : v ∈ [17, 21, 29, 30]) :
    pushesErrorCode v = true ∧ imms l = [128, v] := by
  have hall : ∀ g ∈ gates, g.1 ∈ [17, 21, 29, 30] → pushesErrorCode g.1 = true ∧ imms g.2 = [128, g.1] := by decide
  exact hall _ (mem_gates hl) hv

/-- The stubs return to where the processor was, except for the exceptions with an error code that `stubs.s` does
not expect. -/
theorem transparent_iff (hl : stubOf v = some l) (hisr : isr v = some f) (hf : Implements f some) :
    Transparent k isr v ↔ v ∉ [17, 21, 29, 30] := by
  constructor
  · intro htransparent hv
    obtain ⟨hpushes, himms⟩ := stub_shifted hl hv
    -- an error code of 0 is taken for the address to return to
    obtain ⟨c', hc', hret⟩ := htransparent (some 0) atOne hpushes.symm inKernel_atOne
    obtain ⟨g, hserve⟩ := serve_eq k isr (some 0) atOne hl
    have hwords : (some 0).toList ++ (imms l).map (BitVec.ofNat 64) = [(0 : BitVec 64), 128, BitVec.ofNat 64 v] := by
      rw [himms]
      rfl
    have hframe := readFrame_shifted (g := g) (c := atOne) inKernel_atOne.room hwords
    have hint : (readFrame (entered g (some 0) (imms l) atOne).mem (entered g (some 0) (imms l) atOne).sp).intNo =
        BitVec.ofNat 64 v := by rw [hframe]
    rw [hserve, handlers_eq hint, toNat_vector hl, hisr, Option.bind_some] at hc'
    obtain ⟨e', he'⟩ := Option.ne_none_iff_exists'.mp
      ((hf.halts (entered g (some 0) (imms l) atOne)).not.mpr (Option.some_ne_none _))
    have hframe' := Option.some.inj (hf.frame _ e' he')
    rw [he', Option.map_some, Option.bind_some, acknowledge_mem, acknowledge_sp, ← hframe', hframe, resume] at hc'
    split at hc'
    · obtain rfl := Option.some.inj hc'
      have hrip : (0 : BitVec 64) = 1 := hret.rip
      exact absurd hrip (by decide)
    · cases hc'
  · intro hv err c hcode hc
    exact served_flags hl (hcode.trans (takesErrorCode_eq hl hv)) hc hisr hf fun _ _ => rfl

theorem transparent_iff_alignment_check :
    Transparent loaded (fun _ => some some) 17 ↔ 17 ∉ [17, 21, 29, 30] :=
  transparent_iff (l := .isr 17) rfl rfl some_implements

end Transparency

section Exceptions

/-- Logging changes registers and what lies below the frame. -/
structure Polite (work : Core → Core) : Prop where
  sp : ∀ c, (work c).sp = c.sp
  above : ∀ c x, c.sp ≤ x → (work c).mem x = c.mem x

variable {k : Linked} {v : ℕ} {l : Label} {err : Option (BitVec 64)} {c c' : Core} {work : Core → Core} {held : Bool}
  {level cr2 : ℕ} {m m' : Memory} {base : ℕ} {format : CString} {args : List Arg}

theorem load16_congr {a : ℕ} (h : ∀ x, a ≤ x → x < a + 2 → m' x = m x) : load16 m' a = load16 m a := by
  have h0 : m' a = m a := h a (by omega) (by omega)
  rw [load16, load16, h0, h (a + 1) (by omega) (by omega)]

theorem readFrame_congr (h : ∀ x, base ≤ x → m' x = m x) : readFrame m' base = readFrame m base := by
  have h64 (a : ℕ) (ha : base ≤ a) : load64 m' a = load64 m a := load64_congr fun x hx _ => h x (Nat.le_trans ha hx)
  have h16 (a : ℕ) (ha : base ≤ a) : load16 m' a = load16 m a := load16_congr fun x hx _ => h x (Nat.le_trans ha hx)
  unfold readFrame
  rw [funext fun r => h64 (base + offset r) (Nat.le_add_right ..), h64 _ (Nat.le_add_right ..),
    h64 _ (Nat.le_add_right ..), h64 _ (Nat.le_add_right ..), h64 _ (Nat.le_add_right ..), h64 _ (Nat.le_add_right ..),
    h16 _ (Nat.le_add_right ..), h16 _ (Nat.le_add_right ..)]

theorem offset_lt (r : Reg) : offset r + 8 ≤ 120 := by cases r <;> decide

theorem readFrame_store_rflags (w : BitVec 64) :
    readFrame (store64 m (base + 152) w) base = { readFrame m base with rflags := w } := by
  have h64 (a : ℕ) (ha : a + 8 ≤ base + 152 ∨ base + 160 ≤ a) : load64 (store64 m (base + 152) w) a = load64 m a :=
    load64_congr fun x hx hx' => store64_of_not_mem (by omega)
  have h16 (a : ℕ) (ha : a + 8 ≤ base + 152 ∨ base + 160 ≤ a) : load16 (store64 m (base + 152) w) a = load16 m a :=
    load16_congr fun x hx hx' => store64_of_not_mem (by omega)
  have hreg : (fun r => load64 (store64 m (base + 152) w) (base + offset r)) = fun r => load64 m (base + offset r) :=
    funext fun r => h64 _ (by have := offset_lt r; omega)
  unfold readFrame
  rw [hreg, h64 (base + 120) (by omega), h64 (base + 128) (by omega), h64 (base + 136) (by omega),
    h16 (base + 144) (by omega), h64 (base + 160) (by omega), h16 (base + 168) (by omega), load64_store64]

/-- Nothing keeps the handler from printing. -/
def Ready (held : Bool) (level : ℕ) : Prop := held = false ∧ level ≠ 255

/-- The 22 registers that a dump of the frame shows have at most 274 hexadecimal digits. -/
def Dumpable (f : StackFrame) : Prop := ((registers f).map fun r => Nat.log 16 r + 1).sum ≤ 274

instance : Decidable (Ready held level) := inferInstanceAs (Decidable (_ ∧ _))

instance : DecidablePred Dumpable := fun _ => inferInstanceAs (Decidable (_ ≤ 274))

theorem logMessage_fits (hfits : fits format args = true) (c : Core) :
    logMessage work held level format args c = if Ready held level then some (work c) else none := by
  rw [logMessage]
  exact if_congr (by simp [Ready, hfits]) rfl rfl

theorem logStackframe_eq (c : Core) : logStackframe work held level c =
    if Ready held level ∧ Dumpable (regs c) then some (work c) else none := by
  have hlen : (registers (regs c)).length = 22 := rfl
  rw [logStackframe, logMessage]
  exact if_congr (by rw [stackframe_fits_iff hlen, Ready, Dumpable, and_assoc]) rfl rfl

theorem Polite.regs (hwork : Polite work) (c : Core) : InterruptDispatch.regs (work c) = InterruptDispatch.regs c := by
  rw [InterruptDispatch.regs, InterruptDispatch.regs, hwork.sp, readFrame_congr (hwork.above c)]

/-- A message with one word fits. -/
theorem fits_word (hdir : directives format.chars = ['x']) (hlit : literals format.chars ≤ 400) (w : BitVec 64) :
    fits format [.size w.toNat] = true := by
  have hx : 'x' ≠ 's' := by decide
  have hsize : Arg.size w.toNat = sizeT w.toNat := by rw [sizeT, Nat.mod_eq_of_lt w.isLt]
  have hwidth := width_sizeT 'x' w.toNat
  rw [hsize, fits_iff hdir rfl (.cons (show Takes 'x' (sizeT w.toNat) from hx) .nil)]
  simp only [List.zipWith_cons_cons, List.zipWith_nil_left, List.sum_singleton]
  omega

/-- A handler that shows the frame between two messages. -/
theorem dump_implements (hwork : Polite work) {first last : CString} (args : Core → List Arg)
    (hfirst : ∀ c, fits first (args c) = true) (hlast : fits last [] = true) :
    Implements (fun c => logMessage work held level first (args c) c >>= fun c =>
        logStackframe work held level c >>= fun c => logMessage work held level last [] c)
      fun g => if Ready held level ∧ Dumpable g then some g else none := by
  have hrun (c : Core) : (logMessage work held level first (args c) c >>= fun c =>
      logStackframe work held level c >>= fun c => logMessage work held level last [] c) =
        if Ready held level ∧ Dumpable (regs c) then some (work (work (work c))) else none := by
    rw [logMessage_fits (hfirst c)]
    by_cases hready : Ready held level
    · rw [if_pos hready]
      change (logStackframe work held level (work c) >>= _) = _
      rw [logStackframe_eq, hwork.regs]
      by_cases hdump : Dumpable (regs c)
      · rw [if_pos ⟨hready, hdump⟩, if_pos ⟨hready, hdump⟩]
        exact (logMessage_fits hlast _).trans (if_pos hready)
      · rw [if_neg fun h => hdump h.2, if_neg fun h => hdump h.2]
        rfl
    · rw [if_neg hready, if_neg fun h => hready h.1]
      rfl
  have hframe (c : Core) : regs (work (work (work c))) = regs c := by rw [hwork.regs, hwork.regs, hwork.regs]
  constructor
  · intro c
    rw [hrun]
    by_cases h : Ready held level ∧ Dumpable (regs c)
    · rw [if_pos h]
      exact iff_of_false (Option.some_ne_none _) (by rw [← regs, if_pos h]; exact Option.some_ne_none _)
    · rw [if_neg h]
      exact iff_of_true rfl (if_neg h)
  · intro c c' hc'
    rw [hrun] at hc'
    obtain ⟨h, hc'⟩ := Option.ite_none_right_eq_some.mp hc'
    obtain rfl := Option.some.inj hc'
    exact (if_pos h).trans (congrArg some (hframe c).symm)
  · intro c c' x hc' hx
    rw [hrun] at hc'
    obtain ⟨-, hc'⟩ := Option.ite_none_right_eq_some.mp hc'
    obtain rfl := Option.some.inj hc'
    have hsp : (work c).sp = c.sp := hwork.sp c
    have hsp' : (work (work c)).sp = c.sp := (hwork.sp _).trans hsp
    rw [hwork.above _ x (by omega), hwork.above _ x (by omega), hwork.above _ x (by omega)]

theorem kDebug_implements (hwork : Polite work) : Implements (kDebug work held level)
    fun g => if Ready held level ∧ Dumpable g then some g else none :=
  dump_implements hwork (fun c => [.size (regs c).rip.toNat])
    (fun _ => fits_word (by decide +kernel) (by decide +kernel) _) (by decide +kernel)

theorem kBreakpoint_implements (hwork : Polite work) : Implements (kBreakpoint work held level)
    fun g => if Ready held level ∧ Dumpable g then some g else none :=
  dump_implements hwork (fun c => [.size (regs c).rip.toNat])
    (fun _ => fits_word (by decide +kernel) (by decide +kernel) _) (by decide +kernel)

theorem changeDebugMode_eq (c : Core) : changeDebugMode work held level c = if Ready held level then
    some { work c with
      mem := store64 (work c).mem ((work c).sp + 152) (load64 (work c).mem ((work c).sp + 152) ^^^ 0x100) }
    else none := by
  have hfits : fits debugModeMessage [.string (if (regs c).rflags.getLsbD 8 then enabled else disabled)] = true := by
    split <;> decide +kernel
  rw [changeDebugMode, logMessage_fits hfits]
  by_cases hready : Ready held level
  · rw [if_pos hready, if_pos hready]
    rfl
  · rw [if_neg hready, if_neg hready]
    rfl

theorem changeDebugMode_implements (hwork : Polite work) : Implements (changeDebugMode work held level)
    fun g => if Ready held level then some { g with rflags := g.rflags ^^^ 0x100 } else none where
  halts c := by
    rw [changeDebugMode_eq]
    by_cases hready : Ready held level <;> simp [hready]
  frame c c' hc' := by
    rw [changeDebugMode_eq] at hc'
    obtain ⟨hready, hc'⟩ := Option.ite_none_right_eq_some.mp hc'
    obtain rfl := Option.some.inj hc'
    have hregs : readFrame (work c).mem (work c).sp = readFrame c.mem c.sp := hwork.regs c
    have hflags : load64 (work c).mem ((work c).sp + 152) = (readFrame c.mem c.sp).rflags := by
      rw [← hregs]
      rfl
    dsimp only
    rw [if_pos hready, readFrame_store_rflags, hregs, hflags]
  above c c' x hc' hx := by
    rw [changeDebugMode_eq] at hc'
    obtain ⟨-, hc'⟩ := Option.ite_none_right_eq_some.mp hc'
    obtain rfl := Option.some.inj hc'
    dsimp only
    rw [store64_of_not_mem (by rw [hwork.sp]; omega), hwork.above c x (by omega)]

theorem panicCommonStub_halts (c : Core) : panicCommonStub work held level c = none := by
  simp [panicCommonStub]

/-- What the kernel attaches. -/
abbrev kernelIsr (work : Core → Core) (held : Bool) (level cr2 : ℕ) : ℕ → Option Isr :=
  attachKernelExceptions work held level cr2 fun _ => none

/-- An exception that panics, and a vector that nothing is attached to. -/
theorem kernelIsr_halts (hv : v ∉ [1, 3, 127]) (c : Core) :
    ((kernelIsr work held level cr2 v).bind fun f => f c) = none := by
  simp only [List.mem_cons, List.not_mem_nil, or_false, not_or] at hv
  obtain ⟨h1, h3, h127⟩ := hv
  rw [kernelIsr, attachKernelExceptions]
  simp only [attachIsr, Function.update_apply, h1, h3, h127, if_false]
  split_ifs
  · simp [kPageFault, panicCommonStub_halts]
  · simp [kGpf, panicCommonStub_halts]
  · simp [kInvalidOpcode, panicCommonStub_halts]
  · simp [kDivByZero, panicCommonStub_halts]
  · rfl

/-- Whatever the stub has pushed, the handler finds the vector. -/
theorem vector_found (hl : stubOf v = some l) (hcode : err.isSome = pushesErrorCode v) (hroom : Room c) (g : Gate) :
    (readFrame (entered g err (imms l) c).mem (entered g err (imms l) c).sp).intNo = BitVec.ofNat 64 v := by
  by_cases hv : v ∈ [17, 21, 29, 30]
  · obtain ⟨hpushes, himms⟩ := stub_shifted hl hv
    obtain ⟨x, rfl⟩ := Option.isSome_iff_exists.mp (hcode.trans hpushes)
    have hwords : (some x).toList ++ (imms l).map (BitVec.ofNat 64) = [x, 128, BitVec.ofNat 64 v] := by
      rw [himms]
      rfl
    rw [readFrame_shifted hroom hwords]
  · obtain ⟨errCode, hwords, -⟩ := codes_matched hl (hcode.trans (takesErrorCode_eq hl hv))
    rw [readFrame_entered hroom hwords]
    rfl

/-- The interrupts that the kernel comes back from: the handlers can print, and the debug exception and the breakpoint
have a context whose dump fits. -/
def ComesBack (held : Bool) (level v : ℕ) (c : Core) : Prop :=
  Ready held level ∧ (v = 127 ∨ (v = 1 ∨ v = 3) ∧ Dumpable (context v 128 c))

/-- An exception whose handler shows the frame. -/
theorem dump_comes_back {f : Isr} (hcode : err.isSome = pushesErrorCode v) (hc : InKernel c) (hv : v = 1 ∨ v = 3)
    (hl : stubOf v = some (.isr v)) (hisr : kernelIsr work held level cr2 v = some f)
    (hf : Implements f fun g => if Ready held level ∧ Dumpable g then some g else none) :
    (ComesBack held level v c → ∃ c', serve k (kernelIsr work held level cr2) v err c = some c' ∧
      Returned c (if v = 127 then c.rflags ^^^ 0x100 else c.rflags) c') ∧
    (¬ ComesBack held level v c → serve k (kernelIsr work held level cr2) v err c = none) := by
  have hpushes : pushesErrorCode v = false := by rcases hv with rfl | rfl <;> decide
  have hmatched := hcode.trans (takesErrorCode_eq hl (by rcases hv with rfl | rfl <;> decide))
  have hnone : err = none := Option.isNone_iff_eq_none.mp (by rw [← Option.not_isSome, hcode, hpushes]; rfl)
  have hother : v ≠ 127 := by omega
  have hback : ComesBack held level v c ↔ Ready held level ∧ Dumpable (context v 128 c) :=
    and_congr_right fun _ => ⟨fun h => (h.resolve_left hother).2, fun h => .inr ⟨hv, h⟩⟩
  rw [hback, if_neg hother]
  constructor
  · intro h
    refine served_flags hl hmatched hc hisr hf fun errCode he => ?_
    rw [he.2 v rfl hnone, if_pos h]
    rfl
  · intro h
    refine served_none hl hmatched hc hisr hf fun errCode he => ?_
    rw [he.2 v rfl hnone, if_neg h]

/-- The kernel comes back from the debug exception, the breakpoint and the switch of the debug mode, which changes
the trap flag, where their messages can be printed, and from no other interrupt. -/
theorem kernel_comes_back (hwork : Polite work) (hcode : err.isSome = pushesErrorCode v) (hc : InKernel c) :
    (ComesBack held level v c → ∃ c', serve k (kernelIsr work held level cr2) v err c = some c' ∧
      Returned c (if v = 127 then c.rflags ^^^ 0x100 else c.rflags) c') ∧
    (¬ ComesBack held level v c → serve k (kernelIsr work held level cr2) v err c = none) := by
  by_cases hv : v ∈ [1, 3, 127]
  · simp only [List.mem_cons, List.not_mem_nil, or_false] at hv
    obtain rfl | rfl | rfl := hv
    · exact dump_comes_back hcode hc (.inl rfl) rfl rfl (kDebug_implements hwork)
    · exact dump_comes_back hcode hc (.inr rfl) rfl rfl (kBreakpoint_implements hwork)
    · have hmatched := hcode.trans (takesErrorCode_eq (l := .isr 127) rfl (by decide))
      have hback : ComesBack held level 127 c ↔ Ready held level := and_iff_left (.inl rfl)
      rw [hback, if_pos rfl]
      constructor
      · exact fun h => served_flags rfl hmatched hc rfl (changeDebugMode_implements hwork) fun _ _ => if_pos h
      · exact fun h => served_none rfl hmatched hc rfl (changeDebugMode_implements hwork) fun _ _ => if_neg h
  · have hback : ¬ ComesBack held level v c := by
      simp only [List.mem_cons, List.not_mem_nil, or_false, not_or] at hv
      rintro ⟨-, h | ⟨h | h, -⟩⟩
      · exact hv.2.2 h
      · exact hv.1 h
      · exact hv.2.1 h
    refine ⟨fun h => absurd h hback, fun _ => ?_⟩
    cases hl : stubOf v with
    | none => exact serve_none hl
    | some l =>
      obtain ⟨g, hserve⟩ := serve_eq k (kernelIsr work held level cr2) err c hl
      rw [hserve, handlers_eq (vector_found hl hcode hc.room g), toNat_vector hl, kernelIsr_halts hv]
      rfl

/-- The switch of the debug mode comes back, and a breakpoint in the middle of a message does not. -/
theorem kernel_comes_back_debug_mode :
    (∃ c', serve loaded (kernelIsr id false 0 0) 127 none atOne = some c' ∧ Returned atOne 0x100 c') ∧
    serve loaded (kernelIsr id true 1 0) 3 none atOne = none := by
  have hpolite : Polite id := ⟨fun _ => rfl, fun _ _ _ => rfl⟩
  refine ⟨(kernel_comes_back hpolite rfl inKernel_atOne).1 ⟨⟨rfl, by decide⟩, .inl rfl⟩,
    (kernel_comes_back hpolite rfl inKernel_atOne).2 fun h => ?_⟩
  cases h.1.1

end Exceptions

end Raccoon.InterruptDispatch
