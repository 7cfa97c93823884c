import Raccoon.DescriptorTables
import Raccoon.Instructions

/-!
The stubs that an interrupt enters the kernel by. The processor pushes where it
was and, for some exceptions, an error code; the stub pushes a number in its
place for the others, the vector and the registers, and what then lies on the
stack is the `stackframe` of the handler.
-/

namespace Raccoon.InterruptStubs

open DescriptorTables Instructions StackMachine

variable {W : Type}

section Code

inductive Target where
  | isrHandler
  | irqHandler
deriving DecidableEq

def saveContext : List (Instr Target) :=
  [.push .rax, .push .rbx, .push .rcx, .push .rdx, .push .rsi, .push .rdi, .push .rbp, .push .r8, .push .r9,
    .push .r10, .push .r11, .push .r12, .push .r13, .push .r14, .push .r15]

def loadContext : List (Instr Target) :=
  [.pop .r15, .pop .r14, .pop .r13, .pop .r12, .pop .r11, .pop .r10, .pop .r9, .pop .r8, .pop .rbp, .pop .rdi,
    .pop .rsi, .pop .rdx, .pop .rcx, .pop .rbx, .pop .rax]

def isrCommonStub : List (Instr Target) := saveContext ++ [.call .isrHandler] ++ loadContext ++ [.addRsp 16, .iretq]

def irqCommonStub : List (Instr Target) := saveContext ++ [.call .irqHandler] ++ loadContext ++ [.addRsp 16, .sti, .iretq]

def isrNoerrcode (n : ℕ) : List (Instr Target) := [.pushImm 128, .pushImm n] ++ isrCommonStub

def isrErrcode (n : ℕ) : List (Instr Target) := [.pushImm n] ++ isrCommonStub

/-- `IRQ n, n + 32`. -/
def irqStub (n : ℕ) : List (Instr Target) := [.pushImm 0, .pushImm (n + 32)] ++ irqCommonStub

/-- The stubs that are assembled with `ISR_ERRCODE`. -/
def isErrcode (n : ℕ) : Bool := n ∈ [8, 10, 11, 12, 13, 14]

def stub : Label → List (Instr Target)
  | .isr n => if isErrcode n then isrErrcode n else isrNoerrcode n
  | .irq n => irqStub n

/-- What the processor pushes, on a stack that it aligns first. -/
def hardwareWords (err : Option (BitVec 64)) (c : Cpu W) : List (BitVec 64) :=
  [c.ss.setWidth 64, BitVec.ofNat 64 c.sp, c.rflags, c.cs.setWidth 64, c.rip] ++ err.toList

/-- An interrupt through a gate clears the interrupt flag, and TF, NT, RF and VM. -/
def enter (g : Gate) (err : Option (BitVec 64)) (c : Cpu W) : Cpu W :=
  { c with
    toStack := pushAll { c.toStack with sp := c.sp / 16 * 16 } (hardwareWords err c)
    rip := g.offset
    cs := g.selector
    rflags := c.rflags &&& ~~~ 0x34300 }

end Code

section Layout

/-- The offsets of the registers in the `stackframe`. -/
def offset : Reg → ℕ
  | .r15 => 0 | .r14 => 8 | .r13 => 16 | .r12 => 24 | .r11 => 32 | .r10 => 40 | .r9 => 48 | .r8 => 56
  | .rbp => 64 | .rdi => 72 | .rsi => 80 | .rdx => 88 | .rcx => 96 | .rbx => 104 | .rax => 112

structure StackFrame where
  reg : Reg → BitVec 64
  intNo : BitVec 64
  errCode : BitVec 64
  rip : BitVec 64
  cs : BitVec 16
  rflags : BitVec 64
  useresp : BitVec 64
  ss : BitVec 16

/-- The packed `stackframe` at an address; `align3` and `align4` fill up the word of `cs`. -/
def readFrame (m : Memory) (base : ℕ) : StackFrame where
  reg r := load64 m (base + offset r)
  intNo := load64 m (base + 120)
  errCode := load64 m (base + 128)
  rip := load64 m (base + 136)
  cs := load16 m (base + 144)
  rflags := load64 m (base + 152)
  useresp := load64 m (base + 160)
  ss := load16 m (base + 168)

/-- The registers from the lowest address upwards. -/
def frameRegs : List Reg :=
  [.r15, .r14, .r13, .r12, .r11, .r10, .r9, .r8, .rbp, .rdi, .rsi, .rdx, .rcx, .rbx, .rax]

theorem offset_eq (r : Reg) : ∃ k, k < 15 ∧ offset r = 8 * k ∧ frameRegs[k]? = some r := by
  cases r
  case r15 => exact ⟨0, by decide⟩
  case r14 => exact ⟨1, by decide⟩
  case r13 => exact ⟨2, by decide⟩
  case r12 => exact ⟨3, by decide⟩
  case r11 => exact ⟨4, by decide⟩
  case r10 => exact ⟨5, by decide⟩
  case r9 => exact ⟨6, by decide⟩
  case r8 => exact ⟨7, by decide⟩
  case rbp => exact ⟨8, by decide⟩
  case rdi => exact ⟨9, by decide⟩
  case rsi => exact ⟨10, by decide⟩
  case rdx => exact ⟨11, by decide⟩
  case rcx => exact ⟨12, by decide⟩
  case rbx => exact ⟨13, by decide⟩
  case rax => exact ⟨14, by decide⟩

variable {m : Memory} {base : ℕ} {reg : Reg → BitVec 64}

theorem readFrame_words {w₀ w₁ w₂ w₃ w₄ w₅ w₆ : BitVec 64}
    (h : words m base 22 = frameRegs.map reg ++ [w₀, w₁, w₂, w₃, w₄, w₅, w₆]) :
    readFrame m base = ⟨reg, w₀, w₁, w₂, w₃.setWidth 16, w₄, w₅, w₆.setWidth 16⟩ := by
  have hat {k : ℕ} {w : BitVec 64} (hk : k < 22)
      (hw : (frameRegs.map reg ++ [w₀, w₁, w₂, w₃, w₄, w₅, w₆])[k]? = some w) : load64 m (base + 8 * k) = w := by
    rw [← h, getElem?_words hk] at hw
    exact Option.some.inj hw
  have hregs : (fun r => load64 m (base + offset r)) = reg := by
    funext r
    obtain ⟨k, hk, hoff, hr⟩ := offset_eq r
    rw [hoff]
    apply hat (by omega)
    rw [List.getElem?_append_left (by exact hk), List.getElem?_map, hr]
    rfl
  have h₃ := hat (k := 18) (by decide) rfl
  have h₆ := hat (k := 21) (by decide) rfl
  unfold readFrame
  rw [hregs, load16_eq, load16_eq, h₃, h₆]
  congr 1
  · exact hat (k := 15) (by decide) rfl
  · exact hat (k := 16) (by decide) rfl
  · exact hat (k := 17) (by decide) rfl
  · exact hat (k := 19) (by decide) rfl
  · exact hat (k := 20) (by decide) rfl

end Layout

section Runs

variable {call : Target → Cpu W → Option (Cpu W)} {selectable : BitVec 16 → Bool} {c : Cpu W}

/-- What a frame says to go on with. -/
def resume (selectable : BitVec 16 → Bool) (f : StackFrame) (c : Cpu W) : Option (Cpu W) :=
  if selectable f.cs then some ⟨⟨f.reg, f.useresp.toNat, c.mem⟩, f.rip, f.cs, f.ss, f.rflags, c.msr, c.world⟩ else none

theorem reg_popAll (r : Reg) :
    (popAll c.toStack frameRegs).reg r = load64 c.mem (c.sp + offset r) := by
  obtain ⟨k, hk, hoff, hr⟩ := offset_eq r
  have hmap : frameRegs.map (popAll c.toStack frameRegs).reg = words c.mem c.sp 15 := map_popAll (by decide)
  have hat := congrArg (fun l : List (BitVec 64) => l[k]?) hmap
  simp only [List.getElem?_map, hr, getElem?_words hk, Option.map_some, Option.some.injEq] at hat
  rw [hat, hoff]

/-- The end of a stub goes on with what the frame on top of the stack says. -/
theorem run_leave (c : Cpu W) :
    run call selectable (loadContext ++ [.addRsp 16, .iretq]) c = resume selectable (readFrame c.mem c.sp) c := by
  have hload : loadContext = frameRegs.map .pop := rfl
  have hreg : (popAll c.toStack frameRegs).reg = fun r => load64 c.mem (c.sp + offset r) := funext reg_popAll
  rw [run_append, hload, run_pops, Option.bind_some, run_cons, exec, Option.bind_some, run_cons, exec]
  simp only [popAll_sp, popAll_mem, hreg]
  have hlen : c.sp + 8 * frameRegs.length + 16 = c.sp + 136 := by rw [frameRegs]; rfl
  rw [hlen]
  unfold resume readFrame
  by_cases hs : selectable (load16 c.mem (c.sp + 144))
  · simp [hs, run]
  · simp [hs]

theorem run_leave_sti (c : Cpu W) : run call selectable (loadContext ++ [.addRsp 16, .sti, .iretq]) c =
    resume selectable (readFrame c.mem c.sp) c := by
  -- `iretq` sets the flags anyway
  have hsame (code : List (Instr Target)) : run call selectable (code ++ [.addRsp 16, .sti, .iretq]) c =
      run call selectable (code ++ [.addRsp 16, .iretq]) c := by
    rw [run_append, run_append]
    rfl
  rw [hsame, run_leave]

/-- All words that are pushed before the handler is called, in order. -/
def pushedWords (err : Option (BitVec 64)) (imms : List ℕ) (c : Cpu W) : List (BitVec 64) :=
  hardwareWords err c ++ imms.map (BitVec.ofNat 64) ++ frameRegs.reverse.map c.reg

/-- The processor as the handler finds it. -/
def entered (g : Gate) (err : Option (BitVec 64)) (imms : List ℕ) (c : Cpu W) : Cpu W :=
  { enter g err c with toStack := pushAll { c.toStack with sp := c.sp / 16 * 16 } (pushedWords err imms c) }

variable {g : Gate} {err : Option (BitVec 64)} {imms : List ℕ}

theorem run_entered :
    run call selectable (imms.map .pushImm ++ saveContext) (enter g err c) = some (entered g err imms c) := by
  have hsave : saveContext = frameRegs.reverse.map .push := rfl
  rw [run_append, run_imms, Option.bind_some, hsave, run_pushes]
  have hreg : (pushAll (enter g err c).toStack (imms.map (BitVec.ofNat 64))).reg = c.reg := by
    rw [pushAll_reg, enter, pushAll_reg]
  rw [hreg, entered, pushedWords, pushAll_append, pushAll_append]
  rfl

/-- The stack has room for 23 words below an aligned address. -/
def Room (c : Cpu W) : Prop := 200 ≤ c.sp ∧ c.sp < 2 ^ 64

theorem entered_above (hroom : Room c) (hlen : (pushedWords err imms c).length ≤ 23) {x : ℕ} (hx : c.sp ≤ x) :
    (entered g err imms c).mem x = c.mem x := by
  have hle := hroom.1
  have halign : c.sp / 16 * 16 ≤ c.sp := by omega
  exact pushAll_above (s := { c.toStack with sp := c.sp / 16 * 16 }) (by dsimp only; omega) (Nat.le_trans halign hx)

theorem words_entered (hroom : Room c) (hlen : (pushedWords err imms c).length ≤ 23) :
    words (entered g err imms c).mem (entered g err imms c).sp (pushedWords err imms c).length =
      (pushedWords err imms c).reverse := by
  have hle := hroom.1
  have hfits : 8 * (pushedWords err imms c).length ≤ c.sp / 16 * 16 := by omega
  have hw := words_pushAll (s := { c.toStack with sp := c.sp / 16 * 16 }) hfits 0
  rwa [Nat.add_zero, words, List.append_nil] at hw

/-- The interrupted context, as a frame. -/
def context (v : ℕ) (errCode : BitVec 64) (c : Cpu W) : StackFrame :=
  ⟨c.reg, BitVec.ofNat 64 v, errCode, c.rip, c.cs, c.rflags, BitVec.ofNat 64 c.sp, c.ss⟩

theorem setWidth_back (x : BitVec 16) : (x.setWidth 64).setWidth 16 = x := by
  rw [BitVec.setWidth_setWidth_of_le _ (by decide), BitVec.setWidth_eq]

theorem pushedWords_eq {ws : List (BitVec 64)} (hcode : err.toList ++ imms.map (BitVec.ofNat 64) = ws) :
    (pushedWords err imms c).reverse = frameRegs.map c.reg ++ ws.reverse ++
      [c.rip, c.cs.setWidth 64, c.rflags, BitVec.ofNat 64 c.sp, c.ss.setWidth 64] := by
  subst hcode
  simp [pushedWords, hardwareWords]

/-- With an error code of the processor, or a number in its place, the frame is the interrupted context. -/
theorem readFrame_entered {v : ℕ} {errCode : BitVec 64} (hroom : Room c)
    (hcode : err.toList ++ imms.map (BitVec.ofNat 64) = [errCode, BitVec.ofNat 64 v]) :
    readFrame (entered g err imms c).mem (entered g err imms c).sp = context v errCode c := by
  have hrev := pushedWords_eq (c := c) hcode
  have hlen : (pushedWords err imms c).length = 22 := by
    rw [← List.length_reverse, hrev]
    rfl
  have hw := words_entered (g := g) hroom (Nat.le_trans (Nat.le_of_eq hlen) (by decide))
  rw [hrev, hlen, List.append_assoc] at hw
  rw [readFrame_words hw, setWidth_back, setWidth_back]
  rfl

/-- With both, the frame goes on with the error code. -/
theorem readFrame_shifted {v : ℕ} {errCode x : BitVec 64} (hroom : Room c)
    (hcode : err.toList ++ imms.map (BitVec.ofNat 64) = [errCode, x, BitVec.ofNat 64 v]) :
    readFrame (entered g err imms c).mem (entered g err imms c).sp =
      ⟨c.reg, BitVec.ofNat 64 v, x, errCode, c.rip.setWidth 16, c.cs.setWidth 64, c.rflags,
        BitVec.setWidth 16 (BitVec.ofNat 64 c.sp)⟩ := by
  have hrev := pushedWords_eq (c := c) hcode
  have hlen : (pushedWords err imms c).length = 22 + 1 := by
    rw [← List.length_reverse, hrev]
    rfl
  have hw := words_entered (g := g) hroom (Nat.le_trans (Nat.le_of_eq hlen) (by decide))
  rw [hrev, hlen, words_add] at hw
  have hfront : words (entered g err imms c).mem (entered g err imms c).sp 22 = frameRegs.map c.reg ++
      [BitVec.ofNat 64 v, x, errCode, c.rip, c.cs.setWidth 64, c.rflags, BitVec.ofNat 64 c.sp] := by
    have hsplit : frameRegs.map c.reg ++ [errCode, x, BitVec.ofNat 64 v].reverse ++
        [c.rip, c.cs.setWidth 64, c.rflags, BitVec.ofNat 64 c.sp, c.ss.setWidth 64] =
        (frameRegs.map c.reg ++
          [BitVec.ofNat 64 v, x, errCode, c.rip, c.cs.setWidth 64, c.rflags, BitVec.ofNat 64 c.sp]) ++
        [c.ss.setWidth 64] := by
      simp
    rw [hsplit] at hw
    exact (List.append_inj hw (by rw [length_words]; rfl)).1
  rw [readFrame_words hfront]

end Runs

end Raccoon.InterruptStubs
