import Raccoon.Mmu
import Raccoon.StackMachine

/-!
The instructions of the stubs by which code enters the kernel, with calls of C
functions in between.
-/

namespace Raccoon.Instructions

open StackMachine

inductive Reg where
  | rax | rbx | rcx | rdx | rsi | rdi | rbp | r8 | r9 | r10 | r11 | r12 | r13 | r14 | r15
deriving DecidableEq

/-- A processor with its memory, and what else C functions work on. The stack pointer is `sp`. -/
structure Cpu (W : Type) extends Stack Reg where
  rip : BitVec 64
  cs : BitVec 16
  ss : BitVec 16
  rflags : BitVec 64
  /-- The model specific registers, by their numbers. -/
  msr : ℕ → BitVec 64
  world : W

/-- The functions that are called are named by a type. -/
inductive Instr (T : Type) where
  | push (r : Reg)
  | pushImm (n : ℕ)
  | pop (r : Reg)
  | addRsp (n : ℕ)
  | subRsp (n : ℕ)
  | call (t : T)
  | sti
  | iretq
  | sysret
deriving DecidableEq

variable {T W : Type}

def msrEfer : ℕ := 0xC0000080
def msrStar : ℕ := 0xC0000081

/-- One instruction. A call of a C function gets the stack as it is before the return address is pushed, and may
not return; `iretq` takes only some selectors for the code segment, and `sysret` only canonical addresses. -/
def exec (call : T → Cpu W → Option (Cpu W)) (selectable : BitVec 16 → Bool) (i : Instr T) (c : Cpu W) : Option (Cpu W) :=
  match i with
  | .push r => some { c with toStack := push c.toStack (c.reg r) }
  | .pushImm n => some { c with toStack := push c.toStack (BitVec.ofNat 64 n) }
  | .pop r => some { c with toStack := pop c.toStack r }
  | .addRsp n => some { c with sp := c.sp + n }
  | .subRsp n => some { c with sp := c.sp - n }
  | .call t => call t c
  | .sti => some { c with rflags := c.rflags ||| 0x200 }
  | .iretq =>
    if selectable (load16 c.mem (c.sp + 8)) then
      some { c with
        rip := load64 c.mem c.sp
        cs := load16 c.mem (c.sp + 8)
        rflags := load64 c.mem (c.sp + 16)
        sp := (load64 c.mem (c.sp + 24)).toNat
        ss := load16 c.mem (c.sp + 32) }
    else none
  | .sysret =>
    let base := (c.msr msrStar).extractLsb' 48 16
    if (c.msr msrEfer).getLsbD 0 ∧ Mmu.canonical (c.reg .rcx).toNat then
      some { c with
        rip := c.reg .rcx
        cs := (base + 16) ||| 3
        rflags := (c.reg .r11 &&& 0x3C7FD7) ||| 2
        ss := (base + 8) ||| 3 }
    else none

def run (call : T → Cpu W → Option (Cpu W)) (selectable : BitVec 16 → Bool) (code : List (Instr T)) (c : Cpu W) :
    Option (Cpu W) :=
  code.foldlM (fun c i => exec call selectable i c) c

variable {call : T → Cpu W → Option (Cpu W)} {selectable : BitVec 16 → Bool} {c : Cpu W}

theorem run_append (code more : List (Instr T)) :
    run call selectable (code ++ more) c = (run call selectable code c).bind (run call selectable more) :=
  List.foldlM_append

theorem run_cons (i : Instr T) (code : List (Instr T)) :
    run call selectable (i :: code) c = (exec call selectable i c).bind (run call selectable code) := rfl

theorem run_pushes (rs : List Reg) : run call selectable (rs.map .push) c =
    some { c with toStack := pushAll c.toStack (rs.map c.reg) } := by
  induction rs generalizing c with
  | nil => rfl
  | cons r rs ih =>
    rw [List.map_cons, run_cons, exec, Option.bind_some, ih]
    rfl

theorem run_imms (ns : List ℕ) : run call selectable (ns.map .pushImm) c =
    some { c with toStack := pushAll c.toStack (ns.map (BitVec.ofNat 64)) } := by
  induction ns generalizing c with
  | nil => rfl
  | cons n ns ih =>
    rw [List.map_cons, run_cons, exec, Option.bind_some, ih]
    rfl

theorem run_pops (rs : List Reg) : run call selectable (rs.map .pop) c =
    some { c with toStack := popAll c.toStack rs } := by
  induction rs generalizing c with
  | nil => rfl
  | cons r rs ih =>
    rw [List.map_cons, run_cons, exec, Option.bind_some, ih]
    rfl

end Raccoon.Instructions
