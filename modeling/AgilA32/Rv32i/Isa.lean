import Mathlib.Tactic

/-!
# The RV32I base integer instruction set

A reference semantics of the unprivileged RV32I base ISA, independent of any implementation: the
instructions with their immediates already extended to 32 bits, the decoder from the standard's
format tables, and the effect of one instruction on a hart.  Memory is outside: an instruction
names the access it makes (`Instr.memReq`) and is given the value a load returns (`Instr.exec`).
`FENCE` and `ECALL` have no effect on the hart, and `EBREAK` stops it.
-/

namespace Rv32i

abbrev Word := BitVec 32
abbrev Reg := BitVec 5

/-! ## Instructions -/

inductive BranchOp
  | beq | bne | blt | bge | bltu | bgeu
  deriving DecidableEq, Repr

inductive LoadOp
  | lb | lh | lw | lbu | lhu
  deriving DecidableEq, Repr

inductive StoreOp
  | sb | sh | sw
  deriving DecidableEq, Repr

inductive AluOp
  | add | sub | sll | slt | sltu | xor | srl | sra | or | and
  deriving DecidableEq, Repr

inductive Instr
  | lui (rd : Reg) (imm : Word)
  | auipc (rd : Reg) (imm : Word)
  | jal (rd : Reg) (offset : Word)
  | jalr (rd rs1 : Reg) (offset : Word)
  | branch (op : BranchOp) (rs1 rs2 : Reg) (offset : Word)
  | load (op : LoadOp) (rd rs1 : Reg) (offset : Word)
  | store (op : StoreOp) (rs1 rs2 : Reg) (offset : Word)
  | aluImm (op : AluOp) (rd rs1 : Reg) (imm : Word)
  | alu (op : AluOp) (rd rs1 rs2 : Reg)
  | fence
  | ecall
  | ebreak
  deriving DecidableEq, Repr

/-! ## Decoding -/

section Decode

variable (w : Word)

def rdField : Reg := w.extractLsb' 7 5
def rs1Field : Reg := w.extractLsb' 15 5
def rs2Field : Reg := w.extractLsb' 20 5
def funct3Field : BitVec 3 := w.extractLsb' 12 3
def funct7Field : BitVec 7 := w.extractLsb' 25 7
def opcodeField : BitVec 7 := w.extractLsb' 0 7

def iImm : Word := (w.extractLsb' 20 12).signExtend 32
def sImm : Word := (w.extractLsb' 25 7 ++ w.extractLsb' 7 5).signExtend 32
def bImm : Word :=
  (w.extractLsb' 31 1 ++ w.extractLsb' 7 1 ++ w.extractLsb' 25 6 ++ w.extractLsb' 8 4 ++
    0#1).signExtend 32
def uImm : Word := w.extractLsb' 12 20 ++ 0#12
def jImm : Word :=
  (w.extractLsb' 31 1 ++ w.extractLsb' 12 8 ++ w.extractLsb' 20 1 ++ w.extractLsb' 21 10 ++
    0#1).signExtend 32

/-- A shift's immediate: the `rs2` field as an unsigned amount. -/
def shamt : Word := (rs2Field w).setWidth 32

def decodeBranch : Option BranchOp :=
  match funct3Field w with
  | 0b000#3 => some .beq
  | 0b001#3 => some .bne
  | 0b100#3 => some .blt
  | 0b101#3 => some .bge
  | 0b110#3 => some .bltu
  | 0b111#3 => some .bgeu
  | _ => none

def decodeLoad : Option LoadOp :=
  match funct3Field w with
  | 0b000#3 => some .lb
  | 0b001#3 => some .lh
  | 0b010#3 => some .lw
  | 0b100#3 => some .lbu
  | 0b101#3 => some .lhu
  | _ => none

def decodeStore : Option StoreOp :=
  match funct3Field w with
  | 0b000#3 => some .sb
  | 0b001#3 => some .sh
  | 0b010#3 => some .sw
  | _ => none

/-- The operation and the 32-bit operand of an `OP-IMM` word. -/
def decodeOpImm : Option (AluOp × Word) :=
  match funct3Field w with
  | 0b000#3 => some (.add, iImm w)
  | 0b010#3 => some (.slt, iImm w)
  | 0b011#3 => some (.sltu, iImm w)
  | 0b100#3 => some (.xor, iImm w)
  | 0b110#3 => some (.or, iImm w)
  | 0b111#3 => some (.and, iImm w)
  | 0b001#3 => if funct7Field w = 0b0000000#7 then some (.sll, shamt w) else none
  | 0b101#3 =>
    if funct7Field w = 0b0000000#7 then some (.srl, shamt w)
    else if funct7Field w = 0b0100000#7 then some (.sra, shamt w)
    else none
  | _ => none

def decodeOp : Option AluOp :=
  match funct7Field w with
  | 0b0000000#7 =>
    match funct3Field w with
    | 0b000#3 => some .add
    | 0b001#3 => some .sll
    | 0b010#3 => some .slt
    | 0b011#3 => some .sltu
    | 0b100#3 => some .xor
    | 0b101#3 => some .srl
    | 0b110#3 => some .or
    | 0b111#3 => some .and
    | _ => none
  | 0b0100000#7 =>
    match funct3Field w with
    | 0b000#3 => some .sub
    | 0b101#3 => some .sra
    | _ => none
  | _ => none

/-- The instruction a word encodes; `none` for a word that is no legal RV32I base encoding.
The fields `FENCE` reserves for future use are ignored, as the standard asks. -/
def decode : Option Instr :=
  match opcodeField w with
  | 0b0110111#7 => some (.lui (rdField w) (uImm w))
  | 0b0010111#7 => some (.auipc (rdField w) (uImm w))
  | 0b1101111#7 => some (.jal (rdField w) (jImm w))
  | 0b1100111#7 =>
    if funct3Field w = 0b000#3 then some (.jalr (rdField w) (rs1Field w) (iImm w)) else none
  | 0b1100011#7 => (decodeBranch w).map (.branch · (rs1Field w) (rs2Field w) (bImm w))
  | 0b0000011#7 => (decodeLoad w).map (.load · (rdField w) (rs1Field w) (iImm w))
  | 0b0100011#7 => (decodeStore w).map (.store · (rs1Field w) (rs2Field w) (sImm w))
  | 0b0010011#7 => (decodeOpImm w).map fun p => .aluImm p.1 (rdField w) (rs1Field w) p.2
  | 0b0110011#7 => (decodeOp w).map (.alu · (rdField w) (rs1Field w) (rs2Field w))
  | 0b0001111#7 => if funct3Field w = 0b000#3 then some .fence else none
  | 0b1110011#7 =>
    if w = 0x00000073#32 then some .ecall
    else if w = 0x00100073#32 then some .ebreak
    else none
  | _ => none

end Decode

/-! ## Semantics -/

/-- A hart: its program counter and `x1`..`x31`.  `x0` is not state. -/
structure Hart where
  pc : Word
  x : Reg → Word

namespace Hart

/-- A register's value: `x0` is always zero. -/
def get (h : Hart) (r : Reg) : Word := if r = 0 then 0 else h.x r

/-- A register write: one to `x0` has no effect. -/
def set (h : Hart) (r : Reg) (v : Word) : Hart :=
  if r = 0 then h else { h with x := Function.update h.x r v }

def goto (h : Hart) (pc : Word) : Hart := { h with pc := pc }

end Hart

def BranchOp.taken : BranchOp → Word → Word → Bool
  | .beq, a, b => a == b
  | .bne, a, b => a != b
  | .blt, a, b => a.slt b
  | .bge, a, b => b.sle a
  | .bltu, a, b => a.ult b
  | .bgeu, a, b => b.ule a

/-- A shift uses the low five bits of its second operand. -/
def AluOp.eval : AluOp → Word → Word → Word
  | .add, a, b => a + b
  | .sub, a, b => a - b
  | .sll, a, b => a <<< (b.toNat % 32)
  | .slt, a, b => if a.slt b then 1 else 0
  | .sltu, a, b => if a.ult b then 1 else 0
  | .xor, a, b => a ^^^ b
  | .srl, a, b => a >>> (b.toNat % 32)
  | .sra, a, b => a.sshiftRight (b.toNat % 32)
  | .or, a, b => a ||| b
  | .and, a, b => a &&& b

inductive Width
  | byte | half | word
  deriving DecidableEq, Repr

/-- The number of bytes of an access. -/
def Width.bytes : Width → Nat
  | .byte => 1
  | .half => 2
  | .word => 4

def LoadOp.width : LoadOp → Width
  | .lb | .lbu => .byte
  | .lh | .lhu => .half
  | .lw => .word

def StoreOp.width : StoreOp → Width
  | .sb => .byte
  | .sh => .half
  | .sw => .word

/-- What a load writes to its register, from the word memory returned: the low byte or half-word,
sign- or zero-extended, or the word. -/
def LoadOp.extend : LoadOp → Word → Word
  | .lb, v => (v.setWidth 8).signExtend 32
  | .lh, v => (v.setWidth 16).signExtend 32
  | .lw, v => v
  | .lbu, v => (v.setWidth 8).setWidth 32
  | .lhu, v => (v.setWidth 16).setWidth 32

/-- A data access. -/
inductive MemReq
  | load (width : Width) (addr : Word)
  | store (width : Width) (addr data : Word)
  deriving DecidableEq, Repr

namespace Instr

/-- The data access of an instruction. -/
def memReq (h : Hart) : Instr → Option MemReq
  | .load op _ rs1 offset => some (.load op.width (h.get rs1 + offset))
  | .store op rs1 rs2 offset => some (.store op.width (h.get rs1 + offset) (h.get rs2))
  | _ => none

/-- The hart after an instruction; `loaded` is what memory returned to a load. -/
def exec (h : Hart) (loaded : Word) : Instr → Hart
  | .lui rd imm => (h.set rd imm).goto (h.pc + 4)
  | .auipc rd imm => (h.set rd (h.pc + imm)).goto (h.pc + 4)
  | .jal rd offset => (h.set rd (h.pc + 4)).goto (h.pc + offset)
  | .jalr rd rs1 offset => (h.set rd (h.pc + 4)).goto ((h.get rs1 + offset) &&& ~~~1)
  | .branch op rs1 rs2 offset =>
      h.goto (if op.taken (h.get rs1) (h.get rs2) then h.pc + offset else h.pc + 4)
  | .load op rd _ _ => (h.set rd (op.extend loaded)).goto (h.pc + 4)
  | .store .. => h.goto (h.pc + 4)
  | .aluImm op rd rs1 imm => (h.set rd (op.eval (h.get rs1) imm)).goto (h.pc + 4)
  | .alu op rd rs1 rs2 => (h.set rd (op.eval (h.get rs1) (h.get rs2))).goto (h.pc + 4)
  | .fence => h.goto (h.pc + 4)
  | .ecall => h.goto (h.pc + 4)
  | .ebreak => h

end Instr

/-! ## Projections of the updates -/

namespace Hart

variable (h : Hart) (r : Reg) (v pc : Word)

@[simp] theorem goto_pc : (h.goto pc).pc = pc := rfl
@[simp] theorem goto_x : (h.goto pc).x = h.x := rfl
@[simp] theorem goto_get : (h.goto pc).get r = h.get r := rfl
@[simp] theorem get_zero : h.get 0 = 0 := rfl

@[simp] theorem set_pc : (h.set r v).pc = h.pc := by
  unfold set; split <;> rfl

theorem set_x : (h.set r v).x = if r = 0 then h.x else Function.update h.x r v := by
  unfold set; split <;> rfl

theorem get_set (s : Reg) : (h.set r v).get s = if s = r ∧ s ≠ 0 then v else h.get s := by
  unfold get
  rw [set_x]
  by_cases rzero : r = 0
  · subst rzero; grind
  · rw [if_neg rzero, Function.update_apply]; grind

end Hart

end Rv32i
