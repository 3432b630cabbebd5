import Mathlib.Tactic

/-!
# The assembler: `Asm` of `tools/asm_pineapple.py`

A program under construction is a list of words, some of them still to be computed from a label; every
instruction method either emits a finished word or leaves such a fixup.  A Python exception is `none`.
Words and register numbers are naturals, immediates and addresses integers.
-/

namespace AgilA32

/-! ## Encodings -/

def opImm : Nat := 0b0010011
def opReg : Nat := 0b0110011
def opLoad : Nat := 0b0000011
def opStore : Nat := 0b0100011
def opBranch : Nat := 0b1100011
def opJal : Nat := 0b1101111
def opJalr : Nat := 0b1100111
def opLui : Nat := 0b0110111
def opAuipc : Nat := 0b0010111
def opSystem : Nat := 0b1110011

/-- `_s12`: the low twelve bits of an immediate. -/
def s12 (v : Int) : Nat := (v % 4096).toNat

/-- `_r`: an R-type word. -/
def rWord (funct7 rs2 rs1 funct3 rd opcode : Nat) : Nat :=
  funct7 <<< 25 ||| rs2 <<< 20 ||| rs1 <<< 15 ||| funct3 <<< 12 ||| rd <<< 7 ||| opcode

/-- `_i`: an I-type word. -/
def iWord (imm : Int) (rs1 funct3 rd opcode : Nat) : Nat :=
  s12 imm <<< 20 ||| rs1 <<< 15 ||| funct3 <<< 12 ||| rd <<< 7 ||| opcode

/-- `_u`: a U-type word. -/
def uWord (imm20 : Int) (rd opcode : Nat) : Nat :=
  (imm20 % 0x100000).toNat <<< 12 ||| rd <<< 7 ||| opcode

/-- The word that `SB`, `SH` and `SW` emit, by `funct3`. -/
def storeWord (funct3 rs2 rs1 : Nat) (imm : Int) : Nat :=
  (s12 imm >>> 5) <<< 25 ||| rs2 <<< 20 ||| rs1 <<< 15 ||| funct3 <<< 12 |||
    (s12 imm &&& 0x1F) <<< 7 ||| opStore

/-- The word of a branch with offset `off`. -/
def branchWord (funct3 rs1 rs2 : Nat) (off : Int) : Nat :=
  let imm := (off % 0x2000).toNat
  (imm >>> 12 &&& 1) <<< 31 ||| (imm >>> 5 &&& 0x3F) <<< 25 ||| rs2 <<< 20 ||| rs1 <<< 15 |||
    funct3 <<< 12 ||| (imm >>> 1 &&& 0xF) <<< 8 ||| (imm >>> 11 &&& 1) <<< 7 ||| opBranch

/-- The word of a `JAL` with offset `off`. -/
def jalWord (rd : Nat) (off : Int) : Nat :=
  let imm := (off % 0x200000).toNat
  (imm >>> 20 &&& 1) <<< 31 ||| (imm >>> 1 &&& 0x3FF) <<< 21 ||| (imm >>> 11 &&& 1) <<< 20 |||
    (imm >>> 12 &&& 0xFF) <<< 12 ||| rd <<< 7 ||| opJal

/-! ## The instruction methods -/

/-- A word to be computed once the labels are known. -/
inductive Fixup
  | branch (funct3 rs1 rs2 : Nat) (target : String)
  | jal (rd : Nat) (target : String)
  deriving DecidableEq, Repr

def Fixup.target : Fixup → String
  | .branch _ _ _ target => target
  | .jal _ target => target

/-- What an instruction method passes to `emit`. -/
inductive Emitted
  | word (w : Nat)
  | fixup (f : Fixup)
  deriving DecidableEq, Repr

/-- The instruction methods of `Asm`, with their operands in the order of the source. -/
inductive Method
  | add (rd rs1 rs2 : Nat)
  | sub (rd rs1 rs2 : Nat)
  | sll (rd rs1 rs2 : Nat)
  | slt (rd rs1 rs2 : Nat)
  | sltu (rd rs1 rs2 : Nat)
  | xor (rd rs1 rs2 : Nat)
  | srl (rd rs1 rs2 : Nat)
  | sra (rd rs1 rs2 : Nat)
  | or (rd rs1 rs2 : Nat)
  | and (rd rs1 rs2 : Nat)
  | addi (rd rs1 : Nat) (imm : Int)
  | slti (rd rs1 : Nat) (imm : Int)
  | sltiu (rd rs1 : Nat) (imm : Int)
  | xori (rd rs1 : Nat) (imm : Int)
  | andi (rd rs1 : Nat) (imm : Int)
  | ori (rd rs1 : Nat) (imm : Int)
  | slli (rd rs1 amount : Nat)
  | srli (rd rs1 amount : Nat)
  | srai (rd rs1 amount : Nat)
  | lb (rd rs1 : Nat) (imm : Int)
  | lh (rd rs1 : Nat) (imm : Int)
  | lw (rd rs1 : Nat) (imm : Int)
  | lbu (rd rs1 : Nat) (imm : Int)
  | lhu (rd rs1 : Nat) (imm : Int)
  | jalr (rd rs1 : Nat) (imm : Int)
  | lui (rd : Nat) (imm20 : Int)
  | auipc (rd : Nat) (imm20 : Int)
  | sb (rs2 rs1 : Nat) (imm : Int)
  | sw (rs2 rs1 : Nat) (imm : Int)
  | sh (rs2 rs1 : Nat) (imm : Int)
  | beq (rs1 rs2 : Nat) (target : String)
  | bne (rs1 rs2 : Nat) (target : String)
  | blt (rs1 rs2 : Nat) (target : String)
  | bge (rs1 rs2 : Nat) (target : String)
  | bltu (rs1 rs2 : Nat) (target : String)
  | bgeu (rs1 rs2 : Nat) (target : String)
  | ebreak
  | jal (rd : Nat) (target : String)
  deriving DecidableEq, Repr

/-- The methods' bodies. -/
def Method.emits : Method → Emitted
  | .add rd rs1 rs2 => .word (rWord 0 rs2 rs1 0b000 rd opReg)
  | .sub rd rs1 rs2 => .word (rWord 0x20 rs2 rs1 0b000 rd opReg)
  | .sll rd rs1 rs2 => .word (rWord 0 rs2 rs1 0b001 rd opReg)
  | .slt rd rs1 rs2 => .word (rWord 0 rs2 rs1 0b010 rd opReg)
  | .sltu rd rs1 rs2 => .word (rWord 0 rs2 rs1 0b011 rd opReg)
  | .xor rd rs1 rs2 => .word (rWord 0 rs2 rs1 0b100 rd opReg)
  | .srl rd rs1 rs2 => .word (rWord 0 rs2 rs1 0b101 rd opReg)
  | .sra rd rs1 rs2 => .word (rWord 0x20 rs2 rs1 0b101 rd opReg)
  | .or rd rs1 rs2 => .word (rWord 0 rs2 rs1 0b110 rd opReg)
  | .and rd rs1 rs2 => .word (rWord 0 rs2 rs1 0b111 rd opReg)
  | .addi rd rs1 imm => .word (iWord imm rs1 0b000 rd opImm)
  | .slti rd rs1 imm => .word (iWord imm rs1 0b010 rd opImm)
  | .sltiu rd rs1 imm => .word (iWord imm rs1 0b011 rd opImm)
  | .xori rd rs1 imm => .word (iWord imm rs1 0b100 rd opImm)
  | .andi rd rs1 imm => .word (iWord imm rs1 0b111 rd opImm)
  | .ori rd rs1 imm => .word (iWord imm rs1 0b110 rd opImm)
  | .slli rd rs1 amount => .word (iWord (amount &&& 0x1F : Nat) rs1 0b001 rd opImm)
  | .srli rd rs1 amount => .word (iWord (amount &&& 0x1F : Nat) rs1 0b101 rd opImm)
  | .srai rd rs1 amount => .word (iWord (0x400 ||| (amount &&& 0x1F) : Nat) rs1 0b101 rd opImm)
  | .lb rd rs1 imm => .word (iWord imm rs1 0b000 rd opLoad)
  | .lh rd rs1 imm => .word (iWord imm rs1 0b001 rd opLoad)
  | .lw rd rs1 imm => .word (iWord imm rs1 0b010 rd opLoad)
  | .lbu rd rs1 imm => .word (iWord imm rs1 0b100 rd opLoad)
  | .lhu rd rs1 imm => .word (iWord imm rs1 0b101 rd opLoad)
  | .jalr rd rs1 imm => .word (iWord imm rs1 0b000 rd opJalr)
  | .lui rd imm20 => .word (uWord imm20 rd opLui)
  | .auipc rd imm20 => .word (uWord imm20 rd opAuipc)
  | .sb rs2 rs1 imm => .word (storeWord 0b000 rs2 rs1 imm)
  | .sw rs2 rs1 imm => .word (storeWord 0b010 rs2 rs1 imm)
  | .sh rs2 rs1 imm => .word (storeWord 0b001 rs2 rs1 imm)
  | .beq rs1 rs2 target => .fixup (.branch 0b000 rs1 rs2 target)
  | .bne rs1 rs2 target => .fixup (.branch 0b001 rs1 rs2 target)
  | .blt rs1 rs2 target => .fixup (.branch 0b100 rs1 rs2 target)
  | .bge rs1 rs2 target => .fixup (.branch 0b101 rs1 rs2 target)
  | .bltu rs1 rs2 target => .fixup (.branch 0b110 rs1 rs2 target)
  | .bgeu rs1 rs2 target => .fixup (.branch 0b111 rs1 rs2 target)
  | .ebreak => .word (iWord 0x001 0 0b000 0 opSystem)
  | .jal rd target => .fixup (.jal rd target)

/-! ## A program under construction -/

structure Asm where
  base : Int
  instrs : List (Option Nat)
  labels : List (String × Int)
  fixups : List (Nat × Fixup)
  deriving DecidableEq, Repr

namespace Asm

def new (base : Int) : Asm := { base := base, instrs := [], labels := [], fixups := [] }

def addr (a : Asm) : Int := a.base + 4 * a.instrs.length

def label (a : Asm) (name : String) : Option Asm :=
  if (a.labels.lookup name).isSome then none
  else some { a with labels := (name, a.addr) :: a.labels }

def emit (a : Asm) : Emitted → Asm
  | .word w => { a with instrs := a.instrs ++ [some w] }
  | .fixup f =>
      { a with instrs := a.instrs ++ [none], fixups := a.fixups ++ [(a.instrs.length, f)] }

/-- An instruction method is called. -/
def exec (a : Asm) (m : Method) : Asm := a.emit m.emits

/-- The calls on an `Asm`. -/
inductive Call
  | label (name : String)
  | exec (m : Method)
  deriving DecidableEq, Repr

def call (a : Asm) : Call → Option Asm
  | .label name => a.label name
  | .exec m => some (a.exec m)

/-- The state after a sequence of calls, if none of them raises. -/
def build (a : Asm) (calls : List Call) : Option Asm := calls.foldlM call a

/-- The word of a fixup at `pc` with its target at `here`, if the offset is in range. -/
def fixupWord (pc here : Int) : Fixup → Option Nat
  | .branch funct3 rs1 rs2 _ =>
      let off := here - pc
      if -4096 ≤ off ∧ off < 4096 ∧ off % 2 = 0 then some (branchWord funct3 rs1 rs2 off) else none
  | .jal rd _ =>
      let off := here - pc
      if -1048576 ≤ off ∧ off < 1048576 ∧ off % 2 = 0 then some (jalWord rd off) else none

/-- One round of the loop of `finalize`. -/
def applyFixup (a : Asm) (words : List (Option Nat)) (entry : Nat × Fixup) :
    Option (List (Option Nat)) := do
  let here ← a.labels.lookup entry.2.target
  let word ← fixupWord (a.base + 4 * entry.1) here entry.2
  pure (words.set entry.1 (some word))

def finalize (a : Asm) : Option (List Nat) := do
  let words ← a.fixups.foldlM a.applyFixup a.instrs
  if words.all (·.isSome) then some (words.map (·.getD 0)) else none

end Asm

/-- The four bytes of a word, least significant first. -/
def wordToBytes (w : Nat) : List (BitVec 8) :=
  [BitVec.ofNat 8 w, BitVec.ofNat 8 (w >>> 8), BitVec.ofNat 8 (w >>> 16), BitVec.ofNat 8 (w >>> 24)]

/-- `words_to_bytes`; a word that does not fit in four bytes raises. -/
def wordsToBytes (words : List Nat) : Option (List (BitVec 8)) :=
  if words.all (· < 2 ^ 32) then some (words.flatMap wordToBytes) else none

end AgilA32
