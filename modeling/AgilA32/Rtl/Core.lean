import Mathlib.Tactic

/-!
# The core: `rv32i_core.v`

The multi-cycle FSM `FETCH → FETCH_WAIT → DECODE → EXEC → MEM → MEM_WAIT → WB → FETCH`, with the
combinational decode, ALU and branch logic it evaluates from the latched instruction.  One
application of `Core.step` is one rising clock edge with `rst_n` high; `Core.reset` is the
asynchronous reset, which leaves the register file, `alu_result` and `next_pc` as they were.
-/

namespace AgilA32

/-! ## Encodings (`rv32i_defs.vh`) -/

/-- The major opcodes the core distinguishes; every other one, `FENCE`'s included, is `other`. -/
inductive Opcode
  | lui | auipc | jal | jalr | branch | load | store | imm | reg | system | other
  deriving DecidableEq, Repr

/-- The FSM states; the 3-bit encoding has no unused value. -/
inductive CoreState
  | fetch | fetchWait | decode | exec | mem | memWait | wb | halted
  deriving DecidableEq, Repr

/-- What the core drives onto the memory bus. -/
structure Bus where
  addr : BitVec 8
  wdata : BitVec 32
  size : BitVec 2
  we : Bool
  valid : Bool
  deriving DecidableEq, Repr

/-- What the memory answers in a cycle: `mem_ready` and `mem_rdata`. -/
structure Reply where
  ready : Bool
  rdata : BitVec 32

/-- The register file `regs[1:31]`.  Entry 0 does not exist: it is never read nor written. -/
abbrev RegFile := BitVec 5 → BitVec 32

structure Core where
  state : CoreState
  pc : BitVec 8
  ir : BitVec 32
  aluResult : BitVec 32
  nextPc : BitVec 8
  regs : RegFile
  memAddr : BitVec 8
  memWdata : BitVec 32
  memSize : BitVec 2
  memWe : Bool
  memValid : Bool

namespace Core

/-! ## Instruction fields -/

section Fields

variable (ir : BitVec 32)

def rd : BitVec 5 := ir.extractLsb' 7 5
def rs1 : BitVec 5 := ir.extractLsb' 15 5
def rs2 : BitVec 5 := ir.extractLsb' 20 5
def funct3 : BitVec 3 := ir.extractLsb' 12 3
def funct7B5 : Bool := ir.getLsbD 30

def opcode : Opcode :=
  match ir.extractLsb' 0 7 with
  | 0b0110111#7 => .lui
  | 0b0010111#7 => .auipc
  | 0b1101111#7 => .jal
  | 0b1100111#7 => .jalr
  | 0b1100011#7 => .branch
  | 0b0000011#7 => .load
  | 0b0100011#7 => .store
  | 0b0010011#7 => .imm
  | 0b0110011#7 => .reg
  | 0b1110011#7 => .system
  | _ => .other

/-- Any `OP_SYSTEM` word with `funct3 = 0` and `imm[11:0] = 1`; `rd` and `rs1` are not checked. -/
def isEbreak : Bool :=
  opcode ir == .system && funct3 ir == 0#3 && ir.extractLsb' 20 12 == 1#12

def immI : BitVec 32 := (ir.extractLsb' 20 12).signExtend 32
def immS : BitVec 32 := (ir.extractLsb' 25 7 ++ ir.extractLsb' 7 5).signExtend 32
def immU : BitVec 32 := ir.extractLsb' 12 20 ++ 0#12

/-- The low eight bits of the branch offset, the only ones an 8-bit `pc` uses. -/
def immB : BitVec 8 :=
  ir.extractLsb' 27 1 ++ ir.extractLsb' 26 1 ++ ir.extractLsb' 25 1 ++ ir.extractLsb' 11 1 ++
    ir.extractLsb' 10 1 ++ ir.extractLsb' 9 1 ++ ir.extractLsb' 8 1 ++ 0#1

/-- The low eight bits of the jump offset. -/
def immJ : BitVec 8 :=
  ir.extractLsb' 27 1 ++ ir.extractLsb' 26 1 ++ ir.extractLsb' 25 1 ++ ir.extractLsb' 24 1 ++
    ir.extractLsb' 23 1 ++ ir.extractLsb' 22 1 ++ ir.extractLsb' 21 1 ++ 0#1

end Fields

/-! ## Operands, ALU and branch condition -/

/-- A register operand: `x0` is hardwired to zero. -/
def readReg (regs : RegFile) (r : BitVec 5) : BitVec 32 := if r = 0#5 then 0 else regs r

def rs1Val (ir : BitVec 32) (regs : RegFile) : BitVec 32 := readReg regs (rs1 ir)
def rs2Val (ir : BitVec 32) (regs : RegFile) : BitVec 32 := readReg regs (rs2 ir)

/-- The ALU's operands and operation: 0=add 1=sub 2=sll 3=slt 4=sltu 5=xor 6=srl 7=sra 8=or 9=and. -/
structure AluIn where
  a : BitVec 32
  b : BitVec 32
  op : BitVec 4

def alu (i : AluIn) : BitVec 32 :=
  match i.op with
  | 0#4 => i.a + i.b
  | 1#4 => i.a - i.b
  | 2#4 => i.a <<< (i.b.extractLsb' 0 5).toNat
  | 3#4 => if i.a.slt i.b then 1 else 0
  | 4#4 => if i.a.ult i.b then 1 else 0
  | 5#4 => i.a ^^^ i.b
  | 6#4 => i.a >>> (i.b.extractLsb' 0 5).toNat
  | 7#4 => i.a.sshiftRight (i.b.extractLsb' 0 5).toNat
  | 8#4 => i.a ||| i.b
  | 9#4 => i.a &&& i.b
  | _ => 0

/-- The operation of an `OP_IMM` instruction. -/
def aluOpImm (ir : BitVec 32) : BitVec 4 :=
  match funct3 ir with
  | 0b000#3 => 0
  | 0b010#3 => 3
  | 0b011#3 => 4
  | 0b100#3 => 5
  | 0b110#3 => 8
  | 0b111#3 => 9
  | 0b001#3 => 2
  | 0b101#3 => if funct7B5 ir then 7 else 6
  | _ => 0

/-- The operation of an `OP_REG` instruction. -/
def aluOpReg (ir : BitVec 32) : BitVec 4 :=
  match funct3 ir with
  | 0b000#3 => if funct7B5 ir then 1 else 0
  | 0b001#3 => 2
  | 0b010#3 => 3
  | 0b011#3 => 4
  | 0b100#3 => 5
  | 0b101#3 => if funct7B5 ir then 7 else 6
  | 0b110#3 => 8
  | 0b111#3 => 9
  | _ => 0

/-- The combinational decode of the latched instruction into ALU inputs. -/
def aluDecode (ir : BitVec 32) (regs : RegFile) : AluIn :=
  match opcode ir with
  | .imm => { a := rs1Val ir regs, b := immI ir, op := aluOpImm ir }
  | .reg => { a := rs1Val ir regs, b := rs2Val ir regs, op := aluOpReg ir }
  | .load => { a := rs1Val ir regs, b := immI ir, op := 0 }
  | .store => { a := rs1Val ir regs, b := immS ir, op := 0 }
  | .branch => { a := rs1Val ir regs, b := rs2Val ir regs, op := 1 }
  | _ => { a := rs1Val ir regs, b := rs2Val ir regs, op := 0 }

def aluY (ir : BitVec 32) (regs : RegFile) : BitVec 32 := alu (aluDecode ir regs)

def branchCond (ir : BitVec 32) (regs : RegFile) : Bool :=
  match funct3 ir with
  | 0b000#3 => rs1Val ir regs == rs2Val ir regs
  | 0b001#3 => rs1Val ir regs != rs2Val ir regs
  | 0b100#3 => (rs1Val ir regs).slt (rs2Val ir regs)
  | 0b101#3 => !(rs1Val ir regs).slt (rs2Val ir regs)
  | 0b110#3 => (rs1Val ir regs).ult (rs2Val ir regs)
  | 0b111#3 => !(rs1Val ir regs).ult (rs2Val ir regs)
  | _ => false

/-! ## What one instruction computes

The right-hand sides of the FSM's assignments, as functions of the latched instruction, the current
`pc` and the register file. -/

/-- `next_pc`, assigned in `ST_EXEC`. -/
def nextPcOf (ir : BitVec 32) (pc : BitVec 8) (regs : RegFile) : BitVec 8 :=
  match opcode ir with
  | .jal => pc + immJ ir
  | .jalr => ((rs1Val ir regs).extractLsb' 0 8 + (immI ir).extractLsb' 0 8) &&& 0xFE#8
  | .branch => if branchCond ir regs then pc + immB ir else pc + 4
  | _ => pc + 4

/-- `mem_size`, from `funct3[1:0]`. -/
def accessSize (ir : BitVec 32) : BitVec 2 :=
  if (funct3 ir).extractLsb' 0 2 = 0b00#2 then 0
  else if (funct3 ir).extractLsb' 0 2 = 0b01#2 then 1
  else 2

/-- A load's value as written back, extended by `funct3`. -/
def loadValue (ir : BitVec 32) (rdata : BitVec 32) : BitVec 32 :=
  match funct3 ir with
  | 0b000#3 => (rdata.extractLsb' 0 8).signExtend 32
  | 0b001#3 => (rdata.extractLsb' 0 16).signExtend 32
  | 0b010#3 => rdata
  | 0b100#3 => (rdata.extractLsb' 0 8).setWidth 32
  | 0b101#3 => (rdata.extractLsb' 0 16).setWidth 32
  | _ => rdata

/-- The write `regs[rd] <= v`, which the FSM guards with `rd != 0`. -/
def writeReg (regs : RegFile) (r : BitVec 5) (v : BitVec 32) : RegFile :=
  if r = 0#5 then regs else Function.update regs r v

/-- The register file after `ST_WB`. -/
def writeBack (ir : BitVec 32) (pc : BitVec 8) (aluResult rdata : BitVec 32) (regs : RegFile) :
    RegFile :=
  match opcode ir with
  | .lui => writeReg regs (rd ir) (immU ir)
  | .auipc => writeReg regs (rd ir) (pc.setWidth 32 + immU ir)
  | .jal => writeReg regs (rd ir) (pc.setWidth 32 + 4)
  | .jalr => writeReg regs (rd ir) (pc.setWidth 32 + 4)
  | .load => writeReg regs (rd ir) (loadValue ir rdata)
  | .imm => writeReg regs (rd ir) aluResult
  | .reg => writeReg regs (rd ir) aluResult
  | _ => regs

/-! ## The FSM -/

def bus (c : Core) : Bus :=
  { addr := c.memAddr, wdata := c.memWdata, size := c.memSize, we := c.memWe, valid := c.memValid }

/-- The `halted` output. -/
def halted (c : Core) : Bool := c.state == .halted

/-- The `ST_MEM` state: the bus request of a load or store, if there is one. -/
def stepMem (c : Core) : Core :=
  match opcode c.ir with
  | .load =>
      { c with
        memAddr := (aluY c.ir c.regs).extractLsb' 0 8, memWe := false
        memSize := accessSize c.ir, memValid := true, state := .memWait }
  | .store =>
      { c with
        memAddr := (aluY c.ir c.regs).extractLsb' 0 8, memWdata := rs2Val c.ir c.regs
        memWe := true, memSize := accessSize c.ir, memValid := true, state := .memWait }
  | _ => { c with memWe := false, memValid := false, state := .memWait }

/-- One rising clock edge. -/
def step (c : Core) (i : Reply) : Core :=
  match c.state with
  | .fetch =>
      { c with
        memAddr := c.pc, memWe := false, memSize := 2, memValid := true, state := .fetchWait }
  | .fetchWait => if i.ready then { c with memValid := false, state := .decode } else c
  | .decode => { c with ir := i.rdata, state := .exec }
  | .exec =>
      if isEbreak c.ir then { c with memWe := false, memValid := false, state := .halted }
      else
        { c with
          aluResult := aluY c.ir c.regs, nextPc := nextPcOf c.ir c.pc c.regs, state := .mem }
  | .mem => stepMem c
  | .memWait => if i.ready then { c with memValid := false, memWe := false, state := .wb } else c
  | .wb =>
      { c with
        memWe := false, regs := writeBack c.ir c.pc c.aluResult i.rdata c.regs
        pc := c.nextPc, state := .fetch }
  | .halted => { c with memValid := false, memWe := false, state := .halted }

/-- The reset values; what reset does not initialise keeps its power-up contents. -/
def reset (c : Core) : Core :=
  { c with
    state := .fetch, pc := 0, ir := 0, memWe := false, memAddr := 0, memSize := 2
    memWdata := 0, memValid := false }

/-- A power-up state: every register zero. -/
def zeroed : Core where
  state := .fetch
  pc := 0
  ir := 0
  aluResult := 0
  nextPc := 0
  regs _ := 0
  memAddr := 0
  memWdata := 0
  memSize := 0
  memWe := false
  memValid := false

end Core

end AgilA32
