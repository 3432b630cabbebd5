import AgilA32.Core.Refine
import AgilA32.Mem.Ram
import AgilA32.Rtl.Top
import AgilA32.Rv32i.Dataflow

/-!
# Two machines that differ in what reset leaves alone

Reset leaves the register file, `alu_result`, `next_pc`, the RAM and three registers of the engine as they
were.  `Engine.Agrees`, `MemRegs.Agrees`, `Mem.Agrees` and `Core.Agrees` say that two machines are the
same in everything else.  The engine and the memory keep this by themselves when they see the same bus;
the core does as long as the registers that its instructions read agree.
-/

namespace AgilA32

/-! ## The engine -/

namespace Engine

/-- The same engine, but for the registers that accepting a request initialises while it is idle. -/
def Agrees (e e' : Engine) : Prop :=
  e' = e ∨ e.state = .idle ∧
    e' = { e with nbitsTotal := e'.nbitsTotal, bitsDone := e'.bitsDone, dataBits := e'.dataBits }

variable {e e' : Engine}

theorem Agrees.pins (same : e.Agrees e') : e'.pins = e.pins := by
  rcases same with rfl | ⟨-, same⟩
  · rfl
  · rw [same]
    rfl

theorem Agrees.reply (same : e.Agrees e') : e'.reqReady = e.reqReady ∧ e'.reqRdata = e.reqRdata := by
  rcases same with rfl | ⟨-, same⟩
  · exact ⟨rfl, rfl⟩
  · rw [same]
    exact ⟨rfl, rfl⟩

theorem Agrees.step (same : e.Agrees e') (i : EngineIn) : (e.step i).Agrees (e'.step i) := by
  rcases same with rfl | ⟨idle, same⟩
  · exact .inl rfl
  have idle' : e'.state = .idle := by
    rw [same]
    exact idle
  rw [Engine.step, Engine.step, idle, idle']
  dsimp only
  cases i.req.valid
  · refine .inr ⟨rfl, ?_⟩
    rw [same]
    rfl
  · -- accepting a request gives every register of the transaction its value
    refine .inl ?_
    rw [same]
    rfl

theorem agrees_reset (e e' : Engine) : e.reset.Agrees e'.reset := .inr ⟨rfl, rfl⟩

end Engine

/-! ## The memory -/

namespace MemRegs

/-- The same registers, but for the RAM. -/
structure Agrees (m m' : MemRegs) : Prop where
  gpioOut : m'.gpioOut = m.gpioOut
  flashMode : m'.flashMode = m.flashMode
  flashPage : m'.flashPage = m.flashPage
  psramBank : m'.psramBank = m.psramBank
  qspiDivSel : m'.qspiDivSel = m.qspiDivSel
  spiLastRx : m'.spiLastRx = m.spiLastRx

theorem agrees_reset (m m' : MemRegs) : m.reset.Agrees m'.reset := ⟨rfl, rfl, rfl, rfl, rfl, rfl⟩

namespace Agrees

variable {m m' : MemRegs} (same : m.Agrees m') (b : Bus)
include same

theorem write : (m.write b).Agrees (m'.write b) := by
  rw [m.write_eq b, m'.write_eq b]
  constructor
  · simp only [same.gpioOut]
  · simp only [same.flashMode]
  · simp only [same.flashPage]
  · simp only [same.psramBank]
  · simp only [same.qspiDivSel]
  · exact same.spiLastRx

theorem step (ready : Bool) (rx : BitVec 32) : (m.step b ready rx).Agrees (m'.step b ready rx) := by
  have written : (if b.we then m.write b else m).Agrees (if b.we then m'.write b else m') := by
    cases b.we
    · exact same
    · exact same.write b
  unfold MemRegs.step
  dsimp only
  split
  · exact { written with spiLastRx := rfl }
  · exact written

theorem inExtFlash (addr : BitVec 8) : m'.inExtFlash addr = m.inExtFlash addr := by
  rw [MemRegs.inExtFlash, MemRegs.inExtFlash, same.flashMode]

theorem inExt : m'.inExt b = m.inExt b := by
  rw [MemRegs.inExt, MemRegs.inExt, same.inExtFlash]

theorem request : m'.request b = m.request b := by
  simp only [MemRegs.request, MemRegs.reqDev, MemRegs.extAddr, MemRegs.flashPageBase, same.inExt,
    same.inExtFlash, same.psramBank, same.flashPage, same.qspiDivSel]

end Agrees

end MemRegs

namespace Mem

structure Agrees (m m' : Mem) : Prop where
  timer : m'.timer = m.timer
  pwm : m'.pwm = m.pwm
  regs : m.regs.Agrees m'.regs
  qspi : m.qspi.Agrees m'.qspi

theorem agrees_reset (m m' : Mem) : m.reset.Agrees m'.reset :=
  ⟨rfl, rfl, MemRegs.agrees_reset _ _, Engine.agrees_reset _ _⟩

namespace Agrees

variable {m m' : Mem} (same : m.Agrees m')
include same

theorem step {i i' : MemIn} (bus : i'.bus = i.bus) (miso : i'.miso = i.miso) :
    (m.step i).Agrees (m'.step i') := by
  obtain ⟨ready, rdata⟩ := same.qspi.reply
  refine ⟨?_, ?_, ?_, ?_⟩
  · rw [Mem.step, Mem.step, same.timer, bus]
  · rw [Mem.step, Mem.step, same.pwm, bus]
  · rw [Mem.step, Mem.step, bus, ready, rdata]
    exact same.regs.step _ _ _
  · rw [Mem.step, Mem.step, bus, miso, same.regs.request]
    exact same.qspi.step _

theorem ready (b : Bus) : m'.ready b = m.ready b := by
  rw [Mem.ready, Mem.ready, same.regs.inExt, same.qspi.reply.1]

/-- Away from the RAM the two read the same. -/
theorem rdata {b : Bus} (outside : inRamRange b.addr = false) (gpioIn : BitVec 8)
    (undef undef' : BitVec 32) : m'.rdata b gpioIn undef' = m.rdata b gpioIn undef := by
  have noRam (m : MemRegs) : m.inRam b.addr = false := by rw [MemRegs.inRam, outside]; rfl
  simp only [Mem.rdata, noRam, Bool.false_eq_true, if_false, same.regs.inExt, same.qspi.reply.2,
    same.timer, same.pwm, same.regs.gpioOut, same.regs.psramBank, same.regs.qspiDivSel,
    same.regs.flashPage, same.regs.spiLastRx]

end Agrees

end Mem

/-! ## The core -/

namespace Core

open Rv32i (Hart Instr decode)

/-- The same core, but for the register file and the two registers between `ST_EXEC` and `ST_WB`. -/
structure Agrees (c c' : Core) : Prop where
  state : c'.state = c.state
  pc : c'.pc = c.pc
  ir : c'.ir = c.ir
  memAddr : c'.memAddr = c.memAddr
  memWdata : c'.memWdata = c.memWdata
  memSize : c'.memSize = c.memSize
  memWe : c'.memWe = c.memWe
  memValid : c'.memValid = c.memValid

theorem agrees_reset (c c' : Core) : c.reset.Agrees c'.reset :=
  ⟨rfl, rfl, rfl, rfl, rfl, rfl, rfl, rfl⟩

theorem Agrees.bus {c c' : Core} (same : c.Agrees c') : c'.bus = c.bus := by
  simp only [Core.bus, same.memAddr, same.memWdata, same.memSize, same.memWe, same.memValid]

section Access

variable {c c' : Core} {w : BitVec 32} {i : Rv32i.Instr}

/-- The address and the data of an access come from registers that the instruction reads. -/
theorem reads_of_access (decoded : decode w = some i) :
    (opcode w = .load → i.reads = [rs1 w]) ∧ (opcode w = .store → i.reads = [rs1 w, rs2 w]) := by
  cases encodes_of_decode decoded with
  | ecall word => subst word; decide
  | ebreak word => subst word; decide
  | _ => simp_all [Instr.reads]

/-- Cores that agree on what the instruction reads agree on what `ST_MEM` puts on the bus. -/
theorem Agrees.issued (same : c.Agrees c') (decoded : decode w = some i)
    (read : Hart.AgreeOn i.reads (hart c.pc c.regs) (hart c'.pc c'.regs)) :
    (c.issued w).Agrees (c'.issued w) := by
  obtain ⟨load, store⟩ := reads_of_access decoded
  have ir (c : Core) : (c.executed w).ir = w := rfl
  unfold Core.issued stepMem
  rw [ir, ir]
  split
  case h_1 kind =>
    have base : rs1Val w c'.regs = rs1Val w c.regs := read _ (by simp [load kind])
    have addr : aluY w c'.regs = aluY w c.regs := by simp only [aluY, aluDecode, kind, base]
    exact ⟨rfl, same.pc, rfl, congrArg (BitVec.extractLsb' 0 8) addr, same.memWdata, rfl, rfl, rfl⟩
  case h_2 kind =>
    have base : rs1Val w c'.regs = rs1Val w c.regs := read _ (by simp [store kind])
    have data : rs2Val w c'.regs = rs2Val w c.regs := read _ (by simp [store kind])
    have addr : aluY w c'.regs = aluY w c.regs := by simp only [aluY, aluDecode, kind, base]
    exact ⟨rfl, same.pc, rfl, congrArg (BitVec.extractLsb' 0 8) addr, data, rfl, rfl, rfl⟩
  case h_3 => exact ⟨rfl, same.pc, rfl, same.pc, same.memWdata, rfl, rfl, rfl⟩

end Access

end Core

/-! ## The whole design -/

namespace Top

structure Agrees (s s' : Top) : Prop where
  core : s.core.Agrees s'.core
  mem : s.mem.Agrees s'.mem

/-- The output pins are the same. -/
theorem Agrees.pins {s s' : Top} (same : s.Agrees s') :
    s'.uoOut = s.uoOut ∧ s'.uioOut = s.uioOut ∧ s'.uioOe = s.uioOe := by
  have halted : s'.core.halted = s.core.halted := congrArg (· == CoreState.halted) same.core.state
  have pins := same.mem.qspi.pins
  rw [Engine.pins, Engine.pins, Pins.mk.injEq] at pins
  obtain ⟨cs0, cs1, cs2, sck, mosi⟩ := pins
  refine ⟨?_, ?_, rfl⟩
  · simp only [uoOut, uo7Mux, same.mem.regs.gpioOut, same.mem.pwm, halted]
  · simp only [uioOut, cs0, cs1, cs2, sck, mosi]

end Top

end AgilA32
