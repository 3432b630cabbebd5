import AgilA32.Clocked.Run
import AgilA32.Rtl.Mem

/-!
# The top level: `tt_um_agila32.v`

The core wired to the memory, and the pins.  `Top.step` is one rising clock edge with `rst_n` high;
a run from reset starts in `Top.reset s` for an arbitrary power-up state `s`.
-/

namespace AgilA32

/-- The inputs of a cycle: the pins, and the value of an undefined RAM word (see `Rtl/Mem`). -/
structure TopIn where
  uiIn : BitVec 8
  uioIn : BitVec 8
  undef : BitVec 32

/-- `uio_in[2]`. -/
def TopIn.qspiMiso (i : TopIn) : Bool := i.uioIn.getLsbD 2

structure Top where
  core : Core
  mem : Mem

namespace Top

def memReady (s : Top) : Bool := s.mem.ready s.core.bus

def memRdata (s : Top) (i : TopIn) : BitVec 32 := s.mem.rdata s.core.bus i.uiIn i.undef

def coreIn (s : Top) (i : TopIn) : Reply := { ready := s.memReady, rdata := s.memRdata i }

def memIn (s : Top) (i : TopIn) : MemIn :=
  { bus := s.core.bus, gpioIn := i.uiIn, miso := i.qspiMiso, undef := i.undef }

/-- One rising clock edge. -/
def step (s : Top) (i : TopIn) : Top :=
  { core := s.core.step (s.coreIn i), mem := s.mem.step (s.memIn i) }

def reset (s : Top) : Top := { core := s.core.reset, mem := s.mem.reset }

/-- A power-up state: every register zero. -/
def zeroed : Top where
  core := Core.zeroed
  mem :=
    { timer := { timerCnt := 0, timerEnable := false, timerOverflow := false }
      pwm := { pwmCounter := 0, pwmDuty := 0, pwmEnable := false, pinMux := 0 }
      regs := { ramWords := Vector.replicate 12 0, gpioOut := 0, flashMode := false, flashPage := 0
                psramBank := false, qspiDivSel := 0, spiLastRx := 0 }
      qspi := { state := .idle, reqRdata := 0, reqReady := false, pinCs0 := false, pinCs1 := false
                pinCs2 := false, pinSck := false, pinMosi := false, nbitsTotal := 0, bitsDone := 0
                halfPeriodR := 0, divCnt := 0, sreg := 0, dataBits := 0 } }

/-- The run from that state's reset with every input low. -/
def zeroedRun : Clocked.Run Top.step :=
  .ofInputs Top.step zeroed.reset fun _ => { uiIn := 0, uioIn := 0, undef := 0 }

/-! ## Output pins -/

def uo7Mux (s : Top) : Bool :=
  if s.mem.pwm.pinMux = 1#2 then s.mem.pwm.pwmOut
  else if s.mem.pwm.pinMux = 2#2 then s.core.halted
  else s.mem.regs.gpioOut.getLsbD 7

def uoOut (s : Top) : BitVec 8 := BitVec.ofBool s.uo7Mux ++ s.mem.regs.gpioOut.extractLsb' 0 7

def uioOut (s : Top) : BitVec 8 :=
  BitVec.ofBool s.mem.qspi.pinCs2 ++ BitVec.ofBool s.mem.qspi.pinCs1 ++ 1#1 ++ 1#1 ++
    BitVec.ofBool s.mem.qspi.pinSck ++ 0#1 ++ BitVec.ofBool s.mem.qspi.pinMosi ++
    BitVec.ofBool s.mem.qspi.pinCs0

def uioOe (_ : Top) : BitVec 8 := 0b11111011#8

end Top

end AgilA32
