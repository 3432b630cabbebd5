import AgilA32.Rtl.Core
import AgilA32.Rtl.Engine
import AgilA32.Rtl.BootRom
import AgilA32.Verilog.PartSelect

/-!
# The memory: `mem.v`

Address decode, the word-organised ROM and RAM, the memory-mapped registers and the instance of
the serial engine.  The module's three clocked blocks are three structures with a step function
each (`Timer`, `Pwm`, `MemRegs`); `Mem.step` is one rising clock edge of all of them.

A read of `ram_words` beyond its last entry has no defined value; what it gives in a cycle is the
input `undef` of that cycle.
-/

namespace AgilA32

open Verilog (partSet)

/-! ## Address decode -/

def romBytes : Nat := 176
def ramBase : BitVec 8 := 0xB0
def ramBytes : Nat := 48
def loadBase : BitVec 8 := 0xB4
def extPsramBase : BitVec 8 := 0xE0
def extPsramBytes : Nat := 16

/-- The width of the flash window, `(RAM_BASE + RAM_BYTES) - LOAD_BASE`. -/
def windowBytes : Nat := ramBase.toNat + ramBytes - loadBase.toNat

section Decode

variable (addr : BitVec 8)

def inRom : Bool := addr.toNat < romBytes
def inRamRange : Bool := ramBase.toNat ≤ addr.toNat && addr.toNat < ramBase.toNat + ramBytes
def inLoadRange : Bool := loadBase.toNat ≤ addr.toNat && addr.toNat < ramBase.toNat + ramBytes
def inExtPsram : Bool :=
  extPsramBase.toNat ≤ addr.toNat && addr.toNat < extPsramBase.toNat + extPsramBytes

/-- `ram_addr[5:2]`, `ram_addr[5:2] + 1` and `ram_addr[1:0]` for `ram_addr = addr - RAM_BASE`. -/
def ramWidx0 : BitVec 4 := (addr - ramBase).extractLsb' 2 4
def ramWidx1 : BitVec 4 := (addr - ramBase).extractLsb' 2 4 + 1
def ramByteOff : BitVec 2 := (addr - ramBase).extractLsb' 0 2

/-- `rom_pair[(addr[1:0] * 8) +: 32]`. -/
def romWord : BitVec 32 :=
  (romWordAt (addr.extractLsb' 2 6 + 1) ++ romWordAt (addr.extractLsb' 2 6)).extractLsb'
    ((addr.extractLsb' 0 2).toNat * 8) 32

end Decode

/-! ## Timer -/

structure Timer where
  timerCnt : BitVec 16
  timerEnable : Bool
  timerOverflow : Bool
  deriving DecidableEq, Repr

namespace Timer

/-- One edge without a write to either timer register. -/
def tick (t : Timer) : Timer :=
  if t.timerEnable then
    { t with
      timerCnt := t.timerCnt + 1
      timerOverflow := if t.timerCnt = 0xFFFF#16 then true else t.timerOverflow }
  else t

def step (t : Timer) (b : Bus) : Timer :=
  let t' :=
    if b.valid && b.we && b.addr == 0xF5#8 then
      { t with
        timerEnable := b.wdata.getLsbD 0
        timerCnt := if b.wdata.getLsbD 1 then 0 else t.timerCnt }
    else t.tick
  if b.valid && b.we && b.addr == 0xF6#8 then { t' with timerOverflow := false } else t'

def reset (_ : Timer) : Timer :=
  { timerCnt := 0, timerEnable := false, timerOverflow := false }

end Timer

/-! ## PWM and pin multiplexer -/

structure Pwm where
  pwmCounter : BitVec 8
  pwmDuty : BitVec 8
  pwmEnable : Bool
  pinMux : BitVec 2
  deriving DecidableEq, Repr

namespace Pwm

def step (p : Pwm) (b : Bus) : Pwm :=
  { pwmCounter := p.pwmCounter + 1
    pwmDuty := if b.valid && b.we && b.addr == 0xF7#8 then b.wdata.extractLsb' 0 8 else p.pwmDuty
    pwmEnable := if b.valid && b.we && b.addr == 0xF9#8 then b.wdata.getLsbD 0 else p.pwmEnable
    pinMux := if b.valid && b.we && b.addr == 0xFA#8 then b.wdata.extractLsb' 0 2 else p.pinMux }

def reset (_ : Pwm) : Pwm := { pwmCounter := 0, pwmDuty := 0, pwmEnable := false, pinMux := 0 }

def pwmOut (p : Pwm) : Bool :=
  p.pwmEnable && (p.pwmDuty == 0xFF#8 || p.pwmCounter.ult p.pwmDuty)

end Pwm

/-! ## RAM and the registers of the write path -/

structure MemRegs where
  ramWords : Vector (BitVec 32) 12
  gpioOut : BitVec 8
  flashMode : Bool
  flashPage : BitVec 8
  psramBank : Bool
  qspiDivSel : BitVec 2
  spiLastRx : BitVec 8
  deriving DecidableEq, Repr

namespace MemRegs

def inExtFlash (r : MemRegs) (addr : BitVec 8) : Bool := r.flashMode && inLoadRange addr

def inRam (r : MemRegs) (addr : BitVec 8) : Bool := inRamRange addr && !r.inExtFlash addr

/-- `ram_words[i]`. -/
def ramWord (r : MemRegs) (undef : BitVec 32) (i : BitVec 4) : BitVec 32 :=
  r.ramWords[i.toNat]?.getD undef

/-- `ram_words[i] <= v`; an assignment beyond the last entry is ignored. -/
def setRamWord (r : MemRegs) (i : BitVec 4) (v : BitVec 32) : MemRegs :=
  { r with ramWords := r.ramWords.setIfInBounds i.toNat v }

/-- `ram_pair[(ram_byte_off * 8) +: 32]`. -/
def ramRead (r : MemRegs) (undef : BitVec 32) (addr : BitVec 8) : BitVec 32 :=
  (r.ramWord undef (ramWidx1 addr) ++ r.ramWord undef (ramWidx0 addr)).extractLsb'
    ((ramByteOff addr).toNat * 8) 32

/-- A store to on-chip RAM: a part-select of one word, or of two when a half-word straddles them.
What a select beyond the last word would read is immaterial, since the assignment is ignored. -/
def ramWrite (r : MemRegs) (addr : BitVec 8) (size : BitVec 2) (wdata : BitVec 32) : MemRegs :=
  let i0 := ramWidx0 addr
  let i1 := ramWidx1 addr
  let off := (ramByteOff addr).toNat * 8
  match size with
  | 0#2 => r.setRamWord i0 (partSet (r.ramWord 0 i0) off (wdata.extractLsb' 0 8))
  | 1#2 =>
    if ramByteOff addr = 3#2 then
      (r.setRamWord i0 (partSet (r.ramWord 0 i0) 24 (wdata.extractLsb' 0 8))).setRamWord i1
        (partSet (r.ramWord 0 i1) 0 (wdata.extractLsb' 8 8))
    else r.setRamWord i0 (partSet (r.ramWord 0 i0) off (wdata.extractLsb' 0 16))
  | _ => r.setRamWord i0 wdata

/-- The `we`-gated chain of the write path. -/
def write (r : MemRegs) (b : Bus) : MemRegs :=
  if inRamRange b.addr && !r.inExtFlash b.addr then r.ramWrite b.addr b.size b.wdata
  else if b.addr = 0xF0#8 then { r with gpioOut := b.wdata.extractLsb' 0 8 }
  else if b.addr = 0xF1#8 then { r with psramBank := b.wdata.getLsbD 0 }
  else if b.addr = 0xF8#8 then { r with flashMode := true }
  else if b.addr = 0xFB#8 then { r with qspiDivSel := b.wdata.extractLsb' 0 2 }
  else if b.addr = 0xFC#8 then { r with flashPage := b.wdata.extractLsb' 0 8 }
  else r

def inSpiWrite (b : Bus) : Bool := b.addr == 0xFD#8 && b.we

/-- One edge of the write path; `ext_ready` and `ext_rdata` come from the engine. -/
def step (r : MemRegs) (b : Bus) (extReady : Bool) (extRdata : BitVec 32) : MemRegs :=
  let r' := if b.we then r.write b else r
  if extReady && inSpiWrite b then { r' with spiLastRx := extRdata.extractLsb' 0 8 } else r'

def reset (r : MemRegs) : MemRegs :=
  { r with
    gpioOut := 0, flashMode := false, flashPage := 0, psramBank := false, qspiDivSel := 3
    spiLastRx := 0 }

/-- Whether the access on the bus goes to the engine. -/
def inExt (r : MemRegs) (b : Bus) : Bool :=
  r.inExtFlash b.addr || inExtPsram b.addr || inSpiWrite b

def reqDev (r : MemRegs) (b : Bus) : BitVec 2 :=
  if r.inExtFlash b.addr then 1 else if inSpiWrite b then 0 else if r.psramBank then 3 else 2

/-- `flash_page * WINDOW_BYTES`. -/
def flashPageBase (r : MemRegs) : BitVec 24 :=
  r.flashPage.setWidth 24 * BitVec.ofNat 24 windowBytes

def extAddr (r : MemRegs) (b : Bus) : BitVec 24 :=
  if r.inExtFlash b.addr then r.flashPageBase + (0#16 ++ (b.addr - loadBase))
  else if inSpiWrite b then 0
  else 0#16 ++ (b.addr - extPsramBase)

/-- The engine's request port. -/
def request (r : MemRegs) (b : Bus) : Request :=
  { valid := b.valid && r.inExt b
    we := b.we && !r.inExtFlash b.addr
    dev := r.reqDev b
    addr := r.extAddr b
    wdata := b.wdata
    size := b.size
    divSel := r.qspiDivSel }

end MemRegs

/-! ## The module -/

/-- The inputs of `mem` in a cycle. -/
structure MemIn where
  bus : Bus
  gpioIn : BitVec 8
  miso : Bool
  undef : BitVec 32

structure Mem where
  timer : Timer
  pwm : Pwm
  regs : MemRegs
  qspi : Engine

namespace Mem

/-- `ready`: high unless an external access is waiting for the engine. -/
def ready (m : Mem) (b : Bus) : Bool :=
  if b.valid && m.regs.inExt b then m.qspi.reqReady else true

/-- `rdata`: the combinational read path. -/
def rdata (m : Mem) (b : Bus) (gpioIn : BitVec 8) (undef : BitVec 32) : BitVec 32 :=
  if inRom b.addr then romWord b.addr
  else if m.regs.inRam b.addr then m.regs.ramRead undef b.addr
  else if m.regs.inExt b then m.qspi.reqRdata
  else if b.addr = 0xF0#8 then m.regs.gpioOut.setWidth 32
  else if b.addr = 0xF1#8 then (BitVec.ofBool m.regs.psramBank).setWidth 32
  else if b.addr = 0xF2#8 then (m.timer.timerCnt.extractLsb' 0 8).setWidth 32
  else if b.addr = 0xF3#8 then (m.timer.timerCnt.extractLsb' 8 8).setWidth 32
  else if b.addr = 0xF4#8 then gpioIn.setWidth 32
  else if b.addr = 0xF5#8 then (BitVec.ofBool m.timer.timerEnable).setWidth 32
  else if b.addr = 0xF6#8 then (BitVec.ofBool m.timer.timerOverflow).setWidth 32
  else if b.addr = 0xF7#8 then m.pwm.pwmDuty.setWidth 32
  else if b.addr = 0xF9#8 then (BitVec.ofBool m.pwm.pwmEnable).setWidth 32
  else if b.addr = 0xFA#8 then m.pwm.pinMux.setWidth 32
  else if b.addr = 0xFB#8 then m.regs.qspiDivSel.setWidth 32
  else if b.addr = 0xFC#8 then m.regs.flashPage.setWidth 32
  else if b.addr = 0xFD#8 then m.regs.spiLastRx.setWidth 32
  else 0

/-- One rising clock edge. -/
def step (m : Mem) (i : MemIn) : Mem :=
  { timer := m.timer.step i.bus
    pwm := m.pwm.step i.bus
    regs := m.regs.step i.bus m.qspi.reqReady m.qspi.reqRdata
    qspi := m.qspi.step { req := m.regs.request i.bus, miso := i.miso } }

def reset (m : Mem) : Mem :=
  { timer := m.timer.reset, pwm := m.pwm.reset, regs := m.regs.reset, qspi := m.qspi.reset }

end Mem

end AgilA32
