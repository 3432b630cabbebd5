import Mathlib.Tactic

/-!
# The serial engine: `qspi_shared_engine.v`

One single-line SPI master shared by the flash (CS0), the PSRAMs (CS1, CS2) and the generic
peripheral (also CS2).  `Engine.step` is one rising clock edge with `rst_n` high.
-/

namespace AgilA32

/-- `ST_IDLE`, `ST_SHIFT_LO`, `ST_SHIFT_HI`, `ST_DONE`, `ST_POST`.  The three unused encodings of
the 3-bit register have no constructor: no assignment produces them. -/
inductive EngineState
  | idle | shiftLo | shiftHi | done | post
  deriving DecidableEq, Repr

/-- The request port.  `dev`: 0 = generic SPI (CS2), 1 = flash (CS0), 2 = RAM A (CS1),
3 = RAM B (CS2).  `size`: 0 = byte, 1 = half, otherwise word. -/
structure Request where
  valid : Bool
  we : Bool
  dev : BitVec 2
  addr : BitVec 24
  wdata : BitVec 32
  size : BitVec 2
  divSel : BitVec 2
  deriving DecidableEq, Repr

/-- The engine's inputs in a cycle: the request port and `pin_miso`. -/
structure EngineIn where
  req : Request
  miso : Bool

structure Engine where
  state : EngineState
  reqRdata : BitVec 32
  reqReady : Bool
  pinCs0 : Bool
  pinCs1 : Bool
  pinCs2 : Bool
  pinSck : Bool
  pinMosi : Bool
  nbitsTotal : BitVec 7
  bitsDone : BitVec 7
  halfPeriodR : BitVec 8
  divCnt : BitVec 8
  sreg : BitVec 64
  dataBits : BitVec 6
  deriving DecidableEq, Repr

/-- The engine's output pins. -/
structure Pins where
  cs0 : Bool
  cs1 : Bool
  cs2 : Bool
  sck : Bool
  mosi : Bool
  deriving DecidableEq, Repr

namespace Engine

def pins (e : Engine) : Pins :=
  { cs0 := e.pinCs0, cs1 := e.pinCs1, cs2 := e.pinCs2, sck := e.pinSck, mosi := e.pinMosi }

def cmdRead : BitVec 8 := 0x03
def cmdWrite : BitVec 8 := 0x02

/-- The data bytes of a write, lowest address first, packed against the top of the field. -/
def dataField (size : BitVec 2) (wd : BitVec 32) : BitVec 32 :=
  match size with
  | 0#2 => wd.extractLsb' 0 8 ++ 0#24
  | 1#2 => wd.extractLsb' 0 8 ++ wd.extractLsb' 8 8 ++ 0#16
  | _ => wd.extractLsb' 0 8 ++ wd.extractLsb' 8 8 ++ wd.extractLsb' 16 8 ++ wd.extractLsb' 24 8

/-- The 64-bit shift preload `{CMD, ADDR, DATA}`. -/
def buildPreload (we : Bool) (size : BitVec 2) (addr : BitVec 24) (wd : BitVec 32) : BitVec 64 :=
  (if we then cmdWrite else cmdRead) ++ addr ++ (if we then dataField size wd else 0#32)

/-- The half-period of SCK in clock cycles, from the divider field. -/
def halfPeriodFor (sel : BitVec 2) : BitVec 8 :=
  match sel with
  | 0#2 => 1
  | 1#2 => 4
  | 2#2 => 16
  | _ => 64

/-- The number of data bits an accepted request transfers. -/
def dataBitsFor (q : Request) : BitVec 6 :=
  if q.dev = 0#2 then 8 else if q.size = 0#2 then 8 else if q.size = 1#2 then 16 else 32

/-- The number of bits of the whole transaction. -/
def nbitsFor (q : Request) : BitVec 7 :=
  if q.dev = 0#2 then 8
  else 32 + (if q.size = 0#2 then 8 else if q.size = 1#2 then 16 else 32)

/-- What `ST_IDLE` loads into the shift register. -/
def preloadFor (q : Request) : BitVec 64 :=
  if q.dev = 0#2 then q.wdata.extractLsb' 0 8 ++ 0#56
  else buildPreload q.we q.size q.addr q.wdata

/-- `ST_IDLE` with `req_valid` high: the request is latched and its chip selected. -/
def accept (e : Engine) (q : Request) : Engine :=
  { e with
    reqReady := false, pinSck := false
    pinCs0 := !(q.dev == 1#2)
    pinCs1 := !(q.dev == 2#2)
    pinCs2 := !(q.dev == 3#2 || q.dev == 0#2)
    dataBits := dataBitsFor q, nbitsTotal := nbitsFor q, bitsDone := 0
    sreg := preloadFor q, halfPeriodR := halfPeriodFor q.divSel, divCnt := 0
    state := .shiftLo }

/-- The last cycle of a half-period. -/
def phaseEnds (e : Engine) : Bool := e.divCnt == e.halfPeriodR - 1

/-- `ST_SHIFT_LO`: SCK low; MOSI is set up in the first cycle of the phase. -/
def stepLo (e : Engine) : Engine :=
  { e with
    reqReady := false, pinSck := false
    pinMosi := if e.divCnt = 0 then e.sreg.getLsbD 63 else e.pinMosi
    divCnt := if e.phaseEnds then 0 else e.divCnt + 1
    state := if e.phaseEnds then .shiftHi else .shiftLo }

/-- `ST_SHIFT_HI`: SCK high; MISO is sampled in the last cycle of the phase. -/
def stepHi (e : Engine) (miso : Bool) : Engine :=
  if e.phaseEnds then
    { e with
      reqReady := false, pinSck := true
      sreg := e.sreg.extractLsb' 0 63 ++ BitVec.ofBool miso
      divCnt := 0
      bitsDone := if e.bitsDone + 1 = e.nbitsTotal then e.bitsDone else e.bitsDone + 1
      state := if e.bitsDone + 1 = e.nbitsTotal then .done else .shiftLo }
  else { e with reqReady := false, pinSck := true, divCnt := e.divCnt + 1 }

/-- The data phase, turned back into lowest-address-first order. -/
def readData (dataBits : BitVec 6) (sreg : BitVec 64) : BitVec 32 :=
  match dataBits with
  | 8#6 => 0#24 ++ sreg.extractLsb' 0 8
  | 16#6 => 0#16 ++ sreg.extractLsb' 0 8 ++ sreg.extractLsb' 8 8
  | _ =>
    sreg.extractLsb' 0 8 ++ sreg.extractLsb' 8 8 ++ sreg.extractLsb' 16 8 ++ sreg.extractLsb' 24 8

/-- `ST_DONE`: the chips are deselected and `req_ready` pulses. -/
def stepDone (e : Engine) : Engine :=
  { e with
    pinCs0 := true, pinCs1 := true, pinCs2 := true, pinSck := false
    reqRdata := readData e.dataBits e.sreg, reqReady := true, state := .post }

/-- One rising clock edge. -/
def step (e : Engine) (i : EngineIn) : Engine :=
  match e.state with
  | .idle =>
      if i.req.valid then e.accept i.req else { e with reqReady := false, pinSck := false }
  | .shiftLo => e.stepLo
  | .shiftHi => e.stepHi i.miso
  | .done => e.stepDone
  | .post => { e with reqReady := false, state := .idle }

/-- The reset values; `data_bits`, `nbits_total` and `bits_done` are not initialised. -/
def reset (e : Engine) : Engine :=
  { e with
    state := .idle, pinCs0 := true, pinCs1 := true, pinCs2 := true, pinSck := false
    pinMosi := true, reqReady := false, reqRdata := 0, sreg := 0, halfPeriodR := 1, divCnt := 0 }

end Engine

end AgilA32
