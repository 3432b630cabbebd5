import AgilA32.Board.SpiRam
import AgilA32.Rtl.Top

/-!
# The board: the design with serial memories on its chip selects

As in the repository's test benches: one chip on each chip select, all on one SCK and MOSI, and
MISO driven by the selected chip.  `MemBoard` is the memory with its chips, driven by a bus;
`Board` is the whole design with its chips.
-/

namespace AgilA32

namespace Pins

def flash (p : Pins) : SpiPins := { csN := p.cs0, sck := p.sck, mosi := p.mosi }
def ramA (p : Pins) : SpiPins := { csN := p.cs1, sck := p.sck, mosi := p.mosi }
def ramB (p : Pins) : SpiPins := { csN := p.cs2, sck := p.sck, mosi := p.mosi }

end Pins

/-- The chips: flash on CS0, RAM A on CS1, RAM B on CS2. -/
structure Chips where
  flash : SpiRam
  ramA : SpiRam
  ramB : SpiRam

namespace Chips

/-- The shared MISO line; `floating` is its value when no chip is selected. -/
def miso (c : Chips) (p : Pins) (floating : Bool) : Bool :=
  if p.cs0 = false then c.flash.miso
  else if p.cs1 = false then c.ramA.miso
  else if p.cs2 = false then c.ramB.miso
  else floating

/-- The chips see the pins change. -/
def edge (c : Chips) (old new : Pins) : Chips :=
  { flash := c.flash.edge old.flash new.flash
    ramA := c.ramA.edge old.ramA new.ramA
    ramB := c.ramB.edge old.ramB new.ramB }

/-- Reset drives all selects high, and a rising select resets a chip's protocol state. -/
def reset (c : Chips) : Chips :=
  { flash := { c.flash with phase := .cmd, bitcnt := 0, addrByte := 0, miso := false }
    ramA := { c.ramA with phase := .cmd, bitcnt := 0, addrByte := 0, miso := false }
    ramB := { c.ramB with phase := .cmd, bitcnt := 0, addrByte := 0, miso := false } }

end Chips

/-- Chips as they power up, all bytes zero. -/
def zeroedChips : Chips where
  flash := .zeroed
  ramA := .zeroed
  ramB := .zeroed

/-! ## The memory with its chips -/

structure MemBoard where
  mem : Mem
  chips : Chips

namespace MemBoard

/-- The memory's inputs: MISO is the chips', and `i.miso` only floats. -/
def memIn (s : MemBoard) (i : MemIn) : MemIn :=
  { i with miso := s.chips.miso s.mem.qspi.pins i.miso }

def step (s : MemBoard) (i : MemIn) : MemBoard :=
  { mem := s.mem.step (s.memIn i)
    chips := s.chips.edge s.mem.qspi.pins (s.mem.step (s.memIn i)).qspi.pins }

def reset (s : MemBoard) : MemBoard := { mem := s.mem.reset, chips := s.chips.reset }

end MemBoard

/-! ## The design with its chips -/

structure Board where
  core : Core
  mem : Mem
  chips : Chips

namespace Board

def top (s : Board) : Top := { core := s.core, mem := s.mem }

def memBoard (s : Board) : MemBoard := { mem := s.mem, chips := s.chips }

/-- The top level's inputs: `uio_in[2]` is the chips' MISO. -/
def topIn (s : Board) (i : TopIn) : TopIn :=
  { i with
    uioIn :=
      i.uioIn.extractLsb' 3 5 ++
        BitVec.ofBool (s.chips.miso s.mem.qspi.pins i.qspiMiso) ++ i.uioIn.extractLsb' 0 2 }

def step (s : Board) (i : TopIn) : Board :=
  { core := (s.top.step (s.topIn i)).core
    mem := (s.top.step (s.topIn i)).mem
    chips := s.chips.edge s.mem.qspi.pins (s.top.step (s.topIn i)).mem.qspi.pins }

def reset (s : Board) : Board :=
  { core := s.core.reset, mem := s.mem.reset, chips := s.chips.reset }

end Board

end AgilA32
