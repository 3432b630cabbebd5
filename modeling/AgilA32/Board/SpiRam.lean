import Mathlib.Tactic

/-!
# The serial memory chips: `spi_ram_model.v`

A mode-0 SPI slave: an 8-bit command (0x02 write, anything else read), a 24-bit address and
auto-incrementing data bytes.  It samples MOSI when SCK rises and drives MISO when SCK falls; a
rising chip select ends the transaction.  `SpiRam.edge` is what one change of its pins does.
-/

namespace AgilA32

/-- `PHASE_CMD`, `PHASE_ADDR`, `PHASE_DATA`. -/
inductive SpiPhase
  | cmd | addr | data
  deriving DecidableEq, Repr

/-- The chip's input pins. -/
structure SpiPins where
  csN : Bool
  sck : Bool
  mosi : Bool
  deriving DecidableEq, Repr

structure SpiRam where
  mem : BitVec 14 → BitVec 8
  bitcnt : BitVec 3
  phase : SpiPhase
  addrByte : BitVec 2
  addr : BitVec 24
  we : Bool
  shiftIn : BitVec 8
  curOut : BitVec 8
  miso : Bool

namespace SpiRam

/-- `addr[13:0]` as an index of the memory array. -/
def index (addr : BitVec 24) : BitVec 14 := addr.extractLsb' 0 14

/-- `{shift_in[6:0], mosi}`. -/
def shifted (r : SpiRam) (mosi : Bool) : BitVec 8 :=
  r.shiftIn.extractLsb' 0 7 ++ BitVec.ofBool mosi

/-- `next_addr`: the address as it will be once the current byte is in. -/
def nextAddr (r : SpiRam) (mosi : Bool) : BitVec 24 :=
  r.addr.extractLsb' 0 16 ++ r.shifted mosi

/-- The eighth bit of a byte arrives. -/
def endByte (r : SpiRam) (mosi : Bool) : SpiRam :=
  match r.phase with
  | .cmd =>
      { r with
        shiftIn := r.shifted mosi, bitcnt := 0
        we := r.shifted mosi == 0x02#8, phase := .addr }
  | .addr =>
      { r with
        shiftIn := r.shifted mosi, bitcnt := 0
        addr := r.nextAddr mosi
        phase := if r.addrByte = 2#2 then .data else .addr
        curOut := if r.addrByte = 2#2 then r.mem (index (r.nextAddr mosi)) else r.curOut
        addrByte := r.addrByte + 1 }
  | .data =>
      { r with
        shiftIn := r.shifted mosi, bitcnt := 0
        mem := if r.we then Function.update r.mem (index r.addr) (r.shifted mosi) else r.mem
        addr := r.addr + 1
        curOut := r.mem (index r.addr + 1) }

/-- A rising edge of SCK while selected. -/
def rise (r : SpiRam) (mosi : Bool) : SpiRam :=
  if r.bitcnt = 7#3 then r.endByte mosi
  else { r with shiftIn := r.shifted mosi, bitcnt := r.bitcnt + 1 }

/-- A falling edge of SCK while selected. -/
def fall (r : SpiRam) : SpiRam :=
  { r with
    miso := if r.phase = .data ∧ r.we = false then r.curOut.getLsbD (7 - r.bitcnt).toNat else false }

/-- The two `always` blocks on a change of the pins.  Both are also triggered by a rising
`cs_n`, and with `cs_n` high both only reset the chip's protocol state. -/
def edge (r : SpiRam) (old new : SpiPins) : SpiRam :=
  let posSck := !old.sck && new.sck
  let negSck := old.sck && !new.sck
  let posCs := !old.csN && new.csN
  let r₁ :=
    if posSck || posCs then
      if new.csN then { r with phase := .cmd, bitcnt := 0, addrByte := 0 } else r.rise new.mosi
    else r
  if negSck || posCs then
    if new.csN then { r₁ with miso := false } else r₁.fall
  else r₁

/-- A chip as it powers up, with no register defined yet taken to be zero. -/
def zeroed : SpiRam where
  mem _ := 0
  bitcnt := 0
  phase := .cmd
  addrByte := 0
  addr := 0
  we := false
  shiftIn := 0
  curOut := 0
  miso := false

end SpiRam

end AgilA32
