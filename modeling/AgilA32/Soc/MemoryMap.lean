import AgilA32.Board.Machine
import AgilA32.Mem.Flat
import AgilA32.Top.SpiData

/-!
# The memory map that software sees

`MemoryMap` is everything a load can return and a store can change: the boot ROM, 48 bytes of RAM, the
page of flash behind the load window, the selected PSRAM, and the registers.  Every access of any size
at any address has a meaning here, also the odd ones (a half-word across two regions, an unaligned
word store).  `MemoryMap.wait` lets clock cycles pass, which only the timer notices.

`MemBoard.memoryMap` is the map that the memory and its chips implement; the lemmas after it say so for
one access, as it stands on the bus.
-/

namespace AgilA32

open Verilog (byteAt ofBytes)

/-! ## The map -/

structure MemoryMap where
  ram : Fin 48 → BitVec 8
  gpioOut : BitVec 8
  flashMode : Bool
  flashPage : BitVec 8
  qspiDivSel : BitVec 2
  spiLastRx : BitVec 8
  timer : Timer
  pwmDuty : BitVec 8
  pwmEnable : Bool
  pinMux : BitVec 2
  psram : Psram
  flash : BitVec 14 → BitVec 8

/-- What an address stands for. -/
inductive Place
  | rom | ram | flash | psram | register
  deriving DecidableEq, Repr

namespace MemoryMap

/-- The place of an access, by its first byte. -/
def place (s : MemoryMap) (addr : BitVec 8) : Place :=
  if addr.toNat < 0xB0 then .rom
  else if addr.toNat < 0xE0 then
    if s.flashMode = true ∧ 0xB4 ≤ addr.toNat then .flash else .ram
  else if addr.toNat < 0xF0 then .psram
  else .register

/-- The bits that an access clocks through the engine: command, address and data, the data byte alone
for `SPI_DATA`, and none on chip. -/
def bits (s : MemoryMap) (b : Bus) : Nat :=
  match s.place b.addr with
  | .flash | .psram => 32 + 8 * sizeBytes b.size
  | .register => if b.addr = 0xFD#8 ∧ b.we = true then 8 else 0
  | .rom | .ram => 0

/-- How many cycles an access waits for the engine. -/
def stall (s : MemoryMap) (b : Bus) : Nat :=
  if s.bits b = 0 then 0 else 2 + 2 * 4 ^ s.qspiDivSel.toNat * s.bits b

/-- The value of a register; the write-only and the unassigned addresses read zero. -/
def register (s : MemoryMap) (gpioIn addr : BitVec 8) : BitVec 32 :=
  if addr = 0xF0#8 then s.gpioOut.setWidth 32
  else if addr = 0xF1#8 then (BitVec.ofBool s.psram.bank).setWidth 32
  else if addr = 0xF2#8 then (s.timer.timerCnt.extractLsb' 0 8).setWidth 32
  else if addr = 0xF3#8 then (s.timer.timerCnt.extractLsb' 8 8).setWidth 32
  else if addr = 0xF4#8 then gpioIn.setWidth 32
  else if addr = 0xF5#8 then (BitVec.ofBool s.timer.timerEnable).setWidth 32
  else if addr = 0xF6#8 then (BitVec.ofBool s.timer.timerOverflow).setWidth 32
  else if addr = 0xF7#8 then s.pwmDuty.setWidth 32
  else if addr = 0xF9#8 then (BitVec.ofBool s.pwmEnable).setWidth 32
  else if addr = 0xFA#8 then s.pinMux.setWidth 32
  else if addr = 0xFB#8 then s.qspiDivSel.setWidth 32
  else if addr = 0xFC#8 then s.flashPage.setWidth 32
  else if addr = 0xFD#8 then s.spiLastRx.setWidth 32
  else 0

/-- Byte `j` of a load.  Past the end of RAM the memory has no defined value and shows `undef`. -/
def loadByte (s : MemoryMap) (gpioIn : BitVec 8) (undef : BitVec 32) (addr : BitVec 8) (j : Nat) :
    BitVec 8 :=
  match s.place addr with
  | .rom => romByte romWordAt (addr.toNat + j)
  | .ram =>
      if inside : ramOffset addr + j < 48 then s.ram ⟨ramOffset addr + j, inside⟩
      else byteAt undef (ramOffset addr + j - 48)
  | .flash => s.flash (.ofNat 14 (44 * s.flashPage.toNat + (addr.toNat - 0xB4) + j))
  | .psram => s.psram.mem s.psram.bank (.ofNat 14 (addr.toNat - 0xE0 + j))
  | .register => byteAt (s.register gpioIn addr) j

/-- What a load returns; a byte or half-word stands in the low end of a word of zeros. -/
def load (s : MemoryMap) (gpioIn : BitVec 8) (undef : BitVec 32) (addr : BitVec 8)
    (size : BitVec 2) : BitVec 32 :=
  ofBytes fun j => if j < sizeBytes size then s.loadByte gpioIn undef addr j else 0

/-- The first RAM byte of a store: a word is put at a multiple of four. -/
def ramFirst (b : Bus) : Nat :=
  if sizeBytes b.size = 4 then ramOffset b.addr / 4 * 4 else ramOffset b.addr

/-- `n` clock cycles without a store. -/
def wait (n : Nat) (s : MemoryMap) : MemoryMap := { s with timer := Timer.tick^[n] s.timer }

/-- The clock cycle in which a store takes effect.  The chip on `SPI_DATA`'s select, RAM B, answers a
single byte with zeros. -/
def store (s : MemoryMap) (b : Bus) : MemoryMap :=
  { ram := fun k =>
      if s.place b.addr = .ram ∧ ramFirst b ≤ k ∧ k < ramFirst b + sizeBytes b.size then
        byteAt b.wdata (k - ramFirst b)
      else s.ram k
    gpioOut := if b.addr = 0xF0#8 then b.wdata.extractLsb' 0 8 else s.gpioOut
    flashMode := if b.addr = 0xF8#8 then true else s.flashMode
    flashPage := if b.addr = 0xFC#8 then b.wdata.extractLsb' 0 8 else s.flashPage
    qspiDivSel := if b.addr = 0xFB#8 then b.wdata.extractLsb' 0 2 else s.qspiDivSel
    spiLastRx := if b.addr = 0xFD#8 then 0 else s.spiLastRx
    timer := s.timer.step b
    pwmDuty := if b.addr = 0xF7#8 then b.wdata.extractLsb' 0 8 else s.pwmDuty
    pwmEnable := if b.addr = 0xF9#8 then b.wdata.getLsbD 0 else s.pwmEnable
    pinMux := if b.addr = 0xFA#8 then b.wdata.extractLsb' 0 2 else s.pinMux
    psram := s.psram.access b
    flash := s.flash }

/-- Wait states do not depend on the data. -/
theorem stall_congr (s : MemoryMap) {b b' : Bus} (addr : b.addr = b'.addr) (size : b.size = b'.size)
    (we : b.we = b'.we) : s.stall b = s.stall b' := by
  unfold stall bits
  rw [addr, size, we]

theorem byteAt_load (s : MemoryMap) (gpioIn : BitVec 8) (undef : BitVec 32) (addr : BitVec 8)
    {size : BitVec 2} {j : Nat} (within : j < sizeBytes size) :
    byteAt (s.load gpioIn undef addr size) j = s.loadByte gpioIn undef addr j := by
  have small := (sizeBytes_pos size).2
  rw [load, Verilog.byteAt_ofBytes _ (by omega), if_pos within]

section Wait

variable (s : MemoryMap) (m n : Nat)

@[simp] theorem wait_zero : s.wait 0 = s := rfl

theorem wait_add : s.wait (m + n) = (s.wait m).wait n := by
  simp only [wait, Nat.add_comm m n, Function.iterate_add_apply]

@[simp] theorem wait_place (addr : BitVec 8) : (s.wait n).place addr = s.place addr := rfl

@[simp] theorem wait_stall (b : Bus) : (s.wait n).stall b = s.stall b := rfl

end Wait

end MemoryMap

/-! ## The map of a memory with its chips -/

/-- What the memory and its chips hold. -/
def MemBoard.memoryMap (s : MemBoard) : MemoryMap where
  ram k := s.mem.regs.ramByte k
  gpioOut := s.mem.regs.gpioOut
  flashMode := s.mem.regs.flashMode
  flashPage := s.mem.regs.flashPage
  qspiDivSel := s.mem.regs.qspiDivSel
  spiLastRx := s.mem.regs.spiLastRx
  timer := s.mem.timer
  pwmDuty := s.mem.pwm.pwmDuty
  pwmEnable := s.mem.pwm.pwmEnable
  pinMux := s.mem.pwm.pinMux
  psram := s.psram
  flash := s.chips.flash.mem

namespace MemBoard

section Decode

variable (s : MemBoard) (addr : BitVec 8)

theorem place_rom : s.memoryMap.place addr = .rom ↔ inRom addr = true := by
  rw [inRom_iff, MemoryMap.place]
  split_ifs <;> simp_all

theorem place_flash : s.memoryMap.place addr = .flash ↔ s.mem.regs.inExtFlash addr = true := by
  rw [MemRegs.inExtFlash, Bool.and_eq_true, inLoadRange_iff, MemoryMap.place]
  split_ifs <;> simp_all [memoryMap]
  omega

theorem place_ram : s.memoryMap.place addr = .ram ↔ s.mem.regs.inRam addr = true := by
  rw [MemRegs.inRam_iff, MemoryMap.place]
  split_ifs <;> simp_all [memoryMap]

theorem place_psram : s.memoryMap.place addr = .psram ↔ inExtPsram addr = true := by
  rw [inExtPsram_iff, MemoryMap.place]
  split_ifs <;> simp_all
  omega

theorem place_register : s.memoryMap.place addr = .register ↔ 0xF0 ≤ addr.toNat := by
  rw [MemoryMap.place]
  split_ifs <;> simp_all <;> omega

end Decode

/-- The accesses that go to the engine. -/
theorem inExt_iff (s : MemBoard) (b : Bus) : s.mem.regs.inExt b = true ↔
    s.memoryMap.place b.addr = .flash ∨ s.memoryMap.place b.addr = .psram ∨
      s.memoryMap.place b.addr = .register ∧ b.addr = 0xFD#8 ∧ b.we = true := by
  rw [MemRegs.inExt, Bool.or_eq_true, Bool.or_eq_true, place_flash, place_psram, place_register,
    MemRegs.inSpiWrite, Bool.and_eq_true, beq_iff_eq, or_assoc]
  refine or_congr Iff.rfl (or_congr Iff.rfl ⟨fun h => ⟨?_, h⟩, And.right⟩)
  rw [h.1]
  decide

/-! ## Wait states -/

/-- The engine clocks the bits of the access, with the half-period that the divider names. -/
theorem delay_eq (s : MemBoard) {b : Bus} (valid : b.valid = true) :
    s.mem.regs.delay b = s.memoryMap.stall b := by
  have chip {w : Window} (inside : InWindow s.mem.regs b w)
      (chip : (s.mem.regs.request b).dev ≠ 0#2) :
      s.mem.regs.delay b = 2 + 2 * 4 ^ s.mem.regs.qspiDivSel.toNat * (32 + 8 * sizeBytes b.size) := by
    rw [MemRegs.delay_external valid (MemRegs.inExt_iff.mpr ⟨_, inside⟩), Request.delay,
      Request.half_eq, ← Request.bits_eq chip, Request.dataBytes, if_neg chip]
    rfl
  have pos := (sizeBytes_pos b.size).1
  have divSel : s.memoryMap.qspiDivSel = s.mem.regs.qspiDivSel := rfl
  cases place : s.memoryMap.place b.addr with
  | flash =>
      have inside := MemRegs.inExtFlash_iff.mp ((s.place_flash _).mp place)
      have carries := MemRegs.request_carries inside
      rw [chip inside (by rw [carries.1]; decide), MemoryMap.stall, MemoryMap.bits, place, divSel]
      dsimp only
      rw [if_neg (by omega)]
  | psram =>
      have inside := (s.place_psram _).mp place
      rw [chip (MemRegs.inExtPsram_window.mp inside) (MemRegs.psram_chip inside), MemoryMap.stall,
        MemoryMap.bits, place, divSel]
      dsimp only
      rw [if_neg (by omega)]
  | register =>
      by_cases spi : b.addr = 0xFD#8 ∧ b.we = true
      · have inside : InWindow s.mem.regs b .spi := ⟨by rw [spi.1]; rfl, spi.2⟩
        have bits : (s.mem.regs.request b).bits = 8 := by
          rcases (s.mem.regs.request b).bits_cases with h | h | h | h
          · exact h.2
          all_goals exact absurd (MemRegs.request_carries inside).1 h.1
        rw [MemRegs.delay_external valid (MemRegs.inExt_iff.mpr ⟨_, inside⟩), Request.delay,
          Request.half_eq, bits, MemoryMap.stall, MemoryMap.bits, place]
        dsimp only
        rw [if_pos spi, if_neg (by decide)]
        rfl
      · have onchip : ¬ s.mem.regs.inExt b = true := by rw [s.inExt_iff, place]; simpa using spi
        rw [MemRegs.delay_onchip (by simp [onchip]), MemoryMap.stall, MemoryMap.bits, place]
        dsimp only
        rw [if_neg spi, if_pos rfl]
  | rom =>
      have onchip : ¬ s.mem.regs.inExt b = true := by rw [s.inExt_iff, place]; simp
      rw [MemRegs.delay_onchip (by simp [onchip]), MemoryMap.stall, MemoryMap.bits, place]
      exact (if_pos rfl).symm
  | ram =>
      have onchip : ¬ s.mem.regs.inExt b = true := by rw [s.inExt_iff, place]; simp
      rw [MemRegs.delay_onchip (by simp [onchip]), MemoryMap.stall, MemoryMap.bits, place]
      exact (if_pos rfl).symm

/-! ## Reads -/

/-- A read that starts in the last bytes of RAM runs into the word that does not exist. -/
theorem ramRead_beyond (m : MemRegs) {addr : BitVec 8} (undef : BitVec 32)
    (inside : inRamRange addr = true) {j : Nat} (within : j < 4) (beyond : 48 ≤ ramOffset addr + j) :
    byteAt (m.ramRead undef addr) j = byteAt undef (ramOffset addr + j - 48) := by
  obtain ⟨i0, off, i1, bound⟩ := MemRegs.ramWidx0_toNat addr inside
  have missing : m.ramWord undef (ramWidx1 addr) = undef := by
    rw [MemRegs.ramWord, Vector.getElem?_eq_none (by omega), Option.getD_none]
  rw [MemRegs.ramRead, Nat.mul_comm _ 8, Verilog.byteAt_extractLsb' _ (by omega),
    Verilog.byteAt_append _ _ (c := 4) rfl, if_neg (by omega), missing]
  exact congrArg (byteAt undef) (by omega)

/-- The memory's own answer to a read. -/
theorem byteAt_rdata (s : MemBoard) {b : Bus} (read : b.we = false)
    (onchip : s.mem.regs.inExt b = false) (gpioIn : BitVec 8) (undef : BitVec 32) {j : Nat}
    (within : j < 4) :
    byteAt (s.mem.rdata b.answered gpioIn undef) j = s.memoryMap.loadByte gpioIn undef b.addr j := by
  have addr : b.answered.addr = b.addr := rfl
  have noExt : s.mem.regs.inExt b.answered = false := (MemRegs.inExt_read read).trans onchip
  simp only [MemRegs.inExt, Bool.or_eq_false_iff] at onchip
  rw [Mem.rdata, noExt, addr, MemoryMap.loadByte]
  cases place : s.memoryMap.place b.addr with
  | rom =>
      rw [if_pos ((s.place_rom _).mp place)]
      exact romRead_byte romWordAt within
  | ram =>
      have rom : ¬ inRom b.addr = true := by rw [← s.place_rom, place]; simp
      have ram := (s.place_ram _).mp place
      have range : inRamRange b.addr = true :=
        inRamRange_iff.mpr ⟨(MemRegs.inRam_iff.mp ram).1, (MemRegs.inRam_iff.mp ram).2.1⟩
      rw [if_neg rom, if_pos ram]
      dsimp only
      split
      case isTrue inside => exact s.mem.regs.ramRead_byte undef range within inside
      case isFalse beyond => exact ramRead_beyond _ undef range within (by omega)
  | flash =>
      have flash := (s.place_flash _).mp place
      rw [onchip.1.1] at flash
      cases flash
  | psram =>
      have psram := (s.place_psram _).mp place
      rw [onchip.1.2] at psram
      cases psram
  | register =>
      have rom : ¬ inRom b.addr = true := by rw [← s.place_rom, place]; simp
      have ram : ¬ s.mem.regs.inRam b.addr = true := by rw [← s.place_ram, place]; simp
      rw [if_neg rom, if_neg ram, if_neg Bool.false_ne_true]
      rfl

/-! ## Stores -/

/-- The RAM bytes after a store of any size at any address. -/
theorem ramByte_write (s : MemBoard) (b : Bus) {k : Nat} (within : k < 48) :
    (s.mem.regs.write b).ramByte k =
      if s.memoryMap.place b.addr = .ram ∧ MemoryMap.ramFirst b ≤ k ∧
          k < MemoryMap.ramFirst b + sizeBytes b.size then
        byteAt b.wdata (k - MemoryMap.ramFirst b)
      else s.mem.regs.ramByte k := by
  simp only [s.place_ram]
  rcases sizeBytes_cases b.size with ⟨-, bytes⟩ | ⟨-, bytes⟩ | ⟨other, bytes⟩
  · rw [show MemoryMap.ramFirst b = ramOffset b.addr from if_neg (by omega)]
    exact MemRegs.write_byte (b := b) (fun _ four => by omega) within
  · rw [show MemoryMap.ramFirst b = ramOffset b.addr from if_neg (by omega)]
    exact MemRegs.write_byte (b := b) (fun _ four => by omega) within
  -- an unaligned word store still assigns one word of `ram_words`
  rw [show MemoryMap.ramFirst b = ramOffset b.addr / 4 * 4 from if_pos bytes, bytes]
  by_cases ram : s.mem.regs.inRam b.addr = true
  · have range : inRamRange b.addr = true :=
      inRamRange_iff.mpr ⟨(MemRegs.inRam_iff.mp ram).1, (MemRegs.inRam_iff.mp ram).2.1⟩
    obtain ⟨i0, -, -, bound⟩ := MemRegs.ramWidx0_toNat b.addr range
    have write : s.mem.regs.write b = s.mem.regs.setRamWord (ramWidx0 b.addr) b.wdata :=
      (if_pos ram).trans (other _ _ _)
    rw [write, MemRegs.ramByte_setRamWord _ _ _ (by omega) within, i0]
    by_cases same : k / 4 = ramOffset b.addr / 4
    · rw [if_pos same, if_pos ⟨ram, by omega, by omega⟩]
      exact congrArg (byteAt b.wdata) (by omega)
    · rw [if_neg same, if_neg (by omega)]
  · rw [if_neg fun h => ram h.1, MemRegs.write_byte (fun h => absurd h ram) within,
      if_neg fun h => ram h.1]

/-- The memory and its chips when the store `b` has taken effect after `n` cycles without a store. -/
theorem memoryMap_store {s s' : MemBoard} {b : Bus} {rx : BitVec 32} {n : Nat} (store : b.we = true)
    (regs : s'.mem.regs = s.mem.regs.commit b rx)
    (settings : s'.mem.settings = s.mem.settings.write b)
    (timer : s'.mem.timer = (Timer.tick^[n] s.mem.timer).step b)
    (psram : s'.psram = s.psram.access b)
    (flash : s'.chips.flash.mem = s.chips.flash.mem)
    (received : b.addr = 0xFD#8 → rx.extractLsb' 0 8 = 0) :
    s'.memoryMap = (s.memoryMap.wait n).store b := by
  obtain ⟨-, duty, enable, mux⟩ := Settings.mk.inj settings
  have ram (k : Fin 48) := s.ramByte_write b k.isLt
  rw [MemRegs.commit_eq _ _ _ store, s.mem.regs.write_eq b] at regs
  have word (k : Nat) : s'.mem.regs.ramByte k = (s.mem.regs.write b).ramByte k := by
    refine MemRegs.ramByte_congr ?_ k
    rw [regs]
  simp only [memoryMap, MemoryMap.store, MemoryMap.wait, MemoryMap.mk.injEq]
  refine ⟨funext fun k => (word k).trans (ram k), ?_, ?_, ?_, ?_, ?_, timer, duty, enable, mux,
    psram, flash⟩ <;> rw [regs]
  by_cases spi : b.addr = 0xFD#8
  · rw [if_pos spi, if_pos spi, received spi]
  · rw [if_neg spi, if_neg spi]

/-- The memory and its chips after `n` cycles without a store. -/
theorem memoryMap_wait {s s' : MemBoard} {n : Nat} (regs : s'.mem.regs = s.mem.regs)
    (settings : s'.mem.settings = s.mem.settings) (timer : s'.mem.timer = Timer.tick^[n] s.mem.timer)
    (psram : s'.psram = s.psram) (flash : s'.chips.flash.mem = s.chips.flash.mem) :
    s'.memoryMap = s.memoryMap.wait n := by
  obtain ⟨-, duty, enable, mux⟩ := Settings.mk.inj settings
  simp only [memoryMap, MemoryMap.wait, MemoryMap.mk.injEq, regs, timer, psram, flash, true_and,
    and_true]
  exact ⟨duty, enable, mux⟩

end MemBoard

end AgilA32
