import AgilA32.Clocked.Run
import AgilA32.Mem.Ram
import AgilA32.Memory.Store
import AgilA32.Rtl.Top

/-!
# The on-chip memory as a flat array of bytes

What software is promised: 176 bytes of ROM and 48 of RAM, in which a store writes its bytes one at a
time (`FlatMem`).  The word-organised memory of `mem.v` refines it: from any contents, with
`FLASH_MODE` clear, the stores of a run take `Represents` along (`Represents.store`, `represents_at`),
and a read returns the bytes of the array (`Represents.read`).  The ROM contents are arbitrary here.
-/

namespace AgilA32

open Memory (storeAll)
open Verilog (byteAt)

/-! ## The flat array -/

/-- Byte `i` of the ROM is at address `i`, byte `i` of the RAM at `RAM_BASE + i`. -/
structure FlatMem where
  rom : Nat → BitVec 8
  ram : Nat → BitVec 8

namespace FlatMem

/-- The byte at an address of the on-chip memory. -/
def byte (f : FlatMem) (addr : Nat) : BitVec 8 :=
  if addr < 176 then f.rom addr else f.ram (addr - 176)

/-- A store to RAM, one byte after the other, lowest address first. -/
def store (f : FlatMem) (b : Bus) : FlatMem :=
  { f with
    ram := storeAll f.ram (fun j => ramOffset b.addr + j) (byteAt b.wdata) (sizeBytes b.size) }

/-- A store changes exactly its own bytes. -/
theorem store_ram (f : FlatMem) (b : Bus) (k : Nat) :
    (f.store b).ram k =
      if ramOffset b.addr ≤ k ∧ k < ramOffset b.addr + sizeBytes b.size then
        byteAt b.wdata (k - ramOffset b.addr)
      else f.ram k := by
  by_cases own : ramOffset b.addr ≤ k ∧ k < ramOffset b.addr + sizeBytes b.size
  · obtain ⟨j, rfl⟩ := Nat.exists_eq_add_of_le own.1
    rw [if_pos own, Nat.add_sub_cancel_left]
    exact Memory.storeAll_hit (fun j => ramOffset b.addr + j) (by omega)
      fun i after before => by omega
  · rw [if_neg own]
    exact Memory.storeAll_miss fun i within => by omega

end FlatMem

/-! ## Accesses to the on-chip memory -/

/-- All bytes of the access lie in ROM. -/
def Bus.InRom (b : Bus) : Prop := b.addr.toNat + sizeBytes b.size ≤ 0xB0

/-- All bytes of the access lie in RAM. -/
def Bus.InRam (b : Bus) : Prop := 0xB0 ≤ b.addr.toNat ∧ b.addr.toNat + sizeBytes b.size ≤ 0xE0

instance (b : Bus) : Decidable b.InRom := inferInstanceAs (Decidable (_ ≤ _))
instance (b : Bus) : Decidable b.InRam := inferInstanceAs (Decidable (_ ∧ _))

theorem sizeBytes_pos (size : BitVec 2) : 0 < sizeBytes size ∧ sizeBytes size ≤ 4 := by
  rcases sizeBytes_cases size with ⟨-, h⟩ | ⟨-, h⟩ | ⟨-, h⟩ <;> omega

/-- `rom_pair[(addr[1:0] * 8) +: 32]` for the ROM contents `rom`. -/
def romRead (rom : BitVec 6 → BitVec 32) (addr : BitVec 8) : BitVec 32 :=
  (rom (addr.extractLsb' 2 6 + 1) ++ rom (addr.extractLsb' 2 6)).extractLsb'
    ((addr.extractLsb' 0 2).toNat * 8) 32

/-- Byte `i` of a word-organised ROM. -/
def romByte (rom : BitVec 6 → BitVec 32) (i : Nat) : BitVec 8 :=
  byteAt (rom (BitVec.ofNat 6 (i / 4))) (i % 4)

theorem romRead_byte (rom : BitVec 6 → BitVec 32) {addr : BitVec 8} {j : Nat} (within : j < 4) :
    byteAt (romRead rom addr) j = romByte rom (addr.toNat + j) := by
  have off : (addr.extractLsb' 0 2).toNat = addr.toNat % 4 := by
    rw [BitVec.extractLsb'_toNat, Nat.shiftRight_zero]
  have word : (addr.extractLsb' 2 6) = BitVec.ofNat 6 (addr.toNat / 4) := by
    apply BitVec.eq_of_toNat_eq
    rw [BitVec.extractLsb'_toNat, Nat.shiftRight_eq_div_pow, BitVec.toNat_ofNat]
  have next : (addr.extractLsb' 2 6) + 1 = BitVec.ofNat 6 (addr.toNat / 4 + 1) := by
    rw [word, BitVec.ofNat_add]
    rfl
  rw [romRead, romByte, Nat.mul_comm _ 8, Verilog.byteAt_extractLsb' _ (by omega),
    Verilog.byteAt_append _ _ (c := 4) rfl, next, word, off]
  by_cases first : addr.toNat % 4 + j < 4
  · rw [if_pos first, show (addr.toNat + j) / 4 = addr.toNat / 4 by omega,
      show (addr.toNat + j) % 4 = addr.toNat % 4 + j by omega]
  · rw [if_neg first, show (addr.toNat + j) / 4 = addr.toNat / 4 + 1 by omega,
      show (addr.toNat + j) % 4 = addr.toNat % 4 + j - 4 by omega]

namespace Mem

/-- The read path with the ROM contents `rom`. -/
def rdataOf (rom : BitVec 6 → BitVec 32) (m : Mem) (b : Bus) (gpioIn : BitVec 8)
    (undef : BitVec 32) : BitVec 32 :=
  if inRom b.addr then romRead rom b.addr else m.rdata b gpioIn undef

/-- The design's own read path is the one with the boot ROM's contents. -/
theorem rdataOf_romWordAt (m : Mem) (b : Bus) (gpioIn : BitVec 8) (undef : BitVec 32) :
    m.rdataOf romWordAt b gpioIn undef = m.rdata b gpioIn undef := by
  unfold rdataOf
  split
  case isTrue rom => rw [rdata, if_pos rom]; rfl
  case isFalse => rfl

/-- The store that the bus shows in a cycle. -/
def storeShown (_ : Mem) (i : MemIn) : Option Bus := if i.bus.we then some i.bus else none

end Mem

/-! ## The refinement -/

/-- The flat array `f` is what the ROM contents `rom` and the RAM of `m` hold. -/
structure Represents (rom : BitVec 6 → BitVec 32) (m : MemRegs) (f : FlatMem) : Prop where
  rom : ∀ i, i < 176 → f.rom i = romByte rom i
  ram : ∀ i, i < 48 → f.ram i = m.ramByte i

/-- The flat array that a memory holds. -/
def flatten (rom : BitVec 6 → BitVec 32) (m : MemRegs) : FlatMem :=
  { rom := romByte rom, ram := m.ramByte }

theorem represents_flatten (rom : BitVec 6 → BitVec 32) (m : MemRegs) :
    Represents rom m (flatten rom m) := ⟨fun _ _ => rfl, fun _ _ => rfl⟩

namespace MemRegs

variable {m : MemRegs} {b : Bus}

/-- Without flash mode, an access within the RAM range is one to RAM. -/
theorem inRam_of_clear (clear : m.flashMode = false) (inside : b.InRam) : m.inRam b.addr = true := by
  obtain ⟨above, below⟩ := inside
  have := sizeBytes_pos b.size
  exact inRam_iff.mpr ⟨above, by omega, fun flash => by rw [clear] at flash; cases flash⟩

/-- A store to RAM at the clock edge. -/
theorem step_ram (clear : m.flashMode = false) (store : b.we = true) (inside : b.InRam)
    (aligned : b.Aligned) (ready : Bool) (rx : BitVec 32) :
    (m.step b ready rx).flashMode = false ∧
      ∀ k, k < 48 → (m.step b ready rx).ramByte k =
        if ramOffset b.addr ≤ k ∧ k < ramOffset b.addr + sizeBytes b.size then
          byteAt b.wdata (k - ramOffset b.addr)
        else m.ramByte k := by
  have ram := inRam_of_clear clear inside
  have noSpi : inSpiWrite b = false := by
    rw [inSpiWrite, Bool.and_eq_false_iff]
    left
    rw [beq_eq_false_iff_ne]
    intro spi
    have := (inRam_iff.mp ram).2.1
    rw [spi] at this
    contradiction
  obtain ⟨ws, write⟩ := write_ram ram
  have step : m.step b ready rx = m.write b := by
    rw [MemRegs.step, store, if_pos rfl, noSpi, Bool.and_false, if_neg Bool.false_ne_true]
  constructor
  · rw [step, write]
    exact clear
  · intro k within
    rw [step, write_byte (fun _ => aligned) within]
    simp only [ram, true_and]

end MemRegs

namespace Represents

variable {rom : BitVec 6 → BitVec 32} {m : MemRegs} {f : FlatMem} {b : Bus}

theorem store (here : Represents rom m f) (clear : m.flashMode = false) (store : b.we = true)
    (inside : b.InRam) (aligned : b.Aligned) (ready : Bool) (rx : BitVec 32) :
    Represents rom (m.step b ready rx) (f.store b) where
  rom := here.rom
  ram i within := by
    rw [(MemRegs.step_ram clear store inside aligned ready rx).2 i within, FlatMem.store_ram,
      here.ram i within]

/-- A read returns the bytes of the array, lowest address first. -/
theorem read {m : Mem} (here : Represents rom m.regs f) (clear : m.regs.flashMode = false)
    (inside : b.InRom ∨ b.InRam) (gpioIn : BitVec 8) (undef : BitVec 32) {j : Nat}
    (own : j < sizeBytes b.size) :
    byteAt (m.rdataOf rom b gpioIn undef) j = f.byte (b.addr.toNat + j) := by
  have := sizeBytes_pos b.size
  rcases inside with inRom | inRam
  · have within : b.addr.toNat + j < 176 := by unfold Bus.InRom at inRom; omega
    rw [Mem.rdataOf, if_pos (inRom_iff.mpr (by omega)), romRead_byte rom (by omega),
      FlatMem.byte, if_pos within, here.rom _ within]
  · have ram := MemRegs.inRam_of_clear clear inRam
    obtain ⟨above, below⟩ := inRam
    have noRom : ¬ inRom b.addr = true := fun low => by
      have := inRom_iff.mp low
      omega
    have offset : ramOffset b.addr + j < 48 := by unfold ramOffset; omega
    rw [Mem.rdataOf, if_neg noRom, Mem.rdata, if_neg noRom, if_pos ram,
      MemRegs.ramRead_byte _ undef (inRamRange_iff.mpr ⟨above, by omega⟩) (by omega) offset,
      FlatMem.byte, if_neg (by omega), ← here.ram _ offset]
    exact congrArg f.ram (by unfold ramOffset; omega)

end Represents

section Run

variable {r : Clocked.Run Mem.step} {rom : BitVec 6 → BitVec 32} {t : Nat}

/-- The array after the stores of the first `t` cycles of a run. -/
def flatAt (rom : BitVec 6 → BitVec 32) (r : Clocked.Run Mem.step) (t : Nat) : FlatMem :=
  (r.observe Mem.storeShown 0 t).foldl FlatMem.store (flatten rom (r.state 0).regs)

theorem flatAt_succ : flatAt rom r (t + 1) =
    if (r.input t).bus.we then (flatAt rom r t).store (r.input t).bus else flatAt rom r t := by
  rw [flatAt, r.observe_add, List.foldl_append, r.observe_one, Nat.zero_add, Mem.storeShown]
  split <;> rfl

theorem represents_at (rom : BitVec 6 → BitVec 32) (clear : (r.state 0).regs.flashMode = false)
    (stores : ∀ u, u < t → (r.input u).bus.we = true →
      (r.input u).bus.InRam ∧ (r.input u).bus.Aligned) :
    (r.state t).regs.flashMode = false ∧ Represents rom (r.state t).regs (flatAt rom r t) := by
  induction t with
  | zero => exact ⟨clear, represents_flatten rom _⟩
  | succ t ih =>
      obtain ⟨clear', here⟩ := ih fun u before => stores u (by omega)
      have edge : (r.state (t + 1)).regs = (r.state t).regs.step (r.input t).bus
          (r.state t).qspi.reqReady (r.state t).qspi.reqRdata := by rw [r.edge]; rfl
      rw [edge, flatAt_succ]
      by_cases store : (r.input t).bus.we = true
      · obtain ⟨inside, aligned⟩ := stores t (Nat.lt_succ_self t) store
        rw [if_pos store]
        exact ⟨(MemRegs.step_ram clear' store inside aligned _ _).1,
          here.store clear' store inside aligned _ _⟩
      · rw [if_neg store, MemRegs.step_read (by simpa using store)]
        exact ⟨clear', here⟩

/-- The word-organised memories are flat byte arrays.  In every run of the memory, from any RAM and
with any ROM contents, with `FLASH_MODE` clear, whose stores so far were to RAM and of a supported
shape: a read within ROM or within RAM returns, byte by byte, the contents of the flat array after
these stores; and a store in RAM changes its own bytes to those it was given, and no other. -/
theorem flat_memory (rom : BitVec 6 → BitVec 32) (r : Clocked.Run Mem.step)
    (clear : (r.state 0).regs.flashMode = false) (t : Nat)
    (stores : ∀ u, u < t → (r.input u).bus.we = true →
      (r.input u).bus.InRam ∧ (r.input u).bus.Aligned) :
    ((r.input t).bus.we = false → (r.input t).bus.InRom ∨ (r.input t).bus.InRam →
      ∀ j, j < sizeBytes (r.input t).bus.size →
        byteAt ((r.state t).rdataOf rom (r.input t).bus (r.input t).gpioIn (r.input t).undef) j =
          (flatAt rom r t).byte ((r.input t).bus.addr.toNat + j)) ∧
    ((r.input t).bus.we = true → (r.input t).bus.InRam → (r.input t).bus.Aligned →
      ∀ k, k < 48 →
        (r.state (t + 1)).regs.ramByte k =
          if (r.input t).bus.addr.toNat ≤ 0xB0 + k ∧
              0xB0 + k < (r.input t).bus.addr.toNat + sizeBytes (r.input t).bus.size then
            byteAt (r.input t).bus.wdata (0xB0 + k - (r.input t).bus.addr.toNat)
          else (r.state t).regs.ramByte k) := by
  obtain ⟨clear', here⟩ := represents_at rom clear stores
  constructor
  · intro _ inside j own
    exact here.read clear' inside _ _ own
  · intro store inside aligned k within
    have above := inside.1
    rw [r.edge]
    change ((r.state t).regs.step _ _ _).ramByte k = _
    rw [(MemRegs.step_ram clear' store inside aligned _ _).2 k within]
    unfold ramOffset
    have offset : 0xB0 + k - (r.input t).bus.addr.toNat =
        k - ((r.input t).bus.addr.toNat - 176) := by omega
    rw [offset]
    exact if_congr (by omega) rfl rfl

end Run

/-- A run from reset that shows `b` in its first cycle and `b'` from its second. -/
def twoAccessRun (b b' : Bus) : Clocked.Run Mem.step :=
  .ofInputs Mem.step Top.zeroed.mem.reset fun u =>
    { bus := if u = 0 then b else b', gpioIn := 0, miso := true, undef := 0 }

/-- A half-word stored across a word boundary at `0xB7`, read back as an unaligned word at `0xB6`: the
second byte read is the first one stored. -/
theorem flat_memory_straddle :
    byteAt (((twoAccessRun
        { addr := 0xB7, wdata := 0x5A3C, size := 1, we := true, valid := true }
        { addr := 0xB6, wdata := 0, size := 2, we := false, valid := true }).state 1).rdataOf
        romWordAt { addr := 0xB6, wdata := 0, size := 2, we := false, valid := true } 0 0) 1 =
      0x3C := by
  have read := (flat_memory romWordAt (twoAccessRun
    { addr := 0xB7, wdata := 0x5A3C, size := 1, we := true, valid := true }
    { addr := 0xB6, wdata := 0, size := 2, we := false, valid := true }) rfl 1
    fun u before store => by
      obtain rfl : u = 0 := by omega
      exact ⟨by decide, by decide⟩).1 rfl (.inr (by decide)) 1 (by decide)
  exact read.trans (by decide)

end AgilA32
