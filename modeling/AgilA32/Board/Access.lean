import AgilA32.Board.Link
import AgilA32.Mem.Ram
import AgilA32.Top.Handshake

/-!
# An access and the chips

What an access on the memory bus does to a chip wired to the engine (`Attached.access`), and what a
read from an external window returns: the bytes its chip holds (`Attached.byteAt_rdata`).
-/

namespace AgilA32

open Clocked (spell)
open Engine (Accepts Resting samples)
open Mem (Issued engineRun)
open Memory (storeAll)
open Verilog (byteAt)

/-- Where byte `i` of an access to the PSRAM window goes on its chip. -/
def Bus.psramLoc (b : Bus) (i : Nat) : BitVec 14 := BitVec.ofNat 14 (b.addr.toNat - 0xE0 + i)

/-- The location of a byte of a transaction. -/
theorem SpiRam.index_add {x : BitVec 24} {n : Nat} (addr : x.toNat = n) (i : Nat) :
    index (x + BitVec.ofNat 24 i) = BitVec.ofNat 14 (n + i) := by
  apply BitVec.eq_of_toNat_eq
  rw [index, BitVec.extractLsb'_toNat, BitVec.toNat_add, BitVec.toNat_ofNat, BitVec.toNat_ofNat,
    addr]
  simp

/-- The device of the PSRAM window. -/
def MemRegs.psramDev (m : MemRegs) : BitVec 2 := if m.psramBank then 3#2 else 2#2

namespace Attached

section Access

variable {r : Clocked.Run Mem.step} {c : Clocked.Run SpiRam.step} {d : BitVec 2} {a : Nat} {b : Bus}
  (wired : Attached (engineRun r) c d)
include wired

/-- Without a request the SPI chip stays as it is. -/
theorem quiet (rest : Resting (r.state a).qspi) (idle : (c.state a).Idle)
    (none : ((r.state a).regs.request (r.input a).bus).valid = false) :
    c.state (a + 1) = c.state a :=
  wired.still (g := engineRun r) rest idle rfl none

/-- The chip after an access: a store through the PSRAM window changes the memory of the chip of the
selected bank, and no other access changes a memory. -/
theorem access (start : Issued r a b) (idle : (c.state a).Idle) :
    (c.state (a + (r.state a).regs.delay b + 1)).Idle ∧
      (c.state (a + (r.state a).regs.delay b + 1)).mem =
        if b.valid = true ∧ b.we = true ∧ inExtPsram b.addr = true ∧ d = (r.state a).regs.psramDev
        then storeAll (c.state a).mem b.psramLoc (byteAt b.wdata) (sizeBytes b.size)
        else (c.state a).mem := by
  by_cases external : (b.valid && (r.state a).regs.inExt b) = true
  · rw [Bool.and_eq_true] at external
    have transfer := start.accepts external.1 external.2
    rw [MemRegs.delay_external external.1 external.2]
    obtain ⟨idle', mem⟩ := wired.after transfer start.rest idle
    refine ⟨idle', mem.trans ?_⟩
    obtain ⟨w, inside⟩ := MemRegs.inExt_iff.mp external.2
    have carries := MemRegs.request_carries inside
    cases w with
    | flash =>
        have outside : ¬ inExtPsram b.addr = true := by
          rw [inExtPsram_iff]
          have := inside.2.2
          omega
        have read : ¬ ((r.state a).regs.request b).we = true := by
          rw [carries.2.2.1]
          simp
        rw [if_neg fun h => read h.2, if_neg fun h => outside h.2.2.1]
    | psram =>
        obtain ⟨dev, addr, we, size, data⟩ := carries
        have psram := MemRegs.inExtPsram_window.mpr inside
        have bytes : ((r.state a).regs.request b).dataBytes = sizeBytes b.size := by
          rw [Request.dataBytes, if_neg (MemRegs.psram_chip psram), size]
        have bank : ((r.state a).regs.request b).dev = (r.state a).regs.psramDev := dev
        rw [bank, we, bytes, data]
        by_cases here : d = (r.state a).regs.psramDev ∧ b.we = true
        · rw [if_pos here, if_pos ⟨external.1, here.2, psram, here.1⟩]
          exact Memory.storeAll_congr (fun j _ => SpiRam.index_add addr j) fun _ _ => rfl
        · rw [if_neg here, if_neg fun h => here ⟨h.2.2.2, h.2.1⟩]
    | spi =>
        obtain ⟨dev, -⟩ := carries
        have outside : ¬ inExtPsram b.addr = true := by
          rw [inExtPsram_iff, inside.1]
          decide
        rw [dev, if_neg fun h => wired.chip h.1, if_neg fun h => outside h.2.2.1]
  · have none : ((r.state a).regs.request (r.input a).bus).valid = false := by
      rw [start.first, MemRegs.request_valid]
      simpa using external
    rw [MemRegs.delay_onchip (by simpa using external), Nat.add_zero,
      wired.quiet start.rest idle none, if_neg]
    · exact ⟨idle, rfl⟩
    · rintro ⟨valid, -, psram, -⟩
      refine external ?_
      rw [valid, MemRegs.inExt, psram]
      simp

/-- A read from an external window returns the bytes that its chip holds. -/
theorem byteAt_rdata (start : Issued r a b) (idle : (c.state a).Idle) (valid : b.valid = true)
    (read : b.we = false) (external : (r.state a).regs.inExt b = true)
    (dev : ((r.state a).regs.request b).dev = d) (gpioIn : BitVec 8) (undef : BitVec 32) {i : Nat}
    (within : i < 4) :
    byteAt ((r.state (a + (r.state a).regs.delay b + 1)).rdata b.answered gpioIn undef) i =
      if i < sizeBytes b.size then
        (c.state a).mem
          (SpiRam.index (((r.state a).regs.request b).addr + BitVec.ofNat 24 i))
      else 0 := by
  have chip : ((r.state a).regs.request b).dev ≠ 0#2 := dev ▸ wired.chip
  have transfer := start.accepts valid external
  have regs : (r.state (a + (r.state a).regs.delay b + 1)).regs = (r.state a).regs :=
    start.after.1.trans (MemRegs.commit_read read _)
  rw [Mem.rdata_external (by rw [regs, Bus.answered, MemRegs.inExt_read read]; exact external),
    start.reqRdata_after valid external, Mem.Issued.receivedBy, Request.byteAt_received _ _ within,
    Request.dataStart, if_neg chip, Request.dataBytes, if_neg chip]
  by_cases some : i < sizeBytes b.size
  · have bytes : i < ((r.state a).regs.request b).dataBytes := by
      rw [Request.dataBytes, if_neg chip]
      exact some
    have nowrite : ((r.state a).regs.request b).we = false := by
      change (b.we && _) = false
      rw [read, Bool.false_and]
    rw [show sizeBytes ((r.state a).regs.request b).size = sizeBytes b.size from rfl, if_pos some,
      if_pos some, wired.spell_samples transfer start.rest idle dev nowrite bytes]
  · rw [show sizeBytes ((r.state a).regs.request b).size = sizeBytes b.size from rfl, if_neg some,
      if_neg some]

end Access

end Attached

/-! ## All chips -/

namespace Mem

/-- The chips `c`, by device number, on the selects of a memory. -/
def Wired (r : Clocked.Run Mem.step) (c : BitVec 2 → Clocked.Run SpiRam.step) : Prop :=
  ∀ d, d ≠ 0#2 → Attached (engineRun r) (c d) d

/-- Between transactions: the engine rests and the chips are idle. -/
structure Quiet (r : Clocked.Run Mem.step) (c : BitVec 2 → Clocked.Run SpiRam.step) (u : Nat) :
    Prop where
  rest : Resting (r.state u).qspi
  idle : ∀ d, d ≠ 0#2 → ((c d).state u).Idle

section Chips

variable {r : Clocked.Run Mem.step} {c : BitVec 2 → Clocked.Run SpiRam.step} {a : Nat} {b : Bus}

/-- A cycle with nothing on the bus. -/
theorem Quiet.step (quiet : Quiet r c a) (wired : Wired r c) (valid : (r.input a).bus.valid = false)
    (we : (r.input a).bus.we = false) :
    Quiet r c (a + 1) ∧ (r.state (a + 1)).regs = (r.state a).regs ∧
      ∀ d, d ≠ 0#2 → (c d).state (a + 1) = (c d).state a := by
  obtain ⟨regs, engine⟩ := step_quiet quiet.rest valid we
  rw [← r.edge] at regs engine
  have still (d : BitVec 2) (chip : d ≠ 0#2) : (c d).state (a + 1) = (c d).state a :=
    (wired d chip).quiet quiet.rest (quiet.idle d chip) (by
      rw [MemRegs.request_valid, valid, Bool.false_and])
  exact ⟨⟨engine ▸ quiet.rest, fun d chip => still d chip ▸ quiet.idle d chip⟩, regs, still⟩

theorem Quiet.access (quiet : Quiet r c a) (wired : Wired r c) (start : Issued r a b) :
    Quiet r c (a + (r.state a).regs.delay b + 1) :=
  ⟨start.after.2, fun d chip => ((wired d chip).access start (quiet.idle d chip)).1⟩

end Chips

end Mem

end AgilA32
