import AgilA32.Board.Instruction

/-!
# Code in flash

A flash chip on `CS0` keeps its contents through every instruction, and rests whenever one begins
(`FlashAt`).  Once `FLASH_MODE` is set, which nothing but a reset undoes, the instructions in the
window are words of the page that `FLASH_PAGE` shows (`FromFlash`).
-/

namespace AgilA32

namespace Flash

open AgilA32.Core (isEbreak readReg)
open Mem (engineRun)
open Rv32i (Instr decode)
open AgilA32.Top (Arch At Boundary accepts memRun word)

variable {r : Clocked.Run Top.step} {c : Clocked.Run SpiRam.step} {image : BitVec 14 → BitVec 8}
  {t : Nat} {a : Arch}

/-- In cycle `t` an instruction begins in the state `a`, and the flash chip, at rest, holds `image`. -/
structure FlashAt (r : Clocked.Run Top.step) (c : Clocked.Run SpiRam.step)
    (image : BitVec 14 → BitVec 8) (t : Nat) (a : Arch) : Prop where
  here : At r t a
  idle : (c.state t).Idle
  holds : (c.state t).mem = image

/-- The instruction that begins in cycle `t` is the word that the flash holds from location `n` on: its
fetch is a read that the engine accepts for the flash. -/
structure FromFlash (r : Clocked.Run Top.step) (image : BitVec 14 → BitVec 8) (t n : Nat) : Prop where
  asked : ∃ q, accepts (r.state (t + 1)) (r.input (t + 1)) = some q ∧ q.dev = 1#2 ∧ q.we = false ∧
    q.size = 2#2 ∧ q.addr.toNat = n
  word : word r t = SpiRam.wordAt image n

/-! ## Through the instructions of a run -/

section Chip

variable (wired : Attached (engineRun (memRun r)) c 1#2)
include wired

/-- An instruction leaves the flash at rest, holding what it held. -/
theorem chip_next (start : Boundary (r.state t)) (live : isEbreak (word r t) = false)
    (idle : (c.state t).Idle) :
    (c.state (Top.next r t)).Idle ∧ (c.state (Top.next r t)).mem = (c.state t).mem := by
  obtain ⟨idle', mem⟩ := wired.instruction start live idle
  refine ⟨idle', mem.trans (if_neg ?_)⟩
  rintro ⟨-, -, -, dev⟩
  unfold MemRegs.psramDev at dev
  split at dev <;> cases dev

theorem FlashAt.next (flash : FlashAt r c image t a) (live : isEbreak (word r t) = false) {a' : Arch}
    (after : At r (Top.next r t) a') : FlashAt r c image (Top.next r t) a' := by
  obtain ⟨idle, mem⟩ := chip_next wired flash.here.boundary live flash.idle
  exact ⟨after, idle, mem.trans flash.holds⟩

/-- In a run from a boundary the flash holds at every instruction what it held there. -/
theorem flashAt_of_boundary (start : Boundary (r.state 0)) (idle : (c.state 0).Idle)
    (here : At r t a) : FlashAt r c (c.state 0).mem t a := by
  obtain ⟨-, idle', mem⟩ := Top.fetch_induction r start
    (P := fun u => (c.state u).Idle ∧ (c.state u).mem = (c.state 0).mem) ⟨idle, rfl⟩
    (fun u boundary live holds => by
      obtain ⟨idle', mem⟩ := chip_next wired boundary live holds.1
      exact ⟨idle', mem.trans holds.2⟩)
    here.boundary.fetch
  exact ⟨here, idle', mem⟩

theorem flashAt_of_reset {s : Top} (reset : r.state 0 = s.reset) (idle : (c.state 0).Idle)
    (here : At r t a) : FlashAt r c (c.state 0).mem t a :=
  flashAt_of_boundary wired (reset ▸ Top.boundary_reset s) idle here

/-- In flash mode the instructions of the window come from the page shown there. -/
theorem FlashAt.fetch (flash : FlashAt r c image t a) (mode : a.mem.flashMode = true)
    (above : 180 ≤ a.pc.toNat) (below : a.pc.toNat < 224) :
    FromFlash r image t (44 * a.mem.flashPage.toNat + (a.pc.toNat - 180)) where
  asked := by
    obtain ⟨-, ⟨dev, addr, we, size, -⟩, -⟩ := flash.here.flash_word wired flash.idle mode above below
    have held := flash.here.boundary.fetch_holds
    have bus : (r.state (t + 1)).core.bus = Top.fetchBus r t :=
      flash.here.boundary.fetch_issued.first
    have regs : (r.state (t + 1)).mem.regs = a.mem :=
      Eq.trans flash.here.boundary.fetch_regs flash.here.mem
    obtain ⟨at_pc, word, -, -⟩ := Top.fetchBus_eq flash.here
    have external : (r.state (t + 1)).mem.regs.inExt (r.state (t + 1)).core.bus = true := by
      rw [bus, regs]
      exact MemRegs.inExt_iff.mpr ⟨.flash, mode, by rw [at_pc]; omega, by rw [at_pc]; omega⟩
    have accepted := held.accepts_first (congrArg Bus.valid bus) external
    rw [bus, regs] at accepted
    exact ⟨_, accepted, dev, we, size.trans word, by rw [addr, at_pc]⟩
  word := by
    rw [← flash.holds]
    exact (flash.here.flash_word wired flash.idle mode above below).2.2

end Chip

/-! ## The stores that set the window -/

/-- A store to `FLASH_MODE` sets the mode and nothing else. -/
theorem FlashAt.set_mode (wired : Attached (engineRun (memRun r)) c 1#2)
    (flash : FlashAt r c image t a) {op : Rv32i.StoreOp} {rs1 rs2 : BitVec 5} {off : BitVec 32}
    (decoded : decode (word r t) = some (.store op rs1 rs2 off))
    (addr : (readReg a.x rs1 + off).setWidth 8 = 0xF8#8) :
    FlashAt r c image (Top.next r t)
      { a with pc := a.pc + 4, mem := { a.mem with flashMode := true } } := by
  have stored := flash.here.store_register decoded rfl (by simp [addr])
  rw [addr, Settings.write_other (by simp) (by simp) (by simp) (by simp)] at stored
  exact flash.next wired (Top.running_of decoded (by simp)) stored

/-- A store to `FLASH_PAGE` sets the page to its low byte, and nothing else. -/
theorem FlashAt.set_page (wired : Attached (engineRun (memRun r)) c 1#2)
    (flash : FlashAt r c image t a) {op : Rv32i.StoreOp} {rs1 rs2 : BitVec 5} {off : BitVec 32}
    (decoded : decode (word r t) = some (.store op rs1 rs2 off))
    (addr : (readReg a.x rs1 + off).setWidth 8 = 0xFC#8) :
    FlashAt r c image (Top.next r t)
      { a with
        pc := a.pc + 4, mem := { a.mem with flashPage := (readReg a.x rs2).setWidth 8 } } := by
  have stored := flash.here.store_register decoded rfl (by simp [addr])
  rw [addr, Settings.write_other (by simp) (by simp) (by simp) (by simp)] at stored
  rw [← Core.low_bits]
  exact flash.next wired (Top.running_of decoded (by simp)) stored

/-- A store to `GPIO_OUT` sets the LEDs to its low byte, and nothing else. -/
theorem FlashAt.set_led (wired : Attached (engineRun (memRun r)) c 1#2)
    (flash : FlashAt r c image t a) {op : Rv32i.StoreOp} {rs1 rs2 : BitVec 5} {off : BitVec 32}
    (decoded : decode (word r t) = some (.store op rs1 rs2 off))
    (addr : (readReg a.x rs1 + off).setWidth 8 = 0xF0#8) :
    FlashAt r c image (Top.next r t)
      { a with
        pc := a.pc + 4, mem := { a.mem with gpioOut := (readReg a.x rs2).setWidth 8 } } := by
  have stored := flash.here.store_register decoded rfl (by simp [addr])
  rw [addr, Settings.write_other (by simp) (by simp) (by simp) (by simp)] at stored
  rw [← Core.low_bits]
  exact flash.next wired (Top.running_of decoded (by simp)) stored

/-- An instruction without a data access changes the registers and the pc alone. -/
theorem FlashAt.plain (wired : Attached (engineRun (memRun r)) c 1#2)
    (flash : FlashAt r c image t a) {i : Instr} (decoded : decode (word r t) = some i)
    (live : i ≠ .ebreak) (none : i.memReq (Core.hart a.pc a.x) = none) (pc : BitVec 8) {x : RegFile}
    (target : ∀ v, (i.exec (Core.hart a.pc a.x) v).pc.setWidth 8 = pc)
    (result : ∀ v, (i.exec (Core.hart a.pc a.x) v).x = x) :
    FlashAt r c image (Top.next r t) { a with pc := pc, x := x } := by
  have after := flash.here.plain decoded live none
  rw [target, result] at after
  exact flash.next wired (Top.running_of decoded live) after

end Flash

end AgilA32
