import AgilA32.Board.Psram
import AgilA32.Top.Arch

/-!
# One instruction on the board

What the chips do while the design executes one instruction: a chip sees the fetch and the data access
(`Attached.instruction`), and nothing in between.  The instruction word is what RAM or the flash chip
holds at `pc` (`At.ram_word`, `At.flash_word`).  A run of the board is a run of the design with its
chips attached (`Board.wired`).
-/

namespace AgilA32

open AgilA32.Core (isEbreak)
open Engine (Resting)
open Mem (Issued engineRun psramAt)
open Memory (storeAll)
open Verilog (byteAt)

/-! ## Chips across an instruction -/

section Chip

open AgilA32.Top (Boundary At fetchBus fetchDelay word dataBus dataCycle dataDelay loaded next
  memRun)

variable {r : Clocked.Run Top.step} {c : Clocked.Run SpiRam.step} {d : BitVec 2} {t : Nat}

namespace Attached

variable (wired : Attached (engineRun (memRun r)) c d)
include wired

theorem quiet_core {u : Nat} (rest : Resting (r.state u).mem.qspi) (idle : (c.state u).Idle)
    (valid : (r.state u).core.memValid = false) : c.state (u + 1) = c.state u :=
  wired.quiet (r := memRun r) rest idle (by
    rw [MemRegs.request_valid]
    change ((r.state u).core.memValid && _) = false
    rw [valid, Bool.false_and])

/-- While nothing is on the bus the chip stays as it is. -/
theorem still_for {a n : Nat} (idle : (c.state a).Idle)
    (quiet : ∀ k, k < n → Resting (r.state (a + k)).mem.qspi ∧
      (r.state (a + k)).core.memValid = false) : c.state (a + n) = c.state a := by
  induction n with
  | zero => rfl
  | succ n ih =>
      have here := ih fun k before => quiet k (by omega)
      obtain ⟨rest, valid⟩ := quiet n (Nat.lt_succ_self n)
      rw [← Nat.add_assoc, wired.quiet_core rest (here ▸ idle) valid, here]

/-- A fetch changes no memory. -/
theorem fetched (start : Boundary (r.state t)) (idle : (c.state t).Idle) :
    c.state (t + 1) = c.state t ∧ (c.state (t + 2 + fetchDelay r t)).Idle ∧
      (c.state (t + 2 + fetchDelay r t)).mem = (c.state t).mem := by
  have first := wired.quiet_core start.rest idle start.valid
  have after := wired.access start.fetch_issued (first ▸ idle)
  rw [start.fetch_regs, first] at after
  change (c.state (t + 1 + fetchDelay r t + 1)).Idle ∧ (c.state (t + 1 + fetchDelay r t + 1)).mem = _
    at after
  rw [show t + 1 + fetchDelay r t + 1 = t + 2 + fetchDelay r t by omega, if_neg] at after
  · exact ⟨first, after⟩
  · rintro ⟨-, write, -⟩
    cases write

/-- The chip is idle when the data access begins, and still holds what it held. -/
theorem before_data (start : Boundary (r.state t)) (live : isEbreak (word r t) = false)
    (idle : (c.state t).Idle) :
    (c.state (dataCycle r t)).Idle ∧ (c.state (dataCycle r t)).mem = (c.state t).mem := by
  obtain ⟨-, idle', mem⟩ := wired.fetched start idle
  rw [dataCycle, show t + 5 + fetchDelay r t = t + 2 + fetchDelay r t + 3 by omega,
    wired.still_for idle' fun k before => ⟨(start.between (by omega) (.inl live)).2.2,
      (start.between_core (by omega) (.inl live)).1⟩]
  exact ⟨idle', mem⟩

/-- After `EBREAK` the SPI chip's memory stays as it is. -/
theorem parked (start : Boundary (r.state t)) (stop : isEbreak (word r t) = true)
    (idle : (c.state t).Idle) (k : Nat) :
    (c.state (t + 4 + fetchDelay r t + k)).mem = (c.state t).mem := by
  obtain ⟨-, idle', mem⟩ := wired.fetched start idle
  rw [show t + 4 + fetchDelay r t + k = t + 2 + fetchDelay r t + (2 + k) by omega,
    wired.still_for idle' fun j before => ?_, mem]
  rcases Nat.lt_or_ge j 2 with early | late
  · exact ⟨(start.between (by omega) (.inr (by omega))).2.2,
      (start.between_core (by omega) (.inr (by omega))).1⟩
  · obtain ⟨i, rfl⟩ := Nat.exists_eq_add_of_le late
    obtain ⟨core, -, -, rest⟩ := start.parked stop i
    rw [show t + 2 + fetchDelay r t + (2 + i) = t + 4 + fetchDelay r t + i by omega, core]
    exact ⟨rest, rfl⟩

/-- The chip after an instruction: its data access has been made. -/
theorem instruction (start : Boundary (r.state t)) (live : isEbreak (word r t) = false)
    (idle : (c.state t).Idle) :
    (c.state (next r t)).Idle ∧
      (c.state (next r t)).mem =
        if (dataBus r t).valid = true ∧ (dataBus r t).we = true ∧
            inExtPsram (dataBus r t).addr = true ∧ d = (r.state t).mem.regs.psramDev then
          storeAll (c.state t).mem (dataBus r t).psramLoc (byteAt (dataBus r t).wdata)
            (sizeBytes (dataBus r t).size)
        else (c.state t).mem := by
  obtain ⟨idle', mem⟩ := wired.before_data start live idle
  have after := wired.access (start.data_issued live) idle'
  rw [start.data_regs live, mem] at after
  change (c.state (dataCycle r t + dataDelay r t + 1)).Idle ∧
    (c.state (dataCycle r t + dataDelay r t + 1)).mem = _ at after
  have last : c.state (next r t) = c.state (dataCycle r t + dataDelay r t + 1) :=
    wired.quiet_core (start.data_after live).2.2 after.1 (by rw [start.accessed live]; rfl)
  rw [last]
  exact after

end Attached

/-! ## The instruction word -/

/-- The four bytes from location `n` on as a word, lowest address first. -/
def SpiRam.wordAt (m : BitVec 14 → BitVec 8) (n : Nat) : BitVec 32 :=
  Verilog.ofBytes fun i => m (BitVec.ofNat 14 (n + i))

namespace Top.At

variable {a : Top.Arch} (here : At r t a)
include here

/-- Code in RAM is fetched without delay. -/
theorem ram_word (mode : a.mem.flashMode = false) (above : 180 ≤ a.pc.toNat)
    (below : a.pc.toNat + 3 < 224) :
    fetchDelay r t = 0 ∧
      ∀ i, i < 4 → byteAt (word r t) i = a.mem.ramByte (a.pc.toNat - 176 + i) := by
  obtain ⟨addr, -, we, -⟩ := Top.fetchBus_eq here
  have noFlash (x : BitVec 8) : a.mem.inExtFlash x = false := by
    rw [MemRegs.inExtFlash, mode, Bool.false_and]
  have range : inRamRange a.pc = true := inRamRange_iff.mpr ⟨by omega, by omega⟩
  have onchip : (r.state t).mem.regs.inExt (fetchBus r t) = false := by
    have psram : inExtPsram a.pc = false := by
      rw [Bool.eq_false_iff, ne_eq, inExtPsram_iff]
      omega
    rw [here.mem, MemRegs.inExt, noFlash, addr, psram, MemRegs.inSpiWrite, we]
    simp
  have delay : fetchDelay r t = 0 := MemRegs.delay_onchip (by rw [onchip, Bool.and_false])
  refine ⟨delay, fun i within => ?_⟩
  have regs : (r.state (t + 2 + fetchDelay r t)).mem.regs = a.mem :=
    (here.boundary.between (k := 0) (by omega) (.inr (by omega))).1.trans here.mem
  have noRom : inRom a.pc = false := by
    rw [Bool.eq_false_iff, ne_eq, inRom_iff]
    omega
  have ram : a.mem.inRam a.pc = true := by rw [MemRegs.inRam, noFlash, range]; rfl
  rw [Top.word_eq here, Mem.rdata, Bus.answered, regs]
  dsimp only
  rw [addr, noRom, ram, if_neg Bool.false_ne_true, if_pos rfl]
  exact a.mem.ramRead_byte _ range within (by unfold ramOffset; omega)

/-- Code in the flash window comes from the page shown there. -/
theorem flash_word (wired : Attached (engineRun (memRun r)) c 1#2) (idle : (c.state t).Idle)
    (mode : a.mem.flashMode = true) (above : 180 ≤ a.pc.toNat) (below : a.pc.toNat < 224) :
    fetchDelay r t = (a.mem.request (fetchBus r t)).delay ∧
      Carries a.mem (fetchBus r t) (a.mem.request (fetchBus r t)) .flash ∧
      word r t =
        SpiRam.wordAt (c.state t).mem (44 * a.mem.flashPage.toNat + (a.pc.toNat - 180)) := by
  obtain ⟨addr, size, we, valid⟩ := Top.fetchBus_eq here
  have inside : InWindow a.mem (fetchBus r t) .flash := ⟨mode, by rw [addr]; omega, by rw [addr]; omega⟩
  have carries := MemRegs.request_carries inside
  have external := MemRegs.inExt_iff.mpr ⟨_, inside⟩
  have regs : ((memRun r).state (t + 1)).regs = a.mem := here.boundary.fetch_regs.trans here.mem
  obtain ⟨first, -, -⟩ := wired.fetched here.boundary idle
  refine ⟨?_, carries, Verilog.eq_of_byteAt (c := 4) rfl fun i within => ?_⟩
  · rw [fetchDelay, here.mem]
    exact MemRegs.delay_external valid external
  have bytes := wired.byteAt_rdata here.boundary.fetch_issued (first ▸ idle) valid we
    (regs ▸ external) (by rw [regs]; exact carries.1) (r.input (t + 2 + fetchDelay r t)).uiIn
    (r.input (t + 2 + fetchDelay r t)).undef within
  rw [regs, first, SpiRam.index_add carries.2.1, addr, size,
    if_pos (show i < sizeBytes 2#2 from within)] at bytes
  rw [Top.word_eq here, SpiRam.wordAt, Verilog.byteAt_ofBytes _ within, ← bytes, fetchDelay, here.mem]
  congr 4
  omega

end Top.At

/-! ## The PSRAM across an instruction -/

section Psram

variable {c : BitVec 2 → Clocked.Run SpiRam.step} (wired : Mem.Wired (memRun r) c)
  (start : Boundary (r.state t)) (live : isEbreak (word r t) = false)
  (idle : ∀ d, d ≠ 0#2 → ((c d).state t).Idle)
include wired start live idle

theorem psramAt_data : psramAt (memRun r) c (dataCycle r t) = psramAt (memRun r) c t := by
  have mem (bank : Bool) := ((wired (if bank then 3#2 else 2#2) (by cases bank <;> decide)).before_data
    start live (idle _ (by cases bank <;> decide))).2
  have regs : ((memRun r).state (dataCycle r t)).regs = ((memRun r).state t).regs :=
    start.data_regs live
  simp only [psramAt, mem, regs]

theorem quiet_data : Mem.Quiet (memRun r) c (dataCycle r t) where
  rest := (start.data_issued live).rest
  idle d chip := ((wired d chip).before_data start live (idle d chip)).1

/-- An instruction does to the two PSRAMs what its data access does, and nothing without one. -/
theorem psramAt_next :
    psramAt (memRun r) c (next r t) =
      if (dataBus r t).valid then (psramAt (memRun r) c t).access (dataBus r t)
      else psramAt (memRun r) c t := by
  have mem (bank : Bool) := ((wired (if bank then 3#2 else 2#2) (by cases bank <;> decide)).instruction
    start live (idle _ (by cases bank <;> decide))).2
  have regs := (start.next_mem live).1
  have quiet := quiet_data wired start live idle
  by_cases valid : (dataBus r t).valid = true
  · have after := Mem.psramAt_access wired quiet (start.data_issued live) valid
    rw [psramAt_data wired start live idle] at after
    rw [if_pos valid, ← after, start.data_regs live]
    have still := Mem.psramAt_quiet wired (quiet.access wired (start.data_issued live))
      (by
        rw [start.data_regs live]
        change (r.state (dataCycle r t + dataDelay r t + 1)).core.memValid = false
        rw [start.accessed live]
        rfl)
      (by
        rw [start.data_regs live]
        change (r.state (dataCycle r t + dataDelay r t + 1)).core.memWe = false
        rw [start.accessed live]
        rfl)
    rw [start.data_regs live] at still
    exact still
  · have we : (dataBus r t).we = false := by
      by_contra on
      have strobe : (dataBus r t).we = true := by simpa using on
      exact valid (Core.issued_we_valid _ _ strobe)
    rw [MemRegs.commit_read we] at regs
    have same : ((memRun r).state (next r t)).regs = ((memRun r).state t).regs := regs
    have kept (bank : Bool) := (mem bank).trans (if_neg fun h => valid h.1)
    rw [if_neg valid]
    simp only [psramAt, kept, same]

/-- A load from the window is answered with what the selected memory holds. -/
theorem psramAt_loaded (valid : (dataBus r t).valid = true) (read : (dataBus r t).we = false)
    (inside : inExtPsram (dataBus r t).addr = true) :
    loaded r t = (psramAt (memRun r) c t).load (dataBus r t) := by
  have quiet := quiet_data wired start live idle
  have load := Mem.psramAt_load wired quiet (start.data_issued live) valid read inside
    (r.input (dataCycle r t + dataDelay r t + 1)).uiIn
    (r.input (dataCycle r t + dataDelay r t + 1)).undef
  rw [psramAt_data wired start live idle, start.data_regs live] at load
  rw [← load]
  change (r.state (dataCycle r t + dataDelay r t + 1)).mem.rdata
    (r.state (dataCycle r t + dataDelay r t + 1)).core.bus _ _ = _
  rw [start.accessed live]
  rfl

end Psram

end Chip

/-! ## Runs of the board -/

namespace Board

/-- The design's own history in a run of the board. -/
def topRun (r : Clocked.Run Board.step) : Clocked.Run Top.step :=
  r.map (·.top) (fun s i => s.topIn i) fun _ _ => rfl

/-- A chip's own history in a run of the board. -/
def chipRun (r : Clocked.Run Board.step) (d : BitVec 2) : Clocked.Run SpiRam.step :=
  r.map (·.chips.chip d)
    (fun s i => (s.mem.qspi.pins.chip d, (s.step i).mem.qspi.pins.chip d))
    fun s _ => s.chips.chip_edge d _ _

theorem topIn_qspiMiso (s : Board) (i : TopIn) :
    (s.topIn i).qspiMiso = s.chips.miso s.mem.qspi.pins i.qspiMiso := by
  simp only [topIn, TopIn.qspiMiso, BitVec.getLsbD_append, BitVec.getLsbD_ofBool]
  simp

theorem wired (r : Clocked.Run Board.step) : Mem.Wired (Top.memRun (topRun r)) (chipRun r) :=
  fun d chip =>
    { chip := chip
      pins := fun u => by
        change ((r.state u).mem.qspi.pins.chip d,
          ((r.state u).step (r.input u)).mem.qspi.pins.chip d) =
            ((r.state u).mem.qspi.pins.chip d, (r.state (u + 1)).mem.qspi.pins.chip d)
        rw [r.edge]
      miso := fun u selects => by
        change ((r.state u).topIn (r.input u)).qspiMiso = _
        rw [topIn_qspiMiso]
        exact Chips.miso_selected _ chip selects _ }

end Board

end AgilA32
