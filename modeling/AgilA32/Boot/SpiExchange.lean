import AgilA32.Asm.Asm
import AgilA32.Board.Instruction
import AgilA32.Boot.Driver
import AgilA32.Top.SpiData

/-!
# A byte exchanged over SPI

`spi_data_exchange` is about every access to `SPI_DATA` in a run from reset.  The program that shows it
at work is sent by the test bench's driver: it stores a byte there and loads the answer
(`exchangeCalls`).
-/

namespace AgilA32

namespace Top

open AgilA32.Core (isEbreak readReg)
open Boot (driverInput)
open Clocked (msbFirst spell)
open Rv32i (decode)
open Verilog (byteAt ofBytes)

/-- `SPI_DATA` over a whole run from reset, whatever else is accessed between.  A store there, of any
size, clocks out its low byte in eight pulses under CS2, with CS0 and CS1 high.  A load takes no
transaction and moves no pin, and returns, zero-extended, the eight bits that came in during the most
recent store, or zero.  No other access changes that byte. -/
theorem spi_data_exchange (r : Clocked.Run Top.step) (s : Top) (reset : r.state 0 = s.reset) :
    (∀ a, SpiStore r a →
      stallAt r a = 2 + 2 * 8 * 4 ^ (r.state (a + 1)).mem.regs.qspiDivSel.toNat ∧
      r.observe clocked (a + 1) (stallAt r a) =
        (List.range 8).map (msbFirst (byteAt (r.state (a + 1)).core.memWdata 0)) ∧
      ∀ k, k ≤ stallAt r a → (r.state (a + 1 + k)).cs0 = true ∧ (r.state (a + 1 + k)).cs1 = true ∧
        (r.state (a + 1 + k)).cs2 = decide (k = 0 ∨ k = stallAt r a) ∧
        (k = 0 ∨ k = stallAt r a → (r.state (a + 1 + k)).sck = false)) ∧
    (∀ a, Issues (r.state a).core → (r.state (a + 1)).core.memWe = false →
      (r.state (a + 1)).core.memAddr = 0xFD#8 →
      stallAt r a = 0 ∧
      (∀ k, k ≤ 1 → (r.state (a + 1 + k)).cs0 = true ∧ (r.state (a + 1 + k)).cs1 = true ∧
        (r.state (a + 1 + k)).cs2 = true ∧ (r.state (a + 1 + k)).sck = false) ∧
      ∃ v, MostRecent r (· < a) v ∧
        (r.state (a + 2)).memRdata (r.input (a + 2)) = v.setWidth 32) ∧
    ∀ a, Issues (r.state a).core → ¬ SpiStore r a → ∀ k, k ≤ stallAt r a + 1 →
      (r.state (a + 1 + k)).mem.regs.spiLastRx = (r.state (a + 1)).mem.regs.spiLastRx := by
  have start : Boundary (r.state 0) := reset ▸ boundary_reset s
  have zero : (r.state 0).mem.regs.spiLastRx = 0 := by rw [reset]; rfl
  refine ⟨fun a store => ?_, fun a issues read addr => ?_, fun a issues other k upto => ?_⟩
  · have held := holds r start store.issues
    refine ⟨?_, store.exchanges held⟩
    rw [store.stallAt_eq, Request.delay, store.bits, Request.half_eq]
    change 2 + 2 * 4 ^ (r.state (a + 1)).mem.regs.qspiDivSel.toNat * 8 = _
    omega
  · have held := holds r start issues
    exact ⟨stallAt_spiLoad read addr, fun k upto => held.spiLoad_pins read addr upto, _,
      held.spiLoad_recent read addr start issues (spiLastRx_at start zero (a + 2)), held.spiLoad_data read addr⟩
  · have held := holds r start issues
    rcases Nat.eq_or_lt_of_le upto with rfl | before
    · rw [show a + 1 + (stallAt r a + 1) = a + 2 + stallAt r a by omega]
      exact held.spiLastRx_other issues other
    · rw [(held.waits_mem (k := k) (by omega)).1]

/-! ## An example -/

/-- A byte out, a byte in. -/
def exchangeCalls : List Asm.Call :=
  [.exec (.addi 1 0 0x5A), .exec (.sb 1 0 0xFD), .exec (.lbu 2 0 0xFD), .exec .ebreak]

def exchangeProgram : List (BitVec 8) :=
  (((Asm.new 0).build exchangeCalls).bind fun a => a.finalize.bind wordsToBytes).getD []

theorem exchangeProgram_eq : exchangeProgram =
    [0x93, 0x00, 0xA0, 0x05, 0xA3, 0x0E, 0x10, 0x0E, 0x03, 0x41, 0xD0, 0x0F, 0x73, 0x00, 0x10, 0x00] := by
  decide

/-- The driver sends the program, and whatever answers on SPI holds MISO high. -/
def exchangeRun : Clocked.Run Top.step :=
  .ofInputs Top.step zeroed.reset fun u => { driverInput exchangeProgram u with uioIn := 4 }

theorem spiReceived_exchangeRun (a : Nat) : spiReceived exchangeRun a = 0xFF := by
  have high (u : Nat) : (exchangeRun.input u).qspiMiso = true := by
    rw [exchangeRun, Clocked.Run.ofInputs_input]
    exact (by decide : (4#8).getLsbD 2 = true)
  simp only [spiReceived, high]
  decide

section Program

variable {r : Clocked.Run Top.step} {t : Nat} {a : Arch}

/-- RAM holds the program from `0xB4` on. -/
structure HoldsExchange (m : MemRegs) : Prop where
  mode : m.flashMode = false
  bytes : ∀ k, k < 16 → m.ramByte (4 + k) = exchangeProgram.getD k 0

/-- The design fetches the program's `k`-th word at `0xB4 + 4 * k`. -/
theorem word_exchange (holds : HoldsExchange a.mem) (here : At r t a) {k : Nat} (inside : k < 4)
    (pc : a.pc = .ofNat 8 (0xB4 + 4 * k)) :
    word r t = ofBytes fun j => exchangeProgram.getD (4 * k + j) 0 := by
  have addr : a.pc.toNat = 180 + 4 * k := by
    rw [pc, BitVec.toNat_ofNat]
    omega
  refine Verilog.eq_of_byteAt (c := 4) rfl fun j within => ?_
  rw [(here.ram_word holds.mode (by omega) (by omega)).2 j within, Verilog.byteAt_ofBytes _ within, addr,
    show 180 + 4 * k - 176 + j = 4 + (4 * k + j) by omega]
  exact holds.bytes _ (by omega)

/-- The core issues the data access of an instruction four cycles, and the fetch's wait, after it began. -/
theorem At.issues (here : At r t a) (live : isEbreak (Top.word r t) = false) :
    Issues (r.state (t + 4 + fetchDelay r t)).core ∧
      (r.state (t + 4 + fetchDelay r t + 1)).core.bus = dataBus r t := by
  have bus := (here.boundary.data_bus live).1
  rw [show dataCycle r t = t + 4 + fetchDelay r t + 1 by unfold dataCycle; omega] at bus
  refine ⟨.inr ?_, bus⟩
  rw [here.boundary.executed_core live]
  rfl

variable (holds : HoldsExchange a.mem) (here : At r t a)
include holds here

/-- `ADDI x1, x0, 0x5A` puts the byte into `x1`. -/
theorem HoldsExchange.addi (pc : a.pc = 0xB4) :
    ∃ t' a', At r t' a' ∧ HoldsExchange a'.mem ∧ a'.pc = 0xB8 ∧ readReg a'.x 1 = 0x5A := by
  have decoded : decode (word r t) = some (.aluImm .add 1 0 0x5A) := by
    rw [word_exchange holds here (k := 0) (by decide) pc, exchangeProgram_eq]
    decide
  refine ⟨_, _, here.plain decoded (by simp) rfl, holds, ?_, rfl⟩
  rw [pc]
  rfl

/-- `SB x1, 0xFD(x0)` stores the byte to `SPI_DATA`. -/
theorem HoldsExchange.sb (pc : a.pc = 0xB8) (x1 : readReg a.x 1 = 0x5A) :
    ∃ s t' a', s < t' ∧ SpiStore r s ∧ (r.state (s + 1)).core.memWdata = 0x5A ∧ At r t' a' ∧
      HoldsExchange a'.mem ∧ a'.pc = 0xBC := by
  have decoded : decode (word r t) = some (.store .sb 0 1 0xFD) := by
    rw [word_exchange holds here (k := 1) (by decide) pc, exchangeProgram_eq]
    decide
  have bus : dataBus r t = { addr := 0xFD, wdata := 0x5A, size := 0, we := true, valid := true } := by
    rw [dataBus_store here decoded rfl, ← x1]
    rfl
  obtain ⟨issues, shown⟩ := here.issues (running_of decoded (by simp))
  rw [bus] at shown
  have external : a.mem.inExt (dataBus r t) = true := by
    rw [bus]
    exact MemRegs.inExt_iff.mpr ⟨.spi, rfl, rfl⟩
  refine ⟨_, _, _, ?_, ⟨issues, congrArg Bus.valid shown, by rw [shown]; exact ⟨rfl, rfl⟩⟩,
    congrArg Bus.wdata shown, here.next_exec decoded (by simp), ?_, ?_⟩
  · unfold next dataCycle
    omega
  · change HoldsExchange (a.mem.commit _ _)
    rw [MemRegs.commit_external external]
    split
    · exact ⟨holds.mode, holds.bytes⟩
    · exact holds
  · change (((a.pc.setWidth 32 + 4 : BitVec 32)).setWidth 8) = 0xBC
    rw [pc]
    rfl

/-- `LBU x2, 0xFD(x0)` loads from `SPI_DATA`. -/
theorem HoldsExchange.lbu (pc : a.pc = 0xBC) :
    ∃ l, t ≤ l ∧ Issues (r.state l).core ∧ (r.state (l + 1)).core.memWe = false ∧
      (r.state (l + 1)).core.memAddr = 0xFD#8 := by
  have decoded : decode (word r t) = some (.load .lbu 2 0 0xFD) := by
    rw [word_exchange holds here (k := 2) (by decide) pc, exchangeProgram_eq]
    decide
  obtain ⟨-, read, addr, -⟩ := dataBus_load here decoded rfl
  obtain ⟨issues, shown⟩ := here.issues (running_of decoded (by simp))
  rw [← shown] at read addr
  exact ⟨_, by omega, issues, read, addr⟩

end Program

/-- The program's store sends `0x5A`, and its load returns what came in meanwhile. -/
theorem spi_data_exchange_answered : ∃ a a', a < a' ∧ SpiStore exchangeRun a ∧
    exchangeRun.observe clocked (a + 1) (stallAt exchangeRun a) = (List.range 8).map (msbFirst 0x5A) ∧
    Issues (exchangeRun.state a').core ∧ (exchangeRun.state (a' + 1)).core.memWe = false ∧
    (exchangeRun.state (a' + 1)).core.memAddr = 0xFD#8 ∧
    (exchangeRun.state (a' + 2)).memRdata (exchangeRun.input (a' + 2)) = 0xFF := by
  obtain ⟨t₀, tested, -, sent⟩ := Boot.boot_loads (r := exchangeRun) zeroed rfl
  have driven : Boot.Driven exchangeRun t₀ 10286 0 exchangeProgram :=
    Boot.driven_of_input tested fun _ _ _ => rfl
  have size : exchangeProgram.length = 16 := by rw [exchangeProgram_eq]; rfl
  obtain ⟨t, x, m, g, log, -, -, entered, loaded⟩ := sent _ _ _ (by omega) (Boot.driver_host driven)
  have holds : HoldsExchange m := by
    obtain ⟨ws, others⟩ := loaded.others
    refine ⟨by rw [others]; rfl, fun k small => ?_⟩
    rw [loaded.bytes _ (by omega), if_pos (by omega), Nat.add_sub_cancel_left]
  obtain ⟨t₁, a₁, second, holds₁, pc₁, x1⟩ := HoldsExchange.addi holds entered.reached rfl
  obtain ⟨s, t₂, a₂, before, store, data, third, holds₂, pc₂⟩ := holds₁.sb second pc₁ x1
  obtain ⟨l, after, issues, read, addr⟩ := holds₂.lbu third pc₂
  obtain ⟨stores, loads, -⟩ := spi_data_exchange exchangeRun zeroed rfl
  refine ⟨s, l, by omega, store, ?_, issues, read, addr, ?_⟩
  · rw [(stores s store).2.1, data]
    rfl
  · -- a store has come before, and every store receives the same
    obtain ⟨-, -, v, ⟨none, -⟩ | ⟨a, -, -, -, byte⟩, value⟩ := loads l issues read addr
    · exact absurd store (none s (by omega))
    · rw [value, byte, spiReceived_exchangeRun]
      rfl

end Top

end AgilA32
