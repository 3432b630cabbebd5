import AgilA32.Mem.Ram
import AgilA32.Top.Handshake

/-!
# The flash window in flash mode

With `FLASH_MODE` set, `0xB4`-`0xDF` is meant to be flash: stores to it are dropped and loads from it
come from the chip.  The memory decides by the first byte of an access, so a half-word at `0xB3`
still reaches the RAM byte behind `0xB4`.  `flash_window_isolated` says exactly when an access
respects the window, and that a run without such half-words never changes the RAM behind it.
-/

namespace AgilA32

open Engine (Accepts samples)
open Mem (Issued engineRun)
open Verilog (byteAt)

/-- The address of the access's byte `j` lies in the flash window. -/
def Bus.Touches (b : Bus) (j : Nat) : Prop :=
  j < sizeBytes b.size ∧ 0xB4 ≤ b.addr.toNat + j ∧ b.addr.toNat + j ≤ 0xDF

namespace MemRegs

/-- A half-word at `0xB3`; of the stores, one that would change the byte at `0xB4`. -/
def Leaks (m : MemRegs) (b : Bus) : Prop :=
  b.size = 1#2 ∧ b.addr = 0xB3#8 ∧ (b.we = true → byteAt b.wdata 1 ≠ m.ramByte 4)

variable {m : MemRegs} {b : Bus}

/-- In flash mode only a leaking half-word changes a RAM byte behind the window. -/
theorem write_window (flash : m.flashMode = true) (aligned : b.Aligned)
    (tight : ¬ m.Leaks b) {k : Nat} (above : 4 ≤ k) (within : k < 48) :
    (m.write b).ramByte k = m.ramByte k := by
  rw [write_byte (fun _ => aligned) within]
  split
  case isFalse => rfl
  case isTrue here =>
    obtain ⟨ram, low, high⟩ := here
    have bounds := inRam_iff.mp ram
    have scratch := bounds.2.2 flash
    unfold ramOffset at low high ⊢
    have half : sizeBytes b.size = 2 := by
      rcases sizeBytes_cases b.size with ⟨-, bytes⟩ | ⟨-, bytes⟩ | ⟨-, bytes⟩
      · omega
      · exact bytes
      · have := aligned bytes
        omega
    have size : b.size = 1#2 := by
      rcases sizeBytes_cases b.size with ⟨-, bytes⟩ | ⟨size, -⟩ | ⟨-, bytes⟩
      · omega
      · exact size
      · omega
    have addr : b.addr = 0xB3#8 := BitVec.eq_of_toNat_eq (show b.addr.toNat = 179 by omega)
    obtain rfl : k = 4 := by omega
    rw [addr]
    by_contra changed
    exact tight ⟨size, addr, fun _ => changed⟩

theorem step_window (flash : m.flashMode = true) (aligned : b.Aligned)
    (tight : b.we = true → ¬ m.Leaks b) (ready : Bool) (rx : BitVec 32) {k : Nat} (above : 4 ≤ k)
    (within : k < 48) : (m.step b ready rx).ramByte k = m.ramByte k := by
  have spi (m' : MemRegs) (x : BitVec 8) : { m' with spiLastRx := x }.ramByte k = m'.ramByte k := rfl
  unfold step
  by_cases we : b.we = true
  · have frozen := write_window flash aligned (tight we) above within
    simp only [we, if_true]
    split <;> simp only [spi, frozen]
  · simp only [we, if_false, Bool.false_eq_true]
    split <;> simp only [spi]

end MemRegs

namespace Mem

/-- The access `b`, put on the bus in cycle `a`, respects the flash window: a store changes no RAM
byte behind it, and each byte that a load reads from it is the corresponding byte of a flash
transaction that the access started. -/
structure Isolated (r : Clocked.Run Mem.step) (a : Nat) (b : Bus) : Prop where
  store : b.we = true → ∀ k, 4 ≤ k → k < 48 →
    (r.state (a + (r.state a).regs.delay b + 1)).regs.ramByte k = (r.state a).regs.ramByte k
  load : b.we = false → ∀ j, b.Touches j →
    ∃ q, Accepts (engineRun r) a (r.state a).qspi q ∧ q.dev = 1#2 ∧ q.we = false ∧
      q.size = b.size ∧
      q.addr.toNat + j = 44 * (r.state a).regs.flashPage.toNat + (b.addr.toNat + j - 0xB4) ∧
      ∀ gpioIn undef,
        byteAt ((r.state (a + (r.state a).regs.delay b + 1)).rdata
          { b with valid := false, we := false } gpioIn undef) j =
        byteAt (q.received (samples (engineRun r) a q)) j

section Isolation

variable {r : Clocked.Run Mem.step} {a : Nat} {b : Bus}

theorem Issued.isolated (start : Issued r a b) (valid : b.valid = true) (aligned : b.Aligned)
    (flash : (r.state a).regs.flashMode = true) (tight : ¬ (r.state a).regs.Leaks b) :
    Isolated r a b where
  store _ k above within := by
    rw [start.after.1]
    exact MemRegs.step_window flash aligned (fun _ => tight) _ _ above within
  load read j touches := by
    obtain ⟨small, above, below⟩ := touches
    have first : 0xB4 ≤ b.addr.toNat := by
      by_contra before
      rcases sizeBytes_cases b.size with ⟨-, bytes⟩ | ⟨size, bytes⟩ | ⟨-, bytes⟩
      · omega
      · refine tight ⟨size, BitVec.eq_of_toNat_eq (show b.addr.toNat = 179 by omega), ?_⟩
        rw [read]
        simp
      · have := aligned bytes
        omega
    have inside : InWindow (r.state a).regs b .flash := ⟨flash, first, by omega⟩
    have external := MemRegs.inExt_iff.mpr ⟨_, inside⟩
    obtain ⟨dev, addr, we, size, -⟩ := MemRegs.request_carries inside
    refine ⟨_, start.accepts valid external, dev, we, size, by rw [addr]; omega,
      fun gpioIn undef => ?_⟩
    have same : (r.state (a + (r.state a).regs.delay b + 1)).regs = (r.state a).regs :=
      start.after.1.trans (MemRegs.commit_read read _)
    rw [rdata_external (by rw [same, MemRegs.inExt_read read]; exact external),
      start.reqRdata_after valid external]
    rfl

theorem Issued.leaks (start : Issued r a b)
    (leaks : (r.state a).regs.Leaks b) : ¬ Isolated r a b := by
  obtain ⟨half, addr, changes⟩ := leaks
  have two : sizeBytes b.size = 2 := by rw [half]; rfl
  have noFlash : (r.state a).regs.inExtFlash b.addr = false := by
    rw [addr]; exact Bool.and_false _
  have ram : (r.state a).regs.inRam b.addr = true := by
    rw [MemRegs.inRam, noFlash, addr]; rfl
  have onchip : (r.state a).regs.inExt b = false := by
    rw [MemRegs.inExt, noFlash, MemRegs.inSpiWrite, addr]; rfl
  intro isolated
  by_cases we : b.we = true
  · have kept := isolated.store we 4 le_rfl (by decide)
    rw [start.after.1, MemRegs.commit, MemRegs.step, if_pos we] at kept
    have spi : (true && MemRegs.inSpiWrite b) = false := by
      simp [MemRegs.inSpiWrite, addr]
    rw [spi, if_neg Bool.false_ne_true, MemRegs.write_byte (fun _ four => by omega) (by decide),
      if_pos ⟨ram, by rw [addr]; decide, by rw [two, addr]; decide⟩, addr] at kept
    exact changes we kept
  · obtain ⟨q, transfer, -⟩ := isolated.load (by simpa using we) 1
      ⟨by omega, by rw [addr]; decide, by rw [addr]; decide⟩
    have valid := transfer.valid
    rw [← transfer.req] at valid
    change ((r.state a).regs.request (r.input a).bus).valid = true at valid
    rw [start.first, MemRegs.request_valid, onchip, Bool.and_false] at valid
    cases valid

/-- In flash mode an access of a supported shape respects the window exactly when it is not a
half-word at `0xB3` (or stores there what the byte at `0xB4` holds already); and in a run whose
accesses all do, the RAM behind the window never changes again. -/
theorem flash_window_isolated (r : Clocked.Run Mem.step) :
    (∀ a b, Issued r a b → b.valid = true → b.Aligned → (r.state a).regs.flashMode = true →
      (Isolated r a b ↔ ¬ (r.state a).regs.Leaks b)) ∧
    ((∀ u, (r.state u).regs.flashMode = true → (r.input u).bus.Aligned ∧
        ((r.input u).bus.we = true → ¬ (r.state u).regs.Leaks (r.input u).bus)) →
      ∀ u v, u ≤ v → (r.state u).regs.flashMode = true →
        (r.state v).regs.flashMode = true ∧
        ∀ k, 4 ≤ k → k < 48 → (r.state v).regs.ramByte k = (r.state u).regs.ramByte k) := by
  refine ⟨fun a b start valid aligned flash => ⟨fun isolated leaks => ?_, fun tight => ?_⟩,
    fun obeys u v upto flash => ?_⟩
  · exact start.leaks leaks isolated
  · exact start.isolated valid aligned flash tight
  · induction v, upto using Nat.le_induction with
    | base => exact ⟨flash, fun _ _ _ => rfl⟩
    | succ v _ ih =>
        obtain ⟨aligned, tight⟩ := obeys v ih.1
        rw [r.edge]
        exact ⟨MemRegs.step_flashMode ih.1 _ _, fun k above within =>
          (MemRegs.step_window ih.1 aligned tight _ _ above within).trans (ih.2 k above within)⟩

end Isolation

/-- A run from reset that sets `FLASH_MODE` in its first cycle and holds `b` from its second. -/
def flashModeRun (b : Bus) : Clocked.Run Mem.step :=
  .ofInputs Mem.step Top.zeroed.mem.reset fun u =>
    { bus := if u = 0 then { addr := 0xF8, wdata := 0, size := 0, we := true, valid := true } else b
      gpioIn := 0, miso := true, undef := 0 }

theorem flashModeRun_issued (b : Bus) (strobe : b.we = true → b.valid = true) :
    Issued (flashModeRun b) 1 b where
  first := rfl
  held _ _ := rfl
  strobe := strobe
  rest := ⟨rfl, rfl, rfl, rfl, rfl, rfl⟩

/-- A byte load from the first address of the window is isolated. -/
theorem flash_window_isolated_load :
    Isolated (flashModeRun { addr := 0xB4, wdata := 0, size := 0, we := false, valid := true }) 1
      { addr := 0xB4, wdata := 0, size := 0, we := false, valid := true } :=
  ((flash_window_isolated _).1 1 _ (flashModeRun_issued _ fun _ => rfl) rfl (by decide) rfl).mpr
    (by rintro ⟨half, -⟩; cases half)

/-- A half-word store of `0x5A00` at `0xB3` changes the RAM byte at `0xB4` from 0 to `0x5A`. -/
theorem half_store_at_scratch_end_leaks :
    ∃ b : Bus, b.Aligned ∧ b.valid = true ∧ Issued (flashModeRun b) 1 b ∧
      ((flashModeRun b).state 1).regs.flashMode = true ∧ ¬ Isolated (flashModeRun b) 1 b :=
  ⟨{ addr := 0xB3, wdata := 0x5A00, size := 1, we := true, valid := true }, by decide, rfl,
    flashModeRun_issued _ fun _ => rfl, rfl,
    (flashModeRun_issued _ fun _ => rfl).leaks ⟨rfl, rfl, fun _ => by decide⟩⟩

end Mem

end AgilA32
