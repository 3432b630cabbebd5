import AgilA32.Board.Access

/-!
# What a chip drives during its command byte

A chip drives MISO low until it is in the data phase of a read.  A one-byte transaction of `SPI_DATA`
selects RAM B and ends with the command, so that the byte it receives is zero
(`Attached.received_command`).
-/

namespace AgilA32

open Clocked (spell)
open Engine (Accepts Resting samples)
open Verilog (byteAt)

/-- While the command comes in the chip will drive low. -/
theorem SpiRam.Idle.out_command {c : SpiRam} {s : Nat → Bool} (idle : c.Idle) {k : Nat}
    (within : k < 8) : (c.rises s k).out = false := by
  rw [rises_lt idle.bitcnt within, out, if_neg]
  rw [idle.phase]
  rintro ⟨data, -⟩
  cases data

namespace Attached

variable {g : Clocked.Run Engine.step} {c : Clocked.Run SpiRam.step} {d : BitVec 2} {t : Nat}
  {e : Engine} {q : Request} (wired : Attached g c d) (transfer : Accepts g t e q)
  (rest : Resting (g.state t)) (idle : (c.state t).Idle) (selected : q.slave = d)
include wired transfer rest idle selected

/-- The first eight bits that the engine samples are low. -/
theorem samples_command {k : Nat} (within : k < 8) (before : k < q.bits) :
    samples g t q k = false := by
  have clocks := wired.clocks transfer selected
  have half := q.half_pos
  have first := wired.first transfer rest idle
  obtain ⟨b, here⟩ := clocks.bits_at wired.pins (Nat.le_of_lt before)
  have driven := clocks.bit_at wired.pins before here (j := 2 * q.half - 2) (by omega)
  rw [show t + 1 + 2 * q.half * k + (2 * q.half - 2) + 1 =
    t + 1 + 2 * q.half * k + (2 * q.half - 1) by omega, first] at driven
  have low : (c.state (t + 1 + 2 * q.half * k + (2 * q.half - 1))).miso = false := by
    rw [driven]
    change (if k = 0 then b else ((c.state t).rises q.mosiBit k).out) = false
    rcases Nat.eq_zero_or_pos k with rfl | later
    · rw [if_pos rfl]
      have start : (c.state (t + 1 + 2 * q.half * 0)).miso = b := by rw [here]; rfl
      rw [Nat.mul_zero, Nat.add_zero, first, idle.miso] at start
      exact start.symm
    · rw [if_neg (by omega)]
      exact idle.out_command within
  have pins := transfer.pins_at (k := k) (j := 2 * q.half - 1) before (by omega)
  rw [← low]
  refine wired.miso _ fun x some => ?_
  rw [pins, q.selected_chip some, selected]

/-- A transaction of one byte receives zero. -/
theorem received_command (device : q.dev = 0#2) : byteAt (q.received (samples g t q)) 0 = 0 := by
  have bits : q.bits = 8 := by
    rcases q.bits_cases with h | h | h | h
    · exact h.2
    all_goals exact absurd device h.1
  have one : q.dataBytes = 1 := if_pos device
  have start : q.dataStart = 0 := if_pos device
  rw [Request.byteAt_received _ _ (by decide), one, start, if_pos Nat.zero_lt_one,
    Clocked.spell_eq_iff]
  intro j small
  rw [Nat.mul_zero, Nat.add_zero, Nat.zero_add,
    wired.samples_command transfer rest idle selected small (by omega)]
  simp [Clocked.msbFirst]

end Attached

end AgilA32
