import AgilA32.Engine.Transfer
import AgilA32.Verilog.PartSelect

/-!
# The waveform of a transaction

The pins in every cycle of a transaction (`Accepts.pins_at`), and the bits it clocks out on MOSI at
the rising edges of SCK (`Accepts.observe_clocked`): those of the preload, most significant first.
-/

namespace AgilA32

open Verilog (byteAt)

namespace Request

/-- The bit that MOSI shows for bit `k` of the transaction. -/
def mosiBit (q : Request) (k : Nat) : Bool := (Engine.preloadFor q).getLsbD (63 - k)

/-- The pins of the transaction: its chip select low. -/
def selected (q : Request) (sck mosi : Bool) : Pins :=
  { cs0 := !(q.dev == 1#2), cs1 := !(q.dev == 2#2), cs2 := !(q.dev == 3#2 || q.dev == 0#2)
    sck := sck, mosi := mosi }

/-- The first bit of the data phase. -/
def dataStart (q : Request) : Nat := if q.dev = 0#2 then 0 else 32

/-- The number of data bytes. -/
def dataBytes (q : Request) : Nat := if q.dev = 0#2 then 1 else sizeBytes q.size

/-- The received data, lowest address first: byte `i` is the `i`-th byte of the data phase. -/
theorem byteAt_received (q : Request) (s : Nat → Bool) {i : Nat} (within : i < 4) :
    byteAt (q.received s) i =
      if i < q.dataBytes then Clocked.spell s (q.dataStart + 8 * i) else 0 := by
  have byte (k lo : Nat) (room : lo + 8 ≤ 64) (arrived : lo + 8 ≤ k) :
      (Clocked.shiftAll (w := 63) (Engine.preloadFor q) s k).extractLsb' lo 8 =
        Clocked.spell s (k - 8 - lo) := Clocked.extractLsb'_shiftAll_spell _ s room arrived
  have last {m : Nat} (x : BitVec m) (b : BitVec 8) (k : Nat) :
      byteAt (x ++ b) k = if k < 1 then byteAt b k else byteAt x (k - 1) :=
    Verilog.byteAt_append x b (c := 1) rfl
  unfold received dataBytes dataStart
  rcases q.bits_cases with
    ⟨dev, bits⟩ | ⟨dev, size, bits⟩ | ⟨dev, size, bits⟩ | ⟨dev, notByte, notHalf, bits⟩
  · have data : Engine.dataBitsFor q = 8#6 := by simp [Engine.dataBitsFor, dev]
    rw [bits, data, if_pos dev, if_pos dev]
    simp only [Engine.readData, byte 8 0 (by decide) (by decide)]
    interval_cases i <;> simp [last]
  · have data : Engine.dataBitsFor q = 8#6 := by simp [Engine.dataBitsFor, size]
    rw [bits, data, if_neg dev, if_neg dev, size]
    simp only [Engine.readData, byte 40 0 (by decide) (by decide)]
    interval_cases i <;> simp [last, sizeBytes]
  · have data : Engine.dataBitsFor q = 16#6 := by simp [Engine.dataBitsFor, dev, size]
    rw [bits, data, if_neg dev, if_neg dev, size]
    simp only [Engine.readData, byte 48 0 (by decide) (by decide),
      byte 48 8 (by decide) (by decide)]
    interval_cases i <;> simp [last, sizeBytes]
  · have data : Engine.dataBitsFor q = 32#6 := by
      simp [Engine.dataBitsFor, dev, notByte, notHalf]
    have four : sizeBytes q.size = 4 := by simp [sizeBytes]
    rw [bits, data, if_neg dev, if_neg dev, four]
    simp only [Engine.readData, byte 64 0 (by decide) (by decide),
      byte 64 8 (by decide) (by decide), byte 64 16 (by decide) (by decide),
      byte 64 24 (by decide) (by decide)]
    interval_cases i <;> simp [last]

end Request

namespace Engine

theorem Resting.pins {e : Engine} (rest : Resting e) :
    e.pins = { cs0 := true, cs1 := true, cs2 := true, sck := false, mosi := e.pinMosi } := by
  simp [Engine.pins, rest.cs0, rest.cs1, rest.cs2, rest.sck]

/-- A bit clocked out: MOSI at a rising edge of SCK. -/
def clocked (e : Engine) (i : EngineIn) : Option Bool :=
  if !e.pinSck && (e.step i).pinSck then some (e.step i).pinMosi else none

section Transaction

variable {r : Clocked.Run Engine.step} {t : Nat} {e : Engine} {q : Request}

namespace Accepts

/-- The pins `j` cycles into bit `k`.  SCK is still high in the first cycle of a bit but the first,
and MOSI changes after it. -/
theorem pins_at (start : Accepts r t e q) {k j : Nat} (before : k < q.bits)
    (within : j < 2 * q.half) :
    (r.state (t + 1 + 2 * q.half * k + j)).pins =
      q.selected (if j = 0 then decide (k ≠ 0) else decide (q.half < j))
        (if j = 0 then if k = 0 then e.pinMosi else q.mosiBit (k - 1) else q.mosiBit k) := by
  have room := q.bits_le
  rw [start.cycle_at before within]
  simp only [pins, bitAt, afterBits, accept, Request.selected, Request.mosiBit]
  rw [Clocked.getLsbD_shiftAll_top _ _ (by omega), Clocked.getLsbD_shiftAll_top _ _ (by omega)]
  by_cases first : j = 0 <;> by_cases zero : k = 0 <;> simp [first, zero]

/-- In `ST_DONE` the chip is still selected, with SCK high and the last bit on MOSI. -/
theorem done_pins (start : Accepts r t e q) :
    (r.state (t + 1 + 2 * q.half * q.bits)).pins = q.selected true (q.mosiBit (q.bits - 1)) := by
  have room := q.bits_le
  have pos := q.bits_pos
  rw [start.done_at]
  simp only [pins, afterBits, accept, Request.selected, Request.mosiBit]
  rw [Clocked.getLsbD_shiftAll_top _ _ (by omega), if_neg (by omega), if_neg (by omega)]

/-- The pins when `req_ready` pulses: every chip is deselected. -/
theorem post_pins (start : Accepts r t e q) :
    (r.state (t + q.delay)).pins =
      { cs0 := true, cs1 := true, cs2 := true, sck := false, mosi := q.mosiBit (q.bits - 1) } := by
  have room := q.bits_le
  have pos := q.bits_pos
  rw [start.post_at]
  simp only [pins, stepDone, afterBits, accept, Request.mosiBit]
  rw [Clocked.getLsbD_shiftAll_top _ _ (by omega), if_neg (by omega)]

/-- The pins in the first cycle of bit `k`, `ST_DONE` included. -/
theorem start_pins (start : Accepts r t e q) {k : Nat} (upto : k ≤ q.bits) :
    (r.state (t + 1 + 2 * q.half * k)).pins =
      q.selected (decide (k ≠ 0)) (if k = 0 then e.pinMosi else q.mosiBit (k - 1)) := by
  have pos := q.bits_pos
  rcases Nat.eq_or_lt_of_le upto with rfl | before
  · rw [start.done_pins, if_neg (by omega), decide_eq_true (by omega)]
  · have := start.pins_at (j := 0) before (by have := q.half_pos; omega)
    rwa [Nat.add_zero, if_pos rfl, if_pos rfl] at this

/-- Throughout a transaction exactly its chip is selected. -/
theorem exists_selected (start : Accepts r t e q) {u : Nat} (after : t < u)
    (before : u < t + q.delay) : ∃ sck mosi, (r.state u).pins = q.selected sck mosi := by
  obtain ⟨d, rfl⟩ := Nat.exists_eq_add_of_le (show t + 1 ≤ u by omega)
  unfold Request.delay at before
  rcases Nat.lt_or_ge d (2 * q.half * q.bits) with shifting | done
  · obtain ⟨k, j, bitBefore, within, rfl⟩ := exists_bit shifting
    rw [← Nat.add_assoc]
    exact ⟨_, _, start.pins_at bitBefore within⟩
  · obtain rfl : d = 2 * q.half * q.bits := by omega
    exact ⟨_, _, start.done_pins⟩

/-! ## The bits clocked out -/

theorem clocked_eq {u : Nat} : clocked (r.state u) (r.input u) =
    if !(r.state u).pins.sck && (r.state (u + 1)).pins.sck then
      some (r.state (u + 1)).pins.mosi else none := by
  rw [r.edge]
  rfl

/-- The pins one cycle on, at the end of a bit as within it. -/
theorem pins_succ (start : Accepts r t e q) {k j : Nat} (before : k < q.bits)
    (within : j < 2 * q.half) :
    (r.state (t + 1 + 2 * q.half * k + j + 1)).pins =
      q.selected (decide (q.half < j + 1)) (q.mosiBit k) := by
  have pos := q.half_pos
  by_cases last : j + 1 = 2 * q.half
  · have next := start.start_pins (k := k + 1) before
    rw [show t + 1 + 2 * q.half * k + j + 1 = t + 1 + 2 * q.half * (k + 1) by
      rw [Nat.mul_succ]; omega, next, if_neg (by omega), Nat.add_sub_cancel,
      decide_eq_true (by omega), decide_eq_true (by omega)]
  · rw [Nat.add_assoc (t + 1 + 2 * q.half * k), start.pins_at before (by omega), if_neg (by omega),
      if_neg (by omega)]

/-- Bit `k` is clocked out half-way through its cycles, and nothing else is. -/
theorem clocked_at (start : Accepts r t e q) {k j : Nat} (before : k < q.bits)
    (within : j < 2 * q.half) :
    clocked (r.state (t + 1 + 2 * q.half * k + j)) (r.input (t + 1 + 2 * q.half * k + j)) =
      if j = q.half then some (q.mosiBit k) else none := by
  have pos := q.half_pos
  rw [clocked_eq, start.pins_succ before within, start.pins_at before within]
  simp only [Request.selected]
  rcases Nat.lt_trichotomy j q.half with low | rise | high
  · have falls : ¬ q.half < j + 1 := by omega
    have other : j ≠ q.half := by omega
    simp [falls, other]
  · subst rise
    have later : q.half ≠ 0 := by omega
    simp [later]
  · have later : j ≠ 0 := by omega
    have other : j ≠ q.half := by omega
    simp [later, high, other]

theorem observe_bit (start : Accepts r t e q) {k j : Nat} (before : k < q.bits)
    (within : j ≤ 2 * q.half) :
    r.observe clocked (t + 1 + 2 * q.half * k) j =
      if q.half < j then [q.mosiBit k] else [] := by
  induction j with
  | zero => simp
  | succ j ih =>
      rw [r.observe_add, ih (by omega), r.observe_one, start.clocked_at before within]
      rcases Nat.lt_trichotomy j q.half with low | rfl | high
      · rw [if_neg (by omega), if_neg (by omega), if_neg (by omega)]; rfl
      · rw [if_neg (by omega), if_pos rfl, if_pos (by omega)]; rfl
      · rw [if_pos high, if_neg (by omega), if_pos (by omega)]; rfl

theorem observe_bits (start : Accepts r t e q) {k : Nat} (upto : k ≤ q.bits) :
    r.observe clocked (t + 1) (2 * q.half * k) = (List.range k).map q.mosiBit := by
  have pos := q.half_pos
  induction k with
  | zero => rfl
  | succ k ih =>
      rw [Nat.mul_succ, r.observe_add, ih (by omega), start.observe_bit upto le_rfl,
        if_pos (by omega), List.range_succ, List.map_append]
      rfl

/-- What has been clocked out at any point of a transaction: its first bits, in order; all of them
once it is in `ST_DONE`. -/
theorem observe_clocked (start : Accepts r t e q) {n : Nat} (upto : n ≤ 2 * q.half * q.bits) :
    ∃ k, k ≤ q.bits ∧ r.observe clocked (t + 1) n = (List.range k).map q.mosiBit ∧
      (n = 2 * q.half * q.bits → k = q.bits) := by
  rcases Nat.eq_or_lt_of_le upto with rfl | before
  · exact ⟨q.bits, le_rfl, start.observe_bits le_rfl, fun _ => rfl⟩
  · obtain ⟨k, j, bitBefore, within, rfl⟩ := exists_bit before
    rw [r.observe_add, start.observe_bits (by omega), start.observe_bit bitBefore (by omega)]
    by_cases rise : q.half < j
    · refine ⟨k + 1, bitBefore, ?_, by omega⟩
      rw [if_pos rise, List.range_succ, List.map_append]
      rfl
    · exact ⟨k, by omega, by rw [if_neg rise, List.append_nil], by omega⟩

end Accepts

end Transaction

end Engine

end AgilA32
