import AgilA32.Boot.Program

/-!
# The test bench as a host

`boot_send_program` of the test bench: it raises START and sends a program bit by bit, with a fixed time
for each level of the clock.  It is a host that the boot ROM understands (`driver_host`), so it loads and
starts every program that fits (`driver_loads`).
-/

namespace AgilA32

namespace Boot

open Clocked (msbFirst)
open AgilA32.Top (Boundary stored)

/-! ## The driver -/

/-- The pins as the driver has set them, and the cycles that it waits then. -/
structure Hold where
  uiIn : BitVec 8
  cycles : Nat

/-- The pins after some of them, if they were at `ui` before. -/
def pinsAfter (ui : BitVec 8) (hs : List Hold) : BitVec 8 := (hs.getLast?.map Hold.uiIn).getD ui

/-- The pins, cycle by cycle. -/
def wave (ui : BitVec 8) : List Hold → Nat → BitVec 8
  | [], _ => ui
  | h :: hs, j => if j < h.cycles then h.uiIn else wave h.uiIn hs (j - h.cycles)

/-- `BOOT_BIT_HOLD_CYCLES`. -/
def bitHoldCycles : Nat := 200

/-- `boot_send_bit`. -/
def bootSendBit (ui : BitVec 8) (bit : Bool) : List Hold :=
  let low := ui &&& ~~~(1#8 <<< 0 ||| 1#8 <<< 1) ||| (BitVec.ofBool bit).setWidth 8 <<< 0
  let high := low ||| 1#8 <<< 1
  [⟨low, bitHoldCycles⟩, ⟨high, bitHoldCycles⟩, ⟨high &&& ~~~(1#8 <<< 1), bitHoldCycles⟩]

/-- One bit after the other. -/
def bootSendBits (ui : BitVec 8) : List Bool → List Hold
  | [] => []
  | bit :: bits => bootSendBit ui bit ++ bootSendBits (pinsAfter ui (bootSendBit ui bit)) bits

/-- `boot_send_byte`, most significant bit first. -/
def bootSendByte (ui : BitVec 8) (byte : BitVec 8) : List Hold :=
  bootSendBits ui ((List.range 8).map (msbFirst byte))

/-- One byte after the other. -/
def bootSendBytes (ui : BitVec 8) : List (BitVec 8) → List Hold
  | [] => []
  | byte :: bytes => bootSendByte ui byte ++ bootSendBytes (pinsAfter ui (bootSendByte ui byte)) bytes

/-- `boot_send_program`: START, a moment later the length, and then the bytes. -/
def bootSendProgram (ui : BitVec 8) (program : List (BitVec 8)) : List Hold :=
  ⟨ui ||| 1#8 <<< 2, 20⟩ :: bootSendBytes (ui ||| 1#8 <<< 2) (frame program)

/-! ## Its waveform -/

section Wave

variable {ui : BitVec 8}

theorem pinsAfter_append (hs hs' : List Hold) :
    pinsAfter ui (hs ++ hs') = pinsAfter (pinsAfter ui hs) hs' := by
  unfold pinsAfter
  rw [List.getLast?_append]
  cases hs'.getLast? <;> rfl

theorem bootSendBits_append (bits bits' : List Bool) : bootSendBits ui (bits ++ bits') =
    bootSendBits ui bits ++ bootSendBits (pinsAfter ui (bootSendBits ui bits)) bits' := by
  induction bits generalizing ui with
  | nil => rfl
  | cons bit bits ih =>
      rw [List.cons_append, bootSendBits, ih, bootSendBits, List.append_assoc, pinsAfter_append]

/-- The bytes of a message are sent as its bits. -/
theorem bootSendBytes_eq (bytes : List (BitVec 8)) :
    bootSendBytes ui bytes = bootSendBits ui ((List.range (8 * bytes.length)).map (wireBit bytes)) := by
  rw [Clocked.map_range_spelled _ bytes fun i within => by
    rw [spell_wireBit, List.getD_eq_getElem?_getD, List.getElem?_eq_getElem within]
    rfl]
  induction bytes generalizing ui with
  | nil => rfl
  | cons byte bytes ih =>
      rw [bootSendBytes, ih, List.flatMap_cons, bootSendBits_append]
      rfl

/-- The pins, cut at the end of some of what the driver does. -/
theorem wave_append (hs hs' : List Hold) (j : Nat) : wave ui (hs ++ hs') j =
    if j < (hs.map Hold.cycles).sum then wave ui hs j
    else wave (pinsAfter ui hs) hs' (j - (hs.map Hold.cycles).sum) := by
  induction hs generalizing ui j with
  | nil => rfl
  | cons h hs ih =>
      have after : pinsAfter h.uiIn hs = pinsAfter ui (h :: hs) := by
        unfold pinsAfter
        rw [List.getLast?_cons]
        cases hs.getLast? <;> rfl
      rw [List.cons_append, wave, ih, after, List.map_cons, List.sum_cons, wave]
      by_cases early : j < h.cycles
      · rw [if_pos early, if_pos early, if_pos (by omega)]
      · rw [if_neg early, if_neg early, Nat.sub_sub]
        exact if_congr (by omega) rfl rfl

/-- DATA is the bit throughout, and CLOCK is high for the second third. -/
theorem wave_bit (ui : BitVec 8) (bit : Bool) {j : Nat} (inside : j < 600) :
    (wave ui (bootSendBit ui bit) j).getLsbD 0 = bit ∧
      (wave ui (bootSendBit ui bit) j).getLsbD 1 = decide (200 ≤ j ∧ j < 400) ∧
      (wave ui (bootSendBit ui bit) j).getLsbD 2 = ui.getLsbD 2 := by
  simp only [bootSendBit, wave, bitHoldCycles]
  by_cases first : j < 200
  · rw [if_pos first, decide_eq_false (by omega)]
    cases bit <;> simp
  by_cases second : j < 400
  · rw [if_neg first, if_pos (by omega), decide_eq_true (by omega)]
    cases bit <;> simp
  · rw [if_neg first, if_neg (by omega), if_pos (by omega), decide_eq_false (by omega)]
    cases bit <;> simp

theorem bit_after (ui : BitVec 8) (bit : Bool) :
    (pinsAfter ui (bootSendBit ui bit)).getLsbD 1 = false ∧
      (pinsAfter ui (bootSendBit ui bit)).getLsbD 2 = ui.getLsbD 2 := by
  cases bit <;> simp [bootSendBit, pinsAfter]

/-- The pins while bits are sent, and after that. -/
theorem wave_bits (bits : List Bool) (j : Nat) :
    (j / 600 < bits.length → (wave ui (bootSendBits ui bits) j).getLsbD 0 = bits.getD (j / 600) false ∧
      (wave ui (bootSendBits ui bits) j).getLsbD 1 = decide (200 ≤ j % 600 ∧ j % 600 < 400)) ∧
    (bits.length ≤ j / 600 → ui.getLsbD 1 = false →
      (wave ui (bootSendBits ui bits) j).getLsbD 1 = false) ∧
    (wave ui (bootSendBits ui bits) j).getLsbD 2 = ui.getLsbD 2 := by
  induction bits generalizing ui j with
  | nil => exact ⟨fun within => absurd within (Nat.not_lt_zero _), fun _ low => low, rfl⟩
  | cons bit bits ih =>
      have total : ((bootSendBit ui bit).map Hold.cycles).sum = 600 := rfl
      obtain ⟨low, start⟩ := bit_after ui bit
      rw [bootSendBits, wave_append, total, List.length_cons]
      rcases Nat.lt_or_ge j 600 with inside | later
      · obtain ⟨data, clock, start'⟩ := wave_bit ui bit inside
        rw [if_pos inside, Nat.div_eq_of_lt inside, Nat.mod_eq_of_lt inside]
        exact ⟨fun _ => ⟨data, clock⟩, fun none => absurd none (by omega), start'⟩
      · obtain ⟨i, rfl⟩ := Nat.exists_eq_add_of_le' later
        obtain ⟨sent, ended, start'⟩ := @ih (pinsAfter ui (bootSendBit ui bit)) i
        rw [if_neg (by omega), Nat.add_sub_cancel, Nat.add_div_right _ (by decide), Nat.add_mod_right]
        refine ⟨fun within => ?_, fun done _ => ended (by omega) low, start'.trans start⟩
        obtain ⟨data, clock⟩ := sent (by omega)
        exact ⟨data, clock⟩

end Wave

/-! ## A host -/

/-- The driver runs from cycle `a` on, in the listen loop, on the pins `ui_in[2:0]`, which were low before. -/
structure Driven (r : Clocked.Run Top.step) (t₀ a : Nat) (ui : BitVec 8) (payload : List (BitVec 8)) :
    Prop where
  after : t₀ ≤ a
  listening : (r.observe polled 0 a).length < 512
  idle : ui.getLsbD 1 = false
  before : ∀ u, u < a → (r.input u).uiIn.getLsbD 2 = false
  plays : ∀ j k, k < 3 →
    (r.input (a + j)).uiIn.getLsbD k = (wave ui (bootSendProgram ui payload) j).getLsbD k

section Driver

variable {r : Clocked.Run Top.step} {t₀ a : Nat} {ui : BitVec 8} {payload : List (BitVec 8)}

/-- The cycles in which the clock falls, the first one being that of START, and those in which it rises. -/
def driverLow (a k : Nat) : Nat := a + (600 * k - 180)
def driverRise (a k : Nat) : Nat := a + 220 + 600 * k

theorem program_pins (ui : BitVec 8) (payload : List (BitVec 8)) (j : Nat) :
    let pins := wave ui (bootSendProgram ui payload)
    (j / 600 < 8 * (frame payload).length → (pins (20 + j)).getLsbD 0 = wireBit (frame payload) (j / 600) ∧
      (pins (20 + j)).getLsbD 1 = decide (200 ≤ j % 600 ∧ j % 600 < 400)) ∧
    (8 * (frame payload).length ≤ j / 600 → ui.getLsbD 1 = false → (pins (20 + j)).getLsbD 1 = false) ∧
    (pins (20 + j)).getLsbD 2 = true := by
  have raised : (ui ||| 1#8 <<< 2).getLsbD 1 = ui.getLsbD 1 ∧ (ui ||| 1#8 <<< 2).getLsbD 2 = true := by simp
  obtain ⟨sent, ended, start⟩ := @wave_bits (ui ||| 1#8 <<< 2)
    ((List.range (8 * (frame payload).length)).map (wireBit (frame payload))) j
  rw [List.length_map, List.length_range, raised.1] at ended
  rw [List.length_map, List.length_range] at sent
  dsimp only
  rw [bootSendProgram, wave, if_neg (Nat.not_lt.mpr (Nat.le_add_right 20 j)), Nat.add_sub_cancel_left,
    bootSendBytes_eq]
  refine ⟨fun within => ?_, ended, start.trans raised.2⟩
  obtain ⟨data, clock⟩ := sent within
  rw [List.getD_eq_getElem?_getD, List.getElem?_map, List.getElem?_range within] at data
  exact ⟨data, clock⟩

theorem start_pins (ui : BitVec 8) (payload : List (BitVec 8)) {j : Nat} (early : j < 20) :
    (wave ui (bootSendProgram ui payload) j).getLsbD 1 = ui.getLsbD 1 ∧
      (wave ui (bootSendProgram ui payload) j).getLsbD 2 = true := by
  rw [bootSendProgram, wave, if_pos early]
  simp

theorem Driven.sends (driven : Driven r t₀ a ui payload) : Sends r (driverLow a) (driverRise a)
    (wireBit (frame payload)) (8 * (frame payload).length) where
  low_long k _ := by unfold driverLow driverRise; omega
  high_long k _ := by unfold driverLow driverRise; omega
  clock_low k upto u after before := by
    unfold driverLow at after
    unfold driverRise at before
    obtain ⟨j, rfl⟩ := Nat.exists_eq_add_of_le (show a ≤ u by omega)
    rw [clock, driven.plays j 1 (by decide)]
    rcases Nat.lt_or_ge j 20 with early | late
    · exact (start_pins ui payload early).1.trans driven.idle
    obtain ⟨i, rfl⟩ := Nat.exists_eq_add_of_le late
    obtain ⟨sent, ended, -⟩ := program_pins ui payload i
    rcases Nat.lt_or_ge (i / 600) (8 * (frame payload).length) with within | done
    · exact (sent within).2.trans (decide_eq_false (by omega))
    · exact ended done driven.idle
  clock_high k within u after before := by
    unfold driverRise at after
    unfold driverLow at before
    obtain ⟨i, rfl⟩ := Nat.exists_eq_add_of_le (show a + 20 ≤ u by omega)
    rw [clock, Nat.add_assoc, driven.plays (20 + i) 1 (by decide),
      ((program_pins ui payload i).1 (by omega)).2]
    exact decide_eq_true (by omega)
  stable k within u after before := by
    unfold driverRise at after
    unfold driverLow at before
    obtain ⟨i, rfl⟩ := Nat.exists_eq_add_of_le (show a + 20 ≤ u by omega)
    rw [data, Nat.add_assoc, driven.plays (20 + i) 0 (by decide),
      ((program_pins ui payload i).1 (by omega)).1, show i / 600 = k by omega]

/-- The driver is a host. -/
theorem driver_host (driven : Driven r t₀ a ui payload) :
    Host r t₀ (driverLow a) (driverRise a) payload where
  after := driven.after
  early := driven.listening
  unseen u before seen := by
    have high := polled_eq seen
    rw [driven.before u before] at high
    cases high
  held u after _ := by
    obtain ⟨j, rfl⟩ := Nat.exists_eq_add_of_le (show a ≤ u from after)
    rw [driven.plays j 2 (by decide)]
    rcases Nat.lt_or_ge j 20 with early | late
    · exact (start_pins ui payload early).2
    · obtain ⟨i, rfl⟩ := Nat.exists_eq_add_of_le late
      exact (program_pins ui payload i).2.2
  sends := driven.sends

/-- `boot_send_program` loads and starts every program that fits, started at any moment of the listen loop:
the boot ROM reaches `0xB4` before any code in RAM or flash has run, with the program in RAM from there on,
every other RAM byte as it was, and `FLASH_MODE` clear. -/
theorem driver_loads (r : Clocked.Run Top.step) (s : Top) (reset : r.state 0 = s.reset) :
    ∃ t₀, SelfTested r t₀ ∧ ∀ a ui (payload : List (BitVec 8)), payload.length ≤ 44 →
      Driven r t₀ a ui payload →
      ∃ T, a < T ∧ (∀ u, u < T → (r.state u).core.pc.toNat < 176) ∧
        (r.state T).core.state = .fetch ∧ (r.state T).core.pc = 0xB4#8 ∧
        (r.state T).mem.regs.flashMode = false ∧
        ∀ k, k < 48 → (r.state T).mem.regs.ramByte k =
          if 4 ≤ k ∧ k < 4 + payload.length then payload.getD (k - 4) 0
          else (r.state 0).mem.regs.ramByte k := by
  obtain ⟨t₀, tested, -, loads⟩ := boot_loads s reset
  refine ⟨t₀, tested, fun a ui payload fits driven => ?_⟩
  obtain ⟨T, x, m, g, log, after, -, entered, loaded⟩ := loads _ _ payload fits (driver_host driven)
  obtain ⟨ws, others⟩ := loaded.others
  refine ⟨T, after, fun u => entered.rom u (Nat.zero_le u), entered.reached.boundary.fetch,
    entered.reached.pc, ?_, fun k within => ?_⟩
  · rw [entered.reached.mem, others]
    rfl
  · rw [entered.reached.mem, loaded.bytes k within, reset]
    rfl

/-- The driver's inputs, with START raised when the self-test is over whatever its outcome. -/
def driverInput (payload : List (BitVec 8)) (u : Nat) : TopIn where
  uiIn := if u < 10286 then 0 else wave 0 (bootSendProgram 0 payload) (u - 10286)
  uioIn := 0
  undef := 0

/-- Any run with these pins is driven. -/
theorem driven_of_input (tested : SelfTested r t₀) (inputs : ∀ u k, k < 3 →
    (r.input u).uiIn.getLsbD k = (driverInput payload u).uiIn.getLsbD k) : Driven r t₀ 10286 0 payload where
  after := tested.time.2
  listening := by
    have short := List.length_filterMap_le (fun u => polled (r.state u) (r.input u))
      (List.range' t₀ (10286 - t₀))
    have cut := r.observe_cut polled (Nat.zero_le t₀) tested.time.2
    rw [Nat.sub_zero, Nat.sub_zero, tested.unpolled, List.nil_append] at cut
    rw [cut, Clocked.Run.observe]
    rw [List.length_range'] at short
    have early := tested.time.1
    omega
  idle := rfl
  before u early := by
    rw [inputs u 2 (by decide), driverInput, if_pos early]
    rfl
  plays j k small := by
    rw [inputs _ k small, driverInput]
    dsimp only
    rw [if_neg (by omega), Nat.add_sub_cancel_left]

/-- The test bench's program: it adds 5 and 7 and shows the sum on the LEDs. -/
def addProgram : List (BitVec 8) :=
  [0x93, 0x00, 0x50, 0x00, 0x13, 0x01, 0x70, 0x00, 0xb3, 0x81, 0x20, 0x00, 0x23, 0x28, 0x30, 0x0e,
    0x6f, 0x00, 0x00, 0x00]

def driverRun : Clocked.Run Top.step := .ofInputs Top.step Top.zeroed.reset (driverInput addProgram)

theorem driver_loads_addProgram : ∃ T, (driverRun.state T).core.pc = 0xB4#8 ∧
    ∀ k, k < 20 → (driverRun.state T).mem.regs.ramByte (4 + k) = addProgram.getD k 0 := by
  obtain ⟨t₀, tested, loads⟩ := driver_loads driverRun Top.zeroed rfl
  obtain ⟨T, -, -, -, pc, -, bytes⟩ :=
    loads 10286 0 addProgram (by decide) (driven_of_input tested fun _ _ _ => rfl)
  refine ⟨T, pc, fun k within => ?_⟩
  have short : addProgram.length = 20 := rfl
  rw [bytes (4 + k) (by omega), if_pos (by omega), Nat.add_sub_cancel_left]

end Driver

end Boot

end AgilA32
