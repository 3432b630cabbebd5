import AgilA32.Boot.Script
import AgilA32.Boot.Source
import AgilA32.Top.PwmWave

/-!
# The output pins, cycle by cycle

`MemoryMap.uoOut` is what `uo_out` shows in a cycle, given the memory map and the cycles since reset.
Throughout an instruction it is that of the map before it, and in the last cycle, when a store has
taken effect, that of the map after it (`Board.uoOut_waveform`).
-/

namespace AgilA32

open AgilA32.Core (isEbreak)
open Rv32i (decode)

namespace Top

section Instruction

variable {r : Clocked.Run Top.step} {t : Nat} (start : Boundary (r.state t))
include start

/-- Until the fetch is over the registers and the settings stand. -/
theorem Boundary.fetch_stands {k : Nat} (upto : k ≤ 1 + fetchDelay r t) :
    (r.state (t + k)).mem.regs = (r.state t).mem.regs ∧
      (r.state (t + k)).mem.settings = (r.state t).mem.settings := by
  obtain ⟨regs, settings, -⟩ := quiet_edge start.rest start.valid start.we
  rcases Nat.eq_zero_or_pos k with rfl | later
  · exact ⟨rfl, rfl⟩
  · obtain ⟨j, rfl⟩ := Nat.exists_eq_add_of_le later
    obtain ⟨regs', settings', -⟩ := start.fetch_holds.waits_mem (k := j)
      (by rw [start.fetch_stallAt]; omega)
    rw [← Nat.add_assoc]
    exact ⟨regs'.trans regs, settings'.trans settings⟩

/-- Until its last cycle but one an instruction leaves them alone. -/
theorem Boundary.stands (live : isEbreak (word r t) = false) {u : Nat} (after : t ≤ u)
    (before : u + 1 < next r t) :
    (r.state u).mem.regs = (r.state t).mem.regs ∧
      (r.state u).mem.settings = (r.state t).mem.settings := by
  have last : next r t = t + 5 + fetchDelay r t + dataDelay r t + 2 := rfl
  obtain ⟨k, rfl⟩ := Nat.exists_eq_add_of_le after
  rcases Nat.lt_or_ge k (2 + fetchDelay r t) with fetching | past
  · exact start.fetch_stands (by omega)
  obtain ⟨j, rfl⟩ := Nat.exists_eq_add_of_le past
  rw [show t + (2 + fetchDelay r t + j) = t + 2 + fetchDelay r t + j by omega]
  rcases Nat.lt_or_ge j 3 with middle | late
  · obtain ⟨regs, settings, -⟩ := start.between (k := j) (by omega) (.inl live)
    exact ⟨regs, settings⟩
  obtain ⟨i, rfl⟩ := Nat.exists_eq_add_of_le late
  obtain ⟨regs, settings, -⟩ := start.between (k := 3) le_rfl (.inl live)
  obtain ⟨regs', settings', -⟩ := (start.data_holds live).waits_mem (k := i)
    (by rw [start.data_stallAt live]; omega)
  rw [show t + 4 + fetchDelay r t + 1 = t + 2 + fetchDelay r t + 3 by omega] at regs' settings'
  rw [← Nat.add_assoc]
  exact ⟨regs'.trans regs, settings'.trans settings⟩

end Instruction

end Top

namespace MemoryMap

/-- The PWM output in a cycle. -/
def pwmOut (s : MemoryMap) (cycle : Nat) : Bool :=
  s.pwmEnable && (s.pwmDuty == 0xFF#8 || decide (cycle % 256 < s.pwmDuty.toNat))

/-- `uo_out`: the LEDs, with `PIN_MUX` choosing what drives bit 7. -/
def uoOut (s : MemoryMap) (halted : Bool) (cycle : Nat) : BitVec 8 :=
  BitVec.ofBool
      (if s.pinMux = 1#2 then s.pwmOut cycle
      else if s.pinMux = 2#2 then halted
      else s.gpioOut.getLsbD 7) ++
    s.gpioOut.extractLsb' 0 7

end MemoryMap

namespace Board

open AgilA32.Top (Boundary Holds memRun word fetchDelay dataCycle dataDelay next)

section Run

variable {r : Clocked.Run Board.step} {u : Nat}

/-- The pins are a function of the settings, the LEDs and the cycle. -/
theorem uoOut_eq (zero : (r.state 0).mem.pwm.pwmCounter = 0) {m : MemoryMap} {b : Bool}
    (led : (r.state u).mem.regs.gpioOut = m.gpioOut) (duty : (r.state u).mem.pwm.pwmDuty = m.pwmDuty)
    (enable : (r.state u).mem.pwm.pwmEnable = m.pwmEnable)
    (mux : (r.state u).mem.pwm.pinMux = m.pinMux) (halted : (r.state u).core.halted = b) :
    (r.state u).top.uoOut = m.uoOut b u := by
  have counter : (r.state u).mem.pwm.pwmCounter = BitVec.ofNat 8 u := by
    have counted := Top.pwmCounter_add (topRun r) 0 u
    change (r.state (0 + u)).mem.pwm.pwmCounter = (r.state 0).mem.pwm.pwmCounter + _ at counted
    rw [zero, Nat.zero_add] at counted
    exact counted.trans (BitVec.zero_add _)
  have wave : (r.state u).mem.pwm.pwmOut = m.pwmOut u := by
    rw [Pwm.pwmOut, counter, duty, enable, MemoryMap.pwmOut, BitVec.ult, BitVec.toNat_ofNat]
  rw [Top.uoOut, Top.uo7Mux, MemoryMap.uoOut]
  change BitVec.ofBool (if (r.state u).mem.pwm.pinMux = 1#2 then (r.state u).mem.pwm.pwmOut
    else if (r.state u).mem.pwm.pinMux = 2#2 then (r.state u).core.halted
    else (r.state u).mem.regs.gpioOut.getLsbD 7) ++ (r.state u).mem.regs.gpioOut.extractLsb' 0 7 = _
  rw [wave, mux, halted, led]

/-- As long as the registers and the settings stand, the pins are those of the map. -/
theorem uoOut_stands (zero : (r.state 0).mem.pwm.pwmCounter = 0) {t : Nat} {b : Bool}
    (regs : (r.state u).mem.regs = (r.state t).mem.regs)
    (settings : (r.state u).mem.settings = (r.state t).mem.settings)
    (halted : (r.state u).core.halted = b) :
    (r.state u).top.uoOut = (mapAt r t).uoOut b u := by
  obtain ⟨-, duty, enable, mux⟩ := Settings.mk.inj settings
  exact uoOut_eq zero (congrArg MemRegs.gpioOut regs) duty enable mux halted

/-- The output pins in every cycle of an instruction of the machine. -/
theorem Ready.shows_pins (zero : (r.state 0).mem.pwm.pwmCounter = 0) {t : Nat}
    (ready : Ready (r.state t)) {i : Rv32i.Instr} (decoded : decode (word (topRun r) t) = some i)
    (running : i ≠ .ebreak) (after : t ≤ u) (before : u < next (topRun r) t) :
    (r.state u).top.uoOut =
      (if u + 1 < next (topRun r) t then mapAt r t else mapAt r (next (topRun r) t)).uoOut false u := by
  have live := Top.running_of decoded running
  have awake : (r.state u).core.halted = false := by
    by_contra halted
    have stopped := ready.starts.only_halts after (.inr ⟨live, before⟩)
      (show (r.state u).core.state = .halted by simpa [Core.halted] using halted)
    rw [live] at stopped
    cases stopped.1
  by_cases early : u + 1 < next (topRun r) t
  · obtain ⟨regs, settings⟩ := ready.starts.stands live after early
    rw [if_pos early]
    exact uoOut_stands zero regs settings awake
  · have last : u = dataCycle (topRun r) t + dataDelay (topRun r) t + 1 := by
      unfold next at before early
      omega
    have regs := (ready.starts.data_after live).1.trans (ready.starts.next_mem live).1.symm
    have settings := (ready.starts.data_after live).2.1.trans (ready.starts.next_mem live).2.1.symm
    rw [← last] at regs settings
    rw [if_neg early]
    exact uoOut_stands zero regs settings awake

/-- The output pins from an `EBREAK` on. -/
theorem Ready.shows_halt (zero : (r.state 0).mem.pwm.pwmCounter = 0) {t : Nat}
    (ready : Ready (r.state t)) (stop : isEbreak (word (topRun r) t) = true) (after : t ≤ u) :
    (r.state u).top.uoOut =
      (mapAt r t).uoOut (decide (t + 4 + fetchDelay (topRun r) t ≤ u)) u := by
  rcases Nat.lt_or_ge u (t + 4 + fetchDelay (topRun r) t) with early | late
  · have awake : (r.state u).core.halted = false := by
      by_contra halted
      have stopped := ready.starts.only_halts after (.inl stop)
        (show (r.state u).core.state = .halted by simpa [Core.halted] using halted)
      omega
    rw [decide_eq_false (by omega)]
    obtain ⟨k, rfl⟩ := Nat.exists_eq_add_of_le after
    rcases Nat.lt_or_ge k (2 + fetchDelay (topRun r) t) with fetching | past
    · obtain ⟨regs, settings⟩ := ready.starts.fetch_stands (k := k) (by omega)
      exact uoOut_stands zero regs settings awake
    · obtain ⟨j, rfl⟩ := Nat.exists_eq_add_of_le past
      obtain ⟨regs, settings, -⟩ := ready.starts.between (k := j) (by omega) (.inr (by omega))
      rw [show t + (2 + fetchDelay (topRun r) t + j) = t + 2 + fetchDelay (topRun r) t + j by omega]
        at awake ⊢
      exact uoOut_stands zero regs settings awake
  · obtain ⟨k, rfl⟩ := Nat.exists_eq_add_of_le late
    obtain ⟨core, regs, settings, -⟩ := ready.starts.parked stop k
    rw [decide_eq_true (by omega)]
    exact uoOut_stands zero regs settings (congrArg Core.halted core)

end Run

/-- What `uo_out` shows in every cycle of a run without illegal words: throughout an instruction what the
memory map before it says, in its last cycle what the map after it says, and from an `EBREAK` on what
the map says then, with the `halted` flag up once the core has stopped. -/
theorem uoOut_waveform (r : Clocked.Run Board.step) (b : Board) (reset : r.state 0 = b.reset)
    {n : Nat} {s : Soc} (reached : ((b.reset.soc 0).run (outside r)).state n = some s) {u : Nat}
    (after : s.cycle ≤ u) :
    (∀ s', ((b.reset.soc 0).run (outside r)).state (n + 1) = some s' → u < s'.cycle →
      (r.state u).top.uoOut = (if u + 1 < s'.cycle then s.map else s'.map).uoOut false u) ∧
    (decode (s.word (outside r)) = some .ebreak →
      (r.state u).top.uoOut = s.map.uoOut (decide (s.cycle + 4 + s.fetchStall ≤ u)) u) := by
  rw [← reset] at reached ⊢
  have start : Ready (r.state 0) := reset ▸ ready_reset b
  have zero : (r.state 0).mem.pwm.pwmCounter = 0 := by rw [reset]; rfl
  obtain ⟨-, ready, same⟩ := socRun_state start reached
  have map : mapAt r s.cycle = s.map := congrArg Soc.map same
  constructor
  · intro s' reached' before
    obtain ⟨s₀, i, here, -, -, cycle, decoded, running⟩ := socRun_before start reached'
    obtain rfl : s = s₀ := Option.some.inj (reached.symm.trans here)
    have map' : mapAt r s'.cycle = s'.map := congrArg Soc.map (socRun_state start reached').2.2
    rw [cycle] at before map' ⊢
    rw [ready.shows_pins zero decoded running after before, map, map']
  · intro stop
    have stopped : isEbreak (word (topRun r) s.cycle) = true := by
      rw [ready.word_eq, same]
      exact (Core.isEbreak_iff stop).mpr rfl
    have fetch := fetchDelay_soc (r := r) (t := s.cycle)
    rw [same] at fetch
    rw [ready.shows_halt zero stopped after, map, fetch]

/-- With a program that a host has sent, the pins show its sum, and when it has halted also that. -/
theorem uoOut_waveform_sum : ∃ v w, v < w ∧ (Boot.sumBoardRun.state v).top.uoOut = 0x0C ∧
    ∀ u, w ≤ u → (Boot.sumBoardRun.state u).top.uoOut = 0x8C := by
  obtain ⟨a, words, built, accepted, -, bytes, count⟩ := Boot.built_sumCalls
  have few : words.length ≤ 11 := by omega
  have size : (words.flatMap wordToBytes).length = 28 := by rw [bytes]; rfl
  have inRange := Boot.inRange_sumCalls
  -- the machine comes to the program, and goes through it
  obtain ⟨t₀, tested, loads⟩ := Boot.lands Boot.sumBoardRun zeroed rfl
  obtain ⟨t, -, lands⟩ := loads _ _ _ (by rw [size]; decide) (bytes ▸ Boot.sumBoardRun_host tested)
  obtain ⟨n, enters⟩ := Boot.socRun_enters rfl lands.ready.boundary.fetch lands.pc lands.rom
  obtain ⟨s, reached, pos, leds, mux, spares⟩ :=
    Boot.run_sumCalls (outside Boot.sumBoardRun) ((Boot.sumBoardRun.state t).task 0 t) rfl
  rw [← size] at spares
  have shown {k : Nat} {s' : Task} (upto : k ≤ 6) :=
    lands.shown inRange built accepted few spares (s := s') upto
  have program := (task_socRun inRange
    (fun k within => Asm.address_small (Nat.lt_trans within (by decide))) lands.pc
    reached fun _ _ before => shown before.le).1
  rw [← socRun_add enters] at program
  have stop : decode ((s.soc 0xB4).word (outside Boot.sumBoardRun)) = some .ebreak :=
    shown le_rfl reached .ebreak (by rw [pos]; rfl)
  have pins (u : Nat) (after : s.cycle ≤ u) : (Boot.sumBoardRun.state u).top.uoOut =
      BitVec.ofBool (decide (s.cycle + 4 + (s.soc 0xB4).fetchStall ≤ u)) ++ 0x0C#7 := by
    rw [(uoOut_waveform Boot.sumBoardRun zeroed rfl program after).2 stop, MemoryMap.uoOut]
    change BitVec.ofBool (if s.map.pinMux = 1#2 then _ else if s.map.pinMux = 2#2 then _ else _) ++
      s.map.gpioOut.extractLsb' 0 7 = _
    rw [mux, leds]
    rfl
  refine ⟨s.cycle, s.cycle + 4 + (s.soc 0xB4).fetchStall, by omega, ?_, fun u after => ?_⟩
  · rw [pins _ le_rfl, decide_eq_false (by omega)]
    rfl
  · rw [pins u (by omega), decide_eq_true after]
    rfl

end Board

end AgilA32
