import AgilA32.Flash.Paging
import AgilA32.Mem.Timer
import AgilA32.Top.Effects

/-!
# Halting

`EBREAK` is the only way into `ST_HALTED`, and there is no way out of it.  When the core parks its fetch
has been answered, so the engine rests wherever the `EBREAK` came from, and with nothing on the bus it
rests for good; only the counters of the memory go on (`halting_is_quiet`).
-/

namespace AgilA32

namespace Top

open AgilA32.Core (isEbreak)
open Engine (Resting)

/-- The word `w` is executed: its fetch begins in cycle `t`, it is the answer in cycle `u`, and in cycle
`u + 1` it is in `ir` and the core in `ST_EXEC`. -/
structure Executes (r : Clocked.Run Top.step) (t u : Nat) (w : BitVec 32) : Prop where
  fetch : t < u ∧ (r.state t).core.state = .fetch
  answer : (r.state u).core.state = .decode ∧ (r.state u).core.memAddr = (r.state t).core.pc ∧
    (r.state u).memRdata (r.input u) = w
  exec : (r.state (u + 1)).core.state = .exec ∧ (r.state (u + 1)).core.ir = w ∧
    (r.state (u + 1)).core.pc = (r.state t).core.pc

/-- A `SYSTEM` word with `funct3 = 0` and `imm = 1`. -/
structure SystemOne (w : BitVec 32) : Prop where
  opcode : w.extractLsb' 0 7 = 0b1110011#7
  funct3 : w.extractLsb' 12 3 = 0#3
  imm : w.extractLsb' 20 12 = 1#12

/-- The core is halted and everything quiet, `n` cycles after the state `before`: what software sees has
not changed, except that the PWM counter and an enabled timer have counted the `n` cycles, the latter
with its overflow flag. -/
structure Halted (n : Nat) (before after : Top) : Prop where
  halted : after.core.halted = true
  bus : after.core.memValid = false ∧ after.core.memWe = false
  engine : after.mem.qspi.state = .idle
  pins : after.cs0 = true ∧ after.cs1 = true ∧ after.cs2 = true ∧ after.sck = false
  pc : after.core.pc = before.core.pc
  regs : after.core.regs = before.core.regs
  ram : after.mem.regs.ramWords = before.mem.regs.ramWords
  register : ∀ reg : Register, reg ≠ .timerFlag → reg.value after.mem = reg.value before.mem
  pwm : after.mem.pwm.pwmCounter = before.mem.pwm.pwmCounter + BitVec.ofNat 8 n
  timer : after.mem.timer =
    if before.mem.timer.timerEnable then
      { before.mem.timer with
        timerCnt := before.mem.timer.timerCnt + BitVec.ofNat 16 n
        timerOverflow := before.mem.timer.timerOverflow ||
          decide (65536 ≤ before.mem.timer.timerCnt.toNat + n) }
    else before.mem.timer

theorem systemOne_of_isEbreak {w : BitVec 32} (stop : isEbreak w = true) : SystemOne w := by
  simp only [isEbreak, Bool.and_eq_true, beq_iff_eq] at stop
  obtain ⟨⟨system, funct3⟩, imm⟩ := stop
  refine ⟨?_, funct3, imm⟩
  unfold Core.opcode at system
  split at system <;> simp_all

/-- The pins of an engine that rests. -/
theorem pins_resting {s : Top} (rest : Resting s.mem.qspi) :
    s.cs0 = true ∧ s.cs1 = true ∧ s.cs2 = true ∧ s.sck = false := by
  have pins := s.pins_eq
  rw [Engine.pins, Pins.mk.injEq, rest.cs0, rest.cs1, rest.cs2, rest.sck] at pins
  exact ⟨pins.1.symm, pins.2.1.symm, pins.2.2.1.symm, pins.2.2.2.1.symm⟩

section Halting

variable {r : Clocked.Run Top.step} {t : Nat}

/-- With nothing on the bus the counters count. -/
theorem counted_quiet {a n : Nat}
    (quiet : ∀ k, k < n → (r.state (a + k)).core.memValid = false ∧
      (r.state (a + k)).core.memWe = false) :
    Counted n (r.state a).mem (r.state (a + n)).mem := by
  induction n with
  | zero => exact Counted.zero _
  | succ n ih =>
      obtain ⟨valid, we⟩ := quiet n (Nat.lt_succ_self n)
      have still := (step_mem (s := r.state (a + n)) (i := r.input (a + n))
        (fun strobe => absurd strobe (Bool.eq_false_iff.mp we))).1 (stored_quiet valid)
      refine (ih fun k before => quiet k (by omega)).tick ?_ (pwmCounter_succ _)
      rw [← Nat.add_assoc, r.edge]
      exact still.2.2

namespace Boundary

variable (start : Boundary (r.state t))
include start

theorem executes : Executes r t (t + 2 + fetchDelay r t) (word r t) := by
  have fetched := start.fetched_core
  have latched := start.latched_core
  rw [show t + 3 + fetchDelay r t = t + 2 + fetchDelay r t + 1 by omega] at latched
  refine ⟨⟨by omega, start.fetch⟩, ⟨by rw [fetched]; rfl, by rw [fetched]; rfl, rfl⟩, ?_⟩
  rw [latched]
  exact ⟨rfl, rfl, rfl⟩

variable (stop : isEbreak (word r t) = true)
include stop

/-- From `ST_EXEC` on the bus is quiet. -/
theorem stopped_core (k : Nat) :
    (r.state (t + 3 + fetchDelay r t + k)).core.memValid = false ∧
      (r.state (t + 3 + fetchDelay r t + k)).core.memWe = false := by
  cases k with
  | zero =>
      rw [Nat.add_zero, start.latched_core]
      exact ⟨rfl, rfl⟩
  | succ k =>
      rw [show t + 3 + fetchDelay r t + (k + 1) = t + 4 + fetchDelay r t + k by omega,
        (start.parked stop k).1]
      exact ⟨rfl, rfl⟩

theorem halts (n : Nat) : Halted (n + 1) (r.state (t + 3 + fetchDelay r t))
    (r.state (t + 4 + fetchDelay r t + n)) := by
  have latched := start.latched_core
  obtain ⟨regs, settings, -⟩ := start.between (k := 1) (by omega) (.inr (by omega))
  rw [show t + 2 + fetchDelay r t + 1 = t + 3 + fetchDelay r t by omega] at regs settings
  obtain ⟨core, regs', settings', rest⟩ := start.parked stop n
  have counted := counted_quiet (r := r) (a := t + 3 + fetchDelay r t) (n := n + 1)
    fun k _ => start.stopped_core stop k
  rw [show t + 3 + fetchDelay r t + (n + 1) = t + 4 + fetchDelay r t + n by omega] at counted
  have same := regs'.trans regs.symm
  exact
    { halted := by rw [core]; rfl
      bus := by rw [core]; exact ⟨rfl, rfl⟩
      engine := rest.idle
      pins := pins_resting rest
      pc := by rw [core, latched]; rfl
      regs := by rw [core, latched]; rfl
      ram := by rw [same]
      register := fun reg => Register.value_congr same (settings'.trans settings.symm) reg
      pwm := counted.pwm
      timer := counted.timer.trans (Timer.tick_iterate _ _) }

end Boundary

/-- Halting is permanent and quiet.  In every run from reset in which the core is halted in some cycle,
there is a `SYSTEM` word with `funct3 = 0` and `imm = 1` whose execution halted it: up to then the core
has not been halted, and ever after it is, with everything quiet. -/
theorem halting_is_quiet (r : Clocked.Run Top.step) (s : Top) (reset : r.state 0 = s.reset) {v : Nat}
    (halted : (r.state v).core.halted = true) :
    ∃ t u w, Executes r t u w ∧ SystemOne w ∧ u + 2 ≤ v ∧
      (∀ k, k < u + 2 → (r.state k).core.halted = false) ∧
      ∀ n, Halted (n + 1) (r.state (u + 1)) (r.state (u + 2 + n)) := by
  have start : Boundary (r.state 0) := reset ▸ boundary_reset s
  have cause {k : Nat} (halted : (r.state k).core.halted = true) :
      ∃ t, Boundary (r.state t) ∧ isEbreak (word r t) = true ∧ t + 4 + fetchDelay r t ≤ k := by
    obtain ⟨t, upto, boundary, -, reach⟩ :=
      exists_instruction_of (P := fun _ => True) r start trivial (fun _ _ _ _ => trivial) k
    exact ⟨t, boundary, boundary.only_halts upto reach (eq_of_beq halted)⟩
  obtain ⟨t, boundary, stop, late⟩ := cause halted
  refine ⟨t, t + 2 + fetchDelay r t, word r t, boundary.executes, systemOne_of_isEbreak stop,
    by omega, fun k early => ?_, fun n => ?_⟩
  · -- an earlier halt would have its own `EBREAK`, after which there is no fetch any more
    by_contra already
    obtain ⟨t', boundary', stop', late'⟩ := cause (Bool.eq_true_of_not_eq_false already)
    rcases Nat.lt_trichotomy t t' with before | rfl | after
    · exact boundary.only_fetch before (.inl stop) boundary'.fetch
    · omega
    · exact boundary'.only_fetch after (.inl stop') boundary.fetch
  · have halts := boundary.halts stop n
    rwa [show t + 3 + fetchDelay r t = t + 2 + fetchDelay r t + 1 by omega,
      show t + 4 + fetchDelay r t = t + 2 + fetchDelay r t + 2 by omega] at halts

/-- A flash image of eight NOPs and an `EBREAK`. -/
def haltMem (n : BitVec 14) : BitVec 8 :=
  ((List.replicate 8 [0x13#8, 0, 0, 0]).flatten ++ [0x73#8, 0, 0x10, 0]).getD n.toNat 0

/-- A board with this image and no host executes the `EBREAK` from the flash, and is quiet ever after. -/
theorem halting_is_quiet_flash : ∃ u w, SystemOne w ∧
    ∀ n, Halted (n + 1) ((Board.topRun (Flash.flashBoardRun haltMem)).state (u + 1))
      ((Board.topRun (Flash.flashBoardRun haltMem)).state (u + 2 + n)) := by
  obtain ⟨t, a, last, mode, page, pc⟩ := Flash.flashBoard_load
    (show ∀ j < 8, SpiRam.wordAt haltMem (4 * j) = 0x13#32 by decide +kernel)
  have fetch := last.fetch_zero (Board.wired (Flash.flashBoardRun haltMem) 1#2 (by simp)) mode page
    (k := 32) (by rw [pc]; rfl) (by omega)
  have stop : isEbreak (word (Board.topRun (Flash.flashBoardRun haltMem)) t) = true := by
    rw [fetch.word]
    decide +kernel
  obtain ⟨-, u, w, -, ebreak, -, -, quiet⟩ := halting_is_quiet
    (Board.topRun (Flash.flashBoardRun haltMem)) zeroed rfl (last.here.boundary.halts stop 0).halted
  exact ⟨u, w, ebreak, quiet⟩

end Halting

end Top

end AgilA32
