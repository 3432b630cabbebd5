import AgilA32.Board.RamFlash
import AgilA32.Flash.Simulation
import AgilA32.Soc.Pins

/-!
# The paged machine on the pins

While a flash program runs, its polls are loads of `GPIO_IN` that the design makes and its writes are
what the design stores to `GPIO_OUT`, in the same order and nothing else (`observes`).  In every cycle
the LED pins show the last value written (`uoOut_last`).
-/

namespace AgilA32

open AgilA32.Core (hart isEbreak toAccess)
open Rv32i (Instr decode)

namespace Top

/-- What a load of `GPIO_IN` gets: the pins, in the cycle in which it retires. -/
def gpioRead (s : Top) (i : TopIn) : Option (BitVec 8) :=
  if s.core.state = .wb ∧ Core.opcode s.core.ir = .load ∧ s.core.memAddr = 0xF4#8 then some i.uiIn
  else none

section Instruction

variable {r : Clocked.Run Top.step} {t : Nat} {a : Arch} (here : At r t a) {i : Instr}
  (decoded : decode (word r t) = some i) (running : i ≠ .ebreak)
include here decoded running

/-- A load of `GPIO_IN` samples the pins in the instruction's last cycle, and no other instruction does. -/
theorem At.observe_gpioRead : r.observe gpioRead t (Top.next r t - t) =
    match i.memReq (hart a.pc a.x) with
    | some (.load _ addr) => if addr.setWidth 8 = 0xF4#8 then [(r.input (Top.next r t - 1)).uiIn] else []
    | _ => [] := by
  have live := running_of decoded running
  have later := lt_next r t
  have access := Core.dataAccess_eq a.pc a.x decoded
  have last : (r.state (Top.next r t - 1)).core = (r.state t).core.accessed (word r t) :=
    here.boundary.accessed live
  rw [show Top.next r t - t = Top.next r t - 1 - t + 1 by omega, r.observe_add, r.observe_one,
    r.observe_eq_nil, show t + (Top.next r t - 1 - t) = Top.next r t - 1 by omega, List.nil_append]
  · have seen : gpioRead (r.state (Top.next r t - 1)) (r.input (Top.next r t - 1)) =
        if Core.opcode (word r t) = .load ∧ (dataBus r t).addr = 0xF4#8 then
          some (r.input (Top.next r t - 1)).uiIn
        else none := by
      unfold gpioRead
      rw [last]
      simp only [Core.accessed_state, true_and]
      congr 3
      exact congrArg Core.opcode (Core.issued_ir _ _)
    rw [seen]
    unfold Core.dataAccess at access
    cases asked : i.memReq (hart a.pc a.x) with
    | none =>
        rw [asked] at access
        rw [if_neg]
        · rfl
        · rintro ⟨load, -⟩
          rw [load] at access
          cases access
    | some request =>
        rw [asked] at access
        cases request with
        | load width addr =>
            have load : Core.opcode (word r t) = .load := by
              split at access
              · assumption
              · cases access
              · cases access
            obtain ⟨-, -, bus, -⟩ := dataBus_load here decoded asked
            simp only [load, bus, true_and]
            split <;> rfl
        | store width addr data =>
            rw [if_neg]
            · rfl
            · rintro ⟨load, -⟩
              rw [load] at access
              cases access
  · intro k before
    obtain ⟨-, wb⟩ := here.boundary.within live (u := t + k) (by omega) (by omega)
    refine if_neg fun reads => ?_
    have := wb.mp reads.1
    omega

/-- A store to `GPIO_OUT` writes its low byte to the LEDs, and no other instruction does. -/
theorem At.observe_ledWrite : r.observe ledWrite t (Top.next r t - t) =
    match i.memReq (hart a.pc a.x) with
    | some (.store _ addr data) => if addr.setWidth 8 = 0xF0#8 then [data.setWidth 8] else []
    | _ => [] := by
  have live := running_of decoded running
  rw [show ledWrite = fun s i => (stored s i).bind _ from rfl, r.observe_bind,
    here.boundary.observe_stored live]
  cases asked : i.memReq (hart a.pc a.x) with
  | none =>
      obtain ⟨valid, -⟩ := dataBus_none here decoded asked
      simp [storedBy, valid]
  | some request =>
      cases request with
      | load width addr =>
          obtain ⟨-, we, -⟩ := dataBus_load here decoded asked
          simp [storedBy, we]
      | store width addr data =>
          rw [dataBus_store here decoded asked]
          by_cases led : addr.setWidth 8 = 0xF0#8
          · simp only [storedBy, led, Bool.and_true, if_pos, List.filterMap_cons, ← Core.low_bits]
            rfl
          · simp [storedBy, led]

end Instruction

/-- `LED_OUT` changes only with a store to it. -/
theorem gpioOut_held {r : Clocked.Run Top.step} (start : Boundary (r.state 0)) (u : Nat) :
    (r.state (u + 1)).mem.regs.gpioOut =
      (ledWrite (r.state u) (r.input u)).getD (r.state u).mem.regs.gpioOut := by
  obtain ⟨quiet, stores⟩ := step_mem (i := r.input u) (strobe_at start u)
  rw [r.edge, ledWrite]
  cases done : stored (r.state u) (r.input u) with
  | none => rw [(quiet done).1]; rfl
  | some b =>
      obtain ⟨we, regs, -⟩ := stores b done
      rw [regs, MemRegs.commit_eq _ _ _ we, MemRegs.write_eq, Option.bind_some]
      dsimp only
      split <;> rfl

/-- With `PIN_MUX` as after reset the pins are the LEDs. -/
theorem uoOut_led {s : Top} (mux : s.mem.settings.pinMux = 0#2) : s.uoOut = s.mem.regs.gpioOut := by
  have mux : s.mem.pwm.pinMux = 0#2 := mux
  rw [uoOut, uo7Mux, mux, if_neg (by decide), if_neg (by decide)]
  refine BitVec.eq_of_getLsbD_eq fun k within => ?_
  rw [BitVec.getLsbD_append, BitVec.getLsbD_extractLsb', BitVec.getLsbD_ofBool]
  rcases Nat.lt_or_ge k 7 with low | high
  · simp [low]
  · obtain rfl : k = 7 := by omega
    simp

/-- Settings that are the same where an instruction begins and where the next one does are so in
between. -/
theorem Boundary.settings_within {r : Clocked.Run Top.step} {t : Nat} (start : Boundary (r.state t))
    (live : isEbreak (word r t) = false)
    (same : (r.state (next r t)).mem.settings = (r.state t).mem.settings) {u : Nat} (after : t ≤ u)
    (upto : u ≤ next r t) : (r.state u).mem.settings = (r.state t).mem.settings := by
  rcases Nat.lt_or_ge (u + 1) (next r t) with early | late
  · exact (start.stands live after early).2
  rcases Nat.eq_or_lt_of_le upto with rfl | before
  · exact same
  · have last : u = dataCycle r t + dataDelay r t + 1 := by
      unfold next at before late
      omega
    rw [last, (start.data_after live).2.1, ← (start.next_mem live).2.1]
    exact same

end Top

namespace Paged

open Clocked (Run)
open Flash (FlashAt Holds)
open Mem (engineRun)
open AgilA32.Top (Arch begins gpioRead ledWrite memRun word)

section Design

variable {r : Run Top.step} {c : Run SpiRam.step} {mem : BitVec 14 → BitVec 8}
  {image : List (BitVec 8)} {t : Nat} {a : Arch}
  (wired : Attached (engineRun (memRun r)) c 1#2) (holds : Holds mem image)
  (flash : FlashAt r c mem t a) (mode : a.mem.flashMode = true)
include wired holds flash mode

/-- An instruction polls and writes what the paged machine's action says. -/
theorem shows {i : Instr} {s : State} (fetched : fetch image (ofArch a) = some i)
    (done : exec i (ofArch a) (r.input (Top.next r t - 1)).uiIn = some s) :
    r.observe gpioRead t (Top.next r t - t) =
        (if action i (ofArch a) = .poll then [(r.input (Top.next r t - 1)).uiIn] else []) ∧
      r.observe ledWrite t (Top.next r t - t) =
        match action i (ofArch a) with
        | .write led => [led]
        | _ => [] := by
  have decoded := word_of_fetch wired holds flash mode fetched
  have running : i ≠ .ebreak := by
    rintro rfl
    cases done
  rw [flash.here.observe_gpioRead decoded running, flash.here.observe_ledWrite decoded running, action,
    show hart (ofArch a).pc (ofArch a).x = hart a.pc a.x from rfl]
  cases asked : i.memReq (hart a.pc a.x) with
  | none => simp [running]
  | some request =>
      cases request with
      | load width addr => by_cases poll : addr.setWidth 8 = 0xF4#8 <;> simp [poll]
      | store width addr data =>
          by_cases led : addr.setWidth 8 = 0xF0#8
          · simp [led]
          · by_cases turn : addr.setWidth 8 = 0xFC#8 <;> simp [led, turn]

/-- As long as the machine is not stuck, the design has polled and written what the machine has. -/
theorem observes {m : Nat} {s : State} (reached : (machine r image t a).state m = some s) :
    r.observe gpioRead t (begins r t m - t) = (machine r image t a).observe (polled image) 0 m ∧
      r.observe ledWrite t (begins r t m - t) = (machine r image t a).observe (written image) 0 m := by
  induction m generalizing s with
  | zero =>
      change r.observe gpioRead t (t - t) = _ ∧ r.observe ledWrite t (t - t) = _
      rw [Nat.sub_self]
      exact ⟨rfl, rfl⟩
  | succ m ih =>
      rw [(machine r image t a).edge] at reached
      obtain ⟨s₀, here, reached⟩ := Option.bind_eq_some_iff.mp reached
      obtain ⟨i, fetched, done⟩ := Option.bind_eq_some_iff.mp reached
      obtain ⟨polls, writes⟩ := ih here
      have there := simulates wired holds flash mode here
      obtain ⟨polls', writes'⟩ := shows wired holds there mode fetched done
      have one := Leads.one (fun _ => none) here fetched done
      have first := Top.le_begins r t m
      have second := (Top.lt_next r (begins r t m)).le
      have whole := one.polls
      have whole' := one.writes
      rw [Nat.add_sub_cancel_left] at whole whole'
      change r.observe gpioRead t (Top.next r (begins r t m) - t) = _ ∧
        r.observe ledWrite t (Top.next r (begins r t m) - t) = _
      rw [r.observe_cut _ first second, r.observe_cut _ first second, polls, writes, polls', writes',
        (machine r image t a).observe_add, (machine r image t a).observe_add, Nat.zero_add, whole, whole']
      exact ⟨rfl, rfl⟩

/-- Up to the instruction that the machine is at, the settings are as they were. -/
theorem settings_stand {m : Nat} {s : State} (reached : (machine r image t a).state m = some s)
    {u : Nat} (after : t ≤ u) (upto : u ≤ begins r t m) : (r.state u).mem.settings = a.settings := by
  induction m generalizing s with
  | zero =>
      obtain rfl : u = t := Nat.le_antisymm upto after
      exact flash.here.settings
  | succ m ih =>
      have later := simulates wired holds flash mode reached
      rw [(machine r image t a).edge] at reached
      obtain ⟨s₀, here, reached⟩ := Option.bind_eq_some_iff.mp reached
      obtain ⟨i, fetched, done⟩ := Option.bind_eq_some_iff.mp reached
      rcases Nat.le_total u (begins r t m) with early | late
      · exact ih here early
      · have there := simulates wired holds flash mode here
        have decoded := word_of_fetch wired holds there mode fetched
        have running : i ≠ .ebreak := by
          rintro rfl
          cases done
        rw [there.here.boundary.settings_within (Top.running_of decoded running)
          (later.here.settings.trans there.here.settings.symm) late upto]
        exact there.here.settings

/-- Until then the pins show what was written last, if `PIN_MUX` is as after reset. -/
theorem uoOut_last (start : Top.Boundary (r.state 0)) (mux : a.settings.pinMux = 0#2) {m : Nat} {s : State}
    (reached : (machine r image t a).state m = some s) {u : Nat} (after : t ≤ u) (upto : u ≤ begins r t m) :
    (r.state u).uoOut = (r.observe ledWrite t (u - t)).getLastD (r.state t).mem.regs.gpioOut := by
  have settings := settings_stand wired holds flash mode reached after upto
  have held : (r.state (t + (u - t))).mem.regs.gpioOut =
      (r.observe ledWrite t (u - t)).getLastD (r.state t).mem.regs.gpioOut :=
    r.getLastD_held (f := fun s => s.mem.regs.gpioOut) fun v _ _ => Top.gpioOut_held start v
  rw [Nat.add_sub_of_le after] at held
  rw [Top.uoOut_led (by rw [settings, mux]), held]

end Design

end Paged

end AgilA32
