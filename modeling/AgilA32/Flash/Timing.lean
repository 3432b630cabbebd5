import AgilA32.Flash.Arrive

/-!
# How fast a program in flash runs

An instruction of the paged machine is one word read over SPI and seven cycles, and none of its own
accesses leaves the chip.  So it takes a `period` that only the clock divider decides, and the
design begins them at a fixed rate (`begins_eq`): a poll samples the pins at known cycles
(`machine_input`).
-/

namespace AgilA32

namespace Paged

open Clocked (Run)
open Flash (FlashAt Holds)
open Mem (engineRun)
open Rv32i (Instr)
open AgilA32.Top (Arch At begins memRun)

/-- The cycles that an instruction from flash takes, with the clock divider `sel`. -/
def period (sel : BitVec 2) : Nat := 9 + 128 * (Engine.halfPeriodFor sel).toNat

theorem period_pos (sel : BitVec 2) : 0 < period sel := Nat.add_pos_left (by decide) _

section Design

variable {r : Run Top.step} {c : Run SpiRam.step} {mem : BitVec 14 → BitVec 8}
  {image : List (BitVec 8)} {t : Nat} {a : Arch}

/-- The accesses of the machine stay on the chip. -/
theorem dataDelay_eq (here : At r t a) {i : Instr} (decoded : Rv32i.decode (Top.word r t) = some i)
    {v : BitVec 8} {s : State} (done : exec i (ofArch a) v = some s) : Top.dataDelay r t = 0 := by
  have running : action i (ofArch a) ≠ .stuck := by
    intro stuck
    rw [exec, stuck] at done
    cases done
  unfold action at running
  refine MemRegs.delay_onchip ?_
  cases asked : i.memReq (Core.hart a.pc a.x) with
  | none =>
      obtain ⟨valid, -⟩ := Top.dataBus_none here decoded asked
      rw [valid, Bool.false_and]
  | some request =>
      rw [show Core.hart (ofArch a).pc (ofArch a).x = Core.hart a.pc a.x from rfl, asked] at running
      cases request with
      | load width addr =>
          obtain ⟨-, we, bus, -⟩ := Top.dataBus_load here decoded asked
          have poll : addr.setWidth 8 = 0xF4#8 := by
            by_contra other
            exact running (if_neg other)
          rw [MemRegs.inExt_register (by rw [bus, poll]; decide) (.inl we), Bool.and_false]
      | store width addr data =>
          rw [Top.dataBus_store here decoded asked, MemRegs.inExt_register, Bool.and_false]
          all_goals
            by_cases led : addr.setWidth 8 = 0xF0#8
            · simp [led]
            by_cases turn : addr.setWidth 8 = 0xFC#8
            · simp [turn]
            · exact absurd ((if_neg led).trans (if_neg turn)) running

variable (wired : Attached (engineRun (memRun r)) c 1#2) (holds : Holds mem image)
include wired holds

/-- An instruction in flash takes the `period` of the clock divider. -/
theorem next_eq (flash : FlashAt r c mem t a) (mode : a.mem.flashMode = true) {i : Instr} {s : State}
    (fetched : fetch image (ofArch a) = some i)
    (done : exec i (ofArch a) (r.input (Top.next r t - 1)).uiIn = some s) :
    Top.next r t = t + period a.mem.qspiDivSel := by
  have data := dataDelay_eq flash.here (word_of_fetch wired holds flash mode fetched) done
  obtain ⟨⟨above, below, -⟩, -⟩ := Option.ite_none_right_eq_some.mp fetched
  change 0xB4 ≤ a.pc.toNat at above
  change a.pc.toNat ≤ 0xDF at below
  obtain ⟨time, ⟨dev, -, -, size, -⟩, -⟩ :=
    flash.here.flash_word wired flash.idle mode above (by omega)
  have bits : (a.mem.request (Top.fetchBus r t)).bits = 64 := by
    unfold Request.bits Engine.nbitsFor
    rw [dev, size]
    rfl
  have half : (a.mem.request (Top.fetchBus r t)).half =
      (Engine.halfPeriodFor a.mem.qspiDivSel).toNat := rfl
  rw [Request.delay, bits, half] at time
  unfold Top.next Top.dataCycle period
  omega

/-- As long as the machine is not stuck, its instructions begin `period` cycles apart. -/
theorem begins_eq (flash : FlashAt r c mem t a) (mode : a.mem.flashMode = true) {m : Nat} {s : State}
    (reached : (machine r image t a).state m = some s) :
    begins r t m = t + period a.mem.qspiDivSel * m := by
  induction m generalizing s with
  | zero => rfl
  | succ m ih =>
      rw [(machine r image t a).edge] at reached
      obtain ⟨s₀, here, reached⟩ := Option.bind_eq_some_iff.mp reached
      obtain ⟨i, fetched, done⟩ := Option.bind_eq_some_iff.mp reached
      have there := simulates wired holds flash mode here
      change Top.next r (begins r t m) = _
      rw [next_eq wired holds there mode fetched done, ih here, Nat.mul_succ, ← Nat.add_assoc]
      rfl

/-- What the machine gets if it polls in step `m`. -/
theorem machine_input (flash : FlashAt r c mem t a) (mode : a.mem.flashMode = true)
    (alive : ∀ m, ((machine r image t a).state m).isSome = true) (m : Nat) :
    (machine r image t a).input m =
      (r.input (t + period a.mem.qspiDivSel - 1 + period a.mem.qspiDivSel * m)).uiIn := by
  obtain ⟨s, reached⟩ := Option.isSome_iff_exists.mp (alive (m + 1))
  change (r.input (begins r t (m + 1) - 1)).uiIn = _
  rw [begins_eq wired holds flash mode reached, Nat.mul_succ]
  have some_ := period_pos a.mem.qspiDivSel
  congr 3
  omega

end Design

end Paged

end AgilA32
