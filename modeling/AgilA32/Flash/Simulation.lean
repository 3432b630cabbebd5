import AgilA32.Flash.Machine
import AgilA32.Flash.Paging

/-!
# The design runs the paged machine

Instruction by instruction, a program in flash does on the design what it does on the paged machine
(`FlashAt.executes`), so a run of the machine that never gets stuck describes the design from the first
instruction on (`simulates`): its pages, its registers, and what it shows on `GPIO_OUT`.
-/

namespace AgilA32

namespace Paged

open AgilA32.Core (hart readReg)
open Flash (FlashAt Holds)
open Mem (engineRun)
open Rv32i (Instr decode)
open AgilA32.Top (Arch At memRun word begins)

/-- The machine's view of the design's state. -/
def ofArch (a : Arch) : State := ⟨a.mem.flashPage, a.pc, a.x⟩

/-- The design's state, with this state of the machine and this value of `GPIO_OUT`. -/
def toArch (a : Arch) (s : State) (led : BitVec 8) : Arch :=
  { a with pc := s.pc, x := s.x, mem := { a.mem with flashPage := s.page, gpioOut := led } }

section Step

variable {r : Clocked.Run Top.step} {c : Clocked.Run SpiRam.step} {mem : BitVec 14 → BitVec 8}
  {image : List (BitVec 8)} {t : Nat} {a : Arch}
  (wired : Attached (engineRun (memRun r)) c 1#2) (holds : Holds mem image)
include wired holds

/-- An instruction that the machine can fetch is what the design fetches. -/
theorem word_of_fetch (flash : FlashAt r c mem t a) (mode : a.mem.flashMode = true) {i : Instr}
    (fetched : fetch image (ofArch a) = some i) : decode (word r t) = some i := by
  obtain ⟨⟨above, below, room⟩, decoded⟩ := Option.ite_none_right_eq_some.mp fetched
  have fetch := flash.fetch wired mode above (by change a.pc.toNat ≤ 0xDF at below; omega)
  rw [fetch.word, holds.wordAt (by change 44 * a.mem.flashPage.toNat + (a.pc.toNat - 0xB4) + 4 ≤ _ at room; omega)]
  exact decoded

/-- One instruction, on the machine and on the design. -/
theorem executes (flash : FlashAt r c mem t a) (mode : a.mem.flashMode = true) {i : Instr} {s : State}
    (fetched : fetch image (ofArch a) = some i)
    (done : exec i (ofArch a) (r.input (Top.next r t - 1)).uiIn = some s) :
    FlashAt r c mem (Top.next r t) (toArch a s
      (match action i (ofArch a) with
        | .write led => led
        | _ => a.mem.gpioOut)) := by
  have decoded := word_of_fetch wired holds flash mode fetched
  have next : ((hart a.pc a.x).pc + 4).setWidth 8 = a.pc + 4 := by simp [BitVec.setWidth_add]
  cases i with
  | load op rd rs1 off =>
      by_cases addr : (readReg a.x rs1 + off).setWidth 8 = 0xF4#8
      · have poll : action (.load op rd rs1 off) (ofArch a) = .poll := if_pos addr
        rw [exec, poll] at done
        rw [poll]
        cases done
        have after := flash.next wired (Top.running_of decoded (by simp))
          (flash.here.load_gpio decoded addr)
        rw [← next, ← Core.hart_set_x a.pc] at after
        exact after
      · have stuck : action (.load op rd rs1 off) (ofArch a) = .stuck := if_neg addr
        rw [exec, stuck] at done
        cases done
  | store op rs1 rs2 off =>
      by_cases led : (readReg a.x rs1 + off).setWidth 8 = 0xF0#8
      · have write : action (.store op rs1 rs2 off) (ofArch a) =
            .write ((readReg a.x rs2).setWidth 8) := if_pos led
        rw [exec, write] at done
        rw [write]
        cases done
        have after := flash.set_led wired decoded led
        rw [← next] at after
        exact after
      by_cases turned : (readReg a.x rs1 + off).setWidth 8 = 0xFC#8
      · have turn : action (.store op rs1 rs2 off) (ofArch a) =
            .turn ((readReg a.x rs2).setWidth 8) := (if_neg led).trans (if_pos turned)
        rw [exec, turn] at done
        rw [turn]
        cases done
        have after := flash.set_page wired decoded turned
        rw [← next] at after
        exact after
      · have stuck : action (.store op rs1 rs2 off) (ofArch a) = .stuck :=
          (if_neg led).trans (if_neg turned)
        rw [exec, stuck] at done
        cases done
  | ebreak => cases done
  | _ =>
      cases done
      exact flash.plain wired decoded (by simp) rfl _ (fun _ => rfl) (fun _ => rfl)

/-- The machine, polling `GPIO_IN` when the design does, from the state of an instruction in cycle
`t`. -/
def machine (r : Clocked.Run Top.step) (image : List (BitVec 8)) (t : Nat) (a : Arch) :
    Clocked.Run (step image) :=
  .ofInputs (step image) (some (ofArch a)) fun m => (r.input (begins r t (m + 1) - 1)).uiIn

omit wired holds in
theorem written_succ {R : Clocked.Run (step image)} {m : Nat} {s : State} {i : Instr}
    (here : R.state m = some s) (fetched : fetch image s = some i) (led : BitVec 8) :
    (R.observe (written image) 0 (m + 1)).getLastD led =
      match action i s with
      | .write led => led
      | _ => (R.observe (written image) 0 m).getLastD led := by
  rw [R.observe_add, R.observe_one, Nat.zero_add, here, written, doing, Option.bind_some, fetched,
    Option.map_some]
  cases action i s <;> simp

/-- As long as the machine is not stuck, the design's instructions are the machine's, and `GPIO_OUT`
shows what it wrote last. -/
theorem simulates (flash : FlashAt r c mem t a) (mode : a.mem.flashMode = true) {m : Nat} {s : State}
    (reached : (machine r image t a).state m = some s) :
    FlashAt r c mem (begins r t m) (toArch a s
      (((machine r image t a).observe (written image) 0 m).getLastD a.mem.gpioOut)) := by
  induction m generalizing s with
  | zero =>
      cases reached
      exact flash
  | succ m ih =>
      rw [(machine r image t a).edge] at reached
      obtain ⟨s₀, here, reached⟩ := Option.bind_eq_some_iff.mp reached
      obtain ⟨i, fetched, done⟩ := Option.bind_eq_some_iff.mp reached
      have after := executes wired holds (ih here) mode fetched done
      rw [written_succ here fetched]
      exact after

end Step

end Paged

end AgilA32
