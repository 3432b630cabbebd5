import AgilA32.Core.Refine

/-!
# Straight-line code on the core

`Fed` says that the core is given words one after the other, each after any number of wait states.  When
these are register computations, it ends up with the registers that they compute (`Fed.regs`).
-/

namespace AgilA32

namespace Core

open Rv32i (Instr decode)

/-- The core starts an instruction in cycle `t`, is given the words, and starts the next one in `t'`. -/
inductive Fed (r : Clocked.Run Core.step) : Nat → List (BitVec 32) → Nat → Prop
  | nil {t : Nat} (here : (r.state t).state = .fetch) : Fed r t [] t
  | cons {t t' d e : Nat} {w : BitVec 32} {ws : List (BitVec 32)} (here : (r.state t).state = .fetch)
      (fetch : Stall r (t + 1) d) (word : (r.input (t + 2 + d)).rdata = w) (mem : Stall r (t + 5 + d) e)
      (rest : Fed r (t + 7 + d + e) ws t') : Fed r t (w :: ws) t'

/-- What a register computation does to the registers; no other instruction is one. -/
def compute (x : RegFile) : Instr → Option RegFile
  | .aluImm op rd rs1 imm => some (writeReg x rd (op.eval (readReg x rs1) imm))
  | .alu op rd rs1 rs2 => some (writeReg x rd (op.eval (readReg x rs1) (readReg x rs2)))
  | _ => none

theorem exec_of_compute {x y : RegFile} {i : Instr} (computed : compute x i = some y) (pc : BitVec 8)
    (v : BitVec 32) : i ≠ .ebreak ∧ (i.exec (hart pc x) v).x = y := by
  cases i with
  | aluImm | alu =>
      cases computed
      exact ⟨nofun, hart_set_x _ _ _ _⟩
  | _ => cases computed

/-- A core that is fed the words has the registers that their instructions compute. -/
theorem Fed.regs {r : Clocked.Run Core.step} {t t' : Nat} {ws : List (BitVec 32)} {is : List Instr}
    {y : RegFile} (fed : Fed r t ws t') (decodes : List.Forall₂ (fun w i => decode w = some i) ws is)
    (computed : is.foldlM compute (r.state t).regs = some y) : (r.state t').regs = y := by
  induction fed generalizing is with
  | nil here =>
      cases decodes
      exact Option.some.inj computed
  | cons here fetch word mem rest ih =>
      cases decodes with
      | cons legal decodes =>
          obtain ⟨x, first, others⟩ := Option.bind_eq_some_iff.mp computed
          refine ih decodes ?_
          obtain ⟨live, result⟩ := exec_of_compute first (r.state _).pc (r.input _).rdata
          have running := Bool.eq_false_iff.mpr (mt (isEbreak_iff legal).mp live)
          rw [retired_at rfl here fetch word running mem, retired_regs, writeBack_eq _ _ _ legal live, result]
          exact others

end Core

end AgilA32
