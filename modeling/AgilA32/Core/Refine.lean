import AgilA32.Rv32i.Isa
import AgilA32.Core.Cycle

/-!
# The core refines RV32I

On every legal base encoding the combinational logic of the core computes what one step of the
reference ISA does, with the program counter and the effective address reduced to eight bits:
`nextPcOf_eq`, `writeBack_eq`, `dataAccess_eq`.  With the cycle lemmas of `Core/Cycle` this gives
the refinement of the FSM under arbitrary wait states, `refines_rv32i`.
-/

namespace AgilA32

namespace Core

open Rv32i (Instr Hart decode)

/-- The hart a core implements: its `pc` zero-extended. -/
def hart (pc : BitVec 8) (regs : RegFile) : Hart := { pc := pc.setWidth 32, x := regs }

@[simp] theorem hart_pc (pc : BitVec 8) (regs : RegFile) :
    (hart pc regs).pc = pc.setWidth 32 := rfl

@[simp] theorem hart_x (pc : BitVec 8) (regs : RegFile) : (hart pc regs).x = regs := rfl

@[simp] theorem hart_get (pc : BitVec 8) (regs : RegFile) (r : BitVec 5) :
    (hart pc regs).get r = readReg regs r := rfl

theorem hart_set_x (pc : BitVec 8) (regs : RegFile) (r : BitVec 5) (v : BitVec 32) :
    ((hart pc regs).set r v).x = writeReg regs r v := Hart.set_x ..

@[simp] theorem readReg_writeReg (x : RegFile) (r s : BitVec 5) (v : BitVec 32) :
    readReg (writeReg x r v) s = if s = r ∧ s ≠ 0#5 then v else readReg x s := by
  have get_set := Hart.get_set (hart 0 x) r v s
  rw [Hart.get, hart_set_x] at get_set
  exact get_set

/-- The `mem_size` code of an access width. -/
def sizeCode : Rv32i.Width → BitVec 2
  | .byte => 0
  | .half => 1
  | .word => 2

/-- A reference access on the 8-bit bus. -/
def toAccess : Rv32i.MemReq → Access
  | .load width addr => .read (addr.setWidth 8) (sizeCode width)
  | .store width addr data => .write (addr.setWidth 8) (sizeCode width) data

theorem low_bits {m n : Nat} (x : BitVec m) : x.extractLsb' 0 n = x.setWidth n := by
  ext k hk
  simp

/-! ## Immediates -/

section Immediates

variable (w : BitVec 32)

theorem immB_eq : immB w = (Rv32i.bImm w).setWidth 8 := by
  unfold immB Rv32i.bImm
  refine BitVec.eq_of_getLsbD_eq fun k hk => ?_
  simp only [BitVec.getLsbD_setWidth, BitVec.getLsbD_signExtend, BitVec.getLsbD_append,
    BitVec.getLsbD_extractLsb']
  have : k < 8 := hk
  interval_cases k <;> simp

theorem immJ_eq : immJ w = (Rv32i.jImm w).setWidth 8 := by
  unfold immJ Rv32i.jImm
  refine BitVec.eq_of_getLsbD_eq fun k hk => ?_
  simp only [BitVec.getLsbD_setWidth, BitVec.getLsbD_signExtend, BitVec.getLsbD_append,
    BitVec.getLsbD_extractLsb']
  have : k < 8 := hk
  interval_cases k <;> simp

/-- The shift amount the ALU takes from the immediate is the `rs2` field. -/
theorem immI_shamt : (immI w).extractLsb' 0 5 = Rv32i.rs2Field w := by
  unfold immI Rv32i.rs2Field
  refine BitVec.eq_of_getLsbD_eq fun k hk => ?_
  simp only [BitVec.getLsbD_signExtend, BitVec.getLsbD_extractLsb']
  have : k < 5 := hk
  interval_cases k <;> simp

theorem funct7B5_eq : funct7B5 w = (Rv32i.funct7Field w).getLsbD 5 := by
  simp [funct7B5, Rv32i.funct7Field]

theorem shamt_toNat : (Rv32i.shamt w).toNat % 32 = (Rv32i.rs2Field w).toNat := by
  have := (Rv32i.rs2Field w).isLt
  simp only [Rv32i.shamt, BitVec.toNat_setWidth]
  omega

end Immediates

/-! ## ALU, branches and memory accesses -/

section Operations

variable {w : BitVec 32}

theorem alu_imm {op : Rv32i.AluOp} {b : BitVec 32} (a : BitVec 32)
    (decoded : Rv32i.decodeOpImm w = some (op, b)) :
    alu { a := a, b := immI w, op := aluOpImm w } = op.eval a b := by
  have f3 : Rv32i.funct3Field w = funct3 w := rfl
  unfold Rv32i.decodeOpImm at decoded
  rw [f3] at decoded
  split at decoded
  case h_7 shape =>
    split at decoded <;> cases decoded
    simp [alu, aluOpImm, shape, Rv32i.AluOp.eval, immI_shamt, shamt_toNat]
  case h_8 shape =>
    split at decoded
    · rename_i f7
      cases decoded
      simp [alu, aluOpImm, shape, funct7B5_eq, f7, Rv32i.AluOp.eval, immI_shamt, shamt_toNat]
    · split at decoded <;> cases decoded
      rename_i f7
      simp [alu, aluOpImm, shape, funct7B5_eq, f7, Rv32i.AluOp.eval, immI_shamt, shamt_toNat]
  case h_9 => cases decoded
  all_goals
    rename_i shape
    cases decoded
    simp only [alu, aluOpImm, shape]
    rfl

theorem alu_reg {op : Rv32i.AluOp} (a b : BitVec 32) (decoded : Rv32i.decodeOp w = some op) :
    alu { a := a, b := b, op := aluOpReg w } = op.eval a b := by
  have f3 : Rv32i.funct3Field w = funct3 w := rfl
  unfold Rv32i.decodeOp at decoded
  rw [f3] at decoded
  split at decoded
  case h_3 => cases decoded
  all_goals
    rename_i f7
    split at decoded <;> cases decoded
    all_goals
      rename_i shape
      simp [alu, aluOpReg, shape, funct7B5_eq, f7, Rv32i.AluOp.eval]

theorem branchCond_eq {op : Rv32i.BranchOp} (regs : RegFile)
    (decoded : Rv32i.decodeBranch w = some op) :
    branchCond w regs = op.taken (rs1Val w regs) (rs2Val w regs) := by
  have f3 : Rv32i.funct3Field w = funct3 w := rfl
  unfold Rv32i.decodeBranch at decoded
  rw [f3] at decoded
  split at decoded <;> cases decoded
  all_goals
    rename_i shape
    simp [branchCond, shape, Rv32i.BranchOp.taken, BitVec.sle_eq_not_slt, BitVec.ule_eq_not_ult]

theorem loadValue_eq {op : Rv32i.LoadOp} (v : BitVec 32)
    (decoded : Rv32i.decodeLoad w = some op) :
    loadValue w v = op.extend v ∧ accessSize w = sizeCode op.width := by
  have f3 : Rv32i.funct3Field w = funct3 w := rfl
  unfold Rv32i.decodeLoad at decoded
  rw [f3] at decoded
  split at decoded <;> cases decoded
  all_goals
    rename_i shape
    simp [loadValue, accessSize, shape, Rv32i.LoadOp.extend, Rv32i.LoadOp.width, sizeCode,
      low_bits]

theorem storeSize_eq {op : Rv32i.StoreOp} (decoded : Rv32i.decodeStore w = some op) :
    accessSize w = sizeCode op.width := by
  have f3 : Rv32i.funct3Field w = funct3 w := rfl
  unfold Rv32i.decodeStore at decoded
  rw [f3] at decoded
  split at decoded <;> cases decoded
  all_goals
    rename_i shape
    simp [accessSize, shape, Rv32i.StoreOp.width, sizeCode]

end Operations

/-! ## Inversion of the decoder -/

/-- What a legal word looks like, one constructor for each format. -/
inductive Encodes (w : BitVec 32) : Instr → Prop
  | lui : opcode w = .lui → Encodes w (.lui (rd w) (immU w))
  | auipc : opcode w = .auipc → Encodes w (.auipc (rd w) (immU w))
  | jal : opcode w = .jal → Encodes w (.jal (rd w) (Rv32i.jImm w))
  | jalr : opcode w = .jalr → Encodes w (.jalr (rd w) (rs1 w) (immI w))
  | branch {op} : opcode w = .branch → Rv32i.decodeBranch w = some op →
      Encodes w (.branch op (rs1 w) (rs2 w) (Rv32i.bImm w))
  | load {op} : opcode w = .load → Rv32i.decodeLoad w = some op →
      Encodes w (.load op (rd w) (rs1 w) (immI w))
  | store {op} : opcode w = .store → Rv32i.decodeStore w = some op →
      Encodes w (.store op (rs1 w) (rs2 w) (immS w))
  | aluImm {op b} : opcode w = .imm → Rv32i.decodeOpImm w = some (op, b) →
      Encodes w (.aluImm op (rd w) (rs1 w) b)
  | alu {op} : opcode w = .reg → Rv32i.decodeOp w = some op →
      Encodes w (.alu op (rd w) (rs1 w) (rs2 w))
  | fence : opcode w = .other → Encodes w .fence
  | ecall : w = 0x00000073#32 → Encodes w .ecall
  | ebreak : w = 0x00100073#32 → Encodes w .ebreak

theorem encodes_of_decode {w : BitVec 32} {i : Instr} (decoded : decode w = some i) :
    Encodes w i := by
  have field : Rv32i.opcodeField w = w.extractLsb' 0 7 := rfl
  unfold decode at decoded
  rw [field] at decoded
  split at decoded
  case h_1 shape => cases decoded; exact .lui (by simp [opcode, shape])
  case h_2 shape => cases decoded; exact .auipc (by simp [opcode, shape])
  case h_3 shape => cases decoded; exact .jal (by simp [opcode, shape])
  case h_4 shape =>
    split at decoded <;> cases decoded
    exact .jalr (by simp [opcode, shape])
  case h_5 shape =>
    obtain ⟨op, hop, rfl⟩ := Option.map_eq_some_iff.mp decoded
    exact .branch (by simp [opcode, shape]) hop
  case h_6 shape =>
    obtain ⟨op, hop, rfl⟩ := Option.map_eq_some_iff.mp decoded
    exact .load (by simp [opcode, shape]) hop
  case h_7 shape =>
    obtain ⟨op, hop, rfl⟩ := Option.map_eq_some_iff.mp decoded
    exact .store (by simp [opcode, shape]) hop
  case h_8 shape =>
    obtain ⟨⟨op, b⟩, hop, rfl⟩ := Option.map_eq_some_iff.mp decoded
    exact .aluImm (by simp [opcode, shape]) hop
  case h_9 shape =>
    obtain ⟨op, hop, rfl⟩ := Option.map_eq_some_iff.mp decoded
    exact .alu (by simp [opcode, shape]) hop
  case h_10 shape =>
    split at decoded <;> cases decoded
    exact .fence (by simp [opcode, shape])
  case h_11 =>
    split at decoded
    · cases decoded; exact .ecall ‹_›
    · split at decoded <;> cases decoded
      exact .ebreak ‹_›
  case h_12 => cases decoded

/-! ## One instruction -/

section Instruction

variable {w : BitVec 32} {i : Instr} (pc : BitVec 8) (regs : RegFile) (v : BitVec 32)

theorem isEbreak_iff (decoded : decode w = some i) : isEbreak w = true ↔ i = .ebreak := by
  cases encodes_of_decode decoded with
  | ecall word => subst word; decide
  | ebreak word => subst word; decide
  | _ => simp_all [isEbreak]

/-- The next program counter is the reference's, modulo 256. -/
theorem nextPcOf_eq (decoded : decode w = some i) (live : i ≠ .ebreak) :
    nextPcOf w pc regs = (i.exec (hart pc regs) v).pc.setWidth 8 := by
  cases encodes_of_decode decoded with
  | jal op => simp [nextPcOf, op, Instr.exec, immJ_eq, BitVec.setWidth_add]
  | jalr op =>
      simp [nextPcOf, op, Instr.exec, rs1Val, low_bits, BitVec.setWidth_add,
        BitVec.setWidth_and]
  | @branch kind op cond =>
      simp only [nextPcOf, op, Instr.exec, branchCond_eq regs cond, immB_eq, Hart.goto_pc, hart_pc,
        hart_get, rs1Val, rs2Val]
      by_cases taken : kind.taken (readReg regs (rs1 w)) (readReg regs (rs2 w)) = true <;>
        simp [taken, BitVec.setWidth_add]
  | ecall word => subst word; simp [nextPcOf, Instr.exec, BitVec.setWidth_add, opcode]
  | ebreak => exact absurd rfl live
  | _ => simp_all [nextPcOf, Instr.exec, BitVec.setWidth_add]

/-- The registers are the reference's. -/
theorem writeBack_eq (decoded : decode w = some i) (live : i ≠ .ebreak) :
    writeBack w pc (aluY w regs) v regs = (i.exec (hart pc regs) v).x := by
  cases encodes_of_decode decoded with
  | load op kind =>
      simp only [writeBack, op, Instr.exec, Hart.goto_x, hart_set_x, (loadValue_eq v kind).1]
  | aluImm op kind =>
      simp only [writeBack, op, Instr.exec, Hart.goto_x, hart_set_x, hart_get, aluY, aluDecode,
        alu_imm _ kind, rs1Val]
  | alu op kind =>
      simp only [writeBack, op, Instr.exec, Hart.goto_x, hart_set_x, hart_get, aluY, aluDecode,
        alu_reg _ _ kind, rs1Val, rs2Val]
  | ecall word => subst word; rfl
  | ebreak => exact absurd rfl live
  | _ => simp_all [writeBack, Instr.exec, hart_set_x]

/-- The data access is the reference's, its address modulo 256. -/
theorem dataAccess_eq (decoded : decode w = some i) :
    dataAccess w regs = (i.memReq (hart pc regs)).map toAccess := by
  cases encodes_of_decode decoded with
  | load op kind =>
      simp [dataAccess, op, Instr.memReq, toAccess, aluY, aluDecode, alu, rs1Val,
        (loadValue_eq 0 kind).2, low_bits]
  | store op kind =>
      simp [dataAccess, op, Instr.memReq, toAccess, aluY, aluDecode, alu, rs1Val, rs2Val,
        storeSize_eq kind, low_bits]
  | ecall word => subst word; rfl
  | ebreak word => subst word; rfl
  | _ => simp_all [dataAccess, Instr.memReq]

end Instruction

/-! ## The FSM under arbitrary wait states -/

/-- What the bus shows: the access `a`, or nothing, and no write strobe outside a valid access. -/
def Shows (c : Core) (a : Option Access) : Prop :=
  c.busAccess = a ∧ (c.memWe = true → c.memValid = true)

theorem shows_none {c : Core} (valid : c.memValid = false) (we : c.memWe = false) :
    c.Shows none :=
  ⟨by simp [busAccess, valid], fun strobe => by rw [we] at strobe; cases strobe⟩

section Run

variable {r : Clocked.Run Core.step} {t d₁ d₂ : Nat} {c : Core} {w v : BitVec 32} {i : Instr}

/-- The bus of a retiring instruction: the fetch, then the data access if there is one, each held
for its whole wait, and nothing else. -/
theorem retiring_shows (start : r.state t = c) (here : c.state = .fetch)
    (fetch : Stall r (t + 1) d₁) (word : (r.input (t + 2 + d₁)).rdata = w)
    (live : isEbreak w = false) (mem : Stall r (t + 5 + d₁) d₂) {u : Nat}
    (after : t < u) (upto : u ≤ t + 7 + d₁ + d₂) :
    (r.state u).Shows
      (if u ≤ t + 1 + d₁ then some (.read c.pc 2)
        else if t + 5 + d₁ ≤ u ∧ u ≤ t + 5 + d₁ + d₂ then dataAccess w c.regs
        else none) := by
  rcases Nat.lt_or_ge u (t + 7 + d₁ + d₂) with before | last
  · rcases state_cases start here fetch word live mem after before with
      ⟨within, h⟩ | ⟨rfl, h⟩ | ⟨rfl, h⟩ | ⟨rfl, h⟩ | ⟨first, final, h⟩ | ⟨rfl, h⟩
    · rw [h, if_pos within]
      exact ⟨rfl, fun strobe => by cases strobe⟩
    · rw [h, if_neg (by omega), if_neg (by omega)]; exact shows_none rfl rfl
    · rw [h, if_neg (by omega), if_neg (by omega)]; exact shows_none rfl rfl
    · rw [h, if_neg (by omega), if_neg (by omega)]; exact shows_none rfl rfl
    · rw [h, if_neg (by omega), if_pos ⟨first, final⟩]
      exact ⟨issued_busAccess c w, issued_we_valid c w⟩
    · rw [h, if_neg (by omega), if_neg (by omega)]; exact shows_none rfl rfl
  · obtain rfl : u = t + 7 + d₁ + d₂ := by omega
    rw [retired_at start here fetch word live mem, if_neg (by omega), if_neg (by omega)]
    exact shows_none rfl rfl

/-- The bus of an `EBREAK`: its fetch, and nothing ever after. -/
theorem parking_shows (start : r.state t = c) (here : c.state = .fetch)
    (fetch : Stall r (t + 1) d₁) (word : (r.input (t + 2 + d₁)).rdata = w)
    (stop : isEbreak w = true) {u : Nat} (after : t < u) :
    (r.state u).Shows (if u ≤ t + 1 + d₁ then some (.read c.pc 2) else none) := by
  rcases stop_cases start here fetch word stop after with
    ⟨waiting, h⟩ | ⟨later, h⟩ | ⟨later, h⟩ | ⟨later, h⟩
  · rw [h, if_pos waiting]
    exact ⟨rfl, fun strobe => by cases strobe⟩
  all_goals
    rw [h, if_neg (by omega)]
    exact shows_none rfl rfl

/-- From `ST_FETCH`, with the fetch answered `w` after `d₁` stalls: a legal word other than
`EBREAK` retires, after `d₂` stalls of its data access, exactly `7 + d₁ + d₂` cycles later with the
reference's program counter and registers, and in between the bus shows the word read at `pc` and
the reference's data access, each as one held request, and nothing else.  `EBREAK` halts the core
after its fetch, for good, with `pc` and the registers as they were. -/
theorem refines_rv32i (r : Clocked.Run Core.step) {t d₁ : Nat} {w : BitVec 32} {i : Instr}
    (here : (r.state t).state = .fetch) (fetch : Stall r (t + 1) d₁)
    (word : (r.input (t + 2 + d₁)).rdata = w) (legal : decode w = some i) :
    (i ≠ .ebreak → ∀ d₂ v, Stall r (t + 5 + d₁) d₂ → (r.input (t + 6 + d₁ + d₂)).rdata = v →
      (r.state (t + 7 + d₁ + d₂)).state = .fetch ∧
      (∀ u, t < u → u < t + 7 + d₁ + d₂ → (r.state u).state ≠ .fetch) ∧
      (r.state (t + 7 + d₁ + d₂)).pc =
        (i.exec (hart (r.state t).pc (r.state t).regs) v).pc.setWidth 8 ∧
      (∀ x, readReg (r.state (t + 7 + d₁ + d₂)).regs x =
        (i.exec (hart (r.state t).pc (r.state t).regs) v).get x) ∧
      ∀ u, t < u → u ≤ t + 7 + d₁ + d₂ →
        (r.state u).Shows
          (if u ≤ t + 1 + d₁ then some (.read (r.state t).pc 2)
            else if t + 5 + d₁ ≤ u ∧ u ≤ t + 5 + d₁ + d₂ then
              (i.memReq (hart (r.state t).pc (r.state t).regs)).map toAccess
            else none)) ∧
    (i = .ebreak →
      (∀ u, t + 4 + d₁ ≤ u → (r.state u).halted = true ∧ (r.state u).pc = (r.state t).pc ∧
        (r.state u).regs = (r.state t).regs) ∧
      ∀ u, t < u →
        (r.state u).Shows (if u ≤ t + 1 + d₁ then some (.read (r.state t).pc 2) else none)) := by
  generalize start : r.state t = c at here ⊢
  constructor
  · intro live d₂ v mem response
    have running : isEbreak w = false := by
      rw [Bool.eq_false_iff, ne_eq, isEbreak_iff legal]; exact live
    have last := retired_at start here fetch word running mem
    rw [response] at last
    refine ⟨by rw [last]; rfl, fun u after before => ?_, ?_, fun x => ?_, fun u after upto => ?_⟩
    · rcases state_cases start here fetch word running mem after before with
        ⟨-, h⟩ | ⟨-, h⟩ | ⟨-, h⟩ | ⟨-, h⟩ | ⟨-, -, h⟩ | ⟨-, h⟩ <;> rw [h] <;> simp
    · rw [last, retired_pc, nextPcOf_eq c.pc c.regs v legal live]
    · rw [last, retired_regs, writeBack_eq c.pc c.regs v legal live]
      rfl
    · rw [← dataAccess_eq c.pc c.regs legal]
      exact retiring_shows start here fetch word running mem after upto
  · intro stop
    have halts : isEbreak w = true := (isEbreak_iff legal).mpr stop
    refine ⟨fun u late => ?_, fun u after => parking_shows start here fetch word halts after⟩
    obtain ⟨k, rfl⟩ := Nat.exists_eq_add_of_le late
    rw [parked_at start here fetch word halts k]
    exact ⟨rfl, rfl, rfl⟩

/-- `addi x1, x0, 5` with one wait state in each of the two wait states. -/
def addiRun : Clocked.Run Core.step :=
  .ofInputs Core.step zeroed fun u => { ready := u != 1 && u != 6, rdata := 0x00500093 }

theorem refines_rv32i_addi :
    (addiRun.state 9).pc = 4#8 ∧ readReg (addiRun.state 9).regs 1 = 5#32 := by
  have fetch : Stall addiRun (0 + 1) 1 := ⟨by decide, rfl⟩
  have mem : Stall addiRun (0 + 5 + 1) 1 := ⟨by decide, rfl⟩
  have legal : decode 0x00500093#32 = some (.aluImm .add 1 0 5) := by decide
  obtain ⟨-, -, pc, regs, -⟩ :=
    (refines_rv32i addiRun (t := 0) rfl fetch rfl legal).1 (by decide) 1 _ mem rfl
  exact ⟨pc, regs 1⟩

end Run

end Core

end AgilA32
