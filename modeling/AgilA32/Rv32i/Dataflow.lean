import AgilA32.Rv32i.Isa

/-!
# What an instruction reads and writes

The effect of an instruction depends on its harts only through the registers it reads.  So if the registers
read are among the `known` ones, two harts that agree on these agree afterwards on any register that is
known or written: the rule `Assigns.exec` of a definite-assignment check.
-/

namespace Rv32i

/-- Two harts that agree on the registers `qs`. -/
def Hart.AgreeOn (qs : List Reg) (h h' : Hart) : Prop := ∀ q ∈ qs, h'.get q = h.get q

namespace Instr

def reads : Instr → List Reg
  | .jalr _ rs1 _ | .load _ _ rs1 _ | .aluImm _ _ rs1 _ => [rs1]
  | .branch _ rs1 rs2 _ | .store _ rs1 rs2 _ | .alu _ _ rs1 rs2 => [rs1, rs2]
  | _ => []

def writes : Instr → Option Reg
  | .lui rd _ | .auipc rd _ | .jal rd _ | .jalr rd _ _ | .load _ rd _ _ | .aluImm _ rd _ _
  | .alu _ rd _ _ => some rd
  | _ => none

/-- A load, whose effect depends on the answer of the memory. -/
def isLoad : Instr → Bool
  | .load .. => true
  | _ => false

/-- Where the instruction at `pc` may lead, if the register of a `JALR` holds `link`. -/
def exits (pc link : Word) : Instr → List Word
  | .jal _ offset => [pc + offset]
  | .jalr _ _ offset => [(link + offset) &&& ~~~1]
  | .branch _ _ _ offset => [pc + offset, pc + 4]
  | .ebreak => [pc]
  | _ => [pc + 4]

/-- With `known` registers, the instruction reads only these, and the registers `after` are these or
written by it. -/
structure Assigns (known after : List Reg) (i : Instr) : Prop where
  reads : ∀ q ∈ i.reads, q = 0 ∨ q ∈ known
  after : ∀ q ∈ after, i.writes = some q ∨ q ∈ known

instance (known after : List Reg) (i : Instr) : Decidable (Assigns known after i) :=
  decidable_of_iff ((∀ q ∈ i.reads, q = 0 ∨ q ∈ known) ∧ ∀ q ∈ after, i.writes = some q ∨ q ∈ known)
    ⟨fun ⟨reads, after⟩ => ⟨reads, after⟩, fun ⟨reads, after⟩ => ⟨reads, after⟩⟩

section Agree

variable {h h' : Hart} {i : Instr} {v v' : Word} (same : Hart.AgreeOn i.reads h h') (pc : h'.pc = h.pc)
include same pc


/-- They lead to the same place. -/
theorem exec_pc_congr : (i.exec h' v').pc = (i.exec h v).pc := by
  cases i with
  | jalr rd rs1 offset =>
      have base : h'.get rs1 = h.get rs1 := same _ (by simp [reads])
      simp only [exec, Hart.goto_pc, base]
  | branch op rs1 rs2 offset =>
      have first : h'.get rs1 = h.get rs1 := same _ (by simp [reads])
      have second : h'.get rs2 = h.get rs2 := same _ (by simp [reads])
      simp only [exec, Hart.goto_pc, first, second, pc]
  | ebreak => exact pc
  | _ => simp only [exec, Hart.goto_pc, pc]

/-- And they put the same value into the register written. -/
theorem exec_get_congr (answer : i.isLoad = true → v' = v) {q : Reg}
    (known : i.writes = some q ∨ h'.get q = h.get q) : (i.exec h' v').get q = (i.exec h v).get q := by
  have set {r : Reg} {x x' : Word} (value : x' = x) (known : some r = some q ∨ h'.get q = h.get q) :
      (h'.set r x').get q = (h.set r x).get q := by
    rw [Hart.get_set, Hart.get_set, value]
    by_cases written : q = r ∧ q ≠ 0
    · rw [if_pos written, if_pos written]
    rw [if_neg written, if_neg written]
    rcases known with new | old
    · obtain rfl := Option.some.inj new
      have zero : r = 0 := by
        by_contra other
        exact written ⟨rfl, other⟩
      rw [zero, Hart.get_zero, Hart.get_zero]
    · exact old
  cases i with
  | lui rd imm => exact set rfl known
  | auipc rd imm => exact set (by rw [pc]) known
  | jal rd offset => exact set (by rw [pc]) known
  | jalr rd rs1 offset => exact set (by rw [pc]) known
  | load op rd rs1 offset => exact set (by rw [answer rfl]) known
  | aluImm op rd rs1 imm =>
      have first : h'.get rs1 = h.get rs1 := same _ (by simp [reads])
      exact set (by rw [first]) known
  | alu op rd rs1 rs2 =>
      have first : h'.get rs1 = h.get rs1 := same _ (by simp [reads])
      have second : h'.get rs2 = h.get rs2 := same _ (by simp [reads])
      exact set (by rw [first, second]) known
  | branch | store | fence | ecall | ebreak => exact known.resolve_left fun none => by cases none

end Agree

theorem Assigns.agreeOn_reads {known after : List Reg} {i : Instr} (checked : Assigns known after i)
    {h h' : Hart} (same : Hart.AgreeOn known h h') : Hart.AgreeOn i.reads h h' := by
  intro q member
  rcases checked.reads q member with rfl | inside
  · rw [Hart.get_zero, Hart.get_zero]
  · exact same q inside

/-- A checked instruction takes two harts that agree on the known registers to two that agree on the
registers known after it. -/
theorem Assigns.exec {known after : List Reg} {i : Instr} (checked : Assigns known after i)
    {h h' : Hart} (same : Hart.AgreeOn known h h') (pc : h'.pc = h.pc) {v v' : Word}
    (answer : i.isLoad = true → v' = v) : Hart.AgreeOn after (i.exec h v) (i.exec h' v') := by
  intro q member
  exact exec_get_congr (checked.agreeOn_reads same) pc answer
    ((checked.after q member).imp_right (same q))

/-- A register that is not written keeps its value. -/
theorem exec_get_other {i : Instr} {q : Reg} (other : i.writes ≠ some q) (h : Hart) (v : Word) :
    (i.exec h v).get q = h.get q := by
  have set {r : Reg} (x : Word) (other : some r ≠ some q) : (h.set r x).get q = h.get q := by
    rw [Hart.get_set, if_neg fun same => other (congrArg some same.1.symm)]
  cases i with
  | lui | auipc | jal | jalr | load | aluImm | alu => exact set _ other
  | branch | store | fence | ecall | ebreak => rfl

/-- Control goes where `exits` says. -/
theorem exec_pc_mem (i : Instr) (h : Hart) (v link : Word)
    (linked : ∀ rd rs1 offset, i = .jalr rd rs1 offset → h.get rs1 = link) :
    (i.exec h v).pc ∈ i.exits h.pc link := by
  cases i with
  | jalr rd rs1 offset =>
      have base : h.get rs1 = link := linked rd rs1 offset rfl
      exact List.mem_singleton.mpr (by rw [Instr.exec, Hart.goto_pc, base])
  | branch op rs1 rs2 offset =>
      rw [Instr.exec, Hart.goto_pc]
      split
      · exact List.mem_cons_self
      · exact List.mem_cons_of_mem _ List.mem_cons_self
  | _ => exact List.mem_singleton.mpr rfl

end Instr

end Rv32i
