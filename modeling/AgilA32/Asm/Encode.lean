import AgilA32.Asm.Asm
import AgilA32.Rv32i.Isa
import AgilA32.Verilog.Fields
import AgilA32.Verilog.PartSelect

/-!
# What the encoders encode

The fields that the decoder takes out of a word are the ones the encoder put in, for operands that fit
them: one lemma for each word format.  `Method.decode_word` and `Method.decode_fixup` put them together:
every instruction method emits the word of the instruction it is named after, `Method.instr`.
-/

namespace AgilA32

open Rv32i
open Verilog (or_eq_add digit field subfield append_ofNat ofNat_emod signExtend_ofInt)

/-! ## Formats -/

section Formats

variable {f7 rs2 rs1 f3 rd op : Nat}

/-- Numbers that fit the fields of an R-type word. -/
structure Fits (f7 rs2 rs1 f3 rd op : Nat) : Prop where
  f7 : f7 < 128
  rs2 : rs2 < 32
  rs1 : rs1 < 32
  f3 : f3 < 8
  rd : rd < 32
  op : op < 128

theorem rWord_eq (fits : Fits f7 rs2 rs1 f3 rd op) : rWord f7 rs2 rs1 f3 rd op =
    f7 * 2 ^ 25 + rs2 * 2 ^ 20 + rs1 * 2 ^ 15 + f3 * 2 ^ 12 + rd * 2 ^ 7 + op := by
  obtain ⟨-, h2, h3, h4, h5, h6⟩ := fits
  simp only [rWord, Nat.shiftLeft_eq]
  rw [or_eq_add (y := rs2 * 2 ^ 20) (n := 25) (by omega) (by omega),
    or_eq_add (y := rs1 * 2 ^ 15) (n := 20) (by omega) (by omega),
    or_eq_add (y := f3 * 2 ^ 12) (n := 15) (by omega) (by omega),
    or_eq_add (y := rd * 2 ^ 7) (n := 12) (by omega) (by omega),
    or_eq_add (n := 7) (by omega) (by omega)]

/-- The fields of a word of the R format. -/
structure Fields (w : Word) (f7 rs2 rs1 f3 rd op : Nat) : Prop where
  opcode : opcodeField w = BitVec.ofNat 7 op
  rd : rdField w = BitVec.ofNat 5 rd
  funct3 : funct3Field w = BitVec.ofNat 3 f3
  rs1 : rs1Field w = BitVec.ofNat 5 rs1
  rs2 : rs2Field w = BitVec.ofNat 5 rs2
  funct7 : funct7Field w = BitVec.ofNat 7 f7

theorem rWord_fields (fits : Fits f7 rs2 rs1 f3 rd op) :
    Fields (BitVec.ofNat 32 (rWord f7 rs2 rs1 f3 rd op)) f7 rs2 rs1 f3 rd op := by
  rw [rWord_eq fits]
  obtain ⟨h1, h2, h3, h4, h5, h6⟩ := fits
  constructor <;> exact field (by omega) (by omega)

/-- The I format is the R format with the immediate in `funct7` and `rs2`. -/
theorem iWord_eq (imm : Int) (rs1 f3 rd op : Nat) :
    iWord imm rs1 f3 rd op = rWord (s12 imm / 32) (s12 imm % 32) rs1 f3 rd op := by
  have split : s12 imm <<< 20 = (s12 imm / 32) <<< 25 ||| (s12 imm % 32) <<< 20 := by
    simp only [Nat.shiftLeft_eq]
    rw [or_eq_add (n := 25) (by omega) (by omega)]
    omega
  rw [iWord, rWord, split]

theorem s12_lt (v : Int) : s12 v < 4096 := by
  unfold s12
  omega

/-- A branch is in the R format too, its offset scattered over `funct7` and `rd`. -/
theorem branchWord_eq (f3 rs1 rs2 : Nat) (off : Int) : branchWord f3 rs1 rs2 off =
    rWord ((off % 0x2000).toNat / 4096 * 64 + (off % 0x2000).toNat / 32 % 64) rs2 rs1 f3
      ((off % 0x2000).toNat / 2 % 16 * 2 + (off % 0x2000).toNat / 2048 % 2) opBranch := by
  have small : (off % 0x2000).toNat < 8192 := by omega
  unfold branchWord
  generalize (off % 0x2000).toNat = imm at *
  have bit12 : imm >>> 12 &&& 1 = imm / 4096 := by
    rw [Nat.and_one_is_mod, Nat.shiftRight_eq_div_pow]
    omega
  have bits10 : imm >>> 5 &&& 0x3F = imm / 32 % 64 := by
    rw [Nat.shiftRight_eq_div_pow]
    exact Nat.and_two_pow_sub_one_eq_mod _ 6
  have bits4 : imm >>> 1 &&& 0xF = imm / 2 % 16 := by
    rw [Nat.shiftRight_eq_div_pow]
    exact Nat.and_two_pow_sub_one_eq_mod _ 4
  have bit11 : imm >>> 11 &&& 1 = imm / 2048 % 2 := by
    rw [Nat.and_one_is_mod, Nat.shiftRight_eq_div_pow]
  have high : (imm / 4096) <<< 31 ||| (imm / 32 % 64) <<< 25 =
      (imm / 4096 * 64 + imm / 32 % 64) <<< 25 := by
    simp only [Nat.shiftLeft_eq]
    rw [or_eq_add (n := 31) (by omega) (by omega)]
    omega
  have low : (imm / 2 % 16) <<< 8 ||| (imm / 2048 % 2) <<< 7 =
      (imm / 2 % 16 * 2 + imm / 2048 % 2) <<< 7 := by
    simp only [Nat.shiftLeft_eq]
    rw [or_eq_add (n := 8) (by omega) (by omega)]
    omega
  simp only [bit12, bits10, bits4, bit11, rWord]
  rw [high, Nat.or_assoc _ ((imm / 2 % 16) <<< 8), low]

/-- The upper twenty bits, `rd` and the opcode. -/
theorem upper_eq {imm20 : Nat} (small : rd < 32) (short : op < 128) :
    imm20 <<< 12 ||| rd <<< 7 ||| op = imm20 * 2 ^ 12 + rd * 2 ^ 7 + op := by
  simp only [Nat.shiftLeft_eq]
  rw [or_eq_add (y := rd * 2 ^ 7) (n := 12) (by omega) (by omega),
    or_eq_add (n := 7) (by omega) (by omega)]

theorem jalWord_eq (rd : Nat) (off : Int) : jalWord rd off =
    ((off % 0x200000).toNat / 1048576 * 2 ^ 19 + (off % 0x200000).toNat / 2 % 1024 * 2 ^ 9 +
        (off % 0x200000).toNat / 2048 % 2 * 2 ^ 8 + (off % 0x200000).toNat / 4096 % 256) <<< 12 |||
      rd <<< 7 ||| opJal := by
  have small : (off % 0x200000).toNat < 2097152 := by omega
  unfold jalWord
  generalize (off % 0x200000).toNat = imm at *
  have bit20 : imm >>> 20 &&& 1 = imm / 1048576 := by
    rw [Nat.and_one_is_mod, Nat.shiftRight_eq_div_pow]
    omega
  have bits10 : imm >>> 1 &&& 0x3FF = imm / 2 % 1024 := by
    rw [Nat.shiftRight_eq_div_pow]
    exact Nat.and_two_pow_sub_one_eq_mod _ 10
  have bit11 : imm >>> 11 &&& 1 = imm / 2048 % 2 := by
    rw [Nat.and_one_is_mod, Nat.shiftRight_eq_div_pow]
  have bits19 : imm >>> 12 &&& 0xFF = imm / 4096 % 256 := by
    rw [Nat.shiftRight_eq_div_pow]
    exact Nat.and_two_pow_sub_one_eq_mod _ 8
  simp only [bit20, bits10, bit11, bits19]
  congr 2
  simp only [Nat.shiftLeft_eq]
  rw [or_eq_add (y := imm / 2 % 1024 * 2 ^ 21) (n := 31) (by omega) (by omega),
    or_eq_add (y := imm / 2048 % 2 * 2 ^ 20) (n := 21) (by omega) (by omega),
    or_eq_add (n := 20) (by omega) (by omega)]
  omega

/-! ## Immediates -/

theorem iImm_eq {imm : Int} (fits : Fits (s12 imm / 32) (s12 imm % 32) rs1 f3 rd op)
    (above : -2048 ≤ imm) (below : imm < 2048) :
    iImm (BitVec.ofNat 32 (iWord imm rs1 f3 rd op)) = BitVec.ofInt 32 imm := by
  have value : BitVec.ofNat 12 (s12 imm) = BitVec.ofInt 12 imm := ofNat_emod 12 imm
  have small := s12_lt imm
  rw [iWord_eq, rWord_eq fits, iImm, field (v := s12 imm) (by omega) ?_, value]
  · exact signExtend_ofInt 32 above below
  · obtain ⟨-, -, h3, h4, h5, h6⟩ := fits
    omega

theorem sImm_eq {w : Word} {imm : Int}
    (fields : Fields w (s12 imm >>> 5) rs2 rs1 f3 (s12 imm &&& 0x1F) op)
    (above : -2048 ≤ imm) (below : imm < 2048) : sImm w = BitVec.ofInt 32 imm := by
  have value : BitVec.ofNat 12 (s12 imm) = BitVec.ofInt 12 imm := ofNat_emod 12 imm
  have high : w.extractLsb' 25 7 = BitVec.ofNat 7 (s12 imm >>> 5) := fields.funct7
  have low : w.extractLsb' 7 5 = BitVec.ofNat 5 (s12 imm &&& 0x1F) := fields.rd
  have mask : s12 imm &&& 0x1F = s12 imm % 32 := Nat.and_two_pow_sub_one_eq_mod _ 5
  rw [sImm, high, low, mask, append_ofNat _ (by omega), Nat.shiftRight_eq_div_pow,
    show s12 imm / 2 ^ 5 * 2 ^ 5 + s12 imm % 32 = s12 imm by omega, value]
  exact signExtend_ofInt 32 above below

theorem bImm_eq {w : Word} {off : Int}
    (fields : Fields w ((off % 0x2000).toNat / 4096 * 64 + (off % 0x2000).toNat / 32 % 64) rs2 rs1 f3
      ((off % 0x2000).toNat / 2 % 16 * 2 + (off % 0x2000).toNat / 2048 % 2) op)
    (above : -4096 ≤ off) (below : off < 4096) (even : off % 2 = 0) :
    bImm w = BitVec.ofInt 32 off := by
  have value : BitVec.ofNat 13 (off % 0x2000).toNat = BitVec.ofInt 13 off := ofNat_emod 13 off
  have small : (off % 0x2000).toNat < 8192 := by omega
  have last : (off % 0x2000).toNat % 2 = 0 := by omega
  generalize (off % 0x2000).toNat = imm at *
  have digits : imm = (((imm / 4096 * 2 + imm / 2048 % 2) * 64 + imm / 32 % 64) * 16 +
      imm / 2 % 16) * 2 := by omega
  have bounds : imm / 4096 < 2 ∧ imm / 2048 % 2 < 2 ∧ imm / 32 % 64 < 64 ∧ imm / 2 % 16 < 16 := by
    omega
  generalize imm / 4096 = a, imm / 2048 % 2 = b, imm / 32 % 64 = c, imm / 2 % 16 = d at *
  have top : w.extractLsb' 31 1 = BitVec.ofNat 1 a :=
    subfield (o := 6) fields.funct7 (by omega)
      (digit (h := 0) (y := c) (by omega) (by omega) (by omega))
  have bits10 : w.extractLsb' 25 6 = BitVec.ofNat 6 c :=
    subfield (o := 0) fields.funct7 (by omega)
      (digit (h := a) (y := 0) (by omega) (by omega) (by omega))
  have bits4 : w.extractLsb' 8 4 = BitVec.ofNat 4 d :=
    subfield (o := 1) fields.rd (by omega) (digit (h := 0) (y := b) (by omega) (by omega) (by omega))
  have bit11 : w.extractLsb' 7 1 = BitVec.ofNat 1 b :=
    subfield (o := 0) fields.rd (by omega) (digit (h := d) (y := 0) (by omega) (by omega) (by omega))
  rw [bImm, top, bit11, bits10, bits4, append_ofNat _ (by omega), append_ofNat _ (by omega),
    append_ofNat _ (by omega), append_ofNat _ (by omega)]
  rw [digits] at value
  exact (congrArg (BitVec.signExtend 32) value).trans (signExtend_ofInt 32 above below)

theorem jImm_eq {off : Int} (small1 : rd < 32) (above : -1048576 ≤ off) (below : off < 1048576)
    (even : off % 2 = 0) : jImm (BitVec.ofNat 32 (jalWord rd off)) = BitVec.ofInt 32 off := by
  have value : BitVec.ofNat 21 (off % 0x200000).toNat = BitVec.ofInt 21 off := ofNat_emod 21 off
  have small : (off % 0x200000).toNat < 2097152 := by omega
  have last : (off % 0x200000).toNat % 2 = 0 := by omega
  have short : opJal < 128 := by decide
  rw [jalWord_eq, upper_eq small1 short]
  generalize (off % 0x200000).toNat = imm, opJal = op at *
  have digits : imm = (((imm / 1048576 * 256 + imm / 4096 % 256) * 2 + imm / 2048 % 2) * 1024 +
      imm / 2 % 1024) * 2 := by omega
  have bounds : imm / 1048576 < 2 ∧ imm / 4096 % 256 < 256 ∧ imm / 2048 % 2 < 2 ∧
      imm / 2 % 1024 < 1024 := by omega
  generalize imm / 1048576 = a, imm / 4096 % 256 = b, imm / 2048 % 2 = c, imm / 2 % 1024 = d at *
  rw [jImm,
    field (v := a) (by omega) (digit (h := 0)
      (y := d * 2 ^ 21 + c * 2 ^ 20 + b * 2 ^ 12 + rd * 2 ^ 7 + op) (by omega) (by omega) (by omega)),
    field (v := b) (by omega) (digit (h := a * 2 ^ 11 + d * 2 + c) (y := rd * 2 ^ 7 + op) (by omega)
      (by omega) (by omega)),
    field (v := c) (by omega) (digit (h := a * 2 ^ 10 + d) (y := b * 2 ^ 12 + rd * 2 ^ 7 + op)
      (by omega) (by omega) (by omega)),
    field (v := d) (by omega) (digit (h := a) (y := c * 2 ^ 20 + b * 2 ^ 12 + rd * 2 ^ 7 + op)
      (by omega) (by omega) (by omega)),
    append_ofNat _ (by omega), append_ofNat _ (by omega), append_ofNat _ (by omega),
    append_ofNat _ (by omega)]
  rw [digits] at value
  exact (congrArg (BitVec.signExtend 32) value).trans (signExtend_ofInt 32 above below)

end Formats

/-! ## Methods -/

/-- Register operands in 0..31, immediates in -2048..2047, shift amounts in 0..31. -/
def Method.InRange : Method → Prop
  | .add rd rs1 rs2 | .sub rd rs1 rs2 | .sll rd rs1 rs2 | .slt rd rs1 rs2 | .sltu rd rs1 rs2
  | .xor rd rs1 rs2 | .srl rd rs1 rs2 | .sra rd rs1 rs2 | .or rd rs1 rs2 | .and rd rs1 rs2 =>
      rd < 32 ∧ rs1 < 32 ∧ rs2 < 32
  | .addi rd rs1 imm | .slti rd rs1 imm | .sltiu rd rs1 imm | .xori rd rs1 imm | .andi rd rs1 imm
  | .ori rd rs1 imm | .lb rd rs1 imm | .lh rd rs1 imm | .lw rd rs1 imm | .lbu rd rs1 imm
  | .lhu rd rs1 imm | .jalr rd rs1 imm =>
      rd < 32 ∧ rs1 < 32 ∧ -2048 ≤ imm ∧ imm < 2048
  | .slli rd rs1 amount | .srli rd rs1 amount | .srai rd rs1 amount =>
      rd < 32 ∧ rs1 < 32 ∧ amount < 32
  | .lui rd _ | .auipc rd _ | .jal rd _ => rd < 32
  | .sb rs2 rs1 imm | .sw rs2 rs1 imm | .sh rs2 rs1 imm =>
      rs2 < 32 ∧ rs1 < 32 ∧ -2048 ≤ imm ∧ imm < 2048
  | .beq rs1 rs2 _ | .bne rs1 rs2 _ | .blt rs1 rs2 _ | .bge rs1 rs2 _ | .bltu rs1 rs2 _
  | .bgeu rs1 rs2 _ => rs1 < 32 ∧ rs2 < 32
  | .ebreak => True

/-- Register operands in 0..31. -/
def Method.RegsInRange : Method → Prop
  | .add rd rs1 rs2 | .sub rd rs1 rs2 | .sll rd rs1 rs2 | .slt rd rs1 rs2 | .sltu rd rs1 rs2
  | .xor rd rs1 rs2 | .srl rd rs1 rs2 | .sra rd rs1 rs2 | .or rd rs1 rs2 | .and rd rs1 rs2 =>
      rd < 32 ∧ rs1 < 32 ∧ rs2 < 32
  | .addi rd rs1 _ | .slti rd rs1 _ | .sltiu rd rs1 _ | .xori rd rs1 _ | .andi rd rs1 _
  | .ori rd rs1 _ | .lb rd rs1 _ | .lh rd rs1 _ | .lw rd rs1 _ | .lbu rd rs1 _ | .lhu rd rs1 _
  | .jalr rd rs1 _ | .slli rd rs1 _ | .srli rd rs1 _ | .srai rd rs1 _ => rd < 32 ∧ rs1 < 32
  | .lui rd _ | .auipc rd _ | .jal rd _ => rd < 32
  | .sb rs2 rs1 _ | .sw rs2 rs1 _ | .sh rs2 rs1 _ => rs2 < 32 ∧ rs1 < 32
  | .beq rs1 rs2 _ | .bne rs1 rs2 _ | .blt rs1 rs2 _ | .bge rs1 rs2 _ | .bltu rs1 rs2 _
  | .bgeu rs1 rs2 _ => rs1 < 32 ∧ rs2 < 32
  | .ebreak => True

theorem Method.InRange.regs {m : Method} (range : m.InRange) : m.RegsInRange := by
  cases m <;> first | exact range | exact ⟨range.1, range.2.1⟩

/-- A method that needs a label has no other operands. -/
theorem Method.RegsInRange.of_fixup {m : Method} {f : Fixup} (regs : m.RegsInRange)
    (emits : m.emits = .fixup f) : m.InRange := by
  cases m <;> cases emits <;> exact regs

/-- The instruction a method is named after, with the operands it is given; `off` is the distance to
the target label of a branch or jump. -/
def Method.instr (off : Int) : Method → Instr
  | .add rd rs1 rs2 => .alu .add (.ofNat 5 rd) (.ofNat 5 rs1) (.ofNat 5 rs2)
  | .sub rd rs1 rs2 => .alu .sub (.ofNat 5 rd) (.ofNat 5 rs1) (.ofNat 5 rs2)
  | .sll rd rs1 rs2 => .alu .sll (.ofNat 5 rd) (.ofNat 5 rs1) (.ofNat 5 rs2)
  | .slt rd rs1 rs2 => .alu .slt (.ofNat 5 rd) (.ofNat 5 rs1) (.ofNat 5 rs2)
  | .sltu rd rs1 rs2 => .alu .sltu (.ofNat 5 rd) (.ofNat 5 rs1) (.ofNat 5 rs2)
  | .xor rd rs1 rs2 => .alu .xor (.ofNat 5 rd) (.ofNat 5 rs1) (.ofNat 5 rs2)
  | .srl rd rs1 rs2 => .alu .srl (.ofNat 5 rd) (.ofNat 5 rs1) (.ofNat 5 rs2)
  | .sra rd rs1 rs2 => .alu .sra (.ofNat 5 rd) (.ofNat 5 rs1) (.ofNat 5 rs2)
  | .or rd rs1 rs2 => .alu .or (.ofNat 5 rd) (.ofNat 5 rs1) (.ofNat 5 rs2)
  | .and rd rs1 rs2 => .alu .and (.ofNat 5 rd) (.ofNat 5 rs1) (.ofNat 5 rs2)
  | .addi rd rs1 imm => .aluImm .add (.ofNat 5 rd) (.ofNat 5 rs1) (.ofInt 32 imm)
  | .slti rd rs1 imm => .aluImm .slt (.ofNat 5 rd) (.ofNat 5 rs1) (.ofInt 32 imm)
  | .sltiu rd rs1 imm => .aluImm .sltu (.ofNat 5 rd) (.ofNat 5 rs1) (.ofInt 32 imm)
  | .xori rd rs1 imm => .aluImm .xor (.ofNat 5 rd) (.ofNat 5 rs1) (.ofInt 32 imm)
  | .andi rd rs1 imm => .aluImm .and (.ofNat 5 rd) (.ofNat 5 rs1) (.ofInt 32 imm)
  | .ori rd rs1 imm => .aluImm .or (.ofNat 5 rd) (.ofNat 5 rs1) (.ofInt 32 imm)
  | .slli rd rs1 amount => .aluImm .sll (.ofNat 5 rd) (.ofNat 5 rs1) (.ofNat 32 amount)
  | .srli rd rs1 amount => .aluImm .srl (.ofNat 5 rd) (.ofNat 5 rs1) (.ofNat 32 amount)
  | .srai rd rs1 amount => .aluImm .sra (.ofNat 5 rd) (.ofNat 5 rs1) (.ofNat 32 amount)
  | .lb rd rs1 imm => .load .lb (.ofNat 5 rd) (.ofNat 5 rs1) (.ofInt 32 imm)
  | .lh rd rs1 imm => .load .lh (.ofNat 5 rd) (.ofNat 5 rs1) (.ofInt 32 imm)
  | .lw rd rs1 imm => .load .lw (.ofNat 5 rd) (.ofNat 5 rs1) (.ofInt 32 imm)
  | .lbu rd rs1 imm => .load .lbu (.ofNat 5 rd) (.ofNat 5 rs1) (.ofInt 32 imm)
  | .lhu rd rs1 imm => .load .lhu (.ofNat 5 rd) (.ofNat 5 rs1) (.ofInt 32 imm)
  | .jalr rd rs1 imm => .jalr (.ofNat 5 rd) (.ofNat 5 rs1) (.ofInt 32 imm)
  | .lui rd imm20 => .lui (.ofNat 5 rd) (BitVec.ofInt 20 imm20 ++ 0#12)
  | .auipc rd imm20 => .auipc (.ofNat 5 rd) (BitVec.ofInt 20 imm20 ++ 0#12)
  | .sb rs2 rs1 imm => .store .sb (.ofNat 5 rs1) (.ofNat 5 rs2) (.ofInt 32 imm)
  | .sw rs2 rs1 imm => .store .sw (.ofNat 5 rs1) (.ofNat 5 rs2) (.ofInt 32 imm)
  | .sh rs2 rs1 imm => .store .sh (.ofNat 5 rs1) (.ofNat 5 rs2) (.ofInt 32 imm)
  | .beq rs1 rs2 _ => .branch .beq (.ofNat 5 rs1) (.ofNat 5 rs2) (.ofInt 32 off)
  | .bne rs1 rs2 _ => .branch .bne (.ofNat 5 rs1) (.ofNat 5 rs2) (.ofInt 32 off)
  | .blt rs1 rs2 _ => .branch .blt (.ofNat 5 rs1) (.ofNat 5 rs2) (.ofInt 32 off)
  | .bge rs1 rs2 _ => .branch .bge (.ofNat 5 rs1) (.ofNat 5 rs2) (.ofInt 32 off)
  | .bltu rs1 rs2 _ => .branch .bltu (.ofNat 5 rs1) (.ofNat 5 rs2) (.ofInt 32 off)
  | .bgeu rs1 rs2 _ => .branch .bgeu (.ofNat 5 rs1) (.ofNat 5 rs2) (.ofInt 32 off)
  | .ebreak => .ebreak
  | .jal rd _ => .jal (.ofNat 5 rd) (.ofInt 32 off)

/-- The label a branch or jump goes to. -/
def Method.target : Method → Option String
  | .beq _ _ target | .bne _ _ target | .blt _ _ target | .bge _ _ target | .bltu _ _ target
  | .bgeu _ _ target | .jal _ target => some target
  | _ => none

theorem Method.target_of_fixup {m : Method} {f : Fixup} (emits : m.emits = .fixup f) :
    m.target = some f.target := by
  cases m <;> cases emits <;> rfl

theorem Method.target_of_word {m : Method} {w : Nat} (emits : m.emits = .word w) : m.target = none := by
  cases m <;> cases emits <;> rfl

section Decode

variable {f7 rs2 rs1 f3 rd : Nat}

theorem decode_reg {op : AluOp} (regs : rd < 32 ∧ rs1 < 32 ∧ rs2 < 32) (small7 : f7 < 128)
    (small3 : f3 < 8)
    (selects : ∀ w, funct7Field w = BitVec.ofNat 7 f7 → funct3Field w = BitVec.ofNat 3 f3 →
      decodeOp w = some op) :
    decode (BitVec.ofNat 32 (rWord f7 rs2 rs1 f3 rd opReg)) =
      some (.alu op (.ofNat 5 rd) (.ofNat 5 rs1) (.ofNat 5 rs2)) := by
  have fits : Fits f7 rs2 rs1 f3 rd opReg :=
    ⟨small7, regs.2.2, regs.2.1, small3, regs.1, by decide⟩
  have fields := rWord_fields fits
  rw [decode, fields.opcode, fields.rd, fields.rs1, fields.rs2, selects _ fields.funct7 fields.funct3]
  rfl

/-- The fields of an I-type word and its immediate. -/
theorem iWord_fields (op : Nat) (imm : Int) (rd_lt : rd < 32) (rs1_lt : rs1 < 32) (small3 : f3 < 8)
    (short : op < 128) :
    Fields (BitVec.ofNat 32 (iWord imm rs1 f3 rd op)) (s12 imm / 32) (s12 imm % 32) rs1 f3 rd op ∧
      (-2048 ≤ imm ∧ imm < 2048 →
        iImm (BitVec.ofNat 32 (iWord imm rs1 f3 rd op)) = BitVec.ofInt 32 imm) := by
  have small := s12_lt imm
  have fits : Fits (s12 imm / 32) (s12 imm % 32) rs1 f3 rd op :=
    ⟨by omega, by omega, rs1_lt, small3, rd_lt, short⟩
  refine ⟨?_, fun range => iImm_eq fits range.1 range.2⟩
  rw [iWord_eq]
  exact rWord_fields fits

theorem decode_imm {op : AluOp} {imm : Int}
    (range : rd < 32 ∧ rs1 < 32 ∧ -2048 ≤ imm ∧ imm < 2048) (small3 : f3 < 8)
    (selects : ∀ w, funct3Field w = BitVec.ofNat 3 f3 → decodeOpImm w = some (op, iImm w)) :
    decode (BitVec.ofNat 32 (iWord imm rs1 f3 rd opImm)) =
      some (.aluImm op (.ofNat 5 rd) (.ofNat 5 rs1) (.ofInt 32 imm)) := by
  obtain ⟨fields, imm_eq⟩ :=
    iWord_fields opImm imm range.1 range.2.1 small3 (by decide)
  rw [decode, fields.opcode, fields.rd, fields.rs1, selects _ fields.funct3, imm_eq range.2.2]
  rfl

/-- A shift by an immediate: `f7` says which right shift. -/
theorem decode_shift (f7 : Nat) {op : AluOp} {imm : Int} {amount : Nat}
    (range : rd < 32 ∧ rs1 < 32 ∧ amount < 32) (small3 : f3 < 8)
    (packed : s12 imm = f7 * 32 + amount)
    (selects : ∀ w, funct7Field w = BitVec.ofNat 7 f7 → funct3Field w = BitVec.ofNat 3 f3 →
      decodeOpImm w = some (op, shamt w)) :
    decode (BitVec.ofNat 32 (iWord imm rs1 f3 rd opImm)) =
      some (.aluImm op (.ofNat 5 rd) (.ofNat 5 rs1) (.ofNat 32 amount)) := by
  obtain ⟨fields, -⟩ :=
    iWord_fields opImm imm range.1 range.2.1 small3 (by decide)
  rw [packed, show (f7 * 32 + amount) / 32 = f7 by omega,
    show (f7 * 32 + amount) % 32 = amount by omega] at fields
  have shifts : shamt (BitVec.ofNat 32 (iWord imm rs1 f3 rd opImm)) = BitVec.ofNat 32 amount := by
    rw [shamt, fields.rs2, BitVec.setWidth_ofNat_of_le_of_lt (by omega) (by omega)]
  rw [decode, fields.opcode, fields.rd, fields.rs1, selects _ fields.funct7 fields.funct3, shifts]
  rfl

theorem decode_load {op : LoadOp} {imm : Int}
    (range : rd < 32 ∧ rs1 < 32 ∧ -2048 ≤ imm ∧ imm < 2048) (small3 : f3 < 8)
    (selects : ∀ w, funct3Field w = BitVec.ofNat 3 f3 → decodeLoad w = some op) :
    decode (BitVec.ofNat 32 (iWord imm rs1 f3 rd opLoad)) =
      some (.load op (.ofNat 5 rd) (.ofNat 5 rs1) (.ofInt 32 imm)) := by
  obtain ⟨fields, imm_eq⟩ :=
    iWord_fields opLoad imm range.1 range.2.1 small3 (by decide)
  rw [decode, fields.opcode, fields.rd, fields.rs1, selects _ fields.funct3, imm_eq range.2.2]
  rfl

theorem decode_store {op : StoreOp} {imm : Int}
    (range : rs2 < 32 ∧ rs1 < 32 ∧ -2048 ≤ imm ∧ imm < 2048) (small3 : f3 < 8)
    (selects : ∀ w, funct3Field w = BitVec.ofNat 3 f3 → decodeStore w = some op) :
    decode (BitVec.ofNat 32 (storeWord f3 rs2 rs1 imm)) =
      some (.store op (.ofNat 5 rs1) (.ofNat 5 rs2) (.ofInt 32 imm)) := by
  have small := s12_lt imm
  have high : s12 imm >>> 5 < 128 := by
    rw [Nat.shiftRight_eq_div_pow]
    omega
  have low : s12 imm &&& 0x1F < 32 := Nat.and_lt_two_pow _ (n := 5) (by omega)
  have fields : Fields (BitVec.ofNat 32 (storeWord f3 rs2 rs1 imm)) (s12 imm >>> 5) rs2 rs1 f3
      (s12 imm &&& 0x1F) opStore :=
    rWord_fields ⟨high, range.1, range.2.1, small3, low, by decide⟩
  rw [decode, fields.opcode, fields.rs1, fields.rs2, selects _ fields.funct3,
    sImm_eq fields range.2.2.1 range.2.2.2]
  rfl

/-- A U-type word has the opcode, the destination and the upper immediate it was built from. -/
theorem uWord_fields (op : Nat) (rd_lt : rd < 32) (short : op < 128) (imm20 : Int) :
    opcodeField (BitVec.ofNat 32 (uWord imm20 rd op)) = BitVec.ofNat 7 op ∧
      rdField (BitVec.ofNat 32 (uWord imm20 rd op)) = BitVec.ofNat 5 rd ∧
      uImm (BitVec.ofNat 32 (uWord imm20 rd op)) = BitVec.ofInt 20 imm20 ++ 0#12 := by
  have value : BitVec.ofNat 20 (imm20 % 0x100000).toNat = BitVec.ofInt 20 imm20 := ofNat_emod 20 imm20
  have small : (imm20 % 0x100000).toNat < 0x100000 := by omega
  rw [uWord, upper_eq rd_lt short, ← value]
  generalize (imm20 % 0x100000).toNat = imm at *
  refine ⟨field (by omega) (digit (h := imm * 2 ^ 5 + rd) (y := 0) (by omega) (by omega) (by omega)),
    field (by omega) (digit (h := imm) (y := op) (by omega) (by omega) (by omega)), ?_⟩
  rw [uImm, field (by omega)
    (digit (h := 0) (v := imm) (y := rd * 2 ^ 7 + op) (by omega) (by omega) (by omega))]

/-- Every method but the branches and `JAL` emits the word of its instruction. -/
theorem Method.decode_word {m : Method} {w : Nat} (emits : m.emits = .word w) (range : m.InRange)
    (off : Int) : decode (BitVec.ofNat 32 w) = some (m.instr off) := by
  cases m <;> cases emits
  case add | sub | sll | slt | sltu | xor | srl | sra | or | and =>
    exact decode_reg range (by decide) (by decide) fun w h7 h3 => by rw [decodeOp, h7, h3]; rfl
  case addi | slti | sltiu | xori | andi | ori =>
    exact decode_imm range (by decide) fun w h3 => by rw [decodeOpImm, h3]; rfl
  case lb | lh | lw | lbu | lhu =>
    exact decode_load range (by decide) fun w h3 => by rw [decodeLoad, h3]; rfl
  case sb | sw | sh =>
    exact decode_store range (by decide) fun w h3 => by rw [decodeStore, h3]; rfl
  case slli rd rs1 amount =>
    have mask : amount &&& 0x1F = amount := Nat.and_two_pow_sub_one_of_lt_two_pow (n := 5) range.2.2
    rw [mask]
    refine decode_shift 0 range (by decide) ?_ fun w h7 h3 => by
      rw [decodeOpImm, h7, h3]; rfl
    have := range.2.2
    unfold s12
    omega
  case srli rd rs1 amount =>
    have mask : amount &&& 0x1F = amount := Nat.and_two_pow_sub_one_of_lt_two_pow (n := 5) range.2.2
    rw [mask]
    refine decode_shift 0 range (by decide) ?_ fun w h7 h3 => by
      rw [decodeOpImm, h7, h3]; rfl
    have := range.2.2
    unfold s12
    omega
  case srai rd rs1 amount =>
    have mask : amount &&& 0x1F = amount := Nat.and_two_pow_sub_one_of_lt_two_pow (n := 5) range.2.2
    rw [mask]
    refine decode_shift 0x20 range (by decide) ?_ fun w h7 h3 => by
      rw [decodeOpImm, h7, h3]; rfl
    have := range.2.2
    rw [or_eq_add (n := 10) (by omega) (by omega)]
    unfold s12
    omega
  case jalr rd rs1 imm =>
    obtain ⟨fields, imm_eq⟩ :=
      iWord_fields opJalr imm range.1 range.2.1 (show 0 < 8 by decide) (by decide)
    rw [decode, fields.opcode, fields.rd, fields.rs1, fields.funct3, imm_eq range.2.2]
    rfl
  case lui rd imm20 =>
    obtain ⟨opcode, rd_eq, imm_eq⟩ := uWord_fields opLui range (by decide) imm20
    rw [decode, opcode, rd_eq, imm_eq]
    rfl
  case auipc rd imm20 =>
    obtain ⟨opcode, rd_eq, imm_eq⟩ := uWord_fields opAuipc range (by decide) imm20
    rw [decode, opcode, rd_eq, imm_eq]
    rfl
  case ebreak =>
    have word : decode (BitVec.ofNat 32 (iWord 0x001 0 0b000 0 opSystem)) = some .ebreak := by decide
    exact word

/-- The operation of a branch, by `funct3`. -/
theorem decode_branch {op : BranchOp} {off : Int} (regs : rs1 < 32 ∧ rs2 < 32) (small3 : f3 < 8)
    (above : -4096 ≤ off) (below : off < 4096) (even : off % 2 = 0)
    (selects : ∀ w, funct3Field w = BitVec.ofNat 3 f3 → decodeBranch w = some op) :
    decode (BitVec.ofNat 32 (branchWord f3 rs1 rs2 off)) =
      some (.branch op (.ofNat 5 rs1) (.ofNat 5 rs2) (.ofInt 32 off)) := by
  have small : (off % 0x2000).toNat < 8192 := by omega
  have fits : Fits ((off % 0x2000).toNat / 4096 * 64 + (off % 0x2000).toNat / 32 % 64) rs2 rs1 f3
      ((off % 0x2000).toNat / 2 % 16 * 2 + (off % 0x2000).toNat / 2048 % 2) opBranch :=
    ⟨by omega, regs.2, regs.1, small3, by omega, by decide⟩
  have fields := rWord_fields fits
  rw [← branchWord_eq] at fields
  rw [decode, fields.opcode, fields.rs1, fields.rs2, selects _ fields.funct3,
    bImm_eq fields above below even]
  rfl

theorem decode_jal {off : Int} (rd_lt : rd < 32) (above : -1048576 ≤ off) (below : off < 1048576)
    (even : off % 2 = 0) :
    decode (BitVec.ofNat 32 (jalWord rd off)) = some (.jal (.ofNat 5 rd) (.ofInt 32 off)) := by
  have imm_eq := jImm_eq rd_lt above below even
  have small : (off % 0x200000).toNat < 2097152 := by omega
  have fields : opcodeField (BitVec.ofNat 32 (jalWord rd off)) = BitVec.ofNat 7 opJal ∧
      rdField (BitVec.ofNat 32 (jalWord rd off)) = BitVec.ofNat 5 rd := by
    have short : opJal < 128 := by decide
    obtain ⟨imm, packed⟩ : ∃ imm, jalWord rd off = imm <<< 12 ||| rd <<< 7 ||| opJal :=
      ⟨_, jalWord_eq rd off⟩
    rw [packed, upper_eq rd_lt short]
    exact ⟨field (by omega) (digit (h := imm * 2 ^ 5 + rd) (y := 0) (by omega) (by omega) (by omega)),
      field (by omega) (digit (h := imm) (y := opJal) (by omega) (by omega) (by omega))⟩
  rw [decode, fields.1, fields.2, imm_eq]
  rfl

/-- A fixup that `finalize` accepts becomes the word of its method's instruction. -/
theorem Method.decode_fixup {m : Method} {f : Fixup} {pc here : Int} {w : Nat}
    (emits : m.emits = .fixup f) (range : m.InRange) (accepted : Asm.fixupWord pc here f = some w) :
    decode (BitVec.ofNat 32 w) = some (m.instr (here - pc)) := by
  cases m <;> cases emits
  case jal rd target =>
    obtain ⟨⟨above, below, even⟩, word⟩ := Option.ite_none_right_eq_some.mp accepted
    cases word
    exact decode_jal range above below even
  all_goals
    obtain ⟨⟨above, below, even⟩, word⟩ := Option.ite_none_right_eq_some.mp accepted
    cases word
    exact decode_branch range (by decide) above below even fun w h3 => by rw [decodeBranch, h3]; rfl

/-! ## Every word fits in four bytes -/

theorem rWord_lt {op : Nat} (fits : Fits f7 rs2 rs1 f3 rd op) :
    rWord f7 rs2 rs1 f3 rd op < 2 ^ 32 := by
  rw [rWord_eq fits]
  obtain ⟨h1, h2, h3, h4, h5, h6⟩ := fits
  omega

theorem upper_lt {op imm20 : Nat} (rd_lt : rd < 32) (short : op < 128) (small : imm20 < 2 ^ 20) :
    imm20 <<< 12 ||| rd <<< 7 ||| op < 2 ^ 32 := by
  rw [upper_eq rd_lt short]
  omega

theorem iWord_lt {op : Nat} {imm : Int} (rd_lt : rd < 32) (rs1_lt : rs1 < 32) (small3 : f3 < 8)
    (short : op < 128) : iWord imm rs1 f3 rd op < 2 ^ 32 := by
  have small := s12_lt imm
  rw [iWord_eq]
  exact rWord_lt ⟨by omega, by omega, rs1_lt, small3, rd_lt, short⟩

theorem storeWord_lt {imm : Int} (rs2_lt : rs2 < 32) (rs1_lt : rs1 < 32) (small3 : f3 < 8) :
    storeWord f3 rs2 rs1 imm < 2 ^ 32 := by
  have small := s12_lt imm
  have high : s12 imm >>> 5 < 128 := by
    rw [Nat.shiftRight_eq_div_pow]
    omega
  have low : s12 imm &&& 0x1F < 32 := Nat.and_lt_two_pow _ (n := 5) (by omega)
  exact rWord_lt ⟨high, rs2_lt, rs1_lt, small3, low, by decide⟩

theorem branchWord_lt {off : Int} (rs1_lt : rs1 < 32) (rs2_lt : rs2 < 32) (small3 : f3 < 8) :
    branchWord f3 rs1 rs2 off < 2 ^ 32 := by
  have small : (off % 0x2000).toNat < 8192 := by omega
  rw [branchWord_eq]
  exact rWord_lt ⟨by omega, rs2_lt, rs1_lt, small3, by omega, by decide⟩

theorem jalWord_lt {off : Int} (rd_lt : rd < 32) : jalWord rd off < 2 ^ 32 := by
  have small : (off % 0x200000).toNat < 2097152 := by omega
  rw [jalWord_eq]
  refine upper_lt rd_lt (by decide) ?_
  generalize (off % 0x200000).toNat = imm at *
  omega

theorem Method.word_lt {m : Method} {w : Nat} (emits : m.emits = .word w) (range : m.RegsInRange) :
    w < 2 ^ 32 := by
  cases m <;> cases emits
  case add | sub | sll | slt | sltu | xor | srl | sra | or | and =>
    exact rWord_lt ⟨by decide, range.2.2, range.2.1, by decide, range.1, by decide⟩
  case sb | sw | sh => exact storeWord_lt range.1 range.2 (by decide)
  case lui | auipc => exact upper_lt range (by decide) (by omega)
  case ebreak => decide
  all_goals exact iWord_lt range.1 range.2 (by decide) (by decide)

theorem Method.fixup_lt {m : Method} {f : Fixup} {pc here : Int} {w : Nat}
    (emits : m.emits = .fixup f) (range : m.RegsInRange) (accepted : Asm.fixupWord pc here f = some w) :
    w < 2 ^ 32 := by
  cases m <;> cases emits
  all_goals
    obtain ⟨-, word⟩ := Option.ite_none_right_eq_some.mp accepted
    cases word
  case jal => exact jalWord_lt range
  all_goals exact branchWord_lt range.1 range.2 (by decide)

end Decode

end AgilA32
