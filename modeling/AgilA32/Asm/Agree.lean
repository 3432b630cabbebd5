import AgilA32.Asm.Layout
import AgilA32.Board.Instruction

/-!
# Assembler and core agree

`assembler_agrees` is about any program the assembler accepts: each of its words is, to the core, the
instruction that was asked for, every jump and taken branch lands on its label, and the bytes made from
the words are the words again when the core fetches them.
-/

namespace AgilA32

open Asm (methods)
open AgilA32.Core (hart readReg isEbreak dataAccess nextPcOf writeBack aluY toAccess)
open Rv32i (Instr BranchOp decode)

/-- What the core computes from the word `w`, whatever its state, is what the instruction `i` does. -/
structure Core.Selects (w : BitVec 32) (i : Instr) : Prop where
  halts : isEbreak w = true ↔ i = .ebreak
  access : ∀ pc regs, dataAccess w regs = (i.memReq (hart pc regs)).map toAccess
  nextPc : i ≠ .ebreak → ∀ pc regs v, nextPcOf w pc regs = (i.exec (hart pc regs) v).pc.setWidth 8
  result : i ≠ .ebreak → ∀ pc regs v, writeBack w pc (aluY w regs) v regs = (i.exec (hart pc regs) v).x

theorem Core.selects_of_decode {w : BitVec 32} {i : Instr} (decoded : decode w = some i) :
    Core.Selects w i where
  halts := isEbreak_iff decoded
  access pc regs := dataAccess_eq pc regs decoded
  nextPc live pc regs v := nextPcOf_eq pc regs v decoded live
  result live pc regs v := writeBack_eq pc regs v decoded live

namespace Method

/-- Whether a branch is taken or the method is a jump, with these registers. -/
def Jumps (regs : RegFile) : Method → Prop
  | .beq rs1 rs2 _ => BranchOp.beq.taken (readReg regs (.ofNat 5 rs1)) (readReg regs (.ofNat 5 rs2))
  | .bne rs1 rs2 _ => BranchOp.bne.taken (readReg regs (.ofNat 5 rs1)) (readReg regs (.ofNat 5 rs2))
  | .blt rs1 rs2 _ => BranchOp.blt.taken (readReg regs (.ofNat 5 rs1)) (readReg regs (.ofNat 5 rs2))
  | .bge rs1 rs2 _ => BranchOp.bge.taken (readReg regs (.ofNat 5 rs1)) (readReg regs (.ofNat 5 rs2))
  | .bltu rs1 rs2 _ => BranchOp.bltu.taken (readReg regs (.ofNat 5 rs1)) (readReg regs (.ofNat 5 rs2))
  | .bgeu rs1 rs2 _ => BranchOp.bgeu.taken (readReg regs (.ofNat 5 rs1)) (readReg regs (.ofNat 5 rs2))
  | .jal _ _ => True
  | _ => False

/-- A jump or taken branch moves the program counter by its offset. -/
theorem instr_jumps {m : Method} {regs : RegFile} (jumps : m.Jumps regs) (off : Int) (pc : BitVec 8)
    (v : BitVec 32) : ((m.instr off).exec (hart pc regs) v).pc = pc.setWidth 32 + .ofInt 32 off ∧
      m.instr off ≠ .ebreak := by
  cases m <;> try exact jumps.elim
  case jal => exact ⟨rfl, by simp [instr]⟩
  all_goals exact ⟨if_pos jumps, by simp [instr]⟩

end Method

/-- The target of a jump from `here`, on eight bits. -/
theorem jump_target (here there : Int) :
    ((BitVec.ofInt 8 here).setWidth 32 + BitVec.ofInt 32 (there - here)).setWidth 8 =
      BitVec.ofInt 8 there := by
  have low (i : Int) : (BitVec.ofInt 32 i).setWidth 8 = BitVec.ofInt 8 i := by
    apply BitVec.eq_of_toNat_eq
    rw [BitVec.toNat_setWidth, BitVec.toNat_ofInt, BitVec.toNat_ofInt]
    omega
  rw [BitVec.setWidth_add _ _ (by omega), BitVec.setWidth_setWidth_of_le _ (by omega), low,
    BitVec.setWidth_eq, ← BitVec.ofInt_add]
  congr 1
  omega

/-- The bytes of a program, fetched a word at a time: from flash, and from on-chip RAM. -/
structure Fetches (bytes : List (BitVec 8)) (i : Nat) (w : BitVec 32) : Prop where
  flash : ∀ (mem : BitVec 14 → BitVec 8) (n : Nat),
    (∀ k b, bytes[k]? = some b → mem (.ofNat 14 (n + k)) = b) → SpiRam.wordAt mem (n + 4 * i) = w
  ram : ∀ (r : Clocked.Run Top.step) (t : Nat) (a : Top.Arch) (n : Nat), Top.At r t a →
    a.mem.flashMode = false → 180 ≤ a.pc.toNat → a.pc.toNat + 3 < 224 →
    (∀ k b, bytes[k]? = some b → a.mem.ramByte (n + k) = b) → a.pc.toNat - 176 = n + 4 * i →
    Top.word r t = w

/-- The core reads back from `words_to_bytes` the words that went in. -/
theorem wordsToBytes_fetches {words : List Nat} (short : ∀ w ∈ words, w < 2 ^ 32) :
    ∃ bytes, wordsToBytes words = some bytes ∧ bytes.length = 4 * words.length ∧
      ∀ i w, words[i]? = some w → Fetches bytes i (.ofNat 32 w) := by
  obtain ⟨length, content⟩ := flatMap_wordToBytes words
  refine ⟨_, if_pos (by simpa using short), length, fun i w here => ⟨fun mem n holds => ?_,
    fun r t a n start mode above below holds pc => ?_⟩⟩
  · rw [← ofBytes_word, SpiRam.wordAt]
    refine Verilog.eq_of_byteAt (c := 4) rfl fun j within => ?_
    rw [Verilog.byteAt_ofBytes _ within, Verilog.byteAt_ofBytes _ within, Nat.add_assoc]
    exact holds _ _ (content i w here j within)
  · rw [← ofBytes_word]
    refine Verilog.eq_of_byteAt (c := 4) rfl fun j within => ?_
    rw [(start.ram_word mode above below).2 j within, Verilog.byteAt_ofBytes _ within, pc,
      Nat.add_assoc]
    exact holds _ _ (content i w here j within)

/-- A program that `finalize` accepts, of any instruction methods with operands in range and any
labels.  Word `i` decodes to the instruction the `i`-th method names, with its operands, and selects
it in the core.  A branch or jump names a label of the program, and when it is taken at its own
address, `base + 4 * i`, the program counter becomes the label's address, modulo 256.  The words make
up bytes from which the core fetches the same words. -/
theorem assembler_agrees (base : Int) (calls : List Asm.Call) (a : Asm) (words : List Nat)
    (inRange : ∀ m, .exec m ∈ calls → m.InRange)
    (built : (Asm.new base).build calls = some a) (accepted : a.finalize = some words) :
    words.length = (methods calls).length ∧
    (∀ (i : Nat) m, (methods calls)[i]? = some m → ∃ w off, words[i]? = some w ∧
      decode (.ofNat 32 w) = some (m.instr off) ∧ Core.Selects (.ofNat 32 w) (m.instr off) ∧
      ∀ name, m.target = some name → (∃ pre post, calls = pre ++ .label name :: post) ∧
        ∀ pre post, calls = pre ++ .label name :: post → ∀ regs, m.Jumps regs →
          nextPcOf (.ofNat 32 w) (.ofInt 8 (base + 4 * i)) regs =
            .ofInt 8 (base + 4 * (methods pre).length)) ∧
    ∃ bytes, wordsToBytes words = some bytes ∧ bytes.length = 4 * words.length ∧
      ∀ i w, words[i]? = some w → Fetches bytes i (.ofNat 32 w) := by
  have state := Asm.built_of_build built
  obtain ⟨length, entries⟩ := state.finalize accepted
  rw [List.length_map] at length
  simp only [List.getElem?_map, Option.map_eq_some_iff, forall_exists_index, and_imp,
    forall_apply_eq_imp_iff₂] at entries
  refine ⟨length, fun i m here => ?_, wordsToBytes_fetches fun w member => ?_⟩
  · obtain ⟨w, there, word⟩ := entries i m here
    have range : m.InRange := inRange m (Asm.mem_methods.mp (List.mem_of_getElem? here))
    rcases word with emits | ⟨f, addr, emits, found, word⟩
    · have decoded := Method.decode_word emits range 0
      refine ⟨w, 0, there, decoded, Core.selects_of_decode decoded, fun name targets => ?_⟩
      rw [Method.target_of_word emits] at targets
      cases targets
    · have decoded := Method.decode_fixup emits range word
      refine ⟨w, _, there, decoded, Core.selects_of_decode decoded, fun name targets => ?_⟩
      rw [Method.target_of_fixup emits] at targets
      cases targets
      refine ⟨Asm.set_of_lookup built found, fun pre post split regs jumps => ?_⟩
      obtain rfl := Option.some.inj (found.symm.trans (Asm.lookup_of_set built split))
      obtain ⟨pc, live⟩ := Method.instr_jumps jumps
        (base + 4 * (methods pre).length - (base + 4 * i)) (.ofInt 8 (base + 4 * i)) 0
      rw [Core.nextPcOf_eq _ _ 0 decoded live, pc, jump_target]
  · obtain ⟨i, within, rfl⟩ := List.getElem_of_mem member
    have inside : i < (methods calls).length := length ▸ within
    obtain ⟨w, there, word⟩ := entries i _ (List.getElem?_eq_getElem inside)
    have range := inRange _ (Asm.mem_methods.mp (List.getElem_mem inside))
    rw [List.getElem?_eq_getElem within] at there
    cases there
    rcases word with emits | ⟨f, addr, emits, -, word⟩
    · exact Method.word_lt emits range.regs
    · exact Method.fixup_lt emits range.regs word

/-- Polls an input until its bit 3 is low, and halts. -/
def pollCalls : List Asm.Call :=
  [.label "POLL", .exec (.lbu 1 0 0xF4), .exec (.andi 2 1 8), .exec (.bne 2 0 "POLL"),
    .exec (.jal 0 "END"), .label "END", .exec .ebreak]

/-- Its branch at `0xBC` goes back to `0xB4` while the bit is high, and its jump on to `0xC4`. -/
theorem assembler_agrees_poll : ∃ a words, (Asm.new 0xB4).build pollCalls = some a ∧
    a.finalize = some words ∧
      (∃ w, words[2]? = some w ∧ nextPcOf (.ofNat 32 w) 0xBC (fun _ => 8#32) = 0xB4) ∧
      ∃ w, words[3]? = some w ∧ nextPcOf (.ofNat 32 w) 0xC0 (fun _ => 8#32) = 0xC4 := by
  have built : ∃ a, (Asm.new 0xB4).build pollCalls = some a := ⟨_, rfl⟩
  obtain ⟨a, built⟩ := built
  have accepted : ∃ words, a.finalize = some words := by
    cases built
    exact ⟨_, rfl⟩
  obtain ⟨words, accepted⟩ := accepted
  have inRange : ∀ m, Asm.Call.exec m ∈ pollCalls → m.InRange := by
    intro m member
    simp only [pollCalls, List.mem_cons, List.not_mem_nil, or_false, Asm.Call.exec.injEq, reduceCtorEq,
      false_or] at member
    rcases member with rfl | rfl | rfl | rfl | rfl <;> simp [Method.InRange]
  obtain ⟨-, words_eq, -⟩ := assembler_agrees 0xB4 pollCalls a words inRange built accepted
  obtain ⟨w, -, here, -, -, lands⟩ := words_eq 2 (.bne 2 0 "POLL") rfl
  obtain ⟨v, -, there, -, -, leaps⟩ := words_eq 3 (.jal 0 "END") rfl
  exact ⟨a, words, built, accepted, ⟨w, here, (lands "POLL" rfl).2 [] _ rfl _ rfl⟩,
    ⟨v, there, (leaps "END" rfl).2 (pollCalls.take 5) _ rfl _ trivial⟩⟩

end AgilA32
