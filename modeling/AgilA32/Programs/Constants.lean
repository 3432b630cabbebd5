import AgilA32.Core.Straight
import AgilA32.Programs.St7789

/-!
# Constants of more than eleven bits

The assembler cuts the immediate of an `ADDI` to twelve bits and the core extends their sign.  So what
`load_const32` loads is the value it is given exactly when bits 11 and 23 of it are clear
(`loads_exactly`).
-/

namespace AgilA32

namespace Programs

namespace St7789

open AgilA32.Core (Fed compute readReg readReg_writeReg writeReg)
open Rv32i (decode)

/-! ## `load_const32` -/

/-- The words that `load_const32` emits. -/
def loadWords (rd value scratch : Nat) : List Nat :=
  (loadMethods rd value scratch).filterMap fun m => m.emits.word?

/-- Methods that need no label emit their words one after the other. -/
theorem build_words {ms : List Method} (words : ∀ m ∈ ms, ∃ w, m.emits = .word w) (a : Asm) :
    ∃ a', a.build (ms.map .exec) = some a' ∧
      a'.instrs = a.instrs ++ (ms.filterMap fun m => m.emits.word?).map some := by
  induction ms generalizing a with
  | nil => exact ⟨a, rfl, (List.append_nil _).symm⟩
  | cons m ms ih =>
      obtain ⟨w, emits⟩ := words m List.mem_cons_self
      obtain ⟨a', built, instrs⟩ := ih (fun m' member => words m' (List.mem_cons_of_mem _ member)) (a.exec m)
      refine ⟨a', ?_, ?_⟩
      · rw [List.map_cons, Asm.build_cons]
        exact built
      · rw [instrs, Asm.exec, emits, Asm.emit, List.append_assoc,
          List.filterMap_cons_some (b := w) (by rw [emits]; rfl)]
        rfl

theorem decodes_words {ms : List Method} (words : ∀ m ∈ ms, (∃ w, m.emits = .word w) ∧ m.InRange) :
    List.Forall₂ (fun w i => decode w = some i)
      ((ms.filterMap fun m => m.emits.word?).map (.ofNat 32)) (ms.map (·.instr 0)) := by
  induction ms with
  | nil => exact .nil
  | cons m ms ih =>
      obtain ⟨⟨w, emits⟩, range⟩ := words m List.mem_cons_self
      rw [List.filterMap_cons_some (b := w) (by rw [emits]; rfl)]
      exact .cons (Method.decode_word emits range 0)
        (ih fun m' member => words m' (List.mem_cons_of_mem _ member))

section Load

variable {rd scratch value : Nat} (rd_pos : 0 < rd) (rd_lt : rd < 32) (scratch_pos : 0 < scratch)
  (scratch_lt : scratch < 32) (distinct : rd ≠ scratch) (small : value < 1 <<< 24)

include rd_lt scratch_lt small in
theorem loadMethods_words : ∀ m ∈ loadMethods rd value scratch, (∃ w, m.emits = .word w) ∧ m.InRange := by
  obtain ⟨lo, hi⟩ := parts_lt small
  obtain ⟨above, below⟩ := signed_range lo
  obtain ⟨above', below'⟩ := signed_range hi
  intro m member
  rcases List.mem_cons.mp member with rfl | member
  · exact ⟨⟨_, rfl⟩, rd_lt, by omega, above, below⟩
  split at member
  · simp only [List.mem_cons, List.not_mem_nil, or_false] at member
    rcases member with rfl | rfl | rfl
    · exact ⟨⟨_, rfl⟩, scratch_lt, by omega, above', below'⟩
    · exact ⟨⟨_, rfl⟩, scratch_lt, scratch_lt, by omega⟩
    · exact ⟨⟨_, rfl⟩, rd_lt, rd_lt, scratch_lt⟩
  · cases member

theorem shiftLeft_twelve (v : Int) : BitVec.ofInt 32 v <<< 12 = .ofInt 32 (4096 * v) := by
  refine BitVec.eq_of_toNat_eq ?_
  rw [BitVec.toNat_shiftLeft, BitVec.toNat_ofInt, BitVec.toNat_ofInt, Nat.shiftLeft_eq]
  omega

/-- A register that is not `x0`, and another one. -/
theorem register_ne {m n : Nat} (m_lt : m < 32) (n_lt : n < 32) (apart : m ≠ n) :
    BitVec.ofNat 5 m ≠ .ofNat 5 n := by
  intro same
  have value := congrArg BitVec.toNat same
  rw [BitVec.toNat_ofNat, BitVec.toNat_ofNat] at value
  omega

include rd_pos rd_lt scratch_pos scratch_lt distinct in
/-- The sum that the code leaves in the register. -/
theorem compute_load (x : RegFile) :
    ∃ y, ((loadMethods rd value scratch).map (·.instr 0)).foldlM compute x = some y ∧
      readReg y (.ofNat 5 rd) =
        .ofInt 32 (signed (value &&& 0xFFF) + (4096 : Int) * signed (value >>> 12)) := by
  have rd_ne : BitVec.ofNat 5 rd ≠ .ofNat 5 0 := register_ne rd_lt (by omega) rd_pos.ne'
  have scratch_ne : BitVec.ofNat 5 scratch ≠ .ofNat 5 0 := register_ne scratch_lt (by omega) scratch_pos.ne'
  have apart := register_ne rd_lt scratch_lt distinct
  rw [loadMethods]
  by_cases high : value >>> 12 = 0
  · rw [if_neg (not_not.mpr high), high]
    refine ⟨_, rfl, ?_⟩
    rw [readReg_writeReg, if_pos ⟨rfl, rd_ne⟩]
    change (0 : BitVec 32) + .ofInt 32 (signed (value &&& 0xFFF)) = .ofInt 32 (_ + 0)
    rw [load_eq, Int.add_zero]
  · rw [if_pos high]
    refine ⟨_, rfl, ?_⟩
    rw [readReg_writeReg, if_pos ⟨rfl, rd_ne⟩, readReg_writeReg, if_neg fun same => apart same.1,
      readReg_writeReg, if_neg fun same => apart same.1, readReg_writeReg, if_pos ⟨rfl, rd_ne⟩,
      readReg_writeReg, if_pos ⟨rfl, scratch_ne⟩, readReg_writeReg, if_pos ⟨rfl, scratch_ne⟩]
    change (0#32 + BitVec.ofInt 32 (signed (value &&& 0xFFF))) +
      (0#32 + BitVec.ofInt 32 (signed (value >>> 12))) <<< (12 : Nat) = _
    rw [BitVec.zero_add, BitVec.zero_add, shiftLeft_twelve, BitVec.ofInt_add]

include small in
/-- The signs of the two parts, taken together. -/
theorem signed_parts : BitVec.ofInt 32 (signed (value &&& 0xFFF) + (4096 : Int) * signed (value >>> 12)) =
    .ofNat 32 value ↔ value.testBit 11 = false ∧ value.testBit 23 = false := by
  rw [Nat.shiftLeft_eq] at small
  rw [Nat.testBit_eq_decide_div_mod_eq, Nat.testBit_eq_decide_div_mod_eq, decide_eq_false_iff_not,
    decide_eq_false_iff_not, ← BitVec.toNat_inj, BitVec.toNat_ofInt, BitVec.toNat_ofNat, signed, signed,
    Nat.and_two_pow_sub_one_eq_mod value 12, Nat.shiftRight_eq_div_pow]
  split <;> split <;> omega

include rd_pos rd_lt scratch_pos scratch_lt distinct small in
/-- What the words leave in the register. -/
theorem Fed.loads {r : Clocked.Run Core.step} {t t' : Nat}
    (fed : Fed r t ((loadWords rd value scratch).map (.ofNat 32)) t') :
    readReg (r.state t').regs (.ofNat 5 rd) =
      .ofInt 32 (signed (value &&& 0xFFF) + (4096 : Int) * signed (value >>> 12)) := by
  obtain ⟨y, computed, result⟩ := compute_load rd_pos rd_lt scratch_pos scratch_lt distinct (r.state t).regs
  rw [fed.regs (decodes_words (loadMethods_words rd_lt scratch_lt small)) computed]
  exact result

include rd_pos rd_lt scratch_pos scratch_lt distinct small in
/-- `load_const32` emits its words, and the core, given these, ends up with the value in `rd` if and only
if bits 11 and 23 of the value are clear. -/
theorem loads_exactly (p : PagedAsm) : ∃ p', p.run (loadConst32 rd value scratch) = some p' ∧
    p'.cur.instrs = p.cur.instrs ++ (loadWords rd value scratch).map some ∧
    ∀ (r : Clocked.Run Core.step) (t t' : Nat),
      Fed r t ((loadWords rd value scratch).map (.ofNat 32)) t' →
      (readReg (r.state t').regs (.ofNat 5 rd) = .ofNat 32 value ↔
        value.testBit 11 = false ∧ value.testBit 23 = false) := by
  obtain ⟨cur, built, instrs⟩ := build_words
    (fun m member => (loadMethods_words rd_lt scratch_lt small m member).1) p.cur
  refine ⟨{ p with cur := cur }, ?_, instrs, fun r t t' fed => ?_⟩
  · rw [run_loadConst32 small, PagedAsm.run_page, built]
    rfl
  · rw [Fed.loads rd_pos rd_lt scratch_pos scratch_lt distinct small fed]
    exact signed_parts small

end Load

/-- The core, running what `load_const32` emits for a pixel count. -/
def pixelRun (value : Nat) : Clocked.Run Core.step :=
  .ofInputs Core.step Core.zeroed fun u =>
    { ready := true, rdata := ((loadWords 5 value 8).map (.ofNat 32)).getD (u / 7) 0 }

theorem stall_ready (value a : Nat) : Core.Stall (pixelRun value) a 0 :=
  ⟨fun k before => (Nat.not_lt_zero k before).elim, rfl⟩

/-- The 57600 pixels of a 240x240 panel. -/
theorem loads_exactly_square : (∃ p', (PagedAsm.default 30).run (loadConst32 5 57600 8) = some p') ∧
    readReg ((pixelRun 57600).state 28).regs 5 = 57600#32 := by
  obtain ⟨p', run, -, loads⟩ := @loads_exactly 5 8 57600 (by decide) (by decide) (by decide)
    (by decide) (by decide) (by decide) (PagedAsm.default 30)
  have fed : Fed (pixelRun 57600) 0 ((loadWords 5 57600 8).map (.ofNat 32)) 28 :=
    .cons rfl (stall_ready ..) rfl (stall_ready ..) <| .cons rfl (stall_ready ..) rfl (stall_ready ..) <|
    .cons rfl (stall_ready ..) rfl (stall_ready ..) <| .cons rfl (stall_ready ..) rfl (stall_ready ..) <|
    .nil rfl
  exact ⟨⟨p', run⟩, (loads _ 0 28 fed).mpr ⟨by decide, by decide⟩⟩

/-- Of the 76800 pixels of a 240x320 panel, 4096 are lost. -/
theorem pixels_lost : ¬∀ rd scratch value : Nat, 0 < rd → rd < 32 → 0 < scratch → scratch < 32 →
    rd ≠ scratch → value < 1 <<< 24 → ∀ (r : Clocked.Run Core.step) (t t' : Nat),
      Fed r t ((loadWords rd value scratch).map (.ofNat 32)) t' →
      readReg (r.state t').regs (.ofNat 5 rd) = .ofNat 32 value := by
  intro all
  have fed : Fed (pixelRun 76800) 0 ((loadWords 5 76800 8).map (.ofNat 32)) 28 :=
    .cons rfl (stall_ready ..) rfl (stall_ready ..) <| .cons rfl (stall_ready ..) rfl (stall_ready ..) <|
    .cons rfl (stall_ready ..) rfl (stall_ready ..) <| .cons rfl (stall_ready ..) rfl (stall_ready ..) <|
    .nil rfl
  have loaded := @Fed.loads 5 8 76800 (by decide) (by decide) (by decide) (by decide) (by decide) (by decide)
    _ 0 28 fed
  have whole := all 5 8 76800 (by decide) (by decide) (by decide) (by decide) (by decide) (by decide) _ 0 28
    fed
  exact absurd (loaded.symm.trans whole) (by decide)

end St7789

end Programs

end AgilA32
