import AgilA32.Asm.Agree

/-!
# What an assembly program means

The calls on an `Asm`, read as a program in its own right: registers go by their numbers, a jump goes to
the label it names, and the machine stands before one of the instructions (`Asm.step`).  Encodings,
offsets and the place of a word in memory do not appear.  A hart that executes the words that `finalize`
makes of the calls does what the program says, as long as it stays in the program (`Asm.preserves`).
-/

namespace Rv32i

/-- A hart that executes what it fetches, one instruction a step; `loaded` is what memory returns to a
load.  `EBREAK` is the end of it. -/
def step (fetch : Word → Word) (h : Option Hart) (loaded : Word) : Option Hart :=
  h.bind fun h => ((decode (fetch h.pc)).filter (· ≠ .ebreak)).map fun i => i.exec h loaded

def requests (fetch : Word → Word) (h : Option Hart) (_ : Word) : Option MemReq :=
  h.bind fun h => (decode (fetch h.pc)).bind fun i => i.memReq h

end Rv32i

namespace AgilA32

open AgilA32.Core (readReg writeReg)
open Rv32i (Word Hart Instr LoadOp StoreOp MemReq decode)

/-! ## Methods -/

/-- What an instruction method has the machine do. -/
inductive Effect
  | compute (rd : Nat) (value : Word)
  | load (op : LoadOp) (rd : Nat) (addr : Word)
  | store (op : StoreOp) (addr value : Word)
  | branch (taken : Bool) (target : String)
  | jump (rd : Nat) (target : String)
  | jumpTo (rd : Nat) (addr : Word)
  | halt

def truth (b : Bool) : Word := if b then 1 else 0

/-- The effect of a method on a machine with the registers `x`, at the address `here`. -/
def Method.effect (x : Nat → Word) (here : Word) : Method → Effect
  | .add rd rs1 rs2 => .compute rd (x rs1 + x rs2)
  | .sub rd rs1 rs2 => .compute rd (x rs1 - x rs2)
  | .sll rd rs1 rs2 => .compute rd (x rs1 <<< ((x rs2).toNat % 32))
  | .slt rd rs1 rs2 => .compute rd (truth ((x rs1).toInt < (x rs2).toInt))
  | .sltu rd rs1 rs2 => .compute rd (truth ((x rs1).toNat < (x rs2).toNat))
  | .xor rd rs1 rs2 => .compute rd (x rs1 ^^^ x rs2)
  | .srl rd rs1 rs2 => .compute rd (x rs1 >>> ((x rs2).toNat % 32))
  | .sra rd rs1 rs2 => .compute rd ((x rs1).sshiftRight ((x rs2).toNat % 32))
  | .or rd rs1 rs2 => .compute rd (x rs1 ||| x rs2)
  | .and rd rs1 rs2 => .compute rd (x rs1 &&& x rs2)
  | .addi rd rs1 imm => .compute rd (x rs1 + .ofInt 32 imm)
  | .slti rd rs1 imm => .compute rd (truth ((x rs1).toInt < imm))
  | .sltiu rd rs1 imm => .compute rd (truth ((x rs1).toNat < (BitVec.ofInt 32 imm).toNat))
  | .xori rd rs1 imm => .compute rd (x rs1 ^^^ .ofInt 32 imm)
  | .andi rd rs1 imm => .compute rd (x rs1 &&& .ofInt 32 imm)
  | .ori rd rs1 imm => .compute rd (x rs1 ||| .ofInt 32 imm)
  | .slli rd rs1 amount => .compute rd (x rs1 <<< amount)
  | .srli rd rs1 amount => .compute rd (x rs1 >>> amount)
  | .srai rd rs1 amount => .compute rd ((x rs1).sshiftRight amount)
  | .lb rd rs1 imm => .load .lb rd (x rs1 + .ofInt 32 imm)
  | .lh rd rs1 imm => .load .lh rd (x rs1 + .ofInt 32 imm)
  | .lw rd rs1 imm => .load .lw rd (x rs1 + .ofInt 32 imm)
  | .lbu rd rs1 imm => .load .lbu rd (x rs1 + .ofInt 32 imm)
  | .lhu rd rs1 imm => .load .lhu rd (x rs1 + .ofInt 32 imm)
  | .jalr rd rs1 imm => .jumpTo rd ((x rs1 + .ofInt 32 imm) &&& ~~~1)
  | .lui rd imm20 => .compute rd (.ofInt 32 (imm20 * 4096))
  | .auipc rd imm20 => .compute rd (here + .ofInt 32 (imm20 * 4096))
  | .sb rs2 rs1 imm => .store .sb (x rs1 + .ofInt 32 imm) (x rs2)
  | .sw rs2 rs1 imm => .store .sw (x rs1 + .ofInt 32 imm) (x rs2)
  | .sh rs2 rs1 imm => .store .sh (x rs1 + .ofInt 32 imm) (x rs2)
  | .beq rs1 rs2 target => .branch (x rs1 = x rs2) target
  | .bne rs1 rs2 target => .branch (x rs1 ≠ x rs2) target
  | .blt rs1 rs2 target => .branch ((x rs1).toInt < (x rs2).toInt) target
  | .bge rs1 rs2 target => .branch ((x rs2).toInt ≤ (x rs1).toInt) target
  | .bltu rs1 rs2 target => .branch ((x rs1).toNat < (x rs2).toNat) target
  | .bgeu rs1 rs2 target => .branch ((x rs2).toNat ≤ (x rs1).toNat) target
  | .ebreak => .halt
  | .jal rd target => .jump rd target

namespace Effect

/-- The access to memory. -/
def memReq : Effect → Option MemReq
  | .load op _ addr => some (.load op.width addr)
  | .store op addr value => some (.store op.width addr value)
  | _ => none

/-- The effect on a hart, whose target is `off` away. -/
def onHart (h : Hart) (off loaded : Word) : Effect → Hart
  | .compute rd value => (h.set (.ofNat 5 rd) value).goto (h.pc + 4)
  | .load op rd _ => (h.set (.ofNat 5 rd) (op.extend loaded)).goto (h.pc + 4)
  | .store .. => h.goto (h.pc + 4)
  | .branch taken _ => h.goto (if taken then h.pc + off else h.pc + 4)
  | .jump rd _ => (h.set (.ofNat 5 rd) (h.pc + 4)).goto (h.pc + off)
  | .jumpTo rd addr => (h.set (.ofNat 5 rd) (h.pc + 4)).goto addr
  | .halt => h

end Effect

section Instruction

variable {m : Method}

/-- The registers of a hart, by number. -/
def numbered (h : Hart) (n : Nat) : Word := h.get (.ofNat 5 n)

theorem toInt_imm {imm : Int} (above : -2048 ≤ imm) (below : imm < 2048) :
    (BitVec.ofInt 32 imm).toInt = imm := by
  rw [BitVec.toInt_ofInt]
  exact Int.bmod_eq_of_le (by omega) (by omega)

theorem upper_imm (imm20 : Int) : BitVec.ofInt 20 imm20 ++ 0#12 = BitVec.ofInt 32 (imm20 * 4096) := by
  refine BitVec.eq_of_toNat_eq ?_
  rw [BitVec.toNat_append, BitVec.toNat_ofInt, BitVec.toNat_ofInt, BitVec.toNat_ofNat, Nat.shiftLeft_eq]
  simp
  omega

theorem toNat_amount {amount : Nat} (small : amount < 32) : (BitVec.ofNat 32 amount).toNat % 32 = amount := by
  rw [BitVec.toNat_ofNat]
  omega

/-- The instruction that a method is named after has its effect. -/
theorem Method.exec_instr (range : m.InRange) (off : Int) (h : Hart) (loaded : Word) :
    (m.instr off).exec h loaded = (m.effect (numbered h) h.pc).onHart h (.ofInt 32 off) loaded := by
  cases m
  case slti rd rs1 imm =>
    change (h.set _ (if (h.get _).slt (.ofInt 32 imm) then 1 else 0)).goto _ = _
    rw [BitVec.slt, toInt_imm range.2.2.1 range.2.2.2]
    rfl
  case slli | srli | srai =>
    simp only [instr, Instr.exec, Rv32i.AluOp.eval, toNat_amount range.2.2]
    rfl
  case lui | auipc =>
    simp only [instr, Instr.exec, upper_imm]
    rfl
  case bne rs1 rs2 target =>
    have taken : (h.get (.ofNat 5 rs1) != h.get (.ofNat 5 rs2)) =
        decide (h.get (.ofNat 5 rs1) ≠ h.get (.ofNat 5 rs2)) := (decide_not ..).symm
    change h.goto (if (_ != _) = true then _ else _) = _
    rw [taken]
    rfl
  all_goals rfl

theorem Method.memReq_instr (off : Int) (h : Hart) :
    (m.instr off).memReq h = (m.effect (numbered h) h.pc).memReq := by
  cases m <;> rfl

theorem Method.instr_eq_ebreak (off : Int) {x : Nat → Word} {here : Word} :
    m.instr off = .ebreak ↔ m.effect x here = .halt := by
  cases m <;> simp [instr, effect]

end Instruction

/-! ## Programs -/

namespace Asm

/-- Before which instruction of a program the machine stands, and its registers. -/
structure Spot where
  pos : Nat
  x : RegFile

def Spot.reg (s : Spot) (n : Nat) : Word := readReg s.x (.ofNat 5 n)

/-- The instruction that a label stands before. -/
def position (calls : List Call) (name : String) : Option Nat :=
  if .label name ∈ calls then some (labelIndex calls name) else none

/-- The address of an instruction. -/
def address (base : Int) (k : Nat) : Word := .ofInt 32 (base + 4 * k)

/-- The instruction at an address. -/
def find (base : Int) (calls : List Call) (addr : Word) : Option Nat :=
  (List.range ((methods calls).length + 1)).find? fun k => address base k = addr

/-- Where a jump or a label leads in a program. -/
structure Targets where
  label : String → Option Nat
  find : Word → Option Nat

end Asm

/-- The machine after an effect; `loaded` is what memory returns to a load. -/
def Effect.apply (base : Int) (targets : Asm.Targets) (s : Asm.Spot) (loaded : Word) :
    Effect → Option Asm.Spot
  | .compute rd value => some ⟨s.pos + 1, writeReg s.x (.ofNat 5 rd) value⟩
  | .load op rd _ => some ⟨s.pos + 1, writeReg s.x (.ofNat 5 rd) (op.extend loaded)⟩
  | .store .. => some ⟨s.pos + 1, s.x⟩
  | .branch taken target =>
      if taken then (targets.label target).map (⟨·, s.x⟩) else some ⟨s.pos + 1, s.x⟩
  | .jump rd target =>
      (targets.label target).map (⟨·, writeReg s.x (.ofNat 5 rd) (Asm.address base (s.pos + 1))⟩)
  | .jumpTo rd addr =>
      (targets.find addr).map (⟨·, writeReg s.x (.ofNat 5 rd) (Asm.address base (s.pos + 1))⟩)
  | .halt => none

namespace Asm

variable (base : Int) (calls : List Call)

/-- What the next instruction does. -/
def doing (s : Spot) : Option Effect :=
  (methods calls)[s.pos]?.map fun m => m.effect s.reg (address base s.pos)

/-- One instruction of a program; there is no next one after `EBREAK`, and none outside the program. -/
def step (s : Option Spot) (loaded : Word) : Option Spot :=
  s.bind fun s => (doing base calls s).bind fun e =>
    e.apply base ⟨position calls, find base calls⟩ s loaded

def requests (s : Option Spot) (_ : Word) : Option MemReq :=
  s.bind fun s => (doing base calls s).bind Effect.memReq

variable {base calls}

/-- The address that the assembler gives a label. -/
theorem lookup_eq {a : Asm} (built : (Asm.new base).build calls = some a) (name : String) :
    a.labels.lookup name = (position calls name).map fun k : Nat => base + 4 * (k : Int) := by
  rw [position]
  split
  case isTrue member =>
    obtain ⟨pre, post, set⟩ := List.append_of_mem member
    obtain ⟨rest, split⟩ := split_takeWhile set
    exact lookup_of_set built split
  case isFalse absent =>
    refine Option.eq_none_iff_forall_ne_some.mpr fun here set => absent ?_
    obtain ⟨pre, post, split⟩ := set_of_lookup built set
    rw [split]
    exact List.mem_append_right _ List.mem_cons_self

theorem address_add (here there : Int) :
    BitVec.ofInt 32 here + BitVec.ofInt 32 (there - here) = BitVec.ofInt 32 there := by
  rw [← BitVec.ofInt_add]
  congr 1
  omega

theorem address_succ (base : Int) (k : Nat) : address base k + 4 = address base (k + 1) := by
  have sum := address_add (base + 4 * k) (base + 4 * (k + 1 : Nat))
  rwa [show base + 4 * ((k + 1 : Nat) : Int) - (base + 4 * k) = 4 by omega] at sum

theorem toNat_address (base : Int) (k : Nat) (above : 0 ≤ base) (small : base + 4 * k < 2 ^ 32) :
    ((address base k).toNat : Int) = base + 4 * k := by
  rw [address, BitVec.toNat_ofInt]
  omega

/-- The addresses of the window fit in the program counter. -/
theorem address_small {k : Nat} (inside : k < 19) : (address 0xB4 k).toNat < 256 := by
  have := toNat_address 0xB4 k (by decide) (by omega)
  omega

/-- The `k`-th instruction of the window stands at `0xB4 + 4 * k`, in the low eight bits of its address. -/
theorem address_low (k : Nat) : (address 0xB4 k).setWidth 8 = .ofNat 8 (0xB4 + 4 * k) := by
  refine BitVec.eq_of_toNat_eq ?_
  rw [BitVec.toNat_setWidth, address, BitVec.toNat_ofInt, BitVec.toNat_ofNat]
  omega

/-- The label of a jump is as far away as the assembler computes. -/
theorem address_distance {m : Method} {name : String} (targets : m.target = some name) {j k : Nat}
    (there : position calls name = some k) :
    address base j + .ofInt 32 (distance calls j m) = address base k := by
  obtain ⟨-, there⟩ := Option.ite_none_right_eq_some.mp there
  cases there
  have sum := address_add (base + 4 * j) (base + 4 * labelIndex calls name)
  rw [distance, targets]
  rwa [show base + 4 * (labelIndex calls name : Int) - (base + 4 * j) =
    4 * labelIndex calls name - 4 * j by omega] at sum

end Asm

namespace Effect

/-- The label that a jump goes to. -/
def target : Effect → Option String
  | .branch _ target | .jump _ target => some target
  | _ => none

theorem set_eq (h : Hart) (r : Rv32i.Reg) (v : Word) : (h.set r v).x = writeReg h.x r v := h.set_x r v

/-- The effect on a hart is the effect in the program, as far as `view` shows an address. -/
theorem apply_onHart {α : Type} (view : Word → α) (h : Hart) (off : Word) {base : Int}
    {targets : Asm.Targets} {s s' : Asm.Spot} {loaded : Word} {e : Effect} (pc : h.pc = Asm.address base s.pos) (x : h.x = s.x)
    (labels : ∀ name k, e.target = some name → targets.label name = some k →
      h.pc + off = Asm.address base k)
    (finds : ∀ addr k, targets.find addr = some k → view addr = view (Asm.address base k))
    (done : e.apply base targets s loaded = some s') :
    view (e.onHart h off loaded).pc = view (Asm.address base s'.pos) ∧
      (e.onHart h off loaded).x = s'.x := by
  have next : h.pc + 4 = Asm.address base (s.pos + 1) := by rw [pc, Asm.address_succ]
  cases e with
  | compute rd value =>
      cases done
      exact ⟨congrArg view next, by rw [← x]; exact set_eq ..⟩
  | load op rd addr =>
      cases done
      exact ⟨congrArg view next, by rw [← x]; exact set_eq ..⟩
  | store op addr value =>
      cases done
      exact ⟨congrArg view next, x⟩
  | branch taken name =>
      cases taken with
      | false =>
          cases done
          exact ⟨congrArg view next, x⟩
      | true =>
          obtain ⟨k, there, rfl⟩ := Option.map_eq_some_iff.mp done
          exact ⟨congrArg view (labels name k rfl there), x⟩
  | jump rd name =>
      obtain ⟨k, there, rfl⟩ := Option.map_eq_some_iff.mp done
      refine ⟨congrArg view (labels name k rfl there), ?_⟩
      rw [← next, ← x]
      exact set_eq ..
  | jumpTo rd addr =>
      obtain ⟨k, there, rfl⟩ := Option.map_eq_some_iff.mp done
      refine ⟨finds addr k there, ?_⟩
      rw [← next, ← x]
      exact set_eq ..
  | halt => cases done

end Effect

theorem Method.target_effect {m : Method} (x : Nat → Word) (here : Word) :
    (m.effect x here).target = m.target := by
  cases m <;> rfl

/-! ## The words of a program -/

namespace Asm

section Words

variable {base : Int} {calls : List Call} {a : Asm} {words : List Nat}
  (inRange : ∀ m, .exec m ∈ calls → m.InRange) (built : (Asm.new base).build calls = some a)
  (accepted : a.finalize = some words)
include inRange built accepted

/-- The word that `finalize` gives for a method decodes to the method's instruction. -/
theorem decode_method {k : Nat} {m : Method} (here : (methods calls)[k]? = some m) :
    ∃ w, words[k]? = some w ∧ decode (.ofNat 32 w) = some (m.instr (distance calls k m)) := by
  have listed : (listing calls)[k]? = some (m.instr (distance calls k m)) := by
    rw [getElem?_listing, here]
    rfl
  have state := built_of_build built
  rw [← List.append_nil ((methods calls).map Method.emits)] at state
  obtain ⟨w, there, -, decoded⟩ := listing_decodes inRange built state rfl accepted k listed
  exact ⟨w, there, decoded⟩

variable {fetch : Word → Word} (held : ∀ (k : Nat) w, words[k]? = some w → fetch (address base k) = .ofNat 32 w)
include held

/-- What is fetched where the program has a method. -/
theorem fetch_method {k : Nat} {m : Method} (here : (methods calls)[k]? = some m) :
    decode (fetch (address base k)) = some (m.instr (distance calls k m)) := by
  obtain ⟨w, there, decoded⟩ := decode_method inRange built accepted here
  rw [held k w there, decoded]

/-- One step of the program and one of the hart. -/
theorem step_hart {s s' : Spot} {loaded : Word} (done : step base calls (some s) loaded = some s') :
    Rv32i.step fetch (some ⟨address base s.pos, s.x⟩) loaded = some ⟨address base s'.pos, s'.x⟩ ∧
      Rv32i.requests fetch (some ⟨address base s.pos, s.x⟩) loaded =
        requests base calls (some s) loaded := by
  rw [step, Option.bind_some] at done
  obtain ⟨e, doing_e, done⟩ := Option.bind_eq_some_iff.mp done
  obtain ⟨m, here, rfl⟩ := Option.map_eq_some_iff.mp doing_e
  have fetched := fetch_method inRange built accepted held here
  have running : m.instr (distance calls s.pos m) ≠ .ebreak := by
    intro stops
    rw [(Method.instr_eq_ebreak _).mp stops] at done
    cases done
  have range : m.InRange := inRange m (mem_methods.mp (List.mem_of_getElem? here))
  have moved := Effect.apply_onHart id ⟨address base s.pos, s.x⟩ (.ofInt 32 (distance calls s.pos m)) rfl rfl
    (fun name k targets there => ?_) (fun addr k found => ?_) done
  · constructor
    · have exec := Method.exec_instr range (distance calls s.pos m) ⟨address base s.pos, s.x⟩ loaded
      rw [Rv32i.step, Option.bind_some, fetched, Option.filter_some_pos (by simpa using running),
        Option.map_some, exec]
      exact congrArg some (congrArg₂ Hart.mk moved.1 moved.2)
    · rw [Rv32i.requests, Option.bind_some, fetched, Option.bind_some, Method.memReq_instr, requests,
        Option.bind_some, doing_e, Option.bind_some]
      rfl
  · rw [Method.target_effect] at targets
    exact address_distance targets there
  · have found : (List.range ((methods calls).length + 1)).find? (fun k => address base k = addr) =
        some k := found
    have same := List.find?_some found
    exact (of_decide_eq_true same).symm

/-- The program and the hart, step by step. -/
theorem runs_hart {r : Clocked.Run (Rv32i.step fetch)} {p : Clocked.Run (step base calls)} {t : Nat}
    (inputs : ∀ n, p.input n = r.input (t + n)) {s : Spot} (first : p.state 0 = some s)
    (start : r.state t = some ⟨address base s.pos, s.x⟩) {n : Nat} {s' : Spot} (reached : p.state n = some s') :
    r.state (t + n) = some ⟨address base s'.pos, s'.x⟩ ∧
      r.observe (Rv32i.requests fetch) t n = p.observe (requests base calls) 0 n := by
  induction n generalizing s' with
  | zero =>
      rw [first] at reached
      cases reached
      exact ⟨start, rfl⟩
  | succ n ih =>
      rw [p.edge] at reached
      obtain ⟨s'', here, -⟩ := Option.bind_eq_some_iff.mp reached
      rw [here, inputs] at reached
      obtain ⟨before, shown⟩ := ih here
      obtain ⟨after, asked⟩ := step_hart inRange built accepted held reached
      constructor
      · rw [← Nat.add_assoc, r.edge, before]
        exact after
      · rw [r.observe_add, p.observe_add, shown, r.observe_one, p.observe_one, before, Nat.zero_add, here,
          inputs]
        exact congrArg (fun e => _ ++ Option.toList e) asked

end Words

/-- Any program that the assembler accepts, with operands in range, at any base.  A hart that fetches its
words and stands before one of its instructions does what the program says, for as long as that stays in
the program: it is before the same instruction, has the same registers, and makes the same accesses; and it
stops where the program says `EBREAK`. -/
theorem preserves {base : Int} {calls : List Call} {a : Asm} {words : List Nat}
    (inRange : ∀ m, .exec m ∈ calls → m.InRange) (built : (Asm.new base).build calls = some a)
    (accepted : a.finalize = some words) {fetch : Word → Word}
    (held : ∀ (k : Nat) w, words[k]? = some w → fetch (address base k) = .ofNat 32 w)
    (r : Clocked.Run (Rv32i.step fetch)) (t : Nat) (s : Spot)
    (start : r.state t = some ⟨address base s.pos, s.x⟩) :
    let p := Clocked.Run.ofInputs (step base calls) (some s) fun n => r.input (t + n)
    ∀ n s', p.state n = some s' →
      r.state (t + n) = some ⟨address base s'.pos, s'.x⟩ ∧
        r.observe (Rv32i.requests fetch) t n = p.observe (requests base calls) 0 n ∧
        ((methods calls)[s'.pos]? = some .ebreak → r.state (t + n + 1) = none) := by
  intro p n s' reached
  obtain ⟨there, shown⟩ := runs_hart inRange built accepted held (p := p) (fun _ => rfl) rfl start reached
  refine ⟨there, shown, fun last => ?_⟩
  have fetched := fetch_method inRange built accepted held last
  rw [r.edge, there, Rv32i.step, Option.bind_some, fetched]
  rfl

/-! ## The ALU test -/

def ramBase : Int := 0xC0

/-- `build_alu_test.py`. -/
def aluTest : List Call :=
  [.exec (.addi 1 0 10), .exec (.addi 2 0 3), .exec (.sub 3 1 2),
    .exec (.addi 1 0 1), .exec (.addi 2 0 4), .exec (.sll 4 1 2),
    .exec (.addi 1 0 (-1)), .exec (.addi 2 0 1), .exec (.slt 5 1 2), .exec (.sltu 6 1 2),
    .exec (.lui 1 0x80000), .exec (.addi 2 0 4), .exec (.srl 7 1 2), .exec (.sra 8 1 2),
    .exec (.addi 1 0 (-5)), .exec (.slti 9 1 0), .exec (.sltiu 10 1 1),
    .exec (.addi 1 0 0xFF), .exec (.xori 11 1 0x0F),
    .exec (.lui 1 0x80000), .exec (.srai 12 1 4),
    .exec (.addi 1 0 ramBase), .exec (.addi 2 0 (-1)), .exec (.sh 2 1 0), .exec (.lh 13 1 0),
    .exec (.lhu 14 1 0),
    .exec (.addi 2 0 (-1)), .exec (.sb 2 1 4), .exec (.lb 15 1 4), .exec (.lbu 16 1 4),
    .exec (.addi 1 0 (-1)), .exec (.addi 2 0 1), .exec (.addi 17 0 0), .exec (.bge 1 2 "SKIP1"),
    .exec (.addi 17 0 111), .label "SKIP1",
    .exec (.addi 18 0 0), .exec (.bltu 1 2 "SKIP2"), .exec (.addi 18 0 222), .label "SKIP2",
    .exec (.addi 19 0 0), .exec (.bgeu 1 2 "SKIP3"), .exec (.addi 19 0 999), .label "SKIP3",
    .exec (.addi 19 19 333),
    .label "AUIPC_TEST", .exec (.auipc 20 0),
    .label "SPIN", .exec (.jal 0 "SPIN")]

/-- A memory that shows the words of a program from address 0 on. -/
def rom (words : List Nat) (addr : Word) : Word := .ofNat 32 (words.getD (addr.toNat / 4) 0)

theorem rom_address {words : List Nat} (few : words.length < 2 ^ 30) (k : Nat) (w : Nat)
    (here : words[k]? = some w) : rom words (address 0 k) = .ofNat 32 w := by
  have within := (List.getElem?_eq_some_iff.mp here).1
  have value : (address 0 k).toNat = 4 * k := by
    have := toNat_address 0 k le_rfl (by omega)
    omega
  rw [rom, value, Nat.mul_div_cancel_left k (by omega), List.getD_eq_getElem?_getD, here, Option.getD_some]

theorem built_aluTest : ∃ a words, (Asm.new 0).build aluTest = some a ∧ a.finalize = some words ∧
    words.length = 44 := ⟨_, _, rfl, rfl, rfl⟩

theorem inRange_aluTest : ∀ m, .exec m ∈ aluTest → m.InRange := by
  simp [aluTest, ramBase, Method.InRange]

/-- What the test bench reads in `x3` to `x20`, where the RAM gives back the ones that were stored. -/
theorem preserves_aluTest : ∃ a words, (Asm.new 0).build aluTest = some a ∧ a.finalize = some words ∧
    ((Clocked.Run.ofInputs (Rv32i.step (rom words)) (some ⟨0, fun _ => 0⟩) fun _ => 0xFFFF).state 45).map
        (fun h => (List.range' 3 18).map (numbered h)) =
      some [7, 16, 1, 0, 0x08000000, 0xF8000000, 1, 0, 0xF0, 0xF8000000, 0xFFFFFFFF, 0xFFFF, 0xFFFFFFFF, 0xFF,
        111, 222, 333, 0xA8] := by
  obtain ⟨a, words, built, accepted, count⟩ := built_aluTest
  have ends : ∃ s, (Clocked.Run.ofInputs (step 0 aluTest) (some ⟨0, fun _ => 0⟩) fun _ => 0xFFFF).state 45 =
      some s ∧ (List.range' 3 18).map s.reg = [7, 16, 1, 0, 0x08000000, 0xF8000000, 1, 0, 0xF0, 0xF8000000,
        0xFFFFFFFF, 0xFFFF, 0xFFFFFFFF, 0xFF, 111, 222, 333, 0xA8] := by
    refine Option.map_eq_some_iff.mp ?_
    decide +kernel
  obtain ⟨s, reached, shown⟩ := ends
  refine ⟨a, words, built, accepted, ?_⟩
  have same := preserves inRange_aluTest built accepted (rom_address (by omega))
    (.ofInputs (Rv32i.step (rom words)) (some ⟨0, fun _ => 0⟩) fun _ => 0xFFFF) 0 ⟨0, fun _ => 0⟩ rfl 45 s reached
  rw [Nat.zero_add] at same
  rw [same.1, Option.map_some, ← shown]
  rfl

/-! ## Programs that go on for ever -/

end Asm

/-- The register that an effect sets. -/
def Effect.dest : Effect → Option Nat
  | .compute rd _ | .load _ rd _ | .jump rd _ | .jumpTo rd _ => some rd
  | _ => none

/-- An effect leaves every register but its destination as it was. -/
theorem Effect.apply_keeps {base : Int} {targets : Asm.Targets} {s s' : Asm.Spot} {loaded : Word} {e : Effect}
    (done : e.apply base targets s loaded = some s') {r : BitVec 5} (other : e.dest.map (BitVec.ofNat 5) ≠ some r) :
    s'.x r = s.x r := by
  have kept (rd : Nat) (v : Word) (other : some (BitVec.ofNat 5 rd) ≠ some r) :
      writeReg s.x (.ofNat 5 rd) v r = s.x r := by
    rw [writeReg]
    split
    · rfl
    · exact Function.update_of_ne (fun same => other (congrArg some same.symm)) _ _
  cases e with
  | compute rd value | load op rd addr =>
      cases done
      exact kept _ _ other
  | store op addr value => cases done; rfl
  | branch taken name =>
      cases taken with
      | false => cases done; rfl
      | true =>
          obtain ⟨k, -, rfl⟩ := Option.map_eq_some_iff.mp done
          rfl
  | jump rd name | jumpTo rd addr =>
      obtain ⟨k, -, rfl⟩ := Option.map_eq_some_iff.mp done
      exact kept _ _ other
  | halt => cases done

namespace Method

/-- Neither `EBREAK` nor `JALR`. -/
def goesOn : Method → Bool
  | .ebreak | .jalr .. => false
  | _ => true

/-- The next instruction, unless the method is a jump. -/
def falls (m : Method) (k : Nat) : List Nat :=
  match m with
  | .jal .. => []
  | _ => [k + 1]

/-- Where a program can be after instruction `k`. -/
def successors (label : String → Option Nat) (m : Method) (k : Nat) : List Nat :=
  m.falls k ++ (m.target.bind label).toList

theorem mem_falls {m : Method} {j k : Nat} : j ∈ m.falls k ↔ (∀ rd name, m ≠ .jal rd name) ∧ j = k + 1 := by
  cases m <;> simp [falls]

theorem dest_effect {m : Method} (x x' : Nat → Word) (here here' : Word) :
    (m.effect x here).dest = (m.effect x' here').dest := by
  cases m <;> simp only [effect, Effect.dest]

/-- Such an instruction, with its label in the program, always does its work. -/
theorem apply_next (base : Int) (targets : Asm.Targets) (s : Asm.Spot) {m : Method} (x : Nat → Word) (here : Word)
    (goes : m.goesOn = true) (labelled : ∀ name, m.target = some name → (targets.label name).isSome = true)
    (loaded : Word) :
    ∃ s', (m.effect x here).apply base targets s loaded = some s' ∧
      s'.pos ∈ m.successors targets.label s.pos := by
  cases m
  case ebreak | jalr => cases goes
  case jal rd name =>
    obtain ⟨k, there⟩ := Option.isSome_iff_exists.mp (labelled name rfl)
    refine ⟨_, congrArg (Option.map _) there, ?_⟩
    simp [successors, target, there]
  case beq rs1 rs2 name | bne rs1 rs2 name | blt rs1 rs2 name | bge rs1 rs2 name | bltu rs1 rs2 name
    | bgeu rs1 rs2 name =>
    obtain ⟨k, there⟩ := Option.isSome_iff_exists.mp (labelled name rfl)
    rw [effect, Effect.apply]
    split
    · refine ⟨_, congrArg (Option.map _) there, ?_⟩
      simp [successors, target, there]
    · refine ⟨_, rfl, ?_⟩
      simp [successors, falls]
  all_goals
    rw [effect, Effect.apply]
    refine ⟨_, rfl, ?_⟩
    simp [successors, falls]

end Method

namespace Asm

/-- No `JALR`, no `EBREAK`, and a jump at the end. -/
structure Closed (calls : List Call) : Prop where
  last : ∃ pre rd name, calls = pre ++ [.exec (.jal rd name)]
  no_return : ∀ m ∈ methods calls, ∀ rd rs1 imm, m ≠ .jalr rd rs1 imm
  no_end : ∀ m ∈ methods calls, m ≠ .ebreak

namespace Closed

variable {base : Int} {calls : List Call} {a : Asm} {words : List Nat} (closed : Closed calls)
include closed

/-- Only the jump at the end is the last instruction. -/
theorem next {k : Nat} {m : Method} (here : (methods calls)[k]? = some m) (falls : ∀ rd name, m ≠ .jal rd name) :
    k + 1 < (methods calls).length := by
  obtain ⟨pre, rd, name, rfl⟩ := closed.last
  have within := (List.getElem?_eq_some_iff.mp here).1
  rw [methods_append, List.length_append, methods_exec, methods_nil, List.length_singleton] at within ⊢
  rcases Nat.lt_or_ge k (methods pre).length with before | after
  · omega
  · obtain rfl : k = (methods pre).length := by omega
    rw [methods_append, List.getElem?_append_right le_rfl, Nat.sub_self] at here
    cases here
    exact absurd rfl (falls rd name)

/-- No label stands at the end. -/
theorem position_lt {name : String} {k : Nat} (there : position calls name = some k) :
    k < (methods calls).length := by
  obtain ⟨member, index⟩ := Option.ite_none_right_eq_some.mp there
  cases index
  obtain ⟨pre, rd, target, jump⟩ := closed.last
  obtain ⟨before, after, set⟩ := List.append_of_mem member
  obtain ⟨rest, split⟩ := split_takeWhile set
  have last : (Call.label name :: rest).getLast? = some (.exec (.jal rd target)) := by
    have ends := congrArg List.getLast? (split.symm.trans jump)
    rwa [List.getLast?_append_of_ne_nil _ (List.cons_ne_nil _ _), List.getLast?_concat] at ends
  have listed : Method.jal rd target ∈ methods rest := by
    rcases List.mem_cons.mp (List.mem_of_getLast? last) with label | here
    · cases label
    · exact mem_methods.mpr here
  have some_ := List.length_pos_of_mem listed
  have count := congrArg (fun cs => (methods cs).length) split
  simp only [methods_append, methods_label, List.length_append] at count
  unfold labelIndex
  omega

/-- Before one of its instructions the program can always take a step, to another of them. -/
theorem step_some (built : (Asm.new base).build calls = some a) (accepted : a.finalize = some words)
    {s : Spot} (within : s.pos < (methods calls).length) (loaded : Word) :
    ∃ s', step base calls (some s) loaded = some s' ∧ s'.pos < (methods calls).length := by
  obtain ⟨m, here⟩ : ∃ m, (methods calls)[s.pos]? = some m := ⟨_, List.getElem?_eq_getElem within⟩
  have member := List.mem_of_getElem? here
  have labelled (name : String) (named : m.target = some name) : (position calls name).isSome = true := by
    obtain ⟨w, -, emits | ⟨f, addr, emits, found, -⟩⟩ := (built_of_build built).finalize accepted |>.2 s.pos m.emits
      (by rw [List.getElem?_map, here]; rfl)
    · rw [Method.target_of_word emits] at named
      cases named
    · rw [Method.target_of_fixup emits] at named
      cases named
      rw [lookup_eq built] at found
      obtain ⟨k, there, -⟩ := Option.map_eq_some_iff.mp found
      exact Option.isSome_of_mem there
  have goes : m.goesOn = true := by
    cases m
    case ebreak => exact absurd rfl (closed.no_end _ member)
    case jalr rd rs1 imm => exact absurd rfl (closed.no_return _ member rd rs1 imm)
    all_goals rfl
  obtain ⟨s', done, next⟩ := Method.apply_next base ⟨position calls, find base calls⟩ s s.reg (address base s.pos)
    goes labelled loaded
  refine ⟨s', ?_, ?_⟩
  · rw [step, Option.bind_some, doing, here]
    exact done
  · rcases List.mem_append.mp next with falls | jumps
    · obtain ⟨straight, falls⟩ := Method.mem_falls.mp falls
      rw [falls]
      exact closed.next here straight
    · obtain ⟨name, -, there⟩ := Option.bind_eq_some_iff.mp (Option.mem_toList.mp jumps)
      exact closed.position_lt there

end Closed

/-- A closed program that the assembler accepts goes on for ever, and a hart that fetches its words with it:
whatever its registers and whatever memory returns, it never leaves the program. -/
theorem stays_inside {base : Int} {calls : List Call} {a : Asm} {words : List Nat} (closed : Closed calls)
    (inRange : ∀ m, .exec m ∈ calls → m.InRange) (built : (Asm.new base).build calls = some a)
    (accepted : a.finalize = some words) {fetch : Word → Word}
    (held : ∀ (k : Nat) w, words[k]? = some w → fetch (address base k) = .ofNat 32 w)
    (r : Clocked.Run (Rv32i.step fetch)) (t : Nat) (s : Spot) (within : s.pos < (methods calls).length)
    (start : r.state t = some ⟨address base s.pos, s.x⟩) :
    let p := Clocked.Run.ofInputs (step base calls) (some s) fun n => r.input (t + n)
    ∀ n, ∃ s', s'.pos < (methods calls).length ∧ p.state n = some s' ∧
      r.state (t + n) = some ⟨address base s'.pos, s'.x⟩ := by
  intro p n
  have goes_on : ∃ s', p.state n = some s' ∧ s'.pos < (methods calls).length := by
    induction n with
    | zero => exact ⟨s, rfl, within⟩
    | succ n ih =>
        obtain ⟨s', here, inside⟩ := ih
        rw [p.edge, here]
        exact closed.step_some built accepted inside _
  obtain ⟨s', reached, inside⟩ := goes_on
  exact ⟨s', inside, reached,
    (runs_hart inRange built accepted held (p := p) (fun _ => rfl) rfl start reached).1⟩

/-- The ALU test never leaves its 44 instructions. -/
theorem stays_inside_aluTest : ∃ a words, (Asm.new 0).build aluTest = some a ∧ a.finalize = some words ∧
    ∀ n, ∃ k x, k < 44 ∧ (Clocked.Run.ofInputs (Rv32i.step (rom words)) (some ⟨0, fun _ => 0⟩)
      fun _ => 0xFFFF).state n = some ⟨address 0 k, x⟩ := by
  obtain ⟨a, words, built, accepted, count⟩ := built_aluTest
  have closed : Closed aluTest := by
    refine ⟨⟨aluTest.dropLast, 0, "SPIN", rfl⟩, fun m member rd rs1 imm => ?_, fun m member => ?_⟩
    · rintro rfl
      simp [aluTest] at member
    · rintro rfl
      simp [aluTest] at member
  refine ⟨a, words, built, accepted, fun n => ?_⟩
  obtain ⟨s, inside, -, there⟩ := stays_inside closed inRange_aluTest built accepted (rom_address (by omega))
    (.ofInputs (Rv32i.step (rom words)) (some ⟨0, fun _ => 0⟩) fun _ => 0xFFFF) 0 ⟨0, fun _ => 0⟩
    (show 0 < (methods aluTest).length by decide) rfl n
  rw [Nat.zero_add] at there
  exact ⟨s.pos, s.x, inside, there⟩

end Asm

end AgilA32
