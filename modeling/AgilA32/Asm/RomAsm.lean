import AgilA32.Asm.Layout

/-!
# The boot ROM's assembler: `Asm` of `tools/build_boot_rom.py`

The script that builds the boot ROM has an assembler of its own: a copy of fewer methods, without a
base.  A program of these methods keeps the two in step, every label of the copy short of the other's by
the base (`Shifted`); a fixup depends on distances alone, so both end with the same words
(`finalize_agrees`).
-/

namespace AgilA32

namespace RomAsm

/-! ## The copy -/

def opImm : Nat := 0b0010011
def opReg : Nat := 0b0110011
def opLoad : Nat := 0b0000011
def opStore : Nat := 0b0100011
def opBranch : Nat := 0b1100011
def opJal : Nat := 0b1101111
def opJalr : Nat := 0b1100111

/-- `_s12`. -/
def s12 (v : Int) : Nat := (v % 4096).toNat

/-- `_r`. -/
def rWord (funct7 rs2 rs1 funct3 rd opcode : Nat) : Nat :=
  funct7 <<< 25 ||| rs2 <<< 20 ||| rs1 <<< 15 ||| funct3 <<< 12 ||| rd <<< 7 ||| opcode

/-- `_i`. -/
def iWord (imm : Int) (rs1 funct3 rd opcode : Nat) : Nat :=
  s12 imm <<< 20 ||| rs1 <<< 15 ||| funct3 <<< 12 ||| rd <<< 7 ||| opcode

/-- The word that `SB` and `SW` emit, by `funct3`. -/
def storeWord (funct3 rs2 rs1 : Nat) (imm : Int) : Nat :=
  (s12 imm >>> 5) <<< 25 ||| rs2 <<< 20 ||| rs1 <<< 15 ||| funct3 <<< 12 |||
    (s12 imm &&& 0x1F) <<< 7 ||| opStore

/-- The instruction methods, with their operands in the order of the source. -/
inductive Method
  | add (rd rs1 rs2 : Nat)
  | or (rd rs1 rs2 : Nat)
  | addi (rd rs1 : Nat) (imm : Int)
  | andi (rd rs1 : Nat) (imm : Int)
  | ori (rd rs1 : Nat) (imm : Int)
  | slli (rd rs1 sh : Nat)
  | srli (rd rs1 sh : Nat)
  | lw (rd rs1 : Nat) (imm : Int)
  | lbu (rd rs1 : Nat) (imm : Int)
  | jalr (rd rs1 : Nat) (imm : Int)
  | sb (rs2 rs1 : Nat) (imm : Int)
  | sw (rs2 rs1 : Nat) (imm : Int)
  | beq (rs1 rs2 : Nat) (target : String)
  | bne (rs1 rs2 : Nat) (target : String)
  | blt (rs1 rs2 : Nat) (target : String)
  | jal (rd : Nat) (target : String)
  deriving DecidableEq, Repr

/-- The methods' bodies. -/
def Method.emits : Method → Emitted
  | .add rd rs1 rs2 => .word (rWord 0 rs2 rs1 0b000 rd opReg)
  | .or rd rs1 rs2 => .word (rWord 0 rs2 rs1 0b110 rd opReg)
  | .addi rd rs1 imm => .word (iWord imm rs1 0b000 rd opImm)
  | .andi rd rs1 imm => .word (iWord imm rs1 0b111 rd opImm)
  | .ori rd rs1 imm => .word (iWord imm rs1 0b110 rd opImm)
  | .slli rd rs1 sh => .word (iWord (sh &&& 0x1F : Nat) rs1 0b001 rd opImm)
  | .srli rd rs1 sh => .word (iWord (sh &&& 0x1F : Nat) rs1 0b101 rd opImm)
  | .lw rd rs1 imm => .word (iWord imm rs1 0b010 rd opLoad)
  | .lbu rd rs1 imm => .word (iWord imm rs1 0b100 rd opLoad)
  | .jalr rd rs1 imm => .word (iWord imm rs1 0b000 rd opJalr)
  | .sb rs2 rs1 imm => .word (storeWord 0b000 rs2 rs1 imm)
  | .sw rs2 rs1 imm => .word (storeWord 0b010 rs2 rs1 imm)
  | .beq rs1 rs2 target => .fixup (.branch 0b000 rs1 rs2 target)
  | .bne rs1 rs2 target => .fixup (.branch 0b001 rs1 rs2 target)
  | .blt rs1 rs2 target => .fixup (.branch 0b100 rs1 rs2 target)
  | .jal rd target => .fixup (.jal rd target)

end RomAsm

structure RomAsm where
  instrs : List (Option Nat)
  labels : List (String × Int)
  fixups : List (Nat × Fixup)
  deriving DecidableEq, Repr

namespace RomAsm

def new : RomAsm := { instrs := [], labels := [], fixups := [] }

def addr (a : RomAsm) : Int := a.instrs.length * 4

def label (a : RomAsm) (name : String) : Option RomAsm :=
  if (a.labels.lookup name).isSome then none
  else some { a with labels := (name, a.addr) :: a.labels }

def emit (a : RomAsm) : Emitted → RomAsm
  | .word w => { a with instrs := a.instrs ++ [some w] }
  | .fixup f =>
      { a with instrs := a.instrs ++ [none], fixups := a.fixups ++ [(a.instrs.length, f)] }

/-- The calls on an `Asm`. -/
inductive Call
  | label (name : String)
  | exec (m : Method)
  deriving DecidableEq, Repr

def call (a : RomAsm) : Call → Option RomAsm
  | .label name => a.label name
  | .exec m => some (a.emit m.emits)

/-- The state after a sequence of calls, if none of them raises. -/
def build (a : RomAsm) (calls : List Call) : Option RomAsm := calls.foldlM call a

/-- The word of a fixup at `pc` with its target at `here`, if the offset is in range. -/
def fixupWord (pc here : Int) : Fixup → Option Nat
  | .branch funct3 rs1 rs2 _ =>
      let off := here - pc
      if -4096 ≤ off ∧ off < 4096 ∧ off % 2 = 0 then
        let imm := (off % 0x2000).toNat
        some ((imm >>> 12 &&& 1) <<< 31 ||| (imm >>> 5 &&& 0x3F) <<< 25 ||| rs2 <<< 20 ||| rs1 <<< 15 |||
          funct3 <<< 12 ||| (imm >>> 1 &&& 0xF) <<< 8 ||| (imm >>> 11 &&& 1) <<< 7 ||| opBranch)
      else none
  | .jal rd _ =>
      let off := here - pc
      if -1048576 ≤ off ∧ off < 1048576 ∧ off % 2 = 0 then
        let imm := (off % 0x200000).toNat
        some ((imm >>> 20 &&& 1) <<< 31 ||| (imm >>> 1 &&& 0x3FF) <<< 21 ||| (imm >>> 11 &&& 1) <<< 20 |||
          (imm >>> 12 &&& 0xFF) <<< 12 ||| rd <<< 7 ||| opJal)
      else none

/-- One round of the loop of `finalize`. -/
def applyFixup (a : RomAsm) (words : List (Option Nat)) (entry : Nat × Fixup) :
    Option (List (Option Nat)) := do
  let here ← a.labels.lookup entry.2.target
  let word ← fixupWord (entry.1 * 4) here entry.2
  pure (words.set entry.1 (some word))

def finalize (a : RomAsm) : Option (List Nat) := do
  let words ← a.fixups.foldlM a.applyFixup a.instrs
  if words.all (·.isSome) then some (words.map (·.getD 0)) else none

/-! ## The methods of the same names -/

/-- The method of `tools/asm_pineapple.py` with the same name. -/
def Method.toMethod : Method → AgilA32.Method
  | .add rd rs1 rs2 => .add rd rs1 rs2
  | .or rd rs1 rs2 => .or rd rs1 rs2
  | .addi rd rs1 imm => .addi rd rs1 imm
  | .andi rd rs1 imm => .andi rd rs1 imm
  | .ori rd rs1 imm => .ori rd rs1 imm
  | .slli rd rs1 sh => .slli rd rs1 sh
  | .srli rd rs1 sh => .srli rd rs1 sh
  | .lw rd rs1 imm => .lw rd rs1 imm
  | .lbu rd rs1 imm => .lbu rd rs1 imm
  | .jalr rd rs1 imm => .jalr rd rs1 imm
  | .sb rs2 rs1 imm => .sb rs2 rs1 imm
  | .sw rs2 rs1 imm => .sw rs2 rs1 imm
  | .beq rs1 rs2 target => .beq rs1 rs2 target
  | .bne rs1 rs2 target => .bne rs1 rs2 target
  | .blt rs1 rs2 target => .blt rs1 rs2 target
  | .jal rd target => .jal rd target

def Call.toCall : Call → Asm.Call
  | .label name => .label name
  | .exec m => .exec m.toMethod

theorem Method.emits_toMethod (m : Method) : m.toMethod.emits = m.emits := by
  cases m <;> rfl

/-! ## In step -/

/-- The two assemblers after the same calls, one of them with a base. -/
structure Shifted (base : Int) (s : RomAsm) (a : Asm) : Prop where
  start : a.base = base
  instrs : a.instrs = s.instrs
  labels : a.labels = s.labels.map fun l => (l.1, base + l.2)
  fixups : a.fixups = s.fixups

variable {base : Int} {s : RomAsm} {a : Asm}

theorem lookup_shifted (labels : List (String × Int)) (base : Int) (name : String) :
    (labels.map fun l => (l.1, base + l.2)).lookup name = (labels.lookup name).map (base + ·) := by
  induction labels with
  | nil => rfl
  | cons l labels ih =>
      rw [List.map_cons, List.lookup_cons, List.lookup_cons]
      cases name == l.1 with
      | true => rfl
      | false => exact ih

theorem rel_bind {α β α' β' : Type*} {R : α → β → Prop} {R' : α' → β' → Prop} {x : Option α}
    {y : Option β} {f : α → Option α'} {g : β → Option β'} (first : Option.Rel R x y)
    (rest : ∀ u v, R u v → Option.Rel R' (f u) (g v)) : Option.Rel R' (x.bind f) (y.bind g) := by
  cases first with
  | none => exact .none
  | some related => exact rest _ _ related

namespace Shifted

theorem new (base : Int) : Shifted base RomAsm.new (Asm.new base) := ⟨rfl, rfl, rfl, rfl⟩

theorem lookup (shifted : Shifted base s a) (name : String) :
    a.labels.lookup name = (s.labels.lookup name).map (base + ·) := by
  rw [shifted.labels, lookup_shifted]

theorem addr (shifted : Shifted base s a) : a.addr = base + s.addr := by
  rw [Asm.addr, RomAsm.addr, shifted.start, shifted.instrs, mul_comm]

theorem emit (shifted : Shifted base s a) (e : Emitted) : Shifted base (s.emit e) (a.emit e) := by
  cases e with
  | word w =>
      refine ⟨shifted.start, ?_, shifted.labels, shifted.fixups⟩
      rw [Asm.emit, RomAsm.emit, shifted.instrs]
  | fixup f =>
      refine ⟨shifted.start, ?_, shifted.labels, ?_⟩
      · rw [Asm.emit, RomAsm.emit, shifted.instrs]
      · rw [Asm.emit, RomAsm.emit, shifted.instrs, shifted.fixups]

/-- One call: both raise, or they stay in step. -/
theorem call (shifted : Shifted base s a) (c : Call) :
    Option.Rel (Shifted base) (s.call c) (a.call c.toCall) := by
  cases c with
  | exec m =>
      refine .some ?_
      rw [Asm.exec, Method.emits_toMethod]
      exact shifted.emit m.emits
  | label name =>
      have defined : (a.labels.lookup name).isSome = (s.labels.lookup name).isSome := by
        rw [shifted.lookup, Option.isSome_map]
      rw [RomAsm.call, Call.toCall, Asm.call, RomAsm.label, Asm.label, defined]
      split
      · exact .none
      · refine .some ⟨shifted.start, shifted.instrs, ?_, shifted.fixups⟩
        rw [List.map_cons, shifted.labels, shifted.addr]

theorem build (shifted : Shifted base s a) (calls : List Call) :
    Option.Rel (Shifted base) (s.build calls) (a.build (calls.map Call.toCall)) := by
  induction calls generalizing s a with
  | nil => exact .some shifted
  | cons c calls ih =>
      rw [RomAsm.build, List.foldlM_cons, List.map_cons, Asm.build_cons]
      exact rel_bind (shifted.call c) fun _ _ next => ih next

end Shifted

/-- A fixup depends on the distance. -/
theorem fixupWord_shift (base pc here : Int) (f : Fixup) :
    Asm.fixupWord (base + pc) (base + here) f = fixupWord pc here f := by
  have distance : base + here - (base + pc) = here - pc := by omega
  cases f <;> rw [Asm.fixupWord, fixupWord, distance] <;> rfl

theorem Shifted.applyFixup (shifted : Shifted base s a) : a.applyFixup = s.applyFixup := by
  funext words entry
  rw [Asm.applyFixup, RomAsm.applyFixup, shifted.lookup, shifted.start, mul_comm 4]
  cases s.labels.lookup entry.2.target with
  | none => rfl
  | some here =>
      simp only [Option.map_some, Option.bind_eq_bind, Option.bind_some, fixupWord_shift]

theorem Shifted.finalize (shifted : Shifted base s a) : a.finalize = s.finalize := by
  rw [Asm.finalize, RomAsm.finalize, shifted.applyFixup, shifted.instrs, shifted.fixups]

/-- Any calls of the copy's methods, made on the copy and on the assembler with any base: either both
raise on the way or at the end, or both return the same words. -/
theorem finalize_agrees (calls : List Call) (base : Int) :
    ((Asm.new base).build (calls.map Call.toCall)).bind Asm.finalize =
      (RomAsm.new.build calls).bind RomAsm.finalize := by
  have built := (Shifted.new base).build calls
  generalize RomAsm.new.build calls = s, (Asm.new base).build (calls.map Call.toCall) = a at built ⊢
  cases built with
  | none => rfl
  | some shifted => exact shifted.finalize

end RomAsm

end AgilA32
