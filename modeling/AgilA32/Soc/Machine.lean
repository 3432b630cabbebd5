import AgilA32.Soc.MemoryMap

/-!
# The computer as a machine of instructions

`Soc` is the whole computer between two instructions: program counter, registers, memory map and the
number of the clock cycle.  `Soc.step` executes one instruction of the reference ISA on it, fetched
from wherever `pc` points, and says how many cycles that takes, so that timer and pins can be read at
the right moment.
-/

namespace AgilA32

open AgilA32.Core (Access hart toAccess)
open Rv32i (Instr decode)

/-- What comes in from outside, cycle by cycle: the pins `ui_in`, and what an undefined RAM word shows. -/
structure Outside where
  uiIn : Nat → BitVec 8
  undef : Nat → BitVec 32

structure Soc where
  pc : BitVec 8
  x : RegFile
  map : MemoryMap
  cycle : Nat

namespace Soc

variable (o : Outside) (s : Soc)

/-! ## The fetch -/

def fetchAccess : Access := .read s.pc 2#2

def fetchStall : Nat := s.map.stall s.fetchAccess.bus

/-- The instruction word: a load of four bytes, answered two cycles and the wait states later. -/
def word : BitVec 32 :=
  (s.map.wait (2 + s.fetchStall)).load (o.uiIn (s.cycle + 2 + s.fetchStall))
    (o.undef (s.cycle + 2 + s.fetchStall)) s.pc 2#2

/-! ## The data access -/

section Data

variable (d : Option Access)

def dataStall : Nat :=
  match d with
  | some d => s.map.stall d.bus
  | none => 0

/-- The cycle in which the instruction writes back. -/
def writeBackCycle : Nat := s.cycle + 6 + s.fetchStall + s.dataStall d

/-- The memory map in that cycle: a store has taken effect in the one before. -/
def accessed : MemoryMap :=
  let before := s.map.wait (5 + s.fetchStall + s.dataStall d)
  match d with
  | some (.write addr size data) => before.store (Access.write addr size data).bus
  | _ => before.wait 1

/-- What a load returns. -/
def response : BitVec 32 :=
  match d with
  | some (.read addr size) =>
      (s.accessed d).load (o.uiIn (s.writeBackCycle d)) (o.undef (s.writeBackCycle d)) addr size
  | _ => 0

end Data

/-! ## The step -/

variable (i : Instr)

def dataAccess : Option Access := (i.memReq (hart s.pc s.x)).map toAccess

/-- The computer after the instruction `i`. -/
def exec : Soc where
  pc := (i.exec (hart s.pc s.x) (s.response o (s.dataAccess i))).pc.setWidth 8
  x := (i.exec (hart s.pc s.x) (s.response o (s.dataAccess i))).x
  map := (s.accessed (s.dataAccess i)).wait 1
  cycle := s.writeBackCycle (s.dataAccess i) + 1

/-- The instruction that is executed next; there is none after `EBREAK`, and none is specified for a
word that is no instruction. -/
def fetch : Option Instr := (decode (s.word o)).filter (· ≠ .ebreak)

/-- One instruction. -/
def step (s : Option Soc) (_ : Unit) : Option Soc :=
  s.bind fun s => (s.fetch o).map fun i => s.exec o i

/-- The store of a data access, as the bus shows it. -/
def storeOf : Option Access → Option Bus
  | some (.write addr size data) => some (Access.write addr size data).bus
  | _ => none

/-- The store that the next instruction makes. -/
def stores (s : Option Soc) (_ : Unit) : Option Bus :=
  s.bind fun s => (s.fetch o).bind fun i => storeOf (s.dataAccess i)

/-- The machine from the state `s` on. -/
def run (s : Soc) : Clocked.Run (step o) := .ofInputs (step o) (some s) fun _ => ()

end Soc

end AgilA32
