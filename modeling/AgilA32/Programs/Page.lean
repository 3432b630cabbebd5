import AgilA32.Flash.Machine

/-!
# What the programs' pages have in common

The addresses the scripts use, and the three instructions that end every page with a `switch_to`.
-/

namespace AgilA32

namespace Programs

open AgilA32.Core (readReg writeReg)
open Paged (Leads Log State leads_turn_within line onPage)
open Rv32i (Instr)

def gpioOut : Int := 0xF0
def gpioIn : Int := 0xF4

def nop : Instr := .aluImm .add 0 0 0

/-- The last three instructions of a page with a `switch_to`. -/
def leave (next : Int) : List Instr :=
  [.aluImm .add 30 0 (.ofInt 32 next), .store .sw 0 30 0xFC, .jal 0 (-40)]

/-- No state is marked. -/
def noMark (_ : State) : Option (BitVec 32) := none

theorem unmarked (s : State) : noMark s = none := rfl

/-- What an `ADDI` from `x0` loads. -/
theorem load_eq (v : BitVec 32) : 0 + v = v := BitVec.zero_add v

theorem low_byte (v : Nat) : (BitVec.ofInt 32 v).setWidth 8 = BitVec.ofNat 8 v := by
  rw [BitVec.ofInt_natCast]
  exact BitVec.setWidth_ofNat_of_le (by omega) _

section Leave

variable {image : List (BitVec 8)} {code : List (List Instr)} (lists : PagedAsm.Lists image code)
  {r : Clocked.Run (Paged.step image)} {mark : State → Option (BitVec 32)} {m : Nat}
  {page : BitVec 8} {listing : List Instr} (held : code[page.toNat]? = some listing)
  {x : RegFile} (next : Nat)
include lists held

/-- The words that leave a page lead to the start of the next one in at most three steps. -/
theorem leads_leave_within (here : r.state m = some (onPage page 8 x)) (tail : listing.drop 8 = leave next)
    (quiet : ∀ j y, 8 ≤ j → j ≤ 10 → mark (onPage page j y) = none) (exists_ : next < code.length)
    (small : next < 256) (quiet' : ∀ y, mark (onPage (.ofNat 8 next) 10 y) = none) :
    ∃ m', m' ≤ m + 3 ∧
      Leads r mark m m' (onPage (.ofNat 8 next) 0 (writeReg x 30 (.ofInt 32 next))) .empty := by
  have slot (k : Nat) : listing[8 + k]? = (leave next)[k]? := by rw [← List.getElem?_drop, tail]
  have runs : line listing 2 8 x =
      some ⟨10, some (.ofNat 8 next), writeReg x 30 (.ofInt 32 next), []⟩ := by
    rw [line, slot 0]
    change line listing 1 9 (writeReg x 30 (0 + .ofInt 32 next)) = _
    rw [load_eq, line, slot 1, ← low_byte]
    rfl
  have there : (BitVec.ofNat 8 next).toNat = next := by
    rw [BitVec.toNat_ofNat]
    omega
  exact leads_turn_within lists held here runs quiet (by rwa [there]) (quiet' _)

/-- The words that leave a page lead to the start of the next one. -/
theorem leads_leave (here : r.state m = some (onPage page 8 x)) (tail : listing.drop 8 = leave next)
    (quiet : ∀ j y, 8 ≤ j → j ≤ 10 → mark (onPage page j y) = none) (exists_ : next < code.length)
    (small : next < 256) (quiet' : ∀ y, mark (onPage (.ofNat 8 next) 10 y) = none) :
    ∃ m', Leads r mark m m' (onPage (.ofNat 8 next) 0 (writeReg x 30 (.ofInt 32 next))) .empty := by
  obtain ⟨m', -, leads⟩ := leads_leave_within lists held next here tail quiet exists_ small quiet'
  exact ⟨m', leads⟩

end Leave

end Programs

end AgilA32
