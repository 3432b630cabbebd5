import AgilA32.Programs.Receive

/-!
# The PS/2 reader: `build_ps2_reader.py`

Page 0 clears the accumulator, pages 1 to 22 receive a frame, and page 23 writes its byte to `GPIO_OUT`
and starts over.  So the program writes the bytes of the frames in its polls (`reports_frames`).
-/

namespace AgilA32

namespace Programs

namespace Ps2Reader

open Paged (Leads State doing leads_straight leads_within onPage polled written)
open PagedAsm (Builds Ending Lists Statement page)
open Ps2 (frames)
open Rv32i (Instr)

def script : List Statement :=
  .reservePage 0 :: page [.exec (.addi accum 0 0)] ++ [.call (.switchTo 1 none)] ++
  receivePages ++
  .reservePage 23 :: page [.exec (.sw accum 0 gpioOut), .exec (.addi accum 0 0)] ++
    [.call (.switchTo 1 none)]

def firstPage : List Instr :=
  [nop, .aluImm .add 4 0 0, nop, nop, nop, nop, nop, nop] ++ leave 1

def resultPage : List Instr :=
  [.store .sw 0 4 0xF0, .aluImm .add 4 0 0, nop, nop, nop, nop, nop, nop] ++ leave 1

def code : List (List Instr) := firstPage :: receiveCode ++ [resultPage]

theorem builds_script : Builds script 0 code := by
  have first : Builds (.reservePage 0 :: page [.exec (.addi accum 0 0)] ++ [.call (.switchTo 1 none)]) 0
      [firstPage] := by
    refine .reservePage (Builds.page (.switchTo 1) ⟨rfl, ?_, ?_, ?_⟩ rfl)
    · decide
    · simp [PagedAsm.head, Ending.load, Method.nop, Method.InRange, accum]
    · simp [PagedAsm.head, Method.nop, Method.target]
  have last : Builds (.reservePage 23 :: page [.exec (.sw accum 0 gpioOut), .exec (.addi accum 0 0)] ++
      [.call (.switchTo 1 none)]) 23 [resultPage] := by
    refine .reservePage (Builds.page (.switchTo 1) ⟨rfl, ?_, ?_, ?_⟩ rfl)
    · decide
    · simp [Ending.load, Method.InRange, accum, gpioOut]
    · simp [Method.target]
  exact (first.append builds_receivePages).append last

theorem receives : Receives code := receives_of firstPage resultPage []

section Run

variable {image : List (BitVec 8)} (lists : Lists image code) {r : Clocked.Run (Paged.step image)}
  {m k : Nat} {x : RegFile}
include lists

/-- Page 0, from its first instruction or from the one after it. -/
theorem starts_within (here : r.state m = some (onPage 0 k x)) (entry : k = 0 ∨ k = 1) :
    ∃ m' x', m' ≤ m + 11 ∧ Leads r noMark m m' (onPage 1 0 x') .empty ∧ x' 4 = 0 := by
  have held : code[(0 : BitVec 8).toNat]? = some firstPage := rfl
  have clears : ∃ m', m' ≤ m + 8 ∧ Leads r noMark m m' (onPage 0 8 (Core.writeReg x 4 0)) .empty := by
    rcases entry with rfl | rfl
    · exact leads_within lists held here (n := 8) (l := ⟨8, none, _, []⟩) rfl fun _ _ _ _ => unmarked _
    · obtain ⟨m', soon, clears⟩ := leads_within lists held here (n := 7)
        (l := ⟨8, none, Core.writeReg x 4 0, []⟩) rfl fun _ _ _ _ => unmarked _
      exact ⟨m', by omega, clears⟩
  obtain ⟨m', soon, clears⟩ := clears
  obtain ⟨m'', soon', leaves⟩ := leads_leave_within lists held 1 clears.reached rfl
    (fun _ _ _ _ => unmarked _) (by decide) (by omega) fun _ => unmarked _
  exact ⟨m'', _, by omega, clears.trans leaves, rfl⟩

/-- Page 0 leads to page 1, with no bit received. -/
theorem starts (here : r.state m = some (onPage 0 k x)) (entry : k = 0 ∨ k = 1) :
    ∃ m' x', Leads r noMark m m' (onPage 1 0 x') .empty ∧ x' 4 = 0 := by
  obtain ⟨m', x', -, leads⟩ := starts_within lists here entry
  exact ⟨m', x', leads⟩

/-- Page 23 writes the byte to the LEDs and leads back to page 1 in at most eleven steps. -/
theorem takes_within {b : BitVec 8} (here : r.state m = some (onPage 23 0 x)) (handed : x 4 = b.setWidth 32) :
    ∃ m' x', m' ≤ m + 11 ∧ Leads r noMark m m' (onPage 1 0 x') ⟨[], [b], []⟩ ∧ x' 4 = 0 := by
  have held : code[(23 : BitVec 8).toNat]? = some resultPage := rfl
  obtain ⟨m', soon, writes⟩ := leads_within lists held here (n := 8)
    (l := ⟨8, none, Core.writeReg x 4 0, [(x 4).setWidth 8]⟩) rfl fun _ _ _ _ => unmarked _
  obtain ⟨m'', soon', leaves⟩ := leads_leave_within lists held 1 writes.reached rfl
    (fun _ _ _ _ => unmarked _) (by decide) (by omega) fun _ => unmarked _
  have whole := writes.trans leaves
  rw [handed, BitVec.setWidth_setWidth_of_le _ (by omega), BitVec.setWidth_eq] at whole
  exact ⟨m'', _, by omega, whole, rfl⟩

/-- Page 23 writes the byte. -/
def consumer : Consumer r noMark Unit where
  holds _ _ := True
  consume _ b := ((), [b])
  marks _ := []
  kept _ _ _ _ _ := trivial
  takes m x _ b here handed _ := by
    have held : code[(23 : BitVec 8).toNat]? = some resultPage := rfl
    obtain ⟨m', writes⟩ := leads_straight lists held here (n := 8) (j := 8)
      (y := Core.writeReg x 4 0) (w := [(x 4).setWidth 8]) rfl fun _ _ _ _ => unmarked _
    obtain ⟨m'', leaves⟩ := leads_leave lists held 1 writes.reached rfl
      (fun _ _ _ _ => unmarked _) (by decide) (by omega) fun _ => unmarked _
    have whole := writes.trans leaves
    rw [handed, BitVec.setWidth_setWidth_of_le _ (by omega), BitVec.setWidth_eq] at whole
    exact ⟨m'', _, whole, rfl, trivial⟩

end Run

theorem feed_unit (bs : List (BitVec 8)) : (Ps2.feed (fun (_ : Unit) b => ((), [b])) () bs).2 = bs := by
  induction bs with
  | nil => rfl
  | cons b bs ih => exact congrArg (b :: ·) ih

/-- The reader never gets stuck and always polls again, and at every poll it has written the bytes of
the frames in its polls so far. -/
theorem reports_frames {image : List (BitVec 8)} (lists : Lists image code)
    {r : Clocked.Run (Paged.step image)} {k : Nat} {x : RegFile}
    (start : r.state 0 = some (onPage 0 k x)) (entry : k = 0 ∨ k = 1) :
    (∀ n, (r.state n).isSome = true) ∧ (∀ n, ∃ n', n ≤ n' ∧ doing image (r.state n') = some .poll) ∧
      ∀ n, doing image (r.state n) = some .poll →
        r.observe (written image) 0 n = frames (r.observe (polled image) 0 n) := by
  obtain ⟨m, x', leads, clear⟩ := starts lists start entry
  obtain ⟨alive, recurs, all⟩ := (consumer lists).observes lists receives
    ⟨fun _ _ _ _ _ => unmarked _, fun _ => unmarked _⟩ leads.reached clear (q := ()) trivial
    leads.polls leads.writes leads.marks
  refine ⟨alive, recurs, fun n polling => (all n polling).1.trans ?_⟩
  exact feed_unit _

end Ps2Reader

end Programs

end AgilA32
