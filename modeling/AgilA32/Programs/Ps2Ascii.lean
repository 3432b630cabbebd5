import AgilA32.Programs.Ps2Reader

/-!
# The PS/2 ASCII program: `build_ps2_ascii.py`

After the 22 receiving pages, pages 23 to 27 interpret the bytes of Scan Code Set 2: two flags remember
a break prefix and an extension prefix (`Flags.consume`).  A plain make code is looked up by switching
to the page that its value names (`leads_dispatch`): there is one page per scancode up to
`maxSafeScancode`, which loads the ASCII value, and page 28 writes it.
-/

namespace AgilA32

namespace Programs

namespace Ps2Ascii

open AgilA32.Core (readReg writeReg)
open Paged (Leads Log State doing leads_branch leads_turn_within leads_within line marked onPage polled
  written)
open PagedAsm (Builds Ending Lists Statement page)
open Ps2 (frames)
open Rv32i (BranchOp Instr)

def breakPending : Nat := 5
def extPending : Nat := 6

/-- `SCANCODE_TO_ASCII`. -/
def scancodeToAscii : List (Nat × Nat) :=
  [(0x1C, 97), (0x32, 98), (0x21, 99), (0x23, 100), (0x24, 101), (0x2B, 102), (0x34, 103), (0x33, 104),
    (0x43, 105), (0x3B, 106), (0x42, 107), (0x4B, 108), (0x3A, 109), (0x31, 110), (0x44, 111),
    (0x4D, 112), (0x15, 113), (0x2D, 114), (0x1B, 115), (0x2C, 116), (0x3C, 117), (0x2A, 118),
    (0x1D, 119), (0x22, 120), (0x35, 121), (0x1A, 122),
    (0x45, 48), (0x16, 49), (0x1E, 50), (0x26, 51), (0x25, 52), (0x2E, 53), (0x36, 54), (0x3D, 55),
    (0x3E, 56), (0x46, 57),
    (0x29, 32), (0x5A, 0x0D), (0x66, 0x08), (0x0D, 0x09),
    (0x4E, 45), (0x55, 61), (0x54, 91), (0x5B, 93), (0x5D, 92), (0x4C, 59), (0x52, 39), (0x41, 44),
    (0x49, 46), (0x4A, 47), (0x0E, 96)]

/-- `SCANCODE_TO_ASCII.get(scancode, 0)`. -/
def asciiVal (scancode : Nat) : Nat := (scancodeToAscii.lookup scancode).getD 0

def processBp : Nat := 23
def processF0 : Nat := processBp + 1
def processE0 : Nat := processF0 + 1
def processExtcheck : Nat := processE0 + 1
def processDispatch : Nat := processExtcheck + 1
def emitPage : Nat := processDispatch + 1
def tableStart : Nat := emitPage + 1
def maxSafeScancode : Nat := 255 - tableStart

/-! ## The script -/

/-- Page 0. -/
def start : List Statement :=
  .reservePage 0 ::
    page [.exec (.addi accum 0 0), .exec (.addi breakPending 0 0), .exec (.addi extPending 0 0)] ++
    [.call (.switchTo 1 none)]

/-- Is a break sequence already in progress? -/
def breakCheck : List Statement :=
  .reservePage processBp ::
    page [.exec (.beq breakPending 0 "NOT_BP"), .exec (.addi breakPending 0 0),
      .exec (.addi extPending 0 0), .exec (.addi accum 0 0), .exec (.addi 30 0 1),
      .exec (.jal 0 "CONVERGE"), .label "NOT_BP", .exec (.addi 30 0 processF0), .label "CONVERGE"] ++
    [.call (.switchToComputed none)]

/-- Is this byte the prefix of a break code? -/
def breakPrefix : List Statement :=
  .reservePage processF0 ::
    page [.exec (.addi 7 0 0xF0), .exec (.beq accum 7 "IS_F0"), .exec (.addi 30 0 processE0),
      .exec (.jal 0 "CONVERGE"), .label "IS_F0", .exec (.addi breakPending 0 1), .exec (.addi accum 0 0),
      .exec (.addi 30 0 1), .label "CONVERGE"] ++
    [.call (.switchToComputed none)]

/-- Is it the prefix of an extended code? -/
def extPrefix : List Statement :=
  .reservePage processE0 ::
    page [.exec (.addi 7 0 0xE0), .exec (.beq accum 7 "IS_E0"), .exec (.addi 30 0 processExtcheck),
      .exec (.jal 0 "CONVERGE"), .label "IS_E0", .exec (.addi extPending 0 1), .exec (.addi accum 0 0),
      .exec (.addi 30 0 1), .label "CONVERGE"] ++
    [.call (.switchToComputed none)]

/-- Is an extended make code in progress? -/
def extCheck : List Statement :=
  .reservePage processExtcheck ::
    page [.exec (.beq extPending 0 "NOT_EP"), .exec (.addi extPending 0 0), .exec (.addi accum 0 0),
      .exec (.addi 30 0 1), .exec (.jal 0 "CONVERGE"), .label "NOT_EP",
      .exec (.addi 30 0 processDispatch), .label "CONVERGE"] ++
    [.call (.switchToComputed none)]

/-- A plain make code: jump to its page. -/
def dispatch : List Statement :=
  .reservePage processDispatch ::
    page [.exec (.addi 7 0 maxSafeScancode), .exec (.blt 7 accum "OUT_OF_RANGE"),
      .exec (.addi 7 0 tableStart), .exec (.add 30 accum 7), .exec (.jal 0 "CONVERGE"),
      .label "OUT_OF_RANGE", .exec (.addi 30 0 tableStart), .label "CONVERGE"] ++
    [.call (.switchToComputed none)]

def emit : List Statement :=
  .reservePage emitPage :: page [.exec (.sw 8 0 gpioOut), .exec (.addi accum 0 0)] ++
    [.call (.switchTo 1 none)]

def tableEntry (scancode : Nat) : List Statement :=
  .reservePage (tableStart + scancode) :: page [.exec (.addi 8 0 (asciiVal scancode))] ++
    [.call (.switchTo emitPage none)]

def script : List Statement :=
  start ++ receivePages ++ breakCheck ++ breakPrefix ++ extPrefix ++ extCheck ++ dispatch ++ emit ++
  .reservePage tableStart :: (List.range (maxSafeScancode + 1)).flatMap tableEntry

/-! ## Its pages -/

/-- The last two instructions of a page with a `switch_to_computed`. -/
def leaveComputed : List Instr := [.store .sw 0 30 0xFC, .jal 0 (-40)]

def startListing : List Instr :=
  [nop, .aluImm .add 4 0 0, .aluImm .add 5 0 0, .aluImm .add 6 0 0, nop, nop, nop, nop] ++ leave 1

def breakCheckListing : List Instr :=
  [.branch .beq 5 0 24, .aluImm .add 5 0 0, .aluImm .add 6 0 0, .aluImm .add 4 0 0, .aluImm .add 30 0 1,
    .jal 0 8, .aluImm .add 30 0 24, nop, nop] ++ leaveComputed

/-- The page that looks for the prefix `b`, sets the flag `flag`, and goes on to `next`. -/
def prefixListing (b : BitVec 32) (flag : BitVec 5) (next : BitVec 32) : List Instr :=
  [.aluImm .add 7 0 b, .branch .beq 4 7 12, .aluImm .add 30 0 next, .jal 0 16, .aluImm .add flag 0 1,
    .aluImm .add 4 0 0, .aluImm .add 30 0 1, nop, nop] ++ leaveComputed

def extCheckListing : List Instr :=
  [.branch .beq 6 0 20, .aluImm .add 6 0 0, .aluImm .add 4 0 0, .aluImm .add 30 0 1, .jal 0 8,
    .aluImm .add 30 0 27, nop, nop, nop] ++ leaveComputed

def dispatchListing : List Instr :=
  [.aluImm .add 7 0 226, .branch .blt 7 4 16, .aluImm .add 7 0 29, .alu .add 30 4 7, .jal 0 8,
    .aluImm .add 30 0 29, nop, nop, nop] ++ leaveComputed

def emitListing : List Instr :=
  [.store .sw 0 8 0xF0, .aluImm .add 4 0 0, nop, nop, nop, nop, nop, nop] ++ leave 1

def entryListing (scancode : Nat) : List Instr :=
  [.aluImm .add 8 0 (.ofInt 32 (asciiVal scancode)), nop, nop, nop, nop, nop, nop, nop] ++ leave 28

def code : List (List Instr) :=
  startListing :: receiveCode ++ breakCheckListing ::
    prefixListing 0xF0 5 25 :: prefixListing 0xE0 6 26 :: extCheckListing :: dispatchListing ::
    emitListing :: (List.range 227).map entryListing

theorem asciiVal_small (scancode : Nat) : asciiVal scancode < 256 := by
  have values : ∀ pair ∈ scancodeToAscii, pair.2 < 256 := by decide
  rw [asciiVal]
  cases found : scancodeToAscii.lookup scancode with
  | none => decide
  | some a =>
      obtain ⟨before, after, split, -⟩ := List.lookup_eq_some_iff.mp found
      exact values (scancode, a) (by rw [split]; simp)

/-- The page numbers. -/
theorem numbers : processF0 = 24 ∧ processE0 = 25 ∧ processExtcheck = 26 ∧ processDispatch = 27 ∧
    emitPage = 28 ∧ tableStart = 29 ∧ maxSafeScancode = 226 := by
  decide

theorem builds_start : Builds start 0 [startListing] := by
  refine .reservePage (Builds.page (.switchTo 1) ⟨rfl, ?_, ?_, ?_⟩ rfl)
  · decide
  · simp [PagedAsm.head, Ending.load, Method.nop, Method.InRange, accum, breakPending, extPending]
  · simp [PagedAsm.head, Method.nop, Method.target]

theorem builds_breakCheck : Builds breakCheck 23 [breakCheckListing] := by
  refine .reservePage (Builds.page (k := 22 + 1) .switchToComputed ⟨rfl, ?_, ?_, ?_⟩ rfl)
  · decide
  · simp [Ending.load, Method.InRange, accum, breakPending, extPending, numbers]
  · simp [Method.target]

theorem builds_breakPrefix : Builds breakPrefix 24 [prefixListing 0xF0 5 25] := by
  refine .reservePage (Builds.page (k := 23 + 1) .switchToComputed ⟨rfl, ?_, ?_, ?_⟩ rfl)
  · decide
  · simp [Ending.load, Method.InRange, accum, breakPending, numbers]
  · simp [Method.target]

theorem builds_extPrefix : Builds extPrefix 25 [prefixListing 0xE0 6 26] := by
  refine .reservePage (Builds.page (k := 24 + 1) .switchToComputed ⟨rfl, ?_, ?_, ?_⟩ rfl)
  · decide
  · simp [Ending.load, Method.InRange, accum, extPending, numbers]
  · simp [Method.target]

theorem builds_extCheck : Builds extCheck 26 [extCheckListing] := by
  refine .reservePage (Builds.page (k := 25 + 1) .switchToComputed ⟨rfl, ?_, ?_, ?_⟩ rfl)
  · decide
  · simp [Ending.load, Method.InRange, accum, extPending, numbers]
  · simp [Method.target]

theorem builds_dispatch : Builds dispatch 27 [dispatchListing] := by
  refine .reservePage (Builds.page (k := 26 + 1) .switchToComputed ⟨rfl, ?_, ?_, ?_⟩ rfl)
  · decide
  · simp [Ending.load, Method.InRange, accum, numbers]
  · simp [Method.target]

theorem builds_emit : Builds emit 28 [emitListing] := by
  refine .reservePage (Builds.page (k := 27 + 1) (.switchTo 1) ⟨rfl, ?_, ?_, ?_⟩ rfl)
  · decide
  · simp [Ending.load, Method.InRange, accum, gpioOut]
  · simp [Method.target]

theorem builds_tableEntry (scancode : Nat) :
    Builds (tableEntry scancode) (29 + scancode) [entryListing scancode] := by
  have small := asciiVal_small scancode
  have here : tableStart + scancode = 28 + scancode + 1 := by
    rw [show tableStart = 29 from rfl]
    ring
  rw [tableEntry, here, show 29 + scancode = 28 + scancode + 1 by ring]
  refine .reservePage (Builds.page (.switchTo 28) ⟨rfl, ?_, ?_, ?_⟩ rfl)
  · simp [Ending.room]
  · simp [Ending.load, Method.InRange]
    omega
  · simp [Method.target]

theorem builds_script : Builds script 0 code := by
  have entries : Builds ((List.range 227).flatMap tableEntry) 29
      ((List.range 227).flatMap fun scancode => [entryListing scancode]) :=
    Builds.loop (m := 1) tableEntry _ (fun scancode _ => by simpa using builds_tableEntry scancode)
      fun _ => rfl
  rw [← List.map_eq_flatMap] at entries
  exact (((((((builds_start.append builds_receivePages).append builds_breakCheck).append
    builds_breakPrefix).append builds_extPrefix).append builds_extCheck).append builds_dispatch).append
    builds_emit).append (.reservePage entries)

/-! ## What they do -/

/-- The two flags of the program. -/
structure Flags where
  breakPending : Bool
  extPending : Bool

/-- What the program does with a byte. -/
def Flags.consume (q : Flags) (b : BitVec 8) : Flags × List (BitVec 8) :=
  if q.breakPending then ({ breakPending := false, extPending := false }, [])
  else if b = 0xF0 then ({ q with breakPending := true }, [])
  else if b = 0xE0 then ({ q with extPending := true }, [])
  else if q.extPending then ({ q with extPending := false }, [])
  else (q, [.ofNat 8 (asciiVal b.toNat)])

/-- The flags are in `x5` and `x6`. -/
structure Holds (q : Flags) (x : RegFile) : Prop where
  breakPending : x 5 = if q.breakPending then 1 else 0
  extPending : x 6 = if q.extPending then 1 else 0

theorem Holds.break_iff {q : Flags} {x : RegFile} (holds : Holds q x) :
    x 5 = 0 ↔ q.breakPending = false := by
  rw [holds.breakPending]
  cases q.breakPending <;> decide

theorem Holds.ext_iff {q : Flags} {x : RegFile} (holds : Holds q x) : x 6 = 0 ↔ q.extPending = false := by
  rw [holds.extPending]
  cases q.extPending <;> decide

/-- The byte that is handed to page 23. -/
def handed (s : State) : Option (BitVec 32) := if s.page = 23 ∧ s.pc = 0xB4 then some (s.x 4) else none

theorem receives : Receives code := receives_of startListing breakCheckListing _

theorem length_code : code.length = 256 := by
  simp [code, show receiveCode.length = 22 from rfl]

theorem handed_elsewhere {page : BitVec 8} {k : Nat} (away : page ≠ 23 ∨ 1 ≤ k ∧ k ≤ 10) (y : RegFile) :
    handed (onPage page k y) = none := by
  refine if_neg fun ⟨here, first⟩ => ?_
  rcases away with elsewhere | ⟨later, within⟩
  · exact elsewhere here
  · have value := congrArg BitVec.toNat first
    rw [onPage, BitVec.toNat_ofNat] at value
    simp at value
    omega

theorem unmarked : Unmarked handed where
  receiving k j y below _ := by
    refine handed_elsewhere (.inl fun same => ?_) y
    have value := congrArg BitVec.toNat same
    rw [BitVec.toNat_ofNat] at value
    simp at value
    omega
  next y := handed_elsewhere (.inr (by omega)) y

/-- Scancodes without a page have no entry. -/
theorem asciiVal_above {b : BitVec 8} (above : (226#32).slt (b.setWidth 32) = true) :
    asciiVal b.toNat = asciiVal 0 := by
  revert b
  decide

/-- The page of a scancode that has one. -/
theorem page_of_scancode {b : BitVec 8} (within : (226#32).slt (b.setWidth 32) = false) :
    ((b.setWidth 32 + 29#32).setWidth 8).toNat = 29 + b.toNat := by
  revert b
  decide

/-- The comparisons of pages 24 and 25. -/
theorem prefix_iff (b : BitVec 8) :
    (b.setWidth 32 = (0xF0 : BitVec 32) ↔ b = 0xF0) ∧ (b.setWidth 32 = (0xE0 : BitVec 32) ↔ b = 0xE0) := by
  revert b
  decide

section Run

variable {image : List (BitVec 8)} (lists : Lists image code) {r : Clocked.Run (Paged.step image)}
  {m k : Nat} {x : RegFile}
include lists

/-- Page 0, from its first instruction or from the one after it. -/
theorem starts_within (here : r.state m = some (onPage 0 k x)) (entry : k = 0 ∨ k = 1) :
    ∃ m' x', m' ≤ m + 11 ∧ Leads r handed m m' (onPage 1 0 x') .empty ∧ x' 4 = 0 ∧
      Holds ⟨false, false⟩ x' := by
  have held : code[(0 : BitVec 8).toNat]? = some startListing := rfl
  have quiet (j : Nat) (y : RegFile) : handed (onPage 0 j y) = none := handed_elsewhere (.inl (by decide)) y
  have clears : ∃ m', m' ≤ m + 8 ∧ Leads r handed m m'
      (onPage 0 8 (writeReg (writeReg (writeReg x 4 0) 5 0) 6 0)) .empty := by
    rcases entry with rfl | rfl
    · exact leads_within lists held here (n := 8) (l := ⟨8, none, _, []⟩) rfl fun j y _ _ => quiet j y
    · obtain ⟨m', soon, clears⟩ := leads_within lists held here (n := 7)
        (l := ⟨8, none, writeReg (writeReg (writeReg x 4 0) 5 0) 6 0, []⟩) rfl fun j y _ _ => quiet j y
      exact ⟨m', by omega, clears⟩
  obtain ⟨m', soon, clears⟩ := clears
  obtain ⟨m'', soon', leaves⟩ := leads_leave_within lists held 1 clears.reached rfl
    (fun j y _ _ => quiet j y) (by rw [length_code]; omega) (by omega)
    fun y => handed_elsewhere (.inl (by decide)) y
  exact ⟨m'', _, by omega, clears.trans leaves, rfl, ⟨rfl, rfl⟩⟩

/-- Page 0 leads to page 1, with no bit received and no flag set. -/
theorem starts (here : r.state m = some (onPage 0 k x)) (entry : k = 0 ∨ k = 1) :
    ∃ m' x', Leads r handed m m' (onPage 1 0 x') .empty ∧ x' 4 = 0 ∧ Holds ⟨false, false⟩ x' := by
  obtain ⟨m', x', -, leads⟩ := starts_within lists here entry
  exact ⟨m', x', leads⟩

/-- A page after page 23, up to its end. -/
theorem turns {page next : BitVec 8} {listing : List Instr} {n : Nat} {y : RegFile}
    {ws : List (BitVec 8)} (held : code[page.toNat]? = some listing)
    (here : r.state m = some (onPage page k x)) (away : page ≠ 23 ∨ 1 ≤ k)
    (runs : line listing n k x = some ⟨10, some next, y, ws⟩) :
    ∃ m', m' ≤ m + n + 1 ∧ Leads r handed m m' (onPage next 0 y) (.ofWrites ws) := by
  refine leads_turn_within lists held here runs (fun j y after upto => handed_elsewhere ?_ y) ?_
    (handed_elsewhere (.inr (by omega)) y)
  · exact away.imp_right fun later => by omega
  · rw [length_code]
    exact next.isLt

/-- Page 23 takes the byte; if a break code is pending, this is its end. -/
theorem leads_breakCheck (here : r.state m = some (onPage 23 0 x)) :
    ∃ m', m' ≤ m + 10 ∧ Leads r handed m m' (if x 5 = 0 then onPage 24 0 (writeReg x 30 24)
      else onPage 1 0 (writeReg (writeReg (writeReg (writeReg x 5 0) 6 0) 4 0) 30 1)) ⟨[], [], [x 4]⟩ := by
  have held : code[(23 : BitVec 8).toNat]? = some breakCheckListing := rfl
  have branched := leads_branch lists held handed here
    (show breakCheckListing[0]? = some (.branch .beq 5 0 24) from rfl) (by decide)
    (show Paged.jump 0 24 = 6 from rfl)
  rw [show handed (onPage 23 0 x) = some (x 4) from if_pos ⟨rfl, rfl⟩] at branched
  change Leads r handed m (m + 1) (onPage 23 (if decide (x 5 = 0) then 6 else 1) x) _ at branched
  by_cases idle : x 5 = 0
  · rw [if_pos (by simpa using idle)] at branched
    obtain ⟨m', soon, turned⟩ := turns lists held branched.reached (.inr (by omega)) (n := 4) rfl
    rw [if_pos idle]
    exact ⟨m', by omega, branched.trans turned⟩
  · rw [if_neg (by simpa using idle)] at branched
    obtain ⟨m', soon, turned⟩ := turns lists held branched.reached (.inr (by omega)) (n := 8) rfl
    rw [if_neg idle]
    exact ⟨m', by omega, branched.trans turned⟩

/-- A page that looks for a prefix. -/
theorem leads_prefix {page : BitVec 8} {b next : BitVec 32} {flag : BitVec 5}
    (held : code[page.toNat]? = some (prefixListing b flag next)) (away : page ≠ 23)
    (here : r.state m = some (onPage page 0 x)) :
    ∃ m', m' ≤ m + 9 ∧ Leads r handed m m' (if x 4 = b then
        onPage 1 0 (writeReg (writeReg (writeReg (writeReg x 7 b) flag 1) 4 0) 30 1)
      else onPage (next.setWidth 8) 0 (writeReg (writeReg x 7 b) 30 next)) .empty := by
  obtain ⟨m₁, soon, loads⟩ := leads_within lists held here (n := 1)
    (l := ⟨1, none, writeReg x 7 (0 + b), []⟩) rfl fun j y _ _ => handed_elsewhere (.inl away) y
  have branched := leads_branch lists held handed loads.reached
    (show (prefixListing b flag next)[1]? = some (.branch .beq 4 7 12) from rfl) (by decide)
    (show Paged.jump 1 12 = 4 from rfl)
  rw [handed_elsewhere (.inl away)] at branched
  change Leads r handed m₁ (m₁ + 1) (onPage page (if decide (x 4 = 0 + b) then 4 else 2) _) _ at branched
  have through := loads.trans branched
  rw [load_eq] at through
  by_cases found : x 4 = b
  · rw [if_pos (by simpa using found)] at through
    obtain ⟨m', soon', turned⟩ := turns lists held through.reached (.inl away) (n := 6) rfl
    rw [if_pos found]
    exact ⟨m', by omega, through.trans turned⟩
  · rw [if_neg (by simpa using found)] at through
    obtain ⟨m', soon', turned⟩ := turns lists held through.reached (.inl away) (n := 5) rfl
    rw [if_neg found, ← load_eq next]
    exact ⟨m', by omega, through.trans turned⟩

/-- Page 26: an extended make code is dropped. -/
theorem leads_extCheck (here : r.state m = some (onPage 26 0 x)) :
    ∃ m', m' ≤ m + 10 ∧ Leads r handed m m' (if x 6 = 0 then onPage 27 0 (writeReg x 30 27)
      else onPage 1 0 (writeReg (writeReg (writeReg x 6 0) 4 0) 30 1)) .empty := by
  have held : code[(26 : BitVec 8).toNat]? = some extCheckListing := rfl
  have away : (26 : BitVec 8) ≠ 23 := by decide
  have branched := leads_branch lists held handed here
    (show extCheckListing[0]? = some (.branch .beq 6 0 20) from rfl) (by decide)
    (show Paged.jump 0 20 = 5 from rfl)
  rw [handed_elsewhere (.inl away)] at branched
  change Leads r handed m (m + 1) (onPage 26 (if decide (x 6 = 0) then 5 else 1) x) _ at branched
  by_cases idle : x 6 = 0
  · rw [if_pos (by simpa using idle)] at branched
    obtain ⟨m', soon, turned⟩ := turns lists held branched.reached (.inl away) (n := 5) rfl
    rw [if_pos idle]
    exact ⟨m', by omega, branched.trans turned⟩
  · rw [if_neg (by simpa using idle)] at branched
    obtain ⟨m', soon, turned⟩ := turns lists held branched.reached (.inl away) (n := 8) rfl
    rw [if_neg idle]
    exact ⟨m', by omega, branched.trans turned⟩

/-- The page of a scancode puts its character into `x8` and leads to page 28. -/
theorem leads_entry {page : BitVec 8} (scancode : Nat) (names : page.toNat = 29 + scancode)
    (here : r.state m = some (onPage page 0 x)) :
    ∃ m', m' ≤ m + 11 ∧ Leads r handed m m' (onPage 28 0
      (writeReg (writeReg x 8 (.ofInt 32 (asciiVal scancode))) 30 28)) .empty := by
  have before : scancode < 227 := by
    have bound := page.isLt
    omega
  have held : code[page.toNat]? = some (entryListing scancode) := by
    rw [names, code, List.cons_append, Nat.add_comm]
    change ((List.range 227).map entryListing)[scancode]? = _
    rw [List.getElem?_map, List.getElem?_range before]
    rfl
  have quiet (j : Nat) (y : RegFile) : handed (onPage page j y) = none := by
    refine handed_elsewhere (.inl fun same => ?_) y
    rw [same] at names
    simp at names
    omega
  obtain ⟨m₁, soon, loads⟩ := leads_within lists held here (n := 8)
    (l := ⟨8, none, writeReg x 8 (0 + .ofInt 32 (asciiVal scancode)), []⟩) rfl fun j y _ _ => quiet j y
  obtain ⟨m₂, soon', leaves⟩ := leads_leave_within lists held 28 loads.reached rfl
    (fun j y _ _ => quiet j y) (by rw [length_code]; omega) (by omega)
    fun y => handed_elsewhere (.inl (by decide)) y
  have whole := loads.trans leaves
  rw [load_eq] at whole
  exact ⟨m₂, by omega, whole⟩

/-- Page 27 and the page of the scancode: the value that is looked up. -/
theorem leads_dispatch {b : BitVec 8} (here : r.state m = some (onPage 27 0 x))
    (scancode : x 4 = b.setWidth 32) :
    ∃ m' x', m' ≤ m + 21 ∧ Leads r handed m m' (onPage 28 0 x') .empty ∧ Kept x x' ∧
      x' 8 = .ofInt 32 (asciiVal b.toNat) := by
  have held : code[(27 : BitVec 8).toNat]? = some dispatchListing := rfl
  have away : (27 : BitVec 8) ≠ 23 := by decide
  obtain ⟨m₁, soon, loads⟩ := leads_within lists held here (n := 1)
    (l := ⟨1, none, writeReg x 7 226, []⟩) rfl fun j y _ _ => handed_elsewhere (.inl away) y
  have branched := leads_branch lists held handed loads.reached
    (show dispatchListing[1]? = some (.branch .blt 7 4 16) from rfl) (by decide)
    (show Paged.jump 1 16 = 5 from rfl)
  rw [handed_elsewhere (.inl away)] at branched
  change Leads r handed m₁ (m₁ + 1) (onPage 27 (if (226#32).slt (x 4) then 5 else 2) _) _ at branched
  rw [scancode] at branched
  have through := loads.trans branched
  cases above : (226#32).slt (b.setWidth 32) with
  | true =>
      rw [above, if_pos rfl] at through
      obtain ⟨m₂, soon', turned⟩ := turns lists held through.reached (.inl away) (n := 5) rfl
      obtain ⟨m₃, soon'', enters⟩ := leads_entry lists 0 rfl turned.reached
      refine ⟨m₃, _, by omega, (through.trans turned).trans enters, ⟨rfl, rfl⟩, ?_⟩
      rw [asciiVal_above above]
      rfl
  | false =>
      rw [above, if_neg (by simp)] at through
      obtain ⟨m₂, soon', turned⟩ := turns lists held through.reached (.inl away)
        (show line dispatchListing 7 2 _ = some ⟨10, some ((x 4 + 29#32).setWidth 8), _, []⟩ from rfl)
      rw [scancode] at turned
      obtain ⟨m₃, soon'', enters⟩ := leads_entry lists b.toNat (page_of_scancode above) turned.reached
      exact ⟨m₃, _, by omega, (through.trans turned).trans enters, ⟨rfl, rfl⟩, rfl⟩

/-- Page 28 writes the value. -/
theorem leads_emit (here : r.state m = some (onPage 28 0 x)) :
    ∃ m', m' ≤ m + 11 ∧ Leads r handed m m' (onPage 1 0 (writeReg (writeReg x 4 0) 30 1))
      (.ofWrites [(x 8).setWidth 8]) := by
  have held : code[(28 : BitVec 8).toNat]? = some emitListing := rfl
  have quiet (j : Nat) (y : RegFile) : handed (onPage 28 j y) = none :=
    handed_elsewhere (.inl (by decide)) y
  obtain ⟨m₁, soon, writes⟩ := leads_within lists held here (n := 8)
    (l := ⟨8, none, writeReg x 4 0, [(x 8).setWidth 8]⟩) rfl fun j y _ _ => quiet j y
  obtain ⟨m₂, soon', leaves⟩ := leads_leave_within lists held 1 writes.reached rfl
    (fun j y _ _ => quiet j y) (by rw [length_code]; omega) (by omega)
    fun y => handed_elsewhere (.inl (by decide)) y
  exact ⟨m₂, by omega, writes.trans leaves⟩

/-- Pages 23 to 28 and the table. -/
theorem takes_within {q : Flags} {b : BitVec 8} (here : r.state m = some (onPage 23 0 x))
    (byte : x 4 = b.setWidth 32) (holds : Holds q x) :
    ∃ m' x', m' ≤ m + 70 ∧ Leads r handed m m' (onPage 1 0 x') ⟨[], (q.consume b).2, [b.setWidth 32]⟩ ∧
      x' 4 = 0 ∧ Holds (q.consume b).1 x' := by
  obtain ⟨m₁, soon₁, at23⟩ := leads_breakCheck lists here
  rw [byte] at at23
  by_cases bp : x 5 = 0
  case neg =>
    have pending : q.breakPending = true := by simpa using mt holds.break_iff.mpr bp
    rw [if_neg bp] at at23
    rw [Flags.consume, if_pos pending]
    exact ⟨m₁, _, by omega, at23, rfl, ⟨rfl, rfl⟩⟩
  rw [if_pos bp] at at23
  rw [Flags.consume, if_neg (by simp [holds.break_iff.mp bp])]
  obtain ⟨m₂, soon₂, at24⟩ := leads_prefix lists
    (show code[(24 : BitVec 8).toNat]? = some (prefixListing 0xF0 5 25) from rfl) (by decide) at23.reached
  have through := at23.trans at24
  change Leads r handed m m₂ (if x 4 = 0xF0 then onPage 1 0 _ else onPage 25 0 _) _ at through
  rw [byte] at through
  by_cases f0 : b = 0xF0
  case pos =>
    rw [if_pos ((prefix_iff b).1.mpr f0)] at through
    rw [if_pos f0]
    exact ⟨m₂, _, by omega, through, rfl, ⟨rfl, holds.extPending⟩⟩
  rw [if_neg (mt (prefix_iff b).1.mp f0)] at through
  rw [if_neg f0]
  obtain ⟨m₃, soon₃, at25⟩ := leads_prefix lists
    (show code[(25 : BitVec 8).toNat]? = some (prefixListing 0xE0 6 26) from rfl) (by decide) through.reached
  have through := through.trans at25
  change Leads r handed m m₃ (if x 4 = 0xE0 then onPage 1 0 _ else onPage 26 0 _) _ at through
  rw [byte] at through
  by_cases e0 : b = 0xE0
  case pos =>
    rw [if_pos ((prefix_iff b).2.mpr e0)] at through
    rw [if_pos e0]
    exact ⟨m₃, _, by omega, through, rfl, ⟨holds.breakPending, rfl⟩⟩
  rw [if_neg (mt (prefix_iff b).2.mp e0)] at through
  rw [if_neg e0]
  obtain ⟨m₄, soon₄, at26⟩ := leads_extCheck lists through.reached
  have through := through.trans at26
  change Leads r handed m m₄ (if x 6 = 0 then onPage 27 0 _ else onPage 1 0 _) _ at through
  by_cases ep : x 6 = 0
  case neg =>
    have pending : q.extPending = true := by simpa using mt holds.ext_iff.mpr ep
    rw [if_neg ep] at through
    rw [if_pos pending]
    exact ⟨m₄, _, by omega, through, rfl, ⟨holds.breakPending, rfl⟩⟩
  rw [if_pos ep] at through
  rw [if_neg (by simp [holds.ext_iff.mp ep])]
  obtain ⟨m₅, x', soon₅, at27, kept, value⟩ := leads_dispatch lists through.reached byte
  obtain ⟨m₆, soon₆, at28⟩ := leads_emit lists at27.reached
  have through := (through.trans at27).trans at28
  have written : (x' 8).setWidth 8 = .ofNat 8 (asciiVal b.toNat) := by
    rw [value, low_byte]
  rw [written] at through
  exact ⟨m₆, _, by omega, through, rfl, ⟨kept.1.trans holds.breakPending, kept.2.trans holds.extPending⟩⟩

/-- Page 23 and those it goes on to write what `consume` writes for the byte, keep its flags, and lead back to
page 1. -/
theorem takes {q : Flags} {b : BitVec 8} (here : r.state m = some (onPage 23 0 x))
    (byte : x 4 = b.setWidth 32) (holds : Holds q x) :
    ∃ m' x', Leads r handed m m' (onPage 1 0 x') ⟨[], (q.consume b).2, [b.setWidth 32]⟩ ∧ x' 4 = 0 ∧
      Holds (q.consume b).1 x' := by
  obtain ⟨m', x', -, takes⟩ := takes_within lists here byte holds
  exact ⟨m', x', takes⟩

/-- Pages 23 and up. -/
def consumer : Consumer r handed Flags where
  holds := Holds
  consume := Flags.consume
  marks b := [b.setWidth 32]
  kept _ _ _ kept holds := ⟨kept.1.trans holds.breakPending, kept.2.trans holds.extPending⟩
  takes _ _ _ _ here byte holds := takes lists here byte holds

end Run

/-- The program never gets stuck and always polls again; at every poll it has taken the bytes of the
frames in its polls so far, and written what the flags make of them. -/
theorem translates_frames {image : List (BitVec 8)} (lists : Lists image code)
    {r : Clocked.Run (Paged.step image)} {k : Nat} {x : RegFile}
    (start : r.state 0 = some (onPage 0 k x)) (entry : k = 0 ∨ k = 1) :
    (∀ n, (r.state n).isSome = true) ∧ (∀ n, ∃ n', n ≤ n' ∧ doing image (r.state n') = some .poll) ∧
      ∀ n, doing image (r.state n) = some .poll →
        r.observe (written image) 0 n =
          (Ps2.feed Flags.consume ⟨false, false⟩ (frames (r.observe (polled image) 0 n))).2 ∧
        r.observe (marked handed) 0 n =
          (frames (r.observe (polled image) 0 n)).map (·.setWidth 32) := by
  obtain ⟨m, x', leads, clear, holds⟩ := starts lists start entry
  obtain ⟨alive, recurs, all⟩ := (consumer lists).observes lists receives unmarked leads.reached clear
    holds leads.polls leads.writes leads.marks
  refine ⟨alive, recurs, fun n polling => ⟨(all n polling).1, (all n polling).2.trans ?_⟩⟩
  exact List.map_eq_flatMap.symm

/-- The image that the script builds: from page 0, whatever `GPIO_IN` shows, the program executes
nothing but its image, and writes what the two flags make of the frames it polls. -/
theorem image_translates : ∃ image, PagedAsm.image script = some image ∧ image.length = 44 * 256 ∧
    ∀ (r : Clocked.Run (Paged.step image)) (k : Nat) (x : RegFile), k = 0 ∨ k = 1 →
      r.state 0 = some (onPage 0 k x) →
      (∀ n, (r.state n).isSome = true) ∧
      (∀ n, ∃ n', n ≤ n' ∧ doing image (r.state n') = some .poll) ∧
      ∀ n, doing image (r.state n) = some .poll → r.observe (written image) 0 n =
        (Ps2.feed Flags.consume ⟨false, false⟩ (frames (r.observe (polled image) 0 n))).2 := by
  obtain ⟨image, built, lists⟩ := builds_script.image
  refine ⟨image, built, ?_, fun r k x entry start => ?_⟩
  · rw [lists.length, length_code]
  · obtain ⟨alive, recurs, all⟩ := translates_frames lists start entry
    exact ⟨alive, recurs, fun n polling => (all n polling).1⟩

end Ps2Ascii

open Paged (doing marked onPage polled written)
open Ps2 (frames)

/-- The image of the reader writes the bytes of the frames it polls, each once, and these are the bytes
that the ASCII program, on the same polls, hands to its page 23. -/
theorem image_reports_frames :
    ∃ image, PagedAsm.image Ps2Reader.script = some image ∧
    ∃ image', PagedAsm.image Ps2Ascii.script = some image' ∧
    ∀ (r : Clocked.Run (Paged.step image)) (k : Nat) (x : RegFile), k = 0 ∨ k = 1 →
      r.state 0 = some (onPage 0 k x) →
      (∀ n, (r.state n).isSome = true) ∧
      (∀ n, ∃ n', n ≤ n' ∧ doing image (r.state n') = some .poll) ∧
      (∀ n, doing image (r.state n) = some .poll →
        r.observe (written image) 0 n = frames (r.observe (polled image) 0 n)) ∧
      ∀ (r' : Clocked.Run (Paged.step image')) (k' : Nat) (x' : RegFile), k' = 0 ∨ k' = 1 →
        r'.state 0 = some (onPage 0 k' x') →
        ∀ n n', doing image (r.state n) = some .poll → doing image' (r'.state n') = some .poll →
          r'.observe (polled image') 0 n' = r.observe (polled image) 0 n →
          r'.observe (marked Ps2Ascii.handed) 0 n' =
            (r.observe (written image) 0 n).map (·.setWidth 32) := by
  obtain ⟨image, built, lists⟩ := Ps2Reader.builds_script.image
  obtain ⟨image', built', lists'⟩ := Ps2Ascii.builds_script.image
  refine ⟨image, built, image', built', fun r k x entry start => ?_⟩
  obtain ⟨alive, recurs, all⟩ := Ps2Reader.reports_frames lists start entry
  refine ⟨alive, recurs, all, fun r' k' x' entry' start' n n' polling polling' same => ?_⟩
  obtain ⟨-, -, all'⟩ := Ps2Ascii.translates_frames lists' start' entry'
  rw [(all' n' polling').2, same, all n polling]

end Programs

end AgilA32
