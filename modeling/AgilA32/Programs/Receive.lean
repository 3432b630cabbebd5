import AgilA32.Programs.Page
import AgilA32.Programs.Ps2

/-!
# Receiving a PS/2 frame: pages 1 to 22

`build_ps2_reader.py` and `build_ps2_ascii.py` begin with the same 22 pages, written out in each: two
for every event of a frame, one that polls until the clock is low and one that polls until it is high.
The pages do what `Ps2.Receiver` does (`Receives.poll`).
-/

namespace AgilA32

namespace Programs

open AgilA32.Core (readReg writeReg)
open Paged (Leads Log State doing fetch fetch_onPage leads_branch leads_poll leads_within line marked onPage polled
  written)
open PagedAsm (Builds Ending Lists Statement page)
open Ps2 (Receiver clock data frames)
open Rv32i (BranchOp Instr)

def clockMask : Int := 1 <<< 3
def dataMask : Int := 1 <<< 4

/-- `ACCUM`, the register in which a byte is collected. -/
def accum : Nat := 4

/-! ## The scripts' statements -/

/-- `wait_clock`. -/
def waitClock (level : Nat) (nextPage : Int) : List Statement :=
  page [.label "POLL", .exec (.lbu 1 0 gpioIn), .exec (.andi 2 1 clockMask),
    .exec (if level = 0 then .bne 2 0 "POLL" else .beq 2 0 "POLL")] ++
  [.call (.switchTo nextPage none)]

/-- `wait_clock_low_and_sample`. -/
def waitClockLowAndSample (bitValue nextPage : Int) : List Statement :=
  page [.label "POLL", .exec (.lbu 1 0 gpioIn), .exec (.andi 2 1 clockMask),
    .exec (.bne 2 0 "POLL"), .exec (.andi 3 1 dataMask), .exec (.beq 3 0 "SKIP_SET"),
    .exec (.ori accum accum bitValue), .label "SKIP_SET"] ++
  [.call (.switchTo nextPage none)]

/-- The statements of the pages from `START_LOW` to `STOP_HIGH`. -/
def receivePages : List Statement :=
  .reservePage 1 :: waitClock 0 2 ++ .reservePage 2 :: waitClock 1 3 ++
  (List.range 8).flatMap (fun bit =>
    .reservePage (3 + 2 * bit) :: waitClockLowAndSample (1 <<< bit) (3 + 2 * bit + 1) ++
    .reservePage (3 + 2 * bit + 1) :: waitClock 1 (3 + 2 * bit + 1 + 1)) ++
  .reservePage 19 :: waitClock 0 20 ++ .reservePage 20 :: waitClock 1 21 ++
  .reservePage 21 :: waitClock 0 22 ++ .reservePage 22 :: waitClock 1 23

/-! ## Their pages -/

def waitPage (op : BranchOp) (next : Int) : List Instr :=
  [.load .lbu 1 0 0xF4, .aluImm .and 2 1 8, .branch op 2 0 (-8), nop, nop, nop, nop, nop] ++
    leave next

def samplePage (bitValue next : Int) : List Instr :=
  [.load .lbu 1 0 0xF4, .aluImm .and 2 1 8, .branch .bne 2 0 (-8), .aluImm .and 3 1 16,
    .branch .beq 3 0 8, .aluImm .or 4 4 (.ofInt 32 bitValue), nop, nop] ++ leave next

/-- The page that waits for the clock to turn low in event `event` of a frame. -/
def lowPage (event : Nat) : List Instr :=
  if 1 ≤ event ∧ event ≤ 8 then samplePage (2 ^ (event - 1) : Nat) (2 * event + 2 : Nat)
  else waitPage .bne (2 * event + 2 : Nat)

/-- The page that waits for it to turn high. -/
def highPage (event : Nat) : List Instr := waitPage .beq (2 * event + 3 : Nat)

def receiveCode : List (List Instr) :=
  (List.range 11).flatMap fun event => [lowPage event, highPage event]

theorem builds_waitClock {level : Nat} {next : Int} {k : Nat} (above : 0 ≤ next)
    (below : next < 2048) :
    Builds (waitClock level next) (k + 1) [waitPage (if level = 0 then .bne else .beq) next] := by
  by_cases low : level = 0
  · rw [waitClock, if_pos low, if_pos low]
    refine Builds.page (.switchTo next) ⟨rfl, ?_, ?_, ?_⟩ rfl
    · simp [Ending.room]
    · simp [Ending.load, Method.InRange, gpioIn, clockMask]
      omega
    · simp [Method.target]
  · rw [waitClock, if_neg low, if_neg low]
    refine Builds.page (.switchTo next) ⟨rfl, ?_, ?_, ?_⟩ rfl
    · simp [Ending.room]
    · simp [Ending.load, Method.InRange, gpioIn, clockMask]
      omega
    · simp [Method.target]

theorem builds_waitClockLowAndSample {bitValue next : Int} {k : Nat} (bit : 0 ≤ bitValue)
    (small : bitValue < 2048) (above : 0 ≤ next) (below : next < 2048) :
    Builds (waitClockLowAndSample bitValue next) (k + 1) [samplePage bitValue next] := by
  refine Builds.page (.switchTo next) ⟨rfl, ?_, ?_, ?_⟩ rfl
  · simp [Ending.room]
  · simp [Ending.load, Method.InRange, gpioIn, clockMask, dataMask, accum]
    omega
  · simp [Method.target]

/-- The two pages of a data bit. -/
theorem builds_dataBit {bit : Nat} (data : bit < 8) :
    Builds (.reservePage (3 + 2 * bit) :: waitClockLowAndSample (1 <<< bit) (3 + 2 * bit + 1) ++
        .reservePage (3 + 2 * bit + 1) :: waitClock 1 (3 + 2 * bit + 1 + 1)) (3 + 2 * bit)
      [lowPage (bit + 1), highPage (bit + 1)] := by
  have value : (1 <<< bit : Int) = ((2 ^ bit : Nat) : Int) := by
    interval_cases bit <;> rfl
  have small : 2 ^ bit < 2048 :=
    (Nat.pow_lt_pow_right (by omega) data).trans (show 2 ^ 8 < 2048 by omega)
  have low : lowPage (bit + 1) = samplePage (1 <<< bit) (3 + 2 * bit + 1) := by
    rw [lowPage, if_pos ⟨by omega, by omega⟩, value, Nat.add_sub_cancel]
    congr 1
    push_cast
    ring
  have high : highPage (bit + 1) = waitPage .beq (3 + 2 * bit + 1 + 1) := by
    rw [highPage]
    congr 1
    push_cast
    ring
  rw [low, high, show 3 + 2 * bit = 2 + 2 * bit + 1 by ring]
  have samples : Builds (.reservePage (2 + 2 * bit + 1) ::
      waitClockLowAndSample (1 <<< bit) (3 + 2 * bit + 1)) (2 + 2 * bit + 1) [samplePage _ _] :=
    .reservePage (builds_waitClockLowAndSample (value ▸ Int.natCast_nonneg _)
      (value ▸ Int.ofNat_lt.mpr small) (by omega) (by omega))
  have waits : Builds (.reservePage (2 + 2 * bit + 1 + 1) :: waitClock 1 (3 + 2 * bit + 1 + 1))
      (2 + 2 * bit + 1 + 1) [waitPage .beq _] :=
    .reservePage (builds_waitClock (by omega) (by omega))
  exact samples.append waits

theorem builds_receivePages : Builds receivePages 1 receiveCode := by
  have bits := Builds.loop (k := 3) (m := 2) (n := 8)
    (fun bit => .reservePage (3 + 2 * bit) ::
      waitClockLowAndSample (1 <<< bit) (3 + 2 * bit + 1) ++
      .reservePage (3 + 2 * bit + 1) :: waitClock 1 (3 + 2 * bit + 1 + 1))
    (fun bit => [lowPage (bit + 1), highPage (bit + 1)])
    (fun _ before => builds_dataBit before) fun _ => rfl
  have wait (k : Nat) (level : Nat) (next : Int) (above : 0 ≤ next) (below : next < 2048) :
      Builds (.reservePage (k + 1) :: waitClock level next) (k + 1)
        [waitPage (if level = 0 then .bne else .beq) next] :=
    .reservePage (builds_waitClock above below)
  have start := (wait 0 0 2 (by omega) (by omega)).append (wait 1 1 3 (by omega) (by omega))
  exact ((((start.append bits).append (wait 18 0 20 (by omega) (by omega))).append
    (wait 19 1 21 (by omega) (by omega))).append (wait 20 0 22 (by omega) (by omega))).append
    (wait 21 1 23 (by omega) (by omega))

/-! ## What they do -/

/-- Pages 1 to 22 of a program, and one more, are these. -/
structure Receives (code : List (List Instr)) : Prop where
  low : ∀ event, event < 11 → code[2 * event + 1]? = some (lowPage event)
  high : ∀ event, event < 11 → code[2 * event + 2]? = some (highPage event)
  more : 23 < code.length

theorem receives_of (first next : List Instr) (rest : List (List Instr)) :
    Receives (first :: receiveCode ++ next :: rest) where
  low event before := by interval_cases event <;> rfl
  high event before := by interval_cases event <;> rfl
  more := by
    have length : receiveCode.length = 22 := rfl
    simp [length]
    omega

theorem Receives.held_low {code : List (List Instr)} (receives : Receives code) {event : Nat}
    (small : event < 11) :
    code[(BitVec.ofNat 8 (2 * event + 1)).toNat]? = some (lowPage event) := by
  rw [BitVec.toNat_ofNat, Nat.mod_eq_of_lt (by omega)]
  exact receives.low event small

theorem Receives.held_high {code : List (List Instr)} (receives : Receives code) {event : Nat}
    (small : event < 11) :
    code[(BitVec.ofNat 8 (2 * event + 2)).toNat]? = some (highPage event) := by
  rw [BitVec.toNat_ofNat, Nat.mod_eq_of_lt (by omega)]
  exact receives.high event small

/-- The first three instructions of a receiving page. -/
theorem take_lowPage (event : Nat) : (lowPage event).take 3 =
    [.load .lbu 1 0 0xF4, .aluImm .and 2 1 8, .branch .bne 2 0 (-8)] := by
  rw [lowPage]
  split <;> rfl

theorem take_highPage (event : Nat) : (highPage event).take 3 =
    [.load .lbu 1 0 0xF4, .aluImm .and 2 1 8, .branch .beq 2 0 (-8)] := rfl

/-- The clock and the data line, as the pages test them. -/
theorem clock_taken (v : BitVec 8) :
    BranchOp.bne.taken (v.setWidth 32 &&& 8#32) 0#32 = clock v ∧
      BranchOp.beq.taken (v.setWidth 32 &&& 8#32) 0#32 = !clock v := by
  revert v
  decide

theorem data_taken (v : BitVec 8) :
    BranchOp.beq.taken (v.setWidth 32 &&& 16#32) 0#32 = !data v := by
  revert v
  decide

/-- The registers that the pages do not use. -/
def Kept (x x' : RegFile) : Prop := x' 5 = x 5 ∧ x' 6 = x 6

section Polls

variable {image : List (BitVec 8)} {code : List (List Instr)} (lists : Lists image code)
  {r : Clocked.Run (Paged.step image)} {mark : State → Option (BitVec 32)} {m : Nat}
  {page : BitVec 8} {listing : List Instr} (held : code[page.toNat]? = some listing)
  (quiet : ∀ j y, j ≤ 10 → mark (onPage page j y) = none) {x : RegFile}

/-- The registers after the poll of a page and the test of the clock. -/
def tested (v : BitVec 8) (x : RegFile) : RegFile :=
  writeReg (writeReg x 1 (v.setWidth 32)) 2 (v.setWidth 32 &&& 8#32)

section Pages

include lists held quiet

/-- A poll leaves the loop of its page or returns to it. -/
theorem poll_clock (here : r.state m = some (onPage page 0 x)) {op : BranchOp}
    (first : listing.take 3 = [.load .lbu 1 0 0xF4, .aluImm .and 2 1 8, .branch op 2 0 (-8)]) :
    ∃ m', m' ≤ m + 3 ∧ Leads r mark m m' (onPage page
        (if op.taken ((r.input m).setWidth 32 &&& 8#32) 0#32 then 0 else 3) (tested (r.input m) x))
      ⟨[r.input m], [], []⟩ := by
  have slot (k : Nat) (before : k < 3) : listing[k]? = (listing.take 3)[k]? := by
    rw [List.getElem?_take_of_lt before]
  rw [first] at slot
  have polled := leads_poll lists held here (slot 0 (by omega)) (quiet 0 x (by omega))
  have mask : line listing 1 1 (writeReg x 1 ((r.input m).setWidth 32)) =
      some ⟨2, none, tested (r.input m) x, []⟩ := by
    rw [line, slot 1 (by omega)]
    rfl
  obtain ⟨m', soon, masked⟩ := leads_within lists held polled.reached mask fun j y _ upto => quiet j y upto
  have branched := leads_branch lists held mark masked.reached (slot 2 (by omega))
    (by decide) (show Paged.jump 2 (-8) = 0 from rfl)
  rw [quiet 2 _ (by omega)] at branched
  exact ⟨_, by omega, (polled.trans masked).trans branched⟩

/-- The rest of a page that does not sample. -/
theorem leave_wait (next : Nat) {op : BranchOp} (is_wait : listing = waitPage op next)
    (here : r.state m = some (onPage page 3 x)) (exists_ : next < code.length) (small : next < 256)
    (quiet' : ∀ y, mark (onPage (.ofNat 8 next) 10 y) = none) :
    ∃ m', m' ≤ m + 8 ∧
      Leads r mark m m' (onPage (.ofNat 8 next) 0 (writeReg x 30 (.ofInt 32 next))) .empty := by
  have nop : line listing 5 3 x = some ⟨8, none, x, []⟩ := by
    rw [is_wait]
    rfl
  obtain ⟨m', soon, nops⟩ := leads_within lists held here nop fun j y _ upto => quiet j y upto
  obtain ⟨m'', soon', leaves⟩ := leads_leave_within lists held next nops.reached (by rw [is_wait]; rfl)
    (fun j y _ upto => quiet j y upto) exists_ small quiet'
  exact ⟨m'', by omega, nops.trans leaves⟩

/-- The rest of a page that samples. -/
theorem leave_sample (next : Nat) {bitValue : Int} (is_sample : listing = samplePage bitValue next)
    {v : BitVec 8} (polled : x 1 = v.setWidth 32) (here : r.state m = some (onPage page 3 x))
    (exists_ : next < code.length) (small : next < 256)
    (quiet' : ∀ y, mark (onPage (.ofNat 8 next) 10 y) = none) :
    ∃ m' x', m' ≤ m + 8 ∧ Leads r mark m m' (onPage (.ofNat 8 next) 0 x') .empty ∧ Kept x x' ∧
      x' 4 = if data v then x 4 ||| .ofInt 32 bitValue else x 4 := by
  have mask : line listing 1 3 x = some ⟨4, none, writeReg x 3 (readReg x 1 &&& 16#32), []⟩ := by
    rw [is_sample]
    rfl
  obtain ⟨m₁, soon, masked⟩ := leads_within lists held here mask fun j y _ upto => quiet j y upto
  have branched := leads_branch lists held mark masked.reached
    (show listing[4]? = some (.branch .beq 3 0 8) by rw [is_sample]; rfl) (by decide)
    (show Paged.jump 4 8 = 6 from rfl)
  rw [quiet 4 _ (by omega)] at branched
  change Leads r mark m₁ (m₁ + 1) (onPage page
    (if BranchOp.beq.taken (readReg x 1 &&& 16#32) 0#32 then 6 else 5) _) _ at branched
  rw [show readReg x 1 = v.setWidth 32 from polled, data_taken] at branched
  have through := masked.trans branched
  have leaves (m' : Nat) (y : RegFile) (there : r.state m' = some (onPage page 8 y)) :=
    leads_leave_within lists held next there (by rw [is_sample]; rfl) (fun j z _ upto => quiet j z upto)
      exists_ small quiet'
  cases set : data v with
  | false =>
      rw [set] at through
      have nop (y : RegFile) : line listing 2 6 y = some ⟨8, none, y, []⟩ := by
        rw [is_sample]
        rfl
      obtain ⟨m₂, soon', nops⟩ := leads_within lists held through.reached (nop _) fun j y _ upto => quiet j y upto
      obtain ⟨m₃, soon'', left⟩ := leaves m₂ _ nops.reached
      exact ⟨m₃, _, by omega, (through.trans nops).trans left, ⟨rfl, rfl⟩, rfl⟩
  | true =>
      rw [set] at through
      have set (y : RegFile) : line listing 3 5 y =
          some ⟨8, none, writeReg y 4 (readReg y 4 ||| .ofInt 32 bitValue), []⟩ := by
        rw [is_sample]
        rfl
      obtain ⟨m₂, soon', sets⟩ := leads_within lists held through.reached (set _) fun j y _ upto => quiet j y upto
      obtain ⟨m₃, soon'', left⟩ := leaves m₂ _ sets.reached
      exact ⟨m₃, _, by omega, (through.trans sets).trans left, ⟨rfl, rfl⟩, rfl⟩

end Pages

/-- The marks that the receiving pages pass by. -/
structure Unmarked (mark : State → Option (BitVec 32)) : Prop where
  receiving : ∀ k j y, k < 23 → j ≤ 10 → mark (onPage (.ofNat 8 k) j y) = none
  next : ∀ y, mark (onPage 23 10 y) = none

/-- The machine has polled `vs` and is about to poll again, in the state of the receiver. -/
structure Waits (vs : List (BitVec 8)) (s : State) (x : RegFile) (event : Nat) (low : Bool)
    (acc : BitVec 8) : Prop where
  receiver : Receiver vs event low acc
  small : event < 11
  state : s = onPage (.ofNat 8 (2 * event + 1 + low.toNat)) 0 x
  collected : x 4 = acc.setWidth 32

/-- The bit that a data page sets, in the register and in the byte. -/
theorem set_bit (acc : BitVec 8) {event : Nat} (carries : 1 ≤ event ∧ event ≤ 8) :
    acc.setWidth 32 ||| .ofInt 32 (2 ^ (event - 1) : Nat) =
      (acc ||| .ofNat 8 (2 ^ (event - 1))).setWidth 32 := by
  obtain ⟨above, below⟩ := carries
  rw [BitVec.setWidth_or]
  congr 1
  interval_cases event <;> rfl

section Poll

include lists
variable (receives : Receives code) (unmarked : Unmarked mark) {s : State} {event : Nat}
  {acc : BitVec 8} {vs : List (BitVec 8)} (here : r.state m = some s)
include receives unmarked here

/-- A poll while the clock is high. -/
theorem poll_low (waits : Waits vs s x event false acc) :
    ∃ m' s' x' low' acc', m' ≤ m + 11 ∧ Leads r mark m m' s' ⟨[r.input m], [], []⟩ ∧ Kept x x' ∧
      Waits (vs ++ [r.input m]) s' x' event low' acc' ∧ frames (vs ++ [r.input m]) = frames vs := by
  have small := waits.small
  have more := receives.more
  rw [waits.state, show 2 * event + 1 + false.toNat = 2 * event + 1 from rfl] at here
  have held := receives.held_low small
  have quiet (j : Nat) (y : RegFile) (upto : j ≤ 10) :=
    unmarked.receiving (2 * event + 1) j y (by omega) upto
  have quiet' (y : RegFile) : mark (onPage (.ofNat 8 (2 * event + 2)) 10 y) = none :=
    unmarked.receiving (2 * event + 2) 10 y (by omega) le_rfl
  obtain ⟨m₁, soon, polls⟩ := poll_clock lists held quiet here (take_lowPage event)
  rw [(clock_taken _).1] at polls
  cases level : clock (r.input m) with
  | true =>
      rw [level, if_pos rfl] at polls
      obtain ⟨receiver, same⟩ := waits.receiver.stays level
      exact ⟨m₁, _, tested (r.input m) x, false, acc, by omega, polls, ⟨rfl, rfl⟩,
        ⟨receiver, small, rfl, waits.collected⟩, same⟩
  | false =>
      rw [level, if_neg (by simp)] at polls
      obtain ⟨receiver, same⟩ := waits.receiver.falls level
      by_cases carries : 1 ≤ event ∧ event ≤ 8
      · obtain ⟨m₂, x', soon', leaves, kept, bit⟩ := leave_sample lists held quiet
          (2 * event + 2) (if_pos carries) (v := r.input m) rfl polls.reached (by omega) (by omega) quiet'
        refine ⟨m₂, _, x', true, _, by omega, polls.trans leaves, kept, ⟨receiver, small, rfl, ?_⟩, same⟩
        rw [bit, show tested (r.input m) x 4 = x 4 from rfl, waits.collected]
        split
        case isTrue set => rw [if_pos ⟨carries.1, carries.2, set⟩, set_bit acc carries]
        case isFalse unset => rw [if_neg fun all => unset all.2.2]
      · obtain ⟨m₂, soon', leaves⟩ := leave_wait lists held quiet (2 * event + 2)
          (if_neg carries) polls.reached (by omega) (by omega) quiet'
        refine ⟨m₂, _, writeReg (tested (r.input m) x) 30 _, true, _, by omega, polls.trans leaves,
          ⟨rfl, rfl⟩, ⟨receiver, small, rfl, ?_⟩, same⟩
        rw [if_neg fun all => carries ⟨all.1, all.2.1⟩]
        exact waits.collected

/-- A poll while the clock is low: the last event of a frame leads to page 23. -/
theorem poll_high (waits : Waits vs s x event true acc) :
    ∃ m' s' x', m' ≤ m + 11 ∧ Leads r mark m m' s' ⟨[r.input m], [], []⟩ ∧ Kept x x' ∧
      ((∃ event' low', Waits (vs ++ [r.input m]) s' x' event' low' acc ∧
          frames (vs ++ [r.input m]) = frames vs) ∨
        s' = onPage 23 0 x' ∧ x' 4 = acc.setWidth 32 ∧ Receiver (vs ++ [r.input m]) 0 false 0 ∧
          frames (vs ++ [r.input m]) = frames vs ++ [acc]) := by
  have small := waits.small
  have more := receives.more
  rw [waits.state, show 2 * event + 1 + true.toNat = 2 * event + 2 from rfl] at here
  have held := receives.held_high small
  have quiet (j : Nat) (y : RegFile) (upto : j ≤ 10) :=
    unmarked.receiving (2 * event + 2) j y (by omega) upto
  have quiet' (y : RegFile) : mark (onPage (.ofNat 8 (2 * event + 3)) 10 y) = none := by
    by_cases last : event = 10
    · subst last
      exact unmarked.next y
    · exact unmarked.receiving (2 * event + 3) 10 y (by omega) le_rfl
  obtain ⟨m₁, soon, polls⟩ := poll_clock lists held quiet here (take_highPage event)
  rw [(clock_taken _).2] at polls
  cases level : clock (r.input m) with
  | false =>
      rw [level, if_pos (by simp)] at polls
      obtain ⟨receiver, same⟩ := waits.receiver.stays level
      exact ⟨m₁, _, tested (r.input m) x, by omega, polls, ⟨rfl, rfl⟩,
        .inl ⟨event, true, ⟨receiver, small, rfl, waits.collected⟩, same⟩⟩
  | true =>
      rw [level, if_neg (by simp)] at polls
      obtain ⟨m₂, soon', leaves⟩ := leave_wait lists held quiet (2 * event + 3) rfl polls.reached
        (by omega) (by omega) quiet'
      refine ⟨m₂, _, writeReg (tested (r.input m) x) 30 (.ofInt 32 (2 * event + 3 : Nat)), by omega,
        polls.trans leaves, ⟨rfl, rfl⟩, ?_⟩
      have rising := waits.receiver.rises level
      by_cases last : event = 10
      · rw [if_pos last] at rising
        subst last
        exact .inr ⟨rfl, waits.collected, rising⟩
      · rw [if_neg last] at rising
        exact .inl ⟨event + 1, false, ⟨rising.1, by omega, rfl, waits.collected⟩, rising.2⟩

end Poll

/-- What a program does with the bytes: `consume` is what it writes, in a state that `x5` and `x6`
hold. -/
structure Consumer (r : Clocked.Run (Paged.step image)) (mark : State → Option (BitVec 32)) (σ : Type)
    where
  holds : σ → RegFile → Prop
  consume : σ → BitVec 8 → σ × List (BitVec 8)
  marks : BitVec 8 → List (BitVec 32)
  kept : ∀ q x x', Kept x x' → holds q x → holds q x'
  takes : ∀ m x q b, r.state m = some (onPage 23 0 x) → x 4 = b.setWidth 32 → holds q x →
    ∃ m' x', Leads r mark m m' (onPage 1 0 x') ⟨[], (consume q b).2, marks b⟩ ∧ x' 4 = 0 ∧
      holds (consume q b).1 x'

namespace Consumer

variable {σ : Type} (consumer : Consumer r mark σ) {q : σ}

/-- At a poll: the receiver has the polls so far, and the bytes so far have been consumed. -/
def Polling (q : σ) (m : Nat) : Prop :=
  ∃ s x event low acc, r.state m = some s ∧
    Waits (r.observe (polled image) 0 m) s x event low acc ∧
    consumer.holds (Ps2.feed consumer.consume q (frames (r.observe (polled image) 0 m))).1 x ∧
    r.observe (written image) 0 m =
      (Ps2.feed consumer.consume q (frames (r.observe (polled image) 0 m))).2 ∧
    r.observe (marked mark) 0 m = (frames (r.observe (polled image) 0 m)).flatMap consumer.marks

section Run

variable (receives : Receives code)
include lists receives

theorem Polling.polls (polling : consumer.Polling q m) : doing image (r.state m) = some .poll := by
  obtain ⟨s, x, event, low, acc, here, waits, -⟩ := polling
  have small := waits.small
  have first : fetch image s = some (.load .lbu 1 0 0xF4) := by
    rw [waits.state]
    cases low with
    | false =>
        refine fetch_onPage lists (receives.held_low small) ?_
        rw [← List.getElem?_take_of_lt (show 0 < 3 by omega), take_lowPage]
        rfl
    | true => exact fetch_onPage lists (receives.held_high small) rfl
  rw [here, doing, Option.bind_some, first, waits.state]
  rfl

variable (unmarked : Unmarked mark)
include unmarked

/-- From one poll to the next: eleven instructions, or those and the consumer's, of which `soon` knows. -/
theorem Polling.next_of (soon : Nat → Nat → Prop)
    (takes : ∀ m x q b, r.state m = some (onPage 23 0 x) → x 4 = b.setWidth 32 → consumer.holds q x →
      ∃ m' x', soon m m' ∧
        Leads r mark m m' (onPage 1 0 x') ⟨[], (consumer.consume q b).2, consumer.marks b⟩ ∧ x' 4 = 0 ∧
        consumer.holds (consumer.consume q b).1 x')
    (polling : consumer.Polling q m) :
    ∃ m' s log, Leads r mark m m' s log ∧ log.polls = [r.input m] ∧ consumer.Polling q m' ∧
      if frames (r.observe (polled image) 0 m ++ [r.input m]) = frames (r.observe (polled image) 0 m) then
        m' ≤ m + 11
      else ∃ m₁, m₁ ≤ m + 11 ∧ soon m₁ m' := by
  obtain ⟨s, x, event, low, acc, here, waits, holds, writes, marks⟩ := polling
  -- what is observed up to `m'`, from what is observed up to `m` and the log
  have observes {m' : Nat} {s' : State} {log : Log} (leads : Leads r mark m m' s' log) :
      r.observe (polled image) 0 m' = r.observe (polled image) 0 m ++ log.polls ∧
        r.observe (written image) 0 m' = r.observe (written image) 0 m ++ log.writes ∧
        r.observe (marked mark) 0 m' = r.observe (marked mark) 0 m ++ log.marks := by
    have cut {β : Type} (event : Option State → BitVec 8 → Option β) :
        r.observe event 0 m' = r.observe event 0 m ++ r.observe event m (m' - m) :=
      r.observe_cut event (Nat.zero_le m) leads.upto
    exact ⟨by rw [cut, leads.polls], by rw [cut, leads.writes], by rw [cut, leads.marks]⟩
  have goes_on {m' : Nat} {s' : State} {x' : RegFile} {event' : Nat} {low' : Bool} {acc' : BitVec 8}
      (leads : Leads r mark m m' s' ⟨[r.input m], [], []⟩) (kept : Kept x x')
      (waits' : Waits (r.observe (polled image) 0 m ++ [r.input m]) s' x' event' low' acc')
      (same : frames (r.observe (polled image) 0 m ++ [r.input m]) =
        frames (r.observe (polled image) 0 m)) : consumer.Polling q m' := by
    obtain ⟨polls, writes', marks'⟩ := observes leads
    refine ⟨s', x', event', low', acc', leads.reached, ?_, ?_, ?_, ?_⟩
    · rwa [polls]
    · rw [polls, same]
      exact consumer.kept _ _ _ kept holds
    · rw [writes', polls, same, ← writes]
      exact List.append_nil _
    · rw [marks', polls, same, ← marks]
      exact List.append_nil _
  cases low with
  | false =>
      obtain ⟨m', s', x', low', acc', near, leads, kept, waits', same⟩ :=
        poll_low lists receives unmarked here waits
      exact ⟨m', s', _, leads, rfl, goes_on leads kept waits' same, (if_pos same).mpr near⟩
  | true =>
      obtain ⟨m', s', x', near, leads, kept,
        ⟨event', low', waits', same⟩ | ⟨rfl, handed, receiver, more⟩⟩ :=
        poll_high lists receives unmarked here waits
      · exact ⟨m', s', _, leads, rfl, goes_on leads kept waits' same, (if_pos same).mpr near⟩
      · obtain ⟨m'', x'', then_, takes, clear, holds'⟩ := takes m' x' _ acc leads.reached handed
          (consumer.kept _ _ _ kept holds)
        have whole := leads.trans takes
        obtain ⟨polls, writes', marks'⟩ := observes whole
        have grown : ¬frames (r.observe (polled image) 0 m ++ [r.input m]) =
            frames (r.observe (polled image) 0 m) := by
          rw [more]
          simp
        refine ⟨m'', _, _, whole, rfl, ⟨_, x'', 0, false, 0, whole.reached, ?_, ?_, ?_, ?_⟩,
          (if_neg grown).mpr ⟨m', near, then_⟩⟩
        · rw [polls]
          exact ⟨receiver, by omega, rfl, clear⟩
        · rw [polls]
          change consumer.holds (Ps2.feed _ q (frames (_ ++ [r.input m]))).1 x''
          rw [more, Ps2.feed_snoc]
          exact holds'
        · rw [writes', polls]
          change _ = (Ps2.feed _ q (frames (_ ++ [r.input m]))).2
          rw [more, Ps2.feed_snoc, writes]
          rfl
        · rw [marks', polls]
          change _ = (frames (_ ++ [r.input m])).flatMap _
          rw [more, List.flatMap_append, marks]
          simp

/-- From one poll the reader always gets to the next, and polls once on the way. -/
theorem Polling.next (polling : consumer.Polling q m) :
    ∃ m' s log, Leads r mark m m' s log ∧ log.polls.length = 1 ∧ consumer.Polling q m' := by
  obtain ⟨m', s, log, leads, polls, there, -⟩ :=
    polling.next_of lists consumer receives unmarked (fun _ _ => True) fun m x q b here byte holds => by
      obtain ⟨m', x', takes⟩ := consumer.takes m x q b here byte holds
      exact ⟨m', x', trivial, takes⟩
  exact ⟨m', s, log, leads, by rw [polls]; rfl, there⟩

/-- A run of the program, from the moment it starts to listen. -/
theorem observes (here : r.state m = some (onPage 1 0 x)) (clear : x 4 = 0) (holds : consumer.holds q x)
    (silent : r.observe (polled image) 0 m = []) (still : r.observe (written image) 0 m = [])
    (bare : r.observe (marked mark) 0 m = []) :
    (∀ n, (r.state n).isSome = true) ∧ (∀ n, ∃ n', n ≤ n' ∧ doing image (r.state n') = some .poll) ∧
      ∀ n, doing image (r.state n) = some .poll →
        r.observe (written image) 0 n =
          (Ps2.feed consumer.consume q (frames (r.observe (polled image) 0 n))).2 ∧
        r.observe (marked mark) 0 n =
          (frames (r.observe (polled image) 0 n)).flatMap consumer.marks := by
  have start : consumer.Polling q m := by
    refine ⟨_, x, 0, false, 0, here, ?_, ?_, ?_, ?_⟩
    · rw [silent]
      exact ⟨Ps2.receiver_nil, by omega, rfl, clear⟩
    · rw [silent]
      exact holds
    · rw [silent, still]
      rfl
    · rw [silent, bare]
      rfl
  obtain ⟨alive, recurs, all⟩ := Paged.of_polls start silent
    (fun n polling => polling.polls lists consumer receives)
    fun n polling => polling.next lists consumer receives unmarked
  refine ⟨alive, fun n => ?_, fun n polling => ?_⟩
  · obtain ⟨n', after, polling⟩ := recurs n
    exact ⟨n', after, polling.polls lists consumer receives⟩
  · obtain ⟨s, x, event, low, acc, -, -, -, writes, marks⟩ := all n polling
    exact ⟨writes, marks⟩

end Run

end Consumer

end Polls

end Programs

end AgilA32
