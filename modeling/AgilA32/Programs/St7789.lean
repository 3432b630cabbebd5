import Mathlib.Data.List.ReduceOption
import AgilA32.Programs.Page
import AgilA32.Programs.Panel

/-!
# The ST7789 driver: `build_st7789_flash_image.py`

Every bit that the program sends has a page of its own, so a byte is eight pages in a row, and the
program a list of bytes and delays (`items`).  Pages 147 to 162 send a pixel; page 163 counts down the
pixels and switches back to page 147 until there are none left.
-/

namespace AgilA32

namespace Programs

namespace St7789

open AgilA32.Core (readReg writeReg)
open Paged (Leads Log State doing leads_aluImm leads_branch leads_jump leads_straight leads_turn
  leads_within line marked onPage written)
open PagedAsm (Accepted Builds Ending Lists Statement page pageListing)
open Panel (Sent wire)
open Rv32i (BranchOp Instr)

/-- The constants of the script. -/
structure Config where
  madctlValue : Nat
  fillColor : Nat
  panelWidth : Nat
  panelHeight : Nat
  pixelCount : Nat
  delayCount : Nat
  madctlValue_lt : madctlValue < 256
  fillColor_lt : fillColor < 65536
  panelWidth_pos : 1 ≤ panelWidth
  panelWidth_le : panelWidth ≤ 65536
  panelHeight_pos : 1 ≤ panelHeight
  panelHeight_le : panelHeight ≤ 65536
  /-- What `load_const32` asserts. -/
  pixelCount_lt : pixelCount < 1 <<< 24

/-! ## The script -/

def dcCmd : Nat := 0
def dcData : Nat := 1 <<< 2

/-- GPIO_OUT while bit `i` of a byte is set up. -/
def setupVal (byteVal dcBit i : Nat) : Nat := dcBit ||| ((byteVal >>> (7 - i)) &&& 1) <<< 1

/-- The calls on the page of a bit. -/
def bitCalls (byteVal dcBit i : Nat) : List Asm.Call :=
  [.exec (.addi 2 0 (setupVal byteVal dcBit i)), .exec (.sw 2 0 gpioOut),
    .exec (.addi 2 0 (setupVal byteVal dcBit i ||| 1 : Nat)), .exec (.sw 2 0 gpioOut)]

/-- `emit_byte_pages`. -/
def emitBytePages (byteVal dcBit nextPageAfter : Nat) : List Statement :=
  (List.range 8).flatMap fun i => page (bitCalls byteVal dcBit i) ++
    [if i = 7 then .call (.switchTo nextPageAfter none) else .switchToNext]

def emitCmd (byteVal nextPageAfter : Nat) : List Statement := emitBytePages byteVal dcCmd nextPageAfter
def emitData (byteVal nextPageAfter : Nat) : List Statement :=
  emitBytePages byteVal dcData nextPageAfter

/-- `load_const32`. -/
def loadConst32 (rd value scratch : Nat) : List Statement :=
  let lo := value &&& 0xFFF
  let hi := value >>> 12
  .assert (value < 1 <<< 24) :: page (.exec (.addi rd 0 lo) ::
    if hi ≠ 0 then [.exec (.addi scratch 0 hi), .exec (.slli scratch scratch 12),
      .exec (.add rd rd scratch)]
    else [])

def delayLoop (delayCount nextPage : Nat) : List Statement :=
  page [.exec (.addi 2 0 delayCount), .label "DELAY_LOOP", .exec (.beq 2 0 "DELAY_DONE"),
    .exec (.addi 2 2 (-1)), .exec (.jal 0 "DELAY_LOOP"), .label "DELAY_DONE"] ++
  [.call (.switchTo nextPage none)]

def ringStart : Nat := 147
def ringLen : Nat := 16
def ctrlPage : Nat := ringStart + ringLen
def donePage : Nat := ctrlPage + 1

def colorBytes (fillColor : Nat) : List Nat := [(fillColor >>> 8) &&& 0xFF, fillColor &&& 0xFF]

/-- The pages of the fill ring; byte `k` is the one with bits `8 * k + 1` to `8 * k + 8`. -/
def fillRing (fillColor : Nat) : List Statement :=
  (colorBytes fillColor).zipIdx.flatMap fun (byteVal, k) => (List.range 8).flatMap fun i =>
    page (bitCalls byteVal dcData i) ++
      [if 8 * k + i + 1 = ringLen then .call (.switchTo ctrlPage none) else .switchToNext]

def control : List Statement :=
  page [.exec (.addi 5 5 (-1)), .exec (.bne 5 0 "NOT_DONE"), .exec (.addi 30 0 donePage),
    .exec (.jal 0 "CONVERGE"), .label "NOT_DONE", .exec (.addi 30 0 ringStart), .label "CONVERGE"] ++
  [.call (.switchToComputed none)]

def spin : List Statement :=
  page [.label "SPIN", .exec (.jal 0 "SPIN")] ++ [.call (.finalizeLastPage none)]

def start (pixelCount : Nat) : List Statement :=
  .reservePage 0 :: page [.exec (.addi 2 0 0), .exec (.sw 2 0 gpioOut)] ++
    loadConst32 5 pixelCount 8 ++ [.call (.switchTo 1 none)]

def script (c : Config) : List Statement := List.flatten [
    start c.pixelCount,
    .reservePage 1 :: emitCmd 0x01 9,
    .reservePage 9 :: delayLoop c.delayCount 10,
    .reservePage 10 :: emitCmd 0x11 18,
    .reservePage 18 :: delayLoop c.delayCount 19,
    .reservePage 19 :: emitCmd 0x3A 27,
    .reservePage 27 :: emitData 0x05 35,
    .reservePage 35 :: emitCmd 0x36 43,
    .reservePage 43 :: emitData c.madctlValue 51,
    .reservePage 51 :: emitCmd 0x2A 59,
    .reservePage 59 :: emitData 0 67,
    .reservePage 67 :: emitData 0 75,
    .reservePage 75 :: emitData ((c.panelWidth - 1) >>> 8) 83,
    .reservePage 83 :: emitData ((c.panelWidth - 1) &&& 0xFF) 91,
    .reservePage 91 :: emitCmd 0x2B 99,
    .reservePage 99 :: emitData 0 107,
    .reservePage 107 :: emitData 0 115,
    .reservePage 115 :: emitData ((c.panelHeight - 1) >>> 8) 123,
    .reservePage 123 :: emitData ((c.panelHeight - 1) &&& 0xFF) 131,
    .reservePage 131 :: emitCmd 0x29 139,
    .reservePage 139 :: emitCmd 0x2C 147,
    .reservePage ringStart :: fillRing c.fillColor,
    .reservePage ctrlPage :: control,
    .reservePage donePage :: spin]

/-! ## Its pages -/

/-- What the program is made of, up to the fill ring: bytes to send, as commands or data, and delays. -/
inductive Item
  | send (data : Bool) (byteVal : Nat)
  | delay (count : Nat)

def dcBit (data : Bool) : Nat := if data then dcData else dcCmd

/-- A 12-bit immediate, with its sign. -/
def signed (v : Nat) : Int := if v < 2048 then v else v - 4096

def startListing (pixelCount : Nat) : List Instr :=
  [nop, .aluImm .add 2 0 0, .store .sw 0 2 0xF0, .aluImm .add 5 0 (.ofInt 32 (signed (pixelCount &&& 0xFFF)))] ++
  (if pixelCount >>> 12 ≠ 0 then
    [.aluImm .add 8 0 (.ofInt 32 (signed (pixelCount >>> 12))), .aluImm .sll 8 8 12, .alu .add 5 5 8, nop]
  else [nop, nop, nop, nop]) ++ leave 1

def bitListing (setup : Nat) (next : Nat) : List Instr :=
  [.aluImm .add 2 0 (.ofInt 32 setup), .store .sw 0 2 0xF0, .aluImm .add 2 0 (.ofInt 32 (setup ||| 1 : Nat)),
    .store .sw 0 2 0xF0, nop, nop, nop, nop] ++ leave next

def delayListing (count next : Nat) : List Instr :=
  [.aluImm .add 2 0 (.ofInt 32 (signed (count % 4096))), .branch .beq 2 0 12, .aluImm .add 2 2 (-1),
    .jal 0 (-8), nop, nop, nop, nop] ++ leave next

def controlListing : List Instr :=
  [.aluImm .add 5 5 (-1), .branch .bne 5 0 12, .aluImm .add 30 0 164, .jal 0 8, .aluImm .add 30 0 147, nop,
    nop, nop, nop, .store .sw 0 30 0xFC, .jal 0 (-40)]

def spinListing : List Instr := [.jal 0 0, nop, nop, nop, nop, nop, nop, nop] ++ leave 164

/-- The pages of an item, from page `k` on. -/
def Item.pages (k : Nat) : Item → List (List Instr)
  | .send data byteVal => (List.range 8).map fun i => bitListing (setupVal byteVal (dcBit data) i) (k + i + 1)
  | .delay count => [delayListing count (k + 1)]

/-- How many there are. -/
def Item.size : Item → Nat
  | .send .. => 8
  | .delay _ => 1

/-- The pages of some items. -/
def pages (k : Nat) : List Item → List (List Instr)
  | [] => []
  | item :: items => item.pages k ++ pages (k + item.size) items

/-- The initialisation, up to RAMWR. -/
def items (c : Config) : List Item :=
  [.send false 0x01, .delay c.delayCount, .send false 0x11, .delay c.delayCount,
    .send false 0x3A, .send true 0x05, .send false 0x36, .send true c.madctlValue,
    .send false 0x2A, .send true 0, .send true 0, .send true ((c.panelWidth - 1) >>> 8),
    .send true ((c.panelWidth - 1) &&& 0xFF),
    .send false 0x2B, .send true 0, .send true 0, .send true ((c.panelHeight - 1) >>> 8),
    .send true ((c.panelHeight - 1) &&& 0xFF), .send false 0x29, .send false 0x2C]

/-- A pixel, from the byte with the more significant bits on. -/
def pixel (fillColor : Nat) : List Item := (colorBytes fillColor).map (.send true)

def code (c : Config) : List (List Instr) :=
  startListing c.pixelCount :: pages 1 (items c) ++ pages 147 (pixel c.fillColor) ++
    [controlListing, spinListing]

theorem setupVal_small (byteVal i : Nat) (data : Bool) : setupVal byteVal (dcBit data) i < 8 := by
  have bit : (byteVal >>> (7 - i)) &&& 1 < 2 := Nat.and_lt_two_pow _ (n := 1) (by omega)
  rw [setupVal]
  interval_cases (byteVal >>> (7 - i)) &&& 1 <;> cases data <;> decide

theorem builds_bit (byteVal i : Nat) (data : Bool) {k : Nat} {s : Statement}
    (ends : s.ending (k + 1) = some (.switchTo (k + 2 : Nat))) (below : k < 255) :
    Builds (page (bitCalls byteVal (dcBit data) i) ++ [s]) (k + 1)
      [bitListing (setupVal byteVal (dcBit data) i) (k + 2)] := by
  have small := setupVal_small byteVal i data
  have pulse : setupVal byteVal (dcBit data) i ||| 1 < 8 := Nat.or_lt_two_pow (n := 3) small (by omega)
  refine Builds.page (.switchTo (k + 2 : Nat)) ⟨rfl, ?_, ?_, ?_⟩ ends
  · simp [bitCalls, Ending.room]
  · simp [bitCalls, Ending.load, Method.InRange, gpioOut]
    omega
  · simp [bitCalls, Method.target]

/-- `emit_byte_pages` builds the eight pages of a byte, one for each bit. -/
theorem builds_byte (byteVal : Nat) (data : Bool) {k : Nat} {s : Nat → Statement} (below : k < 247)
    (ends : ∀ i, i < 8 → (s i).ending (k + i + 1) = some (.switchTo (k + i + 2 : Nat))) :
    Builds ((List.range 8).flatMap fun i => page (bitCalls byteVal (dcBit data) i) ++ [s i]) (k + 1)
      ((Item.send data byteVal).pages (k + 1)) := by
  rw [Item.pages, List.map_eq_flatMap]
  refine Builds.loop (m := 1) _ _ (fun i before => ?_) fun _ => rfl
  have page := builds_bit byteVal i data (ends i before) (by omega)
  rwa [show k + i + 1 = k + 1 + 1 * i by ring, show k + i + 2 = k + 1 + i + 1 by ring] at page

theorem builds_emitBytePages {byteVal k : Nat} {data : Bool} (below : k < 247) :
    Builds (emitBytePages byteVal (dcBit data) (k + 9)) (k + 1) ((Item.send data byteVal).pages (k + 1)) := by
  refine builds_byte byteVal data below fun i before => ?_
  by_cases last : i = 7
  · rw [if_pos last, last]
    rfl
  · rw [if_neg last]
    rfl

theorem signed_range {v : Nat} (small : v < 4096) : -2048 ≤ signed v ∧ signed v < 2048 := by
  rw [signed]
  split <;> omega

/-- `ADDI` masks its immediate. -/
theorem call_addi (rd rs1 v : Nat) (a : Asm) :
    a.call (.exec (.addi rd rs1 v)) = a.call (.exec (.addi rd rs1 (signed (v % 4096)))) := by
  have same : s12 v = s12 (signed (v % 4096)) := by
    rw [signed]
    split
    · rw [s12, s12]
      omega
    · rw [s12, s12]
      omega
  rw [Asm.call, Asm.call, Asm.exec, Asm.exec, Method.emits, Method.emits, iWord, iWord, same]

/-- The calls on a delay page. -/
def delayCalls (count : Nat) : List Asm.Call :=
  [.exec (.addi 2 0 (signed (count % 4096))), .label "DELAY_LOOP", .exec (.beq 2 0 "DELAY_DONE"),
    .exec (.addi 2 2 (-1)), .exec (.jal 0 "DELAY_LOOP"), .label "DELAY_DONE"]

theorem run_delayLoop (count next : Nat) (p : PagedAsm) :
    p.run (delayLoop count next) = p.run (page (delayCalls count) ++ [.call (.switchTo next none)]) := by
  rw [delayLoop, PagedAsm.run_append, PagedAsm.run_append, PagedAsm.run_page, PagedAsm.run_page]
  refine congrArg (Option.bind · _) (congrArg (Option.map _) (Asm.build_congr ?_ _))
  exact .cons (call_addi 2 0 count) (List.forall₂_same.mpr fun _ _ _ => rfl)

theorem builds_delayLoop (count : Nat) {k : Nat} (below : k < 255) :
    Builds (delayLoop count (k + 2)) (k + 1) ((Item.delay count).pages (k + 1)) := by
  obtain ⟨above, under⟩ := signed_range (Nat.mod_lt count (by omega : 0 < 4096))
  refine Builds.congr (fun p => run_delayLoop count (k + 2) p)
    (Builds.page (.switchTo (k + 2 : Nat)) ⟨rfl, ?_, ?_, ?_⟩ rfl)
  · simp [delayCalls, Ending.room]
  · simp [delayCalls, Ending.load, Method.InRange]
    omega
  · simp [delayCalls, Method.target]

/-- The instruction methods that `load_const32` calls. -/
def loadMethods (rd value scratch : Nat) : List Method :=
  .addi rd 0 (signed (value &&& 0xFFF)) :: if value >>> 12 ≠ 0 then
    [.addi scratch 0 (signed (value >>> 12)), .slli scratch scratch 12, .add rd rd scratch]
  else []

theorem parts_lt {value : Nat} (small : value < 1 <<< 24) :
    value &&& 0xFFF < 4096 ∧ value >>> 12 < 4096 := by
  rw [Nat.shiftLeft_eq] at small
  rw [Nat.shiftRight_eq_div_pow]
  exact ⟨Nat.and_lt_two_pow _ (n := 12) (by omega), by omega⟩

theorem run_loadConst32 {rd value scratch : Nat} (small : value < 1 <<< 24) (p : PagedAsm) :
    p.run (loadConst32 rd value scratch) =
      p.run (page ((loadMethods rd value scratch).map .exec)) := by
  obtain ⟨lo, hi⟩ := parts_lt small
  have holds : decide (value < 1 <<< 24) = true := decide_eq_true small
  have calls : p.run (loadConst32 rd value scratch) =
      p.run (page (.exec (.addi rd 0 (value &&& 0xFFF : Nat)) :: if value >>> 12 ≠ 0 then
        [.exec (.addi scratch 0 (value >>> 12 : Nat)), .exec (.slli scratch scratch 12),
          .exec (.add rd rd scratch)]
      else [])) := by
    rw [loadConst32, PagedAsm.run_cons, Statement.run, holds]
    rfl
  have low := call_addi rd 0 (value &&& 0xFFF)
  have high := call_addi scratch 0 (value >>> 12)
  rw [Nat.mod_eq_of_lt lo] at low
  rw [Nat.mod_eq_of_lt hi] at high
  rw [calls, PagedAsm.run_page, PagedAsm.run_page]
  refine congrArg (Option.map _) (Asm.build_congr ?_ _)
  rw [loadMethods, List.map_cons]
  refine .cons low ?_
  split
  · exact .cons high (List.forall₂_same.mpr fun _ _ _ => rfl)
  · exact .nil

/-- The calls on page 0. -/
def startCalls (pixelCount : Nat) : List Asm.Call :=
  [.exec (.addi 2 0 0), .exec (.sw 2 0 gpioOut), .exec (.addi 5 0 (signed (pixelCount &&& 0xFFF)))] ++
  if pixelCount >>> 12 ≠ 0 then
    [.exec (.addi 8 0 (signed (pixelCount >>> 12))), .exec (.slli 8 8 12), .exec (.add 5 5 8)]
  else []

theorem startCalls_drop (pixelCount : Nat) :
    (startCalls pixelCount).drop 2 = (loadMethods 5 pixelCount 8).map .exec := by
  rw [startCalls, loadMethods]
  split <;> rfl

theorem run_start {pixelCount : Nat} (small : pixelCount < 1 <<< 24) (p : PagedAsm) :
    p.run (start pixelCount) =
      p.run (.reservePage 0 :: page (startCalls pixelCount) ++ [.call (.switchTo 1 none)]) := by
  have cut : page (startCalls pixelCount) =
      page [.exec (.addi 2 0 0), .exec (.sw 2 0 gpioOut)] ++ page ((startCalls pixelCount).drop 2) :=
    List.map_append
  have tail (q : PagedAsm) : q.run (page [.exec (.addi 2 0 0), .exec (.sw 2 0 gpioOut)] ++
      loadConst32 5 pixelCount 8) = q.run (page (startCalls pixelCount)) := by
    rw [cut, PagedAsm.run_append, PagedAsm.run_append]
    exact congrArg _ (funext fun q => by rw [run_loadConst32 small, startCalls_drop])
  rw [start, List.cons_append, List.cons_append, List.cons_append, PagedAsm.run_cons, PagedAsm.run_cons]
  congr 1
  funext q
  rw [PagedAsm.run_append, tail, PagedAsm.run_append]

/-- The statements of an item, and of some items. -/
def Item.statements (k : Nat) : Item → List Statement
  | .send data byteVal => .reservePage k :: emitBytePages byteVal (dcBit data) (k + 8)
  | .delay count => .reservePage k :: delayLoop count (k + 1)

def statements (k : Nat) : List Item → List (List Statement)
  | [] => []
  | item :: items => item.statements k :: statements (k + item.size) items

theorem Item.length_pages (k : Nat) (item : Item) : (item.pages k).length = item.size := by
  cases item <;> rfl

theorem builds_statements {items : List Item} {k : Nat}
    (below : k + (items.map Item.size).sum < 255) :
    Builds (statements (k + 1) items).flatten (k + 1) (pages (k + 1) items) := by
  induction items generalizing k with
  | nil => exact .nil
  | cons item items ih =>
      rw [List.map_cons, List.sum_cons] at below
      have first : Builds (item.statements (k + 1)) (k + 1) (item.pages (k + 1)) := by
        cases item with
        | send data byteVal => exact .reservePage (builds_emitBytePages (by rw [Item.size] at below; omega))
        | delay count => exact .reservePage (builds_delayLoop count (by rw [Item.size] at below; omega))
      have rest := ih (k := k + item.size) (by omega)
      rw [show k + item.size + 1 = k + 1 + item.size by ring] at rest
      refine first.append ?_
      rwa [item.length_pages]

theorem builds_start {pixelCount : Nat} (small : pixelCount < 1 <<< 24) :
    Builds (start pixelCount) 0 [startListing pixelCount] := by
  refine Builds.congr (fun p => run_start small p) (.reservePage ?_)
  obtain ⟨lo, hi⟩ := parts_lt small
  obtain ⟨above, below⟩ := signed_range lo
  obtain ⟨above', below'⟩ := signed_range hi
  rw [startListing, startCalls]
  by_cases high : pixelCount >>> 12 = 0
  · rw [if_neg (not_not.mpr high), if_neg (not_not.mpr high)]
    refine Builds.page (.switchTo 1) ⟨rfl, ?_, ?_, ?_⟩ rfl
    · simp [PagedAsm.head, Ending.room]
    · simp [PagedAsm.head, Ending.load, Method.nop, Method.InRange, gpioOut]
      omega
    · simp [PagedAsm.head, Method.nop, Method.target]
  · rw [if_pos high, if_pos high]
    refine Builds.page (.switchTo 1) ⟨rfl, ?_, ?_, ?_⟩ rfl
    · simp [PagedAsm.head, Ending.room]
    · simp [PagedAsm.head, Ending.load, Method.nop, Method.InRange, gpioOut]
      omega
    · simp [PagedAsm.head, Method.nop, Method.target]

theorem builds_fillRing (fillColor : Nat) :
    Builds (fillRing fillColor) 147 (pages 147 (pixel fillColor)) := by
  have first := builds_byte ((fillColor >>> 8) &&& 0xFF) true (k := 146)
    (s := fun i => if 8 * 0 + i + 1 = ringLen then .call (.switchTo ctrlPage none) else .switchToNext)
    (by omega) fun i before => by
      have other : ¬8 * 0 + i + 1 = ringLen := by
        rw [ringLen]
        omega
      rw [if_neg other]
      rfl
  have second := builds_byte (fillColor &&& 0xFF) true (k := 154)
    (s := fun i => if 8 * 1 + i + 1 = ringLen then .call (.switchTo ctrlPage none) else .switchToNext)
    (by omega) fun i before => by
      by_cases last : i = 7
      · subst last
        rfl
      · have other : ¬8 * 1 + i + 1 = ringLen := by
          rw [ringLen]
          omega
        rw [if_neg other]
        rfl
  exact first.append (second.append .nil)

theorem builds_control : Builds control 163 [controlListing] := by
  refine Builds.page (k := 162 + 1) .switchToComputed ⟨rfl, ?_, ?_, ?_⟩ rfl
  · decide
  · simp [Ending.load, Method.InRange, donePage, ctrlPage, ringStart, ringLen]
  · simp [Method.target]

theorem builds_spin : Builds spin 164 [spinListing] := by
  refine Builds.page (k := 163 + 1) (.switchTo 164) ⟨rfl, ?_, ?_, ?_⟩ rfl
  · decide
  · simp [Ending.load, Method.InRange]
  · simp [Method.target]

theorem script_eq (c : Config) : script c = start c.pixelCount ++ (statements 1 (items c)).flatten ++
    (.reservePage ringStart :: fillRing c.fillColor) ++
    (.reservePage ctrlPage :: control ++ .reservePage donePage :: spin) := by
  have cut : script c = ([start c.pixelCount] ++ statements 1 (items c) ++
      [.reservePage ringStart :: fillRing c.fillColor, .reservePage ctrlPage :: control,
        .reservePage donePage :: spin]).flatten := congrArg List.flatten rfl
  rw [cut, List.flatten_append, List.flatten_append, List.append_assoc, List.append_assoc]
  simp

theorem builds_script (c : Config) : Builds (script c) 0 (code c) := by
  have size : 0 + ((items c).map Item.size).sum < 255 := by simp [items, Item.size]
  have init : Builds (statements 1 (items c)).flatten 1 (pages 1 (items c)) :=
    builds_statements (k := 0) size
  have ring : Builds (.reservePage ringStart :: fillRing c.fillColor) 147 (pages 147 (pixel c.fillColor)) :=
    .reservePage (builds_fillRing c.fillColor)
  have ctrl : Builds (.reservePage ctrlPage :: control) 163 [controlListing] := .reservePage builds_control
  have done : Builds (.reservePage donePage :: spin) 164 [spinListing] := .reservePage builds_spin
  rw [script_eq]
  exact (((builds_start c.pixelCount_lt).append init).append ring).append (ctrl.append done)

/-! ## What they do -/

/-- What is on GPIO_OUT while a bit is sent. -/
theorem setup_eq (byteVal i : Nat) (data : Bool) :
    .ofNat 8 (setupVal byteVal (dcBit data) i) = Panel.setup (data, byteVal.testBit (7 - i)) ∧
      .ofNat 8 (setupVal byteVal (dcBit data) i ||| 1) =
        Panel.setup (data, byteVal.testBit (7 - i)) ||| 1 := by
  have bit : (byteVal >>> (7 - i)) &&& 1 = (byteVal.testBit (7 - i)).toNat := by
    rw [Nat.toNat_testBit, Nat.and_one_is_mod, Nat.shiftRight_eq_div_pow]
  rw [setupVal, bit]
  cases byteVal.testBit (7 - i) <;> cases data <;> exact ⟨rfl, rfl⟩

/-- The pages `ps` are in the code, from page `k` on. -/
def Held (code : List (List Instr)) (k : Nat) (ps : List (List Instr)) : Prop :=
  ∀ i page, ps[i]? = some page → code[k + i]? = some page

theorem Held.append {code ps ps' : List (List Instr)} {k : Nat} (held : Held code k (ps ++ ps')) :
    Held code k ps ∧ Held code (k + ps.length) ps' := by
  refine ⟨fun i page here => held i page ?_, fun i page here => ?_⟩
  · rwa [List.getElem?_append_left (List.getElem?_eq_some_iff.mp here).1]
  · rw [Nat.add_assoc]
    refine held _ page ?_
    rwa [List.getElem?_append_right (Nat.le_add_right ..), Nat.add_sub_cancel_left]

/-- A counter that is not at its end. -/
theorem counter_ne_zero {n : Nat} (small : n + 1 < 2 ^ 32) : BitVec.ofNat 32 (n + 1) ≠ 0 := by
  intro ended
  have value := congrArg BitVec.toNat ended
  rw [BitVec.toNat_ofNat, Nat.mod_eq_of_lt small] at value
  exact Nat.succ_ne_zero n value

theorem counter_pred (n : Nat) : BitVec.ofNat 32 (n + 1) + (-1) = .ofNat 32 n := by
  have both : BitVec.ofNat 32 1 + (-1) = 0 := by decide
  rw [BitVec.ofNat_add, BitVec.add_assoc, both]
  exact BitVec.add_zero _

/-- What an item sends. -/
def Item.sent : Item → List Sent
  | .send data byteVal => [⟨data, .ofNat 8 byteVal⟩]
  | .delay _ => []

section Run

variable {image : List (BitVec 8)} {code : List (List Instr)} (lists : Lists image code)
  {r : Clocked.Run (Paged.step image)} {m k : Nat} {x : RegFile}
include lists

/-- The loop of a delay, whose decrement bears the mark `tick`. -/
theorem leads_loop {page : BitVec 8} {count next n : Nat} {mark : State → Option (BitVec 32)}
    {tick : Option (BitVec 32)}
    (held : code[page.toNat]? = some (delayListing count next)) (small : n < 2 ^ 32)
    (quiet : ∀ j y, j ≤ 10 → j ≠ 2 → mark (onPage page j y) = none)
    (ticks : ∀ y, mark (onPage page 2 y) = tick)
    (here : r.state m = some (onPage page 1 x)) (left : x 2 = .ofNat 32 n) :
    ∃ m' x', m' ≤ m + 3 * n + 1 ∧
      Leads r mark m m' (onPage page 4 x') ⟨[], [], (List.replicate n tick).reduceOption⟩ ∧ x' 5 = x 5 := by
  induction n generalizing m x with
  | zero =>
      have branched := leads_branch lists held mark here
        (show (delayListing count next)[1]? = some (.branch .beq 2 0 12) from rfl) (by decide)
        (show Paged.jump 1 12 = 4 from rfl)
      change Leads r mark m (m + 1) (onPage page (if decide (x 2 = 0) then 4 else 2) x) _ at branched
      rw [left, if_pos (by decide), quiet 1 x (by omega) (by omega)] at branched
      exact ⟨m + 1, x, le_rfl, branched, rfl⟩
  | succ n ih =>
      have branched := leads_branch lists held mark here
        (show (delayListing count next)[1]? = some (.branch .beq 2 0 12) from rfl) (by decide)
        (show Paged.jump 1 12 = 4 from rfl)
      have going : x 2 ≠ 0 := by
        rw [left]
        exact counter_ne_zero small
      change Leads r mark m (m + 1) (onPage page (if decide (x 2 = 0) then 4 else 2) x) _ at branched
      rw [if_neg (by simpa using going), quiet 1 x (by omega) (by omega)] at branched
      have counts := leads_aluImm lists held mark branched.reached
        (show (delayListing count next)[2]? = some (.aluImm .add 2 2 (-1)) from rfl)
      rw [ticks] at counts
      have jumps := leads_jump lists held counts.reached
        (show (delayListing count next)[3]? = some (.jal 0 (-8)) from rfl) (by decide)
        (quiet 3 _ (by omega) (by omega)) (show Paged.jump 3 (-8) = 1 from rfl)
      have fewer : writeReg x 2 (x 2 + (-1)) 2 = .ofNat 32 n := by
        change x 2 + (-1) = _
        rw [left, counter_pred]
      obtain ⟨m₂, x', soon, rest, kept⟩ := ih (by omega) jumps.reached fewer
      refine ⟨m₂, x', by omega, ?_, kept⟩
      have whole := ((branched.trans counts).trans jumps).trans rest
      have marks : (List.replicate (n + 1) tick).reduceOption =
          tick.toList ++ (List.replicate n tick).reduceOption := by
        rw [List.replicate_succ]
        cases tick <;> rfl
      rw [marks]
      cases tick <;> exact whole

variable (few : code.length ≤ 256)
include few

/-- The page of a bit writes it with SCK low and then with SCK high, and leads to the next page. -/
theorem leads_bit {setup : Nat} (held : code[k]? = some (bitListing setup (k + 1)))
    (next : k + 1 < code.length) (here : r.state m = some (onPage (.ofNat 8 k) 0 x)) :
    ∃ m' x', Leads r noMark m m' (onPage (.ofNat 8 (k + 1)) 0 x')
      (.ofWrites [.ofNat 8 setup, .ofNat 8 (setup ||| 1)]) ∧ x' 5 = x 5 := by
  have number : (BitVec.ofNat 8 k).toNat = k := by
    rw [BitVec.toNat_ofNat]
    omega
  have held' : code[(BitVec.ofNat 8 k).toNat]? = some (bitListing setup (k + 1)) := by rwa [number]
  obtain ⟨m₁, writes⟩ := leads_straight lists held' here (n := 8) (j := 8)
    (y := writeReg (writeReg x 2 (0 + .ofInt 32 setup)) 2 (0 + .ofInt 32 (setup ||| 1 : Nat)))
    (w := [(0 + .ofInt 32 setup : BitVec 32).setWidth 8, (0 + .ofInt 32 (setup ||| 1 : Nat) : BitVec 32).setWidth 8])
    rfl fun _ _ _ _ => unmarked _
  obtain ⟨m₂, leaves⟩ := leads_leave lists held' (k + 1) writes.reached rfl
    (fun _ _ _ _ => unmarked _) next (by omega) fun _ => unmarked _
  have whole := writes.trans leaves
  rw [load_eq, load_eq, low_byte, low_byte] at whole
  exact ⟨m₂, _, whole, rfl⟩

/-- Some of the pages of a byte. -/
theorem leads_bits {data : Bool} {byteVal n : Nat} (within : n ≤ 8)
    (held : Held code k ((Item.send data byteVal).pages k)) (next : k + 8 < code.length)
    (here : r.state m = some (onPage (.ofNat 8 k) 0 x)) :
    ∃ m' x', Leads r noMark m m' (onPage (.ofNat 8 (k + n)) 0 x')
      (.ofWrites (((List.range n).map fun i => (data, byteVal.testBit (7 - i))).flatMap Panel.pulse)) ∧
      x' 5 = x 5 := by
  induction n with
  | zero => exact ⟨m, x, Leads.refl here, rfl⟩
  | succ n ih =>
      obtain ⟨m₁, x₁, earlier, kept⟩ := ih (by omega)
      have bit := held n (bitListing (setupVal byteVal (dcBit data) n) (k + n + 1)) (by
        rw [Item.pages, List.getElem?_map, List.getElem?_range (by omega)]
        rfl)
      obtain ⟨m₂, x₂, last, kept'⟩ := leads_bit lists few bit (by omega) earlier.reached
      have whole := earlier.trans last
      rw [(setup_eq byteVal n data).1, (setup_eq byteVal n data).2, Log.ofWrites_append] at whole
      refine ⟨m₂, x₂, ?_, kept'.trans kept⟩
      rw [List.range_succ, List.map_append, List.flatMap_append]
      exact whole

/-- How often a delay page decrements `x2`. -/
def rounds (count : Nat) : Nat := (BitVec.ofInt 32 (signed (count % 4096))).toNat

/-- The page of a delay marks every round of its loop, writes nothing and leads to the next page, within
three steps a round and nine. -/
theorem leads_delay {count : Nat} {mark : State → Option (BitVec 32)} {tick : Option (BitVec 32)}
    (held : code[k]? = some (delayListing count (k + 1)))
    (quiet : ∀ j y, j ≤ 10 → j ≠ 2 → mark (onPage (.ofNat 8 k) j y) = none)
    (ticks : ∀ y, mark (onPage (.ofNat 8 k) 2 y) = tick)
    (quiet' : ∀ y, mark (onPage (.ofNat 8 (k + 1)) 10 y) = none) (next : k + 1 < code.length)
    (here : r.state m = some (onPage (.ofNat 8 k) 0 x)) :
    ∃ m' x', m' ≤ m + 3 * rounds count + 9 ∧ Leads r mark m m' (onPage (.ofNat 8 (k + 1)) 0 x')
      ⟨[], [], (List.replicate (rounds count) tick).reduceOption⟩ ∧ x' 5 = x 5 := by
  have number : (BitVec.ofNat 8 k).toNat = k := by
    rw [BitVec.toNat_ofNat]
    omega
  have held' : code[(BitVec.ofNat 8 k).toNat]? = some (delayListing count (k + 1)) := by rwa [number]
  have loads := leads_aluImm lists held' mark here
    (show (delayListing count (k + 1))[0]? = some (.aluImm .add 2 0 (.ofInt 32 (signed (count % 4096)))) from
      rfl)
  rw [quiet 0 x (by omega) (by omega)] at loads
  obtain ⟨m₂, x', soon₂, loops, kept⟩ := leads_loop lists held' (BitVec.isLt _) quiet ticks loads.reached (by
    change (0 : BitVec 32) + .ofInt 32 (signed (count % 4096)) = .ofNat 32 (rounds count)
    rw [load_eq, rounds, BitVec.ofNat_toNat, BitVec.setWidth_eq])
  obtain ⟨m₃, soon₃, nops⟩ := leads_within lists held' loops.reached
    (show line (delayListing count (k + 1)) 4 4 x' = some ⟨8, none, x', []⟩ from rfl)
    fun j y after within => quiet j y within (by omega)
  obtain ⟨m₄, soon₄, leaves⟩ := leads_leave_within lists held' (k + 1) nops.reached rfl
    (fun j y after within => quiet j y within (by omega)) next (by omega) quiet'
  have whole := ((loads.trans loops).trans nops).trans leaves
  refine ⟨m₄, writeReg x' 30 (.ofInt 32 (k + 1 : Nat)), ?_, ?_, kept⟩
  · change m₂ ≤ m + 1 + 3 * rounds count + 1 at soon₂
    omega
  · have log : Log.empty ++ ⟨[], [], (List.replicate (rounds count) tick).reduceOption⟩ ++
        Log.ofWrites [] ++ .empty = ⟨[], [], (List.replicate (rounds count) tick).reduceOption⟩ := by
      rw [Log.append_empty]
      exact Log.append_empty _
    exact log ▸ whole

omit lists few in
theorem bits_eq (data : Bool) (byteVal : Nat) :
    (List.range 8).map (fun i => (data, byteVal.testBit (7 - i))) =
      Sent.bits ⟨data, .ofNat 8 byteVal⟩ := by
  simp only [Sent.bits, BitVec.getLsbD_ofNat]
  rfl

theorem leads_item {item : Item} (held : Held code k (item.pages k))
    (next : k + item.size < code.length) (here : r.state m = some (onPage (.ofNat 8 k) 0 x)) :
    ∃ m' x', Leads r noMark m m' (onPage (.ofNat 8 (k + item.size)) 0 x') (.ofWrites (wire item.sent)) ∧
      x' 5 = x 5 := by
  cases item with
  | send data byteVal =>
      obtain ⟨m', x', leads, kept⟩ := leads_bits lists few le_rfl held next here
      refine ⟨m', x', ?_, kept⟩
      rw [wire, Item.sent, List.flatMap_singleton, ← bits_eq]
      exact leads
  | delay count =>
      have page : code[k]? = some (delayListing count (k + 1)) := held 0 _ rfl
      obtain ⟨m', x', -, leads, kept⟩ := leads_delay lists few page (fun _ _ _ _ => unmarked _)
        (fun _ => unmarked _) (fun _ => unmarked _) next here
      have silent : (List.replicate (rounds count) (none : Option (BitVec 32))).reduceOption = [] :=
        List.reduceOption_replicate_none
      rw [silent] at leads
      exact ⟨m', x', leads, kept⟩

/-- The pages of some items write what the items send, one after the other. -/
theorem leads_items {items : List Item} (held : Held code k (pages k items))
    (next : k + (items.map Item.size).sum < code.length)
    (here : r.state m = some (onPage (.ofNat 8 k) 0 x)) :
    ∃ m' x', Leads r noMark m m' (onPage (.ofNat 8 (k + (items.map Item.size).sum)) 0 x')
      (.ofWrites (wire (items.flatMap Item.sent))) ∧ x' 5 = x 5 := by
  induction items generalizing k m x with
  | nil => exact ⟨m, x, Leads.refl here, rfl⟩
  | cons item items ih =>
      rw [List.map_cons, List.sum_cons] at next
      obtain ⟨own, others⟩ := held.append
      rw [item.length_pages] at others
      obtain ⟨m₁, x₁, first, kept⟩ := leads_item lists few own (by omega) here
      obtain ⟨m₂, x₂, rest, kept'⟩ := ih others (by omega) first.reached
      refine ⟨m₂, x₂, ?_, kept'.trans kept⟩
      rw [List.flatMap_cons, Panel.wire_append, ← Log.ofWrites_append, List.map_cons, List.sum_cons,
        ← Nat.add_assoc]
      exact first.trans rest

end Run

/-! ## The whole run -/

def command (b : Nat) : Sent := ⟨false, .ofNat 8 b⟩
def data (b : Nat) : Sent := ⟨true, .ofNat 8 b⟩

/-- What is sent for `n` pixels. -/
def Config.stream (c : Config) (n : Nat) : List Sent :=
  [command 0x01, command 0x11, command 0x3A, data 0x05, command 0x36, data c.madctlValue,
    command 0x2A, data 0, data 0, data ((c.panelWidth - 1) >>> 8), data ((c.panelWidth - 1) &&& 0xFF),
    command 0x2B, data 0, data 0, data ((c.panelHeight - 1) >>> 8), data ((c.panelHeight - 1) &&& 0xFF),
    command 0x29, command 0x2C] ++
  (List.replicate n [data (c.fillColor >>> 8), data (c.fillColor &&& 0xFF)]).flatten

/-- The simulation's constants, for which the script's test expects 24 bytes. -/
def Config.simulated : Config where
  madctlValue := 0
  fillColor := 0xF800
  panelWidth := 240
  panelHeight := 240
  pixelCount := 3
  delayCount := 20
  madctlValue_lt := by decide
  fillColor_lt := by decide
  panelWidth_pos := by decide
  panelWidth_le := by decide
  panelHeight_pos := by decide
  panelHeight_le := by decide
  pixelCount_lt := by decide

example : (Config.simulated.stream Config.simulated.pixelCount).length = 24 := rfl

theorem length_pages (k : Nat) (items : List Item) :
    (pages k items).length = (items.map Item.size).sum := by
  induction items generalizing k with
  | nil => rfl
  | cons item items ih =>
      rw [pages, List.length_append, item.length_pages, ih, List.map_cons, List.sum_cons]

theorem size_items (c : Config) : ((items c).map Item.size).sum = 146 := by
  simp [items, Item.size]

theorem size_pixel (fillColor : Nat) : ((pixel fillColor).map Item.size).sum = 16 := by
  simp [pixel, colorBytes, Item.size]

theorem length_code (c : Config) : (code c).length = 165 := by
  rw [code, List.length_append, List.length_append, List.length_cons, length_pages, length_pages,
    size_items, size_pixel]
  rfl

theorem held_items (c : Config) : Held (code c) 1 (pages 1 (items c)) := by
  intro i page here
  rw [Nat.add_comm, code, List.cons_append, List.cons_append, List.getElem?_cons_succ,
    List.append_assoc, List.getElem?_append_left (List.getElem?_eq_some_iff.mp here).1]
  exact here

theorem held_pixel (c : Config) : Held (code c) 147 (pages 147 (pixel c.fillColor)) := by
  have whole : Held (code c) 0 ((startListing c.pixelCount :: pages 1 (items c)) ++
      (pages 147 (pixel c.fillColor) ++ [controlListing, spinListing])) := by
    intro i page here
    rw [Nat.zero_add, code, List.append_assoc]
    exact here
  have rest := whole.append.2.append.1
  rwa [List.length_cons, length_pages, size_items] at rest

/-- The image ends with the control page and the page that spins. -/
theorem held_end (c : Config) : (code c)[163]? = some controlListing ∧ (code c)[164]? = some spinListing := by
  have length : (startListing c.pixelCount :: pages 1 (items c) ++ pages 147 (pixel c.fillColor)).length =
      163 := by
    rw [List.length_append, List.length_cons, length_pages, length_pages, size_items, size_pixel]
  rw [code, List.getElem?_append_right (by omega), List.getElem?_append_right (by omega), length]
  exact ⟨rfl, rfl⟩

/-- A pixel is two data bytes, the high one of its colour first. -/
theorem pixel_sent (c : Config) : (pixel c.fillColor).flatMap Item.sent =
    [data (c.fillColor >>> 8), data (c.fillColor &&& 0xFF)] := by
  have small := c.fillColor_lt
  have high : (c.fillColor >>> 8) &&& 0xFF = c.fillColor >>> 8 := by
    rw [Nat.and_two_pow_sub_one_eq_mod _ 8, Nat.shiftRight_eq_div_pow]
    omega
  change [data ((c.fillColor >>> 8) &&& 0xFF), data (c.fillColor &&& 0xFF)] = _
  rw [high]

/-- The program arrives on page 1. -/
def entered (s : State) : Option (BitVec 32) := if s.page = 1 ∧ s.pc = 0xB4 then some (s.x 5) else none

section Whole

variable {c : Config} {image : List (BitVec 8)} (lists : Lists image (code c))
  {r : Clocked.Run (Paged.step image)} {m k : Nat} {x : RegFile}
include lists

/-- Page 0, from its first instruction or from the one after it. -/
theorem leads_start (here : r.state m = some (onPage 0 k x)) (entry : k = 0 ∨ k = 1) :
    ∃ m' x', Leads r entered m m' (onPage 1 0 x') (.ofWrites [0]) := by
  have quiet (j : Nat) (y : RegFile) : entered (onPage 0 j y) = none :=
    if_neg fun first => absurd first.1 (by decide : (0 : BitVec 8) ≠ 1)
  have held : (code c)[(0 : BitVec 8).toNat]? = some (startListing c.pixelCount) := rfl
  have clears : ∃ m' y, Leads r entered m m' (onPage 0 8 y) (.ofWrites [0]) := by
    rw [startListing] at held
    by_cases high : c.pixelCount >>> 12 = 0
    · rw [if_neg (not_not.mpr high)] at held
      rcases entry with rfl | rfl
      · obtain ⟨m', loads⟩ := leads_straight lists held here (n := 8) rfl fun j y _ _ => quiet j y
        exact ⟨m', _, loads⟩
      · obtain ⟨m', loads⟩ := leads_straight lists held here (n := 7) rfl fun j y _ _ => quiet j y
        exact ⟨m', _, loads⟩
    · rw [if_pos high] at held
      rcases entry with rfl | rfl
      · obtain ⟨m', loads⟩ := leads_straight lists held here (n := 8) rfl fun j y _ _ => quiet j y
        exact ⟨m', _, loads⟩
      · obtain ⟨m', loads⟩ := leads_straight lists held here (n := 7) rfl fun j y _ _ => quiet j y
        exact ⟨m', _, loads⟩
  obtain ⟨m₁, y, clears⟩ := clears
  have tail : (startListing c.pixelCount).drop 8 = leave 1 := by
    rw [startListing]
    split <;> rfl
  obtain ⟨m₂, leaves⟩ := leads_leave lists held 1 clears.reached tail (fun j y _ _ => quiet j y)
    (by rw [length_code]; omega) (by omega) fun y => if_neg fun first => by
      simpa [onPage] using congrArg BitVec.toNat first.2
  exact ⟨m₂, _, clears.trans leaves⟩

/-- The control page counts `x5` down, and goes to the pixel's pages or, at zero, to the last page. -/
theorem leads_control (here : r.state m = some (onPage 163 0 x)) :
    ∃ m' x', Leads r noMark m m' (onPage (if x 5 + (-1) = 0 then 164 else 147) 0 x') .empty ∧
      x' 5 = x 5 + (-1) := by
  have held : (code c)[(163 : BitVec 8).toNat]? = some controlListing := (held_end c).1
  obtain ⟨m₁, counts⟩ := leads_straight lists held here (n := 1) (j := 1)
    (y := writeReg x 5 (x 5 + (-1))) (w := []) rfl fun _ _ _ _ => unmarked _
  have branched := leads_branch lists held noMark counts.reached
    (show controlListing[1]? = some (.branch .bne 5 0 12) from rfl) (by decide)
    (show Paged.jump 1 12 = 4 from rfl)
  change Leads r noMark m₁ (m₁ + 1) (onPage 163 (if (!decide (x 5 + (-1) = 0)) then 4 else 2) _) _ at branched
  have through := counts.trans branched
  by_cases last : x 5 + (-1) = 0
  · rw [if_neg (by simpa using last)] at through
    obtain ⟨m₂, turned⟩ := leads_turn lists held through.reached 
      (show line controlListing 8 2 _ = some ⟨10, some 164, _, []⟩ from rfl) (fun _ _ _ _ => unmarked _)
      (by rw [length_code]; decide) (unmarked _)
    rw [if_pos last]
    exact ⟨m₂, _, through.trans turned, rfl⟩
  · rw [if_pos (by simpa using last)] at through
    obtain ⟨m₂, turned⟩ := leads_turn lists held through.reached 
      (show line controlListing 6 4 _ = some ⟨10, some 147, _, []⟩ from rfl) (fun _ _ _ _ => unmarked _)
      (by rw [length_code]; decide) (unmarked _)
    rw [if_neg last]
    exact ⟨m₂, _, through.trans turned, rfl⟩

/-- The pages of a pixel send its two bytes and lead to the control page. -/
theorem leads_pixel (here : r.state m = some (onPage 147 0 x)) :
    ∃ m' x', Leads r noMark m m' (onPage 163 0 x')
      (.ofWrites (wire [data (c.fillColor >>> 8), data (c.fillColor &&& 0xFF)])) ∧ x' 5 = x 5 := by
  have few : (code c).length ≤ 256 := by
    rw [length_code]
    omega
  obtain ⟨m', x', sends, kept⟩ := leads_items (k := 147) lists few (held_pixel c)
    (by rw [size_pixel, length_code]; omega) here
  rw [size_pixel, pixel_sent] at sends
  exact ⟨m', x', sends, kept⟩

/-- The fill ring, for `n` pixels and one more. -/
theorem leads_ring {n : Nat} (small : n + 1 < 2 ^ 32) (here : r.state m = some (onPage 147 0 x))
    (left : x 5 = .ofNat 32 (n + 1)) :
    ∃ m' x', Leads r noMark m m' (onPage 164 0 x')
      (.ofWrites (wire (List.replicate (n + 1)
        [data (c.fillColor >>> 8), data (c.fillColor &&& 0xFF)]).flatten)) := by
  induction n generalizing m x with
  | zero =>
      obtain ⟨m₁, x₁, sends, kept⟩ := leads_pixel lists here
      obtain ⟨m₂, x₂, ends, -⟩ := leads_control lists sends.reached
      rw [kept, left, if_pos (by decide)] at ends
      exact ⟨m₂, x₂, sends.trans ends⟩
  | succ n ih =>
      obtain ⟨m₁, x₁, sends, kept⟩ := leads_pixel lists here
      obtain ⟨m₂, x₂, again, fewer⟩ := leads_control lists sends.reached
      have next : x₁ 5 + (-1) = .ofNat 32 (n + 1) := by
        rw [kept, left, counter_pred]
      rw [next, if_neg (counter_ne_zero (by omega))] at again
      obtain ⟨m₃, x₃, rest⟩ := ih (by omega) again.reached (fewer.trans next)
      refine ⟨m₃, x₃, ?_⟩
      rw [List.replicate_succ, List.flatten_cons, Panel.wire_append, ← Log.ofWrites_append]
      exact (sends.trans again).trans rest

/-- The last page goes round for ever and writes nothing. -/
theorem leads_spin (here : r.state m = some (onPage 164 0 x)) (n : Nat) :
    Leads r noMark m (m + n) (onPage 164 0 x) .empty := by
  have held : (code c)[(164 : BitVec 8).toNat]? = some spinListing := (held_end c).2
  induction n with
  | zero => exact Leads.refl here
  | succ n ih =>
      exact ih.trans (leads_jump lists held ih.reached
        (show spinListing[0]? = some (.jal 0 0) from rfl) (by decide) (unmarked _)
        (show Paged.jump 0 0 = 0 from rfl))

/-- The pages of the initialisation send its commands and lead to the pixel's pages. -/
theorem leads_init (here : r.state m = some (onPage 1 0 x)) :
    ∃ m' x', Leads r noMark m m' (onPage 147 0 x') (.ofWrites (wire ((items c).flatMap Item.sent))) ∧
      x' 5 = x 5 := by
  have few : (code c).length ≤ 256 := by
    rw [length_code]
    omega
  obtain ⟨m', x', sends, kept⟩ := leads_items (k := 1) lists few (held_items c)
    (by rw [size_items, length_code]; omega) here
  rw [size_items] at sends
  exact ⟨m', x', sends, kept⟩

/-- From page 1 on, with `n` pixels to send: what is written, and that nothing is written after that. -/
theorem sends (here : r.state m = some (onPage 1 0 x)) {n : Nat} (pixels : (x 5).toNat = n)
    (some_ : 1 ≤ n) :
    ∃ m', m ≤ m' ∧ (∀ t, m' ≤ t → (r.state t).isSome = true) ∧
      ∀ t, m' ≤ t → r.observe (written image) m (t - m) = wire (c.stream n) := by
  obtain ⟨left, rfl⟩ : ∃ left, n = left + 1 := ⟨n - 1, by omega⟩
  obtain ⟨m₁, x₁, init, kept⟩ := leads_init lists here
  have count : x₁ 5 = .ofNat 32 (left + 1) := by
    rw [kept, ← pixels, BitVec.ofNat_toNat, BitVec.setWidth_eq]
  have small : left + 1 < 2 ^ 32 := pixels ▸ (x 5).isLt
  obtain ⟨m₂, x₂, ring⟩ := leads_ring lists small init.reached count
  have whole := init.trans ring
  rw [Log.ofWrites_append, ← Panel.wire_append] at whole
  refine ⟨m₂, whole.upto, fun t after => ?_, fun t after => ?_⟩
  · obtain ⟨j, rfl⟩ := Nat.exists_eq_add_of_le after
    rw [(leads_spin lists ring.reached j).reached]
    rfl
  · obtain ⟨j, rfl⟩ := Nat.exists_eq_add_of_le after
    have all := whole.trans (leads_spin lists ring.reached j)
    rw [Log.append_empty] at all
    exact all.writes

end Whole

/-- The image that the script builds, from page 0.  Page 0 clears GPIO_OUT and leaves in `x5` how many
pixels are to be sent; if there are any, then what follows on GPIO_OUT sends the initialisation and
these pixels, and nothing else is ever written. -/
theorem image_sends (c : Config) : ∃ image, PagedAsm.image (script c) = some image ∧
    ∀ (r : Clocked.Run (Paged.step image)) (k : Nat) (x : RegFile), k = 0 ∨ k = 1 →
      r.state 0 = some (onPage 0 k x) →
      ∃ m x', r.state m = some (onPage 1 0 x') ∧ (∀ j y, j < m → r.state j ≠ some (onPage 1 0 y)) ∧
        (1 ≤ (x' 5).toNat → (∀ t, (r.state t).isSome = true) ∧
          ∃ m' ws, (∀ t, m' ≤ t → r.observe (written image) 0 t = 0 :: ws) ∧
            Panel.samples 0 ws = (c.stream (x' 5).toNat).flatMap Sent.bits ∧
            (∀ w ∈ ws, Panel.cs w = false) ∧ Panel.Steady 0 ws) := by
  obtain ⟨image, built, lists⟩ := (builds_script c).image
  refine ⟨image, built, fun r k x entry start => ?_⟩
  obtain ⟨m, x', begins⟩ := leads_start lists start entry
  refine ⟨m, x', begins.reached, fun j y before there => ?_, fun some_ => ?_⟩
  · have bare : r.observe (marked entered) 0 m = [] := begins.marks
    have seen := (r.mem_observe (marked entered) (a := 0) (n := m) (b := y 5)).mpr
      ⟨j, Nat.zero_le j, by omega, by rw [there]; rfl⟩
    rw [bare] at seen
    cases seen
  · obtain ⟨m', later, alive, all⟩ := sends lists begins.reached rfl some_
    refine ⟨fun t => Paged.isSome_before (alive _ (le_max_left m' t)) (le_max_right m' t), m',
      wire (c.stream (x' 5).toNat), fun t after => ?_, Panel.samples_pulses _ _,
      Panel.selected_pulses _, Panel.steady_pulses _ _⟩
    have cut := r.observe_cut (written image) (Nat.zero_le m) (later.trans after)
    rw [begins.writes, all t after] at cut
    exact cut

end St7789

end Programs

end AgilA32
