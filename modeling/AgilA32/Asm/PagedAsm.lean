import AgilA32.Asm.Asm

/-!
# Paged flash images: `PagedAsm` of `tools/asm_pineapple.py`

A flash image is built page by page, each page a program for the same window.  The last two words of
a page are reserved: the store to `FLASH_PAGE` that leaves the page, and the trampoline.
-/

namespace AgilA32

structure PagedAsm where
  loadBase : Int
  windowBytes : Int
  flashPageAddr : Int
  switchScratchReg : Nat
  pages : List (List (BitVec 8))
  curPageNum : Nat
  cur : Asm
  deriving DecidableEq, Repr

namespace PagedAsm

def switchOffset (p : PagedAsm) : Int := p.windowBytes - 8
def trampolineOffset (p : PagedAsm) : Int := p.windowBytes - 4

/-- `__init__`: page 0 begins with a dead NOP, unless it is loaded at 0. -/
def new (loadBase windowBytes flashPageAddr : Int) (switchScratchReg : Nat) : PagedAsm where
  loadBase := loadBase
  windowBytes := windowBytes
  flashPageAddr := flashPageAddr
  switchScratchReg := switchScratchReg
  pages := []
  curPageNum := 0
  cur := if loadBase ≠ 0 then (Asm.new loadBase).exec (.addi 0 0 0) else Asm.new loadBase

/-- The 44-byte window at `0xB4`, with `FLASH_PAGE` at `0xFC`. -/
def default (switchScratchReg : Nat) : PagedAsm := new 0xB4 44 0xFC switchScratchReg

def bytesUsed (p : PagedAsm) : Int := p.cur.addr - p.cur.base

def nop (p : PagedAsm) : PagedAsm := { p with cur := p.cur.exec (.addi 0 0 0) }

/-- The loop of `_pad_to`, for at most `fuel` rounds. -/
def padLoop (target : Int) : Nat → PagedAsm → PagedAsm
  | 0, p => p
  | fuel + 1, p => if p.bytesUsed < target then padLoop target fuel p.nop else p

/-- `_pad_to`.  Each round of its loop uses up four bytes of the distance, so the loop ends within as
many rounds as the distance. -/
def padTo (p : PagedAsm) (target : Int) : Option PagedAsm :=
  if p.bytesUsed ≤ target then some (padLoop target (target - p.bytesUsed).toNat p) else none

def emitTrampoline (p : PagedAsm) : Option PagedAsm :=
  let off := p.loadBase - p.cur.addr
  if off = -p.trampolineOffset ∧ -1048576 ≤ off ∧ off < 1048576 ∧ off % 2 = 0 then
    some { p with cur := p.cur.emit (.word (jalWord 0 off)) }
  else none

def finishCurrentPage (p : PagedAsm) : Option PagedAsm := do
  let words ← p.cur.finalize
  let pageBytes ← wordsToBytes words
  if (pageBytes.length : Int) = p.windowBytes then
    some { p with
      pages := p.pages ++ [pageBytes], curPageNum := p.curPageNum + 1, cur := Asm.new p.loadBase }
  else none

/-- The reserved words and the end of the page, common to both kinds of switch. -/
def finishSwitch (p : PagedAsm) (reg : Nat) : Option PagedAsm := do
  if p.bytesUsed = p.switchOffset then
    let p ← emitTrampoline { p with cur := p.cur.exec (.sw reg 0 p.flashPageAddr) }
    p.finishCurrentPage
  else none

def switchTo (p : PagedAsm) (nextPageNum : Int) (scratchReg : Option Nat) : Option PagedAsm := do
  let reg := scratchReg.getD p.switchScratchReg
  let p ← p.padTo (p.switchOffset - 4)
  finishSwitch { p with cur := p.cur.exec (.addi reg 0 nextPageNum) } reg

def switchToComputed (p : PagedAsm) (scratchReg : Option Nat) : Option PagedAsm := do
  let reg := scratchReg.getD p.switchScratchReg
  let p ← p.padTo p.switchOffset
  p.finishSwitch reg

def finalizeLastPage (p : PagedAsm) (scratchReg : Option Nat) : Option PagedAsm :=
  p.switchTo p.curPageNum scratchReg

/-- `finalize`: the flash image. -/
def finalize (p : PagedAsm) : List (BitVec 8) := p.pages.flatten

/-- The calls that build an image: on the current page, or ending it. -/
inductive Call
  | page (c : Asm.Call)
  | switchTo (nextPageNum : Int) (scratchReg : Option Nat)
  | switchToComputed (scratchReg : Option Nat)
  | finalizeLastPage (scratchReg : Option Nat)

def call (p : PagedAsm) : Call → Option PagedAsm
  | .page c => (p.cur.call c).map fun cur => { p with cur := cur }
  | .switchTo nextPageNum scratchReg => p.switchTo nextPageNum scratchReg
  | .switchToComputed scratchReg => p.switchToComputed scratchReg
  | .finalizeLastPage scratchReg => p.finalizeLastPage scratchReg

/-- The state after a sequence of calls, if none of them raises. -/
def build (p : PagedAsm) (calls : List Call) : Option PagedAsm := calls.foldlM call p

end PagedAsm

end AgilA32
