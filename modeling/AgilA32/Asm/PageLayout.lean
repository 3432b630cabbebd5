import AgilA32.Asm.Layout
import AgilA32.Asm.PagedAsm

/-!
# The layout of a page

Whatever ends a page of a 44-byte window pads it with NOPs, stores a page number at offset 36 and jumps
back at offset 40 (`switchTo_eq`, `switchToComputed_eq`).  So every page that `PagedAsm` finishes ends in
the two reserved words (`Laid`).
-/

namespace AgilA32

open Asm (Built methods listing)

def Method.nop : Method := .addi 0 0 0

namespace PagedAsm

/-- The 44-byte window at `0xB4`, with `FLASH_PAGE` at `0xFC`. -/
structure Window (p : PagedAsm) : Prop where
  loadBase : p.loadBase = 0xB4
  windowBytes : p.windowBytes = 44
  flashPageAddr : p.flashPageAddr = 0xFC

/-- `k` NOPs at the end of a program. -/
def pad : Nat → Asm → Asm
  | 0, a => a
  | k + 1, a => pad k (a.exec .nop)

theorem built_pad {base : Int} {es : List Emitted} {a : Asm} (built : Built base es a) (k : Nat) :
    Built base (es ++ List.replicate k Method.nop.emits) (pad k a) := by
  induction k generalizing es a with
  | zero =>
      rw [List.replicate_zero, List.append_nil]
      exact built
  | succ k ih =>
      have more := ih (built.emit Method.nop.emits)
      rwa [List.append_assoc, List.singleton_append, ← List.replicate_succ] at more

theorem pad_labels (k : Nat) (a : Asm) : (pad k a).labels = a.labels := by
  induction k generalizing a with
  | zero => rfl
  | succ k ih => exact ih _

section Ending

variable {p : PagedAsm} {es : List Emitted}

theorem bytesUsed_eq (built : Built 0xB4 es p.cur) :
    p.bytesUsed = 4 * es.length := by
  rw [bytesUsed, built.addr, built.base]
  omega

theorem padLoop_eq (window : Window p) (built : Built 0xB4 es p.cur) {q fuel : Nat}
    (enough : q ≤ es.length + fuel) (upto : es.length ≤ q) :
    padLoop (4 * q) fuel p = { p with cur := pad (q - es.length) p.cur } := by
  induction fuel generalizing p es with
  | zero =>
      rw [show q - es.length = 0 by omega]
      rfl
  | succ fuel ih =>
      rw [padLoop, bytesUsed_eq built]
      rcases Nat.eq_or_lt_of_le upto with full | room
      · rw [if_neg (by omega), show q - es.length = 0 by omega]
        rfl
      · rw [if_pos (by omega)]
        have next := ih (p := p.nop) ⟨window.loadBase, window.windowBytes, window.flashPageAddr⟩
          (built.emit Method.nop.emits) (by simp; omega) (by simp; omega)
        rw [List.length_append, List.length_singleton] at next
        rw [next, show q - es.length = q - (es.length + 1) + 1 by omega]
        rfl

theorem padTo_eq (window : Window p) (built : Built 0xB4 es p.cur) (q : Nat) :
    p.padTo (4 * q) =
      if es.length ≤ q then some { p with cur := pad (q - es.length) p.cur } else none := by
  rw [padTo, bytesUsed_eq built]
  by_cases upto : es.length ≤ q
  · rw [if_pos (by omega), if_pos upto, padLoop_eq window built (by omega) upto]
  · rw [if_neg (by omega), if_neg upto]

/-- The page `a` is finished, if `finalize` accepts it. -/
def turnPage (p : PagedAsm) (a : Asm) : Option PagedAsm := do
  let words ← a.finalize
  let pageBytes ← wordsToBytes words
  some { p with
    pages := p.pages ++ [pageBytes], curPageNum := p.curPageNum + 1, cur := Asm.new p.loadBase }

/-- The store to `FLASH_PAGE` and the trampoline. -/
def reserved (reg : Nat) (a : Asm) : Asm :=
  (a.exec (.sw reg 0 0xFC)).emit (.word (jalWord 0 (-40)))

theorem built_reserved {a : Asm} (built : Built 0xB4 es a) (reg : Nat) :
    Built 0xB4 (es ++ [(Method.sw reg 0 0xFC).emits, .word (jalWord 0 (-40))]) (reserved reg a) := by
  have both := (built.emit (Method.sw reg 0 0xFC).emits).emit (.word (jalWord 0 (-40)))
  rwa [List.append_assoc] at both

theorem finishSwitch_eq (window : Window p) {a : Asm} (built : Built 0xB4 es a) (reg : Nat) :
    finishSwitch { p with cur := a } reg =
      if es.length = 9 then p.turnPage (reserved reg a) else none := by
  have used : bytesUsed { p with cur := a } = 4 * es.length := bytesUsed_eq built
  have offset : switchOffset { p with cur := a } = 36 := by
    rw [switchOffset, window.windowBytes]
    rfl
  rw [finishSwitch, used, offset]
  by_cases nine : es.length = 9
  · rw [if_pos (by omega), if_pos nine]
    have addr : (a.exec (.sw reg 0 0xFC)).addr = 220 := by
      refine (built.emit (Method.sw reg 0 0xFC).emits).addr.trans ?_
      rw [List.length_append, List.length_singleton, nine]
      rfl
    have jump : emitTrampoline { p with cur := a.exec (.sw reg 0 p.flashPageAddr) } =
        some { p with cur := reserved reg a } := by
      simp only [emitTrampoline, trampolineOffset, window.flashPageAddr, addr, window.loadBase,
        window.windowBytes]
      rfl
    refine (congrArg (Option.bind · finishCurrentPage) jump).trans ?_
    rw [Option.bind_some, finishCurrentPage, turnPage]
    refine Option.bind_congr fun words accepted => ?_
    have eleven := ((built_reserved built reg).finalize accepted).1
    rw [List.length_append, nine] at eleven
    refine Option.bind_congr fun bytes packed => ?_
    obtain ⟨-, result⟩ := Option.ite_none_right_eq_some.mp packed
    cases result
    rw [(flatMap_wordToBytes words).1, eleven]
    exact if_pos window.windowBytes.symm
  · rw [if_neg (by omega), if_neg nine]

/-- `switch_to` on a page of at most eight instructions: NOPs up to the eighth, the load of the number and
the reserved words.  On a fuller page it raises. -/
theorem switchTo_eq (window : Window p) (built : Built 0xB4 es p.cur) (next : Int)
    (scratch : Option Nat) :
    p.switchTo next scratch =
      if es.length ≤ 8 then
        p.turnPage (reserved (scratch.getD p.switchScratchReg)
          ((pad (8 - es.length) p.cur).exec (.addi (scratch.getD p.switchScratchReg) 0 next)))
      else none := by
  have target : p.switchOffset - 4 = 4 * (8 : Nat) := by
    rw [switchOffset, window.windowBytes]
    rfl
  rw [switchTo, target, padTo_eq window built]
  split
  case isTrue upto =>
    have padded := (built_pad built (8 - es.length)).emit
      (Method.addi (scratch.getD p.switchScratchReg) 0 next).emits
    exact (finishSwitch_eq window padded _).trans (if_pos (by simp; omega))
  case isFalse => rfl

/-- `switch_to_computed` on a page of at most nine instructions: NOPs up to the ninth and the reserved
words.  On a fuller page it raises. -/
theorem switchToComputed_eq (window : Window p) (built : Built 0xB4 es p.cur) (scratch : Option Nat) :
    p.switchToComputed scratch =
      if es.length ≤ 9 then
        p.turnPage (reserved (scratch.getD p.switchScratchReg) (pad (9 - es.length) p.cur))
      else none := by
  have target : p.switchOffset = 4 * (9 : Nat) := by
    rw [switchOffset, window.windowBytes]
    rfl
  rw [switchToComputed, target, padTo_eq window built]
  split
  case isTrue upto =>
    exact (finishSwitch_eq window (built_pad built _) _).trans (if_pos (by simp; omega))
  case isFalse => rfl

end Ending

/-! ## Finished pages -/

/-- A page: eleven words, the last two reserved. -/
structure Page (page : List (BitVec 8)) (words : List Nat) (reg : Nat) : Prop where
  bytes : page = words.flatMap wordToBytes
  length : words.length = 11
  switch : words[9]? = some (storeWord 0b010 reg 0 0xFC)
  trampoline : words[10]? = some (jalWord 0 (-40))

theorem turnPage_page {p p' : PagedAsm} {es : List Emitted} {a : Asm} {reg : Nat}
    (built : Built 0xB4 es a) (nine : es.length = 9)
    (finished : p.turnPage (reserved reg a) = some p') :
    ∃ page words, Page page words reg ∧ (reserved reg a).finalize = some words ∧
      p' = { p with
        pages := p.pages ++ [page], curPageNum := p.curPageNum + 1, cur := Asm.new p.loadBase } := by
  obtain ⟨words, accepted, finished⟩ := Option.bind_eq_some_iff.mp finished
  obtain ⟨page, packed, finished⟩ := Option.bind_eq_some_iff.mp finished
  cases finished
  obtain ⟨-, result⟩ := Option.ite_none_right_eq_some.mp packed
  cases result
  obtain ⟨length, entries⟩ := (built_reserved built reg).finalize accepted
  have last (i : Nat) (e : Emitted) (w : Nat) (word : e = .word w)
      (here : [(Method.sw reg 0 0xFC).emits, .word (jalWord 0 (-40))][i]? = some e) :
      words[9 + i]? = some w := by
    obtain ⟨v, there, emits | ⟨f, -, emits, -⟩⟩ := entries (9 + i) e (by
      rw [List.getElem?_append_right (by omega), nine, Nat.add_sub_cancel_left, here])
    · rw [word] at emits
      cases emits
      exact there
    · rw [word] at emits
      cases emits
  exact ⟨_, words, ⟨rfl, by rw [length, List.length_append, nine]; rfl, last 0 _ _ rfl rfl,
    last 1 _ _ rfl rfl⟩, accepted, rfl⟩

/-- The scratch register of a call, if it names one, is a register. -/
def Call.RegInRange : Call → Prop
  | .page _ => True
  | .switchTo _ scratch | .switchToComputed scratch | .finalizeLastPage scratch =>
      ∀ r, scratch = some r → r < 32

/-- All finished pages end in the reserved words, for some register. -/
structure Laid (p : PagedAsm) : Prop where
  window : Window p
  cur : ∃ es, Built 0xB4 es p.cur
  reg : p.switchScratchReg < 32
  pages : ∀ page ∈ p.pages, ∃ words reg, reg < 32 ∧ Page page words reg

theorem laid_default {reg : Nat} (small : reg < 32) : Laid (PagedAsm.default reg) where
  window := ⟨rfl, rfl, rfl⟩
  cur := ⟨_, (Built.new 0xB4).emit Method.nop.emits⟩
  reg := small
  pages _ member := by cases member

namespace Laid

variable {p p' : PagedAsm}

theorem turned (laid : Laid p) {es : List Emitted} {a : Asm} {reg : Nat} (small : reg < 32)
    (built : Built 0xB4 es a) (nine : es.length = 9)
    (finished : p.turnPage (reserved reg a) = some p') : Laid p' := by
  obtain ⟨page, words, is_page, -, rfl⟩ := turnPage_page built nine finished
  refine ⟨⟨laid.window.loadBase, laid.window.windowBytes, laid.window.flashPageAddr⟩, ⟨[], ?_⟩,
    laid.reg, fun page' member => ?_⟩
  · rw [laid.window.loadBase]
    exact Built.new 0xB4
  · rcases List.mem_append.mp member with old | new
    · exact laid.pages page' old
    · rw [List.mem_singleton.mp new]
      exact ⟨words, reg, small, is_page⟩

theorem scratch_lt (laid : Laid p) {scratch : Option Nat} (small : ∀ r, scratch = some r → r < 32) :
    scratch.getD p.switchScratchReg < 32 := by
  cases scratch with
  | none => exact laid.reg
  | some r => exact small r rfl

theorem switchTo (laid : Laid p) {next : Int} {scratch : Option Nat}
    (small : ∀ r, scratch = some r → r < 32) (done : p.switchTo next scratch = some p') :
    Laid p' := by
  obtain ⟨es, built⟩ := laid.cur
  rw [switchTo_eq laid.window built] at done
  obtain ⟨fits, done⟩ := Option.ite_none_right_eq_some.mp done
  exact laid.turned (laid.scratch_lt small) ((built_pad built _).emit (Method.addi _ 0 next).emits)
    (by simp; omega) done

theorem switchToComputed (laid : Laid p) {scratch : Option Nat}
    (small : ∀ r, scratch = some r → r < 32) (done : p.switchToComputed scratch = some p') :
    Laid p' := by
  obtain ⟨es, built⟩ := laid.cur
  rw [switchToComputed_eq laid.window built] at done
  obtain ⟨fits, done⟩ := Option.ite_none_right_eq_some.mp done
  exact laid.turned (laid.scratch_lt small) (built_pad built _) (by simp; omega) done

theorem call (laid : Laid p) {c : Call} (small : c.RegInRange) (done : p.call c = some p') :
    Laid p' := by
  cases c with
  | page c =>
      obtain ⟨cur, called, rfl⟩ := Option.map_eq_some_iff.mp done
      obtain ⟨es, built⟩ := laid.cur
      exact ⟨⟨laid.window.loadBase, laid.window.windowBytes, laid.window.flashPageAddr⟩,
        ⟨_, built.call called⟩, laid.reg, laid.pages⟩
  | switchTo next scratch => exact laid.switchTo small done
  | switchToComputed scratch => exact laid.switchToComputed small done
  | finalizeLastPage scratch => exact laid.switchTo small done

theorem build (laid : Laid p) {calls : List Call} (small : ∀ c ∈ calls, c.RegInRange)
    (done : p.build calls = some p') : Laid p' := by
  induction calls generalizing p with
  | nil =>
      cases done
      exact laid
  | cons c calls ih =>
      rw [PagedAsm.build, List.foldlM_cons] at done
      obtain ⟨p'', first, rest⟩ := Option.bind_eq_some_iff.mp done
      exact ih (laid.call (small c (List.mem_cons_self ..)) first)
        (fun c' member => small c' (List.mem_cons_of_mem _ member)) rest

/-- Page `k` of the image is the 44 bytes from `44 * k` on. -/
theorem image (laid : Laid p) : p.finalize.length = 44 * p.pages.length ∧
    ∀ k page, p.pages[k]? = some page → ∀ j, j < 44 → p.finalize[44 * k + j]? = page[j]? :=
  flatten_uniform p.pages fun page member => by
    obtain ⟨words, -, -, bytes, length, -⟩ := laid.pages page member
    rw [bytes, (flatMap_wordToBytes words).1, length]

end Laid

end PagedAsm

/-! ## Words of an image -/

/-- The word at a byte offset of an image. -/
def wordOf (image : List (BitVec 8)) (n : Nat) : BitVec 32 :=
  Verilog.ofBytes fun j => image.getD (n + j) 0

/-- The last two words of every page are a store to `FLASH_PAGE` and the jump back to `0xB4`. -/
theorem PagedAsm.Laid.reserved {p : PagedAsm} (laid : Laid p) {k : Nat} (exists_ : k < p.pages.length) :
    ∃ reg : BitVec 5,
      Rv32i.decode (wordOf p.finalize (44 * k + 36)) = some (.store .sw 0 reg 0xFC) ∧
      Rv32i.decode (wordOf p.finalize (44 * k + 40)) = some (.jal 0 (-40)) := by
  obtain ⟨words, reg, small, page⟩ := laid.pages _ (List.getElem_mem exists_)
  have word (i w : Nat) (within : i < 11) (here : words[i]? = some w) :
      wordOf p.finalize (44 * k + 4 * i) = .ofNat 32 w := by
    rw [← ofBytes_word, wordOf]
    refine Verilog.eq_of_byteAt (c := 4) rfl fun j inside => ?_
    rw [Verilog.byteAt_ofBytes _ inside, Verilog.byteAt_ofBytes _ inside, List.getD_eq_getElem?_getD,
      Nat.add_assoc, laid.image.2 k _ (List.getElem?_eq_getElem exists_) _ (by omega), page.bytes,
      (flatMap_wordToBytes words).2 i w here j inside]
    rfl
  refine ⟨.ofNat 5 reg, ?_, ?_⟩
  · rw [word 9 _ (by omega) page.switch]
    refine decode_store ⟨small, by omega, by omega, by omega⟩ (by omega) fun w h3 => ?_
    rw [Rv32i.decodeStore, h3]
    rfl
  · rw [word 10 _ (by omega) page.trampoline]
    exact decode_jal (by omega) (by omega) (by omega) (by omega)

end AgilA32
