import AgilA32.Asm.Agree
import AgilA32.Asm.Script

/-!
# Any sequence of calls on a `PagedAsm`

`history` sorts the calls into the pages that they end and the calls on the page after these.  Every call
that does not raise keeps the builder in step with it (`Follows`), and what an ended page assembles to
(`Assembled`) settles every word of the image (`layout`).
-/

namespace AgilA32

open Asm (Built methods)
open AgilA32.Core (nextPcOf)
open Rv32i (decode)

namespace PagedAsm

/-- An ended page: the calls on it, and how it was ended. -/
structure Segment where
  own : List Asm.Call
  ending : Ending
  scratch : Option Nat

structure History where
  pages : List Segment
  own : List Asm.Call

namespace History

def finish (h : History) (ending : Ending) (scratch : Option Nat) : History :=
  ⟨h.pages ++ [⟨h.own, ending, scratch⟩], []⟩

def add (h : History) : Call → History
  | .page c => { h with own := h.own ++ [c] }
  | .switchTo next scratch => h.finish (.switchTo next) scratch
  | .switchToComputed scratch => h.finish .switchToComputed scratch
  | .finalizeLastPage scratch => h.finish (.switchTo h.pages.length) scratch

/-- All that is on the current page, with page 0's NOP. -/
def code (h : History) : List Asm.Call := head h.pages.length ++ h.own

end History

def history (calls : List Call) : History := calls.foldl History.add ⟨[], []⟩

/-! ## What a page assembles to -/

/-- The bytes of a page that was ended. -/
structure Assembled (code : List Asm.Call) (ending : Ending) (reg : Nat) (bytes : List (BitVec 8)) :
    Prop where
  fits : (methods code).length ≤ ending.room
  words : ∃ a words, (Asm.new 0xB4).build (fullCode code ending reg) = some a ∧
    (a.emit (.word (jalWord 0 (-40)))).finalize = some words ∧ bytes = words.flatMap wordToBytes

section Turn

variable {p : PagedAsm} {code : List Asm.Call}

/-- The call that ends a page so. -/
def Ending.call (scratch : Option Nat) : Ending → Call
  | .switchTo next => .switchTo next scratch
  | .switchToComputed => .switchToComputed scratch

/-- Ending a page raises if there is no room, and otherwise finishes it. -/
theorem call_ending (window : Window p) (built : (Asm.new 0xB4).build code = some p.cur)
    (ending : Ending) (scratch : Option Nat) :
    ∃ a, (Asm.new 0xB4).build (fullCode code ending (scratch.getD p.switchScratchReg)) = some a ∧
      a.labels = p.cur.labels ∧
      p.call (ending.call scratch) = if (methods code).length ≤ ending.room then
        p.turnPage (a.emit (.word (jalWord 0 (-40)))) else none := by
  have state := Asm.built_of_build built
  have length : ((methods code).map Method.emits).length = (methods code).length := List.length_map _
  have padded (k : Nat) (more : List Asm.Call) :
      (Asm.new 0xB4).build (code ++ (List.replicate k (.exec .nop) ++ more)) = (pad k p.cur).build more := by
    rw [Asm.build_append, built, Option.bind_some, Asm.build_append, build_nops, Option.bind_some]
  cases ending with
  | switchTo next =>
      refine ⟨_, padded _ _, pad_labels _ _, ?_⟩
      refine (switchTo_eq window state next scratch).trans ?_
      rw [length]
      rfl
  | switchToComputed =>
      refine ⟨_, padded _ _, pad_labels _ _, ?_⟩
      refine (switchToComputed_eq window state scratch).trans ?_
      rw [length]
      rfl

end Turn

/-! ## In step with the history -/

/-- The builder after the calls of a history. -/
structure Follows (reg : Nat) (p : PagedAsm) (h : History) : Prop where
  window : Window p
  scratch : p.switchScratchReg = reg
  num : p.curPageNum = h.pages.length
  cur : (Asm.new 0xB4).build h.code = some p.cur
  length : p.pages.length = h.pages.length
  pages : ∀ i s bytes, h.pages[i]? = some s → p.pages[i]? = some bytes →
    Assembled (head i ++ s.own) s.ending (s.scratch.getD reg) bytes

namespace Follows

variable {reg : Nat} {p p' : PagedAsm} {h : History}

theorem default (reg : Nat) : Follows reg (PagedAsm.default reg) ⟨[], []⟩ where
  window := ⟨rfl, rfl, rfl⟩
  scratch := rfl
  num := rfl
  cur := rfl
  length := rfl
  pages i s bytes here := by cases here

theorem finish (follows : Follows reg p h) (ending : Ending) {scratch : Option Nat}
    (done : p.call (ending.call scratch) = some p') : Follows reg p' (h.finish ending scratch) := by
  obtain ⟨a, built, -, called⟩ := call_ending follows.window follows.cur ending scratch
  rw [called] at done
  obtain ⟨fits, turned⟩ := Option.ite_none_right_eq_some.mp done
  obtain ⟨words, accepted, turned⟩ := Option.bind_eq_some_iff.mp turned
  obtain ⟨bytes, packed, turned⟩ := Option.bind_eq_some_iff.mp turned
  obtain ⟨-, result⟩ := Option.ite_none_right_eq_some.mp packed
  cases turned
  cases result
  rw [follows.scratch] at built
  have count : (h.finish ending scratch).pages.length = h.pages.length + 1 := List.length_append
  refine ⟨⟨follows.window.loadBase, follows.window.windowBytes, follows.window.flashPageAddr⟩,
    follows.scratch, ?_, ?_, ?_, fun i s bytes listed there => ?_⟩
  · rw [count]
    exact congrArg (· + 1) follows.num
  · rw [History.code, count, follows.window.loadBase]
    rfl
  · rw [count, List.length_append, follows.length]
    rfl
  · rcases Nat.lt_trichotomy i h.pages.length with before | rfl | after
    · rw [History.finish, List.getElem?_append_left before] at listed
      rw [List.getElem?_append_left (by rwa [follows.length])] at there
      exact follows.pages i s bytes listed there
    · rw [History.finish, List.getElem?_concat_length] at listed
      rw [← follows.length, List.getElem?_concat_length] at there
      cases listed
      cases there
      exact ⟨fits, a, words, built, accepted, rfl⟩
    · rw [List.getElem?_eq_none (by rw [count]; omega)] at listed
      cases listed

/-- One call that does not raise keeps the history in step with the assembler. -/
theorem call (follows : Follows reg p h) {c : Call} (done : p.call c = some p') :
    Follows reg p' (h.add c) := by
  cases c with
  | page c =>
      obtain ⟨cur, called, rfl⟩ := Option.map_eq_some_iff.mp done
      refine ⟨⟨follows.window.loadBase, follows.window.windowBytes, follows.window.flashPageAddr⟩,
        follows.scratch, follows.num, ?_, follows.length, follows.pages⟩
      rw [History.add, History.code, ← List.append_assoc, Asm.build_append]
      change ((Asm.new 0xB4).build h.code).bind _ = _
      rw [follows.cur, Option.bind_some, Asm.build_cons, called]
      rfl
  | switchTo next scratch => exact follows.finish (.switchTo next) done
  | switchToComputed scratch => exact follows.finish .switchToComputed done
  | finalizeLastPage scratch =>
      rw [PagedAsm.call, finalizeLastPage, follows.num] at done
      exact follows.finish (.switchTo h.pages.length) done

theorem build (follows : Follows reg p h) {calls : List Call} (done : p.build calls = some p') :
    Follows reg p' (calls.foldl History.add h) := by
  induction calls generalizing p h with
  | nil =>
      cases done
      exact follows
  | cons c calls ih =>
      rw [PagedAsm.build, List.foldlM_cons] at done
      obtain ⟨p'', first, rest⟩ := Option.bind_eq_some_iff.mp done
      exact ih (follows.call first) rest

end Follows

/-! ## The words of a page -/

/-- A label is set among the calls after `k` instructions. -/
def LabelAt (code : List Asm.Call) (name : String) (k : Nat) : Prop :=
  ∃ pre post, code = pre ++ .label name :: post ∧ (methods pre).length = k

theorem LabelAt.le {code : List Asm.Call} {name : String} {k : Nat} (set : LabelAt code name k) :
    k ≤ (methods code).length := by
  obtain ⟨pre, post, rfl, rfl⟩ := set
  rw [Asm.methods_append, List.length_append]
  omega

/-- The word that a method emits as instruction `j` of a page. -/
def Encodes (code : List Asm.Call) (j : Nat) (m : Method) (w : Nat) : Prop :=
  m.emits = .word w ∨ ∃ f k, m.emits = .fixup f ∧ LabelAt code f.target k ∧
    Asm.fixupWord (0xB4 + 4 * j) (0xB4 + 4 * k) f = some w

section Words

variable {code : List Asm.Call} {ending : Ending} {reg : Nat}

theorem own_fullCode {j : Nat} {m : Method} (here : (methods code)[j]? = some m) :
    (methods (fullCode code ending reg))[j]? = some m := by
  rw [methods_fullCode, List.getElem?_append_left (List.getElem?_eq_some_iff.mp here).1, here]

theorem nop_fullCode {j : Nat} (after : (methods code).length ≤ j) (before : j < ending.room) :
    (methods (fullCode code ending reg))[j]? = some .nop := by
  rw [methods_fullCode, List.getElem?_append_right after,
    List.getElem?_append_left (by rw [List.length_replicate]; omega),
    List.getElem?_replicate_of_lt (by omega)]

theorem tail_fullCode (fits : (methods code).length ≤ ending.room) (k : Nat) :
    (methods (fullCode code ending reg))[ending.room + k]? = (methods (ending.tail reg))[k]? := by
  rw [methods_fullCode, List.getElem?_append_right (by omega),
    List.getElem?_append_right (by rw [List.length_replicate]; omega), List.length_replicate]
  congr 1
  omega

/-- What the builder adds needs no label. -/
theorem word_added {m : Method} {k : Nat}
    (member : m ∈ List.replicate k Method.nop ++ methods (ending.tail reg)) : ∃ w, m.emits = .word w := by
  rcases List.mem_append.mp member with nop | tail
  · rw [List.eq_of_mem_replicate nop]
    exact ⟨_, rfl⟩
  · cases ending with
    | switchTo next =>
        rcases List.mem_pair.mp tail with rfl | rfl
        · exact ⟨_, rfl⟩
        · exact ⟨_, rfl⟩
    | switchToComputed =>
        rw [List.mem_singleton.mp tail]
        exact ⟨_, rfl⟩

theorem regs_fullCode (small : reg < 32) (regs : ∀ m ∈ methods code, m.RegsInRange) :
    ∀ m ∈ methods (fullCode code ending reg), m.RegsInRange := by
  intro m member
  rcases mem_fullCode member with own | rfl | ⟨next, -, rfl⟩ | rfl
  · exact regs m own
  · exact ⟨by omega, by omega⟩
  · exact ⟨small, by omega⟩
  · exact ⟨small, by omega⟩

/-- Only the caller's calls set labels. -/
theorem label_fullCode {name : String} {k : Nat} (set : LabelAt (fullCode code ending reg) name k) :
    LabelAt code name k := by
  obtain ⟨pre, post, split, count⟩ := set
  have unset : Asm.Call.label name ∉
      List.replicate (ending.room - (methods code).length) (.exec .nop) ++ ending.tail reg := by
    intro member
    rcases List.mem_append.mp member with nop | tail
    · cases List.eq_of_mem_replicate nop
    · cases ending <;> simp [Ending.tail] at tail
  rcases List.append_eq_append_iff.mp split with ⟨others, rfl, rest⟩ | ⟨own, rfl, rest⟩
  · exact (unset (by rw [rest]; simp)).elim
  · cases own with
    | nil => exact (unset (by rw [← List.nil_append (List.replicate _ _ ++ _), ← rest]; simp)).elim
    | cons c own =>
        cases rest
        exact ⟨pre, own, rfl, count⟩

/-- The words of an ended page, one for each method and the trampoline. -/
theorem Assembled.entries {bytes : List (BitVec 8)} (assembled : Assembled code ending reg bytes) :
    ∃ words : List Nat, bytes = words.flatMap wordToBytes ∧ words.length = 11 ∧
      words[10]? = some (jalWord 0 (-40)) ∧
      ∀ j m, (methods (fullCode code ending reg))[j]? = some m →
        ∃ w, words[j]? = some w ∧ Encodes code j m w := by
  obtain ⟨a, words, built, accepted, packed⟩ := assembled.words
  have ten : (methods (fullCode code ending reg)).length = 10 := length_methods_fullCode assembled.fits
  obtain ⟨length, entries⟩ :=
    ((Asm.built_of_build built).emit (.word (jalWord 0 (-40)))).finalize accepted
  rw [List.length_append, List.length_map, ten] at length
  refine ⟨words, packed, length, ?_, fun j m here => ?_⟩
  · obtain ⟨w, there, word | ⟨f, k, fixup, -⟩⟩ := entries 10 (.word (jalWord 0 (-40))) (by
      rw [List.getElem?_append_right (by rw [List.length_map]; omega), List.length_map, ten]
      rfl)
    · cases word
      exact there
    · cases fixup
  · have within := (List.getElem?_eq_some_iff.mp here).1
    obtain ⟨w, there, word⟩ := entries j m.emits (by
      rw [List.getElem?_append_left (by rwa [List.length_map]), List.getElem?_map, here]
      rfl)
    refine ⟨w, there, ?_⟩
    rcases word with emits | ⟨f, addr, emits, found, word⟩
    · exact .inl emits
    · have found : a.labels.lookup f.target = some addr := found
      obtain ⟨pre, post, split⟩ := Asm.set_of_lookup built found
      obtain rfl := Option.some.inj (found.symm.trans (Asm.lookup_of_set built split))
      exact .inr ⟨f, _, emits, label_fullCode ⟨pre, post, split, rfl⟩, word⟩

end Words

/-- The word `j` of page `i` of an image. -/
def pageWord (image : List (BitVec 8)) (i j : Nat) : BitVec 32 := wordOf image (44 * i + 4 * j)

/-- Page `i` of an image: the code, NOPs, the load of a constant target, the store to `FLASH_PAGE` and the
jump back to the start of the page. -/
structure LaidOut (image : List (BitVec 8)) (i : Nat) (code : List Asm.Call) (ending : Ending) (reg : Nat) :
    Prop where
  fits : (methods code).length ≤ ending.room
  own : ∀ j m, (methods code)[j]? = some m → ∃ w, pageWord image i j = .ofNat 32 w ∧ Encodes code j m w
  padded : ∀ j, (methods code).length ≤ j → j < ending.room → pageWord image i j = 0x00000013
  load : ∀ next, ending = .switchTo next → decode (pageWord image i 8) =
    some (.aluImm .add (.ofNat 5 reg) 0 ((BitVec.ofInt 12 next).signExtend 32))
  switch : decode (pageWord image i 9) = some (.store .sw 0 (.ofNat 5 reg) 0xFC)
  trampoline : pageWord image i 10 = .ofNat 32 (jalWord 0 (-40)) ∧
    decode (pageWord image i 10) = some (.jal 0 (-40)) ∧
    ∀ regs, nextPcOf (pageWord image i 10) 0xDC regs = 0xB4
  jumps : ∀ j m name, (methods code)[j]? = some m → m.target = some name →
    ∃ k, k < 11 ∧ LabelAt code name k ∧ ∀ regs, m.Jumps regs →
      nextPcOf (pageWord image i j) (.ofNat 8 (0xB4 + 4 * j)) regs = .ofNat 8 (0xB4 + 4 * k)

/-- An `ADDI` from `x0` loads the low twelve bits of its immediate, with their sign. -/
theorem decode_load {reg : Nat} (small : reg < 32) (next : Int) :
    decode (.ofNat 32 (iWord next 0 0b000 reg opImm)) =
      some (.aluImm .add (.ofNat 5 reg) 0 ((BitVec.ofInt 12 next).signExtend 32)) := by
  have cut : s12 next = s12 (next.bmod 4096) := (congrArg Int.toNat Int.bmod_emod).symm
  have same : iWord next 0 0b000 reg opImm = iWord (next.bmod 4096) 0 0b000 reg opImm := by
    rw [iWord, iWord, cut]
  have value : (BitVec.ofInt 12 next).signExtend 32 = .ofInt 32 (next.bmod 4096) := by
    rw [BitVec.signExtend, BitVec.toInt_ofInt]
  have range : (Method.addi reg 0 (next.bmod 4096)).InRange :=
    ⟨small, by omega, Int.le_bmod (by omega), Int.bmod_lt (by omega)⟩
  rw [same, value]
  exact Method.decode_word (m := .addi reg 0 (next.bmod 4096)) rfl range 0

namespace Follows

variable {reg : Nat} {p : PagedAsm} {h : History} {i : Nat} {s : Segment}

theorem length_page (follows : Follows reg p h) : ∀ bytes ∈ p.pages, bytes.length = 44 := by
  intro bytes member
  obtain ⟨i, within, rfl⟩ := List.getElem_of_mem member
  have inside : i < h.pages.length := follows.length ▸ within
  obtain ⟨words, packed, eleven, -⟩ := (follows.pages i _ _ (List.getElem?_eq_getElem inside)
    (List.getElem?_eq_getElem within)).entries
  rw [packed, (flatMap_wordToBytes words).1, eleven]

theorem regs_code {own : List Asm.Call} (i : Nat) (regs : ∀ m ∈ methods own, m.RegsInRange) :
    ∀ m ∈ methods (head i ++ own), m.RegsInRange := by
  intro m member
  rw [Asm.methods_append] at member
  rcases List.mem_append.mp member with nop | mine
  · cases i with
    | zero =>
        rw [List.mem_singleton.mp nop]
        exact ⟨by omega, by omega⟩
    | succ i => cases nop
  · exact regs m mine

/-- The image is the pages one after the other, 44 bytes each. -/
theorem image (follows : Follows reg p h) : p.finalize.length = 44 * h.pages.length ∧
    ∀ i bytes, p.pages[i]? = some bytes → ∀ j, j < 44 → p.finalize[44 * i + j]? = bytes[j]? := by
  rw [← follows.length]
  exact flatten_uniform p.pages follows.length_page

theorem pageWord_eq (follows : Follows reg p h) {bytes : List (BitVec 8)} {words : List Nat} {j w : Nat}
    (here : p.pages[i]? = some bytes) (packed : bytes = words.flatMap wordToBytes) (eleven : words.length = 11)
    (there : words[j]? = some w) : pageWord p.finalize i j = .ofNat 32 w := by
  have within := (List.getElem?_eq_some_iff.mp there).1
  rw [← ofBytes_word, pageWord, wordOf]
  refine Verilog.eq_of_byteAt (c := 4) rfl fun k inside => ?_
  rw [Verilog.byteAt_ofBytes _ inside, Verilog.byteAt_ofBytes _ inside, List.getD_eq_getElem?_getD,
    Nat.add_assoc, follows.image.2 i bytes here _ (by omega), packed,
    (flatMap_wordToBytes words).2 j w there k inside]
  rfl

/-- What stands between the padding and the trampoline. -/
theorem tail_word (follows : Follows reg p h) (listed : h.pages[i]? = some s) (k : Nat) {m : Method} {w : Nat}
    (there : (methods (s.ending.tail (s.scratch.getD reg)))[k]? = some m) (emits : m.emits = .word w) :
    pageWord p.finalize i (s.ending.room + k) = .ofNat 32 w := by
  obtain ⟨inside, -⟩ := List.getElem?_eq_some_iff.mp listed
  have here := List.getElem?_eq_getElem (show i < p.pages.length from follows.length.symm ▸ inside)
  have assembled := follows.pages i s _ listed here
  obtain ⟨words, packed, eleven, -, entries⟩ := assembled.entries
  obtain ⟨v, found, encodes⟩ := entries _ m ((tail_fullCode assembled.fits k).trans there)
  rcases encodes with word | ⟨f, n, fixup, -⟩
  · rw [emits] at word
    cases word
    exact follows.pageWord_eq here packed eleven found
  · rw [emits] at fixup
    cases fixup

/-- A constant target is loaded at offset 32. -/
theorem load (follows : Follows reg p h) (listed : h.pages[i]? = some s)
    (small : s.scratch.getD reg < 32) {next : Int} (ending : s.ending = .switchTo next) :
    decode (pageWord p.finalize i 8) =
      some (.aluImm .add (.ofNat 5 (s.scratch.getD reg)) 0 ((BitVec.ofInt 12 next).signExtend 32)) := by
  have word := follows.tail_word listed 0 (m := .addi (s.scratch.getD reg) 0 next) (by rw [ending]; rfl) rfl
  rw [ending] at word
  exact (congrArg decode word).trans (decode_load small next)

/-- Offset 36 stores the register to `FLASH_PAGE`. -/
theorem switch (follows : Follows reg p h) (listed : h.pages[i]? = some s)
    (small : s.scratch.getD reg < 32) :
    decode (pageWord p.finalize i 9) = some (.store .sw 0 (.ofNat 5 (s.scratch.getD reg)) 0xFC) := by
  have decoded : decode (.ofNat 32 (storeWord 0b010 (s.scratch.getD reg) 0 0xFC)) =
      some (.store .sw 0 (.ofNat 5 (s.scratch.getD reg)) 0xFC) :=
    Method.decode_word (m := .sw (s.scratch.getD reg) 0 0xFC) rfl ⟨small, by omega, by omega, by omega⟩ 0
  cases ending : s.ending with
  | switchTo next =>
      have word := follows.tail_word listed 1 (m := .sw (s.scratch.getD reg) 0 0xFC) (by rw [ending]; rfl) rfl
      rw [ending] at word
      exact (congrArg decode word).trans decoded
  | switchToComputed =>
      have word := follows.tail_word listed 0 (m := .sw (s.scratch.getD reg) 0 0xFC) (by rw [ending]; rfl) rfl
      rw [ending] at word
      exact (congrArg decode word).trans decoded

/-- The words of an ended page, and how they are encoded. -/
theorem laidOut (follows : Follows reg p h) (listed : h.pages[i]? = some s)
    (small : s.scratch.getD reg < 32) (regs : ∀ m ∈ methods s.own, m.RegsInRange) :
    LaidOut p.finalize i (head i ++ s.own) s.ending (s.scratch.getD reg) := by
  obtain ⟨inside, -⟩ := List.getElem?_eq_some_iff.mp listed
  have here := List.getElem?_eq_getElem (show i < p.pages.length from follows.length.symm ▸ inside)
  have assembled := follows.pages i s _ listed here
  obtain ⟨words, packed, eleven, last, entries⟩ := assembled.entries
  have word {j w : Nat} (there : words[j]? = some w) : pageWord p.finalize i j = .ofNat 32 w :=
    follows.pageWord_eq here packed eleven there
  have load (next : Int) (ending : s.ending = .switchTo next) := follows.load listed small ending
  have switch := follows.switch listed small
  have regs := regs_code i regs
  clear listed here
  generalize head i ++ s.own = code at assembled entries regs ⊢
  have fits := assembled.fits
  have upto := length_tail s.ending reg
  refine ⟨fits, fun j m there => ?_, fun j after before => ?_, fun next is_next => ?_, ?_, ?_,
    fun j m name there targets => ?_⟩
  · obtain ⟨w, found, encodes⟩ := entries j m (own_fullCode there)
    exact ⟨w, word found, encodes⟩
  · obtain ⟨w, found, encodes⟩ := entries j .nop (nop_fullCode after before)
    rcases encodes with emits | ⟨f, k, emits, -⟩
    · cases emits
      exact word found
    · cases emits
  · exact load next is_next
  · exact switch
  · have decoded : decode (pageWord p.finalize i 10) = some (.jal 0 (-40)) := by
      rw [word last]
      exact decode_jal (by omega) (by omega) (by omega) (by omega)
    refine ⟨word last, decoded, fun regs => ?_⟩
    rw [Core.nextPcOf_eq 0xDC regs 0 decoded (by simp)]
    change ((0xDC#8).setWidth 32 + (-40#32)).setWidth 8 = 0xB4#8
    decide
  · obtain ⟨w, found, encodes⟩ := entries j m (own_fullCode there)
    rcases encodes with emits | ⟨f, k, emits, set, encoded⟩
    · rw [Method.target_of_word emits] at targets
      cases targets
    · rw [Method.target_of_fixup emits] at targets
      cases targets
      have decoded := Method.decode_fixup emits
        ((regs m (List.mem_of_getElem? there)).of_fixup emits) encoded
      have within := set.le
      refine ⟨k, by omega, set, fun x jumps => ?_⟩
      obtain ⟨pc, live⟩ := Method.instr_jumps jumps (0xB4 + 4 * k - (0xB4 + 4 * j))
        (.ofInt 8 (0xB4 + 4 * j)) 0
      have number (n : Nat) : BitVec.ofNat 8 (0xB4 + 4 * n) = .ofInt 8 (0xB4 + 4 * n) := by
        rw [← BitVec.ofInt_natCast]
        rfl
      rw [word found, number, number, Core.nextPcOf_eq _ _ 0 decoded live, pc, jump_target]

/-- A page whose code assembles by itself can be ended, if it leaves the room. -/
theorem ends (follows : Follows reg p h) (regs : ∀ m ∈ methods h.own, m.RegsInRange) {ending : Ending}
    {scratch : Option Nat} (small : scratch.getD reg < 32) (fits : (methods h.code).length ≤ ending.room)
    {own : List Nat} (assembles : p.cur.finalize = some own) :
    (p.call (ending.call scratch)).isSome = true := by
  obtain ⟨a, built, labels, called⟩ := call_ending follows.window follows.cur ending scratch
  rw [follows.scratch] at built
  rw [called, if_pos fits]
  have inner := (Asm.built_of_build follows.cur).finalize assembles
  have state := (Asm.built_of_build built).emit (.word (jalWord 0 (-40)))
  have inRange : ∀ m ∈ methods (fullCode h.code ending (scratch.getD reg)), m.RegsInRange :=
    regs_fullCode small (regs_code h.pages.length regs)
  obtain ⟨words, accepted⟩ := state.accepts fun j f here => by
    rcases Nat.lt_or_ge j (methods h.code).length with own | rest
    · obtain ⟨m, there⟩ : ∃ m, (methods h.code)[j]? = some m := ⟨_, List.getElem?_eq_getElem own⟩
      have listed : (methods (fullCode h.code ending (scratch.getD reg)))[j]? = some m := own_fullCode there
      rw [List.getElem?_append_left (by
        rw [List.length_map]; exact (List.getElem?_eq_some_iff.mp listed).1), List.getElem?_map, listed] at here
      have emits : m.emits = .fixup f := Option.some.inj here
      obtain ⟨w, -, word | ⟨f', addr, fixup, found, word⟩⟩ := inner.2 j m.emits (by
        rw [List.getElem?_map, there]
        rfl)
      · rw [word] at emits
        cases emits
      · rw [fixup] at emits
        cases emits
        exact ⟨addr, w, (congrArg _ labels).trans found, word⟩
    · rw [methods_fullCode, List.map_append, List.append_assoc,
        List.getElem?_append_right (by rwa [List.length_map])] at here
      rcases List.mem_append.mp (List.mem_of_getElem? here) with added | last
      · obtain ⟨m, member, emits⟩ := List.mem_map.mp added
        obtain ⟨w, word⟩ := word_added member
        rw [word] at emits
        cases emits
      · cases List.mem_singleton.mp last
  have short : ∀ w ∈ words, w < 2 ^ 32 := by
    intro w member
    obtain ⟨j, within, rfl⟩ := List.getElem_of_mem member
    obtain ⟨length, entries⟩ := state.finalize accepted
    obtain ⟨w, there, word⟩ := entries j _ (List.getElem?_eq_getElem (length ▸ within))
    rw [List.getElem?_eq_getElem within] at there
    cases there
    rcases List.mem_append.mp (List.getElem_mem (length ▸ within)) with mine | last
    · obtain ⟨m, here, emits⟩ := List.mem_map.mp mine
      rcases word with word | ⟨f, addr, fixup, -, word⟩
      · exact Method.word_lt (emits.trans word) (inRange m here)
      · exact Method.fixup_lt (emits.trans fixup) (inRange m here) word
    · rcases word with word | ⟨f, addr, fixup, -, word⟩
      · rw [List.mem_singleton.mp last] at word
        injection word with same
        rw [← same]
        exact jalWord_lt (by omega)
      · rw [List.mem_singleton.mp last] at fixup
        cases fixup
  rw [turnPage, accepted, Option.bind_eq_bind, Option.bind_some, wordsToBytes,
    if_pos (List.all_eq_true.mpr fun w member => by simpa using short w member)]
  rfl

end Follows

/-! ## Registers -/

/-- The registers of a call are in 0..31. -/
def Call.RegsInRange : Call → Prop
  | .page (.exec m) => m.RegsInRange
  | c => c.RegInRange

/-- The registers of a history are in 0..31, and so is the one that is used if none is named. -/
structure History.RegsInRange (reg : Nat) (h : History) : Prop where
  pages : ∀ s ∈ h.pages, (∀ m ∈ methods s.own, m.RegsInRange) ∧ s.scratch.getD reg < 32
  own : ∀ m ∈ methods h.own, m.RegsInRange

theorem getD_lt {reg : Nat} (small : reg < 32) {scratch : Option Nat}
    (named : ∀ r, scratch = some r → r < 32) : scratch.getD reg < 32 := by
  cases scratch with
  | none => exact small
  | some r => exact named r rfl

/-- The scratch register of every page is one of the 32 if the calls name no other. -/
theorem History.scratch_lt {reg : Nat} (small : reg < 32) {h : History}
    (before : ∀ s ∈ h.pages, s.scratch.getD reg < 32) {calls : List Call}
    (registers : ∀ c ∈ calls, c.RegInRange) :
    ∀ s ∈ (calls.foldl History.add h).pages, s.scratch.getD reg < 32 := by
  induction calls generalizing h with
  | nil => exact before
  | cons c calls ih =>
      refine ih (fun s member => ?_) fun c' member => registers c' (List.mem_cons_of_mem _ member)
      have named := registers c List.mem_cons_self
      cases c with
      | page c => exact before s member
      | switchTo next scratch | switchToComputed scratch | finalizeLastPage scratch =>
          rcases List.mem_append.mp member with old | new
          · exact before s old
          · rw [List.mem_singleton.mp new]
            exact getD_lt small named

namespace History.RegsInRange

variable {reg : Nat} {h : History}

theorem finish (inRange : h.RegsInRange reg) (ending : Ending) {scratch : Option Nat}
    (small : scratch.getD reg < 32) : (h.finish ending scratch).RegsInRange reg where
  pages s member := by
    rcases List.mem_append.mp member with old | new
    · exact inRange.pages s old
    · rw [List.mem_singleton.mp new]
      exact ⟨inRange.own, small⟩
  own m member := by cases member

theorem add (inRange : h.RegsInRange reg) (small : reg < 32) {c : Call} (regs : c.RegsInRange) :
    (h.add c).RegsInRange reg := by
  cases c with
  | page c =>
      refine ⟨inRange.pages, fun m member => ?_⟩
      rw [History.add, Asm.methods_append] at member
      rcases List.mem_append.mp member with old | new
      · exact inRange.own m old
      · cases c with
        | label name => cases new
        | exec m' =>
            rw [List.mem_singleton.mp new]
            exact regs
  | switchTo next scratch => exact inRange.finish _ (getD_lt small regs)
  | switchToComputed scratch => exact inRange.finish _ (getD_lt small regs)
  | finalizeLastPage scratch => exact inRange.finish _ (getD_lt small regs)

theorem fold (inRange : h.RegsInRange reg) (small : reg < 32) {calls : List Call}
    (regs : ∀ c ∈ calls, c.RegsInRange) : (calls.foldl History.add h).RegsInRange reg := by
  induction calls generalizing h with
  | nil => exact inRange
  | cons c calls ih =>
      exact ih (inRange.add small (regs c List.mem_cons_self))
        fun c' member => regs c' (List.mem_cons_of_mem _ member)

end History.RegsInRange

/-! ## The image -/

/-- How many bytes of the page a call that ends it leaves for what is on it. -/
def Call.room : Call → Option Int
  | .page _ => none
  | .switchTo _ _ | .finalizeLastPage _ => some 32
  | .switchToComputed _ => some 36

theorem Follows.ends_call {reg : Nat} {p : PagedAsm} {h : History} (follows : Follows reg p h)
    (own : ∀ m ∈ methods h.own, m.RegsInRange) (small : reg < 32) {c : Call} {room : Int}
    (ending : c.room = some room) (regs : c.RegsInRange) (fits : p.bytesUsed ≤ room) (assembles : p.cur.finalize.isSome = true) :
    (p.call c).isSome = true := by
  obtain ⟨words, assembles⟩ := Option.isSome_iff_exists.mp assembles
  have used := bytesUsed_eq (Asm.built_of_build follows.cur)
  rw [List.length_map] at used
  cases c with
  | page c => cases ending
  | switchTo next scratch =>
      cases ending
      have room : (methods h.code).length ≤ (Ending.switchTo next).room := show _ ≤ 8 by omega
      exact follows.ends own (getD_lt small regs) room assembles
  | switchToComputed scratch =>
      cases ending
      have room : (methods h.code).length ≤ Ending.switchToComputed.room := show _ ≤ 9 by omega
      exact follows.ends own (getD_lt small regs) room assembles
  | finalizeLastPage scratch =>
      cases ending
      have room : (methods h.code).length ≤ (Ending.switchTo p.curPageNum).room := show _ ≤ 8 by omega
      exact follows.ends own (getD_lt small regs) room assembles

/-- Any calls that do not raise, with registers in 0..31.  The image has 44 bytes for each page that was
ended, and every page is laid out as its calls and its ending say.  What is on the current page can be ended
if it leaves the room and assembles by itself. -/
theorem layout {reg : Nat} (small : reg < 32) {calls : List Call} (regs : ∀ c ∈ calls, c.RegsInRange)
    {p : PagedAsm} (built : (PagedAsm.default reg).build calls = some p) :
    p.finalize.length = 44 * (history calls).pages.length ∧
    (∀ i s, (history calls).pages[i]? = some s →
      LaidOut p.finalize i (head i ++ s.own) s.ending (s.scratch.getD reg)) ∧
    ∀ c room, c.room = some room → c.RegsInRange → p.bytesUsed ≤ room → p.cur.finalize.isSome = true →
      (p.call c).isSome = true := by
  have follows := (Follows.default reg).build built
  have start : History.RegsInRange reg ⟨[], []⟩ := by
    refine ⟨fun s member => ?_, fun m member => ?_⟩
    · cases member
    · cases member
  have inRange := start.fold small regs
  refine ⟨follows.image.1, fun i s listed => ?_, fun c room ending regs fits assembles =>
    follows.ends_call inRange.own small ending regs fits assembles⟩
  obtain ⟨own, named⟩ := inRange.pages s (List.mem_of_getElem? listed)
  exact follows.laidOut listed named own

/-- A countdown on page 0, and a last page. -/
def countdown : List Call :=
  [.page (.label "LOOP"), .page (.exec (.addi 5 5 (-1))), .page (.exec (.bne 5 0 "LOOP")),
    .switchTo 1 none, .finalizeLastPage (some 7)]

theorem layout_countdown : ∃ p, (PagedAsm.default 30).build countdown = some p ∧ p.finalize.length = 88 ∧
    (∃ k, k < 11 ∧ nextPcOf (pageWord p.finalize 0 2) 0xBC (fun _ => 1#32) = .ofNat 8 (0xB4 + 4 * k)) ∧
    decode (pageWord p.finalize 0 9) = some (.store .sw 0 30 0xFC) ∧
    decode (pageWord p.finalize 1 9) = some (.store .sw 0 7 0xFC) := by
  have done : ∃ p, (PagedAsm.default 30).build countdown = some p := ⟨_, rfl⟩
  obtain ⟨p, built⟩ := done
  have regs : ∀ c ∈ countdown, c.RegsInRange := by
    simp [countdown, Call.RegsInRange, Call.RegInRange, Method.RegsInRange]
  obtain ⟨length, pages, -⟩ := layout (by decide) regs built
  obtain ⟨k, inside, -, lands⟩ := (pages 0 _ rfl).jumps 2 (.bne 5 0 "LOOP") "LOOP" rfl rfl
  exact ⟨p, built, length, ⟨k, inside, lands _ rfl⟩, (pages 0 _ rfl).switch, (pages 1 _ rfl).switch⟩

end PagedAsm

end AgilA32
