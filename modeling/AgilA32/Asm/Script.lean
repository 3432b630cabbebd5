import AgilA32.Asm.PageLayout

/-!
# Scripts that build an image

A `tools/build_*.py` script is a list of statements on one `PagedAsm`.  Running it is settled page by
page: `Begins p code` says that the pages so far are the listings `code`, a page that `Accepted` admits
adds its own (`Begins.finish`), and `Builds` composes such runs.
-/

namespace AgilA32

open Asm (Built methods listing)
open Rv32i (Instr decode)

namespace PagedAsm

/-- The statements of a script. -/
inductive Statement
  | call (c : Call)
  /-- `p.switch_to(p._cur_page_num + 1)`. -/
  | switchToNext
  /-- `reserve_page(want)`. -/
  | reservePage (want : Nat)
  | assert (holds : Bool)

def Statement.run (p : PagedAsm) : Statement → Option PagedAsm
  | .call c => p.call c
  | .switchToNext => p.switchTo (p.curPageNum + 1) none
  | .reservePage want => if p.curPageNum = want then some p else none
  | .assert holds => if holds then some p else none

/-- The state after the statements, if none of them raises. -/
def run (p : PagedAsm) (script : List Statement) : Option PagedAsm := script.foldlM Statement.run p

/-- Calls on `p.page`. -/
def page (calls : List Asm.Call) : List Statement := calls.map fun c => .call (.page c)

theorem run_append (p : PagedAsm) (first second : List Statement) :
    p.run (first ++ second) = (p.run first).bind fun p' => p'.run second := by
  rw [run, List.foldlM_append]
  rfl

theorem run_cons (p : PagedAsm) (s : Statement) (script : List Statement) :
    p.run (s :: script) = (s.run p).bind fun p' => p'.run script := by
  rw [run, List.foldlM_cons]
  rfl

theorem run_page (p : PagedAsm) (calls : List Asm.Call) :
    p.run (page calls) = (p.cur.build calls).map fun cur => { p with cur := cur } := by
  induction calls generalizing p with
  | nil => rfl
  | cons c calls ih =>
      rw [page, List.map_cons, run_cons, Asm.build_cons]
      cases called : p.cur.call c with
      | none =>
          have raised : Statement.run p (.call (.page c)) = none := by
            rw [Statement.run, PagedAsm.call, called]
            rfl
          rw [raised]
          rfl
      | some cur =>
          have done : Statement.run p (.call (.page c)) = some { p with cur := cur } := by
            rw [Statement.run, PagedAsm.call, called]
            rfl
          rw [done]
          exact ih _

/-! ## The listing of a page -/

/-- How a page ends: with `switch_to`, or with `switch_to_computed`. -/
inductive Ending
  | switchTo (next : Int)
  | switchToComputed

/-- The room that is left for the calls, in instructions. -/
def Ending.room : Ending → Nat
  | .switchTo _ => 8
  | .switchToComputed => 9

/-- What stands between the padding and the reserved words. -/
def Ending.load : Ending → List Asm.Call
  | .switchTo next => [.exec (.addi 30 0 next)]
  | .switchToComputed => []

/-- The instructions between the padding and the trampoline. -/
def Ending.tail (reg : Nat) : Ending → List Asm.Call
  | .switchTo next => [.exec (.addi reg 0 next), .exec (.sw reg 0 0xFC)]
  | .switchToComputed => [.exec (.sw reg 0 0xFC)]

/-- All the calls on a page but the trampoline. -/
def fullCode (code : List Asm.Call) (ending : Ending) (reg : Nat) : List Asm.Call :=
  code ++ (List.replicate (ending.room - (methods code).length) (.exec .nop) ++ ending.tail reg)

/-- All the instruction calls of a page but the trampoline. -/
def fullPage (calls : List Asm.Call) (ending : Ending) : List Asm.Call :=
  calls ++ List.replicate (ending.room - (methods calls).length) (.exec .nop) ++ ending.load ++
    [.exec (.sw 30 0 0xFC)]

/-- The eleven instructions of a page. -/
def pageListing (calls : List Asm.Call) (ending : Ending) : List Instr :=
  listing (fullPage calls ending) ++ [.jal 0 (-40)]

/-- A page that the assembler accepts. -/
structure Accepted (calls : List Asm.Call) (ending : Ending) : Prop where
  build : ((Asm.new 0xB4).build calls).isSome = true
  fits : (methods calls).length ≤ ending.room
  inRange : ∀ m ∈ methods (calls ++ ending.load), m.InRange
  targets : ∀ m ∈ methods calls, ∀ name ∈ m.target, .label name ∈ calls

section Full

variable {calls : List Asm.Call} {ending : Ending}

theorem methods_replicate_nop (k : Nat) :
    methods (List.replicate k (.exec .nop)) = List.replicate k .nop := by
  induction k with
  | zero => rfl
  | succ k ih => rw [List.replicate_succ, List.replicate_succ, Asm.methods_exec, ih]

/-- Its calls are the caller's and what the builder adds. -/
theorem fullPage_eq (calls : List Asm.Call) (ending : Ending) :
    fullPage calls ending = fullCode calls ending 30 := by
  rw [fullPage, fullCode, List.append_assoc, List.append_assoc]
  cases ending <;> rfl

theorem methods_fullCode (code : List Asm.Call) (ending : Ending) (reg : Nat) :
    methods (fullCode code ending reg) = methods code ++
      (List.replicate (ending.room - (methods code).length) .nop ++ methods (ending.tail reg)) := by
  rw [fullCode, Asm.methods_append, Asm.methods_append, methods_replicate_nop]

theorem length_tail (ending : Ending) (reg : Nat) : ending.room + (methods (ending.tail reg)).length = 10 := by
  cases ending <;> rfl

theorem length_methods_fullCode (fits : (methods code).length ≤ ending.room) :
    (methods (fullCode code ending reg)).length = 10 := by
  have rest := length_tail ending reg
  rw [methods_fullCode, List.length_append, List.length_append, List.length_replicate]
  omega

theorem mem_fullCode {code : List Asm.Call} {reg : Nat} {m : Method}
    (member : m ∈ methods (fullCode code ending reg)) :
    m ∈ methods code ∨ m = .nop ∨ (∃ next, ending = .switchTo next ∧ m = .addi reg 0 next) ∨
      m = .sw reg 0 0xFC := by
  rw [methods_fullCode] at member
  rcases List.mem_append.mp member with own | added
  · exact .inl own
  rcases List.mem_append.mp added with nop | tail
  · exact .inr (.inl (List.eq_of_mem_replicate nop))
  cases ending with
  | switchTo next =>
      rcases List.mem_pair.mp tail with load | switch
      · exact .inr (.inr (.inl ⟨next, rfl, load⟩))
      · exact .inr (.inr (.inr switch))
  | switchToComputed => exact .inr (.inr (.inr (List.mem_singleton.mp tail)))

theorem length_fullPage (accepted : Accepted calls ending) :
    (methods (fullPage calls ending)).length = 10 := by
  rw [fullPage_eq]
  exact length_methods_fullCode accepted.fits

theorem length_pageListing (accepted : Accepted calls ending) :
    (pageListing calls ending).length = 11 := by
  simp [pageListing, listing, length_fullPage accepted]

theorem trampoline_pageListing (accepted : Accepted calls ending) :
    (pageListing calls ending)[10]? = some (.jal 0 (-40)) := by
  have ten : (listing (fullPage calls ending)).length = 10 := by
    simp [listing, length_fullPage accepted]
  rw [pageListing, List.getElem?_append_right (by omega), ten]
  rfl

theorem build_nops (a : Asm) (k : Nat) :
    a.build (List.replicate k (.exec .nop)) = some (pad k a) := by
  induction k generalizing a with
  | zero => rfl
  | succ k ih =>
      rw [List.replicate_succ, Asm.build_cons]
      exact ih _

/-- Everything on a page but the trampoline, assembled. -/
theorem build_fullPage {cur : Asm} (built : (Asm.new 0xB4).build calls = some cur) :
    (Asm.new 0xB4).build (fullPage calls ending) =
      (((pad (ending.room - (methods calls).length) cur).build ending.load).map
        fun a => a.exec (.sw 30 0 0xFC)) := by
  rw [fullPage, Asm.build_append, Asm.build_append, Asm.build_append, built, Option.bind_some,
    build_nops, Option.bind_some]
  cases ending <;> rfl

/-- A branch or jump within a page is in range. -/
theorem fixupWord_near {pc here : Int} (near : here - pc < 64) (near' : -64 < here - pc)
    (even : (here - pc) % 2 = 0) (f : Fixup) : ∃ w, Asm.fixupWord pc here f = some w := by
  cases f <;> exact ⟨_, if_pos ⟨by omega, by omega, even⟩⟩

/-- The labels that a page names are on it. -/
theorem target_mem (accepted : Accepted calls ending) {m : Method}
    (member : m ∈ methods (fullPage calls ending)) {name : String} (target : m.target = some name) :
    .label name ∈ fullPage calls ending := by
  rw [fullPage_eq] at member ⊢
  rcases mem_fullCode member with own | rfl | ⟨next, -, rfl⟩ | rfl
  · exact List.mem_append_left _ (accepted.targets m own name target)
  · cases target
  · cases target
  · cases target

theorem inRange_fullPage (accepted : Accepted calls ending) {m : Method}
    (member : m ∈ methods (fullPage calls ending)) : m.InRange := by
  have own := accepted.inRange m
  rw [Asm.methods_append, List.mem_append] at own
  rw [fullPage_eq] at member
  rcases mem_fullCode member with here | rfl | ⟨next, rfl, rfl⟩ | rfl
  · exact own (.inl here)
  · simp [Method.nop, Method.InRange]
  · exact own (.inr List.mem_cons_self)
  · simp [Method.InRange]

/-- An accepted page comes to eleven words, which decode to its listing. -/
theorem finalize_page (accepted : Accepted calls ending) {a : Asm}
    (built : (Asm.new 0xB4).build (fullPage calls ending) = some a) :
    ∃ words, (a.emit (.word (jalWord 0 (-40)))).finalize = some words ∧ words.length = 11 ∧
      (∀ w ∈ words, w < 2 ^ 32) ∧ ∀ (i : Nat) ins, (pageListing calls ending)[i]? = some ins →
        ∃ w, words[i]? = some w ∧ decode (.ofNat 32 w) = some ins := by
  have state := (Asm.built_of_build built).emit (.word (jalWord 0 (-40)))
  have ten := length_fullPage accepted
  obtain ⟨words, done⟩ := state.accepts fun i f here => by
    have within : i < 10 := by
      obtain ⟨within, last⟩ := List.getElem?_eq_some_iff.mp here
      rw [List.length_append, List.length_map, ten] at within
      rcases Nat.lt_or_ge i 10 with before | after
      · exact before
      · obtain rfl : i = 10 := by simp at within; omega
        rw [List.getElem_append_right (by simp [ten])] at last
        simp at last
    rw [List.getElem?_append_left (by rw [List.length_map]; omega), List.getElem?_map] at here
    obtain ⟨m, there, emits⟩ := Option.map_eq_some_iff.mp here
    obtain ⟨pre, post, set⟩ := List.append_of_mem
      (target_mem accepted (List.mem_of_getElem? there) (Method.target_of_fixup emits))
    have found := Asm.lookup_of_set built set
    have before : (methods pre).length ≤ 10 := by
      rw [← ten, set, Asm.methods_append, List.length_append]
      omega
    obtain ⟨w, word⟩ : ∃ w, Asm.fixupWord (0xB4 + 4 * (i : Int))
        (0xB4 + 4 * ((methods pre).length : Int)) f = some w :=
      fixupWord_near (by omega) (by omega) (by omega) f
    exact ⟨_, w, found, word⟩
  have decodes (i : Nat) (ins : Instr) (listed : (pageListing calls ending)[i]? = some ins) :
      ∃ w, words[i]? = some w ∧ w < 2 ^ 32 ∧ decode (.ofNat 32 w) = some ins := by
    have inRange (m : Method) (member : .exec m ∈ fullPage calls ending) : m.InRange :=
      inRange_fullPage accepted (Asm.mem_methods.mpr member)
    have length : (listing (fullPage calls ending)).length = 10 := by simp [listing, ten]
    rw [pageListing] at listed
    rcases Nat.lt_or_ge i 10 with before | after
    · rw [List.getElem?_append_left (by omega)] at listed
      exact Asm.listing_decodes inRange built state rfl done i listed
    · obtain ⟨within, -⟩ := List.getElem?_eq_some_iff.mp listed
      obtain rfl : i = 10 := by simp [length] at within; omega
      rw [List.getElem?_append_right (by omega), length] at listed
      cases listed
      obtain ⟨w, here, word | ⟨f, addr, fixup, -⟩⟩ :=
        (state.finalize done).2 10 (.word (jalWord 0 (-40))) (by
          rw [List.getElem?_append_right (by simp [ten])]
          simp [ten])
      · cases word
        exact ⟨_, here, by decide, decode_jal (by omega) (by omega) (by omega) (by omega)⟩
      · cases fixup
  have eleven : words.length = 11 := by
    rw [(state.finalize done).1, List.length_append, List.length_map, ten]
    rfl
  refine ⟨words, done, eleven, fun w member => ?_, fun i ins listed => ?_⟩
  · obtain ⟨i, within, rfl⟩ := List.getElem_of_mem member
    have listed := List.getElem?_eq_getElem
      (show i < (pageListing calls ending).length by rw [length_pageListing accepted]; omega)
    obtain ⟨w, here, small, -⟩ := decodes i _ listed
    rw [List.getElem?_eq_getElem within] at here
    rwa [Option.some.inj here]
  · obtain ⟨w, here, -, decoded⟩ := decodes i ins listed
    exact ⟨w, here, decoded⟩

end Full

/-! ## Pages one after the other -/

/-- The dead NOP at the start of page 0. -/
def head : Nat → List Asm.Call
  | 0 => [.exec .nop]
  | _ + 1 => []

@[simp] theorem head_succ (k : Nat) : head (k + 1) = [] := rfl

/-- The bytes of a page and its listing. -/
structure PageOf (bytes : List (BitVec 8)) (page : List Instr) : Prop where
  length : bytes.length = 44
  eleven : page.length = 11
  trampoline : page[10]? = some (.jal 0 (-40))
  decodes : ∀ i ins, page[i]? = some ins → decode (wordOf bytes (4 * i)) = some ins

/-- Page `code.length` is about to be built, and the finished ones have the listings `code`. -/
structure Begins (p : PagedAsm) (code : List (List Instr)) : Prop where
  window : Window p
  reg : p.switchScratchReg = 30
  num : p.curPageNum = code.length
  cur : (Asm.new 0xB4).build (head code.length) = some p.cur
  pages : List.Forall₂ PageOf p.pages code

theorem begins_default : Begins (PagedAsm.default 30) [] :=
  ⟨⟨rfl, rfl, rfl⟩, rfl, rfl, rfl, .nil⟩

/-- The ending that a statement gives page `k`. -/
def Statement.ending (k : Nat) : Statement → Option Ending
  | .call (.switchTo next none) => some (.switchTo next)
  | .call (.switchToComputed none) => some .switchToComputed
  | .call (.finalizeLastPage none) => some (.switchTo k)
  | .switchToNext => some (.switchTo (k + 1))
  | _ => none

section Pages

variable {p : PagedAsm} {code : List (List Instr)} {calls : List Asm.Call} {ending : Ending}

theorem pageOf_words {words : List Nat} {page : List Instr} (eleven : words.length = 11)
    (listed : page.length = 11) (trampoline : page[10]? = some (.jal 0 (-40)))
    (decodes : ∀ (i : Nat) ins, page[i]? = some ins →
      ∃ w, words[i]? = some w ∧ decode (.ofNat 32 w) = some ins) :
    PageOf (words.flatMap wordToBytes) page where
  length := by rw [(flatMap_wordToBytes words).1, eleven]
  eleven := listed
  trampoline := trampoline
  decodes i ins listed := by
    obtain ⟨w, here, decoded⟩ := decodes i ins listed
    rw [← decoded, ← ofBytes_word, wordOf]
    refine congrArg decode (Verilog.eq_of_byteAt (c := 4) rfl fun j inside => ?_)
    rw [Verilog.byteAt_ofBytes _ inside, Verilog.byteAt_ofBytes _ inside, List.getD_eq_getElem?_getD,
      (flatMap_wordToBytes words).2 i w here j inside]
    rfl

/-- A statement that ends a page pads it, loads the page number and turns to the next page. -/
theorem run_ending (window : Window p) (reg : p.switchScratchReg = 30) {es : List Emitted}
    (built : Built 0xB4 es p.cur) (fits : es.length ≤ ending.room) {s : Statement}
    (ends : s.ending p.curPageNum = some ending) {a : Asm}
    (full : ((pad (ending.room - es.length) p.cur).build ending.load).map
      (fun b => b.exec (.sw 30 0 0xFC)) = some a) :
    s.run p = p.turnPage (a.emit (.word (jalWord 0 (-40)))) := by
  have constant (next : Int) (is_next : ending = .switchTo next) :
      p.switchTo next none = p.turnPage (a.emit (.word (jalWord 0 (-40)))) := by
    subst is_next
    cases full
    rw [switchTo_eq window built, if_pos (show es.length ≤ 8 from fits), Option.getD_none, reg]
    rfl
  match s, ends with
  | .call (.switchTo next none), rfl => exact constant next rfl
  | .call (.finalizeLastPage none), rfl => exact constant _ rfl
  | .switchToNext, rfl => exact constant _ rfl
  | .call (.switchToComputed none), rfl =>
      cases full
      refine (switchToComputed_eq window built none).trans ?_
      rw [if_pos (show es.length ≤ 9 from fits), Option.getD_none, reg]
      rfl

/-- A page that is accepted gets built. -/
theorem Begins.finish (begins : Begins p code)
    (accepted : Accepted (head code.length ++ calls) ending) {s : Statement}
    (ends : s.ending code.length = some ending) :
    ∃ p', p.run (page calls ++ [s]) = some p' ∧
      Begins p' (code ++ [pageListing (head code.length ++ calls) ending]) := by
  obtain ⟨cur, built⟩ := Option.isSome_iff_exists.mp accepted.build
  have called : p.cur.build calls = some cur := by
    have all := built
    rwa [Asm.build_append, begins.cur] at all
  obtain ⟨a, full⟩ : ∃ a, (Asm.new 0xB4).build (fullPage (head code.length ++ calls) ending) = some a := by
    rw [build_fullPage built]
    cases ending <;> exact ⟨_, rfl⟩
  obtain ⟨words, done, eleven, small, decodes⟩ := finalize_page accepted full
  have state := Asm.built_of_build built
  have turned : s.run { p with cur := cur } = some { p with
      pages := p.pages ++ [words.flatMap wordToBytes], curPageNum := p.curPageNum + 1
      cur := Asm.new p.loadBase } := by
    have ending_run := run_ending (p := { p with cur := cur }) (s := s) (a := a)
      ⟨begins.window.loadBase, begins.window.windowBytes, begins.window.flashPageAddr⟩ begins.reg state
      (by rw [List.length_map]; exact accepted.fits) (begins.num ▸ ends) (by
        rw [List.length_map, ← full, build_fullPage built])
    rw [ending_run, turnPage, done, Option.bind_eq_bind, Option.bind_some, wordsToBytes,
      if_pos (List.all_eq_true.mpr fun w member => by simpa using small w member)]
    rfl
  have finished : p.run (page calls ++ [s]) = some { p with
      pages := p.pages ++ [words.flatMap wordToBytes], curPageNum := p.curPageNum + 1
      cur := Asm.new p.loadBase } := by
    rw [run_append, run_page, called, Option.map_some, Option.bind_some, run_cons, turned]
    rfl
  refine ⟨_, finished, ⟨begins.window.loadBase, begins.window.windowBytes,
    begins.window.flashPageAddr⟩, begins.reg, ?_, ?_, ?_⟩
  · rw [List.length_append]
    exact congrArg (· + 1) begins.num
  · rw [List.length_append, begins.window.loadBase]
    rfl
  · exact List.rel_append begins.pages
      (.cons (pageOf_words eleven (length_pageListing accepted) (trampoline_pageListing accepted)
        decodes) .nil)

end Pages

/-! ## Whole scripts -/

/-- The script, run when page `k` is about to be built, builds pages with the listings `more`. -/
def Builds (script : List Statement) (k : Nat) (more : List (List Instr)) : Prop :=
  ∀ p code, code.length = k → Begins p code → ∃ p', p.run script = some p' ∧ Begins p' (code ++ more)

namespace Builds

variable {first second : List Statement} {k : Nat} {more more' : List (List Instr)}

theorem append (builds : Builds first k more) (builds' : Builds second (k + more.length) more') :
    Builds (first ++ second) k (more ++ more') := by
  intro p code length begins
  obtain ⟨p', run, begins'⟩ := builds p code length begins
  obtain ⟨p'', run', begins''⟩ := builds' p' _ (by rw [List.length_append, length]) begins'
  refine ⟨p'', ?_, List.append_assoc code more more' ▸ begins''⟩
  rw [run_append, run, Option.bind_some, run']

/-- A script that does the same builds the same. -/
theorem congr (same : ∀ p : PagedAsm, p.run second = p.run first) (builds : Builds first k more) :
    Builds second k more := by
  intro p code length begins
  rw [same]
  exact builds p code length begins

theorem nil : Builds [] k [] := fun p code _ begins => ⟨p, rfl, (List.append_nil code).symm ▸ begins⟩

theorem page {calls : List Asm.Call} (ending : Ending) {s : Statement}
    (accepted : Accepted (head k ++ calls) ending) (ends : s.ending k = some ending) :
    Builds (PagedAsm.page calls ++ [s]) k [pageListing (head k ++ calls) ending] := by
  intro p code length begins
  subst length
  exact begins.finish accepted ends

theorem reservePage (builds : Builds second k more) :
    Builds (.reservePage k :: second) k more := by
  intro p code length begins
  obtain ⟨p', run, begins'⟩ := builds p code length begins
  refine ⟨p', ?_, begins'⟩
  have here : p.curPageNum = k := begins.num.trans length
  rw [run_cons, Statement.run, if_pos here, Option.bind_some, run]

/-- A loop, each round of which builds `m` pages. -/
theorem loop (body : Nat → List Statement) (pages : Nat → List (List Instr)) {m n : Nat}
    (round : ∀ i, i < n → Builds (body i) (k + m * i) (pages i))
    (uniform : ∀ i, (pages i).length = m) :
    Builds ((List.range n).flatMap body) k ((List.range n).flatMap pages) := by
  induction n with
  | zero => exact nil
  | succ n ih =>
      rw [List.range_succ, List.flatMap_append, List.flatMap_append, List.flatMap_singleton,
        List.flatMap_singleton]
      have length : ((List.range n).flatMap pages).length = m * n := by
        rw [List.length_flatMap, List.map_congr_left fun i _ => uniform i]
        simp [mul_comm]
      refine (ih fun i before => round i (by omega)).append ?_
      rw [length]
      exact round n (by omega)

end Builds

/-- An image and its listing. -/
structure Lists (image : List (BitVec 8)) (code : List (List Instr)) : Prop where
  length : image.length = 44 * code.length
  eleven : ∀ page ∈ code, page.length = 11
  trampoline : ∀ page ∈ code, page[10]? = some (.jal 0 (-40))
  decodes : ∀ (k i : Nat) page ins, code[k]? = some page → page[i]? = some ins →
    decode (wordOf image (44 * k + 4 * i)) = some ins

/-- The flash image that a script writes. -/
def image (script : List Statement) : Option (List (BitVec 8)) :=
  ((PagedAsm.default 30).run script).map PagedAsm.finalize

theorem Builds.image {script : List Statement} {code : List (List Instr)}
    (builds : Builds script 0 code) :
    ∃ bytes, PagedAsm.image script = some bytes ∧ Lists bytes code := by
  obtain ⟨p, run, begins⟩ := builds _ [] rfl begins_default
  rw [List.nil_append] at begins
  obtain ⟨length, content⟩ := flatten_uniform p.pages fun bytes member => by
    obtain ⟨i, within, rfl⟩ := List.getElem_of_mem member
    exact ((List.forall₂_iff_get.mp begins.pages).2 i within
      (begins.pages.length_eq ▸ within)).length
  have pageOf (page : List Instr) (member : page ∈ code) : ∃ bytes, PageOf bytes page := by
    obtain ⟨i, within, rfl⟩ := List.getElem_of_mem member
    exact ⟨_, (List.forall₂_iff_get.mp begins.pages).2 i (begins.pages.length_eq ▸ within) within⟩
  refine ⟨p.finalize, by rw [PagedAsm.image, run]; rfl, ?_, fun page member => ?_,
    fun page member => ?_, fun k i page ins here listed => ?_⟩
  · rw [PagedAsm.finalize, length, begins.pages.length_eq]
  · obtain ⟨bytes, page_of⟩ := pageOf page member
    exact page_of.eleven
  · obtain ⟨bytes, page_of⟩ := pageOf page member
    exact page_of.trampoline
  · obtain ⟨within, rfl⟩ := List.getElem?_eq_some_iff.mp here
    have inside : k < p.pages.length := begins.pages.length_eq ▸ within
    have page_of := (List.forall₂_iff_get.mp begins.pages).2 k inside within
    have eleven : code[k].length = 11 := page_of.eleven
    obtain ⟨before, -⟩ := List.getElem?_eq_some_iff.mp listed
    rw [← page_of.decodes i ins listed, wordOf, wordOf]
    refine congrArg decode (Verilog.eq_of_byteAt (c := 4) rfl fun j small => ?_)
    rw [Verilog.byteAt_ofBytes _ small, Verilog.byteAt_ofBytes _ small, List.getD_eq_getElem?_getD,
      List.getD_eq_getElem?_getD, Nat.add_assoc, PagedAsm.finalize,
      content k _ (List.getElem?_eq_getElem inside) _ (by omega)]
    rfl

end PagedAsm

end AgilA32
