import AgilA32.Asm.Script
import AgilA32.Clocked.Run
import AgilA32.Core.Refine

/-!
# The paged machine

What a flash program sees of the design: RV32I instructions from a 44-byte window onto the page that
`FLASH_PAGE` shows, `GPIO_IN` to poll, and `GPIO_OUT` and `FLASH_PAGE` to write.  A program that does
anything else, or leaves its image, is stuck (`step`).
Its runs are walked page by page: a poll, a branch, a straight line (`leads_line`), and the switch to
another page (`leads_turn`).
-/

namespace AgilA32

namespace Paged

open AgilA32.Core (hart readReg writeReg)
open Rv32i (Instr decode)

structure State where
  page : BitVec 8
  pc : BitVec 8
  x : RegFile

/-- The instruction at the program counter, if that is in the window and in the image. -/
def fetch (image : List (BitVec 8)) (s : State) : Option Instr :=
  let n := 44 * s.page.toNat + (s.pc.toNat - 0xB4)
  if 0xB4 ≤ s.pc.toNat ∧ s.pc.toNat ≤ 0xDF ∧ n + 4 ≤ image.length then decode (wordOf image n)
  else none

/-- What an instruction does beside computing. -/
inductive Action
  | plain
  | poll
  | write (led : BitVec 8)
  | turn (page : BitVec 8)
  | stuck
  deriving DecidableEq, Repr

def action (i : Instr) (s : State) : Action :=
  match i.memReq (hart s.pc s.x) with
  | none => if i = .ebreak then .stuck else .plain
  | some (.load _ addr) => if addr.setWidth 8 = 0xF4#8 then .poll else .stuck
  | some (.store _ addr data) =>
      if addr.setWidth 8 = 0xF0#8 then .write (data.setWidth 8)
      else if addr.setWidth 8 = 0xFC#8 then .turn (data.setWidth 8)
      else .stuck

/-- The state after an instruction; `v` is what `GPIO_IN` shows. -/
def exec (i : Instr) (s : State) (v : BitVec 8) : Option State :=
  let after := i.exec (hart s.pc s.x) (v.setWidth 32)
  match action i s with
  | .stuck => none
  | .turn page => some { page := page, pc := after.pc.setWidth 8, x := after.x }
  | _ => some { s with pc := after.pc.setWidth 8, x := after.x }

def step (image : List (BitVec 8)) (s : Option State) (v : BitVec 8) : Option State :=
  s.bind fun s => (fetch image s).bind fun i => exec i s v

/-- What the next instruction does. -/
def doing (image : List (BitVec 8)) (s : Option State) : Option Action :=
  s.bind fun s => (fetch image s).map fun i => action i s

/-- The value that `GPIO_IN` returns to a poll. -/
def polled (image : List (BitVec 8)) (s : Option State) (v : BitVec 8) : Option (BitVec 8) :=
  if doing image s = some .poll then some v else none

/-- The value that is written to `GPIO_OUT`. -/
def written (image : List (BitVec 8)) (s : Option State) (_ : BitVec 8) : Option (BitVec 8) :=
  match doing image s with
  | some (.write led) => some led
  | _ => none

/-! ## Stretches of a run -/

/-- What a stretch polls and writes, and the marks it passes. -/
structure Log where
  polls : List (BitVec 8)
  writes : List (BitVec 8)
  marks : List (BitVec 32)

namespace Log

def empty : Log := ⟨[], [], []⟩

/-- A stretch that only writes. -/
def ofWrites (ws : List (BitVec 8)) : Log := ⟨[], ws, []⟩

instance : Append Log := ⟨fun l l' => ⟨l.polls ++ l'.polls, l.writes ++ l'.writes, l.marks ++ l'.marks⟩⟩

@[simp] theorem append_polls (l l' : Log) : (l ++ l').polls = l.polls ++ l'.polls := rfl
@[simp] theorem append_writes (l l' : Log) : (l ++ l').writes = l.writes ++ l'.writes := rfl
@[simp] theorem append_marks (l l' : Log) : (l ++ l').marks = l.marks ++ l'.marks := rfl
@[simp] theorem empty_append (l : Log) : empty ++ l = l := rfl

@[simp] theorem append_empty (l : Log) : l ++ empty = l := by
  change Log.mk _ _ _ = l
  simp [empty]

@[simp] theorem ofWrites_append (ws ws' : List (BitVec 8)) :
    ofWrites ws ++ ofWrites ws' = ofWrites (ws ++ ws') := rfl

end Log

/-- A mark that a state may bear. -/
def marked (mark : State → Option (BitVec 32)) (s : Option State) (_ : BitVec 8) :
    Option (BitVec 32) :=
  s.bind mark

/-- From step `m` to step `m'` the run does what the log says, and leads to the state `s`. -/
structure Leads {image : List (BitVec 8)} (r : Clocked.Run (step image))
    (mark : State → Option (BitVec 32)) (m m' : Nat) (s : State) (log : Log) : Prop where
  upto : m ≤ m'
  reached : r.state m' = some s
  polls : r.observe (polled image) m (m' - m) = log.polls
  writes : r.observe (written image) m (m' - m) = log.writes
  marks : r.observe (marked mark) m (m' - m) = log.marks

section Runs

variable {image : List (BitVec 8)} {r : Clocked.Run (step image)} {mark : State → Option (BitVec 32)}
  {m m' m'' : Nat} {s s' : State} {log log' : Log}

theorem Leads.refl (here : r.state m = some s) : Leads r mark m m s .empty where
  upto := le_rfl
  reached := here
  polls := by rw [Nat.sub_self]; rfl
  writes := by rw [Nat.sub_self]; rfl
  marks := by rw [Nat.sub_self]; rfl

theorem Leads.trans (first : Leads r mark m m' s log) (second : Leads r mark m' m'' s' log') :
    Leads r mark m m'' s' (log ++ log') where
  upto := first.upto.trans second.upto
  reached := second.reached
  polls := by rw [r.observe_cut _ first.upto second.upto, first.polls, second.polls]; rfl
  writes := by rw [r.observe_cut _ first.upto second.upto, first.writes, second.writes]; rfl
  marks := by rw [r.observe_cut _ first.upto second.upto, first.marks, second.marks]; rfl

/-- A machine that is not stuck never was. -/
theorem isSome_before (later : (r.state m').isSome = true) (upto : m ≤ m') :
    (r.state m).isSome = true := by
  by_contra stuck
  have still := r.invariant (P := fun s => s = none) (Option.not_isSome_iff_eq_none.mp stuck)
    (fun s _ none => by rw [none]; rfl) m' upto
  rw [still] at later
  cases later

/-- One instruction is a step of the machine, with the poll, the write or the mark that it makes. -/
theorem Leads.one (mark : State → Option (BitVec 32)) (here : r.state m = some s) {i : Instr}
    (fetched : fetch image s = some i) (done : exec i s (r.input m) = some s') :
    Leads r mark m (m + 1) s'
      { polls := if action i s = .poll then [r.input m] else []
        writes := match action i s with
          | .write led => [led]
          | _ => []
        marks := (mark s).toList } where
  upto := Nat.le_succ m
  reached := by
    rw [r.edge, here, step, Option.bind_some, fetched]
    exact done
  polls := by
    rw [Nat.add_sub_cancel_left, r.observe_one, here, polled, doing, Option.bind_some, fetched]
    simp only [Option.map_some, Option.some.injEq]
    split <;> rfl
  writes := by
    rw [Nat.add_sub_cancel_left, r.observe_one, here, written, doing, Option.bind_some, fetched,
      Option.map_some]
    cases action i s <;> rfl
  marks := by
    rw [Nat.add_sub_cancel_left, r.observe_one, here]
    rfl

/-- What holds at one poll and, from each poll, at the next holds at all of them; and there always is
another one. -/
theorem of_polls {P : Nat → Prop} (start : P m) (silent : r.observe (polled image) 0 m = [])
    (polls : ∀ n, P n → doing image (r.state n) = some .poll)
    (next : ∀ n, P n → ∃ n' s log, Leads r mark n n' s log ∧ log.polls.length = 1 ∧ P n') :
    (∀ n, (r.state n).isSome = true) ∧ (∀ n, ∃ n', n ≤ n' ∧ P n') ∧
      ∀ n, doing image (r.state n) = some .poll → P n := by
  have around (n : Nat) (after : m ≤ n) : ∃ a n' s log, a ≤ n ∧ n < n' ∧ P a ∧ P n' ∧
      Leads r mark a n' s log ∧ log.polls.length = 1 := by
    have ahead (a : Nat) (here : P a) : ∃ n' s log, a < n' ∧ P n' ∧ Leads r mark a n' s log ∧
        log.polls.length = 1 := by
      obtain ⟨n', s, log, leads, one, there⟩ := next a here
      refine ⟨n', s, log, Nat.lt_of_le_of_ne leads.upto ?_, there, leads, one⟩
      rintro rfl
      rw [← leads.polls, Nat.sub_self] at one
      cases one
    induction n, after using Nat.le_induction with
    | base =>
        obtain ⟨n', s, log, later, there, leads, one⟩ := ahead m start
        exact ⟨m, n', s, log, le_rfl, later, start, there, leads, one⟩
    | succ n _ ih =>
        obtain ⟨a, n', s, log, before, later, here, there, leads, one⟩ := ih
        rcases Nat.lt_or_ge (n + 1) n' with inside | reached
        · exact ⟨a, n', s, log, by omega, inside, here, there, leads, one⟩
        · obtain rfl : n' = n + 1 := by omega
          obtain ⟨n'', s', log', later', there', leads', one'⟩ := ahead (n + 1) there
          exact ⟨n + 1, n'', s', log', le_rfl, later', there, there', leads', one'⟩
  have seen (n : Nat) (polling : doing image (r.state n) = some .poll) :
      polled image (r.state n) (r.input n) = some (r.input n) := if_pos polling
  refine ⟨fun n => ?_, fun n => ?_, fun n polling => ?_⟩
  · obtain ⟨a, n', s, log, -, later, -, -, leads, -⟩ := around (max m n) (le_max_left ..)
    exact isSome_before (by rw [leads.reached]; rfl) (show n ≤ n' by omega)
  · obtain ⟨a, n', s, log, -, later, -, there, -⟩ := around (max m n) (le_max_left ..)
    exact ⟨n', by omega, there⟩
  · rcases Nat.lt_or_ge n m with early | after
    · have hit := (r.mem_observe (polled image) (a := 0) (n := m)).mpr
        ⟨n, Nat.zero_le n, by omega, seen n polling⟩
      rw [silent] at hit
      cases hit
    · obtain ⟨a, n', s, log, before, later, here, -, leads, one⟩ := around n after
      rcases Nat.eq_or_lt_of_le before with rfl | inside
      · exact here
      · rw [← leads.polls] at one
        have none := r.observe_eq_singleton (polled image) one le_rfl (by omega)
          (seen a (polls a here)) inside.le (by omega) inside.ne'
        rw [seen n polling] at none
        cases none

end Runs

/-! ## Code on pages -/

/-- The state at slot `k` of a page. -/
def onPage (page : BitVec 8) (k : Nat) (x : RegFile) : State := ⟨page, .ofNat 8 (0xB4 + 4 * k), x⟩

/-- The slot that a jump from slot `k` leads to. -/
def jump (k : Nat) (off : BitVec 32) : Nat := (4 * k + off.toNat) % 256 / 4

/-- The end of a straight line: the slot, or the page that is switched to. -/
structure Line where
  slot : Nat
  turned : Option (BitVec 8)
  x : RegFile
  writes : List (BitVec 8)

/-- At most `n` instructions of a page from slot `k` on, none of which polls, branches or jumps back.  A
store to `FLASH_PAGE` is the last one. -/
def line (page : List Instr) : Nat → Nat → RegFile → Option Line
  | 0, k, x => some ⟨k, none, x, []⟩
  | n + 1, k, x => page[k]?.bind fun
      | .aluImm op rd rs1 imm => line page n (k + 1) (writeReg x rd (op.eval (readReg x rs1) imm))
      | .alu op rd rs1 rs2 =>
          line page n (k + 1) (writeReg x rd (op.eval (readReg x rs1) (readReg x rs2)))
      | .jal rd off =>
          if rd = 0 ∧ off.toNat % 4 = 0 ∧ k < jump k off then line page n (jump k off) x else none
      | .store _ rs1 rs2 off =>
          if rs1 = 0 then
            if off = 0xF0 then
              (line page n (k + 1) x).map fun l =>
                { l with writes := (readReg x rs2).setWidth 8 :: l.writes }
            else if off = 0xFC then
              some ⟨k + 1, some ((readReg x rs2).setWidth 8), x, []⟩
            else none
          else none
      | _ => none

/-- Where a line leads. -/
def Line.state (l : Line) (page : BitVec 8) : State := onPage (l.turned.getD page) l.slot l.x

section Pages

variable {image : List (BitVec 8)} {code : List (List Instr)} (lists : PagedAsm.Lists image code)
  {r : Clocked.Run (step image)} {mark : State → Option (BitVec 32)} {m : Nat} {page : BitVec 8}
  {listing : List Instr} (held : code[page.toNat]? = some listing) {k : Nat} {x : RegFile}

theorem jump_target {off : BitVec 32} (aligned : off.toNat % 4 = 0) :
    (((hart (.ofNat 8 (0xB4 + 4 * k)) x).pc + off).setWidth 8) = .ofNat 8 (0xB4 + 4 * jump k off) := by
  refine BitVec.eq_of_toNat_eq ?_
  simp [jump]
  omega

theorem next_slot : ((hart (.ofNat 8 (0xB4 + 4 * k)) x).pc + 4).setWidth 8 =
    .ofNat 8 (0xB4 + 4 * (k + 1)) := by
  refine BitVec.eq_of_toNat_eq ?_
  simp
  omega

include lists held

theorem fetch_onPage {i : Instr} (listed : listing[k]? = some i) :
    fetch image (onPage page k x) = some i := by
  have within := (List.getElem?_eq_some_iff.mp held).1
  have inside := (List.getElem?_eq_some_iff.mp listed).1
  rw [lists.eleven _ (List.mem_of_getElem? held)] at inside
  have pc : (onPage page k x).pc.toNat = 0xB4 + 4 * k := by
    rw [onPage, BitVec.toNat_ofNat]
    omega
  have length := lists.length
  rw [fetch, pc, Nat.add_sub_cancel_left]
  refine (if_pos ⟨by omega, by omega, ?_⟩).trans (lists.decodes _ _ _ _ held listed)
  change 44 * page.toNat + 4 * k + 4 ≤ _
  omega

/-- `LBU rd, 0xF4(x0)` polls the pins once, loads them into `rd` and goes on to the next slot. -/
theorem leads_poll (here : r.state m = some (onPage page k x)) {rd : BitVec 5}
    (listed : listing[k]? = some (.load .lbu rd 0 0xF4)) (quiet : mark (onPage page k x) = none) :
    Leads r mark m (m + 1) (onPage page (k + 1) (writeReg x rd ((r.input m).setWidth 32)))
      { polls := [r.input m], writes := [], marks := [] } := by
  have poll : action (.load .lbu rd 0 0xF4) (onPage page k x) = .poll := rfl
  have done : exec (.load .lbu rd 0 0xF4) (onPage page k x) (r.input m) =
      some (onPage page (k + 1) (writeReg x rd ((r.input m).setWidth 32))) := by
    rw [exec, poll]
    simp only [onPage, Instr.exec, Rv32i.Hart.goto_pc, Rv32i.Hart.goto_x, next_slot,
      Core.hart_set_x]
    simp [Rv32i.LoadOp.extend]
  have one := Leads.one mark here (fetch_onPage lists held listed) done
  rwa [poll, quiet] at one

/-- A branch goes to the slot that its offset names if its condition holds, else to the next one; the
registers stay as they are. -/
theorem leads_branch (mark : State → Option (BitVec 32)) (here : r.state m = some (onPage page k x))
    {op : Rv32i.BranchOp}
    {rs1 rs2 : BitVec 5} {off : BitVec 32} (listed : listing[k]? = some (.branch op rs1 rs2 off))
    (aligned : off.toNat % 4 = 0) {k' : Nat} (target : jump k off = k') :
    Leads r mark m (m + 1)
      (onPage page (if op.taken (readReg x rs1) (readReg x rs2) then k' else k + 1) x)
      { polls := [], writes := [], marks := (mark (onPage page k x)).toList } := by
  subst target
  have plain : action (.branch op rs1 rs2 off) (onPage page k x) = .plain := rfl
  have done : exec (.branch op rs1 rs2 off) (onPage page k x) (r.input m) = some (onPage page
      (if op.taken (readReg x rs1) (readReg x rs2) then jump k off else k + 1) x) := by
    rw [exec, plain]
    change some (State.mk page (BitVec.setWidth 8 (if op.taken (readReg x rs1)
      (readReg x rs2) then (hart (.ofNat 8 (0xB4 + 4 * k)) x).pc + off
      else (hart (.ofNat 8 (0xB4 + 4 * k)) x).pc + 4)) x) = _
    split
    · rw [jump_target aligned]
      rfl
    · rw [next_slot]
      rfl
  have one := Leads.one mark here (fetch_onPage lists held listed) done
  rwa [plain] at one

/-- An instruction with an immediate computes its result into `rd` and goes on to the next slot. -/
theorem leads_aluImm (mark : State → Option (BitVec 32)) (here : r.state m = some (onPage page k x))
    {op : Rv32i.AluOp} {rd rs1 : BitVec 5} {imm : BitVec 32}
    (listed : listing[k]? = some (.aluImm op rd rs1 imm)) :
    Leads r mark m (m + 1) (onPage page (k + 1) (writeReg x rd (op.eval (readReg x rs1) imm)))
      { polls := [], writes := [], marks := (mark (onPage page k x)).toList } := by
  have plain : action (.aluImm op rd rs1 imm) (onPage page k x) = .plain := rfl
  have done : exec (.aluImm op rd rs1 imm) (onPage page k x) (r.input m) =
      some (onPage page (k + 1) (writeReg x rd (op.eval (readReg x rs1) imm))) := by
    rw [exec, plain]
    change some (State.mk page (((hart (.ofNat 8 (0xB4 + 4 * k)) x).pc + 4).setWidth 8)
      (((hart (.ofNat 8 (0xB4 + 4 * k)) x).set rd _).x)) = _
    rw [next_slot, Core.hart_set_x]
    rfl
  have one := Leads.one mark here (fetch_onPage lists held listed) done
  rwa [plain] at one

/-- `JAL x0` goes to the slot that its offset names and changes nothing else. -/
theorem leads_jump (here : r.state m = some (onPage page k x)) {off : BitVec 32}
    (listed : listing[k]? = some (.jal 0 off)) (aligned : off.toNat % 4 = 0)
    (quiet : mark (onPage page k x) = none) {k' : Nat} (target : jump k off = k') :
    Leads r mark m (m + 1) (onPage page k' x) .empty := by
  subst target
  have plain : action (.jal 0 off) (onPage page k x) = .plain := rfl
  have done : exec (.jal 0 off) (onPage page k x) (r.input m) = some (onPage page (jump k off) x) := by
    rw [exec, plain]
    change some (State.mk page (((hart (.ofNat 8 (0xB4 + 4 * k)) x).pc + off).setWidth 8) x) = _
    rw [jump_target aligned]
    rfl
  have one := Leads.one mark here (fetch_onPage lists held listed) done
  rwa [plain, quiet] at one

/-- A straight line gets to where `line` says in at most as many steps as it has instructions, with the
writes that `line` collects. -/
theorem leads_within {n : Nat} {l : Line} (here : r.state m = some (onPage page k x))
    (runs : line listing n k x = some l)
    (quiet : ∀ j y, k ≤ j → j ≤ 10 → mark (onPage page j y) = none) :
    ∃ m', m' ≤ m + n ∧ Leads r mark m m' (l.state page) (.ofWrites l.writes) := by
  induction n generalizing k x m l with
  | zero =>
      cases runs
      exact ⟨m, le_rfl, Leads.refl here⟩
  | succ n ih =>
      obtain ⟨i, listed, runs⟩ := Option.bind_eq_some_iff.mp runs
      have fetched := fetch_onPage lists held (x := x) listed
      have inside := (List.getElem?_eq_some_iff.mp listed).1
      rw [lists.eleven _ (List.mem_of_getElem? held)] at inside
      have unmarked : mark (onPage page k x) = none := quiet k x le_rfl (by omega)
      have computes (y : RegFile) (j : Nat) (plain : action i (onPage page k x) = .plain)
          (target : ∀ v, (i.exec (hart (onPage page k x).pc x) v).pc.setWidth 8 =
            .ofNat 8 (0xB4 + 4 * j))
          (result : ∀ v, (i.exec (hart (onPage page k x).pc x) v).x = y) (after : k ≤ j)
          (rest : line listing n j y = some l) :
          ∃ m', m' ≤ m + (n + 1) ∧ Leads r mark m m' (l.state page) (.ofWrites l.writes) := by
        have done : exec i (onPage page k x) (r.input m) = some (onPage page j y) := by
          rw [exec, plain]
          change some (State.mk page ((i.exec (hart (onPage page k x).pc x) _).pc.setWidth 8)
            (i.exec (hart (onPage page k x).pc x) _).x) = _
          rw [target, result]
          rfl
        have one := Leads.one mark here fetched done
        rw [plain, unmarked] at one
        obtain ⟨m', soon, leads⟩ := ih one.reached rest fun j' y' later => quiet j' y' (after.trans later)
        exact ⟨m', by omega, one.trans leads⟩
      cases i with
      | aluImm op rd rs1 imm =>
          exact computes _ (k + 1) rfl (fun _ => next_slot) (fun _ => Core.hart_set_x _ _ _ _)
            (by omega) runs
      | alu op rd rs1 rs2 =>
          exact computes _ (k + 1) rfl (fun _ => next_slot) (fun _ => Core.hart_set_x _ _ _ _)
            (by omega) runs
      | jal rd off =>
          obtain ⟨⟨rfl, aligned, ahead⟩, rest⟩ := Option.ite_none_right_eq_some.mp runs
          exact computes x (jump k off) rfl (fun _ => jump_target aligned) (fun _ => rfl) ahead.le rest
      | store op rs1 rs2 off =>
          obtain ⟨rfl, runs⟩ := Option.ite_none_right_eq_some.mp runs
          by_cases led : off = 0xF0
          · subst led
            obtain ⟨l', rest, rfl⟩ := Option.map_eq_some_iff.mp ((if_pos rfl).symm.trans runs)
            have write : action (.store op 0 rs2 0xF0) (onPage page k x) =
                .write ((readReg x rs2).setWidth 8) := rfl
            have done : exec (.store op 0 rs2 0xF0) (onPage page k x) (r.input m) =
                some (onPage page (k + 1) x) := by
              rw [exec, write]
              exact congrArg (fun pc => some (State.mk page pc x)) next_slot
            have one := Leads.one mark here fetched done
            rw [write, unmarked] at one
            obtain ⟨m', soon, leads⟩ := ih one.reached rest fun j y later => quiet j y (by omega)
            exact ⟨m', by omega, one.trans leads⟩
          · obtain ⟨rfl, runs⟩ :=
              Option.ite_none_right_eq_some.mp ((if_neg led).symm.trans runs)
            cases runs
            have turn : action (.store op 0 rs2 0xFC) (onPage page k x) =
                .turn ((readReg x rs2).setWidth 8) := rfl
            have done : exec (.store op 0 rs2 0xFC) (onPage page k x) (r.input m) =
                some (onPage ((readReg x rs2).setWidth 8) (k + 1) x) := by
              rw [exec, turn]
              exact congrArg (fun pc => some (State.mk _ pc x)) next_slot
            have one := Leads.one mark here fetched done
            rw [turn, unmarked] at one
            exact ⟨m + 1, by omega, one⟩
      | _ => cases runs

/-- A straight line gets to where `line` says, with the writes that `line` collects. -/
theorem leads_line {n : Nat} {l : Line} (here : r.state m = some (onPage page k x))
    (runs : line listing n k x = some l)
    (quiet : ∀ j y, k ≤ j → j ≤ 10 → mark (onPage page j y) = none) :
    ∃ m', Leads r mark m m' (l.state page) (.ofWrites l.writes) := by
  obtain ⟨m', -, leads⟩ := leads_within lists held here runs quiet
  exact ⟨m', leads⟩

/-- A straight line without a switch ends on the page it began on. -/
theorem leads_straight {n j : Nat} {y : RegFile} {w : List (BitVec 8)}
    (here : r.state m = some (onPage page k x)) (runs : line listing n k x = some ⟨j, none, y, w⟩)
    (quiet : ∀ j y, k ≤ j → j ≤ 10 → mark (onPage page j y) = none) :
    ∃ m', Leads r mark m m' (onPage page j y) (.ofWrites w) :=
  leads_line lists held here runs quiet

/-- A line up to a switch, and the trampoline of the page that is switched to, lead to that page's start
within one step more than the line takes. -/
theorem leads_turn_within {n : Nat} {next : BitVec 8} {y : RegFile} {ws : List (BitVec 8)}
    (here : r.state m = some (onPage page k x))
    (runs : line listing n k x = some ⟨10, some next, y, ws⟩)
    (quiet : ∀ j y, k ≤ j → j ≤ 10 → mark (onPage page j y) = none)
    (exists_ : next.toNat < code.length) (quiet' : mark (onPage next 10 y) = none) :
    ∃ m', m' ≤ m + n + 1 ∧ Leads r mark m m' (onPage next 0 y) (.ofWrites ws) := by
  obtain ⟨m', soon, leads⟩ := leads_within lists held here runs quiet
  have held' := List.getElem?_eq_getElem exists_
  have jumps := leads_jump lists held' leads.reached
    (lists.trampoline _ (List.getElem_mem exists_)) (by decide) quiet' (show jump 10 (-40) = 0 from rfl)
  have both := leads.trans jumps
  rw [Log.append_empty] at both
  exact ⟨m' + 1, Nat.succ_le_succ soon, both⟩

/-- A line up to a switch, and the trampoline of the page that is switched to, lead to that page's start. -/
theorem leads_turn {n : Nat} {next : BitVec 8} {y : RegFile} {ws : List (BitVec 8)}
    (here : r.state m = some (onPage page k x))
    (runs : line listing n k x = some ⟨10, some next, y, ws⟩)
    (quiet : ∀ j y, k ≤ j → j ≤ 10 → mark (onPage page j y) = none)
    (exists_ : next.toNat < code.length) (quiet' : mark (onPage next 10 y) = none) :
    ∃ m', Leads r mark m m' (onPage next 0 y) (.ofWrites ws) := by
  obtain ⟨m', -, leads⟩ := leads_turn_within lists held here runs quiet exists_ quiet'
  exact ⟨m', leads⟩

end Pages

end Paged

end AgilA32
