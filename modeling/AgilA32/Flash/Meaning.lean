import AgilA32.Asm.History
import AgilA32.Asm.Meaning
import AgilA32.Clocked.Pace
import AgilA32.Flash.Timing

/-!
# What a paged program means

The calls on a `PagedAsm`, read as a program in its own right: it stands before an instruction of a page,
a jump goes to a label of the page, and at its end the page switches to the start of the one in the low eight
bits of its register (`PagedAsm.step`).  The window, the padding and the reserved words do not appear.  The
paged machine runs the image as the program says (`PagedAsm.Compiled.runs_machine`), a switch taking as many
instructions as it takes.
-/

namespace AgilA32

open Asm (Spot address distance labelIndex methods position)
open AgilA32.Core (hart readReg writeReg)
open Clocked (Run)
open Paged (Action onPage)
open Rv32i (Instr decode)

namespace PagedAsm

/-! ## Paged programs -/

/-- The page that a program is on, before which of its instructions, and its registers. -/
structure Place extends Spot where
  page : BitVec 8

/-- What is on a page, with page 0's NOP. -/
def Segment.code (i : Nat) (s : Segment) : List Asm.Call := head i ++ s.own

/-- The instruction at an address, of which only the low eight bits count. -/
def find (code : List Asm.Call) (addr : BitVec 32) : Option Nat :=
  (List.range ((methods code).length + 1)).find? fun k =>
    (address 0xB4 k).setWidth 8 = addr.setWidth 8

def targets (code : List Asm.Call) : Asm.Targets := ⟨position code, find code⟩

/-- What the pins see of an effect: the polls of `GPIO_IN` and what is stored to `GPIO_OUT`.  Every other load
or store ends the program's meaning, and so does `EBREAK`; a program leaves a page only at its end. -/
def action : Effect → Action
  | .load _ _ addr => if addr.setWidth 8 = 0xF4#8 then .poll else .stuck
  | .store _ addr value => if addr.setWidth 8 = 0xF0#8 then .write (value.setWidth 8) else .stuck
  | .halt => .stuck
  | _ => .plain

theorem action_ne_turn (e : Effect) (next : BitVec 8) : action e ≠ .turn next := by
  unfold action
  split
  case h_1 => split <;> simp
  case h_2 => split <;> simp
  all_goals simp

/-- The end of a page.  The switch goes to the page in the low eight bits of its register, which is page 0
for `x0`, if there is such a page. -/
def Segment.leave (reg count : Nat) (s : Segment) (x : RegFile) : Option Place :=
  let r := BitVec.ofNat 5 (s.scratch.getD reg)
  let x' := match s.ending with
    | .switchTo next => writeReg x r ((BitVec.ofInt 12 next).signExtend 32)
    | .switchToComputed => x
  let next := (readReg x' r).setWidth 8
  if next.toNat < count then some { pos := 0, x := x', page := next } else none

section Program

variable (reg : Nat) (pages : List Segment)

/-- The effect of the next instruction, if the page has not come to its end. -/
def doing (q : Place) : Option Effect :=
  pages[q.page.toNat]?.bind fun s => (methods (s.code q.page.toNat))[q.pos]?.map fun m =>
    m.effect q.reg (address 0xB4 q.pos)

/-- One instruction of a paged program, or the switch at the end of a page; `v` is what `GPIO_IN`
shows. -/
def step (q : Option Place) (v : BitVec 8) : Option Place :=
  q.bind fun q => pages[q.page.toNat]?.bind fun s =>
    match doing pages q with
    | some e =>
        if action e = .stuck then none
        else (e.apply 0xB4 (targets (s.code q.page.toNat)) q.toSpot (v.setWidth 32)).map
          fun spot => { spot with page := q.page }
    | none =>
        if q.pos = (methods (s.code q.page.toNat)).length then s.leave reg pages.length q.x else none

/-- What is polled. -/
def polled (q : Option Place) (v : BitVec 8) : Option (BitVec 8) :=
  if (q.bind (doing pages)).map action = some .poll then some v else none

/-- What is written to `GPIO_OUT`. -/
def written (q : Option Place) (_ : BitVec 8) : Option (BitVec 8) :=
  match (q.bind (doing pages)).map action with
  | some (.write led) => some led
  | _ => none

/-- How many instructions of the image it takes: one, or what is left of the page and the trampoline. -/
def cost : Option Place → Nat
  | some q => if (doing pages q).isSome then 1 else 11 - q.pos
  | none => 1

end Program

/-! ## Operands in range -/

/-- Operands in range. -/
def Call.InRange : Call → Prop
  | .page (.exec m) => m.InRange
  | c => c.RegInRange

/-- What holds of all instruction calls holds of those on each page. -/
theorem History.all_methods {P : Method → Prop} {h : History}
    (before : (∀ s ∈ h.pages, ∀ m ∈ methods s.own, P m) ∧ ∀ m ∈ methods h.own, P m) {calls : List Call}
    (all : ∀ m, .page (.exec m) ∈ calls → P m) :
    ∀ s ∈ (calls.foldl History.add h).pages, ∀ m ∈ methods s.own, P m := by
  induction calls generalizing h with
  | nil => exact before.1
  | cons c calls ih =>
      refine ih ?_ fun m member => all m (List.mem_cons_of_mem _ member)
      have ends (ending : Ending) (scratch : Option Nat) :
          (∀ s ∈ (h.finish ending scratch).pages, ∀ m ∈ methods s.own, P m) ∧
            ∀ m ∈ methods (h.finish ending scratch).own, P m := by
        refine ⟨fun s member => ?_, fun m member => ?_⟩
        · rcases List.mem_append.mp member with old | new
          · exact before.1 s old
          · rw [List.mem_singleton.mp new]
            exact before.2
        · cases member
      cases c with
      | switchTo next scratch | switchToComputed scratch | finalizeLastPage scratch => exact ends _ _
      | page c =>
          refine ⟨before.1, fun m member => ?_⟩
          rw [History.add, Asm.methods_append] at member
          rcases List.mem_append.mp member with old | new
          · exact before.2 m old
          · cases c with
            | label name => cases new
            | exec m' =>
                rw [List.mem_singleton.mp new]
                exact all m' List.mem_cons_self

/-! ## The words of a page -/

section Words

variable {code : List Asm.Call} {a : Asm} (built : (Asm.new 0xB4).build code = some a)
include built

/-- The word that a method emits is its instruction. -/
theorem Encodes.decode {j w : Nat} {m : Method} (encodes : Encodes code j m w) (range : m.InRange) :
    Rv32i.decode (.ofNat 32 w) = some (m.instr (distance code j m)) := by
  rcases encodes with emits | ⟨f, k, emits, set, word⟩
  · exact Method.decode_word emits range _
  · obtain ⟨pre, post, split, rfl⟩ := set
    have found := Asm.lookup_eq built f.target
    rw [Asm.lookup_of_set built split, position, if_pos (by rw [split]; simp)] at found
    have same : (0xB4 : Int) + 4 * (methods pre).length = 0xB4 + 4 * labelIndex code f.target :=
      Option.some.inj found
    have off : distance code j m = 0xB4 + 4 * (methods pre).length - (0xB4 + 4 * j) := by
      rw [distance, Method.target_of_fixup emits]
      dsimp only
      omega
    rw [off]
    exact Method.decode_fixup emits range word

end Words

/-- An image that a program was made into. -/
structure Compiled (reg : Nat) (pages : List Segment) (image : List (BitVec 8)) : Prop where
  length : image.length = 44 * pages.length
  laid : ∀ i (s : Segment), pages[i]? = some s → LaidOut image i (s.code i) s.ending (s.scratch.getD reg)
  inRange : ∀ i (s : Segment), pages[i]? = some s → ∀ m ∈ methods (s.code i), m.InRange
  labels : ∀ i (s : Segment), pages[i]? = some s → ∃ a, (Asm.new 0xB4).build (s.code i) = some a

theorem hart_address {k : Nat} (inside : k ≤ 10) (x : RegFile) :
    (hart (.ofNat 8 (0xB4 + 4 * k)) x).pc = address 0xB4 k := by
  refine BitVec.eq_of_toNat_eq ?_
  rw [Core.hart_pc, BitVec.toNat_setWidth, address, BitVec.toNat_ofInt, BitVec.toNat_ofNat]
  omega

theorem find_low {code : List Asm.Call} {addr : BitVec 32} {k : Nat} (found : find code addr = some k) :
    addr.setWidth 8 = (address 0xB4 k).setWidth 8 := by
  have same := List.find?_some found
  exact (of_decide_eq_true same).symm

namespace Compiled

variable {reg : Nat} {pages : List Segment} {image : List (BitVec 8)} (compiled : Compiled reg pages image)
  {page : BitVec 8} {s : Segment} (listed : pages[page.toNat]? = some s)
include compiled listed

/-- What the machine fetches from a page. -/
theorem fetch {k : Nat} (inside : k ≤ 10) (x : RegFile) :
    Paged.fetch image (onPage page k x) = decode (pageWord image page.toNat k) := by
  have within := (List.getElem?_eq_some_iff.mp listed).1
  have pc : (onPage page k x).pc.toNat = 0xB4 + 4 * k := by
    rw [onPage, BitVec.toNat_ofNat]
    omega
  have length := compiled.length
  rw [Paged.fetch, pc, Nat.add_sub_cancel_left]
  refine if_pos ⟨by omega, by omega, ?_⟩
  change 44 * page.toNat + 4 * k + 4 ≤ _
  omega

theorem room : (methods (s.code page.toNat)).length ≤ s.ending.room ∧ s.ending.room ≤ 9 := by
  refine ⟨(compiled.laid _ s listed).fits, ?_⟩
  cases s.ending <;> simp [Ending.room]

/-- An instruction of the program is one of the image. -/
theorem own {k : Nat} {x : RegFile} {m : Method} (here : (methods (s.code page.toNat))[k]? = some m)
    {spot : Spot} {v : BitVec 8}
    (live : action (m.effect (Spot.reg ⟨k, x⟩) (address 0xB4 k)) ≠ .stuck)
    (done : (m.effect (Spot.reg ⟨k, x⟩) (address 0xB4 k)).apply 0xB4 (targets (s.code page.toNat)) ⟨k, x⟩
      (v.setWidth 32) = some spot) :
    ∃ i, Paged.fetch image (onPage page k x) = some i ∧
      Paged.action i (onPage page k x) = action (m.effect (Spot.reg ⟨k, x⟩) (address 0xB4 k)) ∧
      Paged.exec i (onPage page k x) v = some (onPage page spot.pos spot.x) := by
  obtain ⟨fits, small⟩ := compiled.room listed
  have within := (List.getElem?_eq_some_iff.mp here).1
  have range : m.InRange := compiled.inRange _ s listed m (List.mem_of_getElem? here)
  obtain ⟨a, built⟩ := compiled.labels _ s listed
  obtain ⟨w, word, encodes⟩ := (compiled.laid _ s listed).own k m here
  have decoded := encodes.decode built range
  generalize off_eq : distance (s.code page.toNat) k m = off at decoded
  have running : m.instr off ≠ .ebreak := by
    intro stops
    rw [(Method.instr_eq_ebreak off).mp stops] at live
    exact live rfl
  have pc := hart_address (show k ≤ 10 by omega) x
  have access := Method.memReq_instr (m := m) off (hart (.ofNat 8 (0xB4 + 4 * k)) x)
  have exec := Method.exec_instr range off (hart (.ofNat 8 (0xB4 + 4 * k)) x) (v.setWidth 32)
  rw [pc] at access exec
  have moved := Effect.apply_onHart (BitVec.setWidth 8) (hart (.ofNat 8 (0xB4 + 4 * k)) x) (.ofInt 32 off) pc rfl
    (fun name k' targets there => by
      rw [Method.target_effect] at targets
      rw [pc, ← off_eq]
      exact Asm.address_distance targets there)
    (fun addr k' found => find_low found) done
  change _ = (m.effect (Spot.reg ⟨k, x⟩) (address 0xB4 k)).memReq at access
  change _ = (m.effect (Spot.reg ⟨k, x⟩) (address 0xB4 k)).onHart _ _ _ at exec
  generalize m.effect (Spot.reg ⟨k, x⟩) (address 0xB4 k) = e at live done access exec moved ⊢
  have acts : Paged.action (m.instr off) (onPage page k x) = action e := by
    rw [Paged.action, show (m.instr off).memReq (hart (onPage page k x).pc (onPage page k x).x) = _ from access]
    cases e with
    | halt => exact absurd rfl live
    | load op rd addr => rfl
    | store op addr value =>
        have led : addr.setWidth 8 = 0xF0#8 := by
          by_contra other
          exact live (if_neg other)
        exact (if_pos led).trans (if_pos led).symm
    | _ => exact if_neg running
  refine ⟨m.instr off, ?_, acts, ?_⟩
  · rw [compiled.fetch listed (by omega), word, decoded]
  · have after : (m.instr off).exec (hart (onPage page k x).pc (onPage page k x).x) (v.setWidth 32) = _ := exec
    have place : Paged.State.mk page ((e.onHart (hart (.ofNat 8 (0xB4 + 4 * k)) x) (.ofInt 32 off)
        (v.setWidth 32)).pc.setWidth 8) (e.onHart (hart (.ofNat 8 (0xB4 + 4 * k)) x) (.ofInt 32 off)
        (v.setWidth 32)).x = onPage page spot.pos spot.x := by
      rw [moved.1, moved.2, Asm.address_low]
      rfl
    rw [Paged.exec, acts, after, ← place]
    split
    case h_1 stuck => exact absurd stuck live
    case h_2 next turns => exact absurd turns (action_ne_turn e next)
    case h_3 => rfl

variable {r : Run (Paged.step image)} {t : Nat}

/-- An instruction that only computes takes one step, and the pins see nothing of it. -/
theorem plain {k k' : Nat} {x y : RegFile} (here : r.state t = some (onPage page k x)) (inside : k ≤ 10)
    {i : Instr} (decoded : decode (pageWord image page.toNat k) = some i)
    (acts : Paged.action i (onPage page k x) = .plain)
    (pc : (i.exec (hart (.ofNat 8 (0xB4 + 4 * k)) x) ((r.input t).setWidth 32)).pc.setWidth 8 =
      .ofNat 8 (0xB4 + 4 * k'))
    (regs : (i.exec (hart (.ofNat 8 (0xB4 + 4 * k)) x) ((r.input t).setWidth 32)).x = y) :
    Paged.Leads r (fun _ => none) t (t + 1) (onPage page k' y) .empty := by
  have done : Paged.exec i (onPage page k x) (r.input t) = some (onPage page k' y) := by
    rw [Paged.exec, acts]
    change some (Paged.State.mk page ((i.exec (hart (.ofNat 8 (0xB4 + 4 * k)) x) _).pc.setWidth 8)
      (i.exec (hart (.ofNat 8 (0xB4 + 4 * k)) x) _).x) = _
    rw [pc, regs]
    rfl
  have one := Paged.Leads.one (fun _ => none) here ((compiled.fetch listed inside x).trans decoded) done
  rwa [acts] at one

/-- The padding of a page takes a step for each NOP and changes nothing. -/
theorem nops {x : RegFile} (here : r.state t = some (onPage page (methods (s.code page.toNat)).length x)) :
    ∀ j, (methods (s.code page.toNat)).length + j ≤ s.ending.room →
      Paged.Leads r (fun _ => none) t (t + j) (onPage page ((methods (s.code page.toNat)).length + j) x)
        .empty := by
  obtain ⟨-, small⟩ := compiled.room listed
  intro j within
  induction j with
  | zero => exact Paged.Leads.refl here
  | succ j ih =>
      have before := ih (by omega)
      have word := (compiled.laid _ s listed).padded _ (Nat.le_add_right _ j) (by omega)
      have decoded : decode (pageWord image page.toNat ((methods (s.code page.toNat)).length + j)) =
          some (.aluImm .add 0 0 0) := by
        rw [word]
        decide
      exact before.trans (compiled.plain listed before.reached (by omega) decoded rfl Paged.next_slot rfl)

/-- The last word of a page leads back to its start. -/
theorem trampoline {x : RegFile} (here : r.state t = some (onPage page 10 x)) :
    Paged.Leads r (fun _ => none) t (t + 1) (onPage page 0 x) .empty := by
  have decoded := (compiled.laid _ s listed).trampoline.2.1
  exact compiled.plain listed here le_rfl decoded rfl (Paged.jump_target (by decide)) rfl

/-- The store to `FLASH_PAGE` and the trampoline. -/
theorem switch {x : RegFile} (here : r.state t = some (onPage page 9 x)) {next : BitVec 8}
    (named : (readReg x (.ofNat 5 (s.scratch.getD reg))).setWidth 8 = next)
    (exists_ : next.toNat < pages.length) :
    Paged.Leads r (fun _ => none) t (t + 2) (onPage next 0 x) .empty := by
  have fetched := (compiled.fetch listed (show 9 ≤ 10 by omega) x).trans (compiled.laid _ s listed).switch
  have turn : Paged.action (.store .sw 0 (.ofNat 5 (s.scratch.getD reg)) 0xFC) (onPage page 9 x) =
      .turn next := by
    rw [← named]
    rfl
  have done : Paged.exec (.store .sw 0 (.ofNat 5 (s.scratch.getD reg)) 0xFC) (onPage page 9 x) (r.input t) =
      some (onPage next 10 x) := by
    rw [Paged.exec, turn]
    exact congrArg (fun pc => some (Paged.State.mk next pc x)) Paged.next_slot
  have one := Paged.Leads.one (fun _ => none) here fetched done
  rw [turn] at one
  exact one.trans (compiled.trampoline (List.getElem?_eq_getElem exists_) one.reached)

/-- What is left of a page after the program's own instructions leads to the page that `leave` names. -/
theorem leaves {x : RegFile} (here : r.state t = some (onPage page (methods (s.code page.toNat)).length x))
    {q : Place} (done : s.leave reg pages.length x = some q) :
    Paged.Leads r (fun _ => none) t (t + (11 - (methods (s.code page.toNat)).length))
      (onPage q.page q.pos q.x) .empty := by
  obtain ⟨fits, -⟩ := compiled.room listed
  obtain ⟨exists_, place⟩ := Option.ite_none_right_eq_some.mp done
  cases place
  have padded := compiled.nops listed here _ (Nat.add_sub_of_le fits).le
  rw [Nat.add_sub_of_le fits] at padded
  have load := (compiled.laid _ s listed).load
  cases ending : s.ending with
  | switchTo next =>
      rw [ending] at padded fits exists_
      have room : (Ending.switchTo next).room = 8 := rfl
      have loaded := compiled.plain listed padded.reached (show 8 ≤ 10 by omega) (load next ending) rfl Paged.next_slot
        (y := writeReg x (.ofNat 5 (s.scratch.getD reg)) ((BitVec.ofInt 12 next).signExtend 32))
        ((Core.hart_set_x ..).trans (congrArg _ (BitVec.zero_add _)))
      have turned := (padded.trans loaded).trans (compiled.switch listed loaded.reached rfl exists_)
      rwa [show t + ((Ending.switchTo next).room - (methods (s.code page.toNat)).length) + 1 + 2 =
        t + (11 - (methods (s.code page.toNat)).length) by omega] at turned
  | switchToComputed =>
      rw [ending] at padded fits exists_
      have room : Ending.switchToComputed.room = 9 := rfl
      have turned := padded.trans (compiled.switch listed padded.reached rfl exists_)
      rwa [show t + (Ending.switchToComputed.room - (methods (s.code page.toNat)).length) + 2 =
        t + (11 - (methods (s.code page.toNat)).length) by omega] at turned

end Compiled

/-! ## Whole runs -/

section Run

variable {reg : Nat} {pages : List Segment} {image : List (BitVec 8)} (compiled : Compiled reg pages image)
include compiled

/-- What the machine polls and writes, in the two kinds of events. -/
def machineEvent (image : List (BitVec 8)) (write : Bool) :
    Option Paged.State → BitVec 8 → Option (BitVec 8) :=
  if write then Paged.written image else Paged.polled image

def event (pages : List Segment) (write : Bool) : Option Place → BitVec 8 → Option (BitVec 8) :=
  if write then written pages else polled pages

/-- A step of the program takes the paged machine to where the program gets, in as many steps as `cost`
says, with the program's polls and writes. -/
theorem step_machine {r : Run (Paged.step image)} {t : Nat} {q : Option Place}
    (here : ∀ p, q = some p → r.state t = some (onPage p.page p.pos p.x))
    (alive : (step reg pages q (r.input t)).isSome = true) :
    (∀ p, step reg pages q (r.input t) = some p →
      r.state (t + cost pages q) = some (onPage p.page p.pos p.x)) ∧
      ∀ write, r.observe (machineEvent image write) t (cost pages q) =
        (event pages write q (r.input t)).toList := by
  obtain ⟨p', done⟩ := Option.isSome_iff_exists.mp alive
  obtain ⟨p, rfl, inside⟩ := Option.bind_eq_some_iff.mp done
  obtain ⟨s, listed, inside⟩ := Option.bind_eq_some_iff.mp inside
  have here := here p rfl
  rw [done]
  cases does : doing pages p with
  | some e =>
      rw [does] at inside
      obtain ⟨live, moved⟩ := Option.ite_none_left_eq_some.mp inside
      obtain ⟨spot, applied, rfl⟩ := Option.map_eq_some_iff.mp moved
      have does' := does
      rw [doing, listed, Option.bind_some] at does'
      obtain ⟨m, there, rfl⟩ := Option.map_eq_some_iff.mp does'
      obtain ⟨i, fetched, acts, exec⟩ := compiled.own listed there live applied
      have one := Paged.Leads.one (fun _ => none) here fetched exec
      have polls := one.polls
      have writes := one.writes
      rw [acts, Nat.add_sub_cancel_left] at polls writes
      have time : cost pages (some p) = 1 := by
        rw [cost, does]
        rfl
      rw [time]
      refine ⟨?_, fun write => ?_⟩
      · rintro q ⟨⟩
        exact one.reached
      · cases write with
        | false =>
            refine polls.trans ?_
            change _ = (polled pages (some p) (r.input t)).toList
            rw [polled, Option.bind_some, does, Option.map_some]
            simp only [Option.some.injEq]
            split <;> rfl
        | true =>
            refine writes.trans ?_
            change _ = (written pages (some p) (r.input t)).toList
            rw [written, Option.bind_some, does, Option.map_some]
            cases action (m.effect p.reg (address 0xB4 p.pos)) <;> rfl
  | none =>
      rw [does] at inside
      obtain ⟨ends, leaves⟩ := Option.ite_none_right_eq_some.mp inside
      rw [ends] at here
      have turned := compiled.leaves listed here leaves
      have polls := turned.polls
      have writes := turned.writes
      rw [Nat.add_sub_cancel_left, ← ends] at polls writes
      have time : cost pages (some p) = 11 - p.pos := by
        rw [cost, does]
        rfl
      rw [time]
      refine ⟨?_, fun write => ?_⟩
      · rintro q ⟨⟩
        rw [ends]
        exact turned.reached
      · cases write with
        | false =>
            refine polls.trans ?_
            change _ = (polled pages (some p) (r.input t)).toList
            rw [polled, Option.bind_some, does]
            rfl
        | true =>
            refine writes.trans ?_
            change _ = (written pages (some p) (r.input t)).toList
            rw [written, Option.bind_some, does]
            rfl

/-- A step of the program takes time. -/
theorem cost_pos {q : Option Place} {v : BitVec 8} (alive : (step reg pages q v).isSome = true) :
    0 < cost pages q := by
  obtain ⟨p', done⟩ := Option.isSome_iff_exists.mp alive
  obtain ⟨p, rfl, inside⟩ := Option.bind_eq_some_iff.mp done
  obtain ⟨s, listed, inside⟩ := Option.bind_eq_some_iff.mp inside
  obtain ⟨fits, small⟩ := compiled.room listed
  rw [cost]
  split
  case isTrue => exact Nat.one_pos
  case isFalse ended =>
    rw [Option.not_isSome_iff_eq_none.mp ended] at inside
    obtain ⟨ends, -⟩ := Option.ite_none_right_eq_some.mp inside
    omega

/-- A run of the machine that is at a place of the program drives the program.  As long as that goes on, the
machine is where the program is, and has polled and written what the program has. -/
theorem runs_machine {r : Run (Paged.step image)} {m : Nat} {p : Place}
    (start : r.state m = some (onPage p.page p.pos p.x)) :
    ∃ (program : Run (step reg pages)) (moment : Nat → Nat), program.state 0 = some p ∧ moment 0 = m ∧
      (∀ n, program.input n = r.input (moment n)) ∧
      (∀ n, moment (n + 1) = moment n + cost pages (program.state n)) ∧
      ∀ n q, program.state n = some q → r.state (moment n) = some (onPage q.page q.pos q.x) ∧
        r.observe (Paged.polled image) m (moment n - m) = program.observe (polled pages) 0 n ∧
        r.observe (Paged.written image) m (moment n - m) = program.observe (written pages) 0 n := by
  refine ⟨r.paced (step reg pages) (cost pages) (some p) m, r.moment (step reg pages) (cost pages) (some p) m,
    rfl, rfl, fun _ => rfl, fun _ => rfl, fun n q here => ?_⟩
  have backwards (q : Option Place) (v : BitVec 8) (alive : (step reg pages q v).isSome = true) :
      q.isSome = true := by
    cases q with
    | none => exact alive
    | some q => rfl
  have begins (p' : Place) (same : some p = some p') : r.state m = some (onPage p'.page p'.pos p'.x) := by
    cases same
    exact start
  obtain ⟨there, shown⟩ := Run.paced_simulates (fun q => q.isSome = true)
    (fun q s => ∀ p, q = some p → s = some (onPage p.page p.pos p.x)) (machineEvent image) (event pages)
    backwards (fun t q here alive => step_machine compiled here alive) begins (n := n) (by rw [here]; rfl)
  exact ⟨there q here, shown false, shown true⟩

end Run

/-! ## What the assembler makes -/

/-- Calls that do not raise, with operands in range, make an image of their program. -/
theorem compiled_of_build {reg : Nat} (small : reg < 32) {calls : List Call}
    (inRange : ∀ c ∈ calls, c.InRange) {p : PagedAsm} (built : (PagedAsm.default reg).build calls = some p) :
    Compiled reg (history calls).pages p.finalize := by
  have follows := (Follows.default reg).build built
  have methods_inRange : ∀ s ∈ (history calls).pages, ∀ m ∈ methods s.own, m.InRange :=
    History.all_methods (h := ⟨[], []⟩)
      ⟨fun s member => absurd member List.not_mem_nil, fun m member => absurd member List.not_mem_nil⟩
      fun m member => inRange _ member
  have scratch : ∀ s ∈ (history calls).pages, s.scratch.getD reg < 32 := by
    refine History.scratch_lt small (h := ⟨[], []⟩) (fun s member => by cases member) fun c member => ?_
    have range := inRange c member
    cases c with
    | page c => trivial
    | _ => exact range
  refine ⟨follows.image.1, fun i s listed => ?_, fun i s listed m member => ?_, fun i s listed => ?_⟩
  · have inside := List.mem_of_getElem? listed
    exact follows.laidOut listed (scratch s inside) fun m member => (methods_inRange s inside m member).regs
  · rw [Segment.code, Asm.methods_append] at member
    rcases List.mem_append.mp member with nop | own
    · cases i with
      | zero =>
          rw [List.mem_singleton.mp nop]
          simp [Method.nop, Method.InRange]
      | succ i => cases nop
    · exact methods_inRange s (List.mem_of_getElem? listed) m own
  · have inside := (List.getElem?_eq_some_iff.mp listed).1
    have here := List.getElem?_eq_getElem (show i < p.pages.length from follows.length.symm ▸ inside)
    obtain ⟨a, words, built, -⟩ := (follows.pages i s _ listed here).words
    rw [fullCode, Asm.build_append] at built
    obtain ⟨a', own, -⟩ := Option.bind_eq_some_iff.mp built
    exact ⟨a', own⟩

end PagedAsm

end AgilA32
