import AgilA32.Asm.Meaning
import AgilA32.Asm.PageLayout
import AgilA32.Soc.Refine

/-!
# Assembly programs on the computer

`Task` is the computer at an instruction of an assembly program: the instruction, the registers, the
memory map and the clock cycle.  In `Task.step` the source says what the instruction does, and the memory
map what its access does and how long it takes; no encoding appears.  The board goes through the states of
the task as long as it is shown the program's words (`Board.follows`).
-/

namespace AgilA32

open AgilA32.Core (Access hart toAccess)
open Asm (Spot address distance methods position)
open Clocked (Run)
open Rv32i (Instr decode)

/-! ## The source on the memory map -/

structure Task where
  spot : Spot
  map : MemoryMap
  cycle : Nat

namespace Task

variable (o : Outside) (base : Int) (calls : List Asm.Call)

/-- The computer, its program counter at the instruction. -/
def soc (s : Task) : Soc where
  pc := (address base s.spot.pos).setWidth 8
  x := s.spot.x
  map := s.map
  cycle := s.cycle

/-- Where labels and addresses lead; of an address the low eight bits count. -/
def targets : Asm.Targets where
  label := position calls
  find addr := (List.range (methods calls).length).find? fun k =>
    (address base k).setWidth 8 = addr.setWidth 8

/-- The computer after an effect. -/
def apply (s : Task) (e : Effect) : Option Task :=
  let d := e.memReq.map toAccess
  (e.apply base (targets base calls) s.spot ((s.soc base).response o d)).map fun spot =>
    ⟨spot, ((s.soc base).accessed d).wait 1, (s.soc base).writeBackCycle d + 1⟩

/-- One instruction of the program. -/
def step (s : Option Task) (_ : Unit) : Option Task :=
  s.bind fun s => (Asm.doing base calls s.spot).bind (s.apply o base calls)

/-- The store that the next instruction makes. -/
def stores (s : Option Task) (_ : Unit) : Option Bus :=
  s.bind fun s => (Asm.doing base calls s.spot).bind fun e => Soc.storeOf (e.memReq.map toAccess)

/-- The task from the state `s` on. -/
def run (s : Task) : Run (step o base calls) := .ofInputs (step o base calls) (some s) fun _ => ()

/-- The memory shows the instruction that comes next. -/
def Shown (s : Task) : Prop :=
  ∀ m, (methods calls)[s.spot.pos]? = some m →
    decode ((s.soc base).word o) = some (m.instr (distance calls s.spot.pos m))

section Shown

variable {o base calls}

/-- The words of a program, in its bytes. -/
theorem wordOf_words {words : List Nat} {k w : Nat} (here : words[k]? = some w) :
    wordOf (words.flatMap wordToBytes) (4 * k) = .ofNat 32 w := by
  rw [← ofBytes_word, wordOf]
  refine Verilog.eq_of_byteAt (c := 4) rfl fun j inside => ?_
  rw [Verilog.byteAt_ofBytes _ inside, Verilog.byteAt_ofBytes _ inside, List.getD_eq_getElem?_getD,
    (flatMap_wordToBytes words).2 k w here j inside]
  rfl

/-- Memory that shows the bytes of a program shows the program, whatever the base it was assembled at. -/
theorem shown_of_bytes {from_ : Int} {a : Asm} {words : List Nat} (inRange : ∀ m, .exec m ∈ calls → m.InRange)
    (built : (Asm.new from_).build calls = some a) (accepted : a.finalize = some words) {s : Task}
    (bytes : s.spot.pos < words.length →
      (s.soc base).word o = wordOf (words.flatMap wordToBytes) (4 * s.spot.pos)) : s.Shown o base calls := by
  intro m here
  obtain ⟨w, word, decoded⟩ := Asm.decode_method inRange built accepted here
  have within := (List.getElem?_eq_some_iff.mp word).1
  rw [bytes within, wordOf_words word, decoded]

variable {P : MemoryMap → Prop} {Q : Bus → Prop} (wait : ∀ m n, P m → P (m.wait n))
  (store : ∀ m b, P m → Q b → P (m.store b))
include wait store

/-- What waiting and certain stores keep is kept by an instruction. -/
theorem map_accessed {s : Soc} (holds : P s.map) {d : Option Access} (stores : ∀ b, Soc.storeOf d = some b → Q b) :
    P (s.accessed d) := by
  unfold Soc.accessed
  split
  case h_1 addr size data => exact store _ _ (wait _ _ holds) (stores _ rfl)
  case h_2 => exact wait _ _ (wait _ _ holds)

/-- And by a program that makes only such stores. -/
theorem map_run {p : Run (step o base calls)} {s : Task} (first : p.state 0 = some s) (holds : P s.map) {n : Nat}
    {s' : Task} (reached : p.state n = some s') (kept : ∀ b ∈ p.observe (stores base calls) 0 n, Q b) :
    P s'.map := by
  induction n generalizing s' with
  | zero =>
      rw [first] at reached
      cases reached
      exact holds
  | succ n ih =>
      rw [p.edge] at reached
      obtain ⟨s'', here, done⟩ := Option.bind_eq_some_iff.mp reached
      obtain ⟨e, doing, done⟩ := Option.bind_eq_some_iff.mp done
      obtain ⟨spot, -, rfl⟩ := Option.map_eq_some_iff.mp done
      rw [p.observe_add, p.observe_one, Nat.zero_add] at kept
      have before := ih here fun b member => kept b (List.mem_append_left _ member)
      refine wait _ _ (map_accessed wait store (s := s''.soc base) before fun b made => kept b ?_)
      have seen : stores base calls (some s'') () = some b := by
        rw [stores, Option.bind_some, doing]
        exact made
      rw [here]
      exact List.mem_append_right _ (Option.mem_toList.mpr seen)

/-- Before each instruction on the way only the stores of those before it count. -/
theorem map_upto {p : Run (step o base calls)} {s : Task} (first : p.state 0 = some s) (holds : P s.map) {n : Nat}
    (kept : ∀ b ∈ p.observe (stores base calls) 0 n, Q b) {k : Nat} {s' : Task} (upto : k ≤ n)
    (reached : p.state k = some s') : P s'.map := by
  refine map_run wait store first holds reached fun b member => kept b ?_
  obtain ⟨u, from_, within, seen⟩ := (Run.mem_observe _ _).mp member
  exact (Run.mem_observe _ _).mpr ⟨u, from_, by omega, seen⟩

end Shown

/-! ## The computer does what the source says -/

section Step

variable {o base calls} (inRange : ∀ m, .exec m ∈ calls → m.InRange)
  (low : ∀ k, k < (methods calls).length → (address base k).toNat < 256)
include low

theorem hart_soc {s : Task} {m : Method} (here : (methods calls)[s.spot.pos]? = some m) :
    hart (s.soc base).pc (s.soc base).x = ⟨address base s.spot.pos, s.spot.x⟩ := by
  have small := low _ (List.getElem?_eq_some_iff.mp here).1
  have pc : ((address base s.spot.pos).setWidth 8).setWidth 32 = address base s.spot.pos := by
    refine BitVec.eq_of_toNat_eq ?_
    rw [BitVec.toNat_setWidth, BitVec.toNat_setWidth]
    omega
  exact congrArg (Rv32i.Hart.mk · s.spot.x) pc

include inRange

/-- Where memory shows the instruction, the computer does in one instruction what the source says, and
makes the same store. -/
theorem step_soc {s s' : Task} (shown : s.Shown o base calls) (done : step o base calls (some s) () = some s') :
    Soc.step o (some (s.soc base)) () = some (s'.soc base) ∧
      Soc.stores o (some (s.soc base)) () = stores base calls (some s) () := by
  rw [step, Option.bind_some] at done
  obtain ⟨e, doing, done⟩ := Option.bind_eq_some_iff.mp done
  obtain ⟨m, here, effect⟩ := Option.map_eq_some_iff.mp doing
  obtain ⟨spot, applied, rfl⟩ := Option.map_eq_some_iff.mp done
  have range : m.InRange := inRange m (Asm.mem_methods.mp (List.mem_of_getElem? here))
  have there := hart_soc low here
  have running : m.instr (distance calls s.spot.pos m) ≠ .ebreak := by
    intro stops
    rw [(Method.instr_eq_ebreak _).mp stops] at effect
    cases effect
    cases applied
  have fetched : (s.soc base).fetch o = some (m.instr (distance calls s.spot.pos m)) := by
    rw [Soc.fetch, shown m here, Option.filter_some_pos (by simpa using running)]
  have access : (s.soc base).dataAccess (m.instr (distance calls s.spot.pos m)) = e.memReq.map toAccess := by
    rw [Soc.dataAccess, there, Method.memReq_instr, ← effect]
    rfl
  have exec := Method.exec_instr range (distance calls s.spot.pos m) ⟨address base s.spot.pos, s.spot.x⟩
    ((s.soc base).response o (e.memReq.map toAccess))
  change _ = (m.effect s.spot.reg (address base s.spot.pos)).onHart _ _ _ at exec
  rw [effect] at exec
  have moved := Effect.apply_onHart (BitVec.setWidth 8) ⟨address base s.spot.pos, s.spot.x⟩
    (.ofInt 32 (distance calls s.spot.pos m)) rfl rfl (fun name k targets there => ?_)
    (fun addr k found => ?_) applied
  · constructor
    · rw [Soc.step, Option.bind_some, fetched, Option.map_some, Soc.exec, access, there, exec, moved.1, moved.2]
      rfl
    · rw [Soc.stores, Option.bind_some, fetched, Option.bind_some, access, stores, Option.bind_some, doing,
        Option.bind_some]
  · rw [← effect, Method.target_effect] at targets
    exact Asm.address_distance targets there
  · have found := List.find?_some (show List.find? _ _ = some k from found)
    exact (of_decide_eq_true found).symm

omit inRange low in
/-- A step goes where the instruction's effect goes. -/
theorem step_of {s : Task} {m : Method} (here : (methods calls)[s.spot.pos]? = some m) {spot : Spot}
    (done : (m.effect s.spot.reg (address base s.spot.pos)).apply base (targets base calls) s.spot
      ((s.soc base).response o ((m.effect s.spot.reg (address base s.spot.pos)).memReq.map toAccess)) = some spot) :
    ∃ s', step o base calls (some s) () = some s' ∧ s'.spot = spot := by
  have doing : Asm.doing base calls s.spot = some (m.effect s.spot.reg (address base s.spot.pos)) := by
    rw [Asm.doing, here]
    rfl
  rw [step, Option.bind_some, doing]
  exact ⟨_, congrArg (Option.map _) done, rfl⟩

/-- As long as memory shows the program, the computer is after `n` instructions where the source is after
`n` steps, and has made the same stores. -/
theorem run_soc {p : Run (step o base calls)} {r : Run (Soc.step o)} {s : Task} (first : p.state 0 = some s)
    (start : r.state 0 = some (s.soc base)) {n : Nat}
    (shown : ∀ k s, k < n → p.state k = some s → s.Shown o base calls) {s' : Task}
    (reached : p.state n = some s') :
    r.state n = some (s'.soc base) ∧
      r.observe (Soc.stores o) 0 n = p.observe (stores base calls) 0 n := by
  induction n generalizing s' with
  | zero =>
      rw [first] at reached
      cases reached
      exact ⟨start, rfl⟩
  | succ n ih =>
      rw [p.edge] at reached
      obtain ⟨s'', here, -⟩ := Option.bind_eq_some_iff.mp reached
      rw [here] at reached
      obtain ⟨before, seen⟩ := ih (fun k s within => shown k s (by omega)) here
      obtain ⟨after, store⟩ := step_soc inRange low (shown n s'' (Nat.lt_succ_self n) here) reached
      constructor
      · rw [r.edge, before]
        exact after
      · rw [r.observe_add, p.observe_add, seen, r.observe_one, p.observe_one, Nat.zero_add, before, here]
        exact congrArg (fun e => _ ++ Option.toList e) store

end Step

end Task

/-! ## The board does what the source says -/

namespace Board

/-- A board that was reset is ready wherever an instruction begins. -/
theorem ready_of_reset {r : Run Board.step} {b : Board} (reset : r.state 0 = b.reset) {t : Nat}
    (here : (r.state t).core.state = .fetch) : Ready (r.state t) := by
  have start : Ready (r.state 0) := reset ▸ ready_reset b
  obtain ⟨boundary, idle⟩ := Top.fetch_induction (topRun r) start.boundary
    (P := fun u => ∀ d, d ≠ 0#2 → ((r.state u).chips.chip d).Idle) start.idle
    (fun u boundary live idle => (Ready.after ⟨boundary, idle⟩ live).idle) here
  exact ⟨boundary, idle⟩

/-- The state of the board in cycle `c` before instruction `k` of a program. -/
def task (s : Board) (k c : Nat) : Task := ⟨⟨k, s.core.regs⟩, s.memBoard.memoryMap, c⟩

/-- After `n` instructions of a program that was entered in cycle `t` the board is in the state `s`; and if the
source says `EBREAK` there, it halts and stays as it is. -/
structure Follows (r : Run Board.step) (base : Int) (calls : List Asm.Call) (t : Nat)
    (p : Run (Task.step (outside r) base calls)) (n : Nat) (s : Task) : Prop where
  begins : Top.begins (topRun r) t n = s.cycle
  there : (r.state s.cycle).soc s.cycle = s.soc base
  stores : (topRun r).observe Top.stored t (s.cycle - t) = p.observe (Task.stores base calls) 0 n
  stops : (methods calls)[s.spot.pos]? = some .ebreak →
    ∀ u, s.cycle + 4 + (s.soc base).fetchStall ≤ u → (r.state u).core.halted = true ∧
      (r.state u).soc u = { s.soc base with map := s.map.wait (u - s.cycle), cycle := u } ∧
      (topRun r).observe Top.stored s.cycle (u - s.cycle) = []

section Run

variable {base : Int} {calls : List Asm.Call} (inRange : ∀ m, .exec m ∈ calls → m.InRange)
  (low : ∀ k, k < (methods calls).length → (address base k).toNat < 256) {r : Run Board.step} {t k : Nat}
  (pc : (r.state t).core.pc = (address base k).setWidth 8) {n : Nat} {s : Task}
  (reached : (((r.state t).task k t).run (outside r) base calls).state n = some s)
  (shown : ∀ k' s', k' < n → (((r.state t).task k t).run (outside r) base calls).state k' = some s' →
    s'.Shown (outside r) base calls)
include inRange low pc reached shown

/-- The instruction machine goes through the states of the task. -/
theorem task_socRun : (socRun r t).state n = some (s.soc base) ∧ (socRun r t).observe (Soc.stores (outside r)) 0 n =
    (((r.state t).task k t).run (outside r) base calls).observe (Task.stores base calls) 0 n := by
  have same : ((r.state t).task k t).soc base = (r.state t).soc t := by
    rw [Task.soc, soc, pc]
    rfl
  exact Task.run_soc inRange low rfl (congrArg some same.symm) shown reached

/-- A board that stands before an instruction of a program follows its source, as long as memory shows
the program, the `EBREAK` at its end included. -/
theorem follows (last : (methods calls)[s.spot.pos]? = some .ebreak → s.Shown (outside r) base calls)
    (start : Ready (r.state t)) :
    Follows r base calls t (((r.state t).task k t).run (outside r) base calls) n s := by
  obtain ⟨there, stores⟩ := task_socRun inRange low pc reached shown
  obtain ⟨begins, -, board⟩ := socRun_state start there
  refine ⟨begins, board, (socRun_stores start there).trans stores, fun stops u after => ?_⟩
  exact socRun_halts start there (last stops _ stops) after

end Run

end Board

end AgilA32
