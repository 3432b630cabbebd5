import AgilA32.Flash.Meaning

/-!
# A paged program on the board

A board whose flash holds the image of a program executes the program, from the first page on and for as
long as it only polls and writes the LEDs (`PagedAsm.runs_on_board`): the polls sample the pins, the writes
go to the LEDs, and every instruction takes the 8201 cycles of its fetch.
-/

namespace AgilA32

namespace PagedAsm

open Clocked (Run)
open Flash (Arrives Holds Unattended)
open Mem (engineRun)
open AgilA32.Top (Boundary begins gpioRead ledWrite memRun)

/-- From cycle `t` on the design executes the program, from instruction `k` of page 0.  `p` is its run and
`cycle n` is when its step `n` begins. -/
structure Executes (r : Run Top.step) (t k reg : Nat) (pages : List Segment) (p : Run (step reg pages))
    (cycle : Nat → Nat) : Prop where
  entry : ∃ x, p.state 0 = some { pos := k, x := x, page := 0 }
  starts : cycle 0 = t
  paces : ∀ n, cycle (n + 1) = cycle n + 8201 * cost pages (p.state n)
  samples : ∀ n, (p.state (n + 1)).isSome = true → p.input n = (r.input (cycle n + 8200)).uiIn
  there : ∀ n q, p.state n = some q → Boundary (r.state (cycle n)) ∧
    (r.state (cycle n)).core.pc = .ofNat 8 (0xB4 + 4 * q.pos) ∧ (r.state (cycle n)).core.regs = q.x ∧
    (r.state (cycle n)).mem.regs.flashPage = q.page
  polls : ∀ n, (p.state n).isSome = true →
    r.observe gpioRead t (cycle n - t) = p.observe (polled pages) 0 n
  writes : ∀ n, (p.state n).isSome = true →
    r.observe ledWrite t (cycle n - t) = p.observe (written pages) 0 n
  pins : ∀ n, (p.state n).isSome = true → ∀ u, t ≤ u → u ≤ cycle n →
    (r.state u).uoOut = (r.observe ledWrite t (u - t)).getLastD (r.state t).mem.regs.gpioOut

section Design

variable {reg : Nat} {pages : List Segment} {image : List (BitVec 8)} (compiled : Compiled reg pages image)
  {r : Run Top.step} {chip : Run SpiRam.step} {mem : BitVec 14 → BitVec 8} {t k l : Nat} {fail : Bool}
  {a : Top.Arch} (wired : Attached (engineRun (memRun r)) chip 1#2) (stored : Holds mem image)
  (arrives : Arrives r chip mem t k l fail a) (start : Boundary (r.state 0))
include compiled wired stored arrives start

/-- On the design, from where the program is entered. -/
theorem executes_arrived : ∃ p cycle, Executes r t k reg pages p cycle := by
  have rate : Paged.period a.mem.qspiDivSel = 8201 := by rw [arrives.divider]; rfl
  obtain ⟨p, moment, entry, first, inputs, next, runs⟩ := runs_machine (p := ⟨⟨k, a.x⟩, 0⟩) compiled
    (arrives.onPage image)
  have begun {m : Nat} {s : Paged.State} (here : (Paged.machine r image t a).state m = some s) :
      begins r t m = t + 8201 * m := by
    rw [Paged.begins_eq wired stored arrives.flash arrives.mode here, rate]
  have machine_alive {n : Nat} (alive : (p.state n).isSome = true) :
      ∃ s, (Paged.machine r image t a).state (moment n) = some s := by
    obtain ⟨q, here⟩ := Option.isSome_iff_exists.mp alive
    exact ⟨_, (runs n q here).1⟩
  refine ⟨p, fun n => t + 8201 * moment n, ⟨a.x, entry⟩, by rw [first]; rfl, fun n => ?_, fun n alive => ?_,
    fun n q here => ?_, fun n alive => ?_, fun n alive => ?_, fun n alive u after upto => ?_⟩
  · rw [next, Nat.mul_add, Nat.add_assoc]
  · obtain ⟨s, later⟩ := machine_alive alive
    have ahead : 0 < cost pages (p.state n) := cost_pos compiled (by rw [← p.edge]; exact alive)
    obtain ⟨s', between⟩ := Option.isSome_iff_exists.mp
      (Paged.isSome_before (m := moment n + 1) (by rw [later]; rfl) (by rw [next]; omega))
    rw [inputs]
    change (r.input (begins r t (moment n + 1) - 1)).uiIn = _
    rw [begun between]
    exact congrArg (fun u => (r.input u).uiIn) (by omega)
  · have there := Paged.simulates wired stored arrives.flash arrives.mode (runs n q here).1
    rw [begun (runs n q here).1] at there
    exact ⟨there.here.boundary, there.here.pc, there.here.regs, congrArg MemRegs.flashPage there.here.mem⟩
  · obtain ⟨q, here⟩ := Option.isSome_iff_exists.mp alive
    obtain ⟨there, polls, -⟩ := runs n q here
    have shown := (Paged.observes wired stored arrives.flash arrives.mode there).1
    rw [begun there] at shown
    exact shown.trans polls
  · obtain ⟨q, here⟩ := Option.isSome_iff_exists.mp alive
    obtain ⟨there, -, writes⟩ := runs n q here
    have shown := (Paged.observes wired stored arrives.flash arrives.mode there).2
    rw [begun there] at shown
    exact shown.trans writes
  · obtain ⟨s, there⟩ := machine_alive alive
    refine Paged.uoOut_last wired stored arrives.flash arrives.mode start arrives.mux there after ?_
    rwa [begun there]

end Design

/-- Any calls that do not raise, with operands in range.  A board that has their image in its flash enters the
program at the first instruction of page 0, or with a host that sends the stub at the second one, and executes
it from there on, for as long as `PagedAsm.step` gives it a meaning: up to its first `EBREAK`, load of anything
but `GPIO_IN` or store to anything but `GPIO_OUT`. -/
theorem runs_on_board {reg : Nat} (small : reg < 32) {calls : List Call} (inRange : ∀ c ∈ calls, c.InRange)
    {p : PagedAsm} (built : (PagedAsm.default reg).build calls = some p) (r : Run Board.step) (b : Board)
    (reset : r.state 0 = b.reset) (holds : Holds b.chips.flash.mem p.finalize) :
    (Unattended (Board.topRun r) → ∃ t, t ≤ 42570 ∧
      ∃ program cycle, Executes (Board.topRun r) t 0 reg (history calls).pages program cycle) ∧
    ∃ t₀, Boot.SelfTested (Board.topRun r) t₀ ∧ ∀ low rise,
      Boot.Host (Board.topRun r) t₀ low rise Flash.handoffStub → ∃ t, t ≤ low 40 + 113 ∧
        ∃ program cycle, Executes (Board.topRun r) t 1 reg (history calls).pages program cycle := by
  have compiled := compiled_of_build small inRange built
  exact Flash.entered reset
    (P := fun r t k => ∃ program cycle, Executes r t k reg (history calls).pages program cycle)
    (fun wired stored arrives start => executes_arrived compiled wired stored arrives start) holds

/-- `build_flash_pagetest.py`. -/
def pageTest : List Call :=
  [.page (.exec (.addi 5 0 0)), .page (.exec (.addi 2 0 0x11)), .page (.exec (.sw 2 0 0xF0)),
    .switchTo 1 none,
    .page (.exec (.addi 2 0 0x22)), .page (.exec (.sw 2 0 0xF0)), .page (.exec (.bne 5 0 "GOTO_PAGE2")),
    .page (.exec (.addi 5 0 1)), .page (.exec (.addi 30 0 1)), .page (.exec (.jal 0 "CONVERGE")),
    .page (.label "GOTO_PAGE2"), .page (.exec (.addi 30 0 2)), .page (.label "CONVERGE"),
    .switchToComputed none,
    .page (.exec (.addi 2 0 0x33)), .page (.exec (.sw 2 0 0xF0)), .switchTo 3 none,
    .page (.exec (.addi 2 0 0x44)), .page (.exec (.sw 2 0 0xF0)), .page (.label "SPIN"),
    .page (.exec (.jal 0 "SPIN")), .finalizeLastPage none]

/-- What the test bench expects on the LEDs, without a host. -/
theorem runs_on_board_pageTest : ∃ p, (PagedAsm.default 30).build pageTest = some p ∧ ∃ t u, t ≤ u ∧
    (Board.topRun (Flash.flashBoardRun (Flash.flashMem p.finalize))).observe ledWrite t (u - t) =
      [0x11, 0x22, 0x22, 0x33, 0x44] := by
  obtain ⟨p, built⟩ : ∃ p, (PagedAsm.default 30).build pageTest = some p := ⟨_, rfl⟩
  have inRange : ∀ c ∈ pageTest, c.InRange := by
    simp [pageTest, Call.InRange, Call.RegInRange, Method.InRange]
  have stored : Holds (Flash.flashMem p.finalize) p.finalize := by
    have count := ((Follows.default 30).build built).image.1
    have pages : (pageTest.foldl History.add ⟨[], []⟩).pages.length = 4 := rfl
    exact Flash.holds_whole (by omega)
  refine ⟨p, built, ?_⟩
  obtain ⟨alone, -⟩ := runs_on_board (by omega) inRange built (Flash.flashBoardRun (Flash.flashMem p.finalize))
    (Flash.flashBoard (Flash.flashMem p.finalize)) rfl stored
  obtain ⟨t, -, program, cycle, runs⟩ := alone (Flash.unattended_flashBoard _)
  obtain ⟨x, entry⟩ := runs.entry
  have alive : (program.state 22).isSome = true := by
    rw [program.eq_ofInputs, entry]
    rfl
  have shown : program.observe (written (history pageTest).pages) 0 22 = [0x11, 0x22, 0x22, 0x33, 0x44] := by
    rw [program.eq_ofInputs, entry]
    rfl
  have later : t ≤ cycle 22 := by
    rw [← runs.starts]
    exact monotone_nat_of_le_succ (fun n => by rw [runs.paces]; omega) (Nat.zero_le 22)
  exact ⟨t, cycle 22, later, (runs.writes 22 alive).trans shown⟩

end PagedAsm

end AgilA32
