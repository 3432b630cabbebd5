import AgilA32.Boot.Driver
import AgilA32.Soc.Program

/-!
# The source of a loaded program

A host sends the bytes of an assembled program, and the computer does what its source says
(`Boot.runs_source`), for as long as the program leaves its own bytes and `FLASH_MODE` alone.
-/

namespace AgilA32

open AgilA32.Core (Access toAccess)
open Asm (address methods)
open Clocked (Run)
open Verilog (byteAt ofBytes)

/-! ## The program in RAM -/

/-- RAM shows these bytes from `0xB4` on. -/
structure MemoryMap.Holds (s : MemoryMap) (bytes : List (BitVec 8)) : Prop where
  mode : s.flashMode = false
  ram : ∀ k b, bytes[k]? = some b → ∀ inside : 4 + k < 48, s.ram ⟨4 + k, inside⟩ = b

/-- A store that spares `n` bytes from `0xB4` on, and does not switch to flash. -/
def Bus.Spares (n : Nat) (b : Bus) : Prop :=
  b.addr ≠ 0xF8#8 ∧ (0xB0 ≤ b.addr.toNat → b.addr.toNat < 0xE0 →
    MemoryMap.ramFirst b + sizeBytes b.size ≤ 4 ∨ 4 + n ≤ MemoryMap.ramFirst b)

namespace MemoryMap

variable {s : MemoryMap} {bytes : List (BitVec 8)} (holds : s.Holds bytes)
include holds

theorem Holds.wait (n : Nat) : (s.wait n).Holds bytes := ⟨holds.mode, holds.ram⟩

theorem Holds.store {b : Bus} (spares : b.Spares bytes.length) : (s.store b).Holds bytes where
  mode := (if_neg spares.1).trans holds.mode
  ram k byte here inside := by
    have short := (List.getElem?_eq_some_iff.mp here).1
    refine (if_neg ?_).trans (holds.ram k byte here inside)
    rintro ⟨ram, from_, upto⟩
    have range : 0xB0 ≤ b.addr.toNat ∧ b.addr.toNat < 0xE0 := by
      unfold place at ram
      split_ifs at ram
      omega
    have := spares.2 range.1 range.2
    dsimp only at from_ upto
    omega

/-- Each word of the program loads from RAM as its four bytes. -/
theorem Holds.load (small : bytes.length ≤ 44) {k : Nat} (within : 4 * k + 4 ≤ bytes.length) (gpioIn : BitVec 8)
    (undef : BitVec 32) : s.load gpioIn undef ((address 0xB4 k).setWidth 8) 2#2 = wordOf bytes (4 * k) := by
  have addr : (BitVec.ofNat 8 (0xB4 + 4 * k)).toNat = 180 + 4 * k := by
    rw [BitVec.toNat_ofNat]
    omega
  have place : s.place (.ofNat 8 (0xB4 + 4 * k)) = .ram := by
    have ram : ¬ (s.flashMode = true ∧ 0xB4 ≤ 180 + 4 * k) := by
      rw [holds.mode]
      rintro ⟨⟨⟩, -⟩
    rw [place, addr, if_neg (by omega), if_pos (by omega), if_neg ram]
  rw [Asm.address_low, wordOf]
  refine Verilog.eq_of_byteAt (c := 4) rfl fun j inside => ?_
  have offset : ramOffset (.ofNat 8 (0xB4 + 4 * k)) + j = 4 + (4 * k + j) := by
    unfold ramOffset
    omega
  have size : sizeBytes 2#2 = 4 := rfl
  rw [byteAt_load s _ _ _ (by omega), Verilog.byteAt_ofBytes _ inside, loadByte, place]
  simp only [offset]
  rw [dif_pos (by omega), List.getD_eq_getElem?_getD, List.getElem?_eq_getElem (by omega), Option.getD_some]
  exact holds.ram _ _ (List.getElem?_eq_getElem (by omega)) _

end MemoryMap

/-- While it is there, memory shows it. -/
theorem Task.shown_holds {o : Outside} {calls : List Asm.Call} {base : Int} {a : Asm} {words : List Nat}
    (inRange : ∀ m, .exec m ∈ calls → m.InRange) (built : (Asm.new base).build calls = some a)
    (accepted : a.finalize = some words) (few : words.length ≤ 11) {s : Task}
    (holds : s.map.Holds (words.flatMap wordToBytes)) : s.Shown o 0xB4 calls := by
  have count : (words.flatMap wordToBytes).length = 4 * words.length := (flatMap_wordToBytes words).1
  refine Task.shown_of_bytes inRange built accepted fun within => ?_
  exact (holds.wait _).load (by omega) (by omega) _ _

/-! ## On the board -/

namespace Boot

open Board (topRun outside)

/-- In cycle `t` the boot ROM has entered a program, and RAM shows its bytes. -/
structure Lands (r : Run Board.step) (bytes : List (BitVec 8)) (t : Nat) : Prop where
  ready : Board.Ready (r.state t)
  pc : (r.state t).core.pc = 0xB4
  rom : ∀ u, u < t → (r.state u).core.pc.toNat < 176
  holds : (r.state t).memBoard.memoryMap.Holds bytes

/-- A host that sends a program has the boot ROM enter it. -/
theorem lands (r : Run Board.step) (b : Board) (reset : r.state 0 = b.reset) :
    ∃ t₀, SelfTested (topRun r) t₀ ∧ ∀ low rise (bytes : List (BitVec 8)), bytes.length ≤ 44 →
      Host (topRun r) t₀ low rise bytes → ∃ t, t ≤ low (8 * (bytes.length + 1)) + 106 ∧ Lands r bytes t := by
  obtain ⟨t₀, tested, -, loads⟩ := boot_loads (r := topRun r) b.top (congrArg Board.top reset)
  refine ⟨t₀, tested, fun low rise bytes fits host => ?_⟩
  obtain ⟨t, x, m, g, log, -, near, entered, loaded⟩ := loads low rise bytes fits host
  obtain ⟨ws, others⟩ := loaded.others
  have mem : (r.state t).mem.regs = m := entered.reached.mem
  refine ⟨t, near, Board.ready_of_reset reset entered.reached.boundary.fetch, entered.reached.pc,
    fun u => entered.rom u (Nat.zero_le u), ?_, fun k byte here inside => ?_⟩
  · change (r.state t).mem.regs.flashMode = false
    rw [mem, others]
    rfl
  · have short := (List.getElem?_eq_some_iff.mp here).1
    change (r.state t).mem.regs.ramByte (4 + k) = byte
    rw [mem, loaded.bytes _ inside, if_pos (by omega), Nat.add_sub_cancel_left,
      List.getD_eq_getElem?_getD, here]
    rfl

section Runs

variable {calls : List Asm.Call} {base : Int} {a : Asm} {words : List Nat}
  (inRange : ∀ m, .exec m ∈ calls → m.InRange) (built : (Asm.new base).build calls = some a)
  (accepted : a.finalize = some words) (few : words.length ≤ 11) {r : Run Board.step} {t : Nat}
  (lands : Lands r (words.flatMap wordToBytes) t) {n : Nat}
  (spares : ∀ b ∈ (((r.state t).task 0 t).run (outside r) 0xB4 calls).observe (Task.stores 0xB4 calls) 0 n,
    b.Spares (words.flatMap wordToBytes).length)
include inRange built accepted few lands spares

/-- Memory shows a program that has spared itself so far. -/
theorem Lands.shown {k : Nat} {s : Task} (upto : k ≤ n)
    (there : (((r.state t).task 0 t).run (outside r) 0xB4 calls).state k = some s) :
    s.Shown (outside r) 0xB4 calls := by
  refine Task.shown_holds inRange built accepted few ?_
  exact Task.map_upto (P := (·.Holds (words.flatMap wordToBytes))) (fun m n holds => holds.wait n)
    (fun m b holds => holds.store) rfl lands.holds spares upto there

/-- The board follows a program that has landed, as far as it goes. -/
theorem Lands.follows {s : Task}
    (reached : (((r.state t).task 0 t).run (outside r) 0xB4 calls).state n = some s) :
    Board.Follows r 0xB4 calls t (((r.state t).task 0 t).run (outside r) 0xB4 calls) n s := by
  have count := (assembler_agrees base calls a words inRange built accepted).1
  exact Board.follows inRange (fun _ within => Asm.address_small (by omega)) lands.pc reached
    (fun _ _ before => lands.shown inRange built accepted few spares before.le)
    (fun _ => lands.shown inRange built accepted few spares le_rfl reached) lands.ready

end Runs

/-- A program of at most eleven instructions, with operands in range, that `Asm` accepts at any base.  Once
the self-test is over, a host that sends its bytes has the boot ROM enter it, and from there on the board
does what the source says: before the same instruction at the same cycle, with the same registers and
memory map, and with the same stores, for as long as these spare the program and `FLASH_MODE`; and it halts
where the source says `EBREAK`. -/
theorem runs_source {calls : List Asm.Call} {base : Int} {a : Asm} {words : List Nat} {bytes : List (BitVec 8)}
    (inRange : ∀ m, .exec m ∈ calls → m.InRange) (built : (Asm.new base).build calls = some a)
    (accepted : a.finalize = some words) (packed : wordsToBytes words = some bytes) (few : words.length ≤ 11)
    (r : Run Board.step) (b : Board) (reset : r.state 0 = b.reset) :
    ∃ t₀, SelfTested (topRun r) t₀ ∧ ∀ low rise, Host (topRun r) t₀ low rise bytes →
      ∃ t, t ≤ low (8 * (bytes.length + 1)) + 106 ∧ (∀ u, u < t → (r.state u).core.pc.toNat < 176) ∧
        let p := ((r.state t).task 0 t).run (outside r) 0xB4 calls
        ∀ n s, p.state n = some s → (∀ b ∈ p.observe (Task.stores 0xB4 calls) 0 n, b.Spares bytes.length) →
          Board.Follows r 0xB4 calls t p n s := by
  obtain ⟨-, packed⟩ := Option.ite_none_right_eq_some.mp packed
  cases packed
  have count : (words.flatMap wordToBytes).length = 4 * words.length := (flatMap_wordToBytes words).1
  obtain ⟨t₀, tested, loads⟩ := lands r b reset
  refine ⟨t₀, tested, fun low rise host => ?_⟩
  obtain ⟨t, near, lands⟩ := loads low rise _ (by omega) host
  exact ⟨t, near, lands.rom, fun n s reached spares => lands.follows inRange built accepted few spares reached⟩

/-! ## An example -/

/-- The sum of 5 and 7 on the LEDs, `halted` on bit 7, and `EBREAK`. -/
def sumCalls : List Asm.Call :=
  [.exec (.addi 1 0 5), .exec (.addi 2 0 7), .exec (.add 3 1 2), .exec (.sw 3 0 0xF0), .exec (.addi 4 0 2),
    .exec (.sw 4 0 0xFA), .exec .ebreak]

theorem inRange_sumCalls : ∀ m, .exec m ∈ sumCalls → m.InRange := by
  simp [sumCalls, Method.InRange]

/-- Its bytes. -/
def sumProgram : List (BitVec 8) :=
  (((Asm.new 0).build sumCalls).bind fun a => a.finalize.bind wordsToBytes).getD []

theorem built_sumCalls : ∃ a words, (Asm.new 0).build sumCalls = some a ∧ a.finalize = some words ∧
    wordsToBytes words = some sumProgram ∧ words.flatMap wordToBytes = sumProgram ∧ words.length = 7 :=
  ⟨_, _, rfl, rfl, rfl, rfl, rfl⟩

/-- What the source does, wherever it starts. -/
theorem run_sumCalls (o : Outside) (s : Task) (first : s.spot.pos = 0) :
    ∃ s', (s.run o 0xB4 sumCalls).state 6 = some s' ∧ s'.spot.pos = 6 ∧ s'.map.gpioOut = 12 ∧
      s'.map.pinMux = 2#2 ∧
      ∀ b ∈ (s.run o 0xB4 sumCalls).observe (Task.stores 0xB4 sumCalls) 0 6, b.Spares 28 := by
  obtain ⟨⟨pos, x⟩, map, cycle⟩ := s
  cases first
  have stores : ((Task.mk ⟨0, x⟩ map cycle).run o 0xB4 sumCalls).observe (Task.stores 0xB4 sumCalls) 0 6 =
      [{ addr := 0xF0, wdata := 12, size := 2, we := true, valid := true },
        { addr := 0xFA, wdata := 2, size := 2, we := true, valid := true }] := rfl
  refine ⟨_, rfl, rfl, rfl, rfl, fun b member => ?_⟩
  rw [stores] at member
  rcases List.mem_pair.mp member with rfl | rfl
  · exact ⟨by decide, fun _ below => absurd below (by decide)⟩
  · exact ⟨by decide, fun _ below => absurd below (by decide)⟩

/-- A board, and the test bench's driver as a host that sends it. -/
def sumBoardRun : Run Board.step := .ofInputs Board.step Board.zeroed.reset (driverInput sumProgram)

theorem sumBoardRun_host {t₀ : Nat} (tested : SelfTested (topRun sumBoardRun) t₀) :
    Host (topRun sumBoardRun) t₀ (driverLow 10286) (driverRise 10286) sumProgram :=
  driver_host (driven_of_input tested fun _ _ _ => rfl)

/-- The board comes to the `EBREAK` and halts, with the sum on the LEDs. -/
theorem runs_source_sum : ∃ v, ∀ u, v ≤ u → (sumBoardRun.state u).core.halted = true ∧
    (sumBoardRun.state u).mem.regs.gpioOut = 12 ∧ (sumBoardRun.state u).mem.pwm.pinMux = 2#2 := by
  obtain ⟨a, words, built, accepted, packed, -, count⟩ := built_sumCalls
  obtain ⟨t₀, tested, loads⟩ :=
    runs_source inRange_sumCalls built accepted packed (by omega) sumBoardRun Board.zeroed rfl
  obtain ⟨t, -, -, runs⟩ := loads _ _ (sumBoardRun_host tested)
  obtain ⟨s, reached, pos, leds, mux, spares⟩ :=
    run_sumCalls (outside sumBoardRun) ((sumBoardRun.state t).task 0 t) rfl
  refine ⟨s.cycle + 4 + (s.soc 0xB4).fetchStall, fun u after => ?_⟩
  obtain ⟨halted, there, -⟩ := (runs 6 s reached spares).stops (by rw [pos]; rfl) u after
  exact ⟨halted, (congrArg (fun s => s.map.gpioOut) there).trans leds,
    (congrArg (fun s => s.map.pinMux) there).trans mux⟩

end Boot

end AgilA32
