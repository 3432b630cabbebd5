import AgilA32.Flash.Arrive
import AgilA32.Soc.Program

/-!
# The source of a program in flash

A board that holds an assembled program at the start of its flash does what its source says
(`Flash.runs_plain`), for as long as the program leaves `FLASH_PAGE` alone.
-/

namespace AgilA32

open Asm (methods)
open Clocked (Run)
open Verilog (byteAt)

/-! ## The window -/

namespace MemoryMap

/-- The window shows the flash, which holds an image. -/
structure Shows (s : MemoryMap) (image : List (BitVec 8)) : Prop where
  mode : s.flashMode = true
  flash : Flash.Holds s.flash image

variable {s : MemoryMap} {image : List (BitVec 8)}

theorem Shows.wait (shows : s.Shows image) (n : Nat) : (s.wait n).Shows image := ⟨shows.mode, shows.flash⟩

theorem Shows.store (shows : s.Shows image) (b : Bus) : (s.store b).Shows image where
  mode := by
    change (if b.addr = 0xF8#8 then true else s.flashMode) = true
    rw [shows.mode, ite_self]
  flash := shows.flash

theorem Shows.place (shows : s.Shows image) {k : Nat} (slot : k ≤ 10) :
    s.place (.ofNat 8 (0xB4 + 4 * k)) = .flash := by
  have addr : (BitVec.ofNat 8 (0xB4 + 4 * k)).toNat = 0xB4 + 4 * k := by
    rw [BitVec.toNat_ofNat]
    omega
  rw [MemoryMap.place, addr, if_neg (by omega), if_pos (by omega), if_pos ⟨shows.mode, by omega⟩]

/-- Each word of the page loads through the window as its four bytes in the image. -/
theorem Shows.load (shows : s.Shows image) {k : Nat} (slot : k ≤ 10)
    (within : 44 * s.flashPage.toNat + 4 * k + 4 ≤ image.length) (gpioIn : BitVec 8) (undef : BitVec 32) :
    s.load gpioIn undef (.ofNat 8 (0xB4 + 4 * k)) 2#2 = wordOf image (44 * s.flashPage.toNat + 4 * k) := by
  have addr : (BitVec.ofNat 8 (0xB4 + 4 * k)).toNat = 0xB4 + 4 * k := by
    rw [BitVec.toNat_ofNat]
    omega
  have size : sizeBytes 2#2 = 4 := rfl
  refine Verilog.eq_of_byteAt (c := 4) rfl fun j inside => ?_
  rw [byteAt_load s _ _ _ (by omega), wordOf, Verilog.byteAt_ofBytes _ inside, loadByte, shows.place slot]
  dsimp only
  rw [addr, Nat.add_sub_cancel_left, List.getD_eq_getElem?_getD, List.getElem?_eq_getElem (by omega),
    Option.getD_some]
  exact shows.flash _ _ (List.getElem?_eq_getElem (by omega))

end MemoryMap

/-- The window shows a program on page 0. -/
theorem Task.shown_flash {o : Outside} {calls : List Asm.Call} {base : Int} {a : Asm} {words : List Nat}
    (inRange : ∀ m, .exec m ∈ calls → m.InRange) (built : (Asm.new base).build calls = some a)
    (accepted : a.finalize = some words) (few : words.length ≤ 11) {s : Task}
    (shows : s.map.Shows (words.flatMap wordToBytes)) (page : s.map.flashPage = 0) : s.Shown o 0xB4 calls := by
  have count : (words.flatMap wordToBytes).length = 4 * words.length := (flatMap_wordToBytes words).1
  refine Task.shown_of_bytes inRange built accepted fun within => ?_
  have zero : 44 * s.map.flashPage.toNat = 0 := by rw [page]; rfl
  have word := (shows.wait (2 + (s.soc 0xB4).fetchStall)).load (k := s.spot.pos) (by omega)
    (by change 44 * s.map.flashPage.toNat + 4 * s.spot.pos + 4 ≤ _; omega) (o.uiIn (s.cycle + 2 + (s.soc 0xB4).fetchStall))
    (o.undef (s.cycle + 2 + (s.soc 0xB4).fetchStall))
  change MemoryMap.load _ _ _ _ _ = wordOf _ (44 * s.map.flashPage.toNat + _) at word
  rw [zero, Nat.zero_add, ← Asm.address_low] at word
  exact word

namespace Flash

open Board (Ready outside topRun)

/-! ## Into flash -/

/-- In cycle `t` the board is before word `k` of page 0, and the window shows the image. -/
structure Lands (r : Run Board.step) (image : List (BitVec 8)) (t k : Nat) : Prop where
  ready : Ready (r.state t)
  pc : (r.state t).core.pc = .ofNat 8 (0xB4 + 4 * k)
  shows : (r.state t).memBoard.memoryMap.Shows image
  page : (r.state t).memBoard.memoryMap.flashPage = 0

/-- With a host that sends the stub, or without one, a board gets into its flash. -/
theorem lands {r : Run Board.step} {b : Board} (reset : r.state 0 = b.reset) {image : List (BitVec 8)}
    (holds : Holds b.chips.flash.mem image) :
    (Unattended (topRun r) → ∃ t, t ≤ 42570 ∧ Lands r image t 0) ∧
    ∃ t₀, Boot.SelfTested (topRun r) t₀ ∧ ∀ low rise, Boot.Host (topRun r) t₀ low rise handoffStub →
      ∃ t, t ≤ low 40 + 113 ∧ Lands r image t 1 := by
  have start : Top.Boundary ((topRun r).state 0) := by
    rw [show (topRun r).state 0 = b.top.reset from congrArg Board.top reset]
    exact Top.boundary_reset b.top
  have held := holds_flash reset holds
  have there {t k : Nat} (here : ∃ a, Top.At (topRun r) t a ∧ a.pc = .ofNat 8 (0xB4 + 4 * k) ∧
      a.mem.flashMode = true ∧ a.mem.flashPage = 0) : Lands r image t k := by
    obtain ⟨a, here, pc, mode, page⟩ := here
    have flash := flashAt_of_boundary (Board.wired r 1#2 (by simp)) start (idle_flash reset) here
    rw [← flash.holds] at held
    exact ⟨Board.ready_of_reset reset here.boundary.fetch, here.pc.trans pc,
      ⟨(congrArg MemRegs.flashMode here.mem).trans mode, held⟩, (congrArg MemRegs.flashPage here.mem).trans page⟩
  obtain ⟨alone, t₀, tested, hosted⟩ := entered reset (P := fun r t k => ∃ a, Top.At r t a ∧
    a.pc = .ofNat 8 (0xB4 + 4 * k) ∧ a.mem.flashMode = true ∧ a.mem.flashPage = 0)
    (fun _ _ arrives _ => ⟨_, arrives.flash.here, arrives.pc, arrives.mode, arrives.page⟩) holds
  refine ⟨fun never => ?_, t₀, tested, fun low rise host => ?_⟩
  · obtain ⟨t, early, here⟩ := alone never
    exact ⟨t, early, there here⟩
  · obtain ⟨t, early, here⟩ := hosted low rise host
    exact ⟨t, early, there here⟩

/-! ## Plain programs -/

/-- From instruction `k` in cycle `t` on the board follows a program for as long as that leaves `FLASH_PAGE`
alone. -/
def FollowsFrom (r : Run Board.step) (calls : List Asm.Call) (t k : Nat) : Prop :=
  let p := ((r.state t).task k t).run (outside r) 0xB4 calls
  ∀ n s, p.state n = some s → (∀ b ∈ p.observe (Task.stores 0xB4 calls) 0 n, b.addr ≠ 0xFC#8) →
    Board.Follows r 0xB4 calls t p n s

/-- A program of at most eleven instructions, with operands in range, that `Asm` accepts at any base.  A
board that holds its bytes at the start of its flash enters it without a host at its first instruction, or
with one that sends the stub at its second, and does what the source says from there on: same registers,
same memory map, same stores, same cycles; and it halts where the source says `EBREAK`. -/
theorem runs_plain {calls : List Asm.Call} {base : Int} {a : Asm} {words : List Nat} {bytes : List (BitVec 8)}
    (inRange : ∀ m, .exec m ∈ calls → m.InRange) (built : (Asm.new base).build calls = some a)
    (accepted : a.finalize = some words) (packed : wordsToBytes words = some bytes) (few : words.length ≤ 11)
    (r : Run Board.step) (b : Board) (reset : r.state 0 = b.reset) (holds : Holds b.chips.flash.mem bytes) :
    (Unattended (topRun r) → ∃ t, t ≤ 42570 ∧ FollowsFrom r calls t 0) ∧
    ∃ t₀, Boot.SelfTested (topRun r) t₀ ∧ ∀ low rise, Boot.Host (topRun r) t₀ low rise handoffStub →
      ∃ t, t ≤ low 40 + 113 ∧ FollowsFrom r calls t 1 := by
  obtain ⟨-, packed⟩ := Option.ite_none_right_eq_some.mp packed
  cases packed
  have count := (assembler_agrees base calls a words inRange built accepted).1
  have follows {t k : Nat} (lands : Lands r (words.flatMap wordToBytes) t k) : FollowsFrom r calls t k := by
    intro n s reached spares
    have pc := lands.pc
    rw [← Asm.address_low] at pc
    have shown {k' : Nat} {s' : Task} (upto : k' ≤ n)
        (there : (((r.state t).task k t).run (outside r) 0xB4 calls).state k' = some s') :
        s'.Shown (outside r) 0xB4 calls := by
      obtain ⟨shows, page⟩ := Task.map_upto
        (P := fun s => s.Shows (words.flatMap wordToBytes) ∧ s.flashPage = 0)
        (fun m n holds => ⟨holds.1.wait n, holds.2⟩)
        (fun m b holds spares => ⟨holds.1.store b, (if_neg spares).trans holds.2⟩)
        rfl ⟨lands.shows, lands.page⟩ spares upto there
      exact Task.shown_flash inRange built accepted few shows page
    exact Board.follows inRange (fun k within => Asm.address_small (by omega)) pc reached
      (fun k' s' before => shown before.le) (fun _ => shown le_rfl reached) lands.ready
  obtain ⟨alone, t₀, tested, hosted⟩ := lands reset holds
  refine ⟨fun never => ?_, t₀, tested, fun low rise host => ?_⟩
  · obtain ⟨t, early, lands⟩ := alone never
    exact ⟨t, early, follows lands⟩
  · obtain ⟨t, early, lands⟩ := hosted low rise host
    exact ⟨t, early, follows lands⟩

/-- `build_flash_canary.py`. -/
def canary : List Asm.Call :=
  [.exec (.addi 0 0 0), .exec (.addi 5 0 0x2A), .exec (.sw 5 0 0xF0), .label "SPIN", .exec (.jal 0 "SPIN")]

/-- The canary, with an `EBREAK` in place of its loop. -/
def haltingCanary : List Asm.Call := canary.take 3 ++ [.exec .ebreak]

/-- It shows up on the LEDs, and then the core halts for good. -/
theorem runs_plain_canary : ∃ a words bytes, (Asm.new 0).build haltingCanary = some a ∧ a.finalize = some words ∧
    wordsToBytes words = some bytes ∧ ∃ v, ∀ u, v ≤ u →
      ((flashBoardRun (flashMem bytes)).state u).core.halted = true ∧
        ((flashBoardRun (flashMem bytes)).state u).mem.regs.gpioOut = 0x2A := by
  obtain ⟨a, words, bytes, built, accepted, packed, count, size⟩ : ∃ a words bytes,
      (Asm.new 0).build haltingCanary = some a ∧ a.finalize = some words ∧ wordsToBytes words = some bytes ∧
        words.length = 4 ∧ bytes.length = 16 := ⟨_, _, _, rfl, rfl, rfl, rfl, rfl⟩
  have inRange : ∀ m, Asm.Call.exec m ∈ haltingCanary → m.InRange := by
    simp [haltingCanary, canary, Method.InRange]
  obtain ⟨alone, -⟩ := runs_plain inRange built accepted packed (by omega) (flashBoardRun (flashMem bytes))
    (flashBoard (flashMem bytes)) rfl (holds_whole (by omega))
  obtain ⟨t, -, follows⟩ := alone (unattended_flashBoard _)
  have reached (o : Outside) (s : Task) (first : s.spot.pos = 0) : ∃ s',
      (s.run o 0xB4 haltingCanary).state 3 = some s' ∧ s'.spot.pos = 3 ∧ s'.map.gpioOut = 0x2A ∧
        (s.run o 0xB4 haltingCanary).observe (Task.stores 0xB4 haltingCanary) 0 3 =
          [{ addr := 0xF0, wdata := 0x2A, size := 2, we := true, valid := true }] := by
    obtain ⟨⟨pos, x⟩, map, cycle⟩ := s
    cases first
    exact ⟨_, rfl, rfl, rfl, rfl⟩
  obtain ⟨s, reached, pos, shown, stores⟩ :=
    reached (outside _) (((flashBoardRun (flashMem bytes)).state t).task 0 t) rfl
  have there := follows 3 s reached fun b member => by
    rw [stores, List.mem_singleton] at member
    subst member
    decide
  refine ⟨a, words, bytes, built, accepted, packed, s.cycle + 4 + (s.soc 0xB4).fetchStall, fun u after => ?_⟩
  obtain ⟨halted, same, -⟩ := there.stops (by rw [pos]; rfl) u after
  exact ⟨halted, (congrArg (fun s => s.map.gpioOut) same).trans shown⟩

end Flash

end AgilA32
