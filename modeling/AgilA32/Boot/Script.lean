import AgilA32.Asm.RomAsm
import AgilA32.Soc.Program

/-!
# The boot ROM as its script has it

`Boot.script` is the program of `tools/build_boot_rom.py`.  Its words are those of `boot_rom_body.vh`
(`romWords_eq`), and from reset the board does what the script says until it comes to `RUN`, where the
patched jump enters the program at `0xB4` (`boots_as_written`).
-/

namespace AgilA32

open AgilA32.Core (readReg writeReg)
open Asm (Spot address distance methods position)
open Clocked (Run)
open Rv32i (decode)

namespace Boot

/-! ## The script -/

def ramBase : Int := 0xB4
def gpioIn : Int := 0xF4
def ledOut : Int := 0xF0
def extPsram : Int := 0xE0
def flashMode : Int := 0xF8
def timeoutShift : Nat := 9
def dataMask : Int := 1
def clockMask : Int := 2
def startMask : Int := 4
def selftestPattern : Int := 0xA5

def script : List RomAsm.Call :=
  [.label "SELFTEST", .exec (.addi 2 0 selftestPattern), .exec (.sb 2 0 extPsram), .exec (.lbu 6 0 extPsram),
    .exec (.addi 8 0 0), .exec (.beq 6 2 "MAIN_INIT"), .exec (.addi 8 0 0x80),
    .label "MAIN_INIT", .exec (.addi 9 0 0),
    .label "MAIN_LOOP", .exec (.lw 2 0 gpioIn), .exec (.andi 2 2 startMask), .exec (.bne 2 0 "START_SEEN"),
    .exec (.addi 9 9 1), .exec (.andi 3 9 0xF), .exec (.or 2 8 3), .exec (.sw 2 0 ledOut),
    .exec (.srli 3 9 timeoutShift), .exec (.beq 3 0 "MAIN_LOOP"), .exec (.sw 0 0 flashMode),
    .exec (.jal 0 "RUN"),
    .label "START_SEEN", .exec (.jal 1 "RECV_BYTE"), .exec (.add 4 6 0), .exec (.addi 5 0 ramBase),
    .label "BYTE_LOOP", .exec (.beq 4 0 "RUN"), .exec (.jal 1 "RECV_BYTE"), .exec (.sb 6 5 0),
    .exec (.addi 5 5 1), .exec (.addi 4 4 (-1)), .exec (.jal 0 "BYTE_LOOP"),
    .label "RUN", .exec (.jal 0 "RUN"),
    .label "RECV_BYTE", .exec (.addi 6 0 0), .exec (.addi 7 0 0),
    .label "BIT_WAIT_HIGH", .exec (.lw 2 0 gpioIn), .exec (.andi 3 2 clockMask),
    .exec (.beq 3 0 "BIT_WAIT_HIGH"), .exec (.andi 2 2 dataMask), .exec (.slli 6 6 1),
    .exec (.beq 2 0 "SKIP_OR"), .exec (.ori 6 6 1),
    .label "SKIP_OR",
    .label "BIT_WAIT_LOW", .exec (.lw 2 0 gpioIn), .exec (.andi 2 2 clockMask),
    .exec (.bne 2 0 "BIT_WAIT_LOW"), .exec (.addi 7 7 1), .exec (.addi 3 0 8),
    .exec (.blt 7 3 "BIT_WAIT_HIGH"), .exec (.jalr 0 1 0)]

/-- What the script writes out: `RUN`'s placeholder is patched into a jump to `RAM_BASE`. -/
def romWords : Option (List Nat) := do
  let a ← RomAsm.new.build script
  let words ← a.finalize
  let pc ← a.labels.lookup "RUN"
  let word ← RomAsm.fixupWord pc ramBase (.jal 0 "RUN")
  pure (words.set (pc / 4).toNat word)

/-- `boot_rom_body.vh` is generated by the script. -/
theorem romWords_eq : romWords = some (bootRomBody.map BitVec.toNat) := by decide

def calls : List Asm.Call := script.map RomAsm.Call.toCall

/-- The index of `RUN`, the one instruction that is patched. -/
def runIndex : Nat := 27

theorem inRange_calls : ∀ m, .exec m ∈ calls → m.InRange := by
  simp [calls, script, RomAsm.Call.toCall, RomAsm.Method.toMethod, Method.InRange, gpioIn, ledOut, extPsram,
    flashMode, timeoutShift, dataMask, clockMask, startMask, selftestPattern, ramBase]

/-- The words of the other instructions are those of the script. -/
theorem decode_rom {k : Nat} {m : Method} (here : (methods calls)[k]? = some m) (other : k ≠ runIndex) :
    decode (romWordAt (.ofNat 6 k)) = some (m.instr (distance calls k m)) := by
  have patched := romWords_eq
  simp only [romWords, Option.bind_eq_bind, Option.bind_eq_some_iff] at patched
  obtain ⟨a, built, words, accepted, pc, label, word, -, patched⟩ := patched
  have run : (RomAsm.new.build script).bind (·.labels.lookup "RUN") = some 108 := by decide
  rw [built, Option.bind_some, label] at run
  cases run
  -- the assembler of the other scripts makes the same words of it
  have agrees := RomAsm.finalize_agrees script 0
  rw [built, Option.bind_some, accepted] at agrees
  obtain ⟨a', built', accepted'⟩ := Option.bind_eq_some_iff.mp agrees
  obtain ⟨w, there, decoded⟩ := Asm.decode_method inRange_calls built' accepted' here
  have same := congrArg (·[k]?) (Option.some.inj patched)
  simp only [List.getElem?_map] at same
  rw [List.getElem?_set_ne (by exact fun h => other h.symm), there] at same
  obtain ⟨v, listed, rfl⟩ := Option.map_eq_some_iff.mp same.symm
  rw [BitVec.ofNat_toNat, BitVec.setWidth_eq] at decoded
  have short : k < 44 := (List.getElem?_eq_some_iff.mp listed).1
  rw [romWordAt, BitVec.toNat_ofNat, Nat.mod_eq_of_lt (by omega), List.getD_eq_getElem?_getD, listed]
  exact decoded

/-! ## The ROM on the memory map -/

section Rom

variable {o : Outside} {s : Task}

theorem word_rom (inside : s.spot.pos < 44) : (s.soc 0).word o = romWordAt (.ofNat 6 s.spot.pos) := by
  have addr : (s.soc 0).pc.toNat = 4 * s.spot.pos := by
    have := Asm.toNat_address 0 s.spot.pos le_rfl (by omega)
    rw [Task.soc, BitVec.toNat_setWidth]
    omega
  refine Verilog.eq_of_byteAt (c := 4) rfl fun j within => ?_
  have size : sizeBytes 2#2 = 4 := rfl
  have place (m : MemoryMap) : m.place (s.soc 0).pc = .rom := if_pos (by omega)
  rw [Soc.word, MemoryMap.byteAt_load _ _ _ _ (by omega), MemoryMap.loadByte, place]
  dsimp only
  rw [romByte, addr]
  congr 3 <;> omega

theorem shown_rom (inside : s.spot.pos < 44) (other : s.spot.pos ≠ runIndex) : s.Shown o 0 calls := by
  intro m here
  rw [word_rom inside]
  exact decode_rom here other

/-! ## The script does not get stuck -/

/-- Instruction `k` has a successor, and leads into `RECV_BYTE`, from 28 on, only by a call. -/
def LeadsOn (k : Nat) (m : Method) : Prop :=
  m.goesOn = true ∧ (∀ name ∈ m.target, (position calls name).isSome = true) ∧
    ∀ j ∈ m.successors (position calls) k, j < 44 ∧
      (28 ≤ j → 28 ≤ k ∧ (m.effect (fun _ => 0) 0).dest.map (BitVec.ofNat 5) ≠ some 1#5 ∨
        m = .jal 1 "RECV_BYTE" ∧ (k = 18 ∨ k = 22))

instance (k : Nat) (m : Method) : Decidable (LeadsOn k m) := inferInstanceAs (Decidable (_ ∧ _ ∧ _))

/-- Every instruction does, up to the return. -/
theorem leads_on : ∀ k, k < 43 → k ≠ runIndex → ∀ m ∈ (methods calls)[k]?, LeadsOn k m := by
  decide +kernel

/-- Where `JALR` finds the instruction at an address. -/
theorem find_return : ∀ k, k < 28 →
    (Task.targets 0 calls).find ((address 0 k + .ofInt 32 0) &&& ~~~1) = some k := by
  decide +kernel

/-- In the script; and in `RECV_BYTE` `x1` says after which of its two calls the script goes on. -/
structure InScript (s : Spot) : Prop where
  inside : s.pos < 44
  returns : 28 ≤ s.pos → s.x 1#5 = address 0 19 ∨ s.x 1#5 = address 0 23

theorem InScript.next (here : InScript s.spot) (other : s.spot.pos ≠ runIndex) :
    ∃ s', Task.step o 0 calls (some s) () = some s' ∧ InScript s'.spot := by
  have count : (methods calls).length = 44 := by decide
  obtain ⟨m, listed⟩ : ∃ m, (methods calls)[s.spot.pos]? = some m :=
    ⟨_, List.getElem?_eq_getElem (count ▸ here.inside)⟩
  have goes_to (spot : Spot) (inside : InScript spot)
      (done : (m.effect s.spot.reg (address 0 s.spot.pos)).apply 0 (Task.targets 0 calls) s.spot
        ((s.soc 0).response o ((m.effect s.spot.reg (address 0 s.spot.pos)).memReq.map Core.toAccess)) = some spot) :
      ∃ s', Task.step o 0 calls (some s) () = some s' ∧ InScript s'.spot := by
    obtain ⟨s', step, rfl⟩ := Task.step_of listed done
    exact ⟨s', step, inside⟩
  rcases Nat.lt_or_ge s.spot.pos 43 with before | last
  · obtain ⟨goes, labelled, leads⟩ := leads_on _ before other m listed
    obtain ⟨spot, done, next⟩ := Method.apply_next 0 (Task.targets 0 calls) s.spot s.spot.reg
      (address 0 s.spot.pos) goes labelled
      ((s.soc 0).response o ((m.effect s.spot.reg (address 0 s.spot.pos)).memReq.map Core.toAccess))
    obtain ⟨inside, enters⟩ := leads _ next
    refine goes_to spot ⟨inside, fun receiving => ?_⟩ done
    rcases enters receiving with ⟨within, keeps⟩ | ⟨rfl, call⟩
    · rw [Method.dest_effect _ s.spot.reg _ (address 0 s.spot.pos)] at keeps
      rw [Effect.apply_keeps done keeps]
      exact here.returns within
    · rw [Method.effect, Effect.apply] at done
      obtain ⟨k, -, rfl⟩ := Option.map_eq_some_iff.mp done
      rcases call with first | second
      · rw [first]
        exact .inl rfl
      · rw [second]
        exact .inr rfl
  · have last : s.spot.pos = 43 := by have := here.inside; omega
    rw [last] at listed
    cases listed
    have back {k : Nat} (small : k < 28) (x1 : s.spot.reg 1 = address 0 k) :
        ∃ s', Task.step o 0 calls (some s) () = some s' ∧ InScript s'.spot := by
      have found := find_return k small
      rw [← x1] at found
      refine goes_to ⟨k, _⟩ ⟨Nat.lt_trans small (by decide), fun high => ?_⟩ (congrArg (Option.map _) found)
      exact absurd high (Nat.not_le.mpr small)
    rcases here.returns (by omega) with first | second
    · exact back (by decide) first
    · exact back (by decide) second

/-- `RUN` jumps to `0xB4`. -/
theorem step_run (run : s.spot.pos = runIndex) :
    Soc.step o (some (s.soc 0)) () = some ⟨0xB4, s.spot.x, s.map.wait 7, s.cycle + 7⟩ := by
  have pc : (s.soc 0).pc = 0x6C := by rw [Task.soc, run]; rfl
  have fetched : (s.soc 0).fetch o = some (.jal 0 72) := by
    rw [Soc.fetch, word_rom (by rw [run]; decide), run]
    decide
  have stall : (s.soc 0).fetchStall = 0 := by
    have place : (s.soc 0).map.place (s.soc 0).fetchAccess.bus.addr = .rom := by
      change (s.soc 0).map.place (s.soc 0).pc = .rom
      rw [pc]
      exact if_pos (by decide)
    rw [Soc.fetchStall, MemoryMap.stall, MemoryMap.bits, place]
    rfl
  rw [Soc.step, Option.bind_some, fetched, Option.map_some, Soc.exec]
  refine congrArg some ((Soc.mk.injEq ..).mpr ⟨?_, rfl, ?_, ?_⟩)
  · change (((s.soc 0).pc.setWidth 32 + 72).setWidth 8 : BitVec 8) = 0xB4
    rw [pc]
    decide
  · change ((s.map.wait (5 + (s.soc 0).fetchStall + 0)).wait 1).wait 1 = s.map.wait 7
    rw [stall, ← MemoryMap.wait_add, ← MemoryMap.wait_add]
  · change s.cycle + 6 + (s.soc 0).fetchStall + 0 + 1 = s.cycle + 7
    rw [stall]

end Rom

/-! ## From reset -/

open Board (socRun socRun_state topRun outside)

/-- The board boots as the script has it.  From reset, whatever happens on the pins, the script never gets
stuck before it comes to `RUN`; as long as it has not been there the board does what the script says, with
the same registers, memory map, stores and cycles; and from `RUN` it goes to `0xB4`, seven cycles later and
with everything else but the timer as it was. -/
theorem boots_as_written (r : Run Board.step) (b : Board) (reset : r.state 0 = b.reset) (n : Nat) :
    let p := ((r.state 0).task 0 0).run (outside r) 0 calls
    (∀ k s, k < n → p.state k = some s → s.spot.pos ≠ runIndex) →
      ∃ s, p.state n = some s ∧ s.spot.pos < 44 ∧ Board.Follows r 0 calls 0 p n s ∧
        (s.spot.pos = runIndex → Top.begins (topRun r) 0 (n + 1) = s.cycle + 7 ∧
          (r.state (s.cycle + 7)).soc (s.cycle + 7) = ⟨0xB4, s.spot.x, s.map.wait 7, s.cycle + 7⟩) := by
  intro p before
  have start : Board.Ready (r.state 0) := reset ▸ Board.ready_reset b
  have pc : (r.state 0).core.pc = (address 0 0).setWidth 8 := by rw [reset]; rfl
  have low : ∀ k, k < (methods calls).length → (address 0 k).toNat < 256 := by decide
  have goes_on (m : Nat) (upto : m ≤ n) : ∃ s, p.state m = some s ∧ InScript s.spot := by
    induction m with
    | zero => exact ⟨_, rfl, (by decide : 0 < 44), fun high : 28 ≤ 0 => absurd high (by decide)⟩
    | succ m ih =>
        obtain ⟨s, here, inside⟩ := ih (by omega)
        rw [p.edge, here]
        exact inside.next (before m s upto here)
  have shown (k : Nat) (s : Task) (within : k < n) (there : p.state k = some s) : s.Shown (outside r) 0 calls := by
    obtain ⟨s', here, inside⟩ := goes_on k within.le
    cases there.symm.trans here
    exact shown_rom inside.inside (before k s within there)
  obtain ⟨s, reached, inside⟩ := goes_on n le_rfl
  have last (stops : (methods calls)[s.spot.pos]? = some .ebreak) : s.Shown (outside r) 0 calls :=
    shown_rom inside.inside fun run => by rw [run] at stops; cases stops
  refine ⟨s, reached, inside.inside, Board.follows inRange_calls low pc reached shown last start, fun run => ?_⟩
  have there := (Board.task_socRun inRange_calls low pc reached shown).1
  have next : (socRun r 0).state (n + 1) = some ⟨0xB4, s.spot.x, s.map.wait 7, s.cycle + 7⟩ := by
    rw [(socRun r 0).edge, there]
    exact step_run run
  obtain ⟨begins, -, same⟩ := socRun_state start next
  exact ⟨begins, same⟩

/-- The instruction machine has come to an instruction of the script in cycle `u`, or by then to `0xB4`. -/
def Boots (r : Run Board.step) (u : Nat) : Prop :=
  ∃ n s, (socRun r 0).state n = some s ∧
    ((∃ q : Task, InScript q.spot ∧ s = q.soc 0 ∧ s.cycle = u) ∨ s.pc = 0xB4 ∧ s.cycle ≤ u)

section Boots

variable {r : Run Board.step} {b : Board} (reset : r.state 0 = b.reset)
include reset

theorem Boots.next {u : Nat} (boots : Boots r u) : Boots r (Top.next (topRun r) u) := by
  have start : Board.Ready (r.state 0) := reset ▸ Board.ready_reset b
  have low : ∀ k, k < (methods calls).length → (address 0 k).toNat < 256 := by decide
  obtain ⟨n, s, reached, ⟨q, inside, rfl, now⟩ | ⟨entered, upto⟩⟩ := boots
  · have begins := (socRun_state start reached).1
    have later {s' : Soc} (done : Soc.step (outside r) (some (q.soc 0)) () = some s') :
        (socRun r 0).state (n + 1) = some s' ∧ s'.cycle = Top.next (topRun r) u := by
      have next : (socRun r 0).state (n + 1) = some s' := by
        rw [(socRun r 0).edge, reached]
        exact done
      refine ⟨next, ?_⟩
      rw [← (socRun_state start next).1, Top.begins, begins, now]
    by_cases run : q.spot.pos = runIndex
    · obtain ⟨next, cycle⟩ := later (step_run run)
      exact ⟨n + 1, _, next, .inr ⟨rfl, cycle.le⟩⟩
    · obtain ⟨q', done, inside'⟩ := inside.next (o := outside r) run
      obtain ⟨next, cycle⟩ := later (Task.step_soc inRange_calls low (shown_rom inside.inside run) done).1
      exact ⟨n + 1, _, next, .inl ⟨q', inside', rfl, cycle⟩⟩
  · exact ⟨n, s, reached, .inr ⟨entered, upto.trans (Top.lt_next (topRun r) u).le⟩⟩

/-- A board that has come to `0xB4` straight from the ROM has gone through states of the instruction machine. -/
theorem socRun_enters {t : Nat} (here : (r.state t).core.state = .fetch) (pc : (r.state t).core.pc = 0xB4)
    (rom : ∀ u, u < t → (r.state u).core.pc.toNat < 176) :
    ∃ n, (socRun r 0).state n = some ((r.state t).soc t) := by
  have start : Board.Ready (r.state 0) := reset ▸ Board.ready_reset b
  have first : Boots r 0 := ⟨0, _, rfl, .inl ⟨(r.state 0).task 0 0,
    ⟨(by decide : 0 < 44), fun high : 28 ≤ 0 => absurd high (by decide)⟩, by rw [reset]; rfl, rfl⟩⟩
  obtain ⟨-, n, s, reached, ⟨q, inside, rfl, now⟩ | ⟨entered, upto⟩⟩ :=
    Top.fetch_induction (topRun r) start.boundary first (fun _ _ _ => Boots.next reset) here
  · -- in the script the program counter is below 176
    have same := congrArg Soc.pc (socRun_state start reached).2.2
    rw [now] at same
    have small := inside.inside
    have addr := Asm.toNat_address 0 q.spot.pos le_rfl (by omega)
    have found : 180 = ((address 0 q.spot.pos).setWidth 8).toNat := congrArg BitVec.toNat (pc.symm.trans same)
    rw [BitVec.toNat_setWidth] at found
    omega
  · have same := (socRun_state start reached).2.2
    rcases Nat.eq_or_lt_of_le upto with now | early
    · exact ⟨n, by rw [reached, ← now, same]⟩
    · have below := rom _ early
      rw [show (r.state s.cycle).core.pc = 0xB4 from (congrArg Soc.pc same).trans entered] at below
      exact absurd below (by decide)

end Boots

/-- The self-test passes on a board with PSRAM, and takes 10286 cycles to `MAIN_LOOP`. -/
theorem boots_as_written_selftest : (Board.zeroedRun.state 10286).core.pc = 0x1C := by
  have positions : ∀ k, k < 7 → ((((Board.zeroedRun.state 0).task 0 0).run (outside Board.zeroedRun) 0 calls).state
      k).map (fun s => s.spot.pos) = [0, 1, 2, 3, 4, 6, 7][k]? := by decide +kernel
  have cycle : ((((Board.zeroedRun.state 0).task 0 0).run (outside Board.zeroedRun) 0 calls).state 6).map
      Task.cycle = some 10286 := by decide +kernel
  obtain ⟨s, reached, -, follows, -⟩ := boots_as_written Board.zeroedRun Board.zeroed rfl 6 fun k s within there run => by
    have at_k := positions k (by omega)
    rw [there, Option.map_some, run] at at_k
    interval_cases k <;> cases at_k
  have pos := positions 6 (by decide)
  rw [reached] at pos cycle
  have pos : s.spot.pos = 7 := Option.some.inj pos
  have there : (Board.zeroedRun.state s.cycle).core.pc = (address 0 s.spot.pos).setWidth 8 :=
    congrArg Soc.pc follows.there
  rw [Option.some.inj cycle, pos] at there
  exact there

end Boot

end AgilA32
