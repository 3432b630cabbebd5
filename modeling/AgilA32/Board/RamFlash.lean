import AgilA32.Board.Machine
import AgilA32.Top.Events

/-!
# Executing from flash and from RAM

The same 44-byte image, in on-chip RAM with `FLASH_MODE` clear (`FromRam`) or on a page of the flash
chip with `FLASH_MODE` set (`FromFlash`), gives the same instruction words at every `pc` of the window.
While a program stays in the window and its accesses are plain, both boards are therefore the same
`Machine`, instruction by instruction, at different speeds (`flash_as_ram`).
-/

namespace AgilA32

open AgilA32.Core (Access dataAccess isEbreak)
open Verilog (byteAt ofBytes)

/-! ## What an instruction shows -/

/-- A store to `LED_OUT`: the value. -/
def Top.ledWrite (s : Top) (i : TopIn) : Option (BitVec 8) :=
  (Top.stored s i).bind fun b =>
    if b.addr = 0xF0#8 then some (b.wdata.extractLsb' 0 8) else none

namespace Machine

/-- The `LED_OUT` stores of an instruction word. -/
def ledWrites (s : Machine) (w : BitVec 32) : List (BitVec 8) :=
  match dataAccess w s.x with
  | some (.write addr _ data) => if addr = 0xF0#8 then [data.extractLsb' 0 8] else []
  | _ => []

/-- How long a plain access takes. -/
def delay (s : Machine) (b : Bus) : Nat :=
  if b.valid && inExtPsram b.addr then
    2 + 2 * (Engine.halfPeriodFor s.qspiDivSel).toNat * (32 + 8 * sizeBytes b.size)
  else 0

theorem InMem.delay {s : Machine} {m : MemRegs} {σ : Settings} {b : Bus} (inMem : s.InMem m σ)
    (plain : b.Plain) : m.delay b = s.delay b := by
  unfold MemRegs.delay Machine.delay
  rw [plain.inExt]
  by_cases external : (b.valid && inExtPsram b.addr) = true
  · have chip := MemRegs.psram_chip (m := m) (Bool.and_eq_true .. ▸ external).2
    have bits := Request.bits_eq chip
    rw [if_pos external, if_pos external, Request.delay, ← bits, Request.dataBytes, if_neg chip,
      ← inMem.qspiDivSel]
    rfl
  · rw [if_neg external, if_neg external]

end Machine

namespace Board

open AgilA32.Top (BusShows begins dataBus dataCycle dataDelay fetchBus fetchDelay ledWrite next stored
  word)

section Instruction

variable {r : Clocked.Run Board.step} {t : Nat} (ready : Ready (r.state t))
include ready

theorem Ready.ledWrites (live : isEbreak (word (topRun r) t) = false) :
    (topRun r).observe ledWrite t (next (topRun r) t - t) =
      (r.state t).machine.ledWrites (word (topRun r) t) := by
  have shows := Top.dataBus_shows ready.at
  change BusShows _ (dataAccess _ (r.state t).core.regs) at shows
  rw [show ledWrite = fun s i => (stored s i).bind _ from rfl, (topRun r).observe_bind,
    ready.boundary.observe_stored live, Machine.ledWrites]
  change _ = match dataAccess (word (topRun r) t) (r.state t).core.regs with
    | some (.write addr _ data) => if addr = 0xF0#8 then [data.extractLsb' 0 8] else []
    | _ => []
  cases access : dataAccess (word (topRun r) t) (r.state t).core.regs with
  | none =>
      rw [access] at shows
      simp [Top.storedBy, shows.2]
  | some d =>
      rw [access] at shows
      cases d with
      | read addr size => simp [Top.storedBy, shows.2.1]
      | write addr size data =>
          rw [show dataBus (topRun r) t = _ from shows]
          by_cases led : addr = 0xF0#8 <;> simp [Top.storedBy, led]

/-- How long the data access of an instruction takes. -/
theorem Ready.dataDelay_eq
    (plain : ∀ d, dataAccess (word (topRun r) t) (r.state t).core.regs = some d → d.bus.Plain) :
    dataDelay (topRun r) t =
      match dataAccess (word (topRun r) t) (r.state t).core.regs with
      | some d => (r.state t).machine.delay d.bus
      | none => 0 := by
  have shows := Top.dataBus_shows ready.at
  change BusShows _ (dataAccess _ (r.state t).core.regs) at shows
  have here : (r.state t).machine.InMem (r.state t).mem.regs (r.state t).mem.settings :=
    ⟨rfl, rfl, rfl, rfl, rfl, rfl⟩
  change (r.state t).mem.regs.delay (dataBus (topRun r) t) = _
  cases access : dataAccess (word (topRun r) t) (r.state t).core.regs with
  | none =>
      rw [access] at shows
      exact MemRegs.delay_onchip (by rw [shows.1, Bool.false_and])
  | some d =>
      have plain := plain d access
      rw [access] at shows
      cases d with
      | read addr size =>
          obtain ⟨valid, we, hasAddr, hasSize⟩ := shows
          rw [here.delay (plain.congr hasAddr hasSize we)]
          simp only [Machine.delay, valid, hasAddr, hasSize, Access.bus]
          rfl
      | write addr size data =>
          rw [show dataBus (topRun r) t = _ from shows]
          exact here.delay plain

/-- `EBREAK` leaves the machine as it is, for good, and stores nothing. -/
theorem Ready.parked (stop : isEbreak (word (topRun r) t) = true) (k : Nat) :
    (r.state (t + 4 + fetchDelay (topRun r) t + k)).machine = (r.state t).machine ∧
      (r.state (t + 4 + fetchDelay (topRun r) t + k)).core.halted = true ∧
      (topRun r).observe ledWrite t (4 + fetchDelay (topRun r) t + k) = [] := by
  obtain ⟨core, regs, settings, -⟩ := ready.boundary.parked stop k
  change (r.state (t + 4 + fetchDelay (topRun r) t + k)).core = _ at core
  change (r.state (t + 4 + fetchDelay (topRun r) t + k)).mem.regs = (r.state t).mem.regs at regs
  change (r.state (t + 4 + fetchDelay (topRun r) t + k)).mem.settings = (r.state t).mem.settings
    at settings
  have psram : (r.state (t + 4 + fetchDelay (topRun r) t + k)).machine.psram =
      (r.state t).machine.psram := by
    have mem (bank : Bool) := (wired r (if bank then 3#2 else 2#2) (by cases bank <;> decide)).parked
      ready.boundary stop (ready.idle _ (by cases bank <;> decide)) k
    rw [← psramAt_eq, ← psramAt_eq]
    unfold Mem.psramAt
    rw [show ((Top.memRun (topRun r)).state (t + 4 + fetchDelay (topRun r) t + k)).regs =
      ((Top.memRun (topRun r)).state t).regs from regs]
    simp only [mem]
  refine ⟨?_, by rw [core]; rfl, (topRun r).observe_eq_nil _ fun j before => ?_⟩
  · change (r.state (t + 4 + fetchDelay (topRun r) t + k)).memBoard.psram =
      (r.state t).memBoard.psram at psram
    unfold machine
    rw [core, regs, settings, psram]
    rfl
  · have quiet : ((topRun r).state (t + j)).core.memWe = false := by
      rcases Nat.eq_zero_or_pos j with rfl | later
      · exact ready.boundary.we
      rcases Nat.lt_or_ge j (2 + fetchDelay (topRun r) t) with fetching | past
      · rw [show t + j = t + 1 + (j - 1) by omega, ready.boundary.fetching_core (by omega)]
        rfl
      rcases Nat.lt_or_ge j (4 + fetchDelay (topRun r) t) with early | late
      · rw [show t + j = t + 2 + fetchDelay (topRun r) t + (j - 2 - fetchDelay (topRun r) t) by omega]
        exact (ready.boundary.between_core (by omega) (.inr (by omega))).2.1
      · rw [show t + j = t + 4 + fetchDelay (topRun r) t + (j - 4 - fetchDelay (topRun r) t) by omega,
          (ready.boundary.parked stop _).1]
        rfl
    simp [ledWrite, stored, quiet]

end Instruction

/-! ## The two boards -/

/-- `pc` is a word address of the window. -/
def CodePc (pc : BitVec 8) : Prop := pc.toNat % 4 = 0 ∧ 0xB4 ≤ pc.toNat ∧ pc.toNat ≤ 0xDF

instance (pc : BitVec 8) : Decidable (CodePc pc) :=
  inferInstanceAs (Decidable (pc.toNat % 4 = 0 ∧ 0xB4 ≤ pc.toNat ∧ pc.toNat ≤ 0xDF))

/-- The word of the image at `pc`. -/
def imageWord (image : Nat → BitVec 8) (pc : BitVec 8) : BitVec 32 :=
  ofBytes fun i => image (pc.toNat - 0xB4 + i)

/-- The image is in on-chip RAM, and code is fetched from there. -/
structure FromRam (s : Board) (image : Nat → BitVec 8) : Prop where
  ready : Ready s
  mode : s.mem.regs.flashMode = false
  code : ∀ k, k < 44 → s.mem.regs.ramByte (4 + k) = image k

/-- The image is page `p` of the flash chip, and code is fetched from there. -/
structure FromFlash (s : Board) (image : Nat → BitVec 8) (p : BitVec 8) : Prop where
  ready : Ready s
  mode : s.mem.regs.flashMode = true
  page : s.mem.regs.flashPage = p
  code : ∀ k, k < 44 → s.chips.flash.mem (BitVec.ofNat 14 (44 * p.toNat + k)) = image k

/-- The instruction that begins in cycle `t` is in the window, and its data access is plain. -/
structure Confined (r : Clocked.Run Board.step) (t : Nat) : Prop where
  pc : CodePc (r.state t).core.pc
  plain : ∀ d, dataAccess (word (topRun r) t) (r.state t).core.regs = some d → d.bus.Plain

section Code

variable {r : Clocked.Run Board.step} {t : Nat} {image : Nat → BitVec 8} {p : BitVec 8}

theorem FromRam.word (start : FromRam (r.state t) image) (inside : CodePc (r.state t).core.pc) :
    fetchDelay (topRun r) t = 0 ∧
      word (topRun r) t = imageWord image (r.state t).core.pc := by
  obtain ⟨aligned, above, below⟩ := inside
  obtain ⟨delay, bytes⟩ := start.ready.at.ram_word start.mode
    (show 180 ≤ (r.state t).core.pc.toNat by omega)
    (show (r.state t).core.pc.toNat + 3 < 224 by omega)
  refine ⟨delay, Verilog.eq_of_byteAt (c := 4) rfl fun i within => ?_⟩
  rw [bytes i within, imageWord, Verilog.byteAt_ofBytes _ within,
    ← start.code _ (show (r.state t).core.pc.toNat - 0xB4 + i < 44 by omega)]
  exact congrArg (r.state t).mem.regs.ramByte
    (show (r.state t).core.pc.toNat - 176 + i = 4 + ((r.state t).core.pc.toNat - 0xB4 + i) by omega)

theorem FromFlash.word (start : FromFlash (r.state t) image p)
    (inside : CodePc (r.state t).core.pc) :
    0 < fetchDelay (topRun r) t ∧
      word (topRun r) t = imageWord image (r.state t).core.pc := by
  obtain ⟨aligned, above, below⟩ := inside
  obtain ⟨delay, -, word⟩ := start.ready.at.flash_word (wired r 1#2 (by decide))
    (start.ready.idle 1#2 (by decide)) start.mode
    (show 180 ≤ (r.state t).core.pc.toNat by omega)
    (show (r.state t).core.pc.toNat < 224 by omega)
  constructor
  · rw [delay, Request.delay]
    omega
  have flash : ((chipRun r 1#2).state t).mem = (r.state t).chips.flash.mem := rfl
  simp only [arch, flash] at word
  rw [word, start.page]
  refine Verilog.eq_of_byteAt (c := 4) rfl fun i within => ?_
  rw [SpiRam.wordAt, Verilog.byteAt_ofBytes _ within, imageWord, Verilog.byteAt_ofBytes _ within,
    ← start.code _ (show (r.state t).core.pc.toNat - 0xB4 + i < 44 by omega), Nat.add_assoc]

theorem FromRam.next (start : FromRam (r.state t) image) (confined : Confined r t)
    (live : isEbreak (Top.word (topRun r) t) = false) :
    FromRam (r.state (next (topRun r) t)) image := by
  obtain ⟨mode, -, window, -⟩ := start.ready.frame_next live confined.plain
  exact ⟨start.ready.after live, mode.trans start.mode, fun k within =>
    (window (4 + k) (by omega) (by omega)).trans (start.code k within)⟩

theorem FromFlash.next (start : FromFlash (r.state t) image p) (confined : Confined r t)
    (live : isEbreak (Top.word (topRun r) t) = false) :
    FromFlash (r.state (next (topRun r) t)) image p := by
  obtain ⟨mode, page, -, flash⟩ := start.ready.frame_next live confined.plain
  exact ⟨start.ready.after live, mode.trans start.mode, page.trans start.page, fun k within => by
    rw [flash]
    exact start.code k within⟩

end Code

/-! ## The simulation -/

/-- The two boards with the same image, about to execute the same instruction of the same machine. -/
structure Twins (image : Nat → BitVec 8) (p : BitVec 8) (a b : Board) : Prop where
  ram : FromRam a image
  flash : FromFlash b image p
  same : a.machine = b.machine

section Runs

variable {image : Nat → BitVec 8} {p : BitVec 8} {a b : Clocked.Run Board.step} {s t : Nat}

theorem Twins.word (twins : Twins image p (a.state s) (b.state t))
    (inside : CodePc (a.state s).core.pc) : word (topRun a) s = word (topRun b) t := by
  have pc : (a.state s).core.pc = (b.state t).core.pc := congrArg Machine.pc twins.same
  rw [(twins.ram.word inside).2, (twins.flash.word (pc ▸ inside)).2, pc]

/-- After one instruction the two boards are twins again, with the same writes to the LEDs; the one that
fetches from flash takes longer. -/
theorem Twins.next (twins : Twins image p (a.state s) (b.state t)) (confined : Confined a s)
    (live : isEbreak (Top.word (topRun a) s) = false) :
    Twins image p (a.state (next (topRun a) s)) (b.state (next (topRun b) t)) ∧
      (topRun a).observe ledWrite s (next (topRun a) s - s) =
        (topRun b).observe ledWrite t (next (topRun b) t - t) ∧
      next (topRun a) s - s < next (topRun b) t - t := by
  have pc : (a.state s).core.pc = (b.state t).core.pc := congrArg Machine.pc twins.same
  have x : (a.state s).core.regs = (b.state t).core.regs := congrArg Machine.x twins.same
  have word := twins.word confined.pc
  have confined' : Confined b t := ⟨pc ▸ confined.pc, by rw [← word, ← x]; exact confined.plain⟩
  have live' : isEbreak (Top.word (topRun b) t) = false := word ▸ live
  refine ⟨⟨twins.ram.next confined live, twins.flash.next confined' live', ?_⟩, ?_, ?_⟩
  · rw [twins.ram.ready.machine_next live confined.plain,
      twins.flash.ready.machine_next live' confined'.plain, twins.same, word]
  · rw [twins.ram.ready.ledWrites live, twins.flash.ready.ledWrites live', twins.same, word]
  · have slow := (twins.flash.word confined'.pc).1
    have delay := twins.ram.ready.dataDelay_eq confined.plain
    rw [word, x, twins.same, ← twins.flash.ready.dataDelay_eq confined'.plain] at delay
    unfold Top.next dataCycle
    rw [(twins.ram.word confined.pc).1, delay]
    omega

/-- Any number of instructions on both boards. -/
theorem Twins.begins (twins : Twins image p (a.state s) (b.state t)) (n : Nat)
    (confined : ∀ m, m < n → Confined a (Top.begins (topRun a) s m))
    (live : ∀ m, m < n → isEbreak (Top.word (topRun a) (Top.begins (topRun a) s m)) = false) :
    Twins image p (a.state (Top.begins (topRun a) s n)) (b.state (Top.begins (topRun b) t n)) ∧
      (topRun a).observe ledWrite s (Top.begins (topRun a) s n - s) =
        (topRun b).observe ledWrite t (Top.begins (topRun b) t n - t) ∧
      (0 < n → Top.begins (topRun a) s n - s < Top.begins (topRun b) t n - t) := by
  induction n with
  | zero => exact ⟨twins, by simp [Top.begins], fun h => absurd h (Nat.lt_irrefl 0)⟩
  | succ n ih =>
      obtain ⟨here, writes, slower⟩ := ih (fun m before => confined m (by omega))
        fun m before => live m (by omega)
      obtain ⟨after, writes', slower'⟩ := here.next (confined n (Nat.lt_succ_self n))
        (live n (Nat.lt_succ_self n))
      have startA := Top.le_begins (topRun a) s n
      have startB := Top.le_begins (topRun b) t n
      have laterA := Top.lt_next (topRun a) (Top.begins (topRun a) s n)
      have laterB := Top.lt_next (topRun b) (Top.begins (topRun b) t n)
      simp only [Top.begins]
      refine ⟨after, ?_, fun _ => ?_⟩
      · rw [(topRun a).observe_cut _ startA laterA.le, (topRun b).observe_cut _ startB laterB.le,
          writes, writes']
      · rcases Nat.eq_zero_or_pos n with rfl | some
        · simp only [Top.begins] at slower' ⊢
          exact slower'
        · have := slower some
          omega

/-- Executing from flash equals executing from RAM.  From the same machine, with the same image in RAM
on board `a` and on page `p` of the flash chip on board `b`: after any number `n` of instructions that
`a` has executed in the window, with plain accesses, the machines are the same and so are the `LED_OUT`
stores, although `b` has taken longer; and the next instruction in the window is the same, so that both
halt at the same one, and then stay as they are. -/
theorem flash_as_ram (image : Nat → BitVec 8) (p : BitVec 8) (a b : Clocked.Run Board.step)
    (s t : Nat) (ram : FromRam (a.state s) image) (flash : FromFlash (b.state t) image p)
    (same : (a.state s).machine = (b.state t).machine) (n : Nat)
    (confined : ∀ m, m < n → Confined a (Top.begins (topRun a) s m))
    (live : ∀ m, m < n → isEbreak (Top.word (topRun a) (Top.begins (topRun a) s m)) = false)
    {u v : Nat} (atU : u = Top.begins (topRun a) s n) (atV : v = Top.begins (topRun b) t n) :
    (a.state u).machine = (b.state v).machine ∧
      (topRun a).observe ledWrite s (u - s) = (topRun b).observe ledWrite t (v - t) ∧
      (0 < n → u - s < v - t) ∧
      (CodePc (a.state u).core.pc →
        Top.word (topRun a) u = Top.word (topRun b) v ∧
        (isEbreak (Top.word (topRun a) u) = true → ∀ k l,
          (a.state (u + 4 + fetchDelay (topRun a) u + k)).machine =
            (b.state (v + 4 + fetchDelay (topRun b) v + l)).machine ∧
          (a.state (u + 4 + fetchDelay (topRun a) u + k)).core.halted = true ∧
          (b.state (v + 4 + fetchDelay (topRun b) v + l)).core.halted = true ∧
          (topRun a).observe ledWrite u (4 + fetchDelay (topRun a) u + k) = [] ∧
          (topRun b).observe ledWrite v (4 + fetchDelay (topRun b) v + l) = [])) := by
  have start : Twins image p (a.state s) (b.state t) := ⟨ram, flash, same⟩
  obtain ⟨twins, writes, slower⟩ := start.begins n confined live
  rw [← atU, ← atV] at twins writes slower
  refine ⟨twins.same, writes, slower, fun inside => ?_⟩
  have word := twins.word inside
  refine ⟨word, fun stop k l => ?_⟩
  obtain ⟨machineA, haltedA, silentA⟩ := twins.ram.ready.parked stop k
  obtain ⟨machineB, haltedB, silentB⟩ := twins.flash.ready.parked (word ▸ stop) l
  exact ⟨by rw [machineA, machineB, twins.same], haltedA, haltedB, silentA, silentB⟩

end Runs

/-! ## A program of one instruction -/

/-- The bytes of `addi x1, x0, 5`. -/
def addiImage (k : Nat) : BitVec 8 := [0x93#8, 0x00#8, 0x50#8, 0x00#8].getD k 0

/-- The board at the entry of the window, with these registers of the memory and this flash chip. -/
def entered (regs : MemRegs) (flash : SpiRam) : Board where
  core := { Core.zeroed with pc := 0xB4 }
  mem := { Top.zeroed.mem.reset with regs := regs }
  chips := { zeroedChips with flash := flash }

/-- The image in RAM. -/
def ramRegs : MemRegs :=
  { Top.zeroed.mem.regs with ramWords := (Vector.replicate 12 0).set 1 0x00500093 }

/-- Fetching from page 3 of flash. -/
def flashRegs : MemRegs := { Top.zeroed.mem.regs with flashMode := true, flashPage := 3 }

/-- The image on page 3. -/
def addiFlash : SpiRam :=
  { SpiRam.zeroed with mem := fun l => if 132 ≤ l.toNat then addiImage (l.toNat - 132) else 0 }

def enteredRun (regs : MemRegs) (flash : SpiRam) : Clocked.Run Board.step :=
  .ofInputs Board.step (entered regs flash) fun _ => { uiIn := 0, uioIn := 0, undef := 0 }

theorem ready_entered (regs : MemRegs) (flash : SpiRam) (idle : flash.Idle) :
    Ready (entered regs flash) where
  boundary := ⟨rfl, rfl, rfl, ⟨rfl, rfl, rfl, rfl, rfl, rfl⟩⟩
  idle d chip := by
    rcases chip_cases d chip with rfl | rfl | rfl
    · exact idle
    · exact ⟨rfl, rfl, rfl, rfl⟩
    · exact ⟨rfl, rfl, rfl, rfl⟩

theorem entered_psram (regs : MemRegs) (flash : SpiRam) :
    (entered regs flash).memBoard.psram = ⟨regs.psramBank, fun _ _ => 0⟩ := by
  unfold MemBoard.psram
  simp only [Psram.mk.injEq]
  refine ⟨rfl, funext fun bank => ?_⟩
  cases bank <;> rfl

/-- Both machines have 5 in `x1` after it. -/
theorem flash_as_ram_addi :
    ((enteredRun ramRegs .zeroed).state
        (begins (topRun (enteredRun ramRegs .zeroed)) 0 1)).machine =
      ((enteredRun flashRegs addiFlash).state
        (begins (topRun (enteredRun flashRegs addiFlash)) 0 1)).machine ∧
    ((enteredRun ramRegs .zeroed).state
      (begins (topRun (enteredRun ramRegs .zeroed)) 0 1)).core.regs 1 = 5 ∧
    ((enteredRun flashRegs addiFlash).state
      (begins (topRun (enteredRun flashRegs addiFlash)) 0 1)).core.regs 1 = 5 := by
  have ram : FromRam ((enteredRun ramRegs .zeroed).state 0) addiImage :=
    ⟨ready_entered _ _ ⟨rfl, rfl, rfl, rfl⟩, rfl, by decide⟩
  have flash : FromFlash ((enteredRun flashRegs addiFlash).state 0) addiImage 3 :=
    ⟨ready_entered _ _ ⟨rfl, rfl, rfl, rfl⟩, rfl, rfl, by decide⟩
  have same : ((enteredRun ramRegs .zeroed).state 0).machine =
      ((enteredRun flashRegs addiFlash).state 0).machine := by
    change machine (entered ramRegs .zeroed) = machine (entered flashRegs addiFlash)
    unfold machine
    rw [entered_psram, entered_psram]
    rfl
  have inside : CodePc ((enteredRun ramRegs .zeroed).state 0).core.pc := by decide
  have fetched : word (topRun (enteredRun ramRegs .zeroed)) 0 = 0x00500093#32 :=
    (ram.word inside).2.trans (by decide)
  have noAccess : dataAccess 0x00500093#32 ((enteredRun ramRegs .zeroed).state 0).core.regs = none := by
    decide
  have decoded : Rv32i.decode (word (topRun (enteredRun ramRegs .zeroed)) 0) = some (.aluImm .add 1 0 5) := by
    rw [fetched]
    decide
  have five : ((enteredRun ramRegs .zeroed).state
      (begins (topRun (enteredRun ramRegs .zeroed)) 0 1)).core.regs 1 = 5 :=
    congrFun (ram.ready.at.plain decoded (by simp) rfl).regs 1
  have confined (m : Nat) (before : m < 1) :
      Confined (enteredRun ramRegs .zeroed) (begins (topRun (enteredRun ramRegs .zeroed)) 0 m) := by
    obtain rfl : m = 0 := by omega
    refine ⟨inside, fun d access => ?_⟩
    change dataAccess (word (topRun (enteredRun ramRegs .zeroed)) 0) _ = some d at access
    rw [fetched] at access
    exact absurd (noAccess.symm.trans access) (by simp)
  have live (m : Nat) (before : m < 1) : isEbreak (word (topRun (enteredRun ramRegs .zeroed))
      (begins (topRun (enteredRun ramRegs .zeroed)) 0 m)) = false := by
    obtain rfl : m = 0 := by omega
    change isEbreak (word (topRun (enteredRun ramRegs .zeroed)) 0) = false
    rw [fetched]
    decide
  have alike := (flash_as_ram addiImage 3 _ _ 0 0 ram flash same 1 confined live rfl rfl).1
  have regs {s s' : Board} (alike : s.machine = s'.machine) : s.core.regs = s'.core.regs :=
    congrArg Machine.x alike
  exact ⟨alike, five, by rw [← regs alike, five]⟩

end Board

end AgilA32
