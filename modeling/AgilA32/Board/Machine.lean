import AgilA32.Board.Instruction

/-!
# The machine a program sees

`Machine` is what a program can observe of the board wherever its own code is stored, and
`Machine.exec` what an instruction word does to it.  While a program leaves the code window and the
mode registers alone, and does not read what depends on time (`Bus.Plain`), the board is this machine,
with `FLASH_MODE` clear or set (`Board.Ready.step`).
-/

namespace AgilA32

open AgilA32.Core (Access dataAccess isEbreak readReg)
open Verilog (byteAt ofBytes)

/-! ## Plain accesses -/

/-- The access touches no byte of `0xB4`-`0xDF`, is not to `FLASH_MODE` or `FLASH_PAGE`, reads neither
`GPIO_IN` nor the counter and the overflow flag of the timer, and is no store to `SPI_DATA`. -/
structure Bus.Plain (b : Bus) : Prop where
  outside : ∀ j, j < sizeBytes b.size →
    ¬ (0xB4 ≤ (b.addr + BitVec.ofNat 8 j).toNat ∧ (b.addr + BitVec.ofNat 8 j).toNat ≤ 0xDF)
  mode : b.addr ≠ 0xF8#8
  page : b.addr ≠ 0xFC#8
  time : b.we = false → b.addr ≠ 0xF2#8 ∧ b.addr ≠ 0xF3#8 ∧ b.addr ≠ 0xF4#8 ∧ b.addr ≠ 0xF6#8
  spi : b.we = true → b.addr ≠ 0xFD#8

theorem sizeBytes_bounds (size : BitVec 2) : 0 < sizeBytes size ∧ sizeBytes size ≤ 4 := by
  unfold sizeBytes
  split <;> decide

namespace Bus.Plain

variable {b : Bus} (plain : b.Plain)
include plain

theorem first : ¬ (180 ≤ b.addr.toNat ∧ b.addr.toNat < 224) := by
  have outside := plain.outside 0 (sizeBytes_bounds b.size).1
  rw [show b.addr + BitVec.ofNat 8 0 = b.addr from BitVec.add_zero _] at outside
  omega

theorem inExtFlash (m : MemRegs) : m.inExtFlash b.addr = false := by
  have first := plain.first
  rw [Bool.eq_false_iff, ne_eq, MemRegs.inExtFlash, Bool.and_eq_true, inLoadRange_iff]
  omega

theorem inRam (m : MemRegs) : m.inRam b.addr = inRamRange b.addr := by
  rw [MemRegs.inRam, plain.inExtFlash, Bool.not_false, Bool.and_true]

/-- The bytes of an access to RAM are those of the scratch word. -/
theorem offset (ram : inRamRange b.addr = true) {j : Nat} (within : j < sizeBytes b.size) :
    ramOffset b.addr + j < 4 := by
  have bounds := inRamRange_iff.mp ram
  have first := plain.first
  have outside := plain.outside j within
  have small := (sizeBytes_bounds b.size).2
  rw [BitVec.toNat_add, BitVec.toNat_ofNat] at outside
  unfold ramOffset
  omega

theorem aligned (ram : inRamRange b.addr = true) : b.Aligned := by
  intro four
  have bounds := inRamRange_iff.mp ram
  have last := plain.offset ram (j := 3) (by omega)
  unfold ramOffset at last
  omega

theorem inExt (m : MemRegs) : m.inExt b = inExtPsram b.addr := by
  have spi : MemRegs.inSpiWrite b = false := by
    rw [Bool.eq_false_iff, ne_eq, MemRegs.inSpiWrite, Bool.and_eq_true, beq_iff_eq]
    exact fun h => plain.spi h.2 h.1
  rw [MemRegs.inExt, plain.inExtFlash, spi]
  simp

/-- What a plain access commits is its write. -/
theorem commit (m : MemRegs) (rx : BitVec 32) : m.commit b rx = if b.we then m.write b else m := by
  by_cases we : b.we = true
  · have spi : MemRegs.inSpiWrite b = false := by
      rw [MemRegs.inSpiWrite, we, Bool.and_true, beq_eq_false_iff_ne]
      exact plain.spi we
    rw [MemRegs.commit, MemRegs.step, spi, Bool.and_false]
    simp
  · rw [if_neg we, MemRegs.commit_read (by simpa using we)]

theorem congr {b' : Bus} (addr : b'.addr = b.addr) (size : b'.size = b.size) (we : b'.we = b.we) :
    b'.Plain := by
  obtain ⟨outside, mode, page, time, spi⟩ := plain
  rw [← addr] at outside mode page time spi
  rw [← size] at outside
  rw [← we] at time spi
  exact ⟨outside, mode, page, time, spi⟩

/-- A plain store leaves the code window and the mode registers alone. -/
theorem write_frame (m : MemRegs) :
    (m.write b).flashMode = m.flashMode ∧ (m.write b).flashPage = m.flashPage ∧
      ∀ k, 4 ≤ k → k < 48 → (m.write b).ramByte k = m.ramByte k := by
  refine ⟨?_, ?_, fun k above below => ?_⟩
  · rw [MemRegs.write_eq]
    exact if_neg plain.mode
  · rw [MemRegs.write_eq]
    exact if_neg plain.page
  · rw [MemRegs.write_byte (fun ram => plain.aligned (plain.inRam m ▸ ram)) below, if_neg]
    rintro ⟨ram, low, high⟩
    have := plain.offset (plain.inRam m ▸ ram) (j := k - ramOffset b.addr) (by omega)
    omega

end Bus.Plain

/-! ## The machine -/

structure Machine where
  pc : BitVec 8
  x : RegFile
  scratch : BitVec 32
  gpioOut : BitVec 8
  qspiDivSel : BitVec 2
  spiLastRx : BitVec 8
  settings : Settings
  psram : Psram

namespace Machine

/-- A store: to the scratch word, a register, or the PSRAM window. -/
def store (s : Machine) (b : Bus) : Machine :=
  { s with
    scratch := ofBytes fun k =>
      if inRamRange b.addr = true ∧ ramOffset b.addr ≤ k ∧ k < ramOffset b.addr + sizeBytes b.size then
        byteAt b.wdata (k - ramOffset b.addr)
      else byteAt s.scratch k
    gpioOut := if b.addr = 0xF0#8 then b.wdata.extractLsb' 0 8 else s.gpioOut
    qspiDivSel := if b.addr = 0xFB#8 then b.wdata.extractLsb' 0 2 else s.qspiDivSel
    settings := s.settings.write b
    psram := s.psram.access b }

/-- What a load returns, as far as its size goes. -/
def load (s : Machine) (b : Bus) : BitVec 32 :=
  if inRom b.addr then romWord b.addr
  else if inRamRange b.addr then s.scratch >>> (8 * ramOffset b.addr)
  else if inExtPsram b.addr then s.psram.load b
  else if b.addr = 0xF0#8 then s.gpioOut.setWidth 32
  else if b.addr = 0xF1#8 then (BitVec.ofBool s.psram.bank).setWidth 32
  else if b.addr = 0xF5#8 then (BitVec.ofBool s.settings.timerEnable).setWidth 32
  else if b.addr = 0xF7#8 then s.settings.pwmDuty.setWidth 32
  else if b.addr = 0xF9#8 then (BitVec.ofBool s.settings.pwmEnable).setWidth 32
  else if b.addr = 0xFA#8 then s.settings.pinMux.setWidth 32
  else if b.addr = 0xFB#8 then s.qspiDivSel.setWidth 32
  else if b.addr = 0xFD#8 then s.spiLastRx.setWidth 32
  else 0

theorem load_congr (s : Machine) {b b' : Bus} (addr : b.addr = b'.addr) (size : b.size = b'.size) :
    s.load b = s.load b' := by
  unfold load
  rw [addr, s.psram.load_congr addr size]

/-- The memory holds what the machine sees of it. -/
structure InMem (s : Machine) (m : MemRegs) (σ : Settings) : Prop where
  scratch : m.ramWord 0 0 = s.scratch
  gpioOut : m.gpioOut = s.gpioOut
  psramBank : m.psramBank = s.psram.bank
  qspiDivSel : m.qspiDivSel = s.qspiDivSel
  spiLastRx : m.spiLastRx = s.spiLastRx
  settings : σ = s.settings

section InMem

variable {s : Machine} {m : Mem} {b : Bus}

/-- What the memory answers to a plain load from its own registers. -/
theorem InMem.rdata (inMem : s.InMem m.regs m.settings) (plain : b.Plain) (read : b.we = false)
    (onchip : inExtPsram b.addr = false) (gpioIn : BitVec 8) (undef : BitVec 32) {j : Nat}
    (within : j < sizeBytes b.size) :
    byteAt (m.rdata b.answered gpioIn undef) j = byteAt (s.load b) j := by
  have small := (sizeBytes_bounds b.size).2
  have noExt : m.regs.inExt b.answered = false := by
    rw [Bus.answered, MemRegs.inExt_read read, plain.inExt, onchip]
  have ram : m.regs.inRam b.answered.addr = inRamRange b.addr := plain.inRam m.regs
  rw [Mem.rdata, noExt, ram, Machine.load, onchip, if_neg Bool.false_ne_true,
    if_neg Bool.false_ne_true]
  change byteAt (if inRom b.addr then romWord b.addr
    else if inRamRange b.addr then m.regs.ramRead undef b.addr
    else _) j = _
  by_cases rom : inRom b.addr = true
  · rw [if_pos rom, if_pos rom]
  rw [if_neg rom, if_neg rom]
  by_cases inside : inRamRange b.addr = true
  · have offset := plain.offset inside within
    rw [if_pos inside, if_pos inside, m.regs.ramRead_byte undef inside (by omega) (by omega),
      Verilog.byteAt_ushiftRight, ← inMem.scratch, MemRegs.ramByte,
      show (ramOffset b.addr + j) / 4 = 0 by omega, Nat.mod_eq_of_lt offset]
    rfl
  rw [if_neg inside, if_neg inside]
  obtain ⟨lo, hi, gpio, flag⟩ := plain.time read
  have enable : m.timer.timerEnable = s.settings.timerEnable :=
    congrArg Settings.timerEnable inMem.settings
  have duty : m.pwm.pwmDuty = s.settings.pwmDuty := congrArg Settings.pwmDuty inMem.settings
  have pwm : m.pwm.pwmEnable = s.settings.pwmEnable := congrArg Settings.pwmEnable inMem.settings
  have mux : m.pwm.pinMux = s.settings.pinMux := congrArg Settings.pinMux inMem.settings
  simp only [Bus.answered, lo, hi, gpio, flag, plain.page, if_false, inMem.gpioOut, inMem.psramBank,
    inMem.qspiDivSel, inMem.spiLastRx, enable, duty, pwm, mux]

/-- A plain store changes the memory as it does the machine. -/
theorem InMem.write (inMem : s.InMem m.regs m.settings) (plain : b.Plain) (write : b.we = true) :
    (s.store b).InMem (m.regs.write b) (m.settings.write b) where
  scratch := by
    refine Verilog.eq_of_byteAt (c := 4) rfl fun k within => ?_
    have byte := MemRegs.write_byte (m := m.regs) (b := b)
      (fun ram => plain.aligned (plain.inRam m.regs ▸ ram)) (k := k) (by omega)
    have low (m : MemRegs) : m.ramByte k = byteAt (m.ramWord 0 0) k := by
      rw [MemRegs.ramByte, show k / 4 = 0 by omega, Nat.mod_eq_of_lt within]
      rfl
    rw [low, low, plain.inRam, inMem.scratch] at byte
    rw [byte, Machine.store, Verilog.byteAt_ofBytes _ within]
  gpioOut := by rw [MemRegs.write_eq, Machine.store, inMem.gpioOut]
  psramBank := by
    have bank := MemRegs.commit_psramBank m.regs b 0
    rw [plain.commit, if_pos write] at bank
    rw [bank, Machine.store, Psram.access, inMem.psramBank]
    simp only [write, true_and, if_true]
    by_cases select : b.addr = 0xF1#8
    · rw [if_pos select, select, if_neg (by decide), if_pos rfl]
    · rw [if_neg select, if_neg select]
      split <;> rfl
  qspiDivSel := by rw [MemRegs.write_eq, Machine.store, inMem.qspiDivSel]
  spiLastRx := by rw [MemRegs.write_eq, Machine.store, inMem.spiLastRx]
  settings := by rw [Machine.store, inMem.settings]

end InMem

end Machine

/-- An access as it is put on the bus. -/
def Core.Access.bus : Access → Bus
  | .read addr size => { addr := addr, wdata := 0, size := size, we := false, valid := true }
  | .write addr size data => { addr := addr, wdata := data, size := size, we := true, valid := true }

namespace Machine

/-- The effect of an instruction's data access. -/
def access (s : Machine) : Option Access → Machine
  | some (.write addr size data) => s.store (Access.write addr size data).bus
  | _ => s

/-- The response to an instruction's data access. -/
def response (s : Machine) : Option Access → BitVec 32
  | some (.read addr size) => s.load (Access.read addr size).bus
  | _ => 0

/-- One instruction word. -/
def exec (s : Machine) (w : BitVec 32) : Machine :=
  { s.access (dataAccess w s.x) with
    pc := Core.nextPcOf w s.pc s.x
    x := Core.writeBack w s.pc (Core.aluY w s.x) (s.response (dataAccess w s.x)) s.x }

end Machine

namespace Core

variable {w v v' : BitVec 32}

theorem extractLsb'_congr {c : Nat} (same : ∀ j, j < c → byteAt v j = byteAt v' j) :
    v.extractLsb' 0 (8 * c) = v'.extractLsb' 0 (8 * c) := by
  refine Verilog.eq_of_byteAt (c := c) rfl fun j within => ?_
  rw [MemRegs.byteAt_low _ _ (by omega), MemRegs.byteAt_low _ _ (by omega), same j within]

/-- A load uses no more of the response than its size. -/
theorem loadValue_congr (same : ∀ j, j < sizeBytes (accessSize w) → byteAt v j = byteAt v' j) :
    loadValue w v = loadValue w v' := by
  have byte (h : 1 ≤ sizeBytes (accessSize w)) : v.extractLsb' 0 8 = v'.extractLsb' 0 8 :=
    extractLsb'_congr (c := 1) fun j within => same j (by omega)
  have half (h : 2 ≤ sizeBytes (accessSize w)) : v.extractLsb' 0 16 = v'.extractLsb' 0 16 :=
    extractLsb'_congr (c := 2) fun j within => same j (by omega)
  have word (h : 4 ≤ sizeBytes (accessSize w)) : v = v' :=
    Verilog.eq_of_byteAt (c := 4) rfl fun j within => same j (by omega)
  clear same
  unfold loadValue
  unfold accessSize at byte half word
  generalize funct3 w = f at *
  have codes : ∀ f : BitVec 3,
      f = 0 ∨ f = 1 ∨ f = 2 ∨ f = 3 ∨ f = 4 ∨ f = 5 ∨ f = 6 ∨ f = 7 := by decide
  rcases codes f with rfl | rfl | rfl | rfl | rfl | rfl | rfl | rfl
  · exact congrArg (BitVec.signExtend 32) (byte (by decide))
  · exact congrArg (BitVec.signExtend 32) (half (by decide))
  · exact word (by decide)
  · exact word (by decide)
  · exact congrArg (BitVec.setWidth 32) (byte (by decide))
  · exact congrArg (BitVec.setWidth 32) (half (by decide))
  · exact word (by decide)
  · exact word (by decide)

/-- Only a load writes back what memory returned. -/
theorem writeBack_congr (pc : BitVec 8) (y : BitVec 32) (regs : RegFile)
    (same : ∀ addr size, dataAccess w regs = some (.read addr size) →
      ∀ j, j < sizeBytes size → byteAt v j = byteAt v' j) :
    writeBack w pc y v regs = writeBack w pc y v' regs := by
  by_cases load : opcode w = .load
  · have value : loadValue w v = loadValue w v' :=
      loadValue_congr (same _ _ (by rw [dataAccess, load]))
    simp only [writeBack, load, value]
  · unfold writeBack
    split <;> first | rfl | exact absurd ‹_› load

end Core

/-! ## The board is this machine -/

namespace Board

open AgilA32.Top (Arch At BusShows dataBus word loaded next received)
open Mem (psramAt)

def machine (s : Board) : Machine where
  pc := s.core.pc
  x := s.core.regs
  scratch := s.mem.regs.ramWord 0 0
  gpioOut := s.mem.regs.gpioOut
  qspiDivSel := s.mem.regs.qspiDivSel
  spiLastRx := s.mem.regs.spiLastRx
  settings := s.mem.settings
  psram := s.memBoard.psram

/-- An instruction is about to begin. -/
structure Ready (s : Board) : Prop where
  boundary : s.top.Boundary
  idle : ∀ d, d ≠ 0#2 → (s.chips.chip d).Idle

def arch (s : Board) : Arch where
  pc := s.core.pc
  x := s.core.regs
  mem := s.mem.regs
  settings := s.mem.settings

theorem psramAt_eq (r : Clocked.Run Board.step) (t : Nat) :
    psramAt (Top.memRun (topRun r)) (chipRun r) t = (r.state t).machine.psram := rfl

section Instruction

variable {r : Clocked.Run Board.step} {t : Nat} (ready : Ready (r.state t))
include ready

theorem Ready.at : At (topRun r) t (r.state t).arch := ⟨ready.boundary, rfl, rfl, rfl, rfl⟩

theorem Ready.after (live : isEbreak (word (topRun r) t) = false) :
    Ready (r.state (next (topRun r) t)) where
  boundary := ready.boundary.next_boundary live
  idle d chip := ((wired r d chip).instruction ready.boundary live (ready.idle d chip)).1

/-- A plain load returns what the machine's load does, as far as its size goes. -/
theorem Ready.load (live : isEbreak (word (topRun r) t) = false) {addr : BitVec 8}
    {size : BitVec 2}
    (read : dataAccess (word (topRun r) t) (r.state t).core.regs = some (.read addr size))
    (plain : (Access.read addr size).bus.Plain) {j : Nat} (within : j < sizeBytes size) :
    byteAt (loaded (topRun r) t) j =
      byteAt ((r.state t).machine.load (Access.read addr size).bus) j := by
  have shows := Top.dataBus_shows ready.at
  change BusShows _ (dataAccess _ (r.state t).core.regs) at shows
  rw [read] at shows
  obtain ⟨valid, we, hasAddr, hasSize⟩ := shows
  have plain' : (dataBus (topRun r) t).Plain := plain.congr hasAddr hasSize we
  rw [← hasSize] at within
  rw [← (r.state t).machine.load_congr (b := dataBus (topRun r) t) hasAddr hasSize]
  by_cases psram : inExtPsram (dataBus (topRun r) t).addr = true
  · have above := inExtPsram_iff.mp psram
    have noRom : ¬ inRom (dataBus (topRun r) t).addr = true := by
      rw [inRom_iff]
      omega
    have noRam : ¬ inRamRange (dataBus (topRun r) t).addr = true := by
      rw [inRamRange_iff]
      omega
    rw [psramAt_loaded (wired r) ready.boundary live ready.idle valid we psram, psramAt_eq,
      Machine.load, if_neg noRom, if_neg noRam, if_pos psram]
  · obtain ⟨regs, settings, -⟩ := ready.boundary.data_after live
    rw [MemRegs.commit_read we] at regs
    rw [Settings.commit, we, Bool.and_false, if_neg Bool.false_ne_true] at settings
    rw [Top.loaded_eq ready.at live]
    refine Machine.InMem.rdata ?_ plain' we (by simpa using psram) _ _ within
    rw [regs, settings]
    exact ⟨rfl, rfl, rfl, rfl, rfl, rfl⟩

/-- The memory and the PSRAM after an instruction: a store has been made, or nothing has changed. -/
theorem Ready.mem_next (live : isEbreak (word (topRun r) t) = false)
    (plain : ∀ d, dataAccess (word (topRun r) t) (r.state t).core.regs = some d → d.bus.Plain) :
    (∃ addr size data,
      dataAccess (word (topRun r) t) (r.state t).core.regs = some (.write addr size data) ∧
        (r.state (next (topRun r) t)).mem.regs =
          (r.state t).mem.regs.write (Access.write addr size data).bus ∧
        (r.state (next (topRun r) t)).mem.settings =
          (r.state t).mem.settings.write (Access.write addr size data).bus ∧
        (r.state (next (topRun r) t)).machine.psram =
          (r.state t).machine.psram.access (Access.write addr size data).bus) ∨
      ((∀ s : Machine, s.access (dataAccess (word (topRun r) t) (r.state t).core.regs) = s) ∧
        (r.state (next (topRun r) t)).mem.regs = (r.state t).mem.regs ∧
        (r.state (next (topRun r) t)).mem.settings = (r.state t).mem.settings ∧
        (r.state (next (topRun r) t)).machine.psram = (r.state t).machine.psram) := by
  have shows := Top.dataBus_shows ready.at
  change BusShows _ (dataAccess _ (r.state t).core.regs) at shows
  obtain ⟨regs, settings, -⟩ := ready.boundary.next_mem live
  change (r.state (next (topRun r) t)).mem.regs = (r.state t).mem.regs.commit _ _ at regs
  change (r.state (next (topRun r) t)).mem.settings = (r.state t).mem.settings.commit _ at settings
  have psram := psramAt_next (wired r) ready.boundary live ready.idle
  rw [psramAt_eq, psramAt_eq] at psram
  rw [regs, settings, psram]
  cases access : dataAccess (word (topRun r) t) (r.state t).core.regs with
  | none =>
      rw [access] at shows
      obtain ⟨valid, we⟩ := shows
      rw [MemRegs.commit_read we, Settings.commit, valid, Bool.false_and,
        if_neg Bool.false_ne_true, if_neg Bool.false_ne_true]
      exact .inr ⟨fun _ => rfl, rfl, rfl, rfl⟩
  | some d =>
      rw [access] at shows
      cases d with
      | read addr size =>
          obtain ⟨valid, we, -, -⟩ := shows
          rw [MemRegs.commit_read we, Settings.commit, we, Bool.and_false,
            if_neg Bool.false_ne_true, if_pos valid, Psram.access, we, if_neg Bool.false_ne_true]
          exact .inr ⟨fun _ => rfl, rfl, rfl, rfl⟩
      | write addr size data =>
          have bus : dataBus (topRun r) t = (Access.write addr size data).bus := shows
          rw [bus, (plain _ access).commit, Settings.commit]
          exact .inl ⟨addr, size, data, rfl, rfl, rfl, rfl⟩

/-- The memory after an instruction holds what the machine sees of it then. -/
theorem Ready.inMem_next (live : isEbreak (word (topRun r) t) = false)
    (plain : ∀ d, dataAccess (word (topRun r) t) (r.state t).core.regs = some d → d.bus.Plain) :
    ((r.state t).machine.access (dataAccess (word (topRun r) t) (r.state t).core.regs)).InMem
        (r.state (next (topRun r) t)).mem.regs (r.state (next (topRun r) t)).mem.settings ∧
      (r.state (next (topRun r) t)).machine.psram =
        ((r.state t).machine.access
          (dataAccess (word (topRun r) t) (r.state t).core.regs)).psram := by
  have here : (r.state t).machine.InMem (r.state t).mem.regs (r.state t).mem.settings :=
    ⟨rfl, rfl, rfl, rfl, rfl, rfl⟩
  obtain ⟨addr, size, data, access, regs, settings, psram⟩ | ⟨same, regs, settings, psram⟩ :=
    ready.mem_next live plain
  · rw [regs, settings, psram, access]
    exact ⟨here.write (plain _ access) rfl, rfl⟩
  · rw [regs, settings, psram, same]
    exact ⟨here, rfl⟩

/-- One instruction is one step of the machine. -/
theorem Ready.machine_next (live : isEbreak (word (topRun r) t) = false)
    (plain : ∀ d, dataAccess (word (topRun r) t) (r.state t).core.regs = some d → d.bus.Plain) :
    (r.state (next (topRun r) t)).machine = (r.state t).machine.exec (word (topRun r) t) := by
  obtain ⟨inMem, psram⟩ := ready.inMem_next live plain
  have after := ready.at.next live
  have regs : Core.writeBack (word (topRun r) t) (r.state t).core.pc
      (Core.aluY (word (topRun r) t) (r.state t).core.regs) (loaded (topRun r) t)
      (r.state t).core.regs =
      Core.writeBack (word (topRun r) t) (r.state t).core.pc
      (Core.aluY (word (topRun r) t) (r.state t).core.regs)
      ((r.state t).machine.response
        (dataAccess (word (topRun r) t) (r.state t).core.regs)) (r.state t).core.regs := by
    refine Core.writeBack_congr _ _ _ fun addr size access j within => ?_
    rw [ready.load live access (plain _ access) within, access]
    rfl
  have pcAfter : (r.state (next (topRun r) t)).core.pc = _ := after.pc
  have xAfter : (r.state (next (topRun r) t)).core.regs = _ := after.regs
  unfold machine Machine.exec at *
  simp only [Machine.mk.injEq]
  refine ⟨pcAfter, xAfter.trans regs, inMem.scratch, inMem.gpioOut, inMem.qspiDivSel,
    inMem.spiLastRx, inMem.settings, psram⟩

/-- What the machine does not see is left alone: the mode registers, the RAM behind the code window,
and the flash chip. -/
theorem Ready.frame_next (live : isEbreak (word (topRun r) t) = false)
    (plain : ∀ d, dataAccess (word (topRun r) t) (r.state t).core.regs = some d → d.bus.Plain) :
    (r.state (next (topRun r) t)).mem.regs.flashMode = (r.state t).mem.regs.flashMode ∧
      (r.state (next (topRun r) t)).mem.regs.flashPage = (r.state t).mem.regs.flashPage ∧
      (∀ k, 4 ≤ k → k < 48 → (r.state (next (topRun r) t)).mem.regs.ramByte k =
        (r.state t).mem.regs.ramByte k) ∧
      (r.state (next (topRun r) t)).chips.flash.mem = (r.state t).chips.flash.mem := by
  have flash := ((wired r 1#2 (by decide)).instruction ready.boundary live
    (ready.idle 1#2 (by decide))).2
  change (r.state (next (topRun r) t)).chips.flash.mem = _ at flash
  rw [if_neg] at flash
  · obtain ⟨addr, size, data, access, regs, -⟩ | ⟨-, regs, -⟩ := ready.mem_next live plain
    · obtain ⟨mode, page, window⟩ := (plain _ access).write_frame (r.state t).mem.regs
      rw [regs]
      exact ⟨mode, page, window, flash⟩
    · rw [regs]
      exact ⟨rfl, rfl, fun _ _ _ => rfl, flash⟩
  · rintro ⟨-, -, -, bank⟩
    unfold MemRegs.psramDev at bank
    split at bank <;> cases bank

end Instruction

end Board

end AgilA32
