import AgilA32.Core.Refine
import AgilA32.Top.Events

/-!
# The architectural view of a run

`At r t a`: in cycle `t` an instruction begins in the architectural state `a`, the program counter,
the registers, and what software has written to the memory.  `At.next` says where the next one
begins, and in which state: the reference ISA's step, and the data access committed to the memory.
-/

namespace AgilA32

namespace Top

open AgilA32.Core (isEbreak hart busAccess toAccess)
open Mem (Issued)
open Rv32i (Instr decode)

structure Arch where
  pc : BitVec 8
  x : RegFile
  mem : MemRegs
  settings : Settings

/-- In cycle `t` an instruction begins in the state `a`. -/
structure At (r : Clocked.Run Top.step) (t : Nat) (a : Arch) : Prop where
  boundary : Boundary (r.state t)
  pc : (r.state t).core.pc = a.pc
  regs : (r.state t).core.regs = a.x
  mem : (r.state t).mem.regs = a.mem
  settings : (r.state t).mem.settings = a.settings

section Instruction

variable {r : Clocked.Run Top.step} {t : Nat} {a : Arch} {w : BitVec 32} {i : Instr}

/-! ## The fetch -/

theorem fetchBus_eq (here : At r t a) :
    (fetchBus r t).addr = a.pc ∧ (fetchBus r t).size = 2#2 ∧ (fetchBus r t).we = false ∧
      (fetchBus r t).valid = true :=
  ⟨here.pc, rfl, rfl, rfl⟩

/-- The instruction word is what the memory shows at `pc` when the fetch is over. -/
theorem word_eq (here : At r t a) :
    word r t = (r.state (t + 2 + fetchDelay r t)).mem.rdata (Bus.answered (fetchBus r t))
      (r.input (t + 2 + fetchDelay r t)).uiIn (r.input (t + 2 + fetchDelay r t)).undef := by
  change (r.state (t + 2 + fetchDelay r t)).mem.rdata
    (r.state (t + 2 + fetchDelay r t)).core.bus _ _ = _
  rw [here.boundary.fetched_core]
  rfl

/-- Code in ROM is fetched without delay. -/
theorem At.rom_word (here : At r t a) (rom : a.pc.toNat < 176) :
    fetchDelay r t = 0 ∧ word r t = romWord a.pc := by
  obtain ⟨addr, -, we, -⟩ := fetchBus_eq here
  have inside : inRom (fetchBus r t).addr = true := by rw [addr]; exact inRom_iff.mpr rom
  constructor
  · refine MemRegs.delay_onchip ?_
    have flash : (r.state t).mem.regs.inExtFlash (fetchBus r t).addr = false := by
      rw [Bool.eq_false_iff, ne_eq, MemRegs.inExtFlash, Bool.and_eq_true, inLoadRange_iff, addr]
      omega
    have psram : inExtPsram (fetchBus r t).addr = false := by
      rw [Bool.eq_false_iff, ne_eq, inExtPsram_iff, addr]
      omega
    simp [MemRegs.inExt, flash, psram, MemRegs.inSpiWrite, we]
  · rw [word_eq here, Mem.rdata, Bus.answered, if_pos inside, addr]

/-! ## The data access -/

/-- The bus shows the data access `d`, or is quiet. -/
def BusShows (b : Bus) : Option Core.Access → Prop
  | none => b.valid = false ∧ b.we = false
  | some (.read addr size) => b.valid = true ∧ b.we = false ∧ b.addr = addr ∧ b.size = size
  | some (.write addr size data) =>
      b = { addr := addr, wdata := data, size := size, we := true, valid := true }

theorem dataBus_shows (here : At r t a) :
    BusShows (dataBus r t) (Core.dataAccess (word r t) a.x) := by
  have shown := Core.issued_busAccess (r.state t).core (word r t)
  have strobe : (dataBus r t).we = true → (dataBus r t).valid = true := Core.issued_we_valid _ _
  rw [here.regs] at shown
  change (if (dataBus r t).valid then
      some (if (dataBus r t).we then
        Core.Access.write (dataBus r t).addr (dataBus r t).size (dataBus r t).wdata
      else Core.Access.read (dataBus r t).addr (dataBus r t).size)
    else none) = _ at shown
  generalize dataBus r t = b at *
  obtain ⟨addr, wdata, size, we, valid⟩ := b
  rw [← shown]
  clear shown
  cases valid <;> cases we <;> simp_all [BusShows]

theorem dataBus_memReq (here : At r t a) (decoded : decode (word r t) = some i) :
    BusShows (dataBus r t) ((i.memReq (hart a.pc a.x)).map toAccess) := by
  rw [← Core.dataAccess_eq a.pc _ decoded]
  exact dataBus_shows here

/-- An instruction without a data access leaves the bus quiet. -/
theorem dataBus_none (here : At r t a) (decoded : decode (word r t) = some i)
    (none : i.memReq (hart a.pc a.x) = none) :
    (dataBus r t).valid = false ∧ (dataBus r t).we = false := by
  have shown := dataBus_memReq here decoded
  rwa [none] at shown

/-- A load puts its address and width on the bus, as a read. -/
theorem dataBus_load (here : At r t a) (decoded : decode (word r t) = some i)
    {width : Rv32i.Width} {addr : BitVec 32}
    (load : i.memReq (hart a.pc a.x) = some (.load width addr)) :
    (dataBus r t).valid = true ∧ (dataBus r t).we = false ∧
      (dataBus r t).addr = addr.setWidth 8 ∧ (dataBus r t).size = Core.sizeCode width := by
  have shown := dataBus_memReq here decoded
  rwa [load] at shown

/-- A store puts its address, width and data on the bus, as a write. -/
theorem dataBus_store (here : At r t a) (decoded : decode (word r t) = some i)
    {width : Rv32i.Width} {addr data : BitVec 32}
    (store : i.memReq (hart a.pc a.x) = some (.store width addr data)) :
    dataBus r t =
      { addr := addr.setWidth 8, wdata := data, size := Core.sizeCode width, we := true
        valid := true } := by
  have shown := dataBus_memReq here decoded
  rwa [store] at shown

/-- The load response is what the memory shows at the address when the access is over. -/
theorem loaded_eq (here : At r t a) (live : isEbreak (word r t) = false) :
    loaded r t = (r.state (dataCycle r t + dataDelay r t + 1)).mem.rdata
      (Bus.answered (dataBus r t)) (r.input (dataCycle r t + dataDelay r t + 1)).uiIn
      (r.input (dataCycle r t + dataDelay r t + 1)).undef := by
  change (r.state (dataCycle r t + dataDelay r t + 1)).mem.rdata
    (r.state (dataCycle r t + dataDelay r t + 1)).core.bus _ _ = _
  rw [here.boundary.accessed live]
  rfl

/-! ## The next instruction -/

/-- What the engine received in the data access of the instruction that begins in cycle `t`. -/
def received (r : Clocked.Run Top.step) (t : Nat) : BitVec 32 :=
  Issued.receivedBy (memRun r) (dataCycle r t) (dataBus r t)

/-- The state after the instruction word `w`: the data access `b` has been committed. -/
def Arch.after (a : Arch) (w v : BitVec 32) (b : Bus) (rx : BitVec 32) : Arch where
  pc := Core.nextPcOf w a.pc a.x
  x := Core.writeBack w a.pc (Core.aluY w a.x) v a.x
  mem := a.mem.commit b rx
  settings := a.settings.commit b

theorem At.next (here : At r t a) (live : isEbreak (word r t) = false) :
    At r (next r t) (a.after (word r t) (loaded r t) (dataBus r t) (received r t)) := by
  have core := here.boundary.next_core live
  obtain ⟨regs, settings, -⟩ := here.boundary.next_mem live
  refine ⟨here.boundary.next_boundary live, ?_, ?_, ?_, ?_⟩
  · rw [core, Core.retired_pc, here.pc, here.regs]; rfl
  · rw [core, Core.retired_regs, here.pc, here.regs]; rfl
  · rw [regs, here.mem]; rfl
  · rw [settings, here.settings]; rfl

/-- The state after a legal instruction is the reference's. -/
def Arch.exec (a : Arch) (i : Instr) (v : BitVec 32) (b : Bus) (rx : BitVec 32) : Arch where
  pc := (i.exec (hart a.pc a.x) v).pc.setWidth 8
  x := (i.exec (hart a.pc a.x) v).x
  mem := a.mem.commit b rx
  settings := a.settings.commit b

theorem At.next_exec (here : At r t a) (decoded : decode (word r t) = some i)
    (live : i ≠ .ebreak) :
    At r (Top.next r t) (a.exec i (loaded r t) (dataBus r t) (received r t)) := by
  have running : isEbreak (word r t) = false := by
    rw [Bool.eq_false_iff, ne_eq, Core.isEbreak_iff decoded]; exact live
  have next := here.next running
  rw [Arch.after, Core.nextPcOf_eq a.pc a.x (loaded r t) decoded live,
    Core.writeBack_eq a.pc a.x (loaded r t) decoded live] at next
  exact next

/-! ## Instructions without an external access -/

theorem running_of (decoded : decode (word r t) = some i) (live : i ≠ .ebreak) :
    isEbreak (word r t) = false := by
  rw [Bool.eq_false_iff, ne_eq, Core.isEbreak_iff decoded]
  exact live

/-- An instruction without a data access changes the registers and the pc alone. -/
theorem At.plain (here : At r t a) (decoded : decode (word r t) = some i) (live : i ≠ .ebreak)
    (none : i.memReq (hart a.pc a.x) = none) :
    At r (Top.next r t)
      { a with
        pc := (i.exec (hart a.pc a.x) (loaded r t)).pc.setWidth 8
        x := (i.exec (hart a.pc a.x) (loaded r t)).x } := by
  obtain ⟨valid, we⟩ := dataBus_none here decoded none
  have next := here.next_exec decoded live
  rwa [Arch.exec, MemRegs.commit_read we, Settings.commit, valid, Bool.false_and,
    if_neg Bool.false_ne_true] at next

/-- A store to an address other than that of `SPI_DATA` writes what it says. -/
theorem At.store_register (here : At r t a) {op : Rv32i.StoreOp} {rs1 rs2 : BitVec 5}
    {off : BitVec 32} (decoded : decode (word r t) = some (.store op rs1 rs2 off)) {b : Bus}
    (bus : b =
      { addr := (Core.readReg a.x rs1 + off).setWidth 8, wdata := Core.readReg a.x rs2
        size := Core.sizeCode op.width, we := true, valid := true })
    (spi : b.addr ≠ 0xFD#8) :
    At r (Top.next r t)
      { a with pc := a.pc + 4, mem := a.mem.write b, settings := a.settings.write b } := by
  have shown : dataBus r t = b := (dataBus_store here decoded rfl).trans bus.symm
  have next := here.next_exec decoded (by simp)
  have we : b.we = true := by rw [bus]
  have valid : b.valid = true := by rw [bus]
  have noSpi : MemRegs.inSpiWrite b = false := by simp [MemRegs.inSpiWrite, spi]
  have commit (rx : BitVec 32) : a.mem.commit b rx = a.mem.write b := by
    simp [MemRegs.commit, MemRegs.step, we, noSpi]
  rw [shown, Arch.exec, commit, Settings.commit, valid, we] at next
  simpa [Instr.exec, BitVec.setWidth_add] using next

/-- A load from `GPIO_IN` sees the pins as they are in its last cycle. -/
theorem At.load_gpio (here : At r t a) {op : Rv32i.LoadOp} {rd rs1 : BitVec 5} {off : BitVec 32}
    (decoded : decode (word r t) = some (.load op rd rs1 off))
    (addr : (Core.readReg a.x rs1 + off).setWidth 8 = 0xF4#8) :
    At r (Top.next r t)
      { a with
        pc := a.pc + 4
        x := Core.writeReg a.x rd
          (op.extend ((r.input (Top.next r t - 1)).uiIn.setWidth 32)) } := by
  obtain ⟨valid, we, shown, -⟩ := dataBus_load here decoded rfl
  have next := here.next_exec decoded (by simp)
  have response : loaded r t = (r.input (Top.next r t - 1)).uiIn.setWidth 32 := by
    rw [loaded_eq here (running_of decoded (by simp)),
      Mem.rdata_gpio (b := (dataBus r t).answered) (shown.trans addr) rfl]
    exact congrArg (fun u => (r.input u).uiIn.setWidth 32) (by unfold Top.next; omega)
  rw [Arch.exec, MemRegs.commit_read we, Settings.commit, valid, we, response] at next
  simpa [Instr.exec, BitVec.setWidth_add, Core.hart_set_x] using next

end Instruction

end Top

end AgilA32
