import AgilA32.Board.Command
import AgilA32.Soc.Machine
import AgilA32.Top.Effects

/-!
# The board is this machine

A run of the board, looked at in the cycles in which instructions begin, is the run of the instruction
machine: same program counter, registers and memory map, same cycle numbers, same stores
(`Board.runs_soc`).
-/

namespace AgilA32

open AgilA32.Core (Access hart isEbreak toAccess)
open Engine (Resting)
open Mem (Quiet)
open Rv32i (Instr decode)
open Verilog (byteAt)

namespace Board

open AgilA32.Top (Boundary Holds At memRun word fetchBus fetchDelay dataBus dataCycle dataDelay loaded
  next stallAt)

/-- The state of the board in cycle `c` as software sees it. -/
def soc (s : Board) (c : Nat) : Soc where
  pc := s.core.pc
  x := s.core.regs
  map := s.memBoard.memoryMap
  cycle := c

/-- What comes in from outside in a run. -/
def outside (r : Clocked.Run Board.step) : Outside where
  uiIn u := (r.input u).uiIn
  undef u := (r.input u).undef

section Access

variable {r : Clocked.Run Board.step} {u a : Nat}

/-- The map of the memory in cycle `u`. -/
def mapAt (r : Clocked.Run Board.step) (u : Nat) : MemoryMap := (r.state u).memBoard.memoryMap

/-- A cycle with nothing on the bus. -/
theorem mapAt_quiet (quiet : Quiet (memRun (topRun r)) (chipRun r) u)
    (valid : (r.state u).core.memValid = false) (we : (r.state u).core.memWe = false) :
    Quiet (memRun (topRun r)) (chipRun r) (u + 1) ∧ mapAt r (u + 1) = (mapAt r u).wait 1 := by
  obtain ⟨quiet', regs, chips⟩ := quiet.step (wired r) valid we
  refine ⟨quiet', MemBoard.memoryMap_wait regs ?_ ?_ ?_ ?_⟩
  · exact (Top.quiet_edge (r := topRun r) quiet.rest valid we).2.1
  · change ((topRun r).state (u + 1)).mem.timer = _
    rw [(topRun r).edge]
    change (r.state u).mem.timer.step (r.state u).core.bus = (r.state u).mem.timer.tick
    simp [Timer.step, Core.bus, valid]
  · have mem (bank : Bool) := chips (if bank then 3#2 else 2#2) (by cases bank <;> decide)
    change Mem.psramAt (memRun (topRun r)) (chipRun r) (u + 1) =
      Mem.psramAt (memRun (topRun r)) (chipRun r) u
    simp only [Mem.psramAt, regs, mem]
  · exact congrArg SpiRam.mem (chips 1#2 (by decide))

variable (held : Holds (topRun r) a) (quiet : Quiet (memRun (topRun r)) (chipRun r) (a + 1))
include held quiet

theorem quiet_access : Quiet (memRun (topRun r)) (chipRun r) (a + 2 + stallAt (topRun r) a) := by
  have after := quiet.access (wired r) held.issued
  change Quiet _ _ (a + 1 + stallAt (topRun r) a + 1) at after
  rwa [show a + 1 + stallAt (topRun r) a + 1 = a + 2 + stallAt (topRun r) a by omega] at after

theorem flash_access : (r.state (a + 2 + stallAt (topRun r) a)).chips.flash.mem =
    (r.state (a + 1)).chips.flash.mem := by
  have after := ((wired r 1#2 (by decide)).access held.issued (quiet.idle _ (by decide))).2
  rw [if_neg] at after
  · change ((r.state (a + 1 + stallAt (topRun r) a + 1)).chips.flash).mem = _ at after
    rwa [show a + 1 + stallAt (topRun r) a + 1 = a + 2 + stallAt (topRun r) a by omega] at after
  · rintro ⟨-, -, -, dev⟩
    unfold MemRegs.psramDev at dev
    split at dev <;> cases dev

/-- An access that stores nothing passes the time that it takes, and changes nothing else in the map. -/
theorem mapAt_read (read : (r.state (a + 1)).core.memWe = false) :
    mapAt r (a + 2 + stallAt (topRun r) a) =
      (mapAt r (a + 1)).wait (stallAt (topRun r) a + 1) := by
  obtain ⟨regs, settings, counted⟩ := held.commits.1 read
  refine MemBoard.memoryMap_wait regs settings counted.timer ?_ (flash_access held quiet)
  have mem (bank : Bool) := ((wired r (if bank then 3#2 else 2#2) (by cases bank <;> decide)).access
    held.issued (quiet.idle _ (by cases bank <;> decide))).2
  simp only [show (Core.bus ((topRun r).state (a + 1)).core).we = false from read, Bool.false_eq_true,
    false_and, and_false, if_false] at mem
  change Mem.psramAt (memRun (topRun r)) (chipRun r) (a + 2 + stallAt (topRun r) a) =
    Mem.psramAt (memRun (topRun r)) (chipRun r) (a + 1)
  have bank : ((memRun (topRun r)).state (a + 2 + stallAt (topRun r) a)).regs =
    ((memRun (topRun r)).state (a + 1)).regs := regs
  change ∀ b, ((chipRun r _).state (a + 1 + stallAt (topRun r) a + 1)).mem = _ at mem
  rw [show a + 1 + stallAt (topRun r) a + 1 = a + 2 + stallAt (topRun r) a by omega] at mem
  simp only [Mem.psramAt, bank, mem]

/-- On this board a store to `SPI_DATA` receives a zero. -/
theorem received_spi (store : (r.state (a + 1)).core.memWe = true)
    (spi : (r.state (a + 1)).core.bus.addr = 0xFD#8) :
    byteAt (Mem.Issued.receivedBy (memRun (topRun r)) (a + 1) (r.state (a + 1)).core.bus) 0 = 0 := by
  have inside : InWindow (r.state (a + 1)).mem.regs (r.state (a + 1)).core.bus .spi :=
    ⟨by rw [spi]; rfl, store⟩
  have transfer := held.issued.accepts (held.issued.strobe store)
    (MemRegs.inExt_iff.mpr ⟨_, inside⟩)
  have device : ((r.state (a + 1)).mem.regs.request (r.state (a + 1)).core.bus).dev = 0#2 :=
    (MemRegs.request_carries inside).1
  exact (wired r 3#2 (by decide)).received_command transfer quiet.rest (quiet.idle _ (by decide))
    (if_pos device) device

/-- An access that stores does so in its last cycle, after the wait. -/
theorem mapAt_store (store : (r.state (a + 1)).core.memWe = true) :
    mapAt r (a + 2 + stallAt (topRun r) a) =
      ((mapAt r (a + 1)).wait (stallAt (topRun r) a)).store (r.state (a + 1)).core.bus := by
  obtain ⟨-, settings, timer⟩ := held.commits.2 store
  have regs := held.issued.after.1
  have psram := Mem.psramAt_access (wired r) quiet held.issued (held.issued.strobe store)
  change (r.state (a + 1 + stallAt (topRun r) a + 1)).mem.regs = _ at regs
  change (r.state (a + 1 + stallAt (topRun r) a + 1)).memBoard.psram = _ at psram
  rw [show a + 1 + stallAt (topRun r) a + 1 = a + 2 + stallAt (topRun r) a by omega] at regs psram
  refine MemBoard.memoryMap_store store regs settings timer psram (flash_access held quiet) fun spi => ?_
  exact received_spi held quiet store spi

/-- What a load returns, as far as its size goes. -/
theorem byteAt_read (valid : (r.state (a + 1)).core.memValid = true)
    (read : (r.state (a + 1)).core.memWe = false) (gpioIn : BitVec 8) (undef : BitVec 32) {j : Nat}
    (within : j < sizeBytes (r.state (a + 1)).core.bus.size) :
    byteAt ((r.state (a + 2 + stallAt (topRun r) a)).mem.rdata (r.state (a + 1)).core.bus.answered
      gpioIn undef) j =
      (mapAt r (a + 2 + stallAt (topRun r) a)).loadByte gpioIn undef (r.state (a + 1)).core.bus.addr
        j := by
  have small := (sizeBytes_pos (r.state (a + 1)).core.bus.size).2
  have regs := (held.commits.1 read).1
  change (r.state (a + 2 + stallAt (topRun r) a)).mem.regs = (r.state (a + 1)).mem.regs at regs
  by_cases external : (r.state (a + 1)).mem.regs.inExt (r.state (a + 1)).core.bus = true
  case neg =>
    refine MemBoard.byteAt_rdata (r.state (a + 2 + stallAt (topRun r) a)).memBoard read ?_ _ _
      (by omega)
    change (r.state (a + 2 + stallAt (topRun r) a)).mem.regs.inExt _ = false
    rw [regs]
    simpa using external
  rw [mapAt_read held quiet read, MemoryMap.loadByte, MemoryMap.wait_place,
    show a + 2 + stallAt (topRun r) a = a + 1 + stallAt (topRun r) a + 1 by omega]
  rcases (MemBoard.inExt_iff (r.state (a + 1)).memBoard _).mp external with
    place | place | ⟨-, -, write⟩
  · have carries := MemRegs.request_carries
      (MemRegs.inExtFlash_iff.mp ((MemBoard.place_flash _ _).mp place))
    have bytes := ((wired r 1#2 (by decide)).byteAt_rdata held.issued (quiet.idle _ (by decide)) valid
      read external carries.1 gpioIn undef (i := j) (by omega)).trans (if_pos within)
    rw [show (mapAt r (a + 1)).place _ = .flash from place]
    refine bytes.trans ?_
    exact congrArg ((chipRun r 1#2).state (a + 1)).mem (SpiRam.index_add carries.2.1 j)
  · have psram := (MemBoard.place_psram _ _).mp place
    have bytes := Mem.psramAt_load (wired r) quiet held.issued valid read psram gpioIn undef
    rw [show (mapAt r (a + 1)).place _ = .psram from place]
    refine (congrArg (fun v => byteAt v j) bytes).trans ?_
    rw [Psram.load, Verilog.byteAt_ofBytes _ (by omega), Psram.loadByte]
    exact if_pos within
  · change (r.state (a + 1)).core.memWe = true at write
    rw [read] at write
    cases write

end Access

/-! ## One instruction -/

section Instruction

variable {r : Clocked.Run Board.step} {t : Nat} (ready : Ready (r.state t))
include ready

theorem Ready.starts : Boundary ((topRun r).state t) := ready.boundary

theorem Ready.quiet : Quiet (memRun (topRun r)) (chipRun r) t := ⟨ready.boundary.rest, ready.idle⟩

theorem Ready.quiet_fetch : Quiet (memRun (topRun r)) (chipRun r) (t + 1) ∧
    mapAt r (t + 1) = (mapAt r t).wait 1 :=
  mapAt_quiet ready.quiet ready.starts.valid ready.starts.we

omit ready in
/-- The fetch waits as long as the machine's. -/
theorem fetchDelay_soc :  fetchDelay (topRun r) t = ((r.state t).soc t).fetchStall := by
  have delay := MemBoard.delay_eq (r.state t).memBoard (b := fetchBus (topRun r) t) rfl
  exact delay.trans (MemoryMap.stall_congr _ rfl rfl rfl)

/-- When the fetch is over the memory is quiet and nothing but time has passed in the map. -/
theorem Ready.fetched_map :
    Quiet (memRun (topRun r)) (chipRun r) (t + 2 + fetchDelay (topRun r) t) ∧
      mapAt r (t + 2 + fetchDelay (topRun r) t) =
        (mapAt r t).wait (2 + fetchDelay (topRun r) t) := by
  obtain ⟨quiet, first⟩ := ready.quiet_fetch
  have held := ready.starts.fetch_holds
  have core : (r.state (t + 1)).core = (r.state t).core.fetching :=
    ready.starts.fetching_core (Nat.zero_le _)
  have read := mapAt_read held quiet (by rw [core]; rfl)
  have quiet' := quiet_access held quiet
  rw [ready.starts.fetch_stallAt] at read quiet'
  refine ⟨quiet', ?_⟩
  rw [read, first, ← MemoryMap.wait_add]
  exact congrArg (mapAt r t).wait (by omega)

/-- The instruction word is the machine's. -/
theorem Ready.word_eq : word (topRun r) t = ((r.state t).soc t).word (outside r) := by
  have held := ready.starts.fetch_holds
  have core : (r.state (t + 1)).core = (r.state t).core.fetching :=
    ready.starts.fetching_core (Nat.zero_le _)
  refine Verilog.eq_of_byteAt (c := 4) rfl fun j within => ?_
  have byte := byteAt_read held ready.quiet_fetch.1 (by rw [core]; rfl) (by rw [core]; rfl)
    (r.input (t + 2 + fetchDelay (topRun r) t)).uiIn
    (r.input (t + 2 + fetchDelay (topRun r) t)).undef (j := j) (by rw [core]; exact within)
  rw [ready.starts.fetch_stallAt, ready.fetched_map.2, core] at byte
  rw [Soc.word, MemoryMap.byteAt_load _ _ _ _ within, ← fetchDelay_soc,
    Top.word_eq ready.at]
  exact byte

variable (live : isEbreak (word (topRun r) t) = false)
include live

/-- When the data access begins the memory is quiet and nothing but time has passed in the map. -/
theorem Ready.data_map :
    Quiet (memRun (topRun r)) (chipRun r) (t + 4 + fetchDelay (topRun r) t + 1) ∧
      mapAt r (t + 4 + fetchDelay (topRun r) t + 1) =
        (mapAt r t).wait (5 + fetchDelay (topRun r) t) := by
  have steps (k : Nat) (upto : k ≤ 3) :
      Quiet (memRun (topRun r)) (chipRun r) (t + 2 + fetchDelay (topRun r) t + k) ∧
        mapAt r (t + 2 + fetchDelay (topRun r) t + k) =
          (mapAt r t).wait (2 + fetchDelay (topRun r) t + k) := by
    induction k with
    | zero => exact ready.fetched_map
    | succ k ih =>
        obtain ⟨quiet, here⟩ := ih (by omega)
        obtain ⟨valid, we⟩ := ready.starts.between_quiet (k := k) (by omega) (.inl live)
        obtain ⟨quiet', after⟩ := mapAt_quiet quiet valid we
        exact ⟨quiet', by rw [← Nat.add_assoc, after, here, ← MemoryMap.wait_add, Nat.add_assoc]⟩
  have last := steps 3 le_rfl
  rwa [show t + 2 + fetchDelay (topRun r) t + 3 = t + 4 + fetchDelay (topRun r) t + 1 by omega,
    show 2 + fetchDelay (topRun r) t + 3 = 5 + fetchDelay (topRun r) t by omega] at last

/-- What is on the bus is the data access of the instruction. -/
theorem Ready.data_core :
    (r.state (t + 4 + fetchDelay (topRun r) t + 1)).core.bus = dataBus (topRun r) t :=
  congrArg Core.bus (ready.starts.issued_core live (Nat.zero_le _))

omit live
variable {i : Instr} (decoded : decode (word (topRun r) t) = some i)
include decoded

theorem Ready.shows : Top.BusShows (dataBus (topRun r) t) (((r.state t).soc t).dataAccess i) := by
  have shown := Top.dataBus_memReq ready.at decoded
  have same : ((r.state t).soc t).dataAccess i =
    (i.memReq (hart (r.state t).arch.pc (r.state t).arch.x)).map toAccess := rfl
  rwa [same]

/-- The data access waits as long as the machine's. -/
theorem Ready.dataDelay_soc : dataDelay (topRun r) t =
    ((r.state t).soc t).dataStall (((r.state t).soc t).dataAccess i) := by
  have shows := ready.shows decoded
  have delay (valid : (dataBus (topRun r) t).valid = true) :
      dataDelay (topRun r) t = (mapAt r t).stall (dataBus (topRun r) t) :=
    MemBoard.delay_eq (r.state t).memBoard valid
  unfold Soc.dataStall
  cases access : ((r.state t).soc t).dataAccess i with
  | none =>
      rw [access] at shows
      exact MemRegs.delay_onchip (by rw [shows.1, Bool.false_and])
  | some d =>
      rw [access] at shows
      cases d with
      | read addr size =>
          obtain ⟨valid, we, hasAddr, hasSize⟩ := shows
          exact (delay valid).trans (MemoryMap.stall_congr _ hasAddr hasSize we)
      | write addr size data =>
          have bus : dataBus (topRun r) t = (Access.write addr size data).bus := shows
          rw [delay (by rw [bus]; rfl), bus]
          rfl

variable (live : isEbreak (word (topRun r) t) = false)
include live

/-- The memory map when the instruction writes back. -/
theorem Ready.accessed_map :
    mapAt r (dataCycle (topRun r) t + dataDelay (topRun r) t + 1) =
      ((r.state t).soc t).accessed (((r.state t).soc t).dataAccess i) := by
  obtain ⟨quiet, here⟩ := ready.data_map live
  have held := ready.starts.data_holds live
  have bus := ready.data_core live
  have shows := ready.shows decoded
  have reads := mapAt_read held quiet
  have writes := mapAt_store held quiet
  rw [ready.starts.data_stallAt live, here] at reads writes
  rw [bus] at writes
  have we : (r.state (t + 4 + fetchDelay (topRun r) t + 1)).core.memWe = (dataBus (topRun r) t).we :=
    congrArg Bus.we bus
  rw [we] at reads writes
  rw [show t + 4 + fetchDelay (topRun r) t + 2 + dataDelay (topRun r) t =
    dataCycle (topRun r) t + dataDelay (topRun r) t + 1 by unfold dataCycle; omega,
    ← MemoryMap.wait_add] at reads writes
  unfold Soc.accessed
  rw [← fetchDelay_soc, ← ready.dataDelay_soc decoded]
  cases access : ((r.state t).soc t).dataAccess i with
  | none =>
      rw [access] at shows
      rw [reads shows.2]
      exact (mapAt r t).wait_add (5 + fetchDelay (topRun r) t + dataDelay (topRun r) t) 1
  | some d =>
      rw [access] at shows
      cases d with
      | read addr size =>
          rw [reads shows.2.1]
          exact (mapAt r t).wait_add (5 + fetchDelay (topRun r) t + dataDelay (topRun r) t) 1
      | write addr size data =>
          have same : dataBus (topRun r) t = (Access.write addr size data).bus := shows
          rw [writes (by rw [same]; rfl), same]
          rfl

/-- A load returns what the machine's does, as far as its size goes. -/
theorem Ready.byteAt_loaded {addr : BitVec 8} {size : BitVec 2}
    (load : ((r.state t).soc t).dataAccess i = some (.read addr size)) {j : Nat}
    (within : j < sizeBytes size) :
    byteAt (loaded (topRun r) t) j =
      byteAt (((r.state t).soc t).response (outside r) (((r.state t).soc t).dataAccess i)) j := by
  have shows := ready.shows decoded
  rw [load] at shows
  obtain ⟨valid, we, hasAddr, hasSize⟩ := shows
  have held := ready.starts.data_holds live
  have bus := ready.data_core live
  have last : t + 4 + fetchDelay (topRun r) t + 2 + dataDelay (topRun r) t =
    dataCycle (topRun r) t + dataDelay (topRun r) t + 1 := by unfold dataCycle; omega
  have cycle : ((r.state t).soc t).writeBackCycle (((r.state t).soc t).dataAccess i) =
      dataCycle (topRun r) t + dataDelay (topRun r) t + 1 := by
    rw [Soc.writeBackCycle, ← fetchDelay_soc, ← ready.dataDelay_soc decoded, ← last]
    change t + 6 + _ + _ = _
    omega
  have byte := byteAt_read held (ready.data_map live).1 ((congrArg Bus.valid bus).trans valid)
    ((congrArg Bus.we bus).trans we)
    (r.input (dataCycle (topRun r) t + dataDelay (topRun r) t + 1)).uiIn
    (r.input (dataCycle (topRun r) t + dataDelay (topRun r) t + 1)).undef (j := j)
    (by rw [bus, hasSize]; exact within)
  rw [ready.starts.data_stallAt live, last, bus, hasAddr, ready.accessed_map live decoded, load] at byte
  rw [load] at cycle ⊢
  rw [Soc.response, MemoryMap.byteAt_load _ _ _ _ within, cycle, Top.loaded_eq ready.at live]
  exact byte

end Instruction

/-- A load uses no more of the response than its size. -/
theorem extend_congr {op : Rv32i.LoadOp} {v v' : BitVec 32}
    (same : ∀ j, j < sizeBytes (Core.sizeCode op.width) → byteAt v j = byteAt v' j) :
    op.extend v = op.extend v' := by
  have low (c : Nat) (upto : c ≤ sizeBytes (Core.sizeCode op.width)) :
      v.setWidth (8 * c) = v'.setWidth (8 * c) := by
    rw [← Core.low_bits, ← Core.low_bits]
    exact Core.extractLsb'_congr fun j within => same j (by omega)
  cases op with
  | lb => exact congrArg (BitVec.signExtend 32) (low 1 le_rfl)
  | lh => exact congrArg (BitVec.signExtend 32) (low 2 le_rfl)
  | lw => exact Verilog.eq_of_byteAt (c := 4) rfl same
  | lbu => exact congrArg (BitVec.setWidth 32) (low 1 le_rfl)
  | lhu => exact congrArg (BitVec.setWidth 32) (low 2 le_rfl)

section Next

variable {r : Clocked.Run Board.step} {t : Nat} (ready : Ready (r.state t)) {i : Instr}
  (decoded : decode (word (topRun r) t) = some i) (running : i ≠ .ebreak)
include ready decoded running

/-- The hart takes the machine's step. -/
theorem Ready.exec_loaded :
    i.exec (hart (r.state t).core.pc (r.state t).core.regs) (loaded (topRun r) t) =
      i.exec (hart (r.state t).core.pc (r.state t).core.regs)
        (((r.state t).soc t).response (outside r) (((r.state t).soc t).dataAccess i)) := by
  have live := Top.running_of decoded running
  cases i with
  | load op rd rs1 off =>
      have same : op.extend (loaded (topRun r) t) =
          op.extend (((r.state t).soc t).response (outside r)
            (((r.state t).soc t).dataAccess (.load op rd rs1 off))) :=
        extend_congr fun j within => ready.byteAt_loaded live decoded rfl within
      rw [Instr.exec, Instr.exec, same]
  | _ => rfl

/-- The next instruction begins in the machine's next state. -/
theorem Ready.next_soc :
    (r.state (next (topRun r) t)).soc (next (topRun r) t) =
      ((r.state t).soc t).exec (outside r) i := by
  have live := Top.running_of decoded running
  have at_next := ready.at.next_exec decoded running
  have pc := at_next.pc
  have regs := at_next.regs
  change (r.state (next (topRun r) t)).core.pc = BitVec.setWidth 8
    (i.exec (hart (r.state t).core.pc (r.state t).core.regs) (loaded (topRun r) t)).pc at pc
  change (r.state (next (topRun r) t)).core.regs =
    (i.exec (hart (r.state t).core.pc (r.state t).core.regs) (loaded (topRun r) t)).x at regs
  rw [ready.exec_loaded decoded running] at pc regs
  -- from the write-back cycle to the next instruction nothing is on the bus
  have quiet := quiet_access (ready.starts.data_holds live) (ready.data_map live).1
  rw [ready.starts.data_stallAt live, show t + 4 + fetchDelay (topRun r) t + 2 + dataDelay (topRun r) t =
    dataCycle (topRun r) t + dataDelay (topRun r) t + 1 by unfold dataCycle; omega] at quiet
  have core := ready.starts.accessed live
  change (r.state (dataCycle (topRun r) t + dataDelay (topRun r) t + 1)).core = _ at core
  have map := (mapAt_quiet quiet (by rw [core]; rfl) (by rw [core]; rfl)).2
  rw [ready.accessed_map live decoded] at map
  have cycle : next (topRun r) t =
      ((r.state t).soc t).writeBackCycle (((r.state t).soc t).dataAccess i) + 1 := by
    rw [Soc.writeBackCycle, ← fetchDelay_soc, ← ready.dataDelay_soc decoded, next, dataCycle]
    change _ = t + 6 + _ + _ + 1
    omega
  rw [Soc.exec, ← cycle, soc, Soc.mk.injEq]
  exact ⟨pc, regs, map, rfl⟩

/-- The instruction completes the machine's store, and no other. -/
theorem Ready.observe_stored :
    (topRun r).observe Top.stored t (next (topRun r) t - t) =
      (Soc.storeOf (((r.state t).soc t).dataAccess i)).toList := by
  have shows := ready.shows decoded
  rw [ready.starts.observe_stored (Top.running_of decoded running), Top.storedBy]
  cases access : ((r.state t).soc t).dataAccess i with
  | none =>
      rw [access] at shows
      rw [shows.1, Bool.false_and]
      rfl
  | some d =>
      rw [access] at shows
      cases d with
      | read addr size =>
          rw [shows.2.1, Bool.and_false]
          rfl
      | write addr size data =>
          have same : dataBus (topRun r) t = (Access.write addr size data).bus := shows
          rw [same]
          rfl

end Next

/-! ## Runs -/

theorem ready_reset (s : Board) : Ready s.reset :=
  ⟨Top.boundary_reset s.top, fun d _ => s.chips.idle_reset d⟩

/-- What the machine fetches is what the design does. -/
theorem Ready.decoded {r : Clocked.Run Board.step} {t : Nat} (ready : Ready (r.state t)) {i : Instr}
    (fetched : ((r.state t).soc t).fetch (outside r) = some i) :
    decode (word (topRun r) t) = some i ∧ i ≠ .ebreak := by
  obtain ⟨decoded, running⟩ := Option.filter_eq_some_iff.mp fetched
  exact ⟨ready.word_eq ▸ decoded, by simpa using running⟩

/-- The machine that goes on from the board in cycle `t`. -/
def socRun (r : Clocked.Run Board.step) (t : Nat) : Clocked.Run (Soc.step (outside r)) :=
  ((r.state t).soc t).run (outside r)

section Run

variable {r : Clocked.Run Board.step} {t : Nat} (start : Ready (r.state t))
include start

/-- The machine's states are the board's, in the cycles in which instructions begin. -/
theorem socRun_state {n : Nat} {s : Soc} (reached : (socRun r t).state n = some s) :
    Top.begins (topRun r) t n = s.cycle ∧ Ready (r.state s.cycle) ∧
      (r.state s.cycle).soc s.cycle = s := by
  induction n generalizing s with
  | zero =>
      cases reached
      exact ⟨rfl, start, rfl⟩
  | succ n ih =>
      rw [(socRun r t).edge] at reached
      obtain ⟨s₀, here, reached⟩ := Option.bind_eq_some_iff.mp reached
      obtain ⟨begins, ready, same⟩ := ih here
      obtain ⟨i, fetched, rfl⟩ := Option.map_eq_some_iff.mp reached
      rw [← same] at fetched
      obtain ⟨decoded, running⟩ := ready.decoded fetched
      have after := ready.next_soc decoded running
      have cycle := congrArg Soc.cycle after
      rw [same] at after cycle
      change next (topRun r) s₀.cycle = _ at cycle
      rw [← cycle]
      refine ⟨?_, ready.after (Top.running_of decoded running), after⟩
      rw [Top.begins, begins]

/-- The step of the machine before a state it has reached. -/
theorem socRun_before {n : Nat} {s : Soc} (reached : (socRun r t).state (n + 1) = some s) :
    ∃ s₀ i, (socRun r t).state n = some s₀ ∧ s₀.fetch (outside r) = some i ∧
      s = s₀.exec (outside r) i ∧ s.cycle = next (topRun r) s₀.cycle ∧
      decode (word (topRun r) s₀.cycle) = some i ∧ i ≠ .ebreak := by
  have after := (socRun_state start reached).1
  rw [(socRun r t).edge] at reached
  obtain ⟨s₀, here, reached⟩ := Option.bind_eq_some_iff.mp reached
  obtain ⟨begins, ready, same⟩ := socRun_state start here
  obtain ⟨i, fetched, rfl⟩ := Option.map_eq_some_iff.mp reached
  rw [Top.begins, begins] at after
  have decoded := ready.decoded (same.symm ▸ fetched)
  exact ⟨s₀, i, here, fetched, rfl, after.symm, decoded⟩

/-- The stores of the board are the machine's. -/
theorem socRun_stores {n : Nat} {s : Soc} (reached : (socRun r t).state n = some s) :
    (topRun r).observe Top.stored t (s.cycle - t) =
      (socRun r t).observe (Soc.stores (outside r)) 0 n := by
  induction n generalizing s with
  | zero =>
      cases reached
      rw [show ((r.state t).soc t).cycle = t from rfl, Nat.sub_self]
      rfl
  | succ n ih =>
      obtain ⟨s₀, i, here, fetched, -, cycle, decoded, running⟩ := socRun_before start reached
      obtain ⟨begun, ready, same⟩ := socRun_state start here
      have shown := ready.observe_stored decoded running
      rw [same] at shown
      have from_ : t ≤ s₀.cycle := begun ▸ Top.le_begins (topRun r) t n
      have later := Top.lt_next (topRun r) s₀.cycle
      have cut := (topRun r).observe_cut Top.stored from_ later.le
      rw [ih here, shown] at cut
      rw [cycle, cut, (socRun r t).observe_add, (socRun r t).observe_one, Nat.zero_add, here, Soc.stores,
        Option.bind_some, fetched, Option.bind_some]

/-- An `EBREAK` on the machine halts the board for good: nothing but the timer changes any more. -/
theorem socRun_halts {n : Nat} {s : Soc} (reached : (socRun r t).state n = some s)
    (stop : decode (s.word (outside r)) = some .ebreak) {u : Nat}
    (after : s.cycle + 4 + s.fetchStall ≤ u) :
    (r.state u).core.halted = true ∧
      (r.state u).soc u = { s with map := s.map.wait (u - s.cycle), cycle := u } ∧
      (topRun r).observe Top.stored s.cycle (u - s.cycle) = [] := by
  obtain ⟨-, ready, same⟩ := socRun_state start reached
  have fetch := fetchDelay_soc (r := r) (t := s.cycle)
  rw [same] at fetch
  rw [← fetch] at after
  have stopped : isEbreak (word (topRun r) s.cycle) = true := by
    rw [ready.word_eq, same]
    exact (Core.isEbreak_iff stop).mpr rfl
  have silent {v : Nat} (later : s.cycle < v) : (r.state v).core.memWe = false ∧
      (s.cycle + 2 + fetchDelay (topRun r) s.cycle ≤ v → (r.state v).core.memValid = false) := by
    have cases := ready.starts.stop_cases stopped later
    change (_ ∧ (r.state v).core = _) ∨ (_ ∧ (r.state v).core = _) ∨ (_ ∧ (r.state v).core = _) ∨
      (_ ∧ (r.state v).core = _) at cases
    rcases cases with ⟨early, h⟩ | ⟨-, h⟩ | ⟨-, h⟩ | ⟨-, h⟩ <;> rw [h]
    · exact ⟨rfl, fun late => by omega⟩
    all_goals exact ⟨rfl, fun _ => rfl⟩
  have parked (k : Nat) : Quiet (memRun (topRun r)) (chipRun r)
        (s.cycle + 2 + fetchDelay (topRun r) s.cycle + k) ∧
      mapAt r (s.cycle + 2 + fetchDelay (topRun r) s.cycle + k) =
        (mapAt r s.cycle).wait (2 + fetchDelay (topRun r) s.cycle + k) := by
    induction k with
    | zero => exact ready.fetched_map
    | succ k ih =>
        obtain ⟨quiet, here⟩ := ih
        obtain ⟨we, valid⟩ := silent (v := s.cycle + 2 + fetchDelay (topRun r) s.cycle + k) (by omega)
        obtain ⟨quiet', after⟩ := mapAt_quiet quiet (valid (by omega)) we
        exact ⟨quiet', by rw [← Nat.add_assoc, after, here, ← MemoryMap.wait_add, Nat.add_assoc]⟩
  have map := (parked (u - (s.cycle + 2 + fetchDelay (topRun r) s.cycle))).2
  have core := (ready.starts.parked stopped
    (u - (s.cycle + 4 + fetchDelay (topRun r) s.cycle))).1
  change (r.state (s.cycle + 4 + _ + _)).core = _ at core
  rw [Nat.add_sub_of_le (by omega)] at core map
  rw [show 2 + fetchDelay (topRun r) s.cycle + (u - (s.cycle + 2 + fetchDelay (topRun r) s.cycle)) =
    u - s.cycle by omega] at map
  refine ⟨by rw [core]; rfl, ?_, (topRun r).observe_eq_nil _ fun k before => ?_⟩
  · conv_rhs => rw [← same]
    rw [soc, Soc.mk.injEq, core]
    exact ⟨rfl, rfl, map, rfl⟩
  · have we : ((topRun r).state (s.cycle + k)).core.memWe = false := by
      rcases Nat.eq_zero_or_pos k with rfl | later
      · exact ready.boundary.we
      · exact (silent (by omega)).1
    simp [Top.stored, we]

end Run

/-- A machine that has come to the board's state goes on like the one that starts there. -/
theorem socRun_add {r : Clocked.Run Board.step} {n t : Nat}
    (reached : (socRun r 0).state n = some ((r.state t).soc t)) (m : Nat) :
    (socRun r 0).state (n + m) = (socRun r t).state m := by
  induction m with
  | zero => exact reached
  | succ m ih => rw [← Nat.add_assoc, (socRun r 0).edge, (socRun r t).edge, ih]

/-- The board runs the instruction machine.  From any state just after reset, and for any waveforms on
the pins: while the machine is not stuck on a word that is no instruction, its `n`-th state is what
software sees of the board in the cycle in which the `n`-th instruction begins, and the board has
completed the machine's stores by then; if the machine has reached `EBREAK`, the core halts, and only
the timer goes on. -/
theorem runs_soc (r : Clocked.Run Board.step) (b : Board) (reset : r.state 0 = b.reset) {n : Nat}
    {s : Soc} (reached : ((b.reset.soc 0).run (outside r)).state n = some s) :
    Top.begins (topRun r) 0 n = s.cycle ∧ (r.state s.cycle).soc s.cycle = s ∧
      (topRun r).observe Top.stored 0 s.cycle =
        ((b.reset.soc 0).run (outside r)).observe (Soc.stores (outside r)) 0 n ∧
      (decode (s.word (outside r)) = some .ebreak → ∀ u, s.cycle + 4 + s.fetchStall ≤ u →
        (r.state u).core.halted = true ∧
          (r.state u).soc u = { s with map := s.map.wait (u - s.cycle), cycle := u } ∧
          (topRun r).observe Top.stored s.cycle (u - s.cycle) = []) := by
  rw [← reset] at reached ⊢
  have start : Ready (r.state 0) := reset ▸ ready_reset b
  obtain ⟨begins, -, same⟩ := socRun_state start reached
  exact ⟨begins, same, socRun_stores start reached,
    fun stop u after => socRun_halts start reached stop after⟩

/-- A board as it powers up, and its run from reset with every input low. -/
def zeroed : Board where
  core := Core.zeroed
  mem := Top.zeroed.mem
  chips := zeroedChips

def zeroedRun : Clocked.Run Board.step :=
  .ofInputs Board.step zeroed.reset fun _ => { uiIn := 0, uioIn := 0, undef := 0 }

/-- The boot ROM begins with `ADDI x2, x0, 0xA5`. -/
theorem zeroedRun_first : ((zeroed.reset.soc 0).run (outside zeroedRun)).state 1 =
    some ((zeroed.reset.soc 0).exec (outside zeroedRun) (.aluImm .add 2 0 0xA5)) := by
  have fetched : (zeroed.reset.soc 0).fetch (outside zeroedRun) =
      some (.aluImm .add 2 0 0xA5) := by decide
  rw [((zeroed.reset.soc 0).run (outside zeroedRun)).edge]
  exact congrArg (Option.map _) fetched

theorem runs_soc_boot :
    Top.begins (topRun zeroedRun) 0 1 = 7 ∧ (zeroedRun.state 7).core.regs 2 = 0xA5 := by
  obtain ⟨begins, same, -⟩ := runs_soc zeroedRun zeroed rfl zeroedRun_first
  have cycle : ((zeroed.reset.soc 0).exec (outside zeroedRun) (.aluImm .add 2 0 0xA5)).cycle = 7 := by
    decide
  rw [cycle] at begins same
  exact ⟨begins, (congrFun (congrArg Soc.x same) 2).trans (by decide)⟩

end Board

end AgilA32
