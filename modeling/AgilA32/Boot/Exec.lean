import AgilA32.Top.Arch

/-!
# Running the boot ROM

The boot ROM's instructions (`listing`), and how a run of the design executes them.  `Leads` is a
stretch of a run that stays in ROM: the state it leads to, and the log of what it did (the polls of
the listen loop, the transactions started, the stores).  The lemmas below it extend a stretch by one
instruction, one lemma for each kind of instruction.
-/

namespace AgilA32

namespace Boot

open AgilA32.Core (hart readReg writeReg sizeCode)
open Rv32i (Instr decode)
open AgilA32.Top (Arch At accepts stored)

/-- The boot ROM, disassembled. -/
def listing : List Instr :=
  [ -- SELFTEST
    .aluImm .add 2 0 0xA5, .store .sb 0 2 0xE0, .load .lbu 6 0 0xE0, .aluImm .add 8 0 0,
    .branch .beq 6 2 8, .aluImm .add 8 0 0x80,
    -- MAIN_INIT
    .aluImm .add 9 0 0,
    -- MAIN_LOOP
    .load .lw 2 0 0xF4, .aluImm .and 2 2 4, .branch .bne 2 0 0x24, .aluImm .add 9 9 1,
    .aluImm .and 3 9 0xF, .alu .or 2 8 3, .store .sw 0 2 0xF0, .aluImm .srl 3 9 9,
    .branch .beq 3 0 (-0x20), .store .sw 0 0 0xF8, .jal 0 0x28,
    -- START_SEEN
    .jal 1 0x28, .alu .add 4 6 0, .aluImm .add 5 0 0xB4,
    -- BYTE_LOOP
    .branch .beq 4 0 0x18, .jal 1 0x18, .store .sb 5 6 0, .aluImm .add 5 5 1,
    .aluImm .add 4 4 (-1), .jal 0 (-0x14),
    -- RUN
    .jal 0 0x48,
    -- RECV_BYTE
    .aluImm .add 6 0 0, .aluImm .add 7 0 0,
    -- BIT_WAIT_HIGH
    .load .lw 2 0 0xF4, .aluImm .and 3 2 2, .branch .beq 3 0 (-8), .aluImm .and 2 2 1,
    .aluImm .sll 6 6 1, .branch .beq 2 0 8, .aluImm .or 6 6 1,
    -- BIT_WAIT_LOW
    .load .lw 2 0 0xF4, .aluImm .and 2 2 2, .branch .bne 2 0 (-8), .aluImm .add 7 7 1,
    .aluImm .add 3 0 8, .branch .blt 7 3 (-0x30), .jalr 0 1 0 ]

/-- The address of the ROM's instruction `k`. -/
def romAddr (k : Nat) : BitVec 8 := BitVec.ofNat 8 (4 * k)

theorem decode_romWord : ∀ k, k < 44 → decode (romWord (romAddr k)) = listing[k]? := by
  decide +kernel

/-! ## The log of a stretch -/

/-- A poll of the listen loop: START as the `LW` of `MAIN_LOOP` sees it. -/
def polled (s : Top) (i : TopIn) : Option Bool :=
  (Top.retires s i).bind fun p => if p.1 = romAddr 7 then some (p.2.getLsbD 2) else none

theorem polled_eq {s : Top} {i : TopIn} {b : Bool} (seen : polled s i = some b) :
    i.uiIn.getLsbD 2 = b := by
  unfold polled Top.retires at seen
  split at seen
  · rw [Option.bind_some] at seen
    split at seen
    · exact Option.some.inj seen
    · cases seen
  · cases seen

/-- The polls of a stretch, the requests the engine accepted in it, and the stores it completed. -/
structure Log where
  polls : List Bool
  accepted : List Request
  stores : List Bus

namespace Log

def empty : Log := ⟨[], [], []⟩

def append (l₁ l₂ : Log) : Log :=
  ⟨l₁.polls ++ l₂.polls, l₁.accepted ++ l₂.accepted, l₁.stores ++ l₂.stores⟩

instance : Append Log := ⟨append⟩

@[simp] theorem append_polls (l₁ l₂ : Log) : (l₁ ++ l₂).polls = l₁.polls ++ l₂.polls := rfl
@[simp] theorem append_accepted (l₁ l₂ : Log) :
    (l₁ ++ l₂).accepted = l₁.accepted ++ l₂.accepted := rfl
@[simp] theorem append_stores (l₁ l₂ : Log) : (l₁ ++ l₂).stores = l₁.stores ++ l₂.stores := rfl

@[simp] theorem append_empty (l : Log) : l ++ empty = l := by
  change Log.mk _ _ _ = l
  simp [empty]

@[simp] theorem empty_append (l : Log) : empty ++ l = l := rfl

theorem append_assoc (l₁ l₂ l₃ : Log) : l₁ ++ l₂ ++ l₃ = l₁ ++ (l₂ ++ l₃) := by
  change Log.mk _ _ _ = Log.mk _ _ _
  simp

end Log

/-- From cycle `t` to cycle `t'` the run stays in ROM, and leads to the state `a` with this log. -/
structure Leads (r : Clocked.Run Top.step) (t t' : Nat) (a : Arch) (log : Log) : Prop where
  upto : t ≤ t'
  reached : At r t' a
  rom : ∀ u, t ≤ u → u < t' → (r.state u).core.pc.toNat < 176
  polls : r.observe polled t (t' - t) = log.polls
  accepted : r.observe accepts t (t' - t) = log.accepted
  stores : r.observe stored t (t' - t) = log.stores

section Extend

variable {r : Clocked.Run Top.step} {t t' t'' : Nat} {a a' : Arch} {log log' : Log}

theorem Leads.refl (here : At r t a) : Leads r t t a .empty where
  upto := le_rfl
  reached := here
  rom _ _ _ := by omega
  polls := by rw [Nat.sub_self]; rfl
  accepted := by rw [Nat.sub_self]; rfl
  stores := by rw [Nat.sub_self]; rfl

theorem Leads.trans (s : Leads r t t' a log) (s' : Leads r t' t'' a' log') :
    Leads r t t'' a' (log ++ log') where
  upto := s.upto.trans s'.upto
  reached := s'.reached
  rom u after before := by
    rcases Nat.lt_or_ge u t' with early | late
    · exact s.rom u after early
    · exact s'.rom u late before
  polls := by rw [r.observe_cut _ s.upto s'.upto, s.polls, s'.polls]; rfl
  accepted := by rw [r.observe_cut _ s.upto s'.upto, s.accepted, s'.accepted]; rfl
  stores := by rw [r.observe_cut _ s.upto s'.upto, s.stores, s'.stores]; rfl

/-- The instruction of the ROM that begins in cycle `t'`, whatever it is. -/
theorem Leads.instr (s : Leads r t t' a log) {k : Nat} {i : Instr} (at_k : a.pc = romAddr k)
    (listed : listing[k]? = some i) (live : i ≠ .ebreak) :
    Leads r t (Top.next r t')
      (a.exec i (Top.loaded r t') (Top.dataBus r t') (Top.received r t'))
      (log ++
        { polls := if k = 7 then [(r.input (Top.next r t' - 1)).uiIn.getLsbD 2] else []
          accepted := Top.acceptedFor a.mem (Top.dataBus r t')
          stores := Top.storedBy (Top.dataBus r t') }) ∧
      Top.next r t' = t' + 7 + a.mem.delay (Top.dataBus r t') ∧
      decode (Top.word r t') = some i := by
  have within : k < 44 := by
    have := List.getElem?_eq_some_iff.mp listed
    exact this.1
  have rom : a.pc.toNat < 176 := by
    rw [at_k, romAddr, BitVec.toNat_ofNat]
    omega
  obtain ⟨noDelay, word⟩ := s.reached.rom_word rom
  have decoded : decode (Top.word r t') = some i := by
    rw [word, at_k, decode_romWord k within, listed]
  have running : Core.isEbreak (Top.word r t') = false := by
    rw [Bool.eq_false_iff, ne_eq, Core.isEbreak_iff decoded]; exact live
  have boundary := s.reached.boundary
  have noFetch : Top.acceptedFor (r.state t').mem.regs (Top.fetchBus r t') = [] := by
    refine if_neg fun external => ?_
    rw [Bool.and_eq_true] at external
    have := MemRegs.delay_external external.1 external.2
    rw [← Top.fetchDelay, noDelay] at this
    unfold Request.delay at this
    omega
  have retires := boundary.observe_retires running
  have accepted := boundary.observe_accepts running
  have stores := boundary.observe_stored running
  rw [noFetch, s.reached.mem, List.nil_append] at accepted
  refine ⟨s.trans ⟨(Top.lt_next r t').le, s.reached.next_exec decoded live, fun u after before => ?_,
    ?_, accepted, stores⟩, ?_, decoded⟩
  · rw [(boundary.within running after before).1, s.reached.pc]
    exact rom
  · have hit : a.pc = romAddr 7 ↔ k = 7 := by
      rw [at_k, romAddr, romAddr, ← BitVec.toNat_inj, BitVec.toNat_ofNat, BitVec.toNat_ofNat]
      omega
    change r.observe (fun s i => (Top.retires s i).bind _) _ _ = _
    rw [r.observe_bind, retires, s.reached.pc]
    simp only [hit, List.filterMap_cons, List.filterMap_nil]
    split <;> simp_all
  · rw [Top.next, Top.dataCycle, noDelay, Top.dataDelay, s.reached.mem]
    omega

section Kinds

variable {pc pc' : BitVec 8} {x x' : RegFile} {m : MemRegs} {σ : Settings}

/-- An instruction without a data access takes seven cycles and leaves the memory as it was. -/
theorem Leads.plain (s : Leads r t t' ⟨pc, x, m, σ⟩ log) (k : Nat) {i : Instr}
    (at_k : pc = romAddr k) (listed : listing[k]? = some i) (live : i ≠ .ebreak)
    (none : i.memReq (hart pc x) = none)
    (target : ∀ v, (i.exec (hart pc x) v).pc.setWidth 8 = pc')
    (result : ∀ v, (i.exec (hart pc x) v).x = x') :
    Leads r t (t' + 7) ⟨pc', x', m, σ⟩ log := by
  obtain ⟨next, time, decoded⟩ := s.instr at_k listed live
  obtain ⟨valid, we⟩ := Top.dataBus_none s.reached decoded none
  have poll : k ≠ 7 := by
    rintro rfl
    cases listed
    cases none
  rw [time, MemRegs.delay_onchip (by rw [valid]; rfl)] at next
  have state (v rx : BitVec 32) :
      Arch.exec ⟨pc, x, m, σ⟩ i v (Top.dataBus r t') rx = ⟨pc', x', m, σ⟩ := by
    simp [Arch.exec, target, result, MemRegs.commit_read we, Settings.commit, valid]
  rw [state, if_neg poll, Top.acceptedFor, Top.storedBy, valid] at next
  rw [← Log.append_empty log]
  exact next

/-- A conditional branch takes seven cycles, whether it is taken or not. -/
theorem Leads.branch (s : Leads r t t' ⟨pc, x, m, σ⟩ log) (k : Nat) {op : Rv32i.BranchOp}
    {rs1 rs2 : BitVec 5} {off : BitVec 32} (taken : Bool) (at_k : pc = romAddr k)
    (listed : listing[k]? = some (.branch op rs1 rs2 off))
    (cond : op.taken (readReg x rs1) (readReg x rs2) = taken)
    (target : (if taken then pc.setWidth 32 + off else pc.setWidth 32 + 4).setWidth 8 = pc') :
    Leads r t (t' + 7) ⟨pc', x, m, σ⟩ log := by
  refine s.plain k at_k listed (by simp) rfl (fun _ => ?_) fun _ => rfl
  simp only [Instr.exec, Rv32i.Hart.goto_pc, Core.hart_get, Core.hart_pc, cond]
  exact target

/-- What `ui_in` shows in a cycle, as a load sees it. -/
def gpio (r : Clocked.Run Top.step) (u : Nat) : BitVec 32 := (r.input u).uiIn.setWidth 32

/-- `LW rd, 0xF4(x0)` takes seven cycles. -/
theorem Leads.poll_time (s : Leads r t t' ⟨pc, x, m, σ⟩ log) (k : Nat) {rd : BitVec 5}
    (at_k : pc = romAddr k) (listed : listing[k]? = some (.load .lw rd 0 0xF4)) :
    Core.isEbreak (Top.word r t') = false ∧ Top.next r t' = t' + 7 ∧
      (Top.dataBus r t').addr = 0xF4#8 ∧ (Top.dataBus r t').we = false := by
  obtain ⟨-, time, decoded⟩ := s.instr at_k listed (by simp)
  obtain ⟨-, we, addr, -⟩ :=
    Top.dataBus_load s.reached decoded (show Instr.memReq _ _ = some (.load .word _) from rfl)
  change (Top.dataBus r t').addr = 0xF4#8 at addr
  have running : Core.isEbreak (Top.word r t') = false := by
    rw [Bool.eq_false_iff, ne_eq, Core.isEbreak_iff decoded]; simp
  have onchip : m.inExt (Top.dataBus r t') = false :=
    MemRegs.inExt_register (by rw [addr]; decide) (.inl we)
  rw [MemRegs.delay_onchip (by rw [onchip, Bool.and_false]), Nat.add_zero] at time
  exact ⟨running, time, addr, we⟩

/-- `LW rd, 0xF4(x0)` reads the pins in its last cycle. -/
theorem Leads.poll (s : Leads r t t' ⟨pc, x, m, σ⟩ log) (k : Nat) {rd : BitVec 5}
    (at_k : pc = romAddr k) (listed : listing[k]? = some (.load .lw rd 0 0xF4))
    (target : pc + 4 = pc') :
    Leads r t (t' + 7) ⟨pc', writeReg x rd (gpio r (t' + 6)), m, σ⟩
      (log ++ { polls := if k = 7 then [(r.input (t' + 6)).uiIn.getLsbD 2] else []
                accepted := [], stores := [] }) := by
  obtain ⟨next, -, -⟩ := s.instr at_k listed (by simp)
  obtain ⟨running, time, addr, we⟩ := s.poll_time k at_k listed
  have onchip : m.inExt (Top.dataBus r t') = false :=
    MemRegs.inExt_register (by rw [addr]; decide) (.inl we)
  have response : Top.loaded r t' = gpio r (t' + 6) := by
    have cycle : Top.dataCycle r t' + Top.dataDelay r t' + 1 = t' + 6 := by
      unfold Top.next at time; omega
    rw [Top.loaded_eq s.reached running, cycle]
    exact Mem.rdata_gpio (b := (Top.dataBus r t').answered) addr rfl _ _
  have state (rx : BitVec 32) : Arch.exec ⟨pc, x, m, σ⟩ (.load .lw rd 0 0xF4) (gpio r (t' + 6))
      (Top.dataBus r t') rx = ⟨pc', writeReg x rd (gpio r (t' + 6)), m, σ⟩ := by
    simp only [Arch.exec, Instr.exec, Rv32i.Hart.goto_pc, Rv32i.Hart.goto_x, Core.hart_pc,
      Core.hart_set_x, MemRegs.commit_read we, Settings.commit, we, Bool.and_false,
      if_false, Bool.false_eq_true, Rv32i.LoadOp.extend]
    rw [← target]
    simp [BitVec.setWidth_add]
  rw [response, state, time, Top.acceptedFor, Top.storedBy, onchip, we, Bool.and_false] at next
  exact next

/-- A store of the ROM: the bus it puts its operands on. -/
def storeBus (x : RegFile) (op : Rv32i.StoreOp) (rs1 rs2 : BitVec 5) (off : BitVec 32) : Bus :=
  { addr := (readReg x rs1 + off).setWidth 8, wdata := readReg x rs2
    size := sizeCode op.width, we := true, valid := true }

theorem Leads.store_instr (s : Leads r t t' ⟨pc, x, m, σ⟩ log) (k : Nat) {op : Rv32i.StoreOp}
    {rs1 rs2 : BitVec 5} {off : BitVec 32} {b : Bus} (at_k : pc = romAddr k)
    (listed : listing[k]? = some (.store op rs1 rs2 off)) (target : pc + 4 = pc')
    (bus : storeBus x op rs1 rs2 off = b) :
    ∃ rx, Leads r t (t' + 7 + m.delay b) ⟨pc', x, m.commit b rx, σ.write b⟩
      (log ++ { polls := [], accepted := Top.acceptedFor m b, stores := [b] }) := by
  obtain ⟨next, time, decoded⟩ := s.instr at_k listed (by simp)
  have shown : Top.dataBus r t' = b := (Top.dataBus_store s.reached decoded rfl).trans bus
  have poll : k ≠ 7 := by rintro rfl; cases listed
  have store : b.we = true ∧ b.valid = true := by rw [← bus]; exact ⟨rfl, rfl⟩
  have state (v rx : BitVec 32) : Arch.exec ⟨pc, x, m, σ⟩ (.store op rs1 rs2 off) v b rx =
      ⟨pc', x, m.commit b rx, σ.write b⟩ := by
    simp only [Arch.exec, Instr.exec, Rv32i.Hart.goto_pc, Rv32i.Hart.goto_x, Core.hart_pc,
      Core.hart_x, Settings.commit, store, Bool.and_self, if_true]
    rw [← target]
    simp [BitVec.setWidth_add]
  rw [shown, state, if_neg poll, Top.storedBy, store.1, store.2, time, shown] at next
  exact ⟨_, next⟩

/-- A store to an on-chip location takes seven cycles, and is all that is logged. -/
theorem Leads.store (s : Leads r t t' ⟨pc, x, m, σ⟩ log) (k : Nat) {op : Rv32i.StoreOp}
    {rs1 rs2 : BitVec 5} {off : BitVec 32} {b : Bus} (at_k : pc = romAddr k)
    (listed : listing[k]? = some (.store op rs1 rs2 off)) (target : pc + 4 = pc')
    (bus : storeBus x op rs1 rs2 off = b) (onchip : m.inExt b = false) :
    Leads r t (t' + 7) ⟨pc', x, m.write b, σ.write b⟩
      (log ++ { polls := [], accepted := [], stores := [b] }) := by
  obtain ⟨rx, next⟩ := s.store_instr k at_k listed target bus
  have we : b.we = true := by rw [← bus]; rfl
  have commit : m.commit b rx = m.write b := by
    simp only [MemRegs.inExt, Bool.or_eq_false_iff] at onchip
    simp [MemRegs.commit, MemRegs.step, we, onchip.2]
  rw [MemRegs.delay_onchip (by rw [onchip, Bool.and_false]), Nat.add_zero, commit, Top.acceptedFor,
    onchip, Bool.and_false] at next
  exact next

/-- A store to the PSRAM window takes its transaction longer, and logs that too. -/
theorem Leads.storePsram (s : Leads r t t' ⟨pc, x, m, σ⟩ log) (k : Nat) {op : Rv32i.StoreOp}
    {rs1 rs2 : BitVec 5} {off : BitVec 32} {b : Bus} (at_k : pc = romAddr k)
    (listed : listing[k]? = some (.store op rs1 rs2 off)) (target : pc + 4 = pc')
    (bus : storeBus x op rs1 rs2 off = b) (psram : inExtPsram b.addr = true) :
    Leads r t (t' + 7 + (m.request b).delay) ⟨pc', x, m, σ.write b⟩
      (log ++ { polls := [], accepted := [m.request b], stores := [b] }) := by
  obtain ⟨rx, next⟩ := s.store_instr k at_k listed target bus
  have valid : b.valid = true := by rw [← bus]; rfl
  have external : m.inExt b = true := by simp [MemRegs.inExt, psram]
  have noSpi : MemRegs.inSpiWrite b = false := by
    rw [Bool.eq_false_iff, ne_eq, MemRegs.inSpiWrite_iff (m := m)]
    rintro ⟨here, -⟩
    have := inExtPsram_iff.mp psram
    omega
  rw [MemRegs.delay_external valid external, MemRegs.commit_external external, noSpi,
    Top.acceptedFor, valid, external] at next
  exact next

/-- A load from the PSRAM window, and the cycle in which the engine accepts it. -/
theorem Leads.loadPsram (s : Leads r t t' ⟨pc, x, m, σ⟩ log) (k : Nat) {op : Rv32i.LoadOp}
    {rd rs1 : BitVec 5} {off : BitVec 32} (at_k : pc = romAddr k) (poll : k ≠ 7)
    (listed : listing[k]? = some (.load op rd rs1 off)) (target : pc + 4 = pc')
    (psram : inExtPsram ((readReg x rs1 + off).setWidth 8) = true) :
    ∃ b : Bus, b.valid = true ∧ b.we = false ∧ b.addr = (readReg x rs1 + off).setWidth 8 ∧
      b.size = sizeCode op.width ∧
      accepts (r.state (t' + 5)) (r.input (t' + 5)) = some (m.request b) ∧
      Leads r t (t' + 7 + (m.request b).delay)
        ⟨pc', writeReg x rd (op.extend ((m.request b).received
          (Engine.samples (Mem.engineRun (Top.memRun r)) (t' + 5) (m.request b)))), m, σ⟩
        (log ++ { polls := [], accepted := [m.request b], stores := [] }) := by
  obtain ⟨next, time, decoded⟩ := s.instr at_k listed (by simp)
  obtain ⟨valid, we, addr, size⟩ := Top.dataBus_load s.reached decoded rfl
  change (Top.dataBus r t').addr = (readReg x rs1 + off).setWidth 8 at addr
  have running : Core.isEbreak (Top.word r t') = false := by
    rw [Bool.eq_false_iff, ne_eq, Core.isEbreak_iff decoded]; simp
  have external : m.inExt (Top.dataBus r t') = true := by simp [MemRegs.inExt, addr, psram]
  have mem : (r.state t').mem.regs = m := s.reached.mem
  have cycle : Top.dataCycle r t' = t' + 5 := by
    change _ = t' + 7 + m.delay _ at time
    unfold Top.next at time
    rw [← mem, ← Top.dataDelay] at time
    omega
  have issued := s.reached.boundary.data_issued running
  have regs : ((Top.memRun r).state (t' + 5)).regs = m := by
    rw [← cycle, s.reached.boundary.data_regs running, mem]
  have response : Top.loaded r t' = (m.request (Top.dataBus r t')).received
      (Engine.samples (Mem.engineRun (Top.memRun r)) (t' + 5) (m.request (Top.dataBus r t'))) := by
    have after := s.reached.boundary.data_after running
    have data := issued.reqRdata_after valid (by rw [cycle, regs]; exact external)
    rw [Mem.Issued.receivedBy, cycle, regs] at data
    rw [Top.dataDelay, mem, cycle] at after
    rw [Top.loaded_eq s.reached running, Top.dataDelay, mem, cycle, Mem.rdata_external]
    · exact data
    · rw [after.1, MemRegs.commit_read we]
      exact (MemRegs.inExt_read we).trans external
  have state (v rx : BitVec 32) : Arch.exec ⟨pc, x, m, σ⟩ (.load op rd rs1 off) v
      (Top.dataBus r t') rx = ⟨pc', writeReg x rd (op.extend v), m, σ⟩ := by
    simp only [Arch.exec, Instr.exec, Rv32i.Hart.goto_pc, Rv32i.Hart.goto_x, Core.hart_pc,
      Core.hart_set_x, MemRegs.commit_read we, Settings.commit, we, Bool.and_false,
      if_false, Bool.false_eq_true]
    rw [← target]
    simp [BitVec.setWidth_add]
  rw [state, if_neg poll, Top.storedBy, we, Bool.and_false, time,
    MemRegs.delay_external valid external, Top.acceptedFor, valid, external, response] at next
  refine ⟨_, valid, we, addr, size, ?_, next⟩
  have first := (s.reached.boundary.data_holds running).accepts_first
  obtain ⟨bus, regs'⟩ := s.reached.boundary.data_bus running
  rw [show t' + 4 + Top.fetchDelay r t' + 1 = Top.dataCycle r t' by unfold Top.dataCycle; omega,
    bus, regs', mem, cycle] at first
  exact first ((congrArg Bus.valid (cycle ▸ bus)).trans valid) external

end Kinds

end Extend

end Boot

end AgilA32
