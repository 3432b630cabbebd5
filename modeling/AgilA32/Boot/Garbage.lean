import AgilA32.Boot.Exec
import AgilA32.Top.Agree

/-!
# Boot does not depend on power-up garbage

The boot ROM reads no register before it has written it, and no RAM.  `written` is the evidence: for each
of its instructions the registers written on every way there, which `flows` checks instruction by
instruction.  `RECV_BYTE` is called from two places, before and after `BYTE_LOOP` has set up `x4` and
`x5`; the link register tells which.

Two runs from reset with the same inputs then stay in lock step (`InStep`) until an instruction outside
the ROM is requested.
-/

namespace AgilA32

namespace Boot

open AgilA32.Core (hart readReg)
open Rv32i (Hart Instr decode)

/-! ## Which registers have been written -/

/-- The registers written before the instruction `k`. -/
def table : List (List (BitVec 5)) :=
  [ -- SELFTEST
    [], [2], [2], [2, 6], [2, 6, 8], [],
    -- MAIN_INIT
    [8],
    -- MAIN_LOOP
    [8, 9], [2, 8, 9], [2, 8, 9], [8, 9], [8, 9], [3, 8, 9], [2, 8, 9], [8, 9], [3, 8, 9], [], [],
    -- START_SEEN
    [], [6], [4],
    -- BYTE_LOOP
    [4, 5], [4, 5], [4, 5, 6], [4, 5], [4, 5], [4, 5],
    -- RUN
    [],
    -- RECV_BYTE
    [1], [1, 6],
    -- BIT_WAIT_HIGH
    [1, 6, 7], [1, 2, 6, 7], [1, 2, 3, 6, 7], [1, 2, 6, 7], [1, 2, 6, 7], [1, 2, 6, 7],
    [1, 6, 7],
    -- BIT_WAIT_LOW
    [1, 6, 7], [1, 2, 6, 7], [1, 2, 6, 7], [1, 6, 7], [1, 6, 7], [1, 3, 6, 7], [1, 6] ]

/-- `RECV_BYTE` returns to `START_SEEN` or to `BYTE_LOOP`. -/
def Returns (link : BitVec 32) : Prop := link = 0x4C ∨ link = 0x5C

instance (link : BitVec 32) : Decidable (Returns link) := instDecidableOr

/-- The registers written before the instruction `k`, when `RECV_BYTE` is to return to `link`. -/
def written (link : BitVec 32) (k : Nat) : List (BitVec 5) :=
  table.getD k [] ++ if 28 ≤ k ∧ link = 0x5C then [4, 5] else []

/-- A call of `RECV_BYTE`, the only kind of instruction that writes the link. -/
def isCall : Instr → Bool
  | .jal rd _ => rd == 1
  | _ => false

/-- The link after the instruction `i` at place `k`. -/
def linkAfter (link : BitVec 32) (k : Nat) (i : Instr) : BitVec 32 :=
  if isCall i then .ofNat 32 (4 * k) + 4 else link

/-- A `JALR` returns by the link, and only in `RECV_BYTE`. -/
def returnsByLink (k : Nat) : Instr → Bool
  | .jalr _ rs1 _ => rs1 == 1 && decide (28 ≤ k)
  | _ => true

/-- The instruction `i` at place `k` reads only what has been written.  Wherever it leads in ROM, what has
been written there has been written before `i` or by it; and in `RECV_BYTE` the link is known. -/
def Flows (link : BitVec 32) (k : Nat) (i : Instr) : Prop :=
  Returns (linkAfter link k i) ∧ (i.writes = some 1 → isCall i = true) ∧ returnsByLink k i = true ∧
  ∀ pc ∈ (i.exits (.ofNat 32 (4 * k)) link).map (BitVec.setWidth 8),
    if pc.toNat < 176 then
      pc = romAddr (pc.toNat / 4) ∧ (28 ≤ pc.toNat / 4 → 28 ≤ k ∨ isCall i = true) ∧
        i.Assigns (written link k) (written (linkAfter link k i) (pc.toNat / 4))
    else i.Assigns (written link k) []

instance (link : BitVec 32) (k : Nat) (i : Instr) : Decidable (Flows link k i) :=
  @instDecidableAnd _ _ _ (@instDecidableAnd _ _ _ (@instDecidableAnd _ _ _ (List.decidableBAll _ _)))

theorem flows {link : BitVec 32} (returns : Returns link) :
    ∀ p ∈ listing.zipIdx, Flows link p.2 p.1 := by
  rcases returns with rfl | rfl <;> decide +kernel

/-- A load is from `x0` plus an offset, and not from the RAM. -/
def loadsOutside : Instr → Bool
  | .load _ _ rs1 offset => rs1 == 0 && !inRamRange (offset.setWidth 8)
  | _ => true

theorem listing_loads : ∀ i ∈ listing, loadsOutside i = true ∧ i ≠ .ebreak := by decide

theorem get_link {i : Instr} (call : isCall i = true) (h : Hart) (v : BitVec 32) :
    (i.exec h v).get 1 = h.pc + 4 := by
  cases i with
  | jal rd offset =>
      obtain rfl : rd = 1 := eq_of_beq call
      simp [Instr.exec, Hart.get_set]
  | _ => cases call

/-! ## Two register files at the same place of the ROM -/

/-- At `pc`, two register files agree on what has been written. -/
def Known (pc : BitVec 8) (x x' : RegFile) : Prop :=
  ∃ link k i, Returns link ∧ listing[k]? = some i ∧ pc = romAddr k ∧
    (28 ≤ k → readReg x 1 = link) ∧ Hart.AgreeOn (written link k) (hart pc x) (hart pc x')

theorem Known.start (x x' : RegFile) : Known 0 x x' :=
  ⟨0x4C, 0, _, .inl rfl, rfl, rfl, fun late => by omega, fun q member => by cases member⟩

theorem Known.next {pc : BitVec 8} {x x' : RegFile} (known : Known pc x x') :
    ∃ i ∈ listing, decode (romWord pc) = some i ∧ Hart.AgreeOn i.reads (hart pc x) (hart pc x') ∧
      ∀ v v', (i.isLoad = true → v' = v) →
        (i.exec (hart pc x') v').pc = (i.exec (hart pc x) v).pc ∧
        (((i.exec (hart pc x) v).pc.setWidth 8).toNat < 176 →
          Known ((i.exec (hart pc x) v).pc.setWidth 8) (i.exec (hart pc x) v).x
            (i.exec (hart pc x') v').x) := by
  obtain ⟨link, k, i, returns, listed, rfl, linked, same⟩ := known
  have within : k < 44 := (List.getElem?_eq_some_iff.mp listed).1
  have decoded : decode (romWord (romAddr k)) = some i := by rw [decode_romWord k within, listed]
  have place : (hart (romAddr k) x).pc = .ofNat 32 (4 * k) := by
    refine BitVec.eq_of_toNat_eq ?_
    simp [romAddr]
    omega
  obtain ⟨returns', calls, byLink, edges⟩ := flows returns (i, k) (List.mem_zipIdx_iff_getElem?.mpr listed)
  dsimp only at returns' calls byLink edges
  have byLink' (rd rs1 : BitVec 5) (offset : BitVec 32) (jalr : i = .jalr rd rs1 offset) :
      (hart (romAddr k) x).get rs1 = link := by
    rw [jalr, returnsByLink, Bool.and_eq_true, beq_iff_eq, decide_eq_true_eq] at byLink
    rw [byLink.1]
    exact linked byLink.2
  have edge (v : BitVec 32) := edges _ (List.mem_map_of_mem
    (place ▸ Instr.exec_pc_mem i (hart (romAddr k) x) v link byLink'))
  have read : Hart.AgreeOn i.reads (hart (romAddr k) x) (hart (romAddr k) x') := by
    have first := edge 0
    split at first
    · exact first.2.2.agreeOn_reads same
    · exact first.agreeOn_reads same
  refine ⟨i, List.mem_of_getElem? listed, decoded, read, fun v v' answer => ?_⟩
  refine ⟨Instr.exec_pc_congr read rfl, fun inside => ?_⟩
  have here := edge v
  rw [if_pos inside] at here
  obtain ⟨aligned, calls', assigns⟩ := here
  have same' := assigns.exec same rfl answer
  have next : ((i.exec (hart (romAddr k) x) v).pc.setWidth 8).toNat / 4 < listing.length := by
    change _ < 44
    omega
  refine ⟨_, _, _, returns', List.getElem?_eq_getElem next, aligned, fun late => ?_, same'⟩
  by_cases call : isCall i = true
  · rw [linkAfter, if_pos call, ← place]
    exact get_link call _ v
  · rw [linkAfter, if_neg call]
    have other : i.writes ≠ some 1 := fun write => call (calls write)
    exact (Instr.exec_get_other other _ v).trans (linked ((calls' late).resolve_right call))

/-! ## Two cores in lock step -/

/-- Two cores about to fetch the same instruction. -/
structure Begins (b b' : Core) : Prop where
  core : b.Agrees b'
  fetch : b.state = .fetch
  known : b.pc.toNat < 176 → Known b.pc b.regs b'.regs

/-- Two cores in the same cycle of the same instruction, one that begins at `b` and `b'`. -/
inductive InStep : Core → Core → Prop
  | fetch {b b' : Core} : Begins b b' → InStep b b'
  | fetching {b b' : Core} : Begins b b' → InStep b.fetching b'.fetching
  | fetched {b b' : Core} : Begins b b' → b.pc.toNat < 176 → InStep b.fetched b'.fetched
  | latched {b b' : Core} : Begins b b' → b.pc.toNat < 176 →
      InStep (b.latched (romWord b.pc)) (b'.latched (romWord b.pc))
  | executed {b b' : Core} : Begins b b' → b.pc.toNat < 176 →
      InStep (b.executed (romWord b.pc)) (b'.executed (romWord b.pc))
  | issued {b b' : Core} : Begins b b' → b.pc.toNat < 176 →
      InStep (b.issued (romWord b.pc)) (b'.issued (romWord b.pc))
  | accessed {b b' : Core} : Begins b b' → b.pc.toNat < 176 →
      InStep (b.accessed (romWord b.pc)) (b'.accessed (romWord b.pc))

theorem begins_reset (c c' : Core) : Begins c.reset c'.reset :=
  ⟨Core.agrees_reset _ _, rfl, fun _ => Known.start _ _⟩

variable {b b' c c' : Core}

theorem Begins.issued (begins : Begins b b') (rom : b.pc.toNat < 176) :
    (b.issued (romWord b.pc)).Agrees (b'.issued (romWord b.pc)) := by
  obtain ⟨i, -, decoded, read, -⟩ := (begins.known rom).next
  exact begins.core.issued decoded read

theorem Begins.accessed (begins : Begins b b') (rom : b.pc.toNat < 176) :
    (b.accessed (romWord b.pc)).Agrees (b'.accessed (romWord b.pc)) := by
  obtain ⟨-, pc, ir, addr, data, size, -, -⟩ := begins.issued rom
  exact ⟨rfl, pc, ir, addr, data, size, rfl, rfl⟩

theorem memAddr_of_read {addr : BitVec 8} {size : BitVec 2}
    (read : c.busAccess = some (.read addr size)) : c.memAddr = addr := by
  unfold Core.busAccess at read
  split at read
  · split at read <;> cases read
    rfl
  · cases read

/-- The loads of the ROM are not from the RAM. -/
theorem accessed_memAddr {w : BitVec 32} {i : Instr} (decoded : decode w = some i)
    (load : i.isLoad = true) (outside : loadsOutside i = true) :
    inRamRange (b.accessed w).memAddr = false := by
  cases i with
  | load op rd rs1 offset =>
      rw [loadsOutside, Bool.and_eq_true, beq_iff_eq, Bool.not_eq_true'] at outside
      have bus := Core.issued_busAccess b w
      have sum : (0 : BitVec 32) + offset = offset := BitVec.zero_add offset
      rw [Core.dataAccess_eq b.pc b.regs decoded, Instr.memReq, Option.map_some, Core.toAccess,
        outside.1, Hart.get_zero, sum] at bus
      change inRamRange (b.issued w).memAddr = false
      rw [memAddr_of_read bus]
      exact outside.2
  | _ => cases load

/-- If two cores begin an instruction of the ROM alike, they begin the next one alike. -/
theorem Begins.retired (begins : Begins b b') (rom : b.pc.toNat < 176) {v v' : BitVec 32}
    (away : inRamRange (b.accessed (romWord b.pc)).memAddr = false → v' = v) :
    Begins (b.retired (romWord b.pc) v) (b'.retired (romWord b.pc) v') := by
  obtain ⟨i, member, decoded, -, next⟩ := (begins.known rom).next
  obtain ⟨outside, live⟩ := listing_loads i member
  obtain ⟨pc, known⟩ := next v v' fun load => away (accessed_memAddr decoded load outside)
  have accessed := begins.accessed rom
  refine ⟨⟨rfl, ?_, accessed.ir, accessed.memAddr, accessed.memWdata, accessed.memSize, rfl, rfl⟩, rfl,
    fun inside => ?_⟩
  · rw [Core.retired_pc, Core.retired_pc, begins.core.pc, Core.nextPcOf_eq _ b.regs v decoded live,
      Core.nextPcOf_eq _ b'.regs v' decoded live, pc]
  · rw [Core.retired_pc, Core.nextPcOf_eq _ _ v decoded live] at inside ⊢
    rw [Core.retired_regs, Core.retired_regs, begins.core.pc,
      Core.writeBack_eq _ b.regs v decoded live, Core.writeBack_eq _ b'.regs v' decoded live]
    exact known inside

/-- Two cores in lock step are the same but for the registers. -/
theorem InStep.agrees (step : InStep c c') : c.Agrees c' := by
  cases step with
  | fetch begins => exact begins.core
  | fetching begins =>
      obtain ⟨-, pc, ir, -, data, -, -, -⟩ := begins.core
      exact ⟨rfl, pc, ir, pc, data, rfl, rfl, rfl⟩
  | fetched begins =>
      obtain ⟨-, pc, ir, -, data, -, -, -⟩ := begins.core
      exact ⟨rfl, pc, ir, pc, data, rfl, rfl, rfl⟩
  | latched begins | executed begins =>
      obtain ⟨-, pc, -, -, data, -, -, -⟩ := begins.core
      exact ⟨rfl, pc, rfl, pc, data, rfl, rfl, rfl⟩
  | issued begins rom => exact begins.issued rom
  | accessed begins rom => exact begins.accessed rom

/-- An instruction outside the ROM is being requested. -/
def Requests (c : Core) : Prop := c.state = .fetchWait ∧ inRom c.memAddr = false

/-- Two cores stay in lock step if they see the same answers but for the RAM, and those of the ROM. -/
theorem InStep.step (step : InStep c c') {i i' : Reply} (ready : i'.ready = i.ready)
    (away : inRamRange c.memAddr = false → i'.rdata = i.rdata)
    (rom : inRom c.memAddr = true → i.rdata = romWord c.memAddr) (inside : ¬Requests c) :
    InStep (c.step i) (c'.step i') := by
  have outside {addr : BitVec 8} (rom : addr.toNat < 176) : inRamRange addr = false := by
    rw [← Bool.not_eq_true, inRamRange_iff]
    omega
  cases step with
  | fetch begins =>
      rw [Core.step_fetch _ begins.fetch, Core.step_fetch _ (begins.core.state.trans begins.fetch)]
      exact .fetching begins
  | @fetching b b' begins =>
      have within : b.pc.toNat < 176 := by
        by_contra leaves
        exact inside ⟨rfl, Bool.eq_false_iff.mpr fun rom => leaves (inRom_iff.mp rom)⟩
      cases answer : i.ready
      · rw [Core.step_fetching_wait _ answer, Core.step_fetching_wait _ (ready.trans answer)]
        exact .fetching begins
      · rw [Core.step_fetching_ready _ answer, Core.step_fetching_ready _ (ready.trans answer)]
        exact .fetched begins within
  | @fetched b b' begins within =>
      have word : i.rdata = romWord b.pc := rom (inRom_iff.mpr within)
      have word' : i'.rdata = romWord b.pc := (away (outside within)).trans word
      rw [Core.step_fetched, Core.step_fetched, word, word']
      exact .latched begins within
  | @latched b b' begins within =>
      obtain ⟨j, member, decoded, -⟩ := (begins.known within).next
      have live : Core.isEbreak (romWord b.pc) = false := by
        rw [Bool.eq_false_iff, ne_eq, Core.isEbreak_iff decoded]
        exact (listing_loads j member).2
      rw [Core.step_latched _ _ live, Core.step_latched _ _ live]
      exact .executed begins within
  | executed begins within =>
      rw [Core.step_executed, Core.step_executed]
      exact .issued begins within
  | issued begins within =>
      cases answer : i.ready
      · rw [Core.step_issued_wait _ _ answer, Core.step_issued_wait _ _ (ready.trans answer)]
        exact .issued begins within
      · rw [Core.step_issued_ready _ _ answer, Core.step_issued_ready _ _ (ready.trans answer)]
        exact .accessed begins within
  | accessed begins within =>
      rw [Core.step_accessed, Core.step_accessed]
      exact .fetch (begins.retired within away)

/-! ## Two runs from reset -/

/-- Two designs in lock step. -/
structure Tied (s s' : Top) : Prop where
  core : InStep s.core s'.core
  mem : s.mem.Agrees s'.mem

theorem Tied.agrees {s s' : Top} (tied : Tied s s') : s.Agrees s' := ⟨tied.core.agrees, tied.mem⟩

theorem Tied.step {s s' : Top} (tied : Tied s s') {i i' : TopIn} (ui : i'.uiIn = i.uiIn)
    (uio : i'.uioIn = i.uioIn) (inside : ¬Requests s.core) : Tied (s.step i) (s'.step i') := by
  have bus : s'.core.bus = s.core.bus := tied.core.agrees.bus
  have miso : i'.qspiMiso = i.qspiMiso := congrArg (BitVec.getLsbD · 2) uio
  constructor
  · refine tied.core.step ?_ (fun away => ?_) (fun rom => if_pos rom) inside
    · change s'.mem.ready s'.core.bus = s.mem.ready s.core.bus
      rw [bus, tied.mem.ready]
    · change s'.mem.rdata s'.core.bus i'.uiIn i'.undef = s.mem.rdata s.core.bus i.uiIn i.undef
      rw [bus, ui]
      exact tied.mem.rdata away _ _ _
  · exact tied.mem.step bus miso

/-- Boot behaviour does not depend on power-up garbage.  Two runs from reset with the same `ui_in` and
`uio_in` show the same on every output pin, up to and including the cycle in which an instruction outside
the ROM is requested for the first time, and are the same in everything that reset initialises. -/
theorem boot_ignores_garbage (r r' : Clocked.Run Top.step) (s s' : Top) (reset : r.state 0 = s.reset)
    (reset' : r'.state 0 = s'.reset)
    (same : ∀ t, (r'.input t).uiIn = (r.input t).uiIn ∧ (r'.input t).uioIn = (r.input t).uioIn)
    {v : Nat} (inside : ∀ u, u < v → ¬Requests (r.state u).core) :
    ((r'.state v).uoOut = (r.state v).uoOut ∧ (r'.state v).uioOut = (r.state v).uioOut ∧
      (r'.state v).uioOe = (r.state v).uioOe) ∧ (r.state v).Agrees (r'.state v) := by
  have start : Tied (r.state 0) (r'.state 0) := by
    rw [reset, reset']
    exact ⟨.fetch (begins_reset _ _), Mem.agrees_reset _ _⟩
  have tied := r.lockstep r' start (n := v)
    (fun t before tied => tied.step (same t).1 (same t).2 (inside t before)) v le_rfl
  exact ⟨tied.agrees.pins, tied.agrees⟩

/-- A power-up state with every bit set that reset leaves alone. -/
def ones : Top where
  core := { Core.zeroed with aluResult := -1, nextPc := -1, regs := fun _ => -1 }
  mem :=
    { Top.zeroed.mem with
      regs := { Top.zeroed.mem.regs with ramWords := Vector.replicate 12 (-1) }
      qspi := { Top.zeroed.mem.qspi with nbitsTotal := -1, bitsDone := -1, dataBits := -1 } }

def onesRun : Clocked.Run Top.step :=
  .ofInputs Top.step ones.reset fun _ => { uiIn := 0, uioIn := 0, undef := -1 }

/-- Twelve cycles after reset this state and the one of all zeros show the same, and both ask for the
pattern of the self-test to be written. -/
theorem boot_ignores_garbage_ones :
    (onesRun.state 12).uioOut = (Top.zeroedRun.state 12).uioOut ∧
      (onesRun.state 12).core.bus = (Top.zeroedRun.state 12).core.bus ∧
      (Top.zeroedRun.state 12).core.bus.wdata = 0xA5#32 := by
  obtain ⟨pins, agrees⟩ := boot_ignores_garbage Top.zeroedRun onesRun Top.zeroed ones rfl rfl
    (fun _ => ⟨rfl, rfl⟩) (v := 12)
    (show ∀ u < 12, ¬((Top.zeroedRun.state u).core.state = .fetchWait ∧
      inRom (Top.zeroedRun.state u).core.memAddr = false) by decide +kernel)
  exact ⟨pins.2.1, agrees.core.bus, by decide +kernel⟩

end Boot

end AgilA32
