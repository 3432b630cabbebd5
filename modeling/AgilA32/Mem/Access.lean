import AgilA32.Engine.Transfer
import AgilA32.Rtl.Mem

/-!
# One access on the memory bus

An access `b` put on the bus and held while `ready` is low (`Issued`) is stalled for
`MemRegs.delay` cycles: none on chip, and one transaction of the engine otherwise.  Meanwhile the
registers do not change; at the end they take the access's effect, `MemRegs.commit`, and the engine
rests again.
-/

namespace AgilA32

open Engine (Resting Accepts samples)

@[simp] theorem ramBase_toNat : ramBase.toNat = 176 := rfl
@[simp] theorem loadBase_toNat : loadBase.toNat = 180 := rfl
@[simp] theorem extPsramBase_toNat : extPsramBase.toNat = 224 := rfl
@[simp] theorem windowBytes_eq : windowBytes = 44 := rfl

section Decode

variable {addr : BitVec 8}

theorem inRom_iff : inRom addr = true ↔ addr.toNat < 176 := by
  rw [inRom, decide_eq_true_eq]
  rfl

theorem inRamRange_iff : inRamRange addr = true ↔ 176 ≤ addr.toNat ∧ addr.toNat < 224 := by
  rw [inRamRange, Bool.and_eq_true, decide_eq_true_eq, decide_eq_true_eq]
  rfl

theorem inLoadRange_iff : inLoadRange addr = true ↔ 180 ≤ addr.toNat ∧ addr.toNat < 224 := by
  rw [inLoadRange, Bool.and_eq_true, decide_eq_true_eq, decide_eq_true_eq]
  rfl

theorem inExtPsram_iff : inExtPsram addr = true ↔ 224 ≤ addr.toNat ∧ addr.toNat < 240 := by
  rw [inExtPsram, Bool.and_eq_true, decide_eq_true_eq, decide_eq_true_eq]
  rfl

theorem MemRegs.inRam_iff {m : MemRegs} : m.inRam addr = true ↔
    176 ≤ addr.toNat ∧ addr.toNat < 224 ∧ (m.flashMode = true → addr.toNat < 180) := by
  rw [inRam, Bool.and_eq_true, inRamRange_iff, Bool.not_eq_true', inExtFlash, Bool.and_eq_false_iff,
    ← Bool.not_eq_true, ← Bool.not_eq_true, inLoadRange_iff]
  by_cases flash : m.flashMode = true <;> simp [flash]
  omega

end Decode

/-- The bus of an access once it has been answered. -/
def Bus.answered (b : Bus) : Bus := { b with valid := false, we := false }

namespace MemRegs

variable (m : MemRegs) (b : Bus)

/-- How long memory stalls the access `b`. -/
def delay : Nat := if b.valid && m.inExt b then (m.request b).delay else 0

/-- The registers after the access `b`, for which the engine received `rx` if it was asked. -/
def commit (rx : BitVec 32) : MemRegs := m.step b true rx

/-- An address that goes to the engine is no on-chip location. -/
theorem external_addr : ∀ (addr : BitVec 8) (flash : Bool),
    (flash && inLoadRange addr || inExtPsram addr || addr == 0xFD#8) = true →
      (inRamRange addr && !(flash && inLoadRange addr)) = false ∧ inRom addr = false ∧
        addr ≠ 0xF0#8 ∧ addr ≠ 0xF1#8 ∧ addr ≠ 0xF5#8 ∧ addr ≠ 0xF6#8 ∧ addr ≠ 0xF7#8 ∧
        addr ≠ 0xF8#8 ∧ addr ≠ 0xF9#8 ∧ addr ≠ 0xFA#8 ∧ addr ≠ 0xFB#8 ∧ addr ≠ 0xFC#8 := by
  decide +kernel

variable {m b}

theorem inExt_addr (external : m.inExt b = true) :
    (m.flashMode && inLoadRange b.addr || inExtPsram b.addr || b.addr == 0xFD#8) = true := by
  simp only [inExt, inExtFlash, inSpiWrite, Bool.or_eq_true, Bool.and_eq_true] at external ⊢
  tauto

/-- The write path ignores an access that goes to the engine. -/
theorem write_external (external : m.inExt b = true) : m.write b = m := by
  obtain ⟨ram, -, led, bank, -, -, -, mode, -, -, div, page⟩ :=
    external_addr _ _ (inExt_addr external)
  simp only [write, inExtFlash, ram, led, bank, mode, div, page, if_false, Bool.false_eq_true]

theorem step_external (external : m.inExt b = true) (rx : BitVec 32) : m.step b false rx = m := by
  simp [step, write_external external]

theorem commit_external (external : m.inExt b = true) (rx : BitVec 32) :
    m.commit b rx =
      if inSpiWrite b then { m with spiLastRx := rx.extractLsb' 0 8 } else m := by
  simp [commit, step, write_external external]

theorem commit_onchip (onchip : m.inExt b = false) (ready : Bool) (rx rx' : BitVec 32) :
    m.step b ready rx = m.commit b rx' := by
  have spi : inSpiWrite b = false := by
    simp only [inExt, Bool.or_eq_false_iff] at onchip
    exact onchip.2
  simp [commit, step, spi]

/-- A read changes no register. -/
theorem step_read (read : b.we = false) (ready : Bool) (rx : BitVec 32) :
    m.step b ready rx = m := by
  simp [step, inSpiWrite, read]

theorem commit_read (read : b.we = false) (rx : BitVec 32) : m.commit b rx = m :=
  step_read read true rx

/-- The registers of the map are on chip, but for a store to `SPI_DATA`. -/
theorem inExt_register (above : 240 ≤ b.addr.toNat) (spi : b.we = false ∨ b.addr ≠ 0xFD#8) :
    m.inExt b = false := by
  have flash : inLoadRange b.addr = false := by
    rw [← Bool.not_eq_true, inLoadRange_iff]; omega
  have psram : inExtPsram b.addr = false := by
    rw [← Bool.not_eq_true, inExtPsram_iff]; omega
  rcases spi with read | other
  · simp [inExt, inExtFlash, flash, psram, inSpiWrite, read]
  · simp [inExt, inExtFlash, flash, psram, inSpiWrite, other]

/-- A read goes to the engine by its address alone. -/
theorem inExt_read (read : b.we = false) :
    m.inExt { b with valid := false, we := false } = m.inExt b := by
  simp [inExt, inSpiWrite, read]

theorem delay_external (valid : b.valid = true) (external : m.inExt b = true) :
    m.delay b = (m.request b).delay := by
  simp [delay, valid, external]

theorem delay_onchip (onchip : (b.valid && m.inExt b) = false) : m.delay b = 0 := by
  simp [delay, onchip]

theorem request_valid : (m.request b).valid = (b.valid && m.inExt b) := rfl

end MemRegs

namespace Mem

/-- The engine's own history in a run of the memory. -/
def engineRun (r : Clocked.Run Mem.step) : Clocked.Run Engine.step :=
  r.map (·.qspi) (fun m i => { req := m.regs.request i.bus, miso := i.miso }) fun _ _ => rfl

/-- A read from an external window shows the engine's output register. -/
theorem rdata_external {m : Mem} {b : Bus} (external : m.regs.inExt b = true) (gpioIn : BitVec 8)
    (undef : BitVec 32) : m.rdata b gpioIn undef = m.qspi.reqRdata := by
  obtain ⟨ram, rom, -⟩ := MemRegs.external_addr _ _ (MemRegs.inExt_addr external)
  have noRam : m.regs.inRam b.addr = false := ram
  simp [rdata, rom, noRam, external]

/-- A read of `GPIO_IN` shows the pins. -/
theorem rdata_gpio {m : Mem} {b : Bus} (addr : b.addr = 0xF4#8) (read : b.we = false)
    (gpioIn : BitVec 8) (undef : BitVec 32) : m.rdata b gpioIn undef = gpioIn.setWidth 32 := by
  have rom : inRom b.addr = false := by rw [addr]; rfl
  have ram : m.regs.inRam b.addr = false := by rw [addr]; rfl
  have ext : m.regs.inExt b = false :=
    MemRegs.inExt_register (by rw [addr]; decide) (.inl read)
  rw [rdata, rom, ram, ext, addr]
  rfl

/-- A cycle with nothing on the bus leaves registers and engine alone. -/
theorem step_quiet {m : Mem} {i : MemIn} (rest : Resting m.qspi) (valid : i.bus.valid = false)
    (we : i.bus.we = false) : (m.step i).regs = m.regs ∧ (m.step i).qspi = m.qspi :=
  ⟨MemRegs.step_read we _ _, rest.step (by simp [MemRegs.request, valid])⟩

/-- The access `b` is put on the bus in cycle `a`, and held while `ready` is low. -/
structure Issued (r : Clocked.Run Mem.step) (a : Nat) (b : Bus) : Prop where
  first : (r.input a).bus = b
  held : ∀ k, (∀ j, j ≤ k → (r.state (a + j)).ready (r.input (a + j)).bus = false) →
    (r.input (a + k + 1)).bus = b
  strobe : b.we = true → b.valid = true
  rest : Resting (r.state a).qspi

namespace Issued

variable {r : Clocked.Run Mem.step} {a : Nat} {b : Bus}

/-- An external access is accepted by the engine in its first cycle. -/
theorem accepts (start : Issued r a b) (valid : b.valid = true)
    (external : (r.state a).regs.inExt b = true) :
    Accepts (engineRun r) a (r.state a).qspi ((r.state a).regs.request b) where
  here := rfl
  idle := start.rest.idle
  req := by simp [engineRun, Clocked.Run.map, start.first]
  valid := by simp [MemRegs.request, valid, external]

/-- The engine announces nothing while the access is stalled. -/
theorem reqReady_low (start : Issued r a b) {k : Nat} (before : k < (r.state a).regs.delay b) :
    (b.valid && (r.state a).regs.inExt b) = true ∧ (r.state (a + k)).qspi.reqReady = false := by
  by_cases external : (b.valid && (r.state a).regs.inExt b) = true
  · refine ⟨external, ?_⟩
    rw [Bool.and_eq_true] at external
    rw [MemRegs.delay_external external.1 external.2] at before
    rcases Nat.eq_zero_or_pos k with rfl | pos
    · exact start.rest.quiet
    · exact ((start.accepts external.1 external.2).busy_at (u := a + k)
        (by omega) (by omega)).1
  · rw [MemRegs.delay_onchip (by simpa using external)] at before
    omega

/-- Until `ready` comes the access stands on the bus and the registers do not change. -/
theorem waiting (start : Issued r a b) {k : Nat} (upto : k ≤ (r.state a).regs.delay b) :
    (r.input (a + k)).bus = b ∧ (r.state (a + k)).regs = (r.state a).regs := by
  induction k using Nat.strongRecOn with
  | ind k ih =>
      rcases k with _ | k
      · exact ⟨start.first, rfl⟩
      have low (j : Nat) (within : j ≤ k) :
          (r.state (a + j)).ready (r.input (a + j)).bus = false := by
        obtain ⟨bus, regs⟩ := ih j (by omega) (by omega)
        obtain ⟨external, quiet⟩ := start.reqReady_low (k := j) (by omega)
        simp [ready, bus, regs, external, quiet]
      obtain ⟨bus, regs⟩ := ih k (by omega) (by omega)
      obtain ⟨external, quiet⟩ := start.reqReady_low (k := k) (by omega)
      rw [Bool.and_eq_true] at external
      refine ⟨start.held k low, ?_⟩
      rw [← Nat.add_assoc, r.edge, step, bus, regs, quiet, MemRegs.step_external external.2]

theorem ready_low (start : Issued r a b) {k : Nat} (before : k < (r.state a).regs.delay b) :
    (r.state (a + k)).ready (r.input (a + k)).bus = false := by
  obtain ⟨bus, regs⟩ := start.waiting (Nat.le_of_lt before)
  obtain ⟨external, quiet⟩ := start.reqReady_low before
  simp [ready, bus, regs, external, quiet]

theorem ready_high (start : Issued r a b) :
    (r.state (a + (r.state a).regs.delay b)).ready
      (r.input (a + (r.state a).regs.delay b)).bus = true := by
  obtain ⟨bus, regs⟩ := start.waiting le_rfl
  by_cases external : (b.valid && (r.state a).regs.inExt b) = true
  · rw [ready, bus, regs, if_pos external]
    rw [Bool.and_eq_true] at external
    rw [MemRegs.delay_external external.1 external.2]
    exact (start.accepts external.1 external.2).ready_at.2.1
  · rw [ready, bus, regs, if_neg external]

/-- What the engine receives for an external access. -/
def receivedBy (r : Clocked.Run Mem.step) (a : Nat) (b : Bus) : BitVec 32 :=
  ((r.state a).regs.request b).received
    (samples (engineRun r) a ((r.state a).regs.request b))

/-- The access is over: its effect has been committed and the engine rests. -/
theorem after (start : Issued r a b) :
    (r.state (a + (r.state a).regs.delay b + 1)).regs =
        (r.state a).regs.commit b (receivedBy r a b) ∧
      Resting (r.state (a + (r.state a).regs.delay b + 1)).qspi := by
  obtain ⟨bus, regs⟩ := start.waiting le_rfl
  by_cases external : (b.valid && (r.state a).regs.inExt b) = true
  · rw [Bool.and_eq_true] at external
    have transfer := start.accepts external.1 external.2
    obtain ⟨-, pulse, data⟩ := transfer.ready_at
    rw [MemRegs.delay_external external.1 external.2] at bus regs ⊢
    refine ⟨?_, transfer.rest_at.1⟩
    rw [r.edge, step, bus, regs]
    change MemRegs.step _ _ ((engineRun r).state _).reqReady ((engineRun r).state _).reqRdata = _
    rw [pulse, data]
    rfl
  · rw [MemRegs.delay_onchip (by simpa using external)] at bus regs ⊢
    have idle : ((r.state a).regs.request (r.input a).bus).valid = false := by
      rw [start.first, MemRegs.request_valid]; simpa using external
    have still : (r.state (a + 0 + 1)).qspi = (r.state a).qspi := by
      rw [r.edge]
      exact start.rest.step idle
    refine ⟨?_, still ▸ start.rest⟩
    rw [Nat.add_zero] at bus ⊢
    rw [r.edge, step, bus]
    change MemRegs.step _ _ _ _ = _
    by_cases we : b.we = true
    · have onchip : (r.state a).regs.inExt b = false := by
        simpa [start.strobe we] using external
      exact MemRegs.commit_onchip onchip _ _ _
    · rw [MemRegs.step_read (by simpa using we), MemRegs.commit_read (by simpa using we)]

/-- An external access leaves the data it received in the engine's output register. -/
theorem reqRdata_after (start : Issued r a b) (valid : b.valid = true)
    (external : (r.state a).regs.inExt b = true) :
    (r.state (a + (r.state a).regs.delay b + 1)).qspi.reqRdata = receivedBy r a b := by
  rw [MemRegs.delay_external valid external]
  exact (start.accepts valid external).rest_at.2

end Issued

end Mem

/-! ## The settings of the timer and the PWM -/

/-- What software has written to the timer and PWM registers. -/
structure Settings where
  timerEnable : Bool
  pwmDuty : BitVec 8
  pwmEnable : Bool
  pinMux : BitVec 2
  deriving DecidableEq, Repr

namespace Settings

/-- The settings after a write that is on the bus. -/
def write (s : Settings) (b : Bus) : Settings :=
  { timerEnable := if b.addr = 0xF5#8 then b.wdata.getLsbD 0 else s.timerEnable
    pwmDuty := if b.addr = 0xF7#8 then b.wdata.extractLsb' 0 8 else s.pwmDuty
    pwmEnable := if b.addr = 0xF9#8 then b.wdata.getLsbD 0 else s.pwmEnable
    pinMux := if b.addr = 0xFA#8 then b.wdata.extractLsb' 0 2 else s.pinMux }

/-- The settings after an access that is on the bus. -/
def commit (s : Settings) (b : Bus) : Settings := if b.valid && b.we then s.write b else s

theorem write_other {s : Settings} {b : Bus} (timer : b.addr ≠ 0xF5#8) (duty : b.addr ≠ 0xF7#8)
    (enable : b.addr ≠ 0xF9#8) (mux : b.addr ≠ 0xFA#8) : s.write b = s := by
  simp [write, timer, duty, enable, mux]

theorem commit_commit (s : Settings) (b : Bus) : (s.commit b).commit b = s.commit b := by
  unfold commit
  split
  · unfold write
    simp only [Settings.mk.injEq]
    exact ⟨by grind, by grind, by grind, by grind⟩
  · rfl

end Settings

namespace Mem

def settings (m : Mem) : Settings :=
  { timerEnable := m.timer.timerEnable, pwmDuty := m.pwm.pwmDuty
    pwmEnable := m.pwm.pwmEnable, pinMux := m.pwm.pinMux }

theorem step_settings (m : Mem) (i : MemIn) : (m.step i).settings = m.settings.commit i.bus := by
  have tick : m.timer.tick.timerEnable = m.timer.timerEnable := by
    unfold Timer.tick; split <;> rfl
  have timer : (m.timer.step i.bus).timerEnable =
      if i.bus.valid && i.bus.we && i.bus.addr == 0xF5#8 then i.bus.wdata.getLsbD 0
      else m.timer.timerEnable := by
    unfold Timer.step
    by_cases ctrl : (i.bus.valid && i.bus.we && i.bus.addr == 0xF5#8) = true <;>
      by_cases flag : (i.bus.valid && i.bus.we && i.bus.addr == 0xF6#8) = true <;>
      simp only [ctrl, flag, if_true, if_false, tick, Bool.false_eq_true]
  simp only [settings, step, Pwm.step, timer, Settings.commit]
  by_cases write : (i.bus.valid && i.bus.we) = true <;> simp [write, Settings.write]

/-- A held access commits to the settings once. -/
theorem Issued.settings_after {r : Clocked.Run Mem.step} {a : Nat} {b : Bus}
    (start : Issued r a b) :
    (r.state (a + (r.state a).regs.delay b + 1)).settings = (r.state a).settings.commit b := by
  have steps (k : Nat) (upto : k ≤ (r.state a).regs.delay b) :
      (r.state (a + k + 1)).settings = (r.state a).settings.commit b := by
    induction k with
    | zero => rw [Nat.add_zero, r.edge, step_settings, start.first]
    | succ k ih =>
        rw [← Nat.add_assoc, r.edge, step_settings, ih (by omega), Nat.add_assoc,
          (start.waiting upto).1, Settings.commit_commit]
  exact steps _ le_rfl

end Mem

end AgilA32
