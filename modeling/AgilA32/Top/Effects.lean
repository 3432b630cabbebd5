import AgilA32.Mem.FlashWindow
import AgilA32.Top.Events

/-!
# What an access changes

An access commits in its last cycle and not before: until then the registers stand and the counters
count (`Holds.waits_mem`), and then a load leaves everything as it was, and a store writes the bytes
it names or the one register at its address (`Holds.commits`).  In every other cycle of a run nothing
is written (`quiet_unchanged`), so that each store commits exactly once (`access_effects`).
-/

namespace AgilA32

/-! ## The registers by address -/

/-- The memory-mapped registers that software can write. -/
inductive Register
  | ledOut | psramBank | timerCtrl | timerFlag | pwmDuty | flashMode | pwmEnable | pinMux | qspiDiv
  | flashPage | spiData
  deriving DecidableEq, Repr

namespace Register

def addr : Register → BitVec 8
  | .ledOut => 0xF0
  | .psramBank => 0xF1
  | .timerCtrl => 0xF5
  | .timerFlag => 0xF6
  | .pwmDuty => 0xF7
  | .flashMode => 0xF8
  | .pwmEnable => 0xF9
  | .pinMux => 0xFA
  | .qspiDiv => 0xFB
  | .flashPage => 0xFC
  | .spiData => 0xFD

/-- What a register holds. -/
def value (m : Mem) : Register → BitVec 8
  | .ledOut => m.regs.gpioOut
  | .psramBank => (BitVec.ofBool m.regs.psramBank).setWidth 8
  | .timerCtrl => (BitVec.ofBool m.timer.timerEnable).setWidth 8
  | .timerFlag => (BitVec.ofBool m.timer.timerOverflow).setWidth 8
  | .pwmDuty => m.pwm.pwmDuty
  | .flashMode => (BitVec.ofBool m.regs.flashMode).setWidth 8
  | .pwmEnable => (BitVec.ofBool m.pwm.pwmEnable).setWidth 8
  | .pinMux => m.pwm.pinMux.setWidth 8
  | .qspiDiv => m.regs.qspiDivSel.setWidth 8
  | .flashPage => m.regs.flashPage
  | .spiData => m.regs.spiLastRx

/-- What the store `b` leaves in the register at its address; `rx` is what the engine has received. -/
def stored (b : Bus) (rx : BitVec 32) : Register → BitVec 8
  | .ledOut | .pwmDuty | .flashPage => b.wdata.extractLsb' 0 8
  | .psramBank | .timerCtrl | .pwmEnable => (BitVec.ofBool (b.wdata.getLsbD 0)).setWidth 8
  | .pinMux | .qspiDiv => (b.wdata.extractLsb' 0 2).setWidth 8
  | .flashMode => 1
  | .timerFlag => 0
  | .spiData => rx.extractLsb' 0 8

/-- All registers but the overflow flag are registers of the write path or settings. -/
theorem value_congr {m m' : Mem} (regs : m'.regs = m.regs) (settings : m'.settings = m.settings)
    (reg : Register) (counted : reg ≠ .timerFlag) : reg.value m' = reg.value m := by
  obtain ⟨enable, duty, pwm, mux⟩ := Settings.mk.inj settings
  cases reg with
  | timerFlag => exact absurd rfl counted
  | timerCtrl => exact congrArg (fun x => (BitVec.ofBool x).setWidth 8) enable
  | pwmDuty => exact duty
  | pwmEnable => exact congrArg (fun x => (BitVec.ofBool x).setWidth 8) pwm
  | pinMux => exact congrArg (BitVec.setWidth 8) mux
  | _ => simp only [value, regs]

end Register

namespace MemRegs

variable {m : MemRegs} {b : Bus}

theorem commit_ramByte (m : MemRegs) (b : Bus) (rx : BitVec 32) (store : b.we = true) (k : Nat) :
    (m.commit b rx).ramByte k = (m.write b).ramByte k := by
  refine ramByte_congr ?_ k
  rw [commit_eq m b rx store]

end MemRegs

/-- A committed store writes the register at its address and leaves every other as it was. -/
theorem Register.value_commit {m m' : Mem} {b : Bus} {rx : BitVec 32} (store : b.we = true)
    (regs : m'.regs = m.regs.commit b rx) (settings : m'.settings = m.settings.write b)
    (reg : Register) (counted : reg ≠ .timerFlag) :
    reg.value m' = if b.addr = reg.addr then reg.stored b rx else reg.value m := by
  rw [MemRegs.commit_eq _ _ _ store, m.regs.write_eq b] at regs
  obtain ⟨enable, duty, pwm, mux⟩ := Settings.mk.inj settings
  change m'.timer.timerEnable = if _ then _ else m.timer.timerEnable at enable
  change m'.pwm.pwmDuty = if _ then _ else m.pwm.pwmDuty at duty
  change m'.pwm.pwmEnable = if _ then _ else m.pwm.pwmEnable at pwm
  change m'.pwm.pinMux = if _ then _ else m.pwm.pinMux at mux
  cases reg with
  | timerFlag => exact absurd rfl counted
  | timerCtrl => rw [value, enable]; exact apply_ite (fun x => (BitVec.ofBool x).setWidth 8) _ _ _
  | pwmDuty => rw [value, duty]; rfl
  | pwmEnable => rw [value, pwm]; exact apply_ite (fun x => (BitVec.ofBool x).setWidth 8) _ _ _
  | pinMux => rw [value, mux]; exact apply_ite (BitVec.setWidth 8) _ _ _
  | psramBank => rw [value, regs]; exact apply_ite (fun x => (BitVec.ofBool x).setWidth 8) _ _ _
  | flashMode => rw [value, regs]; exact apply_ite (fun x => (BitVec.ofBool x).setWidth 8) _ _ _
  | qspiDiv => rw [value, regs]; exact apply_ite (BitVec.setWidth 8) _ _ _
  | ledOut | flashPage | spiData => rw [value, regs]; rfl

/-- Away from the two timer registers a write lets the timer tick. -/
theorem Timer.step_other (t : Timer) {b : Bus} (ctrl : b.addr ≠ 0xF5#8) (flag : b.addr ≠ 0xF6#8) :
    t.step b = t.tick := by
  simp [Timer.step, ctrl, flag]

namespace Top

open Mem (Issued)
open Verilog (byteAt)

section Access

variable {r : Clocked.Run Top.step} {a : Nat}

/-- The counters after `n` cycles without a write to the timer. -/
structure Counted (n : Nat) (before after : Mem) : Prop where
  timer : after.timer = Timer.tick^[n] before.timer
  pwm : after.pwm.pwmCounter = before.pwm.pwmCounter + BitVec.ofNat 8 n

theorem Counted.zero (m : Mem) : Counted 0 m m := ⟨rfl, by simp⟩

theorem Counted.tick {n : Nat} {m m' m'' : Mem} (counted : Counted n m m')
    (timer : m''.timer = m'.timer.tick) (pwm : m''.pwm.pwmCounter = m'.pwm.pwmCounter + 1) :
    Counted (n + 1) m m'' where
  timer := by rw [timer, counted.timer, Function.iterate_succ_apply']
  pwm := by rw [pwm, counted.pwm, BitVec.add_assoc, BitVec.ofNat_add]; rfl

theorem pwmCounter_succ (u : Nat) :
    (r.state (u + 1)).mem.pwm.pwmCounter = (r.state u).mem.pwm.pwmCounter + 1 := by
  rw [r.edge]
  rfl

/-- Until its last cycle an access changes nothing; only the counters go on. -/
theorem Holds.waits_mem (held : Holds r a) {k : Nat} (upto : k ≤ stallAt r a) :
    (r.state (a + 1 + k)).mem.regs = (r.state (a + 1)).mem.regs ∧
      (r.state (a + 1 + k)).mem.settings = (r.state (a + 1)).mem.settings ∧
      Counted k (r.state (a + 1)).mem (r.state (a + 1 + k)).mem := by
  induction k with
  | zero => exact ⟨rfl, rfl, Counted.zero _⟩
  | succ k ih =>
      obtain ⟨regs, settings, counted⟩ := ih (by omega)
      have core := held.held k (by omega)
      have low : (r.state (a + 1 + k)).memReady = false :=
        held.issued.ready_low (show k < stallAt r a by omega)
      have strobe : (r.state (a + 1 + k)).core.memWe = true →
          (r.state (a + 1 + k)).core.memValid = true := by
        rw [core]
        exact held.issued.strobe
      obtain ⟨regs', settings', timer'⟩ :=
        (step_mem (s := r.state (a + 1 + k)) (i := r.input (a + 1 + k)) strobe).1
          (by simp [stored, low])
      rw [← r.edge] at regs' settings' timer'
      rw [← Nat.add_assoc]
      exact ⟨regs'.trans regs, settings'.trans settings, counted.tick timer' (pwmCounter_succ _)⟩

/-- What the engine holds as received in the last cycle of an access. -/
def receivedAt (r : Clocked.Run Top.step) (a : Nat) : BitVec 32 :=
  (r.state (a + 1 + stallAt r a)).mem.qspi.reqRdata

/-- In its last cycle a load or an access of no kind changes nothing, and a store commits. -/
theorem Holds.commits (held : Holds r a) :
    ((r.state (a + 1)).core.memWe = false →
      (r.state (a + 2 + stallAt r a)).mem.regs = (r.state (a + 1)).mem.regs ∧
        (r.state (a + 2 + stallAt r a)).mem.settings = (r.state (a + 1)).mem.settings ∧
        Counted (stallAt r a + 1) (r.state (a + 1)).mem (r.state (a + 2 + stallAt r a)).mem) ∧
    ((r.state (a + 1)).core.memWe = true →
      (r.state (a + 2 + stallAt r a)).mem.regs =
          (r.state (a + 1)).mem.regs.commit (r.state (a + 1)).core.bus (receivedAt r a) ∧
        (r.state (a + 2 + stallAt r a)).mem.settings =
          (r.state (a + 1)).mem.settings.write (r.state (a + 1)).core.bus ∧
        (r.state (a + 2 + stallAt r a)).mem.timer =
          (Timer.tick^[stallAt r a] (r.state (a + 1)).mem.timer).step (r.state (a + 1)).core.bus) := by
  obtain ⟨regs, settings, counted⟩ := held.waits_mem le_rfl
  have core := held.held _ le_rfl
  have high : (r.state (a + 1 + stallAt r a)).memReady = true := held.issued.ready_high
  have strobe : (r.state (a + 1 + stallAt r a)).core.memWe = true →
      (r.state (a + 1 + stallAt r a)).core.memValid = true := by
    rw [core]
    exact held.issued.strobe
  have effect := step_mem (s := r.state (a + 1 + stallAt r a)) (i := r.input (a + 1 + stallAt r a))
    strobe
  rw [← r.edge, show a + 1 + stallAt r a + 1 = a + 2 + stallAt r a by omega] at effect
  constructor
  · intro read
    obtain ⟨regs', settings', timer'⟩ := effect.1 (by simp [stored, core, read])
    refine ⟨regs'.trans regs, settings'.trans settings, counted.tick timer' ?_⟩
    rw [← pwmCounter_succ, show a + 1 + stallAt r a + 1 = a + 2 + stallAt r a by omega]
  · intro store
    have valid := strobe (by rw [core]; exact store)
    obtain ⟨-, regs', settings', timer'⟩ := effect.2 (r.state (a + 1)).core.bus
      (by rw [stored, if_pos (by rw [valid, core, store, high]; rfl), core])
    rw [regs] at regs'
    rw [settings] at settings'
    rw [counted.timer] at timer'
    exact ⟨regs', settings', timer'⟩

/-! ## Every access of a run -/

/-- Nothing but the counters has changed in `n` cycles; the overflow flag only by counting. -/
structure Unchanged (n : Nat) (before after : Mem) : Prop where
  ram : ∀ k, k < 48 → after.regs.ramByte k = before.regs.ramByte k
  register : ∀ reg : Register, reg ≠ .timerFlag → reg.value after = reg.value before
  counted : Counted n before after

/-- What the store `b` has committed after the `n + 1` cycles it took, and nothing else has changed:
its own bytes of RAM, the register at its address, and with `TIMER_CTRL` or `TIMER_FLAG` the timer,
which counts on under any other store.  `rx` is what the engine has received. -/
structure Stores (b : Bus) (rx : BitVec 32) (n : Nat) (before after : Mem) : Prop where
  ram : ∀ k, k < 48 → after.regs.ramByte k =
    if before.regs.inRam b.addr = true ∧ b.addr.toNat ≤ 0xB0 + k ∧
        0xB0 + k < b.addr.toNat + sizeBytes b.size then
      byteAt b.wdata (0xB0 + k - b.addr.toNat)
    else before.regs.ramByte k
  register : ∀ reg : Register, reg ≠ .timerFlag →
    reg.value after = if b.addr = reg.addr then reg.stored b rx else reg.value before
  pwm : after.pwm.pwmCounter = before.pwm.pwmCounter + BitVec.ofNat 8 (n + 1)
  timer : b.addr ≠ 0xF5#8 → b.addr ≠ 0xF6#8 → after.timer = Timer.tick^[n + 1] before.timer
  ctrl : b.addr = 0xF5#8 → n = 0 ∧ after.timer =
    { before.timer with
      timerEnable := b.wdata.getLsbD 0
      timerCnt := if b.wdata.getLsbD 1 then 0 else before.timer.timerCnt }
  flag : b.addr = 0xF6#8 → n = 0 ∧ after.timer = { before.timer.tick with timerOverflow := false }

theorem Stores.counted {b : Bus} {rx : BitVec 32} {n : Nat} {before after : Mem}
    (stores : Stores b rx n before after) (ctrl : b.addr ≠ 0xF5#8) (flag : b.addr ≠ 0xF6#8) :
    Counted (n + 1) before after :=
  ⟨stores.timer ctrl flag, stores.pwm⟩

/-- A store here changes nothing: ROM, the registers that software only reads, the two unassigned
addresses, and the load window in flash mode. -/
def Dead (m : MemRegs) (addr : BitVec 8) : Prop :=
  addr.toNat < 0xB0 ∨ addr = 0xF2#8 ∨ addr = 0xF3#8 ∨ addr = 0xF4#8 ∨ addr = 0xFE#8 ∨
    addr = 0xFF#8 ∨ (m.flashMode = true ∧ 0xB4 ≤ addr.toNat ∧ addr.toNat ≤ 0xDF)

theorem stall_register
    (above : 240 ≤ (r.state (a + 1)).core.bus.addr.toNat)
    (spi : (r.state (a + 1)).core.bus.addr ≠ 0xFD#8) : stallAt r a = 0 :=
  MemRegs.delay_onchip (by rw [MemRegs.inExt_register above (.inr spi), Bool.and_false])

theorem Unchanged.of_regs {n : Nat} {m m' : Mem} (regs : m'.regs = m.regs)
    (settings : m'.settings = m.settings) (counted : Counted n m m') : Unchanged n m m' :=
  ⟨fun k _ => by rw [regs], fun reg => Register.value_congr regs settings reg, counted⟩

theorem Holds.unchanged (held : Holds r a) (read : (r.state (a + 1)).core.memWe = false) :
    Unchanged (stallAt r a + 1) (r.state (a + 1)).mem (r.state (a + 2 + stallAt r a)).mem := by
  obtain ⟨regs, settings, counted⟩ := held.commits.1 read
  exact .of_regs regs settings counted

/-- A store commits what it says, in its last cycle. -/
theorem Holds.stores (held : Holds r a) (store : (r.state (a + 1)).core.memWe = true)
    (aligned : (r.state (a + 1)).mem.regs.inRam (r.state (a + 1)).core.bus.addr = true →
      (r.state (a + 1)).core.bus.Aligned) :
    Stores (r.state (a + 1)).core.bus (receivedAt r a) (stallAt r a) (r.state (a + 1)).mem
      (r.state (a + 2 + stallAt r a)).mem := by
  obtain ⟨regs, settings, timer⟩ := held.commits.2 store
  have shown : (r.state (a + 1)).core.bus.we = true := store
  have strobe : (r.state (a + 1)).core.bus.valid = true := held.issued.strobe store
  have once (above : 240 ≤ (r.state (a + 1)).core.bus.addr.toNat)
      (spi : (r.state (a + 1)).core.bus.addr ≠ 0xFD#8) : stallAt r a = 0 := stall_register above spi
  refine ⟨fun k within => ?_, Register.value_commit shown regs settings, ?_, fun ctrl flag => ?_,
    fun ctrl => ⟨once (by rw [ctrl]; decide) (by rw [ctrl]; decide), ?_⟩,
    fun flag => ⟨once (by rw [flag]; decide) (by rw [flag]; decide), ?_⟩⟩
  · rw [regs, MemRegs.commit_ramByte _ _ _ shown, MemRegs.write_byte aligned within]
    by_cases ram : (r.state (a + 1)).mem.regs.inRam (r.state (a + 1)).core.bus.addr = true
    · have above := (MemRegs.inRam_iff.mp ram).1
      have offset : ramOffset (r.state (a + 1)).core.bus.addr =
          (r.state (a + 1)).core.bus.addr.toNat - 176 := rfl
      refine ite_congr (propext ?_) (fun own => congrArg (byteAt _) (by omega)) fun _ => rfl
      constructor <;> rintro ⟨-, low, high⟩ <;> exact ⟨ram, by omega, by omega⟩
    · rw [if_neg fun own => ram own.1, if_neg fun own => ram own.1]
  · rw [show a + 2 + stallAt r a = a + 1 + stallAt r a + 1 by omega, pwmCounter_succ,
      (held.waits_mem le_rfl).2.2.pwm, BitVec.add_assoc, BitVec.ofNat_add]
    rfl
  · rw [timer, Timer.step_other _ ctrl flag, Function.iterate_succ_apply']
  · rw [timer, once (by rw [ctrl]; decide) (by rw [ctrl]; decide), Timer.step, shown, strobe, ctrl]
    rfl
  · rw [timer, once (by rw [flag]; decide) (by rw [flag]; decide), Timer.step, shown, strobe, flag]
    rfl

/-- A cycle that is not the last of a store changes nothing: it may be one in which nothing is on the
bus, one in which an access waits, or the last one of a fetch or a load. -/
theorem quiet_unchanged (start : Boundary (r.state 0)) {u : Nat}
    (other : ∀ a, Issues (r.state a).core → (r.state (a + 1)).core.memWe = true →
      u ≠ a + 1 + stallAt r a) :
    Unchanged 1 (r.state u).mem (r.state (u + 1)).mem := by
  have none : stored (r.state u) (r.input u) = none := by
    rcases cycle_cases r start u with ⟨valid, -⟩ | ⟨a, k, rfl, issues, held, upto⟩
    · exact stored_quiet valid
    · rcases Nat.eq_or_lt_of_le upto with rfl | before
      · have read : (r.state (a + 1)).core.memWe = false :=
          Bool.eq_false_iff.mpr fun store => other a issues store rfl
        simp [stored, held.held _ le_rfl, read]
      · have low : (r.state (a + 1 + k)).memReady = false := held.issued.ready_low before
        simp [stored, low]
  obtain ⟨regs, settings, timer⟩ := (step_mem (i := r.input u) (strobe_at start u)).1 none
  rw [← r.edge] at regs settings timer
  exact .of_regs regs settings (Counted.zero _ |>.tick timer (pwmCounter_succ u))

theorem Dead.not_ram {m : MemRegs} {addr : BitVec 8} (dead : Dead m addr) :
    m.inRam addr = false := by
  rw [Bool.eq_false_iff, ne_eq, MemRegs.inRam_iff]
  rintro ⟨above, below, clear⟩
  rcases dead with low | h | h | h | h | h | ⟨flash, window, -⟩
  case inl => omega
  case inr.inr.inr.inr.inr.inr =>
    have := clear flash
    omega
  all_goals
    rw [h] at below
    contradiction

theorem Dead.not_register {m : MemRegs} {addr : BitVec 8} (dead : Dead m addr) (reg : Register) :
    addr ≠ reg.addr := by
  rintro rfl
  rcases dead with low | h | h | h | h | h | ⟨-, -, high⟩
  case inl => cases reg <;> simp [Register.addr] at low
  case inr.inr.inr.inr.inr.inr => cases reg <;> simp [Register.addr] at high
  all_goals cases reg <;> simp [Register.addr] at h

theorem Stores.dead {b : Bus} {rx : BitVec 32} {n : Nat} {before after : Mem}
    (stores : Stores b rx n before after) (dead : Dead before.regs b.addr) :
    Unchanged (n + 1) before after where
  ram k within := by
    rw [stores.ram k within, if_neg]
    rintro ⟨ram, -⟩
    rw [dead.not_ram] at ram
    cases ram
  register reg counted := by rw [stores.register reg counted, if_neg (dead.not_register reg)]
  counted := stores.counted (dead.not_register .timerCtrl) (dead.not_register .timerFlag)

/-- A store that takes more than one cycle is a transaction of the engine, and commits at most to the
byte last received. -/
theorem Holds.external_store (held : Holds r a) (store : (r.state (a + 1)).core.memWe = true)
    (long : 0 < stallAt r a) :
    (∃ rx, (r.state (a + 2 + stallAt r a)).mem.regs =
        { (r.state (a + 1)).mem.regs with spiLastRx := rx }) ∧
      (r.state (a + 2 + stallAt r a)).mem.settings = (r.state (a + 1)).mem.settings ∧
      Counted (stallAt r a + 1) (r.state (a + 1)).mem (r.state (a + 2 + stallAt r a)).mem := by
  obtain ⟨regs, settings, -⟩ := held.commits.2 store
  obtain ⟨external, -⟩ := held.issued.reqReady_low (k := 0) long
  rw [Bool.and_eq_true] at external
  have outside : (r.state (a + 1)).mem.regs.inExt (r.state (a + 1)).core.bus = true := external.2
  obtain ⟨noRam, -, -, -, ctrl, flag, duty, -, enable, mux, -, -⟩ :=
    MemRegs.external_addr _ _ (MemRegs.inExt_addr outside)
  refine ⟨?_, ?_, ?_⟩
  · rw [regs, MemRegs.commit_external outside]
    split
    · exact ⟨_, rfl⟩
    · exact ⟨_, rfl⟩
  · rw [settings, Settings.write, if_neg ctrl, if_neg duty, if_neg enable, if_neg mux]
  · exact (held.stores store fun ram => absurd ram (Bool.eq_false_iff.mp noRam)).counted ctrl flag

/-- Accesses have no side effects beyond their target.  In every run from reset, an access changes
nothing until its last cycle.  A fetch or a load changes nothing then either; a store, word stores
aligned, writes its own bytes of RAM and the register at its address, and nothing else; a store to an
address that stands for nothing, nothing; and a store that took more than one cycle, at most the byte
last received from `SPI_DATA`.  No cycle but the last one of a store changes anything, so that a store
commits once, however long it lasts.  `FLASH_MODE`, once set, stays set. -/
theorem access_effects (r : Clocked.Run Top.step) (s : Top) (reset : r.state 0 = s.reset) :
    (∀ a, Issues (r.state a).core →
      (∀ k, k ≤ stallAt r a → Unchanged k (r.state (a + 1)).mem (r.state (a + 1 + k)).mem) ∧
      ((r.state (a + 1)).core.memWe = false →
        Unchanged (stallAt r a + 1) (r.state (a + 1)).mem (r.state (a + 2 + stallAt r a)).mem) ∧
      ((r.state (a + 1)).core.memWe = true → (r.state (a + 1)).core.bus.Aligned →
        Stores (r.state (a + 1)).core.bus (receivedAt r a) (stallAt r a) (r.state (a + 1)).mem
          (r.state (a + 2 + stallAt r a)).mem) ∧
      ((r.state (a + 1)).core.memWe = true →
        Dead (r.state (a + 1)).mem.regs (r.state (a + 1)).core.memAddr →
        Unchanged (stallAt r a + 1) (r.state (a + 1)).mem (r.state (a + 2 + stallAt r a)).mem) ∧
      ((r.state (a + 1)).core.memWe = true → 0 < stallAt r a →
        (∃ rx, (r.state (a + 2 + stallAt r a)).mem.regs =
          { (r.state (a + 1)).mem.regs with spiLastRx := rx }) ∧
        (r.state (a + 2 + stallAt r a)).mem.settings = (r.state (a + 1)).mem.settings ∧
        Counted (stallAt r a + 1) (r.state (a + 1)).mem (r.state (a + 2 + stallAt r a)).mem)) ∧
    (∀ u, (∀ a, Issues (r.state a).core → (r.state (a + 1)).core.memWe = true →
        u ≠ a + 1 + stallAt r a) → Unchanged 1 (r.state u).mem (r.state (u + 1)).mem) ∧
    ∀ u v, u ≤ v → (r.state u).mem.regs.flashMode = true → (r.state v).mem.regs.flashMode = true := by
  have start : Boundary (r.state 0) := reset ▸ boundary_reset s
  refine ⟨fun a issues => ?_, fun u other => quiet_unchanged start other,
    fun u v upto flash => flashMode_stays flash upto⟩
  have held := holds r start issues
  refine ⟨fun k upto => ?_, held.unchanged,
    fun store aligned => held.stores store fun _ => aligned, fun store dead => ?_,
    fun store long => held.external_store store long⟩
  · obtain ⟨regs, settings, counted⟩ := held.waits_mem upto
    exact .of_regs regs settings counted
  · exact (held.stores store fun ram => absurd ram (Bool.eq_false_iff.mp dead.not_ram)).dead dead

/-- The boot ROM's first store, to the PSRAM window, is issued in cycle 11 and waits for 5122 cycles,
in which nothing changes, as in the cycles before it. -/
theorem access_effects_zeroed :
    (zeroedRun.state 12).core.bus.addr = 0xE0#8 ∧ stallAt zeroedRun 11 = 5122 ∧
      (∀ k, k ≤ 5122 → Unchanged k (zeroedRun.state 12).mem (zeroedRun.state (12 + k)).mem) ∧
      Stores (zeroedRun.state 12).core.bus (receivedAt zeroedRun 11) (stallAt zeroedRun 11)
        (zeroedRun.state 12).mem (zeroedRun.state (13 + stallAt zeroedRun 11)).mem ∧
      ∀ u, u ≤ 11 → Unchanged 1 (zeroedRun.state u).mem (zeroedRun.state (u + 1)).mem := by
  obtain ⟨access, quiet, -⟩ := access_effects zeroedRun zeroed rfl
  have issues : Issues (zeroedRun.state 11).core := .inr (by decide +kernel)
  have long : stallAt zeroedRun 11 = 5122 := by decide +kernel
  refine ⟨by decide +kernel, long, fun k upto => (access 11 issues).1 k (by omega),
    (access 11 issues).2.2.1 (by decide +kernel) (by decide +kernel),
    fun u early => quiet u fun a _ store here => ?_⟩
  have reads : ∀ a < 11, (zeroedRun.state (a + 1)).core.memWe = false := by decide +kernel
  rw [reads a (by omega)] at store
  cases store

end Access

end Top

end AgilA32
