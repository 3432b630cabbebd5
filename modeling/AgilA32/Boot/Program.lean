import AgilA32.Boot.Load

/-!
# What the bootloader does to the machine

`receives_program`: a program of at most 44 bytes arrives in RAM as it was sent and is entered,
whatever the host's timing.  `bootload_only_ram`: on the way nothing but the RAM behind the window is
changed, exactly if the program fits; a longer one is written on into PSRAM.
-/

namespace AgilA32

namespace Boot

open AgilA32.Core (readReg)
open AgilA32.Top (Arch At Boundary accepts stored)
open Verilog (byteAt)

/-! ## Stores to the RAM behind the window -/

/-- A byte store to the RAM behind the window, `0xB4`-`0xDF`. -/
def InLoadRange (b : Bus) : Prop := b.size = 0#2 ∧ 0xB4 ≤ b.addr.toNat ∧ b.addr.toNat ≤ 0xDF

/-- The two memories differ at most in the RAM behind the window. -/
structure SameOutside (m m' : Mem) : Prop where
  scratch : ∀ k, k < 4 → m'.regs.ramByte k = m.regs.ramByte k
  regs : ∃ ws, m'.regs = { m.regs with ramWords := ws }
  settings : m'.settings = m.settings
  timer : m'.timer = m.timer

namespace SameOutside

variable {m m' m'' : Mem}

theorem refl (m : Mem) : SameOutside m m := ⟨fun _ _ => rfl, ⟨m.regs.ramWords, rfl⟩, rfl, rfl⟩

theorem trans (first : SameOutside m m') (second : SameOutside m' m'') : SameOutside m m'' where
  scratch k within := (second.scratch k within).trans (first.scratch k within)
  regs := by
    obtain ⟨ws, h⟩ := first.regs
    obtain ⟨ws', h'⟩ := second.regs
    exact ⟨ws', by rw [h', h]⟩
  settings := second.settings.trans first.settings
  timer := second.timer.trans first.timer

/-- A store to the RAM behind the window. -/
theorem store {b : Bus} (inside : InLoadRange b) (we : b.we = true)
    (ram : m.regs.flashMode = false) (still : m.timer.timerEnable = false) {rx : BitVec 32}
    (regs : m'.regs = m.regs.commit b rx) (settings : m'.settings = m.settings.write b)
    (timer : m'.timer = m.timer.step b) : SameOutside m m' := by
  obtain ⟨byte, above, below⟩ := inside
  have other (a : BitVec 8) (high : 240 ≤ a.toNat) : b.addr ≠ a := by
    rintro rfl
    omega
  have inRam : m.regs.inRam b.addr = true :=
    MemRegs.inRam_iff.mpr ⟨by omega, by omega, fun h => by rw [ram] at h; cases h⟩
  have write : m.regs.commit b rx = m.regs.write b := by
    simp [MemRegs.commit, MemRegs.step, MemRegs.inSpiWrite, we, other 0xFD#8 (by decide)]
  rw [write] at regs
  have tick : m.timer.tick = m.timer := by rw [Timer.tick, still]; rfl
  refine ⟨fun k within => ?_, ?_, ?_, ?_⟩
  · rw [regs, MemRegs.write_byte (fun _ four => by rw [byte] at four; cases four) (by omega),
      if_neg (by unfold ramOffset; omega)]
  · obtain ⟨ws, h⟩ := MemRegs.write_ram inRam
    exact ⟨ws, regs.trans h⟩
  · rw [settings]
    exact Settings.write_other (other _ (by decide)) (other _ (by decide)) (other _ (by decide))
      (other _ (by decide))
  · rw [timer, ← tick]
    simp [Timer.step, other 0xF5#8 (by decide), other 0xF6#8 (by decide), tick]

end SameOutside

section Run

variable {r : Clocked.Run Top.step} {a : Nat}

/-- As long as all stores go to the RAM behind the window, nothing else changes. -/
theorem same_outside (start : Boundary (r.state 0)) (ram : (r.state a).mem.regs.flashMode = false)
    (still : (r.state a).mem.timer.timerEnable = false) {u : Nat} (after : a ≤ u)
    (inside : ∀ v b, a ≤ v → v < u → stored (r.state v) (r.input v) = some b → InLoadRange b) :
    SameOutside (r.state a).mem (r.state u).mem := by
  induction u, after using Nat.le_induction with
  | base => exact .refl _
  | succ u after ih =>
      have same := ih fun v b from_ before => inside v b from_ (by omega)
      refine same.trans ?_
      obtain ⟨quiet, store⟩ := Top.step_mem (i := r.input u) (Top.strobe_at start u)
      obtain ⟨ws, regs⟩ := same.regs
      have ram' : (r.state u).mem.regs.flashMode = false := by rw [regs]; exact ram
      have still' : (r.state u).mem.timer.timerEnable = false := by rw [same.timer]; exact still
      rw [r.edge]
      cases completed : stored (r.state u) (r.input u) with
      | none =>
          obtain ⟨regs, settings, timer⟩ := quiet completed
          refine ⟨fun _ _ => by rw [regs], ⟨_, regs⟩, settings, ?_⟩
          rw [timer, Timer.tick, still']
          rfl
      | some b =>
          obtain ⟨we, regs, settings, timer⟩ := store b completed
          exact .store (inside u b after (Nat.lt_succ_self u) completed) we ram' still' regs settings
            timer

end Run

/-! ## Receiving a program -/

/-- The self-test is over and the listen loop is entered in cycle `t₀`. -/
structure SelfTested (r : Clocked.Run Top.step) (t₀ : Nat) : Prop where
  here : (r.state t₀).core.state = .fetch ∧ (r.state t₀).core.pc = 0x18#8
  rom : ∀ u, u < t₀ → (r.state u).core.pc.toNat < 176
  unpolled : r.observe polled 0 t₀ = []
  time : 10279 ≤ t₀ ∧ t₀ ≤ 10286

/-- `START_SEEN` is reached in cycle `E`, for a poll that saw START high. -/
structure Entered (r : Clocked.Run Top.step) (E : Nat) : Prop where
  here : (r.state E).core.state = .fetch ∧ (r.state E).core.pc = 0x48#8
  rom : ∀ u, u < E → (r.state u).core.pc.toNat < 176
  seen : ∃ v, v < E ∧ polled (r.state v) (r.input v) = some true

section Program

variable {r : Clocked.Run Top.step} {t₀ : Nat} {low rise : Nat → Nat} {payload : List (BitVec 8)}

/-- The listen loop is entered, from reset. -/
theorem boot_listens (s : Top) (reset : r.state 0 = s.reset) :
    ∃ (t₀ : Nat) (x : RegFile) (log : Log) (fail : Bool), SelfTested r t₀ ∧
      Leads r 0 t₀ ⟨romAddr 6, x, s.mem.regs.reset, s.reset.mem.settings⟩ log ∧ log.polls = [] ∧
      readReg x 8 = if fail then 0x80 else 0 := by
  obtain ⟨t₀, -, b, x, fail, -, -, -, tested, early, late, -, -, -, verdict⟩ :=
    boot_selfTest s reset
  exact ⟨t₀, x, _, fail, ⟨⟨tested.reached.boundary.fetch, tested.reached.pc⟩,
    fun u => tested.rom u (Nat.zero_le u), tested.polls, early, late⟩, tested, rfl, verdict⟩

/-- The host's START takes the boot ROM to `START_SEEN`. -/
theorem boot_entered {m : MemRegs} {σ : Settings} {x : RegFile} {log : Log} {fail : Bool}
    (s : Leads r 0 t₀ ⟨romAddr 6, x, m, σ⟩ log) (fresh : log.polls = [])
    (verdict : readReg x 8 = if fail then 0x80 else 0) (host : Host r t₀ low rise payload) :
    ∃ E x' g, Entered r E ∧ low 0 ≤ E ∧ E < low 0 + 78 ∧
      ∃ log', Leads r 0 E ⟨romAddr 18, x', { m with gpioOut := g }, σ⟩ log' := by
  obtain ⟨k, small, before, high, late, soon⟩ := start_seen s fresh verdict host
  obtain ⟨x₁, g, looped, -⟩ := listen s verdict small.le before
  rw [if_pos small] at looped
  have seen := polled_at looped
  obtain ⟨x₂, entered⟩ := listen_high looped high
  refine ⟨pollCycle t₀ k + 21, x₂, g, ⟨⟨entered.reached.boundary.fetch, entered.reached.pc⟩,
    fun u => entered.rom u (Nat.zero_le u), pollCycle t₀ k + 6, by omega, ?_⟩, by omega, by omega,
    _, entered⟩
  rw [seen]
  exact congrArg some high

/-- From reset, a host's program is loaded, and entered soon after its last bit. -/
theorem boot_loads (s : Top) (reset : r.state 0 = s.reset) :
    ∃ t₀, SelfTested r t₀ ∧ (r.state t₀).mem.regs = s.mem.regs.reset ∧
      ∀ low rise (payload : List (BitVec 8)), payload.length ≤ 44 → Host r t₀ low rise payload →
        ∃ T x m g log, low 0 < T ∧ T ≤ low (8 * (payload.length + 1)) + 106 ∧
          Leads r 0 T ⟨0xB4, x, m, s.reset.mem.settings⟩ log ∧
          Loaded { s.mem.regs.reset with gpioOut := g } payload payload.length m := by
  obtain ⟨t₀, x, log, fail, tested, s₁, fresh, verdict⟩ := boot_listens s reset
  refine ⟨t₀, tested, s₁.reached.mem, fun low rise payload fits host => ?_⟩
  obtain ⟨E, x₁, g, -, late, soon, log₁, s₂⟩ := boot_entered s₁ fresh verdict host
  obtain ⟨T, x₂, m, near, s₃, loaded⟩ := load_fits_within host.sends (by omega) fits rfl s₂ late soon
  refine ⟨T, x₂, m, g, _, ?_, near, s₃, loaded⟩
  -- the ROM is not left before `START_SEEN`
  have left : ¬ (r.state T).core.pc.toNat < 176 := by
    rw [s₃.reached.pc]
    exact (by decide : ¬ (0xB4#8).toNat < 176)
  have after : E < T := by
    by_contra before
    rcases Nat.eq_or_lt_of_le (Nat.le_of_not_lt before) with rfl | earlier
    · exact left (s₂.reached.pc ▸ (by decide : (romAddr 18).toNat < 176))
    · exact left (s₂.rom T (Nat.zero_le T) earlier)
  exact Nat.lt_of_le_of_lt late after

/-! ## A host -/

/-- The inputs of a host that raises START in cycle 10286, when the self-test is over whatever its
outcome, and sends the program with phases of 8192 cycles, longer than any store takes. -/
def hostInput (payload : List (BitVec 8)) (u : Nat) : TopIn where
  uiIn := 0#5 ++ BitVec.ofBool (10286 ≤ u) ++
    BitVec.ofBool (10286 ≤ u ∧ 8192 ≤ (u - 10286) % 16384 ∧
      (u - 10286) / 16384 < 8 * (frame payload).length) ++
    BitVec.ofBool (wireBit (frame payload) ((u - 10286) / 16384))
  uioIn := 0
  undef := 0

def hostRun (payload : List (BitVec 8)) : Clocked.Run Top.step :=
  .ofInputs Top.step Top.zeroed.reset (hostInput payload)

theorem hostInput_pins (payload : List (BitVec 8)) (u : Nat) :
    (hostInput payload u).uiIn.getLsbD 0 = wireBit (frame payload) ((u - 10286) / 16384) ∧
      (hostInput payload u).uiIn.getLsbD 1 = decide (10286 ≤ u ∧ 8192 ≤ (u - 10286) % 16384 ∧
        (u - 10286) / 16384 < 8 * (frame payload).length) ∧
      (hostInput payload u).uiIn.getLsbD 2 = decide (10286 ≤ u) := by
  simp only [hostInput, BitVec.getLsbD_append, BitVec.getLsbD_ofBool]
  simp

theorem hostRun_sends (payload : List (BitVec 8)) :
    Sends (hostRun payload) (fun k => 10286 + 16384 * k) (fun k => 18478 + 16384 * k)
      (wireBit (frame payload)) (8 * (frame payload).length) where
  low_long k _ := by omega
  high_long k _ := by omega
  clock_low k upto u after before := by
    rw [clock, hostRun, Clocked.Run.ofInputs_input, (hostInput_pins payload u).2.1,
      decide_eq_false (by omega)]
  clock_high k within u after before := by
    rw [clock, hostRun, Clocked.Run.ofInputs_input, (hostInput_pins payload u).2.1,
      decide_eq_true (by omega)]
  stable k within u after before := by
    rw [data, hostRun, Clocked.Run.ofInputs_input, (hostInput_pins payload u).1,
      show (u - 10286) / 16384 = k by omega]

theorem hostRun_host (tested : SelfTested (hostRun payload) t₀) :
    Host (hostRun payload) t₀ (fun k => 10286 + 16384 * k) (fun k => 18478 + 16384 * k)
      payload where
  after := tested.time.2
  early := by
    have short := List.length_filterMap_le
      (fun u => polled ((hostRun payload).state u) ((hostRun payload).input u))
      (List.range' t₀ (10286 - t₀))
    have cut := (hostRun payload).observe_cut polled (Nat.zero_le t₀) tested.time.2
    rw [Nat.sub_zero, Nat.sub_zero, tested.unpolled, List.nil_append] at cut
    rw [Nat.mul_zero, Nat.add_zero, cut, Clocked.Run.observe]
    rw [List.length_range'] at short
    have := tested.time.1
    omega
  unseen u before seen := by
    have start := polled_eq seen
    rw [hostRun, Clocked.Run.ofInputs_input, (hostInput_pins payload u).2.2,
      decide_eq_false (by omega)] at start
    cases start
  held u after _ := by
    rw [hostRun, Clocked.Run.ofInputs_input, (hostInput_pins payload u).2.2,
      decide_eq_true (by omega)]
  sends := hostRun_sends payload

/-! ## The two results -/

/-- Whatever the host's timing, the boot ROM receives every program that fits: once its self-test is
over, a host that raises START in the listen loop and sends a program of `n ≤ 44` bytes makes it reach
`0xB4` with these bytes in RAM from there on, every other RAM byte as it was and `FLASH_MODE` clear. -/
theorem receives_program (r : Clocked.Run Top.step) (s : Top) (reset : r.state 0 = s.reset) :
    ∃ t₀, SelfTested r t₀ ∧ ∀ low rise (payload : List (BitVec 8)), payload.length ≤ 44 →
      Host r t₀ low rise payload →
      ∃ T, t₀ < T ∧ (∀ u, u < T → (r.state u).core.pc.toNat < 176) ∧
        (r.state T).core.state = .fetch ∧ (r.state T).core.pc = 0xB4#8 ∧
        (r.state T).mem.regs.flashMode = false ∧
        ∀ k, k < 48 → (r.state T).mem.regs.ramByte k =
          if 4 ≤ k ∧ k < 4 + payload.length then payload.getD (k - 4) 0
          else (r.state t₀).mem.regs.ramByte k := by
  obtain ⟨t₀, tested, ram, loads⟩ := boot_loads s reset
  refine ⟨t₀, tested, fun low rise payload fits host => ?_⟩
  obtain ⟨T, x, m, g, log, after, -, entered, loaded⟩ := loads low rise payload fits host
  obtain ⟨ws, others⟩ := loaded.others
  refine ⟨T, Nat.lt_of_le_of_lt host.after after, fun u => entered.rom u (Nat.zero_le u),
    entered.reached.boundary.fetch, entered.reached.pc, ?_, fun k within => ?_⟩
  · rw [entered.reached.mem, others]
    rfl
  · rw [entered.reached.mem, loaded.bytes k within, ram]
    rfl

/-- Two bytes from a slow host. -/
theorem receives_program_slow_host : ∃ T, ((hostRun [0x13, 0x5A]).state T).core.pc = 0xB4#8 ∧
    ((hostRun [0x13, 0x5A]).state T).mem.regs.ramByte 4 = 0x13#8 ∧
    ((hostRun [0x13, 0x5A]).state T).mem.regs.ramByte 5 = 0x5A#8 := by
  obtain ⟨t₀, tested, receives⟩ := receives_program (hostRun [0x13, 0x5A]) Top.zeroed rfl
  obtain ⟨T, -, -, -, pc, -, bytes⟩ :=
    receives _ _ [0x13, 0x5A] (by decide) (hostRun_host tested)
  exact ⟨T, pc, bytes 4 (by decide), bytes 5 (by decide)⟩

/-! ## What the bootloader leaves alone -/

/-- From cycle `E` until the ROM is left: all stores go to the RAM behind the window and nothing
else of the memory's state changes, no transaction is started, and when the program is entered every
byte stored is still there. -/
structure OnlyLoadsRam (r : Clocked.Run Top.step) (E : Nat) : Prop where
  stores : ∀ u b, E ≤ u → (∀ v, E ≤ v → v ≤ u → (r.state v).core.pc.toNat < 176) →
    stored (r.state u) (r.input u) = some b → InLoadRange b
  keeps : ∀ u, E ≤ u → (∀ v, E ≤ v → v < u → (r.state v).core.pc.toNat < 176) →
    SameOutside (r.state E).mem (r.state u).mem
  silent : ∀ u, E ≤ u → (∀ v, E ≤ v → v ≤ u → (r.state v).core.pc.toNat < 176) →
    accepts (r.state u) (r.input u) = none
  stays : ∀ T, E ≤ T → (∀ v, E ≤ v → v < T → (r.state v).core.pc.toNat < 176) →
    176 ≤ (r.state T).core.pc.toNat → ∀ b ∈ r.observe stored E (T - E),
      (r.state T).mem.regs.ramByte (b.addr.toNat - 0xB0) = byteAt b.wdata 0

section Reached

variable {E : Nat} {x : RegFile} {m : MemRegs} {σ : Settings}

/-- A program that fits changes only the RAM behind the window. -/
theorem fits_onlyLoadsRam (start : Boundary (r.state 0)) (at_E : At r E ⟨romAddr 18, x, m, σ⟩)
    (ram : m.flashMode = false) (still : σ.timerEnable = false)
    (host : Host r t₀ low rise payload) (late : low 0 ≤ E) (soon : E < low 0 + 78)
    (fits : payload.length ≤ 44) : OnlyLoadsRam r E := by
  obtain ⟨T, x', m', -, s, loaded⟩ :=
    load_fits_within host.sends (by omega) fits ram (.refl at_E) late soon
  have left : ¬ (r.state T).core.pc.toNat < 176 := by
    rw [s.reached.pc]
    exact (by decide : ¬ (0xB4#8).toNat < 176)
  have shown (u : Nat) (b : Bus) (after : E ≤ u) (before : u < T)
      (completed : stored (r.state u) (r.input u) = some b) :
      ∃ i, i < payload.length ∧ b = loadStore payload i := by
    have hit := (r.mem_observe stored (a := E) (n := T - E)).mpr ⟨u, after, by omega, completed⟩
    rw [s.stores] at hit
    obtain ⟨i, member, rfl⟩ := List.mem_map.mp hit
    exact ⟨i, List.mem_range.mp member, rfl⟩
  have inside (u : Nat) (b : Bus) (after : E ≤ u) (before : u < T)
      (completed : stored (r.state u) (r.input u) = some b) : InLoadRange b := by
    obtain ⟨i, more, rfl⟩ := shown u b after before completed
    have addr : (loadStore payload i).addr.toNat = 180 + i := loadStore_addr (by omega)
    exact ⟨rfl, by omega, by omega⟩
  have within (u : Nat) (rom : ∀ v, E ≤ v → v ≤ u → (r.state v).core.pc.toNat < 176) : u < T := by
    by_contra beyond
    exact left (rom T s.upto (by omega))
  refine ⟨fun u b after rom => inside u b after (within u rom), fun u after rom => ?_,
    fun u after rom => ?_, fun T' after rom out b member => ?_⟩
  · refine same_outside start (by rw [at_E.mem]; exact ram) ?_ after fun v b from_ before =>
      inside v b from_ (within v fun w h h' => rom w h (by omega))
    exact (congrArg Settings.timerEnable at_E.settings).trans still
  · by_contra accepted
    obtain ⟨q, accepted⟩ := Option.ne_none_iff_exists'.mp accepted
    have hit := (r.mem_observe accepts (a := E) (n := T - E)).mpr
      ⟨u, after, by have := within u rom; omega, accepted⟩
    rw [s.accepted] at hit
    simp [Log.empty] at hit
  · obtain rfl : T' = T := by
      rcases Nat.lt_trichotomy T' T with early | same | beyond
      · exact absurd (s.rom T' after early) (by omega)
      · exact same
      · exact absurd (rom T s.upto beyond) left
    obtain ⟨u, from_, before, completed⟩ := (r.mem_observe stored).mp member
    obtain ⟨i, more, rfl⟩ := shown u b from_ (by omega) completed
    have addr : (loadStore payload i).addr.toNat = 180 + i := loadStore_addr (by omega)
    rw [addr, s.reached.mem, show 180 + i - 0xB0 = 4 + i by omega, loaded.bytes _ (by omega),
      if_pos (by omega), Nat.add_sub_cancel_left, loadStore,
      Verilog.byteAt_setWidth _ (by decide), Verilog.byteAt_byte]

/-- A longer program starts a transaction. -/
theorem long_not_onlyLoadsRam (at_E : At r E ⟨romAddr 18, x, m, σ⟩) (ram : m.flashMode = false)
    (host : Host r t₀ low rise payload) (late : low 0 ≤ E) (soon : E < low 0 + 78)
    (long : 44 < payload.length) (byte : payload.length < 256) : ¬ OnlyLoadsRam r E := by
  obtain ⟨T, a, q, log, s, asked, -, -⟩ :=
    load_overflows host.sends byte long ram (.refl at_E) late soon
  rw [← s.accepted] at asked
  obtain ⟨u, after, before, accepted⟩ := (r.mem_observe accepts).mp asked
  have upto := s.upto
  intro only
  have none := only.silent u after fun v from_ to_ => s.rom v from_ (by omega)
  rw [none] at accepted
  cases accepted

end Reached

/-- From `START_SEEN` until the program is entered the boot ROM changes nothing but the RAM behind the
window exactly if the program is at most 44 bytes long. -/
theorem bootload_only_ram (r : Clocked.Run Top.step) (s : Top) (reset : r.state 0 = s.reset) :
    ∃ t₀, SelfTested r t₀ ∧ ∀ low rise (payload : List (BitVec 8)), payload.length < 256 →
      Host r t₀ low rise payload →
      ∃ E, Entered r E ∧ (OnlyLoadsRam r E ↔ payload.length ≤ 44) := by
  have start : Boundary (r.state 0) := reset ▸ Top.boundary_reset s
  obtain ⟨t₀, x, log, fail, tested, s₁, fresh, verdict⟩ := boot_listens s reset
  refine ⟨t₀, tested, fun low rise payload byte host => ?_⟩
  obtain ⟨E, x₁, g, entered, late, soon, log₁, s₂⟩ := boot_entered s₁ fresh verdict host
  refine ⟨E, entered, fun only => ?_, fits_onlyLoadsRam start s₂.reached rfl rfl host late soon⟩
  by_contra long
  exact long_not_onlyLoadsRam s₂.reached rfl host late soon (by omega) byte only

/-- A one-byte program changes only the RAM behind the window. -/
theorem bootload_only_ram_slow_host :
    ∃ E, Entered (hostRun [0x13]) E ∧ OnlyLoadsRam (hostRun [0x13]) E := by
  obtain ⟨t₀, tested, only⟩ := bootload_only_ram (hostRun [0x13]) Top.zeroed rfl
  obtain ⟨E, entered, iff⟩ := only _ _ [0x13] (by decide) (hostRun_host tested)
  exact ⟨E, entered, iff.mpr (by decide)⟩

/-- A program of 45 zero bytes is written on into PSRAM. -/
theorem long_program_escapes : ∃ t₀ low rise E,
    Host (hostRun (List.replicate 45 0)) t₀ low rise (List.replicate 45 0) ∧
      SelfTested (hostRun (List.replicate 45 0)) t₀ ∧ Entered (hostRun (List.replicate 45 0)) E ∧
      ¬ OnlyLoadsRam (hostRun (List.replicate 45 0)) E := by
  obtain ⟨t₀, x, log, fail, tested, s₁, fresh, verdict⟩ :=
    boot_listens (r := hostRun (List.replicate 45 0)) Top.zeroed rfl
  have host := hostRun_host tested
  obtain ⟨E, x₁, g, entered, late, soon, log₁, s₂⟩ := boot_entered s₁ fresh verdict host
  exact ⟨t₀, _, _, E, host, tested, entered,
    long_not_onlyLoadsRam s₂.reached rfl host late soon (by simp) (by simp)⟩

end Program

end Boot

end AgilA32
