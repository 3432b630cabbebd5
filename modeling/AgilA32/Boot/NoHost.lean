import AgilA32.Boot.Listen
import AgilA32.Top.PinSafety

/-!
# Boot without a host

`boot_without_host` is the whole run from reset to the end of the listen loop: if START is low at
every poll the boot ROM sets `FLASH_MODE` and the first fetch outside ROM is a read of the flash's
first word; if a poll sees START high, the bootloader is entered with `FLASH_MODE` clear.
-/

namespace AgilA32

namespace Boot

open Clocked (spell)
open Engine (Accepts samples)
open Mem (engineRun)
open AgilA32.Top (Arch At Boundary accepts stored memRun)

variable {r : Clocked.Run Top.step}

/-- The store that hands the window over to flash. -/
def flashModeStore : Bus := { addr := 0xF8, wdata := 0, size := 2, we := true, valid := true }

/-- After the last poll: `FLASH_MODE` is set and the window entered. -/
theorem fall_back {t t' : Nat} {x : RegFile} {m : MemRegs} {σ : Settings} {log : Log}
    (s : Leads r t t' ⟨romAddr 16, x, m, σ⟩ log) :
    Leads r t (t' + 21) ⟨0xB4, x, { m with flashMode := true }, σ⟩
      (log ++ { polls := [], accepted := [], stores := [flashModeStore] }) := by
  have s1 : Leads r t (t' + 7) ⟨romAddr 17, x, _, _⟩ _ :=
    s.store 16 (b := flashModeStore) rfl rfl rfl rfl
      (MemRegs.inExt_register (by simp [flashModeStore]) (.inr (by simp [flashModeStore])))
  rw [Settings.write_other (by decide) (by decide) (by decide) (by decide)] at s1
  have s2 : Leads r t (t' + 14) ⟨romAddr 27, x, _, _⟩ _ :=
    s1.plain 17 rfl rfl (by simp) rfl (fun _ => rfl) (fun _ => rfl)
  exact s2.plain 27 rfl rfl (by simp) rfl (fun _ => rfl) (fun _ => rfl)

/-- As long as only RAM A has been asked for, neither CS0 nor CS2 has been low. -/
theorem cs_high (start : Boundary (r.state 0)) {u n : Nat} (upto : u ≤ n)
    (ramA : ∀ q ∈ r.observe accepts 0 n, q.dev = 2#2) :
    (r.state u).cs0 = true ∧ (r.state u).cs2 = true := by
  have pins := Top.pins_cases r start u
  rw [Top.pins_eq] at pins
  rcases pins with ⟨mosi, h⟩ | ⟨a, started, after, before, sck, mosi, h⟩
  · rw [Pins.mk.injEq] at h
    exact ⟨h.1, h.2.2.1⟩
  · have accepted := started.holds.accepts_first started.valid started.external
    have dev := ramA _ ((r.mem_observe accepts).mpr
      ⟨a + 1, Nat.zero_le _, by omega, accepted⟩)
    change (Top.requestAt r a).dev = 2#2 at dev
    rw [Request.selected, dev, Pins.mk.injEq] at h
    exact ⟨h.1, h.2.2.1⟩

/-- The one-byte transactions of the self-test: 0xA5 written to RAM A at address 0, and read back. -/
structure Probes (write read : Request) : Prop where
  write_chip : write.dev = 2#2 ∧ write.we = true ∧ write.addr = 0#24
  write_data : write.size = 0#2 ∧ write.wdata = 0xA5#32
  read_chip : read.dev = 2#2 ∧ read.we = false ∧ read.addr = 0#24
  read_size : read.size = 0#2

theorem probes {m : MemRegs} {b : Bus} (bank : m.psramBank = false) (read : b.we = false)
    (addr : b.addr = 0xE0#8) (size : b.size = 0#2) :
    Probes (m.request probeStore) (m.request b) := by
  have write := MemRegs.request_carries (m := m) (b := probeStore) (w := .psram)
    ⟨by decide, by decide⟩
  have back := MemRegs.request_carries (m := m) (b := b) (w := .psram)
    ⟨by rw [addr]; decide, by rw [addr]; decide⟩
  obtain ⟨dev, address, we, width, data⟩ := write
  obtain ⟨dev', address', we', width', -⟩ := back
  rw [bank] at dev dev'
  rw [addr] at address'
  exact ⟨⟨dev, we, BitVec.eq_of_toNat_eq address⟩, ⟨width, data⟩,
    ⟨dev', we'.trans read, BitVec.eq_of_toNat_eq address'⟩, width'.trans size⟩

/-- Until cycle `T` the run has not left the ROM; it has asked for the two transactions of the
self-test and made these stores after it, and neither CS0 nor CS2 has been low. -/
structure Shows (r : Clocked.Run Top.step) (T : Nat) (write read : Request)
    (stores : List Bus) : Prop where
  rom : ∀ v, v < T → (r.state v).core.pc.toNat < 176
  accepted : r.observe accepts 0 T = [write, read]
  stores : r.observe stored 0 T = probeStore :: stores
  selects : ∀ v, v ≤ T → (r.state v).cs0 = true ∧ (r.state v).cs2 = true

theorem shows {t' : Nat} {a : Arch} {log : Log} {write read : Request} {stores : List Bus}
    (start : Boundary (r.state 0)) (probes : Probes write read) (s : Leads r 0 t' a log)
    (asked : log.accepted = [write, read]) (stored : log.stores = probeStore :: stores) :
    Shows r t' write read stores where
  rom v before := s.rom v (Nat.zero_le v) before
  accepted := s.accepted.trans asked
  stores := s.stores.trans stored
  selects v upto := by
    refine cs_high start upto fun q member => ?_
    have accepted := s.accepted.trans asked
    rw [Nat.sub_zero] at accepted
    rw [accepted, List.mem_cons, List.mem_singleton] at member
    rcases member with rfl | rfl
    exacts [probes.write_chip.1, probes.read_chip.1]

/-- The first word of the flash is being fetched from cycle `T` on: the engine accepts a word read at
flash address 0, and clocks out the command 0x03 and the address with CS0 low. -/
structure FetchesFlash (r : Clocked.Run Top.step) (T : Nat) : Prop where
  here : (r.state T).core.state = .fetch ∧ (r.state T).core.pc = 0xB4#8
  mode : (r.state T).mem.regs.flashMode = true
  asked : ∃ q, accepts (r.state (T + 1)) (r.input (T + 1)) = some q ∧ q.dev = 1#2 ∧
    q.we = false ∧ q.addr = 0#24 ∧ q.size = 2#2 ∧
    (∀ k, k < 2 * q.half * 32 → (r.state (T + 2 + k)).cs0 = false) ∧
    r.observe Top.clocked (T + 2) (2 * q.half * 32) =
      (List.range 32).map fun k => (0x03000000#32).getMsbD k

theorem fetchesFlash {T : Nat} {a : Arch} (here : At r T a) (pc : a.pc = 0xB4#8)
    (mode : a.mem.flashMode = true) (page : a.mem.flashPage = 0#8) : FetchesFlash r T where
  here := ⟨here.boundary.fetch, here.pc.trans pc⟩
  mode := by rw [here.mem, mode]
  asked := by
    have held := here.boundary.fetch_holds
    have bus : (r.state (T + 1)).core.bus = Top.fetchBus r T := here.boundary.fetch_issued.first
    have regs : (r.state (T + 1)).mem.regs = a.mem :=
      Eq.trans here.boundary.fetch_regs here.mem
    have addr : (Top.fetchBus r T).addr = 0xB4#8 := (Top.fetchBus_eq here).1.trans pc
    have inside : InWindow a.mem (Top.fetchBus r T) .flash := by
      rw [InWindow, addr]; exact ⟨mode, by decide, by decide⟩
    obtain ⟨dev, address, we, size, -⟩ := MemRegs.request_carries inside
    rw [addr, page] at address
    have external : (r.state (T + 1)).mem.regs.inExt (r.state (T + 1)).core.bus = true := by
      rw [bus, regs]; exact MemRegs.inExt_iff.mpr ⟨_, inside⟩
    have valid : (r.state (T + 1)).core.bus.valid = true := by rw [bus]; rfl
    have transfer := held.transfer valid external
    have accepted := held.accepts_first valid external
    rw [bus, regs] at transfer accepted
    generalize a.mem.request (Top.fetchBus r T) = q at *
    have zero : q.addr = 0#24 := BitVec.eq_of_toNat_eq address
    have word : q.bits = 64 := by
      have flash : q.dev ≠ 0#2 := by rw [dev]; decide
      rcases q.bits_cases with ⟨h, -⟩ | ⟨-, h, -⟩ | ⟨-, h, -⟩ | ⟨-, -, -, h⟩
      · exact absurd h flash
      · cases size.symm.trans h
      · cases size.symm.trans h
      · exact h
    refine ⟨q, accepted, dev, we, zero, size, fun k before => ?_, ?_⟩
    · obtain ⟨sck, mosi, pins⟩ := transfer.exists_selected (u := T + 2 + k) (by omega)
        (by unfold Request.delay; rw [word]; omega)
      change (r.state (T + 2 + k)).mem.qspi.pins = _ at pins
      rw [Top.pins_eq, Request.selected, dev, Pins.mk.injEq] at pins
      exact pins.1
    · rw [Top.observe_clocked, show T + 2 = T + 1 + 1 from rfl,
        transfer.observe_bits (k := 32) (by omega)]
      have preload : Engine.preloadFor q = 0x03#8 ++ 0#24 ++ 0#32 := by
        simp [Engine.preloadFor, Engine.buildPreload, Engine.cmdRead, dev, we, zero]
      refine List.map_congr_left fun k member => ?_
      have within := List.mem_range.mp member
      rw [Request.mosiBit, preload]
      interval_cases k <;> rfl

/-- Boot from reset, with any contents of the registers and the RAM and any inputs.  The self-test
writes 0xA5 to RAM A and reads it back, which passes if the eight bits sampled in the data phase spell
0xA5.  If no poll made in ROM sees START high, 512 stores to `LED_OUT` follow, then the one that sets
`FLASH_MODE`, and the first fetch outside ROM is from the flash.  If START is first seen high by poll
`m`, `m - 1` such stores have been made when `RECV_BYTE` is entered, with `FLASH_MODE` clear. -/
theorem boot_without_host (r : Clocked.Run Top.step) (s : Top) (reset : r.state 0 = s.reset) :
    ∃ (t₀ u : Nat) (write read : Request) (fail : Bool),
      Probes write read ∧ Shows r t₀ write read [] ∧
      u < t₀ ∧ accepts (r.state u) (r.input u) = some read ∧
      (fail = false ↔ spell (samples (engineRun (memRun r)) u read) 32 = 0xA5#8) ∧
      ((∀ v, (∀ w, w ≤ v → (r.state w).core.pc.toNat < 176) →
          polled (r.state v) (r.input v) ≠ some true) →
        ∃ T, Shows r T write read
            ((List.range 512).map (fun k => ledStore fail (k + 1)) ++ [flashModeStore]) ∧
          FetchesFlash r T) ∧
      ∀ v m, 1 ≤ m → m ≤ 512 → polled (r.state v) (r.input v) = some true →
        r.observe polled 0 v = List.replicate (m - 1) false →
        ∃ T, v < T ∧ Shows r T write read
            ((List.range (m - 1)).map fun k => ledStore fail (k + 1)) ∧
          (r.state T).core.state = .fetch ∧ (r.state T).core.pc = 0x70#8 ∧
          (r.state T).mem.regs.flashMode = false := by
  have start : Boundary (r.state 0) := reset ▸ Top.boundary_reset s
  obtain ⟨t₀, u, b, x, fail, we, addr, size, tested, -, -, before, accepted, passes, verdict⟩ :=
    boot_selfTest s reset
  have probed : Probes (s.mem.regs.reset.request probeStore) (s.mem.regs.reset.request b) :=
    probes rfl we addr size
  generalize s.mem.regs.reset.request probeStore = write at *
  generalize s.mem.regs.reset.request b = read at *
  refine ⟨t₀, u, write, read, fail, probed, shows start probed tested rfl rfl, before, accepted,
    passes, fun never => ?_, fun v m pos upto high earlier => ?_⟩
  · obtain ⟨x', g, looped, -⟩ := listen tested verdict (k := 512) le_rfl fun j within =>
      start_low tested rfl verdict (fun w rom => never w fun w' => rom w' (Nat.zero_le _)) within
    rw [if_neg (by decide)] at looped
    have left := fall_back looped
    refine ⟨_, shows start probed left ?_ ?_, fetchesFlash left.reached rfl rfl rfl⟩
    · simp only [Log.append_accepted, List.append_nil]
    · simp only [Log.append_stores, List.cons_append, List.nil_append]
  · obtain ⟨low, seen, rfl⟩ := start_of_observed tested rfl verdict (n := m - 1) (by omega)
      (Nat.zero_le v) high (by simpa using earlier)
    obtain ⟨x', g, looped, -⟩ := listen tested verdict (k := m - 1) (by omega) low
    rw [if_pos (by omega)] at looped
    obtain ⟨x'', stopped⟩ := listen_high looped seen
    have entered : Leads r 0 (pollCycle t₀ (m - 1) + 28) ⟨romAddr 28, _, _, _⟩ _ :=
      stopped.plain 18 rfl rfl (by simp) rfl (fun _ => rfl) (fun _ => rfl)
    refine ⟨_, by omega, shows start probed entered rfl (by simp), entered.reached.boundary.fetch,
      entered.reached.pc, ?_⟩
    rw [entered.reached.mem]
    rfl

/-- With every input low the boot ROM ends up in flash. -/
theorem boot_without_host_zeroed : ∃ (T : Nat) (write read : Request) (fail : Bool),
    Shows Top.zeroedRun T write read
        ((List.range 512).map (fun k => ledStore fail (k + 1)) ++ [flashModeStore]) ∧
      FetchesFlash Top.zeroedRun T := by
  obtain ⟨-, -, write, read, fail, -, -, -, -, -, silent, -⟩ :=
    boot_without_host Top.zeroedRun Top.zeroed rfl
  obtain ⟨T, shown⟩ := silent fun v _ high => by
    have seen := polled_eq high
    rw [Top.zeroedRun, Clocked.Run.ofInputs_input] at seen
    cases seen
  exact ⟨T, write, read, fail, shown⟩

end Boot

end AgilA32
