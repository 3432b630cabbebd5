import AgilA32.Asm.Asm
import AgilA32.Boot.Program
import AgilA32.Flash.Pins

/-!
# From reset to the program in flash

The program in flash is entered on its page 0 in two ways: at its first word if no host shows up, or at
the second one by the stub that a host sends (`handoffStub`).  `Arrives` says what either way leaves
behind, and what the LED pins have shown by then.
-/

namespace AgilA32

namespace Flash

open AgilA32.Core (readReg)
open Boot (Host SelfTested ledStore ledValue polled)
open Clocked (Run)
open Mem (engineRun)
open Rv32i (decode)
open AgilA32.Top (Arch At Boundary ledWrite memRun stored)

/-- What the `k`-th store of the listen loop shows on the LEDs. -/
def led (fail : Bool) (k : Nat) : BitVec 8 := (ledValue fail k).extractLsb' 0 8

/-- In cycle `t` the instruction at word `k` of flash page 0 begins, and until then the LEDs have shown
the first `n` values of the listen loop. -/
structure Arrives (r : Run Top.step) (c : Run SpiRam.step) (mem : BitVec 14 → BitVec 8) (t k n : Nat)
    (fail : Bool) (a : Arch) : Prop where
  flash : FlashAt r c mem t a
  mode : a.mem.flashMode = true
  page : a.mem.flashPage = 0#8
  entry : k = 0 ∨ k = 1
  pc : a.pc = .ofNat 8 (0xB4 + 4 * k)
  mux : a.settings.pinMux = 0#2
  divider : a.mem.qspiDivSel = 3#2
  leds : r.observe ledWrite 0 t = (List.range n).map fun j => led fail (j + 1)

variable {r : Run Top.step} {c : Run SpiRam.step} {s : Top}

/-- The paged machine starts on page 0, with the registers that the boot ROM left. -/
theorem Arrives.onPage {mem : BitVec 14 → BitVec 8} {t k n : Nat} {fail : Bool} {a : Arch}
    (arrives : Arrives r c mem t k n fail a) (image : List (BitVec 8)) :
    (Paged.machine r image t a).state 0 = some (Paged.onPage 0 k a.x) := by
  rw [Paged.machine, Run.ofInputs_state_zero, Paged.ofArch, arrives.page, arrives.pc]
  rfl

/-- The LED stores of the boot ROM. -/
theorem led_stores {t : Nat} {stores : List Bus} {fail : Bool} {n : Nat}
    (shown : r.observe stored 0 t = Boot.probeStore :: (((List.range n).map fun j => ledStore fail (j + 1)) ++
      stores)) (others : ∀ b ∈ stores, b.addr ≠ 0xF0#8) :
    r.observe ledWrite 0 t = (List.range n).map fun j => led fail (j + 1) := by
  rw [show ledWrite = fun s i => (stored s i).bind _ from rfl, r.observe_bind, shown,
    List.filterMap_cons_none rfl, List.filterMap_append, List.filterMap_map]
  have rest : stores.filterMap (fun b => if b.addr = 0xF0#8 then some (b.wdata.extractLsb' 0 8) else none) =
      [] := List.filterMap_eq_nil_iff.mpr fun b member => if_neg (others b member)
  rw [rest, List.append_nil, ← List.filterMap_eq_map]
  rfl

/-- The boot ROM never sees START. -/
def Unattended (r : Run Top.step) : Prop :=
  ∀ v, (∀ w, w ≤ v → (r.state w).core.pc.toNat < 176) → polled (r.state v) (r.input v) ≠ some true

section Alone

variable (reset : r.state 0 = s.reset) (wired : Attached (engineRun (memRun r)) c 1#2)
  (idle : (c.state 0).Idle)
include reset wired idle

/-- Without a host the design arrives at flash byte 0 within 42570 cycles, after 512 polls. -/
theorem arrives_alone (never : Unattended r) :
    ∃ t a fail, t ≤ 42570 ∧ Arrives r c (c.state 0).mem t 0 512 fail a := by
  obtain ⟨t₀, u, b, x, fail, -, -, -, tested, -, late, -, -, -, verdict⟩ := Boot.boot_selfTest s reset
  obtain ⟨x', g, looped, -⟩ := Boot.listen tested verdict (k := 512) le_rfl fun j within =>
    Boot.start_low tested rfl verdict (fun w rom => never w fun w' => rom w' (Nat.zero_le _)) within
  rw [if_neg (by decide)] at looped
  have left := Boot.fall_back looped
  have stores := left.stores
  simp only [Boot.Log.append_stores, List.cons_append, List.nil_append, Nat.sub_zero] at stores
  exact ⟨_, _, fail, by unfold Boot.pollCycle; omega, flashAt_of_reset wired reset idle left.reached, rfl,
    rfl, .inl rfl, rfl, rfl, rfl, led_stores stores (by simp [Boot.flashModeStore])⟩

end Alone

/-! ## The stub -/

/-- The one instruction of `build_flash_handoff_stub.py`. -/
def stubCalls : List Asm.Call := [.exec (.sw 0 0 0xF8)]

/-- The bytes that the host sends. -/
def handoffStub : List (BitVec 8) :=
  (((Asm.new 0).build stubCalls).bind fun a => a.finalize.bind wordsToBytes).getD []

theorem handoffStub_eq : handoffStub = [0x23, 0x2C, 0x00, 0x0E] := by decide

section Loaded

variable {t₀ k : Nat} {x : RegFile} {m : MemRegs} {σ : Settings} {log : Boot.Log} {low rise : Nat → Nat}
  {payload : List (BitVec 8)}

/-- The values on the LEDs when the host shows up: one for each poll made before it raised START. -/
def ledsBefore (r : Run Top.step) (low : Nat → Nat) : Nat := (r.observe polled 0 (low 0)).length

/-- These polls are those of the rounds in which START is low. -/
theorem ledsBefore_eq (s : Boot.Leads r 0 t₀ ⟨Boot.romAddr 6, x, m, σ⟩ log) (fresh : log.polls = [])
    {fail : Bool} (verdict : readReg x 8 = if fail then 0x80 else 0) (small : k < 512)
    (before : ∀ j, j < k → Boot.start r t₀ j = false) (after : low 0 ≤ Boot.pollCycle t₀ k + 6)
    (soon : Boot.pollCycle t₀ k + 6 < low 0 + 63) : ledsBefore r low = k := by
  have longer {a b : Nat} (upto : a ≤ b) : (r.observe polled 0 a).length ≤ (r.observe polled 0 b).length := by
    have cut := r.observe_cut polled (Nat.zero_le a) upto
    rw [Nat.sub_zero, Nat.sub_zero] at cut
    rw [cut, List.length_append]
    exact Nat.le_add_right _ _
  have all := (Boot.poll_reached s fresh verdict small before).2.1
  rw [Nat.sub_zero] at all
  have upper := longer after
  rw [all, List.length_replicate] at upper
  refine Nat.le_antisymm upper ?_
  rcases Nat.eq_zero_or_pos k with rfl | some_
  · exact Nat.zero_le _
  obtain ⟨j, rfl⟩ := Nat.exists_eq_add_of_le' some_
  obtain ⟨last, earlier, -⟩ := Boot.poll_reached s fresh verdict (k := j) (by omega)
    fun i within => before i (by omega)
  have lower := longer (a := Boot.pollCycle t₀ j + 6 + 1) (b := low 0)
    (by unfold Boot.pollCycle at *; omega)
  rw [Nat.sub_zero] at earlier
  rw [r.observe_add, r.observe_one, earlier, Nat.zero_add, last, List.length_append,
    List.length_replicate] at lower
  exact lower

/-- The stub in RAM is the store that switches to flash. -/
theorem decode_stub (loaded : Boot.Loaded m handoffStub 4 m') :
    decode (Verilog.ofBytes fun k => m'.ramByte (4 + k)) = some (.store .sw 0 0 0xF8) := by
  have word : (Verilog.ofBytes fun k => m'.ramByte (4 + k)) = 0x0E002C23#32 := by
    refine Verilog.eq_of_byteAt (c := 4) rfl fun k within => ?_
    rw [Verilog.byteAt_ofBytes _ within, loaded.bytes _ (by omega), if_pos (by omega), handoffStub_eq,
      Nat.add_sub_cancel_left]
    interval_cases k <;> rfl
  rw [word]
  decide

/-- With a host that sends the stub. -/
theorem arrives_loaded (reset : r.state 0 = s.reset) (wired : Attached (engineRun (memRun r)) c 1#2)
    (idle : (c.state 0).Idle) :
    ∃ t₀, SelfTested r t₀ ∧ ∀ low rise, Host r t₀ low rise handoffStub →
      ∃ t a fail, t ≤ low 40 + 113 ∧ Arrives r c (c.state 0).mem t 1 (ledsBefore r low) fail a := by
  obtain ⟨t₀, u, b, x, fail, -, -, -, tested, early, late, -, -, -, verdict⟩ :=
    Boot.boot_selfTest s reset
  refine ⟨t₀, ⟨⟨tested.reached.boundary.fetch, tested.reached.pc⟩, fun u => tested.rom u (Nat.zero_le u),
    tested.polls, early, late⟩, fun low rise host => ?_⟩
  obtain ⟨k, small, before, high, after, soon⟩ := Boot.start_seen tested rfl verdict host
  rw [ledsBefore_eq tested rfl verdict small before after soon]
  obtain ⟨x₁, g, looped, -⟩ := Boot.listen tested verdict small.le before
  rw [if_pos small] at looped
  obtain ⟨x₂, entered⟩ := Boot.listen_high looped high
  obtain ⟨T, x₃, m, near, loads, loaded⟩ :=
    Boot.load_fits_within host.sends (by decide) (by decide) rfl entered (by omega) (by omega)
  have stores := loads.stores
  simp only [Boot.Log.append_stores, List.cons_append, List.nil_append, List.append_nil, Nat.sub_zero]
    at stores
  have leds := led_stores stores fun b member led => by
    obtain ⟨i, within, rfl⟩ := List.mem_map.mp member
    have addr : (Boot.loadStore handoffStub i).addr.toNat = 180 + i :=
      Boot.loadStore_addr (lt_trans (List.mem_range.mp within) (by decide))
    rw [led] at addr
    have short : i < 4 := List.mem_range.mp within
    have : 240 = 180 + i := addr
    omega
  obtain ⟨ws, others⟩ := loaded.others
  have here := loads.reached
  have ram := here.ram_word (by rw [others]; rfl) (show 180 ≤ (0xB4#8).toNat by decide)
    (show (0xB4#8).toNat + 3 < 224 by decide)
  have word : Top.word r T = Verilog.ofBytes fun k => m.ramByte (4 + k) := by
    refine Verilog.eq_of_byteAt (c := 4) rfl fun k within => ?_
    rw [Verilog.byteAt_ofBytes _ within, ram.2 k within]
    exact congrArg m.ramByte (congrArg (· + k) (by decide : (0xB4#8).toNat - 176 = 4))
  have decoded := decode_stub loaded
  rw [← word] at decoded
  have flash := (flashAt_of_reset wired reset idle here).set_mode wired decoded rfl
  have next : Top.next r T = T + 7 := by
    have data : Top.dataDelay r T = 0 := by
      refine MemRegs.delay_onchip ?_
      have addr : (Top.dataBus r T).addr = 0xF8#8 :=
        (congrArg Bus.addr (Top.dataBus_store here decoded rfl)).trans rfl
      rw [MemRegs.inExt_register (by simp [addr]) (.inr (by simp [addr])), Bool.and_false]
    unfold Top.next Top.dataCycle
    rw [ram.1, data]
  refine ⟨_, _, fail, ?_, flash, rfl, by rw [others]; rfl, .inr rfl, rfl, rfl, by rw [others]; rfl, ?_⟩
  · rw [next]
    exact Nat.add_le_add_right near 7
  have silent := here.observe_ledWrite decoded (by simp)
  have cut := r.observe_cut ledWrite (Nat.zero_le T) (Top.lt_next r T).le
  rw [Nat.sub_zero, Nat.sub_zero, leds, silent] at cut
  rw [cut]
  exact List.append_nil _

end Loaded

section Board

variable {r : Run Board.step} {b : Board} (reset : r.state 0 = b.reset)
include reset

/-- A reset leaves the flash chip at rest, and its contents alone. -/
theorem idle_flash : ((Board.chipRun r 1#2).state 0).Idle := by
  change ((r.state 0).chips.chip 1#2).Idle
  rw [reset]
  exact Chips.idle_reset b.chips 1#2

theorem holds_flash {image : List (BitVec 8)} (holds : Holds b.chips.flash.mem image) :
    Holds ((Board.chipRun r 1#2).state 0).mem image := by
  change Holds ((r.state 0).chips.chip 1#2).mem image
  rw [reset]
  exact holds

/-- What holds of a design from where it enters the program in flash holds on a board without a host, and
with one that sends the stub. -/
theorem entered {image : List (BitVec 8)} {P : Run Top.step → Nat → Nat → Prop}
    (holds_there : ∀ {r : Run Top.step} {chip : Run SpiRam.step} {t k l : Nat} {fail : Bool} {a : Arch},
      Attached (engineRun (memRun r)) chip 1#2 → Holds (chip.state 0).mem image →
      Arrives r chip (chip.state 0).mem t k l fail a → Boundary (r.state 0) → P r t k)
    (holds : Holds b.chips.flash.mem image) :
    (Unattended (Board.topRun r) → ∃ t, t ≤ 42570 ∧ P (Board.topRun r) t 0) ∧
    ∃ t₀, SelfTested (Board.topRun r) t₀ ∧ ∀ low rise, Host (Board.topRun r) t₀ low rise handoffStub →
      ∃ t, t ≤ low 40 + 113 ∧ P (Board.topRun r) t 1 := by
  have reset' : (Board.topRun r).state 0 = b.top.reset := congrArg Board.top reset
  have wired := Board.wired r 1#2 (by simp)
  have idle := idle_flash reset
  have start : Boundary ((Board.topRun r).state 0) := reset' ▸ Top.boundary_reset b.top
  have stored := holds_flash reset holds
  constructor
  · intro unattended
    obtain ⟨t, a, fail, early, arrives⟩ := arrives_alone reset' wired idle unattended
    exact ⟨t, early, holds_there wired stored arrives start⟩
  · obtain ⟨t₀, tested, loaded⟩ := arrives_loaded reset' wired idle
    refine ⟨t₀, tested, fun low rise host => ?_⟩
    obtain ⟨t, a, fail, early, arrives⟩ := loaded low rise host
    exact ⟨t, early, holds_there wired stored arrives start⟩

end Board

/-- An image that fits in the flash is all there. -/
theorem holds_whole {image : List (BitVec 8)} (small : image.length ≤ 16384) : Holds (flashMem image) image := by
  have whole := holds_flashMem image
  rwa [List.take_of_length_le small] at whole

/-- On the board with no host nobody ever raises START. -/
theorem unattended_flashBoard (mem : BitVec 14 → BitVec 8) : Unattended (Board.topRun (flashBoardRun mem)) := by
  intro v _ high
  have seen := Boot.polled_eq high
  change ((flashBoardRun mem).input v).uiIn.getLsbD 2 = true at seen
  rw [flashBoardRun, Run.ofInputs_input] at seen
  cases seen

end Flash

end AgilA32
