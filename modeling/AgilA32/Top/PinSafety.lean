import AgilA32.Engine.Frame
import AgilA32.Top.Handshake

/-!
# Chip selects and commands on the pins

What the pins of the design can do in any run from reset: `chip_select_safety`.  Every cycle either
has all chips deselected and SCK low, or belongs to a transaction whose request is still the one on
the bus (`pins_cases`); so a chip select is traced back to the access that started it, and the first
eight bits clocked out to the command that access was given.
-/

namespace AgilA32

open Clocked (msbFirst)
open Engine (Accepts)
open Mem (engineRun)

namespace Request

/-- A transaction selects exactly one chip. -/
theorem selected_one (q : Request) (sck mosi : Bool) :
    ((q.selected sck mosi).cs0 = true ∨ (q.selected sck mosi).cs1 = true) ∧
      ((q.selected sck mosi).cs0 = true ∨ (q.selected sck mosi).cs2 = true) ∧
      ((q.selected sck mosi).cs1 = true ∨ (q.selected sck mosi).cs2 = true) ∧
      ((q.selected sck mosi).cs0 = false ∨ (q.selected sck mosi).cs1 = false ∨
        (q.selected sck mosi).cs2 = false) := by
  simp only [selected]
  generalize q.dev = dev
  revert dev
  decide

section Selects

variable {q : Request} {sck mosi : Bool}

theorem selects_cs0 : (q.selected sck mosi).cs0 = false ↔ q.dev = 1#2 := by
  simp [selected]

theorem selects_cs1 : (q.selected sck mosi).cs1 = false ↔ q.dev = 2#2 := by
  simp [selected]

theorem selects_cs2 : (q.selected sck mosi).cs2 = false ↔ q.dev = 3#2 ∨ q.dev = 0#2 := by
  rw [selected, Bool.not_eq_false', Bool.or_eq_true, beq_iff_eq, beq_iff_eq]

end Selects

end Request

namespace MemRegs

variable {m : MemRegs} {b : Bus}

/-- Which window, and which setting, selects each device. -/
theorem reqDev_cases (external : m.inExt b = true) :
    (m.request b).dev = 1#2 ∧ InWindow m b .flash ∧ (m.request b).we = false ∨
    (m.request b).dev = 0#2 ∧ InWindow m b .spi ∨
    (m.request b).dev = 2#2 ∧ InWindow m b .psram ∧ m.psramBank = false ∨
    (m.request b).dev = 3#2 ∧ InWindow m b .psram ∧ m.psramBank = true := by
  obtain ⟨w, inside⟩ := inExt_iff.mp external
  have carries := request_carries inside
  cases w with
  | flash => exact .inl ⟨carries.1, inside, carries.2.2.1⟩
  | spi => exact .inr (.inl ⟨carries.1, inside⟩)
  | psram =>
      cases bank : m.psramBank
      · exact .inr (.inr (.inl ⟨by rw [carries.1, bank]; rfl, inside, rfl⟩))
      · exact .inr (.inr (.inr ⟨by rw [carries.1, bank]; rfl, inside, rfl⟩))

theorem of_dev_flash (external : m.inExt b = true) (dev : (m.request b).dev = 1#2) :
    InWindow m b .flash ∧ (m.request b).we = false := by
  rcases reqDev_cases external with ⟨-, access⟩ | ⟨other, -⟩ | ⟨other, -⟩ | ⟨other, -⟩
  · exact access
  all_goals exact absurd (dev.symm.trans other) (by decide)

theorem of_dev_bank0 (external : m.inExt b = true) (dev : (m.request b).dev = 2#2) :
    InWindow m b .psram ∧ m.psramBank = false := by
  rcases reqDev_cases external with ⟨other, -⟩ | ⟨other, -⟩ | ⟨-, access⟩ | ⟨other, -⟩
  case inr.inr.inl => exact access
  all_goals exact absurd (dev.symm.trans other) (by decide)

theorem of_dev_shared (external : m.inExt b = true)
    (dev : (m.request b).dev = 3#2 ∨ (m.request b).dev = 0#2) :
    InWindow m b .psram ∧ m.psramBank = true ∨ InWindow m b .spi := by
  rcases reqDev_cases external with ⟨other, -⟩ | ⟨-, inside⟩ | ⟨other, -⟩ | ⟨-, access⟩
  case inr.inl => exact .inr inside
  case inr.inr.inr => exact .inl access
  all_goals
    rw [other] at dev
    exact absurd dev (by decide)

end MemRegs

namespace Top

/-! ## The pins of the bidirectional port -/

def cs0 (s : Top) : Bool := s.uioOut.getLsbD 0
def mosi (s : Top) : Bool := s.uioOut.getLsbD 1
def sck (s : Top) : Bool := s.uioOut.getLsbD 3
def cs1 (s : Top) : Bool := s.uioOut.getLsbD 6
def cs2 (s : Top) : Bool := s.uioOut.getLsbD 7

theorem pins_eq (s : Top) : s.mem.qspi.pins = ⟨s.cs0, s.cs1, s.cs2, s.sck, s.mosi⟩ := by
  simp only [cs0, cs1, cs2, sck, mosi, uioOut, Engine.pins, BitVec.getLsbD_append,
    BitVec.getLsbD_ofBool]
  simp

/-- A bit clocked out on MOSI at a rising edge of SCK. -/
def clocked (s : Top) (i : TopIn) : Option Bool :=
  if !s.sck && (s.step i).sck then some (s.step i).mosi else none

theorem clocked_eq (s : Top) (i : TopIn) :
    clocked s i = Engine.clocked s.mem.qspi
      { req := s.mem.regs.request s.core.bus, miso := i.qspiMiso } := by
  have before := s.pins_eq
  have after := (s.step i).pins_eq
  simp only [Engine.pins, Pins.mk.injEq] at before after
  rw [clocked, Engine.clocked, ← before.2.2.2.1, ← after.2.2.2.1, ← after.2.2.2.2]
  rfl

section Run

variable {r : Clocked.Run Top.step} {a u : Nat}

theorem observe_clocked (n : Nat) :
    r.observe clocked u n = (engineRun (memRun r)).observe Engine.clocked u n := by
  unfold Clocked.Run.observe
  congr 1
  funext v
  exact clocked_eq _ _

/-- The request of the access issued at the end of cycle `a`. -/
def requestAt (r : Clocked.Run Top.step) (a : Nat) : Request :=
  (r.state (a + 1)).mem.regs.request (r.state (a + 1)).core.bus

/-- The engine carries out the access issued at the end of cycle `a`. -/
structure Transacts (r : Clocked.Run Top.step) (a : Nat) : Prop where
  holds : Holds r a
  valid : (r.state (a + 1)).core.memValid = true
  external : (r.state (a + 1)).mem.regs.inExt (r.state (a + 1)).core.bus = true

namespace Transacts

theorem transfer (started : Transacts r a) :
    Accepts (engineRun (memRun r)) (a + 1) (r.state (a + 1)).mem.qspi (requestAt r a) :=
  started.holds.transfer started.valid started.external

/-- The access and the registers that determine its request stand throughout. -/
theorem steady (started : Transacts r a) {k : Nat} (upto : k ≤ (requestAt r a).delay) :
    (r.state (a + 1 + k)).core.bus = (r.state (a + 1)).core.bus ∧
      (r.state (a + 1 + k)).mem.regs = (r.state (a + 1)).mem.regs := by
  have delay : stallAt r a = (requestAt r a).delay :=
    stallAt_external started.valid started.external
  rw [← delay] at upto
  exact ⟨by rw [started.holds.held k upto], (started.holds.issued.waiting upto).2⟩

end Transacts

/-- In every cycle either no chip is selected and SCK is low, or a transaction is going on. -/
theorem pins_cases (r : Clocked.Run Top.step) (start : Boundary (r.state 0)) (u : Nat) :
    (∃ mosi, (r.state u).mem.qspi.pins = ⟨true, true, true, false, mosi⟩) ∨
    ∃ a, Transacts r a ∧ a + 1 < u ∧ u < a + 1 + (requestAt r a).delay ∧
      ∃ sck mosi, (r.state u).mem.qspi.pins = (requestAt r a).selected sck mosi := by
  rcases cycle_cases r start u with ⟨-, -, rest, -⟩ | ⟨a, k, rfl, -, holds, upto⟩
  · exact .inl ⟨_, rest.pins⟩
  rcases Nat.eq_zero_or_pos k with rfl | later
  · exact .inl ⟨_, holds.issued.rest.pins⟩
  obtain ⟨external, -⟩ := holds.issued.reqReady_low (k := 0) (Nat.lt_of_lt_of_le later upto)
  rw [Bool.and_eq_true] at external
  have started : Transacts r a := ⟨holds, external.1, external.2⟩
  have delay : stallAt r a = (requestAt r a).delay := stallAt_external external.1 external.2
  rcases Nat.eq_or_lt_of_le upto with rfl | before
  · rw [delay]
    exact .inl ⟨_, started.transfer.post_pins⟩
  · exact .inr ⟨a, started, by omega, by omega,
      started.transfer.exists_selected (by omega) (by omega)⟩

/-- A chip select that falls after cycle `u` belongs to the access that is on the bus then. -/
theorem falls (r : Clocked.Run Top.step) (start : Boundary (r.state 0)) (cs : Pins → Bool)
    (idle : ∀ mosi, cs ⟨true, true, true, false, mosi⟩ = true)
    (steady : ∀ q : Request, ∀ sck mosi sck' mosi',
      cs (q.selected sck mosi) = cs (q.selected sck' mosi'))
    (high : cs (r.state u).mem.qspi.pins = true)
    (low : cs (r.state (u + 1)).mem.qspi.pins = false) :
    ∃ a, u = a + 1 ∧ Transacts r a ∧ cs ((requestAt r a).selected false false) = false := by
  rcases pins_cases r start (u + 1) with ⟨mosi, pins⟩ | ⟨a, started, after, before, sck, mosi, pins⟩
  · rw [pins, idle] at low; cases low
  rw [pins, steady _ _ _ false false] at low
  rcases Nat.eq_or_lt_of_le (show a + 1 ≤ u by omega) with rfl | inside
  · exact ⟨a, rfl, started, low⟩
  · obtain ⟨sck', mosi', pins'⟩ := started.transfer.exists_selected inside (by omega)
    change (r.state u).mem.qspi.pins = _ at pins'
    rw [pins', steady _ _ _ false false, low] at high
    cases high

/-- The first eight bits clocked out are the command `c`: a part of it as long as the transaction
lasts, and all of it once it is over. -/
def BeginsWith (bits : List Bool) (c : BitVec 8) (ended : Prop) : Prop :=
  bits.take 8 <+: (List.range 8).map (msbFirst c) ∧
    (ended → bits.take 8 = (List.range 8).map (msbFirst c))

/-- A transaction clocks out its command first. -/
theorem Transacts.clocked_command (started : Transacts r a) (chip : (requestAt r a).dev ≠ 0#2)
    (cs : Pins → Bool) (idle : ∀ mosi, cs ⟨true, true, true, false, mosi⟩ = true)
    (steady : ∀ sck mosi, cs ((requestAt r a).selected sck mosi) = false)
    {n : Nat} (low : ∀ k, k < n → cs (r.state (a + 2 + k)).mem.qspi.pins = false) :
    BeginsWith (r.observe clocked (a + 2) n) (requestAt r a).command
      (cs (r.state (a + 2 + n)).mem.qspi.pins = true) := by
  have transfer := started.transfer
  have some := (requestAt r a).bits_cases
  have shifts (k : Nat) (before : k < 2 * (requestAt r a).half * (requestAt r a).bits + 1) :
      cs (r.state (a + 2 + k)).mem.qspi.pins = false := by
    obtain ⟨sck, mosi, pins⟩ := transfer.exists_selected (u := a + 2 + k) (by omega)
      (by unfold Request.delay; omega)
    change (r.state (a + 2 + k)).mem.qspi.pins = _ at pins
    rw [pins, steady]
  have upto : n ≤ 2 * (requestAt r a).half * (requestAt r a).bits + 1 := by
    by_contra beyond
    have post := low (2 * (requestAt r a).half * (requestAt r a).bits + 1) (by omega)
    have pins := transfer.post_pins
    change (r.state (a + 1 + (requestAt r a).delay)).mem.qspi.pins = _ at pins
    rw [show a + 1 + (requestAt r a).delay =
      a + 2 + (2 * (requestAt r a).half * (requestAt r a).bits + 1) by
        unfold Request.delay; omega] at pins
    rw [pins, idle] at post
    cases post
  have bits : ∃ k, k ≤ (requestAt r a).bits ∧
      r.observe clocked (a + 2) n = (List.range k).map (requestAt r a).mosiBit ∧
      (n = 2 * (requestAt r a).half * (requestAt r a).bits + 1 → k = (requestAt r a).bits) := by
    rw [observe_clocked]
    rcases Nat.eq_or_lt_of_le upto with rfl | before
    · refine ⟨_, le_rfl, ?_, fun _ => rfl⟩
      rw [Clocked.Run.observe_add, Clocked.Run.observe_one]
      have done := transfer.done_pins
      have silent : Engine.clocked
          ((engineRun (memRun r)).state (a + 2 + 2 * (requestAt r a).half * (requestAt r a).bits))
          ((engineRun (memRun r)).input (a + 2 + 2 * (requestAt r a).half * (requestAt r a).bits)) =
          none := by
        rw [Accepts.clocked_eq, show a + 2 + 2 * (requestAt r a).half * (requestAt r a).bits =
          a + 1 + 1 + 2 * (requestAt r a).half * (requestAt r a).bits by omega, done]
        simp [Request.selected]
      rw [silent, Option.toList_none, List.append_nil]
      exact transfer.observe_bits le_rfl
    · obtain ⟨k, within, observed, -⟩ := transfer.observe_clocked (n := n) (by omega)
      exact ⟨k, within, observed, by omega⟩
  obtain ⟨k, within, observed, complete⟩ := bits
  have first : ((List.range k).map (requestAt r a).mosiBit).take 8 =
      (List.range (min 8 k)).map (msbFirst (requestAt r a).command) := by
    rw [← List.map_take, List.take_range]
    refine List.map_congr_left fun j member => Request.mosiBit_command chip ?_
    have := List.mem_range.mp member
    omega
  rw [BeginsWith, observed, first]
  constructor
  · rw [show List.range 8 = List.range (min 8 k + (8 - min 8 k)) by congr 1; omega,
      List.range_add, List.map_append]
    exact List.prefix_append _ _
  · intro high
    have last : n = 2 * (requestAt r a).half * (requestAt r a).bits + 1 := by
      by_contra other
      rw [shifts n (by omega)] at high
      cases high
    rw [complete last, Nat.min_eq_left (by omega)]

/-- In every cycle of every run from reset: at most one chip select is low; SCK is high only with one
low; CS0 is low only in flash mode.  CS1 falls only for an access to the PSRAM window of bank 0, CS2
only for one of bank 1 or a store to `SPI_DATA`.  While CS0 stays low the first eight bits clocked
out are the command 0x03, and while CS1 stays low they are 0x02 or 0x03. -/
theorem chip_select_safety (r : Clocked.Run Top.step) (s : Top) (reset : r.state 0 = s.reset)
    (u : Nat) :
    ((r.state u).cs0 = true ∨ (r.state u).cs1 = true) ∧
    ((r.state u).cs0 = true ∨ (r.state u).cs2 = true) ∧
    ((r.state u).cs1 = true ∨ (r.state u).cs2 = true) ∧
    ((r.state u).sck = true →
      (r.state u).cs0 = false ∨ (r.state u).cs1 = false ∨ (r.state u).cs2 = false) ∧
    ((r.state u).cs0 = false → (r.state u).mem.regs.flashMode = true) ∧
    ((r.state u).cs1 = true → (r.state (u + 1)).cs1 = false →
      (r.state u).core.memValid = true ∧ InWindow (r.state u).mem.regs (r.state u).core.bus .psram ∧
        (r.state u).mem.regs.psramBank = false) ∧
    ((r.state u).cs2 = true → (r.state (u + 1)).cs2 = false →
      (r.state u).core.memValid = true ∧
        (InWindow (r.state u).mem.regs (r.state u).core.bus .psram ∧
            (r.state u).mem.regs.psramBank = true ∨
          InWindow (r.state u).mem.regs (r.state u).core.bus .spi)) ∧
    ((r.state u).cs0 = true → ∀ n, 0 < n → (∀ k, k < n → (r.state (u + 1 + k)).cs0 = false) →
      BeginsWith (r.observe clocked (u + 1) n) 0x03#8 ((r.state (u + 1 + n)).cs0 = true)) ∧
    ((r.state u).cs1 = true → ∀ n, 0 < n → (∀ k, k < n → (r.state (u + 1 + k)).cs1 = false) →
      ∃ c, (c = 0x02#8 ∨ c = 0x03#8) ∧
        BeginsWith (r.observe clocked (u + 1) n) c ((r.state (u + 1 + n)).cs1 = true)) := by
  have start : Boundary (r.state 0) := reset ▸ boundary_reset s
  have pins (v : Nat) := (r.state v).pins_eq
  have cases_at := pins_cases r start u
  rw [pins u] at cases_at
  refine ⟨?_, ?_, ?_, ?_, ?_, ?_, ?_, ?_, ?_⟩
  case refine_5 =>
    intro low
    rcases cases_at with ⟨mosi, h⟩ | ⟨a, started, after, before, sck, mosi, h⟩
    · rw [Pins.mk.injEq, low] at h; cases h.1
    · obtain ⟨k, rfl⟩ := Nat.exists_eq_add_of_le (Nat.le_of_lt after)
      rw [(started.steady (k := k) (by omega)).2]
      have selects : ((requestAt r a).selected sck mosi).cs0 = false := by
        rw [← h]
        exact low
      exact (MemRegs.of_dev_flash started.external (Request.selects_cs0.mp selects)).1.1
  case refine_6 =>
    intro high low
    obtain ⟨a, rfl, started, selects⟩ := falls r start Pins.cs1 (fun _ => rfl) (fun _ _ _ _ _ => rfl)
      (by rw [pins]; exact high) (by rw [pins]; exact low)
    exact ⟨started.valid, MemRegs.of_dev_bank0 started.external (Request.selects_cs1.mp selects)⟩
  case refine_7 =>
    intro high low
    obtain ⟨a, rfl, started, selects⟩ := falls r start Pins.cs2 (fun _ => rfl) (fun _ _ _ _ _ => rfl)
      (by rw [pins]; exact high) (by rw [pins]; exact low)
    exact ⟨started.valid, MemRegs.of_dev_shared started.external (Request.selects_cs2.mp selects)⟩
  case refine_8 =>
    intro high n pos low
    obtain ⟨a, rfl, started, selects⟩ := falls r start Pins.cs0 (fun _ => rfl) (fun _ _ _ _ _ => rfl)
      (by rw [pins]; exact high) (by rw [pins]; exact low 0 pos)
    have dev := Request.selects_cs0.mp selects
    have read : (requestAt r a).we = false := (MemRegs.of_dev_flash started.external dev).2
    have begins := started.clocked_command (by rw [dev]; decide) Pins.cs0 (fun _ => rfl) (fun _ _ => selects)
      (n := n) fun k before => by rw [pins]; exact low k before
    rw [pins, Request.command, read] at begins
    exact begins
  case refine_9 =>
    intro high n pos low
    obtain ⟨a, rfl, started, selects⟩ := falls r start Pins.cs1 (fun _ => rfl) (fun _ _ _ _ _ => rfl)
      (by rw [pins]; exact high) (by rw [pins]; exact low 0 pos)
    have dev := Request.selects_cs1.mp selects
    have begins := started.clocked_command (by rw [dev]; decide) Pins.cs1 (fun _ => rfl) (fun _ _ => selects)
      (n := n) fun k before => by rw [pins]; exact low k before
    rw [pins] at begins
    refine ⟨_, ?_, begins⟩
    unfold Request.command
    split
    exacts [.inl rfl, .inr rfl]
  all_goals
    rcases cases_at with ⟨mosi, h⟩ | ⟨a, -, -, -, sck, mosi, h⟩
    · rw [Pins.mk.injEq] at h
      simp [h]
    · obtain ⟨flashA, flashB, ramAB, some⟩ := (requestAt r a).selected_one sck mosi
      rw [← h] at flashA flashB ramAB some
      first | exact flashA | exact flashB | exact ramAB | exact fun _ => some

/-- The boot ROM's first transaction is started on CS1 by its store to the PSRAM window. -/
theorem chip_select_safety_zeroed :
    (zeroedRun.state 12).core.memValid = true ∧
      InWindow (zeroedRun.state 12).mem.regs (zeroedRun.state 12).core.bus .psram ∧
      (zeroedRun.state 12).mem.regs.psramBank = false :=
  (chip_select_safety zeroedRun zeroed rfl 12).2.2.2.2.2.1 (by decide +kernel) (by decide +kernel)

end Run

end Top

end AgilA32
