import AgilA32.Board.Board
import AgilA32.Board.SpiTransfer
import AgilA32.Engine.Frame
import AgilA32.Mem.Access

/-!
# The engine and the chips

A chip wired to one of the engine's selects (`Attached`) answers a read with the bytes it holds from
the requested address on (`Attached.spell_samples`), and a write leaves the requested bytes there
(`Attached.after`).  Transactions with other chips, and the single byte of a generic SPI transfer,
leave its memory alone.
-/

namespace AgilA32

open Clocked (spell msbFirst)
open Engine (Accepts Resting samples)
open Memory (storeAll)
open Verilog (byteAt)

/-! ## The chips by number -/

/-- The pins and the chip of device `d`, as in a request: 1 = flash, 2 = RAM A, 3 = RAM B. -/
def Pins.chip (p : Pins) (d : BitVec 2) : SpiPins :=
  if d = 1#2 then p.flash else if d = 2#2 then p.ramA else p.ramB

def Chips.chip (c : Chips) (d : BitVec 2) : SpiRam :=
  if d = 1#2 then c.flash else if d = 2#2 then c.ramA else c.ramB

theorem Chips.chip_edge (c : Chips) (d : BitVec 2) (old new : Pins) :
    (c.edge old new).chip d = (c.chip d).edge (old.chip d) (new.chip d) := by
  unfold Chips.chip Pins.chip
  split
  · rfl
  · split <;> rfl

/-- The chip that a request selects: generic SPI shares CS2 with RAM B. -/
def Request.slave (q : Request) : BitVec 2 := if q.dev = 0#2 then 3#2 else q.dev

theorem Request.slave_chip {q : Request} (chip : q.dev ≠ 0#2) : q.slave = q.dev := if_neg chip

/-- A transaction selects one chip, and no other. -/
theorem Request.selected_chip (q : Request) {d : BitVec 2} (chip : d ≠ 0#2) (sck mosi : Bool) :
    (q.selected sck mosi).chip d = ⟨!(q.slave == d), sck, mosi⟩ := by
  unfold selected slave Pins.chip Pins.flash Pins.ramA Pins.ramB
  generalize q.dev = e at *
  revert chip
  revert d e
  simp only
  decide +revert

theorem Pins.chip_sck (p : Pins) (d : BitVec 2) : (p.chip d).sck = p.sck := by
  unfold chip
  split
  · rfl
  · split <;> rfl

/-- With all selects high every chip is deselected. -/
theorem Pins.chip_high (sck mosi : Bool) (d : BitVec 2) :
    (Pins.chip ⟨true, true, true, sck, mosi⟩ d).csN = true := by
  unfold chip
  split
  · rfl
  · split <;> rfl

/-- At rest every chip is deselected and SCK is low. -/
theorem Engine.Resting.pins_chip {e : Engine} (rest : Resting e) (d : BitVec 2) :
    (e.pins.chip d).csN = true ∧ (e.pins.chip d).sck = false := by
  rw [rest.pins]
  exact ⟨Pins.chip_high _ _ d, Pins.chip_sck _ d⟩

/-! ## A chip on a select -/

/-- Device `d` is selected, and no other. -/
def Pins.Selects (p : Pins) (d : BitVec 2) : Prop :=
  ∀ x, x ≠ 0#2 → (p.chip x).csN = !(d == x)

theorem chip_cases : ∀ d : BitVec 2, d ≠ 0#2 → d = 1#2 ∨ d = 2#2 ∨ d = 3#2 := by decide

/-- The selected chip drives MISO. -/
theorem Chips.miso_selected (c : Chips) {p : Pins} {d : BitVec 2} (chip : d ≠ 0#2)
    (selects : p.Selects d) (floating : Bool) : c.miso p floating = (c.chip d).miso := by
  have flash : p.cs0 = !(d == 1#2) := selects 1#2 (by decide)
  have ramA : p.cs1 = !(d == 2#2) := selects 2#2 (by decide)
  have ramB : p.cs2 = !(d == 3#2) := selects 3#2 (by decide)
  unfold miso
  rw [flash, ramA, ramB]
  rcases chip_cases d chip with rfl | rfl | rfl <;> rfl

/-- The chip `c` is wired to the engine as device `d`: it sees the pins change, and drives MISO while
it alone is selected. -/
structure Attached (g : Clocked.Run Engine.step) (c : Clocked.Run SpiRam.step) (d : BitVec 2) :
    Prop where
  chip : d ≠ 0#2
  pins : ∀ u, c.input u = ((g.state u).pins.chip d, (g.state (u + 1)).pins.chip d)
  miso : ∀ u, (g.state u).pins.Selects d → (g.input u).miso = (c.state u).miso

namespace Attached

section Transaction

variable {g : Clocked.Run Engine.step} {c : Clocked.Run SpiRam.step} {d : BitVec 2} {t : Nat}
  {e : Engine} {q : Request} (wired : Attached g c d) (transfer : Accepts g t e q)
  (rest : Resting (g.state t)) (idle : (c.state t).Idle)

include wired in
theorem edge (u : Nat) :
    c.state (u + 1) = (c.state u).edge ((g.state u).pins.chip d) ((g.state (u + 1)).pins.chip d) := by
  rw [c.edge, wired.pins]
  rfl

include wired rest idle in
/-- A cycle without a request leaves the chip alone. -/
theorem still {i : EngineIn} (here : g.input t = i) (none : i.req.valid = false) :
    c.state (t + 1) = c.state t := by
  have engine : g.state (t + 1) = g.state t := by
    rw [g.edge, here]
    exact rest.step none
  have high := (rest.pins_chip d).1
  rw [wired.edge, engine]
  exact idle.edge_quiet high (.inl high)

include wired transfer in
/-- The selected chip sees the waveform of the transaction. -/
theorem clocks (selected : q.slave = d) :
    SpiRam.Clocks (fun u => (g.state u).pins.chip d) (t + 1) q.half q.bits q.mosiBit where
  half := q.half_pos
  first := by
    have pins := transfer.start_pins (k := 0) (Nat.zero_le _)
    rw [Nat.mul_zero, Nat.add_zero] at pins
    rw [pins, q.selected_chip wired.chip]
    simp [selected]
  bit k before j within := by
    rw [transfer.pins_succ before within, q.selected_chip wired.chip]
    simp [selected]

include wired transfer rest idle in
/-- The edge on which a transaction begins leaves the chip idle. -/
theorem first : c.state (t + 1) = c.state t := by
  have pins := transfer.start_pins (k := 0) (Nat.zero_le _)
  rw [Nat.mul_zero, Nat.add_zero] at pins
  obtain ⟨high, low⟩ := rest.pins_chip d
  rw [wired.edge, pins]
  exact idle.edge_quiet high (.inr ⟨low, Pins.chip_sck _ d⟩)

include wired transfer rest idle in
/-- What a read samples: the bytes the chip holds from the requested address on. -/
theorem spell_samples (selected : q.dev = d) (read : q.we = false) {i : Nat}
    (within : i < q.dataBytes) :
    spell (samples g t q) (32 + 8 * i) =
      (c.state t).mem (SpiRam.index (q.addr + BitVec.ofNat 24 i)) := by
  have chip : q.dev ≠ 0#2 := selected ▸ wired.chip
  have clocks := wired.clocks transfer ((Request.slave_chip chip).trans selected)
  have half := q.half_pos
  have bits : 32 + 8 * q.dataBytes = q.bits := Request.bits_eq chip
  have first := wired.first transfer rest idle
  rw [Clocked.spell_eq_iff]
  intro j small
  have sampled := clocks.miso_at wired.pins (k := 32 + 8 * i + j) (by omega) (by omega)
    (j := 2 * q.half - 2) (by omega)
  have command : spell q.mosiBit 0 ≠ 0x02#8 := by
    rw [Request.spell_command chip, read]
    decide
  rw [first, idle.out_read q.addr (Request.spell_address chip) command small] at sampled
  rw [← sampled]
  have pins := transfer.pins_at (k := 32 + 8 * i + j) (j := 2 * q.half - 1) (by omega) (by omega)
  rw [show t + 1 + 2 * q.half * (32 + 8 * i + j) + (2 * q.half - 2) + 1 =
    t + 1 + 2 * q.half * (32 + 8 * i + j) + (2 * q.half - 1) by omega]
  refine wired.miso _ fun x some => ?_
  rw [pins, q.selected_chip some, Request.slave_chip chip, selected]

include wired transfer rest idle in
/-- The selected chip after the last bit. -/
theorem bits_after (selected : q.slave = d) :
    ∃ b, c.state (t + 1 + 2 * q.half * q.bits) = ((c.state t).rises q.mosiBit q.bits).withMiso b := by
  rw [← wired.first transfer rest idle]
  exact (wired.clocks transfer selected).bits_at wired.pins le_rfl

include wired idle in
/-- The memory of the selected chip after the last bit. -/
theorem rises_mem (selected : q.slave = d) :
    ((c.state t).rises q.mosiBit q.bits).mem =
      if d = q.dev ∧ q.we = true then
        storeAll (c.state t).mem (fun j => SpiRam.index (q.addr + BitVec.ofNat 24 j)) (byteAt q.wdata)
          q.dataBytes
      else (c.state t).mem := by
  by_cases chip : q.dev = 0#2
  · rcases q.bits_cases with ⟨-, bits⟩ | ⟨other, -⟩ | ⟨other, -⟩ | ⟨other, -⟩
    · rw [bits, SpiRam.rises_eight idle.bitcnt, if_neg fun h => wired.chip (h.1.trans chip)]
      simp [SpiRam.takeByte, idle.phase]
    all_goals exact absurd chip other
  have bits : 32 + 8 * q.dataBytes = q.bits := Request.bits_eq chip
  rw [← bits, show 32 + 8 * q.dataBytes = 8 * (4 + q.dataBytes) by omega,
    SpiRam.rises_bytes idle.bitcnt]
  have streams := idle.streams q.addr (Request.spell_address chip) q.dataBytes
  have command : (spell q.mosiBit 0 == 0x02#8) = q.we := by
    rw [Request.spell_command chip]
    cases q.we <;> rfl
  rw [command] at streams
  rw [streams.mem, Request.slave_chip chip] at *
  by_cases write : q.we = true
  · rw [if_pos write, if_pos ⟨selected.symm, write⟩]
    exact Memory.storeAll_congr (fun _ _ => rfl) fun j within =>
      Request.spell_data chip write within
  · rw [if_neg write, if_neg fun h => write h.2]

include wired transfer rest idle in
/-- After the transaction the selected chip is idle again and has stored the bytes of a write, in order. -/
theorem selected_after (selected : q.slave = d) :
    (c.state (t + q.delay)).Idle ∧
      (c.state (t + q.delay)).mem =
        if d = q.dev ∧ q.we = true then
          storeAll (c.state t).mem (fun j => SpiRam.index (q.addr + BitVec.ofNat 24 j))
            (byteAt q.wdata) q.dataBytes
        else (c.state t).mem := by
  obtain ⟨b, last⟩ := wired.bits_after transfer rest idle selected
  have delay : t + q.delay = t + 1 + 2 * q.half * q.bits + 1 := by unfold Request.delay; omega
  have post := transfer.post_pins
  have next := wired.edge (t + 1 + 2 * q.half * q.bits)
  rw [delay] at post ⊢
  rw [transfer.done_pins, post, q.selected_chip wired.chip] at next
  have low : (⟨!(q.slave == d), true, q.mosiBit (q.bits - 1)⟩ : SpiPins).csN = false := by
    simp [selected]
  obtain ⟨idle', mem⟩ := SpiRam.edge_deselect (c := c.state (t + 1 + 2 * q.half * q.bits)) low
    (Pins.chip_high _ _ _)
  rw [next]
  refine ⟨idle', mem.trans ?_⟩
  rw [last, ← wired.rises_mem idle selected]
  rfl

include wired transfer rest idle in
/-- A chip that is not selected does not notice the transaction. -/
theorem deselected_after (other : q.slave ≠ d) {u : Nat} (after : t + 1 ≤ u)
    (upto : u ≤ t + q.delay) : c.state u = c.state t := by
  have high (v : Nat) (from_ : t + 1 ≤ v) (to_ : v ≤ t + q.delay) :
      ((g.state v).pins.chip d).csN = true := by
    rcases Nat.eq_or_lt_of_le to_ with rfl | before
    · rw [transfer.post_pins, Pins.chip_high]
    · obtain ⟨sck, mosi, pins⟩ := transfer.exists_selected (u := v) (by omega) before
      rw [pins, q.selected_chip wired.chip]
      simpa using other
  induction u, after using Nat.le_induction with
  | base => exact wired.first transfer rest idle
  | succ u after ih =>
      rw [wired.edge, ih (by omega)]
      exact idle.edge_quiet (high u after (by omega)) (.inl (high _ (by omega) upto))

include wired transfer rest idle in
/-- A transaction leaves the chip idle, and changes its memory only if it is a write to this chip,
which has then stored its bytes. -/
theorem after :
    (c.state (t + q.delay + 1)).Idle ∧
      (c.state (t + q.delay + 1)).mem =
        if d = q.dev ∧ q.we = true then
          storeAll (c.state t).mem (fun j => SpiRam.index (q.addr + BitVec.ofNat 24 j))
            (byteAt q.wdata) q.dataBytes
        else (c.state t).mem := by
  have positive : 1 ≤ q.delay := by unfold Request.delay; omega
  have done : (c.state (t + q.delay)).Idle ∧ (c.state (t + q.delay)).mem =
      if d = q.dev ∧ q.we = true then
        storeAll (c.state t).mem (fun j => SpiRam.index (q.addr + BitVec.ofNat 24 j))
          (byteAt q.wdata) q.dataBytes
      else (c.state t).mem := by
    by_cases selected : q.slave = d
    · exact wired.selected_after transfer rest idle selected
    · rw [wired.deselected_after transfer rest idle selected (by omega) le_rfl, if_neg]
      · exact ⟨idle, rfl⟩
      · rintro ⟨same, -⟩
        exact selected ((Request.slave_chip (same ▸ wired.chip)).trans same.symm)
  have last : c.state (t + q.delay + 1) = c.state (t + q.delay) := by
    rw [wired.edge]
    refine done.1.edge_quiet ?_ (.inl (Engine.Resting.pins_chip transfer.rest_at.1 d).1)
    rw [transfer.post_pins, Pins.chip_high]
  rw [last]
  exact done

end Transaction

end Attached

/-! ## The chips of a memory -/

theorem Chips.idle_reset (c : Chips) (d : BitVec 2) : (c.reset.chip d).Idle := by
  unfold chip
  split
  · exact ⟨rfl, rfl, rfl, rfl⟩
  · split <;> exact ⟨rfl, rfl, rfl, rfl⟩

/-- The histories of the memory and of a chip in a run of the memory on the board. -/
def MemBoard.memRun (r : Clocked.Run MemBoard.step) : Clocked.Run Mem.step :=
  r.map (·.mem) (fun s i => s.memIn i) fun _ _ => rfl

def MemBoard.chipRun (r : Clocked.Run MemBoard.step) (d : BitVec 2) : Clocked.Run SpiRam.step :=
  r.map (·.chips.chip d)
    (fun s i => (s.mem.qspi.pins.chip d, (s.step i).mem.qspi.pins.chip d))
    fun s _ => s.chips.chip_edge d _ _

theorem MemBoard.attached (r : Clocked.Run MemBoard.step) {d : BitVec 2} (chip : d ≠ 0#2) :
    Attached (Mem.engineRun (memRun r)) (chipRun r d) d where
  chip := chip
  pins u := by
    change ((r.state u).mem.qspi.pins.chip d, ((r.state u).step (r.input u)).mem.qspi.pins.chip d) =
      ((r.state u).mem.qspi.pins.chip d, (r.state (u + 1)).mem.qspi.pins.chip d)
    rw [r.edge]
  miso _ selects := Chips.miso_selected _ chip selects _

end AgilA32
