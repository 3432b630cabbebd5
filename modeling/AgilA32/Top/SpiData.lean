import AgilA32.Top.Effects
import AgilA32.Top.PinSafety

/-!
# `SPI_DATA`: one byte out, one byte in

A store to `SPI_DATA` clocks its low byte out under CS2 while eight bits come in
(`SpiStore.exchanges`), and what came in during the last such store is there in every cycle
(`spiLastRx_at`).  Accesses do not overlap (`Holds.not_issues`), so that the store that completed last
is the store that was issued last, and a load returns what it has received (`Holds.spiLoad_data`,
`Holds.spiLoad_recent`).
-/

namespace AgilA32

open Clocked (msbFirst spell)
open Engine (Accepts)
open Mem (engineRun)
open Verilog (byteAt)

/-- A load from `SPI_DATA` shows the byte received last. -/
theorem Mem.rdata_spi {m : Mem} {b : Bus} (addr : b.addr = 0xFD#8) (read : b.we = false)
    (gpioIn : BitVec 8) (undef : BitVec 32) :
    m.rdata b gpioIn undef = m.regs.spiLastRx.setWidth 32 := by
  have rom : inRom b.addr = false := by rw [addr]; rfl
  have ram : m.regs.inRam b.addr = false := by rw [addr]; rfl
  have ext : m.regs.inExt b = false :=
    MemRegs.inExt_register (by rw [addr]; decide) (.inl read)
  rw [Mem.rdata, rom, ram, ext, addr]
  rfl

namespace Top

section Run

variable {r : Clocked.Run Top.step} {a u : Nat}

/-- The core issues nothing while it waits for an access, or takes its answer. -/
theorem Holds.not_issues (held : Holds r a) (after : a < u) (upto : u ≤ a + 2 + stallAt r a) :
    ¬ Issues (r.state u).core := by
  rcases Nat.eq_or_lt_of_le upto with rfl | before
  · rw [Issues, held.taken, takeState]
    split <;> simp
  · obtain ⟨k, rfl⟩ := Nat.exists_eq_add_of_le (show a + 1 ≤ u from after)
    rw [Issues, held.held k (by omega), held.waits, waitState]
    split <;> simp

/-- A cycle belongs to one access only. -/
theorem Holds.unique {a' : Nat} (held : Holds r a) (held' : Holds r a') (issues : Issues (r.state a).core)
    (issues' : Issues (r.state a').core) (after : a < u) (upto : u ≤ a + 1 + stallAt r a)
    (after' : a' < u) (upto' : u ≤ a' + 1 + stallAt r a') : a = a' := by
  rcases Nat.lt_trichotomy a a' with before | same | later
  · exact absurd issues' (held.not_issues before (by omega))
  · exact same
  · exact absurd issues (held'.not_issues later (by omega))

/-! ## Stores to `SPI_DATA` -/

/-- The access issued at the end of cycle `a` is a store to `SPI_DATA`. -/
structure SpiStore (r : Clocked.Run Top.step) (a : Nat) : Prop where
  issues : Issues (r.state a).core
  valid : (r.state (a + 1)).core.memValid = true
  inside : InWindow (r.state (a + 1)).mem.regs (r.state (a + 1)).core.bus .spi

/-- The eight bits that come in during the store issued in cycle `a`. -/
def spiReceived (r : Clocked.Run Top.step) (a : Nat) : BitVec 8 :=
  spell (fun k => (r.input (a + 1 + 2 * (requestAt r a).half * (k + 1))).qspiMiso) 0

namespace SpiStore

variable (store : SpiStore r a)
include store

theorem request : (requestAt r a).dev = 0#2 ∧
    (requestAt r a).wdata = (r.state (a + 1)).core.memWdata := by
  obtain ⟨dev, -, -, -, data⟩ := MemRegs.request_carries store.inside
  exact ⟨dev, data⟩

theorem transacts (held : Holds r a) : Transacts r a :=
  ⟨held, store.valid, MemRegs.inExt_iff.mpr ⟨_, store.inside⟩⟩

theorem stallAt_eq : stallAt r a = (requestAt r a).delay :=
  stallAt_external store.valid (MemRegs.inExt_iff.mpr ⟨_, store.inside⟩)

theorem bits : (requestAt r a).bits = 8 := by
  rw [← Request.frame_length, Request.frame, if_pos store.request.1]
  rfl

/-- Eight pulses under CS2, carrying the low byte of the store. -/
theorem exchanges (held : Holds r a) :
    r.observe clocked (a + 1) (stallAt r a) =
        (List.range 8).map (msbFirst (byteAt (r.state (a + 1)).core.memWdata 0)) ∧
      (∀ k, k ≤ stallAt r a → (r.state (a + 1 + k)).cs0 = true ∧ (r.state (a + 1 + k)).cs1 = true ∧
        (r.state (a + 1 + k)).cs2 = decide (k = 0 ∨ k = stallAt r a) ∧
        (k = 0 ∨ k = stallAt r a → (r.state (a + 1 + k)).sck = false)) := by
  obtain ⟨dev, data⟩ := store.request
  have transfer := (store.transacts held).transfer
  rw [store.stallAt_eq]
  constructor
  · rw [observe_clocked, transfer.observe_frame, Request.frame, if_pos dev, data]
    simp
  · intro k upto
    have pins := (r.state (a + 1 + k)).pins_eq
    have quiet (mosi : Bool) (here : (r.state (a + 1 + k)).mem.qspi.pins = ⟨true, true, true, false, mosi⟩)
        (ends : k = 0 ∨ k = (requestAt r a).delay) :
        (r.state (a + 1 + k)).cs0 = true ∧ (r.state (a + 1 + k)).cs1 = true ∧
          (r.state (a + 1 + k)).cs2 = decide (k = 0 ∨ k = (requestAt r a).delay) ∧
          (k = 0 ∨ k = (requestAt r a).delay → (r.state (a + 1 + k)).sck = false) := by
      rw [here, Pins.mk.injEq] at pins
      rw [decide_eq_true ends]
      exact ⟨pins.1.symm, pins.2.1.symm, pins.2.2.1.symm, fun _ => pins.2.2.2.1.symm⟩
    rcases Nat.eq_zero_or_pos k with rfl | later
    · exact quiet _ held.issued.rest.pins (.inl rfl)
    rcases Nat.eq_or_lt_of_le upto with rfl | before
    · exact quiet _ transfer.post_pins (.inr rfl)
    · have within : ¬ (k = 0 ∨ k = (requestAt r a).delay) := by omega
      obtain ⟨sck, mosi, selected⟩ := transfer.exists_selected (u := a + 1 + k) (by omega) (by omega)
      change (r.state (a + 1 + k)).mem.qspi.pins = _ at selected
      rw [selected, Request.selected, dev, Pins.mk.injEq] at pins
      rw [decide_eq_false within]
      exact ⟨pins.1.symm, pins.2.1.symm, pins.2.2.1.symm, fun ends => absurd ends within⟩

/-- The store leaves the received byte in `spi_last_rx`. -/
theorem latches (held : Holds r a) :
    (r.state (a + 2 + stallAt r a)).mem.regs.spiLastRx = spiReceived r a := by
  have dev := store.request.1
  have transfer := (store.transacts held).transfer
  have one : (requestAt r a).dataBytes = 1 := if_pos dev
  have last := transfer.received_last (i := 0) (by decide)
  rw [one, store.bits, if_pos Nat.zero_lt_one, transfer.ready_at.2.2] at last
  have after := held.issued.after.1
  change (r.state (a + 1 + stallAt r a + 1)).mem.regs = _ at after
  rw [show a + 1 + stallAt r a + 1 = a + 2 + stallAt r a by omega,
    MemRegs.commit_eq _ _ _ store.inside.2] at after
  have spi : (r.state (a + 1)).core.bus.addr = 0xFD#8 := BitVec.eq_of_toNat_eq store.inside.1
  rw [after]
  change (if _ then _ else _) = _
  rw [if_pos spi]
  exact last

end SpiStore

/-! ## The byte received last -/

/-- An access other than a store to `SPI_DATA` leaves the byte received last as it was. -/
theorem Holds.spiLastRx_other (held : Holds r a) (issues : Issues (r.state a).core)
    (other : ¬ SpiStore r a) :
    (r.state (a + 2 + stallAt r a)).mem.regs.spiLastRx = (r.state (a + 1)).mem.regs.spiLastRx := by
  cases we : (r.state (a + 1)).core.memWe with
  | false => rw [(held.commits.1 we).1]
  | true =>
      obtain ⟨regs, -⟩ := held.commits.2 we
      have addr : (r.state (a + 1)).core.bus.addr ≠ 0xFD#8 := by
        intro spi
        exact other ⟨issues, held.issued.strobe we, by rw [spi]; rfl, we⟩
      rw [regs, MemRegs.commit_eq _ _ _ we]
      exact if_neg addr

/-- `v` is the byte that the most recent of the stores to `SPI_DATA` before cycle `u` received, or
zero if there has been none; `before a` says that the store issued in cycle `a` counts. -/
def MostRecent (r : Clocked.Run Top.step) (before : Nat → Prop) (v : BitVec 8) : Prop :=
  (∀ a, before a → ¬ SpiStore r a) ∧ v = 0 ∨
    ∃ a, before a ∧ SpiStore r a ∧ (∀ a', a < a' → before a' → ¬ SpiStore r a') ∧
      v = spiReceived r a

theorem MostRecent.congr {before before' : Nat → Prop} {v : BitVec 8}
    (recent : MostRecent r before v) (same : ∀ a, SpiStore r a → (before a ↔ before' a)) :
    MostRecent r before' v := by
  rcases recent with ⟨none, zero⟩ | ⟨a, counts, store, last, byte⟩
  · exact .inl ⟨fun a counts store => none a ((same a store).mpr counts) store, zero⟩
  · exact .inr ⟨a, (same a store).mp counts, store,
      fun a' later counts' store' => last a' later ((same a' store').mpr counts') store', byte⟩

/-- In every cycle `spi_last_rx` is what the last completed store received. -/
theorem spiLastRx_at (start : Boundary (r.state 0)) (zero : (r.state 0).mem.regs.spiLastRx = 0)
    (u : Nat) :
    MostRecent r (fun a => a + 2 + stallAt r a ≤ u) (r.state u).mem.regs.spiLastRx := by
  induction u with
  | zero => exact .inl ⟨fun a done => by omega, zero⟩
  | succ u ih =>
      -- a store that completes at this edge is the access that is on the bus
      rcases cycle_cases r start u with ⟨valid, we, rest, -⟩ | ⟨a, k, rfl, issues, held, upto⟩
      · rw [(quiet_edge rest valid we).1]
        refine ih.congr fun a' store => ⟨fun done => by omega, fun done => ?_⟩
        by_contra late
        obtain rfl : u = a' + 1 + stallAt r a' := by omega
        rw [(holds r start store.issues).held _ le_rfl, store.valid] at valid
        cases valid
      · have alone {a' : Nat} (store : SpiStore r a') (done : a' + 2 + stallAt r a' ≤ a + 1 + k + 1)
            (late : ¬ a' + 2 + stallAt r a' ≤ a + 1 + k) : a' = a ∧ k = stallAt r a := by
          obtain rfl := (holds r start store.issues).unique held store.issues issues
            (u := a + 1 + k) (by omega) (by omega) (by omega) (by omega)
          exact ⟨rfl, by omega⟩
        by_cases finished : k = stallAt r a ∧ SpiStore r a
        · obtain ⟨rfl, store⟩ := finished
          rw [show a + 1 + stallAt r a + 1 = a + 2 + stallAt r a by omega, store.latches held]
          refine .inr ⟨a, le_rfl, store, fun a' later done store' => ?_, rfl⟩
          exact held.not_issues later (by omega) store'.issues
        · have kept : (r.state (a + 1 + k + 1)).mem.regs.spiLastRx =
              (r.state (a + 1 + k)).mem.regs.spiLastRx := by
            rcases Nat.eq_or_lt_of_le upto with rfl | before
            · rw [(held.waits_mem le_rfl).1, show a + 1 + stallAt r a + 1 = a + 2 + stallAt r a by omega]
              exact held.spiLastRx_other issues fun store => finished ⟨rfl, store⟩
            · rw [(held.waits_mem upto).1, Nat.add_assoc (a + 1) k 1,
                (held.waits_mem (k := k + 1) before).1]
          rw [kept]
          refine ih.congr fun a' store => ⟨fun done => by omega, fun done => ?_⟩
          by_contra late
          obtain ⟨rfl, rfl⟩ := alone store done late
          exact finished ⟨rfl, store⟩

/-! ## Loads from `SPI_DATA` -/

section Load

variable (held : Holds r a) (read : (r.state (a + 1)).core.memWe = false)
  (addr : (r.state (a + 1)).core.memAddr = 0xFD#8)
include held read addr

omit held in
/-- A load from `SPI_DATA` starts no transaction and does not wait. -/
theorem stallAt_spiLoad : stallAt r a = 0 := by
  have onchip : (r.state (a + 1)).mem.regs.inExt (r.state (a + 1)).core.bus = false :=
    MemRegs.inExt_register (by rw [show (r.state (a + 1)).core.bus.addr = _ from addr]; decide) (.inl read)
  exact MemRegs.delay_onchip (by rw [onchip, Bool.and_false])

/-- It moves no pin. -/
theorem Holds.spiLoad_pins {k : Nat} (upto : k ≤ 1) : (r.state (a + 1 + k)).cs0 = true ∧
    (r.state (a + 1 + k)).cs1 = true ∧ (r.state (a + 1 + k)).cs2 = true ∧ (r.state (a + 1 + k)).sck = false := by
  have rest : Engine.Resting (r.state (a + 1 + k)).mem.qspi := by
    rcases Nat.le_one_iff_eq_zero_or_eq_one.mp upto with rfl | rfl
    · exact held.issued.rest
    · have after := held.issued.after.2
      change Engine.Resting (r.state (a + 1 + stallAt r a + 1)).mem.qspi at after
      rwa [stallAt_spiLoad read addr] at after
  have pins := (r.state (a + 1 + k)).pins_eq
  rw [rest.pins, Pins.mk.injEq] at pins
  exact ⟨pins.1.symm, pins.2.1.symm, pins.2.2.1.symm, pins.2.2.2.1.symm⟩

/-- It returns the byte received last. -/
theorem Holds.spiLoad_data : (r.state (a + 2)).memRdata (r.input (a + 2)) =
    (r.state (a + 2)).mem.regs.spiLastRx.setWidth 32 := by
  have taken := held.taken
  rw [stallAt_spiLoad read addr] at taken
  have bus : (r.state (a + 2)).core.bus = (r.state (a + 1)).core.bus.answered := by
    rw [taken]
    rfl
  rw [memRdata, bus]
  exact Mem.rdata_spi addr rfl _ _

/-- The stores that have completed when it does are those issued before it. -/
theorem Holds.spiLoad_recent (start : Boundary (r.state 0)) (issues : Issues (r.state a).core) {v : BitVec 8}
    (recent : MostRecent r (fun a' => a' + 2 + stallAt r a' ≤ a + 2) v) : MostRecent r (· < a) v := by
  refine recent.congr fun a' store => ⟨fun done => ?_, fun before => ?_⟩
  · rcases Nat.lt_or_ge a' a with before | after
    · exact before
    · obtain rfl : a' = a := by omega
      have write := store.inside.2
      rw [show (r.state (a' + 1)).core.bus.we = false from read] at write
      cases write
  · by_contra late
    exact (holds r start store.issues).not_issues before (by omega) issues

end Load

end Run

end Top

end AgilA32
