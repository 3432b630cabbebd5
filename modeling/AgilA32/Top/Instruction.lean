import AgilA32.Core.Cycle
import AgilA32.Mem.Access
import AgilA32.Rtl.Top

/-!
# One instruction of the whole design

Core and memory composed.  At a `Boundary` the core is about to fetch and the engine rests.  From
there an instruction takes seven cycles plus the delays of its fetch and its data access, each zero
on chip and one transaction of the engine otherwise; it ends at the next boundary (`next_boundary`)
with the core, the registers of the memory and the settings as the instruction leaves them.
`exists_instruction` places every cycle of a run in such an instruction.
-/

namespace AgilA32

namespace Top

open AgilA32.Core (Stall isEbreak)
open Engine (Resting)
open Mem (Issued)

/-- The core's own history in a run of the design. -/
def coreRun (r : Clocked.Run Top.step) : Clocked.Run Core.step :=
  r.map (·.core) (fun s i => s.coreIn i) fun _ _ => rfl

/-- The memory's own history in a run of the design. -/
def memRun (r : Clocked.Run Top.step) : Clocked.Run Mem.step :=
  r.map (·.mem) (fun s i => s.memIn i) fun _ _ => rfl

/-- An instruction is about to begin. -/
structure Boundary (s : Top) : Prop where
  fetch : s.core.state = .fetch
  valid : s.core.memValid = false
  we : s.core.memWe = false
  rest : Resting s.mem.qspi

theorem boundary_reset (s : Top) : Boundary s.reset :=
  ⟨rfl, rfl, rfl, Engine.resting_reset _⟩

/-! ## The instruction that begins in a cycle -/

section Spans

variable (r : Clocked.Run Top.step) (t : Nat)

/-- The bus during the fetch of the instruction that begins in cycle `t`. -/
def fetchBus : Bus := (r.state t).core.fetching.bus

def fetchDelay : Nat := (r.state t).mem.regs.delay (fetchBus r t)

/-- The instruction word. -/
def word : BitVec 32 := ((coreRun r).input (t + 2 + fetchDelay r t)).rdata

/-- The bus during its data access. -/
def dataBus : Bus := ((r.state t).core.issued (word r t)).bus

def dataDelay : Nat := (r.state t).mem.regs.delay (dataBus r t)

/-- The cycle in which its data access is on the bus for the first time. -/
def dataCycle : Nat := t + 5 + fetchDelay r t

/-- The load response. -/
def loaded : BitVec 32 := ((coreRun r).input (dataCycle r t + dataDelay r t + 1)).rdata

/-- The cycle in which the next instruction begins. -/
def next : Nat := dataCycle r t + dataDelay r t + 2

/-- The cycle in which the `n`-th instruction after this one begins. -/
def begins : Nat → Nat
  | 0 => t
  | n + 1 => next r (begins n)

end Spans

section Instruction

variable {r : Clocked.Run Top.step} {t : Nat}

/-- A cycle with nothing on the bus. -/
theorem quiet_edge {u : Nat} (rest : Resting (r.state u).mem.qspi)
    (valid : (r.state u).core.memValid = false) (we : (r.state u).core.memWe = false) :
    (r.state (u + 1)).mem.regs = (r.state u).mem.regs ∧
      (r.state (u + 1)).mem.settings = (r.state u).mem.settings ∧
      (r.state (u + 1)).mem.qspi = (r.state u).mem.qspi := by
  rw [r.edge]
  have still := Mem.step_quiet (i := (r.state u).memIn (r.input u)) rest valid we
  refine ⟨still.1, ?_, still.2⟩
  change ((r.state u).mem.step ((r.state u).memIn (r.input u))).settings = _
  rw [Mem.step_settings, Settings.commit, if_neg]
  simp [memIn, Core.bus, valid]

namespace Boundary

variable (start : Boundary (r.state t))
include start

theorem fetch_issued : Issued (memRun r) (t + 1) (fetchBus r t) where
  first := by
    change (r.state (t + 1)).core.bus = _
    rw [r.edge]
    change ((r.state t).core.step _).bus = _
    rw [Core.step_fetch _ start.fetch]
    rfl
  held k low := by
    have at_k := Core.fetching_at (r := coreRun r) (d := k + 1) rfl start.fetch
      (fun j before => low j (by omega)) (k + 1) le_rfl
    change ((coreRun r).state (t + 1 + k + 1)).bus = _
    rw [show t + 1 + k + 1 = t + 1 + (k + 1) by omega, at_k]
    rfl
  strobe := by intro strobe; cases strobe
  rest := by
    change Resting (r.state (t + 1)).mem.qspi
    rw [(quiet_edge start.rest start.valid start.we).2.2]
    exact start.rest

theorem fetch_regs : ((memRun r).state (t + 1)).regs = (r.state t).mem.regs :=
  (quiet_edge start.rest start.valid start.we).1

theorem fetch_stall : Stall (coreRun r) (t + 1) (fetchDelay r t) where
  low k before := by
    refine start.fetch_issued.ready_low ?_
    rwa [start.fetch_regs]
  high := by
    have high := start.fetch_issued.ready_high
    rwa [start.fetch_regs] at high

theorem fetched_core : (r.state (t + 2 + fetchDelay r t)).core = (r.state t).core.fetched :=
  Core.fetched_at (r := coreRun r) rfl start.fetch start.fetch_stall

theorem latched_core :
    (r.state (t + 3 + fetchDelay r t)).core = (r.state t).core.latched (word r t) :=
  Core.latched_at (r := coreRun r) rfl start.fetch start.fetch_stall rfl

theorem executed_core (live : isEbreak (word r t) = false) :
    (r.state (t + 4 + fetchDelay r t)).core = (r.state t).core.executed (word r t) :=
  Core.executed_at (r := coreRun r) rfl start.fetch start.fetch_stall rfl live

/-- From the end of the fetch on nothing is on the bus until the data access. -/
theorem between_quiet {k : Nat} (upto : k ≤ 2) (live : isEbreak (word r t) = false ∨ k ≤ 1) :
    (r.state (t + 2 + fetchDelay r t + k)).core.memValid = false ∧
      (r.state (t + 2 + fetchDelay r t + k)).core.memWe = false := by
  obtain rfl | rfl | rfl : k = 0 ∨ k = 1 ∨ k = 2 := by omega
  · rw [Nat.add_zero, start.fetched_core]
    exact ⟨rfl, rfl⟩
  · rw [show t + 2 + fetchDelay r t + 1 = t + 3 + fetchDelay r t by omega, start.latched_core]
    exact ⟨rfl, rfl⟩
  · rw [show t + 2 + fetchDelay r t + 2 = t + 4 + fetchDelay r t by omega,
      start.executed_core (live.resolve_right (by omega))]
    exact ⟨rfl, rfl⟩

/-- From the end of the fetch to the data access the registers stand as they were at the start, and
the engine rests. -/
theorem between {k : Nat} (upto : k ≤ 3) (live : isEbreak (word r t) = false ∨ k ≤ 2) :
    (r.state (t + 2 + fetchDelay r t + k)).mem.regs = (r.state t).mem.regs ∧
      (r.state (t + 2 + fetchDelay r t + k)).mem.settings = (r.state t).mem.settings ∧
      Resting (r.state (t + 2 + fetchDelay r t + k)).mem.qspi := by
  have issued := start.fetch_issued
  induction k with
  | zero =>
      have after := issued.after
      have settings := issued.settings_after
      rw [start.fetch_regs] at after settings
      rw [show t + 2 + fetchDelay r t + 0 =
        t + 1 + (r.state t).mem.regs.delay (fetchBus r t) + 1 by unfold fetchDelay; omega]
      refine ⟨after.1.trans (MemRegs.commit_read rfl _), ?_, after.2⟩
      exact settings.trans (quiet_edge start.rest start.valid start.we).2.1
  | succ k ih =>
      obtain ⟨regs, settings, rest⟩ := ih (by omega) (by omega)
      obtain ⟨valid, we⟩ := start.between_quiet (k := k) (by omega)
        (live.imp_right fun early => by omega)
      obtain ⟨regs', settings', qspi'⟩ := quiet_edge rest valid we
      rw [← Nat.add_assoc]
      exact ⟨regs'.trans regs, settings'.trans settings, qspi' ▸ rest⟩

theorem data_regs (live : isEbreak (word r t) = false) :
    ((memRun r).state (dataCycle r t)).regs = (r.state t).mem.regs := by
  rw [dataCycle, show t + 5 + fetchDelay r t = t + 2 + fetchDelay r t + 3 by omega]
  exact (start.between le_rfl (.inl live)).1

theorem data_issued (live : isEbreak (word r t) = false) :
    Issued (memRun r) (dataCycle r t) (dataBus r t) where
  first := by
    have at_zero := Core.issued_at (r := coreRun r) (e := 0) rfl start.fetch start.fetch_stall rfl
      live (fun j before => by omega) 0 le_rfl
    exact congrArg Core.bus at_zero
  held k low := by
    have at_k := Core.issued_at (r := coreRun r) (e := k + 1) rfl start.fetch start.fetch_stall rfl
      live (fun j before => low j (by omega)) (k + 1) le_rfl
    exact congrArg Core.bus at_k
  strobe := Core.issued_we_valid _ _
  rest := by
    rw [dataCycle, show t + 5 + fetchDelay r t = t + 2 + fetchDelay r t + 3 by omega]
    exact (start.between le_rfl (.inl live)).2.2

theorem data_stall (live : isEbreak (word r t) = false) :
    Stall (coreRun r) (t + 5 + fetchDelay r t) (dataDelay r t) where
  low k before := by
    refine (start.data_issued live).ready_low ?_
    rwa [start.data_regs live]
  high := by
    have high := (start.data_issued live).ready_high
    rwa [start.data_regs live] at high

/-- What the engine receives in the data access. -/
theorem data_after (live : isEbreak (word r t) = false) :
    (r.state (dataCycle r t + dataDelay r t + 1)).mem.regs =
        (r.state t).mem.regs.commit (dataBus r t)
          (Issued.receivedBy (memRun r) (dataCycle r t) (dataBus r t)) ∧
      (r.state (dataCycle r t + dataDelay r t + 1)).mem.settings =
        (r.state t).mem.settings.commit (dataBus r t) ∧
      Resting (r.state (dataCycle r t + dataDelay r t + 1)).mem.qspi := by
  have after := (start.data_issued live).after
  have settings := (start.data_issued live).settings_after
  rw [start.data_regs live] at after settings
  refine ⟨after.1, settings.trans ?_, after.2⟩
  congr 1
  rw [dataCycle, show t + 5 + fetchDelay r t = t + 2 + fetchDelay r t + 3 by omega]
  exact (start.between le_rfl (.inl live)).2.1

/-- After an instruction the core has retired it, with what the access loaded. -/
theorem next_core (live : isEbreak (word r t) = false) :
    (r.state (next r t)).core = (r.state t).core.retired (word r t) (loaded r t) := by
  have retired := Core.retired_at (r := coreRun r) rfl start.fetch start.fetch_stall rfl live
    (start.data_stall live)
  rw [next, loaded, dataCycle, show t + 5 + fetchDelay r t + dataDelay r t + 2 =
    t + 7 + fetchDelay r t + dataDelay r t by omega, show t + 5 + fetchDelay r t + dataDelay r t + 1 =
    t + 6 + fetchDelay r t + dataDelay r t by omega]
  exact retired

/-- In the write-back cycle the core has made its access. -/
theorem accessed (live : isEbreak (word r t) = false) :
    (r.state (dataCycle r t + dataDelay r t + 1)).core = (r.state t).core.accessed (word r t) := by
  have accessed := Core.accessed_at (r := coreRun r) rfl start.fetch start.fetch_stall rfl live
    (start.data_stall live)
  rw [dataCycle, show t + 5 + fetchDelay r t + dataDelay r t + 1 =
    t + 6 + fetchDelay r t + dataDelay r t by omega]
  exact accessed

/-- The memory after the instruction: the data access has been committed. -/
theorem next_mem (live : isEbreak (word r t) = false) :
    (r.state (next r t)).mem.regs =
        (r.state t).mem.regs.commit (dataBus r t)
          (Issued.receivedBy (memRun r) (dataCycle r t) (dataBus r t)) ∧
      (r.state (next r t)).mem.settings = (r.state t).mem.settings.commit (dataBus r t) ∧
      Resting (r.state (next r t)).mem.qspi := by
  obtain ⟨regs, settings, rest⟩ := start.data_after live
  have core := start.accessed live
  obtain ⟨regs', settings', qspi'⟩ :=
    quiet_edge rest (by rw [core]; rfl) (by rw [core]; rfl)
  exact ⟨regs'.trans regs, settings'.trans settings, qspi' ▸ rest⟩

/-- An instruction other than `EBREAK` ends where the next one begins. -/
theorem next_boundary (live : isEbreak (word r t) = false) : Boundary (r.state (next r t)) := by
  have core := start.next_core live
  exact ⟨by rw [core]; rfl, by rw [core]; rfl, by rw [core]; rfl, (start.next_mem live).2.2⟩

/-- Where the core is in the cycles of an instruction other than `EBREAK`. -/
theorem core_cases (live : isEbreak (word r t) = false) {u : Nat} (after : t < u)
    (before : u < next r t) :
    (u ≤ t + 1 + fetchDelay r t ∧ (r.state u).core = (r.state t).core.fetching) ∨
    (u = t + 2 + fetchDelay r t ∧ (r.state u).core = (r.state t).core.fetched) ∨
    (u = t + 3 + fetchDelay r t ∧ (r.state u).core = (r.state t).core.latched (word r t)) ∨
    (u = t + 4 + fetchDelay r t ∧ (r.state u).core = (r.state t).core.executed (word r t)) ∨
    (dataCycle r t ≤ u ∧ u ≤ dataCycle r t + dataDelay r t ∧
      (r.state u).core = (r.state t).core.issued (word r t)) ∨
    (u + 1 = next r t ∧ (r.state u).core = (r.state t).core.accessed (word r t)) := by
  have last : u = t + 6 + fetchDelay r t + dataDelay r t ↔ u + 1 = next r t := by
    unfold next dataCycle
    omega
  rw [← last]
  exact Core.state_cases (r := coreRun r) rfl start.fetch start.fetch_stall rfl live
    (start.data_stall live) after (by unfold next dataCycle at before; omega)

/-- Where the core is after the first cycle of an `EBREAK`. -/
theorem stop_cases (stop : isEbreak (word r t) = true) {u : Nat} (after : t < u) :
    (u ≤ t + 1 + fetchDelay r t ∧ (r.state u).core = (r.state t).core.fetching) ∨
    (u = t + 2 + fetchDelay r t ∧ (r.state u).core = (r.state t).core.fetched) ∨
    (u = t + 3 + fetchDelay r t ∧ (r.state u).core = (r.state t).core.latched (word r t)) ∨
    (t + 4 + fetchDelay r t ≤ u ∧ (r.state u).core = (r.state t).core.parked (word r t)) :=
  Core.stop_cases (r := coreRun r) rfl start.fetch start.fetch_stall rfl stop after

/-- Until its last edge an instruction changes no register of the core. -/
theorem within_regs (live : isEbreak (word r t) = false) {u : Nat} (after : t ≤ u)
    (before : u < next r t) : (r.state u).core.regs = (r.state t).core.regs := by
  rcases Nat.eq_or_lt_of_le after with rfl | later
  · rfl
  rcases start.core_cases live later before with
    ⟨-, h⟩ | ⟨-, h⟩ | ⟨-, h⟩ | ⟨-, h⟩ | ⟨-, -, h⟩ | ⟨-, h⟩ <;> rw [h]
  exacts [rfl, rfl, rfl, rfl, Core.issued_regs _ _, Core.issued_regs _ _]

/-- An instruction that stores nothing changes no register of the memory. -/
theorem within_mem (live : isEbreak (word r t) = false) (read : (dataBus r t).we = false) {u : Nat}
    (after : t ≤ u) (upto : u ≤ next r t) : (r.state u).mem.regs = (r.state t).mem.regs := by
  rcases Nat.eq_or_lt_of_le after with rfl | later
  · rfl
  rcases Nat.lt_or_ge u (t + 2 + fetchDelay r t) with fetching | past
  · obtain ⟨k, rfl⟩ := Nat.exists_eq_add_of_le (show t + 1 ≤ u by omega)
    have waits : (r.state (t + 1 + k)).mem.regs = (r.state (t + 1)).mem.regs :=
      (start.fetch_issued.waiting (by rw [start.fetch_regs]; unfold fetchDelay at fetching; omega)).2
    exact waits.trans start.fetch_regs
  rcases Nat.lt_or_ge u (dataCycle r t) with middle | late
  · obtain ⟨k, rfl⟩ := Nat.exists_eq_add_of_le past
    exact (start.between (by unfold dataCycle at middle; omega) (.inl live)).1
  obtain ⟨k, rfl⟩ := Nat.exists_eq_add_of_le late
  rcases Nat.lt_or_ge k (dataDelay r t + 1) with waiting | last
  · have waits : (r.state (dataCycle r t + k)).mem.regs = (r.state (dataCycle r t)).mem.regs :=
      ((start.data_issued live).waiting
        (by rw [start.data_regs live]; unfold dataDelay at waiting; omega)).2
    exact waits.trans (start.data_regs live)
  · obtain rfl | rfl : k = dataDelay r t + 1 ∨ k = dataDelay r t + 2 := by unfold next at upto; omega
    · exact (start.data_after live).1.trans (MemRegs.commit_read read _)
    · exact (start.next_mem live).1.trans (MemRegs.commit_read read _)

/-- After `EBREAK` nothing is on the bus any more, and nothing changes. -/
theorem parked (stop : isEbreak (word r t) = true) (k : Nat) :
    (r.state (t + 4 + fetchDelay r t + k)).core = (r.state t).core.parked (word r t) ∧
      (r.state (t + 4 + fetchDelay r t + k)).mem.regs = (r.state t).mem.regs ∧
      (r.state (t + 4 + fetchDelay r t + k)).mem.settings = (r.state t).mem.settings ∧
      Resting (r.state (t + 4 + fetchDelay r t + k)).mem.qspi := by
  have core (k : Nat) :
      (r.state (t + 4 + fetchDelay r t + k)).core = (r.state t).core.parked (word r t) :=
    Core.parked_at (r := coreRun r) rfl start.fetch start.fetch_stall rfl stop k
  refine ⟨core k, ?_⟩
  induction k with
  | zero =>
      rw [show t + 4 + fetchDelay r t + 0 = t + 2 + fetchDelay r t + 2 by omega]
      exact start.between (k := 2) (by omega) (.inr le_rfl)
  | succ k ih =>
      obtain ⟨regs, settings, rest⟩ := ih
      obtain ⟨regs', settings', qspi'⟩ := quiet_edge rest (by rw [core]; rfl) (by rw [core]; rfl)
      exact ⟨regs'.trans regs, settings'.trans settings, (congrArg Resting qspi').mpr rest⟩

end Boundary

theorem lt_next (r : Clocked.Run Top.step) (t : Nat) : t < next r t := by
  unfold next dataCycle; omega

theorem le_begins (r : Clocked.Run Top.step) (t n : Nat) : t ≤ begins r t n := by
  induction n with
  | zero => exact le_rfl
  | succ n ih => exact ih.trans (lt_next r _).le

/-- Every cycle of a run that starts at a boundary belongs to an instruction, or comes after the
one that halted the core; and what every instruction preserves holds where that one begins. -/
theorem exists_instruction_of (r : Clocked.Run Top.step) (start : Boundary (r.state 0))
    {P : Nat → Prop} (zero : P 0)
    (step : ∀ t, Boundary (r.state t) → isEbreak (word r t) = false → P t → P (next r t))
    (u : Nat) : ∃ t, t ≤ u ∧ Boundary (r.state t) ∧ P t ∧
      (isEbreak (word r t) = true ∨ isEbreak (word r t) = false ∧ u < next r t) := by
  have reach (t v : Nat) (within : v < next r t) :
      isEbreak (word r t) = true ∨ isEbreak (word r t) = false ∧ v < next r t := by
    cases isEbreak (word r t)
    · exact .inr ⟨rfl, within⟩
    · exact .inl rfl
  induction u with
  | zero => exact ⟨0, le_rfl, start, zero, reach 0 0 (lt_next r 0)⟩
  | succ u ih =>
      obtain ⟨t, upto, boundary, holds, stop | ⟨live, within⟩⟩ := ih
      · exact ⟨t, by omega, boundary, holds, .inl stop⟩
      rcases Nat.lt_or_ge (u + 1) (next r t) with before | last
      · exact ⟨t, by omega, boundary, holds, .inr ⟨live, before⟩⟩
      · have here : u + 1 = next r t := by omega
        exact ⟨next r t, here.ge, boundary.next_boundary live, step t boundary live holds,
          reach _ _ (here.trans_lt (lt_next r _))⟩

theorem exists_instruction (r : Clocked.Run Top.step) (start : Boundary (r.state 0)) (u : Nat) :
    ∃ t, t ≤ u ∧ Boundary (r.state t) ∧ (isEbreak (word r t) = true ∨ u < next r t) := by
  obtain ⟨t, upto, boundary, -, reach⟩ :=
    exists_instruction_of (P := fun _ => True) r start trivial (fun _ _ _ _ => trivial) u
  exact ⟨t, upto, boundary, reach.imp_right And.right⟩

/-- The core fetches in the first cycle of an instruction only. -/
theorem Boundary.only_fetch (start : Boundary (r.state t)) {u : Nat} (after : t < u)
    (reach : isEbreak (word r t) = true ∨ isEbreak (word r t) = false ∧ u < next r t) :
    (r.state u).core.state ≠ .fetch := by
  rcases reach with stop | ⟨live, within⟩
  · rcases start.stop_cases stop after with ⟨-, h⟩ | ⟨-, h⟩ | ⟨-, h⟩ | ⟨-, h⟩ <;> simp [h]
  · rcases start.core_cases live after within with
      ⟨-, h⟩ | ⟨-, h⟩ | ⟨-, h⟩ | ⟨-, h⟩ | ⟨-, -, h⟩ | ⟨-, h⟩ <;> simp [h]

/-- The core halts in an `EBREAK` only, at the edge that ends its `ST_EXEC`. -/
theorem Boundary.only_halts (start : Boundary (r.state t)) {u : Nat} (upto : t ≤ u)
    (reach : isEbreak (word r t) = true ∨ isEbreak (word r t) = false ∧ u < next r t)
    (halted : (r.state u).core.state = .halted) :
    isEbreak (word r t) = true ∧ t + 4 + fetchDelay r t ≤ u := by
  rcases Nat.eq_or_lt_of_le upto with rfl | after
  · rw [start.fetch] at halted
    cases halted
  rcases reach with stop | ⟨live, within⟩
  · refine ⟨stop, ?_⟩
    rcases start.stop_cases stop after with ⟨-, h⟩ | ⟨-, h⟩ | ⟨-, h⟩ | ⟨late, -⟩
    · simp [h] at halted
    · simp [h] at halted
    · simp [h] at halted
    · exact late
  · rcases start.core_cases live after within with
      ⟨-, h⟩ | ⟨-, h⟩ | ⟨-, h⟩ | ⟨-, h⟩ | ⟨-, -, h⟩ | ⟨-, h⟩ <;> simp [h] at halted

/-- What holds at the start and is preserved by every instruction holds in every cycle in which the
core is about to fetch, and each of these is a boundary. -/
theorem fetch_induction (r : Clocked.Run Top.step) (start : Boundary (r.state 0))
    {P : Nat → Prop} (zero : P 0)
    (step : ∀ t, Boundary (r.state t) → isEbreak (word r t) = false → P t → P (next r t))
    {u : Nat} (here : (r.state u).core.state = .fetch) : Boundary (r.state u) ∧ P u := by
  obtain ⟨t, upto, boundary, holds, reach⟩ := exists_instruction_of r start zero step u
  rcases Nat.eq_or_lt_of_le upto with rfl | after
  · exact ⟨boundary, holds⟩
  · exact absurd here (boundary.only_fetch after reach)

end Instruction

end Top

end AgilA32
