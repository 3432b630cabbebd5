import AgilA32.Top.Instruction

/-!
# Every external access is performed exactly once

An access begins when the core leaves `ST_FETCH` or `ST_MEM` with `mem_valid` high.  `InWindow`
and `Carries` say, from the address map alone, which accesses belong to the engine and which transaction
each one asks for.  `external_access_once`: in every run from reset such an access is accepted exactly
once, in its first cycle; the core holds the bus until that transaction's `req_ready`, and consumes
what that transaction received; and the engine accepts nothing else.
-/

namespace AgilA32

open AgilA32.Core (isEbreak)
open Engine (Resting Accepts samples)
open Mem (Issued engineRun)

/-! ## The external windows -/

/-- The windows of the address map behind the engine. -/
inductive Window
  | flash | psram | spi
  deriving DecidableEq, Repr

/-- The access `b` lies in a window: the flash window while `FLASH_MODE` is set, the PSRAM window,
or a store to `SPI_DATA`. -/
def InWindow (m : MemRegs) (b : Bus) : Window → Prop
  | .flash => m.flashMode = true ∧ 0xB4 ≤ b.addr.toNat ∧ b.addr.toNat ≤ 0xDF
  | .psram => 0xE0 ≤ b.addr.toNat ∧ b.addr.toNat ≤ 0xEF
  | .spi => b.addr.toNat = 0xFD ∧ b.we = true

/-- The request `q` carries the access `b`: its size and data, the device of its window, the address
on that device, and its direction, which the flash window forces to read. -/
def Carries (m : MemRegs) (b : Bus) (q : Request) : Window → Prop
  | .flash =>
      q.dev = 1#2 ∧ q.addr.toNat = 44 * m.flashPage.toNat + (b.addr.toNat - 0xB4) ∧
        q.we = false ∧ q.size = b.size ∧ q.wdata = b.wdata
  | .psram =>
      q.dev = (if m.psramBank then 3#2 else 2#2) ∧ q.addr.toNat = b.addr.toNat - 0xE0 ∧
        q.we = b.we ∧ q.size = b.size ∧ q.wdata = b.wdata
  | .spi =>
      q.dev = 0#2 ∧ q.addr.toNat = 0 ∧ q.we = true ∧ q.size = b.size ∧ q.wdata = b.wdata

namespace MemRegs

variable {m : MemRegs} {b : Bus}

theorem inExtFlash_iff : m.inExtFlash b.addr = true ↔ InWindow m b .flash := by
  rw [inExtFlash, Bool.and_eq_true, inLoadRange_iff, InWindow]
  exact and_congr_right fun _ => by omega

theorem inExtPsram_window : inExtPsram b.addr = true ↔ InWindow m b .psram := by
  rw [inExtPsram_iff, InWindow]
  omega

theorem inSpiWrite_iff : inSpiWrite b = true ↔ InWindow m b .spi := by
  simp [inSpiWrite, InWindow, ← BitVec.toNat_inj]

theorem inExt_iff : m.inExt b = true ↔ ∃ w, InWindow m b w := by
  simp only [inExt, Bool.or_eq_true, inExtFlash_iff, inExtPsram_window (m := m), inSpiWrite_iff (m := m)]
  constructor
  · rintro ((h | h) | h)
    exacts [⟨_, h⟩, ⟨_, h⟩, ⟨_, h⟩]
  · rintro ⟨w, h⟩
    cases w
    exacts [.inl (.inl h), .inl (.inr h), .inr h]

theorem request_carries {w : Window} (inside : InWindow m b w) : Carries m b (m.request b) w := by
  have low : b.addr.toNat < 256 := b.addr.isLt
  have page : m.flashPage.toNat < 256 := m.flashPage.isLt
  cases w with
  | flash =>
      have flash := inExtFlash_iff.mpr inside
      obtain ⟨-, above, below⟩ := inside
      refine ⟨by simp [request, reqDev, flash], ?_, by simp [request, flash], rfl, rfl⟩
      have offset : (0#16 ++ (b.addr - loadBase)).toNat = b.addr.toNat - 0xB4 := by
        rw [BitVec.toNat_append, BitVec.toNat_sub, loadBase_toNat]
        simp
        omega
      have base : m.flashPageBase.toNat = 44 * m.flashPage.toNat := by
        rw [flashPageBase, windowBytes_eq, BitVec.toNat_mul, BitVec.toNat_setWidth,
          BitVec.toNat_ofNat]
        omega
      simp only [request, extAddr, flash, if_true]
      rw [BitVec.toNat_add, offset, base]
      omega
  | psram =>
      have psram := inExtPsram_window.mpr inside
      have noFlash : m.inExtFlash b.addr = false := by
        rw [Bool.eq_false_iff, ne_eq, inExtFlash_iff]
        rintro ⟨-, -, below⟩
        have := inside.1
        omega
      have noSpi : inSpiWrite b = false := by
        rw [Bool.eq_false_iff, ne_eq, inSpiWrite_iff (m := m)]
        rintro ⟨here, -⟩
        have := inside.2
        omega
      obtain ⟨above, below⟩ := inside
      refine ⟨by simp [request, reqDev, noFlash, noSpi], ?_, by simp [request, noFlash], rfl, rfl⟩
      simp only [request, extAddr, noFlash, noSpi, if_false, Bool.false_eq_true]
      rw [BitVec.toNat_append, BitVec.toNat_sub, extPsramBase_toNat]
      simp
      omega
  | spi =>
      have spi := inSpiWrite_iff.mpr inside
      obtain ⟨here, write⟩ := inside
      have noFlash : m.inExtFlash b.addr = false := by
        rw [Bool.eq_false_iff, ne_eq, inExtFlash_iff]
        rintro ⟨-, -, below⟩
        omega
      refine ⟨by simp [request, reqDev, noFlash, spi], ?_, by simp [request, noFlash, write], rfl,
        rfl⟩
      simp [request, extAddr, noFlash, spi]

/-- The PSRAM window belongs to a chip. -/
theorem psram_chip (psram : inExtPsram b.addr = true) : (m.request b).dev ≠ 0#2 := by
  rw [(request_carries (inExtPsram_window.mp psram)).1]
  split <;> decide

end MemRegs

namespace Top

/-! ## The accesses of a run -/

/-- The core issues an access, or the absence of one, at the end of this cycle. -/
def Issues (c : Core) : Prop := c.state = .fetch ∨ c.state = .mem

/-- Where the core waits for the access it issues, and where it goes then. -/
def waitState (c : Core) : CoreState := if c.state = .fetch then .fetchWait else .memWait
def takeState (c : Core) : CoreState := if c.state = .fetch then .decode else .wb

/-- How long memory stalls the access issued at the end of cycle `a`. -/
def stallAt (r : Clocked.Run Top.step) (a : Nat) : Nat :=
  (r.state (a + 1)).mem.regs.delay (r.state (a + 1)).core.bus

/-- The access issued at the end of cycle `a`, held until it completes. -/
structure Holds (r : Clocked.Run Top.step) (a : Nat) : Prop where
  issued : Issued (memRun r) (a + 1) (r.state (a + 1)).core.bus
  waits : (r.state (a + 1)).core.state = waitState (r.state a).core
  held : ∀ k, k ≤ stallAt r a → (r.state (a + 1 + k)).core = (r.state (a + 1)).core
  taken : (r.state (a + 2 + stallAt r a)).core =
    { (r.state (a + 1)).core with
      memValid := false, memWe := false, state := takeState (r.state a).core }

section Accesses

variable {r : Clocked.Run Top.step} {t : Nat}

theorem Boundary.fetching_core (start : Boundary (r.state t)) {k : Nat}
    (upto : k ≤ fetchDelay r t) : (r.state (t + 1 + k)).core = (r.state t).core.fetching :=
  Core.fetching_at (r := coreRun r) rfl start.fetch start.fetch_stall.low k upto

theorem Boundary.fetch_stallAt (start : Boundary (r.state t)) : stallAt r t = fetchDelay r t := by
  rw [stallAt, show (r.state (t + 1)).core = _ from start.fetching_core (Nat.zero_le _)]
  exact congrArg (fun m => MemRegs.delay m (fetchBus r t)) start.fetch_regs

theorem Boundary.fetch_holds (start : Boundary (r.state t)) : Holds r t := by
  have first : (r.state (t + 1)).core = _ := start.fetching_core (Nat.zero_le _)
  refine ⟨?_, ?_, fun k upto => ?_, ?_⟩
  · rw [first]; exact start.fetch_issued
  · rw [first, waitState, if_pos start.fetch]
    exact Core.fetching_state _
  · rw [start.fetch_stallAt] at upto
    exact (start.fetching_core upto).trans first.symm
  · rw [first, takeState, if_pos start.fetch, start.fetch_stallAt]
    exact start.fetched_core

theorem Boundary.issued_core (start : Boundary (r.state t)) (live : isEbreak (word r t) = false)
    {k : Nat} (upto : k ≤ dataDelay r t) :
    (r.state (t + 4 + fetchDelay r t + 1 + k)).core = (r.state t).core.issued (word r t) := by
  rw [show t + 4 + fetchDelay r t + 1 + k = t + 5 + fetchDelay r t + k by omega]
  exact Core.issued_at (r := coreRun r) rfl start.fetch start.fetch_stall rfl live
    (start.data_stall live).low k upto

theorem Boundary.data_stallAt (start : Boundary (r.state t))
    (live : isEbreak (word r t) = false) :
    stallAt r (t + 4 + fetchDelay r t) = dataDelay r t := by
  rw [stallAt, show (r.state (t + 4 + fetchDelay r t + 1)).core = _ from
      start.issued_core live (Nat.zero_le _),
    show t + 4 + fetchDelay r t + 1 = t + 5 + fetchDelay r t by omega]
  exact congrArg (fun m => MemRegs.delay m (dataBus r t)) (start.data_regs live)

theorem Boundary.data_holds (start : Boundary (r.state t))
    (live : isEbreak (word r t) = false) : Holds r (t + 4 + fetchDelay r t) := by
  have mem : ¬ (r.state (t + 4 + fetchDelay r t)).core.state = .fetch := by
    rw [start.executed_core live]; simp
  have first : (r.state (t + 4 + fetchDelay r t + 1)).core = _ :=
    start.issued_core live (Nat.zero_le _)
  refine ⟨?_, ?_, fun k upto => ?_, ?_⟩
  · rw [first, show t + 4 + fetchDelay r t + 1 = t + 5 + fetchDelay r t by omega]
    exact start.data_issued live
  · rw [first, waitState, if_neg mem]
    exact Core.issued_state _ _
  · rw [start.data_stallAt live] at upto
    exact (start.issued_core live upto).trans first.symm
  · rw [first, takeState, if_neg mem, start.data_stallAt live,
      show t + 4 + fetchDelay r t + 2 + dataDelay r t =
        dataCycle r t + dataDelay r t + 1 by unfold dataCycle; omega]
    exact start.accessed live

/-- From the end of the fetch on nothing is on the bus, and at most the third cycle issues an access. -/
theorem Boundary.between_core (start : Boundary (r.state t)) {k : Nat} (upto : k ≤ 2)
    (live : isEbreak (word r t) = false ∨ k ≤ 1) :
    (r.state (t + 2 + fetchDelay r t + k)).core.memValid = false ∧
      (r.state (t + 2 + fetchDelay r t + k)).core.memWe = false ∧
      (Issues (r.state (t + 2 + fetchDelay r t + k)).core → k = 2) := by
  obtain ⟨valid, we⟩ := start.between_quiet upto live
  refine ⟨valid, we, fun issues => ?_⟩
  by_contra early
  obtain rfl | rfl : k = 0 ∨ k = 1 := by omega
  · rw [Nat.add_zero, start.fetched_core] at issues
    simp [Issues] at issues
  · rw [show t + 2 + fetchDelay r t + 1 = t + 3 + fetchDelay r t by omega, start.latched_core] at issues
    simp [Issues] at issues

/-- Every cycle either has nothing on the bus and the engine at rest, or is a cycle of an access
that the core holds. -/
theorem cycle_cases (r : Clocked.Run Top.step) (start : Boundary (r.state 0)) (u : Nat) :
    (r.state u).core.memValid = false ∧ (r.state u).core.memWe = false ∧
        Resting (r.state u).mem.qspi ∧ (Issues (r.state u).core → Holds r u) ∨
      ∃ a k, u = a + 1 + k ∧ Issues (r.state a).core ∧ Holds r a ∧ k ≤ stallAt r a := by
  obtain ⟨t, upto, boundary, reach⟩ := exists_instruction r start u
  rcases Nat.eq_or_lt_of_le upto with rfl | after
  · exact .inl ⟨boundary.valid, boundary.we, boundary.rest, fun _ => boundary.fetch_holds⟩
  rcases Nat.lt_or_ge u (t + 2 + fetchDelay r t) with fetching | past
  · obtain ⟨k, rfl⟩ := Nat.exists_eq_add_of_le (show t + 1 ≤ u by omega)
    exact .inr ⟨t, k, rfl, .inl boundary.fetch, boundary.fetch_holds,
      by rw [boundary.fetch_stallAt]; omega⟩
  obtain ⟨k, rfl⟩ := Nat.exists_eq_add_of_le past
  by_cases stop : isEbreak (word r t) = true
  · left
    rcases Nat.lt_or_ge k 2 with before | late
    · obtain ⟨valid, we, issues⟩ := boundary.between_core (k := k) (by omega) (.inr (by omega))
      exact ⟨valid, we, (boundary.between (by omega) (.inr (by omega))).2.2,
        fun h => by have := issues h; omega⟩
    · obtain ⟨j, rfl⟩ := Nat.exists_eq_add_of_le late
      obtain ⟨core, -, -, rest⟩ := boundary.parked stop j
      rw [show t + 2 + fetchDelay r t + (2 + j) = t + 4 + fetchDelay r t + j by omega, core]
      exact ⟨rfl, rfl, rest, by simp [Issues]⟩
  have live : isEbreak (word r t) = false := by simpa using stop
  have within := reach.resolve_left stop
  unfold next dataCycle at within
  rcases Nat.lt_or_ge k 3 with before | late
  · obtain ⟨valid, we, issues⟩ := boundary.between_core (k := k) (by omega) (.inl live)
    refine .inl ⟨valid, we, (boundary.between (by omega) (.inl live)).2.2, fun h => ?_⟩
    obtain rfl := issues h
    rw [show t + 2 + fetchDelay r t + 2 = t + 4 + fetchDelay r t by omega]
    exact boundary.data_holds live
  have mem : Issues (r.state (t + 4 + fetchDelay r t)).core := by
    rw [boundary.executed_core live]; exact .inr rfl
  obtain ⟨j, rfl⟩ := Nat.exists_eq_add_of_le late
  rcases Nat.lt_or_ge j (dataDelay r t + 1) with waiting | last
  · exact .inr ⟨t + 4 + fetchDelay r t, j, by omega, mem, boundary.data_holds live,
      by rw [boundary.data_stallAt live]; omega⟩
  · left
    rw [show t + 2 + fetchDelay r t + (3 + j) = dataCycle r t + dataDelay r t + 1 by
      unfold dataCycle; omega, boundary.accessed live]
    exact ⟨rfl, rfl, (boundary.data_after live).2.2, by simp [Issues]⟩

/-- Every access the core issues is held until it completes. -/
theorem holds (r : Clocked.Run Top.step) (start : Boundary (r.state 0)) {a : Nat}
    (issues : Issues (r.state a).core) : Holds r a := by
  rcases cycle_cases r start a with ⟨-, -, -, h⟩ | ⟨a', k, rfl, -, held, upto⟩
  · exact h issues
  · rw [Issues, held.held k upto, held.waits, waitState] at issues
    split at issues <;> simp at issues

end Accesses

/-! ## Exactly once -/

/-- The request the engine accepts in a cycle. -/
def accepts (s : Top) (_ : TopIn) : Option Request :=
  if s.mem.qspi.state = .idle ∧ (s.mem.regs.request s.core.bus).valid = true then
    some (s.mem.regs.request s.core.bus)
  else none

section Once

variable {r : Clocked.Run Top.step} {a : Nat}

theorem Holds.transfer (held : Holds r a) (valid : (r.state (a + 1)).core.memValid = true)
    (external : (r.state (a + 1)).mem.regs.inExt (r.state (a + 1)).core.bus = true) :
    Accepts (engineRun (memRun r)) (a + 1) (r.state (a + 1)).mem.qspi
      ((r.state (a + 1)).mem.regs.request (r.state (a + 1)).core.bus) :=
  held.issued.accepts valid external

theorem stallAt_external (valid : (r.state (a + 1)).core.memValid = true)
    (external : (r.state (a + 1)).mem.regs.inExt (r.state (a + 1)).core.bus = true) :
    stallAt r a = ((r.state (a + 1)).mem.regs.request (r.state (a + 1)).core.bus).delay :=
  MemRegs.delay_external valid external

theorem Holds.accepts_first (held : Holds r a) (valid : (r.state (a + 1)).core.memValid = true)
    (external : (r.state (a + 1)).mem.regs.inExt (r.state (a + 1)).core.bus = true) :
    accepts (r.state (a + 1)) (r.input (a + 1)) =
      some ((r.state (a + 1)).mem.regs.request (r.state (a + 1)).core.bus) := by
  have idle : (r.state (a + 1)).mem.qspi.state = .idle := held.issued.rest.idle
  have request : ((r.state (a + 1)).mem.regs.request (r.state (a + 1)).core.bus).valid = true := by
    rw [MemRegs.request_valid, external, Bool.and_true]; exact valid
  rw [accepts, if_pos ⟨idle, request⟩]

/-- While an access is on the bus, the engine accepts only in its first cycle. -/
theorem Holds.accepts_later (held : Holds r a) {k : Nat} (after : 0 < k)
    (upto : k ≤ stallAt r a) : accepts (r.state (a + 1 + k)) (r.input (a + 1 + k)) = none := by
  have nonzero : 0 < stallAt r a := by omega
  obtain ⟨external, -⟩ := held.issued.reqReady_low (k := 0) nonzero
  rw [Bool.and_eq_true] at external
  have transfer := held.transfer external.1 external.2
  rw [stallAt_external external.1 external.2] at upto
  have busy : ((engineRun (memRun r)).state (a + 1 + k)).state ≠ .idle := by
    rcases Nat.eq_or_lt_of_le upto with rfl | before
    · rw [transfer.ready_at.1]; simp
    · exact (transfer.busy_at (u := a + 1 + k) (by omega) (by omega)).2
  rw [accepts, if_neg]
  rintro ⟨idle, -⟩
  exact busy idle

theorem Holds.observe_accepts (held : Holds r a) (valid : (r.state (a + 1)).core.memValid = true)
    (external : (r.state (a + 1)).mem.regs.inExt (r.state (a + 1)).core.bus = true) :
    r.observe accepts (a + 1) (stallAt r a + 1) =
      [(r.state (a + 1)).mem.regs.request (r.state (a + 1)).core.bus] := by
  rw [r.observe_succ, held.accepts_first valid external, r.observe_eq_nil]
  · rfl
  · intro k before
    rw [show a + 1 + 1 + k = a + 1 + (k + 1) by omega]
    exact held.accepts_later (by omega) (by omega)

/-- In every run from reset: an access the core issues in an external window is accepted exactly
once, in its first cycle, as the transaction of that window; the core holds it, in its wait state,
until `req_ready` announces that transaction, and a read then consumes what it received.  The engine
accepts nothing else. -/
theorem external_access_once (r : Clocked.Run Top.step) (s : Top) (reset : r.state 0 = s.reset) :
    (∀ a w, Issues (r.state a).core → (r.state (a + 1)).core.memValid = true →
      InWindow (r.state (a + 1)).mem.regs (r.state (a + 1)).core.bus w →
      ∃ q d, Carries (r.state (a + 1)).mem.regs (r.state (a + 1)).core.bus q w ∧
        accepts (r.state (a + 1)) (r.input (a + 1)) = some q ∧
        r.observe accepts (a + 1) (d + 1) = [q] ∧
        (∀ k, k ≤ d →
          (r.state (a + 1 + k)).core.state = waitState (r.state a).core ∧
          (r.state (a + 1 + k)).core.bus = (r.state (a + 1)).core.bus ∧
          (r.state (a + 1 + k)).mem.qspi.reqReady = decide (k = d)) ∧
        (r.state (a + 1 + d)).mem.qspi.reqRdata =
          q.received (samples (engineRun (memRun r)) (a + 1) q) ∧
        (r.state (a + 2 + d)).core.state = takeState (r.state a).core ∧
        ((r.state (a + 1)).core.memWe = false →
          (r.state (a + 2 + d)).memRdata (r.input (a + 2 + d)) =
            (r.state (a + 1 + d)).mem.qspi.reqRdata)) ∧
    ∀ u q, accepts (r.state u) (r.input u) = some q →
      ∃ a w, u = a + 1 ∧ Issues (r.state a).core ∧ (r.state u).core.memValid = true ∧
        InWindow (r.state u).mem.regs (r.state u).core.bus w ∧
        Carries (r.state u).mem.regs (r.state u).core.bus q w := by
  have start : Boundary (r.state 0) := reset ▸ boundary_reset s
  constructor
  · intro a w issues valid inside
    have held := holds r start issues
    have external := MemRegs.inExt_iff.mpr ⟨w, inside⟩
    have ready := (held.transfer valid external).ready_at
    have rest := (held.transfer valid external).rest_at.2
    rw [← stallAt_external valid external] at ready rest
    refine ⟨_, stallAt r a, MemRegs.request_carries inside, held.accepts_first valid external,
      held.observe_accepts valid external, fun k upto => ⟨?_, ?_, ?_⟩, ready.2.2, ?_, fun read => ?_⟩
    · rw [held.held k upto, held.waits]
    · rw [held.held k upto]
    · rcases Nat.eq_or_lt_of_le upto with rfl | before
      · rw [decide_eq_true rfl]; exact ready.2.1
      · rw [decide_eq_false (by omega)]; exact (held.issued.reqReady_low before).2
    · rw [held.taken]
    · have after := held.issued.after.1
      rw [MemRegs.commit_read read] at after
      change (r.state (a + 1 + stallAt r a + 1)).mem.regs = (r.state (a + 1)).mem.regs at after
      rw [show a + 1 + stallAt r a + 1 = a + 2 + stallAt r a by omega] at after rest
      have bus : (r.state (a + 2 + stallAt r a)).core.bus =
          { (r.state (a + 1)).core.bus with valid := false, we := false } := by
        rw [held.taken]; rfl
      rw [memRdata, Mem.rdata_external]
      · exact rest.trans ready.2.2.symm
      · rw [after, bus, MemRegs.inExt_read read, external]
  · intro u q accepted
    unfold accepts at accepted
    split at accepted
    case isFalse => cases accepted
    case isTrue here =>
      obtain ⟨idle, request⟩ := here
      rw [MemRegs.request_valid, Bool.and_eq_true] at request
      obtain ⟨valid, external⟩ := request
      obtain ⟨w, inside⟩ := MemRegs.inExt_iff.mp external
      rcases cycle_cases r start u with ⟨quiet, -⟩ | ⟨a, k, rfl, issues, held, upto⟩
      · exact absurd valid (by simp [Core.bus, quiet])
      rcases Nat.eq_zero_or_pos k with rfl | later
      · cases accepted
        exact ⟨a, w, rfl, issues, valid, inside, MemRegs.request_carries inside⟩
      · have never := held.accepts_later later upto
        rw [accepts, if_pos ⟨idle, by rw [MemRegs.request_valid, valid, external]; rfl⟩] at never
        cases never

/-- The boot ROM's first external access is its store to the PSRAM window, issued in cycle 11. -/
theorem external_access_once_zeroed :
    ∃ q d, Carries (zeroedRun.state 12).mem.regs (zeroedRun.state 12).core.bus q .psram ∧
      zeroedRun.observe accepts 12 (d + 1) = [q] ∧
      (zeroedRun.state (13 + d)).core.state = .wb := by
  have wb : takeState (zeroedRun.state 11).core = .wb := by decide +kernel
  obtain ⟨q, d, carries, -, once, -, -, taken, -⟩ :=
    (external_access_once zeroedRun zeroed rfl).1 11 .psram (.inr (by decide +kernel))
      (by decide +kernel) ⟨by decide +kernel, by decide +kernel⟩
  exact ⟨q, d, carries, once, by rw [← wb, ← taken]⟩

end Once

end Top

end AgilA32
