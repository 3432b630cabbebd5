import AgilA32.Mem.Ram
import AgilA32.Top.Handshake

/-!
# What an instruction does, as seen from outside

Three observations of a run: the requests the engine accepts (`accepts`), the stores that complete
(`stored`), and the instructions that retire (`retires`).  For the instruction that begins at a
boundary each is a short list, given here in terms of its fetch and its data access.
-/

namespace AgilA32

namespace Top

open AgilA32.Core (isEbreak)

/-- The store that completes in a cycle. -/
def stored (s : Top) (_ : TopIn) : Option Bus :=
  if s.core.memValid && s.core.memWe && s.memReady then some s.core.bus else none

/-- The instruction that retires at the end of a cycle: its address and what the core sees on
`ui_in` then. -/
def retires (s : Top) (i : TopIn) : Option (BitVec 8 × BitVec 8) :=
  if s.core.state = .wb then some (s.core.pc, i.uiIn) else none

section Observe

variable {r : Clocked.Run Top.step} {t a : Nat}

theorem accepts_quiet {u : Nat} (quiet : (r.state u).core.memValid = false) :
    accepts (r.state u) (r.input u) = none := by
  rw [accepts, if_neg]
  simp [MemRegs.request_valid, Core.bus, quiet]

theorem stored_quiet {u : Nat} (quiet : (r.state u).core.memValid = false) :
    stored (r.state u) (r.input u) = none := by
  simp [stored, quiet]

/-- The requests accepted for the access `b`. -/
def acceptedFor (m : MemRegs) (b : Bus) : List Request :=
  if b.valid && m.inExt b then [m.request b] else []

/-- The stores completed by the access `b`. -/
def storedBy (b : Bus) : List Bus := if b.valid && b.we then [b] else []

/-- What the engine accepts while an access is held. -/
theorem Holds.observe_acceptedFor (held : Holds r a) :
    r.observe accepts (a + 1) (stallAt r a + 1) =
      acceptedFor (r.state (a + 1)).mem.regs (r.state (a + 1)).core.bus := by
  unfold acceptedFor
  by_cases external : ((r.state (a + 1)).core.bus.valid &&
      (r.state (a + 1)).mem.regs.inExt (r.state (a + 1)).core.bus) = true
  · rw [if_pos external]
    rw [Bool.and_eq_true] at external
    exact held.observe_accepts external.1 external.2
  · have delay : stallAt r a = 0 := MemRegs.delay_onchip (by simpa using external)
    rw [if_neg external, delay, r.observe_one, accepts, if_neg]
    · rfl
    · rintro ⟨-, valid⟩
      exact external valid

/-- A held store completes once, when `ready` comes. -/
theorem Holds.observe_storedBy (held : Holds r a) :
    r.observe stored (a + 1) (stallAt r a + 1) = storedBy (r.state (a + 1)).core.bus := by
  have low (k : Nat) (before : k < stallAt r a) :
      stored (r.state (a + 1 + k)) (r.input (a + 1 + k)) = none := by
    have low : (r.state (a + 1 + k)).memReady = false := held.issued.ready_low before
    simp [stored, low]
  have high : (r.state (a + 1 + stallAt r a)).memReady = true := held.issued.ready_high
  rw [r.observe_add, r.observe_eq_nil _ low, r.observe_one, List.nil_append, stored, high,
    Bool.and_true, held.held _ le_rfl, storedBy]
  by_cases store : ((r.state (a + 1)).core.memValid && (r.state (a + 1)).core.memWe) = true
  · rw [if_pos store]; exact (if_pos store).symm
  · rw [if_neg store]; exact (if_neg store).symm

/-- The cycles of an instruction, cut at its fetch and its data access. -/
theorem observe_instruction {β : Type*} (event : Top → TopIn → Option β) :
    r.observe event t (next r t - t) =
      r.observe event t 1 ++ r.observe event (t + 1) (fetchDelay r t + 1) ++
        r.observe event (t + 2 + fetchDelay r t) 3 ++
        r.observe event (dataCycle r t) (dataDelay r t + 1) ++
        r.observe event (dataCycle r t + dataDelay r t + 1) 1 := by
  rw [show next r t - t = 1 + (fetchDelay r t + 1) + 3 + (dataDelay r t + 1) + 1 by
    unfold next dataCycle; omega, r.observe_add, r.observe_add, r.observe_add, r.observe_add]
  unfold dataCycle
  congr 2
  · congr 2; omega
  · congr 1; omega
  · omega

namespace Boundary

variable (start : Boundary (r.state t)) (live : isEbreak (word r t) = false)
include start live

/-- The first cycle, the three between the accesses and the last one show nothing on the bus. -/
theorem observe_quiet {β : Type*} (event : Top → TopIn → Option β)
    (quiet : ∀ u, (r.state u).core.memValid = false → event (r.state u) (r.input u) = none) :
    r.observe event t 1 = [] ∧ r.observe event (t + 2 + fetchDelay r t) 3 = [] ∧
      r.observe event (dataCycle r t + dataDelay r t + 1) 1 = [] := by
  refine ⟨?_, r.observe_eq_nil event fun k before => quiet _ ?_, ?_⟩
  · rw [r.observe_one, quiet _ start.valid]; rfl
  · exact (start.between_core (k := k) (by omega) (.inl live)).1
  · rw [r.observe_one, quiet _ (by rw [start.accessed live]; rfl)]; rfl

theorem data_bus : (r.state (dataCycle r t)).core.bus = dataBus r t ∧
    (r.state (dataCycle r t)).mem.regs = (r.state t).mem.regs :=
  ⟨(start.data_issued live).first, start.data_regs live⟩

theorem observe_accepts : r.observe accepts t (next r t - t) =
    acceptedFor (r.state t).mem.regs (fetchBus r t) ++
      acceptedFor (r.state t).mem.regs (dataBus r t) := by
  obtain ⟨first, middle, last⟩ := start.observe_quiet live accepts fun _ => accepts_quiet
  have fetch := start.fetch_holds.observe_acceptedFor
  have data := (start.data_holds live).observe_acceptedFor
  obtain ⟨bus, regs⟩ := start.data_bus live
  have bus' : (r.state (t + 1)).core.bus = fetchBus r t := start.fetch_issued.first
  have regs' : (r.state (t + 1)).mem.regs = (r.state t).mem.regs := start.fetch_regs
  rw [start.fetch_stallAt, bus', regs'] at fetch
  rw [start.data_stallAt live, show t + 4 + fetchDelay r t + 1 = dataCycle r t by
    unfold dataCycle; omega, bus, regs] at data
  rw [observe_instruction, first, middle, last, fetch, data]
  simp

theorem observe_stored : r.observe stored t (next r t - t) = storedBy (dataBus r t) := by
  obtain ⟨first, middle, last⟩ := start.observe_quiet live stored fun _ => stored_quiet
  have fetch := start.fetch_holds.observe_storedBy
  have data := (start.data_holds live).observe_storedBy
  have bus' : (r.state (t + 1)).core.bus = fetchBus r t := start.fetch_issued.first
  rw [start.fetch_stallAt, bus', show storedBy (fetchBus r t) = [] from rfl] at fetch
  rw [start.data_stallAt live, show t + 4 + fetchDelay r t + 1 = dataCycle r t by
    unfold dataCycle; omega, (start.data_bus live).1] at data
  rw [observe_instruction, first, middle, last, fetch, data]
  simp

/-- Where the core is within the instruction: always at its `pc`, and in `ST_WB` only at the end. -/
theorem within {u : Nat} (after : t ≤ u) (before : u < next r t) :
    (r.state u).core.pc = (r.state t).core.pc ∧
      ((r.state u).core.state = .wb ↔ u + 1 = next r t) := by
  have last : next r t = dataCycle r t + dataDelay r t + 2 := rfl
  have data : dataCycle r t = t + 5 + fetchDelay r t := rfl
  rcases Nat.eq_or_lt_of_le after with rfl | later
  · refine ⟨rfl, ?_⟩
    rw [start.fetch]
    simp
    omega
  · rcases start.core_cases live later before with
      ⟨here, h⟩ | ⟨here, h⟩ | ⟨here, h⟩ | ⟨here, h⟩ | ⟨-, here, h⟩ | ⟨here, h⟩ <;> rw [h]
    · exact ⟨rfl, by simp; omega⟩
    · exact ⟨rfl, by simp; omega⟩
    · exact ⟨rfl, by simp; omega⟩
    · exact ⟨rfl, by simp; omega⟩
    · exact ⟨Core.issued_pc _ _, by simp; omega⟩
    · exact ⟨Core.issued_pc _ _, by simp; omega⟩

theorem observe_retires : r.observe retires t (next r t - t) =
    [((r.state t).core.pc, (r.input (next r t - 1)).uiIn)] := by
  have later := lt_next r t
  rw [show next r t - t = next r t - 1 - t + 1 by omega, r.observe_add, r.observe_one,
    r.observe_eq_nil, show t + (next r t - 1 - t) = next r t - 1 by omega]
  · obtain ⟨pc, wb⟩ := start.within live (u := next r t - 1) (by omega) (by omega)
    rw [retires, if_pos (wb.mpr (by omega)), pc]
    rfl
  · intro k before
    obtain ⟨-, wb⟩ := start.within live (u := t + k) (by omega) (by omega)
    rw [retires, if_neg (fun h => by have := wb.mp h; omega)]

end Boundary

end Observe

/-! ## The stores of a run are what changes the memory -/

section Changes

variable {s : Top} {i : TopIn}

/-- A cycle that completes no store leaves the registers and the settings as they were, and lets the
timer tick; one that completes the store `b` commits it. -/
theorem step_mem (strobe : s.core.memWe = true → s.core.memValid = true) :
    (stored s i = none → (s.step i).mem.regs = s.mem.regs ∧
        (s.step i).mem.settings = s.mem.settings ∧ (s.step i).mem.timer = s.mem.timer.tick) ∧
      ∀ b, stored s i = some b → b.we = true ∧
        (s.step i).mem.regs = s.mem.regs.commit b s.mem.qspi.reqRdata ∧
        (s.step i).mem.settings = s.mem.settings.write b ∧
        (s.step i).mem.timer = s.mem.timer.step b := by
  have regs : (s.step i).mem.regs =
      s.mem.regs.step s.core.bus s.mem.qspi.reqReady s.mem.qspi.reqRdata := rfl
  have settings : (s.step i).mem.settings = s.mem.settings.commit s.core.bus :=
    Mem.step_settings _ _
  have timer : (s.step i).mem.timer = s.mem.timer.step s.core.bus := rfl
  rw [regs, settings, timer, stored]
  by_cases we : s.core.memWe = true
  · have valid := strobe we
    have both : (s.core.bus.valid && s.core.bus.we) = true := by
      rw [Core.bus, valid, we]; rfl
    rw [valid, we, Bool.true_and, Bool.true_and, memReady, Mem.ready]
    have shown : s.core.bus.valid = true := valid
    by_cases external : s.mem.regs.inExt s.core.bus = true
    · rw [shown, external, Bool.true_and, if_pos rfl]
      obtain ⟨-, -, -, -, timerCtrl, timerFlag, duty, -, enable, mux, -, -⟩ :=
        MemRegs.external_addr _ _ (MemRegs.inExt_addr external)
      cases ready : s.mem.qspi.reqReady
      · refine ⟨fun _ => ⟨MemRegs.step_external external _, ?_, ?_⟩, fun b h => by cases h⟩
        · simp [Settings.commit, both, Settings.write, timerCtrl, duty, enable, mux]
        · simp [Timer.step, timerCtrl, timerFlag]
      · refine ⟨fun h => by (simp at h), fun b h => ?_⟩
        cases h
        exact ⟨we, rfl, if_pos both, rfl⟩
    · have onchip : s.mem.regs.inExt s.core.bus = false := by simpa using external
      rw [onchip, Bool.and_false, if_neg Bool.false_ne_true, if_pos rfl]
      refine ⟨fun h => (by cases h), fun b h => ?_⟩
      cases h
      exact ⟨we, MemRegs.commit_onchip onchip _ _ _, if_pos both, rfl⟩
  · have read : s.core.bus.we = false := Bool.eq_false_iff.mpr we
    rw [show s.core.memWe = false from read, Bool.and_false, Bool.false_and]
    refine ⟨fun _ => ⟨MemRegs.step_read read _ _, ?_, ?_⟩, fun b h => by cases h⟩
    · simp [Settings.commit, read]
    · simp [Timer.step, read]

/-- In a run that starts at a boundary the write strobe is never up without a request. -/
theorem strobe_at {r : Clocked.Run Top.step} (start : Boundary (r.state 0)) (u : Nat) :
    (r.state u).core.memWe = true → (r.state u).core.memValid = true := by
  rcases cycle_cases r start u with ⟨-, we, -⟩ | ⟨a, k, rfl, -, held, upto⟩
  · rw [we]; intro h; cases h
  · rw [held.held k upto]
    exact held.issued.strobe

/-- `FLASH_MODE`, once set, stays set. -/
theorem flashMode_stays {r : Clocked.Run Top.step} {u v : Nat}
    (mode : (r.state u).mem.regs.flashMode = true) (after : u ≤ v) :
    (r.state v).mem.regs.flashMode = true :=
  r.invariant (P := fun s => s.mem.regs.flashMode = true) mode
    (fun _ _ kept => MemRegs.step_flashMode kept _ _) v after

end Changes

end Top

end AgilA32
