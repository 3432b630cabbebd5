import AgilA32.Boot.Exec
import AgilA32.Engine.Wave

/-!
# The self-test and the listen loop

From reset the boot ROM writes 0xA5 to RAM A, reads it back (`selfTest`), and then polls START at
most 512 times, 63 cycles apart, showing a counter on the LEDs (`listen`).  Which poll is the first
to see START high is read off the polls that the run shows (`start_of_observed`, `start_low`).
-/

namespace AgilA32

namespace Boot

open Clocked (spell)
open AgilA32.Core (readReg writeReg)
open Engine (samples)
open Mem (engineRun)
open AgilA32.Top (Arch At Boundary accepts stored memRun)
open Verilog (byteAt)

variable {r : Clocked.Run Top.step}

/-! ## The self-test -/

/-- The self-test's store of 0xA5 at `0xE0`. -/
def probeStore : Bus := { addr := 0xE0, wdata := 0xA5, size := 0, we := true, valid := true }

/-- What `LBU` makes of the data a one-byte read received. -/
theorem lbu_received {q : Request} (chip : q.dev ≠ 0#2) (byte : q.size = 0#2) (s : Nat → Bool) :
    Rv32i.LoadOp.lbu.extend (q.received s) = (spell s 32).setWidth 32 := by
  have bytes : q.dataBytes = 1 := by simp [Request.dataBytes, chip, byte, sizeBytes]
  have first := q.byteAt_received s (i := 0) (by decide)
  rw [bytes, if_pos (by decide), Request.dataStart, if_neg chip] at first
  rw [← first]
  simp [Rv32i.LoadOp.extend, byteAt, Core.low_bits]

/-- A one-byte transaction of the self-test takes 5122 cycles, at the divider's reset value. -/
theorem probe_delay {q : Request} (chip : q.dev ≠ 0#2) (byte : q.size = 0#2)
    (slow : q.divSel = 3#2) : q.delay = 5122 := by
  have half : q.half = 64 := by rw [Request.half, slow]; rfl
  have bits : q.bits = 40 := by
    rcases q.bits_cases with ⟨h, -⟩ | ⟨-, -, h⟩ | ⟨-, h, -⟩ | ⟨-, h, -⟩
    · exact absurd h chip
    · exact h
    · cases byte.symm.trans h
    · exact absurd byte h
  rw [Request.delay, half, bits]

/-- The self-test: one write and one read of RAM A, and their verdict in `x8`. -/
theorem selfTest {t : Nat} {x : RegFile} {m : MemRegs} {σ : Settings} (slow : m.qspiDivSel = 3#2)
    (here : At r t { pc := romAddr 0, x := x, mem := m, settings := σ }) :
    ∃ (t₀ u : Nat) (b : Bus) (x' : RegFile) (fail : Bool),
      b.we = false ∧ b.addr = 0xE0#8 ∧ b.size = 0#2 ∧
      Leads r t t₀ { pc := romAddr 6, x := x', mem := m, settings := σ }
        { polls := [], accepted := [m.request probeStore, m.request b], stores := [probeStore] } ∧
      t + 10279 ≤ t₀ ∧ t₀ ≤ t + 10286 ∧ u < t₀ ∧
      accepts (r.state u) (r.input u) = some (m.request b) ∧
      (fail = false ↔
        spell (samples (engineRun (memRun r)) u (m.request b)) 32 = 0xA5#8) ∧
      readReg x' 8 = if fail then 0x80 else 0 := by
  have s1 : Leads r t (t + 7) ⟨romAddr 1, writeReg x 2 0xA5, m, σ⟩ .empty :=
    (Leads.refl here).plain 0 rfl rfl (by simp) rfl (fun _ => rfl) (fun _ => rfl)
  have s2 : Leads r t _ ⟨romAddr 2, _, m, _⟩ _ :=
    s1.storePsram 1 (b := probeStore) rfl rfl rfl rfl rfl
  rw [Settings.write_other (by decide) (by decide) (by decide) (by decide)] at s2
  have first := probe_delay (q := m.request probeStore) (MemRegs.psram_chip rfl) rfl slow
  generalize ht₂ : t + 7 + 7 + (m.request probeStore).delay = t₂ at s2
  obtain ⟨b, valid, we, addr, size, accepted, s3⟩ := s2.loadPsram 2 rfl (by decide) rfl rfl rfl
  replace addr : b.addr = 0xE0#8 := addr
  have chip : (m.request b).dev ≠ 0#2 := MemRegs.psram_chip (by rw [addr]; rfl)
  have second := probe_delay chip size slow
  rw [lbu_received chip size] at s3
  generalize heard : spell (samples (engineRun (memRun r)) (t₂ + 5) (m.request b)) 32 = v at s3
  generalize ht₃ : t₂ + 7 + (m.request b).delay = t₃ at s3
  have s4 : Leads r t (t₃ + 7)
      ⟨romAddr 4, writeReg (writeReg (writeReg x 2 0xA5) 6 (v.setWidth 32)) 8 0, m, σ⟩
      { polls := [], accepted := [m.request probeStore, m.request b], stores := [probeStore] } :=
    s3.plain 3 rfl rfl (by simp) rfl (fun _ => rfl) (fun _ => rfl)
  have verdict : Rv32i.BranchOp.beq.taken (v.setWidth 32) 0xA5#32 = decide (v = 0xA5#8) := by
    rw [Rv32i.BranchOp.taken, Bool.eq_iff_iff, beq_iff_eq, decide_eq_true_iff, ← BitVec.toNat_inj,
      ← BitVec.toNat_inj]
    simp
    omega
  by_cases pass : v = 0xA5#8
  · rw [decide_eq_true pass] at verdict
    have s5 : Leads r t (t₃ + 14) ⟨romAddr 6, _, m, σ⟩ _ :=
      s4.branch 4 true rfl rfl (by simpa using verdict) rfl
    exact ⟨_, _, b, _, false, we, addr, size, s5, by omega, by omega, by omega, accepted,
      by simp [heard, pass], by simp⟩
  · rw [decide_eq_false pass] at verdict
    have s5 : Leads r t (t₃ + 14) ⟨romAddr 5, _, m, σ⟩ _ :=
      s4.branch 4 false rfl rfl (by simpa using verdict) rfl
    have s6 : Leads r t (t₃ + 21) ⟨romAddr 6,
        writeReg (writeReg (writeReg (writeReg x 2 0xA5) 6 (v.setWidth 32)) 8 0) 8 0x80, m, σ⟩ _ :=
      s5.plain 5 rfl rfl (by simp) rfl (fun _ => rfl) (fun _ => rfl)
    exact ⟨_, _, b, _, true, we, addr, size, s6, by omega, by omega, by omega, accepted,
      by simp [heard, pass], by simp⟩

/-- The boot ROM from reset up to the end of its self-test. -/
theorem boot_selfTest (s : Top) (reset : r.state 0 = s.reset) :
    ∃ (t₀ u : Nat) (b : Bus) (x : RegFile) (fail : Bool),
      b.we = false ∧ b.addr = 0xE0#8 ∧ b.size = 0#2 ∧
      Leads r 0 t₀ ⟨romAddr 6, x, s.mem.regs.reset, s.reset.mem.settings⟩
        { polls := []
          accepted := [s.mem.regs.reset.request probeStore, s.mem.regs.reset.request b]
          stores := [probeStore] } ∧
      10279 ≤ t₀ ∧ t₀ ≤ 10286 ∧ u < t₀ ∧
      accepts (r.state u) (r.input u) = some (s.mem.regs.reset.request b) ∧
      (fail = false ↔
        spell (samples (engineRun (memRun r)) u (s.mem.regs.reset.request b)) 32 = 0xA5#8) ∧
      readReg x 8 = if fail then 0x80 else 0 := by
  have here : At r 0 ⟨romAddr 0, s.core.regs, s.mem.regs.reset, s.reset.mem.settings⟩ :=
    ⟨reset ▸ Top.boundary_reset s, by rw [reset]; rfl, by rw [reset]; rfl, by rw [reset]; rfl,
      by rw [reset]⟩
  obtain ⟨t₀, u, b, x, fail, we, addr, size, reached, early, late, rest⟩ := selfTest rfl here
  exact ⟨t₀, u, b, x, fail, we, addr, size, reached, by omega, by omega, rest⟩

/-! ## The listen loop -/

/-- What the loop shows on the LEDs: the self-test's verdict and a four-bit counter. -/
def ledValue (fail : Bool) (k : Nat) : BitVec 32 :=
  BitVec.ofNat 32 ((if fail then 1 else 0) <<< 7 ||| k % 16)

/-- The `k`-th store of the loop to `LED_OUT`. -/
def ledStore (fail : Bool) (k : Nat) : Bus :=
  { addr := 0xF0, wdata := ledValue fail k, size := 2, we := true, valid := true }

theorem ledValue_eq (fail : Bool) {k : Nat} (small : k < 2 ^ 32) :
    (if fail then 0x80#32 else 0#32) ||| (BitVec.ofNat 32 k &&& 0xF#32) = ledValue fail k := by
  apply BitVec.eq_of_toNat_eq
  have low : k &&& 15 = k % 16 := Nat.and_two_pow_sub_one_eq_mod k 4
  have bound : (if fail then 1 else 0) <<< 7 ||| k % 16 < 2 ^ 8 :=
    Nat.or_lt_two_pow (by cases fail <;> decide) (by omega)
  rw [ledValue, BitVec.toNat_or, BitVec.toNat_and, BitVec.toNat_ofNat, BitVec.toNat_ofNat,
    BitVec.toNat_ofNat, Nat.mod_eq_of_lt small, show 15 % 2 ^ 32 = 15 from rfl, low,
    Nat.mod_eq_of_lt (b := 2 ^ 32) (by omega)]
  cases fail <;> rfl

theorem mask_start : ∀ v : BitVec 8,
    Rv32i.BranchOp.bne.taken (v.setWidth 32 &&& 4#32) 0#32 = v.getLsbD 2 := by decide +kernel

/-- The registers of the loop: the verdict in `x8` and the number of polls so far in `x9`. -/
structure Listening (x : RegFile) (fail : Bool) (k : Nat) : Prop where
  verdict : readReg x 8 = if fail then 0x80 else 0
  count : readReg x 9 = BitVec.ofNat 32 k

section Poll

variable {t t' k : Nat} {x : RegFile} {m : MemRegs} {σ : Settings} {log : Log} {fail : Bool}

/-- Poll number `k + 1`: nine instructions if START is low. -/
theorem listen_low (s : Leads r t t' ⟨romAddr 7, x, m, σ⟩ log)
    (loop : Listening x fail k) (within : k < 512)
    (low : (r.input (t' + 6)).uiIn.getLsbD 2 = false) :
    ∃ x', Leads r t (t' + 63)
        ⟨if k + 1 < 512 then romAddr 7 else romAddr 16, x',
          { m with gpioOut := (ledValue fail (k + 1)).extractLsb' 0 8 }, σ⟩
        (log ++ { polls := [false], accepted := [], stores := [ledStore fail (k + 1)] }) ∧
      Listening x' fail (k + 1) := by
  have s1 := s.poll 7 rfl rfl rfl
  rw [if_pos rfl, low] at s1
  have s2 : Leads r t (t' + 14)
      ⟨romAddr 9, writeReg (writeReg x 2 (gpio r (t' + 6))) 2 (gpio r (t' + 6) &&& 4), m, σ⟩ _ :=
    s1.plain 8 rfl rfl (by simp) rfl (fun _ => rfl) (fun _ => rfl)
  have s3 : Leads r t (t' + 21) ⟨romAddr 10, _, m, σ⟩ _ :=
    s2.branch 9 false rfl rfl (by rw [← low]; exact mask_start _) rfl
  generalize hx : writeReg (writeReg x 2 (gpio r (t' + 6))) 2 (gpio r (t' + 6) &&& 4) = x₁ at s3
  have verdict : readReg x₁ 8 = if fail then 0x80 else 0 := by
    rw [← hx, ← loop.verdict]; simp
  have count : readReg x₁ 9 = BitVec.ofNat 32 k := by rw [← hx, ← loop.count]; simp
  have s4 : Leads r t (t' + 28) ⟨romAddr 11, writeReg x₁ 9 (BitVec.ofNat 32 (k + 1)), m, σ⟩ _ :=
    s3.plain 10 rfl rfl (by simp) rfl (fun _ => rfl) fun _ => by
      change writeReg x₁ 9 (readReg x₁ 9 + 1) = _
      rw [count, BitVec.ofNat_add]
      rfl
  have s5 : Leads r t (t' + 35) ⟨romAddr 12, writeReg (writeReg x₁ 9 (BitVec.ofNat 32 (k + 1))) 3
      (BitVec.ofNat 32 (k + 1) &&& 0xF), m, σ⟩ _ :=
    s4.plain 11 rfl rfl (by simp) rfl (fun _ => rfl) (fun _ => rfl)
  generalize hx₂ : writeReg (writeReg x₁ 9 (BitVec.ofNat 32 (k + 1))) 3
    (BitVec.ofNat 32 (k + 1) &&& 0xF) = x₂ at s5
  have shown : readReg x₂ 8 ||| readReg x₂ 3 = ledValue fail (k + 1) := by
    have left : readReg x₂ 8 = if fail then 0x80#32 else 0#32 := by rw [← hx₂]; simpa using verdict
    have right : readReg x₂ 3 = BitVec.ofNat 32 (k + 1) &&& 0xF#32 := by rw [← hx₂]; simp
    rw [left, right, ledValue_eq fail (by omega)]
  have s6 : Leads r t (t' + 42) ⟨romAddr 13, writeReg x₂ 2 (ledValue fail (k + 1)), m, σ⟩ _ :=
    s5.plain 12 rfl rfl (by simp) rfl (fun _ => rfl) fun _ => congrArg (writeReg x₂ 2) shown
  have s7 : Leads r t (t' + 49) ⟨romAddr 14, _, _, _⟩ _ :=
    s6.store 13 (b := ledStore fail (k + 1)) rfl rfl rfl rfl
      (MemRegs.inExt_register (by simp [ledStore]) (.inr (by simp [ledStore])))
  have counter : readReg (writeReg x₂ 2 (ledValue fail (k + 1))) 9 = BitVec.ofNat 32 (k + 1) := by
    rw [← hx₂]; simp
  have s8 : Leads r t (t' + 56) ⟨romAddr 15, writeReg (writeReg x₂ 2 (ledValue fail (k + 1))) 3
      (BitVec.ofNat 32 (k + 1) >>> 9), _, _⟩ _ :=
    s7.plain 14 rfl rfl (by simp) rfl (fun _ => rfl) fun _ => by rw [← counter]; rfl
  have again : Rv32i.BranchOp.beq.taken (BitVec.ofNat 32 (k + 1) >>> 9) 0#32 =
      decide (k + 1 < 512) := by
    rw [Rv32i.BranchOp.taken, Bool.eq_iff_iff, beq_iff_eq, decide_eq_true_iff, ← BitVec.toNat_inj,
      BitVec.toNat_ushiftRight, BitVec.toNat_ofNat, Nat.shiftRight_eq_div_pow]
    simp
    omega
  have s9 : Leads r t (t' + 63) ⟨if k + 1 < 512 then romAddr 7 else romAddr 16, _, _, _⟩ _ :=
    s8.branch 15 (decide (k + 1 < 512)) rfl rfl again
      (by by_cases more : k + 1 < 512 <;> simp [more] <;> rfl)
  rw [Settings.write_other (by simp [ledStore]) (by simp [ledStore]) (by simp [ledStore])
    (by simp [ledStore]), Log.append_assoc] at s9
  refine ⟨_, s9, ?_, ?_⟩
  · rw [← verdict, ← hx₂]; simp
  · rw [← hx₂]; simp

/-- A poll that sees START high enters the bootloader. -/
theorem listen_high (s : Leads r t t' ⟨romAddr 7, x, m, σ⟩ log)
    (high : (r.input (t' + 6)).uiIn.getLsbD 2 = true) :
    ∃ x', Leads r t (t' + 21) ⟨romAddr 18, x', m, σ⟩
      (log ++ { polls := [true], accepted := [], stores := [] }) := by
  have s1 := s.poll 7 rfl rfl rfl
  rw [if_pos rfl, high] at s1
  have s2 : Leads r t (t' + 14)
      ⟨romAddr 9, writeReg (writeReg x 2 (gpio r (t' + 6))) 2 (gpio r (t' + 6) &&& 4), m, σ⟩ _ :=
    s1.plain 8 rfl rfl (by simp) rfl (fun _ => rfl) (fun _ => rfl)
  exact ⟨_, s2.branch 9 true rfl rfl (by rw [← high]; exact mask_start _) rfl⟩

/-- The cycle in which the loop begins its poll number `k + 1`, entered from `MAIN_INIT` at `t₀`. -/
def pollCycle (t₀ k : Nat) : Nat := t₀ + 7 + 63 * k

/-- START as poll number `k + 1` sees it. -/
def start (r : Clocked.Run Top.step) (t₀ k : Nat) : Bool :=
  (r.input (pollCycle t₀ k + 6)).uiIn.getLsbD 2

/-- The loop after `k` polls with START low. -/
theorem listen (s : Leads r t t' ⟨romAddr 6, x, m, σ⟩ log)
    (verdict : readReg x 8 = if fail then 0x80 else 0) (within : k ≤ 512)
    (low : ∀ j, j < k → start r t' j = false) :
    ∃ x' g, Leads r t (pollCycle t' k)
        ⟨if k < 512 then romAddr 7 else romAddr 16, x', { m with gpioOut := g }, σ⟩
        (log ++ { polls := List.replicate k false, accepted := []
                  stores := (List.range k).map fun j => ledStore fail (j + 1) }) ∧
      Listening x' fail k := by
  induction k with
  | zero =>
      have s1 : Leads r t (t' + 7) ⟨romAddr 7, writeReg x 9 0, m, σ⟩ _ :=
        s.plain 6 rfl rfl (by simp) rfl (fun _ => rfl) (fun _ => rfl)
      refine ⟨writeReg x 9 0, m.gpioOut, ?_, by simpa using verdict, by simp⟩
      rw [if_pos (by decide)]
      exact (Log.append_empty log).symm ▸ s1
  | succ k ih =>
      obtain ⟨x', g, reached, loop⟩ := ih (by omega) fun j before => low j (by omega)
      rw [if_pos (by omega)] at reached
      obtain ⟨x'', next, loop'⟩ := listen_low reached loop (by omega) (low k (by omega))
      rw [show pollCycle t' k + 63 = pollCycle t' (k + 1) by unfold pollCycle; omega,
        Log.append_assoc] at next
      have logs : ({ polls := List.replicate k false, accepted := []
                     stores := (List.range k).map fun j => ledStore fail (j + 1) } : Log) ++
          { polls := [false], accepted := [], stores := [ledStore fail (k + 1)] } =
          { polls := List.replicate (k + 1) false, accepted := []
            stores := (List.range (k + 1)).map fun j => ledStore fail (j + 1) } := by
        change Log.mk _ _ _ = _
        simp [List.replicate_succ', List.range_succ]
      rw [logs] at next
      exact ⟨x'', _, next, loop'⟩

/-- Within an iteration of the loop the poll is where its `LW` ends. -/
theorem polled_at (s : Leads r t t' ⟨romAddr 7, x, m, σ⟩ log) :
    polled (r.state (t' + 6)) (r.input (t' + 6)) = some ((r.input (t' + 6)).uiIn.getLsbD 2) := by
  obtain ⟨running, time, -⟩ := s.poll_time 7 rfl rfl
  obtain ⟨pc, wb⟩ := s.reached.boundary.within running (u := t' + 6) (by omega) (by omega)
  rw [polled, Top.retires, if_pos (wb.mpr time.symm), pc, s.reached.pc]
  rfl

/-- Before it no poll has been made in the iteration. -/
theorem polls_before (s : Leads r t t' ⟨romAddr 7, x, m, σ⟩ log) :
    (∀ u, t' ≤ u → u < t' + 6 → polled (r.state u) (r.input u) = none) ∧
      r.observe polled t (t' + 6 - t) = log.polls := by
  obtain ⟨running, time, -⟩ := s.poll_time 7 rfl rfl
  have silent (u : Nat) (after : t' ≤ u) (before : u < t' + 6) :
      polled (r.state u) (r.input u) = none := by
    obtain ⟨-, wb⟩ := s.reached.boundary.within running after (by omega)
    rw [polled, Top.retires, if_neg fun h => by have := wb.mp h; omega]
    rfl
  refine ⟨silent, ?_⟩
  rw [r.observe_cut _ s.upto (Nat.le_add_right t' 6), s.polls, r.observe_eq_nil, List.append_nil]
  exact fun k within => silent _ (Nat.le_add_right _ _) (by omega)

/-- The state of the loop at its poll number `k + 1`, and what has been polled by then. -/
theorem poll_reached (s : Leads r t t' ⟨romAddr 6, x, m, σ⟩ log) (fresh : log.polls = [])
    (verdict : readReg x 8 = if fail then 0x80 else 0) (within : k < 512)
    (low : ∀ j, j < k → start r t' j = false) :
    polled (r.state (pollCycle t' k + 6)) (r.input (pollCycle t' k + 6)) = some (start r t' k) ∧
      r.observe polled t (pollCycle t' k + 6 - t) = List.replicate k false ∧ t ≤ pollCycle t' k ∧
      ∀ u, t ≤ u → u ≤ pollCycle t' k + 6 → (r.state u).core.pc.toNat < 176 := by
  obtain ⟨x', g, reached, -⟩ := listen s verdict within.le low
  rw [if_pos within] at reached
  have observed := (polls_before reached).2
  rw [Log.append_polls, fresh, List.nil_append] at observed
  refine ⟨polled_at reached, observed, reached.upto, fun u after upto => ?_⟩
  rcases Nat.lt_or_ge u (pollCycle t' k) with before | inside
  · exact reached.rom u after before
  · obtain ⟨running, time, -⟩ := reached.poll_time 7 rfl rfl
    rw [(reached.reached.boundary.within running inside (by omega)).1, reached.reached.pc]
    exact (by decide : (romAddr 7).toNat < 176)

/-- The first poll that sees START high, from the polls that a run shows. -/
theorem start_of_observed (s : Leads r t t' ⟨romAddr 6, x, m, σ⟩ log) (fresh : log.polls = [])
    (verdict : readReg x 8 = if fail then 0x80 else 0) {u n : Nat} (within : n < 512)
    (after : t ≤ u) (high : polled (r.state u) (r.input u) = some true)
    (earlier : r.observe polled t (u - t) = List.replicate n false) :
    (∀ j, j < n → start r t' j = false) ∧ start r t' n = true ∧ u = pollCycle t' n + 6 := by
  have compare (k : Nat) (upto : k ≤ n) (low : ∀ j, j < k → start r t' j = false) :
      k < n ∧ start r t' k = false ∨ k = n ∧ start r t' k = true ∧ u = pollCycle t' k + 6 := by
    obtain ⟨seen, observed, reach, -⟩ := poll_reached s fresh verdict (by omega) low
    rcases Nat.lt_trichotomy u (pollCycle t' k + 6) with early | rfl | late
    · have hit := (r.mem_observe polled (a := t) (n := pollCycle t' k + 6 - t)).mpr
        ⟨u, after, by omega, high⟩
      rw [observed] at hit
      have := List.eq_of_mem_replicate hit
      cases this
    · right
      rw [seen, Option.some.injEq] at high
      rw [observed] at earlier
      have := congrArg List.length earlier
      rw [List.length_replicate, List.length_replicate] at this
      exact ⟨this, high, rfl⟩
    · left
      have cut := r.observe_cut polled (show t ≤ pollCycle t' k + 6 by omega) late.le
      rw [earlier, observed, show u - (pollCycle t' k + 6) = u - (pollCycle t' k + 6) - 1 + 1 by
        omega, r.observe_succ, seen] at cut
      have length := congrArg List.length cut
      have hit : start r t' k ∈ List.replicate n false := by rw [cut]; simp
      simp only [List.length_append, List.length_replicate, Option.toList_some,
        List.length_cons, List.length_nil] at length
      exact ⟨by omega, List.eq_of_mem_replicate hit⟩
  have low (k : Nat) (before : k < n) : start r t' k = false := by
    induction k using Nat.strongRecOn with
    | ind k ih =>
        rcases compare k before.le fun j h => ih j h (by omega) with ⟨-, h⟩ | ⟨rfl, -⟩
        · exact h
        · omega
  rcases compare n le_rfl low with ⟨h, -⟩ | ⟨-, high', here⟩
  · omega
  · exact ⟨low, high', here⟩

/-- If no poll made before the ROM is left sees START high, none of the 512 does. -/
theorem start_low (s : Leads r t t' ⟨romAddr 6, x, m, σ⟩ log) (fresh : log.polls = [])
    (verdict : readReg x 8 = if fail then 0x80 else 0)
    (never : ∀ u, (∀ v, t ≤ v → v ≤ u → (r.state v).core.pc.toNat < 176) →
      polled (r.state u) (r.input u) ≠ some true) (within : k < 512) :
    start r t' k = false := by
  induction k using Nat.strongRecOn with
  | ind k ih =>
      obtain ⟨seen, -, -, rom⟩ :=
        poll_reached s fresh verdict within fun j before => ih j before (by omega)
      cases h : start r t' k
      · rfl
      · rw [h] at seen
        exact absurd seen (never _ rom)

end Poll

end Boot

end AgilA32
