import AgilA32.Boot.Listen

/-!
# The design never hangs

The engine does not wait for its chips, so an access takes a bounded time, and so does an instruction,
whatever is on the pins and in memory: at most `maxInstruction` cycles.  Hence in any span of that length
an instruction retires, unless the core has stopped at an `EBREAK` (`never_hangs`).
-/

namespace AgilA32

open AgilA32.Core (isEbreak)

/-- The longest wait for the engine: 64 bits with the slowest clock. -/
def maxDelay : Nat := 2 + 2 * 64 * 64

/-- The longest instruction: two such accesses, and seven cycles. -/
def maxInstruction : Nat := 7 + 2 * maxDelay

theorem MemRegs.delay_le (m : MemRegs) (b : Bus) : m.delay b ≤ maxDelay := by
  unfold MemRegs.delay
  split
  · have := Nat.mul_le_mul (Nat.mul_le_mul_left 2 (m.request b).half_bound) (m.request b).bits_le
    exact Nat.add_le_add_left this 2
  · exact Nat.zero_le _

namespace Top

variable {r : Clocked.Run Top.step}

theorem next_le (t : Nat) : t + 7 ≤ next r t ∧ next r t ≤ t + maxInstruction := by
  have fetch : fetchDelay r t ≤ maxDelay := MemRegs.delay_le _ _
  have data : dataDelay r t ≤ maxDelay := MemRegs.delay_le _ _
  unfold next dataCycle maxInstruction
  omega

/-- The first `n` instructions take at least seven cycles each and at most `maxInstruction`. -/
theorem begins_le (t n : Nat) : t + 7 * n ≤ begins r t n ∧ begins r t n ≤ t + maxInstruction * n := by
  induction n with
  | zero => exact ⟨le_rfl, le_rfl⟩
  | succ n ih =>
      have one := next_le (r := r) (begins r t n)
      simp only [begins, Nat.mul_succ]
      omega

/-- In every run from reset, for every program and all waveforms on the pins: from any cycle on an
instruction retires within `maxInstruction` cycles, or the core has stopped within that time for good. -/
theorem never_hangs (r : Clocked.Run Top.step) (s : Top) (reset : r.state 0 = s.reset) (u : Nat) :
    (∃ v, u ≤ v ∧ v < u + maxInstruction ∧ (retires (r.state v) (r.input v)).isSome = true) ∨
      ∀ v, u + maxInstruction ≤ v → (r.state v).core.halted = true := by
  obtain ⟨t, before, boundary, -, stop | ⟨live, within⟩⟩ :=
    exists_instruction_of (P := fun _ => True) r (reset ▸ boundary_reset s) trivial
      (fun _ _ _ _ => trivial) u
  · right
    intro v late
    have fetch : fetchDelay r t ≤ maxDelay := MemRegs.delay_le _ _
    obtain ⟨k, rfl⟩ := Nat.exists_eq_add_of_le
      (show t + 4 + fetchDelay r t ≤ v by unfold maxInstruction at late; omega)
    rw [(boundary.parked stop k).1]
    rfl
  · left
    have last := (next_le (r := r) t).2
    refine ⟨next r t - 1, by omega, by omega, ?_⟩
    rw [retires, if_pos (((boundary.within live (u := next r t - 1) (by omega) (by omega)).2).mpr
      (by omega))]
    rfl

/-- The boot ROM's first instruction retires in cycle 6, and another one in time after it: the core has not
stopped, since the listen loop goes on for longer. -/
theorem never_hangs_boot : retires (zeroedRun.state 6) (zeroedRun.input 6) = some (0, 0) ∧
    ∃ v, 7 ≤ v ∧ v < 7 + maxInstruction ∧ (retires (zeroedRun.state v) (zeroedRun.input v)).isSome = true := by
  refine ⟨by decide +kernel, (never_hangs zeroedRun zeroed rfl 7).resolve_right fun stopped => ?_⟩
  obtain ⟨t₀, -, b, x, fail, -, -, -, tested, early, -, -, -, -, verdict⟩ :=
    Boot.boot_selfTest (r := zeroedRun) zeroed rfl
  obtain ⟨x', g, looped, -⟩ := Boot.listen tested verdict (k := 200) (by decide)
    fun _ _ => (by decide : (0#8).getLsbD 2 = false)
  have halted := stopped (Boot.pollCycle t₀ 200) (by unfold Boot.pollCycle maxInstruction maxDelay; omega)
  rw [Core.halted, looped.reached.boundary.fetch] at halted
  cases halted

end Top

end AgilA32
