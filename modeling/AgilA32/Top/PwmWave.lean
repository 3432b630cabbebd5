import AgilA32.Top.Effects

/-!
# The PWM waveform

The PWM counter runs through all its values in any 256 cycles, whatever else happens.  So while no store
changes the settings, the output is high for exactly as many of them as the duty says, and for all of
them at 255 (`pwm_duty`).
-/

namespace AgilA32

namespace Top

open AgilA32.Core (isEbreak)

theorem pwmCounter_add (r : Clocked.Run Top.step) (a k : Nat) :
    (r.state (a + k)).mem.pwm.pwmCounter =
      (r.state a).mem.pwm.pwmCounter + BitVec.ofNat 8 k := by
  induction k with
  | zero => exact (BitVec.add_zero _).symm
  | succ k ih =>
      rw [← Nat.add_assoc, pwmCounter_succ, ih, BitVec.add_assoc, BitVec.ofNat_add]
      rfl

/-- Of any `n` consecutive numbers, `d` are below `d` modulo `n`. -/
theorem card_below (a : Nat) {n d : Nat} (upto : d ≤ n) :
    ((Finset.range n).filter fun k => (a + k) % n < d).card = d := by
  have shifted : ((Finset.Ico a (a + n)).filter fun x => x % n < d).card =
      ((Finset.range n).filter fun k => (a + k) % n < d).card := by
    rw [← Nat.add_zero a, Nat.add_assoc, Nat.zero_add, ← Finset.map_add_left_Ico 0 n a,
      Finset.filter_map, Finset.card_map, Finset.range_eq_Ico]
    rfl
  have below : ((Finset.range n).filter fun x => x % n < d) = Finset.range d := by
    ext x
    simp only [Finset.mem_filter, Finset.mem_range]
    constructor
    · rintro ⟨within, small⟩
      rwa [Nat.mod_eq_of_lt within] at small
    · intro small
      exact ⟨by omega, by rwa [Nat.mod_eq_of_lt (by omega)]⟩
  rw [← shifted, Nat.filter_Ico_card_eq_of_periodic a n _ fun x => by simp,
    Nat.count_eq_card_filter_range, below, Finset.card_range]

/-- No store changes the PWM registers or `PIN_MUX` in the `n` cycles from `a` on. -/
def PwmStands (r : Clocked.Run Top.step) (a n : Nat) : Prop :=
  ∀ k, k < n → ∀ b, stored (r.state (a + k)) (r.input (a + k)) = some b →
    b.addr ≠ 0xF7#8 ∧ b.addr ≠ 0xF9#8 ∧ b.addr ≠ 0xFA#8

theorem PwmStands.settings {r : Clocked.Run Top.step} {a n : Nat} (stands : PwmStands r a n)
    (start : Boundary (r.state 0)) {k : Nat} (upto : k ≤ n) :
    (r.state (a + k)).mem.pwm.pwmDuty = (r.state a).mem.pwm.pwmDuty ∧
      (r.state (a + k)).mem.pwm.pwmEnable = (r.state a).mem.pwm.pwmEnable ∧
      (r.state (a + k)).mem.pwm.pinMux = (r.state a).mem.pwm.pinMux := by
  induction k with
  | zero => exact ⟨rfl, rfl, rfl⟩
  | succ k ih =>
      obtain ⟨duty, enable, mux⟩ := ih (by omega)
      obtain ⟨quiet, store⟩ := step_mem (i := r.input (a + k)) (strobe_at start (a + k))
      rw [← Nat.add_assoc, ← duty, ← enable, ← mux]
      cases shown : stored (r.state (a + k)) (r.input (a + k)) with
      | none =>
          have settings := (quiet shown).2.1
          rw [← r.edge] at settings
          exact (Settings.mk.inj settings).2
      | some b =>
          have settings := (store b shown).2.2.1
          rw [← r.edge] at settings
          obtain ⟨-, duty', enable', mux'⟩ := Settings.mk.inj settings
          obtain ⟨noDuty, noEnable, noMux⟩ := stands k (by omega) b shown
          exact ⟨duty'.trans (if_neg noDuty), enable'.trans (if_neg noEnable), mux'.trans (if_neg noMux)⟩

/-- In every run that begins with an instruction: over any 256 consecutive cycles in which no store
changes the PWM registers or `PIN_MUX`, with the PWM on `uo_out[7]`, that pin is high in exactly
`PWM_DUTY` of them, in all of them if the duty is 255, and in none if the PWM is off. -/
theorem pwm_duty (r : Clocked.Run Top.step) (start : Boundary (r.state 0)) (a : Nat)
    (stands : PwmStands r a 256) (mux : (r.state a).mem.pwm.pinMux = 1#2) :
    ((Finset.range 256).filter fun k => (r.state (a + k)).uoOut.getLsbD 7 = true).card =
      if (r.state a).mem.pwm.pwmEnable = false then 0
      else if (r.state a).mem.pwm.pwmDuty = 0xFF#8 then 256
      else (r.state a).mem.pwm.pwmDuty.toNat := by
  have pin (k : Nat) (within : k ∈ Finset.range 256) : (r.state (a + k)).uoOut.getLsbD 7 = true ↔
      (r.state a).mem.pwm.pwmEnable = true ∧
        ((r.state a).mem.pwm.pwmDuty = 0xFF#8 ∨
          ((r.state a).mem.pwm.pwmCounter.toNat + k) % 256 < (r.state a).mem.pwm.pwmDuty.toNat) := by
    obtain ⟨duty, enable, mux'⟩ := stands.settings start (Finset.mem_range.mp within).le
    rw [uoOut, BitVec.getLsbD_append, if_neg (by decide), uo7Mux, mux', mux, if_pos rfl, Pwm.pwmOut,
      duty, enable, pwmCounter_add, BitVec.ult, BitVec.toNat_add, BitVec.toNat_ofNat]
    simp
  rw [Finset.filter_congr pin]
  have small := (r.state a).mem.pwm.pwmDuty.isLt
  by_cases enable : (r.state a).mem.pwm.pwmEnable = false
  · simp [enable]
  rw [if_neg enable]
  by_cases full : (r.state a).mem.pwm.pwmDuty = 0xFF#8
  · simp [enable, full]
  · rw [if_neg full]
    simp only [full, false_or, show (r.state a).mem.pwm.pwmEnable = true by simpa using enable, true_and]
    exact card_below _ (by omega)

/-- A design that has stopped at an `EBREAK` in RAM, with the PWM on and a quarter duty. -/
def pwmRun : Clocked.Run Top.step :=
  .ofInputs Top.step
    { core := { Core.zeroed.reset with pc := 0xB4#8 }
      mem :=
        { Top.zeroed.mem.reset with
          pwm := { pwmCounter := 7#8, pwmDuty := 64#8, pwmEnable := true, pinMux := 1#2 }
          regs := { Top.zeroed.mem.reset.regs with
            ramWords := (Vector.replicate 12 0#32).set 1 0x00100073#32 (Nat.le_add_left 2 10) } } }
    fun _ => { uiIn := 0, uioIn := 0, undef := 0 }

theorem pwmRun_start : Boundary (pwmRun.state 0) := ⟨rfl, rfl, rfl, Engine.resting_reset _⟩

theorem pwmRun_stands (a n : Nat) : PwmStands pwmRun a n := by
  intro k _ b shown
  have stop : isEbreak (word pwmRun 0) = true := by decide
  have quiet : (pwmRun.state (a + k)).core.memWe = false := by
    rcases Nat.eq_zero_or_pos (a + k) with zero | later
    · rw [zero]
      rfl
    · rcases pwmRun_start.stop_cases stop later with ⟨-, h⟩ | ⟨-, h⟩ | ⟨-, h⟩ | ⟨-, h⟩ <;> rw [h] <;> rfl
  rw [stored, quiet, Bool.and_false, Bool.false_and] at shown
  cases shown

theorem pwm_duty_quarter : ((Finset.range 256).filter fun k =>
    (pwmRun.state (0 + k)).uoOut.getLsbD 7 = true).card = 64 :=
  pwm_duty pwmRun pwmRun_start 0 (pwmRun_stands 0 256) rfl

end Top

end AgilA32
