import AgilA32.Boot.Listen

/-!
# Receiving a byte

The host's side of the wire (`Sends`): CLOCK and DATA on the pins, every phase of CLOCK at least 128
cycles long.  The ROM polls CLOCK every 21 cycles, so it sees each phase within 21 cycles of its
beginning (`wait`); a bit is taken in and the next one waited for well before CLOCK rises again
(`recvBit`), and eight bits make a byte (`recvByte`).
-/

namespace AgilA32

namespace Boot

open Clocked (msbFirst shiftAll shiftIn spell)
open AgilA32.Core (readReg writeReg)
open AgilA32.Top (Arch At)

/-! ## The host -/

/-- DATA and CLOCK in a cycle. -/
def data (r : Clocked.Run Top.step) (u : Nat) : Bool := (r.input u).uiIn.getLsbD 0
def clock (r : Clocked.Run Top.step) (u : Nat) : Bool := (r.input u).uiIn.getLsbD 1

/-- The host sends the first `n` bits of `bit`.  CLOCK is low from cycle `low k` to `rise k` and high
from `rise k` to `low (k + 1)`; each phase lasts at least 128 cycles, and DATA is bit `k` throughout
the `k`-th high phase. -/
structure Sends (r : Clocked.Run Top.step) (low rise : Nat → Nat) (bit : Nat → Bool)
    (n : Nat) : Prop where
  low_long : ∀ k, k ≤ n → low k + 128 ≤ rise k
  high_long : ∀ k, k < n → rise k + 128 ≤ low (k + 1)
  clock_low : ∀ k, k ≤ n → ∀ u, low k ≤ u → u < rise k → clock r u = false
  clock_high : ∀ k, k < n → ∀ u, rise k ≤ u → u < low (k + 1) → clock r u = true
  stable : ∀ k, k < n → ∀ u, rise k ≤ u → u < low (k + 1) → data r u = bit k

theorem mask_clock : ∀ v : BitVec 8,
    Rv32i.BranchOp.beq.taken (v.setWidth 32 &&& 2#32) 0#32 = !v.getLsbD 1 ∧
      Rv32i.BranchOp.bne.taken (v.setWidth 32 &&& 2#32) 0#32 = v.getLsbD 1 ∧
      Rv32i.BranchOp.beq.taken (v.setWidth 32 &&& 1#32) 0#32 = !v.getLsbD 0 := by
  decide +kernel

/-! ## The polling loops -/

/-- Registers other than `x2` and `x3` are as they were. -/
def Keeps (x x' : RegFile) : Prop := ∀ i : BitVec 5, i ≠ 2#5 → i ≠ 3#5 → readReg x' i = readReg x i

theorem Keeps.refl (x : RegFile) : Keeps x x := fun _ _ _ => rfl

theorem Keeps.trans {x x' x'' : RegFile} (first : Keeps x x') (second : Keeps x' x'') :
    Keeps x x'' := fun i two three => (second i two three).trans (first i two three)

theorem Keeps.write {x : RegFile} {i : BitVec 5} (scratch : i = 2#5 ∨ i = 3#5) (v : BitVec 32) :
    Keeps x (writeReg x i v) := by
  intro j two three
  rw [Core.readReg_writeReg, if_neg]
  rintro ⟨rfl, -⟩
  exact scratch.elim two three

section Poll

variable {r : Clocked.Run Top.step} {t t' : Nat} {x : RegFile} {m : MemRegs} {σ : Settings}
  {log : Log}

/-- A poll outside the listen loop loads the pins into `x2` in seven cycles, and logs nothing. -/
theorem poll_clock {k : Nat} (s : Leads r t t' ⟨romAddr k, x, m, σ⟩ log) (other : k ≠ 7)
    (listed : listing[k]? = some (.load .lw 2 0 0xF4)) (target : romAddr k + 4 = romAddr (k + 1)) :
    Leads r t (t' + 7) ⟨romAddr (k + 1), writeReg x 2 (gpio r (t' + 6)), m, σ⟩ log := by
  have next := s.poll k rfl listed target
  rw [if_neg other] at next
  exact (Log.append_empty log) ▸ next

/-- One turn of `BIT_WAIT_HIGH` takes 21 cycles and leaves the loop if the clock is high. -/
theorem turn_high (s : Leads r t t' ⟨romAddr 30, x, m, σ⟩ log) :
    ∃ x', Leads r t (t' + 21)
        ⟨if clock r (t' + 6) = true then romAddr 33 else romAddr 30, x', m, σ⟩ log ∧
      Keeps x x' ∧ readReg x' 2 = gpio r (t' + 6) := by
  have s1 := poll_clock s (by decide) rfl rfl
  have s2 : Leads r t (t' + 14) ⟨romAddr 32, writeReg (writeReg x 2 (gpio r (t' + 6))) 3
      (gpio r (t' + 6) &&& 2), m, σ⟩ log :=
    s1.plain 31 rfl rfl (by simp) rfl (fun _ => rfl) (fun _ => rfl)
  refine ⟨_, s2.branch 32 (!clock r (t' + 6)) rfl rfl (mask_clock _).1 ?_, ?_, by simp⟩
  · cases clock r (t' + 6) <;> rfl
  · exact (Keeps.write (.inl rfl) _).trans (Keeps.write (.inr rfl) _)

/-- One turn of `BIT_WAIT_LOW` takes 21 cycles and leaves the loop if the clock is low. -/
theorem turn_low (s : Leads r t t' ⟨romAddr 37, x, m, σ⟩ log) :
    ∃ x', Leads r t (t' + 21)
        ⟨if clock r (t' + 6) = false then romAddr 40 else romAddr 37, x', m, σ⟩ log ∧
      Keeps x x' := by
  have s1 := poll_clock s (by decide) rfl rfl
  have s2 : Leads r t (t' + 14) ⟨romAddr 39, writeReg (writeReg x 2 (gpio r (t' + 6))) 2
      (gpio r (t' + 6) &&& 2), m, σ⟩ log :=
    s1.plain 38 rfl rfl (by simp) rfl (fun _ => rfl) (fun _ => rfl)
  refine ⟨_, s2.branch 39 (clock r (t' + 6)) rfl rfl (mask_clock _).2.1 ?_, ?_⟩
  · cases clock r (t' + 6) <;> rfl
  · exact (Keeps.write (.inl rfl) _).trans (Keeps.write (.inl rfl) _)

/-- A loop that polls CLOCK every 21 cycles leaves with the first poll of a phase that begins in
cycle `e`, no later than 20 cycles into it. -/
theorem wait {k : Nat} {b : Bool} {Q : Nat → RegFile → Prop} {e : Nat}
    (turn : ∀ t' x, Leads r t t' ⟨romAddr k, x, m, σ⟩ log →
      ∃ x', Leads r t (t' + 21)
          ⟨if clock r (t' + 6) = b then romAddr (k + 3) else romAddr k, x', m, σ⟩ log ∧
        Keeps x x' ∧ Q (t' + 6) x')
    (s : Leads r t t' ⟨romAddr k, x, m, σ⟩ log) (near : t' + 6 < e + 21)
    (early : ∀ u, t' + 6 ≤ u → u < e → clock r u = !b)
    (late : ∀ u, e ≤ u → u < e + 21 → clock r u = b) :
    ∃ p x', e ≤ p ∧ p < e + 21 ∧ Leads r t (p + 15) ⟨romAddr (k + 3), x', m, σ⟩ log ∧
      Keeps x x' ∧ Q p x' := by
  induction left : e + 21 - t' using Nat.strongRecOn generalizing t' x with
  | ind n ih =>
      obtain ⟨x', next, keeps, saw⟩ := turn t' x s
      rcases Nat.lt_or_ge (t' + 6) e with before | reached
      · rw [early _ le_rfl before, if_neg (by cases b <;> decide)] at next
        obtain ⟨p, x'', after, upto, leaves, keeps', saw'⟩ :=
          ih (e + 21 - (t' + 21)) (by omega) next (by omega)
            (fun u from_ => early u (by omega)) rfl
        exact ⟨p, x'', after, upto, leaves, keeps.trans keeps', saw'⟩
      · rw [late _ reached near, if_pos rfl] at next
        exact ⟨t' + 6, x', reached, near, next, keeps, saw⟩

/-! ## One bit -/

/-- The registers while a byte is received: `j` bits of `bit` have been shifted into `x6` and are
counted in `x7`; otherwise only `x2` and `x3` differ from `x₀`. -/
structure Receiving (x₀ x : RegFile) (bit : Nat → Bool) (j : Nat) : Prop where
  value : readReg x 6 = shiftAll (w := 31) 0 bit j
  count : readReg x 7 = BitVec.ofNat 32 j
  others : ∀ i : BitVec 5, i ≠ 2#5 → i ≠ 3#5 → i ≠ 6#5 → i ≠ 7#5 → readReg x i = readReg x₀ i

theorem Receiving.keeps {x₀ x x' : RegFile} {bit : Nat → Bool} {j : Nat}
    (here : Receiving x₀ x bit j) (keeps : Keeps x x') : Receiving x₀ x' bit j where
  value := (keeps 6 (by decide) (by decide)).trans here.value
  count := (keeps 7 (by decide) (by decide)).trans here.count
  others i two three six seven := (keeps i two three).trans (here.others i two three six seven)

/-- A bit is shifted in by `SLLI` and, if it is set, `ORI`. -/
theorem shiftIn_eq (y : BitVec 32) (b : Bool) :
    shiftIn (w := 31) y b = if b then y <<< 1 ||| 1#32 else y <<< 1 := by
  refine BitVec.eq_of_getLsbD_eq fun i within => ?_
  rw [Clocked.getLsbD_shiftIn y b within]
  rcases i with _ | i
  · cases b <;> simp
  · cases b <;> simp [within, BitVec.getLsbD_eq_getElem (show i < 32 by omega)]

/-- The four instructions that take in DATA. -/
theorem take_bit {p : Nat} {x₀ : RegFile} {bit : Nat → Bool} {j : Nat}
    (s : Leads r t (p + 15) ⟨romAddr 33, x, m, σ⟩ log) (here : Receiving x₀ x bit j)
    (sampled : readReg x 2 = gpio r p) (shown : data r p = bit j) :
    ∃ d x', 36 ≤ d ∧ d ≤ 43 ∧ Leads r t (p + d) ⟨romAddr 37, x', m, σ⟩ log ∧
      readReg x' 6 = shiftAll (w := 31) 0 bit (j + 1) ∧ readReg x' 7 = BitVec.ofNat 32 j ∧
      ∀ i : BitVec 5, i ≠ 2#5 → i ≠ 3#5 → i ≠ 6#5 → i ≠ 7#5 → readReg x' i = readReg x₀ i := by
  have s1 : Leads r t (p + 22) ⟨romAddr 34, writeReg x 2 (gpio r p &&& 1), m, σ⟩ log :=
    s.plain 33 rfl rfl (by simp) rfl (fun _ => rfl) fun _ => by rw [← sampled]; rfl
  have value : readReg (writeReg x 2 (gpio r p &&& 1)) 6 = shiftAll (w := 31) 0 bit j := by
    rw [← here.value]; simp
  have s2 : Leads r t (p + 29) ⟨romAddr 35, writeReg (writeReg x 2 (gpio r p &&& 1)) 6
      (shiftAll (w := 31) 0 bit j <<< 1), m, σ⟩ log :=
    s1.plain 34 rfl rfl (by simp) rfl (fun _ => rfl) fun _ => by rw [← value]; rfl
  have s3 : Leads r t (p + 36) ⟨if data r p then romAddr 36 else romAddr 37, _, m, σ⟩ log :=
    s2.branch 35 (!data r p) rfl rfl (mask_clock _).2.2
      (by cases data r p <;> rfl)
  have others (v w : BitVec 32) (i : BitVec 5) (two : i ≠ 2#5) (three : i ≠ 3#5) (six : i ≠ 6#5)
      (seven : i ≠ 7#5) : readReg (writeReg (writeReg x 2 v) 6 w) i = readReg x₀ i := by
    rw [← here.others i two three six seven]
    simp [two, six]
  rw [Clocked.shiftAll_succ, shiftIn_eq, ← shown]
  cases one : data r p
  · rw [one] at s3
    exact ⟨36, _, le_rfl, by omega, s3, by simp, by simpa using here.count, others _ _⟩
  · rw [one] at s3
    generalize hx : writeReg (writeReg x 2 (gpio r p &&& 1)) 6
      (shiftAll (w := 31) 0 bit j <<< 1) = x₁ at s3
    have so_far : readReg x₁ 6 = shiftAll (w := 31) 0 bit j <<< 1 := by rw [← hx]; simp
    have s4 : Leads r t (p + 43) ⟨romAddr 37, writeReg x₁ 6
        (shiftAll (w := 31) 0 bit j <<< 1 ||| 1#32), m, σ⟩ log :=
      s3.plain 36 rfl rfl (by simp) rfl (fun _ => rfl) fun _ =>
        congrArg (fun v => writeReg x₁ 6 (v ||| 1#32)) so_far
    rw [← hx] at s4
    refine ⟨43, _, by omega, le_rfl, s4, by simp, by simpa using here.count,
      fun i two three six seven => ?_⟩
    rw [Core.readReg_writeReg, if_neg fun h => six h.1]
    exact others _ _ i two three six seven

variable {low rise : Nat → Nat} {bit : Nat → Bool} {n k : Nat}

/-- From a poll in the low phase before bit `k + j` to the first poll in the low phase after it. -/
theorem recvBit (host : Sends r low rise bit n) {j : Nat} (more : j < 8) (within : k + j < n)
    {x₀ : RegFile} (s : Leads r t t' ⟨romAddr 30, x, m, σ⟩ log)
    (here : Receiving x₀ x (fun i => bit (k + i)) j)
    (after : low (k + j) ≤ t' + 6) (before : t' + 6 < rise (k + j)) :
    ∃ c x', low (k + j + 1) ≤ c ∧ c < low (k + j + 1) + 21 ∧
      Leads r t (c + 36) ⟨if j + 1 < 8 then romAddr 30 else romAddr 43, x', m, σ⟩ log ∧
      Receiving x₀ x' (fun i => bit (k + i)) (j + 1) := by
  have high := host.high_long (k + j) within
  have next := host.low_long (k + j + 1) within
  obtain ⟨p, x₁, reached, soon, s1, keeps, sampled⟩ := wait (b := true) (e := rise (k + j))
    (Q := fun p x => readReg x 2 = gpio r p) (fun _ _ => turn_high) s (by omega)
    (fun u from_ => host.clock_low (k + j) within.le u (by omega))
    (fun u from_ upto => host.clock_high (k + j) within u from_ (by omega))
  obtain ⟨d, x₂, atLeast, atMost, s2, value, count, others⟩ := take_bit s1 (here.keeps keeps)
    sampled (host.stable _ within p reached (by omega))
  obtain ⟨c, x₃, reached', soon', s3, keeps', -⟩ := wait (b := false)
    (e := low (k + j + 1)) (Q := fun _ _ => True)
    (fun _ _ h => let ⟨x', h⟩ := turn_low h; ⟨x', h.1, h.2, trivial⟩) s2 (by omega)
    (fun u from_ => host.clock_high (k + j) within u (by omega))
    (fun u from_ upto => host.clock_low (k + j + 1) within u from_ (by omega))
  refine ⟨c, writeReg (writeReg x₃ 7 (BitVec.ofNat 32 (j + 1))) 3 8, reached', soon', ?_, ?_⟩
  · have counted : readReg x₃ 7 = BitVec.ofNat 32 j :=
      (keeps' 7 (by decide) (by decide)).trans count
    have s4 : Leads r t (c + 22) ⟨romAddr 41, writeReg x₃ 7 (BitVec.ofNat 32 (j + 1)), m, σ⟩ log :=
      s3.plain 40 rfl rfl (by simp) rfl (fun _ => rfl) fun _ => by
        rw [BitVec.ofNat_add, ← counted]; rfl
    have s5 : Leads r t (c + 29)
        ⟨romAddr 42, writeReg (writeReg x₃ 7 (BitVec.ofNat 32 (j + 1))) 3 8, m, σ⟩ log :=
      s4.plain 41 rfl rfl (by simp) rfl (fun _ => rfl) (fun _ => rfl)
    have again : Rv32i.BranchOp.blt.taken (BitVec.ofNat 32 (j + 1)) 8#32 = decide (j + 1 < 8) := by
      interval_cases j <;> rfl
    exact s5.branch 42 (decide (j + 1 < 8)) rfl rfl (by simpa using again)
      (by by_cases last : j + 1 < 8 <;> simp [last] <;> rfl)
  · refine ⟨?_, by simp, fun i two three six seven => ?_⟩
    · rw [← value, ← keeps' 6 (by decide) (by decide)]
      simp
    · rw [← others i two three six seven, ← keeps' i two three]
      simp [three, seven]

/-- `RECV_BYTE`, called in the low phase before bit `k`, returns the byte that the next eight bits
spell. -/
theorem recvByte (host : Sends r low rise bit n) (within : k + 8 ≤ n) {p : BitVec 8}
    (s : Leads r t t' ⟨romAddr 28, x, m, σ⟩ log)
    (return_to : ((readReg x 1 + 0#32) &&& ~~~1#32).setWidth 8 = p)
    (after : low k ≤ t' + 20) (before : t' + 20 < rise k) :
    ∃ c x', low (k + 8) ≤ c ∧ c < low (k + 8) + 21 ∧ Leads r t (c + 43) ⟨p, x', m, σ⟩ log ∧
      readReg x' 6 = (spell bit k).setWidth 32 ∧
      ∀ i : BitVec 5, i ≠ 2#5 → i ≠ 3#5 → i ≠ 6#5 → i ≠ 7#5 → readReg x' i = readReg x i := by
  have s1 : Leads r t (t' + 7) ⟨romAddr 29, writeReg x 6 0, m, σ⟩ log :=
    s.plain 28 rfl rfl (by simp) rfl (fun _ => rfl) (fun _ => rfl)
  have s2 : Leads r t (t' + 14) ⟨romAddr 30, writeReg (writeReg x 6 0) 7 0, m, σ⟩ log :=
    s1.plain 29 rfl rfl (by simp) rfl (fun _ => rfl) (fun _ => rfl)
  have first : Receiving x (writeReg (writeReg x 6 0) 7 0) (fun i => bit (k + i)) 0 :=
    ⟨by simp, by simp, fun i two three six seven => by simp [six, seven]⟩
  have bits (j : Nat) (upto : j < 8) :
      ∃ c x', low (k + j + 1) ≤ c ∧ c < low (k + j + 1) + 21 ∧
        Leads r t (c + 36) ⟨if j + 1 < 8 then romAddr 30 else romAddr 43, x', m, σ⟩ log ∧
        Receiving x x' (fun i => bit (k + i)) (j + 1) := by
    induction j with
    | zero => exact recvBit host upto (by omega) s2 first after before
    | succ j ih =>
        obtain ⟨c, x', reached, soon, s3, here⟩ := ih (by omega)
        rw [if_pos upto] at s3
        rw [Nat.add_assoc k j 1] at reached soon
        have next := host.low_long (k + (j + 1)) (by omega)
        exact recvBit host upto (by omega) s3 here (by omega) (by omega)
  obtain ⟨c, x', reached, soon, s3, here⟩ := bits 7 (by decide)
  rw [if_neg (by decide)] at s3
  refine ⟨c, x', reached, soon, ?_, ?_, here.others⟩
  · refine s3.plain 43 rfl rfl (by simp) rfl (fun _ => ?_) (fun _ => rfl)
    rw [← return_to, ← here.others 1 (by decide) (by decide) (by decide) (by decide)]
    rfl
  · rw [here.value]
    refine BitVec.eq_of_getLsbD_eq fun i small => ?_
    rw [Clocked.getLsbD_shiftAll _ _ _ small, BitVec.getLsbD_setWidth, spell]
    by_cases low : i < 8
    · rw [if_pos low, Clocked.getLsbD_shiftAll _ _ _ low, if_pos low]
      simp [small]
    · rw [if_neg low, BitVec.getLsbD_of_ge _ i (by omega)]
      simp

end Poll

end Boot

end AgilA32
