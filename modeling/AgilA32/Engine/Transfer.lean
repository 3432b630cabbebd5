import AgilA32.Clocked.Run
import AgilA32.Clocked.Shift
import AgilA32.Rtl.Engine

/-!
# A transaction of the serial engine, cycle by cycle

A transaction accepted in cycle `t` shifts bit `k` in the `2 * h` cycles from `t + 1 + 2 * h * k`,
where `h` is the half-period: `bitAt` is the engine within a bit and `nextBit` after it.  Iterated
over the bits, `afterBits` gives the whole transaction in closed form; the request port is not
looked at again before the engine is back in `ST_IDLE`.
-/

namespace AgilA32

namespace Engine

open Clocked (shiftIn shiftAll)

/-! ## One bit -/

/-- The engine at the start of a bit, with half-period `h`. -/
structure BitStart (e : Engine) (h : Nat) : Prop where
  state : e.state = .shiftLo
  div : e.divCnt = 0
  busy : e.reqReady = false
  half : e.halfPeriodR = BitVec.ofNat 8 h
  pos : 0 < h
  bound : h < 256

/-- The engine `j` cycles into the bit that began in `e`. -/
def bitAt (e : Engine) (h j : Nat) : Engine :=
  { e with
    pinSck := if j = 0 then e.pinSck else decide (h < j)
    pinMosi := if j = 0 then e.pinMosi else e.sreg.getLsbD 63
    divCnt := BitVec.ofNat 8 (if j < h then j else j - h)
    state := if j < h then .shiftLo else .shiftHi }

/-- The engine after the bit that began in `e`, with `miso` sampled. -/
def nextBit (e : Engine) (miso : Bool) : Engine :=
  { e with
    pinSck := true, pinMosi := e.sreg.getLsbD 63
    sreg := shiftIn e.sreg miso, divCnt := 0
    bitsDone := if e.bitsDone + 1 = e.nbitsTotal then e.bitsDone else e.bitsDone + 1
    state := if e.bitsDone + 1 = e.nbitsTotal then .done else .shiftLo }

theorem phaseEnds_iff {e : Engine} {h j : Nat} (div : e.divCnt = BitVec.ofNat 8 j)
    (half : e.halfPeriodR = BitVec.ofNat 8 h) (within : j < h) (bound : h < 256) :
    e.phaseEnds = decide (j + 1 = h) := by
  have last : BitVec.ofNat 8 h - 1 = BitVec.ofNat 8 (h - 1) := by
    apply BitVec.eq_of_toNat_eq
    simp [BitVec.toNat_sub]
    omega
  rw [phaseEnds, div, half, last, Bool.eq_iff_iff, beq_iff_eq, decide_eq_true_iff,
    ← BitVec.toNat_inj, BitVec.toNat_ofNat, BitVec.toNat_ofNat]
  omega

section Bit

variable {e : Engine} {h : Nat}

theorem BitStart.bitAt_zero (start : BitStart e h) : e.bitAt h 0 = e := by
  obtain ⟨state, div, -, -, pos, -⟩ := start
  cases e
  simp_all [bitAt]

theorem BitStart.phaseEnds_bitAt (start : BitStart e h) {j : Nat} (within : j < 2 * h) :
    (e.bitAt h j).phaseEnds = decide (j + 1 = h ∨ j + 1 = 2 * h) := by
  have := start.pos
  rw [phaseEnds_iff (e := e.bitAt h j) rfl start.half (by split <;> omega) start.bound,
    decide_eq_decide]
  split <;> omega

theorem BitStart.divCnt_zero (start : BitStart e h) {j : Nat} (low : j < h) :
    (e.bitAt h j).divCnt = 0 ↔ j = 0 := by
  have := start.bound
  simp only [bitAt, if_pos low, ← BitVec.toNat_inj, BitVec.toNat_ofNat]
  simp
  omega

/-- Within a bit, one edge advances by one cycle. -/
theorem BitStart.step_bitAt (start : BitStart e h) {j : Nat} (within : j + 1 < 2 * h)
    (i : EngineIn) : (e.bitAt h j).step i = e.bitAt h (j + 1) := by
  have ends := start.phaseEnds_bitAt (j := j) (by omega)
  have succ (n : Nat) : BitVec.ofNat 8 n + 1 = BitVec.ofNat 8 (n + 1) := by
    rw [BitVec.ofNat_add]; rfl
  rcases Nat.lt_or_ge j h with low | high
  · have state : (e.bitAt h j).state = .shiftLo := by simp [bitAt, low]
    have first := start.divCnt_zero low
    have sck : decide (h < j + 1) = false := by simp; omega
    have mosi (a b : Bool) : (if j = 0 then a else if j = 0 then b else a) = a := by
      split <;> rfl
    simp only [step, state, stepLo, ends, first]
    simp only [bitAt, start.busy, sck, low, Nat.succ_ne_zero, if_true, if_false, mosi, succ]
    by_cases last : j + 1 = h
    · simp [last]
    · simp [last, show j + 1 < h by omega, show ¬ j + 1 = 2 * h by omega]
  · have state : (e.bitAt h j).state = .shiftHi := by simp [bitAt]; omega
    have last : (e.bitAt h j).phaseEnds = false := by rw [ends]; simp; omega
    have sck : decide (h < j + 1) = true := by simp; omega
    have after : ¬ j + 1 < h := by omega
    have before : ¬ j < h := by omega
    have nonzero : j ≠ 0 := by have := start.pos; omega
    simp only [step, state, stepHi, last]
    simp only [bitAt, start.busy, sck, after, before, nonzero, Nat.succ_ne_zero, if_false, succ,
      show j - h + 1 = j + 1 - h by omega, Bool.false_eq_true]

/-- The edge that ends a bit samples MISO. -/
theorem BitStart.step_last (start : BitStart e h) (i : EngineIn) :
    (e.bitAt h (2 * h - 1)).step i = e.nextBit i.miso := by
  have := start.pos
  have ends := start.phaseEnds_bitAt (j := 2 * h - 1) (by omega)
  have last : (e.bitAt h (2 * h - 1)).phaseEnds = true := by rw [ends]; simp; omega
  have state : (e.bitAt h (2 * h - 1)).state = .shiftHi := by simp [bitAt]; omega
  have nonzero : 2 * h - 1 ≠ 0 := by omega
  simp only [step, state, stepHi, last]
  simp only [bitAt, nextBit, shiftIn, start.busy, nonzero, if_false, if_true]

variable {r : Clocked.Run Engine.step} {a : Nat}

theorem BitStart.state_at (start : BitStart e h) (here : r.state a = e) :
    ∀ j, j < 2 * h → r.state (a + j) = e.bitAt h j := by
  have := start.pos
  intro j within
  exact r.count (n := 2 * h - 1) (e.bitAt h) (here.trans start.bitAt_zero.symm)
    (fun k before _ => start.step_bitAt (by omega) _) j (by omega)

theorem BitStart.next_at (start : BitStart e h) (here : r.state a = e) :
    r.state (a + 2 * h) = e.nextBit (r.input (a + (2 * h - 1))).miso := by
  have := start.pos
  rw [show a + 2 * h = a + (2 * h - 1) + 1 by omega, r.edge,
    start.state_at here _ (by omega), start.step_last]

end Bit

/-! ## All bits -/

/-- The engine after `k` of the `n` bits of a transaction that began in `e`, with the MISO values
`s` sampled so far. -/
def afterBits (e : Engine) (n : Nat) (s : Nat → Bool) (k : Nat) : Engine :=
  { e with
    pinSck := if k = 0 then e.pinSck else true
    pinMosi := if k = 0 then e.pinMosi else (shiftAll (w := 63) e.sreg s (k - 1)).getLsbD 63
    sreg := shiftAll (w := 63) e.sreg s k
    bitsDone := BitVec.ofNat 7 (if k = n then k - 1 else k)
    state := if k = n then .done else .shiftLo }

/-- A transaction of `n` bits about to shift its first. -/
structure Shifting (e : Engine) (h n : Nat) : Prop extends BitStart e h where
  total : e.nbitsTotal = BitVec.ofNat 7 n
  fresh : e.bitsDone = 0
  some : 0 < n
  room : n < 128

section Bits

variable {e : Engine} {h n : Nat} (s : Nat → Bool)

theorem Shifting.afterBits_zero (start : Shifting e h n) : e.afterBits n s 0 = e := by
  obtain ⟨⟨state, -, -, -, -, -⟩, -, fresh, pos, -⟩ := start
  have : 0 ≠ n := by omega
  cases e
  simp_all [afterBits]

theorem Shifting.bitStart (start : Shifting e h n) {k : Nat} (before : k < n) :
    BitStart (e.afterBits n s k) h where
  state := by simp only [afterBits]; rw [if_neg (by omega)]
  div := start.div
  busy := start.busy
  half := start.half
  pos := start.pos
  bound := start.bound

theorem Shifting.nextBit_afterBits (start : Shifting e h n) {k : Nat} (before : k < n) :
    (e.afterBits n s k).nextBit (s k) = e.afterBits n s (k + 1) := by
  have room := start.room
  have succ : BitVec.ofNat 7 k + 1 = BitVec.ofNat 7 (k + 1) := by rw [BitVec.ofNat_add]; rfl
  have last : BitVec.ofNat 7 (k + 1) = BitVec.ofNat 7 n ↔ k + 1 = n := by
    rw [← BitVec.toNat_inj, BitVec.toNat_ofNat, BitVec.toNat_ofNat]
    omega
  have div := start.div
  have ne : k ≠ n := by omega
  simp only [nextBit, afterBits, start.total, if_neg ne, succ, last, Nat.succ_ne_zero, if_false,
    Nat.add_sub_cancel, Clocked.shiftAll_succ, div]
  by_cases final : k + 1 = n <;> simp [final]

variable {s} {r : Clocked.Run Engine.step} {a : Nat}

/-- A transaction of `n` bits from cycle `a`: its bit `k` begins at `a + 2 * h * k`, and its MISO is
sampled in the last cycle before the next bit. -/
theorem Shifting.bits_at (start : Shifting e h n) (here : r.state a = e)
    (sampled : ∀ k, k < n → (r.input (a + 2 * h * k + (2 * h - 1))).miso = s k) :
    ∀ k, k ≤ n → r.state (a + 2 * h * k) = e.afterBits n s k := by
  intro k within
  induction k with
  | zero => rw [start.afterBits_zero s]; exact here
  | succ k ih =>
      have next := (start.bitStart s (k := k) within).next_at (ih (by omega))
      rw [show a + 2 * h * (k + 1) = a + 2 * h * k + 2 * h by rw [Nat.mul_succ]; omega, next,
        sampled k within, start.nextBit_afterBits s within]

/-- Every cycle of the transaction in closed form. -/
theorem Shifting.cycle_at (start : Shifting e h n) (here : r.state a = e)
    (sampled : ∀ k, k < n → (r.input (a + 2 * h * k + (2 * h - 1))).miso = s k) {k j : Nat}
    (before : k < n) (within : j < 2 * h) :
    r.state (a + 2 * h * k + j) = (e.afterBits n s k).bitAt h j :=
  (start.bitStart s before).state_at (start.bits_at here sampled k (by omega)) j within

end Bits

/-! ## A whole transaction -/

/-- Between transactions: idle, nothing announced, every chip deselected, SCK low. -/
structure Resting (e : Engine) : Prop where
  idle : e.state = .idle
  quiet : e.reqReady = false
  cs0 : e.pinCs0 = true
  cs1 : e.pinCs1 = true
  cs2 : e.pinCs2 = true
  sck : e.pinSck = false

theorem resting_reset (e : Engine) : Resting e.reset := ⟨rfl, rfl, rfl, rfl, rfl, rfl⟩

/-- Without a request the engine rests. -/
theorem Resting.step {e : Engine} (rest : Resting e) {i : EngineIn} (none : i.req.valid = false) :
    e.step i = e := by
  obtain ⟨idle, quiet, -, -, -, sck⟩ := rest
  cases e
  simp_all [Engine.step]

end Engine

/-- The number of bytes of an access of the given `mem_size`. -/
def sizeBytes (size : BitVec 2) : Nat :=
  match size with
  | 0#2 => 1
  | 1#2 => 2
  | _ => 4

namespace Request

open Clocked (shiftAll)

/-- The half-period and the number of bits of the transaction a request asks for. -/
def half (q : Request) : Nat := (Engine.halfPeriodFor q.divSel).toNat
def bits (q : Request) : Nat := (Engine.nbitsFor q).toNat

/-- The number of cycles from the one in which the request is accepted to the one in which
`req_ready` is high. -/
def delay (q : Request) : Nat := 2 + 2 * q.half * q.bits

/-- What `req_rdata` holds after a transaction that sampled `s`. -/
def received (q : Request) (s : Nat → Bool) : BitVec 32 :=
  Engine.readData (Engine.dataBitsFor q)
    (shiftAll (w := 63) (Engine.preloadFor q) s q.bits)

theorem half_pos (q : Request) : 0 < q.half := by
  unfold half Engine.halfPeriodFor; split <;> decide

theorem half_bound (q : Request) : q.half ≤ 64 := by
  unfold half Engine.halfPeriodFor; split <;> decide

theorem bits_cases (q : Request) :
    q.dev = 0#2 ∧ q.bits = 8 ∨
    q.dev ≠ 0#2 ∧ q.size = 0#2 ∧ q.bits = 40 ∨
    q.dev ≠ 0#2 ∧ q.size = 1#2 ∧ q.bits = 48 ∨
    q.dev ≠ 0#2 ∧ q.size ≠ 0#2 ∧ q.size ≠ 1#2 ∧ q.bits = 64 := by
  unfold bits Engine.nbitsFor
  by_cases dev : q.dev = 0#2
  · exact .inl ⟨dev, by simp [dev]⟩
  · by_cases byte : q.size = 0#2
    · exact .inr (.inl ⟨dev, byte, by simp [dev, byte]⟩)
    · by_cases half : q.size = 1#2
      · exact .inr (.inr (.inl ⟨dev, half, by simp [dev, half]⟩))
      · exact .inr (.inr (.inr ⟨dev, byte, half, by simp [dev, byte, half]⟩))

theorem bits_pos (q : Request) : 0 < q.bits := by
  rcases q.bits_cases with h | h | h | h <;> omega

theorem bits_le (q : Request) : q.bits ≤ 64 := by
  rcases q.bits_cases with h | h | h | h <;> omega

end Request

namespace Engine

theorem accept_shifting (e : Engine) (q : Request) : Shifting (e.accept q) q.half q.bits where
  state := rfl
  div := rfl
  busy := rfl
  half := by simp [accept, Request.half]
  pos := q.half_pos
  bound := by have := q.half_bound; omega
  total := by simp [accept, Request.bits]
  fresh := rfl
  some := q.bits_pos
  room := by have := q.bits_le; omega

/-- An offset into the shift cycles is a cycle of a bit. -/
theorem exists_bit {h n u : Nat} (before : u < 2 * h * n) :
    ∃ k j, k < n ∧ j < 2 * h ∧ u = 2 * h * k + j := by
  have pos : 0 < 2 * h := Nat.pos_of_mul_pos_right (Nat.lt_of_le_of_lt (Nat.zero_le u) before)
  exact ⟨u / (2 * h), u % (2 * h), Nat.div_lt_of_lt_mul before, Nat.mod_lt _ pos,
    (Nat.div_add_mod u (2 * h)).symm⟩

section Transaction

variable {r : Clocked.Run Engine.step} {t : Nat} {e : Engine} {q : Request}

/-- The request accepted in cycle `t` of a run. -/
structure Accepts (r : Clocked.Run Engine.step) (t : Nat) (e : Engine) (q : Request) : Prop where
  here : r.state t = e
  idle : e.state = .idle
  req : (r.input t).req = q
  valid : q.valid = true

/-- The MISO values the transaction accepted in cycle `t` samples. -/
def samples (r : Clocked.Run Engine.step) (t : Nat) (q : Request) (k : Nat) : Bool :=
  (r.input (t + 1 + 2 * q.half * k + (2 * q.half - 1))).miso

namespace Accepts

theorem accepted (start : Accepts r t e q) : r.state (t + 1) = e.accept q := by
  rw [r.edge, start.here, step, start.idle]
  simp [start.req, start.valid]

theorem bits_at (start : Accepts r t e q) {k : Nat} (within : k ≤ q.bits) :
    r.state (t + 1 + 2 * q.half * k) = (e.accept q).afterBits q.bits (samples r t q) k :=
  (accept_shifting e q).bits_at start.accepted (fun _ _ => rfl) k within

theorem cycle_at (start : Accepts r t e q) {k j : Nat} (before : k < q.bits)
    (within : j < 2 * q.half) :
    r.state (t + 1 + 2 * q.half * k + j) =
      ((e.accept q).afterBits q.bits (samples r t q) k).bitAt q.half j :=
  (accept_shifting e q).cycle_at start.accepted (fun _ _ => rfl) before within

theorem done_at (start : Accepts r t e q) :
    r.state (t + 1 + 2 * q.half * q.bits) =
      (e.accept q).afterBits q.bits (samples r t q) q.bits :=
  start.bits_at le_rfl

theorem post_at (start : Accepts r t e q) :
    r.state (t + q.delay) = ((e.accept q).afterBits q.bits (samples r t q) q.bits).stepDone := by
  have state : ((e.accept q).afterBits q.bits (samples r t q) q.bits).state = .done := by
    simp [afterBits]
  rw [Request.delay, show t + (2 + 2 * q.half * q.bits) = t + 1 + 2 * q.half * q.bits + 1 by omega,
    r.edge, start.done_at, step, state]

/-- `req_ready` pulses when the transaction is over, and `req_rdata` holds what it received. -/
theorem ready_at (start : Accepts r t e q) :
    (r.state (t + q.delay)).state = .post ∧ (r.state (t + q.delay)).reqReady = true ∧
      (r.state (t + q.delay)).reqRdata = q.received (samples r t q) := by
  rw [start.post_at]
  exact ⟨rfl, rfl, rfl⟩

theorem busy_at (start : Accepts r t e q) {u : Nat} (after : t < u) (before : u < t + q.delay) :
    (r.state u).reqReady = false ∧ (r.state u).state ≠ .idle := by
  obtain ⟨d, rfl⟩ := Nat.exists_eq_add_of_le (show t + 1 ≤ u by omega)
  unfold Request.delay at before
  rcases Nat.lt_or_ge d (2 * q.half * q.bits) with shifting | done
  · obtain ⟨k, j, bitBefore, within, rfl⟩ := exists_bit shifting
    rw [← Nat.add_assoc, start.cycle_at bitBefore within]
    refine ⟨rfl, ?_⟩
    simp only [bitAt]
    split <;> simp
  · obtain rfl : d = 2 * q.half * q.bits := by omega
    rw [start.done_at]
    exact ⟨rfl, by simp [afterBits]⟩

/-- One cycle after `req_ready` the engine rests again, and still holds the received data. -/
theorem rest_at (start : Accepts r t e q) :
    Resting (r.state (t + q.delay + 1)) ∧
      (r.state (t + q.delay + 1)).reqRdata = q.received (samples r t q) := by
  rw [r.edge, start.post_at]
  exact ⟨⟨rfl, rfl, rfl, rfl, rfl, rfl⟩, rfl⟩

end Accepts

end Transaction

end Engine

end AgilA32
