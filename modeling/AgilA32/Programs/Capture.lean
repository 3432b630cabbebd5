import AgilA32.Clocked.Run
import AgilA32.Clocked.Shift
import AgilA32.Programs.Panel

/-!
# A capture circuit for the display's pins

The circuit with which the testbench of the display driver listens to the port: it shifts in MOSI when
SCK rises while CS is low, and takes DC with the eighth bit.  A display does the same and also drops
the bits of an unfinished byte when CS is high (`framed`).

A port that stands shows the circuit nothing new, so it captures what the writes to the port spell
(`feed`): from a byte boundary, the bytes that are sent (`feed_wire`).
-/

namespace Panel

open Clocked (shiftIn shiftAll)

/-- The registers of the circuit, and what has been captured so far. -/
structure Capture where
  shiftReg : BitVec 8
  bitcnt : BitVec 3
  prevSck : Bool
  captured : List Sent

namespace Capture

def reset : Capture := ⟨0, 0, false, []⟩

/-- A bit that is shifted in. -/
def sample (c : Capture) (w : BitVec 8) : Capture :=
  { c with
    shiftReg := shiftIn c.shiftReg (mosi w)
    bitcnt := c.bitcnt + 1
    captured :=
      if c.bitcnt = 7#3 then c.captured ++ [⟨dc w, shiftIn c.shiftReg (mosi w)⟩] else c.captured }

/-- One clock edge, with the port showing `w`. -/
def step (framed : Bool) (c : Capture) (w : BitVec 8) : Capture :=
  { (if !cs w && !c.prevSck && sck w then c.sample w
    else { c with bitcnt := if framed && cs w then 0 else c.bitcnt }) with
    prevSck := sck w }

/-- After some edges. -/
def feed (framed : Bool) (c : Capture) (ws : List (BitVec 8)) : Capture := ws.foldl (step framed) c

variable {framed : Bool} {c : Capture} {w : BitVec 8}

theorem feed_cons (ws : List (BitVec 8)) :
    feed framed c (w :: ws) = feed framed (step framed c w) ws := rfl

theorem feed_append (ws ws' : List (BitVec 8)) :
    feed framed c (ws ++ ws') = feed framed (feed framed c ws) ws' := List.foldl_append

@[simp] theorem step_prevSck : (step framed c w).prevSck = sck w := rfl

/-- The circuit looks at four pins. -/
theorem step_congr {w' : BitVec 8} (sck' : sck w' = sck w) (mosi' : mosi w' = mosi w)
    (dc' : dc w' = dc w) (cs' : cs w' = cs w) : step framed c w' = step framed c w := by
  simp only [step, sample, sck', mosi', dc', cs']

/-- Nothing happens without a rising edge of SCK. -/
theorem step_still (still : c.prevSck = true ∨ sck w = false) (low : cs w = false) :
    step framed c w = { c with prevSck := sck w } := by
  rw [step, if_neg, low, Bool.and_false]
  · rfl
  · rcases still with prev | level
    · simp [prev]
    · simp [level]

/-- At a rising edge of SCK the circuit samples a bit, while CS is low. -/
theorem step_rise (prev : c.prevSck = false) (level : sck w = true) (low : cs w = false) :
    step framed c w = { c.sample w with prevSck := true } := by
  rw [step, prev, level, low]
  rfl

/-- While CS is high nothing is sampled; a framed circuit drops the bits of an unfinished byte. -/
theorem step_deselected (high : cs w = true) :
    step framed c w = { c with bitcnt := if framed then 0 else c.bitcnt, prevSck := sck w } := by
  rw [step, high, Bool.and_true]
  rfl

/-- A port that stands is sampled once. -/
theorem step_step (c : Capture) (w : BitVec 8) :
    step framed (step framed c w) w = step framed c w := by
  cases level : sck w
  · simp only [step, level, Bool.and_false]
    cases framed && cs w <;> rfl
  · have high : (step framed c w).prevSck = true := level
    cases selected : cs w
    · rw [step_still (.inl high) selected, level, ← high]
    · rw [step_deselected selected, step_deselected selected]
      cases framed <;> rfl

/-! ## The bytes of a stream -/

/-- The two writes of a bit have the circuit sample it once. -/
theorem feed_pulse (b : Bool × Bool) : feed framed c (pulse b) =
    { c.sample (setup b ||| 1) with prevSck := true } := by
  have low : sck (setup b) = false ∧ cs (setup b) = false := by
    obtain ⟨data, bit⟩ := b
    cases data <;> cases bit <;> exact ⟨rfl, rfl⟩
  have high : sck (setup b ||| 1) = true ∧ cs (setup b ||| 1) = false := by
    obtain ⟨data, bit⟩ := b
    cases data <;> cases bit <;> exact ⟨rfl, rfl⟩
  change step framed (step framed c (setup b)) (setup b ||| 1) = _
  rw [step_still (.inr low.1) low.2, low.1, step_rise rfl high.1 high.2]
  rfl

theorem sample_pulse (data bit : Bool) : mosi (setup (data, bit) ||| 1) = bit ∧
    dc (setup (data, bit) ||| 1) = data := by
  cases data <;> cases bit <;> exact ⟨rfl, rfl⟩

variable (framed) in
/-- Bits on the wire that do not complete a byte. -/
theorem feed_bits {k : Nat} (bs : List (Bool × Bool)) (here : c.bitcnt = .ofNat 3 k)
    (fits : k + bs.length ≤ 7) :
    (feed framed c (bs.flatMap pulse)).bitcnt = .ofNat 3 (k + bs.length) ∧
      (feed framed c (bs.flatMap pulse)).captured = c.captured ∧
      (feed framed c (bs.flatMap pulse)).shiftReg = (bs.map Prod.snd).foldl shiftIn c.shiftReg := by
  induction bs generalizing c k with
  | nil => exact ⟨here, rfl, rfl⟩
  | cons b bs ih =>
      rw [List.length_cons] at fits
      have open_ : c.bitcnt ≠ 7#3 := by
        rw [here]
        intro full
        have count : k % 2 ^ 3 = 7 := by simpa using congrArg BitVec.toNat full
        omega
      have first : (feed framed c (pulse b)).bitcnt = .ofNat 3 (k + 1) := by
        rw [feed_pulse]
        exact (congrArg (· + 1) here).trans (BitVec.ofNat_add ..).symm
      obtain ⟨count, captured, register⟩ := ih first (by omega)
      rw [List.flatMap_cons, feed_append, List.length_cons, List.map_cons, List.foldl_cons]
      refine ⟨by rw [count]; congr 1; omega, ?_, ?_⟩
      · rw [captured, feed_pulse]
        exact if_neg open_
      · rw [register, feed_pulse]
        exact congrArg (fun bit => List.foldl shiftIn (shiftIn c.shiftReg bit) _) (sample_pulse b.1 b.2).1

variable (framed) in
/-- The bit that completes a byte has the circuit capture it. -/
theorem feed_last (b : Bool × Bool) (full : c.bitcnt = 7#3) :
    (feed framed c (pulse b)).bitcnt = 0 ∧
      (feed framed c (pulse b)).captured = c.captured ++ [⟨b.1, shiftIn c.shiftReg b.2⟩] := by
  obtain ⟨bit, data⟩ := sample_pulse b.1 b.2
  rw [feed_pulse]
  refine ⟨by rw [sample, full]; rfl, (if_pos full).trans ?_⟩
  rw [bit, data]

variable (framed) in
/-- A byte on the wire, from a byte boundary. -/
theorem feed_byte (s : Sent) (boundary : c.bitcnt = 0) :
    (feed framed c (s.bits.flatMap pulse)).bitcnt = 0 ∧
      (feed framed c (s.bits.flatMap pulse)).captured = c.captured ++ [s] := by
  have cut : s.bits = s.bits.take 7 ++ [(s.data, s.byte.getLsbD 0)] := rfl
  obtain ⟨count, captured, register⟩ := feed_bits framed (k := 0) (s.bits.take 7) boundary le_rfl
  obtain ⟨count', captured'⟩ := feed_last framed (s.data, s.byte.getLsbD 0) count
  have whole : shiftAll c.shiftReg (Clocked.msbFirst s.byte) 8 = s.byte := by
    have byte : (shiftAll c.shiftReg (Clocked.msbFirst s.byte) 8).extractLsb' 0 8 = s.byte :=
      Clocked.extractLsb'_shiftAll _ le_rfl le_rfl fun j _ => by rw [Nat.zero_add]
    rwa [BitVec.extractLsb'_eq_self] at byte
  rw [cut, List.flatMap_append, feed_append, List.flatMap_singleton]
  refine ⟨count', ?_⟩
  rw [captured', captured, register]
  exact congrArg (fun byte => c.captured ++ [Sent.mk s.data byte]) whole

/-- A stream on the wire, from a byte boundary. -/
theorem feed_wire (sent : List Sent) (boundary : c.bitcnt = 0) :
    (feed framed c (wire sent)).bitcnt = 0 ∧
      (feed framed c (wire sent)).captured = c.captured ++ sent := by
  induction sent generalizing c with
  | nil => exact ⟨boundary, (List.append_nil _).symm⟩
  | cons s sent ih =>
      obtain ⟨count, captured⟩ := feed_byte framed s boundary
      obtain ⟨count', captured'⟩ := ih count
      rw [show wire (s :: sent) = s.bits.flatMap pulse ++ wire sent from wire_append [s] sent |>.trans
        (by rw [wire, List.flatMap_singleton]), feed_append]
      exact ⟨count', by rw [captured', captured, List.append_assoc]; rfl⟩

/-- What has been captured stays. -/
theorem captured_prefix (ws : List (BitVec 8)) : c.captured <+: (feed framed c ws).captured := by
  induction ws generalizing c with
  | nil => exact List.prefix_refl _
  | cons w ws ih =>
      refine List.IsPrefix.trans ?_ ih
      unfold step
      split
      · unfold sample
        dsimp only
        split
        · exact List.prefix_append _ _
        · exact List.prefix_refl _
      · exact List.prefix_refl _

variable (framed) in
/-- With bits of an unfinished byte before it, a byte whose last bit is its only one arrives shifted. -/
theorem feed_shifted {k : Nat} (here : c.bitcnt = .ofNat 3 k) (inside : 1 ≤ k ∧ k ≤ 7) (data : Bool)
    (rest : List Sent) : ∃ byte : BitVec 8, byte.getLsbD 0 = false ∧
      c.captured ++ [⟨data, byte⟩] <+: (feed framed c (wire (⟨data, 1⟩ :: rest))).captured := by
  have bits : (Sent.mk data 1).bits = List.replicate 7 (data, false) ++ [(data, true)] := by
    cases data <;> rfl
  have cut : List.replicate 7 (data, false) =
      List.replicate (7 - k) (data, false) ++ [(data, false)] ++ List.replicate (k - 1) (data, false) := by
    rw [← List.replicate_succ', List.replicate_append_replicate]
    congr 1
    omega
  obtain ⟨count, captured, -⟩ := feed_bits framed (List.replicate (7 - k) (data, false)) here
    (by rw [List.length_replicate]; omega)
  rw [List.length_replicate, show k + (7 - k) = 7 by omega] at count
  obtain ⟨-, captured'⟩ := feed_last framed (data, false) count
  rw [captured] at captured'
  refine ⟨shiftIn (feed framed c ((List.replicate (7 - k) (data, false)).flatMap pulse)).shiftReg false,
    Clocked.getLsbD_shiftIn _ _ (by decide), ?_⟩
  change _ ++ [Sent.mk (data, false).1 (shiftIn _ (data, false).2)] <+: _
  rw [← captured', wire, List.flatMap_cons, bits, cut]
  simp only [List.flatMap_append, List.append_assoc, List.flatMap_singleton]
  rw [feed_append, feed_append]
  exact captured_prefix _

end Capture

end Panel
