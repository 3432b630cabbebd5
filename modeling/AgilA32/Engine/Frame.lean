import AgilA32.Engine.Wave

/-!
# The frame of a transaction

What a transaction puts on the pins, bit by bit and cycle by cycle (`transaction_exact`): the frame
`Request.frame`, command, address and data, each byte most significant bit first, under a clock
whose phases all last the half-period that the divider named when the request was accepted.
-/

namespace AgilA32

open Clocked (spell msbFirst)
open Verilog (byteAt)

/-! ## What a request puts on MOSI -/

theorem spell_msb (x : BitVec 64) {k : Nat} (within : k ≤ 56) :
    spell (fun j => x.getLsbD (63 - j)) k = x.extractLsb' (56 - k) 8 := by
  rw [Clocked.spell_eq_iff]
  intro j small
  rw [msbFirst, BitVec.getLsbD_extractLsb', show 56 - k + (7 - j) = 63 - (k + j) by omega]
  simp
  omega

namespace Request

/-- The command byte of a request to a flash or PSRAM chip. -/
def command (q : Request) : BitVec 8 := if q.we then Engine.cmdWrite else Engine.cmdRead

/-- The bytes of a transaction in the order in which they go out; a read clocks out zeros while it
receives. -/
def frame (q : Request) : List (BitVec 8) :=
  if q.dev = 0#2 then [byteAt q.wdata 0]
  else
    [q.command, byteAt q.addr 2, byteAt q.addr 1, byteAt q.addr 0] ++
      (List.range (sizeBytes q.size)).map fun i => if q.we then byteAt q.wdata i else 0

variable {q : Request}

/-- The half-period that the divider field names. -/
theorem half_eq (q : Request) : q.half = 4 ^ q.divSel.toNat := by
  unfold half
  generalize q.divSel = sel
  revert sel
  decide

/-- A request to a flash or PSRAM chip begins with its command. -/
theorem mosiBit_command (chip : q.dev ≠ 0#2) {k : Nat} (within : k < 8) :
    q.mosiBit k = msbFirst q.command k := by
  rw [mosiBit, Engine.preloadFor, if_neg chip, Engine.buildPreload, msbFirst, command,
    BitVec.getLsbD_append, BitVec.getLsbD_append, if_neg (by omega), if_neg (by omega)]
  congr 1
  omega

/-- A transaction with a memory chip has 32 bits of command and address, and eight for each data byte. -/
theorem bits_eq (chip : q.dev ≠ 0#2) : 32 + 8 * q.dataBytes = q.bits := by
  rw [dataBytes, if_neg chip]
  rcases q.bits_cases with ⟨h, -⟩ | ⟨-, size, bits⟩ | ⟨-, size, bits⟩ | ⟨-, byte, half, bits⟩
  · exact absurd h chip
  · rw [size, bits]; rfl
  · rw [size, bits]; rfl
  · have four : sizeBytes q.size = 4 := by simp [sizeBytes]
    rw [four, bits]

theorem spell_mosiBit (chip : q.dev ≠ 0#2) {k : Nat} (within : k ≤ 56) :
    spell q.mosiBit k =
      (Engine.buildPreload q.we q.size q.addr q.wdata).extractLsb' (56 - k) 8 := by
  have preload : Engine.preloadFor q = Engine.buildPreload q.we q.size q.addr q.wdata :=
    if_neg chip
  rw [← preload]
  exact spell_msb _ within

theorem spell_command (chip : q.dev ≠ 0#2) :
    spell q.mosiBit 0 = if q.we then Engine.cmdWrite else Engine.cmdRead := by
  rw [spell_mosiBit chip (by decide), Engine.buildPreload]
  refine BitVec.eq_of_getLsbD_eq fun i within => ?_
  simp only [BitVec.getLsbD_extractLsb', BitVec.getLsbD_append]
  grind

theorem spell_address (chip : q.dev ≠ 0#2) :
    q.addr = spell q.mosiBit 8 ++ spell q.mosiBit 16 ++ spell q.mosiBit 24 := by
  rw [spell_mosiBit chip (by decide), spell_mosiBit chip (by decide),
    spell_mosiBit chip (by decide), Engine.buildPreload]
  refine BitVec.eq_of_getLsbD_eq fun i within => ?_
  simp only [BitVec.getLsbD_extractLsb', BitVec.getLsbD_append]
  grind

/-- The data field holds the bytes of a write from the top, lowest address first. -/
theorem byteAt_dataField (size : BitVec 2) (wd : BitVec 32) {i : Nat} (within : i < sizeBytes size) :
    (Engine.dataField size wd).extractLsb' (24 - 8 * i) 8 = byteAt wd i := by
  have bits (w : BitVec 32) (lo : Nat) (low : ∀ k, k < 8 → w.getLsbD (lo + k) = wd.getLsbD (8 * i + k)) :
      w.extractLsb' lo 8 = byteAt wd i := by
    refine BitVec.eq_of_getLsbD_eq fun k small => ?_
    simp [byteAt, small, low k small]
  refine bits _ _ fun k small => ?_
  have four : i < 4 := Nat.lt_of_lt_of_le within (by unfold sizeBytes; split <;> decide)
  clear bits
  unfold Engine.dataField
  split
  · obtain rfl : i = 0 := Nat.lt_one_iff.mp within
    simp only [BitVec.getLsbD_extractLsb', BitVec.getLsbD_append]
    clear within
    grind
  · replace within : i < 2 := within
    interval_cases i <;> simp only [BitVec.getLsbD_extractLsb', BitVec.getLsbD_append] <;> grind
  · rename_i byte half
    clear byte half within
    interval_cases i <;> simp only [BitVec.getLsbD_extractLsb', BitVec.getLsbD_append] <;> grind

/-- MOSI spells the data bytes of a write, the lowest first, after the 32 bits of command and address. -/
theorem spell_data (chip : q.dev ≠ 0#2) (write : q.we = true) {i : Nat} (within : i < q.dataBytes) :
    spell q.mosiBit (32 + 8 * i) = byteAt q.wdata i := by
  rw [dataBytes, if_neg chip] at within
  have four : sizeBytes q.size ≤ 4 := by unfold sizeBytes; split <;> decide
  rw [spell_mosiBit chip (by omega), ← byteAt_dataField q.size q.wdata within, Engine.buildPreload,
    write]
  refine BitVec.eq_of_getLsbD_eq fun k small => ?_
  simp only [BitVec.getLsbD_extractLsb', BitVec.getLsbD_append]
  grind

/-- A read clocks out zeros in its data phase. -/
theorem spell_fill (chip : q.dev ≠ 0#2) (read : q.we = false) {i : Nat} (within : i < q.dataBytes) :
    spell q.mosiBit (32 + 8 * i) = 0 := by
  rw [dataBytes, if_neg chip] at within
  have four : sizeBytes q.size ≤ 4 := by unfold sizeBytes; split <;> decide
  rw [spell_mosiBit chip (by omega), Engine.buildPreload, read]
  refine BitVec.eq_of_getLsbD_eq fun k small => ?_
  simp only [BitVec.getLsbD_extractLsb', BitVec.getLsbD_append]
  grind

theorem spell_generic (generic : q.dev = 0#2) : spell q.mosiBit 0 = byteAt q.wdata 0 := by
  have preload : Engine.preloadFor q = q.wdata.extractLsb' 0 8 ++ 0#56 := if_pos generic
  refine (spell_msb _ (by decide)).trans ?_
  rw [preload]
  refine BitVec.eq_of_getLsbD_eq fun k small => ?_
  simp only [byteAt, BitVec.getLsbD_extractLsb', BitVec.getLsbD_append]
  grind

theorem frame_length : 8 * q.frame.length = q.bits := by
  unfold frame
  by_cases generic : q.dev = 0#2
  · rcases q.bits_cases with ⟨-, bits⟩ | ⟨chip, -⟩ | ⟨chip, -⟩ | ⟨chip, -⟩
    · rw [if_pos generic, bits]
      rfl
    all_goals exact absurd generic chip
  · rw [if_neg generic, ← bits_eq generic, dataBytes, if_neg generic]
    simp
    omega

/-- The frame is what MOSI spells. -/
theorem spell_frame (i : Nat) (within : i < q.frame.length) :
    spell q.mosiBit (8 * i) = q.frame[i] := by
  by_cases generic : q.dev = 0#2
  · have bytes : q.frame = [byteAt q.wdata 0] := if_pos generic
    obtain rfl : i = 0 := by rw [bytes] at within; exact Nat.lt_one_iff.mp within
    simp only [bytes]
    exact spell_generic generic
  · have bytes : q.frame = [q.command, byteAt q.addr 2, byteAt q.addr 1, byteAt q.addr 0] ++
        (List.range (sizeBytes q.size)).map fun i => if q.we then byteAt q.wdata i else 0 :=
      if_neg generic
    have address (k : Nat) : k < 3 → byteAt q.addr (2 - k) = spell q.mosiBit (8 * (k + 1)) := by
      intro small
      refine (congrArg (fun a => byteAt a (2 - k)) (spell_address generic)).trans ?_
      have last {m : Nat} (x : BitVec m) (b : BitVec 8) (j : Nat) :
          byteAt (x ++ b) j = if j < 1 then byteAt b j else byteAt x (j - 1) :=
        Verilog.byteAt_append x b (c := 1) rfl
      interval_cases k <;> simp [last]
    simp only [bytes]
    rcases Nat.lt_or_ge i 4 with header | data
    · rw [List.getElem_append_left header]
      rcases Nat.eq_zero_or_pos i with rfl | later
      · exact spell_command generic
      · obtain ⟨k, rfl⟩ := Nat.exists_eq_add_of_le' (show 1 ≤ i from later)
        have small : k < 3 := by omega
        rw [← address k small]
        interval_cases k <;> rfl
    · obtain ⟨k, rfl⟩ := Nat.exists_eq_add_of_le data
      have own : k < q.dataBytes := by
        rw [bytes] at within
        rw [dataBytes, if_neg generic]
        simp at within
        omega
      rw [List.getElem_append_right (by simp), show 8 * (4 + k) = 32 + 8 * k by omega]
      simp only [List.length_cons, List.length_nil, List.getElem_map, List.getElem_range,
        Nat.zero_add, Nat.reduceAdd, Nat.add_sub_cancel_left]
      cases write : q.we
      · rw [spell_fill generic write own]
        rfl
      · rw [spell_data generic write own]
        rfl

/-- The bits that a transaction clocks out. -/
theorem mosi_frame : (List.range q.bits).map q.mosiBit =
    q.frame.flatMap fun b => (List.range 8).map (msbFirst b) := by
  rw [← frame_length]
  exact Clocked.map_range_spelled _ _ spell_frame

end Request

namespace Engine

section Transaction

variable {r : Clocked.Run Engine.step} {t : Nat} {e : Engine} {q : Request}

namespace Accepts

/-- SCK is high in the second half of each bit; seen on the pin, one cycle later. -/
theorem sck_at (start : Accepts r t e q) {c : Nat} (within : c < q.delay) :
    (r.state (t + 1 + c)).pins.sck = true ↔
      ∃ k, k < q.bits ∧ 2 * q.half * k + q.half < c ∧ c ≤ 2 * q.half * (k + 1) := by
  have pos := q.half_pos
  have some := q.bits_pos
  have order {i k : Nat} (upto : i ≤ k) : 2 * q.half * i ≤ 2 * q.half * k :=
    Nat.mul_le_mul_left _ upto
  have succ (k : Nat) : 2 * q.half * (k + 1) = 2 * q.half * k + 2 * q.half := Nat.mul_succ _ _
  unfold Request.delay at within
  rcases Nat.lt_trichotomy c (2 * q.half * q.bits) with shifting | rfl | post
  · obtain ⟨k, j, before, inside, rfl⟩ := exists_bit shifting
    rw [← Nat.add_assoc, start.pins_at before inside]
    simp only [Request.selected]
    constructor
    · intro high
      by_cases first : j = 0
      · rw [if_pos first, decide_eq_true_eq] at high
        obtain ⟨i, rfl⟩ := Nat.exists_eq_add_of_le' (Nat.one_le_iff_ne_zero.mpr high)
        have := succ i
        exact ⟨i, by omega, by omega, by omega⟩
      · rw [if_neg first, decide_eq_true_eq] at high
        have := succ k
        exact ⟨k, before, by omega, by omega⟩
    · rintro ⟨i, -, after, upto⟩
      have := succ i
      rcases Nat.lt_trichotomy i k with earlier | rfl | later
      · have := order (show i + 1 ≤ k from earlier)
        have first : j = 0 := by omega
        rw [if_pos first, decide_eq_true_eq]
        omega
      · rw [if_neg (by omega), decide_eq_true_eq]
        omega
      · have := order (show k + 1 ≤ i from later)
        have := succ k
        omega
  · have high : (r.state (t + 1 + 2 * q.half * q.bits)).pins.sck = true := by rw [start.done_pins]; rfl
    have last := succ (q.bits - 1)
    rw [show q.bits - 1 + 1 = q.bits by omega] at last
    exact iff_of_true high ⟨q.bits - 1, by omega, by omega, by rw [Nat.sub_add_cancel some]⟩
  · have here : t + 1 + c = t + q.delay := by unfold Request.delay; omega
    have low : ¬ (r.state (t + 1 + c)).pins.sck = true := by rw [here, start.post_pins]; simp
    refine iff_of_false low ?_
    rintro ⟨k, before, -, upto⟩
    have := order (show k + 1 ≤ q.bits from before)
    omega

/-- MOSI changes only while SCK is low, and SCK stays low for a half-period then. -/
theorem mosi_stable (start : Accepts r t e q) {u : Nat} (after : t ≤ u) (before : u < t + q.delay)
    (changes : (r.state (u + 1)).pins.mosi ≠ (r.state u).pins.mosi) {j : Nat} (soon : j < q.half) :
    (r.state (u + 1 + j)).pins.sck = false := by
  have pos := q.half_pos
  rcases Nat.eq_or_lt_of_le after with rfl | later
  · have first := start.start_pins (Nat.zero_le q.bits)
    rw [Nat.mul_zero, Nat.add_zero] at first
    rw [first, start.here] at changes
    exact absurd rfl changes
  obtain ⟨c, rfl⟩ := Nat.exists_eq_add_of_le (show t + 1 ≤ u from later)
  unfold Request.delay at before
  rcases Nat.lt_or_ge c (2 * q.half * q.bits) with shifting | done
  · obtain ⟨k, i, bitBefore, within, rfl⟩ := exists_bit shifting
    rw [← Nat.add_assoc, start.pins_succ bitBefore within, start.pins_at bitBefore within] at changes
    have first : i = 0 := by
      by_contra other
      simp [Request.selected, other] at changes
    subst first
    rw [show t + 1 + (2 * q.half * k + 0) + 1 + j = t + 1 + 2 * q.half * k + (j + 1) by omega,
      start.pins_at bitBefore (by omega), if_neg (by omega)]
    simp only [Request.selected, decide_eq_false_iff_not]
    omega
  · obtain rfl : c = 2 * q.half * q.bits := by omega
    have post := start.post_pins
    rw [Request.delay, show t + (2 + 2 * q.half * q.bits) = t + 1 + 2 * q.half * q.bits + 1 by omega]
      at post
    rw [post, start.done_pins] at changes
    exact absurd rfl changes

/-- The bits clocked out from the cycle of acceptance to `req_ready`. -/
theorem observe_frame (start : Accepts r t e q) :
    r.observe clocked t q.delay = q.frame.flatMap fun b => (List.range 8).map (msbFirst b) := by
  have first : clocked (r.state t) (r.input t) = none := by
    have pins := start.start_pins (Nat.zero_le q.bits)
    rw [Nat.mul_zero, Nat.add_zero] at pins
    rw [clocked_eq, pins]
    simp [Request.selected]
  have last : clocked (r.state (t + 1 + 2 * q.half * q.bits))
      (r.input (t + 1 + 2 * q.half * q.bits)) = none := by
    rw [clocked_eq, start.done_pins]
    simp [Request.selected]
  rw [← Request.mosi_frame, Request.delay,
    show 2 + 2 * q.half * q.bits = 1 + 2 * q.half * q.bits + 1 by omega, r.observe_add,
    r.observe_add, r.observe_one, r.observe_one, first, start.observe_bits le_rfl,
    ← Nat.add_assoc, last]
  simp

theorem ready_pulse (start : Accepts r t e q) {u : Nat} (after : t < u)
    (upto : u ≤ t + q.delay + 1) : (r.state u).reqReady = decide (u = t + q.delay) := by
  rcases Nat.lt_trichotomy u (t + q.delay) with before | rfl | past
  · rw [decide_eq_false (by omega)]
    exact (start.busy_at after before).1
  · rw [decide_eq_true rfl]
    exact start.ready_at.2.1
  · obtain rfl : u = t + q.delay + 1 := by omega
    rw [decide_eq_false (by omega)]
    exact start.rest_at.1.quiet

/-- The received bytes are the last ones sampled. -/
theorem received_last (start : Accepts r t e q) {i : Nat} (within : i < 4) :
    byteAt (r.state (t + q.delay)).reqRdata i =
      if i < q.dataBytes then
        spell (fun k => (r.input (t + 2 * q.half * (k + 1))).miso) (q.bits - 8 * q.dataBytes + 8 * i)
      else 0 := by
  have pos := q.half_pos
  have cycles : samples r t q = fun k => (r.input (t + 2 * q.half * (k + 1))).miso := by
    funext k
    rw [samples, Nat.mul_succ]
    congr 2
    omega
  have first : q.dataStart = q.bits - 8 * q.dataBytes := by
    by_cases generic : q.dev = 0#2
    · have length := q.frame_length
      rw [Request.frame, if_pos generic] at length
      rw [Request.dataStart, Request.dataBytes, if_pos generic, if_pos generic, ← length]
      rfl
    · rw [Request.dataStart, if_neg generic, ← Request.bits_eq generic]
      omega
  rw [start.ready_at.2.2, Request.byteAt_received q _ within, cycles, first]

end Accepts

/-- One transaction of the engine, from the cycle `t` in which the request `q` is accepted, whatever
the request port shows later and whatever comes in on MISO: the number of bits and the half-period,
fixed by the request; SCK, with one pulse a bit, every phase one half-period long; the bits on MOSI at
the rising edges, which are set up a half-period before; the chip selects; the pulse of `req_ready`,
`2 + 2 * N * H` edges on; and the data bytes in `req_rdata`, the last ones sampled. -/
theorem transaction_exact (r : Clocked.Run Engine.step) {t : Nat} {q : Request}
    (idle : (r.state t).state = .idle) (req : (r.input t).req = q) (valid : q.valid = true) :
    q.bits = (if q.dev = 0#2 then 8 else 32 + 8 * sizeBytes q.size) ∧
    q.half = 4 ^ q.divSel.toNat ∧ q.delay = 2 + 2 * q.bits * q.half ∧
    (∀ c, c < q.delay → ((r.state (t + 1 + c)).pinSck = true ↔
      ∃ k, k < q.bits ∧ 2 * q.half * k + q.half < c ∧ c ≤ 2 * q.half * (k + 1))) ∧
    r.observe clocked t q.delay = q.frame.flatMap (fun b => (List.range 8).map (msbFirst b)) ∧
    (∀ u, t ≤ u → u < t + q.delay → (r.state (u + 1)).pinMosi ≠ (r.state u).pinMosi →
      ∀ j, j < q.half → (r.state (u + 1 + j)).pinSck = false) ∧
    (∀ u, t < u → u < t + q.delay →
      (r.state u).pinCs0 = !(q.dev == 1#2) ∧ (r.state u).pinCs1 = !(q.dev == 2#2) ∧
        (r.state u).pinCs2 = !(q.dev == 3#2 || q.dev == 0#2)) ∧
    ((r.state (t + q.delay)).pinCs0 = true ∧ (r.state (t + q.delay)).pinCs1 = true ∧
      (r.state (t + q.delay)).pinCs2 = true) ∧
    (∀ u, t < u → u ≤ t + q.delay + 1 → (r.state u).reqReady = decide (u = t + q.delay)) ∧
    ∀ i, i < 4 → byteAt (r.state (t + q.delay)).reqRdata i =
      if i < q.dataBytes then
        spell (fun k => (r.input (t + 2 * q.half * (k + 1))).miso) (q.bits - 8 * q.dataBytes + 8 * i)
      else 0 := by
  have start : Accepts r t (r.state t) q := ⟨rfl, idle, req, valid⟩
  refine ⟨?_, q.half_eq, ?_, fun c => start.sck_at, start.observe_frame,
    fun u after before changes j => start.mosi_stable after before changes, ?_, ?_,
    fun u => start.ready_pulse, fun i => start.received_last⟩
  · split
    case isTrue generic =>
      rw [← Request.frame_length, Request.frame, if_pos generic]
      rfl
    case isFalse chip => rw [← Request.bits_eq chip, Request.dataBytes, if_neg chip]
  · rw [Request.delay, Nat.mul_assoc, Nat.mul_assoc, Nat.mul_comm q.half]
  · intro u after before
    obtain ⟨sck, mosi, pins⟩ := start.exists_selected after before
    exact ⟨congrArg Pins.cs0 pins, congrArg Pins.cs1 pins, congrArg Pins.cs2 pins⟩
  · have pins := start.post_pins
    exact ⟨congrArg Pins.cs0 pins, congrArg Pins.cs1 pins, congrArg Pins.cs2 pins⟩

end Transaction

/-- A run that sends the byte `b` to the generic device, at the fastest clock, from an engine with
every register zero. -/
def sendRun (b : BitVec 8) : Clocked.Run Engine.step :=
  .ofInputs Engine.step
    { state := .idle, reqRdata := 0, reqReady := false, pinCs0 := true, pinCs1 := true, pinCs2 := true
      pinSck := false, pinMosi := false, nbitsTotal := 0, bitsDone := 0, halfPeriodR := 0, divCnt := 0
      sreg := 0, dataBits := 0 }
    fun _ => { req := { valid := true, we := true, dev := 0, addr := 0, wdata := b.setWidth 32, size := 0
                        divSel := 0 }, miso := true }

/-- `0xA5` goes out in 18 cycles. -/
theorem transaction_exact_byte :
    (sendRun 0xA5).observe clocked 0 18 = [true, false, true, false, false, true, false, true] :=
  (transaction_exact (sendRun 0xA5) rfl rfl rfl).2.2.2.2.1

end Engine

end AgilA32
