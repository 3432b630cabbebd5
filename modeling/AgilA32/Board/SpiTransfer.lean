import AgilA32.Board.SpiRam
import AgilA32.Clocked.Run
import AgilA32.Clocked.Shift
import AgilA32.Memory.Store

/-!
# A transaction as a memory chip sees it

The chip takes in a bit at each rising edge of SCK (`rises`), and eight bits make a byte (`takeByte`):
the command, three address bytes, and data bytes (`Streaming`).  `Clocks` is the waveform that one
transaction shows the chip, `Clocks.bits_at` the chip after each bit of it, and `Clocks.miso_at` what
the chip drives meanwhile.
-/

namespace AgilA32

open Clocked (shiftAll shiftIn spell msbFirst)
open Memory (storeAll)

namespace SpiRam

/-! ## Bytes -/

/-- The chip after `k` rising edges of SCK, with the bits `s` on MOSI. -/
def rises (c : SpiRam) (s : Nat → Bool) : Nat → SpiRam
  | 0 => c
  | k + 1 => (rises c s k).rise (s k)

theorem rises_add (c : SpiRam) (s : Nat → Bool) (i j : Nat) :
    c.rises s (i + j) = (c.rises s i).rises (fun l => s (i + l)) j := by
  induction j with
  | zero => rfl
  | succ j ih => rw [← Nat.add_assoc, rises, ih, rises]

/-- A whole byte has arrived. -/
def takeByte (c : SpiRam) (b : BitVec 8) : SpiRam :=
  match c.phase with
  | .cmd => { c with shiftIn := b, bitcnt := 0, we := b == 0x02#8, phase := .addr }
  | .addr =>
      { c with
        shiftIn := b, bitcnt := 0
        addr := c.addr.extractLsb' 0 16 ++ b
        phase := if c.addrByte = 2#2 then .data else .addr
        curOut :=
          if c.addrByte = 2#2 then c.mem (index (c.addr.extractLsb' 0 16 ++ b)) else c.curOut
        addrByte := c.addrByte + 1 }
  | .data =>
      { c with
        shiftIn := b, bitcnt := 0
        mem := if c.we then Function.update c.mem (index c.addr) b else c.mem
        addr := c.addr + 1
        curOut := c.mem (index c.addr + 1) }

theorem endByte_eq (c : SpiRam) (mosi : Bool) : c.endByte mosi = c.takeByte (c.shifted mosi) := rfl

variable {c : SpiRam} {s : Nat → Bool}

/-- Within a byte only the shift register and the bit counter move. -/
theorem rises_lt (start : c.bitcnt = 0#3) {j : Nat} (within : j < 8) :
    c.rises s j =
      { c with shiftIn := shiftAll (w := 7) c.shiftIn s j, bitcnt := BitVec.ofNat 3 j } := by
  induction j with
  | zero =>
      cases c
      simp_all [rises]
  | succ j ih =>
      have more : BitVec.ofNat 3 j ≠ 7#3 := by
        rw [ne_eq, ← BitVec.toNat_inj, BitVec.toNat_ofNat]
        simp
        omega
      rw [rises, ih (by omega), rise, if_neg more, Clocked.shiftAll_succ, BitVec.ofNat_add]
      rfl

/-- Eight bits make the byte they spell. -/
theorem rises_eight (start : c.bitcnt = 0#3) : c.rises s 8 = c.takeByte (spell s 0) := by
  have shifted : shiftAll (w := 7) c.shiftIn s 8 = spell s 0 := by
    refine BitVec.eq_of_getLsbD_eq fun i within => ?_
    rw [spell, Clocked.getLsbD_shiftAll _ _ _ within, Clocked.getLsbD_shiftAll _ _ _ within,
      if_pos within, if_pos within, Nat.zero_add]
  rw [rises, rises_lt start (by decide), rise, if_pos rfl, endByte_eq, ← shifted,
    Clocked.shiftAll_succ]
  simp only [SpiRam.shifted, takeByte]
  cases c.phase <;> rfl

/-- The chip after `i` bytes. -/
def bytes (c : SpiRam) (s : Nat → Bool) : Nat → SpiRam
  | 0 => c
  | i + 1 => (bytes c s i).takeByte (spell s (8 * i))

theorem takeByte_bitcnt (c : SpiRam) (b : BitVec 8) : (c.takeByte b).bitcnt = 0#3 := by
  unfold takeByte
  split <;> rfl

theorem bytes_bitcnt (start : c.bitcnt = 0#3) (i : Nat) : (c.bytes s i).bitcnt = 0#3 := by
  cases i with
  | zero => exact start
  | succ i => exact takeByte_bitcnt _ _

theorem rises_bytes (start : c.bitcnt = 0#3) (i : Nat) : c.rises s (8 * i) = c.bytes s i := by
  induction i with
  | zero => rfl
  | succ i ih =>
      rw [Nat.mul_succ, rises_add, ih, rises_eight (bytes_bitcnt start i), bytes]
      congr 1

/-! ## The protocol -/

/-- The chip is not in a transaction. -/
structure Idle (c : SpiRam) : Prop where
  phase : c.phase = .cmd
  bitcnt : c.bitcnt = 0
  addrByte : c.addrByte = 0
  miso : c.miso = false

def withMiso (c : SpiRam) (b : Bool) : SpiRam := { c with miso := b }

/-- What the chip will drive for the next bit. -/
def out (c : SpiRam) : Bool :=
  if c.phase = .data ∧ c.we = false then c.curOut.getLsbD (7 - c.bitcnt).toNat else false

/-- The chip `c`, in its data phase, has taken in `i` data bytes `d` of a transaction from the address
`a` on that began with the memory `old`. -/
structure Streaming (old : BitVec 14 → BitVec 8) (write : Bool) (a : BitVec 24)
    (d : Nat → BitVec 8) (i : Nat) (c : SpiRam) : Prop where
  phase : c.phase = .data
  we : c.we = write
  addr : c.addr = a + BitVec.ofNat 24 i
  mem : c.mem =
    if write then storeAll old (fun j => index (a + BitVec.ofNat 24 j)) d i else old
  curOut : write = false → c.curOut = old (index (a + BitVec.ofNat 24 i))

theorem index_succ (a : BitVec 24) : index a + 1 = index (a + 1) := by
  apply BitVec.eq_of_toNat_eq
  simp [index, BitVec.toNat_add, BitVec.extractLsb'_toNat]

/-- After the command and the address the data phase begins. -/
theorem Idle.streaming (idle : Idle c) (a : BitVec 24)
    (address : a = spell s 8 ++ spell s 16 ++ spell s 24) (d : Nat → BitVec 8) :
    Streaming c.mem (spell s 0 == 0x02#8) a d 0 (c.bytes s 4) := by
  obtain ⟨phase, -, addrByte, -⟩ := idle
  have parts : ((c.addr.extractLsb' 0 16 ++ spell s 8).extractLsb' 0 16 ++ spell s 16).extractLsb' 0
      16 ++ spell s 24 = a := by
    rw [address]
    refine BitVec.eq_of_getLsbD_eq fun i within => ?_
    simp only [BitVec.getLsbD_append, BitVec.getLsbD_extractLsb']
    grind
  have first : c.bytes s 1 = { c with shiftIn := spell s 0, we := spell s 0 == 0x02#8
                                      phase := .addr, bitcnt := 0 } := by
    simp [bytes, takeByte, phase]
  have second : c.bytes s 2 = { c.bytes s 1 with
      shiftIn := spell s 8, addr := c.addr.extractLsb' 0 16 ++ spell s 8, addrByte := 1 } := by
    rw [bytes, first]
    simp [takeByte, addrByte]
  have third : c.bytes s 3 = { c.bytes s 2 with
      shiftIn := spell s 16
      addr := (c.addr.extractLsb' 0 16 ++ spell s 8).extractLsb' 0 16 ++ spell s 16
      addrByte := 2 } := by
    rw [bytes, second, first]
    simp [takeByte]
  have fourth : c.bytes s 4 = { c.bytes s 3 with
      shiftIn := spell s 24, addr := a, addrByte := 3, phase := .data, curOut := c.mem (index a) } := by
    rw [bytes, third, second, first, ← parts]
    simp [takeByte]
  rw [fourth, third, second, first]
  refine ⟨rfl, rfl, ?_, ?_, fun _ => ?_⟩
  · exact (BitVec.add_zero a).symm
  · simp
  · exact congrArg (fun b => c.mem (index b)) (BitVec.add_zero a).symm

/-- One more data byte takes the chip one address further, and a write stores it there. -/
theorem Streaming.byte {old : BitVec 14 → BitVec 8} {write : Bool} {a : BitVec 24}
    {d : Nat → BitVec 8} {i : Nat} (here : Streaming old write a d i c) :
    Streaming old write a d (i + 1) (c.takeByte (d i)) := by
  obtain ⟨phase, we, addr, mem, curOut⟩ := here
  have next : a + BitVec.ofNat 24 i + 1 = a + BitVec.ofNat 24 (i + 1) := by
    rw [BitVec.ofNat_add, ← BitVec.add_assoc]
    rfl
  simp only [takeByte, phase]
  refine ⟨rfl, we, ?_, ?_, fun read => ?_⟩
  · rw [addr, next]
  · dsimp only
    rw [we, addr, mem]
    cases write <;> rfl
  · dsimp only
    rw [mem, addr, index_succ, next, read]
    rfl

/-- From idle, after command, address and `i` data bytes the chip is at the `i`-th address of the transfer. -/
theorem Idle.streams (idle : Idle c) (a : BitVec 24)
    (address : a = spell s 8 ++ spell s 16 ++ spell s 24) (i : Nat) :
    Streaming c.mem (spell s 0 == 0x02#8) a (fun j => spell s (32 + 8 * j)) i
      (c.bytes s (4 + i)) := by
  induction i with
  | zero => exact idle.streaming a address _
  | succ i ih =>
      have next := ih.byte
      rw [← Nat.add_assoc, bytes, show 8 * (4 + i) = 32 + 8 * i by omega]
      exact next

/-- In the data phase of a read the chip drives the addressed byte, most significant bit first. -/
theorem Idle.out_read (idle : Idle c) (a : BitVec 24)
    (address : a = spell s 8 ++ spell s 16 ++ spell s 24) (read : spell s 0 ≠ 0x02#8) {i j : Nat}
    (within : j < 8) :
    (c.rises s (32 + 8 * i + j)).out = msbFirst (c.mem (index (a + BitVec.ofNat 24 i))) j := by
  obtain ⟨phase, we, -, -, curOut⟩ := idle.streams a address i
  have read' : (spell s 0 == 0x02#8) = false := by simpa using read
  rw [read'] at we
  have bitcnt := bytes_bitcnt (c := c) (s := s) idle.bitcnt (4 + i)
  rw [rises_add, show 32 + 8 * i = 8 * (4 + i) by omega, rises_bytes idle.bitcnt,
    rises_lt bitcnt within, out, if_pos ⟨phase, we⟩, curOut read', msbFirst]
  congr 1
  rw [BitVec.toNat_sub, BitVec.toNat_ofNat]
  simp
  omega

/-! ## Cycles -/

/-- The chip as a clocked machine: it sees its pins before and after each cycle. -/
def step (c : SpiRam) (i : SpiPins × SpiPins) : SpiRam := c.edge i.1 i.2

theorem edge_still {old new : SpiPins} (low : old.csN = false) (low' : new.csN = false)
    (still : new.sck = old.sck) : c.edge old new = c := by
  simp [edge, low, low', still]

theorem edge_rise {old new : SpiPins} (low : old.csN = false) (low' : new.csN = false)
    (down : old.sck = false) (up : new.sck = true) : c.edge old new = c.rise new.mosi := by
  simp [edge, low, low', down, up]

theorem edge_fall {old new : SpiPins} (low : old.csN = false) (low' : new.csN = false)
    (up : old.sck = true) (down : new.sck = false) :
    c.edge old new = c.withMiso c.out := by
  simp [edge, low, low', down, up, fall, out, withMiso]

/-- A chip whose select rises is idle, and keeps its memory. -/
theorem edge_deselect {old new : SpiPins} (low : old.csN = false) (high : new.csN = true) :
    Idle (c.edge old new) ∧ (c.edge old new).mem = c.mem := by
  have after : c.edge old new =
      { c with phase := .cmd, bitcnt := 0, addrByte := 0, miso := false } := by
    simp [edge, low, high]
  rw [after]
  exact ⟨⟨rfl, rfl, rfl, rfl⟩, rfl⟩

/-- An idle chip ignores its pins while its select is high, and when it falls with SCK low. -/
theorem Idle.edge_quiet (idle : Idle c) {old new : SpiPins} (high : old.csN = true)
    (quiet : new.csN = true ∨ old.sck = false ∧ new.sck = false) : c.edge old new = c := by
  obtain ⟨phase, bitcnt, addrByte, miso⟩ := idle
  rcases quiet with high' | ⟨low, low'⟩
  · cases c
    simp_all [edge]
  · simp [edge, high, low, low']

theorem rise_withMiso (c : SpiRam) (b m : Bool) :
    (c.withMiso b).rise m = (c.rise m).withMiso b := by
  unfold rise endByte withMiso
  dsimp only
  split
  · cases c.phase <;> rfl
  · rfl

/-- The pins of a chip in a transaction of `n` bits `s` that selects it from cycle `a` on, with
half-period `h`. -/
structure Clocks (p : Nat → SpiPins) (a h n : Nat) (s : Nat → Bool) : Prop where
  half : 0 < h
  first : (p a).csN = false ∧ (p a).sck = false
  bit : ∀ k, k < n → ∀ j, j < 2 * h →
    p (a + 2 * h * k + j + 1) = { csN := false, sck := decide (h < j + 1), mosi := s k }

section Transaction

variable {r : Clocked.Run SpiRam.step} {p : Nat → SpiPins} {a h n : Nat}

/-- The pins at the start of a bit: SCK is still high, but for the first. -/
theorem Clocks.start (clocks : Clocks p a h n s) {k : Nat} (upto : k ≤ n) :
    (p (a + 2 * h * k)).csN = false ∧ (p (a + 2 * h * k)).sck = decide (k ≠ 0) := by
  have half := clocks.half
  rcases k with _ | k
  · simpa using clocks.first
  · have last := clocks.bit k upto (2 * h - 1) (by omega)
    rw [show a + 2 * h * k + (2 * h - 1) + 1 = a + 2 * h * (k + 1) by rw [Nat.mul_succ]; omega,
      decide_eq_true (by omega)] at last
    rw [last]
    simp

/-- Within a bit CS is low, and SCK is low in its first half and high in its second, one cycle late. -/
theorem Clocks.inside (clocks : Clocks p a h n s) {k j : Nat} (before : k < n) (within : j < 2 * h) :
    (p (a + 2 * h * k + j)).csN = false ∧
      (p (a + 2 * h * k + j)).sck = if j = 0 then decide (k ≠ 0) else decide (h < j) := by
  rcases j with _ | j
  · simpa using clocks.start (Nat.le_of_lt before)
  · rw [← Nat.add_assoc, clocks.bit k before j (by omega)]
    simp

/-- The chip in the cycles of one bit: MISO changes in its first cycle, and MOSI is taken in
half-way. -/
theorem Clocks.bit_at (clocks : Clocks p a h n s) (pins : ∀ u, r.input u = (p u, p (u + 1)))
    {k : Nat} (before : k < n) {x : SpiRam} {b : Bool}
    (here : r.state (a + 2 * h * k) = x.withMiso b) {j : Nat} (upto : j < 2 * h) :
    r.state (a + 2 * h * k + j + 1) =
      (if h < j + 1 then x.rise (s k) else x).withMiso (if k = 0 then b else x.out) := by
  have half := clocks.half
  have edge (u : Nat) : r.state (u + 1) = (r.state u).edge (p u) (p (u + 1)) := by
    rw [r.edge, pins]
    rfl
  induction j with
  | zero =>
      obtain ⟨low, sck⟩ := clocks.start (Nat.le_of_lt before)
      have next := clocks.bit k before 0 upto
      rw [Nat.add_zero, decide_eq_false (by omega)] at next
      rw [Nat.add_zero, edge, here, if_neg (show ¬ h < 0 + 1 by omega)]
      by_cases first : k = 0
      · rw [if_pos first, edge_still low (by rw [next]) (by rw [next, sck]; simp [first])]
      · rw [if_neg first, edge_fall low (by rw [next]) (by rw [sck]; simp [first]) (by rw [next])]
        rfl
  | succ j ih =>
      obtain ⟨low, sck⟩ := clocks.inside before upto
      have next := clocks.bit k before (j + 1) upto
      rw [if_neg (Nat.succ_ne_zero j)] at sck
      rw [← Nat.add_assoc] at low sck next
      rw [edge, ← Nat.add_assoc, ih (by omega)]
      rcases Nat.lt_trichotomy h (j + 1) with past | rises | early
      · rw [if_pos past, if_pos (show h < j + 1 + 1 by omega), edge_still low (by rw [next])]
        rw [next, sck, decide_eq_true past]
        exact decide_eq_true (by omega)
      · rw [if_neg (show ¬ h < j + 1 by omega), if_pos (show h < j + 1 + 1 by omega),
          edge_rise low (by rw [next]) (by rw [sck, decide_eq_false (by omega)])
            (by rw [next]; exact decide_eq_true (by omega)), rise_withMiso, next]
      · rw [if_neg (show ¬ h < j + 1 by omega), if_neg (show ¬ h < j + 1 + 1 by omega),
          edge_still low (by rw [next])]
        rw [next, sck, decide_eq_false (show ¬ h < j + 1 by omega)]
        exact decide_eq_false (by omega)

/-- After `k` bits the chip has seen `k` rising edges of SCK with the bits on MOSI. -/
theorem Clocks.bits_at (clocks : Clocks p a h n s) (pins : ∀ u, r.input u = (p u, p (u + 1)))
    {k : Nat} (upto : k ≤ n) :
    ∃ b, r.state (a + 2 * h * k) = ((r.state a).rises s k).withMiso b := by
  have half := clocks.half
  induction k with
  | zero => exact ⟨(r.state a).miso, rfl⟩
  | succ k ih =>
      obtain ⟨b, here⟩ := ih (by omega)
      have next := clocks.bit_at pins upto here (j := 2 * h - 1) (by omega)
      rw [if_pos (by omega), show a + 2 * h * k + (2 * h - 1) + 1 = a + 2 * h * (k + 1) by
        rw [Nat.mul_succ]; omega] at next
      exact ⟨_, next⟩

/-- What the chip drives while a bit after the first is clocked. -/
theorem Clocks.miso_at (clocks : Clocks p a h n s) (pins : ∀ u, r.input u = (p u, p (u + 1)))
    {k j : Nat} (later : k ≠ 0) (before : k < n) (within : j < 2 * h) :
    (r.state (a + 2 * h * k + j + 1)).miso = ((r.state a).rises s k).out := by
  obtain ⟨b, here⟩ := clocks.bits_at pins (Nat.le_of_lt before)
  rw [clocks.bit_at pins before here within, if_neg later]
  rfl

end Transaction

end SpiRam

end AgilA32
