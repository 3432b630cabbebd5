import AgilA32.Boot.Driver
import AgilA32.Flash.Arrive
import AgilA32.Programs.Capture
import AgilA32.Programs.Constants
import AgilA32.Programs.Delay
import AgilA32.Top.Progress

/-!
# What the display receives

From power-up on, everything that the LED pins show goes to the display as well: first the counter of the
listen loop, then what the driver in flash sends.  If no host shows up the counter ends on a byte
boundary, and the display receives the initialisation and the pixels (`display_receives`), after sixteen
bytes of the counter if it is the test bench's circuit, which keeps the bits of an unfinished byte while CS
is high.  If a host loads the stub a display that drops them receives the same exactly if the counter has
stopped with no bits of a byte pending (`display_receives_loaded`).  The pixels are as many as the
configuration says if `load_const32` loads their count (`pixelsSent_eq`).
-/

namespace AgilA32

namespace Programs

namespace St7789

open AgilA32.Core (readReg writeReg)
open Boot (Host SelfTested polled)
open Clocked (Run)
open Flash (Arrives Holds Unattended flashBoard flashBoardRun flashMem handoffStub holds_flash idle_flash led
  ledsBefore)
open Mem (engineRun)
open Paged (Leads Log leads_straight machine onPage written)
open PagedAsm (Lists)
open Panel (Capture Sent cs mosi sck wire)
open AgilA32.Top (begins ledWrite memRun)

/-! ## The counter on the LEDs -/

theorem led_mod (fail : Bool) (k : Nat) : led fail k = led fail (k % 16) := by
  unfold led Boot.ledValue
  rw [Nat.mod_mod]

theorem led_small : ∀ fail : Bool, ∀ k < 16,
    sck (led fail k) = decide (k % 2 = 1) ∧ cs (led fail k) = decide (8 ≤ k) := by decide

/-- SCK and CS are two bits of the counter. -/
theorem led_pins (fail : Bool) (k : Nat) :
    sck (led fail k) = decide (k % 2 = 1) ∧ cs (led fail k) = decide (8 ≤ k % 16) := by
  obtain ⟨clock, select⟩ := led_small fail (k % 16) (Nat.mod_lt k (by decide))
  rw [led_mod, clock, select]
  exact ⟨by congr 2; omega, rfl⟩

/-- The bits of an unfinished byte that a display has taken from the first `n` values. -/
def pending (n : Nat) : Nat := if n % 16 < 8 then (n % 16 + 1) / 2 else 0

theorem pending_eq_zero {n : Nat} : pending n = 0 ↔ n % 16 = 0 ∨ 8 ≤ n % 16 := by
  unfold pending
  split <;> omega

/-- The counter takes a display to no byte, as CS is high every other eight values. -/
theorem feed_leds (fail : Bool) (n : Nat) :
    let c := Capture.feed true .reset ((List.range n).map fun j => led fail (j + 1))
    c.bitcnt = .ofNat 3 (pending n) ∧ c.prevSck = decide (n % 2 = 1) ∧ c.captured = [] := by
  induction n with
  | zero => exact ⟨rfl, rfl, rfl⟩
  | succ n ih =>
      obtain ⟨count, prev, captured⟩ := ih
      obtain ⟨clock, select⟩ := led_pins fail (n + 1)
      dsimp only
      rw [List.range_succ, List.map_append, Capture.feed_append, List.map_singleton]
      generalize Capture.feed true .reset ((List.range n).map fun j => led fail (j + 1)) = c at *
      change (Capture.step true c (led fail (n + 1))).bitcnt = _ ∧
        (Capture.step true c (led fail (n + 1))).prevSck = _ ∧
        (Capture.step true c (led fail (n + 1))).captured = []
      by_cases high : 8 ≤ (n + 1) % 16
      · rw [Capture.step_deselected (select.trans (decide_eq_true high)), pending,
          if_neg (Nat.not_lt.mpr high)]
        exact ⟨rfl, clock, captured⟩
      have low := select.trans (decide_eq_false high)
      rcases Nat.mod_two_eq_zero_or_one (n + 1) with even | odd
      · have fell := clock.trans (decide_eq_false (by omega))
        rw [Capture.step_still (.inr fell) low]
        refine ⟨count.trans (congrArg (BitVec.ofNat 3) ?_), clock, captured⟩
        unfold pending
        split_ifs <;> omega
      · have rose := clock.trans (decide_eq_true odd)
        have more : pending (n + 1) = pending n + 1 := by
          unfold pending
          split_ifs <;> omega
        have open_ : c.bitcnt ≠ 7#3 := by
          rw [count]
          intro full
          have few : pending n ≤ 4 := by
            unfold pending
            split <;> omega
          have seven : pending n % 2 ^ 3 = 7 := by simpa using congrArg BitVec.toNat full
          omega
        rw [Capture.step_rise (prev.trans (decide_eq_false (by omega))) rose low, more]
        exact ⟨(congrArg (· + 1) count).trans (BitVec.ofNat_add ..).symm, (decide_eq_true odd).symm,
          (if_neg open_).trans captured⟩

/-- A turn of the counter. -/
def turn (fail : Bool) : List (BitVec 8) := (List.range 16).map fun j => led fail (j + 1)

theorem leds_turns (fail : Bool) (n : Nat) : ((List.range (16 * n)).map fun j => led fail (j + 1)) =
    (List.replicate n (turn fail)).flatten := by
  induction n with
  | zero => rfl
  | succ n ih =>
      rw [Nat.mul_succ, List.range_add, List.map_append, ih, List.map_map, List.replicate_succ',
        List.flatten_append, List.flatten_singleton]
      refine congrArg (_ ++ ·) (List.map_congr_left fun j _ => ?_)
      change led fail (16 * n + j + 1) = led fail (j + 1)
      rw [led_mod, led_mod fail (j + 1)]
      congr 1
      omega

/-- The test bench's circuit takes four bits from it, those at which CS is low, and keeps them while CS is
high. -/
theorem feed_turn (fail : Bool) (c : Capture) (prev : c.prevSck = false) :
    Capture.feed false c (turn fail) =
      (((c.sample 1).sample 3).sample 5).sample 7 := by
  obtain ⟨shift, bits, high, sent⟩ := c
  obtain rfl : high = false := prev
  cases fail <;> rfl

/-- Two turns make a byte. -/
theorem feed_turns (fail : Bool) (c : Capture) (boundary : c.bitcnt = 0) (prev : c.prevSck = false) :
    let c' := Capture.feed false c (turn fail ++ turn fail)
    c'.bitcnt = 0 ∧ c'.prevSck = false ∧ c'.captured = c.captured ++ [⟨true, 0x55⟩] := by
  have byte : Clocked.shiftAll c.shiftReg (Clocked.msbFirst 0x55) 8 = 0x55#8 := by
    have all : (Clocked.shiftAll c.shiftReg (Clocked.msbFirst 0x55) 8).extractLsb' 0 8 = 0x55#8 :=
      Clocked.extractLsb'_shiftAll _ le_rfl le_rfl fun j _ => by rw [Nat.zero_add]; rfl
    rwa [BitVec.extractLsb'_eq_self] at all
  dsimp only
  rw [Capture.feed_append, feed_turn fail c prev,
    feed_turn fail ((((c.sample 1).sample 3).sample 5).sample 7) prev]
  refine ⟨?_, prev, ?_⟩
  · simp [Capture.sample, boundary]
  · simp only [Capture.sample, boundary]
    exact congrArg (fun b => c.captured ++ [Sent.mk true b]) byte

/-- The display, after the listen loop without a host. -/
theorem feed_boot (framed fail : Bool) :
    let c := Capture.feed framed .reset ((List.range 512).map fun j => led fail (j + 1))
    c.bitcnt = 0 ∧ c.prevSck = false ∧
      c.captured = if framed then [] else List.replicate 16 ⟨true, 0x55⟩ := by
  cases framed
  · have bytes (n : Nat) :
        let c := Capture.feed false .reset ((List.range (32 * n)).map fun j => led fail (j + 1))
        c.bitcnt = 0 ∧ c.prevSck = false ∧ c.captured = List.replicate n ⟨true, 0x55⟩ := by
      induction n with
      | zero => exact ⟨rfl, rfl, rfl⟩
      | succ n ih =>
          obtain ⟨count, prev, captured⟩ := ih
          obtain ⟨count', prev', captured'⟩ := feed_turns fail _ count prev
          have more : ((List.range (32 * (n + 1))).map fun j => led fail (j + 1)) =
              ((List.range (32 * n)).map fun j => led fail (j + 1)) ++ (turn fail ++ turn fail) := by
            rw [show 32 * (n + 1) = 16 * (2 * n + 1 + 1) by omega, show 32 * n = 16 * (2 * n) by omega,
              leds_turns, leds_turns, List.replicate_succ', List.replicate_succ']
            simp
          dsimp only
          rw [more, Capture.feed_append]
          refine ⟨count', prev', captured'.trans ?_⟩
          rw [captured, List.replicate_succ']
    exact bytes 16
  · obtain ⟨count, prev, captured⟩ := feed_leds fail 512
    exact ⟨count, prev, captured⟩

/-- What the program sends, to a display on a byte boundary. -/
theorem feed_program {framed : Bool} {c : Capture} (boundary : c.bitcnt = 0) (sent : List Sent) :
    (Capture.feed framed c (0 :: wire sent)).captured = c.captured ++ sent := by
  rw [Capture.feed_cons, Capture.step_still (.inr rfl) rfl]
  exact (Capture.feed_wire (c := { c with prevSck := sck 0 }) sent boundary).2

/-- What it sends to a display that waits for the rest of a byte does not begin with what was meant. -/
theorem feed_program_shifted {framed : Bool} {c : Capture} {k : Nat} (count : c.bitcnt = .ofNat 3 k)
    (inside : 1 ≤ k ∧ k ≤ 7) (captured : c.captured = []) (sent : List Sent) :
    (Capture.feed framed c (0 :: wire (command 1 :: sent))).captured ≠ command 1 :: sent := by
  have swreset : command 1 = ⟨false, 1⟩ := rfl
  obtain ⟨byte, low, first⟩ :=
    Capture.feed_shifted framed (c := { c with prevSck := sck 0 }) count inside false sent
  rw [Capture.feed_cons, Capture.step_still (.inr rfl) rfl, swreset]
  intro same
  rw [same, show (Capture.mk c.shiftReg c.bitcnt (sck 0) c.captured).captured = [] from captured,
    List.nil_append, List.cons_prefix_cons] at first
  rw [(Sent.mk.inj first.1).2] at low
  cases low

/-! ## The program -/

/-- The pixels that the program counts down, from the constant in two signed halves. -/
def Config.pixelsSent (c : Config) : Nat :=
  (BitVec.ofInt 32 (signed (c.pixelCount &&& 0xFFF) + (4096 : Int) * signed (c.pixelCount >>> 12))).toNat

/-- They are those of the configuration if the halves are not negative. -/
theorem pixelsSent_eq (c : Config) (low : c.pixelCount.testBit 11 = false)
    (high : c.pixelCount.testBit 23 = false) : c.pixelsSent = c.pixelCount := by
  have small : c.pixelCount < 2 ^ 24 := c.pixelCount_lt
  rw [Config.pixelsSent, (signed_parts c.pixelCount_lt).mpr ⟨low, high⟩, BitVec.toNat_ofNat,
    Nat.mod_eq_of_lt (by omega)]

section Machine

variable {c : Config} {image : List (BitVec 8)} (lists : Lists image (code c))
  {r : Run (Paged.step image)} {m k : Nat} {x : RegFile}
include lists

/-- Page 0 clears the port and counts the pixels. -/
theorem leads_count (here : r.state m = some (onPage 0 k x)) (entry : k = 0 ∨ k = 1) :
    ∃ m' x', Leads r noMark m m' (onPage 1 0 x') (.ofWrites [0]) ∧ (x' 5).toNat = c.pixelsSent := by
  have held : (code c)[(0 : BitVec 8).toNat]? = some (startListing c.pixelCount) := rfl
  have counts : ∃ m' y, Leads r noMark m m' (onPage 0 8 y) (.ofWrites [0]) ∧
      (y 5).toNat = c.pixelsSent := by
    rw [startListing] at held
    unfold Config.pixelsSent
    by_cases high : c.pixelCount >>> 12 = 0
    · rw [if_neg (not_not.mpr high)] at held
      have value (y : RegFile) : (writeReg y 5 (readReg y 0 + .ofInt 32 (signed (c.pixelCount &&& 0xFFF)))) 5 =
          .ofInt 32 (signed (c.pixelCount &&& 0xFFF) + (4096 : Int) * signed (c.pixelCount >>> 12)) := by
        rw [high]
        exact (load_eq _).trans (congrArg (BitVec.ofInt 32) (Int.add_zero _).symm)
      rcases entry with rfl | rfl
      · obtain ⟨m', loads⟩ := leads_straight lists held here (n := 8) rfl fun _ _ _ _ => unmarked _
        exact ⟨m', _, loads, congrArg BitVec.toNat (value _)⟩
      · obtain ⟨m', loads⟩ := leads_straight lists held here (n := 7) rfl fun _ _ _ _ => unmarked _
        exact ⟨m', _, loads, congrArg BitVec.toNat (value _)⟩
    · rw [if_pos high] at held
      have value : (0 + .ofInt 32 (signed (c.pixelCount &&& 0xFFF))) +
            ((0 : BitVec 32) + .ofInt 32 (signed (c.pixelCount >>> 12))) <<< (12 : Nat) =
          .ofInt 32 (signed (c.pixelCount &&& 0xFFF) + (4096 : Int) * signed (c.pixelCount >>> 12)) := by
        rw [load_eq, load_eq, shiftLeft_twelve, BitVec.ofInt_add]
      rcases entry with rfl | rfl
      · obtain ⟨m', loads⟩ := leads_straight lists held here (n := 8) rfl fun _ _ _ _ => unmarked _
        exact ⟨m', _, loads, congrArg BitVec.toNat value⟩
      · obtain ⟨m', loads⟩ := leads_straight lists held here (n := 7) rfl fun _ _ _ _ => unmarked _
        exact ⟨m', _, loads, congrArg BitVec.toNat value⟩
  obtain ⟨m₁, y, counts, value⟩ := counts
  have tail : (startListing c.pixelCount).drop 8 = leave 1 := by
    rw [startListing]
    split <;> rfl
  obtain ⟨m₂, leaves⟩ := leads_leave lists held 1 counts.reached tail (fun _ _ _ _ => unmarked _)
    (by rw [length_code]; omega) (by omega) fun _ => unmarked _
  exact ⟨m₂, _, counts.trans leaves, value⟩

/-- All that the program ever writes is a zero and then the stream of its pixels, and it never gets stuck. -/
theorem writes_stream (here : r.state 0 = some (onPage 0 k x)) (entry : k = 0 ∨ k = 1)
    (some_ : 1 ≤ c.pixelsSent) :
    (∀ n, (r.state n).isSome = true) ∧
      ∃ m, ∀ n, m ≤ n → r.observe (written image) 0 n = 0 :: wire (c.stream c.pixelsSent) := by
  obtain ⟨m, x', first, pixels⟩ := leads_count lists here entry
  obtain ⟨m', later, alive, all⟩ := sends lists first.reached pixels some_
  refine ⟨fun n => Paged.isSome_before (alive _ (le_max_left m' n)) (le_max_right m' n), m',
    fun n after => ?_⟩
  have cut := r.observe_cut (written image) (Nat.zero_le m) (later.trans after)
  rw [first.writes, all n after] at cut
  exact cut

end Machine

/-! ## From power-up on -/

section Design

variable {framed : Bool} {r : Run Top.step} {d : Run (Capture.step framed)}
  (start : Top.Boundary (r.state 0)) (dark : (r.state 0).mem.regs.gpioOut = 0)
  (powered : d.state 0 = .reset) (connected : ∀ u, d.input u = (r.state u).uoOut)
include start dark powered connected

/-- The display sees the stores to `LED_OUT`. -/
theorem display_state (u : Nat) : d.state (u + 1) = Capture.feed framed .reset (r.observe ledWrite 0 u) := by
  have low (s : Top) (k : Nat) (within : k < 7) : s.uoOut.getLsbD k = s.mem.regs.gpioOut.getLsbD k := by
    rw [Top.uoOut, BitVec.getLsbD_append, BitVec.getLsbD_extractLsb', if_pos within, Nat.zero_add]
    exact Bool.and_eq_right_iff_imp.mpr fun _ => decide_eq_true within
  have leds (c : Capture) (s : Top) : Capture.step framed c s.uoOut =
      Capture.step framed c s.mem.regs.gpioOut :=
    Capture.step_congr (low s 0 (by decide)) (low s 1 (by decide)) (low s 2 (by decide)) (low s 3 (by decide))
  have seen := r.foldl_held (f := fun s => s.mem.regs.gpioOut) (a := 0) (n := u)
    (fun v _ _ => Top.gpioOut_held start v) (@Capture.step_step framed) .reset
  have whole := d.state_eq_foldl 0 (u + 1)
  rw [Nat.zero_add, powered, show d.input = fun u => (r.state u).uoOut from funext connected] at whole
  rw [List.foldl_map] at whole seen
  simp only [leds] at whole
  rw [whole, seen, dark, List.foldl_cons]
  exact congrArg (fun c => Capture.feed framed c _) (by cases framed <;> rfl)

variable {chip : Run SpiRam.step} {mem : BitVec 14 → BitVec 8} {c : Config} {image : List (BitVec 8)}
  (built : PagedAsm.image (script c) = some image)
  (wired : Attached (engineRun (memRun r)) chip 1#2) (holds : Holds mem image)
  {t k n : Nat} {fail : Bool} {a : Top.Arch} (arrives : Arrives r chip mem t k n fail a)
  (some_ : 1 ≤ c.pixelsSent)
include built wired holds arrives some_

/-- Once the program has sent all, the display has taken the counter and the stream. -/
theorem display_ends : ∃ T, ∀ u, T ≤ u → d.state u = Capture.feed framed
    (Capture.feed framed .reset ((List.range n).map fun j => led fail (j + 1)))
    (0 :: wire (c.stream c.pixelsSent)) := by
  obtain ⟨alive, m, all⟩ := writes_stream (lists_image built) (arrives.onPage image) arrives.entry some_
  have shown (m' : Nat) (after : m ≤ m') : r.observe ledWrite t (begins r t m' - t) =
      0 :: wire (c.stream c.pixelsSent) := by
    obtain ⟨s, reached⟩ := Option.isSome_iff_exists.mp (alive m')
    rw [(Paged.observes wired holds arrives.flash arrives.mode reached).2]
    exact all m' after
  refine ⟨begins r t m + 1, fun u after => ?_⟩
  obtain ⟨v, rfl⟩ := Nat.exists_eq_add_of_le' (show 1 ≤ u by omega)
  have reach := (Top.begins_le (r := r) t (m + v)).1
  have between := r.observe_between ledWrite (Top.le_begins r t m) (show begins r t m ≤ v by omega)
    (show v ≤ begins r t (m + v) by omega) ((shown _ (Nat.le_add_right m v)).trans (shown m le_rfl).symm)
  have cut := r.observe_cut ledWrite (Nat.zero_le t) ((Top.le_begins r t m).trans (show begins r t m ≤ v by omega))
  rw [Nat.sub_zero, Nat.sub_zero, arrives.leds, between, shown m le_rfl] at cut
  rw [display_state start dark powered connected, cut, Capture.feed_append]

end Design

/-- A display on the pins of a board. -/
def display (framed : Bool) (r : Run Board.step) : Run (Capture.step framed) :=
  .ofInputs (Capture.step framed) .reset fun u => (r.state u).top.uoOut

section Board

variable (c : Config) (image : List (BitVec 8)) (built : PagedAsm.image (script c) = some image)
  (r : Run Board.step) (b : Board) (reset : r.state 0 = b.reset) (holds : Holds b.chips.flash.mem image)
  (some_ : 0 < c.pixelCount) (low : c.pixelCount.testBit 11 = false) (high : c.pixelCount.testBit 23 = false)
include built reset holds some_ low high

/-- Without a host, and with a pixel count that `load_const32` loads: a display on the pins `uo_out[3:0]` that
drops an unfinished byte when CS is high (`framed`) receives, from power-up on, the initialisation and the
pixels, and nothing else at any time.  The test bench's circuit, which keeps the bits, receives sixteen bytes
before them, from the counter of the listen loop. -/
theorem display_receives (silent : Unattended (Board.topRun r))
    (framed : Bool) (d : Run (Capture.step framed)) (powered : d.state 0 = .reset)
    (connected : ∀ u, d.input u = (r.state u).top.uoOut) :
    let expected := (if framed then [] else List.replicate 16 ⟨true, 0x55⟩) ++ c.stream c.pixelCount
    (∃ T, ∀ u, T ≤ u → (d.state u).captured = expected) ∧ ∀ u, (d.state u).captured <+: expected := by
  have reset' : (Board.topRun r).state 0 = b.top.reset := congrArg Board.top reset
  have start : Top.Boundary ((Board.topRun r).state 0) := reset' ▸ Top.boundary_reset b.top
  have dark : ((Board.topRun r).state 0).mem.regs.gpioOut = 0 := by rw [reset']; rfl
  have wired := Board.wired r 1#2 (by simp)
  obtain ⟨t, a, fail, -, arrives⟩ := Flash.arrives_alone reset' wired (idle_flash reset) silent
  have count := pixelsSent_eq c low high
  obtain ⟨T, ends⟩ := display_ends start dark powered connected built wired (holds_flash reset holds) arrives
    (by omega)
  rw [count] at ends
  have final (u : Nat) (after : T ≤ u) : (d.state u).captured =
      (if framed then [] else List.replicate 16 ⟨true, 0x55⟩) ++ c.stream c.pixelCount := by
    obtain ⟨count, -, captured⟩ := feed_boot framed fail
    rw [ends u after, feed_program count, captured]
  refine ⟨⟨T, final⟩, fun u => ?_⟩
  rw [← final (u + T) (Nat.le_add_left T u), d.state_eq_foldl u T]
  exact Capture.captured_prefix _

omit built reset holds some_ low high in
/-- The simulation's board, without a host: three pixels, and with the test bench's circuit the counter's
bytes before them. -/
theorem display_receives_simulated : ∃ image, PagedAsm.image (script Config.simulated) = some image ∧
    (∃ T, ∀ u, T ≤ u → ((display true (flashBoardRun (flashMem image))).state u).captured =
      Config.simulated.stream 3) ∧
    ∃ T, ∀ u, T ≤ u → ((display false (flashBoardRun (flashMem image))).state u).captured =
      List.replicate 16 ⟨true, 0x55⟩ ++ Config.simulated.stream 3 := by
  obtain ⟨image, built, -⟩ := (builds_script Config.simulated).image
  have receives (framed : Bool) := (display_receives Config.simulated image built (flashBoardRun (flashMem image))
    (flashBoard (flashMem image)) rfl (holds_image built) (by decide) (by decide) (by decide)
    (Flash.unattended_flashBoard _) framed (display framed _) rfl fun _ => rfl).1
  exact ⟨image, built, receives true, receives false⟩

/-- With a host that sends the stub, and such a pixel count: a display that drops an unfinished byte when CS is
high receives the stream exactly if the counter has stopped with no bits of a byte pending. -/
theorem display_receives_loaded : ∃ t₀, SelfTested (Board.topRun r) t₀ ∧
    ∀ low rise, Host (Board.topRun r) t₀ low rise handoffStub →
    ∀ d : Run (Capture.step true), d.state 0 = .reset → (∀ u, d.input u = (r.state u).top.uoOut) →
      ((∃ T, ∀ u, T ≤ u → (d.state u).captured = c.stream c.pixelCount) ↔
        ledsBefore (Board.topRun r) low % 16 = 0 ∨ 8 ≤ ledsBefore (Board.topRun r) low % 16) := by
  have reset' : (Board.topRun r).state 0 = b.top.reset := congrArg Board.top reset
  have wired := Board.wired r 1#2 (by simp)
  have pixels := pixelsSent_eq c low high
  obtain ⟨t₀, tested, loaded⟩ := Flash.arrives_loaded reset' wired (idle_flash reset)
  refine ⟨t₀, tested, fun low rise host d powered connected => ?_⟩
  obtain ⟨t, a, fail, -, arrives⟩ := loaded low rise host
  have start : Top.Boundary ((Board.topRun r).state 0) := reset' ▸ Top.boundary_reset b.top
  have dark : ((Board.topRun r).state 0).mem.regs.gpioOut = 0 := by rw [reset']; rfl
  obtain ⟨T, ends⟩ := display_ends start dark powered connected built wired (holds_flash reset holds) arrives
    (by omega)
  rw [pixels] at ends
  obtain ⟨count, -, captured⟩ := feed_leds fail (ledsBefore (Board.topRun r) low)
  rw [← pending_eq_zero]
  constructor
  · rintro ⟨T', received⟩
    by_contra some_bits
    have final := received (T + T') (Nat.le_add_left T' T)
    have head : c.stream c.pixelCount = command 1 :: (c.stream c.pixelCount).tail := rfl
    rw [ends _ (Nat.le_add_right T T'), head] at final
    have few : pending (ledsBefore (Board.topRun r) low) ≤ 4 := by
      unfold pending
      split <;> omega
    exact feed_program_shifted count ⟨Nat.pos_of_ne_zero some_bits, by omega⟩ captured _ final
  · intro none
    rw [none] at count
    exact ⟨T, fun u after => by rw [ends u after, feed_program count, captured, List.nil_append]⟩

end Board

/-- A board with this flash chip, and the test bench's driver as a host that sends the stub at once. -/
def driverBoardRun (mem : BitVec 14 → BitVec 8) : Run Board.step :=
  .ofInputs Board.step (flashBoard mem).reset (Boot.driverInput handoffStub)

theorem display_receives_loaded_simulated : ∃ image, PagedAsm.image (script Config.simulated) = some image ∧
    ∃ T, ∀ u, T ≤ u → ((display true (driverBoardRun (flashMem image))).state u).captured =
      Config.simulated.stream 3 := by
  obtain ⟨image, built, -⟩ := (builds_script Config.simulated).image
  refine ⟨image, built, ?_⟩
  obtain ⟨t₀, tested, receives⟩ := display_receives_loaded Config.simulated image built
    (driverBoardRun (flashMem image)) (flashBoard (flashMem image)) rfl (holds_image built) (by decide)
    (by decide) (by decide)
  have driven : Boot.Driven (Board.topRun (driverBoardRun (flashMem image))) t₀ 10286 0 handoffStub :=
    Boot.driven_of_input tested fun _ _ _ => rfl
  -- START is up before the first poll
  have first : ledsBefore (Board.topRun (driverBoardRun (flashMem image))) (Boot.driverLow 10286) = 0 := by
    obtain ⟨t, u, b, x, fail, -, -, -, reached, early, late, -, -, -, verdict⟩ :=
      Boot.boot_selfTest (r := Board.topRun (driverBoardRun (flashMem image))) (flashBoard (flashMem image)).top rfl
    have none := (Boot.poll_reached reached rfl verdict (k := 0) (by decide) fun j before => by omega).2.1
    have cut := (Board.topRun (driverBoardRun (flashMem image))).observe_cut polled (Nat.zero_le 10286)
      (show 10286 ≤ Boot.pollCycle t 0 + 6 by unfold Boot.pollCycle; omega)
    rw [none] at cut
    exact congrArg List.length (List.append_eq_nil_iff.mp cut.symm).1
  exact (receives _ _ (Boot.driver_host driven) (display true _) rfl fun _ => rfl).mpr (.inl (by rw [first]))

end St7789

end Programs

end AgilA32
