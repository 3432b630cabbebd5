import AgilA32.Boot.Driver
import AgilA32.Flash.Timing
import AgilA32.Programs.Keyboard
import AgilA32.Programs.Ps2Ascii

/-!
# A keyboard on the pins

A program in flash polls at a fixed rate, and the receiving pages poll again after eleven instructions,
or after those and what the consumer needs for a byte.  So of a device whose clock is slow enough they
miss no phase (`Consumer.hears`), and on the pins of the design a keyboard's bytes come out as the
consumer's answer (`Consumer.shows`).  From power-up on, the reader shows the bytes and the ASCII
program the characters of the keys pressed.
-/

namespace AgilA32

namespace Programs

open Clocked (Run)
open Flash (Arrives Holds Unattended)
open Mem (engineRun)
open Paged (Leads Log State begins_eq doing machine marked onPage period period_pos polled written)
open PagedAsm (Lists)
open Ps2 (Catches KeyEvent Sends frames)
open AgilA32.Top (begins gpioRead ledWrite memRun)

theorem feed_append {σ : Type*} (consume : σ → BitVec 8 → σ × List (BitVec 8)) (q : σ)
    (bs bs' : List (BitVec 8)) : Ps2.feed consume q (bs ++ bs') =
      ((Ps2.feed consume (Ps2.feed consume q bs).1 bs').1,
        (Ps2.feed consume q bs).2 ++ (Ps2.feed consume (Ps2.feed consume q bs).1 bs').2) := by
  induction bs generalizing q with
  | nil => rfl
  | cons b bs ih => simp [Ps2.feed, ih]

/-- What repeats soon is always near. -/
theorem recurs_within {P : Nat → Prop} {m g : Nat} (start : P m)
    (next : ∀ n, P n → ∃ n', n < n' ∧ n' ≤ n + g ∧ P n') (n : Nat) (after : m ≤ n) :
    ∃ n', n ≤ n' ∧ n' ≤ n + g ∧ P n' := by
  induction n, after using Nat.le_induction with
  | base => exact ⟨m, le_rfl, Nat.le_add_right m g, start⟩
  | succ n _ ih =>
      obtain ⟨n', later, soon, here⟩ := ih
      rcases Nat.lt_or_ge n n' with ahead | reached
      · exact ⟨n', ahead, by omega, here⟩
      · obtain rfl : n' = n := by omega
        obtain ⟨n'', later', soon', there⟩ := next n' here
        exact ⟨n'', later', by omega, there⟩

namespace Consumer

section Machine

variable {image : List (BitVec 8)} {code : List (List Rv32i.Instr)} (lists : Lists image code)
  {r : Run (Paged.step image)} {mark : State → Option (BitVec 32)} {σ : Type}
  (consumer : Consumer r mark σ) {q : σ} {m n : Nat} {x : RegFile}

/-- The consumer is done with a byte within `n` instructions. -/
def Soon (n : Nat) : Prop :=
  ∀ m x q b, r.state m = some (onPage 23 0 x) → x 4 = b.setWidth 32 → consumer.holds q x →
    ∃ m' x', m' ≤ m + n ∧
      Leads r mark m m' (onPage 1 0 x') ⟨[], (consumer.consume q b).2, consumer.marks b⟩ ∧ x' 4 = 0 ∧
      consumer.holds (consumer.consume q b).1 x'

variable (receives : Receives code) (unmarked : Unmarked mark) (soon : consumer.Soon n)
  {v : Nat → BitVec 8} {edge : Nat → Nat} {bytes : List (BitVec 8)} {a p : Nat}
  (sampled : ∀ k, r.input k = v (a + p * k)) (sends : Sends v edge (11 * p) ((11 + n) * p) bytes)
include lists receives unmarked soon sampled sends

/-- A poll in time for the device, and the next one. -/
theorem catches_next {k : Nat} (polling : consumer.Polling q k)
    (here : ∃ φ, Catches edge (11 * p) bytes (r.observe (polled image) 0 k) φ (a + p * k)) :
    ∃ k' s log, Leads r mark k k' s log ∧ log.polls.length = 1 ∧ k' ≤ k + (11 + n) ∧
      consumer.Polling q k' ∧
      ∃ φ, Catches edge (11 * p) bytes (r.observe (polled image) 0 k') φ (a + p * k') := by
  obtain ⟨φ, catches⟩ := here
  obtain ⟨k', s, log, leads, polls, there, near⟩ :=
    polling.next_of lists consumer receives unmarked (fun m m' => m' ≤ m + n) soon
  have within : k' ≤ k + if frames (r.observe (polled image) 0 k ++ [r.input k]) =
      frames (r.observe (polled image) 0 k) then 11 else 11 + n := by
    by_cases same : frames (r.observe (polled image) 0 k ++ [r.input k]) =
        frames (r.observe (polled image) 0 k)
    · rw [if_pos same] at near ⊢
      exact near
    · rw [if_neg same] at near ⊢
      obtain ⟨m₁, first, rest⟩ := near
      omega
  have observed : r.observe (polled image) 0 k' = r.observe (polled image) 0 k ++ [r.input k] := by
    have cut := r.observe_cut (polled image) (Nat.zero_le k) leads.upto
    rwa [leads.polls, polls] at cut
  obtain ⟨φ', next⟩ := catches.next sends (Nat.mul_le_mul_right p (Nat.le_add_right 11 n))
  refine ⟨k', s, log, leads, by rw [polls]; rfl, within.trans (by split <;> omega), there, φ', ?_⟩
  rw [observed, sampled]
  refine next _ (Nat.add_le_add_left (Nat.mul_le_mul_left p leads.upto) a) ?_
  have time := Nat.mul_le_mul_left p within
  rw [sampled] at time
  split at time <;> rename_i same
  · rw [if_pos same]
    linarith
  · rw [if_neg same]
    linarith

variable (here : r.state m = some (onPage 1 0 x)) (clear : x 4 = 0) (holds : consumer.holds q x)
  (silent : r.observe (polled image) 0 m = []) (still : r.observe (written image) 0 m = [])
  (bare : r.observe (marked mark) 0 m = []) (listening : edge 0 ≤ a + p * m)
  (early : 0 < bytes.length → a + p * m < edge 1 + 11 * p)
include here clear holds silent still bare listening early

/-- The polls of a run miss nothing that the device sends: at each of them the frames so far are bytes of
the device, all of them if it is done. -/
theorem hears :
    (∀ k, (r.state k).isSome = true) ∧
      (∀ k, m ≤ k → ∃ k', k ≤ k' ∧ k' ≤ k + (11 + n) ∧ doing image (r.state k') = some .poll) ∧
      ∀ k, doing image (r.state k) = some .poll →
        r.observe (written image) 0 k <+: (Ps2.feed consumer.consume q bytes).2 ∧
        (edge (22 * bytes.length) + 11 * p ≤ a + p * k →
          r.observe (written image) 0 k = (Ps2.feed consumer.consume q bytes).2) := by
  have start : consumer.Polling q m ∧
      ∃ φ, Catches edge (11 * p) bytes (r.observe (polled image) 0 m) φ (a + p * m) := by
    rw [silent]
    refine ⟨⟨_, x, 0, false, 0, here, ?_, ?_, ?_, ?_⟩, 0, Ps2.seen_nil bytes, listening,
      fun some_ => early (by omega)⟩
    · rw [silent]
      exact ⟨Ps2.receiver_nil, by omega, rfl, clear⟩
    · rw [silent]
      exact holds
    · rw [silent, still]
      rfl
    · rw [silent, bare]
      rfl
  have step (k : Nat) (at_ : consumer.Polling q k ∧
      ∃ φ, Catches edge (11 * p) bytes (r.observe (polled image) 0 k) φ (a + p * k)) :=
    catches_next lists consumer receives unmarked soon sampled sends at_.1 at_.2
  have polls (k : Nat) (at_ : consumer.Polling q k ∧
      ∃ φ, Catches edge (11 * p) bytes (r.observe (polled image) 0 k) φ (a + p * k)) :=
    at_.1.polls lists consumer receives
  obtain ⟨alive, -, all⟩ := Paged.of_polls start silent polls fun k at_ => by
    obtain ⟨k', s, log, leads, one, -, there⟩ := step k at_
    exact ⟨k', s, log, leads, one, there⟩
  refine ⟨alive, fun k after => ?_, fun k polling => ?_⟩
  · obtain ⟨k', later, near, there⟩ := recurs_within start (fun k at_ => by
      obtain ⟨k', s, log, leads, one, near, there⟩ := step k at_
      refine ⟨k', Nat.lt_of_le_of_ne leads.upto ?_, near, there⟩
      rintro rfl
      rw [← leads.polls, Nat.sub_self] at one
      cases one) k after
    exact ⟨k', later, near, polls k' there⟩
  · obtain ⟨⟨s, x, event, low, acc, -, -, -, writes, -⟩, φ, catches⟩ := all k polling
    rw [writes]
    constructor
    · rw [catches.seen.frames_eq]
      have whole := feed_append consumer.consume q (bytes.take (φ / 22)) (bytes.drop (φ / 22))
      rw [List.take_append_drop] at whole
      rw [whole]
      exact List.prefix_append _ _
    · intro late
      rw [catches.all sends late]

end Machine

section Design

variable {r : Run Top.step} {chip : Run SpiRam.step} {mem : BitVec 14 → BitVec 8}
  {image : List (BitVec 8)} {code : List (List Rv32i.Instr)} (lists : Lists image code)
  (wired : Attached (engineRun (memRun r)) chip 1#2) (stored : Holds mem image)
  {t k l : Nat} {fail : Bool} {a : Top.Arch} (arrives : Arrives r chip mem t k l fail a)
  {mark : State → Option (BitVec 32)} {σ : Type} (consumer : Consumer (machine r image t a) mark σ)
  {q : σ} {m n : Nat} {x : RegFile} (receives : Receives code) (unmarked : Unmarked mark)
  (soon : consumer.Soon n) (starts : Leads (machine r image t a) mark 0 m (onPage 1 0 x) .empty)
  (near : m ≤ 11) (clear : x 4 = 0) (holds : consumer.holds q x)
  (start : Top.Boundary (r.state 0)) {edge : Nat → Nat} {bytes : List (BitVec 8)} (first : edge 0 = t)
  (sends : Sends (fun u => (r.input u).uiIn) edge (11 * period 3#2) ((11 + n) * period 3#2) bytes)
include lists wired stored arrives receives unmarked soon starts near clear holds start first sends

/-- On the design: the stores to `LED_OUT` are the consumer's answer to bytes of the device, to all of
them if it is done, and then the last one is on the pins. -/
theorem shows {u : Nat} (after : t ≤ u) :
    r.observe ledWrite t (u - t) <+: (Ps2.feed consumer.consume q bytes).2 ∧
      (edge (22 * bytes.length) + (22 + n) * period 3#2 ≤ u →
        r.observe ledWrite t (u - t) = (Ps2.feed consumer.consume q bytes).2 ∧
        (r.state u).uoOut =
          (Ps2.feed consumer.consume q bytes).2.getLastD (r.state t).mem.regs.gpioOut) := by
  generalize period_eq : period 3#2 = p at sends ⊢
  have pos : 0 < p := period_eq ▸ period_pos 3#2
  have rate : period a.mem.qspiDivSel = p := by rw [arrives.divider, period_eq]
  obtain ⟨alive, -, -⟩ := consumer.observes lists receives unmarked starts.reached clear holds starts.polls
    starts.writes starts.marks
  have sampled (k : Nat) := Paged.machine_input wired stored arrives.flash arrives.mode alive k
  have begun (k : Nat) : begins r t k = t + p * k := by
    obtain ⟨s, reached⟩ := Option.isSome_iff_exists.mp (alive k)
    rw [begins_eq wired stored arrives.flash arrives.mode reached, rate]
  rw [rate] at sampled
  have soon_enough : p * m ≤ 11 * p := by
    rw [Nat.mul_comm]
    exact Nat.mul_le_mul_right p near
  have product : (11 + n) * p = 11 * p + n * p := Nat.add_mul 11 n p
  obtain ⟨-, recurs, all⟩ := consumer.hears lists receives unmarked soon sampled sends starts.reached clear
    holds starts.polls starts.writes starts.marks (by omega) fun some_ => by
      have lasts := sends.lasts 0 (by omega)
      rw [if_pos (Nat.zero_mod 22)] at lasts
      change edge 0 + _ ≤ edge 1 at lasts
      omega
  -- the stores up to an instruction that polls
  have stores (k : Nat) : r.observe ledWrite t (begins r t k - t) =
      (machine r image t a).observe (written image) 0 k := by
    obtain ⟨s, reached⟩ := Option.isSome_iff_exists.mp (alive k)
    exact (Paged.observes wired stored arrives.flash arrives.mode reached).2
  have earlier {u₁ u₂ : Nat} (from_ : t ≤ u₁) (upto : u₁ ≤ u₂) :
      r.observe ledWrite t (u₁ - t) <+: r.observe ledWrite t (u₂ - t) := by
    rw [r.observe_cut ledWrite from_ upto]
    exact List.prefix_append _ _
  obtain ⟨k', later, -, polling⟩ := recurs (max m u) (le_max_left m u)
  have beyond : u ≤ begins r t k' := by
    rw [begun]
    have : u ≤ p * k' := (le_max_right m u).trans (later.trans (Nat.le_mul_of_pos_left k' pos))
    omega
  have some_ : r.observe ledWrite t (u - t) <+: (Ps2.feed consumer.consume q bytes).2 :=
    (earlier after beyond).trans (stores k' ▸ (all k' polling).1)
  refine ⟨some_, fun late => ?_⟩
  -- the first poll after the device is done, and one more byte's time
  have done := sends.edge_mono (Nat.zero_le (22 * bytes.length)) le_rfl
  rw [first] at done
  generalize last_eq : edge (22 * bytes.length) = e at late done
  have split := Nat.div_add_mod (e + 11 * p - t) p
  have small := Nat.mod_lt (e + 11 * p - t) pos
  generalize (e + 11 * p - t) / p = k₀ at split
  obtain ⟨k₁, later₁, near₁, polling₁⟩ := recurs (max m k₀) (le_max_left m k₀)
  have lower : p * k₀ ≤ p * k₁ := Nat.mul_le_mul_left p ((le_max_right m k₀).trans later₁)
  have upper : p * k₁ ≤ max (p * m) (p * k₀) + (11 + n) * p := by
    rw [Nat.mul_max_mul_left, Nat.mul_comm (11 + n) p, ← Nat.mul_add]
    exact Nat.mul_le_mul_left p near₁
  have whole := (all k₁ polling₁).2 (by rw [last_eq]; omega)
  rw [← stores] at whole
  have total : (22 + n) * p = 11 * p + (11 * p + n * p) := by ring
  have reach : begins r t k₁ ≤ u := by
    rw [begun]
    rcases Nat.le_total (p * m) (p * k₀) with left | right
    · rw [max_eq_right left] at upper
      omega
    · rw [max_eq_left right] at upper
      omega
  have all_ : r.observe ledWrite t (u - t) = (Ps2.feed consumer.consume q bytes).2 := by
    have between := earlier (Top.le_begins r t k₁) reach
    rw [whole] at between
    exact some_.eq_of_length (Nat.le_antisymm some_.length_le between.length_le)
  refine ⟨all_, ?_⟩
  obtain ⟨s, reached⟩ := Option.isSome_iff_exists.mp (alive k')
  rw [Paged.uoOut_last wired stored arrives.flash arrives.mode start arrives.mux reached after beyond, all_]

end Design

end Consumer

/-! ## From power-up on -/

section Serve

variable {α : Type}

/-- From cycle `t` on a device may send messages; the stores to `LED_OUT` are answers to those that have been
received, with `n` instructions for each byte, and in the end the pins show the last one. -/
def Answers (r : Run Top.step) (t n : Nat) (encode answer : List α → List (BitVec 8)) : Prop :=
  ∀ (edge : Nat → Nat) (sent : List α), edge 0 = t →
    Sends (fun u => (r.input u).uiIn) edge (11 * 8201) ((11 + n) * 8201) (encode sent) →
    ∀ u, t ≤ u → r.observe ledWrite t (u - t) <+: answer sent ∧
      (edge (22 * (encode sent).length) + (22 + n) * 8201 ≤ u →
        r.observe ledWrite t (u - t) = answer sent ∧
        (r.state u).uoOut = (answer sent).getLastD (r.state t).mem.regs.gpioOut)

/-- On a board with this image in its flash the program is entered, without a host or with one that sends
the stub, and answers from there on. -/
def Serves (image : List (BitVec 8)) (n : Nat) (encode answer : List α → List (BitVec 8)) : Prop :=
  ∀ (r : Run Board.step) (b : Board), r.state 0 = b.reset → Holds b.chips.flash.mem image →
    (Unattended (Board.topRun r) → ∃ t, t ≤ 42570 ∧ Answers (Board.topRun r) t n encode answer) ∧
    ∃ t₀, Boot.SelfTested (Board.topRun r) t₀ ∧ ∀ low rise,
      Boot.Host (Board.topRun r) t₀ low rise Flash.handoffStub →
        ∃ t, t ≤ low 40 + 113 ∧ Answers (Board.topRun r) t n encode answer

theorem serves {image : List (BitVec 8)} {n : Nat} {encode answer : List α → List (BitVec 8)}
    (answers : ∀ {r : Run Top.step} {chip : Run SpiRam.step} {t k l : Nat} {fail : Bool} {a : Top.Arch},
      Attached (engineRun (memRun r)) chip 1#2 → Holds (chip.state 0).mem image →
      Arrives r chip (chip.state 0).mem t k l fail a → Top.Boundary (r.state 0) →
      Answers r t n encode answer) : Serves image n encode answer := by
  intro r b reset holds
  exact Flash.entered reset (P := fun r t _ => Answers r t n encode answer) answers holds

end Serve

/-- A board with this flash chip, a host that sends the stub if `hosted`, and a keyboard that begins after a
million cycles. -/
def keyboardRun (hosted : Bool) (mem : BitVec 14 → BitVec 8) (bytes : List (BitVec 8)) : Run Board.step :=
  .ofInputs Board.step (Flash.flashBoard mem).reset fun u =>
    { uiIn := (if hosted then (Boot.driverInput Flash.handoffStub u).uiIn &&& 7#8 else 0#8) |||
        Ps2.keyboard 1000000 700000 bytes u
      uioIn := 0
      undef := 0 }

theorem keyboardRun_low (hosted : Bool) (mem : BitVec 14 → BitVec 8) (bytes : List (BitVec 8)) (u k : Nat)
    (small : k < 3) : ((keyboardRun hosted mem bytes).input u).uiIn.getLsbD k =
      (hosted && (Boot.driverInput Flash.handoffStub u).uiIn.getLsbD k) := by
  have low : (7#8).getLsbD k = true := by interval_cases k <;> rfl
  have away : (Ps2.keyboard 1000000 700000 bytes u).getLsbD k = false := by
    simp only [Ps2.keyboard, BitVec.getLsbD_or, BitVec.getLsbD_shiftLeft]
    rw [decide_eq_true (show k < 3 by omega), decide_eq_true (show k < 4 by omega)]
    simp
  rw [keyboardRun, Run.ofInputs_input, BitVec.getLsbD_or, away, Bool.or_false]
  cases hosted
  · simp
  · rw [if_pos rfl, BitVec.getLsbD_and, low, Bool.and_true, Bool.true_and]

/-- The lines of the keyboard in such a run. -/
theorem sends_keyboardRun (hosted : Bool) (mem : BitVec 14 → BitVec 8) (bytes : List (BitVec 8))
    {t hold idle : Nat} (slow : hold ≤ 700000 ∧ idle ≤ 700000) (rests : t + idle ≤ 1000000) :
    Sends (fun u => ((keyboardRun hosted mem bytes).input u).uiIn) (Ps2.edges 1000000 700000 t) hold idle
      bytes := by
  refine (Ps2.sends_keyboard (by decide) slow rests).congr fun u k bit => ?_
  rw [keyboardRun, Run.ofInputs_input, BitVec.getLsbD_or]
  have high : (7#8).getLsbD k = false := by rcases bit with rfl | rfl <;> rfl
  cases hosted
  · simp
  · rw [if_pos rfl, BitVec.getLsbD_and, high, Bool.and_false, Bool.false_or]

/-- The image of a script fits the flash chip. -/
theorem holds_built {image : List (BitVec 8)} {code : List (List Rv32i.Instr)} (lists : Lists image code)
    (fits : code.length ≤ 256) : Holds (Flash.flashMem image) image := by
  have whole := Flash.holds_flashMem image
  rwa [List.take_of_length_le (by rw [lists.length]; omega)] at whole

namespace Ps2Reader

/-- The reader shows every byte. -/
theorem serves_bytes (image : List (BitVec 8)) (built : PagedAsm.image script = some image) :
    Serves image 11 id id := by
  obtain ⟨image', built', lists⟩ := builds_script.image
  obtain rfl : image = image' := Option.some.inj (built.symm.trans built')
  refine serves fun {r chip t k l fail a} wired stored arrives start edge bytes first sends u after => ?_
  obtain ⟨m, x, near, starts, clear⟩ := starts_within lists (arrives.onPage image) arrives.entry
  have shows := (consumer lists).shows lists wired stored arrives receives
    ⟨fun _ _ _ _ _ => unmarked _, fun _ => unmarked _⟩
    (fun m x q b here handed _ => by
      obtain ⟨m', x', soon, takes, clear⟩ := takes_within lists here handed
      exact ⟨m', x', soon, takes, clear, trivial⟩)
    starts (by omega) clear (q := ()) trivial start first sends after
  rwa [show (consumer lists).consume = fun _ b => ((), [b]) from rfl, feed_unit] at shows

/-- The test bench: a host loads the stub, and a keyboard sends the code of a key. -/
theorem serves_bytes_loaded : ∃ image, PagedAsm.image script = some image ∧
    ((keyboardRun true (Flash.flashMem image) [0x1C#8]).state 16000000).top.uoOut = 0x1C#8 := by
  obtain ⟨image, built, lists⟩ := builds_script.image
  refine ⟨image, built, ?_⟩
  obtain ⟨-, t₀, tested, loaded⟩ := serves_bytes image built (keyboardRun true (Flash.flashMem image) [0x1C#8])
    (Flash.flashBoard (Flash.flashMem image)) rfl (holds_built lists (by decide))
  have driven : Boot.Driven (Board.topRun (keyboardRun true (Flash.flashMem image) [0x1C#8])) t₀ 10286 0
      Flash.handoffStub :=
    Boot.driven_of_input tested fun u k small => keyboardRun_low true (Flash.flashMem image) [0x1C#8] u k small
  obtain ⟨t, early, answers⟩ := loaded _ _ (Boot.driver_host driven)
  have soon : t ≤ 34219 := early
  exact ((answers (Ps2.edges 1000000 700000 t) [0x1C#8] rfl
    (sends_keyboardRun true (Flash.flashMem image) [0x1C#8] (by decide) (by omega)) 16000000 (by omega)).2
    (show 1000000 + 700000 * 21 + 33 * 8201 ≤ 16000000 by decide)).2

end Ps2Reader

namespace Ps2Ascii

/-- The ASCII program shows what the flags make of the bytes. -/
theorem serves_flags (image : List (BitVec 8)) (built : PagedAsm.image script = some image) :
    Serves image 70 id fun bytes => (Ps2.feed Flags.consume ⟨false, false⟩ bytes).2 := by
  obtain ⟨image', built', lists⟩ := builds_script.image
  obtain rfl : image = image' := Option.some.inj (built.symm.trans built')
  refine serves fun {r chip t k l fail a} wired stored arrives start edge bytes first sends u after => ?_
  obtain ⟨m, x, near, starts, clear, holds⟩ := starts_within lists (arrives.onPage image) arrives.entry
  exact (consumer lists).shows lists wired stored arrives receives unmarked
    (fun m x q b here byte holds => takes_within lists here byte holds) starts (by omega) clear holds start
    first sends after

/-- The character that an event types. -/
def typed (e : KeyEvent) : Option (BitVec 8) :=
  if e.extended || e.released then none else some (.ofNat 8 (asciiVal e.scancode.toNat))

/-- A key event leaves no flag set, and hands on the character of a plain key pressed. -/
theorem consume_event (e : KeyEvent) :
    Ps2.feed Flags.consume ⟨false, false⟩ e.bytes = (⟨false, false⟩, (typed e).toList) := by
  obtain ⟨extended, released, scancode, f0, e0⟩ := e
  cases extended <;> cases released <;> simp [KeyEvent.bytes, typed, Ps2.feed, Flags.consume, f0, e0]

/-- Of the events of a keyboard the program types the presses of plain keys. -/
theorem consume_events (events : List KeyEvent) :
    Ps2.feed Flags.consume ⟨false, false⟩ (events.flatMap KeyEvent.bytes) =
      (⟨false, false⟩, events.filterMap typed) := by
  induction events with
  | nil => rfl
  | cons e events ih =>
      rw [List.flatMap_cons, feed_append, consume_event, ih]
      cases found : typed e <;> simp [found]

/-- The ASCII program shows the characters of the keys that are pressed. -/
theorem serves_keys (image : List (BitVec 8)) (built : PagedAsm.image script = some image) :
    Serves image 70 (fun events : List KeyEvent => events.flatMap KeyEvent.bytes)
      (fun events => events.filterMap typed) := by
  have keys {r : Run Top.step} {t : Nat}
      (answers : Answers r t 70 id fun bytes => (Ps2.feed Flags.consume ⟨false, false⟩ bytes).2) :
      Answers r t 70 (fun events : List KeyEvent => events.flatMap KeyEvent.bytes)
        (fun events => events.filterMap typed) := by
    intro edge events first sends u after
    have shows := answers edge (events.flatMap KeyEvent.bytes) first sends u after
    dsimp only at shows
    rwa [consume_events] at shows
  intro r b reset holds
  obtain ⟨alone, t₀, tested, loaded⟩ := serves_flags image built r b reset holds
  refine ⟨fun unattended => ?_, t₀, tested, fun low rise host => ?_⟩
  · obtain ⟨t, early, answers⟩ := alone unattended
    exact ⟨t, early, keys answers⟩
  · obtain ⟨t, early, answers⟩ := loaded low rise host
    exact ⟨t, early, keys answers⟩

/-- Without a host: the key of the letter a is pressed and released. -/
def letter : List KeyEvent := [⟨false, false, 0x1C, by decide⟩, ⟨false, true, 0x1C, by decide⟩]

theorem serves_keys_letter : ∃ image, PagedAsm.image script = some image ∧
    ((keyboardRun false (Flash.flashMem image) (letter.flatMap KeyEvent.bytes)).state 50000000).top.uoOut =
      97#8 := by
  obtain ⟨image, built, lists⟩ := builds_script.image
  refine ⟨image, built, ?_⟩
  obtain ⟨alone, -⟩ := serves_keys image built
    (keyboardRun false (Flash.flashMem image) (letter.flatMap KeyEvent.bytes))
    (Flash.flashBoard (Flash.flashMem image)) rfl (holds_built lists length_code.le)
  obtain ⟨t, early, answers⟩ := alone fun v _ high => by
    have seen := Boot.polled_eq high
    have low := keyboardRun_low false (Flash.flashMem image) (letter.flatMap KeyEvent.bytes) v 2 (by decide)
    exact Bool.false_ne_true (low.symm.trans seen)
  have sends := sends_keyboardRun false (Flash.flashMem image) (letter.flatMap KeyEvent.bytes) (t := t)
    (show 11 * 8201 ≤ 700000 ∧ 81 * 8201 ≤ 700000 by decide) (by omega)
  exact ((answers (Ps2.edges 1000000 700000 t) letter rfl sends 50000000 (by omega)).2
    (show 1000000 + 700000 * 65 + 92 * 8201 ≤ 50000000 by decide)).2

end Ps2Ascii

end Programs

end AgilA32
