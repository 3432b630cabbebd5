import AgilA32.Flash.Simulation
import AgilA32.Programs.St7789

/-!
# The delay pages

A delay page loads its count with a single `ADDI`, whose immediate the assembler cuts to twelve bits and
the core extends by its sign, and counts down from that.  The paged machine decrements `x2` as often as
the value left says (`delays_rounds`), and the core does what the machine does (`Delays.core`).  So the
page delays by the configured count exactly when the cut keeps it (`delays_exactly`).
-/

namespace AgilA32

namespace Programs

namespace St7789

open AgilA32.Top (Arch At Boundary begins memRun word)
open Flash (Continues FlashAt Holds flashBoardRun flashMem)
open Mem (engineRun)
open Paged (Leads State fetch fetch_onPage machine marked onPage)
open PagedAsm (Lists)
open Rv32i (Instr decode)

/-! ## On the paged machine -/

/-- The instruction that counts down. -/
def decrement : Instr := .aluImm .add 2 2 (-1)

/-- The run is about to decrement `x2`. -/
def decrements (image : List (BitVec 8)) (s : Option State) (_ : BitVec 8) : Option Unit :=
  if s.bind (fetch image) = some decrement then some () else none

/-- On the delay page `k` from step `m` on, the run decrements `x2` `n` times before it gets to the first
word of the next page, which takes at most `3 * n + 9` instructions. -/
def Delays {image : List (BitVec 8)} (r : Clocked.Run (Paged.step image)) (m k n : Nat) : Prop :=
  ∃ m', m ≤ m' ∧ m' ≤ m + 3 * n + 9 ∧ (∃ y, r.state m' = some (onPage (.ofNat 8 (k + 1)) 0 y)) ∧
    (∀ j y, m ≤ j → j < m' → r.state j ≠ some (onPage (.ofNat 8 (k + 1)) 0 y)) ∧
    (r.observe (decrements image) m (m' - m)).length = n

/-- The mark 0 on a decrement, and the mark 1 on the first word of the next page. -/
def progress (image : List (BitVec 8)) (k : Nat) (s : State) : Option (BitVec 32) :=
  if s.page = .ofNat 8 (k + 1) ∧ s.pc = 0xB4 then some 1
  else if fetch image s = some decrement then some 0 else none

section Delay

variable {image : List (BitVec 8)} {code : List (List Instr)} (lists : Lists image code)
  {r : Clocked.Run (Paged.step image)} {m k count : Nat} {x : RegFile}

/-- Only slot 2 of the page decrements. -/
theorem delayListing_slots (count next : Nat) {j : Nat} (within : j ≤ 10) (other : j ≠ 2) :
    ∃ i, (delayListing count next)[j]? = some i ∧ i ≠ decrement := by
  interval_cases j <;> first | exact absurd rfl other | exact ⟨_, rfl, by simp [decrement, nop]⟩

theorem page_ne (k : Nat) : BitVec.ofNat 8 k ≠ .ofNat 8 (k + 1) := by
  intro same
  have value := congrArg BitVec.toNat same
  rw [BitVec.toNat_ofNat, BitVec.toNat_ofNat] at value
  omega

include lists in
/-- What a delay page does until it is left for the first time. -/
theorem delays_rounds (few : code.length ≤ 256) (held : code[k]? = some (delayListing count (k + 1)))
    (next : k + 1 < code.length) (here : r.state m = some (onPage (.ofNat 8 k) 0 x)) :
    Delays r m k (rounds count) := by
  have number (n : Nat) (small : n < code.length) : (BitVec.ofNat 8 n).toNat = n := by
    rw [BitVec.toNat_ofNat]
    omega
  have apart := page_ne k
  have held' : code[(BitVec.ofNat 8 k).toNat]? = some (delayListing count (k + 1)) := by
    rwa [number k (by omega)]
  have elsewhere (j : Nat) (y : RegFile) (within : j ≤ 10) (other : j ≠ 2) :
      progress image k (onPage (.ofNat 8 k) j y) = none := by
    obtain ⟨i, listed, differs⟩ := delayListing_slots count (k + 1) within other
    rw [progress, if_neg fun first => apart first.1, fetch_onPage lists held' listed,
      if_neg fun same => differs (Option.some.inj same)]
  have slot (y : RegFile) : progress image k (onPage (.ofNat 8 k) 2 y) = some 0 := by
    rw [progress, if_neg fun first => apart first.1,
      fetch_onPage lists held' (show (delayListing count (k + 1))[2]? = some decrement from rfl), if_pos rfl]
  have trampoline (y : RegFile) : progress image k (onPage (.ofNat 8 (k + 1)) 10 y) = none := by
    have later : BitVec.ofNat 8 (0xB4 + 4 * 10) ≠ 0xB4 := by decide
    have held'' : code[(BitVec.ofNat 8 (k + 1)).toNat]? = some code[k + 1] := by
      rw [number _ next, List.getElem?_eq_getElem next]
    rw [progress, if_neg fun first => later first.2,
      fetch_onPage lists held'' (lists.trampoline _ (List.getElem_mem next)), if_neg (by simp [decrement])]
  obtain ⟨m', y, soon, leads, -⟩ := leads_delay lists few held elsewhere slot trampoline next here
  have ticks : (List.replicate (rounds count) (some (0 : BitVec 32))).reduceOption =
      List.replicate (rounds count) 0 := by
    rw [List.reduceOption, List.filterMap_replicate_of_some (id_def _)]
  have marks := leads.marks.trans ticks
  have first (j : Nat) (y : RegFile) (after : m ≤ j) (before : j < m') :
      r.state j ≠ some (onPage (.ofNat 8 (k + 1)) 0 y) := by
    intro there
    have seen := (r.mem_observe (marked (progress image k)) (a := m) (n := m' - m) (b := 1)).mpr
      ⟨j, after, by omega, by rw [there]; exact if_pos ⟨rfl, rfl⟩⟩
    rw [marks] at seen
    exact absurd (List.eq_of_mem_replicate seen) (by decide)
  refine ⟨m', leads.upto, soon, ⟨y, leads.reached⟩, first, ?_⟩
  have counted : r.observe (decrements image) m (m' - m) =
      r.observe (fun s v => (marked (progress image k) s v).bind fun _ => some ()) m (m' - m) := by
    refine r.observe_congr fun j after before => ?_
    obtain ⟨s, there⟩ := Option.isSome_iff_exists.mp
      (Paged.isSome_before (by rw [leads.reached]; rfl) (show j ≤ m' by omega))
    have before' : ¬(s.page = .ofNat 8 (k + 1) ∧ s.pc = 0xB4) := by
      obtain ⟨page, pc, y'⟩ := s
      rintro ⟨rfl, rfl⟩
      exact first j y' after (by omega) there
    rw [there, decrements, marked, Option.bind_some, Option.bind_some, progress, if_neg before']
    split <;> rfl
  rw [counted, r.observe_bind, marks]
  simp

/-- The counts that the page keeps. -/
theorem rounds_eq (count : Nat) : count = rounds count ↔
    count < 2048 ∨ 2 ^ 32 - 2048 ≤ count ∧ count < 2 ^ 32 := by
  rw [rounds, BitVec.toNat_ofInt, signed]
  split <;> omega

end Delay

/-! ## On the core -/

/-- From the instruction of cycle `t` on, the core decrements `x2` `n` times before it gets to the first
word of the page `next`, which takes at most `3 * n + 9` instructions. -/
def CoreDelays (r : Clocked.Run Top.step) (mem : BitVec 14 → BitVec 8) (t next n : Nat) : Prop :=
  ∃ m, m ≤ 3 * n + 9 ∧ Continues r mem (begins r t m) next ∧
    (∀ j, j < m → ¬Continues r mem (begins r t j) next) ∧
    (List.range m).countP (fun j => decode (word r (begins r t j)) = some decrement) = n

section Core

variable {r : Clocked.Run Top.step} {chip : Clocked.Run SpiRam.step} {mem : BitVec 14 → BitVec 8}
  {image : List (BitVec 8)} {t k n : Nat} {a : Arch}

/-- What the paged machine does, the core does. -/
theorem Delays.core (wired : Attached (engineRun (memRun r)) chip 1#2) (holds : Holds mem image)
    (flash : FlashAt r chip mem t a) (mode : a.mem.flashMode = true) (small : k + 1 < 256)
    (delays : Delays (machine r image t a) 0 k n) : CoreDelays r mem t (k + 1) n := by
  obtain ⟨m, -, soon, ⟨y, there⟩, first, counted⟩ := delays
  have number : (BitVec.ofNat 8 (k + 1)).toNat = k + 1 := by
    rw [BitVec.toNat_ofNat]
    omega
  have alive {j : Nat} (upto : j ≤ m) : ∃ s, (machine r image t a).state j = some s :=
    Option.isSome_iff_exists.mp (Paged.isSome_before (by rw [there]; rfl) upto)
  have shown := Paged.simulates wired holds flash mode there
  refine ⟨m, by omega, ⟨shown.here.pc, ?_, ?_⟩, fun j before continues => ?_, ?_⟩
  · exact (congrArg (·.flashPage.toNat) shown.here.mem).trans number
  · have fetched := shown.fetch wired mode (by simp [Paged.toArch, onPage]) (by simp [Paged.toArch, onPage])
    simpa [Paged.toArch, onPage, number] using fetched
  · obtain ⟨s, here⟩ := alive before.le
    have earlier := (Paged.simulates wired holds flash mode here).here
    obtain ⟨pc, page, -⟩ := continues
    refine first j s.x (Nat.zero_le j) before (here.trans (congrArg some ?_))
    rw [earlier.pc] at pc
    rw [earlier.mem] at page
    have same : s.page = .ofNat 8 (k + 1) := BitVec.eq_of_toNat_eq (page.trans number.symm)
    exact congrArg₂ (fun page pc => State.mk page pc s.x) same pc
  · rw [← counted, Nat.sub_zero, Clocked.Run.observe, List.length_filterMap_eq_countP, ← List.range_eq_range']
    refine List.countP_congr fun j member => ?_
    obtain ⟨s, here⟩ := alive (List.mem_range.mp member).le
    obtain ⟨s', next⟩ := alive (List.mem_range.mp member)
    rw [(machine r image t a).edge] at next
    obtain ⟨s₀, here', stepped⟩ := Option.bind_eq_some_iff.mp next
    obtain rfl : s₀ = s := Option.some.inj (here'.symm.trans here)
    obtain ⟨i, fetched, -⟩ := Option.bind_eq_some_iff.mp stepped
    have decoded := Paged.word_of_fetch wired holds (Paged.simulates wired holds flash mode here) mode fetched
    rw [decoded, here, decrements, Option.bind_some, fetched]
    by_cases counts : some i = some decrement <;> simp [counts]

/-- The page is left for the first time only once. -/
theorem CoreDelays.iff (delays : CoreDelays r mem t k n) (n' : Nat) :
    CoreDelays r mem t k n' ↔ n' = n := by
  refine ⟨fun delays' => ?_, fun same => same ▸ delays⟩
  obtain ⟨m, -, there, first, counted⟩ := delays
  obtain ⟨m', -, there', first', counted'⟩ := delays'
  rcases Nat.lt_trichotomy m m' with before | rfl | before
  · exact (first' m before there).elim
  · exact counted'.symm.trans counted
  · exact (first m' before there').elim

end Core

/-- The two delay pages of the program. -/
theorem held_delay (c : Config) {k : Nat} (delay : k = 9 ∨ k = 18) :
    (code c)[k]? = some (delayListing c.delayCount (k + 1)) := by
  rcases delay with rfl | rfl
  · exact held_items c 8 _ rfl
  · exact held_items c 17 _ rfl

theorem code_small (c : Config) : (code c).length ≤ 256 := by
  rw [length_code]
  omega

section Image

variable {c : Config} {image : List (BitVec 8)} (built : PagedAsm.image (script c) = some image)
include built

/-- The image consists of the pages. -/
theorem lists_image : Lists image (code c) := by
  obtain ⟨image', built', lists⟩ := (builds_script c).image
  exact Option.some.inj (built'.symm.trans built) ▸ lists

/-- A delay page decrements `x2` as often as the page keeps of the count. -/
theorem image_delays {r : Clocked.Run Top.step} {chip : Clocked.Run SpiRam.step} {mem : BitVec 14 → BitVec 8}
    {t : Nat} {a : Arch} (wired : Attached (engineRun (memRun r)) chip 1#2) (holds : Holds mem image)
    (flash : FlashAt r chip mem t a) (mode : a.mem.flashMode = true) {k : Nat} (delay : k = 9 ∨ k = 18)
    (page : a.mem.flashPage = .ofNat 8 k) (pc : a.pc = 0xB4#8) :
    CoreDelays r mem t (k + 1) (rounds c.delayCount) := by
  have length := length_code c
  have start : (machine r image t a).state 0 = some (onPage (.ofNat 8 k) 0 a.x) := by
    rw [machine, Clocked.Run.ofInputs_state_zero, Paged.ofArch, page, pc]
    rfl
  exact (delays_rounds (lists_image built) (code_small c) (held_delay c delay) (by omega) start).core wired
    holds flash mode (by omega)

/-- The delay pages delay by the configured count if and only if it fits in eleven bits, or is one that a
negative number of twelve bits gives in a register. -/
theorem delays_exactly (r : Clocked.Run Top.step) (chip : Clocked.Run SpiRam.step)
    (start : Boundary (r.state 0)) (wired : Attached (engineRun (memRun r)) chip 1#2)
    (idle : (chip.state 0).Idle) (holds : Holds (chip.state 0).mem image) {t : Nat} {a : Arch}
    (here : At r t a) (mode : a.mem.flashMode = true) {k : Nat} (delay : k = 9 ∨ k = 18)
    (page : a.mem.flashPage = .ofNat 8 k) (pc : a.pc = 0xB4#8) :
    CoreDelays r (chip.state 0).mem t (k + 1) c.delayCount ↔
      c.delayCount < 2048 ∨ 2 ^ 32 - 2048 ≤ c.delayCount ∧ c.delayCount < 2 ^ 32 := by
  have flash := Flash.flashAt_of_boundary wired start idle here
  have delays := image_delays built wired holds flash mode delay page pc
  exact (delays.iff c.delayCount).trans (rounds_eq c.delayCount)

theorem holds_image : Holds (flashMem image) image := by
  have whole := Flash.holds_flashMem image
  rwa [List.take_of_length_le (by rw [(lists_image built).length, length_code]; omega)] at whole

/-- A board with the image, and no host, gets to the first delay page. -/
theorem reaches_delay : ∃ t a, FlashAt (Board.topRun (flashBoardRun (flashMem image)))
    (Board.chipRun (flashBoardRun (flashMem image)) 1#2) (flashMem image) t a ∧
    a.mem.flashMode = true ∧ a.mem.flashPage = .ofNat 8 9 ∧ a.pc = 0xB4#8 := by
  have lists := lists_image built
  have holds := holds_image built
  have length := length_code c
  have first : decode (SpiRam.wordAt (flashMem image) 0) = some (.aluImm .add 0 0 0) := by
    rw [holds.wordAt (by rw [lists.length]; omega)]
    exact lists.decodes 0 0 (startListing c.pixelCount) nop rfl rfl
  obtain ⟨t, a, flash, mode, page, pc⟩ := Flash.flashBoard_enters first
  have start : (machine (Board.topRun (flashBoardRun (flashMem image))) image t a).state 0 =
      some (onPage 0 1 a.x) := by
    rw [machine, Clocked.Run.ofInputs_state_zero, Paged.ofArch, page, pc]
    rfl
  obtain ⟨m, x, started⟩ := leads_start lists start (.inr rfl)
  have swreset : Held (code c) 1 ((Item.send false 0x01).pages 1) := (held_items c).append.1
  obtain ⟨m', x', reset, -⟩ := leads_item lists (code_small c) swreset (by rw [Item.size]; omega)
    started.reached
  exact ⟨_, _, Paged.simulates (Board.wired _ 1#2 (by simp)) holds flash mode reset.reached, mode, rfl, rfl⟩

end Image

/-- The simulation's board delays for twenty rounds. -/
theorem delays_exactly_simulated : ∃ image, PagedAsm.image (script Config.simulated) = some image ∧
    ∃ t, CoreDelays (Board.topRun (flashBoardRun (flashMem image))) (flashMem image) t 10 20 := by
  obtain ⟨image, built, -⟩ := (builds_script Config.simulated).image
  obtain ⟨t, a, flash, mode, page, pc⟩ := reaches_delay built
  have counts := delays_exactly built (Board.topRun (flashBoardRun (flashMem image)))
    (Board.chipRun (flashBoardRun (flashMem image)) 1#2) (Top.boundary_reset Top.zeroed)
    (Board.wired _ 1#2 (by simp)) (Chips.idle_reset _ 1#2) (holds_image built) flash.here mode (.inl rfl) page pc
  exact ⟨image, built, t, counts.mpr (.inl (by decide))⟩

/-- The constants for the hardware. -/
def Config.hardware : Config :=
  { Config.simulated with pixelCount := 240 * 240, delayCount := 2000000, pixelCount_lt := by decide }

/-- The hardware's delay is 1152 rounds long, not 2000000. -/
theorem delay_cut : ¬∀ (c : Config) (image : List (BitVec 8)), PagedAsm.image (script c) = some image →
    ∀ (r : Clocked.Run Top.step) (chip : Clocked.Run SpiRam.step), Boundary (r.state 0) →
    Attached (engineRun (memRun r)) chip 1#2 → (chip.state 0).Idle → Holds (chip.state 0).mem image →
    ∀ (t : Nat) (a : Arch), At r t a → a.mem.flashMode = true → ∀ k : Nat, k = 9 ∨ k = 18 →
    a.mem.flashPage = .ofNat 8 k → a.pc = 0xB4#8 →
      CoreDelays r (chip.state 0).mem t (k + 1) c.delayCount := by
  intro all
  obtain ⟨image, built, -⟩ := (builds_script Config.hardware).image
  obtain ⟨t, a, flash, mode, page, pc⟩ := reaches_delay built
  have wired := Board.wired (flashBoardRun (flashMem image)) 1#2 (by simp)
  have whole := all Config.hardware image built _ _ (Top.boundary_reset Top.zeroed) wired
    (Chips.idle_reset _ 1#2) (holds_image built) t a flash.here mode 9 (.inl rfl) page pc
  have cut := image_delays built wired (holds_image built) flash mode (.inl rfl) page pc
  exact absurd ((cut.iff _).mp whole) (by decide)

end St7789

end Programs

end AgilA32
