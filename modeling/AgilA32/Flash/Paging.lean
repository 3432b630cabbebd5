import AgilA32.Asm.PageLayout
import AgilA32.Boot.NoHost
import AgilA32.Flash.Entry

/-!
# Page switches

The store at offset 36 of a page is the last instruction that the page supplies: the trampoline after
it is fetched from the page that the store selected, whose word at offset 40 is the same jump.  So
execution goes on at `0xB4` of the new page (`FlashAt.lands`), and the pages that a program visits are
the values it stores (`page_switching`).
-/

namespace AgilA32

namespace Flash

open AgilA32.Core (isEbreak readReg)
open Mem (engineRun)
open Rv32i (Instr decode)
open AgilA32.Top (Arch At Boundary memRun word begins dataBus)

/-! ## An image in flash -/

/-- The chip holds the image from location 0 on. -/
def Holds (mem : BitVec 14 → BitVec 8) (image : List (BitVec 8)) : Prop :=
  ∀ k b, image[k]? = some b → mem (.ofNat 14 k) = b

theorem Holds.wordAt {mem : BitVec 14 → BitVec 8} {image : List (BitVec 8)} (holds : Holds mem image)
    {n : Nat} (within : n + 3 < image.length) : SpiRam.wordAt mem n = wordOf image n := by
  refine Verilog.eq_of_byteAt (c := 4) rfl fun k inside => ?_
  rw [SpiRam.wordAt, wordOf, Verilog.byteAt_ofBytes _ inside, Verilog.byteAt_ofBytes _ inside,
    List.getD_eq_getElem?_getD, List.getElem?_eq_getElem (show n + k < image.length by omega)]
  exact holds _ _ (List.getElem?_eq_getElem _)

theorem wordOf_take (image : List (BitVec 8)) {m n : Nat} (within : n + 4 ≤ m) :
    wordOf (image.take m) n = wordOf image n := by
  refine Verilog.eq_of_byteAt (c := 4) rfl fun k inside => ?_
  rw [wordOf, wordOf, Verilog.byteAt_ofBytes _ inside, Verilog.byteAt_ofBytes _ inside,
    List.getD_eq_getElem?_getD, List.getD_eq_getElem?_getD, List.getElem?_take_of_lt (by omega)]

theorem Holds.take {mem : BitVec 14 → BitVec 8} {image : List (BitVec 8)} (holds : Holds mem image)
    (n : Nat) : Holds mem (image.take n) := by
  intro k b here
  obtain ⟨within, -⟩ := List.getElem?_eq_some_iff.mp here
  rw [List.length_take] at within
  rw [List.getElem?_take_of_lt (by omega)] at here
  exact holds k b here

/-! ## The switches of a run -/

/-- The page number that the instruction beginning in cycle `t` writes to `FLASH_PAGE`. -/
def switch (r : Clocked.Run Top.step) (t : Nat) : Option (BitVec 8) :=
  if (dataBus r t).we = true ∧ (dataBus r t).addr = 0xFC#8 then
    some ((dataBus r t).wdata.extractLsb' 0 8)
  else none

/-- The page numbers that the first `n` instructions from cycle `t` on write to `FLASH_PAGE`. -/
def switches (r : Clocked.Run Top.step) (t n : Nat) : List (BitVec 8) :=
  (List.range n).filterMap fun m => switch r (begins r t m)

/-- In cycle `u` the first word of page `v` is about to be executed. -/
def Continues (r : Clocked.Run Top.step) (mem : BitVec 14 → BitVec 8) (u v : Nat) : Prop :=
  (r.state u).core.pc = 0xB4#8 ∧ (r.state u).mem.regs.flashPage.toNat = v ∧ FromFlash r mem u (44 * v)

/-- The pages shown two instructions after each one at `0xD8`, for the first `n` instructions. -/
def visits (r : Clocked.Run Top.step) (t n : Nat) : List (BitVec 8) :=
  (List.range n).filterMap fun m =>
    if (r.state (begins r t m)).core.pc = 0xD8#8 then
      some (r.state (begins r t (m + 2))).mem.regs.flashPage
    else none

variable {r : Clocked.Run Top.step} {c : Clocked.Run SpiRam.step} {image : BitVec 14 → BitVec 8}
  {t : Nat} {a : Arch}

theorem switches_succ (r : Clocked.Run Top.step) (t n : Nat) :
    switches r t (n + 1) = switches r t n ++ (switch r (begins r t n)).toList := by
  rw [switches, List.range_succ, List.filterMap_append]
  cases shown : switch r (begins r t n) <;> simp [switches, shown]

theorem switches_sublist (r : Clocked.Run Top.step) (t : Nat) {m n : Nat} (upto : m ≤ n) :
    (switches r t m).Sublist (switches r t n) :=
  (List.range_sublist.mpr upto).filterMap _

/-- The page shown is the last one switched to. -/
theorem page_begins (start : Boundary (r.state t)) {n : Nat}
    (live : ∀ m, m < n → isEbreak (word r (begins r t m)) = false) :
    Boundary (r.state (begins r t n)) ∧
      (r.state (begins r t n)).mem.regs.flashPage =
        (switches r t n).getLastD (r.state t).mem.regs.flashPage := by
  induction n with
  | zero => exact ⟨start, rfl⟩
  | succ n ih =>
      obtain ⟨here, page⟩ := ih fun m before => live m (by omega)
      refine ⟨here.next_boundary (live n (by omega)), ?_⟩
      rw [begins, (here.next_mem (live n (by omega))).1, MemRegs.commit_flashPage, switches_succ,
        page, switch]
      split <;> simp

/-! ## A switch -/

section Image

variable {p : PagedAsm}

/-- The words of a page that can be shown. -/
theorem word_inside (laid : p.Laid) (holds : Holds image (p.finalize.take 16384)) {k : Nat} (small : k < 256)
    (existing : k < p.pages.length) (i : Nat) (within : i ≤ 40) :
    SpiRam.wordAt image (44 * k + i) = wordOf p.finalize (44 * k + i) := by
  have length := laid.image.1
  rw [holds.wordAt (by rw [List.length_take]; omega), wordOf_take _ (by omega)]

/-- An instruction of an existing page, by its offset. -/
theorem FlashAt.shows (wired : Attached (engineRun (memRun r)) c 1#2) (laid : p.Laid)
    (holds : Holds image (p.finalize.take 16384)) (flash : FlashAt r c image t a) (mode : a.mem.flashMode = true)
    (exists_ : a.mem.flashPage.toNat < p.pages.length) {i : Nat} (pc : a.pc.toNat = 180 + i) (within : i ≤ 40) :
    FromFlash r image t (44 * a.mem.flashPage.toNat + i) ∧
      word r t = wordOf p.finalize (44 * a.mem.flashPage.toNat + i) := by
  have fetch := flash.fetch wired mode (by omega) (by omega)
  rw [pc, Nat.add_sub_cancel_left] at fetch
  exact ⟨fetch, fetch.word.trans (word_inside laid holds (BitVec.isLt _) exists_ i within)⟩

/-- The reserved words of an existing page: after the store the trampoline is fetched from the page
stored, and leads to the first word of that page.  Nothing else has changed. -/
theorem FlashAt.lands (wired : Attached (engineRun (memRun r)) c 1#2) (laid : p.Laid)
    (holds : Holds image (p.finalize.take 16384)) (flash : FlashAt r c image t a) (mode : a.mem.flashMode = true)
    (exists_ : a.mem.flashPage.toNat < p.pages.length) (pc : a.pc = 0xD8#8) :
    ∃ rs2, decode (word r t) = some (.store .sw 0 rs2 0xFC) ∧
      let v := (readReg a.x rs2).setWidth 8
      let b : Arch := { a with mem := { a.mem with flashPage := v } }
      At r (Top.next r t) { b with pc := 0xDC } ∧
      FromFlash r image (Top.next r t) (44 * v.toNat + 40) ∧
      (v.toNat < p.pages.length →
        At r (Top.next r (Top.next r t)) { b with pc := 0xB4 } ∧
        FromFlash r image (Top.next r (Top.next r t)) (44 * v.toNat) ∧
        word r (Top.next r (Top.next r t)) = wordOf p.finalize (44 * v.toNat)) := by
  obtain ⟨rs2, store, -⟩ := laid.reserved exists_
  rw [← (flash.shows wired laid holds mode exists_ (i := 36) (by rw [pc]; rfl) (by omega)).2] at store
  refine ⟨rs2, store, ?_⟩
  have after := flash.set_page wired store rfl
  rw [pc] at after
  have jump : FromFlash r image (Top.next r t)
      (44 * ((readReg a.x rs2).setWidth 8).toNat + 40) := by
    simpa using after.fetch wired mode (by simp) (by simp)
  refine ⟨after.here, jump, fun existing => ?_⟩
  obtain ⟨-, -, trampoline⟩ := laid.reserved existing
  rw [← word_inside laid holds (BitVec.isLt _) existing 40 le_rfl, ← jump.word] at trampoline
  obtain ⟨landed, -⟩ := after.goto wired trampoline (by simp) rfl 0xB4
    (fun _ => by simp [Instr.exec, Core.hart]) (fun _ => rfl)
  exact ⟨landed.here, landed.shows wired laid holds mode existing rfl (Nat.zero_le 40)⟩

/-- The page shown at the `m`-th instruction exists, if the first one and all that were stored do. -/
theorem page_exists {n : Nat} (start : Boundary (r.state t))
    (live : ∀ m, m < n → isEbreak (word r (begins r t m)) = false)
    (first : (r.state t).mem.regs.flashPage.toNat < p.pages.length)
    (stored : ∀ v ∈ switches r t n, v.toNat < p.pages.length) :
    (r.state (begins r t n)).mem.regs.flashPage.toNat < p.pages.length := by
  rw [(page_begins start live).2]
  rcases List.eq_nil_or_concat (switches r t n) with none | ⟨vs, v, some⟩
  · rwa [none]
  · rw [some, List.concat_eq_append, List.getLastD_concat]
    exact stored v (by rw [some]; simp)

/-- A reserved store is a switch to the page shown two instructions later. -/
theorem visit_eq_switch (wired : Attached (engineRun (memRun r)) c 1#2) (laid : p.Laid)
    (holds : Holds image (p.finalize.take 16384)) (flash : FlashAt r c image t a) (mode : a.mem.flashMode = true)
    (exists_ : a.mem.flashPage.toNat < p.pages.length) (pc : a.pc = 0xD8#8)
    (existing : ∀ v ∈ switch r t, v.toNat < p.pages.length) :
    some (r.state (Top.next r (Top.next r t))).mem.regs.flashPage = switch r t := by
  obtain ⟨rs2, store, -, -, landed⟩ := flash.lands wired laid holds mode exists_ pc
  have stored : switch r t = some ((readReg a.x rs2).setWidth 8) := by
    rw [switch, Top.dataBus_store flash.here store rfl, ← Core.low_bits]
    rfl
  rw [stored] at existing ⊢
  rw [(landed (existing _ rfl)).1.mem]

end Image

/-- On a board whose flash holds an image of `PagedAsm`, in a run from any instruction boundary
(reset is one):

* the store at `0xD8` of an existing page is followed by the trampoline of the page stored and, if
  that page exists, by its first word at `0xB4`, with nothing else changed;
* every instruction of the window comes from the page that was switched to last, so a program whose
  switches are all reserved stores to existing pages visits the pages that it names, in order. -/
theorem page_switching (r : Clocked.Run Top.step) (c : Clocked.Run SpiRam.step)
    (start : Boundary (r.state 0)) (wired : Attached (engineRun (memRun r)) c 1#2)
    (idle : (c.state 0).Idle) {scratch : Nat} (small : scratch < 32) {calls : List PagedAsm.Call}
    (registers : ∀ call ∈ calls, call.RegInRange) {p : PagedAsm}
    (built : (PagedAsm.default scratch).build calls = some p)
    (holds : Holds (c.state 0).mem p.finalize) :
    (∀ t a, At r t a → a.mem.flashMode = true → a.mem.flashPage.toNat < p.pages.length →
      a.pc = 0xD8#8 →
        ∃ rs2, decode (word r t) = some (.store .sw 0 rs2 0xFC) ∧
          let v := (readReg a.x rs2).toNat % 256
          let b : Arch := { a with mem := { a.mem with flashPage := .ofNat 8 v } }
          At r (begins r t 1) { b with pc := 0xDC } ∧
          FromFlash r (c.state 0).mem (begins r t 1) (44 * v + 40) ∧
          (v < p.pages.length →
            At r (begins r t 2) { b with pc := 0xB4 } ∧
            FromFlash r (c.state 0).mem (begins r t 2) (44 * v) ∧
            word r (begins r t 2) = wordOf p.finalize (44 * v))) ∧
    ∀ t a n, At r t a → a.mem.flashMode = true →
      (∀ m, m < n → isEbreak (word r (begins r t m)) = false) →
        (∀ m a', m ≤ n → At r (begins r t m) a' →
          a'.mem.flashPage = (switches r t m).getLastD a.mem.flashPage ∧
          (0xB4 ≤ a'.pc.toNat → a'.pc.toNat ≤ 0xDF →
            FromFlash r (c.state 0).mem (begins r t m)
              (44 * a'.mem.flashPage.toNat + (a'.pc.toNat - 0xB4)))) ∧
        (a.mem.flashPage.toNat < p.pages.length →
          (∀ m, m < n → (switch r (begins r t m)).isSome →
            (r.state (begins r t m)).core.pc = 0xD8#8) →
          (∀ v ∈ switches r t n, v.toNat < p.pages.length) →
            visits r t n = switches r t n) := by
  have laid := (PagedAsm.laid_default small).build registers built
  refine ⟨fun t a here mode exists_ pc => ?_, fun t a n here mode live => ⟨?_, ?_⟩⟩
  · obtain ⟨rs2, store, landed⟩ :=
      (flashAt_of_boundary wired start idle here).lands wired laid (holds.take _) mode exists_ pc
    have low : ((readReg a.x rs2).setWidth 8).toNat = (readReg a.x rs2).toNat % 256 := by simp
    have byte : (readReg a.x rs2).setWidth 8 = .ofNat 8 ((readReg a.x rs2).toNat % 256) := by
      rw [← low, BitVec.ofNat_toNat, BitVec.setWidth_eq]
    dsimp only at landed
    rw [low, byte] at landed
    exact ⟨rs2, store, landed⟩
  · intro m a' upto there
    have page := (page_begins here.boundary (n := m) fun k before => live k (by omega)).2
    rw [there.mem, here.mem] at page
    refine ⟨page, fun above below => ?_⟩
    have mode' := Top.flashMode_stays (by rw [here.mem]; exact mode) (Top.le_begins r t m)
    rw [there.mem] at mode'
    exact (flashAt_of_boundary wired start idle there).fetch wired mode' above (by omega)
  · intro first reserved stored
    refine List.filterMap_congr fun m within => ?_
    rw [List.mem_range] at within
    have before (k : Nat) (early : k < m) := live k (by omega)
    have shown := switches_sublist r t (show m ≤ n by omega)
    have there := (page_begins here.boundary before).1
    split
    case isTrue pc =>
      obtain ⟨a', there', pc'⟩ : ∃ a', At r (begins r t m) a' ∧ a'.pc = 0xD8#8 :=
        ⟨⟨_, _, _, _⟩, ⟨there, pc, rfl, rfl, rfl⟩, rfl⟩
      refine visit_eq_switch wired laid (holds.take _) (flashAt_of_boundary wired start idle there') ?_ ?_
        pc' fun v switched => ?_
      · rw [← there'.mem]
        exact Top.flashMode_stays (by rw [here.mem]; exact mode) (Top.le_begins r t m)
      · rw [← there'.mem]
        exact page_exists here.boundary before (by rw [here.mem]; exact first)
          fun v member => stored v (shown.subset member)
      · exact stored v (List.mem_filterMap.mpr ⟨m, List.mem_range.mpr within, switched⟩)
    case isFalse pc =>
      by_contra other
      exact pc (reserved m within (Option.isSome_iff_ne_none.mpr fun none => other none.symm))

theorem FlashAt.fetch_zero (wired : Attached (engineRun (memRun r)) c 1#2)
    (flash : FlashAt r c image t a) (mode : a.mem.flashMode = true) (page : a.mem.flashPage = 0#8)
    {k : Nat} (pc : a.pc.toNat = 180 + k) (inside : k < 44) : FromFlash r image t k := by
  have fetch := flash.fetch wired mode (by omega) (by omega)
  rwa [page, pc, BitVec.toNat_zero, Nat.mul_zero, Nat.zero_add, Nat.add_sub_cancel_left] at fetch

/-- A flash chip with this image. -/
def flashMem (image : List (BitVec 8)) (n : BitVec 14) : BitVec 8 := image.getD n.toNat 0

theorem holds_flashMem (image : List (BitVec 8)) : Holds (flashMem image) (image.take 16384) := by
  intro k b here
  obtain ⟨within, -⟩ := List.getElem?_eq_some_iff.mp here
  rw [List.length_take] at within
  rw [List.getElem?_take_of_lt (by omega)] at here
  rw [flashMem, BitVec.toNat_ofNat, Nat.mod_eq_of_lt (by omega), List.getD_eq_getElem?_getD, here]
  rfl

/-- A board with this flash chip, and no host. -/
def flashBoard (mem : BitVec 14 → BitVec 8) : Board :=
  { core := Top.zeroed.core, mem := Top.zeroed.mem
    chips := { zeroedChips with flash := { SpiRam.zeroed with mem := mem } } }

def flashBoardRun (mem : BitVec 14 → BitVec 8) : Clocked.Run Board.step :=
  .ofInputs Board.step (flashBoard mem).reset fun _ => { uiIn := 0, uioIn := 0, undef := 0 }

section NoHost

variable {mem : BitVec 14 → BitVec 8}

/-- The first word of the flash, a NOP, has been executed. -/
theorem flashBoard_enters (nop : decode (SpiRam.wordAt mem 0) = some (.aluImm .add 0 0 0)) :
    ∃ t a, FlashAt (Board.topRun (flashBoardRun mem)) (Board.chipRun (flashBoardRun mem) 1#2) mem t a ∧
      a.mem.flashMode = true ∧ a.mem.flashPage = 0#8 ∧ a.pc = 0xB8#8 := by
  have wired := Board.wired (flashBoardRun mem) 1#2 (by simp)
  have start : Boundary ((Board.topRun (flashBoardRun mem)).state 0) := Top.boundary_reset Top.zeroed
  have idle := Chips.idle_reset (flashBoard mem).chips 1#2
  obtain ⟨t₀, u, b, x, fail, -, -, -, tested, -, -, -, -, -, verdict⟩ :=
    Boot.boot_selfTest (r := Board.topRun (flashBoardRun mem)) Top.zeroed rfl
  have silent (j : Nat) : Boot.start (Board.topRun (flashBoardRun mem)) t₀ j = false := by
    change ((flashBoardRun mem).input (Boot.pollCycle t₀ j + 6)).uiIn.getLsbD 2 = false
    rw [flashBoardRun, Clocked.Run.ofInputs_input]
    rfl
  obtain ⟨x', g, looped, -⟩ := Boot.listen tested verdict (k := 512) le_rfl fun j _ => silent j
  rw [if_neg (by simp)] at looped
  have store : decode (romWord 0x40#8) = some (.store .sw 0 0 0xF8) := by decide +kernel
  have fetched : word (Board.topRun (flashBoardRun mem)) _ = romWord 0x40#8 :=
    (looped.reached.rom_word (show (Boot.romAddr 16).toNat < 176 by decide)).2
  rw [← fetched] at store
  have entered := (flashAt_of_boundary wired start idle looped.reached).set_mode wired store rfl
  obtain ⟨-, -, window, -⟩ := entered.fallBack wired rfl rfl rfl nop
  exact ⟨_, _, window, rfl, rfl, rfl⟩

variable (nops : ∀ j < 8, SpiRam.wordAt mem (4 * j) = 0x13#32)
include nops

/-- Through the NOPs of the first page only the pc changes. -/
theorem flashBoard_nops {t : Nat} {a : Arch} (flash : FlashAt (Board.topRun (flashBoardRun mem))
      (Board.chipRun (flashBoardRun mem) 1#2) mem t a)
    (mode : a.mem.flashMode = true) (page : a.mem.flashPage = 0#8) (pc : a.pc = 0xB8#8) {k : Nat}
    (upto : k ≤ 7) : FlashAt (Board.topRun (flashBoardRun mem)) (Board.chipRun (flashBoardRun mem) 1#2)
      mem (begins (Board.topRun (flashBoardRun mem)) t k) { a with pc := .ofNat 8 (0xB8 + 4 * k) } := by
  induction k with
  | zero =>
      rw [Nat.mul_zero, Nat.add_zero, ← pc]
      exact flash
  | succ k ih =>
      have here := ih (by omega)
      have at_ : (BitVec.ofNat 8 (0xB8 + 4 * k)).toNat = 0xB8 + 4 * k := by simp; omega
      have fetch := here.fetch_zero (Board.wired (flashBoardRun mem) 1#2 (by simp)) mode page
        (k := 4 * (k + 1)) (by dsimp only; omega) (by omega)
      have decoded : decode 0x13#32 = some (.aluImm .add 0 0 0) := by decide
      rw [← nops (k + 1) (by omega), ← fetch.word] at decoded
      refine (here.goto (Board.wired (flashBoardRun mem) 1#2 (by simp)) decoded (by simp) rfl _
        (fun _ => ?_) (fun _ => rfl)).1
      refine BitVec.eq_of_toNat_eq ?_
      simp [Instr.exec, Core.hart]
      omega

/-- A first page that starts with eight NOPs is executed up to the word after them. -/
theorem flashBoard_load : ∃ t a, FlashAt (Board.topRun (flashBoardRun mem))
    (Board.chipRun (flashBoardRun mem) 1#2) mem t a ∧ a.mem.flashMode = true ∧ a.mem.flashPage = 0#8 ∧
    a.pc = 0xD4#8 := by
  obtain ⟨t, a, window, mode, page, pc⟩ := flashBoard_enters (by
    rw [show SpiRam.wordAt mem 0 = 0x13#32 from nops 0 (by omega)]
    decide)
  exact ⟨_, _, flashBoard_nops nops window mode page pc le_rfl, mode, page, rfl⟩

end NoHost

/-- An image of two pages, the first of which does nothing but switch to the second. -/
def turnCalls : List PagedAsm.Call := [.switchTo 1 none, .finalizeLastPage none]

def turnImage : List (BitVec 8) :=
  (((PagedAsm.default 30).build turnCalls).map PagedAsm.finalize).getD []

def turnBoard : Board :=
  { core := Top.zeroed.core, mem := Top.zeroed.mem
    chips := { zeroedChips with
      flash := { SpiRam.zeroed with mem := fun n => turnImage.getD n.toNat 0 } } }

def turnBoardRun : Clocked.Run Board.step :=
  .ofInputs Board.step turnBoard.reset fun _ => { uiIn := 0, uioIn := 0, undef := 0 }

/-- With no host, that board gets to the reserved store of its first page, with 1 in `x30`. -/
theorem turnBoard_store : ∃ t a, At (Board.topRun turnBoardRun) t a ∧ a.mem.flashMode = true ∧
    a.mem.flashPage = 0#8 ∧ a.pc = 0xD8#8 ∧ readReg a.x 30 = 1#32 ∧
    word (Board.topRun turnBoardRun) t = SpiRam.wordAt turnBoard.chips.flash.mem 36 := by
  have wired := Board.wired turnBoardRun 1#2 (by simp)
  have nops : ∀ j < 8, SpiRam.wordAt turnBoard.chips.flash.mem (4 * j) = 0x13#32 := by decide +kernel
  obtain ⟨t, a, last, mode, page, pc⟩ := flashBoard_load nops
  have loads : decode (SpiRam.wordAt turnBoard.chips.flash.mem 32) =
      some (.aluImm .add 30 0 1) := by decide +kernel
  have fetch := last.fetch_zero wired mode page (k := 32) (by rw [pc]; rfl) (by omega)
  rw [← fetch.word] at loads
  have there := last.plain wired loads (by simp) rfl 0xD8 (fun _ => by rw [pc]; rfl) (fun _ => rfl)
  have switch := there.fetch_zero wired mode page (k := 36) rfl (by omega)
  exact ⟨_, _, there.here, mode, page, rfl, rfl, switch.word⟩

/-- So it gets to the first word of the second page. -/
theorem page_switching_turn : ∃ t, ((Board.topRun turnBoardRun).state t).core.pc = 0xB4#8 ∧
    FromFlash (Board.topRun turnBoardRun) turnBoard.chips.flash.mem t 44 := by
  obtain ⟨p, built⟩ := Option.isSome_iff_exists.mp
    (show ((PagedAsm.default 30).build turnCalls).isSome = true by decide +kernel)
  have image : p.finalize = turnImage := by rw [turnImage, built]; rfl
  have pages : p.pages.length = 2 := by
    have count : ((PagedAsm.default 30).build turnCalls).map (·.pages.length) = some 2 := by
      decide +kernel
    rw [built] at count
    exact Option.some.inj count
  have fits : turnImage.length = 88 := by decide +kernel
  obtain ⟨lands, -⟩ := page_switching (Board.topRun turnBoardRun) (Board.chipRun turnBoardRun 1#2)
    (Top.boundary_reset Top.zeroed) (Board.wired turnBoardRun 1#2 (by simp))
    (Chips.idle_reset turnBoard.chips 1#2) (show 30 < 32 by omega)
    (fun call member => by
      rcases List.mem_pair.mp member with rfl | rfl <;> intro _ none <;> cases none)
    built (fun k b here => by
      rw [image] at here
      obtain ⟨within, -⟩ := List.getElem?_eq_some_iff.mp here
      change turnImage.getD (BitVec.ofNat 14 k).toNat 0 = b
      rw [BitVec.toNat_ofNat, Nat.mod_eq_of_lt (by omega), List.getD_eq_getElem?_getD, here]
      rfl)
  obtain ⟨t, a, here, mode, page, pc, value, fetched⟩ := turnBoard_store
  obtain ⟨rs2, store, -, -, second⟩ := lands t a here mode (by rw [page, pages]; decide) pc
  have same : decode (SpiRam.wordAt turnBoard.chips.flash.mem 36) =
      some (.store .sw 0 30 0xFC) := by decide +kernel
  rw [fetched, same] at store
  cases store
  rw [value] at second
  obtain ⟨landed, first, -⟩ := second (by rw [pages]; decide)
  exact ⟨_, landed.pc, first⟩

end Flash

end AgilA32
