import AgilA32.Asm.History
import AgilA32.Flash.Paging

/-!
# Which page numbers survive

A page number goes through the twelve bits of an `ADDI` and the eight bits of `FLASH_PAGE`, and the
assembler bounds neither it nor the number of pages.  So a switch continues on the page it names exactly
when the number fits in eight bits, and is not loaded into `x0` (`targets_survive`).
-/

namespace AgilA32

namespace Flash

open AgilA32.Core (readReg writeReg)
open Mem (engineRun)
open PagedAsm (Call Follows History Segment history)
open Rv32i (decode)
open AgilA32.Top (Arch At Boundary memRun word begins)

theorem Continues.only {r : Clocked.Run Top.step} {mem : BitVec 14 → BitVec 8} {u w : Nat}
    (continues : Continues r mem u w) (v : Nat) : Continues r mem u v ↔ v = w := by
  constructor
  · rintro ⟨-, page, -⟩
    exact page.symm.trans continues.2.1
  · rintro rfl
    exact continues

/-- The twelve bits of the immediate and the eight bits of the page. -/
theorem low_byte (target : Nat) :
    ((BitVec.ofInt 12 target).signExtend 32).toNat % 256 = target % 256 := by
  have cut : (target : Int).bmod 4096 % 4096 = target % 4096 := Int.bmod_emod
  rw [BitVec.signExtend, BitVec.toNat_ofInt, BitVec.toInt_ofInt]
  change ((target : Int).bmod 4096 % 4294967296).toNat % 256 = _
  omega

section Switch

variable {r : Clocked.Run Top.step} {c : Clocked.Run SpiRam.step} {mem : BitVec 14 → BitVec 8} {t : Nat}
  {a : Arch} {p : PagedAsm} {h : History} {s : Segment} {scratch : Nat}
  (wired : Attached (engineRun (memRun r)) c 1#2) (laid : p.Laid) (follows : Follows scratch p h)
  (holds : Holds mem (p.finalize.take 16384)) (flash : FlashAt r c mem t a) (mode : a.mem.flashMode = true)
  (listed : h.pages[a.mem.flashPage.toNat]? = some s) (small : s.scratch.getD scratch < 32)

include follows listed in
theorem page_listed : a.mem.flashPage.toNat < p.pages.length :=
  follows.length.symm ▸ (List.getElem?_eq_some_iff.mp listed).1

include wired laid follows holds flash mode listed small

/-- The reserved store, with any value in the register of the switch. -/
theorem continues_store (pc : a.pc = 0xD8#8) {w : Nat}
    (value : (readReg a.x (.ofNat 5 (s.scratch.getD scratch))).toNat % 256 = w) (existing : w < p.pages.length) :
    Continues r mem (begins r t 2) w := by
  have exists_ := page_listed follows listed
  obtain ⟨rs2, store, -, -, landed⟩ := flash.lands wired laid holds mode exists_ pc
  obtain ⟨-, shown⟩ := flash.shows wired laid holds mode exists_ (i := 36) (by rw [pc]; rfl) (by omega)
  have reserved := follows.switch listed small
  rw [shown] at store
  obtain rfl : rs2 = .ofNat 5 (s.scratch.getD scratch) := by
    have same := store.symm.trans reserved
    simpa using same
  have low : ((readReg a.x (.ofNat 5 (s.scratch.getD scratch))).setWidth 8).toNat = w := by
    rw [BitVec.toNat_setWidth]
    exact value
  dsimp only at landed
  rw [low] at landed
  obtain ⟨there, first, -⟩ := landed existing
  exact ⟨there.pc, (congrArg (·.flashPage.toNat) there.mem).trans low, first⟩

/-- A constant target, from the instruction that loads it on. -/
theorem continues_load (pc : a.pc = 0xD4#8) {target : Nat} (ending : s.ending = .switchTo target)
    (existing : target < p.pages.length) :
    Continues r mem (begins r t 3) (if s.scratch.getD scratch = 0 then 0 else target % 256) := by
  obtain ⟨-, shown⟩ := flash.shows wired laid holds mode (page_listed follows listed) (i := 32)
    (by rw [pc]; rfl) (by omega)
  have load := follows.load listed small ending
  rw [PagedAsm.pageWord, ← shown] at load
  have after := flash.plain wired load (by simp) rfl 0xD8 (fun _ => by rw [pc]; rfl)
    fun _ => Core.hart_set_x _ _ _ _
  refine continues_store wired laid follows holds after mode listed small rfl ?_ ?_
  · rw [Core.readReg_writeReg]
    by_cases zero : s.scratch.getD scratch = 0
    · rw [if_pos zero, zero, if_neg fun both => both.2 rfl]
      rfl
    · have other : BitVec.ofNat 5 (s.scratch.getD scratch) ≠ 0#5 := by
        intro same
        have value := congrArg BitVec.toNat same
        rw [BitVec.toNat_ofNat, BitVec.toNat_ofNat] at value
        omega
      rw [if_neg zero, if_pos ⟨rfl, other⟩]
      change (0#32 + (BitVec.ofInt 12 target).signExtend 32).toNat % 256 = _
      rw [BitVec.zero_add, low_byte]
  · split <;> omega

end Switch

/-- On a board whose flash holds as much of the image as it can address, in a run from any instruction
boundary, about to leave an existing page.  A constant target that is a page of the image is reached if and
only if it is below 256 and, unless it is page 0, not loaded into `x0`; a page number in the register of the
switch, if and only if it is below 256. -/
theorem targets_survive (r : Clocked.Run Top.step) (c : Clocked.Run SpiRam.step)
    (start : Boundary (r.state 0)) (wired : Attached (engineRun (memRun r)) c 1#2)
    (idle : (c.state 0).Idle) {scratch : Nat} (small : scratch < 32) {calls : List Call}
    (registers : ∀ call ∈ calls, call.RegInRange) {p : PagedAsm}
    (built : (PagedAsm.default scratch).build calls = some p)
    (holds : Holds (c.state 0).mem (p.finalize.take 16384)) {t : Nat} {a : Arch} (here : At r t a)
    (mode : a.mem.flashMode = true) {s : Segment}
    (listed : (history calls).pages[a.mem.flashPage.toNat]? = some s) :
    (∀ target : Nat, s.ending = .switchTo target → target < p.pages.length → a.pc = 0xD4#8 →
      (Continues r (c.state 0).mem (begins r t 3) target ↔
        target < 256 ∧ (s.scratch.getD scratch = 0 → target = 0))) ∧
    ∀ v : Nat, v < p.pages.length → a.pc = 0xD8#8 →
      readReg a.x (.ofNat 5 (s.scratch.getD scratch)) = .ofNat 32 v →
      (Continues r (c.state 0).mem (begins r t 2) v ↔ v < 256) := by
  have laid := (PagedAsm.laid_default small).build registers built
  have follows := (Follows.default scratch).build built
  have flash := flashAt_of_boundary wired start idle here
  have named : s.scratch.getD scratch < 32 :=
    PagedAsm.History.scratch_lt small (h := ⟨[], []⟩) (fun s member => by cases member) registers s
      (List.mem_of_getElem? listed)
  refine ⟨fun target ending existing pc => ?_, fun v existing pc value => ?_⟩
  · rw [(continues_load wired laid follows holds flash mode listed named pc ending existing).only]
    split <;> omega
  · have low : (readReg a.x (.ofNat 5 (s.scratch.getD scratch))).toNat % 256 = v % 256 := by
      rw [value, BitVec.toNat_ofNat]
      omega
    rw [(continues_store wired laid follows holds flash mode listed named pc low (by omega)).only]
    omega

/-! ## Pages with nothing on them -/

/-- Calls that each end a page at once never raise, and make one page each. -/
theorem builds_ends {reg : Nat} (small : reg < 32) {p : PagedAsm} {h : History} (follows : Follows reg p h)
    (fresh : h.own = []) {calls : List Call}
    (ends : ∀ call ∈ calls, (∃ room, 4 ≤ room ∧ call.room = some room) ∧ call.RegsInRange) :
    ∃ p', p.build calls = some p' ∧ p'.pages.length = p.pages.length + calls.length := by
  induction calls generalizing p h with
  | nil => exact ⟨p, rfl, rfl⟩
  | cons call calls ih =>
      obtain ⟨⟨room, wide, ending⟩, registers⟩ := ends call List.mem_cons_self
      have cur := follows.cur
      rw [History.code, fresh, List.append_nil] at cur
      have used : p.bytesUsed ≤ 4 := by
        rw [PagedAsm.bytesUsed_eq (Asm.built_of_build cur)]
        cases h.pages.length <;> simp [PagedAsm.head]
      have assembles : p.cur.finalize.isSome = true := by
        generalize h.pages.length = n at cur
        cases n <;> rw [← Option.some.inj cur] <;> rfl
      have done : (p.call call).isSome = true := by
        refine follows.ends_call (fun m member => ?_) small ending registers (used.trans wide) assembles
        rw [fresh] at member
        cases member
      obtain ⟨p', done⟩ := Option.isSome_iff_exists.mp done
      have next := follows.call done
      have ended : (h.add call).own = [] ∧ (h.add call).pages.length = h.pages.length + 1 := by
        cases call with
        | page call => cases ending
        | switchTo next scratch | switchToComputed scratch | finalizeLastPage scratch =>
            exact ⟨rfl, List.length_append⟩
      obtain ⟨p'', rest, count⟩ := ih next ended.1 fun call' member => ends call' (List.mem_cons_of_mem _ member)
      refine ⟨p'', ?_, ?_⟩
      · rw [PagedAsm.build, List.foldlM_cons, done]
        exact rest
      · rw [count, next.length, ended.2, follows.length, List.length_cons]
        omega

/-- A page that has ended stays as it is through the calls that follow. -/
theorem fold_pages {h : History} {calls : List Call} {i : Nat} {s : Segment} (listed : h.pages[i]? = some s) :
    (calls.foldl History.add h).pages[i]? = some s := by
  induction calls generalizing h with
  | nil => exact listed
  | cons call calls ih =>
      refine ih ?_
      have before := (List.getElem?_eq_some_iff.mp listed).1
      cases call with
      | page call => exact listed
      | switchTo next scratch | switchToComputed scratch | finalizeLastPage scratch =>
          exact (List.getElem?_append_left before).trans listed

/-- A call that ends a page, with the register of the program. -/
def Plain (call : Call) : Prop := (∃ target, call = .switchTo target none) ∨ call = .finalizeLastPage none

theorem Plain.regInRange {call : Call} (plain : Plain call) : call.RegInRange := by
  rcases plain with ⟨target, rfl⟩ | rfl <;> exact nofun

theorem Plain.ends {call : Call} (plain : Plain call) :
    (∃ room, 4 ≤ room ∧ call.room = some room) ∧ call.RegsInRange := by
  rcases plain with ⟨target, rfl⟩ | rfl <;> exact ⟨⟨32, by omega, rfl⟩, nofun⟩

/-- A program whose page 0 only switches gets there. -/
theorem reaches_first (target : Int) {calls : List Call} (plain : ∀ call ∈ calls, Plain call) :
    ∃ p, (PagedAsm.default 30).build (.switchTo target none :: calls) = some p ∧
      p.pages.length = calls.length + 1 ∧ (∀ call ∈ .switchTo target none :: calls, call.RegInRange) ∧
      (history (.switchTo target none :: calls)).pages[0]? = some ⟨[], .switchTo target, none⟩ ∧
      ∃ t a, FlashAt (Board.topRun (flashBoardRun (flashMem p.finalize)))
        (Board.chipRun (flashBoardRun (flashMem p.finalize)) 1#2) (flashMem p.finalize) t a ∧
        a.mem.flashMode = true ∧ a.mem.flashPage = 0#8 ∧ a.pc = 0xD4#8 := by
  have all : ∀ call ∈ .switchTo target none :: calls, Plain call :=
    List.forall_mem_cons.mpr ⟨.inl ⟨target, rfl⟩, plain⟩
  have registers : ∀ call ∈ .switchTo target none :: calls, call.RegInRange :=
    fun call member => (all call member).regInRange
  obtain ⟨p, built, count⟩ := builds_ends (show 30 < 32 by omega) (Follows.default 30) rfl
    fun call member => (all call member).ends
  have first : (history (.switchTo target none :: calls)).pages[0]? = some ⟨[], .switchTo target, none⟩ :=
    fold_pages (h := History.add ⟨[], []⟩ (.switchTo target none)) rfl
  have laid := (PagedAsm.laid_default (show 30 < 32 by omega)).build registers built
  have follows := (Follows.default 30).build built
  have existing : 0 < p.pages.length := follows.length.symm ▸ (List.getElem?_eq_some_iff.mp first).1
  have page := follows.laidOut first (show 30 < 32 by omega) fun m member => by cases member
  refine ⟨p, built, ?_, registers, first, flashBoard_load fun j small => ?_⟩
  · rw [count, List.length_cons]
    exact Nat.zero_add _
  rw [← Nat.zero_add (4 * j), ← Nat.mul_zero 44,
    word_inside laid (holds_flashMem _) (by omega) existing (4 * j) (by omega)]
  cases j with
  | zero =>
      obtain ⟨w, word, emits | ⟨f, k, fixup, -⟩⟩ := page.own 0 .nop rfl
      · cases emits
        exact word
      · cases fixup
  | succ j => exact page.padded (j + 1) (by change 1 ≤ j + 1; omega) small

/-- The first of two pages is left for the second. -/
theorem targets_survive_turn : ∃ p, (PagedAsm.default 30).build turnCalls = some p ∧
    ∃ t, Continues (Board.topRun (flashBoardRun (flashMem p.finalize))) (flashMem p.finalize) t 1 := by
  obtain ⟨p, built, count, registers, first, t, a, flash, mode, page, pc⟩ :=
    reaches_first 1 (List.forall_mem_singleton.mpr (.inr rfl))
  obtain ⟨constant, -⟩ := targets_survive (Board.topRun (flashBoardRun (flashMem p.finalize)))
    (Board.chipRun (flashBoardRun (flashMem p.finalize)) 1#2) (Top.boundary_reset Top.zeroed)
    (Board.wired _ 1#2 (by simp)) (Chips.idle_reset _ 1#2) (show 30 < 32 by omega) registers built
    (holds_flashMem _) flash.here mode (by rw [page]; exact first)
  exact ⟨p, built, _, (constant 1 rfl (by rw [count]; decide) pc).mpr ⟨by omega, by simp⟩⟩

/-- An image of 257 pages, page 0 of which names page 256. -/
def wrapCalls : List Call := .switchTo 256 none :: (List.replicate 255 (.switchTo 0 none) ++
  [.finalizeLastPage none])

/-- It comes back to page 0. -/
theorem target_wraps : ¬∀ (r : Clocked.Run Top.step) (c : Clocked.Run SpiRam.step), Boundary (r.state 0) →
    Attached (engineRun (memRun r)) c 1#2 → (c.state 0).Idle → ∀ scratch : Nat, scratch < 32 →
    ∀ calls : List Call, (∀ call ∈ calls, call.RegInRange) →
    ∀ p : PagedAsm, (PagedAsm.default scratch).build calls = some p →
    Holds (c.state 0).mem (p.finalize.take 16384) → ∀ (t : Nat) (a : Arch), At r t a →
    a.mem.flashMode = true → ∀ s : Segment, (history calls).pages[a.mem.flashPage.toNat]? = some s →
    ∀ target : Nat, s.ending = .switchTo target → target < p.pages.length → a.pc = 0xD4#8 →
      Continues r (c.state 0).mem (begins r t 3) target := by
  intro all
  have plain : ∀ call ∈ List.replicate 255 (.switchTo 0 none) ++ [.finalizeLastPage none], Plain call := by
    intro call member
    rcases List.mem_append.mp member with zero | last
    · exact .inl ⟨0, List.eq_of_mem_replicate zero⟩
    · exact .inr (List.mem_singleton.mp last)
  obtain ⟨p, built, count, registers, first, t, a, flash, mode, page, pc⟩ :=
    reaches_first 256 plain
  have existing : 256 < p.pages.length := by
    rw [count, List.length_append, List.length_replicate]
    simp
  have wired := Board.wired (flashBoardRun (flashMem p.finalize)) 1#2 (by simp)
  have listed : (history wrapCalls).pages[a.mem.flashPage.toNat]? = some ⟨[], .switchTo 256, none⟩ := by
    rw [page]
    exact first
  have named := all _ _ (Top.boundary_reset Top.zeroed) wired (Chips.idle_reset _ 1#2) 30 (by omega) wrapCalls
    registers p built (holds_flashMem _) t a flash.here mode _ listed 256 rfl existing pc
  have laid := (PagedAsm.laid_default (show 30 < 32 by omega)).build registers built
  have follows := (Follows.default 30).build built
  have shown := continues_load wired laid follows (holds_flashMem _) flash mode listed (show 30 < 32 by omega)
    pc rfl existing
  exact absurd ((shown.only 256).mp named) (by decide)

end Flash

end AgilA32
