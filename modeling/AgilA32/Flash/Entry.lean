import AgilA32.Boot.NoHost
import AgilA32.Flash.Code

/-!
# Two ways into flash

`FLASH_MODE` is set by a program in RAM, or by the boot ROM when no host shows up.  Either way the
next instruction of the window is fetched from flash (`enters_flash`): after the stub at `0xB4` that
is the word at byte 4, while the boot ROM jumps back to `0xB4` and executes the word at byte 0 first.
-/

namespace AgilA32

namespace Flash

open AgilA32.Core (readReg)
open Mem (engineRun)
open Rv32i (Instr decode)
open AgilA32.Top (Arch At memRun word begins)

variable {r : Clocked.Run Top.step} {c : Clocked.Run SpiRam.step} {image : BitVec 14 → BitVec 8}
  {t : Nat} {a : Arch}

/-- The registers of the core, the RAM and the registers of the memory as in `a` from cycle `t` to
cycle `t'`. -/
def Kept (r : Clocked.Run Top.step) (t t' : Nat) (a : Arch) : Prop :=
  ∀ u, t ≤ u → u ≤ t' → (r.state u).core.regs = a.x ∧ (r.state u).mem.regs = a.mem

theorem Kept.refl (here : At r t a) : Kept r t t a := by
  intro u after upto
  obtain rfl : u = t := by omega
  exact ⟨here.regs, here.mem⟩

theorem Kept.trans {t' t'' : Nat} {a' : Arch} (first : Kept r t t' a) (second : Kept r t' t'' a')
    (x : a'.x = a.x) (mem : a'.mem = a.mem) : Kept r t t'' a := by
  intro u after upto
  rcases Nat.le_total u t' with early | late
  · exact first u after early
  · rw [← x, ← mem]
    exact second u late upto

section Steps

variable (wired : Attached (engineRun (memRun r)) c 1#2)
include wired

/-- An instruction that only moves the program counter. -/
theorem FlashAt.goto (flash : FlashAt r c image t a) {i : Instr} (decoded : decode (word r t) = some i)
    (live : i ≠ .ebreak) (none : i.memReq (Core.hart a.pc a.x) = none) (pc : BitVec 8)
    (target : ∀ v, (i.exec (Core.hart a.pc a.x) v).pc.setWidth 8 = pc)
    (result : ∀ v, (i.exec (Core.hart a.pc a.x) v).x = a.x) :
    FlashAt r c image (Top.next r t) { a with pc := pc } ∧ Kept r t (Top.next r t) a := by
  have after := flash.plain wired decoded live none pc target result
  have running := Top.running_of decoded live
  obtain ⟨-, read⟩ := Top.dataBus_none flash.here decoded none
  refine ⟨after, fun u from_ upto => ⟨?_, ?_⟩⟩
  · rcases Nat.eq_or_lt_of_le upto with rfl | before
    · exact after.here.regs
    · exact (flash.here.boundary.within_regs running from_ before).trans flash.here.regs
  · exact (flash.here.boundary.within_mem running read from_ upto).trans flash.here.mem

/-- After the boot ROM's store: the two jumps that lead to the window, and the dead word there. -/
theorem FlashAt.fallBack (flash : FlashAt r c image t a) (pc : a.pc = 0x44#8)
    (mode : a.mem.flashMode = true) (page : a.mem.flashPage = 0#8)
    (nop : decode (SpiRam.wordAt image 0) = some (.aluImm .add 0 0 0)) :
    FlashAt r c image (begins r t 1) { a with pc := 0x6C } ∧
      FlashAt r c image (begins r t 2) { a with pc := 0xB4 } ∧
      FlashAt r c image (begins r t 3) { a with pc := 0xB8 } ∧ Kept r t (begins r t 3) a := by
  have fallThrough : decode (romWord 0x44#8) = some (.jal 0 0x28) := by decide +kernel
  have run : decode (romWord 0x6C#8) = some (.jal 0 0x48) := by decide +kernel
  rw [← pc, ← (flash.here.rom_word (by simp [pc])).2] at fallThrough
  obtain ⟨first, kept⟩ := flash.goto wired fallThrough (by simp) rfl 0x6C
    (fun _ => by rw [pc]; rfl) (fun _ => rfl)
  have jump : word r (Top.next r t) = romWord 0x6C#8 := (first.here.rom_word (by simp)).2
  rw [← jump] at run
  obtain ⟨second, kept'⟩ := first.goto wired run (by simp) rfl 0xB4 (fun _ => rfl) (fun _ => rfl)
  have fetch : FromFlash r image (Top.next r (Top.next r t)) 0 := by
    simpa [page] using second.fetch wired mode (by simp) (by simp)
  rw [← fetch.word] at nop
  obtain ⟨third, kept''⟩ := second.goto wired nop (by simp) rfl 0xB8 (fun _ => rfl)
    (fun _ => rfl)
  exact ⟨first, second, third, (kept.trans kept' rfl rfl).trans kept'' rfl rfl⟩

end Steps

/-- In a run from reset with a flash chip on `CS0`, after a store to `FLASH_MODE`:

* from anywhere in the window, the next instruction is the flash word at the next address, and every
  later one in the window is fetched from flash as well;
* by the stub in RAM at `0xB4`, the next instruction is at `0xB8` and is the word at byte 4;
* by the boot ROM's timeout path, three instructions follow, two in ROM and the flash's first word, a
  NOP, and then the word at byte 4 at `0xB8`.

Nothing but `FLASH_MODE` and the program counter has changed by then. -/
theorem enters_flash (r : Clocked.Run Top.step) (c : Clocked.Run SpiRam.step) (s : Top)
    (reset : r.state 0 = s.reset) (wired : Attached (engineRun (memRun r)) c 1#2)
    (idle : (c.state 0).Idle) :
    (∀ t a op rs1 rs2 off, At r t a → decode (word r t) = some (.store op rs1 rs2 off) →
      (readReg a.x rs1 + off).setWidth 8 = 0xF8#8 → a.pc.toNat % 4 = 0 → 0xB4 ≤ a.pc.toNat →
      a.pc.toNat ≤ 0xD8 →
        At r (Top.next r t) { a with pc := a.pc + 4, mem := { a.mem with flashMode := true } } ∧
        FromFlash r (c.state 0).mem (Top.next r t)
          (44 * a.mem.flashPage.toNat + (a.pc.toNat + 4 - 0xB4)) ∧
        ∀ u a', Top.next r t ≤ u → At r u a' → 0xB4 ≤ a'.pc.toNat → a'.pc.toNat ≤ 0xDF →
          FromFlash r (c.state 0).mem u (44 * a'.mem.flashPage.toNat + (a'.pc.toNat - 0xB4))) ∧
    (∀ t a op rs1 rs2 off, At r t a → a.pc = 0xB4#8 → a.mem.flashMode = false →
      a.mem.flashPage = 0#8 →
      decode (Verilog.ofBytes fun k => a.mem.ramByte (4 + k)) = some (.store op rs1 rs2 off) →
      (readReg a.x rs1 + off).setWidth 8 = 0xF8#8 →
        At r (Top.next r t) { a with pc := 0xB8, mem := { a.mem with flashMode := true } } ∧
        FromFlash r (c.state 0).mem (Top.next r t) 4) ∧
    (SpiRam.wordAt (c.state 0).mem 0 = 0x13#32 →
      ∀ t a, At r t a → a.pc = 0x40#8 → a.mem.flashPage = 0#8 →
        let b : Arch := { a with mem := { a.mem with flashMode := true } }
        At r (begins r (Top.next r t) 0) { b with pc := 0x44 } ∧
        word r (begins r (Top.next r t) 0) = romWord 0x44 ∧
        At r (begins r (Top.next r t) 1) { b with pc := 0x6C } ∧
        word r (begins r (Top.next r t) 1) = romWord 0x6C ∧
        At r (begins r (Top.next r t) 2) { b with pc := 0xB4 } ∧
        FromFlash r (c.state 0).mem (begins r (Top.next r t) 2) 0 ∧
        At r (begins r (Top.next r t) 3) { b with pc := 0xB8 } ∧
        FromFlash r (c.state 0).mem (begins r (Top.next r t) 3) 4 ∧
        Kept r (Top.next r t) (begins r (Top.next r t) 3) b) := by
  refine ⟨fun t a op rs1 rs2 off here decoded addr aligned above below => ?_,
    fun t a op rs1 rs2 off here pc ram page decoded addr => ?_, fun nop t a here pc page => ?_⟩
  · have after := (flashAt_of_reset wired reset idle here).set_mode wired decoded addr
    have pc : (a.pc + 4).toNat = a.pc.toNat + 4 := by
      rw [BitVec.toNat_add]
      simp
      omega
    refine ⟨after.here, ?_, fun u a' later there inside upto => ?_⟩
    · have fetch := after.fetch wired rfl (by dsimp only; omega) (by dsimp only; omega)
      rw [pc] at fetch
      exact fetch
    · have mode := Top.flashMode_stays (by rw [after.here.mem]) later
      rw [there.mem] at mode
      exact (flashAt_of_reset wired reset idle there).fetch wired mode inside (by omega)
  · have inside : a.pc.toNat = 180 := by rw [pc]; rfl
    have word : word r t = Verilog.ofBytes fun k => a.mem.ramByte (4 + k) := by
      refine Verilog.eq_of_byteAt (c := 4) rfl fun k within => ?_
      rw [(here.ram_word ram (by omega) (by omega)).2 k within, Verilog.byteAt_ofBytes _ within,
        inside]
    have after := (flashAt_of_reset wired reset idle here).set_mode wired (word ▸ decoded) addr
    rw [pc] at after
    have fetch := after.fetch wired rfl (by simp) (by simp)
    simp only [page] at fetch
    simpa using ⟨after.here, fetch⟩
  · have store : decode (romWord 0x40#8) = some (.store .sw 0 0 0xF8) := by decide +kernel
    rw [← pc, ← (here.rom_word (by simp [pc])).2] at store
    have after := (flashAt_of_reset wired reset idle here).set_mode wired store rfl
    rw [pc] at after
    have decoded : decode (SpiRam.wordAt (c.state 0).mem 0) = some (.aluImm .add 0 0 0) := by
      rw [nop]
      decide
    obtain ⟨first, second, third, kept⟩ := after.fallBack wired rfl rfl page decoded
    have dead : FromFlash r (c.state 0).mem (begins r (Top.next r t) 2) 0 := by
      simpa [page] using second.fetch wired rfl (by simp) (by simp)
    have entry : FromFlash r (c.state 0).mem (begins r (Top.next r t) 3) 4 := by
      simpa [page] using third.fetch wired rfl (by simp) (by simp)
    exact ⟨after.here, (after.here.rom_word (by simp)).2, first.here,
      (first.here.rom_word (by simp)).2, second.here, dead, third.here, entry, kept⟩

/-- A board whose flash starts with a NOP, and no host. -/
def nopBoard : Board :=
  { core := Top.zeroed.core, mem := Top.zeroed.mem
    chips := { zeroedChips with
      flash := { SpiRam.zeroed with mem := fun n => if n = 0#14 then 0x13#8 else 0#8 } } }

def nopBoardRun : Clocked.Run Board.step :=
  .ofInputs Board.step nopBoard.reset fun _ => { uiIn := 0, uioIn := 0, undef := 0 }

/-- The boot ROM of that board ends up at `0xB8`, with the word at byte 4 of the flash. -/
theorem enters_flash_nop : ∃ t, ((Board.topRun nopBoardRun).state t).core.pc = 0xB8#8 ∧
    FromFlash (Board.topRun nopBoardRun) nopBoard.chips.flash.mem t 4 := by
  obtain ⟨-, -, timeout⟩ := enters_flash (Board.topRun nopBoardRun)
    (Board.chipRun nopBoardRun 1#2) Top.zeroed rfl (Board.wired nopBoardRun 1#2 (by simp))
    (Chips.idle_reset nopBoard.chips 1#2)
  obtain ⟨t₀, u, b, x, fail, -, -, -, tested, -, -, -, -, -, verdict⟩ :=
    Boot.boot_selfTest (r := Board.topRun nopBoardRun) Top.zeroed rfl
  have silent (j : Nat) : Boot.start (Board.topRun nopBoardRun) t₀ j = false := by
    change (nopBoardRun.input (Boot.pollCycle t₀ j + 6)).uiIn.getLsbD 2 = false
    rw [nopBoardRun, Clocked.Run.ofInputs_input]
    rfl
  obtain ⟨x', g, looped, -⟩ := Boot.listen tested verdict (k := 512) le_rfl fun j _ => silent j
  rw [if_neg (by simp)] at looped
  obtain ⟨-, -, -, -, -, -, entry, fetched, -⟩ := timeout (by decide) _ _ looped.reached rfl rfl
  exact ⟨_, entry.pc, fetched⟩

end Flash

end AgilA32
