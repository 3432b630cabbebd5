import AgilA32.Board.Access

/-!
# The PSRAM window as two memories

`Psram` is what the window `0xE0`-`0xEF` is for: two byte-addressed memories and the number of the
selected one.  Any sequence of accesses that a bus master drives (`Drives`) has on the memory and its
chips the effect it has on these, and a load returns what they hold (`psram_window`).
-/

namespace AgilA32

open Mem (Issued)
open Memory (storeAll)
open Verilog (byteAt ofBytes)

/-! ## The abstract memories -/

structure Psram where
  bank : Bool
  mem : Bool → BitVec 14 → BitVec 8

namespace Psram

/-- An access: a store to the window, or to `PSRAM_BANK`. -/
def access (p : Psram) (b : Bus) : Psram :=
  if b.we then
    if 0xE0 ≤ b.addr.toNat ∧ b.addr.toNat ≤ 0xEF then
      { p with
        mem := Function.update p.mem p.bank
          (storeAll (p.mem p.bank) b.psramLoc (byteAt b.wdata) (sizeBytes b.size)) }
    else if b.addr = 0xF1#8 then { p with bank := b.wdata.getLsbD 0 }
    else p
  else p

/-- Byte `i` of what a load from the window returns. -/
def loadByte (p : Psram) (b : Bus) (i : Nat) : BitVec 8 :=
  if i < sizeBytes b.size then p.mem p.bank (b.psramLoc i) else 0

/-- A load from the window: its bytes, lowest address first, in the low end of a word of zeros. -/
def load (p : Psram) (b : Bus) : BitVec 32 := ofBytes (p.loadByte b)

theorem load_congr (p : Psram) {b b' : Bus} (addr : b.addr = b'.addr) (size : b.size = b'.size) :
    p.load b = p.load b' := by
  unfold load loadByte Bus.psramLoc
  rw [addr, size]

end Psram

namespace MemRegs

/-- `PSRAM_BANK` changes only when it is stored to. -/
theorem commit_psramBank (m : MemRegs) (b : Bus) (rx : BitVec 32) :
    (m.commit b rx).psramBank =
      if b.we = true ∧ b.addr = 0xF1#8 then b.wdata.getLsbD 0 else m.psramBank := by
  by_cases we : b.we = true
  · have write : (m.write b).psramBank =
        if b.addr = 0xF1#8 then b.wdata.getLsbD 0 else m.psramBank := by rw [write_eq]
    simp only [commit, step, we, if_true, true_and, ← write]
    split <;> rfl
  · rw [commit_read (by simpa using we), if_neg fun h => we h.1]

end MemRegs

namespace Mem

/-! ## One access -/

/-- What the two PSRAM chips hold, and the selected bank. -/
def psramAt (r : Clocked.Run Mem.step) (c : BitVec 2 → Clocked.Run SpiRam.step) (u : Nat) : Psram where
  bank := (r.state u).regs.psramBank
  mem bank := ((c (if bank then 3#2 else 2#2)).state u).mem

section Access

variable {r : Clocked.Run Mem.step} {c : BitVec 2 → Clocked.Run SpiRam.step} {a : Nat} {b : Bus}
  (wired : Wired r c) (quiet : Quiet r c a)
include wired quiet

/-- An access has on the chips the effect it has on the two memories. -/
theorem psramAt_access (start : Issued r a b) (valid : b.valid = true) :
    psramAt r c (a + (r.state a).regs.delay b + 1) = (psramAt r c a).access b := by
  have chip (bank : Bool) : (if bank then 3#2 else 2#2) ≠ 0#2 := by cases bank <;> decide
  have regs := start.after.1
  have mem (bank : Bool) := ((wired _ (chip bank)).access start (quiet.idle _ (chip bank))).2
  have window : inExtPsram b.addr = true ↔ 0xE0 ≤ b.addr.toNat ∧ b.addr.toNat ≤ 0xEF :=
    inExtPsram_iff.trans (by omega)
  simp only [psramAt, mem, regs, MemRegs.commit_psramBank, Psram.access]
  by_cases store : b.we = true ∧ inExtPsram b.addr = true
  · obtain ⟨we, inside⟩ := store
    have other : b.addr ≠ 0xF1#8 := by
      intro same
      rw [same] at inside
      cases inside
    rw [if_pos we, if_pos (window.mp inside), if_neg fun h => other h.2]
    cases bank : (r.state a).regs.psramBank <;>
      simp [valid, we, inside, MemRegs.psramDev, bank, Function.update, funext_iff, Bool.forall_bool]
  · have kept (bank : Bool) : ¬ (b.valid = true ∧ b.we = true ∧ inExtPsram b.addr = true ∧
        (if bank then 3#2 else 2#2) = (r.state a).regs.psramDev) := fun h => store ⟨h.2.1, h.2.2.1⟩
    simp only [kept, if_false]
    by_cases we : b.we = true
    · rw [if_pos we, if_neg fun h => store ⟨we, window.mpr h⟩]
      by_cases bank : b.addr = 0xF1#8
      · rw [if_pos bank, if_pos ⟨we, bank⟩]
      · rw [if_neg bank, if_neg fun h => bank h.2]
    · rw [if_neg we, if_neg fun h => we h.1]

/-- A load from the window is answered with what the selected memory holds. -/
theorem psramAt_load (start : Issued r a b) (valid : b.valid = true) (read : b.we = false)
    (inside : inExtPsram b.addr = true) (gpioIn : BitVec 8) (undef : BitVec 32) :
    (r.state (a + (r.state a).regs.delay b + 1)).rdata b.answered gpioIn undef =
      (psramAt r c a).load b := by
  have external : (r.state a).regs.inExt b = true := by simp [MemRegs.inExt, inside]
  obtain ⟨dev, addr, -⟩ :=
    MemRegs.request_carries (MemRegs.inExtPsram_window (m := (r.state a).regs).mp inside)
  have chip := MemRegs.psram_chip (m := (r.state a).regs) inside
  refine Verilog.eq_of_byteAt (c := 4) rfl fun i within => ?_
  rw [(wired _ chip).byteAt_rdata start (quiet.idle _ chip) valid read external rfl gpioIn undef
    within, Psram.load, Verilog.byteAt_ofBytes _ within,
    Psram.loadByte, SpiRam.index_add addr, dev]
  rfl

/-- A cycle with nothing on the bus. -/
theorem psramAt_quiet (valid : (r.input a).bus.valid = false) (we : (r.input a).bus.we = false) :
    psramAt r c (a + 1) = psramAt r c a := by
  obtain ⟨-, regs, still⟩ := quiet.step wired valid we
  have chip (bank : Bool) : (if bank then 3#2 else 2#2) ≠ 0#2 := by cases bank <;> decide
  have mem (bank : Bool) := still _ (chip bank)
  simp only [psramAt, mem, regs]

end Access

end Mem

namespace MemBoard

open Mem (Quiet psramAt_quiet psramAt_access psramAt_load)

/-- What the two PSRAM chips hold, and the selected bank. -/
def psram (s : MemBoard) : Psram where
  bank := s.mem.regs.psramBank
  mem bank := (s.chips.chip (if bank then 3#2 else 2#2)).mem

theorem wired (r : Clocked.Run MemBoard.step) : Mem.Wired (memRun r) (chipRun r) :=
  fun _ chip => attached r chip

/-! ## Sequences of accesses -/

/-- From cycle `a` to cycle `e` the bus carries the accesses of the list, driven as the core does: an
access is held until `ready`, and then the response, its other component, is read with the request
withdrawn. -/
inductive Drives (r : Clocked.Run MemBoard.step) : Nat → List (Bus × BitVec 32) → Nat → Prop
  | done (a : Nat) : Drives r a [] a
  | quiet {a e : Nat} {l : List (Bus × BitVec 32)} (valid : (r.input a).bus.valid = false)
      (we : (r.input a).bus.we = false) (rest : Drives r (a + 1) l e) : Drives r a l e
  | access {a d e : Nat} {b : Bus} {l : List (Bus × BitVec 32)} (valid : b.valid = true)
      (held : ∀ k, k ≤ d → (r.input (a + k)).bus = b)
      (waits : ∀ k, k < d → (r.state (a + k)).mem.ready b = false)
      (ready : (r.state (a + d)).mem.ready b = true)
      (taken : (r.input (a + d + 1)).bus = b.answered) (rest : Drives r (a + d + 2) l e) :
      Drives r a
        ((b, (r.state (a + d + 1)).mem.rdata b.answered (r.input (a + d + 1)).gpioIn
          (r.input (a + d + 1)).undef) :: l) e

/-- Every load from the window returns what the selected memory holds. -/
def Answers (p : Psram) : List (Bus × BitVec 32) → Prop
  | [] => True
  | (b, v) :: l =>
      (b.we = false → 0xE0 ≤ b.addr.toNat → b.addr.toNat ≤ 0xEF → v = p.load b) ∧
        Answers (p.access b) l

section Sequence

variable {r : Clocked.Run MemBoard.step} {a e : Nat} {b : Bus} {l : List (Bus × BitVec 32)}

/-- An access held until `ready` is issued. -/
theorem issued_of_held (quiet : Quiet (memRun r) (chipRun r) a) (valid : b.valid = true)
    (first : (r.input a).bus = b)
    (held : ∀ k, (∀ j, j ≤ k → (r.state (a + j)).mem.ready b = false) →
      (r.input (a + k + 1)).bus = b) : Issued (memRun r) a b where
  first := first
  held k low := by
    induction k using Nat.strongRecOn with
    | ind k ih =>
        refine held k fun j upto => ?_
        have bus : (r.input (a + j)).bus = b := by
          rcases j with _ | j
          · exact first
          · exact ih j (by omega) fun i within => low i (by omega)
        have now := low j upto
        change (r.state (a + j)).mem.ready (r.input (a + j)).bus = false at now
        rwa [bus] at now
  strobe _ := valid
  rest := quiet.rest

/-- An access driven by the bus master is issued, and `ready` comes when its delay is over. -/
theorem issued_of_driven {d : Nat} (quiet : Quiet (memRun r) (chipRun r) a) (valid : b.valid = true)
    (held : ∀ k, k ≤ d → (r.input (a + k)).bus = b)
    (waits : ∀ k, k < d → (r.state (a + k)).mem.ready b = false)
    (ready : (r.state (a + d)).mem.ready b = true) :
    Issued (memRun r) a b ∧ d = (r.state a).mem.regs.delay b := by
  have issued : Issued (memRun r) a b := by
    refine issued_of_held quiet valid (held 0 (Nat.zero_le d)) fun k low => held (k + 1) ?_
    by_contra beyond
    have now := low d (by omega)
    rw [ready] at now
    cases now
  refine ⟨issued, ?_⟩
  rcases Nat.lt_trichotomy d ((r.state a).mem.regs.delay b) with early | same | late
  · have low : (r.state (a + d)).mem.ready (r.input (a + d)).bus = false := issued.ready_low early
    rw [held d le_rfl, ready] at low
    cases low
  · exact same
  · have high : (r.state (a + (r.state a).mem.regs.delay b)).mem.ready
        (r.input (a + (r.state a).mem.regs.delay b)).bus = true := issued.ready_high
    rw [held _ (by omega), waits _ late] at high
    cases high

/-- Accesses driven one after the other are answered as the two PSRAMs answer them in that order. -/
theorem Drives.psram (drives : Drives r a l e) (quiet : Quiet (memRun r) (chipRun r) a) :
    Quiet (memRun r) (chipRun r) e ∧ Answers (r.state a).psram l ∧
      (r.state e).psram = l.foldl (fun p x => p.access x.1) (r.state a).psram := by
  induction drives with
  | done a => exact ⟨quiet, trivial, rfl⟩
  | quiet valid we _ ih =>
      have same := psramAt_quiet (wired r) quiet valid we
      change (r.state _).psram = (r.state _).psram at same
      rw [← same]
      exact ih (quiet.step (wired r) valid we).1
  | @access a d e b l valid held waits ready taken _ ih =>
      obtain ⟨issued, rfl⟩ := issued_of_driven quiet valid held waits ready
      have quiet₁ := quiet.access (wired r) issued
      have after := psramAt_access (wired r) quiet issued valid
      have idle : ((memRun r).input (a + ((memRun r).state a).regs.delay b + 1)).bus = b.answered :=
        taken
      have quiet₂ := (quiet₁.step (wired r) (by rw [idle]; rfl) (by rw [idle]; rfl)).1
      have same := psramAt_quiet (wired r) quiet₁ (by rw [idle]; rfl) (by rw [idle]; rfl)
      rw [after] at same
      obtain ⟨quiet₃, answers, folded⟩ := ih quiet₂
      change (r.state (a + (r.state a).mem.regs.delay b + 2)).psram = _ at same
      rw [same] at answers folded
      exact ⟨quiet₃, ⟨fun read above below => psramAt_load (wired r) quiet issued valid read
        (inExtPsram_iff.mpr ⟨above, by omega⟩) _ _, answers⟩, folded⟩

theorem quiet_reset (s : MemBoard) (reset : r.state a = s.reset) :
    Quiet (memRun r) (chipRun r) a where
  rest := by
    change Engine.Resting (r.state a).mem.qspi
    rw [reset]
    exact Engine.resting_reset _
  idle d _ := by
    change ((r.state a).chips.chip d).Idle
    rw [reset]
    exact Chips.idle_reset s.chips d

/-! ## A bus master -/

/-- A bus master with a list of accesses to make; `taken` while it reads a response. -/
structure Master where
  board : MemBoard
  todo : List Bus
  taken : Bool

namespace Master

def bus (s : Master) : Bus :=
  match s.todo with
  | [] => { addr := 0, wdata := 0, size := 0, we := false, valid := false }
  | b :: _ => if s.taken then b.answered else b

def memIn (s : Master) : MemIn := { bus := s.bus, gpioIn := 0, miso := false, undef := 0 }

def step (s : Master) (_ : Unit) : Master :=
  { board := s.board.step s.memIn
    todo := if s.taken then s.todo.tail else s.todo
    taken := !s.taken && s.board.mem.ready s.bus }

def run (s : MemBoard) (accesses : List Bus) : Clocked.Run Master.step :=
  .ofInputs Master.step { board := s.reset, todo := accesses, taken := false } fun _ => ()

/-- The board's own history. -/
def boardRun (r : Clocked.Run Master.step) : Clocked.Run MemBoard.step :=
  r.map (·.board) (fun s _ => s.memIn) fun _ _ => rfl

end Master

/-- Any list of accesses can be driven. -/
theorem exists_drives (r : Clocked.Run Master.step) (accesses : List Bus)
    (valid : ∀ b ∈ accesses, b.valid = true) {a : Nat}
    (quiet : Quiet (memRun (Master.boardRun r)) (chipRun (Master.boardRun r)) a) (todo : (r.state a).todo = accesses)
    (fresh : (r.state a).taken = false) :
    ∃ l e, Drives (Master.boardRun r) a l e ∧ l.map Prod.fst = accesses := by
  induction accesses generalizing a with
  | nil => exact ⟨[], a, .done a, rfl⟩
  | cons b rest ih =>
      have strobe := valid b (List.mem_cons_self ..)
      have waiting (k : Nat) (low : ∀ j, j < k → (r.state (a + j)).board.mem.ready b = false) :
          (r.state (a + k)).todo = b :: rest ∧ (r.state (a + k)).taken = false := by
        induction k with
        | zero => exact ⟨todo, fresh⟩
        | succ k step =>
            obtain ⟨list, flag⟩ := step fun j before => low j (by omega)
            rw [← Nat.add_assoc, r.edge]
            simp [Master.step, Master.bus, list, flag, low k (Nat.lt_succ_self k)]
      have shown (k : Nat) (low : ∀ j, j < k → (r.state (a + j)).board.mem.ready b = false) :
          ((Master.boardRun r).input (a + k)).bus = b := by
        obtain ⟨list, flag⟩ := waiting k low
        change (r.state (a + k)).bus = b
        simp [Master.bus, list, flag]
      have issued : Issued (memRun (Master.boardRun r)) a b :=
        issued_of_held quiet strobe (shown 0 fun _ h => absurd h (by omega)) fun k low =>
          shown (k + 1) fun j before => low j (by omega)
      obtain ⟨d, same⟩ : ∃ d, d = ((Master.boardRun r).state a).mem.regs.delay b := ⟨_, rfl⟩
      have bus (k : Nat) (upto : k ≤ d) : ((Master.boardRun r).input (a + k)).bus = b :=
        (issued.waiting (same ▸ upto)).1
      have low (k : Nat) (before : k < d) : (r.state (a + k)).board.mem.ready b = false := by
        have low : (r.state (a + k)).board.mem.ready ((Master.boardRun r).input (a + k)).bus =
          false := issued.ready_low (same ▸ before)
        rwa [bus k before.le] at low
      have high : (r.state (a + d)).board.mem.ready b = true := by
        have high : (r.state (a + d)).board.mem.ready ((Master.boardRun r).input (a + d)).bus =
          true := by rw [same]; exact issued.ready_high
        rwa [bus d le_rfl] at high
      obtain ⟨list, flag⟩ := waiting d low
      have taken : (r.state (a + d + 1)).todo = b :: rest ∧ (r.state (a + d + 1)).taken = true := by
        rw [r.edge]
        simp [Master.step, Master.bus, list, flag, high]
      have next : (r.state (a + d + 2)).todo = rest ∧ (r.state (a + d + 2)).taken = false := by
        rw [show a + d + 2 = a + d + 1 + 1 from rfl, r.edge]
        simp [Master.step, taken.1, taken.2]
      have response : ((Master.boardRun r).input (a + d + 1)).bus = b.answered := by
        change (r.state (a + d + 1)).bus = b.answered
        simp [Master.bus, taken.1, taken.2]
      have quiet₁ := quiet.access (wired _) issued
      rw [show ((memRun (Master.boardRun r)).state a).regs.delay b = d from same.symm] at quiet₁
      have idle : ((memRun (Master.boardRun r)).input (a + d + 1)).bus = b.answered := response
      have quiet₂ := (quiet₁.step (wired _) (by rw [idle]; rfl) (by rw [idle]; rfl)).1
      obtain ⟨l, e, drives, names⟩ := ih (fun c member => valid c (List.mem_cons_of_mem _ member))
        quiet₂ next.1 next.2
      exact ⟨_, e, .access strobe bus low high response drives, by rw [List.map_cons, names]⟩

/-- The window is two independent byte-addressed memories.  From reset, after any sequence of
accesses: every load from the window has returned what the memory of the bank selected then held at its
addresses, both chips hold what the stores have left in these memories, and a further access, held
until `ready`, is answered. -/
theorem psram_window (r : Clocked.Run MemBoard.step) (s : MemBoard) (reset : r.state 0 = s.reset)
    {l : List (Bus × BitVec 32)} {e : Nat} (drives : Drives r 0 l e) :
    Answers s.reset.psram l ∧
      (r.state e).psram = l.foldl (fun p x => p.access x.1) s.reset.psram ∧
      ∀ b : Bus, b.valid = true → (r.input e).bus = b →
        (∀ k, (∀ j, j ≤ k → (r.state (e + j)).mem.ready b = false) →
          (r.input (e + k + 1)).bus = b) →
        ∃ d, (∀ k, k ≤ d → (r.input (e + k)).bus = b) ∧
          (∀ k, k < d → (r.state (e + k)).mem.ready b = false) ∧
          (r.state (e + d)).mem.ready b = true := by
  obtain ⟨quiet, answers, folded⟩ := drives.psram (quiet_reset s reset)
  rw [reset] at answers folded
  refine ⟨answers, folded, fun b valid first held => ?_⟩
  have issued := issued_of_held quiet valid first held
  have bus (k : Nat) (upto : k ≤ (r.state e).mem.regs.delay b) : (r.input (e + k)).bus = b :=
    (issued.waiting upto).1
  refine ⟨(r.state e).mem.regs.delay b, bus, fun k before => ?_, ?_⟩
  · have low : (r.state (e + k)).mem.ready (r.input (e + k)).bus = false := issued.ready_low before
    rwa [bus k before.le] at low
  · have high : (r.state (e + (r.state e).mem.regs.delay b)).mem.ready
        (r.input (e + (r.state e).mem.regs.delay b)).bus = true := issued.ready_high
    rwa [bus _ le_rfl] at high

/-- A word is stored at `0xE0`, and the byte at `0xE1` loaded. -/
theorem psram_window_byte : ∃ (r : Clocked.Run MemBoard.step) (e : Nat) (u v : BitVec 32),
    Drives r 0
        [({ addr := 0xE0, wdata := 0xCAFEBABE, size := 2, we := true, valid := true }, u),
          ({ addr := 0xE1, wdata := 0, size := 0, we := false, valid := true }, v)] e ∧
      v = 0xBA#32 := by
  obtain ⟨start, isStart⟩ : ∃ start : MemBoard, start = ⟨Top.zeroed.mem, zeroedChips⟩ := ⟨_, rfl⟩
  obtain ⟨accesses, isAccesses⟩ : ∃ accesses : List Bus, accesses =
      [{ addr := 0xE0, wdata := 0xCAFEBABE, size := 2, we := true, valid := true },
        { addr := 0xE1, wdata := 0, size := 0, we := false, valid := true }] := ⟨_, rfl⟩
  obtain ⟨l, e, drives, names⟩ := exists_drives (a := 0) (Master.run start accesses) accesses
    (by rw [isAccesses]; decide) (quiet_reset start rfl) rfl rfl
  rw [isAccesses] at names
  obtain _ | ⟨⟨b, u⟩, _ | ⟨⟨b', v⟩, _ | _⟩⟩ := l <;> simp at names
  obtain ⟨rfl, rfl⟩ := names
  have answers := (psram_window _ start rfl drives).1
  refine ⟨_, e, u, v, drives, (answers.2.1 rfl (by decide) (by decide)).trans ?_⟩
  rw [isStart]
  decide

end Sequence

end MemBoard

end AgilA32
