import AgilA32.Flash.Execute
import AgilA32.Flash.Source

/-!
# The source of a paged program

A board with the image of a paged program in its flash does what the source says, with the whole memory map
at the program's disposal (`PagedAsm.runs_paged`).  Only `FLASH_PAGE` is not: the switches write it, at
the end of a page.
-/

namespace AgilA32

open AgilA32.Core (Access hart readReg toAccess writeReg)
open Asm (address methods)
open Clocked (Run)
open Flash (Holds Unattended)
open Rv32i (Instr decode)

namespace MemoryMap

/-- How long an instruction in flash takes: the fetch is all of it, unless it has a data access outside. -/
def pace (s : MemoryMap) : Nat := 9 + 128 * 4 ^ s.qspiDivSel.toNat

end MemoryMap

/-- A store to `FLASH_PAGE` puts the low byte of its value there and takes a cycle. -/
theorem MemoryMap.store_page (s : MemoryMap) (v : BitVec 32) :
    s.store (Access.write 0xFC 2 v).bus = { s.wait 1 with flashPage := v.setWidth 8 } := by
  have low : v.extractLsb' 0 8 = v.setWidth 8 := by
    rw [BitVec.setWidth_eq_extractLsb' (by decide)]
  refine (MemoryMap.mk.injEq ..).mpr ⟨funext fun k => if_neg ?_, rfl, rfl, low, rfl, rfl, rfl, rfl, rfl, rfl, rfl,
    rfl⟩
  rintro ⟨ram, -⟩
  cases ram

namespace PagedAsm

open Paged (onPage)

/-- The computer at word `k` of the window. -/
def slot (k : Nat) (x : RegFile) (map : MemoryMap) (cycle : Nat) : Soc := ⟨.ofNat 8 (0xB4 + 4 * k), x, map, cycle⟩

section Slot

variable {o : Outside} {image : List (BitVec 8)} {k : Nat} {x : RegFile} {map : MemoryMap} {cycle : Nat}

theorem task_soc (s : Task) : s.soc 0xB4 = slot s.spot.pos s.spot.x s.map s.cycle := by
  rw [Task.soc, Asm.address_low]
  rfl

variable (shows : map.Shows image) (inside : k ≤ 10)
include shows inside

theorem fetchStall_slot : 7 + (slot k x map cycle).fetchStall = map.pace := by
  have place : map.place (slot k x map cycle).fetchAccess.bus.addr = .flash := shows.place inside
  have size : sizeBytes (slot k x map cycle).fetchAccess.bus.size = 4 := rfl
  change 7 + map.stall (slot k x map cycle).fetchAccess.bus = _
  rw [MemoryMap.stall, MemoryMap.bits, place, size, MemoryMap.pace]
  dsimp only
  rw [if_neg (by omega)]
  omega

theorem word_slot (within : 44 * map.flashPage.toNat + 44 ≤ image.length) :
    (slot k x map cycle).word o = pageWord image map.flashPage.toNat k :=
  (shows.wait _).load inside (by change 44 * map.flashPage.toNat + 4 * k + 4 ≤ _; omega) _ _

end Slot

/-! ## The instructions of a page -/

section Reach

variable {o : Outside} {r : Run (Soc.step o)}

/-- `n` instructions after step `t` the computer is in the state `s`, and has made these stores. -/
structure Reaches (r : Run (Soc.step o)) (t n : Nat) (s : Soc) (stores : List Bus) : Prop where
  there : r.state (t + n) = some s
  stores : r.observe (Soc.stores o) t n = stores

theorem Reaches.refl {t : Nat} {s : Soc} (here : r.state t = some s) : Reaches r t 0 s [] := ⟨here, rfl⟩

theorem Reaches.trans {t n n' : Nat} {s s' : Soc} {stores stores' : List Bus} (first : Reaches r t n s stores)
    (next : Reaches r (t + n) n' s' stores') : Reaches r t (n + n') s' (stores ++ stores') where
  there := by rw [← Nat.add_assoc, next.there]
  stores := by rw [r.observe_add, first.stores, next.stores]

theorem Reaches.one {t : Nat} {s : Soc} {i : Instr} (here : r.state t = some s) (fetched : s.fetch o = some i) :
    Reaches r t 1 (s.exec o i) (Soc.storeOf (s.dataAccess i)).toList where
  there := by rw [r.edge, here, Soc.step, Option.bind_some, fetched, Option.map_some]
  stores := by rw [r.observe_one, here, Soc.stores, Option.bind_some, fetched, Option.bind_some]

variable {image : List (BitVec 8)} {k : Nat} {x : RegFile} {map : MemoryMap} {cycle : Nat}
  (shows : map.Shows image) (within : 44 * map.flashPage.toNat + 44 ≤ image.length) (inside : k ≤ 10) {t : Nat}
  (here : r.state t = some (slot k x map cycle)) {i : Instr}
  (decoded : decode (pageWord image map.flashPage.toNat k) = some i)
include shows within inside here decoded

/-- An instruction that only computes takes one pace and stores nothing. -/
theorem Reaches.plain {k' : Nat} {y : RegFile} (running : i ≠ .ebreak) (quiet : ∀ h, i.memReq h = none)
    (pc : (i.exec (hart (.ofNat 8 (0xB4 + 4 * k)) x) 0).pc.setWidth 8 = .ofNat 8 (0xB4 + 4 * k'))
    (regs : (i.exec (hart (.ofNat 8 (0xB4 + 4 * k)) x) 0).x = y) :
    Reaches r t 1 (slot k' y (map.wait map.pace) (cycle + map.pace)) [] := by
  have fetched : (slot k x map cycle).fetch o = some i := by
    rw [Soc.fetch, word_slot shows inside within, decoded, Option.filter_some_pos (by simpa using running)]
  have access : (slot k x map cycle).dataAccess i = none := by rw [Soc.dataAccess, quiet]; rfl
  have stall : 7 + (slot k x map cycle).fetchStall = map.pace := fetchStall_slot shows inside
  have state : (slot k x map cycle).exec o i = slot k' y (map.wait map.pace) (cycle + map.pace) := by
    rw [Soc.exec, access]
    refine (Soc.mk.injEq ..).mpr ⟨pc, regs, ?_, ?_⟩
    · change ((map.wait (5 + (slot k x map cycle).fetchStall + 0)).wait 1).wait 1 = map.wait map.pace
      rw [← MemoryMap.wait_add, ← MemoryMap.wait_add, ← stall]
      congr 1
      omega
    · change cycle + 6 + (slot k x map cycle).fetchStall + 0 + 1 = cycle + map.pace
      omega
  have one := Reaches.one here fetched
  rw [state, access] at one
  exact one

/-- The store to `FLASH_PAGE` turns the page, and is the only store. -/
theorem Reaches.switch {reg : BitVec 5} (store : i = .store .sw 0 reg 0xFC) :
    Reaches r t 1 (slot (k + 1) x { map.wait map.pace with flashPage := (readReg x reg).setWidth 8 }
      (cycle + map.pace)) [(Access.write 0xFC 2 (readReg x reg)).bus] := by
  subst store
  have fetched : (slot k x map cycle).fetch o = some (.store .sw 0 reg 0xFC) := by
    rw [Soc.fetch, word_slot shows inside within, decoded, Option.filter_some_pos (by simp)]
  have access : (slot k x map cycle).dataAccess (.store .sw 0 reg 0xFC) = some (.write 0xFC 2 (readReg x reg)) := rfl
  have stall : 7 + (slot k x map cycle).fetchStall = map.pace := fetchStall_slot shows inside
  have none : (slot k x map cycle).dataStall (some (.write 0xFC 2 (readReg x reg))) = 0 := rfl
  have state : (slot k x map cycle).exec o (.store .sw 0 reg 0xFC) =
      slot (k + 1) x { map.wait map.pace with flashPage := (readReg x reg).setWidth 8 } (cycle + map.pace) := by
    rw [Soc.exec, access]
    refine (Soc.mk.injEq ..).mpr ⟨Paged.next_slot, rfl, ?_, ?_⟩
    · have waits : ((map.wait (5 + (slot k x map cycle).fetchStall)).wait 1).wait 1 = map.wait map.pace := by
        rw [← MemoryMap.wait_add, ← MemoryMap.wait_add, ← stall]
        congr 1
        omega
      change MemoryMap.wait 1 ((map.wait (5 + (slot k x map cycle).fetchStall)).store _) = _
      rw [MemoryMap.store_page, ← waits]
      rfl
    · change cycle + 6 + (slot k x map cycle).fetchStall + 0 + 1 = cycle + map.pace
      omega
  have one := Reaches.one here fetched
  rw [state, access] at one
  exact one

end Reach

/-! ## The end of a page -/

/-- Time passes, and another page is shown. -/
def turned (map : MemoryMap) (time : Nat) (page : BitVec 8) : MemoryMap :=
  { map.wait time with flashPage := page }

theorem turned_wait (map : MemoryMap) (m n : Nat) (page : BitVec 8) :
    (turned map m page).wait n = turned map (m + n) page := by
  rw [turned, turned, MemoryMap.wait_add]
  rfl

theorem wait_turned (map : MemoryMap) (m n : Nat) (page : BitVec 8) :
    turned (map.wait m) n page = turned map (m + n) page := by
  rw [turned, turned, MemoryMap.wait_add]

section Leave

variable {o : Outside} {r : Run (Soc.step o)} {reg : Nat} {pages : List Segment} {image : List (BitVec 8)}
  (compiled : Compiled reg pages image) {map : MemoryMap} (shows : map.Shows image) {seg : Segment}
  (listed : pages[map.flashPage.toNat]? = some seg) {x : RegFile} {cycle t : Nat}
include compiled listed

theorem Compiled.within : 44 * map.flashPage.toNat + 44 ≤ image.length := by
  have exists_ := (List.getElem?_eq_some_iff.mp listed).1
  rw [compiled.length]
  omega

include shows

/-- The padding of a page takes a pace for each NOP and stores nothing. -/
theorem Reaches.nops (here : r.state t =
    some (slot (methods (seg.code map.flashPage.toNat)).length x map cycle)) :
    ∀ j, (methods (seg.code map.flashPage.toNat)).length + j ≤ seg.ending.room →
      Reaches r t j (slot ((methods (seg.code map.flashPage.toNat)).length + j) x (map.wait (j * map.pace))
        (cycle + j * map.pace)) [] := by
  obtain ⟨-, small⟩ := compiled.room listed
  intro j within
  induction j with
  | zero =>
      rw [Nat.zero_mul]
      exact .refl here
  | succ j ih =>
      have before := ih (by omega)
      have word := (compiled.laid _ seg listed).padded _ (Nat.le_add_right _ j) (by omega)
      have decoded : decode (pageWord image map.flashPage.toNat
          ((methods (seg.code map.flashPage.toNat)).length + j)) = some (.aluImm .add 0 0 0) := by
        rw [word]
        decide
      have one := before.trans (.plain (shows.wait _) (compiled.within listed) (by omega) before.there decoded
        (by simp) (fun _ => rfl) Paged.next_slot rfl)
      rw [Nat.succ_mul, ← Nat.add_assoc cycle, MemoryMap.wait_add]
      exact one

/-- The store to `FLASH_PAGE` and the trampoline. -/
theorem Reaches.turns {next : BitVec 8} (here : r.state t = some (slot 9 x map cycle))
    (named : (readReg x (.ofNat 5 (seg.scratch.getD reg))).setWidth 8 = next) (exists_ : next.toNat < pages.length) :
    Reaches r t 2 (slot 0 x (turned map (2 * map.pace) next) (cycle + 2 * map.pace))
      [(Access.write 0xFC 2 (readReg x (.ofNat 5 (seg.scratch.getD reg)))).bus] := by
  have switched := Reaches.switch shows (compiled.within listed) (by omega) here
    (compiled.laid _ seg listed).switch rfl
  rw [named] at switched
  have there := List.getElem?_eq_getElem exists_
  have shows' : (turned map map.pace next).Shows image := ⟨shows.mode, shows.flash⟩
  have jumped := Reaches.plain shows' (compiled.within there) le_rfl switched.there
    (compiled.laid _ _ there).trampoline.2.1 (by simp) (fun _ => rfl) (Paged.jump_target (by decide)) rfl
  rw [Nat.two_mul, ← Nat.add_assoc, ← turned_wait]
  exact switched.trans jumped

/-- What is left of a page after the program's own instructions leads to the page that `leave` names; its
only store is that to `FLASH_PAGE`. -/
theorem Reaches.leaves (here : r.state t = some (slot (methods (seg.code map.flashPage.toNat)).length x map cycle))
    {q : Place} (done : seg.leave reg pages.length x = some q) :
    let left := 11 - (methods (seg.code map.flashPage.toNat)).length
    Reaches r t left (slot q.pos q.x (turned map (left * map.pace) q.page) (cycle + left * map.pace))
      [(Access.write 0xFC 2 (readReg q.x (.ofNat 5 (seg.scratch.getD reg)))).bus] := by
  obtain ⟨fits, -⟩ := compiled.room listed
  obtain ⟨exists_, place⟩ := Option.ite_none_right_eq_some.mp done
  cases place
  have padded := Reaches.nops compiled shows listed here _ (Nat.add_sub_of_le fits).le
  rw [Nat.add_sub_of_le fits] at padded
  have load := (compiled.laid _ seg listed).load
  intro left
  cases ending : seg.ending with
  | switchTo next =>
      rw [ending] at padded fits exists_
      have room : (Ending.switchTo next).room = 8 := rfl
      have loaded := padded.trans (.plain (shows.wait _) (compiled.within listed) (by omega) padded.there
        (load next ending) (by simp) (fun _ => rfl) Paged.next_slot
        (y := writeReg x (.ofNat 5 (seg.scratch.getD reg)) ((BitVec.ofInt 12 next).signExtend 32))
        ((Core.hart_set_x ..).trans (congrArg _ (BitVec.zero_add _))))
      have turns := loaded.trans (.turns compiled ((shows.wait _).wait _) listed loaded.there rfl exists_)
      have time : left = (Ending.switchTo next).room - (methods (seg.code map.flashPage.toNat)).length + 1 + 2 := by
        omega
      rw [time, Nat.add_mul _ 2, Nat.add_mul _ 1, Nat.one_mul, ← Nat.add_assoc cycle, ← Nat.add_assoc cycle,
        ← wait_turned, MemoryMap.wait_add]
      exact turns
  | switchToComputed =>
      rw [ending] at padded fits exists_
      have room : Ending.switchToComputed.room = 9 := rfl
      have turns := padded.trans (.turns compiled (shows.wait _) listed padded.there rfl exists_)
      have time : left = Ending.switchToComputed.room - (methods (seg.code map.flashPage.toNat)).length + 2 := by
        omega
      rw [time, Nat.add_mul, ← Nat.add_assoc cycle, ← wait_turned]
      exact turns

end Leave

/-! ## Paged programs on the computer -/

section Task

variable (o : Outside) (reg : Nat) (pages : List Segment)

/-- An own store to `FLASH_PAGE`: a program turns pages only by the switch. -/
def tears : Effect → Bool
  | .store _ addr _ => addr.setWidth 8 == 0xFC#8
  | _ => false

/-- The end of a page: what is left of it passes. -/
def Segment.turn (count : Nat) (seg : Segment) (s : Task) : Option Task :=
  (seg.leave reg count s.spot.x).map fun q =>
    let time := (11 - s.spot.pos) * s.map.pace
    ⟨q.toSpot, turned s.map time q.page, s.cycle + time⟩

/-- The store of the switch. -/
def Segment.turnStore (count : Nat) (seg : Segment) (s : Task) : Option Bus :=
  (seg.leave reg count s.spot.x).map fun q =>
    (Access.write 0xFC 2 (readReg q.x (.ofNat 5 (seg.scratch.getD reg)))).bus

/-- The effect of the next instruction, on the page that `FLASH_PAGE` shows. -/
def effect (s : Task) : Option Effect :=
  pages[s.map.flashPage.toNat]?.bind fun seg => Asm.doing 0xB4 (seg.code s.map.flashPage.toNat) s.spot

/-- One instruction of a paged program, or the switch at the end of a page. -/
def taskStep (s : Option Task) (_ : Unit) : Option Task :=
  s.bind fun s => pages[s.map.flashPage.toNat]?.bind fun seg =>
    let code := seg.code s.map.flashPage.toNat
    match effect pages s with
    | some e => if tears e then none else s.apply o 0xB4 code e
    | none => if s.spot.pos = (methods code).length then seg.turn reg pages.length s else none

/-- The store that it makes. -/
def taskStores (s : Option Task) (_ : Unit) : Option Bus :=
  s.bind fun s =>
    match effect pages s with
    | some e => Soc.storeOf (e.memReq.map toAccess)
    | none => pages[s.map.flashPage.toNat]?.bind fun seg => seg.turnStore reg pages.length s

/-- How many instructions of the image it takes. -/
def taskCost : Option Task → Nat
  | some s => if (effect pages s).isSome then 1 else 11 - s.spot.pos
  | none => 1

/-- The program from the state `s` on. -/
def taskRun (s : Task) : Run (taskStep o reg pages) := .ofInputs (taskStep o reg pages) (some s) fun _ => ()

end Task

section Step

variable {o : Outside} {reg : Nat} {pages : List Segment} {image : List (BitVec 8)}
  (compiled : Compiled reg pages image)
include compiled

/-- The window shows the instruction that comes next. -/
theorem Compiled.shown {s : Task} (shows : s.map.Shows image) {seg : Segment}
    (listed : pages[s.map.flashPage.toNat]? = some seg) : s.Shown o 0xB4 (seg.code s.map.flashPage.toNat) := by
  intro m here
  obtain ⟨fits, small⟩ := compiled.room listed
  have within := (List.getElem?_eq_some_iff.mp here).1
  obtain ⟨a, built⟩ := compiled.labels _ seg listed
  obtain ⟨w, word, encodes⟩ := (compiled.laid _ seg listed).own _ m here
  rw [task_soc, word_slot shows (by omega) (compiled.within listed), word]
  exact encodes.decode built (compiled.inRange _ seg listed m (List.mem_of_getElem? here))

omit compiled in
/-- An instruction of the program leaves the image in view. -/
theorem shows_apply {s s' : Task} (shows : s.map.Shows image) {code : List Asm.Call} {e : Effect}
    (applied : s.apply o 0xB4 code e = some s') : s'.map.Shows image := by
  obtain ⟨spot, -, rfl⟩ := Option.map_eq_some_iff.mp applied
  have accessed := Task.map_accessed (P := (·.Shows image)) (Q := fun _ => True) (fun m n shows => shows.wait n)
    (fun m b shows _ => shows.store b) (s := s.soc 0xB4) shows (d := e.memReq.map toAccess) fun _ _ => trivial
  exact accessed.wait 1

/-- A step of the program takes the instruction machine to where the program gets, in as many instructions
as `taskCost` says, with the program's stores. -/
theorem step_soc {r : Run (Soc.step o)} {t : Nat} {q : Option Task}
    (here : ∀ s, q = some s → r.state t = some (s.soc 0xB4) ∧ s.map.Shows image)
    (alive : (taskStep o reg pages q ()).isSome = true) :
    (∀ s, taskStep o reg pages q () = some s →
      r.state (t + taskCost pages q) = some (s.soc 0xB4) ∧ s.map.Shows image) ∧
      r.observe (Soc.stores o) t (taskCost pages q) = (taskStores reg pages q ()).toList := by
  obtain ⟨s', done⟩ := Option.isSome_iff_exists.mp alive
  obtain ⟨s, rfl, inside⟩ := Option.bind_eq_some_iff.mp done
  obtain ⟨seg, listed, inside⟩ := Option.bind_eq_some_iff.mp inside
  obtain ⟨there, shows⟩ := here s rfl
  have now : effect pages s = Asm.doing 0xB4 (seg.code s.map.flashPage.toNat) s.spot := by
    rw [effect, listed, Option.bind_some]
  rw [done]
  cases does : effect pages s with
  | some e =>
      rw [does] at inside
      obtain ⟨-, applied⟩ := Option.ite_none_left_eq_some.mp inside
      have cost : taskCost pages (some s) = 1 := by
        rw [taskCost, does]
        rfl
      have stores : taskStores reg pages (some s) () =
          Task.stores 0xB4 (seg.code s.map.flashPage.toNat) (some s) () := by
        rw [taskStores, Option.bind_some, Task.stores, Option.bind_some, ← now, does]
        rfl
      have step : Task.step o 0xB4 (seg.code s.map.flashPage.toNat) (some s) () = some s' := by
        rw [Task.step, Option.bind_some, ← now, does]
        exact applied
      obtain ⟨fits, small⟩ := compiled.room listed
      obtain ⟨after, store⟩ := Task.step_soc
        (fun m member => compiled.inRange _ seg listed m (Asm.mem_methods.mpr member))
        (fun k within => Asm.address_small (by omega)) (compiled.shown shows listed) step
      rw [cost, stores, r.edge, r.observe_one, there]
      refine ⟨?_, congrArg Option.toList store⟩
      rintro s ⟨⟩
      exact ⟨after, shows_apply shows applied⟩
  | none =>
      rw [does] at inside
      obtain ⟨ends, turn⟩ := Option.ite_none_right_eq_some.mp inside
      obtain ⟨q, leave, rfl⟩ := Option.map_eq_some_iff.mp turn
      have cost : taskCost pages (some s) = 11 - s.spot.pos := by
        rw [taskCost, does]
        rfl
      have stores : taskStores reg pages (some s) () =
          some (Access.write 0xFC 2 (readReg q.x (.ofNat 5 (seg.scratch.getD reg)))).bus := by
        rw [taskStores, Option.bind_some, does]
        dsimp only
        rw [listed, Option.bind_some, Segment.turnStore, leave, Option.map_some]
      rw [task_soc, ends] at there
      have turns := Reaches.leaves compiled shows listed there leave
      rw [cost, stores, ends]
      refine ⟨?_, turns.stores⟩
      rintro s ⟨⟩
      exact ⟨by rw [task_soc]; exact turns.there, shows.mode, shows.flash⟩

/-- Through any number of steps the instruction machine gets to where the program gets, with the image still
in view, and makes the program's stores in the program's order. -/
theorem run_soc {r : Run (Soc.step o)} {m n : Nat} {s s' : Task} (start : r.state m = some (s.soc 0xB4))
    (shows : s.map.Shows image) (reached : (taskRun o reg pages s).state n = some s') :
    s'.map.Shows image ∧ ∃ m', m ≤ m' ∧ r.state m' = some (s'.soc 0xB4) ∧
      r.observe (Soc.stores o) m (m' - m) = (taskRun o reg pages s).observe (taskStores reg pages) 0 n := by
  have paced : r.paced (taskStep o reg pages) (taskCost pages) (some s) m = taskRun o reg pages s :=
    Run.eq_ofInputs _
  have backwards (q : Option Task) (v : Unit) (alive : (taskStep o reg pages q v).isSome = true) :
      q.isSome = true := by
    cases q with
    | none => exact alive
    | some q => rfl
  have begins (s' : Task) (same : some s = some s') : r.state m = some (s'.soc 0xB4) ∧ s'.map.Shows image := by
    cases same
    exact ⟨start, shows⟩
  obtain ⟨there, shown⟩ := Run.paced_simulates (fun q => q.isSome = true)
    (fun q s => ∀ s', q = some s' → s = some (s'.soc 0xB4) ∧ s'.map.Shows image) (fun _ : Unit => Soc.stores o)
    (fun _ : Unit => taskStores reg pages) backwards (fun t q here alive =>
      ⟨(step_soc compiled here alive).1, fun _ => (step_soc compiled here alive).2⟩) begins (n := n)
    (by rw [paced, reached]; rfl)
  rw [paced] at there shown
  obtain ⟨there, shows'⟩ := there s' reached
  exact ⟨shows', _, r.le_moment .., there, shown ()⟩

end Step

/-! ## Paged programs on the board -/

open Board (Ready outside socRun topRun)

section Board

variable {reg : Nat} {pages : List Segment} {image : List (BitVec 8)}

/-- After `n` steps of a paged program that was entered in cycle `t` the board is in the state `s`, before an
instruction; and a program that comes to `EBREAK` halts. -/
structure Obeys (r : Run Board.step) (t : Nat) (p : Run (taskStep (outside r) reg pages)) (n : Nat) (s : Task) :
    Prop where
  ready : Ready (r.state s.cycle)
  there : (r.state s.cycle).soc s.cycle = s.soc 0xB4
  stores : (topRun r).observe Top.stored t (s.cycle - t) = p.observe (taskStores reg pages) 0 n
  stops : effect pages s = some .halt → ∀ u, s.cycle + 4 + (s.soc 0xB4).fetchStall ≤ u →
    (r.state u).core.halted = true ∧
      (r.state u).soc u = { s.soc 0xB4 with map := s.map.wait (u - s.cycle), cycle := u } ∧
      (topRun r).observe Top.stored s.cycle (u - s.cycle) = []

/-- A board with the program in view follows it. -/
theorem Compiled.obeys (compiled : Compiled reg pages image) {r : Run Board.step} {t k n : Nat} {s : Task}
    (start : Ready (r.state t)) (pc : (r.state t).core.pc = .ofNat 8 (0xB4 + 4 * k))
    (shows : (r.state t).memBoard.memoryMap.Shows image)
    (reached : (taskRun (outside r) reg pages ((r.state t).task k t)).state n = some s) :
    Obeys r t (taskRun (outside r) reg pages ((r.state t).task k t)) n s := by
  have same : ((r.state t).task k t).soc 0xB4 = (r.state t).soc t := by
    rw [task_soc, Board.soc, pc]
    rfl
  obtain ⟨shows', m, -, there, stores⟩ := run_soc compiled (r := socRun r t) (m := 0)
    (congrArg some same.symm) shows reached
  obtain ⟨-, ready, board⟩ := Board.socRun_state start there
  refine ⟨ready, board, (Board.socRun_stores start there).trans stores, fun halts => ?_⟩
  refine fun u after => Board.socRun_halts start there ?_ after
  obtain ⟨seg, listed, does⟩ := Option.bind_eq_some_iff.mp halts
  obtain ⟨m, last, halt⟩ := Option.map_eq_some_iff.mp does
  rw [compiled.shown shows' listed m last]
  exact congrArg some ((Method.instr_eq_ebreak _).mpr halt)

/-- In cycle `t` the board enters the program at instruction `k` of page 0, and it follows it from there on. -/
structure Enters (r : Run Board.step) (reg : Nat) (pages : List Segment) (t k : Nat) : Prop where
  page : (r.state t).memBoard.memoryMap.flashPage = 0
  obeys : ∀ n s, (taskRun (outside r) reg pages ((r.state t).task k t)).state n = some s →
    Obeys r t (taskRun (outside r) reg pages ((r.state t).task k t)) n s

end Board

/-- Any calls that do not raise, with operands in range.  A board that has their image in its flash enters the
program without a host, or with one that sends the stub, and from there on does what its source says: the
registers, the whole memory map, the stores and the cycle of every instruction are those of the source, a
switch of pages taking as long as what is left of the page and going to the page in the low eight bits of its
register (page 0 for `x0`), for as long as the program turns pages by switches alone; and it halts where the
source says `EBREAK`. -/
theorem runs_paged {reg : Nat} (small : reg < 32) {calls : List Call} (inRange : ∀ c ∈ calls, c.InRange)
    {p : PagedAsm} (built : (PagedAsm.default reg).build calls = some p) (r : Run Board.step) (b : Board)
    (reset : r.state 0 = b.reset) (holds : Holds b.chips.flash.mem p.finalize) :
    (Unattended (topRun r) → ∃ t, t ≤ 42570 ∧ Enters r reg (history calls).pages t 0) ∧
    ∃ t₀, Boot.SelfTested (topRun r) t₀ ∧ ∀ low rise, Boot.Host (topRun r) t₀ low rise Flash.handoffStub →
      ∃ t, t ≤ low 40 + 113 ∧ Enters r reg (history calls).pages t 1 := by
  have compiled := compiled_of_build small inRange built
  have enters {t k : Nat} (lands : Flash.Lands r p.finalize t k) : Enters r reg (history calls).pages t k :=
    ⟨lands.page, fun n s => compiled.obeys lands.ready lands.pc lands.shows⟩
  obtain ⟨alone, t₀, tested, hosted⟩ := Flash.lands reset holds
  refine ⟨fun never => ?_, t₀, tested, fun low rise host => ?_⟩
  · obtain ⟨t, early, lands⟩ := alone never
    exact ⟨t, early, enters lands⟩
  · obtain ⟨t, early, lands⟩ := hosted low rise host
    exact ⟨t, early, enters lands⟩

/-- Page 0 sets the PWM's duty, and page 1 shows one more on the LEDs. -/
def dutyTest : List Call :=
  [.page (.exec (.addi 2 0 0x2A)), .page (.exec (.sw 2 0 0xF7)), .switchTo 1 none,
    .page (.exec (.addi 2 2 1)), .page (.exec (.sw 2 0 0xF0)), .page (.label "SPIN"),
    .page (.exec (.jal 0 "SPIN")), .finalizeLastPage none]

theorem runs_paged_dutyTest : ∃ p, (PagedAsm.default 30).build dutyTest = some p ∧
    ∃ u, ((Flash.flashBoardRun (Flash.flashMem p.finalize)).state u).memBoard.memoryMap.pwmDuty = 0x2A ∧
      ((Flash.flashBoardRun (Flash.flashMem p.finalize)).state u).memBoard.memoryMap.gpioOut = 0x2B := by
  obtain ⟨p, built⟩ : ∃ p, (PagedAsm.default 30).build dutyTest = some p := ⟨_, rfl⟩
  have inRange : ∀ c ∈ dutyTest, c.InRange := by
    simp [dutyTest, Call.InRange, Call.RegInRange, Method.InRange]
  have stored : Holds (Flash.flashMem p.finalize) p.finalize := by
    have count := ((Follows.default 30).build built).image.1
    have pages : (dutyTest.foldl History.add ⟨[], []⟩).pages.length = 2 := rfl
    exact Flash.holds_whole (by omega)
  refine ⟨p, built, ?_⟩
  obtain ⟨alone, -⟩ := runs_paged (by omega) inRange built (Flash.flashBoardRun (Flash.flashMem p.finalize))
    (Flash.flashBoard (Flash.flashMem p.finalize)) rfl stored
  obtain ⟨t, -, enters⟩ := alone (Flash.unattended_flashBoard _)
  have reached (o : Outside) (x : RegFile) (map : MemoryMap) (first : map.flashPage = 0) : ∃ s,
      (taskRun o 30 (history dutyTest).pages ⟨⟨0, x⟩, map, t⟩).state 6 = some s ∧ s.map.pwmDuty = 0x2A ∧
        s.map.gpioOut = 0x2B := by
    obtain ⟨ram, gpioOut, flashMode, flashPage⟩ := map
    cases first
    exact ⟨_, rfl, rfl, rfl⟩
  obtain ⟨s, reached, duty, leds⟩ := reached _ _ _ enters.page
  have map := congrArg Soc.map (enters.obeys 6 s reached).there
  exact ⟨s.cycle, (congrArg MemoryMap.pwmDuty map).trans duty, (congrArg MemoryMap.gpioOut map).trans leds⟩

end PagedAsm

end AgilA32
