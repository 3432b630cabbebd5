import AgilA32.Clocked.Run
import AgilA32.Rtl.Core

/-!
# One instruction of the core, cycle by cycle

The core states an instruction goes through are functions of the state it starts in, the fetched
word and, at the end, the load response: `fetching`, `fetched`, `latched`, `executed`, `issued`,
`accessed`, `retired`.  `Stall` says how long `mem_ready` stays low in a wait state, and the lemmas
from `fetching_at` to `retired_at` place every one of these states at its cycle.
-/

namespace AgilA32

namespace Core

/-! ## The states of an instruction -/

section States

variable (c : Core) (w v : BitVec 32)

/-- The fetch is on the bus (`ST_FETCH_WAIT`). -/
def fetching : Core :=
  { c with memAddr := c.pc, memWe := false, memSize := 2, memValid := true, state := .fetchWait }

/-- The fetch has completed (`ST_DECODE`). -/
def fetched : Core := { c.fetching with memValid := false, state := .decode }

/-- The instruction is latched (`ST_EXEC`). -/
def latched : Core := { c.fetched with ir := w, state := .exec }

/-- Its result and successor are computed (`ST_MEM`). -/
def executed : Core :=
  { c.latched w with
    aluResult := aluY w c.regs, nextPc := nextPcOf w c.pc c.regs, state := .mem }

/-- Its data access, if any, is on the bus (`ST_MEM_WAIT`). -/
def issued : Core := (c.executed w).stepMem

/-- Its data access has completed (`ST_WB`). -/
def accessed : Core := { c.issued w with memValid := false, memWe := false, state := .wb }

/-- It has retired (`ST_FETCH`), with load response `v`. -/
def retired : Core :=
  { c.accessed w with
    regs := writeBack w c.pc (aluY w c.regs) v c.regs
    pc := nextPcOf w c.pc c.regs, state := .fetch }

/-- `EBREAK` has parked the core (`ST_HALTED`). -/
def parked : Core := { c.latched w with memWe := false, memValid := false, state := .halted }

end States

/-! ## What the data access does to the bus -/

/-- An access the core makes: what it drives while `mem_valid` is high. -/
inductive Access
  | read (addr : BitVec 8) (size : BitVec 2)
  | write (addr : BitVec 8) (size : BitVec 2) (data : BitVec 32)
  deriving DecidableEq, Repr

/-- The access on the bus, if one is. -/
def busAccess (c : Core) : Option Access :=
  if c.memValid then
    some (if c.memWe then .write c.memAddr c.memSize c.memWdata else .read c.memAddr c.memSize)
  else none

/-- The data access of an instruction word. -/
def dataAccess (w : BitVec 32) (regs : RegFile) : Option Access :=
  match opcode w with
  | .load => some (.read ((aluY w regs).extractLsb' 0 8) (accessSize w))
  | .store => some (.write ((aluY w regs).extractLsb' 0 8) (accessSize w) (rs2Val w regs))
  | _ => none

section Projections

variable (c : Core) (w v : BitVec 32)

@[simp] theorem fetching_state : c.fetching.state = .fetchWait := rfl
@[simp] theorem fetched_state : c.fetched.state = .decode := rfl
@[simp] theorem latched_state : (c.latched w).state = .exec := rfl
@[simp] theorem executed_state : (c.executed w).state = .mem := rfl
@[simp] theorem accessed_state : (c.accessed w).state = .wb := rfl
@[simp] theorem retired_state : (c.retired w v).state = .fetch := rfl
@[simp] theorem parked_state : (c.parked w).state = .halted := rfl

@[simp] theorem retired_pc : (c.retired w v).pc = nextPcOf w c.pc c.regs := rfl

@[simp] theorem retired_regs :
    (c.retired w v).regs = writeBack w c.pc (aluY w c.regs) v c.regs := rfl

/-- `ST_MEM` leaves everything but the bus request and the state alone. -/
theorem stepMem_frame :
    c.stepMem.state = .memWait ∧ c.stepMem.pc = c.pc ∧ c.stepMem.ir = c.ir ∧
      c.stepMem.aluResult = c.aluResult ∧ c.stepMem.nextPc = c.nextPc ∧
      c.stepMem.regs = c.regs := by
  unfold stepMem
  split <;> exact ⟨rfl, rfl, rfl, rfl, rfl, rfl⟩

@[simp] theorem issued_state : (c.issued w).state = .memWait := (stepMem_frame _).1
@[simp] theorem issued_pc : (c.issued w).pc = c.pc := (stepMem_frame _).2.1
@[simp] theorem issued_ir : (c.issued w).ir = w := (stepMem_frame _).2.2.1
@[simp] theorem issued_aluResult : (c.issued w).aluResult = aluY w c.regs :=
  (stepMem_frame _).2.2.2.1
@[simp] theorem issued_nextPc : (c.issued w).nextPc = nextPcOf w c.pc c.regs :=
  (stepMem_frame _).2.2.2.2.1
@[simp] theorem issued_regs : (c.issued w).regs = c.regs := (stepMem_frame _).2.2.2.2.2

@[simp] theorem fetching_busAccess : c.fetching.busAccess = some (.read c.pc 2) := rfl
@[simp] theorem fetched_busAccess : c.fetched.busAccess = none := rfl
@[simp] theorem latched_busAccess : (c.latched w).busAccess = none := rfl
@[simp] theorem executed_busAccess : (c.executed w).busAccess = none := rfl
@[simp] theorem accessed_busAccess : (c.accessed w).busAccess = none := rfl
@[simp] theorem retired_busAccess : (c.retired w v).busAccess = none := rfl
@[simp] theorem parked_busAccess : (c.parked w).busAccess = none := rfl

/-- The bus in `ST_MEM_WAIT` shows exactly the instruction's data access. -/
@[simp] theorem issued_busAccess : (c.issued w).busAccess = dataAccess w c.regs := by
  have ir : (c.executed w).ir = w := rfl
  have regs : (c.executed w).regs = c.regs := rfl
  unfold issued stepMem dataAccess
  rw [ir, regs]
  split <;> simp_all [busAccess]

/-- A write strobe never stands without a valid access. -/
theorem issued_we_valid (strobe : (c.issued w).memWe = true) : (c.issued w).memValid = true := by
  unfold issued stepMem at strobe ⊢
  split at strobe <;> simp_all

end Projections

/-! ## One edge in each state -/

section Edges

variable {c : Core} (w : BitVec 32) (i : Reply)

theorem step_fetch (here : c.state = .fetch) : c.step i = c.fetching := by
  simp only [step, here, fetching]

theorem step_fetching_wait (low : i.ready = false) : c.fetching.step i = c.fetching := by
  simp [step, low]

theorem step_fetching_ready (high : i.ready = true) : c.fetching.step i = c.fetched := by
  simp [step, high, fetched]

theorem step_fetched : c.fetched.step i = c.latched i.rdata := by
  simp [step, latched]

theorem step_latched (live : isEbreak w = false) : (c.latched w).step i = c.executed w := by
  have ir : (c.latched w).ir = w := rfl
  have pc : (c.latched w).pc = c.pc := rfl
  have regs : (c.latched w).regs = c.regs := rfl
  simp [step, ir, pc, regs, live, executed]

theorem step_latched_ebreak (stop : isEbreak w = true) : (c.latched w).step i = c.parked w := by
  have ir : (c.latched w).ir = w := rfl
  simp [step, ir, stop, parked]

theorem step_executed : (c.executed w).step i = c.issued w := by
  simp [step, issued]

theorem step_issued_wait (low : i.ready = false) : (c.issued w).step i = c.issued w := by
  simp [step, low]

theorem step_issued_ready (high : i.ready = true) : (c.issued w).step i = c.accessed w := by
  simp [step, high, accessed]

theorem step_accessed : (c.accessed w).step i = c.retired w i.rdata := by
  have ir : (c.accessed w).ir = w := issued_ir c w
  have pc : (c.accessed w).pc = c.pc := issued_pc c w
  have regs : (c.accessed w).regs = c.regs := issued_regs c w
  have result : (c.accessed w).aluResult = aluY w c.regs := issued_aluResult c w
  have next : (c.accessed w).nextPc = nextPcOf w c.pc c.regs := issued_nextPc c w
  simp [step, ir, pc, regs, result, next, retired]
  rfl

theorem step_parked : (c.parked w).step i = c.parked w := rfl

end Edges

/-! ## A whole instruction under wait states -/

/-- `mem_ready` is low for `d` cycles from cycle `a` on, and then high. -/
structure Stall (r : Clocked.Run Core.step) (a d : Nat) : Prop where
  low : ∀ k, k < d → (r.input (a + k)).ready = false
  high : (r.input (a + d)).ready = true

section Run

variable {r : Clocked.Run Core.step} {t d e : Nat} {c : Core} {w : BitVec 32}

theorem fetching_at (start : r.state t = c) (here : c.state = .fetch)
    (low : ∀ k, k < d → (r.input (t + 1 + k)).ready = false) :
    ∀ k, k ≤ d → r.state (t + 1 + k) = c.fetching := by
  have first : r.state (t + 1) = c.fetching := by rw [r.edge, start, step_fetch _ here]
  intro k within
  rw [r.stall (n := d) (fun k before => ?_) k within, first]
  rw [first, step_fetching_wait _ (low k before)]

theorem fetched_at (start : r.state t = c) (here : c.state = .fetch)
    (fetch : Stall r (t + 1) d) : r.state (t + 2 + d) = c.fetched := by
  rw [show t + 2 + d = t + 1 + d + 1 by omega, r.edge,
    fetching_at start here fetch.low d le_rfl, step_fetching_ready _ fetch.high]

theorem latched_at (start : r.state t = c) (here : c.state = .fetch)
    (fetch : Stall r (t + 1) d) (word : (r.input (t + 2 + d)).rdata = w) :
    r.state (t + 3 + d) = c.latched w := by
  rw [show t + 3 + d = t + 2 + d + 1 by omega, r.edge, fetched_at start here fetch,
    step_fetched, word]

/-- `EBREAK` parks the core at the edge that ends `ST_EXEC`, for good. -/
theorem parked_at (start : r.state t = c) (here : c.state = .fetch)
    (fetch : Stall r (t + 1) d) (word : (r.input (t + 2 + d)).rdata = w)
    (stop : isEbreak w = true) : ∀ k, r.state (t + 4 + d + k) = c.parked w := by
  have first : r.state (t + 4 + d) = c.parked w := by
    rw [show t + 4 + d = t + 3 + d + 1 by omega, r.edge, latched_at start here fetch word,
      step_latched_ebreak w _ stop]
  intro k
  rw [r.stall (n := k) (fun j _ => ?_) k le_rfl, first]
  rw [first, step_parked]

theorem executed_at (start : r.state t = c) (here : c.state = .fetch)
    (fetch : Stall r (t + 1) d) (word : (r.input (t + 2 + d)).rdata = w)
    (live : isEbreak w = false) : r.state (t + 4 + d) = c.executed w := by
  rw [show t + 4 + d = t + 3 + d + 1 by omega, r.edge, latched_at start here fetch word,
    step_latched w _ live]

theorem issued_at (start : r.state t = c) (here : c.state = .fetch)
    (fetch : Stall r (t + 1) d) (word : (r.input (t + 2 + d)).rdata = w)
    (live : isEbreak w = false)
    (low : ∀ k, k < e → (r.input (t + 5 + d + k)).ready = false) :
    ∀ k, k ≤ e → r.state (t + 5 + d + k) = c.issued w := by
  have first : r.state (t + 5 + d) = c.issued w := by
    rw [show t + 5 + d = t + 4 + d + 1 by omega, r.edge,
      executed_at start here fetch word live, step_executed]
  intro k within
  rw [r.stall (n := e) (fun k before => ?_) k within, first]
  rw [first, step_issued_wait w _ (low k before)]

theorem accessed_at (start : r.state t = c) (here : c.state = .fetch)
    (fetch : Stall r (t + 1) d) (word : (r.input (t + 2 + d)).rdata = w)
    (live : isEbreak w = false) (mem : Stall r (t + 5 + d) e) :
    r.state (t + 6 + d + e) = c.accessed w := by
  rw [show t + 6 + d + e = t + 5 + d + e + 1 by omega, r.edge,
    issued_at start here fetch word live mem.low e le_rfl, step_issued_ready w _ mem.high]

/-- The instruction retires seven cycles plus the two delays after its fetch began. -/
theorem retired_at (start : r.state t = c) (here : c.state = .fetch)
    (fetch : Stall r (t + 1) d) (word : (r.input (t + 2 + d)).rdata = w)
    (live : isEbreak w = false) (mem : Stall r (t + 5 + d) e) :
    r.state (t + 7 + d + e) = c.retired w (r.input (t + 6 + d + e)).rdata := by
  rw [show t + 7 + d + e = t + 6 + d + e + 1 by omega, r.edge,
    accessed_at start here fetch word live mem, step_accessed]

/-- Where the core is in the cycles of a retiring instruction. -/
theorem state_cases (start : r.state t = c) (here : c.state = .fetch)
    (fetch : Stall r (t + 1) d) (word : (r.input (t + 2 + d)).rdata = w)
    (live : isEbreak w = false) (mem : Stall r (t + 5 + d) e) {u : Nat}
    (after : t < u) (before : u < t + 7 + d + e) :
    (u ≤ t + 1 + d ∧ r.state u = c.fetching) ∨
    (u = t + 2 + d ∧ r.state u = c.fetched) ∨
    (u = t + 3 + d ∧ r.state u = c.latched w) ∨
    (u = t + 4 + d ∧ r.state u = c.executed w) ∨
    (t + 5 + d ≤ u ∧ u ≤ t + 5 + d + e ∧ r.state u = c.issued w) ∨
    (u = t + 6 + d + e ∧ r.state u = c.accessed w) := by
  rcases Nat.lt_or_ge u (t + 2 + d) with early | late
  · obtain ⟨k, rfl⟩ := Nat.exists_eq_add_of_le (show t + 1 ≤ u by omega)
    exact .inl ⟨by omega, fetching_at start here fetch.low k (by omega)⟩
  rcases Nat.lt_or_ge u (t + 5 + d) with middle | late
  · obtain rfl | rfl | rfl : u = t + 2 + d ∨ u = t + 3 + d ∨ u = t + 4 + d := by omega
    · exact .inr (.inl ⟨rfl, fetched_at start here fetch⟩)
    · exact .inr (.inr (.inl ⟨rfl, latched_at start here fetch word⟩))
    · exact .inr (.inr (.inr (.inl ⟨rfl, executed_at start here fetch word live⟩)))
  rcases Nat.lt_or_ge u (t + 6 + d + e) with waiting | last
  · obtain ⟨k, rfl⟩ := Nat.exists_eq_add_of_le late
    exact .inr (.inr (.inr (.inr (.inl ⟨by omega, by omega,
      issued_at start here fetch word live mem.low k (by omega)⟩))))
  · obtain rfl : u = t + 6 + d + e := by omega
    exact .inr (.inr (.inr (.inr (.inr ⟨rfl, accessed_at start here fetch word live mem⟩))))

/-- Where the core is after the first cycle of an `EBREAK`. -/
theorem stop_cases (start : r.state t = c) (here : c.state = .fetch)
    (fetch : Stall r (t + 1) d) (word : (r.input (t + 2 + d)).rdata = w)
    (stop : isEbreak w = true) {u : Nat} (after : t < u) :
    (u ≤ t + 1 + d ∧ r.state u = c.fetching) ∨
    (u = t + 2 + d ∧ r.state u = c.fetched) ∨
    (u = t + 3 + d ∧ r.state u = c.latched w) ∨
    (t + 4 + d ≤ u ∧ r.state u = c.parked w) := by
  rcases Nat.lt_or_ge u (t + 2 + d) with early | late
  · obtain ⟨k, rfl⟩ := Nat.exists_eq_add_of_le (show t + 1 ≤ u by omega)
    exact .inl ⟨by omega, fetching_at start here fetch.low k (by omega)⟩
  rcases Nat.lt_or_ge u (t + 4 + d) with middle | late
  · obtain rfl | rfl : u = t + 2 + d ∨ u = t + 3 + d := by omega
    · exact .inr (.inl ⟨rfl, fetched_at start here fetch⟩)
    · exact .inr (.inr (.inl ⟨rfl, latched_at start here fetch word⟩))
  · obtain ⟨k, rfl⟩ := Nat.exists_eq_add_of_le late
    exact .inr (.inr (.inr ⟨by omega, parked_at start here fetch word stop k⟩))

end Run

end Core

end AgilA32
