import AgilA32.Boot.Receive
import AgilA32.Mem.Ram

/-!
# Loading a program

The host raises START in the listen loop and sends a length byte and that many payload bytes
(`Host`).  The byte loop stores the payload from `0xB4` on (`load`).  Up to 44 bytes go to on-chip RAM,
and then the program is entered (`load_fits_within`); nothing checks the length, so a 45th byte is stored past
the RAM, in the PSRAM window (`load_overflows`).
-/

namespace AgilA32

namespace Boot

open Clocked (msbFirst spell)
open AgilA32.Core (readReg writeReg)
open AgilA32.Top (Arch At Boundary accepts stored)
open Verilog (byteAt)

/-- The bits of a message, most significant first. -/
def wireBit (message : List (BitVec 8)) (k : Nat) : Bool :=
  msbFirst (message.getD (k / 8) 0) (k % 8)

theorem spell_wireBit (message : List (BitVec 8)) (i : Nat) :
    spell (wireBit message) (8 * i) = message.getD i 0 := by
  rw [Clocked.spell_eq_iff]
  intro j within
  rw [wireBit, show (8 * i + j) / 8 = i by omega, show (8 * i + j) % 8 = j by omega]

/-- What the host sends for a program: its length, then its bytes. -/
def frame (payload : List (BitVec 8)) : List (BitVec 8) :=
  BitVec.ofNat 8 payload.length :: payload

/-- A host that talks to the listen loop entered in cycle `t₀`: it raises START in cycle `low 0`,
before the 512th poll, holds it until a poll has seen it, and sends the program. -/
structure Host (r : Clocked.Run Top.step) (t₀ : Nat) (low rise : Nat → Nat)
    (payload : List (BitVec 8)) : Prop where
  after : t₀ ≤ low 0
  early : (r.observe polled 0 (low 0)).length < 512
  unseen : ∀ u, u < low 0 → polled (r.state u) (r.input u) ≠ some true
  held : ∀ u, low 0 ≤ u →
    (∀ v, low 0 ≤ v → v < u → polled (r.state v) (r.input v) ≠ some true) →
      (r.input u).uiIn.getLsbD 2 = true
  sends : Sends r low rise (wireBit (frame payload)) (8 * (frame payload).length)

/-! ## The poll that sees START -/

section Start

variable {r : Clocked.Run Top.step} {t₀ : Nat} {x : RegFile} {m : MemRegs} {σ : Settings}
  {log : Log} {fail : Bool} {low rise : Nat → Nat} {payload : List (BitVec 8)}

/-- The first poll after START has been raised comes within 63 cycles and sees it. -/
theorem start_seen (s : Leads r 0 t₀ ⟨romAddr 6, x, m, σ⟩ log) (fresh : log.polls = [])
    (verdict : readReg x 8 = if fail then 0x80 else 0) (host : Host r t₀ low rise payload) :
    ∃ k, k < 512 ∧ (∀ j, j < k → start r t₀ j = false) ∧ start r t₀ k = true ∧
      low 0 ≤ pollCycle t₀ k + 6 ∧ pollCycle t₀ k + 6 < low 0 + 63 := by
  have exists_later : ∃ k, low 0 ≤ pollCycle t₀ k + 6 := ⟨low 0, by unfold pollCycle; omega⟩
  classical
  obtain ⟨k, late, least⟩ : ∃ k, low 0 ≤ pollCycle t₀ k + 6 ∧
      ∀ j, j < k → pollCycle t₀ j + 6 < low 0 :=
    ⟨Nat.find exists_later, Nat.find_spec exists_later, fun j before => by
      simpa using Nat.find_min exists_later before⟩
  have quiet (j : Nat) (before : j < k) (small : j < 512) : start r t₀ j = false := by
    induction j using Nat.strongRecOn with
    | ind j ih =>
        have seen := (poll_reached s fresh verdict small
          fun i earlier => ih i earlier (by omega) (by omega)).1
        cases h : start r t₀ j
        · rfl
        · rw [h] at seen
          exact absurd seen (host.unseen _ (least j before))
  have small : k < 512 := by
    by_contra beyond
    obtain ⟨seen, observed, -, -⟩ := poll_reached s fresh verdict (k := 511) (by decide)
      fun j before => quiet j (by omega) (by omega)
    have last := least 511 (by omega)
    have cut := r.observe_cut polled (Nat.zero_le (pollCycle t₀ 511 + 6)) last.le
    rw [Nat.sub_zero, observed, show low 0 - (pollCycle t₀ 511 + 6) =
      low 0 - (pollCycle t₀ 511 + 6) - 1 + 1 by omega, r.observe_succ, seen] at cut
    have early := host.early
    rw [cut, List.length_append, List.length_replicate, Option.toList_some, List.length_append,
      List.length_singleton] at early
    omega
  obtain ⟨seen, observed, -, -⟩ := poll_reached s fresh verdict small
    fun j before => quiet j before (by omega)
  refine ⟨k, small, fun j before => quiet j before (by omega), ?_, late, ?_⟩
  · refine host.held _ late fun v _ before high => ?_
    have hit := (r.mem_observe polled (a := 0) (n := pollCycle t₀ k + 6 - 0)).mpr
      ⟨v, Nat.zero_le v, by omega, high⟩
    rw [observed] at hit
    cases List.eq_of_mem_replicate hit
  · rcases Nat.eq_zero_or_pos k with rfl | pos
    · have := host.after
      unfold pollCycle
      omega
    · have := least (k - 1) (by omega)
      unfold pollCycle at *
      omega

end Start

/-! ## The stores of the byte loop -/

/-- The bootloader's store of payload byte `i`. -/
def loadStore (payload : List (BitVec 8)) (i : Nat) : Bus :=
  { addr := BitVec.ofNat 8 (180 + i), wdata := (payload.getD i 0).setWidth 32, size := 0
    we := true, valid := true }

/-- The memory once the first `i` bytes are in RAM. -/
structure Loaded (m : MemRegs) (payload : List (BitVec 8)) (i : Nat) (m' : MemRegs) : Prop where
  bytes : ∀ k, k < 48 →
    m'.ramByte k = if 4 ≤ k ∧ k < 4 + i then payload.getD (k - 4) 0 else m.ramByte k
  others : ∃ ws, m' = { m with ramWords := ws }

section Store

variable {m m' : MemRegs} {payload : List (BitVec 8)} {i : Nat}

theorem loadStore_addr (small : i < 76) : (loadStore payload i).addr.toNat = 180 + i := by
  rw [loadStore, BitVec.toNat_ofNat]
  omega

theorem loadStore_settings {σ : Settings} (small : i < 60) :
    σ.write (loadStore payload i) = σ := by
  have addr : (loadStore payload i).addr.toNat = 180 + i := loadStore_addr (by omega)
  have other (a : BitVec 8) (high : 240 ≤ a.toNat) : (loadStore payload i).addr ≠ a := by
    rintro rfl
    omega
  exact Settings.write_other (other _ (by decide)) (other _ (by decide)) (other _ (by decide))
    (other _ (by decide))

theorem Loaded.zero (m : MemRegs) (payload : List (BitVec 8)) : Loaded m payload 0 m :=
  ⟨fun k _ => by rw [if_neg (by omega)], ⟨m.ramWords, rfl⟩⟩

/-- The store of a byte that fits. -/
theorem Loaded.write (fits : i < 44) (ram : m.flashMode = false) (here : Loaded m payload i m') :
    m'.inExt (loadStore payload i) = false ∧
      Loaded m payload (i + 1) (m'.write (loadStore payload i)) := by
  obtain ⟨ws, rfl⟩ := here.others
  have addr : (loadStore payload i).addr.toNat = 180 + i := loadStore_addr (by omega)
  have inside : ({ m with ramWords := ws } : MemRegs).inRam (loadStore payload i).addr = true :=
    MemRegs.inRam_iff.mpr ⟨by omega, by omega, fun h => by rw [ram] at h; cases h⟩
  constructor
  · rw [Bool.eq_false_iff, ne_eq, MemRegs.inExt_iff]
    rintro ⟨w, h⟩
    cases w
    · rw [InWindow, ram] at h
      cases h.1
    · have := h.1
      omega
    · have := h.1
      omega
  · constructor
    · intro k within
      have first : ramOffset (loadStore payload i).addr = 4 + i := by unfold ramOffset; omega
      rw [MemRegs.write_byte (fun _ four => by cases four) within, first, here.bytes k within]
      by_cases this : k = 4 + i
      · rw [if_pos ⟨inside, by omega, by rw [this]; exact Nat.lt_succ_self _⟩, if_pos (by omega),
          this, Nat.sub_self, Nat.add_sub_cancel_left, loadStore,
          Verilog.byteAt_setWidth _ (by decide), Verilog.byteAt_byte]
      · have one : sizeBytes (loadStore payload i).size = 1 := rfl
        rw [if_neg (by omega)]
        by_cases earlier : 4 ≤ k ∧ k < 4 + i
        · rw [if_pos earlier, if_pos (by omega)]
        · rw [if_neg earlier, if_neg (by omega)]
    · obtain ⟨ws', write⟩ := MemRegs.write_ram inside
      exact ⟨ws', write⟩

end Store

/-! ## The byte loop -/

section Loop

variable {r : Clocked.Run Top.step} {t t' c : Nat} {x : RegFile} {m m' : MemRegs} {σ : Settings}
  {log : Log} {low rise : Nat → Nat} {payload : List (BitVec 8)} {i : Nat}

/-- The loop's registers before payload byte `i`: what is still to come, and where it goes. -/
structure Counting (x : RegFile) (n i : Nat) : Prop where
  left : readReg x 4 = BitVec.ofNat 32 (n - i)
  pointer : readReg x 5 = BitVec.ofNat 32 (180 + i)

/-- `COUNT` is zero, and the loop is left, exactly when all bytes are in. -/
theorem finished {n : Nat} (bound : n < 256) :
    Rv32i.BranchOp.beq.taken (BitVec.ofNat 32 (n - i)) 0#32 = decide (n ≤ i) := by
  rw [Rv32i.BranchOp.taken, Bool.eq_iff_iff, beq_iff_eq, decide_eq_true_iff, ← BitVec.toNat_inj,
    BitVec.toNat_ofNat]
  simp
  omega

/-- What the loop's store puts on the bus. -/
theorem storeBus_loadStore (here : Counting x payload.length i)
    (byte : readReg x 6 = (payload.getD i 0).setWidth 32) :
    storeBus x .sb 5 6 0 = loadStore payload i := by
  have addr : (readReg x 5 + 0#32).setWidth 8 = BitVec.ofNat 8 (180 + i) := by
    rw [here.pointer, BitVec.add_zero]
    apply BitVec.eq_of_toNat_eq
    simp
  rw [storeBus, byte]
  exact congrArg (fun a => Bus.mk a _ _ _ _) addr

/-- The loop stores payload byte `i`, which fits, and goes on. -/
theorem storePayload (more : i < payload.length) (fits : i < 44) (ram : m.flashMode = false)
    (s : Leads r t t' ⟨romAddr 23, x, m', σ⟩ log) (here : Counting x payload.length i)
    (byte : readReg x 6 = (payload.getD i 0).setWidth 32) (loaded : Loaded m payload i m') :
    ∃ x', Leads r t (t' + 28) ⟨romAddr 21, x', m'.write (loadStore payload i), σ⟩
        (log ++ { polls := [], accepted := [], stores := [loadStore payload i] }) ∧
      Counting x' payload.length (i + 1) := by
  have s₁ := s.store 23 rfl rfl rfl (storeBus_loadStore here byte)
    (loaded.write fits ram).1
  rw [loadStore_settings (by omega)] at s₁
  have next : BitVec.ofNat 32 (180 + i) + 1 = BitVec.ofNat 32 (180 + (i + 1)) := by
    rw [← Nat.add_assoc, BitVec.ofNat_add (180 + i)]
    rfl
  have s₂ : Leads r t (t' + 14) ⟨romAddr 25, writeReg x 5 (BitVec.ofNat 32 (180 + (i + 1))), _, σ⟩
      _ :=
    s₁.plain 24 rfl rfl (by simp) rfl (fun _ => rfl) fun _ => by
      change writeReg x 5 (readReg x 5 + 1) = _
      rw [here.pointer, next]
  generalize hx : writeReg x 5 (BitVec.ofNat 32 (180 + (i + 1))) = x₁ at s₂
  have counted : readReg x₁ 4 = BitVec.ofNat 32 (payload.length - i) := by
    rw [← here.left, ← hx]; simp
  have less : BitVec.ofNat 32 (payload.length - i) + -1 =
      BitVec.ofNat 32 (payload.length - (i + 1)) := by
    rw [show payload.length - i = payload.length - (i + 1) + 1 by omega, BitVec.ofNat_add,
      BitVec.add_assoc]
    exact BitVec.add_zero _
  have s₃ : Leads r t (t' + 21)
      ⟨romAddr 26, writeReg x₁ 4 (BitVec.ofNat 32 (payload.length - (i + 1))), _, σ⟩ _ :=
    s₂.plain 25 rfl rfl (by simp) rfl (fun _ => rfl) fun _ => by
      change writeReg x₁ 4 (readReg x₁ 4 + -1) = _
      rw [counted, less]
  refine ⟨writeReg x₁ 4 (BitVec.ofNat 32 (payload.length - (i + 1))),
    s₃.plain 26 rfl rfl (by simp) rfl
    (fun _ => (by decide : ((romAddr 26).setWidth 32 + -0x14).setWidth 8 = romAddr 21))
    (fun _ => rfl), ?_, ?_⟩
  · simp
  · rw [← hx]; simp

variable (host : Sends r low rise (wireBit (frame payload)) (8 * (frame payload).length))
  (bound : payload.length < 256)
include host bound

/-- The loop receives payload byte `i` and is about to store it.  The message byte before it was
complete at the poll in cycle `c`. -/
theorem recvPayload (more : i < payload.length)
    (s : Leads r t t' ⟨romAddr 21, x, m, σ⟩ log) (here : Counting x payload.length i)
    (reached : low (8 * (i + 1)) ≤ c) (soon : c < low (8 * (i + 1)) + 21) (after : c ≤ t')
    (before : t' ≤ c + 71) :
    ∃ c' x', low (8 * (i + 2)) ≤ c' ∧ c' < low (8 * (i + 2)) + 21 ∧
      Leads r t (c' + 43) ⟨romAddr 23, x', m, σ⟩ log ∧ Counting x' payload.length i ∧
      readReg x' 6 = (payload.getD i 0).setWidth 32 := by
  have total : (frame payload).length = payload.length + 1 := rfl
  have s1 : Leads r t (t' + 7) ⟨romAddr 22, x, m, σ⟩ log :=
    s.branch 21 false rfl rfl (by
      rw [here.left]
      exact (finished bound).trans (decide_eq_false (by omega))) rfl
  have s2 : Leads r t (t' + 14) ⟨romAddr 28, writeReg x 1 0x5C, m, σ⟩ log :=
    s1.plain 22 rfl rfl (by simp) rfl (fun _ => rfl) (fun _ => rfl)
  have next := host.low_long (8 * (i + 1)) (by omega)
  obtain ⟨c', x', reached', soon', s3, byte, others⟩ := recvByte host (k := 8 * (i + 1))
    (p := romAddr 23) (by omega) s2 (by simp; rfl) (by omega) (by omega)
  refine ⟨c', x', reached', soon', s3, ⟨?_, ?_⟩, ?_⟩
  · rw [others 4 (by decide) (by decide) (by decide) (by decide), ← here.left]
    simp
  · rw [others 5 (by decide) (by decide) (by decide) (by decide), ← here.pointer]
    simp
  · rw [byte, spell_wireBit]
    rfl

/-- The payload's first `i` bytes, received and stored. -/
theorem load (ram : m.flashMode = false)
    (s : Leads r t t' ⟨romAddr 21, x, m, σ⟩ log) (here : Counting x payload.length 0)
    (reached : low 8 ≤ c) (soon : c < low 8 + 21) (after : c ≤ t') (before : t' ≤ c + 71)
    (upto : i ≤ payload.length) (fits : i ≤ 44) :
    ∃ c' t'' x' m', low (8 * (i + 1)) ≤ c' ∧ c' < low (8 * (i + 1)) + 21 ∧ c' ≤ t'' ∧
      t'' ≤ c' + 71 ∧
      Leads r t t'' ⟨romAddr 21, x', m', σ⟩
        (log ++ { polls := [], accepted := [], stores := (List.range i).map (loadStore payload) }) ∧
      Counting x' payload.length i ∧ Loaded m payload i m' := by
  induction i with
  | zero =>
      refine ⟨c, t', x, m, reached, soon, after, before, ?_, here, .zero m payload⟩
      exact (Log.append_empty log).symm ▸ s
  | succ i ih =>
      obtain ⟨c₁, t₁, x₁, m₁, reached₁, soon₁, after₁, before₁, s₁, here₁, loaded⟩ :=
        ih (by omega) (by omega)
      obtain ⟨c₂, x₂, reached₂, soon₂, s₂, here₂, byte⟩ :=
        recvPayload host bound (by omega) s₁ here₁ reached₁ soon₁ after₁ before₁
      obtain ⟨x₃, s₃, here₃⟩ :=
        storePayload (by omega) (by omega) ram s₂ here₂ byte loaded
      refine ⟨c₂, c₂ + 71, x₃, _, reached₂, soon₂, by omega, le_rfl, ?_, here₃,
        (loaded.write (by omega) ram).2⟩
      rw [List.range_succ, List.map_append]
      rw [Log.append_assoc] at s₃
      exact s₃

/-- From `START_SEEN` to the byte loop: the length byte. -/
theorem recvLength (s : Leads r t t' ⟨romAddr 18, x, m, σ⟩ log) (after : low 0 ≤ t')
    (before : t' < low 0 + 78) :
    ∃ c x', low 8 ≤ c ∧ c < low 8 + 21 ∧ Leads r t (c + 57) ⟨romAddr 21, x', m, σ⟩ log ∧
      Counting x' payload.length 0 := by
  have total : (frame payload).length = payload.length + 1 := rfl
  have s₁ : Leads r t (t' + 7) ⟨romAddr 28, writeReg x 1 0x4C, m, σ⟩ log :=
    s.plain 18 rfl rfl (by simp) rfl (fun _ => rfl) (fun _ => rfl)
  have next := host.low_long 0 (by omega)
  obtain ⟨c, x₁, reached, soon, s₂, byte, -⟩ := recvByte host (k := 0) (p := romAddr 19)
    (by omega) s₁ (by simp; rfl) (by omega) (by omega)
  have length : readReg x₁ 6 = BitVec.ofNat 32 (payload.length - 0) := by
    rw [byte, show 0 = 8 * 0 from rfl, spell_wireBit]
    apply BitVec.eq_of_toNat_eq
    simp [frame]
    omega
  have s₃ : Leads r t (c + 50)
      ⟨romAddr 20, writeReg x₁ 4 (BitVec.ofNat 32 (payload.length - 0)), m, σ⟩ log :=
    s₂.plain 19 rfl rfl (by simp) rfl (fun _ => rfl) fun _ => by
      change writeReg x₁ 4 (readReg x₁ 6 + 0) = _
      rw [length]
      exact congrArg (writeReg x₁ 4) (BitVec.add_zero _)
  have s₄ : Leads r t (c + 57)
      ⟨romAddr 21, writeReg (writeReg x₁ 4 (BitVec.ofNat 32 (payload.length - 0))) 5 0xB4, m, σ⟩
      log :=
    s₃.plain 20 rfl rfl (by simp) rfl (fun _ => rfl) (fun _ => rfl)
  exact ⟨c, _, reached, soon, s₄, by simp, by simp⟩

/-- A program that fits is loaded, and entered soon after its last bit. -/
theorem load_fits_within (fits : payload.length ≤ 44) (ram : m.flashMode = false)
    (s : Leads r t t' ⟨romAddr 18, x, m, σ⟩ log) (after : low 0 ≤ t') (before : t' < low 0 + 78) :
    ∃ T x' m', T ≤ low (8 * (payload.length + 1)) + 106 ∧ Leads r t T ⟨0xB4, x', m', σ⟩
        (log ++ { polls := [], accepted := []
                  stores := (List.range payload.length).map (loadStore payload) }) ∧
      Loaded m payload payload.length m' := by
  obtain ⟨c, x₁, reached, soon, s₁, here⟩ := recvLength host bound s after before
  obtain ⟨c₂, t₂, x₂, m₂, -, soon₂, -, before₂, s₂, here₂, loaded⟩ :=
    load host bound ram s₁ here reached soon (by omega) (by omega) le_rfl fits
  have s₃ : Leads r t (t₂ + 7) ⟨romAddr 27, x₂, m₂, σ⟩ _ :=
    s₂.branch 21 true rfl rfl (by
      rw [here₂.left]
      exact (finished bound).trans (decide_eq_true le_rfl)) rfl
  exact ⟨t₂ + 14, x₂, m₂, by omega,
    s₃.plain 27 rfl rfl (by simp) rfl (fun _ => rfl) (fun _ => rfl), loaded⟩

/-- The 45th byte of a program is written to PSRAM. -/
theorem load_overflows (long : 44 < payload.length) (ram : m.flashMode = false)
    (s : Leads r t t' ⟨romAddr 18, x, m, σ⟩ log) (after : low 0 ≤ t') (before : t' < low 0 + 78) :
    ∃ T a q log', Leads r t T a log' ∧ q ∈ log'.accepted ∧ q.we = true ∧
      (q.dev = 2#2 ∨ q.dev = 3#2) := by
  obtain ⟨c, x₁, reached, soon, s₁, here⟩ := recvLength host bound s after before
  obtain ⟨c₂, t₂, x₂, m₂, reached₂, soon₂, after₂, before₂, s₂, here₂, loaded⟩ :=
    load host bound ram s₁ here reached soon (by omega) (by omega) long.le le_rfl
  obtain ⟨c₃, x₃, -, -, s₃, here₃, byte⟩ :=
    recvPayload host bound long s₂ here₂ reached₂ soon₂ after₂ before₂
  have s₄ := s₃.storePsram 23 rfl rfl rfl (storeBus_loadStore here₃ byte) rfl
  have carries := MemRegs.request_carries (m := m₂) (b := loadStore payload 44) (w := .psram)
    (by rw [InWindow, loadStore_addr (by decide)]; decide)
  refine ⟨_, _, m₂.request (loadStore payload 44), _, s₄, by simp, carries.2.2.1, ?_⟩
  rw [carries.1]
  split
  exacts [.inr rfl, .inl rfl]

end Loop

end Boot

end AgilA32
