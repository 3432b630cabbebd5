import AgilA32.Mem.Access

/-!
# On-chip RAM as bytes

The word-organised RAM seen as the 48 bytes it stores: `ramByte`.  A store changes exactly the bytes
it names (`ramWrite_byte`) and a read returns them, lowest address first (`ramRead_byte`), including
half-words that straddle two words.
-/

namespace AgilA32

open Verilog (byteAt partSet)

theorem sizeBytes_cases (size : BitVec 2) :
    size = 0#2 ∧ sizeBytes size = 1 ∨ size = 1#2 ∧ sizeBytes size = 2 ∨
      (∀ (m : MemRegs) (addr : BitVec 8) (wdata : BitVec 32),
        m.ramWrite addr size wdata = m.setRamWord (ramWidx0 addr) wdata) ∧ sizeBytes size = 4 := by
  by_cases byte : size = 0#2
  · exact .inl ⟨byte, by rw [byte]; rfl⟩
  by_cases half : size = 1#2
  · exact .inr (.inl ⟨half, by rw [half]; rfl⟩)
  · exact .inr (.inr ⟨fun m addr wdata => by simp [MemRegs.ramWrite], by simp [sizeBytes]⟩)

/-- Word accesses are 4-byte aligned. -/
def Bus.Aligned (b : Bus) : Prop := sizeBytes b.size = 4 → b.addr.toNat % 4 = 0

instance (b : Bus) : Decidable b.Aligned :=
  inferInstanceAs (Decidable (sizeBytes b.size = 4 → b.addr.toNat % 4 = 0))

/-- An offset into RAM, `addr - RAM_BASE`. -/
def ramOffset (addr : BitVec 8) : Nat := addr.toNat - 176

namespace MemRegs

variable (m : MemRegs)

/-- Byte `i` of RAM, at address `RAM_BASE + i`. -/
def ramByte (i : Nat) : BitVec 8 := byteAt (m.ramWord 0 (BitVec.ofNat 4 (i / 4))) (i % 4)

theorem ramWidx0_toNat : ∀ addr : BitVec 8, inRamRange addr = true →
    (ramWidx0 addr).toNat = ramOffset addr / 4 ∧ (ramByteOff addr).toNat = ramOffset addr % 4 ∧
      (ramWidx1 addr).toNat = ramOffset addr / 4 + 1 ∧ ramOffset addr < 48 := by
  decide +kernel

theorem ramWord_setRamWord (i j : BitVec 4) (v undef : BitVec 32) (inside : i.toNat < 12) :
    (m.setRamWord i v).ramWord undef j = if j = i then v else m.ramWord undef j := by
  simp only [setRamWord, ramWord]
  by_cases same : j = i
  · subst same
    simp [inside]
  · have other : i.toNat ≠ j.toNat := fun h => same (BitVec.eq_of_toNat_eq h.symm)
    rw [if_neg same, Vector.getElem?_setIfInBounds_ne other]

theorem setRamWord_beyond (i : BitVec 4) (v : BitVec 32) (beyond : 12 ≤ i.toNat) :
    m.setRamWord i v = m := by
  have same : m.ramWords.setIfInBounds i.toNat v = m.ramWords := by
    apply Vector.ext
    intro j hj
    rw [Vector.getElem_setIfInBounds hj, if_neg (by omega)]
  simp [setRamWord, same]

/-- A byte after one word has been assigned. -/
theorem ramByte_setRamWord (i : BitVec 4) (v : BitVec 32) (inside : i.toNat < 12) {k : Nat}
    (within : k < 48) :
    (m.setRamWord i v).ramByte k = if k / 4 = i.toNat then byteAt v (k % 4) else m.ramByte k := by
  have here : BitVec.ofNat 4 (k / 4) = i ↔ k / 4 = i.toNat := by
    rw [← BitVec.toNat_inj, BitVec.toNat_ofNat]
    omega
  rw [ramByte, ramWord_setRamWord _ _ _ _ _ inside]
  by_cases same : k / 4 = i.toNat
  · rw [if_pos (here.mpr same), if_pos same]
  · rw [if_neg (mt here.mp same), if_neg same]
    rfl

/-- The byte of a word of RAM. -/
theorem byteAt_ramWord (i : BitVec 4) {j : Nat} (within : j < 4) :
    byteAt (m.ramWord 0 i) j = m.ramByte (4 * i.toNat + j) := by
  rw [ramByte, show (4 * i.toNat + j) / 4 = i.toNat by omega,
    show (4 * i.toNat + j) % 4 = j by omega, BitVec.ofNat_toNat, BitVec.setWidth_eq]

/-- A byte after a part of one word has been assigned. -/
theorem ramByte_partSet {n : Nat} (i : BitVec 4) (v : BitVec n) {o c : Nat} (width : n = 8 * c)
    (room : o + c ≤ 4) (inside : i.toNat < 12) {k : Nat} (within : k < 48) :
    (m.setRamWord i (partSet (m.ramWord 0 i) (8 * o) v)).ramByte k =
      if 4 * i.toNat + o ≤ k ∧ k < 4 * i.toNat + o + c then byteAt v (k - (4 * i.toNat + o))
      else m.ramByte k := by
  rw [ramByte_setRamWord _ _ _ inside within, Verilog.byteAt_partSet _ _ width (by omega)]
  by_cases same : k / 4 = i.toNat
  · rw [if_pos same, byteAt_ramWord _ _ (Nat.mod_lt _ (by decide)), ← same, Nat.div_add_mod]
    by_cases field : o ≤ k % 4 ∧ k % 4 < o + c
    · rw [if_pos field, if_pos (by omega)]
      congr 1
      omega
    · rw [if_neg field, if_neg (by omega)]
  · rw [if_neg same, if_neg (by omega)]

theorem byteAt_low (w : BitVec 32) {n : Nat} (j : Nat) (field : 8 * j + 8 ≤ n) :
    byteAt (w.extractLsb' 0 n) j = byteAt w j := by
  have := Verilog.byteAt_extractLsb' (n := n) w (o := 0) field
  rwa [Nat.mul_zero, Nat.zero_add] at this

/-- A half-word store at the last byte of a word; its second byte goes to the next word, which the
last word does not have. -/
theorem ramByte_straddle (i0 i1 : BitVec 4) (wdata : BitVec 32) (next : i1.toNat = i0.toNat + 1)
    (inside : i0.toNat < 12) {k : Nat} (within : k < 48) :
    ((m.setRamWord i0 (partSet (m.ramWord 0 i0) 24 (wdata.extractLsb' 0 8))).setRamWord i1
      (partSet (m.ramWord 0 i1) 0 (wdata.extractLsb' 8 8))).ramByte k =
      if 4 * i0.toNat + 3 ≤ k ∧ k < 4 * i0.toNat + 3 + 2 then
        byteAt wdata (k - (4 * i0.toNat + 3))
      else m.ramByte k := by
  have other : i1 ≠ i0 := by
    rw [ne_eq, ← BitVec.toNat_inj]
    omega
  have first := m.ramByte_partSet i0 (wdata.extractLsb' 0 8) (o := 3) (c := 1) rfl le_rfl inside
    within
  change (m.setRamWord i0 (partSet (m.ramWord 0 i0) 24 (wdata.extractLsb' 0 8))).ramByte k = _
    at first
  have old := (m.ramWord_setRamWord i0 i1 (partSet (m.ramWord 0 i0) 24 (wdata.extractLsb' 0 8)) 0
    inside).trans (if_neg other)
  generalize m.setRamWord i0 (partSet (m.ramWord 0 i0) 24 (wdata.extractLsb' 0 8)) = m'
    at first old ⊢
  rw [← old]
  rcases Nat.lt_or_ge i1.toNat 12 with room | beyond
  · have second := m'.ramByte_partSet i1 (wdata.extractLsb' 8 8) (o := 0) (c := 1) rfl (by omega)
      room within
    rw [second]
    by_cases high : k = 4 * i0.toNat + 4
    · rw [if_pos (by omega), if_pos (by omega), show k - (4 * i1.toNat + 0) = 0 by omega,
        show k - (4 * i0.toNat + 3) = 1 by omega]
      exact Verilog.byteAt_extractLsb' wdata (o := 1) (k := 0) (by omega)
    · rw [if_neg (by omega), first]
      by_cases low : k = 4 * i0.toNat + 3
      · rw [if_pos (by omega), if_pos (by omega), byteAt_low _ _ (by omega)]
      · rw [if_neg (by omega), if_neg (by omega)]
  · rw [setRamWord_beyond _ _ _ beyond, first]
    by_cases low : k = 4 * i0.toNat + 3
    · rw [if_pos (by omega), if_pos (by omega), byteAt_low _ _ (by omega)]
    · rw [if_neg (by omega), if_neg (by omega)]

/-- What a store leaves in RAM: its own bytes at its own addresses, and nothing else changed. -/
theorem ramWrite_byte {addr : BitVec 8} {size : BitVec 2} (wdata : BitVec 32)
    (inside : inRamRange addr = true)
    (aligned : sizeBytes size = 4 → ramOffset addr % 4 = 0) {k : Nat} (within : k < 48) :
    (m.ramWrite addr size wdata).ramByte k =
      if ramOffset addr ≤ k ∧ k < ramOffset addr + sizeBytes size then
        byteAt wdata (k - ramOffset addr)
      else m.ramByte k := by
  obtain ⟨i0, off, i1, bound⟩ := ramWidx0_toNat addr inside
  have first : 4 * (ramWidx0 addr).toNat + (ramByteOff addr).toNat = ramOffset addr := by omega
  have word : (ramWidx0 addr).toNat < 12 := by omega
  rcases sizeBytes_cases size with ⟨rfl, bytes⟩ | ⟨rfl, bytes⟩ | ⟨other, bytes⟩
  · change (m.setRamWord (ramWidx0 addr) (partSet (m.ramWord 0 (ramWidx0 addr))
      ((ramByteOff addr).toNat * 8) (wdata.extractLsb' 0 8))).ramByte k = _
    rw [Nat.mul_comm _ 8, m.ramByte_partSet _ _ (c := 1) rfl (by omega) word within, first, bytes]
    exact ite_congr rfl (fun field => byteAt_low _ _ (by omega)) fun _ => rfl
  · by_cases straddles : ramByteOff addr = 3#2
    · have three : (ramByteOff addr).toNat = 3 := by rw [straddles]; rfl
      have := m.ramByte_straddle (ramWidx0 addr) (ramWidx1 addr) wdata (by omega) word within
      rw [bytes, ← first, three, ← this]
      simp [ramWrite, straddles]
    · have room : (ramByteOff addr).toNat ≠ 3 := fun h => straddles (BitVec.eq_of_toNat_eq h)
      have := m.ramByte_partSet (ramWidx0 addr) (wdata.extractLsb' 0 16)
        (o := (ramByteOff addr).toNat) (c := 2) rfl (by omega) word within
      rw [first, Nat.mul_comm 8] at this
      rw [bytes, show m.ramWrite addr 1#2 wdata = m.setRamWord (ramWidx0 addr) (partSet
        (m.ramWord 0 (ramWidx0 addr)) ((ramByteOff addr).toNat * 8) (wdata.extractLsb' 0 16)) by
          simp [ramWrite, straddles], this]
      exact ite_congr rfl (fun field => byteAt_low _ _ (by omega)) fun _ => rfl
  · have start := aligned bytes
    rw [other, ramByte_setRamWord _ _ _ word within, bytes]
    by_cases same : k / 4 = (ramWidx0 addr).toNat
    · rw [if_pos same, if_pos (by omega)]
      exact congrArg (byteAt wdata) (by omega)
    · rw [if_neg same, if_neg (by omega)]

/-- A read returns the bytes at its own addresses, as far as they lie in RAM. -/
theorem ramRead_byte {addr : BitVec 8} (undef : BitVec 32) (inside : inRamRange addr = true)
    {j : Nat} (within : j < 4) (inRam : ramOffset addr + j < 48) :
    byteAt (m.ramRead undef addr) j = m.ramByte (ramOffset addr + j) := by
  obtain ⟨i0, off, i1, bound⟩ := ramWidx0_toNat addr inside
  have defined (i : BitVec 4) (small : i.toNat < 12) : m.ramWord undef i = m.ramWord 0 i := by
    simp [ramWord, small]
  rw [ramRead, Nat.mul_comm _ 8, Verilog.byteAt_extractLsb' _ (by omega),
    Verilog.byteAt_append _ _ (c := 4) rfl]
  by_cases first : (ramByteOff addr).toNat + j < 4
  · rw [if_pos first, defined _ (by omega), byteAt_ramWord _ _ first]
    exact congrArg m.ramByte (by omega)
  · rw [if_neg first, defined _ (by omega), byteAt_ramWord _ _ (by omega)]
    exact congrArg m.ramByte (by omega)

/-! ## The write path -/

section Write

variable {m : MemRegs} {b : Bus}

theorem ramByte_congr {m' : MemRegs} (same : m'.ramWords = m.ramWords) (k : Nat) :
    m'.ramByte k = m.ramByte k := by
  unfold ramByte ramWord
  rw [same]

/-- Which RAM bytes the write path changes, if any. -/
theorem write_byte (aligned : m.inRam b.addr = true → b.Aligned) {k : Nat} (within : k < 48) :
    (m.write b).ramByte k =
      if m.inRam b.addr = true ∧ ramOffset b.addr ≤ k ∧ k < ramOffset b.addr + sizeBytes b.size then
        byteAt b.wdata (k - ramOffset b.addr)
      else m.ramByte k := by
  by_cases ram : m.inRam b.addr = true
  · have bounds := inRam_iff.mp ram
    have inside : inRamRange b.addr = true := inRamRange_iff.mpr ⟨bounds.1, bounds.2.1⟩
    have write : m.write b = m.ramWrite b.addr b.size b.wdata := if_pos ram
    rw [write, m.ramWrite_byte b.wdata inside
      (fun four => by have := aligned ram four; unfold ramOffset; omega) within]
    simp [ram]
  · have elsewhere : (m.write b).ramWords = m.ramWords := by
      unfold MemRegs.write
      split
      case isTrue inside => exact absurd inside ram
      case isFalse => split_ifs <;> rfl
    rw [ramByte_congr elsewhere, if_neg (fun h => ram h.1)]

/-- A store to RAM changes nothing else. -/
theorem write_ram (ram : m.inRam b.addr = true) : ∃ ws, m.write b = { m with ramWords := ws } := by
  have write : m.write b = m.ramWrite b.addr b.size b.wdata := if_pos ram
  rw [write]
  rcases sizeBytes_cases b.size with ⟨size, -⟩ | ⟨size, -⟩ | ⟨other, -⟩
  · rw [size]
    exact ⟨_, rfl⟩
  · rw [size]
    by_cases straddles : ramByteOff b.addr = 3#2
    · exact ⟨_, if_pos straddles⟩
    · exact ⟨_, if_neg straddles⟩
  · rw [other]
    exact ⟨_, rfl⟩

/-- The registers of the write path, each written at its own address. -/
theorem write_eq (m : MemRegs) (b : Bus) : m.write b =
    { ramWords := (m.write b).ramWords
      gpioOut := if b.addr = 0xF0#8 then b.wdata.extractLsb' 0 8 else m.gpioOut
      flashMode := if b.addr = 0xF8#8 then true else m.flashMode
      flashPage := if b.addr = 0xFC#8 then b.wdata.extractLsb' 0 8 else m.flashPage
      psramBank := if b.addr = 0xF1#8 then b.wdata.getLsbD 0 else m.psramBank
      qspiDivSel := if b.addr = 0xFB#8 then b.wdata.extractLsb' 0 2 else m.qspiDivSel
      spiLastRx := m.spiLastRx } := by
  by_cases ram : m.inRam b.addr = true
  · obtain ⟨ws, write⟩ := write_ram ram
    have other (a : BitVec 8) (high : 224 ≤ a.toNat) : b.addr ≠ a := by
      rintro rfl
      have := (inRam_iff.mp ram).2.1
      omega
    rw [if_neg (other _ (by decide)), if_neg (other _ (by decide)), if_neg (other _ (by decide)),
      if_neg (other _ (by decide)), if_neg (other _ (by decide)), write]
  · have skip : m.write b = if b.addr = 0xF0#8 then { m with gpioOut := b.wdata.extractLsb' 0 8 }
        else if b.addr = 0xF1#8 then { m with psramBank := b.wdata.getLsbD 0 }
        else if b.addr = 0xF8#8 then { m with flashMode := true }
        else if b.addr = 0xFB#8 then { m with qspiDivSel := b.wdata.extractLsb' 0 2 }
        else if b.addr = 0xFC#8 then { m with flashPage := b.wdata.extractLsb' 0 8 }
        else m := if_neg ram
    rw [skip]
    by_cases led : b.addr = 0xF0#8
    · simp [led]
    by_cases bank : b.addr = 0xF1#8
    · simp [bank]
    by_cases mode : b.addr = 0xF8#8
    · simp [mode]
    by_cases div : b.addr = 0xFB#8
    · simp [div]
    by_cases page : b.addr = 0xFC#8
    · simp [page]
    simp [led, bank, mode, div, page]

end Write

/-- `FLASH_MODE` is never cleared by a write. -/
theorem step_flashMode {m : MemRegs} {b : Bus} (flash : m.flashMode = true) (ready : Bool)
    (rx : BitVec 32) :
    (m.step b ready rx).flashMode = true := by
  have write : (m.write b).flashMode = true := by
    rw [m.write_eq b]
    exact (ite_eq_left_iff.mpr fun _ => flash)
  unfold step
  dsimp only
  split_ifs <;> assumption

/-- A committed access, field by field. -/
theorem commit_eq (m : MemRegs) (b : Bus) (rx : BitVec 32) (store : b.we = true) : m.commit b rx =
    { m.write b with
      spiLastRx := if b.addr = 0xFD#8 then rx.extractLsb' 0 8 else m.spiLastRx } := by
  have kept : (m.write b).spiLastRx = m.spiLastRx := by rw [m.write_eq b]
  rw [commit, step, if_pos store, inSpiWrite, store, Bool.and_true, Bool.true_and]
  by_cases spi : b.addr = 0xFD#8
  · rw [if_pos (by rw [spi]; rfl), if_pos spi]
  · rw [if_neg (by simpa using spi), if_neg spi, ← kept]

/-- A committed store to `FLASH_PAGE` sets the page, and no other access does. -/
theorem commit_flashPage (m : MemRegs) (b : Bus) (rx : BitVec 32) :
    (m.commit b rx).flashPage =
      if b.we = true ∧ b.addr = 0xFC#8 then b.wdata.extractLsb' 0 8 else m.flashPage := by
  by_cases store : b.we = true
  · rw [commit_eq m b rx store, m.write_eq b]
    simp only [store, true_and]
  · rw [if_neg (fun set => store set.1), commit_read (by simpa using store)]

end MemRegs

end AgilA32
