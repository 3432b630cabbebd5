import Mathlib.Tactic

/-!
# Fields of a word that is given as a number

An encoder packs fields into a number with shifts and disjunctions; a decoder takes them out of the
word as bit slices.  These lemmas carry one over to the other through plain arithmetic.
-/

namespace Verilog

/-- Disjunction with a number that fits below the other's lowest set bit is addition. -/
theorem or_eq_add {x y n : Nat} (multiple : x % 2 ^ n = 0) (fits : y < 2 ^ n) :
    x ||| y = x + y := by
  have shift : x = (x / 2 ^ n) <<< n := by
    rw [Nat.shiftLeft_eq, Nat.div_mul_cancel (Nat.dvd_of_mod_eq_zero multiple)]
  rw [shift]
  exact (Nat.shiftLeft_add_eq_or_of_lt fits _).symm

theorem extractLsb'_ofNat {w s l : Nat} (n : Nat) (within : s + l ≤ w) :
    (BitVec.ofNat w n).extractLsb' s l = BitVec.ofNat l (n / 2 ^ s) := by
  refine BitVec.eq_of_getLsbD_eq fun k before => ?_
  rw [BitVec.getLsbD_extractLsb', BitVec.getLsbD_ofNat, BitVec.getLsbD_ofNat, Nat.testBit_div_two_pow]
  simp [before, show s + k < w by omega, Nat.add_comm]

/-- The digit `v` of a number, with `h` above and `y` below it. -/
theorem digit {n h v y s l : Nat} (digits : n = (h * 2 ^ l + v) * 2 ^ s + y) (fits : v < 2 ^ l)
    (low : y < 2 ^ s) : n / 2 ^ s % 2 ^ l = v := by
  rw [digits, Nat.add_comm, Nat.add_mul_div_right _ _ (Nat.two_pow_pos s), Nat.div_eq_of_lt low,
    Nat.zero_add, Nat.add_comm, Nat.add_mul_mod_self_right, Nat.mod_eq_of_lt fits]

/-- A field of a word that is given digit by digit. -/
theorem field {w s l n v : Nat} (within : s + l ≤ w) (value : n / 2 ^ s % 2 ^ l = v) :
    (BitVec.ofNat w n).extractLsb' s l = BitVec.ofNat l v := by
  rw [extractLsb'_ofNat n within, ← value]
  exact BitVec.eq_of_toNat_eq (by simp)

/-- A field within a field is a field of the word. -/
theorem subfield {m s l n v o k : Nat} {w : BitVec m} (outer : w.extractLsb' s l = BitVec.ofNat l n)
    (within : o + k ≤ l) (value : n / 2 ^ o % 2 ^ k = v) :
    w.extractLsb' (s + o) k = BitVec.ofNat k v := by
  rw [← field within value, ← outer]
  refine BitVec.eq_of_getLsbD_eq fun i before => ?_
  simp [before, show o + i < l by omega, Nat.add_assoc]

theorem append_ofNat {m n : Nat} (hi : Nat) {lo : Nat} (fits : lo < 2 ^ n) :
    BitVec.ofNat m hi ++ BitVec.ofNat n lo = BitVec.ofNat (m + n) (hi * 2 ^ n + lo) := by
  apply BitVec.eq_of_toNat_eq
  rw [BitVec.toNat_append, BitVec.toNat_ofNat, BitVec.toNat_ofNat, BitVec.toNat_ofNat,
    Nat.mod_eq_of_lt fits, ← Nat.shiftLeft_add_eq_or_of_lt fits, Nat.shiftLeft_eq, Nat.pow_add,
    Nat.add_mod, Nat.mul_mod_mul_right]
  have bound : hi % 2 ^ m * 2 ^ n + lo < 2 ^ m * 2 ^ n := by
    have := Nat.mod_lt hi (Nat.two_pow_pos m)
    calc hi % 2 ^ m * 2 ^ n + lo < hi % 2 ^ m * 2 ^ n + 2 ^ n := by omega
      _ = (hi % 2 ^ m + 1) * 2 ^ n := by ring
      _ ≤ 2 ^ m * 2 ^ n := Nat.mul_le_mul_right _ this
  have low : lo % (2 ^ m * 2 ^ n) = lo :=
    Nat.mod_eq_of_lt (fits.trans_le (Nat.le_mul_of_pos_left _ (Nat.two_pow_pos m)))
  rw [low, Nat.mod_eq_of_lt bound]

/-- The low bits of an integer, as an encoder takes them. -/
theorem ofNat_emod (w : Nat) (i : Int) : BitVec.ofNat w (i % 2 ^ w).toNat = BitVec.ofInt w i := by
  apply BitVec.eq_of_toNat_eq
  rw [BitVec.toNat_ofNat, BitVec.toNat_ofInt, Nat.mod_eq_of_lt]
  · push_cast
    rfl
  · have pos : (0 : Int) < 2 ^ w := by positivity
    have := Int.emod_lt_of_pos i pos
    have := Int.emod_nonneg i pos.ne'
    zify
    rw [Int.toNat_of_nonneg this]
    omega

/-- Sign extension recovers an integer in the range of its field. -/
theorem signExtend_ofInt {w : Nat} (v : Nat) {i : Int} (above : -2 ^ w ≤ i) (below : i < 2 ^ w) :
    (BitVec.ofInt (w + 1) i).signExtend v = BitVec.ofInt v i := by
  rw [BitVec.signExtend, BitVec.toInt_ofInt_eq_self w.succ_pos above below]

end Verilog
