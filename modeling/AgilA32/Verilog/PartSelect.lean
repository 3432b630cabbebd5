import Mathlib.Tactic

/-!
# Part-selects and bytes

Verilog's indexed part-select assignment on bit vectors, and the bytes of a word: how `byteAt` reads
through an assignment, a part-select and a concatenation on byte boundaries.
-/

namespace Verilog

variable {m n : Nat}

/-- The indexed part-select assignment `w[off +: n] <= v`. -/
def partSet (w : BitVec m) (off : Nat) (v : BitVec n) : BitVec m :=
  (w &&& ~~~((BitVec.allOnes n).setWidth m <<< off)) ||| (v.setWidth m <<< off)

theorem getLsbD_partSet (w : BitVec m) (off : Nat) (v : BitVec n) {k : Nat} (within : k < m) :
    (partSet w off v).getLsbD k =
      if off ≤ k ∧ k < off + n then v.getLsbD (k - off) else w.getLsbD k := by
  simp only [partSet, BitVec.getLsbD_or, BitVec.getLsbD_and, BitVec.getLsbD_not,
    BitVec.getLsbD_shiftLeft, BitVec.getLsbD_setWidth, BitVec.getLsbD_allOnes, within]
  rcases Nat.lt_or_ge k off with below | above
  · rw [if_neg (by omega)]
    simp [below]
  · rcases Nat.lt_or_ge k (off + n) with inside | beyond
    · rw [if_pos ⟨above, inside⟩]
      have inField : k - off < n := by omega
      have inWord : k - off < m := by omega
      have past : ¬ k < off := by omega
      simp [inField, inWord, past]
    · rw [if_neg (by omega)]
      have outside : ¬ k - off < n := by omega
      simp [outside, BitVec.getLsbD_of_ge v (k - off) (by omega)]

/-- Byte `k` of a word, counted from the least significant. -/
def byteAt (w : BitVec m) (k : Nat) : BitVec 8 := w.extractLsb' (8 * k) 8

theorem getLsbD_byteAt (w : BitVec m) (k : Nat) {i : Nat} (within : i < 8) :
    (byteAt w k).getLsbD i = w.getLsbD (8 * k + i) := by
  simp [byteAt, within]

/-- A word is determined by its bytes. -/
theorem eq_of_byteAt {x y : BitVec m} {c : Nat} (width : m = 8 * c)
    (bytes : ∀ k, k < c → byteAt x k = byteAt y k) : x = y := by
  refine BitVec.eq_of_getLsbD_eq fun i within => ?_
  have here := congrArg (·.getLsbD (i % 8)) (bytes (i / 8) (by omega))
  simp only [getLsbD_byteAt _ _ (Nat.mod_lt i (by decide))] at here
  rwa [Nat.div_add_mod] at here

theorem byteAt_partSet (w : BitVec m) (v : BitVec n) {o c k : Nat} (width : n = 8 * c)
    (within : 8 * k + 8 ≤ m) :
    byteAt (partSet w (8 * o) v) k =
      if o ≤ k ∧ k < o + c then byteAt v (k - o) else byteAt w k := by
  refine BitVec.eq_of_getLsbD_eq fun i hi => ?_
  rw [getLsbD_byteAt _ _ hi, getLsbD_partSet _ _ _ (by omega)]
  by_cases inside : o ≤ k ∧ k < o + c
  · rw [if_pos (by omega), if_pos inside, getLsbD_byteAt _ _ hi]
    congr 1
    omega
  · rw [if_neg (by omega), if_neg inside, getLsbD_byteAt _ _ hi]

theorem byteAt_extractLsb' (w : BitVec m) {o k : Nat} (within : 8 * k + 8 ≤ n) :
    byteAt (w.extractLsb' (8 * o) n) k = byteAt w (o + k) := by
  refine BitVec.eq_of_getLsbD_eq fun i hi => ?_
  rw [getLsbD_byteAt _ _ hi, getLsbD_byteAt _ _ hi, BitVec.getLsbD_extractLsb',
    show 8 * o + (8 * k + i) = 8 * (o + k) + i by omega]
  simp
  omega

theorem byteAt_append (x : BitVec n) (y : BitVec m) {c k : Nat} (width : m = 8 * c) :
    byteAt (x ++ y) k = if k < c then byteAt y k else byteAt x (k - c) := by
  refine BitVec.eq_of_getLsbD_eq fun i hi => ?_
  rw [getLsbD_byteAt _ _ hi, BitVec.getLsbD_append]
  by_cases low : k < c
  · rw [if_pos (by omega), if_pos low, getLsbD_byteAt _ _ hi]
  · rw [if_neg (by omega), if_neg low, getLsbD_byteAt _ _ hi]
    congr 1
    omega

@[simp] theorem byteAt_byte (b : BitVec 8) : byteAt b 0 = b := by
  simp [byteAt]

@[simp] theorem byteAt_zero (k : Nat) : byteAt 0#m k = 0 := by
  simp [byteAt]

theorem byteAt_setWidth (w : BitVec m) {k : Nat} (within : 8 * k + 8 ≤ n) :
    byteAt (w.setWidth n) k = byteAt w k := by
  refine BitVec.eq_of_getLsbD_eq fun i hi => ?_
  rw [getLsbD_byteAt _ _ hi, getLsbD_byteAt _ _ hi, BitVec.getLsbD_setWidth]
  simp
  omega

theorem byteAt_ushiftRight (w : BitVec m) (o k : Nat) :
    byteAt (w >>> (8 * o)) k = byteAt w (o + k) := by
  refine BitVec.eq_of_getLsbD_eq fun i hi => ?_
  rw [getLsbD_byteAt _ _ hi, getLsbD_byteAt _ _ hi, BitVec.getLsbD_ushiftRight,
    show 8 * o + (8 * k + i) = 8 * (o + k) + i by omega]

/-- The word with bytes `f 0`, ..., `f 3`, the first one least significant. -/
def ofBytes (f : Nat → BitVec 8) : BitVec 32 := f 3 ++ f 2 ++ f 1 ++ f 0

theorem byteAt_ofBytes (f : Nat → BitVec 8) {k : Nat} (within : k < 4) :
    byteAt (ofBytes f) k = f k := by
  have last {i : Nat} (x : BitVec i) (y : BitVec 8) (j : Nat) :
      byteAt (x ++ y) j = if j < 1 then byteAt y j else byteAt x (j - 1) :=
    byteAt_append x y (c := 1) rfl
  rw [ofBytes]
  interval_cases k <;> simp [last]

end Verilog
