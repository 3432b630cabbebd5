import Mathlib.Tactic

/-!
# Shift registers

A register into which a bit is shifted at the bottom on each step.  `shiftAll x s k` is the
register after the first `k` bits of the stream `s`; `getLsbD_shiftAll` reads it back, and
`extractLsb'_shiftAll` recovers a byte that arrived most significant bit first.
-/

namespace Clocked

variable {w : Nat}

/-- One bit in at the bottom, the top bit lost. -/
def shiftIn (x : BitVec (w + 1)) (b : Bool) : BitVec (w + 1) :=
  x.extractLsb' 0 w ++ BitVec.ofBool b

/-- The register after the first `k` bits of the stream `s`. -/
def shiftAll (x : BitVec (w + 1)) (s : Nat → Bool) : Nat → BitVec (w + 1)
  | 0 => x
  | k + 1 => shiftIn (shiftAll x s k) (s k)

@[simp] theorem shiftAll_zero (x : BitVec (w + 1)) (s : Nat → Bool) : shiftAll x s 0 = x := rfl

theorem shiftAll_succ (x : BitVec (w + 1)) (s : Nat → Bool) (k : Nat) :
    shiftAll x s (k + 1) = shiftIn (shiftAll x s k) (s k) := rfl

theorem getLsbD_shiftIn (x : BitVec (w + 1)) (b : Bool) {i : Nat} (within : i < w + 1) :
    (shiftIn x b).getLsbD i = if i = 0 then b else x.getLsbD (i - 1) := by
  simp only [shiftIn, BitVec.getLsbD_append, BitVec.getLsbD_extractLsb', BitVec.getLsbD_ofBool]
  rcases i with _ | i
  · simp
  · simp [show i < w by omega]

/-- Bit `i` of the register: one of the last bits in, or a bit that was there before. -/
theorem getLsbD_shiftAll (x : BitVec (w + 1)) (s : Nat → Bool) (k : Nat) {i : Nat}
    (within : i < w + 1) :
    (shiftAll x s k).getLsbD i = if i < k then s (k - 1 - i) else x.getLsbD (i - k) := by
  induction k generalizing i with
  | zero => simp
  | succ k ih =>
      rw [shiftAll_succ, getLsbD_shiftIn _ _ within]
      rcases i with _ | i
      · simp
      · rw [if_neg (by omega), Nat.add_sub_cancel, ih (by omega)]
        by_cases before : i < k
        · rw [if_pos before, if_pos (by omega)]
          congr 1; omega
        · rw [if_neg before, if_neg (by omega)]
          congr 1; omega

/-- The top bit of the register is a bit of its initial contents until all have been shifted out. -/
theorem getLsbD_shiftAll_top (x : BitVec (w + 1)) (s : Nat → Bool) {k : Nat} (within : k ≤ w) :
    (shiftAll x s k).getLsbD w = x.getLsbD (w - k) := by
  rw [getLsbD_shiftAll x s k (by omega), if_neg (by omega)]

/-- Bit `j`, from the top, of the byte `b`. -/
def msbFirst (b : BitVec 8) (j : Nat) : Bool := b.getLsbD (7 - j)

/-- Eight bits of the register at `lo` are the byte whose bits arrived there, most significant
first. -/
theorem extractLsb'_shiftAll (x : BitVec (w + 1)) {s : Nat → Bool} {k lo : Nat} {b : BitVec 8}
    (within : lo + 8 ≤ w + 1) (arrived : lo + 8 ≤ k)
    (bits : ∀ j, j < 8 → s (k - 8 - lo + j) = msbFirst b j) :
    (shiftAll x s k).extractLsb' lo 8 = b := by
  refine BitVec.eq_of_getLsbD_eq fun i hi => ?_
  rw [BitVec.getLsbD_extractLsb', getLsbD_shiftAll x s k (by omega), if_pos (by omega),
    show k - 1 - (lo + i) = k - 8 - lo + (7 - i) by omega, bits (7 - i) (by omega), msbFirst,
    show 7 - (7 - i) = i by omega]
  simp [hi]

/-- The byte that the eight bits of `s` from bit `k` on spell, most significant first. -/
def spell (s : Nat → Bool) (k : Nat) : BitVec 8 := shiftAll (w := 7) 0 (fun j => s (k + j)) 8

theorem msbFirst_spell (s : Nat → Bool) (k : Nat) {j : Nat} (within : j < 8) :
    msbFirst (spell s k) j = s (k + j) := by
  rw [msbFirst, spell, getLsbD_shiftAll _ _ _ (by omega), if_pos (by omega)]
  congr 1
  omega

theorem spell_eq_iff {s : Nat → Bool} {k : Nat} {b : BitVec 8} :
    spell s k = b ↔ ∀ j, j < 8 → s (k + j) = msbFirst b j := by
  constructor
  · rintro rfl j within
    exact (msbFirst_spell s k within).symm
  · intro bits
    refine BitVec.eq_of_getLsbD_eq fun i hi => ?_
    have bit := bits (7 - i) (by omega)
    rw [← msbFirst_spell s k (by omega), msbFirst, msbFirst, show 7 - (7 - i) = i by omega] at bit
    exact bit

/-- A stream that spells out some bytes is these bytes, each most significant bit first. -/
theorem map_range_spelled (f : Nat → Bool) (bytes : List (BitVec 8))
    (spelled : ∀ i (within : i < bytes.length), spell f (8 * i) = bytes[i]) :
    (List.range (8 * bytes.length)).map f =
      bytes.flatMap fun b => (List.range 8).map (msbFirst b) := by
  induction bytes using List.reverseRecOn with
  | nil => rfl
  | append_singleton bytes b ih =>
      have first := ih fun i within => by
        rw [spelled i (by simp; omega), List.getElem_append_left within]
      have last := spelled bytes.length (by simp)
      rw [List.getElem_concat_length rfl] at last
      rw [List.length_append, List.length_singleton, Nat.mul_succ, List.range_add, List.map_append,
        first, List.flatMap_append, List.flatMap_singleton, List.map_map]
      congr 1
      refine List.map_congr_left fun j member => ?_
      exact spell_eq_iff.mp last j (List.mem_range.mp member)

/-- Eight bits of the register at `lo` are the byte that arrived there. -/
theorem extractLsb'_shiftAll_spell (x : BitVec (w + 1)) (s : Nat → Bool) {k lo : Nat}
    (within : lo + 8 ≤ w + 1) (arrived : lo + 8 ≤ k) :
    (shiftAll x s k).extractLsb' lo 8 = spell s (k - 8 - lo) :=
  extractLsb'_shiftAll x within arrived fun _ before => (msbFirst_spell s _ before).symm

end Clocked
