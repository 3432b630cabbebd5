import Mathlib.Tactic

/-!
# Stores to consecutive locations

A memory is a function from locations to values.  `storeAll f loc v n` is the memory `f` after the
values `v 0`, ..., `v (n - 1)` have been stored, in this order, at `loc 0`, ..., `loc (n - 1)`.
-/

namespace Memory

variable {α β : Type*} [DecidableEq α]

def storeAll (f : α → β) (loc : Nat → α) (v : Nat → β) : Nat → α → β
  | 0 => f
  | n + 1 => Function.update (storeAll f loc v n) (loc n) (v n)

variable {f : α → β} {loc : Nat → α} {v : Nat → β} {n : Nat}

@[simp] theorem storeAll_zero : storeAll f loc v 0 = f := rfl

theorem storeAll_succ :
    storeAll f loc v (n + 1) = Function.update (storeAll f loc v n) (loc n) (v n) := rfl

/-- A location that is not stored to keeps its value. -/
theorem storeAll_miss {a : α} (other : ∀ i, i < n → loc i ≠ a) : storeAll f loc v n a = f a := by
  induction n with
  | zero => rfl
  | succ n ih =>
      rw [storeAll_succ, Function.update_of_ne (other n (Nat.lt_succ_self n)).symm,
        ih fun i within => other i (by omega)]

/-- A location stored to holds the value stored there, if no later store hits it. -/
theorem storeAll_hit (loc : Nat → α) {i : Nat} (within : i < n)
    (last : ∀ j, i < j → j < n → loc j ≠ loc i) :
    storeAll f loc v n (loc i) = v i := by
  induction n with
  | zero => omega
  | succ n ih =>
      rw [storeAll_succ]
      rcases Nat.eq_or_lt_of_le (Nat.le_of_lt_succ within) with rfl | before
      · exact Function.update_self ..
      · rw [Function.update_of_ne (last n before (Nat.lt_succ_self n)).symm,
          ih before fun j after inside => last j after (by omega)]

/-- Stores through the same locations of the same values leave the same memory. -/
theorem storeAll_congr {loc' : Nat → α} {v' : Nat → β} (locs : ∀ i, i < n → loc i = loc' i)
    (values : ∀ i, i < n → v i = v' i) : storeAll f loc v n = storeAll f loc' v' n := by
  induction n with
  | zero => rfl
  | succ n ih =>
      rw [storeAll_succ, storeAll_succ, ih (fun i within => locs i (by omega))
        fun i within => values i (by omega), locs n (Nat.lt_succ_self n),
        values n (Nat.lt_succ_self n)]

end Memory
