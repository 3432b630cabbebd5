import AgilA32.Clocked.Run

/-!
# A machine in larger steps

A step of a coarse machine may stand for several edges of a fine one, as many as the coarse state says.
A run of the fine machine drives the coarse one: `paced` gives it, at each of its steps, the input of
the edge at which the step begins (`moment`).  What relates the two and is kept by one step holds of all
of them, and both show the same events (`paced_simulates`).
-/

namespace Clocked

namespace Run

variable {σ ι τ : Type*} {step : σ → ι → σ} (r : Run step) (coarse : τ → ι → τ) (cost : τ → Nat)
  (q : τ) (a : Nat)

/-- The coarse machine after `n` steps from `q`, and the cycle in which the next one begins; the first
begins in cycle `a`. -/
def pace : Nat → τ × Nat
  | 0 => (q, a)
  | n + 1 =>
      let p := pace n
      (coarse p.1 (r.input p.2), p.2 + cost p.1)

/-- The cycle in which step `n` of the coarse machine begins. -/
def moment (n : Nat) : Nat := (r.pace coarse cost q a n).2

/-- The run of the coarse machine. -/
def paced : Run coarse where
  state n := (r.pace coarse cost q a n).1
  input n := r.input (r.moment coarse cost q a n)
  edge _ := rfl

@[simp] theorem paced_zero : (r.paced coarse cost q a).state 0 = q := rfl

@[simp] theorem moment_zero : r.moment coarse cost q a 0 = a := rfl

theorem moment_succ (n : Nat) : r.moment coarse cost q a (n + 1) =
    r.moment coarse cost q a n + cost ((r.paced coarse cost q a).state n) := rfl

theorem le_moment (n : Nat) : a ≤ r.moment coarse cost q a n := by
  induction n with
  | zero => exact le_rfl
  | succ n ih => exact ih.trans (Nat.le_add_right ..)

variable {r coarse cost q a}

/-- The simulation rule.  `live` marks the states that the coarse machine vouches for. -/
theorem paced_simulates {κ β : Type*} (live : τ → Prop) (R : τ → σ → Prop)
    (event : κ → σ → ι → Option β) (event' : κ → τ → ι → Option β)
    (back : ∀ q i, live (coarse q i) → live q)
    (keeps : ∀ t q, R q (r.state t) → live (coarse q (r.input t)) →
      R (coarse q (r.input t)) (r.state (t + cost q)) ∧
        ∀ k, r.observe (event k) t (cost q) = (event' k q (r.input t)).toList)
    (start : R q (r.state a)) {n : Nat} (alive : live ((r.paced coarse cost q a).state n)) :
    R ((r.paced coarse cost q a).state n) (r.state (r.moment coarse cost q a n)) ∧
      ∀ k, r.observe (event k) a (r.moment coarse cost q a n - a) =
        (r.paced coarse cost q a).observe (event' k) 0 n := by
  induction n with
  | zero => exact ⟨start, fun k => by rw [moment_zero, Nat.sub_self, observe_zero, observe_zero]⟩
  | succ n ih =>
      obtain ⟨here, before⟩ := ih (back _ _ alive)
      obtain ⟨there, shown⟩ := keeps _ _ here alive
      refine ⟨there, fun k => ?_⟩
      have upto := r.le_moment coarse cost q a n
      rw [moment_succ, Nat.sub_add_comm upto, observe_add, before k, Nat.add_sub_of_le upto,
        observe_add, observe_one, Nat.zero_add]
      exact congrArg _ (shown k)

end Run

end Clocked
