import Mathlib.Tactic

/-!
# Runs of clocked machines

A synchronous circuit is a step function `σ → ι → σ`: the state after a clock edge from the state
before it and the inputs sampled at the edge.  A `Run` is an infinite history of such a machine
together with the inputs it was given; it carries its own validity (`edge`), so a statement about
a run is a statement about absolute cycle numbers.

* `Run.invariant`: a property that holds at some cycle and is preserved by every edge holds ever
  after.
* `Run.lockstep`: a relation between two runs that is preserved by every pair of edges.
* `Run.map`: a component of a composed machine runs by itself, on the inputs the rest of the
  machine gives it.
* `Run.stall`, `Run.count`: a machine that an edge leaves alone, or advances uniformly, for a span
  of cycles.
* `Run.observe`: the events a run shows in a span of cycles, with the append rule that cuts a
  span in two.
* `Run.foldl_held`: who looks at a component in every cycle sees the events that change it.
-/

namespace Clocked

variable {σ ι σ' ι' β : Type*}

/-- A run of the machine `step`: its state and its inputs in every cycle. -/
structure Run (step : σ → ι → σ) where
  state : Nat → σ
  input : Nat → ι
  edge : ∀ t, state (t + 1) = step (state t) (input t)

namespace Run

variable {step : σ → ι → σ} {step' : σ' → ι' → σ'}

/-- The states reached from `s` under the inputs `input`. -/
def states (step : σ → ι → σ) (s : σ) (input : Nat → ι) : Nat → σ
  | 0 => s
  | t + 1 => step (states step s input t) (input t)

/-- The run from `s` under the inputs `input`. -/
def ofInputs (step : σ → ι → σ) (s : σ) (input : Nat → ι) : Run step where
  state := states step s input
  input := input
  edge _ := rfl

@[simp] theorem ofInputs_state_zero (s : σ) (input : Nat → ι) :
    (ofInputs step s input).state 0 = s := rfl

@[simp] theorem ofInputs_input (s : σ) (input : Nat → ι) (t : Nat) :
    (ofInputs step s input).input t = input t := rfl

/-- The history of one component `f` of a machine is a run of the component's own step. -/
def map (r : Run step) (f : σ → σ') (g : σ → ι → ι')
    (commutes : ∀ s i, f (step s i) = step' (f s) (g s i)) : Run step' where
  state t := f (r.state t)
  input t := g (r.state t) (r.input t)
  edge t := by rw [r.edge, commutes]

/-- The invariant rule: a property preserved by every edge holds from any cycle where it holds once. -/
theorem invariant (r : Run step) {P : σ → Prop} {a : Nat} (start : P (r.state a))
    (preserved : ∀ s i, P s → P (step s i)) : ∀ t, a ≤ t → P (r.state t) := by
  intro t after
  induction t, after using Nat.le_induction with
  | base => exact start
  | succ t _ ih => rw [r.edge]; exact preserved _ _ ih

/-- Two runs in lock step: what holds of their first states and is preserved by every pair of edges holds
of their states in every cycle. -/
theorem lockstep (r : Run step) (r' : Run step') {R : σ → σ' → Prop} {n : Nat}
    (start : R (r.state 0) (r'.state 0))
    (keeps : ∀ t, t < n → R (r.state t) (r'.state t) →
      R (step (r.state t) (r.input t)) (step' (r'.state t) (r'.input t))) :
    ∀ t, t ≤ n → R (r.state t) (r'.state t) := by
  intro t within
  induction t with
  | zero => exact start
  | succ t ih =>
      rw [r.edge, r'.edge]
      exact keeps t within (ih (by omega))

/-- A machine advanced by `next` on each of `n` edges has been advanced `n` times. -/
theorem count (r : Run step) {a n : Nat} (shape : Nat → σ) (start : r.state a = shape 0)
    (advance : ∀ k, k < n → r.state (a + k) = shape k →
      step (shape k) (r.input (a + k)) = shape (k + 1)) :
    ∀ k, k ≤ n → r.state (a + k) = shape k := by
  intro k within
  induction k with
  | zero => exact start
  | succ k ih =>
      have here := ih (by omega)
      rw [← Nat.add_assoc, r.edge, here]
      exact advance k (by omega) here

/-- A machine that every one of `n` edges leaves alone has not moved. -/
theorem stall (r : Run step) {a n : Nat}
    (still : ∀ k, k < n → step (r.state a) (r.input (a + k)) = r.state a) :
    ∀ k, k ≤ n → r.state (a + k) = r.state a :=
  r.count (fun _ => r.state a) rfl fun k within _ => still k within

/-- A run is given by its first state and its inputs. -/
theorem eq_ofInputs (r : Run step) : r = ofInputs step (r.state 0) r.input := by
  obtain ⟨state, input, edge⟩ := r
  have same : state = states step (state 0) input := by
    funext t
    induction t with
    | zero => rfl
    | succ t ih => rw [edge, ih]; rfl
  exact (Run.mk.injEq ..).mpr ⟨same, rfl⟩

/-- A run is its inputs, taken in one after the other. -/
theorem state_eq_foldl (r : Run step) (a n : Nat) :
    r.state (a + n) = ((List.range' a n).map r.input).foldl step (r.state a) := by
  induction n with
  | zero => rfl
  | succ n ih =>
      rw [List.range'_1_concat, List.map_append, List.foldl_append, ← ih, ← Nat.add_assoc, r.edge]
      rfl

/-! ## Observations -/

/-- The events `event` shows in the `n` cycles from cycle `a` on, in order. -/
def observe (r : Run step) (event : σ → ι → Option β) (a n : Nat) : List β :=
  (List.range' a n).filterMap fun t => event (r.state t) (r.input t)

variable (r : Run step) (event : σ → ι → Option β)

@[simp] theorem observe_zero (a : Nat) : r.observe event a 0 = [] := rfl

theorem observe_one (a : Nat) :
    r.observe event a 1 = (event (r.state a) (r.input a)).toList := by
  cases shown : event (r.state a) (r.input a) <;> simp [observe, shown]

/-- A span of cycles cut in two shows the events of its first part, then those of its second. -/
theorem observe_add (a m n : Nat) :
    r.observe event a (m + n) = r.observe event a m ++ r.observe event (a + m) n := by
  simp only [observe, ← List.filterMap_append]
  congr 1
  rw [List.range'_append_1]

/-- A span between two cycles cut at a third. -/
theorem observe_cut {a b c : Nat} (first : a ≤ b) (second : b ≤ c) :
    r.observe event a (c - a) = r.observe event a (b - a) ++ r.observe event b (c - b) := by
  rw [show c - a = b - a + (c - b) by omega, observe_add, Nat.add_sub_of_le first]

/-- What a span shows, if a shorter and a longer one show the same. -/
theorem observe_between {a b c d : Nat} (first : a ≤ b) (second : b ≤ c) (third : c ≤ d)
    (same : r.observe event a (d - a) = r.observe event a (b - a)) :
    r.observe event a (c - a) = r.observe event a (b - a) := by
  rw [r.observe_cut event (first.trans second) third, r.observe_cut event first second,
    List.append_assoc, List.append_right_eq_self, List.append_eq_nil_iff] at same
  rw [r.observe_cut event first second, same.1, List.append_nil]

/-- Events that are a function of other events. -/
theorem observe_bind {γ : Type*} (f : β → Option γ) (a n : Nat) :
    r.observe (fun s i => (event s i).bind f) a n = (r.observe event a n).filterMap f := by
  rw [observe, observe, List.filterMap_filterMap]

theorem observe_succ (a n : Nat) :
    r.observe event a (n + 1) =
      (event (r.state a) (r.input a)).toList ++ r.observe event (a + 1) n := by
  rw [Nat.add_comm n 1, observe_add, observe_one]

/-- Two kinds of events that are the same throughout a span. -/
theorem observe_congr {event event' : σ → ι → Option β} {a n : Nat}
    (same : ∀ t, a ≤ t → t < a + n → event (r.state t) (r.input t) = event' (r.state t) (r.input t)) :
    r.observe event a n = r.observe event' a n := by
  refine List.filterMap_congr fun t member => ?_
  obtain ⟨after, before⟩ := List.mem_range'_1.mp member
  exact same t after before

/-- What a span shows happened in one of its cycles. -/
theorem mem_observe {a n : Nat} {b : β} : b ∈ r.observe event a n ↔
    ∃ t, a ≤ t ∧ t < a + n ∧ event (r.state t) (r.input t) = some b := by
  simp only [observe, List.mem_filterMap, List.mem_range'_1]
  exact exists_congr fun _ => by tauto

/-- A span that shows one event shows nothing in its other cycles. -/
theorem observe_eq_singleton {a n t u : Nat} {b : β} (one : (r.observe event a n).length = 1)
    (after : a ≤ t) (before : t < a + n) (shown : event (r.state t) (r.input t) = some b)
    (after' : a ≤ u) (before' : u < a + n) (other : u ≠ t) :
    event (r.state u) (r.input u) = none := by
  have cut := r.observe_cut event after (show t ≤ a + n by omega)
  rw [show a + n - t = a + n - (t + 1) + 1 by omega, observe_succ, shown,
    Nat.add_sub_cancel_left] at cut
  rw [cut] at one
  simp only [Option.toList_some, List.length_append, List.length_cons, List.length_nil] at one
  by_contra event'
  obtain ⟨b', shown'⟩ := Option.ne_none_iff_exists'.mp event'
  rcases Nat.lt_or_ge u t with early | late
  · have hit := (r.mem_observe event (a := a) (n := t - a)).mpr ⟨u, after', by omega, shown'⟩
    have := List.length_pos_of_mem hit
    omega
  · have hit := (r.mem_observe event (a := t + 1) (n := a + n - (t + 1))).mpr
      ⟨u, by omega, by omega, shown'⟩
    have := List.length_pos_of_mem hit
    omega

/-- A span in which nothing happens shows nothing. -/
theorem observe_eq_nil {a n : Nat}
    (silent : ∀ k, k < n → event (r.state (a + k)) (r.input (a + k)) = none) :
    r.observe event a n = [] := by
  simp only [observe, List.filterMap_eq_nil_iff, List.mem_range'_1]
  intro t ⟨after, before⟩
  obtain ⟨k, rfl⟩ := Nat.exists_eq_add_of_le after
  exact silent k (by omega)

/-! ## Components that change only with an event -/

section Held

variable {α γ : Type*} {f : σ → α} {change : σ → ι → Option α} {a n : Nat}
  (held : ∀ u, a ≤ u → u < a + n →
    f (r.state (u + 1)) = (change (r.state u) (r.input u)).getD (f (r.state u)))
include held

/-- It shows what the last event made of it. -/
theorem getLastD_held : f (r.state (a + n)) = (r.observe change a n).getLastD (f (r.state a)) := by
  induction n with
  | zero => rfl
  | succ n ih =>
      have before := ih fun u after within => held u after (by omega)
      rw [← Nat.add_assoc, held _ (Nat.le_add_right a n) (by omega), before, observe_add, observe_one]
      cases change (r.state (a + n)) (r.input (a + n)) <;> simp

/-- An observer that looks at it in every cycle, and to which a value that stands says nothing new, sees
its first value and the events. -/
theorem foldl_held {see : γ → α → γ} (stands : ∀ c v, see (see c v) v = see c v) (c : γ) :
    ((List.range' a (n + 1)).map fun u => f (r.state u)).foldl see c =
      (f (r.state a) :: r.observe change a n).foldl see c := by
  have again (v : α) (vs : List α) :
      see ((v :: vs).foldl see c) (vs.getLastD v) = (v :: vs).foldl see c := by
    rcases List.eq_nil_or_concat vs with rfl | ⟨ws, w, rfl⟩
    · exact stands c v
    · rw [List.concat_eq_append, List.getLastD_concat, ← List.cons_append, List.foldl_append]
      exact stands _ w
  induction n with
  | zero => rfl
  | succ n ih =>
      have before := ih fun u after within => held u after (by omega)
      have shown := getLastD_held r (n := n) fun u after within => held u after (by omega)
      rw [List.range'_1_concat, List.map_append, List.foldl_append, before, observe_add, observe_one,
        ← List.cons_append, List.foldl_append, List.map_singleton, List.foldl_cons, List.foldl_nil,
        ← Nat.add_assoc, held _ (Nat.le_add_right a n) (by omega), shown]
      cases change (r.state (a + n)) (r.input (a + n)) with
      | none => exact again _ _
      | some v => rfl

end Held

end Run

end Clocked
