import AgilA32.Programs.Ps2

/-!
# A PS/2 device on its two lines

A device that sends bytes moves the clock between its levels, 22 times for a frame, from a clock at rest.
Phase `φ` of the clock lasts from edge `φ` to edge `φ + 1`; it is high in the even phases, and a frame
begins where `φ` is a multiple of 22 (`Sends`).

Whoever samples the lines at least once in every phase sees what has been sent (`Seen`), and
then the frames are the bytes (`Seen.frames_eq`).  Samples that are never further apart than a phase is
long do so, and after a frame there is more time (`Catches.next`).
-/

namespace Ps2

/-- Bit `k` of the wire, if it is one of the data bits of its frame. -/
def wireBit (bytes : List (BitVec 8)) (k : Nat) : Bool := (bytes.getD (k / 11) 0).getLsbD (k % 11 - 1)

/-- On the lines `v` a device sends `bytes`, from the time `edge 0` on: every phase lasts at least `hold`,
and those before a frame `idle`.  The start bit, the parity and the stop bit may be anything. -/
structure Sends (v : Nat → BitVec 8) (edge : Nat → Nat) (hold idle : Nat) (bytes : List (BitVec 8)) :
    Prop where
  lasts : ∀ φ, φ < 22 * bytes.length → edge φ + (if φ % 22 = 0 then idle else hold) ≤ edge (φ + 1)
  clock : ∀ φ u, φ ≤ 22 * bytes.length → edge φ ≤ u → (φ < 22 * bytes.length → u < edge (φ + 1)) →
    clock (v u) = decide (φ % 2 = 0)
  data : ∀ k u, k < 11 * bytes.length → 1 ≤ k % 11 → k % 11 ≤ 8 → edge (2 * k + 1) ≤ u →
    u < edge (2 * k + 2) → data (v u) = wireBit bytes k

/-- The samples `vs` show the clock up to its phase `φ`, and the data bits so far. -/
structure Seen (bytes vs : List (BitVec 8)) (φ : Nat) : Prop where
  within : φ ≤ 22 * bytes.length
  level : level true vs = decide (φ % 2 = 0)
  rises : rises true vs = φ / 2
  data : ∀ k, k < (falls true vs).length → 1 ≤ k % 11 → k % 11 ≤ 8 →
    data ((falls true vs).getD k 0) = wireBit bytes k

/-- Lines other than the clock and the data line do not matter. -/
theorem Sends.congr {v v' : Nat → BitVec 8} {edge : Nat → Nat} {hold idle : Nat} {bytes : List (BitVec 8)}
    (sends : Sends v edge hold idle bytes)
    (same : ∀ u k, k = 3 ∨ k = 4 → (v' u).getLsbD k = (v u).getLsbD k) : Sends v' edge hold idle bytes where
  lasts := sends.lasts
  clock φ u within after before := (same u 3 (.inl rfl)).trans (sends.clock φ u within after before)
  data k u within carries upto after before :=
    (same u 4 (.inr rfl)).trans (sends.data k u within carries upto after before)

section Samples

variable {bytes vs : List (BitVec 8)} {φ : Nat} {w : BitVec 8}

theorem seen_nil (bytes : List (BitVec 8)) : Seen bytes [] 0 :=
  ⟨Nat.zero_le _, rfl, rfl, fun _ none => absurd none (Nat.not_lt_zero _)⟩

namespace Seen

theorem length_falls (seen : Seen bytes vs φ) : (falls true vs).length = (φ + 1) / 2 := by
  have count := Ps2.length_falls true vs
  rw [seen.level, seen.rises, if_pos rfl, Nat.add_zero] at count
  rw [count]
  by_cases even : φ % 2 = 0 <;> simp [even] <;> omega

/-- The frames are the bytes. -/
theorem frames_eq (seen : Seen bytes vs φ) : frames vs = bytes.take (φ / 22) := by
  have falls := seen.length_falls
  have upto := seen.within
  have listed (n : Nat) (some_ : n ≤ bytes.length) :
      bytes.take n = (List.range n).map fun g => bytes.getD g 0 := by
    refine List.ext_getElem (by simp [some_]) fun g left right => ?_
    have inside : g < bytes.length := by
      rw [List.length_take] at left
      omega
    simp [List.getD_eq_getElem?_getD, List.getElem?_eq_getElem inside]
  rw [frames, seen.rises, Nat.div_div_eq_div_mul, listed _ (by omega)]
  refine List.map_congr_left fun g member => BitVec.eq_of_getLsbD_eq fun j within => ?_
  rw [List.mem_range] at member
  have bit := seen.data (11 * g + (j + 1)) (by omega) (by omega) (by omega)
  rw [getLsbD_frameByte _ within, dataBit, List.getD_eq_getElem?_getD, List.getElem?_drop,
    ← List.getD_eq_getElem?_getD, bit, wireBit, show (11 * g + (j + 1)) / 11 = g by omega,
    show (11 * g + (j + 1)) % 11 - 1 = j by omega]

/-- A sample in the phase of the last one. -/
theorem stays (seen : Seen bytes vs φ) (same : clock w = decide (φ % 2 = 0)) :
    Seen bytes (vs ++ [w]) φ := by
  have falls_eq : falls true (vs ++ [w]) = falls true vs := by
    rw [falls_snoc, seen.level, same]
    cases decide (φ % 2 = 0) <;> simp
  have rises_eq : Ps2.rises true (vs ++ [w]) = φ / 2 := by
    rw [rises_snoc, seen.level, same, seen.rises]
    cases decide (φ % 2 = 0) <;> rfl
  refine ⟨seen.within, by rw [level_snoc, same], rises_eq, fun k before => ?_⟩
  rw [falls_eq] at before ⊢
  exact seen.data k before

/-- The first sample in the next phase. -/
theorem turns (seen : Seen bytes vs φ) (more : φ < 22 * bytes.length)
    (turned : clock w = decide ((φ + 1) % 2 = 0))
    (bit : φ % 2 = 0 → 1 ≤ φ / 2 % 11 → φ / 2 % 11 ≤ 8 → Ps2.data w = wireBit bytes (φ / 2)) :
    Seen bytes (vs ++ [w]) (φ + 1) := by
  have length := seen.length_falls
  have next : Ps2.level true (vs ++ [w]) = decide ((φ + 1) % 2 = 0) := by rw [level_snoc, turned]
  by_cases even : φ % 2 = 0
  · have odd : ¬(φ + 1) % 2 = 0 := by omega
    have low : clock w = false := turned.trans (decide_eq_false odd)
    have high : Ps2.level true vs = true := seen.level.trans (decide_eq_true even)
    have falls_eq : falls true (vs ++ [w]) = falls true vs ++ [w] := by
      rw [falls_snoc, high, low]
      rfl
    refine ⟨more, next, ?_, fun k before carries upto => ?_⟩
    · rw [rises_snoc, high, seen.rises]
      change φ / 2 + 0 = _
      omega
    · rw [falls_eq, List.length_append, List.length_singleton] at before
      rw [falls_eq]
      rcases Nat.lt_or_ge k (falls true vs).length with earlier | last
      · rw [List.getD_eq_getElem?_getD, List.getElem?_append_left earlier, ← List.getD_eq_getElem?_getD]
        exact seen.data k earlier carries upto
      · obtain rfl : k = φ / 2 := by omega
        rw [List.getD_eq_getElem?_getD, List.getElem?_append_right last,
          show φ / 2 - (falls true vs).length = 0 by omega]
        exact bit even carries upto
  · have high : clock w = true := turned.trans (decide_eq_true (by omega))
    have low : Ps2.level true vs = false := seen.level.trans (decide_eq_false even)
    have falls_eq : falls true (vs ++ [w]) = falls true vs := by
      rw [falls_snoc, low]
      exact List.append_nil _
    refine ⟨more, next, ?_, fun k before => ?_⟩
    · rw [rises_snoc, low, high, seen.rises]
      change φ / 2 + 1 = _
      omega
    · rw [falls_eq] at before ⊢
      exact seen.data k before

end Seen

/-- The samples `vs` have not missed a phase, and the next one, at time `u`, will not either. -/
structure Catches (edge : Nat → Nat) (hold : Nat) (bytes vs : List (BitVec 8)) (φ u : Nat) : Prop where
  seen : Seen bytes vs φ
  after : edge φ ≤ u
  before : φ < 22 * bytes.length → u < edge (φ + 1) + hold

section Sampling

variable {v : Nat → BitVec 8} {edge : Nat → Nat} {hold idle u : Nat}
  (sends : Sends v edge hold idle bytes)
include sends

theorem Sends.edge_mono {φ' : Nat} (upto : φ ≤ φ') (within : φ' ≤ 22 * bytes.length) :
    edge φ ≤ edge φ' := by
  induction φ', upto using Nat.le_induction with
  | base => exact le_rfl
  | succ φ' _ ih =>
      have step := sends.lasts φ' within
      exact (ih (by omega)).trans (le_trans (Nat.le_add_right _ _) step)

/-- After a sample, the next one may come `hold` later, or `idle` if a frame has ended with it. -/
theorem Catches.next (catches : Catches edge hold bytes vs φ u) (slack : hold ≤ idle) :
    ∃ φ', ∀ u', u ≤ u' →
      u' ≤ u + (if frames (vs ++ [v u]) = frames vs then hold else idle) →
      Catches edge hold bytes (vs ++ [v u]) φ' u' := by
  obtain ⟨seen, after, before⟩ := catches
  by_cases here : φ < 22 * bytes.length → u < edge (φ + 1)
  · have seen' := seen.stays (sends.clock φ u seen.within after here)
    refine ⟨φ, fun u' later soon => ⟨seen', after.trans later, fun more => ?_⟩⟩
    rw [if_pos (seen'.frames_eq.trans seen.frames_eq.symm)] at soon
    have := here more
    omega
  · obtain ⟨more, reached⟩ := Classical.not_imp.mp here
    have early := before more
    have next (further : φ + 1 < 22 * bytes.length) :
        edge (φ + 1) + (if (φ + 1) % 22 = 0 then idle else hold) ≤ edge (φ + 1 + 1) :=
      sends.lasts (φ + 1) further
    have inside (further : φ + 1 < 22 * bytes.length) : u < edge (φ + 1 + 1) := by
      have := next further
      split at this <;> omega
    have seen' : Seen bytes (vs ++ [v u]) (φ + 1) := by
      refine seen.turns more (sends.clock (φ + 1) u more (by omega) inside) fun even carries upto => ?_
      have here : 2 * (φ / 2) = φ := by omega
      exact sends.data (φ / 2) u (by omega) carries upto (by rw [here]; omega)
        (by rw [here]; exact inside (by omega))
    refine ⟨φ + 1, fun u' later soon => ⟨seen', by omega, fun further => ?_⟩⟩
    have lasts := next further
    by_cases ends : (φ + 1) % 22 = 0
    · rw [if_pos ends] at lasts
      have : u' ≤ u + idle := soon.trans (by split <;> omega)
      omega
    · rw [if_neg ends] at lasts
      rw [if_pos (by rw [seen'.frames_eq, seen.frames_eq, show (φ + 1) / 22 = φ / 22 by omega])] at soon
      omega

/-- A sample that comes when all has been sent finds all of it. -/
theorem Catches.all (catches : Catches edge hold bytes vs φ u)
    (late : edge (22 * bytes.length) + hold ≤ u) : frames vs = bytes := by
  have done : φ = 22 * bytes.length := by
    by_contra not_yet
    have more : φ < 22 * bytes.length := by
      have := catches.seen.within
      omega
    have early := catches.before more
    have last : edge (φ + 1) ≤ edge (22 * bytes.length) := sends.edge_mono more le_rfl
    omega
  rw [catches.seen.frames_eq, done, Nat.mul_div_cancel_left _ (by decide), List.take_length]

end Sampling

end Samples

/-! ## A keyboard -/

section Keyboard

variable (begin_ h : Nat) (bytes : List (BitVec 8))

/-- The phase of the clock at time `u`, if all last `h` from the time `begin_` on. -/
def phase (u : Nat) : Nat := if u < begin_ then 0 else min ((u - begin_) / h + 1) (22 * bytes.length)

/-- The lines of a keyboard that sends `bytes` so, and rests before and after it. -/
def keyboard (u : Nat) : BitVec 8 :=
  let high := decide (phase begin_ h bytes u % 2 = 0)
  (BitVec.ofBool high).setWidth 8 <<< 3 |||
    (BitVec.ofBool (high || wireBit bytes (phase begin_ h bytes u / 2))).setWidth 8 <<< 4

/-- Its edges, seen from the time `t` on. -/
def edges (t : Nat) : Nat → Nat
  | 0 => t
  | φ + 1 => begin_ + h * φ

theorem keyboard_lines (u : Nat) :
    clock (keyboard begin_ h bytes u) = decide (phase begin_ h bytes u % 2 = 0) ∧
      data (keyboard begin_ h bytes u) =
        (decide (phase begin_ h bytes u % 2 = 0) || wireBit bytes (phase begin_ h bytes u / 2)) := by
  unfold clock data keyboard
  generalize decide (phase begin_ h bytes u % 2 = 0) = high
  generalize wireBit bytes (phase begin_ h bytes u / 2) = bit
  cases high <;> cases bit <;> exact ⟨rfl, rfl⟩

variable {begin_ h bytes}

theorem phase_eq (pos : 0 < h) {t φ u : Nat} (within : φ ≤ 22 * bytes.length)
    (after : edges begin_ h t φ ≤ u) (before : φ < 22 * bytes.length → u < edges begin_ h t (φ + 1)) :
    phase begin_ h bytes u = φ := by
  unfold phase
  cases φ with
  | zero =>
      rcases Nat.eq_zero_or_pos bytes.length with none | some_
      · simp [none]
      · have early := before (by omega)
        rw [if_pos (by simpa [edges] using early)]
  | succ φ =>
      change begin_ + h * φ ≤ u at after
      rw [if_neg (by omega)]
      have lower : φ ≤ (u - begin_) / h := (Nat.le_div_iff_mul_le pos).mpr (by rw [Nat.mul_comm]; omega)
      rcases Nat.lt_or_ge (φ + 1) (22 * bytes.length) with more | last
      · have early : u < begin_ + h * (φ + 1) := before more
        have upper : (u - begin_) / h < φ + 1 := (Nat.div_lt_iff_lt_mul pos).mpr (by rw [Nat.mul_comm]; omega)
        omega
      · omega

/-- Such a keyboard is a device that sends. -/
theorem sends_keyboard {t hold idle : Nat} (pos : 0 < h) (slow : hold ≤ h ∧ idle ≤ h)
    (rests : t + idle ≤ begin_) : Sends (keyboard begin_ h bytes) (edges begin_ h t) hold idle bytes where
  lasts φ within := by
    cases φ with
    | zero => exact rests
    | succ φ =>
        change begin_ + h * φ + _ ≤ begin_ + h * (φ + 1)
        rw [Nat.mul_succ, ← Nat.add_assoc]
        refine Nat.add_le_add_left ?_ _
        split
        · exact slow.2
        · exact slow.1
  clock φ u within after before := by
    rw [(keyboard_lines begin_ h bytes u).1, phase_eq pos within after before]
  data k u within _ _ after before := by
    have at_ : phase begin_ h bytes u = 2 * k + 1 :=
      phase_eq pos (by omega) after fun _ => before
    rw [(keyboard_lines begin_ h bytes u).2, at_, show (2 * k + 1) / 2 = k by omega,
      decide_eq_false (by omega), Bool.false_or]

end Keyboard

/-! ## Key events -/

/-- What a keyboard reports: a key with this scancode is pressed or released. -/
structure KeyEvent where
  extended : Bool
  released : Bool
  scancode : BitVec 8
  no_prefix : scancode ≠ 0xF0#8 ∧ scancode ≠ 0xE0#8

/-- The bytes for it in Scan Code Set 2. -/
def KeyEvent.bytes (e : KeyEvent) : List (BitVec 8) :=
  (if e.extended then [0xE0] else []) ++ (if e.released then [0xF0] else []) ++ [e.scancode]

end Ps2
