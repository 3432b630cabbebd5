import Mathlib.Tactic

/-!
# PS/2 frames in a sequence of polls

A PS/2 device clocks out eleven bits per frame: a start bit, eight data bits, least significant first,
a parity bit and a stop bit.  `frames` is what a sequence of polls of the two lines contains: the bytes
of the groups of eleven falling edges of the clock after which the clock has been seen high again.

`Receiver` is the same thing one poll at a time: the phase in the current frame, and the bits so far.
-/

namespace Ps2

/-- The clock line in a poll. -/
def clock (v : BitVec 8) : Bool := v.getLsbD 3

/-- The data line in a poll. -/
def data (v : BitVec 8) : Bool := v.getLsbD 4

/-- The polls at which the clock turns low, if it was at `high` before. -/
def falls (high : Bool) : List (BitVec 8) → List (BitVec 8)
  | [] => []
  | v :: vs => if high && !clock v then v :: falls (clock v) vs else falls (clock v) vs

/-- The number of polls at which the clock turns high. -/
def rises (high : Bool) : List (BitVec 8) → Nat
  | [] => 0
  | v :: vs => (if !high && clock v then 1 else 0) + rises (clock v) vs

/-- The level of the clock after some polls. -/
def level (high : Bool) : List (BitVec 8) → Bool
  | [] => high
  | v :: vs => level (clock v) vs

/-- Bit `j` of the frame with the events `es`. -/
def dataBit (es : List (BitVec 8)) (j : Nat) : Bool := data (es.getD (j + 1) 0)

/-- The byte of the frame with the events `es`. -/
def frameByte (es : List (BitVec 8)) : BitVec 8 :=
  .ofBoolListLE [dataBit es 0, dataBit es 1, dataBit es 2, dataBit es 3, dataBit es 4, dataBit es 5,
    dataBit es 6, dataBit es 7]

/-- The bytes of the complete frames in a sequence of polls.  The clock is high at first. -/
def frames (vs : List (BitVec 8)) : List (BitVec 8) :=
  (List.range (rises true vs / 11)).map fun g => frameByte ((falls true vs).drop (11 * g))

/-- A sequence of bytes given to a machine, one after the other: its state, and what it has put out. -/
def feed {σ : Type*} (consume : σ → BitVec 8 → σ × List (BitVec 8)) (q : σ) :
    List (BitVec 8) → σ × List (BitVec 8)
  | [] => (q, [])
  | b :: bs => ((feed consume (consume q b).1 bs).1, (consume q b).2 ++ (feed consume (consume q b).1 bs).2)

theorem feed_snoc {σ : Type*} (consume : σ → BitVec 8 → σ × List (BitVec 8)) (q : σ)
    (bs : List (BitVec 8)) (b : BitVec 8) : feed consume q (bs ++ [b]) =
      ((consume (feed consume q bs).1 b).1,
        (feed consume q bs).2 ++ (consume (feed consume q bs).1 b).2) := by
  induction bs generalizing q with
  | nil => simp [feed]
  | cons c bs ih => simp [feed, ih]

/-! ## One more poll -/

section Snoc

variable (high : Bool) (vs : List (BitVec 8)) (v : BitVec 8)

theorem falls_snoc : falls high (vs ++ [v]) =
    falls high vs ++ if level high vs && !clock v then [v] else [] := by
  induction vs generalizing high with
  | nil =>
      rw [List.nil_append, falls, falls, level]
      split <;> simp [falls]
  | cons w vs ih =>
      rw [List.cons_append, falls, falls, level, ih]
      split <;> rfl

theorem rises_snoc : rises high (vs ++ [v]) =
    rises high vs + if !level high vs && clock v then 1 else 0 := by
  induction vs generalizing high with
  | nil => simp [rises, level]
  | cons w vs ih => rw [List.cons_append, rises, rises, level, ih, Nat.add_assoc]

theorem level_snoc : level high (vs ++ [v]) = clock v := by
  induction vs generalizing high with
  | nil => rfl
  | cons w vs ih => exact ih (clock w)

/-- Every falling edge but perhaps the last has been followed by a rising one. -/
theorem length_falls : (falls high vs).length + (if high then 0 else 1) =
    rises high vs + if level high vs then 0 else 1 := by
  induction vs generalizing high with
  | nil => cases high <;> rfl
  | cons v vs ih =>
      have rest := ih (clock v)
      rw [falls, rises, level]
      cases high <;> cases low : clock v <;> simp [low] at rest ⊢ <;> omega

end Snoc

theorem getLsbD_frameByte (es : List (BitVec 8)) {j : Nat} (within : j < 8) :
    (frameByte es).getLsbD j = dataBit es j := by
  rw [frameByte, BitVec.getLsbD_ofBoolListLE]
  interval_cases j <;> rfl

/-- An event adds its data bit to the byte, if it is one of the events that carry one. -/
theorem frameByte_snoc (es : List (BitVec 8)) (v : BitVec 8) :
    frameByte (es ++ [v]) =
      if 1 ≤ es.length ∧ es.length ≤ 8 ∧ data v = true then
        frameByte es ||| .ofNat 8 (2 ^ (es.length - 1))
      else frameByte es := by
  have bit (j : Nat) : dataBit (es ++ [v]) j =
      if j + 1 = es.length then data v else dataBit es j := by
    simp only [dataBit, List.getD_eq_getElem?_getD]
    rcases Nat.lt_trichotomy (j + 1) es.length with before | at_ | after
    · rw [List.getElem?_append_left before, if_neg before.ne]
    · rw [if_pos at_, at_, List.getElem?_concat_length]
      rfl
    · rw [if_neg after.ne', List.getElem?_eq_none (by simp; omega), List.getElem?_eq_none (by omega)]
  have fresh (j : Nat) (last : j + 1 = es.length) : dataBit es j = false := by
    rw [dataBit, List.getD_eq_getElem?_getD, List.getElem?_eq_none (by omega)]
    rfl
  refine BitVec.eq_of_getLsbD_eq fun j within => ?_
  rw [getLsbD_frameByte _ within, bit]
  split
  case isTrue last =>
    split
    case isTrue carried =>
      rw [BitVec.getLsbD_or, getLsbD_frameByte _ within, fresh j last, carried.2.2,
        show es.length - 1 = j by omega, BitVec.getLsbD_ofNat, Nat.testBit_two_pow_self]
      simp [within]
    case isFalse other =>
      rw [getLsbD_frameByte _ within, fresh j last]
      cases set : data v with
      | false => rfl
      | true => exact absurd ⟨by omega, by omega, set⟩ other
  case isFalse earlier =>
    split
    case isTrue carried =>
      rw [BitVec.getLsbD_or, getLsbD_frameByte _ within, BitVec.getLsbD_ofNat,
        Nat.testBit_two_pow_of_ne (by omega)]
      simp
    case isFalse => rw [getLsbD_frameByte _ within]

/-- Later events do not change a byte. -/
theorem frameByte_drop (es : List (BitVec 8)) (v : BitVec 8) {n : Nat} (complete : n + 9 ≤ es.length) :
    frameByte ((es ++ [v]).drop n) = frameByte (es.drop n) := by
  refine BitVec.eq_of_getLsbD_eq fun j within => ?_
  rw [getLsbD_frameByte _ within, getLsbD_frameByte _ within, dataBit, dataBit,
    List.drop_append_of_le_length (by omega), List.getD_eq_getElem?_getD, List.getD_eq_getElem?_getD,
    List.getElem?_append_left (by rw [List.length_drop]; omega)]

/-! ## The receiver -/

/-- After the polls `vs` the receiver is in event `event` of a frame, has seen the clock low there if
`low`, and has collected `acc`. -/
structure Receiver (vs : List (BitVec 8)) (event : Nat) (low : Bool) (acc : BitVec 8) : Prop where
  event : event = rises true vs % 11
  low : low = !level true vs
  acc : acc = frameByte ((falls true vs).drop (11 * (rises true vs / 11)))

theorem receiver_nil : Receiver [] 0 false 0 := ⟨rfl, rfl, rfl⟩

namespace Receiver

variable {vs : List (BitVec 8)} {event : Nat} {low : Bool} {acc v : BitVec 8}

theorem length_drop (state : Receiver vs event low acc) :
    ((falls true vs).drop (11 * (rises true vs / 11))).length = event + if low then 1 else 0 := by
  have count := length_falls true vs
  rw [List.length_drop, state.event, state.low]
  cases high : level true vs <;> simp [high] at count ⊢ <;> omega

/-- While the clock stays as it is, nothing happens. -/
theorem stays (state : Receiver vs event low acc) (same : clock v = !low) :
    Receiver (vs ++ [v]) event low acc ∧ frames (vs ++ [v]) = frames vs := by
  have level_eq : level true vs = clock v := by rw [same, state.low, Bool.not_not]
  have rises_eq : rises true (vs ++ [v]) = rises true vs := by
    rw [rises_snoc, level_eq]
    cases clock v <;> rfl
  have falls_eq : falls true (vs ++ [v]) = falls true vs := by
    rw [falls_snoc, level_eq]
    cases clock v <;> simp
  refine ⟨⟨?_, ?_, ?_⟩, ?_⟩
  · rw [rises_eq, state.event]
  · rw [level_snoc, same, Bool.not_not]
  · rw [rises_eq, falls_eq, state.acc]
  · rw [frames, rises_eq, falls_eq, frames]

/-- A falling edge adds its data bit. -/
theorem falls (state : Receiver vs event false acc) (falling : clock v = false) :
    Receiver (vs ++ [v]) event true
        (if 1 ≤ event ∧ event ≤ 8 ∧ data v = true then acc ||| .ofNat 8 (2 ^ (event - 1)) else acc) ∧
      frames (vs ++ [v]) = frames vs := by
  have length := state.length_drop
  have high : level true vs = true := by
    have low := state.low
    rwa [eq_comm, Bool.not_eq_false'] at low
  have rises_eq : rises true (vs ++ [v]) = rises true vs := by
    rw [rises_snoc, high]
    rfl
  have falls_eq : Ps2.falls true (vs ++ [v]) = Ps2.falls true vs ++ [v] := by
    rw [falls_snoc, high, falling]
    rfl
  have count := length_falls true vs
  rw [high] at count
  refine ⟨⟨?_, ?_, ?_⟩, ?_⟩
  · rw [rises_eq, state.event]
  · rw [level_snoc, falling]
    rfl
  · rw [rises_eq, falls_eq, List.drop_append_of_le_length (by simp at count; omega), frameByte_snoc,
      length, ← state.acc]
    rfl
  · rw [frames, frames, rises_eq, falls_eq]
    refine List.map_congr_left fun g member => frameByte_drop _ _ ?_
    rw [List.mem_range] at member
    simp at count
    omega

/-- A rising edge ends the event, and after the last one the frame. -/
theorem rises (state : Receiver vs event true acc) (rising : clock v = true) :
    if event = 10 then
      Receiver (vs ++ [v]) 0 false 0 ∧ frames (vs ++ [v]) = frames vs ++ [acc]
    else Receiver (vs ++ [v]) (event + 1) false acc ∧ frames (vs ++ [v]) = frames vs := by
  have event_eq := state.event
  have low : level true vs = false := by
    have low := state.low
    rwa [eq_comm, Bool.not_eq_true'] at low
  have rises_eq : Ps2.rises true (vs ++ [v]) = Ps2.rises true vs + 1 := by
    rw [rises_snoc, low, rising]
    rfl
  have falls_eq : Ps2.falls true (vs ++ [v]) = Ps2.falls true vs := by
    rw [falls_snoc, low]
    exact List.append_nil _
  have count := length_falls true vs
  rw [low] at count
  have level_eq : false = !level true (vs ++ [v]) := by
    rw [level_snoc, rising]
    rfl
  split
  case isTrue last =>
    have next : (Ps2.rises true vs + 1) / 11 = Ps2.rises true vs / 11 + 1 := by omega
    refine ⟨⟨?_, level_eq, ?_⟩, ?_⟩
    · rw [rises_eq]
      omega
    · rw [rises_eq, falls_eq, next, List.drop_of_length_le (by simp at count; omega)]
      rfl
    · rw [frames, rises_eq, falls_eq, next, List.range_succ, List.map_append, frames, state.acc]
      rfl
  case isFalse other =>
    have same : (Ps2.rises true vs + 1) / 11 = Ps2.rises true vs / 11 := by omega
    refine ⟨⟨?_, level_eq, ?_⟩, ?_⟩
    · rw [rises_eq]
      omega
    · rw [rises_eq, falls_eq, same, state.acc]
    · rw [frames, rises_eq, falls_eq, same, frames]

end Receiver

end Ps2
