import Mathlib.Tactic

/-!
# A display on an output port

A display controller in SPI mode 0 on the pins of a byte-wide port: SCK, MOSI, DC and CS.  It takes a
bit, and whether that is of a command or of data, at every write that raises SCK (`samples`).
`wire` is the sequence of writes that sends bytes to it, two for every bit.
-/

namespace Panel

def sck (w : BitVec 8) : Bool := w.getLsbD 0
def mosi (w : BitVec 8) : Bool := w.getLsbD 1
def dc (w : BitVec 8) : Bool := w.getLsbD 2
def cs (w : BitVec 8) : Bool := w.getLsbD 3

/-- DC and MOSI at every write that takes SCK from 0 to 1, if the port shows `prev` at first. -/
def samples (prev : BitVec 8) : List (BitVec 8) → List (Bool × Bool)
  | [] => []
  | w :: ws => if !sck prev && sck w then (dc w, mosi w) :: samples w ws else samples w ws

/-- DC and MOSI do not change with a write that takes SCK from 0 to 1. -/
def Steady (prev : BitVec 8) : List (BitVec 8) → Prop
  | [] => True
  | w :: ws => (sck prev = false → sck w = true → dc w = dc prev ∧ mosi w = mosi prev) ∧ Steady w ws

/-- A byte that is sent, as a command or as data. -/
structure Sent where
  data : Bool
  byte : BitVec 8

/-- Its bits, most significant first, each with the level of DC. -/
def Sent.bits (s : Sent) : List (Bool × Bool) :=
  [(s.data, s.byte.getLsbD 7), (s.data, s.byte.getLsbD 6), (s.data, s.byte.getLsbD 5),
    (s.data, s.byte.getLsbD 4), (s.data, s.byte.getLsbD 3), (s.data, s.byte.getLsbD 2),
    (s.data, s.byte.getLsbD 1), (s.data, s.byte.getLsbD 0)]

/-- The port while a bit is set up: SCK and CS are low. -/
def setup (b : Bool × Bool) : BitVec 8 := (if b.1 then 4 else 0) ||| if b.2 then 2 else 0

/-- The writes that send a bit. -/
def pulse (b : Bool × Bool) : List (BitVec 8) := [setup b, setup b ||| 1]

/-- The writes that send some bytes. -/
def wire (sent : List Sent) : List (BitVec 8) := (sent.flatMap Sent.bits).flatMap pulse

@[simp] theorem wire_nil : wire [] = [] := rfl

theorem wire_append (sent sent' : List Sent) : wire (sent ++ sent') = wire sent ++ wire sent' := by
  rw [wire, List.flatMap_append, List.flatMap_append]
  rfl

section Pulses

variable (prev : BitVec 8) (bs : List (Bool × Bool))

theorem samples_pulses : samples prev (bs.flatMap pulse) = bs := by
  induction bs generalizing prev with
  | nil => rfl
  | cons b bs ih =>
      have rest := ih (setup b ||| 1)
      obtain ⟨data, bit⟩ := b
      rw [List.flatMap_cons, pulse, List.cons_append, List.cons_append, List.nil_append, samples,
        if_neg (by cases data <;> cases bit <;> simp [setup, sck]), samples,
        if_pos (by cases data <;> cases bit <;> rfl), rest]
      cases data <;> cases bit <;> rfl

theorem steady_pulses : Steady prev (bs.flatMap pulse) := by
  induction bs generalizing prev with
  | nil => trivial
  | cons b bs ih =>
      obtain ⟨data, bit⟩ := b
      refine ⟨fun _ high => ?_, fun _ _ => ?_, ih _⟩
      · cases data <;> cases bit <;> cases high
      · cases data <;> cases bit <;> exact ⟨rfl, rfl⟩

/-- The device stays selected. -/
theorem selected_pulses : ∀ w ∈ bs.flatMap pulse, cs w = false := by
  intro w member
  obtain ⟨⟨data, bit⟩, -, there⟩ := List.mem_flatMap.mp member
  simp only [pulse, List.mem_cons, List.not_mem_nil, or_false] at there
  rcases there with rfl | rfl <;> cases data <;> cases bit <;> rfl

end Pulses

end Panel
