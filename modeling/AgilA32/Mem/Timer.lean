import AgilA32.Clocked.Run
import AgilA32.Rtl.Top

/-!
# The timer

`TIMER_CTRL` promises a counter that counts up once per clock while it is enabled, and `TIMER_FLAG` a
flag that is set by every wrap and stays set until it is written.  `ticks` and `Overflowed` say so for a
run.  The two clocked assignments of the timer block keep the promises up to two coincidences: a write to
`TIMER_CTRL` takes the place of a tick (`LosesTick`), and a write to `TIMER_FLAG` in the cycle of a wrap
clears the flag that the wrap sets (`LosesWrap`).
-/

namespace AgilA32

namespace Timer

/-- A write to `TIMER_CTRL`. -/
def ctrlWrite (b : Bus) : Bool := b.valid && b.we && b.addr == 0xF5#8

/-- A write to `TIMER_CTRL` with bit 1 set. -/
def counterReset (b : Bus) : Bool := ctrlWrite b && b.wdata.getLsbD 1

/-- A write to `TIMER_FLAG`. -/
def flagWrite (b : Bus) : Bool := b.valid && b.we && b.addr == 0xF6#8

/-- The counter counts in this cycle. -/
def counts (t : Timer) (b : Bus) : Bool := t.timerEnable && !ctrlWrite b

/-- The counter counts from 0xFFFF to 0. -/
def wraps (t : Timer) (b : Bus) : Bool := counts t b && decide (t.timerCnt = 0xFFFF#16)

section Step

variable (t : Timer) (b : Bus)

theorem step_cnt : (t.step b).timerCnt =
    if counterReset b then 0 else if counts t b then t.timerCnt + 1 else t.timerCnt := by
  rw [step, counterReset, counts, ctrlWrite]
  cases b.valid && b.we && b.addr == 0xF5#8 <;> cases b.wdata.getLsbD 1 <;>
    cases enabled : t.timerEnable <;> cases b.valid && b.we && b.addr == 0xF6#8 <;> simp [tick, enabled]

theorem step_enable : (t.step b).timerEnable =
    if ctrlWrite b then b.wdata.getLsbD 0 else t.timerEnable := by
  rw [step, ctrlWrite]
  cases b.valid && b.we && b.addr == 0xF5#8 <;> cases enabled : t.timerEnable <;>
    cases b.valid && b.we && b.addr == 0xF6#8 <;> simp [tick, enabled]

theorem step_overflow : (t.step b).timerOverflow = (!flagWrite b && (wraps t b || t.timerOverflow)) := by
  rw [step, flagWrite, wraps, counts, ctrlWrite]
  cases b.valid && b.we && b.addr == 0xF5#8 <;> cases enabled : t.timerEnable <;>
    cases b.valid && b.we && b.addr == 0xF6#8 <;> simp [tick, enabled]

/-- `n` cycles without a write to the timer: the flag is set when the counter passes 0xFFFF. -/
theorem tick_iterate (n : Nat) : tick^[n] t =
    if t.timerEnable then
      { t with
        timerCnt := t.timerCnt + BitVec.ofNat 16 n
        timerOverflow := t.timerOverflow || decide (65536 ≤ t.timerCnt.toNat + n) }
    else t := by
  obtain ⟨cnt, enable, overflow⟩ := t
  cases enable
  · exact Function.iterate_fixed rfl n
  rw [if_pos rfl]
  induction n with
  | zero =>
      have below : ¬65536 ≤ cnt.toNat := by omega
      simp [below]
  | succ n ih =>
      have last : cnt + BitVec.ofNat 16 n = 0xFFFF#16 ↔ (cnt.toNat + n) % 65536 = 65535 := by
        rw [BitVec.toNat_eq, BitVec.toNat_add, BitVec.toNat_ofNat]
        simp
      have passed : 65536 ≤ cnt.toNat + (n + 1) ↔
          65536 ≤ cnt.toNat + n ∨ (cnt.toNat + n) % 65536 = 65535 := by omega
      rw [Function.iterate_succ_apply', ih, tick, if_pos rfl]
      refine Timer.mk.injEq .. |>.mpr ⟨?_, rfl, ?_⟩
      · rw [BitVec.add_assoc, BitVec.ofNat_add]
        rfl
      · simp only [last, passed]
        by_cases wraps : (cnt.toNat + n) % 65536 = 65535 <;> simp [wraps]

end Step

/-! ## What is promised -/

section Promise

variable (r : Clocked.Run Timer.step)

/-- The cycles with the timer enabled since the counter was last reset. -/
def ticks : Nat → Nat
  | 0 => 0
  | t + 1 => if counterReset (r.input t) then 0
      else ticks t + if (r.state t).timerEnable then 1 else 0

/-- A wrap after which there has been no write to `TIMER_FLAG`. -/
def Overflowed (t : Nat) : Prop :=
  ∃ u, u < t ∧ wraps (r.state u) (r.input u) = true ∧ ∀ v, u < v → v < t → flagWrite (r.input v) = false

/-- The timer is enabled, and a write to `TIMER_CTRL` keeps it from counting without resetting it. -/
def LosesTick (t : Nat) : Prop :=
  (r.state t).timerEnable = true ∧ ctrlWrite (r.input t) = true ∧ counterReset (r.input t) = false

/-- A write to `TIMER_FLAG` comes with a wrap. -/
def LosesWrap (t : Nat) : Prop :=
  wraps (r.state t) (r.input t) = true ∧ flagWrite (r.input t) = true

variable {r}

theorem overflowed_succ (t : Nat) : Overflowed r (t + 1) ↔
    wraps (r.state t) (r.input t) = true ∨ Overflowed r t ∧ flagWrite (r.input t) = false := by
  constructor
  · rintro ⟨u, before, wrap, clear⟩
    rcases Nat.lt_succ_iff_lt_or_eq.mp before with earlier | rfl
    · exact .inr ⟨⟨u, earlier, wrap, fun v after within => clear v after (by omega)⟩,
        clear t earlier (Nat.lt_succ_self t)⟩
    · exact .inl wrap
  · rintro (wrap | ⟨⟨u, earlier, wrap, clear⟩, still⟩)
    · exact ⟨t, Nat.lt_succ_self t, wrap, fun v after within => by omega⟩
    · refine ⟨u, by omega, wrap, fun v after within => ?_⟩
      rcases Nat.lt_succ_iff_lt_or_eq.mp within with earlier' | rfl
      · exact clear v after earlier'
      · exact still

/-- One edge keeps the count if it does not lose a tick. -/
theorem cnt_succ {t : Nat} (here : (r.state t).timerCnt = .ofNat 16 (ticks r t)) :
    (r.state (t + 1)).timerCnt = .ofNat 16 (ticks r (t + 1)) ↔ ¬LosesTick r t := by
  rw [r.edge, step_cnt, ticks, LosesTick]
  by_cases cleared : counterReset (r.input t) = true
  · simp [cleared]
  · rw [if_neg cleared, if_neg cleared, here, counts]
    cases (r.state t).timerEnable <;> cases ctrlWrite (r.input t)
    · simp
    · simp
    · simp [BitVec.ofNat_add]
    · have apart : ¬BitVec.ofNat 16 (ticks r t) = .ofNat 16 (ticks r t + 1) := by
        rw [BitVec.ofNat_add, eq_comm]
        simp
      simp [apart, cleared]

/-- The counter counts the enabled cycles as long as no tick is lost. -/
theorem cnt_iff (start : (r.state 0).timerCnt = 0) (n : Nat) :
    (∀ t, t ≤ n → (r.state t).timerCnt = .ofNat 16 (ticks r t)) ↔ ∀ t, t < n → ¬LosesTick r t := by
  constructor
  · intro exact_ t before
    exact (cnt_succ (exact_ t before.le)).mp (exact_ (t + 1) before)
  · intro kept t
    induction t with
    | zero => exact fun _ => start
    | succ t ih => exact fun within => (cnt_succ (ih (by omega))).mpr (kept t (by omega))

/-- One edge keeps the flag right if it does not lose a wrap. -/
theorem overflow_succ {t : Nat} (here : (r.state t).timerOverflow = true ↔ Overflowed r t) :
    ((r.state (t + 1)).timerOverflow = true ↔ Overflowed r (t + 1)) ↔ ¬LosesWrap r t := by
  rw [r.edge, step_overflow, overflowed_succ, ← here, LosesWrap]
  cases wraps (r.state t) (r.input t) <;> cases flagWrite (r.input t) <;> simp

/-- The flag shows the wraps as long as none is lost. -/
theorem overflow_iff (start : (r.state 0).timerOverflow = false) (n : Nat) :
    (∀ t, t ≤ n → ((r.state t).timerOverflow = true ↔ Overflowed r t)) ↔
      ∀ t, t < n → ¬LosesWrap r t := by
  constructor
  · intro exact_ t before
    exact (overflow_succ (exact_ t before.le)).mp (exact_ (t + 1) before)
  · intro kept t
    induction t with
    | zero =>
        intro _
        rw [start]
        exact ⟨fun set => (Bool.false_ne_true set).elim,
          fun ⟨u, before, _⟩ => (Nat.not_lt_zero u before).elim⟩
    | succ t ih => exact fun within => (overflow_succ (ih (by omega))).mpr (kept t (by omega))

end Promise

/-- The timer of `mem`, from reset, under a sequence of bus cycles. -/
def ofMem (m : Mem) (input : Nat → MemIn) : Clocked.Run Timer.step :=
  (Clocked.Run.ofInputs Mem.step m.reset input).map Mem.timer (fun _ i => i.bus) fun _ _ => rfl

/-- The counter is right throughout the first cycles of a run if and only if no write to `TIMER_CTRL` in
them takes the place of a tick. -/
theorem counts_every_clock (m : Mem) (input : Nat → MemIn) (n : Nat) :
    (∀ t, t ≤ n → ((ofMem m input).state t).timerCnt = .ofNat 16 (ticks (ofMem m input) t)) ↔
      ∀ t, t < n → ¬LosesTick (ofMem m input) t :=
  cnt_iff rfl n

/-- A one-cycle store. -/
def write (addr : BitVec 8) (wdata : BitVec 32) : MemIn where
  bus := { addr := addr, wdata := wdata, size := 0, we := true, valid := true }
  gpioIn := 0
  miso := false
  undef := 0

def idle : MemIn where
  bus := { addr := 0, wdata := 0, size := 0, we := false, valid := false }
  gpioIn := 0
  miso := false
  undef := 0

/-- `TIMER_CTRL` enables the timer twice in a row. -/
def enabledTwice (t : Nat) : MemIn := if t < 2 then write 0xF5 1 else idle

/-- Of two writes of 1 to `TIMER_CTRL` in a row the second one costs a tick. -/
theorem tick_lost : ¬∀ (m : Mem) (input : Nat → MemIn) (t : Nat),
    ((ofMem m input).state t).timerCnt = .ofNat 16 (ticks (ofMem m input) t) := by
  intro all
  have cnt : ((ofMem Top.zeroed.mem enabledTwice).state 2).timerCnt = 0 := rfl
  have promised : ticks (ofMem Top.zeroed.mem enabledTwice) 2 = 1 := rfl
  have two := all Top.zeroed.mem enabledTwice 2
  rw [cnt, promised] at two
  exact absurd two (by decide)

/-- The flag is right throughout the first cycles of a run if and only if no write to `TIMER_FLAG` in
them comes with a wrap. -/
theorem flags_every_wrap (m : Mem) (input : Nat → MemIn) (n : Nat) :
    (∀ t, t ≤ n → (((ofMem m input).state t).timerOverflow = true ↔ Overflowed (ofMem m input) t)) ↔
      ∀ t, t < n → ¬LosesWrap (ofMem m input) t :=
  overflow_iff rfl n

/-- The timer runs from the start, and `TIMER_FLAG` is written when it wraps for the first time. -/
def clearedAtWrap (t : Nat) : MemIn :=
  if t = 0 then write 0xF5 1 else if t = 65536 then write 0xF6 0 else idle

theorem clearedAtWrap_ctrl (t : Nat) : ctrlWrite (clearedAtWrap (t + 1)).bus = false := by
  rw [clearedAtWrap, if_neg t.succ_ne_zero]
  split <;> rfl

/-- The counter on the way to the wrap. -/
theorem clearedAtWrap_counts (t : Nat) :
    ((ofMem Top.zeroed.mem clearedAtWrap).state (t + 1)).timerEnable = true ∧
      ((ofMem Top.zeroed.mem clearedAtWrap).state (t + 1)).timerCnt = .ofNat 16 t := by
  induction t with
  | zero => exact ⟨rfl, rfl⟩
  | succ t ih =>
      have quiet : ctrlWrite ((ofMem Top.zeroed.mem clearedAtWrap).input (t + 1)) = false :=
        clearedAtWrap_ctrl t
      obtain ⟨enabled, cnt⟩ := ih
      rw [Clocked.Run.edge, step_enable, step_cnt, counterReset, counts, quiet, enabled, cnt]
      exact ⟨rfl, by simp [BitVec.ofNat_add]⟩

/-- An overflow in the cycle of a write to `TIMER_FLAG` is lost. -/
theorem wrap_lost : ¬∀ (m : Mem) (input : Nat → MemIn) (t : Nat),
    ((ofMem m input).state t).timerOverflow = true ↔ Overflowed (ofMem m input) t := by
  intro all
  obtain ⟨enabled, cnt⟩ := clearedAtWrap_counts 65535
  have kept := (overflow_iff (r := ofMem Top.zeroed.mem clearedAtWrap) rfl 65537).mp
    fun t _ => all Top.zeroed.mem clearedAtWrap t
  refine kept 65536 (Nat.lt_succ_self 65536) ⟨?_, rfl⟩
  have quiet : ctrlWrite ((ofMem Top.zeroed.mem clearedAtWrap).input 65536) = false :=
    clearedAtWrap_ctrl 65535
  rw [wraps, counts, enabled, cnt, quiet]
  rfl

end Timer

end AgilA32
