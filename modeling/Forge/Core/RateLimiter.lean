import Forge.Framework.System
import Forge.Framework.Total
import Mathlib.Algebra.Order.Ring.Rat
import Mathlib.Data.Rat.Floor
import Mathlib.Tactic.Linarith
import Mathlib.Tactic.Ring

/-! # The Token Bucket — Model

  `RateLimiter` (`core/rate_limiter.h`). The bucket is two atomics:
  `tokens_`, in millionths of a token, and `last_refill_`, the time in
  microseconds up to which the bucket has been filled. `try_acquire` runs
  `refill` first: it moves `last_refill_` to the time it has read, which
  claims the time in between for this call, and then adds the tokens that
  are due for it, in a second compare-exchange loop. After that it takes
  what it needs from `tokens_` in a third one.

  Every load and every compare-exchange is a step, and a compare-exchange
  may fail although the value is the expected one. A call is an entry of
  `calls`, so that there may be any number of them at once. What `double`
  makes of the numbers is a parameter (`Arithmetic`): nothing
  (`Params.exact`), or a rounding after every operation (`Params.binary64`,
  which comes later). `int64_t` is an exact integer here.

  The two history variables `credited` and `acquisitions` are read by no
  step.
-/

namespace Forge

open LTS

namespace RateLimiter

/-! ### Parameters and Fixed Point -/

/-- `rate_`, in tokens per second, and `burst_`, in tokens. -/
structure Params where
  rate : ℚ
  burst : ℚ
  rate_nonneg : 0 ≤ rate
  burst_nonneg : 0 ≤ burst

/-- `SCALE`. -/
def scale : ℚ := 1000000

/-- `static_cast<int64_t>` of a `double`: rounds towards zero. -/
def truncate (v : ℚ) : ℤ := v.num.tdiv v.den

/-- `to_fixed`. -/
def toFixed (v : ℚ) : ℤ := truncate (v * scale)

/-- `(rate_ * elapsed_us / 1'000'000.0) * SCALE` as an integer. -/
def Params.newTokens (P : Params) (elapsed : ℤ) : ℤ :=
  truncate (P.rate * elapsed / 1000000 * scale)

theorem truncate_eq_floor {v : ℚ} (hv : 0 ≤ v) : truncate v = ⌊v⌋ := by
  rw [truncate, Rat.floor_def', Int.tdiv_eq_ediv_of_nonneg (Rat.num_nonneg.mpr hv)]

theorem truncate_le {v : ℚ} (hv : 0 ≤ v) : (truncate v : ℚ) ≤ v := by
  rw [truncate_eq_floor hv]
  exact Int.floor_le v

theorem truncate_nonneg {v : ℚ} (hv : 0 ≤ v) : 0 ≤ truncate v := by
  rw [truncate_eq_floor hv]
  exact Int.floor_nonneg.mpr hv

theorem scaled_nonneg {v : ℚ} (hv : 0 ≤ v) : 0 ≤ v * scale :=
  mul_nonneg hv (by norm_num [scale])

theorem toFixed_nonneg {v : ℚ} (hv : 0 ≤ v) : 0 ≤ toFixed v := truncate_nonneg (scaled_nonneg hv)

theorem toFixed_le {v : ℚ} (hv : 0 ≤ v) : (toFixed v : ℚ) ≤ v * scale :=
  truncate_le (scaled_nonneg hv)

/-- What the limiter computes in `double`: `to_fixed(burst_)`, the tokens
    for a time, and `to_fixed(amount)`. -/
structure Arithmetic where
  cap : ℤ
  newTokens : ℤ → ℤ
  needed : ℚ≥0 → ℤ
  cap_nonneg : 0 ≤ cap
  needed_nonneg : ∀ amount, 0 ≤ needed amount

/-- `double` as an exact rational. -/
abbrev Params.exact (P : Params) : Arithmetic where
  cap := toFixed P.burst
  newTokens := P.newTokens
  needed := fun amount => toFixed amount
  cap_nonneg := toFixed_nonneg P.burst_nonneg
  needed_nonneg := fun amount => toFixed_nonneg amount.2

instance : Coe Params Arithmetic := ⟨Params.exact⟩

/-! ### Calls -/

/-- The time from `prev` to `now`, claimed by one call of `refill`. -/
structure Window where
  prev : ℤ
  now : ℤ
  deriving DecidableEq

/-- Where a call of `try_acquire` is. -/
inductive PC where
  /-- `refill`: read the clock. -/
  | readClock
  /-- `refill`: load `last_refill_`. -/
  | loadPrev (now : ℤ)
  /-- `refill`: compare-exchange `last_refill_` from `prev` to `now`. -/
  | claim (now prev elapsed : ℤ)
  /-- `refill`: load `tokens_`. -/
  | loadTokens (window : Window) (newTokens : ℤ)
  /-- `refill`: compare-exchange `tokens_` to `desired`. -/
  | credit (window : Window) (newTokens current : ℤ)
  /-- `refill` has returned; load `tokens_`. -/
  | loadCurrent
  /-- Compare `current` with `needed`, then compare-exchange `tokens_`. -/
  | take (current : ℤ)
  | done (result : Bool)
  deriving DecidableEq

/-- A call of `try_acquire(amount)`. -/
structure Call where
  amount : ℚ≥0
  pc : PC

/-! ### State -/

/-- A call that has returned true: what it asked for, and the time of its
    compare-exchange. -/
structure Acquisition where
  amount : ℚ≥0
  time : ℤ

/-- The two atomics, the clock and the calls. -/
structure State where
  tokens : ℤ
  lastRefill : ℤ
  clock : ℤ
  calls : List Call
  /-- History: the windows whose tokens were added to `tokens_`. -/
  credited : List Window
  /-- History: the calls that have acquired, oldest first. -/
  acquisitions : List Acquisition

/-- The constructor, at the time `start`. -/
def initial (A : Arithmetic) (start : ℤ) : State where
  tokens := A.cap
  lastRefill := start
  clock := start
  calls := []
  credited := []
  acquisitions := []

/-- The steps. `weak` lets a compare-exchange fail spuriously. -/
inductive Label where
  | tick (elapsed : ℕ)
  | call (amount : ℚ≥0)
  | step (i : ℕ) (weak : Bool)

/-- Call `i` goes on with `pc`. -/
def State.setPC (s : State) (i : ℕ) (c : Call) (pc : PC) : State :=
  { s with calls := s.calls.set i { c with pc := pc } }

/-- The compare-exchange of `last_refill_`. -/
def State.claimWindow (s : State) (now : ℤ) : State := { s with lastRefill := now }

/-- The compare-exchange of `tokens_` in `refill`. -/
def State.addTokens (s : State) (w : Window) (desired : ℤ) : State :=
  { s with tokens := desired, credited := s.credited ++ [w] }

/-- The compare-exchange of `tokens_` in `try_acquire`. -/
def State.takeTokens (s : State) (amount : ℚ≥0) (desired : ℤ) : State :=
  { s with tokens := desired, acquisitions := s.acquisitions ++ [⟨amount, s.clock⟩] }

/-! ### Steps -/

/-- The window of a call that knows `prev` as the last refill:
    `if (elapsed_us <= 0) return`, else try to claim it. -/
def attempt (now prev : ℤ) : PC :=
  if now - prev ≤ 0 then .loadCurrent else .claim now prev (now - prev)

/-- The claim has succeeded: `if (new_tokens <= 0) return`, else add them. -/
def claimed (A : Arithmetic) (now prev elapsed : ℤ) : PC :=
  if A.newTokens elapsed ≤ 0 then .loadCurrent
  else .loadTokens ⟨prev, now⟩ (A.newTokens elapsed)

/-- The next access of call `i`, which is `c`. -/
def callStep (A : Arithmetic) (s : State) (i : ℕ) (c : Call) (weak : Bool) : Option State :=
  match c.pc with
  | .readClock => some (s.setPC i c (.loadPrev s.clock))
  | .loadPrev now => some (s.setPC i c (attempt now s.lastRefill))
  | .claim now prev elapsed =>
      if s.lastRefill = prev ∧ weak = false then
        some ((s.claimWindow now).setPC i c (claimed A now prev elapsed))
      else
        -- a failed compare-exchange reloads `prev`: recompute the window
        some (s.setPC i c (attempt now s.lastRefill))
  | .loadTokens w n => some (s.setPC i c (.credit w n s.tokens))
  | .credit w n current =>
      if s.tokens = current ∧ weak = false then
        some ((s.addTokens w (min (current + n) A.cap)).setPC i c .loadCurrent)
      else
        some (s.setPC i c (.credit w n s.tokens))
  | .loadCurrent => some (s.setPC i c (.take s.tokens))
  | .take current =>
      if current < A.needed c.amount then
        some (s.setPC i c (.done false))
      else if s.tokens = current ∧ weak = false then
        some ((s.takeTokens c.amount (current - A.needed c.amount)).setPC i c (.done true))
      else
        some (s.setPC i c (.take s.tokens))
  | .done _ => none

/-- The step function. -/
def next (A : Arithmetic) (s : State) : Label → Option State
  | .tick d => some { s with clock := s.clock + d }
  | .call amount => some { s with calls := s.calls ++ [⟨amount, .readClock⟩] }
  | .step i weak => s.calls[i]?.bind fun c => callStep A s i c weak

/-- The bucket built at the time `start`, with its callers. -/
def system (A : Arithmetic) (start : ℤ) : System State Label := .ofNext (initial A start) (next A)

end RateLimiter

end Forge
