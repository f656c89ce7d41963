import Forge.Core.RateLimiterSolo
import Forge.Framework.Rounding
import Forge.Utils.Config

/-! # The Token Bucket — Range of the Arithmetic

  `refill` (`core/rate_limiter.h`) as the machine computes it: `double` is
  rounded after every operation, and where an `int64_t` does not hold a
  result that result is undefined, which is `none` here.

  - `Params.binary64`: the arithmetic of the model with this rounding;
  - `refill64`: for any rounding; where it is in range it is `refill`;
  - `creditBound`: how large the product of rate and time may be;
  - `creditBound_near`: it is `2 ^ 63` less the tokens, but for a rest;
  - `refill64_isSome_iff`: the arithmetic is in range up to this bound.
-/

namespace Forge

/-- `RateLimiter rate(cfg.llm_rate_limit, cfg.llm_rate_burst)`. -/
def Config.Valid.rateLimiter {cfg : Config} (hvalid : cfg.Valid) : RateLimiter.Params where
  rate := cfg.llmRateLimit
  burst := cfg.llmRateBurst
  rate_nonneg := hvalid.llmRateLimit.1.le
  burst_nonneg := hvalid.llmRateBurst.1.le

namespace RateLimiter

open Rounding

/-! ### Machine Arithmetic -/

/-- `int64_t` -/
def int64 (i : ℤ) : Option ℤ := if -2 ^ 63 ≤ i ∧ i < 2 ^ 63 then some i else none

/-- `static_cast<int64_t>` of a `double`. -/
def convert (v : ℚ) : Option ℤ := int64 (truncate v)

/-- `to_fixed`; `round` is the rounding of `double`. -/
def toFixed64 (round : ℚ → ℚ) (v : ℚ) : Option ℤ := convert (round (v * scale))

/-- `(rate_ * static_cast<double>(elapsed_us) / 1'000'000.0) * SCALE` -/
def credit (round : ℚ → ℚ) (rate : ℚ) (elapsed : ℤ) : ℚ :=
  round (round (round (rate * round elapsed) / 1000000) * scale)

theorem credit_nonneg {rate : ℚ} {elapsed : ℤ} (hrate : 0 ≤ rate) (helapsed : 0 ≤ elapsed) :
    0 ≤ credit binary64.round rate elapsed := by
  have hrounded : 0 ≤ binary64.round (elapsed : ℚ) :=
    binary64.round_nonneg (by exact_mod_cast helapsed)
  have hproduct := binary64.round_nonneg (mul_nonneg hrate hrounded)
  have hquotient := binary64.round_nonneg (div_nonneg hproduct (by norm_num : (0 : ℚ) ≤ 1000000))
  exact binary64.round_nonneg (scaled_nonneg hquotient)

/-- `double` as it is. -/
def Params.binary64 (P : Params) : Arithmetic where
  cap := truncate (Rounding.binary64.round (P.burst * scale))
  newTokens := fun elapsed => truncate (credit Rounding.binary64.round P.rate elapsed)
  needed := fun amount => truncate (Rounding.binary64.round ((amount : ℚ) * scale))
  cap_nonneg := truncate_nonneg (Rounding.binary64.round_nonneg (scaled_nonneg P.burst_nonneg))
  needed_nonneg := fun amount =>
    truncate_nonneg (Rounding.binary64.round_nonneg (scaled_nonneg amount.2))

/-- `refill`, at the time `now`. -/
def refill64 (round : ℚ → ℚ) (P : Params) (b : Atomics) (now : ℤ) : Option Atomics := do
  let elapsed ← int64 (now - b.lastRefill)
  if elapsed ≤ 0 then some b else
    let newTokens ← convert (credit round P.rate elapsed)
    if newTokens ≤ 0 then some { b with lastRefill := now } else
      let maxTokens ← toFixed64 round P.burst
      let sum ← int64 (b.tokens + newTokens)
      some ⟨min sum maxTokens, now⟩

/-! The credit is less than `2 ^ 63` less the tokens. This is taken back
  through the operations that lead to it, where the last places of the
  results are `2 ^ 10`, `2 ^ -9` and `2 ^ 10`. -/

/-- The bound on the credit, -/
def sumBound (tokens : ℤ) : Bound ℚ := ⟨2 ^ 63 - (tokens : ℚ), false⟩

/-- on the time it is for in seconds, times the rate, -/
def quotientBound (tokens : ℤ) : Bound ℚ := ((sumBound tokens).pull 10).div scale

/-- on the same in microseconds, -/
def productBound (tokens : ℤ) : Bound ℚ := ((quotientBound tokens).pull (-9)).mul 1000000

/-- and on it before it is rounded, which is `rate_ * elapsed_us`. -/
def creditBound (tokens : ℤ) : Bound ℚ := (productBound tokens).pull 10

variable {P : Params} {b b' : Atomics} {now tokens i j : ℤ} {v x : ℚ}

theorem int64_eq_some : int64 i = some j ↔ (-2 ^ 63 ≤ i ∧ i < 2 ^ 63) ∧ i = j := by
  unfold int64
  split
  · next hin => exact ⟨fun h => ⟨hin, Option.some.inj h⟩, fun h => congrArg some h.2⟩
  · next hout => exact ⟨nofun, fun h => absurd h.1 hout⟩

theorem int64_of_nonneg (hi : 0 ≤ i) : (int64 i).isSome ↔ i < 2 ^ 63 := by
  unfold int64
  split <;> simp <;> omega

/-- What is in range is what `refill` computes. -/
theorem refill64_eq {A : Arithmetic} {round : ℚ → ℚ}
    (hcap : A.cap = truncate (round (P.burst * scale)))
    (hcredit : ∀ elapsed, A.newTokens elapsed = truncate (credit round P.rate elapsed))
    (h : refill64 round P b now = some b') : refill A b now = b' := by
  unfold refill64 at h
  obtain ⟨elapsed, helapsed, h⟩ := Option.bind_eq_some_iff.mp h
  obtain ⟨-, rfl⟩ := int64_eq_some.mp helapsed
  unfold refill
  split at h
  · next hnone =>
    rw [if_pos hnone]
    exact Option.some.inj h
  · next hsome =>
    rw [if_neg hsome]
    obtain ⟨newTokens, hnew, h⟩ := Option.bind_eq_some_iff.mp h
    obtain ⟨-, hnew⟩ := int64_eq_some.mp hnew
    rw [hcredit, hnew]
    split at h
    · next hzero =>
      rw [if_pos hzero]
      exact Option.some.inj h
    · next hpos =>
      rw [if_neg hpos]
      obtain ⟨maxTokens, hmax, h⟩ := Option.bind_eq_some_iff.mp h
      obtain ⟨-, hmax⟩ := int64_eq_some.mp hmax
      rw [hcap, hmax]
      obtain ⟨sum, hsum, h⟩ := Option.bind_eq_some_iff.mp h
      obtain ⟨-, rfl⟩ := int64_eq_some.mp hsum
      exact Option.some.inj h

/-- Without rounding, -/
theorem refill64_exact (h : refill64 id P b now = some b') : refill P b now = b' :=
  refill64_eq rfl (fun _ => rfl) h

/-- and with it. -/
theorem refill64_binary64 (h : refill64 binary64.round P b now = some b') :
    refill P.binary64 b now = b' :=
  refill64_eq rfl (fun _ => rfl) h

/-! ### The Bound -/

/-- The scale has few places, so that its multiples are numbers of the format. -/
theorem round_zpow_mul_scale {k : ℤ} (hk : -1000 ≤ k) :
    binary64.round ((2 : ℚ) ^ k * scale) = 2 ^ k * scale := by
  have hmin : binary64.minExponent ≤ k + 6 := by
    show -1074 ≤ k + 6
    omega
  have hself := @Format.round_eq_self ℚ _ _ _ _ binary64 (k + 6) 15625 hmin (by decide)
  have hscale : ((15625 : ℤ) : ℚ) * 2 ^ (k + 6) = 2 ^ k * scale := by
    rw [zpow_add₀ two_ne_zero, scale]
    norm_num
    ring
  rwa [hscale] at hself

/-- A value whose fixed point is a number of the format. -/
theorem toFixed64_of_eq {v : ℚ} {n : ℤ} (hv : v * scale = n) (hn : |n| < 2 ^ 53) :
    toFixed64 binary64.round v = some n := by
  have hround : binary64.round (n : ℚ) = n := binary64.round_intCast (by decide) hn
  have hvalue : truncate (n : ℚ) = n := by simp [truncate]
  have hrange := abs_lt.mp hn
  rw [toFixed64, hv, hround, convert, hvalue, int64, if_pos (by omega)]

section Bound

variable (hnonneg : 0 ≤ tokens) (hcap : tokens ≤ 2 ^ 40)

include hnonneg hcap

/-- The tokens are few, so that every bound stays where its last place is. -/
theorem admits_sumBound (hx : 0 ≤ x) :
    ((sumBound tokens).pull 10).Admits x ↔ binary64.round x < 2 ^ 63 - tokens := by
  have hnonneg' : (0 : ℚ) ≤ tokens := by exact_mod_cast hnonneg
  have hcap' : (tokens : ℚ) ≤ 2 ^ 40 := by exact_mod_cast hcap
  have hlow : (sumBound tokens).Admits (2 ^ (62 : ℤ)) := by
    left
    show (2 : ℚ) ^ (62 : ℤ) < 2 ^ 63 - tokens
    norm_num at hcap' ⊢
    linarith
  have hhigh : ¬(sumBound tokens).Admits (2 ^ (63 : ℤ)) := by
    rintro (h | ⟨-, h⟩)
    · change (2 : ℚ) ^ (63 : ℤ) < 2 ^ 63 - tokens at h
      norm_num at h
      linarith
    · cases h
  rw [admits_round binary64 (by decide) (by decide) hlow hhigh hx]
  simp [Bound.Admits, sumBound]

theorem admits_quotientBound (hx : 0 ≤ x) :
    (quotientBound tokens).Admits x ↔ binary64.round (x * scale) < 2 ^ 63 - tokens := by
  have hscale : (0 : ℚ) < scale := by norm_num [scale]
  rw [quotientBound, Bound.admits_div hscale,
    admits_sumBound hnonneg hcap (mul_nonneg hx hscale.le)]

theorem admits_productBound (hx : 0 ≤ x) : (productBound tokens).Admits x ↔
    binary64.round (binary64.round (x / 1000000) * scale) < 2 ^ 63 - tokens := by
  have hnonneg' : (0 : ℚ) ≤ tokens := by exact_mod_cast hnonneg
  have hcap' : (tokens : ℚ) ≤ 2 ^ 40 := by exact_mod_cast hcap
  have hquotient : 0 ≤ x / 1000000 := by positivity
  have hlow : (quotientBound tokens).Admits (2 ^ (43 : ℤ)) := by
    rw [admits_quotientBound hnonneg hcap (by positivity), round_zpow_mul_scale (by decide), scale]
    linarith
  have hhigh : ¬(quotientBound tokens).Admits (2 ^ (44 : ℤ)) := by
    rw [admits_quotientBound hnonneg hcap (by positivity), round_zpow_mul_scale (by decide), scale]
    linarith
  rw [productBound, Bound.admits_mul (by norm_num),
    admits_round binary64 (by decide) (by decide) hlow hhigh hquotient,
    admits_quotientBound hnonneg hcap (binary64.round_nonneg hquotient)]

/-- **The bound is exact.** -/
theorem admits_creditBound (hx : 0 ≤ x) : (creditBound tokens).Admits x ↔
    binary64.round (binary64.round (binary64.round x / 1000000) * scale) < 2 ^ 63 - tokens := by
  have hnonneg' : (0 : ℚ) ≤ tokens := by exact_mod_cast hnonneg
  have hcap' : (tokens : ℚ) ≤ 2 ^ 40 := by exact_mod_cast hcap
  have hlow : (productBound tokens).Admits (2 ^ (62 : ℤ)) := by
    have hvalue : binary64.round (binary64.round ((2 : ℚ) ^ (62 : ℤ) / 1000000) * scale) =
        2 ^ 62 := by decide +kernel
    rw [admits_productBound hnonneg hcap (by positivity), hvalue]
    linarith
  have hhigh : ¬(productBound tokens).Admits (2 ^ (63 : ℤ)) := by
    have hvalue : binary64.round (binary64.round ((2 : ℚ) ^ (63 : ℤ) / 1000000) * scale) =
        2 ^ 63 := by decide +kernel
    rw [admits_productBound hnonneg hcap (by positivity), hvalue]
    linarith
  rw [creditBound, admits_round binary64 (by decide) (by decide) hlow hhigh hx,
    admits_productBound hnonneg hcap (binary64.round_nonneg hx)]

end Bound

/-- The three roundings move it by two thousand at most. -/
theorem creditBound_near (tokens : ℤ) :
    |(creditBound tokens).limit - (2 ^ 63 - tokens)| ≤ 2001 := by
  have hsum := abs_le.mp (abs_limit_pull_sub_le (sumBound tokens) 10)
  have hquotient := abs_le.mp (abs_limit_pull_sub_le (quotientBound tokens) (-9))
  have hproduct := abs_le.mp (abs_limit_pull_sub_le (productBound tokens) 10)
  have hlimit : (sumBound tokens).limit = 2 ^ 63 - tokens := rfl
  have hdiv : (quotientBound tokens).limit = ((sumBound tokens).pull 10).limit / 1000000 := rfl
  have hmul : (productBound tokens).limit =
      ((quotientBound tokens).pull (-9)).limit * 1000000 := rfl
  rw [hlimit] at hsum
  rw [hdiv] at hquotient
  rw [hmul] at hproduct
  rw [creditBound, abs_le]
  norm_num at hsum hquotient hproduct ⊢
  constructor <;> linarith

/-! ### What Is Accepted -/

theorem truncate_lt_iff {n : ℤ} (hv : 0 ≤ v) : truncate v < n ↔ v < n := by
  rw [truncate_eq_floor hv, Int.floor_lt]

/-- A burst of a million tokens or less fits. -/
theorem toFixed64_burst (hnonneg : 0 ≤ v) (hle : v ≤ 1000000) :
    ∃ cap, toFixed64 binary64.round v = some cap ∧ cap ≤ 2 ^ 40 := by
  have hrounded : binary64.round (v * scale) ≤ 2 ^ (40 : ℤ) := by
    apply binary64.round_le_zpow (by decide) (scaled_nonneg hnonneg)
    norm_num [scale]
    linarith
  have hround : 0 ≤ binary64.round (v * scale) := binary64.round_nonneg (scaled_nonneg hnonneg)
  have hcap : truncate (binary64.round (v * scale)) ≤ 2 ^ 40 := by
    have hcast : (truncate (binary64.round (v * scale)) : ℚ) ≤ ((2 ^ 40 : ℤ) : ℚ) := by
      push_cast
      exact (truncate_le hround).trans (by exact_mod_cast hrounded)
    exact_mod_cast hcast
  have hlow := truncate_nonneg hround
  exact ⟨_, int64_eq_some.mpr ⟨by omega, rfl⟩, hcap⟩

theorem toFixed64_cap (hburst : P.burst ≤ 1000000) :
    toFixed64 binary64.round P.burst = some P.binary64.cap ∧ P.binary64.cap ≤ 2 ^ 40 := by
  obtain ⟨cap, hmax, hle⟩ := toFixed64_burst P.burst_nonneg hburst
  obtain ⟨-, hcap⟩ := int64_eq_some.mp hmax
  obtain rfl : P.binary64.cap = cap := hcap
  exact ⟨hmax, hle⟩

/-- What the arithmetic comes to: the credit and the tokens have to fit. -/
theorem refill64_isSome_iff_lt {round : ℚ → ℚ} {cap n : ℤ}
    (hcredit : truncate (credit round P.rate (now - b.lastRefill)) = n) (hn : 0 ≤ n)
    (hmax : toFixed64 round P.burst = some cap) (hnonneg : 0 ≤ b.tokens)
    (hfew : b.tokens < 2 ^ 63) (hprev : 0 ≤ b.lastRefill) (hlt : b.lastRefill < now)
    (hnow : now < 2 ^ 63) : (refill64 round P b now).isSome ↔ n + b.tokens < 2 ^ 63 := by
  have helapsed : int64 (now - b.lastRefill) = some (now - b.lastRefill) :=
    int64_eq_some.mpr ⟨by omega, rfl⟩
  have hconvert : convert (credit round P.rate (now - b.lastRefill)) = int64 n := by
    rw [convert, hcredit]
  simp only [refill64, helapsed, hconvert, hmax, Option.bind_eq_bind, Option.bind_some]
  rw [if_neg (by omega)]
  by_cases hfits : n < 2 ^ 63
  · rw [int64_eq_some.mpr ⟨⟨by omega, hfits⟩, rfl⟩, Option.bind_some]
    split
    · next hzero => exact ⟨fun _ => by omega, fun _ => rfl⟩
    · rw [Option.isSome_bind, ← int64_of_nonneg (by omega), add_comm]
      cases int64 (b.tokens + n) <;> rfl
  · have hnone : int64 n = none := by
      rw [← Option.not_isSome_iff_eq_none, int64_of_nonneg hn]
      exact hfits
    rw [hnone, Option.bind_none]
    exact ⟨nofun, fun h => absurd h (by omega)⟩

theorem refill64_isSome (P : Params) (hburst : P.burst ≤ 1000000) (hnonneg : 0 ≤ b.tokens)
    (hcap : ∃ cap, toFixed64 binary64.round P.burst = some cap ∧ b.tokens ≤ cap)
    (hprev : 0 ≤ b.lastRefill) (hlt : b.lastRefill < now) (hnow : now < 2 ^ 63) :
    (refill64 binary64.round P b now).isSome ↔
      (creditBound b.tokens).Admits (P.rate * binary64.round ((now - b.lastRefill : ℤ) : ℚ)) := by
  obtain ⟨cap, hmax, hle⟩ := hcap
  obtain ⟨cap', hmax', hle'⟩ := toFixed64_burst P.burst_nonneg hburst
  obtain rfl : cap = cap' := Option.some.inj (hmax.symm.trans hmax')
  have hfew : b.tokens ≤ 2 ^ 40 := hle.trans hle'
  have helapsed : 0 ≤ now - b.lastRefill := by omega
  have hcredit := credit_nonneg P.rate_nonneg helapsed
  have hrounded : 0 ≤ binary64.round ((now - b.lastRefill : ℤ) : ℚ) :=
    binary64.round_nonneg (by exact_mod_cast helapsed)
  rw [refill64_isSome_iff_lt rfl (truncate_nonneg hcredit) hmax hnonneg (by omega) hprev hlt hnow,
    ← lt_sub_iff_add_lt, truncate_lt_iff hcredit,
    admits_creditBound hnonneg hfew (mul_nonneg P.rate_nonneg hrounded), credit]
  push_cast
  exact Iff.rfl

/-- The same, also where no time has passed. -/
theorem refill64_isSome_of_le (P : Params) (hburst : P.burst ≤ 1000000) (hnonneg : 0 ≤ b.tokens)
    (hcap : b.tokens ≤ P.binary64.cap) (hprev : 0 ≤ b.lastRefill) (hle : b.lastRefill ≤ now)
    (hnow : now < 2 ^ 63) :
    (refill64 binary64.round P b now).isSome ↔
      (creditBound b.tokens).Admits (P.rate * binary64.round ((now - b.lastRefill : ℤ) : ℚ)) := by
  obtain ⟨hmax, hfew⟩ := toFixed64_cap hburst
  rcases hle.eq_or_lt with rfl | hlt
  · have hsome : refill64 binary64.round P b b.lastRefill = some b := by
      simp [refill64, int64]
    rw [hsome]
    refine iff_of_true rfl (.inl ?_)
    have hnear := (abs_le.mp (creditBound_near b.tokens)).1
    have htokens : (b.tokens : ℚ) ≤ 2 ^ 40 := by exact_mod_cast hcap.trans hfew
    rw [sub_self, Int.cast_zero, Format.round_zero, mul_zero]
    norm_num at htokens hnear ⊢
    linarith
  · exact refill64_isSome P hburst hnonneg ⟨_, hmax, hcap⟩ hprev hlt hnow

/-- Up to `2 ^ 43` microseconds, more than a hundred days, every accepted rate
  is within the bound. -/
theorem refill64_days (P : Params) (hrate : P.rate ≤ 1000000) (hburst : P.burst ≤ 1000000)
    (hnonneg : 0 ≤ b.tokens)
    (hcap : ∃ cap, toFixed64 binary64.round P.burst = some cap ∧ b.tokens ≤ cap)
    (hprev : 0 ≤ b.lastRefill) (hlt : b.lastRefill < now) (hnow : now < 2 ^ 63)
    (hdays : now - b.lastRefill ≤ 2 ^ 43) : (refill64 binary64.round P b now).isSome := by
  rw [refill64_isSome P hburst hnonneg hcap hprev hlt hnow]
  obtain ⟨cap, hmax, hle⟩ := hcap
  obtain ⟨cap', hmax', hle'⟩ := toFixed64_burst P.burst_nonneg hburst
  obtain rfl : cap = cap' := Option.some.inj (hmax.symm.trans hmax')
  have hfew : (b.tokens : ℚ) ≤ 2 ^ 40 := by exact_mod_cast hle.trans hle'
  have helapsed : (0 : ℚ) ≤ ((now - b.lastRefill : ℤ) : ℚ) := by
    exact_mod_cast (show 0 ≤ now - b.lastRefill by omega)
  have hshort : binary64.round ((now - b.lastRefill : ℤ) : ℚ) ≤ 2 ^ (43 : ℤ) :=
    binary64.round_le_zpow (by decide) helapsed (by exact_mod_cast hdays)
  have hproduct : P.rate * binary64.round ((now - b.lastRefill : ℤ) : ℚ) ≤
      1000000 * 2 ^ (43 : ℤ) :=
    mul_le_mul hrate hshort (binary64.round_nonneg helapsed) (by norm_num)
  have hnear := (abs_le.mp (creditBound_near b.tokens)).1
  left
  norm_num at hproduct hfew hnear ⊢
  linarith

/-- **The arithmetic of `refill`** is in range if and only if the product of
  rate and time is within the bound. -/
theorem configured_refill64_iff {file : Option Json} {cfg : Config}
    (hload : loadConfig file = some cfg) (hnonneg : 0 ≤ b.tokens)
    (hcap : ∃ cap, toFixed64 binary64.round cfg.llmRateBurst = some cap ∧ b.tokens ≤ cap)
    (hprev : 0 ≤ b.lastRefill) (hlt : b.lastRefill < now) (hnow : now < 2 ^ 63) :
    (refill64 binary64.round (Config.loadConfig_valid hload).rateLimiter b now).isSome ↔
      (creditBound b.tokens).Admits
        (cfg.llmRateLimit * binary64.round ((now - b.lastRefill : ℤ) : ℚ)) :=
  refill64_isSome _ (Config.loadConfig_valid hload).llmRateBurst.2 hnonneg hcap hprev hlt hnow

/-- The defaults, after a day. -/
theorem default_day :
    (refill64 binary64.round (@Config.loadConfig_valid none {} rfl).rateLimiter ⟨0, 0⟩
      86400000000).isSome :=
  (@configured_refill64_iff ⟨0, 0⟩ 86400000000 none {} rfl (by decide)
    ⟨10000000, toFixed64_of_eq (by norm_num [scale]) (by decide), by decide⟩ (by decide)
    (by decide) (by decide)).mpr <| .inl <| by
      have hround : binary64.round ((86400000000 - 0 : ℤ) : ℚ) = (86400000000 - 0 : ℤ) :=
        binary64.round_intCast (by decide) (by decide)
      have hnear := (abs_le.mp (creditBound_near 0)).1
      rw [hround]
      norm_num at hnear ⊢
      linarith

/-- `{"llm_rate_limit": 1000000.0}`. -/
def fastRate : Json := .object [("llm_rate_limit", .float 1000000)]

/-- The highest rate, with a full bucket, after four months: the credit does
  not fit. -/
theorem fastRate_overflows :
    ¬ ∀ (file : Option Json) (cfg : Config) (hload : loadConfig file = some cfg) (b : Atomics)
      (now : ℤ), 0 ≤ b.tokens →
      (∃ cap, toFixed64 binary64.round cfg.llmRateBurst = some cap ∧ b.tokens ≤ cap) →
      0 ≤ b.lastRefill → b.lastRefill < now → now < 2 ^ 63 →
      (refill64 binary64.round (Config.loadConfig_valid hload).rateLimiter b now).isSome := by
  intro hall
  have hload : loadConfig (some fastRate) = some { llmRateLimit := 1000000 } :=
    Config.loadConfig_of_valid rfl { Config.default_valid with llmRateLimit := by norm_num }
  have hmax : toFixed64 binary64.round 10 = some 10000000 :=
    toFixed64_of_eq (by norm_num [scale]) (by decide)
  have hsome := hall _ _ hload ⟨10000000, 0⟩ 10000000000000 (by decide) ⟨_, hmax, le_rfl⟩
    (by decide) (by decide) (by decide)
  have hcredit : truncate (credit binary64.round 1000000 (10000000000000 - 0)) =
      10000000000000000000 := by
    -- every value on the way is a number of the format
    have hmicros : binary64.round (10000000000000 : ℚ) = 10000000000000 := by
      exact_mod_cast @Format.round_intCast ℚ _ _ _ _ binary64 10000000000000 (by decide) (by decide)
    have hmillionths : binary64.round (10000000000000000000 : ℚ) = 10000000000000000000 := by
      have hself := @Format.round_eq_self ℚ _ _ _ _ binary64 19 19073486328125 (by decide)
        (by decide)
      norm_num at hself
      exact hself
    have helapsed : ((10000000000000 - 0 : ℤ) : ℚ) = 10000000000000 := by norm_num
    have hproduct : (1000000 : ℚ) * 10000000000000 = 10000000000000000000 := by norm_num
    have hquotient : (10000000000000000000 : ℚ) / 1000000 = 10000000000000 := by norm_num
    have hscaled : (10000000000000 : ℚ) * scale = 10000000000000000000 := by norm_num [scale]
    rw [credit, helapsed, hmicros, hproduct, hmillionths, hquotient, hmicros, hscaled, hmillionths]
    rfl
  have hlt := (refill64_isSome_iff_lt (P := (Config.loadConfig_valid hload).rateLimiter)
    (b := ⟨10000000, 0⟩) hcredit (by decide) hmax (by decide) (by decide) (by decide) (by decide)
    (by decide)).mp hsome
  exact absurd hlt (by decide)

end RateLimiter

end Forge
