import Forge.Core.RateLimiterRefill

/-! # The Token Bucket — As It Is Configured

  A `RateLimiter` built from what `load_config` (`utils/config.cpp`)
  accepts, with the one request `ThrottledLLMClient::complete` makes of it
  (`llm/throttled_llm_client.h`): one token. The arithmetic is that of
  `double` and `int64_t`:

  - `acquire64`: the polling of `acquire` (`core/rate_limiter.h`), alone;
  - `Served`, `Returns`: one token can be had again, after some time and by
    every polling;
  - `one_le_cap_iff`, `one_le_newTokens_iff`: when a token fits into the
    bucket, and when a poll adds anything;
  - `returns_of_rate`, `acquire64_starves`: every polling ends, or one does
    not;
  - `always_served_iff`: both conditions are needed, and enough.
-/

namespace Forge

open LTS

namespace RateLimiter

open Rounding

/-! ### Acquiring One Token -/

/-- `try_acquire(amount)`, at the time `now`. -/
def tryAcquire64 (P : Params) (b : Atomics) (now : ℤ) (amount : ℚ≥0) : Option (Bool × Atomics) := do
  let now ← int64 now
  let b ← refill64 binary64.round P b now
  let needed ← toFixed64 binary64.round amount
  some (take b needed)

/-- `acquire(amount)`: `try_acquire`, at the time `now` and after each of
    the sleeps, until it returns true. -/
def acquire64 (P : Params) (b : Atomics) (now : ℤ) (amount : ℚ≥0) :
    List ℕ → Option (Bool × Atomics)
  | [] => tryAcquire64 P b now amount
  | sleep :: sleeps =>
      match tryAcquire64 P b now amount with
      | none => none
      | some (true, b') => some (true, b')
      | some (false, b') => acquire64 P b' (now + sleep) amount sleeps

/-- After some time one `try_acquire(1)` that is alone stays in range and
    returns, with true and in no other way. -/
def Served (P : Params) (s : State) : Prop :=
  ∃ elapsed : ℕ, (tryAcquire64 P s.atomics (s.clock + elapsed) 1).isSome ∧
    (∃ (weaks : List Bool) (s' : State), System.exec (next P.binary64) s
        (.tick elapsed :: .call 1 :: weaks.map (.step s.calls.length)) = some s' ∧
      s'.calls[s.calls.length]? = some ⟨1, .done true⟩) ∧
    ∀ (weaks : List Bool) (s' : State) (r : Bool), System.exec (next P.binary64) s
        (.tick elapsed :: .call 1 :: weaks.map (.step s.calls.length)) = some s' →
      s'.calls[s.calls.length]? = some ⟨1, .done r⟩ → r = true

/-- `acquire(1)` returns, whatever its sleeps are: `sleep_for` takes the
    hundred microseconds it is told, or more, up to twelve days here. -/
def Returns (P : Params) (s : State) : Prop :=
  ∀ sleeps : ℕ → ℕ, (∀ n, 100 ≤ sleeps n ∧ sleeps n ≤ 2 ^ 40) →
    ∃ n b', acquire64 P s.atomics s.clock 1 ((List.range n).map sleeps) = some (true, b')

/-- The clock is not near the end of its range, and neither is the credit of
    a refill at this moment. -/
def InTime (P : Params) (s : State) : Prop :=
  s.clock ≤ 2 ^ 62 ∧
    (creditBound s.tokens).Admits (P.rate * binary64.round ((s.clock - s.lastRefill : ℤ) : ℚ))

/-- What the invariant says of the atomics, when time began at zero. -/
structure InRange (P : Params) (b : Atomics) (now : ℤ) : Prop where
  tokens_nonneg : 0 ≤ b.tokens
  tokens_le : b.tokens ≤ P.binary64.cap
  lastRefill_nonneg : 0 ≤ b.lastRefill
  lastRefill_le : b.lastRefill ≤ now

variable {P : Params} {s : State} {b b' : Atomics} {now : ℤ}

theorem InRange.later (hb : InRange P b now) (elapsed : ℕ) : InRange P b (now + elapsed) :=
  ⟨hb.tokens_nonneg, hb.tokens_le, hb.lastRefill_nonneg,
    by have hle := hb.lastRefill_le; omega⟩

theorem needed_one : P.binary64.needed 1 = 1000000 := by
  have htoken : ((1 : ℚ≥0) : ℚ) * scale = ((1000000 : ℤ) : ℚ) := by norm_num [scale]
  have hround : binary64.round ((1000000 : ℤ) : ℚ) = ((1000000 : ℤ) : ℚ) :=
    binary64.round_intCast (by decide) (by decide)
  show truncate (binary64.round (((1 : ℚ≥0) : ℚ) * scale)) = 1000000
  rw [htoken, hround]
  rfl

theorem refill_inRange (hb : InRange P b now) : InRange P (refill P.binary64 b now) now := by
  have hnew : 0 ≤ P.binary64.newTokens (now - b.lastRefill) :=
    newTokens_nonneg (sub_nonneg.mpr hb.lastRefill_le)
  rw [refill_eq hb.lastRefill_le hb.tokens_le]
  exact ⟨le_min (add_nonneg hb.tokens_nonneg hnew) P.binary64.cap_nonneg, min_le_right _ _,
    hb.lastRefill_nonneg.trans hb.lastRefill_le, le_rfl⟩

/-- `try_acquire(1)` succeeds if the refilled bucket holds a token, and
    else leaves it as it is. -/
theorem tryAcquire_one (P : Params) (b : Atomics) (now : ℤ) :
    ((refill P.binary64 b now).tokens < 1000000 ∧
      tryAcquire P.binary64 b now 1 = (false, refill P.binary64 b now)) ∨
    (1000000 ≤ (refill P.binary64 b now).tokens ∧ (tryAcquire P.binary64 b now 1).1 = true) := by
  unfold tryAcquire take
  rw [needed_one]
  split
  · next hfew => exact .inl ⟨hfew, rfl⟩
  · next hsome => exact .inr ⟨not_lt.mp hsome, rfl⟩

/-- What is in range is what `tryAcquire` computes. -/
theorem tryAcquire64_eq {r : Bool × Atomics} (h : tryAcquire64 P b now 1 = some r) :
    tryAcquire P.binary64 b now 1 = r := by
  unfold tryAcquire64 at h
  obtain ⟨now', hnow, h⟩ := Option.bind_eq_some_iff.mp h
  obtain ⟨-, rfl⟩ := int64_eq_some.mp hnow
  obtain ⟨b', hb', h⟩ := Option.bind_eq_some_iff.mp h
  obtain ⟨needed, hneeded, h⟩ := Option.bind_eq_some_iff.mp h
  obtain ⟨-, hvalue⟩ := int64_eq_some.mp hneeded
  obtain rfl : P.binary64.needed 1 = needed := hvalue
  rw [tryAcquire, refill64_binary64 hb']
  exact Option.some.inj h

theorem tryAcquire64_of_refill (hlow : -2 ^ 63 ≤ now) (hnow : now < 2 ^ 63)
    (h : (refill64 binary64.round P b now).isSome) :
    tryAcquire64 P b now 1 = some (tryAcquire P.binary64 b now 1) := by
  obtain ⟨b', hb'⟩ := Option.isSome_iff_exists.mp h
  have hone : toFixed64 binary64.round ((1 : ℚ≥0) : ℚ) = some 1000000 :=
    toFixed64_of_eq (by norm_num [scale]) (by decide)
  rw [tryAcquire64, int64_eq_some.mpr ⟨⟨hlow, hnow⟩, rfl⟩]
  simp only [Option.bind_eq_bind, Option.bind_some, hb', hone]
  rw [tryAcquire, refill64_binary64 hb', needed_one]

/-! ### Thresholds -/

/-- The least burst that a token fits into: `double` rounds it up to one. -/
def leastBurst : ℚ := 1 - 1 / (2 ^ 34 * 1000000)

/-- The highest rate at which a hundred microseconds give nothing. -/
def starvingRate : ℚ := (1 - 3 / 2 ^ 54) / 100

/-- One token fits into the bucket. -/
theorem one_le_cap_iff : 1000000 ≤ P.binary64.cap ↔ leastBurst ≤ P.burst := by
  have hscaled : 0 ≤ P.burst * scale := scaled_nonneg P.burst_nonneg
  have hcap : P.binary64.cap < 1000000 ↔ binary64.round (P.burst * scale) < 1000000 := by
    have hiff := truncate_lt_iff (n := 1000000) (binary64.round_nonneg hscaled)
    exact_mod_cast hiff
  let bound : Bound ℚ := ⟨1000000, false⟩
  have hround : (bound.pull (-33)).Admits (P.burst * scale) ↔
      bound.Admits (binary64.round (P.burst * scale)) :=
    admits_round (k := 19) binary64 (by decide) (by decide) (.inl (by norm_num [bound]))
      (by norm_num [bound, Bound.Admits]) hscaled
  have hpull : bound.pull (-33) = ⟨1000000 - 1 / 2 ^ 34, false⟩ := by
    have hodd : Odd (8589934591999999 : ℤ) := ⟨4294967295999999, by norm_num⟩
    norm_num [bound, Bound.pull, Bound.half, Bound.div, Bound.greatest, Bound.mul, hodd]
  have hstrict : ∀ limit x : ℚ, (⟨limit, false⟩ : Bound ℚ).Admits x ↔ x < limit := by
    simp [Bound.Admits]
  rw [hpull, hstrict, hstrict] at hround
  rw [← not_lt, hcap, ← hround, not_lt, leastBurst, scale]
  constructor <;> intro h <;> linarith

/-- A refill after a hundred microseconds adds something. -/
theorem one_le_newTokens_iff : 1 ≤ P.binary64.newTokens 100 ↔ starvingRate < P.rate := by
  have hhundred : binary64.round ((100 : ℤ) : ℚ) = 100 :=
    binary64.round_intCast (by decide) (by decide)
  have hproduct : 0 ≤ P.rate * 100 := mul_nonneg P.rate_nonneg (by norm_num)
  have hp := binary64.round_nonneg hproduct
  have hquotient : 0 ≤ binary64.round (P.rate * 100) / 1000000 := div_nonneg hp (by norm_num)
  have hq := binary64.round_nonneg hquotient
  have hnew : P.binary64.newTokens 100 < 1 ↔ credit binary64.round P.rate 100 < 1 := by
    have hiff := truncate_lt_iff (n := 1) (credit_nonneg P.rate_nonneg (by decide : (0 : ℤ) ≤ 100))
    exact_mod_cast hiff
  -- the bound is taken back through the three roundings
  let bound : Bound ℚ := ⟨1, false⟩
  let quotient : Bound ℚ := (bound.pull (-53)).div scale
  let product : Bound ℚ := (quotient.pull (-72)).mul 1000000
  have hcredit : (bound.pull (-53)).Admits
      (binary64.round (binary64.round (P.rate * 100) / 1000000) * scale) ↔
      bound.Admits (credit binary64.round P.rate 100) := by
    rw [credit, hhundred]
    exact admits_round (k := -1) binary64 (by decide) (by decide) (by decide +kernel)
      (by decide +kernel) (scaled_nonneg hq)
  have hquot : (quotient.pull (-72)).Admits (binary64.round (P.rate * 100) / 1000000) ↔
      quotient.Admits (binary64.round (binary64.round (P.rate * 100) / 1000000)) :=
    admits_round (k := -20) binary64 (by decide) (by decide) (by decide +kernel)
      (by decide +kernel) hquotient
  have hprod : (product.pull (-53)).Admits (P.rate * 100) ↔
      product.Admits (binary64.round (P.rate * 100)) :=
    admits_round (k := -1) binary64 (by decide) (by decide) (by decide +kernel)
      (by decide +kernel) hproduct
  have hscale : (0 : ℚ) < scale := by norm_num [scale]
  rw [Bound.admits_mul (by norm_num), hquot, Bound.admits_div hscale, hcredit] at hprod
  have hpull : product.pull (-53) = ⟨1 - 3 / 2 ^ 54, true⟩ := by decide +kernel
  have hstrict : bound.Admits (credit binary64.round P.rate 100) ↔
      credit binary64.round P.rate 100 < 1 := by
    simp [bound, Bound.Admits]
  have hinclusive : (⟨1 - 3 / 2 ^ 54, true⟩ : Bound ℚ).Admits (P.rate * 100) ↔
      P.rate * 100 ≤ 1 - 3 / 2 ^ 54 := by
    rw [le_iff_lt_or_eq]
    simp [Bound.Admits]
  rw [hpull, hstrict, hinclusive, ← hnew] at hprod
  rw [← not_lt, ← hprod, not_le, starvingRate]
  constructor <;> intro h <;> linarith

/-- More time, or a higher rate, gives no less. -/
theorem credit_mono {rate rate' : ℚ} {elapsed elapsed' : ℤ} (hrate : 0 ≤ rate)
    (hrates : rate ≤ rate') (helapsed : 0 ≤ elapsed) (hlonger : elapsed ≤ elapsed') :
    credit binary64.round rate elapsed ≤ credit binary64.round rate' elapsed' := by
  have htime : (0 : ℚ) ≤ (elapsed : ℚ) := by exact_mod_cast helapsed
  have hround : binary64.round (elapsed : ℚ) ≤ binary64.round (elapsed' : ℚ) :=
    binary64.round_mono htime (by exact_mod_cast hlonger)
  have hproduct := mul_le_mul hrates hround (binary64.round_nonneg htime) (hrate.trans hrates)
  have hp := mul_nonneg hrate (binary64.round_nonneg htime)
  have hquotient := div_le_div_of_nonneg_right (binary64.round_mono hp hproduct)
    (by norm_num : (0 : ℚ) ≤ 1000000)
  have hq := div_nonneg (binary64.round_nonneg hp) (by norm_num : (0 : ℚ) ≤ 1000000)
  refine binary64.round_mono (scaled_nonneg (binary64.round_nonneg hq)) ?_
  exact mul_le_mul_of_nonneg_right (binary64.round_mono hq hquotient) (by norm_num [scale])

theorem newTokens_mono {elapsed elapsed' : ℤ} (helapsed : 0 ≤ elapsed)
    (hlonger : elapsed ≤ elapsed') :
    P.binary64.newTokens elapsed ≤ P.binary64.newTokens elapsed' := by
  rw [newTokens_eq helapsed, newTokens_eq (helapsed.trans hlonger)]
  exact Int.floor_mono (credit_mono P.rate_nonneg le_rfl helapsed hlonger)

/-- Above the starving rate, two hundred seconds give a token. -/
theorem token_le_newTokens {elapsed : ℤ} (hrate : starvingRate < P.rate)
    (hlong : 200000000 ≤ elapsed) : 1000000 ≤ P.binary64.newTokens elapsed := by
  have hrate' : (2 : ℚ) ^ (-7 : ℤ) ≤ P.rate :=
    le_trans (by norm_num [starvingRate]) hrate.le
  have hlong' : (2 : ℚ) ^ (27 : ℤ) ≤ elapsed := by
    have hcast : (200000000 : ℚ) ≤ elapsed := by exact_mod_cast hlong
    exact le_trans (by norm_num) hcast
  -- powers of two below what is rounded are below the result
  have hmicros : (2 : ℚ) ^ (27 : ℤ) ≤ binary64.round (elapsed : ℚ) :=
    binary64.zpow_le_round (by decide) hlong'
  have hproduct : (2 : ℚ) ^ (20 : ℤ) ≤ binary64.round (P.rate * binary64.round (elapsed : ℚ)) := by
    refine binary64.zpow_le_round (by decide) ?_
    calc (2 : ℚ) ^ (20 : ℤ) = 2 ^ (-7 : ℤ) * 2 ^ (27 : ℤ) := by norm_num
      _ ≤ P.rate * binary64.round (elapsed : ℚ) :=
        mul_le_mul hrate' hmicros (by norm_num) P.rate_nonneg
  have hquotient : (2 : ℚ) ^ (0 : ℤ) ≤
      binary64.round (binary64.round (P.rate * binary64.round (elapsed : ℚ)) / 1000000) := by
    refine binary64.zpow_le_round (by decide) ?_
    rw [le_div_iff₀ (by norm_num)]
    exact le_trans (by norm_num) hproduct
  have hcredit : ((1000000 : ℤ) : ℚ) ≤ credit binary64.round P.rate elapsed := by
    have hself : binary64.round ((1000000 : ℤ) : ℚ) = ((1000000 : ℤ) : ℚ) :=
      binary64.round_intCast (by decide) (by decide)
    rw [credit, ← hself]
    refine binary64.round_mono (by norm_num) ?_
    rw [zpow_zero] at hquotient
    rw [scale]
    push_cast
    linarith
  rw [newTokens_eq (by omega)]
  exact Int.le_floor.mpr hcredit

/-! ### Served -/

theorem tryAcquire64_isSome (h : (tryAcquire64 P b now 1).isSome) :
    (refill64 binary64.round P b now).isSome := by
  obtain ⟨r, hr⟩ := Option.isSome_iff_exists.mp h
  unfold tryAcquire64 at hr
  obtain ⟨now', hnow, hr⟩ := Option.bind_eq_some_iff.mp hr
  obtain ⟨-, rfl⟩ := int64_eq_some.mp hnow
  obtain ⟨b', hb', -⟩ := Option.bind_eq_some_iff.mp hr
  exact Option.isSome_iff_exists.mpr ⟨b', hb'⟩

/-- `Served` in terms of `tryAcquire64`. -/
theorem served_iff : Served P s ↔ ∃ (elapsed : ℕ) (b' : Atomics),
    tryAcquire64 P s.atomics (s.clock + elapsed) 1 = some (true, b') := by
  constructor
  · rintro ⟨elapsed, hsome, ⟨weaks, s', hexec, hdone⟩, -⟩
    obtain ⟨⟨r, b'⟩, hr⟩ := Option.isSome_iff_exists.mp hsome
    have hresult := @alone_result P.binary64 { s with clock := s.clock + elapsed } 1 weaks s' true
      hexec hdone
    obtain rfl : true = r := hresult.trans (congrArg Prod.fst (tryAcquire64_eq hr))
    exact ⟨elapsed, b', hr⟩
  · rintro ⟨elapsed, b', hr⟩
    have hok : (tryAcquire P.binary64 s.atomics (s.clock + elapsed) 1).1 = true :=
      congrArg Prod.fst (tryAcquire64_eq hr)
    refine ⟨elapsed, Option.isSome_iff_exists.mpr ⟨_, hr⟩, ?_, ?_⟩
    · obtain ⟨k, s', hexec, hcalls, -, -⟩ :=
        alone_returns P.binary64 { s with clock := s.clock + elapsed } 1
      refine ⟨List.replicate k false, alone s' 1 (.done true), ?_, ?_⟩
      · rw [List.map_replicate]
        exact hexec.trans (congrArg (fun r => some (alone s' 1 (.done r))) hok)
      · have hget := alone_get s' 1 (.done true)
        rwa [hcalls] at hget
    · intro weaks s' r hexec hdone
      exact (@alone_result P.binary64 { s with clock := s.clock + elapsed } 1 weaks s' r hexec
        hdone).trans hok

theorem reachable_inRange {start : ℤ} (hstart : 0 ≤ start)
    (hs : (system P.binary64 start).Reachable s) : InRange P s.atomics s.clock := by
  obtain ⟨tr, hrun⟩ := hs
  have hinv : Inv P.binary64 s ∧ 0 ≤ s.lastRefill := by
    refine hrun.invariant (P := fun s => Inv P.binary64 s ∧ 0 ≤ s.lastRefill) ?_ ?_
    · rintro s rfl
      exact ⟨inv_initial P.binary64 start, hstart⟩
    · intro s l s' hi hstep
      have hmoves := moves_of_next hstep
      exact ⟨hi.1.step hmoves, hi.2.trans (hi.1.lastRefill_mono hmoves)⟩
  exact ⟨hinv.1.tokens_nonneg, hinv.1.tokens_le, hinv.2, hinv.1.lastRefill_le⟩

/-- Where a token does not fit, none is ever had. -/
theorem tryAcquire_false (hb : InRange P b now) (hburst : ¬leastBurst ≤ P.burst) :
    (tryAcquire P.binary64 b now 1).1 = false := by
  have hcap := (refill_inRange hb).tokens_le
  have hnoroom := mt one_le_cap_iff.mp hburst
  obtain ⟨-, hfail⟩ | ⟨henough, -⟩ := tryAcquire_one P b now
  · rw [hfail]
  · omega

/-- What a poll does, in range. -/
theorem tryAcquire64_cases (hb : InRange P b now) (hnow : now < 2 ^ 63)
    (h : (refill64 binary64.round P b now).isSome) :
    (min (b.tokens + P.binary64.newTokens (now - b.lastRefill)) P.binary64.cap < 1000000 ∧
      tryAcquire64 P b now 1 = some (false,
        ⟨min (b.tokens + P.binary64.newTokens (now - b.lastRefill)) P.binary64.cap, now⟩)) ∨
    ∃ b', tryAcquire64 P b now 1 = some (true, b') := by
  have hlow := hb.lastRefill_nonneg.trans hb.lastRefill_le
  have hvalue := refill_eq hb.lastRefill_le hb.tokens_le
  rw [tryAcquire64_of_refill (by omega) hnow h]
  obtain ⟨hfew, hfail⟩ | ⟨-, hok⟩ := tryAcquire_one P b now
  · rw [hvalue] at hfew hfail
    exact .inl ⟨hfew, congrArg some hfail⟩
  · exact .inr ⟨_, congrArg some (Prod.ext hok rfl)⟩

/-- A refill that follows another within twelve days is in range. -/
theorem refill64_soon (hrate : P.rate ≤ 1000000) (hburst : P.burst ≤ 1000000)
    (hb : InRange P b now) (hlt : b.lastRefill < now) (hdays : now - b.lastRefill ≤ 2 ^ 43)
    (hnow : now < 2 ^ 63) : (refill64 binary64.round P b now).isSome :=
  refill64_days P hrate hburst hb.tokens_nonneg ⟨_, (toFixed64_cap hburst).1, hb.tokens_le⟩
    hb.lastRefill_nonneg hlt hnow hdays

/-- **A token can be had again**: now, or in two hundred seconds. -/
theorem served_of_rate (hb : InRange P s.atomics s.clock) (htime : InTime P s)
    (hrateMax : P.rate ≤ 1000000) (hburstMax : P.burst ≤ 1000000)
    (hburst : leastBurst ≤ P.burst) (hrate : starvingRate < P.rate) : Served P s := by
  obtain ⟨hclock, hcredit⟩ := htime
  have hcap := one_le_cap_iff.mpr hburst
  have htokens := hb.tokens_nonneg
  have hlast := hb.lastRefill_le
  -- enough time has passed, or will have, and the credit for it is in range
  obtain ⟨elapsed, hlong, hnow, hsome⟩ : ∃ elapsed : ℕ,
      200000000 ≤ s.clock + elapsed - s.atomics.lastRefill ∧ s.clock + elapsed < 2 ^ 63 ∧
      (refill64 binary64.round P s.atomics (s.clock + elapsed)).isSome := by
    by_cases hidle : 200000000 ≤ s.clock - s.atomics.lastRefill
    · refine ⟨0, by simpa using hidle, by simp only [Nat.cast_zero]; omega, ?_⟩
      rw [Nat.cast_zero, add_zero, refill64_isSome_of_le P hburstMax htokens hb.tokens_le
        hb.lastRefill_nonneg hlast (by omega)]
      exact hcredit
    · exact ⟨200000000, by push_cast; omega, by push_cast; omega,
        refill64_soon hrateMax hburstMax (hb.later _) (by push_cast; omega) (by push_cast; omega)
          (by push_cast; omega)⟩
  obtain ⟨hfew, -⟩ | ⟨b', hok⟩ := tryAcquire64_cases (hb.later elapsed) hnow hsome
  · have hnew := token_le_newTokens hrate hlong
    omega
  · exact served_iff.mpr ⟨elapsed, b', hok⟩

/-! ### Polling -/

/-- A poll that is not the first one fails only after it has added
    something. -/
theorem poll_adds (hrateMax : P.rate ≤ 1000000) (hburstMax : P.burst ≤ 1000000)
    (hburst : leastBurst ≤ P.burst) (hrate : starvingRate < P.rate) (hb : InRange P b now)
    (hgap : b.lastRefill + 100 ≤ now) (hdays : now - b.lastRefill ≤ 2 ^ 40)
    (hnow : now < 2 ^ 63) :
    (∃ tokens, b.tokens + 1 ≤ tokens ∧ tokens < 1000000 ∧ InRange P ⟨tokens, now⟩ now ∧
      tryAcquire64 P b now 1 = some (false, ⟨tokens, now⟩)) ∨
    ∃ b', tryAcquire64 P b now 1 = some (true, b') := by
  have hcap := one_le_cap_iff.mpr hburst
  have hadds : 1 ≤ P.binary64.newTokens (now - b.lastRefill) :=
    (one_le_newTokens_iff.mpr hrate).trans (newTokens_mono (by decide) (by omega))
  have hrange := refill_inRange hb
  rw [refill_eq hb.lastRefill_le hb.tokens_le] at hrange
  obtain ⟨hfew, hfail⟩ | hok := tryAcquire64_cases hb hnow
    (refill64_soon hrateMax hburstMax hb (by omega) (by omega) hnow)
  · exact .inl ⟨_, by omega, hfew, hrange, hfail⟩
  · exact .inr hok

theorem acquire64_from {sleeps : List ℕ} (hrateMax : P.rate ≤ 1000000)
    (hburstMax : P.burst ≤ 1000000) (hburst : leastBurst ≤ P.burst) (hrate : starvingRate < P.rate)
    (hb : InRange P b now) (hgap : b.lastRefill + 100 ≤ now) (hdays : now - b.lastRefill ≤ 2 ^ 40)
    (hsleeps : ∀ d ∈ sleeps, 100 ≤ d ∧ d ≤ 2 ^ 40)
    (hmany : 1000000 ≤ b.tokens + sleeps.length + 1)
    (hclock : now + 2 ^ 40 * sleeps.length < 2 ^ 63) :
    ∃ b', acquire64 P b now 1 sleeps = some (true, b') := by
  -- by induction on the sleeps: what is missing is at most one for each poll
  induction sleeps generalizing b now with
  | nil =>
    rw [List.length_nil] at hmany
    obtain ⟨tokens, hadds, hfew, -, -⟩ | hok :=
      poll_adds hrateMax hburstMax hburst hrate hb hgap hdays (by omega)
    · omega
    · exact hok
  | cons sleep sleeps ih =>
    obtain ⟨⟨hlong, hshort⟩, hsleeps'⟩ := List.forall_mem_cons.mp hsleeps
    rw [List.length_cons] at hmany hclock
    push_cast at hmany hclock
    obtain ⟨tokens, hadds, -, hrange, hfail⟩ | ⟨b', hok⟩ :=
      poll_adds hrateMax hburstMax hburst hrate hb hgap hdays (by omega)
    · have hshort' : (sleep : ℤ) ≤ 2 ^ 40 := by exact_mod_cast hshort
      rw [acquire64, hfail]
      exact ih (hrange.later sleep) (by dsimp only; omega) (by dsimp only; omega) hsleeps'
        (by dsimp only; omega) (by omega)
    · exact ⟨b', by rw [acquire64, hok]⟩

/-- **Polling ends**: a million polls are enough. -/
theorem returns_of_rate (hb : InRange P s.atomics s.clock) (htime : InTime P s)
    (hrateMax : P.rate ≤ 1000000) (hburstMax : P.burst ≤ 1000000)
    (hburst : leastBurst ≤ P.burst) (hrate : starvingRate < P.rate) : Returns P s := by
  intro sleeps hsleeps
  obtain ⟨hclock, hcredit⟩ := htime
  have hsome := (refill64_isSome_of_le P hburstMax hb.tokens_nonneg hb.tokens_le
    hb.lastRefill_nonneg hb.lastRefill_le (by omega)).mpr hcredit
  have hrange := refill_inRange hb
  rw [refill_eq hb.lastRefill_le hb.tokens_le] at hrange
  obtain ⟨hfew, hfail⟩ | ⟨b', hok⟩ := tryAcquire64_cases hb (by omega) hsome
  · -- every poll after the first one adds something
    obtain ⟨n, hn⟩ : ∃ n, n = 999999 := ⟨_, rfl⟩
    have hfirst := (hsleeps 0).1
    have hshort : (sleeps 0 : ℤ) ≤ 2 ^ 40 := by exact_mod_cast (hsleeps 0).2
    have htokens := hrange.tokens_nonneg
    dsimp only at htokens
    refine ⟨n + 1, ?_⟩
    rw [List.range_succ_eq_map, List.map_cons, List.map_map, acquire64, hfail]
    refine acquire64_from hrateMax hburstMax hburst hrate (hrange.later _) (by dsimp only; omega)
      (by dsimp only; omega) ?_ ?_ ?_
    · simp only [List.mem_map]
      rintro d ⟨m, -, rfl⟩
      exact hsleeps _
    · rw [List.length_map, List.length_range]
      dsimp only
      omega
    · rw [List.length_map, List.length_range]
      omega
  · exact ⟨0, b', hok⟩

/-- A poll that is cut off to zero. -/
theorem poll_nothing (hb : InRange P b now) (hrate : P.rate ≤ starvingRate)
    (hwait : now ≤ b.lastRefill + 100) (hempty : b.tokens < 1000000) {r : Bool × Atomics}
    (h : tryAcquire64 P b now 1 = some r) : r = (false, ⟨b.tokens, now⟩) := by
  have hle := hb.lastRefill_le
  have hzero : P.binary64.newTokens (now - b.lastRefill) = 0 := by
    -- a hundred microseconds give nothing, and less time gives no more
    have hhundred := mt one_le_newTokens_iff.mp (not_lt.mpr hrate)
    have hmono : P.binary64.newTokens (now - b.lastRefill) ≤ P.binary64.newTokens 100 :=
      newTokens_mono (by omega) (by omega)
    have hnonneg : 0 ≤ P.binary64.newTokens (now - b.lastRefill) := newTokens_nonneg (by omega)
    omega
  have hnothing : refill P.binary64 b now = ⟨b.tokens, now⟩ := by
    rw [refill_eq hle hb.tokens_le, hzero, add_zero, min_eq_left hb.tokens_le]
  rw [← tryAcquire64_eq h]
  obtain ⟨-, hfail⟩ | ⟨henough, -⟩ := tryAcquire_one P b now
  · rw [hfail, hnothing]
  · rw [hnothing] at henough
    exact absurd henough (not_le.mpr hempty)

/-- **Polling starves**: at this rate or below a call that polls every
    hundred microseconds gets nothing, however long it goes on. -/
theorem acquire64_starves (hb : InRange P b now) (hrate : P.rate ≤ starvingRate)
    (hwait : now ≤ b.lastRefill + 100) (hempty : b.tokens < 1000000) (polls : ℕ) (b' : Atomics) :
    acquire64 P b now 1 (List.replicate polls 100) ≠ some (true, b') := by
  -- by induction on the polls: each adds nothing and moves `last_refill_` forward
  induction polls generalizing b now with
  | zero =>
    intro h
    simpa using congrArg Prod.fst (poll_nothing hb hrate hwait hempty h)
  | succ polls ih =>
    intro h
    rw [List.replicate_succ, acquire64] at h
    split at h
    · cases h
    · next hpoll => simpa using congrArg Prod.fst (poll_nothing hb hrate hwait hempty hpoll)
    · next hpoll =>
      obtain ⟨-, rfl⟩ := Prod.mk.inj (poll_nothing hb hrate hwait hempty hpoll)
      have hlow := hb.lastRefill_nonneg.trans hb.lastRefill_le
      have hrange : InRange P ⟨b.tokens, now⟩ now :=
        ⟨hb.tokens_nonneg, hb.tokens_le, hlow, le_rfl⟩
      exact ih (hrange.later 100) le_rfl hempty h

/-! ### From Every State -/

/-- Nothing is served where the credit of a refill at this moment is out of
    range: it is so at every later time too. -/
theorem admits_of_served (hb : InRange P s.atomics s.clock) (hburstMax : P.burst ≤ 1000000)
    (hserved : Served P s) : (creditBound s.tokens).Admits
      (P.rate * binary64.round ((s.clock - s.lastRefill : ℤ) : ℚ)) := by
  obtain ⟨elapsed, b', hok⟩ := served_iff.mp hserved
  have hrange := hb.later elapsed
  have hnow : s.clock + elapsed < 2 ^ 63 := by
    unfold tryAcquire64 at hok
    obtain ⟨now', hnow, -⟩ := Option.bind_eq_some_iff.mp hok
    exact (int64_eq_some.mp hnow).1.2
  have hsome := tryAcquire64_isSome (Option.isSome_iff_exists.mpr ⟨_, hok⟩)
  rw [refill64_isSome_of_le P hburstMax hb.tokens_nonneg hb.tokens_le hb.lastRefill_nonneg
    hrange.lastRefill_le hnow] at hsome
  -- the time that has passed until now is the shorter one
  have hnonneg : (0 : ℚ) ≤ ((s.clock - s.lastRefill : ℤ) : ℚ) := by
    exact_mod_cast sub_nonneg.mpr hb.lastRefill_le
  refine hsome.mono (mul_le_mul_of_nonneg_left (binary64.round_mono hnonneg ?_) P.rate_nonneg)
  exact_mod_cast (show s.clock - s.lastRefill ≤ s.clock + elapsed - s.lastRefill by omega)

/-- One call takes the whole burst. -/
theorem exists_emptied (P : Params) : ∃ s, (system P.binary64 0).Reachable s ∧
    s.clock = 0 ∧ s.tokens = 0 ∧ s.lastRefill = 0 := by
  obtain ⟨k, s', hexec, -, hclock, hatomics⟩ :=
    alone_returns P.binary64 (initial P.binary64 0) ⟨P.burst, P.burst_nonneg⟩
  have htry : tryAcquire P.binary64 (initial P.binary64 0).atomics (initial P.binary64 0).clock
      ⟨P.burst, P.burst_nonneg⟩ = (true, ⟨0, 0⟩) := by
    have hneeded : P.binary64.needed ⟨P.burst, P.burst_nonneg⟩ = P.binary64.cap := rfl
    simp [tryAcquire, take, refill, hneeded, initial, State.atomics]
  rw [htry] at hatomics
  refine ⟨_, ⟨_, System.run_of_exec hexec⟩, hclock, ?_, ?_⟩
  · exact congrArg Atomics.tokens hatomics
  · exact congrArg Atomics.lastRefill hatomics

/-- No time has passed since the last refill. -/
theorem inTime_of_eq (hburstMax : P.burst ≤ 1000000) (hb : InRange P s.atomics s.clock)
    (hlast : s.lastRefill = s.clock) (hclock : s.clock ≤ 2 ^ 62) : InTime P s := by
  refine ⟨hclock, (refill64_isSome_of_le P hburstMax hb.tokens_nonneg hb.tokens_le
    hb.lastRefill_nonneg hb.lastRefill_le (by omega)).mp ?_⟩
  have hzero : s.clock - s.atomics.lastRefill = 0 := sub_eq_zero.mpr hlast.symm
  simp [refill64, int64, hzero]

/-- **A configured limiter can always serve again** if and only if a token
    fits into its bucket and its rate gives something in a hundred
    microseconds. -/
theorem always_served_iff {file : Option Json} {cfg : Config} (hload : loadConfig file = some cfg) :
    (∀ start s, 0 ≤ start →
      (system (Config.loadConfig_valid hload).rateLimiter.binary64 start).Reachable s →
      InTime (Config.loadConfig_valid hload).rateLimiter s →
      Served (Config.loadConfig_valid hload).rateLimiter s ∧
      Returns (Config.loadConfig_valid hload).rateLimiter s) ↔
    leastBurst ≤ cfg.llmRateBurst ∧ starvingRate < cfg.llmRateLimit := by
  set P := (Config.loadConfig_valid hload).rateLimiter with hP
  have hrateMax : P.rate ≤ 1000000 := (Config.loadConfig_valid hload).llmRateLimit.2
  have hburstMax : P.burst ≤ 1000000 := (Config.loadConfig_valid hload).llmRateBurst.2
  constructor
  · intro hall
    -- from the empty bucket
    obtain ⟨s, hs, hclock, htokens, hlast⟩ := exists_emptied P
    have hrange := reachable_inRange le_rfl hs
    have htime := inTime_of_eq hburstMax hrange (hlast.trans hclock.symm) (by omega)
    obtain ⟨hserved, hreturns⟩ := hall 0 s le_rfl hs htime
    constructor
    · by_contra hburst
      obtain ⟨elapsed, b', hok⟩ := served_iff.mp hserved
      have hfalse := tryAcquire_false (hrange.later elapsed) hburst
      rw [tryAcquire64_eq hok] at hfalse
      cases hfalse
    · by_contra hrate
      obtain ⟨n, b', hok⟩ := hreturns (fun _ => 100) fun _ => by decide
      rw [List.map_const', List.length_range] at hok
      have hwait : s.clock ≤ s.atomics.lastRefill + 100 := by
        show s.clock ≤ s.lastRefill + 100
        omega
      have hempty : s.atomics.tokens < 1000000 := by
        show s.tokens < 1000000
        omega
      exact acquire64_starves hrange (not_lt.mp hrate) hwait hempty n b' hok
  · rintro ⟨hburst, hrate⟩ start s hstart hs htime
    have hrange := reachable_inRange hstart hs
    exact ⟨served_of_rate hrange htime hrateMax hburstMax hburst hrate,
      returns_of_rate hrange htime hrateMax hburstMax hburst hrate⟩

/-- With the defaults it can. -/
theorem default_served : loadConfig none = some {} ∧
    ∀ start s, 0 ≤ start →
      (system (@Config.loadConfig_valid none {} rfl).rateLimiter.binary64 start).Reachable s →
      InTime (@Config.loadConfig_valid none {} rfl).rateLimiter s →
      Served (@Config.loadConfig_valid none {} rfl).rateLimiter s ∧
      Returns (@Config.loadConfig_valid none {} rfl).rateLimiter s :=
  ⟨rfl, (@always_served_iff none {} rfl).mpr (by norm_num [leastBurst, starvingRate])⟩

/-- `{"llm_rate_burst": 0.5}`. -/
def halfBurst : Json := .object [("llm_rate_burst", .float (1 / 2))]

/-- Half a token is accepted as the burst, and no call is ever served. -/
theorem halfBurst_unserved :
    ¬ ∀ (file : Option Json) (cfg : Config) (hload : loadConfig file = some cfg) (start : ℤ)
      (s : State), 0 ≤ start →
        (system (Config.loadConfig_valid hload).rateLimiter.binary64 start).Reachable s →
        InTime (Config.loadConfig_valid hload).rateLimiter s →
        Served (Config.loadConfig_valid hload).rateLimiter s ∧
        Returns (Config.loadConfig_valid hload).rateLimiter s := by
  intro hall
  have hload : loadConfig (some halfBurst) = some { llmRateBurst := 1 / 2 } :=
    Config.loadConfig_of_valid rfl { Config.default_valid with llmRateBurst := by norm_num }
  set P := (Config.loadConfig_valid hload).rateLimiter with hP
  have hs : (system P.binary64 0).Reachable (initial P.binary64 0) := ⟨[], .start rfl⟩
  have hrange := reachable_inRange le_rfl hs
  have htime := inTime_of_eq (s := initial P.binary64 0) (P := P)
    (Config.loadConfig_valid hload).llmRateBurst.2 hrange rfl (by show (0 : ℤ) ≤ _; norm_num)
  obtain ⟨hserved, -⟩ := hall _ _ hload 0 _ le_rfl hs htime
  obtain ⟨elapsed, b', hok⟩ := served_iff.mp hserved
  have hfalse := tryAcquire_false (hrange.later elapsed) (P := P) (by
    show ¬leastBurst ≤ 1 / 2
    norm_num [leastBurst])
  rw [tryAcquire64_eq hok] at hfalse
  cases hfalse

end RateLimiter

end Forge
