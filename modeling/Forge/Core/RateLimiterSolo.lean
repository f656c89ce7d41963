import Forge.Core.RateLimiterInvariant

/-! # The Token Bucket — One Call Alone

  What `refill` and `try_acquire` (`core/rate_limiter.h`) do when no other
  call moves meanwhile, as functions on the two atomics:

  - `refill`, `tryAcquire`: the functions;
  - `rest`: what the rest of a call does, from any of its statements;
  - `rest_step`: every access of the call leaves the rest as it says,
    also when a compare-exchange fails spuriously;
  - `alone_returns`, `alone_result`: a call that runs alone returns, with
    what `tryAcquire` says.
-/

namespace Forge

open LTS

namespace RateLimiter

/-- `tokens_` and `last_refill_`. -/
structure Atomics where
  tokens : ℤ
  lastRefill : ℤ
  deriving DecidableEq

def State.atomics (s : State) : Atomics := ⟨s.tokens, s.lastRefill⟩

/-- `refill`, at the time `now`. -/
def refill (A : Arithmetic) (b : Atomics) (now : ℤ) : Atomics :=
  if now - b.lastRefill ≤ 0 then b
  else if A.newTokens (now - b.lastRefill) ≤ 0 then { b with lastRefill := now }
  else ⟨min (b.tokens + A.newTokens (now - b.lastRefill)) A.cap, now⟩

/-- The compare-exchange loop of `try_acquire`. -/
def take (b : Atomics) (needed : ℤ) : Bool × Atomics :=
  if b.tokens < needed then (false, b) else (true, { b with tokens := b.tokens - needed })

/-- `try_acquire(amount)`, at the time `now`. -/
def tryAcquire (A : Arithmetic) (b : Atomics) (now : ℤ) (amount : ℚ≥0) : Bool × Atomics :=
  take (refill A b now) (A.needed amount)

variable {A : Arithmetic} {s : State} {amount : ℚ≥0} {pc : PC} {weak : Bool}

/-! ### One More Call -/

/-- The state with one more call, which is at `pc`. -/
def alone (s : State) (amount : ℚ≥0) (pc : PC) : State :=
  { s with calls := s.calls ++ [⟨amount, pc⟩] }

@[simp] theorem alone_get (s : State) (amount : ℚ≥0) (pc : PC) :
    (alone s amount pc).calls[s.calls.length]? = some ⟨amount, pc⟩ := by
  simp [alone]

@[simp] theorem alone_setPC (s : State) (amount : ℚ≥0) (pc pc' : PC) :
    (alone s amount pc).setPC s.calls.length ⟨amount, pc⟩ pc' = alone s amount pc' := by
  simp [alone, State.setPC]

theorem next_alone : next A (alone s amount pc) (.step s.calls.length weak) =
    callStep A (alone s amount pc) s.calls.length ⟨amount, pc⟩ weak := by
  simp [next]

/-- What the call knows of the atomics while it is alone. -/
def Own (s : State) : PC → Prop
  | .loadPrev now => now = s.clock
  | .claim now prev elapsed =>
      now = s.clock ∧ prev = s.lastRefill ∧ elapsed = now - prev ∧ 0 < elapsed
  | .loadTokens _ n => 0 < n
  | .credit _ n current => 0 < n ∧ current = s.tokens
  | .take current => current = s.tokens
  | _ => True

/-- What the rest of the call does to the atomics, and what it returns. -/
def rest (A : Arithmetic) (s : State) (amount : ℚ≥0) : PC → Bool × Atomics
  | .readClock | .loadPrev _ | .claim _ _ _ => tryAcquire A s.atomics s.clock amount
  | .loadTokens _ n | .credit _ n _ =>
      take ⟨min (s.tokens + n) A.cap, s.lastRefill⟩ (A.needed amount)
  | .loadCurrent | .take _ => take s.atomics (A.needed amount)
  | .done result => (result, s.atomics)

/-- The accesses left, when no compare-exchange fails. -/
def PC.left : PC → ℕ
  | .readClock => 7
  | .loadPrev _ => 6
  | .claim _ _ _ => 5
  | .loadTokens _ _ => 4
  | .credit _ _ _ => 3
  | .loadCurrent => 2
  | .take _ => 1
  | .done _ => 0

/-- The window after the last refill is claimed, or there is none. -/
theorem attempt_own : Own s (attempt s.clock s.lastRefill) ∧
    rest A s amount (attempt s.clock s.lastRefill) = tryAcquire A s.atomics s.clock amount ∧
    (attempt s.clock s.lastRefill).left ≤ 5 := by
  unfold attempt
  split
  · next hle => exact ⟨trivial, by simp [rest, tryAcquire, refill, State.atomics, hle], by decide⟩
  · next hpos => exact ⟨⟨rfl, rfl, rfl, not_le.mp hpos⟩, rfl, le_rfl⟩

/-- The window has been claimed. -/
theorem claimed_own (hpos : 0 < s.clock - s.lastRefill) :
    Own (s.claimWindow s.clock) (claimed A s.clock s.lastRefill (s.clock - s.lastRefill)) ∧
    rest A (s.claimWindow s.clock) amount
      (claimed A s.clock s.lastRefill (s.clock - s.lastRefill)) =
        tryAcquire A s.atomics s.clock amount ∧
    (claimed A s.clock s.lastRefill (s.clock - s.lastRefill)).left < 5 := by
  have hgo : ¬s.clock - s.lastRefill ≤ 0 := not_le.mpr hpos
  unfold claimed
  split
  · next hnone =>
    refine ⟨trivial, ?_, by decide⟩
    simp [rest, tryAcquire, refill, State.atomics, State.claimWindow, hgo, hnone]
  · next hsome =>
    refine ⟨not_le.mp hsome, ?_, by simp [PC.left]⟩
    simp [rest, tryAcquire, refill, State.atomics, State.claimWindow, hgo, hsome]

/-- **One access of a call that is alone.** It goes on unless it is done,
    and what is left to do comes to the same. -/
theorem rest_step (hown : Own s pc) (weak : Bool) (hgoing : ∀ r, pc ≠ .done r) :
    ∃ s' pc', next A (alone s amount pc) (.step s.calls.length weak) = some (alone s' amount pc') ∧
      s'.calls = s.calls ∧ s'.clock = s.clock ∧ Own s' pc' ∧
      rest A s' amount pc' = rest A s amount pc ∧ (weak = false → pc'.left < pc.left) := by
  obtain ⟨hattempt, hattemptRest, hattemptLeft⟩ := @attempt_own A s amount
  rw [next_alone]
  cases pc with
  | readClock =>
    refine ⟨s, .loadPrev s.clock, ?_, rfl, rfl, rfl, rfl, fun _ => by simp [PC.left]⟩
    exact congrArg some (alone_setPC s amount _ _)
  | loadPrev now =>
    obtain rfl : now = s.clock := hown
    refine ⟨s, attempt s.clock s.lastRefill, ?_, rfl, rfl, hattempt, hattemptRest,
      fun _ => Nat.lt_of_le_of_lt hattemptLeft (by simp [PC.left])⟩
    simp only [callStep, Option.some.injEq]
    exact alone_setPC s amount _ _
  | claim now prev elapsed =>
    obtain ⟨rfl, rfl, rfl, hpos⟩ := hown
    cases weak with
    | false =>
      obtain ⟨hclaimed, hrest, hleft⟩ := @claimed_own A s amount hpos
      refine ⟨s.claimWindow s.clock, _, ?_, rfl, rfl, hclaimed, hrest, fun _ => hleft⟩
      simp only [callStep]
      rw [if_pos ⟨rfl, trivial⟩]
      exact congrArg some (alone_setPC (s.claimWindow s.clock) amount _ _)
    | true =>
      -- the compare-exchange fails: the same window again
      refine ⟨s, attempt s.clock s.lastRefill, ?_, rfl, rfl, hattempt, hattemptRest, by simp⟩
      simp only [callStep]
      rw [if_neg (by simp)]
      exact congrArg some (alone_setPC s amount _ _)
  | loadTokens w n =>
    refine ⟨s, .credit w n s.tokens, ?_, rfl, rfl, ⟨hown, rfl⟩, rfl, fun _ => by simp [PC.left]⟩
    exact congrArg some (alone_setPC s amount _ _)
  | credit w n current =>
    obtain ⟨hpos, rfl⟩ := hown
    cases weak with
    | false =>
      refine ⟨s.addTokens w (min (s.tokens + n) A.cap), .loadCurrent, ?_, rfl, rfl,
        trivial, rfl, fun _ => by simp [PC.left]⟩
      simp only [callStep]
      rw [if_pos ⟨rfl, trivial⟩]
      exact congrArg some (alone_setPC (s.addTokens w _) amount _ _)
    | true =>
      refine ⟨s, .credit w n s.tokens, ?_, rfl, rfl, ⟨hpos, rfl⟩, rfl, by simp⟩
      simp only [callStep]
      rw [if_neg (by simp)]
      exact congrArg some (alone_setPC s amount _ _)
  | loadCurrent =>
    refine ⟨s, .take s.tokens, ?_, rfl, rfl, rfl, rfl, fun _ => by simp [PC.left]⟩
    exact congrArg some (alone_setPC s amount _ _)
  | take current =>
    obtain rfl : current = s.tokens := hown
    by_cases hfew : s.tokens < A.needed amount
    · refine ⟨s, .done false, ?_, rfl, rfl, trivial, ?_, fun _ => by simp [PC.left]⟩
      · simp only [callStep]
        rw [if_pos hfew]
        exact congrArg some (alone_setPC s amount _ _)
      · exact (if_pos hfew).symm
    · cases weak with
      | false =>
        refine ⟨s.takeTokens amount (s.tokens - A.needed amount), .done true, ?_, rfl, rfl, trivial,
          ?_, fun _ => by simp [PC.left]⟩
        · simp only [callStep]
          rw [if_neg hfew, if_pos ⟨rfl, trivial⟩]
          exact congrArg some (alone_setPC (s.takeTokens amount _) amount _ _)
        · exact (if_neg hfew).symm
      | true =>
        refine ⟨s, .take s.tokens, ?_, rfl, rfl, rfl, rfl, by simp⟩
        simp only [callStep]
        rw [if_neg hfew, if_neg (by simp)]
        exact congrArg some (alone_setPC s amount _ _)
  | done result => exact absurd rfl (hgoing result)

/-! ### Alone to the End -/

/-- When no compare-exchange fails the call returns. -/
theorem alone_finishes (hown : Own s pc) :
    ∃ k s', System.exec (next A) (alone s amount pc)
        (List.replicate k (.step s.calls.length false)) =
          some (alone s' amount (.done (rest A s amount pc).1)) ∧
      s'.calls = s.calls ∧ s'.clock = s.clock ∧ s'.atomics = (rest A s amount pc).2 := by
  -- the induction is on the accesses that are left
  induction hn : pc.left using Nat.strong_induction_on generalizing s pc with
  | _ n ih =>
    subst hn
    by_cases hdone : ∃ r, pc = .done r
    · obtain ⟨r, rfl⟩ := hdone
      exact ⟨0, s, rfl, rfl, rfl, rfl⟩
    · obtain ⟨s₁, pc₁, hstep, hcalls, hclock, hown₁, hrest, hleft⟩ :=
        @rest_step A s amount pc hown false fun r hr => hdone ⟨r, hr⟩
      obtain ⟨k, s', hexec, hcalls', hclock', hatomics⟩ := ih _ (hleft rfl) hown₁ rfl
      rw [hrest] at hexec hatomics
      rw [hcalls] at hexec hcalls'
      refine ⟨k + 1, s', ?_, hcalls', hclock'.trans hclock, hatomics⟩
      rw [List.replicate_succ, System.exec, hstep, Option.bind_some, hexec]

/-- However often its compare-exchanges fail, the rest comes to the same. -/
theorem alone_rest (hown : Own s pc) (weaks : List Bool) {t : State}
    (h : System.exec (next A) (alone s amount pc) (weaks.map (.step s.calls.length)) = some t) :
    ∃ s' pc', t = alone s' amount pc' ∧ s'.calls = s.calls ∧
      rest A s' amount pc' = rest A s amount pc := by
  induction weaks generalizing s pc with
  | nil => exact ⟨s, pc, (Option.some.inj h).symm, rfl, rfl⟩
  | cons weak weaks ih =>
    rw [List.map_cons, System.exec] at h
    by_cases hdone : ∃ r, pc = .done r
    · obtain ⟨r, rfl⟩ := hdone
      simp [next_alone, callStep] at h
    · obtain ⟨s₁, pc₁, hstep, hcalls, -, hown₁, hrest, -⟩ :=
        @rest_step A s amount pc hown weak fun r hr => hdone ⟨r, hr⟩
      rw [hstep, Option.bind_some, ← hcalls] at h
      obtain ⟨s', pc', rfl, hcalls', hrest'⟩ := ih hown₁ h
      exact ⟨s', pc', rfl, hcalls'.trans hcalls, hrest'.trans hrest⟩

/-- **A call that runs alone returns**, and does what `tryAcquire` says. -/
theorem alone_returns (A : Arithmetic) (s : State) (amount : ℚ≥0) :
    ∃ k s', System.exec (next A) s
        (.call amount :: List.replicate k (.step s.calls.length false)) =
          some (alone s' amount (.done (tryAcquire A s.atomics s.clock amount).1)) ∧
      s'.calls = s.calls ∧ s'.clock = s.clock ∧
      s'.atomics = (tryAcquire A s.atomics s.clock amount).2 :=
  @alone_finishes A s amount .readClock trivial

/-- In no other way can it return. -/
theorem alone_result {weaks : List Bool} {t : State} {r : Bool}
    (h : System.exec (next A) s (.call amount :: weaks.map (.step s.calls.length)) = some t)
    (hdone : t.calls[s.calls.length]? = some ⟨amount, .done r⟩) :
    r = (tryAcquire A s.atomics s.clock amount).1 := by
  obtain ⟨s', pc', rfl, hcalls, hrest⟩ :=
    @alone_rest A s amount .readClock trivial weaks t h
  rw [← hcalls, alone_get] at hdone
  obtain rfl : pc' = .done r := by simpa using hdone
  exact congrArg Prod.fst hrest

end RateLimiter

end Forge
