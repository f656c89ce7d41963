import Forge.Core.RateLimiter

/-! # The Token Bucket — Invariant

  What a step can do to the two atomics (`Moves`), and what holds in every
  reachable state:

  - `Inv`: the range of `tokens_`, `last_refill_` not ahead of the clock,
    and what the calls know about the windows they try to claim;
  - `Claimed`: every microsecond is claimed by one call at most.
-/

namespace Forge

open LTS

namespace RateLimiter

variable {P : Params} {A : Arithmetic} {s s' : State} {l : Label} {i : ℕ} {c : Call} {pc : PC}

/-! ### Fixed point -/

/-- The tokens for a window are no more than the rate gives. -/
theorem newTokens_le {elapsed : ℤ} (he : 0 ≤ elapsed) :
    (P.newTokens elapsed : ℚ) ≤ P.rate * elapsed := by
  have hprod : 0 ≤ P.rate * (elapsed : ℚ) := mul_nonneg P.rate_nonneg (by exact_mod_cast he)
  have hscale : P.rate * (elapsed : ℚ) / 1000000 * scale = P.rate * elapsed := by
    rw [scale]
    ring
  unfold Params.newTokens
  rw [hscale]
  exact truncate_le hprod

/-! ### What one step does -/

/-- Steps of a call that change neither of the two atomics. -/
inductive Quiet (s : State) : PC → PC → Prop where
  | readClock : Quiet s .readClock (.loadPrev s.clock)
  | loadPrev (now : ℤ) : Quiet s (.loadPrev now) (attempt now s.lastRefill)
  | reclaim (now prev elapsed : ℤ) : Quiet s (.claim now prev elapsed) (attempt now s.lastRefill)
  | loadTokens (w : Window) (n : ℤ) : Quiet s (.loadTokens w n) (.credit w n s.tokens)
  | recredit (w : Window) (n current : ℤ) :
      Quiet s (.credit w n current) (.credit w n s.tokens)
  | loadCurrent : Quiet s .loadCurrent (.take s.tokens)
  | retake (current : ℤ) : Quiet s (.take current) (.take s.tokens)
  | refuse (current : ℤ) : Quiet s (.take current) (.done false)

/-- The steps, with what the successful ones know of the atomics. -/
inductive Moves (A : Arithmetic) (s : State) : Label → State → Prop where
  | tick (d : ℕ) : Moves A s (.tick d) { s with clock := s.clock + d }
  | call (amount : ℚ≥0) :
      Moves A s (.call amount) { s with calls := s.calls ++ [⟨amount, .readClock⟩] }
  | quiet {i : ℕ} {c : Call} {pc : PC} {weak : Bool} : s.calls[i]? = some c → Quiet s c.pc pc →
      Moves A s (.step i weak) (s.setPC i c pc)
  | claim {i : ℕ} {c : Call} {now elapsed : ℤ} : s.calls[i]? = some c →
      c.pc = .claim now s.lastRefill elapsed →
      Moves A s (.step i false)
        ((s.claimWindow now).setPC i c (claimed A now s.lastRefill elapsed))
  | credit {i : ℕ} {c : Call} {w : Window} {n : ℤ} : s.calls[i]? = some c →
      c.pc = .credit w n s.tokens →
      Moves A s (.step i false)
        ((s.addTokens w (min (s.tokens + n) A.cap)).setPC i c .loadCurrent)
  | take {i : ℕ} {c : Call} : s.calls[i]? = some c → c.pc = .take s.tokens →
      A.needed c.amount ≤ s.tokens →
      Moves A s (.step i false)
        ((s.takeTokens c.amount (s.tokens - A.needed c.amount)).setPC i c (.done true))

/-- Every access of a call is one of the moves. -/
theorem moves_of_callStep {weak : Bool} (hc : s.calls[i]? = some c)
    (h : callStep A s i c weak = some s') : Moves A s (.step i weak) s' := by
  -- loads, and compare-exchanges that fail
  have hquiet : ∀ pc', Quiet s c.pc pc' → s.setPC i c pc' = s' → Moves A s (.step i weak) s' := by
    intro pc' hq heq
    rw [← heq]
    exact .quiet hc hq
  unfold callStep at h
  cases hpc : c.pc with
  | readClock =>
    simp only [hpc, Option.some.injEq] at h
    exact hquiet _ (hpc ▸ .readClock) h
  | loadPrev now =>
    simp only [hpc, Option.some.injEq] at h
    exact hquiet _ (hpc ▸ .loadPrev now) h
  | claim now prev elapsed =>
    simp only [hpc] at h
    split at h
    · next hcas =>
      obtain ⟨rfl, rfl⟩ := hcas
      rw [← Option.some.inj h]
      exact .claim hc hpc
    · exact hquiet _ (hpc ▸ .reclaim now prev elapsed) (Option.some.inj h)
  | loadTokens w n =>
    simp only [hpc, Option.some.injEq] at h
    exact hquiet _ (hpc ▸ .loadTokens w n) h
  | credit w n current =>
    simp only [hpc] at h
    split at h
    · next hcas =>
      obtain ⟨rfl, rfl⟩ := hcas
      rw [← Option.some.inj h]
      exact .credit hc hpc
    · exact hquiet _ (hpc ▸ .recredit w n current) (Option.some.inj h)
  | loadCurrent =>
    simp only [hpc, Option.some.injEq] at h
    exact hquiet _ (hpc ▸ .loadCurrent) h
  | take current =>
    simp only [hpc] at h
    split at h
    · exact hquiet _ (hpc ▸ .refuse current) (Option.some.inj h)
    · split at h
      · next hlt hcas =>
        obtain ⟨rfl, rfl⟩ := hcas
        rw [← Option.some.inj h]
        exact .take hc hpc (not_lt.mp hlt)
      · exact hquiet _ (hpc ▸ .retake current) (Option.some.inj h)
  | done result => simp [hpc] at h

theorem moves_of_next (h : next A s l = some s') : Moves A s l s' := by
  cases l with
  | tick d =>
    rw [← Option.some.inj h]
    exact .tick d
  | call amount =>
    rw [← Option.some.inj h]
    exact .call amount
  | step i weak =>
    obtain ⟨c, hc, hstep⟩ := Option.bind_eq_some_iff.mp h
    exact moves_of_callStep hc hstep

/-! ### What a call holds -/

/-- The tokens a call has claimed and not yet added. -/
def PC.owed : PC → ℤ
  | .loadTokens _ n | .credit _ n _ => n
  | _ => 0

/-- The window a call has claimed and not yet credited. -/
def PC.window : PC → Option Window
  | .loadTokens w _ | .credit w _ _ => some w
  | _ => none

/-- What a call knows at the time `clock`. -/
def PC.Knows (clock : ℤ) : PC → Prop
  | .loadPrev now => now ≤ clock
  | .claim now prev elapsed => now ≤ clock ∧ elapsed = now - prev ∧ 0 < elapsed
  | .loadTokens _ n | .credit _ n _ => 0 < n
  | _ => True

theorem PC.Knows.owed_nonneg {clock : ℤ} (h : pc.Knows clock) : 0 ≤ pc.owed := by
  cases pc with
  | loadTokens w n => exact le_of_lt h
  | credit w n current => exact le_of_lt h
  | _ => exact le_rfl

theorem PC.Knows.later {clock clock' : ℤ} (h : pc.Knows clock) (hle : clock ≤ clock') :
    pc.Knows clock' := by
  cases pc with
  | loadPrev now => exact h.trans hle
  | claim now prev elapsed => exact ⟨h.1.trans hle, h.2⟩
  | _ => exact h

theorem attempt_knows {clock now prev : ℤ} (h : now ≤ clock) : (attempt now prev).Knows clock := by
  unfold attempt
  split
  · trivial
  · next hpos => exact ⟨h, rfl, not_le.mp hpos⟩

@[simp] theorem attempt_owed (now prev : ℤ) : (attempt now prev).owed = 0 := by
  unfold attempt
  split <;> rfl

@[simp] theorem attempt_window (now prev : ℤ) : (attempt now prev).window = none := by
  unfold attempt
  split <;> rfl

theorem claimed_knows (clock now prev elapsed : ℤ) :
    (claimed A now prev elapsed).Knows clock := by
  unfold claimed
  split
  · trivial
  · next hpos => exact not_le.mp hpos

/-- What a claim is owed is no more than the rate gives. -/
theorem claimed_owed_le {now prev elapsed : ℤ} (he : 0 ≤ elapsed) :
    ((claimed P now prev elapsed).owed : ℚ) ≤ P.rate * elapsed := by
  unfold claimed
  split
  · have hprod : 0 ≤ P.rate * (elapsed : ℚ) := mul_nonneg P.rate_nonneg (by exact_mod_cast he)
    simpa [PC.owed] using hprod
  · exact newTokens_le he

theorem Quiet.knows {pc' : PC} (h : Quiet s pc pc') (hk : pc.Knows s.clock) :
    pc'.Knows s.clock := by
  cases h with
  | readClock => exact le_rfl
  | loadPrev now => exact attempt_knows hk
  | reclaim now prev elapsed => exact attempt_knows hk.1
  | loadTokens | recredit => exact hk
  | loadCurrent | retake | refuse => trivial

theorem Quiet.owed_eq {pc' : PC} (h : Quiet s pc pc') : pc'.owed = pc.owed := by
  cases h with
  | loadPrev | reclaim => exact attempt_owed _ _
  | _ => rfl

theorem Quiet.window_eq {pc' : PC} (h : Quiet s pc pc') : pc'.window = pc.window := by
  cases h with
  | loadPrev | reclaim => exact attempt_window _ _
  | _ => rfl

/-! ### Ranges -/

/-- The range of the two atomics, and what the calls know. -/
structure Inv (A : Arithmetic) (s : State) : Prop where
  tokens_nonneg : 0 ≤ s.tokens
  tokens_le : s.tokens ≤ A.cap
  lastRefill_le : s.lastRefill ≤ s.clock
  calls : ∀ c ∈ s.calls, c.pc.Knows s.clock

theorem inv_initial (A : Arithmetic) (start : ℤ) : Inv A (initial A start) where
  tokens_nonneg := A.cap_nonneg
  tokens_le := le_rfl
  lastRefill_le := le_rfl
  calls := by simp [initial]

theorem Inv.knows (hi : Inv A s) (hc : s.calls[i]? = some c) : c.pc.Knows s.clock :=
  hi.calls c (List.mem_of_getElem? hc)

/-- One call goes on. -/
theorem Inv.setPC (hi : Inv A s) (hpc : pc.Knows s.clock) : Inv A (s.setPC i c pc) where
  tokens_nonneg := hi.tokens_nonneg
  tokens_le := hi.tokens_le
  lastRefill_le := hi.lastRefill_le
  calls := by
    intro c' hc'
    obtain hmem | rfl := List.mem_or_eq_of_mem_set hc'
    · exact hi.calls c' hmem
    · exact hpc

/-- **Step of the ranges.** -/
theorem Inv.step (hi : Inv A s) (hs : Moves A s l s') : Inv A s' := by
  cases hs with
  | tick d =>
    have hlater : s.clock ≤ s.clock + d := by omega
    exact ⟨hi.tokens_nonneg, hi.tokens_le, hi.lastRefill_le.trans hlater,
      fun c hc => (hi.calls c hc).later hlater⟩
  | call amount =>
    refine ⟨hi.tokens_nonneg, hi.tokens_le, hi.lastRefill_le, ?_⟩
    intro c hc
    obtain hc | hc := List.mem_append.mp hc
    · exact hi.calls c hc
    · rw [List.mem_singleton.mp hc]
      trivial
  | quiet hc hq => exact hi.setPC (hq.knows (hi.knows hc))
  | @claim i c now elapsed hc hpc =>
    have hknows := hi.knows hc
    rw [hpc] at hknows
    -- `last_refill_` moves to the time the call has read
    have hmoved : Inv A (s.claimWindow now) :=
      ⟨hi.tokens_nonneg, hi.tokens_le, hknows.1, hi.calls⟩
    exact hmoved.setPC (claimed_knows _ _ _ _)
  | @credit i c w n hc hpc =>
    have hknows := hi.knows hc
    rw [hpc] at hknows
    have hpos : 0 < n := hknows
    -- `std::min(current + new_tokens, max_tokens)`
    have hadded : Inv A (s.addTokens w (min (s.tokens + n) A.cap)) :=
      ⟨le_min (add_nonneg hi.tokens_nonneg (le_of_lt hpos)) A.cap_nonneg,
        min_le_right _ _, hi.lastRefill_le, hi.calls⟩
    exact hadded.setPC trivial
  | @take i c hc hpc hle =>
    have hneeded : 0 ≤ A.needed c.amount := A.needed_nonneg c.amount
    -- the check for enough tokens was made on the value that is exchanged
    have htaken : Inv A (s.takeTokens c.amount (s.tokens - A.needed c.amount)) :=
      ⟨sub_nonneg.mpr hle, (sub_le_self _ hneeded).trans hi.tokens_le, hi.lastRefill_le,
        hi.calls⟩
    exact htaken.setPC trivial

/-- `last_refill_` never decreases. -/
theorem Inv.lastRefill_mono (hi : Inv A s) (hs : Moves A s l s') :
    s.lastRefill ≤ s'.lastRefill := by
  cases hs with
  | @claim i c now elapsed hc hpc =>
    have hknows := hi.knows hc
    rw [hpc] at hknows
    obtain ⟨-, hwindow, hpos⟩ := hknows
    show s.lastRefill ≤ now
    omega
  | _ => exact le_rfl

/-! ### Windows -/

/-- The microsecond that begins at `u` is in the window. -/
def Window.covers (u : ℤ) (w : Window) : Bool := decide (w.prev ≤ u ∧ u < w.now)

/-- How often the microsecond at `u` has been credited. -/
def State.timesCredited (s : State) (u : ℤ) : ℕ := s.credited.countP (Window.covers u)

/-- Whether a call holds a claim to the microsecond at `u`. -/
def PC.claims (u : ℤ) (pc : PC) : ℕ := (pc.window.toList).countP (Window.covers u)

/-- How often the microsecond at `u` has been credited or is claimed. -/
def State.claims (s : State) (u : ℤ) : ℕ :=
  s.timesCredited u + listTotal (fun c => c.pc.claims u) s.calls

/-- A microsecond is credited or claimed once at most, and not before
    `last_refill_` has passed it. -/
structure Claimed (s : State) (u : ℤ) : Prop where
  once : s.claims u ≤ 1
  later : s.lastRefill ≤ u → s.claims u = 0

theorem State.claims_setPC (u : ℤ) (pc : PC) (hc : s.calls[i]? = some c) :
    (s.setPC i c pc).claims u + c.pc.claims u = s.claims u + pc.claims u := by
  have hset : listTotal (fun c => c.pc.claims u) (s.calls.set i { c with pc := pc }) +
      c.pc.claims u = listTotal (fun c => c.pc.claims u) s.calls + pc.claims u :=
    listTotal_set (fun c : Call => c.pc.claims u) hc { c with pc := pc }
  show s.timesCredited u + listTotal (fun c => c.pc.claims u) (s.calls.set i { c with pc := pc }) +
      c.pc.claims u = s.timesCredited u + listTotal (fun c => c.pc.claims u) s.calls + pc.claims u
  omega

theorem claimed_claims (now prev elapsed u : ℤ) :
    (claimed A now prev elapsed).claims u ≤ 1 ∧
      (u < prev ∨ now ≤ u → (claimed A now prev elapsed).claims u = 0) := by
  unfold claimed
  split
  · exact ⟨Nat.zero_le _, fun _ => rfl⟩
  · simp only [PC.claims, PC.window, Option.toList_some, List.countP_singleton, Window.covers,
      decide_eq_true_eq]
    refine ⟨by split <;> omega, ?_⟩
    intro hout
    rw [if_neg (by omega)]

/-- **Step of the windows.** -/
theorem Claimed.step {u : ℤ} (hi : Inv A s) (hcl : Claimed s u) (hs : Moves A s l s') :
    Claimed s' u := by
  obtain ⟨honce, hlater⟩ := hcl
  cases hs with
  | tick d => exact ⟨honce, hlater⟩
  | call amount =>
    have hsame : ({ s with calls := s.calls ++ [⟨amount, .readClock⟩] } : State).claims u =
        s.claims u := by
      simp [State.claims, State.timesCredited, listTotal, PC.claims, PC.window]
    exact ⟨hsame ▸ honce, fun h => hsame ▸ hlater h⟩
  | @quiet i c pc weak hc hq =>
    have hset := State.claims_setPC u pc hc
    have hsame : pc.claims u = c.pc.claims u := by rw [PC.claims, hq.window_eq, PC.claims]
    have hclaims : (s.setPC i c pc).claims u = s.claims u := by omega
    exact ⟨hclaims ▸ honce, fun h => hclaims ▸ hlater h⟩
  | @claim i c now elapsed hc hpc =>
    have hset := State.claims_setPC (s := s.claimWindow now) u
      (claimed A now s.lastRefill elapsed) hc
    have hmoved : (s.claimWindow now).claims u = s.claims u := rfl
    have hnone : c.pc.claims u = 0 := by simp [hpc, PC.claims, PC.window]
    obtain ⟨hone, hout⟩ := claimed_claims (A := A) now s.lastRefill elapsed u
    have hknows := hi.knows hc
    rw [hpc] at hknows
    obtain ⟨-, hwindow, hpos⟩ := hknows
    -- the window starts where all that has been claimed ends
    constructor
    · by_cases hold : u < s.lastRefill
      · have hzero := hout (.inl hold)
        omega
      · have hzero := hlater (not_lt.mp hold)
        omega
    · intro hge
      have hge' : now ≤ u := hge
      have hzero := hout (.inr hge')
      have hzero' := hlater (by omega)
      omega
  | @credit i c w n hc hpc =>
    have hset := State.claims_setPC
      (s := s.addTokens w (min (s.tokens + n) A.cap)) u .loadCurrent hc
    -- the window passes from the call to the history
    have hheld : c.pc.claims u = [w].countP (Window.covers u) := by
      simp [hpc, PC.claims, PC.window]
    have hgone : PC.loadCurrent.claims u = 0 := rfl
    have hadded : (s.addTokens w (min (s.tokens + n) A.cap)).claims u =
        s.claims u + [w].countP (Window.covers u) := by
      simp only [State.claims, State.timesCredited, State.addTokens, List.countP_append]
      omega
    exact ⟨by omega, fun h => by have hzero := hlater h; omega⟩
  | @take i c hc hpc hle =>
    have hset := State.claims_setPC (s := s.takeTokens c.amount (s.tokens - A.needed c.amount)) u
      (.done true) hc
    have htaken : (s.takeTokens c.amount (s.tokens - A.needed c.amount)).claims u = s.claims u :=
      rfl
    have hgone : (PC.done true).claims u = 0 := rfl
    have hnone : c.pc.claims u = 0 := by simp [hpc, PC.claims, PC.window]
    exact ⟨by omega, fun h => by have hzero := hlater h; omega⟩

end RateLimiter

end Forge
