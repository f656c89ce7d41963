import Forge.Core.RateLimiterInvariant
import Forge.Framework.Bucket
import Forge.Framework.Refinement

/-! # The Token Bucket — Conservation and Bursts

  The tokens a call has claimed and not yet added are owed to the bucket,
  and so are the tokens for the time since `last_refill_`. Together with
  `tokens_` they are the level of an abstract bucket, which grows with
  time and has no capacity (`level`, `refines`):

  - `tokens_conserved`: what is in the bucket and what was acquired is
    covered by the burst and by the time up to `last_refill_`;
  - `Settled`: tokens are taken only while the level is not above the
    burst, so that what is owed still fits into the bucket;
  - `window_bounded`: in the runs whose steps are settled no stretch of
    time sees more acquisitions than the burst and its length allow;
  - `late_credit_exceeds`: a call that adds old tokens after another has
    emptied the bucket lets a second burst through.
-/

namespace Forge

open LTS

namespace RateLimiter

variable {P : Params} {start : ℤ} {tr : List Label} {s s' : State} {l : Label} {i : ℕ} {c : Call}
  {pc : PC}

/-! ### The Level -/

/-- The tokens all calls have claimed and not yet added. -/
def State.owed (s : State) : ℤ := listTotal (fun c => c.pc.owed) s.calls

/-- The tokens that are there, or owed for time already claimed, or still
    to be claimed for the time since the last refill. -/
def level (P : Params) (s : State) : ℚ :=
  s.tokens + s.owed + P.rate * (s.clock - s.lastRefill)

/-- The bucket the limiter stands for; amounts are in millionths. -/
def bucket (P : Params) (s : State) : Bucket ℚ where
  level := level P s
  clock := s.clock
  taken := s.acquisitions.map fun a => ((a.time : ℚ), (toFixed a.amount : ℚ))

theorem State.owed_setPC (pc : PC) (hcalls : s'.calls = s.calls) (hc : s.calls[i]? = some c) :
    (s'.setPC i c pc).owed + c.pc.owed = s.owed + pc.owed := by
  unfold State.owed State.setPC
  rw [hcalls]
  exact listTotal_set (fun c : Call => c.pc.owed) hc { c with pc := pc }

theorem Inv.owed_nonneg (hi : Inv P s) : 0 ≤ s.owed := by
  apply List.sum_nonneg
  intro n hn
  obtain ⟨c, hc, rfl⟩ := List.mem_map.mp hn
  exact (hi.calls c hc).owed_nonneg

theorem Inv.due_nonneg (hi : Inv P s) : 0 ≤ P.rate * ((s.clock : ℚ) - s.lastRefill) := by
  apply mul_nonneg P.rate_nonneg
  rw [sub_nonneg]
  exact_mod_cast hi.lastRefill_le

theorem Inv.level_nonneg (hi : Inv P s) : 0 ≤ level P s := by
  have htokens : (0 : ℚ) ≤ s.tokens := by exact_mod_cast hi.tokens_nonneg
  have howed : (0 : ℚ) ≤ s.owed := by exact_mod_cast hi.owed_nonneg
  have hdue := hi.due_nonneg
  unfold level
  linarith

/-- The step takes tokens only while the level is not above the burst. -/
def Settled (P : Params) (s : State) : Label → Prop
  | .step i false => ∀ c ∈ s.calls[i]?, c.pc = .take s.tokens → toFixed c.amount ≤ s.tokens →
      level P s ≤ toFixed P.burst
  | _ => True

instance (P : Params) (s : State) : (l : Label) → Decidable (Settled P s l)
  | .step i false => inferInstanceAs (Decidable (∀ c ∈ s.calls[i]?, c.pc = .take s.tokens →
      toFixed c.amount ≤ s.tokens → level P s ≤ toFixed P.burst))
  | .step _ true | .tick _ | .call _ => inferInstanceAs (Decidable True)

/-- A step that takes nothing and after which the level is not higher. -/
theorem bucket_spill (hi' : Inv P s') (hclock : s'.clock = s.clock)
    (htaken : s'.acquisitions = s.acquisitions) (hle : level P s' ≤ level P s) :
    ∃ e, Bucket.Step P.rate (bucket P s) e (bucket P s') ∧
      (Settled P s l → Bucket.Capped (toFixed P.burst : ℚ) (bucket P s) e) := by
  have hbucket : bucket P s' = { bucket P s with level := level P s' } := by
    simp only [bucket, hclock, htaken]
  refine ⟨.spill (level P s'), ?_, fun _ => trivial⟩
  rw [hbucket]
  exact .spill hi'.level_nonneg hle

/-- The claimed time is no longer due, and gives no more than it was worth. -/
theorem Inv.level_claim_le (hi : Inv P s) {now elapsed : ℤ} (hc : s.calls[i]? = some c)
    (hpc : c.pc = .claim now s.lastRefill elapsed) :
    level P ((s.claimWindow now).setPC i c (claimed P now s.lastRefill elapsed)) ≤ level P s := by
  -- what the call is owed is new, the bucket itself is untouched
  have hset : ((s.claimWindow now).setPC i c (claimed P now s.lastRefill elapsed)).owed =
      s.owed + (claimed P now s.lastRefill elapsed).owed := by
    have hnone : c.pc.owed = 0 := by rw [hpc]; rfl
    have htrade := State.owed_setPC (claimed P now s.lastRefill elapsed)
      (rfl : (s.claimWindow now).calls = s.calls) hc
    rwa [hnone, Int.add_zero] at htrade
  have hknows := hi.knows hc
  rw [hpc] at hknows
  obtain ⟨-, hwindow, hpos⟩ := hknows
  have hgain : ((claimed P now s.lastRefill elapsed).owed : ℚ) ≤ P.rate * elapsed :=
    claimed_owed_le (le_of_lt hpos)
  have hspan : (elapsed : ℚ) = now - s.lastRefill := by rw [hwindow]; push_cast; rfl
  rw [hspan] at hgain
  simp only [level, hset]
  simp only [State.setPC, State.claimWindow]
  push_cast
  linarith

/-- What was owed is in the bucket now, or lost above the burst. -/
theorem level_credit_le {w : Window} {n : ℤ} (hc : s.calls[i]? = some c)
    (hpc : c.pc = .credit w n s.tokens) :
    level P ((s.addTokens w (min (s.tokens + n) (toFixed P.burst))).setPC i c .loadCurrent) ≤
      level P s := by
  have hset : ((s.addTokens w (min (s.tokens + n) (toFixed P.burst))).setPC i c
      .loadCurrent).owed + n = s.owed := by
    have hheld : c.pc.owed = n := by rw [hpc]; rfl
    have htrade := State.owed_setPC .loadCurrent
      (rfl : (s.addTokens w (min (s.tokens + n) (toFixed P.burst))).calls = s.calls) hc
    rwa [hheld, show PC.loadCurrent.owed = 0 from rfl, Int.add_zero] at htrade
  have hmin : ((min (s.tokens + n) (toFixed P.burst) : ℤ) : ℚ) ≤ s.tokens + n := by
    exact_mod_cast min_le_left (s.tokens + n) (toFixed P.burst)
  have howed : (((s.addTokens w (min (s.tokens + n) (toFixed P.burst))).setPC i c
      .loadCurrent).owed : ℚ) = s.owed - n := by
    rw [← hset]
    push_cast
    ring
  simp only [level, howed]
  simp only [State.setPC, State.addTokens]
  linarith

theorem bucket_take (hc : s.calls[i]? = some c) (hpc : c.pc = .take s.tokens) :
    bucket P ((s.takeTokens c.amount (s.tokens - toFixed c.amount)).setPC i c (.done true)) =
      { bucket P s with
        level := (bucket P s).level - (toFixed c.amount : ℚ)
        taken := (bucket P s).taken ++ [((bucket P s).clock, (toFixed c.amount : ℚ))] } := by
  have hset : ((s.takeTokens c.amount (s.tokens - toFixed c.amount)).setPC i c (.done true)).owed =
      s.owed := by
    have hnone : c.pc.owed = 0 := by rw [hpc]; rfl
    have htrade := State.owed_setPC (.done true)
      (rfl : (s.takeTokens c.amount (s.tokens - toFixed c.amount)).calls = s.calls) hc
    rwa [hnone, show (PC.done true).owed = 0 from rfl, Int.add_zero, Int.add_zero] at htrade
  simp only [bucket, level, hset]
  simp only [State.setPC, State.takeTokens, List.map_append, List.map_cons, List.map_nil]
  congr 1
  push_cast
  ring

/-- **Simulation.** A step of the limiter is one of the bucket. -/
theorem Inv.simulates (hi : Inv P s) (hs : Moves P s l s') :
    ∃ e, Bucket.Step P.rate (bucket P s) e (bucket P s') ∧
      (Settled P s l → Bucket.Capped (toFixed P.burst : ℚ) (bucket P s) e) := by
  have hi' := hi.step hs
  cases hs with
  | tick d =>
    -- time passes: the level grows by what is due for it
    have hbucket : bucket P { s with clock := s.clock + d } =
        { bucket P s with
          level := (bucket P s).level + P.rate * (d : ℚ), clock := (bucket P s).clock + d } := by
      simp only [bucket, level, State.owed]
      congr 1
      · push_cast
        ring
      · push_cast
        rfl
    refine ⟨.wait d, ?_, fun _ => trivial⟩
    rw [hbucket]
    exact .wait (Nat.cast_nonneg d)
  | call amount =>
    refine bucket_spill hi' rfl rfl ?_
    have hsame : ({ s with calls := s.calls ++ [⟨amount, .readClock⟩] } : State).owed = s.owed := by
      simp [State.owed, listTotal, PC.owed]
    simp only [level, hsame]
    exact le_rfl
  | @quiet i c pc weak hc hq =>
    refine bucket_spill hi' rfl rfl ?_
    have hset := State.owed_setPC pc rfl hc
    have hsame : (s.setPC i c pc).owed = s.owed := by
      rw [hq.owed_eq] at hset
      omega
    simp only [level, hsame]
    exact le_rfl
  | claim hc hpc => exact bucket_spill hi' rfl rfl (hi.level_claim_le hc hpc)
  | credit hc hpc => exact bucket_spill hi' rfl rfl (level_credit_le hc hpc)
  | @take i c hc hpc hle =>
    have hneeded : (0 : ℚ) ≤ toFixed c.amount := by exact_mod_cast toFixed_nonneg c.amount.2
    -- the tokens taken are there, and what is owed and due is not negative
    have henough : (toFixed c.amount : ℚ) ≤ (bucket P s).level := by
      have htokens : (toFixed c.amount : ℚ) ≤ s.tokens := by exact_mod_cast hle
      have howed : (0 : ℚ) ≤ s.owed := by exact_mod_cast hi.owed_nonneg
      have hdue := hi.due_nonneg
      show _ ≤ level P s
      unfold level
      linarith
    refine ⟨.take (toFixed c.amount), ?_, fun hok => hok c hc hpc hle⟩
    rw [bucket_take hc hpc]
    exact .take hneeded henough

/-- **Refinement.** The limiter is the bucket `bucket P s`. A run whose
    steps are `Settled` takes only from levels up to the burst. -/
def refines (P : Params) (start : ℤ) :
    RefinementMap (ε := Empty) (system P start) (Bucket.system P.rate (toFixed P.burst : ℚ) start)
      (fun _ => none) (fun _ => none) where
  map := bucket P
  inv := Inv P
  inv_init := fun s hs => hs ▸ inv_initial P start
  inv_step := fun s l s' hi hs => hi.step (moves_of_next hs)
  map_init := by
    intro s hs
    have hs' : s = initial P start := hs
    subst hs'
    simp [Bucket.system, bucket, level, initial, State.owed, listTotal]
  map_step := by
    intro s l s' hi hs
    obtain ⟨e, he, -⟩ := hi.simulates (moves_of_next hs)
    exact .inr ⟨e, he, rfl⟩

theorem inv_of_run (hrun : (system P start).Run tr s) : Inv P s :=
  hrun.invariant (refines P start).inv_init (refines P start).inv_step

/-! ### Conservation -/

/-- What has been acquired so far, in the unit of `tokens_`. -/
def State.acquired (s : State) : ℤ := listTotal (fun a => toFixed a.amount) s.acquisitions

theorem sum_taken (s : State) : Bucket.sum (bucket P s).taken = s.acquired := by
  simp only [Bucket.sum, bucket, State.acquired, listTotal, List.map_map]
  induction s.acquisitions with
  | nil => simp
  | cons a rest ih =>
    simp only [List.map_cons, List.sum_cons, Int.cast_add, ih]
    rfl

theorem claimed_of_run (hrun : (system P start).Run tr s) (u : ℤ) : Claimed s u := by
  have hboth : Inv P s ∧ Claimed s u := by
    apply hrun.invariant (P := fun s => Inv P s ∧ Claimed s u)
    · intro s hs
      have hs' : s = initial P start := hs
      subst hs'
      exact ⟨inv_initial P start, Nat.zero_le _, fun _ => rfl⟩
    · intro s l s' h hs
      have hmoves := moves_of_next hs
      exact ⟨h.1.step hmoves, h.2.step h.1 hmoves⟩
  exact hboth.2

/-- **Conservation.** In every state some interleaving of `try_acquire`
    calls reaches, `tokens_` is between zero and the burst, no step moves
    `last_refill_` back, no microsecond has been credited twice, and the
    tokens in the bucket and those acquired are covered by the burst and
    by the time from the construction to `last_refill_`. -/
theorem tokens_conserved (hrun : (system P start).Run tr s) :
    (0 ≤ s.tokens ∧ s.tokens ≤ toFixed P.burst) ∧
    (∀ l s', next P s l = some s' → s.lastRefill ≤ s'.lastRefill) ∧
    (∀ u, s.timesCredited u ≤ 1) ∧
    (s.tokens + s.acquired : ℚ) ≤ toFixed P.burst + P.rate * (s.lastRefill - start) := by
  have hi := inv_of_run hrun
  refine ⟨⟨hi.tokens_nonneg, hi.tokens_le⟩, ?_, ?_, ?_⟩
  · intro l s' hs
    exact hi.lastRefill_mono (moves_of_next hs)
  · intro u
    exact (Nat.le_add_right _ _).trans (claimed_of_run hrun u).once
  · obtain ⟨tr', hrun', -⟩ := (refines P start).run hrun
    have hbalance := Bucket.balance hrun'
    have howed : (0 : ℚ) ≤ s.owed := by exact_mod_cast hi.owed_nonneg
    have hlevel : ((refines P start).map s).level = level P s := rfl
    have hclock : ((refines P start).map s).clock = s.clock := rfl
    have htaken : Bucket.sum ((refines P start).map s).taken = s.acquired := sum_taken s
    rw [hlevel, hclock, htaken, level] at hbalance
    linarith

/-- One token per second, and bursts of one token. -/
def onePerSecond : Params := ⟨1, 1, by norm_num, by norm_num⟩

/-- A call acquires the token that is there from the start; after half a
    second another one finds half a token, added by itself. -/
def takeAndWait : List Label :=
  Label.call 1 :: List.replicate 4 (Label.step 0 false) ++ [Label.tick 500000, .call 1] ++
    List.replicate 7 (Label.step 1 false)

theorem takeAndWait_conserved :
    ∃ s, (system onePerSecond 0).Run takeAndWait s ∧ s.tokens = 500000 ∧ s.acquired = 1000000 ∧
      (s.tokens + s.acquired : ℚ) ≤
        toFixed onePerSecond.burst + onePerSecond.rate * (s.lastRefill - (0 : ℤ)) := by
  have hexec : (System.exec (next onePerSecond) (initial onePerSecond 0) takeAndWait).map
      (fun s => (s.tokens, s.acquired)) = some (500000, 1000000) := by decide +kernel
  obtain ⟨s, hrun, hs⟩ := System.exists_run_of_exec hexec
  simp only [Prod.mk.injEq] at hs
  exact ⟨s, hrun, hs.1, hs.2, (tokens_conserved hrun).2.2.2⟩

/-! ### Stretches of time -/

/-- Every call is `try_acquire(1)`. -/
def TakesOne : Label → Prop
  | .call amount => amount = 1
  | _ => True

instance : (l : Label) → Decidable (TakesOne l)
  | .call amount => inferInstanceAs (Decidable (amount = 1))
  | .tick _ | .step _ _ => inferInstanceAs (Decidable True)

/-- The acquisitions from the time `t₁` on and no later than `t₂`. -/
def State.acquiredBetween (s : State) (t₁ t₂ : ℤ) : List Acquisition :=
  s.acquisitions.filter fun a => decide (t₁ ≤ a.time) && decide (a.time ≤ t₂)

/-- All calls, and so all acquisitions, are of one token. -/
structure Ones (s : State) : Prop where
  calls : ∀ c ∈ s.calls, c.amount = 1
  acquisitions : ∀ a ∈ s.acquisitions, a.amount = 1

/-- One call goes on. -/
theorem Ones.setPC (h : Ones s) (hc : s.calls[i]? = some c) : Ones (s.setPC i c pc) where
  calls := by
    intro c' hc'
    obtain hmem | rfl := List.mem_or_eq_of_mem_set hc'
    · exact h.calls c' hmem
    · exact h.calls c (List.mem_of_getElem? hc)
  acquisitions := h.acquisitions

theorem Ones.step (h : Ones s) (hone : TakesOne l) (hs : Moves P s l s') : Ones s' := by
  cases hs with
  | tick d => exact ⟨h.calls, h.acquisitions⟩
  | call amount =>
    refine ⟨?_, h.acquisitions⟩
    intro c hc
    obtain hc | hc := List.mem_append.mp hc
    · exact h.calls c hc
    · rw [List.mem_singleton.mp hc]
      exact hone
  | quiet hc _ => exact h.setPC hc
  | @claim i c now elapsed hc _ =>
    have hmoved : Ones (s.claimWindow now) := ⟨h.calls, h.acquisitions⟩
    exact hmoved.setPC hc
  | @credit i c w n hc _ =>
    have hadded : Ones (s.addTokens w (min (s.tokens + n) (toFixed P.burst))) :=
      ⟨h.calls, h.acquisitions⟩
    exact hadded.setPC hc
  | @take i c hc _ _ =>
    have htaken : Ones (s.takeTokens c.amount (s.tokens - toFixed c.amount)) := by
      refine ⟨h.calls, ?_⟩
      intro a ha
      obtain ha | ha := List.mem_append.mp ha
      · exact h.acquisitions a ha
      · rw [List.mem_singleton.mp ha]
        exact h.calls c (List.mem_of_getElem? hc)
    exact htaken.setPC hc

theorem ones_of_run (hrun : ((system P start).restrict fun _ l => TakesOne l).Run tr s) :
    Ones s := by
  apply hrun.invariant
  · intro s hs
    have hs' : s = initial P start := hs
    subst hs'
    exact ⟨by simp [initial], by simp [initial]⟩
  · intro s l s' h hs
    exact h.step hs.1 (moves_of_next hs.2)

/-- Acquisitions of one token each add up to their number. -/
theorem sum_between (hones : Ones s) (t₁ t₂ : ℤ) :
    Bucket.sum (Bucket.between (t₁ : ℚ) t₂ (bucket P s).taken) =
      1000000 * (s.acquiredBetween t₁ t₂).length := by
  have hall := hones.acquisitions
  unfold State.acquiredBetween Bucket.between bucket Bucket.sum
  generalize s.acquisitions = acquisitions at hall
  simp only
  induction acquisitions with
  | nil => simp
  | cons a rest ih =>
    have hrest := ih fun a ha => hall a (List.mem_cons_of_mem _ ha)
    have hfixed : toFixed (a.amount : ℚ) = 1000000 := by
      rw [hall a List.mem_cons_self, toFixed, truncate_eq_floor (by norm_num [scale]), scale]
      norm_num
    -- a filter over times of the bucket is one over the acquisitions
    simp only [List.map_cons, List.filter_cons, Int.cast_le]
    split
    · simp only [List.map_cons, List.sum_cons, List.length_cons, hrest, hfixed]
      push_cast
      ring
    · exact hrest

/-- The bucket behind a run whose steps are settled is never taken from
    above the burst. -/
def refinesSettled (P : Params) (start : ℤ) :
    RefinementMap (ε := Empty) ((system P start).restrict (Settled P))
      ((Bucket.system P.rate (toFixed P.burst : ℚ) start).restrict
        (Bucket.Capped (toFixed P.burst : ℚ)))
      (fun _ => none) (fun _ => none) where
  map := bucket P
  inv := Inv P
  inv_init := (refines P start).inv_init
  inv_step := fun s l s' hi hs => hi.step (moves_of_next hs.2)
  map_init := (refines P start).map_init
  map_step := by
    intro s l s' hi hs
    obtain ⟨e, he, hcapped⟩ := hi.simulates (moves_of_next hs.2)
    exact .inr ⟨e, ⟨hcapped hs.1, he⟩, rfl⟩

/-- **Bursts.** In every run of `try_acquire(1)` calls in which tokens are
    taken only while the tokens in the bucket, those claimed and not yet
    added and those due for the time since the last refill are together
    not above the burst, at most `burst + rate * (t₂ - t₁)` acquisitions
    succeed from `t₁` to `t₂`. The times are in microseconds. -/
theorem window_bounded
    (hrun : ((system P start).restrict fun s l => TakesOne l ∧ Settled P s l).Run tr s)
    {t₁ t₂ : ℤ} (ht : t₁ ≤ t₂) :
    ((s.acquiredBetween t₁ t₂).length : ℚ) ≤ P.burst + P.rate * ((t₂ - t₁) / 1000000) := by
  have hones : Ones s := ones_of_run (hrun.weaken fun s l h => h.1)
  obtain ⟨tr', hrun', -⟩ := (refinesSettled P start).run (hrun.weaken fun s l h => h.2)
  have hfixed : (0 : ℚ) ≤ toFixed P.burst := by exact_mod_cast toFixed_nonneg P.burst_nonneg
  have hwindow : Bucket.sum (Bucket.between (t₁ : ℚ) t₂ (bucket P s).taken) ≤
      toFixed P.burst + P.rate * (t₂ - t₁) :=
    Bucket.window_le P.rate_nonneg hfixed hfixed hrun' (by exact_mod_cast ht)
  -- from millionths back to tokens
  have hburst : (toFixed P.burst : ℚ) ≤ P.burst * 1000000 := toFixed_le P.burst_nonneg
  rw [sum_between hones] at hwindow
  linarith

/-- A call takes the token that is there, and half a second later another
    one is refused. -/
theorem takeAndWait_bounded :
    ∃ s, ((system onePerSecond 0).restrict fun s l => TakesOne l ∧ Settled onePerSecond s l).Run
        takeAndWait s ∧
      (s.acquiredBetween 0 500000).length = 1 ∧
      ((s.acquiredBetween 0 500000).length : ℚ) ≤
        onePerSecond.burst + onePerSecond.rate * (((500000 : ℤ) - (0 : ℤ)) / 1000000) := by
  have hexec : (System.exec
      (fun s l => if decide (TakesOne l ∧ Settled onePerSecond s l) then next onePerSecond s l
        else none)
      (initial onePerSecond 0) takeAndWait).map
      (fun s => (s.acquiredBetween 0 500000).length) = some 1 := by decide +kernel
  obtain ⟨s, hchecked, hone⟩ := System.exists_run_restrict_of_exec hexec
  have hrun := hchecked.weaken fun s l h => of_decide_eq_true h
  exact ⟨s, hrun, hone, window_bounded hrun (by decide)⟩

/-- A call claims a second and is held up before it adds the token; another
    call takes the token that is there; the first one adds and takes. -/
def lateCredit : List Label :=
  [Label.tick 1000000, .call 1, .call 1] ++ List.replicate 3 (Label.step 0 false) ++
    List.replicate 4 (Label.step 1 false) ++ List.replicate 4 (Label.step 0 false)

/-- Two tokens are acquired in the same microsecond. -/
theorem late_credit_exceeds :
    ¬ ∀ (P : Params) (start : ℤ) (tr : List Label) (s : State),
      ((system P start).restrict fun _ l => TakesOne l).Run tr s → ∀ t₁ t₂ : ℤ, t₁ ≤ t₂ →
        ((s.acquiredBetween t₁ t₂).length : ℚ) ≤ P.burst + P.rate * ((t₂ - t₁) / 1000000) := by
  intro hall
  have hexec : (System.exec
      (fun s l => if decide (TakesOne l) then next onePerSecond s l else none)
      (initial onePerSecond 0) lateCredit).map
      (fun s => (s.acquiredBetween 1000000 1000000).length) = some 2 := by decide +kernel
  obtain ⟨s, hchecked, htwo⟩ := System.exists_run_restrict_of_exec hexec
  have hrun := hchecked.weaken fun s l h => of_decide_eq_true h
  have hle := hall onePerSecond 0 lateCredit s hrun 1000000 1000000 le_rfl
  rw [htwo] at hle
  norm_num [onePerSecond] at hle

end RateLimiter

end Forge
