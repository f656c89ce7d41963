import Forge.Core.FutureProtocol
import Forge.Llm.ThrottledLLMClient

/-! # Throttled LLM Client — Permits and Results

  Two results about all calls that share one semaphore.

  - `throttle_bounded`: the counter stays within its bounds, no more than
    `max_permits` inner calls are in flight, and the assertion of
    `release` never fails.
  - `permits_restored_iff`: once everything has resolved, all permits and
    all results are there if and only if no inner future resolved with an
    exception. `set_exception` deletes the continuation without running
    it, and with it goes the only code that releases the permit and
    resolves the outer promise.

  A call holds its permit from the compare-exchange that took it to the
  `release` that returns it (`Call.holds`); the counter and the holders
  are tied by `Semaphore.Accounted`.
-/

open LTS

namespace Forge.Future

variable {T E : Type*}

/-! ### Who Runs the Continuation -/

/-- The continuation is running, called by `side`. -/
def State.runningOn (s : State T E) : Side → Prop
  | .producer => ∃ v, s.producer = .svRunning v
  | .consumer => s.consumer = .thRunning

theorem Inv.runningOn_unique {kind : Specialisation T} {s : State T E} (hi : Inv kind s)
    {a b : Side} (ha : s.runningOn a) (hb : s.runningOn b) : a = b := by
  have hex : ¬ ((∃ v, s.producer = .svRunning v) ∧ s.consumer = .thRunning) := by
    rintro ⟨⟨v, hp⟩, hc⟩
    obtain ⟨deleted, hl, -⟩ := hi.ledger
    simp [hp, hc] at hl
  cases a <;> cases b
  · rfl
  · exact absurd ⟨ha, hb⟩ hex
  · exact absurd ⟨hb, ha⟩ hex
  · rfl

/-- Before `then` is called nothing has run. -/
theorem Inv.runs_of_idle {kind : Specialisation T} {s : State T E} (hi : Inv kind s)
    (hc : s.consumer = .idle) : s.runs = [] := by
  obtain ⟨deleted, hl, -⟩ := hi.ledger
  cases hp : s.producer <;> simp [hp, hc] at hl <;> simp [hl.2]

end Forge.Future

namespace Forge.ThrottledLLMClient

open Future (Side)

variable {R E : Type*} [DecidableEq R] [DecidableEq E] {s s' : Future.State R E}
  {l : Future.Label R E}

theorem resolve_consumer (hl : isResolve l) (hs : Future.next .primary s l = some s') :
    s'.consumer = s.consumer := by
  cases l with
  | callSetValue v | callSetException e =>
    simp only [Future.next, Option.ite_none_right_eq_some, Option.some.injEq] at hs
    obtain ⟨-, rfl⟩ := hs
    rfl
  | producer =>
    have hstep : Future.producerStep .primary s = some s' := hs
    exact (Future.producerStep_frame hstep).2.1
  | _ => simp [isResolve] at hl

theorem user_producer (hl : isUser l) (hs : Future.next .primary s l = some s') :
    s'.producer = s.producer := by
  cases l with
  | callThen =>
    simp only [Future.next, Option.ite_none_right_eq_some, Option.some.injEq] at hs
    obtain ⟨-, rfl⟩ := hs
    rfl
  | consumer =>
    have hstep : Future.consumerStep s = some s' := hs
    exact (Future.consumerStep_frame hstep).1
  | callbackReturn side | callbackThrow side =>
    cases side with
    | producer => simp [isUser] at hl
    | consumer =>
      cases hc : s.consumer <;> simp only [Future.next, hc, Option.some.injEq, reduceCtorEq] at hs
      subst hs
      rfl
  | _ => simp [isUser] at hl

/-- The step that calls the continuation. -/
theorem invokes_next {side : Side} (hi : invokes s l = some side)
    (hs : Future.next .primary s l = some s') :
    s'.runs = s.runs ++ [s.value] ∧ s'.runningOn side := by
  cases l with
  | producer =>
    cases hp : s.producer <;> simp [invokes, hp] at hi
    simp only [Future.next, Future.producerStep, hp, Option.some.injEq] at hs
    subst hi hs
    exact ⟨rfl, _, rfl⟩
  | consumer =>
    cases hc : s.consumer <;> simp [invokes, hc] at hi
    simp only [Future.next, Future.consumerStep, hc, Option.some.injEq] at hs
    subst hi hs
    exact ⟨rfl, rfl⟩
  | _ => simp [invokes] at hi

/-- The labels on the inner future other than the end of the continuation. -/
def isDriver (l : Future.Label R E) : Bool := isResolve l || l = .callThen || l = .consumer

/-- A step that does not call the continuation leaves it running or not. -/
theorem driver_next (hl : isDriver l) (hi : invokes s l = none)
    (hs : Future.next .primary s l = some s') :
    s'.runs = s.runs ∧ ∀ side, s'.runningOn side ↔ s.runningOn side := by
  cases l with
  | callSetValue v | callSetException e | callThen =>
    simp only [Future.next, Option.ite_none_right_eq_some, Option.some.injEq] at hs
    obtain ⟨⟨hidle, -⟩, rfl⟩ := hs
    refine ⟨rfl, fun side => ?_⟩
    cases side <;> simp [Future.State.runningOn, hidle]
  | producer =>
    have hstep : Future.producerStep .primary s = some s' := hs
    have hc := (Future.producerStep_frame hstep).2.1
    unfold Future.producerStep at hstep
    cases hp : s.producer <;> simp only [invokes, hp, reduceCtorEq] at hi <;>
      simp only [hp] at hstep <;> (try split at hstep) <;> cases hstep <;> refine ⟨rfl, ?_⟩ <;>
      intro side <;> cases side <;> simp [Future.State.runningOn, hp]
  | consumer =>
    have hstep : Future.consumerStep s = some s' := hs
    unfold Future.consumerStep at hstep
    cases hc : s.consumer <;> simp only [invokes, hc, reduceCtorEq] at hi <;>
      simp only [hc] at hstep <;> (try split at hstep) <;> cases hstep <;> refine ⟨rfl, ?_⟩ <;>
      intro side <;> cases side <;> simp [Future.State.runningOn, hc]
  | _ => simp [isDriver, isResolve] at hl

/-- The step that ends the continuation. -/
theorem callbackEnd_next {side : Side} (hi : Future.Inv .primary s)
    (hl : l = .callbackReturn side ∨ l = .callbackThrow side)
    (hs : Future.next .primary s l = some s') :
    s'.runs = s.runs ∧ (s.consumer ≠ .thRunning → s'.consumer = s.consumer) ∧
      ∀ side', ¬ s'.runningOn side' := by
  have hunique := fun a b => hi.runningOn_unique (a := a) (b := b)
  cases side with
  | producer =>
    have hp : ∃ v, s.producer = .svRunning v := by
      cases hp : s.producer <;> rcases hl with rfl | rfl <;> simp [Future.next, hp] at hs ⊢
    have hc : s.consumer ≠ .thRunning := by
      intro hc
      have hside := hunique .producer .consumer hp hc
      cases hside
    obtain ⟨v, hp⟩ := hp
    rcases hl with rfl | rfl <;>
    · simp only [Future.next, hp, Option.some.injEq] at hs
      subst hs
      refine ⟨rfl, fun _ => rfl, fun side => ?_⟩
      cases side <;> simp [Future.State.runningOn, hc]
  | consumer =>
    have hc : s.consumer = .thRunning := by
      cases hc : s.consumer <;> rcases hl with rfl | rfl <;> simp [Future.next, hc] at hs ⊢
    have hp : ¬ ∃ v, s.producer = .svRunning v := by
      intro hp
      have hside := hunique .producer .consumer hp hc
      cases hside
    rcases hl with rfl | rfl <;>
    · simp only [Future.next, hc, Option.some.injEq] at hs
      subst hs
      refine ⟨rfl, fun h => absurd hc h, fun side => ?_⟩
      cases side with
      | producer => exact hp
      | consumer => simp [Future.State.runningOn]

/-! ### The Invariant of One Call -/

/-- The permit has not been released by the continuation. -/
def ContinuationPC.beforeRelease : ContinuationPC R → Bool
  | .notRun | .release _ _ => true
  | _ => false

/-- The call holds a permit. -/
def Call.holds (c : Call R E) : Bool :=
  match c.caller with
  | .innerComplete | .releaseRethrow | .attach => true
  | .inThen | .returned | .thenThrew => c.continuation.beforeRelease
  | .idle | .rateAcquire | .semAcquire _ | .rethrown => false

/-- The inner future has the consumer the caller has made of it. -/
def CallerOk (c : Call R E) : Prop :=
  match c.caller with
  | .inThen => True
  | .returned => c.inner.consumer = .thDone
  | .thenThrew => c.inner.consumer = .thThrew
  | _ => c.inner.consumer = .idle

/-- The continuation is where the two futures say. -/
def ContinuationOk (c : Call R E) : Prop :=
  match c.continuation with
  | .notRun => c.inner.runs = [] ∧ (∀ side, ¬ c.inner.runningOn side) ∧ c.outer.producer = .idle
  | .release side resp | .setValue side resp =>
      c.inner.runs ≠ [] ∧ c.inner.runningOn side ∧ resp.isSome ∧ c.outer.producer = .idle
  | .inSetValue side =>
      c.inner.runs ≠ [] ∧ c.inner.runningOn side ∧ c.outer.producer.argument.isSome
  | .finished =>
      c.inner.runs ≠ [] ∧ (∀ side, ¬ c.inner.runningOn side) ∧ c.outer.producer.published

/-- What holds of every call at every moment. -/
structure CallInv (c : Call R E) : Prop where
  inner : Future.Inv .primary c.inner
  outer : Future.Inv .primary c.outer
  caller : CallerOk c
  continuation : ContinuationOk c

omit [DecidableEq R] [DecidableEq E] in
theorem callInv_newCall : CallInv (newCall : Call R E) where
  inner := Future.inv_initial .primary
  outer := Future.inv_initial .primary
  caller := rfl
  continuation := by
    refine ⟨rfl, fun side => ?_, rfl⟩
    cases side <;> simp [newCall, Future.State.runningOn, Future.initial]

variable {c c' : Call R E}

omit [DecidableEq R] [DecidableEq E] in
theorem CallInv.notRun_of_runs (hi : CallInv c) (hruns : c.inner.runs = []) :
    c.continuation = .notRun ∧ c.outer.ready = false := by
  have hready := hi.outer.payload.ready
  have hcont := hi.continuation
  unfold ContinuationOk at hcont
  cases hk : c.continuation <;> simp [hk, hruns] at hcont
  exact ⟨rfl, by simpa [hcont] using hready⟩

omit [DecidableEq R] [DecidableEq E] in
/-- Before `then` the continuation has not run. -/
theorem CallInv.notRun (hi : CallInv c) (hc : c.inner.consumer = .idle) :
    c.continuation = .notRun :=
  (hi.notRun_of_runs (hi.inner.runs_of_idle hc)).1

omit [DecidableEq R] [DecidableEq E] in
/-- The next place of the caller, with the futures untouched. -/
theorem CallInv.setCaller (hi : CallInv c) {pc : CallerPC}
    (hcaller : CallerOk { c with caller := pc }) : CallInv { c with caller := pc } :=
  ⟨hi.inner, hi.outer, hcaller, hi.continuation⟩

omit [DecidableEq R] [DecidableEq E] in
theorem CallerOk.of_consumer (hcaller : CallerOk c) (hpc : c'.caller = c.caller)
    (hc : c'.inner.consumer = c.inner.consumer) : CallerOk c' := by
  unfold CallerOk at hcaller ⊢
  rw [hpc, hc]
  exact hcaller

/-! ### Steps on the Inner Future -/

theorem stepInner_next (hs : stepInner c l = some c') :
    Future.next .primary c.inner l = some c'.inner ∧ c'.outer = c.outer ∧
      c'.caller = c.caller := by
  simp only [stepInner, Option.map_eq_some_iff] at hs
  obtain ⟨inner, hnext, rfl⟩ := hs
  exact ⟨hnext, rfl, rfl⟩

/-- A step on the inner future by the inner client or by `then`; the
    caller may go on to `pc` with it. -/
theorem CallInv.driver (hi : CallInv c) (hl : isDriver l) (hs : stepInner c l = some c') :
    (∀ pc, CallerOk { c' with caller := pc } → CallInv { c' with caller := pc }) ∧
      c'.continuation.beforeRelease = c.continuation.beforeRelease := by
  simp only [stepInner, Option.map_eq_some_iff] at hs
  obtain ⟨inner, hnext, rfl⟩ := hs
  have hinner := Future.inv_step hi.inner hnext
  have hcont := hi.continuation
  unfold ContinuationOk at hcont
  cases hinv : invokes c.inner l with
  | none =>
    obtain ⟨hruns, hrunning⟩ := driver_next hl hinv hnext
    refine ⟨fun pc hcaller => ⟨hinner, hi.outer, hcaller, ?_⟩, rfl⟩
    show ContinuationOk { c with inner := inner }
    unfold ContinuationOk
    simpa only [hruns, hrunning] using hcont
  | some side =>
    obtain ⟨hruns, hrunning⟩ := invokes_next hinv hnext
    have hok := hinner.continuationOk
    -- the continuation runs at most once, so this is its first call
    have hnil : c.inner.runs = [] := by
      have hlen := hok.once
      rw [hruns] at hlen
      simpa using hlen
    have hsome : c.inner.value.isSome := by
      have hmem : c.inner.value ∈ inner.runs := by simp [hruns]
      exact (hok.afterValue _ hmem).1
    have hnot := (hi.notRun_of_runs hnil).1
    simp only [hnot] at hcont
    refine ⟨fun pc hcaller => ⟨hinner, hi.outer, hcaller, ?_, hrunning, hsome, hcont.2.2⟩, ?_⟩
    · show inner.runs ≠ []
      simp [hruns]
    · simp [hnot, ContinuationPC.beforeRelease]

/-- The end of the continuation. -/
theorem CallInv.endContinuation {side : Side} (hi : CallInv c)
    (hk : c.continuation = .inSetValue side) (hpub : c.outer.producer.published)
    (hl : l = .callbackReturn side ∨ l = .callbackThrow side) (hs : stepInner c l = some c') :
    CallInv { c' with continuation := .finished } := by
  obtain ⟨hnext, houter, hpc⟩ := stepInner_next hs
  have hcont := hi.continuation
  unfold ContinuationOk at hcont
  simp only [hk] at hcont
  obtain ⟨hruns, hconsumer, hnot⟩ := callbackEnd_next hi.inner hl hnext
  refine ⟨Future.inv_step hi.inner hnext, houter ▸ hi.outer, ?_, ?_⟩
  · -- only a caller still inside `then` may run the continuation itself
    have hcaller := hi.caller
    unfold CallerOk at hcaller ⊢
    cases hk : c.caller <;> simp only [hpc, hk] at hcaller ⊢ <;>
      rw [hconsumer (by simp [hcaller]), hcaller]
  · refine ⟨?_, hnot, ?_⟩
    · show c'.inner.runs ≠ []
      rw [hruns]
      exact hcont.1
    · show c'.outer.producer.published
      rw [houter]
      exact hpub

/-! ### Steps on the Outer Future -/

theorem setValue_argument (hi : Future.Inv .primary s) (hl : isSetValue l)
    (harg : s.producer.argument.isSome) (hs : Future.next .primary s l = some s') :
    s'.producer.argument.isSome := by
  cases l with
  | producer =>
    have hstep : Future.producerStep .primary s = some s' := hs
    have hready := hi.payload.ready
    unfold Future.producerStep at hstep
    cases hp : s.producer <;> simp [hp] at harg hready <;>
      simp only [hp, hready, Bool.false_eq_true, if_false] at hstep <;>
      (try split at hstep) <;> cases hstep <;> simp
  | callbackReturn side | callbackThrow side =>
    cases side with
    | consumer => simp [isSetValue] at hl
    | producer =>
      cases hp : s.producer <;> simp only [Future.next, hp, Option.some.injEq, reduceCtorEq] at hs
      subst hs
      rfl
  | _ => simp [isSetValue] at hl

theorem stepOuter_next (hs : stepOuter c l = some c') :
    Future.next .primary c.outer l = some c'.outer ∧ c'.caller = c.caller ∧
      c'.continuation = c.continuation := by
  simp only [stepOuter, Option.map_eq_some_iff] at hs
  obtain ⟨outer, hnext, rfl⟩ := hs
  exact ⟨hnext, rfl, rfl⟩

/-- A step of the caller of `complete` on the outer future. -/
theorem CallInv.user (hi : CallInv c) (hl : isUser l) (hs : stepOuter c l = some c') :
    CallInv c' := by
  simp only [stepOuter, Option.map_eq_some_iff] at hs
  obtain ⟨outer, hnext, rfl⟩ := hs
  refine ⟨hi.inner, Future.inv_step hi.outer hnext, hi.caller, ?_⟩
  have hcont := hi.continuation
  unfold ContinuationOk at hcont ⊢
  simpa only [user_producer hl hnext] using hcont

/-- A step of the `set_value` the continuation has called. -/
theorem CallInv.setValueStep {side : Side} (hi : CallInv c)
    (hk : c.continuation = .inSetValue side) (hl : isSetValue l)
    (hs : stepOuter c l = some c') : CallInv c' := by
  simp only [stepOuter, Option.map_eq_some_iff] at hs
  obtain ⟨outer, hnext, rfl⟩ := hs
  refine ⟨hi.inner, Future.inv_step hi.outer hnext, hi.caller, ?_⟩
  have hcont := hi.continuation
  unfold ContinuationOk at hcont ⊢
  simp only [hk] at hcont ⊢
  exact ⟨hcont.1, hcont.2.1, setValue_argument hi.outer hl hcont.2.2 hnext⟩

/-- The continuation calls the outer `set_value`. -/
theorem CallInv.callSetValue {side : Side} {resp : R} (hi : CallInv c)
    (hk : c.continuation = .setValue side (some resp))
    (hs : stepOuter c (.callSetValue resp) = some c') :
    CallInv { c' with continuation := .inSetValue side } := by
  simp only [stepOuter, Option.map_eq_some_iff] at hs
  obtain ⟨outer, hnext, rfl⟩ := hs
  refine ⟨hi.inner, Future.inv_step hi.outer hnext, hi.caller, ?_⟩
  have hcont := hi.continuation
  unfold ContinuationOk at hcont ⊢
  simp only [hk] at hcont
  simp only [Future.next, Option.ite_none_right_eq_some, Option.some.injEq] at hnext
  obtain ⟨-, rfl⟩ := hnext
  exact ⟨hcont.1, hcont.2.1, rfl⟩

/-! ### All Steps of One Call -/

omit [DecidableEq R] [DecidableEq E] in
theorem holds_congr (hpc : c'.caller = c.caller)
    (hk : c'.continuation.beforeRelease = c.continuation.beforeRelease) : c'.holds = c.holds := by
  simp only [Call.holds, hpc, hk]

/-- A step that does not touch the semaphore neither takes nor returns a
    permit. -/
theorem CallInv.localNext {ll : LocalLabel R E} (hi : CallInv c)
    (hs : localNext c ll = some c') : CallInv c' ∧ c'.holds = c.holds := by
  have hcaller := hi.caller
  cases ll with
  | call | rateAcquired | innerReturn | innerThrow =>
    simp only [ThrottledLLMClient.localNext, Option.ite_none_right_eq_some,
      Option.some.injEq] at hs
    obtain ⟨hpc, rfl⟩ := hs
    simp only [CallerOk, hpc] at hcaller
    exact ⟨hi.setCaller hcaller, by simp [Call.holds, hpc]⟩
  | callThen =>
    simp only [ThrottledLLMClient.localNext, Option.ite_none_right_eq_some,
      Option.map_eq_some_iff] at hs
    obtain ⟨hpc, c₁, hstep, rfl⟩ := hs
    simp only [CallerOk, hpc] at hcaller
    obtain ⟨hi', hbefore⟩ := hi.driver rfl hstep
    rw [hi.notRun hcaller] at hbefore
    refine ⟨hi' .inThen trivial, ?_⟩
    simp only [Call.holds, hpc, hbefore]
    rfl
  | thenStep =>
    simp only [ThrottledLLMClient.localNext, Option.ite_none_right_eq_some] at hs
    obtain ⟨hpc, hstep⟩ := hs
    obtain ⟨hi', hbefore⟩ := hi.driver rfl hstep
    have hpc' := (stepInner_next hstep).2.2
    refine ⟨hi' c'.caller ?_, holds_congr hpc' hbefore⟩
    simp [CallerOk, hpc', hpc]
  | thenEnds =>
    simp only [ThrottledLLMClient.localNext, Option.ite_none_right_eq_some] at hs
    obtain ⟨hpc, hs⟩ := hs
    cases hc : c.inner.consumer <;> simp only [hc, Option.some.injEq, reduceCtorEq] at hs <;>
    · subst hs
      exact ⟨hi.setCaller hc, by simp [Call.holds, hpc]⟩
  | resolve l =>
    simp only [ThrottledLLMClient.localNext, Option.ite_none_right_eq_some] at hs
    obtain ⟨⟨-, hl⟩, hstep⟩ := hs
    obtain ⟨hi', hbefore⟩ := hi.driver (by simp [isDriver, hl]) hstep
    obtain ⟨hnext, -, hpc⟩ := stepInner_next hstep
    exact ⟨hi' c'.caller (hcaller.of_consumer hpc (resolve_consumer hl hnext)),
      holds_congr hpc hbefore⟩
  | callSetValue =>
    simp only [ThrottledLLMClient.localNext] at hs
    split at hs
    · next side resp hk =>
      simp only [Option.map_eq_some_iff] at hs
      obtain ⟨c₁, hstep, rfl⟩ := hs
      refine ⟨hi.callSetValue hk hstep, holds_congr (stepOuter_next hstep).2.1 ?_⟩
      simp [hk, ContinuationPC.beforeRelease]
    · cases hs
  | setValueStep l =>
    simp only [ThrottledLLMClient.localNext] at hs
    split at hs
    · next side hk =>
      simp only [Option.ite_none_right_eq_some] at hs
      obtain ⟨hl, hstep⟩ := hs
      obtain ⟨-, hpc, hcont⟩ := stepOuter_next hstep
      exact ⟨hi.setValueStep hk hl hstep, holds_congr hpc (by rw [hcont])⟩
    · cases hs
  | continuationEnds =>
    simp only [ThrottledLLMClient.localNext] at hs
    split at hs
    · next side hk =>
      -- the permit was released before the outer `set_value` was called
      have hend : ∀ {l c₁}, l = .callbackReturn side ∨ l = .callbackThrow side →
          c.outer.producer.published → stepInner c l = some c₁ →
          CallInv { c₁ with continuation := .finished } ∧
            Call.holds { c₁ with continuation := .finished } = c.holds := by
        intro l c₁ hl hpub hstep
        refine ⟨hi.endContinuation hk hpub hl hstep, holds_congr (stepInner_next hstep).2.2 ?_⟩
        simp [hk, ContinuationPC.beforeRelease]
      split at hs
      · next v hp =>
        obtain ⟨c₁, hstep, rfl⟩ := Option.map_eq_some_iff.mp hs
        exact hend (.inl rfl) (by simp [hp]) hstep
      · next v hp =>
        obtain ⟨c₁, hstep, rfl⟩ := Option.map_eq_some_iff.mp hs
        exact hend (.inr rfl) (by simp [hp]) hstep
      · cases hs
    · cases hs
  | user l =>
    simp only [ThrottledLLMClient.localNext, Option.ite_none_right_eq_some] at hs
    obtain ⟨⟨-, hl⟩, hstep⟩ := hs
    obtain ⟨-, hpc, hcont⟩ := stepOuter_next hstep
    exact ⟨hi.user hl hstep, holds_congr hpc (by rw [hcont])⟩

/-! ### The Invariant of the System -/

/-- Every call is as it should be, and every permit is in the counter or
    with a call. -/
structure Inv {ι : Type*} (maxPermits : ℤ) (s : State ι R E) : Prop where
  calls : ∀ i, CallInv (s.calls i)
  permits : s.sem.Accounted {i | (s.calls i).holds}
  max : s.sem.maxPermits = maxPermits
  assertion : s.assertFailed = false

variable {ι : Type*} [DecidableEq ι] {maxPermits : ℤ} {t t' : State ι R E}

omit [DecidableEq R] [DecidableEq E] [DecidableEq ι] in
theorem inv_initial (hmax : 1 ≤ maxPermits) : Inv maxPermits (initial ι R E maxPermits) where
  calls := fun _ => callInv_newCall
  permits := by
    have hempty : {i : ι | ((initial ι R E maxPermits).calls i).holds = true} = ∅ := by
      ext i
      simp [initial, newCall, Call.holds]
    rw [hempty]
    exact Semaphore.accounted_new (by omega)
  max := rfl
  assertion := rfl

omit [DecidableEq R] [DecidableEq E] in
theorem calls_setCall {P : Call R E → Prop} {i : ι} (hall : ∀ j, P (t.calls j)) (hc : P c) :
    ∀ j, P ((t.setCall i c).calls j) := by
  intro j
  by_cases hj : j = i
  · subst hj
    simpa [State.setCall] using hc
  · simpa [State.setCall, hj] using hall j

omit [DecidableEq R] [DecidableEq E] in
/-- Only a holder releases, and then it holds no longer. -/
theorem CallInv.released (hi : CallInv c) (hs : released c = some c') :
    CallInv c' ∧ c.holds = true ∧ c'.holds = false := by
  have hcaller := hi.caller
  unfold ThrottledLLMClient.released at hs
  split at hs
  · next hpc =>
    cases hs
    simp only [CallerOk, hpc] at hcaller
    exact ⟨hi.setCaller hcaller, by simp [Call.holds, hpc], rfl⟩
  · next hk _ =>
    cases hs
    have hcont := hi.continuation
    unfold ContinuationOk at hcont
    simp only [hk] at hcont
    refine ⟨⟨hi.inner, hi.outer, hcaller, hcont⟩, ?_⟩
    -- the continuation runs only after the call of `then`
    have hthen : c.inner.consumer ≠ .idle := fun hidle => hcont.1 (hi.inner.runs_of_idle hidle)
    unfold CallerOk at hcaller
    cases hpc : c.caller <;> simp only [hpc] at hcaller <;>
      simp_all [Call.holds, ContinuationPC.beforeRelease]
  · cases hs

theorem inv_step {ll : Label ι R E} (hi : Inv maxPermits t) (hs : next t ll = some t') :
    Inv maxPermits t' := by
  cases ll with
  | step i ll =>
    simp only [next, Option.map_eq_some_iff] at hs
    obtain ⟨c, hstep, rfl⟩ := hs
    obtain ⟨hc, hholds⟩ := (hi.calls i).localNext hstep
    exact ⟨calls_setCall hi.calls hc, hi.permits.update hholds, hi.max, hi.assertion⟩
  | acquire i weak =>
    simp only [next] at hs
    split at hs
    · next pc hpc =>
      have hcaller := (hi.calls i).caller
      simp only [CallerOk, hpc] at hcaller
      have hholds : (t.calls i).holds = false := by simp [Call.holds, hpc]
      split at hs
      · next sem hstep =>
        cases hs
        obtain ⟨-, hpos, rfl⟩ | ⟨-, pc', hpc'⟩ := Semaphore.acquireStep_cases hstep
        · exact ⟨calls_setCall hi.calls ((hi.calls i).setCaller hcaller),
            hi.permits.update_acquire hholds rfl hpos, hi.max, hi.assertion⟩
        · cases hpc'
      · next sem pc' hstep =>
        cases hs
        obtain ⟨hnone, -⟩ | ⟨rfl, -⟩ := Semaphore.acquireStep_cases hstep
        · cases hnone
        · exact ⟨calls_setCall hi.calls ((hi.calls i).setCaller hcaller),
            hi.permits.update (by simp [Call.holds, hpc]), hi.max, hi.assertion⟩
    · cases hs
  | release i =>
    simp only [next, Option.map_eq_some_iff] at hs
    obtain ⟨c, hstep, rfl⟩ := hs
    obtain ⟨hc, hbefore, hafter⟩ := (hi.calls i).released hstep
    obtain ⟨hok, hpermits⟩ := hi.permits.update_release hbefore hafter
    refine ⟨calls_setCall hi.calls hc, hpermits, hi.max, ?_⟩
    simp [State.setCall, hok, hi.assertion]

theorem inv_run (hmax : 1 ≤ maxPermits) {tr : List (Label ι R E)}
    (hrun : (system ι R E maxPermits).Run tr t) : Inv maxPermits t := by
  apply hrun.invariant (P := Inv maxPermits)
  · intro t ht
    rw [ht]
    exact inv_initial hmax
  · intro t ll t' hi hs
    exact inv_step hi hs

/-! ### Bounds -/

/-- The inner call was started and is not resolved. -/
def Call.inFlight (c : Call R E) : Prop := c.caller.started ∧ c.inner.ready = false

omit [DecidableEq R] [DecidableEq E] in
/-- A call in flight holds a permit: what releases it runs after the
    inner future is ready. -/
theorem CallInv.holds_of_inFlight (hi : CallInv c) (hf : c.inFlight) : c.holds := by
  obtain ⟨hstarted, hready⟩ := hf
  have hnil : c.inner.runs = [] := by
    apply List.eq_nil_iff_forall_not_mem.mpr
    intro r hr
    have hr' := (hi.inner.continuationOk.afterValue r hr).2
    simp [hready] at hr'
  have hnot := (hi.notRun_of_runs hnil).1
  cases hpc : c.caller <;>
    simp [CallerPC.started, Call.holds, hpc, hnot, ContinuationPC.beforeRelease] at hstarted ⊢

/-- **The concurrency cap.** However the calls interleave, the counter
    stays between zero and the maximum, at most `max_permits` inner calls
    are in flight, and `release` never trips its assertion. -/
theorem throttle_bounded (hmax : 1 ≤ maxPermits) {tr : List (Label ι R E)}
    (hrun : (system ι R E maxPermits).Run tr t) :
    (0 ≤ t.sem.permits ∧ t.sem.permits ≤ maxPermits) ∧
    ({i | (t.calls i).inFlight}.Finite ∧ ({i | (t.calls i).inFlight}.ncard : ℤ) ≤ maxPermits) ∧
    t.assertFailed = false := by
  have hi := inv_run hmax hrun
  have hsub : {i | (t.calls i).inFlight} ⊆ {i | (t.calls i).holds} := by
    intro i hf
    exact (hi.calls i).holds_of_inFlight hf
  have hle := hi.permits.le_max
  have hcard := hi.permits.ncard_le hsub
  rw [hi.max] at hle hcard
  exact ⟨⟨hi.permits.nonneg, hle⟩, hcard, hi.assertion⟩

/-! ### Nothing Is Lost, Unless an Inner Future Fails -/

/-- The inner promise has been resolved, and the call that did it is over. -/
def resolved : Future.ProducerPC R E → Bool
  | .svDone _ | .svThrew _ | .seDone _ => true
  | _ => false

/-- The call has not got its permit yet, or everything it started is over:
    the inner call has resolved and its continuation has run. -/
def Call.quiet (c : Call R E) : Bool :=
  match c.caller with
  | .idle | .rateAcquire | .semAcquire _ | .rethrown => true
  | .returned | .thenThrew => resolved c.inner.producer
  | .innerComplete | .releaseRethrow | .attach | .inThen => false

omit [DecidableEq R] [DecidableEq E] in
theorem CallInv.finished_of_runs (hi : CallInv c) (hruns : c.inner.runs ≠ [])
    (hnot : ∀ side, ¬ c.inner.runningOn side) :
    c.continuation = .finished ∧ c.outer.ready = true := by
  have hready := hi.outer.payload.ready
  have hcont := hi.continuation
  unfold ContinuationOk at hcont
  cases hk : c.continuation <;> simp [hk, hruns, hnot] at hcont
  exact ⟨rfl, hready.trans hcont⟩

omit [DecidableEq R] [DecidableEq E] in
/-- After a value the continuation has run to its end; after an exception
    it is gone. -/
theorem CallInv.quiet_cases (hi : CallInv c) (hq : c.quiet)
    (hpc : c.caller = .returned ∨ c.caller = .thenThrew) :
    (c.inner.exception = none ∧ c.holds = false ∧ c.outer.ready = true) ∨
    (c.caller = .returned ∧ c.inner.exception ≠ none ∧ c.holds = true ∧
      c.outer.ready = false) := by
  obtain ⟨deleted, hl, -⟩ := hi.inner.ledger
  have hexception := hi.inner.payload.exception
  have hrest : c.inner.consumer = .thDone ∧ c.caller = .returned ∨
      c.inner.consumer = .thThrew ∧ c.caller = .thenThrew := by
    have hcaller := hi.caller
    unfold CallerOk at hcaller
    rcases hpc with hpc | hpc <;> simp only [hpc] at hcaller
    · exact .inl ⟨hcaller, hpc⟩
    · exact .inr ⟨hcaller, hpc⟩
  have hresolved : resolved c.inner.producer := by
    unfold Call.quiet at hq
    rcases hpc with hpc | hpc <;> simpa only [hpc] using hq
  by_cases hruns : c.inner.runs = []
  · refine .inr ?_
    obtain ⟨hnot, hready⟩ := hi.notRun_of_runs hruns
    cases hp : c.inner.producer <;> simp [resolved, hp] at hresolved <;>
      rcases hrest with ⟨hc, hpc⟩ | ⟨hc, hpc⟩ <;> simp [hp, hc, hruns] at hl
    simp [hpc, hexception, hp, hready, Call.holds, hnot, ContinuationPC.beforeRelease]
  · refine .inl ?_
    have hnot : ∀ side, ¬ c.inner.runningOn side := by
      intro side
      cases side with
      | producer => cases hp : c.inner.producer <;> simp [resolved, hp, Future.State.runningOn]
          at hresolved ⊢
      | consumer => rcases hrest with ⟨hc, -⟩ | ⟨hc, -⟩ <;> simp [Future.State.runningOn, hc]
    obtain ⟨hfin, hready⟩ := hi.finished_of_runs hruns hnot
    refine ⟨?_, ?_, hready⟩
    · rw [hexception]
      cases hp : c.inner.producer <;> simp [resolved, hp] at hresolved ⊢
      rcases hrest with ⟨hc, -⟩ | ⟨hc, -⟩ <;> simp [hp, hc] at hl
      exact hruns hl.2.2.2
    · rcases hpc with hpc | hpc <;> simp [Call.holds, hpc, hfin, ContinuationPC.beforeRelease]

/-- **Permits and results.** When everything that was started is over, all
    permits are available and every future that `complete` returned is
    ready if and only if no inner future resolved with an exception. -/
theorem permits_restored_iff (hmax : 1 ≤ maxPermits) {tr : List (Label ι R E)}
    (hrun : (system ι R E maxPermits).Run tr t) (hq : ∀ i, (t.calls i).quiet) :
    (t.sem.permits = maxPermits ∧
      ∀ i, (t.calls i).caller = .returned → (t.calls i).outer.ready = true) ↔
    ∀ i, (t.calls i).caller = .returned → (t.calls i).inner.exception = none := by
  have hi := inv_run hmax hrun
  have hfull := hi.permits.full_iff
  rw [hi.max] at hfull
  rw [hfull]
  constructor
  · rintro ⟨-, hready⟩ i hpc
    rcases (hi.calls i).quiet_cases (hq i) (.inl hpc) with ⟨hnone, -⟩ | ⟨-, -, -, hno⟩
    · exact hnone
    · simp [hready i hpc] at hno
  · intro hnone
    refine ⟨Set.eq_empty_of_forall_notMem fun i hholds => ?_, fun i hpc => ?_⟩
    · have hpc : (t.calls i).caller = .returned ∨ (t.calls i).caller = .thenThrew := by
        have hqi := hq i
        unfold Call.quiet at hqi
        cases hpc : (t.calls i).caller <;> simp [Call.holds, hpc] at hholds hqi ⊢
      rcases (hi.calls i).quiet_cases (hq i) hpc with ⟨-, hno, -⟩ | ⟨hret, hexc, -⟩
      · simp [hno] at hholds
      · exact hexc (hnone i hret)
    · rcases (hi.calls i).quiet_cases (hq i) (.inl hpc) with ⟨-, -, hready⟩ | ⟨-, hexc, -⟩
      · exact hready
      · exact absurd (hnone i hpc) hexc

/-! ### Runs of Two Calls That Share One Permit -/

/-- Call `0` takes the permit, starts the inner call and returns its
    future; call `1` finds no permit. -/
def firstInFlight : List (Label (Fin 2) ℕ ℕ) :=
  [.step 0 .call, .step 0 .rateAcquired, .step 1 .call, .step 1 .rateAcquired,
    .acquire 0 false, .acquire 1 false, .acquire 0 true, .acquire 0 false, .acquire 1 false,
    .acquire 1 false, .step 0 .innerReturn, .step 0 .callThen, .step 0 .thenStep,
    .step 0 .thenEnds]

/-- The inner future of call `0` resolves with a value. -/
def firstValue : List (Label (Fin 2) ℕ ℕ) :=
  firstInFlight ++ [Label.step 0 (.resolve (.callSetValue 7))] ++
    List.replicate 5 (Label.step 0 (.resolve .producer)) ++
    [Label.release 0, .step 0 .callSetValue] ++
    List.replicate 4 (Label.step 0 (.setValueStep .producer)) ++
    [Label.step 0 .continuationEnds, .step 0 (.resolve .producer)]

/-- The inner future of call `0` resolves with an exception. -/
def firstException : List (Label (Fin 2) ℕ ℕ) :=
  firstInFlight ++ [Label.step 0 (.resolve (.callSetException 5))] ++
    List.replicate 5 (Label.step 0 (.resolve .producer))

theorem firstInFlight_bounded :
    ∃ t : State (Fin 2) ℕ ℕ, (system (Fin 2) ℕ ℕ 1).Run firstInFlight t ∧
      t.sem.permits = 0 ∧ (t.calls 0).inFlight ∧ t.assertFailed = false ∧
      ({i | (t.calls i).inFlight}.ncard : ℤ) ≤ 1 := by
  have hends : (System.exec next (initial (Fin 2) ℕ ℕ 1) firstInFlight).map (fun t =>
      (t.sem.permits, (t.calls 0).caller.started, (t.calls 0).inner.ready)) =
        some (0, true, false) := by decide
  obtain ⟨t, hrun, hends⟩ := System.exists_run_of_exec hends
  simp only [Prod.mk.injEq] at hends
  obtain ⟨-, ⟨-, hcard⟩, hassert⟩ := throttle_bounded (by decide) hrun
  exact ⟨t, hrun, hends.1, ⟨hends.2.1, hends.2.2⟩, hassert, hcard⟩

theorem firstValue_restored :
    ∃ t : State (Fin 2) ℕ ℕ, (system (Fin 2) ℕ ℕ 1).Run firstValue t ∧
      (t.calls 0).caller = .returned ∧ t.sem.permits = 1 ∧ (t.calls 0).outer.ready = true := by
  have hends : (System.exec next (initial (Fin 2) ℕ ℕ 1) firstValue).map (fun t =>
      (decide (∀ i, (t.calls i).quiet), (t.calls 0).caller,
        decide (∀ i, (t.calls i).inner.exception = none))) =
        some (true, .returned, true) := by decide
  obtain ⟨t, hrun, hends⟩ := System.exists_run_of_exec hends
  simp only [Prod.mk.injEq, decide_eq_true_eq] at hends
  obtain ⟨hq, hret, hnone⟩ := hends
  obtain ⟨hpermits, hready⟩ := (permits_restored_iff (by decide) hrun hq).mpr fun i _ => hnone i
  exact ⟨t, hrun, hret, hpermits, hready 0 hret⟩

/-- The permit is lost and the caller's future never becomes ready. -/
theorem exception_loses_permit :
    ¬ ∀ (tr : List (Label (Fin 2) ℕ ℕ)) (t : State (Fin 2) ℕ ℕ),
      (system (Fin 2) ℕ ℕ 1).Run tr t → (∀ i, (t.calls i).quiet) →
      t.sem.permits = 1 ∧ ∀ i, (t.calls i).caller = .returned → (t.calls i).outer.ready = true := by
  intro hall
  have hends : (System.exec next (initial (Fin 2) ℕ ℕ 1) firstException).map (fun t =>
      (decide (∀ i, (t.calls i).quiet), t.sem.permits)) = some (true, 0) := by decide
  obtain ⟨t, hrun, hends⟩ := System.exists_run_of_exec hends
  simp only [Prod.mk.injEq, decide_eq_true_eq] at hends
  have hpermits := (hall _ t hrun hends.1).1
  omega

end Forge.ThrottledLLMClient
