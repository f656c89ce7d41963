import Forge.Runtime.RuntimeInvariant

/-! # The Runtime — Every Step Keeps the Invariant

  One lemma for every kind of task that may be on top of a stack, and one
  for the workers. The single statements of a session are gone through in
  `Inv.sessionStep` only.
-/

open LTS

namespace Forge.Runtime

open ThreadPool (CallOrder Change Conserved Looks Takes Pushes Finishes Enqueues)

variable {n : ℕ} [NeZero n] {ι : Type*} [DecidableEq ι] {k : ℤ} {reg : ToolRegistry}
  {s s' : State n ι} {i : ι}

/-! ### Steps of the Pool -/

theorem poolStep_eq_some {l : ThreadPool.Label n (Task ι)} (hs : s.poolStep l = some s') :
    ∃ p', ThreadPool.next s.pool l = some p' ∧ s' = { s with pool := p' } := by
  simp only [State.poolStep, Option.map_eq_some_iff] at hs
  obtain ⟨p', hp, rfl⟩ := hs
  exact ⟨p', hp, rfl⟩

theorem Inv.conserved_next {l : ThreadPool.Label n (Task ι)} {p' : ThreadPool.State n (Task ι)}
    (hi : Inv k s) (hp : ThreadPool.next s.pool l = some p') : Conserved p' :=
  hi.order.conserved.moves (ThreadPool.next_moves hp)

/-- A worker that is in no task. -/
theorem Inv.worker {w victim : Fin n} {lost : Bool} (hi : Inv k s)
    (hs : s.poolStep (.worker w victim lost) = some s') : Inv k s' := by
  obtain ⟨p', hp, rfl⟩ := poolStep_eq_some hs
  obtain ⟨hactive, hcases⟩ := ThreadPool.worker_cases hi.order.nested hp
  -- no task on its stack is running, so all of them wait
  have hwaits : ∀ t ∈ s.pool.held w, Waits s.agents t := by
    intro t ht
    rcases hi.waits w t ht with hrun | hwait
    · rw [hactive] at hrun
      cases hrun
    · exact hwait
  rcases hcases with hlooks | ⟨t, htakes⟩
  · exact hi.looks hlooks (hi.conserved_next hp) hwaits
  · exact hi.takes htakes (hi.conserved_next hp) hwaits

/-- The running task waits. -/
theorem Inv.wait {w : Fin n} {t : Task ι} (hi : Inv k s) (hactive : s.pool.active w = some t)
    (hwaits : Waits s.agents t) (hs : s.poolStep (.task w .wait) = some s') : Inv k s' := by
  obtain ⟨p', hp, rfl⟩ := poolStep_eq_some hs
  refine hi.looks (ThreadPool.looks_wait hi.order.nested hp) (hi.conserved_next hp) fun u hu => ?_
  by_cases hut : u = t
  · rw [hut]
    exact hwaits
  · exact hi.waits_below hactive hu hut

/-- The running task finishes. -/
theorem Inv.finish_cases {w : Fin n} {t : Task ι} {p' : ThreadPool.State n (Task ι)}
    (hi : Inv k s) (hactive : s.pool.active w = some t)
    (ht : ∀ j, t = .session j → (s.agents j).phase.posted = false)
    (hp : ThreadPool.next s.pool (.task w .finish) = some p') :
    Finishes s.pool p' w t ∧ CallOrder Task.isSession Task.caller p' := by
  obtain ⟨u, hfinishes⟩ := ThreadPool.finishes_finish hi.order.nested hp
  have hut : u = t := by
    have hu := hfinishes.active
    rw [hactive, Option.some.injEq] at hu
    exact hu.symm
  subst hut
  refine ⟨hfinishes, hi.order.change (.finishes w u hfinishes ?_) (hi.conserved_next hp)⟩
  -- the tasks of a session that finishes have left the deque
  intro v hv hcaller
  cases u with
  | session j =>
    have hposted := hi.posted_of_stored hcaller (ThreadPool.mem_deques_stored hv)
    rw [ht j rfl] at hposted
    cases hposted
  | http j m | transform j m | tool j b m =>
    cases v <;> simp [Task.caller] at hcaller

/-- A task other than a transform task finishes. -/
theorem Inv.finish {w : Fin n} {t : Task ι} (hi : Inv k s) (hactive : s.pool.active w = some t)
    (hsession : ∀ j, t = .session j → (s.agents j).phase = .react)
    (htransform : ∀ j m, t ≠ .transform j m) (hs : s.poolStep (.task w .finish) = some s') :
    Inv k s' := by
  obtain ⟨p', hp, rfl⟩ := poolStep_eq_some hs
  obtain ⟨h, horder⟩ := hi.finish_cases hactive
    (fun j hj => by rw [hsession j hj]; rfl) hp
  refine hi.finishes h horder (fun j => ?_) (fun j => ⟨rfl, rfl, rfl, rfl⟩) hsession
  refine (hi.agents j).mono (fun m => by rw [h.submitted]) (fun m => by rw [h.submitted]) ?_ ?_
  · rw [h.finished]
    exact List.subset_append_left _ _
  · intro hfin
    rw [h.finished] at hfin
    rcases List.mem_append.mp hfin with hold | hlast
    · exact hold
    · rw [List.mem_singleton] at hlast
      exact absurd hlast.symm (htransform j _)

/-- A running session pushes a task. -/
theorem Inv.push_cases {w : Fin n} {t : Task ι} {p' : ThreadPool.State n (Task ι)} (hi : Inv k s)
    (hactive : s.pool.active w = some (.session i)) (hroot : t.isSession = false)
    (hcaller : t.caller = none ∨ t.caller = some (.session i))
    (hp : ThreadPool.next s.pool (.task w (.submit t)) = some p') :
    Pushes s.pool p' w t ∧ CallOrder Task.isSession Task.caller p' := by
  have h := ThreadPool.pushes_submit hp
  refine ⟨h, hi.order.change (.pushes w t h hroot ?_) (hi.conserved_next hp)⟩
  intro c hc
  rcases hcaller with hnone | hsome
  · rw [hnone] at hc
    cases hc
  · rw [hsome, Option.some.injEq] at hc
    subst hc
    exact ⟨hactive, rfl⟩

/-! ### Sessions -/

theorem reactStep_eq_some {a a' : Agent} {l : Workflow.Label} (hs : a.reactStep reg l = some a') :
    ∃ r, a' = { a with react := r } := by
  simp only [Agent.reactStep, Option.map_eq_some_iff] at hs
  obtain ⟨r, -, rfl⟩ := hs
  exact ⟨r, rfl⟩

/-- A session in a statement of `ReActWorkflow::run`. -/
theorem Inv.reactPhase {w : Fin n} {input : Input} (hi : Inv k s)
    (hactive : s.pool.active w = some (.session i)) (hphase : (s.agents i).phase = .react)
    (hs : sessionStep reg s w i input = some s') : Inv k s' := by
  have hout : (s.agents i).phase.posted = false := by
    rw [hphase]
    rfl
  have hfree : (s.agents i).holds = false := by simp [Agent.holds, hphase]
  -- a step of the workflow itself
  have hreact : ∀ l, ((s.agents i).reactStep reg l).map (s.setAgent i) = some s' → Inv k s' := by
    intro l hl
    simp only [Option.map_eq_some_iff] at hl
    obtain ⟨a', ha', rfl⟩ := hl
    obtain ⟨r, rfl⟩ := reactStep_eq_some ha'
    exact hi.outside hactive hout hout rfl rfl rfl rfl rfl
  simp only [sessionStep, hphase] at hs
  split at hs
  · cases hs
    exact hi.outside hactive hout rfl (by rw [hfree]; rfl) rfl rfl rfl rfl
  · cases hs
    exact hi.outside hactive hout rfl (by rw [hfree]; rfl) rfl rfl rfl rfl
  · refine hi.finish hactive ?_ (by simp) hs
    intro j hj
    cases hj
    exact hphase
  · refine hi.finish hactive ?_ (by simp) hs
    intro j hj
    cases hj
    exact hphase
  · cases hs
  · cases hs
  · cases hs
  · exact hreact _ hs
  · exact hreact _ hs
  · cases hs

/-- A session that waits in `execute_batch`. -/
theorem Inv.waitTools {w : Fin n} {input : Input} {calls : List ToolCall}
    {outcomes : List ToolOutcome} (hi : Inv k s) (hactive : s.pool.active w = some (.session i))
    (hphase : (s.agents i).phase = .waitTools calls outcomes)
    (hs : sessionStep reg s w i input = some s') : Inv k s' := by
  have hout : (s.agents i).phase.posted = false := by
    rw [hphase]
    rfl
  have hfree : (s.agents i).holds = false := by simp [Agent.holds, hphase]
  have hwaits : Waits s.agents (.session i) := by
    simp [Waits, hphase, Phase.waits]
  have hcollect : ∀ o, Inv k (s.setAgent i
      { s.agents i with phase := .waitTools calls (outcomes ++ [o]) }) := by
    intro o
    exact hi.outside hactive hout rfl (by rw [hfree]; rfl) rfl rfl rfl rfl
  simp only [sessionStep, hphase] at hs
  split at hs
  · split at hs
    · split at hs
      · split at hs <;> cases hs
        exact hcollect _
      · split at hs
        · cases hs
        · exact hi.wait hactive hwaits hs
      · cases hs
    · split at hs <;> cases hs
      exact hcollect _
  · simp only [Option.map_eq_some_iff] at hs
    obtain ⟨a', ha', rfl⟩ := hs
    obtain ⟨r, rfl⟩ := reactStep_eq_some ha'
    exact hi.outside hactive hout rfl (by rw [hfree]; rfl) rfl rfl rfl rfl
  · cases hs

/-- A session that pushes a task of its call. -/
theorem Inv.pushCall {w : Fin n} {t : Task ι} {ph : Phase} (hi : Inv k s)
    (hactive : s.pool.active w = some (.session i)) (hcaller : t.caller = some (.session i))
    (hget : (s.agents i).phase ≠ .get) (hph : ph = .submit ∨ ph = .attach)
    (hholds : (s.agents i).holds = true)
    (hhttp : ∀ m, (.http i m ∈ s.pool.submitted ∨ .http i m = t) ↔
      m < (s.agents i).calls ∨ (m = (s.agents i).calls ∧ ph.posted))
    (htransform : ∀ m, (.transform i m ∈ s.pool.submitted ∨ .transform i m = t) ↔
      m < (s.agents i).calls ∨ (m = (s.agents i).calls ∧ ph.chained))
    (hs : (s.setAgent i { s.agents i with phase := ph }).poolStep (.task w (.submit t)) = some s') :
    Inv k s' := by
  obtain ⟨p', hp, rfl⟩ := poolStep_eq_some hs
  have hroot : t.isSession = false := by
    cases t <;> first | rfl | cases hcaller
  obtain ⟨h, horder⟩ := hi.push_cases hactive hroot (.inr hcaller) hp
  have hmem : ∀ u, u ∈ p'.submitted ↔ u ∈ s.pool.submitted ∨ u = t := by
    intro u
    simp [h.submitted]
  refine hi.sessionMoves hactive h.workers horder ?_ (fun j hj => ?_) rfl rfl ?_ hi.maxPermits
  · exact (hi.agents i).pushes hget hph (fun m => (hmem _).trans (hhttp m))
      (fun m => (hmem _).trans (htransform m)) h.finished
  -- it is no task of another session
  · have hother : ∀ m, .http j m ≠ t ∧ .transform j m ≠ t := by
      intro m
      constructor <;> intro heq <;> subst heq <;>
        simp only [Task.caller, Option.some.injEq, Task.session.injEq] at hcaller <;>
        exact hj hcaller
    refine (hi.agents j).submits (fun m => ?_) (fun m => ?_) h.finished
    · rw [hmem]
      simp [hother]
    · rw [hmem]
      simp [hother]
  · apply hi.permits.update
    rw [hholds]
    rcases hph with rfl | rfl <;> rfl

/-- A session in `execute_batch` that launches a tool. -/
theorem Inv.pushTool {w : Fin n} {b m : ℕ} {ph : Phase} (hi : Inv k s)
    (hactive : s.pool.active w = some (.session i)) (hphase : (s.agents i).phase.posted = false)
    (hph : ph.posted = false)
    (hholds : ({ s.agents i with phase := ph } : Agent).holds = (s.agents i).holds)
    (hs : (s.setAgent i { s.agents i with phase := ph }).poolStep
      (.task w (.submit (.tool i b m))) = some s') : Inv k s' := by
  obtain ⟨p', hp, rfl⟩ := poolStep_eq_some hs
  obtain ⟨h, horder⟩ := hi.push_cases hactive rfl (.inl rfl) hp
  have hok : ∀ j, AgentOk p' j (s.agents j) := by
    intro j
    exact (hi.agents j).submits (fun m => by simp [h.submitted]) (fun m => by simp [h.submitted])
      h.finished
  exact hi.sessionMoves hactive h.workers horder
    ((hok i).outside hphase hph rfl rfl rfl rfl) (fun j _ => hok j) rfl rfl
    (hi.permits.update hholds) hi.maxPermits

/-- A session in `llm_future.get()`. -/
theorem Inv.getPhase {w : Fin n} {input : Input} (hi : Inv k s)
    (hactive : s.pool.active w = some (.session i)) (hphase : (s.agents i).phase = .get)
    (hs : sessionStep reg s w i input = some s') : Inv k s' := by
  have hok := hi.agents i
  cases input <;> simp only [sessionStep, hphase, reduceCtorEq] at hs
  case tau =>
    split at hs
    · cases hs
    · exact hi.wait hactive (by simp [Waits, hphase, Phase.waits]) hs
  case reply r =>
    split at hs
    · next hready =>
      simp only [Option.map_eq_some_iff] at hs
      obtain ⟨a', ha', rfl⟩ := hs
      obtain ⟨r', rfl⟩ := reactStep_eq_some ha'
      have hsub : s.pool.finished ⊆ s.pool.submitted :=
        fun t ht => hi.order.conserved.submitted_of_finished ht
      refine hi.setAgent rfl hi.order (hok.leave hsub hready) (fun j _ => hi.agents j)
        (by simp) (fun v hv => .inl (hi.active_of_held hactive hv)) (fun v m hv => ?_) ?_
        hi.maxPermits
      -- the transform task has finished, so it is on no stack
      · have hnone := (hi.transform_held hv).2.2
        rw [hready] at hnone
        cases hnone
      · exact hi.permits.update (by simp [Agent.holds, hphase, hready])
    · cases hs

/-- **Sessions, step.** -/
theorem Inv.sessionStep {w : Fin n} {input : Input} (hi : Inv k s)
    (hactive : s.pool.active w = some (.session i))
    (hs : sessionStep reg s w i input = some s') : Inv k s' := by
  have hok := hi.agents i
  cases hphase : (s.agents i).phase
  case react => exact hi.reactPhase hactive hphase hs
  case waitTools => exact hi.waitTools hactive hphase hs
  case get => exact hi.getPhase hactive hphase hs
  all_goals
    cases input <;> simp only [Runtime.sessionStep, hphase, Option.some.injEq, reduceCtorEq] at hs
  case acquire.tau iter pc =>
    subst hs
    exact hi.acquire hactive hphase
  case acquire.weak iter pc =>
    subst hs
    exact hi.acquire hactive hphase
  case post.tau =>
    refine hi.pushCall hactive rfl (by simp [hphase]) (.inl rfl) (by simp [Agent.holds, hphase])
      (fun m => ?_) (fun m => ?_) hs
    · rw [hok.http m]
      simp [hphase, Phase.posted]
    · rw [hok.transform m]
      simp [hphase, Phase.chained]
  case submit.tau =>
    refine hi.pushCall hactive rfl (by simp [hphase]) (.inr rfl) (by simp [Agent.holds, hphase])
      (fun m => ?_) (fun m => ?_) hs
    · rw [hok.http m]
      simp [hphase, Phase.posted]
    · rw [hok.transform m]
      simp [hphase, Phase.chained]
  case attach.tau =>
    split at hs
    -- the value is there: the session runs the continuation itself
    · next hslot =>
      cases hs
      refine hi.sessionMoves hactive rfl hi.order (hok.continuation (.inl hphase) hslot (.inl rfl))
        (fun j _ => hi.agents j) rfl rfl ?_ hi.maxPermits
      exact hi.permits.update (by simp [Agent.holds, hphase])
    · next hslot =>
      simp only [Option.map_eq_some_iff] at hs
      obtain ⟨a', ha', rfl⟩ := hs
      obtain ⟨r, rfl⟩ := reactStep_eq_some ha'
      have hready : (s.agents i).ready = false := by
        cases heq : (s.agents i).ready with
        | false => rfl
        | true => simp [(hok.ready heq).1] at hphase
      have hstage : (s.agents i).transform = .get := by
        by_contra hne
        simp [hok.attached (hok.stage hne).1] at hphase
      refine hi.sessionMoves hactive rfl hi.order (hok.attach hphase hslot)
        (fun j _ => hi.agents j) rfl rfl ?_ hi.maxPermits
      exact hi.permits.update (by simp [Agent.holds, hphase, hready, hstage])
  case release.tau =>
    subst hs
    have hslot : (s.agents i).slot = .value := by
      cases heq : (s.agents i).slot with
      | empty => exact absurd hphase (hok.empty heq).1
      | attached => simp [hok.attached heq] at hphase
      | value => rfl
    refine hi.sessionMoves hactive rfl hi.order (hok.continuation (.inr hphase) hslot (.inr rfl))
      (fun j _ => hi.agents j) rfl rfl ?_ hi.maxPermits
    exact (hi.permits.update_release (by simp [Agent.holds, hphase]) (by simp [Agent.holds])).2
  case setResult.tau =>
    simp only [Option.map_eq_some_iff] at hs
    obtain ⟨a', ha', rfl⟩ := hs
    obtain ⟨r, rfl⟩ := reactStep_eq_some ha'
    refine hi.sessionMoves hactive rfl hi.order (hok.setResult hphase) (fun j _ => hi.agents j)
      rfl rfl ?_ hi.maxPermits
    exact hi.permits.update (by simp [Agent.holds, hphase])
  case submitTools.tau calls idx =>
    have hout : (s.agents i).phase.posted = false := by
      rw [hphase]
      rfl
    have hfree : (s.agents i).holds = false := by simp [Agent.holds, hphase]
    split at hs
    · split at hs
      · exact hi.pushTool hactive hout rfl (by rw [hfree]; rfl) hs
      · cases hs
        exact hi.outside hactive hout rfl (by rw [hfree]; rfl) rfl rfl rfl rfl
    · cases hs
      exact hi.outside hactive hout rfl (by rw [hfree]; rfl) rfl rfl rfl rfl

/-! ### Transform Tasks -/

/-- The transform task finishes and leaves a value or a result. -/
theorem Inv.transformFinish {w : Fin n} {m : ℕ} {a : Agent} (hi : Inv k s)
    (hactive : s.pool.active w = some (.transform i m))
    (hok : ∀ p' : ThreadPool.State n (Task ι), p'.submitted = s.pool.submitted →
      p'.finished = s.pool.finished ++ [.transform i (s.agents i).calls] → AgentOk p' i a)
    (hphase : a.phase = (s.agents i).phase) (hcalls : a.calls = (s.agents i).calls)
    (htransform : a.transform = (s.agents i).transform) (hholds : a.holds = (s.agents i).holds)
    (hs : (s.setAgent i a).poolStep (.task w .finish) = some s') : Inv k s' := by
  obtain ⟨p', hp, rfl⟩ := poolStep_eq_some hs
  obtain ⟨h, horder⟩ := hi.finish_cases hactive (by simp) hp
  have hm := (hi.transform_held (ThreadPool.mem_held_of_active hactive)).1
  subst hm
  refine hi.finishes h horder (fun j => ?_) (fun j => ?_) (by simp)
  · by_cases hj : j = i
    · subst hj
      simpa [State.setAgent] using hok p' h.submitted h.finished
    · have hother : AgentOk p' j (s.agents j) := by
        refine (hi.agents j).mono (fun m => by rw [h.submitted]) (fun m => by rw [h.submitted])
          ?_ ?_
        · rw [h.finished]
          exact List.subset_append_left _ _
        · simp [h.finished, hj]
      simpa [State.setAgent, hj] using hother
  · by_cases hj : j = i
    · subst hj
      simpa [State.setAgent] using ⟨hphase, hcalls, htransform, hholds⟩
    · simp [State.setAgent, hj]

/-- **Transform tasks, step.** -/
theorem Inv.transformStep {w : Fin n} {m : ℕ} (hi : Inv k s)
    (hactive : s.pool.active w = some (.transform i m)) (hs : transformStep s w i m = some s') :
    Inv k s' := by
  have hok := hi.agents i
  have hheld := ThreadPool.mem_held_of_active hactive
  obtain ⟨hm, hchained, hready⟩ := hi.transform_held hheld
  cases hstage : (s.agents i).transform <;> simp only [Runtime.transformStep, hstage] at hs
  case get =>
    split at hs
    · next hhttp =>
      simp only [State.isReady, decide_eq_true_eq] at hhttp
      subst hm
      split at hs
      · next hslot =>
        cases hs
        refine hi.transformMoves hactive hslot hhttp ?_ hi.maxPermits
        exact hi.permits.update (by simp [Agent.holds, hok.attached hslot, hslot, hready, hstage])
      · next hslot =>
        -- nothing is attached yet, so the session has not come to `then`
        have hempty : (s.agents i).slot = .empty := by
          cases heq : (s.agents i).slot with
          | empty => rfl
          | attached => exact absurd heq hslot
          | value =>
            exact absurd (hok.value heq).2 (hi.order.conserved.not_finished_of_held hheld)
        have hphase : (s.agents i).phase = .attach := by
          obtain ⟨hrel, hset, hget⟩ := hok.empty hempty
          revert hchained hrel hset hget
          cases (s.agents i).phase <;> simp [Phase.chained]
        rw [← hstage] at hs
        refine hi.transformFinish hactive (fun p' => hok.setValue hphase hstage hhttp) rfl rfl rfl
          ?_ hs
        simp [Agent.holds, hphase]
    · exact hi.wait hactive ⟨hm, hstage⟩ hs
  case release =>
    cases hs
    obtain ⟨hslot, hhttp⟩ := hok.stage (by simp [hstage])
    have hget := hok.attached hslot
    exact hi.transformMoves hactive hslot hhttp
      (hi.permits.update_release (by simp [Agent.holds, hget, hslot, hstage, hready])
        (by simp [Agent.holds, hget])).2 hi.maxPermits
  case setResult =>
    obtain ⟨hslot, -⟩ := hok.stage (by simp [hstage])
    have hget := hok.attached hslot
    rw [← hstage] at hs
    refine hi.transformFinish hactive (fun p' => hok.result (by simp [hstage])) rfl rfl rfl ?_ hs
    simp [Agent.holds, hget, hstage]

/-! ### Runs -/

/-- **Invariant step.** -/
theorem inv_step {l : Label n ι} (hi : Inv k s) (hs : next reg s l = some s') : Inv k s' := by
  cases l with
  | submit i =>
    obtain ⟨p', hp, rfl⟩ := poolStep_eq_some hs
    exact hi.enqueues (ThreadPool.enqueues_submit hp) (hi.conserved_next hp)
  | cancel i =>
    simp only [next, Option.some.injEq] at hs
    subst hs
    -- the flag it sets is no part of what the invariant says of a session
    refine hi.setAgent rfl hi.order { hi.agents i with } (fun j _ => hi.agents j)
      (hi.hands i) (fun v hv => hi.waits v _ hv) (fun v m hv => hi.waits v _ hv) ?_ hi.maxPermits
    exact hi.permits.update rfl
  | worker w victim lost => exact hi.worker hs
  | step w input =>
    simp only [next] at hs
    split at hs
    · next t rest hstack =>
      have hactive : s.pool.active w = some t := by simp [ThreadPool.State.active, hstack]
      cases t with
      | session i => exact hi.sessionStep hactive hs
      | http i m =>
        simp only [taskStep, Option.ite_none_right_eq_some] at hs
        exact hi.finish hactive (by simp) (by simp) hs.2
      | transform i m =>
        simp only [taskStep, Option.ite_none_right_eq_some] at hs
        exact hi.transformStep hactive hs.2
      | tool i b m =>
        simp only [taskStep, Option.ite_none_right_eq_some] at hs
        exact hi.finish hactive (by simp) (by simp) hs.2
    · cases hs

theorem inv_run {tr : List (Label n ι)} {x : ι → Session} (hk : 0 ≤ k)
    (hrun : (system n k reg x).Run tr s) : Inv k s := by
  apply hrun.invariant (P := Inv k)
  · intro s hs
    rw [hs]
    exact inv_initial hk x
  · intro s l s' hi hs
    exact inv_step hi hs

end Forge.Runtime
