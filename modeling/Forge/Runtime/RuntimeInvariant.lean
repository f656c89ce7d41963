import Forge.Core.ThreadPoolCalls
import Forge.Runtime.Runtime

/-! # The Runtime — Invariant

  - The sessions are root tasks of the pool, and the session that makes an
    LLM call is the caller of the two tasks of the call (`CallOrder`).
  - The record of a session agrees with what has become of the tasks of
    its calls (`AgentOk`).
  - A task on a stack is running, or it waits in `Future::get` or
    `wait_for` (`Waits`).
  - Every permit is in the semaphore or held by one call.
-/

open LTS

namespace Forge.Runtime

open ThreadPool (CallOrder Change Conserved Looks Takes Pushes Finishes Enqueues)

variable {n : ℕ} {ι : Type*} [DecidableEq ι]

/-! ### Tasks and Sessions -/

def Task.isSession : Task ι → Bool
  | .session _ => true
  | _ => false

/-- The session that made the call. -/
def Task.caller : Task ι → Option (Task ι)
  | .http i _ | .transform i _ => some (.session i)
  | _ => none

/-- The HTTP task of the current call is submitted. -/
def Phase.posted : Phase → Bool
  | .submit | .attach | .release | .setResult | .get => true
  | _ => false

/-- The transform task of the current call is submitted. -/
def Phase.chained : Phase → Bool
  | .attach | .release | .setResult | .get => true
  | _ => false

theorem Phase.posted_of_chained {ph : Phase} (h : ph.chained = true) : ph.posted = true := by
  revert h
  cases ph <;> simp [Phase.posted, Phase.chained]

/-- The session waits and lets its worker run other tasks. -/
def Phase.waits : Phase → Bool
  | .get | .waitTools _ _ => true
  | _ => false

/-- The current call holds a permit. -/
def Agent.holds (a : Agent) : Bool :=
  match a.phase with
  | .post | .submit | .attach | .release => true
  | .get => decide (a.slot = .attached ∧ a.transform ≠ .setResult ∧ a.ready = false)
  | _ => false

/-- The record of session `i` agrees with what has become of the tasks of
    its calls. -/
structure AgentOk (p : ThreadPool.State n (Task ι)) (i : ι) (a : Agent) : Prop where
  http : ∀ m, .http i m ∈ p.submitted ↔ m < a.calls ∨ (m = a.calls ∧ a.phase.posted)
  transform : ∀ m, .transform i m ∈ p.submitted ↔ m < a.calls ∨ (m = a.calls ∧ a.phase.chained)
  past : ∀ m < a.calls, .http i m ∈ p.finished ∧ .transform i m ∈ p.finished
  empty : a.slot = .empty → a.phase ≠ .release ∧ a.phase ≠ .setResult ∧ a.phase ≠ .get
  attached : a.slot = .attached → a.phase = .get
  value : a.slot = .value → .http i a.calls ∈ p.finished ∧ .transform i a.calls ∈ p.finished
  got : a.slot = .value → a.phase = .get → a.ready
  ready : a.ready → a.phase = .get ∧ .http i a.calls ∈ p.finished ∧
    .transform i a.calls ∈ p.finished
  finished : .transform i a.calls ∈ p.finished → a.slot = .value ∨ a.ready
  stage : a.transform ≠ .get → a.slot = .attached ∧ .http i a.calls ∈ p.finished

/-- The task waits for a future and lets its worker run other tasks. -/
def Waits (agents : ι → Agent) : Task ι → Prop
  | .session i => (agents i).phase.waits
  | .transform i m => m = (agents i).calls ∧ (agents i).transform = .get
  | _ => False

structure Inv (k : ℤ) (s : State n ι) : Prop where
  order : CallOrder Task.isSession Task.caller s.pool
  agents : ∀ i, AgentOk s.pool i (s.agents i)
  hands : ∀ i, (s.agents i).phase ≠ .react → ∃ w, .session i ∈ s.pool.held w
  waits : ∀ w, ∀ t ∈ s.pool.held w, s.pool.active w = some t ∨ Waits s.agents t
  permits : s.sem.Accounted {i | (s.agents i).holds}
  maxPermits : s.sem.maxPermits = k

variable {k : ℤ} {s s' : State n ι} {p' : ThreadPool.State n (Task ι)} {i : ι} {a : Agent}

theorem inv_initial (hk : 0 ≤ k) (x : ι → Session) : Inv k (initial n k x) where
  order := ThreadPool.callOrder_initial
  agents := by
    intro i
    refine ⟨?_, ?_, ?_, ?_, ?_, ?_, ?_, ?_, ?_, ?_⟩ <;>
      simp [initial, newAgent, ThreadPool.initial, Phase.posted, Phase.chained]
  hands := by simp [initial, newAgent]
  waits := by simp [initial, ThreadPool.initial, ThreadPool.State.held, ThreadPool.Worker.held]
  permits := by
    have hnone : {i | ((initial n k x).agents i).holds} = ∅ := by
      ext i
      simp [initial, newAgent, Agent.holds]
    rw [hnone]
    exact Semaphore.accounted_new hk
  maxPermits := rfl

omit [DecidableEq ι] in
/-- The record still agrees when nothing has become of the tasks of this
    session, or only its HTTP task has finished. -/
theorem AgentOk.mono {p : ThreadPool.State n (Task ι)} (h : AgentOk p i a)
    (hhttp : ∀ m, .http i m ∈ p'.submitted ↔ .http i m ∈ p.submitted)
    (htransform : ∀ m, .transform i m ∈ p'.submitted ↔ .transform i m ∈ p.submitted)
    (hfinished : p.finished ⊆ p'.finished)
    (hlast : .transform i a.calls ∈ p'.finished → .transform i a.calls ∈ p.finished) :
    AgentOk p' i a where
  http := fun m => (hhttp m).trans (h.http m)
  transform := fun m => (htransform m).trans (h.transform m)
  past := fun m hm => ⟨hfinished (h.past m hm).1, hfinished (h.past m hm).2⟩
  empty := h.empty
  attached := h.attached
  value := fun hslot => ⟨hfinished (h.value hslot).1, hfinished (h.value hslot).2⟩
  got := h.got
  ready := fun hready =>
    ⟨(h.ready hready).1, hfinished (h.ready hready).2.1, hfinished (h.ready hready).2.2⟩
  finished := fun hfin => h.finished (hlast hfin)
  stage := fun hstage => ⟨(h.stage hstage).1, hfinished (h.stage hstage).2⟩

omit [DecidableEq ι] in
/-- No task of this session is submitted, and none finishes. -/
theorem AgentOk.submits {p : ThreadPool.State n (Task ι)} (h : AgentOk p i a)
    (hhttp : ∀ m, .http i m ∈ p'.submitted ↔ .http i m ∈ p.submitted)
    (htransform : ∀ m, .transform i m ∈ p'.submitted ↔ .transform i m ∈ p.submitted)
    (hfinished : p'.finished = p.finished) : AgentOk p' i a := by
  refine h.mono hhttp htransform ?_ ?_
  · rw [hfinished]
    exact List.Subset.refl _
  · rw [hfinished]
    exact id

omit [DecidableEq ι] in
theorem AgentOk.congr {p : ThreadPool.State n (Task ι)} (h : AgentOk p i a)
    (hsubmitted : p'.submitted = p.submitted) (hfinished : p'.finished = p.finished) :
    AgentOk p' i a :=
  h.submits (fun m => by rw [hsubmitted]) (fun m => by rw [hsubmitted]) hfinished

/-- A transform task on a stack belongs to the current call, which has no
    result yet. -/
theorem Inv.transform_held (hi : Inv k s) {w : Fin n} {m : ℕ}
    (h : .transform i m ∈ s.pool.held w) :
    m = (s.agents i).calls ∧ (s.agents i).phase.chained ∧ (s.agents i).ready = false := by
  have hc := hi.order.conserved
  have hnot := hc.not_finished_of_held h
  have hsub := hc.submitted_of_started (hc.started_of_held h)
  rcases ((hi.agents i).transform m).mp hsub with hlt | ⟨rfl, hchained⟩
  · exact absurd ((hi.agents i).past m hlt).2 hnot
  · refine ⟨rfl, hchained, ?_⟩
    cases hready : (s.agents i).ready with
    | false => rfl
    | true => exact absurd ((hi.agents i).ready hready).2.2 hnot

/-- A task of a call that is not started yet belongs to the current call. -/
theorem Inv.posted_of_stored {t : Task ι} (hi : Inv k s) (hcaller : t.caller = some (.session i))
    (hstored : 0 < s.pool.stored t) : (s.agents i).phase.posted = true := by
  have hc := hi.order.conserved
  have hsub := hc.submitted_of_stored hstored
  have hnot := hc.not_finished_of_stored hstored
  cases t <;> simp only [Task.caller, Option.some.injEq, Task.session.injEq, reduceCtorEq]
    at hcaller
  case http j m =>
    subst hcaller
    rcases ((hi.agents j).http m).mp hsub with hlt | ⟨-, hposted⟩
    · exact absurd ((hi.agents j).past m hlt).1 hnot
    · exact hposted
  case transform j m =>
    subst hcaller
    rcases ((hi.agents j).transform m).mp hsub with hlt | ⟨-, hchained⟩
    · exact absurd ((hi.agents j).past m hlt).2 hnot
    · exact Phase.posted_of_chained hchained

/-! ### Steps of the Pool Alone -/

/-- A worker whose tasks all wait goes on looking for another. -/
theorem Inv.looks {w : Fin n} (hi : Inv k s) (h : Looks s.pool p' w) (hc : Conserved p')
    (hwaits : ∀ t ∈ s.pool.held w, Waits s.agents t) : Inv k { s with pool := p' } := by
  have hheld := h.held_eq
  refine ⟨hi.order.change (.looks w h) hc, fun j => (hi.agents j).congr h.submitted h.finished,
    fun j hj => ?_, fun v t ht => ?_, hi.permits, hi.maxPermits⟩
  · obtain ⟨v, hv⟩ := hi.hands j hj
    exact ⟨v, by rw [hheld]; exact hv⟩
  · have ht' : t ∈ s.pool.held v := by
      rw [← hheld]
      exact ht
    by_cases hv : v = w
    · subst hv
      exact .inr (hwaits t ht')
    · rw [ThreadPool.active_others h.others hv]
      exact hi.waits v t ht'

/-- A worker whose tasks all wait takes a task on top of them. -/
theorem Inv.takes {w : Fin n} {t : Task ι} (hi : Inv k s) (h : Takes s.pool p' w t)
    (hc : Conserved p') (hwaits : ∀ u ∈ s.pool.held w, Waits s.agents u) :
    Inv k { s with pool := p' } := by
  refine ⟨hi.order.change (.takes w t h) hc, fun j => (hi.agents j).congr h.submitted h.finished,
    fun j hj => ?_, fun v u hu => ?_, hi.permits, hi.maxPermits⟩
  · obtain ⟨v, hv⟩ := hi.hands j hj
    by_cases hvw : v = w
    · subst hvw
      exact ⟨v, by rw [h.held]; exact List.mem_cons_of_mem _ hv⟩
    · exact ⟨v, by rw [ThreadPool.held_others h.others hvw]; exact hv⟩
  · by_cases hvw : v = w
    · subst hvw
      rw [h.held] at hu
      rcases List.mem_cons.mp hu with rfl | hold
      · exact .inl h.active
      · exact .inr (hwaits u hold)
    · rw [ThreadPool.held_others h.others hvw] at hu
      rw [ThreadPool.active_others h.others hvw]
      exact hi.waits v u hu

/-- A session is dispatched. -/
theorem Inv.enqueues (hi : Inv k s) (h : Enqueues s.pool p' (.session i)) (hc : Conserved p') :
    Inv k { s with pool := p' } := by
  refine ⟨hi.order.change (.enqueues _ h rfl rfl) hc, fun j => ?_, ?_, ?_, hi.permits,
    hi.maxPermits⟩
  · exact (hi.agents j).submits (fun m => by simp [h.submitted]) (fun m => by simp [h.submitted])
      h.finished
  · simpa only [ThreadPool.held_congr h.workers] using hi.hands
  · simpa only [ThreadPool.held_congr h.workers, ThreadPool.active_congr h.workers] using hi.waits

/-! ### Steps of a Session -/

/-- The record of session `i` changes, and its stack does not. The
    session, or the transform task of its call, may run or wait
    afterwards. -/
theorem Inv.setAgent {sem : Semaphore} (hi : Inv k s) (hworkers : p'.workers = s.pool.workers)
    (horder : CallOrder Task.isSession Task.caller p') (hok : AgentOk p' i a)
    (hothers : ∀ j, j ≠ i → AgentOk p' j (s.agents j))
    (hheld : a.phase ≠ .react → ∃ w, .session i ∈ s.pool.held w)
    (hsession : ∀ w, .session i ∈ s.pool.held w →
      s.pool.active w = some (.session i) ∨ a.phase.waits)
    (htransform : ∀ w m, .transform i m ∈ s.pool.held w →
      s.pool.active w = some (.transform i m) ∨ (m = a.calls ∧ a.transform = .get))
    (hsem : sem.Accounted {j | (Function.update s.agents i a j).holds})
    (hmax : sem.maxPermits = k) :
    Inv k ⟨p', sem, Function.update s.agents i a⟩ := by
  refine ⟨horder, fun j => ?_, fun j hj => ?_, fun w t ht => ?_, hsem, hmax⟩
  · by_cases hj : j = i
    · subst hj
      simpa using hok
    · simpa [hj] using hothers j hj
  · rw [ThreadPool.held_congr hworkers]
    by_cases hji : j = i
    · subst hji
      simp only [Function.update_self] at hj
      exact hheld hj
    · simp only [Function.update_of_ne hji] at hj
      exact hi.hands j hj
  · rw [ThreadPool.held_congr hworkers] at ht
    rw [ThreadPool.active_congr hworkers]
    -- only the tasks of session `i` depend on its record
    cases t with
    | session j =>
      by_cases hj : j = i
      · subst hj
        simpa [Waits] using hsession w ht
      · simpa [Waits, hj] using hi.waits w _ ht
    | transform j m =>
      by_cases hj : j = i
      · subst hj
        simpa [Waits] using htransform w m ht
      · simpa [Waits, hj] using hi.waits w _ ht
    | http j m => exact hi.waits w _ ht
    | tool j b m => exact hi.waits w _ ht

/-- The running task `t` finishes, and the records change only in what
    nobody waits for. -/
theorem Inv.finishes {w : Fin n} {t : Task ι} {agents : ι → Agent} (hi : Inv k s)
    (h : Finishes s.pool p' w t) (horder : CallOrder Task.isSession Task.caller p')
    (hok : ∀ j, AgentOk p' j (agents j))
    (hsame : ∀ j, (agents j).phase = (s.agents j).phase ∧ (agents j).calls = (s.agents j).calls ∧
      (agents j).transform = (s.agents j).transform ∧ (agents j).holds = (s.agents j).holds)
    (ht : ∀ j, t = .session j → (s.agents j).phase = .react) :
    Inv k ⟨p', s.sem, agents⟩ := by
  have hwaits : ∀ u, Waits agents u ↔ Waits s.agents u := by
    intro u
    cases u <;> simp [Waits, hsame]
  refine ⟨horder, hok, fun j hj => ?_, fun v u hu => ?_, ?_, hi.maxPermits⟩
  · have hj' : (s.agents j).phase ≠ .react := by simpa [hsame] using hj
    obtain ⟨v, hv⟩ := hi.hands j hj'
    by_cases hvw : v = w
    · subst hvw
      rw [h.held] at hv
      rcases List.mem_cons.mp hv with heq | hmem
      · exact absurd (ht j heq.symm) hj'
      · exact ⟨v, hmem⟩
    · exact ⟨v, by rw [ThreadPool.held_others h.others hvw]; exact hv⟩
  · rw [hwaits]
    by_cases hvw : v = w
    · subst hvw
      -- the tasks below the one that finishes wait
      have hmem : u ∈ s.pool.held v := by
        rw [h.held]
        exact List.mem_cons_of_mem _ hu
      rcases hi.waits v u hmem with hactive | hwait
      · rw [h.active, Option.some.injEq] at hactive
        subst hactive
        have hnodup := hi.order.conserved.held_nodup v
        rw [h.held] at hnodup
        exact absurd hu (List.nodup_cons.mp hnodup).1
      · exact .inr hwait
    · rw [ThreadPool.held_others h.others hvw] at hu
      rw [ThreadPool.active_others h.others hvw]
      exact hi.waits v u hu
  · simpa only [hsame] using hi.permits

/-! ### The Record of a Session -/

section AgentOk

omit [DecidableEq ι]

variable {p : ThreadPool.State n (Task ι)} {a' : Agent}

/-- There is a result only for a session that waits for it. -/
theorem AgentOk.not_ready (h : AgentOk p i a) (hphase : a.phase ≠ .get) : a.ready = false := by
  cases heq : a.ready with
  | false => rfl
  | true => exact absurd (h.ready heq).1 hphase

/-- Outside of a call the session is free to go on. -/
theorem AgentOk.outside (h : AgentOk p i a) (hphase : a.phase.posted = false)
    (hphase' : a'.phase.posted = false) (hcalls : a'.calls = a.calls) (hslot : a'.slot = a.slot)
    (htransform : a'.transform = a.transform) (hready : a'.ready = a.ready) : AgentOk p i a' := by
  have hin : ∀ ph : Phase, ph.posted → a'.phase ≠ ph := by
    rintro ph hposted rfl
    rw [hposted] at hphase'
    cases hphase'
  have hget : a.phase ≠ .get := by
    intro heq
    simp [heq, Phase.posted] at hphase
  have hout : ∀ ph : Phase, ph.posted = false → ph.chained = false := by
    intro ph hposted
    by_contra hchained
    rw [Phase.posted_of_chained (by simpa using hchained)] at hposted
    cases hposted
  exact {
    http := fun m => by rw [h.http m, hcalls, hphase, hphase']
    transform := fun m => by rw [h.transform m, hcalls, hout _ hphase, hout _ hphase']
    past := by
      rw [hcalls]
      exact h.past
    empty := fun _ => ⟨hin _ rfl, hin _ rfl, hin _ rfl⟩
    attached := by
      intro heq
      rw [hslot] at heq
      exact absurd (h.attached heq) hget
    value := by
      rw [hslot, hcalls]
      exact h.value
    got := fun _ heq => absurd heq (hin _ rfl)
    ready := by
      rw [hready, h.not_ready hget]
      intro heq
      cases heq
    finished := by
      rw [hcalls, hslot, hready]
      exact h.finished
    stage := by
      rw [htransform, hslot, hcalls]
      exact h.stage }

/-- `then` comes before the value: the continuation is attached. -/
theorem AgentOk.attach (h : AgentOk p i a) (hphase : a.phase = .attach) (hslot : a.slot ≠ .value)
    {r : ReActWorkflow.State} :
    AgentOk p i { a with react := r, slot := .attached, phase := .get } := by
  have hempty : a.slot = .empty := by
    cases heq : a.slot with
    | empty => rfl
    | attached => simp [h.attached heq] at hphase
    | value => exact absurd heq hslot
  have hready : a.ready = false := h.not_ready (by simp [hphase])
  exact {
    http := fun m => by simpa [hphase, Phase.posted] using h.http m
    transform := fun m => by simpa [hphase, Phase.chained] using h.transform m
    past := h.past
    empty := by simp
    attached := fun _ => rfl
    value := by simp
    got := by simp
    ready := by simp [hready]
    finished := by
      -- the transform task would have left the value
      intro hfin
      rcases h.finished hfin with heq | heq
      · exact absurd heq hslot
      · simp [hready] at heq
    stage := by
      -- it runs a continuation only once there is one
      intro hstage
      have hattached := (h.stage hstage).1
      simp [hempty] at hattached }

/-- `then` comes after the value: the session runs the continuation. -/
theorem AgentOk.continuation (h : AgentOk p i a) (hphase : a.phase = .attach ∨ a.phase = .release)
    (hslot : a.slot = .value) {ph : Phase} (hph : ph = .release ∨ ph = .setResult) :
    AgentOk p i { a with phase := ph } := by
  have hready : a.ready = false := by
    apply h.not_ready
    rcases hphase with hp | hp <;> simp [hp]
  exact { h with
    http := fun m => by
      rcases hphase with hp | hp <;> rcases hph with rfl | rfl <;>
        simpa [hp, Phase.posted] using h.http m
    transform := fun m => by
      rcases hphase with hp | hp <;> rcases hph with rfl | rfl <;>
        simpa [hp, Phase.chained] using h.transform m
    empty := by simp [hslot]
    attached := by simp [hslot]
    got := by
      intro _ heq
      rcases hph with rfl | rfl <;> cases heq
    ready := by simp [hready] }

/-- The session has set its own result. -/
theorem AgentOk.setResult (h : AgentOk p i a) (hphase : a.phase = .setResult)
    {r : ReActWorkflow.State} :
    AgentOk p i { a with react := r, ready := true, phase := .get } := by
  have hslot : a.slot = .value := by
    cases heq : a.slot with
    | empty => exact absurd hphase (h.empty heq).2.1
    | attached => simp [h.attached heq] at hphase
    | value => rfl
  exact { h with
    http := fun m => by simpa [hphase, Phase.posted] using h.http m
    transform := fun m => by simpa [hphase, Phase.chained] using h.transform m
    empty := by simp [hslot]
    attached := fun _ => rfl
    got := fun _ _ => rfl
    ready := fun _ => ⟨rfl, h.value hslot⟩
    finished := fun _ => .inr rfl }

/-- The session has its result and leaves the call. -/
theorem AgentOk.leave (h : AgentOk p i a) (hsub : p.finished ⊆ p.submitted) (hready : a.ready)
    {r : ReActWorkflow.State} :
    AgentOk p i { a with
      react := r
      phase := .react
      calls := a.calls + 1
      slot := .empty
      transform := .get
      ready := false } := by
  obtain ⟨hphase, hhttp, htransform⟩ := h.ready hready
  exact {
    http := by
      intro m
      rw [h.http m]
      simp only [hphase, Phase.posted, and_true, Bool.false_eq_true, and_false, or_false]
      omega
    transform := by
      intro m
      rw [h.transform m]
      simp only [hphase, Phase.chained, and_true, Bool.false_eq_true, and_false, or_false]
      omega
    past := by
      intro m hm
      rcases Nat.lt_succ_iff_lt_or_eq.mp hm with hlt | rfl
      · exact h.past m hlt
      · exact ⟨hhttp, htransform⟩
    empty := by simp
    attached := by simp
    value := by simp
    got := by simp
    ready := by simp
    finished := by
      intro hfin
      -- the transform task of the next call is not submitted
      have hnext := (h.transform (a.calls + 1)).mp (hsub hfin)
      omega
    stage := by simp }

/-- The session submits a task of its call. -/
theorem AgentOk.pushes {ph : Phase} (h : AgentOk p i a) (hget : a.phase ≠ .get)
    (hph : ph = .submit ∨ ph = .attach)
    (hhttp : ∀ m, .http i m ∈ p'.submitted ↔ m < a.calls ∨ (m = a.calls ∧ ph.posted))
    (htransform : ∀ m, .transform i m ∈ p'.submitted ↔ m < a.calls ∨ (m = a.calls ∧ ph.chained))
    (hfin : p'.finished = p.finished) : AgentOk p' i { a with phase := ph } where
  http := hhttp
  transform := htransform
  past := by
    rw [hfin]
    exact h.past
  empty := by rcases hph with rfl | rfl <;> simp
  attached := fun heq => absurd (h.attached heq) hget
  value := by
    rw [hfin]
    exact h.value
  got := by rcases hph with rfl | rfl <;> simp
  ready := by simp [h.not_ready hget]
  finished := by
    rw [hfin]
    exact h.finished
  stage := by
    rw [hfin]
    exact h.stage

/-- The transform task sets the value before `then`. -/
theorem AgentOk.setValue (h : AgentOk p i a) (hphase : a.phase = .attach)
    (hstage : a.transform = .get) (hhttp : .http i a.calls ∈ p.finished)
    (hsub : p'.submitted = p.submitted)
    (hfin : p'.finished = p.finished ++ [.transform i a.calls]) :
    AgentOk p' i { a with slot := .value } := by
  have hgrow : p.finished ⊆ p'.finished := by
    rw [hfin]
    exact List.subset_append_left _ _
  have hlast : .transform i a.calls ∈ p'.finished := by simp [hfin]
  exact {
    http := fun m => by rw [hsub]; exact h.http m
    transform := fun m => by rw [hsub]; exact h.transform m
    past := fun m hm => ⟨hgrow (h.past m hm).1, hgrow (h.past m hm).2⟩
    empty := by simp
    attached := by simp
    value := fun _ => ⟨hgrow hhttp, hlast⟩
    got := by simp [hphase]
    ready := by simp [h.not_ready (show a.phase ≠ .get by simp [hphase])]
    finished := fun _ => .inl rfl
    stage := fun heq => absurd hstage heq }

/-- The transform task runs the continuation. -/
theorem AgentOk.transformMoves (h : AgentOk p i a) (hslot : a.slot = .attached)
    (hhttp : .http i a.calls ∈ p.finished) (pc : TransformPC) :
    AgentOk p i { a with transform := pc } :=
  { h with stage := fun _ => ⟨hslot, hhttp⟩ }

/-- The transform task sets the result. -/
theorem AgentOk.result (h : AgentOk p i a) (hstage : a.transform ≠ .get)
    (hsub : p'.submitted = p.submitted)
    (hfin : p'.finished = p.finished ++ [.transform i a.calls]) :
    AgentOk p' i { a with ready := true } := by
  obtain ⟨hslot, hhttp⟩ := h.stage hstage
  have hgrow : p.finished ⊆ p'.finished := by
    rw [hfin]
    exact List.subset_append_left _ _
  have hlast : .transform i a.calls ∈ p'.finished := by simp [hfin]
  exact { h with
    http := fun m => by rw [hsub]; exact h.http m
    transform := fun m => by rw [hsub]; exact h.transform m
    past := fun m hm => ⟨hgrow (h.past m hm).1, hgrow (h.past m hm).2⟩
    value := by simp [hslot]
    got := fun _ _ => rfl
    ready := fun _ => ⟨h.attached hslot, hgrow hhttp, hlast⟩
    finished := fun _ => .inr rfl
    stage := fun _ => ⟨hslot, hgrow hhttp⟩ }

end AgentOk

/-! ### What the Running Task Does -/

/-- A task that runs is on no other stack. -/
theorem Inv.active_of_held {t : Task ι} {w v : Fin n} (hi : Inv k s)
    (hactive : s.pool.active w = some t) (hv : t ∈ s.pool.held v) : s.pool.active v = some t := by
  have hvw : v = w :=
    hi.order.conserved.held_unique hv (ThreadPool.mem_held_of_active hactive)
  rw [hvw]
  exact hactive

/-- The tasks below the running one wait. -/
theorem Inv.waits_below {t u : Task ι} {w : Fin n} (hi : Inv k s)
    (hactive : s.pool.active w = some t) (hu : u ∈ s.pool.held w) (hne : u ≠ t) :
    Waits s.agents u := by
  rcases hi.waits w u hu with hrun | hwait
  · rw [hactive, Option.some.injEq] at hrun
    exact absurd hrun.symm hne
  · exact hwait

/-- The running session moves within the current call. -/
theorem Inv.sessionMoves {w : Fin n} {sem : Semaphore} (hi : Inv k s)
    (hactive : s.pool.active w = some (.session i)) (hworkers : p'.workers = s.pool.workers)
    (horder : CallOrder Task.isSession Task.caller p') (hok : AgentOk p' i a)
    (hothers : ∀ j, j ≠ i → AgentOk p' j (s.agents j)) (hcalls : a.calls = (s.agents i).calls)
    (htransform : a.transform = (s.agents i).transform)
    (hsem : sem.Accounted {j | (Function.update s.agents i a j).holds})
    (hmax : sem.maxPermits = k) : Inv k ⟨p', sem, Function.update s.agents i a⟩ := by
  refine hi.setAgent hworkers horder hok hothers
    (fun _ => ⟨w, ThreadPool.mem_held_of_active hactive⟩)
    (fun v hv => .inl (hi.active_of_held hactive hv)) (fun v m hv => ?_) hsem hmax
  rw [hcalls, htransform]
  exact hi.waits v _ hv

/-- The running session moves outside of a call. -/
theorem Inv.outside {w : Fin n} (hi : Inv k s) (hactive : s.pool.active w = some (.session i))
    (hphase : (s.agents i).phase.posted = false) (hphase' : a.phase.posted = false)
    (hholds : a.holds = (s.agents i).holds) (hcalls : a.calls = (s.agents i).calls)
    (hslot : a.slot = (s.agents i).slot) (htransform : a.transform = (s.agents i).transform)
    (hready : a.ready = (s.agents i).ready) : Inv k (s.setAgent i a) := by
  exact hi.sessionMoves hactive rfl hi.order
    ((hi.agents i).outside hphase hphase' hcalls hslot htransform hready)
    (fun j _ => hi.agents j) hcalls htransform (hi.permits.update hholds) hi.maxPermits

/-- A session in `sem_.acquire()`. -/
theorem Inv.acquire {w : Fin n} {iter : ℕ} {pc : Semaphore.AcquirePC} {weak : Bool} (hi : Inv k s)
    (hactive : s.pool.active w = some (.session i))
    (hphase : (s.agents i).phase = .acquire iter pc) : Inv k (acquireStep s i iter pc weak) := by
  have hout : (s.agents i).phase.posted = false := by
    rw [hphase]
    rfl
  have hfree : (s.agents i).holds = false := by simp [Agent.holds, hphase]
  unfold acquireStep
  split
  -- the permit is taken
  · next sem hacq =>
    rcases Semaphore.acquireStep_cases hacq with ⟨-, hpos, rfl⟩ | ⟨-, pc', hnone⟩
    · refine hi.sessionMoves hactive rfl hi.order
        ((hi.agents i).outside hout rfl rfl rfl rfl rfl) (fun j _ => hi.agents j) rfl rfl ?_
        hi.maxPermits
      exact hi.permits.update_acquire hfree rfl hpos
    · cases hnone
  · next sem pc' hacq =>
    rcases Semaphore.acquireStep_cases hacq with ⟨hnone, -, -⟩ | ⟨rfl, -⟩
    · cases hnone
    · exact hi.outside hactive hout rfl (by rw [hfree]; rfl) rfl rfl rfl rfl

/-- The transform task moves within the continuation. -/
theorem Inv.transformMoves {w : Fin n} {sem : Semaphore} {m : ℕ} {pc : TransformPC} (hi : Inv k s)
    (hactive : s.pool.active w = some (.transform i m)) (hslot : (s.agents i).slot = .attached)
    (hhttp : .http i (s.agents i).calls ∈ s.pool.finished)
    (hsem : sem.Accounted
      {j | (Function.update s.agents i { s.agents i with transform := pc } j).holds})
    (hmax : sem.maxPermits = k) :
    Inv k ({ s with sem := sem }.setAgent i { s.agents i with transform := pc }) := by
  have hcalls := (hi.transform_held (ThreadPool.mem_held_of_active hactive)).1
  refine hi.setAgent rfl hi.order ((hi.agents i).transformMoves hslot hhttp pc)
    (fun j _ => hi.agents j) (hi.hands i) (fun v hv => ?_) (fun v m' hv => ?_) hsem hmax
  · exact hi.waits v _ hv
  -- there is one transform task of the session on the stacks, the one that moves
  · have hm' := (hi.transform_held hv).1
    subst hcalls hm'
    exact .inl (hi.active_of_held hactive hv)

end Forge.Runtime
