import Forge.Runtime.RuntimeRun

/-! # The Runtime — Deadlock

  A worker is stuck when the task on top of its stack spins in
  `Semaphore::acquire` and there is no permit, or waits in `Future::get`
  for a future that is not ready while there is nothing to run, or when it
  holds no task and there is nothing to run. A deadlock is a state with an
  unfinished session in which all HTTP exchanges have returned and all
  workers are stuck.

  The runtime can deadlock. A worker that waits in the `get` of a
  transform task takes a session from its submission queue on top of it,
  and that session spins: `acquire` runs no tasks, and the permit it waits
  for is released by the transform task below it.

  This is the only way. In a run in which `try_acquire` never fails on top
  of a transform task there is no deadlock: among the transform tasks on
  the stacks the one started last is on top of its stack, or is under a
  session that waits for a transform task started later.
-/

open LTS

namespace Forge.Runtime

variable {n : ℕ} {ι : Type*} [DecidableEq ι] {k : ℤ} {reg : ToolRegistry} {s s' : State n ι}

/-! ### Stuck Workers -/

/-- `try_acquire` has failed, and `acquire` goes on. -/
def Phase.spins : Phase → Bool
  | .acquire iter _ => 0 < iter
  | _ => false

/-- `try_acquire` is about to fail. -/
def Phase.fails : Phase → Bool
  | .acquire _ pc => pc.fails
  | _ => false

def Task.isTransform : Task ι → Bool
  | .transform _ _ => true
  | _ => false

/-- There is no task that worker `w` could take. -/
def NoRunnable (s : State n ι) (w : Fin n) : Prop :=
  s.pool.queues w = [] ∧ ∀ v, s.pool.deques v = []

/-- Worker `w` cannot make progress. -/
def Stuck (s : State n ι) (w : Fin n) : Prop :=
  match (s.pool.held w).head? with
  | none => NoRunnable s w
  | some (.session i) =>
      ((s.agents i).phase.spins ∧ s.sem.permits = 0) ∨
      ((s.agents i).phase = .get ∧ (s.agents i).ready = false ∧ NoRunnable s w)
  | some (.transform i m) =>
      (s.agents i).transform = .get ∧ s.isReady (.http i m) = false ∧ NoRunnable s w
  | some _ => False

structure Deadlock (s : State n ι) : Prop where
  unfinished : ∃ i, .session i ∈ s.pool.submitted ∧ .session i ∉ s.pool.finished
  exchanged : ∀ w i m, .http i m ∉ s.pool.held w
  stuck : ∀ w, Stuck s w

/-- The step lets `try_acquire` fail on a worker whose stack holds a
    transform task. -/
def starves (s : State n ι) : Label n ι → Bool
  | .step w _ =>
      match s.pool.held w with
      | .session i :: below => (s.agents i).phase.fails && below.any Task.isTransform
      | _ => false
  | _ => false

/-! ### Sessions above Transform Tasks -/

/-- No session spins above a transform task. -/
def Unburied (s : State n ι) : Prop :=
  ∀ w i, .session i ∈ s.pool.held w → (s.agents i).phase.spins →
    ∀ t ∈ s.pool.held w, t.isTransform = false

omit [DecidableEq ι] in
/-- The stacks lose tasks and no session starts to spin. -/
theorem Unburied.mono (hb : Unburied s) (hheld : ∀ w, s'.pool.held w ⊆ s.pool.held w)
    (hspins : ∀ j, (s'.agents j).phase.spins → (s.agents j).phase.spins) : Unburied s' := by
  intro w j hj hspin t ht
  exact hb w j (hheld w hj) (hspins j hspin) t (hheld w ht)

section Steps

variable [NeZero n] {i : ι}

/-- What a step of a session leaves alone: the pool takes no step, or one
    as a running task may take it; no other session changes; and only a
    failing `try_acquire` lets the session spin. -/
structure SessionMoves (s s' : State n ι) (w : Fin n) (i : ι) : Prop where
  pool : s'.pool = s.pool ∨ ∃ a, ThreadPool.next s.pool (.task w a) = some s'.pool
  others : ∀ j, j ≠ i → s'.agents j = s.agents j
  spins : (s'.agents i).phase.spins → (s.agents i).phase.spins ∨ (s.agents i).phase.fails

theorem sessionMoves_setAgent {w : Fin n} {a : Agent} {sem : Semaphore}
    (h : a.phase.spins → (s.agents i).phase.spins ∨ (s.agents i).phase.fails) :
    SessionMoves s ({ s with sem := sem }.setAgent i a) w i where
  pool := .inl rfl
  others := by
    intro j hj
    simp [State.setAgent, hj]
  spins := by simpa [State.setAgent] using h

theorem sessionMoves_setAgent_poolStep {w : Fin n} {a : Agent} {act : ThreadPool.Action (Task ι)}
    (h : a.phase.spins → (s.agents i).phase.spins ∨ (s.agents i).phase.fails)
    (hs : (s.setAgent i a).poolStep (.task w act) = some s') : SessionMoves s s' w i := by
  obtain ⟨p', hp, rfl⟩ := poolStep_eq_some hs
  refine ⟨.inr ⟨act, hp⟩, ?_, ?_⟩
  · intro j hj
    simp [State.setAgent, hj]
  · simpa [State.setAgent] using h

theorem sessionMoves_poolStep {w : Fin n} {act : ThreadPool.Action (Task ι)}
    (hs : s.poolStep (.task w act) = some s') : SessionMoves s s' w i := by
  obtain ⟨p', hp, rfl⟩ := poolStep_eq_some hs
  exact ⟨.inr ⟨act, hp⟩, fun _ _ => rfl, .inl⟩

theorem sessionMoves_reactStep {w : Fin n} {l : Workflow.Label} {f : Agent → Agent}
    (hf : ∀ a, (f a).phase.spins → a.phase.spins)
    (hs : ((s.agents i).reactStep reg l).map (fun a => s.setAgent i (f a)) = some s') :
    SessionMoves s s' w i := by
  simp only [Option.map_eq_some_iff] at hs
  obtain ⟨a', ha', rfl⟩ := hs
  obtain ⟨r, rfl⟩ := reactStep_eq_some ha'
  refine sessionMoves_setAgent fun h => ?_
  have hspins := hf _ h
  exact .inl hspins

theorem sessionStep_moves {w : Fin n} {input : Input}
    (hs : sessionStep reg s w i input = some s') : SessionMoves s s' w i := by
  -- the phases other than `acquire` do not spin
  have hset : ∀ (sem : Semaphore) (a : Agent), a.phase.spins = false →
      SessionMoves s ({ s with sem := sem }.setAgent i a) w i := by
    intro sem a ha
    exact sessionMoves_setAgent (by simp [ha])
  cases hphase : (s.agents i).phase
  case react =>
    simp only [sessionStep, hphase] at hs
    split at hs
    · cases hs
      exact hset s.sem _ rfl
    · cases hs
      exact hset s.sem _ rfl
    · exact sessionMoves_poolStep hs
    · exact sessionMoves_poolStep hs
    · cases hs
    · cases hs
    · cases hs
    · exact sessionMoves_reactStep (f := id) (fun _ => id) hs
    · exact sessionMoves_reactStep (f := id) (fun _ => id) hs
    · cases hs
  case waitTools calls outcomes =>
    simp only [sessionStep, hphase] at hs
    split at hs
    · split at hs
      · split at hs
        · split at hs <;> cases hs
          exact hset s.sem _ rfl
        · split at hs
          · cases hs
          · exact sessionMoves_poolStep hs
        · cases hs
      · split at hs <;> cases hs
        exact hset s.sem _ rfl
    · exact sessionMoves_reactStep (by simp [Phase.spins]) hs
    · cases hs
  all_goals
    cases input <;> simp only [sessionStep, hphase, Option.some.injEq, reduceCtorEq] at hs
  case acquire.tau iter pc | acquire.weak iter pc =>
    subst hs
    unfold acquireStep
    split
    · exact hset _ _ rfl
    · refine sessionMoves_setAgent ?_
      cases hfails : pc.fails <;> simp [hphase, Phase.spins, Phase.fails, hfails]
  case post.tau | submit.tau => exact sessionMoves_setAgent_poolStep (by simp [Phase.spins]) hs
  case attach.tau =>
    split at hs
    · cases hs
      exact hset s.sem _ rfl
    · exact sessionMoves_reactStep (by simp [Phase.spins]) hs
  case release.tau =>
    subst hs
    exact hset _ _ rfl
  case setResult.tau => exact sessionMoves_reactStep (by simp [Phase.spins]) hs
  case get.tau =>
    split at hs
    · cases hs
    · exact sessionMoves_poolStep hs
  case get.reply =>
    split at hs
    · exact sessionMoves_reactStep (by simp [Phase.spins]) hs
    · cases hs
  case submitTools.tau =>
    split at hs
    · split at hs
      · exact sessionMoves_setAgent_poolStep (by simp [Phase.spins]) hs
      · cases hs
        exact hset s.sem _ rfl
    · cases hs
      exact hset s.sem _ rfl

/-- What a running task does to the stacks: it pushes nothing on them. -/
theorem held_task {w : Fin n} {act : ThreadPool.Action (Task ι)}
    {p p' : ThreadPool.State n (Task ι)} (hn : ThreadPool.Nested p)
    (hp : ThreadPool.next p (.task w act) = some p') (v : Fin n) : p'.held v ⊆ p.held v := by
  cases act with
  | submit t =>
    rw [ThreadPool.held_congr (ThreadPool.pushes_submit hp).workers]
    exact List.Subset.refl _
  | submitLocal t =>
    obtain ⟨u, rest, -, -, hs⟩ := ThreadPool.next_task hp
    simp only [ThreadPool.taskStep, Option.ite_none_right_eq_some, Option.some.injEq] at hs
    obtain ⟨-, rfl⟩ := hs
    exact List.Subset.refl _
  | wait =>
    rw [(ThreadPool.looks_wait hn hp).held_eq]
    exact List.Subset.refl _
  | finish =>
    obtain ⟨t, h⟩ := ThreadPool.finishes_finish hn hp
    exact h.held_subset v

/-- A worker takes a task: no session on its stack spins, and a session
    that is taken has not begun. -/
theorem Unburied.worker {w victim : Fin n} {lost : Bool} (hb : Unburied s) (hi : Inv k s)
    (hs : s.poolStep (.worker w victim lost) = some s') : Unburied s' := by
  obtain ⟨p', hp, rfl⟩ := poolStep_eq_some hs
  obtain ⟨hactive, hlooks | ⟨t, htakes⟩⟩ := ThreadPool.worker_cases hi.order.nested hp
  · refine hb.mono (fun v => ?_) fun _ => id
    show p'.held v ⊆ _
    rw [hlooks.held_eq]
    exact List.Subset.refl _
  · intro v j hj hspin u hu
    have hbusy : (s.agents j).phase ≠ .react ∧ (s.agents j).phase.waits = false := by
      revert hspin
      show (s.agents j).phase.spins = true → _
      cases (s.agents j).phase <;> simp [Phase.spins, Phase.waits]
    by_cases hv : v = w
    · subst hv
      exfalso
      change _ ∈ p'.held v at hj
      rw [htakes.held] at hj
      rcases List.mem_cons.mp hj with rfl | hold
      -- a session that has begun is not stored
      · obtain ⟨v', hv'⟩ := hi.hands j hbusy.1
        have hstored : 0 < s.pool.stored (.session j) := by
          rcases htakes.source with ⟨v'', hmem⟩ | ⟨hmem, -⟩
          · exact ThreadPool.mem_deques_stored hmem
          · exact ThreadPool.mem_queues_stored hmem
        exact hi.order.conserved.not_started_of_stored hstored
          (hi.order.conserved.started_of_held hv')
      · rcases hi.waits v _ hold with hrun | hwait
        · rw [hactive] at hrun
          cases hrun
        · rw [Waits, hbusy.2] at hwait
          cases hwait
    · change _ ∈ p'.held v at hj hu
      rw [ThreadPool.held_others htakes.others hv] at hj hu
      exact hb v j hj hspin u hu

/-- A session takes a step, and `try_acquire` does not fail above a
    transform task. -/
theorem Unburied.session {w : Fin n} {input : Input} (hb : Unburied s) (hi : Inv k s)
    (hactive : s.pool.active w = some (.session i))
    (hok : starves s (.step w input) = false) (hs : sessionStep reg s w i input = some s') :
    Unburied s' := by
  obtain ⟨hpool, hothers, hspins⟩ := sessionStep_moves hs
  have hheld : ∀ v, s'.pool.held v ⊆ s.pool.held v := by
    intro v
    rcases hpool with heq | ⟨a, hp⟩
    · rw [heq]
      exact List.Subset.refl _
    · exact held_task hi.order.nested hp v
  intro v j hj hspin t ht
  have hj' := hheld v hj
  by_cases hji : j = i
  · subst hji
    rcases hspins hspin with hold | hfails
    · exact hb v j hj' hold t (hheld v ht)
    -- it starts to spin now, and the stack below it holds no transform task
    · obtain ⟨rest, hrest⟩ := ThreadPool.held_of_active hactive
      have hmine : .session j ∈ s.pool.held w := by
        rw [hrest]
        exact List.mem_cons_self
      have hvw : v = w := hi.order.conserved.held_unique hj' hmine
      subst hvw
      simp only [starves, hrest, hfails, Bool.true_and, List.any_eq_false] at hok
      have hmem := hheld v ht
      rw [hrest] at hmem
      rcases List.mem_cons.mp hmem with rfl | hbelow
      · rfl
      · simpa using hok t hbelow
  · rw [hothers j hji] at hspin
    exact hb v j hj' hspin t (hheld v ht)

/-- A transform task takes a step: no session changes its phase. -/
theorem Unburied.transform {w : Fin n} {m : ℕ} (hb : Unburied s) (hi : Inv k s)
    (hs : transformStep s w i m = some s') : Unburied s' := by
  have hset : ∀ (a : Agent) (j : ι), a.phase = (s.agents i).phase →
      (Function.update s.agents i a j).phase.spins → (s.agents j).phase.spins := by
    intro a j ha
    by_cases hj : j = i
    · subst hj
      simp [ha]
    · simp [hj]
  have hpool : ∀ (a : Agent) (act : ThreadPool.Action (Task ι)),
      (s.setAgent i a).poolStep (.task w act) = some s' → a.phase = (s.agents i).phase →
      Unburied s' := by
    intro a act hs ha
    obtain ⟨p', hp, rfl⟩ := poolStep_eq_some hs
    exact hb.mono (held_task hi.order.nested hp) fun j => hset a j ha
  unfold transformStep at hs
  cases hstage : (s.agents i).transform <;> simp only [hstage] at hs
  case get =>
    split at hs
    · split at hs
      · cases hs
        exact hb.mono (fun _ => List.Subset.refl _) fun j => hset _ j rfl
      · exact hpool _ _ hs rfl
    · obtain ⟨p', hp, rfl⟩ := poolStep_eq_some hs
      exact hb.mono (held_task hi.order.nested hp) fun _ => id
  case release =>
    cases hs
    exact hb.mono (fun _ => List.Subset.refl _) fun j => hset _ j rfl
  case setResult => exact hpool _ _ hs rfl

/-- **Sessions above transform tasks, step.** -/
theorem unburied_step {l : Label n ι} (hi : Inv k s) (hb : Unburied s) (hok : starves s l = false)
    (hs : next reg s l = some s') : Unburied s' := by
  -- the HTTP and the tool tasks only finish
  have hfinish : ∀ w, s.poolStep (.task w .finish) = some s' → Unburied s' := by
    intro w hs
    obtain ⟨p', hp, rfl⟩ := poolStep_eq_some hs
    exact hb.mono (held_task hi.order.nested hp) fun _ => id
  cases l with
  | submit i =>
    obtain ⟨p', hp, rfl⟩ := poolStep_eq_some hs
    refine hb.mono (fun w => ?_) fun _ => id
    show p'.held w ⊆ _
    rw [ThreadPool.held_congr (ThreadPool.enqueues_submit hp).workers]
    exact List.Subset.refl _
  | cancel i =>
    simp only [next, Option.some.injEq] at hs
    subst hs
    refine hb.mono (fun _ => List.Subset.refl _) fun j => ?_
    by_cases hj : j = i
    · subst hj
      simp [State.setAgent]
    · simp [State.setAgent, hj]
  | worker w victim lost => exact hb.worker hi hs
  | step w input =>
    simp only [next] at hs
    split at hs
    · next t rest hstack =>
      have hactive : s.pool.active w = some t := by simp [ThreadPool.State.active, hstack]
      cases t with
      | session i => exact hb.session hi hactive hok hs
      | transform i m =>
        simp only [taskStep, Option.ite_none_right_eq_some] at hs
        exact hb.transform hi hs.2
      | http i m | tool i b m =>
        simp only [taskStep, Option.ite_none_right_eq_some] at hs
        exact hfinish w hs.2
    · cases hs

end Steps

/-! ### No Deadlock -/

section Stuck

/-- In a deadlock no task of a call is in a deque: its caller would be the
    topmost session of that worker, but it does not spin. -/
theorem Deadlock.deque_callless {w : Fin n} {t : Task ι} (hd : Deadlock s) (hi : Inv k s)
    (ht : t ∈ s.pool.deques w) : t.caller = none := by
  by_contra hne
  obtain ⟨c, hcaller⟩ := Option.ne_none_iff_exists'.mp hne
  have htop := hi.order.topmost w t ht c hcaller
  have hrun : ¬NoRunnable s w := by
    intro hno
    rw [hno.2 w] at ht
    cases ht
  have hstuck := hd.stuck w
  unfold Stuck at hstuck
  split at hstuck
  · exact hrun hstuck
  · next i hhead =>
    rcases hstuck with ⟨hspins, -⟩ | ⟨-, -, hno⟩
    · -- the topmost session is the caller, and it is past `acquire`
      have hc : c = .session i := by
        obtain ⟨rest, hrest⟩ : ∃ rest, s.pool.held w = .session i :: rest :=
          List.head?_eq_some_iff.mp hhead
        rw [hrest, List.find?_cons_of_pos rfl, Option.some.injEq] at htop
        exact htop.symm
      subst hc
      have hposted := hi.posted_of_stored hcaller (ThreadPool.mem_deques_stored ht)
      revert hspins hposted
      cases (s.agents i).phase <;> simp [Phase.spins, Phase.posted]
    · exact hrun hno
  · exact hrun hstuck.2.2
  · exact hstuck

/-- A task of a call that is submitted and not finished is on a stack. -/
theorem Deadlock.held_or_finished {t c : Task ι} (hd : Deadlock s) (hi : Inv k s)
    (hcaller : t.caller = some c) (ht : t ∈ s.pool.submitted) :
    (∃ w, t ∈ s.pool.held w) ∨ t ∈ s.pool.finished := by
  rcases hi.order.conserved.placed_cases hi.order.draining ht with
    ⟨w, hw⟩ | ⟨w, hw⟩ | hheld | hfin
  · have hroot := hi.order.queues w t hw
    cases t <;> simp [Task.isSession, Task.caller] at hroot hcaller
  · rw [hd.deque_callless hi hw] at hcaller
    cases hcaller
  · exact .inl hheld
  · exact .inr hfin

/-- All exchanges are over. -/
theorem Deadlock.http_ready {i : ι} {m : ℕ} (hd : Deadlock s) (hi : Inv k s)
    (ht : .http i m ∈ s.pool.submitted) : .http i m ∈ s.pool.finished := by
  rcases hd.held_or_finished hi rfl ht with ⟨w, hw⟩ | hfin
  · exact absurd hw (hd.exchanged w i m)
  · exact hfin

/-- A session that waits for its result waits for a transform task on a
    stack. -/
theorem Deadlock.transform_of_get {i : ι} (hd : Deadlock s) (hi : Inv k s)
    (hphase : (s.agents i).phase = .get) (hready : (s.agents i).ready = false) :
    ∃ w, .transform i (s.agents i).calls ∈ s.pool.held w := by
  have hok := hi.agents i
  have hsub : .transform i (s.agents i).calls ∈ s.pool.submitted := by
    rw [hok.transform]
    exact .inr ⟨rfl, by simp [hphase, Phase.chained]⟩
  rcases hd.held_or_finished hi rfl hsub with hheld | hfin
  · exact hheld
  · -- a finished transform task has left a result
    have hres : (s.agents i).ready = true := by
      rcases hok.finished hfin with hslot | hres
      · exact hok.got hslot hphase
      · exact hres
    rw [hready] at hres
    cases hres

/-- A session that is in a statement and does not wait is on top of its
    stack, so it spins. -/
theorem Deadlock.spins_of_busy {i : ι} (hd : Deadlock s) (hi : Inv k s)
    (hphase : (s.agents i).phase ≠ .react) (hwaits : (s.agents i).phase.waits = false) :
    (s.agents i).phase.spins = true := by
  obtain ⟨w, hw⟩ := hi.hands i hphase
  have hactive : s.pool.active w = some (.session i) := by
    rcases hi.waits w _ hw with hrun | hwait
    · exact hrun
    · rw [Waits, hwaits] at hwait
      cases hwait
  obtain ⟨rest, hrest⟩ := ThreadPool.held_of_active hactive
  have hstuck := hd.stuck w
  simp only [Stuck, hrest, List.head?_cons] at hstuck
  rcases hstuck with ⟨hspins, -⟩ | ⟨hget, -, -⟩
  · exact hspins
  · rw [hget] at hwaits
    cases hwaits

/-- In a deadlock without a session that spins above a transform task there
    is no transform task on a stack. The induction is on how many tasks were
    started after it. -/
theorem Deadlock.no_transform (hd : Deadlock s) (hi : Inv k s) (hb : Unburied s) :
    ∀ (d : ℕ) (w : Fin n) (i : ι) (m : ℕ), .transform i m ∈ s.pool.held w →
      s.pool.started.length - s.pool.started.idxOf (.transform i m) = d → False := by
  intro d
  induction d using Nat.strong_induction_on with
  | _ d ih =>
  intro w i m ht hdepth
  have hstuck := hd.stuck w
  unfold Stuck at hstuck
  split at hstuck
  · next hhead =>
    rw [List.head?_eq_none_iff.mp hhead] at ht
    cases ht
  · next j hhead =>
    obtain ⟨rest, hrest⟩ := List.head?_eq_some_iff.mp hhead
    rcases hstuck with ⟨hspins, -⟩ | ⟨hphase, hready, -⟩
    · have hj : .session j ∈ s.pool.held w := by
        rw [hrest]
        exact List.mem_cons_self
      have hno := hb w j hj hspins _ ht
      cases hno
    · -- the session above waits for a transform task that was started later
      obtain ⟨v, hv⟩ := hd.transform_of_get hi hphase hready
      have hbelow : .transform i m ∈ rest := by
        rw [hrest] at ht
        simpa using ht
      have hordered := hi.order.ordered w
      rw [hrest] at hordered
      have habove := List.rel_of_pairwise_cons hordered hbelow
      have hstarted := hi.order.conserved.started_of_held hv
      have hcalled := hi.order.later _ hstarted _ rfl
      have hlen := List.idxOf_lt_length_of_mem hstarted
      exact ih _ (by omega) v j _ hv rfl
  · next j m' hhead =>
    obtain ⟨rest, hrest⟩ := List.head?_eq_some_iff.mp hhead
    have hj : .transform j m' ∈ s.pool.held w := by
      rw [hrest]
      exact List.mem_cons_self
    obtain ⟨rfl, hchained, -⟩ := hi.transform_held hj
    have hposted := Phase.posted_of_chained hchained
    have hhttp := hd.http_ready hi (((hi.agents j).http _).mpr (.inr ⟨rfl, hposted⟩))
    simp [State.isReady, hhttp] at hstuck
  · exact hstuck

/-- **No deadlock** when no session spins above a transform task. -/
theorem Inv.not_deadlock (hi : Inv k s) (hb : Unburied s) (hk : 1 ≤ k) : ¬Deadlock s := by
  intro hd
  have hno : ∀ w i m, .transform i m ∉ s.pool.held w :=
    fun w i m ht => hd.no_transform hi hb _ w i m ht rfl
  have hgot : ∀ i, (s.agents i).phase = .get → (s.agents i).ready = true := by
    intro i hphase
    by_contra hready
    obtain ⟨w, hw⟩ := hd.transform_of_get hi hphase (by simpa using hready)
    exact hno w i _ hw
  -- no session in a call is on top of a stack, so none holds a permit
  have hfree : {i | (s.agents i).holds} = ∅ := by
    apply Set.eq_empty_of_forall_notMem
    intro i hholds
    change (s.agents i).holds = true at hholds
    have hbusy := hd.spins_of_busy hi (i := i)
    unfold Agent.holds at hholds
    cases hphase : (s.agents i).phase <;>
      simp only [hphase, decide_eq_true_eq, Bool.false_eq_true] at hholds
    case get =>
      rw [hgot i hphase] at hholds
      exact absurd hholds.2.2 (by simp)
    all_goals simp [hphase, Phase.waits, Phase.spins] at hbusy
  have hpermits : s.sem.permits = k := by
    have hfull := hi.permits.full_iff.mpr hfree
    rw [hfull, hi.maxPermits]
  -- so no session spins either, and all stacks are empty
  have hidle : ∀ w, s.pool.held w = [] ∧ NoRunnable s w := by
    intro w
    have hstuck := hd.stuck w
    unfold Stuck at hstuck
    split at hstuck
    · next hhead => exact ⟨List.head?_eq_none_iff.mp hhead, hstuck⟩
    · rcases hstuck with ⟨-, hzero⟩ | ⟨hphase, hready, -⟩
      · omega
      · rw [hgot _ hphase] at hready
        cases hready
    · next j m hhead =>
      obtain ⟨rest, hrest⟩ := List.head?_eq_some_iff.mp hhead
      exact absurd (by rw [hrest]; exact List.mem_cons_self) (hno w j m)
    · exact absurd hstuck id
  obtain ⟨i, hsub, hfin⟩ := hd.unfinished
  rcases hi.order.conserved.placed_cases hi.order.draining hsub with
    ⟨w, hw⟩ | ⟨w, hw⟩ | ⟨w, hw⟩ | hmem
  · rw [(hidle w).2.1] at hw
    cases hw
  · rw [(hidle w).2.2 w] at hw
    cases hw
  · rw [(hidle w).1] at hw
    cases hw
  · exact hfin hmem

end Stuck

/-! ### The Runtime -/

variable [NeZero n]

/-- **Deadlock freedom** of the runs in which `try_acquire` never fails on a
    worker whose stack holds a transform task. -/
theorem deadlock_free {x : ι → Session} {tr : List (Label n ι)} (hk : 1 ≤ k)
    (hrun : ((system n k reg x).restrict fun s l => !starves s l).Run tr s) : ¬Deadlock s := by
  have hinv : Inv k s ∧ Unburied s := by
    apply hrun.invariant (P := fun s => Inv k s ∧ Unburied s)
    · intro s hs
      have hs' : s = initial n k x := hs
      subst hs'
      refine ⟨inv_initial (by omega) x, ?_⟩
      intro w i hi
      simp [initial, ThreadPool.initial, ThreadPool.State.held, ThreadPool.Worker.held] at hi
    · intro s l s' hi hs
      exact ⟨inv_step hi.1 hs.2, unburied_step hi.1 hi.2 (by simpa using hs.1) hs.2⟩
  exact hinv.1.not_deadlock hinv.2 hk

/-! ### Two Workers, One Permit

  Sessions `0` and `2` are in the submission queue of worker `0`, and
  session `1` in that of worker `1`. -/

def fresh (i : Fin 3) : Session := Session.new i {} 0

/-- Worker `w` goes through its loop to its submission queue. -/
def toQueue (w : Fin 2) : List (Label 2 (Fin 3)) :=
  [.worker w 0 false, .worker w 0 false, .worker w 0 false]

/-- The session on worker `w` goes from the head of its loop into
    `sem_.acquire()` and loads `permits_`. -/
def toAcquire (w : Fin 2) : List (Label 2 (Fin 3)) :=
  [.step w .tau, .step w .tau, .step w .tau, .step w (.now 0), .step w .tau, .step w .tau,
    .step w .tau, .step w .tau]

/-- Session `0` has the permit, worker `1` has stolen its HTTP task, and
    worker `0` runs the transform task and session `2` on top of it. -/
def buried : List (Label 2 (Fin 3)) :=
  .flatten [[.submit 0], toQueue 0, toAcquire 0,
    [.step 0 .tau, .step 0 .tau, .step 0 .tau, .step 0 .tau],
    toQueue 1, [.worker 1 0 false, .submit 1, .submit 2],
    [.step 0 .tau, .worker 0 0 false, .step 0 .tau, .worker 0 0 false, .worker 0 0 false]]

/-- Session `2` finds no permit, the exchange returns, and worker `1` takes
    session `1`, which finds no permit either. -/
def deadlocked : List (Label 2 (Fin 3)) :=
  .flatten [buried, toAcquire 0, [.step 0 .tau, .step 1 .tau], toQueue 1, toAcquire 1,
    [.step 1 .tau]]

theorem buried_not_deadlock :
    ∃ s, (system 2 1 ⟨[]⟩ fresh).Run buried s ∧
      s.pool.held 0 = [.session 2, .transform 0 0, .session 0] ∧ ¬Deadlock s := by
  have hends : (System.exec (fun s l => if !starves s l then next ⟨[]⟩ s l else none)
      (initial 2 1 fresh) buried).map (fun s => s.pool.held 0) =
        some [.session 2, .transform 0 0, .session 0] := by decide
  obtain ⟨s, hrun, hheld⟩ := System.exists_run_restrict_of_exec hends
  exact ⟨s, hrun.of_restrict, hheld, deadlock_free (by decide) hrun⟩

/-- The two sessions wait for the permit that the transform task below one
    of them holds. No worker is idle. -/
theorem deadlocked_deadlock :
    ¬ ∀ (n : ℕ) (_ : NeZero n) (k : ℤ) (reg : ToolRegistry) (x : Fin 3 → Session)
      (tr : List (Label n (Fin 3))) (s : State n (Fin 3)), 1 ≤ k →
      (system n k reg x).Run tr s → ¬(Deadlock s ∧ ∀ w, s.pool.held w ≠ []) := by
  intro hall
  have hends : (System.exec (next ⟨[]⟩) (initial 2 1 fresh) deadlocked).map (fun s =>
      (s.pool.held 0, s.pool.held 1, (s.agents 1).phase.spins, (s.agents 2).phase.spins,
        s.sem.permits, s.pool.submitted, s.pool.finished)) =
      some ([.session 2, .transform 0 0, .session 0], [.session 1], true, true, 0,
        [.session 0, .http 0 0, .transform 0 0, .session 1, .session 2], [.http 0 0]) := rfl
  obtain ⟨s, hrun, hs⟩ := System.exists_run_of_exec hends
  simp only [Prod.mk.injEq] at hs
  obtain ⟨hheld₀, hheld₁, hspins₁, hspins₂, hpermits, hsubmitted, hfinished⟩ := hs
  refine hall 2 inferInstance 1 ⟨[]⟩ fresh deadlocked s le_rfl hrun ⟨⟨?_, ?_, ?_⟩, ?_⟩
  · exact ⟨0, by simp [hsubmitted], by simp [hfinished]⟩
  · intro w i m
    revert w
    simp [Fin.forall_fin_two, hheld₀, hheld₁]
  · simp [Fin.forall_fin_two, Stuck, hheld₀, hheld₁, hspins₁, hspins₂, hpermits]
  · simp [Fin.forall_fin_two, hheld₀, hheld₁]

end Forge.Runtime
