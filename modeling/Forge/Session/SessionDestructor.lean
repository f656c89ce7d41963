import Forge.Session.SessionCapacity

/-! # The Destructor of the Session Manager

  `~SessionManager` takes the futures in `inflight_` and calls `get()` on
  one after another. `create_session` appends the future of the task it
  has dispatched and drops those that are ready. `get()` rethrows what the
  workflow threw, and nothing catches it in the destructor.

  - `Tracked`: every task dispatched has finished, or its future is kept,
    or the call that dispatched it is about to keep it;
  - `Contained`: no exception leaves the destructor, and when it has
    completed all tasks have finished;
  - `destructor_contained_iff`: this holds throughout a run if and only if
    the destructor calls `get()` on no future that holds an exception;
  - `exception_escapes`: one LLM call that fails is enough.
-/

namespace Forge

open LTS

/-- `run` was left by an exception, which is in the future then. -/
def WorkflowState.threw : WorkflowState → Bool
  | .react s => s.pc = .threw
  | .planExecute s => s.pc = .threw
  | .mapReduce s => s.pc = .threw

namespace SessionManager

variable {P : Params}

/-- The future of the task of `p` holds an exception. -/
def State.exceptional (s : State P) (p : ℕ) : Bool :=
  match s.objects p with
  | some ⟨_, .finished w, _⟩ => w.threw
  | _ => false

/-! ### The Manager until It Is Gone -/

/-- Where the destructor is. -/
inductive Destructor where
  /-- Not called yet. -/
  | alive
  /-- `for (auto& f : tasks)`: the futures that are left. -/
  | joining (tasks : List ℕ)
  | completed
  /-- An exception has left it: `std::terminate`. -/
  | escaped
  deriving DecidableEq

structure Lifetime (P : Params) where
  manager : State P
  destructor : Destructor

inductive Event where
  /-- A step of the manager or of a task. -/
  | manager (l : Label)
  /-- The destructor is called and takes the futures. -/
  | destroy
  /-- The next `get()` returns or throws, or the loop ends. -/
  | join

/-- The next `get()`, which returns once the future is ready. -/
def joinStep (x : Lifetime P) : Option (Lifetime P) :=
  match x.destructor with
  | .joining [] => some { x with destructor := .completed }
  | .joining (p :: tasks) =>
      if x.manager.ready p then
        if x.manager.exceptional p then some { x with destructor := .escaped }
        else some { x with destructor := .joining tasks }
      else none
  | _ => none

/-- The steps. The manager is called before it is destroyed only, and it is
    destroyed when no call is left in it; the tasks go on. -/
def lifetimeStep (x : Lifetime P) : Event → Lifetime P → Prop
  | .manager l, x' =>
      (x.destructor = .alive ∨ x.destructor ≠ .escaped ∧ l.thread = none) ∧
        ∃ m, next x.manager l = some m ∧ x' = { x with manager := m }
  | .destroy, x' =>
      x.destructor = .alive ∧ (∀ t, x.manager.calls t = .idle) ∧
        x' = ⟨{ x.manager with inflight := [] }, .joining x.manager.inflight⟩
  | .join, x' => joinStep x = some x'

/-- The manager from its construction to its destruction. -/
def lifetime (P : Params) : System (Lifetime P) Event where
  init := fun x => x = ⟨initial P, .alive⟩
  step := lifetimeStep

theorem lifetime_deterministic (P : Params) : (lifetime P).Deterministic where
  init := fun _ _ h h' => h.trans h'.symm
  step := by
    intro x e x' x'' h h'
    cases e with
    | manager l =>
      obtain ⟨-, m, hm, rfl⟩ := h
      obtain ⟨-, m', hm', rfl⟩ := h'
      rw [Option.some.inj (hm.symm.trans hm')]
    | destroy => exact h.2.2.trans h'.2.2.symm
    | join => exact Option.some.inj (Eq.trans (Eq.symm h) h')

variable {s s' : State P} {x x' : Lifetime P} {t : ℕ} {l : Label} {e : Event}

/-- What the next `get()` can do. -/
inductive JoinSteps (x : Lifetime P) : Lifetime P → Prop where
  | complete : x.destructor = .joining [] → JoinSteps x { x with destructor := .completed }
  | rethrow {p : ℕ} {tasks : List ℕ} : x.destructor = .joining (p :: tasks) →
      x.manager.exceptional p = true → JoinSteps x { x with destructor := .escaped }
  | get {p : ℕ} {tasks : List ℕ} : x.destructor = .joining (p :: tasks) →
      x.manager.ready p = true → x.manager.exceptional p = false →
      JoinSteps x { x with destructor := .joining tasks }

theorem joinSteps_of_joinStep (h : joinStep x = some x') : JoinSteps x x' := by
  unfold joinStep at h
  split at h
  · next hd =>
    cases h
    exact .complete hd
  · next p tasks hd =>
    simp only [Option.ite_none_right_eq_some] at h
    obtain ⟨hready, h⟩ := h
    split at h
    · next hexc =>
      cases h
      exact .rethrow hd hexc
    · next hexc =>
      cases h
      exact .get hd hready (Bool.eq_false_iff.mpr hexc)
  · cases h

/-! ### The Futures That Are Kept -/

/-- The task of `p` has finished, if it was dispatched. -/
def Finished (s : State P) (p : ℕ) : Prop :=
  ∀ o, s.objects p = some o → o.dispatched → o.task.isFinished

/-- Every task dispatched has finished, or its future is kept, or is about
    to be. -/
def Tracked (s : State P) : Prop :=
  ∀ p, Finished s p ∨ p ∈ s.inflight ∨ ∃ t, s.calls t = .track p

/-- A task that has finished stays so. -/
theorem finished_stays {parse : String → Option Json} {reg : ToolRegistry} {kind : WorkflowKind}
    {task task' : SessionTask.State} {l : SessionTask.Label} (h : task.isFinished)
    (hs : SessionTask.next parse reg kind task l = some task') : task'.isFinished := by
  cases task with
  | finished w =>
    cases l with
    | cancel =>
      cases hs
      rfl
    | task => cases hs
    | work a =>
      obtain ⟨w', -, rfl⟩ := Option.map_eq_some_iff.mp hs
      rfl
  | queued | create | running => cases h

theorem isFinished_mapSession (f : Session → Session) (task : SessionTask.State) :
    (task.mapSession f).isFinished = task.isFinished := by
  cases task <;> rfl

theorem Finished.of_ready {p : ℕ} (h : s.ready p = true) : Finished s p := by
  intro o ho _
  simpa [State.ready, ho] using h

/-- Another object for `p`, which has finished if it is dispatched. -/
theorem Finished.update {p q : ℕ} {o : Object} (hf : Finished s q)
    (hnew : p = q → o.dispatched → o.task.isFinished) : Finished (s.setObject p o) q := by
  intro o' ho' hd'
  by_cases hq : q = p
  · subst hq
    simp only [State.setObject, Function.update_self, Option.some.injEq] at ho'
    subst ho'
    exact hnew rfl hd'
  · simp only [State.setObject, Function.update_of_ne hq] at ho'
    exact hf o' ho' hd'

/-- Another object for `p`, finished if the old one was. -/
theorem Finished.setObject {p q : ℕ} {o o' : Object} (hf : Finished s q)
    (ho : s.objects p = some o) (hd : o'.dispatched → o.dispatched)
    (hgrows : o.task.isFinished → o'.task.isFinished) : Finished (s.setObject p o') q :=
  hf.update fun heq hd' => hgrows (hf o (heq ▸ ho) (hd hd'))

/-- A call that dispatches nothing goes on. -/
theorem Tracked.setCall (ht : Tracked s) {c : Call} (hnot : ∀ p, s.calls t ≠ .track p)
    (hcalls : s'.calls = Function.update s.calls t c) (hinflight : s'.inflight = s.inflight)
    (hfinished : ∀ p, Finished s p → Finished s' p) : Tracked s' := by
  intro p
  obtain hf | hkept | ⟨t', htrack⟩ := ht p
  · exact .inl (hfinished p hf)
  · exact .inr (.inl (hinflight ▸ hkept))
  · have hne : t' ≠ t := fun heq => hnot p (heq ▸ htrack)
    exact .inr (.inr ⟨t', by rw [hcalls, Function.update_of_ne hne]; exact htrack⟩)

/-- The task of `id` is dispatched; the call is about to keep its future. -/
theorem Tracked.submit (ht : Tracked s) {id : ℕ} {o : Object} (hcall : s.calls t = .submit id) :
    Tracked ((s.setObject id { o with dispatched := true }).setCall t (.track id)) := by
  intro p
  by_cases hp : p = id
  · subst hp
    exact .inr (.inr ⟨t, by simp [State.setCall]⟩)
  · obtain hf | hkept | ⟨t', htrack⟩ := ht p
    · refine .inl ?_
      intro o' ho'
      exact hf o' (by simpa [State.setCall, State.setObject, Function.update_of_ne hp] using ho')
    · exact .inr (.inl hkept)
    · have hne : t' ≠ t := by
        rintro rfl
        rw [hcall] at htrack
        cases htrack
      exact .inr (.inr ⟨t', by simpa [State.setCall, State.setObject, hne] using htrack⟩)

/-- The critical section: what is dropped has finished. -/
theorem Tracked.track (ht : Tracked s) {id : ℕ} {created : List ℕ}
    (hcall : s.calls t = .track id) {c : Call} :
    Tracked ({ s with
      inflight := s.inflight.filter (fun p => !s.ready p) ++ [id]
      created := created }.setCall t c) := by
  intro p
  obtain hf | hkept | ⟨t', htrack⟩ := ht p
  · exact .inl hf
  -- `erase(remove_if(ready))` drops futures of finished tasks only
  · by_cases hready : s.ready p = true
    · exact .inl (Finished.of_ready hready)
    · refine .inr (.inl (List.mem_append_left _ (List.mem_filter.mpr ⟨hkept, ?_⟩)))
      simpa using hready
  · by_cases hne : t' = t
    · -- this call keeps the future now
      subst hne
      rw [hcall] at htrack
      cases htrack
      exact .inr (.inl (by simp [State.setCall]))
    · exact .inr (.inr ⟨t', by simpa [State.setCall, hne] using htrack⟩)

/-- **Step of the futures.** -/
theorem Tracked.step (ht : Tracked s) (hs : Moves s l s') : Tracked s' := by
  cases hs with
  | tick => exact ht
  | @call t m hidle =>
    obtain ⟨c, heq, -⟩ := callStep_spec s t m
    rw [heq]
    exact ht.setCall (by simp [hidle]) rfl rfl fun _ hf => hf
  | @thread t s' hthread =>
    cases hthread
    case construct req kind id hcall =>
      -- a session that is new has no task yet
      exact ht.setCall (by simp [hcall]) rfl rfl fun _ hf => hf.update fun _ hd => by cases hd
    case submit id o hcall _ => exact ht.submit hcall
    case track id hcall => exact ht.track hcall
    case mutate i p o hcall _ ho =>
      refine ht.setCall (by simp [hcall]) rfl rfl fun _ hf => ?_
      exact Finished.setObject hf ho id (by rw [isFinished_mapSession]; exact id)
    all_goals exact ht.setCall (by intro p hp; simp_all) rfl rfl fun _ hf => hf
  | @ret t r hr => exact ht.setCall (by simp [hr]) rfl rfl fun _ hf => hf
  | @task p l o task' ho hd htask =>
    intro q
    obtain hf | hkept | htrack := ht q
    · exact .inl (hf.setObject ho id (fun hfin => finished_stays hfin htask))
    · exact .inr (.inl hkept)
    · exact .inr (.inr htrack)

/-- The destructor has taken the futures over: what is left to join covers
    what has not finished, and no call is left. -/
def Covered (x : Lifetime P) : Prop :=
  match x.destructor with
  | .alive => Tracked x.manager
  | .joining tasks => (∀ t, x.manager.calls t = .idle) ∧ ∀ p, Finished x.manager p ∨ p ∈ tasks
  | .completed => ∀ p, Finished x.manager p
  | .escaped => True

/-- A task goes on while the destructor runs, or after it. -/
theorem finished_of_background (hl : l.thread = none) (hs : Moves s l s') {p : ℕ}
    (hf : Finished s p) : Finished s' p := by
  cases hs with
  | tick => exact hf
  | call | thread | ret => cases hl
  | task ho _ htask => exact hf.setObject ho id fun hfin => finished_stays hfin htask

theorem covered_initial : Covered (⟨initial P, .alive⟩ : Lifetime P) := by
  intro p
  refine .inl ?_
  intro o ho
  cases ho

/-- **Step of the destructor.** -/
theorem Covered.step (hc : Covered x) (hs : lifetimeStep x e x') : Covered x' := by
  cases e with
  | manager l =>
    -- calls of the manager are over once the destructor runs
    obtain ⟨hallowed, m, hm, rfl⟩ := hs
    have hmoves := moves_of_next hm
    unfold Covered at hc ⊢
    cases hd : x.destructor with
    | alive =>
      simp only [hd] at hc ⊢
      exact hc.step hmoves
    | joining tasks =>
      have hl : l.thread = none := by simpa [hd] using hallowed
      simp only [hd] at hc ⊢
      refine ⟨?_, fun p => (hc.2 p).imp_left (finished_of_background hl hmoves)⟩
      intro t
      rw [calls_of_moves hmoves (by rw [hl]; simp)]
      exact hc.1 t
    | completed =>
      have hl : l.thread = none := by simpa [hd] using hallowed
      simp only [hd] at hc ⊢
      exact fun p => finished_of_background hl hmoves (hc p)
    | escaped => simp
  | destroy =>
    obtain ⟨halive, hidle, rfl⟩ := hs
    -- no call is left that could hold a future of its own
    unfold Covered at hc ⊢
    simp only [halive] at hc ⊢
    refine ⟨hidle, ?_⟩
    intro p
    obtain hf | hkept | ⟨t, htrack⟩ := hc p
    · exact .inl hf
    · exact .inr hkept
    · rw [hidle t] at htrack
      cases htrack
  | join =>
    unfold Covered at hc ⊢
    cases joinSteps_of_joinStep hs with
    | complete hd =>
      simp only [hd] at hc ⊢
      exact fun p => (hc.2 p).resolve_right (by simp)
    | rethrow => trivial
    | get hd hready =>
      simp only [hd] at hc ⊢
      refine ⟨hc.1, ?_⟩
      intro q
      obtain hf | hmem := hc.2 q
      · exact .inl hf
      · obtain rfl | hmem := List.mem_cons.mp hmem
        -- `get()` has returned: this task has finished
        · exact .inl (Finished.of_ready hready)
        · exact .inr hmem

/-! ### The Contract -/

/-- The destructor at one moment: no exception has left it; when it has
    completed every task ever dispatched has finished; and it waits for
    nothing but tasks that have not finished. -/
structure Contained (x : Lifetime P) : Prop where
  noEscape : x.destructor ≠ .escaped
  allFinished : x.destructor = .completed → ∀ p o, x.manager.objects p = some o →
    o.dispatched → o.task.isFinished
  proceeds : ∀ tasks, x.destructor = .joining tasks → (∀ p ∈ tasks.head?, x.manager.ready p) →
    ∃ x', joinStep x = some x'

/-- `get()` is not called on a future that holds an exception. -/
def Calm (x : Lifetime P) : Event → Prop
  | .join => ∀ p tasks, x.destructor = .joining (p :: tasks) → x.manager.exceptional p = false
  | _ => True

theorem Covered.contained (hc : Covered x) (hne : x.destructor ≠ .escaped) : Contained x where
  noEscape := hne
  allFinished := by
    intro hd p
    rw [Covered, hd] at hc
    exact hc p
  proceeds := by
    intro tasks hd hready
    cases tasks with
    | nil => exact ⟨{ x with destructor := .completed }, by simp only [joinStep, hd]⟩
    | cons p tasks =>
      have hp := hready p (by simp)
      unfold joinStep
      simp only [hd, hp, if_true]
      split
      · exact ⟨_, rfl⟩
      · exact ⟨_, rfl⟩

theorem covered_of_run {tr : List Event} (hrun : (lifetime P).Run tr x) : Covered x := by
  apply hrun.invariant (P := Covered)
  · intro x hx
    have hx' : x = ⟨initial P, .alive⟩ := hx
    subst hx'
    exact covered_initial
  · intro x e x' hc hs
    exact hc.step hs

/-- A step lets an exception escape when it is a `get()` that rethrows. -/
theorem escapes_iff (hne : x.destructor ≠ .escaped) (hs : lifetimeStep x e x') :
    x'.destructor ≠ .escaped ↔ Calm x e := by
  cases e with
  | manager l =>
    obtain ⟨-, m, -, rfl⟩ := hs
    simpa [Calm] using hne
  | destroy =>
    obtain ⟨-, -, rfl⟩ := hs
    simp [Calm]
  | join =>
    cases joinSteps_of_joinStep hs with
    | complete hd => simp [Calm, hd]
    | rethrow hd hexc => simp [Calm, hd, hexc]
    | get hd _ hexc => simp [Calm, hd, hexc]

/-- **The destructor.** In a run of the manager, with any calls and any
    outcomes of the tasks, no exception leaves the destructor, it waits for
    unfinished tasks only, and when it has completed every task ever
    dispatched has finished, if and only if every `get()` in it is called
    on a future without an exception. -/
theorem destructor_contained_iff {tr : List Event} (hrun : (lifetime P).Run tr x) :
    (∀ tr' x', tr' <+: tr → (lifetime P).Run tr' x' → Contained x') ↔
      ((lifetime P).restrict Calm).Run tr x := by
  -- the first state out of the contract is the one the exception leaves
  apply (lifetime_deterministic P).always_iff _ _ hrun
  · intro x hx
    have hx' : x = ⟨initial P, .alive⟩ := hx
    subst hx'
    exact covered_initial.contained (by simp)
  · intro x e x' hreach hcont hs
    obtain ⟨tr₀, hrun₀⟩ := hreach
    rw [← escapes_iff hcont.noEscape hs]
    constructor
    · exact fun h => h.noEscape
    · exact ((covered_of_run hrun₀).step hs).contained

/-! ### Two Sessions -/

/-- A run of the manager is one of its lifetime. -/
theorem run_alive {tr : List Label} (hrun : (system P).Run tr s) :
    ((lifetime P).restrict Calm).Run (tr.map .manager) ⟨s, .alive⟩ := by
  induction hrun with
  | start hs =>
    have hs' : _ = initial P := hs
    exact .start (by rw [hs']; rfl)
  | snoc _ hs ih =>
    rw [List.map_append]
    exact ih.snoc ⟨trivial, .inl rfl, _, hs, rfl⟩

/-- One session is created, and its task takes the steps `work`. -/
def createAndRun (work : List SessionTask.Label) : List Label :=
  createAlone 0 ++ [Label.ret 0] ++ work.map (Label.task 1)

/-- After `createAndRun` no call is left, and the destructor may start. -/
theorem destroy_after {work : List SessionTask.Label} {s : State oneSession}
    (hexec : System.exec next (initial oneSession) (createAndRun work) = some s)
    (hidle : s.calls 0 = .idle) :
    ((lifetime oneSession).restrict Calm).Run ((createAndRun work).map .manager ++ [.destroy])
      ⟨{ s with inflight := [] }, .joining s.inflight⟩ := by
  have hrun : (system oneSession).Run (createAndRun work) s := System.run_of_exec hexec
  have hothers : ∀ t, s.calls t = .idle := by
    intro t
    by_cases ht : t = 0
    · rw [ht]
      exact hidle
    · apply (alone_undisturbed (t := 0) hrun ?_).2 t ht
      intro l hl t' ht'
      simp only [createAndRun, createAlone, List.mem_append, List.mem_cons, List.mem_replicate,
        List.mem_map, List.not_mem_nil, or_false] at hl
      rcases hl with ((rfl | ⟨-, rfl⟩) | rfl) | ⟨a, -, rfl⟩ <;> cases ht' <;> rfl
  have hdestroy : lifetimeStep ⟨s, .alive⟩ .destroy
      ⟨{ s with inflight := [] }, .joining s.inflight⟩ := ⟨rfl, hothers, rfl⟩
  exact (run_alive hrun).snoc ⟨trivial, hdestroy⟩

/-- The session is answered: the destructor completes. -/
theorem answered_contained :
    ∃ x, (lifetime oneSession).Run
        ((createAndRun SessionTask.answered).map .manager ++ [.destroy] ++ [.join] ++ [.join]) x ∧
      x.destructor = .completed ∧ Contained x := by
  have hstate : (System.exec next (initial oneSession) (createAndRun SessionTask.answered)).map
      (fun s => (decide (s.calls 0 = .idle), s.inflight, s.ready 1, s.exceptional 1)) =
        some (true, [1], true, false) := by decide +kernel
  obtain ⟨s, hexec, hs⟩ := Option.map_eq_some_iff.mp hstate
  simp only [Prod.mk.injEq, decide_eq_true_eq] at hs
  obtain ⟨hidle, hinflight, hready, hexc⟩ := hs
  have hready' : (State.ready { s with inflight := [] } 1) = true := hready
  have hexc' : (State.exceptional { s with inflight := [] } 1) = false := hexc
  have hrun := destroy_after hexec hidle
  rw [hinflight] at hrun
  have hget : (lifetime oneSession).step ⟨{ s with inflight := [] }, .joining [1]⟩ .join
      ⟨{ s with inflight := [] }, .joining []⟩ := by
    simp [lifetime, lifetimeStep, joinStep, hready', hexc']
  have hend : (lifetime oneSession).step ⟨{ s with inflight := [] }, .joining []⟩ .join
      ⟨{ s with inflight := [] }, .completed⟩ := rfl
  have hcalm : Calm (⟨{ s with inflight := [] }, .joining [1]⟩ : Lifetime oneSession) .join := by
    simp [Calm, hexc']
  have hcalm' : Calm (⟨{ s with inflight := [] }, .joining []⟩ : Lifetime oneSession) .join := by
    simp [Calm]
  have hrun' := (hrun.snoc ⟨hcalm, hget⟩).snoc ⟨hcalm', hend⟩
  exact ⟨_, hrun'.of_restrict, rfl,
    (destructor_contained_iff hrun'.of_restrict).mpr hrun' _ _ List.prefix_rfl hrun'.of_restrict⟩

/-- The LLM call of the session has failed: the exception leaves the
    destructor. -/
theorem exception_escapes :
    ¬ ∀ (P : Params) (tr : List Event) (x : Lifetime P), (lifetime P).Run tr x → Contained x := by
  intro hall
  have hend : (System.exec next (initial oneSession) (createAndRun SessionTask.unanswered)).map
      (fun s => (decide (s.calls 0 = .idle), s.inflight, s.ready 1, s.exceptional 1)) =
        some (true, [1], true, true) := by decide +kernel
  obtain ⟨s, hexec, hs⟩ := Option.map_eq_some_iff.mp hend
  simp only [Prod.mk.injEq, decide_eq_true_eq] at hs
  obtain ⟨hidle, hinflight, hready, hexc⟩ := hs
  have hready' : (State.ready { s with inflight := [] } 1) = true := hready
  have hexc' : (State.exceptional { s with inflight := [] } 1) = true := hexc
  have hrun := destroy_after hexec hidle
  rw [hinflight] at hrun
  have hget : (lifetime oneSession).step ⟨{ s with inflight := [] }, .joining [1]⟩ .join
      ⟨{ s with inflight := [] }, .escaped⟩ := by
    simp [lifetime, lifetimeStep, joinStep, hready', hexc']
  exact (hall oneSession _ _ (hrun.of_restrict.snoc hget)).noEscape rfl

end SessionManager

end Forge
