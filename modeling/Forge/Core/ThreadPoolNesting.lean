import Forge.Core.ThreadPoolTasks

/-! # Thread Pool — Nested Tasks

  What the stacks of the workers look like while tasks wait for each
  other: which tasks a worker holds, topmost first (`held`), and which of
  them is running (`active`).

  A step of a pool that is not shut down and is not used from worker
  threads of other pools does one of five things: a worker looks for a
  task (`Looks`) or takes one (`Takes`), the running task pushes a task on
  the worker's deque (`Pushes`) or finishes (`Finishes`), or a task comes
  in from outside (`Enqueues`).
-/

open LTS

namespace Forge.ThreadPool

variable {n : ℕ} {T : Type*}

/-- The tasks worker `w` holds, topmost first. -/
def State.held (s : State n T) (w : Fin n) : List T := (s.workers w).held

/-- The task worker `w` is running; `none` when it looks for one. -/
def State.active (s : State n T) (w : Fin n) : Option T :=
  match (s.workers w).stack with
  | .exec t :: _ => some t
  | _ => none

/-! ### Stacks -/

/-- There is no `try_process_one` among the frames. -/
def NoTry (frames : List (Frame T)) : Prop := ∀ pc, Frame.tryOne pc ∉ frames

/-- `try_process_one` is on top of a stack only, and past its first
    statement the worker's own deque is empty. -/
def StackOk (deque : List T) : List (Frame T) → Prop
  | [] => True
  | .exec _ :: rest => NoTry rest
  | .tryOne pc :: rest => NoTry rest ∧ (pc ≠ .ownDeque → deque = [])

/-- All stacks are like that. -/
def Nested (s : State n T) : Prop := ∀ w, StackOk (s.deques w) (s.workers w).stack

variable {s s' : State n T}

theorem NoTry.cons {frames : List (Frame T)} (h : NoTry frames) (t : T) :
    NoTry (.exec t :: frames) := by
  intro pc hpc
  rcases List.mem_cons.mp hpc with heq | hmem
  · cases heq
  · exact h pc hmem

theorem NoTry.stackOk {frames : List (Frame T)} (h : NoTry frames) (deque : List T) :
    StackOk deque frames := by
  cases frames with
  | nil => trivial
  | cons f rest =>
    cases f with
    | exec t => exact fun pc hpc => h pc (List.mem_cons_of_mem _ hpc)
    | tryOne pc => exact absurd List.mem_cons_self (h pc)

theorem StackOk.mono {deque deque' : List T} {stack : List (Frame T)} (h : StackOk deque stack)
    (hsub : deque' ⊆ deque) : StackOk deque' stack := by
  cases stack with
  | nil => trivial
  | cons f rest =>
    cases f with
    | exec t => exact h
    | tryOne pc =>
      refine ⟨h.1, fun hpc => ?_⟩
      have hnil := h.2 hpc
      subst hnil
      exact List.subset_nil.mp hsub

theorem held_of_active {w : Fin n} {t : T} (h : s.active w = some t) :
    ∃ rest, s.held w = t :: rest := by
  unfold State.active at h
  split at h
  · next t' rest hstack =>
    cases h
    exact ⟨rest.filterMap Frame.task, by simp [State.held, Worker.held, hstack, Frame.task]⟩
  · cases h

theorem mem_held_of_active {w : Fin n} {t : T} (h : s.active w = some t) : t ∈ s.held w := by
  obtain ⟨rest, hrest⟩ := held_of_active h
  rw [hrest]
  exact List.mem_cons_self

/-! ### What a Step Does -/

/-- Worker `w` goes on looking for a task, or starts to. -/
structure Looks (s s' : State n T) (w : Fin n) : Prop where
  others : ∀ v, v ≠ w → s'.workers v = s.workers v
  held : s'.held w = s.held w
  shape : StackOk (s'.deques w) (s'.workers w).stack
  queues : s'.queues = s.queues
  deques : s'.deques = s.deques
  submitted : s'.submitted = s.submitted
  started : s'.started = s.started
  finished : s'.finished = s.finished
  draining : s'.draining = s.draining

/-- Worker `w` takes task `t` on top of what it holds: from a deque, or
    from its submission queue when it holds nothing or its deque is empty. -/
structure Takes (s s' : State n T) (w : Fin n) (t : T) : Prop where
  others : ∀ v, v ≠ w → s'.workers v = s.workers v
  held : s'.held w = t :: s.held w
  shape : StackOk (s'.deques w) (s'.workers w).stack
  active : s'.active w = some t
  queues : ∀ v, s'.queues v ⊆ s.queues v
  deques : ∀ v, s'.deques v ⊆ s.deques v
  source : (∃ v, t ∈ s.deques v) ∨ (t ∈ s.queues w ∧ (s.held w = [] ∨ s.deques w = []))
  submitted : s'.submitted = s.submitted
  started : s'.started = s.started ++ [t]
  finished : s'.finished = s.finished
  draining : s'.draining = s.draining

/-- The running task of worker `w` pushes `t` on the deque. -/
structure Pushes (s s' : State n T) (w : Fin n) (t : T) : Prop where
  fresh : t ∉ s.submitted
  running : s.active w ≠ none
  workers : s'.workers = s.workers
  queues : s'.queues = s.queues
  deques : s'.deques = Function.update s.deques w (s.deques w ++ [t])
  submitted : s'.submitted = s.submitted ++ [t]
  started : s'.started = s.started
  finished : s'.finished = s.finished
  draining : s'.draining = s.draining

/-- The running task `t` of worker `w` finishes. -/
structure Finishes (s s' : State n T) (w : Fin n) (t : T) : Prop where
  active : s.active w = some t
  others : ∀ v, v ≠ w → s'.workers v = s.workers v
  held : s.held w = t :: s'.held w
  shape : StackOk (s'.deques w) (s'.workers w).stack
  queues : s'.queues = s.queues
  deques : s'.deques = s.deques
  submitted : s'.submitted = s.submitted
  started : s'.started = s.started
  finished : s'.finished = s.finished ++ [t]
  draining : s'.draining = s.draining

/-- Task `t` is submitted from outside. -/
structure Enqueues (s s' : State n T) (t : T) : Prop where
  fresh : t ∉ s.submitted
  workers : s'.workers = s.workers
  queues : ∀ v u, u ∈ s'.queues v → u ∈ s.queues v ∨ u = t
  deques : s'.deques = s.deques
  submitted : s'.submitted = s.submitted ++ [t]
  started : s'.started = s.started
  finished : s'.finished = s.finished
  draining : s'.draining = s.draining

theorem Nested.of_others {w : Fin n} (hn : Nested s)
    (hothers : ∀ v, v ≠ w → s'.workers v = s.workers v) (hdeques : ∀ v, s'.deques v ⊆ s.deques v)
    (hshape : StackOk (s'.deques w) (s'.workers w).stack) : Nested s' := by
  intro v
  by_cases hv : v = w
  · subst hv
    exact hshape
  · rw [hothers v hv]
    exact (hn v).mono (hdeques v)

/-- What the other workers hold stays. -/
theorem held_others {w v : Fin n} (hothers : ∀ v, v ≠ w → s'.workers v = s.workers v)
    (hv : v ≠ w) : s'.held v = s.held v := by
  unfold State.held
  rw [hothers v hv]

/-- A worker that looks for a task changes no stack. -/
theorem Looks.held_eq {w : Fin n} (h : Looks s s' w) (v : Fin n) : s'.held v = s.held v := by
  by_cases hv : v = w
  · rw [hv, h.held]
  · exact held_others h.others hv

theorem Finishes.held_subset {w : Fin n} {t : T} (h : Finishes s s' w t) (v : Fin n) :
    s'.held v ⊆ s.held v := by
  by_cases hv : v = w
  · rw [hv, h.held]
    exact List.subset_cons_self _ _
  · rw [held_others h.others hv]
    exact List.Subset.refl _

theorem active_others {w v : Fin n} (hothers : ∀ v, v ≠ w → s'.workers v = s.workers v)
    (hv : v ≠ w) : s'.active v = s.active v := by
  unfold State.active
  rw [hothers v hv]

theorem held_congr (h : s'.workers = s.workers) : s'.held = s.held := by
  unfold State.held
  rw [h]

theorem active_congr (h : s'.workers = s.workers) : s'.active = s.active := by
  unfold State.active
  rw [h]

/-! ### Taking -/

theorem fetch_queue {w : Fin n} {t : T} {s₁ : State n T} (h : s.fetch (.queue w) = some (t, s₁)) :
    t ∈ s.queues w ∧ (∀ v, s₁.queues v ⊆ s.queues v) ∧ s₁.deques = s.deques := by
  simp only [State.fetch] at h
  split at h
  · cases h
  · next t' rest hq =>
    cases h
    refine ⟨by simp [hq], fun v => ?_, rfl⟩
    by_cases hv : v = w
    · subst hv
      simp [hq]
    · simp [hv]

theorem fetch_deque {src : Source n} {v : Fin n} {t : T} {s₁ : State n T}
    (hsrc : src = .pop v ∨ src = .steal v) (h : s.fetch src = some (t, s₁)) :
    t ∈ s.deques v ∧ (∀ u, s₁.deques u ⊆ s.deques u) ∧ s₁.queues = s.queues := by
  rcases hsrc with rfl | rfl <;> simp only [State.fetch] at h <;> split at h
  · cases h
  · next t' hlast =>
    cases h
    refine ⟨List.mem_of_getLast? hlast, fun u => ?_, rfl⟩
    by_cases hu : u = v
    · subst hu
      simpa using List.dropLast_subset _
    · simp [hu]
  · cases h
  · next t' rest hq =>
    cases h
    refine ⟨by simp [hq], fun u => ?_, rfl⟩
    by_cases hu : u = v
    · subst hu
      simp [hq]
    · simp [hu]

/-- A worker that looks into its own queue or into a deque finds a task or
    does not. -/
theorem take_cases {w : Fin n} {src : Source n} {hit : T → Worker T} {miss : Worker T}
    {rest : List (Frame T)} (hhit : ∀ t, (hit t).stack = .exec t :: rest) (hrest : NoTry rest)
    (hheld : rest.filterMap Frame.task = s.held w) (hmiss : miss.held = s.held w)
    (hmissOk : s.fetch src = none → StackOk (s.deques w) miss.stack)
    (hsrc : (∃ v, src = .pop v ∨ src = .steal v) ∨
      (src = .queue w ∧ (s.held w = [] ∨ s.deques w = []))) :
    Looks s (s.take w src hit miss) w ∨ ∃ t, Takes s (s.take w src hit miss) w t := by
  unfold State.take
  split
  · next t s₁ hf =>
    right
    have hframe : s₁.workers = s.workers ∧ s₁.submitted = s.submitted ∧
        s₁.finished = s.finished ∧ s₁.draining = s.draining := by
      cases src <;> simp only [State.fetch] at hf <;> split at hf <;> cases hf <;>
        exact ⟨rfl, rfl, rfl, rfl⟩
    obtain ⟨hworkers, hsubmitted, hfinished, hdraining⟩ := hframe
    -- what the two sources have in common
    have htakes : (∀ v, s₁.queues v ⊆ s.queues v) → (∀ v, s₁.deques v ⊆ s.deques v) →
        ((∃ v, t ∈ s.deques v) ∨ (t ∈ s.queues w ∧ (s.held w = [] ∨ s.deques w = []))) →
        Takes s ({ s₁ with started := s.started ++ [t] }.setWorker w (hit t)) w t := by
      intro hqueues hdeques hsource
      refine ⟨fun v hv => ?_, ?_, ?_, ?_, hqueues, hdeques, hsource, hsubmitted, rfl, hfinished,
        hdraining⟩
      · simp [State.setWorker, hv, hworkers]
      · rw [← hheld]
        simp [State.held, State.setWorker, Worker.held, hhit, Frame.task]
      · simpa [State.setWorker, hhit, StackOk] using hrest
      · simp [State.active, State.setWorker, hhit]
    refine ⟨t, ?_⟩
    rcases hsrc with ⟨v, hv⟩ | ⟨rfl, hfree⟩
    · obtain ⟨hmem, hdeques, hqueues⟩ := fetch_deque hv hf
      exact htakes (fun u => by rw [hqueues]; exact List.Subset.refl _) hdeques (.inl ⟨v, hmem⟩)
    · obtain ⟨hmem, hqueues, hdeques⟩ := fetch_queue hf
      exact htakes hqueues (fun u => by rw [hdeques]; exact List.Subset.refl _) (.inr ⟨hmem, hfree⟩)
  · next hf =>
    left
    refine ⟨fun v hv => ?_, ?_, ?_, rfl, rfl, rfl, rfl, rfl, rfl⟩
    · simp [State.setWorker, hv]
    · simpa [State.held, State.setWorker] using hmiss
    · simpa [State.setWorker] using hmissOk hf

/-- A worker goes on without a task. -/
theorem looks_setWorker {w : Fin n} {wk : Worker T} (hheld : wk.held = s.held w)
    (hshape : StackOk (s.deques w) wk.stack) : Looks s (s.setWorker w wk) w := by
  refine ⟨fun v hv => ?_, ?_, ?_, rfl, rfl, rfl, rfl, rfl, rfl⟩
  · simp [State.setWorker, hv]
  · simpa [State.held, State.setWorker] using hheld
  · simpa [State.setWorker] using hshape

theorem loopStep_cases {w victim : Fin n} {lost : Bool} (hstack : (s.workers w).stack = [])
    (hs : loopStep s w victim lost = some s') : Looks s s' w ∨ ∃ t, Takes s s' w t := by
  have hheld : s.held w = [] := by simp [State.held, Worker.held, hstack]
  have hnil : NoTry ([] : List (Frame T)) := fun _ hpc => by cases hpc
  unfold loopStep at hs
  cases hpc : (s.workers w).loop <;> simp only [hpc, Option.some.injEq, reduceCtorEq] at hs
  case top | checkStop | idle =>
    subst hs
    exact .inl (looks_setWorker rfl (by simp [hstack, StackOk]))
  -- the worker holds nothing, so it may look into any queue
  case poll | ownQueue | drainQueue =>
    subst hs
    exact take_cases (fun _ => rfl) hnil hheld.symm rfl (fun _ => by simp [hstack, StackOk])
      (.inr ⟨rfl, .inl hheld⟩)
  case ownDeque | drainDeque =>
    subst hs
    exact take_cases (fun _ => rfl) hnil hheld.symm rfl (fun _ => by simp [hstack, StackOk])
      (.inl ⟨w, .inl rfl⟩)
  case steal attempts =>
    split at hs
    · split at hs <;> cases hs
      · exact take_cases (fun _ => rfl) hnil hheld.symm rfl (fun _ => by simp [hstack, StackOk])
          (.inl ⟨victim, .inr rfl⟩)
      · exact .inl (looks_setWorker rfl (by simp [hstack, StackOk]))
    · cases hs
      exact .inl (looks_setWorker rfl (by simp [hstack, StackOk]))

theorem tryStep_cases {w : Fin n} {lost : Bool} {rest : List (Frame T)} {pc : TryPC}
    (hstack : (s.workers w).stack = .tryOne pc :: rest)
    (hok : StackOk (s.deques w) (.tryOne pc :: rest)) :
    Looks s (tryStep s w lost rest pc) w ∨ ∃ t, Takes s (tryStep s w lost rest pc) w t := by
  obtain ⟨hrest, hempty⟩ := hok
  have hheld : rest.filterMap Frame.task = s.held w := by
    rw [State.held, Worker.held, hstack]
    rfl
  unfold tryStep
  cases pc with
  | ownDeque =>
    refine take_cases (fun _ => rfl) hrest hheld hheld ?_ (.inl ⟨w, .inl rfl⟩)
    -- the deque has just been found empty
    intro hfetch
    refine ⟨hrest, fun _ => ?_⟩
    simp only [State.fetch] at hfetch
    split at hfetch
    · next hlast => exact List.getLast?_eq_none_iff.mp hlast
    · cases hfetch
  | ownQueue =>
    have hdeque := hempty (by simp)
    exact take_cases (fun _ => rfl) hrest hheld hheld (fun _ => ⟨hrest, fun _ => hdeque⟩)
      (.inr ⟨rfl, .inr hdeque⟩)
  | steal i =>
    have hdeque := hempty (by simp)
    dsimp only
    split
    · next hi =>
      split
      · exact take_cases (fun _ => rfl) hrest hheld hheld (fun _ => ⟨hrest, fun _ => hdeque⟩)
          (.inl ⟨⟨i, hi⟩, .inr rfl⟩)
      · exact .inl (looks_setWorker hheld ⟨hrest, fun _ => hdeque⟩)
    · exact .inl (looks_setWorker hheld (hrest.stackOk _))

/-- What a worker that is in no task does. -/
theorem worker_cases {w victim : Fin n} {lost : Bool} (hn : Nested s)
    (hs : workerStep s w victim lost = some s') :
    s.active w = none ∧ (Looks s s' w ∨ ∃ t, Takes s s' w t) := by
  unfold workerStep at hs
  split at hs
  · next hstack => exact ⟨by simp [State.active, hstack], loopStep_cases hstack hs⟩
  · next pc rest hstack =>
    cases hs
    have hok := hn w
    rw [hstack] at hok
    exact ⟨by simp [State.active, hstack], tryStep_cases hstack hok⟩
  · cases hs

/-! ### Tasks -/

section Task

variable [NeZero n] [DecidableEq T]

/-- What the running task of a worker can do. -/
theorem next_task {w : Fin n} {a : Action T} (hs : next s (.task w a) = some s') :
    ∃ t rest, (s.workers w).stack = .exec t :: rest ∧ s.active w = some t ∧
      taskStep s w t rest a = some s' := by
  simp only [next] at hs
  split at hs
  · next t rest hstack => exact ⟨t, rest, hstack, by simp [State.active, hstack], hs⟩
  · cases hs

theorem pushes_submit {w : Fin n} {t : T} (hs : next s (.task w (.submit t)) = some s') :
    Pushes s s' w t := by
  obtain ⟨u, rest, -, hactive, hs⟩ := next_task hs
  simp only [taskStep, Option.ite_none_right_eq_some, Option.some.injEq] at hs
  obtain ⟨hnew, rfl⟩ := hs
  simp only [State.submit, w.isLt, dite_true]
  exact ⟨hnew, by simp [hactive], rfl, rfl, rfl, rfl, rfl, rfl, rfl⟩

theorem looks_wait {w : Fin n} (hn : Nested s) (hs : next s (.task w .wait) = some s') :
    Looks s s' w := by
  obtain ⟨u, rest, hstack, -, hs⟩ := next_task hs
  simp only [taskStep, Option.some.injEq] at hs
  subst hs
  have hok := hn w
  rw [hstack] at hok
  refine looks_setWorker ?_ ⟨NoTry.cons hok u, by simp⟩
  rw [State.held, Worker.held, Worker.held, hstack]
  rfl

theorem finishes_finish {w : Fin n} (hn : Nested s) (hs : next s (.task w .finish) = some s') :
    ∃ t, Finishes s s' w t := by
  obtain ⟨t, rest, hstack, hactive, hs⟩ := next_task hs
  simp only [taskStep, Option.some.injEq] at hs
  subst hs
  have hok := hn w
  rw [hstack] at hok
  refine ⟨t, hactive, fun v hv => ?_, ?_, ?_, rfl, rfl, rfl, rfl, rfl, rfl⟩
  · simp [State.setWorker, hv]
  · simp [State.held, State.setWorker, Worker.held, hstack, Frame.task]
  · simpa [State.setWorker] using NoTry.stackOk hok (s.deques w)

theorem enqueues_submit {t : T} (hs : next s (.submit none t) = some s') : Enqueues s s' t := by
  simp only [next, Option.ite_none_right_eq_some, Option.some.injEq] at hs
  obtain ⟨⟨-, hnew⟩, rfl⟩ := hs
  refine ⟨hnew, rfl, fun v u hu => ?_, rfl, rfl, rfl, rfl, rfl⟩
  by_cases hv : v = Fin.ofNat n s.nextWorker
  · subst hv
    simpa [State.submit, State.pushQueue] using hu
  · simp only [State.submit, State.pushQueue, Function.update_of_ne hv] at hu
    exact .inl hu

end Task

end Forge.ThreadPool
