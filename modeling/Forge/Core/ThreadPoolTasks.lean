import Forge.Core.ThreadPool
import Forge.Framework.Total

/-! # Thread Pool — Every Task Is in One Place

  A task is stored in a queue or a deque, in the hands of a thread, or
  finished. Whatever a step of the pool does, it does one of four things
  to the tasks (`Moves`): nothing, one new task is stored, one stored task
  is taken into a thread's hands, or one task in hand is finished.

  All places where the code takes a task go through `take` and `drain`,
  so `next_moves` is the only proof that looks at the single steps.
-/

open LTS

namespace Forge.ThreadPool

variable {n : ℕ} {T : Type*}

/-! ### Counting Tasks -/

def Frame.task : Frame T → Option T
  | .exec t => some t
  | .tryOne _ => none

/-- The tasks a worker has taken and not finished. -/
def Worker.held (wk : Worker T) : List T := wk.stack.filterMap Frame.task

variable [DecidableEq T]

/-- How often a task is in a submission queue or a deque. -/
def State.stored (s : State n T) (t : T) : ℕ :=
  total (List.count t) s.queues + total (List.count t) s.deques

/-- How often a task is on the stack of a thread. -/
def State.inHands (s : State n T) (t : T) : ℕ :=
  total (fun wk => wk.held.count t) s.workers + s.draining.toList.count t

/-- In how many places a task is. -/
def State.places (s : State n T) (t : T) : ℕ := s.stored t + s.inHands t + s.finished.count t

/-- The task a step submits. -/
def Label.submits : Label n T → Option T
  | .submit _ t | .task _ (.submit t) | .task _ (.submitLocal t) | .drained (.submit t) => some t
  | _ => none

/-- What a step does to the tasks; the index is the task it submits. -/
inductive Moves (s s' : State n T) : Option T → Prop where
  | stays (hstored : ∀ u, s'.stored u = s.stored u) (hhands : ∀ u, s'.inHands u = s.inHands u)
      (hsubmitted : s'.submitted = s.submitted) (hstarted : s'.started = s.started)
      (hfinished : s'.finished = s.finished) : Moves s s' none
  | submits (t : T) (hnew : t ∉ s.submitted)
      (hstored : ∀ u, s'.stored u = s.stored u + [t].count u)
      (hhands : ∀ u, s'.inHands u = s.inHands u)
      (hsubmitted : s'.submitted = s.submitted ++ [t]) (hstarted : s'.started = s.started)
      (hfinished : s'.finished = s.finished) : Moves s s' (some t)
  | takes (t : T) (hstored : ∀ u, s.stored u = s'.stored u + [t].count u)
      (hhands : ∀ u, s'.inHands u = s.inHands u + [t].count u)
      (hsubmitted : s'.submitted = s.submitted) (hstarted : s'.started = s.started ++ [t])
      (hfinished : s'.finished = s.finished) : Moves s s' none
  | finishes (t : T) (hstored : ∀ u, s'.stored u = s.stored u)
      (hhands : ∀ u, s.inHands u = s'.inHands u + [t].count u)
      (hsubmitted : s'.submitted = s.submitted) (hstarted : s'.started = s.started)
      (hfinished : s'.finished = s.finished ++ [t]) : Moves s s' none

/-! ### Taking -/

variable {s s' : State n T} {t : T}

/-- A fetch removes one task from where tasks are stored and changes
    nothing else. -/
theorem fetch_spec {src : Source n} (h : s.fetch src = some (t, s')) :
    (∀ u, s.stored u = s'.stored u + [t].count u) ∧ s'.workers = s.workers ∧
      s'.draining = s.draining ∧ s'.submitted = s.submitted ∧ s'.finished = s.finished := by
  cases src with
  | queue i =>
    simp only [State.fetch] at h
    split at h
    · cases h
    · next t' rest hq =>
      cases h
      refine ⟨fun u => ?_, rfl, rfl, rfl, rfl⟩
      have htotal := total_update (List.count u) s.queues i rest
      rw [hq, ← List.singleton_append, List.count_append] at htotal
      simp only [State.stored]
      omega
  | pop i =>
    simp only [State.fetch] at h
    split at h
    · cases h
    · next t' hq =>
      cases h
      refine ⟨fun u => ?_, rfl, rfl, rfl, rfl⟩
      have htotal := total_update (List.count u) s.deques i (s.deques i).dropLast
      have hcount : (s.deques i).count u = (s.deques i).dropLast.count u + [t].count u := by
        rw [← List.count_append, List.dropLast_append_getLast? t hq]
      simp only [State.stored]
      omega
  | steal i =>
    simp only [State.fetch] at h
    split at h
    · cases h
    · next t' rest hq =>
      cases h
      refine ⟨fun u => ?_, rfl, rfl, rfl, rfl⟩
      have htotal := total_update (List.count u) s.deques i rest
      rw [hq, ← List.singleton_append, List.count_append] at htotal
      simp only [State.stored]
      omega

/-- A change of one worker trades what it held for what it holds. -/
theorem inHands_setWorker (s : State n T) (w : Fin n) (wk : Worker T) (u : T) :
    (s.setWorker w wk).inHands u + (s.workers w).held.count u = s.inHands u + wk.held.count u := by
  have htotal := total_update (fun wk => wk.held.count u) s.workers w wk
  simp only [State.inHands, State.setWorker]
  omega

/-- A worker goes on with the same tasks in hand. -/
theorem moves_setWorker {w : Fin n} {wk : Worker T} (hheld : wk.held = (s.workers w).held) :
    Moves s (s.setWorker w wk) none := by
  refine .stays (fun u => rfl) (fun u => ?_) rfl rfl rfl
  have hhands := inHands_setWorker s w wk u
  rw [hheld] at hhands
  omega

/-- A worker looks for a task: it takes one, or nothing changes. -/
theorem moves_take {w : Fin n} {src : Source n} {hit : T → Worker T} {miss : Worker T}
    (hhit : ∀ t, (hit t).held = t :: (s.workers w).held)
    (hmiss : miss.held = (s.workers w).held) : Moves s (s.take w src hit miss) none := by
  unfold State.take
  split
  · next t s₁ hf =>
    obtain ⟨hstored, hworkers, hdraining, hsubmitted, hfinished⟩ := fetch_spec hf
    refine .takes t hstored (fun u => ?_) hsubmitted rfl hfinished
    have hhands := inHands_setWorker s w (hit t) u
    rw [hhit t, ← List.singleton_append, List.count_append] at hhands
    simp only [State.inHands, State.setWorker, hworkers, hdraining] at hhands ⊢
    omega
  · exact moves_setWorker hmiss

/-- `~ThreadPool` looks for a task. -/
theorem moves_drain {src : Source n} {pc : DestructorPC} (hd : s.draining = none) :
    Moves s (s.drain src pc) none := by
  unfold State.drain
  split
  · next t s₁ hf =>
    obtain ⟨hstored, hworkers, -, hsubmitted, hfinished⟩ := fetch_spec hf
    refine .takes t hstored (fun u => ?_) hsubmitted rfl hfinished
    simp [State.inHands, hworkers, hd]
  · exact .stays (fun u => rfl) (fun u => rfl) rfl rfl rfl

theorem moves_pushDeque {i : Fin n} (hnew : t ∉ s.submitted) :
    Moves s (s.pushDeque i t) (some t) := by
  refine .submits t hnew (fun u => ?_) (fun u => rfl) rfl rfl rfl
  have htotal := total_update (List.count u) s.deques i (s.deques i ++ [t])
  rw [List.count_append] at htotal
  simp only [State.stored, State.pushDeque]
  omega

theorem moves_pushQueue [NeZero n] (hnew : t ∉ s.submitted) : Moves s (s.pushQueue t) (some t) := by
  refine .submits t hnew (fun u => ?_) (fun u => rfl) rfl rfl rfl
  have htotal := total_update (List.count u) s.queues (Fin.ofNat n s.nextWorker)
    (s.queues (Fin.ofNat n s.nextWorker) ++ [t])
  rw [List.count_append] at htotal
  simp only [State.stored, State.pushQueue]
  omega

theorem moves_submit [NeZero n] {id : Option ℕ} (hnew : t ∉ s.submitted) :
    Moves s (s.submit id t) (some t) := by
  unfold State.submit
  split
  · exact moves_pushQueue hnew
  · split
    · exact moves_pushDeque hnew
    · exact moves_pushQueue hnew

/-! ### The Steps -/

theorem moves_loopStep {w victim : Fin n} {lost : Bool} (hstack : (s.workers w).stack = [])
    (hs : loopStep s w victim lost = some s') : Moves s s' none := by
  have hheld : (s.workers w).held = [] := by simp [Worker.held, hstack]
  -- a worker that runs nothing holds nothing, and holds just the task it takes
  have hrun : ∀ (pc : LoopPC) (t : T),
      ({ s.workers w with loop := pc, stack := [.exec t] } : Worker T).held
        = t :: (s.workers w).held := by
    intro pc t
    rw [hheld]
    rfl
  unfold loopStep at hs
  cases hpc : (s.workers w).loop <;> simp only [hpc, Option.some.injEq, reduceCtorEq] at hs
  case top | checkStop | idle =>
    subst hs
    exact moves_setWorker rfl
  case poll | ownDeque | ownQueue | drainDeque | drainQueue =>
    subst hs
    exact moves_take (hrun _) rfl
  case steal attempts =>
    split at hs
    · split at hs <;> cases hs
      · exact moves_take (hrun _) rfl
      · exact moves_setWorker rfl
    · cases hs
      exact moves_setWorker rfl

theorem moves_tryStep {w : Fin n} {lost : Bool} {rest : List (Frame T)} {pc : TryPC}
    (hstack : (s.workers w).stack = .tryOne pc :: rest) :
    Moves s (tryStep s w lost rest pc) none := by
  have hheld : (s.workers w).held = rest.filterMap Frame.task := by
    rw [Worker.held, hstack]
    rfl
  have hrun : ∀ t : T, ({ s.workers w with stack := .exec t :: rest } : Worker T).held
      = t :: (s.workers w).held := by
    intro t
    rw [hheld]
    rfl
  have hgoto : ∀ pc : TryPC, ({ s.workers w with stack := .tryOne pc :: rest } : Worker T).held
      = (s.workers w).held := by
    intro pc
    rw [hheld]
    rfl
  unfold tryStep
  cases pc with
  | ownDeque | ownQueue => exact moves_take hrun (hgoto _)
  | steal i =>
    dsimp only
    split
    · split
      · exact moves_take hrun (hgoto _)
      · exact moves_setWorker (hgoto _)
    · exact moves_setWorker hheld.symm

theorem moves_taskStep [NeZero n] {w : Fin n} {rest : List (Frame T)} {a : Action T}
    (hstack : (s.workers w).stack = .exec t :: rest)
    (hs : taskStep s w t rest a = some s') : Moves s s' (Label.task w a).submits := by
  have hheld : (s.workers w).held = t :: rest.filterMap Frame.task := by
    rw [Worker.held, hstack]
    rfl
  cases a with
  | submit t' =>
    simp only [taskStep, Option.ite_none_right_eq_some, Option.some.injEq] at hs
    obtain ⟨hnew, rfl⟩ := hs
    exact moves_submit hnew
  | submitLocal t' =>
    simp only [taskStep, Option.ite_none_right_eq_some, Option.some.injEq] at hs
    obtain ⟨hnew, rfl⟩ := hs
    exact moves_pushDeque hnew
  | wait =>
    simp only [taskStep, Option.some.injEq] at hs
    subst hs
    apply moves_setWorker
    rw [hheld]
    rfl
  | finish =>
    simp only [taskStep, Option.some.injEq] at hs
    subst hs
    refine .finishes t (fun u => rfl) (fun u => ?_) rfl rfl rfl
    have hhands := inHands_setWorker s w { s.workers w with stack := rest } u
    rw [hheld, ← List.singleton_append, List.count_append] at hhands
    have hrest : ({ s.workers w with stack := rest } : Worker T).held
        = rest.filterMap Frame.task := rfl
    rw [hrest] at hhands
    show s.inHands u = (s.setWorker w { s.workers w with stack := rest }).inHands u + _
    omega

theorem moves_destructorStep (hs : destructorStep s = some s') : Moves s s' none := by
  unfold destructorStep at hs
  have hstays : ∀ pc, Moves s { s with destructor := pc } none := by
    intro pc
    exact .stays (fun u => rfl) (fun u => rfl) rfl rfl rfl
  split at hs
  · split at hs
    · split at hs <;> cases hs
      exact hstays _
    · cases hs
      exact hstays _
  · next hd _ =>
    split at hs <;> cases hs
    · exact moves_drain hd
    · exact hstays _
  · next hd _ =>
    split at hs <;> cases hs
    · exact moves_drain hd
    · exact hstays _
  · cases hs

theorem moves_drainedStep [NeZero n] {a : Action T} (hd : s.draining = some t)
    (hs : drainedStep s t a = some s') : Moves s s' (Label.drained (n := n) a).submits := by
  cases a with
  | submit t' =>
    simp only [drainedStep, Option.ite_none_right_eq_some, Option.some.injEq] at hs
    obtain ⟨hnew, rfl⟩ := hs
    exact moves_submit hnew
  | finish =>
    simp only [drainedStep, Option.some.injEq] at hs
    subst hs
    refine .finishes t (fun u => rfl) (fun u => ?_) rfl rfl rfl
    simp [State.inHands, hd]
  | submitLocal t' | wait => simp [drainedStep] at hs

/-- Every step of the pool moves at most one task, by one place. -/
theorem next_moves [NeZero n] {l : Label n T} (hs : next s l = some s') :
    Moves s s' l.submits := by
  cases l with
  | submit id t =>
    simp only [next, Option.ite_none_right_eq_some, Option.some.injEq] at hs
    obtain ⟨⟨-, hnew⟩, rfl⟩ := hs
    exact moves_submit hnew
  | worker w victim lost =>
    simp only [next, workerStep] at hs
    split at hs
    · next hstack => exact moves_loopStep hstack hs
    · next pc rest hstack =>
      cases hs
      exact moves_tryStep hstack
    · cases hs
  | task w a =>
    simp only [next] at hs
    split at hs
    · next t rest hstack => exact moves_taskStep hstack hs
    · cases hs
  | destroy =>
    simp only [next, Option.ite_none_right_eq_some, Option.some.injEq] at hs
    obtain ⟨-, rfl⟩ := hs
    exact .stays (fun u => rfl) (fun u => rfl) rfl rfl rfl
  | destructor => exact moves_destructorStep hs
  | drained a =>
    simp only [next] at hs
    split at hs
    · next t hd => exact moves_drainedStep hd hs
    · cases hs

/-! ### Conservation -/

/-- Every submitted task is in one place, and was started if it is no
    longer stored. -/
structure Conserved (s : State n T) : Prop where
  nodup : s.submitted.Nodup
  placed : ∀ u, s.places u = s.submitted.count u
  started : ∀ u, s.started.count u = s.inHands u + s.finished.count u

theorem conserved_initial : Conserved (initial n T) where
  nodup := List.nodup_nil
  placed := by
    intro u
    simp [State.places, State.stored, State.inHands, initial, Worker.held, total]
  started := by
    intro u
    simp [State.inHands, initial, Worker.held, total]

theorem Conserved.moves {sub : Option T} (hc : Conserved s) (hm : Moves s s' sub) :
    Conserved s' := by
  obtain ⟨hnodup, hplaced, hcount⟩ := hc
  unfold State.places at hplaced
  cases hm with
  | stays hstored hhands hsubmitted hstarted hfinished =>
    refine ⟨hsubmitted ▸ hnodup, fun u => ?_, fun u => ?_⟩
    · rw [State.places, hstored, hhands, hfinished, hsubmitted, hplaced]
    · rw [hstarted, hhands, hfinished, hcount]
  | submits t hnew hstored hhands hsubmitted hstarted hfinished =>
    refine ⟨?_, fun u => ?_, fun u => ?_⟩
    · rw [hsubmitted]
      simpa using hnodup.concat hnew
    · have hu := hplaced u
      rw [State.places, hstored, hhands, hfinished, hsubmitted, List.count_append]
      omega
    · rw [hstarted, hhands, hfinished, hcount]
  | takes t hstored hhands hsubmitted hstarted hfinished =>
    refine ⟨hsubmitted ▸ hnodup, fun u => ?_, fun u => ?_⟩
    · have hu := hplaced u
      have hs := hstored u
      rw [State.places, hhands, hfinished, hsubmitted]
      omega
    · have hu := hcount u
      rw [hstarted, List.count_append, hhands, hfinished]
      omega
  | finishes t hstored hhands hsubmitted hstarted hfinished =>
    refine ⟨hsubmitted ▸ hnodup, fun u => ?_, fun u => ?_⟩
    · have hu := hplaced u
      have hh := hhands u
      rw [State.places, hstored, hfinished, hsubmitted, List.count_append]
      omega
    · have hu := hcount u
      have hh := hhands u
      rw [hstarted, hfinished, List.count_append]
      omega

theorem conserved_run [NeZero n] {tr : List (Label n T)} (hrun : (system n T).Run tr s) :
    Conserved s := by
  apply hrun.invariant (P := Conserved)
  · intro s hs
    rw [hs]
    exact conserved_initial
  · intro s l s' hc hs
    exact hc.moves (next_moves hs)

theorem Moves.submitted {sub : Option T} (hm : Moves s s' sub) :
    s'.submitted = s.submitted ++ sub.toList := by
  cases hm with
  | stays _ _ hsubmitted | takes _ _ _ hsubmitted | finishes _ _ _ hsubmitted =>
    simpa using hsubmitted
  | submits t _ _ _ hsubmitted => exact hsubmitted

theorem submitted_run [NeZero n] {tr : List (Label n T)} (hrun : (system n T).Run tr s) :
    s.submitted = tr.filterMap Label.submits := by
  apply hrun.history_invariant (P := fun tr s => s.submitted = tr.filterMap Label.submits)
  · intro s hs
    rw [hs]
    rfl
  · intro tr s l s' _ ih hs
    rw [(next_moves hs).submitted, ih, List.filterMap_append]
    cases hl : l.submits <;> simp [hl]

/-- **One place for every task.** In every state of every run each task
    that was submitted so far is in exactly one place: one submission
    queue, one deque, the stack of one thread, or finished. A task that was
    not submitted is nowhere, and no task is started twice. -/
theorem task_in_one_place [NeZero n] {tr : List (Label n T)} (hrun : (system n T).Run tr s) :
    (∀ u ∈ tr.filterMap Label.submits, s.places u = 1) ∧
    (∀ u ∉ tr.filterMap Label.submits, s.places u = 0) ∧
    s.started.Nodup := by
  obtain ⟨hnodup, hplaced, hstarted⟩ := conserved_run hrun
  have hsub := submitted_run hrun
  refine ⟨fun u hu => ?_, fun u hu => ?_, ?_⟩
  · rw [hplaced]
    exact List.count_eq_one_of_mem hnodup (hsub ▸ hu)
  · rw [hplaced]
    exact List.count_eq_zero.mpr (hsub ▸ hu)
  · apply List.nodup_iff_count_le_one.mpr
    intro u
    have hle := List.nodup_iff_count_le_one.mp hnodup u
    have hp := hplaced u
    have hs := hstarted u
    unfold State.places at hp
    omega

/-- Task `1` is submitted from outside and polled by worker `0`; it submits
    `2` to the deque, waits, and is run on top of by `2`, while `3` comes in
    from outside and worker `1` steals nothing. -/
def nestedRun : List (Label 2 ℕ) :=
  [.submit none 1, .worker 0 1 false, .worker 0 1 false, .worker 0 1 false,
    .task 0 (.submit 2), .submit none 3, .task 0 .wait, .worker 0 1 false, .task 0 .finish]

theorem nestedRun_one_place :
    ∃ s : State 2 ℕ, (system 2 ℕ).Run nestedRun s ∧
      s.places 1 = 1 ∧ s.places 2 = 1 ∧ s.places 3 = 1 ∧ s.started = [1, 2] := by
  have hstarted : (System.exec next (initial 2 ℕ) nestedRun).map (·.started)
      = some [1, 2] := by decide
  obtain ⟨s, hrun, hstarted⟩ := System.exists_run_of_exec hstarted
  obtain ⟨hone, -⟩ := task_in_one_place hrun
  exact ⟨s, hrun, hone 1 (by decide), hone 2 (by decide), hone 3 (by decide), hstarted⟩

end Forge.ThreadPool
