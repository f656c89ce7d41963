import Forge.Core.ThreadPoolTasks
import Forge.Framework.Contention

/-! # Thread Pool — Root Tasks Are Not Starved

  `worker_loop` prefers its own deque, and the tasks it runs keep pushing
  subtasks there. Every 64th time round it polls the submission queue
  first. Whatever the tasks and the other threads do, a task that waits in
  the queue of worker `w` behind `k` others is started before the
  `worker_loop` of `w` has gone round more than `64 * (k + 1)` times.

  The times round that are left are `State.due`. A step of the pool adds
  to the end of a queue, or takes the head of it, which is worth 64 rounds
  (`next_serves`).
-/

open LTS

namespace Forge.ThreadPool

variable {n : ℕ} {T : Type*}

/-! ### Times Round -/

/-- How many more times `++tick` is reached before the submission queue is
    polled. -/
def Worker.rounds (wk : Worker T) : ℕ := if wk.loop = .poll then 0 else 64 - wk.tick % 64

/-- The step of worker `w` from the top of its loop. -/
def iterates (w : Fin n) (s : State n T) : Label n T → ℕ
  | .worker v _ _ =>
      if v = w ∧ (s.workers v).stack.isEmpty ∧ (s.workers v).loop = .top then 1 else 0
  | _ => 0

/-- The times round that are left to a task in the queue of worker `w`. -/
def State.due [DecidableEq T] (s : State n T) (w : Fin n) (t : T) : ℕ :=
  64 * (s.queues w).idxOf t + (s.workers w).rounds

theorem Worker.rounds_le (wk : Worker T) : wk.rounds ≤ 64 := by
  unfold Worker.rounds
  split <;> omega

theorem Worker.rounds_congr {wk wk' : Worker T} (hloop : wk'.loop = wk.loop)
    (htick : wk'.tick = wk.tick) : wk'.rounds = wk.rounds := by
  unfold Worker.rounds
  rw [hloop, htick]

/-- Nothing but the top of the loop brings the poll about. -/
theorem Worker.rounds_goto {wk wk' : Worker T} (htick : wk'.tick = wk.tick)
    (hloop : wk.loop ≠ .poll) : wk'.rounds ≤ wk.rounds := by
  unfold Worker.rounds
  rw [htick, if_neg hloop]
  split <;> omega

/-- `++tick % 64`, also where `tick` wraps. -/
theorem Worker.rounds_top {wk wk' : Worker T} (htick : wk'.tick = (wk.tick + 1) % 2 ^ 32)
    (hloop : wk.loop = .top) (hloop' : wk'.loop = .poll ↔ wk'.tick % 64 = 0) :
    1 + wk'.rounds ≤ wk.rounds := by
  have hmod : wk'.tick % 64 = (wk.tick + 1) % 64 := by
    rw [htick]
    exact Nat.mod_mod_of_dvd _ (by decide)
  have hne : wk.loop ≠ .poll := by simp [hloop]
  unfold Worker.rounds
  rw [if_neg hne]
  split
  · omega
  · next hpoll =>
    have hmore : wk'.tick % 64 ≠ 0 := fun h => hpoll (hloop'.mpr h)
    omega

/-! ### What a Step Does for a Queue -/

variable {s s' : State n T} {w v : Fin n}

/-- What a step does for the queue of worker `w`; `rounds` is 1 when it is
    one time round. -/
inductive Serves (s s' : State n T) (w : Fin n) (rounds : ℕ) : Prop where
  | keeps (added : List T) (hqueue : s'.queues w = s.queues w ++ added)
      (hrounds : rounds + (s'.workers w).rounds ≤ (s.workers w).rounds)
  | takes (u : T) (hqueue : s.queues w = u :: s'.queues w)
      (hstarted : s'.started = s.started ++ [u]) (hrounds : rounds = 0)
  /-- There was nothing to take. -/
  | misses (hempty : s.queues w = [])

theorem Serves.of_workers (hworkers : s'.workers w = s.workers w) (added : List T)
    (hqueue : s'.queues w = s.queues w ++ added) : Serves s s' w 0 := by
  refine .keeps added hqueue ?_
  rw [hworkers, Nat.zero_add]

theorem Serves.same (hworkers : s'.workers w = s.workers w) (hqueue : s'.queues w = s.queues w) :
    Serves s s' w 0 :=
  .of_workers hworkers [] (by rw [hqueue, List.append_nil])

theorem fetch_serves {src : Source n} {u : T} (h : s.fetch src = some (u, s')) (w : Fin n) :
    s'.workers = s.workers ∧
      (s.queues w = u :: s'.queues w ∨ (src ≠ .queue w ∧ s'.queues w = s.queues w)) := by
  cases src with
  | queue i =>
    simp only [State.fetch] at h
    split at h
    · cases h
    · next t rest hq =>
      cases h
      refine ⟨rfl, ?_⟩
      by_cases hi : i = w
      · subst hi
        left
        simp [hq]
      · right
        simp [hi, Ne.symm hi]
  | pop i =>
    simp only [State.fetch] at h
    split at h <;> cases h
    exact ⟨rfl, .inr ⟨by simp, rfl⟩⟩
  | steal i =>
    simp only [State.fetch] at h
    split at h <;> cases h
    exact ⟨rfl, .inr ⟨by simp, rfl⟩⟩

theorem queue_nil_of_fetch (h : s.fetch (.queue w) = none) : s.queues w = [] := by
  simp only [State.fetch] at h
  split at h
  · next hq => exact hq
  · cases h

/-- Worker `v` goes on somewhere else. -/
theorem serves_setWorker {wk : Worker T} {rounds : ℕ}
    (hself : v = w → rounds + wk.rounds ≤ (s.workers w).rounds) (hother : v ≠ w → rounds = 0) :
    Serves s (s.setWorker v wk) w rounds := by
  refine .keeps [] (List.append_nil _).symm ?_
  by_cases hv : v = w
  · subst hv
    simpa [State.setWorker] using hself rfl
  · simp [State.setWorker, Ne.symm hv, hother hv]

theorem serves_goto {wk : Worker T} (h : v = w → wk.rounds ≤ (s.workers w).rounds) :
    Serves s (s.setWorker v wk) w 0 := by
  refine serves_setWorker (fun hv => ?_) (fun _ => rfl)
  rw [Nat.zero_add]
  exact h hv

/-- A worker whose loop stays where it is has the same rounds to go. -/
theorem rounds_stack (stack : List (Frame T)) (hv : v = w) :
    ({ s.workers v with stack := stack } : Worker T).rounds ≤ (s.workers w).rounds := by
  rw [hv]
  exact (Worker.rounds_congr rfl rfl).le

/-- Worker `v` looks for a task. -/
theorem serves_take {src : Source n} {hit : T → Worker T} {miss : Worker T}
    (hself : v = w → src ≠ .queue w →
      (∀ t, (hit t).rounds ≤ (s.workers w).rounds) ∧ miss.rounds ≤ (s.workers w).rounds) :
    Serves s (s.take v src hit miss) w 0 := by
  unfold State.take
  split
  · next t s₁ hf =>
    obtain ⟨hworkers, hq | ⟨hsrc, hq⟩⟩ := fetch_serves hf w
    · exact .takes t hq rfl rfl
    · refine .keeps [] (by simpa [State.setWorker] using hq) ?_
      by_cases hv : v = w
      · subst hv
        simpa [State.setWorker] using (hself rfl hsrc).1 t
      · simp [State.setWorker, Ne.symm hv, hworkers]
  · next hf =>
    by_cases hsrc : src = .queue w
    · subst hsrc
      exact .misses (queue_nil_of_fetch hf)
    · exact serves_goto (fun hv => (hself hv hsrc).2)

/-! ### The Steps -/

theorem serves_loopStep {victim : Fin n} {lost : Bool} (hstack : (s.workers v).stack = [])
    (hs : loopStep s v victim lost = some s') :
    Serves s s' w (iterates w s (.worker v victim lost)) := by
  have hrounds : iterates w s (.worker v victim lost) =
      if v = w ∧ (s.workers v).loop = .top then 1 else 0 := by
    simp [iterates, hstack]
  rw [hrounds]
  -- every worker that is not polling goes on with no more rounds to go
  have hgoto : (s.workers v).loop ≠ .poll → ∀ wk : Worker T, wk.tick = (s.workers v).tick →
      v = w → wk.rounds ≤ (s.workers w).rounds := by
    intro hpoll wk htick hv
    subst hv
    exact Worker.rounds_goto htick hpoll
  unfold loopStep at hs
  cases hpc : (s.workers v).loop <;>
    simp only [hpc, Option.some.injEq, reduceCtorEq] at hs hgoto ⊢
  case top =>
    subst hs
    refine serves_setWorker (fun hv => ?_) (fun hv => by simp [hv])
    subst hv
    simp only [and_self, if_true]
    refine Worker.rounds_top rfl hpc ?_
    dsimp only
    split <;> simp_all
  case poll =>
    subst hs
    simp only [and_false, if_false]
    exact serves_take (fun hv hsrc => absurd (by rw [hv]) hsrc)
  case checkStop | idle =>
    subst hs
    simp only [and_false, if_false]
    exact serves_goto (hgoto (by simp) _ rfl)
  case ownDeque | ownQueue | drainDeque | drainQueue =>
    subst hs
    simp only [and_false, if_false]
    exact serves_take (fun hv _ =>
      ⟨fun t => hgoto (by simp) _ rfl hv, hgoto (by simp) _ rfl hv⟩)
  case steal attempts =>
    simp only [and_false, if_false]
    split at hs
    · split at hs <;> cases hs
      · exact serves_take (fun hv _ =>
          ⟨fun t => hgoto (by simp) _ rfl hv, hgoto (by simp) _ rfl hv⟩)
      · exact serves_goto (hgoto (by simp) _ rfl)
    · cases hs
      exact serves_goto (hgoto (by simp) _ rfl)

theorem serves_tryStep {lost : Bool} {rest : List (Frame T)} {pc : TryPC} :
    Serves s (tryStep s v lost rest pc) w 0 := by
  unfold tryStep
  cases pc with
  | ownDeque | ownQueue =>
    exact serves_take (fun hv _ => ⟨fun t => rounds_stack _ hv, rounds_stack _ hv⟩)
  | steal i =>
    dsimp only
    split
    · split
      · exact serves_take (fun hv _ => ⟨fun t => rounds_stack _ hv, rounds_stack _ hv⟩)
      · exact serves_goto (rounds_stack _)
    · exact serves_goto (rounds_stack _)

theorem serves_submit [NeZero n] (id : Option ℕ) (t : T) : Serves s (s.submit id t) w 0 := by
  have hdeque : ∀ i : Fin n, Serves s (s.pushDeque i t) w 0 := by
    intro i
    exact .same rfl rfl
  have hqueue : Serves s (s.pushQueue t) w 0 := by
    by_cases hi : w = Fin.ofNat n s.nextWorker
    · refine .of_workers rfl [t] ?_
      subst hi
      simp [State.pushQueue]
    · refine .same rfl ?_
      simp only [State.pushQueue, Function.update_of_ne hi]
  unfold State.submit
  split
  · exact hqueue
  · split
    · exact hdeque _
    · exact hqueue

theorem serves_taskStep [NeZero n] [DecidableEq T] {t : T} {rest : List (Frame T)} {a : Action T}
    (hs : taskStep s v t rest a = some s') : Serves s s' w 0 := by
  cases a with
  | submit t' =>
    simp only [taskStep, Option.ite_none_right_eq_some, Option.some.injEq] at hs
    obtain ⟨-, rfl⟩ := hs
    exact serves_submit _ t'
  | submitLocal t' =>
    simp only [taskStep, Option.ite_none_right_eq_some, Option.some.injEq] at hs
    obtain ⟨-, rfl⟩ := hs
    exact .same rfl rfl
  | wait =>
    simp only [taskStep, Option.some.injEq] at hs
    subst hs
    exact serves_goto (rounds_stack _)
  | finish =>
    simp only [taskStep, Option.some.injEq] at hs
    subst hs
    -- `finished` has no part in it
    have hgoto : Serves s (s.setWorker v { s.workers v with stack := rest }) w 0 :=
      serves_goto (rounds_stack _)
    cases hgoto with
    | keeps added hqueue hrounds => exact .keeps added hqueue hrounds
    | takes u hqueue hstarted hrounds => exact .takes u hqueue hstarted hrounds
    | misses hempty => exact .misses hempty

theorem serves_drain {src : Source n} {pc : DestructorPC} : Serves s (s.drain src pc) w 0 := by
  unfold State.drain
  split
  · next t s₁ hf =>
    obtain ⟨hworkers, hq | ⟨-, hq⟩⟩ := fetch_serves hf w
    · exact .takes t hq rfl rfl
    · exact .same (congrFun hworkers w) hq
  · exact .same rfl rfl

theorem serves_destructorStep (hs : destructorStep s = some s') : Serves s s' w 0 := by
  have hstays : ∀ pc, Serves s { s with destructor := pc } w 0 := by
    intro pc
    exact .same rfl rfl
  unfold destructorStep at hs
  split at hs
  · split at hs
    · split at hs <;> cases hs
      exact hstays _
    · cases hs
      exact hstays _
  · split at hs <;> cases hs
    · exact serves_drain
    · exact hstays _
  · split at hs <;> cases hs
    · exact serves_drain
    · exact hstays _
  · cases hs

/-- Every step of the pool serves the queue of every worker. -/
theorem next_serves [NeZero n] [DecidableEq T] {l : Label n T} (hs : next s l = some s')
    (w : Fin n) : Serves s s' w (iterates w s l) := by
  cases l with
  | submit id t =>
    simp only [next, Option.ite_none_right_eq_some, Option.some.injEq] at hs
    obtain ⟨-, rfl⟩ := hs
    exact serves_submit id t
  | worker v victim lost =>
    simp only [next, workerStep] at hs
    split at hs
    · next hstack => exact serves_loopStep hstack hs
    · next pc rest hstack =>
      cases hs
      have hrounds : iterates w s (.worker v victim lost) = 0 := by
        simp [iterates, hstack]
      rw [hrounds]
      exact serves_tryStep
    · cases hs
  | task v a =>
    simp only [next] at hs
    split at hs
    · exact serves_taskStep hs
    · cases hs
  | destroy =>
    simp only [next, Option.ite_none_right_eq_some, Option.some.injEq] at hs
    obtain ⟨-, rfl⟩ := hs
    exact .same rfl rfl
  | destructor => exact serves_destructorStep hs
  | drained a =>
    simp only [next] at hs
    split at hs
    · next t hd =>
      cases a with
      | submit t' =>
        simp only [drainedStep, Option.ite_none_right_eq_some, Option.some.injEq] at hs
        obtain ⟨-, rfl⟩ := hs
        exact serves_submit _ t'
      | finish =>
        cases hs
        exact .same rfl rfl
      | submitLocal t' | wait => simp [drainedStep] at hs
    · cases hs

/-! ### Waiting -/

variable [DecidableEq T] {t : T}

/-- A task that is waiting is started, or has fewer times round to go. -/
theorem Serves.due {rounds : ℕ} (h : Serves s s' w rounds) (ht : t ∈ s.queues w) :
    t ∈ s'.started ∨ (t ∈ s'.queues w ∧ rounds + s'.due w t ≤ s.due w t) := by
  unfold State.due
  cases h with
  | keeps added hqueue hrounds =>
    right
    rw [hqueue, List.idxOf_append_of_mem ht]
    exact ⟨List.mem_append_left added ht, by omega⟩
  | takes u hqueue hstarted hrounds =>
    rw [hqueue] at ht ⊢
    by_cases hu : u = t
    · left
      rw [hstarted, hu]
      exact List.mem_append_right _ List.mem_cons_self
    · right
      have hafter := (s'.workers w).rounds_le
      rw [List.idxOf_cons_ne _ hu]
      exact ⟨(List.mem_cons.mp ht).resolve_left (Ne.symm hu), by omega⟩
  | misses hempty =>
    rw [hempty] at ht
    cases ht

theorem Moves.started_mono {sub : Option T} (h : Moves s s' sub) (ht : t ∈ s.started) :
    t ∈ s'.started := by
  cases h with
  | stays _ _ _ hstarted _ | submits _ _ _ _ _ hstarted _ | finishes _ _ _ _ hstarted _ =>
    rwa [hstarted]
  | takes u _ _ _ hstarted _ =>
    rw [hstarted]
    exact List.mem_append_left _ ht

/-- **A root task is not starved.** Between two moments of a run, a task in
    the submission queue of worker `w` has been started, or `w` has gone
    round its loop at most 64 times for every task up to it in the queue. -/
theorem root_task_served [NeZero n] {tr ls : List (Label n T)} {s₁ s₂ : State n T}
    (h₁ : (system n T).Run tr s₁) (h₂ : (system n T).Run (tr ++ ls) s₂) (ht : t ∈ s₁.queues w) :
    t ∈ s₂.started ∨
      System.tally next (iterates w) s₁ ls ≤ 64 * ((s₁.queues w).idxOf t + 1) := by
  have hexec : System.exec next s₁ ls = some s₂ := by
    rw [← System.exec_append h₁.exec_eq]
    exact h₂.exec_eq
  have hwaits : ∀ s l s', t ∈ s.queues w → next s l = some s' →
      t ∈ s'.started ∨ (t ∈ s'.queues w ∧ iterates w s l + s'.due w t ≤ s.due w t) :=
    fun s l s' hw hs => (next_serves hs w).due hw
  have hended : ∀ (s : State n T) l s', t ∈ s.started → next s l = some s' → t ∈ s'.started :=
    fun s l s' he hs => (next_moves hs).started_mono he
  obtain hstarted | ⟨-, hpaid⟩ := System.exec_tally_le (State.due · w t) hwaits hended ht hexec
  · exact .inl hstarted
  · right
    have hrounds := (s₁.workers w).rounds_le
    unfold State.due at hpaid
    omega

/-- Two subtasks overtake the root task 1. -/
def submitSecond : List (Label 1 ℕ) :=
  [Label.submit none 0] ++ List.replicate 3 (Label.worker 0 0 false) ++
    [Label.task 0 (.submitLocal 10), .task 0 (.submitLocal 11), .submit none 1]

def overtakeSecond : List (Label 1 ℕ) :=
  [.task 0 .finish, .worker 0 0 false, .worker 0 0 false, .task 0 .finish, .worker 0 0 false,
    .worker 0 0 false]

theorem overtakeSecond_served :
    ∃ s₁ s₂, (system 1 ℕ).Run submitSecond s₁ ∧
      (system 1 ℕ).Run (submitSecond ++ overtakeSecond) s₂ ∧ s₁.queues 0 = [1] ∧
      s₂.started = [0, 11, 10] ∧ System.tally next (iterates 0) s₁ overtakeSecond = 2 ∧
      (1 ∈ s₂.started ∨
        System.tally next (iterates 0) s₁ overtakeSecond ≤
          64 * ((s₁.queues 0).idxOf 1 + 1)) := by
  have hfirst : (System.exec next (initial 1 ℕ) submitSecond).map (fun s => (s.queues 0,
      System.tally next (iterates 0) s overtakeSecond)) = some ([1], 2) := by decide
  have hsecond : (System.exec next (initial 1 ℕ) (submitSecond ++ overtakeSecond)).map
      State.started = some [0, 11, 10] := by decide
  obtain ⟨s₁, h₁, hv⟩ := System.exists_run_of_exec hfirst
  obtain ⟨s₂, h₂, hstarted⟩ := System.exists_run_of_exec hsecond
  obtain ⟨hqueue, hrounds⟩ := Prod.mk.inj hv
  exact ⟨s₁, s₂, h₁, h₂, hqueue, hstarted, hrounds,
    root_task_served h₁ h₂ (by rw [hqueue]; exact List.mem_singleton_self 1)⟩

end Forge.ThreadPool
