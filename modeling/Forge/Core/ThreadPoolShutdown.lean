import Forge.Core.ThreadPoolLifecycle
import Forge.Core.ThreadPoolTasks
import Mathlib.Tactic.FinCases

/-! # Thread Pool — What Shutdown Leaves Behind

  `~ThreadPool` joins the workers and then drains the deques and the
  submission queues, each once and in order. A task that runs in such a
  drain may submit again:

  - by a worker in its exit drain, to its own deque, which the destructor
    drains later;
  - by the destructor while it drains deque `i`, to some submission queue,
    which it drains later;
  - by the destructor while it drains submission queue `k`, to a queue
    that is drained later, or to one before `k`, where nobody looks again.

  `shutdown_complete_iff`: the last case is the only way to lose a task.
-/

open LTS

namespace Forge.ThreadPool

variable {n : ℕ} {T : Type*}

/-! ### How Far the Destructor Is -/

/-- How many deques are drained. -/
def DestructorPC.drainedDeques (n : ℕ) : DestructorPC → ℕ
  | .notCalled | .join _ => 0
  | .drainDeque i => i
  | .drainQueue _ | .returned => n

/-- How many submission queues are drained. -/
def DestructorPC.drainedQueues (n : ℕ) : DestructorPC → ℕ
  | .notCalled | .join _ | .drainDeque _ => 0
  | .drainQueue i => i
  | .returned => n

/-- Submissions from outside happen before the destructor is called. -/
def submittedEarly (s : State n T) : Label n T → Bool
  | .submit _ _ => s.destructor = .notCalled
  | _ => true

/-- A task that the destructor runs submits to a submission queue that is
    not drained yet. -/
def submitsAhead [NeZero n] (s : State n T) : Label n T → Bool
  | .drained (.submit _) => s.destructor.drainedQueues n ≤ (Fin.ofNat n s.nextWorker).val
  | _ => true

/-- The pool, with the submissions from outside all made before the
    destructor is called. -/
def earlySystem (n : ℕ) (T : Type*) [NeZero n] [DecidableEq T] : System (State n T) (Label n T) :=
  (system n T).restrict fun s l => submittedEarly s l

/-- The deques the destructor has drained are empty. -/
def DequesDrained (s : State n T) : Prop :=
  ∀ i : Fin n, i.val < s.destructor.drainedDeques n → s.deques i = []

/-- A task in a submission queue the destructor is done with. -/
def State.lost (s : State n T) : Prop :=
  ∃ i : Fin n, i.val < s.destructor.drainedQueues n ∧ s.queues i ≠ []

variable {s s' : State n T}

/-- While a worker is alive, nothing is drained. -/
theorem Lifecycle.nothing_drained (hi : Lifecycle s) {w : Fin n}
    (hw : (s.workers w).loop ≠ .exited) :
    s.destructor.drainedDeques n = 0 ∧ s.destructor.drainedQueues n = 0 := by
  have hlate : ¬ w.val < s.destructor.joined n := fun hlt => hw (hi.joined w hlt)
  cases hd : s.destructor <;>
    simp [hd, DestructorPC.joined, DestructorPC.drainedDeques, DestructorPC.drainedQueues]
      at hlate ⊢

theorem DequesDrained.all (hq : DequesDrained s) (h : s.destructor.drainedDeques n = n)
    (i : Fin n) : s.deques i = [] := by
  apply hq
  rw [h]
  exact i.isLt

/-- While nothing is drained, nothing can be in the wrong place. -/
theorem drained_of_zero (h : s.destructor.drainedDeques n = 0 ∧ s.destructor.drainedQueues n = 0) :
    DequesDrained s ∧ ¬ s.lost := by
  simp [DequesDrained, State.lost, h]

/-! ### Steps of the Destructor -/

/-- The destructor goes on to `pc`: the queues it passes are empty. -/
theorem lost_setDestructor {pc : DestructorPC}
    (hmono : ∀ i : Fin n, i.val < s.destructor.drainedQueues n → i.val < pc.drainedQueues n)
    (hnew : ∀ i : Fin n, i.val < pc.drainedQueues n →
      i.val < s.destructor.drainedQueues n ∨ s.queues i = []) :
    ({ s with destructor := pc } : State n T).lost ↔ s.lost := by
  constructor
  · rintro ⟨i, hlt, hne⟩
    rcases hnew i hlt with hold | hempty
    · exact ⟨i, hold, hne⟩
    · exact absurd hempty hne
  · rintro ⟨i, hlt, hne⟩
    exact ⟨i, hmono i hlt, hne⟩

theorem drainDeque_step (hq : DequesDrained s) {i : ℕ} (hlt : i < n)
    (hd : s.destructor = .drainDeque i) :
    DequesDrained (s.drain (.pop ⟨i, hlt⟩) (.drainDeque (i + 1))) ∧
      ((s.drain (.pop ⟨i, hlt⟩) (.drainDeque (i + 1))).lost ↔ s.lost) := by
  have hbefore : ∀ j : Fin n, j.val < i → s.deques j = [] := by
    intro j hj
    apply hq
    rwa [hd]
  unfold State.drain
  cases hlast : (s.deques ⟨i, hlt⟩).getLast? with
  | none =>
    simp only [State.fetch, hlast]
    have hempty : s.deques ⟨i, hlt⟩ = [] := List.getLast?_eq_none_iff.mp hlast
    constructor
    · intro j hj
      rcases Nat.lt_succ_iff_lt_or_eq.mp hj with hold | heq
      · exact hbefore j hold
      · have hji : j = ⟨i, hlt⟩ := Fin.ext heq
        rw [hji]
        exact hempty
    · apply lost_setDestructor <;> simp [hd, DestructorPC.drainedQueues]
  | some t =>
    simp only [State.fetch, hlast]
    refine ⟨fun j hj => ?_, Iff.rfl⟩
    simp only [hd, DestructorPC.drainedDeques] at hj
    have hne : j ≠ ⟨i, hlt⟩ := fun heq => by simp [heq] at hj
    simp [hne, hbefore j hj]

theorem drainQueue_step (hq : DequesDrained s) {i : ℕ} (hlt : i < n)
    (hd : s.destructor = .drainQueue i) :
    DequesDrained (s.drain (.queue ⟨i, hlt⟩) (.drainQueue (i + 1))) ∧
      ((s.drain (.queue ⟨i, hlt⟩) (.drainQueue (i + 1))).lost ↔ s.lost) := by
  have hall := hq.all (by rw [hd]; rfl)
  unfold State.drain
  cases hhead : s.queues ⟨i, hlt⟩ with
  | nil =>
    simp only [State.fetch, hhead]
    constructor
    · exact fun j _ => hall j
    · apply lost_setDestructor
      · intro j hj
        simp only [hd, DestructorPC.drainedQueues] at hj ⊢
        omega
      · intro j hj
        simp only [hd, DestructorPC.drainedQueues] at hj ⊢
        rcases Nat.lt_succ_iff_lt_or_eq.mp hj with hold | heq
        · exact .inl hold
        · have hji : j = ⟨i, hlt⟩ := Fin.ext heq
          rw [hji]
          exact .inr hhead
  | cons t rest =>
    simp only [State.fetch, hhead]
    refine ⟨fun j _ => hall j, ?_⟩
    -- the queue being drained is not among those the destructor is done with
    have hother : ∀ j : Fin n, j.val < i → j ≠ ⟨i, hlt⟩ := by
      intro j hj heq
      simp [heq] at hj
    simp only [State.lost, hd, DestructorPC.drainedQueues]
    constructor
    · rintro ⟨j, hj, hne⟩
      rw [Function.update_of_ne (hother j hj)] at hne
      exact ⟨j, hj, hne⟩
    · rintro ⟨j, hj, hne⟩
      exact ⟨j, hj, by rwa [Function.update_of_ne (hother j hj)]⟩

theorem drained_destructorStep (hq : DequesDrained s) (hs : destructorStep s = some s') :
    DequesDrained s' ∧ (s'.lost ↔ s.lost) := by
  unfold destructorStep at hs
  split at hs
  · next i _ hd =>
    -- joining passes no deque and no queue
    have hjoin : ∀ pc : DestructorPC, pc.drainedDeques n = 0 → pc.drainedQueues n = 0 →
        DequesDrained { s with destructor := pc } ∧
          (({ s with destructor := pc } : State n T).lost ↔ s.lost) := by
      intro pc hpd hpq
      obtain ⟨hq', hlost'⟩ := drained_of_zero (s := { s with destructor := pc }) ⟨hpd, hpq⟩
      obtain ⟨-, hlost⟩ := drained_of_zero (s := s) (by rw [hd]; exact ⟨rfl, rfl⟩)
      exact ⟨hq', iff_of_false hlost' hlost⟩
    split at hs
    · split at hs <;> cases hs
      exact hjoin _ rfl rfl
    · cases hs
      exact hjoin _ rfl rfl
  · next i _ hd =>
    split at hs
    · next hlt =>
      cases hs
      exact drainDeque_step hq hlt hd
    · next hge =>
      cases hs
      constructor
      · intro j _
        apply hq
        rw [hd]
        exact Nat.lt_of_lt_of_le j.isLt (Nat.le_of_not_lt hge)
      · apply lost_setDestructor <;> simp [hd, DestructorPC.drainedQueues]
  · next i _ hd =>
    split at hs
    · next hlt =>
      cases hs
      exact drainQueue_step hq hlt hd
    · next hge =>
      cases hs
      constructor
      · exact fun j _ => hq.all (by rw [hd]; rfl) j
      · apply lost_setDestructor
        · intro j _
          exact j.isLt
        · intro j _
          simp only [hd, DestructorPC.drainedQueues]
          exact .inl (by omega)
  · cases hs

/-- A task the destructor runs submits to a queue; it is lost if that queue
    is behind the drain. -/
theorem drained_drainedStep [NeZero n] [DecidableEq T] (hq : DequesDrained s) {t : T}
    {a : Action T} (hs : drainedStep s t a = some s') :
    DequesDrained s' ∧ (s'.lost ↔ s.lost ∨ ¬ submitsAhead s (.drained a)) := by
  cases a with
  | submit t' =>
    simp only [drainedStep, Option.ite_none_right_eq_some, Option.some.injEq] at hs
    obtain ⟨-, rfl⟩ := hs
    refine ⟨hq, ?_⟩
    simp only [submitsAhead, decide_eq_true_eq, not_le, State.lost, State.submit,
      State.pushQueue]
    constructor
    · rintro ⟨i, hlt, hne⟩
      by_cases hidx : i = Fin.ofNat n s.nextWorker
      · exact .inr (hidx ▸ hlt)
      · rw [Function.update_of_ne hidx] at hne
        exact .inl ⟨i, hlt, hne⟩
    · intro hor
      rcases hor with ⟨i, hlt, hne⟩ | hlt
      · refine ⟨i, hlt, ?_⟩
        by_cases hidx : i = Fin.ofNat n s.nextWorker
        · simp [hidx]
        · rwa [Function.update_of_ne hidx]
      · exact ⟨_, hlt, by simp⟩
  | finish =>
    simp only [drainedStep, Option.some.injEq] at hs
    subst hs
    exact ⟨hq, by simp [submitsAhead, State.lost]⟩
  | submitLocal t' | wait => simp [drainedStep] at hs

/-! ### All Steps -/

section Runs

variable [NeZero n] [DecidableEq T]

/-- Every step keeps the drained deques empty, and only a submission behind
    the drain loses a task. -/
theorem drained_step (hi : Lifecycle s) (hq : DequesDrained s) {l : Label n T}
    (hearly : submittedEarly s l) (hs : next s l = some s') :
    DequesDrained s' ∧ (s'.lost ↔ s.lost ∨ ¬ submitsAhead s l) := by
  -- before the drains there is nothing to keep
  have hbefore : s.destructor.drainedDeques n = 0 ∧ s.destructor.drainedQueues n = 0 →
      s'.destructor.drainedDeques n = 0 ∧ s'.destructor.drainedQueues n = 0 → submitsAhead s l →
      DequesDrained s' ∧ (s'.lost ↔ s.lost ∨ ¬ submitsAhead s l) := by
    intro h h' hahead
    obtain ⟨hq', hlost'⟩ := drained_of_zero h'
    obtain ⟨-, hlost⟩ := drained_of_zero h
    exact ⟨hq', by simp [hlost, hlost', hahead]⟩
  cases l with
  | submit id t =>
    have hd : s.destructor = .notCalled := by simpa [submittedEarly] using hearly
    simp only [next, Option.ite_none_right_eq_some, Option.some.injEq] at hs
    obtain ⟨-, rfl⟩ := hs
    have hd' := (submit_frame s id t).2.1
    exact hbefore (by rw [hd]; exact ⟨rfl, rfl⟩) (by rw [hd', hd]; exact ⟨rfl, rfl⟩) rfl
  | worker w victim lost =>
    have hm := workerMoves_next hi rfl hs
    have hnone := hi.nothing_drained hm.alive
    exact hbefore hnone (by rw [hm.destructor]; exact hnone) rfl
  | task w a =>
    have hm := workerMoves_next hi rfl hs
    have hnone := hi.nothing_drained hm.alive
    exact hbefore hnone (by rw [hm.destructor]; exact hnone) rfl
  | destroy =>
    simp only [next, Option.ite_none_right_eq_some, Option.some.injEq] at hs
    obtain ⟨hd, rfl⟩ := hs
    exact hbefore (by rw [hd]; exact ⟨rfl, rfl⟩) ⟨rfl, rfl⟩ rfl
  | destructor =>
    obtain ⟨hq', hlost⟩ := drained_destructorStep hq hs
    exact ⟨hq', by simp [hlost, submitsAhead]⟩
  | drained a =>
    simp only [next] at hs
    split at hs
    · exact drained_drainedStep hq hs
    · cases hs

theorem dequesDrained_run {tr : List (Label n T)} (hrun : (earlySystem n T).Run tr s) :
    DequesDrained s := by
  apply hrun.history_invariant (P := fun _ s => DequesDrained s)
  · intro s hs
    rw [show s = initial n T from hs]
    exact fun _ _ => rfl
  · intro tr s l s' hr hq hs
    exact (drained_step (lifecycle_run hr.of_restrict) hq hs.1 hs.2).1

/-- Nothing is lost as long as every submission goes ahead of the drain. -/
theorem lost_iff {tr : List (Label n T)} (hrun : (earlySystem n T).Run tr s) :
    ¬ s.lost ↔ ((earlySystem n T).restrict fun s l => submitsAhead s l).Run tr s := by
  have hdet : (earlySystem n T).Deterministic :=
    (System.deterministic_ofNext (initial n T) next).restrict fun s l => submittedEarly s l
  apply hrun.history_invariant (P := fun tr s => ¬ s.lost ↔
    ((earlySystem n T).restrict fun s l => submitsAhead s l).Run tr s)
  · intro s hs
    have hstart : ((earlySystem n T).restrict fun s l => submitsAhead s l).Run [] s := .start hs
    have hnone : ¬ s.lost := by
      rw [show s = initial n T from hs]
      simp [State.lost, initial, DestructorPC.drainedQueues]
    exact iff_of_true hnone hstart
  · intro tr s l s' hr ih hs
    have hlost :=
      (drained_step (lifecycle_run hr.of_restrict) (dequesDrained_run hr) hs.1 hs.2).2
    rw [hdet.restrict_snoc hr hs, ← ih, hlost]
    tauto

/-! ### Complete Shutdown -/

omit [NeZero n] in
/-- When the destructor has returned, a task that is not finished is in a
    submission queue. -/
theorem Conserved.places_returned (hc : Conserved s) (hi : Lifecycle s) (hq : DequesDrained s)
    (hret : s.destructor = .returned) (u : T) :
    s.inHands u = 0 ∧ total (List.count u) s.queues + s.finished.count u = s.submitted.count u := by
  have hhands : s.inHands u = 0 := by
    have hworkers : total (fun wk => wk.held.count u) s.workers = 0 := by
      apply total_eq_zero
      intro w
      have hstack := hi.exited w (hi.allExited (by rw [hret]; rfl) w)
      simp [Worker.held, hstack]
    have hdr : s.draining = none := by
      by_contra hdr
      have hdrains := hi.draining hdr
      simp [hret, DestructorPC.drains] at hdrains
    simp [State.inHands, hworkers, hdr]
  have hdeques : total (List.count u) s.deques = 0 := by
    apply total_eq_zero
    intro i
    simp [hq.all (by rw [hret]; rfl) i]
  have hplaced := hc.placed u
  simp only [State.places, State.stored] at hplaced
  exact ⟨hhands, by omega⟩

/-- **Complete shutdown.** When the destructor returns, every task ever
    submitted has been run exactly once and is finished, if and only if no
    task in the final drain of a submission queue submitted to one that
    was drained before. -/
theorem shutdown_complete_iff {tr : List (Label n T)} (hrun : (earlySystem n T).Run tr s)
    (hret : s.destructor = .returned) :
    (∀ u ∈ tr.filterMap Label.submits, s.started.count u = 1 ∧ s.finished.count u = 1) ↔
      ((earlySystem n T).restrict fun s l => submitsAhead s l).Run tr s := by
  have hc := conserved_run hrun.of_restrict
  have hsub := submitted_run hrun.of_restrict
  have hplaces := hc.places_returned (lifecycle_run hrun.of_restrict) (dequesDrained_run hrun) hret
  rw [← lost_iff hrun, ← hsub]
  constructor
  · intro hall hlost
    obtain ⟨i, -, hne⟩ := hlost
    obtain ⟨u, hu⟩ := List.exists_mem_of_ne_nil _ hne
    -- a task left in a queue was submitted, so it would be in two places
    have hpos : 0 < (s.queues i).count u := List.count_pos_iff.mpr hu
    have hle := le_total (List.count u) s.queues i
    obtain ⟨-, hbal⟩ := hplaces u
    have hone := List.nodup_iff_count_le_one.mp hc.nodup u
    have hmem : u ∈ s.submitted := List.count_pos_iff.mp (by omega)
    have hfinished := (hall u hmem).2
    omega
  · intro hlost u hu
    have hqueues : total (List.count u) s.queues = 0 := by
      apply total_eq_zero
      intro i
      by_contra hcount
      have hmem : u ∈ s.queues i := List.count_pos_iff.mp (Nat.pos_of_ne_zero hcount)
      refine hlost ⟨i, ?_, List.ne_nil_of_mem hmem⟩
      rw [hret]
      exact i.isLt
    obtain ⟨hhands, hbal⟩ := hplaces u
    have hone := List.count_eq_one_of_mem hc.nodup hu
    have hstarted := hc.started u
    omega

end Runs

/-! ### Two Workers -/

/-- Both workers run out of work; task `1` comes in just before the
    destructor is called, so that worker `0` runs it in its exit drain, and
    `1` submits `2` to the deque of worker `0`. Both workers exit. -/
def exitDrain : List (Label 2 ℕ) :=
  List.replicate 3 (Label.worker 0 1 true) ++ [Label.submit none 1, .destroy] ++
    List.replicate 8 (Label.worker 0 1 true) ++ [Label.task 0 (.submit 2), .task 0 .finish,
      .worker 0 1 true] ++
    List.replicate 11 (Label.worker 1 0 true)

/-- The destructor joins, and runs `2` in its drain of deque `0`. -/
def dequeDrain : List (Label 2 ℕ) :=
  exitDrain ++ List.replicate 4 Label.destructor ++ [Label.drained .finish] ++
    List.replicate 6 Label.destructor

/-- As before, but `2` submits `3` to queue `1`, and `3`, when the
    destructor runs it from there, submits `4` to queue `0`. -/
def queueDrain : List (Label 2 ℕ) :=
  exitDrain ++ List.replicate 4 Label.destructor ++ [Label.drained (.submit 3), .drained .finish] ++
    List.replicate 5 Label.destructor ++ [Label.drained (.submit 4), .drained .finish] ++
    List.replicate 2 Label.destructor

theorem dequeDrain_complete :
    ∃ s : State 2 ℕ, (earlySystem 2 ℕ).Run dequeDrain s ∧ s.destructor = .returned ∧
      ∀ u ∈ dequeDrain.filterMap Label.submits,
        s.started.count u = 1 ∧ s.finished.count u = 1 := by
  have hends : (System.exec (fun s l => if submittedEarly s l then next s l else none)
      (initial 2 ℕ) dequeDrain).map (fun s => (s.destructor, s.queues 0, s.queues 1))
      = some (.returned, [], []) := by decide +kernel
  obtain ⟨s, hrun, hends⟩ := System.exists_run_restrict_of_exec hends
  simp only [Prod.mk.injEq] at hends
  have hlost : ¬ s.lost := by
    rintro ⟨i, _, hne⟩
    fin_cases i
    · exact hne hends.2.1
    · exact hne hends.2.2
  exact ⟨s, hrun, hends.1,
    (shutdown_complete_iff hrun hends.1).mpr ((lost_iff hrun).mp hlost)⟩

/-- Task `4` is submitted and never run. -/
theorem queueDrain_incomplete :
    ¬ ∀ (tr : List (Label 2 ℕ)) (s : State 2 ℕ), (earlySystem 2 ℕ).Run tr s →
      s.destructor = .returned → ∀ u ∈ tr.filterMap Label.submits,
        s.started.count u = 1 ∧ s.finished.count u = 1 := by
  intro hall
  have hends : (System.exec (fun s l => if submittedEarly s l then next s l else none)
      (initial 2 ℕ) queueDrain).map (fun s => (s.destructor, s.finished.count 4))
      = some (.returned, 0) := by decide +kernel
  obtain ⟨s, hrun, hends⟩ := System.exists_run_restrict_of_exec hends
  simp only [Prod.mk.injEq] at hends
  have hone := (hall _ s hrun hends.1 4 (by decide)).2
  omega

end Forge.ThreadPool
