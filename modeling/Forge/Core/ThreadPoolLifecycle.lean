import Forge.Core.ThreadPool

/-! # Thread Pool — Workers and Destructor over the Life of the Pool

  A worker that has left its loop does nothing more and has nothing on its
  stack. `~ThreadPool` joins the workers in order, so that all of them are
  gone when it drains. `Lifecycle` says so for every run, whoever submits
  what and when.
-/

open LTS

namespace Forge.ThreadPool

variable {n : ℕ} {T : Type*}

/-- How many workers are joined. -/
def DestructorPC.joined (n : ℕ) : DestructorPC → ℕ
  | .notCalled => 0
  | .join i => i
  | .drainDeque _ | .drainQueue _ | .returned => n

/-- The destructor is in one of its drain loops. -/
def DestructorPC.drains : DestructorPC → Bool
  | .drainDeque _ | .drainQueue _ => true
  | _ => false

/-- Where the workers and the destructor are. -/
structure Lifecycle (s : State n T) : Prop where
  exited : ∀ w, (s.workers w).loop = .exited → (s.workers w).stack = []
  joined : ∀ w : Fin n, w.val < s.destructor.joined n → (s.workers w).loop = .exited
  draining : s.draining ≠ none → s.destructor.drains

theorem lifecycle_initial : Lifecycle (initial n T) where
  exited := by simp [initial]
  joined := by simp [initial, DestructorPC.joined]
  draining := by simp [initial]

variable {s s' : State n T}

/-- A worker with something on its stack has not exited. -/
theorem Lifecycle.alive_of_stack (hi : Lifecycle s) {w : Fin n} {f : Frame T}
    {rest : List (Frame T)} (hstack : (s.workers w).stack = f :: rest) :
    (s.workers w).loop ≠ .exited := by
  intro hex
  simp [hi.exited w hex] at hstack

/-- All workers have exited once the destructor has joined them. -/
theorem Lifecycle.allExited (hi : Lifecycle s) (h : s.destructor.joined n = n) (w : Fin n) :
    (s.workers w).loop = .exited := by
  apply hi.joined
  rw [h]
  exact w.isLt

/-! ### Steps of the Workers -/

/-- What a step on worker `w`'s thread leaves alone. -/
structure WorkerMoves (s s' : State n T) (w : Fin n) : Prop where
  alive : (s.workers w).loop ≠ .exited
  others : ∀ w', w' ≠ w → s'.workers w' = s.workers w'
  exited : (s'.workers w).loop = .exited → (s'.workers w).stack = []
  destructor : s'.destructor = s.destructor
  draining : s'.draining = s.draining

theorem fetch_frame {src : Source n} {t : T} (h : s.fetch src = some (t, s')) :
    s'.destructor = s.destructor ∧ s'.draining = s.draining ∧ s'.workers = s.workers := by
  cases src <;> simp only [State.fetch] at h <;> split at h <;> cases h <;> exact ⟨rfl, rfl, rfl⟩

theorem workerMoves_setWorker {w : Fin n} {wk : Worker T}
    (halive : (s.workers w).loop ≠ .exited) (hwk : wk.loop = .exited → wk.stack = []) :
    WorkerMoves s (s.setWorker w wk) w where
  alive := halive
  others := by
    intro w' hne
    simp [State.setWorker, hne]
  exited := by simpa [State.setWorker] using hwk
  destructor := rfl
  draining := rfl

theorem workerMoves_take {w : Fin n} {src : Source n} {hit : T → Worker T} {miss : Worker T}
    (halive : (s.workers w).loop ≠ .exited) (hhit : ∀ t, (hit t).loop ≠ .exited)
    (hmiss : miss.loop = .exited → miss.stack = []) :
    WorkerMoves s (s.take w src hit miss) w := by
  unfold State.take
  split
  · next t s₁ hf =>
    obtain ⟨hd, hdr, hw⟩ := fetch_frame hf
    refine ⟨halive, fun w' hne => ?_, fun hex => ?_, hd, hdr⟩
    · simp [State.setWorker, hne, hw]
    · simp only [State.setWorker, Function.update_self] at hex
      exact absurd hex (hhit t)
  · exact workerMoves_setWorker halive hmiss

theorem workerMoves_loopStep {w victim : Fin n} {lost : Bool}
    (hstack : (s.workers w).stack = []) (hs : loopStep s w victim lost = some s') :
    WorkerMoves s s' w := by
  have halive : (s.workers w).loop ≠ .exited := by
    intro hex
    simp [loopStep, hex] at hs
  unfold loopStep at hs
  cases hpc : (s.workers w).loop <;> simp only [hpc, Option.some.injEq, reduceCtorEq] at hs
  case top | checkStop | idle =>
    subst hs
    exact workerMoves_setWorker halive fun _ => hstack
  case poll | ownDeque | ownQueue | drainDeque | drainQueue =>
    subst hs
    exact workerMoves_take halive (by simp) fun _ => hstack
  case steal attempts =>
    split at hs
    · split at hs <;> cases hs
      · exact workerMoves_take halive (by simp) fun _ => hstack
      · exact workerMoves_setWorker halive fun _ => hstack
    · cases hs
      exact workerMoves_setWorker halive fun _ => hstack

theorem workerMoves_tryStep {w : Fin n} {lost : Bool} {rest : List (Frame T)} {pc : TryPC}
    (halive : (s.workers w).loop ≠ .exited) : WorkerMoves s (tryStep s w lost rest pc) w := by
  unfold tryStep
  cases pc with
  | ownDeque | ownQueue =>
    exact workerMoves_take halive (fun _ => halive) fun hex => absurd hex halive
  | steal i =>
    dsimp only
    split
    · split
      · exact workerMoves_take halive (fun _ => halive) fun hex => absurd hex halive
      · exact workerMoves_setWorker halive fun hex => absurd hex halive
    · exact workerMoves_setWorker halive fun hex => absurd hex halive

theorem workerMoves_pushDeque {w i : Fin n} {t : T} (halive : (s.workers w).loop ≠ .exited) :
    WorkerMoves s (s.pushDeque i t) w :=
  ⟨halive, fun _ _ => rfl, fun hex => absurd hex halive, rfl, rfl⟩

theorem workerMoves_taskStep [NeZero n] [DecidableEq T] {w : Fin n} {t : T}
    {rest : List (Frame T)} {a : Action T} (halive : (s.workers w).loop ≠ .exited)
    (hs : taskStep s w t rest a = some s') : WorkerMoves s s' w := by
  cases a with
  | submit t' =>
    simp only [taskStep, Option.ite_none_right_eq_some, Option.some.injEq] at hs
    obtain ⟨-, rfl⟩ := hs
    simp only [State.submit, w.isLt, dite_true]
    exact workerMoves_pushDeque halive
  | submitLocal t' =>
    simp only [taskStep, Option.ite_none_right_eq_some, Option.some.injEq] at hs
    obtain ⟨-, rfl⟩ := hs
    exact workerMoves_pushDeque halive
  | wait =>
    simp only [taskStep, Option.some.injEq] at hs
    subst hs
    exact workerMoves_setWorker halive fun hex => absurd hex halive
  | finish =>
    simp only [taskStep, Option.some.injEq] at hs
    subst hs
    have hset : WorkerMoves s (s.setWorker w { s.workers w with stack := rest }) w :=
      workerMoves_setWorker halive fun hex => absurd hex halive
    exact ⟨halive, hset.others, hset.exited, rfl, rfl⟩

theorem workerMoves_workerStep (hi : Lifecycle s) {w victim : Fin n} {lost : Bool}
    (hs : workerStep s w victim lost = some s') : WorkerMoves s s' w := by
  unfold workerStep at hs
  split at hs
  · next hstack => exact workerMoves_loopStep hstack hs
  · next hstack =>
    cases hs
    exact workerMoves_tryStep (hi.alive_of_stack hstack)
  · cases hs

theorem Lifecycle.workerMoves (hi : Lifecycle s) {w : Fin n} (hm : WorkerMoves s s' w) :
    Lifecycle s' := by
  constructor
  · intro w' hex
    by_cases hw : w' = w
    · subst hw
      exact hm.exited hex
    · rw [hm.others w' hw] at hex ⊢
      exact hi.exited w' hex
  · intro w' hlt
    rw [hm.destructor] at hlt
    have hex := hi.joined w' hlt
    -- the worker that moves is alive, so it is not one that was joined
    have hw : w' ≠ w := by
      intro heq
      rw [heq] at hex
      exact hm.alive hex
    rw [hm.others w' hw]
    exact hex
  · rw [hm.destructor, hm.draining]
    exact hi.draining

/-! ### Steps of the Destructor -/

theorem Lifecycle.setDestructor (hi : Lifecycle s) {pc : DestructorPC} (hdr : s.draining = none)
    (hjoined : ∀ w : Fin n, w.val < pc.joined n → (s.workers w).loop = .exited) :
    Lifecycle { s with destructor := pc } where
  exited := hi.exited
  joined := hjoined
  draining := by simp [hdr]

theorem lifecycle_drain (hi : Lifecycle s) {src : Source n} {pc : DestructorPC}
    (hdr : s.draining = none) (hd : s.destructor.drains)
    (hjoined : ∀ w : Fin n, w.val < pc.joined n → (s.workers w).loop = .exited) :
    Lifecycle (s.drain src pc) := by
  unfold State.drain
  split
  · next hf =>
    obtain ⟨hdestructor, -, hworkers⟩ := fetch_frame hf
    refine ⟨?_, ?_, fun _ => ?_⟩
    · rw [hworkers]
      exact hi.exited
    · rw [hworkers, hdestructor]
      exact hi.joined
    · rw [hdestructor]
      exact hd
  · exact hi.setDestructor hdr hjoined

theorem lifecycle_destructorStep (hi : Lifecycle s) (hs : destructorStep s = some s') :
    Lifecycle s' := by
  unfold destructorStep at hs
  split at hs
  · next i hdr hd =>
    have hjoined := hi.joined
    simp only [hd, DestructorPC.joined] at hjoined
    split at hs
    · next hlt =>
      split at hs
      · next hex =>
        cases hs
        apply hi.setDestructor hdr
        intro w hw
        rcases Nat.lt_succ_iff_lt_or_eq.mp hw with hold | heq
        · exact hjoined w hold
        · have hwi : w = ⟨i, hlt⟩ := Fin.ext heq
          rw [hwi]
          exact hex
      · cases hs
    · next hge =>
      cases hs
      exact hi.setDestructor hdr fun w _ => hjoined w (by omega)
  · next i hdr hd =>
    have hexited := hi.allExited (by rw [hd]; rfl)
    split at hs <;> cases hs
    · exact lifecycle_drain hi hdr (by rw [hd]; rfl) fun w _ => hexited w
    · exact hi.setDestructor hdr fun w _ => hexited w
  · next i hdr hd =>
    have hexited := hi.allExited (by rw [hd]; rfl)
    split at hs <;> cases hs
    · exact lifecycle_drain hi hdr (by rw [hd]; rfl) fun w _ => hexited w
    · exact hi.setDestructor hdr fun w _ => hexited w
  · cases hs

/-! ### The Life of the Pool -/

section Runs

variable [NeZero n] [DecidableEq T]

omit [DecidableEq T] in
theorem submit_frame (s : State n T) (id : Option ℕ) (t : T) :
    (s.submit id t).workers = s.workers ∧ (s.submit id t).destructor = s.destructor ∧
      (s.submit id t).draining = s.draining := by
  unfold State.submit
  split
  · exact ⟨rfl, rfl, rfl⟩
  · split <;> exact ⟨rfl, rfl, rfl⟩

omit [DecidableEq T] in
theorem Lifecycle.submit (hi : Lifecycle s) (id : Option ℕ) (t : T) :
    Lifecycle (s.submit id t) := by
  obtain ⟨hworkers, hdestructor, hdraining⟩ := submit_frame s id t
  constructor
  · rw [hworkers]
    exact hi.exited
  · rw [hworkers, hdestructor]
    exact hi.joined
  · rw [hdestructor, hdraining]
    exact hi.draining

/-- The label of a step on a worker's thread. -/
def Label.onWorker : Label n T → Option (Fin n)
  | .worker w _ _ | .task w _ => some w
  | _ => none

theorem workerMoves_next (hi : Lifecycle s) {l : Label n T} {w : Fin n}
    (hl : l.onWorker = some w) (hs : next s l = some s') : WorkerMoves s s' w := by
  cases l with
  | worker w' victim lost =>
    cases hl
    exact workerMoves_workerStep hi hs
  | task w' a =>
    cases hl
    simp only [next] at hs
    split at hs
    · next hstack => exact workerMoves_taskStep (hi.alive_of_stack hstack) hs
    · cases hs
  | submit id t | destroy | destructor | drained a => cases hl

theorem lifecycle_step (hi : Lifecycle s) {l : Label n T} (hs : next s l = some s') :
    Lifecycle s' := by
  cases l with
  | submit id t =>
    simp only [next, Option.ite_none_right_eq_some, Option.some.injEq] at hs
    obtain ⟨-, rfl⟩ := hs
    exact hi.submit id t
  | worker w victim lost => exact hi.workerMoves (workerMoves_next hi rfl hs)
  | task w a => exact hi.workerMoves (workerMoves_next hi rfl hs)
  | destroy =>
    simp only [next, Option.ite_none_right_eq_some, Option.some.injEq] at hs
    obtain ⟨hd, rfl⟩ := hs
    refine ⟨hi.exited, by simp [DestructorPC.joined], ?_⟩
    intro hdr
    have hdrains := hi.draining hdr
    simp [hd, DestructorPC.drains] at hdrains
  | destructor => exact lifecycle_destructorStep hi hs
  | drained a =>
    simp only [next] at hs
    split at hs
    · cases a with
      | submit t' =>
        simp only [drainedStep, Option.ite_none_right_eq_some, Option.some.injEq] at hs
        obtain ⟨-, rfl⟩ := hs
        exact hi.submit none t'
      | finish =>
        simp only [drainedStep, Option.some.injEq] at hs
        subst hs
        exact ⟨hi.exited, hi.joined, by simp⟩
      | submitLocal t' | wait => simp [drainedStep] at hs
    · cases hs

theorem lifecycle_run {tr : List (Label n T)} (hrun : (system n T).Run tr s) : Lifecycle s := by
  apply hrun.invariant (P := Lifecycle)
  · intro s hs
    rw [hs]
    exact lifecycle_initial
  · intro s l s' hi hs
    exact lifecycle_step hi hs

end Runs

end Forge.ThreadPool
