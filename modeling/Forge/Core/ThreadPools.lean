import Forge.Core.ThreadPoolLifecycle
import Mathlib.Data.Sigma.Basic

/-! # Several Thread Pools — Who Touches Whose Deque

  Any number of pools of any sizes at once, each stepping as a
  `ThreadPool`. Besides what happens inside one pool there are the
  submissions from elsewhere: from a thread that is no worker, and from a
  task on a worker of another pool.

  `submit` routes by the thread-local `t_worker_id`, which it compares
  with the size of its own pool only. `owner_discipline_iff`: the owner of
  every deque is the only one to push to it and to pop from it, if and
  only if no worker of another pool calls `submit` with an id below the
  size of the pool.
-/

open LTS

namespace Forge.ThreadPool

/-- The calls of a `WorkStealingDeque`. -/
inductive DequeOp where
  | push
  | pop
  | steal
  deriving DecidableEq

variable {n : ℕ} {T : Type*}

/-- The calls on deques that a step inside the pool makes, with the worker
    on whose thread it makes them; `none` is the thread of `~ThreadPool`. -/
def accesses (s : State n T) : Label n T → List (Option (Fin n) × DequeOp × Fin n)
  | .worker w victim _ =>
      match (s.workers w).stack with
      | [] =>
          match (s.workers w).loop with
          | .ownDeque | .drainDeque => [(some w, .pop, w)]
          | .steal attempts =>
              if attempts < n * 2 % 2 ^ 32 ∧ victim ≠ w then [(some w, .steal, victim)] else []
          | _ => []
      | .tryOne .ownDeque :: _ => [(some w, .pop, w)]
      | .tryOne (.steal i) :: _ =>
          if h : i < n then if i ≠ w then [(some w, .steal, ⟨i, h⟩)] else [] else []
      | _ => []
  | .task w (.submit _) | .task w (.submitLocal _) => [(some w, .push, w)]
  | .destructor =>
      match s.draining, s.destructor with
      | none, .drainDeque i => if h : i < n then [(none, .pop, ⟨i, h⟩)] else []
      | _, _ => []
  | .submit _ _ | .task _ _ | .destroy | .drained _ => []

/-- A submission from outside the pool. -/
def Label.isOutside : Label n T → Bool
  | .submit _ _ => true
  | _ => false

/-- The worker is inside a task. -/
def State.runsTask (s : State n T) (w : Fin n) : Bool :=
  match (s.workers w).stack with
  | .exec _ :: _ => true
  | _ => false

variable {s s' : State n T}

/-- Inside a pool the workers keep to their own deques, and the destructor
    comes when they are gone. -/
theorem accesses_own [NeZero n] [DecidableEq T] (hi : Lifecycle s) {l : Label n T}
    (hs : next s l = some s') {caller : Option (Fin n)} {op : DequeOp} {i : Fin n}
    (ha : (caller, op, i) ∈ accesses s l) :
    op = .steal ∨ (caller = some i ∧ (s.workers i).loop ≠ .exited) ∨
      (op = .pop ∧ caller = none ∧ ∀ w, (s.workers w).loop = .exited) := by
  -- on a worker's thread that worker is alive
  have hown : ∀ w, l.onWorker = some w → (s.workers w).loop ≠ .exited := by
    intro w hw
    exact (workerMoves_next hi hw hs).alive
  cases l with
  | worker w victim lost =>
    have halive := hown w rfl
    simp only [accesses] at ha
    split at ha
    · split at ha <;> (try split at ha) <;> simp at ha
      all_goals obtain ⟨rfl, rfl, rfl⟩ := ha; simp [halive]
    · simp only [List.mem_singleton, Prod.mk.injEq] at ha
      obtain ⟨rfl, rfl, rfl⟩ := ha
      exact .inr (.inl ⟨rfl, halive⟩)
    · split at ha <;> (try split at ha) <;> simp at ha
      exact .inl ha.2.1
    · simp at ha
  | task w a =>
    have halive := hown w rfl
    cases a <;> simp [accesses] at ha
    all_goals obtain ⟨rfl, rfl, rfl⟩ := ha; exact .inr (.inl ⟨rfl, halive⟩)
  | destructor =>
    simp only [accesses] at ha
    split at ha
    · next hd =>
      have hexited := hi.allExited (by rw [hd]; rfl)
      split at ha <;> simp at ha
      obtain ⟨rfl, rfl, rfl⟩ := ha
      exact .inr (.inr ⟨rfl, rfl, hexited⟩)
    · simp at ha
  | submit id t | destroy | drained a => simp [accesses] at ha

/-! ### The Calls Account for Every Change of a Deque -/

theorem fetch_deques {src : Source n} {t : T} (h : s.fetch src = some (t, s')) {i : Fin n}
    (hpop : src ≠ .pop i) (hsteal : src ≠ .steal i) : s'.deques i = s.deques i := by
  cases src with
  | queue j =>
    simp only [State.fetch] at h
    split at h <;> cases h
    rfl
  | pop j =>
    have hne : i ≠ j := fun heq => hpop (by rw [heq])
    simp only [State.fetch] at h
    split at h <;> cases h
    simp [hne]
  | steal j =>
    have hne : i ≠ j := fun heq => hsteal (by rw [heq])
    simp only [State.fetch] at h
    split at h <;> cases h
    simp [hne]

theorem take_deques {w : Fin n} {src : Source n} {hit : T → Worker T} {miss : Worker T}
    {i : Fin n} (hpop : src ≠ .pop i) (hsteal : src ≠ .steal i) :
    (s.take w src hit miss).deques i = s.deques i := by
  unfold State.take
  split
  · next hf => exact fetch_deques hf hpop hsteal
  · rfl

theorem loopStep_deques {w victim i : Fin n} {lost : Bool} (hstack : (s.workers w).stack = [])
    (hs : loopStep s w victim lost = some s')
    (hno : ∀ a ∈ accesses s (.worker w victim lost), a.2.2 ≠ i) : s'.deques i = s.deques i := by
  simp only [accesses, hstack] at hno
  unfold loopStep at hs
  cases hpc : (s.workers w).loop <;> simp only [hpc, Option.some.injEq, reduceCtorEq] at hs hno
  case top | checkStop | idle =>
    subst hs
    rfl
  case poll | ownQueue | drainQueue =>
    subst hs
    exact take_deques (by simp) (by simp)
  case ownDeque | drainDeque =>
    subst hs
    have hne : w ≠ i := hno _ (List.mem_singleton.mpr rfl)
    exact take_deques (by simp [hne]) (by simp)
  case steal attempts =>
    split at hs
    · next hlt =>
      split at hs <;> cases hs
      · next hv =>
        have hmem : (some w, DequeOp.steal, victim) ∈
            (if attempts < n * 2 % 2 ^ 32 ∧ victim ≠ w then [(some w, DequeOp.steal, victim)]
              else []) := by
          rw [if_pos ⟨hlt, hv.1⟩]
          exact List.mem_cons_self
        have hne : victim ≠ i := hno _ hmem
        exact take_deques (by simp) (by simp [hne])
      · rfl
    · cases hs
      rfl

theorem tryStep_deques {w victim i : Fin n} {lost : Bool} {rest : List (Frame T)} {pc : TryPC}
    (hstack : (s.workers w).stack = .tryOne pc :: rest)
    (hno : ∀ a ∈ accesses s (.worker w victim lost), a.2.2 ≠ i) :
    (tryStep s w lost rest pc).deques i = s.deques i := by
  unfold tryStep
  cases pc with
  | ownDeque =>
    simp only [accesses, hstack] at hno
    have hne : w ≠ i := hno _ (List.mem_singleton.mpr rfl)
    exact take_deques (by simp [hne]) (by simp)
  | ownQueue => exact take_deques (by simp) (by simp)
  | steal j =>
    simp only [accesses, hstack] at hno
    dsimp only
    split
    · next hlt =>
      split
      · next hv =>
        have hne : (⟨j, hlt⟩ : Fin n) ≠ i :=
          hno (some w, .steal, ⟨j, hlt⟩) (by simp [hlt, hv.1])
        exact take_deques (by simp) (by simp [hne])
      · rfl
    · rfl

theorem destructorStep_deques {i : Fin n} (hs : destructorStep s = some s')
    (hno : ∀ a ∈ accesses s .destructor, a.2.2 ≠ i) : s'.deques i = s.deques i := by
  unfold destructorStep at hs
  split at hs
  · split at hs
    · split at hs <;> cases hs
      rfl
    · cases hs
      rfl
  · next j hdr hd =>
    split at hs <;> cases hs
    · next hlt =>
      have hne : (⟨j, hlt⟩ : Fin n) ≠ i :=
        hno (none, .pop, ⟨j, hlt⟩) (by simp [accesses, hdr, hd, hlt])
      unfold State.drain
      split
      · next hf => exact fetch_deques hf (by simp [hne]) (by simp)
      · rfl
    · rfl
  · split at hs <;> cases hs
    · unfold State.drain
      split
      · next hf => exact fetch_deques hf (by simp) (by simp)
      · rfl
    · rfl
  · cases hs

/-- A step that makes no call on a deque leaves it as it is. -/
theorem deques_of_accesses [NeZero n] [DecidableEq T] {l : Label n T} {i : Fin n}
    (hl : l.isOutside = false) (hs : next s l = some s')
    (hno : ∀ a ∈ accesses s l, a.2.2 ≠ i) : s'.deques i = s.deques i := by
  cases l with
  | submit id t => simp [Label.isOutside] at hl
  | worker w victim lost =>
    simp only [next, workerStep] at hs
    split at hs
    · next hstack => exact loopStep_deques hstack hs hno
    · next hstack =>
      cases hs
      exact tryStep_deques hstack hno
    · cases hs
  | task w a =>
    simp only [next] at hs
    split at hs
    · cases a with
      | submit t' | submitLocal t' =>
        have hne : i ≠ w := (hno _ (List.mem_singleton.mpr rfl)).symm
        simp only [taskStep, Option.ite_none_right_eq_some, Option.some.injEq] at hs
        obtain ⟨-, rfl⟩ := hs
        simp [State.submit, State.pushDeque, hne]
      | wait | finish =>
        simp only [taskStep, Option.some.injEq] at hs
        subst hs
        rfl
    · cases hs
  | destroy =>
    simp only [next, Option.ite_none_right_eq_some, Option.some.injEq] at hs
    obtain ⟨-, rfl⟩ := hs
    rfl
  | destructor => exact destructorStep_deques hs hno
  | drained a =>
    simp only [next] at hs
    split at hs
    · cases a with
      | submit t' =>
        simp only [drainedStep, Option.ite_none_right_eq_some, Option.some.injEq] at hs
        obtain ⟨-, rfl⟩ := hs
        rfl
      | finish =>
        simp only [drainedStep, Option.some.injEq] at hs
        subst hs
        rfl
      | submitLocal t' | wait => simp [drainedStep] at hs
    · cases hs

end Forge.ThreadPool

namespace Forge.ThreadPools

open ThreadPool (DequeOp LoopPC)

/-- A worker thread, and its deque: the pool and the id in it. -/
abbrev WorkerId {P : Type*} (sizes : P → ℕ) := (p : P) × Fin (sizes p)

/-- One call on a deque; the caller is `none` on a thread that is no worker. -/
structure Access {P : Type*} (sizes : P → ℕ) where
  caller : Option (WorkerId sizes)
  op : DequeOp
  deque : WorkerId sizes

/-- All pools. -/
abbrev State {P : Type*} (sizes : P → ℕ) (T : Type*) := (p : P) → ThreadPool.State (sizes p) T

inductive Label {P : Type*} (sizes : P → ℕ) (T : Type*) where
  /-- A step inside pool `p`. -/
  | inside (p : P) (l : ThreadPool.Label (sizes p) T)
  /-- A thread that is no worker calls `submit` on pool `q`. -/
  | external (q : P) (t : T)
  /-- A task on worker `i` of pool `p` calls `submit` on another pool. -/
  | cross (p : P) (i : Fin (sizes p)) (q : P) (t : T)

variable {P : Type*} [DecidableEq P] {sizes : P → ℕ} {T : Type*}

def initial (sizes : P → ℕ) (T : Type*) : State sizes T := fun p => ThreadPool.initial (sizes p) T

/-- The step function. -/
def next [∀ p, NeZero (sizes p)] [DecidableEq T] (s : State sizes T) :
    Label sizes T → Option (State sizes T)
  | .inside p l =>
      if l.isOutside then none else (ThreadPool.next (s p) l).map (Function.update s p)
  | .external q t => (ThreadPool.next (s q) (.submit none t)).map (Function.update s q)
  | .cross p i q t =>
      if p ≠ q ∧ (s p).runsTask i then
        (ThreadPool.next (s q) (.submit (some i) t)).map (Function.update s q)
      else none

def system (sizes : P → ℕ) (T : Type*) [∀ p, NeZero (sizes p)] [DecidableEq T] :
    System (State sizes T) (Label sizes T) :=
  .ofNext (initial sizes T) next

/-- The calls on deques that a step makes. -/
def accesses (s : State sizes T) : Label sizes T → List (Access sizes)
  | .inside p l => (ThreadPool.accesses (s p) l).map fun a =>
      ⟨a.1.map fun w => ⟨p, w⟩, a.2.1, ⟨p, a.2.2⟩⟩
  | .external _ _ => []
  | .cross p i q _ =>
      if h : i.val < sizes q then [⟨some ⟨p, i⟩, .push, ⟨q, i.val, h⟩⟩] else []

/-! ### The Owner Discipline -/

/-- A call on a deque that its owner-only contract allows: `steal` by
    anyone, the others by the owner while it runs. When all workers of the
    pool are gone, the deques belong to `~ThreadPool`, which pops what is
    left. -/
def Owned (s : State sizes T) (a : Access sizes) : Prop :=
  a.op = .steal ∨
  (a.caller = some a.deque ∧ ((s a.deque.1).workers a.deque.2).loop ≠ .exited) ∨
  (a.op = .pop ∧ a.caller = none ∧ ∀ w, ((s a.deque.1).workers w).loop = .exited)

/-- All calls of a step are allowed. -/
def Disciplined (s : State sizes T) (l : Label sizes T) : Prop := ∀ a ∈ accesses s l, Owned s a

/-- A worker of another pool that calls `submit` has an id that is no id
    of this pool. -/
def foreignId : Label sizes T → Bool
  | .cross _ i q _ => sizes q ≤ i.val
  | _ => true

/-! ### Steps -/

variable [∀ p, NeZero (sizes p)] [DecidableEq T] {s s' : State sizes T} {l : Label sizes T}

/-- Every pool of a reachable state is a reachable pool. -/
theorem pool_reachable {tr : List (Label sizes T)} (hrun : (system sizes T).Run tr s) (p : P) :
    (ThreadPool.system (sizes p) T).Reachable (s p) := by
  apply hrun.invariant (P := fun s => (ThreadPool.system (sizes p) T).Reachable (s p))
  · intro s hs
    rw [hs]
    exact ⟨[], .start rfl⟩
  · intro s l s' hr hs
    have hpool : ∀ (q : P) (lq : ThreadPool.Label (sizes q) T),
        (ThreadPool.next (s q) lq).map (Function.update s q) = some s' →
          (ThreadPool.system (sizes p) T).Reachable (s' p) := by
      intro q lq hq
      obtain ⟨sq, hstep, rfl⟩ := Option.map_eq_some_iff.mp hq
      by_cases hpq : p = q
      · subst hpq
        rw [Function.update_self]
        exact hr.step hstep
      · rw [Function.update_of_ne hpq]
        exact hr
    have hstep : next s l = some s' := hs
    cases l with
    | inside q lq =>
      simp only [next, Option.ite_none_left_eq_some] at hstep
      exact hpool q lq hstep.2
    | external q t => exact hpool q _ hstep
    | cross q i q' t =>
      simp only [next, Option.ite_none_right_eq_some] at hstep
      exact hpool q' _ hstep.2

omit [∀ p, NeZero (sizes p)] [DecidableEq T] in
theorem update_deques {q : P} {sq : ThreadPool.State (sizes q) T} {d : WorkerId sizes}
    (h : ∀ i, d = ⟨q, i⟩ → sq.deques i = (s q).deques i) :
    (Function.update s q sq d.1).deques d.2 = (s d.1).deques d.2 := by
  obtain ⟨p, i⟩ := d
  by_cases hpq : p = q
  · subst hpq
    rw [Function.update_self]
    exact h i rfl
  · rw [Function.update_of_ne hpq]

/-- A step changes a deque only by the calls it makes on it. -/
theorem deque_of_accesses (hs : next s l = some s') {d : WorkerId sizes}
    (hno : ∀ a ∈ accesses s l, a.deque ≠ d) : (s' d.1).deques d.2 = (s d.1).deques d.2 := by
  cases l with
  | inside p lp =>
    simp only [next, Option.ite_none_left_eq_some, Option.map_eq_some_iff] at hs
    obtain ⟨hl, sp, hstep, rfl⟩ := hs
    apply update_deques
    intro i hd
    apply ThreadPool.deques_of_accesses (by simpa using hl) hstep
    intro a ha hai
    exact hno _ (List.mem_map.mpr ⟨a, ha, rfl⟩) (by rw [hd, hai])
  | external q t =>
    simp only [next, ThreadPool.next, Option.map_eq_some_iff, Option.ite_none_right_eq_some,
      Option.some.injEq] at hs
    obtain ⟨sq, ⟨-, rfl⟩, rfl⟩ := hs
    apply update_deques
    intro i _
    rfl
  | cross p i q t =>
    simp only [next, ThreadPool.next, Option.map_eq_some_iff, Option.ite_none_right_eq_some,
      Option.some.injEq] at hs
    obtain ⟨-, sq, ⟨-, rfl⟩, rfl⟩ := hs
    apply update_deques
    intro j hd
    by_cases hlt : i.val < sizes q
    · have hne : j ≠ ⟨i.val, hlt⟩ := by
        intro heq
        exact hno ⟨some ⟨p, i⟩, .push, ⟨q, i.val, hlt⟩⟩ (by simp [accesses, hlt]) (by rw [hd, heq])
      simp [ThreadPool.State.submit, hlt, ThreadPool.State.pushDeque, hne]
    · simp [ThreadPool.State.submit, hlt, ThreadPool.State.pushQueue]

/-- In a reachable state a step keeps the discipline exactly if it is no
    submission by a foreign worker whose id is in range. -/
theorem disciplined_iff {tr : List (Label sizes T)} (hrun : (system sizes T).Run tr s)
    (hs : next s l = some s') : Disciplined s l ↔ foreignId l := by
  cases l with
  | inside p lp =>
    refine iff_of_true ?_ rfl
    intro a ha
    simp only [accesses, List.mem_map] at ha
    obtain ⟨⟨caller, op, i⟩, hmem, rfl⟩ := ha
    simp only [next, Option.ite_none_left_eq_some, Option.map_eq_some_iff] at hs
    obtain ⟨-, sp, hstep, -⟩ := hs
    obtain ⟨trp, hrunp⟩ := pool_reachable hrun p
    rcases ThreadPool.accesses_own (ThreadPool.lifecycle_run hrunp) hstep hmem with
      hsteal | ⟨hcaller, halive⟩ | ⟨hop, hcaller, hexited⟩
    · exact .inl hsteal
    · exact .inr (.inl ⟨by simp [hcaller], halive⟩)
    · exact .inr (.inr ⟨hop, by simp [hcaller], hexited⟩)
  | external q t => exact iff_of_true (by simp [Disciplined, accesses]) rfl
  | cross p i q t =>
    simp only [next, Option.ite_none_right_eq_some] at hs
    have hne : p ≠ q := hs.1.1
    by_cases hlt : i.val < sizes q
    · refine iff_of_false ?_ (by simpa [foreignId] using hlt)
      intro hd
      -- the push is by a worker of another pool
      have hpush := hd ⟨some ⟨p, i⟩, .push, ⟨q, i.val, hlt⟩⟩ (by simp [accesses, hlt])
      rcases hpush with hsteal | ⟨hcaller, -⟩ | ⟨hpop, -⟩
      · cases hsteal
      · simp only [Option.some.injEq, Sigma.mk.injEq] at hcaller
        exact hne hcaller.1
      · cases hpop
    · refine iff_of_true ?_ (by simpa [foreignId] using hlt)
      simp [Disciplined, accesses, hlt]

/-- **Owner discipline.** In every step of a run the deques are touched as
    their contract allows, if and only if in no step a worker of another
    pool calls `submit` with an id below the size of the pool. -/
theorem owner_discipline_iff {tr : List (Label sizes T)} (hrun : (system sizes T).Run tr s) :
    ((system sizes T).restrict Disciplined).Run tr s ↔
      ((system sizes T).restrict fun _ l => foreignId l).Run tr s := by
  have hdet : (system sizes T).Deterministic := System.deterministic_ofNext _ _
  apply hrun.history_invariant (P := fun tr s =>
    ((system sizes T).restrict Disciplined).Run tr s ↔
      ((system sizes T).restrict fun _ l => foreignId l).Run tr s)
  · intro s hs
    exact iff_of_true (.start hs) (.start hs)
  · intro tr s l s' hr ih hs
    rw [hdet.restrict_snoc hr hs, hdet.restrict_snoc hr hs, ih, disciplined_iff hr hs]

/-! ### Two Pools -/

/-- Pool `false` has two workers and pool `true` has one. -/
def twoPools : Bool → ℕ
  | false => 2
  | true => 1

instance : ∀ p, NeZero (twoPools p)
  | false => ⟨by decide⟩
  | true => ⟨by decide⟩

/-- Task `1` is submitted to pool `false` and taken by worker `i`, to whose
    queue it was sent. -/
def taskOn (before : List (Label twoPools ℕ)) (i : Fin (twoPools false)) :
    List (Label twoPools ℕ) :=
  before ++ [Label.external false 1, .inside false (.worker i i false),
    .inside false (.worker i i false), .inside false (.worker i i false)]

/-- Worker `1` is no worker of pool `true`: its submission goes to the
    submission queue. -/
theorem taskOn_disciplined :
    ∃ s : State twoPools ℕ,
      ((system twoPools ℕ).restrict Disciplined).Run
        (taskOn [.external false 0] (1 : Fin 2) ++ [.cross false (1 : Fin 2) true 2]) s ∧
      (s true).queues (0 : Fin 1) = [2] ∧ (s true).deques (0 : Fin 1) = [] := by
  have hends : (System.exec (fun s l => if foreignId l then next s l else none)
      (initial twoPools ℕ)
      (taskOn [.external false 0] (1 : Fin 2) ++ [.cross false (1 : Fin 2) true 2])).map
        (fun s => ((s true).queues (0 : Fin 1), (s true).deques (0 : Fin 1)))
      = some ([2], []) := by decide
  obtain ⟨s, hrun, hends⟩ := System.exists_run_restrict_of_exec hends
  simp only [Prod.mk.injEq] at hends
  exact ⟨s, (owner_discipline_iff hrun.of_restrict).mpr hrun, hends.1, hends.2⟩

/-- Worker `0` of pool `false` pushes to the deque of worker `0` of pool
    `true`. -/
theorem taskOn_undisciplined :
    ¬ ∀ (tr : List (Label twoPools ℕ)) (s : State twoPools ℕ),
      (system twoPools ℕ).Run tr s → ((system twoPools ℕ).restrict Disciplined).Run tr s := by
  intro hall
  obtain ⟨s, hexec⟩ := Option.isSome_iff_exists.mp
    (show (System.exec next (initial twoPools ℕ)
      (taskOn [] (0 : Fin 2) ++ [.cross false (0 : Fin 2) true 2])).isSome by decide)
  obtain ⟨s₁, hr, hdisc, hstep⟩ := (hall _ s (System.run_of_exec hexec)).snoc_inv
  have hforeign := (disciplined_iff hr.of_restrict hstep).mp hdisc
  revert hforeign
  decide

end Forge.ThreadPools
