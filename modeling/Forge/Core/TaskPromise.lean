import Forge.Core.FutureProtocol

/-! # The Task of `submit` and Its Promise

  `ThreadPool::submit` and `submit_local` (`core/thread_pool.h`) wrap the
  callable into the same task:

      try { p->set_value(f()); }
      catch (...) { try { p->set_exception(std::current_exception()); } catch (...) {} }

  `set_value` runs the continuation of `then`, so that the handler is
  reached by an exception of the callable, of the move of its result into
  the shared state, and of the continuation.

  - `Once`: what the promise of a task has to keep at every moment;
  - `once_iff`: it is kept in a run if and only if no continuation throws
    out of `set_value`: by then the promise is satisfied, and the handler
    calls `set_exception` all the same;
  - `throwing_continuation_aborts`: the assertion is reached.
-/

open LTS

namespace Forge.TaskPromise

open Forge.Future (Specialisation ProducerPC ConsumerPC Side)

variable {T E : Type*}

/-! ### State -/

/-- Where the task is. -/
inductive Phase where
  /-- In a deque or a queue of the pool. -/
  | queued
  /-- Inside the callable. -/
  | callable
  /-- In `set_value` or `set_exception`, or done with it. -/
  | promise
  deriving DecidableEq

/-- The shared state of the promise, and the task. -/
structure State (T E : Type*) where
  shared : Future.State T E
  phase : Phase
  /-- History: how often `set_value` has set the value. -/
  setValues : ℕ
  /-- History: how often `set_exception` was called. -/
  setExceptions : ℕ

/-- The steps. -/
inductive Label (T E : Type*) where
  /-- A worker calls the task. -/
  | run
  | callableReturn (v : T)
  | callableThrow (e : E)
  /-- The next step of `set_value` or `set_exception`. -/
  | promise
  /-- The move constructor of the result throws. -/
  | moveThrow (e : E)
  | callbackReturn (side : Side)
  | callbackThrow (side : Side) (e : E)
  | callThen
  | consumer
  /-- The task is deleted, and with it its reference to the promise. -/
  | dropPromise
  | dropFuture
  | destroy
  deriving DecidableEq

def initial (kind : Specialisation T) : State T E := ⟨Future.initial kind, .queued, 0, 0⟩

/-! ### Steps -/

/-- The next step of `set_value` or `set_exception`; with `NDEBUG` the
    assertions are not compiled. -/
def promiseStep (kind : Specialisation T) (ndebug : Bool) (s : Future.State T E) :
    Option (Future.State T E) :=
  match s.producer with
  | .svAssert v =>
      if s.ready && !ndebug then some { s with producer := .aborted }
      else match kind with
        | .primary => some { s with producer := .svConstruct v }
        | .void _ => some { s with producer := .svReady v }
  | .seAssert e =>
      if s.ready && !ndebug then some { s with producer := .aborted }
      else some { s with producer := .seStore e }
  | _ => Future.producerStep kind s

/-- The handler: `p->set_exception(std::current_exception())`. -/
def State.handle (s : State T E) (e : E) : State T E :=
  { s with
    shared := { s.shared with producer := .seAssert e }
    phase := .promise
    setExceptions := s.setExceptions + 1 }

/-- A step of the shared state alone. -/
def State.withShared (s : State T E) (shared : Future.State T E) : State T E :=
  { s with
    shared := shared
    -- `set_value` has set the value when it is constructed
    setValues := if s.shared.producer.constructed.isNone && shared.producer.constructed.isSome then
      s.setValues + 1 else s.setValues }

/-- The step function. -/
def next [DecidableEq T] [DecidableEq E] (kind : Specialisation T) (ndebug : Bool)
    (s : State T E) : Label T E → Option (State T E)
  | .run =>
      if s.phase = .queued ∧ s.shared.producerDropped = false then
        some { s with phase := .callable }
      else none
  | .callableReturn v =>
      if s.phase = .callable ∧ kind.accepts v then
        some { s with
          shared := { s.shared with producer := .svAssert v }
          phase := .promise }
      else none
  | .callableThrow e => if s.phase = .callable then some (s.handle e) else none
  | .promise => (promiseStep kind ndebug s.shared).map s.withShared
  | .moveThrow e =>
      match s.shared.producer with
      | .svConstruct _ => some (s.handle e)
      | _ => none
  | .callbackThrow .producer e =>
      match s.shared.producer with
      | .svRunning _ => some (s.handle e)
      | _ => none
  | .callbackThrow .consumer _ =>
      (Future.next kind s.shared (.callbackThrow .consumer)).map s.withShared
  | .callbackReturn side => (Future.next kind s.shared (.callbackReturn side)).map s.withShared
  | .callThen => (Future.next kind s.shared .callThen).map s.withShared
  | .consumer => (Future.next kind s.shared .consumer).map s.withShared
  | .dropPromise =>
      if s.phase = .callable then none
      else (Future.next kind s.shared .dropProducer).map s.withShared
  | .dropFuture => (Future.next kind s.shared .dropConsumer).map s.withShared
  | .destroy => (Future.next kind s.shared .destroy).map s.withShared

/-- A task with its promise and future. -/
def system (T E : Type*) [DecidableEq T] [DecidableEq E] (kind : Specialisation T)
    (ndebug : Bool) : System (State T E) (Label T E) :=
  .ofNext (initial kind) (next kind ndebug)

/-! ### What the Promise Has to Keep -/

/-- How far `set_value` and `set_exception` are from their end. -/
def rankPC : ProducerPC T E → ℕ
  | .svAssert _ => 11
  | .svConstruct _ => 10
  | .svReady _ => 9
  | .svExchange _ => 8
  | .svInvoke _ => 7
  | .svRunning _ => 6
  | .seAssert _ => 5
  | .seStore _ => 4
  | .seReady _ => 3
  | .seExchange _ => 2
  | .svDelete _ | .seDelete _ => 1
  | .idle | .svDone _ | .svThrew _ | .seDone _ | .aborted => 0

/-- How far the task is from its end. -/
def State.rank (s : State T E) : ℕ :=
  match s.phase with
  | .queued => 13
  | .callable => 12
  | .promise => rankPC s.shared.producer

/-- The assertion "Promise already satisfied" is next. -/
def asserts : ProducerPC T E → Bool
  | .svAssert _ | .seAssert _ => true
  | _ => false

/-- The promise of a task at one moment. -/
structure Once [DecidableEq T] [DecidableEq E] (kind : Specialisation T) (ndebug : Bool)
    (s : State T E) : Prop where
  /-- The value is set or `set_exception` called, and once at most. -/
  atMost : s.setValues + s.setExceptions ≤ 1
  /-- The assertion holds, and has held. -/
  assertion : (asserts s.shared.producer → s.shared.ready = false) ∧ s.shared.producer ≠ .aborted
  /-- The value storage and `exception_` are not both filled. -/
  exclusive : kind = .primary → ¬ (s.shared.value.isSome ∧ s.shared.exception.isSome)
  /-- A task that has returned has satisfied the promise. -/
  atLeast : s.phase = .promise → s.shared.producer.isRest →
    s.setValues + s.setExceptions = 1 ∧ s.shared.ready
  /-- A task that has not returned from the promise goes on towards it. -/
  proceeds : s.phase = .promise → s.shared.producer.isRest = false →
    ∃ l s', (l = .promise ∨ l = .callbackReturn .producer) ∧ next kind ndebug s l = some s' ∧
      s'.rank < s.rank
  /-- No step takes the task away from its end. -/
  bounded : ∀ l s', next kind ndebug s l = some s' → s'.rank ≤ s.rank
  /-- The continuation object is freed. -/
  freed : s.shared.destructor = .destroyed → s.shared.allocated → s.shared.frees = 1

/-! ### The Invariant -/

/-- The promise has been satisfied once at most, and what has been called
    is where the program counter says. -/
structure Good (kind : Specialisation T) (s : State T E) : Prop where
  inv : Future.Inv kind s.shared
  value : kind = .primary → s.shared.value.isSome → s.shared.producer.constructed.isSome
  waiting : s.phase ≠ .promise → s.shared.producer = .idle
  called : s.phase = .promise → s.shared.producer ≠ .idle
  held : s.phase = .callable → s.shared.producerDropped = false
  notThrown : s.shared.producer.threw = false
  values : s.setValues = if s.shared.producer.constructed.isSome then 1 else 0
  exceptions : s.setExceptions = if s.shared.producer.isException then 1 else 0

/-- The value was set and `set_exception` called. -/
def Broken (s : State T E) : Prop := 2 ≤ s.setValues + s.setExceptions

theorem good_initial (kind : Specialisation T) : Good kind (initial kind : State T E) where
  inv := Future.inv_initial kind
  value := by
    intro hkind
    subst hkind
    simp [initial, Future.initial]
  waiting := fun _ => rfl
  called := fun h => by simp [initial] at h
  held := fun _ => rfl
  notThrown := rfl
  values := rfl
  exceptions := rfl

variable {kind : Specialisation T} {ndebug : Bool} {s s' : State T E}

/-- The assertions hold, so that it does not matter whether they are
    compiled. -/
theorem Good.promiseStep_eq (hg : Good kind s) :
    promiseStep kind ndebug s.shared = Future.producerStep kind s.shared := by
  have hready := hg.inv.payload.ready
  unfold promiseStep Future.producerStep
  cases hpc : s.shared.producer with
  | svAssert v | seAssert e => cases kind <;> simp [hready, hpc]
  | _ => rfl

/-- What a step leaves alone that is not one of the promise side. -/
structure Keeps (s s' : Future.State T E) : Prop where
  constructed : s'.producer.constructed = s.producer.constructed
  isException : s'.producer.isException = s.producer.isException
  threw : s'.producer.threw = s.producer.threw
  idle : s'.producer = .idle ↔ s.producer = .idle
  rank : rankPC s'.producer ≤ rankPC s.producer
  value : s'.value.isSome → s.value.isSome

theorem keeps_of_eq {s s' : Future.State T E} (hp : s'.producer = s.producer)
    (hv : s'.value.isSome → s.value.isSome) : Keeps s s' := by
  refine ⟨?_, ?_, ?_, ?_, ?_, hv⟩ <;> simp only [hp, Nat.le_refl]

theorem keeps_destroyStep {s s' : Future.State T E} (hs : Future.destroyStep kind s = some s') :
    Keeps s s' := by
  apply keeps_of_eq (Future.destroyStep_producer hs)
  unfold Future.destroyStep at hs
  split at hs
  · split at hs
    · split at hs <;> cases hs <;> simp only <;> (try split) <;> simp
    · cases hs
  · split at hs <;> cases hs <;> exact id
  · cases hs
    exact id
  · cases hs

/-- The labels of the shared state that are not calls of the promise side. -/
def isOther : Future.Label T E → Bool
  | .callSetValue _ | .callSetException _ | .producer | .callbackThrow .producer => false
  | _ => true

theorem keeps_of_next [DecidableEq T] [DecidableEq E] {s s' : Future.State T E}
    {l : Future.Label T E} (hl : isOther l) (hs : Future.next kind s l = some s') :
    Keeps s s' := by
  cases l with
  | callSetValue | callSetException | producer => cases hl
  | callThen | dropProducer | dropConsumer =>
    simp only [Future.next, Option.ite_none_right_eq_some, Option.some.injEq] at hs
    obtain ⟨-, rfl⟩ := hs
    exact keeps_of_eq rfl id
  | consumer =>
    obtain ⟨hp, -, -, -, hv, -⟩ := Future.consumerStep_frame hs
    exact keeps_of_eq hp (by rw [hv]; exact id)
  | callbackReturn side =>
    cases side with
    | producer =>
      cases hp : s.producer <;> simp only [Future.next, hp, Option.some.injEq, reduceCtorEq] at hs
      subst hs
      constructor <;> simp [hp, ProducerPC.isException, ProducerPC.threw, rankPC]
    | consumer =>
      cases hc : s.consumer <;> simp only [Future.next, hc, Option.some.injEq, reduceCtorEq] at hs
      subst hs
      exact keeps_of_eq rfl id
  | callbackThrow side =>
    cases side with
    | producer => cases hl
    | consumer =>
      cases hc : s.consumer <;> simp only [Future.next, hc, Option.some.injEq, reduceCtorEq] at hs
      subst hs
      exact keeps_of_eq rfl id
  | destroy => exact keeps_destroyStep hs

theorem dropped_of_next [DecidableEq T] [DecidableEq E] {s s' : Future.State T E}
    {l : Future.Label T E} (hl : isOther l) (hdrop : l ≠ .dropProducer)
    (hs : Future.next kind s l = some s') : s'.producerDropped = s.producerDropped := by
  cases l with
  | callSetValue | callSetException | producer => cases hl
  | dropProducer => exact absurd rfl hdrop
  | callThen | dropConsumer =>
    simp only [Future.next, Option.ite_none_right_eq_some, Option.some.injEq] at hs
    obtain ⟨-, rfl⟩ := hs
    rfl
  | consumer => exact (Future.consumerStep_frame hs).2.1
  | callbackReturn side | callbackThrow side =>
    cases side with
    | producer =>
      cases hp : s.producer <;> simp only [Future.next, hp, Option.some.injEq, reduceCtorEq] at hs
      subst hs
      rfl
    | consumer =>
      cases hc : s.consumer <;> simp only [Future.next, hc, Option.some.injEq, reduceCtorEq] at hs
      subst hs
      rfl
  | destroy =>
    have hs' : Future.destroyStep kind s = some s' := hs
    unfold Future.destroyStep at hs'
    split at hs' <;> (try split at hs') <;> (try split at hs') <;> cases hs' <;> rfl

/-- A step of the future side, of the destructor or of the continuation. -/
theorem Good.other [DecidableEq T] [DecidableEq E] {l : Future.Label T E}
    {shared : Future.State T E} (hg : Good kind s) (hl : isOther l)
    (hdrop : l = .dropProducer → s.phase ≠ .callable)
    (hs : Future.next kind s.shared l = some shared) : Good kind (s.withShared shared) := by
  have hk := keeps_of_next hl hs
  have hcount : (s.withShared shared).setValues = s.setValues := by
    simp only [State.withShared, hk.constructed]
    cases s.shared.producer.constructed <;> rfl
  refine ⟨Future.inv_step hg.inv hs, ?_, ?_, ?_, ?_, ?_, ?_, ?_⟩
  · intro hkind hvalue
    rw [State.withShared, hk.constructed]
    exact hg.value hkind (hk.value hvalue)
  · intro hphase
    exact hk.idle.mpr (hg.waiting hphase)
  · intro hphase hidle
    exact hg.called hphase (hk.idle.mp hidle)
  · intro hphase
    have hkept := dropped_of_next hl (fun h => hdrop h hphase) hs
    exact hkept.trans (hg.held hphase)
  · exact hk.threw.trans hg.notThrown
  · rw [hcount, hg.values, State.withShared, hk.constructed]
  · exact hg.exceptions.trans (by rw [State.withShared, hk.isException])

/-! ### Steps of the Promise Side -/

/-- What a step of `set_value` or `set_exception` does to what was called. -/
structure Advances (s s' : Future.State T E) : Prop where
  constructed : s.producer.constructed.isSome → s'.producer.constructed.isSome
  value : s'.value.isSome → s.value.isSome ∨ s'.producer.constructed.isSome
  isException : s'.producer.isException = s.producer.isException
  threw : s'.producer.threw = false
  idle : s'.producer ≠ .idle
  rank : rankPC s'.producer < rankPC s.producer

theorem producerStep_advances {s s' : Future.State T E} (hready : s.ready = s.producer.published)
    (hs : Future.producerStep kind s = some s') : Advances s s' := by
  cases hpc : s.producer with
  | svAssert v =>
    simp only [hpc, ProducerPC.published] at hready
    simp only [Future.producerStep, hpc, hready, Bool.false_eq_true, if_false] at hs
    cases kind <;> cases hs <;> constructor <;>
      simp_all [ProducerPC.isException, ProducerPC.threw, rankPC]
  | seAssert e =>
    simp only [hpc, ProducerPC.published] at hready
    simp only [Future.producerStep, hpc, hready, Bool.false_eq_true, if_false] at hs
    cases hs
    constructor <;> simp_all [ProducerPC.isException, ProducerPC.threw, rankPC]
  | svExchange v | seExchange e =>
    simp only [Future.producerStep, hpc] at hs
    cases hslot : s.continuation <;> simp only [hslot, Option.some.injEq] at hs <;> subst hs <;>
      constructor <;> simp_all [ProducerPC.isException, ProducerPC.threw, rankPC]
  | svConstruct v | svReady v | svInvoke v | svDelete v | seStore e | seReady e | seDelete e =>
    simp only [Future.producerStep, hpc, Option.some.injEq] at hs
    subst hs
    constructor <;> simp_all [ProducerPC.isException, ProducerPC.threw, rankPC]
  | idle | svRunning v | svDone v | svThrew v | seDone e | aborted =>
    simp [Future.producerStep, hpc] at hs

/-- The promise side has no step of its own only at rest, after an abort and
    inside the continuation. -/
theorem producerStep_none {s : Future.State T E} (hs : Future.producerStep kind s = none) :
    s.producer.isRest ∨ s.producer = .aborted ∨ ∃ v, s.producer = .svRunning v := by
  cases hpc : s.producer with
  | svAssert v =>
    cases hready : s.ready <;> cases kind <;> simp [Future.producerStep, hpc, hready] at hs
  | seAssert e => cases hready : s.ready <;> simp [Future.producerStep, hpc, hready] at hs
  | svExchange v | seExchange e =>
    cases hslot : s.continuation <;> simp [Future.producerStep, hpc, hslot] at hs
  | svConstruct v | svReady v | svInvoke v | svDelete v | seStore e | seReady e | seDelete e =>
    simp [Future.producerStep, hpc] at hs
  | svRunning v => exact .inr (.inr ⟨v, rfl⟩)
  | aborted => exact .inr (.inl rfl)
  | idle | svDone v | svThrew v | seDone e => exact .inl rfl

/-- `set_value` or `set_exception` goes on. -/
theorem Good.promise (hg : Good kind s) {shared : Future.State T E}
    (hs : Future.producerStep kind s.shared = some shared) : Good kind (s.withShared shared) := by
  have had := producerStep_advances hg.inv.payload.ready hs
  obtain ⟨hpd, -⟩ := Future.producerStep_frame hs
  have hphase : s.phase = .promise := by
    by_contra hphase
    rw [Future.producerStep, hg.waiting hphase] at hs
    cases hs
  refine ⟨hg.inv.producerStep hs, ?_, fun h => absurd hphase h, fun _ => had.idle, ?_, had.threw,
    ?_, hg.exceptions.trans (by rw [State.withShared, had.isException])⟩
  · intro hkind hvalue
    obtain hold | hnew := had.value hvalue
    · exact had.constructed (hg.value hkind hold)
    · exact hnew
  · intro hcall
    exact absurd (hphase.symm.trans hcall) (by decide)
  · have hvalues := hg.values
    have hmono := had.constructed
    show (if s.shared.producer.constructed.isNone && shared.producer.constructed.isSome then
      s.setValues + 1 else s.setValues) = if shared.producer.constructed.isSome then 1 else 0
    generalize s.shared.producer.constructed = old at hvalues hmono ⊢
    generalize shared.producer.constructed = new at hmono ⊢
    cases old <;> cases new <;> simp_all

/-- The handler is entered while the promise is not satisfied. -/
theorem Good.handle (hg : Good kind s) {e : E}
    (hpc : s.phase = .callable ∨ ∃ v, s.shared.producer = .svConstruct v) :
    Good kind (s.handle e) := by
  -- inside the callable the promise is untouched, and the task holds it
  have hpc' : s.shared.producer = .idle ∧ s.shared.producerDropped = false ∨
      ∃ v, s.shared.producer = .svConstruct v := by
    refine hpc.imp_left fun hphase => ?_
    exact ⟨hg.waiting (by simp [hphase]), hg.held hphase⟩
  have hdropped : s.shared.producerDropped = false := by
    obtain ⟨-, hheld⟩ | ⟨v, hv⟩ := hpc'
    · exact hheld
    · exact hg.inv.refs.held_of_producer (by simp [hv, ProducerPC.isRest])
  have hinv : Future.Inv kind { s.shared with producer := .seAssert e } := by
    apply hg.inv.setProducer hdropped <;> obtain ⟨hidle, -⟩ | ⟨v, hv⟩ := hpc' <;> simp [*]
  have hnone : s.shared.producer.constructed = none := by
    obtain ⟨hidle, -⟩ | ⟨v, hv⟩ := hpc' <;> simp [*]
  have hexc : s.shared.producer.isException = false := by
    obtain ⟨hidle, -⟩ | ⟨v, hv⟩ := hpc' <;> simp [*, ProducerPC.isException]
  have hvalues := hg.values
  have hexceptions := hg.exceptions
  refine ⟨hinv, ?_, by simp [State.handle], by simp [State.handle], by simp [State.handle], rfl,
    ?_, ?_⟩
  · intro hkind hvalue
    have hsome := hg.value hkind hvalue
    rw [hnone] at hsome
    cases hsome
  · rw [hnone] at hvalues
    exact hvalues
  · rw [hexc] at hexceptions
    show s.setExceptions + 1 = 1
    rw [hexceptions]
    rfl

/-! ### Every Run -/

section Runs

variable [DecidableEq T] [DecidableEq E] {l : Label T E} {tr : List (Label T E)}

/-- The continuation does not throw out of `set_value`. -/
def Returns (l : Label T E) : Prop := ∀ e, l ≠ .callbackThrow .producer e

/-- The steps that the shared state takes without the promise side. -/
theorem Good.lift {l' : Future.Label T E} (hg : Good kind s) (hl : isOther l')
    (hdrop : l' = .dropProducer → s.phase ≠ .callable)
    (hs : (Future.next kind s.shared l').map s.withShared = some s') : Good kind s' := by
  obtain ⟨shared, hshared, rfl⟩ := Option.map_eq_some_iff.mp hs
  exact hg.other hl hdrop hshared

/-- **Step of the invariant**, if the continuation returns. -/
theorem Good.step (hg : Good kind s) (hok : Returns l) (hs : next kind ndebug s l = some s') :
    Good kind s' := by
  cases l with
  | run =>
    simp only [next, Option.ite_none_right_eq_some, Option.some.injEq] at hs
    obtain ⟨⟨hqueued, hheld⟩, rfl⟩ := hs
    have hidle := hg.waiting (by simp [hqueued])
    exact ⟨hg.inv, hg.value, fun _ => hidle, by simp, fun _ => hheld, hg.notThrown, hg.values,
      hg.exceptions⟩
  | callableReturn v =>
    simp only [next, Option.ite_none_right_eq_some, Option.some.injEq] at hs
    obtain ⟨⟨hphase, haccepts⟩, rfl⟩ := hs
    have hidle := hg.waiting (by simp [hphase])
    have hvalues := hg.values
    have hexceptions := hg.exceptions
    have hvalue := hg.value
    rw [hidle] at hvalues hexceptions hvalue
    refine ⟨?_, hvalue, by simp, by simp, by simp, rfl, hvalues, hexceptions⟩
    apply hg.inv.setProducer (hg.held hphase) <;> try simp [hidle]
    intro u hkind
    simpa [hkind, Specialisation.accepts] using haccepts
  | callableThrow e =>
    simp only [next, Option.ite_none_right_eq_some, Option.some.injEq] at hs
    obtain ⟨hphase, rfl⟩ := hs
    exact hg.handle (.inl hphase)
  | promise =>
    simp only [next, hg.promiseStep_eq] at hs
    obtain ⟨shared, hshared, rfl⟩ := Option.map_eq_some_iff.mp hs
    exact hg.promise hshared
  | moveThrow e =>
    simp only [next] at hs
    split at hs
    · next v hpc =>
      rw [← Option.some.inj hs]
      exact hg.handle (.inr ⟨v, hpc⟩)
    · cases hs
  | callbackThrow side e =>
    cases side with
    | producer => exact absurd rfl (hok e)
    | consumer => exact hg.lift rfl (by simp) hs
  | dropPromise =>
    simp only [next, Option.ite_none_left_eq_some] at hs
    exact hg.lift rfl (fun _ => hs.1) hs.2
  | callbackReturn | callThen | consumer | dropFuture | destroy =>
    exact hg.lift rfl (by simp) hs

/-! ### A Satisfied Promise That Is Satisfied Again -/

/-- The counts only grow. -/
theorem counts_le (hs : next kind ndebug s l = some s') :
    s.setValues + s.setExceptions ≤ s'.setValues + s'.setExceptions := by
  have hshared : ∀ {o : Option (Future.State T E)}, o.map s.withShared = some s' →
      s.setValues + s.setExceptions ≤ s'.setValues + s'.setExceptions := by
    intro o ho
    obtain ⟨shared, -, rfl⟩ := Option.map_eq_some_iff.mp ho
    simp only [State.withShared]
    split <;> omega
  have hhandle : ∀ e, s.setValues + s.setExceptions ≤
      (s.handle e).setValues + (s.handle e).setExceptions := by
    intro e
    show s.setValues + s.setExceptions ≤ s.setValues + (s.setExceptions + 1)
    omega
  cases l with
  | run | callableReturn v =>
    simp only [next, Option.ite_none_right_eq_some, Option.some.injEq] at hs
    obtain ⟨-, rfl⟩ := hs
    exact Nat.le_refl _
  | callableThrow e =>
    simp only [next, Option.ite_none_right_eq_some, Option.some.injEq] at hs
    obtain ⟨-, rfl⟩ := hs
    exact hhandle e
  | moveThrow e =>
    simp only [next] at hs
    split at hs <;> cases hs
    exact hhandle e
  | callbackThrow side e =>
    cases side with
    | producer =>
      simp only [next] at hs
      split at hs <;> cases hs
      exact hhandle e
    | consumer => exact hshared hs
  | dropPromise =>
    simp only [next, Option.ite_none_left_eq_some] at hs
    exact hshared hs.2
  | promise | callbackReturn | callThen | consumer | dropFuture | destroy => exact hshared hs

/-- A continuation that throws out of `set_value` leaves a value set and
    `set_exception` called. -/
theorem Good.broken {e : E} (hg : Good kind s)
    (hs : next kind ndebug s (.callbackThrow .producer e) = some s') : Broken s' := by
  simp only [next] at hs
  split at hs
  · next v hpc =>
    have hvalues := hg.values
    rw [hpc] at hvalues
    rw [← Option.some.inj hs]
    show 2 ≤ s.setValues + (s.setExceptions + 1)
    rw [hvalues]
    simp only [ProducerPC.constructed, Option.isSome_some, if_true]
    omega
  · cases hs

theorem good_or_broken (hrun : (system T E kind ndebug).Run tr s) : Good kind s ∨ Broken s := by
  apply hrun.invariant (P := fun s => Good kind s ∨ Broken s)
  · intro s hs
    have hs' : s = initial kind := hs
    subst hs'
    exact .inl (good_initial kind)
  · intro s l s' h hs
    obtain hg | hb := h
    -- broken is broken for good, since the counts only grow
    · by_cases hok : Returns l
      · exact .inl (hg.step hok hs)
      · obtain ⟨e, rfl⟩ : ∃ e, l = .callbackThrow .producer e := by simpa [Returns] using hok
        exact .inr (hg.broken hs)
    · have hle := counts_le hs
      exact .inr (Nat.le_trans hb hle)

/-! ### The Contract -/

/-- No step takes the task further from its end. -/
theorem Good.rank_le (hg : Good kind s) (hs : next kind ndebug s l = some s') :
    s'.rank ≤ s.rank := by
  have hother : ∀ {l' : Future.Label T E}, isOther l' →
      (Future.next kind s.shared l').map s.withShared = some s' → s'.rank ≤ s.rank := by
    intro l' hl hs
    obtain ⟨shared, hshared, rfl⟩ := Option.map_eq_some_iff.mp hs
    have hrank := (keeps_of_next hl hshared).rank
    unfold State.rank State.withShared
    cases s.phase
    · exact Nat.le_refl _
    · exact Nat.le_refl _
    · exact hrank
  cases l with
  | run =>
    simp only [next, Option.ite_none_right_eq_some, Option.some.injEq] at hs
    obtain ⟨⟨hphase, -⟩, rfl⟩ := hs
    simp [State.rank, hphase]
  | callableReturn v | callableThrow e =>
    simp only [next, Option.ite_none_right_eq_some, Option.some.injEq] at hs
    obtain ⟨hphase, rfl⟩ := hs
    simp [State.rank, State.handle, hphase, rankPC]
  | promise =>
    simp only [next, hg.promiseStep_eq] at hs
    obtain ⟨shared, hshared, rfl⟩ := Option.map_eq_some_iff.mp hs
    have hrank := (producerStep_advances hg.inv.payload.ready hshared).rank
    unfold State.rank State.withShared
    cases s.phase
    · exact Nat.le_refl _
    · exact Nat.le_refl _
    · exact Nat.le_of_lt hrank
  | moveThrow e =>
    simp only [next] at hs
    split at hs
    · next v hpc =>
      rw [← Option.some.inj hs]
      unfold State.rank State.handle
      cases s.phase <;> simp [hpc, rankPC]
    · cases hs
  | callbackThrow side e =>
    cases side with
    | producer =>
      simp only [next] at hs
      split at hs
      · next v hpc =>
        rw [← Option.some.inj hs]
        unfold State.rank State.handle
        cases s.phase <;> simp [hpc, rankPC]
      · cases hs
    | consumer => exact hother rfl hs
  | dropPromise =>
    simp only [next, Option.ite_none_left_eq_some] at hs
    exact hother rfl hs.2
  | callbackReturn | callThen | consumer | dropFuture | destroy => exact hother rfl hs

/-- A promise call that has not returned has a next step, or waits for the
    continuation. -/
theorem Good.proceeds (hg : Good kind s) (hphase : s.phase = .promise)
    (hrest : s.shared.producer.isRest = false) :
    ∃ l s', (l = .promise ∨ l = .callbackReturn .producer) ∧ next kind ndebug s l = some s' ∧
      s'.rank < s.rank := by
  have hrank : ∀ shared : Future.State T E,
      (s.withShared shared).rank = rankPC shared.producer := by
    intro shared
    simp [State.rank, State.withShared, hphase]
  have hrank' : s.rank = rankPC s.shared.producer := by simp [State.rank, hphase]
  cases hstep : Future.producerStep kind s.shared with
  | some shared =>
    refine ⟨.promise, s.withShared shared, .inl rfl, ?_, ?_⟩
    · simp only [next, hg.promiseStep_eq, hstep, Option.map_some]
    · rw [hrank, hrank']
      exact (producerStep_advances hg.inv.payload.ready hstep).rank
  | none =>
    -- the promise side is inside the continuation: the ledger has no abort
    obtain ⟨v, hv⟩ : ∃ v, s.shared.producer = .svRunning v := by
      obtain hrest' | habort | hrunning := producerStep_none hstep
      · rw [hrest] at hrest'
        cases hrest'
      · obtain ⟨deleted, hl, -⟩ := hg.inv.ledger
        simp [habort] at hl
      · exact hrunning
    refine ⟨.callbackReturn .producer,
      s.withShared { s.shared with producer := .svDelete v }, .inr rfl, ?_, ?_⟩
    · simp only [next, Future.next, hv, Option.map_some]
    · rw [hrank, hrank', hv]
      show 1 < 6
      decide

theorem Good.once (hg : Good kind s) : Once kind ndebug s where
  atMost := by
    rw [hg.values, hg.exceptions]
    cases hpc : s.shared.producer <;> simp [ProducerPC.isException]
  assertion := by
    obtain ⟨deleted, hl, -⟩ := hg.inv.ledger
    rw [hg.inv.payload.ready]
    cases hpc : s.shared.producer <;> simp_all [asserts]
  exclusive := by
    rintro hkind ⟨hvalue, hexception⟩
    have hconstructed := hg.value hkind hvalue
    rw [hg.inv.payload.exception] at hexception
    cases hpc : s.shared.producer <;> simp_all
  atLeast := by
    intro hphase hrest
    have hcalled := hg.called hphase
    have hthrown := hg.notThrown
    rw [hg.values, hg.exceptions, hg.inv.payload.ready]
    cases hpc : s.shared.producer <;>
      simp_all [ProducerPC.isException, ProducerPC.isRest, ProducerPC.threw]
  proceeds := hg.proceeds
  bounded := fun _ _ => hg.rank_le
  freed := by
    intro hdestroyed hallocated
    rw [hg.inv.frees_of_destroyed hdestroyed]
    simp [hallocated, hg.notThrown]

/-- **One satisfaction.** For every callable and every continuation, and
    for every order of the steps of the task, of `then` and of the two
    destructors: the promise keeps its contract at every moment of a run if
    and only if no continuation throws out of `set_value` in it. -/
theorem once_iff (hrun : (system T E kind ndebug).Run tr s) :
    (∀ tr' s', tr' <+: tr → (system T E kind ndebug).Run tr' s' → Once kind ndebug s') ↔
      ∀ e, .callbackThrow .producer e ∉ tr := by
  have hrestrict : ((system T E kind ndebug).restrict fun _ => Returns).Run tr s ↔
      ∀ e, .callbackThrow .producer e ∉ tr := by
    rw [System.Run.restrict_labels_iff]
    constructor
    · intro h e hmem
      exact h.2 _ hmem e rfl
    · intro hno
      refine ⟨hrun, ?_⟩
      rintro l hl e rfl
      exact hno e hl
  rw [← hrestrict]
  -- the first step out of the contract is the first that is not allowed
  apply (System.deterministic_ofNext _ _).always_iff _ _ hrun
  · intro s hs
    have hs' : s = initial kind := hs
    subst hs'
    exact (good_initial kind).once
  · intro s l s' hreach honce hs
    obtain ⟨tr₀, hrun₀⟩ := hreach
    have hg : Good kind s := by
      obtain hg | hb := good_or_broken hrun₀
      · exact hg
      · exact absurd hb (Nat.not_le.mpr (Nat.lt_succ_of_le honce.atMost))
    constructor
    · rintro honce' e rfl
      exact absurd (hg.broken hs) (Nat.not_le.mpr (Nat.lt_succ_of_le honce'.atMost))
    · intro hok
      exact (hg.step hok hs).once

end Runs

/-! ### Two Runs -/

/-- A continuation is attached, the callable returns 7, `set_value` calls
    the continuation, which ends with `l`. -/
def attachedThenRun (l : Label ℕ ℕ) : List (Label ℕ ℕ) :=
  [.callThen, .consumer, .run, .callableReturn 7, .promise, .promise, .promise, .promise, .promise,
    l, .promise]

theorem attachedThenRun_once :
    ∃ s : State ℕ ℕ, (system ℕ ℕ .primary false).Run
        (attachedThenRun (.callbackReturn .producer)) s ∧
      s.shared.producer = .svDone 7 ∧ Once .primary false s := by
  have hexec : (System.exec (next .primary false) (initial .primary)
      (attachedThenRun (.callbackReturn .producer))).map (fun s => s.shared.producer) =
        some (.svDone 7) := by decide
  obtain ⟨s, hrun, hpc⟩ := System.exists_run_of_exec hexec
  refine ⟨s, hrun, hpc, (once_iff hrun).mpr ?_ _ s List.prefix_rfl hrun⟩
  intro e
  simp [attachedThenRun]

/-- The continuation throws 3: with assertions the program aborts. -/
theorem throwing_continuation_aborts :
    ¬ ∀ (ndebug : Bool) (tr : List (Label ℕ ℕ)) (s : State ℕ ℕ),
      (system ℕ ℕ .primary ndebug).Run tr s → Once .primary ndebug s := by
  intro hall
  have hexec : (System.exec (next .primary false) (initial .primary)
      (attachedThenRun (.callbackThrow .producer 3))).map (fun s => s.shared.producer) =
        some .aborted := by decide
  obtain ⟨s, hrun, hpc⟩ := System.exists_run_of_exec hexec
  exact (hall false _ s hrun).assertion.2 hpc

/-- Without assertions the value and the exception are both set, and the
    continuation object is lost. -/
example : (System.exec (next .primary true) (initial .primary)
    (attachedThenRun (.callbackThrow .producer 3) ++ [Label.promise, .promise, .promise,
      .dropPromise, .dropFuture, .destroy, .destroy])).map (fun s =>
        (s.shared.value, s.shared.exception, s.shared.destructor, s.shared.allocated,
          s.shared.frees)) = some (some 7, some 3, .destroyed, true, 0) := by
  decide

end Forge.TaskPromise
