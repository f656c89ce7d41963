import Forge.Framework.System
import Mathlib.Tactic.Common

/-! # Promise and Future — Model

  One `SharedState<T>` (`core/future.h`) with the promise on one side
  and the future on the other. The promise side runs one `set_value` or
  one `set_exception`, the future side at most one `then`; each side
  drops its reference when it is done with it, and `~SharedState` runs
  when both have.

  Every access to `ready_`, `continuation_`, `exception_` and the value
  storage is one step, and so are the call of the continuation, its end
  (it returns or throws) and every `delete`. Since `then` is called at
  most once there is one continuation object; `frees` counts its
  deletions.

  `SharedState<void>` has no value storage: `set_value()` constructs
  nothing and the destructor destroys nothing. A continuation without an
  argument is one that is given the only value of a one-element type.
-/

open LTS

namespace Forge.Future

/-- Which class template is used: the primary one, or the specialisation
    for `void`, whose payload is represented by `unit`. -/
inductive Specialisation (T : Type*) where
  | primary
  | void (unit : T)

/-- `continuation_`: null, the sentinel, or the continuation object. -/
inductive Slot where
  | null
  | sentinel
  | cont
  deriving DecidableEq

/-- Where the promise side is. -/
inductive ProducerPC (T E : Type*) where
  | idle
  /-- `set_value`: `assert(!ready_)`. -/
  | svAssert (v : T)
  /-- `set_value`: construct the value. -/
  | svConstruct (v : T)
  /-- `set_value`: store `ready_`. -/
  | svReady (v : T)
  /-- `set_value`: exchange `continuation_` with the sentinel. -/
  | svExchange (v : T)
  /-- `set_value`: a continuation was there; call it. -/
  | svInvoke (v : T)
  /-- `set_value`: the continuation is running. -/
  | svRunning (v : T)
  /-- `set_value`: `delete prev`. -/
  | svDelete (v : T)
  | svDone (v : T)
  /-- `set_value` was left by an exception of the continuation. -/
  | svThrew (v : T)
  /-- `set_exception`: `assert(!ready_)`. -/
  | seAssert (e : E)
  /-- `set_exception`: store `exception_`. -/
  | seStore (e : E)
  /-- `set_exception`: store `ready_`. -/
  | seReady (e : E)
  /-- `set_exception`: exchange `continuation_` with the sentinel. -/
  | seExchange (e : E)
  /-- `set_exception`: `delete prev`. -/
  | seDelete (e : E)
  | seDone (e : E)
  /-- "Promise already satisfied". -/
  | aborted
  deriving DecidableEq

/-- Where the future side is. -/
inductive ConsumerPC where
  | idle
  /-- `then`: the continuation is allocated; exchange `continuation_`. -/
  | thExchange
  /-- `then`: the sentinel was there; test `exception_`. -/
  | thCheck
  /-- `then`: call the continuation. -/
  | thInvoke
  /-- `then`: the continuation is running. -/
  | thRunning
  /-- `then`: `delete cont`. -/
  | thDelete
  /-- `then`: store the sentinel. -/
  | thStore
  | thDone
  /-- `then` was left by an exception of the continuation. -/
  | thThrew
  deriving DecidableEq

/-- Where `~SharedState` is. -/
inductive DestructorPC where
  | notStarted
  /-- Load `continuation_`. -/
  | loadCont
  /-- `delete c`. -/
  | delete
  | destroyed
  deriving DecidableEq

/-- The two sides that may run the continuation. -/
inductive Side where
  | producer
  | consumer
  deriving DecidableEq

/-! ### State -/

/-- The shared state and its users. -/
structure State (T E : Type*) where
  /-- The value storage; `none` while nothing is constructed in it. -/
  value : Option T
  exception : Option E
  ready : Bool
  continuation : Slot
  /-- `then` has allocated the continuation object. -/
  allocated : Bool
  /-- How often the continuation object was deleted. -/
  frees : ℕ
  /-- What the value storage held at each call of the continuation. -/
  runs : List (Option T)
  producer : ProducerPC T E
  consumer : ConsumerPC
  /-- The promise has dropped its reference. -/
  producerDropped : Bool
  /-- The future has dropped its reference. -/
  consumerDropped : Bool
  destructor : DestructorPC

/-- The steps. -/
inductive Label (T E : Type*) where
  | callSetValue (v : T)
  | callSetException (e : E)
  | producer
  | callThen
  | consumer
  /-- The continuation returns to the side that called it. -/
  | callbackReturn (side : Side)
  /-- The continuation throws. -/
  | callbackThrow (side : Side)
  | dropProducer
  | dropConsumer
  | destroy
  deriving DecidableEq

variable {T E : Type*}

/-- `Promise()` and `get_future()`. -/
def initial (kind : Specialisation T) : State T E where
  value := match kind with
    | .primary => none
    | .void u => some u
  exception := none
  ready := false
  continuation := .null
  allocated := false
  frees := 0
  runs := []
  producer := .idle
  consumer := .idle
  producerDropped := false
  consumerDropped := false
  destructor := .notStarted

/-! ### Steps -/

/-- The next step of `set_value` or `set_exception`. -/
def producerStep (kind : Specialisation T) (s : State T E) : Option (State T E) :=
  match s.producer with
  | .svAssert v =>
      if s.ready then some { s with producer := .aborted }
      else match kind with
        | .primary => some { s with producer := .svConstruct v }
        | .void _ => some { s with producer := .svReady v }
  | .svConstruct v => some { s with value := some v, producer := .svReady v }
  | .svReady v => some { s with ready := true, producer := .svExchange v }
  | .svExchange v =>
      match s.continuation with
      | .cont => some { s with continuation := .sentinel, producer := .svInvoke v }
      | .null | .sentinel => some { s with continuation := .sentinel, producer := .svDone v }
  | .svInvoke v => some { s with runs := s.runs ++ [s.value], producer := .svRunning v }
  | .svDelete v => some { s with frees := s.frees + 1, producer := .svDone v }
  | .seAssert e =>
      if s.ready then some { s with producer := .aborted }
      else some { s with producer := .seStore e }
  | .seStore e => some { s with exception := some e, producer := .seReady e }
  | .seReady e => some { s with ready := true, producer := .seExchange e }
  | .seExchange e =>
      match s.continuation with
      | .cont => some { s with continuation := .sentinel, producer := .seDelete e }
      | .null | .sentinel => some { s with continuation := .sentinel, producer := .seDone e }
  | .seDelete e => some { s with frees := s.frees + 1, producer := .seDone e }
  | .idle | .svRunning _ | .svDone _ | .svThrew _ | .seDone _ | .aborted => none

/-- The next step of `then`. -/
def consumerStep (s : State T E) : Option (State T E) :=
  match s.consumer with
  | .thExchange =>
      match s.continuation with
      | .sentinel => some { s with continuation := .cont, consumer := .thCheck }
      | .null | .cont => some { s with continuation := .cont, consumer := .thDone }
  | .thCheck =>
      match s.exception with
      | none => some { s with consumer := .thInvoke }
      | some _ => some { s with consumer := .thDelete }
  | .thInvoke => some { s with runs := s.runs ++ [s.value], consumer := .thRunning }
  | .thDelete => some { s with frees := s.frees + 1, consumer := .thStore }
  | .thStore => some { s with continuation := .sentinel, consumer := .thDone }
  | .idle | .thRunning | .thDone | .thThrew => none

/-- The next step of `~SharedState`, once both references are gone. -/
def destroyStep (kind : Specialisation T) (s : State T E) : Option (State T E) :=
  match s.destructor with
  | .notStarted =>
      if s.producerDropped && s.consumerDropped then
        match kind with
        | .primary =>
            some { s with
              value := if s.ready && s.exception.isNone then none else s.value
              destructor := .loadCont }
        | .void _ => some { s with destructor := .loadCont }
      else none
  | .loadCont =>
      match s.continuation with
      | .cont => some { s with destructor := .delete }
      | .null | .sentinel => some { s with destructor := .destroyed }
  | .delete => some { s with frees := s.frees + 1, destructor := .destroyed }
  | .destroyed => none

/-- The payload `set_value` is called with: any value, or nothing. -/
def Specialisation.accepts [DecidableEq T] : Specialisation T → T → Bool
  | .primary, _ => true
  | .void u, v => v = u

/-- The promise side is between calls. -/
def ProducerPC.isRest : ProducerPC T E → Bool
  | .idle | .svDone _ | .svThrew _ | .seDone _ => true
  | _ => false

/-- The future side is between calls. -/
def ConsumerPC.isRest : ConsumerPC → Bool
  | .idle | .thDone | .thThrew => true
  | _ => false

/-- The step function. -/
def next [DecidableEq T] [DecidableEq E] (kind : Specialisation T) (s : State T E) :
    Label T E → Option (State T E)
  | .callSetValue v =>
      if s.producer = .idle ∧ s.producerDropped = false ∧ kind.accepts v then
        some { s with producer := .svAssert v }
      else none
  | .callSetException e =>
      if s.producer = .idle ∧ s.producerDropped = false then
        some { s with producer := .seAssert e }
      else none
  | .producer => producerStep kind s
  | .callThen =>
      if s.consumer = .idle ∧ s.consumerDropped = false then
        -- `new Cont(std::move(callback))`
        some { s with allocated := true, consumer := .thExchange }
      else none
  | .consumer => consumerStep s
  | .callbackReturn .producer =>
      match s.producer with
      | .svRunning v => some { s with producer := .svDelete v }
      | _ => none
  | .callbackReturn .consumer =>
      match s.consumer with
      | .thRunning => some { s with consumer := .thDelete }
      | _ => none
  | .callbackThrow .producer =>
      match s.producer with
      | .svRunning v => some { s with producer := .svThrew v }
      | _ => none
  | .callbackThrow .consumer =>
      match s.consumer with
      | .thRunning => some { s with consumer := .thThrew }
      | _ => none
  | .dropProducer =>
      if s.producer.isRest ∧ s.producerDropped = false then
        some { s with producerDropped := true }
      else none
  | .dropConsumer =>
      if s.consumer.isRest ∧ s.consumerDropped = false then
        some { s with consumerDropped := true }
      else none
  | .destroy => destroyStep kind s

/-- One shared state with its two sides. -/
def system (T E : Type*) [DecidableEq T] [DecidableEq E] (kind : Specialisation T) :
    System (State T E) (Label T E) :=
  .ofNext (initial kind) (next kind)

end Forge.Future
