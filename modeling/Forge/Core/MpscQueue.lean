import Forge.Framework.System
import Mathlib.Data.List.Infix
import Mathlib.Logic.Function.Basic
import Mathlib.Tactic.Common

/-! # The Multi-Producer Single-Consumer Queue — Model

  `MPSCQueue<T>` (`core/mpsc_queue.h`), a linked list with a sentinel
  node. A `push` allocates a node, exchanges `head_` with it and then
  links the previous head to it: between the last two steps the list is
  broken behind the previous head. The single consumer follows `next`
  from the sentinel `tail_`, moves the value out of the next node, which
  becomes the sentinel, and deletes the old one.

  Nodes are numbered in the order of their allocation; a number stands
  for one node object, so it is never used again after `delete`. The two
  history variables `exchanged` and `popped` record the nodes and values
  in the order of the `head_` exchanges and of the returning pops; no
  step of the queue reads them.
-/

open LTS

namespace Forge.MpscQueue

/-! ### Threads -/

/-- Where a producer is inside `push`. -/
inductive ProducerPC (T : Type*) where
  | idle
  /-- The node is allocated; exchange `head_`. -/
  | exchange (node : ℕ) (value : T)
  /-- Store `prev->next = node`. -/
  | link (prev node : ℕ)
  | pushReturn
  deriving DecidableEq

/-- Where the consumer is inside `pop`. -/
inductive ConsumerPC (T : Type*) where
  | idle
  /-- Load `tail_->next`. -/
  | loadNext
  /-- Store `tail_ = next`. -/
  | advance (tail next : ℕ)
  /-- Move `next->value` out. -/
  | take (tail next : ℕ)
  /-- `delete tail`. -/
  | free (tail next : ℕ) (value : Option T)
  | popReturn (node : ℕ) (value : Option T)
  deriving DecidableEq

/-! ### State -/

/-- The list, the nodes on the heap and the threads. -/
structure State (T Producer : Type*) where
  head : ℕ
  tail : ℕ
  next : ℕ → Option ℕ
  /-- The value in a node; `none` in the sentinel and once moved out. -/
  value : ℕ → Option T
  /-- Allocated and not deleted. -/
  alive : ℕ → Bool
  /-- The next node `new Node` returns. -/
  fresh : ℕ
  producer : Producer → ProducerPC T
  consumer : ConsumerPC T
  /-- History: the nodes and values in the order of the exchanges. -/
  exchanged : List (ℕ × T)
  /-- History: the nodes and values in the order they were returned. -/
  popped : List (ℕ × T)

/-- The steps: calls, returns, and the next access of a running call. -/
inductive Label (T Producer : Type*) where
  | callPush (p : Producer) (value : T)
  | producer (p : Producer)
  | retPush (p : Producer)
  | callPop
  | consumer
  | retPop (result : Option T)

variable {T Producer : Type*}

/-- The constructor: one sentinel node. -/
def initial : State T Producer where
  head := 0
  tail := 0
  next := fun _ => none
  value := fun _ => none
  alive := fun x => x == 0
  fresh := 1
  producer := fun _ => .idle
  consumer := .idle
  exchanged := []
  popped := []

/-! ### Steps -/

/-- The next access of producer `p` inside `push`. -/
def producerStep [DecidableEq Producer] (s : State T Producer) (p : Producer) :
    Option (State T Producer) :=
  match s.producer p with
  | .exchange node v =>
      some { s with
        head := node
        exchanged := s.exchanged ++ [(node, v)]
        producer := Function.update s.producer p (.link s.head node) }
  | .link prev node =>
      some { s with
        next := Function.update s.next prev (some node)
        producer := Function.update s.producer p .pushReturn }
  | .idle | .pushReturn => none

/-- The next access of the consumer inside `pop`. -/
def consumerStep (s : State T Producer) : Option (State T Producer) :=
  match s.consumer with
  | .loadNext =>
      match s.next s.tail with
      | none => some { s with consumer := .popReturn s.tail none }
      | some nxt => some { s with consumer := .advance s.tail nxt }
  | .advance tail nxt => some { s with tail := nxt, consumer := .take tail nxt }
  | .take tail nxt =>
      some { s with
        value := Function.update s.value nxt none
        consumer := .free tail nxt (s.value nxt) }
  | .free tail nxt v =>
      some { s with
        alive := Function.update s.alive tail false
        consumer := .popReturn nxt v }
  | .idle | .popReturn _ _ => none

/-- What a returning `pop` adds to the history. -/
def delivered (node : ℕ) : Option T → List (ℕ × T)
  | none => []
  | some v => [(node, v)]

/-- The step function. -/
def next [DecidableEq T] [DecidableEq Producer] (s : State T Producer) :
    Label T Producer → Option (State T Producer)
  | .callPush p v =>
      if s.producer p = .idle then
        -- `new Node(std::move(value))`
        some { s with
          next := Function.update s.next s.fresh none
          value := Function.update s.value s.fresh (some v)
          alive := Function.update s.alive s.fresh true
          fresh := s.fresh + 1
          producer := Function.update s.producer p (.exchange s.fresh v) }
      else none
  | .producer p => producerStep s p
  | .retPush p =>
      if s.producer p = .pushReturn then
        some { s with producer := Function.update s.producer p .idle }
      else none
  | .callPop =>
      if s.consumer = .idle then some { s with consumer := .loadNext } else none
  | .consumer => consumerStep s
  | .retPop r =>
      match s.consumer with
      | .popReturn node v =>
          if v = r then
            some { s with consumer := .idle, popped := s.popped ++ delivered node v }
          else none
      | _ => none

/-- The queue with its producers and its consumer. -/
def system (T Producer : Type*) [DecidableEq T] [DecidableEq Producer] :
    System (State T Producer) (Label T Producer) :=
  .ofNext initial next

/-! ### `pop` as one call

    The consumer alone, from the call to the return of `pop`, and the
    drain loop `while (pop().has_value())` of the destructor. -/

/-- `pop()` run without interference. -/
def pop (s : State T Producer) : Option T × State T Producer :=
  match s.next s.tail with
  | none => (none, s)
  | some nxt =>
      (s.value nxt, { s with
        tail := nxt
        value := Function.update s.value nxt none
        alive := Function.update s.alive s.tail false
        popped := s.popped ++ delivered nxt (s.value nxt) })

/-- Pop until `nullopt`, at most `fuel` times; `none` if the last pop
    still returned a value. -/
def drain : ℕ → State T Producer → Option (List T)
  | 0, _ => none
  | fuel + 1, s =>
      match pop s with
      | (none, _) => some []
      | (some v, s') => (drain fuel s').map (v :: ·)

/-- `pop` is what the consumer's steps do when nobody interferes. -/
theorem exec_pop [DecidableEq T] [DecidableEq Producer] {s : State T Producer}
    (hidle : s.consumer = .idle) :
    ∃ tr, System.exec next s tr = some (pop s).2 ∧ .retPop (pop s).1 ∈ tr ∧
      ∀ l ∈ tr, l = .callPop ∨ l = .consumer ∨ l = .retPop (pop s).1 := by
  obtain ⟨head, tail, nx, value, alive, fresh, producer, consumer, exchanged, popped⟩ := s
  simp only at hidle
  subst hidle
  cases hnext : nx tail with
  | none =>
    refine ⟨[.callPop, .consumer, .retPop none], ?_, ?_, ?_⟩ <;>
      simp [System.exec, next, consumerStep, pop, hnext, delivered]
  | some nxt =>
    refine ⟨[.callPop, .consumer, .consumer, .consumer, .consumer, .retPop (value nxt)],
      ?_, ?_, ?_⟩ <;>
      simp [System.exec, next, consumerStep, pop, hnext]

end Forge.MpscQueue
