import Forge.Framework.System
import Mathlib.Algebra.Order.Group.Unbundled.Int
import Mathlib.Tactic.Common

/-! # The Work-Stealing Deque — Model

  `WorkStealingDeque<T>` (`core/work_stealing_deque.h`), a Chase-Lev
  deque: one owner thread pushes and pops at the bottom, any number of
  thief threads steal from the top.

  Every atomic load, store and compare-exchange is one step of a
  sequentially consistent memory; what lies between two of them is local
  to the thread and belongs to the earlier step. `push` copies slot by
  slot when it grows the buffer, so a thief may run between any two
  copies. A call and its return are steps of their own, so that the
  client's view of the deque is a history of calls and returns.

  Indices are unbounded integers: `top_` and `bottom_` are `int64_t`
  counters that only wrap after 2^63 pushes. Buffers are heap objects;
  growth retires a buffer to `old_buffers_` and none is freed while the
  deque lives, so a heap address stays valid once it is handed out.
-/

open LTS

namespace Forge.WorkStealingDeque

/-! ### The circular buffer -/

/-- `CircularBuffer`: `cap_` slots, of which only `0 ≤ i < cap_` are used. -/
structure CircularBuffer (T : Type*) where
  cap : Int
  data : Int → T

namespace CircularBuffer

variable {T : Type*}

/-- The constructor: every slot starts as `T{}`. -/
def new [Inhabited T] (cap : Int) : CircularBuffer T := ⟨cap, fun _ => default⟩

/-- `idx % cap_`, which truncates towards zero. -/
def slot (buf : CircularBuffer T) (idx : Int) : Int := idx.tmod buf.cap

def put (buf : CircularBuffer T) (idx : Int) (value : T) : CircularBuffer T :=
  { buf with data := Function.update buf.data (buf.slot idx) value }

def get (buf : CircularBuffer T) (idx : Int) : T := buf.data (buf.slot idx)

end CircularBuffer

/-! ### Threads -/

/-- Where the owner is. The arguments are its local variables; the names
    of the constructors say what it does next. -/
inductive OwnerPC (T : Type*) where
  | idle
  /-- `push`: load `bottom_`. -/
  | pushLoadBottom (value : T)
  /-- `push`: load `top_`. -/
  | pushLoadTop (value : T) (b : Int)
  /-- `push`: load `buffer_` and compare `b - t` with its capacity. -/
  | pushLoadBuffer (value : T) (b t : Int)
  /-- `grow`: load slot `i` of the old buffer, or leave the loop. -/
  | growGet (value : T) (b t : Int) (buf newBuf : ℕ) (i : Int)
  /-- `grow`: store `x` into slot `i` of the new buffer. -/
  | growPut (value : T) (b t : Int) (buf newBuf : ℕ) (i : Int) (x : T)
  /-- `push`: retire the old buffer and store `buffer_`. -/
  | publish (value : T) (b t : Int) (buf newBuf : ℕ)
  /-- `push`: store the value into slot `b`. -/
  | pushPut (value : T) (b : Int) (buf : ℕ)
  /-- `push`: store `bottom_`. -/
  | pushStoreBottom (value : T) (b : Int)
  | pushReturn
  /-- `pop`: load `bottom_`. -/
  | popLoadBottom
  /-- `pop`: load `buffer_`; `b` is already `bottom_ - 1`. -/
  | popLoadBuffer (b : Int)
  /-- `pop`: store `bottom_`. -/
  | popStoreBottom (b : Int) (buf : ℕ)
  /-- `pop`: load `top_`. -/
  | popLoadTop (b : Int) (buf : ℕ)
  /-- `pop`: `t ≤ b`, load slot `b`. -/
  | popGet (b : Int) (buf : ℕ) (t : Int)
  /-- `pop`: last element, compare-exchange on `top_`. -/
  | popCas (t : Int) (x : T)
  /-- `pop`: the race is decided; store `bottom_ = t + 1`. -/
  | popRestore (t : Int) (result : Option T)
  /-- `pop`: empty; store `bottom_ = t`. -/
  | popEmpty (t : Int)
  | popReturn (result : Option T)
  deriving DecidableEq

/-- Where a thief is. -/
inductive ThiefPC (T : Type*) where
  | idle
  /-- `steal`: load `top_`. -/
  | loadTop
  /-- `steal`: load `bottom_` and compare. -/
  | loadBottom (t : Int)
  /-- `steal`: `t < b` was seen; load `buffer_`. -/
  | loadBuffer (t : Int)
  /-- `steal`: load slot `t`. -/
  | getSlot (t : Int) (buf : ℕ)
  /-- `steal`: compare-exchange on `top_`. -/
  | cas (t : Int) (x : T)
  | stealReturn (result : Option T)
  deriving DecidableEq

/-! ### State -/

/-- The shared memory and the threads. -/
structure State (T Thief : Type*) where
  top : Int
  bottom : Int
  /-- `buffer_`, an address of `heap`. -/
  buffer : ℕ
  heap : ℕ → CircularBuffer T
  /-- The next address `new CircularBuffer` returns. -/
  fresh : ℕ
  old_buffers : List ℕ
  owner : OwnerPC T
  thief : Thief → ThiefPC T

/-- The steps. Calls and returns are visible; `owner` and `thief i` are
    the next atomic access of a running operation. -/
inductive Label (T Thief : Type*) where
  | callPush (value : T)
  | retPush
  | callPop
  | retPop (result : Option T)
  | callSteal (i : Thief)
  | retSteal (i : Thief) (result : Option T)
  | owner
  | thief (i : Thief)

variable {T Thief : Type*}

/-- The constructor `WorkStealingDeque(capacity)`, before any call. -/
def initial [Inhabited T] (capacity : Int) : State T Thief where
  top := 0
  bottom := 0
  buffer := 0
  heap := fun _ => .new capacity
  fresh := 1
  old_buffers := []
  owner := .idle
  thief := fun _ => .idle

/-! ### Steps -/

/-- The owner's next atomic access, inside `push` or `pop`. -/
def ownerStep [Inhabited T] (s : State T Thief) : Option (State T Thief) :=
  match s.owner with
  | .pushLoadBottom v => some { s with owner := .pushLoadTop v s.bottom }
  | .pushLoadTop v b => some { s with owner := .pushLoadBuffer v b s.top }
  | .pushLoadBuffer v b t =>
      if b - t ≥ (s.heap s.buffer).cap then
        -- `buf->grow(t, b)` starts with `new CircularBuffer(cap_ * 2)`
        some { s with
          heap := Function.update s.heap s.fresh (.new ((s.heap s.buffer).cap * 2))
          fresh := s.fresh + 1
          owner := .growGet v b t s.buffer s.fresh t }
      else
        some { s with owner := .pushPut v b s.buffer }
  | .growGet v b t buf newBuf i =>
      if i < b then
        some { s with owner := .growPut v b t buf newBuf i ((s.heap buf).get i) }
      else
        some { s with owner := .publish v b t buf newBuf }
  | .growPut v b t buf newBuf i x =>
      some { s with
        heap := Function.update s.heap newBuf ((s.heap newBuf).put i x)
        owner := .growGet v b t buf newBuf (i + 1) }
  | .publish v b _ buf newBuf =>
      some { s with
        old_buffers := s.old_buffers ++ [buf]
        buffer := newBuf
        owner := .pushPut v b newBuf }
  | .pushPut v b buf =>
      some { s with
        heap := Function.update s.heap buf ((s.heap buf).put b v)
        owner := .pushStoreBottom v b }
  | .pushStoreBottom _ b => some { s with bottom := b + 1, owner := .pushReturn }
  | .popLoadBottom => some { s with owner := .popLoadBuffer (s.bottom - 1) }
  | .popLoadBuffer b => some { s with owner := .popStoreBottom b s.buffer }
  | .popStoreBottom b buf => some { s with bottom := b, owner := .popLoadTop b buf }
  | .popLoadTop b buf =>
      if s.top ≤ b then some { s with owner := .popGet b buf s.top }
      else some { s with owner := .popEmpty s.top }
  | .popGet b buf t =>
      if t = b then some { s with owner := .popCas t ((s.heap buf).get b) }
      else some { s with owner := .popReturn (some ((s.heap buf).get b)) }
  | .popCas t x =>
      if s.top = t then some { s with top := t + 1, owner := .popRestore t (some x) }
      else some { s with owner := .popRestore t none }
  | .popRestore t r => some { s with bottom := t + 1, owner := .popReturn r }
  | .popEmpty t => some { s with bottom := t, owner := .popReturn none }
  | .idle | .pushReturn | .popReturn _ => none

/-- Thief `i` moves to `pc`. -/
def State.setThief [DecidableEq Thief] (s : State T Thief) (i : Thief) (pc : ThiefPC T) :
    State T Thief :=
  { s with thief := Function.update s.thief i pc }

/-- The next atomic access of thief `i`, inside `steal`. -/
def thiefStep [DecidableEq Thief] (s : State T Thief) (i : Thief) : Option (State T Thief) :=
  match s.thief i with
  | .loadTop => some (s.setThief i (.loadBottom s.top))
  | .loadBottom t =>
      if t < s.bottom then some (s.setThief i (.loadBuffer t))
      else some (s.setThief i (.stealReturn none))
  | .loadBuffer t => some (s.setThief i (.getSlot t s.buffer))
  | .getSlot t buf => some (s.setThief i (.cas t ((s.heap buf).get t)))
  | .cas t x =>
      if s.top = t then some ({ s with top := t + 1 }.setThief i (.stealReturn (some x)))
      else some (s.setThief i (.stealReturn none))
  | .idle | .stealReturn _ => none

/-- The step function: every label has at most one successor. -/
def next [Inhabited T] [DecidableEq T] [DecidableEq Thief]
    (s : State T Thief) : Label T Thief → Option (State T Thief)
  | .callPush v =>
      if s.owner = .idle then some { s with owner := .pushLoadBottom v } else none
  | .retPush => if s.owner = .pushReturn then some { s with owner := .idle } else none
  | .callPop => if s.owner = .idle then some { s with owner := .popLoadBottom } else none
  | .retPop r => if s.owner = .popReturn r then some { s with owner := .idle } else none
  | .callSteal i => if s.thief i = .idle then some (s.setThief i .loadTop) else none
  | .retSteal i r =>
      if s.thief i = .stealReturn r then some (s.setThief i .idle) else none
  | .owner => ownerStep s
  | .thief i => thiefStep s i

/-- The deque with its owner and its thieves. -/
def system (T Thief : Type*) [Inhabited T] [DecidableEq T] [DecidableEq Thief]
    (capacity : Int) : System (State T Thief) (Label T Thief) :=
  .ofNext (initial capacity) next

/-! ### Reading the buffer -/

namespace CircularBuffer

@[simp] theorem cap_put (buf : CircularBuffer T) (idx : Int) (v : T) :
    (buf.put idx v).cap = buf.cap := rfl

@[simp] theorem cap_new [Inhabited T] (cap : Int) :
    (CircularBuffer.new cap : CircularBuffer T).cap = cap := rfl

@[simp] theorem get_put_self (buf : CircularBuffer T) (idx : Int) (v : T) :
    (buf.put idx v).get idx = v := by
  simp [put, get, slot]

/-- Two indices closer than the capacity have different slots. -/
theorem slot_ne {buf : CircularBuffer T} {i j : Int} (hi : 0 ≤ i) (hj : 0 ≤ j)
    (hne : i ≠ j) (hij : i - j < buf.cap) (hji : j - i < buf.cap) :
    buf.slot i ≠ buf.slot j := by
  unfold slot
  rw [Int.tmod_eq_emod_of_nonneg hi, Int.tmod_eq_emod_of_nonneg hj]
  intro h
  have hdvd : buf.cap ∣ i - j :=
    Int.dvd_of_emod_eq_zero (Int.emod_eq_emod_iff_emod_sub_eq_zero.mp h)
  have hzero : i - j = 0 := Int.eq_zero_of_abs_lt_dvd hdvd (by rw [abs_lt]; omega)
  omega

/-- Writing one index keeps every other index less than a capacity away. -/
theorem get_put_of_ne {buf : CircularBuffer T} {i j : Int} (v : T) (hi : 0 ≤ i) (hj : 0 ≤ j)
    (hne : i ≠ j) (hij : i - j < buf.cap) (hji : j - i < buf.cap) :
    (buf.put j v).get i = buf.get i := by
  have hslot : buf.slot i ≠ buf.slot j := slot_ne hi hj hne hij hji
  show Function.update buf.data (buf.slot j) v (buf.slot i) = buf.data (buf.slot i)
  exact Function.update_of_ne hslot _ _

end CircularBuffer

end Forge.WorkStealingDeque
