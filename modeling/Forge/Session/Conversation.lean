import Forge.Llm.Message

/-! # Conversation

  The bounded history of `session/conversation.h`. When it is over its
  capacity the oldest messages go, except a system message in front.
-/

namespace Forge

structure Conversation where
  maxMessages : ℕ
  messages : List Message
  deriving DecidableEq

namespace Conversation

def new (maxMessages : ℕ) : Conversation := ⟨maxMessages, []⟩

/-- One turn of the loop in `evict_if_needed`. -/
def evictOne : List Message → List Message
  | first :: second :: rest =>
      if first.role = "system" then first :: rest else second :: rest
  | [_] => []
  | [] => []

/-- The loop of `evict_if_needed`. Every turn removes one message, so as
    many turns as there are messages are enough. -/
def evictLoop (maxMessages : ℕ) : ℕ → List Message → List Message
  | 0, ms => ms
  | turns + 1, ms =>
      if ms.length > maxMessages then evictLoop maxMessages turns (evictOne ms) else ms

def evictIfNeeded (c : Conversation) : Conversation :=
  { c with messages := evictLoop c.maxMessages c.messages.length c.messages }

/-- Append a message to the history. -/
def push (c : Conversation) (m : Message) : Conversation :=
  { c with messages := c.messages ++ [m] }.evictIfNeeded

/-- Append messages one after another. -/
def pushAll (c : Conversation) (ms : List Message) : Conversation := ms.foldl push c

/-- The first message with role `user`. -/
def firstUser? (c : Conversation) : Option Message := c.messages.find? (·.role = "user")

/-! ### Below the Capacity -/

theorem pushAll_append (c : Conversation) (ms ms' : List Message) :
    c.pushAll (ms ++ ms') = (c.pushAll ms).pushAll ms' := List.foldl_append

theorem pushAll_snoc (c : Conversation) (ms : List Message) (m : Message) :
    c.pushAll (ms ++ [m]) = (c.pushAll ms).push m := pushAll_append c ms [m]

/-- The loop does nothing to a history that is not over its capacity. -/
theorem evictLoop_of_le {maxMessages : ℕ} {ms : List Message} (hle : ms.length ≤ maxMessages)
    (turns : ℕ) : evictLoop maxMessages turns ms = ms := by
  cases turns with
  | zero => rfl
  | succ turns => exact if_neg (Nat.not_lt.mpr hle)

theorem push_of_lt {c : Conversation} (hlt : c.messages.length < c.maxMessages) (m : Message) :
    c.push m = { c with messages := c.messages ++ [m] } := by
  unfold push evictIfNeeded
  rw [evictLoop_of_le]
  rw [List.length_append, List.length_singleton]
  exact hlt

/-- As long as the capacity is not exceeded nothing is evicted. -/
theorem pushAll_of_le {c : Conversation} {ms : List Message}
    (hle : c.messages.length + ms.length ≤ c.maxMessages) :
    c.pushAll ms = { c with messages := c.messages ++ ms } := by
  induction ms generalizing c with
  | nil => simp [pushAll]
  | cons m ms ih =>
    simp only [List.length_cons] at hle
    show (c.push m).pushAll ms = _
    rw [push_of_lt (by omega), ih (by simp; omega)]
    simp

/-! ### At the Capacity -/

theorem length_evictOne (ms : List Message) : (evictOne ms).length = ms.length - 1 := by
  match ms with
  | [] => rfl
  | [_] => rfl
  | first :: second :: rest =>
    by_cases hfirst : first.role = "system" <;> simp [evictOne, hfirst]

/-- With enough turns the loop ends at the capacity. -/
theorem length_evictLoop_le {maxMessages turns : ℕ} {ms : List Message}
    (hturns : ms.length ≤ maxMessages + turns) :
    (evictLoop maxMessages turns ms).length ≤ maxMessages := by
  induction turns generalizing ms with
  | zero => exact hturns
  | succ turns ih =>
    unfold evictLoop
    split
    · apply ih
      rw [length_evictOne]
      omega
    · omega

/-- A push on a full conversation evicts one message. -/
theorem messages_push_full {c : Conversation} (hfull : c.messages.length = c.maxMessages)
    (m : Message) : (c.push m).messages = evictOne (c.messages ++ [m]) := by
  have hone : (evictOne (c.messages ++ [m])).length = c.maxMessages := by
    rw [length_evictOne, List.length_append, List.length_singleton, hfull]
    rfl
  unfold push evictIfNeeded
  simp only [List.length_append, List.length_singleton, evictLoop]
  rw [if_pos (by omega), evictLoop_of_le (Nat.le_of_eq hone)]

/-- A push leaves no more messages than the capacity allows. -/
theorem length_push_le (c : Conversation) (m : Message) :
    (c.push m).messages.length ≤ (c.push m).maxMessages :=
  length_evictLoop_le (Nat.le_add_left _ _)

end Conversation

end Forge
