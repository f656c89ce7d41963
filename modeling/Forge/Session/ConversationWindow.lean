import Forge.Framework.LastEntries
import Forge.Session.Conversation

/-! # What a Conversation Holds

  `Conversation` (`session/conversation.h`) after any number of pushes:

  - `evictLoop_system`, `evictLoop_plain`: what `evict_if_needed` leaves,
    with a system message in front and with none at all;
  - `messages_push`, `messages_push_plain`: one push;
  - `window`: what is left of messages with any roles;
  - `content_of_pushes`: all pushes.
-/

namespace Forge

namespace Conversation

/-- Clear all messages. -/
def clear (c : Conversation) : Conversation := { c with messages := [] }

variable {c : Conversation} {maxMessages : ℕ} {system m : Message} {ms rest : List Message}

@[simp] theorem maxMessages_push : (c.push m).maxMessages = c.maxMessages := rfl

@[simp] theorem maxMessages_pushAll : (c.pushAll ms).maxMessages = c.maxMessages := by
  induction ms generalizing c with
  | nil => rfl
  | cons m ms ih => exact ih

/-! ### The Loop of `evict_if_needed` -/

/-- A system message in front stays, and the oldest messages behind it go. -/
theorem evictLoop_system (hsystem : system.role = "system") (hmax : 1 ≤ maxMessages) {turns : ℕ}
    (hturns : rest.length + 1 ≤ maxMessages + turns) :
    evictLoop maxMessages turns (system :: rest) = system :: rest.rtake (maxMessages - 1) := by
  induction turns generalizing rest with
  | zero =>
    rw [List.rtake_of_length_le (by omega)]
    rfl
  | succ turns ih =>
    unfold evictLoop
    split
    · next hover =>
      rw [List.length_cons] at hover
      cases rest with
      | nil =>
        rw [List.length_nil] at hover
        omega
      | cons second rest =>
        rw [List.length_cons] at hover hturns
        rw [evictOne, if_pos hsystem, ih (by omega), List.rtake_cons_of_le (by omega)]
    · next hfits =>
      rw [List.length_cons] at hfits
      rw [List.rtake_of_length_le (by omega)]

theorem evictOne_plain (hplain : ∀ m ∈ ms, m.role ≠ "system") : evictOne ms = ms.tail := by
  obtain _ | ⟨first, _ | ⟨second, rest⟩⟩ := ms
  · rfl
  · rfl
  · exact if_neg (hplain first List.mem_cons_self)

/-- Without system messages the oldest messages go. -/
theorem evictLoop_plain (hplain : ∀ m ∈ ms, m.role ≠ "system") {turns : ℕ}
    (hturns : ms.length ≤ maxMessages + turns) :
    evictLoop maxMessages turns ms = ms.rtake maxMessages := by
  induction turns generalizing ms with
  | zero => exact (List.rtake_of_length_le hturns).symm
  | succ turns ih =>
    unfold evictLoop
    split
    · next hover =>
      have hne : ms ≠ [] := by
        rintro rfl
        simp at hover
      rw [evictOne_plain hplain]
      obtain ⟨first, rest, rfl⟩ := List.exists_cons_of_ne_nil hne
      rw [List.length_cons] at hover hturns
      rw [List.tail_cons, ih (fun m hm => hplain m (by simp [hm])) (by omega),
        List.rtake_cons_of_le (by omega)]
    · next hfits => rw [List.rtake_of_length_le (by omega)]

/-! ### Pushes -/

/-- A push behind a system message. -/
theorem messages_push (hmax : 1 ≤ c.maxMessages) (hc : c.messages = system :: rest)
    (hsystem : system.role = "system") (m : Message) :
    (c.push m).messages = system :: (rest ++ [m]).rtake (c.maxMessages - 1) := by
  unfold push evictIfNeeded
  simp only [hc, List.cons_append]
  exact evictLoop_system hsystem hmax (by rw [List.length_cons]; omega)

theorem messages_push_plain (hplain : ∀ m ∈ c.messages, m.role ≠ "system")
    (hm : m.role ≠ "system") :
    (c.push m).messages = (c.messages ++ [m]).rtake c.maxMessages := by
  refine evictLoop_plain ?_ (Nat.le_add_left _ _)
  intro m' hm'
  obtain hold | hnew := List.mem_append.mp hm'
  · exact hplain m' hold
  · rwa [List.mem_singleton.mp hnew]

/-- Pushes behind a system message. -/
theorem messages_pushAll (hmax : 1 ≤ c.maxMessages) (hc : c.messages = system :: rest)
    (hsystem : system.role = "system") (hrest : rest.length ≤ c.maxMessages - 1)
    (ms : List Message) :
    (c.pushAll ms).messages = system :: (rest ++ ms).rtake (c.maxMessages - 1) := by
  induction ms using List.reverseRecOn with
  | nil => rw [List.append_nil, List.rtake_of_length_le hrest, ← hc]; rfl
  | append_singleton ms m ih =>
    have hpush := messages_push (by simpa using hmax) ih hsystem m
    rw [maxMessages_pushAll, List.rtake_concat_of_full] at hpush
    rw [pushAll_snoc, hpush, List.append_assoc]

/-- Pushes of messages of other roles on an empty conversation. -/
theorem messages_pushAll_plain (hplain : ∀ m ∈ ms, m.role ≠ "system") :
    ((new maxMessages).pushAll ms).messages = ms.rtake maxMessages := by
  induction ms using List.reverseRecOn with
  | nil => simp [pushAll, new]
  | append_singleton ms m ih =>
    have hold : ∀ m' ∈ ms, m'.role ≠ "system" := fun m' hm' => hplain m' (by simp [hm'])
    have hcontent : ∀ m' ∈ ((new maxMessages).pushAll ms).messages, m'.role ≠ "system" := by
      rw [ih hold]
      intro m' hm'
      exact hold m' ((List.rtake_suffix ms maxMessages).mem hm')
    rw [pushAll_snoc, messages_push_plain hcontent (hplain m (by simp)), maxMessages_pushAll,
      ih hold]
    exact List.rtake_concat_of_full ms m maxMessages

theorem length_pushAll_le (maxMessages : ℕ) (ms : List Message) :
    ((new maxMessages).pushAll ms).messages.length ≤ maxMessages := by
  induction ms using List.reverseRecOn with
  | nil => exact Nat.zero_le _
  | append_singleton ms m _ =>
    rw [pushAll_snoc]
    have hle := ((new maxMessages).pushAll ms).length_push_le m
    rwa [maxMessages_push, maxMessages_pushAll] at hle

/-- A system message in front stays in front. -/
theorem front_pushAll (hmax : 1 ≤ c.maxMessages) (hsystem : system.role = "system")
    (hc : c.messages.head? = some system) (ms : List Message) :
    (c.pushAll ms).messages.head? = some system := by
  induction ms using List.reverseRecOn with
  | nil => exact hc
  | append_singleton ms m ih =>
    obtain ⟨rest, hrest⟩ := List.head?_eq_some_iff.mp ih
    rw [pushAll_snoc, messages_push (by simpa using hmax) hrest hsystem]
    rfl

/-! ### Messages with Any Roles -/

/-- The system message that stays: the first one among those that have to
    go, if there is room for it. -/
def preserved (maxMessages : ℕ) (ms : List Message) : Option Message :=
  if maxMessages = 0 then none
  else (ms.take (ms.length - maxMessages)).find? (·.role = "system")

/-- The room behind it, for the most recent messages. -/
def room (maxMessages : ℕ) (ms : List Message) : ℕ :=
  maxMessages - (preserved maxMessages ms).toList.length

/-- What is left of the messages pushed. -/
def window (maxMessages : ℕ) (ms : List Message) : List Message :=
  (preserved maxMessages ms).toList ++ ms.rtake (room maxMessages ms)

theorem preserved_role : ∀ z ∈ preserved maxMessages ms, z.role = "system" := by
  intro z hz
  unfold preserved at hz
  split at hz
  · cases hz
  · have hfound := List.find?_some hz
    exact of_decide_eq_true hfound

/-- What is left of the messages in front, and of those behind them. -/
theorem window_split (maxMessages : ℕ) (front since : List Message) :
    window maxMessages (front ++ since) =
      ((preserved maxMessages (front ++ since)).toList ++
        front.rtake (room maxMessages (front ++ since) - since.length)) ++
          since.rtake (room maxMessages (front ++ since)) := by
  rw [window, List.rtake_append, List.append_assoc]

theorem preserved_of_le (hle : ms.length ≤ maxMessages) : preserved maxMessages ms = none := by
  unfold preserved
  rw [Nat.sub_eq_zero_of_le hle]
  split <;> rfl

theorem window_of_le (hle : ms.length ≤ maxMessages) : window maxMessages ms = ms := by
  rw [window, room, preserved_of_le hle]
  exact List.rtake_of_length_le hle

theorem window_zero (ms : List Message) : window 0 ms = [] := by
  simp [window, room, preserved]

/-- As many messages as there is room for, and older ones. -/
theorem window_append {old recent : List Message} (hmax : 1 ≤ maxMessages)
    (hrecent : recent.length = maxMessages) :
    window maxMessages (old ++ recent) =
      match old.find? (·.role = "system") with
      | some z => z :: recent.rtake (maxMessages - 1)
      | none => recent := by
  have hold : preserved maxMessages (old ++ recent) = old.find? (·.role = "system") := by
    unfold preserved
    rw [if_neg (by omega), List.length_append, hrecent, Nat.add_sub_cancel, List.take_left]
  rw [window, room, hold]
  cases old.find? (·.role = "system") with
  | some z =>
    rw [List.rtake_append_of_le (by rw [hrecent]; exact Nat.sub_le _ _)]
    rfl
  | none =>
    rw [Option.toList_none, List.nil_append, List.length_nil, Nat.sub_zero,
      List.rtake_append_of_le hrecent.ge, List.rtake_of_length_le hrecent.le]

/-- **A push** moves the window on by one message. -/
theorem push_window (hc : c.messages = window c.maxMessages ms) (m : Message) :
    (c.push m).messages = window c.maxMessages (ms ++ [m]) := by
  -- without any room, and with room for the message
  by_cases hmax : c.maxMessages = 0
  · have hle := c.length_push_le m
    rw [maxMessages_push, hmax, Nat.le_zero, List.length_eq_zero_iff] at hle
    rw [hle, hmax, window_zero]
  by_cases hfits : ms.length < c.maxMessages
  · rw [window_of_le hfits.le] at hc
    rw [push_of_lt (by rw [hc]; exact hfits), hc,
      window_of_le (by rw [List.length_append]; exact hfits)]
  -- the oldest message of the window goes, or stays in front as the system message
  obtain ⟨old, oldest, recent, rfl, hfull⟩ : ∃ old oldest recent,
      ms = old ++ oldest :: recent ∧ (oldest :: recent).length = c.maxMessages := by
    obtain ⟨n, hn⟩ := Nat.exists_eq_succ_of_ne_zero hmax
    have hlength : (ms.drop (ms.length - c.maxMessages)).length = c.maxMessages := by
      rw [List.length_drop]
      omega
    obtain ⟨oldest, recent, hdrop⟩ := List.exists_cons_of_length_eq_add_one (hlength.trans hn)
    exact ⟨ms.take (ms.length - c.maxMessages), oldest, recent,
      by rw [← hdrop, List.take_append_drop], by rw [← hdrop, hlength]⟩
  have hmore : (recent ++ [m]).length = c.maxMessages := by simpa using hfull
  have hrecent : recent.rtake (c.maxMessages - 1) = recent := by
    rw [List.length_cons] at hfull
    exact List.rtake_of_length_le (by omega)
  have hall : old ++ oldest :: recent ++ [m] = (old ++ [oldest]) ++ (recent ++ [m]) := by simp
  rw [window_append (by omega) hfull, List.rtake_cons_of_le (by
    rw [← hfull, List.length_cons, Nat.add_sub_cancel]), hrecent] at hc
  rw [hall, window_append (by omega) hmore, List.find?_append]
  cases hold : old.find? (·.role = "system") with
  | some z =>
    -- a system message is in front already
    rw [hold] at hc
    have hz := List.find?_some hold
    exact messages_push (by omega) hc (of_decide_eq_true hz) m
  | none =>
    rw [hold] at hc
    by_cases holdest : oldest.role = "system"
    · rw [messages_push (by omega) hc holdest]
      simp [holdest]
    · rw [messages_push_full (by rw [hc]; exact hfull), hc]
      obtain ⟨next, rest, hrest⟩ := List.exists_cons_of_length_pos (l := recent ++ [m]) (by simp)
      rw [List.cons_append, hrest, evictOne, if_neg holdest]
      simp [holdest]

theorem pushAll_window (hc : c.messages.length ≤ c.maxMessages) (ms : List Message) :
    (c.pushAll ms).messages = window c.maxMessages (c.messages ++ ms) := by
  induction ms using List.reverseRecOn with
  | nil => rw [List.append_nil, window_of_le hc]; rfl
  | append_singleton ms m ih =>
    have hpush := push_window (c := c.pushAll ms) (by rw [maxMessages_pushAll]; exact ih) m
    rw [maxMessages_pushAll, List.append_assoc] at hpush
    rw [pushAll_snoc]
    exact hpush

/-- What was pushed before a `clear` does not count. -/
theorem clear_pushAll (c : Conversation) (ms : List Message) :
    (c.clear.pushAll ms).messages = window c.maxMessages ms :=
  pushAll_window (c := c.clear) (Nat.zero_le _) ms

/-! ### The Content -/

/-- **The content of a conversation.** It is never over its capacity.
    After a system message as the first push it is that message and the
    most recent ones behind it; without system messages it is the most
    recent ones. A system message that comes to the front of any
    conversation stays there. -/
theorem content_of_pushes (hmax : 1 ≤ maxMessages) :
    (∀ ms, ((new maxMessages).pushAll ms).messages.length ≤ maxMessages) ∧
    (∀ system rest, system.role = "system" →
      ((new maxMessages).pushAll (system :: rest)).messages = system ::
        (system :: rest).rtake (min ((system :: rest).length - 1) (maxMessages - 1))) ∧
    (∀ ms, (∀ m ∈ ms, m.role ≠ "system") →
      ((new maxMessages).pushAll ms).messages = ms.rtake (min ms.length maxMessages)) ∧
    ∀ (c : Conversation) (system : Message), c.maxMessages = maxMessages →
      c.messages.head? = some system → system.role = "system" →
      ∀ ms, (c.pushAll ms).messages.head? = some system := by
  refine ⟨length_pushAll_le maxMessages, ?_, ?_, ?_⟩
  · intro system rest hsystem
    have hfirst : ((new maxMessages).push system).messages = [system] := by
      have hroom : (new maxMessages).messages.length < (new maxMessages).maxMessages := hmax
      rw [push_of_lt hroom]
      rfl
    have hall := messages_pushAll (by simpa [new] using hmax) hfirst hsystem (Nat.zero_le _) rest
    rw [List.length_cons, Nat.add_sub_cancel, List.rtake_cons_of_le (Nat.min_le_left _ _),
      List.rtake_min_length]
    exact hall
  · intro ms hplain
    rw [List.rtake_min_length]
    exact messages_pushAll_plain hplain
  · rintro c system rfl hc hsystem ms
    exact front_pushAll hmax hsystem hc ms

/-- Room for one message: the system message. -/
theorem content_of_three :
    ((new 1).pushAll [⟨"system", "s", [], ""⟩, ⟨"user", "a", [], ""⟩,
      ⟨"user", "b", [], ""⟩]).messages = [⟨"system", "s", [], ""⟩] :=
  (content_of_pushes le_rfl).2.1 ⟨"system", "s", [], ""⟩ [⟨"user", "a", [], ""⟩,
    ⟨"user", "b", [], ""⟩] rfl

end Conversation

end Forge
