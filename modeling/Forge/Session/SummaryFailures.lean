import Forge.Session.SummaryLedger

/-! # Failed Summarisations

  `SummarizingConversation` (`session/summarizing_conversation.h`) when the
  LLM may fail: a push whose summarisation call fails is a plain push, and
  the next one asks again.

  - `failures`: how many pushes in a row, up to the last one, have asked in
    vain;
  - `Strained`: the invariant, which says how long the conversation is
    then;
  - `failures_tolerated`: after how many failures in a row a push evicts a message,
    and that nothing is lost before.
-/

namespace Forge

namespace SummarizingConversation

/-! ### Failures in a Row -/

/-- The push asks for a summary, and gets none. -/
def Fails (dump : List Message → String) (c : SummarizingConversation) (m : Message)
    (llm : List Message → Option LLMResponse) : Prop :=
  ∃ range ∈ (c.pushed m).summaryRange?, summaryText? dump llm range = none

instance (dump : List Message → String) (c : SummarizingConversation) (m : Message)
    (llm : List Message → Option LLMResponse) : Decidable (Fails dump c m llm) :=
  match h : (c.pushed m).summaryRange? with
  | none => .isFalse (by simp [Fails, h])
  | some range => decidable_of_iff (summaryText? dump llm range = none) (by simp [Fails, h])

/-- The pushes at the end of the run that have failed one after the other,
    `n` of them before it. -/
def failuresFrom (dump : List Message → String) (c : SummarizingConversation) (n : ℕ) :
    Pushes → ℕ
  | [] => n
  | (m, llm) :: ms =>
      failuresFrom dump (c.push dump llm m) (if Fails dump c m llm then n + 1 else 0) ms

def failures (dump : List Message → String) (c : SummarizingConversation) (ms : Pushes) : ℕ :=
  failuresFrom dump c 0 ms

/-- The ranges of the requests that were answered, in order. -/
def answered (dump : List Message → String) (c : SummarizingConversation) :
    Pushes → List (List Message)
  | [] => []
  | (m, llm) :: ms =>
      ((c.pushed m).summaryRange?.filter fun range =>
          (summaryText? dump llm range).isSome).toList ++
        answered dump (c.push dump llm m) ms

variable {dump : List Message → String} {c : SummarizingConversation} {m : Message}
  {llm : List Message → Option LLMResponse} {ms : Pushes} {all range : List Message}
  {rs : List (List Message)} {text : String} {k n maxMessages summarizeThreshold keepRecent : ℕ}

theorem failuresFrom_concat : failuresFrom dump c n (ms ++ [(m, llm)]) =
    if Fails dump (c.pushAll dump ms) m llm then failuresFrom dump c n ms + 1 else 0 := by
  induction ms generalizing c n with
  | nil => rfl
  | cons first ms ih =>
    simp only [List.cons_append, failuresFrom]
    rw [ih]
    rfl

theorem answered_concat : answered dump c (ms ++ [(m, llm)]) = answered dump c ms ++
    (((c.pushAll dump ms).pushed m).summaryRange?.filter fun range =>
      (summaryText? dump llm range).isSome).toList := by
  induction ms generalizing c with
  | nil => simp [answered, pushAll]
  | cons first ms ih =>
    simp only [List.cons_append, answered]
    rw [ih, List.append_assoc]
    rfl

/-! ### The Length -/

/-- A full conversation stays full. -/
theorem length_push_full {conv : Conversation} (hfull : conv.messages.length = conv.maxMessages)
    (m : Message) : (conv.push m).messages.length = conv.maxMessages := by
  rw [Conversation.messages_push_full hfull, Conversation.length_evictOne, List.length_append,
    List.length_singleton, hfull]
  rfl

/-- The conversation asks as soon as it has come to the threshold. -/
theorem summaryRange_isSome_iff (hrecent : c.keepRecent + 3 ≤ c.summarizeThreshold) :
    c.summaryRange?.isSome ↔ c.summarizeThreshold ≤ c.conversation.messages.length := by
  have hstart := summaryStart_le c.conversation.messages
  unfold summaryRange?
  simp only
  split
  · simp
    omega
  · next hlong =>
    rw [summaryEnd_of_lt (by omega), if_neg (by omega)]
    simp
    omega

/-- **The invariant.** Up to the threshold nothing has failed, and every
    failure is a message more, as long as there is room. -/
structure Strained (maxMessages summarizeThreshold keepRecent : ℕ) (c : SummarizingConversation)
    (k : ℕ) : Prop where
  capacity : c.conversation.maxMessages = maxMessages
  threshold : c.summarizeThreshold = summarizeThreshold
  recent : c.keepRecent = keepRecent
  rested : k = 0 → c.conversation.messages.length < summarizeThreshold
  strained : k ≠ 0 → c.conversation.messages.length = min maxMessages (summarizeThreshold - 1 + k)

/-- A summarisation leaves two messages in front of the recent ones, at
    most. -/
theorem length_push_summary (hreq : (c.pushed m).summaryRange? = some range)
    (htext : summaryText? dump llm range = some text) :
    (c.push dump llm m).conversation.maxMessages = c.conversation.maxMessages ∧
      (c.push dump llm m).conversation.messages.length ≤ c.keepRecent + 2 := by
  obtain ⟨-, hcut, -⟩ := request_inv hreq
  unfold pushed at hcut
  simp only at hcut
  obtain ⟨hlt, hstop⟩ := summaryEnd_of_cut hcut
  have hstart := summaryStart_le (c.conversation.push m).messages
  have hpush := @push_of_request dump c m llm range hreq
  rw [htext] at hpush
  simp only at hpush
  rw [hpush, rebuild_eq (c.conversation.length_push_le m) hcut]
  refine ⟨rfl, ?_⟩
  simp only [List.length_append, List.length_take, List.length_cons, List.length_drop]
  omega

/-- **A push.** -/
theorem Strained.push (h : Strained maxMessages summarizeThreshold keepRecent c k)
    (hthreshold : summarizeThreshold ≤ maxMessages)
    (hrecent : keepRecent + 3 ≤ summarizeThreshold) :
    Strained maxMessages summarizeThreshold keepRecent (c.push dump llm m)
      (if Fails dump c m llm then k + 1 else 0) := by
  obtain ⟨hcapacity, hthr, hkeep, hrested, hstrained⟩ := h
  have hasks := summaryRange_isSome_iff (c := c.pushed m) (by
    show c.keepRecent + 3 ≤ c.summarizeThreshold
    omega)
  have hthr' : (c.pushed m).summarizeThreshold = summarizeThreshold := hthr
  rw [hthr'] at hasks
  cases hreq : (c.pushed m).summaryRange? with
  | none =>
    have hnot : ¬Fails dump c m llm := by simp [Fails, hreq]
    rw [hreq] at hasks
    rw [push_of_no_request hreq, if_neg hnot]
    exact ⟨hcapacity, hthr, hkeep, fun _ => by simpa using hasks, fun h => absurd rfl h⟩
  | some range =>
    rw [hreq] at hasks
    have hlong : summarizeThreshold ≤ (c.pushed m).conversation.messages.length := by
      simpa using hasks
    have hpush := @push_of_request dump c m llm range hreq
    cases htext : summaryText? dump llm range with
    | some text =>
      have hnot : ¬Fails dump c m llm := by simp [Fails, hreq, htext]
      obtain ⟨hsame, hshort⟩ := length_push_summary hreq htext
      rw [htext] at hpush
      simp only at hpush
      rw [if_neg hnot]
      refine ⟨hsame.trans hcapacity, ?_, ?_, fun _ => by omega, fun h => absurd rfl h⟩
      all_goals rw [hpush]
      · exact hthr
      · exact hkeep
    | none =>
      have hfails : Fails dump c m llm := ⟨range, hreq, htext⟩
      rw [htext] at hpush
      simp only at hpush
      rw [if_pos hfails, hpush]
      refine ⟨hcapacity, hthr, hkeep, by omega, fun _ => ?_⟩
      -- one message more, unless the conversation is full
      obtain hlt | hfull := Nat.lt_or_ge c.conversation.messages.length c.conversation.maxMessages
      · have hone : (c.pushed m).conversation.messages.length =
            c.conversation.messages.length + 1 := by
          unfold pushed
          simp only
          rw [Conversation.push_of_lt hlt, List.length_append, List.length_singleton]
        rw [hone] at hlong ⊢
        by_cases hk : k = 0
        · have := hrested hk
          omega
        · have := hstrained hk
          omega
      · have hk : k ≠ 0 := by
          intro hk
          have := hrested hk
          omega
        have hlen := hstrained hk
        have hsame : (c.pushed m).conversation.messages.length = c.conversation.maxMessages :=
          length_push_full (by omega) m
        omega

/-! ### Runs -/

theorem strained_run (hthreshold : summarizeThreshold ≤ maxMessages)
    (hrecent : keepRecent + 3 ≤ summarizeThreshold) (dump : List Message → String) (ms : Pushes) :
    Strained maxMessages summarizeThreshold keepRecent
      ((new maxMessages summarizeThreshold keepRecent).pushAll dump ms)
      (failures dump (new maxMessages summarizeThreshold keepRecent) ms) := by
  induction ms using List.reverseRecOn with
  | nil =>
    refine ⟨rfl, rfl, rfl, fun _ => ?_, fun h => absurd rfl h⟩
    show 0 < summarizeThreshold
    omega
  | append_singleton ms last ih =>
    obtain ⟨m, llm⟩ := last
    unfold failures
    rw [pushAll_concat, failuresFrom_concat]
    exact ih.push hthreshold hrecent

/-- There is room for the next message exactly if the failures have left
    some. -/
theorem Strained.room_iff (h : Strained maxMessages summarizeThreshold keepRecent c k)
    (hthreshold : summarizeThreshold ≤ maxMessages)
    (hrecent : keepRecent + 3 ≤ summarizeThreshold) :
    c.conversation.messages.length < c.conversation.maxMessages ↔
      summarizeThreshold + k ≤ maxMessages := by
  have hcapacity := h.capacity
  by_cases hk : k = 0
  · have := h.rested hk
    omega
  · have := h.strained hk
    omega

/-- A push to a conversation with room, answered or not, loses nothing. -/
theorem Ledger.push_any (h : Ledger c all rs) :
    Accounted (all ++ [m])
      (rs ++ ((c.pushed m).summaryRange?.filter fun range =>
        (summaryText? dump llm range).isSome).toList)
      (c.push dump llm m).conversation.messages := by
  have hplain := h.accounted.concat m
  rw [← h.messages_pushed m] at hplain
  cases hreq : (c.pushed m).summaryRange? with
  | none =>
    rw [push_of_no_request hreq]
    simpa [pushed] using hplain
  | some range =>
    cases htext : summaryText? dump llm range with
    | none =>
      rw [push_of_failure hreq htext]
      simpa [Option.filter, htext] using hplain
    | some text =>
      have hsummarized := (h.push_request hreq htext).1.accounted
      simpa [Option.filter, htext] using hsummarized

/-- **How much failure is tolerated.** After any pushes, whichever of their
    summarisations have failed, the next push keeps every message if and
    only if the last `max_messages - summarize_threshold` pushes and one
    more have not all failed. As long as this was so before each push,
    every pushed message is accounted for: it is there, or it was in the
    range of one request that was answered. -/
theorem failures_tolerated (hthreshold : summarizeThreshold ≤ maxMessages)
    (hrecent : keepRecent + 3 ≤ summarizeThreshold) (dump : List Message → String) (ms : Pushes) :
    (∀ m, (((new maxMessages summarizeThreshold keepRecent).pushAll dump ms).conversation.push
          m).messages =
        ((new maxMessages summarizeThreshold keepRecent).pushAll dump ms).conversation.messages ++
          [m] ↔
      summarizeThreshold + failures dump (new maxMessages summarizeThreshold keepRecent) ms ≤
        maxMessages) ∧
    ((∀ ms' next, ms' ++ [next] <+: ms →
        summarizeThreshold + failures dump (new maxMessages summarizeThreshold keepRecent) ms' ≤
          maxMessages) →
      Accounted (ms.map Prod.fst)
        (answered dump (new maxMessages summarizeThreshold keepRecent) ms)
        ((new maxMessages summarizeThreshold keepRecent).pushAll dump
          ms).conversation.messages) := by
  constructor
  · intro m
    rw [← (strained_run hthreshold hrecent dump ms).room_iff hthreshold hrecent]
    constructor
    · intro hkept
      have hcap := Conversation.length_push_le
        ((new maxMessages summarizeThreshold keepRecent).pushAll dump ms).conversation m
      rw [hkept, List.length_append, List.length_singleton] at hcap
      exact hcap
    · intro hlt
      rw [Conversation.push_of_lt hlt]
  · intro hroom
    induction ms using List.reverseRecOn with
    | nil => exact accounted_nil
    | append_singleton ms last ih =>
      obtain ⟨m, llm⟩ := last
      have hearlier := ih fun ms' next hpre => hroom ms' next (hpre.trans (List.prefix_append _ _))
      have hs := strained_run hthreshold hrecent dump ms
      have hledger : Ledger ((new maxMessages summarizeThreshold keepRecent).pushAll dump ms)
          (ms.map Prod.fst) (answered dump (new maxMessages summarizeThreshold keepRecent) ms) := by
        refine ⟨hearlier, ?_, ?_, ?_⟩
        · exact (hs.room_iff hthreshold hrecent).mpr (hroom ms _ List.prefix_rfl)
        · rw [hs.threshold, hs.capacity]
          exact hthreshold
        · rw [hs.recent, hs.capacity]
          omega
      rw [pushAll_concat, List.map_append, answered_concat]
      exact hledger.push_any

/-- An LLM that cannot be reached. -/
def silent (_ : List Message) : Option LLMResponse := none

/-- With room for five the first two failures are tolerated. -/
def fivePushes : Pushes :=
  [(⟨"system", "s", [], ""⟩, silent), (⟨"user", "a", [], ""⟩, silent),
    (⟨"user", "b", [], ""⟩, silent), (⟨"user", "c", [], ""⟩, silent),
    (⟨"user", "d", [], ""⟩, silent)]

theorem fivePushes_lost : 4 ≤ 5 ∧ 1 + 3 ≤ 4 ∧
    failures (fun _ => "") (new 5 4 1) fivePushes = 2 ∧
    (((new 5 4 1).pushAll (fun _ => "") fivePushes).conversation.push
        ⟨"user", "e", [], ""⟩).messages ≠
      ((new 5 4 1).pushAll (fun _ => "") fivePushes).conversation.messages ++
        [⟨"user", "e", [], ""⟩] := by
  have hfailures : failures (fun _ => "") (new 5 4 1) fivePushes = 2 := by decide
  refine ⟨by decide, by decide, hfailures, ?_⟩
  intro hkept
  have hle := ((failures_tolerated (by decide) (by decide) (fun _ => "") fivePushes).1 _).mp hkept
  omega

end SummarizingConversation

end Forge
