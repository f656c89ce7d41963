import Forge.Session.History

/-! # Summarizing Conversation

  `session/summarizing_conversation.h`: a conversation that lets the LLM
  sum up its older messages. The summary takes their place, behind the
  system message and in front of the recent ones.
-/

namespace Forge

structure SummarizingConversation where
  conversation : Conversation
  summarizeThreshold : ℕ
  keepRecent : ℕ
  deriving DecidableEq

namespace SummarizingConversation

def new (maxMessages summarizeThreshold keepRecent : ℕ) : SummarizingConversation :=
  ⟨.new maxMessages, summarizeThreshold, keepRecent⟩

/-- The messages `msgs[start .. end)` are summarized; the one in front of
    them is a system message. -/
def summaryStart (msgs : List Message) : ℕ :=
  match msgs with
  | first :: _ => if first.role = "system" then 1 else 0
  | [] => 0

def summaryEnd (keepRecent : ℕ) (msgs : List Message) : ℕ :=
  if msgs.length > keepRecent then msgs.length - keepRecent else summaryStart msgs

/-- What the LLM is asked; `dump` renders the messages as JSON text. -/
def summaryRequest (dump : List Message → String) (old : List Message) : List Message :=
  [{ role := "system"
     content := "Summarize the following conversation concisely, " ++
       "preserving all key information, decisions, and results. " ++
       "Respond with a single summary paragraph." },
   { role := "user", content := "Conversation to summarize:\n" ++ dump old }]

/-- The message that stands for the messages summarized. -/
def summaryMessage (text : String) : Message where
  role := "assistant"
  content := "[Summary of prior conversation]\n" ++ text

/-- The new conversation: system message, summary, recent messages. -/
def rebuild (c : Conversation) (keepRecent : ℕ) (text : String) : Conversation :=
  (((Conversation.new c.maxMessages).pushAll (c.messages.take (summaryStart c.messages))).push
    (summaryMessage text)).pushAll (c.messages.drop (summaryEnd keepRecent c.messages))

/-- `llm` answers the request; `none` is an exception of `complete` or
    `get`, which leaves `push` with the conversation as it is. -/
def maybeSummarize (dump : List Message → String) (llm : List Message → Option LLMResponse)
    (c : SummarizingConversation) : SummarizingConversation :=
  let msgs := c.conversation.messages
  let start := summaryStart msgs
  let stop := summaryEnd c.keepRecent msgs
  if msgs.length < c.summarizeThreshold then c
  else if stop ≤ start + 1 then c
  else
    match llm (summaryRequest dump ((msgs.take stop).drop start)) with
    | none => c
    | some r =>
        if r.error ≠ "" ∨ r.message.content = "" then c
        else { c with conversation := rebuild c.conversation c.keepRecent r.message.content }

def push (dump : List Message → String) (c : SummarizingConversation)
    (llm : List Message → Option LLMResponse) (m : Message) : SummarizingConversation :=
  maybeSummarize dump llm { c with conversation := c.conversation.push m }

/-- Pushes one after another, each with what the LLM answers. -/
def pushAll (dump : List Message → String) (c : SummarizingConversation)
    (ms : List (Message × (List Message → Option LLMResponse))) : SummarizingConversation :=
  ms.foldl (fun c m => push dump c m.2 m.1) c

/-! ### Summaries -/

def IsSummary (m : Message) : Prop := ∃ text, m = summaryMessage text

theorem IsSummary.quiet (m : Message) (hm : IsSummary m) : m.Quiet := by
  obtain ⟨text, rfl⟩ := hm
  exact Message.quiet_of_calls rfl rfl

theorem IsSummary.not_system (m : Message) (hm : IsSummary m) : m.role ≠ "system" := by
  obtain ⟨text, rfl⟩ := hm
  show "assistant" ≠ "system"
  decide

variable {c : Conversation} {keepRecent : ℕ}

/-- The new conversation is shorter than the old one, so nothing is
    evicted from it. -/
theorem rebuild_eq (hcap : c.messages.length ≤ c.maxMessages)
    (hcut : summaryStart c.messages + 1 < summaryEnd keepRecent c.messages) (text : String) :
    rebuild c keepRecent text = ⟨c.maxMessages, c.messages.take (summaryStart c.messages) ++
      (summaryMessage text :: c.messages.drop (summaryEnd keepRecent c.messages))⟩ := by
  have hend : summaryEnd keepRecent c.messages ≤ c.messages.length := by
    unfold summaryEnd at hcut ⊢
    split at hcut
    · rw [if_pos ‹_›]
      omega
    · omega
  have hpushes : rebuild c keepRecent text = (Conversation.new c.maxMessages).pushAll
      (c.messages.take (summaryStart c.messages) ++
        (summaryMessage text :: c.messages.drop (summaryEnd keepRecent c.messages))) := by
    rw [Conversation.pushAll_append]
    rfl
  have hle : (Conversation.new c.maxMessages).messages.length +
      (c.messages.take (summaryStart c.messages) ++
        (summaryMessage text :: c.messages.drop (summaryEnd keepRecent c.messages))).length ≤
      (Conversation.new c.maxMessages).maxMessages := by
    simp only [Conversation.new, List.length_nil, List.length_append, List.length_take,
      List.length_cons, List.length_drop]
    omega
  rw [hpushes, Conversation.pushAll_of_le hle]
  rfl

end SummarizingConversation

end Forge
