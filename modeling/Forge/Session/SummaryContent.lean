import Forge.Session.SummaryLedger

/-! # What Is Left of the Pushed Messages

  `SummarizingConversation` (`session/summarizing_conversation.h`) after
  any number of pushes, whatever its capacity, its threshold and the LLM's
  answers are:

  - `Since`: what the last summary has left in front, and the messages
    behind that;
  - `leadingSystem_stays`: a system message that comes to the front stays;
  - `exists_since`: the content is the window of these messages.
-/

namespace Forge

namespace SummarizingConversation

open Conversation (window room preserved)

/-- The push sums up what the conversation holds, as `text`. -/
def Summarizes (dump : List Message → String) (c : SummarizingConversation) (m : Message)
    (llm : List Message → Option LLMResponse) (text : String) : Prop :=
  ∃ range ∈ (c.pushed m).summaryRange?, summaryText? dump llm range = some text

/-- No push does. -/
def Unsummarized (dump : List Message → String) (c : SummarizingConversation) : Pushes → Prop
  | [] => True
  | (m, llm) :: ms =>
      (∀ text, ¬Summarizes dump c m llm text) ∧ Unsummarized dump (c.push dump llm m) ms

/-- The messages are all behind an empty front; or the last summary has put
    the system message in front, itself behind that, and then the recent
    messages, and there are those pushed since. -/
def Since (dump : List Message → String) (c : SummarizingConversation) (ms : Pushes)
    (front since : List Message) : Prop :=
  (Unsummarized dump c ms ∧ front = [] ∧ since = ms.map Prod.fst) ∨
  ∃ before m llm after text, ms = before ++ (m, llm) :: after ∧
    Summarizes dump (c.pushAll dump before) m llm text ∧
    Unsummarized dump ((c.pushAll dump before).push dump llm m) after ∧
    front = (leadingSystem ((c.pushAll dump before).pushed m).conversation.messages).toList ++
      [summaryMessage text] ∧
    since = (before.map Prod.fst ++ [m]).rtake c.keepRecent ++ after.map Prod.fst

variable {dump : List Message → String} {c : SummarizingConversation} {m z : Message}
  {llm : List Message → Option LLMResponse} {ms : Pushes} {front since : List Message}
  {text : String} {maxMessages : ℕ}

/-! ### One Push -/

/-- A push without a summary is a plain push. -/
theorem push_of_unsummarized (h : ∀ text, ¬Summarizes dump c m llm text) :
    c.push dump llm m = c.pushed m := by
  cases hreq : (c.pushed m).summaryRange? with
  | none => exact push_of_no_request hreq
  | some range =>
    cases htext : summaryText? dump llm range with
    | none => rw [push_of_request hreq, htext]
    | some text => exact absurd ⟨range, hreq, htext⟩ (h text)

theorem take_summaryStart (msgs : List Message) :
    msgs.take (summaryStart msgs) = (leadingSystem msgs).toList := by
  cases msgs with
  | nil => rfl
  | cons first rest =>
    by_cases hfirst : first.role = "system" <;>
      simp [summaryStart, leadingSystem, Option.filter_some, hfirst]

/-- What a summary leaves. -/
theorem push_of_summarizes (h : Summarizes dump c m llm text) :
    c.keepRecent + summaryStart (c.pushed m).conversation.messages + 1 <
      (c.pushed m).conversation.messages.length ∧
    (c.push dump llm m).conversation = ⟨c.conversation.maxMessages,
      (leadingSystem (c.pushed m).conversation.messages).toList ++ [summaryMessage text] ++
        (c.pushed m).conversation.messages.rtake c.keepRecent⟩ := by
  obtain ⟨range, hreq, htext⟩ := h
  obtain ⟨-, hcut, -⟩ := request_inv hreq
  obtain ⟨hlt, hend⟩ := summaryEnd_of_cut hcut
  have hkeep : (c.pushed m).keepRecent = c.keepRecent := rfl
  rw [hkeep] at hcut hlt hend
  refine ⟨by omega, ?_⟩
  rw [push_of_request hreq, htext]
  simp only
  rw [rebuild_eq (c.conversation.length_push_le m) hcut, take_summaryStart]
  simp only [pushed] at hend ⊢
  rw [hend, List.append_assoc]
  rfl

/-! ### A System Message in Front -/

theorem leadingSystem_eq_some {msgs : List Message} :
    leadingSystem msgs = some z ↔ msgs.head? = some z ∧ z.role = "system" := by
  rw [leadingSystem, Option.filter_eq_some_iff, decide_eq_true_eq]

/-- A push keeps the system message that is in front. -/
theorem leadingSystem_push (hmax : 1 ≤ c.conversation.maxMessages)
    (hz : leadingSystem c.conversation.messages = some z) :
    (c.push dump llm m).conversation.maxMessages = c.conversation.maxMessages ∧
    leadingSystem (c.push dump llm m).conversation.messages = some z := by
  obtain ⟨hhead, hrole⟩ := leadingSystem_eq_some.mp hz
  have hpushed : leadingSystem (c.pushed m).conversation.messages = some z :=
    leadingSystem_eq_some.mpr ⟨Conversation.front_pushAll hmax hrole hhead [m], hrole⟩
  by_cases h : ∃ text, Summarizes dump c m llm text
  · obtain ⟨text, htext⟩ := h
    rw [(push_of_summarizes htext).2, hpushed]
    exact ⟨rfl, leadingSystem_eq_some.mpr ⟨rfl, hrole⟩⟩
  · rw [push_of_unsummarized (not_exists.mp h)]
    exact ⟨rfl, hpushed⟩

/-- **A system message in front stays there.** -/
theorem leadingSystem_stays (hmax : 1 ≤ c.conversation.maxMessages)
    (hz : leadingSystem c.conversation.messages = some z) (ms : Pushes) :
    leadingSystem (c.pushAll dump ms).conversation.messages = some z := by
  induction ms generalizing c with
  | nil => exact hz
  | cons first ms ih =>
    obtain ⟨hsame, hfront⟩ := @leadingSystem_push dump c first.1 z first.2 hmax hz
    exact ih (hsame ▸ hmax) hfront

/-! ### The Messages since the Last Summary -/

/-- Pushes without a summary move the window on. -/
theorem Unsummarized.content {all : List Message} (h : Unsummarized dump c ms)
    (hmax : c.conversation.maxMessages = maxMessages)
    (hc : c.conversation.messages = window maxMessages all) :
    (c.pushAll dump ms).conversation.messages = window maxMessages (all ++ ms.map Prod.fst) := by
  induction ms generalizing c all with
  | nil => rw [List.map_nil, List.append_nil]; exact hc
  | cons first ms ih =>
    obtain ⟨hfirst, hrest⟩ := h
    have hpush : c.push dump first.2 first.1 = c.pushed first.1 := push_of_unsummarized hfirst
    rw [hpush] at hrest
    have hwindow := Conversation.push_window (hmax.symm ▸ hc) first.1
    rw [hmax] at hwindow
    have hcontent := ih hrest hmax hwindow
    rw [List.map_cons, List.append_cons, ← hcontent, ← hpush]
    rfl

theorem Unsummarized.concat (h : Unsummarized dump c ms)
    (hm : ∀ text, ¬Summarizes dump (c.pushAll dump ms) m llm text) :
    Unsummarized dump c (ms ++ [(m, llm)]) := by
  induction ms generalizing c with
  | nil => exact ⟨hm, trivial⟩
  | cons first ms ih => exact ⟨h.1, ih h.2 hm⟩

/-- One push more without a summary. -/
theorem Since.concat (h : Since dump c ms front since)
    (hm : ∀ text, ¬Summarizes dump (c.pushAll dump ms) m llm text) :
    Since dump c (ms ++ [(m, llm)]) front (since ++ [m]) := by
  obtain ⟨hnone, rfl, rfl⟩ | ⟨before, last, answer, after, text, rfl, hlast, hnone, rfl, rfl⟩ := h
  · exact .inl ⟨hnone.concat hm, rfl, by simp⟩
  · refine .inr ⟨before, last, answer, after ++ [(m, llm)], text, by simp, hlast, ?_, rfl, by simp⟩
    apply hnone.concat
    rwa [pushAll, List.foldl_append] at hm

/-- A summary puts two messages in front at most, the first of them a
    system message. -/
theorem Since.front_eq (h : Since dump c ms front since) : front = [] ∨
    ∃ system text, front = Option.toList system ++ [summaryMessage text] ∧
      ∀ z ∈ system, z.role = "system" := by
  obtain ⟨-, rfl, -⟩ | ⟨before, last, answer, after, text, -, -, -, rfl, -⟩ := h
  · exact .inl rfl
  · exact .inr ⟨_, text, rfl, leadingSystem_role⟩

theorem Since.quiet (h : Since dump c ms front since) : ∀ b ∈ front, b.Quiet := by
  obtain rfl | ⟨system, text, rfl, hsystem⟩ := h.front_eq
  · simp
  · intro b hb
    obtain hold | hnew := List.mem_append.mp hb
    · exact Message.quiet_of_system (hsystem b (by simpa using hold))
    · exact IsSummary.quiet b ⟨text, List.mem_singleton.mp hnew⟩

/-- What is behind them are the most recent messages. -/
theorem Since.suffix (h : Since dump c ms front since) : since <:+ ms.map Prod.fst := by
  obtain ⟨-, -, rfl⟩ | ⟨before, last, answer, after, text, rfl, -, -, -, rfl⟩ := h
  · exact List.suffix_rfl
  · obtain ⟨old, hold⟩ := List.rtake_suffix (before.map Prod.fst ++ [last]) c.keepRecent
    refine ⟨old, ?_⟩
    rw [← List.append_assoc, hold]
    simp

/-- The window reaches into the front only as far as no summary would cut
    it off. -/
theorem length_front_le (hfront : front = [] ∨ ∃ system text,
      front = Option.toList system ++ [summaryMessage text] ∧ ∀ z ∈ system, z.role = "system")
    (since : List Message) :
    (window maxMessages (front ++ since)).length ≤
      summaryStart (window maxMessages (front ++ since)) + 1 +
        (since.rtake (room maxMessages (front ++ since))).length := by
  -- a system message and a summary
  have hshort : front.length ≤ 2 := by
    obtain rfl | ⟨system, text, rfl, -⟩ := hfront
    · simp
    · cases system <;> simp
  rw [Conversation.window_split]
  cases hpres : preserved maxMessages (front ++ since) with
  | some y =>
    -- a message has gone, so nothing else of the front is left
    have hy := Conversation.preserved_role y hpres
    have hover : maxMessages < front.length + since.length := by
      by_contra hle
      rw [Conversation.preserved_of_le (by rw [List.length_append]; omega)] at hpres
      cases hpres
    have hstart : ∀ rest rest', summaryStart ([y] ++ rest ++ rest') = 1 := by
      intro rest rest'
      simp [summaryStart, hy]
    rw [room, hpres, Option.toList_some, hstart, List.length_append, List.length_append,
      List.length_rtake, List.length_singleton]
    omega
  | none =>
    rw [Option.toList_none, List.nil_append, List.length_append]
    generalize room maxMessages (front ++ since) = n
    by_cases hall : front.length ≤ n - since.length
    · -- the whole front is left
      rw [List.rtake_of_length_le hall]
      obtain rfl | ⟨system, text, rfl, hsystem⟩ := hfront
      · simp
      · cases system with
        | none => simp
        | some z => simp [summaryStart, hsystem z rfl]
    · rw [List.length_rtake]
      omega

/-- The recent messages that a summary keeps lie behind the front. -/
theorem rtake_window {n : ℕ} {all : List Message} (hfront : front = [] ∨ ∃ system text,
      front = Option.toList system ++ [summaryMessage text] ∧ ∀ z ∈ system, z.role = "system")
    (hsince : since <:+ all)
    (hlong : n + summaryStart (window maxMessages (front ++ since)) + 1 <
      (window maxMessages (front ++ since)).length) :
    (window maxMessages (front ++ since)).rtake n = all.rtake n := by
  have hreach := @length_front_le front maxMessages hfront since
  have hroom : n ≤ (since.rtake (room maxMessages (front ++ since))).length := by omega
  have hwindow : since.rtake (room maxMessages (front ++ since)) <:+
      window maxMessages (front ++ since) := by
    rw [Conversation.window_split]
    exact List.suffix_append _ _
  rw [List.rtake_of_suffix hwindow hroom,
    List.rtake_of_suffix ((List.rtake_suffix _ _).trans hsince) hroom]

/-! ### The Content -/

/-- **Step.** The window has moved on by one message, or has given way to
    the summary and the recent messages. -/
theorem Since.push {maxMessages summarizeThreshold keepRecent : ℕ}
    (h : Since dump (new maxMessages summarizeThreshold keepRecent) ms front since)
    (hc : c = (new maxMessages summarizeThreshold keepRecent).pushAll dump ms)
    (hmax : c.conversation.maxMessages = maxMessages)
    (hcontent : c.conversation.messages = window maxMessages (front ++ since)) :
    ∃ front' since',
      Since dump (new maxMessages summarizeThreshold keepRecent) (ms ++ [(m, llm)]) front' since' ∧
      (c.push dump llm m).conversation.maxMessages = maxMessages ∧
      (c.push dump llm m).conversation.messages = window maxMessages (front' ++ since') := by
  have hpushed := Conversation.push_window (hmax.symm ▸ hcontent) m
  rw [hmax, List.append_assoc] at hpushed
  have hkeep : c.keepRecent = keepRecent := by rw [hc, keepRecent_pushAll]; rfl
  -- a summary makes a new front, and without one the message joins the others
  by_cases hsum : ∃ text, Summarizes dump c m llm text
  · obtain ⟨text, htext⟩ := hsum
    obtain ⟨hlength, hnew⟩ := push_of_summarizes htext
    have hnext : Since dump (new maxMessages summarizeThreshold keepRecent) (ms ++ [(m, llm)])
        ((leadingSystem (c.pushed m).conversation.messages).toList ++ [summaryMessage text])
        ((ms.map Prod.fst ++ [m]).rtake keepRecent) := by
      refine .inr ⟨ms, m, llm, [], text, rfl, hc ▸ htext, trivial, by rw [hc], ?_⟩
      rw [List.map_nil, List.append_nil]
      rfl
    rw [hkeep] at hlength
    simp only [pushed] at hlength
    have hrecent : (c.pushed m).conversation.messages.rtake keepRecent =
        (ms.map Prod.fst ++ [m]).rtake keepRecent := by
      obtain ⟨old, hold⟩ := h.suffix
      simp only [pushed]
      rw [hpushed] at hlength ⊢
      exact rtake_window h.front_eq ⟨old, by rw [← hold, List.append_assoc]⟩ hlength
    refine ⟨_, _, hnext, by rw [hnew]; exact hmax, ?_⟩
    rw [hnew, hkeep, hrecent]
    -- what the summary leaves is shorter than what there was
    have hshort : ((leadingSystem (c.pushed m).conversation.messages).toList ++
        [summaryMessage text] ++ (ms.map Prod.fst ++ [m]).rtake keepRecent).length ≤
          maxMessages := by
      have hcap := c.conversation.length_push_le m
      rw [Conversation.maxMessages_push, hmax] at hcap
      rw [← take_summaryStart, ← hrecent, List.length_append, List.length_append,
        List.length_take, List.length_rtake, List.length_singleton]
      simp only [pushed]
      omega
    rw [Conversation.window_of_le hshort]
  · have hnone := not_exists.mp hsum
    rw [push_of_unsummarized hnone]
    exact ⟨front, since ++ [m], h.concat (hc ▸ hnone), hmax, hpushed⟩

/-- **The content**, after any pushes and whatever the LLM answers: the
    window of what the last summary has left in front, and of the messages
    behind that. -/
theorem exists_since (dump : List Message → String)
    (maxMessages summarizeThreshold keepRecent : ℕ) (ms : Pushes) :
    ∃ front since,
      Since dump (new maxMessages summarizeThreshold keepRecent) ms front since ∧
      ((new maxMessages summarizeThreshold keepRecent).pushAll dump ms).conversation.maxMessages =
        maxMessages ∧
      ((new maxMessages summarizeThreshold keepRecent).pushAll dump ms).conversation.messages =
        window maxMessages (front ++ since) := by
  induction ms using List.reverseRecOn with
  | nil => exact ⟨[], [], .inl ⟨trivial, rfl, rfl⟩, rfl, (Conversation.window_of_le
      (Nat.zero_le _)).symm⟩
  | append_singleton ms last ih =>
    obtain ⟨front, since, hsince, hmax, hcontent⟩ := ih
    rw [pushAll_concat]
    exact hsince.push rfl hmax hcontent

end SummarizingConversation

end Forge
