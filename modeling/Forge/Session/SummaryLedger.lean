import Forge.Framework.LastEntries
import Forge.Session.SummarizingConversation

/-! # What Becomes of the Pushed Messages

  `SummarizingConversation` (`session/summarizing_conversation.h`) with
  enough room, over any number of summarisations:

  - `summaryRange?`, `ranges`: the messages a summarisation request is
    about, and those of all requests of a run;
  - `Accounted`: every pushed message is there, or was in the range of one
    request;
  - `Ledger`: the invariant of the runs in which every request succeeds;
  - `ledger_of_pushes`: what holds after each of them.
-/

namespace Forge

namespace SummarizingConversation

/-! ### Requests -/

/-- `conversation_.push(msg)`. -/
def pushed (c : SummarizingConversation) (m : Message) : SummarizingConversation :=
  { c with conversation := c.conversation.push m }

/-- The messages that `maybe_summarize` asks the LLM about, if it does. -/
def summaryRange? (c : SummarizingConversation) : Option (List Message) :=
  let msgs := c.conversation.messages
  let start := summaryStart msgs
  let stop := summaryEnd c.keepRecent msgs
  if msgs.length < c.summarizeThreshold then none
  else if stop ≤ start + 1 then none
  else some ((msgs.take stop).drop start)

/-- The text of a summarisation call that has succeeded. -/
def summaryText? (dump : List Message → String) (llm : List Message → Option LLMResponse)
    (range : List Message) : Option String :=
  (llm (summaryRequest dump range)).bind fun r =>
    if r.error ≠ "" ∨ r.message.content = "" then none else some r.message.content

/-- The pushes of a run, each with what the LLM answers. -/
abbrev Pushes := List (Message × (List Message → Option LLMResponse))

/-- Every summarisation call returns a non-empty text without error. -/
def AllSucceed (dump : List Message → String) (c : SummarizingConversation) : Pushes → Prop
  | [] => True
  | (m, llm) :: ms =>
      (∀ range ∈ (c.pushed m).summaryRange?, (summaryText? dump llm range).isSome) ∧
      AllSucceed dump (c.push dump llm m) ms

/-- The ranges of the requests that are made, in order. -/
def ranges (dump : List Message → String) (c : SummarizingConversation) :
    Pushes → List (List Message)
  | [] => []
  | (m, llm) :: ms =>
      (c.pushed m).summaryRange?.toList ++ ranges dump (c.push dump llm m) ms

variable {dump : List Message → String} {c : SummarizingConversation} {m : Message}
  {llm : List Message → Option LLMResponse} {ms : Pushes} {range : List Message} {text : String}

theorem push_of_no_request (hnone : (c.pushed m).summaryRange? = none) :
    c.push dump llm m = c.pushed m := by
  unfold push maybeSummarize
  unfold summaryRange? pushed at hnone
  simp only at hnone ⊢
  split
  · rfl
  · next hlong =>
    rw [if_neg hlong] at hnone
    split
    · rfl
    · next hcut =>
      rw [if_neg hcut] at hnone
      exact absurd hnone (Option.some_ne_none _)

/-- What a request is about. -/
theorem request_inv (h : c.summaryRange? = some range) :
    c.summarizeThreshold ≤ c.conversation.messages.length ∧
    summaryStart c.conversation.messages + 1 <
      summaryEnd c.keepRecent c.conversation.messages ∧
    range = (c.conversation.messages.take (summaryEnd c.keepRecent c.conversation.messages)).drop
      (summaryStart c.conversation.messages) := by
  unfold summaryRange? at h
  simp only at h
  split at h
  · exact absurd h (by simp)
  · split at h
    · exact absurd h (by simp)
    · exact ⟨by omega, by omega, (Option.some.inj h).symm⟩

/-- What `push` does with the answer. -/
theorem push_of_request (h : (c.pushed m).summaryRange? = some range) :
    c.push dump llm m =
      match summaryText? dump llm range with
      | none => c.pushed m
      | some text =>
          { c with conversation := rebuild (c.conversation.push m) c.keepRecent text } := by
  obtain ⟨hlong, hcut, rfl⟩ := request_inv h
  unfold push maybeSummarize summaryText?
  unfold pushed at hlong hcut ⊢
  simp only at hlong hcut ⊢
  rw [if_neg (by omega), if_neg (by omega)]
  cases llm (summaryRequest dump _) with
  | none => rfl
  | some r =>
    simp only [Option.bind_some]
    split <;> rfl

/-- A push whose summarisation call fails is a plain push. -/
theorem push_of_failure (h : (c.pushed m).summaryRange? = some range)
    (hfail : summaryText? dump llm range = none) :
    (c.push dump llm m).conversation = c.conversation.push m := by
  rw [push_of_request h, hfail]
  rfl

/-! ### Runs -/

theorem pushAll_concat (c : SummarizingConversation) (ms : Pushes) (m : Message)
    (llm : List Message → Option LLMResponse) :
    c.pushAll dump (ms ++ [(m, llm)]) = (c.pushAll dump ms).push dump llm m := List.foldl_append

theorem allSucceed_concat : AllSucceed dump c (ms ++ [(m, llm)]) ↔ AllSucceed dump c ms ∧
    ∀ range ∈ ((c.pushAll dump ms).pushed m).summaryRange?,
      (summaryText? dump llm range).isSome := by
  induction ms generalizing c with
  | nil => simp [AllSucceed, pushAll]
  | cons first ms ih =>
    simp only [List.cons_append, AllSucceed]
    rw [ih, and_assoc]
    rfl

theorem ranges_concat : ranges dump c (ms ++ [(m, llm)]) =
    ranges dump c ms ++ ((c.pushAll dump ms).pushed m).summaryRange?.toList := by
  induction ms generalizing c with
  | nil => simp [ranges, pushAll]
  | cons first ms ih =>
    simp only [List.cons_append, ranges]
    rw [ih, List.append_assoc]
    rfl

/-! ### The Account -/

/-- The system message that the history begins with, if it does. -/
def leadingSystem (all : List Message) : Option Message := all.head?.filter (·.role = "system")

/-- The ranges of requests: the summary before it, and the messages that
    are summarized for the first time. -/
def chained (summary : Option Message) : List (List Message × Message) → List (List Message)
  | [] => []
  | (part, next) :: parts => (summary.toList ++ part) :: chained (some next) parts

/-- The last summary. -/
def latest (summary : Option Message) : List (List Message × Message) → Option Message
  | [] => summary
  | (_, next) :: parts => latest (some next) parts

/-- The pushed messages are, in this order, the system message, the parts
    that were summarized, and the recent ones. Each part was in the range
    of one request, behind the summary of the request before. The content
    is the system message, the last summary and the recent messages. -/
def Accounted (all : List Message) (ranges : List (List Message)) (content : List Message) : Prop :=
  ∃ (parts : List (List Message × Message)) (recent : List Message),
    all = (leadingSystem all).toList ++ ((parts.map Prod.fst).flatten ++ recent) ∧
    ranges = chained none parts ∧
    content = (leadingSystem all).toList ++ ((latest none parts).toList ++ recent) ∧
    ∀ part ∈ parts, part.1 ≠ [] ∧ IsSummary part.2

variable {all content part : List Message} {rs : List (List Message)}
  {parts : List (List Message × Message)} {summary : Option Message} {next : Message}

theorem chained_concat : chained summary (parts ++ [(part, next)]) =
    chained summary parts ++ [(latest summary parts).toList ++ part] := by
  induction parts generalizing summary with
  | nil => rfl
  | cons first parts ih =>
    rw [List.cons_append, chained, ih]
    rfl

theorem latest_concat : latest summary (parts ++ [(part, next)]) = some next := by
  induction parts generalizing summary with
  | nil => rfl
  | cons first parts ih => exact ih

theorem latest_none_isSummary (hparts : ∀ part ∈ parts, part.1 ≠ [] ∧ IsSummary part.2) :
    ∀ s ∈ latest none parts, IsSummary s := by
  induction parts using List.reverseRecOn with
  | nil => simp [latest]
  | append_singleton parts last _ =>
    rw [latest_concat]
    intro s hs
    obtain rfl := Option.some.inj hs
    exact (hparts last (by simp)).2

theorem leadingSystem_role : ∀ m ∈ leadingSystem all, m.role = "system" := by
  intro m hm
  exact of_decide_eq_true (Option.mem_filter_iff.mp hm).2

theorem leadingSystem_nil : leadingSystem [] = none := rfl

theorem leadingSystem_singleton (m : Message) :
    leadingSystem [m] = if m.role = "system" then some m else none := by
  simp [leadingSystem, Option.filter_some]

theorem leadingSystem_concat (hne : all ≠ []) (m : Message) :
    leadingSystem (all ++ [m]) = leadingSystem all := by
  unfold leadingSystem
  rw [List.head?_append_of_ne_nil _ hne]

theorem accounted_nil : Accounted [] [] [] := ⟨[], [], rfl, rfl, rfl, by simp⟩

/-- A message that is pushed without eviction. -/
theorem Accounted.concat (h : Accounted all rs content) (m : Message) :
    Accounted (all ++ [m]) rs (content ++ [m]) := by
  obtain ⟨parts, recent, hall, hranges, hcontent, hparts⟩ := h
  by_cases hne : all = []
  · -- the first message
    subst hne
    obtain rfl : parts = [] := by
      rw [List.eq_nil_iff_forall_not_mem]
      intro part hpart
      have hempty : (parts.map Prod.fst).flatten = [] := by
        simpa using (List.append_eq_nil_iff.mp (List.append_eq_nil_iff.mp hall.symm).2).1
      exact (hparts part hpart).1 (List.flatten_eq_nil_iff.mp hempty _ (List.mem_map_of_mem hpart))
    obtain rfl : recent = [] := by simpa [leadingSystem] using hall.symm
    subst hcontent
    by_cases hm : m.role = "system"
    · refine ⟨[], [], ?_, hranges, ?_, by simp⟩ <;>
        simp [leadingSystem_singleton, leadingSystem_nil, hm, latest]
    · refine ⟨[], [m], ?_, hranges, ?_, by simp⟩ <;>
        simp [leadingSystem_singleton, leadingSystem_nil, hm, latest]
  · refine ⟨parts, recent ++ [m], ?_, hranges, ?_, hparts⟩
    · rw [leadingSystem_concat hne]
      conv_lhs => rw [hall]
      simp only [List.append_assoc]
    · rw [leadingSystem_concat hne, hcontent]
      simp only [List.append_assoc]

/-- The system message is what the range leaves out in front. -/
theorem Accounted.start (h : Accounted all rs content) :
    summaryStart content = (leadingSystem all).toList.length := by
  obtain ⟨parts, recent, hall, -, rfl, hparts⟩ := h
  cases hlead : leadingSystem all with
  | some z =>
    have hz := leadingSystem_role z hlead
    simp [summaryStart, hz]
  | none =>
    cases hlatest : latest none parts with
    | some s =>
      have hs := IsSummary.not_system s (latest_none_isSummary hparts s hlatest)
      simp [summaryStart, hs]
    | none =>
      -- nothing has been summarized, so the recent messages are all there are
      obtain rfl : parts = [] := by
        obtain rfl | ⟨parts, last, rfl⟩ := List.eq_nil_or_concat' parts
        · rfl
        · rw [latest_concat] at hlatest
          exact absurd hlatest (Option.some_ne_none _)
      rw [hlead] at hall
      obtain rfl : all = recent := by simpa using hall
      cases all with
      | nil => rfl
      | cons first rest =>
        have hfirst : first.role ≠ "system" := by
          simpa [leadingSystem] using hlead
        simp [summaryStart, hfirst]

/-- A summarisation: its range is accounted for, and what is behind it are
    the most recent of the pushed messages. -/
theorem Accounted.summarize (h : Accounted all rs content) {stop : ℕ}
    (hcut : summaryStart content + 1 < stop) (hstop : stop ≤ content.length) (text : String) :
    Accounted all (rs ++ [(content.take stop).drop (summaryStart content)])
      (content.take (summaryStart content) ++ (summaryMessage text :: content.drop stop)) ∧
    content.take (summaryStart content) = (leadingSystem all).toList ∧
    content.drop stop = all.rtake (content.length - stop) := by
  have hstart := h.start
  obtain ⟨parts, recent, hall, hranges, hcontent, hparts⟩ := h
  rw [hstart] at hcut ⊢
  have hshort : (latest none parts).toList.length ≤ 1 := by
    cases latest none parts <;> simp
  have hlength : content.length = (leadingSystem all).toList.length +
      ((latest none parts).toList.length + recent.length) := by
    rw [hcontent]
    simp only [List.length_append]
  have hfront : content.take (leadingSystem all).toList.length = (leadingSystem all).toList := by
    rw [hcontent, List.take_left]
  -- the messages that are summarized for the first time
  obtain ⟨n, hn⟩ : ∃ n, stop = (leadingSystem all).toList.length +
      ((latest none parts).toList.length + (n + 1)) :=
    ⟨stop - (leadingSystem all).toList.length - (latest none parts).toList.length - 1, by omega⟩
  have hrange : (content.take stop).drop (leadingSystem all).toList.length =
      (latest none parts).toList ++ recent.take (n + 1) := by
    rw [hcontent, hn, List.take_length_add_append, List.drop_left, List.take_length_add_append]
  have hbehind : content.drop stop = recent.drop (n + 1) := by
    rw [hcontent, hn, List.drop_length_add_append, List.drop_length_add_append]
  have hpart : recent.take (n + 1) ≠ [] := by
    intro hnil
    have hzero := congrArg List.length hnil
    rw [List.length_take, List.length_nil] at hzero
    omega
  refine ⟨⟨parts ++ [(recent.take (n + 1), summaryMessage text)], recent.drop (n + 1), ?_, ?_,
    ?_, ?_⟩, hfront, ?_⟩
  · conv_lhs => rw [hall]
    simp only [List.map_append, List.map_cons, List.map_nil, List.flatten_append,
      List.flatten_cons, List.flatten_nil, List.append_nil, List.append_assoc,
      List.take_append_drop]
  · rw [chained_concat, hranges, hrange]
  · rw [hfront, hbehind, latest_concat]
    rfl
  · intro part hmem
    obtain hold | hnew := List.mem_append.mp hmem
    · exact hparts part hold
    · rw [List.mem_singleton.mp hnew]
      exact ⟨hpart, text, rfl⟩
  · have hsuffix : recent.drop (n + 1) <:+ all := by
      rw [hall]
      exact (List.drop_suffix _ _).trans
        ((List.suffix_append _ _).trans (List.suffix_append _ _))
    obtain ⟨before, hbefore⟩ := hsuffix
    have hlen : (recent.drop (n + 1)).length = content.length - stop := by
      rw [List.length_drop]
      omega
    rw [hbehind]
    conv_rhs => rw [← hbefore]
    rw [List.rtake_append_of_le (by omega), List.rtake_of_length_le (by omega)]

/-! ### Enough Room -/

/-- The invariant of a run in which every summarisation succeeds. -/
structure Ledger (c : SummarizingConversation) (all : List Message)
    (rs : List (List Message)) : Prop where
  accounted : Accounted all rs c.conversation.messages
  room : c.conversation.messages.length < c.conversation.maxMessages
  threshold : c.summarizeThreshold ≤ c.conversation.maxMessages
  recent : c.keepRecent + 3 ≤ c.conversation.maxMessages

theorem summaryStart_le (msgs : List Message) : summaryStart msgs ≤ 1 := by
  unfold summaryStart
  split
  · split <;> omega
  · omega

theorem summaryEnd_of_lt {keepRecent : ℕ} {msgs : List Message} (hlt : keepRecent < msgs.length) :
    summaryEnd keepRecent msgs = msgs.length - keepRecent := if_pos hlt

/-- Where more than one message is summarized there are recent ones to
    keep behind them. -/
theorem summaryEnd_of_cut {keepRecent : ℕ} {msgs : List Message}
    (hcut : summaryStart msgs + 1 < summaryEnd keepRecent msgs) :
    keepRecent < msgs.length ∧ summaryEnd keepRecent msgs = msgs.length - keepRecent := by
  by_cases hlt : keepRecent < msgs.length
  · exact ⟨hlt, summaryEnd_of_lt hlt⟩
  · unfold summaryEnd at hcut
    rw [if_neg hlt] at hcut
    omega

/-- Below the capacity a push evicts nothing. -/
theorem Ledger.messages_pushed (h : Ledger c all rs) (m : Message) :
    (c.conversation.push m).messages = c.conversation.messages ++ [m] := by
  rw [Conversation.push_of_lt h.room]

/-- A conversation that is full is summarized. -/
theorem Ledger.lt_of_no_request (h : Ledger c all rs) (hnone : (c.pushed m).summaryRange? = none) :
    (c.conversation.push m).messages.length < c.conversation.maxMessages := by
  have hmessages := h.messages_pushed m
  have hroom := h.room
  have hthreshold := h.threshold
  have hrecent := h.recent
  unfold summaryRange? pushed at hnone
  simp only [hmessages, List.length_append, List.length_singleton] at hnone ⊢
  split at hnone
  · omega
  · split at hnone
    · next hcut =>
      have hstart := summaryStart_le (c.conversation.messages ++ [m])
      by_contra hfull
      rw [summaryEnd_of_lt (by simp; omega), List.length_append, List.length_singleton] at hcut
      omega
    · exact absurd hnone (Option.some_ne_none _)

/-- **A summarisation.** The content is the system message, the summary
    and the last messages, shorter than it was. -/
theorem Ledger.push_request (h : Ledger c all rs) (hreq : (c.pushed m).summaryRange? = some range)
    (htext : summaryText? dump llm range = some text) :
    Ledger (c.push dump llm m) (all ++ [m]) (rs ++ [range]) ∧
    (c.push dump llm m).conversation.messages = (leadingSystem (all ++ [m])).toList ++
      (summaryMessage text :: (all ++ [m]).rtake c.keepRecent) ∧
    (c.push dump llm m).conversation.messages.length <
      (c.conversation.push m).messages.length := by
  obtain ⟨-, hcut, hrange⟩ := request_inv hreq
  unfold pushed at hcut hrange
  simp only at hcut hrange
  obtain ⟨hlt, hstop⟩ := summaryEnd_of_cut hcut
  have hcap := c.conversation.length_push_le m
  have hpushed : (c.conversation.push m).maxMessages = c.conversation.maxMessages := rfl
  rw [hpushed] at hcap
  have hpush := @push_of_request dump c m llm range hreq
  rw [htext] at hpush
  simp only at hpush
  rw [rebuild_eq hcap hcut] at hpush
  -- the account of the messages, this one included
  have hacc := h.accounted.concat m
  rw [← h.messages_pushed m] at hacc
  obtain ⟨hsummarized, hfront, hbehind⟩ := hacc.summarize hcut (by omega) text
  have hkept : (c.conversation.push m).messages.length -
      summaryEnd c.keepRecent (c.conversation.push m).messages = c.keepRecent := by omega
  rw [hkept] at hbehind
  have hshorter : (c.push dump llm m).conversation.messages.length <
      (c.conversation.push m).messages.length := by
    rw [hpush]
    simp only [List.length_append, List.length_take, List.length_cons, List.length_drop]
    omega
  have hcontent : (c.push dump llm m).conversation.messages =
      (leadingSystem (all ++ [m])).toList ++
        (summaryMessage text :: (all ++ [m]).rtake c.keepRecent) := by
    rw [hpush]
    simp only
    rw [hfront, hbehind]
  refine ⟨⟨?_, ?_, ?_, ?_⟩, hcontent, hshorter⟩
  · rw [hrange, hpush]
    exact hsummarized
  · rw [hpush] at hshorter ⊢
    exact lt_of_lt_of_le hshorter hcap
  · rw [hpush]
    exact h.threshold
  · rw [hpush]
    exact h.recent

/-- **Step of the ledger.** -/
theorem Ledger.push (h : Ledger c all rs)
    (hok : ∀ range ∈ (c.pushed m).summaryRange?, (summaryText? dump llm range).isSome) :
    Ledger (c.push dump llm m) (all ++ [m]) (rs ++ (c.pushed m).summaryRange?.toList) := by
  cases hreq : (c.pushed m).summaryRange? with
  | none =>
    have hlt := h.lt_of_no_request hreq
    have hacc := h.accounted.concat m
    rw [← h.messages_pushed m] at hacc
    rw [push_of_no_request hreq, Option.toList_none, List.append_nil]
    exact ⟨hacc, hlt, h.threshold, h.recent⟩
  | some range =>
    obtain ⟨text, htext⟩ := Option.isSome_iff_exists.mp (hok range hreq)
    exact (h.push_request hreq htext).1

/-- The ledger of a run. -/
theorem Ledger.pushAll {maxMessages summarizeThreshold keepRecent : ℕ}
    (hthreshold : summarizeThreshold ≤ maxMessages) (hrecent : keepRecent + 3 ≤ maxMessages)
    (hok : AllSucceed dump (new maxMessages summarizeThreshold keepRecent) ms) :
    Ledger ((new maxMessages summarizeThreshold keepRecent).pushAll dump ms) (ms.map Prod.fst)
      (ranges dump (new maxMessages summarizeThreshold keepRecent) ms) := by
  induction ms using List.reverseRecOn with
  | nil =>
    refine ⟨accounted_nil, ?_, hthreshold, hrecent⟩
    show 0 < maxMessages
    omega
  | append_singleton ms last ih =>
    obtain ⟨m, llm⟩ := last
    obtain ⟨hbefore, hlast⟩ := allSucceed_concat.mp hok
    rw [pushAll_concat, List.map_append, ranges_concat]
    exact (ih hbefore).push hlast

theorem keepRecent_push : (c.push dump llm m).keepRecent = c.keepRecent := by
  cases hreq : (c.pushed m).summaryRange? with
  | none => rw [push_of_no_request hreq]; rfl
  | some range =>
    rw [push_of_request hreq]
    cases summaryText? dump llm range <;> rfl

theorem keepRecent_pushAll : (c.pushAll dump ms).keepRecent = c.keepRecent := by
  induction ms using List.reverseRecOn with
  | nil => rfl
  | append_singleton ms last ih =>
    obtain ⟨m, llm⟩ := last
    rw [pushAll_concat, keepRecent_push, ih]

/-- **Nothing is lost.** As long as every summarisation succeeds, the next
    push evicts nothing, every pushed message is accounted for, and a
    summarisation leaves the system message, one summary and the last
    messages. A push whose summarisation fails is a plain push, in every
    conversation. -/
theorem ledger_of_pushes {maxMessages summarizeThreshold keepRecent : ℕ}
    (hthreshold : summarizeThreshold ≤ maxMessages) (hrecent : keepRecent + 3 ≤ maxMessages)
    (dump : List Message → String) :
    (∀ ms, AllSucceed dump (new maxMessages summarizeThreshold keepRecent) ms →
      ∀ c, c = (new maxMessages summarizeThreshold keepRecent).pushAll dump ms →
      (∀ m, (c.conversation.push m).messages = c.conversation.messages ++ [m]) ∧
      Accounted (ms.map Prod.fst)
        (ranges dump (new maxMessages summarizeThreshold keepRecent) ms)
        c.conversation.messages ∧
      ∀ m llm range text, (c.pushed m).summaryRange? = some range →
        summaryText? dump llm range = some text →
        (c.push dump llm m).conversation.messages =
          (leadingSystem (ms.map Prod.fst ++ [m])).toList ++
            (summaryMessage text :: (ms.map Prod.fst ++ [m]).rtake keepRecent) ∧
        (c.push dump llm m).conversation.messages.length <
          (c.conversation.push m).messages.length) ∧
    ∀ (c : SummarizingConversation) m llm range, (c.pushed m).summaryRange? = some range →
      summaryText? dump llm range = none →
      (c.push dump llm m).conversation = c.conversation.push m := by
  constructor
  · rintro ms hok c rfl
    have hledger := Ledger.pushAll hthreshold hrecent hok
    refine ⟨hledger.messages_pushed, hledger.accounted, ?_⟩
    intro m llm range text hreq htext
    have hkeep : ((new maxMessages summarizeThreshold keepRecent).pushAll dump ms).keepRecent =
        keepRecent := keepRecent_pushAll
    have hcontent := (hledger.push_request hreq htext).2
    rwa [hkeep] at hcontent
  · intro c m llm range hreq hfail
    exact push_of_failure hreq hfail

/-- An LLM that sums up everything in one word. -/
def tersely (_ : List Message) : Option LLMResponse :=
  some { message := { role := "assistant", content := "done" } }

theorem tersely_succeeds (dump : List Message → String) (range : List Message) :
    summaryText? dump tersely range = some "done" := by
  unfold summaryText? tersely
  rw [Option.bind_some, if_neg (by decide)]

/-- A system message and three others, with room for four. -/
def fourPushes : Pushes :=
  [(⟨"system", "s", [], ""⟩, tersely), (⟨"user", "a", [], ""⟩, tersely),
    (⟨"user", "b", [], ""⟩, tersely), (⟨"user", "c", [], ""⟩, tersely)]

theorem fourPushes_succeed (dump : List Message → String) :
    AllSucceed dump (new 4 4 1) fourPushes := by
  simp [AllSucceed, fourPushes, tersely_succeeds]

/-- The fourth push asks for a summary. -/
theorem fourPushes_accounted :
    Accounted (fourPushes.map Prod.fst) (ranges (fun _ => "") (new 4 4 1) fourPushes)
      ((new 4 4 1).pushAll (fun _ => "") fourPushes).conversation.messages :=
  ((@ledger_of_pushes 4 4 1 le_rfl le_rfl fun _ => "").1 fourPushes
    (fourPushes_succeed _) _ rfl).2.1

end SummarizingConversation

end Forge
