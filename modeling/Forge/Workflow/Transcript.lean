import Forge.Session.SummaryContent
import Forge.Workflow.ReActRun

/-! # Transcripts under a Bound

  What `ReActWorkflow::run` pushes is grouped: every assistant message is
  followed by its tool messages. The history it sends to the LLM is cut by
  count, so the cut may go through a group. The same holds of the history
  of a `SummarizingConversation`.

  - `grouped_transcript`: the pushes are grouped;
  - `history_cut`: what is left of them, and when it is well-formed;
  - `cut_through_group`: a cut through a group.
-/

namespace Forge

open LTS

namespace ReActWorkflow

open Conversation (window room)
open SummarizingConversation (Since leadingSystem leadingSystem_eq_some)

variable {reg : ToolRegistry} {x : Session}

theorem Answers.asks {r : LLMResponse} {ms : List Message} (hans : Answers r ms)
    (hrole : r.message.role = "assistant") :
    ∀ m ∈ ms, m.role = "tool" ∧ r.message.Asks m := by
  intro m hm
  refine ⟨hans.2 m hm, hrole, ?_⟩
  rw [← hans.1]
  exact List.mem_map_of_mem hm

/-- The messages pushed so far are grouped. -/
theorem grouped_transcript {ms : List Message} (hms : Grouped ms)
    (turns : List (LLMResponse × List Message))
    (hturns : ∀ turn ∈ turns, Answers turn.1 turn.2 ∧ turn.1.message.role = "assistant") :
    Grouped (ms ++ transcript turns) := by
  induction turns using List.reverseRecOn with
  | nil => simpa [transcript] using hms
  | append_singleton turns turn ih =>
    have hold := ih fun t ht => hturns t (by simp [ht])
    obtain ⟨hans, hrole⟩ := hturns turn (by simp)
    rw [transcript_snoc, ← List.append_assoc]
    exact hold.group hrole (hans.asks hrole)

/-- What a request is made of. -/
theorem request_cut {s : Logged} (hle : x.history.messages.length ≤ x.history.maxMessages)
    (hms : Grouped x.history.messages) (hi : Inv x s) (hpc : s.run.pc = .complete)
    (hroles : ∀ r ∈ responses s.log, r.message.role = "assistant") :
    ∃ turns pushes, turns.map Prod.fst = responses s.log ∧
      (∀ turn ∈ turns, Answers turn.1 turn.2) ∧
      pushes = x.history.messages ++ transcript turns ∧
      s.run.request = window x.history.maxMessages pushes ∧
      (∀ z ∈ leadingSystem x.history.messages, leadingSystem s.run.request = some z) ∧
      (WellFormed s.run.request ↔
        ∀ m ∈ (pushes.rtake (room x.history.maxMessages pushes)).head?, m.role ≠ "tool") ∧
      (pushes.length ≤ x.history.maxMessages → WellFormed s.run.request) := by
  obtain ⟨turns, hturns, hrec⟩ := hi.recorded
  rw [hpc] at hrec
  obtain ⟨hrs, hh⟩ := hrec
  have hgrouped : Grouped (x.history.messages ++ transcript turns) := by
    apply grouped_transcript hms
    intro turn hturn
    refine ⟨hturns turn hturn, hroles turn.1 ?_⟩
    rw [hrs]
    exact List.mem_map_of_mem hturn
  have hpushed : s.run.request = (x.history.pushAll (transcript turns)).messages := by
    rw [← hh]
    rfl
  have hrequest : s.run.request =
      window x.history.maxMessages (x.history.messages ++ transcript turns) :=
    hpushed.trans (Conversation.pushAll_window hle _)
  refine ⟨turns, _, hrs.symm, hturns, rfl, hrequest, ?_, ?_, ?_⟩
  · intro z hz
    obtain ⟨hhead, hrole⟩ := leadingSystem_eq_some.mp hz
    -- there is room for the message that is in front
    have hmax : 1 ≤ x.history.maxMessages := by
      obtain ⟨rest, hrest⟩ := List.head?_eq_some_iff.mp hhead
      rw [hrest, List.length_cons] at hle
      omega
    rw [hpushed]
    exact leadingSystem_eq_some.mpr ⟨Conversation.front_pushAll hmax hrole hhead _, hrole⟩
  · rw [hrequest]
    exact @Grouped.wellFormed_window_iff _ _ [] hgrouped (by simp) List.suffix_rfl _
  · intro hfits
    rw [hrequest, Conversation.window_of_le hfits]
    exact hgrouped.wellFormed

/-- What the content of a summarizing conversation is made of. -/
theorem content_cut (dump : List Message → String)
    (maxMessages summarizeThreshold keepRecent : ℕ) {ms : SummarizingConversation.Pushes}
    (hgrouped : Grouped (ms.map Prod.fst)) :
    ∃ front since,
      Since dump (.new maxMessages summarizeThreshold keepRecent) ms front since ∧
      ((SummarizingConversation.new maxMessages summarizeThreshold keepRecent).pushAll dump
        ms).conversation.messages = window maxMessages (front ++ since) ∧
      (∀ before, before <+: ms → ∀ z ∈ leadingSystem ((SummarizingConversation.new maxMessages
          summarizeThreshold keepRecent).pushAll dump before).conversation.messages,
        leadingSystem ((SummarizingConversation.new maxMessages summarizeThreshold
          keepRecent).pushAll dump ms).conversation.messages = some z) ∧
      (WellFormed ((SummarizingConversation.new maxMessages summarizeThreshold keepRecent).pushAll
          dump ms).conversation.messages ↔
        ∀ m ∈ (since.rtake (room maxMessages (front ++ since))).head?, m.role ≠ "tool") := by
  obtain ⟨front, since, hsince, -, hcontent⟩ :=
    SummarizingConversation.exists_since dump maxMessages summarizeThreshold keepRecent ms
  refine ⟨front, since, hsince, hcontent, ?_, ?_⟩
  · rintro before ⟨after, rfl⟩ z hz
    obtain ⟨front', since', -, hmax, hbefore⟩ :=
      SummarizingConversation.exists_since dump maxMessages summarizeThreshold keepRecent before
    -- where there is room for a message in front
    have hroom : 1 ≤ maxMessages := by
      by_contra hzero
      obtain rfl : maxMessages = 0 := by omega
      rw [hbefore, Conversation.window_zero] at hz
      cases hz
    rw [SummarizingConversation.pushAll, List.foldl_append]
    exact SummarizingConversation.leadingSystem_stays (hmax.symm ▸ hroom) hz after
  · rw [hcontent]
    exact hgrouped.wellFormed_window_iff hsince.quiet hsince.suffix _

/-- **Bounding cuts by count.** Every LLM request of `run` is the window of
    the messages pushed: the first system message among those that have to
    go, and as many of the most recent ones as there is room for behind it.
    The content of a `SummarizingConversation` after every push is the
    window of what the last summary has left in front, and of the recent
    messages that it kept and those pushed since. In both a system message
    in front stays there. They are well-formed exactly when the oldest of
    the recent messages is no tool message, that is unless the cut goes
    through a group; for `run` in particular as long as nothing has been
    evicted. -/
theorem history_cut :
    (∀ reg x tr s, x.Fresh → x.history.messages.length ≤ x.history.maxMessages →
      Grouped x.history.messages → (system reg x).Run tr s →
      s.run.pc = .complete → (∀ r ∈ responses s.log, r.message.role = "assistant") →
      ∃ turns pushes, turns.map Prod.fst = responses s.log ∧
        (∀ turn ∈ turns, Answers turn.1 turn.2) ∧
        pushes = x.history.messages ++ transcript turns ∧
        s.run.request = window x.history.maxMessages pushes ∧
        (∀ z ∈ leadingSystem x.history.messages, leadingSystem s.run.request = some z) ∧
        (WellFormed s.run.request ↔
          ∀ m ∈ (pushes.rtake (room x.history.maxMessages pushes)).head?, m.role ≠ "tool") ∧
        (pushes.length ≤ x.history.maxMessages → WellFormed s.run.request)) ∧
    ∀ dump maxMessages summarizeThreshold keepRecent ms, Grouped (ms.map Prod.fst) →
      ∃ front since,
        Since dump (.new maxMessages summarizeThreshold keepRecent) ms front since ∧
        ((SummarizingConversation.new maxMessages summarizeThreshold keepRecent).pushAll dump
          ms).conversation.messages = window maxMessages (front ++ since) ∧
        (∀ before, before <+: ms → ∀ z ∈ leadingSystem ((SummarizingConversation.new maxMessages
            summarizeThreshold keepRecent).pushAll dump before).conversation.messages,
          leadingSystem ((SummarizingConversation.new maxMessages summarizeThreshold
            keepRecent).pushAll dump ms).conversation.messages = some z) ∧
        (WellFormed ((SummarizingConversation.new maxMessages summarizeThreshold
            keepRecent).pushAll dump ms).conversation.messages ↔
          ∀ m ∈ (since.rtake (room maxMessages (front ++ since))).head?, m.role ≠ "tool") := by
  constructor
  · intro reg x tr s hx hle hms hrun hpc hroles
    exact request_cut hle hms (inv_run hx hrun) hpc hroles
  · intro dump maxMessages summarizeThreshold keepRecent ms hgrouped
    exact content_cut dump maxMessages summarizeThreshold keepRecent hgrouped

/-! ### A Cut through a Group -/

/-- A session with room for two messages. -/
def narrow : Session :=
  { Session.new 1 { maxHistory := 2 } 0 with
    history := ⟨2, [⟨"system", "", [], ""⟩, ⟨"user", "2 + 2?", [], ""⟩]⟩ }

/-- The LLM has asked for a tool; the next request is on its way. -/
def askedOnce : List RunLabel :=
  iteration ⟨⟨"assistant", "", [⟨"1", "search", ""⟩], ""⟩, 5, 2, "", ""⟩ ++
    [RunLabel.work .tau, .work .tau, .work (.batch [.output "found"]), .work .tau, .work .tau,
      .work .tau, .work .tau, .work .tau, .work (.now 1), .work .tau, .work .tau]

theorem narrow_fresh : narrow.Fresh := ⟨rfl, rfl, ⟨rfl, rfl⟩, by decide⟩

theorem narrow_grouped : Grouped narrow.history.messages := grouped_of_no_tools (by decide)

/-- A tool message behind messages that ask for none. -/
theorem not_wellFormed_of_head (front : List Message) {rest : List Message} {m : Message}
    (htool : m.role = "tool") (hfront : ∀ a ∈ front, ¬a.Asks m) :
    ¬WellFormed (front ++ m :: rest) := by
  intro hwf
  obtain ⟨a, ha, hasks⟩ := hwf front m rest rfl htool
  exact hfront a ha hasks

/-- The messages of one group. -/
def oneGroup : List Message :=
  [⟨"user", "2 + 2?", [], ""⟩, ⟨"assistant", "", [⟨"1", "search", ""⟩], ""⟩,
    ⟨"tool", "found", [], "1"⟩]

theorem oneGroup_grouped : Grouped oneGroup := by
  have hfirst : Grouped [⟨"user", "2 + 2?", [], ""⟩] := grouped_of_no_tools (by decide)
  exact hfirst.group rfl (by decide)

/-- The summary takes the place of an assistant message, and its tool
    message stays. -/
def summarizedOnce : SummarizingConversation :=
  (SummarizingConversation.new 10 3 1).pushAll (fun _ => "")
    (oneGroup.map fun m =>
      (m, fun _ => some { message := { role := "assistant", content := "A sum." } }))

/-- Room for two messages is not enough for an assistant message, its tool
    message and the system message, and a summary cuts a group as well. -/
theorem cut_through_group :
    (¬ ∀ reg x tr s, x.Fresh → x.history.messages.length ≤ x.history.maxMessages →
      Grouped x.history.messages → 2 ≤ x.history.maxMessages →
      (system reg x).Run tr s → s.run.pc = .complete →
      (∀ r ∈ responses s.log, r.message.role = "assistant") → WellFormed s.run.request) ∧
    ¬ ∀ dump maxMessages threshold keepRecent ms, 2 ≤ maxMessages → Grouped (ms.map Prod.fst) →
      WellFormed ((SummarizingConversation.new maxMessages threshold keepRecent).pushAll dump
        ms).conversation.messages := by
  refine ⟨?_, ?_⟩
  · intro hall
    -- the system message, the answer and the assistant message do not fit together
    have hends : (System.exec (logNext ⟨["search"]⟩) ⟨start narrow, []⟩ askedOnce).map
        (fun s => (s.run.pc, (responses s.log).map (·.message.role), s.run.request)) =
        some (.complete, ["assistant"], [⟨"system", "", [], ""⟩, ⟨"tool", "found", [], "1"⟩]) := by
      decide
    obtain ⟨s, hrun, hends⟩ := System.exists_run_of_exec hends
    simp only [Prod.mk.injEq] at hends
    obtain ⟨hpc, hroles, hrequest⟩ := hends
    have hwf := hall _ _ _ s narrow_fresh (by decide) narrow_grouped (by decide) hrun hpc ?_
    · rw [hrequest] at hwf
      exact not_wellFormed_of_head [⟨"system", "", [], ""⟩] rfl (by decide) hwf
    · intro r hr
      have hmem : r.message.role ∈ (responses s.log).map (·.message.role) := List.mem_map_of_mem hr
      rw [hroles] at hmem
      exact List.mem_singleton.mp hmem
  · intro hall
    have hcontent : summarizedOnce.conversation.messages =
        [SummarizingConversation.summaryMessage "A sum.", ⟨"tool", "found", [], "1"⟩] := by decide
    have hwf := hall (fun _ => "") 10 3 1 (oneGroup.map fun m =>
      (m, fun _ => some { message := { role := "assistant", content := "A sum." } }))
      (by decide) oneGroup_grouped
    rw [show ((SummarizingConversation.new 10 3 1).pushAll _ _) = summarizedOnce from rfl,
      hcontent] at hwf
    exact not_wellFormed_of_head [SummarizingConversation.summaryMessage "A sum."] rfl
      (by decide) hwf

/-- Room for three messages is not enough to keep the user's question. -/
def wide : Session := { narrow with history := { narrow.history with maxMessages := 3 } }

theorem askedOnce_cut :
    ∃ s, (system ⟨["search"]⟩ wide).Run askedOnce s ∧ s.run.pc = .complete ∧
      ∃ turns pushes, turns.map Prod.fst = responses s.log ∧
        pushes = wide.history.messages ++ transcript turns ∧
        s.run.request = window wide.history.maxMessages pushes ∧
        (WellFormed s.run.request ↔
          ∀ m ∈ (pushes.rtake (room wide.history.maxMessages pushes)).head?, m.role ≠ "tool") := by
  have hends : (System.exec (logNext ⟨["search"]⟩) ⟨start wide, []⟩ askedOnce).map
      (fun s : Logged => (s.run.pc, decide (∀ r ∈ responses s.log, r.message.role = "assistant"))) =
      some (.complete, true) := by decide
  obtain ⟨s, hrun, hends⟩ := System.exists_run_of_exec hends
  simp only [Prod.mk.injEq, decide_eq_true_eq] at hends
  have hfresh : wide.Fresh := ⟨rfl, rfl, ⟨rfl, rfl⟩, by decide⟩
  obtain ⟨turns, pushes, hrs, -, hpushes, hrequest, -, hiff, -⟩ :=
    history_cut.1 _ _ _ s hfresh (by decide) narrow_grouped hrun hends.1 hends.2
  exact ⟨s, hrun, hends.1, turns, pushes, hrs, hpushes, hrequest, hiff⟩

end ReActWorkflow

end Forge
