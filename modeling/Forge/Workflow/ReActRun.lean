import Forge.Framework.Termination
import Forge.Workflow.Outcome
import Mathlib.Data.Prod.Lex
import Mathlib.Order.WellFoundedSet

/-! # Runs of the ReAct Workflow

  `ReActWorkflow::run` on a fresh session, against any LLM, any tools and
  any clock, with a cancellation at any moment. No exception is raised:
  the LLM answers every call, with a response or an error text, and a tool
  ends with an output, a `std::exception` or a timeout, or is unknown.

  The log of a run holds what it did, oldest first:

  - `Counted`: the counter is the number of calls of the LLM;
  - `Recorded`: the history is made of the responses in the log and their
    tool messages, `Totals`: the tokens are theirs;
  - `PC.AfterCancel`: what may follow a cancellation;
  - `State.rank`: every step of `run` goes down, so that a run ends.
-/

namespace Forge

open LTS

open Workflow (Label)

namespace ReActWorkflow

/-- What a run does. -/
inductive Event where
  /-- `cancel_requested` is set. -/
  | cancel
  /-- The check of `cancel_requested` at the top of an iteration. -/
  | check
  /-- The LLM is called with these messages. -/
  | call (request : List Message)
  | response (r : LLMResponse)
  deriving DecidableEq

/-- What a step of `run` does. -/
def event (s : State) (l : Label) : Option Event :=
  match s.pc, l with
  | .checkCancel, _ => some .check
  | .complete, _ => some (.call s.request)
  | .get, .reply r => some (.response r)
  | _, _ => none

structure Logged where
  run : State
  log : List Event
  deriving DecidableEq

inductive RunLabel where
  /-- `cancel_requested.store(true)`. -/
  | cancel
  /-- `run` takes a step. -/
  | work (l : Label)
  deriving DecidableEq

/-- The step function; steps that raise an exception are left out. -/
def logNext (reg : ToolRegistry) (s : Logged) : RunLabel → Option Logged
  | .cancel =>
      some ⟨{ s.run with session := { s.run.session with cancelRequested := true } },
        s.log ++ [.cancel]⟩
  | .work l =>
      if raises reg s.run l then none
      else (next reg s.run l).map fun run => ⟨run, s.log ++ (event s.run l).toList⟩

/-- `run(x)` and its log. -/
def system (reg : ToolRegistry) (x : Session) : System Logged RunLabel :=
  System.ofNext ⟨start x, if x.cancelRequested then [.cancel] else []⟩ (logNext reg)

/-! ### Reading the Log -/

def Event.isCall : Event → Bool
  | .call _ => true
  | _ => false

/-- The number of calls of the LLM. -/
def calls (log : List Event) : ℕ := log.countP Event.isCall

/-- The responses without an error, oldest first. -/
def responses (log : List Event) : List LLMResponse :=
  log.filterMap fun
    | .response r => if r.error = "" then some r else none
    | _ => none

/-- The tool messages that belong to a response: one for each tool call,
    in the order of the calls. -/
def Answers (r : LLMResponse) (ms : List Message) : Prop :=
  ms.map Message.toolCallId = r.message.toolCalls.map ToolCall.id ∧ ∀ m ∈ ms, m.role = "tool"

/-- The messages of a list of turns: the assistant message of each and its
    tool messages. -/
def transcript (turns : List (LLMResponse × List Message)) : List Message :=
  turns.flatMap fun turn => turn.1.message :: turn.2

theorem calls_append (log log' : List Event) : calls (log ++ log') = calls log + calls log' :=
  List.countP_append

@[simp] theorem calls_nil : calls [] = 0 := rfl

@[simp] theorem calls_cancel : calls [.cancel] = 0 := rfl

@[simp] theorem calls_check : calls [.check] = 0 := rfl

@[simp] theorem calls_call (request : List Message) : calls [.call request] = 1 := rfl

@[simp] theorem calls_response (r : LLMResponse) : calls [.response r] = 0 := rfl

theorem responses_append (log log' : List Event) :
    responses (log ++ log') = responses log ++ responses log' := List.filterMap_append

@[simp] theorem responses_nil : responses [] = [] := rfl

@[simp] theorem responses_cancel : responses [.cancel] = [] := rfl

@[simp] theorem responses_check : responses [.check] = [] := rfl

@[simp] theorem responses_call (request : List Message) : responses [.call request] = [] := rfl

@[simp] theorem responses_response (r : LLMResponse) :
    responses [.response r] = if r.error = "" then [r] else [] := by
  by_cases herr : r.error = "" <;> simp [responses, herr]

theorem transcript_snoc (turns : List (LLMResponse × List Message))
    (turn : LLMResponse × List Message) :
    transcript (turns ++ [turn]) = transcript turns ++ turn.1.message :: turn.2 := by
  simp [transcript]

variable {reg : ToolRegistry} {x : Session} {s s' : Logged} {l : Label}

/-- A step of `run` that is logged raises no exception. -/
theorem logNext_work (hs : logNext reg s (.work l) = some s') :
    Moves reg s.run l s'.run ∧ s'.run.pc ≠ .threw ∧ s'.log = s.log ++ (event s.run l).toList := by
  simp only [logNext] at hs
  split at hs
  · cases hs
  · next hquiet =>
    obtain ⟨run, hrun, rfl⟩ := Option.map_eq_some_iff.mp hs
    have hmoves := moves_of_next hrun
    refine ⟨hmoves, ?_, rfl⟩
    rw [Ne, threw_iff hmoves]
    exact hquiet

/-! ### Counting Calls -/

/-- The counter is the number of calls of the LLM; it is ahead by one
    right before a call. -/
def Counted (s : Logged) : Prop :=
  s.run.session.stepCount = calls s.log + if s.run.pc = .complete then 1 else 0

theorem Counted.step (hmax : s.run.session.config.maxIterations < 2 ^ 32)
    (hbound : s.run.pc.Counts s.run.session) (hc : Counted s)
    (hs : logNext reg s (.work l) = some s') : Counted s' := by
  obtain ⟨hmoves, hquiet, hlog⟩ := logNext_work hs
  obtain ⟨run, log⟩ := s
  obtain ⟨run', log'⟩ := s'
  simp only at hmoves hquiet hlog hbound hmax
  unfold Counted at hc ⊢
  simp only at hc ⊢
  rw [hlog, calls_append]
  cases hmoves
  case countStep x res =>
    have hlt : x.stepCount < x.config.maxIterations := hbound
    rw [Session.countStep_of_lt (Nat.lt_of_le_of_lt hlt hmax)]
    simpa [event] using hc
  case complete => simpa [event] using hc
  case completeRaises => exact absurd rfl hquiet
  case pushAssistant msg =>
    obtain ⟨-, hpc⟩ | ⟨-, -, hpc⟩ | ⟨-, -, hpc⟩ := afterAssistant_cases msg <;>
      simpa [event, hpc] using hc
  all_goals simpa [event] using hc

/-! ### Tokens and History -/

/-- The totals are the sums over the responses so far. -/
def Totals (s : Logged) : Prop :=
  AddsUp s.run.result.totalPromptTokens ((responses s.log).map LLMResponse.promptTokens) ∧
    AddsUp s.run.result.totalCompletionTokens
      ((responses s.log).map LLMResponse.completionTokens)

theorem Totals.step (ht : Totals s) (hs : logNext reg s (.work l) = some s') : Totals s' := by
  obtain ⟨hmoves, -, hlog⟩ := logNext_work hs
  obtain ⟨run, log⟩ := s
  obtain ⟨run', log'⟩ := s'
  simp only at hmoves hlog
  unfold Totals at ht ⊢
  simp only [hlog, responses_append, List.map_append] at ht ⊢
  cases hmoves
  case reply res r herr =>
    simp only [event, Option.toList_some, responses_response, herr, if_true, List.map_cons,
      List.map_nil]
    exact ⟨ht.1.snoc, ht.2.snoc⟩
  case replyError res r herr => simpa [event, herr] using ht
  all_goals simpa [event] using ht

/-- The results of a batch answer its calls one by one. -/
theorem executeBatch_ids {calls : List ToolCall} {outcomes : List ToolOutcome}
    {results : List ToolResult} (hlen : outcomes.length = calls.length)
    (h : executeBatch reg calls outcomes = some results) :
    results.map ToolResult.toolCallId = calls.map ToolCall.id := by
  induction calls generalizing outcomes results with
  | nil =>
    simp only [executeBatch, Option.some.injEq] at h
    simp [← h]
  | cons call calls ih =>
    cases outcomes with
    | nil => simp at hlen
    | cons o outcomes =>
      simp only [executeBatch] at h
      split at h
      · next tr trs htr htrs =>
        cases h
        have hid : tr.toolCallId = call.id := by
          unfold collect at htr
          split at htr
          · cases o <;> cases htr <;> rfl
          · cases htr
            rfl
        rw [List.map_cons, List.map_cons, hid, ih (by simpa using hlen) htrs]
      · cases h

/-- What the history of a run on `x` holds, with the turns that are over
    and the responses `rs` so far: a turn under way has its assistant
    message, then its tool messages one by one. -/
def PC.Records (x : Session) (turns : List (LLMResponse × List Message)) (rs : List LLMResponse)
    (h : Conversation) : PC → Prop
  | .pushAssistant msg =>
      ∃ r, r.message = msg ∧ rs = turns.map Prod.fst ++ [r] ∧
        h = x.history.pushAll (transcript turns)
  | .storeExecuting calls | .executeBatch calls =>
      ∃ r, r.message.toolCalls = calls ∧ rs = turns.map Prod.fst ++ [r] ∧
        h = x.history.pushAll (transcript turns ++ [r.message])
  | .pushResults results =>
      ∃ r pushed, Answers r (pushed ++ results.map ToolResult.toMessage) ∧
        rs = turns.map Prod.fst ++ [r] ∧
        h = x.history.pushAll (transcript turns ++ r.message :: pushed)
  | _ => rs = turns.map Prod.fst ∧ h = x.history.pushAll (transcript turns)

/-- The history is made of the responses so far and their tool messages. -/
def Recorded (x : Session) (s : Logged) : Prop :=
  ∃ turns : List (LLMResponse × List Message), (∀ turn ∈ turns, Answers turn.1 turn.2) ∧
    s.run.pc.Records x turns (responses s.log) s.run.session.history

theorem answers_snoc {turns : List (LLMResponse × List Message)} {r : LLMResponse}
    {ms : List Message} (hturns : ∀ turn ∈ turns, Answers turn.1 turn.2) (hr : Answers r ms) :
    ∀ turn ∈ turns ++ [(r, ms)], Answers turn.1 turn.2 := by
  intro turn hturn
  obtain hold | hnew := List.mem_append.mp hturn
  · exact hturns turn hold
  · rw [List.mem_singleton.mp hnew]
    exact hr

theorem Recorded.step (hr : Recorded x s) (hs : logNext reg s (.work l) = some s') :
    Recorded x s' := by
  obtain ⟨hmoves, hquiet, hlog⟩ := logNext_work hs
  obtain ⟨run, log⟩ := s
  obtain ⟨run', log'⟩ := s'
  obtain ⟨turns, hturns, hrec⟩ := hr
  simp only at hmoves hquiet hlog hrec
  subst hlog
  unfold Recorded
  simp only [responses_append]
  cases hmoves
  case reply res r herr =>
    obtain ⟨hrs, hh⟩ := hrec
    exact ⟨turns, hturns, r, rfl, by simp [event, herr, ← hrs], hh⟩
  case replyError res r herr =>
    obtain ⟨hrs, hh⟩ := hrec
    exact ⟨turns, hturns, by simpa [event, herr] using hrs, hh⟩
  case pushAssistant x' res msg =>
    obtain ⟨r, rfl, hrs, hh⟩ := hrec
    have hrs' : responses (log ++ (event ⟨.pushAssistant r.message, x', res⟩ .tau).toList) =
        turns.map Prod.fst ++ [r] := by simpa [event] using hrs
    have hpush : x'.history.push r.message =
        x.history.pushAll (transcript turns ++ [r.message]) := by
      rw [Conversation.pushAll_snoc, ← hh]
    -- without tool calls the turn is over
    have hover : r.message.toolCalls = [] → ∀ turn ∈ turns ++ [(r, [])], Answers turn.1 turn.2 := by
      intro hnone
      exact answers_snoc hturns (by simp [Answers, hnone])
    rw [responses_append] at hrs'
    obtain ⟨hcalls, hpc⟩ | ⟨hnone, -, hpc⟩ | ⟨hnone, -, hpc⟩ := afterAssistant_cases r.message
    · rw [hpc]
      exact ⟨turns, hturns, r, rfl, hrs', hpush⟩
    all_goals
      rw [hpc]
      refine ⟨turns ++ [(r, [])], hover hnone, by simpa using hrs', ?_⟩
      rw [transcript_snoc]
      exact hpush
  case batch x' res calls outcomes results hlen hresults =>
    obtain ⟨r, rfl, hrs, hh⟩ := hrec
    refine ⟨turns, hturns, r, [], ⟨?_, ?_⟩, by simpa [event] using hrs, hh⟩
    · rw [← executeBatch_ids hlen hresults]
      simp [Function.comp_def, ToolResult.toMessage]
    · intro m hm
      obtain ⟨tr, -, rfl⟩ := List.mem_map.mp hm
      rfl
  case pushedAll =>
    -- the turn is over with its last tool message
    obtain ⟨r, pushed, hans, hrs, hh⟩ := hrec
    refine ⟨turns ++ [(r, pushed)], answers_snoc hturns (by simpa using hans), ?_, ?_⟩
    · simpa [event] using hrs
    · rw [transcript_snoc]
      exact hh
  case pushResult x' res tr rest =>
    obtain ⟨r, pushed, hans, hrs, hh⟩ := hrec
    refine ⟨turns, hturns, r, pushed ++ [tr.toMessage], by simpa using hans,
      by simpa [event] using hrs, ?_⟩
    show x'.history.push tr.toMessage = _
    rw [show transcript turns ++ r.message :: (pushed ++ [tr.toMessage]) =
      (transcript turns ++ r.message :: pushed) ++ [tr.toMessage] by simp,
      Conversation.pushAll_snoc, ← hh]
  case batchRaises => exact absurd rfl hquiet
  all_goals exact ⟨turns, hturns, by simpa [event, PC.Records, Session.countStep] using hrec⟩

/-! ### Cancellation -/

/-- `run` has passed a check of `cancel_requested`. -/
def Checked (s : Logged) : Prop := s.run.pc ≠ .head → s.run.pc ≠ .checkCancel → .check ∈ s.log

theorem Checked.step (hok : SessionOk s.run) (hc : Checked s)
    (hs : logNext reg s (.work l) = some s') : Checked s' := by
  obtain ⟨hmoves, -, hlog⟩ := logNext_work hs
  obtain ⟨run, log⟩ := s
  obtain ⟨run', log'⟩ := s'
  simp only at hmoves hlog hok
  subst hlog
  unfold Checked SessionOk at *
  intro hhead hcheck
  cases hmoves
  -- a fresh session is not in a terminal state, so the loop is entered
  case loopEnds hterm => exact absurd hterm (SessionState.not_terminal hok)
  case loopGoesOn => exact absurd rfl hcheck
  case cancelled | notCancelled => simp [event]
  all_goals exact List.mem_append_left _ (hc (by simp) (by simp))

/-- Where `run` may be when `calls` calls have been started since a
    cancellation and `checked` says whether the next check has been
    reached. The check lets nothing but `CANCELLED` follow; before it, a
    call is started only by the iteration that is under way. -/
def PC.AfterCancel (checked : Prop) (calls : ℕ) (st : SessionState) : PC → Prop
  | .head | .checkCancel => ¬checked
  | .checkMaxIterations | .checkTimeout | .storeWaiting | .countStep | .complete =>
      ¬checked ∧ calls = 0
  | .setError _ final | .storeFinal final => checked → final = .cancelled
  | .finish | .returned => checked → st = .cancelled
  | _ => ¬checked

/-- A cancellation may come anywhere. -/
theorem PC.afterCancel_now (pc : PC) (st : SessionState) : pc.AfterCancel False 0 st := by
  cases pc <;> simp [PC.AfterCancel]

/-- What may follow every cancellation. -/
def CancelOk (s : Logged) : Prop :=
  ∀ l₁ l₂, s.log = l₁ ++ .cancel :: l₂ →
    s.run.session.cancelRequested = true ∧ calls l₂ ≤ 1 ∧
      s.run.pc.AfterCancel (.check ∈ l₂) (calls l₂) s.run.session.state

/-- A cancellation in a log that has grown is an older one. -/
theorem split_of_append {log l₁ l₂ : List Event} {e : Option Event} (he : e ≠ some .cancel)
    (h : log ++ e.toList = l₁ ++ .cancel :: l₂) :
    ∃ l₃, log = l₁ ++ .cancel :: l₃ ∧ l₂ = l₃ ++ e.toList := by
  cases e with
  | none => exact ⟨l₂, by simpa using h, by simp⟩
  | some e =>
    obtain ⟨-, -, hnew⟩ | ⟨l₃, hl₂, hold⟩ := System.snoc_split h
    · exact absurd (congrArg some hnew.symm) he
    · exact ⟨l₃, hold, hl₂⟩

theorem event_ne_cancel (s : State) (l : Label) : event s l ≠ some .cancel := by
  unfold event
  split <;> simp

theorem CancelOk.step (hok : SessionOk s.run) (hc : CancelOk s)
    (hs : logNext reg s (.work l) = some s') : CancelOk s' := by
  obtain ⟨hmoves, hquiet, hlog⟩ := logNext_work hs
  obtain ⟨run, log⟩ := s
  obtain ⟨run', log'⟩ := s'
  simp only at hmoves hquiet hlog hok
  subst hlog
  intro l₁ l₂ hsplit
  obtain ⟨l₃, hold, rfl⟩ := split_of_append (event_ne_cancel run l) hsplit
  obtain ⟨hset, hone, hpc⟩ := hc l₁ l₃ hold
  simp only at hset hpc ⊢
  rw [calls_append]
  unfold SessionOk at hok
  cases hmoves
  case loopEnds hterm => exact absurd hterm (SessionState.not_terminal hok)
  case cancelled => exact ⟨hset, by simpa [event] using hone, fun _ => rfl⟩
  -- the flag is set
  case notCancelled hclear => simp_all
  case complete =>
    obtain ⟨hunchecked, hnone⟩ := hpc
    exact ⟨hset, by simp [event, hnone], by simpa [event, PC.AfterCancel] using hunchecked⟩
  case pushAssistant msg =>
    have hunchecked : Event.check ∉ l₃ := hpc
    refine ⟨hset, by simpa [event] using hone, ?_⟩
    obtain ⟨-, hpc'⟩ | ⟨-, -, hpc'⟩ | ⟨-, -, hpc'⟩ := afterAssistant_cases msg <;>
      simp [hpc', event, PC.AfterCancel, hunchecked]
  case completeRaises | getRaises | batchRaises => exact absurd rfl hquiet
  -- the iteration that is under way ends the run
  case tooMany | timedOut =>
    exact ⟨hset, by simpa [event] using hone, by simpa [event, PC.AfterCancel] using hpc.1⟩
  all_goals
    exact ⟨hset, by simpa [event] using hone, by simpa [event, PC.AfterCancel] using hpc⟩

/-! ### Termination -/

/-- How far `run` is in an iteration. -/
def PC.order : PC → ℕ
  | .returned | .threw => 0
  | .finish => 1
  | .storeFinal _ => 2
  | .setError _ _ | .setFinalAnswer _ => 3
  | .countStep => 4
  | .storeWaiting => 5
  | .checkTimeout => 6
  | .checkMaxIterations => 7
  | .checkCancel => 8
  | .head => 9
  | .pushResults _ => 10
  | .executeBatch _ => 11
  | .storeExecuting _ => 12
  | .pushAssistant _ => 13
  | .get => 14
  | .complete => 15

/-- The results that are left to append. -/
def PC.left : PC → ℕ
  | .pushResults results => results.length
  | _ => 0

/-- The iterations that are left, then the way through one. -/
def State.rank (s : State) : ℕ ×ₗ ℕ ×ₗ ℕ :=
  toLex (s.session.config.maxIterations - s.session.stepCount, toLex (s.pc.order, s.pc.left))

theorem rank_lt_of_order {s s' : State}
    (hsame : s'.session.config.maxIterations - s'.session.stepCount =
      s.session.config.maxIterations - s.session.stepCount)
    (hlt : s'.pc.order < s.pc.order) : s'.rank < s.rank :=
  Prod.Lex.lt_iff.mpr (.inr ⟨hsame, Prod.Lex.lt_iff.mpr (.inl hlt)⟩)

/-- Every step of `run` goes down. -/
theorem rank_lt {s s' : State} (hmax : s.session.config.maxIterations < 2 ^ 32)
    (hcounts : s.pc.Counts s.session) (hs : Moves reg s l s') : s'.rank < s.rank := by
  cases hs
  -- the only step that starts an iteration anew counts it
  case countStep x res =>
    have hlt : x.stepCount < x.config.maxIterations := hcounts
    refine Prod.Lex.lt_iff.mpr (.inl ?_)
    show x.config.maxIterations - x.countStep.stepCount < x.config.maxIterations - x.stepCount
    rw [Session.countStep_of_lt (Nat.lt_of_le_of_lt hlt hmax)]
    omega
  case pushAssistant msg =>
    refine rank_lt_of_order rfl ?_
    obtain ⟨-, hpc⟩ | ⟨-, -, hpc⟩ | ⟨-, -, hpc⟩ := afterAssistant_cases msg <;>
      simp [hpc, PC.order]
  case pushResult tr rest =>
    refine Prod.Lex.lt_iff.mpr (.inr ⟨rfl, Prod.Lex.lt_iff.mpr (.inr ⟨rfl, ?_⟩)⟩)
    exact Nat.lt_succ_self rest.length
  all_goals exact rank_lt_of_order rfl (by simp [PC.order])

/-- What the surroundings may answer in a state: any response of the LLM,
    any time, any outcome of a tool but an exception that is none of
    `std::exception`. -/
def State.Offers (s : State) (l : Label) : Prop :=
  match s.pc with
  | .get => ∃ r, l = .reply r
  | .checkTimeout => ∃ t, l = .now t
  | .executeBatch calls =>
      ∃ outcomes, l = .batch outcomes ∧ outcomes.length = calls.length ∧
        .otherException ∉ outcomes
  | .returned | .threw => False
  | _ => l = .tau

/-- A batch has a result for every call when its tools end normally, by a
    `std::exception` or by a timeout. -/
theorem executeBatch_isSome {calls : List ToolCall} {outcomes : List ToolOutcome}
    (hok : .otherException ∉ outcomes) : (executeBatch reg calls outcomes).isSome := by
  induction calls generalizing outcomes with
  | nil => rfl
  | cons call calls ih =>
    cases outcomes with
    | nil => rfl
    | cons o outcomes =>
      simp only [List.mem_cons, not_or] at hok
      have hcollect : (collect reg call o).isSome := by
        unfold collect
        split
        · cases o
          case otherException => exact absurd rfl hok.1
          all_goals rfl
        · rfl
      obtain ⟨tr, htr⟩ := Option.isSome_iff_exists.mp hcollect
      obtain ⟨trs, htrs⟩ := Option.isSome_iff_exists.mp (ih hok.2)
      simp [executeBatch, htr, htrs]

/-- Whatever the surroundings answer, `run` takes a step that raises no
    exception. -/
theorem next_of_offers {s : State} (ho : s.Offers l) :
    raises reg s l = false ∧ (next reg s l).isSome := by
  obtain ⟨pc, x, res⟩ := s
  cases pc
  case get =>
    obtain ⟨r, rfl⟩ := ho
    refine ⟨rfl, ?_⟩
    simp only [next]
    split <;> rfl
  case checkTimeout =>
    obtain ⟨t, rfl⟩ := ho
    exact ⟨rfl, rfl⟩
  case executeBatch calls =>
    obtain ⟨outcomes, rfl, hlen, hok⟩ := ho
    have hsome : (executeBatch reg calls outcomes).isSome := executeBatch_isSome hok
    obtain ⟨results, hresults⟩ := Option.isSome_iff_exists.mp hsome
    simp [raises, next, hlen, hresults]
  case pushResults results =>
    obtain rfl : l = .tau := ho
    cases results <;> exact ⟨rfl, rfl⟩
  case returned | threw => exact ho.elim
  all_goals
    obtain rfl : l = .tau := ho
    exact ⟨rfl, rfl⟩

theorem step_of_offers (ho : s.run.Offers l) : ∃ s', logNext reg s (.work l) = some s' := by
  obtain ⟨hquiet, hsome⟩ : raises reg s.run l = false ∧ (next reg s.run l).isSome :=
    next_of_offers ho
  obtain ⟨run, hrun⟩ := Option.isSome_iff_exists.mp hsome
  refine ⟨⟨run, s.log ++ (event s.run l).toList⟩, ?_⟩
  simp [logNext, hquiet, hrun]

/-! ### The Invariant -/

/-- What holds at every point of a run on `x`. -/
structure Inv (x : Session) (s : Logged) : Prop where
  session : SessionOk s.run
  config : s.run.session.config = x.config
  bound : s.run.pc.Counts s.run.session
  counted : Counted s
  totals : Totals s
  recorded : Recorded x s
  checked : Checked s
  cancel : CancelOk s
  /-- The result has the counter. -/
  reports : s.run.pc = .returned →
    s.run.result.stepsTaken = Json.toInt32 s.run.session.stepCount
  quiet : s.run.pc ≠ .threw

/-- `run` returns with the counter in its result. -/
theorem reports_of_moves {s s' : State} (hs : Moves reg s l s') (hret : s'.pc = .returned) :
    s'.result.stepsTaken = Json.toInt32 s'.session.stepCount := by
  cases hs
  case pushAssistant msg =>
    obtain ⟨-, hpc⟩ | ⟨-, -, hpc⟩ | ⟨-, -, hpc⟩ := afterAssistant_cases msg <;> simp [hpc] at hret
  case finish => simp only
  all_goals cases hret

theorem inv_start (hx : x.Fresh) :
    Inv x ⟨start x, if x.cancelRequested then [.cancel] else []⟩ where
  session := hx.state
  config := rfl
  bound := by
    show x.stepCount ≤ x.config.maxIterations
    rw [hx.stepCount]
    exact Nat.zero_le _
  counted := by cases x.cancelRequested <;> simp [Counted, start, hx.stepCount]
  totals := by cases x.cancelRequested <;> exact ⟨addsUp_nil, addsUp_nil⟩
  recorded := by
    refine ⟨[], by simp, ?_⟩
    cases x.cancelRequested <;> simp [PC.Records, start, transcript, Conversation.pushAll]
  checked := fun hhead => absurd rfl hhead
  cancel := by
    intro l₁ l₂ hlog
    cases h : x.cancelRequested with
    | false => simp [h] at hlog
    | true =>
      -- the cancellation came before `run`
      simp only [h, if_true, List.singleton_eq_append_iff, List.cons.injEq, reduceCtorEq,
        and_false, or_false, true_and] at hlog
      obtain ⟨rfl, rfl⟩ := hlog
      exact ⟨h, by simp, by simp [start, PC.AfterCancel]⟩
  reports := by simp [start]
  quiet := by simp [start]

/-- A cancellation changes the flag and the log only. -/
theorem Inv.cancelled (hi : Inv x s) :
    Inv x ⟨{ s.run with session := { s.run.session with cancelRequested := true } },
      s.log ++ [.cancel]⟩ where
  session := hi.session
  config := hi.config
  bound := by
    have hbound := hi.bound
    revert hbound
    cases s.run.pc <;> exact id
  counted := by simpa [Counted, calls_append] using hi.counted
  totals := by simpa [Totals, responses_append] using hi.totals
  recorded := by simpa [Recorded, responses_append] using hi.recorded
  checked := by
    intro hhead hcheck
    exact List.mem_append_left _ (hi.checked hhead hcheck)
  cancel := by
    intro l₁ l₂ hlog
    refine ⟨rfl, ?_⟩
    obtain ⟨rfl, -, -⟩ | ⟨l₃, rfl, hold⟩ := System.snoc_split hlog
    · -- it is the last one
      exact ⟨by simp, by simpa using s.run.pc.afterCancel_now s.run.session.state⟩
    · obtain ⟨-, hone, hpc⟩ := hi.cancel l₁ l₃ hold
      rw [calls_append]
      exact ⟨by simpa using hone, by simpa using hpc⟩
  reports := hi.reports
  quiet := hi.quiet

theorem Inv.step (hmax : x.config.maxIterations < 2 ^ 32) (hi : Inv x s) {a : RunLabel}
    (hs : logNext reg s a = some s') : Inv x s' := by
  cases a with
  | cancel =>
    cases hs
    exact hi.cancelled
  | work l =>
    obtain ⟨hmoves, hquiet, hlog⟩ := logNext_work hs
    have hmax' : s.run.session.config.maxIterations < 2 ^ 32 := by rwa [hi.config]
    exact {
      session := hi.session.step hmoves
      config := (config_eq hmoves).trans hi.config
      bound := (hi.bound.step hmax' hmoves).1
      counted := hi.counted.step hmax' hi.bound hs
      totals := hi.totals.step hs
      recorded := hi.recorded.step hs
      checked := hi.checked.step hi.session hs
      cancel := hi.cancel.step hi.session hs
      reports := reports_of_moves hmoves
      quiet := hquiet }

theorem inv_run (hx : x.Fresh) {tr : List RunLabel} (hrun : (system reg x).Run tr s) : Inv x s := by
  refine hrun.invariant ?_ ?_
  · rintro s rfl
    exact inv_start hx
  · intro s a s' hi hs
    exact hi.step hx.maxIterations hs

/-! ### The Contract of `run` -/

/-- The result and the history say what has been done. -/
structure Reported (x : Session) (s : Logged) : Prop where
  stepsTaken : s.run.result.stepsTaken = calls s.log
  totals : Totals s
  /-- The initial history, then every response with one tool message for
      each of its tool calls. -/
  history : ∃ turns : List (LLMResponse × List Message), turns.map Prod.fst = responses s.log ∧
    (∀ turn ∈ turns, Answers turn.1 turn.2) ∧
    (x.history.messages.length + (transcript turns).length ≤ x.history.maxMessages →
      s.run.session.history.messages = x.history.messages ++ transcript turns)

theorem Inv.reported (hmax : x.config.maxIterations < 2 ^ 31) (hi : Inv x s)
    (hret : s.run.pc = .returned) : Reported x s := by
  have hcount : s.run.session.stepCount = calls s.log := by simpa [Counted, hret] using hi.counted
  have hbound : s.run.session.stepCount ≤ x.config.maxIterations := by
    rw [← hi.config]
    exact hi.bound.le
  refine ⟨?_, hi.totals, ?_⟩
  · rw [hi.reports hret, Json.toInt32_of_lt (by omega), hcount]
  · obtain ⟨turns, hturns, hrec⟩ := hi.recorded
    rw [hret] at hrec
    obtain ⟨hrs, hh⟩ := hrec
    refine ⟨turns, hrs.symm, hturns, ?_⟩
    intro hle
    rw [hh, Conversation.pushAll_of_le hle]

/-- What follows a cancellation: one call of the LLM at most, and
    `CANCELLED` unless the iteration that had passed its check ended the
    run. -/
theorem Inv.after_cancel (hi : Inv x s) {l₁ l₂ : List Event}
    (hlog : s.log = l₁ ++ .cancel :: l₂) :
    calls l₂ ≤ 1 ∧ (s.run.pc = .returned →
      s.run.session.state = .cancelled ∨ .check ∈ l₁ ∧ .check ∉ l₂) := by
  obtain ⟨-, hone, hpc⟩ := hi.cancel l₁ l₂ hlog
  refine ⟨hone, ?_⟩
  intro hret
  rw [hret] at hpc
  by_cases hcheck : Event.check ∈ l₂
  · exact .inl (hpc hcheck)
  · have hany := hi.checked (by simp [hret]) (by simp [hret])
    rw [hlog] at hany
    exact .inr ⟨by simpa [hcheck] using hany, hcheck⟩

/-- Something is offered as long as `run` has not ended. -/
theorem exists_offers {s : State} (hret : s.pc ≠ .returned) (hquiet : s.pc ≠ .threw) :
    ∃ l, s.Offers l := by
  obtain ⟨pc, x, res⟩ := s
  cases pc
  case get => exact ⟨.reply ⟨⟨"assistant", "", [], ""⟩, 0, 0, "", ""⟩, _, rfl⟩
  case checkTimeout => exact ⟨.now 0, 0, rfl⟩
  case executeBatch calls =>
    refine ⟨.batch (calls.map fun _ => .timeout), _, rfl, by simp, ?_⟩
    simp
  case returned => exact absurd rfl hret
  case threw => exact absurd rfl hquiet
  all_goals exact ⟨.tau, rfl⟩

/-- In a run without end there are only cancellations at last. -/
theorem steps_stop (hx : x.Fresh) {st : ℕ → Logged} {ls : ℕ → RunLabel}
    (hend : (system reg x).Endless st ls) : ∃ n, ∀ m, n ≤ m → ls m = .cancel := by
  have hdown : ∀ s a s', (system reg x).Reachable s → (system reg x).step s a s' →
      a ≠ .cancel → s'.run.rank < s.run.rank := by
    rintro s (_ | l) s' ⟨tr, hrun⟩ hs hreal
    · exact absurd rfl hreal
    · have hi := inv_run hx hrun
      have hmax : s.run.session.config.maxIterations < 2 ^ 32 := by
        rw [hi.config]
        exact hx.maxIterations
      exact rank_lt hmax hi.bound (logNext_work hs).1
  have hstay : ∀ s a s', (system reg x).Reachable s → (system reg x).step s a s' →
      ¬a ≠ .cancel → s'.run.rank = s.run.rank := by
    intro s a s' _ hs hcancel
    obtain rfl := not_not.mp hcancel
    cases hs
    rfl
  obtain ⟨n, hn⟩ := hend.stops wellFounded_lt (fun s => s.run.rank) (· ≠ .cancel) hdown hstay
  refine ⟨n, ?_⟩
  intro m hm
  exact not_not.mp (hn m hm)

/-- **`ReActWorkflow::run` on a fresh session.** It ends, whatever the LLM,
    the tools and the clock answer: a run goes on until `run` returns, and
    a run without end consists of cancellations from some point on. There
    are at most `max_iterations` calls of the LLM, the result and the
    history are made of the responses, and at most one call is started
    after a cancellation. The totals are sums as long as an `int` holds
    them. -/
theorem run_bounded (hx : x.Fresh) (hmax : x.config.maxIterations < 2 ^ 31) :
    (∀ st ls, (system reg x).Endless st ls → ∃ n, ∀ m, n ≤ m → ls m = .cancel) ∧
      ∀ tr s, (system reg x).Run tr s →
        (s.run.pc ≠ .returned → (∃ l, s.run.Offers l) ∧
          ∀ l, s.run.Offers l → ∃ s', (system reg x).step s (.work l) s') ∧
        calls s.log ≤ x.config.maxIterations ∧
        (s.run.pc = .returned → Reported x s) ∧
        ∀ l₁ l₂, s.log = l₁ ++ .cancel :: l₂ →
          calls l₂ ≤ 1 ∧ (s.run.pc = .returned →
            s.run.session.state = .cancelled ∨ .check ∈ l₁ ∧ .check ∉ l₂) := by
  refine ⟨fun st ls => steps_stop hx, ?_⟩
  · intro tr s hrun
    have hi := inv_run hx hrun
    refine ⟨?_, ?_, hi.reported hmax, fun l₁ l₂ => hi.after_cancel⟩
    · intro hret
      exact ⟨exists_offers hret hi.quiet, fun l => step_of_offers⟩
    · have hle : s.run.session.stepCount ≤ x.config.maxIterations := by
        rw [← hi.config]
        exact hi.bound.le
      have hcount := hi.counted
      unfold Counted at hcount
      omega

/-- One iteration up to the response. -/
def iteration (r : LLMResponse) : List RunLabel :=
  [.work .tau, .work .tau, .work .tau, .work (.now 1), .work .tau, .work .tau, .work .tau,
    .work (.reply r)]

/-- The LLM asks for a tool and answers; the run is cancelled too late. -/
def searched : List RunLabel :=
  iteration ⟨⟨"assistant", "", [⟨"1", "search", ""⟩], ""⟩, 5, 2, "", ""⟩ ++
    [RunLabel.work .tau, .work .tau, .work (.batch [.output "found"]), .work .tau, .work .tau] ++
    iteration ⟨⟨"assistant", "4", [], ""⟩, 9, 1, "", ""⟩ ++
    [RunLabel.cancel, .work .tau, .work .tau, .work .tau, .work .tau]

theorem searched_bounded :
    ∃ s, (system ⟨["search"]⟩ (Session.new 1 {} 0)).Run searched s ∧ s.run.pc = .returned ∧
      s.run.result.stepsTaken = 2 ∧ calls s.log ≤ 15 ∧ Reported (Session.new 1 {} 0) s := by
  have hends : (System.exec (logNext ⟨["search"]⟩) ⟨start (Session.new 1 {} 0), []⟩ searched).map
      (fun s => (s.run.pc, calls s.log)) = some (.returned, 2) := by decide
  obtain ⟨s, hrun, hends⟩ := System.exists_run_of_exec hends
  simp only [Prod.mk.injEq] at hends
  have hfresh : (Session.new 1 {} 0).Fresh := ⟨rfl, rfl, ⟨rfl, rfl⟩, by decide⟩
  obtain ⟨-, hle, hreported, -⟩ := (run_bounded hfresh (by decide)).2 searched s hrun
  have hr := hreported hends.1
  exact ⟨s, hrun, hends.1, by rw [hr.stepsTaken, hends.2]; rfl, hle, hr⟩

/-- Each of two responses has as many tokens as an `int` can hold. -/
def overflowing : List RunLabel :=
  iteration ⟨⟨"assistant", "", [⟨"1", "search", ""⟩], ""⟩, 2147483647, 0, "", ""⟩ ++
    [RunLabel.work .tau, .work .tau, .work (.batch [.output "found"]), .work .tau, .work .tau] ++
    iteration ⟨⟨"assistant", "4", [], ""⟩, 2147483647, 0, "", ""⟩ ++
    List.replicate 4 (RunLabel.work .tau)

theorem overflowing_wraps :
    ∃ s, (system ⟨["search"]⟩ (Session.new 1 {} 0)).Run overflowing s ∧ s.run.pc = .returned ∧
      s.run.result.totalPromptTokens ≠
        ((responses s.log).map LLMResponse.promptTokens).sum := by
  have hends : (System.exec (logNext ⟨["search"]⟩) ⟨start (Session.new 1 {} 0), []⟩
      overflowing).map (fun s => (s.run.pc, s.run.result.totalPromptTokens,
        ((responses s.log).map LLMResponse.promptTokens).sum)) =
      some (.returned, -2, 4294967294) := by decide
  obtain ⟨s, hrun, hends⟩ := System.exists_run_of_exec hends
  simp only [Prod.mk.injEq] at hends
  refine ⟨s, hrun, hends.1, ?_⟩
  rw [hends.2.1, hends.2.2]
  decide

end ReActWorkflow

end Forge
