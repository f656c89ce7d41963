import Forge.Framework.System
import Forge.Utils.Tracing
import Forge.Workflow.ReAct
import Mathlib.Algebra.Ring.Int.Defs

/-! # The Trace of a ReAct Run

  The spans of `ReActWorkflow::run` (`workflow/react.cpp`): one for the run,
  and as its children one for every call of the LLM and one for every batch
  of tools. A span is logged when its scope is left, by an exception too.

  - `Traces`: what a step of `run` does to the spans;
  - `Story`: the spans that are open and those that are logged;
  - `run_traced`: what the log says when `run` has ended.
-/

open LTS

namespace Forge

namespace ReActTrace

open ReActWorkflow (PC Moves)

/-- `run` and its spans. -/
structure State where
  run : ReActWorkflow.State
  /-- `span_id_counter()`; it does not come round. -/
  counter : ℕ
  root : Span
  llm : Option Span
  tool : Option Span
  /-- What has been logged, oldest first. -/
  log : List Span
  deriving DecidableEq

inductive Label where
  /-- Another session takes an id. -/
  | elsewhere
  | cancel
  /-- `run` takes a step. -/
  | work (l : Workflow.Label)
  deriving DecidableEq

/-- `static_cast<int64_t>` -/
def toInt64 (i : ℤ) : ℤ := i.bmod (2 ^ 64)

/-- The first two lines of `run(x)`; the counter has given `first`. -/
def start (x : Session) (first : ℕ) : State where
  run := ReActWorkflow.start x
  counter := first + 1
  root := (Span.new first x.id "react.run").setIntAttribute "session_id" (toInt64 x.id)
  llm := none
  tool := none
  log := []

/-- What the span of a call says about its response. -/
def recordResponse (span : Span) (r : LLMResponse) : Span :=
  ((span.setIntAttribute "prompt_tokens" r.promptTokens).setIntAttribute "completion_tokens"
    r.completionTokens).setStatus (r.error = "") ""

/-- The spans that are constructed or changed in a step, which leads `run`
    to `run'`. -/
def State.enter (s : State) (l : Workflow.Label) (run' : ReActWorkflow.State) : State :=
  match s.run.pc, l with
  | .complete, _ =>
      { s with llm := some (s.root.child s.counter "llm.complete"), counter := s.counter + 1 }
  | .get, .reply r => { s with llm := s.llm.map (recordResponse · r) }
  | .executeBatch calls, .batch _ =>
      let span := (s.root.child s.counter "tools.execute_batch").setIntAttribute "tool_count"
        calls.length
      -- an exception leaves the status as it is
      { s with
        tool := some (if run'.pc = .threw then span else span.setStatus true "")
        counter := s.counter + 1 }
  | .finish, _ =>
      { s with
        root := (s.root.setIntAttribute "steps" run'.result.stepsTaken).setStatus
          run'.result.success run'.result.error }
  | _, _ => s

/-- `continue` and `break`, where a span of the iteration may be open. -/
def leavesIteration : PC → Bool
  | .pushResults [] | .storeFinal _ => true
  | _ => false

def ended : PC → Bool
  | .returned | .threw => true
  | _ => false

/-- The spans whose scope a step leaves, the last one first. -/
def State.leave (s : State) (run' : ReActWorkflow.State) : State :=
  let log := s.log ++ s.tool.toList ++ s.llm.toList
  if ended run'.pc then { s with llm := none, tool := none, log := log ++ [s.root] }
  else if leavesIteration s.run.pc then { s with llm := none, tool := none, log := log }
  else s

/-- The step function. -/
def next (reg : ToolRegistry) (s : State) : Label → Option State
  | .elsewhere => some { s with counter := s.counter + 1 }
  | .cancel =>
      some { s with
        run := { s.run with session := { s.run.session with cancelRequested := true } } }
  | .work l =>
      (ReActWorkflow.next reg s.run l).map fun run =>
        { (s.enter l run).leave run with run := run }

/-- `run(x)` with its trace. -/
def system (reg : ToolRegistry) (x : Session) (first : ℕ) : System State Label :=
  System.ofNext (start x first) (next reg)

/-! ### What a Step Does to the Spans -/

/-- Which spans are open. -/
inductive Phase where
  | idle
  /-- The LLM has been called. -/
  | called
  | answered
  /-- The results of a batch are there. -/
  | batched
  /-- On the way out of the loop. -/
  | leaving
  | returned
  | threw
  deriving DecidableEq

def phase : PC → Phase
  | .get => .called
  | .pushAssistant _ | .storeExecuting _ | .executeBatch _ => .answered
  | .pushResults _ => .batched
  | .setError _ _ | .setFinalAnswer _ | .storeFinal _ => .leaving
  | .returned => .returned
  | .threw => .threw
  | _ => .idle

/-- The span of a call of the LLM. -/
def State.newCall (s : State) : Span := s.root.child s.counter "llm.complete"

/-- The span of a batch of `n` tools. -/
def State.newBatch (s : State) (n : ℕ) : Span :=
  (s.root.child s.counter "tools.execute_batch").setIntAttribute "tool_count" n

/-- What a step can do, one constructor per way through it. -/
inductive Traces (s : State) : Workflow.Label → State → Prop where
  | quiet {l run} : (∀ r, l ≠ .reply r) → (∀ outcomes, l ≠ .batch outcomes) →
      (phase run.pc = phase s.run.pc ∨
        (phase s.run.pc = .idle ∨ phase s.run.pc = .answered) ∧ phase run.pc = .leaving) →
      phase s.run.pc ≠ .returned → phase s.run.pc ≠ .threw →
      Traces s l { s with run }
  | called {run} : phase s.run.pc = .idle → phase run.pc = .called →
      Traces s .tau { s with run, llm := some s.newCall, counter := s.counter + 1 }
  | callRaises {run} : phase s.run.pc = .idle → phase run.pc = .threw →
      Traces s .raise { s with
        run
        counter := s.counter + 1
        llm := none
        tool := none
        log := s.log ++ s.tool.toList ++ [s.newCall] ++ [s.root] }
  | getRaises {run} : phase s.run.pc = .called → phase run.pc = .threw →
      Traces s .raise { s with
        run
        llm := none
        tool := none
        log := s.log ++ s.tool.toList ++ s.llm.toList ++ [s.root] }
  | answered {r run} : phase s.run.pc = .called →
      phase run.pc = .answered ∨ phase run.pc = .leaving →
      Traces s (.reply r) { s with run, llm := s.llm.map (recordResponse · r) }
  | batched {outcomes n run} : outcomes.length = n →
      phase s.run.pc = .answered → phase run.pc = .batched →
      Traces s (.batch outcomes) { s with
        run
        tool := some ((s.newBatch n).setStatus true "")
        counter := s.counter + 1 }
  | batchRaises {outcomes n run} : outcomes.length = n →
      phase s.run.pc = .answered → phase run.pc = .threw →
      Traces s (.batch outcomes) { s with
        run
        counter := s.counter + 1
        llm := none
        tool := none
        log := s.log ++ [s.newBatch n] ++ s.llm.toList ++ [s.root] }
  | leaves {run} : phase s.run.pc = .batched ∨ phase s.run.pc = .leaving →
      phase run.pc = .idle →
      Traces s .tau { s with
        run
        llm := none
        tool := none
        log := s.log ++ s.tool.toList ++ s.llm.toList }
  | returns {run} : phase s.run.pc = .idle → run.pc = .returned →
      Traces s .tau { s with
        run
        llm := none
        tool := none
        root := (s.root.setIntAttribute "steps" run.result.stepsTaken).setStatus
          run.result.success run.result.error
        log := s.log ++ s.tool.toList ++ s.llm.toList ++
          [(s.root.setIntAttribute "steps" run.result.stepsTaken).setStatus
            run.result.success run.result.error] }

variable {reg : ToolRegistry} {x : Session} {first : ℕ} {s s' : State} {l : Workflow.Label}

/-- The inversion of a step of `run`. -/
theorem traces_of_next (hs : next reg s (.work l) = some s') :
    Moves reg s.run l s'.run ∧ Traces s l s' := by
  obtain ⟨run', hrun, rfl⟩ := Option.map_eq_some_iff.mp hs
  have hmoves := ReActWorkflow.moves_of_next hrun
  refine ⟨hmoves, ?_⟩
  obtain ⟨run, counter, root, llm, tool, log⟩ := s
  simp only at hmoves hrun ⊢
  clear hs hrun
  cases hmoves
  case complete => exact .called rfl rfl
  case completeRaises => exact .callRaises rfl rfl
  case getRaises => exact .getRaises rfl rfl
  case replyError => exact .answered rfl (.inr rfl)
  case reply => exact .answered rfl (.inl rfl)
  case batch hlen _ => exact .batched hlen rfl rfl
  case batchRaises hlen _ => exact .batchRaises hlen rfl rfl
  case pushedAll => exact .leaves (.inl rfl) rfl
  case storeFinal => exact .leaves (.inr rfl) rfl
  case finish => exact .returns rfl rfl
  case pushAssistant msg =>
    obtain ⟨-, hpc⟩ | ⟨-, -, hpc⟩ | ⟨-, -, hpc⟩ := ReActWorkflow.afterAssistant_cases msg
    all_goals
      rw [hpc]
      exact .quiet (by simp) (by simp) (by simp [phase]) (by simp [phase]) (by simp [phase])
  all_goals exact .quiet (by simp) (by simp) (by simp [phase]) (by simp [phase]) (by simp [phase])

/-! ### What Spans Say -/

/-- What a span says, besides its ids. -/
abbrev Content := String × List (String × String) × Bool × String

def content (span : Span) : Content :=
  (span.operation, span.attributes, span.ok, span.statusMessage)

def callContent (r : LLMResponse) : Content :=
  ("llm.complete", [("prompt_tokens", toString r.promptTokens),
    ("completion_tokens", toString r.completionTokens)], r.error = "", "")

def batchContent (n : ℕ) : Content :=
  ("tools.execute_batch", [("tool_count", toString (n : ℤ))], true, "")

/-- The responses of the LLM. -/
def replies (tr : List Label) : List LLMResponse :=
  tr.filterMap fun
    | .work (.reply r) => some r
    | _ => none

/-- The sizes of the batches. -/
def batches (tr : List Label) : List ℕ :=
  tr.filterMap fun
    | .work (.batch outcomes) => some outcomes.length
    | _ => none

/-- What the spans of an operation say. -/
def contents (operation : String) (spans : List Span) : List Content :=
  (spans.filter (·.operation = operation)).map content

/-- The spans tell the responses and the batches, in their order. -/
def Recorded (tr : List Label) (spans : List Span) : Prop :=
  contents "llm.complete" spans = (replies tr).map callContent ∧
    contents "tools.execute_batch" spans = (batches tr).map batchContent

theorem contents_append (operation : String) (spans spans' : List Span) :
    contents operation (spans ++ spans') =
      contents operation spans ++ contents operation spans' := by
  simp [contents]

/-- A span of one operation says nothing about another one. -/
theorem contents_singleton (operation : String) (span : Span) :
    contents operation [span] = if span.operation = operation then [content span] else [] := by
  by_cases h : span.operation = operation <;> simp [contents, h]

theorem replies_snoc (tr : List Label) (a : Label) :
    replies (tr ++ [a]) = replies tr ++ replies [a] := List.filterMap_append

theorem batches_snoc (tr : List Label) (a : Label) :
    batches (tr ++ [a]) = batches tr ++ batches [a] := List.filterMap_append

/-- A number is printed without quotation marks. -/
theorem plain_toString (i : ℤ) : JsonText.Plain (toString i) := by
  have hdigits : ∀ n : ℕ, ∀ c ∈ Nat.toDigits 10 n, JsonText.isPlain c := fun n c hc =>
    JsonText.isPlain_of_isDigit (Nat.isDigit_of_mem_toDigits (by omega) (by omega) hc)
  intro c hc
  cases i with
  | ofNat n =>
    have heq : (toString (Int.ofNat n)).toList = Nat.toDigits 10 n := Nat.toList_repr
    rw [heq] at hc
    exact hdigits n c hc
  | negSucc n =>
    have heq : (toString (Int.negSucc n)).toList = '-' :: Nat.toDigits 10 (n + 1) := by
      show ("-" ++ Nat.repr (n + 1)).toList = _
      rw [String.toList_append, Nat.toList_repr]
      rfl
    rw [heq] at hc
    obtain rfl | hdigit := List.mem_cons.mp hc
    · decide
    · exact hdigits _ c hdigit

theorem content_newCall (s : State) :
    content s.newCall = ("llm.complete", [], true, "") := rfl

/-- A call that was opened and answered. -/
theorem content_recordResponse {span : Span} (hspan : content span = ("llm.complete", [], true, ""))
    (r : LLMResponse) : content (recordResponse span r) = callContent r := by
  simp only [content, Prod.mk.injEq] at hspan
  obtain ⟨hop, hattrs, -, -⟩ := hspan
  simp [content, callContent, recordResponse, Span.setIntAttribute, Span.setAttribute,
    Span.setStatus, hop, hattrs]

theorem plain_of_callContent {span : Span} {r : LLMResponse} (h : content span = callContent r) :
    span.Plain := by
  simp only [content, callContent, Prod.mk.injEq] at h
  obtain ⟨hop, hattrs, -, hstatus⟩ := h
  rw [Span.Plain, hop, hattrs, hstatus]
  simp only [List.forall_mem_cons, List.not_mem_nil, false_imp_iff, implies_true, and_true]
  exact ⟨by decide, by decide, ⟨by decide, plain_toString _⟩, by decide, plain_toString _⟩

theorem plain_newCall (s : State) : s.newCall.Plain := by
  refine ⟨?_, ?_, ?_⟩
  · show JsonText.Plain "llm.complete"
    decide
  · show JsonText.Plain ""
    decide
  · intro a ha
    cases ha

theorem plain_newBatch (s : State) (n : ℕ) : (s.newBatch n).Plain := by
  refine ⟨?_, ?_, ?_⟩
  · show JsonText.Plain "tools.execute_batch"
    decide
  · show JsonText.Plain ""
    decide
  · intro a ha
    obtain rfl := List.mem_singleton.mp ha
    show JsonText.Plain "tool_count" ∧ JsonText.Plain (toString (n : ℤ))
    exact ⟨by decide, plain_toString n⟩

/-! ### Ids -/

/-- A span on a call of the LLM or a batch, in the run with the span
    `first`. -/
structure Child (x : Session) (first : ℕ) (c : Span) : Prop where
  trace : c.ctx.traceId = x.id
  parent : c.ctx.parentSpanId = first
  kind : c.operation = "llm.complete" ∨ c.operation = "tools.execute_batch"
  plain : c.Plain

/-- The children of a run, whose ids are from the counter. -/
structure Family (x : Session) (first counter : ℕ) (spans : List Span) : Prop where
  below : first < counter
  child : ∀ c ∈ spans, Child x first c
  counted : ∀ c ∈ spans, c.ctx.spanId < counter
  ids : (first :: spans.map (·.ctx.spanId)).Nodup

variable {counter : ℕ} {spans spans' : List Span} {c : Span}

theorem Family.perm (h : Family x first counter spans) (hp : spans.Perm spans') :
    Family x first counter spans' where
  below := h.below
  child := fun c hc => h.child c (hp.mem_iff.mpr hc)
  counted := fun c hc => h.counted c (hp.mem_iff.mpr hc)
  ids := ((hp.map _).cons first).nodup_iff.mp h.ids

/-- The counter goes on. -/
theorem Family.count (h : Family x first counter spans) : Family x first (counter + 1) spans where
  below := Nat.lt_succ_of_lt h.below
  child := h.child
  counted := fun c hc => Nat.lt_succ_of_lt (h.counted c hc)
  ids := h.ids

/-- And its value is a new id. -/
theorem Family.add (h : Family x first counter spans) (hctx : c.ctx = ⟨x.id, counter, first⟩)
    (hkind : c.operation = "llm.complete" ∨ c.operation = "tools.execute_batch")
    (hplain : c.Plain) : Family x first (counter + 1) (c :: spans) where
  below := h.count.below
  child := by
    intro c' hc'
    obtain rfl | hold := List.mem_cons.mp hc'
    · exact ⟨by rw [hctx], by rw [hctx], hkind, hplain⟩
    · exact h.child c' hold
  counted := by
    intro c' hc'
    obtain rfl | hold := List.mem_cons.mp hc'
    · rw [hctx]
      exact Nat.lt_succ_self counter
    · exact h.count.counted c' hold
  ids := by
    have hid : c.ctx.spanId = counter := by rw [hctx]
    have hbelow := h.below
    have hnew : counter ∉ spans.map (·.ctx.spanId) := by
      intro hmem
      obtain ⟨c', hc', heq⟩ := List.mem_map.mp hmem
      exact absurd heq (Nat.ne_of_lt (h.counted c' hc'))
    have hold := List.nodup_cons.mp h.ids
    rw [List.map_cons, hid]
    refine List.nodup_cons.mpr ⟨?_, List.nodup_cons.mpr ⟨hnew, hold.2⟩⟩
    simp only [List.mem_cons, not_or]
    exact ⟨Nat.ne_of_lt hbelow, hold.1⟩

/-- A span that changes keeps its ids. -/
theorem Family.change {c' : Span} (h : Family x first counter (spans ++ [c]))
    (hctx : c'.ctx = c.ctx) (hop : c'.operation = c.operation) (hplain : c'.Plain) :
    Family x first counter (spans ++ [c']) where
  below := h.below
  child := by
    intro d hd
    obtain hold | hnew := List.mem_append.mp hd
    · exact h.child d (List.mem_append_left _ hold)
    · obtain rfl := List.mem_singleton.mp hnew
      obtain ⟨htrace, hparent, hkind, -⟩ := h.child c (by simp)
      exact ⟨by rw [hctx, htrace], by rw [hctx, hparent], by rwa [hop], hplain⟩
  counted := by
    intro d hd
    obtain hold | hnew := List.mem_append.mp hd
    · exact h.counted d (List.mem_append_left _ hold)
    · obtain rfl := List.mem_singleton.mp hnew
      rw [hctx]
      exact h.counted c (by simp)
  ids := by
    have hids := h.ids
    simp only [List.map_append, List.map_cons, List.map_nil] at hids ⊢
    rwa [hctx]

/-! ### The Invariant -/

/-- Which spans are open, and what the one on a call says so far. -/
def Phase.Open (llm tool : Option Span) : Phase → Prop
  | .idle | .returned => llm = none ∧ tool = none
  | .called => (∃ c, llm = some c ∧ content c = ("llm.complete", [], true, "")) ∧ tool = none
  | .answered => (∀ c ∈ llm, c.operation = "llm.complete") ∧ tool = none
  | _ => True

/-- What the span of the run says while it is open. -/
def rootContent (x : Session) : Content :=
  ("react.run", [("session_id", toString (toInt64 x.id))], true, "")

/-- And when `run` has returned. -/
def resultContent (x : Session) (res : WorkflowResult) : Content :=
  ("react.run", [("session_id", toString (toInt64 x.id)), ("steps", toString res.stepsTaken)],
    res.success, res.error)

/-- What holds at every point of a run on `x`; `children` have been logged. -/
structure Story (x : Session) (first : ℕ) (tr : List Label) (s : State) (children : List Span) :
    Prop where
  log : s.log = if ended s.run.pc then children ++ [s.root] else children
  root : s.root.ctx = ⟨x.id, first, 0⟩
  tells : content s.root =
    if s.run.pc = .returned then resultContent x s.run.result else rootContent x
  family : Family x first s.counter (children ++ s.tool.toList ++ s.llm.toList)
  opened : (phase s.run.pc).Open s.llm s.tool
  recorded : s.run.pc ≠ .threw → Recorded tr
    (children ++ s.tool.toList ++ if phase s.run.pc = .called then [] else s.llm.toList)

theorem phase_returned {pc : PC} : phase pc = .returned ↔ pc = .returned := by
  cases pc <;> simp [phase]

theorem phase_threw {pc : PC} : phase pc = .threw ↔ pc = .threw := by
  cases pc <;> simp [phase]

theorem ended_iff {pc : PC} : ended pc ↔ phase pc = .returned ∨ phase pc = .threw := by
  cases pc <;> simp [phase, ended]

variable {tr : List Label} {children : List Span}

/-- A step that neither opens a span nor leaves a scope. -/
theorem Recorded.quiet (h : Recorded tr spans) (hreply : ∀ r, l ≠ .reply r)
    (hbatch : ∀ outcomes, l ≠ .batch outcomes) : Recorded (tr ++ [.work l]) spans := by
  have hnone : replies [.work l] = [] ∧ batches [.work l] = [] := by
    cases l with
    | reply r => exact absurd rfl (hreply r)
    | batch outcomes => exact absurd rfl (hbatch outcomes)
    | _ => exact ⟨rfl, rfl⟩
  rw [Recorded, replies_snoc, batches_snoc, hnone.1, hnone.2, List.append_nil, List.append_nil]
  exact h

/-- The span of a call has its response. -/
theorem Recorded.reply (h : Recorded tr spans) {r : LLMResponse} (hc : content c = callContent r) :
    Recorded (tr ++ [.work (.reply r)]) (spans ++ [c]) := by
  have hop : c.operation = "llm.complete" := congrArg Prod.fst hc
  have hreply : replies [.work (.reply r)] = [r] ∧ batches [.work (.reply r)] = [] := ⟨rfl, rfl⟩
  rw [Recorded, replies_snoc, batches_snoc, hreply.1, hreply.2, contents_append, contents_append,
    contents_singleton, contents_singleton, hop, if_pos rfl, if_neg (by decide), h.1, h.2, hc]
  simp

/-- The span of a batch is logged before that of the call. -/
theorem Recorded.batch {llm : Option Span} (h : Recorded tr (spans ++ llm.toList))
    {outcomes : List ToolOutcome} (hc : content c = batchContent outcomes.length)
    (hllm : ∀ c ∈ llm, c.operation = "llm.complete") :
    Recorded (tr ++ [.work (.batch outcomes)]) (spans ++ [c] ++ llm.toList) := by
  have hop : c.operation = "tools.execute_batch" := congrArg Prod.fst hc
  have hnone : contents "tools.execute_batch" llm.toList = [] := by
    cases llm with
    | none => rfl
    | some span =>
      rw [Option.toList_some, contents_singleton, hllm span rfl]
      rfl
  have hbatch : replies [.work (.batch outcomes)] = [] ∧
      batches [.work (.batch outcomes)] = [outcomes.length] := ⟨rfl, rfl⟩
  obtain ⟨hcalls, hbatches⟩ := h
  rw [contents_append] at hcalls hbatches
  rw [hnone, List.append_nil] at hbatches
  rw [Recorded, replies_snoc, batches_snoc, hbatch.1, hbatch.2]
  simp only [contents_append, contents_singleton, hop, hc, hnone, hbatches, List.append_nil,
    List.map_append, List.map_cons, List.map_nil, if_pos]
  rw [if_neg (by decide), List.append_nil]
  exact ⟨hcalls, trivial⟩

/-- Before `run` has ended its span is open. -/
theorem Story.live (h : Story x first tr s children) (hret : phase s.run.pc ≠ .returned)
    (hthrew : phase s.run.pc ≠ .threw) : s.log = children ∧ content s.root = rootContent x := by
  have hnot : ¬ended s.run.pc := by simp [ended_iff, hret, hthrew]
  have hpc : s.run.pc ≠ .returned := fun heq => hret (phase_returned.mpr heq)
  have hlog := h.log
  have htells := h.tells
  rw [if_neg hnot] at hlog
  rw [if_neg hpc] at htells
  exact ⟨hlog, htells⟩

/-- A step that does not end `run` leaves it open. -/
theorem Story.goes_on (h : Story x first tr s children) (run : ReActWorkflow.State)
    (hret : phase s.run.pc ≠ .returned) (hthrew : phase s.run.pc ≠ .threw)
    (hret' : phase run.pc ≠ .returned) (hthrew' : phase run.pc ≠ .threw) :
    (s.log = if ended run.pc then children ++ [s.root] else children) ∧
      content s.root =
        if run.pc = .returned then resultContent x run.result else rootContent x := by
  obtain ⟨hlog, htells⟩ := h.live hret hthrew
  have hnot : ¬ended run.pc := by simp [ended_iff, hret', hthrew']
  rw [if_neg hnot, if_neg fun heq => hret' (phase_returned.mpr heq)]
  exact ⟨hlog, htells⟩

theorem ctx_newCall (hroot : s.root.ctx = ⟨x.id, first, 0⟩) :
    s.newCall.ctx = ⟨x.id, s.counter, first⟩ := by
  show SpanContext.mk s.root.ctx.traceId s.counter s.root.ctx.spanId = _
  rw [hroot]

theorem ctx_newBatch (hroot : s.root.ctx = ⟨x.id, first, 0⟩) (n : ℕ) :
    (s.newBatch n).ctx = ⟨x.id, s.counter, first⟩ := by
  show SpanContext.mk s.root.ctx.traceId s.counter s.root.ctx.spanId = _
  rw [hroot]

/-- An exception leaves all scopes. -/
theorem story_threw (hpc : phase s'.run.pc = .threw) (hlog : s'.log = children ++ [s'.root])
    (hroot : s'.root.ctx = ⟨x.id, first, 0⟩) (htells : content s'.root = rootContent x)
    (hfamily : Family x first s'.counter children) (hllm : s'.llm = none) (htool : s'.tool = none) :
    Story x first tr s' children where
  log := by
    rw [if_pos (ended_iff.mpr (.inr hpc))]
    exact hlog
  root := hroot
  tells := by
    rw [if_neg (by simp [← phase_returned, hpc])]
    exact htells
  family := by
    rw [hllm, htool]
    simpa using hfamily
  opened := by
    rw [hpc]
    trivial
  recorded := fun hne => absurd (phase_threw.mp hpc) hne

/-- Between two iterations no other span is open. -/
theorem Story.idle (h : Story x first tr s children) (hidle : phase s.run.pc = .idle) :
    s.llm = none ∧ s.tool = none ∧ Family x first s.counter children ∧ Recorded tr children := by
  have hopen := h.opened
  rw [hidle] at hopen
  have hfamily := h.family
  have hrec := h.recorded fun heq => by simp [heq, phase] at hidle
  simp only [hidle, hopen.1, hopen.2, Option.toList_none, List.append_nil] at hfamily hrec
  exact ⟨hopen.1, hopen.2, hfamily, by simpa using hrec⟩

/-- Once the call is answered only its span is open. -/
theorem Story.answered (h : Story x first tr s children) (hans : phase s.run.pc = .answered) :
    (∀ c ∈ s.llm, c.operation = "llm.complete") ∧ s.tool = none ∧
      Family x first s.counter (children ++ s.llm.toList) ∧
      Recorded tr (children ++ s.llm.toList) := by
  have hopen := h.opened
  rw [hans] at hopen
  obtain ⟨hllm, htool⟩ := hopen
  have hfamily := h.family
  have hrec := h.recorded fun heq => by simp [heq, phase] at hans
  rw [if_neg (by simp [hans])] at hrec
  simp only [htool, Option.toList_none, List.append_nil] at hfamily hrec
  exact ⟨hllm, htool, hfamily, hrec⟩

/-! ### The Steps -/

theorem Story.quiet {run : ReActWorkflow.State} (h : Story x first tr s children)
    (hreply : ∀ r, l ≠ .reply r) (hbatch : ∀ outcomes, l ≠ .batch outcomes)
    (hphase : phase run.pc = phase s.run.pc ∨
      (phase s.run.pc = .idle ∨ phase s.run.pc = .answered) ∧ phase run.pc = .leaving)
    (hret : phase s.run.pc ≠ .returned) (hthrew : phase s.run.pc ≠ .threw) :
    Story x first (tr ++ [.work l]) { s with run } children := by
  have hret' : phase run.pc ≠ .returned := by
    obtain heq | ⟨-, heq⟩ := hphase
    · rwa [heq]
    · simp [heq]
  have hthrew' : phase run.pc ≠ .threw := by
    obtain heq | ⟨-, heq⟩ := hphase
    · rwa [heq]
    · simp [heq]
  obtain ⟨hlog, htells⟩ := h.goes_on run hret hthrew hret' hthrew'
  refine ⟨hlog, h.root, htells, h.family, ?_, ?_⟩
  · obtain heq | ⟨-, heq⟩ := hphase
    · rw [heq]
      exact h.opened
    · rw [heq]
      trivial
  · intro _
    have hrec := h.recorded fun heq => hthrew (phase_threw.mpr heq)
    have hcalled : phase run.pc = .called ↔ phase s.run.pc = .called := by
      obtain heq | ⟨hfrom | hfrom, heq⟩ := hphase <;> simp [*]
    simp only [hcalled]
    exact hrec.quiet hreply hbatch

theorem Story.called {run : ReActWorkflow.State} (h : Story x first tr s children)
    (hidle : phase s.run.pc = .idle) (hcalled : phase run.pc = .called) :
    Story x first (tr ++ [.work .tau])
      { s with run, llm := some s.newCall, counter := s.counter + 1 } children := by
  obtain ⟨hlog, htells⟩ := h.goes_on run (by simp [hidle]) (by simp [hidle])
    (by simp [hcalled]) (by simp [hcalled])
  obtain ⟨hllm, htool, hfamily, hrec⟩ := h.idle hidle
  refine ⟨hlog, h.root, htells, ?_, ?_, ?_⟩
  · simp only [htool, Option.toList_none, Option.toList_some, List.append_nil]
    exact (hfamily.add (ctx_newCall h.root) (.inl rfl) (plain_newCall s)).perm
      (List.perm_append_singleton _ _).symm
  · rw [hcalled]
    exact ⟨⟨_, rfl, content_newCall s⟩, htool⟩
  · intro _
    rw [if_pos hcalled]
    simp only [htool, Option.toList_none, List.append_nil]
    exact hrec.quiet (by simp) (by simp)

theorem Story.reply {r : LLMResponse} {run : ReActWorkflow.State}
    (h : Story x first tr s children) (hcalled : phase s.run.pc = .called)
    (hphase : phase run.pc = .answered ∨ phase run.pc = .leaving) :
    Story x first (tr ++ [.work (.reply r)]) { s with run, llm := s.llm.map (recordResponse · r) }
      children := by
  have hlive : phase run.pc ≠ .returned ∧ phase run.pc ≠ .threw ∧ phase run.pc ≠ .called := by
    obtain heq | heq := hphase <;> simp [heq]
  obtain ⟨hlog, htells⟩ := h.goes_on run (by simp [hcalled]) (by simp [hcalled]) hlive.1 hlive.2.1
  have hopen := h.opened
  rw [hcalled] at hopen
  obtain ⟨⟨c, hllm, hc⟩, htool⟩ := hopen
  have hfamily := h.family
  have hrec := h.recorded fun heq => by simp [heq, phase] at hcalled
  rw [if_pos hcalled, List.append_nil] at hrec
  rw [hllm, Option.toList_some] at hfamily
  have hsaid := content_recordResponse hc r
  have hop : (recordResponse c r).operation = c.operation :=
    (congrArg Prod.fst hsaid).trans (congrArg Prod.fst hc).symm
  refine ⟨hlog, h.root, htells, ?_, ?_, ?_⟩
  · simp only [hllm, Option.map_some, Option.toList_some]
    exact hfamily.change (by simp [recordResponse]) hop (plain_of_callContent hsaid)
  · obtain heq | heq := hphase
    · rw [heq]
      refine ⟨?_, htool⟩
      simp only [hllm, Option.map_some, Option.mem_some_iff, forall_eq']
      exact congrArg Prod.fst hsaid
    · rw [heq]
      trivial
  · intro _
    rw [if_neg hlive.2.2]
    simp only [hllm, Option.map_some, Option.toList_some]
    exact hrec.reply hsaid

theorem Story.batched {outcomes : List ToolOutcome} {n : ℕ} {run : ReActWorkflow.State}
    (h : Story x first tr s children) (hlen : outcomes.length = n)
    (hans : phase s.run.pc = .answered) (hphase : phase run.pc = .batched) :
    Story x first (tr ++ [.work (.batch outcomes)])
      { s with
        run
        tool := some ((s.newBatch n).setStatus true "")
        counter := s.counter + 1 } children := by
  obtain ⟨hlog, htells⟩ := h.goes_on run (by simp [hans]) (by simp [hans])
    (by simp [hphase]) (by simp [hphase])
  obtain ⟨hllm, htool, hfamily, hrec⟩ := h.answered hans
  have hsaid : content ((s.newBatch n).setStatus true "") = batchContent outcomes.length := by
    rw [hlen]
    rfl
  refine ⟨hlog, h.root, htells, ?_, ?_, ?_⟩
  · have hadd := hfamily.add (c := (s.newBatch n).setStatus true "")
      (ctx_newBatch h.root n) (.inr rfl) (plain_newBatch s n)
    refine hadd.perm ?_
    rw [Option.toList_some, List.append_assoc]
    exact List.perm_middle.symm
  · rw [hphase]
    trivial
  · intro _
    rw [if_neg (by simp [hphase])]
    exact hrec.batch hsaid hllm

theorem Story.leaves {run : ReActWorkflow.State} (h : Story x first tr s children)
    (hphase : phase s.run.pc = .batched ∨ phase s.run.pc = .leaving)
    (hidle : phase run.pc = .idle) :
    Story x first (tr ++ [.work .tau])
      { s with
        run
        llm := none
        tool := none
        log := s.log ++ s.tool.toList ++ s.llm.toList }
      (children ++ s.tool.toList ++ s.llm.toList) := by
  have hret : phase s.run.pc ≠ .returned := by obtain heq | heq := hphase <;> simp [heq]
  have hthrew : phase s.run.pc ≠ .threw := by obtain heq | heq := hphase <;> simp [heq]
  have hcalled : phase s.run.pc ≠ .called := by obtain heq | heq := hphase <;> simp [heq]
  obtain ⟨hlog, htells⟩ := h.live hret hthrew
  have hrec := h.recorded fun heq => hthrew (phase_threw.mpr heq)
  rw [if_neg hcalled] at hrec
  refine ⟨?_, h.root, ?_, ?_, ?_, ?_⟩
  · rw [if_neg (by simp [ended_iff, hidle])]
    simp [hlog]
  · rw [if_neg (by simp [← phase_returned, hidle])]
    exact htells
  · simpa using h.family
  · rw [hidle]
    exact ⟨rfl, rfl⟩
  · intro _
    simpa using hrec.quiet (l := .tau) (by simp) (by simp)

theorem Story.returns {run : ReActWorkflow.State} (h : Story x first tr s children)
    (hidle : phase s.run.pc = .idle) (hret : run.pc = .returned) :
    Story x first (tr ++ [.work .tau])
      { s with
        run
        llm := none
        tool := none
        root := (s.root.setIntAttribute "steps" run.result.stepsTaken).setStatus
          run.result.success run.result.error
        log := s.log ++ s.tool.toList ++ s.llm.toList ++
          [(s.root.setIntAttribute "steps" run.result.stepsTaken).setStatus
            run.result.success run.result.error] } children := by
  obtain ⟨hlog, htells⟩ := h.live (by simp [hidle]) (by simp [hidle])
  obtain ⟨hllm, htool, hfamily, hrec⟩ := h.idle hidle
  refine ⟨?_, by simp [h.root], ?_, ?_, ?_, ?_⟩
  · rw [if_pos (by simp [hret, ended])]
    simp [hlog, hllm, htool]
  · rw [if_pos hret]
    simp only [content, rootContent, Prod.mk.injEq] at htells
    obtain ⟨hop, hattrs, -, -⟩ := htells
    simp [content, resultContent, Span.setIntAttribute, Span.setAttribute, Span.setStatus, hop,
      hattrs]
  · simpa using hfamily
  · rw [hret]
    exact ⟨rfl, rfl⟩
  · intro _
    simpa using hrec.quiet (l := .tau) (by simp) (by simp)

theorem Story.step (h : Story x first tr s children) (hs : Traces s l s') :
    ∃ children', Story x first (tr ++ [.work l]) s' children' := by
  cases hs with
  | quiet hreply hbatch hphase hret hthrew =>
    exact ⟨children, h.quiet hreply hbatch hphase hret hthrew⟩
  | called hidle hcalled => exact ⟨children, h.called hidle hcalled⟩
  | callRaises hidle hthrew =>
    obtain ⟨hlog, htells⟩ := h.live (by simp [hidle]) (by simp [hidle])
    obtain ⟨hllm, htool, hfamily, -⟩ := h.idle hidle
    refine ⟨children ++ [s.newCall], story_threw hthrew ?_ h.root htells ?_ rfl rfl⟩
    · simp [hlog, htool]
    · exact (hfamily.add (ctx_newCall h.root) (.inl rfl) (plain_newCall s)).perm
        (List.perm_append_singleton _ _).symm
  | getRaises hcalled hthrew =>
    obtain ⟨hlog, htells⟩ := h.live (by simp [hcalled]) (by simp [hcalled])
    refine ⟨children ++ s.tool.toList ++ s.llm.toList,
      story_threw hthrew ?_ h.root htells h.family rfl rfl⟩
    simp [hlog]
  | answered hcalled hphase => exact ⟨children, h.reply hcalled hphase⟩
  | batched hlen hans hphase => exact ⟨children, h.batched hlen hans hphase⟩
  | @batchRaises outcomes n run hlen hans hthrew =>
    obtain ⟨hlog, htells⟩ := h.live (by simp [hans]) (by simp [hans])
    obtain ⟨-, -, hfamily, -⟩ := h.answered hans
    refine ⟨children ++ [s.newBatch n] ++ s.llm.toList,
      story_threw hthrew ?_ h.root htells ?_ rfl rfl⟩
    · simp [hlog]
    · refine (hfamily.add (ctx_newBatch h.root n) (.inr rfl) (plain_newBatch s n)).perm ?_
      rw [List.append_assoc]
      exact List.perm_middle.symm
  | leaves hphase hidle => exact ⟨_, h.leaves hphase hidle⟩
  | returns hidle hret => exact ⟨children, h.returns hidle hret⟩

theorem Story.elsewhere (h : Story x first tr s children) :
    Story x first (tr ++ [.elsewhere]) { s with counter := s.counter + 1 } children where
  log := h.log
  root := h.root
  tells := h.tells
  family := h.family.count
  opened := h.opened
  recorded := by
    intro hthrew
    rw [Recorded, replies_snoc, batches_snoc]
    simpa [replies, batches, Recorded] using h.recorded hthrew

theorem Story.cancel (h : Story x first tr s children) :
    Story x first (tr ++ [.cancel])
      { s with run := { s.run with session := { s.run.session with cancelRequested := true } } }
      children where
  log := h.log
  root := h.root
  tells := h.tells
  family := h.family
  opened := h.opened
  recorded := by
    intro hthrew
    rw [Recorded, replies_snoc, batches_snoc]
    simpa [replies, batches, Recorded] using h.recorded hthrew

theorem story_start : Story x first [] (start x first) [] where
  log := rfl
  root := rfl
  tells := rfl
  family := ⟨Nat.lt_succ_self first, by simp [start], by simp [start], by simp [start]⟩
  opened := ⟨rfl, rfl⟩
  recorded := fun _ => ⟨rfl, rfl⟩

theorem story_run (hrun : (system reg x first).Run tr s) :
    ∃ children, Story x first tr s children := by
  apply hrun.history_invariant (P := fun tr s => ∃ children, Story x first tr s children)
  · rintro s rfl
    exact ⟨[], story_start⟩
  · rintro tr s a s' - ⟨children, h⟩ hs
    cases a with
    | elsewhere =>
      cases hs
      exact ⟨children, h.elsewhere⟩
    | cancel =>
      cases hs
      exact ⟨children, h.cancel⟩
    | work l => exact h.step (traces_of_next hs).2

/-! ### Totals -/

/-- The responses without an error. -/
def answers (tr : List Label) : List LLMResponse := (replies tr).filter (·.error = "")

/-- The result has the tokens of these, as long as an `int` holds them. -/
def Totals (tr : List Label) (s : State) : Prop :=
  AddsUp s.run.result.totalPromptTokens ((answers tr).map (·.promptTokens)) ∧
    AddsUp s.run.result.totalCompletionTokens ((answers tr).map (·.completionTokens))

theorem answers_snoc (tr : List Label) (a : Label) :
    answers (tr ++ [a]) = answers tr ++ answers [a] := by
  rw [answers, replies_snoc, List.filter_append]
  rfl

theorem answers_reply (r : LLMResponse) :
    answers [.work (.reply r)] = if r.error = "" then [r] else [] := by
  by_cases herr : r.error = "" <;> simp [answers, replies, herr]

theorem Totals.step (ht : Totals tr s) (hs : Moves reg s.run l s'.run) :
    Totals (tr ++ [.work l]) s' := by
  obtain ⟨run, counter, root, llm, tool, log⟩ := s
  obtain ⟨run', counter', root', llm', tool', log'⟩ := s'
  simp only at hs
  unfold Totals at ht ⊢
  simp only [answers_snoc, List.map_append] at ht ⊢
  cases hs
  case reply r herr =>
    simp only [answers_reply, herr, if_true, List.map_cons, List.map_nil]
    exact ⟨ht.1.snoc, ht.2.snoc⟩
  case replyError r herr => simpa [answers_reply, herr] using ht
  -- no response, and the totals stay
  all_goals simpa [answers, replies] using ht

theorem totals_run (hrun : (system reg x first).Run tr s) : Totals tr s := by
  apply hrun.history_invariant (P := Totals)
  · rintro s rfl
    exact ⟨addsUp_nil, addsUp_nil⟩
  · rintro tr s a s' - h hs
    cases a with
    | elsewhere =>
      cases hs
      simpa [Totals, answers_snoc, answers, replies] using h
    | cancel =>
      cases hs
      simpa [Totals, answers_snoc, answers, replies] using h
    | work l => exact h.step (traces_of_next hs).1

/-! ### What the Log Tells -/

/-- The log of a run on `x` that has ended: the children, then the span of
    the run. -/
structure Told (x : Session) (first : ℕ) (s : State) (children : List Span) : Prop where
  log : s.log = children ++ [s.root]
  root : s.root.ctx = ⟨x.id, first, 0⟩
  child : ∀ c ∈ children, Child x first c
  ids : (first :: children.map (·.ctx.spanId)).Nodup

theorem Story.told (h : Story x first tr s children) (hend : ended s.run.pc) :
    Told x first s children where
  log := by rw [h.log, if_pos hend]
  root := h.root
  child := fun c hc => h.family.child c (by simp [hc])
  ids := by
    have hids := h.family.ids
    rw [List.append_assoc, List.map_append, ← List.cons_append] at hids
    exact (List.nodup_append.mp hids).1

theorem plain_result {span : Span} {res : WorkflowResult}
    (h : content span = resultContent x res) : span.Plain ↔ JsonText.Plain res.error := by
  simp only [content, resultContent, Prod.mk.injEq] at h
  obtain ⟨hop, hattrs, -, hstatus⟩ := h
  have hrun : JsonText.Plain "react.run" := by decide
  have hid : JsonText.Plain "session_id" := by decide
  have hsteps : JsonText.Plain "steps" := by decide
  simp only [Span.Plain, hop, hattrs, hstatus, hrun, hid, hsteps, plain_toString, true_and,
    and_true, List.forall_mem_cons, List.not_mem_nil, false_imp_iff, implies_true]

/-- **The trace of a run.** When `run` returns, its log has one line for
    every response and every batch, in their order, with their tokens and
    sizes, and the last line has the result. The tokens of the responses
    without an error add up to its totals, as long as an `int` holds them.
    When an exception leaves `run`, the last line says that all went well.
    The lines are JSON documents, the last one exactly if the error of the
    result has no character that JSON escapes. -/
theorem run_traced (hrun : (system reg x first).Run tr s) :
    (s.run.pc = .returned → ∃ children, Told x first s children ∧ Recorded tr children ∧
      content s.root = resultContent x s.run.result ∧ Totals tr s ∧
      (∀ c ∈ children, ∀ dur, JsonText.Document (c.line dur) (c.toJson dur)) ∧
      ∀ dur, JsonText.Document (s.root.line dur) (s.root.toJson dur) ↔
        JsonText.Plain s.run.result.error) ∧
    (s.run.pc = .threw → ∃ children, Told x first s children ∧
      content s.root = rootContent x) := by
  obtain ⟨children, h⟩ := story_run hrun
  constructor
  · intro hret
    have htold := h.told (by simp [hret, ended])
    have htells := h.tells
    have hrec := h.recorded (by simp [hret])
    have hopen := h.opened
    rw [hret] at hopen
    obtain ⟨hllm, htool⟩ : s.llm = none ∧ s.tool = none := hopen
    rw [if_pos hret] at htells
    rw [if_neg (by simp [hret, phase]), hllm, htool] at hrec
    refine ⟨children, htold, by simpa using hrec, htells, totals_run hrun, ?_, ?_⟩
    · intro c hc dur
      exact (c.line_document_iff dur).mpr (htold.child c hc).plain
    · intro dur
      rw [Span.line_document_iff, plain_result htells]
  · intro hthrew
    have htells := h.tells
    rw [if_neg (by simp [hthrew])] at htells
    exact ⟨children, h.told (by simp [hthrew, ended]), htells⟩

/-- An iteration up to the response. -/
def iteration (r : LLMResponse) : List Label :=
  List.flatten
    [.replicate 3 (.work .tau), [.work (.now 1)], .replicate 3 (.work .tau), [.work (.reply r)]]

/-- The LLM asks for a tool and then fails, with quotation marks in the
    text; another session takes an id in between. -/
def failedCall : List Label :=
  List.flatten
    [iteration ⟨⟨"assistant", "", [⟨"1", "search", ""⟩], ""⟩, 5, 2, "", ""⟩,
      .replicate 2 (.work .tau), [.elsewhere, .work (.batch [.output "found"])],
      .replicate 2 (.work .tau), iteration ⟨⟨"", "", [], ""⟩, 0, 0, "", "no \"key\""⟩,
      .replicate 3 (.work .tau)]

theorem failedCall_traced : ∃ s, (system ⟨["search"]⟩ (Session.new 1 {} 0) 7).Run failedCall s ∧
    s.run.pc = .returned ∧ s.log.length = 4 ∧
    ∀ dur, ¬JsonText.Document (s.root.line dur) (s.root.toJson dur) := by
  have hends : (System.exec (next ⟨["search"]⟩) (start (Session.new 1 {} 0) 7) failedCall).map
      (fun s => (s.run.pc, s.log.length, s.run.result.error)) =
        some (.returned, 4, "LLM error: no \"key\"") := by decide
  obtain ⟨s, hrun, hends⟩ := System.exists_run_of_exec hends
  simp only [Prod.mk.injEq] at hends
  obtain ⟨hret, hlen, herr⟩ := hends
  obtain ⟨children, -, -, -, -, -, hroot⟩ := (run_traced hrun).1 hret
  refine ⟨s, hrun, hret, hlen, ?_⟩
  intro dur hdoc
  have hplain := (hroot dur).mp hdoc
  rw [herr] at hplain
  revert hplain
  decide

end ReActTrace

end Forge
