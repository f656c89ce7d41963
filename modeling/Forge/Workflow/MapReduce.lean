import Forge.Workflow.ReAct

/-! # Map-Reduce Workflow

  `MapReduceWorkflow::run` (`workflow/map_reduce.cpp`) as a machine. The
  task that executes `run` and the sub-tasks it submits to the pool take
  their steps in any order. A sub-task that ends by an exception leaves it
  in its future, and `run` throws it again when it waits for that future;
  the other sub-tasks go on.

  `result`, `tasks` and the session are shared by `run` and the sub-tasks.
-/

namespace Forge

open Workflow (Label Exit parseEntries)

namespace MapReduceWorkflow

structure SubTask where
  id : ℤ
  description : String
  result : String := ""
  success : Bool := false
  deriving DecidableEq

/-- Where `run` is; `i` is the index of a sub-task. -/
inductive PC where
  /-- The first `state.store(WAITING_FOR_LLM)`. -/
  | storeWaiting
  /-- `llm_.complete(messages)` in `decompose`. -/
  | decomposeComplete
  | decomposeGet
  | storeExecuting
  /-- The loop that submits the sub-tasks. -/
  | submit (i : ℕ)
  /-- The loop that waits for the futures. -/
  | join (i : ℕ)
  | checkCancel
  /-- The second `state.store(WAITING_FOR_LLM)`. -/
  | storeReducing
  /-- `llm_.complete(messages)` in `reduce`. -/
  | reduceComplete
  | reduceGet
  | exit (e : Exit)
  | returned
  /-- An exception has left `run`. -/
  | threw
  deriving DecidableEq

/-- Where the lambda of a sub-task is. -/
inductive SubPC where
  /-- Not yet submitted. -/
  | pending
  /-- In the pool, or before the check of the flag. -/
  | checkCancel
  | countStep
  /-- The construction of `sub_session`. -/
  | createSub
  | runSub (sub : ReActWorkflow.State)
  /-- The critical section that adds the tokens. -/
  | addTokens (res : WorkflowResult)
  | writeResult (res : WorkflowResult)
  /-- The future holds `success`. -/
  | done (success : Bool)
  /-- The future holds an exception. -/
  | threw
  deriving DecidableEq

structure State where
  pc : PC
  session : Session
  result : WorkflowResult
  tasks : List SubTask
  /-- The sub-tasks, in the order of `tasks`. -/
  subs : List SubPC
  deriving DecidableEq

/-- A step of `run` or of one sub-task. -/
inductive Action where
  | main (l : Label)
  | sub (i : ℕ) (l : Label)
  deriving DecidableEq

/-- The start of `run`. -/
def start (session : Session) : State := ⟨.storeWaiting, session, {}, [], []⟩

def decomposePrompt : Message where
  role := "system"
  content :=
    "You are a task decomposition assistant. Break down the user's request " ++
    "into independent sub-tasks that can be executed in parallel. " ++
    "Respond with ONLY a JSON object in this format:\n" ++
    "\x7b\"tasks\": [\x7b\"id\": 1, \"description\": \"sub-task description\"\x7d, ...]\x7d" ++
    "\nDo not include any other text."

def reducePrompt : Message where
  role := "system"
  content :=
    "You are a helpful assistant. Aggregate the results of the " ++
    "following sub-tasks into a final, coherent answer."

/-- The lines of one sub-task in `summary`. -/
def SubTask.summary (t : SubTask) : String :=
  "Sub-task " ++ toString t.id ++ ": " ++ t.description ++ "\nResult: " ++ t.result ++
    "\nSuccess: " ++ (if t.success then "yes" else "no") ++ "\n\n"

/-- The messages the pending call of the LLM in `run` is given. -/
def State.request (s : State) : List Message :=
  match s.pc with
  | .decomposeComplete | .decomposeGet => decomposePrompt :: s.session.history.firstUser?.toList
  | .reduceComplete | .reduceGet =>
      let results : Message := {
        role := "user"
        content := "Here are the sub-task results:\n\n" ++
          String.join (s.tasks.map SubTask.summary) ++
          "\nPlease aggregate these into a final answer." }
      reducePrompt :: s.session.history.firstUser?.toList ++ [results]
  | _ => []

/-- `decompose`, given the response. -/
def decompose (parse : String → Option Json) (r : LLMResponse) : List SubTask :=
  if r.error ≠ "" then []
  else (parseEntries parse "tasks" r.message.content).map fun e =>
    { id := e.1, description := e.2 }

/-- `reduce`, given the response. -/
def reduce (r : LLMResponse) : String := if r.error ≠ "" then "" else r.message.content

/-- A step of `run`. -/
def mainNext (parse : String → Option Json) (s : State) (l : Label) : Option State :=
  match s.pc, l with
  | .storeWaiting, .tau =>
      some { s with
        session := { s.session with state := .waitingForLlm }
        pc := .decomposeComplete }
  | .decomposeComplete, .tau => some { s with pc := .decomposeGet }
  | .decomposeComplete, .raise => some { s with pc := .threw }
  | .decomposeGet, .raise => some { s with pc := .threw }
  | .decomposeGet, .reply r =>
      some { s with
        result := s.result.addTokens r.promptTokens r.completionTokens
        tasks := decompose parse r
        subs := (decompose parse r).map fun _ => .pending
        pc := if decompose parse r = [] then .exit (.setError "Failed to decompose task" .failed)
          else .storeExecuting }
  | .storeExecuting, .tau =>
      some { s with session := { s.session with state := .executingTools }, pc := .submit 0 }
  | .submit i, .tau =>
      if i < s.tasks.length then
        some { s with subs := s.subs.set i .checkCancel, pc := .submit (i + 1) }
      else some { s with pc := .join 0 }
  | .join i, .tau =>
      match s.subs[i]? with
      | some (.done _) => some { s with pc := .join (i + 1) }
      | some .threw => some { s with pc := .threw }
      | some _ => none
      | none => some { s with pc := .checkCancel }
  | .checkCancel, .tau =>
      some { s with
        pc := if s.session.cancelRequested then .exit (.setError "Cancelled by user" .cancelled)
          else .storeReducing }
  | .storeReducing, .tau =>
      some { s with
        session := { s.session with state := .waitingForLlm }
        pc := .reduceComplete }
  | .reduceComplete, .tau => some { s with pc := .reduceGet }
  | .reduceComplete, .raise => some { s with pc := .threw }
  | .reduceGet, .raise => some { s with pc := .threw }
  | .reduceGet, .reply r =>
      some { s with
        result := s.result.addTokens r.promptTokens r.completionTokens
        pc := if reduce r = "" then .exit (.setError "Reduce phase failed" .failed)
          else .exit (.setFinalAnswer (reduce r)) }
  | .exit e, .tau =>
      some { s with
        session := e.session s.session
        result := e.result s.session s.result
        pc := match e.next with
          | some e' => .exit e'
          | none => .returned }
  | _, _ => none

/-- A step of the sub-task `task`, the `i`-th, that is at `pc`. -/
def subNext (reg : ToolRegistry) (s : State) (i : ℕ) (task : SubTask) (pc : SubPC) (l : Label) :
    Option State :=
  match pc, l with
  | .checkCancel, .tau =>
      some { s with
        subs := s.subs.set i (if s.session.cancelRequested then .done false else .countStep) }
  | .countStep, .tau =>
      some { s with session := s.session.countStep, subs := s.subs.set i .createSub }
  | .createSub, .now t =>
      some { s with
        subs := s.subs.set i
          (.runSub (ReActWorkflow.start (s.session.newSub task.description t))) }
  | .runSub sub, l =>
      if sub.pc = .returned then
        if l = .tau then some { s with subs := s.subs.set i (.addTokens sub.result) } else none
      else
        match ReActWorkflow.next reg sub l with
        | some sub' =>
            some { s with
              subs := s.subs.set i (if sub'.pc = .threw then .threw else .runSub sub') }
        | none => none
  | .addTokens res, .tau =>
      some { s with
        result := s.result.addTokens res.totalPromptTokens res.totalCompletionTokens
        subs := s.subs.set i (.writeResult res) }
  | .writeResult res, .tau =>
      some { s with
        tasks := s.tasks.set i { task with
          success := res.success
          result := if res.success then res.answer else res.error }
        subs := s.subs.set i (.done res.success) }
  | _, _ => none

/-- The step function. -/
def next (parse : String → Option Json) (reg : ToolRegistry) (s : State) : Action → Option State
  | .main l => mainNext parse s l
  | .sub i l =>
      match s.tasks[i]?, s.subs[i]? with
      | some task, some pc => subNext reg s i task pc l
      | _, _ => none

/-! ### What a Step Can Do -/

/-- What one step of `run` can do, one constructor per way through it. -/
inductive MainMoves (parse : String → Option Json) : State → Label → State → Prop where
  | storeWaiting {x res tasks subs} :
      MainMoves parse ⟨.storeWaiting, x, res, tasks, subs⟩ .tau
        ⟨.decomposeComplete, { x with state := .waitingForLlm }, res, tasks, subs⟩
  | decomposeComplete {x res tasks subs} :
      MainMoves parse ⟨.decomposeComplete, x, res, tasks, subs⟩ .tau
        ⟨.decomposeGet, x, res, tasks, subs⟩
  | decomposeCompleteRaises {x res tasks subs} :
      MainMoves parse ⟨.decomposeComplete, x, res, tasks, subs⟩ .raise ⟨.threw, x, res, tasks, subs⟩
  | decomposeGetRaises {x res tasks subs} :
      MainMoves parse ⟨.decomposeGet, x, res, tasks, subs⟩ .raise ⟨.threw, x, res, tasks, subs⟩
  | noTasks {x res tasks subs r} : decompose parse r = [] →
      MainMoves parse ⟨.decomposeGet, x, res, tasks, subs⟩ (.reply r)
        ⟨.exit (.setError "Failed to decompose task" .failed), x,
          res.addTokens r.promptTokens r.completionTokens, [], []⟩
  | decomposed {x res tasks subs r} : decompose parse r ≠ [] →
      MainMoves parse ⟨.decomposeGet, x, res, tasks, subs⟩ (.reply r)
        ⟨.storeExecuting, x, res.addTokens r.promptTokens r.completionTokens, decompose parse r,
          (decompose parse r).map fun _ => .pending⟩
  | storeExecuting {x res tasks subs} :
      MainMoves parse ⟨.storeExecuting, x, res, tasks, subs⟩ .tau
        ⟨.submit 0, { x with state := .executingTools }, res, tasks, subs⟩
  | submit {x res tasks subs i} : i < tasks.length →
      MainMoves parse ⟨.submit i, x, res, tasks, subs⟩ .tau
        ⟨.submit (i + 1), x, res, tasks, subs.set i .checkCancel⟩
  | submitted {x res tasks subs i} : tasks.length ≤ i →
      MainMoves parse ⟨.submit i, x, res, tasks, subs⟩ .tau ⟨.join 0, x, res, tasks, subs⟩
  | join {x res tasks subs i b} : subs[i]? = some (.done b) →
      MainMoves parse ⟨.join i, x, res, tasks, subs⟩ .tau ⟨.join (i + 1), x, res, tasks, subs⟩
  | joinRaises {x res tasks subs i} : subs[i]? = some .threw →
      MainMoves parse ⟨.join i, x, res, tasks, subs⟩ .tau ⟨.threw, x, res, tasks, subs⟩
  | joined {x res tasks subs i} : subs.length ≤ i →
      MainMoves parse ⟨.join i, x, res, tasks, subs⟩ .tau ⟨.checkCancel, x, res, tasks, subs⟩
  | cancelled {x res tasks subs} : x.cancelRequested = true →
      MainMoves parse ⟨.checkCancel, x, res, tasks, subs⟩ .tau
        ⟨.exit (.setError "Cancelled by user" .cancelled), x, res, tasks, subs⟩
  | notCancelled {x res tasks subs} : x.cancelRequested = false →
      MainMoves parse ⟨.checkCancel, x, res, tasks, subs⟩ .tau
        ⟨.storeReducing, x, res, tasks, subs⟩
  | storeReducing {x res tasks subs} :
      MainMoves parse ⟨.storeReducing, x, res, tasks, subs⟩ .tau
        ⟨.reduceComplete, { x with state := .waitingForLlm }, res, tasks, subs⟩
  | reduceComplete {x res tasks subs} :
      MainMoves parse ⟨.reduceComplete, x, res, tasks, subs⟩ .tau ⟨.reduceGet, x, res, tasks, subs⟩
  | reduceCompleteRaises {x res tasks subs} :
      MainMoves parse ⟨.reduceComplete, x, res, tasks, subs⟩ .raise ⟨.threw, x, res, tasks, subs⟩
  | reduceGetRaises {x res tasks subs} :
      MainMoves parse ⟨.reduceGet, x, res, tasks, subs⟩ .raise ⟨.threw, x, res, tasks, subs⟩
  | noAnswer {x res tasks subs r} : reduce r = "" →
      MainMoves parse ⟨.reduceGet, x, res, tasks, subs⟩ (.reply r)
        ⟨.exit (.setError "Reduce phase failed" .failed), x,
          res.addTokens r.promptTokens r.completionTokens, tasks, subs⟩
  | answer {x res tasks subs r} : reduce r ≠ "" →
      MainMoves parse ⟨.reduceGet, x, res, tasks, subs⟩ (.reply r)
        ⟨.exit (.setFinalAnswer (reduce r)), x,
          res.addTokens r.promptTokens r.completionTokens, tasks, subs⟩
  | exitNext {x res tasks subs e e'} : Exit.next e = some e' →
      MainMoves parse ⟨.exit e, x, res, tasks, subs⟩ .tau
        ⟨.exit e', e.session x, e.result x res, tasks, subs⟩
  | exitLast {x res tasks subs e} : Exit.next e = none →
      MainMoves parse ⟨.exit e, x, res, tasks, subs⟩ .tau
        ⟨.returned, e.session x, e.result x res, tasks, subs⟩

/-- The inversion of the steps of `run`. -/
theorem mainMoves_of_next {parse : String → Option Json} {s s' : State} {l : Label}
    (hs : mainNext parse s l = some s') : MainMoves parse s l s' := by
  obtain ⟨pc, x, res, tasks, subs⟩ := s
  cases pc <;> cases l <;> simp only [mainNext, Option.some.injEq, reduceCtorEq] at hs
  case submit.tau i =>
    split at hs <;> cases hs
    · next hlt => exact .submit hlt
    · next hlt => exact .submitted (by omega)
  case join.tau i =>
    split at hs
    · next b hb =>
      cases hs
      exact .join hb
    · next hthrew =>
      cases hs
      exact .joinRaises hthrew
    · cases hs
    · next hend =>
      cases hs
      exact .joined (List.getElem?_eq_none_iff.mp hend)
  all_goals subst hs
  case decomposeGet.reply r =>
    by_cases htasks : decompose parse r = []
    · simpa [htasks] using MainMoves.noTasks htasks
    · simpa [htasks] using MainMoves.decomposed htasks
  case checkCancel.tau =>
    by_cases hcancel : x.cancelRequested
    · simpa [hcancel] using MainMoves.cancelled hcancel
    · simpa [hcancel] using MainMoves.notCancelled (by simpa using hcancel)
  case reduceGet.reply r =>
    by_cases hanswer : reduce r = ""
    · simpa [hanswer] using MainMoves.noAnswer hanswer
    · simpa [hanswer] using MainMoves.answer hanswer
  case exit.tau e =>
    cases hnext : e.next with
    | none => exact .exitLast hnext
    | some e' => exact .exitNext hnext
  all_goals constructor

/-- What one step of the `i`-th sub-task can do to itself and to what it
    shares with `run`. -/
inductive SubMoves (reg : ToolRegistry) (i : ℕ) : State → Label → State → Prop where
  | cancelled {s} : s.subs[i]? = some .checkCancel → s.session.cancelRequested = true →
      SubMoves reg i s .tau { s with subs := s.subs.set i (.done false) }
  | notCancelled {s} : s.subs[i]? = some .checkCancel → s.session.cancelRequested = false →
      SubMoves reg i s .tau { s with subs := s.subs.set i .countStep }
  | countStep {s} : s.subs[i]? = some .countStep →
      SubMoves reg i s .tau
        { s with session := s.session.countStep, subs := s.subs.set i .createSub }
  | createSub {s} {task : SubTask} {t} : s.subs[i]? = some .createSub → s.tasks[i]? = some task →
      SubMoves reg i s (.now t) { s with
        subs := s.subs.set i
          (.runSub (ReActWorkflow.start (s.session.newSub task.description t))) }
  | sub {s sub sub' l} : s.subs[i]? = some (.runSub sub) → ReActWorkflow.Moves reg sub l sub' →
      sub'.pc ≠ .threw →
      SubMoves reg i s l { s with subs := s.subs.set i (.runSub sub') }
  | subRaises {s sub sub' l} : s.subs[i]? = some (.runSub sub) →
      ReActWorkflow.Moves reg sub l sub' → sub'.pc = .threw →
      SubMoves reg i s l { s with subs := s.subs.set i .threw }
  | subReturned {s sub} : s.subs[i]? = some (.runSub sub) → sub.pc = .returned →
      SubMoves reg i s .tau { s with subs := s.subs.set i (.addTokens sub.result) }
  | addTokens {s res} : s.subs[i]? = some (.addTokens res) →
      SubMoves reg i s .tau { s with
        result := s.result.addTokens res.totalPromptTokens res.totalCompletionTokens
        subs := s.subs.set i (.writeResult res) }
  | writeResult {s} {task : SubTask} {res} : s.subs[i]? = some (.writeResult res) →
      s.tasks[i]? = some task →
      SubMoves reg i s .tau { s with
        tasks := s.tasks.set i { task with
          success := res.success
          result := if res.success then res.answer else res.error }
        subs := s.subs.set i (.done res.success) }

/-- The inversion of the steps of the sub-tasks. -/
theorem subMoves_of_next {parse : String → Option Json} {reg : ToolRegistry} {s s' : State} {i : ℕ}
    {l : Label} (hs : next parse reg s (.sub i l) = some s') : SubMoves reg i s l s' := by
  simp only [next] at hs
  split at hs
  case h_2 => cases hs
  case h_1 task pc htask hpc =>
    cases pc
    case runSub sub =>
      simp only [subNext] at hs
      split at hs
      · next hret =>
        split at hs
        · next htau =>
          cases hs
          subst htau
          exact .subReturned hpc hret
        · cases hs
      · split at hs
        · next sub' hsub =>
          cases hs
          have hmoves := ReActWorkflow.moves_of_next hsub
          by_cases hthrew : sub'.pc = .threw
          · simpa [hthrew] using SubMoves.subRaises hpc hmoves hthrew
          · simpa [hthrew] using SubMoves.sub hpc hmoves hthrew
        · cases hs
    all_goals
      cases l <;> simp only [subNext, Option.some.injEq, reduceCtorEq] at hs
    all_goals subst hs
    case checkCancel.tau =>
      by_cases hcancel : s.session.cancelRequested
      · simpa [hcancel] using SubMoves.cancelled hpc hcancel
      · simpa [hcancel] using SubMoves.notCancelled hpc (by simpa using hcancel)
    case countStep.tau => exact .countStep hpc
    case createSub.now => exact .createSub hpc htask
    case addTokens.tau => exact .addTokens hpc
    case writeResult.tau => exact .writeResult hpc htask

/-! ### How a Run Ends -/

/-- The step lets an exception out of `run` or into the future of a
    sub-task. -/
def raises (reg : ToolRegistry) (s : State) : Action → Bool
  | .main l =>
      match s.pc, l with
      | .decomposeComplete, .raise | .decomposeGet, .raise => true
      | .reduceComplete, .raise | .reduceGet, .raise => true
      | _, _ => false
  | .sub i l =>
      match s.subs[i]? with
      | some (.runSub sub) => ReActWorkflow.raises reg sub l
      | _ => false

/-- An exception has left `run`, or is in the future of a sub-task. -/
def Raised (s : State) : Prop := s.pc = .threw ∨ .threw ∈ s.subs

/-- The session is in a terminal state after the store on the way out,
    and in none before it. -/
def PC.Allows : PC → SessionState → Prop
  | .exit e, st => e.Allows st
  | .returned, st => st.terminal
  | _, st => st.terminal = false

/-- Of `n` futures, those `run` has waited for without an exception. -/
def PC.joined (n : ℕ) : PC → ℕ
  | .join i => i
  | .checkCancel | .storeReducing | .reduceComplete | .reduceGet | .exit _ | .returned => n
  | _ => 0

/-- The sub-tasks from this one on are not submitted. -/
def PC.unsubmitted : PC → Option ℕ
  | .storeWaiting | .decomposeComplete | .decomposeGet | .storeExecuting => some 0
  | .submit i => some i
  | _ => none

/-- The sub-tasks are as far as the loops over them. -/
structure Loops (s : State) : Prop where
  joined : ∀ j < s.pc.joined s.subs.length, ∃ b, s.subs[j]? = some (.done b)
  unsubmitted : ∀ i, s.pc.unsubmitted = some i → ∀ j, i ≤ j → ∀ pc, s.subs[j]? = some pc →
    pc = .pending

/-- The session and the sub-tasks are as far as `run` is. -/
structure Inv (s : State) : Prop extends Loops s where
  session : s.pc.Allows s.session.state

variable {parse : String → Option Json} {reg : ToolRegistry} {s s' : State}

theorem loops_start (session : Session) : Loops (start session) where
  joined := by simp [start, PC.joined]
  unsubmitted := by simp [start]

theorem inv_start {session : Session} (hstate : session.state.terminal = false) :
    Inv (start session) where
  toLoops := loops_start session
  session := hstate

/-- What a step of a sub-task can do: it moves that sub-task alone, which
    is neither waiting nor over, and only raising ends it by an exception. -/
theorem sub_cases {i : ℕ} {l : Label} (hs : next parse reg s (.sub i l) = some s') :
    s'.pc = s.pc ∧ s'.session.state = s.session.state ∧
      ∃ pc pc', s.subs[i]? = some pc ∧ s'.subs = s.subs.set i pc' ∧
        pc ≠ .pending ∧ pc ≠ .threw ∧ (∀ b, pc ≠ .done b) ∧
        (pc' = .threw ↔ raises reg s (.sub i l)) := by
  cases subMoves_of_next hs
  case cancelled hpc hcancel | notCancelled hpc hcancel =>
    exact ⟨rfl, rfl, _, _, hpc, rfl, by simp, by simp, by simp, by simp [raises, hpc]⟩
  case countStep hpc | addTokens hpc =>
    exact ⟨rfl, rfl, _, _, hpc, rfl, by simp, by simp, by simp, by simp [raises, hpc]⟩
  case createSub hpc htask | writeResult hpc htask =>
    exact ⟨rfl, rfl, _, _, hpc, rfl, by simp, by simp, by simp, by simp [raises, hpc]⟩
  -- an exception of the nested run is the only one
  case sub hpc hgoing hmoves =>
    exact ⟨rfl, rfl, _, _, hpc, rfl, by simp, by simp, by simp,
      by simpa [raises, hpc, hgoing] using ReActWorkflow.threw_iff hmoves⟩
  case subRaises hpc hthrew hmoves =>
    exact ⟨rfl, rfl, _, _, hpc, rfl, by simp, by simp, by simp,
      by simpa [raises, hpc, hthrew] using ReActWorkflow.threw_iff hmoves⟩
  case subReturned hpc hret =>
    exact ⟨rfl, rfl, _, _, hpc, rfl, by simp, by simp, by simp,
      by simp [raises, hpc, ReActWorkflow.raises, hret]⟩

/-- Setting a sub-task that has not thrown. -/
theorem threw_mem_set {subs : List SubPC} {i : ℕ} {pc pc' : SubPC} (hpc : subs[i]? = some pc)
    (hne : pc ≠ .threw) : .threw ∈ subs.set i pc' ↔ .threw ∈ subs ∨ pc' = .threw := by
  have hlt : i < subs.length := (List.getElem?_eq_some_iff.mp hpc).1
  simp only [List.mem_iff_getElem?, List.getElem?_set, hlt]
  constructor
  · rintro ⟨j, hj⟩
    by_cases hij : i = j
    · simp only [hij, if_true, Option.some.injEq] at hj
      exact .inr hj
    · simp only [hij, if_false] at hj
      exact .inl ⟨j, hj⟩
  · intro h
    rcases h with ⟨j, hj⟩ | rfl
    · have hij : i ≠ j := by
        intro hij
        subst hij
        rw [hpc, Option.some.injEq] at hj
        exact hne hj
      exact ⟨j, by simpa [hij] using hj⟩
    · exact ⟨i, by simp⟩

/-- A step of a sub-task, which is submitted and not waited for. -/
theorem Loops.sub {i : ℕ} {l : Label} (hi : Loops s)
    (hs : next parse reg s (.sub i l) = some s') : Loops s' := by
  obtain ⟨hpc', -, pc, pc', hpc, hsubs, hpending, -, hdone, -⟩ := sub_cases hs
  refine ⟨?_, ?_⟩
  · intro j hj
    rw [hpc', hsubs, List.length_set] at hj
    obtain ⟨b, hb⟩ := hi.joined j hj
    -- the sub-task that moves is not among those waited for
    have hij : i ≠ j := by
      intro hij
      subst hij
      rw [hpc, Option.some.injEq] at hb
      exact hdone b hb
    exact ⟨b, by simpa [hsubs, hij] using hb⟩
  · intro k hk j hkj pc₁ hj
    rw [hpc'] at hk
    have hij : i ≠ j := by
      intro hij
      subst hij
      exact hpending (hi.unsubmitted k hk i hkj pc hpc)
    rw [hsubs, List.getElem?_set_ne hij] at hj
    exact hi.unsubmitted k hk j hkj pc₁ hj

/-- A step of a sub-task keeps the invariant. -/
theorem Inv.sub {i : ℕ} {l : Label} (hi : Inv s) (hs : next parse reg s (.sub i l) = some s') :
    Inv s' := by
  obtain ⟨hpc', hstate, -⟩ := sub_cases hs
  refine ⟨hi.toLoops.sub hs, ?_⟩
  rw [hpc', hstate]
  exact hi.session

/-- A step of a sub-task raises what it says. -/
theorem raised_sub {i : ℕ} {l : Label} (hs : next parse reg s (.sub i l) = some s') :
    Raised s' ↔ Raised s ∨ raises reg s (.sub i l) := by
  obtain ⟨hpc', -, pc, pc', hpc, hsubs, -, hne, -, hraises⟩ := sub_cases hs
  unfold Raised
  rw [hpc', hsubs, threw_mem_set hpc hne, ← hraises, or_assoc]

/-- A step of `run`, which goes on with one of the loops. -/
theorem Loops.main {l : Label} (hi : Loops s) (hs : mainNext parse s l = some s') : Loops s' := by
  obtain ⟨hjoined, hunsub⟩ := hi
  cases mainMoves_of_next hs
  case decomposed r _ =>
    refine ⟨by simp [PC.joined], ?_⟩
    intro k hk j hkj pc hj
    simp only [List.getElem?_map, Option.map_eq_some_iff] at hj
    obtain ⟨-, -, rfl⟩ := hj
    rfl
  case submit i hlt =>
    refine ⟨by simp [PC.joined], ?_⟩
    intro k hk j hkj pc hj
    simp only [PC.unsubmitted, Option.some.injEq] at hk
    have hij : i ≠ j := by omega
    rw [List.getElem?_set_ne hij] at hj
    exact hunsub i rfl j (by omega) pc hj
  -- one more future is waited for
  case join i b hb =>
    refine ⟨?_, by simp [PC.unsubmitted]⟩
    intro j hj
    by_cases hji : j = i
    · exact ⟨b, hji ▸ hb⟩
    · have hlt : j < i := by simp only [PC.joined] at hj; omega
      exact hjoined j hlt
  -- the loop has gone through all of them
  case joined i hle =>
    refine ⟨?_, by simp [PC.unsubmitted]⟩
    intro j hj
    have hlt : j < i := by simp only [PC.joined] at hj; omega
    exact hjoined j hlt
  case storeWaiting | storeExecuting | decomposeComplete =>
    exact ⟨by simp [PC.joined], hunsub⟩
  case cancelled | noAnswer | notCancelled | reduceComplete | answer | exitNext | exitLast |
      storeReducing =>
    exact ⟨hjoined, by simp [PC.unsubmitted]⟩
  all_goals exact ⟨by simp [PC.joined], by simp [PC.unsubmitted]⟩

/-- A step of `run` keeps the invariant. -/
theorem Inv.main {l : Label} (hi : Inv s) (hs : mainNext parse s l = some s') : Inv s' := by
  refine ⟨hi.toLoops.main hs, ?_⟩
  have hok := hi.session
  cases mainMoves_of_next hs
  case noTasks | cancelled | noAnswer => exact ⟨hok, rfl⟩
  case storeWaiting | storeExecuting | storeReducing => rfl
  -- the statements on the way out
  case exitNext hnext => exact Exit.Allows.next hok hnext
  case exitLast hlast => exact Exit.Allows.last hok hlast
  all_goals exact hok

/-- A step of `run` raises what it says. In particular `run` throws the
    exception of a sub-task only when there is one. -/
theorem raised_main {l : Label} (hi : Loops s) (hs : mainNext parse s l = some s') :
    Raised s' ↔ Raised s ∨ raises reg s (.main l) := by
  have hunsub := hi.unsubmitted
  unfold Raised
  cases mainMoves_of_next hs
  case noTasks subs _ _ | decomposed subs _ _ =>
    have hnone : SubPC.threw ∉ subs := by
      intro hmem
      obtain ⟨j, hj⟩ := List.mem_iff_getElem?.mp hmem
      exact absurd (hunsub 0 rfl j (Nat.zero_le j) _ hj) (by simp)
    simp [raises, hnone]
  case submit subs i _ =>
    cases hsub : subs[i]? with
    | none =>
      have hset : subs.set i .checkCancel = subs :=
        List.set_eq_of_length_le (List.getElem?_eq_none_iff.mp hsub)
      simp [raises, hset]
    | some pc =>
      have hpending := hunsub i rfl i le_rfl pc hsub
      subst hpending
      simp only [threw_mem_set hsub (show SubPC.pending ≠ .threw by simp)]
      simp [raises]
  case joinRaises hsub =>
    have hmem := List.mem_of_getElem? hsub
    simp [hmem]
  all_goals simp [raises]

theorem Loops.step {a : Action} (hi : Loops s) (hs : next parse reg s a = some s') :
    Loops s' := by
  cases a with
  | main l => exact hi.main hs
  | sub i l => exact hi.sub hs

/-- **Invariant step.** -/
theorem Inv.step {a : Action} (hi : Inv s) (hs : next parse reg s a = some s') : Inv s' := by
  cases a with
  | main l => exact hi.main hs
  | sub i l => exact hi.sub hs

/-- The steps that raise an exception, and no others, make one. -/
theorem raised_step {a : Action} (hi : Loops s) (hs : next parse reg s a = some s') :
    Raised s' ↔ Raised s ∨ raises reg s a := by
  cases a with
  | main l => exact raised_main hi hs
  | sub i l => exact raised_sub hs

/-- When `run` has returned all sub-tasks are done, and none by an
    exception. -/
theorem Loops.not_raised (hi : Loops s) (hpc : s.pc = .returned) : ¬Raised s := by
  have hjoined := hi.joined
  rw [hpc] at hjoined
  intro hraised
  rcases hraised with hthrew | hmem
  · simp [hpc] at hthrew
  · obtain ⟨j, hj⟩ := List.mem_iff_getElem?.mp hmem
    have hlt : j < s.subs.length := (List.getElem?_eq_some_iff.mp hj).1
    obtain ⟨b, hb⟩ := hjoined j hlt
    rw [hj] at hb
    cases hb

end MapReduceWorkflow

end Forge
