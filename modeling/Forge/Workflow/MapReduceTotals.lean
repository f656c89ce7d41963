import Forge.Workflow.MapReduceJoin
import Forge.Workflow.MapReduceSequential
import Mathlib.Algebra.Group.Prod
import Mathlib.Data.BitVec

/-! # What a Map-Reduce Run Comes To

  The sub-tasks of a map-reduce run each run ReAct on a session of their
  own. What a sub-task writes into `tasks` and adds to the totals is what
  ReAct comes to on that session when it is run by itself, whatever the
  schedule:

  - `ReActWorkflow.still`, `Returned`: ReAct by itself, and its result;
  - `Follows`: a sub-task is on the way to that result;
  - `Summed`: the totals are those of the decomposition, of the sub-tasks
    that have added theirs, and of the reduction;
  - `schedule_independent`: the end of every schedule.
-/

namespace Forge

open LTS

open Workflow (Label Exit)

/-! ### Registers

The totals of a result are what an `int` keeps of a sum. Two sums that are
kept alike are the same if both fit. -/

/-- The prompt and the completion tokens, as an `int` keeps them. -/
def WorkflowResult.tokens (res : WorkflowResult) : BitVec 32 × BitVec 32 :=
  (.ofInt 32 res.totalPromptTokens, .ofInt 32 res.totalCompletionTokens)

def LLMResponse.tokens (r : LLMResponse) : BitVec 32 × BitVec 32 :=
  (.ofInt 32 r.promptTokens, .ofInt 32 r.completionTokens)

theorem ofInt_toInt32 (i : ℤ) : BitVec.ofInt 32 (Json.toInt32 i) = BitVec.ofInt 32 i := by
  apply BitVec.eq_of_toInt_eq
  rw [BitVec.toInt_ofInt, BitVec.toInt_ofInt]
  exact Int.bmod_bmod

@[simp] theorem WorkflowResult.tokens_addTokens (res : WorkflowResult) (p c : ℤ) :
    (res.addTokens p c).tokens = res.tokens + (.ofInt 32 p, .ofInt 32 c) := by
  simp [tokens, addTokens, ofInt_toInt32, BitVec.ofInt_add]

/-- An `int` is what it is kept as. -/
theorem eq_of_ofInt_eq {i j : ℤ} (hi : Json.IsInt32 i) (hj : Json.IsInt32 j)
    (h : BitVec.ofInt 32 i = BitVec.ofInt 32 j) : i = j := by
  have hbmod : Json.toInt32 i = Json.toInt32 j := by
    have hread := congrArg BitVec.toInt h
    rwa [BitVec.toInt_ofInt, BitVec.toInt_ofInt] at hread
  rwa [Json.toInt32_eq_iff.mpr hi, Json.toInt32_eq_iff.mpr hj] at hbmod

theorem natAbs_sum_le (ns : List ℤ) : ns.sum.natAbs ≤ (ns.map Int.natAbs).sum := by
  induction ns with
  | nil => simp
  | cons n ns ih =>
    rw [List.sum_cons, List.map_cons, List.sum_cons]
    have hadd := Int.natAbs_add_le n ns.sum
    omega

theorem isInt32_of_natAbs {i : ℤ} (h : i.natAbs < 2 ^ 31) : Json.IsInt32 i :=
  ⟨by omega, by omega⟩

/-- Numbers that are small together fit in any order. -/
theorem sumsFit_of_magnitudes {ns : List ℤ} (h : (ns.map Int.natAbs).sum < 2 ^ 31) :
    SumsFit ns := by
  intro ms hms
  obtain ⟨ks, rfl⟩ := (List.mem_inits _ _).mp hms
  rw [List.map_append, List.sum_append] at h
  have hle := natAbs_sum_le ms
  exact isInt32_of_natAbs (by omega)

/-! ### ReAct by Itself -/

namespace ReActWorkflow

/-- `run(y)` and its log when the clock stands still at zero. -/
def still (reg : ToolRegistry) (env : Surroundings) (y : Session) : System Logged Unit :=
  System.ofNext ⟨start y, []⟩ fun s _ => logNext reg s (.work (s.run.answer env reg 0))

/-- `run(y)` returns `res` after the replies `rs`, those without an error. -/
def Returned (reg : ToolRegistry) (env : Surroundings) (y : Session) (rs : List LLMResponse)
    (res : WorkflowResult) : Prop :=
  ∃ tr s, (still reg env y).Run tr s ∧ s.run.pc = .returned ∧ responses s.log = rs ∧
    s.run.result = res

variable {env : Surroundings} {reg : ToolRegistry} {y : Session} {rs rs' : List LLMResponse}
  {res res' : WorkflowResult}

/-- `run(y)` returns in one way. -/
theorem Returned.unique (h : Returned reg env y rs res) (h' : Returned reg env y rs' res') :
    rs = rs' ∧ res = res' := by
  obtain ⟨tr, s, hrun, hpc, rfl, rfl⟩ := h
  obtain ⟨tr', s', hrun', hpc', rfl, rfl⟩ := h'
  have hcomm : (still reg env y).Commutes := by
    intro s _ _ s₁ s₂ _ h₁ h₂
    exact .inl (Option.some.inj (h₁.symm.trans h₂))
  have hfinal : ∀ s : Logged, s.run.pc = .returned → (still reg env y).Final s := by
    intro s hpc _ s' hs
    have hnone : next reg s.run (s.run.answer env reg 0) = none := by simp [next, hpc]
    obtain ⟨hmoves, -, -⟩ := logNext_work hs
    rw [next_of_moves hmoves] at hnone
    cases hnone
  have heq : s = s' :=
    hcomm.final_unique (fun _ h => h) hrun hrun' (hfinal s hpc) (hfinal s' hpc')
  exact ⟨by rw [heq], by rw [heq]⟩

/-- The totals are those of the replies. -/
theorem Returned.totals (h : Returned reg env y rs res) :
    AddsUp res.totalPromptTokens (rs.map LLMResponse.promptTokens) ∧
      AddsUp res.totalCompletionTokens (rs.map LLMResponse.completionTokens) := by
  obtain ⟨tr, s, hrun, -, rfl, rfl⟩ := h
  refine hrun.invariant (P := Totals) ?_ ?_
  · rintro s rfl
    exact ⟨addsUp_nil, addsUp_nil⟩
  · intro s _ s' ht hs
    exact ht.step hs

/-- What the steps of `run(y)` need. -/
structure Ready (y : Session) (s : State) : Prop where
  config : s.session.config = y.config
  counts : s.pc.Counts s.session
  quiet : s.pc ≠ .threw

theorem still_ready (hcount : y.stepCount = 0) (hmax : y.config.maxIterations < 2 ^ 32)
    {tr : List Unit} {s : Logged} (hrun : (still reg env y).Run tr s) : Ready y s.run := by
  refine hrun.invariant (P := fun s => Ready y s.run) ?_ ?_
  · rintro s rfl
    refine ⟨rfl, ?_, by simp [start]⟩
    show y.stepCount ≤ y.config.maxIterations
    omega
  · intro s _ s' hr hs
    obtain ⟨hmoves, hquiet, -⟩ := logNext_work hs
    have hmax' : s.run.session.config.maxIterations < 2 ^ 32 := by
      rw [hr.config]
      exact hmax
    exact ⟨(config_eq hmoves).trans hr.config, (hr.counts.step hmax' hmoves).1, hquiet⟩

/-- What `run` does the log takes down. -/
theorem logNext_answer {s : State} {log : List Event} {s' : State} {t : ℕ}
    (hs : next reg s (s.answer env reg t) = some s') :
    logNext reg ⟨s, log⟩ (.work (s.answer env reg t)) =
      some ⟨s', log ++ (event s (s.answer env reg t)).toList⟩ := by
  simp [logNext, answer_not_raises, hs]

/-- `run(y)` returns. -/
theorem exists_returned (hcount : y.stepCount = 0) (hmax : y.config.maxIterations < 2 ^ 32) :
    ∃ rs res, Returned reg env y rs res := by
  have hstart : (still reg env y).Reachable ⟨start y, []⟩ := ⟨[], .start rfl⟩
  obtain ⟨tr, s, hrun, hpc⟩ : ∃ tr s, (still reg env y).Run tr s ∧ s.run.pc = .returned := by
    refine hstart.completes wellFounded_lt (fun s => s.run.rank) ?_ ?_
    · rintro s _ s' ⟨tr, hrun⟩ hs
      have hr := still_ready hcount hmax hrun
      refine rank_lt ?_ hr.counts (logNext_work hs).1
      rw [hr.config]
      exact hmax
    · rintro s ⟨tr, hrun⟩ hpc
      have hr := still_ready hcount hmax hrun
      have hsome : (next reg s.run (s.run.answer env reg 0)).isSome :=
        (next_of_offers (answer_offers hpc hr.quiet)).2
      obtain ⟨s', hs'⟩ := Option.isSome_iff_exists.mp hsome
      exact ⟨(), _, logNext_answer hs'⟩
  exact ⟨_, s.run.result, tr, s, hrun, hpc, rfl, rfl⟩

end ReActWorkflow

namespace MapReduceWorkflow

variable {parse : String → Option Json} {reg : ToolRegistry} {env : Surroundings} {x : Session}
  {s s' : State}

/-! ### What Is Expected -/

/-- What the LLM replies in `decompose`. -/
def decomposeReply (env : Surroundings) (x : Session) : LLMResponse :=
  env.llm { start x with pc := .decomposeGet }.request []

/-- What the LLM replies in `reduce`. -/
def State.reduceReply (env : Surroundings) (s : State) : LLMResponse :=
  env.llm { s with pc := .reduceGet }.request []

/-- A sub-task as it was decomposed, and the replies and the result of ReAct
    on it. -/
structure Expected where
  task : SubTask
  replies : List LLMResponse
  res : WorkflowResult

/-- The entry of `tasks` when the sub-task is done. -/
def Expected.finish (e : Expected) : SubTask :=
  { e.task with
    success := e.res.success
    result := if e.res.success then e.res.answer else e.res.error }

/-- The results that are to be expected in `run(x)`. -/
structure Expectation (parse : String → Option Json) (reg : ToolRegistry) (env : Surroundings)
    (x : Session) (expected : List Expected) : Prop where
  tasks : expected.map Expected.task = decompose parse (decomposeReply env x)
  results : ∀ e ∈ expected,
    ReActWorkflow.Returned reg env (x.newSub e.task.description 0) e.replies e.res

theorem exists_expectation (hmax : x.config.maxIterations < 2 ^ 32) :
    ∃ expected, Expectation parse reg env x expected := by
  have hall : ∀ tasks : List SubTask, ∃ expected : List Expected,
      expected.map Expected.task = tasks ∧ ∀ e ∈ expected,
        ReActWorkflow.Returned reg env (x.newSub e.task.description 0) e.replies e.res := by
    intro tasks
    induction tasks with
    | nil => exact ⟨[], rfl, by simp⟩
    | cons task tasks ih =>
      obtain ⟨expected, rfl, hresults⟩ := ih
      obtain ⟨replies, res, hres⟩ : ∃ replies res,
          ReActWorkflow.Returned reg env (x.newSub task.description 0) replies res :=
        ReActWorkflow.exists_returned rfl hmax
      refine ⟨⟨task, replies, res⟩ :: expected, rfl, ?_⟩
      rintro e (_ | ⟨_, hmem⟩)
      · exact hres
      · exact hresults e hmem
  obtain ⟨expected, htasks, hresults⟩ := hall (decompose parse (decomposeReply env x))
  exact ⟨expected, htasks, hresults⟩

/-- The entry of `tasks` while the sub-task is at `pc`. -/
def SubPC.wrote (pc : SubPC) (e : Expected) : SubTask :=
  match pc with
  | .done _ => e.finish
  | _ => e.task

/-- The tokens the sub-task has added when it is at `pc`. -/
def SubPC.counted (pc : SubPC) (e : Expected) : BitVec 32 × BitVec 32 :=
  match pc with
  | .writeResult _ | .done _ => e.res.tokens
  | _ => 0

/-- The sub-task is on the way to its result. -/
def SubPC.Follows (reg : ToolRegistry) (env : Surroundings) (x : Session) (e : Expected) :
    SubPC → Prop
  | .runSub sub =>
      ∃ tr log,
        (ReActWorkflow.still reg env (x.newSub e.task.description 0)).Run tr ⟨sub.erase, log⟩
  | .addTokens res | .writeResult res => res = e.res
  | .threw => False
  | _ => True

/-- Everything the sub-tasks have written, and the totals, which hold
    `rest` besides the tokens of the decomposition and the sub-tasks. -/
structure Summed (reg : ToolRegistry) (env : Surroundings) (x : Session)
    (expected : List Expected) (rest : BitVec 32 × BitVec 32) (s : State) : Prop where
  lengths : s.subs.length = expected.length
  tasksLength : s.tasks.length = expected.length
  each : ∀ (i : ℕ) (e : Expected) (pc : SubPC), expected[i]? = some e → s.subs[i]? = some pc →
    s.tasks[i]? = some (pc.wrote e) ∧ pc.Follows reg env x e
  tokens : s.result.tokens = (decomposeReply env x).tokens +
    listTotal (fun q => q.2.counted q.1) (expected.zip s.subs) + rest

/-- Where `run` is, as far as the totals go. -/
inductive Phase where
  | decomposing
  | mapping
  | leaving

def PC.phase : PC → Phase
  | .storeWaiting | .decomposeComplete | .decomposeGet => .decomposing
  | .exit _ | .returned | .threw => .leaving
  | _ => .mapping

/-- `reduce` is called, and adds its tokens, when there are sub-tasks. -/
def Totals (reg : ToolRegistry) (env : Surroundings) (x : Session) (expected : List Expected)
    (s : State) : Prop :=
  match s.pc.phase with
  | .decomposing => s.result.tokens = 0
  | .mapping => expected ≠ [] ∧ Summed reg env x expected 0 s
  | .leaving =>
      Summed reg env x expected (if expected = [] then 0 else (s.reduceReply env).tokens) s

/-- Nothing but the state, the counter and the fields of the result is
    changed in the session. -/
structure SameSession (x x' : Session) : Prop where
  history : x'.history = x.history
  config : x'.config = x.config
  cancelRequested : x'.cancelRequested = x.cancelRequested

/-! ### Steps of Sub-Tasks -/

variable {expected : List Expected} {rest : BitVec 32 × BitVec 32}

/-- One sub-task goes on. -/
theorem Summed.set (hsum : Summed reg env x expected rest s) {i : ℕ} {e : Expected} {pc pc' : SubPC}
    (he : expected[i]? = some e) (hpc : s.subs[i]? = some pc) (hsubs : s'.subs = s.subs.set i pc')
    (htasks : s'.tasks = s.tasks.set i (pc'.wrote e))
    (htokens : s'.result.tokens + pc.counted e = s.result.tokens + pc'.counted e)
    (hfollows : pc'.Follows reg env x e) : Summed reg env x expected rest s' where
  lengths := by rw [hsubs, List.length_set, hsum.lengths]
  tasksLength := by rw [htasks, List.length_set, hsum.tasksLength]
  each := by
    intro j e' pc₁ he' hpc₁
    rw [hsubs] at hpc₁
    rw [htasks]
    by_cases hij : i = j
    · subst hij
      have hlt := (List.getElem?_eq_some_iff.mp hpc).1
      rw [List.getElem?_set_self hlt, Option.some.injEq] at hpc₁
      obtain rfl : e = e' := Option.some.inj (he.symm.trans he')
      subst hpc₁
      have hlt' : i < s.tasks.length := by
        rw [hsum.tasksLength]
        exact (List.getElem?_eq_some_iff.mp he).1
      exact ⟨List.getElem?_set_self hlt', hfollows⟩
    · rw [List.getElem?_set_ne hij] at hpc₁ ⊢
      exact hsum.each j e' pc₁ he' hpc₁
  tokens := by
    have htotal := listTotal_zip_set (fun q : Expected × SubPC => q.2.counted q.1) he hpc pc'
    have hold := hsum.tokens
    rw [hsubs]
    simp only at htotal
    generalize listTotal (fun q : Expected × SubPC => q.2.counted q.1)
      (expected.zip (s.subs.set i pc')) = a at htotal ⊢
    generalize listTotal (fun q : Expected × SubPC => q.2.counted q.1)
      (expected.zip s.subs) = b at htotal hold
    rw [hold] at htokens
    have hcancel : s'.result.tokens + pc.counted e =
        (decomposeReply env x).tokens + a + rest + pc.counted e := by
      rw [htokens, add_right_comm _ rest, add_assoc _ b, ← htotal]
      abel
    exact add_right_cancel hcancel

/-- The step writes no entry and adds no tokens. -/
theorem Summed.set_same (hsum : Summed reg env x expected rest s) {i : ℕ} {e : Expected}
    {pc pc' : SubPC} (he : expected[i]? = some e) (hpc : s.subs[i]? = some pc)
    (hsubs : s'.subs = s.subs.set i pc') (htasks : s'.tasks = s.tasks)
    (hwrote : pc'.wrote e = pc.wrote e) (htokens : s'.result = s.result)
    (hcounted : pc'.counted e = pc.counted e)
    (hfollows : pc'.Follows reg env x e) : Summed reg env x expected rest s' := by
  refine hsum.set he hpc hsubs ?_ (by rw [htokens, hcounted]) hfollows
  have htask := (hsum.each i e pc he hpc).1
  obtain ⟨hlt, hget⟩ := List.getElem?_eq_some_iff.mp htask
  rw [htasks, hwrote, ← hget, List.set_getElem_self]

/-- The turn of a sub-task, with the label it takes. -/
theorem subMoves_of_turn {i t : ℕ} (hs : turnNext parse reg env s ⟨.sub i, t⟩ = some s') :
    ∃ pc, s.subs[i]? = some pc ∧ SubMoves reg i s (pc.answer env reg t) s' := by
  cases hpc : s.subs[i]? with
  | none => simp [turnNext, State.answer, next, hpc] at hs
  | some pc =>
    simp only [turnNext, State.answer, hpc] at hs
    exact ⟨pc, rfl, subMoves_of_next hs⟩

/-- **Step of a sub-task.** -/
theorem Summed.sub {i t : ℕ} (hx : Expectation parse reg env x expected)
    (hsession : SameSession x s.session) (hcancel : x.cancelRequested = false)
    (hsum : Summed reg env x expected rest s) (htime : s.InTime ⟨.sub i, t⟩)
    (hs : turnNext parse reg env s ⟨.sub i, t⟩ = some s') :
    Summed reg env x expected rest s' := by
  obtain ⟨pc, hpc, hmoves⟩ := subMoves_of_turn hs
  obtain ⟨e, he⟩ : ∃ e, expected[i]? = some e := by
    have hlt := (List.getElem?_eq_some_iff.mp hpc).1
    rw [hsum.lengths] at hlt
    exact ⟨_, List.getElem?_eq_getElem hlt⟩
  obtain ⟨htask, hfollows⟩ := hsum.each i e pc he hpc
  generalize hl : pc.answer env reg t = l at hmoves
  cases hmoves
  case cancelled hpc' hflag =>
    rw [hsession.cancelRequested, hcancel] at hflag
    cases hflag
  case notCancelled hpc' _ => exact hsum.set_same he hpc' rfl rfl rfl rfl rfl trivial
  case countStep hpc' => exact hsum.set_same he hpc' rfl rfl rfl rfl rfl trivial
  case createSub task now hpc' htask' =>
    refine hsum.set_same he hpc' rfl rfl rfl rfl rfl ?_
    obtain rfl : SubPC.createSub = pc := Option.some.inj (hpc'.symm.trans hpc)
    obtain rfl : task = e.task := Option.some.inj (htask'.symm.trans htask)
    have hnew : s.session.newSub e.task.description now = x.newSub e.task.description now := by
      simp [Session.newSub, hsession.config]
    have herase : (ReActWorkflow.start (s.session.newSub e.task.description now)).erase =
        ReActWorkflow.start (x.newSub e.task.description 0) := by
      rw [hnew]
      simp [ReActWorkflow.State.erase, ReActWorkflow.start, Session.erase_newSub]
    refine ⟨[], [], .start ?_⟩
    rw [herase]
    rfl
  case sub sub sub' hpc' hgoing hsub =>
    refine hsum.set_same he hpc' rfl rfl rfl rfl rfl ?_
    obtain rfl : SubPC.runSub sub = pc := Option.some.inj (hpc'.symm.trans hpc)
    obtain ⟨tr, log, hrun⟩ := hfollows
    subst hl
    have hnext : ReActWorkflow.next reg sub (sub.answer env reg t) = some sub' :=
      ReActWorkflow.next_of_moves hsub
    have herased : ReActWorkflow.next reg sub.erase (sub.erase.answer env reg 0) =
        some sub'.erase := by
      rw [ReActWorkflow.erase_next (htime i sub rfl hpc'), hnext]
      rfl
    exact ⟨tr ++ [()], _, hrun.snoc (ReActWorkflow.logNext_answer herased)⟩
  case subRaises sub sub' hpc' hthrew hsub =>
    obtain rfl : SubPC.runSub sub = pc := Option.some.inj (hpc'.symm.trans hpc)
    subst hl
    rw [ReActWorkflow.threw_iff hsub] at hthrew
    simp [SubPC.answer, ReActWorkflow.answer_not_raises] at hthrew
  case subReturned sub hpc' hret =>
    refine hsum.set_same he hpc' rfl rfl rfl rfl rfl ?_
    obtain rfl : SubPC.runSub sub = pc := Option.some.inj (hpc'.symm.trans hpc)
    obtain ⟨tr, log, hrun⟩ := hfollows
    have hreturned : ReActWorkflow.Returned reg env (x.newSub e.task.description 0)
        (ReActWorkflow.responses log) sub.result :=
      ⟨tr, ⟨sub.erase, log⟩, hrun, hret, rfl, rfl⟩
    exact (hreturned.unique (hx.results e (List.mem_of_getElem? he))).2
  case addTokens res hpc' =>
    obtain rfl : SubPC.addTokens res = pc := Option.some.inj (hpc'.symm.trans hpc)
    obtain rfl : res = e.res := hfollows
    refine hsum.set he hpc' rfl ?_ ?_ rfl
    · obtain ⟨hlt, hget⟩ := List.getElem?_eq_some_iff.mp htask
      rw [show SubPC.wrote (.writeResult e.res) e = SubPC.wrote (.addTokens e.res) e from rfl,
        ← hget, List.set_getElem_self]
    · show (s.result.addTokens _ _).tokens + 0 = _
      rw [add_zero, WorkflowResult.tokens_addTokens]
      rfl
  case writeResult task res hpc' htask' =>
    obtain rfl : SubPC.writeResult res = pc := Option.some.inj (hpc'.symm.trans hpc)
    obtain rfl : res = e.res := hfollows
    obtain rfl : task = e.task := Option.some.inj (htask'.symm.trans htask)
    exact hsum.set he hpc' rfl rfl rfl trivial

/-! ### Steps of `run` -/

theorem sameSession_main {l : Label} (hs : MainMoves parse s l s') (h : SameSession x s.session) :
    SameSession x s'.session := by
  obtain ⟨hhistory, hconfig, hcancel⟩ := h
  cases hs
  case exitNext e _ _ | exitLast e _ => cases e <;> exact ⟨hhistory, hconfig, hcancel⟩
  all_goals exact ⟨hhistory, hconfig, hcancel⟩

theorem sameSession_sub {i : ℕ} {l : Label} (hs : SubMoves reg i s l s')
    (h : SameSession x s.session) : SameSession x s'.session := by
  obtain ⟨hhistory, hconfig, hcancel⟩ := h
  cases hs <;> exact ⟨hhistory, hconfig, hcancel⟩

/-- `run` waits, without touching what the sub-tasks share with it. -/
theorem Summed.same (hsum : Summed reg env x expected rest s) (hsubs : s'.subs = s.subs)
    (htasks : s'.tasks = s.tasks) (htokens : s'.result.tokens = s.result.tokens) :
    Summed reg env x expected rest s' := by
  refine ⟨?_, ?_, ?_, ?_⟩
  · rw [hsubs]
    exact hsum.lengths
  · rw [htasks]
    exact hsum.tasksLength
  · rw [hsubs, htasks]
    exact hsum.each
  · rw [hsubs, htokens]
    exact hsum.tokens

/-- `reduce` asks with what is in `tasks` and in the history. -/
theorem reduceReply_congr (htasks : s'.tasks = s.tasks)
    (hhistory : s'.session.history = s.session.history) :
    s'.reduceReply env = s.reduceReply env := by
  simp [State.reduceReply, State.request, htasks, hhistory]

/-- What `decompose` leaves. -/
theorem summed_decomposed (hx : Expectation parse reg env x expected)
    (hzero : s.result.tokens = 0) :
    Summed reg env x expected 0 { s with
      result := s.result.addTokens (decomposeReply env x).promptTokens
        (decomposeReply env x).completionTokens
      tasks := decompose parse (decomposeReply env x)
      subs := (decompose parse (decomposeReply env x)).map fun _ => .pending } := by
  rw [← hx.tasks]
  refine ⟨by simp, by simp, ?_, ?_⟩
  · intro i e pc he hpc
    simp only [List.getElem?_map, he, Option.map_some, Option.some.injEq] at hpc ⊢
    subst hpc
    exact ⟨rfl, trivial⟩
  · have hpending : listTotal (fun q : Expected × SubPC => q.2.counted q.1)
        (expected.zip ((expected.map Expected.task).map fun _ => .pending)) = 0 := by
      apply listTotal_eq_zero
      rintro ⟨e, pc⟩ hmem
      obtain ⟨task, -, rfl⟩ := List.mem_map.mp (List.of_mem_zip hmem).2
      rfl
    show (s.result.addTokens _ _).tokens = _
    rw [WorkflowResult.tokens_addTokens, hzero, hpending, add_zero, add_zero, zero_add]
    rfl

/-- What `reduce` adds. -/
theorem Summed.reduce {r : LLMResponse} (hsum : Summed reg env x expected 0 s)
    (hsubs : s'.subs = s.subs) (htasks : s'.tasks = s.tasks)
    (hresult : s'.result = s.result.addTokens r.promptTokens r.completionTokens) :
    Summed reg env x expected r.tokens s' := by
  refine ⟨?_, ?_, ?_, ?_⟩
  · rw [hsubs]
    exact hsum.lengths
  · rw [htasks]
    exact hsum.tasksLength
  · rw [hsubs, htasks]
    exact hsum.each
  · rw [hsubs, hresult, WorkflowResult.tokens_addTokens, hsum.tokens, add_zero]
    rfl

theorem exit_tokens (e : Exit) (y : Session) (res : WorkflowResult) :
    (e.result y res).tokens = res.tokens := by
  cases e <;> rfl

/-- **Step of `run`.** -/
theorem Totals.main (hx : Expectation parse reg env x expected)
    (hsession : SameSession x s.session) (hcancel : x.cancelRequested = false)
    (hunsub : ∀ i, s.pc.unsubmitted = some i → ∀ j, i ≤ j → ∀ pc, s.subs[j]? = some pc →
      pc = .pending)
    (htotals : Totals reg env x expected s)
    (hs : mainNext parse s (s.mainAnswer env) = some s') : Totals reg env x expected s' := by
  have hmoves := mainMoves_of_next hs
  generalize hl : s.mainAnswer env = l at hmoves
  have hdecompose : s.pc = .decomposeGet → l = .reply (decomposeReply env x) := by
    intro hpc
    rw [← hl]
    simp [State.mainAnswer, State.request, decomposeReply, hpc, hsession.history, start]
  have hreduce : s.pc = .reduceGet → l = .reply (s.reduceReply env) := by
    intro hpc
    rw [← hl]
    simp [State.mainAnswer, State.request, State.reduceReply, hpc]
  have hflag := hsession.cancelRequested
  cases hmoves
  case storeWaiting | decomposeComplete => exact htotals
  case decomposeCompleteRaises | decomposeGetRaises => simp [State.mainAnswer] at hl
  case reduceCompleteRaises | reduceGetRaises => simp [State.mainAnswer] at hl
  case noTasks r hnil =>
    obtain rfl : r = decomposeReply env x := by simpa using hdecompose rfl
    have hempty : expected = [] := by simpa [hnil] using hx.tasks
    have hsum := summed_decomposed hx htotals
    simp only [Totals, PC.phase, hempty, if_true]
    rw [hempty] at hsum
    refine hsum.same ?_ ?_ rfl
    · simp [hnil]
    · exact hnil.symm
  case decomposed r hne =>
    obtain rfl : r = decomposeReply env x := by simpa using hdecompose rfl
    refine ⟨?_, (summed_decomposed hx htotals).same rfl rfl rfl⟩
    rintro rfl
    exact hne hx.tasks.symm
  case submit y res tasks subs i hlt =>
    obtain ⟨hne, hsum⟩ := htotals
    obtain ⟨e, he⟩ : ∃ e, expected[i]? = some e := by
      rw [hsum.tasksLength] at hlt
      exact ⟨_, List.getElem?_eq_getElem hlt⟩
    obtain ⟨pc, hpc⟩ : ∃ pc, subs[i]? = some pc := by
      have hlt' : i < subs.length := by
        rw [hsum.lengths, ← hsum.tasksLength]
        exact hlt
      exact ⟨_, List.getElem?_eq_getElem hlt'⟩
    obtain rfl := hunsub i rfl i le_rfl pc hpc
    exact ⟨hne, hsum.set_same he hpc rfl rfl rfl rfl rfl trivial⟩
  case joinRaises i hthrew =>
    obtain ⟨hne, hsum⟩ := htotals
    obtain ⟨e, he⟩ : ∃ e, expected[i]? = some e := by
      have hlt := (List.getElem?_eq_some_iff.mp hthrew).1
      rw [hsum.lengths] at hlt
      exact ⟨_, List.getElem?_eq_getElem hlt⟩
    exact absurd (hsum.each i e .threw he hthrew).2 id
  case cancelled hcancelled =>
    rw [hcancel] at hflag
    exact absurd (hcancelled.symm.trans hflag) (by simp)
  case noAnswer r _ | answer r _ =>
    obtain rfl : r = State.reduceReply env _ := by simpa using hreduce rfl
    obtain ⟨hne, hsum⟩ := htotals
    simp only [Totals, PC.phase, if_neg hne]
    exact hsum.reduce rfl rfl rfl
  case exitNext y res tasks subs e _ _ | exitLast y res tasks subs e _ =>
    -- the statements on the way out leave the history, `tasks` and the totals alone
    have hhistory : (e.session y).history = y.history := by
      cases e <;> rfl
    have hreply : ∀ pc, State.reduceReply env ⟨pc, e.session y, e.result y res, tasks, subs⟩ =
        State.reduceReply env ⟨.exit e, y, res, tasks, subs⟩ :=
      fun _ => reduceReply_congr rfl hhistory
    simp only [Totals, PC.phase] at htotals ⊢
    rw [hreply]
    exact htotals.same rfl rfl (exit_tokens e y res)
  all_goals exact ⟨htotals.1, htotals.2.same rfl rfl rfl⟩

/-- The sub-tasks take their turns while `run` submits and waits. -/
theorem Ready.mapping (hr : Ready s) {i t : ℕ}
    (hs : turnNext parse reg env s ⟨.sub i, t⟩ = some s') : s.pc.phase = .mapping := by
  obtain ⟨pc, hpc, hpending, -, hdone⟩ := live_of_turn hs
  have hlt := (List.getElem?_eq_some_iff.mp hpc).1
  have hsubmitted : s.pc.unsubmitted ≠ some 0 := by
    intro h
    exact hpending (hr.inv.unsubmitted 0 h i (Nat.zero_le i) pc hpc)
  have hwaits : s.pc.joined s.subs.length ≠ s.subs.length := by
    intro h
    obtain ⟨b, hb⟩ := hr.inv.joined i (by rw [h]; exact hlt)
    rw [hpc, Option.some.injEq] at hb
    exact hdone b hb
  have hquiet : s.pc ≠ .threw := fun h => hr.quiet (.inl h)
  cases hpc' : s.pc
  case storeWaiting | decomposeComplete | decomposeGet => simp [hpc', PC.unsubmitted] at hsubmitted
  case exit | returned => simp [hpc', PC.joined] at hwaits
  case threw => exact absurd hpc' hquiet
  all_goals rfl

/-- **Step of the totals.** -/
theorem Totals.turn {turn : Turn} (hx : Expectation parse reg env x expected)
    (hcancel : x.cancelRequested = false) (hr : Ready s) (hsession : SameSession x s.session)
    (htotals : Totals reg env x expected s) (htime : s.InTime turn)
    (hs : turnNext parse reg env s turn = some s') :
    SameSession x s'.session ∧ Totals reg env x expected s' := by
  obtain ⟨actor, t⟩ := turn
  cases actor with
  | main =>
    exact ⟨sameSession_main (mainMoves_of_next hs) hsession,
      htotals.main hx hsession hcancel hr.inv.unsubmitted hs⟩
  | sub i =>
    obtain ⟨pc, -, hmoves⟩ := subMoves_of_turn hs
    obtain ⟨-, -, hpc, -⟩ := hr.sub_pc hmoves
    have hphase := hr.mapping hs
    refine ⟨sameSession_sub hmoves hsession, ?_⟩
    simp only [Totals, hpc, hphase] at htotals ⊢
    exact ⟨htotals.1, htotals.2.sub hx hsession hcancel htime hs⟩

/-- The totals of every schedule. -/
theorem schedule_totals (hmax : x.config.maxIterations < 2 ^ 32)
    (hx : Expectation parse reg env x expected) (hcancel : x.cancelRequested = false)
    {tr : List Turn} (hrun : (schedule parse reg env x).Run tr s) :
    SameSession x s.session ∧ Totals reg env x expected s := by
  refine hrun.history_invariant (P := fun _ s => SameSession x s.session ∧
    Totals reg env x expected s) ?_ ?_
  · rintro s rfl
    exact ⟨⟨rfl, rfl, rfl⟩, rfl⟩
  · rintro tr s turn s' hrun' ⟨hsession, htotals⟩ ⟨htime, hs⟩
    obtain rfl | hr := schedule_ready hmax hrun'
    · have hr : Ready (start (recreate x)) := ready_start rfl hmax
      exact Totals.turn hx hcancel hr ⟨rfl, rfl, rfl⟩ rfl htime (first_turn.trans hs)
    · exact htotals.turn hx hcancel hr hsession htime hs

/-! ### The End of Every Schedule -/

theorem listTotal_done {subs : List SubPC} (hlen : subs.length = expected.length)
    (hdone : ∀ pc ∈ subs, ∃ b, pc = .done b) :
    listTotal (fun q : Expected × SubPC => q.2.counted q.1) (expected.zip subs) =
      listTotal (fun e => e.res.tokens) expected := by
  induction expected generalizing subs with
  | nil => simp [listTotal]
  | cons e expected ih =>
    cases subs with
    | nil => simp at hlen
    | cons pc subs =>
      obtain ⟨b, rfl⟩ := hdone pc List.mem_cons_self
      have hrest := ih (by simpa using hlen) fun pc' hmem => hdone pc' (List.mem_cons_of_mem _ hmem)
      simp only [listTotal, List.zip_cons_cons, List.map_cons, List.sum_cons] at hrest ⊢
      rw [hrest]
      rfl

/-- When `run` has returned, every sub-task has written its result and
    every token is counted. -/
theorem returned_totals (hmax : x.config.maxIterations < 2 ^ 32)
    (hx : Expectation parse reg env x expected) (hcancel : x.cancelRequested = false)
    {tr : List Turn} (hrun : (schedule parse reg env x).Run tr s) (hpc : s.pc = .returned) :
    s.tasks = expected.map Expected.finish ∧
      s.result.tokens = (decomposeReply env x).tokens +
        listTotal (fun e => e.res.tokens) expected +
        if expected = [] then 0 else (s.reduceReply env).tokens := by
  obtain ⟨-, htotals⟩ := schedule_totals hmax hx hcancel hrun
  obtain rfl | hr := schedule_ready hmax hrun
  · cases hpc
  have hdone : ∀ i < s.subs.length, ∃ b, s.subs[i]? = some (.done b) := by
    intro i hi
    exact hr.inv.joined i (by rw [hpc]; exact hi)
  simp only [Totals, hpc, PC.phase] at htotals
  refine ⟨?_, ?_⟩
  · apply List.ext_getElem (by simp [htotals.tasksLength])
    intro i h₁ h₂
    have hlt : i < expected.length := by simpa using h₂
    obtain ⟨b, hb⟩ := hdone i (by rw [htotals.lengths]; exact hlt)
    have htask := (htotals.each i _ _ (List.getElem?_eq_getElem hlt) hb).1
    rw [List.getElem?_eq_getElem h₁, Option.some.injEq] at htask
    rw [htask, List.getElem_map]
    rfl
  · rw [htotals.tokens, listTotal_done htotals.lengths]
    intro pc hmem
    obtain ⟨i, hi, rfl⟩ := List.mem_iff_getElem.mp hmem
    obtain ⟨b, hb⟩ := hdone i hi
    exact ⟨b, by simpa [List.getElem?_eq_getElem hi] using hb⟩

/-! ### Exact Sums -/

/-- All the replies of the LLM in `run(x)`, without those of sub-sessions
    that are errors. -/
def replies (env : Surroundings) (x : Session) (expected : List Expected) (s : State) :
    List LLMResponse :=
  decomposeReply env x :: expected.flatMap Expected.replies ++
    if expected = [] then [] else [s.reduceReply env]

/-- What a field of the replies comes to when the sub-sessions have added
    up theirs. -/
theorem ofInt_replies {field : LLMResponse → ℤ} {total : WorkflowResult → ℤ}
    (hsub : ∀ e ∈ expected, AddsUp (total e.res) (e.replies.map field))
    (hfits : ((replies env x expected s).map fun r => (field r).natAbs).sum < 2 ^ 31) :
    BitVec.ofInt 32 (field (decomposeReply env x)) +
        listTotal (fun e => BitVec.ofInt 32 (total e.res)) expected +
        (if expected = [] then 0 else .ofInt 32 (field (s.reduceReply env))) =
      BitVec.ofInt 32 ((replies env x expected s).map field).sum := by
  have hsubs : ∀ rest : List Expected, (∀ e ∈ rest, AddsUp (total e.res) (e.replies.map field)) →
      ((rest.flatMap Expected.replies).map fun r => (field r).natAbs).sum < 2 ^ 31 →
      listTotal (fun e => BitVec.ofInt 32 (total e.res)) rest =
        BitVec.ofInt 32 ((rest.flatMap Expected.replies).map field).sum := by
    intro rest hrest hsmall
    induction rest with
    | nil => rfl
    | cons e rest ih =>
      simp only [List.flatMap_cons, List.map_append, List.sum_append] at hsmall ⊢
      have hhead : total e.res = (e.replies.map field).sum := by
        refine hrest e List.mem_cons_self (sumsFit_of_magnitudes ?_)
        rw [List.map_map]
        exact Nat.lt_of_le_of_lt (Nat.le_add_right _ _) hsmall
      have htail := ih (fun e' he' => hrest e' (List.mem_cons_of_mem e he'))
        (Nat.lt_of_le_of_lt (Nat.le_add_left _ _) hsmall)
      rw [BitVec.ofInt_add, ← htail, ← hhead]
      simp [listTotal]
  simp only [replies, List.cons_append, List.map_cons, List.map_append, List.sum_cons,
    List.sum_append] at hfits ⊢
  rw [hsubs expected hsub (by omega), BitVec.ofInt_add, BitVec.ofInt_add, add_assoc]
  split <;> simp

/-- The numbers of the result are an `int` each. -/
theorem schedule_isInt32 {tr : List Turn} (hrun : (schedule parse reg env x).Run tr s) :
    Json.IsInt32 s.result.totalPromptTokens ∧ Json.IsInt32 s.result.totalCompletionTokens := by
  have hadd : ∀ (res : WorkflowResult) p c, Json.IsInt32 (res.addTokens p c).totalPromptTokens ∧
      Json.IsInt32 (res.addTokens p c).totalCompletionTokens :=
    fun res p c => ⟨Json.isInt32_toInt32 _, Json.isInt32_toInt32 _⟩
  refine hrun.invariant (P := fun s => Json.IsInt32 s.result.totalPromptTokens ∧
    Json.IsInt32 s.result.totalCompletionTokens) ?_ ?_
  · rintro s rfl
    have hzero : Json.IsInt32 0 := by decide
    exact ⟨hzero, hzero⟩
  · rintro s ⟨actor, t⟩ s' hint ⟨-, hs⟩
    cases actor with
    | main =>
      have hmoves : MainMoves parse s (s.mainAnswer env) s' := mainMoves_of_next hs
      generalize s.mainAnswer env = l at hmoves
      cases hmoves
      case noTasks | decomposed | noAnswer | answer => exact hadd _ _ _
      case exitNext e _ _ | exitLast e _ => cases e <;> exact hint
      all_goals exact hint
    | sub i =>
      obtain ⟨pc, -, hmoves⟩ := subMoves_of_turn hs
      generalize pc.answer env reg t = l at hmoves
      cases hmoves
      case addTokens => exact hadd _ _ _
      all_goals exact hint

/-- The totals are the exact sums over all replies, if these fit together. -/
theorem returned_sums (hmax : x.config.maxIterations < 2 ^ 32)
    (hx : Expectation parse reg env x expected) (hcancel : x.cancelRequested = false)
    {tr : List Turn} (hrun : (schedule parse reg env x).Run tr s) (hpc : s.pc = .returned) :
    (((replies env x expected s).map fun r => r.promptTokens.natAbs).sum < 2 ^ 31 →
      s.result.totalPromptTokens =
        ((replies env x expected s).map LLMResponse.promptTokens).sum) ∧
    (((replies env x expected s).map fun r => r.completionTokens.natAbs).sum < 2 ^ 31 →
      s.result.totalCompletionTokens =
        ((replies env x expected s).map LLMResponse.completionTokens).sum) := by
  obtain ⟨-, htokens⟩ := returned_totals hmax hx hcancel hrun hpc
  obtain ⟨hprompt, hcompletion⟩ := schedule_isInt32 hrun
  have hsum : ∀ ns : List LLMResponse, ∀ field : LLMResponse → ℤ,
      (ns.map fun r => (field r).natAbs).sum < 2 ^ 31 → Json.IsInt32 (ns.map field).sum := by
    intro ns field hsmall
    refine (sumsFit_of_magnitudes ?_).sum
    rwa [List.map_map]
  constructor
  · intro hfits
    refine eq_of_ofInt_eq hprompt (hsum _ _ hfits) ?_
    have hreg := congrArg (AddMonoidHom.fst (BitVec 32) (BitVec 32)) htokens
    rw [map_add, map_add, map_listTotal, apply_ite (AddMonoidHom.fst _ _)] at hreg
    exact hreg.trans (ofInt_replies (fun e he => (hx.results e he).totals.1) hfits)
  · intro hfits
    refine eq_of_ofInt_eq hcompletion (hsum _ _ hfits) ?_
    have hreg := congrArg (AddMonoidHom.snd (BitVec 32) (BitVec 32)) htokens
    rw [map_add, map_add, map_listTotal, apply_ite (AddMonoidHom.snd _ _)] at hreg
    exact hreg.trans (ofInt_replies (fun e he => (hx.results e he).totals.2) hfits)

/-- `run` finds its way out without the sub-tasks. -/
theorem exit_returns {e : Exit} {tr : List Turn} (hrun : (schedule parse reg env x).Run tr s)
    (hpc : s.pc = .exit e) :
    ∃ tr' s', (schedule parse reg env x).Run tr' s' ∧ s'.pc = .returned ∧ s'.tasks = s.tasks := by
  -- the induction is on the statements that are left
  induction hn : exitLeft e using Nat.strong_induction_on generalizing e tr s with
  | _ n ih =>
    subst hn
    obtain ⟨pc, y, res, tasks, subs⟩ := s
    obtain rfl : pc = .exit e := hpc
    have hturn : turnNext parse reg env ⟨.exit e, y, res, tasks, subs⟩ ⟨.main, 0⟩ =
        some ⟨e.next.elim .returned .exit, e.session y, e.result y res, tasks, subs⟩ := by
      cases e <;> rfl
    have hrun' := hrun.snoc ⟨by simp [State.InTime], hturn⟩
    cases hnext : e.next with
    | none =>
      rw [hnext] at hrun'
      exact ⟨_, _, hrun', rfl, rfl⟩
    | some e' =>
      rw [hnext] at hrun'
      have hlt : exitLeft e' < exitLeft e := by
        cases e <;> cases hnext <;> simp [exitLeft]
      obtain ⟨tr₁, s₁, hrun₁, hret, htasks⟩ := ih (exitLeft e') hlt hrun' rfl rfl
      exact ⟨tr₁, s₁, hrun₁, hret, htasks⟩

/-- The entries `reduce` is called with are those `run` ends with. -/
theorem reduceGet_returns {tr : List Turn} (hrun : (schedule parse reg env x).Run tr s)
    (hpc : s.pc = .reduceGet) :
    ∃ tr' s', (schedule parse reg env x).Run tr' s' ∧ s'.pc = .returned ∧ s'.tasks = s.tasks := by
  obtain ⟨pc, y, res, tasks, subs⟩ := s
  obtain rfl : pc = .reduceGet := hpc
  obtain ⟨e, s', hturn, hpc', htasks⟩ : ∃ e s', turnNext parse reg env
      ⟨.reduceGet, y, res, tasks, subs⟩ ⟨.main, 0⟩ = some s' ∧ s'.pc = .exit e ∧
      s'.tasks = tasks := by
    by_cases h : reduce (env.llm (State.request ⟨.reduceGet, y, res, tasks, subs⟩) []) = ""
    · exact ⟨_, _, rfl, if_pos h, rfl⟩
    · exact ⟨_, _, rfl, if_neg h, rfl⟩
  have hrun' := hrun.snoc ⟨by simp [State.InTime], hturn⟩
  obtain ⟨tr₁, s₁, hrun₁, hret, htasks₁⟩ := exit_returns hrun' hpc'
  exact ⟨tr₁, s₁, hrun₁, hret, htasks₁.trans htasks⟩

/-- Every schedule calls `reduce` with the same prompt. -/
theorem reduce_request_eq (hmax : x.config.maxIterations < 2 ^ 32)
    (hcancel : x.cancelRequested = false) {tr tr' : List Turn}
    (hrun : (schedule parse reg env x).Run tr s) (hrun' : (schedule parse reg env x).Run tr' s')
    (hpc : s.pc = .reduceGet) (hpc' : s'.pc = .reduceGet) : s.request = s'.request := by
  obtain ⟨expected, hx⟩ : ∃ expected, Expectation parse reg env x expected :=
    exists_expectation hmax
  obtain ⟨tr₁, s₁, hrun₁, hret₁, htasks₁⟩ := reduceGet_returns hrun hpc
  obtain ⟨tr₂, s₂, hrun₂, hret₂, htasks₂⟩ := reduceGet_returns hrun' hpc'
  have hsame : s₁ = s₂ := returned_eq hrun₁ hrun₂ hret₁ hret₂
  have htasks : s.tasks = s'.tasks := by rw [← htasks₁, ← htasks₂, hsame]
  have hhistory := (schedule_totals hmax hx hcancel hrun).1.history
  have hhistory' := (schedule_totals hmax hx hcancel hrun').1.history
  simp [State.request, hpc, hpc', htasks, hhistory, hhistory']

/-- **Schedule independence of `run`**: the sub-tasks run one after another
    come to an end, and every schedule comes to the same one, with the
    same entries of `tasks`, the same answer, the same totals and the same
    counter. The totals are the exact sums over all replies, if an `int`
    holds the magnitudes of these together. -/
theorem schedule_independent (hmax : x.config.maxIterations < 2 ^ 32)
    (hcancel : x.cancelRequested = false) :
    (∃ tr s, (sequential parse reg env x).Run tr s ∧ s.pc = .returned) ∧
    (∀ st turns, ¬(schedule parse reg env x).Endless st turns) ∧
    (∀ tr s, (schedule parse reg env x).Run tr s → s.pc ≠ .returned →
      ∃ turn s', (schedule parse reg env x).step s turn s') ∧
    (∀ tr s tr' s', (schedule parse reg env x).Run tr s → (sequential parse reg env x).Run tr' s' →
      (s.pc = .returned → s'.pc = .returned → s = s') ∧
      (s.pc = .reduceGet → s'.pc = .reduceGet → s.request = s'.request)) ∧
    ∃ expected, Expectation parse reg env x expected ∧
      ∀ tr s, (schedule parse reg env x).Run tr s → s.pc = .returned →
        s.tasks = expected.map Expected.finish ∧
        (((replies env x expected s).map fun r => r.promptTokens.natAbs).sum < 2 ^ 31 →
          s.result.totalPromptTokens =
            ((replies env x expected s).map LLMResponse.promptTokens).sum) ∧
        (((replies env x expected s).map fun r => r.completionTokens.natAbs).sum < 2 ^ 31 →
          s.result.totalCompletionTokens =
            ((replies env x expected s).map LLMResponse.completionTokens).sum) := by
  refine ⟨sequential_returns hmax, not_endless hmax, ?_, ?_, ?_⟩
  · intro tr s hrun hpc
    obtain ⟨turn, s', htime, -, hs⟩ : ∃ turn s', s.InTime turn ∧ Sequential s turn ∧
      turnNext parse reg env s turn = some s' := schedule_exists_turn hmax hrun hpc
    exact ⟨turn, s', htime, hs⟩
  · intro tr s tr' s' hrun hrun'
    exact ⟨returned_eq hrun hrun'.of_restrict,
      reduce_request_eq hmax hcancel hrun hrun'.of_restrict⟩
  · obtain ⟨expected, hx⟩ : ∃ expected, Expectation parse reg env x expected :=
      exists_expectation hmax
    refine ⟨expected, hx, ?_⟩
    intro tr s hrun hpc
    exact ⟨(returned_totals hmax hx hcancel hrun hpc).1,
      returned_sums hmax hx hcancel hrun hpc⟩

/-- An LLM that decomposes a request into two sub-tasks, and finds the
    answer to anything else. -/
def finds : Surroundings where
  llm := fun messages _ =>
    if messages.length = 1 then
      { message := { role := "assistant", content := twoTasks }
        promptTokens := 5
        completionTokens := 3 }
    else
      { message := { role := "assistant", content := "found" }
        promptTokens := 2
        completionTokens := 1 }
  tool := fun _ => .output ""
  tool_ne := by simp

/-- The result of ReAct on a sub-task. -/
def found : WorkflowResult where
  success := true
  answer := "found"
  stepsTaken := 1
  totalPromptTokens := 2
  totalCompletionTokens := 1

/-- What the LLM finds. -/
def finding : LLMResponse where
  message := { role := "assistant", content := "found" }
  promptTokens := 2
  completionTokens := 1

theorem finds_returned {description : String} (h : description = "a" ∨ description = "b") :
    ReActWorkflow.Returned ⟨[]⟩ finds ((Session.new 1 {} 0).newSub description 0) [finding]
      found := by
  have hends : (System.exec (fun s _ => ReActWorkflow.logNext ⟨[]⟩ s
      (.work (s.run.answer finds ⟨[]⟩ 0)))
      ⟨ReActWorkflow.start ((Session.new 1 {} 0).newSub description 0), []⟩
      (List.replicate 12 ())).map (fun s => (s.run.pc, ReActWorkflow.responses s.log,
        s.run.result)) = some (.returned, [finding], found) := by
    rcases h with rfl | rfl <;> decide
  obtain ⟨s, hrun, hends⟩ := System.exists_run_of_exec hends
  simp only [Prod.mk.injEq] at hends
  exact ⟨_, s, hrun, hends.1, hends.2.1, hends.2.2⟩

/-- An expectation in which every sub-task has the same replies. -/
theorem replies_of_two {env : Surroundings} {expected : List Expected} {r : LLMResponse}
    {res : WorkflowResult}
    (hx : Expectation parseTwoTasks ⟨[]⟩ env (Session.new 1 {} 0) expected)
    (htasks : decompose parseTwoTasks (decomposeReply env (Session.new 1 {} 0)) =
      [⟨1, "a", "", false⟩, ⟨2, "b", "", false⟩])
    (hreturned : ∀ description, description = "a" ∨ description = "b" →
      ReActWorkflow.Returned ⟨[]⟩ env ((Session.new 1 {} 0).newSub description 0) [r] res) :
    ∃ e₁ e₂, expected = [e₁, e₂] ∧ e₁.replies = [r] ∧ e₂.replies = [r] ∧ e₁.res = res ∧
      e₂.res = res := by
  have hdecomposed := hx.tasks.trans htasks
  have hres : ∀ e ∈ expected, e.replies = [r] ∧ e.res = res := by
    intro e hmem
    have htask := List.mem_map_of_mem (f := Expected.task) hmem
    rw [hdecomposed] at htask
    refine (hx.results e hmem).unique (hreturned _ ?_)
    simp only [List.mem_cons, List.not_mem_nil, or_false] at htask
    rcases htask with h | h
    · exact .inl (by rw [h])
    · exact .inr (by rw [h])
  have hlen : expected.length = 2 := by
    have h := congrArg List.length hdecomposed
    rwa [List.length_map] at h
  match expected, hlen with
  | [e₁, e₂], _ =>
    obtain ⟨hr₁, hres₁⟩ := hres e₁ (by simp)
    obtain ⟨hr₂, hres₂⟩ := hres e₂ (by simp)
    exact ⟨e₁, e₂, rfl, hr₁, hr₂, hres₁, hres₂⟩

theorem finds_independent :
    ∃ tr s, (sequential parseTwoTasks ⟨[]⟩ finds (Session.new 1 {} 0)).Run tr s ∧
      s.pc = .returned ∧ s.tasks.map SubTask.result = ["found", "found"] ∧
      s.result.totalPromptTokens = 11 ∧ s.result.totalCompletionTokens = 6 := by
  obtain ⟨⟨tr, s, hrun, hpc⟩, -, -, -, expected, hx, hall⟩ :=
    @schedule_independent parseTwoTasks ⟨[]⟩ finds (Session.new 1 {} 0) (by decide) rfl
  obtain ⟨htasks, hprompt, hcompletion⟩ := hall tr s hrun.of_restrict hpc
  obtain ⟨e₁, e₂, rfl, hr₁, hr₂, hres₁, hres₂⟩ :=
    replies_of_two hx (by decide) fun _ => finds_returned
  have hdecompose : (decomposeReply finds (Session.new 1 {} 0)).promptTokens = 5 ∧
      (decomposeReply finds (Session.new 1 {} 0)).completionTokens = 3 := by decide
  have hreduce : (s.reduceReply finds).promptTokens = 2 ∧
      (s.reduceReply finds).completionTokens = 1 := by
    simp [State.reduceReply, State.request, finds]
  have hreplies : replies finds (Session.new 1 {} 0) [e₁, e₂] s =
      [decomposeReply finds (Session.new 1 {} 0), finding, finding, s.reduceReply finds] := by
    simp [replies, hr₁, hr₂]
  rw [hreplies] at hprompt hcompletion
  refine ⟨tr, s, hrun, hpc, ?_, ?_, ?_⟩
  · rw [htasks]
    simp [Expected.finish, hres₁, hres₂, found]
  · simpa [hdecompose, hreduce, finding] using hprompt
  · simpa [hdecompose, hreduce, finding] using hcompletion

/-- The same LLM, with as many tokens in every reply as an `int` can hold. -/
def overflows : Surroundings where
  llm := fun messages tools => { finds.llm messages tools with promptTokens := 2147483647 }
  tool := fun _ => .output ""
  tool_ne := finds.tool_ne

theorem overflows_returned {description : String} (h : description = "a" ∨ description = "b") :
    ReActWorkflow.Returned ⟨[]⟩ overflows ((Session.new 1 {} 0).newSub description 0)
      [{ finding with promptTokens := 2147483647 }]
      { found with totalPromptTokens := 2147483647 } := by
  have hends : (System.exec (fun s _ => ReActWorkflow.logNext ⟨[]⟩ s
      (.work (s.run.answer overflows ⟨[]⟩ 0)))
      ⟨ReActWorkflow.start ((Session.new 1 {} 0).newSub description 0), []⟩
      (List.replicate 12 ())).map (fun s => (s.run.pc, ReActWorkflow.responses s.log,
        s.run.result)) =
      some (.returned, [{ finding with promptTokens := 2147483647 }],
        { found with totalPromptTokens := 2147483647 }) := by
    rcases h with rfl | rfl <;> decide
  obtain ⟨s, hrun, hends⟩ := System.exists_run_of_exec hends
  simp only [Prod.mk.injEq] at hends
  exact ⟨_, s, hrun, hends.1, hends.2.1, hends.2.2⟩

theorem overflows_inexact :
    ∃ expected tr s, Expectation parseTwoTasks ⟨[]⟩ overflows (Session.new 1 {} 0) expected ∧
      (sequential parseTwoTasks ⟨[]⟩ overflows (Session.new 1 {} 0)).Run tr s ∧
      s.pc = .returned ∧ s.result.totalPromptTokens ≠
        ((replies overflows (Session.new 1 {} 0) expected s).map LLMResponse.promptTokens).sum := by
  obtain ⟨tr, s, hrun, hpc⟩ :=
    @sequential_returns parseTwoTasks ⟨[]⟩ overflows (Session.new 1 {} 0) (by decide)
  obtain ⟨expected, hx⟩ :=
    @exists_expectation parseTwoTasks ⟨[]⟩ overflows (Session.new 1 {} 0) (by decide)
  obtain ⟨e₁, e₂, rfl, hr₁, hr₂, -, -⟩ :=
    replies_of_two hx (by decide) fun _ => overflows_returned
  refine ⟨_, tr, s, hx, hrun, hpc, ?_⟩
  have hint := (schedule_isInt32 hrun.of_restrict).1.2
  have hsum : ((replies overflows (Session.new 1 {} 0) [e₁, e₂] s).map
      LLMResponse.promptTokens).sum = 4 * 2147483647 := by
    simp [replies, hr₁, hr₂, decomposeReply, State.reduceReply, overflows]
  omega

end MapReduceWorkflow

end Forge
