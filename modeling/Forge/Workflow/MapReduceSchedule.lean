import Forge.Framework.Confluence
import Forge.Workflow.MapReduce

/-! # Schedules of a Map-Reduce Run

  `MapReduceWorkflow::run` with an LLM and tools that answer the same
  request always in the same way, without cancellation, timeout or
  exception. What is left open is the order in which `run` and its
  sub-tasks take their turns, and what the clock reads:

  - `Surroundings`, `answer`: the label of the next step of `run` or of a
    sub-task;
  - `schedule`: the runs in all orders, at all times before the deadlines;
  - `erase`: the state without what the clock has left in it, so that the
    turn alone decides the step (`erase_next`);
  - `Effect`: what a sub-task reads and writes, so that turns commute
    (`still_commutes`);
  - `returned_unique`: all orders end in the same state.
-/

namespace Forge

open LTS

open Workflow (Label)

/-- An LLM and tools that answer by a function of what they are asked.
    The LLM is asked with messages and with the names of the tools. -/
structure Surroundings where
  llm : List Message → List String → LLMResponse
  tool : ToolCall → ToolOutcome
  tool_ne : ∀ call, tool call ≠ .otherException

/-! ### ReAct without a Clock -/

/-- The session as if the clock had stood at zero when it was made. -/
def Session.erase (x : Session) : Session :=
  { x with createdAt := 0, deadline := x.config.timeout * ticksPerSecond }

theorem Session.erase_newSub (x : Session) (description : String) (t : ℕ) :
    (x.newSub description t).erase = x.newSub description 0 := by
  simp [Session.erase, Session.newSub, Session.new]

namespace ReActWorkflow

/-- The label of the next step, at time `t`. -/
def State.answer (env : Surroundings) (reg : ToolRegistry) (t : ℕ) (s : State) : Label :=
  match s.pc with
  | .checkTimeout => .now t
  | .get => .reply (env.llm s.request reg.names)
  | .executeBatch calls => .batch (calls.map env.tool)
  | _ => .tau

def State.erase (s : State) : State := { s with session := s.session.erase }

/-- The run does not ask for the time after its deadline. -/
def State.InTime (s : State) (t : ℕ) : Prop := s.pc = .checkTimeout → t ≤ s.session.deadline

variable {env : Surroundings} {reg : ToolRegistry} {s s' : State} {t : ℕ}

/-- The clock decides nothing but the deadline. -/
theorem erase_next (htime : s.InTime t) :
    next reg s.erase (s.erase.answer env reg 0) =
      (next reg s (s.answer env reg t)).map State.erase := by
  obtain ⟨pc, x, res⟩ := s
  cases pc
  case checkTimeout =>
    have hle : ¬x.deadline < t := Nat.not_lt.mpr (htime rfl)
    simp [State.answer, State.erase, Session.erase, next, Session.isTimedOut, hle]
  case get =>
    simp only [State.answer, State.erase, next]
    rw [show State.request ⟨.get, x.erase, res⟩ = State.request ⟨.get, x, res⟩ from rfl]
    generalize env.llm (State.request ⟨.get, x, res⟩) reg.names = r
    by_cases herr : r.error = "" <;> simp [herr, State.erase]
  case executeBatch calls =>
    simp only [State.answer, State.erase, next, List.length_map, if_true]
    cases executeBatch reg calls (calls.map env.tool) <;> rfl
  case pushResults results => cases results <;> rfl
  all_goals rfl

end ReActWorkflow

namespace MapReduceWorkflow

/-! ### Turns -/

/-- Who takes the next step. -/
inductive Actor where
  | main
  | sub (i : ℕ)
  deriving DecidableEq

/-- A step, and what the clock reads during it. -/
structure Turn where
  actor : Actor
  time : ℕ
  deriving DecidableEq

/-- The label of the next step of `run`. -/
def State.mainAnswer (env : Surroundings) (s : State) : Label :=
  match s.pc with
  | .decomposeGet | .reduceGet => .reply (env.llm s.request [])
  | _ => .tau

/-- The label of the next step of a sub-task. -/
def SubPC.answer (env : Surroundings) (reg : ToolRegistry) (t : ℕ) : SubPC → Label
  | .createSub => .now t
  | .runSub sub => sub.answer env reg t
  | _ => .tau

/-- The next step of `run` or of a sub-task, at time `t`. -/
def State.answer (env : Surroundings) (reg : ToolRegistry) (t : ℕ) (s : State) : Actor → Action
  | .main => .main (s.mainAnswer env)
  | .sub i =>
      match s.subs[i]? with
      | some pc => .sub i (pc.answer env reg t)
      | none => .sub i .tau

/-- No sub-session asks for the time after its deadline. -/
def State.InTime (s : State) (turn : Turn) : Prop :=
  ∀ i sub, turn.actor = .sub i → s.subs[i]? = some (.runSub sub) → sub.InTime turn.time

def turnNext (parse : String → Option Json) (reg : ToolRegistry) (env : Surroundings) (s : State)
    (turn : Turn) : Option State :=
  next parse reg s (s.answer env reg turn.time turn.actor)

/-- `run(x)` in all orders of turns. -/
def schedule (parse : String → Option Json) (reg : ToolRegistry) (env : Surroundings)
    (x : Session) : System State Turn :=
  (System.ofNext (start x) (turnNext parse reg env)).restrict State.InTime

/-- `run(x)` when the clock stands still at zero. -/
def still (parse : String → Option Json) (reg : ToolRegistry) (env : Surroundings) (x : Session) :
    System State Actor :=
  System.ofNext (start x) fun s actor => turnNext parse reg env s ⟨actor, 0⟩

variable {parse : String → Option Json} {reg : ToolRegistry} {env : Surroundings} {x : Session}
  {s s' : State}

/-! ### A Run without a Clock -/

def SubPC.erase : SubPC → SubPC
  | .runSub sub => .runSub sub.erase
  | pc => pc

def State.erase (s : State) : State := { s with subs := s.subs.map SubPC.erase }

/-- `run` does not read the clock. -/
theorem erase_mainNext (s : State) :
    mainNext parse s.erase (s.erase.mainAnswer env) =
      (mainNext parse s (s.mainAnswer env)).map State.erase := by
  obtain ⟨pc, x, res, tasks, subs⟩ := s
  cases pc
  case decomposeGet =>
    simp only [State.mainAnswer, State.erase, mainNext, Option.map_some, List.map_map]
    rfl
  case submit i =>
    simp only [State.mainAnswer, State.erase, mainNext]
    by_cases hlt : i < tasks.length <;> simp [hlt, State.erase, SubPC.erase]
  case join i =>
    simp only [State.mainAnswer, State.erase, mainNext, List.getElem?_map]
    cases subs[i]? with
    | none => rfl
    | some pc => cases pc <;> rfl
  all_goals rfl

/-- A sub-task reads the clock for its session only. -/
theorem erase_subNext {i : ℕ} {t : ℕ} (htime : s.InTime ⟨.sub i, t⟩) :
    next parse reg s.erase (s.erase.answer env reg 0 (.sub i)) =
      (next parse reg s (s.answer env reg t (.sub i))).map State.erase := by
  have hsubs : s.erase.subs[i]? = s.subs[i]?.map SubPC.erase := by simp [State.erase]
  simp only [State.answer, hsubs]
  cases hpc : s.subs[i]? with
  | none => simp [next, hsubs, hpc]
  | some pc =>
    simp only [Option.map_some, next, hsubs, hpc]
    rw [show s.erase.tasks = s.tasks from rfl]
    cases htask : s.tasks[i]? with
    | none => rfl
    | some task =>
      simp only
      cases pc
      case runSub sub =>
        have hsub : ReActWorkflow.next reg sub.erase (sub.erase.answer env reg 0) =
            (ReActWorkflow.next reg sub (sub.answer env reg t)).map ReActWorkflow.State.erase :=
          ReActWorkflow.erase_next (htime i sub rfl hpc)
        have hpc' : sub.erase.pc = sub.pc := rfl
        simp only [subNext, SubPC.answer, SubPC.erase, hpc', hsub]
        by_cases hret : sub.pc = .returned
        · simp [hret, ReActWorkflow.State.answer, State.erase, SubPC.erase,
            ReActWorkflow.State.erase]
        · simp only [hret, if_false]
          cases ReActWorkflow.next reg sub (sub.answer env reg t) with
          | none => rfl
          | some sub' =>
            have hpc'' : sub'.erase.pc = sub'.pc := rfl
            by_cases hthrew : sub'.pc = .threw <;> simp [hthrew, hpc'', State.erase, SubPC.erase]
      case createSub =>
        simp [subNext, SubPC.answer, SubPC.erase, State.erase, ReActWorkflow.start,
          ReActWorkflow.State.erase, Session.erase_newSub]
      case checkCancel =>
        by_cases hcancel : s.session.cancelRequested <;>
          simp [subNext, SubPC.answer, SubPC.erase, State.erase, hcancel]
      all_goals simp [subNext, SubPC.answer, SubPC.erase, State.erase]

/-- **Erasure**: without the clock the turn alone decides the step. -/
theorem erase_turnNext {turn : Turn} (htime : s.InTime turn) :
    turnNext parse reg env s.erase ⟨turn.actor, 0⟩ =
      (turnNext parse reg env s turn).map State.erase := by
  obtain ⟨actor, t⟩ := turn
  cases actor with
  | main => exact erase_mainNext s
  | sub i => exact erase_subNext htime

/-- The runs of all schedules are runs without a clock. -/
theorem still_run_of_schedule {tr : List Turn} (hrun : (schedule parse reg env x).Run tr s) :
    (still parse reg env x).Run (tr.map Turn.actor) s.erase := by
  induction hrun with
  | start hs =>
    obtain rfl : _ = start x := hs
    exact .start rfl
  | @snoc tr s s' turn _ hs ih =>
    obtain ⟨htime, hnext⟩ := hs
    rw [List.map_append]
    refine ih.snoc ?_
    show turnNext parse reg env s.erase ⟨turn.actor, 0⟩ = some s'.erase
    rw [erase_turnNext htime, show turnNext parse reg env s turn = some s' from hnext]
    rfl

/-! ### Turns Commute -/

/-- What a step of a sub-task does: where it goes, whether it counts
    itself, the tokens it adds and the entry of `tasks` it writes. -/
structure Effect where
  pc : SubPC
  counts : Bool := false
  tokens : Option (ℤ × ℤ) := none
  task : Option SubTask := none

def Effect.apply (e : Effect) (i : ℕ) (s : State) : State :=
  { s with
    session := if e.counts then s.session.countStep else s.session
    result := match e.tokens with
      | some (prompt, completion) => s.result.addTokens prompt completion
      | none => s.result
    tasks := match e.task with
      | some task => s.tasks.set i task
      | none => s.tasks
    subs := s.subs.set i e.pc }

/-- The effect of a step of the sub-task `task` that is at `pc`. -/
def subEffect (reg : ToolRegistry) (x : Session) (task : SubTask) (pc : SubPC) (l : Label) :
    Option Effect :=
  match pc, l with
  | .checkCancel, .tau => some { pc := if x.cancelRequested then .done false else .countStep }
  | .countStep, .tau => some { pc := .createSub, counts := true }
  | .createSub, .now t =>
      some { pc := .runSub (ReActWorkflow.start (x.newSub task.description t)) }
  | .runSub sub, l =>
      if sub.pc = .returned then
        if l = .tau then some { pc := .addTokens sub.result } else none
      else
        (ReActWorkflow.next reg sub l).map fun sub' =>
          { pc := if sub'.pc = .threw then .threw else .runSub sub' }
  | .addTokens res, .tau =>
      some {
        pc := .writeResult res
        tokens := some (res.totalPromptTokens, res.totalCompletionTokens) }
  | .writeResult res, .tau =>
      some {
        pc := .done res.success
        task := some { task with
          success := res.success
          result := if res.success then res.answer else res.error } }
  | _, _ => none

/-- A step of a sub-task is its effect. -/
theorem subNext_eq (s : State) (i : ℕ) (task : SubTask) (pc : SubPC) (l : Label) :
    subNext reg s i task pc l = (subEffect reg s.session task pc l).map fun e => e.apply i s := by
  cases pc
  case runSub sub =>
    simp only [subNext, subEffect]
    split
    · split <;> simp [Effect.apply]
    · cases ReActWorkflow.next reg sub l <;> simp [Effect.apply]
  all_goals cases l <;> simp [subNext, subEffect, Effect.apply]

/-- Of the session a sub-task sees the configuration and the flag. -/
theorem subEffect_congr {x' : Session} (hconfig : x'.config = x.config)
    (hcancel : x'.cancelRequested = x.cancelRequested) (task : SubTask) (pc : SubPC) (l : Label) :
    subEffect reg x' task pc l = subEffect reg x task pc l := by
  have hnew : ∀ t, x'.newSub task.description t = x.newSub task.description t := by
    intro t
    simp [Session.newSub, hconfig]
  cases pc
  case runSub sub => rfl
  all_goals cases l <;> simp [subEffect, hcancel, hnew]

/-- What a sub-task sees of the state is the same. -/
structure SameView (i : ℕ) (s s' : State) : Prop where
  sub : s'.subs[i]? = s.subs[i]?
  task : s'.tasks[i]? = s.tasks[i]?
  config : s'.session.config = s.session.config
  cancelRequested : s'.session.cancelRequested = s.session.cancelRequested

/-- A step of a sub-task has the same effect wherever the sub-task sees
    the same. -/
theorem sub_local {i : ℕ} {t : ℕ} (hs : turnNext parse reg env s ⟨.sub i, t⟩ = some s') :
    ∃ e : Effect, s' = e.apply i s ∧ ∀ s₂, SameView i s s₂ →
      turnNext parse reg env s₂ ⟨.sub i, t⟩ = some (e.apply i s₂) := by
  cases hpc : s.subs[i]? with
  | none => simp [turnNext, State.answer, hpc, next] at hs
  | some pc =>
    cases htask : s.tasks[i]? with
    | none => simp [turnNext, State.answer, hpc, htask, next] at hs
    | some task =>
      have hview : ∀ s₂, SameView i s s₂ → turnNext parse reg env s₂ ⟨.sub i, t⟩ =
          (subEffect reg s.session task pc (pc.answer env reg t)).map fun e => e.apply i s₂ := by
        intro s₂ hv
        simp only [turnNext, State.answer, hv.sub, hv.task, hpc, htask, next, subNext_eq]
        rw [subEffect_congr hv.config hv.cancelRequested]
      rw [hview s ⟨rfl, rfl, rfl, rfl⟩, Option.map_eq_some_iff] at hs
      obtain ⟨e, he, hs'⟩ := hs
      refine ⟨e, hs'.symm, ?_⟩
      intro s₂ hv
      rw [hview s₂ hv, he]
      rfl

/-- Another sub-task does not see an effect. -/
theorem Effect.sameView (e : Effect) {i j : ℕ} (hij : i ≠ j) (s : State) :
    SameView j s (e.apply i s) where
  sub := List.getElem?_set_ne hij
  task := by
    unfold Effect.apply
    simp only
    split
    · exact List.getElem?_set_ne hij
    · rfl
  config := by
    unfold Effect.apply
    simp only
    split <;> rfl
  cancelRequested := by
    unfold Effect.apply
    simp only
    split <;> rfl

/-- Effects of two sub-tasks commute. -/
theorem Effect.apply_comm (e e' : Effect) {i j : ℕ} (hij : i ≠ j) (s : State) :
    e'.apply j (e.apply i s) = e.apply i (e'.apply j s) := by
  obtain ⟨pc, counts, tokens, task⟩ := e
  obtain ⟨pc', counts', tokens', task'⟩ := e'
  simp only [Effect.apply, State.mk.injEq, true_and, List.set_comm _ _ hij, and_true]
  refine ⟨?_, ?_, ?_⟩
  · cases counts <;> cases counts' <;> rfl
  · cases tokens <;> cases tokens' <;> simp [WorkflowResult.addTokens_comm]
  · cases task <;> cases task' <;> simp [List.set_comm _ _ hij]

/-- A sub-task that takes a turn is queued or running. -/
theorem live_of_turn {i t : ℕ} (hs : turnNext parse reg env s ⟨.sub i, t⟩ = some s') :
    ∃ pc, s.subs[i]? = some pc ∧ pc ≠ .pending ∧ pc ≠ .threw ∧ ∀ b, pc ≠ .done b := by
  simp only [turnNext, State.answer] at hs
  split at hs
  · obtain ⟨-, -, pc, pc', hpc, -, hpending, hthrew, hdone, -⟩ := sub_cases hs
    exact ⟨pc, hpc, hpending, hthrew, hdone⟩
  · obtain ⟨-, -, pc, pc', hpc, -, hpending, hthrew, hdone, -⟩ := sub_cases hs
    exact ⟨pc, hpc, hpending, hthrew, hdone⟩

/-- As long as a sub-task is queued or running, `run` submits or waits,
    and does not see what the sub-task does. -/
theorem main_sub_comm (hi : Inv s) {i : ℕ} {pc : SubPC} (hpc : s.subs[i]? = some pc)
    (hpending : pc ≠ .pending) (hthrew : pc ≠ .threw) (hdone : ∀ b, pc ≠ .done b) (e : Effect)
    {t : ℕ} (hs : turnNext parse reg env s ⟨.main, t⟩ = some s') :
    SameView i s s' ∧ turnNext parse reg env (e.apply i s) ⟨.main, t⟩ = some (e.apply i s') := by
  have hsubmitted : s.pc.unsubmitted ≠ some 0 := by
    intro h
    exact hpending (hi.unsubmitted 0 h i (Nat.zero_le i) pc hpc)
  have hwaits : s.pc.joined s.subs.length ≠ s.subs.length := by
    intro h
    obtain ⟨b, hb⟩ := hi.joined i (by rw [h]; exact (List.getElem?_eq_some_iff.mp hpc).1)
    rw [hpc, Option.some.injEq] at hb
    exact hdone b hb
  have hunsub := hi.unsubmitted
  have hjoined := hi.joined
  have hmoves : MainMoves parse s (s.mainAnswer env) s' := mainMoves_of_next hs
  generalize s.mainAnswer env = l at hmoves
  cases hmoves
  case submit k hlt =>
    -- the sub-task that is submitted is another one
    have hik : i ≠ k := by
      rintro rfl
      exact hpending (hunsub i rfl i le_rfl pc hpc)
    refine ⟨⟨List.getElem?_set_ne hik.symm, rfl, rfl, rfl⟩, ?_⟩
    obtain ⟨-, -, -, task⟩ := e
    cases task <;>
      simp [turnNext, State.answer, State.mainAnswer, next, mainNext, Effect.apply, hlt,
        List.set_comm _ _ hik]
  case submitted k hle =>
    refine ⟨⟨rfl, rfl, rfl, rfl⟩, ?_⟩
    obtain ⟨-, -, -, task⟩ := e
    cases task <;>
      simp [turnNext, State.answer, State.mainAnswer, next, mainNext, Effect.apply,
        Nat.not_lt.mpr hle]
  case join k b hb =>
    -- the sub-task waited for is done
    have hik : i ≠ k := by
      rintro rfl
      rw [hb, Option.some.injEq] at hpc
      exact hdone b hpc.symm
    refine ⟨⟨rfl, rfl, rfl, rfl⟩, ?_⟩
    simp [turnNext, State.answer, State.mainAnswer, next, mainNext, Effect.apply,
      List.getElem?_set_ne hik, hb]
  case joinRaises k hthrew' =>
    have hik : i ≠ k := by
      rintro rfl
      rw [hthrew', Option.some.injEq] at hpc
      exact hthrew hpc.symm
    refine ⟨⟨rfl, rfl, rfl, rfl⟩, ?_⟩
    simp [turnNext, State.answer, State.mainAnswer, next, mainNext, Effect.apply,
      List.getElem?_set_ne hik, hthrew']
  case joined k hle =>
    -- all are done
    have hlt := (List.getElem?_eq_some_iff.mp hpc).1
    obtain ⟨b, hb⟩ := hjoined i (Nat.lt_of_lt_of_le hlt hle)
    rw [hpc, Option.some.injEq] at hb
    exact absurd hb (hdone b)
  all_goals first
    | exact absurd rfl hsubmitted
    | exact absurd rfl hwaits

theorem still_inv (hx : x.state.terminal = false) {tr : List Actor}
    (hrun : (still parse reg env x).Run tr s) : Inv s := by
  refine hrun.invariant ?_ ?_
  · rintro s rfl
    exact inv_start hx
  · intro s actor s' hi hs
    exact hi.step hs

/-- **Turns commute.** -/
theorem still_commutes (hx : x.state.terminal = false) : (still parse reg env x).Commutes := by
  -- `run` and a sub-task
  have hmain : ∀ s i s₁ s₂, Inv s → turnNext parse reg env s ⟨.main, 0⟩ = some s₁ →
      turnNext parse reg env s ⟨.sub i, 0⟩ = some s₂ →
      ∃ s₃, turnNext parse reg env s₁ ⟨.sub i, 0⟩ = some s₃ ∧
        turnNext parse reg env s₂ ⟨.main, 0⟩ = some s₃ := by
    intro s i s₁ s₂ hi h₁ h₂
    obtain ⟨e, rfl, hlocal⟩ := sub_local h₂
    obtain ⟨pc, hpc, hpending, hthrew, hdone⟩ := live_of_turn h₂
    obtain ⟨hview, hcomm⟩ := main_sub_comm hi hpc hpending hthrew hdone e h₁
    exact ⟨e.apply i s₁, hlocal s₁ hview, hcomm⟩
  rintro s (_ | i) (_ | j) s₁ s₂ ⟨tr, hrun⟩ h₁ h₂
  · exact .inl (Option.some.inj (h₁.symm.trans h₂))
  · exact .inr (hmain s j s₁ s₂ (still_inv hx hrun) h₁ h₂)
  · obtain ⟨s₃, h₃, h₃'⟩ := hmain s i s₂ s₁ (still_inv hx hrun) h₂ h₁
    exact .inr ⟨s₃, h₃', h₃⟩
  · by_cases hij : i = j
    · subst hij
      exact .inl (Option.some.inj (h₁.symm.trans h₂))
    · obtain ⟨e, rfl, hlocal⟩ := sub_local h₁
      obtain ⟨e', rfl, hlocal'⟩ := sub_local h₂
      refine .inr ⟨e'.apply j (e.apply i s), hlocal' _ (e.sameView hij s), ?_⟩
      rw [e.apply_comm e' hij]
      exact hlocal _ (e'.sameView (Ne.symm hij) s)

/-! ### The End of a Run -/

/-- After `run` has returned there are no more turns. -/
theorem returned_final (hi : Inv s) (hpc : s.pc = .returned) : (still parse reg env x).Final s := by
  intro actor s' hs
  cases actor with
  | main =>
    obtain ⟨pc, y, res, tasks, subs⟩ := s
    cases hpc
    cases hs
  | sub i =>
    obtain ⟨pc, hsub, -, -, hdone⟩ := live_of_turn hs
    have hlt := (List.getElem?_eq_some_iff.mp hsub).1
    obtain ⟨b, hb⟩ := hi.joined i (by rw [hpc]; exact hlt)
    rw [hsub, Option.some.injEq] at hb
    exact hdone b hb

/-- Nor is there anything left of the clock. -/
theorem erase_of_returned (hi : Inv s) (hpc : s.pc = .returned) : s.erase = s := by
  have hsubs : s.subs.map SubPC.erase = s.subs := by
    apply List.ext_getElem?
    intro i
    rw [List.getElem?_map]
    cases hsub : s.subs[i]? with
    | none => rfl
    | some pc =>
      have hlt := (List.getElem?_eq_some_iff.mp hsub).1
      obtain ⟨b, hb⟩ := hi.joined i (by rw [hpc]; exact hlt)
      rw [hsub, Option.some.injEq] at hb
      rw [hb]
      rfl
  simp [State.erase, hsubs]

theorem schedule_inv (hx : x.state.terminal = false) {tr : List Turn}
    (hrun : (schedule parse reg env x).Run tr s) : Inv s := by
  refine hrun.invariant ?_ ?_
  · rintro s rfl
    exact inv_start hx
  · intro s turn s' hi hs
    exact hi.step hs.2

/-- **Schedule independence**: all orders of turns end in the same state. -/
theorem returned_unique (hx : x.state.terminal = false) {tr tr' : List Turn}
    (hrun : (schedule parse reg env x).Run tr s) (hrun' : (schedule parse reg env x).Run tr' s')
    (hpc : s.pc = .returned) (hpc' : s'.pc = .returned) : s = s' := by
  have hi := schedule_inv hx hrun
  have hi' := schedule_inv hx hrun'
  have hstill := still_run_of_schedule hrun
  have hstill' := still_run_of_schedule hrun'
  rw [erase_of_returned hi hpc] at hstill
  rw [erase_of_returned hi' hpc'] at hstill'
  exact (still_commutes hx).final_unique (fun _ h => h) hstill hstill' (returned_final hi hpc)
    (returned_final hi' hpc')

end MapReduceWorkflow

end Forge
