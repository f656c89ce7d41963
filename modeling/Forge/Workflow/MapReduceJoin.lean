import Forge.Framework.System
import Forge.Workflow.MapReduce

/-! # Sub-Tasks and the Scope of `MapReduceWorkflow::run`

  The lambdas of the sub-tasks hold references to `tasks`, `result` and
  the mutex, which live in the scope of `run`. The loop that waits for the
  sub-tasks calls `get` on their futures in order, and `get` throws the
  exception of a sub-task again:

  - `Contained`: no sub-task is queued or running once `run` has been left;
  - `abandons`: the step in which the loop meets an exception while a
    later sub-task is queued or running;
  - `subtasks_joined`: this step, and no other, breaks `Contained`.
-/

namespace Forge

open LTS

open Workflow (Label)

namespace MapReduceWorkflow

inductive RunLabel where
  /-- `cancel_requested.store(true)`. -/
  | cancel
  /-- `run` or a sub-task takes a step. -/
  | work (a : Action)
  deriving DecidableEq

def runNext (parse : String → Option Json) (reg : ToolRegistry) (s : State) :
    RunLabel → Option State
  | .cancel => some { s with session := { s.session with cancelRequested := true } }
  | .work a => next parse reg s a

/-- `run(x)` with its sub-tasks. -/
def system (parse : String → Option Json) (reg : ToolRegistry) (x : Session) :
    System State RunLabel :=
  System.ofNext (start x) (runNext parse reg)

variable {parse : String → Option Json} {reg : ToolRegistry} {x : Session} {s s' : State}

theorem Loops.run_step {a : RunLabel} (hi : Loops s) (hs : runNext parse reg s a = some s') :
    Loops s' := by
  cases a with
  | cancel =>
    cases hs
    exact ⟨hi.joined, hi.unsubmitted⟩
  | work a => exact hi.step hs

theorem loops_run {tr : List RunLabel} (hrun : (system parse reg x).Run tr s) : Loops s := by
  refine hrun.invariant ?_ ?_
  · rintro s rfl
    exact loops_start x
  · intro s a s' hi hs
    exact hi.run_step hs

/-! ### Leaving the Scope -/

/-- The sub-task is in the pool or running. -/
def SubPC.live : SubPC → Bool
  | .pending | .done _ | .threw => false
  | _ => true

/-- `run` has been left, by return or by an exception. -/
def State.left (s : State) : Bool := s.pc = .returned ∨ s.pc = .threw

/-- No sub-task outlives `run`. -/
def Contained (s : State) : Prop := s.left → ∀ pc ∈ s.subs, pc.live = false

/-- The step throws the exception of a sub-task out of `run` while a later
    one is queued or running. -/
def abandons (s : State) : RunLabel → Bool
  | .work (.main .tau) =>
      match s.pc with
      | .join i => s.subs[i]? = some .threw && (s.subs.drop (i + 1)).any SubPC.live
      | _ => false
  | _ => false

/-- A sub-task that takes a step is running. -/
theorem live_of_sub {i : ℕ} {l : Label} (hs : next parse reg s (.sub i l) = some s') :
    ∃ pc ∈ s.subs, pc.live = true := by
  obtain ⟨-, -, pc, pc', hpc, -, hpending, hthrew, hdone, -⟩ := sub_cases hs
  refine ⟨pc, List.mem_of_getElem? hpc, ?_⟩
  cases pc
  case pending => exact absurd rfl hpending
  case threw => exact absurd rfl hthrew
  case done b => exact absurd rfl (hdone b)
  all_goals rfl

/-- Before the sub-tasks are submitted none is queued. -/
theorem Loops.none_live_of_unsubmitted (hi : Loops s) (hpc : s.pc.unsubmitted = some 0) :
    ∀ pc ∈ s.subs, pc.live = false := by
  intro pc hmem
  obtain ⟨j, hj⟩ := List.mem_iff_getElem?.mp hmem
  rw [hi.unsubmitted 0 hpc j (Nat.zero_le j) pc hj]
  rfl

/-- After the loop all sub-tasks are done. -/
theorem Loops.none_live_of_joined (hi : Loops s) (hpc : s.pc.joined s.subs.length = s.subs.length) :
    ∀ pc ∈ s.subs, pc.live = false := by
  intro pc hmem
  obtain ⟨j, hj⟩ := List.mem_iff_getElem?.mp hmem
  have hlt : j < s.subs.length := (List.getElem?_eq_some_iff.mp hj).1
  obtain ⟨b, hb⟩ := hi.joined j (by rw [hpc]; exact hlt)
  rw [hj, Option.some.injEq] at hb
  rw [hb]
  rfl

/-- In the loop the sub-tasks in front are done, so that those behind
    decide. -/
theorem Loops.live_iff_of_joinRaises {i : ℕ} (hi : Loops s) (hpc : s.pc = .join i)
    (hthrew : s.subs[i]? = some .threw) :
    (∀ pc ∈ s.subs, pc.live = false) ↔ (s.subs.drop (i + 1)).any SubPC.live = false := by
  rw [List.any_eq_false]
  constructor
  · intro hall pc hmem
    simpa using hall pc (List.mem_of_mem_drop hmem)
  · intro hdrop pc hmem
    obtain ⟨j, hj⟩ := List.mem_iff_getElem?.mp hmem
    obtain hlt | rfl | hgt := Nat.lt_trichotomy j i
    · obtain ⟨b, hb⟩ := hi.joined j (by rw [hpc]; exact hlt)
      rw [hj, Option.some.injEq] at hb
      rw [hb]
      rfl
    · rw [hj, Option.some.injEq] at hthrew
      rw [hthrew]
      rfl
    · have hmem' : pc ∈ s.subs.drop (i + 1) := by
        rw [List.mem_iff_getElem?]
        refine ⟨j - (i + 1), ?_⟩
        rw [List.getElem?_drop, show i + 1 + (j - (i + 1)) = j by omega]
        exact hj
      simpa using hdrop pc hmem'

/-- **Step lemma**: exactly the steps that abandon a sub-task let one
    outlive `run`. -/
theorem Contained.step {a : RunLabel} (hi : Loops s) (hc : Contained s)
    (hs : runNext parse reg s a = some s') : Contained s' ↔ abandons s a = false := by
  cases a with
  | cancel =>
    cases hs
    exact ⟨fun _ => rfl, fun _ => hc⟩
  | work a =>
    cases a with
    | sub i l =>
      refine ⟨fun _ => rfl, fun _ hleft => ?_⟩
      -- the sub-task that moves is running, so `run` has not been left
      have hs' : next parse reg s (.sub i l) = some s' := hs
      obtain ⟨hpc, -⟩ := sub_cases hs'
      obtain ⟨pc, hmem, hlive⟩ := live_of_sub hs'
      have hleft' : s.left := by simpa [State.left, hpc] using hleft
      simp [hc hleft' pc hmem] at hlive
    | main l =>
      cases mainMoves_of_next hs
      case decomposeCompleteRaises | decomposeGetRaises =>
        exact ⟨fun _ => rfl, fun _ _ => hi.none_live_of_unsubmitted rfl⟩
      case reduceCompleteRaises | reduceGetRaises =>
        exact ⟨fun _ => rfl, fun _ _ => hi.none_live_of_joined rfl⟩
      case exitLast => exact ⟨fun _ => rfl, fun _ _ => hi.none_live_of_joined rfl⟩
      case joinRaises i hthrew =>
        simpa [Contained, State.left, abandons, hthrew] using hi.live_iff_of_joinRaises rfl hthrew
      case join hdone => simp [Contained, State.left, abandons, hdone]
      case joined hend => simp [Contained, State.left, abandons, hend]
      all_goals simp [Contained, State.left, abandons]

/-- When no sub-task is queued or running, none can take a step. -/
theorem Contained.no_step (hc : Contained s) (hleft : s.left) (i : ℕ) (l : Label) :
    next parse reg s (.sub i l) = none := by
  cases hs : next parse reg s (.sub i l) with
  | none => rfl
  | some s' =>
    obtain ⟨pc, hmem, hlive⟩ := live_of_sub hs
    simp [hc hleft pc hmem] at hlive

/-- **No sub-task outlives `run`**, in every state on the way of a run, if
    and only if in each of its steps in which the loop meets an exception
    no later sub-task is queued or running. Then nothing uses the scope of
    `run` after its end. -/
theorem subtasks_joined {tr : List RunLabel} (hrun : (system parse reg x).Run tr s) :
    (∀ tr' s', tr' <+: tr → (system parse reg x).Run tr' s' → s'.left →
      (∀ pc ∈ s'.subs, pc.live = false) ∧ ∀ i l, next parse reg s' (.sub i l) = none) ↔
      ((system parse reg x).restrict fun s a => abandons s a = false).Run tr s := by
  have hinit : ∀ s, (system parse reg x).init s → Contained s := by
    rintro s rfl
    simp [Contained, State.left, start]
  have hiff := (System.deterministic_ofNext (start x) (runNext parse reg)).always_iff hinit
    (fun s a s' hreach hc hs => hc.step (loops_run hreach.choose_spec) hs) hrun
  refine Iff.trans ?_ hiff
  constructor
  · intro hall tr' s' hpre hrun' hleft
    exact (hall tr' s' hpre hrun' hleft).1
  · intro hall tr' s' hpre hrun' hleft
    have hc : Contained s' := hall tr' s' hpre hrun'
    exact ⟨hc hleft, hc.no_step hleft⟩

/-! ### Two Sub-Tasks -/

/-- A response that decomposes a request into two sub-tasks. -/
def twoTasks : String :=
  "\x7b\"tasks\": [\x7b\"description\": \"a\"\x7d, \x7b\"description\": \"b\"\x7d]\x7d"

def parseTwoTasks (text : String) : Option Json :=
  if text = twoTasks then
    some (.object [("tasks", .array [.object [("description", .string "a")],
      .object [("description", .string "b")]])])
  else none

/-- The two sub-tasks are submitted. -/
def submitsTwo : List RunLabel :=
  [.work (.main .tau), .work (.main .tau),
    .work (.main (.reply { message := { role := "assistant", content := twoTasks } })),
    .work (.main .tau), .work (.main .tau), .work (.main .tau), .work (.main .tau)]

/-- The `i`-th sub-task runs; its first LLM future holds an exception. -/
def fails (i : ℕ) : List RunLabel :=
  [.work (.sub i .tau), .work (.sub i .tau), .work (.sub i (.now 0)), .work (.sub i .tau),
    .work (.sub i .tau), .work (.sub i .tau), .work (.sub i (.now 1)), .work (.sub i .tau),
    .work (.sub i .tau), .work (.sub i .tau), .work (.sub i .raise)]

/-- The first sub-task fails before the second one is started. -/
theorem second_subtask_outlives_run :
    ¬ ∀ (parse : String → Option Json) (reg : ToolRegistry) (x : Session) (tr : List RunLabel)
      (s : State), x.state.terminal = false → (system parse reg x).Run tr s → s.left →
      ∀ pc ∈ s.subs, pc.live = false := by
  intro hall
  have hends : (System.exec (runNext parseTwoTasks ⟨[]⟩) (start (Session.new 1 {} 0))
      (submitsTwo ++ fails 0 ++ [.work (.main .tau)])).map (fun s => (s.left, s.subs)) =
      some (true, [.threw, .checkCancel]) := by decide
  obtain ⟨s, hrun, hends⟩ := System.exists_run_of_exec hends
  simp only [Prod.mk.injEq] at hends
  have hdead := hall parseTwoTasks ⟨[]⟩ (Session.new 1 {} 0) _ s rfl hrun
    hends.1 .checkCancel (by rw [hends.2]; decide)
  exact absurd hdead (by decide)

/-- Both sub-tasks fail before the loop meets an exception. -/
theorem both_failed_joined :
    ∃ s, (system parseTwoTasks ⟨[]⟩ (Session.new 1 {} 0)).Run
      (submitsTwo ++ fails 0 ++ fails 1 ++ [.work (.main .tau)]) s ∧ s.left ∧
      ∀ pc ∈ s.subs, pc.live = false := by
  have hends : (System.exec (fun s a => if !abandons s a then runNext parseTwoTasks ⟨[]⟩ s a
      else none) (start (Session.new 1 {} 0))
      (submitsTwo ++ fails 0 ++ fails 1 ++ [.work (.main .tau)])).map State.left =
      some true := by decide
  obtain ⟨s, hok, hends⟩ := System.exists_run_restrict_of_exec hends
  simp only [Bool.not_eq_true'] at hok
  have hrun := hok.of_restrict
  exact ⟨s, hrun, hends, ((subtasks_joined hrun).mpr hok _ s List.prefix_rfl hrun hends).1⟩

end MapReduceWorkflow

end Forge
