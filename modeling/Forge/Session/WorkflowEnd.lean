import Forge.Session.WorkflowRun
import Forge.Workflow.MapReduceSequential

/-! # Every Workflow Ends

  Each of the workflows, with an LLM and tools that answer without an
  exception, and a clock that may read anything:

  - `Ready`: what holds as long as no exception is raised;
  - `rank`: every step of the workflow goes down;
  - `Ready.exists_next`: there is a step until `run` has returned;
  - `WorkflowState.ends`: the rule for a system in which a workflow runs.
-/

namespace Forge

open LTS

open Workflow (Label Exit)

open MapReduceWorkflow (Action)

/-! ### ReAct -/

namespace ReActWorkflow

variable {env : Surroundings} {reg : ToolRegistry} {s s' : State} {l : Label}

/-- A run that has not thrown, within its iterations. -/
structure Live (s : State) : Prop where
  quiet : s.pc ≠ .threw
  maxIterations : s.session.config.maxIterations < 2 ^ 32
  counts : s.pc.Counts s.session

theorem Live.step (hr : Live s) (hs : Moves reg s l s') (hquiet : s'.pc ≠ .threw) : Live s' where
  quiet := hquiet
  maxIterations := by
    rw [config_eq hs]
    exact hr.maxIterations
  counts := (hr.counts.step hr.maxIterations hs).1

/-- The label of the next step reads the clock at that time. -/
theorem time_of_answer {t t' : ℕ} (h : s.answer env reg t = .now t') : t' = t := by
  unfold State.answer at h
  split at h <;> cases h
  rfl

end ReActWorkflow

/-! ### Plan-and-Execute -/

namespace PlanExecuteWorkflow

variable {parse : String → Option Json} {reg : ToolRegistry} {env : Surroundings} {s s' : State}
  {l : Label}

/-- The plan step that is under way. -/
def PC.step? : PC → Option ℕ
  | .countStep i | .createSub i | .runSub i _ => some i
  | _ => none

structure Ready (s : State) : Prop where
  quiet : s.pc ≠ .threw
  maxIterations : s.session.config.maxIterations < 2 ^ 32
  step : ∀ i, s.pc.step? = some i → i < s.steps.length
  sub : ∀ i sub, s.pc = .runSub i sub → ReActWorkflow.Live sub

theorem config_eq (hs : Moves parse reg s l s') : s'.session.config = s.session.config := by
  cases hs
  case exitNext e _ _ | exitLast e _ => cases e <;> rfl
  all_goals rfl

theorem Ready.next (hr : Ready s) (hs : Moves parse reg s l s') (hquiet : s'.pc ≠ .threw) :
    Ready s' := by
  have hmax : s'.session.config.maxIterations < 2 ^ 32 := by
    rw [config_eq hs]
    exact hr.maxIterations
  have hstep := hr.step
  cases hs
  case notCancelled i hi hcancel => exact ⟨hquiet, hmax, by simpa [PC.step?] using hi, by simp⟩
  case countStep i =>
    exact ⟨hquiet, hmax, by simpa [PC.step?] using hstep i rfl, by simp⟩
  case createSub i step t hi =>
    refine ⟨hquiet, hmax, by simpa [PC.step?] using hstep i rfl, ?_⟩
    rintro _ _ ⟨⟩
    exact ⟨by simp [ReActWorkflow.start], hr.maxIterations, Nat.zero_le _⟩
  case sub i sub sub' hthrew hmoves =>
    refine ⟨hquiet, hmax, by simpa [PC.step?] using hstep i rfl, ?_⟩
    rintro _ _ ⟨⟩
    exact (hr.sub i sub rfl).step hmoves hthrew
  all_goals exact ⟨hquiet, hmax, by simp [PC.step?], by simp⟩

/-- The label of the next step, at time `t`. -/
def State.answer (env : Surroundings) (reg : ToolRegistry) (t : ℕ) (s : State) : Label :=
  match s.pc with
  | .planGet | .synthesizeGet => .reply (env.llm s.request [])
  | .createSub _ => .now t
  | .runSub _ sub => sub.answer env reg t
  | _ => .tau

theorem time_of_answer {t t' : ℕ} (h : s.answer env reg t = .now t') : t' = t := by
  unfold State.answer at h
  split at h
  case h_4 => exact ReActWorkflow.time_of_answer h
  all_goals cases h
  all_goals rfl

theorem answer_not_raises {t : ℕ} (s : State) : raises reg s (s.answer env reg t) = false := by
  obtain ⟨pc, x, res, steps⟩ := s
  cases pc
  case runSub i sub => exact ReActWorkflow.answer_not_raises sub
  all_goals rfl

/-- Until `run` has returned it can take a step, whatever the time. -/
theorem Ready.isSome (hr : Ready s) (hret : s.pc ≠ .returned) (t : ℕ) :
    (PlanExecuteWorkflow.next parse reg s (s.answer env reg t)).isSome := by
  obtain ⟨pc, x, res, steps⟩ := s
  cases pc
  case createSub i =>
    have hi : i < steps.length := hr.step i rfl
    simp [PlanExecuteWorkflow.next, State.answer, hi]
  case runSub i sub =>
    have hi : i < steps.length := hr.step i rfl
    by_cases hsub : sub.pc = .returned
    · simp [PlanExecuteWorkflow.next, State.answer, ReActWorkflow.State.answer, hsub, hi]
    · have hgoing := (hr.sub i sub rfl).quiet
      have hsome : (ReActWorkflow.next reg sub (sub.answer env reg t)).isSome :=
        (ReActWorkflow.next_of_offers (ReActWorkflow.answer_offers hsub hgoing)).2
      obtain ⟨sub', hsub'⟩ := Option.isSome_iff_exists.mp hsome
      simp [PlanExecuteWorkflow.next, State.answer, hsub, hsub']
  case returned => exact absurd rfl hret
  case threw => exact absurd rfl hr.quiet
  all_goals rfl

/-- How far `run` is. -/
def PC.order : PC → ℕ
  | .storeWaiting => 9
  | .planComplete => 8
  | .planGet => 7
  | .storeExecuting => 6
  | .stepHead _ | .countStep _ | .createSub _ | .runSub _ _ => 5
  | .storeSynthesizing => 4
  | .synthesizeComplete => 3
  | .synthesizeGet => 2
  | .exit _ => 1
  | .returned | .threw => 0

/-- What is left of the loop over `n` plan steps, or of the way out. -/
def PC.left (n : ℕ) : PC → ℕ
  | .stepHead i | .countStep i | .createSub i | .runSub i _ => n - i
  | .exit e => MapReduceWorkflow.exitLeft e
  | _ => 0

/-- How far a plan step is. -/
def PC.stepOrder : PC → ℕ
  | .stepHead _ => 3
  | .countStep _ => 2
  | .createSub _ => 1
  | _ => 0

def PC.subRank : PC → ℕ ×ₗ ℕ ×ₗ ℕ
  | .runSub _ sub => sub.rank
  | _ => toLex (0, toLex (0, 0))

/-- The way of `run`, then the plan steps, then the way through one. -/
def State.rank (s : State) : ℕ ×ₗ ℕ ×ₗ ℕ ×ₗ ℕ ×ₗ ℕ ×ₗ ℕ :=
  toLex (s.pc.order, toLex (s.pc.left s.steps.length, toLex (s.pc.stepOrder, s.pc.subRank)))

theorem rank_lt_of_order (h : s'.pc.order < s.pc.order) : s'.rank < s.rank :=
  Prod.Lex.lt_iff.mpr (.inl h)

theorem rank_lt_of_left (horder : s'.pc.order = s.pc.order)
    (h : s'.pc.left s'.steps.length < s.pc.left s.steps.length) : s'.rank < s.rank :=
  Prod.Lex.lt_iff.mpr (.inr ⟨horder, Prod.Lex.lt_iff.mpr (.inl h)⟩)

theorem rank_lt_of_step (horder : s'.pc.order = s.pc.order)
    (hleft : s'.pc.left s'.steps.length = s.pc.left s.steps.length)
    (h : toLex (s'.pc.stepOrder, s'.pc.subRank) < toLex (s.pc.stepOrder, s.pc.subRank)) :
    s'.rank < s.rank :=
  Prod.Lex.lt_iff.mpr (.inr ⟨horder, Prod.Lex.lt_iff.mpr (.inr ⟨hleft, h⟩)⟩)

/-- Every step of `run` goes down. -/
theorem Ready.rank_lt (hr : Ready s) (hs : Moves parse reg s l s') : s'.rank < s.rank := by
  have hstep := hr.step
  cases hs
  case notCancelled | countStep | createSub =>
    exact rank_lt_of_step rfl rfl (Prod.Lex.lt_iff.mpr (.inl (by simp [PC.stepOrder])))
  case sub i sub sub' hthrew hmoves =>
    have hsub := hr.sub i sub rfl
    refine rank_lt_of_step rfl rfl (Prod.Lex.lt_iff.mpr (.inr ⟨rfl, ?_⟩))
    exact ReActWorkflow.rank_lt hsub.maxIterations hsub.counts hmoves
  case subReturned x res steps i sub step hret hi =>
    refine rank_lt_of_left rfl ?_
    show (steps.set i _).length - (i + 1) < steps.length - i
    have hlt : i < steps.length := hstep i rfl
    rw [List.length_set]
    omega
  case exitNext e e' hnext =>
    refine rank_lt_of_left rfl ?_
    show MapReduceWorkflow.exitLeft e' < MapReduceWorkflow.exitLeft e
    cases e <;> cases hnext <;> simp [MapReduceWorkflow.exitLeft]
  all_goals exact rank_lt_of_order (by simp [PC.order])

end PlanExecuteWorkflow

/-! ### Map-Reduce -/

namespace MapReduceWorkflow

variable {env : Surroundings} {reg : ToolRegistry} {s : State} {actor : Actor} {t t' i : ℕ}

theorem time_of_answer (h : s.answer env reg t actor = .sub i (.now t')) : t' = t := by
  cases actor with
  | main => cases h
  | sub j =>
    simp only [State.answer] at h
    cases hpc : s.subs[j]? with
    | none =>
      rw [hpc] at h
      cases h
    | some pc =>
      rw [hpc] at h
      cases pc
      case runSub sub =>
        injection h with hi hl
        exact ReActWorkflow.time_of_answer hl
      all_goals cases h
      all_goals rfl

theorem main_time_of_answer (h : s.answer env reg t actor = .main (.now t')) : t' = t := by
  cases actor with
  | main =>
    simp only [State.answer, Action.main.injEq] at h
    unfold State.mainAnswer at h
    split at h <;> cases h
  | sub j =>
    simp only [State.answer] at h
    split at h <;> cases h

end MapReduceWorkflow

/-! ### The Three Workflows Alike -/

/-- The clock reading in a label. -/
def MapReduceWorkflow.Action.time? : Action → Option ℕ
  | .main (.now t) | .sub _ (.now t) => some t
  | _ => none

namespace WorkflowState

variable {parse : String → Option Json} {reg : ToolRegistry} {w w' : WorkflowState} {a : Action}
  {x : Session}

/-- No exception has been raised, and the counters keep to the bounds. -/
def Ready : WorkflowState → Prop
  | .react s => ReActWorkflow.Live s
  | .planExecute s => PlanExecuteWorkflow.Ready s
  | .mapReduce s => MapReduceWorkflow.Ready s

theorem ready_start (kind : WorkflowKind) (hx : x.Fresh) : (start kind x).Ready := by
  cases kind with
  | react =>
    refine ⟨by simp [ReActWorkflow.start], hx.maxIterations, ?_⟩
    show x.stepCount ≤ x.config.maxIterations
    rw [hx.stepCount]
    exact Nat.zero_le _
  | planExecute =>
    exact ⟨by simp [PlanExecuteWorkflow.start], hx.maxIterations,
      by simp [PlanExecuteWorkflow.start, PlanExecuteWorkflow.PC.step?],
      by simp [PlanExecuteWorkflow.start]⟩
  | mapReduce => exact MapReduceWorkflow.ready_start hx.state hx.maxIterations

/-- A step that raises no exception. -/
theorem Ready.step (hr : w.Ready) (hs : w.next parse reg a = some w')
    (hquiet : w.raises reg a = false) : w'.Ready := by
  obtain ⟨s, s', l, rfl, rfl, rfl, hs'⟩ | ⟨s, s', l, rfl, rfl, rfl, hs'⟩ | ⟨s, s', rfl, rfl, hs'⟩ :=
    next_cases hs
  · have hthrew : s'.pc ≠ .threw := by
      rw [Ne, ReActWorkflow.threw_iff hs']
      simpa [raises] using hquiet
    exact ReActWorkflow.Live.step hr hs' hthrew
  · have hthrew : s'.pc ≠ .threw := by
      rw [Ne, PlanExecuteWorkflow.threw_iff hs']
      simpa [raises] using hquiet
    exact PlanExecuteWorkflow.Ready.next hr hs' hthrew
  · have hready : MapReduceWorkflow.Ready s := hr
    have hthrew : ¬MapReduceWorkflow.Raised s' := by
      rw [MapReduceWorkflow.raised_step hready.inv.toLoops hs', not_or]
      exact ⟨hready.quiet, by simpa [raises] using hquiet⟩
    cases a with
    | main l => exact hready.main hs' hthrew
    | sub i l => exact hready.sub_turn hs' hthrew

theorem Ready.cancel (hr : w.Ready) : (w.mapSession SessionTask.cancelRequest).Ready := by
  cases w with
  | react s =>
    refine ⟨hr.quiet, hr.maxIterations, ?_⟩
    have hcounts := hr.counts
    cases hpc : s.pc <;> rw [hpc] at hcounts <;> exact hcounts
  | planExecute s =>
    have hready : PlanExecuteWorkflow.Ready s := hr
    exact ⟨hready.quiet, hready.maxIterations, hready.step, hready.sub⟩
  | mapReduce s =>
    exact ⟨⟨⟨hr.inv.joined, hr.inv.unsubmitted⟩, hr.inv.session⟩, hr.lengths, hr.quiet,
      hr.pending, hr.maxIterations, hr.sub⟩

/-- Until `run` has returned there is a step, whatever the LLM and the
    tools answer and the clock reads. -/
theorem Ready.exists_next (hr : w.Ready) (hret : ¬w.isReturned) (env : Surroundings) (t : ℕ) :
    ∃ a w', w.next parse reg a = some w' ∧ w.raises reg a = false ∧
      ∀ t', a.time? = some t' → t' = t := by
  cases w with
  | react s =>
    have hpc : s.pc ≠ .returned := by simpa [isReturned] using hret
    have hoffers : s.Offers (s.answer env reg t) :=
      ReActWorkflow.answer_offers hpc (ReActWorkflow.Live.quiet hr)
    obtain ⟨hquiet, hsome⟩ : ReActWorkflow.raises reg s (s.answer env reg t) = false ∧
        (ReActWorkflow.next reg s (s.answer env reg t)).isSome :=
      ReActWorkflow.next_of_offers hoffers
    obtain ⟨s', hs⟩ := Option.isSome_iff_exists.mp hsome
    refine ⟨.main (s.answer env reg t), .react s', by simp [next, hs], hquiet, ?_⟩
    intro t' ht'
    cases hl : s.answer env reg t <;> rw [hl] at ht' <;> cases ht'
    exact ReActWorkflow.time_of_answer hl
  | planExecute s =>
    have hpc : s.pc ≠ .returned := by simpa [isReturned] using hret
    have hsome : (PlanExecuteWorkflow.next parse reg s (s.answer env reg t)).isSome :=
      PlanExecuteWorkflow.Ready.isSome hr hpc t
    obtain ⟨s', hs⟩ := Option.isSome_iff_exists.mp hsome
    refine ⟨.main (s.answer env reg t), .planExecute s', by simp [next, hs],
      PlanExecuteWorkflow.answer_not_raises s, ?_⟩
    intro t' ht'
    cases hl : s.answer env reg t <;> rw [hl] at ht' <;> cases ht'
    exact PlanExecuteWorkflow.time_of_answer hl
  | mapReduce s =>
    have hpc : s.pc ≠ .returned := by simpa [isReturned] using hret
    have hready : MapReduceWorkflow.Ready s := hr
    obtain ⟨actor, -, hsome⟩ : ∃ actor,
        (∀ i, actor = .sub i → ∀ j < i, ∃ b, s.subs[j]? = some (.done b)) ∧
          ∀ t, (MapReduceWorkflow.turnNext parse reg env s ⟨actor, t⟩).isSome :=
      hready.exists_actor hpc
    obtain ⟨s', hs⟩ := Option.isSome_iff_exists.mp (hsome t)
    have hnext : MapReduceWorkflow.next parse reg s (s.answer env reg t actor) = some s' := hs
    refine ⟨s.answer env reg t actor, .mapReduce s', by simp [next, hnext],
      MapReduceWorkflow.answer_not_raises s actor t, ?_⟩
    intro t' ht'
    cases hl : s.answer env reg t actor with
    | main l =>
      rw [hl] at ht'
      cases l <;> cases ht'
      exact MapReduceWorkflow.main_time_of_answer hl
    | sub i l =>
      rw [hl] at ht'
      cases l <;> cases ht'
      exact MapReduceWorkflow.time_of_answer hl

/-- The rank of each workflow. -/
def rank : WorkflowState → (ℕ ×ₗ ℕ ×ₗ ℕ) ⊕ (ℕ ×ₗ ℕ ×ₗ ℕ ×ₗ ℕ ×ₗ ℕ ×ₗ ℕ) ⊕
    ((ℕ ×ₗ ℕ) × Multiset (ℕ ×ₗ ℕ ×ₗ ℕ ×ₗ ℕ))
  | .react s => .inl s.rank
  | .planExecute s => .inr (.inl s.rank)
  | .mapReduce s => .inr (.inr s.rank)

def Below : (ℕ ×ₗ ℕ ×ₗ ℕ) ⊕ (ℕ ×ₗ ℕ ×ₗ ℕ ×ₗ ℕ ×ₗ ℕ ×ₗ ℕ) ⊕
    ((ℕ ×ₗ ℕ) × Multiset (ℕ ×ₗ ℕ ×ₗ ℕ ×ₗ ℕ)) →
    (ℕ ×ₗ ℕ ×ₗ ℕ) ⊕ (ℕ ×ₗ ℕ ×ₗ ℕ ×ₗ ℕ ×ₗ ℕ ×ₗ ℕ) ⊕
    ((ℕ ×ₗ ℕ) × Multiset (ℕ ×ₗ ℕ ×ₗ ℕ ×ₗ ℕ)) → Prop :=
  Sum.Lex (· < ·) (Sum.Lex (· < ·) MapReduceWorkflow.Below)

theorem below_wf : WellFounded Below :=
  Sum.lex_wf wellFounded_lt (Sum.lex_wf wellFounded_lt MapReduceWorkflow.below_wf)

/-- Every step of a workflow goes down. -/
theorem Ready.below (hr : w.Ready) (hs : w.next parse reg a = some w') :
    Below w'.rank w.rank := by
  obtain ⟨s, s', l, rfl, rfl, rfl, hs'⟩ | ⟨s, s', l, rfl, rfl, rfl, hs'⟩ | ⟨s, s', rfl, rfl, hs'⟩ :=
    next_cases hs
  · have hlive : ReActWorkflow.Live s := hr
    exact .inl (ReActWorkflow.rank_lt hlive.maxIterations hlive.counts hs')
  · exact .inr (.inl (PlanExecuteWorkflow.Ready.rank_lt hr hs'))
  · have hready : MapReduceWorkflow.Ready s := hr
    refine .inr (.inr ?_)
    cases a with
    | main l =>
      exact MapReduceWorkflow.rank_main hready.lengths (MapReduceWorkflow.mainMoves_of_next hs')
    | sub i l => exact hready.rank_sub (MapReduceWorkflow.subMoves_of_next hs')

theorem rank_cancel (w : WorkflowState) :
    (w.mapSession SessionTask.cancelRequest).rank = w.rank := by
  cases w <;> rfl

/-- An LLM and tools that have nothing to say. -/
def silent : Surroundings where
  llm := fun _ _ => { message := { role := "assistant" } }
  tool := fun _ => .timeout
  tool_ne := by simp

variable (parse reg) in
/-- **A workflow ends.** In a system whose steps of interest are the steps
    of a workflow that raise no exception, and whose other steps are
    cancellations or leave the workflow alone, the workflow returns. -/
theorem ends {S L : Type} {sys : System S L} (view : S → WorkflowState) (clock : S → ℕ)
    {real : L → Prop} (hinit : ∀ s, sys.init s → (view s).Ready)
    (hreal : ∀ s l s', sys.step s l s' → real l →
      ∃ a, (view s).next parse reg a = some (view s') ∧ (view s).raises reg a = false)
    (hother : ∀ s l s', sys.step s l s' → ¬real l →
      view s' = view s ∨ view s' = (view s).mapSession SessionTask.cancelRequest)
    (hgoes : ∀ s a w', (view s).next parse reg a = some w' → (view s).raises reg a = false →
      (∀ t, a.time? = some t → t = clock s) → ∃ l s', real l ∧ sys.step s l s') :
    sys.Ends real fun s => (view s).isReturned := by
  have hready : ∀ s, sys.Reachable s → (view s).Ready := by
    intro s hs
    obtain ⟨tr, hrun⟩ := hs
    apply hrun.invariant (P := fun s => (view s).Ready) hinit
    intro s l s' hr hs
    by_cases hl : real l
    · obtain ⟨a, ha, hquiet⟩ := hreal s l s' hs hl
      exact hr.step ha hquiet
    · rcases hother s l s' hs hl with hsame | hcancel
      · rw [hsame]
        exact hr
      · rw [hcancel]
        exact hr.cancel
  refine ⟨?_, ?_⟩
  · intro st ls hend
    refine hend.stops below_wf (fun s => (view s).rank) real ?_ ?_
    · intro s l s' hs hstep hl
      obtain ⟨a, ha, -⟩ := hreal s l s' hstep hl
      exact (hready s hs).below ha
    · intro s l s' hs hstep hl
      rcases hother s l s' hstep hl with hsame | hcancel
      · rw [hsame]
      · rw [hcancel, rank_cancel]
  · intro s hs hret
    obtain ⟨a, w', ha, hquiet, htime⟩ : ∃ a w', (view s).next parse reg a = some w' ∧
        (view s).raises reg a = false ∧ ∀ t', a.time? = some t' → t' = clock s :=
      (hready s hs).exists_next hret silent (clock s)
    exact hgoes s a w' ha hquiet htime

end WorkflowState

end Forge
