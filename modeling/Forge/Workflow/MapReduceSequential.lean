import Forge.Framework.Termination
import Forge.Workflow.MapReduceSchedule
import Forge.Workflow.ReActRun

/-! # Sub-Tasks One after Another

  Every schedule of a map-reduce run ends, among them the one in which the
  sub-tasks are run one after another:

  - `Ready`: what holds at every point of a schedule;
  - `exists_actor`: as long as `run` has not returned, `run` or the first
    sub-task that is not done can take a turn;
  - `State.rank`: every turn goes down, so that the schedule in which the
    sub-tasks are run one after another returns (`sequential_returns`) and
    none goes on for ever (`not_endless`).
-/

namespace Forge

open LTS

open Workflow (Label Exit)

namespace ReActWorkflow

variable {env : Surroundings} {reg : ToolRegistry} {s : State} {t : ℕ}

/-- The surroundings answer what they are asked. -/
theorem answer_offers (hret : s.pc ≠ .returned) (hthrew : s.pc ≠ .threw) :
    s.Offers (s.answer env reg t) := by
  obtain ⟨pc, x, res⟩ := s
  cases pc
  case get => exact ⟨_, rfl⟩
  case checkTimeout => exact ⟨t, rfl⟩
  case executeBatch calls =>
    refine ⟨calls.map env.tool, rfl, by simp, ?_⟩
    intro hmem
    obtain ⟨call, -, hcall⟩ := List.mem_map.mp hmem
    exact env.tool_ne call hcall
  case returned => exact absurd rfl hret
  case threw => exact absurd rfl hthrew
  all_goals rfl

theorem answer_not_raises (s : State) : raises reg s (s.answer env reg t) = false := by
  by_cases hret : s.pc = .returned
  · simp [raises, hret]
  by_cases hthrew : s.pc = .threw
  · simp [raises, hthrew]
  exact (next_of_offers (answer_offers hret hthrew)).1

end ReActWorkflow

namespace MapReduceWorkflow

variable {parse : String → Option Json} {reg : ToolRegistry} {env : Surroundings} {x : Session}
  {s s' : State}

/-! ### Turns Are There -/

/-- What the turns need. -/
structure Ready (s : State) : Prop where
  inv : Inv s
  lengths : s.subs.length = s.tasks.length
  quiet : ¬Raised s
  /-- A sub-task that is not submitted is one `run` will submit. -/
  pending : ∀ j, s.subs[j]? = some .pending → ∃ i, s.pc.unsubmitted = some i ∧ i ≤ j
  maxIterations : s.session.config.maxIterations < 2 ^ 32
  sub : ∀ sub, .runSub sub ∈ s.subs → sub.pc ≠ .threw ∧
    sub.session.config = s.session.config ∧ sub.pc.Counts sub.session

/-- No turn raises an exception. -/
theorem answer_not_raises (s : State) (actor : Actor) (t : ℕ) :
    raises reg s (s.answer env reg t actor) = false := by
  cases actor with
  | main =>
    cases hpc : s.pc <;> simp [raises, State.answer, State.mainAnswer, hpc]
  | sub i =>
    simp only [State.answer]
    cases hpc : s.subs[i]? with
    | none => simp [raises, hpc]
    | some pc =>
      cases pc <;> simp [raises, hpc, SubPC.answer, ReActWorkflow.answer_not_raises]

theorem ready_start (hx : x.state.terminal = false) (hmax : x.config.maxIterations < 2 ^ 32) :
    Ready (start x) where
  inv := inv_start hx
  lengths := rfl
  quiet := by simp [Raised, start]
  pending := by simp [start]
  maxIterations := hmax
  sub := by simp [start]

/-- `run` submits what is pending. -/
theorem Ready.main_pending {l : Label} (hr : Ready s) (hs : MainMoves parse s l s')
    (hquiet : s'.pc ≠ .threw) :
    ∀ j, s'.subs[j]? = some .pending → ∃ i, s'.pc.unsubmitted = some i ∧ i ≤ j := by
  have hpending := hr.pending
  have hlen := hr.lengths
  intro j hj
  cases hs
  case storeWaiting | decomposeComplete | storeExecuting => exact ⟨0, rfl, Nat.zero_le j⟩
  case decomposed => exact ⟨0, rfl, Nat.zero_le j⟩
  case noTasks => simp at hj
  case submit i _ =>
    by_cases hij : i = j
    · subst hij
      rw [List.getElem?_set_self'] at hj
      simp at hj
    · rw [List.getElem?_set_ne hij] at hj
      obtain ⟨i', hi', hle⟩ := hpending j hj
      cases hi'
      exact ⟨i + 1, rfl, by omega⟩
  case submitted i hle =>
    -- the loop has gone through all sub-tasks
    have hlt := (List.getElem?_eq_some_iff.mp hj).1
    obtain ⟨i', hi', hle'⟩ := hpending j hj
    cases hi'
    simp only at hlen hlt
    omega
  case decomposeCompleteRaises | decomposeGetRaises => exact absurd rfl hquiet
  all_goals
    obtain ⟨i', hi', -⟩ := hpending j hj
    cases hi'

/-- There is one `SubPC` for each entry of `tasks`. -/
theorem lengths_main {l : Label} (hs : MainMoves parse s l s')
    (hlen : s.subs.length = s.tasks.length) : s'.subs.length = s'.tasks.length := by
  cases hs
  case noTasks => rfl
  case decomposed => simp
  case submit => simpa using hlen
  all_goals exact hlen

theorem lengths_sub {i : ℕ} {l : Label} (hs : SubMoves reg i s l s')
    (hlen : s.subs.length = s.tasks.length) : s'.subs.length = s'.tasks.length := by
  cases hs <;> simpa using hlen

theorem config_main {l : Label} (hs : MainMoves parse s l s') :
    s'.session.config = s.session.config := by
  cases hs
  case exitNext e _ _ | exitLast e _ => cases e <;> rfl
  all_goals rfl

/-- What changes the sub-tasks to others that have not run yet. -/
theorem Ready.sub_mono (hr : Ready s) (hconfig : s'.session.config = s.session.config)
    (hsubs : ∀ sub, .runSub sub ∈ s'.subs → .runSub sub ∈ s.subs) :
    ∀ sub, .runSub sub ∈ s'.subs → sub.pc ≠ .threw ∧
      sub.session.config = s'.session.config ∧ sub.pc.Counts sub.session := by
  intro sub hmem
  rw [hconfig]
  exact hr.sub sub (hsubs sub hmem)

theorem Ready.main {l : Label} (hr : Ready s) (hs : mainNext parse s l = some s')
    (hquiet : ¬Raised s') : Ready s' := by
  have hmoves := mainMoves_of_next hs
  refine ⟨hr.inv.main hs, lengths_main hmoves hr.lengths, hquiet,
    hr.main_pending hmoves fun h => hquiet (.inl h), ?_, ?_⟩
  · rw [config_main hmoves]
    exact hr.maxIterations
  · refine hr.sub_mono (config_main hmoves) ?_
    cases hmoves
    case noTasks | decomposed => simp
    case submit =>
      intro sub hmem
      obtain hold | hnew := List.mem_or_eq_of_mem_set hmem
      · exact hold
      · cases hnew
    all_goals exact fun _ hmem => hmem

/-- A sub-task goes on as one that has been submitted, and with a session
    that counts its iterations. -/
theorem Ready.sub_pc {i : ℕ} {l : Label} (hr : Ready s) (hs : SubMoves reg i s l s') :
    ∃ pc', s'.subs = s.subs.set i pc' ∧ s'.pc = s.pc ∧
      s'.session.config = s.session.config ∧ pc' ≠ .pending ∧
      ∀ sub, pc' = .runSub sub → sub.pc ≠ .threw ∧ sub.session.config = s.session.config ∧
        sub.pc.Counts sub.session := by
  cases hs
  case createSub =>
    refine ⟨_, rfl, rfl, rfl, by simp, ?_⟩
    rintro sub ⟨⟩
    exact ⟨by simp [ReActWorkflow.start], rfl, Nat.zero_le _⟩
  case sub sub sub' hpc hthrew hmoves =>
    refine ⟨_, rfl, rfl, rfl, by simp, ?_⟩
    rintro _ ⟨⟩
    obtain ⟨-, hconfig, hcounts⟩ := hr.sub sub (List.mem_of_getElem? hpc)
    have hmax : sub.session.config.maxIterations < 2 ^ 32 := by
      rw [hconfig]
      exact hr.maxIterations
    exact ⟨hthrew, (ReActWorkflow.config_eq hmoves).trans hconfig, (hcounts.step hmax hmoves).1⟩
  all_goals exact ⟨_, rfl, rfl, rfl, by simp, by simp⟩

theorem Ready.sub_turn {i : ℕ} {l : Label} (hr : Ready s)
    (hs : next parse reg s (.sub i l) = some s') (hquiet : ¬Raised s') : Ready s' := by
  have hmoves := subMoves_of_next hs
  obtain ⟨pc', hsubs, hpc, hconfig, hne, hrun⟩ := hr.sub_pc hmoves
  refine ⟨hr.inv.sub hs, lengths_sub hmoves hr.lengths, hquiet, ?_, ?_, ?_⟩
  · intro j hj
    rw [hpc]
    rw [hsubs] at hj
    by_cases hij : i = j
    · subst hij
      have hlt := (List.getElem?_eq_some_iff.mp hj).1
      rw [List.length_set] at hlt
      rw [List.getElem?_set_self hlt, Option.some.injEq] at hj
      exact absurd hj hne
    · rw [List.getElem?_set_ne hij] at hj
      exact hr.pending j hj
  · rw [hconfig]
    exact hr.maxIterations
  · intro sub hmem
    rw [hsubs] at hmem
    rw [hconfig]
    obtain hold | hnew := List.mem_or_eq_of_mem_set hmem
    · exact hr.sub sub hold
    · exact hrun sub hnew.symm

theorem Ready.turn {turn : Turn} (hr : Ready s) (hs : turnNext parse reg env s turn = some s') :
    Ready s' := by
  have hquiet : ¬Raised s' := by
    have hraised : Raised s' ↔
        Raised s ∨ raises reg s (s.answer env reg turn.time turn.actor) :=
      raised_step hr.inv.toLoops hs
    rw [hraised, answer_not_raises]
    simpa using hr.quiet
  obtain ⟨actor, t⟩ := turn
  cases actor with
  | main => exact hr.main hs hquiet
  | sub i =>
    simp only [turnNext, State.answer] at hs
    split at hs
    · exact hr.sub_turn hs hquiet
    · exact hr.sub_turn hs hquiet

/-- The turns of a schedule in which the sub-tasks are run one after
    another, in the order of `tasks`. -/
def Sequential (s : State) (turn : Turn) : Prop :=
  ∀ i, turn.actor = .sub i → ∀ j < i, ∃ b, s.subs[j]? = some (.done b)

/-- A sub-task that is queued or running can take a turn, at any time. -/
theorem Ready.sub_isSome (hr : Ready s) {i t : ℕ} {pc : SubPC} (hpc : s.subs[i]? = some pc)
    (hpending : pc ≠ .pending) (hthrew : pc ≠ .threw) (hdone : ∀ b, pc ≠ .done b) :
    (turnNext parse reg env s ⟨.sub i, t⟩).isSome := by
  have hlt : i < s.tasks.length := by
    rw [← hr.lengths]
    exact (List.getElem?_eq_some_iff.mp hpc).1
  obtain ⟨task, htask⟩ : ∃ task, s.tasks[i]? = some task := ⟨_, List.getElem?_eq_getElem hlt⟩
  simp only [turnNext, State.answer, hpc, next, htask]
  cases pc
  case runSub sub =>
    by_cases hret : sub.pc = .returned
    · simp [subNext, SubPC.answer, ReActWorkflow.State.answer, hret]
    · have hgoing := (hr.sub sub (List.mem_of_getElem? hpc)).1
      have hsome : (ReActWorkflow.next reg sub (sub.answer env reg t)).isSome :=
        (ReActWorkflow.next_of_offers (ReActWorkflow.answer_offers hret hgoing)).2
      obtain ⟨sub', hsub'⟩ := Option.isSome_iff_exists.mp hsome
      simp [subNext, SubPC.answer, hret, hsub']
  case pending => exact absurd rfl hpending
  case threw => exact absurd rfl hthrew
  case done b => exact absurd rfl (hdone b)
  all_goals rfl

/-- As long as `run` has not returned, it can take a turn, or the first
    sub-task that is not done can, whatever the time. -/
theorem Ready.exists_actor (hr : Ready s) (hpc : s.pc ≠ .returned) :
    ∃ actor, (∀ i, actor = .sub i → ∀ j < i, ∃ b, s.subs[j]? = some (.done b)) ∧
      ∀ t, (turnNext parse reg env s ⟨actor, t⟩).isSome := by
  have hmain : (∀ t, (turnNext parse reg env s ⟨.main, t⟩).isSome) →
      ∃ actor, (∀ i, actor = .sub i → ∀ j < i, ∃ b, s.subs[j]? = some (.done b)) ∧
        ∀ t, (turnNext parse reg env s ⟨actor, t⟩).isSome := by
    intro hsome
    exact ⟨.main, by simp, hsome⟩
  cases hs : s.pc
  case join i =>
    cases hsub : s.subs[i]? with
    | none =>
      exact hmain (by simp [turnNext, State.answer, State.mainAnswer, hs, next, mainNext, hsub])
    | some pc =>
      by_cases hdone : ∃ b, pc = .done b
      · obtain ⟨b, rfl⟩ := hdone
        exact hmain (by simp [turnNext, State.answer, State.mainAnswer, hs, next, mainNext, hsub])
      · -- `run` waits for this sub-task
        have hpending : pc ≠ .pending := by
          rintro rfl
          obtain ⟨k, hk, -⟩ := hr.pending i hsub
          rw [hs] at hk
          cases hk
        have hthrew : pc ≠ .threw := by
          rintro rfl
          exact hr.quiet (.inr (List.mem_of_getElem? hsub))
        refine ⟨.sub i, ?_, fun t => hr.sub_isSome hsub hpending hthrew fun b h => hdone ⟨b, h⟩⟩
        rintro _ ⟨⟩ j hj
        exact hr.inv.joined j (by rw [hs]; exact hj)
  case returned => exact absurd hs hpc
  case threw => exact absurd (.inl hs) hr.quiet
  case submit i =>
    refine hmain ?_
    intro t
    simp only [turnNext, State.answer, State.mainAnswer, hs, next, mainNext]
    split <;> rfl
  all_goals exact hmain (by simp [turnNext, State.answer, State.mainAnswer, hs, next, mainNext])

/-- As long as `run` has not returned, there is a turn before every
    deadline. -/
theorem Ready.exists_turn (hr : Ready s) (hpc : s.pc ≠ .returned) :
    ∃ turn s', s.InTime turn ∧ Sequential s turn ∧ turnNext parse reg env s turn = some s' := by
  obtain ⟨actor, horder, hsome⟩ : ∃ actor,
      (∀ i, actor = .sub i → ∀ j < i, ∃ b, s.subs[j]? = some (.done b)) ∧
        ∀ t, (turnNext parse reg env s ⟨actor, t⟩).isSome := hr.exists_actor hpc
  obtain ⟨s', hturn⟩ := Option.isSome_iff_exists.mp (hsome 0)
  refine ⟨⟨actor, 0⟩, s', ?_, horder, hturn⟩
  intro i sub _ _ _
  exact Nat.zero_le _

/-! ### Turns Come to an End -/

/-- The statements left on the way out. -/
def exitLeft : Exit → ℕ
  | .setError _ _ | .setFinalAnswer _ => 2
  | .storeError _ | .storeCompleted _ => 1
  | .fillError | .fillAnswer _ => 0

/-- How far `run` is. -/
def PC.order : PC → ℕ
  | .storeWaiting => 11
  | .decomposeComplete => 10
  | .decomposeGet => 9
  | .storeExecuting => 8
  | .submit _ => 7
  | .join _ => 6
  | .checkCancel => 5
  | .storeReducing => 4
  | .reduceComplete => 3
  | .reduceGet => 2
  | .exit _ => 1
  | .returned | .threw => 0

/-- What is left of a loop over `n` sub-tasks, or of the way out. -/
def PC.left (n : ℕ) : PC → ℕ
  | .submit i | .join i => n - i
  | .exit e => exitLeft e
  | _ => 0

def SubPC.order : SubPC → ℕ
  | .pending => 7
  | .checkCancel => 6
  | .countStep => 5
  | .createSub => 4
  | .runSub _ => 3
  | .addTokens _ => 2
  | .writeResult _ => 1
  | .done _ | .threw => 0

def SubPC.rank (pc : SubPC) : ℕ ×ₗ ℕ ×ₗ ℕ ×ₗ ℕ :=
  toLex (pc.order, match pc with
    | .runSub sub => sub.rank
    | _ => toLex (0, toLex (0, 0)))

theorem SubPC.rank_lt_of_order {pc pc' : SubPC} (h : pc'.order < pc.order) : pc'.rank < pc.rank :=
  Prod.Lex.lt_iff.mpr (.inl h)

/-- The way of `run`, then those of the sub-tasks. -/
def State.rank (s : State) : (ℕ ×ₗ ℕ) × Multiset (ℕ ×ₗ ℕ ×ₗ ℕ ×ₗ ℕ) :=
  (toLex (s.pc.order, s.pc.left s.subs.length), listTotal (fun pc => {pc.rank}) s.subs)

/-- A turn of `run` goes down, a turn of a sub-task goes down with `run`
    where it is. -/
def Below : (ℕ ×ₗ ℕ) × Multiset (ℕ ×ₗ ℕ ×ₗ ℕ ×ₗ ℕ) →
    (ℕ ×ₗ ℕ) × Multiset (ℕ ×ₗ ℕ ×ₗ ℕ ×ₗ ℕ) → Prop :=
  Prod.Lex (· < ·) (Relation.CutExpand (· < ·))

theorem below_wf : WellFounded Below :=
  wellFounded_lt.prod_lex wellFounded_lt.cutExpand

theorem rank_main {l : Label} (hlen : s.subs.length = s.tasks.length)
    (hs : MainMoves parse s l s') :
    Below s'.rank s.rank := by
  refine Prod.Lex.left _ _ (Prod.Lex.lt_iff.mpr ?_)
  cases hs
  case submit x res tasks subs i hlt =>
    refine .inr ⟨rfl, ?_⟩
    show (subs.set i .checkCancel).length - (i + 1) < subs.length - i
    rw [List.length_set]
    simp only at hlen
    omega
  case join x res tasks subs i b hb =>
    refine .inr ⟨rfl, ?_⟩
    show subs.length - (i + 1) < subs.length - i
    have hlt := (List.getElem?_eq_some_iff.mp hb).1
    omega
  case exitNext e e' hnext =>
    refine .inr ⟨rfl, ?_⟩
    show exitLeft e' < exitLeft e
    cases e <;> cases hnext <;> simp [exitLeft]
  all_goals exact .inl (by simp [PC.order])

/-- A sub-task goes down. -/
theorem Ready.sub_rank_lt {i : ℕ} {l : Label} (hr : Ready s) (hs : SubMoves reg i s l s') :
    ∃ pc pc', s.subs[i]? = some pc ∧ s'.subs = s.subs.set i pc' ∧ s'.pc = s.pc ∧
      pc'.rank < pc.rank := by
  cases hs
  case sub sub sub' hpc hthrew hmoves =>
    refine ⟨_, _, hpc, rfl, rfl, Prod.Lex.lt_iff.mpr (.inr ⟨rfl, ?_⟩)⟩
    obtain ⟨-, hconfig, hcounts⟩ := hr.sub sub (List.mem_of_getElem? hpc)
    have hmax : sub.session.config.maxIterations < 2 ^ 32 := by
      rw [hconfig]
      exact hr.maxIterations
    exact ReActWorkflow.rank_lt hmax hcounts hmoves
  case cancelled hpc _ | notCancelled hpc _ | createSub hpc _ | writeResult hpc _ =>
    exact ⟨_, _, hpc, rfl, rfl, SubPC.rank_lt_of_order (by simp [SubPC.order])⟩
  case countStep hpc | addTokens hpc =>
    exact ⟨_, _, hpc, rfl, rfl, SubPC.rank_lt_of_order (by simp [SubPC.order])⟩
  case subRaises hpc _ _ | subReturned hpc _ =>
    exact ⟨_, _, hpc, rfl, rfl, SubPC.rank_lt_of_order (by simp [SubPC.order])⟩

theorem Ready.rank_sub {i : ℕ} {l : Label} (hr : Ready s) (hs : SubMoves reg i s l s') :
    Below s'.rank s.rank := by
  obtain ⟨pc, pc', hpc, hsubs, hsame, hlt⟩ := hr.sub_rank_lt hs
  unfold State.rank
  rw [hsubs, hsame, List.length_set]
  exact Prod.Lex.right _ (cutExpand_set SubPC.rank hpc hlt)

/-- **Every turn goes down.** -/
theorem Ready.rank_turn {turn : Turn} (hr : Ready s)
    (hs : turnNext parse reg env s turn = some s') : Below s'.rank s.rank := by
  obtain ⟨actor, t⟩ := turn
  cases actor with
  | main => exact rank_main hr.lengths (mainMoves_of_next hs)
  | sub i =>
    simp only [turnNext, State.answer] at hs
    split at hs
    · exact hr.rank_sub (subMoves_of_next hs)
    · exact hr.rank_sub (subMoves_of_next hs)

/-! ### All Sessions

  `run` overwrites the state of the session first, so that a session in a
  terminal state is run like a new one. -/

/-- The session before a workflow has touched its state. -/
def recreate (x : Session) : Session := { x with state := .created }

theorem first_turn {turn : Turn} :
    turnNext parse reg env (start (recreate x)) turn = turnNext parse reg env (start x) turn := by
  obtain ⟨actor, t⟩ := turn
  cases actor <;> rfl

/-- A run that has begun does not tell which state the session was in. -/
theorem schedule_recreate {tr : List Turn} (hrun : (schedule parse reg env x).Run tr s) :
    s = start x ∨ (schedule parse reg env (recreate x)).Run tr s := by
  have hfirst : ∀ s turn s', (schedule parse reg env x).init s →
      (schedule parse reg env x).step s turn s' →
      (schedule parse reg env (recreate x)).Run [turn] s' := by
    rintro s turn s' rfl ⟨-, hs⟩
    have hturn : turnNext parse reg env (start (recreate x)) turn = some s' :=
      first_turn.trans hs
    exact System.Run.snoc (.start rfl) ⟨by simp [State.InTime, start], hturn⟩
  obtain ⟨-, hinit⟩ | hrun' := hrun.reinit hfirst fun _ _ _ hs => hs
  · exact .inl hinit
  · exact .inr hrun'

/-- **Schedule independence**, of every session. -/
theorem returned_eq {tr tr' : List Turn} (hrun : (schedule parse reg env x).Run tr s)
    (hrun' : (schedule parse reg env x).Run tr' s') (hpc : s.pc = .returned)
    (hpc' : s'.pc = .returned) : s = s' := by
  obtain rfl | hrec := schedule_recreate hrun
  · cases hpc
  obtain rfl | hrec' := schedule_recreate hrun'
  · cases hpc'
  exact returned_unique rfl hrec hrec' hpc hpc'

/-- What a run that has begun gives the turns. -/
theorem schedule_ready (hmax : x.config.maxIterations < 2 ^ 32) {tr : List Turn}
    (hrun : (schedule parse reg env x).Run tr s) : s = start x ∨ Ready s := by
  obtain hstart | hrec := schedule_recreate hrun
  · exact .inl hstart
  · refine .inr (hrec.invariant ?_ ?_)
    · rintro s rfl
      exact ready_start rfl hmax
    · intro s turn s' hr hs
      exact hr.turn hs.2

theorem schedule_rank (hmax : x.config.maxIterations < 2 ^ 32) {turn : Turn}
    (hs : (schedule parse reg env x).Reachable s)
    (hstep : (schedule parse reg env x).step s turn s') : Below s'.rank s.rank := by
  obtain ⟨tr, hrun⟩ := hs
  obtain rfl | hr := schedule_ready hmax hrun
  · have hr : Ready (start (recreate x)) := ready_start rfl hmax
    exact hr.rank_turn (first_turn.trans hstep.2)
  · exact hr.rank_turn hstep.2

/-- As long as `run` has not returned there is a turn to take, also when
    the sub-tasks are run one after another. -/
theorem schedule_exists_turn (hmax : x.config.maxIterations < 2 ^ 32) {tr : List Turn}
    (hrun : (schedule parse reg env x).Run tr s) (hpc : s.pc ≠ .returned) :
    ∃ turn s', s.InTime turn ∧ Sequential s turn ∧ turnNext parse reg env s turn = some s' := by
  obtain rfl | hr := schedule_ready hmax hrun
  · exact ⟨⟨.main, 0⟩, _, by simp [State.InTime], by simp [Sequential], rfl⟩
  · exact hr.exists_turn hpc

/-- The schedule in which the sub-tasks are run one after another. -/
def sequential (parse : String → Option Json) (reg : ToolRegistry) (env : Surroundings)
    (x : Session) : System State Turn :=
  (schedule parse reg env x).restrict Sequential

/-- It comes to the end of `run`. -/
theorem sequential_returns (hmax : x.config.maxIterations < 2 ^ 32) :
    ∃ tr s, (sequential parse reg env x).Run tr s ∧ s.pc = .returned := by
  have hstart : (sequential parse reg env x).Reachable (start x) := ⟨[], .start rfl⟩
  refine hstart.completes below_wf State.rank ?_ ?_
  · rintro s turn s' ⟨tr, hrun⟩ hs
    exact schedule_rank hmax ⟨tr, hrun.of_restrict⟩ hs.2
  · rintro s ⟨tr, hrun⟩ hpc
    obtain ⟨turn, s', htime, hseq, hs⟩ : ∃ turn s', s.InTime turn ∧ Sequential s turn ∧
      turnNext parse reg env s turn = some s' := schedule_exists_turn hmax hrun.of_restrict hpc
    exact ⟨turn, s', hseq, htime, hs⟩

/-- There is no schedule without end. -/
theorem not_endless (hmax : x.config.maxIterations < 2 ^ 32) (st : ℕ → State) (turns : ℕ → Turn) :
    ¬(schedule parse reg env x).Endless st turns := by
  intro hend
  have hdown : ∀ s turn s', (schedule parse reg env x).Reachable s →
      (schedule parse reg env x).step s turn s' → True → Below s'.rank s.rank := by
    intro s turn s' hreach hs _
    exact schedule_rank hmax hreach hs
  obtain ⟨n, hn⟩ := hend.stops below_wf State.rank (fun _ => True) hdown
    (fun _ _ _ _ _ hfalse => absurd trivial hfalse)
  exact hn n le_rfl trivial

end MapReduceWorkflow

end Forge
