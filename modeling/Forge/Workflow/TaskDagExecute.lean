import Forge.Workflow.TaskDagLevels

/-! # Execution of a Task DAG

  `TaskDAG::execute` against the evaluation of the nodes one by one:

  - `Tracks`: whatever the tools do, `execute` runs the nodes in the order
    of the levels and returns their results in that order;
  - `evaluate`: the nodes in the order of their ids, each with the outputs
    of the earlier ones;
  - `execute_eq_evaluate`: when the placeholders of a node name only its
    dependencies, both give every node the same output.
-/

namespace Forge

/-! ### Batches -/

/-- The results of a batch, call by call. -/
theorem executeBatch_eq {reg : ToolRegistry} {calls : List ToolCall} {os : List ToolOutcome}
    {rs : List ToolResult} (h : executeBatch reg calls os = some rs) :
    rs.map some = List.zipWith (collect reg) calls os := by
  induction calls generalizing os rs with
  | nil =>
    simp only [executeBatch, Option.some.injEq] at h
    subst h
    rfl
  | cons call calls ih =>
    cases os with
    | nil =>
      simp only [executeBatch, Option.some.injEq] at h
      subst h
      rfl
    | cons o os =>
      simp only [executeBatch] at h
      split at h
      case h_1 tr trs hcollect hrest =>
        cases h
        simp [hcollect, ih hrest]
      case h_2 => cases h

namespace TaskDAG

variable {dag : TaskDAG} {reg : ToolRegistry} {outcome : ℕ → ToolCall → ToolOutcome}
  {e e' : Execution}

theorem levelCalls_spec {results : ℕ → Option String} {level : List ℕ} {calls : List ToolCall}
    (h : dag.levelCalls results level = some calls) : calls.length = level.length ∧
      ∀ p ∈ level.zip calls, dag.substituteCall results p.1 = some p.2 := by
  induction level generalizing calls with
  | nil =>
    cases h
    simp
  | cons idx level ih =>
    simp only [levelCalls] at h
    split at h
    case h_1 call calls' hcall hrest =>
      cases h
      obtain ⟨hlen, hcalls⟩ := ih hrest
      refine ⟨by simp [hlen], ?_⟩
      rintro p (_ | ⟨_, hmem⟩)
      · exact hcall
      · exact hcalls p hmem
    case h_2 => cases h

/-! ### What Is Executed -/

/-- The nodes `done` have been executed, in this order, each by its call,
    and their results are in `all_results`, in the same order. -/
structure Execution.Tracks (dag : TaskDAG) (reg : ToolRegistry)
    (outcome : ℕ → ToolCall → ToolOutcome) (done : List ℕ) (e : Execution) : Prop where
  nodes : e.executed.map Prod.fst = done
  calls : ∀ p ∈ e.executed, ∃ results, dag.substituteCall results p.1 = some p.2
  results : e.allResults.map some = e.executed.map fun p => collect reg p.2 (outcome p.1 p.2)

theorem Execution.store_executed (level : List ℕ) (rs : List ToolResult) (e : Execution) :
    (e.store level rs).executed = e.executed := by
  induction level generalizing rs e with
  | nil => rfl
  | cons idx level ih =>
    cases rs with
    | nil => rfl
    | cons r rs => exact ih rs _

theorem Execution.store_allResults {level : List ℕ} {rs : List ToolResult}
    (hlen : rs.length = level.length) (e : Execution) :
    (e.store level rs).allResults = e.allResults ++ rs := by
  induction level generalizing rs e with
  | nil =>
    obtain rfl := List.length_eq_zero_iff.mp hlen
    simp [Execution.store]
  | cons idx level ih =>
    cases rs with
    | nil => simp at hlen
    | cons r rs =>
      rw [Execution.store, ih (by simpa using hlen)]
      simp

theorem zipWith_collect (level : List ℕ) (calls : List ToolCall) :
    List.zipWith (collect reg) calls (List.zipWith outcome level calls) =
      (level.zip calls).map fun p => collect reg p.2 (outcome p.1 p.2) := by
  induction level generalizing calls with
  | nil => simp
  | cons idx level ih =>
    cases calls with
    | nil => simp
    | cons call calls => simp [ih]

/-- **A level** is executed in its order. -/
theorem Execution.Tracks.level {done level : List ℕ} (ht : e.Tracks dag reg outcome done)
    (h : dag.executeLevel reg outcome level e = .ok e') :
    e'.Tracks dag reg outcome (done ++ level) := by
  unfold executeLevel at h
  split at h
  case h_1 => cases h
  case h_2 calls hcalls =>
    split at h
    case h_1 => cases h
    case h_2 rs hbatch =>
      cases h
      -- the batch has a result for every call, in the order of the calls
      obtain ⟨hlen, hcall⟩ := levelCalls_spec hcalls
      have hrs := executeBatch_eq hbatch
      have hlen' : rs.length = level.length := by
        have hmap := congrArg List.length hrs
        simpa [hlen] using hmap
      refine ⟨?_, ?_, ?_⟩
      · rw [Execution.store_executed, List.map_append, ht.nodes, List.map_fst_zip (by omega)]
      · rw [Execution.store_executed]
        intro p hp
        rcases List.mem_append.mp hp with hold | hnew
        · exact ht.calls p hold
        · exact ⟨e.results, hcall p hnew⟩
      · rw [Execution.store_allResults hlen', Execution.store_executed, List.map_append,
          List.map_append, ht.results, hrs, zipWith_collect]

/-- **All levels** are executed in their order. -/
theorem Execution.Tracks.levels {done : List ℕ} {levels : List (List ℕ)}
    (ht : e.Tracks dag reg outcome done) (h : dag.executeLevels reg outcome levels e = .ok e') :
    e'.Tracks dag reg outcome (done ++ levels.flatten) := by
  induction levels generalizing e done with
  | nil =>
    cases h
    simpa using ht
  | cons level levels ih =>
    simp only [executeLevels] at h
    split at h
    case h_1 e₁ hlevel =>
      rw [List.flatten_cons, ← List.append_assoc]
      exact ih (ht.level hlevel) h
    case h_2 => cases h

/-- What `execute` returns, whatever the tools do. -/
theorem execute_tracks {levels : List (List ℕ)} (hsort : dag.topologicalSort = some (.ok levels))
    (h : dag.execute reg outcome = some (.ok e)) : e.Tracks dag reg outcome levels.flatten := by
  have hstart : Execution.Tracks dag reg outcome [] ⟨fun _ => none, [], []⟩ :=
    ⟨rfl, by simp, rfl⟩
  simp only [execute, hsort, Option.map_some, Option.some.injEq] at h
  simpa using hstart.levels h

/-! ### One by One -/

/-- The result of a call to a tool that returns. -/
def respond (reg : ToolRegistry) (handler : String → String → String) (call : ToolCall) :
    ToolResult :=
  if reg.has call.name then ⟨call.id, handler call.name call.argumentsJson, false⟩
  else ⟨call.id, "Unknown tool: " ++ call.name, true⟩

/-- Tools that return in time, by name and arguments. -/
def returning (handler : String → String → String) (_ : ℕ) (call : ToolCall) : ToolOutcome :=
  .output (handler call.name call.argumentsJson)

/-- The output of a node, among the results so far. -/
def outputOf (rs : List ToolResult) (n : ℕ) : Option String := rs[n]?.map ToolResult.output

/-- The call of a node, with the outputs so far in its arguments. -/
def callWith (node : DAGNode) (rs : List ToolResult) : ToolCall :=
  { node.call with argumentsJson := expand node.call.argumentsJson (outputOf rs) }

/-- The nodes that are left, one by one, with the results so far. -/
def evaluateFrom (reg : ToolRegistry) (handler : String → String → String) :
    List DAGNode → List ToolResult → List ToolResult
  | [], rs => rs
  | node :: nodes, rs =>
      evaluateFrom reg handler nodes (rs ++ [respond reg handler (callWith node rs)])

/-- The results of the nodes, evaluated one by one in the order of their
    ids. -/
def evaluate (dag : TaskDAG) (reg : ToolRegistry) (handler : String → String → String) :
    List ToolResult :=
  evaluateFrom reg handler dag.nodes []

variable {handler : String → String → String}

/-- Every node is evaluated with what has been evaluated before it. -/
theorem evaluateFrom_getElem? (reg : ToolRegistry) (handler : String → String → String)
    (nodes : List DAGNode) (rs : List ToolResult) :
    rs <+: evaluateFrom reg handler nodes rs ∧
    (evaluateFrom reg handler nodes rs).length = rs.length + nodes.length ∧
    ∀ (i : ℕ) (node : DAGNode), nodes[i]? = some node →
      (evaluateFrom reg handler nodes rs)[rs.length + i]? = some (respond reg handler
        (callWith node ((evaluateFrom reg handler nodes rs).take (rs.length + i)))) := by
  induction nodes generalizing rs with
  | nil => simp [evaluateFrom]
  | cons node nodes ih =>
    obtain ⟨hpre, hlen, hall⟩ := ih (rs ++ [respond reg handler (callWith node rs)])
    have hpre' : rs <+: evaluateFrom reg handler (node :: nodes) rs :=
      (List.prefix_append _ _).trans hpre
    refine ⟨hpre', ?_, ?_⟩
    · rw [evaluateFrom, hlen]
      simp only [List.length_append, List.length_cons, List.length_nil]
      omega
    · intro i node' hi
      cases i with
      | zero =>
        obtain rfl : node = node' := by simpa using hi
        -- what is taken up to here is what had been evaluated
        obtain ⟨tail, htail⟩ := hpre
        rw [Nat.add_zero, List.prefix_iff_eq_take.mp hpre' |>.symm, evaluateFrom, ← htail]
        simp
      | succ i =>
        have hi' := hall i node' (by simpa using hi)
        rw [List.length_append, List.length_singleton, Nat.add_assoc, Nat.add_comm 1 i] at hi'
        exact hi'

theorem evaluate_length : (dag.evaluate reg handler).length = dag.size := by
  obtain ⟨-, hlen, -⟩ := evaluateFrom_getElem? reg handler dag.nodes []
  exact hlen.trans (Nat.zero_add _)

/-- The placeholders of every node name only its dependencies. -/
def NamesDependencies (dag : TaskDAG) : Prop :=
  ∀ (i : ℕ) (node : DAGNode), dag.nodes[i]? = some node →
    ∀ n ∈ named node.call.argumentsJson, n ∈ node.dependencies

theorem NamesDependencies.lt (hd : NamesDependencies dag) {i n : ℕ} {node : DAGNode}
    (hi : dag.nodes[i]? = some node) (hn : n ∈ named node.call.argumentsJson) : n < i :=
  dag.earlier i node hi n (hd i node hi n hn)

/-- A node whose placeholders name its dependencies only is evaluated as
    if all results were there. -/
theorem evaluate_getElem? (hd : NamesDependencies dag) {i : ℕ} {node : DAGNode}
    (hi : dag.nodes[i]? = some node) :
    (dag.evaluate reg handler)[i]? =
      some (respond reg handler (callWith node (dag.evaluate reg handler))) := by
  obtain ⟨-, -, hall⟩ := evaluateFrom_getElem? reg handler dag.nodes []
  have hat := hall i node hi
  rw [List.length_nil, Nat.zero_add] at hat
  -- the placeholders name smaller nodes only, whose results were there
  have hcall : callWith node ((dag.evaluate reg handler).take i) =
      callWith node (dag.evaluate reg handler) := by
    unfold callWith
    rw [expand_congr]
    intro n hn
    simp only [outputOf, List.getElem?_take_of_lt (hd.lt hi hn)]
  rw [← hcall]
  exact hat

/-! ### Agreement -/

/-- The results of the nodes `done` are those of the evaluation one by
    one, and there are no others. -/
structure Execution.Agrees (dag : TaskDAG) (reg : ToolRegistry)
    (handler : String → String → String) (done : List ℕ) (e : Execution) : Prop where
  results : ∀ i, e.results i =
    if i ∈ done then outputOf (dag.evaluate reg handler) i else none
  allResults : e.allResults.map some = done.map ((dag.evaluate reg handler)[·]?)

/-- A level is executed as its nodes are evaluated. -/
theorem executeBatch_level (hd : NamesDependencies dag) (hsize : dag.size ≤ 2 ^ 64)
    {results : ℕ → Option String} {level : List ℕ} (hlevel : ∀ i ∈ level, i < dag.size)
    (hresults : ∀ i ∈ level, ∀ d ∈ dag.deps i,
      results d = outputOf (dag.evaluate reg handler) d) :
    ∃ calls rs, dag.levelCalls results level = some calls ∧
      executeBatch reg calls (List.zipWith (returning handler) level calls) = some rs ∧
      rs.map some = level.map ((dag.evaluate reg handler)[·]?) := by
  induction level with
  | nil => exact ⟨[], [], rfl, rfl, rfl⟩
  | cons i level ih =>
    obtain ⟨calls, rs, hcalls, hbatch, hrs⟩ := ih (fun j hj => hlevel j (List.mem_cons_of_mem _ hj))
      (fun j hj => hresults j (List.mem_cons_of_mem _ hj))
    have hi : i < dag.size := hlevel i List.mem_cons_self
    obtain ⟨node, hnode⟩ : ∃ node, dag.nodes[i]? = some node := ⟨_, List.getElem?_eq_getElem hi⟩
    have hdeps : dag.deps i = node.dependencies := by simp [deps, depsAt, hnode]
    -- the placeholders name results that are there
    have hfits : (pieces node.call.argumentsJson).all Piece.fits := by
      apply fits_of_named
      intro n hn
      have hlt := hd.lt hnode hn
      omega
    -- so that later results would not change the arguments
    have hexpand : expand node.call.argumentsJson results =
        expand node.call.argumentsJson (outputOf (dag.evaluate reg handler)) := by
      apply expand_congr
      intro n hn
      refine hresults i List.mem_cons_self n ?_
      rw [hdeps]
      exact hd i node hnode n hn
    have hcall : dag.substituteCall results i =
        some (callWith node (dag.evaluate reg handler)) := by
      simp only [substituteCall, hnode, substitute_eq, if_pos hfits, hexpand]
      rfl
    have hcollect : collect reg (callWith node (dag.evaluate reg handler))
        (returning handler i (callWith node (dag.evaluate reg handler))) =
        some (respond reg handler (callWith node (dag.evaluate reg handler))) := by
      unfold collect returning respond
      split <;> rfl
    refine ⟨callWith node (dag.evaluate reg handler) :: calls,
      respond reg handler (callWith node (dag.evaluate reg handler)) :: rs, ?_, ?_, ?_⟩
    · simp [levelCalls, hcall, hcalls]
    · simp [executeBatch, hcollect, hbatch]
    · simp [evaluate_getElem? hd hnode, hrs]

theorem Execution.store_results {rs : List ToolResult} {level : List ℕ} {all : List ToolResult}
    (hrs : rs.map some = level.map (all[·]?)) (e : Execution) (i : ℕ) :
    (e.store level rs).results i = if i ∈ level then outputOf all i else e.results i := by
  induction level generalizing rs e with
  | nil => simp [Execution.store]
  | cons idx level ih =>
    cases rs with
    | nil => simp at hrs
    | cons r rs =>
      simp only [List.map_cons, List.cons.injEq] at hrs
      rw [Execution.store, ih hrs.2]
      by_cases hmem : i ∈ level
      · simp [hmem]
      · by_cases hi : i = idx
        · subst hi
          simp [hmem, outputOf, ← hrs.1]
        · simp [hmem, hi]

/-- **A level** of the evaluation. -/
theorem Execution.Agrees.level {done level : List ℕ} (hd : NamesDependencies dag)
    (hsize : dag.size ≤ 2 ^ 64) (ha : e.Agrees dag reg handler done)
    (hlevel : ∀ i ∈ level, i < dag.size) (hdone : ∀ i ∈ level, ∀ d ∈ dag.deps i, d ∈ done) :
    ∃ e', dag.executeLevel reg (returning handler) level e = .ok e' ∧
      e'.Agrees dag reg handler (done ++ level) := by
  have hresults : ∀ i ∈ level, ∀ d ∈ dag.deps i,
      e.results d = outputOf (dag.evaluate reg handler) d := by
    intro i hi d hd'
    rw [ha.results, if_pos (hdone i hi d hd')]
  obtain ⟨calls, rs, hcalls, hbatch, hrs⟩ := executeBatch_level hd hsize hlevel hresults
  have hlen : rs.length = level.length := by simpa using congrArg List.length hrs
  have hexec : dag.executeLevel reg (returning handler) level e =
      .ok (Execution.store level rs { e with executed := e.executed ++ level.zip calls }) := by
    simp only [executeLevel, hcalls, hbatch]
  refine ⟨_, hexec, ?_, ?_⟩
  · intro i
    rw [Execution.store_results hrs, ha.results]
    by_cases hi : i ∈ level <;> by_cases hi' : i ∈ done <;> simp [hi, hi']
  · rw [Execution.store_allResults hlen, List.map_append, ha.allResults, hrs, List.map_append]

/-- **The levels** of the evaluation. -/
theorem Execution.Agrees.levels {levels : List (List ℕ)} (hd : NamesDependencies dag)
    (hsize : dag.size ≤ 2 ^ 64) (hl : Layered dag levels)
    (hall : ∀ i ∈ levels.flatten, i < dag.size) :
    ∀ (n : ℕ) (e : Execution), n ≤ levels.length →
      e.Agrees dag reg handler (levels.take n).flatten →
      ∃ e', dag.executeLevels reg (returning handler) (levels.drop n) e = .ok e' ∧
        e'.Agrees dag reg handler levels.flatten := by
  intro n
  -- the induction is on the levels that are left
  induction hk : levels.length - n generalizing n with
  | zero =>
    intro e hn ha
    have hlen : levels.length ≤ n := by omega
    rw [List.drop_of_length_le hlen]
    rw [List.take_of_length_le hlen] at ha
    exact ⟨e, rfl, ha⟩
  | succ k ih =>
    intro e hn ha
    -- all dependencies of a level are in the levels that have been executed
    have hlt : n < levels.length := by omega
    have hat : levels[n]? = some levels[n] := List.getElem?_eq_getElem hlt
    obtain ⟨e₁, hlevel, ha₁⟩ := ha.level hd hsize
      (fun i hi => hall i (List.mem_flatten.mpr ⟨_, List.getElem_mem hlt, hi⟩))
      (fun i hi => ((hl n _ hat).2 i hi).1)
    have htake : (levels.take (n + 1)).flatten = (levels.take n).flatten ++ levels[n] := by
      rw [List.take_succ_eq_append_getElem hlt, List.flatten_append]
      simp
    rw [← htake] at ha₁
    obtain ⟨e', hrest, ha'⟩ := ih (n + 1) (by omega) e₁ (by omega) ha₁
    refine ⟨e', ?_, ha'⟩
    rw [List.drop_eq_getElem_cons hlt, executeLevels, hlevel]
    exact hrest

/-- **Agreement with the evaluation one by one**, for tools that return in
    time, when the placeholders of every node name only its dependencies.
    Ids are of type `size_t`, counters of type `int`. Every node is executed
    once, and the results are returned in the order of the levels. -/
theorem execute_eq_evaluate (dag : TaskDAG) (reg : ToolRegistry)
    (handler : String → String → String) (hd : NamesDependencies dag)
    (hsize : dag.size ≤ 2 ^ 64) (hfit : CountsFit dag) :
    ∃ levels e, dag.topologicalSort = some (.ok levels) ∧
      dag.execute reg (returning handler) = some (.ok e) ∧
      (∀ i, e.results i = outputOf (dag.evaluate reg handler) i) ∧
      e.allResults.map some = levels.flatten.map ((dag.evaluate reg handler)[·]?) ∧
      (e.executed.map Prod.fst).Perm (List.range dag.size) := by
  -- the sort does not throw, so that all levels are executed
  obtain ⟨levels, hsort, hl, hperm⟩ := exists_levels hfit.unwrapped
  have hlt : ∀ i ∈ levels.flatten, i < dag.size := fun i hi =>
    List.mem_range.mp (hperm.mem_iff.mp hi)
  have hstart : Execution.Agrees dag reg handler (levels.take 0).flatten
      ⟨fun _ => none, [], []⟩ := ⟨by simp, by simp⟩
  obtain ⟨e, hlevels, ha⟩ := Execution.Agrees.levels hd hsize hl hlt 0 _ (Nat.zero_le _) hstart
  have hexec : dag.execute reg (returning handler) = some (.ok e) := by
    simp only [execute, hsort, Option.map_some]
    exact congrArg some hlevels
  refine ⟨levels, e, hsort, hexec, ?_, ha.allResults, ?_⟩
  · intro i
    rw [ha.results]
    by_cases hi : i ∈ levels.flatten
    · rw [if_pos hi]
    · have hle : dag.size ≤ i := by
        by_contra hnot
        exact hi (hperm.mem_iff.mpr (List.mem_range.mpr (Nat.not_le.mp hnot)))
      rw [if_neg hi, outputOf, List.getElem?_eq_none (evaluate_length.trans_le hle)]
      rfl
  · rw [(execute_tracks hsort hexec).nodes]
    exact hperm

/-- The second node doubles the result of the first. -/
def doubled : TaskDAG where
  nodes := [⟨⟨"c1", "calculator", "5"⟩, []⟩,
    ⟨⟨"c2", "calculator", "\x7b\x7bnode_0_result\x7d\x7d*2"⟩, [0]⟩]
  earlier := by
    intro i node hi
    match i with
    | 0 =>
      obtain rfl : _ = node := Option.some.inj hi
      simp
    | 1 =>
      obtain rfl : _ = node := Option.some.inj hi
      simp
    | i + 2 => simp at hi

theorem doubled_evaluated :
    ∃ e, doubled.execute ⟨["calculator"]⟩ (returning fun _ arguments => arguments) = some (.ok e) ∧
      e.results 1 = some "5*2" ∧ (e.executed.map Prod.fst).Perm [0, 1] := by
  have hd : NamesDependencies doubled := by
    intro i node hi
    match i with
    | 0 =>
      obtain rfl : _ = node := Option.some.inj hi
      decide
    | 1 =>
      obtain rfl : _ = node := Option.some.inj hi
      decide
    | i + 2 => simp [doubled] at hi
  obtain ⟨-, e, -, hexec, hresults, -, hperm⟩ := execute_eq_evaluate doubled ⟨["calculator"]⟩
    (fun _ arguments => arguments) hd (by decide) (by decide)
  exact ⟨e, hexec, (hresults 1).trans (by decide), hperm⟩

/-- When the counter of a node goes round there are no outputs. -/
theorem crowded_fails :
    NamesDependencies (crowded (2 ^ 32)) ∧ (crowded (2 ^ 32)).size ≤ 2 ^ 64 ∧
      (crowded (2 ^ 32)).execute ⟨["calculator"]⟩ (returning fun _ arguments => arguments) =
        some (.error (.runtimeError "Cycle detected in task DAG")) := by
  refine ⟨?_, by decide, ?_⟩
  · -- there are no placeholders
    intro i node hi n hn
    match i with
    | 0 =>
      obtain rfl : _ = node := Option.some.inj hi
      simp [show named "1" = [] by decide] at hn
    | 1 =>
      obtain rfl : _ = node := Option.some.inj hi
      simp [show named "2" = [] by decide] at hn
    | i + 2 => cases hi
  · rw [execute, throws_of_not_unwrapped crowded_wrapped]
    rfl

end TaskDAG

end Forge
