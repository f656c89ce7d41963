import Forge.Workflow.TaskDagExecute

/-! # The Order of the Results of a Task DAG

  `TaskDAG::execute` returns the results in the order in which the nodes
  leave the queue of `topological_sort`. That is the order of the ids if
  and only if the greatest dependency never goes down from one node to the
  next (`Ordered`), where a node without dependencies counts as lowest.
-/

namespace Forge

namespace TaskDAG

variable {dag : TaskDAG}

/-- A later node depends on something that is at least as late. -/
def Ordered (dag : TaskDAG) : Prop :=
  ∀ i j, i < j → j < dag.size → ∀ d ∈ dag.deps i, ∃ d' ∈ dag.deps j, d ≤ d'

/-! ### Dependents in the Order of Their Ids -/

/-- The dependents are in order, and none is behind `i`. -/
def Edges.SortedTo (i : ℕ) (g : Edges) : Prop :=
  ∀ d, (g.dependents.getD d []).Pairwise (· ≤ ·) ∧ ∀ x ∈ g.dependents.getD d [], x ≤ i

theorem Edges.SortedTo.add {g : Edges} {i : ℕ} (hg : g.SortedTo i) (dep : ℕ) :
    (g.add i dep).SortedTo i := by
  intro d
  have hd := hg d
  unfold Edges.add
  simp only [List.getD_eq_getElem?_getD, List.getElem?_modify] at hd ⊢
  by_cases heq : dep = d
  · subst heq
    cases hget : g.dependents[dep]? with
    | none => simp
    | some l =>
      simp only [hget, Option.getD_some] at hd
      simp only [if_true]
      refine ⟨List.pairwise_append.mpr ⟨hd.1, List.pairwise_singleton _ _, ?_⟩, ?_⟩
      · intro x hx y hy
        obtain rfl := List.mem_singleton.mp hy
        exact hd.2 x hx
      · intro x hx
        rcases List.mem_append.mp hx with hold | hnew
        · exact hd.2 x hold
        · exact (List.mem_singleton.mp hnew).le
  · simpa [heq] using hd

theorem countEdges_sortedTo (nodes : List DAGNode) {g : Edges} {i : ℕ} (hg : g.SortedTo i) :
    ∃ j, (countEdges i nodes g).SortedTo j := by
  induction nodes generalizing g i with
  | nil => exact ⟨i, hg⟩
  | cons node nodes ih =>
    -- `i` is pushed to lists that end with `i` at most
    have hfold : ∀ (deps : List ℕ) (g : Edges), g.SortedTo i →
        (deps.foldl (Edges.add i) g).SortedTo i := by
      intro deps
      induction deps with
      | nil => exact fun g hg => hg
      | cons dep deps ih => exact fun g hg => ih _ (hg.add dep)
    have hnext : (node.dependencies.foldl (Edges.add i) g).SortedTo (i + 1) := by
      intro d
      obtain ⟨hsorted, hle⟩ := hfold node.dependencies g hg d
      exact ⟨hsorted, fun x hx => Nat.le_succ_of_le (hle x hx)⟩
    exact ih hnext

theorem dependents_sorted (dag : TaskDAG) (d : ℕ) :
    (dag.edges.dependents.getD d []).Pairwise (· ≤ ·) := by
  have hstart : Edges.SortedTo 0 ⟨List.replicate dag.size 0, List.replicate dag.size []⟩ := by
    intro d
    simp only [List.getD_eq_getElem?_getD, List.getElem?_replicate]
    split <;> simp
  obtain ⟨j, hj⟩ := countEdges_sortedTo dag.nodes hstart
  exact (hj d).1

/-! ### The Queue in the Order of the Ids -/

/-- A list in order that has with a number all smaller ones. -/
theorem eq_range_of_sorted {l : List ℕ} (hsorted : l.Pairwise (· < ·))
    (hclosed : ∀ j ∈ l, ∀ i < j, i ∈ l) : l = List.range l.length := by
  have hlt := List.pairwise_iff_getElem.mp hsorted
  have hat : ∀ i (hi : i < l.length), l[i] = i := by
    intro i
    induction i using Nat.strong_induction_on with
    | _ i ih =>
      intro hi
      -- below `i` stand the smaller numbers
      have hge : i ≤ l[i] := by
        cases i with
        | zero => exact Nat.zero_le _
        | succ i =>
          have hprev := ih i (Nat.lt_succ_self i) (Nat.lt_of_succ_lt hi)
          have hstep := hlt i (i + 1) (Nat.lt_of_succ_lt hi) hi (Nat.lt_succ_self i)
          omega
      by_contra hne
      have hmem : i ∈ l := hclosed l[i] (List.getElem_mem hi) i (by omega)
      obtain ⟨j, hj, hji⟩ := List.mem_iff_getElem.mp hmem
      -- `i` is in the list, and it is the only place left for it
      rcases Nat.lt_trichotomy j i with hlow | rfl | hhigh
      · have hsame := ih j hlow hj
        omega
      · exact hne hji
      · have hstep := hlt i j hi hj hhigh
        omega
  apply List.ext_getElem (by simp)
  intro i h₁ h₂
  rw [hat i h₁, List.getElem_range]

/-- In order, the queue holds the next ids. -/
theorem kept_range (ho : Ordered dag) :
    Kept dag fun done ready => done ++ ready = List.range (done ++ ready).length := by
  intro k done v ready pushed hk hready hsub hpop hready' hq
  have hmem := hpop.mem_iff
  have hnodup := hpop.nodup
  rw [hready'] at hnodup
  simp only [hready'] at hmem
  have hsplit : done ++ v :: ready = done ++ [v] ++ ready := by simp
  have hwhole : done ++ [v] ++ (ready ++ pushed) =
      List.range (done ++ v :: ready).length ++ pushed := by
    rw [← hq, hsplit, List.append_assoc _ ready]
  -- the popped nodes are those up to `v`
  have hdone : done ++ [v] = List.range (done.length + 1) := by
    have htake := congrArg (List.take (done.length + 1)) hq
    rw [hsplit, List.take_left' (by simp), List.take_range, Nat.min_eq_left (by simp)] at htake
    exact htake
  apply eq_range_of_sorted
  · rw [hwhole] at hnodup ⊢
    obtain ⟨-, hnodup', hdisjoint⟩ := List.nodup_append.mp hnodup
    refine List.pairwise_append.mpr ⟨List.pairwise_lt_range, ?_, ?_⟩
    · have hle := (dependents_sorted dag v).sublist hsub
      exact (hle.and hnodup').imp fun ⟨hab, hne⟩ => lt_of_le_of_ne hab hne
    · intro a ha b hb
      have hb' : b ∉ List.range (done ++ v :: ready).length := fun hb' => hdisjoint b hb' b hb rfl
      rw [List.mem_range] at ha hb'
      omega
  · -- what a later node waits for, an earlier one does not wait longer for
    intro j hj i hij
    obtain ⟨hj, hdeps⟩ := (hmem j).mp hj
    refine (hmem i).mpr ⟨hij.trans hj, fun d hd => ?_⟩
    obtain ⟨d', hd', hle⟩ := ho i j hij hj d hd
    have hlt := hdeps d' hd'
    rw [hdone, List.mem_range] at hlt ⊢
    omega

/-- At every moment, the popped nodes and the queue are a beginning of the
    order, and all that waits for the popped nodes only. -/
def Queued (dag : TaskDAG) (done ready : List ℕ) : Prop :=
  ∀ p ≤ done.length, ∃ queue, done.take p ++ queue <+: done ++ ready ∧
    ∀ i, i ∈ done.take p ++ queue ↔ i < dag.size ∧ ∀ d ∈ dag.deps i, d ∈ done.take p

theorem kept_queued (dag : TaskDAG) : Kept dag (Queued dag) := by
  intro k done v ready pushed hk hready hsub hpop hready' hq p hp
  rw [List.length_append, List.length_singleton] at hp
  -- a moment of the past, or now
  by_cases hold : p ≤ done.length
  · obtain ⟨queue, hpre, hmem⟩ := hq p hold
    rw [List.take_append_of_le_length hold]
    refine ⟨queue, hpre.trans ?_, hmem⟩
    exact ⟨pushed, by simp⟩
  · have hall : (done ++ [v]).take p = done ++ [v] := List.take_of_length_le (by simp; omega)
    have hmem := hpop.mem_iff
    simp only [hready'] at hmem
    rw [hall]
    exact ⟨ready ++ pushed, List.prefix_rfl, hmem⟩

theorem queued_start (hdag : Unwrapped dag) : Queued dag [] (firstReady dag.edges.inDegree) := by
  intro p _
  rw [List.take_nil]
  exact ⟨_, List.prefix_rfl, (kahn_start_inv hdag).mem_iff⟩

/-- **The order of the queue** is that of the ids if and only if the nodes
    are ordered. -/
theorem flatten_eq_range_iff {levels : List (List ℕ)}
    (hsort : dag.topologicalSort = some (.ok levels)) :
    levels.flatten = List.range dag.size ↔ Ordered dag := by
  have hdag := unwrapped_of_ok hsort
  constructor
  · intro hrange i j hij hj d hd
    obtain ⟨levels', hsort', -, -, hq⟩ := topologicalSort_eq hdag (kept_queued dag)
      (queued_start hdag)
    obtain rfl : levels = levels' := by simpa using hsort.symm.trans hsort'
    rw [hrange] at hq
    by_contra hnone
    -- when the nodes below `d` have been popped, `j` is in the queue, and so is `i`
    have hdlt := lt_of_mem_deps hd
    obtain ⟨queue, hpre, hmem⟩ := hq d (by rw [List.length_range]; omega)
    rw [List.append_nil, List.take_range, Nat.min_eq_left (by omega)] at hpre
    rw [List.take_range, Nat.min_eq_left (by omega)] at hmem
    have hjmem : j ∈ List.range d ++ queue := by
      refine (hmem j).mpr ⟨hj, fun d' hd' => List.mem_range.mpr ?_⟩
      by_contra hge
      exact hnone ⟨d', hd', Nat.not_lt.mp hge⟩
    have heq : List.range d ++ queue = List.range (List.range d ++ queue).length := by
      have htake := List.prefix_iff_eq_take.mp hpre
      rw [List.take_range, Nat.min_eq_left (by simpa using hpre.length_le)] at htake
      exact htake
    have himem : i ∈ List.range d ++ queue := by
      rw [heq, List.mem_range] at hjmem ⊢
      omega
    -- but `i` waits for `d`, which has not been popped
    have hself := ((hmem i).mp himem).2 d hd
    exact absurd (List.mem_range.mp hself) (Nat.lt_irrefl d)
  · intro ho
    have hfirst : [] ++ firstReady dag.edges.inDegree =
        List.range ([] ++ firstReady dag.edges.inDegree).length := by
      have hmem := (kahn_start_inv hdag).mem_iff
      apply eq_range_of_sorted
      · exact List.pairwise_lt_range.filter _
      · intro j hj i hij
        obtain ⟨hj, hdeps⟩ := (hmem j).mp hj
        refine (hmem i).mpr ⟨hij.trans hj, fun d hd => ?_⟩
        obtain ⟨d', hd', -⟩ := ho i j hij hj d hd
        exact absurd (hdeps d' hd') (by simp)
    obtain ⟨levels', hsort', -, hperm, hq⟩ := topologicalSort_eq hdag (kept_range ho) hfirst
    obtain rfl : levels = levels' := by simpa using hsort.symm.trans hsort'
    rw [List.append_nil, hperm.length_eq, List.length_range] at hq
    exact hq

/-! ### The Results by Id -/

theorem collect_toolCallId {reg : ToolRegistry} {call : ToolCall} {o : ToolOutcome} {r : ToolResult}
    (h : collect reg call o = some r) : r.toolCallId = call.id := by
  unfold collect at h
  split at h
  case isTrue => cases o <;> cases h <;> rfl
  case isFalse =>
    cases h
    rfl

theorem substituteCall_id {results : ℕ → Option String} {i : ℕ} {call : ToolCall} {node : DAGNode}
    (h : dag.substituteCall results i = some call) (hnode : dag.nodes[i]? = some node) :
    call.id = node.call.id := by
  simp only [substituteCall, hnode, Option.map_eq_some_iff] at h
  obtain ⟨arguments, -, rfl⟩ := h
  rfl

variable {reg : ToolRegistry} {outcome : ℕ → ToolCall → ToolOutcome} {e : Execution}

/-- The entry at `i` is the result of node `i`. -/
def ResultAt (dag : TaskDAG) (reg : ToolRegistry) (outcome : ℕ → ToolCall → ToolOutcome)
    (e : Execution) (i : ℕ) (node : DAGNode) : Prop :=
  ∃ call r, e.executed[i]? = some (i, call) ∧
    (∃ results, dag.substituteCall results i = some call) ∧
    e.allResults[i]? = some r ∧ collect reg call (outcome i call) = some r ∧
    r.toolCallId = node.call.id

theorem Execution.Tracks.resultAt {levels : List (List ℕ)}
    (ht : e.Tracks dag reg outcome levels.flatten)
    (horder : levels.flatten = List.range dag.size) {i : ℕ} {node : DAGNode}
    (hnode : dag.nodes[i]? = some node) : ResultAt dag reg outcome e i node := by
  have hi : i < dag.size := (List.getElem?_eq_some_iff.mp hnode).1
  have hnodes := congrArg (·[i]?) (ht.nodes.trans horder)
  simp only [List.getElem?_map, List.getElem?_range hi, Option.map_eq_some_iff] at hnodes
  obtain ⟨⟨i', call⟩, hexec, rfl⟩ := hnodes
  obtain ⟨results, hcall⟩ := ht.calls _ (List.mem_of_getElem? hexec)
  -- calls and results stand side by side
  have hresults := congrArg (·[i']?) ht.results
  simp only [List.getElem?_map, hexec, Option.map_some, Option.map_eq_some_iff] at hresults
  obtain ⟨r, hr, hcollect⟩ := hresults
  refine ⟨call, r, hexec, ⟨results, hcall⟩, hr, hcollect.symm, ?_⟩
  rw [collect_toolCallId hcollect.symm, substituteCall_id hcall hnode]

/-- When `execute` has returned, the sort has not thrown. -/
theorem sorted_of_ok (h : dag.execute reg outcome = some (.ok e)) :
    ∃ levels, dag.topologicalSort = some (.ok levels) ∧
      levels.flatten.Perm (List.range dag.size) := by
  simp only [execute, Option.map_eq_some_iff] at h
  obtain ⟨result, hsort, hexec⟩ := h
  cases result with
  | error exn => cases hexec
  | ok levels =>
    obtain ⟨levels', hsort', -, hperm⟩ := exists_levels (unwrapped_of_ok hsort)
    obtain rfl : levels = levels' := by simpa using hsort.symm.trans hsort'
    exact ⟨levels, hsort, hperm⟩

/-- **The results are those of the nodes by their ids** if and only if the
    nodes are ordered. -/
theorem resultAt_iff (h : dag.execute reg outcome = some (.ok e)) :
    (e.allResults.length = dag.size ∧
      ∀ (i : ℕ) (node : DAGNode), dag.nodes[i]? = some node → ResultAt dag reg outcome e i node) ↔
      Ordered dag := by
  obtain ⟨levels, hsort, hperm⟩ := sorted_of_ok h
  have ht := execute_tracks hsort h
  have hlen : e.executed.length = dag.size := by
    have hmap := congrArg List.length ht.nodes
    rwa [List.length_map, hperm.length_eq, List.length_range] at hmap
  rw [← flatten_eq_range_iff hsort]
  constructor
  · rintro ⟨-, hall⟩
    rw [← ht.nodes]
    apply List.ext_getElem (by simp [hlen])
    intro i h₁ h₂
    have hi : i < dag.size := by simpa using h₂
    obtain ⟨call, -, hexec, -⟩ := hall i _ (List.getElem?_eq_getElem hi)
    obtain ⟨hlt, hget⟩ := List.getElem?_eq_some_iff.mp hexec
    rw [List.getElem_map, hget, List.getElem_range]
  · intro horder
    refine ⟨?_, fun i node hnode => ht.resultAt horder hnode⟩
    have hmap := congrArg List.length ht.results
    rwa [List.length_map, List.length_map, hlen] at hmap

theorem doubled_by_id :
    ∃ e, doubled.execute ⟨["calculator"]⟩ (returning fun _ arguments => arguments) = some (.ok e) ∧
      e.allResults.length = 2 := by
  have hsome : (doubled.execute ⟨["calculator"]⟩ (returning fun _ arguments => arguments)).map
      Except.isOk = some true := by decide
  obtain ⟨result, hexec, hok⟩ := Option.map_eq_some_iff.mp hsome
  cases result with
  | error exn => cases hok
  | ok e =>
    have hordered : Ordered doubled := by
      intro i j hij hj d hd
      have hj' : j < 2 := hj
      obtain rfl : i = 0 := by omega
      cases hd
    exact ⟨e, hexec, ((resultAt_iff hexec).mpr hordered).1⟩

/-- The last of three nodes depends on nothing, the second on the first. -/
def detached : TaskDAG where
  nodes := [⟨⟨"c1", "calculator", "1"⟩, []⟩, ⟨⟨"c2", "calculator", "2"⟩, [0]⟩,
    ⟨⟨"c3", "calculator", "3"⟩, []⟩]
  earlier := by
    intro i node hi
    match i with
    | 0 =>
      obtain rfl : _ = node := Option.some.inj hi
      simp
    | 1 =>
      obtain rfl : _ = node := Option.some.inj hi
      simp
    | 2 =>
      obtain rfl : _ = node := Option.some.inj hi
      simp
    | i + 3 => simp at hi

/-- The result of the third node is returned at the second place. -/
theorem detached_out_of_place :
    ¬ ∀ (dag : TaskDAG) (reg : ToolRegistry) (outcome : ℕ → ToolCall → ToolOutcome)
      (e : Execution), dag.execute reg outcome = some (.ok e) →
      e.allResults.length = dag.size ∧ ∀ (i : ℕ) (node : DAGNode), dag.nodes[i]? = some node →
        ResultAt dag reg outcome e i node := by
  intro hall
  have hids : (detached.execute ⟨["calculator"]⟩ (returning fun _ arguments => arguments)).map
      (fun result => result.toOption.map fun e => e.allResults.map ToolResult.toolCallId) =
      some (some ["c1", "c3", "c2"]) := by decide
  obtain ⟨result, hexec, hids⟩ := Option.map_eq_some_iff.mp hids
  cases result with
  | error exn => cases hids
  | ok e =>
    simp only [Except.toOption, Option.map_some, Option.some.injEq] at hids
    obtain ⟨-, r, -, -, hr, -, hid⟩ := (hall _ _ _ e hexec).2 1 ⟨⟨"c2", "calculator", "2"⟩, [0]⟩ rfl
    have hat := congrArg (·[1]?) hids
    simp only [List.getElem?_map, hr] at hat
    simp [hid] at hat

end TaskDAG

end Forge
