import Forge.Tools.ToolExecutor
import Forge.Utils.Json
import Forge.Workflow.Placeholder

/-! # Task DAG

  Tool calls with dependencies (`workflow/task_dag.h`). `add_node` takes
  dependencies on earlier nodes only, `topological_sort` groups the nodes
  into levels, and `execute` runs the levels one after another:

  - the calls of a level get the results so far for their placeholders;
  - they are given to the executor as one batch;
  - the results of the batch are stored by position.

  How a tool call ends is asked of an oracle, by node and call. Every node
  is in one level only, so that the oracle stands for any behaviour.
-/

namespace Forge

structure DAGNode where
  call : ToolCall
  dependencies : List ℕ
  deriving DecidableEq

/-- The nodes in the order of their ids. -/
structure TaskDAG where
  nodes : List DAGNode
  earlier : ∀ (i : ℕ) (node : DAGNode), nodes[i]? = some node → ∀ d ∈ node.dependencies, d < i

namespace TaskDAG

/-- The exceptions of the class. -/
inductive Exn where
  | invalidArgument (what : String)
  | runtimeError (what : String)
  /-- `std::out_of_range`, out of `std::stoull`. -/
  | outOfRange
  /-- An exception of a tool that is no `std::exception`. -/
  | tool
  deriving DecidableEq

/-! ### Building -/

def empty : TaskDAG := ⟨[], by simp⟩

theorem earlier_append {nodes : List DAGNode} {node : DAGNode}
    (h : ∀ (i : ℕ) (node : DAGNode), nodes[i]? = some node → ∀ d ∈ node.dependencies, d < i)
    (hnode : ∀ d ∈ node.dependencies, d < nodes.length) :
    ∀ (i : ℕ) (node' : DAGNode), (nodes ++ [node])[i]? = some node' →
      ∀ d ∈ node'.dependencies, d < i := by
  intro i node' hi
  rcases Nat.lt_trichotomy i nodes.length with hlt | rfl | hgt
  · rw [List.getElem?_append_left hlt] at hi
    exact h i node' hi
  · rw [List.getElem?_concat_length, Option.some.injEq] at hi
    exact hi ▸ hnode
  · have hnone : (nodes ++ [node])[i]? = none := by
      simp only [List.getElem?_eq_none_iff, List.length_append, List.length_singleton]
      omega
    rw [hnone] at hi
    cases hi

/-- `add_node`, with the id it returns. -/
def addNode (dag : TaskDAG) (call : ToolCall) (deps : List ℕ) : Except Exn (TaskDAG × ℕ) :=
  let id := dag.nodes.length
  if h : ∀ d ∈ deps, d < id then
    .ok (⟨dag.nodes ++ [⟨call, deps⟩], earlier_append dag.earlier h⟩, id)
  else .error (.invalidArgument "Dependency on future node")

def size (dag : TaskDAG) : ℕ := dag.nodes.length

/-- Add the nodes in order. -/
def build : List DAGNode → Except Exn TaskDAG → Except Exn TaskDAG
  | [], dag => dag
  | node :: nodes, dag =>
      build nodes (dag.bind fun dag => (dag.addNode node.call node.dependencies).map Prod.fst)

/-- Every task DAG is built by `add_node`. -/
theorem build_eq (dag : TaskDAG) : build dag.nodes (.ok empty) = .ok dag := by
  have hall : ∀ (nodes : List DAGNode) (dag₀ : TaskDAG), dag.nodes = dag₀.nodes ++ nodes →
      build nodes (.ok dag₀) = .ok dag := by
    intro nodes
    induction nodes with
    | nil =>
      intro dag₀ hnodes
      obtain ⟨nodes, hearlier⟩ := dag
      obtain ⟨nodes₀, hearlier₀⟩ := dag₀
      obtain rfl : nodes = nodes₀ := by simpa using hnodes
      rfl
    | cons node nodes ih =>
      intro dag₀ hnodes
      have hdeps : ∀ d ∈ node.dependencies, d < dag₀.nodes.length := by
        apply dag.earlier
        simp [hnodes]
      have hadd : dag₀.addNode node.call node.dependencies =
          .ok (⟨dag₀.nodes ++ [node], earlier_append dag₀.earlier hdeps⟩, dag₀.nodes.length) :=
        dif_pos hdeps
      simp only [build, Except.bind, hadd, Except.map]
      exact ih _ (by simp [hnodes])
  exact hall dag.nodes empty rfl

/-! ### Topological Sort -/

/-- `in_degree` and `dependents`. The degrees are of type `int`; an overflow
    is undefined in the source, and wraps here. -/
structure Edges where
  inDegree : List ℤ
  dependents : List (List ℕ)

/-- The node `i` depends on `dep`. -/
def Edges.add (i : ℕ) (g : Edges) (dep : ℕ) : Edges where
  inDegree := g.inDegree.modify i fun degree => Json.toInt32 (degree + 1)
  dependents := g.dependents.modify dep (· ++ [i])

/-- The loop over the nodes from the `i`-th on. -/
def countEdges (i : ℕ) : List DAGNode → Edges → Edges
  | [], g => g
  | node :: nodes, g => countEdges (i + 1) nodes (node.dependencies.foldl (Edges.add i) g)

def edges (dag : TaskDAG) : Edges :=
  countEdges 0 dag.nodes ⟨List.replicate dag.size 0, List.replicate dag.size []⟩

/-- The variables of the loop of Kahn's algorithm. -/
structure Kahn where
  inDegree : List ℤ
  ready : List ℕ
  level : List ℕ
  processed : ℕ

/-- `if (--in_degree[dep] == 0) ready.push(dep)`. -/
def Kahn.release (k : Kahn) (dep : ℕ) : Kahn :=
  let degree := Json.toInt32 (k.inDegree.getD dep 0 - 1)
  { k with
    inDegree := k.inDegree.set dep degree
    ready := if degree = 0 then k.ready ++ [dep] else k.ready }

/-- The body of the inner loop. -/
def Kahn.pop (dependents : List (List ℕ)) (k : Kahn) : Kahn :=
  match k.ready with
  | [] => k
  | node :: ready =>
      (dependents.getD node []).foldl Kahn.release
        { k with ready := ready, level := k.level ++ [node], processed := k.processed + 1 }

/-- The inner loop. -/
def Kahn.round (dependents : List (List ℕ)) : ℕ → Kahn → Kahn
  | 0, k => k
  | n + 1, k => round dependents n (k.pop dependents)

/-- The outer loop, for `fuel` rounds at most: the levels, and the number
    of nodes in them. -/
def Kahn.loop (dependents : List (List ℕ)) :
    ℕ → Kahn → List (List ℕ) → Option (List (List ℕ) × ℕ)
  | 0, _, _ => none
  | fuel + 1, k, levels =>
      if k.ready = [] then some (levels, k.processed)
      else
        let k' := Kahn.round dependents k.ready.length { k with level := [] }
        loop dependents fuel k' (levels ++ [k'.level])

/-- The nodes without dependencies. -/
def firstReady (inDegree : List ℤ) : List ℕ :=
  (List.range inDegree.length).filter fun i => inDegree.getD i 0 = 0

/-- `none` when the loop has not come to its end after a round for every
    node and one more. -/
def topologicalSort (dag : TaskDAG) : Option (Except Exn (List (List ℕ))) :=
  let g := dag.edges
  (Kahn.loop g.dependents (dag.size + 1) ⟨g.inDegree, firstReady g.inDegree, [], 0⟩ []).map
    fun (levels, processed) =>
      if processed = dag.size then .ok levels
      else .error (.runtimeError "Cycle detected in task DAG")

/-! ### Execution -/

/-- What `execute` has done. -/
structure Execution where
  results : ℕ → Option String
  allResults : List ToolResult
  /-- The calls given to the executor, with their nodes. -/
  executed : List (ℕ × ToolCall)

/-- The call of a node with its placeholders substituted. -/
def substituteCall (dag : TaskDAG) (results : ℕ → Option String) (idx : ℕ) : Option ToolCall :=
  match dag.nodes[idx]? with
  | none => none
  | some node =>
      (substitute node.call.argumentsJson results).map fun arguments =>
        { node.call with argumentsJson := arguments }

/-- The calls of a level; `none` when an exception leaves `substitute`. -/
def levelCalls (dag : TaskDAG) (results : ℕ → Option String) : List ℕ → Option (List ToolCall)
  | [] => some []
  | idx :: level =>
      match dag.substituteCall results idx, dag.levelCalls results level with
      | some call, some calls => some (call :: calls)
      | _, _ => none

/-- The loop that stores the results of a level. -/
def Execution.store : List ℕ → List ToolResult → Execution → Execution
  | idx :: level, result :: levelResults, e =>
      store level levelResults
        { e with
          results := Function.update e.results idx (some result.output)
          allResults := e.allResults ++ [result] }
  | _, _, e => e

/-- One level. -/
def executeLevel (dag : TaskDAG) (reg : ToolRegistry) (outcome : ℕ → ToolCall → ToolOutcome)
    (level : List ℕ) (e : Execution) : Except Exn Execution :=
  match dag.levelCalls e.results level with
  | none => .error .outOfRange
  | some calls =>
      match executeBatch reg calls (List.zipWith outcome level calls) with
      | none => .error .tool
      | some levelResults =>
          .ok (Execution.store level levelResults
            { e with executed := e.executed ++ level.zip calls })

def executeLevels (dag : TaskDAG) (reg : ToolRegistry) (outcome : ℕ → ToolCall → ToolOutcome) :
    List (List ℕ) → Execution → Except Exn Execution
  | [], e => .ok e
  | level :: levels, e =>
      match dag.executeLevel reg outcome level e with
      | .ok e' => dag.executeLevels reg outcome levels e'
      | .error exn => .error exn

/-- `execute`, with what it has done; the caller gets `allResults`. `none`
    when the sort has not come to its end. -/
def execute (dag : TaskDAG) (reg : ToolRegistry) (outcome : ℕ → ToolCall → ToolOutcome) :
    Option (Except Exn Execution) :=
  dag.topologicalSort.map fun
    | .ok levels => dag.executeLevels reg outcome levels ⟨fun _ => none, [], []⟩
    | .error exn => .error exn

end TaskDAG

end Forge
