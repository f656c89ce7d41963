import Forge.Workflow.TaskDag
import Mathlib.Algebra.Order.BigOperators.Group.List
import Mathlib.Data.List.Nodup
import Mathlib.Data.List.Perm.Subperm

/-! # Counters of a Task DAG

  Kahn's algorithm in `TaskDAG::topological_sort` counts, in an `int`, the
  dependencies a node still waits for. A dependency that is listed twice
  counts twice, and is released twice:

  - `edges_spec`: what the first loop counts;
  - `Kahn.Counts`: a node is queued as often as its counter comes to zero;
  - `topologicalSort_ends`: the loop ends, however many edges there are;
  - `unwrapped_of_ok`: the sort throws when a counter goes round.
-/

namespace Forge

namespace TaskDAG

/-- The dependencies of the `i`-th node. -/
def depsAt (nodes : List DAGNode) (i : ℕ) : List ℕ :=
  match nodes[i]? with
  | some node => node.dependencies
  | none => []

def deps (dag : TaskDAG) (i : ℕ) : List ℕ := depsAt dag.nodes i

theorem lt_of_mem_deps {dag : TaskDAG} {i d : ℕ} (hd : d ∈ dag.deps i) : d < i := by
  unfold deps depsAt at hd
  split at hd
  · next node hnode => exact dag.earlier i node hnode d hd
  · cases hd

theorem lt_size_of_mem_deps {dag : TaskDAG} {i d : ℕ} (hd : d ∈ dag.deps i) : i < dag.size := by
  unfold deps depsAt at hd
  split at hd
  · next node hnode => exact (List.getElem?_eq_some_iff.mp hnode).1
  · cases hd

/-! ### Counting the Edges -/

/-- The degree of a node, zero for a number that is none. -/
def Edges.degree (g : Edges) (i : ℕ) : ℤ := g.inDegree.getD i 0

/-- How often `i` depends on `d`. -/
def Edges.count (g : Edges) (d i : ℕ) : ℕ := (g.dependents.getD d []).count i

variable {g : Edges} {i : ℕ}

theorem Edges.add_degree (hi : i < g.inDegree.length) (dep j : ℕ) :
    (g.add i dep).degree j = if j = i then Json.toInt32 (g.degree j + 1) else g.degree j := by
  unfold Edges.degree Edges.add
  simp only [List.getD_eq_getElem?_getD, List.getElem?_modify]
  by_cases hij : j = i
  · subst hij
    simp [List.getElem?_eq_getElem hi]
  · simp [hij, Ne.symm hij]

theorem Edges.add_count {dep : ℕ} (hdep : dep < g.dependents.length) (d j : ℕ) :
    (g.add i dep).count d j = g.count d j + if j = i ∧ dep = d then 1 else 0 := by
  unfold Edges.count Edges.add
  simp only [List.getD_eq_getElem?_getD, List.getElem?_modify]
  by_cases hd : dep = d
  · subst hd
    by_cases hj : j = i
    · simp [List.getElem?_eq_getElem hdep, hj]
    · simp [List.getElem?_eq_getElem hdep, hj, Ne.symm hj]
  · simp [hd]

/-- The dependencies of one node. -/
theorem Edges.foldl_add (deps : List ℕ) {n : ℤ} (hi : i < g.inDegree.length)
    (hdeps : ∀ d ∈ deps, d < g.dependents.length) (hn : g.degree i = Json.toInt32 n) :
    (deps.foldl (Edges.add i) g).inDegree.length = g.inDegree.length ∧
    (deps.foldl (Edges.add i) g).dependents.length = g.dependents.length ∧
    (∀ j, (deps.foldl (Edges.add i) g).degree j =
      if j = i then Json.toInt32 (n + deps.length) else g.degree j) ∧
    ∀ d j, (deps.foldl (Edges.add i) g).count d j =
      g.count d j + if j = i then deps.count d else 0 := by
  induction deps generalizing g n with
  | nil =>
    refine ⟨rfl, rfl, fun j => ?_, by simp⟩
    by_cases hj : j = i
    · simp [hj, hn]
    · simp [hj]
  | cons dep deps ih =>
    have hdep : dep < g.dependents.length := hdeps dep List.mem_cons_self
    have hlen : (g.add i dep).inDegree.length = g.inDegree.length := by simp [Edges.add]
    have hlen' : (g.add i dep).dependents.length = g.dependents.length := by simp [Edges.add]
    have hn' : (g.add i dep).degree i = Json.toInt32 (n + 1) := by
      rw [Edges.add_degree hi, if_pos rfl, hn, Json.toInt32_toInt32_add]
    obtain ⟨h₁, h₂, h₃, h₄⟩ := ih (hlen ▸ hi) (fun d hd =>
      hlen' ▸ hdeps d (List.mem_cons_of_mem _ hd)) hn'
    refine ⟨h₁.trans hlen, h₂.trans hlen', ?_, ?_⟩
    · intro j
      rw [List.foldl_cons, h₃ j, Edges.add_degree hi, List.length_cons]
      by_cases hj : j = i
      · rw [if_pos hj, if_pos hj]
        push_cast
        congr 1
        omega
      · simp [hj]
    · intro d j
      rw [List.foldl_cons, h₄ d j, Edges.add_count hdep]
      by_cases hj : j = i
      · simp only [hj, true_and, if_true, List.count_cons, beq_iff_eq]
        omega
      · simp [hj]

/-- The nodes from the `i`-th on. -/
theorem countEdges_spec {nodes : List DAGNode} (hlen : i + nodes.length ≤ g.inDegree.length)
    (hdeps : ∀ j, ∀ d ∈ depsAt nodes j, d < g.dependents.length)
    (hzero : ∀ j, i ≤ j → g.degree j = 0) :
    (countEdges i nodes g).inDegree.length = g.inDegree.length ∧
    (∀ j, (countEdges i nodes g).degree j =
      if i ≤ j then Json.toInt32 (depsAt nodes (j - i)).length else g.degree j) ∧
    ∀ d j, (countEdges i nodes g).count d j =
      g.count d j + if i ≤ j then (depsAt nodes (j - i)).count d else 0 := by
  induction nodes generalizing g i with
  | nil =>
    refine ⟨rfl, fun j => ?_, by simp [countEdges, depsAt]⟩
    by_cases hj : i ≤ j
    · rw [countEdges, hzero j hj, if_pos hj, depsAt, List.getElem?_nil, List.length_nil,
        Json.toInt32_of_lt (by decide)]
      rfl
    · simp [countEdges, hj]
  | cons node nodes ih =>
    simp only [List.length_cons] at hlen
    have hstart : g.degree i = Json.toInt32 0 := by
      rw [hzero i le_rfl]
      decide
    obtain ⟨h₁, h₂, h₃, h₄⟩ := Edges.foldl_add node.dependencies (by omega) (hdeps 0) hstart
    have hzero' : ∀ j, i + 1 ≤ j → (node.dependencies.foldl (Edges.add i) g).degree j = 0 := by
      intro j hj
      rw [h₃ j, if_neg (by omega)]
      exact hzero j (by omega)
    obtain ⟨h₅, h₆, h₇⟩ := ih (i := i + 1) (g := node.dependencies.foldl (Edges.add i) g)
      (by omega) (fun j d hd => h₂ ▸ hdeps (j + 1) d hd) hzero'
    -- the node that is counted first is at zero in the list
    have hat : ∀ j, i < j → depsAt (node :: nodes) (j - i) = depsAt nodes (j - (i + 1)) := by
      intro j hj
      obtain ⟨k, rfl⟩ : ∃ k, j = i + 1 + k := ⟨j - (i + 1), by omega⟩
      rw [show i + 1 + k - i = k + 1 by omega, show i + 1 + k - (i + 1) = k by omega]
      rfl
    have hself : depsAt (node :: nodes) 0 = node.dependencies := rfl
    refine ⟨h₅.trans h₁, ?_, ?_⟩
    · intro j
      rw [countEdges, h₆ j, h₃ j, Int.zero_add]
      -- nodes below `i` are not counted here, `i` is counted now, the rest later
      rcases Nat.lt_trichotomy j i with hlt | rfl | hgt
      · simp [Nat.not_le.mpr hlt, show ¬i + 1 ≤ j by omega, show j ≠ i by omega]
      · simp [hself, show ¬j + 1 ≤ j by omega]
      · simp [hat j hgt, show i + 1 ≤ j by omega, hgt.le]
    · intro d j
      rw [countEdges, h₇ d j, h₄ d j]
      rcases Nat.lt_trichotomy j i with hlt | rfl | hgt
      · simp [Nat.not_le.mpr hlt, show ¬i + 1 ≤ j by omega, show j ≠ i by omega]
      · simp [hself, show ¬j + 1 ≤ j by omega]
      · simp [hat j hgt, show i + 1 ≤ j by omega, show j ≠ i by omega, hgt.le]

variable {dag : TaskDAG}

/-- **The first loop**: the degrees and, with its multiplicity, each node
    among the dependents of its dependencies. -/
theorem edges_spec (dag : TaskDAG) : dag.edges.inDegree.length = dag.size ∧
    (∀ i, dag.edges.degree i = Json.toInt32 (dag.deps i).length) ∧
    ∀ d i, dag.edges.count d i = (dag.deps i).count d := by
  let g₀ : Edges := ⟨List.replicate dag.size 0, List.replicate dag.size []⟩
  have hdeps : ∀ j, ∀ d ∈ depsAt dag.nodes j, d < g₀.dependents.length := by
    intro j d hd
    have hlt : d < j := lt_of_mem_deps (show d ∈ dag.deps j from hd)
    have hsize : j < dag.size := lt_size_of_mem_deps hd
    rw [List.length_replicate]
    omega
  have hlen : 0 + dag.nodes.length ≤ g₀.inDegree.length := by simp [g₀, size]
  have hzero : ∀ i, 0 ≤ i → g₀.degree i = 0 := by
    intro i _
    simp only [Edges.degree, g₀, List.getD_eq_getElem?_getD, List.getElem?_replicate]
    split <;> rfl
  obtain ⟨h₁, h₂, h₃⟩ := countEdges_spec hlen hdeps hzero
  refine ⟨h₁.trans (List.length_replicate ..), ?_, ?_⟩
  · intro i
    have hi := h₂ i
    rw [if_pos (Nat.zero_le i), Nat.sub_zero] at hi
    exact hi
  · intro d i
    have hzero : g₀.count d i = 0 := by
      simp only [Edges.count, g₀, List.getD_eq_getElem?_getD, List.getElem?_replicate]
      split <;> rfl
    have hi := h₃ d i
    rw [hzero, Nat.zero_add, if_pos (Nat.zero_le i), Nat.sub_zero] at hi
    exact hi

/-- A node comes behind those it is a dependent of. -/
theorem mem_dependents {v i : ℕ} (hi : i ∈ dag.edges.dependents.getD v []) :
    v < i ∧ i < dag.size := by
  obtain ⟨-, -, hcount⟩ := edges_spec dag
  have hpos : 0 < (dag.deps i).count v := by
    rw [← hcount v i]
    exact List.count_pos_iff.mpr hi
  have hmem := List.count_pos_iff.mp hpos
  exact ⟨lt_of_mem_deps hmem, lt_size_of_mem_deps hmem⟩

/-! ### Queue and Counters -/

def Kahn.degree (k : Kahn) (i : ℕ) : ℤ := k.inDegree.getD i 0

/-- How often the nodes that have been popped have released `i`. -/
def released (dag : TaskDAG) (done : List ℕ) (i : ℕ) : ℕ :=
  ((dag.deps i).map (done.count ·)).sum

/-- How often a counter is zero that starts at `len` and goes down `n`
    times. -/
def zeros (len : ℕ) : ℕ → ℕ
  | 0 => if Json.toInt32 len = 0 then 1 else 0
  | n + 1 => zeros len n + if Json.toInt32 (len - (n + 1 : ℕ)) = 0 then 1 else 0

/-- `done` are the nodes that have been popped, in order and as often as
    that was, `pending` the dependents of the last one that have not been
    released. -/
structure Kahn.Counts (dag : TaskDAG) (done pending : List ℕ) (k : Kahn) : Prop where
  length : k.inDegree.length = dag.size
  lt_size : ∀ i ∈ done ++ k.ready, i < dag.size
  counts : ∀ i < dag.size, ∃ n : ℕ, n + pending.count i = released dag done i ∧
    k.degree i = Json.toInt32 ((dag.deps i).length - n) ∧
    (done ++ k.ready).count i = zeros (dag.deps i).length n
  processed : k.processed = done.length

variable {k : Kahn} {done pending : List ℕ}

theorem Kahn.release_degree {dep : ℕ} (hdep : dep < k.inDegree.length) (i : ℕ) :
    (k.release dep).degree i =
      if i = dep then Json.toInt32 (k.degree i - 1) else k.degree i := by
  unfold Kahn.degree Kahn.release
  simp only [List.getD_eq_getElem?_getD, List.getElem?_set]
  by_cases hi : i = dep
  · subst hi
    simp [hdep]
  · simp [hi, Ne.symm hi]

/-- **Release of a dependent.** -/
theorem Kahn.Counts.release {dep : ℕ} (hk : k.Counts dag done (dep :: pending))
    (hdep : dep < dag.size) : (k.release dep).Counts dag done pending := by
  have hdegree := Kahn.release_degree (hk.length ▸ hdep)
  -- `if (--in_degree[dep] == 0) ready.push(dep)`
  have hready : (k.release dep).ready = if (k.release dep).degree dep = 0 then k.ready ++ [dep]
      else k.ready := by
    rw [hdegree, if_pos rfl]
    rfl
  refine ⟨?_, ?_, ?_, hk.processed⟩
  · simp only [Kahn.release, List.length_set]
    exact hk.length
  · intro i hi
    rw [hready] at hi
    split at hi
    · rw [← List.append_assoc, List.mem_append, List.mem_singleton] at hi
      rcases hi with hold | rfl
      · exact hk.lt_size i hold
      · exact hdep
    · exact hk.lt_size i hi
  · intro i hi
    obtain ⟨n, hn, hdeg, hcount⟩ := hk.counts i hi
    by_cases hid : i = dep
    · -- one release more, and one dependent less to be released
      subst hid
      rw [List.count_cons_self] at hn
      have hdeg' : (k.release i).degree i = Json.toInt32 ((dag.deps i).length - (n + 1 : ℕ)) := by
        rw [hdegree, if_pos rfl, hdeg, sub_eq_add_neg, Json.toInt32_toInt32_add]
        congr 1
        push_cast
        omega
      refine ⟨n + 1, by omega, hdeg', ?_⟩
      rw [hready, zeros, ← hcount, ← hdeg']
      split
      · rw [← List.append_assoc, List.count_append, List.count_singleton_self]
      · rfl
    · rw [List.count_cons_of_ne (Ne.symm hid)] at hn
      refine ⟨n, hn, ?_, ?_⟩
      · rw [hdegree, if_neg hid, hdeg]
      · rw [hready, ← hcount]
        split
        · rw [← List.append_assoc, List.count_append, List.count_singleton,
            if_neg (by simpa using Ne.symm hid), Nat.add_zero]
        · rfl

theorem Kahn.Counts.releaseAll (hk : k.Counts dag done pending)
    (hpending : ∀ i ∈ pending, i < dag.size) :
    (pending.foldl Kahn.release k).Counts dag done [] := by
  induction pending generalizing k with
  | nil => exact hk
  | cons dep pending ih =>
    exact ih (hk.release (hpending dep List.mem_cons_self)) fun i hi =>
      hpending i (List.mem_cons_of_mem _ hi)

/-- Releasing does not touch the level, and appends to the queue, in the
    order of the dependents. -/
theorem Kahn.releaseAll_level (pending : List ℕ) (k : Kahn) :
    (pending.foldl Kahn.release k).level = k.level ∧
      ∃ pushed, pushed.Sublist pending ∧
        (pending.foldl Kahn.release k).ready = k.ready ++ pushed := by
  induction pending generalizing k with
  | nil => exact ⟨rfl, [], .slnil, by simp⟩
  | cons dep pending ih =>
    obtain ⟨hlevel, pushed, hsub, hready⟩ := ih (k.release dep)
    refine ⟨hlevel, ?_⟩
    rw [List.foldl_cons, hready]
    unfold Kahn.release
    simp only
    split
    · exact ⟨dep :: pushed, hsub.cons_cons dep, by simp⟩
    · exact ⟨pushed, hsub.cons dep, rfl⟩

/-- A pop moves the node to the level, and appends to the queue. -/
theorem Kahn.pop_level (dependents : List (List ℕ)) {v : ℕ} {ready : List ℕ}
    (hready : k.ready = v :: ready) :
    (k.pop dependents).level = k.level ++ [v] ∧
      ∃ pushed, pushed.Sublist (dependents.getD v []) ∧
        (k.pop dependents).ready = ready ++ pushed := by
  simp only [Kahn.pop, hready]
  exact Kahn.releaseAll_level _ _

/-- A node that is popped once more has released its dependents once more. -/
theorem released_append (done : List ℕ) (v i : ℕ) :
    released dag (done ++ [v]) i = released dag done i + (dag.deps i).count v := by
  unfold released
  induction dag.deps i with
  | nil => rfl
  | cons d l ih =>
    rw [List.map_cons, List.map_cons, List.sum_cons, List.sum_cons, ih, List.count_append,
      List.count_singleton, List.count_cons]
    by_cases hd : v = d
    · subst hd
      simp only [beq_self_eq_true, if_true]
      omega
    · simp only [beq_iff_eq, hd, Ne.symm hd, if_false]
      omega

/-- **Pop of a node.** -/
theorem Kahn.Counts.pop {v : ℕ} {ready : List ℕ} (hk : k.Counts dag done [])
    (hready : k.ready = v :: ready) :
    (k.pop dag.edges.dependents).Counts dag (done ++ [v]) [] := by
  obtain ⟨-, -, hcount⟩ := edges_spec dag
  let k₁ : Kahn :=
    { k with ready := ready, level := k.level ++ [v], processed := k.processed + 1 }
  have hpop : k.pop dag.edges.dependents =
      (dag.edges.dependents.getD v []).foldl Kahn.release k₁ := by
    simp only [Kahn.pop, hready, k₁]
  have hsplit : done ++ k.ready = done ++ [v] ++ ready := by simp [hready]
  -- the node has left the queue, and its dependents still count it
  have hk₁ : k₁.Counts dag (done ++ [v]) (dag.edges.dependents.getD v []) := by
    refine ⟨hk.length, ?_, ?_, ?_⟩
    · have hlt := hk.lt_size
      rw [hsplit] at hlt
      exact hlt
    · intro i hi
      obtain ⟨n, hn, hdeg, hzeros⟩ := hk.counts i hi
      have hi' : (dag.edges.dependents.getD v []).count i = (dag.deps i).count v := hcount v i
      rw [hsplit] at hzeros
      refine ⟨n, ?_, hdeg, hzeros⟩
      rw [released_append, hi', ← hn, List.count_nil, Nat.add_zero]
    · simp [k₁, hk.processed]
  rw [hpop]
  exact hk₁.releaseAll fun i hi => (mem_dependents hi).2

/-- The start of the loop. -/
theorem kahn_start (dag : TaskDAG) :
    Kahn.Counts dag [] [] ⟨dag.edges.inDegree, firstReady dag.edges.inDegree, [], 0⟩ := by
  obtain ⟨hlen, hdegree, -⟩ := edges_spec dag
  refine ⟨hlen, ?_, ?_, rfl⟩
  · intro i hi
    simp only [List.nil_append, firstReady, hlen, List.mem_filter, List.mem_range] at hi
    exact hi.1
  · intro i hi
    refine ⟨0, by simp [released], ?_, ?_⟩
    · rw [Nat.cast_zero, sub_zero]
      exact hdegree i
    · -- once in the queue, or not
      have hnodup : (firstReady dag.edges.inDegree).Nodup := List.nodup_range.filter _
      rw [List.nil_append, hnodup.count, zeros, ← hdegree i]
      simp [firstReady, Edges.degree, hlen, hi]

/-! ### Rounds -/

/-- **A round** pops the nodes that are in the queue at its start. What it
    pushes goes behind them. -/
theorem Kahn.round_queue (dependents : List (List ℕ)) {n : ℕ} (hn : n ≤ k.ready.length) :
    (Kahn.round dependents n k).level = k.level ++ k.ready.take n ∧
      ∃ pushed, (Kahn.round dependents n k).ready = k.ready.drop n ++ pushed ∧
        ∀ i ∈ pushed, ∃ v ∈ k.ready.take n, i ∈ dependents.getD v [] := by
  induction n generalizing k with
  | zero => simp [Kahn.round]
  | succ n ih =>
    cases hready : k.ready with
    | nil => simp [hready] at hn
    | cons v ready =>
      obtain ⟨hlevel, pushed, hsub, hready'⟩ := Kahn.pop_level dependents hready
      have hn' : n ≤ ready.length := by simpa [hready] using hn
      obtain ⟨hlevel', pushed', hready'', hfrom⟩ := ih (k := k.pop dependents)
        (by rw [hready', List.length_append]; omega)
      rw [hready', List.take_append_of_le_length hn'] at hlevel' hfrom
      rw [hready', List.drop_append_of_le_length hn', List.append_assoc] at hready''
      rw [hlevel] at hlevel'
      refine ⟨by simpa [Kahn.round] using hlevel', pushed ++ pushed', hready'', ?_⟩
      intro i hi
      rcases List.mem_append.mp hi with hfirst | hlater
      · exact ⟨v, List.mem_cons_self, hsub.subset hfirst⟩
      · obtain ⟨u, hu, hmem⟩ := hfrom i hlater
        exact ⟨u, List.mem_cons_of_mem v hu, hmem⟩

/-- A round keeps what a pop keeps. -/
theorem Kahn.round_spec {P : List ℕ → Kahn → Prop} {dependents : List (List ℕ)}
    (hP : ∀ done k v ready, k.ready = v :: ready → P done k → P (done ++ [v]) (k.pop dependents))
    {n : ℕ} (hk : P done k) (hn : n ≤ k.ready.length) :
    P (done ++ k.ready.take n) (Kahn.round dependents n k) := by
  induction n generalizing k done with
  | zero => simpa [Kahn.round] using hk
  | succ n ih =>
    cases hready : k.ready with
    | nil => simp [hready] at hn
    | cons v ready =>
      obtain ⟨-, pushed, -, hready'⟩ := Kahn.pop_level dependents hready
      have hn' : n ≤ ready.length := by simpa [hready] using hn
      have hround := ih (hP done k v ready hready hk) (by rw [hready', List.length_append]; omega)
      rw [hready', List.take_append_of_le_length hn'] at hround
      simpa [Kahn.round] using hround

/-- `level` is cleared at the start of a round. -/
theorem Kahn.round_level (dependents : List (List ℕ)) (k : Kahn) :
    (Kahn.round dependents k.ready.length { k with level := [] }).level = k.ready ∧
      ∀ i ∈ (Kahn.round dependents k.ready.length { k with level := [] }).ready,
        ∃ v ∈ k.ready, i ∈ dependents.getD v [] := by
  obtain ⟨hlevel, pushed, hready, hfrom⟩ := Kahn.round_queue (k := { k with level := [] })
    dependents (n := k.ready.length) le_rfl
  rw [List.take_length] at hlevel hfrom
  rw [List.drop_length, List.nil_append] at hready
  exact ⟨hlevel, fun i hi => hfrom i (hready ▸ hi)⟩

/-- **The loop** keeps what a round keeps. -/
theorem Kahn.loop_spec {S : List (List ℕ) → Kahn → Prop} {dependents : List (List ℕ)}
    (hS : ∀ levels k, k.ready ≠ [] → S levels k →
      S (levels ++ [k.ready]) (Kahn.round dependents k.ready.length { k with level := [] }))
    {fuel n : ℕ} {levels levels' : List (List ℕ)} (hk : S levels k)
    (h : Kahn.loop dependents fuel k levels = some (levels', n)) :
    ∃ k', S levels' k' ∧ k'.ready = [] ∧ k'.processed = n := by
  induction fuel generalizing k levels with
  | zero => cases h
  | succ fuel ih =>
    rw [Kahn.loop] at h
    by_cases hready : k.ready = []
    · rw [if_pos hready] at h
      cases h
      exact ⟨k, hk, hready, rfl⟩
    · rw [if_neg hready] at h
      simp only [(Kahn.round_level dependents k).1] at h
      exact ih (hS levels k hready hk) h

/-- In the `n`-th round, counted from zero, there is no node below `n`, so
    that as many rounds as there are nodes empty the queue. -/
theorem Kahn.loop_ends (dag : TaskDAG) {n fuel : ℕ} {levels : List (List ℕ)}
    (hready : ∀ i ∈ k.ready, n ≤ i ∧ i < dag.size) (hn : n ≤ dag.size)
    (hfuel : dag.size < n + fuel) :
    ∃ result, Kahn.loop dag.edges.dependents fuel k levels = some result := by
  induction fuel generalizing k n levels with
  | zero => omega
  | succ fuel ih =>
    rw [Kahn.loop]
    by_cases hnil : k.ready = []
    · exact ⟨_, if_pos hnil⟩
    · rw [if_neg hnil]
      have hlt : n < dag.size := by
        obtain ⟨v, hv⟩ := List.exists_mem_of_ne_nil _ hnil
        have hvn := hready v hv
        omega
      refine ih (n := n + 1) ?_ hlt (by omega)
      -- what is pushed is behind a node of this round
      intro i hi
      obtain ⟨v, hv, hmem⟩ := (Kahn.round_level dag.edges.dependents k).2 i hi
      have hvn := hready v hv
      have hdep := mem_dependents hmem
      omega

/-- **Termination**: the sort returns or throws. -/
theorem topologicalSort_ends (dag : TaskDAG) : ∃ result, dag.topologicalSort = some result := by
  have hready : ∀ i ∈ firstReady dag.edges.inDegree, 0 ≤ i ∧ i < dag.size := fun i hi =>
    ⟨Nat.zero_le i, (kahn_start dag).lt_size i (List.mem_append_right [] hi)⟩
  have hfuel : dag.size < 0 + (dag.size + 1) := by omega
  obtain ⟨result, hloop⟩ : ∃ result, Kahn.loop dag.edges.dependents (dag.size + 1)
      ⟨dag.edges.inDegree, firstReady dag.edges.inDegree, [], 0⟩ [] = some result :=
    Kahn.loop_ends dag hready (Nat.zero_le _) hfuel
  exact ⟨_, Option.map_eq_some_iff.mpr ⟨result, hloop, rfl⟩⟩

/-! ### Counters That Go Round -/

/-- No counter comes to zero before its time. -/
def Unwrapped (dag : TaskDAG) : Prop := ∀ i, (dag.deps i).length < 2 ^ 32

theorem zeros_mono {len n m : ℕ} (h : n ≤ m) : zeros len n ≤ zeros len m := by
  induction m, h using Nat.le_induction with
  | base => exact le_rfl
  | succ m _ ih => exact ih.trans (Nat.le_add_right _ _)

theorem toInt32_eq_zero_iff (i : ℤ) : Json.toInt32 i = 0 ↔ (2 ^ 32 : ℤ) ∣ i :=
  Int.dvd_iff_bmod_eq_zero.symm

theorem zeros_pos {len n : ℕ} (h : (2 ^ 32 : ℤ) ∣ len - n) : 0 < zeros len n := by
  have hzero := (toInt32_eq_zero_iff _).mpr h
  cases n with
  | zero =>
    rw [Nat.cast_zero, sub_zero] at hzero
    rw [zeros, if_pos hzero]
    exact Nat.one_pos
  | succ n =>
    rw [zeros, if_pos hzero]
    exact Nat.succ_pos _

theorem zeros_self_pos (len : ℕ) : 0 < zeros len len := zeros_pos (by simp)

/-- Without going round a counter is zero at its end only. -/
theorem zeros_of_lt {len n : ℕ} (hlen : len < 2 ^ 32) (hn : n < len) : zeros len n = 0 := by
  induction n with
  | zero =>
    rw [zeros, if_neg]
    rw [toInt32_eq_zero_iff]
    omega
  | succ n ih =>
    rw [zeros, ih (by omega), if_neg]
    rw [toInt32_eq_zero_iff]
    omega

theorem zeros_self {len : ℕ} (hlen : len < 2 ^ 32) : zeros len len = 1 := by
  have hpos := zeros_self_pos len
  cases len with
  | zero => rfl
  | succ n =>
    have hlt := zeros_of_lt hlen (Nat.lt_succ_self n)
    rw [zeros, hlt] at hpos ⊢
    split at hpos
    · next hzero => rw [if_pos hzero]
    · simp at hpos

/-- A counter that goes round is zero twice. -/
theorem two_le_zeros {len n : ℕ} (hlen : 2 ^ 32 ≤ len) (hn : len ≤ n) : 2 ≤ zeros len n := by
  obtain ⟨m, rfl⟩ : ∃ m, len = m + 1 := ⟨len - 1, by omega⟩
  have hround : 0 < zeros (m + 1) (m + 1 - 2 ^ 32) := by
    apply zeros_pos
    rw [Nat.cast_sub hlen]
    simp
  have hbefore : 0 < zeros (m + 1) m := hround.trans_le (zeros_mono (by omega))
  have hself : zeros (m + 1) (m + 1) = zeros (m + 1) m + 1 := by
    rw [zeros, sub_self]
    rfl
  have hle : zeros (m + 1) (m + 1) ≤ zeros (m + 1) n := zeros_mono hn
  omega

/-- What has released all dependencies has come to zero. -/
theorem length_le_released {i : ℕ} (h : ∀ d ∈ dag.deps i, d ∈ done) :
    (dag.deps i).length ≤ released dag done i := by
  have hone : ∀ n ∈ (dag.deps i).map (done.count ·), 1 ≤ n := by
    intro n hn
    obtain ⟨d, hd, rfl⟩ := List.mem_map.mp hn
    exact List.count_pos_iff.mpr (h d hd)
  have hle := List.length_le_sum_of_one_le _ hone
  rwa [List.length_map] at hle

/-- When the queue is empty every node has been popped. -/
theorem Kahn.Counts.all_popped (hk : k.Counts dag done []) (hready : k.ready = []) :
    ∀ i < dag.size, i ∈ done := by
  intro i
  -- dependencies are smaller
  induction i using Nat.strong_induction_on with
  | _ i ih =>
    intro hi
    obtain ⟨n, hn, -, hcount⟩ := hk.counts i hi
    rw [List.count_nil, Nat.add_zero] at hn
    rw [hready, List.append_nil] at hcount
    have hle : (dag.deps i).length ≤ n := by
      rw [hn]
      refine length_le_released fun d hd => ?_
      have hlt := lt_of_mem_deps hd
      exact ih d hlt (hlt.trans hi)
    have hpos := (zeros_self_pos _).trans_le (zeros_mono hle)
    rw [← hcount] at hpos
    exact List.count_pos_iff.mp hpos

/-- The counters at the end of the sort. -/
theorem topologicalSort_counts {levels : List (List ℕ)}
    (h : dag.topologicalSort = some (.ok levels)) :
    ∃ k : Kahn, k.Counts dag levels.flatten [] ∧ k.ready = [] ∧ k.processed = dag.size := by
  simp only [topologicalSort, Option.map_eq_some_iff] at h
  obtain ⟨⟨levels', processed⟩, hloop, hok⟩ := h
  split at hok
  case isFalse => cases hok
  case isTrue hprocessed =>
    cases hok
    have hstart : Kahn.Counts dag ([] : List (List ℕ)).flatten []
        ⟨dag.edges.inDegree, firstReady dag.edges.inDegree, [], 0⟩ := kahn_start dag
    obtain ⟨k, hk, hready, hk'⟩ := Kahn.loop_spec
      (S := fun levels (k : Kahn) => k.Counts dag levels.flatten [])
      (fun levels k _ hk => by
        have hk₀ : Kahn.Counts dag levels.flatten [] { k with level := [] } :=
          ⟨hk.length, hk.lt_size, hk.counts, hk.processed⟩
        have hround := Kahn.round_spec (P := fun done k => k.Counts dag done [])
          (fun _ _ _ _ hready hk => hk.pop hready) hk₀ (n := k.ready.length) le_rfl
        simpa using hround)
      hstart hloop
    exact ⟨k, hk, hready, hk'.trans hprocessed⟩

/-- **Too many dependencies**: the sort throws when the counter of a node
    goes round, because the node is queued again. -/
theorem unwrapped_of_ok {levels : List (List ℕ)} (h : dag.topologicalSort = some (.ok levels)) :
    Unwrapped dag := by
  obtain ⟨k, hk, hready, hprocessed⟩ := topologicalSort_counts h
  have hall := hk.all_popped hready
  -- as many pops as nodes, and every node is popped
  have hsub : (List.range dag.size).Subperm levels.flatten :=
    List.subperm_of_subset List.nodup_range fun i hi => hall i (List.mem_range.mp hi)
  have hlen : levels.flatten.length ≤ (List.range dag.size).length := by
    rw [List.length_range, ← hprocessed, hk.processed]
  have hperm := hsub.perm_of_length_le hlen
  have hnodup : levels.flatten.Nodup := hperm.nodup_iff.mp List.nodup_range
  intro i
  by_contra hge
  rw [Nat.not_lt] at hge
  have hi : i < dag.size := by
    have hpos : 0 < (dag.deps i).length := by omega
    obtain ⟨d, hd⟩ := List.exists_mem_of_length_pos hpos
    exact lt_size_of_mem_deps hd
  obtain ⟨n, hn, -, hcount⟩ := hk.counts i hi
  rw [List.count_nil, Nat.add_zero] at hn
  rw [hready, List.append_nil] at hcount
  have hle : (dag.deps i).length ≤ n := by
    rw [hn]
    exact length_le_released fun d hd => hall d ((lt_of_mem_deps hd).trans hi)
  have htwo := two_le_zeros hge hle
  have hone := List.nodup_iff_count_le_one.mp hnodup i
  omega

theorem throws_of_not_unwrapped (h : ¬Unwrapped dag) :
    dag.topologicalSort = some (.error (.runtimeError "Cycle detected in task DAG")) := by
  obtain ⟨result, hsort⟩ := topologicalSort_ends dag
  cases result with
  | ok levels => exact absurd (unwrapped_of_ok hsort) h
  | error exn =>
    -- there is no other exception
    have hthrow := hsort
    simp only [topologicalSort, Option.map_eq_some_iff] at hthrow
    obtain ⟨⟨levels, processed⟩, -, hexn⟩ := hthrow
    split at hexn
    · cases hexn
    · cases hexn
      exact hsort

end TaskDAG

end Forge
