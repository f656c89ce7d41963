import Forge.Workflow.TaskDagCounters

/-! # Levels of a Task DAG

  The levels of `TaskDAG::topological_sort` when no counter goes round:

  - `Kahn.Inv`: no node is queued twice, and a node is queued when its
    dependencies have been popped;
  - `Layered`: what the levels are;
  - `topologicalSort_eq`: the sort ends, without an exception;
  - `topologicalSort_levels`: the number of the level of each node.
-/

namespace Forge

namespace TaskDAG

variable {dag : TaskDAG} {k : Kahn} {done : List ℕ}

/-! ### Queue and Counters -/

/-- `done` are the nodes that have been popped. -/
structure Kahn.Inv (dag : TaskDAG) (done : List ℕ) (k : Kahn) : Prop where
  counts : k.Counts dag done []
  nodup : (done ++ k.ready).Nodup
  mem_iff : ∀ i, i ∈ done ++ k.ready ↔ i < dag.size ∧ ∀ d ∈ dag.deps i, d ∈ done

/-- Nodes that have been popped once release a dependent once for each of
    its dependencies among them. -/
theorem released_eq (hnodup : done.Nodup) (i : ℕ) :
    released dag done i = (dag.deps i).countP (· ∈ done) := by
  unfold released
  induction dag.deps i with
  | nil => rfl
  | cons d l ih =>
    rw [List.map_cons, List.sum_cons, ih, List.countP_cons, hnodup.count]
    by_cases hd : d ∈ done <;> simp [hd]
    omega

/-- **Without going round** a node is queued once, when its dependencies
    have been popped. -/
theorem Kahn.Counts.inv (hdag : Unwrapped dag) (hk : k.Counts dag done []) (hnodup : done.Nodup) :
    k.Inv dag done := by
  have hcount : ∀ i < dag.size, (done ++ k.ready).count i =
      if ∀ d ∈ dag.deps i, d ∈ done then 1 else 0 := by
    intro i hi
    obtain ⟨n, hn, -, hcount⟩ := hk.counts i hi
    rw [List.count_nil, Nat.add_zero, released_eq hnodup] at hn
    rw [hcount]
    split
    · next hall =>
      have hself : n = (dag.deps i).length := by
        rw [hn, List.countP_eq_length]
        simpa using hall
      rw [hself, zeros_self (hdag i)]
    · next hsome =>
      -- the counter has not come down to zero
      have hlt : n < (dag.deps i).length := by
        rw [hn]
        refine lt_of_le_of_ne List.countP_le_length fun heq => hsome ?_
        simpa using List.countP_eq_length.mp heq
      exact zeros_of_lt (hdag i) hlt
  refine ⟨hk, ?_, ?_⟩
  · rw [List.nodup_iff_count_le_one]
    intro i
    by_cases hi : i < dag.size
    · rw [hcount i hi]
      split <;> omega
    · rw [List.count_eq_zero_of_not_mem fun hmem => hi (hk.lt_size i hmem)]
      omega
  · intro i
    constructor
    · intro hmem
      have hi := hk.lt_size i hmem
      have hpos := List.count_pos_iff.mpr hmem
      rw [hcount i hi] at hpos
      refine ⟨hi, ?_⟩
      by_contra hnot
      rw [if_neg hnot] at hpos
      exact absurd hpos (Nat.lt_irrefl 0)
    · rintro ⟨hi, hall⟩
      apply List.count_pos_iff.mp
      rw [hcount i hi, if_pos hall]
      exact Nat.one_pos

/-- **Pop of a node.** -/
theorem Kahn.Inv.pop (hdag : Unwrapped dag) {v : ℕ} {ready : List ℕ} (hk : k.Inv dag done)
    (hready : k.ready = v :: ready) : (k.pop dag.edges.dependents).Inv dag (done ++ [v]) := by
  refine (hk.counts.pop hready).inv hdag ?_
  -- the node has been in the queue, and nowhere else
  have hnodup := hk.nodup
  rw [hready, ← List.singleton_append, ← List.append_assoc] at hnodup
  exact (List.nodup_append.mp hnodup).1

/-- What holds of the popped nodes and the queue, and is kept when a node
    is popped. -/
def Kept (dag : TaskDAG) (Q : List ℕ → List ℕ → Prop) : Prop :=
  ∀ (k : Kahn) (done : List ℕ) (v : ℕ) (ready pushed : List ℕ), k.Inv dag done →
    k.ready = v :: ready → pushed.Sublist (dag.edges.dependents.getD v []) →
    (k.pop dag.edges.dependents).Inv dag (done ++ [v]) →
    (k.pop dag.edges.dependents).ready = ready ++ pushed → Q done (v :: ready) →
    Q (done ++ [v]) (ready ++ pushed)

variable {Q : List ℕ → List ℕ → Prop}

/-- **A round.** -/
theorem Kahn.Inv.round (hdag : Unwrapped dag) (hQ : Kept dag Q) {n : ℕ} (hk : k.Inv dag done)
    (hq : Q done k.ready) (hn : n ≤ k.ready.length) :
    (Kahn.round dag.edges.dependents n k).Inv dag (done ++ k.ready.take n) ∧
      Q (done ++ k.ready.take n) (Kahn.round dag.edges.dependents n k).ready := by
  refine Kahn.round_spec (P := fun done k => k.Inv dag done ∧ Q done k.ready) ?_ ⟨hk, hq⟩ hn
  rintro done k v ready hready ⟨hk, hq⟩
  obtain ⟨-, pushed, hsub, hready'⟩ := Kahn.pop_level dag.edges.dependents hready
  have hpop := hk.pop hdag hready
  rw [hready']
  exact ⟨hpop, hQ k done v ready pushed hk hready hsub hpop hready' (hready ▸ hq)⟩

/-! ### Levels -/

/-- Node `i` belongs behind these levels: its dependencies are in them, and
    one is in the last. -/
def Behind (dag : TaskDAG) (levels : List (List ℕ)) (i : ℕ) : Prop :=
  (∀ d ∈ dag.deps i, d ∈ levels.flatten) ∧
    ∀ level, levels.getLast? = some level → ∃ d ∈ dag.deps i, d ∈ level

/-- Every level is what belongs behind the levels before it. -/
def Layered (dag : TaskDAG) (levels : List (List ℕ)) : Prop :=
  ∀ n level, levels[n]? = some level → level ≠ [] ∧ ∀ i ∈ level, Behind dag (levels.take n) i

theorem Layered.append {levels : List (List ℕ)} {level : List ℕ} (hl : Layered dag levels)
    (hne : level ≠ []) (hlevel : ∀ i ∈ level, Behind dag levels i) :
    Layered dag (levels ++ [level]) := by
  intro n level' hn
  rcases Nat.lt_trichotomy n levels.length with hlt | rfl | hgt
  · rw [List.getElem?_append_left hlt] at hn
    rw [List.take_append_of_le_length hlt.le]
    exact hl n level' hn
  · rw [List.getElem?_concat_length, Option.some.injEq] at hn
    subst hn
    rw [List.take_left]
    exact ⟨hne, hlevel⟩
  · rw [List.getElem?_eq_none (by simp; omega)] at hn
    cases hn

/-- A node that has become ready in a round had to wait for one of it. -/
theorem Kahn.Inv.behind {k' : Kahn} {levels : List (List ℕ)}
    (hk : k.Inv dag levels.flatten) (hk' : k'.Inv dag (levels ++ [k.ready]).flatten)
    {i : ℕ} (hi : i ∈ k'.ready) : Behind dag (levels ++ [k.ready]) i := by
  have hall := (hk'.mem_iff i).mp (List.mem_append_right _ hi)
  refine ⟨hall.2, ?_⟩
  intro level hlast
  obtain rfl : k.ready = level := by simpa using hlast
  -- otherwise it was ready before
  by_contra hnone
  have hbefore : i ∈ levels.flatten ++ k.ready := by
    refine (hk.mem_iff i).mpr ⟨hall.1, fun d hd => ?_⟩
    have hmem := hall.2 d hd
    rw [List.flatten_append, List.mem_append] at hmem
    rcases hmem with hold | hnew
    · exact hold
    · exact absurd ⟨d, hd, by simpa using hnew⟩ hnone
  have hnodup := hk'.nodup
  rw [List.nodup_append] at hnodup
  exact hnodup.2.2 i (by simpa using hbefore) i hi rfl

/-- When the queue is empty all nodes have been popped. -/
theorem Kahn.Inv.perm (hk : k.Inv dag done) (hready : k.ready = []) :
    done.Perm (List.range dag.size) := by
  have hnodup := hk.nodup
  rw [hready, List.append_nil] at hnodup
  rw [List.perm_ext_iff_of_nodup hnodup List.nodup_range]
  intro i
  rw [List.mem_range]
  exact ⟨fun hi => hk.counts.lt_size i (List.mem_append_left _ hi),
    hk.counts.all_popped hready i⟩

/-- What holds between two rounds. -/
structure Rounds (dag : TaskDAG) (Q : List ℕ → List ℕ → Prop) (levels : List (List ℕ))
    (k : Kahn) : Prop where
  inv : k.Inv dag levels.flatten
  kept : Q levels.flatten k.ready
  layered : Layered dag levels
  behind : ∀ i ∈ k.ready, Behind dag levels i

theorem Rounds.round (hdag : Unwrapped dag) (hQ : Kept dag Q) {levels : List (List ℕ)}
    (hr : Rounds dag Q levels k) (hready : k.ready ≠ []) :
    Rounds dag Q (levels ++ [k.ready])
      (Kahn.round dag.edges.dependents k.ready.length { k with level := [] }) := by
  have hk₀ : Kahn.Inv dag levels.flatten { k with level := [] } :=
    ⟨⟨hr.inv.counts.length, hr.inv.counts.lt_size, hr.inv.counts.counts, hr.inv.counts.processed⟩,
      hr.inv.nodup, hr.inv.mem_iff⟩
  obtain ⟨hround, hq⟩ := hk₀.round hdag hQ hr.kept le_rfl
  have hflatten : levels.flatten ++ k.ready.take k.ready.length =
      (levels ++ [k.ready]).flatten := by simp
  rw [hflatten] at hround hq
  exact ⟨hround, hq, hr.layered.append hready hr.behind, fun i hi => hr.inv.behind hround hi⟩

/-- The start of the loop. -/
theorem kahn_start_inv (hdag : Unwrapped dag) :
    Kahn.Inv dag [] ⟨dag.edges.inDegree, firstReady dag.edges.inDegree, [], 0⟩ :=
  (kahn_start dag).inv hdag List.nodup_nil

/-- **The sort** ends without an exception, with levels that have every
    node once, and with what the queue keeps. -/
theorem topologicalSort_eq (hdag : Unwrapped dag) (hQ : Kept dag Q)
    (hq : Q [] (firstReady dag.edges.inDegree)) :
    ∃ levels, dag.topologicalSort = some (.ok levels) ∧ Layered dag levels ∧
      levels.flatten.Perm (List.range dag.size) ∧ Q levels.flatten [] := by
  have hk := kahn_start_inv hdag
  have hbehind : ∀ i ∈ firstReady dag.edges.inDegree, Behind dag [] i := fun i hi =>
    ⟨((hk.mem_iff i).mp (List.mem_append_right [] hi)).2, by simp⟩
  have hstart : Rounds dag Q [] ⟨dag.edges.inDegree, firstReady dag.edges.inDegree, [], 0⟩ :=
    ⟨hk, hq, by simp [Layered], hbehind⟩
  obtain ⟨result, hsort⟩ := topologicalSort_ends dag
  simp only [topologicalSort, Option.map_eq_some_iff] at hsort ⊢
  obtain ⟨⟨levels, processed⟩, hloop, -⟩ := hsort
  obtain ⟨k, hr, hready, hprocessed⟩ := Kahn.loop_spec
    (fun levels k hready hr => hr.round hdag hQ hready) hstart hloop
  -- every node has been popped once
  have hperm := hr.inv.perm hready
  have hsize : processed = dag.size := by
    rw [← hprocessed, hr.inv.counts.processed, hperm.length_eq, List.length_range]
  exact ⟨levels, ⟨_, hloop, if_pos hsize⟩, hr.layered, hperm, hready ▸ hr.kept⟩

/-- The levels, without more about the queue. -/
theorem exists_levels (hdag : Unwrapped dag) :
    ∃ levels, dag.topologicalSort = some (.ok levels) ∧ Layered dag levels ∧
      levels.flatten.Perm (List.range dag.size) := by
  have hkept : Kept dag fun _ _ => True := fun _ _ _ _ _ _ _ _ _ _ _ => trivial
  obtain ⟨levels, hsort, hl, hperm, -⟩ := topologicalSort_eq hdag hkept trivial
  exact ⟨levels, hsort, hl, hperm⟩

/-! ### Level Numbers -/

/-- The number of the level a node is in. -/
def levelNumber (levels : List (List ℕ)) (i : ℕ) : ℕ := levels.findIdx (i ∈ ·)

theorem levelNumber_eq {levels : List (List ℕ)} {level : List ℕ} {n i : ℕ}
    (hnodup : levels.flatten.Nodup) (hn : levels[n]? = some level) (hi : i ∈ level) :
    levelNumber levels i = n := by
  obtain ⟨hlt, rfl⟩ := List.getElem?_eq_some_iff.mp hn
  rw [levelNumber, List.findIdx_eq hlt]
  refine ⟨by simpa using hi, fun j hj => ?_⟩
  have hdisjoint := List.pairwise_iff_getElem.mp (List.nodup_flatten.mp hnodup).2 j n
    (hj.trans hlt) hlt hj
  simp only [decide_eq_false_iff_not]
  exact fun hmem => hdisjoint hmem hi

theorem exists_level {levels : List (List ℕ)} {i : ℕ} (hi : i ∈ levels.flatten) :
    ∃ (n : ℕ) (level : List ℕ), levels[n]? = some level ∧ i ∈ level := by
  obtain ⟨level, hmem, hi'⟩ := List.mem_flatten.mp hi
  obtain ⟨n, hn⟩ := List.mem_iff_getElem?.mp hmem
  exact ⟨n, level, hn, hi'⟩

/-- A node in a level has its dependencies in the levels before. -/
theorem Layered.lt_of_mem_deps {levels : List (List ℕ)} (hl : Layered dag levels)
    (hnodup : levels.flatten.Nodup) {n i d : ℕ} {level : List ℕ} (hn : levels[n]? = some level)
    (hi : i ∈ level) (hd : d ∈ dag.deps i) : levelNumber levels d < n := by
  obtain ⟨m, level', hm, hmem⟩ := exists_level (((hl n level hn).2 i hi).1 d hd)
  obtain ⟨hlt, -⟩ := List.getElem?_eq_some_iff.mp hm
  rw [List.length_take] at hlt
  rw [List.getElem?_take_of_lt (by omega)] at hm
  rw [levelNumber_eq hnodup hm hmem]
  omega

/-- No node lists more dependencies than an `int` can count. -/
def CountsFit (dag : TaskDAG) : Prop := ∀ node ∈ dag.nodes, node.dependencies.length < 2 ^ 31

instance : Decidable (CountsFit dag) := inferInstanceAs (Decidable (∀ node ∈ dag.nodes, _))

theorem CountsFit.unwrapped (h : CountsFit dag) : Unwrapped dag := by
  intro i
  unfold deps depsAt
  split
  · next node hnode =>
    have hlt := h node (List.mem_of_getElem? hnode)
    omega
  · simp

/-- **Level numbers**: the sort ends without an exception, every node is in
    one level, and its number is zero, or one more than the greatest
    number among its dependencies. -/
theorem topologicalSort_levels (dag : TaskDAG) (hfit : CountsFit dag) :
    ∃ levels, dag.topologicalSort = some (.ok levels) ∧ (∀ level ∈ levels, level ≠ []) ∧
      levels.flatten.Perm (List.range dag.size) ∧
      ∀ i < dag.size, levelNumber levels i =
        match ((dag.deps i).map (levelNumber levels)).max? with
        | none => 0
        | some greatest => greatest + 1 := by
  obtain ⟨levels, hsort, hl, hperm⟩ := exists_levels hfit.unwrapped
  have hnodup : levels.flatten.Nodup := hperm.nodup_iff.mpr List.nodup_range
  refine ⟨levels, hsort, ?_, hperm, ?_⟩
  · intro level hmem
    obtain ⟨n, hn⟩ := List.mem_iff_getElem?.mp hmem
    exact (hl n level hn).1
  · intro i hi
    obtain ⟨n, level, hn, hmem⟩ := exists_level (hperm.mem_iff.mpr (List.mem_range.mpr hi))
    obtain ⟨hall, hlast⟩ := (hl n level hn).2 i hmem
    rw [levelNumber_eq hnodup hn hmem]
    cases n with
    | zero =>
      -- nothing is before the first level
      have hnil : dag.deps i = [] := by
        rw [List.eq_nil_iff_forall_not_mem]
        intro d hd
        simpa using hall d hd
      simp [hnil]
    | succ n =>
      obtain ⟨hlt, -⟩ := List.getElem?_eq_some_iff.mp hn
      -- one dependency is in the level before, and none is behind it
      have hbefore : (levels.take (n + 1)).getLast? = some levels[n] := by
        rw [List.getLast?_take]
        simp [List.getElem?_eq_getElem (Nat.lt_of_succ_lt hlt)]
      obtain ⟨d, hd, hmem'⟩ := hlast _ hbefore
      have hnumber : levelNumber levels d = n :=
        levelNumber_eq hnodup (List.getElem?_eq_getElem (Nat.lt_of_succ_lt hlt)) hmem'
      have hmax : ((dag.deps i).map (levelNumber levels)).max? = some n := by
        rw [List.max?_eq_some_iff]
        refine ⟨List.mem_map.mpr ⟨d, hd, hnumber⟩, ?_⟩
        intro m hm
        obtain ⟨d', hd', rfl⟩ := List.mem_map.mp hm
        exact Nat.lt_succ_iff.mp (hl.lt_of_mem_deps hnodup hn hmem hd')
      rw [hmax]

/-- The second node lists the first one twice. -/
def twice : TaskDAG where
  nodes := [⟨⟨"c1", "calculator", "1"⟩, []⟩, ⟨⟨"c2", "calculator", "2"⟩, [0, 0]⟩]
  earlier := by
    intro i node hi
    match i with
    | 0 =>
      obtain rfl : _ = node := Option.some.inj hi
      simp
    | 1 =>
      obtain rfl : _ = node := Option.some.inj hi
      simp
    | i + 2 => simp at hi

theorem twice_levels :
    ∃ levels, twice.topologicalSort = some (.ok levels) ∧ levelNumber levels 1 = 1 := by
  have hfit : CountsFit twice := by decide
  obtain ⟨levels, hsort, -, -, hnumber⟩ := topologicalSort_levels twice hfit
  obtain rfl : [[0], [1]] = levels := by
    have hsome := hsort.symm.trans (show twice.topologicalSort = some (.ok [[0], [1]]) by rfl)
    simpa using hsome.symm
  exact ⟨_, hsort, (hnumber 1 (by decide)).trans (by decide)⟩

/-- The second node lists the first one `n` times. -/
def crowded (n : ℕ) : TaskDAG where
  nodes := [⟨⟨"c1", "calculator", "1"⟩, []⟩, ⟨⟨"c2", "calculator", "2"⟩, List.replicate n 0⟩]
  earlier := by
    intro i node hi
    match i with
    | 0 =>
      obtain rfl : _ = node := Option.some.inj hi
      simp
    | 1 =>
      obtain rfl : _ = node := Option.some.inj hi
      intro d hd
      rw [List.eq_of_mem_replicate hd]
      exact Nat.one_pos
    | i + 2 => simp at hi

theorem crowded_wrapped : ¬Unwrapped (crowded (2 ^ 32)) := by
  intro h
  have hlt := h 1
  rw [show (crowded (2 ^ 32)).deps 1 = List.replicate (2 ^ 32) 0 from rfl,
    List.length_replicate] at hlt
  exact absurd hlt (Nat.lt_irrefl _)

/-- The counter of the second node is zero at the start, and again when the
    first one has been popped. -/
theorem crowded_throws : (crowded (2 ^ 32)).topologicalSort =
    some (.error (.runtimeError "Cycle detected in task DAG")) :=
  throws_of_not_unwrapped crowded_wrapped

end TaskDAG

end Forge
