import Forge.Core.ThreadPoolNesting

/-! # Thread Pool — Tasks and Their Callers

  Pools with *root* tasks, which come in from outside, and tasks with a
  *caller*, the root task that pushes them (`CallOrder`):

  - the tasks on a stack were started from bottom to top, and a task after
    its caller;
  - while a task with a caller is in the deque of a worker, its caller is
    the topmost root task on that worker's stack: a worker takes a root
    task on top of others only when its deque is empty.
-/

open LTS

namespace Forge.ThreadPool

variable {n : ℕ} {T : Type*} [DecidableEq T] {s s' : State n T}

/-! ### Where a Task Is -/

theorem mem_deques_stored {w : Fin n} {t : T} (h : t ∈ s.deques w) : 0 < s.stored t := by
  have hle := le_total (List.count t) s.deques w
  have hpos := List.count_pos_iff.mpr h
  unfold State.stored
  omega

theorem mem_queues_stored {w : Fin n} {t : T} (h : t ∈ s.queues w) : 0 < s.stored t := by
  have hle := le_total (List.count t) s.queues w
  have hpos := List.count_pos_iff.mpr h
  unfold State.stored
  omega

theorem held_inHands {w : Fin n} {t : T} : (s.held w).count t ≤ s.inHands t := by
  have hle := le_total (fun wk : Worker T => wk.held.count t) s.workers w
  unfold State.inHands State.held
  omega

theorem Conserved.places_le (hc : Conserved s) (t : T) : s.places t ≤ 1 := by
  rw [hc.placed]
  exact List.nodup_iff_count_le_one.mp hc.nodup t

theorem Conserved.started_of_held (hc : Conserved s) {w : Fin n} {t : T} (h : t ∈ s.held w) :
    t ∈ s.started := by
  have hpos := List.count_pos_iff.mpr h
  have hle := held_inHands (s := s) (w := w) (t := t)
  have hstarted := hc.started t
  exact List.count_pos_iff.mp (by omega)

theorem Conserved.not_started_of_stored (hc : Conserved s) {t : T} (h : 0 < s.stored t) :
    t ∉ s.started := by
  have hle := hc.places_le t
  have hstarted := hc.started t
  unfold State.places at hle
  exact List.count_eq_zero.mp (by omega)

theorem Conserved.not_finished_of_held (hc : Conserved s) {w : Fin n} {t : T} (h : t ∈ s.held w) :
    t ∉ s.finished := by
  have hpos := List.count_pos_iff.mpr h
  have hheld := held_inHands (s := s) (w := w) (t := t)
  have hle := hc.places_le t
  unfold State.places at hle
  exact List.count_eq_zero.mp (by omega)

theorem Conserved.not_finished_of_stored (hc : Conserved s) {t : T} (h : 0 < s.stored t) :
    t ∉ s.finished := by
  have hle := hc.places_le t
  unfold State.places at hle
  exact List.count_eq_zero.mp (by omega)

theorem Conserved.submitted_of_started (hc : Conserved s) {t : T} (h : t ∈ s.started) :
    t ∈ s.submitted := by
  have hpos := List.count_pos_iff.mpr h
  have hstarted := hc.started t
  have hplaced := hc.placed t
  unfold State.places at hplaced
  exact List.count_pos_iff.mp (by omega)

theorem Conserved.submitted_of_stored (hc : Conserved s) {t : T} (h : 0 < s.stored t) :
    t ∈ s.submitted := by
  have hplaced := hc.placed t
  unfold State.places at hplaced
  exact List.count_pos_iff.mp (by omega)

theorem Conserved.submitted_of_finished (hc : Conserved s) {t : T} (h : t ∈ s.finished) :
    t ∈ s.submitted := by
  have hpos := List.count_pos_iff.mpr h
  have hplaced := hc.placed t
  unfold State.places at hplaced
  exact List.count_pos_iff.mp (by omega)

theorem Conserved.held_nodup (hc : Conserved s) (w : Fin n) : (s.held w).Nodup := by
  apply List.nodup_iff_count_le_one.mpr
  intro t
  have hheld := held_inHands (s := s) (w := w) (t := t)
  have hle := hc.places_le t
  unfold State.places at hle
  omega

/-- A task is on one stack only. -/
theorem Conserved.held_unique (hc : Conserved s) {v w : Fin n} {t : T} (hv : t ∈ s.held v)
    (hw : t ∈ s.held w) : v = w := by
  by_contra hne
  have hle := hc.places_le t
  have hcv := List.count_pos_iff.mpr hv
  have hcw := List.count_pos_iff.mpr hw
  -- without worker `w` the others hold the task at least once
  have htotal := total_update (fun wk : Worker T => wk.held.count t) s.workers w ⟨.top, 0, []⟩
  have hrest := le_total (fun wk : Worker T => wk.held.count t)
    (Function.update s.workers w ⟨.top, 0, []⟩) v
  have hempty : (⟨.top, 0, []⟩ : Worker T).held = [] := rfl
  rw [Function.update_of_ne hne] at hrest
  simp only [hempty, List.count_nil] at htotal
  unfold State.places State.inHands at hle
  unfold State.held at hcv hcw
  omega

/-- A submitted task is in a queue, in a deque, held, or finished. -/
theorem Conserved.placed_cases (hc : Conserved s) (hdraining : s.draining = none) {t : T}
    (h : t ∈ s.submitted) :
    (∃ w, t ∈ s.queues w) ∨ (∃ w, t ∈ s.deques w) ∨ (∃ w, t ∈ s.held w) ∨ t ∈ s.finished := by
  by_contra hnone
  simp only [not_or, not_exists] at hnone
  obtain ⟨hqueues, hdeques, hheld, hfinished⟩ := hnone
  have hpos := List.count_pos_iff.mpr h
  have hplaced := hc.placed t
  have hq := total_eq_zero (List.count t) fun w => List.count_eq_zero.mpr (hqueues w)
  have hd := total_eq_zero (List.count t) fun w => List.count_eq_zero.mpr (hdeques w)
  have hh := total_eq_zero (fun wk : Worker T => wk.held.count t)
    fun w => List.count_eq_zero.mpr (hheld w)
  have hf := List.count_eq_zero.mpr hfinished
  simp only [State.places, State.stored, State.inHands, hdraining, Option.toList_none,
    List.count_nil] at hplaced
  omega

/-! ### Order of the Calls -/

/-- A task that is started now comes after those that were. -/
theorem idxOf_lt_idxOf_snoc {started : List T} {a t : T} (ha : a ∈ started) (ht : t ∉ started) :
    (started ++ [t]).idxOf a < (started ++ [t]).idxOf t := by
  rw [List.idxOf_append_of_mem ha, List.idxOf_append_of_notMem ht]
  have hlt := List.idxOf_lt_length_of_mem ha
  omega

/-- Root tasks, callers, and the order in which the tasks were started. -/
structure CallOrder (root : T → Bool) (caller : T → Option T) (s : State n T) : Prop where
  conserved : Conserved s
  nested : Nested s
  draining : s.draining = none
  ordered : ∀ w, (s.held w).Pairwise fun a b => s.started.idxOf b < s.started.idxOf a
  queues : ∀ w, ∀ t ∈ s.queues w, root t = true
  deques : ∀ w, ∀ t ∈ s.deques w, root t = false
  topmost : ∀ w, ∀ t ∈ s.deques w, ∀ c, caller t = some c → (s.held w).find? root = some c
  callers : ∀ t ∈ s.submitted, ∀ c, caller t = some c → c ∈ s.started
  later : ∀ t ∈ s.started, ∀ c, caller t = some c → s.started.idxOf c < s.started.idxOf t

/-- A step of a pool that keeps to this: a task with a caller is pushed by
    the caller, and a caller does not finish before its tasks have left
    the deque. -/
inductive Change (root : T → Bool) (caller : T → Option T) (s s' : State n T) : Prop where
  | looks (w : Fin n) (h : Looks s s' w)
  | takes (w : Fin n) (t : T) (h : Takes s s' w t)
  | pushes (w : Fin n) (t : T) (h : Pushes s s' w t) (hroot : root t = false)
      (hcaller : ∀ c, caller t = some c → s.active w = some c ∧ root c = true)
  | finishes (w : Fin n) (t : T) (h : Finishes s s' w t)
      (hdone : ∀ u ∈ s.deques w, caller u ≠ some t)
  | enqueues (t : T) (h : Enqueues s s' t) (hroot : root t = true) (hcaller : caller t = none)

variable {root : T → Bool} {caller : T → Option T}

theorem callOrder_initial : CallOrder root caller (initial n T) where
  conserved := conserved_initial
  nested := fun _ => trivial
  draining := rfl
  ordered := fun _ => List.Pairwise.nil
  queues := by simp [initial]
  deques := by simp [initial]
  topmost := by simp [initial]
  callers := by simp [initial]
  later := by simp [initial]

theorem CallOrder.looks {w : Fin n} (ho : CallOrder root caller s) (h : Looks s s' w)
    (hc : Conserved s') : CallOrder root caller s' := by
  have hheld := h.held_eq
  refine ⟨hc, ?_, h.draining.trans ho.draining, ?_, ?_, ?_, ?_, ?_, ?_⟩
  · exact ho.nested.of_others h.others (fun v => by rw [h.deques]; exact List.Subset.refl _) h.shape
  · intro v
    rw [hheld, h.started]
    exact ho.ordered v
  · rw [h.queues]
    exact ho.queues
  · rw [h.deques]
    exact ho.deques
  · intro v t ht
    rw [h.deques] at ht
    rw [hheld]
    exact ho.topmost v t ht
  · rw [h.submitted, h.started]
    exact ho.callers
  · rw [h.started]
    exact ho.later

theorem CallOrder.takes {w : Fin n} {t : T} (ho : CallOrder root caller s) (h : Takes s s' w t)
    (hc : Conserved s') : CallOrder root caller s' := by
  have hstored : 0 < s.stored t := by
    rcases h.source with ⟨v, hv⟩ | ⟨hq, -⟩
    · exact mem_deques_stored hv
    · exact mem_queues_stored hq
  have hnew : t ∉ s.started := ho.conserved.not_started_of_stored hstored
  have hkeep : ∀ a ∈ s.started, (s.started ++ [t]).idxOf a = s.started.idxOf a :=
    fun a ha => List.idxOf_append_of_mem ha
  -- the order of the tasks started before stays
  have hordered : ∀ v, (s.held v).Pairwise
      fun a b => (s.started ++ [t]).idxOf b < (s.started ++ [t]).idxOf a := by
    intro v
    refine (ho.ordered v).imp_of_mem ?_
    intro a b ha hb hab
    rw [hkeep a (ho.conserved.started_of_held ha), hkeep b (ho.conserved.started_of_held hb)]
    exact hab
  refine ⟨hc, ho.nested.of_others h.others h.deques h.shape, h.draining.trans ho.draining,
    ?_, ?_, ?_, ?_, ?_, ?_⟩
  · intro v
    rw [h.started]
    by_cases hv : v = w
    · subst hv
      rw [h.held]
      refine List.Pairwise.cons ?_ (hordered v)
      intro b hb
      exact idxOf_lt_idxOf_snoc (ho.conserved.started_of_held hb) hnew
    · rw [held_others h.others hv]
      exact hordered v
  · exact fun v u hu => ho.queues v u (h.queues v hu)
  · exact fun v u hu => ho.deques v u (h.deques v hu)
  · intro v u hu c hcaller
    have htop := ho.topmost v u (h.deques v hu) c hcaller
    by_cases hv : v = w
    · subst hv
      rw [h.held]
      -- a root task is taken only when the deque has no such task
      cases hroot : root t with
      | false => simpa [hroot] using htop
      | true =>
        rcases h.source with ⟨v', hv'⟩ | ⟨-, hnil | hnil⟩
        · rw [ho.deques v' t hv'] at hroot
          cases hroot
        · rw [hnil] at htop
          cases htop
        · have hmem := h.deques v hu
          rw [hnil] at hmem
          cases hmem
    · rw [held_others h.others hv]
      exact htop
  · intro u hu c hcaller
    rw [h.submitted] at hu
    rw [h.started]
    exact List.mem_append_left _ (ho.callers u hu c hcaller)
  · intro u hu c hcaller
    rw [h.started] at hu ⊢
    rcases List.mem_append.mp hu with hold | hlast
    · have hsub := ho.conserved.submitted_of_started hold
      rw [hkeep u hold, hkeep c (ho.callers u hsub c hcaller)]
      exact ho.later u hold c hcaller
    · rw [List.mem_singleton] at hlast
      subst hlast
      have hsub := ho.conserved.submitted_of_stored hstored
      exact idxOf_lt_idxOf_snoc (ho.callers u hsub c hcaller) hnew

theorem CallOrder.pushes {w : Fin n} {t : T} (ho : CallOrder root caller s) (h : Pushes s s' w t)
    (hroot : root t = false)
    (hcaller : ∀ c, caller t = some c → s.active w = some c ∧ root c = true)
    (hc : Conserved s') : CallOrder root caller s' := by
  have hheld : ∀ v, s'.held v = s.held v := fun v => by rw [held_congr h.workers]
  -- the deques hold what they held, and `t`
  have hmem : ∀ v u, u ∈ s'.deques v → u ∈ s.deques v ∨ (v = w ∧ u = t) := by
    intro v u hu
    rw [h.deques] at hu
    by_cases hv : v = w
    · subst hv
      simpa using hu
    · rw [Function.update_of_ne hv] at hu
      exact .inl hu
  refine ⟨hc, ?_, h.draining.trans ho.draining, ?_, ?_, ?_, ?_, ?_, ?_⟩
  · intro v
    rw [h.workers, h.deques]
    by_cases hv : v = w
    · subst hv
      -- the worker is inside a task, so its stack says nothing about the deque
      have hactive := h.running
      have hok := ho.nested v
      unfold State.active at hactive
      split at hactive
      · next t' rest hstack =>
        rw [hstack] at hok ⊢
        exact hok
      · exact absurd rfl hactive
    · rw [Function.update_of_ne hv]
      exact ho.nested v
  · intro v
    rw [hheld, h.started]
    exact ho.ordered v
  · rw [h.queues]
    exact ho.queues
  · intro v u hu
    rcases hmem v u hu with hold | ⟨-, rfl⟩
    · exact ho.deques v u hold
    · exact hroot
  · intro v u hu c huc
    rw [hheld]
    rcases hmem v u hu with hold | ⟨rfl, rfl⟩
    · exact ho.topmost v u hold c huc
    · obtain ⟨hactive, hcroot⟩ := hcaller c huc
      obtain ⟨rest, hrest⟩ := held_of_active hactive
      simp [hrest, hcroot]
  · intro u hu c huc
    rw [h.started]
    rw [h.submitted] at hu
    rcases List.mem_append.mp hu with hold | hlast
    · exact ho.callers u hold c huc
    · rw [List.mem_singleton] at hlast
      subst hlast
      obtain ⟨rest, hrest⟩ := held_of_active (hcaller c huc).1
      exact ho.conserved.started_of_held (w := w) (by simp [hrest])
  · rw [h.started]
    exact ho.later

theorem CallOrder.finishes {w : Fin n} {t : T} (ho : CallOrder root caller s)
    (h : Finishes s s' w t) (hdone : ∀ u ∈ s.deques w, caller u ≠ some t) (hc : Conserved s') :
    CallOrder root caller s' := by
  refine ⟨hc, ?_, h.draining.trans ho.draining, ?_, ?_, ?_, ?_, ?_, ?_⟩
  · exact ho.nested.of_others h.others (fun v => by rw [h.deques]; exact List.Subset.refl _) h.shape
  · intro v
    rw [h.started]
    have hordered := ho.ordered v
    by_cases hv : v = w
    · subst hv
      rw [h.held] at hordered
      exact hordered.of_cons
    · rw [held_others h.others hv]
      exact hordered
  · rw [h.queues]
    exact ho.queues
  · rw [h.deques]
    exact ho.deques
  · intro v u hu c hcaller
    rw [h.deques] at hu
    have htop := ho.topmost v u hu c hcaller
    by_cases hv : v = w
    · subst hv
      rw [h.held, List.find?_cons] at htop
      split at htop
      · next hroot =>
        cases htop
        exact absurd hcaller (hdone u hu)
      · exact htop
    · rw [held_others h.others hv]
      exact htop
  · rw [h.submitted, h.started]
    exact ho.callers
  · rw [h.started]
    exact ho.later

theorem CallOrder.enqueues {t : T} (ho : CallOrder root caller s) (h : Enqueues s s' t)
    (hroot : root t = true) (hcaller : caller t = none) (hc : Conserved s') :
    CallOrder root caller s' := by
  have hheld : ∀ v, s'.held v = s.held v := fun v => by rw [held_congr h.workers]
  refine ⟨hc, ?_, h.draining.trans ho.draining, ?_, ?_, ?_, ?_, ?_, ?_⟩
  · intro v
    rw [h.workers, h.deques]
    exact ho.nested v
  · intro v
    rw [hheld, h.started]
    exact ho.ordered v
  · intro v u hu
    rcases h.queues v u hu with hold | rfl
    · exact ho.queues v u hold
    · exact hroot
  · rw [h.deques]
    exact ho.deques
  · intro v u hu
    rw [h.deques] at hu
    rw [hheld]
    exact ho.topmost v u hu
  · intro u hu c huc
    rw [h.started]
    rw [h.submitted] at hu
    rcases List.mem_append.mp hu with hold | hlast
    · exact ho.callers u hold c huc
    · rw [List.mem_singleton] at hlast
      subst hlast
      rw [hcaller] at huc
      cases huc
  · rw [h.started]
    exact ho.later

/-- **Order of the calls, step.** -/
theorem CallOrder.change (ho : CallOrder root caller s) (h : Change root caller s s')
    (hc : Conserved s') : CallOrder root caller s' := by
  cases h with
  | looks w h => exact ho.looks h hc
  | takes w t h => exact ho.takes h hc
  | pushes w t h hroot hcaller => exact ho.pushes h hroot hcaller hc
  | finishes w t h hdone => exact ho.finishes h hdone hc
  | enqueues t h hroot hcaller => exact ho.enqueues h hroot hcaller hc

end Forge.ThreadPool
