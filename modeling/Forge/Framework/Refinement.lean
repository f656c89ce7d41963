import Forge.Framework.System

/-! # Refinement Mappings

  A refinement mapping sends every state of a concrete system to a state
  of an abstract one, such that every concrete step is either a stutter
  or one abstract step with the same observation. Every run of the
  concrete system then has an abstract run with the same observations.
-/

namespace LTS

universe u₁ v₁ u₂ v₂ w

variable {σ : Type u₁} {ι : Type v₁} {τ : Type u₂} {κ : Type v₂} {ε : Type w}

/-- What a trace shows to an observer: the events of its visible labels. -/
def observe (obs : ι → Option ε) (tr : List ι) : List ε := tr.filterMap obs

@[simp] theorem observe_nil (obs : ι → Option ε) : observe obs [] = [] := rfl

@[simp] theorem observe_append (obs : ι → Option ε) (tr₁ tr₂ : List ι) :
    observe obs (tr₁ ++ tr₂) = observe obs tr₁ ++ observe obs tr₂ :=
  List.filterMap_append

theorem observe_snoc_none {obs : ι → Option ε} {l : ι} (h : obs l = none) (tr : List ι) :
    observe obs (tr ++ [l]) = observe obs tr := by
  simp [observe, h]

theorem observe_snoc_congr {obs : ι → Option ε} {obs' : κ → Option ε} {tr : List ι}
    {tr' : List κ} {l : ι} {k : κ} (hl : obs' k = obs l)
    (htr : observe obs' tr' = observe obs tr) :
    observe obs' (tr' ++ [k]) = observe obs (tr ++ [l]) := by
  rw [observe_append, observe_append, htr]
  simp [observe, List.filterMap_cons, hl]

/-- A refinement mapping from `C` to `A` that keeps the observations.
    `inv` is the invariant of `C` the step condition may use. -/
structure RefinementMap (C : System σ ι) (A : System τ κ)
    (obsC : ι → Option ε) (obsA : κ → Option ε) where
  /-- The abstract state a concrete state stands for. -/
  map : σ → τ
  /-- The concrete invariant. -/
  inv : σ → Prop
  inv_init : ∀ s, C.init s → inv s
  inv_step : ∀ s l s', inv s → C.step s l s' → inv s'
  map_init : ∀ s, C.init s → A.init (map s)
  /-- A step is invisible and keeps the abstract state, or it is one
      abstract step with the same observation. -/
  map_step : ∀ s l s', inv s → C.step s l s' →
    (map s' = map s ∧ obsC l = none) ∨ ∃ k, A.step (map s) k (map s') ∧ obsA k = obsC l

/-- **Trace inclusion**: every run of `C` is matched by a run of `A` that
    ends in the mapped state and shows the same events. -/
theorem RefinementMap.run {C : System σ ι} {A : System τ κ}
    {obsC : ι → Option ε} {obsA : κ → Option ε} (R : RefinementMap C A obsC obsA)
    {tr : List ι} {s : σ} (hrun : C.Run tr s) :
    ∃ tr', A.Run tr' (R.map s) ∧ observe obsA tr' = observe obsC tr := by
  induction hrun with
  | start hs => exact ⟨[], .start (R.map_init _ hs), rfl⟩
  | snoc hr hs ih =>
    obtain ⟨tr', hrun', hobs⟩ := ih
    have hinv := hr.invariant R.inv_init R.inv_step
    rcases R.map_step _ _ _ hinv hs with ⟨hmap, hnone⟩ | ⟨k, hk, hobs_k⟩
    · refine ⟨tr', ?_, ?_⟩
      · rw [hmap]; exact hrun'
      · rw [observe_snoc_none hnone]; exact hobs
    · exact ⟨tr' ++ [k], hrun'.snoc hk, observe_snoc_congr hobs_k hobs⟩

end LTS
