import Forge.Framework.System

/-! # Contention

  What retries cost, in systems given by a partial function:

  - `tally`: what the steps of a run cost together;
  - `Run.tally_le`: the potential rule. A step is paid for by a potential
    that goes down, or by what the step itself is worth;
  - `exec_tally_le`: the waiting rule, for the steps up to some event;
  - `Run.tally_label`: the tally of the steps with a label of some kind;
  - `changes`: the steps that change a location.
-/

namespace LTS

universe u v

namespace System

variable {State : Type u} {Label : Type v} {next : State → Label → Option State}
  {s₀ s s' : State} {tr : List Label} {l : Label}

/-- A run can be replayed. -/
theorem Run.exec_eq (hrun : (ofNext s₀ next).Run tr s) : exec next s₀ tr = some s := by
  induction hrun with
  | start hs =>
    have heq : _ = s₀ := hs
    rw [heq]
    rfl
  | @snoc tr s s' l _ hs ih =>
    have hstep : next s l = some s' := hs
    rw [System.exec_append ih, exec, hstep]
    rfl

/-! ### Tallies -/

/-- What the labels, taken from a state on, cost together. -/
def tally (next : State → Label → Option State) (cost : State → Label → ℕ) :
    State → List Label → ℕ
  | _, [] => 0
  | s, l :: ls => cost s l + (next s l).elim 0 (tally next cost · ls)

/-- One more step. -/
theorem tally_snoc (cost : State → Label → ℕ) (h : exec next s₀ tr = some s) (l : Label) :
    tally next cost s₀ (tr ++ [l]) = tally next cost s₀ tr + cost s l := by
  induction tr generalizing s₀ with
  | nil =>
    obtain rfl : s₀ = s := Option.some.inj h
    cases hnext : next s₀ l <;> simp [tally, hnext]
  | cons l' tr ih =>
    obtain ⟨s₁, hs₁, hrest⟩ := Option.bind_eq_some_iff.mp h
    simp only [List.cons_append, tally, hs₁, Option.elim_some, ih hrest]
    omega

/-- **Potential rule.** When every step is paid for by the potential or by
    its worth, the whole run is. -/
theorem Run.tally_le {cost worth : State → Label → ℕ} (φ : State → ℤ)
    (hpaid : ∀ s l s', (ofNext s₀ next).Reachable s → next s l = some s' →
      cost s l + φ s' ≤ φ s + worth s l)
    (hrun : (ofNext s₀ next).Run tr s) :
    tally next cost s₀ tr + φ s ≤ φ s₀ + tally next worth s₀ tr := by
  induction hrun with
  | start hs =>
    have heq : _ = s₀ := hs
    simp [heq, tally]
  | @snoc tr s s' l hr hs ih =>
    have hstep := hpaid s l s' ⟨tr, hr⟩ hs
    rw [tally_snoc cost hr.exec_eq, tally_snoc worth hr.exec_eq]
    omega

theorem tally_add (cost cost' : State → Label → ℕ) (s : State) (ls : List Label) :
    tally next (fun s l => cost s l + cost' s l) s ls =
      tally next cost s ls + tally next cost' s ls := by
  induction ls generalizing s with
  | nil => rfl
  | cons l ls ih =>
    cases hnext : next s l with
    | none =>
      simp only [tally, hnext, Option.elim_none]
      omega
    | some s' =>
      simp only [tally, hnext, Option.elim_some, ih]
      omega

theorem tally_mul (n : ℕ) (cost : State → Label → ℕ) (s : State) (ls : List Label) :
    tally next (fun s l => n * cost s l) s ls = n * tally next cost s ls := by
  induction ls generalizing s with
  | nil => rfl
  | cons l ls ih => cases hnext : next s l <;> simp [tally, hnext, ih, Nat.mul_add]

/-- The steps whose label is of some kind. -/
theorem Run.tally_label (kind : Label → Bool) (hrun : (ofNext s₀ next).Run tr s) :
    tally next (fun _ l => (kind l).toNat) s₀ tr = tr.countP kind := by
  induction hrun with
  | start _ => rfl
  | @snoc tr s s' l hr _ ih =>
    rw [tally_snoc _ hr.exec_eq, ih, List.countP_append]
    cases hl : kind l <;> simp [hl]

/-- **Waiting rule.** Every step taken while waiting is paid for by the
    potential; so the whole wait is, or it has ended. -/
theorem exec_tally_le {waits ended : State → Prop} {cost : State → Label → ℕ} (φ : State → ℕ)
    (hpaid : ∀ s l s', waits s → next s l = some s' →
      ended s' ∨ (waits s' ∧ cost s l + φ s' ≤ φ s))
    (hended : ∀ s l s', ended s → next s l = some s' → ended s') {ls : List Label} (hs : waits s)
    (hexec : exec next s ls = some s') :
    ended s' ∨ (waits s' ∧ tally next cost s ls + φ s' ≤ φ s) := by
  induction ls generalizing s with
  | nil =>
    obtain rfl : s = s' := Option.some.inj hexec
    exact .inr ⟨hs, by simp [tally]⟩
  | cons l ls ih =>
    obtain ⟨s₁, hs₁, hrest⟩ := Option.bind_eq_some_iff.mp hexec
    obtain hdone | ⟨hwaits, hstep⟩ := hpaid s l s₁ hs hs₁
    · exact .inl (exec_invariant (fun s l s' _ => hended s l s') hdone hrest)
    · obtain hdone | ⟨hwaits', htally⟩ := ih hwaits hrest
      · exact .inl hdone
      · refine .inr ⟨hwaits', ?_⟩
        simp only [tally, hs₁, Option.elim_some]
        omega

/-! ### Writes -/

/-- Whether a step changes what `cell` holds. -/
def changes {V : Type*} [DecidableEq V] (next : State → Label → Option State) (cell : State → V)
    (s : State) (l : Label) : ℕ :=
  (next s l).elim 0 fun s' => if cell s' = cell s then 0 else 1

theorem changes_eq {V : Type*} [DecidableEq V] (cell : State → V) (h : next s l = some s') :
    changes next cell s l = if cell s' = cell s then 0 else 1 := by
  simp [changes, h]

end System

end LTS
