import Forge.Framework.System
import Mathlib.Data.Nat.Find
import Mathlib.Order.WellFounded

/-! # Runs without End

  A rank that goes down with every step of interest, and that the other
  steps leave alone, bounds a run: in a run without end the steps of
  interest stop (`Endless.stops`). When all steps go down, a run can be
  continued to its end (`Reachable.completes`). A system `Ends` when its
  steps of interest stop, and only in a final state. When the steps of
  interest are those of one party, the rank says how many it has left
  (`Ranks.path`, `Ranks.alone`).
-/

namespace LTS

universe u v w

namespace System

variable {State : Type u} {Label : Type v}

/-- A run without end: its states and its labels. -/
structure Endless (sys : System State Label) (st : ℕ → State) (ls : ℕ → Label) : Prop where
  init : sys.init (st 0)
  step : ∀ n, sys.step (st n) (ls n) (st (n + 1))

/-- The states of a run without end are reached by runs. -/
theorem Endless.run {sys : System State Label} {st : ℕ → State} {ls : ℕ → Label}
    (h : sys.Endless st ls) (n : ℕ) : sys.Reachable (st n) := by
  induction n with
  | zero => exact ⟨[], .start h.init⟩
  | succ n ih => exact ih.step (h.step n)

/-- **Ranking rule**: the steps of interest stop. -/
theorem Endless.stops {sys : System State Label} {st : ℕ → State} {ls : ℕ → Label}
    (h : sys.Endless st ls) {α : Type w} {r : α → α → Prop} (hr : WellFounded r)
    (rank : State → α) (real : Label → Prop)
    (hdown : ∀ s l s', sys.Reachable s → sys.step s l s' → real l → r (rank s') (rank s))
    (hstay : ∀ s l s', sys.Reachable s → sys.step s l s' → ¬real l → rank s' = rank s) :
    ∃ n, ∀ m, n ≤ m → ¬real (ls m) := by
  -- the induction is on the rank of the state reached
  have hmain : ∀ (a : α) (n : ℕ), rank (st n) = a → ∃ k, ∀ m, k ≤ m → ¬real (ls m) := by
    intro a
    induction a using hr.induction with
    | _ a ih =>
      intro n hn
      by_cases hnone : ∀ m, n ≤ m → ¬real (ls m)
      · exact ⟨n, hnone⟩
      · simp only [not_forall, not_not] at hnone
        obtain ⟨m, hnm, hreal⟩ := hnone
        classical
        have hex : ∃ k, real (ls (n + k)) := by
          refine ⟨m - n, ?_⟩
          rw [show n + (m - n) = m by omega]
          exact hreal
        let k := Nat.find hex
        have hk : real (ls (n + k)) := Nat.find_spec hex
        -- the rank is still `a` at the first step of interest
        have hsame : ∀ i ≤ k, rank (st (n + i)) = a := by
          intro i
          induction i with
          | zero =>
            intro _
            exact hn
          | succ i hi =>
            intro hle
            have hquiet : ¬real (ls (n + i)) := Nat.find_min hex hle
            rw [show n + (i + 1) = n + i + 1 by omega,
              hstay _ _ _ (h.run (n + i)) (h.step (n + i)) hquiet]
            exact hi (by omega)
        have hlt := hdown _ _ _ (h.run (n + k)) (h.step (n + k)) hk
        rw [hsame k le_rfl] at hlt
        exact ih _ hlt (n + k + 1) rfl
  exact hmain _ 0 rfl

/-- The system ends: its steps of interest stop in every run, and one of
    them can be taken in every state that is not final. -/
structure Ends (sys : System State Label) (real : Label → Prop) (final : State → Prop) : Prop where
  stops : ∀ st ls, sys.Endless st ls → ∃ n, ∀ m, n ≤ m → ¬real (ls m)
  goes : ∀ s, sys.Reachable s → ¬final s → ∃ l s', real l ∧ sys.step s l s'

/-- **Completion rule**: when every step goes down and only the states in
    `final` have no step, every state a run reaches leads to one of them. -/
theorem Reachable.completes {sys : System State Label} {α : Type w} {r : α → α → Prop}
    (hr : WellFounded r) (rank : State → α) {final : State → Prop}
    (hdown : ∀ s l s', sys.Reachable s → sys.step s l s' → r (rank s') (rank s))
    (hgoes : ∀ s, sys.Reachable s → ¬final s → ∃ l s', sys.step s l s') {s : State}
    (hs : sys.Reachable s) : ∃ tr t, sys.Run tr t ∧ final t := by
  -- the induction is on the rank of the state reached
  have hmain : ∀ (a : α) (s : State), rank s = a → sys.Reachable s →
      ∃ tr t, sys.Run tr t ∧ final t := by
    intro a
    induction a using hr.induction with
    | _ a ih =>
      intro s ha hs
      by_cases hfinal : final s
      · obtain ⟨tr, hrun⟩ := hs
        exact ⟨tr, s, hrun, hfinal⟩
      · obtain ⟨l, s', hstep⟩ := hgoes s hs hfinal
        have hlt := hdown s l s' hs hstep
        rw [ha] at hlt
        exact ih _ hlt s' rfl (hs.step hstep)
  exact hmain _ s rfl hs

/-! ### The steps of one party -/

/-- Premises of the rules for the steps of one party, in the states that
    satisfy `P`: each of its own steps lowers the rank, and no other step
    raises it. -/
structure Ranks (sys : System State Label) (P : State → Prop) (own : Label → Bool)
    (rank : State → ℕ) : Prop where
  keeps : ∀ s l s', P s → sys.step s l s' → P s'
  down : ∀ s l s', P s → sys.step s l s' → (if own l then 1 else 0) + rank s' ≤ rank s

/-- **Counting rule**: whatever else happens meanwhile, the own steps are as
    many as the rank has gone down, or fewer. -/
theorem Ranks.path {sys : System State Label} {P : State → Prop} {own : Label → Bool}
    {rank : State → ℕ} (h : sys.Ranks P own rank) {s s' : State} {tr : List Label} (hs : P s)
    (hpath : sys.Path s tr s') : P s' ∧ tr.countP own + rank s' ≤ rank s := by
  induction hpath with
  | refl => exact ⟨hs, by simp⟩
  | @snoc tr s₁ s₂ l _ hstep ih =>
    obtain ⟨hP, hcount⟩ := ih
    have hdown := h.down s₁ l s₂ hP hstep
    refine ⟨h.keeps s₁ l s₂ hP hstep, ?_⟩
    rw [List.countP_append, List.countP_singleton]
    omega

/-- **Solo rule**: alone, the party is at its end after as many steps as the
    rank says, or fewer. -/
theorem Ranks.alone {sys : System State Label} {P : State → Prop} {own : Label → Bool}
    {rank : State → ℕ} (h : sys.Ranks P own rank) {next : State → Label → Option State} {l : Label}
    (hown : own l) {final : State → Prop}
    (hgoes : ∀ s, P s → ¬final s → ∃ s', next s l = some s' ∧ sys.step s l s') {s : State}
    (hs : P s) : ∃ k ≤ rank s, ∃ s', exec next s (List.replicate k l) = some s' ∧ final s' := by
  -- the induction is on the steps that are left
  induction hn : rank s using Nat.strongRecOn generalizing s with
  | ind n ih =>
    by_cases hfinal : final s
    · exact ⟨0, Nat.zero_le _, s, rfl, hfinal⟩
    · obtain ⟨s₁, hnext, hstep⟩ := hgoes s hs hfinal
      have hdown := h.down s l s₁ hs hstep
      rw [if_pos hown, hn] at hdown
      obtain ⟨k, hk, s', hexec, hdone⟩ := ih _ (by omega) (h.keeps s l s₁ hs hstep) rfl
      refine ⟨k + 1, by omega, s', ?_, hdone⟩
      rw [List.replicate_succ]
      show (next s l).bind _ = _
      rw [hnext]
      exact hexec

end System

end LTS
