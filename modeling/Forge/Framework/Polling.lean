import Forge.Framework.System

/-! # Polling a Flag

  A run decides something once, at the last of the polls of a flag that
  others may put up at any moment and nobody takes down:

  - `Stage`: whether a poll is still ahead, or what the polls have decided;
  - `Stage.Step`, `Polls`: the steps of a system keep to the stages;
  - `Polls.granted_iff`: the flag has decided if and only if it was up in
    a state with a poll ahead.
-/

namespace LTS

universe u v

/-- How far a run is with its polls. -/
inductive Stage where
  /-- The flag will be polled again. -/
  | ahead
  /-- A poll has found the flag up. -/
  | granted
  /-- All polls have found it down. -/
  | refused
  /-- The run was left without a decision. -/
  | void
  deriving DecidableEq

/-- What a step may do to the stage when the flag is up or down. -/
inductive Stage.Step (flag : Prop) : Stage → Stage → Prop where
  | stay (st : Stage) : Step flag st st
  | grant : flag → Step flag .ahead .granted
  | refuse : ¬flag → Step flag .ahead .refused
  | leave (st : Stage) : Step flag st .void

namespace Stage

variable {flag : Prop} {st : Stage}

theorem Step.ahead_inv (h : Step flag st .ahead) : st = .ahead := by
  cases h
  rfl

theorem Step.granted_inv (h : Step flag st .granted) : st = .granted ∨ st = .ahead ∧ flag := by
  cases h with
  | stay => exact .inl rfl
  | grant hup => exact .inr ⟨rfl, hup⟩

theorem Step.refused_inv (h : Step flag st .refused) : st = .refused ∨ st = .ahead ∧ ¬flag := by
  cases h with
  | stay => exact .inl rfl
  | refuse hdown => exact .inr ⟨rfl, hdown⟩

end Stage

namespace System

variable {State : Type u} {Label : Type v}

/-- Every step keeps to the stages, and none takes the flag down. -/
structure Polls (sys : System State Label) (flag : State → Prop) (stage : State → Stage) :
    Prop where
  init : ∀ s, sys.init s → stage s = .ahead
  step : ∀ s l s', sys.step s l s' → (stage s).Step (flag s) (stage s')
  keeps : ∀ s l s', sys.step s l s' → flag s → flag s'

/-- The run has been through a state that satisfies `P`. -/
def Visited (sys : System State Label) (P : State → Prop) (tr : List Label) : Prop :=
  ∃ tr₁ s₁, tr₁ <+: tr ∧ sys.Run tr₁ s₁ ∧ P s₁

variable {sys : System State Label} {P Q : State → Prop} {tr : List Label} {s s' : State}
  {l : Label}

theorem Visited.mono (h : sys.Visited P tr) (hPQ : ∀ s, P s → Q s) : sys.Visited Q tr := by
  obtain ⟨tr₁, s₁, hpre, hrun, hP⟩ := h
  exact ⟨tr₁, s₁, hpre, hrun, hPQ s₁ hP⟩

theorem visited_nil (hinit : sys.init s) (hd : sys.Deterministic) :
    sys.Visited P [] ↔ P s := by
  constructor
  · rintro ⟨tr₁, s₁, hpre, hrun, hP⟩
    rw [List.prefix_nil.mp hpre] at hrun
    rwa [hd.run_unique (.start hinit) hrun]
  · intro hP
    exact ⟨[], s, List.prefix_rfl, .start hinit, hP⟩

/-- One more step visits one more state. -/
theorem visited_snoc (hd : sys.Deterministic) (hrun : sys.Run tr s) (hs : sys.step s l s') :
    sys.Visited P (tr ++ [l]) ↔ sys.Visited P tr ∨ P s' := by
  constructor
  · rintro ⟨tr₁, s₁, hpre, hrun₁, hP⟩
    rcases List.prefix_concat_iff.mp hpre with rfl | hpre'
    · refine .inr ?_
      rwa [hd.run_unique (hrun.snoc hs) hrun₁]
    · exact .inl ⟨tr₁, s₁, hpre', hrun₁, hP⟩
  · intro h
    rcases h with ⟨tr₁, s₁, hpre, hrun₁, hP⟩ | hP
    · exact ⟨tr₁, s₁, hpre.trans (List.prefix_append _ _), hrun₁, hP⟩
    · exact ⟨tr ++ [l], s', List.prefix_rfl, hrun.snoc hs, hP⟩

variable {flag : State → Prop} {stage : State → Stage}

/-- What a run has been through, by its stage. -/
structure Polled (sys : System State Label) (flag : State → Prop) (stage : State → Stage)
    (tr : List Label) (s : State) : Prop where
  ahead : stage s = .ahead → ¬sys.Visited (fun s => stage s ≠ .ahead ∧ stage s ≠ .granted) tr ∧
    (sys.Visited (fun s => stage s = .ahead ∧ flag s) tr → flag s)
  granted : stage s = .granted →
    ¬sys.Visited (fun s => stage s ≠ .ahead ∧ stage s ≠ .granted) tr ∧
    sys.Visited (fun s => stage s = .ahead ∧ flag s) tr
  refused : stage s = .refused → ¬sys.Visited (fun s => stage s = .ahead ∧ flag s) tr

theorem Polls.polled (h : sys.Polls flag stage) (hd : sys.Deterministic) (hrun : sys.Run tr s) :
    sys.Polled flag stage tr s := by
  apply hrun.history_invariant (P := sys.Polled flag stage)
  · intro s hinit
    have hahead : stage s = .ahead := h.init s hinit
    constructor <;> intro hs
    · rw [visited_nil hinit hd, visited_nil hinit hd]
      exact ⟨by simp [hs], fun hflag => hflag.2⟩
    all_goals simp [hahead] at hs
  · intro tr s l s' hr hi hs
    constructor <;> intro hs'
    · -- a poll was ahead before, and the flag stays up
      have hahead : stage s = .ahead := (hs' ▸ h.step s l s' hs).ahead_inv
      obtain ⟨hnone, hup⟩ := hi.ahead hahead
      rw [visited_snoc hd hr hs, visited_snoc hd hr hs]
      refine ⟨by simp [hnone, hs'], ?_⟩
      intro hvisited
      rcases hvisited with hold | hnew
      · exact h.keeps s l s' hs (hup hold)
      · exact hnew.2
    · rw [visited_snoc hd hr hs, visited_snoc hd hr hs]
      rcases (hs' ▸ h.step s l s' hs).granted_inv with hgranted | ⟨hahead, hflag⟩
      · obtain ⟨hnone, hvisited⟩ := hi.granted hgranted
        exact ⟨by simp [hnone, hs'], .inl hvisited⟩
      · obtain ⟨hnone, -⟩ := hi.ahead hahead
        exact ⟨by simp [hnone, hs'], .inl ⟨tr, s, List.prefix_rfl, hr, hahead, hflag⟩⟩
    · rw [visited_snoc hd hr hs]
      rcases (hs' ▸ h.step s l s' hs).refused_inv with hrefused | ⟨hahead, hdown⟩
      · simp [hi.refused hrefused, hs']
      · have hnone : ¬sys.Visited (fun s => stage s = .ahead ∧ flag s) tr :=
          fun hvisited => hdown ((hi.ahead hahead).2 hvisited)
        simp [hnone, hs']

/-- **Decision by a flag.** A run that has decided found the flag up if
    and only if it was up in a state with a poll ahead. -/
theorem Polls.granted_iff (h : sys.Polls flag stage) (hd : sys.Deterministic)
    (hrun : sys.Run tr s) (hdecided : stage s = .granted ∨ stage s = .refused) :
    stage s = .granted ↔ sys.Visited (fun s => stage s = .ahead ∧ flag s) tr := by
  have hi := h.polled hd hrun
  constructor
  · intro hgranted
    exact (hi.granted hgranted).2
  · intro hvisited
    rcases hdecided with hgranted | hrefused
    · exact hgranted
    · exact absurd hvisited (hi.refused hrefused)

/-- A run that has found the flag up came from the polls. -/
theorem Polls.not_visited_of_granted (h : sys.Polls flag stage) (hd : sys.Deterministic)
    (hrun : sys.Run tr s) (hgranted : stage s = .granted) :
    ¬sys.Visited (fun s => stage s ≠ .ahead ∧ stage s ≠ .granted) tr :=
  ((h.polled hd hrun).granted hgranted).1

end System

end LTS
