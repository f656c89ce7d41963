import Forge.Session.SessionManagerInvariant

/-! # Session Manager — Step Counts

  `step_count` of the sessions of a manager. `max_iterations` is an
  `unsigned` (`Label.InRange`), so that only a plan or a list of sub-tasks
  can make the counter wrap:

  - `Counters`: the counters are as far as the tasks;
  - `Counters.step`: they go back only after 2^32 plan steps or sub-tasks.
-/

namespace Forge

open LTS

namespace SessionManager

variable {P : Params} {s s' : State P} {t : ℕ} {l : Label}

/-- `max_iterations` is an `unsigned`. -/
def Label.InRange : Label → Prop
  | .call _ (.create req) => req.config.maxIterations < 2 ^ 32
  | _ => True

instance (l : Label) : Decidable l.InRange :=
  match l with
  | .call _ (.create req) => inferInstanceAs (Decidable (req.config.maxIterations < 2 ^ 32))
  | .call _ (.get _) | .call _ (.cancel _) | .call _ (.gc _) | .tick | .step _ | .ret _
  | .task _ _ => .isTrue trivial

/-- What a call is going to give a session. -/
def Call.InRange : Call → Prop
  | .fetchId req _ | .construct req _ _ => req.config.maxIterations < 2 ^ 32
  | _ => True

/-- The counters are as far as the tasks are. -/
structure Counters (s : State P) : Prop where
  calls : ∀ t, (s.calls t).InRange
  objects : ∀ p o, s.objects p = some o → SessionTask.Counts o.task

/-- What a step does to the counter of a session that was there. -/
def CountersGrow (s s' : State P) : Prop :=
  ∀ p o o', s.objects p = some o → s'.objects p = some o' → o'.task.planned < 2 ^ 32 →
    o.task.planned < 2 ^ 32 ∧ o.session.stepCount ≤ o'.session.stepCount

theorem counters_initial : Counters (initial P) where
  calls := fun _ => trivial
  objects := by
    intro p o ho
    cases ho

theorem CountersGrow.of_eq (h : s'.objects = s.objects) : CountersGrow s s' := by
  intro p o o' ho ho' hn
  rw [h, ho, Option.some.injEq] at ho'
  subst ho'
  exact ⟨hn, le_rfl⟩

/-- A step of thread `t` that touches no session. -/
theorem Counters.setCall (hc : Counters s) {c : Call}
    (hcalls : s'.calls = Function.update s.calls t c) (hobjects : s'.objects = s.objects)
    (hcall : c.InRange) : Counters s' ∧ CountersGrow s s' := by
  refine ⟨⟨?_, ?_⟩, .of_eq hobjects⟩
  · intro t'
    rw [hcalls]
    by_cases ht : t' = t
    · rw [ht, Function.update_self]
      exact hcall
    · rw [Function.update_of_ne ht]
      exact hc.calls t'
  · rw [hobjects]
    exact hc.objects

/-- A step that writes to the session `p`. -/
theorem Counters.setObject (hc : Counters s) {p : ℕ} {o' : Object} (hcalls : s'.calls = s.calls)
    (hobjects : s'.objects = Function.update s.objects p (some o'))
    (ho' : SessionTask.Counts o'.task)
    (hgrows : ∀ o, s.objects p = some o → o'.task.planned < 2 ^ 32 →
      o.task.planned < 2 ^ 32 ∧ o.session.stepCount ≤ o'.session.stepCount) :
    Counters s' ∧ CountersGrow s s' := by
  refine ⟨⟨by rw [hcalls]; exact hc.calls, ?_⟩, ?_⟩
  · intro q o ho
    rw [hobjects] at ho
    by_cases hq : q = p
    · subst hq
      rw [Function.update_self, Option.some.injEq] at ho
      subst ho
      exact ho'
    · rw [Function.update_of_ne hq] at ho
      exact hc.objects q o ho
  · intro q o o₁ ho ho₁ hn
    rw [hobjects] at ho₁
    by_cases hq : q = p
    · subst hq
      rw [Function.update_self, Option.some.injEq] at ho₁
      subst ho₁
      exact hgrows o ho hn
    · rw [Function.update_of_ne hq, ho, Option.some.injEq] at ho₁
      subst ho₁
      exact ⟨hn, le_rfl⟩

/-- One after the other. -/
theorem CountersGrow.trans_eq {s'' : State P} (h : CountersGrow s s')
    (heq : s''.objects = s'.objects) : CountersGrow s s'' := by
  intro p o o' ho ho' hn
  rw [heq] at ho'
  exact h p o o' ho ho' hn

/-- A session that is written to while thread `t` goes on. -/
theorem Counters.setBoth (hc : Counters s) {p : ℕ} {o' : Object} {c : Call} (hcall : c.InRange)
    (ho' : SessionTask.Counts o'.task)
    (hgrows : ∀ o, s.objects p = some o → o'.task.planned < 2 ^ 32 →
      o.task.planned < 2 ^ 32 ∧ o.session.stepCount ≤ o'.session.stepCount) :
    Counters ((s.setObject p o').setCall t c) ∧
      CountersGrow s ((s.setObject p o').setCall t c) := by
  have hobject : Counters (s.setObject p o') ∧ CountersGrow s (s.setObject p o') :=
    hc.setObject rfl rfl ho' hgrows
  have hboth : Counters ((s.setObject p o').setCall t c) ∧
      CountersGrow (s.setObject p o') ((s.setObject p o').setCall t c) :=
    hobject.1.setCall rfl rfl hcall
  exact ⟨hboth.1, hobject.2.trans_eq rfl⟩

/-- A new session has counted nothing. -/
theorem fresh_new {req : CreateSessionRequest} (hreq : req.config.maxIterations < 2 ^ 32)
    (id now : ℕ) : (req.newSession id now).Fresh :=
  ⟨rfl, rfl, ⟨rfl, rfl⟩, hreq⟩

theorem Counters.thread (hi : Inv s) (hc : Counters s) (hs : ThreadMoves s t s') :
    Counters s' ∧ CountersGrow s s' := by
  have hcall := hc.calls t
  cases hs
  case fetchId req kind heq =>
    rw [heq] at hcall
    exact hc.setCall rfl rfl hcall
  case construct req kind id heq =>
    rw [heq] at hcall
    have hnone : s.objects id = none := by
      have hcreate := hi.ids.calls t
      rw [heq] at hcreate
      exact hcreate.2.2.2
    refine hc.setBoth trivial (fresh_new hcall id s.clock) ?_
    intro o ho
    rw [hnone] at ho
    cases ho
  case submit id o heq ho =>
    refine hc.setBoth trivial (hc.objects id o ho) ?_
    intro o₁ ho₁ hn
    rw [ho, Option.some.injEq] at ho₁
    subst ho₁
    exact ⟨hn, le_rfl⟩
  case mutate id p o heq hp ho =>
    refine hc.setBoth trivial (hc.objects p o ho).cancel ?_
    intro o₁ ho₁ hn
    rw [ho, Option.some.injEq] at ho₁
    subst ho₁
    rw [SessionTask.planned_cancel] at hn
    refine ⟨hn, ?_⟩
    show o.task.session.stepCount ≤ (o.task.mapSession SessionTask.cancelRequest).session.stepCount
    rw [SessionTask.session_cancel]
    exact le_rfl
  all_goals exact hc.setCall rfl rfl trivial

theorem callStep_inRange (s : State P) (t : ℕ) {m : Method} (hm : (Label.call t m).InRange) :
    ∃ c : Call, callStep s t m = s.setCall t c ∧ c.InRange := by
  cases m with
  | create req =>
    simp only [callStep]
    split
    · exact ⟨_, rfl, trivial⟩
    · exact ⟨_, rfl, hm⟩
  | get id | cancel id | gc maxAge => exact ⟨_, rfl, trivial⟩

/-- **Step of the counters.** -/
theorem Counters.step (hi : Inv s) (hc : Counters s) (hl : l.InRange) (hs : Moves s l s') :
    Counters s' ∧ CountersGrow s s' := by
  cases hs with
  | tick => exact ⟨⟨hc.calls, hc.objects⟩, .of_eq rfl⟩
  | @call t m hidle =>
    obtain ⟨c, heq, hcall⟩ := callStep_inRange s t hl
    rw [heq]
    exact hc.setCall rfl rfl hcall
  | thread hthread => exact hc.thread hi hthread
  | ret hr => exact hc.setCall rfl rfl trivial
  | @task p l o task' ho _ htask =>
    obtain ⟨hcounts, hmono⟩ := (hc.objects p o ho).step (hi.objects p o ho).outcome htask
    refine hc.setObject rfl rfl hcounts ?_
    intro o₁ ho₁
    rw [ho, Option.some.injEq] at ho₁
    subst ho₁
    exact hmono

end SessionManager

end Forge
