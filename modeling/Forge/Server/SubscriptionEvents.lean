import Forge.Server.SubscriptionInvariant

/-! # Subscriptions — The Events of a Run

  What a client sees of a session, whatever the other threads and the task
  of the session do meanwhile:

  - `Stream.shape`: state events, and at most one event behind them;
  - `Sorted`: the step counts that the session had;
  - `events_spec`: all of it, for every run.
-/

namespace Forge

open LTS

namespace Subscription

open SessionManager (SessionInfo Params)

variable {P : Params} {t id : ℕ} {s s' : State P} {l : Label} {p : Provider} {i : SessionInfo}

/-! ### The Shape of the Stream -/

/-- State events that differ from one to the next, and behind them nothing,
  or one `error`, or one `done` after the end of the session. -/
theorem Stream.shape (h : Stream p) : ∃ infos tail, p.events = infos.map .state ++ tail ∧
    infos.Sublist p.polled ∧ (pairs infos).IsChain (· ≠ ·) ∧
    (tail = [] ∨ tail = [.error] ∨ (tail = [.done] ∧ ∃ i ∈ infos.getLast?, i.state.terminal)) := by
  have hgoing : ∀ infos, Going p infos → p.events = infos.map .state ++ [] ∧
      infos.Sublist p.polled ∧ (pairs infos).IsChain (· ≠ ·) := by
    intro infos hg
    exact ⟨by rw [List.append_nil]; exact hg.events, hg.emitted.sublist, hg.emitted.differ⟩
  have hsublist : ∀ infos before i, Changed p infos before i →
      infos.Sublist p.polled ∧ (infos ++ [i]).Sublist p.polled := by
    intro infos before i hc
    rw [hc.polled]
    exact ⟨hc.emitted.sublist.trans (List.sublist_append_left _ _),
      hc.emitted.sublist.append (List.Sublist.refl _)⟩
  unfold Stream at h
  split at h
  · obtain ⟨infos, before, hc, hevents, -, -⟩ := h
    exact ⟨infos, [], by rw [List.append_nil]; exact hevents, (hsublist _ _ _ hc).1,
      hc.emitted.differ, .inl rfl⟩
  · obtain ⟨infos, before, i, hc, -, hevents⟩ := h
    exact ⟨infos ++ [i], [], by rw [List.append_nil]; exact hevents, (hsublist _ _ _ hc).2,
      hc.differ, .inl rfl⟩
  · cases h with
    | @gone infos before i hc hevents =>
      exact ⟨infos, [], by rw [List.append_nil]; exact hevents, (hsublist _ _ _ hc).1,
        hc.emitted.differ, .inl rfl⟩
    | @finished infos before i w hc hterm hevents =>
      refine ⟨infos ++ [i], _, hevents, (hsublist _ _ _ hc).2, hc.differ, ?_⟩
      cases w with
      | false => exact .inl rfl
      | true => exact .inr (.inr ⟨rfl, i, List.getLast?_concat, hterm⟩)
    | @missing infos w hemitted hevents =>
      refine ⟨infos, _, hevents, hemitted.sublist, hemitted.differ, ?_⟩
      cases w with
      | false => exact .inl rfl
      | true => exact .inr (.inl rfl)
  · obtain ⟨infos, hg⟩ := h
    obtain ⟨hevents, hsub, hdiffer⟩ := hgoing infos hg
    exact ⟨infos, [], hevents, hsub, hdiffer, .inl rfl⟩

/-- Where the provider may poll again, it has seen no end. -/
theorem Stream.not_over (h : Stream p)
    (hpc : p.pc = .yielded true ∨ p.pc = .poll ∨ p.pc = .sleep) :
    ∀ i ∈ p.polled, i.state.terminal = false := by
  have hgoing : ∃ infos, Going p infos := by
    unfold Stream at h
    rcases hpc with hpc | hpc | hpc <;> rwa [hpc] at h
  obtain ⟨infos, hg⟩ := hgoing
  exact hg.emitted.going

/-! ### Step Counts -/

/-- The step counts the session had are in order. -/
structure Sorted (id : ℕ) (s : State P) : Prop where
  counters : SessionManager.Counters s.manager
  empty : s.manager.objects id = none → s.held = []
  sorted : ∀ o, s.manager.objects id = some o → o.task.planned < 2 ^ 32 →
    (s.held.map Session.stepCount).Pairwise (· ≤ ·) ∧
      ∀ n ∈ s.held.map Session.stepCount, n ≤ o.session.stepCount

/-- A count that is not less than the others goes behind them. -/
theorem pairwise_snoc {ns : List ℕ} {n : ℕ} (hsorted : ns.Pairwise (· ≤ ·))
    (hbound : ∀ k ∈ ns, k ≤ n) :
    (ns ++ [n]).Pairwise (· ≤ ·) ∧ ∀ k ∈ ns ++ [n], k ≤ n := by
  rw [List.pairwise_append, List.forall_mem_append]
  refine ⟨⟨hsorted, List.pairwise_singleton _ _, ?_⟩, hbound, by simp⟩
  intro k hk k' hk'
  rw [List.mem_singleton.mp hk']
  exact hbound k hk

theorem sorted_initial : Sorted id (initial P) where
  counters := SessionManager.counters_initial
  empty := fun _ => rfl
  sorted := by
    intro o ho
    cases ho

theorem Sorted.step (h : Sorted id s) (hi : Inv t id s) (hl : l.InRange)
    (hs : Moves t id s l s') : Sorted id s' := by
  obtain ⟨hm, hheld⟩ | ⟨a, hm, hrange, hheld⟩ := accompanied hs
  · refine ⟨?_, ?_, ?_⟩
    · rw [hm]
      exact h.counters
    · rw [hm, hheld]
      exact h.empty
    · rw [hm, hheld]
      exact h.sorted
  · obtain ⟨hcounters, hgrow⟩ := h.counters.step hi.manager (hrange hl) hm
    refine ⟨hcounters, ?_, ?_⟩
    · intro hnone
      -- no session is lost
      cases hold : s.manager.objects id with
      | none =>
        rw [hheld, h.empty hold, hnone]
        rfl
      | some o =>
        obtain ⟨o', ho', -⟩ := (hi.manager.grows hm).objects id o hold
        rw [hnone] at ho'
        cases ho'
    · intro o' ho' hn
      have hnew : s'.held.map Session.stepCount =
          s.held.map Session.stepCount ++ [o'.session.stepCount] := by
        rw [hheld, ho', List.map_append]
        rfl
      have hold : (s.held.map Session.stepCount).Pairwise (· ≤ ·) ∧
          ∀ n ∈ s.held.map Session.stepCount, n ≤ o'.session.stepCount := by
        cases hobject : s.manager.objects id with
        | none =>
          rw [h.empty hobject]
          exact ⟨.nil, by simp⟩
        | some o =>
          obtain ⟨hn', hle⟩ := hgrow id o o' hobject ho' hn
          obtain ⟨hsorted, hbound⟩ := h.sorted o hobject hn'
          exact ⟨hsorted, fun n hmem => (hbound n hmem).trans hle⟩
      rw [hnew]
      exact pairwise_snoc hold.1 hold.2

theorem sorted_run {tr : List Label} (hrun : (system P t id).Run tr s)
    (hrange : ∀ l ∈ tr, l.InRange) : Sorted id s := by
  have hboth : Inv t id s ∧ ((∀ l ∈ tr, l.InRange) → Sorted id s) := by
    apply hrun.history_invariant
      (P := fun tr s => Inv t id s ∧ ((∀ l ∈ tr, l.InRange) → Sorted id s))
    · intro s hinit
      have hs : s = initial P := hinit
      rw [hs]
      exact ⟨inv_initial, fun _ => sorted_initial⟩
    · intro tr s l s' hr hi hs
      have hmoves := moves_of_next hs
      refine ⟨hi.1.step hmoves, ?_⟩
      intro hall
      obtain ⟨hbefore, hlast⟩ := List.forall_mem_append.mp hall
      exact (hi.2 hbefore).step hi.1 (hlast l (List.mem_singleton_self l)) hmoves
  exact hboth.2 hrange

/-- The plan steps or sub-tasks of the session `id` are fewer than 2^32. -/
def FewPlanned (id : ℕ) (s : State P) : Prop :=
  ∀ o, s.manager.objects id = some o → o.task.planned < 2 ^ 32

/-- No session has no history. -/
theorem Sorted.held (h : Sorted id s) (hfew : FewPlanned id s) :
    (s.held.map Session.stepCount).Pairwise (· ≤ ·) := by
  cases hobject : s.manager.objects id with
  | none =>
    rw [h.empty hobject]
    exact .nil
  | some o => exact (h.sorted o hobject (hfew o hobject)).1

/-! ### The Result of the Session -/

/-- The state event carries the answer or the error of the session, which is
  not empty. -/
structure Carries (id : ℕ) (s : State P) (i : SessionInfo) : Prop where
  object : ∃ o, s.manager.objects id = some o ∧
    ((i.state = .completed ∧ i.finalAnswer = o.session.finalAnswer ∧ i.finalAnswer ≠ "" ∧
        (Event.state i).data.field? "answer" = some (.string i.finalAnswer)) ∨
      ((i.state = .failed ∨ i.state = .cancelled) ∧ i.error = o.session.error ∧ i.error ≠ "" ∧
        (Event.state i).data.field? "error" = some (.string i.error)))

theorem data_answer (hne : i.finalAnswer ≠ "") :
    (Event.state i).data.field? "answer" = some (.string i.finalAnswer) := by
  simp [Event.data, Json.field?, hne]

theorem data_error (hne : i.error ≠ "") :
    (Event.state i).data.field? "error" = some (.string i.error) := by
  by_cases hanswer : i.finalAnswer = "" <;> simp [Event.data, Json.field?, hne, hanswer]

theorem Inv.carries (hi : Inv t id s) (hmem : i ∈ s.polled) (hterm : i.state.terminal) :
    Carries id s i := by
  obtain ⟨hid, hseen⟩ := hi.polled i hmem
  rw [← hid] at hseen
  obtain ⟨o, ho, hanswer, herror⟩ := hi.manager.carried hseen
  rw [hid] at ho
  refine ⟨o, ho, ?_⟩
  cases hst : i.state with
  | completed =>
    obtain ⟨heq, hne⟩ := hanswer hst
    exact .inl ⟨rfl, heq, hne, data_answer hne⟩
  | failed =>
    obtain ⟨heq, hne⟩ := herror (.inl hst)
    exact .inr ⟨.inl rfl, heq, hne, data_error hne⟩
  | cancelled =>
    obtain ⟨heq, hne⟩ := herror (.inr hst)
    exact .inr ⟨.inr rfl, heq, hne, data_error hne⟩
  | created | waitingForLlm | executingTools | waitingForHuman =>
    rw [hst] at hterm
    cases hterm

/-! ### Every Run -/

/-- **The events of a subscription.** They are state events, and perhaps one
  event more. The states and the step counts are among those that the session
  had, in that order; two events that follow each other differ, and the step
  counts do not decrease if the LLM gave fewer than 2^32 plan steps or
  sub-tasks. The last event may be an `error`, or a `done` right behind a
  terminal state with the result of the session. Once it has seen a terminal
  state the provider polls no more. -/
theorem events_spec {tr : List Label} (hrun : (system P t id).Run tr s) :
    ∃ infos tail, s.events = infos.map .state ++ tail ∧
      (infos.map SessionInfo.state).Sublist (s.held.map Session.state) ∧
      (infos.map SessionInfo.stepCount).Sublist (s.held.map Session.stepCount) ∧
      (pairs infos).IsChain (· ≠ ·) ∧
      ((∀ l ∈ tr, l.InRange) → FewPlanned id s →
        (infos.map SessionInfo.stepCount).Pairwise (· ≤ ·)) ∧
      (tail = [] ∨ tail = [.error] ∨
        (tail = [.done] ∧ ∃ i ∈ infos.getLast?, i.state.terminal ∧ Carries id s i)) ∧
      ((∃ i ∈ s.polled, i.state.terminal) →
        s.pc ≠ .yielded true ∧ s.pc ≠ .poll ∧ s.pc ≠ .sleep) := by
  have hi := inv_run hrun
  obtain ⟨infos, tail, hevents, hsub, hdiffer, htail⟩ := hi.stream.shape
  have hstates : (infos.map SessionInfo.state).Sublist (s.held.map Session.state) :=
    (hsub.map _).trans ((List.sublist_append_left _ _).trans hi.states)
  have hcounts : (infos.map SessionInfo.stepCount).Sublist (s.held.map Session.stepCount) :=
    (hsub.map _).trans ((List.sublist_append_left _ _).trans hi.counts)
  refine ⟨infos, tail, hevents, hstates, hcounts, hdiffer, ?_, ?_, ?_⟩
  · intro hrange hfew
    exact ((sorted_run hrun hrange).held hfew).sublist hcounts
  · rcases htail with hnil | herror | ⟨hdone, i, hlast, hterm⟩
    · exact .inl hnil
    · exact .inr (.inl herror)
    · have hmem : i ∈ s.polled := hsub.subset (List.mem_of_getLast? hlast)
      exact .inr (.inr ⟨hdone, i, hlast, hterm, hi.carries hmem hterm⟩)
  · rintro ⟨i, hmem, hterm⟩
    have hnot : ∀ pc, pc = .yielded true ∨ pc = .poll ∨ pc = .sleep → s.pc ≠ pc := by
      rintro pc hpc rfl
      have hgoing := hi.stream.not_over hpc i hmem
      rw [hgoing] at hterm
      cases hterm
    exact ⟨hnot _ (.inl rfl), hnot _ (.inr (.inl rfl)), hnot _ (.inr (.inr rfl))⟩

/-- A session is created, subscribed to, and then answered. -/
def streamed : List Label :=
  (SessionManager.createAlone 0).map Label.manager ++ List.replicate 7 (Label.serve true) ++
    SessionTask.answered.map (fun l => Label.manager (.task 1 l)) ++
    List.replicate 9 (Label.serve true)

theorem streamed_events : ∃ s, (system SessionManager.oneSession 1 1).Run streamed s ∧
    s.events = [.state ⟨1, .completed, 1, "4", ""⟩, .done] ∧
    ∃ (infos : List SessionInfo) (tail : List Event), s.events = infos.map .state ++ tail ∧
      (infos.map SessionInfo.stepCount).Pairwise (· ≤ ·) := by
  have hends : (System.exec (next 1 1) (initial SessionManager.oneSession) streamed).map
      (fun s => (s.events, (s.manager.objects 1).map fun o => o.task.planned)) =
      some ([.state ⟨1, .completed, 1, "4", ""⟩, .done], some 0) := by decide +kernel
  obtain ⟨s, hrun, hend⟩ := System.exists_run_of_exec hends
  obtain ⟨hevents, hplanned⟩ := Prod.mk.inj hend
  obtain ⟨infos, tail, heq, -, -, -, hsorted, -⟩ := events_spec hrun
  have hfew : FewPlanned 1 s := by
    intro o ho
    rw [ho] at hplanned
    have hzero : o.task.planned = 0 := Option.some.inj hplanned
    omega
  have hrange : ∀ l ∈ streamed, l.InRange := by decide +kernel
  exact ⟨s, hrun, hevents, infos, tail, heq, hsorted hrange hfew⟩

end Subscription

end Forge
