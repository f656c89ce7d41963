import Forge.Server.HttpServerInvariant

/-! # HTTP Server — What the Clients Are Told

  Results about every interleaving of any number of requests with the
  tasks of the sessions and with the threads that collect sessions:

  - `ids_distinct`: an id is given out once, to a session of the workflow
    that the request named;
  - `session_answers`: `GET` and `DELETE` of a session whose id was given
    out before answer 404 only when the session has ended and has been
    collected, and `GET` answers with that session;
  - `scans_complete`: a list of the sessions, and a count of them, leave
    out none that was there all the time, and count none twice.

  The path of a session is made from the id in the response that gave it
  out (`route_session`).
-/

namespace Forge

open LTS

namespace HttpServer

open SessionManager (SessionInfo Removal Known)

variable {P : Params} {s s' : State P} {tr : List Label}

/-! ### Paths -/

/-- The path of a session. -/
def sessionPath (id : ℕ) : String := "/api/sessions/" ++ toString id

theorem sessionDigits_path (id : ℕ) : sessionDigits (sessionPath id) = some (toString id) := by
  have hdigits : (toString id).toList = Nat.toDigits 10 id := by simp
  have hpath : (sessionPath id).toList = "/api/sessions/".toList ++ (toString id).toList :=
    String.toList_append
  have hall : (toString id).toList.all Char.isDigit = true := by
    rw [hdigits, List.all_eq_true]
    intro c hc
    exact Nat.isDigit_of_mem_toDigits (by decide) (by decide) hc
  have hne : (toString id).toList ≠ [] := by
    rw [hdigits]
    exact Nat.toDigits_ne_nil
  unfold sessionDigits
  simp only [hpath, List.drop_left, List.prefix_append, hne, hall, true_and, ne_eq,
    not_false_eq_true, if_true, String.ofList_toList]

theorem stoull_toString {id : ℕ} (hlt : id < 2 ^ 64) : stoull (toString id) = some id := by
  have hdigits : (toString id).toList = Nat.toDigits 10 id := by simp
  simp only [stoull, hdigits, Nat.ofDigitChars_ten_toDigits, hlt, if_true]

theorem sessionPath_ne (id : ℕ) :
    sessionPath id ≠ "/api/sessions" ∧ sessionPath id ≠ "/health" := by
  have hlong : (sessionPath id).length = 14 + (toString id).length := String.length_append _ _
  constructor
  · intro heq
    have hshort : (sessionPath id).length = 13 := by
      rw [heq]
      rfl
    omega
  · intro heq
    have hshort : (sessionPath id).length = 7 := by
      rw [heq]
      rfl
    omega

/-- The path of a session is routed to its handlers. -/
theorem route_session (id : ℕ) (method : HttpMethod) (body : String) :
    route method (sessionPath id) body = match method with
      | .get => some (.session (toString id))
      | .delete => some (.cancel (toString id))
      | .post => none := by
  obtain ⟨hlist, hhealth⟩ := sessionPath_ne id
  cases method <;> simp [route, hlist, hhealth, sessionDigits_path]

/-! ### Ids -/

/-- **An id is given out once.** No two responses give out the same id, and
    the session it belongs to runs the workflow that the request named. -/
theorem ids_distinct (hrun : (system P).Run tr s) :
    (issued s.exchanges).Nodup ∧
    ∀ e ∈ s.exchanges, ∀ body id, e.endpoint = .create body → e.response.createdId = some id →
      ∃ req o, (P.parse body).bind readRequest = some (some req) ∧
        s.manager.objects id = some o ∧ WorkflowFactory.create req.workflow = some o.kind := by
  have hi := inv_run hrun
  refine ⟨hi.nodup, ?_⟩
  intro e he body id hep hid
  have hanswer := (hi.exchanges e he).2.1
  rw [hep] at hanswer
  exact hanswer id hid

/-! ### One Session -/

/-- What has been removed had ended, and was old enough for the call of
    `gc` that removed it. -/
def Ended (m : SessionManager.State P.toParams) : Prop :=
  ∀ r ∈ m.removed, r.session.isTerminal ∧ r.maxAge ≤ SessionManager.age r.now r.session

theorem Ended.step {m m' : SessionManager.State P.toParams} {l : SessionManager.Label}
    (hi : SessionManager.Inv m) (hs : SessionManager.Moves m l m') (h : Ended m) : Ended m' := by
  obtain heq | ⟨r, heq, hthere, hnow⟩ := SessionManager.removed_of_moves hs
  · unfold Ended
    rwa [heq]
  · obtain ⟨p, hp⟩ := Option.isSome_iff_exists.mp hthere
    obtain ⟨o, -, -, maxAge, -, -, -, -, -, hterm, hage, hremoved⟩ :=
      SessionManager.removal_step hi hs hp hnow
    rw [heq, List.append_cancel_left_eq, List.cons.injEq, and_iff_left rfl] at hremoved
    intro r' hr'
    rw [heq] at hr'
    obtain hr' | hr' := List.mem_append.mp hr'
    · exact h r' hr'
    · rw [List.mem_singleton.mp hr', hremoved]
      exact ⟨hterm, hage⟩

/-- A step of the server is at most one step of the manager. -/
theorem manager_of_next {l : Label} (hi : Inv s) (hs : next s l = some s') :
    s'.manager = s.manager ∨ ∃ l', SessionManager.Moves s.manager l' s'.manager := by
  cases l with
  | manager l =>
    simp only [next] at hs
    split at hs
    · cases hs
    · obtain ⟨m', hm, rfl⟩ := Option.map_eq_some_iff.mp hs
      exact .inr ⟨l, SessionManager.moves_of_next hm⟩
  | request t ep =>
    simp only [next] at hs
    split at hs
    · obtain ⟨-, heq⟩ := Option.ite_none_right_eq_some.mp hs
      obtain rfl := Option.some.inj heq
      exact .inl rfl
    · cases hs
  | handle t =>
    have hs' : handle s t = some s' := hs
    cases hh : s.handlers t with
    | idle => simp [handle, hh] at hs'
    | busy ep before w =>
      obtain ⟨-, hwork⟩ := hi.handlers t ep before w hh
      obtain ⟨m', w', rfl, hg⟩ | ⟨r, rfl, rfl⟩ := handle_cases hi.manager hi.known hh hwork hs'
      · obtain heq | ⟨l, -, hmoves⟩ := hg.advances
        · exact .inl heq
        · exact .inr ⟨l, hmoves⟩
      · exact .inl rfl

theorem ended_run (hrun : (system P).Run tr s) : Ended s.manager := by
  have hall : Inv s ∧ Ended s.manager := by
    apply hrun.invariant (P := fun s => Inv s ∧ Ended s.manager)
    · rintro s rfl
      exact ⟨inv_initial, fun r hr => absurd hr List.not_mem_nil⟩
    · rintro s l s' ⟨hi, hended⟩ hs
      refine ⟨hi.step hs, ?_⟩
      obtain heq | ⟨l', hmoves⟩ := manager_of_next hi hs
      · rwa [heq]
      · exact hended.step hi.manager hmoves
  exact hall.2

/-- **A session that was given out is there until it is collected.** When
    its id was given out before it was asked for, `GET` or `DELETE` of its
    path answers 404 only if the session had ended and `gc` has removed it;
    and the session that `GET` answers with is the one that was asked for. -/
theorem session_answers (hrun : (system P).Run tr s) {e : Exchange} (he : e ∈ s.exchanges)
    {method : HttpMethod} {id : ℕ} {body : String} (hid : id < 2 ^ 64)
    (hroute : route method (sessionPath id) body = some e.endpoint) :
    (e.response.status = 404 → id ∈ issued (s.exchanges.take e.before) →
      ∃ r ∈ s.manager.removed, r.id = id ∧ r.session.isTerminal ∧
        r.maxAge ≤ SessionManager.age r.now r.session) ∧
    (method = .get → e.response.status = 200 →
      ∃ i, e.response = sessionResponse i ∧ i.id = id) := by
  have hi := inv_run hrun
  obtain ⟨-, hanswer, hgone⟩ := hi.exchanges e he
  have hremoved : id ∈ e.removed → ∃ r ∈ s.manager.removed, r.id = id ∧ r.session.isTerminal ∧
      r.maxAge ≤ SessionManager.age r.now r.session := by
    intro hin
    obtain ⟨r, hr, rfl⟩ := List.mem_map.mp (hgone id hin)
    exact ⟨r, hr, rfl, ended_run hrun r hr⟩
  rw [route_session] at hroute
  cases method with
  | get =>
    simp only [Option.some.injEq] at hroute
    rw [← hroute] at hanswer
    obtain ⟨h404, h200⟩ := hanswer
    refine ⟨fun hst hissued => hremoved (h404 hst id (stoull_toString hid) hissued), ?_⟩
    intro _ hst
    obtain ⟨i, hr, hsame⟩ := h200 hst
    rw [stoull_toString hid, Option.some.injEq] at hsame
    exact ⟨i, hr, hsame.symm⟩
  | delete =>
    simp only [Option.some.injEq] at hroute
    rw [← hroute] at hanswer
    exact ⟨fun hst hissued => hremoved (hanswer hst id (stoull_toString hid) hissued),
      fun hget => by cases hget⟩
  | post => cases hroute

/-! ### All Sessions -/

/-- **The scans leave out nothing.** The list of the sessions has every
    session once whose id was given out before the list was asked for and
    that has not been collected before the answer, and only sessions that
    are or were in the map; the count is that of such a list. -/
theorem scans_complete (hrun : (system P).Run tr s) {e : Exchange} (he : e ∈ s.exchanges)
    (hep : e.endpoint = .list ∨ e.endpoint = .health) :
    ∃ ids : List ℕ, ids.Nodup ∧
      (∀ id ∈ issued (s.exchanges.take e.before), id ∉ e.removed → id ∈ ids) ∧
      (∀ id ∈ ids, Known s.manager id) ∧
      (e.endpoint = .list → ∃ sessions, e.response = listResponse sessions ∧
        sessions.map SessionInfo.id = ids) ∧
      (e.endpoint = .health → e.response = healthResponse ids.length) := by
  obtain ⟨-, hanswer, -⟩ := (inv_run hrun).exchanges e he
  obtain hep | hep := hep
  · have hnot : e.endpoint ≠ .health := by simp [hep]
    rw [hep] at hanswer
    obtain ⟨sessions, hr, hcovers⟩ := hanswer
    exact ⟨_, hcovers.nodup, hcovers.complete, hcovers.stored, fun _ => ⟨sessions, hr, rfl⟩,
      fun h => absurd h hnot⟩
  · have hnot : e.endpoint ≠ .list := by simp [hep]
    rw [hep] at hanswer
    obtain ⟨ids, hr, hcovers⟩ := hanswer
    exact ⟨ids, hcovers.nodup, hcovers.complete, hcovers.stored, fun h => absurd h hnot,
      fun _ => hr⟩

/-! ### One Session from its Creation to its Removal -/

/-- A server for one session, to which every body is the same question. -/
def oneQuestion : Params where
  toParams := { SessionManager.oneSession with
    parse := fun _ => some (.object [("prompt", .string "2 + 2?")]) }
  what := id

/-- A session is created, runs and is listed; thread 1 collects it, and it
    is asked for. -/
def createdToRemoved : List Label :=
  List.flatten
    [[.request 0 (.create "question")], .replicate 73 (.handle 0),
      SessionTask.answered.map fun l => .manager (.task 1 l),
      [.request 0 .list], .replicate 75 (.handle 0),
      [.manager (.call 1 (.gc 0))], .replicate 68 (.manager (.step 1)),
      [.request 0 (.session "1")], .replicate 4 (.handle 0)]

/-- The endpoint, the status and what is recorded of a response. -/
def Exchange.summary (e : Exchange) : Endpoint × ℕ × ℕ × List ℕ :=
  (e.endpoint, e.response.status, e.before, e.removed)

/-- What is left of the run. -/
def Removed (s : State oneQuestion) : Prop :=
  s.exchanges.map Exchange.summary =
      [(.create "question", 201, 0, []), (.list, 200, 1, []), (.session "1", 404, 2, [1])] ∧
    issued (s.exchanges.take 1) = [1] ∧ issued (s.exchanges.take 2) = [1]

instance (s : State oneQuestion) : Decidable (Removed s) := inferInstanceAs (Decidable (_ ∧ _))

theorem createdToRemoved_run : ∃ s, (system oneQuestion).Run createdToRemoved s ∧ Removed s := by
  have hexec : (System.exec next (initial oneQuestion) createdToRemoved).map
      (fun s => decide (Removed s)) = some true := by decide +kernel
  obtain ⟨s, hrun, hs⟩ := System.exists_run_of_exec hexec
  exact ⟨s, hrun, of_decide_eq_true hs⟩

theorem createdToRemoved_distinct :
    ∃ s, (system oneQuestion).Run createdToRemoved s ∧ (issued s.exchanges).Nodup ∧
      issued (s.exchanges.take 1) = [1] := by
  obtain ⟨s, hrun, hs⟩ := createdToRemoved_run
  exact ⟨s, hrun, (ids_distinct hrun).1, hs.2.1⟩

theorem createdToRemoved_answers :
    ∃ s e, (system oneQuestion).Run createdToRemoved s ∧ e ∈ s.exchanges ∧
      e.response.status = 404 ∧ ∃ r ∈ s.manager.removed, r.id = 1 ∧ r.session.isTerminal := by
  obtain ⟨s, hrun, hs, -, htwo⟩ := createdToRemoved_run
  have hmem : (Endpoint.session "1", 404, 2, [1]) ∈ s.exchanges.map Exchange.summary := by
    rw [hs]
    simp
  obtain ⟨e, he, hsummary⟩ := List.mem_map.mp hmem
  simp only [Exchange.summary, Prod.mk.injEq] at hsummary
  obtain ⟨hep, hst, hbefore, -⟩ := hsummary
  have hroute : route .get (sessionPath 1) "" = some e.endpoint := by
    rw [route_session, hep]
    rfl
  obtain ⟨r, hr, hid, hterm, -⟩ := (session_answers hrun he (by decide) hroute).1 hst
    (by rw [hbefore, htwo]; simp)
  exact ⟨s, e, hrun, he, hst, r, hr, hid, hterm⟩

theorem createdToRemoved_scans :
    ∃ s e, (system oneQuestion).Run createdToRemoved s ∧ e ∈ s.exchanges ∧ e.endpoint = .list ∧
      ∃ sessions, e.response = listResponse sessions ∧ 1 ∈ sessions.map SessionInfo.id := by
  obtain ⟨s, hrun, hs, hone, -⟩ := createdToRemoved_run
  have hmem : (Endpoint.list, 200, 1, []) ∈ s.exchanges.map Exchange.summary := by
    rw [hs]
    simp
  obtain ⟨e, he, hsummary⟩ := List.mem_map.mp hmem
  simp only [Exchange.summary, Prod.mk.injEq] at hsummary
  obtain ⟨hep, -, hbefore, hremoved⟩ := hsummary
  obtain ⟨ids, -, hcomplete, -, hlist, -⟩ := scans_complete hrun he (.inl hep)
  obtain ⟨sessions, hr, rfl⟩ := hlist hep
  exact ⟨s, e, hrun, he, hep, sessions, hr,
    hcomplete 1 (by rw [hbefore, hone]; simp) (by rw [hremoved]; simp)⟩

end HttpServer

end Forge
