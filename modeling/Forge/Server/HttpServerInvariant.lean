import Forge.Server.HttpServer
import Forge.Server.SubscriptionInvariant
import Forge.Session.SessionReaping

/-! # HTTP Server — Invariant

  What the handlers know of the manager, in any interleaving:

  - `Later`: what a step of the server leaves true: the responses sent, the
    sessions removed, those that are or were in the map, and their
    workflows;
  - `Covers`: a list of ids that a scan of the map has come to;
  - `AnswerOk`: what a response says, and `WorkOk` what a handler knows on
    the way to it;
  - `Inv`, `inv_run`: the invariant of the server.
-/

namespace Forge

open LTS

/-! ### The Manager -/

namespace SessionManager

variable {P : Params} {s s' : State P} {l : Label} {t id : ℕ}

/-- The ids of the sessions that have been removed. -/
def State.gone (s : State P) : List ℕ := s.removed.map Removal.id

theorem gone_of_moves (hs : Moves s l s') (hgone : id ∈ s.gone) : id ∈ s'.gone := by
  unfold State.gone at hgone ⊢
  obtain heq | ⟨r, heq, -⟩ := removed_of_moves hs
  · rwa [heq]
  · rw [heq, List.map_append]
    exact List.mem_append_left _ hgone

/-- A session that is in the map, or was, is or was from now on. -/
theorem Known.step (hi : Inv s) (hs : Moves s l s') (hk : Known s id) : Known s' id := by
  obtain hfind | hgone := hk
  · cases hafter : s'.sessions.find id with
    | none =>
      obtain ⟨o, t, now, maxAge, rest, reaped, -, -, -, -, -, hremoved⟩ :=
        removal_step hi hs hfind hafter
      refine .inr ?_
      rw [hremoved]
      simp
    | some p =>
      obtain ⟨rfl, -⟩ := (hi.step hs).ids.entries id p hafter
      exact .inl hafter
  · exact .inr (gone_of_moves hs hgone)

/-- Ids are handed out one at a time, by the thread that has drawn them. -/
theorem created_of_moves (hs : Moves s l s') :
    s'.created = s.created ∨ ∃ t id, l = .step t ∧ s.calls t = .track id ∧
      s'.created = s.created ++ [id] ∧ s'.calls t = .returned (.created id) := by
  cases hs with
  | tick | ret _ | task _ _ _ => exact .inl rfl
  | @call t m _ =>
    obtain ⟨c, heq, -⟩ := callStep_spec s t m
    rw [heq]
    exact .inl rfl
  | @thread t s' hthread =>
    cases hthread
    case track id hcall =>
      exact .inr ⟨t, id, rfl, hcall, rfl, by simp [State.setCall]⟩
    all_goals exact .inl rfl

/-- A thread comes back with an id when it has handed it out. -/
theorem created_of_returned (hi : Inv s) (hs : Moves s l s')
    (hbefore : s.calls t ≠ .returned (.created id))
    (hafter : s'.calls t = .returned (.created id)) :
    id ∉ s.created ∧ id ∈ s'.created := by
  by_cases hthread : l.thread = some t
  · cases hs with
    | tick | task _ _ _ => cases hthread
    | ret _ =>
      obtain rfl := Option.some.inj hthread
      simp [State.setCall] at hafter
    | @call t' m _ =>
      obtain rfl := Option.some.inj hthread
      cases m <;> simp only [callStep] at hafter
      case create =>
        split at hafter <;> simp [State.setCall] at hafter
      all_goals simp [State.setCall] at hafter
    | @thread t' s' hmoves =>
      obtain rfl := Option.some.inj hthread
      have hok := hi.ids.calls t'
      cases hmoves
      case track id' hcall =>
        rw [hcall] at hok
        simp only [State.setCall, Function.update_self, Call.returned.injEq,
          Result.created.injEq] at hafter
        subst hafter
        exact ⟨hok.2.1, List.mem_append_right _ (List.mem_singleton.mpr rfl)⟩
      all_goals simp [State.setCall] at hafter
  · rw [calls_of_moves hs hthread] at hafter
    exact absurd hafter hbefore

/-- A session keeps its workflow. -/
theorem kind_of_moves (hi : Inv s) (hs : Moves s l s') {o : Object} (ho : s.objects id = some o) :
    ∃ o', s'.objects id = some o' ∧ o'.kind = o.kind := by
  -- the session that is written keeps its workflow, the others are not touched
  have hset : ∀ (p : ℕ) (o' : Object), (∀ o₁, s.objects p = some o₁ → o'.kind = o₁.kind) →
      ∃ o'', (s.setObject p o').objects id = some o'' ∧ o''.kind = o.kind := by
    intro p o' hkind
    by_cases hp : id = p
    · subst hp
      exact ⟨o', by simp [State.setObject], hkind o ho⟩
    · exact ⟨o, by simp [State.setObject, hp, ho], rfl⟩
  cases hs with
  | tick | ret _ => exact ⟨o, ho, rfl⟩
  | @call t m _ =>
    obtain ⟨c, heq, -⟩ := callStep_spec s t m
    rw [heq]
    exact ⟨o, ho, rfl⟩
  | @task p l o₁ task' ho₁ _ _ =>
    refine hset p _ ?_
    intro o₂ ho₂
    rw [ho₁, Option.some.injEq] at ho₂
    rw [← ho₂]
  | @thread t s' hthread =>
    cases hthread
    case construct req kind id' hcall =>
      have hcreate := hi.ids.calls t
      rw [hcall] at hcreate
      refine hset id' _ ?_
      intro o₂ ho₂
      rw [hcreate.2.2.2] at ho₂
      cases ho₂
    case submit id' o₁ hcall ho₁ =>
      refine hset id' _ ?_
      intro o₂ ho₂
      rw [ho₁, Option.some.injEq] at ho₂
      rw [← ho₂]
    case mutate p o₁ hcall hp ho₁ =>
      refine hset p _ ?_
      intro o₂ ho₂
      rw [ho₁, Option.some.injEq] at ho₂
      rw [← ho₂]
    all_goals exact ⟨o, ho, rfl⟩

/-! ### Calls of the Manager -/

/-- A call of `create_session(req)`: the session it has made runs the
    workflow that was asked for. -/
def Creating (s : State P) (req : CreateSessionRequest) : Call → Prop
  | .fetchId r kind | .construct r kind _ =>
      r = req ∧ WorkflowFactory.create req.workflow = some kind
  | .scan id _ _ | .insert id | .submit id | .track id | .returned (.created id) =>
      ∃ o, s.objects id = some o ∧ WorkflowFactory.create req.workflow = some o.kind
  | .returned (.refused _) => True
  | _ => False

/-- A call of `get_session(id)`: of the sessions in `asked` it only misses
    what is gone. -/
def Got (s : State P) (asked : List ℕ) (id : ℕ) (c : Call) : Prop :=
  Subscription.Getting id c ∧ (c = .returned (.info none) → id ∈ asked → id ∈ s.gone)

/-- A call of `cancel_session(id)`. -/
def Cancelling (s : State P) (asked : List ℕ) (id : ℕ) : Call → Prop
  | .mutate p => p = id
  | .returned (.cancelled found) => found = false → id ∈ asked → id ∈ s.gone
  | _ => False

variable {req : CreateSessionRequest} {asked : List ℕ} {c : Call}

theorem Creating.step (hi : Inv s) (hs : Moves s l s') (h : Creating s req c) :
    Creating s' req c := by
  have hobject : ∀ id, (∃ o, s.objects id = some o ∧
        WorkflowFactory.create req.workflow = some o.kind) →
      ∃ o, s'.objects id = some o ∧ WorkflowFactory.create req.workflow = some o.kind := by
    rintro id ⟨o, ho, hkind⟩
    obtain ⟨o', ho', heq⟩ := kind_of_moves hi hs ho
    exact ⟨o', ho', by rw [heq, hkind]⟩
  cases c with
  | scan | insert | submit | track => exact hobject _ h
  | returned r =>
    cases r with
    | created id => exact hobject id h
    | _ => exact h
  | _ => exact h

theorem Got.step (hs : Moves s l s') (h : Got s asked id c) : Got s' asked id c :=
  ⟨h.1, fun hc hid => gone_of_moves hs (h.2 hc hid)⟩

theorem Cancelling.step (hs : Moves s l s') (h : Cancelling s asked id c) :
    Cancelling s' asked id c := by
  cases c with
  | returned r =>
    cases r with
    | cancelled found => exact fun hf hid => gone_of_moves hs (h hf hid)
    | _ => exact h
  | _ => exact h

/-- A session asked for that is not in the map is gone. -/
theorem gone_of_not_found (hasked : ∀ id ∈ asked, Known s id) (hfind : s.sessions.find id = none)
    (hid : id ∈ asked) : id ∈ s.gone := by
  obtain hthere | hgone := hasked id hid
  · rw [hfind] at hthere
    cases hthere
  · exact hgone

theorem Creating.thread (hi : Inv s) (hs : ThreadMoves s t s') (h : Creating s req (s.calls t)) :
    Creating s' req (s'.calls t) := by
  have hlater : ∀ c, Creating s req c → Creating s' req c :=
    fun _ hc => Creating.step hi (.thread hs) hc
  cases hs
  case fetchId hcall =>
    rw [hcall] at h
    simpa [State.setCall, Creating] using h
  case construct r kind id hcall =>
    rw [hcall] at h
    simp only [State.setCall, Function.update_self]
    exact ⟨⟨kind, .queued (r.newSession id s.clock), false⟩, by simp [State.setObject], h.2⟩
  case scan hcall _ | underCapacity hcall _ _ | insert hcall | submit hcall _ | track hcall =>
    rw [hcall] at h
    have hafter := hlater _ h
    simp only [State.setCall, Function.update_self]
    exact hafter
  case atCapacity hcall =>
    simp only [State.setCall, Function.update_self]
    trivial
  all_goals
    next hcall =>
    simp [Creating, *] at h

theorem Got.thread (hi : Inv s) (hasked : ∀ id ∈ asked, Known s id) (hs : ThreadMoves s t s')
    (h : Got s asked id (s.calls t)) : Got s' asked id (s'.calls t) := by
  obtain ⟨hget, -⟩ := h
  cases hs
  case lookup q p hcall hp =>
    rw [hcall] at hget
    obtain rfl : q = id := hget
    simp only [State.setCall, Function.update_self]
    exact ⟨(hi.ids.entries q p hp).1, fun hc => by cases hc⟩
  case notFound q hcall hp =>
    rw [hcall] at hget
    obtain rfl : q = id := hget
    simp only [State.setCall, Function.update_self]
    exact ⟨trivial, fun _ hid => gone_of_not_found hasked hp hid⟩
  case readState p o hcall ho | readStepCount p st o hcall ho | readAnswer p st n o hcall ho =>
    rw [hcall] at hget
    obtain rfl : p = id := hget
    simp only [State.setCall, Function.update_self]
    exact ⟨rfl, fun hc => by cases hc⟩
  case readError p st n answer o hcall ho =>
    rw [hcall] at hget
    obtain rfl : p = id := hget
    simp only [State.setCall, Function.update_self]
    exact ⟨(hi.objects p o ho).id, fun hc => by cases hc⟩
  all_goals
    next hcall =>
    simp [Subscription.Getting, *] at hget

theorem Cancelling.thread (hasked : ∀ id ∈ asked, Known s id) (hs : ThreadMoves s t s')
    (h : Cancelling s asked id (s.calls t)) : Cancelling s' asked id (s'.calls t) := by
  cases hs
  case mutate q p o hcall hp ho =>
    simp only [State.setCall, Function.update_self]
    exact fun hf => by cases hf
  case nothingToMutate q hcall hp =>
    rw [hcall] at h
    obtain rfl : q = id := h
    simp only [State.setCall, Function.update_self]
    exact fun _ hid => gone_of_not_found hasked hp hid
  all_goals
    next hcall =>
    simp [Cancelling, *] at h

end SessionManager

namespace HttpServer

open SessionManager (SessionInfo Known Moves numStripes)

variable {P : Params} {s s' : State P} {m : SessionManager.State P.toParams} {t : ℕ}
  {ep : Endpoint} {r : Response} {asked removed removed' ids : List ℕ}

/-! ### Responses -/

/-- The id that a response of `handle_create_session` gives out. -/
def Response.createdId (r : Response) : Option ℕ :=
  if r.status = 201 then
    match r.body.field? "id" with
    | some (.int i) => some i.toNat
    | _ => none
  else none

/-- The ids that have been given out. -/
def issued (exchanges : List Exchange) : List ℕ := exchanges.filterMap fun e => e.response.createdId

@[simp] theorem createdId_created (id : ℕ) : (createdResponse id).createdId = some id := by
  simp [createdResponse, Response.createdId, Json.field?]

theorem createdId_of_status (h : r.status ≠ 201) : r.createdId = none := by
  simp [Response.createdId, h]

/-- The manager's function answers with an id when it has made a session. -/
theorem createdId_respond {res : SessionManager.Result} {id : ℕ} (h : respond ep res = some r)
    (hid : r.createdId = some id) : res = .created id := by
  unfold respond at h
  split at h
  case h_1 =>
    obtain rfl := Option.some.inj h
    rw [createdId_created, Option.some.injEq] at hid
    rw [hid]
  case h_7 => cases h
  all_goals
    obtain rfl := Option.some.inj h
    rw [createdId_of_status (by simp [errorResponse, sessionResponse])] at hid
    cases hid

/-! ### What a Response Says -/

/-- The ids list what has been asked for, except for what is removed, each
    once, and only sessions that are or were in the map. -/
structure Covers (m : SessionManager.State P.toParams) (asked removed ids : List ℕ) : Prop where
  nodup : ids.Nodup
  complete : ∀ id ∈ asked, id ∉ removed → id ∈ ids
  stored : ∀ id ∈ ids, Known m id

/-- The response to a request: `asked` are the ids given out before it
    came, `removed` those of the sessions removed before it was answered. -/
def AnswerOk (m : SessionManager.State P.toParams) (asked removed : List ℕ) (r : Response) :
    Endpoint → Prop
  | .create body => ∀ id, r.createdId = some id →
      ∃ req o, (P.parse body).bind readRequest = some (some req) ∧
        m.objects id = some o ∧ WorkflowFactory.create req.workflow = some o.kind
  | .session digits =>
      (r.status = 404 → ∀ id, stoull digits = some id → id ∈ asked → id ∈ removed) ∧
      (r.status = 200 → ∃ i, r = sessionResponse i ∧ stoull digits = some i.id)
  | .cancel digits => r.status = 404 → ∀ id, stoull digits = some id → id ∈ asked → id ∈ removed
  | .list => ∃ sessions, r = listResponse sessions ∧
      Covers m asked removed (sessions.map SessionInfo.id)
  | .health => ∃ ids, r = healthResponse ids.length ∧ Covers m asked removed ids

/-! ### What a Handler Knows -/

/-- A scan of the map that has come to stripe `j`. -/
structure Scanned (m : SessionManager.State P.toParams) (asked : List ℕ) (j : ℕ) (found : List ℕ) :
    Prop where
  nodup : found.Nodup
  complete : ∀ id ∈ asked, id ∉ m.gone →
    (ConcurrentMap.stripeOf P.hash numStripes id : ℕ) < j → id ∈ found
  stored : ∀ id ∈ found, Known m id ∧ (ConcurrentMap.stripeOf P.hash numStripes id : ℕ) < j

/-- The call of the manager that the handler is in. -/
def InCall (m : SessionManager.State P.toParams) (asked : List ℕ) (c : SessionManager.Call) :
    Endpoint → Prop
  | .create body => ∃ req, (P.parse body).bind readRequest = some (some req) ∧
      SessionManager.Creating m req c
  | .session digits => ∃ id, stoull digits = some id ∧ SessionManager.Got m asked id c
  | .cancel digits => ∃ id, stoull digits = some id ∧ SessionManager.Cancelling m asked id c
  | .list | .health => False

/-- What a handler knows; `c` is what its thread does in the manager. -/
def WorkOk (m : SessionManager.State P.toParams) (asked : List ℕ) (c : SessionManager.Call)
    (ep : Endpoint) : Work → Prop
  | .start => c = .idle
  | .inCall => InCall m asked c ep
  | .keys j found => ep = .list ∧ c = .idle ∧ Scanned m asked j found
  | .describe rest sessions => ep = .list ∧ c = .idle ∧
      Covers m asked m.gone (sessions.map SessionInfo.id ++ rest)
  | .inDescribe rest sessions => ep = .list ∧ ∃ id, SessionManager.Got m asked id c ∧
      Covers m asked m.gone (sessions.map SessionInfo.id ++ id :: rest)
  | .count j total => ep = .health ∧ c = .idle ∧
      ∃ found : List ℕ, found.length = total ∧ Scanned m asked j found
  | .answer r => c = .idle ∧ AnswerOk m asked m.gone r ep

/-! ### Steps of the Manager -/

section Manager

variable {m' : SessionManager.State P.toParams} {l : SessionManager.Label}

theorem Covers.step (hi : SessionManager.Inv m) (hs : Moves m l m')
    (hsub : ∀ id ∈ removed, id ∈ removed') (h : Covers m asked removed ids) :
    Covers m' asked removed' ids where
  nodup := h.nodup
  complete := fun id hid hnot => h.complete id hid fun hin => hnot (hsub id hin)
  stored := fun id hid => (h.stored id hid).step hi hs

theorem Scanned.step {j : ℕ} (hi : SessionManager.Inv m) (hs : Moves m l m')
    (h : Scanned m asked j ids) : Scanned m' asked j ids where
  nodup := h.nodup
  complete := fun id hid hnot =>
    h.complete id hid fun hin => hnot (SessionManager.gone_of_moves hs hin)
  stored := fun id hid => ⟨(h.stored id hid).1.step hi hs, (h.stored id hid).2⟩

theorem AnswerOk.step (hi : SessionManager.Inv m) (hs : Moves m l m')
    (hsub : ∀ id ∈ removed, id ∈ removed') (h : AnswerOk m asked removed r ep) :
    AnswerOk m' asked removed' r ep := by
  cases ep with
  | create body =>
    intro id hid
    obtain ⟨req, o, hreq, ho, hkind⟩ := h id hid
    obtain ⟨o', ho', heq⟩ := SessionManager.kind_of_moves hi hs ho
    exact ⟨req, o', hreq, ho', by rw [heq, hkind]⟩
  | session digits =>
    exact ⟨fun hst id hdigits hid => hsub id (h.1 hst id hdigits hid), h.2⟩
  | cancel digits => exact fun hst id hdigits hid => hsub id (h hst id hdigits hid)
  | list =>
    obtain ⟨sessions, hr, hcovers⟩ := h
    exact ⟨sessions, hr, hcovers.step hi hs hsub⟩
  | health =>
    obtain ⟨ids, hr, hcovers⟩ := h
    exact ⟨ids, hr, hcovers.step hi hs hsub⟩

theorem InCall.step {c : SessionManager.Call} (hi : SessionManager.Inv m) (hs : Moves m l m')
    (h : InCall m asked c ep) : InCall m' asked c ep := by
  cases ep with
  | create body =>
    obtain ⟨req, hreq, hc⟩ := h
    exact ⟨req, hreq, hc.step hi hs⟩
  | session digits =>
    obtain ⟨id, hid, hc⟩ := h
    exact ⟨id, hid, hc.step hs⟩
  | cancel digits =>
    obtain ⟨id, hid, hc⟩ := h
    exact ⟨id, hid, hc.step hs⟩
  | list | health => exact h

/-- What a handler knows stays true while others work. -/
theorem WorkOk.step {c : SessionManager.Call} {w : Work} (hi : SessionManager.Inv m)
    (hs : Moves m l m') (h : WorkOk m asked c ep w) : WorkOk m' asked c ep w := by
  have hgone : ∀ id ∈ m.gone, id ∈ m'.gone := fun id => SessionManager.gone_of_moves hs
  cases w with
  | start => exact h
  | inCall => exact InCall.step hi hs h
  | keys j found => exact ⟨h.1, h.2.1, h.2.2.step hi hs⟩
  | describe rest sessions => exact ⟨h.1, h.2.1, h.2.2.step hi hs hgone⟩
  | inDescribe rest sessions =>
    obtain ⟨hep, id, hgot, hcovers⟩ := h
    exact ⟨hep, id, hgot.step hs, hcovers.step hi hs hgone⟩
  | count j total =>
    obtain ⟨hep, hc, found, hlen, hscan⟩ := h
    exact ⟨hep, hc, found, hlen, hscan.step hi hs⟩
  | answer r => exact ⟨h.1, h.2.step hi hs hgone⟩

end Manager

/-! ### Scans -/

theorem scanned_zero (m : SessionManager.State P.toParams) (asked : List ℕ) :
    Scanned m asked 0 [] where
  nodup := List.nodup_nil
  complete := fun _ _ _ hlt => absurd hlt (Nat.not_lt_zero _)
  stored := fun _ hid => absurd hid List.not_mem_nil

/-- A scan takes up one more stripe. -/
theorem Scanned.next {j : ℕ} (hi : SessionManager.Inv m) (hasked : ∀ id ∈ asked, Known m id)
    (h : Scanned m asked j ids) : Scanned m asked (j + 1) (ids ++ m.sessions.keysAt j) where
  nodup := by
    refine List.nodup_append.mpr ⟨h.nodup, ConcurrentMap.keysAt_nodup j, ?_⟩
    rintro id hid id' hid' rfl
    have hlt := (h.stored id hid).2
    have heq := (ConcurrentMap.mem_keysAt.mp hid').1
    omega
  complete := by
    intro id hid hnot hlt
    obtain hold | hnew := Nat.lt_succ_iff_lt_or_eq.mp hlt
    · exact List.mem_append_left _ (h.complete id hid hnot hold)
    · obtain hfind | hgone := hasked id hid
      · exact List.mem_append_right _ (ConcurrentMap.mem_keysAt.mpr ⟨hnew.symm, by rw [hfind]; rfl⟩)
      · exact absurd hgone hnot
  stored := by
    intro id hid
    obtain hold | hnew := List.mem_append.mp hid
    · exact ⟨(h.stored id hold).1, Nat.lt_succ_of_lt (h.stored id hold).2⟩
    · obtain ⟨hj, hfind⟩ := ConcurrentMap.mem_keysAt.mp hnew
      obtain ⟨p, hp⟩ := Option.isSome_iff_exists.mp hfind
      obtain ⟨rfl, -⟩ := hi.ids.entries id p hp
      exact ⟨.inl hp, by omega⟩

/-- A scan of all stripes has seen every session that stayed. -/
theorem Scanned.covers {j : ℕ} (hj : numStripes ≤ j) (h : Scanned m asked j ids) :
    Covers m asked m.gone ids where
  nodup := h.nodup
  complete := fun id hid hnot => h.complete id hid hnot (lt_of_lt_of_le (Fin.is_lt _) hj)
  stored := fun id hid => (h.stored id hid).1

/-- A session that is gone is left out of the list. -/
theorem Covers.leave_out {id : ℕ} {rest : List ℕ} (h : Covers m asked m.gone (ids ++ id :: rest))
    (hgone : id ∈ asked → id ∈ m.gone) : Covers m asked m.gone (ids ++ rest) where
  nodup := h.nodup.sublist ((List.Sublist.refl ids).append (List.sublist_cons_self _ _))
  complete := by
    intro id' hid hnot
    obtain hin | hin := List.mem_append.mp (h.complete id' hid hnot)
    · exact List.mem_append_left _ hin
    · obtain rfl | hin := List.mem_cons.mp hin
      · exact absurd (hgone hid) hnot
      · exact List.mem_append_right _ hin
  stored := by
    intro id' hid
    refine h.stored id' ?_
    obtain hin | hin := List.mem_append.mp hid
    · exact List.mem_append_left _ hin
    · exact List.mem_append_right _ (List.mem_cons_of_mem _ hin)

/-! ### Steps of a Handler -/

/-- The id that a handler is about to give out. -/
def pendingOf (c : SessionManager.Call) : Work → Option ℕ
  | .inCall => match c with
    | .returned (.created id) => some id
    | _ => none
  | .answer r => r.createdId
  | _ => none

/-- The manager stays as it is, or thread `t` takes a step in it. -/
def Advances (m : SessionManager.State P.toParams) (t : ℕ) (m' : SessionManager.State P.toParams) :
    Prop :=
  m' = m ∨ ∃ l : SessionManager.Label, l.thread = some t ∧ Moves m l m'

/-- A handler goes on with what it has to know, and gives out an id only
    when its call of the manager has. -/
structure GoesOn (m : SessionManager.State P.toParams) (t : ℕ) (asked : List ℕ) (ep : Endpoint)
    (w : Work) (m' : SessionManager.State P.toParams) (w' : Work) : Prop where
  advances : Advances m t m'
  work : WorkOk m' asked (m'.calls t) ep w'
  pending : ∀ id, pendingOf (m'.calls t) w' = some id →
    pendingOf (m.calls t) w = some id ∨ (id ∉ m.created ∧ id ∈ m'.created)

theorem InCall.thread {m' : SessionManager.State P.toParams} (hi : SessionManager.Inv m)
    (hasked : ∀ id ∈ asked, Known m id) (hs : SessionManager.ThreadMoves m t m')
    (h : InCall m asked (m.calls t) ep) : InCall m' asked (m'.calls t) ep := by
  cases ep with
  | create body =>
    obtain ⟨req, hreq, hc⟩ := h
    exact ⟨req, hreq, hc.thread hi hs⟩
  | session digits =>
    obtain ⟨id, hid, hc⟩ := h
    exact ⟨id, hid, hc.thread hi hasked hs⟩
  | cancel digits =>
    obtain ⟨id, hid, hc⟩ := h
    exact ⟨id, hid, hc.thread hasked hs⟩
  | list | health => cases h

/-- What the manager's function has returned makes the response. -/
theorem InCall.answer {res : SessionManager.Result}
    (h : InCall m asked (.returned res) ep) (hr : respond ep res = some r) :
    AnswerOk m asked m.gone r ep := by
  cases ep with
  | create body =>
    intro id hid
    obtain rfl := createdId_respond hr hid
    obtain ⟨req, hreq, o, ho, hkind⟩ := h
    exact ⟨req, o, hreq, ho, hkind⟩
  | session digits =>
    obtain ⟨id, hid, hget, hgone⟩ := h
    cases res with
    | info i =>
      cases i with
      | none =>
        obtain rfl := Option.some.inj hr
        refine ⟨fun _ id' hid' hasked => ?_, fun hst => by simp [errorResponse] at hst⟩
        obtain rfl := Option.some.inj (hid.symm.trans hid')
        exact hgone rfl hasked
      | some i =>
        obtain rfl := Option.some.inj hr
        have hsame : i.id = id := hget
        exact ⟨fun hst => by simp [sessionResponse] at hst, fun _ => ⟨i, rfl, by rw [hid, hsame]⟩⟩
    | _ => cases hr
  | cancel digits =>
    obtain ⟨id, hid, hc⟩ := h
    cases res with
    | cancelled found =>
      cases found with
      | false =>
        intro _ id' hid' hasked
        obtain rfl := Option.some.inj (hid.symm.trans hid')
        exact hc rfl hasked
      | true =>
        obtain rfl := Option.some.inj hr
        exact fun hst => by simp at hst
    | _ => cases hr
  | list | health => cases h

/-- A handler that has an answer, without a step of the manager. -/
theorem GoesOn.of_answer {w : Work} (hidle : m.calls t = .idle)
    (hr : AnswerOk m asked m.gone r ep) (hnone : r.createdId = none) :
    GoesOn m t asked ep w m (.answer r) where
  advances := .inl rfl
  work := ⟨hidle, hr⟩
  pending := by
    intro id hid
    simp only [pendingOf, hnone, reduceCtorEq] at hid

/-- A handler that goes on without a step of the manager. -/
theorem GoesOn.of_work {w w' : Work} (hw : WorkOk m asked (m.calls t) ep w')
    (hnone : ∀ c, pendingOf c w' = none) : GoesOn m t asked ep w m w' where
  advances := .inl rfl
  work := hw
  pending := by
    intro id hid
    simp [hnone] at hid

/-- A handler that turns the request down by itself. -/
theorem GoesOn.of_error {w : Work} {text : String} (hidle : m.calls t = .idle)
    (hep : ep ≠ .list ∧ ep ≠ .health) :
    GoesOn m t asked ep w m (.answer (errorResponse 400 text)) := by
  have hnone : (errorResponse 400 text).createdId = none :=
    createdId_of_status (by simp [errorResponse])
  refine .of_answer hidle ?_ hnone
  cases ep with
  | create body =>
    intro id hid
    rw [hnone] at hid
    cases hid
  | session digits =>
    exact ⟨fun hst => by simp [errorResponse] at hst, fun hst => by simp [errorResponse] at hst⟩
  | cancel digits => exact fun hst => by simp [errorResponse] at hst
  | list => exact absurd rfl hep.1
  | health => exact absurd rfl hep.2

/-- The call of the manager that a handler starts. -/
theorem callManager_cases {before : ℕ} {method : SessionManager.Method} {w : Work}
    (hs : s.callManager t ep before method w = some s') :
    ∃ m', s' = s.goOn t ep before m' w ∧ s.manager.calls t = .idle ∧
      Moves s.manager (.call t method) m' ∧ m' = SessionManager.callStep s.manager t method := by
  obtain ⟨m', hnext, rfl⟩ := Option.map_eq_some_iff.mp hs
  obtain ⟨hidle, heq⟩ := Option.ite_none_right_eq_some.mp hnext
  exact ⟨m', rfl, hidle, SessionManager.moves_of_next hnext, (Option.some.inj heq).symm⟩

/-- The first step of a handler. -/
theorem begin_goesOn {before : ℕ} (hidle : s.manager.calls t = .idle)
    (hs : HttpServer.begin s t ep before = some s') :
    ∃ m' w', s' = s.goOn t ep before m' w' ∧
      GoesOn s.manager t asked ep .start m' w' := by
  cases ep with
  | create body =>
    simp only [HttpServer.begin] at hs
    split at hs
    · obtain rfl := Option.some.inj hs
      exact ⟨_, _, rfl, .of_error hidle (by simp)⟩
    · obtain rfl := Option.some.inj hs
      exact ⟨_, _, rfl, .of_error hidle (by simp)⟩
    · next req hreq =>
      obtain ⟨m', rfl, -, hmoves, rfl⟩ := callManager_cases hs
      refine ⟨_, _, rfl, .inr ⟨_, rfl, hmoves⟩, ⟨req, hreq, ?_⟩, ?_⟩
      · simp only [SessionManager.callStep]
        split
        · simp only [SessionManager.State.setCall, Function.update_self]
          trivial
        · next kind hkind =>
          simp only [SessionManager.State.setCall, Function.update_self]
          exact ⟨rfl, hkind⟩
      · intro id hid
        simp only [SessionManager.callStep] at hid
        split at hid <;> simp [pendingOf, SessionManager.State.setCall] at hid
  | session digits =>
    simp only [HttpServer.begin] at hs
    split at hs
    · obtain rfl := Option.some.inj hs
      exact ⟨_, _, rfl, .of_error hidle (by simp)⟩
    · next id hid =>
      obtain ⟨m', rfl, -, hmoves, rfl⟩ := callManager_cases hs
      refine ⟨_, _, rfl, .inr ⟨_, rfl, hmoves⟩, ⟨id, hid, ?_⟩, ?_⟩
      · simp only [SessionManager.callStep, SessionManager.State.setCall, Function.update_self]
        exact ⟨rfl, fun hc => by cases hc⟩
      · intro id' hid'
        simp [pendingOf, SessionManager.callStep, SessionManager.State.setCall] at hid'
  | cancel digits =>
    simp only [HttpServer.begin] at hs
    split at hs
    · obtain rfl := Option.some.inj hs
      exact ⟨_, _, rfl, .of_error hidle (by simp)⟩
    · next id hid =>
      obtain ⟨m', rfl, -, hmoves, rfl⟩ := callManager_cases hs
      refine ⟨_, _, rfl, .inr ⟨_, rfl, hmoves⟩, ⟨id, hid, ?_⟩, ?_⟩
      · simp only [SessionManager.callStep, SessionManager.State.setCall, Function.update_self]
        rfl
      · intro id' hid'
        simp [pendingOf, SessionManager.callStep, SessionManager.State.setCall] at hid'
  | list =>
    obtain rfl := Option.some.inj hs
    exact ⟨_, _, rfl, .of_work ⟨rfl, hidle, scanned_zero _ _⟩ fun _ => rfl⟩
  | health =>
    obtain rfl := Option.some.inj hs
    exact ⟨_, _, rfl, .of_work ⟨rfl, hidle, [], rfl, scanned_zero _ _⟩ fun _ => rfl⟩

/-- A step in the one function of the manager that a handler calls. -/
theorem inCall_goesOn {before : ℕ} (hi : SessionManager.Inv s.manager)
    (hasked : ∀ id ∈ asked, Known s.manager id) (hhandler : s.handlers t = .busy ep before .inCall)
    (hcall : InCall s.manager asked (s.manager.calls t) ep) (hs : handle s t = some s') :
    ∃ m' w', s' = s.goOn t ep before m' w' ∧ GoesOn s.manager t asked ep .inCall m' w' := by
  simp only [handle, hhandler] at hs
  split at hs
  · next res hres =>
    obtain ⟨resp, hresp, hs⟩ := Option.bind_eq_some_iff.mp hs
    obtain ⟨m', hnext, rfl⟩ := Option.map_eq_some_iff.mp hs
    have hmoves := SessionManager.moves_of_next hnext
    rw [hres] at hcall
    have hanswer := hcall.answer hresp
    have hafter : m'.calls t = .idle := by
      cases hmoves with
      | ret _ => simp [SessionManager.State.setCall]
    refine ⟨m', _, rfl, .inr ⟨_, rfl, hmoves⟩, ⟨hafter, ?_⟩, ?_⟩
    · exact hanswer.step hi hmoves fun id => SessionManager.gone_of_moves hmoves
    · intro id hid
      obtain rfl := createdId_respond hresp hid
      exact .inl (by simp [pendingOf, hres])
  · obtain ⟨m', hnext, rfl⟩ := Option.map_eq_some_iff.mp hs
    have hmoves := SessionManager.moves_of_next hnext
    refine ⟨m', _, rfl, .inr ⟨_, rfl, hmoves⟩, ?_, ?_⟩
    · cases hmoves with
      | thread hthread => exact hcall.thread hi hasked hthread
    · intro id hid
      have hreturned : m'.calls t = .returned (.created id) := by
        simp only [pendingOf] at hid
        split at hid
        · next id' hc =>
          rw [hc, Option.some.inj hid]
        · cases hid
      by_cases hbefore : s.manager.calls t = .returned (.created id)
      · exact .inl (by simp [pendingOf, hbefore])
      · exact .inr (SessionManager.created_of_returned hi hmoves hbefore hreturned)

/-- A step in `get_session` of an id that has been listed. -/
theorem inDescribe_goesOn {before : ℕ} {rest : List ℕ} {sessions : List SessionInfo}
    (hi : SessionManager.Inv s.manager) (hasked : ∀ id ∈ asked, Known s.manager id)
    (hhandler : s.handlers t = .busy .list before (.inDescribe rest sessions))
    (hwork : WorkOk s.manager asked (s.manager.calls t) .list (.inDescribe rest sessions))
    (hs : handle s t = some s') :
    ∃ m' w', s' = s.goOn t .list before m' w' ∧
      GoesOn s.manager t asked .list (.inDescribe rest sessions) m' w' := by
  obtain ⟨-, id, hgot, hcovers⟩ := hwork
  simp only [handle, hhandler] at hs
  obtain ⟨⟨m', res⟩, hget, rfl⟩ := Option.map_eq_some_iff.mp hs
  unfold Subscription.getStep at hget
  split at hget
  · next i hreturned =>
    obtain ⟨m₁, hnext, heq⟩ := Option.map_eq_some_iff.mp hget
    cases heq
    have hmoves := SessionManager.moves_of_next hnext
    have hafter : m'.calls t = .idle := by
      cases hmoves with
      | ret _ => simp [SessionManager.State.setCall]
    rw [hreturned] at hgot
    refine ⟨m', _, rfl, .inr ⟨_, rfl, hmoves⟩, ⟨rfl, hafter, ?_⟩, fun id' hid' => by cases hid'⟩
    cases i with
    | none =>
      have hleft := hcovers.leave_out fun hid => hgot.2 rfl hid
      simpa using hleft.step hi hmoves fun id => SessionManager.gone_of_moves hmoves
    | some i =>
      obtain rfl : i.id = id := hgot.1
      simpa using hcovers.step hi hmoves fun id => SessionManager.gone_of_moves hmoves
  · obtain ⟨m₁, hnext, heq⟩ := Option.map_eq_some_iff.mp hget
    cases heq
    have hmoves := SessionManager.moves_of_next hnext
    refine ⟨m', _, rfl, .inr ⟨_, rfl, hmoves⟩, ⟨rfl, id, ?_, ?_⟩, fun id' hid' => by cases hid'⟩
    · cases hmoves with
      | thread hthread => exact hgot.thread hi hasked hthread
    · exact hcovers.step hi hmoves fun id => SessionManager.gone_of_moves hmoves

/-- **Every step of a handler**: it sends its answer, or goes on. -/
theorem handle_cases {before : ℕ} {w : Work} (hi : SessionManager.Inv s.manager)
    (hasked : ∀ id ∈ asked, Known s.manager id) (hhandler : s.handlers t = .busy ep before w)
    (hwork : WorkOk s.manager asked (s.manager.calls t) ep w) (hs : handle s t = some s') :
    (∃ m' w', s' = s.goOn t ep before m' w' ∧ GoesOn s.manager t asked ep w m' w') ∨
    (∃ r, w = .answer r ∧ s' = { s with exchanges := s.exchanges ++
      [Exchange.mk ep r before s.manager.gone] }.setHandler t .idle) := by
  cases w with
  | start =>
    simp only [handle, hhandler] at hs
    exact .inl (begin_goesOn hwork hs)
  | inCall => exact .inl (inCall_goesOn hi hasked hhandler hwork hs)
  | keys j found =>
    obtain ⟨rfl, hidle, hscan⟩ := hwork
    simp only [handle, hhandler] at hs
    split at hs
    · obtain rfl := Option.some.inj hs
      exact .inl ⟨_, _, rfl, .of_work ⟨rfl, hidle, hscan.next hi hasked⟩ fun _ => rfl⟩
    · next hj =>
      obtain rfl := Option.some.inj hs
      exact .inl ⟨_, _, rfl, .of_work ⟨rfl, hidle, hscan.covers (not_lt.mp hj)⟩ fun _ => rfl⟩
  | describe rest sessions =>
    obtain ⟨rfl, hidle, hcovers⟩ := hwork
    cases rest with
    | nil =>
      simp only [handle, hhandler, Option.some.injEq] at hs
      subst hs
      rw [List.append_nil] at hcovers
      exact .inl ⟨_, _, rfl, .of_answer hidle ⟨sessions, rfl, hcovers⟩
        (createdId_of_status (by simp [listResponse]))⟩
    | cons id rest =>
      simp only [handle, hhandler] at hs
      obtain ⟨m', rfl, -, hmoves, rfl⟩ := callManager_cases hs
      refine .inl ⟨_, _, rfl, .inr ⟨_, rfl, hmoves⟩, ⟨rfl, id, ?_, ?_⟩,
        fun id' hid' => by cases hid'⟩
      · simp only [SessionManager.callStep, SessionManager.State.setCall, Function.update_self]
        exact ⟨rfl, fun hc => by cases hc⟩
      · exact hcovers.step hi hmoves fun id => SessionManager.gone_of_moves hmoves
  | inDescribe rest sessions =>
    obtain rfl := hwork.1
    exact .inl (inDescribe_goesOn hi hasked hhandler hwork hs)
  | count j total =>
    obtain ⟨rfl, hidle, found, hlen, hscan⟩ := hwork
    simp only [handle, hhandler] at hs
    split at hs
    · obtain rfl := Option.some.inj hs
      refine .inl ⟨_, _, rfl, .of_work ⟨rfl, hidle, _, ?_, hscan.next hi hasked⟩ fun _ => rfl⟩
      rw [List.length_append, hlen]
      rfl
    · next hj =>
      obtain rfl := Option.some.inj hs
      refine .inl ⟨_, _, rfl, .of_answer hidle ⟨found, by rw [hlen], hscan.covers (not_lt.mp hj)⟩
        (createdId_of_status (by simp [healthResponse]))⟩
  | answer r =>
    simp only [handle, hhandler, Option.some.injEq] at hs
    exact .inr ⟨r, rfl, hs.symm⟩

/-! ### The Invariant -/

/-- The id that thread `t` is about to give out. -/
def State.pending (s : State P) (t : ℕ) : Option ℕ :=
  match s.handlers t with
  | .idle => none
  | .busy _ _ w => pendingOf (s.manager.calls t) w

/-- The ids given out before a response was asked for. -/
def State.issuedBefore (s : State P) (before : ℕ) : List ℕ := issued (s.exchanges.take before)

/-- The invariant of the server. -/
structure Inv (s : State P) : Prop where
  manager : SessionManager.Inv s.manager
  nodup : (issued s.exchanges).Nodup
  created : ∀ id ∈ issued s.exchanges, id ∈ s.manager.created
  pending : ∀ t id, s.pending t = some id → id ∈ s.manager.created ∧ id ∉ issued s.exchanges
  distinct : ∀ t t' id, s.pending t = some id → s.pending t' = some id → t = t'
  handlers : ∀ t ep before w, s.handlers t = .busy ep before w →
    before ≤ s.exchanges.length ∧ WorkOk s.manager (s.issuedBefore before) (s.manager.calls t) ep w
  exchanges : ∀ e ∈ s.exchanges, e.before ≤ s.exchanges.length ∧
    AnswerOk s.manager (s.issuedBefore e.before) e.removed e.response e.endpoint ∧
    ∀ id ∈ e.removed, id ∈ s.manager.gone

theorem inv_initial : Inv (initial P) where
  manager := SessionManager.inv_initial
  nodup := List.nodup_nil
  created := fun _ hid => absurd hid List.not_mem_nil
  pending := fun _ _ hid => by cases hid
  distinct := fun _ _ _ hid => by cases hid
  handlers := fun _ _ _ _ h => by cases h
  exchanges := fun _ he => absurd he List.not_mem_nil

/-- What has been given out has been stored. -/
theorem Inv.known (hi : Inv s) {before : ℕ} : ∀ id ∈ s.issuedBefore before, Known s.manager id := by
  intro id hid
  have hissued : id ∈ issued s.exchanges :=
    ((List.take_sublist before s.exchanges).filterMap _).subset hid
  exact (hi.manager.ids.known id (hi.created id hissued)).2

theorem created_mono {m' : SessionManager.State P.toParams} {l : SessionManager.Label}
    (hs : Moves m l m') {id : ℕ} (hid : id ∈ m.created) : id ∈ m'.created := by
  obtain heq | ⟨_, _, -, -, heq, -⟩ := SessionManager.created_of_moves hs
  · rwa [heq]
  · rw [heq]
    exact List.mem_append_left _ hid

/-- Another thread or a task works on the manager. -/
theorem Inv.manager_step (hi : Inv s) {l : SessionManager.Label}
    {m' : SessionManager.State P.toParams} (hs : Moves s.manager l m')
    (hfree : ∀ t ep before w, s.handlers t = .busy ep before w → l.thread ≠ some t) :
    Inv { s with manager := m' } := by
  have hpending : ∀ t, State.pending { s with manager := m' } t = s.pending t := by
    intro t
    unfold State.pending
    cases hh : s.handlers t with
    | idle => rfl
    | busy ep before w =>
      exact congrArg (pendingOf · w) (SessionManager.calls_of_moves hs (hfree t ep before w hh))
  refine ⟨hi.manager.step hs, hi.nodup, fun id hid => created_mono hs (hi.created id hid), ?_, ?_,
    ?_, ?_⟩
  · intro t id hid
    rw [hpending] at hid
    exact ⟨created_mono hs (hi.pending t id hid).1, (hi.pending t id hid).2⟩
  · intro t t' id hid hid'
    rw [hpending] at hid hid'
    exact hi.distinct t t' id hid hid'
  · intro t ep before w hh
    obtain ⟨hle, hwork⟩ := hi.handlers t ep before w hh
    refine ⟨hle, ?_⟩
    show WorkOk m' (s.issuedBefore before) (m'.calls t) ep w
    rw [SessionManager.calls_of_moves hs (hfree t ep before w hh)]
    exact hwork.step hi.manager hs
  · intro e he
    obtain ⟨hle, hanswer, hgone⟩ := hi.exchanges e he
    exact ⟨hle, hanswer.step hi.manager hs fun _ h => h,
      fun id hid => SessionManager.gone_of_moves hs (hgone id hid)⟩

/-- The library gives a request to a worker. -/
theorem Inv.request (hi : Inv s) (hidle : s.manager.calls t = .idle) :
    Inv (s.setHandler t (.busy ep s.exchanges.length .start)) := by
  have hpending : ∀ t' id,
      (s.setHandler t (.busy ep s.exchanges.length .start)).pending t' = some id →
      s.pending t' = some id := by
    intro t' id hid
    by_cases ht : t' = t
    · subst ht
      simp [State.pending, State.setHandler, pendingOf] at hid
    · simpa [State.pending, State.setHandler, ht] using hid
  refine ⟨hi.manager, hi.nodup, hi.created, fun t' id hid => hi.pending t' id (hpending t' id hid),
    fun t₁ t₂ id h₁ h₂ => hi.distinct t₁ t₂ id (hpending t₁ id h₁) (hpending t₂ id h₂), ?_,
    hi.exchanges⟩
  intro t' ep' before w hh
  by_cases ht : t' = t
  · subst ht
    simp only [State.setHandler, Function.update_self, Handler.busy.injEq] at hh
    obtain ⟨rfl, rfl, rfl⟩ := hh
    exact ⟨le_rfl, hidle⟩
  · simp only [State.setHandler, Function.update_of_ne ht] at hh
    exact hi.handlers t' ep' before w hh

/-- What a step of thread `t` in the manager leaves to the others. -/
structure Leaves (m : SessionManager.State P.toParams) (t : ℕ)
    (m' : SessionManager.State P.toParams) : Prop where
  manager : SessionManager.Inv m'
  created : ∀ id ∈ m.created, id ∈ m'.created
  gone : ∀ id ∈ m.gone, id ∈ m'.gone
  calls : ∀ t', t' ≠ t → m'.calls t' = m.calls t'
  work : ∀ asked c ep w, WorkOk m asked c ep w → WorkOk m' asked c ep w
  answer : ∀ asked removed r ep, AnswerOk m asked removed r ep → AnswerOk m' asked removed r ep

theorem Advances.leaves {m' : SessionManager.State P.toParams} (hi : SessionManager.Inv m)
    (h : Advances m t m') : Leaves m t m' := by
  obtain rfl | ⟨l, hl, hs⟩ := h
  · exact ⟨hi, fun _ h => h, fun _ h => h, fun _ _ => rfl, fun _ _ _ _ h => h, fun _ _ _ _ h => h⟩
  · refine ⟨hi.step hs, fun id hid => created_mono hs hid,
      fun id hid => SessionManager.gone_of_moves hs hid, ?_, fun _ _ _ _ h => h.step hi hs,
      fun _ _ _ _ h => h.step hi hs fun _ h => h⟩
    intro t' ht
    refine SessionManager.calls_of_moves hs ?_
    rw [hl, ne_eq, Option.some.injEq]
    exact Ne.symm ht

/-- A handler goes on. -/
theorem Inv.goesOn (hi : Inv s) {before : ℕ} {w w' : Work}
    {m' : SessionManager.State P.toParams} (hhandler : s.handlers t = .busy ep before w)
    (hg : GoesOn s.manager t (s.issuedBefore before) ep w m' w') :
    Inv (s.goOn t ep before m' w') := by
  have hleaves := hg.advances.leaves hi.manager
  have hother : ∀ t', t' ≠ t → (s.goOn t ep before m' w').pending t' = s.pending t' := by
    intro t' ht
    unfold State.pending State.goOn State.setHandler
    simp only [Function.update_of_ne ht]
    cases s.handlers t' with
    | idle => rfl
    | busy ep' b w₁ => exact congrArg (pendingOf · w₁) (hleaves.calls t' ht)
  -- an id that is given out next was given out by the manager just now
  have hmine : ∀ id, (s.goOn t ep before m' w').pending t = some id →
      s.pending t = some id ∨ (id ∉ s.manager.created ∧ id ∈ m'.created) := by
    intro id hid
    simp only [State.pending, State.goOn, State.setHandler, Function.update_self] at hid
    simp only [State.pending, hhandler]
    exact hg.pending id hid
  refine ⟨hleaves.manager, hi.nodup, fun id hid => hleaves.created id (hi.created id hid), ?_, ?_,
    ?_, ?_⟩
  · intro t' id hid
    by_cases ht : t' = t
    · subst ht
      obtain hold | ⟨hfresh, hnew⟩ := hmine id hid
      · exact ⟨hleaves.created id (hi.pending t' id hold).1, (hi.pending t' id hold).2⟩
      · exact ⟨hnew, fun hin => hfresh (hi.created id hin)⟩
    · rw [hother t' ht] at hid
      exact ⟨hleaves.created id (hi.pending t' id hid).1, (hi.pending t' id hid).2⟩
  · have hapart : ∀ t' id, t' ≠ t → (s.goOn t ep before m' w').pending t = some id →
        s.pending t' = some id → False := by
      intro t' id ht hid hid'
      obtain hold | ⟨hfresh, -⟩ := hmine id hid
      · exact ht (hi.distinct t' t id hid' hold)
      · exact hfresh (hi.pending t' id hid').1
    intro t₁ t₂ id h₁ h₂
    by_cases ht₁ : t₁ = t
    · by_cases ht₂ : t₂ = t
      · rw [ht₁, ht₂]
      · rw [hother t₂ ht₂] at h₂
        subst ht₁
        exact (hapart t₂ id ht₂ h₁ h₂).elim
    · rw [hother t₁ ht₁] at h₁
      by_cases ht₂ : t₂ = t
      · subst ht₂
        exact (hapart t₁ id ht₁ h₂ h₁).elim
      · rw [hother t₂ ht₂] at h₂
        exact hi.distinct t₁ t₂ id h₁ h₂
  · intro t' ep' b w₁ hh
    by_cases ht : t' = t
    · subst ht
      simp only [State.goOn, State.setHandler, Function.update_self, Handler.busy.injEq] at hh
      obtain ⟨rfl, rfl, rfl⟩ := hh
      exact ⟨(hi.handlers t' _ _ _ hhandler).1, hg.work⟩
    · simp only [State.goOn, State.setHandler, Function.update_of_ne ht] at hh
      obtain ⟨hle, hwork⟩ := hi.handlers t' ep' b w₁ hh
      refine ⟨hle, ?_⟩
      show WorkOk m' (s.issuedBefore b) (m'.calls t') ep' w₁
      rw [hleaves.calls t' ht]
      exact hleaves.work _ _ _ _ hwork
  · intro e he
    obtain ⟨hle, hanswer, hgone⟩ := hi.exchanges e he
    exact ⟨hle, hleaves.answer _ _ _ _ hanswer, fun id hid => hleaves.gone id (hgone id hid)⟩

/-- A handler sends its answer. -/
theorem Inv.answer (hi : Inv s) {before : ℕ}
    (hhandler : s.handlers t = .busy ep before (.answer r)) :
    Inv ({ s with exchanges := s.exchanges ++
      [Exchange.mk ep r before s.manager.gone] }.setHandler t .idle) := by
  obtain ⟨hbefore, hidle, hanswer⟩ := hi.handlers t ep before _ hhandler
  have hmine : s.pending t = r.createdId := by simp [State.pending, hhandler, pendingOf]
  have hother : ∀ t', State.pending ({ s with exchanges := s.exchanges ++
      [Exchange.mk ep r before s.manager.gone] }.setHandler t .idle) t' =
        if t' = t then none else s.pending t' := by
    intro t'
    by_cases ht : t' = t
    · subst ht
      simp [State.pending, State.setHandler]
    · simp [State.pending, State.setHandler, ht]
  have hissued : issued (s.exchanges ++ [Exchange.mk ep r before s.manager.gone]) =
      issued s.exchanges ++ r.createdId.toList := by
    simp only [issued, List.filterMap_append, List.filterMap_cons, List.filterMap_nil]
    cases r.createdId <;> rfl
  -- the responses before a request are those that there were
  have hearlier : ∀ b, b ≤ s.exchanges.length →
      issued ((s.exchanges ++ [Exchange.mk ep r before s.manager.gone]).take b) =
        s.issuedBefore b := by
    intro b hb
    rw [List.take_append_of_le_length hb]
    rfl
  refine ⟨hi.manager, ?_, ?_, ?_, ?_, ?_, ?_⟩
  · show (issued (s.exchanges ++ [Exchange.mk ep r before s.manager.gone])).Nodup
    rw [hissued]
    cases hid : r.createdId with
    | none => simpa using hi.nodup
    | some id =>
      refine List.nodup_append.mpr ⟨hi.nodup, List.nodup_singleton _, ?_⟩
      rintro id' hid' id'' hid'' rfl
      rw [Option.toList_some, List.mem_singleton] at hid''
      subst hid''
      exact (hi.pending t id' (by rw [hmine, hid])).2 hid'
  · intro id hid
    change id ∈ issued (s.exchanges ++ [Exchange.mk ep r before s.manager.gone]) at hid
    rw [hissued] at hid
    obtain hold | hnew := List.mem_append.mp hid
    · exact hi.created id hold
    · rw [Option.mem_toList] at hnew
      exact (hi.pending t id (by rw [hmine]; exact hnew)).1
  · intro t' id hid
    rw [hother] at hid
    obtain ⟨ht, hid⟩ := Option.ite_none_left_eq_some.mp hid
    refine ⟨(hi.pending t' id hid).1, ?_⟩
    show id ∉ issued (s.exchanges ++ [Exchange.mk ep r before s.manager.gone])
    rw [hissued]
    intro hin
    obtain hold | hnew := List.mem_append.mp hin
    · exact (hi.pending t' id hid).2 hold
    · rw [Option.mem_toList] at hnew
      exact ht (hi.distinct t' t id hid (by rw [hmine]; exact hnew))
  · intro t₁ t₂ id h₁ h₂
    rw [hother] at h₁ h₂
    exact hi.distinct t₁ t₂ id (Option.ite_none_left_eq_some.mp h₁).2
      (Option.ite_none_left_eq_some.mp h₂).2
  · intro t' ep' b w hh
    by_cases ht : t' = t
    · subst ht
      simp [State.setHandler] at hh
    · simp only [State.setHandler, Function.update_of_ne ht] at hh
      obtain ⟨hle, hwork⟩ := hi.handlers t' ep' b w hh
      refine ⟨hle.trans (by simp [State.setHandler]), ?_⟩
      show WorkOk s.manager (issued ((s.exchanges ++
        [Exchange.mk ep r before s.manager.gone]).take b)) (s.manager.calls t') ep' w
      rwa [hearlier b hle]
  · intro e he
    obtain hold | hnew := List.mem_append.mp he
    · obtain ⟨hle, hok, hgone⟩ := hi.exchanges e hold
      refine ⟨hle.trans (by simp [State.setHandler]), ?_, hgone⟩
      show AnswerOk s.manager (issued ((s.exchanges ++
        [Exchange.mk ep r before s.manager.gone]).take e.before)) _ _ _
      rwa [hearlier _ hle]
    · obtain rfl := List.mem_singleton.mp hnew
      refine ⟨hbefore.trans (by simp [State.setHandler]), ?_, fun _ hid => hid⟩
      show AnswerOk s.manager (issued ((s.exchanges ++
        [Exchange.mk ep r before s.manager.gone]).take before)) _ _ _
      rwa [hearlier _ hbefore]

/-- **Every step keeps the invariant.** -/
theorem Inv.step (hi : Inv s) {l : Label} (hs : next s l = some s') : Inv s' := by
  cases l with
  | manager l =>
    simp only [next] at hs
    split at hs
    · cases hs
    · next hfree =>
      obtain ⟨m', hm, rfl⟩ := Option.map_eq_some_iff.mp hs
      refine hi.manager_step (SessionManager.moves_of_next hm) ?_
      intro t ep before w hh hl
      exact hfree ep before w (by rw [hl, Option.map_some, hh])
  | request t ep =>
    simp only [next] at hs
    split at hs
    · obtain ⟨hidle, heq⟩ := Option.ite_none_right_eq_some.mp hs
      obtain rfl := Option.some.inj heq
      exact hi.request hidle
    · cases hs
  | handle t =>
    have hs' : handle s t = some s' := hs
    cases hh : s.handlers t with
    | idle => simp [handle, hh] at hs'
    | busy ep before w =>
      obtain ⟨-, hwork⟩ := hi.handlers t ep before w hh
      obtain ⟨m', w', rfl, hg⟩ | ⟨r, rfl, rfl⟩ :=
        handle_cases hi.manager hi.known hh hwork hs'
      · exact hi.goesOn hh hg
      · exact hi.answer hh

theorem inv_run {tr : List Label} (hrun : (system P).Run tr s) : Inv s := by
  apply hrun.invariant (P := Inv)
  · rintro s rfl
    exact inv_initial
  · intro s l s' hi hs
    exact hi.step hs

end HttpServer

end Forge
