import Forge.Session.SessionManager

/-! # Session Manager — What Holds in Every Run

  - `Moves`: what one step can do, one constructor per way;
  - `ObjectOk`, `ObjectGrows`: a session object by itself, and how it
    changes while the manager and its task work on it;
  - `Ids`: who owns an id, from the counter to the map and the list of
    ids handed out;
  - `CallOk`: what a thread has seen so far is still so.
-/

namespace Forge

open LTS

namespace SessionManager

variable {P : Params} {s s' : State P} {t : ℕ}

/-! ### What a Step Can Do -/

/-- A step of thread `t` in its call. -/
inductive ThreadMoves (s : State P) (t : ℕ) : State P → Prop where
  | fetchId {req kind} : s.calls t = .fetchId req kind →
      ThreadMoves s t ({ s with nextId := s.nextId + 1 }.setCall t (.construct req kind s.nextId))
  | construct {req kind id} : s.calls t = .construct req kind id →
      ThreadMoves s t ((s.setObject id ⟨kind, .queued (req.newSession id s.clock), false⟩).setCall t
        (.scan id 0 0))
  | scan {id j total} : s.calls t = .scan id j total → j < numStripes →
      ThreadMoves s t (s.setCall t (.scan id (j + 1) (total + s.sessions.sizeAt j)))
  | atCapacity {id j total text} : s.calls t = .scan id j total →
      ThreadMoves s t (s.setCall t (.returned (.refused text)))
  | underCapacity {id j total} : s.calls t = .scan id j total → numStripes ≤ j →
      total < P.maxSessions → ThreadMoves s t (s.setCall t (.insert id))
  | insert {id} : s.calls t = .insert id →
      ThreadMoves s t ({ s with sessions := s.sessions.set id id }.setCall t (.submit id))
  | submit {id o} : s.calls t = .submit id → s.objects id = some o →
      ThreadMoves s t ((s.setObject id { o with dispatched := true }).setCall t (.track id))
  | track {id} : s.calls t = .track id →
      ThreadMoves s t ({ s with
        inflight := s.inflight.filter (fun p => !s.ready p) ++ [id]
        created := s.created ++ [id] }.setCall t (.returned (.created id)))
  | lookup {id p} : s.calls t = .lookup id → s.sessions.find id = some p →
      ThreadMoves s t (s.setCall t (.readState p))
  | notFound {id} : s.calls t = .lookup id → s.sessions.find id = none →
      ThreadMoves s t (s.setCall t (.returned (.info none)))
  | readState {p o} : s.calls t = .readState p → s.objects p = some o →
      ThreadMoves s t (s.setCall t (.readStepCount p o.session.state))
  | readStepCount {p st o} : s.calls t = .readStepCount p st → s.objects p = some o →
      ThreadMoves s t (s.setCall t (.readAnswer p st o.session.stepCount))
  | readAnswer {p st n o} : s.calls t = .readAnswer p st n → s.objects p = some o →
      ThreadMoves s t (s.setCall t (.readError p st n o.session.finalAnswer))
  | readError {p st n answer o} : s.calls t = .readError p st n answer → s.objects p = some o →
      ThreadMoves s t (s.setCall t
        (.returned (.info (some ⟨o.session.id, st, n, answer, o.session.error⟩))))
  | mutate {id p o} : s.calls t = .mutate id → s.sessions.find id = some p →
      s.objects p = some o →
      ThreadMoves s t ((s.setObject p
        { o with task := o.task.mapSession SessionTask.cancelRequest }).setCall t
        (.returned (.cancelled true)))
  | nothingToMutate {id} : s.calls t = .mutate id → s.sessions.find id = none →
      ThreadMoves s t (s.setCall t (.returned (.cancelled false)))
  | keys {now maxAge j found} : s.calls t = .keys now maxAge j found → j < numStripes →
      ThreadMoves s t (s.setCall t (.keys now maxAge (j + 1) (found ++ s.sessions.keysAt j)))
  | keysDone {now maxAge j found} : s.calls t = .keys now maxAge j found → numStripes ≤ j →
      ThreadMoves s t (s.setCall t (.inspect now maxAge found 0))
  | gcDone {now maxAge reaped} : s.calls t = .inspect now maxAge [] reaped →
      ThreadMoves s t (s.setCall t (.returned (.reaped reaped)))
  | gone {now maxAge id rest reaped} : s.calls t = .inspect now maxAge (id :: rest) reaped →
      s.sessions.find id = none → ThreadMoves s t (s.setCall t (.inspect now maxAge rest reaped))
  | notDue {now maxAge id rest reaped p o} :
      s.calls t = .inspect now maxAge (id :: rest) reaped → s.sessions.find id = some p →
      s.objects p = some o → due now maxAge o.session = false →
      ThreadMoves s t (s.setCall t (.inspect now maxAge rest reaped))
  | due {now maxAge id rest reaped p o} :
      s.calls t = .inspect now maxAge (id :: rest) reaped → s.sessions.find id = some p →
      s.objects p = some o → due now maxAge o.session = true →
      ThreadMoves s t (s.setCall t (.erase now maxAge id rest reaped))
  | erase {now maxAge id rest reaped p o} : s.calls t = .erase now maxAge id rest reaped →
      s.sessions.find id = some p → s.objects p = some o →
      ThreadMoves s t ({ s with
        sessions := s.sessions.erase id
        removed := s.removed ++ [Removal.mk id o.session s.clock maxAge] }.setCall t
        (.inspect now maxAge rest (reaped + 1)))
  | eraseNothing {now maxAge id rest reaped} : s.calls t = .erase now maxAge id rest reaped →
      (s.sessions.find id).bind s.objects = none →
      ThreadMoves s t ({ s with sessions := s.sessions.erase id }.setCall t
        (.inspect now maxAge rest (reaped + 1)))

/-- The inversion of the steps of a thread. -/
theorem threadMoves_of_step (hs : threadStep s t = some s') : ThreadMoves s t s' := by
  unfold threadStep at hs
  cases hcall : s.calls t <;> rw [hcall] at hs <;>
    simp only [Option.some.injEq, reduceCtorEq, Option.map_eq_some_iff] at hs
  case scan id j total =>
    split at hs
    · next hlt =>
      cases hs
      exact .scan hcall hlt
    · next hge =>
      split at hs
      · cases hs
        exact .atCapacity hcall
      · next hcap =>
        cases hs
        exact .underCapacity hcall (by omega) (by omega)
  case submit id =>
    split at hs
    · next o ho =>
      cases hs
      exact .submit hcall ho
    · cases hs
  case lookup id =>
    split at hs
    · next p hp =>
      cases hs
      exact .lookup hcall hp
    · next hp =>
      cases hs
      exact .notFound hcall hp
  case readState p =>
    obtain ⟨o, ho, rfl⟩ := hs
    exact .readState hcall ho
  case readStepCount p st =>
    obtain ⟨o, ho, rfl⟩ := hs
    exact .readStepCount hcall ho
  case readAnswer p st n =>
    obtain ⟨o, ho, rfl⟩ := hs
    exact .readAnswer hcall ho
  case readError p st n answer =>
    obtain ⟨o, ho, rfl⟩ := hs
    exact .readError hcall ho
  case mutate id =>
    split at hs
    · next p hp =>
      obtain ⟨o, ho, rfl⟩ := Option.map_eq_some_iff.mp hs
      exact .mutate hcall hp ho
    · next hp =>
      cases hs
      exact .nothingToMutate hcall hp
  case keys now maxAge j found =>
    split at hs <;> cases hs
    · next hlt => exact .keys hcall hlt
    · next hge => exact .keysDone hcall (by omega)
  case inspect now maxAge rest reaped =>
    cases rest with
    | nil =>
      cases hs
      exact .gcDone hcall
    | cons id rest =>
      simp only at hs
      split at hs
      · next p hp =>
        obtain ⟨o, ho, rfl⟩ := Option.map_eq_some_iff.mp hs
        by_cases hdue : due now maxAge o.session
        · simpa [hdue] using ThreadMoves.due hcall hp ho hdue
        · simpa [hdue] using ThreadMoves.notDue hcall hp ho (by simpa using hdue)
      · next hp =>
        cases hs
        exact .gone hcall hp
  case erase now maxAge id rest reaped =>
    subst hs
    split
    · next o ho =>
      obtain ⟨p, hp, hobj⟩ := Option.bind_eq_some_iff.mp ho
      exact .erase hcall hp hobj
    · next hnone => simpa using ThreadMoves.eraseNothing hcall hnone
  case fetchId req kind =>
    subst hs
    exact .fetchId hcall
  case construct req kind id =>
    subst hs
    exact .construct hcall
  case insert id =>
    subst hs
    exact .insert hcall
  case track id =>
    subst hs
    exact .track hcall

/-! ### Who Owns an Id -/

/-- The id a `create_session` call has drawn. -/
def Call.owned : Call → Option ℕ
  | .construct _ _ id | .scan id _ _ | .insert id | .submit id | .track id => some id
  | _ => none

/-- The id is in the map, or was. -/
def Known (s : State P) (id : ℕ) : Prop :=
  s.sessions.find id = some id ∨ id ∈ s.removed.map Removal.id

/-- What a `create_session` call knows of its id. -/
def CreateOk (s : State P) : Call → Prop
  | .construct _ _ id =>
      id < s.nextId ∧ id ∉ s.created ∧ s.sessions.find id = none ∧ s.objects id = none
  | .scan id _ _ | .insert id =>
      id < s.nextId ∧ id ∉ s.created ∧ s.sessions.find id = none ∧ (s.objects id).isSome
  | .submit id | .track id => id < s.nextId ∧ id ∉ s.created ∧ Known s id
  | _ => True

/-- Every id drawn belongs to one call, then to the map. -/
structure Ids (s : State P) : Prop where
  calls : ∀ t, CreateOk s (s.calls t)
  distinct : ∀ t t' id, (s.calls t).owned = some id → (s.calls t').owned = some id → t = t'
  entries : ∀ id p, s.sessions.find id = some p →
    p = id ∧ id < s.nextId ∧ (s.objects id).isSome
  objects : ∀ p, s.nextId ≤ p → s.objects p = none
  created : s.created.Nodup
  known : ∀ id ∈ s.created, id < s.nextId ∧ Known s id

/-- A step that leaves `id` to the call that owns it. -/
structure Keeps (s s' : State P) (id : ℕ) : Prop where
  nextId : s.nextId ≤ s'.nextId
  unfound : s.sessions.find id = none → s'.sessions.find id = none
  known : Known s id → Known s' id
  object : (s'.objects id).isSome = (s.objects id).isSome
  created : id ∈ s'.created → id ∈ s.created

theorem CreateOk.keeps {c : Call} (hc : CreateOk s c)
    (hk : ∀ id, c.owned = some id → Keeps s s' id) : CreateOk s' c := by
  cases c
  case construct req kind id =>
    obtain ⟨hlt, hcreated, hfind, hobj⟩ := hc
    have hid := hk id rfl
    refine ⟨hlt.trans_le hid.nextId, fun hmem => hcreated (hid.created hmem), hid.unfound hfind, ?_⟩
    have hsome := hid.object
    rw [hobj] at hsome
    simpa using hsome
  case scan id _ _ | insert id =>
    obtain ⟨hlt, hcreated, hfind, hobj⟩ := hc
    have hid := hk id rfl
    exact ⟨hlt.trans_le hid.nextId, fun hmem => hcreated (hid.created hmem), hid.unfound hfind,
      hid.object.trans hobj⟩
  case submit id | track id =>
    obtain ⟨hlt, hcreated, hknown⟩ := hc
    have hid := hk id rfl
    exact ⟨hlt.trans_le hid.nextId, fun hmem => hcreated (hid.created hmem), hid.known hknown⟩
  all_goals trivial

theorem ids_initial : Ids (initial P) where
  calls := fun _ => trivial
  distinct := by
    intro t t' id h
    cases h
  entries := by
    intro id p hfind
    rw [show (initial P).sessions.find id = none from rfl] at hfind
    cases hfind
  objects := fun _ _ => rfl
  created := List.nodup_nil
  known := by
    intro id hid
    cases hid

/-- The assembly: thread `t` goes on to `c`, the other calls keep their
    ids, and the map and the lists are right. -/
theorem Ids.assemble (hi : Ids s) {c : Call} (hcalls : s'.calls = Function.update s.calls t c)
    (hothers : ∀ t', t' ≠ t → ∀ id, (s.calls t').owned = some id →
      c.owned ≠ some id ∧ Keeps s s' id)
    (hc : CreateOk s' c)
    (hentries : ∀ id p, s'.sessions.find id = some p →
      p = id ∧ id < s'.nextId ∧ (s'.objects id).isSome)
    (hobjects : ∀ p, s'.nextId ≤ p → s'.objects p = none)
    (hcreated : s'.created.Nodup)
    (hknown : ∀ id ∈ s'.created, id < s'.nextId ∧ Known s' id) : Ids s' where
  calls := by
    intro t'
    rw [hcalls]
    by_cases ht : t' = t
    · rw [ht, Function.update_self]
      exact hc
    · rw [Function.update_of_ne ht]
      exact (hi.calls t').keeps fun id hid => (hothers t' ht id hid).2
  distinct := by
    intro t₁ t₂ id h₁ h₂
    rw [hcalls] at h₁ h₂
    by_cases ht₁ : t₁ = t
    · by_cases ht₂ : t₂ = t
      · rw [ht₁, ht₂]
      · rw [ht₁, Function.update_self] at h₁
        rw [Function.update_of_ne ht₂] at h₂
        exact absurd h₁ (hothers t₂ ht₂ id h₂).1
    · rw [Function.update_of_ne ht₁] at h₁
      by_cases ht₂ : t₂ = t
      · rw [ht₂, Function.update_self] at h₂
        exact absurd h₂ (hothers t₁ ht₁ id h₁).1
      · rw [Function.update_of_ne ht₂] at h₂
        exact hi.distinct t₁ t₂ id h₁ h₂
  entries := hentries
  objects := hobjects
  created := hcreated
  known := hknown

/-- The id of another call is another id. -/
theorem Ids.other (hi : Ids s) {t' id id' : ℕ} (hmine : (s.calls t).owned = some id) (ht : t' ≠ t)
    (hother : (s.calls t').owned = some id') : id' ≠ id := by
  intro heq
  subst heq
  exact ht (hi.distinct t' t id' hother hmine)

/-- A step of thread `t` that touches no id. -/
theorem Ids.setCall (hi : Ids s) {c : Call} (hc : CreateOk s c)
    (howned : ∀ id, c.owned = some id → (s.calls t).owned = some id) : Ids (s.setCall t c) := by
  refine hi.assemble rfl ?_ hc hi.entries hi.objects hi.created hi.known
  intro t' ht id hid
  refine ⟨?_, ⟨le_rfl, fun h => h, fun h => h, rfl, fun h => h⟩⟩
  intro hmine
  exact ht (hi.distinct t' t id hid (howned id hmine))

/-- An object that exists is written to. -/
theorem Ids.setObject (hi : Ids s) {p : ℕ} {o o' : Object} (ho : s.objects p = some o) :
    Ids (s.setObject p o') := by
  have hsome : ∀ id, ((s.setObject p o').objects id).isSome = (s.objects id).isSome := by
    intro id
    by_cases hid : id = p
    · simp [State.setObject, hid, ho]
    · simp [State.setObject, Function.update_of_ne hid]
  refine ⟨?_, hi.distinct, ?_, ?_, hi.created, hi.known⟩
  · intro t
    exact (hi.calls t).keeps fun id _ => ⟨le_rfl, fun h => h, fun h => h, hsome id, fun h => h⟩
  · intro id p' hfind
    obtain ⟨heq, hlt, hobj⟩ := hi.entries id p' hfind
    exact ⟨heq, hlt, (hsome id).trans hobj⟩
  · intro p' hp'
    have hnone := hi.objects p' hp'
    have hne : p' ≠ p := by
      intro heq
      rw [heq, ho] at hnone
      cases hnone
    simpa [State.setObject, Function.update_of_ne hne] using hnone

/-- A new id is above all ids drawn before. -/
theorem Ids.fetchId (hi : Ids s) {req : CreateSessionRequest} {kind : WorkflowKind} :
    Ids ({ s with nextId := s.nextId + 1 }.setCall t (.construct req kind s.nextId)) := by
  have hnone : s.sessions.find s.nextId = none := by
    cases hfind : s.sessions.find s.nextId with
    | none => rfl
    | some p => exact absurd (hi.entries _ p hfind).2.1 (lt_irrefl _)
  refine hi.assemble rfl ?_ ⟨Nat.lt_succ_self _, ?_, hnone, hi.objects _ le_rfl⟩ ?_ ?_ hi.created ?_
  · intro t' ht id hid
    refine ⟨?_, ⟨Nat.le_succ _, fun h => h, fun h => h, rfl, fun h => h⟩⟩
    have hlt : id < s.nextId := by
      have hok := hi.calls t'
      cases hcall : s.calls t' <;> rw [hcall] at hok hid <;> cases hid <;> exact hok.1
    intro heq
    simp only [Call.owned, Option.some.injEq] at heq
    omega
  · intro hmem
    exact absurd (hi.known _ hmem).1 (lt_irrefl _)
  · intro id p hfind
    obtain ⟨heq, hlt, hobj⟩ := hi.entries id p hfind
    exact ⟨heq, Nat.lt_succ_of_lt hlt, hobj⟩
  · intro p hp
    exact hi.objects p (by simp only [State.setCall] at hp; omega)
  · intro id hmem
    obtain ⟨hlt, hknown⟩ := hi.known id hmem
    exact ⟨Nat.lt_succ_of_lt hlt, hknown⟩

/-- The object of an id that only this call knows. -/
theorem Ids.construct (hi : Ids s) {req : CreateSessionRequest} {kind : WorkflowKind} {id : ℕ}
    {o : Object} (hcall : s.calls t = .construct req kind id) :
    Ids ((s.setObject id o).setCall t (.scan id 0 0)) := by
  have hok := hi.calls t
  rw [hcall] at hok
  obtain ⟨hlt, hcreated, hfind, hobj⟩ := hok
  have hother : ∀ id', id' ≠ id → ((s.setObject id o).objects id') = s.objects id' := by
    intro id' hne
    simp [State.setObject, Function.update_of_ne hne]
  refine hi.assemble rfl ?_ ⟨hlt, hcreated, hfind, by simp [State.setCall, State.setObject]⟩ ?_ ?_
    hi.created hi.known
  · intro t' ht id' hid'
    have hne : id' ≠ id := hi.other (by rw [hcall]; rfl) ht hid'
    refine ⟨?_, ⟨le_rfl, fun h => h, fun h => h, congrArg Option.isSome (hother id' hne),
      fun h => h⟩⟩
    intro heq
    simp only [Call.owned, Option.some.injEq] at heq
    exact hne heq.symm
  · intro id' p hfind'
    obtain ⟨heq, hlt', hobj'⟩ := hi.entries id' p hfind'
    have hne : id' ≠ id := by
      intro heq'
      subst heq'
      rw [show s.sessions.find id' = some p from hfind'] at hfind
      cases hfind
    exact ⟨heq, hlt', (congrArg Option.isSome (hother id' hne)).trans hobj'⟩
  · intro p hp
    have hne : p ≠ id := by
      intro heq
      subst heq
      exact absurd hlt (Nat.not_lt.mpr hp)
    exact (hother p hne).trans (hi.objects p hp)

/-- The entry of an id that only this call knows. -/
theorem Ids.insert (hi : Ids s) {id : ℕ} (hcall : s.calls t = .insert id) :
    Ids ({ s with sessions := s.sessions.set id id }.setCall t (.submit id)) := by
  have hok := hi.calls t
  rw [hcall] at hok
  obtain ⟨hlt, hcreated, hfind, hobj⟩ := hok
  have hknown : ∀ id', Known s id' →
      Known ({ s with sessions := s.sessions.set id id }.setCall t (.submit id)) id' := by
    intro id' h
    by_cases hne : id' = id
    · subst hne
      exact .inl ConcurrentMap.find_set_self
    · exact h.imp (fun h => (ConcurrentMap.find_set_of_ne hne).trans h) fun h => h
  refine hi.assemble rfl ?_ ⟨hlt, hcreated, .inl ConcurrentMap.find_set_self⟩ ?_ hi.objects
    hi.created ?_
  · intro t' ht id' hid'
    have hne : id' ≠ id := hi.other (by rw [hcall]; rfl) ht hid'
    refine ⟨?_, ⟨le_rfl, fun h => (ConcurrentMap.find_set_of_ne hne).trans h, hknown id', rfl,
      fun h => h⟩⟩
    intro heq
    simp only [Call.owned, Option.some.injEq] at heq
    exact hne heq.symm
  · intro id' p hfind'
    have hfind'' : (s.sessions.set id id).find id' = some p := hfind'
    by_cases hne : id' = id
    · subst hne
      rw [ConcurrentMap.find_set_self, Option.some.injEq] at hfind''
      exact ⟨hfind''.symm, hlt, hobj⟩
    · rw [ConcurrentMap.find_set_of_ne hne] at hfind''
      exact hi.entries id' p hfind''
  · intro id' hmem
    obtain ⟨hlt', hk⟩ := hi.known id' hmem
    exact ⟨hlt', hknown id' hk⟩

/-- The id goes from the call to the list of ids handed out. -/
theorem Ids.track (hi : Ids s) {id : ℕ} {inflight : List ℕ} (hcall : s.calls t = .track id) :
    Ids ({ s with inflight := inflight, created := s.created ++ [id] }.setCall t
      (.returned (.created id))) := by
  have hok := hi.calls t
  rw [hcall] at hok
  obtain ⟨hlt, hcreated, hknown⟩ := hok
  refine hi.assemble rfl ?_ trivial hi.entries hi.objects ?_ ?_
  · intro t' ht id' hid'
    have hne : id' ≠ id := hi.other (by rw [hcall]; rfl) ht hid'
    refine ⟨by simp [Call.owned], ⟨le_rfl, fun h => h, fun h => h, rfl, ?_⟩⟩
    intro hmem
    simpa [State.setCall, hne] using hmem
  · show (s.created ++ [id]).Nodup
    rw [List.nodup_append]
    refine ⟨hi.created, by simp, ?_⟩
    intro a ha b hb
    rw [List.mem_singleton.mp hb]
    intro heq
    exact hcreated (heq ▸ ha)
  · intro id' hmem
    rcases List.mem_append.mp hmem with hmem | hmem
    · exact hi.known id' hmem
    · rw [List.mem_singleton.mp hmem]
      exact ⟨hlt, hknown⟩

/-- An entry that goes is recorded. -/
theorem Ids.erase (hi : Ids s) {id : ℕ} {c : Call} {erased : List Removal} (hc : c.owned = none)
    (hcreate : ∀ s : State P, CreateOk s c)
    (hrecord : (s.sessions.find id).isSome → id ∈ erased.map Removal.id) :
    Ids ({ s with
      sessions := s.sessions.erase id, removed := s.removed ++ erased }.setCall t c) := by
  have hknown : ∀ id', Known s id' →
      Known ({ s with sessions := s.sessions.erase id, removed := s.removed ++ erased }.setCall t c)
        id' := by
    intro id' h
    show (s.sessions.erase id).find id' = some id' ∨ id' ∈ (s.removed ++ erased).map Removal.id
    rw [List.map_append, List.mem_append]
    rcases h with h | h
    · by_cases hne : id' = id
      · subst hne
        exact .inr (.inr (hrecord (by rw [h]; rfl)))
      · exact .inl ((ConcurrentMap.find_erase_of_ne hne).trans h)
    · exact .inr (.inl h)
  refine hi.assemble rfl ?_ (hcreate _) ?_ hi.objects hi.created ?_
  · intro t' ht id' hid'
    refine ⟨by simp [hc], ⟨le_rfl, ?_, hknown id', rfl, fun h => h⟩⟩
    intro hnone
    show (s.sessions.erase id).find id' = none
    by_cases hne : id' = id
    · rw [hne, ConcurrentMap.find_erase_self]
    · rw [ConcurrentMap.find_erase_of_ne hne, hnone]
  · intro id' p hfind
    have hfind' : (s.sessions.erase id).find id' = some p := hfind
    by_cases hne : id' = id
    · rw [hne, ConcurrentMap.find_erase_self] at hfind'
      cases hfind'
    · rw [ConcurrentMap.find_erase_of_ne hne] at hfind'
      exact hi.entries id' p hfind'
  · intro id' hmem
    obtain ⟨hlt, hk⟩ := hi.known id' hmem
    exact ⟨hlt, hknown id' hk⟩

/-- A step of a thread keeps the ids in order. -/
theorem Ids.thread (hi : Ids s) (hs : ThreadMoves s t s') : Ids s' := by
  have hok := hi.calls t
  cases hs
  case fetchId => exact hi.fetchId
  case construct hcall => exact hi.construct hcall
  case scan hcall _ =>
    rw [hcall] at hok
    exact hi.setCall hok (by rw [hcall]; exact fun _ h => h)
  case underCapacity hcall _ _ =>
    rw [hcall] at hok
    exact hi.setCall hok (by rw [hcall]; exact fun _ h => h)
  case insert hcall => exact hi.insert hcall
  case submit hcall ho =>
    rw [hcall] at hok
    refine (hi.setObject ho).setCall hok ?_
    show ∀ _, _ → (s.calls t).owned = _
    rw [hcall]
    exact fun _ h => h
  case track hcall => exact hi.track hcall
  case mutate hcall hp ho => exact (hi.setObject ho).setCall trivial (by simp [Call.owned])
  case erase now maxAge id rest reaped p o hcall hp ho =>
    exact hi.erase rfl (fun _ => trivial) (fun _ => by simp)
  case eraseNothing now maxAge id rest reaped hcall hnone =>
    -- an entry always has its object
    have hnotFound : s.sessions.find id = none := by
      cases hfind : s.sessions.find id with
      | none => rfl
      | some p =>
        obtain ⟨rfl, -, hobj⟩ := hi.entries id p hfind
        rw [hfind, Option.bind_some] at hnone
        rw [hnone] at hobj
        cases hobj
    have herase : Ids ({ s with
        sessions := s.sessions.erase id
        removed := s.removed ++ [] }.setCall t (.inspect now maxAge rest (reaped + 1))) :=
      hi.erase rfl (fun _ => trivial) (fun hsome => by rw [hnotFound] at hsome; cases hsome)
    simpa using herase
  all_goals exact hi.setCall trivial (by simp [Call.owned])

/-- The call that a thread starts with draws no id yet. -/
theorem callStep_spec (s : State P) (t : ℕ) (m : Method) :
    ∃ c, callStep s t m = s.setCall t c ∧ c.owned = none ∧ (∀ s : State P, CreateOk s c) := by
  cases m with
  | create req =>
    simp only [callStep]
    split
    · exact ⟨_, rfl, rfl, fun _ => trivial⟩
    · exact ⟨_, rfl, rfl, fun _ => trivial⟩
  | get id => exact ⟨_, rfl, rfl, fun _ => trivial⟩
  | cancel id => exact ⟨_, rfl, rfl, fun _ => trivial⟩
  | gc maxAge => exact ⟨_, rfl, rfl, fun _ => trivial⟩

/-- What one step of the manager can do. -/
inductive Moves (s : State P) : Label → State P → Prop where
  | tick : Moves s .tick { s with clock := s.clock + 1 }
  | call {t : ℕ} {m : Method} : s.calls t = .idle → Moves s (.call t m) (callStep s t m)
  | thread {t : ℕ} {s' : State P} : ThreadMoves s t s' → Moves s (.step t) s'
  | ret {t : ℕ} {r : Result} : s.calls t = .returned r → Moves s (.ret t) (s.setCall t .idle)
  | task {p : ℕ} {l : SessionTask.Label} {o : Object} {task' : SessionTask.State} :
      s.objects p = some o → o.dispatched = true →
      SessionTask.next P.parse P.reg o.kind o.task l = some task' →
      Moves s (.task p l) (s.setObject p { o with task := task' })

/-- The inversion of the step function. -/
theorem moves_of_next {l : Label} (hs : next s l = some s') : Moves s l s' := by
  cases l with
  | tick =>
    cases hs
    exact .tick
  | call t m =>
    obtain ⟨hidle, hs⟩ := Option.ite_none_right_eq_some.mp hs
    cases hs
    exact .call hidle
  | step t => exact .thread (threadMoves_of_step hs)
  | ret t =>
    simp only [next] at hs
    split at hs
    · next r hr =>
      cases hs
      exact .ret hr
    · cases hs
  | task p l =>
    cases l with
    | cancel => cases hs
    | task | work a =>
      simp only [next] at hs
      split at hs
      · next o ho =>
        split at hs
        · next hd =>
          obtain ⟨task', htask, rfl⟩ := Option.map_eq_some_iff.mp hs
          exact .task ho hd htask
        · cases hs
      · cases hs

/-- The thread that takes the step. -/
def Label.thread : Label → Option ℕ
  | .call t _ | .step t | .ret t => some t
  | _ => none

/-- A thread moves itself only. -/
theorem calls_of_moves {l : Label} (hs : Moves s l s') {t' : ℕ} (ht : l.thread ≠ some t') :
    s'.calls t' = s.calls t' := by
  cases hs with
  | tick => rfl
  | @call t m _ =>
    obtain ⟨c, heq, -⟩ := callStep_spec s t m
    rw [heq]
    exact Function.update_of_ne (fun h => ht (by rw [h]; rfl)) _ _
  | @thread t s' hthread =>
    have hne : t' ≠ t := fun h => ht (by rw [h]; rfl)
    cases hthread <;> exact Function.update_of_ne hne _ _
  | @ret t r _ => exact Function.update_of_ne (fun h => ht (by rw [h]; rfl)) _ _
  | task => rfl

/-- **Step of the ids.** -/
theorem Ids.step {l : Label} (hi : Ids s) (hs : Moves s l s') : Ids s' := by
  cases hs with
  | tick => exact ⟨hi.calls, hi.distinct, hi.entries, hi.objects, hi.created, hi.known⟩
  | @call t m hidle =>
    obtain ⟨c, heq, howned, hcreate⟩ := callStep_spec s t m
    rw [heq]
    exact hi.setCall (hcreate s) (by simp [howned])
  | thread hthread => exact hi.thread hthread
  | ret hr => exact hi.setCall trivial (by simp [Call.owned])
  | task ho _ _ => exact hi.setObject ho

/-! ### Sessions and Those Who Look at Them -/

/-- A session object by itself. -/
structure ObjectOk (clock p : ℕ) (o : Object) : Prop where
  outcome : SessionTask.Outcome o.task
  id : o.session.id = p
  createdAt : o.session.createdAt ≤ clock

/-- How a session object changes: what has been settled stays. -/
structure ObjectGrows (o o' : Object) : Prop where
  origin : o.session.SameOrigin o'.session
  agrees : o.session.isTerminal → o.session.Agrees o'.session

theorem ObjectGrows.refl (o : Object) : ObjectGrows o o := ⟨⟨rfl, rfl⟩, fun _ => .refl _⟩

theorem ObjectGrows.due {o o' : Object} {now : ℕ} {maxAge : ℤ} (hg : ObjectGrows o o')
    (hdue : due now maxAge o.session = true) : SessionManager.due now maxAge o'.session = true := by
  simp only [SessionManager.due, Bool.and_eq_true, decide_eq_true_eq] at hdue ⊢
  obtain ⟨hterm, hage⟩ := hdue
  refine ⟨?_, ?_⟩
  · rw [Session.isTerminal, (hg.agrees hterm).state]
    exact hterm
  · rw [age, hg.origin.2]
    exact hage

/-- Time goes on, and no session object is lost. -/
structure Grows (s s' : State P) : Prop where
  clock : s.clock ≤ s'.clock
  objects : ∀ p o, s.objects p = some o → ∃ o', s'.objects p = some o' ∧ ObjectGrows o o'

theorem Grows.refl (s : State P) : Grows s s := ⟨le_rfl, fun _ o ho => ⟨o, ho, .refl o⟩⟩

theorem Grows.setObject {p : ℕ} {o' : Object}
    (hg : ∀ o, s.objects p = some o → ObjectGrows o o') : Grows s (s.setObject p o') := by
  refine ⟨le_rfl, ?_⟩
  intro q o ho
  by_cases hq : q = p
  · subst hq
    exact ⟨o', by simp [State.setObject], hg o ho⟩
  · exact ⟨o, by simpa [State.setObject, Function.update_of_ne hq] using ho, .refl o⟩

/-- `get_session` has read the state `st` of `p`: if it is terminal, it
    still is the state. -/
def Observed (s : State P) (p : ℕ) (st : SessionState) (seen : Session → Prop) : Prop :=
  ∃ o, s.objects p = some o ∧ (st.terminal → o.session.state = st ∧ seen o.session)

/-- What a thread has seen is still so. -/
def CallOk (s : State P) : Call → Prop
  | .readStepCount p st | .readAnswer p st _ => Observed s p st fun _ => True
  | .readError p st _ answer => Observed s p st fun x => answer = x.finalAnswer
  | .returned (.info (some i)) =>
      Observed s i.id i.state fun x => i.finalAnswer = x.finalAnswer ∧ i.error = x.error
  | .keys now _ _ _ | .inspect now _ _ _ => now ≤ s.clock
  | .erase now maxAge id _ _ =>
      now ≤ s.clock ∧ ∃ o, s.objects id = some o ∧ due now maxAge o.session = true
  | _ => True

theorem Observed.grows {p : ℕ} {st : SessionState} {seen : Session → Prop} (hg : Grows s s')
    (hseen : ∀ x x' : Session, x.Agrees x' → seen x → seen x') (h : Observed s p st seen) :
    Observed s' p st seen := by
  obtain ⟨o, ho, hst⟩ := h
  obtain ⟨o', ho', hog⟩ := hg.objects p o ho
  refine ⟨o', ho', ?_⟩
  intro hterm
  obtain ⟨hstate, hx⟩ := hst hterm
  have hagrees := hog.agrees (by rw [Session.isTerminal, hstate]; exact hterm)
  exact ⟨hagrees.state.trans hstate, hseen _ _ hagrees hx⟩

theorem CallOk.grows {c : Call} (hc : CallOk s c) (hg : Grows s s') : CallOk s' c := by
  cases c
  case readStepCount p st | readAnswer p st _ =>
    have hseen : Observed s p st fun _ => True := hc
    exact hseen.grows hg fun _ _ _ h => h
  case readError p st _ answer =>
    have hseen : Observed s p st fun x => answer = x.finalAnswer := hc
    exact hseen.grows hg fun _ _ hx h => h.trans hx.finalAnswer.symm
  case returned r =>
    cases r
    case info i =>
      cases i with
      | none => trivial
      | some i =>
        have hseen : Observed s i.id i.state fun x =>
          i.finalAnswer = x.finalAnswer ∧ i.error = x.error := hc
        exact hseen.grows hg
          fun _ _ hx h => ⟨h.1.trans hx.finalAnswer.symm, h.2.trans hx.error.symm⟩
    all_goals trivial
  case keys | inspect => exact le_trans hc hg.clock
  case erase =>
    obtain ⟨hle, o, ho, hdue⟩ := hc
    obtain ⟨o', ho', hog⟩ := hg.objects _ o ho
    exact ⟨hle.trans hg.clock, o', ho', hog.due hdue⟩
  all_goals trivial

/-- A call has seen nothing at its start; `gc` has read the clock. -/
theorem callStep_callOk (s : State P) (t : ℕ) (m : Method) :
    ∃ c, callStep s t m = s.setCall t c ∧ CallOk s c := by
  cases m with
  | create req =>
    simp only [callStep]
    split
    · exact ⟨_, rfl, trivial⟩
    · exact ⟨_, rfl, trivial⟩
  | get id => exact ⟨_, rfl, trivial⟩
  | cancel id => exact ⟨_, rfl, trivial⟩
  | gc maxAge => exact ⟨_, rfl, le_refl s.clock⟩

/-- The invariant of the manager. -/
structure Inv (s : State P) : Prop where
  ids : Ids s
  objects : ∀ p o, s.objects p = some o → ObjectOk s.clock p o
  calls : ∀ t, CallOk s (s.calls t)

theorem inv_initial : Inv (initial P) where
  ids := ids_initial
  objects := by
    intro p o ho
    cases ho
  calls := fun _ => trivial

/-- The assembly: a step of thread `t`. -/
theorem Inv.assemble (hi : Inv s) {c : Call} (hids : Ids s') (hg : Grows s s')
    (hcalls : s'.calls = Function.update s.calls t c) (hc : CallOk s' c)
    (hobjects : ∀ p o, s'.objects p = some o → ObjectOk s'.clock p o) : Inv s' := by
  refine ⟨hids, hobjects, ?_⟩
  intro t'
  rw [hcalls]
  by_cases ht : t' = t
  · rw [ht, Function.update_self]
    exact hc
  · rw [Function.update_of_ne ht]
    exact (hi.calls t').grows hg

/-- A step that changes one object. -/
theorem Inv.objects_setObject (hi : Inv s) {p : ℕ} {o' : Object} (ho' : ObjectOk s.clock p o') :
    ∀ q o, (s.setObject p o').objects q = some o → ObjectOk s.clock q o := by
  intro q o ho
  by_cases hq : q = p
  · subst hq
    simp only [State.setObject, Function.update_self, Option.some.injEq] at ho
    subst ho
    exact ho'
  · simp only [State.setObject, Function.update_of_ne hq] at ho
    exact hi.objects q o ho

/-- A new session has nothing to say yet. -/
theorem objectOk_new (clock id : ℕ) (kind : WorkflowKind) (req : CreateSessionRequest) :
    ObjectOk clock id ⟨kind, .queued (req.newSession id clock), false⟩ where
  outcome := ⟨rfl, rfl, rfl⟩
  id := rfl
  createdAt := le_rfl

/-- A change of the task that its session goes along with. -/
theorem Inv.setTask (hi : Inv s) {p : ℕ} {o : Object} (o' : Object) (ho : s.objects p = some o)
    (houtcome : SessionTask.Outcome o'.task) (hg : ObjectGrows o o') :
    Grows s (s.setObject p o') ∧
      ∀ q o, (s.setObject p o').objects q = some o → ObjectOk s.clock q o := by
  have hobj := hi.objects p o ho
  refine ⟨Grows.setObject ?_, hi.objects_setObject ⟨houtcome, ?_, ?_⟩⟩
  · intro o₁ ho₁
    rw [ho, Option.some.injEq] at ho₁
    subst ho₁
    exact hg
  · rw [hg.origin.1]
    exact hobj.id
  · rw [hg.origin.2]
    exact hobj.createdAt

theorem objectGrows_cancel (o : Object) :
    ObjectGrows o { o with task := o.task.mapSession SessionTask.cancelRequest } := by
  have hsession := SessionTask.session_cancel o.task
  refine ⟨?_, fun _ => ?_⟩
  · show o.task.session.SameOrigin (o.task.mapSession SessionTask.cancelRequest).session
    rw [hsession]
    exact ⟨rfl, rfl⟩
  · show o.task.session.Agrees (o.task.mapSession SessionTask.cancelRequest).session
    rw [hsession]
    exact ⟨rfl, rfl, rfl⟩

/-- **What a step does to the sessions.** -/
theorem Inv.grows {l : Label} (hi : Inv s) (hs : Moves s l s') : Grows s s' := by
  have hquiet : ∀ s' : State P, s'.clock = s.clock → s'.objects = s.objects → Grows s s' := by
    intro s' hclock hobjects
    refine ⟨hclock.ge, ?_⟩
    intro p o ho
    exact ⟨o, by rw [hobjects]; exact ho, .refl o⟩
  cases hs with
  | tick => exact ⟨Nat.le_succ _, fun _ o ho => ⟨o, ho, .refl o⟩⟩
  | @call t m hidle =>
    obtain ⟨c, heq, -⟩ := callStep_spec s t m
    rw [heq]
    exact hquiet _ rfl rfl
  | ret hr => exact hquiet _ rfl rfl
  | @task p l o task' ho _ htask =>
    obtain ⟨houtcome, horigin, hagrees⟩ := (hi.objects p o ho).outcome.step htask
    exact (hi.setTask { o with task := task' } ho houtcome ⟨horigin, hagrees⟩).1
  | @thread t s' hthread =>
    cases hthread
    -- the object of an id that only this call knows is new
    case construct req kind id hcall =>
      have hnone : s.objects id = none := by
        have hcreate := hi.ids.calls t
        rw [hcall] at hcreate
        exact hcreate.2.2.2
      have hg : Grows s (s.setObject id ⟨kind, .queued (req.newSession id s.clock), false⟩) := by
        apply Grows.setObject
        intro o ho
        rw [hnone] at ho
        cases ho
      exact ⟨hg.clock, hg.objects⟩
    case submit id o hcall ho =>
      have hg := (hi.setTask { o with dispatched := true } ho (hi.objects id o ho).outcome
        ⟨⟨rfl, rfl⟩, fun _ => .refl _⟩).1
      exact ⟨hg.clock, hg.objects⟩
    case mutate id p o hcall hp ho =>
      have hg := (hi.setTask _ ho (hi.objects p o ho).outcome.cancel (objectGrows_cancel o)).1
      exact ⟨hg.clock, hg.objects⟩
    all_goals exact hquiet _ rfl rfl

/-- A step of a thread keeps the invariant. -/
theorem Inv.thread (hi : Inv s) (hs : ThreadMoves s t s') : Inv s' := by
  have hids := hi.ids.thread hs
  have hg := hi.grows (.thread hs)
  have hok := hi.calls t
  cases hs
  case construct req kind id hcall =>
    exact hi.assemble hids hg rfl trivial
      (hi.objects_setObject (objectOk_new s.clock id kind req))
  case submit id o hcall ho =>
    exact hi.assemble hids hg rfl trivial (hi.setTask { o with dispatched := true } ho
      (hi.objects id o ho).outcome ⟨⟨rfl, rfl⟩, fun _ => .refl _⟩).2
  case mutate id p o hcall hp ho =>
    exact hi.assemble hids hg rfl trivial (hi.setTask _ ho (hi.objects p o ho).outcome.cancel
      (objectGrows_cancel o)).2
  -- the state is read first, and what is read after a terminal state is final
  case readState p o hcall ho =>
    exact hi.assemble hids hg rfl ⟨o, ho, fun _ => ⟨rfl, trivial⟩⟩ hi.objects
  case readStepCount p st o hcall ho =>
    rw [hcall] at hok
    exact hi.assemble hids hg rfl hok hi.objects
  case readAnswer p st n o hcall ho =>
    rw [hcall] at hok
    obtain ⟨o₁, ho₁, hst⟩ := hok
    rw [ho, Option.some.injEq] at ho₁
    subst ho₁
    exact hi.assemble hids hg rfl ⟨o, ho, fun hterm => ⟨(hst hterm).1, rfl⟩⟩ hi.objects
  case readError p st n answer o hcall ho =>
    rw [hcall] at hok
    obtain ⟨o₁, ho₁, hst⟩ := hok
    rw [ho, Option.some.injEq] at ho₁
    subst ho₁
    have hid := (hi.objects p o ho).id
    refine hi.assemble hids hg rfl ⟨o, by rw [hid]; exact ho, ?_⟩ hi.objects
    intro hterm
    exact ⟨(hst hterm).1, (hst hterm).2, rfl⟩
  case keys hcall _ | keysDone hcall _ | gone hcall _ | notDue hcall _ _ _ =>
    rw [hcall] at hok
    exact hi.assemble hids hg rfl hok hi.objects
  case due id _ _ p o hcall hp ho hdue =>
    rw [hcall] at hok
    obtain ⟨rfl, -⟩ := hi.ids.entries id p hp
    exact hi.assemble hids hg rfl ⟨hok, o, ho, hdue⟩ hi.objects
  case erase hcall _ _ | eraseNothing hcall _ =>
    rw [hcall] at hok
    exact hi.assemble hids hg rfl hok.1 hi.objects
  all_goals exact hi.assemble hids hg rfl trivial hi.objects

/-- **Invariant step.** -/
theorem Inv.step {l : Label} (hi : Inv s) (hs : Moves s l s') : Inv s' := by
  have hids := hi.ids.step hs
  have hg := hi.grows hs
  cases hs with
  | tick =>
    refine ⟨hids, ?_, fun t => (hi.calls t).grows hg⟩
    intro p o ho
    have hobj := hi.objects p o ho
    exact ⟨hobj.outcome, hobj.id, hobj.createdAt.trans (Nat.le_succ _)⟩
  | @call t m hidle =>
    obtain ⟨c, heq, hc⟩ := callStep_callOk s t m
    rw [heq] at hids hg ⊢
    exact hi.assemble hids hg rfl (hc.grows hg) hi.objects
  | thread hthread => exact hi.thread hthread
  | ret hr => exact hi.assemble hids hg rfl trivial hi.objects
  | @task p l o task' ho _ htask =>
    obtain ⟨houtcome, horigin, hagrees⟩ := (hi.objects p o ho).outcome.step htask
    exact ⟨hids, (hi.setTask { o with task := task' } ho houtcome ⟨horigin, hagrees⟩).2,
      fun t => (hi.calls t).grows hg⟩

theorem inv_run {tr : List Label} (hrun : (system P).Run tr s) : Inv s := by
  apply hrun.invariant (P := Inv)
  · intro s hinit
    have hs : s = initial P := hinit
    subst hs
    exact inv_initial
  · intro s l s' hi hs
    exact hi.step (moves_of_next hs)

/-! ### Snapshots -/

/-- What was seen with a terminal state is the result of the session. -/
theorem Inv.carried {i : SessionInfo} (hi : Inv s) (hseen : Observed s i.id i.state fun x =>
      i.finalAnswer = x.finalAnswer ∧ i.error = x.error) :
    ∃ o, s.objects i.id = some o ∧
      (i.state = .completed → i.finalAnswer = o.session.finalAnswer ∧ i.finalAnswer ≠ "") ∧
      (i.state = .failed ∨ i.state = .cancelled → i.error = o.session.error ∧ i.error ≠ "") := by
  obtain ⟨o, ho, hseen⟩ := hseen
  have houtcome := (hi.objects _ o ho).outcome
  refine ⟨o, ho, ?_, ?_⟩
  · intro hst
    obtain ⟨hstate, hanswer, -⟩ := hseen (by rw [hst]; rfl)
    have hsettled := houtcome.settled (by
      show o.session.state.terminal
      rw [hstate, hst]
      rfl)
    have hcompleted : o.task.session.state = .completed := hstate.trans hst
    rw [Session.Settled, if_pos hcompleted] at hsettled
    exact ⟨hanswer, by rw [hanswer]; exact hsettled.1⟩
  · intro hst
    have hterm : i.state.terminal := by rcases hst with hst | hst <;> rw [hst] <;> rfl
    obtain ⟨hstate, -, herror⟩ := hseen hterm
    have hsettled := houtcome.settled (by
      show o.session.state.terminal
      rw [hstate]
      exact hterm)
    have hne : o.task.session.state ≠ .completed := by
      have hst' : o.task.session.state = i.state := hstate
      rcases hst with hst | hst <;> rw [hst', hst] <;> decide
    rw [Session.Settled, if_neg hne] at hsettled
    exact ⟨herror, by rw [herror]; exact hsettled.1⟩

/-- **Snapshots are consistent.** What `get_session` returns with a
    terminal state is the final answer or the error of the session, and
    neither is empty: a reader never sees a terminal state whose result
    is still missing. -/
theorem snapshot_consistent {tr : List Label} {i : SessionInfo} (hrun : (system P).Run tr s)
    (hret : s.calls t = .returned (.info (some i))) :
    ∃ o, s.objects i.id = some o ∧
      (i.state = .completed → i.finalAnswer = o.session.finalAnswer ∧ i.finalAnswer ≠ "") ∧
      (i.state = .failed ∨ i.state = .cancelled → i.error = o.session.error ∧ i.error ≠ "") := by
  have hi := inv_run hrun
  have hok := hi.calls t
  rw [hret] at hok
  exact hi.carried hok

/-- A manager of one session at most, whose hash is the identity. -/
def oneSession : Params := ⟨1, id, fun _ => none, ⟨[]⟩⟩

/-- Thread `t` goes through `create_session` by itself. -/
def createAlone (t : ℕ) : List Label :=
  .call t (.create SessionTask.question) :: List.replicate 70 (.step t)

/-- A session is created and answered, and then looked at. -/
def answeredThenRead : List Label :=
  createAlone 0 ++ SessionTask.answered.map (.task 1) ++
    Label.call 1 (.get 1) :: List.replicate 5 (Label.step 1)

theorem answered_snapshot :
    ∃ s i, (system oneSession).Run answeredThenRead s ∧ s.calls 1 = .returned (.info (some i)) ∧
      i.state = .completed ∧ i.finalAnswer ≠ "" := by
  have hread : (System.exec next (initial oneSession) answeredThenRead).map (fun s => s.calls 1) =
      some (.returned (.info (some ⟨1, .completed, 1, "4", ""⟩))) := by decide +kernel
  obtain ⟨s, hrun, hcall⟩ := System.exists_run_of_exec hread
  obtain ⟨o, -, hcompleted, -⟩ := snapshot_consistent hrun hcall
  exact ⟨s, _, hrun, hcall, rfl, (hcompleted rfl).2⟩

end SessionManager

end Forge
