import Forge.Session.SessionManagerInvariant

/-! # Capacity of the Session Manager

  `create_session` calls `insert_if_under`, which adds up the sizes of the
  stripes one lock at a time and inserts afterwards, under another lock.
  Between the two another call may insert:

  - `Undisturbed`: no call inserts while another one is between the start
    of its scan and its insert;
  - `capacity_respected`: in the runs whose steps are undisturbed the map
    never holds more than `max_sessions`;
  - `overlapping_creates_overflow`: two calls that overlap store one too
    many.
-/

namespace Forge

open LTS

namespace SessionManager

variable {P : Params} {s s' : State P} {t : ℕ} {l : Label}

/-- The call is between the start of its scan and its insert. -/
def Call.inWindow : Call → Bool
  | .scan _ _ _ | .insert _ => true
  | _ => false

/-- The step inserts no entry while another call is in its window. -/
def Undisturbed (s : State P) : Label → Prop
  | .step t => ∀ id, s.calls t = .insert id → ∀ t', t' ≠ t → (s.calls t').inWindow = false
  | _ => True

/-- What a call has counted: at least what there is. -/
def Counted (s : State P) : Call → Prop
  | .scan _ j total => j ≤ numStripes ∧ s.sessions.storedBefore j ≤ total
  | .insert _ => s.sessions.stored < P.maxSessions
  | _ => True

/-- The map is not too full, and no call believes it is emptier. -/
structure Capacity (s : State P) : Prop where
  stored : s.sessions.stored ≤ P.maxSessions
  calls : ∀ t, Counted s (s.calls t)

theorem capacity_initial : Capacity (initial P) := by
  refine ⟨?_, fun _ => trivial⟩
  have hzero : (initial P).sessions.stored = 0 := ConcurrentMap.stored_empty
  rw [hzero]
  exact Nat.zero_le _

/-- A map that only shrinks leaves every count right. -/
theorem Counted.mono {c : Call} (hc : Counted s c)
    (hle : ∀ j, s'.sessions.storedBefore j ≤ s.sessions.storedBefore j) : Counted s' c := by
  cases c
  case scan id j total => exact ⟨hc.1, (hle j).trans hc.2⟩
  case insert id => exact lt_of_le_of_lt (hle numStripes) hc
  all_goals trivial

/-- A step after which the map is not larger. -/
theorem Capacity.assemble (hcap : Capacity s) {c : Call}
    (hle : ∀ j, s'.sessions.storedBefore j ≤ s.sessions.storedBefore j)
    (hcalls : s'.calls = Function.update s.calls t c) (hc : Counted s' c) : Capacity s' := by
  refine ⟨(hle numStripes).trans hcap.stored, ?_⟩
  intro t'
  rw [hcalls]
  by_cases ht : t' = t
  · rw [ht, Function.update_self]
    exact hc
  · rw [Function.update_of_ne ht]
    exact (hcap.calls t').mono hle

/-- A step that leaves the map alone. -/
theorem Capacity.setCall (hcap : Capacity s) {c : Call} (hsessions : s'.sessions = s.sessions)
    (hcalls : s'.calls = Function.update s.calls t c) (hc : Counted s' c) : Capacity s' := by
  refine hcap.assemble ?_ hcalls hc
  intro j
  rw [hsessions]

/-- An insert that no other call is disturbed by. -/
theorem Capacity.insert (hi : Ids s) (hcap : Capacity s) {id : ℕ} (hcall : s.calls t = .insert id)
    (hother : ∀ t', t' ≠ t → (s.calls t').inWindow = false) :
    Capacity ({ s with sessions := s.sessions.set id id }.setCall t (.submit id)) := by
  have hnew : s.sessions.find id = none := by
    have hcreate := hi.calls t
    rw [hcall] at hcreate
    exact hcreate.2.2.1
  have hroom : s.sessions.stored < P.maxSessions := by
    have hcounted := hcap.calls t
    rw [hcall] at hcounted
    exact hcounted
  refine ⟨?_, ?_⟩
  · show (s.sessions.set id id).stored ≤ P.maxSessions
    rw [ConcurrentMap.stored_set hnew]
    exact hroom
  · intro t'
    show Counted _ (Function.update s.calls t (.submit id) t')
    by_cases ht : t' = t
    · rw [ht, Function.update_self]
      trivial
    · rw [Function.update_of_ne ht]
      have hout := hother t' ht
      cases hc : s.calls t' <;> rw [hc] at hout <;> trivial

/-- **Step of the capacity.** -/
theorem Capacity.step (hi : Ids s) (hcap : Capacity s) (hok : Undisturbed s l)
    (hs : Moves s l s') : Capacity s' := by
  cases hs with
  | tick => exact ⟨hcap.stored, hcap.calls⟩
  | @call t m hidle =>
    obtain ⟨c, heq, howned, -⟩ := callStep_spec s t m
    rw [heq]
    refine hcap.setCall rfl rfl ?_
    cases c <;> trivial
  | @thread t s' hthread =>
    have hcounted := hcap.calls t
    cases hthread
    case construct =>
      exact hcap.setCall rfl rfl ⟨Nat.zero_le _, by simp [ConcurrentMap.storedBefore]⟩
    case scan id j total hcall hlt =>
      rw [hcall] at hcounted
      refine hcap.setCall rfl rfl ⟨hlt, ?_⟩
      show ∑ i ∈ Finset.range (j + 1), s.sessions.sizeAt i ≤ _
      rw [Finset.sum_range_succ]
      exact Nat.add_le_add_right hcounted.2 _
    case underCapacity id j total hcall hge hlt =>
      rw [hcall] at hcounted
      refine hcap.setCall rfl rfl ?_
      -- the scan has gone through all stripes
      have hj : j = numStripes := Nat.le_antisymm hcounted.1 hge
      subst hj
      exact lt_of_le_of_lt hcounted.2 hlt
    case insert id hcall => exact hcap.insert hi hcall (hok id hcall)
    case erase | eraseNothing =>
      exact hcap.assemble (fun j => ConcurrentMap.stored_erase_le _ _ j) rfl trivial
    all_goals exact hcap.setCall rfl rfl trivial
  | ret hr => exact hcap.setCall rfl rfl trivial
  | task => exact ⟨hcap.stored, hcap.calls⟩

/-- **Capacity.** In every run in which no call of `create_session`
    inserts while another is between the start of its scan and its insert,
    the number of sessions stored never exceeds `max_sessions`. -/
theorem capacity_respected {tr : List Label} (hrun : ((system P).restrict Undisturbed).Run tr s) :
    s.sessions.stored ≤ P.maxSessions := by
  have hboth : Ids s ∧ Capacity s := by
    apply hrun.invariant (P := fun s => Ids s ∧ Capacity s)
    · intro s hinit
      have hs : s = initial P := hinit
      subst hs
      exact ⟨ids_initial, capacity_initial⟩
    · intro s l s' h hs
      have hmoves := moves_of_next hs.2
      exact ⟨h.1.step hmoves, h.2.step h.1 hs.1 hmoves⟩
  exact hboth.2.stored

/-! ### One Thread, and Two -/

/-- A thread that is the only one to call the manager is undisturbed. -/
theorem alone_undisturbed {tr : List Label} (hrun : (system P).Run tr s)
    (halone : ∀ l ∈ tr, ∀ t', l.thread = some t' → t' = t) :
    ((system P).restrict Undisturbed).Run tr s ∧ ∀ t', t' ≠ t → s.calls t' = .idle := by
  induction hrun with
  | start hs =>
    refine ⟨.start hs, ?_⟩
    have hs' : _ = initial P := hs
    intro t' _
    rw [hs']
    rfl
  | @snoc tr s s' l hr hs ih =>
    obtain ⟨hrun', hidle⟩ := ih fun l hl => halone l (by simp [hl])
    have hl : ∀ t', l.thread = some t' → t' = t := halone l (by simp)
    refine ⟨hrun'.snoc ⟨?_, hs⟩, ?_⟩
    · cases l
      case step t₁ =>
        intro id _ t' ht'
        have heq := hl t₁ rfl
        rw [hidle t' (by rw [← heq]; exact ht')]
        rfl
      all_goals trivial
    · intro t' ht'
      rw [calls_of_moves (moves_of_next hs) fun h => ht' (hl t' h)]
      exact hidle t' ht'

theorem createAlone_respected :
    ∃ s, ((system oneSession).restrict Undisturbed).Run (createAlone 0) s ∧
      s.sessions.stored = 1 ∧ s.sessions.stored ≤ oneSession.maxSessions := by
  have hstored : (System.exec next (initial oneSession) (createAlone 0)).map
      (fun s => s.sessions.stored) = some 1 := by decide +kernel
  obtain ⟨s, hrun, hone⟩ := System.exists_run_of_exec hstored
  have hrun : ((system oneSession).restrict Undisturbed).Run (createAlone 0) s := by
    apply (alone_undisturbed (t := 0) hrun ?_).1
    intro l hl t' ht'
    simp only [createAlone, List.mem_cons, List.mem_replicate] at hl
    rcases hl with rfl | ⟨-, rfl⟩ <;> exact (Option.some.inj ht').symm
  exact ⟨s, hrun, hone, capacity_respected hrun⟩

/-- Two calls count before either of them inserts. -/
def overlappingCreates : List Label :=
  [Label.call 0 (.create SessionTask.question), .call 1 (.create SessionTask.question)] ++
    List.replicate 67 (Label.step 0) ++ List.replicate 67 (Label.step 1) ++
    [Label.step 0, .step 1]

/-- The manager of one session holds two. -/
theorem overlapping_creates_overflow :
    ¬ ∀ (P : Params) (tr : List Label) (s : State P), 1 ≤ P.maxSessions → (system P).Run tr s →
      s.sessions.stored ≤ P.maxSessions := by
  intro hall
  have hstored : (System.exec next (initial oneSession) overlappingCreates).map
      (fun s => s.sessions.stored) = some 2 := by decide +kernel
  obtain ⟨s, hrun, htwo⟩ := System.exists_run_of_exec hstored
  have hle := hall oneSession overlappingCreates s (by decide) hrun
  rw [htwo] at hle
  exact absurd hle (by decide)

end SessionManager

end Forge
