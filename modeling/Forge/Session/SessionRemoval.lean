import Forge.Session.SessionManagerInvariant

/-! # Removal of Sessions

  `gc` lists the keys, inspects an entry and erases it in three steps that
  others may come between. It is right for two reasons: a terminal state
  stays, so that what `gc` found due is due when it erases it, and an id
  is drawn once, so that the entry it erases is the one it looked at.

  - `removal_step`: an entry only goes when a `gc` call erases it, and is
    due then;
  - `Born`, `Ahead`: an entry that is due when `gc` starts stays ahead of
    it until it is gone;
  - `gc_removes_due_sessions`: the results together.
-/

namespace Forge

open LTS

namespace SessionManager

variable {P : Params} {s s' : State P} {t : ℕ} {l : Label}

/-! ### What Is Removed -/

/-- A session does not get younger. -/
theorem age_mono {now now' : ℕ} (hle : now ≤ now') (x : Session) : age now x ≤ age now' x := by
  apply Int.tdiv_le_tdiv
  · simp [ticksPerSecond]
  · omega

/-- The one step that removes an entry: `gc` erases a session in a
    terminal state that has reached the age asked for. -/
theorem removal_step (hi : Inv s) (hs : Moves s l s') {id p : ℕ}
    (hfind : s.sessions.find id = some p) (hgone : s'.sessions.find id = none) :
    ∃ o t now maxAge rest reaped, s.objects p = some o ∧ l = .step t ∧
      s.calls t = .erase now maxAge id rest reaped ∧ o.session.isTerminal ∧
      maxAge ≤ age s.clock o.session ∧
      s'.removed = s.removed ++ [⟨id, o.session, s.clock, maxAge⟩] := by
  have hkept : s'.sessions = s.sessions → False := by
    intro heq
    rw [heq, hfind] at hgone
    cases hgone
  cases hs with
  | tick => exact absurd rfl hkept
  | @call t m _ =>
    obtain ⟨c, heq, -⟩ := callStep_spec s t m
    rw [heq] at hkept
    exact absurd rfl hkept
  | ret _ => exact absurd rfl hkept
  | task _ _ _ => exact absurd rfl hkept
  | @thread t s' hthread =>
    have hok := hi.calls t
    cases hthread
    case insert id' _ =>
      have hgone' : (s.sessions.set id' id').find id = none := hgone
      by_cases hid : id = id'
      · rw [hid, ConcurrentMap.find_set_self] at hgone'
        cases hgone'
      · rw [ConcurrentMap.find_set_of_ne hid, hfind] at hgone'
        cases hgone'
    case erase now maxAge id' rest reaped p' o hcall hp ho =>
      have hgone' : (s.sessions.erase id').find id = none := hgone
      have hid : id = id' := by
        by_contra hne
        rw [ConcurrentMap.find_erase_of_ne hne, hfind] at hgone'
        cases hgone'
      subst hid
      rw [hfind, Option.some.injEq] at hp
      subst hp
      rw [hcall] at hok
      obtain ⟨hnow, o', ho', hdue⟩ := hok
      obtain ⟨rfl, -⟩ := hi.ids.entries id p hfind
      rw [ho, Option.some.injEq] at ho'
      subst ho'
      simp only [due, Bool.and_eq_true, decide_eq_true_eq] at hdue
      exact ⟨o, t, now, maxAge, rest, reaped, ho, rfl, hcall, hdue.1,
        hdue.2.trans (age_mono hnow _), rfl⟩
    case eraseNothing now maxAge id' rest reaped hcall hnone =>
      have hgone' : (s.sessions.erase id').find id = none := hgone
      by_cases hid : id = id'
      · subst hid
        obtain ⟨rfl, -, hobj⟩ := hi.ids.entries id p hfind
        rw [hfind, Option.bind_some] at hnone
        rw [hnone] at hobj
        cases hobj
      · rw [ConcurrentMap.find_erase_of_ne hid, hfind] at hgone'
        cases hgone'
    all_goals exact absurd rfl hkept

/-! ### What `gc` Does Not Miss -/

/-- The id a call is going to insert. -/
def Call.unborn : Call → Option ℕ
  | .construct _ _ id | .scan id _ _ | .insert id => some id
  | _ => none

theorem Call.unborn_of_owned {c : Call} (hc : c.owned = none) : c.unborn = none := by
  cases c <;> first | rfl | cases hc

/-- The id has been inserted, so that it will not be inserted any more. -/
structure Born (s : State P) (id : ℕ) : Prop where
  below : id < s.nextId
  calls : ∀ t, (s.calls t).unborn ≠ some id

theorem born_of_find (hi : Ids s) {id p : ℕ} (hfind : s.sessions.find id = some p) : Born s id := by
  refine ⟨(hi.entries id p hfind).2.1, ?_⟩
  intro t hunborn
  have hok := hi.calls t
  cases hcall : s.calls t <;> rw [hcall] at hok hunborn <;> cases hunborn
  all_goals
    obtain ⟨-, -, hnone, -⟩ := hok
    rw [hfind] at hnone
    cases hnone

theorem Born.setCall {id : ℕ} {c : Call} (hb : Born s id) (hnext : s.nextId ≤ s'.nextId)
    (hcalls : s'.calls = Function.update s.calls t c) (hc : c.unborn ≠ some id) : Born s' id := by
  refine ⟨hb.below.trans_le hnext, ?_⟩
  intro t'
  rw [hcalls]
  by_cases ht : t' = t
  · rw [ht, Function.update_self]
    exact hc
  · rw [Function.update_of_ne ht]
    exact hb.calls t'

theorem Born.step {id : ℕ} (hb : Born s id) (hs : Moves s l s') : Born s' id := by
  cases hs with
  | tick => exact ⟨hb.below, hb.calls⟩
  | @call t m _ =>
    obtain ⟨c, heq, howned, -⟩ := callStep_spec s t m
    rw [heq]
    refine hb.setCall le_rfl rfl ?_
    rw [Call.unborn_of_owned howned]
    simp
  | ret _ => exact hb.setCall le_rfl rfl (by simp [Call.unborn])
  | task _ _ _ => exact ⟨hb.below, hb.calls⟩
  | @thread t s' hthread =>
    have hmine := hb.calls t
    cases hthread
    -- the id drawn now is above the one that was inserted
    case fetchId =>
      refine hb.setCall (Nat.le_succ _) rfl ?_
      intro heq
      have hid : s.nextId = id := Option.some.inj heq
      exact absurd hb.below (by omega)
    case construct hcall | scan hcall _ | underCapacity hcall _ _ =>
      rw [hcall] at hmine
      exact hb.setCall le_rfl rfl hmine
    all_goals exact hb.setCall le_rfl rfl (by simp [Call.unborn])

/-- `gc(maxAge)`, that has read the clock at `now`, has still to come to
    `id`. -/
def Ahead (P : Params) (id now : ℕ) (maxAge : ℤ) : Call → Prop
  | .keys now' maxAge' j found =>
      now' = now ∧ maxAge' = maxAge ∧
        (j ≤ ConcurrentMap.stripeOf P.hash numStripes id ∨ id ∈ found)
  | .inspect now' maxAge' rest _ => now' = now ∧ maxAge' = maxAge ∧ id ∈ rest
  | .erase now' maxAge' id' rest _ => now' = now ∧ maxAge' = maxAge ∧ (id = id' ∨ id ∈ rest)
  | _ => False

/-- The session `id` is due for the `gc` call of thread `t`: it is gone, or
    the call has still to come to it. -/
structure Pending (s : State P) (t id now : ℕ) (maxAge : ℤ) : Prop where
  born : Born s id
  due : ∃ o, s.objects id = some o ∧ due now maxAge o.session = true
  ahead : s.sessions.find id = none ∨ Ahead P id now maxAge (s.calls t)

/-- An entry that is gone stays away. -/
theorem Born.find_none {id : ℕ} (hb : Born s id) (hs : Moves s l s')
    (hnone : s.sessions.find id = none) : s'.sessions.find id = none := by
  cases hs with
  | @call t m _ =>
    obtain ⟨c, heq, -⟩ := callStep_spec s t m
    rw [heq]
    exact hnone
  | @thread t s' hthread =>
    cases hthread
    case insert id' hcall =>
      have hne : id ≠ id' := by
        intro heq
        subst heq
        exact hb.calls t (by rw [hcall]; rfl)
      exact (ConcurrentMap.find_set_of_ne hne).trans hnone
    case erase id' _ _ _ _ _ _ _ | eraseNothing id' _ _ _ _ =>
      show (s.sessions.erase id').find id = none
      by_cases hid : id = id'
      · rw [hid, ConcurrentMap.find_erase_self]
      · rw [ConcurrentMap.find_erase_of_ne hid, hnone]
    all_goals exact hnone
  | tick | ret _ | task _ _ _ => exact hnone

/-- A step of the `gc` call itself: what is ahead of it is listed, then
    inspected and, being due, erased. -/
theorem Ahead.thread {id now : ℕ} {maxAge : ℤ} {o p} (hi : Inv s)
    (ha : Ahead P id now maxAge (s.calls t)) (hfind : s.sessions.find id = some p)
    (ho : s.objects id = some o) (hdue : due now maxAge o.session = true)
    (hs : ThreadMoves s t s') :
    s'.sessions.find id = none ∨ Ahead P id now maxAge (s'.calls t) := by
  have hcalls : ∀ (s₁ : State P) c, (s₁.setCall t c).calls t = c := by
    intro s₁ c
    simp [State.setCall]
  obtain ⟨rfl, -⟩ := hi.ids.entries id p hfind
  cases hs
  case keys now' maxAge' j found hcall hlt =>
    rw [hcall] at ha
    obtain ⟨hnow, hmax, hahead⟩ := ha
    right
    rw [hcalls]
    refine ⟨hnow, hmax, ?_⟩
    rcases hahead with hle | hmem
    · by_cases hj : j = ConcurrentMap.stripeOf P.hash numStripes p
      · right
        rw [List.mem_append]
        exact .inr (ConcurrentMap.mem_keysAt.mpr ⟨hj, by rw [hfind]; rfl⟩)
      · left
        omega
    · right
      rw [List.mem_append]
      exact .inl hmem
  case keysDone now' maxAge' j found hcall hge =>
    rw [hcall] at ha
    obtain ⟨hnow, hmax, hahead⟩ := ha
    right
    rw [hcalls]
    refine ⟨hnow, hmax, ?_⟩
    rcases hahead with hle | hmem
    · have hlt := (ConcurrentMap.stripeOf P.hash numStripes p).isLt
      omega
    · exact hmem
  case gcDone hcall =>
    rw [hcall] at ha
    cases ha.2.2
  case gone now' maxAge' id' rest reaped hcall hnone =>
    rw [hcall] at ha
    obtain ⟨hnow, hmax, hmem⟩ := ha
    right
    rw [hcalls]
    refine ⟨hnow, hmax, ?_⟩
    rcases List.mem_cons.mp hmem with rfl | hmem
    · rw [hfind] at hnone
      cases hnone
    · exact hmem
  case notDue now' maxAge' id' rest reaped p' o' hcall hp ho' hnotDue =>
    rw [hcall] at ha
    obtain ⟨rfl, rfl, hmem⟩ := ha
    right
    rw [hcalls]
    refine ⟨rfl, rfl, ?_⟩
    rcases List.mem_cons.mp hmem with rfl | hmem
    · rw [hfind, Option.some.injEq] at hp
      subst hp
      rw [ho, Option.some.injEq] at ho'
      subst ho'
      rw [hdue] at hnotDue
      cases hnotDue
    · exact hmem
  case due now' maxAge' id' rest reaped p' o' hcall hp ho' _ =>
    rw [hcall] at ha
    right
    rw [hcalls]
    exact ⟨ha.1, ha.2.1, List.mem_cons.mp ha.2.2⟩
  case erase now' maxAge' id' rest reaped p' o' hcall hp ho' =>
    rw [hcall] at ha
    obtain ⟨hnow, hmax, rfl | hmem⟩ := ha
    · left
      exact ConcurrentMap.find_erase_self
    · right
      rw [hcalls]
      exact ⟨hnow, hmax, hmem⟩
  case eraseNothing now' maxAge' id' rest reaped hcall hnone =>
    rw [hcall] at ha
    obtain ⟨hnow, hmax, rfl | hmem⟩ := ha
    · left
      exact ConcurrentMap.find_erase_self
    · right
      rw [hcalls]
      exact ⟨hnow, hmax, hmem⟩
  -- a thread in another call has nothing ahead
  all_goals simp [Ahead, *] at ha

/-- **Step of what is pending**, as long as the call goes on. -/
theorem Pending.step {id now : ℕ} {maxAge : ℤ} (hi : Inv s) (hp : Pending s t id now maxAge)
    (hgoing : l ≠ .ret t) (hs : Moves s l s') : Pending s' t id now maxAge := by
  have hg := hi.grows hs
  obtain ⟨o, ho, hdue⟩ := hp.due
  obtain ⟨o', ho', hog⟩ := hg.objects id o ho
  refine ⟨hp.born.step hs, ⟨o', ho', hog.due hdue⟩, ?_⟩
  rcases hp.ahead with hnone | ha
  · exact .inl (hp.born.find_none hs hnone)
  cases hfind : s.sessions.find id with
  | none => exact .inl (hp.born.find_none hs hfind)
  | some p =>
    by_cases ht : l.thread = some t
    · cases hs with
      | @call t₁ m hidle =>
        cases ht
        rw [hidle] at ha
        exact ha.elim
      | @thread t₁ s' hthread =>
        cases ht
        exact ha.thread hi hfind ho hdue hthread
      | ret _ =>
        cases ht
        exact absurd rfl hgoing
      | tick | task _ _ _ => cases ht
    -- the step of another leaves the call where it is
    · right
      rw [calls_of_moves hs ht]
      exact ha

/-- The start of a `gc` call has everything ahead. -/
theorem pending_call (hi : Inv s) {id p : ℕ} {o : Object} {maxAge : ℤ} (hidle : s.calls t = .idle)
    (hfind : s.sessions.find id = some p) (ho : s.objects p = some o)
    (hdue : due s.clock maxAge o.session = true) :
    Pending (callStep s t (.gc maxAge)) t id s.clock maxAge := by
  have hmoves : Moves s (.call t (.gc maxAge)) (callStep s t (.gc maxAge)) := .call hidle
  obtain ⟨rfl, -⟩ := hi.ids.entries id p hfind
  refine ⟨(born_of_find hi.ids hfind).step hmoves, ⟨o, ho, hdue⟩, .inr ?_⟩
  show Ahead P p s.clock maxAge (Function.update s.calls t (.keys s.clock maxAge 0 []) t)
  rw [Function.update_self]
  exact ⟨rfl, rfl, .inl (Nat.zero_le _)⟩

/-- When a `gc` call returns, what was due at its start is gone. -/
theorem gc_complete {tr : List Label} {id p n : ℕ} {o : Object} {maxAge : ℤ} {tr' : List Label}
    {s₂ : State P} (hrun : (system P).Run tr s) (hfind : s.sessions.find id = some p)
    (ho : s.objects p = some o) (hdue : due s.clock maxAge o.session = true)
    (hrun₂ : (system P).Run (tr ++ .call t (.gc maxAge) :: tr') s₂) (hgoing : .ret t ∉ tr')
    (hret : s₂.calls t = .returned (.reaped n)) : s₂.sessions.find id = none := by
  have hdet : (system P).Deterministic := System.deterministic_ofNext _ _
  rw [show tr ++ .call t (.gc maxAge) :: tr' = (tr ++ [.call t (.gc maxAge)]) ++ tr' by simp]
    at hrun₂
  obtain ⟨s₁, hrun₁, hpath⟩ := hrun₂.append_inv
  obtain ⟨s', hr', hs'⟩ := hrun₁.snoc_inv
  have hsame := hdet.run_unique hrun hr'
  subst hsame
  have hi := inv_run hrun
  have hpending : Pending s₁ t id s.clock maxAge := by
    cases moves_of_next hs' with
    | call hidle => exact pending_call hi hidle hfind ho hdue
  -- along the call the session stays pending
  have hend : Inv s₂ ∧ Pending s₂ t id s.clock maxAge := by
    apply hpath.invariant (P := fun s₂ => Inv s₂ ∧ Pending s₂ t id s.clock maxAge)
    · exact ⟨inv_run hrun₁, hpending⟩
    · intro s₃ l s₄ hl h hs
      have hmoves := moves_of_next hs
      refine ⟨h.1.step hmoves, h.2.step h.1 ?_ hmoves⟩
      intro heq
      exact hgoing (heq ▸ hl)
  rcases hend.2.ahead with hnone | ha
  · exact hnone
  · rw [hret] at ha
    exact ha.elim

/-! ### The Results Together -/

/-- **Removal and identity of sessions.** In every run:
    - an entry that a step removes is erased by a `gc` call, and its
      session is in a terminal state and as old as that call asks;
    - what is due when a `gc` call starts is gone when it returns;
    - the ids handed out are pairwise distinct;
    - an id handed out finds its session until it is removed. -/
theorem gc_removes_due_sessions {tr : List Label} (hrun : (system P).Run tr s) :
    (∀ l s' id p, (system P).step s l s' → s.sessions.find id = some p →
      s'.sessions.find id = none →
      ∃ o t now maxAge rest reaped, s.objects p = some o ∧ l = .step t ∧
        s.calls t = .erase now maxAge id rest reaped ∧ o.session.isTerminal ∧
        maxAge ≤ age s.clock o.session ∧
        s'.removed = s.removed ++ [⟨id, o.session, s.clock, maxAge⟩]) ∧
    (∀ id p o t maxAge tr' s₂ n, s.sessions.find id = some p → s.objects p = some o →
      o.session.isTerminal → maxAge ≤ age s.clock o.session →
      (system P).Run (tr ++ .call t (.gc maxAge) :: tr') s₂ → .ret t ∉ tr' →
      s₂.calls t = .returned (.reaped n) → s₂.sessions.find id = none) ∧
    s.created.Nodup ∧
    (∀ id ∈ s.created, id ∉ s.removed.map Removal.id →
      s.sessions.find id = some id ∧ ∃ o, s.objects id = some o) := by
  have hi := inv_run hrun
  refine ⟨?_, ?_, hi.ids.created, ?_⟩
  · intro l s' id p hs hfind hgone
    exact removal_step hi (moves_of_next hs) hfind hgone
  · intro id p o t maxAge tr' s₂ n hfind ho hterm hage hrun₂ hgoing hret
    refine gc_complete hrun hfind ho ?_ hrun₂ hgoing hret
    simp only [due, Bool.and_eq_true, decide_eq_true_eq]
    exact ⟨hterm, hage⟩
  · intro id hmem hkept
    obtain ⟨-, hfind | hremoved⟩ := hi.ids.known id hmem
    · exact ⟨hfind, Option.isSome_iff_exists.mp (hi.ids.entries id id hfind).2.2⟩
    · exact absurd hremoved hkept

/-- A session is created and answered. -/
def answeredAlone : List Label := createAlone 0 ++ SessionTask.answered.map (.task 1)

/-- Thread 1 collects: 64 stripes, one entry. -/
def collect : List Label := List.replicate 68 (.step 1)

theorem answered_collected :
    ∃ s s₂ : State oneSession, (system oneSession).Run answeredAlone s ∧ s.created.Nodup ∧
      s.sessions.find 1 = some 1 ∧
      (system oneSession).Run (answeredAlone ++ .call 1 (.gc 0) :: collect) s₂ ∧
      s₂.sessions.find 1 = none := by
  have hbefore : (System.exec next (initial oneSession) answeredAlone).map
      (fun s => (s.created, s.removed.map Removal.id,
        (s.objects 1).map fun o => (o.session.isTerminal, age s.clock o.session))) =
      some ([1], [], some (true, 0)) := by decide +kernel
  have hafter : (System.exec next (initial oneSession)
      (answeredAlone ++ .call 1 (.gc 0) :: collect)).map (fun s => s.calls 1) =
      some (.returned (.reaped 1)) := by decide +kernel
  obtain ⟨s, hrun, hs⟩ := System.exists_run_of_exec hbefore
  obtain ⟨s₂, hrun₂, hret⟩ := System.exists_run_of_exec hafter
  simp only [Prod.mk.injEq, Option.map_eq_some_iff] at hs
  obtain ⟨hcreated, hremoved, o, ho, hterm, hage⟩ := hs
  obtain ⟨-, hgc, hnodup, hfound⟩ := gc_removes_due_sessions hrun
  have hfind := (hfound 1 (by simp [hcreated]) (by simp [hremoved])).1
  refine ⟨s, s₂, hrun, hnodup, hfind, hrun₂, ?_⟩
  exact hgc 1 1 o 1 0 collect s₂ 1 hfind ho hterm hage.ge hrun₂ (by simp [collect]) hret

end SessionManager

end Forge
