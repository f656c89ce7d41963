import Forge.Session.SessionRemoval
import Mathlib.Algebra.BigOperators.Finprod

/-! # What `gc` Reports

  `gc` adds one to `reaped` after each `erase`, and does not look at what
  `erase` returns: whether the entry was there. Two calls that have both
  found a session due erase it one after the other, and both count it.

  - `FindsEntry`: the entry that a `gc` call erases is there;
  - `Balance`: what the calls have returned and what they have counted so
    far, against what was removed;
  - `reports_exact_iff`: when no `gc` call is in progress, the values
    returned add up to the number of sessions removed if and only if every
    `erase` of the run has found its entry;
  - `overlapping_collections`: two calls report the same session.
-/

namespace LTS

/-! ### Counters of Any Number of Threads -/

variable {ι : Type*} [DecidableEq ι] {f : ι → ℕ}

theorem finite_support_update (hf : f.HasFiniteSupport) (i : ι) (n : ℕ) :
    (Function.update f i n).HasFiniteSupport := by
  refine (hf.insert i).subset ?_
  intro j hj
  by_cases hji : j = i
  · exact Set.mem_insert_iff.mpr (.inl hji)
  · rw [Function.mem_support, Function.update_of_ne hji] at hj
    exact Set.mem_insert_iff.mpr (.inr hj)

/-- One of the counters is set. -/
theorem finsum_update_add (hf : f.HasFiniteSupport) (i : ι) (n : ℕ) :
    (∑ᶠ j, Function.update f i n j) + f i = (∑ᶠ j, f j) + n := by
  have hsingle : ∀ m, ∑ᶠ j, Function.update (0 : ι → ℕ) i m j = m := by
    intro m
    rw [finsum_eq_single _ i fun j hj => Function.update_of_ne hj m (0 : ι → ℕ),
      Function.update_self]
  have hfinite : ∀ m, (Function.update (0 : ι → ℕ) i m).HasFiniteSupport := by
    intro m
    refine finite_support_update ?_ i m
    rw [Function.HasFiniteSupport, Function.support_zero]
    exact Set.finite_empty
  have hsum : ∀ j, Function.update f i n j + Function.update (0 : ι → ℕ) i (f i) j =
      f j + Function.update (0 : ι → ℕ) i n j := by
    intro j
    by_cases hj : j = i
    · subst hj
      rw [Function.update_self, Function.update_self, Function.update_self, add_comm]
    · rw [Function.update_of_ne hj, Function.update_of_ne hj, Function.update_of_ne hj]
  calc (∑ᶠ j, Function.update f i n j) + f i
      = ∑ᶠ j, (Function.update f i n j + Function.update (0 : ι → ℕ) i (f i) j) := by
        rw [finsum_add_distrib (finite_support_update hf i n) (hfinite _), hsingle]
    _ = ∑ᶠ j, (f j + Function.update (0 : ι → ℕ) i n j) := finsum_congr hsum
    _ = (∑ᶠ j, f j) + n := by rw [finsum_add_distrib hf (hfinite _), hsingle]

end LTS

namespace Forge

open LTS

namespace SessionManager

variable {P : Params} {s s' : State P} {t : ℕ} {l : Label}

/-! ### The Values Returned -/

/-- The manager, with what its `gc` calls have returned. -/
structure Reporting (P : Params) where
  manager : State P
  reports : List ℕ

/-- What the step returns from `gc`. -/
def report (s : State P) : Label → List ℕ
  | .step t =>
      match s.calls t with
      | .inspect _ _ [] reaped => [reaped]
      | _ => []
  | _ => []

def reportingNext (x : Reporting P) (l : Label) : Option (Reporting P) :=
  (next x.manager l).map fun m => ⟨m, x.reports ++ report x.manager l⟩

def reporting (P : Params) : System (Reporting P) Label :=
  System.ofNext ⟨initial P, []⟩ reportingNext

/-- The call is in `gc`. -/
def Call.collecting : Call → Bool
  | .keys _ _ _ _ | .inspect _ _ _ _ | .erase _ _ _ _ _ => true
  | _ => false

/-- What a `gc` call has counted so far. -/
def Call.reaped : Call → ℕ
  | .inspect _ _ _ reaped | .erase _ _ _ _ reaped => reaped
  | _ => 0

/-- The entry that a `gc` call erases is there. -/
def FindsEntry (s : State P) : Label → Prop
  | .step t =>
      match s.calls t with
      | .erase _ _ id _ _ => (s.sessions.find id).isSome
      | _ => True
  | _ => True

/-- The values returned add up to the number of sessions removed. -/
def Reporting.Exact (x : Reporting P) : Prop := x.reports.sum = x.manager.removed.length

/-! ### What One Step Counts -/

theorem Call.reaped_of_not_collecting {c : Call} (hc : c.collecting = false) : c.reaped = 0 := by
  cases c <;> first | rfl | cases hc

/-- The step of one thread against what it removes. -/
structure Counts (s : State P) (l : Label) (s' : State P) (t : ℕ) (c : Call) (missed : ℕ) :
    Prop where
  calls : s'.calls = Function.update s.calls t c
  count : (report s l).sum + c.reaped + s.removed.length =
    (s.calls t).reaped + s'.removed.length + missed
  missed : missed = 0 ↔ FindsEntry s l

/-- A step of a thread that erases nothing and does not return from `gc`. -/
theorem Counts.of_thread {c : Call} (hcalls : s'.calls = Function.update s.calls t c)
    (hremoved : s'.removed = s.removed) (hreport : report s (.step t) = [])
    (hreaped : c.reaped = (s.calls t).reaped) (hfinds : FindsEntry s (.step t)) :
    Counts s (.step t) s' t c 0 := by
  refine ⟨hcalls, ?_, iff_of_true rfl hfinds⟩
  rw [hreport, hremoved, hreaped, List.sum_nil]
  omega

theorem counts_thread (hi : Ids s) (hs : ThreadMoves s t s') :
    ∃ c missed, Counts s (.step t) s' t c missed := by
  cases hs
  case gcDone hcall =>
    refine ⟨_, 0, rfl, ?_, ?_⟩
    · simp [report, hcall, Call.reaped, State.setCall]
    · simp [FindsEntry, hcall]
  case erase hcall hp ho =>
    refine ⟨_, 0, rfl, ?_, ?_⟩
    · simp [report, hcall, Call.reaped, State.setCall]
      omega
    · simp [FindsEntry, hcall, hp]
  case eraseNothing now maxAge id rest reaped hcall hnone =>
    have hgone : s.sessions.find id = none := by
      cases hfind : s.sessions.find id with
      | none => rfl
      | some p =>
        obtain ⟨rfl, -, hobj⟩ := hi.entries id p hfind
        rw [hfind, Option.bind_some] at hnone
        rw [hnone] at hobj
        cases hobj
    refine ⟨_, 1, rfl, ?_, ?_⟩
    · simp [report, hcall, Call.reaped, State.setCall]
      omega
    · simp [FindsEntry, hcall, hgone]
  all_goals exact ⟨_, 0, .of_thread rfl rfl (by simp [report, *]) (by simp [Call.reaped, *])
    (by simp [FindsEntry, *])⟩

/-- A call starts with nothing counted. -/
theorem callStep_reaped (s : State P) (t : ℕ) (m : Method) :
    ∃ c, callStep s t m = s.setCall t c ∧ c.reaped = 0 := by
  cases m with
  | create req =>
    simp only [callStep]
    split
    · exact ⟨_, rfl, rfl⟩
    · exact ⟨_, rfl, rfl⟩
  | get id => exact ⟨_, rfl, rfl⟩
  | cancel id => exact ⟨_, rfl, rfl⟩
  | gc maxAge => exact ⟨_, rfl, rfl⟩

/-- **What one step counts.** -/
theorem counts_of_moves (hi : Ids s) (hs : Moves s l s') :
    ∃ t c missed, Counts s l s' t c missed := by
  cases hs with
  | @call t m hidle =>
    obtain ⟨c, heq, hzero⟩ := callStep_reaped s t m
    rw [heq]
    refine ⟨t, c, 0, rfl, ?_, iff_of_true rfl trivial⟩
    simp [report, hidle, hzero, State.setCall, show Call.idle.reaped = 0 from rfl]
  | thread hthread =>
    obtain ⟨c, missed, hc⟩ := counts_thread hi hthread
    exact ⟨_, c, missed, hc⟩
  | @ret t r hr =>
    refine ⟨t, .idle, 0, rfl, ?_, iff_of_true rfl trivial⟩
    simp [report, hr, Call.reaped, State.setCall]
  | tick | task _ _ _ =>
    refine ⟨0, s.calls 0, 0, (Function.update_eq_self 0 _).symm, ?_, iff_of_true rfl trivial⟩
    simp [report, State.setObject]

/-! ### What a Run Counts -/

/-- What has been returned and what is still being counted, against what
    was removed; `missed` erases have found nothing. -/
structure Balance (x : Reporting P) (missed : ℕ) : Prop where
  finite : (fun t => (x.manager.calls t).reaped).HasFiniteSupport
  sum : x.reports.sum + ∑ᶠ t, (x.manager.calls t).reaped = x.manager.removed.length + missed

theorem balance_initial : Balance (⟨initial P, []⟩ : Reporting P) 0 := by
  have hzero : (fun t => ((initial P).calls t).reaped) = fun _ => 0 := rfl
  constructor
  · rw [hzero, Function.HasFiniteSupport, Function.support_fun_zero]
    exact Set.finite_empty
  · rw [hzero, finsum_zero]
    rfl

theorem Balance.step {x : Reporting P} {n : ℕ} {m : State P} {c : Call} {missed : ℕ}
    (hb : Balance x n) (hc : Counts x.manager l m t c missed) :
    Balance ⟨m, x.reports ++ report x.manager l⟩ (n + missed) := by
  have hcalls : (fun t => (m.calls t).reaped) =
      Function.update (fun t => (x.manager.calls t).reaped) t c.reaped := by
    rw [hc.calls]
    exact (Function.comp_update Call.reaped x.manager.calls t c)
  constructor
  · show (fun t => (m.calls t).reaped).HasFiniteSupport
    rw [hcalls]
    exact finite_support_update hb.finite t _
  · show (x.reports ++ report x.manager l).sum + finsum (fun t => (m.calls t).reaped) =
      m.removed.length + (n + missed)
    have hset : finsum (Function.update (fun t => (x.manager.calls t).reaped) t c.reaped) +
        (x.manager.calls t).reaped = finsum (fun t => (x.manager.calls t).reaped) + c.reaped :=
      finsum_update_add hb.finite t c.reaped
    have hsum := hb.sum
    have hcount := hc.count
    rw [hcalls, List.sum_append]
    omega

/-- **Run of the counters**: they are off by the erases that have found
    nothing, and these are the steps that break the condition. -/
theorem balance_run {tr : List Label} {x : Reporting P} (hrun : (reporting P).Run tr x) :
    Inv x.manager ∧ ∃ missed, Balance x missed ∧
      (missed = 0 ↔ ((reporting P).restrict fun x => FindsEntry x.manager).Run tr x) := by
  have hdet : (reporting P).Deterministic := System.deterministic_ofNext _ _
  induction hrun with
  | start hinit =>
    have hx : _ = (⟨initial P, []⟩ : Reporting P) := hinit
    subst hx
    exact ⟨inv_initial, 0, balance_initial, iff_of_true rfl (.start rfl)⟩
  | @snoc tr x x' l hr hs ih =>
    obtain ⟨hi, n, hb, hn⟩ := ih
    obtain ⟨m, hm, rfl⟩ := Option.map_eq_some_iff.mp hs
    have hmoves := moves_of_next hm
    obtain ⟨t, c, missed, hc⟩ := counts_of_moves hi.ids hmoves
    refine ⟨hi.step hmoves, n + missed, hb.step hc, ?_⟩
    rw [hdet.restrict_snoc hr hs, ← hn, ← hc.missed, Nat.add_eq_zero_iff]

/-! ### When the Reports Are Right -/

/-- An entry is recorded when it goes. -/
theorem removed_of_moves (hs : Moves s l s') :
    s'.removed = s.removed ∨ ∃ r : Removal, s'.removed = s.removed ++ [r] ∧
      (s.sessions.find r.id).isSome ∧ s'.sessions.find r.id = none := by
  cases hs with
  | tick | ret _ | task _ _ _ => exact .inl rfl
  | @call t m _ =>
    obtain ⟨c, heq, -⟩ := callStep_spec s t m
    rw [heq]
    exact .inl rfl
  | thread hthread =>
    cases hthread
    case erase hp _ => exact .inr ⟨_, rfl, by rw [hp]; rfl, ConcurrentMap.find_erase_self⟩
    all_goals exact .inl rfl

/-- A session is removed once: its id does not come back. -/
theorem removed_nodup {tr : List Label} (hrun : (system P).Run tr s) :
    (s.removed.map Removal.id).Nodup := by
  have hall : Inv s ∧ (s.removed.map Removal.id).Nodup ∧
      ∀ id ∈ s.removed.map Removal.id, Born s id ∧ s.sessions.find id = none := by
    apply hrun.invariant (P := fun s => Inv s ∧ (s.removed.map Removal.id).Nodup ∧
      ∀ id ∈ s.removed.map Removal.id, Born s id ∧ s.sessions.find id = none)
    · rintro s rfl
      exact ⟨inv_initial, List.nodup_nil, fun id hid => absurd hid List.not_mem_nil⟩
    · rintro s l s' ⟨hi, hnodup, hgone⟩ hs
      have hmoves := moves_of_next hs
      have hstays : ∀ id ∈ s.removed.map Removal.id, Born s' id ∧ s'.sessions.find id = none :=
        fun id hid =>
          ⟨(hgone id hid).1.step hmoves, (hgone id hid).1.find_none hmoves (hgone id hid).2⟩
      refine ⟨hi.step hmoves, ?_⟩
      obtain heq | ⟨r, heq, hthere, hnow⟩ := removed_of_moves hmoves
      · rw [heq]
        exact ⟨hnodup, hstays⟩
      · rw [heq, List.map_append, List.map_singleton]
        obtain ⟨p, hp⟩ := Option.isSome_iff_exists.mp hthere
        refine ⟨List.nodup_append.mpr ⟨hnodup, List.nodup_singleton _, ?_⟩, ?_⟩
        · intro id hid id' hid' heq'
          rw [List.mem_singleton.mp hid'] at heq'
          subst heq'
          rw [(hgone _ hid).2] at hp
          cases hp
        · intro id hid
          obtain hid | hid := List.mem_append.mp hid
          · exact hstays id hid
          · rw [List.mem_singleton.mp hid]
            exact ⟨(born_of_find hi.ids hp).step hmoves, hnow⟩
  exact hall.2.1

/-- What the manager does is not touched by what is reported. -/
theorem manager_run {tr : List Label} {x : Reporting P} (hrun : (reporting P).Run tr x) :
    (system P).Run tr x.manager := by
  induction hrun with
  | start hinit =>
    have hx : _ = (⟨initial P, []⟩ : Reporting P) := hinit
    exact .start (by rw [hx]; rfl)
  | snoc _ hs ih =>
    obtain ⟨m, hm, rfl⟩ := Option.map_eq_some_iff.mp hs
    exact ih.snoc hm

/-- **What `gc` reports.** In every run no session is removed twice, and
    at the end, with no `gc` call in progress, the values that the `gc`
    calls have returned add up to the number of sessions removed if and
    only if every `erase` of a `gc` call in the run has found its entry. -/
theorem reports_exact_iff {tr : List Label} {x : Reporting P} (hrun : (reporting P).Run tr x)
    (hquiet : ∀ t, (x.manager.calls t).collecting = false) :
    (x.manager.removed.map Removal.id).Nodup ∧
      (x.Exact ↔ ((reporting P).restrict fun x => FindsEntry x.manager).Run tr x) := by
  refine ⟨removed_nodup (manager_run hrun), ?_⟩
  obtain ⟨-, missed, hb, hmissed⟩ := balance_run hrun
  have hnone : ∑ᶠ t, (x.manager.calls t).reaped = 0 := by
    rw [finsum_congr fun t => Call.reaped_of_not_collecting (hquiet t), finsum_zero]
  have hsum := hb.sum
  rw [hnone] at hsum
  rw [← hmissed, Reporting.Exact]
  omega

/-! ### Two Collectors -/

/-- A thread that has not called is idle. -/
theorem calls_of_run {tr : List Label} (hrun : (system P).Run tr s)
    (hnot : ∀ l ∈ tr, l.thread ≠ some t) : s.calls t = .idle := by
  induction hrun with
  | start hinit =>
    have hs : _ = initial P := hinit
    rw [hs]
    rfl
  | @snoc tr s s' l _ hs ih =>
    rw [calls_of_moves (moves_of_next hs) (hnot l (by simp))]
    exact ih fun l hl => hnot l (by simp [hl])

/-- The calls of threads 0, 1 and 2 are over, and no other thread has called. -/
theorem quiet_of_three {tr : List Label} (hrun : (system P).Run tr s)
    (hlow : ∀ l ∈ tr, ∀ t ∈ l.thread, t < 3)
    (hthree : ∀ t ∈ List.range 3, (s.calls t).collecting = false) :
    ∀ t, (s.calls t).collecting = false := by
  intro t
  by_cases ht : t < 3
  · exact hthree t (List.mem_range.mpr ht)
  · rw [calls_of_run hrun fun l hl h => ht (hlow l hl t h)]
    rfl

/-- Thread `t` collects: 64 stripes and what is in them. -/
def collectedBy (t steps : ℕ) : List Label := .call t (.gc 0) :: List.replicate steps (.step t)

/-- Two calls in turn, the second of which finds nothing. -/
def inTurn : List Label := answeredAlone ++ collectedBy 1 68 ++ collectedBy 2 66

/-- Threads 1 and 2 have both found the session due when they erase it. -/
def overlapping : List Label :=
  answeredAlone ++ collectedBy 1 66 ++ collectedBy 2 66 ++
    [Label.step 1, .step 2, .step 1, .step 2]

theorem inTurn_exact : ∃ x : Reporting oneSession, x.manager.removed.length = 1 ∧
    ((reporting oneSession).restrict fun x => FindsEntry x.manager).Run inTurn x := by
  have hexec : (System.exec reportingNext (⟨initial oneSession, []⟩ : Reporting oneSession)
      inTurn).map (fun x => (x.reports, x.manager.removed.length,
        decide (∀ t ∈ List.range 3, (x.manager.calls t).collecting = false))) =
      some ([1, 0], 1, true) := by decide +kernel
  obtain ⟨x, hrun, hx⟩ := System.exists_run_of_exec hexec
  simp only [Prod.mk.injEq, decide_eq_true_eq] at hx
  obtain ⟨hreports, hremoved, hthree⟩ := hx
  have hquiet := quiet_of_three (manager_run hrun) (by decide +kernel) hthree
  refine ⟨x, hremoved, (reports_exact_iff hrun hquiet).2.mp ?_⟩
  rw [Reporting.Exact, hreports, hremoved]
  rfl

/-- Both calls report the one session there was. -/
theorem overlapping_collections :
    ¬ ∀ (P : Params) (tr : List Label) (x : Reporting P), (reporting P).Run tr x →
      (∀ t, (x.manager.calls t).collecting = false) → x.Exact := by
  intro hall
  have hexec : (System.exec reportingNext (⟨initial oneSession, []⟩ : Reporting oneSession)
      overlapping).map (fun x => (x.reports, x.manager.removed.length,
        decide (∀ t ∈ List.range 3, (x.manager.calls t).collecting = false))) =
      some ([1, 1], 1, true) := by decide +kernel
  obtain ⟨x, hrun, hx⟩ := System.exists_run_of_exec hexec
  simp only [Prod.mk.injEq, decide_eq_true_eq] at hx
  obtain ⟨hreports, hremoved, hthree⟩ := hx
  have hexact := hall _ _ _ hrun (quiet_of_three (manager_run hrun) (by decide +kernel) hthree)
  rw [Reporting.Exact, hreports, hremoved] at hexact
  exact absurd hexact (by decide)

end SessionManager

end Forge
