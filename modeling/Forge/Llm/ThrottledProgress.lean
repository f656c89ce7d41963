import Forge.Framework.Contention
import Forge.Framework.Total
import Forge.Llm.ThrottledPermits

/-! # Throttled LLM Client — Progress

  What the calls of `complete` that share a semaphore cost one another in
  `Semaphore::acquire` (`core/semaphore.h`). Apart from the times it finds
  no permit, after which it backs off, and apart from spurious failures,
  a call retries its compare-exchange only when another call has written
  `permits_` meanwhile:

  - `acquireStep_left`: what a step of `acquire` leaves to do;
  - `step_paid`: the two writes of a call, and what every step costs;
  - `acquires_le`: the steps of one `acquire`, in any run.
-/

open LTS

namespace Forge

/-! ### One Step of acquire -/

namespace Semaphore

/-- The accesses left, when no compare-exchange fails. -/
def AcquirePC.left : AcquirePC → ℕ
  | .load => 2
  | .cas _ => 1

/-- The value to compare with is no longer there. -/
def AcquirePC.stale (permits : ℤ) : AcquirePC → ℕ
  | .load => 0
  | .cas current => if current ≤ 0 ∨ current = permits then 0 else 1

theorem AcquirePC.stale_le (permits permits' : ℤ) (pc : AcquirePC) :
    pc.stale permits' ≤ pc.stale permits + 1 := by
  cases pc with
  | load => simp [stale]
  | cas current =>
    simp only [stale]
    split <;> omega

/-- A step of `acquire` that goes on: nearer to the end, unless it has
    found no permit, lost to a write, or been let to fail. -/
theorem acquireStep_left {sem sem' : Semaphore} {weak : Bool} {pc pc' : AcquirePC}
    (h : sem.acquireStep weak pc = (sem', some pc')) :
    1 + pc'.left + pc'.stale sem'.permits ≤
      pc.left + pc.stale sem.permits + weak.toNat + 2 * pc.fails.toNat := by
  cases pc with
  | load =>
    simp only [acquireStep, Prod.mk.injEq, Option.some.injEq] at h
    obtain ⟨rfl, rfl⟩ := h
    simp only [AcquirePC.left, AcquirePC.stale, or_true, if_true]
    omega
  | cas current =>
    unfold acquireStep at h
    by_cases hpos : current > 0
    · by_cases hcas : sem.permits = current ∧ weak = false
      · simp [hpos, hcas] at h
      · simp only [hpos, hcas, if_true, if_false, Prod.mk.injEq, Option.some.injEq] at h
        obtain ⟨rfl, rfl⟩ := h
        have hfresh : (AcquirePC.cas sem.permits).stale sem.permits = 0 := by
          simp [AcquirePC.stale]
        have hwhy : 1 ≤ (AcquirePC.cas current).stale sem.permits + weak.toNat := by
          cases weak with
          | false =>
            simp only [and_true] at hcas
            have hne : ¬(current ≤ 0 ∨ current = sem.permits) := by omega
            simp [AcquirePC.stale, hne]
          | true => simp
        simp only [AcquirePC.left, hfresh]
        omega
    · simp only [hpos, if_false, Prod.mk.injEq, Option.some.injEq] at h
      obtain ⟨rfl, rfl⟩ := h
      have hfails : (AcquirePC.cas current).fails = true := by
        simpa [AcquirePC.fails] using hpos
      simp only [AcquirePC.left, AcquirePC.stale, hfails, Bool.toNat_true]
      omega

end Semaphore

namespace ThrottledLLMClient

variable {R E : Type*} [DecidableEq R] [DecidableEq E] {c c' : Call R E}

/-! ### The Writes of a Call -/

/-- The call has not got its permit yet. -/
def CallerPC.waiting : CallerPC → Bool
  | .idle | .rateAcquire | .semAcquire _ => true
  | _ => false

/-- What `acquire` has left to do, with the retry it is in for. -/
def CallerPC.left (permits : ℤ) : CallerPC → ℕ
  | .idle | .rateAcquire => 2
  | .semAcquire pc => pc.left + pc.stale permits
  | _ => 0

/-- The writes of a call up to here: the permit it took, and gave back. -/
def Call.writes (c : Call R E) : ℕ :=
  if c.caller.waiting then 0 else if c.holds then 1 else 2

omit [DecidableEq R] [DecidableEq E] in
theorem Call.writes_le (c : Call R E) : c.writes ≤ 2 := by
  unfold Call.writes
  split
  · omega
  · split <;> omega

theorem CallerPC.left_le (permits permits' : ℤ) (pc : CallerPC) :
    pc.left permits' ≤ pc.left permits + 1 := by
  cases pc with
  | semAcquire pc =>
    have hstale := pc.stale_le permits permits'
    simp only [left]
    omega
  | _ => simp [left]

theorem CallerPC.left_of_waiting {permits : ℤ} {pc : CallerPC} (h : pc.waiting = false) :
    pc.left permits = 0 := by
  cases pc <;> simp_all [waiting, left]

omit [DecidableEq R] [DecidableEq E] in
theorem Call.waiting_of_holds (h : c.holds = true) : c.caller.waiting = false := by
  unfold Call.holds at h
  cases hpc : c.caller <;> simp_all [CallerPC.waiting]

/-- A step that does not touch the semaphore keeps the writes, and leaves
    `acquire` as much to do. -/
theorem localNext_writes {ll : LocalLabel R E} (hi : CallInv c)
    (hs : localNext c ll = some c') (permits : ℤ) :
    c'.writes = c.writes ∧ c'.caller.left permits = c.caller.left permits := by
  have hholds := (hi.localNext hs).2
  -- it is enough to look at the caller
  have hcaller : c'.caller.waiting = c.caller.waiting ∧
      c'.caller.left permits = c.caller.left permits := by
    cases ll with
    | call | rateAcquired | innerReturn | innerThrow =>
      simp only [localNext, Option.ite_none_right_eq_some, Option.some.injEq] at hs
      obtain ⟨hpc, rfl⟩ := hs
      rw [hpc]
      exact ⟨rfl, rfl⟩
    | callThen =>
      simp only [localNext, Option.ite_none_right_eq_some, Option.map_eq_some_iff] at hs
      obtain ⟨hpc, c₁, -, rfl⟩ := hs
      rw [hpc]
      exact ⟨rfl, rfl⟩
    | thenStep =>
      simp only [localNext, Option.ite_none_right_eq_some] at hs
      rw [(stepInner_next hs.2).2.2]
      exact ⟨rfl, rfl⟩
    | thenEnds =>
      simp only [localNext, Option.ite_none_right_eq_some] at hs
      obtain ⟨hpc, hs⟩ := hs
      rw [hpc]
      cases hc : c.inner.consumer <;> simp only [hc, Option.some.injEq, reduceCtorEq] at hs <;>
      · subst hs
        exact ⟨rfl, rfl⟩
    | resolve l =>
      simp only [localNext, Option.ite_none_right_eq_some] at hs
      rw [(stepInner_next hs.2).2.2]
      exact ⟨rfl, rfl⟩
    | callSetValue =>
      simp only [localNext] at hs
      split at hs
      · obtain ⟨c₁, hstep, rfl⟩ := Option.map_eq_some_iff.mp hs
        have hsame : c₁.caller = c.caller := (stepOuter_next hstep).2.1
        exact ⟨congrArg _ hsame, congrArg _ hsame⟩
      · cases hs
    | setValueStep l =>
      simp only [localNext] at hs
      split at hs
      · simp only [Option.ite_none_right_eq_some] at hs
        rw [(stepOuter_next hs.2).2.1]
        exact ⟨rfl, rfl⟩
      · cases hs
    | continuationEnds =>
      simp only [localNext] at hs
      split at hs
      · split at hs
        · obtain ⟨c₁, hstep, rfl⟩ := Option.map_eq_some_iff.mp hs
          have hsame : c₁.caller = c.caller := (stepInner_next hstep).2.2
          exact ⟨congrArg _ hsame, congrArg _ hsame⟩
        · obtain ⟨c₁, hstep, rfl⟩ := Option.map_eq_some_iff.mp hs
          have hsame : c₁.caller = c.caller := (stepInner_next hstep).2.2
          exact ⟨congrArg _ hsame, congrArg _ hsame⟩
        · cases hs
      · cases hs
    | user l =>
      simp only [localNext, Option.ite_none_right_eq_some] at hs
      rw [(stepOuter_next hs.2).2.1]
      exact ⟨rfl, rfl⟩
  exact ⟨by simp only [Call.writes, hcaller.1, hholds], hcaller.2⟩

/-! ### One Step -/

variable {ι : Type*} [DecidableEq ι] {maxPermits : ℤ} {t t' : State ι R E} {l : Label ι R E} {i : ι}

/-- `l` is a step of `acquire` of call `i`. -/
def isAcquire (i : ι) : Label ι R E → Bool
  | .acquire j _ => j = i
  | _ => false

/-- `l` is a step of `acquire` of call `i` whose compare-exchange may fail
    without a reason. -/
def isSpurious (i : ι) : Label ι R E → Bool
  | .acquire j weak => j = i && weak
  | _ => false

/-- Call `i` has found no permit: `try_acquire` returns false. -/
def refused (i : ι) (t : State ι R E) (l : Label ι R E) : ℕ :=
  match (t.calls i).caller with
  | .semAcquire pc => (isAcquire i l && pc.fails).toNat
  | _ => 0

/-- What a step of call `i` costs it. -/
def worth (i : ι) (t : State ι R E) (l : Label ι R E) : ℕ :=
  (isSpurious i l).toNat + 2 * refused i t l

/-- **What a step does**: it is a step of one call `j`. That call writes the
    counter, or the counter stays; and what the call has left to do goes
    down. -/
theorem step_paid (hi : Inv maxPermits t) (hs : next t l = some t') :
    ∃ j c, t'.calls = Function.update t.calls j c ∧
      (t'.sem.permits = t.sem.permits ∧ c.writes = (t.calls j).writes ∨
        c.writes = (t.calls j).writes + 1) ∧
      (isAcquire j l).toNat + c.caller.left t'.sem.permits ≤
        (t.calls j).caller.left t.sem.permits + worth j t l ∧
      ∀ i, i ≠ j → isAcquire i l = false := by
  cases l with
  | step j ll =>
    obtain ⟨c, hstep, rfl⟩ := Option.map_eq_some_iff.mp hs
    obtain ⟨hwrites, hleft⟩ := localNext_writes (hi.calls j) hstep t.sem.permits
    refine ⟨j, c, rfl, .inl ⟨rfl, hwrites⟩, ?_, fun _ _ => rfl⟩
    show 0 + c.caller.left t.sem.permits ≤ _
    omega
  | acquire j weak =>
    have hother : ∀ i, i ≠ j → isAcquire i (.acquire j weak : Label ι R E) = false := by
      intro i hne
      simp [isAcquire, Ne.symm hne]
    simp only [next] at hs
    split at hs
    · next pc hpc =>
      have hbefore : (t.calls j).writes = 0 := by
        unfold Call.writes
        rw [hpc]
        rfl
      split at hs
      · next sem hstep =>
        obtain rfl := Option.some.inj hs
        refine ⟨j, _, rfl, .inr ?_, ?_, hother⟩
        · rw [hbefore]
          rfl
        · have hone : 1 ≤ pc.left := by
            cases pc <;> simp [Semaphore.AcquirePC.left]
          rw [hpc]
          simp only [isAcquire, decide_true, Bool.toNat_true, CallerPC.left]
          omega
      · next sem pc' hstep =>
        obtain rfl := Option.some.inj hs
        have hleft := Semaphore.acquireStep_left hstep
        have hsem : sem.permits = t.sem.permits := by
          obtain ⟨hnone, -⟩ | ⟨rfl, -⟩ := Semaphore.acquireStep_cases hstep
          · cases hnone
          · rfl
        refine ⟨j, _, rfl, .inl ⟨hsem, ?_⟩, ?_, hother⟩
        · rw [hbefore]
          rfl
        · have hworth : worth j t (.acquire j weak) = weak.toNat + 2 * pc.fails.toNat := by
            simp [worth, refused, isSpurious, isAcquire, hpc]
          rw [hpc, hworth]
          simp only [isAcquire, decide_true, Bool.toNat_true, CallerPC.left, State.setCall]
          omega
    · cases hs
  | release j =>
    obtain ⟨c, hstep, rfl⟩ := Option.map_eq_some_iff.mp hs
    obtain ⟨-, hholds, hafter⟩ := (hi.calls j).released hstep
    have hwaiting := Call.waiting_of_holds hholds
    have hwaiting' : c.caller.waiting = false := by
      unfold released at hstep
      split at hstep
      · cases hstep
        rfl
      · cases hstep
        exact hwaiting
      · cases hstep
    refine ⟨j, c, rfl, .inr ?_, ?_, fun _ _ => rfl⟩
    · simp [Call.writes, hwaiting, hwaiting', hholds, hafter]
    · rw [CallerPC.left_of_waiting hwaiting']
      exact Nat.zero_le _

/-! ### Whole Runs -/

variable [Fintype ι]

/-- The writes of all calls. -/
def State.writes (t : State ι R E) : ℕ := total Call.writes t.calls

/-- What call `i` has left to do in `acquire`, and its writes. -/
def State.due (t : State ι R E) (i : ι) : ℕ :=
  (t.calls i).caller.left t.sem.permits + (t.calls i).writes

/-- **Every step of `acquire` is paid for**: by what it has left to do, by
    a write of another call, by a spurious failure, or because there was
    no permit. -/
theorem acquire_paid (hi : Inv maxPermits t) (i : ι) (hs : next t l = some t') :
    (isAcquire i l).toNat + t'.due i + t.writes ≤ t.due i + t'.writes + worth i t l := by
  obtain ⟨j, c, hcalls, hwrite, hpaid, hother⟩ := step_paid hi hs
  have htotal : t'.writes + (t.calls j).writes = t.writes + c.writes := by
    unfold State.writes
    rw [hcalls]
    exact total_update Call.writes t.calls j c
  by_cases hij : i = j
  · subst hij
    have hget : t'.calls i = c := by simp [hcalls]
    unfold State.due
    rw [hget]
    omega
  · have hget : t'.calls i = t.calls i := by simp [hcalls, hij]
    have hstale := (t.calls i).caller.left_le t.sem.permits t'.sem.permits
    unfold State.due
    rw [hget, hother i hij, Bool.toNat_false]
    obtain ⟨hsame, hwrites⟩ | hwrites := hwrite
    · rw [hsame]
      omega
    · omega

/-- **`acquire` is held up by the others twice each.** Apart from spurious
    failures it takes two steps, two more for each time it finds no
    permit, and two more at most for every other call. -/
theorem acquires_le (hmax : 1 ≤ maxPermits) {tr : List (Label ι R E)}
    (hrun : (system ι R E maxPermits).Run tr t) (i : ι) :
    tr.countP (isAcquire i) ≤ 2 + 2 * System.tally next (refused i) (initial ι R E maxPermits) tr +
      tr.countP (isSpurious i) + 2 * (Fintype.card ι - 1) := by
  have hstep : ∀ t l t', (system ι R E maxPermits).Reachable t → next t l = some t' →
      ((isAcquire i l).toNat : ℤ) + ((t'.due i : ℤ) - t'.writes) ≤
        ((t.due i : ℤ) - t.writes) + (worth i t l : ℕ) := by
    rintro t l t' ⟨tr, hr⟩ hs
    have hone := acquire_paid (inv_run hmax hr) i hs
    omega
  have hpaid := hrun.tally_le (fun t => (t.due i : ℤ) - t.writes) hstep
  have hworth : System.tally next (worth i) (initial ι R E maxPermits) tr =
      tr.countP (isSpurious i) +
        2 * System.tally next (refused i) (initial ι R E maxPermits) tr := by
    rw [← hrun.tally_label, ← System.tally_mul, ← System.tally_add]
    rfl
  rw [hworth, hrun.tally_label] at hpaid
  have hfirst : (initial ι R E maxPermits).due i = 2 := rfl
  have hnone : (initial ι R E maxPermits).writes = 0 := total_eq_zero _ fun _ => rfl
  have hothers : t.writes ≤ (t.calls i).writes + 2 * (Fintype.card ι - 1) := by
    unfold State.writes total
    rw [← Finset.add_sum_erase _ _ (Finset.mem_univ i)]
    have hsum := Finset.sum_le_card_nsmul (Finset.univ.erase i) (fun j => (t.calls j).writes) 2
      fun j _ => (t.calls j).writes_le
    rw [Finset.card_erase_of_mem (Finset.mem_univ i), Finset.card_univ, smul_eq_mul,
      Nat.mul_comm] at hsum
    omega
  unfold State.due at hpaid hfirst
  omega

/-- One call takes its permit between the load and the compare-exchange of
    the other. -/
def overtakenAcquire : List (Label (Fin 2) ℕ ℕ) :=
  [.step 0 .call, .step 0 .rateAcquired, .step 1 .call, .step 1 .rateAcquired,
    .acquire 0 false, .acquire 1 false, .acquire 1 false, .acquire 0 false, .acquire 0 false]

theorem overtakenAcquire_steps :
    ∃ t : State (Fin 2) ℕ ℕ, (system (Fin 2) ℕ ℕ 2).Run overtakenAcquire t ∧
      t.sem.permits = 0 ∧ overtakenAcquire.countP (isAcquire 0) = 3 ∧
      overtakenAcquire.countP (isAcquire 0) ≤
        2 + 2 * System.tally next (refused 0) (initial (Fin 2) ℕ ℕ 2) overtakenAcquire +
          overtakenAcquire.countP (isSpurious 0) + 2 * (Fintype.card (Fin 2) - 1) := by
  have hends : (System.exec next (initial (Fin 2) ℕ ℕ 2) overtakenAcquire).map
      (fun t => t.sem.permits) = some 0 := by decide
  obtain ⟨t, hrun, hends⟩ := System.exists_run_of_exec hends
  exact ⟨t, hrun, hends, by decide, acquires_le (by decide) hrun 0⟩

end ThrottledLLMClient

end Forge
