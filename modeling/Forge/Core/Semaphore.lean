import Mathlib.Data.Set.Card
import Mathlib.Tactic.Common

/-! # Counting Semaphore

  `Semaphore` (`core/semaphore.h`). `acquire` calls `try_acquire` until
  it succeeds; `try_acquire` loads `permits_` and retries a weak
  compare-exchange while the value it knows is positive. The waiting
  between two attempts has no effect on the state.

  `Accounted` ties the counter to the set of those that hold a permit:
  one acquisition adds a holder, one release by a holder removes it and
  passes the assertion.
-/

namespace Forge

/-- `permits_` and `max_permits_`. -/
structure Semaphore where
  permits : ℤ
  maxPermits : ℤ

namespace Semaphore

/-- The constructor. -/
def new (maxPermits : ℤ) : Semaphore := ⟨maxPermits, maxPermits⟩

/-- Where a call of `acquire` is. -/
inductive AcquirePC where
  /-- `try_acquire`: load `permits_`. -/
  | load
  /-- `try_acquire`: `while (current > 0)` compare-exchange. -/
  | cas (current : ℤ)
  deriving DecidableEq

/-- One step of `acquire`. The second component is `none` when the permit
    is acquired. `weak` lets the compare-exchange fail spuriously. -/
def acquireStep (sem : Semaphore) (weak : Bool) : AcquirePC → Semaphore × Option AcquirePC
  | .load => (sem, some (.cas sem.permits))
  | .cas current =>
      if current > 0 then
        if sem.permits = current ∧ weak = false then
          ({ sem with permits := current - 1 }, none)
        else
          -- a failed compare-exchange reloads `current`
          (sem, some (.cas sem.permits))
      else
        -- `try_acquire` returned false: back off and try again
        (sem, some .load)

/-- `try_acquire` is about to return false. -/
def AcquirePC.fails : AcquirePC → Bool
  | .load => false
  | .cas current => current ≤ 0

/-- `release`: the new state, and whether the assertion on the previous
    value holds. -/
def release (sem : Semaphore) : Semaphore × Bool :=
  ({ sem with permits := sem.permits + 1 }, decide (sem.permits < sem.maxPermits))

/-- A step of `acquire` either takes a permit that is there, or changes
    nothing and goes on. -/
theorem acquireStep_cases {sem sem' : Semaphore} {weak : Bool} {pc : AcquirePC}
    {r : Option AcquirePC} (h : sem.acquireStep weak pc = (sem', r)) :
    (r = none ∧ 0 < sem.permits ∧ sem' = { sem with permits := sem.permits - 1 }) ∨
    (sem' = sem ∧ ∃ pc', r = some pc') := by
  cases pc with
  | load =>
    simp only [acquireStep, Prod.mk.injEq] at h
    exact .inr ⟨h.1.symm, _, h.2.symm⟩
  | cas current =>
    unfold acquireStep at h
    by_cases hpos : current > 0
    · by_cases hcas : sem.permits = current ∧ weak = false
      · simp only [hpos, hcas, and_self, if_true, Prod.mk.injEq] at h
        refine .inl ⟨h.2.symm, ?_, ?_⟩
        · omega
        · rw [← h.1, hcas.1]
      · simp only [hpos, hcas, if_true, if_false, Prod.mk.injEq] at h
        exact .inr ⟨h.1.symm, _, h.2.symm⟩
    · simp only [hpos, if_false, Prod.mk.injEq] at h
      exact .inr ⟨h.1.symm, _, h.2.symm⟩

/-! ### Accounting -/

/-- Every permit is in the counter or with one of the `holders`. -/
structure Accounted {ι : Type*} (sem : Semaphore) (holders : Set ι) : Prop where
  finite : holders.Finite
  nonneg : 0 ≤ sem.permits
  balance : sem.permits + holders.ncard = sem.maxPermits

variable {ι : Type*} {sem sem' : Semaphore} {holders : Set ι} {i : ι}

theorem accounted_new {m : ℤ} (hm : 0 ≤ m) : Accounted (new m) (∅ : Set ι) where
  finite := Set.finite_empty
  nonneg := hm
  balance := by simp [new]

theorem Accounted.acquire (h : Accounted sem holders) (hi : i ∉ holders)
    (hpos : 0 < sem.permits) :
    Accounted { sem with permits := sem.permits - 1 } (insert i holders) where
  finite := h.finite.insert i
  nonneg := by
    show 0 ≤ sem.permits - 1
    omega
  balance := by
    have hcard := Set.ncard_insert_of_notMem hi h.finite
    have hbal := h.balance
    show sem.permits - 1 + _ = sem.maxPermits
    omega

/-- A holder may release: the counter was below the maximum. -/
theorem Accounted.release (h : Accounted sem holders) (hi : i ∈ holders) :
    sem.release.2 = true ∧ Accounted sem.release.1 (holders \ {i}) := by
  have hcard := Set.ncard_sdiff_singleton_of_mem hi
  have hpos : 0 < holders.ncard := (Set.ncard_pos h.finite).mpr ⟨i, hi⟩
  have hbal := h.balance
  have hnonneg := h.nonneg
  constructor
  · simp only [Semaphore.release, decide_eq_true_eq]
    omega
  · refine ⟨h.finite.sdiff, ?_, ?_⟩
    · show 0 ≤ sem.permits + 1
      omega
    · show sem.permits + 1 + _ = sem.maxPermits
      omega

theorem Accounted.le_max (h : Accounted sem holders) : sem.permits ≤ sem.maxPermits := by
  have hbal := h.balance
  omega

/-- No more than `max_permits_` hold a permit. -/
theorem Accounted.ncard_le (h : Accounted sem holders) {users : Set ι} (hsub : users ⊆ holders) :
    users.Finite ∧ (users.ncard : ℤ) ≤ sem.maxPermits := by
  have hle := Set.ncard_le_ncard hsub h.finite
  have hbal := h.balance
  have hnonneg := h.nonneg
  exact ⟨h.finite.subset hsub, by omega⟩

/-- All permits are back exactly when nobody holds one. -/
theorem Accounted.full_iff (h : Accounted sem holders) :
    sem.permits = sem.maxPermits ↔ holders = ∅ := by
  have hbal := h.balance
  rw [← Set.ncard_eq_zero h.finite]
  omega

/-! ### Holders by Their Records

  Whether a thread holds a permit is read off its record, and a step
  changes one record. -/

section Records

variable {α : Type*} [DecidableEq ι] {records : ι → α} {holds : α → Bool} {a : α}

/-- The record changes and holds as before. -/
theorem Accounted.update (h : Accounted sem {j | holds (records j)})
    (ha : holds a = holds (records i)) :
    Accounted sem {j | holds (Function.update records i a j)} := by
  have hsame : {j | holds (Function.update records i a j)} = {j | holds (records j)} := by
    ext j
    by_cases hj : j = i
    · subst hj
      simp [ha]
    · simp [hj]
  rw [hsame]
  exact h

/-- The thread takes a permit. -/
theorem Accounted.update_acquire (h : Accounted sem {j | holds (records j)})
    (hi : holds (records i) = false) (ha : holds a = true) (hpos : 0 < sem.permits) :
    Accounted { sem with permits := sem.permits - 1 }
      {j | holds (Function.update records i a j)} := by
  have hinsert : {j | holds (Function.update records i a j)} =
      insert i {j | holds (records j)} := by
    ext j
    by_cases hj : j = i
    · subst hj
      simp [ha]
    · simp [hj]
  rw [hinsert]
  exact h.acquire (by simp [hi]) hpos

/-- The thread gives its permit back. -/
theorem Accounted.update_release (h : Accounted sem {j | holds (records j)})
    (hi : holds (records i) = true) (ha : holds a = false) :
    sem.release.2 = true ∧
      Accounted sem.release.1 {j | holds (Function.update records i a j)} := by
  have hremove : {j | holds (Function.update records i a j)} =
      {j | holds (records j)} \ {i} := by
    ext j
    by_cases hj : j = i
    · subst hj
      simp [ha]
    · simp [hj]
  rw [hremove]
  exact h.release (show i ∈ {j | holds (records j)} from hi)

end Records

end Semaphore

end Forge
