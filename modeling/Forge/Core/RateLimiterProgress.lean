import Forge.Core.RateLimiterBucket
import Forge.Core.RateLimiterSolo
import Forge.Framework.Contention

/-! # The Token Bucket — Progress

  `RateLimiter::try_acquire` (`core/rate_limiter.h`) has three loops, and
  a call goes round one of them again only when its compare-exchange has
  failed. A compare-exchange that does not fail spuriously fails because
  another call has written the atomic since it was loaded, and a call
  writes three times at most:

  - `access_left`: what an access of a call leaves it to do;
  - `stale_le`: only the writes of the others make what it knows stale;
  - `accesses_le`: the accesses of a call, in any run.
-/

namespace Forge

open LTS

namespace RateLimiter

variable {A : Arithmetic} {start : ℤ} {s s' : State} {tr : List Label} {l : Label} {i : ℕ}
  {c : Call} {weak : Bool}

/-- The value to compare with is no longer there. -/
def PC.stale (s : State) : PC → ℕ
  | .claim _ prev _ => if prev = s.lastRefill then 0 else 1
  | .credit _ _ current | .take current => if current = s.tokens then 0 else 1
  | _ => 0

/-- The writes of a call up to here, at most. -/
def PC.writes : PC → ℕ
  | .readClock | .loadPrev _ | .claim _ _ _ => 0
  | .loadTokens _ _ | .credit _ _ _ => 1
  | .loadCurrent | .take _ => 2
  | .done _ => 3

theorem PC.writes_le (pc : PC) : pc.writes ≤ 3 := by
  cases pc <;> simp [PC.writes]

theorem PC.stale_le_one (s : State) (pc : PC) : pc.stale s ≤ 1 := by
  cases pc <;> simp only [PC.stale] <;> (try split) <;> omega

/-- The window that has just been read. -/
theorem attempt_left (s : State) (now : ℤ) :
    (attempt now s.lastRefill).left + (attempt now s.lastRefill).stale s ≤ 5 := by
  unfold attempt
  split <;> simp [PC.left, PC.stale]

theorem claimed_left (A : Arithmetic) (s : State) (now prev elapsed : ℤ) :
    (claimed A now prev elapsed).left + (claimed A now prev elapsed).stale s ≤ 4 := by
  unfold claimed
  split <;> simp [PC.left, PC.stale]

/-! ### One Access -/

/-- **An access of the call itself** leaves it less to do, unless its
    compare-exchange has been let to fail. -/
theorem access_left (h : callStep A s i c weak = some s') :
    ∃ pc, s'.calls = s.calls.set i { c with pc := pc } ∧
      1 + pc.left + pc.stale s' ≤ c.pc.left + c.pc.stale s + weak.toNat := by
  unfold callStep at h
  cases hpc : c.pc with
  | readClock =>
    simp only [hpc, Option.some.injEq] at h
    subst h
    exact ⟨_, rfl, by simp [PC.left, PC.stale]⟩
  | loadPrev now =>
    simp only [hpc, Option.some.injEq] at h
    subst h
    have hwindow := attempt_left s now
    refine ⟨_, rfl, ?_⟩
    show 1 + (attempt now s.lastRefill).left + (attempt now s.lastRefill).stale s ≤
      6 + 0 + weak.toNat
    omega
  | claim now prev elapsed =>
    simp only [hpc] at h
    split at h
    · obtain rfl := Option.some.inj h
      have hclaimed := claimed_left A ((s.claimWindow now).setPC i c
        (claimed A now prev elapsed)) now prev elapsed
      refine ⟨_, rfl, ?_⟩
      have hleft : (PC.claim now prev elapsed).left = 5 := rfl
      omega
    · next hlost =>
      obtain rfl := Option.some.inj h
      have hwindow := attempt_left s now
      refine ⟨_, rfl, ?_⟩
      show 1 + (attempt now s.lastRefill).left + (attempt now s.lastRefill).stale s ≤ 5 + _ + _
      -- lost to a write, or let to fail
      have hwhy : 1 ≤ (PC.claim now prev elapsed).stale s + weak.toNat := by
        cases weak
        · simp only [and_true] at hlost
          simp [PC.stale, Ne.symm hlost]
        · simp
      omega
  | loadTokens w n =>
    simp only [hpc, Option.some.injEq] at h
    subst h
    exact ⟨_, rfl, by simp [PC.left, PC.stale, State.setPC]⟩
  | credit w n current =>
    simp only [hpc] at h
    split at h
    · obtain rfl := Option.some.inj h
      refine ⟨_, rfl, ?_⟩
      simp only [PC.left, PC.stale]
      omega
    · next hlost =>
      obtain rfl := Option.some.inj h
      refine ⟨_, rfl, ?_⟩
      have hwhy : 1 ≤ (PC.credit w n current).stale s + weak.toNat := by
        cases weak
        · simp only [and_true] at hlost
          simp [PC.stale, Ne.symm hlost]
        · simp
      have hfresh : (PC.credit w n s.tokens).stale (s.setPC i c (.credit w n s.tokens)) = 0 :=
        if_pos rfl
      simp only [PC.left, hfresh]
      omega
  | loadCurrent =>
    simp only [hpc, Option.some.injEq] at h
    subst h
    exact ⟨_, rfl, by simp [PC.left, PC.stale, State.setPC]⟩
  | take current =>
    simp only [hpc] at h
    split at h
    · obtain rfl := Option.some.inj h
      refine ⟨_, rfl, ?_⟩
      simp only [PC.left, PC.stale]
      omega
    · split at h
      · obtain rfl := Option.some.inj h
        refine ⟨_, rfl, ?_⟩
        simp only [PC.left, PC.stale]
        omega
      · next hlost =>
        obtain rfl := Option.some.inj h
        refine ⟨_, rfl, ?_⟩
        have hwhy : 1 ≤ (PC.take current).stale s + weak.toNat := by
          cases weak
          · simp only [and_true] at hlost
            simp [PC.stale, Ne.symm hlost]
          · simp
        have hfresh : (PC.take s.tokens).stale (s.setPC i c (.take s.tokens)) = 0 := if_pos rfl
        simp only [PC.left, hfresh]
        omega
  | done result => simp [hpc] at h

/-- What a call knows is as stale as before when the atomics are as before. -/
theorem PC.stale_congr (ht : s'.tokens = s.tokens) (hr : s'.lastRefill = s.lastRefill) (pc : PC) :
    pc.stale s' = pc.stale s := by
  cases pc <;> simp only [PC.stale, ht, hr]

/-- **An access of another call** makes what this one knows stale only if
    it writes. -/
theorem stale_le (hs : Moves A s (.step i weak) s') (hc : s.calls[i]? = some c) :
    ∃ pc, s'.calls = s.calls.set i { c with pc := pc } ∧
      ∀ other : PC, other.stale s' + c.pc.writes ≤ other.stale s + pc.writes := by
  -- a write costs the others one, and is counted
  have hwrite : ∀ pc : PC, c.pc.writes < pc.writes → ∀ s' : State, ∀ other : PC,
      other.stale s' + c.pc.writes ≤ other.stale s + pc.writes := by
    intro pc hlt s' other
    have hone := other.stale_le_one s'
    omega
  cases hs with
  | @quiet _ c' pc _ hc' hq =>
    obtain rfl : c' = c := Option.some.inj (hc'.symm.trans hc)
    refine ⟨pc, rfl, ?_⟩
    intro other
    have hsame : other.stale (s.setPC i c' pc) = other.stale s := PC.stale_congr rfl rfl other
    have hmono : c'.pc.writes ≤ pc.writes := by
      generalize c'.pc = pc₀ at hq
      cases hq <;> simp [PC.writes]
    omega
  | @claim _ c' now elapsed hc' hpc =>
    obtain rfl : c' = c := Option.some.inj (hc'.symm.trans hc)
    refine ⟨_, rfl, hwrite _ ?_ _⟩
    unfold claimed
    split <;> simp [hpc, PC.writes]
  | @credit _ c' w n hc' hpc =>
    obtain rfl : c' = c := Option.some.inj (hc'.symm.trans hc)
    exact ⟨_, rfl, hwrite _ (by simp [hpc, PC.writes]) _⟩
  | @take _ c' hc' hpc hle =>
    obtain rfl : c' = c := Option.some.inj (hc'.symm.trans hc)
    exact ⟨_, rfl, hwrite _ (by simp [hpc, PC.writes]) _⟩

/-! ### Whole Runs -/

/-- `l` is an access of call `i`. -/
def isAccess (i : ℕ) : Label → Bool
  | .step j _ => j = i
  | _ => false

/-- `l` is an access of call `i` whose compare-exchange may fail without
    a reason. -/
def isSpurious (i : ℕ) : Label → Bool
  | .step j weak => j = i && weak
  | _ => false

/-- What call `i` has left to do, with the retry it is in for, and the
    writes it has made. -/
def State.due (s : State) (i : ℕ) : ℕ :=
  (s.calls[i]?).elim 7 fun c => c.pc.left + c.pc.stale s + c.pc.writes

/-- The writes of all calls, at most. -/
def State.writes (s : State) : ℕ := listTotal (fun c => c.pc.writes) s.calls

theorem due_of_get (hc : s.calls[i]? = some c) :
    s.due i = c.pc.left + c.pc.stale s + c.pc.writes := by
  simp [State.due, hc]

theorem due_congr (hget : s'.calls[i]? = s.calls[i]?) (ht : s'.tokens = s.tokens)
    (hr : s'.lastRefill = s.lastRefill) : s'.due i = s.due i := by
  unfold State.due
  rw [hget]
  cases s.calls[i]? with
  | none => rfl
  | some c => simp [PC.stale_congr ht hr]

/-- A call that begins has seven accesses to make. -/
theorem due_call (s : State) (amount : ℚ≥0) (i : ℕ) :
    State.due { s with calls := s.calls ++ [⟨amount, .readClock⟩] } i = s.due i := by
  by_cases hi : i = s.calls.length
  · subst hi
    simp [State.due, PC.left, PC.stale, PC.writes]
  · refine due_congr ?_ rfl rfl
    obtain hlt | hgt := Nat.lt_or_gt_of_ne hi
    · exact List.getElem?_append_left hlt
    · rw [List.getElem?_eq_none (le_of_lt hgt), List.getElem?_eq_none (by simp; omega)]

/-- **Every access is paid for**: by what the call has left to do, by a
    write of another call, or by a spurious failure. -/
theorem access_paid (i : ℕ) (h : next A s l = some s') :
    (isAccess i l).toNat + s'.due i + s.writes ≤ s.due i + s'.writes + (isSpurious i l).toNat := by
  cases l with
  | tick d =>
    obtain rfl := Option.some.inj h
    have hdue : State.due { s with clock := s.clock + d } i = s.due i := due_congr rfl rfl rfl
    simp only [isAccess, isSpurious, hdue, State.writes, Bool.toNat_false]
    omega
  | call amount =>
    obtain rfl := Option.some.inj h
    have hwrites : State.writes { s with calls := s.calls ++ [⟨amount, .readClock⟩] } =
        s.writes := by
      simp [State.writes, listTotal, PC.writes]
    simp only [isAccess, isSpurious, due_call, hwrites, Bool.toNat_false]
    omega
  | step j weak =>
    obtain ⟨c, hc, hstep⟩ := Option.bind_eq_some_iff.mp h
    obtain ⟨pc, hcalls, hstale⟩ := stale_le (moves_of_callStep hc hstep) hc
    have htotal : s'.writes + c.pc.writes = s.writes + pc.writes := by
      have hset := listTotal_set (fun c => c.pc.writes) hc ({ c with pc := pc } : Call)
      rwa [← hcalls] at hset
    have hj : j < s.calls.length := (List.getElem?_eq_some_iff.mp hc).1
    by_cases hij : j = i
    · subst hij
      obtain ⟨pc', hcalls', hleft⟩ := access_left hstep
      have hget : s'.calls[j]? = some { c with pc := pc } := by
        rw [hcalls, List.getElem?_set_self hj]
      have hsame : pc' = pc := by
        rw [hcalls', List.getElem?_set_self hj] at hget
        simpa using hget
      subst hsame
      rw [due_of_get hc, due_of_get hget]
      simp only [isAccess, isSpurious, decide_true, Bool.true_and, Bool.toNat_true]
      omega
    · have hget : s'.calls[i]? = s.calls[i]? := by
        rw [hcalls, List.getElem?_set_ne hij]
      have hdue : s'.due i + c.pc.writes ≤ s.due i + pc.writes := by
        unfold State.due
        rw [hget]
        cases s.calls[i]? with
        | none =>
          have hmono := hstale .readClock
          simp only [PC.stale, Option.elim_none] at hmono ⊢
          omega
        | some d =>
          have hother := hstale d.pc
          simp only [Option.elim_some]
          omega
      simp only [isAccess, isSpurious, hij, decide_false, Bool.false_and, Bool.toNat_false]
      omega

/-- The writes of the other calls, three for each. -/
theorem writes_le (s : State) (i : ℕ) : s.writes ≤ s.due i + 3 * (s.calls.length - 1) := by
  have hbound : ∀ l : List Call, listTotal (fun c => c.pc.writes) l ≤ 3 * l.length := by
    intro l
    have hsum := List.sum_le_card_nsmul (l.map fun c => c.pc.writes) 3 (by
      intro n hn
      obtain ⟨c, -, rfl⟩ := List.mem_map.mp hn
      exact c.pc.writes_le)
    simpa [listTotal, Nat.mul_comm] using hsum
  by_cases hi : i < s.calls.length
  · have hperm := (List.getElem_cons_eraseIdx_perm hi).map fun c : Call => c.pc.writes
    have hsum : s.writes = s.calls[i].pc.writes +
        listTotal (fun c => c.pc.writes) (s.calls.eraseIdx i) := hperm.sum_eq.symm
    have hrest := hbound (s.calls.eraseIdx i)
    rw [List.length_eraseIdx_of_lt hi] at hrest
    rw [due_of_get (List.getElem?_eq_getElem hi)]
    omega
  · have hdue : s.due i = 7 := by
      simp [State.due, List.getElem?_eq_none (not_lt.mp hi)]
    have hall := hbound s.calls
    have heq : s.writes = listTotal (fun c => c.pc.writes) s.calls := rfl
    omega

/-- **A call of `try_acquire` is held up by the others three times each.**
    Apart from spurious failures it makes seven accesses, and three more at
    most for every other call there has been. -/
theorem accesses_le (hrun : (system A start).Run tr s) (i : ℕ) :
    tr.countP (isAccess i) ≤ 7 + 3 * (s.calls.length - 1) + tr.countP (isSpurious i) := by
  have hstep : ∀ s l s', (system A start).Reachable s → next A s l = some s' →
      ((isAccess i l).toNat : ℤ) + ((s'.due i : ℤ) - s'.writes) ≤
        ((s.due i : ℤ) - s.writes) + (isSpurious i l).toNat := by
    intro s l s' _ h
    have hone := access_paid i h
    omega
  have hpaid := hrun.tally_le (fun s => (s.due i : ℤ) - s.writes) hstep
  rw [hrun.tally_label, hrun.tally_label] at hpaid
  have hfirst : (initial A start).due i = 7 := rfl
  have hnone : (initial A start).writes = 0 := rfl
  have hothers := writes_le s i
  omega

/-- One call takes the only token between the load and the
    compare-exchange of the other. -/
def overtaken : List Label :=
  List.flatten
    [[.call 1, .call 1], .replicate 3 (.step 0 false), .replicate 4 (.step 1 false),
      .replicate 2 (.step 0 false)]

theorem overtaken_accesses :
    ∃ s, (system onePerSecond 0).Run overtaken s ∧ s.calls.length = 2 ∧
      overtaken.countP (isAccess 0) = 5 ∧
      overtaken.countP (isAccess 0) ≤
        7 + 3 * (s.calls.length - 1) + overtaken.countP (isSpurious 0) := by
  have hexec : (System.exec (next onePerSecond) (initial onePerSecond 0) overtaken).map
      (fun s => s.calls.length) = some 2 := by decide +kernel
  obtain ⟨s, hrun, hs⟩ := System.exists_run_of_exec hexec
  exact ⟨s, hrun, hs, by decide, accesses_le hrun 0⟩

end RateLimiter

end Forge
