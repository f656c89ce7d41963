import Forge.Framework.System
import Forge.Tools.ToolExecutor
import Mathlib.Data.Int.Init

/-! # Tool Executor — A Batch, Step by Step

  `ToolExecutor::execute_batch` (`tools/tool_executor.h`) with the clock
  and the handlers it runs beside: all known tools are submitted first,
  then the results are collected in order with `Future::wait_for`
  (`core/future.h`). A handler may end at any moment and in any way.

  - `execute`: the path of a single call;
  - `next`, `system`: the batch;
  - `Moves`, `Inv`: what a step can do, and what every state keeps;
  - `State.outcome`: how a call has ended by the clock, its handler and the
    timeout of its tool;
  - `can_end`: the collector is never stuck, whatever the handlers do;
  - `batch_correct_iff`: when the results are what they should be.
-/

namespace Forge

open LTS

namespace ToolBatch

/-! ### A Single Call -/

/-- `ToolExecutor::execute`, given what `wait_for` sees of the handler;
    `none` when an exception leaves it. -/
def execute (r : ToolRegistry) (call : ToolCall) (o : ToolOutcome) : Option ToolResult :=
  if ¬r.has call.name then some ⟨call.id, "Unknown tool: " ++ call.name, true⟩
  else
    match o with
    | .timeout => some ⟨call.id, "Tool timed out", true⟩
    | .output s => some ⟨call.id, s, false⟩
    | .stdException what => some ⟨call.id, "Tool error: " ++ what, true⟩
    | .otherException => none

/-- The two paths agree on one call. -/
theorem execute_eq_collect (r : ToolRegistry) (call : ToolCall) (o : ToolOutcome) :
    execute r call o = collect r call o := by
  unfold execute collect
  by_cases hknown : r.has call.name
  · rw [if_neg (not_not.mpr hknown), if_pos hknown]
    cases o <;> rfl
  · rw [if_pos hknown, if_neg hknown]

/-! ### State -/

/-- How the call of a handler ends. -/
inductive HandlerEnd where
  | returned (output : String)
  /-- It threw a `std::exception`. -/
  | threwStd (what : String)
  /-- It threw something else. -/
  | threwOther
  deriving DecidableEq

/-- The future is not valid, not ready, or ready. -/
structure PendingCall where
  callId : String
  name : String
  future : Option (Option HandlerEnd)
  timeout : ℤ
  deriving DecidableEq

/-- Where `execute_batch` is. -/
inductive PC where
  /-- The first loop, at `calls[i]`. -/
  | launch (i : ℕ)
  /-- The second loop, at `pending[i]`. -/
  | collect (i : ℕ)
  /-- `wait_for`: load `ready_`. -/
  | loadReady (i : ℕ) (deadline : ℤ)
  /-- `wait_for`: compare the clock with the deadline. -/
  | checkClock (i : ℕ) (deadline : ℤ)
  | returned
  /-- An exception has left `execute_batch`. -/
  | escaped
  deriving DecidableEq

def PC.over : PC → Bool
  | .returned | .escaped => true
  | _ => false

def HandlerEnd.outcome : HandlerEnd → ToolOutcome
  | .returned output => .output output
  | .threwStd what => .stdException what
  | .threwOther => .otherException

structure State where
  clock : ℤ
  pending : List PendingCall
  results : List ToolResult
  pc : PC
  /-- History: when the handler of a call ended. -/
  endedAt : ℕ → ℤ
  /-- History: when the wait for a call began. -/
  waitedFrom : ℕ → ℤ

def initial (start : ℤ) : State := ⟨start, [], [], .launch 0, fun _ => start, fun _ => start⟩

/-- The clock goes on, a handler ends, or `execute_batch` takes a step. -/
inductive Label where
  | tick (elapsed : ℕ)
  | finish (i : ℕ) (e : HandlerEnd)
  | main
  deriving DecidableEq

/-! ### Steps -/

/-- `pending.push_back` for one call. -/
def launched (r : ToolRegistry) (timeout : String → ℤ) (call : ToolCall) : PendingCall :=
  if r.has call.name then ⟨call.id, call.name, some none, timeout call.name⟩
  else ⟨call.id, call.name, none, 0⟩

/-- `results.push_back`. -/
def State.record (s : State) (i : ℕ) (tr : ToolResult) : State :=
  { s with results := s.results ++ [tr], pc := .collect (i + 1) }

/-- `wait_for` has returned the value, or rethrown the exception. -/
def State.ready (s : State) (i : ℕ) (p : PendingCall) : HandlerEnd → State
  | .returned output => s.record i ⟨p.callId, output, false⟩
  | .threwStd what => s.record i ⟨p.callId, "Tool error: " ++ what, true⟩
  -- not a `std::exception`: no handler in `execute_batch`
  | .threwOther => { s with pc := .escaped }

/-- The next step of `execute_batch`. -/
def mainStep (r : ToolRegistry) (timeout : String → ℤ) (calls : List ToolCall) (s : State) :
    Option State :=
  match s.pc with
  | .launch i =>
      match calls[i]? with
      | none => some { s with pc := .collect 0 }
      | some call =>
          some { s with pending := s.pending ++ [launched r timeout call], pc := .launch (i + 1) }
  | .collect i =>
      match s.pending[i]? with
      | none => some { s with pc := .returned }
      | some p =>
          match p.future with
          | none => some (s.record i ⟨p.callId, "Unknown tool: " ++ p.name, true⟩)
          | some _ =>
              some { s with
                pc := .loadReady i (s.clock + p.timeout)
                waitedFrom := Function.update s.waitedFrom i s.clock }
  | .loadReady i deadline =>
      s.pending[i]?.bind fun p =>
        match p.future with
        | some (some e) => some (s.ready i p e)
        | _ => some { s with pc := .checkClock i deadline }
  | .checkClock i deadline =>
      s.pending[i]?.bind fun p =>
        if s.clock ≥ deadline then some (s.record i ⟨p.callId, "Tool timed out", true⟩)
        else some { s with pc := .loadReady i deadline }
  | .returned | .escaped => none

/-- The step function. A future that is ready stays as it is. -/
def next (r : ToolRegistry) (timeout : String → ℤ) (calls : List ToolCall) (s : State) :
    Label → Option State
  | .tick elapsed => some { s with clock := s.clock + elapsed }
  | .finish i e =>
      s.pending[i]?.bind fun p =>
        if p.future = some none then
          some { s with
            pending := s.pending.set i { p with future := some (some e) }
            endedAt := Function.update s.endedAt i s.clock }
        else none
  | .main => mainStep r timeout calls s

/-- A batch that begins at the time `start`; `timeout` gives the timeout of
    a tool, in the unit of the clock. -/
def system (r : ToolRegistry) (timeout : String → ℤ) (calls : List ToolCall) (start : ℤ) :
    System State Label := .ofNext (initial start) (next r timeout calls)

variable {r : ToolRegistry} {timeout : String → ℤ} {calls : List ToolCall} {s s' : State}
  {l : Label}

/-! ### What One Step Does -/

/-- The steps. -/
inductive Moves (r : ToolRegistry) (timeout : String → ℤ) (calls : List ToolCall) (s : State) :
    Label → State → Prop where
  | tick (elapsed : ℕ) :
      Moves r timeout calls s (.tick elapsed) { s with clock := s.clock + elapsed }
  | finish {i : ℕ} {p : PendingCall} (e : HandlerEnd) : s.pending[i]? = some p →
      p.future = some none →
      Moves r timeout calls s (.finish i e)
        { s with
          pending := s.pending.set i { p with future := some (some e) }
          endedAt := Function.update s.endedAt i s.clock }
  | launch {i : ℕ} {call : ToolCall} : s.pc = .launch i → calls[i]? = some call →
      Moves r timeout calls s .main
        { s with pending := s.pending ++ [launched r timeout call], pc := .launch (i + 1) }
  | launchEnd {i : ℕ} : s.pc = .launch i → calls[i]? = none →
      Moves r timeout calls s .main { s with pc := .collect 0 }
  | collectEnd {i : ℕ} : s.pc = .collect i → s.pending[i]? = none →
      Moves r timeout calls s .main { s with pc := .returned }
  | unknown {i : ℕ} {p : PendingCall} : s.pc = .collect i → s.pending[i]? = some p →
      p.future = none →
      Moves r timeout calls s .main
        (s.record i ⟨p.callId, "Unknown tool: " ++ p.name, true⟩)
  | wait {i : ℕ} {p : PendingCall} : s.pc = .collect i → s.pending[i]? = some p →
      p.future.isSome →
      Moves r timeout calls s .main
        { s with
          pc := .loadReady i (s.clock + p.timeout)
          waitedFrom := Function.update s.waitedFrom i s.clock }
  | ready {i : ℕ} {deadline : ℤ} {p : PendingCall} {e : HandlerEnd} :
      s.pc = .loadReady i deadline → s.pending[i]? = some p → p.future = some (some e) →
      Moves r timeout calls s .main (s.ready i p e)
  | notReady {i : ℕ} {deadline : ℤ} {p : PendingCall} :
      s.pc = .loadReady i deadline → s.pending[i]? = some p → (∀ e, p.future ≠ some (some e)) →
      Moves r timeout calls s .main { s with pc := .checkClock i deadline }
  | timedOut {i : ℕ} {deadline : ℤ} {p : PendingCall} :
      s.pc = .checkClock i deadline → s.pending[i]? = some p → deadline ≤ s.clock →
      Moves r timeout calls s .main (s.record i ⟨p.callId, "Tool timed out", true⟩)
  | again {i : ℕ} {deadline : ℤ} {p : PendingCall} :
      s.pc = .checkClock i deadline → s.pending[i]? = some p → s.clock < deadline →
      Moves r timeout calls s .main { s with pc := .loadReady i deadline }

theorem moves_of_mainStep (h : mainStep r timeout calls s = some s') :
    Moves r timeout calls s .main s' := by
  unfold mainStep at h
  cases hpc : s.pc with
  | launch i =>
    simp only [hpc] at h
    cases hcall : calls[i]? with
    | none =>
      simp only [hcall, Option.some.injEq] at h
      exact h ▸ .launchEnd hpc hcall
    | some call =>
      simp only [hcall, Option.some.injEq] at h
      exact h ▸ .launch hpc hcall
  | collect i =>
    simp only [hpc] at h
    cases hp : s.pending[i]? with
    | none =>
      simp only [hp, Option.some.injEq] at h
      exact h ▸ .collectEnd hpc hp
    | some p =>
      cases hf : p.future with
      | none =>
        simp only [hp, hf, Option.some.injEq] at h
        exact h ▸ .unknown hpc hp hf
      | some state =>
        simp only [hp, hf, Option.some.injEq] at h
        exact h ▸ .wait hpc hp (by rw [hf]; rfl)
  | loadReady i deadline =>
    simp only [hpc] at h
    obtain ⟨p, hp, hstep⟩ := Option.bind_eq_some_iff.mp h
    split at hstep
    · next e hf => exact Option.some.inj hstep ▸ .ready hpc hp hf
    · next hrunning => exact Option.some.inj hstep ▸ .notReady hpc hp fun e he => hrunning e he
  | checkClock i deadline =>
    simp only [hpc] at h
    obtain ⟨p, hp, hstep⟩ := Option.bind_eq_some_iff.mp h
    split at hstep
    · next hlate => exact Option.some.inj hstep ▸ .timedOut hpc hp hlate
    · next hearly => exact Option.some.inj hstep ▸ .again hpc hp (Int.not_le.mp hearly)
  | returned | escaped => simp [hpc] at h

theorem moves_of_next (h : next r timeout calls s l = some s') : Moves r timeout calls s l s' := by
  cases l with
  | tick elapsed =>
    rw [← Option.some.inj h]
    exact .tick elapsed
  | finish i e =>
    obtain ⟨p, hp, hstep⟩ := Option.bind_eq_some_iff.mp h
    obtain ⟨hrunning, hstep⟩ := Option.ite_none_right_eq_some.mp hstep
    rw [← Option.some.inj hstep]
    exact .finish e hp hrunning
  | main => exact moves_of_mainStep h

/-! ### Outcomes by the Clock -/

/-- When the call at `j` times out: the timeout of its tool, counted from
    where the wait for the call began. -/
def State.deadline (s : State) (timeout : String → ℤ) (j : ℕ) (call : ToolCall) : ℤ :=
  s.waitedFrom j + timeout call.name

/-- How the call at `j` of a known tool has ended: as its handler has, when
    that ended before the deadline, and by a timeout when the deadline has
    passed without. `none` before that. -/
def State.outcome (s : State) (timeout : String → ℤ) (j : ℕ) (call : ToolCall) :
    Option ToolOutcome :=
  match s.pending[j]?.bind PendingCall.future with
  | some (some e) =>
      if s.endedAt j < s.deadline timeout j call then some e.outcome else some .timeout
  | _ => if s.deadline timeout j call ≤ s.clock then some .timeout else none

/-- The result of the call at `j`: what `execute` gives for its outcome. -/
def State.expected (s : State) (r : ToolRegistry) (timeout : String → ℤ) (j : ℕ)
    (call : ToolCall) : Option ToolResult :=
  if r.has call.name then (s.outcome timeout j call).bind (execute r call)
  else some ⟨call.id, "Unknown tool: " ++ call.name, true⟩

variable {call : ToolCall} {p : PendingCall} {tr : ToolResult} {i j : ℕ}

/-- The handler has ended. -/
theorem State.outcome_of_ended {e : HandlerEnd} (hp : s.pending[j]? = some p)
    (hf : p.future = some (some e)) : s.outcome timeout j call =
      if s.endedAt j < s.deadline timeout j call then some e.outcome else some .timeout := by
  simp only [State.outcome, hp, Option.bind_some, hf]

/-- The handler is running. -/
theorem State.outcome_of_running (hnot : ∀ p e, s.pending[j]? = some p → p.future ≠ some (some e)) :
    s.outcome timeout j call =
      if s.deadline timeout j call ≤ s.clock then some .timeout else none := by
  unfold State.outcome
  split
  · next e hf =>
    obtain ⟨p, hp, hf⟩ := Option.bind_eq_some_iff.mp hf
    exact absurd hf (hnot p e hp)
  · rfl

theorem State.outcome_congr (hpending : s'.pending[j]? = s.pending[j]?)
    (hended : s'.endedAt j = s.endedAt j) (hwaited : s'.waitedFrom j = s.waitedFrom j)
    (hclock : s'.clock = s.clock) : s'.outcome timeout j call = s.outcome timeout j call := by
  unfold State.outcome State.deadline
  rw [hpending, hended, hwaited, hclock]

theorem execute_unknown (hunknown : r.has call.name = false) (o : ToolOutcome) :
    execute r call o = some ⟨call.id, "Unknown tool: " ++ call.name, true⟩ := by
  simp [execute, hunknown]

theorem execute_timeout (hknown : r.has call.name = true) :
    execute r call .timeout = some ⟨call.id, "Tool timed out", true⟩ := by
  simp [execute, hknown]

/-- Only a timeout reads as one. -/
theorem execute_outcome_ne (hknown : r.has call.name = true) (e : HandlerEnd) :
    execute r call e.outcome ≠ some ⟨call.id, "Tool timed out", true⟩ := by
  cases e with
  | returned output => simp [execute, hknown, HandlerEnd.outcome]
  | threwOther => simp [execute, hknown, HandlerEnd.outcome]
  | threwStd what =>
    -- the texts differ behind `Tool `
    intro h
    simp only [execute, hknown, HandlerEnd.outcome, not_true_eq_false, if_false,
      Option.some.injEq, ToolResult.mk.injEq, and_true, true_and] at h
    have hchars := congrArg (fun text => text.toList[5]?) h
    simp at hchars

/-! ### Invariant -/

/-- A pending call belongs to its call. -/
structure Matches (r : ToolRegistry) (timeout : String → ℤ) (call : ToolCall) (p : PendingCall) :
    Prop where
  callId : p.callId = call.id
  name : p.name = call.name
  future : p.future.isSome = r.has call.name
  timeout : p.future.isSome → p.timeout = timeout call.name

theorem launched_matches (r : ToolRegistry) (timeout : String → ℤ) (call : ToolCall) :
    Matches r timeout call (launched r timeout call) := by
  unfold launched
  by_cases hknown : r.has call.name
  · rw [if_pos hknown]
    exact ⟨rfl, rfl, hknown.symm, fun _ => rfl⟩
  · rw [if_neg hknown]
    exact ⟨rfl, rfl, (Bool.eq_false_iff.mpr hknown).symm, by simp⟩

/-- What is known of the result at `j`. -/
inductive Entry (r : ToolRegistry) (timeout : String → ℤ) (s : State) (j : ℕ) (call : ToolCall)
    (tr : ToolResult) : Prop where
  | unknown : r.has call.name = false → tr = ⟨call.id, "Unknown tool: " ++ call.name, true⟩ →
      Entry r timeout s j call tr
  | ended {p : PendingCall} {e : HandlerEnd} : r.has call.name = true → s.pending[j]? = some p →
      p.future = some (some e) → execute r call e.outcome = some tr → Entry r timeout s j call tr
  | timedOut : r.has call.name = true → s.deadline timeout j call ≤ s.clock →
      tr = ⟨call.id, "Tool timed out", true⟩ → Entry r timeout s j call tr

/-- It stays known while a handler that has ended and the wait for the call
    are as they were. -/
theorem Entry.mono (h : Entry r timeout s j call tr)
    (hended : ∀ p e, s.pending[j]? = some p → p.future = some (some e) → s'.pending[j]? = some p)
    (hwaited : s'.waitedFrom j = s.waitedFrom j) (hclock : s.clock ≤ s'.clock) :
    Entry r timeout s' j call tr := by
  cases h with
  | unknown hunknown htr => exact .unknown hunknown htr
  | ended hknown hp hf hexec => exact .ended hknown (hended _ _ hp hf) hf hexec
  | timedOut hknown hlate htr =>
    refine .timedOut hknown ?_ htr
    rw [State.deadline, hwaited]
    exact Int.le_trans hlate hclock

/-- How far the batch is. -/
def Progress (calls : List ToolCall) (s : State) : PC → Prop
  | .launch i => s.pending.length = i ∧ i ≤ calls.length ∧ s.results = []
  | .collect i => s.pending.length = calls.length ∧ s.results.length = i ∧ i ≤ calls.length
  | .loadReady i deadline | .checkClock i deadline =>
      s.pending.length = calls.length ∧ s.results.length = i ∧ i < calls.length ∧
        ∀ p, s.pending[i]? = some p → p.future.isSome ∧ deadline = s.waitedFrom i + p.timeout
  | .returned => s.results.length = calls.length
  | .escaped => True

structure Inv (r : ToolRegistry) (timeout : String → ℤ) (calls : List ToolCall) (s : State) :
    Prop where
  progress : Progress calls s s.pc
  /-- The pending calls are the first calls. -/
  pending : ∀ (j : ℕ) (p : PendingCall), s.pending[j]? = some p →
    ∃ call, calls[j]? = some call ∧ Matches r timeout call p
  /-- Every result is that of its call. -/
  results : ∀ (j : ℕ) (tr : ToolResult), s.results[j]? = some tr →
    ∃ call, calls[j]? = some call ∧ Entry r timeout s j call tr

theorem inv_initial (r : ToolRegistry) (timeout : String → ℤ) (calls : List ToolCall) (start : ℤ) :
    Inv r timeout calls (initial start) where
  progress := ⟨rfl, Nat.zero_le _, rfl⟩
  pending := by simp [initial]
  results := by simp [initial]

/-- Only where the collector is has changed. -/
theorem Inv.setPC (hi : Inv r timeout calls s) {pc : PC} (hpc : Progress calls s pc) :
    Inv r timeout calls { s with pc := pc } where
  progress := by cases pc <;> exact hpc
  pending := hi.pending
  results := by
    intro j tr hj
    obtain ⟨call, hcall, hentry⟩ := hi.results j tr hj
    exact ⟨call, hcall, hentry.mono (fun _ _ hp _ => hp) rfl (Int.le_refl _)⟩

/-- The waiting call, and when it times out. -/
theorem Inv.waiting (hi : Inv r timeout calls s) {deadline : ℤ}
    (hpc : s.pc = .loadReady i deadline ∨ s.pc = .checkClock i deadline)
    (hp : s.pending[i]? = some p) :
    ∃ call, calls[i]? = some call ∧ p.callId = call.id ∧ r.has call.name = true ∧
      deadline = s.deadline timeout i call := by
  have hprogress := hi.progress
  obtain ⟨call, hcall, hmatches⟩ := hi.pending i p hp
  have hwait : p.future.isSome ∧ deadline = s.waitedFrom i + p.timeout := by
    rcases hpc with hpc | hpc <;> rw [hpc] at hprogress <;> exact hprogress.2.2.2 p hp
  refine ⟨call, hcall, hmatches.callId, hmatches.future.symm.trans hwait.1, ?_⟩
  rw [hwait.2, hmatches.timeout hwait.1, State.deadline]

/-- One more result. -/
theorem Inv.record (hi : Inv r timeout calls s) (hlength : s.pending.length = calls.length)
    (hresults : s.results.length = i) (hlt : i < calls.length) (hcall : calls[i]? = some call)
    (hentry : Entry r timeout s i call tr) : Inv r timeout calls (s.record i tr) where
  progress := ⟨hlength, by simp [State.record, hresults], hlt⟩
  pending := hi.pending
  results := by
    intro j tr' hj
    -- the clock, the handlers and the waits are as before
    have hkeeps : ∀ call tr', Entry r timeout s j call tr' →
        Entry r timeout (s.record i tr) j call tr' :=
      fun _ _ hentry => hentry.mono (fun _ _ hp _ => hp) rfl (Int.le_refl _)
    simp only [State.record] at hj
    by_cases hold : j < s.results.length
    · rw [List.getElem?_append_left hold] at hj
      obtain ⟨call', hcall', hentry'⟩ := hi.results j tr' hj
      exact ⟨call', hcall', hkeeps call' tr' hentry'⟩
    · have hlast := (List.getElem?_eq_some_iff.mp hj).1
      rw [List.length_append, List.length_singleton] at hlast
      obtain rfl : j = i := by omega
      rw [List.getElem?_append_right (by omega), hresults, Nat.sub_self] at hj
      obtain rfl : tr = tr' := by simpa using hj
      exact ⟨call, hcall, hkeeps call tr hentry⟩

/-- A handler ends: its future becomes ready. -/
theorem Inv.finish (hi : Inv r timeout calls s) (e : HandlerEnd)
    (hp : s.pending[i]? = some p) (hrunning : p.future = some none) :
    Inv r timeout calls
      { s with
        pending := s.pending.set i { p with future := some (some e) }
        endedAt := Function.update s.endedAt i s.clock } := by
  -- an entry after the change has the same call
  have hold : ∀ (j : ℕ) (q : PendingCall),
      (s.pending.set i { p with future := some (some e) })[j]? = some q →
      s.pending[j]? = some q ∨ j = i ∧ q = { p with future := some (some e) } := by
    intro j q hq
    rw [List.getElem?_set] at hq
    split at hq
    · next hij =>
      subst hij
      split at hq
      · exact .inr ⟨rfl, (Option.some.inj hq).symm⟩
      · exact absurd hq (by simp)
    · exact .inl hq
  refine ⟨?_, ?_, ?_⟩
  · have hprogress := hi.progress
    cases hpc : s.pc with
    | launch j | collect j =>
      rw [hpc] at hprogress
      exact ⟨by rw [List.length_set]; exact hprogress.1, hprogress.2⟩
    | loadReady j deadline | checkClock j deadline =>
      rw [hpc] at hprogress
      obtain ⟨hlength, hresults, hlt, hvalid⟩ := hprogress
      refine ⟨by rw [List.length_set]; exact hlength, hresults, hlt, ?_⟩
      intro q hq
      obtain hsame | ⟨rfl, rfl⟩ := hold j q hq
      · exact hvalid q hsame
      · exact ⟨rfl, (hvalid p hp).2⟩
    | returned =>
      rw [hpc] at hprogress
      exact hprogress
    | escaped => trivial
  · intro j q hq
    obtain hsame | ⟨rfl, rfl⟩ := hold j q hq
    · exact hi.pending j q hsame
    · obtain ⟨call, hcall, hmatches⟩ := hi.pending j p hp
      refine ⟨call, hcall, hmatches.callId, hmatches.name, ?_, fun _ => ?_⟩
      · rw [← hmatches.future, hrunning]
        rfl
      · exact hmatches.timeout (by rw [hrunning]; rfl)
  · intro j tr hj
    obtain ⟨call, hcall, hentry⟩ := hi.results j tr hj
    refine ⟨call, hcall, hentry.mono ?_ rfl (Int.le_refl _)⟩
    intro q e' hq hf
    -- a ready future is not changed
    have hij : i ≠ j := by
      rintro rfl
      obtain rfl : p = q := Option.some.inj (hp.symm.trans hq)
      rw [hrunning] at hf
      exact absurd hf (by simp)
    show (s.pending.set i _)[j]? = some q
    rw [List.getElem?_set_ne hij]
    exact hq

/-- One more call is submitted. -/
theorem Inv.launch (hi : Inv r timeout calls s) (hpc : s.pc = .launch i)
    (hcall : calls[i]? = some call) :
    Inv r timeout calls
      { s with pending := s.pending ++ [launched r timeout call], pc := .launch (i + 1) } := by
  have hprogress := hi.progress
  rw [hpc] at hprogress
  obtain ⟨hlength, -, hnone⟩ := hprogress
  have hlt := (List.getElem?_eq_some_iff.mp hcall).1
  refine ⟨⟨by simp [hlength], hlt, hnone⟩, ?_, by simp [hnone]⟩
  intro j p hp
  by_cases hold : j < s.pending.length
  · rw [List.getElem?_append_left hold] at hp
    exact hi.pending j p hp
  · have hlast := (List.getElem?_eq_some_iff.mp hp).1
    rw [List.length_append, List.length_singleton] at hlast
    obtain rfl : j = i := by omega
    rw [List.getElem?_append_right (by omega), hlength, Nat.sub_self] at hp
    obtain rfl : launched r timeout call = p := by simpa using hp
    exact ⟨call, hcall, launched_matches r timeout call⟩

/-- The wait for a call begins. -/
theorem Inv.wait (hi : Inv r timeout calls s) (hpc : s.pc = .collect i)
    (hp : s.pending[i]? = some p) (hf : p.future.isSome) :
    Inv r timeout calls
      { s with
        pc := .loadReady i (s.clock + p.timeout)
        waitedFrom := Function.update s.waitedFrom i s.clock } := by
  have hprogress := hi.progress
  rw [hpc] at hprogress
  obtain ⟨hlength, hresults, hle⟩ := hprogress
  have hlt := (List.getElem?_eq_some_iff.mp hp).1
  refine ⟨⟨hlength, hresults, by omega, ?_⟩, hi.pending, ?_⟩
  · intro q hq
    obtain rfl : p = q := Option.some.inj (hp.symm.trans hq)
    simp [hf]
  · intro j tr hj
    obtain ⟨call, hcall, hentry⟩ := hi.results j tr hj
    -- the calls that have a result are not waited for again
    have hold : j < s.results.length := (List.getElem?_eq_some_iff.mp hj).1
    have hne : j ≠ i := by omega
    exact ⟨call, hcall,
      hentry.mono (fun _ _ hq _ => hq) (Function.update_of_ne hne _ _) (Int.le_refl _)⟩

/-- **Step of the invariant.** -/
theorem Inv.step (hi : Inv r timeout calls s) (hs : Moves r timeout calls s l s') :
    Inv r timeout calls s' := by
  have hprogress := hi.progress
  cases hs with
  | tick elapsed =>
    refine ⟨?_, hi.pending, ?_⟩
    · revert hprogress
      cases s.pc <;> exact id
    · intro j tr hj
      obtain ⟨call, hcall, hentry⟩ := hi.results j tr hj
      have hclock : s.clock ≤ s.clock + elapsed := by omega
      exact ⟨call, hcall, hentry.mono (fun _ _ hp _ => hp) rfl hclock⟩
  | finish e hp hrunning => exact hi.finish e hp hrunning
  | launch hpc hcall => exact hi.launch hpc hcall
  | @launchEnd i hpc hcall =>
    rw [hpc] at hprogress
    obtain ⟨hlength, hle, hnone⟩ := hprogress
    have hall := List.getElem?_eq_none_iff.mp hcall
    exact hi.setPC ⟨by omega, by simp [hnone], Nat.zero_le _⟩
  | @collectEnd i hpc hp =>
    rw [hpc] at hprogress
    obtain ⟨hlength, hresults, hle⟩ := hprogress
    have hall := List.getElem?_eq_none_iff.mp hp
    have hdone : s.results.length = calls.length := by omega
    exact @Inv.setPC r timeout calls s hi .returned hdone
  | @unknown i p hpc hp hf =>
    rw [hpc] at hprogress
    obtain ⟨hlength, hresults, hle⟩ := hprogress
    obtain ⟨call, hcall, hmatches⟩ := hi.pending i p hp
    have hlt := (List.getElem?_eq_some_iff.mp hcall).1
    have hfuture := hmatches.future
    rw [hf] at hfuture
    exact hi.record hlength hresults hlt hcall
      (.unknown hfuture.symm (by rw [hmatches.callId, hmatches.name]))
  | wait hpc hp hf => exact hi.wait hpc hp hf
  | @ready i deadline p e hpc hp hf =>
    obtain ⟨call, hcall, hid, hknown, -⟩ := hi.waiting (.inl hpc) hp
    rw [hpc] at hprogress
    obtain ⟨hlength, hresults, hlt, -⟩ := hprogress
    cases e with
    | returned output =>
      refine hi.record hlength hresults hlt hcall (.ended hknown hp hf ?_)
      simp [execute, hknown, hid, HandlerEnd.outcome]
    | threwStd what =>
      refine hi.record hlength hresults hlt hcall (.ended hknown hp hf ?_)
      simp [execute, hknown, hid, HandlerEnd.outcome]
    | threwOther => exact @Inv.setPC r timeout calls s hi .escaped trivial
  | notReady hpc hp hrunning =>
    rw [hpc] at hprogress
    exact hi.setPC hprogress
  | @timedOut i deadline p hpc hp hlate =>
    obtain ⟨call, hcall, hid, hknown, hdeadline⟩ := hi.waiting (.inr hpc) hp
    rw [hpc] at hprogress
    obtain ⟨hlength, hresults, hlt, -⟩ := hprogress
    exact hi.record hlength hresults hlt hcall
      (.timedOut hknown (hdeadline ▸ hlate) (by rw [hid]))
  | again hpc hp hearly =>
    rw [hpc] at hprogress
    exact hi.setPC hprogress

/-! ### The Collector Is Never Stuck -/

/-- The steps left, when every wait times out at once. -/
def PC.left (n : ℕ) : PC → ℕ
  | .launch i => (n - i) + 4 * n + 5
  | .collect i => 4 * (n - i) + 4
  | .loadReady i _ => 4 * (n - i) + 3
  | .checkClock i _ => 4 * (n - i) + 2
  | .returned | .escaped => 0

/-- Steps of the clock and of `execute_batch` alone. -/
def Label.own : Label → Bool
  | .finish _ _ => false
  | _ => true

/-- A step of the collector that is not waiting is a step towards the end. -/
theorem mainStep_left (hi : Inv r timeout calls s) (hgoing : s.pc.over = false)
    (hwait : ∀ i deadline, s.pc ≠ .checkClock i deadline) :
    ∃ s', mainStep r timeout calls s = some s' ∧
      s'.pc.left calls.length < s.pc.left calls.length := by
  have hprogress := hi.progress
  cases hpc : s.pc with
  | launch i =>
    rw [hpc] at hprogress
    obtain ⟨-, hle, -⟩ := hprogress
    cases hcall : calls[i]? with
    | none =>
      refine ⟨_, by simp only [mainStep, hpc, hcall]; rfl, ?_⟩
      simp only [PC.left]
      omega
    | some call =>
      have hlt := (List.getElem?_eq_some_iff.mp hcall).1
      refine ⟨_, by simp only [mainStep, hpc, hcall]; rfl, ?_⟩
      simp only [PC.left]
      omega
  | collect i =>
    rw [hpc] at hprogress
    obtain ⟨hlength, -, hle⟩ := hprogress
    cases hp : s.pending[i]? with
    | none =>
      refine ⟨_, by simp only [mainStep, hpc, hp]; rfl, ?_⟩
      simp [PC.left]
    | some p =>
      have hlt := (List.getElem?_eq_some_iff.mp hp).1
      cases hf : p.future with
      | none =>
        refine ⟨_, by simp only [mainStep, hpc, hp, hf]; rfl, ?_⟩
        simp only [State.record, PC.left]
        omega
      | some state =>
        refine ⟨_, by simp only [mainStep, hpc, hp, hf]; rfl, ?_⟩
        simp only [PC.left]
        omega
  | loadReady i deadline =>
    rw [hpc] at hprogress
    obtain ⟨hlength, -, hlt, -⟩ := hprogress
    obtain ⟨p, hp⟩ : ∃ p, s.pending[i]? = some p := ⟨_, List.getElem?_eq_getElem (by omega)⟩
    by_cases hready : ∃ e, p.future = some (some e)
    · obtain ⟨e, hf⟩ := hready
      refine ⟨s.ready i p e, ?_, ?_⟩
      · simp only [mainStep, hpc, hp, Option.bind_some, hf]
      · cases e <;> simp only [State.ready, State.record, PC.left] <;> omega
    · refine ⟨{ s with pc := .checkClock i deadline }, ?_, ?_⟩
      · simp only [mainStep, hpc, hp, Option.bind_some]
        split
        · next e hf => exact absurd ⟨e, hf⟩ hready
        · rfl
      · simp [PC.left]
  | checkClock i deadline => exact absurd hpc (hwait i deadline)
  | returned | escaped => simp [hpc, PC.over] at hgoing

/-- `execute_batch` can go on, after some time if it waits. -/
theorem goes_on (hi : Inv r timeout calls s) (hgoing : s.pc.over = false) :
    ∃ ls s', System.exec (next r timeout calls) s ls = some s' ∧ ls.all Label.own ∧
      s'.pc.left calls.length < s.pc.left calls.length := by
  by_cases hwait : ∃ i deadline, s.pc = .checkClock i deadline
  · obtain ⟨i, deadline, hpc⟩ := hwait
    have hprogress := hi.progress
    rw [hpc] at hprogress
    obtain ⟨hlength, -, hlt, -⟩ := hprogress
    obtain ⟨p, hp⟩ : ∃ p, s.pending[i]? = some p := ⟨_, List.getElem?_eq_getElem (by omega)⟩
    -- the deadline comes
    refine ⟨[.tick (deadline - s.clock).toNat, .main],
      State.record { s with clock := s.clock + (deadline - s.clock).toNat } i
        ⟨p.callId, "Tool timed out", true⟩, ?_, rfl, ?_⟩
    · simp only [System.exec, next, Option.bind_some, mainStep, hpc, hp]
      rw [if_pos (by omega), Option.bind_some]
    · rw [hpc]
      simp only [State.record, PC.left]
      omega
  · obtain ⟨s', hmain, hlt⟩ :=
      mainStep_left hi hgoing fun i deadline hpc => hwait ⟨i, deadline, hpc⟩
    exact ⟨[.main], s', by simp [System.exec, next, hmain], rfl, hlt⟩

theorem run_inv {start : ℤ} {labels : List Label}
    (hrun : (system r timeout calls start).Run labels s) : Inv r timeout calls s := by
  refine hrun.invariant (P := Inv r timeout calls) ?_ ?_
  · rintro s rfl
    exact inv_initial r timeout calls start
  · intro s l s' hi hstep
    exact hi.step (moves_of_next hstep)

/-- **From every state the batch can come to its end**, without a handler
    having to end for it. -/
theorem can_end {start : ℤ} {labels : List Label}
    (hrun : (system r timeout calls start).Run labels s) :
    ∃ ls s', (system r timeout calls start).Run (labels ++ ls) s' ∧ ls.all Label.own ∧
      s'.pc.over = true := by
  -- the induction is on the steps left
  induction hn : s.pc.left calls.length using Nat.strongRecOn generalizing s labels with
  | ind n ih =>
    subst hn
    cases hover : s.pc.over with
    | true => exact ⟨[], s, by rwa [List.append_nil], rfl, hover⟩
    | false =>
      obtain ⟨ls, s₁, hexec, hown, hlt⟩ := @goes_on r timeout calls s (run_inv hrun) hover
      obtain ⟨ls', s₂, hrun', hown', hover'⟩ := ih _ hlt (hrun.exec_append hexec) rfl
      refine ⟨ls ++ ls', s₂, by rwa [← List.append_assoc], ?_, hover'⟩
      rw [List.all_append, hown, hown']
      rfl

/-! ### Right Results -/

/-- Time passes. -/
theorem State.outcome_tick (elapsed : ℕ)
    (hlate : (∀ p e, s.pending[j]? = some p → p.future ≠ some (some e)) →
      s.deadline timeout j call ≤ s.clock) :
    State.outcome { s with clock := s.clock + elapsed } timeout j call =
      s.outcome timeout j call := by
  by_cases hended : ∃ p e, s.pending[j]? = some p ∧ p.future = some (some e)
  · obtain ⟨p, e, hp, hf⟩ := hended
    rw [State.outcome_of_ended hp hf]
    exact State.outcome_of_ended (s := { s with clock := s.clock + elapsed }) hp hf
  · have hrunning : ∀ p e, s.pending[j]? = some p → p.future ≠ some (some e) :=
      fun p e hp hf => hended ⟨p, e, hp, hf⟩
    have hle := hlate hrunning
    have hclock : s.clock ≤ s.clock + elapsed := by omega
    rw [State.outcome_of_running hrunning, if_pos hle,
      State.outcome_of_running (s := { s with clock := s.clock + elapsed }) hrunning, if_pos]
    exact Int.le_trans hle hclock

/-- A handler ends. -/
theorem State.outcome_finish (e : HandlerEnd) (hp : s.pending[i]? = some p)
    (hrunning : p.future = some none)
    (hlate : (∀ p e, s.pending[j]? = some p → p.future ≠ some (some e)) →
      s.deadline timeout j call ≤ s.clock) :
    State.outcome
        { s with
          pending := s.pending.set i { p with future := some (some e) }
          endedAt := Function.update s.endedAt i s.clock } timeout j call =
      s.outcome timeout j call := by
  by_cases hij : i = j
  · subst hij
    have hnot : ∀ q e, s.pending[i]? = some q → q.future ≠ some (some e) := by
      intro q e hq
      obtain rfl : p = q := Option.some.inj (hp.symm.trans hq)
      simp [hrunning]
    have hle := hlate hnot
    have hset : (s.pending.set i { p with future := some (some e) })[i]? =
        some { p with future := some (some e) } := by
      rw [List.getElem?_set_self (List.getElem?_eq_some_iff.mp hp).1]
    -- it ends behind its deadline
    rw [State.outcome_of_running hnot, if_pos hle, State.outcome_of_ended hset rfl, if_neg]
    simpa [State.deadline] using hle
  · exact State.outcome_congr (List.getElem?_set_ne hij)
      (Function.update_of_ne (Ne.symm hij) _ _) rfl rfl

/-- **The outcome of a call that has its result** does not change any more:
    its handler has ended, or its deadline has passed. -/
theorem outcome_stable (hi : Inv r timeout calls s) (hs : Moves r timeout calls s l s')
    (hj : s.results[j]? = some tr) (hcall : calls[j]? = some call)
    (hknown : r.has call.name = true) :
    s'.outcome timeout j call = s.outcome timeout j call := by
  obtain ⟨call', hcall', hentry⟩ := hi.results j tr hj
  obtain rfl : call = call' := Option.some.inj (hcall.symm.trans hcall')
  have hprogress := hi.progress
  have hold := (List.getElem?_eq_some_iff.mp hj).1
  -- a handler that is still running is too late
  have hlate : (∀ p e, s.pending[j]? = some p → p.future ≠ some (some e)) →
      s.deadline timeout j call ≤ s.clock := by
    intro hrunning
    cases hentry with
    | unknown hunknown => simp [hunknown] at hknown
    | ended _ hp hf => exact absurd hf (hrunning _ _ hp)
    | timedOut _ hlate => exact hlate
  cases hs with
  | tick elapsed => exact State.outcome_tick elapsed hlate
  | finish e hp hrunning => exact State.outcome_finish e hp hrunning hlate
  | launch hpc hcall =>
    -- no call has a result yet
    rw [hpc] at hprogress
    rw [hprogress.2.2] at hold
    cases hold
  | @wait i p hpc hp hf =>
    rw [hpc] at hprogress
    have hne : j ≠ i := by
      have hlen := hprogress.2.1
      omega
    exact State.outcome_congr rfl rfl (Function.update_of_ne hne _ _) rfl
  | @ready i deadline p e hpc hp hf => cases e <;> rfl
  | launchEnd | collectEnd | unknown | notReady | timedOut | again => rfl

theorem expected_stable (hi : Inv r timeout calls s) (hs : Moves r timeout calls s l s')
    (hj : s.results[j]? = some tr) (hcall : calls[j]? = some call) :
    s'.expected r timeout j call = s.expected r timeout j call := by
  unfold State.expected
  split
  · next hknown => rw [outcome_stable hi hs hj hcall hknown]
  · rfl

/-- The results so far are the expected ones. -/
def Right (r : ToolRegistry) (timeout : String → ℤ) (calls : List ToolCall) (s : State) : Prop :=
  ∀ (j : ℕ) (call : ToolCall) (tr : ToolResult), calls[j]? = some call →
    s.results[j]? = some tr → s.expected r timeout j call = some tr

/-- A step without a result. -/
theorem Right.quiet_iff (hi : Inv r timeout calls s) (hs : Moves r timeout calls s l s')
    (hresults : s'.results = s.results) :
    Right r timeout calls s' ↔ Right r timeout calls s := by
  unfold Right
  rw [hresults]
  refine forall_congr' fun j => forall_congr' fun call => forall_congr' fun tr => ?_
  refine imp_congr_right fun hcall => imp_congr_right fun hj => ?_
  rw [expected_stable hi hs hj hcall]

/-- A step with one more result. -/
theorem Right.record_iff (hi : Inv r timeout calls s) (hs : Moves r timeout calls s l s')
    (hresults : s'.results = s.results ++ [tr]) (hcall : calls[s.results.length]? = some call) :
    Right r timeout calls s' ↔
      Right r timeout calls s ∧ s'.expected r timeout s.results.length call = some tr := by
  constructor
  · intro hright
    refine ⟨fun j call' tr' hcall' hj => ?_, hright _ _ _ hcall (by simp [hresults])⟩
    rw [← expected_stable hi hs hj hcall']
    have hold := (List.getElem?_eq_some_iff.mp hj).1
    exact hright j call' tr' hcall' (by rw [hresults, List.getElem?_append_left hold]; exact hj)
  · rintro ⟨hright, hlast⟩ j call' tr' hcall' hj
    rw [hresults] at hj
    by_cases hold : j < s.results.length
    · rw [List.getElem?_append_left hold] at hj
      rw [expected_stable hi hs hj hcall']
      exact hright j call' tr' hcall' hj
    · have hlen := (List.getElem?_eq_some_iff.mp hj).1
      rw [List.length_append, List.length_singleton] at hlen
      obtain rfl : j = s.results.length := by omega
      obtain rfl : call = call' := Option.some.inj (hcall.symm.trans hcall')
      obtain rfl : tr = tr' := by simpa using hj
      exact hlast

/-- The step rethrows what no handler of `execute_batch` catches, takes a
    value that has come too late, or gives up a call whose handler has
    ended in time. -/
def misjudges (s : State) : Label → Bool
  | .main =>
      match s.pc with
      | .loadReady i deadline =>
          match s.pending[i]?.bind PendingCall.future with
          | some (some e) => e = .threwOther || deadline ≤ s.endedAt i
          | _ => false
      -- the handler has ended behind the load of `ready_`
      | .checkClock i deadline =>
          match s.pending[i]?.bind PendingCall.future with
          | some (some _) => deadline ≤ s.clock && s.endedAt i < deadline
          | _ => false
      | _ => false
  | _ => false

/-- **The collector takes the value of a future.** -/
theorem ready_right_iff (hi : Inv r timeout calls s) {deadline : ℤ} {e : HandlerEnd}
    (hpc : s.pc = .loadReady i deadline) (hp : s.pending[i]? = some p)
    (hf : p.future = some (some e)) :
    (Right r timeout calls (s.ready i p e) ∧ (s.ready i p e).pc ≠ .escaped) ↔
      Right r timeout calls s ∧ misjudges s .main = false := by
  obtain ⟨call, hcall, hid, hknown, hdeadline⟩ := hi.waiting (.inl hpc) hp
  have hresults : s.results.length = i := by
    have hprogress := hi.progress
    rw [hpc] at hprogress
    exact hprogress.2.1
  have hmoves : Moves r timeout calls s .main (s.ready i p e) := .ready hpc hp hf
  have hmis : misjudges s .main =
      (decide (e = .threwOther) || decide (deadline ≤ s.endedAt i)) := by
    simp only [misjudges, hpc, hp, Option.bind_some, hf]
  -- what is caught is right when it has not come too late
  have hcaught : ∀ tr, s.ready i p e = s.record i tr → execute r call e.outcome = some tr →
      e ≠ .threwOther → tr ≠ ⟨call.id, "Tool timed out", true⟩ →
      ((Right r timeout calls (s.ready i p e) ∧ (s.ready i p e).pc ≠ .escaped) ↔
        Right r timeout calls s ∧ misjudges s .main = false) := by
    intro tr hready hexec hother htr
    have hcall' : calls[s.results.length]? = some call := by rw [hresults]; exact hcall
    have hexpected : (s.ready i p e).expected r timeout s.results.length call = some tr ↔
        s.endedAt i < deadline := by
      have hsame : (s.record i tr).outcome timeout i call = s.outcome timeout i call := rfl
      rw [hready, hresults, State.expected, if_pos hknown, hsame, State.outcome_of_ended hp hf,
        hdeadline]
      split
      · next hlt => exact iff_of_true hexec hlt
      · next hnlt =>
        refine iff_of_false ?_ hnlt
        rw [Option.bind_some, execute_timeout hknown]
        exact fun heq => htr (Option.some.inj heq).symm
    rw [Right.record_iff hi hmoves (by rw [hready]; rfl) hcall', hexpected, hmis]
    simp [hready, State.record, hother]
  cases e with
  | returned output =>
    exact hcaught _ rfl (by simp [execute, hknown, hid, HandlerEnd.outcome]) (by simp) (by simp)
  | threwStd what =>
    have hexec : execute r call (HandlerEnd.threwStd what).outcome =
        some ⟨p.callId, "Tool error: " ++ what, true⟩ := by
      simp [execute, hknown, hid, HandlerEnd.outcome]
    refine hcaught _ rfl hexec (by simp) fun htr => ?_
    exact execute_outcome_ne hknown (.threwStd what) (htr ▸ hexec)
  | threwOther => simp [hmis, State.ready]

/-- **The collector gives a call up.** -/
theorem timedOut_right_iff (hi : Inv r timeout calls s) {deadline : ℤ}
    (hpc : s.pc = .checkClock i deadline) (hp : s.pending[i]? = some p)
    (hlate : deadline ≤ s.clock) :
    Right r timeout calls (s.record i ⟨p.callId, "Tool timed out", true⟩) ↔
      Right r timeout calls s ∧ misjudges s .main = false := by
  obtain ⟨call, hcall, hid, hknown, hdeadline⟩ := hi.waiting (.inr hpc) hp
  have hresults : s.results.length = i := by
    have hprogress := hi.progress
    rw [hpc] at hprogress
    exact hprogress.2.1
  have hmoves : Moves r timeout calls s .main (s.record i ⟨p.callId, "Tool timed out", true⟩) :=
    .timedOut hpc hp hlate
  have hcall' : calls[s.results.length]? = some call := by rw [hresults]; exact hcall
  rw [Right.record_iff hi hmoves rfl hcall']
  refine and_congr_right fun _ => ?_
  -- the step has changed nothing of what decides the outcome
  have hsame : (s.record i ⟨p.callId, "Tool timed out", true⟩).expected r timeout
      s.results.length call = (s.outcome timeout i call).bind (execute r call) := by
    rw [hresults, State.expected, if_pos hknown]
    rfl
  rw [hsame, hid]
  by_cases hended : ∃ e, p.future = some (some e)
  · obtain ⟨e, hf⟩ := hended
    have hmis : misjudges s .main = decide (s.endedAt i < deadline) := by
      simp [misjudges, hpc, hp, hf, hlate]
    rw [State.outcome_of_ended hp hf, hmis, ← hdeadline]
    split
    · next hlt => simpa [hlt] using execute_outcome_ne hknown e
    · next hnlt => simpa [hnlt] using execute_timeout hknown
  · have hnot : ∀ q e, s.pending[i]? = some q → q.future ≠ some (some e) := by
      intro q e hq hf
      obtain rfl : p = q := Option.some.inj (hp.symm.trans hq)
      exact hended ⟨e, hf⟩
    have hmis : misjudges s .main = false := by
      simp only [misjudges, hpc, hp, Option.bind_some]
      split
      · next e hf => exact absurd ⟨e, hf⟩ hended
      · rfl
    rw [State.outcome_of_running hnot, if_pos (hdeadline ▸ hlate), hmis]
    simpa using execute_timeout hknown

/-- **One step**: the results stay right, and no exception leaves, if and
    only if the step misjudges nothing. -/
theorem right_step_iff (hi : Inv r timeout calls s) (hs : Moves r timeout calls s l s')
    (hpc : s.pc ≠ .escaped) :
    (Right r timeout calls s' ∧ s'.pc ≠ .escaped) ↔
      Right r timeout calls s ∧ misjudges s l = false := by
  have hprogress := hi.progress
  cases hs with
  | tick elapsed =>
    rw [Right.quiet_iff hi (.tick elapsed) rfl]
    simp [misjudges, hpc]
  | finish e hp hrunning =>
    rw [Right.quiet_iff hi (.finish e hp hrunning) rfl]
    simp [misjudges, hpc]
  | launch hpc hcall =>
    rw [Right.quiet_iff hi (.launch hpc hcall) rfl]
    simp [misjudges, hpc]
  | launchEnd hpc hcall =>
    rw [Right.quiet_iff hi (.launchEnd hpc hcall) rfl]
    simp [misjudges, hpc]
  | collectEnd hpc hp =>
    rw [Right.quiet_iff hi (.collectEnd hpc hp) rfl]
    simp [misjudges, hpc]
  | wait hpc hp hf =>
    rw [Right.quiet_iff hi (.wait hpc hp hf) rfl]
    simp [misjudges, hpc]
  | @notReady i deadline p hpc hp hrunning =>
    rw [Right.quiet_iff hi (.notReady hpc hp hrunning) rfl]
    have hmis : misjudges s .main = false := by
      simp only [misjudges, hpc, hp, Option.bind_some]
    simp [hmis]
  | @again i deadline p hpc hp hearly =>
    rw [Right.quiet_iff hi (.again hpc hp hearly) rfl]
    have hmis : misjudges s .main = false := by
      simp only [misjudges, hpc, hp, Option.bind_some]
      split
      · simp [Int.not_le.mpr hearly]
      · rfl
    simp [hmis]
  | @unknown i p hpc hp hf =>
    rw [hpc] at hprogress
    obtain ⟨call, hcall, hmatches⟩ := hi.pending i p hp
    have hfuture := hmatches.future
    rw [hf] at hfuture
    have hunknown : r.has call.name = false := hfuture.symm
    have hcall' : calls[s.results.length]? = some call := by rw [hprogress.2.1]; exact hcall
    rw [Right.record_iff hi (.unknown hpc hp hf) rfl hcall']
    simp [State.expected, hunknown, hmatches.callId, hmatches.name, misjudges, hpc, State.record]
  | ready hpc hp hf => exact ready_right_iff hi hpc hp hf
  | timedOut hpc hp hlate =>
    rw [timedOut_right_iff hi hpc hp hlate]
    simp [State.record]

/-- **Along every run** the results are right, and no exception has left
    `execute_batch`, if and only if no step has misjudged a call. -/
theorem run_spec {start : ℤ} {labels : List Label}
    (hrun : (system r timeout calls start).Run labels s) :
    ((system r timeout calls start).restrict fun s l => !misjudges s l).Run labels s ↔
      Right r timeout calls s ∧ s.pc ≠ .escaped := by
  suffices h : Inv r timeout calls s ∧
      (((system r timeout calls start).restrict fun s l => !misjudges s l).Run labels s ↔
        Right r timeout calls s ∧ s.pc ≠ .escaped) from h.2
  refine hrun.history_invariant (P := fun labels s => Inv r timeout calls s ∧
    (((system r timeout calls start).restrict fun s l => !misjudges s l).Run labels s ↔
      Right r timeout calls s ∧ s.pc ≠ .escaped)) ?_ ?_
  · rintro s rfl
    refine ⟨inv_initial r timeout calls start, iff_of_true (.start rfl) ⟨?_, by simp [initial]⟩⟩
    intro j call tr _ hj
    simp [initial] at hj
  · rintro labels s l s' hr ⟨hi, hiff⟩ hstep
    have hdet : (system r timeout calls start).Deterministic := System.deterministic_ofNext _ _
    have hmoves := moves_of_next hstep
    refine ⟨hi.step hmoves, ?_⟩
    rw [hdet.restrict_snoc hr hstep, hiff, Bool.not_eq_true']
    by_cases hpc : s.pc = .escaped
    · -- nothing moves any more
      have hstays : s'.pc = .escaped := by
        cases hmoves with
        | tick | finish => exact hpc
        | launch h | launchEnd h | collectEnd h | unknown h | wait h
        | ready h | notReady h | timedOut h | again h => rw [hpc] at h; exact absurd h (by simp)
      simp [hpc, hstays]
    · rw [right_step_iff hi hmoves hpc]
      simp [hpc]

/-! ### Results of a Batch -/

/-- The call at `i` is known, and its handler has returned `output` before
    the deadline of the wait for it. -/
def ReturnedInTime (r : ToolRegistry) (timeout : String → ℤ) (s : State) (i : ℕ) (call : ToolCall)
    (output : String) : Prop :=
  r.has call.name = true ∧ ∃ p, s.pending[i]? = some p ∧
    p.future = some (some (.returned output)) ∧ s.endedAt i < s.deadline timeout i call

/-- The batch has returned one result for each call, in order, and they
    are what single calls give. -/
structure Correct (r : ToolRegistry) (timeout : String → ℤ) (calls : List ToolCall) (s : State) :
    Prop where
  returned : s.pc = .returned
  length : s.results.length = calls.length
  results : ∀ (i : ℕ) (call : ToolCall), calls[i]? = some call → ∃ tr,
    s.results[i]? = some tr ∧ tr.toolCallId = call.id ∧
    (tr.isError = false ↔ ∃ output, ReturnedInTime r timeout s i call output) ∧
    (∀ output, ReturnedInTime r timeout s i call output → tr.output = output) ∧
    (r.has call.name = false → ∀ o, execute r call o = some tr) ∧
    (r.has call.name = true → ∃ o, s.outcome timeout i call = some o ∧ execute r call o = some tr)

theorem outcome_eq_output_iff {output : String} :
    s.outcome timeout i call = some (.output output) ↔
      ∃ p, s.pending[i]? = some p ∧ p.future = some (some (.returned output)) ∧
        s.endedAt i < s.deadline timeout i call := by
  constructor
  · intro h
    unfold State.outcome at h
    split at h
    · next e hf =>
      obtain ⟨p, hp, hf⟩ := Option.bind_eq_some_iff.mp hf
      split at h
      · next hlt =>
        cases e with
        | returned output' =>
          obtain rfl : output' = output := by simpa [HandlerEnd.outcome] using h
          exact ⟨p, hp, hf, hlt⟩
        | threwStd what => simp [HandlerEnd.outcome] at h
        | threwOther => simp [HandlerEnd.outcome] at h
      · simp at h
    · split at h <;> simp at h
  · rintro ⟨p, hp, hf, hlt⟩
    rw [State.outcome_of_ended hp hf, if_pos hlt]
    rfl

theorem execute_isError {o : ToolOutcome} (hknown : r.has call.name = true)
    (h : execute r call o = some tr) :
    tr.toolCallId = call.id ∧ (tr.isError = false ↔ ∃ output, o = .output output) ∧
      ∀ output, o = .output output → tr.output = output := by
  unfold execute at h
  rw [if_neg (by simp [hknown])] at h
  cases o with
  | otherException => cases h
  | output | stdException | timeout =>
    cases h
    simp

/-- **Right results of a batch that has returned** are what is expected of
    it. -/
theorem Right.correct (hright : Right r timeout calls s) (hreturned : s.pc = .returned)
    (hlength : s.results.length = calls.length) : Correct r timeout calls s := by
  refine ⟨hreturned, hlength, fun i call hcall => ?_⟩
  have hlt := (List.getElem?_eq_some_iff.mp hcall).1
  obtain ⟨tr, htr⟩ : ∃ tr, s.results[i]? = some tr :=
    ⟨_, List.getElem?_eq_getElem (Nat.lt_of_lt_of_eq hlt hlength.symm)⟩
  have hexpected := hright i call tr hcall htr
  unfold State.expected at hexpected
  cases hhas : r.has call.name with
  | false =>
    simp only [hhas, Bool.false_eq_true, if_false, Option.some.injEq] at hexpected
    subst hexpected
    exact ⟨_, htr, rfl, by simp [ReturnedInTime, hhas], by simp [ReturnedInTime, hhas],
      fun _ o => execute_unknown hhas o, by simp⟩
  | true =>
    rw [if_pos hhas, Option.bind_eq_some_iff] at hexpected
    obtain ⟨o, ho, hexec⟩ := hexpected
    obtain ⟨hid, herror, houtput⟩ := execute_isError hhas hexec
    have hin : ∀ output, ReturnedInTime r timeout s i call output ↔ o = .output output := by
      intro output
      rw [ReturnedInTime, ← outcome_eq_output_iff, ho, Option.some.injEq]
      exact and_iff_right hhas
    simp only [hin]
    exact ⟨tr, htr, hid, herror, houtput, by simp, fun _ => ⟨o, ho, hexec⟩⟩

theorem Correct.right (h : Correct r timeout calls s) : Right r timeout calls s := by
  intro i call tr hcall htr
  obtain ⟨tr', htr', -, -, -, hunknown, hknown⟩ := h.results i call hcall
  obtain rfl : tr = tr' := Option.some.inj (htr.symm.trans htr')
  unfold State.expected
  cases hhas : r.has call.name with
  | false =>
    rw [if_neg (by simp)]
    exact (execute_unknown hhas .timeout).symm.trans (hunknown hhas .timeout)
  | true =>
    obtain ⟨o, ho, hexec⟩ := hknown hhas
    rw [if_pos rfl, ho]
    exact hexec

/-- Results that single calls can give are those of a batch. -/
theorem exists_executeBatch {trs : List ToolResult} (htrs : trs.length = calls.length)
    (hall : ∀ (i : ℕ) (call : ToolCall) (tr : ToolResult), calls[i]? = some call →
      trs[i]? = some tr → ∃ o, collect r call o = some tr) :
    ∃ os, os.length = calls.length ∧ executeBatch r calls os = some trs := by
  induction calls generalizing trs with
  | nil =>
    rw [List.eq_nil_of_length_eq_zero htrs]
    exact ⟨[], rfl, rfl⟩
  | cons call calls ih =>
    obtain ⟨tr, trs, rfl⟩ := List.exists_cons_of_length_eq_add_one htrs
    obtain ⟨o, ho⟩ := hall 0 call tr rfl rfl
    obtain ⟨os, hos, hrest⟩ := ih (Nat.succ.inj htrs) fun i => hall (i + 1)
    exact ⟨o :: os, by simp [hos], by simp only [executeBatch, ho, hrest]⟩

/-- What the workflows take a batch to be: the function of its outcomes. -/
theorem Inv.executeBatch (hi : Inv r timeout calls s) (hreturned : s.pc = .returned) :
    ∃ os, os.length = calls.length ∧ executeBatch r calls os = some s.results := by
  have hlength := hi.progress
  rw [hreturned] at hlength
  refine exists_executeBatch hlength fun i call tr hcall htr => ?_
  obtain ⟨call', hcall', hentry⟩ := hi.results i tr htr
  obtain rfl : call = call' := Option.some.inj (hcall.symm.trans hcall')
  simp only [← execute_eq_collect]
  cases hentry with
  | unknown hunknown htr => exact ⟨.timeout, htr ▸ execute_unknown hunknown _⟩
  | @ended p e hknown hp hf hexec => exact ⟨e.outcome, hexec⟩
  | timedOut hknown hlate htr => exact ⟨.timeout, htr ▸ execute_timeout hknown⟩

/-- A calculator, and batches of calls of it. -/
def calculator : ToolRegistry := ⟨["calculator"]⟩

def calculatorCall (id : String) : ToolCall := ⟨id, "calculator", "{}"⟩

/-- The second handler throws and the first returns, half a second after
    the start; the third is still running a second later. -/
def oneTimesOut : List Label :=
  List.replicate 4 Label.main ++
    [Label.tick 500, .finish 1 (.threwStd "bad"), .finish 0 (.returned "4")] ++
    List.replicate 6 Label.main ++ [Label.tick 1000, .main, .main]

end ToolBatch

end Forge
