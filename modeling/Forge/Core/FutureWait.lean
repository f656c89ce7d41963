import Forge.Core.FutureProtocol
import Forge.Framework.Termination

/-! # Waiting for a Future

  `Future<T>::get` and `wait_for` (`core/future.h`) by any number of
  threads on one shared state, next to the promise side of
  `FutureProtocol`; `then` is not called, as the header asks for. A
  `Future` holds a reference, so the shared state outlives the calls. The
  clock does not go back.

  - `Obtains`: what the calls that do not time out can obtain, one after
    the other;
  - `WaitPC.rank`: the steps left to a call once `ready_` is up, which
    each of its steps lowers;
  - `wait_spec`: that they obtain this, that only `wait_for` gives up and
    not before its deadline, and that nobody waits for a promise that is
    satisfied.
-/

open LTS

namespace Forge

namespace FutureWait

variable {T E W : Type*}

/-! ### Calls -/

/-- Where a call is; `wait_for` has a deadline, `get` has none. -/
inductive WaitPC where
  | idle
  /-- `while (!ready_.load())` -/
  | poll (deadline : Option ℕ)
  /-- `wait_for`: `if (now() >= deadline)` -/
  | late (deadline : ℕ)
  /-- `backoff(iter++)`, in which a worker runs other tasks. -/
  | backoff (deadline : Option ℕ)
  /-- `if (state_->exception_)` -/
  | check (deadline : Option ℕ)
  /-- `std::move(*value_ptr())` -/
  | take (deadline : Option ℕ)
  deriving DecidableEq

/-- What a call obtains. -/
inductive Got (T E : Type*) where
  /-- What the value storage holds. -/
  | value (v : Option T)
  /-- The value after somebody has moved it out. -/
  | movedFrom
  | rethrown (e : E)
  deriving DecidableEq

/-- A call that has returned: when, and with what; `none` is `nullopt`. -/
structure Entry (T E W : Type*) where
  thread : W
  deadline : Option ℕ
  time : ℕ
  got : Option (Got T E)

structure State (T E W : Type*) where
  shared : Future.State T E
  waiters : W → WaitPC
  /-- The value was moved out of its storage. -/
  moved : Bool
  clock : ℕ
  /-- History: the calls that have returned. -/
  log : List (Entry T E W)

inductive Label (T E W : Type*) where
  /-- A call or a step of the promise side. -/
  | promise (l : Future.Label T E)
  | get (t : W)
  | waitFor (t : W) (duration : ℕ)
  | step (t : W)
  | tick

def initial (kind : Future.Specialisation T) : State T E W where
  shared := Future.initial kind
  waiters _ := .idle
  moved := false
  clock := 0
  log := []

/-! ### Steps -/

/-- The labels of the promise side. -/
def isPromise : Future.Label T E → Bool
  | .callSetValue _ | .callSetException _ | .producer | .dropProducer => true
  | _ => false

section Steps

variable [DecidableEq W] (kind : Future.Specialisation T)

def State.goto (s : State T E W) (t : W) (pc : WaitPC) : State T E W :=
  { s with waiters := Function.update s.waiters t pc }

def State.returns (s : State T E W) (t : W) (deadline : Option ℕ) (got : Option (Got T E)) :
    State T E W :=
  { s.goto t .idle with log := s.log ++ [⟨t, deadline, s.clock, got⟩] }

/-- The next step of a call. -/
def waitStep (s : State T E W) (t : W) : Option (State T E W) :=
  match s.waiters t with
  | .idle => none
  | .poll deadline =>
      if s.shared.ready then some (s.goto t (.check deadline))
      else
        match deadline with
        | none => some (s.goto t (.backoff none))
        | some d => some (s.goto t (.late d))
  | .late d =>
      if d ≤ s.clock then some (s.returns t (some d) none) else some (s.goto t (.backoff (some d)))
  | .backoff deadline => some (s.goto t (.poll deadline))
  | .check deadline =>
      match s.shared.exception with
      | some e => some (s.returns t deadline (some (.rethrown e)))
      | none => some (s.goto t (.take deadline))
  | .take deadline =>
      match kind with
      | .void _ => some (s.returns t deadline (some (.value s.shared.value)))
      | .primary =>
          some { s.returns t deadline
              (some (if s.moved then .movedFrom else .value s.shared.value)) with
            moved := true }

/-- The step function. -/
def next [DecidableEq T] [DecidableEq E] (s : State T E W) :
    Label T E W → Option (State T E W)
  | .promise l =>
      if isPromise l then (Future.next kind s.shared l).map fun sh => { s with shared := sh }
      else none
  | .get t => if s.waiters t = .idle then some (s.goto t (.poll none)) else none
  | .waitFor t duration =>
      if s.waiters t = .idle then some (s.goto t (.poll (some (s.clock + duration)))) else none
  | .step t => waitStep kind s t
  | .tick => some { s with clock := s.clock + 1 }

/-- One shared state, its promise and the threads that wait. -/
def system [DecidableEq T] [DecidableEq E] : System (State T E W) (Label T E W) :=
  .ofNext (initial kind) (next kind)

end Steps

/-! ### What Is Obtained -/

/-- What the calls obtain when the promise side is at `p`: nothing before
    it has published, and then each of them the exception, or each of them
    the value, which the first one moves out. -/
inductive Obtains (kind : Future.Specialisation T) (p : Future.ProducerPC T E) :
    Bool → List (Got T E) → Prop where
  | nothing : Obtains kind p false []
  | exception (e : E) (n : ℕ) : p.published = true → p.stored = some e →
      Obtains kind p false (List.replicate n (.rethrown e))
  | value (v : T) (n : ℕ) : kind = .primary → p.published = true → p.constructed = some v →
      Obtains kind p true (.value (some v) :: List.replicate n .movedFrom)
  | void (u : T) (n : ℕ) : kind = .void u → p.published = true → p.constructed = some u →
      Obtains kind p false (List.replicate n (.value (some u)))

def State.gots (s : State T E W) : List (Got T E) := s.log.filterMap Entry.got

variable {kind : Future.Specialisation T} {p p' : Future.ProducerPC T E} {moved : Bool}
  {gots : List (Got T E)} {e : E} {v u : T}

/-- Published is a value or an exception. -/
theorem published_cases (h : p.published = true) :
    (∃ v, p.constructed = some v ∧ p.stored = none) ∨
      ∃ e, p.stored = some e ∧ p.constructed = none := by
  cases p <;> simp at h ⊢

/-- What was obtained stays what is to be obtained. -/
theorem Obtains.mono (h : Obtains kind p moved gots)
    (hkeep : p.published = true → p'.published = true ∧ p'.constructed = p.constructed ∧
      p'.stored = p.stored) : Obtains kind p' moved gots := by
  cases h with
  | nothing => exact .nothing
  | exception e n hpub hstored =>
    obtain ⟨hpub', -, hs⟩ := hkeep hpub
    exact .exception e n hpub' (hs.trans hstored)
  | value v n hkind hpub hv =>
    obtain ⟨hpub', hc, -⟩ := hkeep hpub
    exact .value v n hkind hpub' (hc.trans hv)
  | void u n hkind hpub hu =>
    obtain ⟨hpub', hc, -⟩ := hkeep hpub
    exact .void u n hkind hpub' (hc.trans hu)

theorem Obtains.rethrow (h : Obtains kind p moved gots) (hpub : p.published = true)
    (he : p.stored = some e) : Obtains kind p moved (gots ++ [.rethrown e]) := by
  have hnone : p.constructed = none := by
    obtain ⟨v, -, hstored⟩ | ⟨e', -, hc⟩ := published_cases hpub
    · rw [he] at hstored
      cases hstored
    · exact hc
  cases h with
  | nothing => exact .exception e 1 hpub he
  | exception e' n _ hstored =>
    obtain rfl : e' = e := Option.some.inj (hstored.symm.trans he)
    rw [← List.replicate_succ']
    exact .exception e' (n + 1) hpub he
  | value v n _ _ hv =>
    rw [hnone] at hv
    cases hv
  | void u n _ _ hu =>
    rw [hnone] at hu
    cases hu

/-- The first one takes the value. -/
theorem Obtains.take (h : Obtains .primary p moved gots) (hpub : p.published = true)
    (hv : p.constructed = some v) :
    Obtains .primary p true (gots ++ [if moved then .movedFrom else .value (some v)]) := by
  have hnone : p.stored = none := by
    obtain ⟨v', -, hstored⟩ | ⟨e, -, hc⟩ := published_cases hpub
    · exact hstored
    · rw [hv] at hc
      cases hc
  cases h with
  | nothing => exact .value v 0 rfl hpub hv
  | exception e n _ hstored =>
    rw [hnone] at hstored
    cases hstored
  | value v' n _ _ hv' =>
    rw [if_pos rfl, List.cons_append, ← List.replicate_succ']
    exact .value v' (n + 1) rfl hpub hv'
  | void u n hkind => cases hkind

theorem Obtains.takeVoid (h : Obtains (.void u) p moved gots) (hpub : p.published = true)
    (hu : p.constructed = some u) :
    Obtains (.void u) p moved (gots ++ [.value (some u)]) := by
  have hnone : p.stored = none := by
    obtain ⟨v', -, hstored⟩ | ⟨e, -, hc⟩ := published_cases hpub
    · exact hstored
    · rw [hu] at hc
      cases hc
  cases h with
  | nothing => exact .void u 1 rfl hpub hu
  | exception e n _ hstored =>
    rw [hnone] at hstored
    cases hstored
  | value v n hkind => cases hkind
  | void u' n hkind =>
    cases hkind
    rw [← List.replicate_succ']
    exact .void u (n + 1) rfl hpub hu

/-! ### The Invariant -/

/-- A call has seen `ready_` before it reads on. -/
structure Inv (kind : Future.Specialisation T) (s : State T E W) : Prop where
  shared : Future.Inv kind s.shared
  held : s.shared.consumerDropped = false
  ready : ∀ t d, s.waiters t = .check d ∨ s.waiters t = .take d → s.shared.ready = true
  fine : ∀ t d, s.waiters t = .take d → s.shared.exception = none
  obtains : Obtains kind s.shared.producer s.moved s.gots
  patient : ∀ x ∈ s.log, x.got = none → ∃ d, x.deadline = some d ∧ d ≤ x.time

variable {s s' : State T E W}

theorem inv_initial : Inv kind (initial kind : State T E W) where
  shared := Future.inv_initial kind
  held := by cases kind <;> rfl
  ready := by simp [initial]
  fine := by simp [initial]
  obtains := .nothing
  patient := by simp [initial]

section Promise

variable [DecidableEq T] [DecidableEq E] {sh sh' : Future.State T E} {l : Future.Label T E}

/-- A satisfied promise stays as it is. -/
theorem promise_keeps (hl : isPromise l) (hs : Future.next kind sh l = some sh')
    (hpub : sh.producer.published = true) : sh'.producer.published = true ∧
      sh'.producer.constructed = sh.producer.constructed ∧
      sh'.producer.stored = sh.producer.stored := by
  cases l with
  | callSetValue | callSetException =>
    simp only [Future.next, Option.ite_none_right_eq_some] at hs
    simp [hs.1.1] at hpub
  | dropProducer =>
    simp only [Future.next, Option.ite_none_right_eq_some, Option.some.injEq] at hs
    obtain ⟨-, rfl⟩ := hs
    exact ⟨hpub, rfl, rfl⟩
  | producer =>
    have hstep : Future.producerStep kind sh = some sh' := hs
    cases hpc : sh.producer with
    | svExchange v | seExchange e =>
      simp only [Future.producerStep, hpc] at hstep
      split at hstep
      all_goals
        cases hstep
        simp
    | svInvoke v | svDelete v | seDelete e =>
      simp only [Future.producerStep, hpc] at hstep
      cases hstep
      simp
    | svRunning | svDone | svThrew | seDone =>
      simp only [Future.producerStep, hpc] at hstep
      cases hstep
    | _ => simp [hpc] at hpub
  | _ => cases hl

theorem promise_held (hl : isPromise l) (hs : Future.next kind sh l = some sh') :
    sh'.consumerDropped = sh.consumerDropped := by
  cases l with
  | callSetValue | callSetException | dropProducer =>
    simp only [Future.next, Option.ite_none_right_eq_some, Option.some.injEq] at hs
    obtain ⟨-, rfl⟩ := hs
    rfl
  | producer => exact (Future.producerStep_frame hs).2.2.1
  | _ => cases hl

end Promise

/-! ### Steps Keep the Invariant -/

/-- The shared state as it is when a call has seen `ready_`. -/
theorem Inv.published (hi : Inv kind s) (hready : s.shared.ready = true) :
    s.shared.producer.published = true := hi.shared.payload.ready.symm.trans hready

variable [DecidableEq W]

theorem goto_self (s : State T E W) (t : W) (pc : WaitPC) : (s.goto t pc).waiters t = pc := by
  simp [State.goto]

/-- A call goes on. -/
theorem Inv.goto (hi : Inv kind s) (t : W) (pc : WaitPC)
    (hready : ∀ d, pc = .check d ∨ pc = .take d → s.shared.ready = true)
    (hfine : ∀ d, pc = .take d → s.shared.exception = none) : Inv kind (s.goto t pc) where
  shared := hi.shared
  held := hi.held
  ready := by
    intro t' d h
    by_cases ht : t' = t
    · subst ht
      simp only [State.goto, Function.update_self] at h
      exact hready d h
    · simp only [State.goto, Function.update_of_ne ht] at h
      exact hi.ready t' d h
  fine := by
    intro t' d h
    by_cases ht : t' = t
    · subst ht
      simp only [State.goto, Function.update_self] at h
      exact hfine d h
    · simp only [State.goto, Function.update_of_ne ht] at h
      exact hi.fine t' d h
  obtains := hi.obtains
  patient := hi.patient

/-- A call returns. -/
theorem Inv.returns (hi : Inv kind s) (t : W) {deadline : Option ℕ} {got : Option (Got T E)}
    {moved : Bool} (hobtains : Obtains kind s.shared.producer moved (s.gots ++ got.toList))
    (hpatient : got = none → ∃ d, deadline = some d ∧ d ≤ s.clock) :
    Inv kind { s.returns t deadline got with moved := moved } where
  shared := hi.shared
  held := hi.held
  ready := (hi.goto t .idle (by simp) (by simp)).ready
  fine := (hi.goto t .idle (by simp) (by simp)).fine
  obtains := by
    have hgots : (s.returns t deadline got).gots = s.gots ++ got.toList := by
      cases got <;> simp [State.gots, State.returns]
    show Obtains kind s.shared.producer moved (s.returns t deadline got).gots
    rw [hgots]
    exact hobtains
  patient := by
    intro x hx hnone
    obtain hold | hnew := List.mem_append.mp hx
    · exact hi.patient x hold hnone
    · obtain rfl := List.mem_singleton.mp hnew
      exact hpatient hnone

theorem Inv.waitStep {t : W} (hi : Inv kind s) (hs : waitStep kind s t = some s') :
    Inv kind s' := by
  unfold FutureWait.waitStep at hs
  split at hs
  · cases hs
  · next deadline _ =>
    split at hs
    · next hready =>
      cases hs
      exact hi.goto t _ (fun _ _ => hready) (by simp)
    · split at hs
      all_goals
        cases hs
        exact hi.goto t _ (by simp) (by simp)
  · next d _ =>
    split at hs
    · next hlate =>
      cases hs
      have hkeep : Obtains kind s.shared.producer s.moved
          (s.gots ++ (none : Option (Got T E)).toList) := by simpa using hi.obtains
      exact hi.returns t hkeep fun _ => ⟨d, rfl, hlate⟩
    · cases hs
      exact hi.goto t _ (by simp) (by simp)
  · cases hs
    exact hi.goto t _ (by simp) (by simp)
  · next deadline hpc =>
    have hready := hi.ready t deadline (.inl hpc)
    split at hs
    · next e he =>
      cases hs
      have hstored := hi.shared.payload.exception.symm.trans he
      exact hi.returns t (hi.obtains.rethrow (hi.published hready) hstored) (by simp)
    · next he =>
      cases hs
      exact hi.goto t _ (fun _ _ => hready) (fun _ _ => he)
  · next deadline hpc =>
    have hready := hi.ready t deadline (.inr hpc)
    have hpub := hi.published hready
    have hnone := hi.shared.payload.exception.symm.trans (hi.fine t deadline hpc)
    obtain ⟨v, hv, -⟩ | ⟨e, he, -⟩ := published_cases hpub
    · have halive : s.shared.destructor = .notStarted := by
        by_contra hd
        have := (hi.shared.refs.destructor hd).2
        rw [hi.held] at this
        cases this
      have hvalue := hi.shared.payload.value halive v hv
      have hobtains := hi.obtains
      split at hs
      · next u =>
        cases hs
        have harg : s.shared.producer.argument = some v := by
          cases hp : s.shared.producer <;> simp [hp] at hv ⊢ <;> exact hv
        obtain rfl : v = u := hi.shared.payload.unit u v rfl harg
        rw [hvalue]
        exact hi.returns t (hobtains.takeVoid hpub hv) (by simp)
      · cases hs
        rw [hvalue]
        exact hi.returns t (by simpa using hobtains.take hpub hv) (by split <;> simp)
    · rw [hnone] at he
      cases he

variable [DecidableEq T] [DecidableEq E]

theorem Inv.step {l : Label T E W} (hi : Inv kind s) (hs : next kind s l = some s') :
    Inv kind s' := by
  cases l with
  | promise l =>
    simp only [next, Option.ite_none_right_eq_some] at hs
    obtain ⟨hl, hs⟩ := hs
    obtain ⟨sh, hsh, rfl⟩ := Option.map_eq_some_iff.mp hs
    have hshared := Future.inv_step hi.shared hsh
    -- once `ready_` is up the exception does not change
    have hkeep := promise_keeps hl hsh
    have hready : s.shared.ready = true → sh.ready = true := fun h =>
      hshared.payload.ready.trans (hkeep (hi.published h)).1
    refine ⟨hshared, (promise_held hl hsh).trans hi.held, ?_, ?_, hi.obtains.mono hkeep, hi.patient⟩
    · exact fun t d h => hready (hi.ready t d h)
    · intro t d h
      have hpub := hi.published (hi.ready t d (.inr h))
      show sh.exception = none
      rw [hshared.payload.exception, (hkeep hpub).2.2, ← hi.shared.payload.exception]
      exact hi.fine t d h
  | get t =>
    simp only [next, Option.ite_none_right_eq_some, Option.some.injEq] at hs
    obtain ⟨-, rfl⟩ := hs
    exact hi.goto t _ (by simp) (by simp)
  | waitFor t duration =>
    simp only [next, Option.ite_none_right_eq_some, Option.some.injEq] at hs
    obtain ⟨-, rfl⟩ := hs
    exact hi.goto t _ (by simp) (by simp)
  | step t => exact hi.waitStep hs
  | tick =>
    cases hs
    exact ⟨hi.shared, hi.held, hi.ready, hi.fine, hi.obtains, hi.patient⟩

/-! ### Steps Left -/

/-- The steps that are left to a call, at most, once `ready_` is up. A
    `backoff` is one of them, however long the tasks take that it runs. -/
def WaitPC.rank : WaitPC → ℕ
  | .idle => 0
  | .take _ => 1
  | .check _ => 2
  | .poll _ => 3
  | .backoff _ => 4
  | .late _ => 5

theorem WaitPC.rank_le (pc : WaitPC) : pc.rank ≤ 5 := by
  cases pc <;> simp [WaitPC.rank]

/-- A step of the call of `t`. -/
def Label.own (t : W) : Label T E W → Bool
  | .step t' => t' = t
  | _ => false

/-- Another call by `t`. -/
def Label.calls (t : W) : Label T E W → Bool
  | .get t' | .waitFor t' _ => t' = t
  | _ => false

variable {t : W} {l : Label T E W}

omit [DecidableEq T] [DecidableEq E] in
/-- A call can go on. -/
theorem waitStep_isSome (kind : Future.Specialisation T) (hcall : s.waiters t ≠ .idle) :
    (waitStep kind s t).isSome := by
  unfold waitStep
  split
  · next hidle => exact absurd hidle hcall
  · split
    · rfl
    · split <;> rfl
  · split <;> rfl
  · rfl
  · split <;> rfl
  · split <;> rfl

omit [DecidableEq T] [DecidableEq E] in
/-- What a step of the call of `t` leaves alone. -/
theorem waitStep_frame (hs : waitStep kind s t = some s') :
    s'.shared = s.shared ∧ ∀ t', t' ≠ t → s'.waiters t' = s.waiters t' := by
  unfold waitStep at hs
  repeat' split at hs
  all_goals
    cases hs
  all_goals
    refine ⟨rfl, ?_⟩
    intro t' ht
    exact Function.update_of_ne ht _ _

omit [DecidableEq T] [DecidableEq E] in
/-- Each own step lowers the rank. -/
theorem rank_waitStep (hready : s.shared.ready = true) (hs : waitStep kind s t = some s') :
    (s'.waiters t).rank < (s.waiters t).rank := by
  have hgoto : ∀ pc, ((s.goto t pc).waiters t).rank = pc.rank := by
    intro pc
    rw [goto_self]
  have hreturns : ∀ n, 0 < n → ((s.goto t .idle).waiters t).rank < n := by
    intro n hn
    rw [hgoto]
    exact hn
  unfold waitStep at hs
  split at hs
  · cases hs
  · next deadline hpc =>
    rw [if_pos hready] at hs
    cases hs
    rw [hgoto, hpc]
    exact Nat.lt_succ_self _
  · next d hpc =>
    rw [hpc]
    split at hs
    · cases hs
      exact hreturns _ (Nat.succ_pos _)
    · cases hs
      rw [hgoto]
      exact Nat.lt_succ_self _
  · next deadline hpc =>
    cases hs
    rw [hgoto, hpc]
    exact Nat.lt_succ_self _
  · next deadline hpc =>
    rw [hpc]
    split at hs
    · cases hs
      exact hreturns _ (Nat.succ_pos _)
    · cases hs
      rw [hgoto]
      exact Nat.lt_succ_self _
  · next deadline hpc =>
    rw [hpc]
    split at hs
    all_goals
      cases hs
      exact hreturns _ (Nat.succ_pos _)

/-- `ready_` stays up. -/
theorem ready_next (hi : Inv kind s) (hready : s.shared.ready = true)
    (hs : next kind s l = some s') : s'.shared.ready = true := by
  cases l with
  | promise l =>
    simp only [next, Option.ite_none_right_eq_some] at hs
    obtain ⟨hl, hs⟩ := hs
    obtain ⟨sh, hsh, rfl⟩ := Option.map_eq_some_iff.mp hs
    exact (Future.inv_step hi.shared hsh).payload.ready.trans
      (promise_keeps hl hsh (hi.published hready)).1
  | get t | waitFor t duration =>
    simp only [next, Option.ite_none_right_eq_some, Option.some.injEq] at hs
    obtain ⟨-, rfl⟩ := hs
    exact hready
  | step t =>
    rw [(waitStep_frame hs).1]
    exact hready
  | tick =>
    cases hs
    exact hready

/-- **Step.** Every own step lowers the rank, and no other step raises it. -/
theorem rank_next (hready : s.shared.ready = true) (hcalm : l.calls t = false)
    (hs : next kind s l = some s') :
    (if l.own t then 1 else 0) + (s'.waiters t).rank ≤ (s.waiters t).rank := by
  cases l with
  | promise l =>
    simp only [next, Option.ite_none_right_eq_some] at hs
    obtain ⟨sh, -, rfl⟩ := Option.map_eq_some_iff.mp hs.2
    simp [Label.own]
  | get t' | waitFor t' duration =>
    simp only [Label.calls, decide_eq_false_iff_not] at hcalm
    simp only [next, Option.ite_none_right_eq_some, Option.some.injEq] at hs
    obtain ⟨-, rfl⟩ := hs
    simp [Label.own, State.goto, Function.update_of_ne (Ne.symm hcalm)]
  | step t' =>
    by_cases ht : t' = t
    · subst ht
      have hlt := rank_waitStep hready hs
      simp only [Label.own, decide_true, if_true]
      omega
    · simp [Label.own, ht, (waitStep_frame hs).2 t (Ne.symm ht)]
  | tick =>
    cases hs
    simp [Label.own]

/-- The steps of the call of `t`, until it calls again. -/
theorem ranks_waiter (t : W) : ((system kind).restrict fun _ l => l.calls t = false).Ranks
    (fun s : State T E W => Inv kind s ∧ s.shared.ready = true) (Label.own t)
    fun s => (s.waiters t).rank where
  keeps := fun _ _ _ h hs => ⟨h.1.step hs.2, ready_next h.1 h.2 hs.2⟩
  down := fun _ _ _ h hs => rank_next h.2 hs.1 hs.2

/-! ### Every Run -/

/-- Alone, the call of `t` has returned after `n` steps at most. -/
def Soon (kind : Future.Specialisation T) (t : W) (n : ℕ) (s : State T E W) : Prop :=
  ∃ k ≤ n, ∃ s', System.exec (next kind) s (List.replicate k (.step t)) = some s' ∧
    s'.waiters t = .idle

/-- A call on a promise that is satisfied. -/
theorem soon_of_ready (hi : Inv kind s) (hready : s.shared.ready = true) :
    Soon kind t (s.waiters t).rank s := by
  refine (ranks_waiter t).alone (l := .step t) (by simp [Label.own]) ?_ ⟨hi, hready⟩
  intro s _ hcall
  obtain ⟨s', hs⟩ := Option.isSome_iff_exists.mp (waitStep_isSome kind hcall)
  exact ⟨s', hs, rfl, hs⟩

/-- **Waiting.** Whatever the promise and the waiting threads do: the
    calls obtain the value or the exception the promise was satisfied with,
    the value itself only the first of them and nothing before; a call
    returns without it only from `wait_for`, after its deadline; and as
    soon as the promise is satisfied no call waits any more: alone it
    returns, and in every continuation it takes five steps at most and can
    go on until it has returned. -/
theorem wait_spec {tr : List (Label T E W)} (hrun : (system kind).Run tr s) :
    Obtains kind s.shared.producer s.moved s.gots ∧
    (∀ x ∈ s.log, x.got = none → ∃ d, x.deadline = some d ∧ d ≤ x.time) ∧
    (s.shared.ready = true → ∀ t, Soon kind t 5 s ∧
      ∀ ls s', System.exec (next kind) s ls = some s' → (∀ l ∈ ls, l.calls t = false) →
        ls.countP (Label.own t) ≤ 5 ∧
        (s'.waiters t = .idle ∨
          ls.countP (Label.own t) < 5 ∧ (next kind s' (.step t)).isSome)) := by
  have hi : Inv kind s := by
    apply hrun.invariant (P := Inv kind)
    · rintro s rfl
      exact inv_initial
    · exact fun s l s' hi hs => hi.step hs
  refine ⟨hi.obtains, hi.patient, ?_⟩
  intro hready t
  have hrank := (s.waiters t).rank_le
  constructor
  · have hsoon : Soon kind t (s.waiters t).rank s := soon_of_ready hi hready
    obtain ⟨k, hk, h⟩ := hsoon
    exact ⟨k, Nat.le_trans hk hrank, h⟩
  · intro ls s' hexec hcalm
    have hpath : ((system kind).restrict fun _ l => l.calls t = false).Path s ls s' :=
      System.path_of_exec hcalm hexec
    obtain ⟨-, hsteps⟩ := (ranks_waiter t).path ⟨hi, hready⟩ hpath
    refine ⟨by omega, ?_⟩
    by_cases hidle : s'.waiters t = .idle
    · exact .inl hidle
    · have hpos : 0 < (s'.waiters t).rank := by
        cases hpc : s'.waiters t <;> simp [WaitPC.rank]
        exact hidle hpc
      exact .inr ⟨by omega, waitStep_isSome kind hidle⟩

/-- Two threads wait; the one with a deadline gives up, the other obtains
    the value, and the one that comes back finds it moved out. -/
def givesUp : List (Label ℕ Unit Bool) :=
  List.flatten
    [[.get false, .waitFor true 1, .step true, .tick, .step true], [.promise (.callSetValue 7)],
      .replicate 4 (.promise .producer), .replicate 3 (.step false), [.get true],
      .replicate 3 (.step true)]

theorem givesUp_obtains : ∃ s, (system .primary).Run givesUp s ∧
    s.gots = [.value (some 7), .movedFrom] ∧
    Obtains .primary s.shared.producer s.moved s.gots := by
  have hexec : (System.exec (next .primary) (initial .primary) givesUp).map State.gots =
      some [.value (some 7), .movedFrom] := by decide
  obtain ⟨s, hrun, hgots⟩ := System.exists_run_of_exec hexec
  exact ⟨s, hrun, hgots, (wait_spec hrun).1⟩

end FutureWait

end Forge
