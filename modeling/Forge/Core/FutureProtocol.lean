import Forge.Core.Future

/-! # Promise and Future — The Continuation Is Run Once and Freed Once

  The continuation pointer is handed between `set_value` /
  `set_exception`, `then` and `~SharedState` by exchanging
  `continuation_`. Where the two sides are determines the rest:

  - `ledger`: the content of the slot, whether the continuation exists,
    how often the two calls have deleted it and how often it was called,
    as a function of the two program counters;
  - `Inv`: the state agrees with the ledger, and so do the value, the
    exception, `ready_` and the destructor;
  - `continuation_protocol`: what follows for every run. The one leak is
    a continuation that throws out of `set_value`, which then never
    reaches `delete prev`.
-/

open LTS

namespace Forge.Future

variable {T E : Type*}

/-! ### What the Program Counters Determine -/

/-- What has become of the continuation. -/
structure Ledger (T : Type*) where
  slot : Slot
  allocated : Bool
  /-- Deletions by `set_value`, `set_exception` and `then`. -/
  deleted : ℕ
  runs : List (Option T)

/-- The value `set_value` was called with, once it is constructed. -/
@[simp] def ProducerPC.constructed : ProducerPC T E → Option T
  | .svReady v | .svExchange v | .svInvoke v | .svRunning v | .svDelete v | .svDone v
  | .svThrew v => some v
  | _ => none

/-- The argument of `set_value`. -/
@[simp] def ProducerPC.argument : ProducerPC T E → Option T
  | .svAssert v | .svConstruct v => some v
  | p => p.constructed

/-- The argument of `set_exception`, once it is stored. -/
@[simp] def ProducerPC.stored : ProducerPC T E → Option E
  | .seReady e | .seExchange e | .seDelete e | .seDone e => some e
  | _ => none

/-- `ready_` has been stored. -/
@[simp] def ProducerPC.published : ProducerPC T E → Bool
  | .svExchange _ | .svInvoke _ | .svRunning _ | .svDelete _ | .svDone _ | .svThrew _
  | .seExchange _ | .seDelete _ | .seDone _ => true
  | _ => false

/-- The ledger before the promise side has exchanged `continuation_`:
    `then` finds the slot empty and leaves the continuation there. -/
@[simp] def ledgerBefore : ConsumerPC → Option (Ledger T)
  | .idle => some ⟨.null, false, 0, []⟩
  | .thExchange => some ⟨.null, true, 0, []⟩
  | .thDone => some ⟨.cont, true, 0, []⟩
  | _ => none

/-- The ledger after `set_value` found no continuation: `then` runs it. -/
@[simp] def ledgerAfterValue (v : T) : ConsumerPC → Option (Ledger T)
  | .idle => some ⟨.sentinel, false, 0, []⟩
  | .thExchange => some ⟨.sentinel, true, 0, []⟩
  | .thCheck | .thInvoke => some ⟨.cont, true, 0, []⟩
  | .thRunning | .thDelete | .thThrew => some ⟨.cont, true, 0, [some v]⟩
  | .thStore => some ⟨.cont, true, 1, [some v]⟩
  | .thDone => some ⟨.sentinel, true, 1, [some v]⟩

/-- The ledger after `set_exception` found no continuation. -/
@[simp] def ledgerAfterException : ConsumerPC → Option (Ledger T)
  | .idle => some ⟨.sentinel, false, 0, []⟩
  | .thExchange => some ⟨.sentinel, true, 0, []⟩
  | .thCheck | .thDelete => some ⟨.cont, true, 0, []⟩
  | .thStore => some ⟨.cont, true, 1, []⟩
  | .thDone => some ⟨.sentinel, true, 1, []⟩
  | _ => none

/-- The ledger while the promise side owns the continuation: `then` is over. -/
@[simp] def ledgerTaken (runs : List (Option T)) : ConsumerPC → Option (Ledger T)
  | .thDone => some ⟨.sentinel, true, 0, runs⟩
  | _ => none

/-- The ledger at given program counters; `none` if they exclude each other. -/
@[simp] def ledger : ProducerPC T E → ConsumerPC → Option (Ledger T)
  | .svInvoke _, c | .seDelete _, c => ledgerTaken [] c
  | .svRunning v, c | .svDelete v, c | .svThrew v, c => ledgerTaken [some v] c
  | .svDone v, c => ledgerAfterValue v c
  | .seDone _, c => ledgerAfterException c
  | .aborted, _ => none
  | .idle, c | .svAssert _, c | .svConstruct _, c | .svReady _, c | .svExchange _, c
  | .seAssert _, c | .seStore _, c | .seReady _, c | .seExchange _, c => ledgerBefore c

/-- How often `~SharedState` has deleted the continuation. -/
@[simp] def DestructorPC.deleted (d : DestructorPC) (slot : Slot) : ℕ :=
  if d = .destroyed ∧ slot = .cont then 1 else 0

/-! ### The Invariant -/

/-- The value, the exception and `ready_` are those the promise side has
    stored so far. The destructor destroys the value first. -/
structure PayloadOk (kind : Specialisation T) (s : State T E) : Prop where
  /-- `void` has one value. -/
  unit : ∀ u v, kind = .void u → s.producer.argument = some v → v = u
  value : s.destructor = .notStarted → ∀ v, s.producer.constructed = some v → s.value = some v
  voidValue : ∀ u, kind = .void u → s.value = some u
  exception : s.exception = s.producer.stored
  ready : s.ready = s.producer.published

/-- A reference is dropped only between calls, and `~SharedState` runs
    when both are. -/
structure RefsOk (s : State T E) : Prop where
  producer : s.producerDropped → s.producer.isRest
  consumer : s.consumerDropped → s.consumer.isRest
  destructor : s.destructor ≠ .notStarted → s.producerDropped ∧ s.consumerDropped
  deleting : s.destructor = .delete → s.continuation = .cont

/-- The continuation is where the ledger says. -/
def LedgerOk (s : State T E) : Prop :=
  ∃ deleted, ledger s.producer s.consumer =
      some ⟨s.continuation, s.allocated, deleted, s.runs⟩ ∧
    s.frees = deleted + s.destructor.deleted s.continuation

/-- The shared state at every moment of a run. -/
structure Inv (kind : Specialisation T) (s : State T E) : Prop where
  payload : PayloadOk kind s
  refs : RefsOk s
  ledger : LedgerOk s

theorem inv_initial (kind : Specialisation T) : Inv kind (initial kind : State T E) where
  payload := by cases kind <;> constructor <;> simp [initial]
  refs := by constructor <;> simp [initial]
  ledger := by simp [LedgerOk, initial]

section Steps

variable {kind : Specialisation T} {s s' : State T E}

/-- While a side has work left, `~SharedState` has not started. -/
theorem RefsOk.notStarted_of_producer (hr : RefsOk s) (hp : s.producer.isRest = false) :
    s.destructor = .notStarted := by
  by_contra hd
  have hrest := hr.producer (hr.destructor hd).1
  simp [hp] at hrest

theorem RefsOk.notStarted_of_consumer (hr : RefsOk s) (hc : s.consumer.isRest = false) :
    s.destructor = .notStarted := by
  by_contra hd
  have hrest := hr.consumer (hr.destructor hd).2
  simp [hc] at hrest

theorem ledgerOk_iff (hd : s.destructor = .notStarted) :
    LedgerOk s ↔ ledger s.producer s.consumer =
      some ⟨s.continuation, s.allocated, s.frees, s.runs⟩ := by
  simp [LedgerOk, hd]

/-! ### Steps of the Promise Side -/

/-- A call that is under way keeps the references. -/
theorem RefsOk.of_producer (hr : RefsOk s) (hp : s.producer.isRest = false)
    (hpd : s'.producerDropped = s.producerDropped) (hc : s'.consumer = s.consumer)
    (hcd : s'.consumerDropped = s.consumerDropped) (hd : s'.destructor = s.destructor) :
    RefsOk s' := by
  have hnot := hr.notStarted_of_producer hp
  have hheld : s.producerDropped = false := by
    by_contra hdrop
    have hrest := hr.producer (by simpa using hdrop)
    simp [hp] at hrest
  constructor
  · simp [hpd, hheld]
  · rw [hc, hcd]
    exact hr.consumer
  · simp [hd, hnot]
  · simp [hd, hnot]

theorem producerStep_working (hs : producerStep kind s = some s') : s.producer.isRest = false := by
  cases hpc : s.producer <;> simp [producerStep, hpc] at hs <;> rfl

theorem producerStep_frame (hs : producerStep kind s = some s') :
    s'.producerDropped = s.producerDropped ∧ s'.consumer = s.consumer ∧
      s'.consumerDropped = s.consumerDropped ∧ s'.destructor = s.destructor := by
  unfold producerStep at hs
  split at hs <;> (try split at hs) <;> (try split at hs) <;> cases hs <;> simp

/-- A step that stores no data, between program counters that ask for the same. -/
theorem PayloadOk.of_same (hp : PayloadOk kind s) {p : ProducerPC T E}
    (hpc : s.producer = p) (hargument : s'.producer.argument = p.argument)
    (hconstructed : s'.producer.constructed = p.constructed)
    (hstored : s'.producer.stored = p.stored) (hpublished : s'.producer.published = p.published)
    (hvalue : s'.value = s.value) (hexception : s'.exception = s.exception)
    (hready : s'.ready = s.ready) (hd : s'.destructor = s.destructor) : PayloadOk kind s' := by
  subst hpc
  constructor
  · rw [hargument]
    exact hp.unit
  · rw [hconstructed, hvalue, hd]
    exact hp.value
  · rw [hvalue]
    exact hp.voidValue
  · rw [hexception, hstored, hp.exception]
  · rw [hready, hpublished, hp.ready]

theorem PayloadOk.producerStep (hp : PayloadOk kind s)
    (hs : producerStep kind s = some s') : PayloadOk kind s' := by
  have hready := hp.ready
  have hexception := hp.exception
  have hargument : ∀ v, s.producer.argument = some v → ∀ u, kind = .void u → v = u :=
    fun v hv u hu => hp.unit u v hu hv
  cases hpc : s.producer with
  | svAssert v =>
    rw [hpc] at hready hexception
    rw [Future.producerStep, hpc] at hs
    simp only [if_neg (ne_true_of_eq_false hready)] at hs
    -- the primary template constructs the value next, `void` has nothing to construct
    cases kind with
    | primary =>
      cases hs
      exact hp.of_same hpc rfl rfl rfl rfl rfl rfl rfl rfl
    | void u =>
      cases hs
      have hv : v = u := hargument v (by rw [hpc]; rfl) u rfl
      refine ⟨?_, ?_, hp.voidValue, hexception, hready⟩
      · simp [hv]
      · simpa [hv] using fun _ => hp.voidValue u rfl
  | svConstruct v =>
    rw [hpc] at hready hexception hargument
    rw [Future.producerStep, hpc] at hs
    cases hs
    refine ⟨?_, ?_, ?_, hexception, hready⟩
    · simpa [eq_comm] using hargument v rfl
    · simp
    · simpa using hargument v rfl
  | svReady v =>
    have hvalue := hp.value
    rw [hpc] at hexception hargument hvalue
    rw [Future.producerStep, hpc] at hs
    cases hs
    refine ⟨?_, hvalue, hp.voidValue, hexception, rfl⟩
    simpa [eq_comm] using hargument v rfl
  | seStore e =>
    rw [hpc] at hready
    rw [Future.producerStep, hpc] at hs
    cases hs
    exact ⟨by simp, by simp, hp.voidValue, rfl, hready⟩
  | seReady e =>
    rw [hpc] at hexception
    rw [Future.producerStep, hpc] at hs
    cases hs
    exact ⟨by simp, by simp, hp.voidValue, hexception, rfl⟩
  | seAssert e =>
    rw [hpc] at hready
    rw [Future.producerStep, hpc] at hs
    simp only [if_neg (ne_true_of_eq_false hready)] at hs
    cases hs
    exact hp.of_same hpc rfl rfl rfl rfl rfl rfl rfl rfl
  | svExchange v | seExchange e =>
    rw [Future.producerStep, hpc] at hs
    cases hslot : s.continuation <;> simp only [hslot] at hs <;> cases hs <;>
      exact hp.of_same hpc rfl rfl rfl rfl rfl rfl rfl rfl
  | svInvoke v | svDelete v | seDelete e =>
    rw [Future.producerStep, hpc] at hs
    cases hs
    exact hp.of_same hpc rfl rfl rfl rfl rfl rfl rfl rfl
  | idle | svRunning v | svDone v | svThrew v | seDone e | aborted =>
    simp [Future.producerStep, hpc] at hs

/-- One step of the promise side moves the ledger as the table says. The
    exchange is where the continuation changes hands: `then` has either
    stored it or not reached the slot yet. -/
theorem ledger_producerStep (hready : s.ready = s.producer.published)
    (hvalue : ∀ v, s.producer.constructed = some v → s.value = some v)
    (hl : ledger s.producer s.consumer = some ⟨s.continuation, s.allocated, s.frees, s.runs⟩)
    (hs : producerStep kind s = some s') :
    ledger s'.producer s'.consumer =
      some ⟨s'.continuation, s'.allocated, s'.frees, s'.runs⟩ := by
  cases hpc : s.producer with
  | svAssert v | seAssert v =>
    simp only [hpc, ProducerPC.published] at hready
    simp only [Future.producerStep, hpc, hready, Bool.false_eq_true, if_false] at hs
    cases kind <;> cases hs <;> simpa [hpc] using hl
  | svExchange v | seExchange v =>
    simp only [Future.producerStep, hpc] at hs
    cases hc : s.consumer <;> simp only [hpc, hc, ledger, ledgerBefore, Option.some.injEq,
      Ledger.mk.injEq, reduceCtorEq] at hl <;>
      simp only [← hl.1, Option.some.injEq] at hs <;> subst hs <;> simp [hc, ← hl.2.1, ← hl.2.2]
  | svInvoke v | svDelete v | seDelete v =>
    simp only [Future.producerStep, hpc, Option.some.injEq] at hs
    subst hs
    cases hc : s.consumer <;> simp_all
  | svConstruct v | svReady v | seStore e | seReady e =>
    simp only [Future.producerStep, hpc, Option.some.injEq] at hs
    subst hs
    simpa [hpc] using hl
  | idle | svRunning v | svDone v | svThrew v | seDone e | aborted =>
    simp [Future.producerStep, hpc] at hs

theorem Inv.producerStep (hi : Inv kind s) (hs : producerStep kind s = some s') :
    Inv kind s' := by
  have hwork := producerStep_working hs
  have hd := hi.refs.notStarted_of_producer hwork
  obtain ⟨hpd, hc, hcd, hd'⟩ := producerStep_frame hs
  exact {
    payload := hi.payload.producerStep hs
    refs := hi.refs.of_producer hwork hpd hc hcd hd'
    ledger := (ledgerOk_iff (hd'.trans hd)).mpr
      (ledger_producerStep hi.payload.ready (hi.payload.value hd)
        ((ledgerOk_iff hd).mp hi.ledger) hs) }

/-- A call, or the end of the continuation, on the promise side. -/
theorem Inv.setProducer {p : ProducerPC T E} (hi : Inv kind s)
    (hdropped : s.producerDropped = false)
    (hunit : ∀ u v, kind = .void u → p.argument = some v → v = u)
    (hvalue : p.constructed = s.producer.constructed) (hstored : p.stored = s.producer.stored)
    (hpub : p.published = s.producer.published)
    (hl : Future.ledger p s.consumer = Future.ledger s.producer s.consumer) :
    Inv kind { s with producer := p } where
  payload := {
    unit := hunit
    value := fun hd v hv => hi.payload.value hd v (by rw [← hvalue]; exact hv)
    voidValue := hi.payload.voidValue
    exception := by
      show s.exception = p.stored
      rw [hstored, hi.payload.exception]
    ready := by
      show s.ready = p.published
      rw [hpub, hi.payload.ready] }
  refs := {
    producer := by simp [hdropped]
    consumer := hi.refs.consumer
    destructor := hi.refs.destructor
    deleting := hi.refs.deleting }
  ledger := by
    obtain ⟨deleted, hledger, hfrees⟩ := hi.ledger
    exact ⟨deleted, hl.trans hledger, hfrees⟩

/-! ### Steps of the Future Side -/

/-- A step of `then` touches only the continuation. -/
theorem Inv.of_consumer (hi : Inv kind s) (hd : s.destructor = .notStarted)
    (hheld : s.consumerDropped = false)
    (hproducer : s'.producer = s.producer) (hpd : s'.producerDropped = s.producerDropped)
    (hcd : s'.consumerDropped = s.consumerDropped) (hd' : s'.destructor = s.destructor)
    (hvalue : s'.value = s.value) (hexception : s'.exception = s.exception)
    (hready : s'.ready = s.ready)
    (hl : Future.ledger s.producer s'.consumer =
      some ⟨s'.continuation, s'.allocated, s'.frees, s'.runs⟩) : Inv kind s' where
  payload := {
    unit := by
      rw [hproducer]
      exact hi.payload.unit
    value := by
      rw [hproducer, hd', hvalue]
      exact hi.payload.value
    voidValue := by
      rw [hvalue]
      exact hi.payload.voidValue
    exception := by rw [hexception, hproducer, hi.payload.exception]
    ready := by rw [hready, hproducer, hi.payload.ready] }
  refs := {
    producer := by
      rw [hproducer, hpd]
      exact hi.refs.producer
    consumer := by simp [hcd, hheld]
    destructor := by simp [hd', hd]
    deleting := by simp [hd', hd] }
  ledger := by
    rw [ledgerOk_iff (hd'.trans hd), hproducer]
    exact hl

theorem RefsOk.held_of_consumer (hr : RefsOk s) (hc : s.consumer.isRest = false) :
    s.consumerDropped = false := by
  by_contra hdrop
  have hrest := hr.consumer (by simpa using hdrop)
  simp [hc] at hrest

theorem RefsOk.held_of_producer (hr : RefsOk s) (hp : s.producer.isRest = false) :
    s.producerDropped = false := by
  by_contra hdrop
  have hrest := hr.producer (by simpa using hdrop)
  simp [hp] at hrest

theorem consumerStep_working (hs : consumerStep s = some s') : s.consumer.isRest = false := by
  cases hpc : s.consumer <;> simp [consumerStep, hpc] at hs <;> rfl

theorem consumerStep_frame (hs : consumerStep s = some s') :
    s'.producer = s.producer ∧ s'.producerDropped = s.producerDropped ∧
      s'.consumerDropped = s.consumerDropped ∧ s'.destructor = s.destructor ∧
      s'.value = s.value ∧ s'.exception = s.exception ∧ s'.ready = s.ready := by
  unfold consumerStep at hs
  split at hs <;> (try split at hs) <;> cases hs <;> simp

/-- One step of `then` moves the ledger as the table says. Past the
    exchange the promise side is done, so the value or the exception is
    there to be read. -/
theorem ledger_consumerStep (hexception : s.exception = s.producer.stored)
    (hvalue : ∀ v, s.producer.constructed = some v → s.value = some v)
    (hl : ledger s.producer s.consumer = some ⟨s.continuation, s.allocated, s.frees, s.runs⟩)
    (hs : consumerStep s = some s') :
    ledger s.producer s'.consumer =
      some ⟨s'.continuation, s'.allocated, s'.frees, s'.runs⟩ := by
  cases hpc : s.consumer with
  | thExchange =>
    simp only [consumerStep, hpc] at hs
    cases hp : s.producer <;> simp [hp, hpc] at hl <;> simp [← hl.1] at hs <;> subst hs <;>
      simp [← hl.2.1, ← hl.2.2]
  | thCheck =>
    simp only [consumerStep, hpc, hexception] at hs
    cases hp : s.producer <;> simp [hp, hpc] at hl <;> simp [hp] at hs <;> subst hs <;>
      simp [← hl.1, ← hl.2.1, ← hl.2.2]
  | thInvoke | thDelete | thStore =>
    simp only [consumerStep, hpc, Option.some.injEq] at hs
    subst hs
    cases hp : s.producer <;> simp_all
  | idle | thRunning | thDone | thThrew => simp [consumerStep, hpc] at hs

theorem Inv.consumerStep (hi : Inv kind s) (hs : consumerStep s = some s') : Inv kind s' := by
  have hwork := consumerStep_working hs
  have hd := hi.refs.notStarted_of_consumer hwork
  obtain ⟨hp, hpd, hcd, hd', hvalue, hexception, hready⟩ := consumerStep_frame hs
  have hl := ledger_consumerStep hi.payload.exception (hi.payload.value hd)
    ((ledgerOk_iff hd).mp hi.ledger) hs
  exact hi.of_consumer hd (hi.refs.held_of_consumer hwork) hp hpd hcd hd' hvalue hexception
    hready hl

/-- The end of the continuation that `then` has called. -/
theorem Inv.endRun {c : ConsumerPC} (hi : Inv kind s) (hc : s.consumer = .thRunning)
    (hl : ∀ l, Future.ledger s.producer .thRunning = some l →
      Future.ledger s.producer c = some l) :
    Inv kind { s with consumer := c } := by
  have hwork : s.consumer.isRest = false := by simp [hc, ConsumerPC.isRest]
  have hd := hi.refs.notStarted_of_consumer hwork
  have hledger := (ledgerOk_iff hd).mp hi.ledger
  refine hi.of_consumer hd (hi.refs.held_of_consumer hwork) rfl rfl rfl rfl rfl rfl rfl ?_
  rw [hc] at hledger
  exact hl _ hledger

/-! ### Destruction -/

theorem Inv.setRefs (hi : Inv kind s) (pd cd : Bool) (hp : pd → s.producer.isRest)
    (hc : cd → s.consumer.isRest) (hd : s.destructor ≠ .notStarted → pd ∧ cd) :
    Inv kind { s with producerDropped := pd, consumerDropped := cd } where
  payload := ⟨hi.payload.unit, hi.payload.value, hi.payload.voidValue, hi.payload.exception,
    hi.payload.ready⟩
  refs := ⟨hp, hc, hd, hi.refs.deleting⟩
  ledger := hi.ledger

/-- `~SharedState` is the only one left: it moves on, and the free it
    makes is the one its program counter accounts for. -/
theorem Inv.setDestructor (hi : Inv kind s) (value : Option T) (frees : ℕ) (d : DestructorPC)
    (hdrop : s.producerDropped ∧ s.consumerDropped) (hd : d ≠ .notStarted)
    (hvoid : ∀ u, kind = .void u → value = some u)
    (hdeleting : d = .delete → s.continuation = .cont)
    (hfrees : frees + s.destructor.deleted s.continuation =
      s.frees + d.deleted s.continuation) :
    Inv kind { s with value := value, frees := frees, destructor := d } where
  payload := {
    unit := hi.payload.unit
    value := fun hd' => absurd hd' hd
    voidValue := hvoid
    exception := hi.payload.exception
    ready := hi.payload.ready }
  refs := {
    producer := hi.refs.producer
    consumer := hi.refs.consumer
    destructor := fun _ => hdrop
    deleting := hdeleting }
  ledger := by
    obtain ⟨deleted, hl, hdel⟩ := hi.ledger
    refine ⟨deleted, hl, ?_⟩
    show frees = deleted + d.deleted s.continuation
    omega

theorem Inv.destroyStep (hi : Inv kind s) (hs : destroyStep kind s = some s') : Inv kind s' := by
  have hvoid := hi.payload.voidValue
  cases hd : s.destructor with
  | notStarted =>
    simp only [Future.destroyStep, hd, Option.ite_none_right_eq_some, Bool.and_eq_true] at hs
    obtain ⟨hdrop, hs⟩ := hs
    cases kind with
    | primary =>
      simp only [Option.some.injEq] at hs
      subst hs
      exact hi.setDestructor _ s.frees .loadCont hdrop (by simp) (by simp) (by simp) (by simp [hd])
    | void u =>
      simp only [Option.some.injEq] at hs
      subst hs
      exact hi.setDestructor s.value s.frees .loadCont hdrop (by simp) hvoid (by simp)
        (by simp [hd])
  | loadCont =>
    have hdrop := hi.refs.destructor (by simp [hd])
    simp only [Future.destroyStep, hd] at hs
    split at hs
    next hslot =>
      cases hs
      exact hi.setDestructor s.value s.frees .delete hdrop (by simp) hvoid (fun _ => hslot)
        (by simp [hd])
    all_goals
      next hslot =>
        cases hs
        exact hi.setDestructor s.value s.frees .destroyed hdrop (by simp) hvoid (by simp)
          (by simp [hd, hslot])
  | delete =>
    have hdrop := hi.refs.destructor (by simp [hd])
    have hslot := hi.refs.deleting hd
    simp only [Future.destroyStep, hd, Option.some.injEq] at hs
    subst hs
    exact hi.setDestructor s.value (s.frees + 1) .destroyed hdrop (by simp) hvoid (by simp)
      (by simp [hd, hslot])
  | destroyed => simp [Future.destroyStep, hd] at hs

/-! ### The Invariant Holds in Every Run -/

theorem inv_step [DecidableEq T] [DecidableEq E] {l : Label T E} (hi : Inv kind s)
    (hs : next kind s l = some s') : Inv kind s' := by
  cases l with
  | callSetValue v =>
    simp only [next, Option.ite_none_right_eq_some, Option.some.injEq] at hs
    obtain ⟨⟨hidle, hdropped, haccepts⟩, rfl⟩ := hs
    refine hi.setProducer hdropped ?_ (by simp [hidle]) (by simp [hidle]) (by simp [hidle])
      (by simp [hidle])
    intro u w hkind hw
    cases hw
    simpa [hkind, Specialisation.accepts] using haccepts
  | callSetException e =>
    simp only [next, Option.ite_none_right_eq_some, Option.some.injEq] at hs
    obtain ⟨⟨hidle, hdropped⟩, rfl⟩ := hs
    exact hi.setProducer hdropped (by simp) (by simp [hidle]) (by simp [hidle])
      (by simp [hidle]) (by simp [hidle])
  | producer => exact hi.producerStep hs
  | callThen =>
    simp only [next, Option.ite_none_right_eq_some, Option.some.injEq] at hs
    obtain ⟨⟨hidle, hheld⟩, rfl⟩ := hs
    have hd : s.destructor = .notStarted := by
      by_contra hd
      have hdrop := (hi.refs.destructor hd).2
      simp [hheld] at hdrop
    have hl := (ledgerOk_iff hd).mp hi.ledger
    refine hi.of_consumer hd hheld rfl rfl rfl rfl rfl rfl rfl ?_
    cases hp : s.producer <;> simp_all
  | consumer => exact hi.consumerStep hs
  | callbackReturn side | callbackThrow side =>
    -- either way the continuation has left the side that called it
    cases side with
    | producer =>
      cases hp : s.producer <;> simp only [next, hp, Option.some.injEq, reduceCtorEq] at hs
      subst hs
      have hheld := hi.refs.held_of_producer (by simp [hp, ProducerPC.isRest])
      exact hi.setProducer hheld (by simpa [hp] using hi.payload.unit) (by simp [hp])
        (by simp [hp]) (by simp [hp]) (by simp [hp])
    | consumer =>
      cases hc : s.consumer <;> simp only [next, hc, Option.some.injEq, reduceCtorEq] at hs
      subst hs
      exact hi.endRun hc (by cases s.producer <;> simp)
  | dropProducer =>
    simp only [next, Option.ite_none_right_eq_some, Option.some.injEq] at hs
    obtain ⟨⟨hrest, hheld⟩, rfl⟩ := hs
    exact hi.setRefs true s.consumerDropped (fun _ => hrest) hi.refs.consumer
      (fun hd => ⟨rfl, (hi.refs.destructor hd).2⟩)
  | dropConsumer =>
    simp only [next, Option.ite_none_right_eq_some, Option.some.injEq] at hs
    obtain ⟨⟨hrest, hheld⟩, rfl⟩ := hs
    exact hi.setRefs s.producerDropped true hi.refs.producer (fun _ => hrest)
      (fun hd => ⟨(hi.refs.destructor hd).1, rfl⟩)
  | destroy => exact hi.destroyStep hs

end Steps

/-! ### The Contract -/

/-- `set_exception` was called. -/
def ProducerPC.isException : ProducerPC T E → Bool
  | .seAssert _ | .seStore _ | .seReady _ | .seExchange _ | .seDelete _ | .seDone _ => true
  | _ => false

/-- The continuation threw out of `set_value`. -/
def ProducerPC.threw : ProducerPC T E → Bool
  | .svThrew _ => true
  | _ => false

/-- The promise side is inside the continuation, or its next step calls
    or deletes it. -/
def ProducerPC.touches : ProducerPC T E → Bool
  | .svInvoke _ | .svRunning _ | .svDelete _ | .seDelete _ => true
  | _ => false

/-- The same for the future side. -/
def ConsumerPC.touches : ConsumerPC → Bool
  | .thInvoke | .thRunning | .thDelete => true
  | _ => false

/-- Some thread uses the continuation object. -/
def State.touches (s : State T E) : Prop :=
  s.producer.touches ∨ s.consumer.touches ∨ s.destructor = .delete

/-- What the protocol promises about the continuation at every moment. -/
structure ContinuationOk (s : State T E) : Prop where
  /-- It is never run before the value is there. -/
  afterValue : ∀ r ∈ s.runs, r.isSome ∧ s.ready
  once : s.runs.length ≤ 1
  /-- It has run with the value when both calls have completed. -/
  completed : ∀ v, s.producer = .svDone v → s.consumer = .thDone → s.runs = [some v]
  exceptional : s.producer.isException → s.runs = []
  noUseAfterFree : s.touches → s.allocated ∧ s.frees = 0
  noDoubleFree : s.frees ≤ 1

/-! ### Reading the Ledger -/

theorem ledger_runs {p : ProducerPC T E} {c : ConsumerPC} {l : Ledger T}
    (h : ledger p c = some l) :
    l.runs = [] ∨ p.published ∧ p.isException = false ∧ ∃ v, l.runs = [some v] := by
  cases p <;> cases c <;> simp at h <;> subst h <;> simp [ProducerPC.isException]

theorem ledger_touched {p : ProducerPC T E} {c : ConsumerPC} {l : Ledger T}
    (h : ledger p c = some l) (ht : p.touches ∨ c.touches) : l.allocated ∧ l.deleted = 0 := by
  cases p <;> cases c <;> simp at h <;> subst h <;>
    simp [ProducerPC.touches, ConsumerPC.touches] at ht ⊢

theorem ledger_deleted_le {p : ProducerPC T E} {c : ConsumerPC} {l : Ledger T}
    (h : ledger p c = some l) : l.deleted ≤ 1 := by
  cases p <;> cases c <;> simp at h <;> subst h <;> simp

/-- At rest, the continuation is freed or still in the slot, unless it
    threw out of `set_value`. -/
theorem ledger_rest {p : ProducerPC T E} {c : ConsumerPC} {l : Ledger T}
    (h : ledger p c = some l) (hp : p.isRest) (hc : c.isRest) :
    l.deleted + DestructorPC.destroyed.deleted l.slot =
      if l.allocated ∧ p.threw = false then 1 else 0 := by
  cases p <;> simp [ProducerPC.isRest] at hp <;> cases c <;> simp [ConsumerPC.isRest] at hc <;>
    simp at h <;> subst h <;> simp [ProducerPC.threw]

/-! ### The Contract in Every State -/

section Contract

variable {kind : Specialisation T} {s : State T E}

/-- Both sides are at rest once the destructor runs. -/
theorem Inv.rest_of_destructor (hi : Inv kind s) (hd : s.destructor ≠ .notStarted) :
    s.producer.isRest ∧ s.consumer.isRest := by
  obtain ⟨hp, hc⟩ := hi.refs.destructor hd
  exact ⟨hi.refs.producer hp, hi.refs.consumer hc⟩

/-- How often the continuation was freed in the end. -/
theorem Inv.frees_of_destroyed (hi : Inv kind s) (hd : s.destructor = .destroyed) :
    s.frees = if s.allocated ∧ s.producer.threw = false then 1 else 0 := by
  obtain ⟨deleted, hl, hfrees⟩ := hi.ledger
  obtain ⟨hp, hc⟩ := hi.rest_of_destructor (by simp [hd])
  have hrest := ledger_rest hl hp hc
  rw [hfrees, hd]
  exact hrest

/-- What threw out of `set_value` is the continuation `then` allocated. -/
theorem Inv.allocated_of_threw (hi : Inv kind s) (ht : s.producer.threw) : s.allocated := by
  obtain ⟨deleted, hl, -⟩ := hi.ledger
  cases hp : s.producer <;> simp [hp, ProducerPC.threw] at ht
  cases hc : s.consumer <;> simp [hp, hc] at hl
  exact hl.2.1

theorem Inv.frees_le (hi : Inv kind s) : s.frees ≤ 1 := by
  by_cases hd : s.destructor = .destroyed
  · rw [hi.frees_of_destroyed hd]
    split <;> simp
  · obtain ⟨deleted, hl, hfrees⟩ := hi.ledger
    have hle : deleted ≤ 1 := ledger_deleted_le hl
    simpa [hfrees, hd] using hle

theorem Inv.touched (hi : Inv kind s) (ht : s.touches) : s.allocated ∧ s.frees = 0 := by
  obtain ⟨deleted, hl, hfrees⟩ := hi.ledger
  by_cases hd : s.destructor = .delete
  · -- the destructor is about to delete what is in the slot
    obtain ⟨hp, hc⟩ := hi.rest_of_destructor (by simp [hd])
    have hrest : deleted + DestructorPC.destroyed.deleted s.continuation =
        if s.allocated ∧ s.producer.threw = false then 1 else 0 := ledger_rest hl hp hc
    have hslot : DestructorPC.destroyed.deleted s.continuation = 1 := by
      simp [hi.refs.deleting hd]
    have hnow : s.frees = deleted := by simpa [hd] using hfrees
    rw [hslot] at hrest
    split at hrest
    · next hboth => exact ⟨hboth.1, by omega⟩
    · omega
  · have hside : s.producer.touches ∨ s.consumer.touches := by
      rcases ht with hp | hc | hdel
      · exact .inl hp
      · exact .inr hc
      · exact absurd hdel hd
    have hrest : s.destructor = .notStarted := by
      rcases hside with hp | hc
      · apply hi.refs.notStarted_of_producer
        cases hpc : s.producer <;> simp [hpc, ProducerPC.touches, ProducerPC.isRest] at hp ⊢
      · apply hi.refs.notStarted_of_consumer
        cases hpc : s.consumer <;> simp [hpc, ConsumerPC.touches, ConsumerPC.isRest] at hc ⊢
    obtain ⟨halloc, hzero⟩ := ledger_touched hl hside
    exact ⟨halloc, by simpa [hrest, hfrees] using hzero⟩

theorem Inv.continuationOk (hi : Inv kind s) : ContinuationOk s := by
  obtain ⟨deleted, hl, -⟩ := hi.ledger
  have hruns : s.runs = [] ∨ s.producer.published ∧ s.producer.isException = false ∧
      ∃ v, s.runs = [some v] := ledger_runs hl
  constructor
  · intro r hr
    rcases hruns with hnil | ⟨hpub, -, v, hv⟩
    · simp [hnil] at hr
    · simp only [hv, List.mem_singleton] at hr
      rw [hi.payload.ready]
      exact ⟨by simp [hr], hpub⟩
  · rcases hruns with hnil | ⟨-, -, v, hv⟩
    · simp [hnil]
    · simp [hv]
  · intro v hp hc
    simp only [hp, hc, Future.ledger, ledgerAfterValue, Option.some.injEq, Ledger.mk.injEq] at hl
    exact hl.2.2.2.symm
  · intro hexc
    rcases hruns with hnil | ⟨-, hno, -⟩
    · exact hnil
    · simp [hexc] at hno
  · exact hi.touched
  · exact hi.frees_le

end Contract

section Runs

variable [DecidableEq T] [DecidableEq E] {kind : Specialisation T} {tr : List (Label T E)}
  {s : State T E}

theorem inv_run (hrun : (system T E kind).Run tr s) : Inv kind s := by
  apply hrun.invariant (P := Inv kind)
  · intro s hs
    rw [hs]
    exact inv_initial kind
  · intro s l s' hi hs
    exact inv_step hi hs

omit [DecidableEq T] [DecidableEq E] in
theorem threw_producerStep {s s' : State T E} (hs : producerStep kind s = some s') :
    s.producer.threw = false ∧ s'.producer.threw = false := by
  unfold producerStep at hs
  split at hs <;> (try split at hs) <;> (try split at hs) <;> cases hs <;>
    simp_all [ProducerPC.threw]

omit [DecidableEq T] [DecidableEq E] in
theorem destroyStep_producer {s s' : State T E} (hs : destroyStep kind s = some s') :
    s'.producer = s.producer := by
  unfold destroyStep at hs
  split at hs <;> (try split at hs) <;> (try split at hs) <;> cases hs <;> rfl

/-- A continuation that threw out of `set_value` leaves the promise side
    there for good. -/
theorem threw_step {s s' : State T E} {l : Label T E} (hs : next kind s l = some s') :
    s'.producer.threw ↔ l = .callbackThrow .producer ∨ s.producer.threw := by
  cases l with
  | callSetValue v | callSetException e =>
    simp only [next, Option.ite_none_right_eq_some, Option.some.injEq] at hs
    obtain ⟨⟨hidle, -⟩, rfl⟩ := hs
    simp [hidle, ProducerPC.threw]
  | producer =>
    obtain ⟨hbefore, hafter⟩ := threw_producerStep hs
    simp [hbefore, hafter]
  | consumer => simp [(consumerStep_frame hs).1]
  | callbackReturn side | callbackThrow side =>
    cases side with
    | producer =>
      cases hp : s.producer <;> simp only [next, hp, Option.some.injEq, reduceCtorEq] at hs
      subst hs
      simp [ProducerPC.threw]
    | consumer =>
      cases hc : s.consumer <;> simp only [next, hc, Option.some.injEq, reduceCtorEq] at hs
      subst hs
      simp
  | callThen | dropProducer | dropConsumer =>
    simp only [next, Option.ite_none_right_eq_some, Option.some.injEq] at hs
    obtain ⟨-, rfl⟩ := hs
    simp
  | destroy => simp [destroyStep_producer hs]

theorem threw_iff (hrun : (system T E kind).Run tr s) :
    .callbackThrow .producer ∈ tr ↔ s.producer.threw := by
  apply hrun.history_invariant (P := fun tr s => .callbackThrow .producer ∈ tr ↔
    s.producer.threw)
  · intro s hs
    rw [hs]
    simp [initial, ProducerPC.threw]
  · intro tr s l s' _ ih hs
    rw [List.mem_append, List.mem_singleton, ih, threw_step hs]
    tauto

/-- **The continuation protocol.** In every run the continuation keeps its
    contract, and once the shared state is destroyed it has been freed
    exactly once, if and only if it did not throw out of `set_value`. -/
theorem continuation_protocol (hrun : (system T E kind).Run tr s) :
    ContinuationOk s ∧
    (s.destructor = .destroyed →
      (s.frees = (if s.allocated then 1 else 0) ↔ .callbackThrow .producer ∉ tr)) := by
  have hi := inv_run hrun
  refine ⟨hi.continuationOk, ?_⟩
  intro hd
  rw [threw_iff hrun, hi.frees_of_destroyed hd]
  have hthrew := hi.allocated_of_threw
  cases ht : s.producer.threw <;> simp_all

end Runs

/-! ### Two Runs -/

/-- `then` stores the continuation, `set_value` calls it, it ends with
    `l`, and both sides let go. -/
def storedThenSet (v : ℕ) (l : Label ℕ ℕ) (rest : List (Label ℕ ℕ)) : List (Label ℕ ℕ) :=
  [.callThen, .consumer, .callSetValue v, .producer, .producer, .producer, .producer, .producer,
    l] ++ rest ++ [Label.dropProducer, .dropConsumer, .destroy, .destroy]

/-- The continuation returns: it is deleted by `set_value`. -/
theorem storedThenSet_protocol :
    ∃ s : State ℕ ℕ, (system ℕ ℕ .primary).Run
        (storedThenSet 7 (.callbackReturn .producer) [.producer]) s ∧
      s.runs = [some 7] ∧ s.destructor = .destroyed ∧ ContinuationOk s ∧
      s.frees = if s.allocated then 1 else 0 := by
  have hends : (System.exec (next .primary) (initial .primary)
      (storedThenSet 7 (.callbackReturn .producer) [.producer])).map
        (fun s => (s.runs, s.destructor)) = some ([some 7], .destroyed) := by decide
  obtain ⟨s, hrun, hends⟩ := System.exists_run_of_exec hends
  simp only [Prod.mk.injEq] at hends
  obtain ⟨hok, hfree⟩ := continuation_protocol hrun
  exact ⟨s, hrun, hends.1, hends.2, hok, (hfree hends.2).mpr (by decide)⟩

/-- The continuation throws: nobody deletes it. -/
theorem throwing_continuation_leaks :
    ¬ ∀ (tr : List (Label ℕ ℕ)) (s : State ℕ ℕ), (system ℕ ℕ .primary).Run tr s →
      s.destructor = .destroyed → s.allocated → s.frees = 1 := by
  intro hall
  have hends : (System.exec (next .primary) (initial .primary)
      (storedThenSet 7 (.callbackThrow .producer) [])).map
        (fun s => (s.destructor, s.allocated, s.frees)) = some (.destroyed, true, 0) := by decide
  obtain ⟨s, hrun, hends⟩ := System.exists_run_of_exec hends
  simp only [Prod.mk.injEq] at hends
  have hone := hall _ s hrun hends.1 hends.2.1
  omega

end Forge.Future
