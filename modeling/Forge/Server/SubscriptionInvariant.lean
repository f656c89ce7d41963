import Forge.Server.Subscription
import Forge.Session.SessionCounts
import Mathlib.Data.List.Chain

/-! # Subscriptions — What Is Emitted

  - `GetMoves`: what a step in `get_session` can do, and what it has read;
  - `Tracks`: what was read is a part of what the session was, in order;
  - `Stream`: the events emitted so far, by where the provider is;
  - `Inv.reads_step`, `inv_run`: the invariant, and what carries it.
-/

namespace Forge

open LTS

namespace Subscription

open SessionManager (SessionInfo Params Call Observed)

variable {P : Params} {t id : ℕ} {s s' : State P} {m m' : SessionManager.State P} {l : Label}

/-! ### What a Step Can Do -/

/-- A step of the provider with its sink. -/
inductive Writes (p : Provider) : Bool → Provider → Prop where
  | error {w} : p.pc = .writeError →
      Writes p w { p.emit .error w with pc := .yielded false, isDone := true }
  | state {i} : p.pc = .writeState i →
      Writes p true
        { p.emit (.state i) true with pc := if i.state.terminal then .writeDone else .sleep }
  | disconnected {i} : p.pc = .writeState i → Writes p false { p with pc := .yielded false }
  | done {w} : p.pc = .writeDone →
      Writes p w { p.emit .done w with pc := .yielded false, isDone := true }
  | sleep {w} : p.pc = .sleep → Writes p w { p with pc := .yielded true }

/-- A step, by where the provider is. -/
inductive Moves (t id : ℕ) (s : State P) : Label → State P → Prop where
  | manager {a : SessionManager.Label} {m : SessionManager.State P} : a.thread ≠ some t →
      SessionManager.Moves s.manager a m → Moves t id s (.manager a) (s.advance id m)
  | badId {w} : s.pc = .idle →
      Moves t id s (.serve w) { s with pc := .refused 400 "Invalid session ID" }
  | request {w} {m : SessionManager.State P} : s.pc = .idle →
      SessionManager.Moves s.manager (.call t (.get id)) m →
      Moves t id s (.serve w) { s.advance id m with pc := .verify }
  | verify {w} {m : SessionManager.State P} {r : Option (Option SessionInfo)} : s.pc = .verify →
      getStep t s.manager = some (m, r) →
      Moves t id s (.serve w) { s.advance id m with toProvider := s.verified r }
  | call {w} {m : SessionManager.State P} : s.pc = .yielded true →
      SessionManager.Moves s.manager (.call t (.get id)) m →
      Moves t id s (.serve w) { s.advance id m with pc := .poll }
  | poll {w} {m : SessionManager.State P} {r : Option (Option SessionInfo)} : s.pc = .poll →
      getStep t s.manager = some (m, r) →
      Moves t id s (.serve w) { s.advance id m with toProvider := s.observed r }
  | write {w} {p : Provider} : Writes s.toProvider w p →
      Moves t id s (.serve w) { s with toProvider := p }

theorem writes_of_write {p p' : Provider} {written : Bool} (hs : p.write written = some p') :
    Writes p written p' := by
  unfold Provider.write at hs
  split at hs
  case h_1 hpc =>
    cases hs
    exact .error hpc
  case h_2 i hpc =>
    split at hs
    · next hw =>
      cases hs
      subst hw
      exact .state hpc
    · next hw =>
      cases hs
      obtain rfl : written = false := by simpa using hw
      exact .disconnected hpc
  case h_3 hpc =>
    cases hs
    exact .done hpc
  case h_4 hpc =>
    cases hs
    exact .sleep hpc
  case h_5 => cases hs

/-- The inversion of the step function. -/
theorem moves_of_next (hs : next t id s l = some s') : Moves t id s l s' := by
  cases l with
  | manager l =>
    simp only [next, Option.ite_none_left_eq_some, Option.map_eq_some_iff] at hs
    obtain ⟨hthread, m, hm, rfl⟩ := hs
    exact .manager hthread (SessionManager.moves_of_next hm)
  | serve w =>
    simp only [next, serve] at hs
    split at hs
    case h_1 hpc =>
      split at hs
      · cases hs
        exact .badId hpc
      · obtain ⟨m, hm, rfl⟩ := Option.map_eq_some_iff.mp hs
        exact .request hpc (SessionManager.moves_of_next hm)
    case h_2 hpc =>
      obtain ⟨⟨m, r⟩, hget, rfl⟩ := Option.map_eq_some_iff.mp hs
      exact .verify hpc hget
    case h_3 again hpc =>
      obtain ⟨⟨hagain, -⟩, hs⟩ := Option.ite_none_right_eq_some.mp hs
      obtain ⟨m, hm, rfl⟩ := Option.map_eq_some_iff.mp hs
      rw [hagain] at hpc
      exact .call hpc (SessionManager.moves_of_next hm)
    case h_4 hpc =>
      obtain ⟨⟨m, r⟩, hget, rfl⟩ := Option.map_eq_some_iff.mp hs
      exact .poll hpc hget
    case h_5 =>
      obtain ⟨p, hp, rfl⟩ := Option.map_eq_some_iff.mp hs
      exact .write (writes_of_write hp)

/-! ### Polling -/

/-- A call of `get_session(id)`. -/
def Getting (id : ℕ) : Call → Prop
  | .lookup p | .readState p | .readStepCount p _ | .readAnswer p _ _ | .readError p _ _ _ => p = id
  | .returned (.info none) => True
  | .returned (.info (some i)) => i.id = id
  | _ => False

/-- The state that a call has read. -/
def readStates : Call → List SessionState
  | .readStepCount _ st | .readAnswer _ st _ | .readError _ st _ _ => [st]
  | .returned (.info (some i)) => [i.state]
  | _ => []

/-- The step count that a call has read. -/
def readCounts : Call → List ℕ
  | .readAnswer _ _ n | .readError _ _ n _ => [n]
  | .returned (.info (some i)) => [i.stepCount]
  | _ => []

/-- A call goes on from `c` to `c'`: it has read nothing new, or the value
  there is now. -/
def Reads {α : Type} (read : Call → List α) (now : Option α) (c c' : Call) : Prop :=
  read c' = read c ∨ (read c = [] ∧ ∃ a, now = some a ∧ read c' = [a])

/-- What a step in `get_session` can do: it goes on with its call, or comes
  back with what that has returned. -/
inductive GetMoves (t id : ℕ) (m : SessionManager.State P) :
    SessionManager.State P → Option (Option SessionInfo) → Prop where
  | step {c : Call} : Getting id c →
      Reads readStates ((m.objects id).map fun o => o.session.state) (m.calls t) c →
      Reads readCounts ((m.objects id).map fun o => o.session.stepCount) (m.calls t) c →
      GetMoves t id m (m.setCall t c) none
  | ret {r : Option SessionInfo} : m.calls t = .returned (.info r) →
      GetMoves t id m (m.setCall t .idle) (some r)

theorem getMoves_of_getStep {r : Option (Option SessionInfo)} (hi : SessionManager.Inv m)
    (hget : Getting id (m.calls t)) (hs : getStep t m = some (m', r)) : GetMoves t id m m' r := by
  unfold getStep at hs
  split at hs
  · next i hcall =>
    obtain ⟨m₁, hnext, heq⟩ := Option.map_eq_some_iff.mp hs
    cases heq
    cases SessionManager.moves_of_next hnext
    exact .ret hcall
  · next hnot =>
    obtain ⟨m₁, hnext, heq⟩ := Option.map_eq_some_iff.mp hs
    cases heq
    cases SessionManager.moves_of_next hnext with
    | thread hthread =>
      cases hthread
      case lookup q p hcall hp =>
        rw [hcall] at hget
        obtain rfl : q = id := hget
        have hpid : p = q := (hi.ids.entries q p hp).1
        exact .step hpid (.inl (by rw [hcall]; rfl)) (.inl (by rw [hcall]; rfl))
      case notFound q hcall hp =>
        exact .step trivial (.inl (by rw [hcall]; rfl)) (.inl (by rw [hcall]; rfl))
      case readState p o hcall ho =>
        rw [hcall] at hget
        obtain rfl : p = id := hget
        exact .step rfl (.inr ⟨by rw [hcall]; rfl, o.session.state, by rw [ho]; rfl, rfl⟩)
          (.inl (by rw [hcall]; rfl))
      case readStepCount p st o hcall ho =>
        rw [hcall] at hget
        obtain rfl : p = id := hget
        exact .step rfl (.inl (by rw [hcall]; rfl))
          (.inr ⟨by rw [hcall]; rfl, o.session.stepCount, by rw [ho]; rfl, rfl⟩)
      case readAnswer p st n o hcall ho =>
        rw [hcall] at hget
        exact .step hget (.inl (by rw [hcall]; rfl)) (.inl (by rw [hcall]; rfl))
      case readError p st n answer o hcall ho =>
        rw [hcall] at hget
        obtain rfl : p = id := hget
        have hid : o.session.id = p := (hi.objects p o ho).id
        exact .step hid (.inl (by rw [hcall]; rfl)) (.inl (by rw [hcall]; rfl))
      -- no other call is one of `get_session`
      all_goals
        next hcall =>
        simp [Getting, *] at hget

/-! ### What Was Read -/

/-- What the polls have returned, and what the call under way has read, is a
  part of what the session was, in its order. -/
def Tracks {α : Type} (t : ℕ) (read : Call → List α) (seen : SessionInfo → α) (f : Session → α)
    (s : State P) : Prop :=
  (s.polled.map seen ++ read (s.manager.calls t)).Sublist (s.held.map f)

section Tracks

variable {α : Type} {read : Call → List α} {seen : SessionInfo → α} {f : Session → α}

/-- The manager goes on. -/
theorem Tracks.advance (h : Tracks t read seen f s)
    (hreads : Reads read ((m.objects id).map fun o => f o.session) (s.manager.calls t)
      (m.calls t)) : Tracks t read seen f (s.advance id m) := by
  show (s.polled.map seen ++ read (m.calls t)).Sublist
    ((s.held ++ ((m.objects id).map SessionManager.Object.session).toList).map f)
  rw [List.map_append]
  obtain hsame | ⟨hnone, a, hnow, hread⟩ := hreads
  · rw [hsame]
    exact h.trans (List.sublist_append_left _ _)
  · have hheld : (s.polled.map seen).Sublist (s.held.map f) := by
      have hsub : (s.polled.map seen ++ read (s.manager.calls t)).Sublist (s.held.map f) := h
      rwa [hnone, List.append_nil] at hsub
    obtain ⟨o, ho, rfl⟩ := Option.map_eq_some_iff.mp hnow
    rw [hread, ho]
    exact hheld.append (List.Sublist.refl _)

/-- Nothing is read. -/
theorem Tracks.mono (h : Tracks t read seen f s)
    (hsub : (s'.polled.map seen ++ read (s'.manager.calls t)).Sublist
      (s.polled.map seen ++ read (s.manager.calls t)))
    (hheld : s.held <+: s'.held) : Tracks t read seen f s' :=
  (hsub.trans h).trans (hheld.sublist.map f)

end Tracks

/-! ### What Is Emitted -/

/-- What two events are compared by. -/
def pair (i : SessionInfo) : SessionState × ℕ := (i.state, i.stepCount)

/-- The pairs emitted, after the one the provider starts with. -/
def pairs (infos : List SessionInfo) : List (SessionState × ℕ) := (.created, 0) :: infos.map pair

/-- Of what was polled `infos` has been emitted, and no end was seen. -/
structure Emitted (infos polled : List SessionInfo) : Prop where
  sublist : infos.Sublist polled
  going : ∀ i ∈ polled, i.state.terminal = false
  differ : (pairs infos).IsChain (· ≠ ·)

/-- The provider may be called again. -/
structure Going (p : Provider) (infos : List SessionInfo) : Prop where
  emitted : Emitted infos p.polled
  events : p.events = infos.map .state
  last : (pairs infos).getLast? = some (p.lastState, p.lastStep)
  isDone : p.isDone = false

/-- It has polled `i`, which is not what was emitted last. -/
structure Changed (p : Provider) (infos before : List SessionInfo) (i : SessionInfo) : Prop where
  emitted : Emitted infos before
  polled : p.polled = before ++ [i]
  differ : (pairs (infos ++ [i])).IsChain (· ≠ ·)

/-- It will not be called again: the client has gone, the session has ended,
  or is not there any more. -/
inductive Ended (p : Provider) : Prop where
  | gone {infos before i} : Changed p infos before i → p.events = infos.map .state → Ended p
  | finished {infos before i} {w : Bool} : Changed p infos before i → i.state.terminal →
      p.events = (infos ++ [i]).map .state ++ (if w then [.done] else []) → Ended p
  | missing {infos} {w : Bool} : Emitted infos p.polled →
      p.events = infos.map .state ++ (if w then [.error] else []) → Ended p

/-- The stream is as far as the provider is. -/
def Stream (p : Provider) : Prop :=
  match p.pc with
  | .writeState i => ∃ infos before, Changed p infos before i ∧ p.events = infos.map .state ∧
      (p.lastState, p.lastStep) = pair i ∧ p.isDone = false
  | .writeDone => ∃ infos before i, Changed p infos before i ∧ i.state.terminal ∧
      p.events = (infos ++ [i]).map .state
  | .yielded false => Ended p
  | _ => ∃ infos, Going p infos

variable {p p' : Provider} {infos before : List SessionInfo} {i : SessionInfo} {w : Bool}

theorem pairs_snoc (infos : List SessionInfo) (i : SessionInfo) :
    pairs (infos ++ [i]) = pairs infos ++ [pair i] := by
  simp [pairs]

/-- Another poll that has changed nothing. -/
theorem Emitted.poll {polled : List SessionInfo} (h : Emitted infos polled)
    (hgoing : i.state.terminal = false) : Emitted infos (polled ++ [i]) where
  sublist := h.sublist.trans (List.sublist_append_left _ _)
  going := List.forall_mem_append.mpr ⟨h.going, by simpa using hgoing⟩
  differ := h.differ

/-- A pair that differs from the last one. -/
theorem Going.differ (h : Going p infos)
    (hchanged : i.state ≠ p.lastState ∨ i.stepCount ≠ p.lastStep) :
    (pairs (infos ++ [i])).IsChain (· ≠ ·) := by
  rw [pairs_snoc, List.isChain_append]
  refine ⟨h.emitted.differ, List.isChain_singleton _, ?_⟩
  intro x hx y hy
  obtain rfl : (p.lastState, p.lastStep) = x := Option.some.inj (h.last.symm.trans hx)
  obtain rfl : pair i = y := Option.some.inj hy
  rw [pair, Ne, Prod.mk.injEq, not_and_or]
  exact hchanged.imp Ne.symm Ne.symm

/-- The last event was no end. -/
theorem Going.last_going (h : Going p infos) : p.lastState.terminal = false := by
  have hmem : (p.lastState, p.lastStep) ∈ pairs infos := List.mem_of_getLast? h.last
  rcases List.mem_cons.mp hmem with heq | hmem
  · rw [(Prod.mk.inj heq).1]
    rfl
  · obtain ⟨i, hi, heq⟩ := List.mem_map.mp hmem
    rw [← (Prod.mk.inj heq).1]
    exact h.emitted.going i (h.emitted.sublist.subset hi)

theorem Changed.congr (h : Changed p infos before i) (hpolled : p'.polled = p.polled) :
    Changed p' infos before i :=
  ⟨h.emitted, hpolled.trans h.polled, h.differ⟩

/-- The event has been written. -/
theorem Changed.emitted_snoc (h : Changed p infos before i) (hgoing : i.state.terminal = false) :
    Emitted (infos ++ [i]) p.polled where
  sublist := by
    rw [h.polled]
    exact h.emitted.sublist.append (List.Sublist.refl _)
  going := by
    rw [h.polled]
    exact List.forall_mem_append.mpr ⟨h.emitted.going, by simpa using hgoing⟩
  differ := h.differ

/-! ### Steps of the Provider -/

/-- Where the provider may be called again, at another place. -/
theorem Going.goto (h : Going p infos) (pc : PC) : Going { p with pc := pc } infos :=
  ⟨h.emitted, h.events, h.last, h.isDone⟩

theorem Stream.verified (h : Stream p) (hpc : p.pc = .verify) (r : Option (Option SessionInfo)) :
    Stream (p.verified r) := by
  have hgoing : ∃ infos, Going p infos := by
    unfold Stream at h
    rwa [hpc] at h
  obtain ⟨infos, hgoing⟩ := hgoing
  obtain _ | _ | i := r
  · exact h
  · exact ⟨infos, hgoing.goto _⟩
  · exact ⟨infos, hgoing.goto _⟩

theorem Stream.observed (h : Stream p) (hpc : p.pc = .poll) (r : Option (Option SessionInfo)) :
    Stream (p.observed r) := by
  have hgoing : ∃ infos, Going p infos := by
    unfold Stream at h
    rwa [hpc] at h
  obtain ⟨infos, hgoing⟩ := hgoing
  obtain _ | _ | i := r
  · exact h
  · exact ⟨infos, hgoing.goto _⟩
  · show Stream (if i.state ≠ p.lastState ∨ i.stepCount ≠ p.lastStep then _ else _)
    split
    · next hchanged =>
      exact ⟨infos, p.polled, ⟨hgoing.emitted, rfl, hgoing.differ hchanged⟩, hgoing.events, rfl,
        hgoing.isDone⟩
    · next hsame =>
      have hstate : i.state = p.lastState := by
        by_contra hne
        exact hsame (.inl hne)
      have hnot : i.state.terminal = false := by
        rw [hstate]
        exact hgoing.last_going
      exact ⟨infos, hgoing.emitted.poll hnot, hgoing.events, hgoing.last, hgoing.isDone⟩

theorem emit_events (p : Provider) (e : Event) (w : Bool) :
    (p.emit e w).events = p.events ++ (if w then [e] else []) := by
  cases w with
  | false => exact (List.append_nil _).symm
  | true => rfl

@[simp] theorem emit_polled (p : Provider) (e : Event) (w : Bool) :
    (p.emit e w).polled = p.polled := by
  cases w <;> rfl

theorem Stream.write (h : Stream p) (hs : Writes p w p') : Stream p' := by
  unfold Stream at h
  cases hs with
  | error hpc =>
    rw [hpc] at h
    obtain ⟨infos, hgoing⟩ := h
    refine @Ended.missing _ infos w ?_ ?_
    · show Emitted infos (p.emit .error w).polled
      rw [emit_polled]
      exact hgoing.emitted
    · show (p.emit .error w).events = _
      rw [emit_events, hgoing.events]
  | @state i hpc =>
    rw [hpc] at h
    obtain ⟨infos, before, hchanged, hevents, hlast, hdone⟩ := h
    have hevents' : p.events ++ [.state i] = (infos ++ [i]).map .state := by
      rw [hevents, List.map_append]
      rfl
    unfold Stream
    cases hterm : i.state.terminal with
    | false =>
      refine ⟨infos ++ [i], hchanged.emitted_snoc hterm, hevents', ?_, hdone⟩
      show (pairs (infos ++ [i])).getLast? = some (p.lastState, p.lastStep)
      rw [pairs_snoc, List.getLast?_concat, hlast]
    | true =>
      exact ⟨infos, before, i, hchanged.congr rfl, hterm, hevents'⟩
  | disconnected hpc =>
    rw [hpc] at h
    obtain ⟨infos, before, hchanged, hevents, -, -⟩ := h
    exact .gone (hchanged.congr rfl) hevents
  | done hpc =>
    rw [hpc] at h
    obtain ⟨infos, before, i, hchanged, hterm, hevents⟩ := h
    refine .finished (w := w) (hchanged.congr (emit_polled p .done w)) hterm ?_
    show (p.emit .done w).events = _
    rw [emit_events, hevents]
  | sleep hpc =>
    rw [hpc] at h
    obtain ⟨infos, hgoing⟩ := h
    exact ⟨infos, hgoing.goto _⟩

/-- **Step of the stream.** -/
theorem Stream.step (h : Stream s.toProvider) (hs : Moves t id s l s') : Stream s'.toProvider := by
  cases hs with
  | manager => exact h
  | poll hpc => exact h.observed hpc _
  | write hwrite => exact h.write hwrite
  | verify hpc => exact h.verified hpc _
  | badId hpc | request hpc _ | call hpc _ =>
    unfold Stream at h
    rw [hpc] at h
    obtain ⟨infos, hgoing⟩ := h
    exact ⟨infos, hgoing.goto _⟩

/-! ### Steps of the Manager -/

/-- `max_iterations` is an `unsigned`. -/
def Label.InRange : Label → Prop
  | .manager a => a.InRange
  | .serve _ => True

instance (l : Label) : Decidable l.InRange :=
  match l with
  | .manager a => inferInstanceAs (Decidable a.InRange)
  | .serve _ => .isTrue trivial

/-- A step of the manager goes along with a step, or none. -/
def Accompanied (id : ℕ) (s : State P) (l : Label) (s' : State P) : Prop :=
  (s'.manager = s.manager ∧ s'.held = s.held) ∨
    ∃ a, SessionManager.Moves s.manager a s'.manager ∧ (l.InRange → a.InRange) ∧
      s'.held =
        s.held ++ ((s'.manager.objects id).map SessionManager.Object.session).toList

theorem moves_of_getStep {r : Option (Option SessionInfo)} (hs : getStep t m = some (m', r)) :
    ∃ a, SessionManager.Moves m a m' ∧ a.InRange := by
  unfold getStep at hs
  split at hs
  · obtain ⟨m₁, hnext, heq⟩ := Option.map_eq_some_iff.mp hs
    cases heq
    exact ⟨_, SessionManager.moves_of_next hnext, trivial⟩
  · obtain ⟨m₁, hnext, heq⟩ := Option.map_eq_some_iff.mp hs
    cases heq
    exact ⟨_, SessionManager.moves_of_next hnext, trivial⟩

theorem accompanied (hs : Moves t id s l s') : Accompanied id s l s' := by
  cases hs with
  | manager _ hm => exact .inr ⟨_, hm, fun h => h, rfl⟩
  | request _ hm | call _ hm => exact .inr ⟨_, hm, fun _ => trivial, rfl⟩
  | verify _ hget | poll _ hget =>
    obtain ⟨a, hm, hrange⟩ := moves_of_getStep hget
    exact .inr ⟨a, hm, fun _ => hrange, rfl⟩
  | badId | write => exact .inl ⟨rfl, rfl⟩

theorem polled_observed (q : Provider) (i : SessionInfo) :
    (q.observed (some (some i))).polled = q.polled ++ [i] := by
  simp only [Provider.observed]
  split <;> rfl

theorem polled_of_writes (hs : Writes p w p') : p'.polled = p.polled := by
  cases hs with
  | error | done => exact emit_polled _ _ _
  | state | disconnected | sleep => rfl

/-- What has been polled after a step. -/
theorem polled_of_moves (hs : Moves t id s l s') : s'.polled = s.polled ∨
    ∃ i, s.pc = .poll ∧ s.manager.calls t = .returned (.info (some i)) ∧
      s'.polled = s.polled ++ [i] := by
  cases hs with
  | manager | badId | request | call => exact .inl rfl
  | @verify w m r hpc =>
    left
    obtain _ | _ | i := r <;> rfl
  | @poll w m r hpc hget =>
    obtain _ | _ | i := r
    · exact .inl rfl
    · exact .inl rfl
    · right
      refine ⟨i, hpc, ?_, ?_⟩
      · unfold getStep at hget
        split at hget
        · next i' hcall =>
          obtain ⟨m₁, -, heq⟩ := Option.map_eq_some_iff.mp hget
          cases heq
          exact hcall
        · obtain ⟨m₁, -, heq⟩ := Option.map_eq_some_iff.mp hget
          cases heq
      · exact polled_observed _ i
  | write hwrite => exact .inl (polled_of_writes hwrite)

/-- Where thread `t` is in the manager. -/
def Calling (t id : ℕ) (s : State P) : Prop :=
  match s.pc with
  | .verify | .poll => Getting id (s.manager.calls t)
  | _ => s.manager.calls t = .idle

/-- The invariant of a subscription. -/
structure Inv (t id : ℕ) (s : State P) : Prop where
  manager : SessionManager.Inv s.manager
  calling : Calling t id s
  states : Tracks t readStates SessionInfo.state Session.state s
  counts : Tracks t readCounts SessionInfo.stepCount Session.stepCount s
  polled : ∀ i ∈ s.polled, i.id = id ∧ Observed s.manager id i.state fun x =>
    i.finalAnswer = x.finalAnswer ∧ i.error = x.error
  stream : Stream s.toProvider

theorem stream_initial : Stream (initial P).toProvider :=
  ⟨[], ⟨.slnil, by simp [initial], List.isChain_singleton _⟩, rfl, rfl, rfl⟩

theorem inv_initial : Inv t id (initial P) where
  manager := SessionManager.inv_initial
  calling := rfl
  states := List.Sublist.slnil
  counts := List.Sublist.slnil
  polled := by simp [initial]
  stream := stream_initial

/-- What has been polled stays true. -/
theorem Inv.polled_step (hi : Inv t id s) (hs : Moves t id s l s') : ∀ i ∈ s'.polled,
    i.id = id ∧ Observed s'.manager id i.state fun x =>
      i.finalAnswer = x.finalAnswer ∧ i.error = x.error := by
  have hgrows : SessionManager.Grows s.manager s'.manager := by
    obtain ⟨hm, -⟩ | ⟨a, hm, -⟩ := accompanied hs
    · rw [hm]
      exact .refl _
    · exact hi.manager.grows hm
  have hkeeps : ∀ i : SessionInfo, (Observed s.manager id i.state fun x =>
      i.finalAnswer = x.finalAnswer ∧ i.error = x.error) →
      Observed s'.manager id i.state fun x => i.finalAnswer = x.finalAnswer ∧ i.error = x.error :=
    fun i h => h.grows hgrows
      fun _ _ hx h => ⟨h.1.trans hx.finalAnswer.symm, h.2.trans hx.error.symm⟩
  intro i hmem
  have hold : ∀ i ∈ s.polled, i.id = id ∧ Observed s'.manager id i.state fun x =>
      i.finalAnswer = x.finalAnswer ∧ i.error = x.error :=
    fun i hmem => ⟨(hi.polled i hmem).1, hkeeps i (hi.polled i hmem).2⟩
  obtain heq | ⟨i', hpc, hcall, heq⟩ := polled_of_moves hs
  · rw [heq] at hmem
    exact hold i hmem
  · rw [heq] at hmem
    rcases List.mem_append.mp hmem with hmem | hmem
    · exact hold i hmem
    · obtain rfl := List.mem_singleton.mp hmem
      have hcalling := hi.calling
      have hok := hi.manager.calls t
      unfold Calling at hcalling
      rw [hpc] at hcalling
      rw [hcall] at hcalling hok
      have hid : i.id = id := hcalling
      refine ⟨hid, hkeeps i ?_⟩
      rw [← hid]
      exact hok

/-- Outside `get_session` the thread is idle. -/
theorem Calling.idle (h : Calling t id s) (hverify : s.pc ≠ .verify) (hpoll : s.pc ≠ .poll) :
    s.manager.calls t = .idle := by
  unfold Calling at h
  split at h
  · next hpc => exact absurd hpc hverify
  · next hpc => exact absurd hpc hpoll
  · exact h

theorem calling_of_idle (hidle : s.manager.calls t = .idle) (hverify : s.pc ≠ .verify)
    (hpoll : s.pc ≠ .poll) : Calling t id s := by
  unfold Calling
  split
  · next hpc => exact absurd hpc hverify
  · next hpc => exact absurd hpc hpoll
  · exact hidle

section GetMoves

variable {α : Type} {read : Call → List α} {seen : SessionInfo → α} {f : Session → α} {c : Call}
  {q : Provider}

/-- The call of `get_session` goes on. -/
theorem Tracks.step (h : Tracks t read seen f s)
    (hreads : Reads read ((s.manager.objects id).map fun o => f o.session) (s.manager.calls t) c)
    (hpolled : q.polled = s.polled) :
    Tracks t read seen f { s.advance id (s.manager.setCall t c) with toProvider := q } := by
  have hc : (s.manager.setCall t c).calls t = c := Function.update_self _ _ _
  have hnext : Tracks t read seen f (s.advance id (s.manager.setCall t c)) := by
    apply h.advance
    rw [hc]
    exact hreads
  unfold Tracks at hnext ⊢
  rw [hpolled]
  exact hnext

/-- It has returned. -/
theorem Tracks.ret (h : Tracks t read seen f s) (hidle : read .idle = [])
    (hpolled : (q.polled.map seen).Sublist (s.polled.map seen ++ read (s.manager.calls t))) :
    Tracks t read seen f { s.advance id (s.manager.setCall t .idle) with toProvider := q } := by
  refine h.mono ?_ (List.prefix_append _ _)
  show (q.polled.map seen ++ read (Function.update s.manager.calls t .idle t)).Sublist _
  rw [Function.update_self, hidle, List.append_nil]
  exact hpolled

end GetMoves

theorem observed_pc (q : Provider) (i : SessionInfo) :
    (q.observed (some (some i))).pc ≠ .verify ∧ (q.observed (some (some i))).pc ≠ .poll := by
  simp only [Provider.observed]
  split <;> simp

theorem pc_of_writes {q : Provider} (hs : Writes p w q) : q.pc ≠ .verify ∧ q.pc ≠ .poll := by
  cases hs with
  | error | disconnected | done | sleep => exact ⟨nofun, nofun⟩
  | @state i =>
    show (if i.state.terminal then PC.writeDone else PC.sleep) ≠ _ ∧ _ ≠ _
    split <;> exact ⟨nofun, nofun⟩

/-- The call of `get_session` has not returned. -/
theorem Inv.getting_step (hi : Inv t id s) (hpc : s.pc = .verify ∨ s.pc = .poll) {c : Call}
    (hgetting : Getting id c)
    (hstates : Reads readStates ((s.manager.objects id).map fun o => o.session.state)
      (s.manager.calls t) c)
    (hcounts : Reads readCounts ((s.manager.objects id).map fun o => o.session.stepCount)
      (s.manager.calls t) c) :
    Calling t id (s.advance id (s.manager.setCall t c)) ∧
      Tracks t readStates SessionInfo.state Session.state
        (s.advance id (s.manager.setCall t c)) ∧
      Tracks t readCounts SessionInfo.stepCount Session.stepCount
        (s.advance id (s.manager.setCall t c)) := by
  refine ⟨?_, hi.states.step hstates rfl, hi.counts.step hcounts rfl⟩
  unfold Calling
  show match s.pc with
    | .verify | .poll => Getting id (Function.update s.manager.calls t c t)
    | _ => Function.update s.manager.calls t c t = .idle
  rcases hpc with hpc | hpc
  · rw [hpc, Function.update_self]
    exact hgetting
  · rw [hpc, Function.update_self]
    exact hgetting

/-- The call under way, and what it has read. -/
theorem Inv.reads_step (hi : Inv t id s) (hs : Moves t id s l s') :
    Calling t id s' ∧ Tracks t readStates SessionInfo.state Session.state s' ∧
      Tracks t readCounts SessionInfo.stepCount Session.stepCount s' := by
  have hcalling := hi.calling
  cases hs with
  | @manager a m hthread hm =>
    have hcalls : m.calls t = s.manager.calls t := SessionManager.calls_of_moves hm hthread
    refine ⟨?_, hi.states.advance (.inl (by rw [hcalls])),
      hi.counts.advance (.inl (by rw [hcalls]))⟩
    unfold Calling at hcalling ⊢
    show match s.pc with
      | .verify | .poll => Getting id (m.calls t)
      | _ => m.calls t = .idle
    rw [hcalls]
    exact hcalling
  | badId hpc =>
    have hidle := hcalling.idle (by rw [hpc]; nofun) (by rw [hpc]; nofun)
    exact ⟨hidle, hi.states, hi.counts⟩
  | @request w m hpc hm | @call w m hpc hm =>
    have hidle := hcalling.idle (by rw [hpc]; nofun) (by rw [hpc]; nofun)
    have hlookup : m.calls t = .lookup id := by
      cases hm
      exact Function.update_self _ _ _
    have hgetting : Getting id (m.calls t) := by
      rw [hlookup]
      rfl
    exact ⟨hgetting, hi.states.advance (.inl (by rw [hlookup, hidle]; rfl)),
      hi.counts.advance (.inl (by rw [hlookup, hidle]; rfl))⟩
  | @verify w m r hpc hget =>
    unfold Calling at hcalling
    rw [hpc] at hcalling
    cases getMoves_of_getStep hi.manager hcalling hget with
    | step hgetting hstates hcounts => exact hi.getting_step (.inl hpc) hgetting hstates hcounts
    | @ret r hcall =>
      have hpolled : (s.verified (some r)).polled = s.polled := by cases r <;> rfl
      refine ⟨calling_of_idle (Function.update_self _ _ _) ?_ ?_,
        hi.states.ret rfl ?_, hi.counts.ret rfl ?_⟩
      · cases r <;> nofun
      · cases r <;> nofun
      · rw [hpolled]
        exact List.sublist_append_left _ _
      · rw [hpolled]
        exact List.sublist_append_left _ _
  | @poll w m r hpc hget =>
    unfold Calling at hcalling
    rw [hpc] at hcalling
    cases getMoves_of_getStep hi.manager hcalling hget with
    | step hgetting hstates hcounts => exact hi.getting_step (.inr hpc) hgetting hstates hcounts
    | @ret r hcall =>
      cases r with
      | none =>
        exact ⟨calling_of_idle (Function.update_self _ _ _) nofun nofun,
          hi.states.ret rfl (List.sublist_append_left _ _),
          hi.counts.ret rfl (List.sublist_append_left _ _)⟩
      | some i =>
        obtain ⟨hverify, hpoll⟩ := observed_pc s.toProvider i
        refine ⟨calling_of_idle (Function.update_self _ _ _) hverify hpoll,
          hi.states.ret rfl ?_, hi.counts.ret rfl ?_⟩
        · rw [polled_observed, hcall, List.map_append]
          exact List.Sublist.refl _
        · rw [polled_observed, hcall, List.map_append]
          exact List.Sublist.refl _
  | @write w q hwrite =>
    have hpolled : ({ s with toProvider := q } : State P).polled = s.polled :=
      polled_of_writes hwrite
    have hidle : s.manager.calls t = .idle := by
      cases hwrite with
      | error hpc | state hpc | disconnected hpc | done hpc | sleep hpc =>
        exact hcalling.idle (by rw [hpc]; nofun) (by rw [hpc]; nofun)
    obtain ⟨hverify, hpoll⟩ := pc_of_writes hwrite
    refine ⟨calling_of_idle hidle hverify hpoll, hi.states.mono ?_ List.prefix_rfl,
      hi.counts.mono ?_ List.prefix_rfl⟩
    · rw [hpolled]
    · rw [hpolled]

/-- **Invariant step.** -/
theorem Inv.step (hi : Inv t id s) (hs : Moves t id s l s') : Inv t id s' := by
  obtain ⟨hcalling, hstates, hcounts⟩ := hi.reads_step hs
  refine ⟨?_, hcalling, hstates, hcounts, hi.polled_step hs, hi.stream.step hs⟩
  obtain ⟨hm, -⟩ | ⟨a, hm, -⟩ := accompanied hs
  · rw [hm]
    exact hi.manager
  · exact hi.manager.step hm

theorem inv_run {tr : List Label} (hrun : (system P t id).Run tr s) : Inv t id s := by
  apply hrun.invariant (P := Inv t id)
  · intro s hinit
    have hs : s = initial P := hinit
    rw [hs]
    exact inv_initial
  · intro s l s' hi hs
    exact hi.step (moves_of_next hs)

end Subscription

end Forge
