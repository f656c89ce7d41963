import Forge.Framework.System
import Forge.Framework.Termination

/-! # Starting and Stopping the HTTP Server

  `start`, `stop` and `~HttpServer` (`server/http_server.cpp`), the thread
  that collects old sessions, and the signal handler and the end of `main`
  (`main.cpp`). A handler runs on top of whatever its thread is doing, the
  next signal on top of it. Memory is sequentially consistent.

  - `State.pc`: the calls of `stop` that are in progress;
  - `Orderly`: one of them at most is in `join`, none of them on the thread
    it would join, and none is left when the server is destroyed;
  - `shutdown_orderly_iff`: which steps keep this, and what holds in every
    run;
  - `oneAtATime_orderly`: signals handled by the main thread, one after
    the other, do.
-/

open LTS

namespace Forge

namespace ServerShutdown

/-! ### Threads -/

/-- The thread in `main`, the one in `gc_thread_`, and those of the pool. -/
inductive Thread where
  | main
  | gc
  | other (n : ℕ)
  deriving DecidableEq

/-- Where a call of `stop` is. -/
inductive StopPC where
  /-- `signal_handler`: `if (g_server)` -/
  | load
  /-- `svr_.stop()` -/
  | svrStop
  /-- `gc_stop_.store(true)` -/
  | store
  /-- `if (gc_thread_.joinable())` -/
  | joinable
  /-- `gc_thread_.join()` -/
  | join
  deriving DecidableEq

/-- Where the thread in `gc_thread_` is. -/
inductive GcPC where
  | unborn
  /-- `while (!gc_stop_.load())` -/
  | check
  /-- `sleep_for(60s)` -/
  | sleep
  /-- `if (!gc_stop_.load())` -/
  | recheck
  /-- `manager_.gc(600s)` -/
  | pass
  | exited
  deriving DecidableEq

/-- Where `main` is. -/
inductive MainPC where
  /-- `start`: `gc_thread_ = std::thread(..)`. -/
  | create
  /-- `start`: `svr_.listen(..)`. -/
  | listen
  /-- `g_server = nullptr` -/
  | listened
  /-- `~HttpServer` -/
  | destructor (pc : StopPC)
  | destroyed
  deriving DecidableEq

/-- What ends the process, or has no meaning. -/
inductive Failure where
  /-- `join` of the own thread: `std::system_error` leaves the handler. -/
  | selfJoin
  /-- `join` of a thread that another call has joined. -/
  | joinedTwice
  /-- The server is used after it was destroyed. -/
  | destroyed
  deriving DecidableEq

structure State where
  /-- `g_server` is not null. -/
  gServer : Bool
  gcStop : Bool
  /-- `gc_thread_` stands for a thread that was not joined. -/
  joinable : Bool
  gc : GcPC
  main : MainPC
  /-- The handlers that are running on a thread, the one on top last. -/
  frames : Thread → List StopPC
  failure : Option Failure

inductive Label where
  | signal (t : Thread)
  /-- The handler on top. -/
  | handler (t : Thread)
  | main
  | gc
  deriving DecidableEq

/-- `g_server` is set, and the handlers are installed. -/
def initial : State where
  gServer := true
  gcStop := false
  joinable := false
  gc := .unborn
  main := .create
  frames _ := []
  failure := none

/-! ### Steps -/

/-- What an access of `stop` leads to. -/
inductive Access where
  | goes (s : State) (pc : StopPC)
  | returns (s : State)
  | fails (f : Failure)

/-- The access at `pc` on the thread `t`, unless it waits. -/
def stopStep (s : State) (t : Thread) : StopPC → Option Access
  | .load => some (if s.gServer then .goes s .svrStop else .returns s)
  | .svrStop => some (.goes s .store)
  | .store => some (.goes { s with gcStop := true } .joinable)
  | .joinable => some (if s.joinable then .goes s .join else .returns s)
  | .join =>
      if t = .gc then some (.fails .selfJoin)
      else if s.joinable = false then some (.fails .joinedTwice)
      else if s.gc = .exited then some (.returns { s with joinable := false })
      else none

/-- All of `stop` needs the server. -/
def access (s : State) (t : Thread) (pc : StopPC) : Option Access :=
  if pc ≠ .load ∧ s.main = .destroyed then some (.fails .destroyed) else stopStep s t pc

/-- The calls of `stop` in progress. -/
inductive Caller where
  /-- The `i`-th handler on a thread, from below. -/
  | handler (t : Thread) (i : ℕ)
  | destructor
  deriving DecidableEq

def Caller.thread : Caller → Thread
  | .handler t _ => t
  | .destructor => .main

/-- Where a call is. -/
def State.pc (s : State) : Caller → Option StopPC
  | .handler t i => (s.frames t)[i]?
  | .destructor =>
      match s.main with
      | .destructor pc => some pc
      | _ => none

/-- The call on top of its thread is at `pc` then, or has returned. -/
def State.put (s : State) : Caller → Option StopPC → State
  | .handler t _, pc =>
      { s with frames := Function.update s.frames t ((s.frames t).dropLast ++ pc.toList) }
  | .destructor, some pc => { s with main := .destructor pc }
  | .destructor, none => { s with main := .destroyed }

def finish (s : State) (c : Caller) : Access → State
  | .goes s' pc => s'.put c (some pc)
  | .returns s' => s'.put c none
  | .fails f => { s with failure := some f }

/-- The call goes on. -/
def callStep (s : State) (c : Caller) : Option State :=
  match s.pc c with
  | none => none
  | some pc => (access s c.thread pc).map (finish s c)

/-- `main`. That `listen` returns is up to the socket. -/
def mainStep (s : State) : Option State :=
  match s.main with
  | .create => some { s with joinable := true, gc := .check, main := .listen }
  | .listen => some { s with main := .listened }
  | .listened => some { s with gServer := false, main := .destructor .svrStop }
  | .destructor _ => callStep s .destructor
  | .destroyed => none

def gcStep (s : State) : Option State :=
  match s.gc with
  | .check => some { s with gc := if s.gcStop then .exited else .sleep }
  | .sleep => some { s with gc := .recheck }
  | .recheck => some { s with gc := if s.gcStop then .check else .pass }
  | .pass => some { s with gc := .check }
  | .unborn | .exited => none

/-- The step function. A thread goes on when no handler runs on it. -/
def next (s : State) (l : Label) : Option State :=
  if s.failure.isSome then none
  else
    match l with
    | .signal t =>
        if t = .gc ∧ (s.gc = .unborn ∨ s.gc = .exited) then none
        else some { s with frames := Function.update s.frames t (s.frames t ++ [.load]) }
    | .handler t => callStep s (.handler t ((s.frames t).length - 1))
    | .main => if s.frames .main = [] then mainStep s else none
    | .gc => if s.frames .gc = [] then gcStep s else none

/-- The server from its start to its destruction, with signals at any
    time. -/
def system : System State Label := .ofNext initial next

/-! ### What a Step Does -/

variable {s s' : State} {l : Label} {c c' : Caller} {t : Thread} {pc : StopPC}

/-- The call that a step goes on with. -/
def Steps (s : State) (l : Label) : Caller → Prop
  | .handler t i => l = .handler t ∧ i + 1 = (s.frames t).length
  | .destructor => l = .main ∧ s.frames .main = []

/-- `stop` leaves everything but its two fields alone. -/
structure Same (s s' : State) : Prop where
  gServer : s'.gServer = s.gServer
  gc : s'.gc = s.gc
  main : s'.main = s.main
  frames : s'.frames = s.frames
  failure : s'.failure = s.failure

theorem same_refl (s : State) : Same s s := ⟨rfl, rfl, rfl, rfl, rfl⟩

/-- The accesses of a call, where the server is still there. -/
inductive Accesses (s : State) (t : Thread) : StopPC → Access → Prop where
  | found : s.gServer = true → Accesses s t .load (.goes s .svrStop)
  | null : s.gServer = false → Accesses s t .load (.returns s)
  | svrStop : Accesses s t .svrStop (.goes s .store)
  | store : Accesses s t .store (.goes { s with gcStop := true } .joinable)
  | joinable : s.joinable = true → Accesses s t .joinable (.goes s .join)
  | notJoinable : s.joinable = false → Accesses s t .joinable (.returns s)
  | selfJoin : t = .gc → Accesses s t .join (.fails .selfJoin)
  | joinedTwice : s.joinable = false → Accesses s t .join (.fails .joinedTwice)
  | join : t ≠ .gc → s.joinable = true → s.gc = .exited →
      Accesses s t .join (.returns { s with joinable := false })
  | gone {pc : StopPC} : pc ≠ .load → s.main = .destroyed → Accesses s t pc (.fails .destroyed)

/-- The steps of a server that nothing has gone wrong with. -/
inductive Moves (s : State) : Label → State → Prop where
  | signal {t : Thread} :
      Moves s (.signal t) { s with frames := Function.update s.frames t (s.frames t ++ [.load]) }
  | call {l : Label} {c : Caller} {pc : StopPC} {a : Access} : Steps s l c → s.pc c = some pc →
      Accesses s c.thread pc a → Moves s l (finish s c a)
  | create : s.main = .create →
      Moves s .main { s with joinable := true, gc := .check, main := .listen }
  | listen : s.main = .listen → Moves s .main { s with main := .listened }
  | listened : s.frames .main = [] → s.main = .listened →
      Moves s .main { s with gServer := false, main := .destructor .svrStop }
  | gc {g : GcPC} : s.gc ≠ .unborn → s.gc ≠ .exited → g ≠ .unborn →
      (g = .pass → s.gcStop = false) → Moves s .gc { s with gc := g }

theorem accesses_of_access {a : Access} (h : access s t pc = some a) : Accesses s t pc a := by
  unfold access at h
  split at h
  · next hgone =>
    cases h
    exact .gone hgone.1 hgone.2
  · cases pc with
    | load =>
      cases h
      split
      · next hset => exact .found hset
      · next hset => exact .null (Bool.eq_false_iff.mpr hset)
    | svrStop =>
      cases h
      exact .svrStop
    | store =>
      cases h
      exact .store
    | joinable =>
      cases h
      split
      · next hjoinable => exact .joinable hjoinable
      · next hjoinable => exact .notJoinable (Bool.eq_false_iff.mpr hjoinable)
    | join =>
      simp only [stopStep] at h
      split at h
      · next hself =>
        cases h
        exact .selfJoin hself
      · next hself =>
        split at h
        · next hjoined =>
          cases h
          exact .joinedTwice hjoined
        · next hjoined =>
          split at h
          · next hexited =>
            cases h
            exact .join hself (by simpa using hjoined) hexited
          · cases h

theorem moves_of_callStep (hst : Steps s l c) (h : callStep s c = some s') : Moves s l s' := by
  unfold callStep at h
  split at h
  · cases h
  · next pc hpc =>
    obtain ⟨a, ha, rfl⟩ := Option.map_eq_some_iff.mp h
    exact .call hst hpc (accesses_of_access ha)

theorem moves_of_next (h : next s l = some s') : s.failure = none ∧ Moves s l s' := by
  unfold next at h
  split at h
  · cases h
  · next hsound =>
    refine ⟨by simpa using hsound, ?_⟩
    cases l with
    | signal t =>
      simp only at h
      split at h
      · cases h
      · cases h
        exact .signal
    | handler t =>
      refine moves_of_callStep (c := .handler t ((s.frames t).length - 1)) ⟨rfl, ?_⟩ h
      -- a call that steps is there
      by_contra hlen
      have hnil : s.frames t = [] := List.length_eq_zero_iff.mp (by omega)
      simp [callStep, State.pc, hnil] at h
    | main =>
      simp only at h
      split at h
      · next hfree =>
        unfold mainStep at h
        split at h
        · next hmain =>
          cases h
          exact .create hmain
        · next hmain =>
          cases h
          exact .listen hmain
        · next hmain =>
          cases h
          exact .listened hfree hmain
        · exact moves_of_callStep (c := .destructor) ⟨rfl, hfree⟩ h
        · cases h
      · cases h
    | gc =>
      simp only at h
      split at h
      · unfold gcStep at h
        split at h
        · next hgc =>
          cases h
          refine .gc (by simp [hgc]) (by simp [hgc]) ?_ ?_
          · split <;> simp
          · split <;> simp
        · next hgc =>
          cases h
          exact .gc (by simp [hgc]) (by simp [hgc]) (by simp) (by simp)
        · next hgc =>
          cases h
          refine .gc (by simp [hgc]) (by simp [hgc]) ?_ ?_
          · split <;> simp
          · split
            · simp
            · next hstop => exact fun _ => Bool.eq_false_iff.mpr hstop
        · next hgc =>
          cases h
          exact .gc (by simp [hgc]) (by simp [hgc]) (by simp) (by simp)
        · cases h
        · cases h
      · cases h

/-! ### Calls in Progress -/

theorem pc_same (h : Same s s') (c : Caller) : s'.pc c = s.pc c := by
  cases c with
  | handler t i => simp [State.pc, h.frames]
  | destructor => simp [State.pc, h.main]

theorem steps_same (h : Same s s') (hst : Steps s l c) : Steps s' l c := by
  cases c with
  | handler t i => exact ⟨hst.1, by rw [h.frames]; exact hst.2⟩
  | destructor => exact ⟨hst.1, by rw [h.frames]; exact hst.2⟩

/-- The call that steps. -/
theorem pc_put_self (hst : Steps s l c) (pc : Option StopPC) : (s.put c pc).pc c = pc := by
  cases c with
  | handler t i =>
    have hlen : (s.frames t).dropLast.length = i := by
      rw [List.length_dropLast]
      have := hst.2
      omega
    cases pc with
    | none => simp [State.put, State.pc, hlen]
    | some pc => simp [State.put, State.pc, hlen]
  | destructor => cases pc <;> rfl

/-- The others. -/
theorem pc_put_of_ne (hst : Steps s l c) (hne : c' ≠ c) (pc : Option StopPC) :
    (s.put c pc).pc c' = s.pc c' := by
  cases c with
  | handler t i =>
    cases c' with
    | destructor => rfl
    | handler t' j =>
      by_cases ht : t' = t
      · subst ht
        have hlen := hst.2
        have hj : j ≠ i := by
          rintro rfl
          exact hne rfl
        simp only [State.put, State.pc, Function.update_self]
        obtain hlt | hgt := Nat.lt_or_gt_of_ne hj
        · rw [List.getElem?_append_left (by rw [List.length_dropLast]; omega),
            List.getElem?_dropLast, if_pos (by omega)]
        · rw [List.getElem?_eq_none, List.getElem?_eq_none (by omega)]
          rw [List.length_append, List.length_dropLast]
          cases pc <;> simp <;> omega
      · simp only [State.put, State.pc, Function.update_of_ne ht]
  | destructor =>
    cases c' with
    | destructor => exact absurd rfl hne
    | handler t' j => cases pc <;> rfl

theorem steps_unique (hst : Steps s l c) (hst' : Steps s l c') : c = c' := by
  cases c <;> cases c'
  · obtain ⟨rfl, hi⟩ := hst
    obtain ⟨heq, hj⟩ := hst'
    cases heq
    congr 1
    omega
  · obtain ⟨rfl, -⟩ := hst
    cases hst'.1
  · obtain ⟨rfl, -⟩ := hst
    cases hst'.1
  · rfl

/-- A signal adds a call that has not come to the server. -/
theorem pc_signal (hpc : ({ s with frames := Function.update s.frames t (s.frames t ++ [.load]) } :
    State).pc c = some pc) : s.pc c = some pc ∨ pc = .load := by
  cases c with
  | destructor => exact .inl hpc
  | handler t' i =>
    by_cases ht : t' = t
    · subst ht
      simp only [State.pc, Function.update_self, List.getElem?_append] at hpc
      split at hpc
      · exact .inl hpc
      · exact .inr (List.mem_singleton.mp (List.mem_of_getElem? hpc))
    · simp only [State.pc, Function.update_of_ne ht] at hpc
      exact .inl hpc

/-! ### In Every Run -/

/-- What holds whatever the signals do. -/
structure Base (s : State) : Prop where
  unborn : s.gc = .unborn → s.main = .create
  joined : s.joinable = false → s.gc = .unborn ∨ s.gc = .exited
  born : s.joinable = true → s.gc ≠ .unborn
  server : s.gServer = true → s.main = .create ∨ s.main = .listen ∨ s.main = .listened
  entered : s.main ≠ .destructor .load
  destroyed : s.main = .destroyed → s.gc = .exited ∧ s.joinable = false

theorem base_initial : Base initial where
  unborn := fun _ => rfl
  joined := fun _ => .inl rfl
  born := by simp [initial]
  server := fun _ => .inl rfl
  entered := by simp [initial]
  destroyed := by simp [initial]

theorem destructor_of_pc (hpc : s.pc .destructor = some pc) : s.main = .destructor pc := by
  simp only [State.pc] at hpc
  split at hpc
  · next hmain =>
    rw [hmain, Option.some.inj hpc]
  · cases hpc

/-- A call goes on, and the destructor ends when the thread is joined. -/
theorem Base.put (h : Base s) (hpc : s.pc c = some pc) (pc' : Option StopPC)
    (hload : pc' ≠ some .load) (hend : pc' = none → c = .destructor → s.joinable = false) :
    Base (s.put c pc') := by
  cases c with
  | handler t i => exact ⟨h.unborn, h.joined, h.born, h.server, h.entered, h.destroyed⟩
  | destructor =>
    have hmain := destructor_of_pc hpc
    have hborn : s.gc ≠ .unborn := fun hgc => by simpa [hmain] using h.unborn hgc
    have hnull : s.gServer ≠ true := fun hset => by simpa [hmain] using h.server hset
    cases pc' with
    | some pc' =>
      refine ⟨fun hgc => absurd hgc hborn, h.joined, h.born, fun hset => absurd hset hnull, ?_, ?_⟩
      · simpa [State.put] using hload
      · simp [State.put]
    | none =>
      refine ⟨fun hgc => absurd hgc hborn, h.joined, h.born, fun hset => absurd hset hnull, ?_, ?_⟩
      · simp [State.put]
      · have hfalse := hend rfl rfl
        exact fun _ => ⟨(h.joined hfalse).resolve_left hborn, hfalse⟩

theorem Base.setJoined (h : Base s) (hexited : s.gc = .exited) :
    Base { s with joinable := false } where
  unborn := h.unborn
  joined := fun _ => .inr hexited
  born := by simp
  server := h.server
  entered := h.entered
  destroyed := fun _ => ⟨hexited, rfl⟩

theorem Base.step (h : Base s) (hs : Moves s l s') : Base s' := by
  cases hs with
  | signal => exact ⟨h.unborn, h.joined, h.born, h.server, h.entered, h.destroyed⟩
  | @call _ c pc a hst hpc hacc =>
    cases hacc with
    | found => exact h.put hpc _ (by simp) (by simp)
    | null =>
      refine h.put hpc _ (by simp) ?_
      rintro - rfl
      exact absurd (destructor_of_pc hpc) h.entered
    | svrStop => exact h.put hpc _ (by simp) (by simp)
    | store =>
      have hstored : Base { s with gcStop := true } :=
        ⟨h.unborn, h.joined, h.born, h.server, h.entered, h.destroyed⟩
      exact hstored.put (by exact hpc) _ (by simp) (by simp)
    | joinable => exact h.put hpc _ (by simp) (by simp)
    | notJoinable hfalse => exact h.put hpc _ (by simp) (fun _ _ => hfalse)
    | join _ _ hexited =>
      exact (h.setJoined hexited).put (by exact hpc) _ (by simp) (fun _ _ => rfl)
    | selfJoin | joinedTwice | gone =>
      exact ⟨h.unborn, h.joined, h.born, h.server, h.entered, h.destroyed⟩
  | create hmain =>
    exact ⟨by simp, by simp, by simp, by simp, by simp, by simp⟩
  | listen hmain =>
    refine ⟨fun hgc => ?_, h.joined, h.born, by simp, by simp, by simp⟩
    simpa [hmain] using h.unborn hgc
  | listened _ hmain =>
    refine ⟨fun hgc => ?_, h.joined, h.born, by simp, by simp, by simp⟩
    simpa [hmain] using h.unborn hgc
  | gc hborn hrunning hg _ =>
    have hjoinable : s.joinable ≠ false := by
      intro hfalse
      obtain hgc | hgc := h.joined hfalse
      · exact hborn hgc
      · exact hrunning hgc
    exact ⟨fun hgc => absurd hgc hg, fun hfalse => absurd hfalse hjoinable, fun _ => hg, h.server,
      h.entered, fun hmain => absurd (h.destroyed hmain).2 hjoinable⟩

/-! ### Orderly States -/

/-- One call at most is in `join`, not on the thread it joins, and that was
    not joined yet; when the server is destroyed no handler has its pointer
    to it. -/
structure Orderly (s : State) : Prop where
  sound : s.failure = none
  alone : ∀ c c', s.pc c = some .join → s.pc c' = some .join → c = c'
  apart : ∀ c, s.pc c = some .join → c.thread ≠ .gc
  held : ∀ c, s.pc c = some .join → s.joinable = true
  after : s.main = .destroyed → ∀ c pc, s.pc c = some pc → pc = .load

/-- The steps that keep this: nobody passes `joinable()` while another call
    is in `join`, or on the thread itself, and the destructor does not end
    before the handlers. -/
def Careful (s : State) (l : Label) : Prop :=
  ∀ c, Steps s l c →
    (s.pc c = some .joinable → s.joinable = true →
      c.thread ≠ .gc ∧ ∀ c', s.pc c' ≠ some .join) ∧
    (c = .destructor → (s.pc c = some .joinable ∧ s.joinable = false) ∨ s.pc c = some .join →
      ∀ c' pc, s.pc c' = some pc → c' = .destructor ∨ pc = .load)

theorem orderly_initial : Orderly initial := by
  have hnone : ∀ c, initial.pc c = none := by
    intro c
    cases c <;> rfl
  refine ⟨rfl, ?_, ?_, ?_, ?_⟩
  · intro c c' hc
    simp [hnone] at hc
  · intro c hc
    simp [hnone] at hc
  · intro c hc
    simp [hnone] at hc
  · intro hmain
    cases hmain

/-- A call goes on: what has to be known of where it comes to. -/
theorem Orderly.put {s₁ : State} (h : Orderly s) (hs : Same s s₁) (hst : Steps s l c)
    (pc : Option StopPC)
    (hjoin : pc = some .join → c.thread ≠ .gc ∧ s₁.joinable = true ∧ ∀ c', s.pc c' ≠ some .join)
    (hheld : s₁.joinable = s.joinable ∨ ∀ c', c' ≠ c → s.pc c' ≠ some .join)
    (hgone : s.main = .destroyed → pc = none)
    (hend : c = .destructor → pc = none →
      ∀ c' pc, s.pc c' = some pc → c' = .destructor ∨ pc = .load) :
    Orderly (s₁.put c pc) := by
  have hst₁ : Steps s₁ l c := steps_same hs hst
  have hself : (s₁.put c pc).pc c = pc := pc_put_self hst₁ pc
  have hother : ∀ c', c' ≠ c → (s₁.put c pc).pc c' = s.pc c' :=
    fun c' hne => (pc_put_of_ne hst₁ hne pc).trans (pc_same hs c')
  have hjoinable : (s₁.put c pc).joinable = s₁.joinable := by
    cases c <;> cases pc <;> rfl
  have hfailure : (s₁.put c pc).failure = s₁.failure := by
    cases c <;> cases pc <;> rfl
  -- a call in `join` afterwards is this one, or was there
  have hsplit : ∀ c', (s₁.put c pc).pc c' = some .join →
      (c' = c ∧ pc = some .join) ∨ (c' ≠ c ∧ s.pc c' = some .join) := by
    intro c' hc'
    by_cases heq : c' = c
    · subst heq
      exact .inl ⟨rfl, hself.symm.trans hc'⟩
    · exact .inr ⟨heq, (hother c' heq).symm.trans hc'⟩
  refine ⟨?_, ?_, ?_, ?_, ?_⟩
  · rw [hfailure, hs.failure, h.sound]
  · intro c₁ c₂ h₁ h₂
    obtain ⟨rfl, hpc⟩ | ⟨-, hold₁⟩ := hsplit c₁ h₁
    · obtain ⟨rfl, -⟩ | ⟨-, hold₂⟩ := hsplit c₂ h₂
      · rfl
      · exact absurd hold₂ ((hjoin hpc).2.2 c₂)
    · obtain ⟨rfl, hpc⟩ | ⟨-, hold₂⟩ := hsplit c₂ h₂
      · exact absurd hold₁ ((hjoin hpc).2.2 c₁)
      · exact h.alone c₁ c₂ hold₁ hold₂
  · intro c' hc'
    obtain ⟨rfl, hpc⟩ | ⟨-, hold⟩ := hsplit c' hc'
    · exact (hjoin hpc).1
    · exact h.apart c' hold
  · intro c' hc'
    rw [hjoinable]
    obtain ⟨rfl, hpc⟩ | ⟨hne, hold⟩ := hsplit c' hc'
    · exact (hjoin hpc).2.1
    · obtain heq | hnone := hheld
      · rw [heq]
        exact h.held c' hold
      · exact absurd hold (hnone c' hne)
  · intro hmain c' pc' hc'
    by_cases heq : c' = c
    · subst heq
      rw [hself] at hc'
      cases c' with
      | handler t i =>
        rw [hgone (hs.main ▸ hmain)] at hc'
        cases hc'
      | destructor =>
        subst hc'
        cases hmain
    · rw [hother c' heq] at hc'
      cases c with
      | handler t i => exact h.after (hs.main ▸ hmain) c' pc' hc'
      | destructor =>
        cases pc with
        | some pc => cases hmain
        | none => exact (hend rfl rfl c' pc' hc').resolve_left heq

/-- A call returns: the destructor has to be the last one. -/
theorem Orderly.returns_iff {s₁ : State} (h : Orderly s) (hs : Same s s₁) (hst : Steps s l c)
    (hheld : s₁.joinable = s.joinable ∨ ∀ c', c' ≠ c → s.pc c' ≠ some .join) :
    Orderly (s₁.put c none) ↔ (c = .destructor →
      ∀ c' pc, s.pc c' = some pc → c' = .destructor ∨ pc = .load) := by
  constructor
  · rintro ho rfl c' pc hc'
    have hst₁ : Steps s₁ l .destructor := steps_same hs hst
    by_cases heq : c' = .destructor
    · exact .inl heq
    · refine .inr (ho.after rfl c' pc ?_)
      rw [pc_put_of_ne hst₁ heq, pc_same hs, hc']
  · intro hend
    exact h.put hs hst none (by simp) hheld (fun _ => rfl) (fun heq _ => hend heq)

/-- A call that fails has gone wrong before. -/
theorem Orderly.not_fails (h : Orderly s) (hpc : s.pc c = some pc) {f : Failure} :
    ¬Accesses s c.thread pc (.fails f) := by
  intro hacc
  cases hacc with
  | selfJoin hself => exact h.apart c hpc hself
  | joinedTwice hfalse =>
    have hjoinable := h.held c hpc
    rw [hfalse] at hjoinable
    cases hjoinable
  | gone hload hmain => exact hload (h.after hmain c _ hpc)

/-- What a call can do in an orderly state. -/
theorem Orderly.call_iff (h : Orderly s) (hb : Base s) {a : Access} (hst : Steps s l c)
    (hpc : s.pc c = some pc) (hacc : Accesses s c.thread pc a) :
    Orderly (finish s c a) ↔ Careful s l := by
  -- only this call steps
  have hcareful : Careful s l ↔ (pc = .joinable → s.joinable = true →
      c.thread ≠ .gc ∧ ∀ c', s.pc c' ≠ some .join) ∧
      (c = .destructor → (pc = .joinable ∧ s.joinable = false) ∨ pc = .join →
        ∀ c' pc, s.pc c' = some pc → c' = .destructor ∨ pc = .load) := by
    constructor
    · intro hall
      simpa [hpc] using hall c hst
    · rintro hc c' hst'
      obtain rfl := steps_unique hst hst'
      simpa [hpc] using hc
  have hthere : pc ≠ .load → s.main ≠ .destroyed :=
    fun hload hmain => hload (h.after hmain c pc hpc)
  rw [hcareful]
  cases hacc with
  | found hset =>
    have hmain : s.main ≠ .destroyed := fun hmain => by simpa [hmain] using hb.server hset
    have := h.put (same_refl s) hst (some .svrStop) (by simp) (.inl rfl)
      (fun hgone => absurd hgone hmain) (by simp)
    simpa [finish] using this
  | null hnull =>
    have hne : c ≠ .destructor := by
      rintro rfl
      exact hb.entered (destructor_of_pc hpc)
    have := (h.returns_iff (same_refl s) hst (.inl rfl)).mpr (fun heq => absurd heq hne)
    simpa [finish] using this
  | svrStop =>
    have := h.put (same_refl s) hst (some .store) (by simp) (.inl rfl)
      (fun hgone => absurd hgone (hthere (by simp))) (by simp)
    simpa [finish] using this
  | store =>
    have hsame : Same s { s with gcStop := true } := ⟨rfl, rfl, rfl, rfl, rfl⟩
    have := h.put hsame hst
      (some .joinable) (by simp) (.inl rfl) (fun hgone => absurd hgone (hthere (by simp))) (by simp)
    simpa [finish] using this
  | joinable htrue =>
    simp only [finish, htrue, true_imp_iff, Bool.true_eq_false, and_false, reduceCtorEq, or_self,
      false_imp_iff, imp_true_iff, and_true]
    constructor
    · intro ho
      have hself : (s.put c (some .join)).pc c = some .join := pc_put_self hst _
      refine ⟨ho.apart c hself, ?_⟩
      intro c' hc'
      have hne : c' ≠ c := by
        rintro rfl
        simp [hpc] at hc'
      have hother : (s.put c (some .join)).pc c' = some .join := (pc_put_of_ne hst hne _).trans hc'
      exact hne (ho.alone c' c hother hself)
    · rintro ⟨hgc, hnone⟩
      exact h.put (same_refl s) hst (some .join) (fun _ => ⟨hgc, htrue, hnone⟩) (.inl rfl)
        (fun hgone => absurd hgone (hthere (by simp))) (by simp)
  | notJoinable hfalse =>
    rw [finish, h.returns_iff (same_refl s) hst (.inl rfl)]
    simp [hfalse]
  | join hne htrue hexited =>
    have hlast : ∀ c', c' ≠ c → s.pc c' ≠ some .join := by
      intro c' hc' hpc'
      exact hc' (h.alone c' c hpc' hpc)
    have hsame : Same s { s with joinable := false } := ⟨rfl, rfl, rfl, rfl, rfl⟩
    rw [finish, h.returns_iff hsame hst (.inr hlast)]
    simp
  | selfJoin hself => exact absurd (.selfJoin hself) (h.not_fails hpc)
  | joinedTwice hfalse => exact absurd (.joinedTwice hfalse) (h.not_fails hpc)
  | gone hload hmain => exact absurd (.gone hload hmain) (h.not_fails hpc)

/-- Where nothing has come to `join`, nothing is lost. -/
theorem Orderly.keep (h : Orderly s) (hfailure : s'.failure = none)
    (hpc : ∀ c pc, s'.pc c = some pc → s.pc c = some pc ∨ pc ≠ .join)
    (hjoinable : s.joinable = true → s'.joinable = true)
    (hafter : s'.main = .destroyed → ∀ c pc, s'.pc c = some pc → pc = .load) : Orderly s' := by
  have hold : ∀ c, s'.pc c = some .join → s.pc c = some .join :=
    fun c hc => (hpc c _ hc).resolve_right (by simp)
  exact ⟨hfailure, fun c c' hc hc' => h.alone c c' (hold c hc) (hold c' hc'),
    fun c hc => h.apart c (hold c hc), fun c hc => hjoinable (h.held c (hold c hc)), hafter⟩

/-- A step of no call is careful. -/
theorem careful_of_none (hnone : ∀ c, ¬Steps s l c ∨ s.pc c = none) : Careful s l := by
  intro c hst
  have hc := (hnone c).resolve_left (not_not_intro hst)
  simp [hc]

/-- `main` outside of the destructor. -/
theorem Orderly.main_iff (h : Orderly s) {main : MainPC} (hmain : s.pc .destructor = none)
    (hnew : s'.main = main) (hframes : s'.frames = s.frames) (hfailure : s'.failure = s.failure)
    (hjoinable : s.joinable = true → s'.joinable = true) (hjoin : main ≠ .destructor .join)
    (hgone : main ≠ .destroyed) : Orderly s' ↔ Careful s .main := by
  refine iff_of_true (h.keep (hfailure.trans h.sound) ?_ hjoinable ?_) (careful_of_none ?_)
  · intro c pc hc
    cases c with
    | handler t i =>
      left
      simpa [State.pc, hframes] using hc
    | destructor =>
      right
      rintro rfl
      exact hjoin (hnew.symm.trans (destructor_of_pc hc))
  · intro hmain'
    exact absurd (hnew.symm.trans hmain') hgone
  · intro c
    cases c with
    | handler => exact .inl (by simp [Steps])
    | destructor => exact .inr hmain

/-- **The steps that keep order.** -/
theorem Orderly.step_iff (h : Orderly s) (hb : Base s) (hs : Moves s l s') :
    Orderly s' ↔ Careful s l := by
  cases hs with
  | call hst hpc hacc => exact h.call_iff hb hst hpc hacc
  | @signal t =>
    refine iff_of_true (h.keep h.sound ?_ id ?_) (careful_of_none ?_)
    · intro c pc hc
      obtain hold | rfl := pc_signal hc
      · exact .inl hold
      · exact .inr (by simp)
    · intro hmain c pc hc
      obtain hold | hload := pc_signal hc
      · exact h.after hmain c pc hold
      · exact hload
    · intro c
      cases c with
      | handler => exact .inl (by simp [Steps])
      | destructor => exact .inl (by simp [Steps])
  | create hmain =>
    exact h.main_iff (by simp [State.pc, hmain]) rfl rfl rfl (fun _ => rfl) (by simp) (by simp)
  | listen hmain => exact h.main_iff (by simp [State.pc, hmain]) rfl rfl rfl id (by simp) (by simp)
  | listened _ hmain =>
    exact h.main_iff (by simp [State.pc, hmain]) rfl rfl rfl id (by simp) (by simp)
  | gc hborn hrunning hg hpass =>
    refine iff_of_true (h.keep h.sound (fun c pc hc => .inl hc) id h.after) (careful_of_none ?_)
    intro c
    cases c with
    | handler => exact .inl (by simp [Steps])
    | destructor => exact .inl (by simp [Steps])

/-! ### Runs -/

variable {tr tr₁ : List Label}

theorem base_run (hrun : system.Run tr s) : Base s := by
  apply hrun.invariant (P := Base)
  · rintro s rfl
    exact base_initial
  · intro s l s' hb hs
    exact hb.step (moves_of_next hs).2

/-- A call leaves the thread alone, and nobody takes the flag down. -/
theorem gc_finish (c : Caller) {a : Access} (hacc : Accesses s t pc a) :
    (finish s c a).gc = s.gc ∧ (s.gcStop = true → (finish s c a).gcStop = true) := by
  have hput : ∀ (s₁ : State) (pc : Option StopPC),
      (s₁.put c pc).gc = s₁.gc ∧ (s₁.put c pc).gcStop = s₁.gcStop := by
    intro s₁ pc
    cases c <;> cases pc <;> exact ⟨rfl, rfl⟩
  cases hacc with
  | found | null | svrStop | store | joinable | notJoinable | join =>
    simp [finish, hput]
  | selfJoin | joinedTwice | gone => exact ⟨rfl, id⟩

/-- When the flag is up, the thread starts no pass any more. -/
theorem no_pass_of_path {s₁ : State} {ls : List Label} (hpath : system.Path s₁ ls s)
    (hstop : s₁.gcStop = true) (hpass : s₁.gc ≠ .pass) : s.gcStop = true ∧ s.gc ≠ .pass := by
  apply hpath.invariant (P := fun s => s.gcStop = true ∧ s.gc ≠ .pass) ⟨hstop, hpass⟩
  rintro s l s' - ⟨hstop, hpass⟩ hs
  cases (moves_of_next hs).2 with
  | signal => exact ⟨hstop, hpass⟩
  | @call _ c _ a _ _ hacc =>
    obtain ⟨hgc, hflag⟩ := gc_finish c hacc
    exact ⟨hflag hstop, hgc ▸ hpass⟩
  | create | listen | listened => exact ⟨hstop, by simp [hpass]⟩
  | gc _ _ _ hflag =>
    refine ⟨hstop, ?_⟩
    rintro rfl
    rw [hflag rfl] at hstop
    cases hstop

/-- **Shutting down.** In a run of the server and the signals, one call at
    most is in `join`, never on the thread it would join and never on one
    that was joined, and no handler has the pointer to a destroyed server,
    if and only if no call passes `joinable()` while another is in `join`
    or on the thread itself, and the destructor is the last to return. In
    every run the thread has exited when the server is destroyed, and once
    `gc_stop_` is stored it starts no pass any more. -/
theorem shutdown_orderly_iff (hrun : system.Run tr s) :
    ((∀ tr' s', tr' <+: tr → system.Run tr' s' → Orderly s') ↔
      (system.restrict Careful).Run tr s) ∧
    (s.main = .destroyed → s.gc = .exited) ∧
    ∀ tr₁ s₁ ls, tr = tr₁ ++ ls → system.Run tr₁ s₁ → s₁.gcStop = true → s₁.gc ≠ .pass →
      s.gc ≠ .pass := by
  refine ⟨?_, fun hmain => ((base_run hrun).destroyed hmain).1, ?_⟩
  · apply (System.deterministic_ofNext _ _).always_iff _ _ hrun
    · rintro s rfl
      exact orderly_initial
    · rintro s l s' ⟨tr, hreach⟩ ho hs
      exact ho.step_iff (base_run hreach) (moves_of_next hs).2
  · rintro tr₁ s₁ ls rfl hrun₁ hstop hpass
    obtain ⟨s₂, hrun₂, hpath⟩ := hrun.append_inv
    obtain rfl := (System.deterministic_ofNext _ _).run_unique hrun₁ hrun₂
    exact (no_pass_of_path hpath hstop hpass).2

/-- A thread of the pool handles the signal, and `main` is in the
    destructor before it has joined. -/
def overlapping : List Label :=
  List.flatten
    [[.main, .signal (.other 0)], .replicate 4 (.handler (.other 0)), .replicate 5 .main,
      [.gc, .handler (.other 0), .main]]

theorem overlapping_disorderly : ∃ s, system.Run overlapping s ∧ s.failure = some .joinedTwice ∧
    ¬(system.restrict Careful).Run overlapping s := by
  have hexec : (System.exec next initial overlapping).map (fun s => s.failure) =
      some (some .joinedTwice) := by decide
  obtain ⟨s, hrun, hs⟩ := System.exists_run_of_exec hexec
  refine ⟨s, hrun, hs, ?_⟩
  intro hcareful
  have ho := (shutdown_orderly_iff hrun).1.mpr hcareful overlapping s List.prefix_rfl hrun
  have hsound := ho.sound
  rw [hs] at hsound
  cases hsound

/-! ### One Signal at a Time -/

/-- A signal comes to the main thread, when no handler is running. -/
def oneAtATime (s : State) : Label → Bool
  | .signal t => t = .main ∧ s.frames .main = []
  | _ => true

/-- There is one handler at most, and the destructor waits for it. -/
structure Single (s : State) : Prop where
  others : ∀ t, t ≠ .main → s.frames t = []
  one : (s.frames .main).length ≤ 1
  late : (∃ pc, s.main = .destructor pc) ∨ s.main = .destroyed → ∀ pc ∈ s.frames .main, pc = .load

theorem single_initial : Single initial where
  others := fun _ _ => rfl
  one := by simp [initial]
  late := by simp [initial]

theorem Single.keep (h : Single s) (hframes : s'.frames = s.frames)
    (hlate : s.frames .main = [] ∨ s'.main = s.main) : Single s' where
  others := by
    rw [hframes]
    exact h.others
  one := by
    rw [hframes]
    exact h.one
  late := by
    rw [hframes]
    intro hmain pc hpc
    obtain hnil | heq := hlate
    · simp [hnil] at hpc
    · rw [heq] at hmain
      exact h.late hmain pc hpc

/-- The only handler there can be. -/
theorem Single.handler_inv (h : Single s) {i : ℕ} (hpc : s.pc (.handler t i) = some pc) :
    t = .main ∧ i = 0 ∧ s.frames .main = [pc] := by
  simp only [State.pc] at hpc
  have ht : t = .main := by
    by_contra hne
    simp [h.others t hne] at hpc
  subst ht
  have hone := h.one
  match hframes : s.frames .main with
  | [] => simp [hframes] at hpc
  | [pc'] =>
    rw [hframes] at hpc
    obtain ⟨hi, heq⟩ := List.getElem?_eq_some_iff.mp hpc
    obtain rfl : i = 0 := by simpa using hi
    exact ⟨rfl, rfl, by simpa using heq⟩
  | _ :: _ :: _ =>
    rw [hframes] at hone
    simp at hone

theorem Single.put {s₁ : State} (h : Single s) (hs : Same s s₁) (hst : Steps s l c)
    (hpc : s.pc c = some pc) (pc' : Option StopPC)
    (hlate : (∃ pc, s.main = .destructor pc) ∨ s.main = .destroyed → c ≠ .destructor →
      pc' = none) : Single (s₁.put c pc') := by
  cases c with
  | destructor =>
    refine h.keep ?_ (.inl hst.2)
    cases pc' <;> exact hs.frames
  | handler t i =>
    obtain ⟨rfl, rfl, hframes⟩ := h.handler_inv hpc
    refine ⟨?_, ?_, ?_⟩
    · intro t ht
      simp only [State.put, Function.update_of_ne ht, hs.frames]
      exact h.others t ht
    · cases pc' <;> simp [State.put, hs.frames, hframes]
    · intro hmain pc hmem
      simp only [State.put, hs.main] at hmain
      simp [State.put, hs.frames, hframes, hlate hmain (by simp)] at hmem

theorem Single.step (h : Single s) (hb : Base s) (hok : oneAtATime s l) (hs : Moves s l s') :
    Single s' := by
  cases hs with
  | signal =>
    obtain ⟨rfl, hnil⟩ := of_decide_eq_true hok
    refine ⟨?_, ?_, ?_⟩
    · intro t ht
      simp only [Function.update_of_ne ht]
      exact h.others t ht
    · simp [hnil]
    · simp [hnil]
  | @call _ c pc a hst hpc hacc =>
    -- a handler that is late has found no server
    have hlate : (∃ pc, s.main = .destructor pc) ∨ s.main = .destroyed → c ≠ .destructor →
        pc = .load ∧ s.gServer = false := by
      intro hmain hne
      cases c with
      | destructor => exact absurd rfl hne
      | handler t i =>
        obtain ⟨-, -, hframes⟩ := h.handler_inv hpc
        refine ⟨h.late hmain pc (by simp [hframes]), ?_⟩
        by_contra hset
        obtain hbefore | hbefore | hbefore := hb.server (by simpa using hset)
        all_goals simp [hbefore] at hmain
    cases hacc with
    | found hset =>
      refine h.put (same_refl s) hst hpc _ ?_
      intro hmain hne
      rw [(hlate hmain hne).2] at hset
      cases hset
    | svrStop => exact h.put (same_refl s) hst hpc _ fun hm hne => absurd (hlate hm hne).1 (by simp)
    | joinable =>
      exact h.put (same_refl s) hst hpc _ fun hm hne => absurd (hlate hm hne).1 (by simp)
    | store =>
      have hsame : Same s { s with gcStop := true } := ⟨rfl, rfl, rfl, rfl, rfl⟩
      exact h.put hsame hst hpc _
        fun hm hne => absurd (hlate hm hne).1 (by simp)
    | null | notJoinable => exact h.put (same_refl s) hst hpc _ fun _ _ => rfl
    | join =>
      have hsame : Same s { s with joinable := false } := ⟨rfl, rfl, rfl, rfl, rfl⟩
      exact h.put hsame hst hpc _
        fun _ _ => rfl
    | selfJoin | joinedTwice | gone => exact h.keep rfl (.inr rfl)
  | create | listen => exact ⟨h.others, h.one, by simp⟩
  | listened hfree => exact h.keep rfl (.inl hfree)
  | gc => exact h.keep rfl (.inr rfl)

/-- One handler at a time is careful enough. -/
theorem Single.careful (h : Single s) (l : Label) : Careful s l := by
  intro c hst
  cases c with
  | handler t i =>
    refine ⟨?_, by simp⟩
    intro hpc _
    obtain ⟨rfl, rfl, hframes⟩ := h.handler_inv hpc
    refine ⟨by simp [Caller.thread], ?_⟩
    intro c' hc'
    cases c' with
    | handler t j =>
      obtain ⟨-, -, hframes'⟩ := h.handler_inv hc'
      rw [hframes] at hframes'
      cases hframes'
    | destructor =>
      have hload := h.late (.inl ⟨_, destructor_of_pc hc'⟩) .joinable (by simp [hframes])
      cases hload
  | destructor =>
    have hnone : ∀ t i pc, s.pc (.handler t i) ≠ some pc := by
      intro t i pc hpc
      obtain ⟨-, -, hframes⟩ := h.handler_inv hpc
      rw [hst.2] at hframes
      cases hframes
    refine ⟨?_, ?_⟩
    · intro hpc _
      refine ⟨by simp [Caller.thread], ?_⟩
      intro c' hc'
      cases c' with
      | handler t i => exact hnone t i _ hc'
      | destructor =>
        rw [hpc] at hc'
        cases hc'
    · intro _ _ c' pc hc'
      cases c' with
      | handler t i => exact absurd hc' (hnone t i pc)
      | destructor => exact .inl rfl

/-- The flag is up behind the store. -/
def Stored (s : State) : Prop :=
  ∀ c pc, s.pc c = some pc → pc = .joinable ∨ pc = .join → s.gcStop = true

theorem Stored.put {s₁ : State} (h : Stored s) (hs : Same s s₁) (hst : Steps s l c)
    (pc : Option StopPC) (hkeep : s.gcStop = true → s₁.gcStop = true)
    (hpc : ∀ pc' ∈ pc, pc' = .joinable ∨ pc' = .join → s₁.gcStop = true) :
    Stored (s₁.put c pc) := by
  have hst₁ : Steps s₁ l c := steps_same hs hst
  have hflag : (s₁.put c pc).gcStop = s₁.gcStop := by
    cases c <;> cases pc <;> rfl
  intro c' pc' hc' hwhere
  rw [hflag]
  by_cases heq : c' = c
  · subst heq
    rw [pc_put_self hst₁] at hc'
    exact hpc pc' hc' hwhere
  · rw [pc_put_of_ne hst₁ heq, pc_same hs] at hc'
    exact hkeep (h c' pc' hc' hwhere)

/-- `main` outside of the destructor comes to neither. -/
theorem Stored.keep (h : Stored s) (hframes : s'.frames = s.frames)
    (hmain : s'.main = s.main ∨ ∀ pc, s'.main = .destructor pc → pc = .svrStop)
    (hflag : s'.gcStop = s.gcStop) : Stored s' := by
  intro c pc hc hwhere
  rw [hflag]
  cases c with
  | handler t i => exact h (.handler t i) pc (by simpa [State.pc, hframes] using hc) hwhere
  | destructor =>
    obtain heq | hfirst := hmain
    · exact h .destructor pc (by simpa [State.pc, heq] using hc) hwhere
    · rw [hfirst pc (destructor_of_pc hc)] at hwhere
      simp at hwhere

theorem Stored.step (h : Stored s) (hs : Moves s l s') : Stored s' := by
  cases hs with
  | signal =>
    intro c pc hc hwhere
    obtain hold | rfl := pc_signal hc
    · exact h c pc hold hwhere
    · simp at hwhere
  | @call _ c pc a hst hpc hacc =>
    cases hacc with
    | found | svrStop | null | notJoinable => exact h.put (same_refl s) hst _ id (by simp)
    | store =>
      have hsame : Same s { s with gcStop := true } := ⟨rfl, rfl, rfl, rfl, rfl⟩
      exact h.put hsame hst _ (fun _ => rfl)
        (fun _ _ _ => rfl)
    | joinable =>
      exact h.put (same_refl s) hst _ id fun _ _ _ => h c .joinable hpc (.inl rfl)
    | join =>
      have hsame : Same s { s with joinable := false } := ⟨rfl, rfl, rfl, rfl, rfl⟩
      exact h.put hsame hst _ id (by simp)
    | selfJoin | joinedTwice | gone => exact h.keep rfl (.inl rfl) rfl
  | create | listen | listened => exact h.keep rfl (.inr (by simp)) rfl
  | gc => exact h.keep rfl (.inl rfl) rfl

theorem stored_run (hrun : system.Run tr s) : Stored s := by
  apply hrun.invariant (P := Stored)
  · rintro s rfl c pc hc
    cases c <;> cases hc
  · intro s l s' h hs
    exact h.step (moves_of_next hs).2

/-- The steps that are left to the thread once the flag is up. -/
def GcPC.rank : GcPC → ℕ
  | .unborn | .exited => 0
  | .check => 1
  | .recheck | .pass => 2
  | .sleep => 3

theorem GcPC.rank_le (pc : GcPC) : pc.rank ≤ 3 := by
  cases pc <;> decide

/-- The thread is there, and the flag is up. -/
structure Ending (s : State) : Prop where
  stop : s.gcStop = true
  born : s.gc ≠ .unborn
  created : s.main ≠ .create

/-- A call does not lead `main` back to its beginning. -/
theorem create_of_finish {a : Access} (hacc : Accesses s t pc a)
    (h : (finish s c a).main = .create) : s.main = .create := by
  have hput : ∀ (s₁ : State) (pc : Option StopPC), (s₁.put c pc).main = .create →
      s₁.main = .create := by
    intro s₁ pc hmain
    cases c with
    | handler => exact hmain
    | destructor => cases pc <;> cases hmain
  cases hacc with
  | found | null | svrStop | joinable | notJoinable => exact hput s _ h
  | store => exact hput { s with gcStop := true } _ h
  | join => exact hput { s with joinable := false } _ h
  | selfJoin | joinedTwice | gone => exact h

/-- `main` creates the thread. -/
theorem unborn_step (h : s.main = .create → s.gc = .unborn) (hs : Moves s l s') :
    s'.main = .create → s'.gc = .unborn := by
  intro hmain
  cases hs with
  | signal => exact h hmain
  | @call _ c _ a _ _ hacc =>
    rw [(gc_finish c hacc).1]
    exact h (create_of_finish hacc hmain)
  | create | listen | listened => cases hmain
  | gc hborn => exact absurd (h hmain) hborn

theorem Ending.step (h : Ending s) (hs : Moves s l s') : Ending s' := by
  cases hs with
  | signal => exact ⟨h.stop, h.born, h.created⟩
  | @call _ c _ a _ hpc hacc =>
    obtain ⟨hgc, hflag⟩ := gc_finish c hacc
    exact ⟨hflag h.stop, hgc ▸ h.born, fun hmain => h.created (create_of_finish hacc hmain)⟩
  | create hmain => exact absurd hmain h.created
  | listen | listened => exact ⟨h.stop, h.born, by simp⟩
  | gc _ _ hborn _ => exact ⟨h.stop, hborn, h.created⟩

/-- **Step.** Every step of the thread lowers its rank, and no other step
    raises it. -/
theorem rank_next (h : Ending s) (hs : next s l = some s') :
    (if l = .gc then 1 else 0) + s'.gc.rank ≤ s.gc.rank := by
  obtain ⟨hsound, hmoves⟩ := moves_of_next hs
  have hgc : l ≠ .gc → s'.gc = s.gc := by
    intro hl
    cases hmoves with
    | signal | listen | listened => rfl
    | @call _ c _ a _ _ hacc => exact (gc_finish c hacc).1
    | create hmain => exact absurd hmain h.created
    | gc => exact absurd rfl hl
  by_cases hl : l = .gc
  · subst hl
    simp only [next, hsound, Option.isSome_none, Bool.false_eq_true, if_false] at hs
    split at hs
    · unfold gcStep at hs
      rw [h.stop] at hs
      split at hs
      all_goals
        cases hs
      all_goals
        next hpc => simp [GcPC.rank, hpc]
    · cases hs
  · simp [hl, hgc hl]

/-- What holds in a run with one signal at a time. -/
structure Calm (s : State) : Prop where
  orderly : Orderly s
  base : Base s
  single : Single s
  first : s.main = .create → s.gc = .unborn

theorem Calm.step (h : Calm s) (hok : oneAtATime s l) (hs : next s l = some s') : Calm s' := by
  have hmoves := (moves_of_next hs).2
  exact ⟨(h.orderly.step_iff h.base hmoves).mpr (h.single.careful l), h.base.step hmoves,
    h.single.step h.base hok hmoves, unborn_step h.first hmoves⟩

theorem calm_run (hrun : (system.restrict fun s l => oneAtATime s l).Run tr s) : Calm s := by
  apply hrun.invariant (P := Calm)
  · rintro s rfl
    exact ⟨orderly_initial, base_initial, single_initial, fun _ => rfl⟩
  · exact fun s l s' h hs => h.step hs.1 hs.2

/-- The thread can go on until it has exited. -/
theorem Calm.gc_isSome (h : Calm s) (hending : Ending s) (hgoing : s.gc ≠ .exited) :
    (next s .gc).isSome := by
  have hsound := h.orderly.sound
  have hfree : s.frames .gc = [] := h.single.others .gc (by simp)
  simp only [next, hsound, hfree, Option.isSome_none, Bool.false_eq_true, if_false, if_true]
  cases hgc : s.gc with
  | unborn => exact absurd hgc hending.born
  | exited => exact absurd hgc hgoing
  | check | sleep | recheck | pass => simp [gcStep, hgc]

/-- The steps of the thread once the flag is up. -/
theorem ranks_gc : (system.restrict fun s l => oneAtATime s l).Ranks
    (fun s => Calm s ∧ Ending s) (fun l => l = .gc) fun s => s.gc.rank where
  keeps := fun _ _ _ h hs => ⟨h.1.step hs.1 hs.2, h.2.step (moves_of_next hs.2).2⟩
  down := by
    intro s l s' h hs
    simpa using rank_next h.2 hs.2

/-- **One signal at a time.** When the main thread handles the signals, one
    after the other, nothing goes wrong, and whoever waits in `join` waits
    for three steps of the thread at most: in a row they lead to its exit,
    and in every continuation it takes no more of them, and can go on until
    it has exited. -/
theorem oneAtATime_orderly (hrun : (system.restrict fun s l => oneAtATime s l).Run tr s) :
    Orderly s ∧ ((∃ c, s.pc c = some .join) → (∃ k ≤ 3, ∃ s',
      System.exec next s (List.replicate k .gc) = some s' ∧ s'.gc = .exited) ∧
      ∀ ls s', (system.restrict fun s l => oneAtATime s l).Path s ls s' → ls.count .gc ≤ 3 ∧
        (s'.gc = .exited ∨ ls.count .gc < 3 ∧ (next s' .gc).isSome)) := by
  have hcalm := calm_run hrun
  refine ⟨hcalm.orderly, ?_⟩
  rintro ⟨c, hc⟩
  have hborn : s.gc ≠ .unborn := hcalm.base.born (hcalm.orderly.held c hc)
  have hending : Ending s := ⟨stored_run hrun.of_restrict c .join hc (.inr rfl), hborn,
    fun hmain => hborn (hcalm.first hmain)⟩
  have hrank := s.gc.rank_le
  constructor
  · have hgoes : ∀ s, Calm s ∧ Ending s → ¬s.gc = .exited → ∃ s', next s .gc = some s' ∧
        (system.restrict fun s l => oneAtATime s l).step s .gc s' := by
      intro s h hgoing
      obtain ⟨s', hs⟩ := Option.isSome_iff_exists.mp (h.1.gc_isSome h.2 hgoing)
      exact ⟨s', hs, rfl, hs⟩
    obtain ⟨k, hk, h⟩ := ranks_gc.alone (by simp) hgoes ⟨hcalm, hending⟩
    exact ⟨k, by omega, h⟩
  · intro ls s' hpath
    obtain ⟨⟨hcalm', hending'⟩, hcount⟩ := ranks_gc.path ⟨hcalm, hending⟩ hpath
    have hsteps : ls.count .gc = ls.countP fun l => l = .gc := by
      rw [List.count_eq_countP]
      congr
    refine ⟨by omega, ?_⟩
    by_cases hexited : s'.gc = .exited
    · exact .inl hexited
    · have hpos : 0 < s'.gc.rank := by
        cases hgc : s'.gc with
        | unborn => exact absurd hgc hending'.born
        | exited => exact absurd hgc hexited
        | check | sleep | recheck | pass => simp [GcPC.rank]
      exact .inr ⟨by omega, hcalm'.gc_isSome hending' hexited⟩

/-- The signal comes during a pass. -/
def stopped : List Label :=
  List.flatten
    [[.main], .replicate 3 .gc, [.signal .main], .replicate 4 (.handler .main)]

theorem stopped_exits : ∃ s, (system.restrict fun s l => oneAtATime s l).Run stopped s ∧
    s.gc = .pass ∧ ∃ k ≤ 3, ∃ s',
      System.exec next s (List.replicate k .gc) = some s' ∧ s'.gc = .exited := by
  have hexec : (System.exec (fun s l => if oneAtATime s l then next s l else none) initial
      stopped).map (fun s => (s.pc (.handler .main 0), s.gc)) = some (some .join, .pass) := by
    decide
  obtain ⟨s, hrun, hs⟩ := System.exists_run_restrict_of_exec hexec
  simp only [Prod.mk.injEq] at hs
  exact ⟨s, hrun, hs.2, ((oneAtATime_orderly hrun).2 ⟨_, hs.1⟩).1⟩

end ServerShutdown

end Forge
