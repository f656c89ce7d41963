import Mathlib.Algebra.GroupWithZero.Nat
import Mathlib.Data.List.Induction

/-! # Labelled Transition Systems and Their Runs

  The framework every concurrent component of this development is
  stated in:

  - `System`: initial states and labelled steps;
  - `Run`: finite runs, with the list of the labels taken;
  - `Run.invariant` / `Run.history_invariant`: the two induction rules,
    for predicates of the state and for predicates of the trace and state;
  - `Path`: what follows a run, for results about a part of one;
  - `System.restrict`: the same system in which only the steps that meet
    a condition are taken, for results about the runs that avoid a defect;
  - `Deterministic`: the labels of a run decide its states, so that a run
    meets a condition or does not (`Deterministic.always_iff`);
  - `snoc_split`: the entries of a log that has grown by one;
  - `System.ofNext` / `exec`: systems given by a partial function, and
    the executable replay of a list of labels.
-/

namespace LTS

universe u v

/-- The replayed runs of two processes name them `0` and `1`. -/
instance instNeZeroTwo : NeZero (2 : ℕ) := ⟨by decide⟩

/-- A labelled transition system. -/
structure System (State : Type u) (Label : Type v) where
  /-- The states a run may start in. -/
  init : State → Prop
  /-- `step s l s'`: in state `s` the step labelled `l` leads to `s'`. -/
  step : State → Label → State → Prop

variable {State : Type u} {Label : Type v}

namespace System

/-! ### Runs -/

/-- `sys.Run tr s`: some initial state leads to `s` through the labels
    `tr`, oldest first. -/
inductive Run (sys : System State Label) : List Label → State → Prop where
  | start {s : State} : sys.init s → Run sys [] s
  | snoc {tr : List Label} {s s' : State} {l : Label} :
      Run sys tr s → sys.step s l s' → Run sys (tr ++ [l]) s'

/-- A state some run ends in. -/
def Reachable (sys : System State Label) (s : State) : Prop := ∃ tr, sys.Run tr s

theorem Run.init_of_nil {sys : System State Label} {s : State} (hrun : sys.Run [] s) :
    sys.init s := by
  generalize htr : ([] : List Label) = tr at hrun
  cases hrun with
  | start hs => exact hs
  | snoc _ _ => simp at htr

/-- The last step of a run. -/
theorem Run.snoc_inv {sys : System State Label} {tr : List Label} {l : Label} {s' : State}
    (hrun : sys.Run (tr ++ [l]) s') : ∃ s, sys.Run tr s ∧ sys.step s l s' := by
  generalize htr : tr ++ [l] = tr' at hrun
  cases hrun with
  | start _ => simp at htr
  | snoc hr hs =>
    obtain ⟨rfl, hl⟩ := List.append_inj' htr rfl
    simp only [List.cons.injEq, and_true] at hl
    subst hl
    exact ⟨_, hr, hs⟩

/-- **Invariant rule**: a predicate that holds initially and is kept by
    every step holds at the end of every run. -/
theorem Run.invariant {sys : System State Label} {P : State → Prop}
    (hinit : ∀ s, sys.init s → P s)
    (hstep : ∀ s l s', P s → sys.step s l s' → P s')
    {tr : List Label} {s : State} (hrun : sys.Run tr s) : P s := by
  induction hrun with
  | start hs => exact hinit _ hs
  | snoc _ hs ih => exact hstep _ _ _ ih hs

/-- **Invariant rule with history**: the predicate may also speak of the
    labels taken so far. -/
theorem Run.history_invariant {sys : System State Label} {P : List Label → State → Prop}
    (hinit : ∀ s, sys.init s → P [] s)
    (hstep : ∀ tr s l s', sys.Run tr s → P tr s → sys.step s l s' → P (tr ++ [l]) s')
    {tr : List Label} {s : State} (hrun : sys.Run tr s) : P tr s := by
  induction hrun with
  | start hs => exact hinit _ hs
  | snoc hr hs ih => exact hstep _ _ _ _ hr ih hs

theorem Reachable.step {sys : System State Label} {s s' : State} {l : Label}
    (hs : sys.Reachable s) (hstep : sys.step s l s') : sys.Reachable s' := by
  obtain ⟨tr, hrun⟩ := hs
  exact ⟨tr ++ [l], hrun.snoc hstep⟩

/-! ### Parts of runs -/

/-- `sys.Path s₀ tr s`: the labels `tr` lead from `s₀` to `s`. -/
inductive Path (sys : System State Label) (s₀ : State) : List Label → State → Prop where
  | refl : Path sys s₀ [] s₀
  | snoc {tr : List Label} {s s' : State} {l : Label} :
      Path sys s₀ tr s → sys.step s l s' → Path sys s₀ (tr ++ [l]) s'

/-- A run is a run and what follows it. -/
theorem Run.append_inv {sys : System State Label} {tr₁ tr₂ : List Label} {s : State}
    (hrun : sys.Run (tr₁ ++ tr₂) s) : ∃ s₁, sys.Run tr₁ s₁ ∧ sys.Path s₁ tr₂ s := by
  induction tr₂ using List.reverseRecOn generalizing s with
  | nil => exact ⟨s, by simpa using hrun, .refl⟩
  | append_singleton tr₂ l ih =>
    rw [← List.append_assoc] at hrun
    obtain ⟨s', hr, hs⟩ := hrun.snoc_inv
    obtain ⟨s₁, hr₁, hpath⟩ := ih hr
    exact ⟨s₁, hr₁, hpath.snoc hs⟩

theorem Run.append {sys : System State Label} {tr₁ tr₂ : List Label} {s₁ s : State}
    (hrun : sys.Run tr₁ s₁) (hpath : sys.Path s₁ tr₂ s) : sys.Run (tr₁ ++ tr₂) s := by
  induction hpath with
  | refl => simpa using hrun
  | snoc _ hs ih =>
    rw [← List.append_assoc]
    exact ih.snoc hs

/-- **Invariant rule for a part of a run**: the steps may be known to take
    labels of that part only. -/
theorem Path.invariant {sys : System State Label} {P : State → Prop} {s₀ s : State}
    {tr : List Label} (hpath : sys.Path s₀ tr s) (hstart : P s₀)
    (hstep : ∀ s l s', l ∈ tr → P s → sys.step s l s' → P s') : P s := by
  induction hpath with
  | refl => exact hstart
  | snoc _ hs ih =>
    refine hstep _ _ _ (by simp) (ih ?_) hs
    intro s l s' hl
    exact hstep s l s' (by simp [hl])

theorem Path.cons {sys : System State Label} {s₀ s₁ s : State} {l : Label} {tr : List Label}
    (hs : sys.step s₀ l s₁) (hpath : sys.Path s₁ tr s) : sys.Path s₀ (l :: tr) s := by
  induction hpath with
  | refl =>
    have hnil : sys.Path s₀ [] s₀ := .refl
    exact hnil.snoc hs
  | snoc _ hlast ih => exact ih.snoc hlast

/-! ### Runs that meet a condition -/

/-- The system in which a step `l` of state `s` is taken only when
    `ok s l` holds. -/
def restrict (sys : System State Label) (ok : State → Label → Prop) :
    System State Label where
  init := sys.init
  step := fun s l s' => ok s l ∧ sys.step s l s'

/-- A run of the restricted system is a run of the system itself. -/
theorem Run.of_restrict {sys : System State Label} {ok : State → Label → Prop}
    {tr : List Label} {s : State} (hrun : (sys.restrict ok).Run tr s) : sys.Run tr s := by
  induction hrun with
  | start hs => exact .start hs
  | snoc _ hs ih => exact ih.snoc hs.2

/-- A run that meets a condition meets a weaker one. -/
theorem Run.weaken {sys : System State Label} {ok ok' : State → Label → Prop}
    {tr : List Label} {s : State} (hrun : (sys.restrict ok).Run tr s)
    (hok : ∀ s l, ok s l → ok' s l) : (sys.restrict ok').Run tr s := by
  induction hrun with
  | start hs => exact .start hs
  | snoc _ hs ih => exact ih.snoc ⟨hok _ _ hs.1, hs.2⟩

/-- A condition on the labels alone is met by a run when its labels meet it. -/
theorem Run.restrict_labels_iff {sys : System State Label} {ok : Label → Prop}
    {tr : List Label} {s : State} :
    (sys.restrict fun _ => ok).Run tr s ↔ sys.Run tr s ∧ ∀ l ∈ tr, ok l := by
  constructor
  · intro hrun
    induction hrun with
    | start hs => exact ⟨.start hs, by simp⟩
    | snoc _ hs ih =>
      refine ⟨ih.1.snoc hs.2, ?_⟩
      intro l hl
      obtain hl | hl := List.mem_append.mp hl
      · exact ih.2 l hl
      · rw [List.mem_singleton.mp hl]
        exact hs.1
  · rintro ⟨hrun, hall⟩
    induction hrun with
    | start hs => exact .start hs
    | snoc _ hs ih =>
      exact (ih fun l hl => hall l (by simp [hl])).snoc ⟨hall _ (by simp), hs⟩

/-- A run of one system that has begun is a run of another one that goes on
    in the same way from where it begins. -/
theorem Run.reinit {sys sys' : System State Label}
    (hfirst : ∀ s l s', sys.init s → sys.step s l s' → sys'.Run [l] s')
    (hstep : ∀ s l s', sys.step s l s' → sys'.step s l s') {tr : List Label} {s : State}
    (hrun : sys.Run tr s) : tr = [] ∧ sys.init s ∨ sys'.Run tr s := by
  induction hrun with
  | start hs => exact .inl ⟨rfl, hs⟩
  | snoc _ hs ih =>
    obtain ⟨rfl, hinit⟩ | hrun' := ih
    · exact .inr (hfirst _ _ _ hinit hs)
    · exact .inr (hrun'.snoc (hstep _ _ _ hs))

/-! ### Deterministic systems -/

/-- The label decides the step, and there is one initial state. -/
structure Deterministic (sys : System State Label) : Prop where
  init : ∀ s s', sys.init s → sys.init s' → s = s'
  step : ∀ s l s' s'', sys.step s l s' → sys.step s l s'' → s' = s''

theorem Deterministic.restrict {sys : System State Label} (hd : sys.Deterministic)
    (ok : State → Label → Prop) : (sys.restrict ok).Deterministic where
  init := hd.init
  step := fun s l s' s'' h h' => hd.step s l s' s'' h.2 h'.2

/-- In a deterministic system the labels decide the run. -/
theorem Deterministic.run_unique {sys : System State Label} (hd : sys.Deterministic)
    {tr : List Label} {s s' : State} (h : sys.Run tr s) (h' : sys.Run tr s') : s = s' := by
  induction h generalizing s' with
  | start hs => exact hd.init _ _ hs h'.init_of_nil
  | snoc _ hs ih =>
    obtain ⟨s₁, hr', hs'⟩ := h'.snoc_inv
    have hmid := ih hr'
    subst hmid
    exact hd.step _ _ _ _ hs hs'

/-- One more step of a run meets the condition if the run did and the
    step does. -/
theorem Deterministic.restrict_snoc {sys : System State Label} (hd : sys.Deterministic)
    {ok : State → Label → Prop} {tr : List Label} {s s' : State} {l : Label}
    (hrun : sys.Run tr s) (hs : sys.step s l s') :
    (sys.restrict ok).Run (tr ++ [l]) s' ↔ (sys.restrict ok).Run tr s ∧ ok s l := by
  constructor
  · intro h
    obtain ⟨s₁, hr', hs'⟩ := h.snoc_inv
    have hmid := hd.run_unique hrun hr'.of_restrict
    subst hmid
    exact ⟨hr', hs'.1⟩
  · intro h
    exact h.1.snoc ⟨h.2, hs⟩

/-- **Exactness rule**: when the steps that meet the condition are those
    that keep `P`, the runs all of whose states satisfy `P` are those all
    of whose steps meet the condition. -/
theorem Deterministic.always_iff {sys : System State Label} (hd : sys.Deterministic)
    {P : State → Prop} {ok : State → Label → Prop} (hinit : ∀ s, sys.init s → P s)
    (hstep : ∀ s l s', sys.Reachable s → P s → sys.step s l s' → (P s' ↔ ok s l))
    {tr : List Label} {s : State} (hrun : sys.Run tr s) :
    (∀ tr' s', tr' <+: tr → sys.Run tr' s' → P s') ↔ (sys.restrict ok).Run tr s := by
  induction hrun with
  | start hs =>
    refine ⟨fun _ => .start hs, ?_⟩
    intro _ tr' s' hpre hrun'
    rw [List.prefix_nil.mp hpre] at hrun'
    exact hinit s' hrun'.init_of_nil
  | @snoc tr s s' l hr hs ih =>
    rw [hd.restrict_snoc hr hs]
    constructor
    · intro hall
      have hold : ∀ tr' s', tr' <+: tr → sys.Run tr' s' → P s' :=
        fun tr' s' hpre => hall tr' s' (hpre.trans (List.prefix_append _ _))
      refine ⟨ih.mp hold, ?_⟩
      rw [← hstep s l s' ⟨tr, hr⟩ (hold tr s List.prefix_rfl hr) hs]
      exact hall _ _ List.prefix_rfl (hr.snoc hs)
    · rintro ⟨hold, hok⟩ tr' s₁ hpre hrun'
      have hkept := ih.mpr hold
      obtain rfl | hpre' := List.prefix_concat_iff.mp hpre
      · obtain rfl := hd.run_unique (hr.snoc hs) hrun'
        exact (hstep s l s' ⟨tr, hr⟩ (hkept tr s List.prefix_rfl hr) hs).mpr hok
      · exact hkept tr' s₁ hpre' hrun'

/-! ### Logs -/

/-- An entry of a log that has grown by one: the new one, or an old one. -/
theorem snoc_split {α : Type u} {log l₁ l₂ : List α} {a b : α}
    (h : log ++ [a] = l₁ ++ b :: l₂) :
    (l₂ = [] ∧ l₁ = log ∧ b = a) ∨ ∃ l₃, l₂ = l₃ ++ [a] ∧ log = l₁ ++ b :: l₃ := by
  induction l₂ using List.reverseRecOn with
  | nil =>
    obtain ⟨hlog, hlast⟩ := List.append_inj' h rfl
    simp only [List.cons.injEq, and_true] at hlast
    exact .inl ⟨rfl, hlog.symm, hlast.symm⟩
  | append_singleton l₃ c _ =>
    rw [← List.cons_append, ← List.append_assoc] at h
    obtain ⟨hlog, hlast⟩ := List.append_inj' h rfl
    rw [hlast]
    exact .inr ⟨l₃, rfl, hlog⟩

/-! ### Systems given by a partial function -/

/-- The system that starts in `s₀` and steps by `next`. -/
def ofNext (s₀ : State) (next : State → Label → Option State) : System State Label where
  init := fun s => s = s₀
  step := fun s l s' => next s l = some s'

theorem deterministic_ofNext (s₀ : State) (next : State → Label → Option State) :
    (ofNext s₀ next).Deterministic where
  init := fun _ _ h h' => h.trans h'.symm
  step := fun _ _ _ _ h h' => Option.some.inj (h.symm.trans h')

/-- Replay a list of labels. -/
def exec (next : State → Label → Option State) : State → List Label → Option State
  | s, [] => some s
  | s, l :: ls => (next s l).bind (exec next · ls)

/-- A replay goes on where it has come to. -/
theorem exec_append {next : State → Label → Option State} {ls ls' : List Label} {s s' : State}
    (h : exec next s ls = some s') : exec next s (ls ++ ls') = exec next s' ls' := by
  induction ls generalizing s with
  | nil =>
    obtain rfl : s = s' := Option.some.inj h
    rfl
  | cons l ls ih =>
    obtain ⟨s₁, hs₁, hls⟩ := Option.bind_eq_some_iff.mp h
    show (next s l).bind (exec next · (ls ++ ls')) = _
    rw [hs₁]
    exact ih hls

/-- What every step that is replayed keeps. -/
theorem exec_invariant {next : State → Label → Option State} {Q : State → Prop} {ls : List Label}
    (hstep : ∀ s l s', l ∈ ls → Q s → next s l = some s' → Q s') {s s' : State} (hs : Q s)
    (h : exec next s ls = some s') : Q s' := by
  induction ls generalizing s with
  | nil =>
    obtain rfl : s = s' := Option.some.inj h
    exact hs
  | cons l ls ih =>
    obtain ⟨s₁, hfirst, hrest⟩ := Option.bind_eq_some_iff.mp h
    have hrest' : ∀ s l' s', l' ∈ ls → Q s → next s l' = some s' → Q s' :=
      fun s l' s' hl => hstep s l' s' (List.mem_cons_of_mem l hl)
    exact ih hrest' (hstep s l s₁ List.mem_cons_self hs hfirst) hrest

/-- A successful replay from the end of a run extends that run. -/
theorem Run.exec_append {s₀ : State} {next : State → Label → Option State} :
    ∀ {ls tr : List Label} {s s' : State}, (ofNext s₀ next).Run tr s →
      exec next s ls = some s' → (ofNext s₀ next).Run (tr ++ ls) s'
  | [], tr, s, s', hrun, h => by
    simp only [exec, Option.some.injEq] at h
    subst h
    simpa using hrun
  | l :: ls, tr, s, s', hrun, h => by
    simp only [exec, Option.bind_eq_some_iff] at h
    obtain ⟨s₁, hs₁, hls⟩ := h
    have hstep : (ofNext s₀ next).Run (tr ++ [l]) s₁ := hrun.snoc hs₁
    simpa using hstep.exec_append hls

/-- A successful replay from the initial state is a run. -/
theorem run_of_exec {s₀ s : State} {next : State → Label → Option State} {ls : List Label}
    (h : exec next s₀ ls = some s) : (ofNext s₀ next).Run ls s := by
  have hstart : (ofNext s₀ next).Run [] s₀ := .start rfl
  simpa using hstart.exec_append h

/-- A replay of labels that meet a condition is a path that meets it. -/
theorem path_of_exec {s₀ s s' : State} {next : State → Label → Option State} {ok : Label → Prop}
    {ls : List Label} (hok : ∀ l ∈ ls, ok l) (h : exec next s ls = some s') :
    ((ofNext s₀ next).restrict fun _ => ok).Path s ls s' := by
  induction ls generalizing s with
  | nil =>
    obtain rfl : s = s' := Option.some.inj h
    exact .refl
  | cons l ls ih =>
    obtain ⟨s₁, hs₁, hls⟩ := Option.bind_eq_some_iff.mp h
    obtain ⟨hl, hok'⟩ := List.forall_mem_cons.mp hok
    exact .cons ⟨hl, hs₁⟩ (ih hok' hls)

/-- A replay that ends is a run, and its end can be looked at. -/
theorem exists_run_of_exec {α : Type*} {s₀ : State} {next : State → Label → Option State}
    {ls : List Label} {view : State → α} {v : α} (h : (exec next s₀ ls).map view = some v) :
    ∃ s, (ofNext s₀ next).Run ls s ∧ view s = v := by
  obtain ⟨s, hexec, hv⟩ := Option.map_eq_some_iff.mp h
  exact ⟨s, run_of_exec hexec, hv⟩

/-- A replay inside a larger state. -/
theorem exec_map {State' : Type u} {Label' : Type v} {next : State → Label → Option State}
    {next' : State' → Label' → Option State'} (f : State → State') (g : Label → Label')
    (hstep : ∀ s l s', next s l = some s' → next' (f s) (g l) = some (f s')) {ls : List Label}
    {s s' : State} (h : exec next s ls = some s') : exec next' (f s) (ls.map g) = some (f s') := by
  induction ls generalizing s with
  | nil =>
    simp only [exec, Option.some.injEq] at h
    simp [exec, h]
  | cons l ls ih =>
    simp only [exec, Option.bind_eq_some_iff] at h
    obtain ⟨s₁, hs₁, hls⟩ := h
    simp only [List.map_cons, exec, hstep s l s₁ hs₁, Option.bind_some]
    exact ih hls

/-- A replay that checks the condition at every step is a run that meets it. -/
theorem run_restrict_of_exec {s₀ s : State} {next : State → Label → Option State}
    {ok : State → Label → Bool} {ls : List Label}
    (h : exec (fun s l => if ok s l then next s l else none) s₀ ls = some s) :
    ((ofNext s₀ next).restrict fun s l => ok s l).Run ls s := by
  have hguard : ∀ {tr : List Label} {s : State},
      (ofNext s₀ fun s l => if ok s l then next s l else none).Run tr s →
        ((ofNext s₀ next).restrict fun s l => ok s l).Run tr s := by
    intro tr s hrun
    induction hrun with
    | start hs => exact .start hs
    | snoc _ hs ih => exact ih.snoc (Option.ite_none_right_eq_some.mp hs)
  exact hguard (run_of_exec h)

theorem exists_run_restrict_of_exec {α : Type*} {s₀ : State}
    {next : State → Label → Option State} {ok : State → Label → Bool} {ls : List Label}
    {view : State → α} {v : α}
    (h : (exec (fun s l => if ok s l then next s l else none) s₀ ls).map view = some v) :
    ∃ s, ((ofNext s₀ next).restrict fun s l => ok s l).Run ls s ∧ view s = v := by
  obtain ⟨s, hexec, hv⟩ := Option.map_eq_some_iff.mp h
  exact ⟨s, run_restrict_of_exec hexec, hv⟩

end System

end LTS
