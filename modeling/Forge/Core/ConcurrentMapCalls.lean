import Forge.Core.ConcurrentMap
import Forge.Framework.System

/-! # The Striped Map under Concurrent Calls

  `ConcurrentMap` with any number of callers. An operation on one key is
  one step, under the lock of its stripe. `size`, `keys` and the check of
  `insert_if_under` lock one stripe after another, and other calls change
  the stripes in between.

  `whole` is the one finite map the stripes make up:

  - `KeyOp.apply_eq_spec`: an operation on one key has the result and the
    effect it has on that map;
  - `Collected`: what a scan has seen of the stripes behind it. Every call
    carries the list of the key sets that were stored at the moments of
    its run, `moments`, which no step reads;
  - `behaves_as_one_map`: both together, in every reachable state.
-/

namespace Forge

open LTS

namespace ConcurrentMap

variable {K V : Type*} {hash : K → ℕ} {numStripes : ℕ} [NeZero numStripes]

/-! ### Operations on one key -/

section Operations

variable [DecidableEq K] (m : ConcurrentMap K V hash numStripes) (key : K)

/-- Insert or update; whether the key is new. -/
def insert (value : V) : Bool × ConcurrentMap K V hash numStripes :=
  match m.find key with
  | some _ => (false, m.set key value)
  | none => (true, m.set key value)

/-- The insert of `insert_if_under`, which returns true for an update too. -/
def insertUnder (value : V) : Bool × ConcurrentMap K V hash numStripes :=
  match m.find key with
  | some _ => (true, m.set key value)
  | none => (true, m.set key value)

def contains : Bool := (m.find key).isSome

/-- The value `func` is called with, or `none` when false is returned. -/
def withValue : Option V := m.find key

/-- Apply `func` to the value in place. -/
def mutate (func : V → V) : Bool × ConcurrentMap K V hash numStripes :=
  match m.find key with
  | none => (false, m)
  | some v => (true, m.set key (func v))

end Operations

/-- The operations that are one step on the stripe of their key. -/
inductive KeyOp (K V : Type*) where
  | insert (key : K) (value : V)
  | insertUnder (key : K) (value : V)
  | erase (key : K)
  | mutate (key : K) (func : V → V)
  | find (key : K)
  | contains (key : K)
  | withValue (key : K)

/-- What a call returns. -/
inductive Result (K V : Type*) where
  | flag (b : Bool)
  | value (v : Option V)
  | count (n : ℕ)
  | keys (l : List K)

/-- The operation on the striped map. -/
def KeyOp.apply [DecidableEq K] (m : ConcurrentMap K V hash numStripes) :
    KeyOp K V → Result K V × ConcurrentMap K V hash numStripes
  | .insert key value => (.flag (m.insert key value).1, (m.insert key value).2)
  | .insertUnder key value => (.flag (m.insertUnder key value).1, (m.insertUnder key value).2)
  | .erase key => (.flag (m.find key).isSome, m.erase key)
  | .mutate key func => (.flag (m.mutate key func).1, (m.mutate key func).2)
  | .find key => (.value (m.find key), m)
  | .contains key => (.flag (m.contains key), m)
  | .withValue key => (.value (m.withValue key), m)

/-- The operation on one finite map. -/
def KeyOp.spec [DecidableEq K] (F : Finmap fun _ : K => V) :
    KeyOp K V → Result K V × Finmap fun _ : K => V
  | .insert key value => (.flag (decide (key ∉ F)), F.insert key value)
  | .insertUnder key value => (.flag true, F.insert key value)
  | .erase key => (.flag (decide (key ∈ F)), F.erase key)
  | .mutate key func =>
      match F.lookup key with
      | none => (.flag false, F)
      | some v => (.flag true, F.insert key (func v))
  | .find key => (.value (F.lookup key), F)
  | .contains key => (.flag (decide (key ∈ F)), F)
  | .withValue key => (.value (F.lookup key), F)

/-! ### Calls -/

/-- Where a call is. -/
inductive PC (K V : Type*) where
  /-- Lock the stripe of the key and do it. -/
  | single (op : KeyOp K V)
  /-- `size`: stripe `j` is next. -/
  | size (j total : ℕ)
  /-- `keys`: stripe `j` is next. -/
  | keys (j : ℕ) (result : List K)
  /-- `insert_if_under`: in its call of `size`. -/
  | under (key : K) (value : V) (maxSize j total : ℕ)
  | done (result : Result K V)

/-- A call. History: the sets of keys stored at the moments of the call,
    from the call to the return. -/
structure Call (K V : Type*) where
  pc : PC K V
  moments : List (Finset K)

/-- What can be called. -/
inductive Op (K V : Type*) where
  | single (op : KeyOp K V)
  | size
  | keys
  | insertIfUnder (key : K) (value : V) (maxSize : ℕ)

/-- Where a call begins. -/
def Op.start : Op K V → PC K V
  | .single op => .single op
  | .size => .size 0 0
  | .keys => .keys 0 []
  | .insertIfUnder key value maxSize => .under key value maxSize 0 0

/-- The map and the calls. -/
structure State (K V : Type*) (hash : K → ℕ) (numStripes : ℕ) [NeZero numStripes] where
  map : ConcurrentMap K V hash numStripes
  calls : List (Call K V)

/-- The steps: a call, and the next lock or the return of call `i`. -/
inductive Label (K V : Type*) where
  | call (op : Op K V)
  | step (i : ℕ)

def initial : State K V hash numStripes := ⟨empty, []⟩

/-- A call that has not returned lives through the moment `now`. -/
def Call.record (now : Finset K) (c : Call K V) : Call K V :=
  match c.pc with
  | .done _ => c
  | _ => { c with moments := c.moments ++ [now] }

section Steps

variable [DecidableEq K]

/-- Record the new moment in all running calls. -/
def State.record (s : State K V hash numStripes) : State K V hash numStripes :=
  { s with calls := s.calls.map (Call.record s.map.whole.keys) }

def State.setPC (s : State K V hash numStripes) (i : ℕ) (c : Call K V) (pc : PC K V) :
    State K V hash numStripes :=
  { s with calls := s.calls.set i { c with pc := pc } }

/-- The next step of call `i`, which is `c`. -/
def callStep (s : State K V hash numStripes) (i : ℕ) (c : Call K V) :
    Option (State K V hash numStripes) :=
  match c.pc with
  | .single op =>
      some (({ s with map := (op.apply s.map).2 } : State K V hash numStripes).setPC i c
        (.done (op.apply s.map).1))
  | .size j total =>
      if j < numStripes then some (s.setPC i c (.size (j + 1) (total + s.map.sizeAt j)))
      else some (s.setPC i c (.done (.count total)))
  | .keys j result =>
      if j < numStripes then some (s.setPC i c (.keys (j + 1) (result ++ s.map.keysAt j)))
      else some (s.setPC i c (.done (.keys result)))
  | .under key value maxSize j total =>
      if j < numStripes then
        some (s.setPC i c (.under key value maxSize (j + 1) (total + s.map.sizeAt j)))
      else if maxSize ≤ total then
        -- `if (size() >= max_size) return false`
        some (s.setPC i c (.done (.flag false)))
      else
        some (s.setPC i c (.single (.insertUnder key value)))
  | .done _ => none

/-- The step function. -/
def next (s : State K V hash numStripes) : Label K V → Option (State K V hash numStripes)
  | .call op => some (State.record { s with calls := s.calls ++ [⟨op.start, []⟩] })
  | .step i => (s.calls[i]?.bind (callStep s i)).map State.record

end Steps

/-- The map with its callers. -/
def system (K V : Type*) [DecidableEq K] (hash : K → ℕ) (numStripes : ℕ) [NeZero numStripes] :
    System (State K V hash numStripes) (Label K V) :=
  .ofNext initial next

variable [DecidableEq K] {m m' : ConcurrentMap K V hash numStripes} {moments : List (Finset K)}
  {s s' : State K V hash numStripes} {c : Call K V} {j : ℕ} {r : List K}

/-! ### One map -/

theorem find_isSome_eq (m : ConcurrentMap K V hash numStripes) (key : K) :
    (m.find key).isSome = decide (key ∈ m.whole) := by
  rw [← lookup_whole, Bool.eq_iff_iff, decide_eq_true_eq, Finmap.lookup_isSome]

/-- **Operations on one key.** The result and the effect are those of the
    operation on the whole map. -/
theorem KeyOp.apply_eq_spec (m : ConcurrentMap K V hash numStripes) (op : KeyOp K V) :
    ((op.apply m).1, (op.apply m).2.whole) = op.spec m.whole := by
  cases op with
  | insert key value =>
    -- both branches store the value; only the flag depends on the old one
    have hnew := find_isSome_eq m key
    simp only [KeyOp.apply, KeyOp.spec, ConcurrentMap.insert]
    cases hfind : m.find key with
    | none =>
      rw [hfind] at hnew
      simp [decide_not, ← hnew]
    | some v =>
      rw [hfind] at hnew
      simp [← hnew]
  | insertUnder key value =>
    simp only [KeyOp.apply, KeyOp.spec, ConcurrentMap.insertUnder]
    cases m.find key <;> simp
  | erase key => simp [KeyOp.apply, KeyOp.spec, find_isSome_eq]
  | mutate key func =>
    -- `func` is applied to a value that is there
    simp only [KeyOp.apply, KeyOp.spec, ConcurrentMap.mutate, lookup_whole]
    cases m.find key <;> simp
  | find key => simp [KeyOp.apply, KeyOp.spec]
  | contains key => simp [KeyOp.apply, KeyOp.spec, ConcurrentMap.contains, find_isSome_eq]
  | withValue key => simp [KeyOp.apply, KeyOp.spec, ConcurrentMap.withValue]

/-! ### Scans -/

/-- The keys stored at some moment. -/
def ever (moments : List (Finset K)) : Finset K := moments.foldr (· ∪ ·) ∅

/-- The keys stored at every moment. -/
def throughout (moments : List (Finset K)) : Finset K :=
  (ever moments).filter fun k => ∀ S ∈ moments, k ∈ S

omit [NeZero numStripes] in
theorem mem_ever {k : K} : k ∈ ever moments ↔ ∃ S ∈ moments, k ∈ S := by
  unfold ever
  induction moments with
  | nil => simp
  | cons S moments ih => simp [ih]

/-- What a scan has collected before stripe `j`: nothing twice, nothing
    that was never there, and all that was there at every moment. -/
structure Collected (hash : K → ℕ) (numStripes : ℕ) [NeZero numStripes]
    (moments : List (Finset K)) (j : ℕ) (r : List K) : Prop where
  nodup : r.Nodup
  seen : ∀ k ∈ r, (stripeOf hash numStripes k : ℕ) < j ∧ ∃ S ∈ moments, k ∈ S
  complete : ∀ k, (stripeOf hash numStripes k : ℕ) < j → (∀ S ∈ moments, k ∈ S) → k ∈ r

omit [DecidableEq K] in
theorem collected_nil : Collected hash numStripes moments 0 [] :=
  ⟨List.nodup_nil, by simp, by simp⟩

omit [DecidableEq K] in
/-- More moments weaken what has to be there, and allow more. -/
theorem Collected.mono {moments' : List (Finset K)} (h : Collected hash numStripes moments j r)
    (hsub : ∀ S ∈ moments, S ∈ moments') : Collected hash numStripes moments' j r where
  nodup := h.nodup
  seen := by
    intro k hk
    obtain ⟨hj, S, hS, hmem⟩ := h.seen k hk
    exact ⟨hj, S, hsub S hS, hmem⟩
  complete := fun k hj hall => h.complete k hj fun S hS => hall S (hsub S hS)

/-- **One stripe of a scan**: its keys are stored now, and no stripe behind
    it holds one of them. -/
theorem Collected.stripe (h : Collected hash numStripes moments j r)
    (hnow : m.whole.keys ∈ moments) :
    Collected hash numStripes moments (j + 1) (r ++ m.keysAt j) where
  nodup := by
    rw [List.nodup_append']
    refine ⟨h.nodup, keysAt_nodup j, ?_⟩
    intro k hk hk'
    have hbefore := (h.seen k hk).1
    have hat := (mem_keysAt.mp hk').1
    omega
  seen := by
    intro k hk
    obtain hk | hk := List.mem_append.mp hk
    · obtain ⟨hj, hS⟩ := h.seen k hk
      exact ⟨by omega, hS⟩
    · obtain ⟨hj, hfind⟩ := mem_keysAt.mp hk
      exact ⟨by omega, _, hnow, mem_keys_whole.mpr hfind⟩
  complete := by
    intro k hj hall
    rw [List.mem_append]
    -- a key is in the stripe of its hash and in no other
    by_cases hlt : (stripeOf hash numStripes k : ℕ) < j
    · exact .inl (h.complete k hlt hall)
    · exact .inr (mem_keysAt.mpr ⟨by omega, mem_keys_whole.mp (hall _ hnow)⟩)

/-- What a list of keys is to be that `keys` returns. -/
structure Listed (moments : List (Finset K)) (r : List K) : Prop where
  once : ∀ k, (∀ S ∈ moments, k ∈ S) → r.count k = 1
  nodup : ∀ k, r.count k ≤ 1
  seen : ∀ k ∈ r, ∃ S ∈ moments, k ∈ S

/-- What a number is to be that `size` returns. -/
structure Counted (moments : List (Finset K)) (n : ℕ) : Prop where
  lower : (throughout moments).card ≤ n
  upper : n ≤ (ever moments).card
  unchanged : ∀ S, (∀ S' ∈ moments, S' = S) → n = S.card

theorem Collected.listed (h : Collected hash numStripes moments numStripes r) :
    Listed moments r where
  once := by
    intro k hall
    exact List.count_eq_one_of_mem h.nodup (h.complete k (Fin.is_lt _) hall)
  nodup := List.nodup_iff_count_le_one.mp h.nodup
  seen := fun k hk => (h.seen k hk).2

theorem Collected.counted (h : Collected hash numStripes moments numStripes r)
    (hne : moments ≠ []) : Counted moments r.length where
  lower := by
    rw [← List.toFinset_card_of_nodup h.nodup]
    apply Finset.card_le_card
    intro k hk
    rw [List.mem_toFinset]
    exact h.complete k (Fin.is_lt _) (Finset.mem_filter.mp hk).2
  upper := by
    rw [← List.toFinset_card_of_nodup h.nodup]
    apply Finset.card_le_card
    intro k hk
    exact mem_ever.mpr (h.seen k (List.mem_toFinset.mp hk)).2
  unchanged := by
    intro S hS
    obtain ⟨S₀, hS₀⟩ := List.exists_mem_of_ne_nil moments hne
    rw [← List.toFinset_card_of_nodup h.nodup]
    congr 1
    ext k
    rw [List.mem_toFinset]
    constructor
    · intro hk
      obtain ⟨-, S', hS', hmem⟩ := h.seen k hk
      rwa [hS S' hS'] at hmem
    · intro hk
      exact h.complete k (Fin.is_lt _) fun S' hS' => hS S' hS' ▸ hk

/-! ### Calls and their scans -/

/-- A scan is at stripe `j` and lives in this moment. -/
def Scans (m : ConcurrentMap K V hash numStripes) (moments : List (Finset K)) (j : ℕ) (r : List K) :
    Prop :=
  j ≤ numStripes ∧ m.whole.keys ∈ moments ∧ Collected hash numStripes moments j r

/-- What a call has collected; `size` has counted a list of keys. -/
def Call.Ok (m : ConcurrentMap K V hash numStripes) (c : Call K V) : Prop :=
  match c.pc with
  | .single _ => True
  | .size j total | .under _ _ _ j total => ∃ r, Scans m c.moments j r ∧ r.length = total
  | .keys j r => Scans m c.moments j r
  | .done (.keys r) => Listed c.moments r
  | .done (.count n) => Counted c.moments n
  | .done _ => True

/-- The next stripe. -/
theorem Scans.stripe (h : Scans m moments j r) (hj : j < numStripes) :
    Scans m moments (j + 1) (r ++ m.keysAt j) :=
  ⟨hj, h.2.1, h.2.2.stripe h.2.1⟩

/-- All stripes have been visited. -/
theorem Scans.collected (h : Scans m moments j r) (hj : ¬ j < numStripes) :
    Collected hash numStripes moments numStripes r := by
  have heq : j = numStripes := Nat.le_antisymm h.1 (Nat.not_lt.mp hj)
  have hcollected := h.2.2
  rwa [heq] at hcollected

theorem Scans.record (h : Scans m moments j r) :
    Scans m' (moments ++ [m'.whole.keys]) j r :=
  ⟨h.1, by simp, h.2.2.mono fun S hS => List.mem_append_left _ hS⟩

/-- Another moment passes, with whatever map. -/
theorem Call.Ok.record (h : c.Ok m) (m' : ConcurrentMap K V hash numStripes) :
    (c.record m'.whole.keys).Ok m' := by
  obtain ⟨pc, moments⟩ := c
  cases pc with
  | single op => trivial
  | size j total | under key value maxSize j total =>
    obtain ⟨r, hscan, hlen⟩ := h
    exact ⟨r, hscan.record, hlen⟩
  | keys j r => exact Scans.record h
  | done result => cases result <;> exact h

/-- A step of call `i` leads to a call that is all right. -/
theorem callStep_spec {i : ℕ} (hok : c.Ok s.map) (h : callStep s i c = some s') :
    ∃ c', s'.calls = s.calls.set i c' ∧ c'.Ok s.map := by
  obtain ⟨pc, moments⟩ := c
  unfold callStep at h
  cases pc with
  | single op =>
    rw [← Option.some.inj h]
    refine ⟨_, rfl, ?_⟩
    cases op <;> trivial
  | size j total =>
    obtain ⟨r, hscan, hlen⟩ := hok
    simp only at h
    split at h
    · next hj =>
      rw [← Option.some.inj h]
      exact ⟨_, rfl, _, hscan.stripe hj, by rw [List.length_append, hlen]; rfl⟩
    · next hj =>
      rw [← Option.some.inj h]
      refine ⟨_, rfl, ?_⟩
      -- the number is that of a list of keys nobody has seen
      show Counted moments total
      rw [← hlen]
      exact (hscan.collected hj).counted (List.ne_nil_of_mem hscan.2.1)
  | keys j r =>
    simp only at h
    split at h
    · next hj =>
      rw [← Option.some.inj h]
      exact ⟨_, rfl, Scans.stripe hok hj⟩
    · next hj =>
      rw [← Option.some.inj h]
      exact ⟨_, rfl, (Scans.collected hok hj).listed⟩
  | under key value maxSize j total =>
    obtain ⟨r, hscan, hlen⟩ := hok
    simp only at h
    split at h
    · next hj =>
      rw [← Option.some.inj h]
      exact ⟨_, rfl, _, hscan.stripe hj, by rw [List.length_append, hlen]; rfl⟩
    -- the size is known, and the insert is a step of its own
    · split at h <;> rw [← Option.some.inj h] <;> exact ⟨_, rfl, trivial⟩
  | done result => cases h

/-- Where a call begins nothing has been collected. -/
theorem start_ok (op : Op K V) (m : ConcurrentMap K V hash numStripes) :
    (Call.record m.whole.keys ⟨op.start, []⟩).Ok m := by
  have hscan : Scans m [m.whole.keys] 0 [] := ⟨Nat.zero_le _, by simp, collected_nil⟩
  cases op with
  | single op => trivial
  | size => exact ⟨[], hscan, rfl⟩
  | keys => exact hscan
  | insertIfUnder key value maxSize => exact ⟨[], hscan, rfl⟩

/-- **Step of the scans.** -/
theorem ok_step {l : Label K V} (hok : ∀ c ∈ s.calls, c.Ok s.map) (hs : next s l = some s') :
    ∀ c ∈ s'.calls, c.Ok s'.map := by
  cases l with
  | call op =>
    rw [← Option.some.inj hs]
    intro c hc
    obtain ⟨c₀, hc₀, rfl⟩ := List.mem_map.mp hc
    obtain hmem | hmem := List.mem_append.mp hc₀
    · exact (hok c₀ hmem).record s.map
    · rw [List.mem_singleton.mp hmem]
      exact start_ok op s.map
  | step i =>
    -- the other calls only live through one more moment
    obtain ⟨s₁, hs₁, rfl⟩ := Option.map_eq_some_iff.mp hs
    obtain ⟨c₁, hc₁, hstep⟩ := Option.bind_eq_some_iff.mp hs₁
    obtain ⟨c', hcalls, hok'⟩ := callStep_spec (hok c₁ (List.mem_of_getElem? hc₁)) hstep
    intro c hc
    obtain ⟨c₀, hc₀, rfl⟩ := List.mem_map.mp hc
    rw [hcalls] at hc₀
    obtain hmem | rfl := List.mem_or_eq_of_mem_set hc₀
    · exact (hok c₀ hmem).record s₁.map
    · exact hok'.record s₁.map

theorem ok_of_run {tr : List (Label K V)} (hrun : (system K V hash numStripes).Run tr s) :
    ∀ c ∈ s.calls, c.Ok s.map := by
  apply hrun.invariant (P := fun s => ∀ c ∈ s.calls, c.Ok s.map)
  · intro s hs
    have hs' : s = initial := hs
    subst hs'
    simp [initial]
  · intro s l s' hok hs
    exact ok_step hok hs

/-! ### The map -/

/-- The operation on one key that a step performs. -/
def State.effect (s : State K V hash numStripes) : Label K V → Option (KeyOp K V)
  | .call _ => none
  | .step i =>
      match s.calls[i]?.map Call.pc with
      | some (.single op) => some op
      | _ => none

omit [DecidableEq K] in
theorem effect_eq_some {l : Label K V} {op : KeyOp K V} (h : s.effect l = some op) :
    ∃ i c, l = .step i ∧ s.calls[i]? = some c ∧ c.pc = .single op := by
  cases l with
  | call op' => cases h
  | step i =>
    unfold State.effect at h
    cases hc : s.calls[i]? with
    | none => simp [hc] at h
    | some c =>
      refine ⟨i, c, rfl, hc, ?_⟩
      simp only [hc, Option.map_some] at h
      split at h
      · next heq => rw [Option.some.inj heq, Option.some.inj h]
      · cases h

/-- A call that is not at an operation on one key leaves the map alone. -/
theorem callStep_map {i : ℕ} (hpc : ∀ op, c.pc ≠ .single op) (h : callStep s i c = some s') :
    s'.map = s.map := by
  unfold callStep at h
  cases hc : c.pc with
  | single op => exact absurd hc (hpc op)
  | size j total | keys j r =>
    simp only [hc] at h
    split at h <;> rw [← Option.some.inj h] <;> rfl
  | under key value maxSize j total =>
    simp only [hc] at h
    split at h
    · rw [← Option.some.inj h]; rfl
    · split at h <;> rw [← Option.some.inj h] <;> rfl
  | done result => simp [hc] at h

/-- A step that performs no operation leaves the map alone. -/
theorem map_of_next {l : Label K V} (hs : next s l = some s') (heff : s.effect l = none) :
    s'.map = s.map := by
  cases l with
  | call op => rw [← Option.some.inj hs]; rfl
  | step i =>
    obtain ⟨s₁, hs₁, rfl⟩ := Option.map_eq_some_iff.mp hs
    obtain ⟨c, hc, hstep⟩ := Option.bind_eq_some_iff.mp hs₁
    apply callStep_map (c := c) _ hstep
    intro op hpc
    simp [State.effect, hc, hpc] at heff

/-- A step that performs an operation returns its result. -/
theorem single_of_next {i : ℕ} {op : KeyOp K V} (hs : next s (.step i) = some s')
    (heff : s.effect (.step i) = some op) :
    s'.calls[i]?.map Call.pc = some (.done (op.apply s.map).1) ∧
      s'.map = (op.apply s.map).2 := by
  -- the call is at a single operation, which returns at once
  obtain ⟨_, c, hi, hc, hpc⟩ := effect_eq_some heff
  cases hi
  have hlt : i < s.calls.length := (List.getElem?_eq_some_iff.mp hc).1
  simp only [next, hc, Option.bind_some, callStep, hpc, Option.map_some, Option.some.injEq] at hs
  subst hs
  refine ⟨?_, rfl⟩
  show ((s.calls.set i _).map _)[i]?.map Call.pc = _
  rw [List.getElem?_map, List.getElem?_set_self hlt]
  rfl

/-- **One map.** In every state some interleaving of calls reaches: a step
    that performs an operation on one key returns the result and leaves
    behind the map that the operation gives on the one map the stripes make
    up, and no other step changes that map; a list `keys` has returned has
    every key once that was stored throughout the call, no key twice, and
    no key that was stored at no moment of it; a number `size` has returned
    lies between the number of keys stored throughout the call and the
    number of those stored at some moment, and is the number of keys stored
    if these did not change. -/
theorem behaves_as_one_map {tr : List (Label K V)}
    (hrun : (system K V hash numStripes).Run tr s) :
    (∀ i op s', next s (.step i) = some s' → s.effect (.step i) = some op →
      s'.calls[i]?.map Call.pc = some (.done (op.spec s.map.whole).1) ∧
        s'.map.whole = (op.spec s.map.whole).2) ∧
    (∀ l s', next s l = some s' → s.effect l = none → s'.map.whole = s.map.whole) ∧
    (∀ c ∈ s.calls, ∀ r, c.pc = .done (.keys r) → Listed c.moments r) ∧
    (∀ c ∈ s.calls, ∀ n, c.pc = .done (.count n) → Counted c.moments n) := by
  have hok := ok_of_run hrun
  refine ⟨?_, ?_, ?_, ?_⟩
  · intro i op s' hs heff
    obtain ⟨hcall, hmap⟩ := single_of_next hs heff
    rw [← KeyOp.apply_eq_spec s.map op, hcall, hmap]
    exact ⟨rfl, rfl⟩
  · intro l s' hs heff
    rw [map_of_next hs heff]
  · intro c hc r hpc
    have hc' := hok c hc
    rw [Call.Ok, hpc] at hc'
    exact hc'
  · intro c hc n hpc
    have hc' := hok c hc
    rw [Call.Ok, hpc] at hc'
    exact hc'

/-- The keys 1 and 2 are stored, in two stripes; 2 is erased after `keys`
    has read its stripe. -/
def eraseBehind : List (Label ℕ ℕ) :=
  [.call (.single (.insert 1 10)), .step 0, .call (.single (.insert 2 20)), .step 1,
    .call .keys, .step 2, .call (.single (.erase 2)), .step 3, .step 2, .step 2]

theorem eraseBehind_listed :
    ∃ s, (system ℕ ℕ id 2).Run eraseBehind s ∧ s.map.whole.lookup 2 = none ∧
      ∃ c ∈ s.calls, c.pc = .done (.keys [2, 1]) ∧ Listed c.moments [2, 1] := by
  have hexec : (System.exec next (initial : State ℕ ℕ id 2) eraseBehind).map
      (fun s => (s.map.whole.lookup 2, s.calls[2]?.map Call.pc)) =
        some (none, some (.done (.keys [2, 1]))) := rfl
  obtain ⟨s, hrun, hs⟩ := System.exists_run_of_exec hexec
  simp only [Prod.mk.injEq] at hs
  obtain ⟨c, hc, hpc⟩ := Option.map_eq_some_iff.mp hs.2
  have hmem := List.mem_of_getElem? hc
  exact ⟨s, hrun, hs.1, c, hmem, hpc, (behaves_as_one_map hrun).2.2.1 c hmem _ hpc⟩

end ConcurrentMap

end Forge
